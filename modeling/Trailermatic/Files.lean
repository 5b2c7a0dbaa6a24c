import Trailermatic.Bytes

/-!
# Reading and writing files

`saveFile` writes a block of data into a file, and `readFile` reads a file into memory.
`saveFile_truthful_iff` says when the value that `saveFile` returns can be trusted.
-/

namespace Trailermatic

/-- A string in memory with the NUL behind it, and the number that is given for its size. -/
structure FileBuffer where
  bytes : Bytes
  len : UInt32
deriving DecidableEq

/-- `readFile`: the content of a file that may not exist.  The size of the buffer is computed in
32 bits, and there is no buffer of no bytes. -/
def readFile (file : Option Bytes) : Option FileBuffer :=
  match file with
  | none => none
  | some content =>
    let fileLen := UInt32.ofNat content.length
    if fileLen + 1 = 0 then none
    else some ⟨content.take fileLen.toNat ++ [0], fileLen⟩

/-- What the system answers to `saveFile`: whether the file can be opened, and how many bytes
`write` writes, `none` for an error. -/
structure WriteAnswers where
  opened : Bool
  write : Option ℕ

/-- The number of bytes that are written. -/
def WriteAnswers.written (a : WriteAnswers) : ℕ :=
  a.write.getD 0

/-- The value that `write` returns. -/
def WriteAnswers.ret (a : WriteAnswers) : ℤ :=
  match a.write with
  | none => -1
  | some n => n

/-- A run of `saveFile`: the value it returns, what is left of the file, and whether it printed
that writing failed. -/
structure SaveFileRun where
  ret : ℤ
  file : Option Bytes
  reported : Bool
deriving DecidableEq

/-- The bytes are written over the first ones of the file, which is created if there is none and
is not cut off. -/
def overwrite (bytes : Bytes) (file : Option Bytes) : Bytes :=
  bytes ++ (file.getD []).drop bytes.length

/-- `saveFile`.  The file is opened without `O_TRUNC`, so what is longer keeps its end. -/
def saveFile (a : WriteAnswers) (name data : Option Bytes) (size : UInt32) (file : Option Bytes) :
    SaveFileRun :=
  match name, data with
  | some _, some data =>
    if a.opened then
      { -- the value for a failed write is overwritten
        ret := 0
        file := some (overwrite (data.take a.written) file)
        reported := UInt32.ofInt a.ret ≠ size }
    else ⟨-1, file, false⟩
  | _, _ => ⟨-1, file, false⟩

/-- The file holds the data, so that `readFile` gives them. -/
def Holds (file : Option Bytes) (data : Bytes) : Prop :=
  file = some data ∧ readFile file = some ⟨data ++ [0], UInt32.ofNat data.length⟩

/-- The run returns `0` and the file holds the data, or it returns `-1`. -/
def SaveFileRun.Truthful (run : SaveFileRun) (data : Option Bytes) (size : UInt32) : Prop :=
  (run.ret = 0 ∧ ∃ block ∈ data, Holds run.file (block.take size.toNat)) ∨ run.ret = -1

/-! ### What a file holds -/

/-- After some bytes of the data are written over it, the file holds the data exactly if it held
the others before. -/
theorem overwrite_take_eq_iff {data : Bytes} {n : ℕ} (h : n ≤ data.length) (file : Option Bytes) :
  overwrite (data.take n) file = data ↔ (file.getD []).drop n = data.drop n
  := by
  rw [overwrite, List.length_take, Nat.min_eq_left h]
  conv =>
    lhs
    rhs
    rw [← List.take_append_drop n data]
  rw [List.append_cancel_left_eq]

/-- A file is read as it is, unless its size and the NUL need more than 32 bits. -/
theorem readFile_some_iff {content : Bytes} (h : content.length < 4294967296) :
  readFile (some content) = some ⟨content ++ [0], UInt32.ofNat content.length⟩
    ↔ content.length ≠ 4294967295
  := by
  have hlength : (UInt32.ofNat content.length).toNat = content.length := by
    rw [UInt32.toNat_ofNat']
    omega
  have hzero : UInt32.ofNat content.length + 1 = 0 ↔ content.length = 4294967295 := by
    rw [← UInt32.toNat_inj, UInt32.toNat_add, hlength]
    simp only [UInt32.reduceToNat]
    omega
  simp only [readFile, hzero, hlength, List.take_length]
  split_ifs with hmax
  · simp [hmax]
  · simp [hmax]

/-! ### When the value can be trusted -/

/-- An open file holds the data exactly if it held before what was not written. -/
theorem holds_overwrite_iff {data : Bytes} (hdata : data.length < 4294967296) {n : ℕ}
    (hn : n ≤ data.length) (file : Option Bytes) :
  Holds (some (overwrite (data.take n) file)) data
    ↔ data.length ≠ 4294967295 ∧ (file.getD []).drop n = data.drop n
  := by
  rw [Holds, Option.some_inj, ← readFile_some_iff hdata, ← overwrite_take_eq_iff hn]
  constructor
  · rintro ⟨heq, hread⟩
    rw [heq] at hread
    exact ⟨hread, heq⟩
  · rintro ⟨hread, heq⟩
    rw [heq]
    exact ⟨rfl, hread⟩

/-- `saveFile` returns `0` with the data in the file, or `-1`, exactly if it does not open the
file, or the file held before what was not written; in particular if all is written and the file
was not longer.  The largest size is never read back. -/
theorem saveFile_truthful_iff {a : WriteAnswers} {data : Option Bytes} {size : UInt32}
    (hsize : ∀ block ∈ data, size.toNat ≤ block.length) (hwritten : a.written ≤ size.toNat)
    (name file : Option Bytes) :
  (saveFile a name data size file).Truthful data size
    ↔ name = none ∨ a.opened = false ∨ ∀ block ∈ data, size.toNat ≠ 4294967295
      ∧ (file.getD []).drop a.written = (block.take size.toNat).drop a.written
  := by
  cases name with
  | none => exact iff_of_true (Or.inr rfl) (Or.inl rfl)
  | some name =>
    cases data with
    | none => exact iff_of_true (Or.inr rfl) (Or.inr (Or.inr nofun))
    | some block =>
      cases hopened : a.opened with
      | false =>
        refine iff_of_true ?_ (Or.inr (Or.inl rfl))
        right
        rw [saveFile, hopened]
        rfl
      | true =>
        have hlength : (block.take size.toNat).length = size.toNat := by
          rw [List.length_take, Nat.min_eq_left (hsize block rfl)]
        have hholds := holds_overwrite_iff (hlength.trans_lt size.toNat_lt)
          (hwritten.trans_eq hlength.symm) file
        have htake : (block.take size.toNat).take a.written = block.take a.written := by
          rw [List.take_take, Nat.min_eq_left hwritten]
        rw [htake, hlength] at hholds
        simp only [SaveFileRun.Truthful, saveFile, hopened, if_true, Option.mem_some_iff]
        simpa using hholds

/-- A write over a file that is not longer. -/
theorem saveFile_truthful_over :
  (saveFile ⟨true, some 3⟩ (some (text "f")) (some (text "new")) 3 (some (text "old"))).Truthful
    (some (text "new")) 3
  := by
  apply (saveFile_truthful_iff _ _ _ _).mpr
  · right; right
    rintro block ⟨⟩
    exact ⟨by decide, by decide⟩
  · rintro block ⟨⟩
    decide
  · decide

/-- All of the data are written over a longer file, and none of them because of an error: in both
cases `0` is returned, and the file does not hold the data. -/
theorem saveFile_not_truthful :
  saveFile ⟨true, some 1⟩ (some (text "f")) (some (text "x")) 1 (some (text "abcd"))
      = ⟨0, some (text "xbcd"), false⟩
    ∧ saveFile ⟨true, none⟩ (some (text "f")) (some (text "x")) 1 none = ⟨0, some [], true⟩
    ∧ ¬ (⟨0, some (text "xbcd"), false⟩ : SaveFileRun).Truthful (some (text "x")) 1
  := by
  refine ⟨by decide, by decide, ?_⟩
  rintro (⟨-, block, hblock, hfile, -⟩ | hret)
  · cases hblock
    revert hfile
    decide
  · cases hret

end Trailermatic
