import Trailermatic.Bytes
import Trailermatic.Library.Loop
import Trailermatic.Library.Scan

/-!
# The configuration file

`parseConfigFile` reads the file into memory and scans it with one loop, which calls
`setOption` for every option.  What `setOption` does is a parameter here.  Memory is the
content of the file and some bytes that stand behind it; a read past the end of what is
given is a fault, and then there is no result.
-/

namespace Trailermatic

/-- The type of an option, by the form in which its parameter is written. -/
inductive OptionType where
  | string | int | stringlist
deriving DecidableEq

variable {σ : Type}

/-- Where the parser is: how many bytes it has passed, the memory from there on, the
number of option names it has read, its writes into `opt` and `param`, and the state that
`setOption` changes. -/
structure Parse (σ : Type) where
  pos : ℕ
  mem : Bytes
  names : ℕ
  copies : List Copy
  state : σ

/-- What the parser leaves. -/
structure Parsed (σ : Type) where
  ret : ℤ
  names : ℕ
  copies : List Copy
  state : σ

/-- A part of a turn of the loop gives a value, or ends the loop: with a result, or with a
fault. -/
abbrev Flow (σ α : Type) :=
  Except (Option (Parsed σ)) α

namespace Parse

/-- Memory is read behind the bytes that are known. -/
def fault {α : Type} : Flow σ α :=
  .error none

/-- Leave the loop with a value to return. -/
def leave {α : Type} (p : Parse σ) (ret : ℤ) : Flow σ α :=
  .error (some ⟨ret, p.names, p.copies, p.state⟩)

/-- Pass the bytes `taken`, after which `rest` comes. -/
def move (p : Parse σ) (taken rest : Bytes) : Parse σ :=
  { p with pos := p.pos + taken.length, mem := rest }

/-- Write into a buffer. -/
def copy (p : Parse σ) (buffer : Buffer) (bytes : ℕ) : Parse σ :=
  { p with copies := p.copies ++ [⟨buffer, bytes⟩] }

end Parse

/-! ### Scanners -/

def hash : Byte := 35

def equals : Byte := 61

def doubleQuote : Byte := 34

def singleQuote : Byte := 39

def openBrace : Byte := 123

def closeBrace : Byte := 125

/-- Characters of which the name of an option is made. -/
def isOptChar (b : Byte) : Bool :=
  isprint b && b != 32 && b != hash && b != equals

/-- Characters of which a parameter without quotes is made. -/
def isParamChar (b : Byte) : Bool :=
  isprint b && !isspace b && b != hash

/-- The loop that skips whitespace. -/
def whitespace : Scanner Byte where
  stop b := !isspace b

/-- The loop that skips a comment. -/
def comment : Scanner Byte where
  stop b := b == newline

/-- The loop that reads the name of an option. -/
def optName : Scanner Byte where
  stop b := !isOptChar b

/-- A parameter in the quotes `c`, from the position `pos` of a file of `size` bytes. -/
def quoted (c : Byte) (size pos : ℕ) : Scanner Byte where
  stop b := b == c
  ok b := b != newline
  room i := pos + i < size && i < MAX_PARAM_LEN

/-- A parameter in braces. -/
def braced (size pos : ℕ) : Scanner Byte where
  stop b := b == closeBrace
  room i := pos + i < size && i < MAX_PARAM_LEN

/-- A parameter without quotes or braces. -/
def bare : Scanner Byte where
  stop b := !isParamChar b
  room i := i + 1 < MAX_PARAM_LEN

/-! ### Parts of a turn -/

namespace Parse

/-- Skip whitespace, and leave the loop at the end of the file. -/
def skipWhitespace (size : ℕ) (p : Parse σ) : Flow σ (Parse σ) :=
  match whitespace.run 0 p.mem with
  | .stopped taken rest =>
    let p := p.move taken rest
    if size ≤ p.pos then p.leave 0 else .ok p
  | _ => fault

/-- The byte the parser is at. -/
def peek (p : Parse σ) : Flow σ Byte :=
  match p.mem with
  | [] => fault
  | b :: _ => .ok b

/-- Pass a comment and the newline that ends it. -/
def skipComment (p : Parse σ) : Flow σ (Parse σ) :=
  match comment.run 0 p.mem with
  | .stopped taken rest => .ok (p.move (taken ++ rest.take 1) rest.tail)
  | _ => fault

/-- Read the name of an option.  A name that is empty or too long is an error, but is copied as far
as it was read. -/
def readOption (p : Parse σ) : Flow σ (Bytes × Parse σ) :=
  match optName.run 0 p.mem with
  | .stopped opt rest =>
    let p := p.move opt rest
    if opt = [] ∨ MAX_OPT_LEN ≤ opt.length then (p.copy .opt opt.length).leave (-1)
    else .ok (opt, { p.copy .opt (opt.length + 1) with names := p.names + 1 })
  | _ => fault

/-- Read the `=` behind the name; any other byte is an error. -/
def readEquals (p : Parse σ) : Flow σ (Parse σ) :=
  match p.mem with
  | [] => fault
  | b :: rest => if b = equals then .ok (p.move [b] rest) else p.leave (-1)

/-- Read a parameter up to what closes it. -/
def readClosed (s : Scanner Byte) (p : Parse σ) : Flow σ (Bytes × Parse σ) :=
  match s.run 0 p.mem with
  | .fault => fault
  | .refused param _ => (p.copy .param param.length).leave (-1)
  | .stopped param rest =>
    .ok (param, (p.move (param ++ rest.take 1) rest.tail).copy .param (param.length + 1))

/-- Read a parameter without quotes.  Its length is checked after each byte that is copied. -/
def readBare (p : Parse σ) : Flow σ (Bytes × Parse σ) :=
  match bare.run 0 p.mem with
  | .fault => fault
  | .refused param _ => (p.copy .param (param.length + 1)).leave (-1)
  | .stopped param rest => .ok (param, (p.move param rest).copy .param (param.length + 1))

/-- Read a parameter; its first byte decides the form. -/
def readParam (size : ℕ) (p : Parse σ) : Flow σ (OptionType × Bytes × Parse σ) :=
  match p.mem with
  | [] => fault
  | b :: rest =>
    let inner := p.move [b] rest
    if b = doubleQuote ∨ b = singleQuote then
      Prod.mk .string <$> readClosed (quoted b size inner.pos) inner
    else if b = openBrace then
      Prod.mk .stringlist <$> readClosed (braced size inner.pos) inner
    else Prod.mk .int <$> readBare p

/-- Call `setOption`, which takes the parameter as a C string. -/
def callSetOption (setOption : σ → Bytes → Bytes → OptionType → σ) (opt param : Bytes)
    (type : OptionType) (p : Parse σ) : Parse σ :=
  { p with state := setOption p.state opt (cstr param) type }

/-! ### The loop -/

/-- What a turn does from an option name up to the parameter. -/
def readHead (size : ℕ) (p : Parse σ) : Flow σ (Bytes × Parse σ) := do
  let (opt, p) ← p.readOption
  let p ← p.skipWhitespace size
  let p ← p.readEquals
  let p ← p.skipWhitespace size
  return (opt, p)

/-- What a turn does from an option name on. -/
def readEntry (setOption : σ → Bytes → Bytes → OptionType → σ) (size : ℕ) (p : Parse σ) :
    Flow σ (Parse σ) := do
  let (opt, p) ← p.readHead size
  let (type, param, p) ← p.readParam size
  (p.callSetOption setOption opt param type).skipWhitespace size

/-- The body of the loop. -/
def step (setOption : σ → Bytes → Bytes → OptionType → σ) (size : ℕ) (p : Parse σ) :
    Flow σ (Parse σ) := do
  let p ← p.skipWhitespace size
  let b ← p.peek
  if b = hash then p.skipComment else p.readEntry setOption size

/-! ### Every turn reads something -/

theorem bind_eq_ok {α β : Type} {x : Flow σ α} {f : α → Flow σ β} {b : β} :
  (x >>= f) = .ok b ↔ ∃ a, x = .ok a ∧ f a = .ok b
  := by
  cases x with
  | ok a => simp [Except.bind, bind]
  | error e => simp [Except.bind, bind]

theorem skipWhitespace_shrinks {size : ℕ} {p q : Parse σ} (h : p.skipWhitespace size = .ok q) :
  q.mem.length ≤ p.mem.length
  := by
  rw [skipWhitespace] at h
  split at h
  · rename_i taken rest hscan
    obtain ⟨hmem, -⟩ := whitespace.stopped_iff.mp hscan
    simp only at h
    split_ifs at h
    · cases h
    · cases h
      rw [hmem]
      simp [move]
  · cases h

theorem skipComment_shrinks {p q : Parse σ} (h : p.skipComment = .ok q) :
  q.mem.length < p.mem.length
  := by
  rw [skipComment] at h
  split at h
  · rename_i taken rest hscan
    obtain ⟨hmem, -, b, tail, rfl, -⟩ := comment.stopped_iff.mp hscan
    cases h
    rw [hmem]
    simp [move]
    omega
  · cases h

theorem readOption_shrinks {p q : Parse σ} {opt : Bytes} (h : p.readOption = .ok (opt, q)) :
  q.mem.length < p.mem.length
  := by
  rw [readOption] at h
  split at h
  · rename_i taken rest hscan
    obtain ⟨hmem, -⟩ := optName.stopped_iff.mp hscan
    simp only at h
    split_ifs at h with hbad
    · cases h
    · cases h
      rw [not_or] at hbad
      rw [hmem]
      simp [move, copy, List.length_pos_iff.mpr hbad.1]
  · cases h

theorem readEquals_shrinks {p q : Parse σ} (h : p.readEquals = .ok q) :
  q.mem.length ≤ p.mem.length
  := by
  rw [readEquals] at h
  split at h
  · cases h
  · rename_i b rest hmem
    split_ifs at h
    · cases h
      rw [hmem]
      simp [move]
    · cases h

theorem readClosed_shrinks {s : Scanner Byte} {p q : Parse σ} {param : Bytes}
    (h : p.readClosed s = .ok (param, q)) :
  q.mem.length ≤ p.mem.length
  := by
  rw [readClosed] at h
  split at h
  · cases h
  · cases h
  · rename_i taken rest hscan
    obtain ⟨hmem, -⟩ := s.stopped_iff.mp hscan
    cases h
    rw [hmem]
    simp [move, copy]
    omega

theorem readBare_shrinks {p q : Parse σ} {param : Bytes} (h : p.readBare = .ok (param, q)) :
  q.mem.length ≤ p.mem.length
  := by
  rw [readBare] at h
  split at h
  · cases h
  · cases h
  · rename_i taken rest hscan
    obtain ⟨hmem, -⟩ := bare.stopped_iff.mp hscan
    cases h
    rw [hmem]
    simp [move, copy]

theorem map_eq_ok {α β : Type} {x : Flow σ α} {f : α → β} {b : β} :
  f <$> x = .ok b ↔ ∃ a, x = .ok a ∧ f a = b
  := by
  cases x with
  | ok a => simp [Except.map, Functor.map]
  | error e => simp [Except.map, Functor.map]

theorem readParam_shrinks {size : ℕ} {p q : Parse σ} {type : OptionType} {param : Bytes}
    (h : p.readParam size = .ok (type, param, q)) :
  q.mem.length ≤ p.mem.length
  := by
  rw [readParam] at h
  split at h
  · cases h
  · rename_i b rest hmem
    have hinner (p' : Parse σ) (s : Scanner Byte) {type' : OptionType} (hp' : p'.mem = rest)
        (h : Prod.mk type' <$> readClosed s p' = .ok (type, param, q)) :
        q.mem.length ≤ p.mem.length := by
      obtain ⟨⟨_, _⟩, hread, hresult⟩ := map_eq_ok.mp h
      cases hresult
      rw [hmem, ← hp']
      apply Nat.le_succ_of_le (readClosed_shrinks hread)
    simp only at h
    split_ifs at h
    · apply hinner _ _ rfl h
    · apply hinner _ _ rfl h
    · obtain ⟨⟨_, _⟩, hread, hresult⟩ := map_eq_ok.mp h
      cases hresult
      apply readBare_shrinks hread

theorem readHead_shrinks {size : ℕ} {p q : Parse σ} {opt : Bytes}
    (h : p.readHead size = .ok (opt, q)) :
  q.mem.length < p.mem.length
  := by
  obtain ⟨⟨opt', p₁⟩, hopt, h⟩ := bind_eq_ok.mp h
  obtain ⟨p₂, hgap, h⟩ := bind_eq_ok.mp h
  obtain ⟨p₃, hequals, h⟩ := bind_eq_ok.mp h
  obtain ⟨p₄, hgap', h⟩ := bind_eq_ok.mp h
  cases h
  have h₁ := readOption_shrinks hopt
  have h₂ := skipWhitespace_shrinks hgap
  have h₃ := readEquals_shrinks hequals
  have h₄ := skipWhitespace_shrinks hgap'
  omega

theorem readEntry_shrinks {setOption : σ → Bytes → Bytes → OptionType → σ} {size : ℕ}
    {p q : Parse σ} (h : p.readEntry setOption size = .ok q) :
  q.mem.length < p.mem.length
  := by
  obtain ⟨⟨opt, p₁⟩, hhead, h⟩ := bind_eq_ok.mp h
  obtain ⟨⟨type, param, p₂⟩, hparam, h⟩ := bind_eq_ok.mp h
  have h₁ := readHead_shrinks hhead
  have h₂ := readParam_shrinks hparam
  have h₃ : q.mem.length ≤ p₂.mem.length :=
    skipWhitespace_shrinks (p := p₂.callSetOption setOption opt param type) h
  omega

theorem step_shrinks {setOption : σ → Bytes → Bytes → OptionType → σ} {size : ℕ}
    {p q : Parse σ} (h : p.step setOption size = .ok q) :
  q.mem.length < p.mem.length
  := by
  obtain ⟨p₁, hgap, h⟩ := bind_eq_ok.mp h
  obtain ⟨b, _, h⟩ := bind_eq_ok.mp h
  apply Nat.lt_of_lt_of_le _ (skipWhitespace_shrinks hgap)
  split_ifs at h
  · apply skipComment_shrinks h
  · apply readEntry_shrinks h

end Parse

/-- A `setOption` that records its calls. -/
def record (calls : List (Bytes × Bytes × OptionType)) (opt param : Bytes) (type : OptionType) :
    List (Bytes × Bytes × OptionType) :=
  calls ++ [(opt, param, type)]

/-! ### The loop -/

/-- What is returned at the end of the file.  The position is an `int`, and one that
overflows is a fault. -/
def Parse.finish (p : Parse σ) : Option (Parsed σ) :=
  if INT_MAX < p.pos then none else some ⟨0, p.names, p.copies, p.state⟩

/-- The loop over the file, which ends at the position `size`. -/
def parseLoop (setOption : σ → Bytes → Bytes → OptionType → σ) (size : ℕ) :
    Loop (Parse σ) (Option (Parsed σ)) where
  turn p :=
    if p.pos = size then .done p.finish
    else
      match p.step setOption size with
      | .ok q => .next q
      | .error result => .done result
  size p := p.mem.length
  consumes := by
    intro p q h
    split_ifs at h
    split at h
    · rename_i hstep
      cases h
      apply Parse.step_shrinks hstep
    · cases h

/-- Parse the file with the content `content`, behind which `beyond` stands in memory.  No
position from `2³¹` on can be read. -/
def parseContent (setOption : σ → Bytes → Bytes → OptionType → σ) (content beyond : Bytes)
    (state : σ) : Option (Parsed σ) :=
  (parseLoop setOption content.length).run
    ⟨0, (content ++ beyond).take (INT_MAX + 1), 0, [], state⟩

/-- Parse a configuration file, which may not exist.  An empty file cannot be read. -/
def parseConfigFile (setOption : σ → Bytes → Bytes → OptionType → σ) (file : Option Bytes)
    (beyond : Bytes) (state : σ) : Option (Parsed σ) :=
  match file with
  | none => some ⟨-1, 0, [], state⟩
  | some content =>
    if content = [] then some ⟨-1, 0, [], state⟩
    else parseContent setOption content beyond state

end Trailermatic
