import Trailermatic.Downloads
import Trailermatic.Library.Lines
import Trailermatic.Library.Loop

/-!
# The state file

`saveState` writes the history into the state file, one entry a line; `loadState` reads
it back.  Saving is a sequence of steps, each of which the file system may refuse, so
that what is left of a file after any number of steps can be said.
-/

namespace Trailermatic

/-! ### Saving -/

/-- What the file system answers while the state is saved: whether the file can be
opened, and whether the write of each entry succeeds. -/
structure SaveAnswers where
  fopen : Bool
  fwrite : ℕ → Bool

/-- Nothing is refused. -/
def SaveAnswers.granting : SaveAnswers :=
  ⟨true, fun _ => true⟩

/-- A step of saving that has happened. -/
inductive SaveStep where
  | fopen
  | fwrite (line : Bytes)
  | fclose
deriving DecidableEq

/-- What a step makes of the content of the state file; `none` is a file that does not
exist. -/
def SaveStep.apply (file : Option Bytes) : SaveStep → Option Bytes
  | .fopen => some []
  | .fwrite line => file.map (· ++ line)
  | .fclose => file

/-- A run of `saveState`: the steps that happened, the writes into its line buffer, and
the value it returns. -/
structure SaveRun where
  steps : List SaveStep
  copies : List Copy
  ret : ℤ

/-- What `sprintf` makes of an entry. -/
def saveLine (entry : Str) : Bytes :=
  entry.bytes ++ [newline]

/-- The loop over the entries, of which `i` have been written. -/
def saveEntries (a : SaveAnswers) : ℕ → List Str → SaveRun
  | _, [] => ⟨[.fclose], [], 0⟩
  | i, entry :: entries =>
    let copy : Copy := ⟨.line, (saveLine entry).length + 1⟩
    if a.fwrite i then
      let run := saveEntries a (i + 1) entries
      ⟨.fwrite (saveLine entry) :: run.steps, copy :: run.copies, run.ret⟩
    else ⟨[.fclose], [copy], -1⟩

/-- Write the history to the state file, which is emptied when it is opened. -/
def saveState (a : SaveAnswers) (downloads : List Str) : SaveRun :=
  if a.fopen then
    let run := saveEntries a 0 downloads
    { run with steps := .fopen :: run.steps }
  else ⟨[], [], -1⟩

/-- The content of the state file after some steps. -/
def runSteps (steps : List SaveStep) (file : Option Bytes) : Option Bytes :=
  steps.foldl SaveStep.apply file

/-- The content of a state file that holds the entries, one per line. -/
def stateFile (downloads : List Str) : Bytes :=
  Lines.unlines newline (downloads.map Str.bytes)

theorem stateFile_cons (entry : Str) (entries : List Str) :
  stateFile (entry :: entries) = saveLine entry ++ stateFile entries
  := by
  simp [stateFile, saveLine, Lines.unlines_cons]

/-- The number of writes that succeed before one is refused, of `n` writes from the
`i`-th on. -/
def SaveAnswers.granted (a : SaveAnswers) : ℕ → ℕ → ℕ
  | _, 0 => 0
  | i, n + 1 => if a.fwrite i then granted a (i + 1) n + 1 else 0

theorem SaveAnswers.granted_le (a : SaveAnswers) (i n : ℕ) :
  a.granted i n ≤ n
  := by
  induction n generalizing i with
  | zero => rfl
  | succ n ih =>
    rw [granted]
    split_ifs
    · apply Nat.succ_le_succ (ih (i + 1))
    · apply Nat.zero_le

theorem SaveAnswers.granted_of_forall {a : SaveAnswers} (h : ∀ i, a.fwrite i = true) (i n : ℕ) :
  a.granted i n = n
  := by
  induction n generalizing i with
  | zero => rfl
  | succ n ih => rw [granted, if_pos (h i), ih]

/-- Saving the entries writes them up to the first write that is refused, and closes
the file. -/
theorem saveEntries_steps (a : SaveAnswers) (i : ℕ) (entries : List Str) :
  (saveEntries a i entries).steps
    = (entries.take (a.granted i entries.length)).map (fun e => .fwrite (saveLine e))
      ++ [.fclose]
  := by
  induction entries generalizing i with
  | nil => rfl
  | cons entry entries ih =>
    rw [saveEntries, List.length_cons, SaveAnswers.granted]
    split_ifs with hw
    · simp only [ih, List.take_succ_cons, List.map_cons, List.cons_append]
    · rfl

/-- Saving the entries returns `0` exactly when no write is refused. -/
theorem saveEntries_ret (a : SaveAnswers) (i : ℕ) (entries : List Str) :
  (saveEntries a i entries).ret = 0 ↔ a.granted i entries.length = entries.length
  := by
  induction entries generalizing i with
  | nil => simp [saveEntries, SaveAnswers.granted]
  | cons entry entries ih =>
    rw [saveEntries, List.length_cons, SaveAnswers.granted]
    split_ifs with hw
    · simp [ih]
    · simp

/-- Saving the entries puts each entry into the line buffer up to and with the first one
whose write is refused. -/
theorem saveEntries_copies (a : SaveAnswers) (i : ℕ) (entries : List Str) :
  (saveEntries a i entries).copies
    = (entries.take (a.granted i entries.length + 1)).map
        (fun e => ⟨.line, (saveLine e).length + 1⟩)
  := by
  induction entries generalizing i with
  | nil => rfl
  | cons entry entries ih =>
    rw [saveEntries, List.length_cons, SaveAnswers.granted]
    split_ifs with hw
    · simp only [ih, List.take_succ_cons, List.map_cons]
    · rfl

/-- What is left of an open file when saving the entries stops after `k` steps. -/
theorem runSteps_take_saveEntries (a : SaveAnswers) (i : ℕ) (entries : List Str) (k : ℕ)
    (file : Bytes) :
  runSteps ((saveEntries a i entries).steps.take k) (some file)
    = some (file ++ stateFile (entries.take (min k (a.granted i entries.length))))
  := by
  induction entries generalizing i k file with
  | nil =>
    cases k with
    | zero => simp [saveEntries, runSteps, stateFile]
    | succ k => simp [saveEntries, runSteps, stateFile, SaveStep.apply]
  | cons entry entries ih =>
    rw [saveEntries, List.length_cons, SaveAnswers.granted]
    cases k with
    | zero => simp [runSteps, stateFile]
    | succ k =>
      split_ifs with hw
      · rw [Nat.add_min_add_right, List.take_succ_cons, List.take_succ_cons, stateFile_cons,
          ← List.append_assoc, ← ih (i + 1) k]
        rfl
      · simp [runSteps, stateFile, SaveStep.apply]

/-- What is left of the state file when saving stops after `k` steps: the file as it was
until it is opened, and from then on the entries written so far. -/
theorem runSteps_take_saveState (a : SaveAnswers) (downloads : List Str) (k : ℕ)
    (file : Option Bytes) :
  runSteps ((saveState a downloads).steps.take k) file
    = if k = 0 ∨ a.fopen = false then file
      else some (stateFile (downloads.take (min (k - 1) (a.granted 0 downloads.length))))
  := by
  cases hopen : a.fopen with
  | false => simp [saveState, hopen, runSteps]
  | true =>
    cases k with
    | zero => simp [runSteps]
    | succ k =>
      have h := runSteps_take_saveEntries a 0 downloads k []
      rw [List.nil_append] at h
      simp only [saveState, hopen, if_true, List.take_succ_cons, Nat.add_sub_cancel]
      rw [if_neg (by simp), ← h]
      rfl

/-- When no step is refused saving succeeds and the file holds the entries. -/
theorem runSteps_saveState (downloads : List Str) (file : Option Bytes) :
  (saveState .granting downloads).ret = 0
    ∧ runSteps (saveState .granting downloads).steps file = some (stateFile downloads)
  := by
  have hgranted : SaveAnswers.granting.granted 0 downloads.length = downloads.length :=
    SaveAnswers.granted_of_forall (fun _ => rfl) 0 downloads.length
  constructor
  · apply (saveEntries_ret .granting 0 downloads).mpr hgranted
  · have h := runSteps_take_saveState .granting downloads (downloads.length + 2) file
    have hlen : (saveState .granting downloads).steps.length ≤ downloads.length + 2 := by
      have htake := List.length_take_le' (SaveAnswers.granting.granted 0 downloads.length) downloads
      simp only [saveState, SaveAnswers.granting, if_true, saveEntries_steps, List.length_cons,
        List.length_append, List.length_map, List.length_nil] at htake ⊢
      omega
    rw [List.take_of_length_le hlen, if_neg (by simp [SaveAnswers.granting]), hgranted] at h
    simpa using h

/-- Every entry is put into the line buffer with a newline and a NUL. -/
theorem fits_saveState_iff (downloads : List Str) :
  (∀ c ∈ (saveState .granting downloads).copies, c.Fits)
    ↔ ∀ e ∈ downloads, e.bytes.length + 1 ≤ MAX_LINE_LEN
  := by
  have hgranted : SaveAnswers.granting.granted 0 downloads.length = downloads.length :=
    SaveAnswers.granted_of_forall (fun _ => rfl) 0 downloads.length
  have hcopies : (saveState .granting downloads).copies
      = downloads.map (fun e => ⟨.line, (saveLine e).length + 1⟩) := by
    apply Eq.trans (saveEntries_copies .granting 0 downloads)
    rw [hgranted, List.take_of_length_le (Nat.le_succ _)]
  rw [hcopies, List.forall_mem_map]
  simp [Copy.Fits, Buffer.size, saveLine]

/-! ### Loading -/

/-- `fgets` with a buffer of `size` bytes: the line read and the rest of the file, or
`none` at the end of the file. -/
def fgets (size : ℕ) (file : Bytes) : Option (Bytes × Bytes) :=
  if file = [] then none else some (Lines.takeLine newline (size - 1) file)

/-- The entry a line gives: a line of more than 20 bytes, without its last byte. -/
def loadEntry (line : Bytes) : Option Str :=
  let len := strlen line
  if 20 < len then (amStrndup line (len - 1)).bind Str.ofBytes else none

/-- The loop over the lines of the state file. -/
def loadLoop : Loop (Bytes × List Str) (List Str) where
  turn := fun (file, head) =>
    match fgets MAX_LINE_LEN file with
    | none => .done head
    | some (line, rest) => .next (rest, addToTail (loadEntry line) head)
  size := fun (file, _) => file.length
  consumes := by
    rintro ⟨file, head⟩ ⟨rest, head'⟩ h
    rcases eq_or_ne file [] with rfl | hfile
    · cases h
    · simp only [fgets, if_neg hfile] at h
      cases h
      apply Lines.length_takeLine_lt newline (by decide) hfile

/-- Load the state file into the list `head`; the file may not exist. -/
def loadState (file : Option Bytes) (head : List Str) : ℤ × List Str :=
  match file with
  | none => (-1, head)
  | some content => (0, loadLoop.run (content, head))

theorem loadLoop_turn_nil (head : List Str) :
  loadLoop.turn ([], head) = .done head
  := rfl

theorem loadLoop_turn {file : Bytes} (hfile : file ≠ []) (head : List Str) :
  loadLoop.turn (file, head)
    = .next ((Lines.takeLine newline (MAX_LINE_LEN - 1) file).2,
        addToTail (loadEntry (Lines.takeLine newline (MAX_LINE_LEN - 1) file).1) head)
  := by
  simp only [loadLoop, fgets, if_neg hfile]

/-- Loading adds the entries of the lines of the file. -/
theorem loadLoop_run (file : Bytes) (head : List Str) :
  loadLoop.run (file, head)
    = head ++ (Lines.lines newline (MAX_LINE_LEN - 1) file).filterMap loadEntry
  := by
  induction file using Lines.lines.induct newline (MAX_LINE_LEN - 1) generalizing head with
  | case1 file h ih =>
    rw [loadLoop.run_next (loadLoop_turn h.2 head), ih, Lines.lines_of_ne_nil newline h.1 h.2,
      List.filterMap_cons]
    cases loadEntry (Lines.takeLine newline (MAX_LINE_LEN - 1) file).1 with
    | none => rfl
    | some e => simp [addToTail]
  | case2 file h =>
    have hfile : file = [] := by
      by_contra hne
      apply h ⟨by decide, hne⟩
    rw [hfile, loadLoop.run_done (loadLoop_turn_nil head)]
    simp

theorem loadState_some (file : Bytes) :
  loadState (some file) []
    = (0, (Lines.lines newline (MAX_LINE_LEN - 1) file).filterMap loadEntry)
  := by
  rw [loadState, loadLoop_run, List.nil_append]

end Trailermatic
