import Mathlib.Tactic.Common

/-!
# Scanning loops

A scanning loop reads memory one symbol after another and takes what it reads.  It
ends at the first symbol that stops it, it is refused at a symbol it may not take, and
it faults when it reads past the end of memory.  `Scanner.run_cases` says that one of
the three happens, `Scanner.stopped_iff` and `Scanner.refused_iff` say when;
`Scanner.run_append` says that a loop that does not fault reads nothing of what comes
after.
-/

/-- How a scanning loop ends.  `taken` is what it took, `rest` is the memory from the
symbol it ended at. -/
inductive Scan (α : Type*) where
  | fault
  | refused (taken rest : List α)
  | stopped (taken rest : List α)

namespace Scan

variable {α : Type*}

/-- The same end after a symbol taken before. -/
def cons (b : α) : Scan α → Scan α
  | .fault => .fault
  | .refused taken rest => .refused (b :: taken) rest
  | .stopped taken rest => .stopped (b :: taken) rest

/-- The same end in a memory that goes on with `m`. -/
def extend (m : List α) : Scan α → Scan α
  | .fault => .fault
  | .refused taken rest => .refused taken (rest ++ m)
  | .stopped taken rest => .stopped taken (rest ++ m)

end Scan

/-- A scanner: the symbols that stop it, the symbols it may take, and whether it may
take one more symbol after a number of them. -/
structure Scanner (α : Type*) where
  stop : α → Bool
  ok : α → Bool := fun _ => true
  room : ℕ → Bool := fun _ => true

namespace Scanner

variable {α : Type*} (s : Scanner α)

/-- The scanning loop, from the memory `m` and after `i` symbols taken. -/
def run : ℕ → List α → Scan α
  | _, [] => .fault
  | i, b :: m =>
    if s.stop b then .stopped [] (b :: m)
    else if s.room i && s.ok b then (run (i + 1) m).cons b
    else .refused [] (b :: m)

/-- The scanner takes the symbols `xs`, after `i` symbols taken, without ending. -/
def Takes (i : ℕ) (xs : List α) : Prop :=
  (∀ b ∈ xs, s.stop b = false ∧ s.ok b = true) ∧ ∀ k < xs.length, s.room (i + k) = true

@[simp]
theorem takes_nil (i : ℕ) :
  s.Takes i []
  := by
  simp [Takes]

theorem takes_cons (i : ℕ) (b : α) (xs : List α) :
  s.Takes i (b :: xs)
    ↔ (s.stop b = false ∧ s.ok b = true ∧ s.room i = true) ∧ s.Takes (i + 1) xs
  := by
  constructor
  · rintro ⟨hsymbols, hroom⟩
    obtain ⟨hstop, hok⟩ := hsymbols b List.mem_cons_self
    refine ⟨⟨hstop, hok, ?_⟩, fun c hc => hsymbols c (List.mem_cons_of_mem b hc), ?_⟩
    · apply hroom 0
      simp
    · intro k hk
      have h := hroom (k + 1) (by simpa using hk)
      rw [← h]
      congr 1
      omega
  · rintro ⟨⟨hstop, hok, hroom⟩, hsymbols, hrooms⟩
    constructor
    · intro c hc
      rcases List.mem_cons.mp hc with rfl | hc
      · exact ⟨hstop, hok⟩
      · apply hsymbols c hc
    · rintro (_ | k) hk
      · apply hroom
      · have h := hrooms k (by simpa using hk)
        rw [← h]
        congr 1
        omega

/-- A scanner that always has room takes symbols that do not stop it and that it may
take. -/
theorem takes_of_forall {i : ℕ} {xs : List α} (hroom : ∀ k, s.room k = true)
    (h : ∀ b ∈ xs, s.stop b = false ∧ s.ok b = true) :
  s.Takes i xs
  := ⟨h, fun k _ => hroom (i + k)⟩

/-- A scanner that takes `xs` takes them and goes on with what comes after. -/
theorem run_takes {i : ℕ} {xs : List α} (h : s.Takes i xs) (m : List α) :
  s.run i (xs ++ m) = xs.foldr Scan.cons (s.run (i + xs.length) m)
  := by
  induction xs generalizing i with
  | nil => rfl
  | cons b xs ih =>
    obtain ⟨⟨hstop, hok, hroom⟩, hxs⟩ := (s.takes_cons i b xs).mp h
    rw [List.cons_append, run, hstop, hok, hroom, ih hxs, List.length_cons,
      show i + 1 + xs.length = i + (xs.length + 1) by omega]
    rfl

theorem foldr_cons_fault (xs : List α) :
  xs.foldr Scan.cons .fault = .fault
  := by
  induction xs with
  | nil => rfl
  | cons b xs ih => rw [List.foldr_cons, ih]; rfl

theorem foldr_cons_stopped (xs taken rest : List α) :
  xs.foldr Scan.cons (.stopped taken rest) = .stopped (xs ++ taken) rest
  := by
  induction xs with
  | nil => rfl
  | cons b xs ih => rw [List.foldr_cons, ih]; rfl

theorem foldr_cons_refused (xs taken rest : List α) :
  xs.foldr Scan.cons (.refused taken rest) = .refused (xs ++ taken) rest
  := by
  induction xs with
  | nil => rfl
  | cons b xs ih => rw [List.foldr_cons, ih]; rfl

/-- Every memory is what the scanner takes, followed by nothing, by a symbol that
stops it, or by a symbol it may not take. -/
theorem run_cases (i : ℕ) (m : List α) :
  (s.Takes i m ∧ s.run i m = .fault)
    ∨ (∃ xs b rest, m = xs ++ b :: rest ∧ s.Takes i xs ∧ s.stop b = true
        ∧ s.run i m = .stopped xs (b :: rest))
    ∨ (∃ xs b rest, m = xs ++ b :: rest ∧ s.Takes i xs ∧ s.stop b = false
        ∧ (s.room (i + xs.length) && s.ok b) = false ∧ s.run i m = .refused xs (b :: rest))
  := by
  induction m generalizing i with
  | nil =>
    left
    simp [run]
  | cons b m ih =>
    cases hstop : s.stop b with
    | true =>
      right; left
      use [], b, m
      simp [run, hstop]
    | false =>
      cases htake : s.room i && s.ok b with
      | false =>
        right; right
        use [], b, m
        simp [run, hstop, htake]
      | true =>
        have hrun : s.run i (b :: m) = (s.run (i + 1) m).cons b := by
          simp [run, hstop, htake]
        obtain ⟨hroom, hok⟩ := Bool.and_eq_true_iff.mp htake
        have hcons : ∀ xs, s.Takes (i + 1) xs → s.Takes i (b :: xs) := fun xs h =>
          (s.takes_cons i b xs).mpr ⟨⟨hstop, hok, hroom⟩, h⟩
        rcases ih (i + 1) with ⟨ht, h⟩ | ⟨xs, c, rest, rfl, ht, hc, h⟩
          | ⟨xs, c, rest, rfl, ht, hc, hc', h⟩
        · left
          rw [hrun, h]
          exact ⟨hcons m ht, rfl⟩
        · right; left
          use b :: xs, c, rest
          rw [hrun, h]
          exact ⟨rfl, hcons xs ht, hc, rfl⟩
        · right; right
          use b :: xs, c, rest
          rw [hrun, h]
          refine ⟨rfl, hcons xs ht, hc, ?_, rfl⟩
          rw [← hc', List.length_cons]
          congr 2
          omega

/-- The loop stops exactly when it takes symbols up to one that stops it. -/
theorem stopped_iff {i : ℕ} {m taken rest : List α} :
  s.run i m = .stopped taken rest
    ↔ m = taken ++ rest ∧ s.Takes i taken ∧ ∃ b tail, rest = b :: tail ∧ s.stop b = true
  := by
  constructor
  · intro h
    rcases s.run_cases i m with ⟨-, hm⟩ | ⟨xs, b, tail, rfl, ht, hb, hm⟩
      | ⟨xs, b, tail, rfl, ht, hb, hb', hm⟩
    · cases hm.symm.trans h
    · cases hm.symm.trans h
      exact ⟨rfl, ht, b, tail, rfl, hb⟩
    · cases hm.symm.trans h
  · rintro ⟨rfl, ht, b, tail, rfl, hb⟩
    rw [s.run_takes ht, run, hb, if_pos rfl, foldr_cons_stopped, List.append_nil]

/-- The loop is refused exactly when it takes symbols up to one it may not take. -/
theorem refused_iff {i : ℕ} {m taken rest : List α} :
  s.run i m = .refused taken rest
    ↔ m = taken ++ rest ∧ s.Takes i taken ∧ ∃ b tail, rest = b :: tail ∧ s.stop b = false
      ∧ (s.room (i + taken.length) && s.ok b) = false
  := by
  constructor
  · intro h
    rcases s.run_cases i m with ⟨-, hm⟩ | ⟨xs, b, tail, rfl, ht, hb, hm⟩
      | ⟨xs, b, tail, rfl, ht, hb, hb', hm⟩
    · cases hm.symm.trans h
    · cases hm.symm.trans h
    · cases hm.symm.trans h
      exact ⟨rfl, ht, b, tail, rfl, hb, hb'⟩
  · rintro ⟨rfl, ht, b, tail, rfl, hb, hb'⟩
    rw [s.run_takes ht, run, hb, hb', if_neg Bool.false_ne_true, if_neg Bool.false_ne_true,
      foldr_cons_refused, List.append_nil]

/-- A loop that does not fault ends the same way whatever comes after. -/
theorem run_append {i : ℕ} {m : List α} (h : s.run i m ≠ .fault) (m' : List α) :
  s.run i (m ++ m') = (s.run i m).extend m'
  := by
  rcases s.run_cases i m with ⟨-, hm⟩ | ⟨xs, b, tail, rfl, ht, hb, hm⟩
    | ⟨xs, b, tail, rfl, ht, hb, hb', hm⟩
  · apply absurd hm h
  · rw [hm]
    apply s.stopped_iff.mpr
    exact ⟨by simp, ht, b, tail ++ m', rfl, hb⟩
  · rw [hm]
    apply s.refused_iff.mpr
    exact ⟨by simp, ht, b, tail ++ m', rfl, hb, hb'⟩

/-- The symbols that the loop takes, also when it faults. -/
def taken (i : ℕ) (m : List α) : List α :=
  match s.run i m with
  | .fault => m
  | .refused taken _ => taken
  | .stopped taken _ => taken

theorem takes_taken (i : ℕ) (m : List α) :
  s.Takes i (s.taken i m)
  := by
  rcases s.run_cases i m with ⟨ht, hm⟩ | ⟨xs, b, tail, -, ht, -, hm⟩
    | ⟨xs, b, tail, -, ht, -, -, hm⟩
  · rw [taken, hm]
    apply ht
  · rw [taken, hm]
    apply ht
  · rw [taken, hm]
    apply ht

/-- Memory begins with the symbols that the loop takes. -/
theorem exists_taken_append (i : ℕ) (m : List α) :
  ∃ rest, m = s.taken i m ++ rest
  := by
  rcases s.run_cases i m with ⟨-, hm⟩ | ⟨xs, b, tail, rfl, -, -, hm⟩
    | ⟨xs, b, tail, rfl, -, -, -, hm⟩
  · rw [taken, hm]
    use []
    rw [List.append_nil]
  · rw [taken, hm]
    use b :: tail
  · rw [taken, hm]
    use b :: tail

theorem taken_append {i : ℕ} {xs : List α} (h : s.Takes i xs) (m : List α) :
  s.taken i (xs ++ m) = xs ++ s.taken (i + xs.length) m
  := by
  have hrun := s.run_takes h m
  rw [taken, taken]
  cases hm : s.run (i + xs.length) m with
  | fault =>
    rw [hrun, hm, foldr_cons_fault]
  | refused xs' rest =>
    rw [hrun, hm, foldr_cons_refused]
  | stopped xs' rest =>
    rw [hrun, hm, foldr_cons_stopped]

section NeverRefused

variable {s} (hok : ∀ b, s.ok b = true) (hroom : ∀ k, s.room k = true)

include hok hroom

/-- A loop that is never refused stops at the first symbol that stops it. -/
theorem run_eq_stopped {xs : List α} {b : α} (hxs : ∀ c ∈ xs, s.stop c = false)
    (hb : s.stop b = true) (i : ℕ) (rest : List α) :
  s.run i (xs ++ b :: rest) = .stopped xs (b :: rest)
  := by
  apply s.stopped_iff.mpr
  refine ⟨rfl, s.takes_of_forall hroom ?_, b, rest, rfl, hb⟩
  intro c hc
  exact ⟨hxs c hc, hok c⟩

/-- A loop that is never refused faults or stops. -/
theorem run_eq_fault_or (i : ℕ) (m : List α) :
  s.run i m = .fault
    ∨ ∃ xs b rest, m = xs ++ b :: rest ∧ (∀ c ∈ xs, s.stop c = false) ∧ s.stop b = true
  := by
  rcases s.run_cases i m with ⟨-, hm⟩ | ⟨xs, b, rest, rfl, ht, hb, -⟩
    | ⟨xs, b, rest, rfl, -, -, hrefused, -⟩
  · left
    apply hm
  · right
    exact ⟨xs, b, rest, rfl, fun c hc => (ht.1 c hc).1, hb⟩
  · rw [hroom, hok] at hrefused
    cases hrefused

end NeverRefused

end Scanner
