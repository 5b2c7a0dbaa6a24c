import Trailermatic.Library.Ledger
import Trailermatic.Library.Trace

/-!
# Resources and their owners

A value owns the resources that are to be released with it.  `Ledger.Passes l owned l' owned' n`
says that between two ledgers what was owned has passed into what is owned now, together with
what was acquired, except for `n` resources that nobody owns any more.  Such stretches follow
one another, and what others own does not matter to them.
-/

namespace Ledger

variable {α β γ τ : Type*} {l l' l'' : Ledger} {owned owned' owned'' : List ℕ} {m n : ℕ}

/-- Of the resources in `owned` and those acquired, all were released exactly once, except for
those in `owned'` and `n` others. -/
def Passes (l : Ledger) (owned : List ℕ) (l' : Ledger) (owned' : List ℕ) (n : ℕ) : Prop :=
  ∀ start kept, Keeps start l (owned ++ kept) →
    ∃ lost, lost.length = n ∧ Keeps start l' (owned' ++ (lost ++ kept))

theorem Passes.refl (l : Ledger) (owned : List ℕ) :
  Passes l owned l owned 0
  := by
  intro start kept h
  exact ⟨[], rfl, h⟩

theorem Passes.trans (h : Passes l owned l' owned' m) (h' : Passes l' owned' l'' owned'' n) :
  Passes l owned l'' owned'' (m + n)
  := by
  intro start kept hkeeps
  obtain ⟨lost, hlength, hlost⟩ := h start kept hkeeps
  obtain ⟨lost', hlength', hlost'⟩ := h' start (lost ++ kept) hlost
  refine ⟨lost' ++ lost, ?_, ?_⟩
  · rw [List.length_append, hlength, hlength', Nat.add_comm]
  · rw [List.append_assoc]
    apply hlost'

/-- A stretch that loses nothing comes first. -/
theorem Passes.andThen (h : Passes l owned l' owned' 0) (h' : Passes l' owned' l'' owned'' n) :
  Passes l owned l'' owned'' n
  := by
  rw [← Nat.zero_add n]
  apply h.trans h'

/-- The order does not matter. -/
theorem Passes.of_perm {owned₁ owned₁' : List ℕ} (h : Passes l owned l' owned' n)
    (hperm : owned₁.Perm owned) (hperm' : owned'.Perm owned₁') :
  Passes l owned₁ l' owned₁' n
  := by
  intro start kept hkeeps
  obtain ⟨lost, hlength, hlost⟩ := h start kept (hkeeps.of_perm (hperm.append_right kept))
  exact ⟨lost, hlength, hlost.of_perm (hperm'.append_right _)⟩

/-- What others own stays theirs. -/
theorem Passes.frame (h : Passes l owned l' owned' n) (others : List ℕ) :
  Passes l (owned ++ others) l' (owned' ++ others) n
  := by
  intro start kept hkeeps
  rw [List.append_assoc] at hkeeps
  obtain ⟨lost, hlength, hlost⟩ := h start (others ++ kept) hkeeps
  refine ⟨lost, hlength, hlost.of_perm ?_⟩
  rw [List.append_assoc]
  apply List.Perm.append_left
  rw [← List.append_assoc, ← List.append_assoc]
  apply List.perm_append_comm.append_right

theorem passes_acquire (l : Ledger) (owned : List ℕ) :
  Passes l owned l.acquire (l.acquired :: owned) 0
  := by
  intro start kept h
  exact ⟨[], rfl, h.acquire⟩

theorem passes_release (l : Ledger) (n : ℕ) (owned : List ℕ) :
  Passes l (n :: owned) (l.release n) owned 0
  := by
  intro start kept h
  exact ⟨[], rfl, h.release⟩

/-- What nobody owns any more is lost. -/
theorem passes_lose (l : Ledger) (gone owned : List ℕ) :
  Passes l (gone ++ owned) l owned gone.length
  := by
  intro start kept h
  refine ⟨gone, rfl, h.of_perm ?_⟩
  rw [← List.append_assoc]
  apply List.perm_append_comm.append_right

/-- What is owned anew takes the place of what was owned before, which is lost. -/
theorem Passes.overwrite {new : List ℕ} (h : Passes l [] l' new 0) (old rest : List ℕ) :
  Passes l (old ++ rest) l' (new ++ rest) old.length
  := by
  apply (h.frame (old ++ rest)).andThen
  apply (passes_lose l' old (new ++ rest)).of_perm _ (List.Perm.refl _)
  rw [← List.append_assoc, ← List.append_assoc]
  apply List.perm_append_comm.append_right

/-- What happens on a ledger of its own, with its resources numbered on. -/
def append (l l' : Ledger) : Ledger :=
  ⟨l.acquired + l'.acquired, l'.released.map (l.acquired + ·) ++ l.released⟩

theorem keeps_append (l : Ledger) {l' : Ledger} {kept : List ℕ} (h : Keeps empty l' kept) :
  Keeps l (l.append l') (kept.map (l.acquired + ·))
  := by
  obtain ⟨closed, hreleased, hperm⟩ := h.accounts
  refine ⟨Nat.le_add_right _ _, closed.map (l.acquired + ·), ?_, ?_⟩
  · rw [append, hreleased, empty, List.append_nil]
  · have hbetween : l.between (l.append l') = (empty.between l').map (l.acquired + ·) := by
      rw [between, between, append, List.map_add_range', empty, Nat.add_sub_cancel_left]
      rfl
    rw [hbetween, ← List.map_append]
    apply hperm.map

theorem passes_append (l : Ledger) (owned : List ℕ) (h : Passes empty [] l' [] n) :
  Passes l owned (l.append l') owned n
  := by
  intro start kept hkeeps
  obtain ⟨lost, hlength, hlost⟩ := h empty [] (Balanced.refl empty)
  rw [List.append_nil] at hlost
  refine ⟨lost.map (l.acquired + ·), by rw [List.length_map, hlength], ?_⟩
  apply (hkeeps.trans (keeps_append l hlost)).of_perm
  rw [List.append_assoc]
  apply List.perm_append_comm.append_left

/-- A loop over values that own resources.  What it loses is what is seen on the way. -/
theorem passes_foldl (owned : β → List ℕ) (meaning : β → τ) (seen : τ → α → List γ)
    {p : γ → Bool} {step : β × Ledger → α → β × Ledger} {act : τ → α → τ}
    (hmeaning : ∀ s x, meaning (step s x).1 = act (meaning s.1) x)
    (hstep : ∀ s x, Passes s.2 (owned s.1) (step s x).2 (owned (step s x).1)
      ((seen (meaning s.1) x).countP p))
    (s : β × Ledger) (xs : List α) :
  meaning (xs.foldl step s).1 = xs.foldl act (meaning s.1)
    ∧ Passes s.2 (owned s.1) (xs.foldl step s).2 (owned (xs.foldl step s).1)
      ((Trace.trace act seen (meaning s.1) xs).countP p)
  := by
  induction xs generalizing s with
  | nil => exact ⟨rfl, Passes.refl _ _⟩
  | cons x xs ih =>
    obtain ⟨hrest, hpasses⟩ := ih (step s x)
    rw [hmeaning] at hrest hpasses
    rw [Trace.trace, List.countP_append, List.foldl_cons, List.foldl_cons]
    exact ⟨hrest, (hstep s x).trans hpasses⟩

/-- Releasing value after value releases all they own. -/
theorem passes_foldl_release {owned : α → List ℕ} {step : Ledger → α → Ledger}
    (hstep : ∀ l x, Passes l (owned x) (step l x) [] 0) (l : Ledger) (xs : List α) :
  Passes l (xs.flatMap owned) (xs.foldl step l) [] 0
  := by
  induction xs generalizing l with
  | nil => apply Passes.refl
  | cons x xs ih =>
    rw [List.flatMap_cons, List.foldl_cons]
    apply ((hstep l x).frame _).andThen (ih _)

/-- When nobody owns anything in the end, the lost resources are those that were not
released. -/
theorem Passes.exists_keeps (h : Passes l [] l' [] n) :
  ∃ lost, lost.length = n ∧ Keeps l l' lost
  := by
  obtain ⟨lost, hlength, hlost⟩ := h l [] (Balanced.refl l)
  rw [List.append_nil] at hlost
  exact ⟨lost, hlength, hlost⟩

/-- Everything is released exactly if nothing is lost. -/
theorem Passes.balanced_iff (h : Passes l [] l' [] n) :
  Balanced l l' ↔ n = 0
  := by
  obtain ⟨lost, rfl, hlost⟩ := h.exists_keeps
  rw [hlost.balanced_iff, List.length_eq_zero_iff]

end Ledger
