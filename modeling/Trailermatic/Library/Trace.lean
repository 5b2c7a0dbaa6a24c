import Mathlib.Tactic.Common
import Mathlib.Data.List.Induction

/-!
# What a fold sees

A fold over a list passes through states.  Its trace is what it sees on the way, at each
element in the state reached there.  A fold that stops where a check fails gives a result
exactly if every check on the trace of the unchecked fold passes.  A variable that every
element of a kind overwrites is found empty at each of them exactly if none of them but
the last leaves anything in it.
-/

namespace Trace

variable {α β γ δ : Type*} (step : β → α → β)

/-- What is seen at the elements of a list. -/
def trace (seen : β → α → List γ) : β → List α → List γ
  | _, [] => []
  | b, x :: l => seen b x ++ trace seen (step b x) l

/-- A condition holds at every element of a list. -/
def Always (Q : β → α → Prop) : β → List α → Prop
  | _, [] => True
  | b, x :: l => Q b x ∧ Always Q (step b x) l

theorem always_append (Q : β → α → Prop) (b : β) (l l' : List α) :
  Always step Q b (l ++ l') ↔ Always step Q b l ∧ Always step Q (l.foldl step b) l'
  := by
  induction l generalizing b with
  | nil => simp [Always]
  | cons x l ih => rw [List.cons_append, Always, Always, List.foldl_cons, ih, and_assoc]

theorem always_append_singleton (Q : β → α → Prop) (b : β) (l : List α) (x : α) :
  Always step Q b (l ++ [x]) ↔ Always step Q b l ∧ Q (l.foldl step b) x
  := by
  rw [always_append, Always, Always, and_true]

theorem always_and (Q R : β → α → Prop) (b : β) (l : List α) :
  Always step (fun b x => Q b x ∧ R b x) b l ↔ Always step Q b l ∧ Always step R b l
  := by
  induction l generalizing b with
  | nil => simp [Always]
  | cons x l ih =>
    rw [Always, Always, Always, ih]
    apply and_and_and_comm

theorem always_forall_mem {ι : Type*} (indices : List ι) (Q : ι → β → α → Prop) (b : β)
    (l : List α) :
  Always step (fun b x => ∀ i ∈ indices, Q i b x) b l ↔ ∀ i ∈ indices, Always step (Q i) b l
  := by
  induction l generalizing b with
  | nil => simp [Always]
  | cons x l ih =>
    simp only [Always, ih]
    apply forall₂_and.symm

/-- A condition on the elements alone. -/
theorem always_const (Q : α → Prop) (b : β) (l : List α) :
  Always step (fun _ x => Q x) b l ↔ ∀ x ∈ l, Q x
  := by
  induction l generalizing b with
  | nil => simp [Always]
  | cons x l ih => rw [Always, ih, List.forall_mem_cons]

variable {step}

theorem always_congr {Q R : β → α → Prop} (h : ∀ b x, Q b x ↔ R b x) (b : β) (l : List α) :
  Always step Q b l ↔ Always step R b l
  := by
  induction l generalizing b with
  | nil => exact Iff.rfl
  | cons x l ih => rw [Always, Always, h, ih]

/-- Conditions that agree wherever one holds that holds at every element. -/
theorem always_congr_of {S Q R : β → α → Prop} {b : β} {l : List α} (hS : Always step S b l)
    (h : ∀ b x, S b x → (Q b x ↔ R b x)) :
  Always step Q b l ↔ Always step R b l
  := by
  induction l generalizing b with
  | nil => exact Iff.rfl
  | cons x l ih =>
    rw [Always, Always, h b x hS.1, ih hS.2]

/-- A fold that gives a state, as one with steps that always give a state. -/
theorem always_of_foldlM {checked : β → α → Option β}
    (h : ∀ b x b', checked b x = some b' → step b x = b') {b b' : β} {l : List α}
    (hl : l.foldlM checked b = some b') :
  l.foldl step b = b' ∧ Always step (fun b x => checked b x = some (step b x)) b l
  := by
  induction l generalizing b with
  | nil => exact ⟨Option.some.inj hl, trivial⟩
  | cons x l ih =>
    rw [List.foldlM_cons] at hl
    obtain ⟨b₁, hx, hrest⟩ := Option.bind_eq_some_iff.mp hl
    obtain rfl := h b x b₁ hx
    obtain ⟨hend, halways⟩ := ih hrest
    exact ⟨hend, hx, halways⟩

theorem forall_mem_trace_iff (seen : β → α → List γ) (P : γ → Prop) (b : β) (l : List α) :
  (∀ e ∈ trace step seen b l, P e) ↔ Always step (fun b x => ∀ e ∈ seen b x, P e) b l
  := by
  induction l generalizing b with
  | nil => simp [trace, Always]
  | cons x l ih => rw [trace, List.forall_mem_append, Always, ih]

/-- A fold that stops at the first check that fails. -/
theorem foldlM_eq_of_checked {seen : β → α → List γ} {check : γ → Bool}
    {checked : β → α → Option β}
    (h : ∀ b x, checked b x = if (seen b x).all check then some (step b x) else none) (b : β)
    (l : List α) :
  l.foldlM checked b
    = if (trace step seen b l).all check then some (l.foldl step b) else none
  := by
  induction l generalizing b with
  | nil => rfl
  | cons x l ih =>
    rw [List.foldlM_cons, h, trace, List.all_append]
    cases (seen b x).all check with
    | false => rfl
    | true =>
      rw [Bool.true_and, if_pos rfl]
      apply ih

/-- What every step that gives a state keeps holds at the end of a fold that gives one. -/
theorem foldlM_invariant {checked : β → α → Option β} {I : β → Prop} {b b' : β} {l : List α}
    (h : ∀ b, ∀ x ∈ l, ∀ b', I b → checked b x = some b' → I b') (hb : I b)
    (hl : l.foldlM checked b = some b') :
  I b'
  := by
  induction l generalizing b with
  | nil =>
    cases hl
    apply hb
  | cons x l ih =>
    rw [List.foldlM_cons] at hl
    obtain ⟨b₁, hx, hrest⟩ := Option.bind_eq_some_iff.mp hl
    apply ih _ (h b x List.mem_cons_self b₁ hb hx) hrest
    intro b y hy
    apply h b y (List.mem_cons_of_mem x hy)

/-- A fold whose steps give a state exactly if a condition holds of the element, whatever the state
before, gives one exactly if the condition holds of all elements. -/
theorem isSome_foldlM_iff {checked : β → α → Option β} {P : α → Prop} {l : List α}
    (h : ∀ x ∈ l, ∀ b, (checked b x).isSome ↔ P x) (b : β) :
  (l.foldlM checked b).isSome ↔ ∀ x ∈ l, P x
  := by
  induction l generalizing b with
  | nil => simp
  | cons x l ih =>
    rw [List.forall_mem_cons] at h ⊢
    rw [List.foldlM_cons, ← h.1 b]
    cases checked b x with
    | none => simp
    | some b' =>
      rw [← ih h.2 b']
      simp

/-- A variable is found empty wherever it is overwritten exactly if no element that
overwrites it, but the last one, leaves anything in it. -/
theorem always_empty_iff {value : β → Option δ} {p : α → Prop} [DecidablePred p]
    {content : α → Option δ}
    (hstep : ∀ b x, value (step b x) = if p x then content x else value b) {b : β}
    (hstart : value b = none) (l : List α) :
  Always step (fun b x => p x → value b = none) b l
    ↔ l.Pairwise fun x y => p x → p y → content x = none
  := by
  have hboth : (Always step (fun b x => p x → value b = none) b l
      ↔ l.Pairwise fun x y => p x → p y → content x = none)
      ∧ ((l.Pairwise fun x y => p x → p y → content x = none) →
        (value (l.foldl step b) = none ↔ ∀ x ∈ l, p x → content x = none)) := by
    induction l using List.reverseRecOn with
    | nil => simp [Always, hstart]
    | append_singleton l y ih =>
      obtain ⟨ihalways, ihvalue⟩ := ih
      have hpairwise : (l ++ [y]).Pairwise (fun x y => p x → p y → content x = none)
          ↔ (l.Pairwise fun x y => p x → p y → content x = none)
            ∧ ∀ x ∈ l, p x → p y → content x = none := by
        simp [List.pairwise_append]
      rw [always_append_singleton, ihalways, hpairwise, List.foldl_append, List.foldl_cons,
        List.foldl_nil, hstep]
      constructor
      · apply and_congr_right
        intro hl
        rw [ihvalue hl]
        grind
      · rintro ⟨hl, hlast⟩
        have hvalue := ihvalue hl
        split_ifs with hy
        · grind
        · grind
  exact hboth.1

/-- What is left in a variable that is found empty wherever it is overwritten. -/
theorem foldl_empty_iff {value : β → Option δ} {p : α → Prop} [DecidablePred p]
    {content : α → Option δ}
    (hstep : ∀ b x, value (step b x) = if p x then content x else value b) {b : β}
    (hstart : value b = none) {l : List α}
    (hl : l.Pairwise fun x y => p x → p y → content x = none) :
  value (l.foldl step b) = none ↔ ∀ x ∈ l, p x → content x = none
  := by
  induction l using List.reverseRecOn with
  | nil => simp [hstart]
  | append_singleton l y ih =>
    obtain ⟨hbefore, -, hlast⟩ := List.pairwise_append.mp hl
    rw [List.foldl_append, List.foldl_cons, List.foldl_nil, hstep]
    have hvalue := ih hbefore
    split_ifs with hy
    · grind
    · grind

end Trace
