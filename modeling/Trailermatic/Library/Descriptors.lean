import Mathlib.Tactic.Common

/-!
# Tables of file descriptors

A process numbers its open files by descriptors.  Opening a file takes the least number that is
free, `dup2` makes another number refer to the same file, and a number that is closed is free
again.  A descriptor is `none` where the call that should give it failed.
-/

/-- The open file of each descriptor; beyond the end of the list all are free. -/
abbrev Descriptors (δ : Type*) := List (Option δ)

namespace Descriptors

variable {δ : Type*}

/-- The file of a descriptor, if it is open. -/
def get (t : Descriptors δ) (k : ℕ) : Option δ :=
  t.getD k none

/-- The table with another file, or none, at a descriptor. -/
def put : Descriptors δ → ℕ → Option δ → Descriptors δ
  | [], 0, x => [x]
  | [], k + 1, x => none :: put [] k x
  | _ :: t, 0, x => x :: t
  | y :: t, k + 1, x => y :: put t k x

/-- The least descriptor that is free. -/
def free : Descriptors δ → ℕ
  | [] => 0
  | none :: _ => 0
  | some _ :: t => free t + 1

/-- The table after an `open`, which takes the first free descriptor if it is granted. -/
def opened (t : Descriptors δ) (granted : Bool) (x : δ) : Option ℕ × Descriptors δ :=
  if granted then (some t.free, t.put t.free (some x)) else (none, t)

/-- Let `k` refer to the file of `fd` as well. -/
def dup2 (t : Descriptors δ) (fd : Option ℕ) (k : ℕ) : Descriptors δ :=
  match fd.bind t.get with
  | none => t
  | some x => t.put k (some x)

/-- The table after a descriptor is closed; there is nothing to close for a failed `open`. -/
def close (t : Descriptors δ) (fd : Option ℕ) : Descriptors δ :=
  match fd with
  | none => t
  | some k => t.put k none

theorem get_put (t : Descriptors δ) (k : ℕ) (x : Option δ) (j : ℕ) :
  (t.put k x).get j = if j = k then x else t.get j
  := by
  induction t, k, x using put.induct generalizing j with
  | case1 x =>
    cases j with
    | zero => rfl
    | succ j => rfl
  | case2 k x ih =>
    cases j with
    | zero => rfl
    | succ j => simpa [put, get] using ih j
  | case3 y t x =>
    cases j with
    | zero => rfl
    | succ j => rfl
  | case4 y t k x ih =>
    cases j with
    | zero => rfl
    | succ j => simpa [put, get] using ih j

theorem get_free (t : Descriptors δ) :
  t.get t.free = none
  := by
  induction t using free.induct with
  | case1 => rfl
  | case2 t => rfl
  | case3 x t ih => exact ih

/-- Below the least free descriptor all are open. -/
theorem le_free_iff {t : Descriptors δ} {n : ℕ} :
  n ≤ t.free ↔ ∀ k < n, t.get k ≠ none
  := by
  constructor
  · intro h k hk
    have hlt := Nat.lt_of_lt_of_le hk h
    clear h hk
    induction t using free.induct generalizing k with
    | case1 => cases hlt
    | case2 t => cases hlt
    | case3 x t ih =>
      cases k with
      | zero => exact Option.some_ne_none x
      | succ k => exact ih k (Nat.lt_of_succ_lt_succ hlt)
  · intro h
    by_contra hlt
    apply h t.free (Nat.lt_of_not_le hlt) t.get_free

end Descriptors
