import Mathlib.Tactic.Common
import Mathlib.Data.List.Basic

/-!
# Updates of fields

A record consists of fields, and an update changes one of them, or fails.  What a list of
updates makes of a record depends only on the updates of each field and their order, not on
how the updates of different fields are mixed.
-/

/-! ### Steps that commute -/

namespace Commuting

variable {α β κ : Type*} {step : β → α → β} (key : α → κ)

/-- A step can be taken before others of different keys. -/
theorem foldl_move (hcomm : ∀ b x y, key x ≠ key y → step (step b x) y = step (step b y) x)
    {a : α} {l : List α} (hl : ∀ x ∈ l, key x ≠ key a) (b : β) (rest : List α) :
  (l ++ a :: rest).foldl step b = (a :: (l ++ rest)).foldl step b
  := by
  induction l generalizing b with
  | nil => rfl
  | cons x l ih =>
    have hx : key x ≠ key a := hl x List.mem_cons_self
    calc (x :: l ++ a :: rest).foldl step b
        = (l ++ a :: rest).foldl step (step b x) := rfl
      _ = (a :: (l ++ rest)).foldl step (step b x) := by
          apply ih fun y hy => hl y (List.mem_cons_of_mem x hy)
      _ = (l ++ rest).foldl step (step (step b x) a) := rfl
      _ = (l ++ rest).foldl step (step (step b a) x) := by rw [hcomm b x a hx]
      _ = (a :: (x :: l ++ rest)).foldl step b := rfl

variable [DecidableEq κ]

/-- If steps of different keys commute, the result is determined by the steps of each key. -/
theorem foldl_eq_of_filter_eq
    (hcomm : ∀ b x y, key x ≠ key y → step (step b x) y = step (step b y) x) {l l' : List α}
    (h : ∀ k, l.filter (key · = k) = l'.filter (key · = k)) (b : β) :
  l.foldl step b = l'.foldl step b
  := by
  induction l generalizing b l' with
  | nil =>
    cases l' with
    | nil => rfl
    | cons y l' =>
      have hy := h (key y)
      rw [List.filter_nil, List.filter_cons_of_pos (by simp)] at hy
      cases hy
  | cons a l ih =>
    -- the first element of `l'` with the key of `a` is `a`
    have ha := h (key a)
    rw [List.filter_cons_of_pos (by simp)] at ha
    obtain ⟨before, after, rfl, hbefore, -, hafter⟩ := List.filter_eq_cons_iff.mp ha.symm
    have hother : ∀ x ∈ before, key x ≠ key a := by
      intro x hx
      simpa using hbefore x hx
    rw [foldl_move key hcomm hother, List.foldl_cons, List.foldl_cons]
    apply ih
    intro k
    have hk := h k
    rw [List.filter_append, List.filter_cons, List.filter_cons] at hk
    rw [List.filter_append]
    split_ifs at hk with hkey
    · have hnone : before.filter (key · = k) = [] := by
        rw [List.filter_eq_nil_iff]
        intro x hx
        simp only [decide_eq_true_eq] at hkey ⊢
        rw [← hkey]
        apply hother x hx
      rw [hnone, List.nil_append] at hk ⊢
      apply (List.cons.inj hk).2
    · apply hk

end Commuting

/-! ### Records -/

/-- The fields `φ` of the records `σ`.  A field is not changed when another one is set, and
two fields can be set in either order. -/
structure Fields (σ φ : Type*) where
  Value : φ → Type*
  get : (f : φ) → σ → Value f
  set : (f : φ) → σ → Value f → σ
  get_set {f g : φ} (h : f ≠ g) (s : σ) (v : Value f) : get g (set f s v) = get g s
  set_comm {f g : φ} (h : f ≠ g) (s : σ) (v : Value f) (u : Value g) :
    set g (set f s v) u = set f (set g s u) v

namespace Fields

variable {σ φ : Type*} (F : Fields σ φ)

/-- An update of a field, that may fail. -/
structure Update where
  field : φ
  run : F.Value field → Option (F.Value field)

/-- What an update makes of a record, if nothing has failed before. -/
def apply (s : Option σ) (u : F.Update) : Option σ :=
  s.bind fun s => (u.run (F.get u.field s)).map (F.set u.field s)

theorem get_apply_of_ne {s s' : σ} {u : F.Update} {g : φ} (h : F.apply (some s) u = some s')
    (hg : u.field ≠ g) :
  F.get g s' = F.get g s
  := by
  obtain ⟨v, -, rfl⟩ := Option.map_eq_some_iff.mp h
  apply F.get_set hg

/-- Updates of different fields commute, also where they fail. -/
theorem apply_comm (s : Option σ) (u v : F.Update) (h : u.field ≠ v.field) :
  F.apply (F.apply s u) v = F.apply (F.apply s v) u
  := by
  cases s with
  | none => rfl
  | some s =>
    simp only [apply, Option.bind_some]
    cases hu : u.run (F.get u.field s) with
    | none =>
      cases hv : v.run (F.get v.field s) with
      | none => rfl
      | some y => simp [F.get_set h.symm, hu]
    | some x =>
      cases hv : v.run (F.get v.field s) with
      | none => simp [F.get_set h, hv]
      | some y => simp [F.get_set h, F.get_set h.symm, hu, hv, F.set_comm h]

/-- What a list of updates makes of a record depends on the updates of each field only. -/
theorem foldl_apply_eq [DecidableEq φ] {l l' : List F.Update}
    (h : ∀ f, l.filter (·.field = f) = l'.filter (·.field = f)) (s : Option σ) :
  l.foldl F.apply s = l'.foldl F.apply s
  := by
  apply Commuting.foldl_eq_of_filter_eq Update.field _ h
  intro b x y hxy
  apply F.apply_comm b x y hxy

end Fields
