import Trailermatic.Library.Loop

/-!
# Loops that may not end

A loop whose turns need not consume anything can run on forever.  That it ends with a
result is a statement about it.  A loop ends with at most one result, and an invariant of
its turns says what that can be.
-/

namespace While

variable {σ ρ : Type*} (turn : σ → Turn σ ρ)

/-- The result after at most `k` turns, if there is one by then. -/
def after : ℕ → σ → Option ρ
  | 0, _ => none
  | k + 1, s =>
    match turn s with
    | .done r => some r
    | .next s' => after k s'

/-- The loop ends from the state `s`, with a result. -/
def Ends (s : σ) (r : ρ) : Prop :=
  ∃ k, after turn k s = some r

variable {turn}

theorem Ends.done {s : σ} {r : ρ} (h : turn s = .done r) :
  Ends turn s r
  := ⟨1, by rw [after, h]⟩

theorem Ends.next {s s' : σ} {r : ρ} (h : turn s = .next s') (hs' : Ends turn s' r) :
  Ends turn s r
  := by
  obtain ⟨k, hk⟩ := hs'
  exact ⟨k + 1, by rw [after, h, ← hk]⟩

/-- What holds at the start and after each turn holds where the loop ends. -/
theorem Ends.invariant {s : σ} {r : ρ} (h : Ends turn s r) {I : σ → Prop} (hs : I s)
    (hnext : ∀ s s', I s → turn s = .next s' → I s') :
  ∃ s', I s' ∧ turn s' = .done r
  := by
  obtain ⟨k, hk⟩ := h
  induction k generalizing s with
  | zero => cases hk
  | succ k ih =>
    rw [after] at hk
    cases hturn : turn s with
    | done r' =>
      rw [hturn] at hk
      cases hk
      exact ⟨s, hs, hturn⟩
    | next s' =>
      rw [hturn] at hk
      apply ih (hnext s s' hs hturn) hk

theorem Ends.unique {s : σ} {r r' : ρ} (h : Ends turn s r) (h' : Ends turn s r') :
  r = r'
  := by
  obtain ⟨k, hk⟩ := h
  obtain ⟨j, hj⟩ := h'
  induction k generalizing s j with
  | zero => cases hk
  | succ k ih =>
    cases j with
    | zero => cases hj
    | succ j =>
      rw [after] at hk hj
      cases hturn : turn s with
      | done r'' =>
        rw [hturn] at hk hj
        apply Option.some.inj (hk.symm.trans hj)
      | next s' =>
        rw [hturn] at hk hj
        apply ih hk j hj

end While
