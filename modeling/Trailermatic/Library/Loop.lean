import Mathlib.Tactic.Common

/-!
# Loops that consume their input

A loop takes turns: a turn ends the loop with a result, or gives the state of the next
turn.  A loop carries the proof that every turn makes a size smaller, so running it
always gives a result.  `Loop.run_induction` is the rule by which what holds of one
turn holds of a whole run.
-/

/-- A turn of a loop: the result the loop ends with, or the state of the next turn. -/
inductive Turn (σ ρ : Type*) where
  | done (result : ρ)
  | next (state : σ)

/-- A loop each of whose turns makes the size of the state smaller. -/
structure Loop (σ ρ : Type*) where
  turn : σ → Turn σ ρ
  size : σ → ℕ
  consumes : ∀ s s', turn s = .next s' → size s' < size s

namespace Loop

variable {σ ρ τ υ : Type*}

/-- At most `k` turns from the state `s`. -/
def iterate (l : Loop σ ρ) : ℕ → σ → Option ρ
  | 0, _ => none
  | k + 1, s =>
    match l.turn s with
    | .done r => some r
    | .next s' => l.iterate k s'

/-- More turns than the size of the state are enough. -/
theorem iterate_isSome (l : Loop σ ρ) (k : ℕ) :
  ∀ s, l.size s < k → (l.iterate k s).isSome
  := by
  induction k with
  | zero =>
    intro s h
    omega
  | succ k ih =>
    intro s h
    rw [iterate]
    cases ht : l.turn s with
    | done r => rfl
    | next s' =>
      have hs := l.consumes s s' ht
      apply ih
      omega

/-- Any two numbers of turns that are enough give the same result. -/
theorem iterate_congr (l : Loop σ ρ) (k : ℕ) :
  ∀ j s, l.size s < k → l.size s < j → l.iterate k s = l.iterate j s
  := by
  induction k with
  | zero =>
    intro j s h
    omega
  | succ k ih =>
    intro j s hk hj
    obtain ⟨j, rfl⟩ : ∃ i, j = i + 1 := ⟨j - 1, by omega⟩
    rw [iterate, iterate]
    cases ht : l.turn s with
    | done r => rfl
    | next s' =>
      have hs := l.consumes s s' ht
      apply ih
      · omega
      · omega

/-- The result of the loop from the state `s`. -/
def run (l : Loop σ ρ) (s : σ) : ρ :=
  (l.iterate (l.size s + 1) s).get (l.iterate_isSome _ s (Nat.lt_succ_self _))

/-- A loop whose turn ends it gives the result of the turn. -/
theorem run_done (l : Loop σ ρ) {s : σ} {r : ρ} (h : l.turn s = .done r) :
  l.run s = r
  := by
  simp only [run, iterate, h, Option.get_some]

/-- A loop whose turn goes on gives the result from the next state. -/
theorem run_next (l : Loop σ ρ) {s s' : σ} (h : l.turn s = .next s') :
  l.run s = l.run s'
  := by
  have hs := l.consumes s s' h
  have hk : l.iterate (l.size s + 1) s = l.iterate (l.size s' + 1) s' := by
    rw [iterate, h]
    apply l.iterate_congr
    · apply hs
    · omega
  simp only [run, hk]

/-- What holds of the result of a turn that ends the loop, and passes from the state
after a turn to the state before it, holds of every run. -/
theorem run_induction (l : Loop σ ρ) {P : σ → ρ → Prop}
    (done : ∀ s r, l.turn s = .done r → P s r)
    (next : ∀ s s', l.turn s = .next s' → P s' (l.run s') → P s (l.run s')) (s : σ) :
  P s (l.run s)
  := by
  induction hk : l.size s using Nat.strongRecOn generalizing s with
  | _ k ih =>
    cases ht : l.turn s with
    | done r =>
      rw [l.run_done ht]
      apply done s r ht
    | next s' =>
      have hs := l.consumes s s' ht
      rw [l.run_next ht]
      apply next s s' ht
      apply ih (l.size s')
      · omega
      · rfl

end Loop
