import Mathlib.Tactic.Common
import Mathlib.Data.List.Basic

/-!
# Gathering in groups

A loop gathers its input in groups of a fixed size.  When a group is full it gives the
output of the group, and the next group begins.  Gathering the output of one loop by
another undoes the first one when it does so for each full group.
-/

/-- What a gathering loop has at hand: the group that is not yet full, and the output of
the full groups. -/
structure Gathered (α β : Type*) where
  group : List α
  out : List β

namespace Gathered

variable {α β : Type*} (n : ℕ) (f : List α → List β)

/-- Gather one element. -/
def gather (s : Gathered α β) (a : α) : Gathered α β :=
  if (s.group ++ [a]).length = n then ⟨[], s.out ++ f (s.group ++ [a])⟩
  else ⟨s.group ++ [a], s.out⟩

/-- Elements that do not fill the group are added to it. -/
theorem foldl_gather_of_lt {s : Gathered α β} {xs : List α}
    (h : s.group.length + xs.length < n) :
  xs.foldl (gather n f) s = ⟨s.group ++ xs, s.out⟩
  := by
  induction xs generalizing s with
  | nil => simp
  | cons a xs ih =>
    rw [List.length_cons] at h
    have hs : gather n f s a = ⟨s.group ++ [a], s.out⟩ := by
      rw [gather, if_neg]
      rw [List.length_append, List.length_singleton]
      omega
    rw [List.foldl_cons, hs, ih]
    · simp
    · rw [List.length_append, List.length_singleton]
      omega

/-- Elements that just fill the group give its output. -/
theorem foldl_gather_of_eq {s : Gathered α β} {xs : List α} (hne : xs ≠ [])
    (h : s.group.length + xs.length = n) :
  xs.foldl (gather n f) s = ⟨[], s.out ++ f (s.group ++ xs)⟩
  := by
  obtain ⟨ys, a, rfl⟩ : ∃ ys a, xs = ys ++ [a] :=
    ⟨_, _, (List.dropLast_append_getLast hne).symm⟩
  rw [List.length_append, List.length_singleton] at h
  have hys : ys.foldl (gather n f) s = ⟨s.group ++ ys, s.out⟩ := by
    apply foldl_gather_of_lt
    omega
  rw [List.foldl_append, hys, List.foldl_cons, List.foldl_nil, gather, if_pos]
  · simp
  · simp only [List.length_append, List.length_singleton]
    omega

/-- A list is a short one, or begins with a full group. -/
theorem groups_induction {n : ℕ} (hn : 0 < n) {P : List α → Prop}
    (short : ∀ xs, xs.length < n → P xs)
    (full : ∀ g xs, g.length = n → P xs → P (g ++ xs)) (xs : List α) :
  P xs
  := by
  induction hk : xs.length using Nat.strongRecOn generalizing xs with
  | _ k ih =>
    by_cases hlt : xs.length < n
    · apply short xs hlt
    · rw [← List.take_append_drop n xs]
      apply full
      · rw [List.length_take]
        omega
      · apply ih (xs.drop n).length
        · rw [List.length_drop]
          omega
        · rfl

variable {n f} {m : ℕ} {g : List β → List α}

/-- The output has the outputs of the full groups, and the rest stays in the group. -/
theorem length_foldl_gather (hn : 0 < n) (hlength : ∀ c, c.length = n → (f c).length = m)
    (xs : List α) (out : List β) :
  (xs.foldl (gather n f) ⟨[], out⟩).out.length = out.length + m * (xs.length / n)
    ∧ (xs.foldl (gather n f) ⟨[], out⟩).group.length = xs.length % n
  := by
  induction xs using groups_induction hn generalizing out with
  | short xs hlt =>
    rw [foldl_gather_of_lt n f (by simpa using hlt), Nat.div_eq_of_lt hlt, Nat.mod_eq_of_lt hlt]
    exact ⟨rfl, rfl⟩
  | full c xs hc ih =>
    have hne : c ≠ [] := List.ne_nil_of_length_pos (by omega)
    have hfull : c.foldl (gather n f) ⟨[], out⟩ = ⟨[], out ++ f c⟩ :=
      foldl_gather_of_eq n f hne (by simpa using hc)
    obtain ⟨hout, hgroup⟩ := ih (out ++ f c)
    rw [List.foldl_append, hfull, hout, hgroup, List.length_append, List.length_append, hc,
      hlength c hc, Nat.add_div_left _ hn, Nat.add_mod_left, Nat.mul_succ]
    exact ⟨by omega, rfl⟩

/-- A loop gathers its input as full groups and a short rest.  Where each group gives a
group of the second loop that gives it back, the second loop gives back the full groups
from what the first loop gave. -/
theorem exists_foldl_gather (hn : 0 < n) (hm : 0 < m)
    (hlength : ∀ c, c.length = n → (f c).length = m)
    (hinverse : ∀ c, c.length = n → g (f c) = c) (xs : List α) (out : List β)
    (acc : List α) :
  ∃ whole rest made, xs = whole ++ rest ∧ rest.length = xs.length % n
    ∧ made.length = m * (xs.length / n) ∧ (∀ b ∈ made, ∃ c, b ∈ f c)
    ∧ xs.foldl (gather n f) ⟨[], out⟩ = ⟨rest, out ++ made⟩
    ∧ made.foldl (gather m g) ⟨[], acc⟩ = ⟨[], acc ++ whole⟩
  := by
  induction xs using groups_induction hn generalizing out acc with
  | short xs hlt =>
    refine ⟨[], xs, [], rfl, ?_, ?_, ?_, ?_, ?_⟩
    · rw [Nat.mod_eq_of_lt hlt]
    · simp [Nat.div_eq_of_lt hlt]
    · simp
    · rw [foldl_gather_of_lt n f (by simpa using hlt)]
      simp
    · simp
  | full c xs hc ih =>
    obtain ⟨whole, rest, made, hxs, hrest, hmade, hfrom, hfold, hback⟩ :=
      ih (out ++ f c) (acc ++ c)
    have hne : c ≠ [] := List.ne_nil_of_length_pos (by omega)
    have hfne : f c ≠ [] := List.ne_nil_of_length_pos (by rw [hlength c hc]; apply hm)
    refine ⟨c ++ whole, rest, f c ++ made, ?_, ?_, ?_, ?_, ?_, ?_⟩
    · rw [hxs, List.append_assoc]
    · rw [hrest, List.length_append, hc, Nat.add_mod_left]
    · rw [List.length_append, hmade, hlength c hc, List.length_append, hc,
        Nat.add_div_left _ hn, Nat.mul_succ, Nat.add_comm]
    · intro b hb
      rcases List.mem_append.mp hb with hb | hb
      · exact ⟨c, hb⟩
      · apply hfrom b hb
    · rw [List.foldl_append, foldl_gather_of_eq n f hne (by simpa using hc)]
      simpa using hfold
    · rw [List.foldl_append, foldl_gather_of_eq m g hfne (by simpa using hlength c hc)]
      simpa [hinverse c hc] using hback

end Gathered
