import Mathlib.Tactic.Common
import Mathlib.Data.List.Basic

/-!
# Files of lines

A file of lines is written by ending every line with a separator, and read by taking
symbols up to and with the next separator, but no more than there is room for.  A line
that fits is read as it was written, and a part of a file that ends with a separator is
read on its own, whatever its lines are.
-/

namespace Lines

variable {α : Type*} (sep : α)

/-- The file whose lines are `ls`. -/
def unlines (ls : List (List α)) : List α :=
  ls.flatMap (· ++ [sep])

@[simp]
theorem unlines_nil :
  unlines sep ([] : List (List α)) = []
  := rfl

theorem unlines_cons (l : List α) (ls : List (List α)) :
  unlines sep (l :: ls) = l ++ sep :: unlines sep ls
  := by
  simp [unlines]

/-- A part of a file that is empty or ends with a separator. -/
def Ended (m : List α) : Prop :=
  m = [] ∨ ∃ l, m = l ++ [sep]

theorem Ended.tail {b : α} {m : List α} (h : Ended sep (b :: m)) :
  Ended sep m
  := by
  rcases h with h | ⟨_ | ⟨c, l⟩, h⟩
  · cases h
  · left
    simp_all
  · right
    use l
    simp_all

variable [DecidableEq α]

/-- The next line with room for `k` symbols, and what comes after it. -/
def takeLine : ℕ → List α → List α × List α
  | 0, m => ([], m)
  | _ + 1, [] => ([], [])
  | k + 1, b :: m =>
    if b = sep then ([b], m) else (b :: (takeLine k m).1, (takeLine k m).2)

theorem takeLine_append (k : ℕ) (m : List α) :
  (takeLine sep k m).1 ++ (takeLine sep k m).2 = m
  := by
  fun_induction takeLine sep k m with
  | case1 => rfl
  | case2 => rfl
  | case3 => rfl
  | case4 k b m hb ih => rw [List.cons_append, ih]

theorem length_takeLine_le (k : ℕ) (m : List α) :
  (takeLine sep k m).1.length ≤ k
  := by
  fun_induction takeLine sep k m with
  | case1 => simp
  | case2 => simp
  | case3 => simp
  | case4 k b m hb ih => simpa using ih

/-- Every line but an empty file's takes something. -/
theorem length_takeLine_lt {k : ℕ} (hk : 0 < k) {m : List α} (hm : m ≠ []) :
  (takeLine sep k m).2.length < m.length
  := by
  obtain ⟨k, rfl⟩ : ∃ j, k = j + 1 := ⟨k - 1, by omega⟩
  obtain ⟨b, m, rfl⟩ := List.exists_cons_of_ne_nil hm
  rw [takeLine]
  split_ifs with hb
  · simp
  · have h := congrArg List.length (takeLine_append sep k m)
    simp only [List.length_append] at h
    simp only [List.length_cons]
    omega

/-- A line has a separator only at its end. -/
theorem sep_notMem_dropLast_takeLine (k : ℕ) (m : List α) :
  sep ∉ (takeLine sep k m).1.dropLast
  := by
  fun_induction takeLine sep k m with
  | case1 => simp
  | case2 => simp
  | case3 => simp
  | case4 k b m hb ih =>
    intro h
    cases hl : (takeLine sep k m).1 with
    | nil => simp [hl] at h
    | cons c l =>
      rw [hl] at h ih
      rw [List.dropLast_cons_cons] at h
      rcases List.mem_cons.mp h with h | h
      · apply hb h.symm
      · apply ih h

/-- A line that fits is taken with its separator. -/
theorem takeLine_line {k : ℕ} {l : List α} (hl : sep ∉ l) (hk : l.length < k) (m : List α) :
  takeLine sep k (l ++ sep :: m) = (l ++ [sep], m)
  := by
  induction l generalizing k with
  | nil =>
    obtain ⟨k, rfl⟩ : ∃ j, k = j + 1 := ⟨k - 1, by omega⟩
    simp [takeLine]
  | cons b l ih =>
    obtain ⟨k, rfl⟩ : ∃ j, k = j + 1 := ⟨k - 1, by omega⟩
    rw [List.mem_cons, not_or] at hl
    rw [List.cons_append, takeLine, if_neg (Ne.symm hl.1), ih hl.2 (by simpa using hk)]
    rfl

/-- The lines of a file, read with room for `k` symbols. -/
def lines (k : ℕ) (m : List α) : List (List α) :=
  if _h : 0 < k ∧ m ≠ [] then
    (takeLine sep k m).1 :: lines k (takeLine sep k m).2
  else []
termination_by m.length
decreasing_by apply length_takeLine_lt sep _h.1 _h.2

@[simp]
theorem lines_nil (k : ℕ) :
  lines sep k [] = []
  := by
  rw [lines]
  simp

theorem lines_of_ne_nil {k : ℕ} (hk : 0 < k) {m : List α} (hm : m ≠ []) :
  lines sep k m = (takeLine sep k m).1 :: lines sep k (takeLine sep k m).2
  := by
  rw [lines, dif_pos ⟨hk, hm⟩]

/-- What is read holds no separator but at its end, and fits. -/
theorem mem_lines {k : ℕ} {m l : List α} (h : l ∈ lines sep k m) :
  l.length ≤ k ∧ sep ∉ l.dropLast
  := by
  induction m using lines.induct sep k with
  | case1 m hm ih =>
    rw [lines_of_ne_nil sep hm.1 hm.2] at h
    rcases List.mem_cons.mp h with rfl | h
    · exact ⟨length_takeLine_le sep k m, sep_notMem_dropLast_takeLine sep k m⟩
    · apply ih h
  | case2 m hm =>
    rw [lines, dif_neg hm] at h
    cases h

/-- The next line of a part that ends with a separator does not reach past it. -/
theorem takeLine_ended {k : ℕ} {a : List α} (ha : Ended sep a) (hne : a ≠ []) (m : List α) :
  takeLine sep k (a ++ m) = ((takeLine sep k a).1, (takeLine sep k a).2 ++ m)
    ∧ Ended sep (takeLine sep k a).2
  := by
  induction a generalizing k with
  | nil => apply absurd rfl hne
  | cons b a ih =>
    cases k with
    | zero => exact ⟨rfl, ha⟩
    | succ k =>
      rw [List.cons_append, takeLine, takeLine]
      split_ifs with hb
      · exact ⟨rfl, ha.tail⟩
      · have hane : a ≠ [] := by
          rintro rfl
          rcases ha with h | ⟨_ | ⟨c, l⟩, h⟩
          · cases h
          · simp_all
          · simp_all
        obtain ⟨h, h'⟩ := ih (k := k) ha.tail hane
        rw [h]
        exact ⟨rfl, h'⟩

/-- A part of a file that ends with a separator is read on its own. -/
theorem lines_append (k : ℕ) {a : List α} (ha : Ended sep a) (m : List α) :
  lines sep k (a ++ m) = lines sep k a ++ lines sep k m
  := by
  rcases Nat.eq_zero_or_pos k with rfl | hk
  · simp [lines]
  induction h : a.length using Nat.strongRecOn generalizing a with
  | _ n ih =>
    rcases eq_or_ne a [] with rfl | hne
    · simp
    obtain ⟨htake, hended⟩ := takeLine_ended sep (k := k) ha hne m
    have hlt := length_takeLine_lt sep hk hne
    rw [lines_of_ne_nil sep hk (by simp [hne]), lines_of_ne_nil sep hk hne, htake,
      List.cons_append, ih _ (by omega) hended rfl]

/-- A file of lines is read line by line. -/
theorem lines_unlines_cons (k : ℕ) (l : List α) (ls : List (List α)) :
  lines sep k (unlines sep (l :: ls)) = lines sep k (l ++ [sep]) ++ lines sep k (unlines sep ls)
  := by
  rw [unlines_cons, List.append_cons]
  apply lines_append
  right
  use l

/-- A line that fits is read as itself and its separator. -/
theorem lines_line {k : ℕ} {l : List α} (hl : sep ∉ l) (hk : l.length < k) :
  lines sep k (l ++ [sep]) = [l ++ [sep]]
  := by
  rw [lines_of_ne_nil sep (by omega) (by simp), takeLine_line sep hl hk]
  simp

end Lines
