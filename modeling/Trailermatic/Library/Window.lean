import Mathlib.Tactic.Common
import Mathlib.Data.List.Basic

/-!
# Windows on a growing log

A log grows at its front.  A window keeps the newest entries of a log: pushing an entry
adds it to the log and to the window, and drops the oldest entry kept when the window
has grown past a capacity.  The capacity may change from push to push; capacity `0`
means that nothing is dropped.
-/

/-- A log, newest entry first, and the newest entries kept of it. -/
structure Window (α : Type*) where
  log : List α
  kept : List α
  kept_prefix : kept <+: log

namespace Window

variable {α : Type*}

/-- The window that keeps all of the log `l`. -/
def all (l : List α) : Window α :=
  ⟨l, l, List.prefix_refl l⟩

/-- Push the entry `x` with the capacity `cap`. -/
def push (w : Window α) (cap : ℕ) (x : α) : Window α where
  log := x :: w.log
  kept := if 0 < cap ∧ cap < w.kept.length + 1 then (x :: w.kept).dropLast else x :: w.kept
  kept_prefix := by
    have h : x :: w.kept <+: x :: w.log := by simpa using w.kept_prefix
    split_ifs
    · apply (List.dropLast_prefix _).trans h
    · apply h

@[simp]
theorem log_push (w : Window α) (cap : ℕ) (x : α) :
  (w.push cap x).log = x :: w.log
  := rfl

theorem length_kept_push (w : Window α) (cap : ℕ) (x : α) :
  (w.push cap x).kept.length
    = if 0 < cap ∧ cap < w.kept.length + 1 then w.kept.length else w.kept.length + 1
  := by
  simp only [push]
  split_ifs
  · rw [List.length_dropLast, List.length_cons, Nat.add_sub_cancel]
  · rfl

/-- With room left nothing is dropped. -/
theorem kept_push_of_lt (w : Window α) {cap : ℕ} (h : cap = 0 ∨ w.kept.length < cap) (x : α) :
  (w.push cap x).kept = x :: w.kept
  := by
  rw [push]
  simp only
  rw [if_neg]
  omega

/-- Without room the oldest entry kept is dropped, and it is not the new one. -/
theorem kept_push_of_le (w : Window α) {cap : ℕ} (h0 : 0 < cap) (h : cap ≤ w.kept.length)
    (x : α) :
  (w.push cap x).kept = x :: w.kept.dropLast
  := by
  rw [push]
  simp only
  rw [if_pos (by omega), List.dropLast_cons_of_ne_nil]
  rintro hnil
  rw [hnil] at h
  simp at h
  omega

/-- The window keeps the entries whose newest occurrence in the log is recent enough. -/
theorem mem_kept_iff [DecidableEq α] (w : Window α) (x : α) :
  x ∈ w.kept ↔ w.log.idxOf x < w.kept.length
  := by
  obtain ⟨rest, hlog⟩ := w.kept_prefix
  rw [← hlog, List.idxOf_append]
  split_ifs with h
  · simp only [h, true_iff]
    apply List.idxOf_lt_length_of_mem h
  · simp [h]

/-- The window keeps `x` and entries it kept before. -/
theorem kept_push (w : Window α) (cap : ℕ) (x : α) :
  ∃ l, (w.push cap x).kept = x :: l ∧ l <+: w.kept
  := by
  rcases Nat.eq_zero_or_pos cap with h | h0
  · exact ⟨w.kept, w.kept_push_of_lt (Or.inl h) x, List.prefix_refl _⟩
  · rcases Nat.lt_or_ge w.kept.length cap with h | h
    · exact ⟨w.kept, w.kept_push_of_lt (Or.inr h) x, List.prefix_refl _⟩
    · exact ⟨w.kept.dropLast, w.kept_push_of_le h0 h x, List.dropLast_prefix _⟩

/-- Pushing an entry that is not kept keeps the window free of duplicates. -/
theorem nodup_kept_push {w : Window α} {x : α} (h : w.kept.Nodup) (hx : x ∉ w.kept) (cap : ℕ) :
  (w.push cap x).kept.Nodup
  := by
  obtain ⟨l, hl, hinit⟩ := w.kept_push cap x
  rw [hl]
  apply List.nodup_cons.mpr
  constructor
  · intro hmem
    apply hx (hinit.subset hmem)
  · apply h.sublist hinit.sublist

/-- The window keeps no fewer entries than before. -/
theorem length_kept_le_push (w : Window α) (cap : ℕ) (x : α) :
  w.kept.length ≤ (w.push cap x).kept.length
  := by
  rcases Nat.lt_or_ge w.kept.length cap with h | h
  · rw [w.kept_push_of_lt (Or.inr h)]
    simp
  · rcases Nat.eq_zero_or_pos cap with h' | h0
    · rw [w.kept_push_of_lt (Or.inl h')]
      simp
    · rw [w.kept_push_of_le h0 h]
      simp
      omega

/-- A window that has not grown past the capacity does not grow past it. -/
theorem length_kept_push_le {w : Window α} {cap : ℕ} (h0 : 0 < cap) (h : w.kept.length ≤ cap)
    (x : α) :
  (w.push cap x).kept.length ≤ cap
  := by
  rcases Nat.lt_or_ge w.kept.length cap with h' | h'
  · rw [w.kept_push_of_lt (Or.inr h')]
    apply h'
  · rw [w.kept_push_of_le h0 h']
    simp
    omega

/-- The window keeps all of its log, or as many entries as one of the capacities it was
used with. -/
def Filled (w : Window α) (caps : List ℕ) : Prop :=
  w.log.length ≤ w.kept.length ∨ ∃ c ∈ caps, 0 < c ∧ c ≤ w.kept.length

theorem Filled.push {w : Window α} {caps : List ℕ} (h : w.Filled caps) (cap : ℕ) (x : α) :
  (w.push cap x).Filled (cap :: caps)
  := by
  rcases h with h | ⟨c, hc, hpos, hle⟩
  · rcases Nat.lt_or_ge w.kept.length cap with h' | h'
    · left
      rw [w.kept_push_of_lt (Or.inr h')]
      simpa using h
    · rcases Nat.eq_zero_or_pos cap with h0 | h0
      · left
        rw [w.kept_push_of_lt (Or.inl h0)]
        simpa using h
      · right
        use cap, List.mem_cons_self, h0
        apply Nat.le_trans h' (w.length_kept_le_push cap x)
  · right
    use c, List.mem_cons_of_mem cap hc, hpos
    apply Nat.le_trans hle (w.length_kept_le_push cap x)

/-! ### Entries that come again -/

/-- No entry is one of the `k` entries pushed before it. -/
def Spaced (k : ℕ) : List α → Prop
  | [] => True
  | x :: l => x ∉ l.take k ∧ Spaced k l

theorem spaced_of_nodup {l : List α} (h : l.Nodup) (k : ℕ) :
  Spaced k l
  := by
  induction l with
  | nil => trivial
  | cons x l ih =>
    obtain ⟨hx, hl⟩ := List.nodup_cons.mp h
    exact ⟨fun hmem => hx (List.mem_of_mem_take hmem), ih hl⟩

/-- Between two occurrences of an entry there are at least `k` others. -/
theorem Spaced.le_length {k : ℕ} {before between after : List α} {x : α}
    (h : Spaced k (before ++ x :: (between ++ x :: after))) :
  k ≤ between.length
  := by
  induction before with
  | nil =>
    by_contra hlt
    apply h.1
    rw [List.take_append, List.mem_append]
    right
    rw [List.take_cons (by omega)]
    apply List.mem_cons_self
  | cons y before ih => apply ih h.2

/-- An entry that is not kept was not pushed lately. -/
theorem Filled.notMem_take {w : Window α} {caps : List ℕ} (h : w.Filled caps) {k : ℕ}
    (hcaps : ∀ c ∈ caps, 0 < c → k ≤ c) {x : α} (hx : x ∉ w.kept) :
  x ∉ w.log.take k
  := by
  intro hmem
  apply hx
  rcases h with hall | ⟨c, hc, hpos, hle⟩
  · rw [w.kept_prefix.eq_of_length_le hall]
    apply List.mem_of_mem_take hmem
  · have hkept : w.kept = w.log.take w.kept.length := List.prefix_iff_eq_take.mp w.kept_prefix
    rw [hkept]
    apply List.take_subset_take_left w.log _ hmem
    apply Nat.le_trans (hcaps c hc hpos) hle

end Window
