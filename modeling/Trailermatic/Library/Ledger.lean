import Mathlib.Tactic.Common
import Mathlib.Data.List.Nodup
import Mathlib.Data.List.Perm.Basic

/-!
# Ledgers of resources

A ledger numbers resources in the order in which they are acquired and lists the
releases.  `Ledger.Keeps l l' kept` says that between two ledgers every resource acquired
was released exactly once, except for those in `kept`, which were not released.
-/

/-- How many resources were acquired, and the resources released, newest first. -/
structure Ledger where
  acquired : ℕ
  released : List ℕ
deriving DecidableEq

namespace Ledger

/-- Nothing has been acquired. -/
def empty : Ledger :=
  ⟨0, []⟩

/-- Acquire a resource, which gets the number `l.acquired`. -/
def acquire (l : Ledger) : Ledger :=
  { l with acquired := l.acquired + 1 }

/-- The ledger after a release, of whatever number. -/
def release (l : Ledger) (n : ℕ) : Ledger :=
  { l with released := n :: l.released }

/-- The resource was acquired and has not been released. -/
structure Live (l : Ledger) (n : ℕ) : Prop where
  lt : n < l.acquired
  notMem : n ∉ l.released

instance (l : Ledger) (n : ℕ) : Decidable (l.Live n) :=
  decidable_of_iff (n < l.acquired ∧ n ∉ l.released) ⟨fun h => ⟨h.1, h.2⟩, fun h => ⟨h.1, h.2⟩⟩

/-- The resources that are live. -/
def live (l : Ledger) : List ℕ :=
  (List.range l.acquired).filter (· ∉ l.released)

/-! ### What happens between two ledgers -/

/-- The resources acquired between two ledgers. -/
def between (l l' : Ledger) : List ℕ :=
  List.range' l.acquired (l'.acquired - l.acquired)

/-- The resources acquired between the ledgers were released exactly once, except for those
in `kept`, which were not released, and nothing else was released. -/
structure Keeps (l l' : Ledger) (kept : List ℕ) : Prop where
  le : l.acquired ≤ l'.acquired
  accounts : ∃ closed, l'.released = closed ++ l.released ∧ (closed ++ kept).Perm (l.between l')

/-- Each resource acquired between the ledgers was released exactly once, and nothing else
was released. -/
def Balanced (l l' : Ledger) : Prop :=
  Keeps l l' []

theorem between_self (l : Ledger) :
  l.between l = []
  := by
  simp [between]

theorem between_append {l l' l'' : Ledger} (h : l.acquired ≤ l'.acquired)
    (h' : l'.acquired ≤ l''.acquired) :
  l.between l' ++ l'.between l'' = l.between l''
  := by
  obtain ⟨m, hm⟩ := Nat.exists_eq_add_of_le h
  obtain ⟨n, hn⟩ := Nat.exists_eq_add_of_le h'
  rw [between, between, between, hn, hm, Nat.add_sub_cancel_left, Nat.add_sub_cancel_left,
    Nat.add_assoc, Nat.add_sub_cancel_left, List.range'_append_1]

theorem between_acquire (l l' : Ledger) (h : l.acquired < l'.acquired) :
  l.between l' = l.acquired :: l.acquire.between l'
  := by
  obtain ⟨n, hn⟩ := Nat.exists_eq_add_of_lt h
  rw [between, between, hn, acquire, Nat.add_assoc, Nat.add_sub_cancel_left, List.range'_succ,
    ← Nat.add_assoc, Nat.add_right_comm, Nat.add_sub_cancel_left]

theorem Balanced.refl (l : Ledger) :
  Balanced l l
  where
    le := Nat.le_refl _
    accounts := ⟨[], rfl, by rw [between_self, List.append_nil]⟩

/-- One stretch after the other keeps what each of them keeps. -/
theorem Keeps.trans {l l' l'' : Ledger} {kept kept' : List ℕ} (h : Keeps l l' kept)
    (h' : Keeps l' l'' kept') :
  Keeps l l'' (kept ++ kept')
  := by
  obtain ⟨closed, hreleased, hperm⟩ := h.accounts
  obtain ⟨closed', hreleased', hperm'⟩ := h'.accounts
  refine ⟨Nat.le_trans h.le h'.le, closed' ++ closed, ?_, ?_⟩
  · rw [hreleased', hreleased, List.append_assoc]
  · rw [← between_append h.le h'.le]
    apply List.Perm.trans _ (hperm.append hperm')
    have hswap : (closed' ++ (closed ++ kept)).Perm (closed ++ kept ++ closed') :=
      List.perm_append_comm
    simpa only [List.append_assoc] using hswap.append_right kept'

theorem Balanced.trans {l l' l'' : Ledger} (h : Balanced l l') (h' : Balanced l' l'') :
  Balanced l l''
  := Keeps.trans h h'

/-- A resource that is acquired and not released is kept. -/
theorem keeps_acquire {l l' : Ledger} {kept : List ℕ} (h : Keeps l.acquire l' kept) :
  Keeps l l' (l.acquired :: kept)
  := by
  have hlt : l.acquired < l'.acquired := h.le
  obtain ⟨closed, hreleased, hperm⟩ := h.accounts
  refine ⟨Nat.le_of_lt hlt, closed, hreleased, ?_⟩
  rw [between_acquire l l' hlt]
  apply List.perm_middle.trans (hperm.cons _)

/-- A resource that is acquired first and released last is settled. -/
theorem keeps_release {l l' : Ledger} {kept : List ℕ} (h : Keeps l.acquire l' kept) :
  Keeps l (l'.release l.acquired) kept
  := by
  have hlt : l.acquired < l'.acquired := h.le
  obtain ⟨closed, hreleased, hperm⟩ := h.accounts
  refine ⟨Nat.le_of_lt hlt, l.acquired :: closed, ?_, ?_⟩
  · rw [release, hreleased]
    rfl
  · rw [show l.between (l'.release l.acquired) = l.between l' from rfl,
      between_acquire l l' hlt]
    apply hperm.cons

/-- The order of what is kept does not matter. -/
theorem Keeps.of_perm {l l' : Ledger} {kept kept' : List ℕ} (h : Keeps l l' kept)
    (hperm : kept.Perm kept') :
  Keeps l l' kept'
  := by
  obtain ⟨closed, hreleased, hclosed⟩ := h.accounts
  exact ⟨h.le, closed, hreleased, (hperm.symm.append_left closed).trans hclosed⟩

/-- Acquire one more resource. -/
theorem Keeps.acquire {l l' : Ledger} {kept : List ℕ} (h : Keeps l l' kept) :
  Keeps l l'.acquire (l'.acquired :: kept)
  := by
  have hone : Keeps l' l'.acquire [l'.acquired] := keeps_acquire (Balanced.refl _)
  exact (h.trans hone).of_perm List.perm_append_comm

/-- Release a resource that was kept. -/
theorem Keeps.release {l l' : Ledger} {n : ℕ} {kept : List ℕ} (h : Keeps l l' (n :: kept)) :
  Keeps l (l'.release n) kept
  := by
  obtain ⟨closed, hreleased, hperm⟩ := h.accounts
  refine ⟨h.le, n :: closed, ?_, ?_⟩
  · rw [Ledger.release, hreleased]
    rfl
  · apply List.perm_middle.symm.trans hperm

/-- Each resource is kept once. -/
theorem Keeps.nodup {l l' : Ledger} {kept : List ℕ} (h : Keeps l l' kept) :
  kept.Nodup
  := by
  obtain ⟨closed, -, hperm⟩ := h.accounts
  exact (hperm.nodup_iff.mpr List.nodup_range').of_append_right

/-- No more is kept than was acquired. -/
theorem Keeps.length_le {l : Ledger} {kept : List ℕ} (h : Keeps empty l kept) :
  kept.length ≤ l.acquired
  := by
  obtain ⟨closed, -, hperm⟩ := h.accounts
  have hlength := hperm.length_eq
  rw [List.length_append, between, List.length_range'] at hlength
  exact Nat.le_trans (Nat.le_add_left _ closed.length) (hlength ▸ Nat.sub_le _ _)

/-! ### What is kept is determined -/

theorem Keeps.perm {l l' : Ledger} {kept kept' : List ℕ} (h : Keeps l l' kept)
    (h' : Keeps l l' kept') :
  kept.Perm kept'
  := by
  obtain ⟨closed, hreleased, hperm⟩ := h.accounts
  obtain ⟨closed', hreleased', hperm'⟩ := h'.accounts
  obtain rfl := List.append_cancel_right (hreleased.symm.trans hreleased')
  exact (List.perm_append_left_iff closed).mp (hperm.trans hperm'.symm)

theorem Keeps.balanced_iff {l l' : Ledger} {kept : List ℕ} (h : Keeps l l' kept) :
  Balanced l l' ↔ kept = []
  := by
  constructor
  · intro hbalanced
    exact List.perm_nil.mp (h.perm hbalanced)
  · rintro rfl
    apply h

/-- What is live in the end is what was kept. -/
theorem Keeps.live_perm {l : Ledger} {kept : List ℕ} (h : Keeps empty l kept) :
  l.live.Perm kept
  := by
  obtain ⟨closed, hreleased, hperm⟩ := h.accounts
  have hrange : empty.between l = List.range l.acquired := by
    rw [between, List.range_eq_range']
    rfl
  rw [hrange] at hperm
  have hdisjoint : closed.Disjoint kept :=
    List.disjoint_of_nodup_append (hperm.nodup_iff.mpr List.nodup_range)
  have hclosed : closed.filter (· ∉ l.released) = [] := by
    rw [List.filter_eq_nil_iff]
    intro n hn
    simp [hreleased, hn]
  have hkept : kept.filter (· ∉ l.released) = kept := by
    rw [List.filter_eq_self]
    intro n hn
    rw [hreleased, decide_eq_true_eq, List.mem_append]
    rintro (hmem | hmem)
    · apply hdisjoint hmem hn
    · cases hmem
  rw [live, ← hkept]
  apply (hperm.symm.filter _).trans
  rw [List.filter_append, hclosed, List.nil_append]

theorem Keeps.length_live {l : Ledger} {kept : List ℕ} (h : Keeps empty l kept) :
  l.live.length = kept.length
  := h.live_perm.length_eq

end Ledger
