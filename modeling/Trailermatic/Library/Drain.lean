import Mathlib.Data.List.Perm.Basic
import Mathlib.Logic.Relation
import Mathlib.Tactic.Common

/-!
# Signals that are drained

Things arrive at any time, and each arrival raises a flag.  A flag that is up stays up, so the
flag does not tell how much has arrived.  Whoever sees the flag lowers it and takes what is there,
one thing after the other, until nothing is left; in the meantime more may arrive.
`Drain.Work.sound` says that nothing is forgotten, and `Drain.Sound.exists_rest` that all that has
arrived can be taken.
-/

/-- What has arrived and was not taken, the flag, whether things are being taken, and what was
taken. -/
structure Drain (ι : Type*) where
  backlog : List ι
  flag : Bool
  draining : Bool
  taken : List ι
deriving DecidableEq

namespace Drain

variable {ι : Type*}

/-- Nothing has arrived. -/
def empty : Drain ι :=
  ⟨[], false, false, []⟩

/-- A thing arrives. -/
def arrive (d : Drain ι) (x : ι) : Drain ι :=
  { d with backlog := x :: d.backlog, flag := true }

/-- What is done about what has arrived.  Nobody looks at the flag while things are taken. -/
inductive Work (d : Drain ι) : Drain ι → Prop where
  | enter : d.flag = true → d.draining = false →
    Work d { d with flag := false, draining := true }
  | take (before : List ι) (x : ι) (after : List ι) : d.draining = true →
    d.backlog = before ++ x :: after →
    Work d { d with backlog := before ++ after, taken := x :: d.taken }
  | leave : d.draining = true → d.backlog = [] → Work d { d with draining := false }

/-- What has arrived is being taken, or the flag is up. -/
def Sound (d : Drain ι) : Prop :=
  d.backlog ≠ [] → d.flag = true ∨ d.draining = true

/-- Nothing is done any more. -/
structure Rest (d : Drain ι) : Prop where
  flag : d.flag = false
  draining : d.draining = false

variable {d d' : Drain ι}

theorem sound_empty :
  (empty : Drain ι).Sound
  := by
  intro h
  exact absurd rfl h

theorem sound_arrive (d : Drain ι) (x : ι) :
  (d.arrive x).Sound
  := by
  intro _
  left
  rfl

theorem Work.sound (h : Work d d') :
  d'.Sound
  := by
  cases h with
  | enter =>
    intro _
    right
    rfl
  | take before x after hdraining =>
    intro _
    right
    apply hdraining
  | leave _ hbacklog =>
    intro hne
    apply absurd hbacklog hne

/-- Where nothing is done any more, nothing is left. -/
theorem Sound.backlog_eq_nil (h : d.Sound) (hrest : d.Rest) :
  d.backlog = []
  := by
  by_contra hne
  rcases h hne with hflag | hdraining
  · rw [hrest.flag] at hflag
    cases hflag
  · rw [hrest.draining] at hdraining
    cases hdraining

/-- Nothing is taken that has not arrived, and nothing is lost. -/
theorem Work.perm (h : Work d d') :
  (d'.backlog ++ d'.taken).Perm (d.backlog ++ d.taken)
  := by
  cases h with
  | enter => rfl
  | take before x after _ hbacklog =>
    rw [hbacklog, List.append_assoc, List.append_assoc, List.cons_append]
    apply List.Perm.append_left
    apply List.perm_middle
  | leave => rfl

theorem perm_of_work (h : Relation.ReflTransGen Work d d') :
  (d'.backlog ++ d'.taken).Perm (d.backlog ++ d.taken)
  := by
  induction h with
  | refl => rfl
  | tail _ hwork ih => apply hwork.perm.trans ih

/-- What is being taken is taken until nothing is left. -/
theorem exists_drained (hdraining : d.draining = true) :
  ∃ d', Relation.ReflTransGen Work d d' ∧ d'.draining = false ∧ d'.backlog = []
    ∧ d'.flag = d.flag
  := by
  induction hbacklog : d.backlog generalizing d with
  | nil =>
    exact ⟨_, Relation.ReflTransGen.single (.leave hdraining hbacklog), rfl, hbacklog, rfl⟩
  | cons x backlog ih =>
    obtain ⟨d', hwork, hleft, hempty, hflag⟩ :=
      @ih { d with backlog := backlog, taken := x :: d.taken } hdraining rfl
    exact ⟨d', Relation.ReflTransGen.head (.take [] x backlog hdraining hbacklog) hwork, hleft,
      hempty, hflag⟩

/-- As long as nothing arrives, a rest can be reached, and then everything is taken. -/
theorem Sound.exists_rest (h : d.Sound) :
  ∃ d', Relation.ReflTransGen Work d d' ∧ d'.Rest ∧ d'.backlog = []
  := by
  have hidle : ∀ d : Drain ι, d.Sound → d.draining = false →
      ∃ d', Relation.ReflTransGen Work d d' ∧ d'.Rest ∧ d'.backlog = [] := by
    intro d hsound hdraining
    cases hflag : d.flag with
    | false => exact ⟨d, .refl, ⟨hflag, hdraining⟩, hsound.backlog_eq_nil ⟨hflag, hdraining⟩⟩
    | true =>
      obtain ⟨d', hwork, hleft, hempty, hlowered⟩ :=
        @exists_drained _ { d with flag := false, draining := true } rfl
      exact ⟨d', Relation.ReflTransGen.head (.enter hflag hdraining) hwork, ⟨hlowered, hleft⟩,
        hempty⟩
  cases hdraining : d.draining with
  | false => exact hidle d h hdraining
  | true =>
    obtain ⟨d₁, hwork, hleft, hempty, -⟩ := exists_drained hdraining
    obtain ⟨d', hwork', hrest⟩ := hidle d₁ (fun hne => absurd hempty hne) hleft
    exact ⟨d', hwork.trans hwork', hrest⟩

end Drain
