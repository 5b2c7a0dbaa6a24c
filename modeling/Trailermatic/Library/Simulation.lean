import Mathlib.Tactic.Common
import Mathlib.Data.List.Induction

/-!
# Simulations of calls

A machine takes calls one after the other, and a call may fail.  A simulation relates its
states to abstract states on which the calls never fail.  `Simulation.sound_iff` says that
all calls of a sequence are sound exactly when all of them are allowed.
-/

/-- Calls `ι` on the states `σ`, what they mean for the abstract states `τ`, which calls are
allowed, and what is expected of a call. -/
structure Simulation (σ τ ι : Type*) where
  step : σ → ι → Option σ
  apply : τ → ι → τ
  Rel : σ → τ → Prop
  Allowed : τ → ι → Prop
  Sound : σ → τ → ι → Prop
  simulates : ∀ {s a i}, Rel s a → Allowed a i → ∃ s', step s i = some s' ∧ Rel s' (apply a i)
  sound : ∀ {s a i}, Rel s a → Allowed a i → Sound s a i
  allowed : ∀ {s a i}, Rel s a → Sound s a i → Allowed a i

namespace Simulation

variable {σ τ ι : Type*} (m : Simulation σ τ ι)

/-- The state after some calls. -/
def run (s : σ) (calls : List ι) : Option σ :=
  calls.foldlM m.step s

/-- The abstract state after some calls. -/
def meaning (a : τ) (calls : List ι) : τ :=
  calls.foldl m.apply a

/-- Every call of the sequence satisfies `P`, which may depend on the calls before it. -/
def Throughout (P : List ι → ι → Prop) (calls : List ι) : Prop :=
  ∀ before call, before ++ [call] <+: calls → P before call

theorem throughout_nil {P : List ι → ι → Prop} :
  Throughout P []
  := by
  intro before call hbefore
  simp at hbefore

theorem throughout_concat {P : List ι → ι → Prop} {calls : List ι} {call : ι} :
  Throughout P (calls ++ [call]) ↔ Throughout P calls ∧ P calls call
  := by
  constructor
  · intro h
    exact ⟨fun before c hc => h before c (hc.trans (List.prefix_append calls [call])),
      h calls call (List.prefix_refl _)⟩
  · rintro ⟨hbefore, hlast⟩ before c hc
    rcases List.prefix_concat_iff.mp hc with heq | hc
    · obtain ⟨rfl, hcalls⟩ := List.append_inj' heq rfl
      obtain rfl := List.singleton_inj.mp hcalls
      apply hlast
    · apply hbefore before c hc

/-- Where not every call satisfies `P`, there is a first one that does not. -/
theorem exists_first {P : List ι → ι → Prop} {calls : List ι} (h : ¬ Throughout P calls) :
  ∃ before call after, calls = before ++ call :: after ∧ Throughout P before ∧ ¬ P before call
  := by
  induction calls using List.reverseRecOn with
  | nil => exact absurd throughout_nil h
  | append_singleton calls call ih =>
    by_cases hbefore : Throughout P calls
    · refine ⟨calls, call, [], rfl, hbefore, ?_⟩
      intro hcall
      apply h (throughout_concat.mpr ⟨hbefore, hcall⟩)
    · obtain ⟨before, first, after, rfl, hfirst⟩ := ih hbefore
      exact ⟨before, first, after ++ [call], by rw [List.append_assoc, List.cons_append], hfirst⟩

theorem run_concat (s : σ) (calls : List ι) (call : ι) :
  m.run s (calls ++ [call]) = (m.run s calls).bind fun s => m.step s call
  := by
  simp [run, List.foldlM_append]

theorem meaning_concat (a : τ) (calls : List ι) (call : ι) :
  m.meaning a (calls ++ [call]) = m.apply (m.meaning a calls) call
  := by
  rw [meaning, List.foldl_append]
  rfl

/-- Calls that are all allowed lead to related states. -/
theorem exists_run {s : σ} {a : τ} (hstart : m.Rel s a) {calls : List ι}
    (h : Throughout (fun before call => m.Allowed (m.meaning a before) call) calls) :
  ∃ s', m.run s calls = some s' ∧ m.Rel s' (m.meaning a calls)
  := by
  induction calls using List.reverseRecOn with
  | nil => exact ⟨s, rfl, hstart⟩
  | append_singleton calls call ih =>
    obtain ⟨hbefore, hlast⟩ := throughout_concat.mp h
    obtain ⟨s₁, hrun, hrel⟩ := ih hbefore
    obtain ⟨s₂, hstep, hrel'⟩ := m.simulates hrel hlast
    use s₂
    rw [run_concat, hrun, Option.bind_some, hstep, meaning_concat]
    exact ⟨rfl, hrel'⟩

/-- All calls of a sequence are made and are sound exactly when all of them are allowed. -/
theorem sound_iff {s : σ} {a : τ} (hstart : m.Rel s a) (calls : List ι) :
  Throughout (fun before call =>
      ∃ s', m.run s before = some s' ∧ m.Sound s' (m.meaning a before) call) calls
    ↔ Throughout (fun before call => m.Allowed (m.meaning a before) call) calls
  := by
  induction calls using List.reverseRecOn with
  | nil => exact iff_of_true throughout_nil throughout_nil
  | append_singleton calls call ih =>
    rw [throughout_concat, throughout_concat, ih]
    apply and_congr_right
    intro hbefore
    obtain ⟨s₁, hrun, hrel⟩ := m.exists_run hstart hbefore
    constructor
    · rintro ⟨s', hrun', hsound⟩
      obtain rfl := Option.some.inj (hrun.symm.trans hrun')
      apply m.allowed hrel hsound
    · intro hallowed
      exact ⟨s₁, hrun, m.sound hrel hallowed⟩

end Simulation
