import Trailermatic.Handles
import Trailermatic.Library.Drain
import Trailermatic.Reports

/-!
# The children of the daemon

The script that is run after a download is a process of its own.  Its end is signalled by
`SIGCHLD`, which is ignored until the first script is run; from then on the handler waits for
every child that has ended.  Children end at any time, also while the handler runs, and several
ends may be one signal.  `scripts_waited_for` says that no child that has ended is left.
-/

namespace Trailermatic

/-- The children that run, those that have ended (the signal is the flag, and the handler takes
what has ended), and whether `onSigCHLD` handles the signal.  `started` lists all children ever
started, newest first. -/
structure Children where
  running : List ℕ
  ended : Drain ℕ
  handled : Bool
  started : List ℕ
deriving DecidableEq

/-- After `setup_signals` the signal is ignored. -/
def Children.start : Children :=
  ⟨[], .empty, false, []⟩

/-- Run the script.  `fork` gives the process of the child, or fails. -/
def callDownloadDoneScript (scriptname filename : Option Bytes) (fork : Option ℕ) (c : Children) :
    Children :=
  match scriptname, filename with
  | some (_ :: _), some (_ :: _) =>
    let c := { c with handled := true }
    match fork with
    | some child => { c with running := child :: c.running, started := child :: c.started }
    | none => c
  | _, _ => c

/-- What happens to the children while the daemon does anything: a child ends, or the handler
takes a step.  Where the signal is ignored, the kernel takes a child that ends. -/
inductive ChildStep (c : Children) : Children → Prop where
  | ends (before : List ℕ) (child : ℕ) (after : List ℕ) :
    c.running = before ++ child :: after →
    ChildStep c { c with
      running := before ++ after
      ended := if c.handled then c.ended.arrive child
        else { c.ended with taken := child :: c.ended.taken } }
  | handler (ended : Drain ℕ) : c.handled = true → c.ended.Work ended →
    ChildStep c { c with ended := ended }

/-- What an event does to the children. -/
def Event.children (fork : Option ℕ) (c : Children) : Event → Children
  | .script name path => callDownloadDoneScript (some name.bytes) (some path) fork c
  | _ => c

/-- The daemon with its children. -/
structure Family where
  world : World
  children : Children

/-- The daemon takes a step when the handler does not run, or something happens to the
children. -/
inductive FamilyStep (env : Env) (f : Family) : Family → Prop where
  | daemon (w : World) (fork : Option ℕ) : Step env f.world w →
    f.children.ended.draining = false →
    FamilyStep env f ⟨w, (newEvents f.world w).foldl (Event.children fork) f.children⟩
  | children (c : Children) : ChildStep f.children c → FamilyStep env f ⟨f.world, c⟩

/-! ### What the steps keep -/

/-- No child is forgotten: each one started runs, or has ended and the handler is or will be
there, or was waited for.  As long as the signal is ignored there are no children. -/
structure Children.Kept (c : Children) : Prop where
  sound : c.ended.Sound
  perm : (c.running ++ (c.ended.backlog ++ c.ended.taken)).Perm c.started
  handled : c.handled = false → c.running = [] ∧ c.ended = .empty

theorem Children.kept_start :
  Children.start.Kept
  where
    sound := Drain.sound_empty
    perm := List.Perm.refl _
    handled _ := ⟨rfl, rfl⟩

theorem Children.Kept.callDownloadDoneScript {c : Children} (h : c.Kept)
    (scriptname filename : Option Bytes) (fork : Option ℕ) :
  (callDownloadDoneScript scriptname filename fork c).Kept
  := by
  unfold Trailermatic.callDownloadDoneScript
  split
  · cases fork with
    | some child => exact ⟨h.sound, h.perm.cons child, nofun⟩
    | none => exact ⟨h.sound, h.perm, nofun⟩
  · apply h

theorem Children.Kept.step {c c' : Children} (h : c.Kept) (hstep : ChildStep c c') :
  c'.Kept
  := by
  cases hstep with
  | ends before child after hrunning =>
    cases hhandled : c.handled with
    | false =>
      have hnone := (h.handled hhandled).1
      rw [hrunning] at hnone
      simp at hnone
    | true =>
      refine ⟨c.ended.sound_arrive child, ?_, nofun⟩
      have hperm := h.perm
      rw [hrunning, List.append_assoc, List.cons_append] at hperm
      apply List.Perm.trans _ hperm
      rw [List.append_assoc]
      apply List.Perm.append_left
      apply List.perm_middle
  | handler ended hhandled hwork =>
    refine ⟨hwork.sound, (hwork.perm.append_left c.running).trans h.perm, ?_⟩
    intro hignored
    rw [hhandled] at hignored
    cases hignored

theorem Children.Kept.events {c : Children} (h : c.Kept) (fork : Option ℕ) (events : List Event) :
  (events.foldl (Event.children fork) c).Kept
  := by
  induction events generalizing c with
  | nil => apply h
  | cons e events ih =>
    apply ih
    cases e with
    | script name path => exact h.callDownloadDoneScript (some name.bytes) (some path) fork
    | download => apply h
    | record => apply h
    | notify => apply h

theorem kept_run {env : Env} {f f' : Family} (hrun : Relation.ReflTransGen (FamilyStep env) f f')
    (h : f.children.Kept) :
  f'.children.Kept
  := by
  induction hrun with
  | refl => apply h
  | tail _ hstep ih =>
    cases hstep with
    | daemon w fork => apply ih.events
    | children c hchild => apply ih.step hchild

/-! ### Children and runs of the script -/

/-- No more children than runs of the script. -/
theorem length_started_foldl (fork : Option ℕ) (events : List Event) (c : Children) :
  (events.foldl (Event.children fork) c).started.length
    ≤ (events.filterMap Event.scriptRun).length + c.started.length
  := by
  induction events generalizing c with
  | nil => rw [List.filterMap_nil, List.length_nil, Nat.zero_add, List.foldl_nil]
  | cons e events ih =>
    have hrest := ih (e.children fork c)
    cases e with
    | script name path =>
      have hone : (callDownloadDoneScript (some name.bytes) (some path) fork c).started.length
          ≤ c.started.length + 1 := by
        unfold callDownloadDoneScript
        split
        · cases fork with
          | some child => apply Nat.le_refl
          | none => apply Nat.le_succ
        · apply Nat.le_succ
      have hscript : (Event.script name path :: events).filterMap Event.scriptRun
          = (name, path) :: events.filterMap Event.scriptRun := rfl
      rw [hscript, List.length_cons]
      apply Nat.le_trans hrest
      rw [Nat.add_right_comm, Nat.add_assoc]
      apply Nat.add_le_add_left hone
    | download => exact hrest
    | record => exact hrest
    | notify => exact hrest

theorem Step.trace_newEvents {env : Env} {w w' : World} (h : Step env w w') :
  w'.trace = (newEvents w w').reverse ++ w.trace
  := by
  suffices hadded : ∃ added, w'.trace = added ++ w.trace by
    obtain ⟨added, hadded⟩ := hadded
    rw [newEvents, List.reverse_reverse, hadded, List.length_append, Nat.add_sub_cancel,
      List.take_left]
  cases h with
  | between => exact ⟨[], rfl⟩
  | visit item url =>
    obtain ⟨added, hadded, -⟩ := (processURL_visited env w item url).exists_added
    exact ⟨added, hadded⟩

theorem length_started_run {env : Env} {f f' : Family}
    (hrun : Relation.ReflTransGen (FamilyStep env) f f')
    (h : f.children.started.length ≤ (f.world.trace.filterMap Event.scriptRun).length) :
  f'.children.started.length ≤ (f'.world.trace.filterMap Event.scriptRun).length
  := by
  induction hrun with
  | refl => apply h
  | tail _ hstep ih =>
    cases hstep with
    | daemon w fork hworld =>
      rw [hworld.trace_newEvents, List.filterMap_append, List.filterMap_reverse,
        List.length_append, List.length_reverse]
      apply Nat.le_trans (length_started_foldl fork _ _)
      apply Nat.add_le_add_left ih
    | children c hchild =>
      cases hchild with
      | ends => apply ih
      | handler => apply ih

/-- Every step of the handler is one of the children. -/
theorem Children.handler_run {c : Children} (hhandled : c.handled = true) {ended : Drain ℕ}
    (h : Relation.ReflTransGen Drain.Work c.ended ended) :
  Relation.ReflTransGen ChildStep c { c with ended := ended }
  := by
  induction h with
  | refl => apply Relation.ReflTransGen.refl
  | tail _ hwork ih => exact ih.tail (.handler _ hhandled hwork)

/-- Whatever the daemon does, whenever children end, and however their signals fall together:
where no signal is pending and the handler does not run, no child that has ended is left, and in
any case the handler can get there without a further signal.  Every child ever started runs, has
ended, or was waited for once, and there are no more of them than runs of the script. -/
theorem scripts_waited_for {env : Env} {s : Session} {disk : Disk} {f : Family}
    (hrun : Relation.ReflTransGen (FamilyStep env) ⟨World.start s disk, .start⟩ f) :
  let c := f.children
  (c.ended.Rest → c.ended.backlog = [])
    ∧ (c.running ++ (c.ended.backlog ++ c.ended.taken)).Perm c.started
    ∧ c.started.length ≤ (f.world.trace.filterMap Event.scriptRun).length
    ∧ ∃ c', Relation.ReflTransGen ChildStep c c' ∧ c'.running = c.running ∧ c'.ended.Rest
      ∧ (c.running ++ c'.ended.taken).Perm c.started
  := by
  intro c
  have hkept : c.Kept := kept_run hrun Children.kept_start
  refine ⟨hkept.sound.backlog_eq_nil, hkept.perm, length_started_run hrun (Nat.le_refl _), ?_⟩
  cases hhandled : c.handled with
  | false =>
    obtain ⟨-, hended⟩ := hkept.handled hhandled
    have hperm := hkept.perm
    refine ⟨c, Relation.ReflTransGen.refl, rfl, ?_, ?_⟩
    · rw [hended]
      exact ⟨rfl, rfl⟩
    · rw [hended] at hperm ⊢
      apply hperm
  | true =>
    obtain ⟨ended, hwork, hrest, hempty⟩ := hkept.sound.exists_rest
    refine ⟨_, Children.handler_run hhandled hwork, rfl, hrest, ?_⟩
    have hperm := (Drain.perm_of_work hwork).append_left c.running
    rw [hempty, List.nil_append] at hperm
    apply hperm.trans hkept.perm

/-- A script is run and ends. -/
theorem scripts_waited_for_telling :
  ∃ f, Relation.ReflTransGen (FamilyStep (.plain [] fun _ => .plain 200))
      ⟨.start telling fun _ => none, .start⟩ f
    ∧ f.children.ended.backlog = [7]
    ∧ ∃ c', Relation.ReflTransGen ChildStep f.children c' ∧ c'.ended.taken.Perm [7]
  := by
  let w' := processURL (.plain [] fun _ => .plain 200) (.start telling fun _ => none)
    ⟨some newUrl, [newUrl]⟩ newUrl
  have hchildren : (newEvents (.start telling fun _ => none) w').foldl (Event.children (some 7))
      .start = ⟨[7], .empty, true, [7]⟩ := by
    decide
  have hstart := FamilyStep.daemon (f := ⟨.start telling fun _ => none, .start⟩) w' (some 7)
    (Step.visit _ newUrl) rfl
  rw [hchildren] at hstart
  have hrun := (Relation.ReflTransGen.single hstart).tail
    (.children _ (.ends [] 7 [] rfl))
  obtain ⟨-, -, -, c', hwork, -, -, hperm⟩ := scripts_waited_for hrun
  exact ⟨_, hrun, rfl, c', hwork, hperm⟩

end Trailermatic
