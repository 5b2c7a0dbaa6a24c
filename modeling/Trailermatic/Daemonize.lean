import Mathlib.Data.Int.Notation
import Trailermatic.Library.Descriptors

/-!
# Becoming a daemon

`main` opens the log and then calls `daemonize`, which forks twice and connects the standard
descriptors to `/dev/null`.  `daemon_detached` says which process goes on as the daemon, and with
which files; `log_kept_iff` says when the log is one of them.
-/

namespace Trailermatic

/-- An open file of the process. -/
inductive OpenFile where
  | devNull (writable : Bool)
  | log
  | other (n : ℕ)
deriving DecidableEq

/-- A process: its place among the others, its mask and its table of open files. -/
structure Process where
  pid : ℕ
  ppid : ℕ
  pgid : ℕ
  sid : ℕ
  umask : ℕ
  descriptors : Descriptors OpenFile

/-- What the system answers: the process of the child, or `none` if `fork` fails, and whether
`/dev/null` can be opened for each of the standard descriptors. -/
structure DaemonizeAnswers where
  fork₁ : Option ℕ
  fork₂ : Option ℕ
  devNull : ℕ → Bool

/-- How `daemonize` ends in a process. -/
inductive Fate where
  | exits (status : ℕ)
  | returns (ret : ℤ) (p : Process)

/-- Connect the descriptor `k` to `/dev/null`. -/
def redirect (granted writable : Bool) (k : ℕ) (t : Descriptors OpenFile) :
    Descriptors OpenFile :=
  let (fd, t) := t.opened granted (.devNull writable)
  if fd = some k then t else (t.dup2 fd k).close fd

/-- The child of a process. -/
def Process.fork (p : Process) (child : ℕ) : Process :=
  { p with pid := child, ppid := p.pid }

/-- `setsid` fails for the leader of a process group. -/
def Process.setsid (p : Process) : Option Process :=
  if p.pgid = p.pid then none else some { p with pgid := p.pid, sid := p.pid }

/-- How `daemonize` ends in the process and in its children, oldest first. -/
def daemonize (a : DaemonizeAnswers) (p : Process) : List Fate :=
  if p.ppid = 1 then [.returns (-1) p]
  else
    match a.fork₁ with
    | none => [.returns (-1) p]
    | some child =>
      let p := { p.fork child with umask := 0 }
      .exits 0 ::
        match p.setsid with
        | none => [.returns (-1) p]
        | some p =>
          match a.fork₂ with
          | none => [.returns (-1) p]
          | some child =>
            let p := p.fork child
            let t := redirect (a.devNull 0) false 0 p.descriptors
            let t := redirect (a.devNull 1) true 1 t
            let t := redirect (a.devNull 2) true 2 t
            [.exits 0, .returns 0 { p with descriptors := t }]

/-- The process goes on as the daemon; `main` shuts down after any other value. -/
def Fate.goesOn : Fate → Option Process
  | .returns 0 p => some p
  | _ => none

/-- The new processes are none of those that the process belongs to. -/
structure DaemonizeAnswers.Fresh (a : DaemonizeAnswers) (p : Process) : Prop where
  group : a.fork₁ ≠ some p.pgid
  session : a.fork₁ ≠ some p.sid
  twice : a.fork₁ = none ∨ a.fork₂ ≠ a.fork₁

theorem get_redirect (granted writable : Bool) (k : ℕ) (t : Descriptors OpenFile) (j : ℕ) :
  (redirect granted writable k t).get j
    = if granted = true ∧ j = k then some (.devNull writable) else t.get j
  := by
  cases granted with
  | false => simp [redirect, Descriptors.opened, Descriptors.dup2, Descriptors.close]
  | true =>
    simp only [redirect, Descriptors.opened, if_true, Option.some_inj, true_and]
    split_ifs with hfree hj hj
    · rw [Descriptors.get_put, if_pos (hj.trans hfree.symm)]
    · rw [Descriptors.get_put, if_neg]
      rwa [hfree]
    · rw [Descriptors.close, Descriptors.get_put, if_neg (by rw [hj]; exact Ne.symm hfree)]
      rw [Descriptors.dup2, Option.bind_some, Descriptors.get_put, if_pos rfl]
      simp only
      rw [Descriptors.get_put, if_pos hj]
    · rw [Descriptors.close, Descriptors.get_put, Descriptors.dup2, Option.bind_some,
        Descriptors.get_put, if_pos rfl]
      simp only
      rw [Descriptors.get_put, if_neg hj, Descriptors.get_put]
      split_ifs with hnew
      · rw [hnew, Descriptors.get_free]
      · rfl

/-- The standard descriptors are connected to `/dev/null` as far as it can be opened, the first
one for reading; the others are as they were. -/
def Detached (a : DaemonizeAnswers) (t t' : Descriptors OpenFile) : Prop :=
  ∀ j, t'.get j
    = if j < 3 ∧ a.devNull j = true then some (.devNull (j != 0)) else t.get j

theorem detached_redirect (a : DaemonizeAnswers) (t : Descriptors OpenFile) :
  Detached a t (redirect (a.devNull 2) true 2 (redirect (a.devNull 1) true 1
    (redirect (a.devNull 0) false 0 t)))
  := by
  intro j
  rw [get_redirect, get_redirect, get_redirect]
  rcases j with _ | _ | _ | j
  · simp
  · simp
  · simp
  · have hbeyond : ¬ j + 1 + 1 + 1 < 3 := by
      omega
    simp [hbeyond]

/-- Whatever the system answers, at most one process goes on as the daemon, and one does exactly
if the program was not started by `init` and both forks succeed.  It is in a new session, leads
neither this session nor its process group, and its standard descriptors are detached. -/
theorem daemon_detached {a : DaemonizeAnswers} {p : Process} (hfresh : a.Fresh p) :
  ((daemonize a p).filterMap Fate.goesOn).length
      = (if p.ppid ≠ 1 ∧ a.fork₁.isSome ∧ a.fork₂.isSome then 1 else 0)
    ∧ ∀ q ∈ (daemonize a p).filterMap Fate.goesOn,
      q.sid ≠ p.sid ∧ q.sid ≠ q.pid ∧ q.pgid ≠ q.pid ∧ q.umask = 0
        ∧ Detached a p.descriptors q.descriptors
  := by
  rw [daemonize]
  by_cases hinit : p.ppid = 1
  · simp [hinit, Fate.goesOn]
  · rw [if_neg hinit]
    cases hfork₁ : a.fork₁ with
    | none => simp [Fate.goesOn]
    | some child =>
      have hgroup : p.pgid ≠ child := by
        rintro rfl
        apply hfresh.group hfork₁
      have hsetsid : ({ p.fork child with umask := 0 } : Process).setsid
          = some { p.fork child with umask := 0, pgid := child, sid := child } := by
        apply if_neg hgroup
      simp only [hsetsid]
      cases hfork₂ : a.fork₂ with
      | none => simp [Fate.goesOn]
      | some child' =>
        have htwice : child ≠ child' := by
          rintro rfl
          rcases hfresh.twice with hnone | hne
          · rw [hfork₁] at hnone
            cases hnone
          · rw [hfork₁, hfork₂] at hne
            apply hne rfl
        have hsession : child ≠ p.sid := by
          rintro rfl
          apply hfresh.session hfork₁
        constructor
        · rw [if_pos ⟨hinit, rfl, rfl⟩]
          rfl
        · intro q hq
          obtain rfl := List.mem_singleton.mp hq
          exact ⟨hsession, htwice, htwice, rfl, detached_redirect a p.descriptors⟩

/-- A process that a shell has started. -/
def plainProcess (t : Descriptors OpenFile) : Process :=
  ⟨100, 50, 100, 50, 18, t⟩

def plainForks : DaemonizeAnswers :=
  ⟨some 101, some 102, fun _ => true⟩

theorem fresh_plainForks (t : Descriptors OpenFile) :
  plainForks.Fresh (plainProcess t)
  where
    group := by simp [plainForks, plainProcess]
    session := by simp [plainForks, plainProcess]
    twice := by simp [plainForks]

theorem daemon_detached_plain :
  let p := plainProcess [some (.other 0), some (.other 1), some (.other 2)]
  plainForks.Fresh p
    ∧ ((daemonize plainForks p).filterMap Fate.goesOn).length = 1
  := by
  intro p
  have hone : p.ppid ≠ 1 ∧ plainForks.fork₁.isSome ∧ plainForks.fork₂.isSome := by
    decide
  exact ⟨fresh_plainForks _, (daemon_detached (fresh_plainForks _)).1.trans (if_pos hone)⟩

/-! ### The log -/

/-- `main` opens the log before it becomes a daemon. -/
def Process.openLog (p : Process) : Process :=
  { p with descriptors := (p.descriptors.opened true .log).2 }

/-- If `/dev/null` can be opened, the descriptor of the log refers to the log in the daemon
exactly if the program was started with its three standard descriptors open. -/
theorem log_kept_iff {a : DaemonizeAnswers} {p q : Process} (hfresh : a.Fresh p)
    (hgranted : ∀ k < 3, a.devNull k = true)
    (hq : q ∈ (daemonize a p.openLog).filterMap Fate.goesOn) :
  q.descriptors.get p.descriptors.free = some .log ↔ ∀ k < 3, p.descriptors.get k ≠ none
  := by
  have hfresh' : a.Fresh p.openLog := ⟨hfresh.group, hfresh.session, hfresh.twice⟩
  obtain ⟨-, -, -, -, hdetached⟩ := (daemon_detached hfresh').2 q hq
  rw [hdetached, ← Descriptors.le_free_iff]
  have hlog : p.openLog.descriptors.get p.descriptors.free = some .log := by
    rw [Process.openLog, Descriptors.opened, if_pos rfl, Descriptors.get_put, if_pos rfl]
  by_cases hfree : p.descriptors.free < 3
  · rw [if_pos ⟨hfree, hgranted _ hfree⟩]
    simp [Nat.not_le.mpr hfree]
  · rw [if_neg (fun h => hfree h.1), hlog]
    simp [Nat.le_of_not_lt hfree]

/-- Started without a standard input, the program opens its log there. -/
theorem log_kept_closed :
  let p := plainProcess [none, some (.other 1), some (.other 2)]
  ∃ q ∈ (daemonize plainForks p.openLog).filterMap Fate.goesOn,
    q.descriptors.get p.descriptors.free ≠ some .log
  := by
  intro p
  refine ⟨_, List.mem_singleton_self _, ?_⟩
  intro hlog
  have hopen := (log_kept_iff (fresh_plainForks _) (fun _ _ => rfl)
    (List.mem_singleton_self _)).mp hlog
  apply hopen 0 (by decide) rfl

end Trailermatic
