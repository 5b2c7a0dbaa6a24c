import Trailermatic.Limit
import Trailermatic.Overwriting
import Trailermatic.Restart

/-!
# The daemon from start to start

A machine runs one process of the daemon after the other.  A process loads the history as it
starts, and ends by shutting down or by being killed between two visits; the next one finds
what it left in the state file.  `history_survives` says that the history is, over all
processes, a window on the log of all completed downloads.
-/

namespace Trailermatic

/-- `shutdown_daemon` saves the history if it has changed. -/
def shutdownDaemon (save : SaveAnswers) (w : World) : World :=
  if w.session.bucketChanged then
    let run := saveState save w.session.downloads
    { w with
      disk := Function.update w.disk w.session.statefile.bytes
        (runSteps run.steps (w.disk w.session.statefile.bytes))
      copies := w.copies ++ run.copies }
  else w

@[simp] theorem shutdownDaemon_session (save : SaveAnswers) (w : World) :
  (shutdownDaemon save w).session = w.session
  := by
  rw [shutdownDaemon]
  split_ifs
  · rfl
  · rfl

@[simp] theorem shutdownDaemon_trace (save : SaveAnswers) (w : World) :
  (shutdownDaemon save w).trace = w.trace
  := by
  rw [shutdownDaemon]
  split_ifs
  · rfl
  · rfl

/-- A daemon that has not changed its history does not save it. -/
theorem shutdownDaemon_of_unchanged {save : SaveAnswers} {w : World}
    (h : w.session.bucketChanged = false) :
  shutdownDaemon save w = w
  := by
  rw [shutdownDaemon, h, if_neg Bool.false_ne_true]

/-! ### Machines -/

/-- What was done by processes: the downloads that completed, and the capacities the history
was used with, newest first. -/
structure Past where
  urls : List Str
  limits : List ℕ

/-- The past when a process has done what is in its trace. -/
def Past.after (past : Past) (w : World) : Past :=
  ⟨successes w.trace ++ past.urls, capacities w.trace ++ past.limits⟩

/-- No process runs, or one does. -/
inductive Machine where
  | off (past : Past) (disk : Disk)
  | on (past : Past) (env : Env) (w : World)

/-- No URL is saved to the state file. -/
def Session.Apart (s : Session) : Prop :=
  ∀ buf url, (getFilename buf none url s.downloadFolder.bytes).path ≠ s.statefile.bytes

/-- What happens to a machine whose daemon keeps its history in `statefile`.  Others leave
that file alone, and the daemon's own steps in writing it are not refused. -/
inductive Transition (statefile : Str) : Machine → Machine → Prop where
  | start (past : Past) (disk : Disk) (env : Env) (s : Session) : s.statefile = statefile →
    s.bucketChanged = false → s.Apart → env.Saves statefile →
    Transition statefile (.off past disk)
      (.on past env (.start (s.loaded (disk statefile.bytes)) disk))
  | step (past : Past) (env : Env) (w w' : World) : Step env w w' →
    Transition statefile (.on past env w) (.on past env w')
  | kill (past : Past) (env : Env) (w : World) :
    Transition statefile (.on past env w) (.off (past.after w) w.disk)
  | shutdown (past : Past) (env : Env) (w : World) :
    Transition statefile (.on past env w) (.off (past.after w) (shutdownDaemon .granting w).disk)
  | others (past : Past) (disk disk' : Disk) : disk' statefile.bytes = disk statefile.bytes →
    Transition statefile (.off past disk) (.off past disk')

/-- All that was done so far. -/
def Machine.log : Machine → Past
  | .off past _ => past
  | .on past _ w => past.after w

/-- The history of the process, or the one that the next process will load. -/
def Machine.history (statefile : Str) : Machine → List Str
  | .off _ disk => (loadState (disk statefile.bytes) []).2
  | .on _ _ w => w.session.downloads

/-- The history holds the newest entries of the log, that begins with the entries `start`: it
has no duplicates, and holds all of the log or as much as a capacity it was used with. -/
structure Remembers (start : List Str) (past : Past) (history : List Str) : Prop where
  recent : history <+: past.urls ++ start
  nodup : history.Nodup
  filled : (past.urls ++ start).length ≤ history.length
    ∨ ∃ c ∈ past.limits, 0 < c ∧ c ≤ history.length

/-- A process that began with what was remembered remembers its own downloads as well. -/
theorem Remembers.after {start loaded : List Str} {past : Past} {w : World}
    (h : Remembers start past loaded) (hhistory : HistoryInvariant loaded w) :
  Remembers start (past.after w) w.session.downloads
  where
    recent := by
      rw [Past.after, List.append_assoc]
      apply hhistory.recent.trans
      apply List.prefix_append_right_inj _ |>.mpr h.recent
    nodup := hhistory.nodup
    filled := by
      rcases hhistory.filled with hall | ⟨c, hc, hpos, hle⟩
      · rw [List.length_append] at hall
        rcases h.filled with hpast | ⟨c, hc, hpos, hle⟩
        · left
          rw [Past.after, List.append_assoc, List.length_append]
          omega
        · right
          refine ⟨c, List.mem_append_right _ hc, hpos, ?_⟩
          omega
      · right
        exact ⟨c, List.mem_append_left _ hc, hpos, hle⟩

/-! ### Processes -/

/-- A process that began with the entries `loaded`.  As long as it has completed no download
they are also what the next process would load. -/
structure Living (statefile : Str) (loaded : List Str) (env : Env) (w : World) : Prop where
  history : HistoryInvariant loaded w
  file : w.session.statefile = statefile
  apart : w.session.Apart
  saves : env.Saves statefile
  loadable : ∀ url ∈ loaded, Loadable url
  unsaved : successes w.trace = [] → (loadState (w.disk statefile.bytes) []).2 = loaded

theorem loadable_of_mem_loaded {file : Option Bytes} (url : Str)
    (h : url ∈ (loadState file []).2) :
  Loadable url
  := by
  cases file with
  | none => cases h
  | some content => apply loadable_of_mem_loadState h

/-- A process as it starts. -/
theorem Living.start {statefile : Str} {env : Env} {s : Session} (disk : Disk)
    (hfile : s.statefile = statefile) (hchanged : s.bucketChanged = false) (hapart : s.Apart)
    (hsaves : env.Saves statefile) (hnodup : (loadState (disk statefile.bytes) []).2.Nodup) :
  Living statefile (loadState (disk statefile.bytes) []).2 env
    (.start (s.loaded (disk statefile.bytes)) disk)
  := by
  refine ⟨⟨?_, hnodup, ?_, ?_, ?_, ?_⟩, hfile, hapart, hsaves, ?_, ?_⟩
  · apply List.prefix_refl
  · left
    apply Nat.le_refl
  · simp [successes, World.start]
  · simp [World.start, Session.loaded, hchanged, successes]
  · simp [successes, World.start]
  · apply loadable_of_mem_loaded
  · intro _
    rfl

/-- A visit completes no download and leaves the state file, or completes one and saves. -/
theorem processURL_saves {env : Env} {w : World} (hapart : w.session.Apart)
    (hleaves : env.Leaves w.session.statefile.bytes) (item : FeedItem) (url : Str) :
  let w' := processURL env w item url
  let p := w.session.statefile.bytes
  (successes w'.trace = successes w.trace ∧ w'.session = w.session ∧ w'.disk p = w.disk p)
    ∨ (successes w'.trace = url :: successes w.trace ∧ url ∉ w.session.downloads
      ∧ w'.session = { w.session with
        downloads := addToBucket url w.session.downloads w.session.maxBucketItems.toNat
        bucketChanged := true }
      ∧ w'.disk p
        = runSteps (saveState (env.visit w.visits).save w'.session.downloads).steps (w.disk p))
  := by
  intro w' p
  have hbegin : (beginVisit env w).disk p = w.disk p := hleaves w.visits w.disk
  have hdownload : (visitDownload env w url).2 p = w.disk p := by
    rw [visitDownload, visitFile, downloadFile_of_ne _ _ (hapart _ url.bytes).symm, hbegin]
  cases processURL_visited env w item url with
  | skipped _ hsession hdisk htrace =>
    left
    exact ⟨congrArg successes htrace, hsession, (congrFun hdisk p).trans hbegin⟩
  | failed _ hresponse hsession hdisk notices honly htrace =>
    left
    refine ⟨?_, hsession, (congrFun hdisk p).trans hdownload⟩
    simp only [w', htrace, successes_append_notices honly]
    simp [successes, visitEvent, Event.success, hresponse]
  | completed hattempts hresponse hsession hdisk notices honly htrace =>
    right
    refine ⟨?_, hattempts.fresh, hsession, ?_⟩
    · simp only [w', htrace, successes_completed hresponse honly]
    · simp only [w', p, hdisk, Function.update_self]
      rw [hdownload]

theorem Living.step {statefile : Str} {loaded : List Str} {env : Env} {w w' : World}
    (h : Living statefile loaded env w) (hstep : Step env w w') :
  Living statefile loaded env w'
  := by
  have halike := hstep.alike
  have hsaves : env.Saves w.session.statefile := by
    rw [h.file]
    apply h.saves
  constructor
  · apply h.history.step hstep hsaves
  · rw [halike.statefile, h.file]
  · rw [Session.Apart, halike.statefile, halike.downloadFolder]
    apply h.apart
  · apply h.saves
  · apply h.loadable
  · intro hnone
    cases hstep with
    | between => apply h.unsaved hnone
    | visit item url =>
      have hleaves : env.Leaves w.session.statefile.bytes := hsaves.leave
      rcases processURL_saves h.apart hleaves item url with ⟨hsame, -, hfile⟩ | ⟨hcons, -⟩
      · rw [h.file] at hfile
        rw [hfile]
        apply h.unsaved
        rw [← hsame, hnone]
      · rw [hnone] at hcons
        cases hcons

theorem Living.run {statefile : Str} {loaded : List Str} {env : Env} {w w' : World}
    (h : Living statefile loaded env w) (hrun : Run env w w') :
  Living statefile loaded env w'
  := by
  induction hrun with
  | refl => apply h
  | tail _ hstep ih => apply ih.step hstep

/-- Whatever a process has done, the next one loads its history. -/
theorem Living.loads {statefile : Str} {loaded : List Str} {env : Env} {w : World}
    (h : Living statefile loaded env w) (hloadable : ∀ url ∈ successes w.trace, Loadable url) :
  (loadState (w.disk statefile.bytes) []).2 = w.session.downloads
    ∨ successes w.trace = [] ∧ (loadState (w.disk statefile.bytes) []).2 = loaded
  := by
  rcases eq_or_ne (successes w.trace) [] with hnone | hsome
  · right
    exact ⟨hnone, h.unsaved hnone⟩
  · left
    have hsaved := h.history.saved hsome
    rw [h.file] at hsaved
    rw [hsaved, loadState_stateFile]
    intro url hurl
    rcases List.mem_append.mp (h.history.recent.subset hurl) with hnew | hold
    · apply hloadable url hnew
    · apply h.loadable url hold

/-- Shutting down leaves the state file as it is: the history has been saved already. -/
theorem Living.shutdown {statefile : Str} {loaded : List Str} {env : Env} {w : World}
    (h : Living statefile loaded env w) :
  (shutdownDaemon .granting w).disk statefile.bytes = w.disk statefile.bytes
  := by
  rw [shutdownDaemon]
  split_ifs with hchanged
  · have hsaved := h.history.saved (h.history.changed.mp hchanged)
    rw [h.file] at hsaved
    simp only
    rw [h.file, Function.update_self, (runSteps_saveState _ _).2, hsaved]
  · rfl

/-! ### All processes -/

/-- The state of a machine: between processes, and during one. -/
def Machine.Remembering (statefile : Str) (start : List Str) : Machine → Prop
  | .off past disk => Remembers start past (loadState (disk statefile.bytes) []).2
  | .on past env w => ∃ loaded, Living statefile loaded env w ∧ Remembers start past loaded

/-- The log only grows. -/
theorem Past.urls_subset_after (past : Past) (env : Env) (w : World) (item : FeedItem)
    (url : Str) :
  (past.after w).urls ⊆ (past.after (processURL env w item url)).urls
  := by
  rcases (processURL_visited env w item url).history with ⟨-, hsame, -⟩ | ⟨-, -, hcons, -⟩
  · rw [Past.after, Past.after, hsame]
    apply List.Subset.refl
  · rw [Past.after, Past.after, hcons]
    apply List.subset_cons_self

theorem Transition.urls_subset {statefile : Str} {m m' : Machine}
    (h : Transition statefile m m') :
  m.log.urls ⊆ m'.log.urls
  := by
  cases h with
  | start => apply List.Subset.refl
  | kill => apply List.Subset.refl
  | shutdown => apply List.Subset.refl
  | others => apply List.Subset.refl
  | step past env w w' hstep =>
    cases hstep with
    | between => apply List.Subset.refl
    | visit item url => apply Past.urls_subset_after

/-- A machine on which no process runs any more. -/
theorem Living.off {statefile : Str} {start loaded : List Str} {past : Past} {env : Env}
    {w : World} (h : Living statefile loaded env w) (hremembers : Remembers start past loaded)
    (hloadable : ∀ url ∈ (past.after w).urls, Loadable url) :
  Remembers start (past.after w) (loadState (w.disk statefile.bytes) []).2
  := by
  have hafter := hremembers.after h.history
  rcases h.loads fun url hurl => hloadable url (List.mem_append_left _ hurl) with
    hloads | ⟨hnone, hloads⟩
  · rw [hloads]
    apply hafter
  · rw [hloads]
    have hlog : (past.after w).urls = past.urls := by rw [Past.after, hnone, List.nil_append]
    constructor
    · rw [hlog]
      apply hremembers.recent
    · apply hremembers.nodup
    · rw [hlog]
      apply hremembers.filled.imp_right
      rintro ⟨c, hc, hle⟩
      exact ⟨c, List.mem_append_right _ hc, hle⟩

theorem Transition.remembering {statefile : Str} {start : List Str} {m m' : Machine}
    (h : Transition statefile m m') (hm : m.Remembering statefile start)
    (hloadable : ∀ url ∈ m'.log.urls, Loadable url) :
  m'.Remembering statefile start
  := by
  cases h with
  | start past disk env s hfile hchanged hapart hsaves =>
    use (loadState (disk statefile.bytes) []).2
    exact ⟨Living.start disk hfile hchanged hapart hsaves hm.nodup, hm⟩
  | step past env w w' hstep =>
    obtain ⟨loaded, hliving, hremembers⟩ := hm
    exact ⟨loaded, hliving.step hstep, hremembers⟩
  | kill past env w =>
    obtain ⟨loaded, hliving, hremembers⟩ := hm
    apply hliving.off hremembers hloadable
  | shutdown past env w =>
    obtain ⟨loaded, hliving, hremembers⟩ := hm
    rw [Machine.Remembering, hliving.shutdown]
    apply hliving.off hremembers hloadable
  | others past disk disk' hsame =>
    rw [Machine.Remembering, hsame]
    apply hm

/-- However often the daemon is started, shut down and killed between two visits, its history
is the newest entries of the log of all downloads that completed, in any process, behind
which the entries of the first state file come.  It has no duplicates, and it holds all of
the log or at least as many entries as one of the capacities that it was used with. -/
theorem history_survives {statefile : Str} {disk : Disk} {m : Machine}
    (hrun : Relation.ReflTransGen (Transition statefile) (.off ⟨[], []⟩ disk) m)
    (hnodup : (loadState (disk statefile.bytes) []).2.Nodup)
    (hloadable : ∀ url ∈ m.log.urls, Loadable url) :
  Remembers (loadState (disk statefile.bytes) []).2 m.log (m.history statefile)
  := by
  have hremembering : m.Remembering statefile (loadState (disk statefile.bytes) []).2 := by
    induction hrun with
    | refl => exact ⟨List.prefix_refl _, hnodup, Or.inl (Nat.le_refl _)⟩
    | tail _ htransition ih =>
      apply htransition.remembering _ hloadable
      apply ih
      intro url hurl
      apply hloadable url (htransition.urls_subset hurl)
  cases m with
  | off past disk' => apply hremembering
  | on past env w =>
    obtain ⟨loaded, hliving, hremembers⟩ := hremembering
    apply hremembers.after hliving.history

/-- Downloads to `/t` are apart from a state file that is not in there. -/
theorem apart_plain {s : Session} (hfolder : s.downloadFolder = (Session.plain [] []).downloadFolder)
    (hstatefile : s.statefile.bytes[1]? ≠ some 116) :
  s.Apart
  := by
  intro buf url hpath
  have hsecond := congrArg (fun path => path[1]?) hpath
  rw [hfolder] at hsecond
  apply hstatefile
  rw [← hsecond]
  simp [getFilename, Session.plain, text, PATH_MAX]
  decide

/-- The world in which the only download is that of `longUrl`. -/
def longVisited : World :=
  processURL (.plain [] fun _ => .plain 200) (.start (.plain [] []) fun _ => none)
    ⟨some longUrl, [longUrl]⟩ longUrl

/-- The machine after the process of that world was killed. -/
def killedMachine : Machine :=
  .off (Past.after ⟨[], []⟩ longVisited) longVisited.disk

theorem history_survives_kill :
  killedMachine.history (Session.plain [] []).statefile = [longUrl]
    ∧ Remembers [] killedMachine.log (killedMachine.history (Session.plain [] []).statefile)
  := by
  have hrun : Relation.ReflTransGen (Transition (Session.plain [] []).statefile)
      (.off ⟨[], []⟩ fun _ => none) killedMachine := by
    apply Relation.ReflTransGen.head (Transition.start _ _ (.plain [] fun _ => .plain 200)
      (.plain [] []) rfl rfl (apart_plain rfl (by decide)) ⟨fun _ => rfl, fun _ _ => rfl⟩)
    apply Relation.ReflTransGen.head (Transition.step _ _ _ longVisited (Step.visit _ longUrl))
    apply Relation.ReflTransGen.single (Transition.kill _ _ _)
  refine ⟨by decide, ?_⟩
  apply history_survives hrun
  · apply List.nodup_nil
  · decide

end Trailermatic
