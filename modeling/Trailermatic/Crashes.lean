import Trailermatic.Lifecycle

/-!
# Crashes

A process may be killed at any moment, also between two steps of writing the state file, and
any of these steps may be refused.  The history can then lose entries.  `history_drawn` says
that it never makes any up: it stays in the order of the log, and without duplicates.
-/

namespace Trailermatic

/-- Some entries of a log, in its order, and none of them twice. -/
structure Drawn (log history : List Str) : Prop where
  sublist : history.Sublist log
  nodup : history.Nodup

theorem Drawn.sub {log history history' : List Str} (h : Drawn log history)
    (hsub : history'.Sublist history) :
  Drawn log history'
  := ⟨hsub.trans h.sublist, h.nodup.sublist hsub⟩

theorem Drawn.grow {log log' history : List Str} (h : Drawn log history)
    (hlog : log.Sublist log') :
  Drawn log' history
  := ⟨h.sublist.trans hlog, h.nodup⟩

/-- An entry that is new to the history is recorded. -/
theorem Drawn.record {log history : List Str} (h : Drawn log history) {url : Str}
    (hfresh : url ∉ history) (max : ℕ) :
  Drawn (url :: log) (addToBucket url history max)
  := by
  have hpush : addToBucket url history max = ((Window.all history).push max url).kept :=
    addToBucket_eq_push (Window.all history) url max
  obtain ⟨rest, hrest, hinit⟩ := (Window.all history).kept_push max url
  rw [hpush]
  constructor
  · rw [hrest]
    apply List.Sublist.cons_cons url (hinit.sublist.trans h.sublist)
  · apply Window.nodup_kept_push h.nodup hfresh

/-! ### Files -/

/-- An entry that has a line of its own in the state file. -/
def Storable (entry : Str) : Prop :=
  entry.bytes.length + 1 < MAX_LINE_LEN ∧ newline ∉ entry.bytes

instance (entry : Str) : Decidable (Storable entry) :=
  inferInstanceAs (Decidable (_ ∧ _))

theorem Loadable.storable {entry : Str} (h : Loadable entry) :
  Storable entry
  := ⟨h.2.1, h.2.2⟩

/-- Entries that are too short are not loaded. -/
theorem loadState_stateFile_filter {entries : List Str} (h : ∀ entry ∈ entries, Storable entry) :
  (loadState (some (stateFile entries)) []).2 = entries.filter (20 ≤ ·.bytes.length)
  := by
  induction entries with
  | nil => simp [loadState_some, stateFile]
  | cons entry entries ih =>
    obtain ⟨hlen, hfree⟩ := h entry List.mem_cons_self
    rw [loadState_stateFile_cons, loadState_saveLine hlen hfree,
      ih fun e he => h e (List.mem_cons_of_mem entry he), List.filter_cons]
    simp only [decide_eq_true_eq]
    split_ifs
    · rfl
    · rfl

/-- Wherever saving stops, and whatever is refused, what is loaded afterwards is drawn from the
log if the old file and the new history were. -/
theorem drawn_stopped {log downloads : List Str} {file : Option Bytes}
    (hfile : Drawn log (loadState file []).2) (hdownloads : Drawn log downloads)
    (hstorable : ∀ entry ∈ downloads, Storable entry) (a : SaveAnswers) (k : ℕ) :
  Drawn log (loadState (runSteps ((saveState a downloads).steps.take k) file) []).2
  := by
  rw [runSteps_take_saveState]
  split_ifs
  · apply hfile
  · rw [loadState_stateFile_filter fun entry hentry =>
      hstorable entry (List.mem_of_mem_take hentry)]
    apply hdownloads.sub
    apply List.Sublist.trans List.filter_sublist (List.take_sublist _ _)

theorem drawn_saved {log downloads : List Str} {file : Option Bytes}
    (hfile : Drawn log (loadState file []).2) (hdownloads : Drawn log downloads)
    (hstorable : ∀ entry ∈ downloads, Storable entry) (a : SaveAnswers) :
  Drawn log (loadState (runSteps (saveState a downloads).steps file) []).2
  := by
  have h := drawn_stopped hfile hdownloads hstorable a (saveState a downloads).steps.length
  rw [List.take_length] at h
  apply h

/-! ### Machines that crash -/

/-- The disk when a process is killed after `k` steps of saving `downloads`. -/
def stoppedDisk (save : SaveAnswers) (downloads : List Str) (k : ℕ) (statefile : Str)
    (disk : Disk) : Disk :=
  Function.update disk statefile.bytes
    (runSteps ((saveState save downloads).steps.take k) (disk statefile.bytes))

/-- What happens to a machine whose daemon keeps its history in `statefile`, a file that others
leave alone.  The daemon is killed while it saves, or at another moment, when it may have
changed other files; and others change other files. -/
inductive Crashing (statefile : Str) : Machine → Machine → Prop where
  | start (past : Past) (disk : Disk) (env : Env) (s : Session) : s.statefile = statefile →
    s.Apart → env.Leaves statefile.bytes →
    Crashing statefile (.off past disk) (.on past env (.start (s.loaded (disk statefile.bytes)) disk))
  | step (past : Past) (env : Env) (w w' : World) : Step env w w' →
    Crashing statefile (.on past env w) (.on past env w')
  | kill (past : Past) (env : Env) (w : World) (disk : Disk) :
    disk statefile.bytes = w.disk statefile.bytes →
    Crashing statefile (.on past env w) (.off (past.after w) disk)
  | killSaving (past : Past) (env : Env) (w : World) (item : FeedItem) (url : Str) (k : ℕ)
    (disk : Disk) : disk statefile.bytes = w.disk statefile.bytes →
    successes (processURL env w item url).trace = url :: successes w.trace →
    Crashing statefile (.on past env w) (.off (past.after (processURL env w item url))
      (stoppedDisk (env.visit w.visits).save (processURL env w item url).session.downloads k
        statefile disk))
  | shutdown (past : Past) (env : Env) (w : World) (save : SaveAnswers) (k : ℕ) :
    w.session.bucketChanged = true →
    Crashing statefile (.on past env w)
      (.off (past.after w) (stoppedDisk save w.session.downloads k statefile w.disk))
  | others (past : Past) (disk disk' : Disk) : disk' statefile.bytes = disk statefile.bytes →
    Crashing statefile (.off past disk) (.off past disk')

/-- A process whose history, and whose state file, are drawn from the log. -/
structure Drawing (statefile : Str) (start : List Str) (past : Past) (env : Env) (w : World) :
    Prop where
  history : Drawn ((past.after w).urls ++ start) w.session.downloads
  saved : Drawn ((past.after w).urls ++ start) (loadState (w.disk statefile.bytes) []).2
  file : w.session.statefile = statefile
  apart : w.session.Apart
  leaves : env.Leaves statefile.bytes

/-- Entries drawn from storable ones can be stored. -/
theorem Drawn.storable {past : Past} {start history : List Str}
    (h : Drawn (past.urls ++ start) history) (hstart : ∀ url ∈ start, Loadable url)
    (hurls : ∀ url ∈ past.urls, Storable url) :
  ∀ entry ∈ history, Storable entry
  := by
  intro entry hentry
  rcases List.mem_append.mp (h.sublist.subset hentry) with hlog | hold
  · apply hurls entry hlog
  · apply (hstart entry hold).storable

theorem Drawing.visit {statefile : Str} {start : List Str} {past : Past} {env : Env} {w : World}
    (h : Drawing statefile start past env w) (hstart : ∀ url ∈ start, Loadable url)
    (item : FeedItem) (url : Str)
    (hurls : ∀ u ∈ (past.after (processURL env w item url)).urls, Storable u) :
  Drawing statefile start past env (processURL env w item url)
  := by
  have halike := (processURL_visited env w item url).alike.1
  have hleaves : env.Leaves w.session.statefile.bytes := by
    rw [h.file]
    apply h.leaves
  have hsaves := processURL_saves h.apart hleaves item url
  simp only [h.file] at hsaves
  have hfile : (processURL env w item url).session.statefile = statefile := by
    rw [halike.statefile, h.file]
  have hapart : (processURL env w item url).session.Apart := by
    rw [Session.Apart, halike.statefile, halike.downloadFolder]
    apply h.apart
  rcases hsaves with ⟨hsame, hsession, hdisk⟩ | ⟨hcons, hfresh, hsession, hdisk⟩
  · have hpast : past.after w = ⟨(past.after (processURL env w item url)).urls,
        (past.after w).limits⟩ := by rw [Past.after, Past.after, hsame]
    have hhistory := h.history
    have hsaved := h.saved
    rw [hpast] at hhistory hsaved
    rw [← hsession] at hhistory
    rw [← hdisk] at hsaved
    exact ⟨hhistory, hsaved, hfile, hapart, h.leaves⟩
  · have hlog : (past.after (processURL env w item url)).urls ++ start
        = url :: ((past.after w).urls ++ start) := by rw [Past.after, Past.after, hcons]; rfl
    have hhistory : Drawn ((past.after (processURL env w item url)).urls ++ start)
        (processURL env w item url).session.downloads := by
      rw [hlog, hsession]
      apply h.history.record hfresh
    refine ⟨hhistory, ?_, hfile, hapart, h.leaves⟩
    rw [hdisk]
    apply drawn_saved _ hhistory (hhistory.storable hstart hurls)
    rw [hlog]
    apply h.saved.grow (List.sublist_cons_self _ _)

/-- The state of a machine: between processes, and during one. -/
def Machine.Draws (statefile : Str) (start : List Str) : Machine → Prop
  | .off past disk => Drawn (past.urls ++ start) (loadState (disk statefile.bytes) []).2
  | .on past env w => Drawing statefile start past env w

/-- The disk of a process that was killed while it saved. -/
theorem drawn_stoppedDisk {log downloads : List Str} {statefile : Str} {disk : Disk}
    (hfile : Drawn log (loadState (disk statefile.bytes) []).2) (hdownloads : Drawn log downloads)
    (hstorable : ∀ entry ∈ downloads, Storable entry) (save : SaveAnswers) (k : ℕ) :
  Drawn log (loadState (stoppedDisk save downloads k statefile disk statefile.bytes) []).2
  := by
  rw [stoppedDisk, Function.update_self]
  apply drawn_stopped hfile hdownloads hstorable

theorem Crashing.draws {statefile : Str} {start : List Str} {m m' : Machine}
    (h : Crashing statefile m m') (hstart : ∀ url ∈ start, Loadable url)
    (hm : m.Draws statefile start) (hurls : ∀ url ∈ m'.log.urls, Storable url) :
  m'.Draws statefile start
  := by
  cases h with
  | start past disk env s hfile hapart hleaves => exact ⟨hm, hm, hfile, hapart, hleaves⟩
  | step past env w w' hstep =>
    cases hstep with
    | between => exact ⟨hm.history, hm.saved, hm.file, hm.apart, hm.leaves⟩
    | visit item url => apply hm.visit hstart item url hurls
  | kill past env w disk hdisk =>
    rw [Machine.Draws, hdisk]
    apply hm.saved
  | killSaving past env w item url k disk hdisk hcons =>
    have hvisit := hm.visit hstart item url hurls
    have hlog : ((past.after w).urls ++ start).Sublist
        ((past.after (processURL env w item url)).urls ++ start) := by
      rw [Past.after, Past.after, hcons]
      apply List.sublist_cons_self
    apply drawn_stoppedDisk _ hvisit.history (hvisit.history.storable hstart hurls)
    rw [hdisk]
    apply hm.saved.grow hlog
  | shutdown past env w save k =>
    apply drawn_stoppedDisk hm.saved hm.history (hm.history.storable hstart hurls)
  | others past disk disk' hsame =>
    rw [Machine.Draws, hsame]
    apply hm

theorem Crashing.urls_subset {statefile : Str} {m m' : Machine} (h : Crashing statefile m m') :
  m.log.urls ⊆ m'.log.urls
  := by
  cases h with
  | start => apply List.Subset.refl
  | kill => apply List.Subset.refl
  | shutdown => apply List.Subset.refl
  | others => apply List.Subset.refl
  | killSaving past env w item url => apply Past.urls_subset_after
  | step past env w w' hstep =>
    cases hstep with
    | between => apply List.Subset.refl
    | visit item url => apply Past.urls_subset_after

/-- The machine after the process that completed the download of `longUrl` was killed when it had
opened the state file to write it. -/
def openedMachine : Machine :=
  .off (Past.after ⟨[], []⟩ longVisited) (stoppedDisk .granting [longUrl] 1
    (Session.plain [] []).statefile fun _ => none)

end Trailermatic
