import Trailermatic.Visits
import Mathlib.Logic.Relation

/-!
# Runs

A run is a sequence of visits; between visits feeds are requested, and the capacity of
the history and the filters may be any.  The main loop stays within runs, so what a step
preserves holds wherever the main loop is.
-/

namespace Trailermatic

/-- A step of a run: the visit of a URL, or what happens between two visits. -/
inductive Step (env : Env) (w : World) : World → Prop where
  | visit (item : FeedItem) (url : Str) : Step env w (processURL env w item url)
  | between (maxBucketItems : UInt16) (filters : List Filter) (fetches : ℕ) :
    Step env w { w with
      session := { w.session with maxBucketItems := maxBucketItems, filters := filters }
      fetches := fetches }

/-- Runs of any number of steps. -/
abbrev Run (env : Env) : World → World → Prop :=
  Relation.ReflTransGen (Step env)

/-! ### The main loop -/

theorem run_processURLs (env : Env) (item : FeedItem) (urls : List Str) (w : World) :
  Run env w (processURLs env item urls w)
  := by
  induction urls generalizing w with
  | nil => apply Relation.ReflTransGen.refl
  | cons url urls ih =>
    apply Relation.ReflTransGen.head (Step.visit item url)
    apply ih

theorem run_processRSSList (env : Env) (items : List FeedItem) (w : World) :
  Run env w (processRSSList env items w)
  := by
  induction items generalizing w with
  | nil => apply Relation.ReflTransGen.refl
  | cons item items ih =>
    apply Relation.ReflTransGen.trans (run_processURLs env item item.urls w)
    apply ih

theorem run_processFeed (env : Env) (w : World) (feed : RssFeed) (firstrun : Bool) :
  Run env w (processFeed env w feed firstrun)
  := by
  have hfetch : Run env w { w with fetches := w.fetches + 1 } :=
    Relation.ReflTransGen.single (Step.between w.session.maxBucketItems w.session.filters _)
  simp only [processFeed]
  cases env.fetch w.fetches feed with
  | none => apply hfetch
  | some response =>
    by_cases hcode : response.responseCode = 200
    · simp only [if_pos hcode]
      cases response.data with
      | none => apply hfetch
      | some data =>
        apply Relation.ReflTransGen.trans _ (run_processRSSList env _ _)
        cases firstrun with
        | false => apply hfetch
        | true => apply hfetch.tail (Step.between _ w.session.filters _)
    · simp only [if_neg hcode]
      apply hfetch

theorem run_processFile (env : Env) (w : World) (xmldata : Option Bytes) :
  Run env w (processFile env w xmldata)
  := by
  cases xmldata with
  | none => apply Relation.ReflTransGen.refl
  | some data =>
    apply Relation.ReflTransGen.trans _ (run_processRSSList env _ _)
    exact Relation.ReflTransGen.single (Step.between _ w.session.filters w.fetches)

theorem run_checkFeeds (env : Env) (firstrun : Bool) (feeds : List RssFeed) (w : World) :
  Run env w (checkFeeds env firstrun feeds w)
  := by
  induction feeds generalizing w with
  | nil => apply Relation.ReflTransGen.refl
  | cons feed feeds ih =>
    apply Relation.ReflTransGen.trans (run_processFeed env w feed firstrun)
    apply ih

/-- The main loop stays within runs. -/
theorem run_mainLoop (env : Env) (passes : ℕ) (firstRun : Bool) (w : World) :
  Run env w (mainLoop env passes firstRun w)
  := by
  induction passes generalizing firstRun w with
  | zero => apply Relation.ReflTransGen.refl
  | succ passes ih =>
    apply Relation.ReflTransGen.trans (run_checkFeeds env firstRun w.session.feeds w)
    apply ih

/-! ### What runs keep -/

/-- Two sessions that differ at most in their histories, capacities and filters. -/
structure Session.Alike (s s' : Session) : Prop where
  statefile : s'.statefile = s.statefile
  downloadFolder : s'.downloadFolder = s.downloadFolder
  feeds : s'.feeds = s.feeds
  matchOnly : s'.matchOnly = s.matchOnly

theorem Session.Alike.refl (s : Session) :
  s.Alike s
  := ⟨rfl, rfl, rfl, rfl⟩

theorem Session.Alike.trans {s s' s'' : Session} (h : s.Alike s') (h' : s'.Alike s'') :
  s.Alike s''
  where
    statefile := h'.statefile.trans h.statefile
    downloadFolder := h'.downloadFolder.trans h.downloadFolder
    feeds := h'.feeds.trans h.feeds
    matchOnly := h'.matchOnly.trans h.matchOnly

/-- A visit changes no more of the session than the history and its flag. -/
theorem Visited.alike {env : Env} {w w' : World} {url : Str} (h : Visited env w url w') :
  w.session.Alike w'.session ∧ w'.session.filters = w.session.filters
    ∧ w'.session.maxBucketItems = w.session.maxBucketItems
  := by
  cases h with
  | skipped _ hsession => exact hsession ▸ ⟨.refl _, rfl, rfl⟩
  | failed _ _ hsession => exact hsession ▸ ⟨.refl _, rfl, rfl⟩
  | completed _ _ hsession => exact hsession ▸ ⟨⟨rfl, rfl, rfl, rfl⟩, rfl, rfl⟩

theorem Step.alike {env : Env} {w w' : World} (h : Step env w w') :
  w.session.Alike w'.session
  := by
  cases h with
  | visit item url => apply (processURL_visited env w item url).alike.1
  | between => exact ⟨rfl, rfl, rfl, rfl⟩

theorem Run.alike {env : Env} {w w' : World} (h : Run env w w') :
  w.session.Alike w'.session
  := by
  induction h with
  | refl => apply Session.Alike.refl
  | tail _ hstep ih => apply ih.trans hstep.alike

/-! ### Downloads that completed -/

/-- The URL of a download that completed. -/
def Event.success : Event → Option Str
  | .download url _ _ response => if Trailermatic.completed response then some url else none
  | _ => none

/-- The capacity of the history when an entry was recorded. -/
def Event.capacity : Event → Option ℕ
  | .record _ _ maxBucketItems => some maxBucketItems
  | _ => none

/-- The URLs whose download completed, newest first. -/
def successes (trace : List Event) : List Str :=
  trace.filterMap Event.success

/-- The capacities the history was used with, newest first. -/
def capacities (trace : List Event) : List ℕ :=
  trace.filterMap Event.capacity

/-- Notices add nothing to what is drawn from the other events of a trace. -/
theorem filterMap_append_notices {α : Type*} {f : Event → Option α}
    (hnotify : ∀ event key name, f (.notify event key name) = none)
    (hscript : ∀ name path, f (.script name path) = none) {notices : List Event}
    (h : ∀ e ∈ notices, e.isNotice = true) (trace : List Event) :
  (notices ++ trace).filterMap f = trace.filterMap f
  := by
  have hnone : notices.filterMap f = [] := by
    apply List.filterMap_eq_nil_iff.mpr
    intro e he
    cases e with
    | download => cases h _ he
    | record => cases h _ he
    | notify => apply hnotify
    | script => apply hscript
  rw [List.filterMap_append, hnone, List.nil_append]

theorem successes_append_notices {notices : List Event} (h : ∀ e ∈ notices, e.isNotice = true)
    (trace : List Event) :
  successes (notices ++ trace) = successes trace
  := filterMap_append_notices (fun _ _ _ => rfl) (fun _ _ => rfl) h trace

theorem capacities_append_notices {notices : List Event} (h : ∀ e ∈ notices, e.isNotice = true)
    (trace : List Event) :
  capacities (notices ++ trace) = capacities trace
  := filterMap_append_notices (fun _ _ _ => rfl) (fun _ _ => rfl) h trace

/-- A completed download is counted. -/
theorem successes_completed {env : Env} {w : World} {url : Str} {notices : List Event}
    (hresponse : completed (visitDownload env w url).1 = true)
    (honly : ∀ e ∈ notices, e.isNotice = true) (count maxBucketItems : ℕ) :
  successes (.record url count maxBucketItems :: (notices ++ visitEvent env w url :: w.trace))
    = url :: successes w.trace
  := by
  apply (successes_append_notices honly (visitEvent env w url :: w.trace)).trans
  simp [successes, visitEvent, Event.success, hresponse]

/-- A visit either leaves the session and the files that exist as they are and completes
no download, or completes the download of a URL that is not in the history, records it
and saves the history. -/
theorem Visited.history {env : Env} {w w' : World} {url : Str} (h : Visited env w url w') :
  (w'.session = w.session ∧ successes w'.trace = successes w.trace
      ∧ capacities w'.trace = capacities w.trace
      ∧ ∀ p, (beginVisit env w).disk p ≠ none → w'.disk p = (beginVisit env w).disk p)
    ∨ (Attempts env w url
      ∧ w'.session = { w.session with
          downloads := addToBucket url w.session.downloads w.session.maxBucketItems.toNat
          bucketChanged := true }
      ∧ successes w'.trace = url :: successes w.trace
      ∧ capacities w'.trace = w.session.maxBucketItems.toNat :: capacities w.trace
      ∧ ∃ file, w'.disk w.session.statefile.bytes
        = runSteps (saveState (env.visit w.visits).save w'.session.downloads).steps file)
  := by
  cases h with
  | skipped _ hsession hdisk htrace =>
    left
    rw [htrace, hdisk]
    exact ⟨hsession, rfl, rfl, fun _ _ => rfl⟩
  | failed hattempts hresponse hsession hdisk notices honly htrace =>
    left
    rw [htrace, successes_append_notices honly, capacities_append_notices honly, hdisk]
    refine ⟨hsession, ?_, rfl, ?_⟩
    · simp [successes, visitEvent, Event.success, hresponse]
    · intro p hp
      apply downloadFile_of_ne
      rintro rfl
      apply hp hattempts.absent
  | completed hattempts hresponse hsession hdisk notices honly htrace =>
    right
    refine ⟨hattempts, hsession, ?_, ?_, ?_⟩
    · rw [htrace]
      apply successes_completed hresponse honly
    · have hrecord := capacities_append_notices honly (visitEvent env w url :: w.trace)
      rw [htrace]
      apply congrArg (w.session.maxBucketItems.toNat :: ·) hrecord
    · rw [hdisk, Function.update_self]
      use (visitDownload env w url).2 w.session.statefile.bytes

end Trailermatic
