import Trailermatic.History

/-!
# What is told of a download

The trace of a run is a sequence of reports, one for each download: the download, a
notification if the server answered, and, if the download is complete, a run of the script
and an entry of the history.  `told_once` draws from this that everything is told exactly
once, and in the order of the downloads.
-/

namespace Trailermatic

/-- A download with what is told of it: the name in the notification, and the length and the
capacity of the history when the entry is made. -/
structure Report where
  url : Str
  path : Bytes
  opened : Bool
  response : Option HttpResponse
  name : Option Str
  count : ℕ
  maxBucketItems : ℕ

/-- The event that a complete or a failed download is announced with. -/
def announcement (complete : Bool) : ProwlEvent :=
  if complete then .newTrailer else .downloadFailed

/-- The events of a report in the session `s`, newest first. -/
def Report.events (s : Session) (r : Report) : List Event :=
  let told := if completed r.response then
      .record r.url r.count r.maxBucketItems
        :: s.downloadDoneScript.toList.map fun script => .script script r.path
    else []
  let notices := if s.prowlKeyValid && r.response.isSome then
      [.notify (announcement (completed r.response)) s.prowlKey r.name]
    else []
  told ++ (notices ++ [.download r.url r.path r.opened r.response])

/-! ### Runs -/

/-- An attempt adds one report. -/
theorem attempt_reports (v : Visit) (w : World) (item : FeedItem) (url : Str) (path : Bytes)
    (agent : Option Bytes) :
  ∃ r : Report, (attempt v w item url path agent).trace = r.events w.session ++ w.trace
  := by
  simp only [attempt]
  generalize downloadFile v.download url.bytes path agent w.disk = answer
  obtain ⟨response, disk⟩ := answer
  use ⟨url, path, v.download.fopen, response, item.name, listCount w.session.downloads,
    w.session.maxBucketItems.toNat⟩
  cases response with
  | none => simp [Report.events, completed]
  | some r =>
    by_cases hcode : r.responseCode = 200
    · simp only [hcode, if_true, recordDownload, Report.events, completed]
      cases w.session.downloadDoneScript with
      | none => simp [announcement]
      | some script => simp [announcement]
    · simp only [hcode, if_false, reportFailure, Report.events, completed]
      cases w.session.prowlKeyValid with
      | false => simp [hcode]
      | true => simp [hcode, announcement]

/-- Two sessions that tell the same of a download. -/
structure Session.TellAlike (s s' : Session) : Prop where
  prowlKeyValid : s'.prowlKeyValid = s.prowlKeyValid
  prowlKey : s'.prowlKey = s.prowlKey
  downloadDoneScript : s'.downloadDoneScript = s.downloadDoneScript

theorem Session.TellAlike.events {s s' : Session} (h : s.TellAlike s') (r : Report) :
  r.events s' = r.events s
  := by
  rw [Report.events, Report.events, h.prowlKeyValid, h.prowlKey, h.downloadDoneScript]

theorem Visited.tellAlike {env : Env} {w w' : World} {url : Str} (h : Visited env w url w') :
  w.session.TellAlike w'.session
  := by
  cases h with
  | skipped _ hsession => exact hsession ▸ ⟨rfl, rfl, rfl⟩
  | failed _ _ hsession => exact hsession ▸ ⟨rfl, rfl, rfl⟩
  | completed _ _ hsession => exact hsession ▸ ⟨rfl, rfl, rfl⟩

/-- A visit adds reports. -/
theorem processURL_reports (env : Env) (w : World) (item : FeedItem) (url : Str) :
  ∃ reports : List Report,
    (processURL env w item url).trace = reports.flatMap (Report.events w.session) ++ w.trace
  := by
  by_cases h : Attempts env w url
  · obtain ⟨w₀, hsession, htrace, -, -, hvisit⟩ := processURL_of_attempts h item
    obtain ⟨r, hr⟩ := attempt_reports (env.visit w.visits) w₀ item url (visitFile env w url).path
      ((isMatch env.pcre w.session.filters url.bytes).bind (·.agent))
    use [r]
    rw [hvisit, hr, hsession, htrace, List.flatMap_singleton]
  · use []
    apply (processURL_of_not_attempts h item).2.2.1

/-- The trace of a run is a sequence of reports. -/
theorem run_reports {env : Env} {w w' : World} (hrun : Run env w w') :
  w.session.TellAlike w'.session ∧ ∃ reports : List Report,
    w'.trace = reports.flatMap (Report.events w.session) ++ w.trace
  := by
  induction hrun with
  | refl => exact ⟨⟨rfl, rfl, rfl⟩, [], rfl⟩
  | tail hrun hstep ih =>
    obtain ⟨halike, reports, hreports⟩ := ih
    cases hstep with
    | between => exact ⟨⟨halike.prowlKeyValid, halike.prowlKey, halike.downloadDoneScript⟩,
        reports, hreports⟩
    | visit item url =>
      rename_i w₁
      have hvisit := (processURL_visited env w₁ item url).tellAlike
      obtain ⟨more, hmore⟩ := processURL_reports env w₁ item url
      constructor
      · exact ⟨hvisit.prowlKeyValid.trans halike.prowlKeyValid,
          hvisit.prowlKey.trans halike.prowlKey,
          hvisit.downloadDoneScript.trans halike.downloadDoneScript⟩
      · use more ++ reports
        rw [hmore, hreports, List.flatMap_append, List.append_assoc]
        congr 2
        funext r
        apply halike.events

/-! ### What is drawn from a trace -/

/-- Whether a download that was answered is complete. -/
def Event.answer : Event → Option Bool
  | .download _ _ _ response => response.map fun r => completed (some r)
  | _ => none

/-- The file of a complete download. -/
def Event.completeFile : Event → Option Bytes
  | .download _ path _ response => if Trailermatic.completed response then some path else none
  | _ => none

/-- A notification: what it announces, and the key it is sent with. -/
def Event.notice : Event → Option (ProwlEvent × Option Str)
  | .notify event key _ => some (event, key)
  | _ => none

/-- A run of a script, and the file it is given. -/
def Event.scriptRun : Event → Option (Str × Bytes)
  | .script name path => some (name, path)
  | _ => none

/-- An entry made in the history. -/
def Event.recorded : Event → Option Str
  | .record url _ _ => some url
  | _ => none

/-- What is drawn from a report is drawn from its parts. -/
theorem filterMap_events {α : Type*} (f : Event → Option α) (s : Session) (r : Report) :
  (r.events s).filterMap f
    = (if completed r.response then
          (f (.record r.url r.count r.maxBucketItems)).toList
            ++ s.downloadDoneScript.toList.filterMap fun script => f (.script script r.path)
        else [])
      ++ ((if s.prowlKeyValid && r.response.isSome then
            (f (.notify (announcement (completed r.response)) s.prowlKey r.name)).toList
          else [])
        ++ (f (.download r.url r.path r.opened r.response)).toList)
  := by
  have hcons (e : Event) (l : List Event) : (e :: l).filterMap f = (f e).toList ++ l.filterMap f := by
    rw [List.filterMap_cons]
    cases f e with
    | none => rfl
    | some a => rfl
  simp only [Report.events, List.filterMap_append]
  congr 1
  · split_ifs
    · rw [hcons, List.filterMap_map]
      rfl
    · rfl
  · congr 1
    split_ifs
    · rw [hcons, List.filterMap_nil, List.append_nil]
    · rfl

theorem filterMap_notice_events (s : Session) (r : Report) :
  (r.events s).filterMap Event.notice
    = if s.prowlKeyValid then
        ((r.events s).filterMap Event.answer).map fun complete =>
          (announcement complete, s.prowlKey)
      else []
  := by
  rw [filterMap_events, filterMap_events]
  cases r.response with
  | none => simp [completed, Event.notice, Event.answer]
  | some response => simp [Event.notice, Event.answer]

theorem filterMap_scriptRun_events (s : Session) (r : Report) :
  (r.events s).filterMap Event.scriptRun
    = ((r.events s).filterMap Event.completeFile).flatMap fun path =>
        s.downloadDoneScript.toList.map fun script => (script, path)
  := by
  rw [filterMap_events, filterMap_events]
  simp only [Event.scriptRun, Event.completeFile]
  cases completed r.response with
  | false => simp
  | true => simp [List.map_eq_flatMap]

theorem filterMap_recorded_events (s : Session) (r : Report) :
  (r.events s).filterMap Event.recorded = (r.events s).filterMap Event.success
  := by
  rw [filterMap_events, filterMap_events]
  simp only [Event.recorded, Event.success]
  cases completed r.response with
  | false => simp
  | true => simp

/-- What is drawn from the reports is drawn from each of them. -/
theorem filterMap_reports {α β : Type*} {f : Event → Option α} {g : Event → Option β}
    {h : List β → List α} (s : Session) (happend : ∀ l l', h (l ++ l') = h l ++ h l')
    (hnil : h [] = [])
    (hone : ∀ r : Report, (r.events s).filterMap f = h ((r.events s).filterMap g))
    (reports : List Report) :
  (reports.flatMap (Report.events s)).filterMap f
    = h ((reports.flatMap (Report.events s)).filterMap g)
  := by
  induction reports with
  | nil => exact hnil.symm
  | cons r reports ih =>
    rw [List.flatMap_cons, List.filterMap_append, List.filterMap_append, happend, hone, ih]

/-- In every run each download that the server answered is announced exactly once, as complete
or failed, if the key counts as valid; each complete one is handed to the script exactly once,
if there is one, with its own file; and it is recorded exactly once.  All of this happens in
the order of the downloads. -/
theorem told_once {env : Env} {w w' : World} (hrun : Run env w w') (htrace : w.trace = []) :
  w'.trace.filterMap Event.notice
      = (if w.session.prowlKeyValid then
          (w'.trace.filterMap Event.answer).map fun complete =>
            (announcement complete, w.session.prowlKey)
        else [])
    ∧ w'.trace.filterMap Event.scriptRun
      = ((w'.trace.filterMap Event.completeFile).flatMap fun path =>
          w.session.downloadDoneScript.toList.map fun script => (script, path))
    ∧ w'.trace.filterMap Event.recorded = successes w'.trace
  := by
  obtain ⟨-, reports, hreports⟩ := run_reports hrun
  rw [hreports, htrace, List.append_nil]
  refine ⟨?_, ?_, ?_⟩
  · apply filterMap_reports (h := fun l => if w.session.prowlKeyValid then
      l.map fun complete => (announcement complete, w.session.prowlKey) else [])
    · intro l l'
      split_ifs
      · apply List.map_append
      · rfl
    · split_ifs
      · rfl
      · rfl
    · apply filterMap_notice_events
  · apply filterMap_reports (h := fun l => l.flatMap fun path =>
      w.session.downloadDoneScript.toList.map fun script => (script, path))
    · intro l l'
      apply List.flatMap_append
    · rfl
    · apply filterMap_scriptRun_events
  · apply filterMap_reports (h := id)
    · intro l l'
      rfl
    · rfl
    · apply filterMap_recorded_events

/-- The session of `newUrlVisited`, with a key and a script. -/
def telling : Session :=
  { Session.plain [] [oldUrl] with
    prowlKey := some newUrl
    prowlKeyValid := true
    downloadDoneScript := some oldUrl }

theorem told_once_telling :
  let w' := processURL (.plain [] fun _ => .plain 200) (.start telling fun _ => none)
    ⟨some newUrl, [newUrl]⟩ newUrl
  w'.trace.filterMap Event.notice = [(.newTrailer, some newUrl)]
    ∧ w'.trace.filterMap Event.scriptRun
      = ((w'.trace.filterMap Event.completeFile).flatMap fun path => [(oldUrl, path)])
  := by
  intro w'
  refine ⟨by decide, ?_⟩
  have hrun : Run (.plain [] fun _ => .plain 200) (.start telling fun _ => none) w' :=
    Relation.ReflTransGen.single (Step.visit _ newUrl)
  apply (told_once hrun rfl).2.1

end Trailermatic
