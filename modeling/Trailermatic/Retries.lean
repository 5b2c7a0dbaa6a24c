import Trailermatic.Runs

/-!
# Failed downloads

A download that fails is not recorded, but its file stays when it could be opened.  So a
failed download is tried again exactly when it failed for want of a file.
-/

namespace Trailermatic

/-- Others create no files. -/
def Env.OnlyRemoves (env : Env) : Prop :=
  ∀ t disk p, disk p = none → (env.visit t).others disk p = none

/-- No file stands where a download would be saved. -/
def World.FolderEmpty (w : World) : Prop :=
  ∀ buf url, w.disk (getFilename buf none url w.session.downloadFolder.bytes).path = none

/-- Every download of `url` whose file was opened completed. -/
def Unopened (trace : List Event) (url : Str) : Prop :=
  ∀ path response, .download url path true response ∈ trace → completed response = true

/-! ### One visit -/

/-- A failed download leaves what `processRSSList` tests for the URL exactly when its file
could not be opened. -/
theorem failed_visit_iff {env : Env} {w : World} {url : Str} (h : Attempts env w url)
    (hfailed : completed (visitDownload env w url).1 = false) (item : FeedItem) :
  (url ∉ (processURL env w item url).session.downloads
      ∧ (fileExists (processURL env w item url).disk (visitFile env w url).path = true →
        fileExists (beginVisit env w).disk (visitFile env w url).path = true))
    ↔ (env.visit w.visits).download.fopen = false
  := by
  have hbefore : fileExists (beginVisit env w).disk (visitFile env w url).path = false := by
    simp [fileExists, h.absent]
  cases processURL_visited env w item url with
  | skipped hattempts => apply absurd h hattempts
  | completed _ hcompleted =>
    rw [hfailed] at hcompleted
    cases hcompleted
  | failed _ _ hsession hdisk =>
    rw [hsession, hdisk, hbefore]
    cases hopen : (env.visit w.visits).download.fopen with
    | false =>
      simp [visitDownload, downloadFile_of_not_opened hopen, hbefore, h.fresh]
    | true =>
      obtain ⟨content, hcontent⟩ := downloadFile_of_opened hopen url.bytes
        (getFilename_path_ne_nil (env.visit w.visits).buf none url.bytes
          w.session.downloadFolder.ne_nil)
        ((isMatch env.pcre w.session.filters url.bytes).bind (·.agent)) (beginVisit env w).disk
      have hexists : fileExists (visitDownload env w url).2 (visitFile env w url).path
          = true := by
        rw [fileExists, visitDownload, visitFile, hcontent, Function.update_self]
        rfl
      simp [hexists]

/-- A visit that attempts a download calls `downloadFile`. -/
theorem processURL_calls {env : Env} {w : World} {url : Str} (h : Attempts env w url)
    (item : FeedItem) :
  ∃ later, (processURL env w item url).trace = later ++ visitEvent env w url :: w.trace
  := by
  cases processURL_visited env w item url with
  | skipped hattempts => apply absurd h hattempts
  | failed _ _ _ _ notices _ htrace => exact ⟨notices, htrace⟩
  | completed _ _ _ _ notices _ htrace => exact ⟨_ :: notices, htrace⟩

/-! ### Runs -/

/-- The entries of the history are completed downloads, and every file but the state file
is one that a download opened or that was there at the start. -/
structure FilesInvariant (start : Disk) (w : World) : Prop where
  recorded : ∀ url ∈ w.session.downloads, url ∈ successes w.trace
  opened : ∀ p, p ≠ w.session.statefile.bytes → start p = none → w.disk p ≠ none →
    ∃ url response, .download url p true response ∈ w.trace

/-- A file that exists after a download was there before, or is the one it opened. -/
theorem visitDownload_file {env : Env} {w : World} {url : Str} {p : Bytes}
    (hp : (visitDownload env w url).2 p ≠ none) :
  (beginVisit env w).disk p ≠ none
    ∨ p = (visitFile env w url).path ∧ (env.visit w.visits).download.fopen = true
  := by
  cases hopen : (env.visit w.visits).download.fopen with
  | false =>
    left
    rw [visitDownload, downloadFile_of_not_opened hopen] at hp
    apply hp
  | true =>
    rcases eq_or_ne p (visitFile env w url).path with rfl | hne
    · right
      exact ⟨rfl, rfl⟩
    · left
      rw [visitDownload, downloadFile_of_ne _ _ hne] at hp
      apply hp

theorem FilesInvariant.visit {env : Env} {start : Disk} {w : World}
    (h : FilesInvariant start w) (hremoves : env.OnlyRemoves) (item : FeedItem) (url : Str) :
  FilesInvariant start (processURL env w item url)
  := by
  have hbefore (p : Bytes) (hp : p ≠ w.session.statefile.bytes) (hstart : start p = none)
      (hsome : (beginVisit env w).disk p ≠ none) :
      ∃ url response, .download url p true response ∈ w.trace := by
    apply h.opened p hp hstart
    intro hnone
    apply hsome (hremoves w.visits w.disk p hnone)
  have hdownload (p : Bytes) (hp : p ≠ w.session.statefile.bytes) (hstart : start p = none)
      (hsome : (visitDownload env w url).2 p ≠ none) :
      ∃ url' response, .download url' p true response ∈ visitEvent env w url :: w.trace := by
    rcases visitDownload_file hsome with hsome | ⟨rfl, hopen⟩
    · obtain ⟨url', response, hmem⟩ := hbefore p hp hstart hsome
      exact ⟨url', response, List.mem_cons_of_mem _ hmem⟩
    · use url, (visitDownload env w url).1
      rw [visitEvent, hopen]
      apply List.mem_cons_self
  constructor
  · rcases (processURL_visited env w item url).history with
      ⟨hsession, hsuccesses, _⟩ | ⟨_, hsession, hsuccesses, _⟩
    · rw [hsession, hsuccesses]
      apply h.recorded
    · rw [hsession, hsuccesses]
      intro entry hentry
      rcases mem_of_mem_addToBucket hentry with rfl | hold
      · apply List.mem_cons_self
      · apply List.mem_cons_of_mem _ (h.recorded entry hold)
  · rw [(processURL_visited env w item url).alike.1.statefile]
    intro p hp hstart hsome
    cases processURL_visited env w item url with
    | skipped _ _ hdisk htrace =>
      rw [hdisk] at hsome
      rw [htrace]
      apply hbefore p hp hstart hsome
    | failed _ _ _ hdisk notices _ htrace =>
      rw [hdisk] at hsome
      rw [htrace]
      obtain ⟨url', response, hmem⟩ := hdownload p hp hstart hsome
      exact ⟨url', response, List.mem_append_right _ hmem⟩
    | completed _ _ _ hdisk notices _ htrace =>
      rw [hdisk, Function.update_of_ne hp] at hsome
      rw [htrace]
      obtain ⟨url', response, hmem⟩ := hdownload p hp hstart hsome
      exact ⟨url', response, List.mem_cons_of_mem _ (List.mem_append_right _ hmem)⟩

theorem filesInvariant_run {env : Env} {w w' : World} (hrun : Run env w w')
    (hremoves : env.OnlyRemoves) (hempty : w.session.downloads = []) :
  FilesInvariant w.disk w'
  := by
  induction hrun with
  | refl =>
    constructor
    · simp [hempty]
    · intro p _ hnone hsome
      apply absurd hnone hsome
  | tail hrun hstep ih =>
    cases hstep with
    | visit item url => apply ih.visit hremoves
    | between => exact ⟨ih.recorded, ih.opened⟩

/-- A visit of a URL that matches, in a run that began with an empty history and an empty
folder and in which others created no files.  The URL was not downloaded, and no other
URL was saved to its file. -/
structure VisitedAgain (env : Env) (w w' : World) (url : Str) : Prop where
  run : Run env w w'
  history : w.session.downloads = []
  folder : w.FolderEmpty
  removes : env.OnlyRemoves
  matched : (isMatch env.pcre w'.session.filters url.bytes).isSome = true
  matchOnly : w.session.matchOnly = false
  failed : url ∉ successes w'.trace
  unshared : ∀ url' opened response,
    .download url' (visitFile env w' url).path opened response ∈ w'.trace → url' = url

theorem VisitedAgain.attempts {env : Env} {w w' : World} {url : Str}
    (h : VisitedAgain env w w' url) (hunopened : Unopened w'.trace url)
    (hstate : (visitFile env w' url).path ≠ w'.session.statefile.bytes) :
  Attempts env w' url
  := by
  have hfiles := filesInvariant_run h.run h.removes h.history
  constructor
  · apply h.matched
  · rw [(Run.alike h.run).matchOnly]
    apply h.matchOnly
  · intro hmem
    apply h.failed (hfiles.recorded url hmem)
  · apply h.removes
    by_contra hsome
    have hstart : w.disk (visitFile env w' url).path = none := by
      rw [visitFile, (Run.alike h.run).downloadFolder]
      apply h.folder
    obtain ⟨url', response, hmem⟩ := hfiles.opened _ hstate hstart hsome
    obtain rfl := h.unshared _ _ _ hmem
    apply h.failed
    rw [successes, List.mem_filterMap]
    use .download url' (visitFile env w' url').path true response, hmem
    rw [Event.success, if_pos (hunopened _ _ hmem)]

/-- A failed download leaves what is tested for its URL exactly when its file could not be
opened.  In a run where the failed downloads of a URL failed for want of a file, the next
visit of the URL downloads it again, unless it is saved to the state file. -/
theorem failed_download_retried (env : Env) (w : World) (url : Str) :
  (∀ item, Attempts env w url → completed (visitDownload env w url).1 = false →
      ((url ∉ (processURL env w item url).session.downloads
          ∧ (fileExists (processURL env w item url).disk (visitFile env w url).path = true →
            fileExists (beginVisit env w).disk (visitFile env w url).path = true))
        ↔ (env.visit w.visits).download.fopen = false))
    ∧ ∀ item w', VisitedAgain env w w' url → Unopened w'.trace url →
      (visitFile env w' url).path ≠ w'.session.statefile.bytes →
        ∃ later, (processURL env w' item url).trace
          = later ++ visitEvent env w' url :: w'.trace
  := by
  constructor
  · intro item h hfailed
    apply failed_visit_iff h hfailed
  · intro item w' hagain hunopened hstate
    apply processURL_calls (hagain.attempts hunopened hstate)

def clipUrl : Str :=
  ⟨text "http://a.example/d.m4v", by decide, by decide⟩

/-- The server has no `clipUrl`. -/
def notFound : Env :=
  .plain [clipUrl] fun _ => .plain 404

/-- The file for `clipUrl` can be opened from the second visit on. -/
def lateFile : Env :=
  .plain [clipUrl] fun t =>
    { Visit.plain 200 with download := { (Visit.plain 200).download with fopen := 0 < t } }

def clipStart : World :=
  .start (.plain [plainFeed] []) fun _ => none

theorem trace_lateFile :
  (mainLoop lateFile 1 true clipStart).trace = [.download clipUrl (text "/t/d.m4v") false none]
  := by
  decide

theorem trace_notFound :
  (mainLoop notFound 1 true clipStart).trace
    = [.download clipUrl (text "/t/d.m4v") true (some ⟨404, 2⟩)]
  := by
  decide

/-- With one URL no other is saved to its file. -/
theorem visitedAgain_clip {responses : ℕ → Visit} (hothers : ∀ t, (responses t).others = id)
    (w' : World) (hrun : Run (.plain [clipUrl] responses) clipStart w')
    (hfilters : w'.session.filters = clipStart.session.filters)
    {path : Bytes} {opened : Bool} {response : Option HttpResponse}
    (htrace : w'.trace = [.download clipUrl path opened response])
    (hfailed : completed response = false) :
  VisitedAgain (.plain [clipUrl] responses) clipStart w' clipUrl
  := by
  constructor
  · apply hrun
  · rfl
  · intro _ _
    rfl
  · intro t disk p hnone
    apply (congrFun (congrFun (hothers t) disk) p).trans hnone
  · have hmatch : (isMatch .plain clipStart.session.filters clipUrl.bytes).isSome = true := by
      decide
    rw [hfilters]
    apply hmatch
  · rfl
  · simp [htrace, successes, Event.success, hfailed]
  · intro url' _ _ hmem
    rw [htrace, List.mem_singleton] at hmem
    cases hmem
    rfl

theorem failed_download_retried_clip :
  ∃ later, (processURL lateFile (mainLoop lateFile 1 true clipStart) ⟨none, [clipUrl]⟩
      clipUrl).trace
    = later ++ visitEvent lateFile (mainLoop lateFile 1 true clipStart) clipUrl
      :: (mainLoop lateFile 1 true clipStart).trace
  := by
  apply (failed_download_retried lateFile clipStart clipUrl).2
  · apply visitedAgain_clip (fun _ => rfl) _ (run_mainLoop _ _ _ _) rfl trace_lateFile rfl
  · intro _ _ hmem
    rw [trace_lateFile, List.mem_singleton] at hmem
    cases hmem
  · decide

/-- After a download that was answered with 404 the second pass skips the URL, whose file
the first pass created. -/
theorem not_found_not_retried :
  fileExists clipStart.disk (visitFile notFound clipStart clipUrl).path = false
    ∧ fileExists (mainLoop notFound 1 true clipStart).disk
      (visitFile notFound clipStart clipUrl).path = true
    ∧ VisitedAgain notFound clipStart (mainLoop notFound 1 true clipStart) clipUrl
    ∧ (mainLoop notFound 2 true clipStart).trace = (mainLoop notFound 1 true clipStart).trace
  := by
  refine ⟨rfl, by decide, ?_, by decide⟩
  apply visitedAgain_clip (fun _ => rfl) _ (run_mainLoop _ _ _ _) rfl trace_notFound rfl

end Trailermatic
