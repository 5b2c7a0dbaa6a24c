import Trailermatic.Daemon

/-!
# What a visit does

A visit of a URL skips it, tries a download that does not complete, or completes one.
`processURL_visited` says what each of the three leaves; what holds of every visit is
proved from it by cases.
-/

namespace Trailermatic

/-- The file a download of `url` is saved to. -/
def visitFile (env : Env) (w : World) (url : Str) : Filename :=
  getFilename (env.visit w.visits).buf none url.bytes w.session.downloadFolder.bytes

/-- The visit of `url` calls `downloadFile`. -/
structure Attempts (env : Env) (w : World) (url : Str) : Prop where
  matched : (isMatch env.pcre w.session.filters url.bytes).isSome = true
  matchOnly : w.session.matchOnly = false
  fresh : url ∉ w.session.downloads
  absent : (beginVisit env w).disk (visitFile env w url).path = none

/-- The answer to a download of `url`, and the files it leaves. -/
def visitDownload (env : Env) (w : World) (url : Str) : Option HttpResponse × Disk :=
  downloadFile (env.visit w.visits).download url.bytes (visitFile env w url).path
    ((isMatch env.pcre w.session.filters url.bytes).bind (·.agent)) (beginVisit env w).disk

/-- A response with status 200. -/
def completed (response : Option HttpResponse) : Bool :=
  match response with
  | some r => r.responseCode == 200
  | none => false

/-- Notifications and runs of the script. -/
def Event.isNotice : Event → Bool
  | .notify .. => true
  | .script .. => true
  | _ => false

/-- The download of a visit, as an event. -/
def visitEvent (env : Env) (w : World) (url : Str) : Event :=
  .download url (visitFile env w url).path (env.visit w.visits).download.fopen
    (visitDownload env w url).1

/-- The writes into fixed buffers that the visit makes to name the file. -/
def visitCopies (env : Env) (w : World) (url : Str) : List Copy :=
  if (isMatch env.pcre w.session.filters url.bytes).isSome && !w.session.matchOnly then
    (visitFile env w url).copies
  else []

/-- What the visit of `url` in the world `w` leaves. -/
inductive Visited (env : Env) (w : World) (url : Str) (w' : World) : Prop where
  | skipped (attempts : ¬ Attempts env w url) (session : w'.session = w.session)
      (disk : w'.disk = (beginVisit env w).disk) (trace : w'.trace = w.trace)
      (copies : w'.copies = w.copies ++ visitCopies env w url)
  | failed (attempts : Attempts env w url)
      (response : completed (visitDownload env w url).1 = false)
      (session : w'.session = w.session) (disk : w'.disk = (visitDownload env w url).2)
      (notices : List Event) (only : ∀ e ∈ notices, e.isNotice = true)
      (trace : w'.trace = notices ++ visitEvent env w url :: w.trace)
      (copies : w'.copies = w.copies ++ visitCopies env w url)
  | completed (attempts : Attempts env w url)
      (response : completed (visitDownload env w url).1 = true)
      (session : w'.session = { w.session with
        downloads := addToBucket url w.session.downloads w.session.maxBucketItems.toNat
        bucketChanged := true })
      (disk : w'.disk = Function.update (visitDownload env w url).2 w.session.statefile.bytes
        (runSteps (saveState (env.visit w.visits).save w'.session.downloads).steps
          ((visitDownload env w url).2 w.session.statefile.bytes)))
      (notices : List Event) (only : ∀ e ∈ notices, e.isNotice = true)
      (trace : w'.trace = .record url w.session.downloads.length w.session.maxBucketItems.toNat
        :: (notices ++ visitEvent env w url :: w.trace))
      (copies : w'.copies = w.copies ++ visitCopies env w url
        ++ (saveState (env.visit w.visits).save w'.session.downloads).copies)

/-- A visit that calls `downloadFile` is an attempt at the download. -/
theorem processURL_of_attempts {env : Env} {w : World} {url : Str} (h : Attempts env w url)
    (item : FeedItem) :
  ∃ w₀ : World, w₀.session = w.session ∧ w₀.trace = w.trace ∧ w₀.disk = (beginVisit env w).disk
    ∧ w₀.copies = w.copies ++ visitCopies env w url
    ∧ processURL env w item url
      = attempt (env.visit w.visits) w₀ item url (visitFile env w url).path
          ((isMatch env.pcre w.session.filters url.bytes).bind (·.agent))
  := by
  obtain ⟨filter, hfilter⟩ := Option.isSome_iff_exists.mp h.matched
  have hmatch : isMatch env.pcre (beginVisit env w).session.filters url.bytes = some filter :=
    hfilter
  have hnew : hasBeenDownloaded (beginVisit env w).session.downloads url = false := by
    rw [← Bool.not_eq_true, hasBeenDownloaded_iff]
    apply h.fresh
  have habsent : fileExists (beginVisit env w).disk (visitFile env w url).path = false := by
    simp [fileExists, h.absent]
  use { beginVisit env w with copies := w.copies ++ (visitFile env w url).copies }
  have hcopies : visitCopies env w url = (visitFile env w url).copies := by
    rw [visitCopies, h.matched, h.matchOnly]
    rfl
  refine ⟨rfl, rfl, rfl, by rw [hcopies], ?_⟩
  simp only [processURL]
  rw [hmatch]
  simp only
  rw [if_neg (by simp [beginVisit, h.matchOnly]), if_pos, hfilter]
  · rfl
  · simp only [Bool.and_eq_true, Bool.not_eq_true']
    exact ⟨hnew, habsent⟩

/-- A visit that does not call `downloadFile` changes nothing that is seen outside. -/
theorem processURL_of_not_attempts {env : Env} {w : World} {url : Str}
    (h : ¬ Attempts env w url) (item : FeedItem) :
  (processURL env w item url).session = w.session
    ∧ (processURL env w item url).disk = (beginVisit env w).disk
    ∧ (processURL env w item url).trace = w.trace
    ∧ (processURL env w item url).copies = w.copies ++ visitCopies env w url
  := by
  simp only [processURL]
  cases hmatch : isMatch env.pcre (beginVisit env w).session.filters url.bytes with
  | none =>
    have hcopies : visitCopies env w url = [] := by
      apply if_neg
      rw [show isMatch env.pcre w.session.filters url.bytes = none from hmatch]
      simp
    refine ⟨rfl, rfl, rfl, ?_⟩
    rw [hcopies, List.append_nil]
    rfl
  | some filter =>
    have hsome : isMatch env.pcre w.session.filters url.bytes = some filter := hmatch
    simp only
    split_ifs with honly htest
    · have hcopies : visitCopies env w url = [] := by
        apply if_neg
        rw [show w.session.matchOnly = true from honly]
        simp
      refine ⟨rfl, rfl, rfl, ?_⟩
      rw [hcopies, List.append_nil]
      rfl
    · apply absurd _ h
      simp only [Bool.and_eq_true, Bool.not_eq_true'] at htest
      obtain ⟨hnew, habsent⟩ := htest
      constructor
      · exact Option.isSome_iff_exists.mpr ⟨filter, hmatch⟩
      · simpa [beginVisit] using honly
      · intro hmem
        rw [← Bool.not_eq_true, hasBeenDownloaded_iff] at hnew
        apply hnew hmem
      · have hpath : fileExists (beginVisit env w).disk (visitFile env w url).path = false :=
          habsent
        simpa [fileExists] using hpath
    · have hcopies : visitCopies env w url = (visitFile env w url).copies := by
        apply if_pos
        rw [hsome, show w.session.matchOnly = false by simpa [beginVisit] using honly]
        rfl
      refine ⟨rfl, rfl, rfl, ?_⟩
      rw [hcopies]
      rfl

/-- An attempt that does not complete leaves the session as it was. -/
theorem attempt_of_failed (v : Visit) (w : World) (item : FeedItem) (url : Str) (path : Bytes)
    (agent : Option Bytes)
    (h : completed (downloadFile v.download url.bytes path agent w.disk).1 = false) :
  (attempt v w item url path agent).session = w.session
    ∧ (attempt v w item url path agent).disk
      = (downloadFile v.download url.bytes path agent w.disk).2
    ∧ (attempt v w item url path agent).copies = w.copies
    ∧ ∃ notices : List Event, (∀ e ∈ notices, e.isNotice = true)
      ∧ (attempt v w item url path agent).trace
        = notices ++ .download url path v.download.fopen
            (downloadFile v.download url.bytes path agent w.disk).1 :: w.trace
  := by
  simp only [attempt]
  cases hr : (downloadFile v.download url.bytes path agent w.disk).1 with
  | none => exact ⟨rfl, rfl, rfl, [], by simp, rfl⟩
  | some r =>
    rw [hr, completed] at h
    simp only
    rw [if_neg (by simpa using h), reportFailure]
    split_ifs
    · exact ⟨rfl, rfl, rfl, [_], by simp [Event.isNotice], rfl⟩
    · exact ⟨rfl, rfl, rfl, [], by simp, rfl⟩

/-- An attempt that completes is recorded. -/
theorem attempt_of_completed (v : Visit) (w : World) (item : FeedItem) (url : Str)
    (path : Bytes) (agent : Option Bytes)
    (h : completed (downloadFile v.download url.bytes path agent w.disk).1 = true) :
  attempt v w item url path agent
    = recordDownload v.save { w with
        disk := (downloadFile v.download url.bytes path agent w.disk).2
        trace := .download url path v.download.fopen
          (downloadFile v.download url.bytes path agent w.disk).1 :: w.trace } item url path
  := by
  simp only [attempt]
  cases hr : (downloadFile v.download url.bytes path agent w.disk).1 with
  | none =>
    rw [hr] at h
    cases h
  | some r =>
    rw [hr, completed] at h
    simp only
    rw [if_pos (by simpa using h)]

theorem recordDownload_trace (save : SaveAnswers) (w : World) (item : FeedItem) (url : Str)
    (path : Bytes) :
  ∃ notices : List Event, (∀ e ∈ notices, e.isNotice = true)
    ∧ (recordDownload save w item url path).trace
      = .record url w.session.downloads.length w.session.maxBucketItems.toNat
        :: (notices ++ w.trace)
  := by
  simp only [recordDownload, ← List.append_assoc]
  refine ⟨_, ?_, rfl⟩
  intro e he
  rcases List.mem_append.mp he with he | he
  · split at he
    · obtain rfl := List.mem_singleton.mp he
      rfl
    · cases he
  · split_ifs at he
    · obtain rfl := List.mem_singleton.mp he
      rfl
    · cases he

/-- What the visit of a URL leaves. -/
theorem processURL_visited (env : Env) (w : World) (item : FeedItem) (url : Str) :
  Visited env w url (processURL env w item url)
  := by
  by_cases h : Attempts env w url
  · obtain ⟨w₀, hsession, htrace, hdisk, hcopies, hvisit⟩ := processURL_of_attempts h item
    have hdownload : downloadFile (env.visit w.visits).download url.bytes
        (visitFile env w url).path ((isMatch env.pcre w.session.filters url.bytes).bind (·.agent))
        w₀.disk = visitDownload env w url := by rw [hdisk, visitDownload]
    cases hr : completed (visitDownload env w url).1 with
    | false =>
      obtain ⟨hs, hd, hc, notices, honly, ht⟩ := attempt_of_failed (env.visit w.visits) w₀ item url
        (visitFile env w url).path _ (hdownload ▸ hr)
      rw [← hvisit] at hs hd hc ht
      rw [hdownload] at hd ht
      apply Visited.failed h hr (hs.trans hsession) hd notices honly _ (hc.trans hcopies)
      rw [ht, htrace]
      rfl
    | true =>
      have hrecord := attempt_of_completed (env.visit w.visits) w₀ item url
        (visitFile env w url).path _ (hdownload ▸ hr)
      rw [← hvisit, hdownload] at hrecord
      rw [hrecord]
      obtain ⟨notices, honly, ht⟩ := recordDownload_trace (env.visit w.visits).save
        { w₀ with
          disk := (visitDownload env w url).2
          trace := .download url (visitFile env w url).path (env.visit w.visits).download.fopen
            (visitDownload env w url).1 :: w₀.trace }
        item url (visitFile env w url).path
      apply Visited.completed h hr _ _ notices honly
      · rw [ht, htrace, hsession]
        rfl
      · simp only [recordDownload, hcopies]
      · simp only [recordDownload, hsession]
      · simp only [recordDownload, hsession]
  · obtain ⟨hsession, hdisk, htrace, hcopies⟩ := processURL_of_not_attempts h item
    apply Visited.skipped h hsession hdisk htrace hcopies

/-- The events that a visit adds: notices, an entry of the history and its own download. -/
theorem Visited.exists_added {env : Env} {w w' : World} {url : Str} (h : Visited env w url w') :
  ∃ added, w'.trace = added ++ w.trace ∧ ∀ e ∈ added, e.isNotice = true
    ∨ (∃ count maxBucketItems, e = .record url count maxBucketItems)
    ∨ (Attempts env w url ∧ e = visitEvent env w url)
  := by
  have hdownload (hattempts : Attempts env w url) {notices : List Event}
      (honly : ∀ e ∈ notices, e.isNotice = true) : ∀ e ∈ notices ++ [visitEvent env w url],
      e.isNotice = true ∨ (∃ count maxBucketItems, e = .record url count maxBucketItems)
        ∨ (Attempts env w url ∧ e = visitEvent env w url) := by
    intro e he
    rcases List.mem_append.mp he with he | he
    · left
      apply honly e he
    · right; right
      exact ⟨hattempts, List.mem_singleton.mp he⟩
  cases h with
  | skipped _ _ _ htrace => exact ⟨[], htrace, List.forall_mem_nil _⟩
  | failed hattempts _ _ _ notices honly htrace =>
    use notices ++ [visitEvent env w url]
    rw [htrace, List.append_assoc]
    exact ⟨rfl, hdownload hattempts honly⟩
  | completed hattempts _ _ _ notices honly htrace =>
    use .record url w.session.downloads.length w.session.maxBucketItems.toNat
      :: (notices ++ [visitEvent env w url])
    rw [htrace, List.cons_append, List.append_assoc, List.forall_mem_cons]
    exact ⟨rfl, Or.inr (Or.inl ⟨_, _, rfl⟩), hdownload hattempts honly⟩

/-- The download of a visit at which nothing is refused completes. -/
theorem completed_visitDownload (env : Env) (w : World) (url : Str)
    (h : (env.visit w.visits).download = (Visit.plain 200).download) :
  completed (visitDownload env w url).1 = true
  := by
  have hpath : (visitFile env w url).path ≠ [] :=
    getFilename_path_ne_nil _ none url.bytes w.session.downloadFolder.ne_nil
  simp [visitDownload, h, downloadFile, Visit.plain, hpath, completed]

/-- A visit whose download completes records it. -/
theorem processURL_of_completed {env : Env} {w : World} {url : Str}
    (hattempts : Attempts env w url) (hresponse : completed (visitDownload env w url).1 = true)
    (item : FeedItem) :
  let w' := processURL env w item url
  w'.session = { w.session with
      downloads := addToBucket url w.session.downloads w.session.maxBucketItems.toNat
      bucketChanged := true }
    ∧ w'.copies = w.copies ++ visitCopies env w url
      ++ (saveState (env.visit w.visits).save w'.session.downloads).copies
    ∧ ∃ notices : List Event, (∀ e ∈ notices, e.isNotice = true)
      ∧ w'.trace = .record url w.session.downloads.length w.session.maxBucketItems.toNat
        :: (notices ++ visitEvent env w url :: w.trace)
  := by
  cases processURL_visited env w item url with
  | skipped hnot => apply absurd hattempts hnot
  | failed _ hfailed =>
    rw [hresponse] at hfailed
    cases hfailed
  | completed _ _ hsession _ notices honly htrace hcopies =>
    exact ⟨hsession, hcopies, notices, honly, htrace⟩

/-- The writes that name the file are among those of the visit. -/
theorem visitCopies_subset (env : Env) (w : World) (item : FeedItem) (url : Str) :
  visitCopies env w url ⊆ (processURL env w item url).copies
  := by
  cases processURL_visited env w item url with
  | skipped _ _ _ _ hcopies => simp [hcopies]
  | failed _ _ _ _ _ _ _ hcopies => simp [hcopies]
  | completed _ _ _ _ _ _ _ hcopies => simp [hcopies]

end Trailermatic
