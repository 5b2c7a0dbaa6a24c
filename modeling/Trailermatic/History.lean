import Trailermatic.Runs

/-!
# The history in every run

The history of a run is a window on the log of all completed downloads: it is this log
cut at a capacity that was used, and the state file holds it.
-/

namespace Trailermatic

/-- Nothing is refused while the state is saved, and others leave the state file alone. -/
structure Env.Saves (env : Env) (statefile : Str) : Prop where
  granting : ∀ t, (env.visit t).save = .granting
  leave : ∀ t disk, (env.visit t).others disk statefile.bytes = disk statefile.bytes

/-- What holds of the history of a run that began with the entries `start`. -/
structure HistoryInvariant (start : List Str) (w : World) : Prop where
  recent : w.session.downloads <+: successes w.trace ++ start
  nodup : w.session.downloads.Nodup
  filled : (successes w.trace ++ start).length ≤ w.session.downloads.length
    ∨ ∃ c ∈ capacities w.trace, 0 < c ∧ c ≤ w.session.downloads.length
  newest : ∀ url, (successes w.trace).head? = some url → w.session.downloads.head? = some url
  changed : w.session.bucketChanged = true ↔ successes w.trace ≠ []
  saved : successes w.trace ≠ [] →
    w.disk w.session.statefile.bytes = some (stateFile w.session.downloads)

/-- The history as a window on the log of completed downloads. -/
def HistoryInvariant.window {start : List Str} {w : World} (h : HistoryInvariant start w) :
    Window Str :=
  ⟨successes w.trace ++ start, w.session.downloads, h.recent⟩

/-- An entry is recorded by pushing it into the window. -/
theorem HistoryInvariant.record {start : List Str} {w w' : World} {url : Str}
    (h : HistoryInvariant start w) (hfresh : url ∉ w.session.downloads)
    (hsession : w'.session = { w.session with
      downloads := addToBucket url w.session.downloads w.session.maxBucketItems.toNat
      bucketChanged := true })
    (hsuccesses : successes w'.trace = url :: successes w.trace)
    (hcapacities : capacities w'.trace
      = w.session.maxBucketItems.toNat :: capacities w.trace)
    (hsaved : w'.disk w'.session.statefile.bytes = some (stateFile w'.session.downloads)) :
  HistoryInvariant start w'
  := by
  have hpush : w'.session.downloads
      = (h.window.push w.session.maxBucketItems.toNat url).kept := by
    rw [hsession]
    apply addToBucket_eq_push h.window
  have hlog : successes w'.trace ++ start
      = (h.window.push w.session.maxBucketItems.toNat url).log := by
    rw [hsuccesses]
    rfl
  constructor
  · rw [hpush, hlog]
    apply Window.kept_prefix
  · rw [hpush]
    apply Window.nodup_kept_push h.nodup hfresh
  · rw [hpush, hlog, hcapacities]
    apply Window.Filled.push (w := h.window) h.filled
  · intro newest hnewest
    obtain ⟨rest, hrest, _⟩ := h.window.kept_push w.session.maxBucketItems.toNat url
    rw [hsuccesses] at hnewest
    rw [hpush, hrest]
    apply hnewest
  · simp [hsession, hsuccesses]
  · intro _
    apply hsaved

/-- What happens to neither the history nor the log of completed downloads, and leaves
the state file, keeps the invariant. -/
theorem HistoryInvariant.keep {start : List Str} {w w' : World} (h : HistoryInvariant start w)
    (hdownloads : w'.session.downloads = w.session.downloads)
    (hchanged : w'.session.bucketChanged = w.session.bucketChanged)
    (hsuccesses : successes w'.trace = successes w.trace)
    (hcapacities : capacities w'.trace = capacities w.trace)
    (hstatefile : w.disk w.session.statefile.bytes ≠ none →
      w'.disk w'.session.statefile.bytes = w.disk w.session.statefile.bytes) :
  HistoryInvariant start w'
  := by
  constructor
  · rw [hdownloads, hsuccesses]
    apply h.recent
  · rw [hdownloads]
    apply h.nodup
  · rw [hdownloads, hsuccesses, hcapacities]
    apply h.filled
  · rw [hdownloads, hsuccesses]
    apply h.newest
  · rw [hchanged, hsuccesses]
    apply h.changed
  · rw [hdownloads, hsuccesses]
    intro hsome
    have hsaved := h.saved hsome
    rw [hstatefile, hsaved]
    rw [hsaved]
    apply Option.some_ne_none

theorem HistoryInvariant.step {env : Env} {start : List Str} {w w' : World}
    (h : HistoryInvariant start w) (hstep : Step env w w')
    (hsaves : env.Saves w.session.statefile) :
  HistoryInvariant start w'
  := by
  cases hstep with
  | between maxBucketItems filters fetches =>
    apply h.keep
    · rfl
    · rfl
    · rfl
    · rfl
    · intro _
      rfl
  | visit item url =>
    have hleave : (beginVisit env w).disk w.session.statefile.bytes
        = w.disk w.session.statefile.bytes := hsaves.leave w.visits w.disk
    rcases (processURL_visited env w item url).history with
      ⟨hsession, hsuccesses, hcapacities, hdisk⟩
      | ⟨hattempts, hsession, hsuccesses, hcapacities, file, hdisk⟩
    · apply h.keep (by rw [hsession]) (by rw [hsession]) hsuccesses hcapacities
      intro hsome
      rw [hsession, hdisk _ (hleave ▸ hsome), hleave]
    · apply h.record hattempts.fresh hsession hsuccesses hcapacities
      rw [hsaves.granting, (runSteps_saveState _ file).2] at hdisk
      rw [← hdisk, hsession]

/-- In every run that begins with entries that are not duplicate, where saving the
history is not refused, the invariant of the history holds wherever the run is. -/
theorem history_run {env : Env} {w w' : World} (hrun : Run env w w')
    (hsaves : env.Saves w.session.statefile) (hnodup : w.session.downloads.Nodup)
    (htrace : w.trace = []) (hchanged : w.session.bucketChanged = false) :
  HistoryInvariant w.session.downloads w'
  := by
  induction hrun with
  | refl =>
    constructor
    · simp [htrace, successes]
    · apply hnodup
    · simp [htrace, successes]
    · simp [htrace, successes]
    · simp [htrace, successes, hchanged]
    · simp [htrace, successes]
  | tail hrun hstep ih =>
    apply ih.step hstep
    rw [(Run.alike hrun).statefile]
    apply hsaves

def oldUrl : Str :=
  ⟨text "http://a.example/b.m4v", by decide, by decide⟩

def newUrl : Str :=
  ⟨text "http://a.example/c.m4v", by decide, by decide⟩

/-- The world in which `newUrl` has been downloaded, recorded and saved. -/
def newUrlVisited : World :=
  processURL (.plain [] fun _ => .plain 200) (.start (.plain [] [oldUrl]) fun _ => none)
    ⟨some newUrl, [newUrl]⟩ newUrl

theorem history_run_newUrl :
  newUrlVisited.session.downloads = [newUrl, oldUrl] ∧ HistoryInvariant [oldUrl] newUrlVisited
  := by
  refine ⟨by decide, ?_⟩
  have hrun : Run (.plain [] fun _ => .plain 200)
      (.start (.plain [] [oldUrl]) fun _ => none) newUrlVisited :=
    Relation.ReflTransGen.single (Step.visit _ newUrl)
  apply history_run hrun
  · exact ⟨fun _ => rfl, fun _ _ => rfl⟩
  · decide
  · rfl
  · rfl

end Trailermatic
