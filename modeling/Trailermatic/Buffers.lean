import Trailermatic.Visits

/-!
# What a visit writes into fixed buffers

The address a feed supplies is copied into buffers of a fixed size without a check of its
length, first to name the file and then, for as long as it stays in the history, to save
the state.
-/

namespace Trailermatic

theorem fits_copyTokens (tokens : List Bytes) (buf : Bytes) :
  ∀ c ∈ (copyTokens tokens buf).2, c.Fits
  := by
  induction tokens generalizing buf with
  | nil => simp [copyTokens]
  | cons p tokens ih =>
    rw [copyTokens]
    split_ifs with h
    · intro c hc
      rcases List.mem_cons.mp hc with rfl | hc
      · apply h
      · apply ih p c hc
    · apply ih buf

/-- Naming the file of a URL stays within the buffers exactly when the URL and a NUL fit
into `tmp`. -/
theorem fits_getFilename_iff (buf url folder : Bytes) :
  (∀ c ∈ (getFilename buf none url folder).copies, c.Fits) ↔ url.length < PATH_MAX
  := by
  have htmp : (⟨.tmp, url.length + 1⟩ : Copy).Fits ↔ url.length < PATH_MAX := Iff.rfl
  have hpath (path : Bytes) : (⟨.path, (path.take (PATH_MAX - 2)).length + 1⟩ : Copy).Fits := by
    have hsize : PATH_MAX - 2 + 1 ≤ Buffer.path.size := by decide
    apply Nat.le_trans (Nat.succ_le_succ (List.length_take_le _ _)) hsize
  rw [← htmp]
  simp only [getFilename, lastName]
  constructor
  · intro h
    apply h
    simp
  · intro h c hc
    rcases List.mem_append.mp hc with hc | hc
    · rcases List.mem_cons.mp hc with rfl | hc
      · apply h
      · apply fits_copyTokens _ _ c hc
    · obtain rfl := List.mem_singleton.mp hc
      apply hpath

/-- What saving puts into the line buffer is made of entries of the history. -/
theorem mem_copies_saveState {a : SaveAnswers} {downloads : List Str} {c : Copy}
    (h : c ∈ (saveState a downloads).copies) :
  ∃ entry ∈ downloads, c = ⟨.line, (saveLine entry).length + 1⟩
  := by
  rw [saveState] at h
  split_ifs at h
  · rw [saveEntries_copies] at h
    obtain ⟨entry, hentry, rfl⟩ := List.mem_map.mp h
    exact ⟨entry, List.mem_of_mem_take hentry, rfl⟩
  · cases h

theorem fits_saveLine_iff (entry : Str) :
  (⟨.line, (saveLine entry).length + 1⟩ : Copy).Fits ↔ entry.bytes.length < MAX_LINE_LEN
  := by
  simp only [Copy.Fits, Buffer.size, saveLine, List.length_append, List.length_singleton]
  omega

/-- The entries that stay in the history when one is added. -/
def Session.staying (s : Session) : List Str :=
  if 0 < s.maxBucketItems.toNat ∧ s.maxBucketItems.toNat ≤ s.downloads.length then
    s.downloads.dropLast
  else s.downloads

theorem addToBucket_eq_staying (s : Session) (url : Str) :
  addToBucket url s.downloads s.maxBucketItems.toNat = url :: s.staying
  := by
  apply Eq.trans (addToBucket_eq_push (Window.all s.downloads) url _)
  rw [Session.staying]
  split_ifs with h
  · apply Window.kept_push_of_le _ h.1 h.2
  · apply Window.kept_push_of_lt
    simp only [Window.all]
    omega

/-- The URL is short enough for the name buffer and, unless it is in the history, it and
the entries that stay with it are short enough for the line buffer. -/
structure ShortEnough (w : World) (url : Str) : Prop where
  name : url.bytes.length < PATH_MAX
  entries : url ∉ w.session.downloads →
    ∀ entry ∈ url :: w.session.staying, entry.bytes.length < MAX_LINE_LEN

theorem fits_of_shortEnough {env : Env} {w : World} {url : Str}
    (h : (isMatch env.pcre w.session.filters url.bytes).isSome = true →
      w.session.matchOnly = false → ShortEnough w url) (hcopies : w.copies = [])
    (item : FeedItem) :
  ∀ c ∈ (processURL env w item url).copies, c.Fits
  := by
  have hvisit : ∀ c ∈ visitCopies env w url, c.Fits := by
    rw [visitCopies]
    split_ifs with hwanted
    · rw [Bool.and_eq_true, Bool.not_eq_true'] at hwanted
      apply (fits_getFilename_iff _ _ _).mpr (h hwanted.1 hwanted.2).name
    · simp
  cases processURL_visited env w item url with
  | skipped _ _ _ _ hc =>
    rw [hc, hcopies]
    apply hvisit
  | failed _ _ _ _ _ _ _ hc =>
    rw [hc, hcopies]
    apply hvisit
  | completed hattempts _ hsession _ _ _ _ hc =>
    rw [hc, hcopies, hsession, addToBucket_eq_staying]
    intro c hmem
    rcases List.mem_append.mp hmem with hmem | hmem
    · apply hvisit c hmem
    · obtain ⟨entry, hentry, rfl⟩ := mem_copies_saveState hmem
      apply (fits_saveLine_iff entry).mpr
      apply (h hattempts.matched hattempts.matchOnly).entries hattempts.fresh entry hentry

/-- An environment in which the file of a URL does not exist and its download completes. -/
def Env.completing (pcre : Pcre) : Env where
  pcre := pcre
  libxml _ := none
  visit _ := { Visit.plain 200 with others := fun _ _ => none }
  fetch _ _ := none

theorem shortEnough_of_fits {pcre : Pcre} {w : World} {url : Str}
    (hmatched : (isMatch pcre w.session.filters url.bytes).isSome = true)
    (hmatchOnly : w.session.matchOnly = false) {item : FeedItem}
    (h : ∀ c ∈ (processURL (.completing pcre) w item url).copies, c.Fits) :
  ShortEnough w url
  := by
  constructor
  · have hcopies : visitCopies (.completing pcre) w url
        = (visitFile (.completing pcre) w url).copies := by
      apply if_pos
      rw [hmatchOnly, Bool.and_eq_true]
      exact ⟨hmatched, rfl⟩
    apply (fits_getFilename_iff _ _ _).mp
    intro c hc
    apply h c (visitCopies_subset _ _ _ _ _)
    rw [hcopies]
    apply hc
  · intro hfresh
    have hattempts : Attempts (.completing pcre) w url := ⟨hmatched, hmatchOnly, hfresh, rfl⟩
    obtain ⟨hsession, hcopies, _⟩ := processURL_of_completed hattempts
      (completed_visitDownload _ w url rfl) item
    have hdownloads := congrArg Session.downloads hsession
    simp only [addToBucket_eq_staying] at hdownloads
    rw [← hdownloads]
    apply (fits_saveState_iff _).mp
    intro c hc
    apply h c
    rw [hcopies]
    apply List.mem_append_right _ hc

/-- Whatever the world outside answers, the visit of a URL stays within the fixed buffers
exactly when the URL is not wanted or is short enough together with the history. -/
theorem visits_fit_iff (pcre : Pcre) (w : World) (url : Str) :
  (∀ env : Env, env.pcre = pcre → ∀ item,
      ∀ c ∈ (processURL env { w with copies := [] } item url).copies, c.Fits)
    ↔ ((isMatch pcre w.session.filters url.bytes).isSome = true →
      w.session.matchOnly = false → ShortEnough w url)
  := by
  constructor
  · intro h hmatched hmatchOnly
    have hshort := shortEnough_of_fits (w := { w with copies := [] }) hmatched hmatchOnly
      (h (.completing pcre) rfl ⟨none, [url]⟩)
    exact ⟨hshort.name, hshort.entries⟩
  · rintro h env rfl item
    apply fits_of_shortEnough _ rfl
    intro hmatched hmatchOnly
    have hshort := h hmatched hmatchOnly
    exact ⟨hshort.name, hshort.entries⟩

/-- A URL of 300 bytes, with no more than nine between two slashes behind the host. -/
def wideUrl : Str where
  bytes := text "http://a.example/" ++ (List.replicate 28 (text "mmmmmmmmm/")).flatten ++ text "mmm"
  ne_nil := by
    apply List.append_ne_nil_of_right_ne_nil
    decide
  nul_notMem := by decide +kernel

/-- A feed can deliver a URL whose line in the state file overruns the line buffer. -/
theorem wide_url_overruns :
  extractFeedItems [plainNode [wideUrl]] = [⟨Str.ofBytes (text "a"), [wideUrl]⟩]
    ∧ ∃ c ∈ (processURL (.plain [wideUrl] fun _ => .plain 200)
        (.start (.plain [] []) fun _ => none) ⟨none, [wideUrl]⟩ wideUrl).copies,
      c.buffer = .line ∧ ¬ c.Fits
  := by
  refine ⟨by decide +kernel, ⟨.line, 302⟩, ?_, rfl, by decide⟩
  decide +kernel

end Trailermatic
