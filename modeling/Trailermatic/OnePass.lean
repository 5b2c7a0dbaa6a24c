import Trailermatic.Listing

/-!
# One pass over the items of a feed

With an empty history that has room for all URLs, and when every download succeeds,
`processRSSList` downloads each wanted URL that is the first one of its file name, if the
file is not there already.  `processRSSList_calls` is the conclusion.
-/

namespace Trailermatic

/-! ### Calls of `downloadFile` -/

/-- The URL that `downloadFile` was called for. -/
def Event.called : Event → Option Str
  | .download url .. => some url
  | _ => none

/-- The URLs that `downloadFile` was called for, newest first. -/
def calls (trace : List Event) : List Str :=
  trace.filterMap Event.called

theorem calls_append_notices {notices : List Event} (h : ∀ e ∈ notices, e.isNotice = true)
    (trace : List Event) :
  calls (notices ++ trace) = calls trace
  := filterMap_append_notices (fun _ _ _ => rfl) (fun _ _ => rfl) h trace

/-- A visit calls `downloadFile` once, or not at all. -/
theorem calls_processURL (env : Env) (w : World) (item : FeedItem) (url : Str) :
  (Attempts env w url ∧ calls (processURL env w item url).trace = url :: calls w.trace)
    ∨ (¬ Attempts env w url ∧ calls (processURL env w item url).trace = calls w.trace)
  := by
  cases processURL_visited env w item url with
  | skipped hattempts _ _ htrace =>
    right
    rw [htrace]
    exact ⟨hattempts, rfl⟩
  | failed hattempts _ _ _ notices honly htrace =>
    left
    rw [htrace, calls_append_notices honly]
    exact ⟨hattempts, rfl⟩
  | completed hattempts _ _ _ notices honly htrace =>
    left
    use hattempts
    rw [htrace]
    apply calls_append_notices honly (visitEvent env w url :: w.trace)

/-! ### The first element of a kind -/

section Leads

variable {α β : Type*}

/-- Some occurrence of `x` in `l` is the first element with its key. -/
def Leads (key : α → β) (l : List α) (x : α) : Prop :=
  ∃ before after, l = before ++ x :: after ∧ ∀ y ∈ before, key y ≠ key x

theorem leads_append_singleton {key : α → β} {l : List α} {x y : α} :
  Leads key (l ++ [y]) x ↔ Leads key l x ∨ (x = y ∧ ∀ z ∈ l, key z ≠ key x)
  := by
  constructor
  · rintro ⟨before, after, hl, hbefore⟩
    rcases List.eq_nil_or_concat after with rfl | ⟨after, z, rfl⟩
    · obtain ⟨rfl, hy⟩ := List.append_inj' hl rfl
      right
      exact ⟨(List.cons.inj hy).1.symm, hbefore⟩
    · left
      rw [List.concat_eq_append, ← List.cons_append, ← List.append_assoc] at hl
      exact ⟨before, after, (List.append_inj' hl rfl).1, hbefore⟩
  · rintro (⟨before, after, rfl, hbefore⟩ | ⟨rfl, hl⟩)
    · exact ⟨before, after ++ [y], by simp, hbefore⟩
    · exact ⟨l, [], rfl, hl⟩

theorem Leads.mem {key : α → β} {l : List α} {x : α} (h : Leads key l x) :
  x ∈ l
  := by
  obtain ⟨before, after, rfl, -⟩ := h
  simp

end Leads

/-! ### The files of URLs -/

/-- A URL whose last part is the name of a file. -/
structure Names (url : Str) : Prop where
  short : url.bytes.length < PATH_MAX
  named : ∃ b ∈ url.bytes, b ≠ slash

/-- The file that a URL is saved to. -/
def Session.file (s : Session) (url : Str) : Bytes :=
  (getFilename [] none url.bytes s.downloadFolder.bytes).path

theorem Names.exists_lastPart {url : Str} (h : Names url) :
  ∃ seg, LastPart url.bytes seg
  := by
  obtain ⟨b, hb, hslash⟩ := h.named
  exact Tokens.exists_last (· == slash) ⟨b, hb, beq_eq_false_iff_ne.mpr hslash⟩

/-- What is left in the buffer of names does not matter. -/
theorem Names.getFilename_path {url : Str} (h : Names url) (buf folder : Bytes) :
  (getFilename buf none url.bytes folder).path = (getFilename [] none url.bytes folder).path
  := by
  obtain ⟨seg, hseg⟩ := h.exists_lastPart
  rw [hseg.getFilename_path h.short, hseg.getFilename_path h.short]

/-- Nothing is refused and every transfer succeeds with the code 200. -/
structure DownloadAnswers.Grants (a : DownloadAnswers) : Prop where
  fopen : a.fopen = true
  curlInit : a.curlInit = true
  result : ∀ url agent, (a.perform url agent).result = 0
  responseCode : ∀ url agent, (a.perform url agent).responseCode = 200

theorem completed_of_grants {env : Env} {w : World} {url : Str}
    (h : (env.visit w.visits).download.Grants) :
  completed (visitDownload env w url).1 = true
  := by
  have hpath : (visitFile env w url).path ≠ [] :=
    getFilename_path_ne_nil _ none url.bytes w.session.downloadFolder.ne_nil
  simp [visitDownload, downloadFile, hpath, h.fopen, h.curlInit, h.result, h.responseCode,
    completed]

/-! ### The pass -/

/-- What is so when the URLs `urls` have been visited: the history holds the URLs that were
called, which are the first ones of their files, and these files exist. -/
structure Passed (s : Session) (pcre : Pcre) (disk : Disk) (urls : List Str) (w : World) : Prop
    extends Setting s s.maxBucketItems.toNat w where
  statefile : w.session.statefile = s.statefile
  kept : w.session.downloads = calls w.trace
  nodup : (calls w.trace).Nodup
  wanted : calls w.trace ⊆ s.wanted pcre urls
  files : ∀ path ≠ s.statefile.bytes,
    w.disk path = none ↔ disk path = none ∧ ∀ u ∈ s.wanted pcre urls, s.file u ≠ path
  called : ∀ url, s.file url ≠ s.statefile.bytes → (url ∈ calls w.trace
    ↔ disk (s.file url) = none ∧ Leads s.file (s.wanted pcre urls) url)

/-- The URLs that a filter of the session matches. -/
def Session.matching (s : Session) (pcre : Pcre) (urls : List Str) : List Str :=
  urls.filter fun url => (isMatch pcre s.filters url.bytes).isSome

/-- All of them are wanted unless matches are only shown. -/
theorem Session.wanted_eq_matching (s : Session) (honly : s.matchOnly = false) (pcre : Pcre)
    (urls : List Str) :
  s.wanted pcre urls = s.matching pcre urls
  := by
  rw [wanted, honly]
  rfl

theorem Session.wanted_singleton (s : Session) (pcre : Pcre) (url : Str) :
  s.wanted pcre [url] = [] ∨ s.wanted pcre [url] = [url]
  := by
  rw [wanted]
  split_ifs
  · left
    rfl
  · rw [List.filter_singleton]
    cases (isMatch pcre s.filters url.bytes).isSome with
    | true =>
      right
      rfl
    | false =>
      left
      rfl

section Pass

variable {env : Env} {s : Session} {disk : Disk} {urls : List Str} {w : World} {url : Str}

theorem Passed.visitFile_path (h : Passed s env.pcre disk urls w) (hurl : Names url) :
  (visitFile env w url).path = s.file url
  := by
  rw [visitFile, hurl.getFilename_path, h.downloadFolder]
  rfl

/-- A wanted URL is called when it is new and its file does not exist. -/
theorem Passed.attempts_iff (h : Passed s env.pcre disk urls w)
    (hothers : ∀ t, (env.visit t).others = id) (hurl : Names url)
    (hwanted : s.wanted env.pcre [url] = [url]) :
  Attempts env w url ↔ url ∉ calls w.trace ∧ w.disk (s.file url) = none
  := by
  have hmem : url ∈ s.wanted env.pcre [url] := by simp [hwanted]
  obtain ⟨honly, -, hmatch⟩ := Session.mem_wanted.mp hmem
  have hdisk : (beginVisit env w).disk = w.disk := by simp [beginVisit, hothers]
  rw [← h.kept, ← h.visitFile_path hurl, ← hdisk]
  constructor
  · intro hattempts
    exact ⟨hattempts.fresh, hattempts.absent⟩
  · rintro ⟨hfresh, habsent⟩
    rw [← h.filters] at hmatch
    exact ⟨hmatch, h.matchOnly.trans honly, hfresh, habsent⟩

/-- A visit that calls `downloadFile` records the URL and creates its file. -/
theorem Passed.processURL_of_attempts (h : Passed s env.pcre disk urls w)
    (hothers : ∀ t, (env.visit t).others = id) (hgrants : ∀ t, (env.visit t).download.Grants)
    (hurl : Names url) (hattempts : Attempts env w url) (item : FeedItem) :
  (processURL env w item url).session.downloads
      = addToBucket url w.session.downloads w.session.maxBucketItems.toNat
    ∧ ∃ content, ∀ path ≠ s.statefile.bytes, (processURL env w item url).disk path
      = Function.update w.disk (s.file url) (some content) path
  := by
  have hcompleted : completed (visitDownload env w url).1 = true :=
    completed_of_grants (hgrants w.visits)
  cases processURL_visited env w item url with
  | skipped hnot => apply absurd hattempts hnot
  | failed _ hfailed =>
    rw [hcompleted] at hfailed
    cases hfailed
  | completed _ _ hsession hdisk =>
    constructor
    · rw [hsession]
    · have hpath : (visitFile env w url).path ≠ [] :=
        getFilename_path_ne_nil _ none url.bytes w.session.downloadFolder.ne_nil
      obtain ⟨content, hcontent⟩ := downloadFile_of_opened (hgrants w.visits).fopen url.bytes hpath
        ((isMatch env.pcre w.session.filters url.bytes).bind (·.agent)) (beginVisit env w).disk
      use content
      intro path hstate
      rw [← h.statefile] at hstate
      rw [hdisk, Function.update_of_ne hstate, visitDownload, hcontent, h.visitFile_path hurl]
      simp [beginVisit, hothers]

/-- The visit of a URL that is not wanted changes nothing. -/
theorem Passed.visit_unwanted (h : Passed s env.pcre disk urls w)
    (hothers : ∀ t, (env.visit t).others = id) (hwanted : s.wanted env.pcre [url] = [])
    (item : FeedItem) :
  Passed s env.pcre disk (urls ++ [url]) (processURL env w item url)
  := by
  have hnot : ¬ Attempts env w url := by
    intro hattempts
    have hmem := hattempts.wanted h.toSetting (List.mem_singleton_self url)
    rw [hwanted] at hmem
    cases hmem
  obtain ⟨hsession, hdisk, htrace, -⟩ := processURL_of_not_attempts hnot item
  have hlist : s.wanted env.pcre (urls ++ [url]) = s.wanted env.pcre urls := by
    rw [Session.wanted_append, hwanted, List.append_nil]
  refine ⟨h.toSetting.visit env item url, ?_, ?_, ?_, ?_, ?_, ?_⟩
  · rw [hsession, h.statefile]
  · rw [hsession, htrace, h.kept]
  · rw [htrace]
    apply h.nodup
  · rw [htrace, hlist]
    apply h.wanted
  · rw [hdisk, hlist]
    simpa [beginVisit, hothers] using h.files
  · rw [htrace, hlist]
    apply h.called

theorem Passed.visit_skipped (h : Passed s env.pcre disk urls w)
    (hothers : ∀ t, (env.visit t).others = id) (hurl : Names url)
    (hwanted : s.wanted env.pcre [url] = [url]) (hnot : ¬ Attempts env w url) (item : FeedItem) :
  Passed s env.pcre disk (urls ++ [url]) (processURL env w item url)
  := by
  obtain ⟨hsession, hdisk, htrace, -⟩ := processURL_of_not_attempts hnot item
  have hlist : s.wanted env.pcre (urls ++ [url]) = s.wanted env.pcre urls ++ [url] := by
    rw [Session.wanted_append, hwanted]
  -- the file exists already: it was there, or an earlier URL of its name was called
  have hexists : s.file url ≠ s.statefile.bytes →
      ¬ (disk (s.file url) = none ∧ ∀ u ∈ s.wanted env.pcre urls, s.file u ≠ s.file url) := by
    intro hstate hfree
    apply hnot
    rw [h.attempts_iff hothers hurl hwanted]
    refine ⟨?_, (h.files _ hstate).mpr hfree⟩
    intro hcalled
    apply hfree.2 url (h.wanted hcalled) rfl
  refine ⟨h.toSetting.visit env item url, ?_, ?_, ?_, ?_, ?_, ?_⟩
  · rw [hsession, h.statefile]
  · rw [hsession, htrace, h.kept]
  · rw [htrace]
    apply h.nodup
  · rw [htrace, hlist]
    apply List.Subset.trans h.wanted (List.subset_append_left _ _)
  · intro path hpath
    rw [hdisk, hlist]
    simp only [beginVisit, hothers, id, List.forall_mem_append, List.forall_mem_singleton]
    rw [h.files path hpath, ← and_assoc]
    apply Iff.symm (and_iff_left_of_imp _)
    rintro hfree rfl
    apply hexists hpath hfree
  · intro u hu
    rw [htrace, hlist, leads_append_singleton, h.called u hu]
    constructor
    · rintro ⟨hfree, hleads⟩
      exact ⟨hfree, Or.inl hleads⟩
    · rintro ⟨hfree, hleads | ⟨rfl, hleads⟩⟩
      · exact ⟨hfree, hleads⟩
      · apply absurd ⟨hfree, hleads⟩ (hexists hu)

theorem Passed.visit_called (h : Passed s env.pcre disk urls w)
    (hothers : ∀ t, (env.visit t).others = id) (hgrants : ∀ t, (env.visit t).download.Grants)
    (hroom : urls.length < s.maxBucketItems.toNat) (hurl : Names url)
    (hwanted : s.wanted env.pcre [url] = [url]) (hattempts : Attempts env w url)
    (item : FeedItem) :
  Passed s env.pcre disk (urls ++ [url]) (processURL env w item url)
  := by
  have hlist : s.wanted env.pcre (urls ++ [url]) = s.wanted env.pcre urls ++ [url] := by
    rw [Session.wanted_append, hwanted]
  obtain ⟨hfresh, habsent⟩ := (h.attempts_iff hothers hurl hwanted).mp hattempts
  obtain ⟨hdownloads, content, hdisk⟩ :=
    h.processURL_of_attempts hothers hgrants hurl hattempts item
  have hcalls : calls (processURL env w item url).trace = url :: calls w.trace := by
    rcases calls_processURL env w item url with ⟨-, hcalls⟩ | ⟨hnot, -⟩
    · apply hcalls
    · apply absurd hattempts hnot
  have hlength : (calls w.trace).length < s.maxBucketItems.toNat := by
    apply Nat.lt_of_le_of_lt _ hroom
    apply Nat.le_trans (h.nodup.length_le_of_subset h.wanted)
    rw [Session.wanted]
    split_ifs
    · apply Nat.zero_le
    · apply List.length_filter_le
  refine ⟨h.toSetting.visit env item url, ?_, ?_, ?_, ?_, ?_, ?_⟩
  · rw [← h.statefile, (processURL_visited env w item url).alike.1.statefile]
  · rw [hdownloads, hcalls, ← h.kept, h.capacity]
    apply Eq.trans (addToBucket_eq_push (Window.all w.session.downloads) url _)
    apply Window.kept_push_of_lt
    right
    rw [← h.kept] at hlength
    apply hlength
  · rw [hcalls]
    apply List.nodup_cons.mpr ⟨hfresh, h.nodup⟩
  · rw [hcalls, hlist]
    intro u hu
    rcases List.mem_cons.mp hu with rfl | hu
    · simp
    · apply List.mem_append_left _ (h.wanted hu)
  · intro path hpath
    rw [hdisk path hpath, hlist]
    simp only [List.forall_mem_append, List.forall_mem_singleton]
    rcases eq_or_ne path (s.file url) with rfl | hne
    · simp
    · rw [Function.update_of_ne hne, h.files path hpath]
      simp [hne.symm]
  · intro u hu
    rw [hcalls, List.mem_cons, hlist, leads_append_singleton, h.called u hu, and_or_left, or_comm]
    apply or_congr_right
    constructor
    · rintro rfl
      obtain ⟨hfree, hfirst⟩ := (h.files _ hu).mp habsent
      exact ⟨hfree, rfl, hfirst⟩
    · rintro ⟨-, heq, -⟩
      apply heq

theorem Passed.visit (h : Passed s env.pcre disk urls w)
    (hothers : ∀ t, (env.visit t).others = id) (hgrants : ∀ t, (env.visit t).download.Grants)
    (hroom : urls.length < s.maxBucketItems.toNat)
    (hurl : url ∈ s.wanted env.pcre [url] → Names url) (item : FeedItem) :
  Passed s env.pcre disk (urls ++ [url]) (processURL env w item url)
  := by
  rcases s.wanted_singleton env.pcre url with hwanted | hwanted
  · apply h.visit_unwanted hothers hwanted
  · have hnames : Names url := hurl (by simp [hwanted])
    by_cases hattempts : Attempts env w url
    · apply h.visit_called hothers hgrants hroom hnames hwanted hattempts
    · apply h.visit_skipped hothers hnames hwanted hattempts

end Pass

/-- The URL that a move visits. -/
def Move.url : Move → Option Str
  | .request _ => none
  | .visit _ url => some url

theorem filterMap_url_itemMoves (items : List FeedItem) :
  (itemMoves items).filterMap Move.url = items.flatMap (·.urls)
  := by
  induction items with
  | nil => rfl
  | cons item items ih =>
    rw [itemMoves, List.flatMap_cons, List.filterMap_append, ← itemMoves, ih, List.flatMap_cons,
      List.filterMap_map]
    congr 1
    apply List.filterMap_some

theorem exists_of_mem_itemMoves {items : List FeedItem} {move : Move}
    (h : move ∈ itemMoves items) :
  ∃ item url, move = .visit item url
  := by
  obtain ⟨item, -, h⟩ := List.mem_flatMap.mp h
  obtain ⟨url, -, rfl⟩ := List.mem_map.mp h
  exact ⟨item, url, rfl⟩

/-- The pass over some visits. -/
theorem passed_run {env : Env} {s : Session} {disk : Disk} (hempty : s.downloads = [])
    (hothers : ∀ t, (env.visit t).others = id) (hgrants : ∀ t, (env.visit t).download.Grants)
    {moves : List Move} (hmoves : ∀ move ∈ moves, ∃ item url, move = .visit item url)
    (hroom : (moves.filterMap Move.url).length ≤ s.maxBucketItems.toNat)
    (hnames : ∀ url ∈ s.wanted env.pcre (moves.filterMap Move.url), Names url) :
  Passed s env.pcre disk (moves.filterMap Move.url) (Move.run env moves (.start s disk))
  := by
  induction moves using List.reverseRecOn with
  | nil =>
    have hwanted : s.wanted env.pcre [] = [] := by simp [Session.wanted]
    refine ⟨⟨⟨rfl, rfl, rfl⟩, rfl⟩, rfl, hempty, List.nodup_nil, ?_, ?_, ?_⟩
    · apply List.nil_subset
    · intro path _
      simp [hwanted, Move.run, World.start]
    · intro url _
      simp only [List.filterMap_nil, hwanted, Move.run, List.foldl_nil, World.start, calls,
        List.not_mem_nil, false_iff, not_and]
      rintro - hleads
      cases hleads.mem
  | append_singleton moves move ih =>
    obtain ⟨item, url, rfl⟩ := hmoves _ (List.mem_append_right _ (List.mem_singleton_self _))
    have hurls : (moves ++ [Move.visit item url]).filterMap Move.url
        = moves.filterMap Move.url ++ [url] := List.filterMap_append
    rw [hurls] at hroom hnames ⊢
    rw [List.length_append, List.length_singleton] at hroom
    rw [Session.wanted_append] at hnames
    rw [Move.run_append]
    apply Passed.visit _ hothers hgrants hroom
    · intro hurl
      apply hnames url (List.mem_append_right _ hurl)
    · apply ih
      · intro move hmove
        apply hmoves move (List.mem_append_left _ hmove)
      · omega
      · intro u hu
        apply hnames u (List.mem_append_left _ hu)

/-- URLs of the same file name. -/
def namesakes : List Str :=
  ["a", "b"].filterMap fun host => Str.ofBytes (text "http://" ++ text host ++ text "/m")

theorem grants_plain :
  (Visit.plain 200).download.Grants
  := ⟨rfl, rfl, fun _ _ => rfl, fun _ _ => rfl⟩

theorem names_namesakes :
  ∀ url ∈ namesakes, Names url
  := by
  intro url hurl
  have hall : namesakes.all fun url =>
      url.bytes.length < PATH_MAX && url.bytes.any (· != slash) := by decide
  have h := List.all_eq_true.mp hall url hurl
  rw [Bool.and_eq_true, decide_eq_true_eq, List.any_eq_true] at h
  obtain ⟨hshort, b, hb, hslash⟩ := h
  exact ⟨hshort, b, hb, bne_iff_ne.mp hslash⟩

end Trailermatic
