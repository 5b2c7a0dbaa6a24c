import Trailermatic.Config.Interval
import Trailermatic.Config.Whole

/-!
# Configured sessions

Whatever is in a configuration file, the session it leaves is a proper one: its feeds have
URLs and numbers, its filters have patterns, and what the daemon keeps while it runs is not
touched.  Each option keeps this, and `parseConfigFile_invariant` says that then every file
does.
-/

namespace Trailermatic

/-! ### Proper sessions -/

/-- A string that is not `NULL` and not empty. -/
def IsString (value : Option Bytes) : Prop :=
  ∃ u : Str, value = some u.bytes

/-- Feeds are numbered as they are added, as far as the numbers of a `uint16_t` go. -/
def Numbered : List RssFeed → Prop
  | [] => True
  | feed :: feeds => feed.id = feeds.length % 65536 ∧ Numbered feeds

/-- Sessions as the options leave them. -/
structure Session.Proper (s : Session) : Prop where
  urls : ∀ feed ∈ s.feeds, IsString feed.url
  numbered : Numbered s.feeds
  patterns : ∀ filter ∈ s.filters, IsString filter.pattern
  statefile : s.statefile.bytes.length < MAXPATHLEN

/-- The sessions agree in everything that no option sets. -/
structure Session.SameState (s s' : Session) : Prop where
  downloads : s'.downloads = s.downloads
  prowlKeyValid : s'.prowlKeyValid = s.prowlKeyValid
  maxBucketItems : s'.maxBucketItems = s.maxBucketItems
  bucketChanged : s'.bucketChanged = s.bucketChanged
  matchOnly : s'.matchOnly = s.matchOnly

theorem Numbered.addFeed {feeds : List RssFeed} (h : Numbered feeds) (feed : RssFeed) :
  Numbered (addFeed feeds feed)
  := ⟨rfl, h⟩

theorem Numbered.id_lt {feeds : List RssFeed} (h : Numbered feeds)
    (hlength : feeds.length ≤ 65536) {feed : RssFeed} (hfeed : feed ∈ feeds) :
  feed.id < feeds.length
  := by
  induction feeds with
  | nil => cases hfeed
  | cons first feeds ih =>
    rw [List.length_cons] at hlength ⊢
    rcases List.mem_cons.mp hfeed with rfl | hrest
    · rw [h.1]
      omega
    · have hid := ih h.2 (by omega) hrest
      omega

/-- No two feeds have one number, as long as there are enough numbers. -/
theorem Numbered.nodup {feeds : List RssFeed} (h : Numbered feeds)
    (hlength : feeds.length ≤ 65536) :
  (feeds.map RssFeed.id).Nodup
  := by
  induction feeds with
  | nil => apply List.nodup_nil
  | cons feed feeds ih =>
    rw [List.length_cons] at hlength
    rw [List.map_cons, List.nodup_cons]
    constructor
    · rw [List.mem_map]
      rintro ⟨other, hother, hid⟩
      have hlt := h.2.id_lt (by omega) hother
      have hfirst := h.1
      omega
    · apply ih h.2 (by omega)

/-! ### Filters and feeds -/

theorem isString_of_mem_strtok {str : Option Str} {lines : List Bytes}
    (h : strtok str = some lines) {line : Bytes} (hline : line ∈ lines) :
  IsString (some line)
  := by
  obtain ⟨u, rfl, rfl⟩ := Option.map_eq_some_iff.mp h
  refine ⟨⟨line, Tokens.ne_nil_of_mem_tokensFrom _ hline, ?_⟩, rfl⟩
  intro hnul
  apply u.nul_notMem (mem_tokens_of_mem hline hnul)

theorem isString_of_isSome {value : Option Str} (h : (value.map Str.bytes).isSome) :
  IsString (value.map Str.bytes)
  := by
  obtain ⟨x, hx⟩ := Option.isSome_iff_exists.mp h
  obtain ⟨u, rfl, -⟩ := Option.map_eq_some_iff.mp hx
  exact ⟨u, rfl⟩

/-- The pattern of a filter is `NULL` or a string. -/
theorem parseFilterLine_isString {f f' : Filter} {line : Bytes}
    (hf : f.pattern.isSome → IsString f.pattern) (h : parseFilterLine f line = some f') :
  f'.pattern.isSome → IsString f'.pattern
  := by
  rcases parseFilterLine_cases h with rfl | ⟨option, param, u, hsub, hu, rfl | rfl⟩
  · apply hf
  · apply isString_of_isSome
  · apply hf

theorem patterns_parseFilter {filters filters' : List Filter} {param : Bytes}
    (hfilters : ∀ filter ∈ filters, IsString filter.pattern)
    (h : parseFilter filters param = some filters') :
  ∀ filter ∈ filters', IsString filter.pattern
  := by
  simp only [parseFilter, Option.bind_eq_bind, Option.bind_eq_some_iff] at h
  obtain ⟨str, -, lines, -, filter, hlines, hresult⟩ := h
  have hpattern : filter.pattern.isSome → IsString filter.pattern := by
    apply Trace.foldlM_invariant _ _ hlines
    · intro f line _ f' hf hline
      apply parseFilterLine_isString hf hline
    · intro hsome
      cases hsome
  cases hresult
  split_ifs with hsome
  · rintro f (_ | ⟨_, hf⟩)
    · apply hpattern hsome
    · apply hfilters f hf
  · apply hfilters

theorem patterns_addPatternsOld {filters filters' : List Filter} {param : Bytes}
    (hfilters : ∀ filter ∈ filters, IsString filter.pattern)
    (h : addPatternsOld filters param = some filters') :
  ∀ filter ∈ filters', IsString filter.pattern
  := by
  simp only [addPatternsOld, Option.bind_eq_bind, Option.bind_eq_some_iff] at h
  obtain ⟨str, -, patterns, hpatterns, hresult⟩ := h
  cases hresult
  have hall : ∀ line ∈ patterns, IsString (some line) :=
    fun line hline => isString_of_mem_strtok hpatterns hline
  clear hpatterns
  induction patterns generalizing filters with
  | nil => apply hfilters
  | cons line patterns ih =>
    apply ih
    · rintro f (_ | ⟨_, hf⟩)
      · apply hall line List.mem_cons_self
      · apply hfilters f hf
    · intro other hother
      apply hall other (List.mem_cons_of_mem line hother)

/-- The URLs of the feeds are strings, and the feeds are numbered. -/
structure ProperFeeds (feeds : List RssFeed) : Prop where
  urls : ∀ feed ∈ feeds, IsString feed.url
  numbered : Numbered feeds

theorem ProperFeeds.addFeed {feeds : List RssFeed} (h : ProperFeeds feeds) {feed : RssFeed}
    (hurl : IsString feed.url) :
  ProperFeeds (addFeed feeds feed)
  where
    urls := by
      rintro f (_ | ⟨_, hf⟩)
      · apply hurl
      · apply h.urls f hf
    numbered := h.numbered.addFeed feed

theorem parseFeedLine_isString {f f' : RssFeed} {line : Bytes} (hf : f.url.isSome → IsString f.url)
    (h : parseFeedLine f line = some f') :
  f'.url.isSome → IsString f'.url
  := by
  rw [parseFeedLine] at h
  split at h
  · cases h
  · cases h
    apply hf
  · split_ifs at h
    · obtain ⟨u, -, rfl⟩ := Option.map_eq_some_iff.mp h
      apply isString_of_isSome
    · obtain ⟨u, -, rfl⟩ := Option.map_eq_some_iff.mp h
      apply hf
    · cases h
      apply hf

theorem properFeeds_parseFeed {pcre : Pcre} {feeds feeds' : List RssFeed} {param : Bytes}
    (hfeeds : ProperFeeds feeds) (h : parseFeed pcre feeds param = some feeds') :
  ProperFeeds feeds'
  := by
  simp only [parseFeed, Option.bind_eq_bind, Option.bind_eq_some_iff] at h
  obtain ⟨str, -, lines, -, feed, hlines, hresult⟩ := h
  have hurl : feed.url.isSome → IsString feed.url := by
    apply Trace.foldlM_invariant _ _ hlines
    · intro f line _ f' hf hline
      apply parseFeedLine_isString hf hline
    · intro hsome
      cases hsome
  cases hfeed : feed.url with
  | none =>
    rw [hfeed] at hresult
    cases hresult
    apply hfeeds
  | some url =>
    rw [hfeed] at hresult hurl
    simp only at hresult
    split_ifs at hresult with hcookies
    · cases hresult
      apply hfeeds.addFeed
      rw [hfeed]
      apply hurl rfl
    · obtain ⟨cookies, -, hadded⟩ := Option.bind_eq_some_iff.mp hresult
      cases hadded
      apply hfeeds.addFeed
      apply hurl rfl

theorem properFeeds_getFeeds {pcre : Pcre} {feeds feeds' : List RssFeed} {param : Bytes}
    (hfeeds : ProperFeeds feeds) (h : getFeeds pcre feeds param = some feeds') :
  ProperFeeds feeds'
  := by
  simp only [getFeeds, Option.bind_eq_bind, Option.bind_eq_some_iff] at h
  obtain ⟨str, -, urls, hurls, hresult⟩ := h
  apply Trace.foldlM_invariant _ hfeeds hresult
  intro feeds url hmem feeds' hproper hadded
  obtain ⟨cookies, -, hfeed⟩ := Option.bind_eq_some_iff.mp hadded
  cases hfeed
  apply hproper.addFeed (isString_of_mem_strtok hurls hmem)

/-! ### Paths -/

theorem length_amStrdup_le {path : Bytes} {u : Str} (h : amStrdup path = some u) :
  u.bytes.length ≤ path.length
  := by
  rw [bytes_of_amStrdup h]
  apply (cstr_initial path).length_le

theorem length_setPath {home : Option Str} {src : Bytes} {dst path : Str}
    (hdst : dst.bytes.length < MAXPATHLEN) (h : setPath home src dst = some path) :
  path.bytes.length < MAXPATHLEN
  := by
  rw [setPath] at h
  split_ifs at h with hlength
  · obtain ⟨tmp, htmp, rfl⟩ := Option.map_eq_some_iff.mp h
    cases tmp with
    | none => apply hdst
    | some tmp =>
      have hcopy (hdup : amStrdup src = some tmp) : tmp.bytes.length < MAXPATHLEN := by
        rw [bytes_of_amStrdup hdup]
        apply hlength
      cases home with
      | none =>
        simp only [resolvePath] at htmp
        split_ifs at htmp
        · apply hcopy (Option.some.inj htmp)
        · cases htmp
      | some homedir =>
        simp only [resolvePath] at htmp
        split_ifs at htmp with hlong htilde hroom
        · apply Nat.lt_of_le_of_lt (length_amStrdup_le (Option.some.inj htmp)) hroom
        · apply hcopy (Option.some.inj htmp)
        · cases htmp
  · cases h
    apply hdst

/-! ### Configurations -/

variable {pcre : Pcre} {home : Option Str}

theorem Session.Proper.feeds {s : Session} (h : s.Proper) :
  ProperFeeds s.feeds
  := ⟨h.urls, h.numbered⟩

theorem OptionEffect.proper {s s' : Session} {opt param : Bytes}
    (h : OptionEffect pcre home s opt param s') (hs : s.Proper) :
  s'.Proper
  := by
  cases h with
  | url _ hfeeds =>
    have hproper := properFeeds_getFeeds hs.feeds hfeeds
    exact ⟨hproper.urls, hproper.numbered, hs.patterns, hs.statefile⟩
  | feed _ hfeeds =>
    have hproper := properFeeds_parseFeed hs.feeds hfeeds
    exact ⟨hproper.urls, hproper.numbered, hs.patterns, hs.statefile⟩
  | patterns _ hfilters =>
    exact ⟨hs.urls, hs.numbered, patterns_addPatternsOld hs.patterns hfilters, hs.statefile⟩
  | filter _ hfilters =>
    exact ⟨hs.urls, hs.numbered, patterns_parseFilter hs.patterns hfilters, hs.statefile⟩
  | statefile _ hpath =>
    exact ⟨hs.urls, hs.numbered, hs.patterns, length_setPath hs.statefile hpath⟩
  | downloadFolder | interval | prowlKey | downloadDoneScript | none =>
    exact ⟨hs.urls, hs.numbered, hs.patterns, hs.statefile⟩

theorem OptionEffect.sameState {s s' : Session} {opt param : Bytes}
    (h : OptionEffect pcre home s opt param s') :
  s.SameState s'
  := by
  cases h with
  | url | feed | downloadFolder | statefile | interval | patterns | filter | prowlKey
    | downloadDoneScript | none => exact ⟨rfl, rfl, rfl, rfl, rfl⟩

/-- What every option keeps, all calls keep. -/
theorem applyCalls_invariant {I : Session → Prop}
    (hI : ∀ s s' opt param, I s → OptionEffect pcre home s opt param s' → I s')
    {s s' : Session} {calls : List (Bytes × Bytes × OptionType)} (hs : I s)
    (h : applyCalls (setOption pcre home) (some s) calls = some s') :
  I s'
  := by
  induction calls generalizing s with
  | nil =>
    cases h
    apply hs
  | cons call calls ih =>
    rw [applyCalls, List.foldl_cons, ← applyCalls] at h
    cases hcall : setOption pcre home (some s) call.1 call.2.1 call.2.2 with
    | none =>
      rw [hcall, applyCalls_none] at h
      cases h
    | some s₁ =>
      rw [hcall] at h
      apply ih (hI _ _ _ _ hs (effect_of_setOption hcall)) h

/-- What every option keeps, every configuration keeps. -/
theorem parseConfigFile_invariant {I : Session → Prop}
    (hI : ∀ s s' opt param, I s → OptionEffect pcre home s opt param s' → I s')
    {file : Option Bytes} {beyond : Bytes} {s s' : Session} {r : Parsed (Option Session)}
    (hs : I s) (h : parseConfigFile (setOption pcre home) file beyond (some s) = some r)
    (hstate : r.state = some s') :
  I s'
  := by
  rw [parseConfigFile_calls] at h
  obtain ⟨recorded, -, rfl⟩ := Option.map_eq_some_iff.mp h
  apply applyCalls_invariant hI hs hstate

/-- Whatever a configuration file holds, valid or not: in the session that it leaves every
feed has a URL and, among the first 65536 feeds, a number of its own, every filter has a
pattern, the path of the state file fits into its buffer, and the history, its capacity and
the flags are those from before. -/
theorem configured_proper {file : Option Bytes} {beyond : Bytes} {s s' : Session}
    {r : Parsed (Option Session)} (hs : s.Proper)
    (h : parseConfigFile (setOption pcre home) file beyond (some s) = some r)
    (hstate : r.state = some s') :
  s'.Proper ∧ s.SameState s' ∧ (s'.feeds.length ≤ 65536 → (s'.feeds.map RssFeed.id).Nodup)
  := by
  have hproper : s'.Proper := by
    apply parseConfigFile_invariant _ hs h hstate
    intro s₁ s₂ opt param hs₁ heffect
    apply heffect.proper hs₁
  have hsame : s.SameState s' := by
    apply parseConfigFile_invariant _ ⟨rfl, rfl, rfl, rfl, rfl⟩ h hstate
    intro s₁ s₂ opt param hs₁ heffect
    have heffect := heffect.sameState
    constructor
    · rw [heffect.downloads, hs₁.downloads]
    · rw [heffect.prowlKeyValid, hs₁.prowlKeyValid]
    · rw [heffect.maxBucketItems, hs₁.maxBucketItems]
    · rw [heffect.bucketChanged, hs₁.bucketChanged]
    · rw [heffect.matchOnly, hs₁.matchOnly]
  exact ⟨hproper, hsame, hproper.numbered.nodup⟩

theorem configured_proper_sample :
  ∃ r s', parseConfigFile (setOption .plain none) (some (text "patterns = \"a\"\n"))
      (text "x") (some (Session.plain [] [])) = some r
    ∧ r.state = some s' ∧ s'.filters.length = 2
    ∧ s'.Proper ∧ (Session.plain [] []).SameState s'
    ∧ (s'.feeds.length ≤ 65536 → (s'.feeds.map RssFeed.id).Nodup)
  := by
  obtain ⟨r, hr, s', hstate, hfilters⟩ :
      ∃ r, parseConfigFile (setOption .plain none) (some (text "patterns = \"a\"\n"))
        (text "x") (some (Session.plain [] [])) = some r
      ∧ ∃ s', r.state = some s' ∧ s'.filters.length = 2 := ⟨_, rfl, _, rfl, by decide⟩
  refine ⟨r, s', hr, hstate, hfilters, ?_⟩
  apply configured_proper _ hr hstate
  refine ⟨List.forall_mem_nil _, trivial, ?_, by decide⟩
  rintro f (_ | ⟨_, hf⟩)
  · exact ⟨⟨text "m", by decide, by decide⟩, rfl⟩
  · cases hf

end Trailermatic
