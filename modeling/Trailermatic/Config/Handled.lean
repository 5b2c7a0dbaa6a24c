import Trailermatic.Config.Calls
import Trailermatic.Config.Layout
import Trailermatic.Config.Segments
import Trailermatic.Library.Trace

/-!
# Options that are handled to their end

A file that is laid out is read to its end if `setOption` comes to an end for each of its
options.  It does not where a list has no text to take a token of, where a line of a block begins
with an arrow, and where a path does not fit its buffer with the home folder in front of it.
`parse_layout_iff` says that it does everywhere else.
-/

namespace Trailermatic

/-! ### Parameters that are handled -/

/-- The options whose parameter is a list. -/
def listOptions : List Bytes :=
  [text "url", text "patterns", text "feed", text "filter"]

/-- The options whose lines hold suboptions. -/
def blockOptions : List Bytes :=
  [text "feed", text "filter"]

/-- The options whose parameter is a path. -/
def pathOptions : List Bytes :=
  [text "download-folder", text "statefile"]

/-- The line begins with an arrow, so that the suboption has no name. -/
def Nameless (line : Bytes) : Prop :=
  [equals, 62] <+: line

/-- A path whose `~` is resolved is not too long, unless it is so long that it is not taken. -/
def Resolves (home : Option Str) (path : Bytes) : Prop :=
  ∀ dir ∈ home, 2 < path.length → path.length < MAXPATHLEN → text "~/" <+: path →
    dir.bytes.length + path.length ≤ MAXPATHLEN

/-- The parameters with which `setOption` comes to an end for an option. -/
structure Handled (home : Option Str) (name param : Bytes) : Prop where
  listed : name ∈ listOptions → HasSegment param
  named : name ∈ blockOptions → ∀ line ∈ linesOf param, ¬ Nameless line
  path : name ∈ pathOptions → Resolves home param

/-! ### Lines -/

theorem nameless_cons_iff {b : Byte} {line : Bytes} :
  Nameless (b :: line) ↔ b = equals ∧ line.head? = some 62
  := by
  rw [Nameless, List.cons_prefix_cons]
  cases line with
  | nil => simp
  | cons c line => simp [List.cons_prefix_cons, eq_comm]

theorem isSome_parseSubOption_iff (line : Bytes) :
  (parseSubOption line).isSome ↔ ¬ Nameless line
  := by
  rw [parseSubOption]
  cases line with
  | nil => simp [splitArrow, Nameless]
  | cons b line =>
    rw [nameless_cons_iff, splitArrow]
    by_cases harrow : b = equals ∧ line.head? = some 62
    · simp [harrow]
    · rw [if_neg harrow]
      cases splitArrow line with
      | none => simp [harrow]
      | some parts => simp [harrow]

theorem exists_shorten {str : Bytes} (h : str.length ≤ MAX_PARAM_LEN) :
  ∃ u, shorten str = some u
  := ⟨_, shorten_eq_joined h⟩

theorem isSome_parseFilterLine_iff {line : Bytes} (h : line.length ≤ MAX_PARAM_LEN)
    (filter : Filter) :
  (parseFilterLine filter line).isSome ↔ ¬ Nameless line
  := by
  rw [← isSome_parseSubOption_iff, parseFilterLine]
  cases hsub : parseSubOption line with
  | none => rfl
  | some parts =>
    cases parts with
    | none => rfl
    | some parts =>
      obtain ⟨option, param⟩ := parts
      obtain ⟨u, hu⟩ := exists_shorten ((length_parseSubOption hsub).le.trans h)
      simp only [hu]
      split_ifs
      · rfl
      · rfl
      · rfl

theorem isSome_parseFeedLine_iff {line : Bytes} (h : line.length ≤ MAX_PARAM_LEN)
    (feed : RssFeed) :
  (parseFeedLine feed line).isSome ↔ ¬ Nameless line
  := by
  rw [← isSome_parseSubOption_iff, parseFeedLine]
  cases hsub : parseSubOption line with
  | none => rfl
  | some parts =>
    cases parts with
    | none => rfl
    | some parts =>
      obtain ⟨option, param⟩ := parts
      obtain ⟨u, hu⟩ := exists_shorten ((length_parseSubOption hsub).le.trans h)
      simp only [hu]
      split_ifs
      · rfl
      · rfl
      · rfl

/-! ### Options -/

section Options

variable {param : Bytes}

/-- What is made of the lines is made if there is a segment to take them of. -/
theorem isSome_bind_lines_iff (hnul : (0 : Byte) ∉ param)
    (hlength : param.length ≤ MAX_PARAM_LEN) {α : Type} (f : List Bytes → Option α) :
  (((shorten param).bind strtok).bind f).isSome ↔ HasSegment param ∧ (f (linesOf param)).isSome
  := by
  rw [strtok_shorten hnul hlength]
  split_ifs with h
  · simp [h]
  · simp [h]

theorem isSome_addPatternsOld_iff (hnul : (0 : Byte) ∉ param)
    (hlength : param.length ≤ MAX_PARAM_LEN) (filters : List Filter) :
  (addPatternsOld filters param).isSome ↔ HasSegment param
  := by
  rw [addPatternsOld_eq, strtok_shorten hnul hlength]
  split_ifs with h
  · simp [h]
  · simp [h]

theorem isSome_getFeeds_iff (hnul : (0 : Byte) ∉ param)
    (hlength : param.length ≤ MAX_PARAM_LEN) {pcre : Pcre} (hpcre : pcre.Lists)
    (feeds : List RssFeed) :
  (getFeeds pcre feeds param).isSome ↔ HasSegment param
  := by
  obtain ⟨added, hadded, -⟩ := addURLs_added hpcre (linesOf param) feeds
  rw [getFeeds_eq, isSome_bind_lines_iff hnul hlength, hadded]
  simp

theorem isSome_foldlM_lines_iff (hnul : (0 : Byte) ∉ param)
    (hlength : param.length ≤ MAX_PARAM_LEN) {α : Type} {parse : α → Bytes → Option α}
    (hparse : ∀ line : Bytes, line.length ≤ MAX_PARAM_LEN →
      ∀ a, (parse a line).isSome ↔ ¬ Nameless line) (a : α) :
  (((shorten param).bind strtok).bind fun lines => lines.foldlM parse a).isSome
    ↔ HasSegment param ∧ ∀ line ∈ linesOf param, ¬ Nameless line
  := by
  rw [isSome_bind_lines_iff hnul hlength]
  apply and_congr_right
  intro _
  apply Trace.isSome_foldlM_iff
  intro line hline
  apply hparse line ((length_le_of_mem_linesOf hline).trans hlength)

theorem isSome_parseFilter_iff (hnul : (0 : Byte) ∉ param)
    (hlength : param.length ≤ MAX_PARAM_LEN) (filters : List Filter) :
  (parseFilter filters param).isSome
    ↔ HasSegment param ∧ ∀ line ∈ linesOf param, ¬ Nameless line
  := by
  rw [← isSome_foldlM_lines_iff hnul hlength (fun _ h => isSome_parseFilterLine_iff h)
    ⟨none, none⟩, parseFilter]
  cases shorten param with
  | none => rfl
  | some str =>
    cases hlines : strtok str with
    | none => simp [hlines]
    | some lines =>
      simp only [bind, Option.bind, hlines]
      cases lines.foldlM parseFilterLine ⟨none, none⟩ with
      | none => rfl
      | some filter => rfl

theorem isSome_parseFeed_iff (hnul : (0 : Byte) ∉ param)
    (hlength : param.length ≤ MAX_PARAM_LEN) {pcre : Pcre} (hpcre : pcre.Lists)
    (feeds : List RssFeed) :
  (parseFeed pcre feeds param).isSome
    ↔ HasSegment param ∧ ∀ line ∈ linesOf param, ¬ Nameless line
  := by
  rw [← isSome_foldlM_lines_iff hnul hlength (fun _ h => isSome_parseFeedLine_iff h)
    ⟨none, none, 0⟩, parseFeed]
  cases shorten param with
  | none => rfl
  | some str =>
    cases hlines : strtok str with
    | none => simp [hlines]
    | some lines =>
      simp only [bind, Option.bind]
      rw [hlines]
      simp only
      cases lines.foldlM parseFeedLine ⟨none, none, 0⟩ with
      | none => rfl
      | some feed =>
        simp only [Option.isSome_some, iff_true]
        cases feed.url with
        | none => rfl
        | some url =>
          obtain ⟨cookies, hcookies⟩ :=
            hpcre.exists_getRegExMatch (some (text ":COOKIE:(.+)")) url Nat.one_pos
          simp only [parseCookiesFromURL, hcookies]
          split_ifs
          · rfl
          · rfl

theorem isSome_setPath_iff (hnul : (0 : Byte) ∉ param) (home : Option Str) (dst : Str) :
  (setPath home param dst).isSome ↔ Resolves home param
  := by
  simp only [setPath, resolvePath, strlen, cstr_of_notMem hnul, Resolves]
  by_cases hshort : param.length < MAXPATHLEN
  · rw [if_pos hshort, Option.isSome_map]
    by_cases hlong : 2 < param.length
    · rw [if_pos hlong]
      cases home with
      | none => simp
      | some dir =>
        by_cases htilde : text "~/" <+: param
        · have hnewDir : (dir.bytes ++ param.tail).length < MAXPATHLEN
              ↔ dir.bytes.length + param.length ≤ MAXPATHLEN := by
            rw [List.length_append, List.length_tail]
            omega
          simp only [List.isPrefixOf_iff_prefix, htilde, if_true, hnewDir]
          split_ifs with hfits
          · simp [hfits]
          · simp [hfits, hshort, hlong]
        · simp [List.isPrefixOf_iff_prefix, htilde]
    · simp [hlong]
  · simp [hshort]

end Options

/-! ### What an option asks of its parameter -/

section Kinds

variable {name : Bytes} (home : Option Str) (param : Bytes)

theorem handled_list_iff (h : name ∈ listOptions) (hblock : name ∉ blockOptions)
    (hpath : name ∉ pathOptions) :
  Handled home name param ↔ HasSegment param
  := by
  constructor
  · intro hhandled
    apply hhandled.listed h
  · intro hsegment
    exact ⟨fun _ => hsegment, fun hmem => absurd hmem hblock, fun hmem => absurd hmem hpath⟩

theorem handled_block_iff (h : name ∈ blockOptions) (hlist : name ∈ listOptions)
    (hpath : name ∉ pathOptions) :
  Handled home name param ↔ HasSegment param ∧ ∀ line ∈ linesOf param, ¬ Nameless line
  := by
  constructor
  · intro hhandled
    exact ⟨hhandled.listed hlist, hhandled.named h⟩
  · rintro ⟨hsegment, hnamed⟩
    exact ⟨fun _ => hsegment, fun _ => hnamed, fun hmem => absurd hmem hpath⟩

theorem handled_path_iff (h : name ∈ pathOptions) (hlist : name ∉ listOptions)
    (hblock : name ∉ blockOptions) :
  Handled home name param ↔ Resolves home param
  := by
  constructor
  · intro hhandled
    apply hhandled.path h
  · intro hresolves
    exact ⟨fun hmem => absurd hmem hlist, fun hmem => absurd hmem hblock, fun _ => hresolves⟩

/-- Any other option takes any parameter. -/
theorem handled_other (hlist : name ∉ listOptions) (hblock : name ∉ blockOptions)
    (hpath : name ∉ pathOptions) :
  Handled home name param
  := ⟨fun hmem => absurd hmem hlist, fun hmem => absurd hmem hblock,
    fun hmem => absurd hmem hpath⟩

end Kinds

/-- `setOption` comes to an end exactly for the parameters that are handled, whatever the session
is. -/
theorem isSome_setOption_iff {pcre : Pcre} (hpcre : pcre.Lists) (home : Option Str)
    {param : Bytes} (hnul : (0 : Byte) ∉ param) (hlength : param.length ≤ MAX_PARAM_LEN)
    (s : Session) (opt : Bytes) (type : OptionType) :
  (setOption pcre home (some s) opt param type).isSome ↔ Handled home opt param
  := by
  rw [setOption, Option.bind_some]
  by_cases hurl : opt = text "url"
  · subst hurl
    rw [if_pos rfl, Option.isSome_map, isSome_getFeeds_iff hnul hlength hpcre,
      handled_list_iff home param (by decide) (by decide) (by decide)]
  rw [if_neg hurl]
  by_cases hfeed : opt = text "feed"
  · subst hfeed
    rw [if_pos rfl, Option.isSome_map, isSome_parseFeed_iff hnul hlength hpcre,
      handled_block_iff home param (by decide) (by decide) (by decide)]
  rw [if_neg hfeed]
  by_cases hfolder : opt = text "download-folder"
  · subst hfolder
    rw [if_pos rfl, Option.isSome_map, isSome_setPath_iff hnul,
      handled_path_iff home param (by decide) (by decide) (by decide)]
  rw [if_neg hfolder]
  by_cases hstatefile : opt = text "statefile"
  · subst hstatefile
    rw [if_pos rfl, Option.isSome_map, isSome_setPath_iff hnul,
      handled_path_iff home param (by decide) (by decide) (by decide)]
  rw [if_neg hstatefile]
  by_cases hpatterns : opt = text "patterns"
  · subst hpatterns
    rw [if_neg (by decide), if_pos rfl, Option.isSome_map, isSome_addPatternsOld_iff hnul hlength,
      handled_list_iff home param (by decide) (by decide) (by decide)]
  by_cases hfilter : opt = text "filter"
  · subst hfilter
    rw [if_neg (by decide), if_neg hpatterns, if_pos rfl, Option.isSome_map,
      isSome_parseFilter_iff hnul hlength,
      handled_block_iff home param (by decide) (by decide) (by decide)]
  have hother : Handled home opt param := by
    apply handled_other
    · simp [listOptions, hurl, hpatterns, hfeed, hfilter]
    · simp [blockOptions, hfeed, hfilter]
    · simp [pathOptions, hfolder, hstatefile]
  simp only [if_neg hpatterns, if_neg hfilter, iff_true_right hother]
  split_ifs
  all_goals rfl

/-! ### Files -/

/-- `setOption` together with the calls that it gets. -/
def recordedOption (pcre : Pcre) (home : Option Str)
    (state : Option Session × List (Bytes × Bytes × OptionType)) (opt param : Bytes)
    (type : OptionType) : Option Session × List (Bytes × Bytes × OptionType) :=
  (setOption pcre home state.1 opt param type, record state.2 opt param type)

theorem applyCalls_recordedOption (pcre : Pcre) (home : Option Str) (state : Option Session)
    (before calls : List (Bytes × Bytes × OptionType)) :
  applyCalls (recordedOption pcre home) (state, before) calls
    = (applyCalls (setOption pcre home) state calls, before ++ calls)
  := by
  induction calls generalizing state before with
  | nil =>
    rw [List.append_nil]
    rfl
  | cons call calls ih =>
    rw [applyCalls, List.foldl_cons, ← applyCalls, recordedOption, ih, record, List.append_assoc]
    rfl

namespace Entry

variable (e : Entry)

/-- The call of `setOption` for an entry. -/
def call : Bytes × Bytes × OptionType :=
  (e.name, e.value.param, e.value.type)

end Entry

theorem Value.WellFormed.length_param_le {v : Value} (h : v.WellFormed) :
  v.param.length ≤ MAX_PARAM_LEN
  := by
  cases v with
  | quoted quote param => exact h.2.2.2
  | braced param => exact h.2
  | bare param => exact h.2.1.le

/-- The entries of a file have C strings as values, and none is too long. -/
theorem Layout.param_of_mem {es : List Entry} {content : Bytes} (h : Layout es content)
    {e : Entry} (he : e ∈ es) :
  (0 : Byte) ∉ e.value.param ∧ e.value.param.length ≤ MAX_PARAM_LEN
  := by
  induction h with
  | nil => cases he
  | cons filler e' es rest filled wellFormed proper separated more ih =>
    rcases List.mem_cons.mp he with rfl | he
    · exact ⟨proper.nul, wellFormed.value.length_param_le⟩
    · apply ih he

/-- The calls for the entries leave a session exactly if each entry is handled. -/
theorem Layout.isSome_applyCalls_iff {pcre : Pcre} (hpcre : pcre.Lists) (home : Option Str)
    {es : List Entry} {content : Bytes} (h : Layout es content) (s : Session) :
  (applyCalls (setOption pcre home) (some s) (es.map Entry.call)).isSome
    ↔ ∀ e ∈ es, Handled home e.name e.value.param
  := by
  rw [applyCalls_eq_foldlM (setOption_eq_bind pcre home), List.foldlM_map]
  apply Trace.isSome_foldlM_iff
  intro e he s
  obtain ⟨hnul, hlength⟩ := h.param_of_mem he
  apply isSome_setOption_iff hpcre home hnul hlength

/-- A file that is laid out is read to its end, with one call of `setOption` for each of its
entries, if and only if each of them is handled. -/
theorem parse_layout_iff {pcre : Pcre} (hpcre : pcre.Lists) (home : Option Str) {es : List Entry}
    {content : Bytes} (h : Layout es content) (hcontent : content ≠ [])
    (hsize : content.length ≤ INT_MAX) (beyond : Bytes) (s : Session) :
  (∃ r s', parseConfigFile (recordedOption pcre home) (some content) (0 :: beyond) (some s, [])
      = some r ∧ r.ret = 0 ∧ r.state = (some s', es.map Entry.call))
    ↔ ∀ e ∈ es, Handled home e.name e.value.param
  := by
  obtain ⟨r, hr, hret, -, hstate⟩ :=
    parse_layout (recordedOption pcre home) h hcontent hsize beyond (some s, [])
  have hcalls : r.state = (applyCalls (setOption pcre home) (some s) (es.map Entry.call),
      es.map Entry.call) := by
    have hmap := applyCalls_recordedOption pcre home (some s) [] (es.map Entry.call)
    rw [applyCalls, List.foldl_map] at hmap
    rw [hstate]
    apply hmap
  rw [← h.isSome_applyCalls_iff hpcre home s]
  constructor
  · rintro ⟨r', s', hr', -, hstate'⟩
    obtain rfl := Option.some.inj (hr.symm.trans hr')
    have hsession := congrArg Prod.fst (hcalls.symm.trans hstate')
    exact Option.isSome_iff_exists.mpr ⟨s', hsession⟩
  · intro hsome
    obtain ⟨s', hs'⟩ := Option.isSome_iff_exists.mp hsome
    refine ⟨r, s', hr, hret, ?_⟩
    rw [hcalls, hs']

theorem parse_layout_iff_sample :
  ∃ r s', parseConfigFile (recordedOption .plain none) (some sampleContent) [0]
      (some (.plain [] []), []) = some r
    ∧ r.ret = 0 ∧ r.state = (some s', sampleEntries.map Entry.call)
  := by
  apply (parse_layout_iff Pcre.plain_lists none layout_sample (by decide) (by decide) []
    (.plain [] [])).mpr
  intro e he
  rcases List.mem_cons.mp he with rfl | he
  · apply (handled_list_iff none _ (by decide) (by decide) (by decide)).mpr
    decide
  · obtain rfl := List.mem_singleton.mp he
    apply handled_other none _ (by decide) (by decide) (by decide)

/-- An option with an empty text, on a line of its own. -/
def emptyEntry : Entry :=
  ⟨text "url", text " ", text " ", .quoted doubleQuote []⟩

theorem layout_emptyEntry :
  Layout [emptyEntry] (text "url = \"\"")
  := by
  have hblank : Blank [] := fun _ h => absurd h List.not_mem_nil
  apply Layout.cons [] emptyEntry [] [] (Filler.blank [] hblank) _ _ _
    (Layout.nil [] (Filler.blank [] hblank))
  · refine ⟨by decide, by decide, List.all_eq_true.mp (by decide), by decide, by decide, ?_⟩
    refine ⟨by decide, by decide, by decide, by decide⟩
  · exact ⟨by decide, by decide⟩
  · trivial

/-- The program ends in the call of `setOption` for it. -/
theorem empty_text_crashes :
  Layout [emptyEntry] (text "url = \"\"")
    ∧ ¬ ∃ r s', parseConfigFile (recordedOption .plain none) (some (text "url = \"\"")) [0]
        (some (.plain [] []), []) = some r
      ∧ r.ret = 0 ∧ r.state = (some s', [emptyEntry].map Entry.call)
  := by
  refine ⟨layout_emptyEntry, ?_⟩
  rintro ⟨r, s', hr, -, hstate⟩
  have hnone : (parseConfigFile (recordedOption .plain none) (some (text "url = \"\"")) [0]
      (some (.plain [] []), [])).map (fun r => r.state.1) = some none := rfl
  rw [hr, Option.map_some, hstate] at hnone
  cases hnone

end Trailermatic
