import Trailermatic.Config.Order
import Trailermatic.SessionMemory

/-!
# Configurations that lose no memory

An option loses memory if it sets a key or a script again, or if a filter or a feed has a line
with a name only or a value only, a suboption that is set again, or no pattern and no URL.
`session_released_iff` says that these are the only ways: for every other configuration, all
the memory of the session has been freed at shutdown.
-/

namespace Trailermatic

open Alloc

namespace Owned

/-- A line that `parse_suboption` finds a name and a parameter in, or neither. -/
def Whole (line : Bytes) : Prop :=
  ∀ parts, subOptionParts line = some parts → parts.1.isSome = parts.2.isSome

/-- The value that a line gives to the suboption `name`, the first of `names` that the name in
the line begins with. -/
def given (names : List Bytes) (name line : Bytes) : Option (Option Str) :=
  (subOptionParts line).bind fun parts =>
    match parts with
    | (some option, some param) =>
      if names.find? (·.isPrefixOf option) = some name then Trailermatic.shorten param.bytes
      else none
    | _ => none

/-- Of the values that lines give to a suboption, only the last one may be another than `NULL`. -/
def GivenOnce (names : List Bytes) (name : Bytes) (lines : List Bytes) : Prop :=
  lines.Pairwise fun line line' =>
    (given names name line).isSome → (given names name line').isSome →
      given names name line = some none

/-- The lines of an entry that loses nothing.  If there is a line, the suboption `needed` has a
value. -/
structure TidyEntry (names : List Bytes) (needed : Bytes) (lines : List Bytes) : Prop where
  whole : ∀ line ∈ lines, Whole line
  once : ∀ name ∈ names, GivenOnce names name lines
  used : lines ≠ [] → ∃ line ∈ lines, ∃ value, given names needed line = some (some value)

section Entries

variable {α β δ : Type} {view : α → β} {blocks : α → List ℕ}

/-- Suboptions with different names, each with a field of its own. -/
structure Separate (suboptions : List (Suboption view blocks)) : Prop where
  eq_of_name : ∀ s ∈ suboptions, ∀ t ∈ suboptions, s.name = t.name → s = t
  get_set : ∀ s ∈ suboptions, ∀ value b, s.getValue (s.setValue value b) = value
  get_set_of_ne : ∀ s ∈ suboptions, ∀ t ∈ suboptions, s.name ≠ t.name →
    ∀ value b, s.getValue (t.setValue value b) = s.getValue b

variable {suboptions : List (Suboption view blocks)}

theorem find?_names (option : Bytes) :
  (suboptions.map Suboption.name).find? (·.isPrefixOf option)
    = (recogniseSuboption suboptions option).map Suboption.name
  := List.find?_map

/-- What a line does to the value of a suboption. -/
theorem Separate.getValue_valueLine (h : Separate suboptions)
    {s : Suboption view blocks} (hs : s ∈ suboptions) (b : β) (line : Bytes) :
  s.getValue ((valueLine suboptions b line).getD b)
    = if (given (suboptions.map Suboption.name) s.name line).isSome then
        ((given (suboptions.map Suboption.name) s.name line).getD none).map Str.bytes
      else s.getValue b
  := by
  rw [given, valueLine]
  rcases subOptionParts line with _ | ⟨_ | option, _ | param⟩
  · rfl
  · rfl
  · rfl
  · rfl
  · simp only [Option.bind_some, valueParts, find?_names]
    cases hrecognise : recogniseSuboption suboptions option with
    | none => simp
    | some t =>
      have ht : t ∈ suboptions := List.mem_of_find?_eq_some hrecognise
      simp only [Option.map_some, Option.some_inj]
      cases Trailermatic.shorten param.bytes with
      | none => simp
      | some value =>
        by_cases hname : t.name = s.name
        · obtain rfl := h.eq_of_name t ht s hs hname
          simp [h.get_set t ht]
        · simp [hname, h.get_set_of_ne s hs t ht (Ne.symm hname)]

/-- A line that can be read loses nothing exactly if it is whole and the suboption that it
sets had no value. -/
theorem Separate.lineLost_eq_zero_iff (h : Separate suboptions) {b b' : β} {line : Bytes}
    (hline : valueLine suboptions b line = some b') :
  lineLost suboptions b line = 0
    ↔ Whole line ∧ ∀ s ∈ suboptions,
      (given (suboptions.map Suboption.name) s.name line).isSome → s.getValue b = none
  := by
  rw [valueLine] at hline
  simp only [lineLost, Whole, given]
  rcases hparts : subOptionParts line with _ | ⟨_ | option, _ | param⟩
  · simp
  · simp [partsLost]
  · simp [partsLost]
  · simp [partsLost]
  · rw [hparts] at hline
    simp only [Option.bind_some, valueParts, partsLost, find?_names, Option.elim_some] at hline ⊢
    cases hrecognise : recogniseSuboption suboptions option with
    | none => simp
    | some t =>
      have ht : t ∈ suboptions := List.mem_of_find?_eq_some hrecognise
      rw [hrecognise] at hline
      obtain ⟨value, hvalue, -⟩ := Option.map_eq_some_iff.mp hline
      rw [hvalue, Option.elim_some, Option.map_some]
      constructor
      · intro hlost
        constructor
        · rintro parts ⟨rfl⟩
          rfl
        · intro s hs hgiven
          split_ifs at hgiven with hname
          · obtain rfl := h.eq_of_name t ht s hs (Option.some.inj hname)
            simpa using hlost
          · cases hgiven
      · rintro ⟨-, hgiven⟩
        rw [hgiven t ht (by simp)]
        rfl

/-- A step of an entry that leaves it as it is where nothing can be read. -/
def entryStep (suboptions : List (Suboption view blocks)) (start : β) (b : Option β)
    (line : Bytes) : Option β :=
  some ((valueLine suboptions (b.getD start) line).getD (b.getD start))

theorem entryStep_eq {start : β} {b b' : Option β} {line : Bytes}
    (h : lazily start (valueLine suboptions) b line = some b') :
  entryStep suboptions start b line = b'
  := by
  obtain ⟨c, hc, rfl⟩ := Option.map_eq_some_iff.mp h
  rw [entryStep, hc]
  rfl

/-- The value of a suboption in an entry that may not be there yet. -/
def Suboption.current (s : Suboption view blocks) (start : β) (b : Option β) : Option Bytes :=
  s.getValue (b.getD start)

theorem Separate.current_entryStep (h : Separate suboptions) {s : Suboption view blocks}
    (hs : s ∈ suboptions) (start : β) (b : Option β) (line : Bytes) :
  s.current start (entryStep suboptions start b line)
    = if (given (suboptions.map Suboption.name) s.name line).isSome then
        ((given (suboptions.map Suboption.name) s.name line).getD none).map Str.bytes
      else s.current start b
  := by
  rw [entryStep, Suboption.current, Option.getD_some, h.getValue_valueLine hs]
  rfl

theorem given_eq_some_none_iff {value : Option (Option Str)} (h : value.isSome) :
  (value.getD none).map Str.bytes = none ↔ value = some none
  := by
  obtain ⟨v, rfl⟩ := Option.isSome_iff_exists.mp h
  rw [Option.getD_some, Option.map_eq_none_iff, Option.some_inj]

theorem givenOnce_iff {names : List Bytes} {name : Bytes} {lines : List Bytes} :
  GivenOnce names name lines
    ↔ lines.Pairwise fun line line' =>
      (given names name line).isSome → (given names name line').isSome →
        ((given names name line).getD none).map Str.bytes = none
  := by
  apply List.Pairwise.iff
  intro line line'
  apply forall_congr'
  intro hgiven
  rw [given_eq_some_none_iff hgiven]

theorem Separate.givenOnce_iff (h : Separate suboptions) {s : Suboption view blocks}
    (hs : s ∈ suboptions) {start : β} (hstart : s.getValue start = none) (lines : List Bytes) :
  Trace.Always (entryStep suboptions start)
      (fun b line => (given (suboptions.map Suboption.name) s.name line).isSome →
        s.current start b = none) none lines
    ↔ GivenOnce (suboptions.map Suboption.name) s.name lines
  := by
  rw [Owned.givenOnce_iff,
    ← Trace.always_empty_iff (h.current_entryStep hs start) (b := none) hstart]

/-- The entry has a value for a suboption in the end exactly if a line gives it one. -/
theorem Separate.used_iff (h : Separate suboptions) {s : Suboption view blocks}
    (hs : s ∈ suboptions) {start : β} (hstart : s.getValue start = none) {lines : List Bytes}
    (honce : GivenOnce (suboptions.map Suboption.name) s.name lines) :
  s.current start (lines.foldl (entryStep suboptions start) none) ≠ none
    ↔ ∃ line ∈ lines, ∃ value,
      given (suboptions.map Suboption.name) s.name line = some (some value)
  := by
  rw [Ne, Trace.foldl_empty_iff (h.current_entryStep hs start) (b := none) hstart
    (Owned.givenOnce_iff.mp honce)]
  push Not
  apply exists_congr
  intro line
  apply and_congr_right
  intro _
  cases given (suboptions.map Suboption.name) s.name line with
  | none => simp
  | some value => simp [Option.ne_none_iff_exists']

/-- An entry that can be read loses nothing exactly if it is tidy. -/
theorem Separate.entryLost_eq_zero_iff (h : Separate suboptions)
    {needed : Suboption view blocks} (hneeded : needed ∈ suboptions) {start : β}
    (hstart : ∀ s ∈ suboptions, s.getValue start = none) {unused : β → ℕ}
    (hunused : ∀ b, unused b = 0 ↔ needed.getValue b ≠ none) {add : β → δ → Option δ}
    {list list' : δ} {param : Bytes}
    (hentry : valueEntry start suboptions add list param = some list') :
  entryLost start suboptions unused param = 0
    ↔ ∀ lines, tokensOf param = some lines →
      TidyEntry (suboptions.map Suboption.name) needed.name lines
  := by
  obtain ⟨lines, htokens, hadd⟩ := Option.bind_eq_some_iff.mp hentry
  obtain ⟨c, hlines, -⟩ := Option.bind_eq_some_iff.mp hadd
  obtain ⟨b, hb⟩ : ∃ b, lines.foldlM (lazily start (valueLine suboptions)) none = some b := by
    have hfold := foldlM_lazily start (valueLine suboptions) none lines
    rw [Option.getD_none, hlines] at hfold
    obtain ⟨b, hb, -⟩ := Option.map_eq_some_iff.mp hfold
    exact ⟨b, hb⟩
  obtain ⟨rfl, halways⟩ := Trace.always_of_foldlM (fun _ _ _ => entryStep_eq) hb
  have hread : Trace.Always (entryStep suboptions start)
      (fun b line => lineLost suboptions (b.getD start) line = 0) none lines
      ↔ (∀ line ∈ lines, Whole line) ∧ ∀ s ∈ suboptions,
        GivenOnce (suboptions.map Suboption.name) s.name lines := by
    rw [Trace.always_congr_of halways (R := fun b line => Whole line ∧ ∀ s ∈ suboptions,
        (given (suboptions.map Suboption.name) s.name line).isSome → s.current start b = none)
      fun b line hline => ?_]
    · rw [Trace.always_and, Trace.always_const, Trace.always_forall_mem]
      apply and_congr_right
      intro _
      apply forall₂_congr
      intro s hs
      apply h.givenOnce_iff hs (hstart s hs)
    · obtain ⟨b', hb', -⟩ := Option.map_eq_some_iff.mp hline
      apply h.lineLost_eq_zero_iff hb'
  have hend : (lines.foldl (entryStep suboptions start) none).elim 0 unused = 0
      ↔ (lines ≠ [] → needed.current start (lines.foldl (entryStep suboptions start) none)
        ≠ none) := by
    rcases List.eq_nil_or_concat lines with rfl | ⟨before, last, rfl⟩
    · simp
    · rw [List.concat_eq_append, List.foldl_append]
      simp [entryStep, Suboption.current, hunused]
  rw [entryLost, htokens, Option.elim_some, hb, Option.elim_some, Nat.add_eq_zero_iff,
    foldLost_eq_zero_iff halways, hread, hend]
  simp only [Option.some_inj, forall_eq']
  constructor
  · rintro ⟨⟨hwhole, honce⟩, hused⟩
    exact ⟨hwhole, List.forall_mem_map.mpr honce, fun hne =>
      (h.used_iff hneeded (hstart needed hneeded) (honce needed hneeded)).mp (hused hne)⟩
  · rintro ⟨hwhole, honce, hused⟩
    have honce := List.forall_mem_map.mp honce
    exact ⟨⟨hwhole, honce⟩, fun hne =>
      (h.used_iff hneeded (hstart needed hneeded) (honce needed hneeded)).mpr (hused hne)⟩

end Entries

theorem separate_filter :
  Separate [pattern, useragent]
  where
    eq_of_name := by
      simp [pattern, useragent, text]
    get_set := by
      simp [pattern, useragent]
    get_set_of_ne := by
      simp [pattern, useragent]

theorem separate_feed :
  Separate [url, cookies]
  where
    eq_of_name := by
      simp [url, cookies, text]
    get_set := by
      simp [url, cookies]
    get_set_of_ne := by
      simp [url, cookies]

theorem filterLost_eq_zero_iff {filters filters' : List Trailermatic.Filter} {match_ : Bytes}
    (h : Trailermatic.parseFilter filters match_ = some filters') :
  filterLost match_ = 0
    ↔ ∀ lines, tokensOf match_ = some lines →
      TidyEntry [text "pattern", text "useragent"] (text "pattern") lines
  := by
  rw [parseFilter_eq_valueEntry] at h
  apply separate_filter.entryLost_eq_zero_iff List.mem_cons_self _ _ h
  · simp [pattern, useragent]
  · intro filter
    rw [unusedFilter]
    cases hpattern : filter.pattern with
    | none => simp [pattern, hpattern]
    | some p => simp [pattern, hpattern]

theorem feedLost_eq_zero_iff {pcre : Pcre} {feeds feeds' : List Trailermatic.RssFeed}
    {feedstr : Bytes} (h : Trailermatic.parseFeed pcre feeds feedstr = some feeds') :
  feedLost feedstr = 0
    ↔ ∀ lines, tokensOf feedstr = some lines →
      TidyEntry [text "url", text "cookies"] (text "url") lines
  := by
  rw [parseFeed_eq_valueEntry] at h
  apply separate_feed.entryLost_eq_zero_iff List.mem_cons_self _ _ h
  · simp [url, cookies]
  · intro feed
    rw [unusedFeed]
    cases hurl : feed.url with
    | none => simp [url, hurl]
    | some u => simp [url, hurl]

/-! ### Options -/

/-- Of the values that are given to a string, only the last one may be another than `NULL`. -/
def StringOnce (name : Bytes) (options : List (Bytes × Bytes × OptionType)) : Prop :=
  options.Pairwise fun o o' => o.1 = name → o'.1 = name → Trailermatic.amStrdup o.2.1 = none

/-- An option that is no feed or filter, or a tidy one. -/
structure TidyOption (o : Bytes × Bytes × OptionType) : Prop where
  feed : o.1 = text "feed" → ∀ lines, tokensOf o.2.1 = some lines →
    TidyEntry [text "url", text "cookies"] (text "url") lines
  filter : o.1 = text "filter" → ∀ lines, tokensOf o.2.1 = some lines →
    TidyEntry [text "pattern", text "useragent"] (text "pattern") lines

/-- The options of a configuration that loses nothing. -/
structure Tidy (options : List (Bytes × Bytes × OptionType)) : Prop where
  entries : ∀ o ∈ options, TidyOption o
  prowlKey : StringOnce (text "prowl-apikey") options
  downloadDoneScript : StringOnce (text "download-done-script") options

/-- The session after an option, which stays as it is where the behaviour is undefined. -/
def optionStep (pcre : Pcre) (home : Option Str) (s : Session)
    (o : Bytes × Bytes × OptionType) : Session :=
  (Trailermatic.setOption pcre home (some s) o.1 o.2.1 o.2.2).getD s

theorem optionStep_eq {pcre : Pcre} {home : Option Str} {s s' : Session}
    {o : Bytes × Bytes × OptionType}
    (h : Trailermatic.setOption pcre home (some s) o.1 o.2.1 o.2.2 = some s') :
  optionStep pcre home s o = s'
  := by
  rw [optionStep, h, Option.getD_some]

theorem get_optionStep (pcre : Pcre) (home : Option Str) (s : Session)
    {o : Bytes × Bytes × OptionType} {f : Field} (hf : optionField o.1 ≠ some f) :
  (optionStep pcre home s o).get f = s.get f
  := by
  cases ho : Trailermatic.setOption pcre home (some s) o.1 o.2.1 o.2.2 with
  | none => rw [optionStep, ho, Option.getD_none]
  | some s' => rw [optionStep_eq ho, get_setOption ho hf]

theorem prowlKey_optionStep (pcre : Pcre) (home : Option Str) (s : Session)
    (o : Bytes × Bytes × OptionType) :
  (optionStep pcre home s o).prowlKey
    = if o.1 = text "prowl-apikey" then Trailermatic.amStrdup o.2.1 else s.prowlKey
  := by
  split_ifs with hkey
  · rw [optionStep, hkey]
    rfl
  · apply get_optionStep pcre home s (f := .prowlKey)
    rw [optionField]
    split_ifs <;> simp

theorem downloadDoneScript_optionStep (pcre : Pcre) (home : Option Str) (s : Session)
    (o : Bytes × Bytes × OptionType) :
  (optionStep pcre home s o).downloadDoneScript
    = if o.1 = text "download-done-script" then Trailermatic.amStrdup o.2.1
      else s.downloadDoneScript
  := by
  split_ifs with hscript
  · rw [optionStep, hscript]
    rfl
  · apply get_optionStep pcre home s (f := .downloadDoneScript)
    rw [optionField]
    split_ifs <;> simp

theorem optionLost_eq_zero_iff (s : Session) (opt param : Bytes) :
  optionLost s opt param = 0
    ↔ (opt = text "feed" → feedLost param = 0) ∧ (opt = text "filter" → filterLost param = 0)
      ∧ (opt = text "prowl-apikey" → s.prowlKey = none)
      ∧ (opt = text "download-done-script" → s.downloadDoneScript = none)
  := by
  rw [optionLost]
  split_ifs with hfeed hfilter hkey hscript
  · simp [hfeed, text]
  · simp [hfilter, text]
  · simp [hkey, text]
  · simp [hscript, text]
  · simp [*]

/-- An option that can be read loses nothing exactly if it is tidy and sets no string again. -/
theorem optionLost_eq_zero_iff_of_set {pcre : Pcre} {home : Option Str} {s s' : Session}
    {o : Bytes × Bytes × OptionType}
    (h : Trailermatic.setOption pcre home (some s) o.1 o.2.1 o.2.2 = some s') :
  optionLost s o.1 o.2.1 = 0
    ↔ TidyOption o ∧ (o.1 = text "prowl-apikey" → s.prowlKey = none)
      ∧ (o.1 = text "download-done-script" → s.downloadDoneScript = none)
  := by
  have hfeed (hname : o.1 = text "feed") : feedLost o.2.1 = 0
      ↔ ∀ lines, tokensOf o.2.1 = some lines →
        TidyEntry [text "url", text "cookies"] (text "url") lines := by
    rw [hname] at h
    obtain ⟨feeds, hfeeds, -⟩ := Option.map_eq_some_iff.mp h
    apply feedLost_eq_zero_iff hfeeds
  have hfilter (hname : o.1 = text "filter") : filterLost o.2.1 = 0
      ↔ ∀ lines, tokensOf o.2.1 = some lines →
        TidyEntry [text "pattern", text "useragent"] (text "pattern") lines := by
    rw [hname] at h
    obtain ⟨filters, hfilters, -⟩ := Option.map_eq_some_iff.mp h
    apply filterLost_eq_zero_iff hfilters
  rw [optionLost_eq_zero_iff, forall_congr' hfeed, forall_congr' hfilter, ← and_assoc]
  apply and_congr_left'
  constructor
  · rintro ⟨hfeed, hfilter⟩
    exact ⟨hfeed, hfilter⟩
  · rintro ⟨hfeed, hfilter⟩
    exact ⟨hfeed, hfilter⟩

/-- Options that can be read lose nothing exactly if they are tidy. -/
theorem callsLost_eq_zero_iff {pcre : Pcre} {home : Option Str} {s s' : Session}
    {calls : List (Bytes × Bytes × OptionType)} (hkey : s.prowlKey = none)
    (hscript : s.downloadDoneScript = none)
    (h : applyCalls (Trailermatic.setOption pcre home) (some s) calls = some s') :
  callsLost pcre home s calls = 0 ↔ Tidy calls
  := by
  have hstep : ∀ s (o : Bytes × Bytes × OptionType) s',
      Trailermatic.setOption pcre home (some s) o.1 o.2.1 o.2.2 = some s' →
        optionStep pcre home s o = s' := fun _ _ _ => optionStep_eq
  rw [applyCalls_eq_foldlM (setOption_eq_bind pcre home)] at h
  obtain ⟨-, halways⟩ := Trace.always_of_foldlM hstep h
  rw [callsLost, foldLost_eq_zero_iff halways,
    Trace.always_congr_of halways fun s o ho => optionLost_eq_zero_iff_of_set ho,
    Trace.always_and, Trace.always_and, Trace.always_const,
    Trace.always_empty_iff (prowlKey_optionStep pcre home) hkey,
    Trace.always_empty_iff (downloadDoneScript_optionStep pcre home) hscript]
  constructor
  · rintro ⟨hentries, hkeys, hscripts⟩
    exact ⟨hentries, hkeys, hscripts⟩
  · rintro ⟨hentries, hkeys, hscripts⟩
    exact ⟨hentries, hkeys, hscripts⟩

/-- The options that a configuration file sets, in their order. -/
def optionsOf (file : Option Bytes) (beyond : Bytes) : List (Bytes × Bytes × OptionType) :=
  (Trailermatic.parseConfigFile record file beyond []).elim [] Parsed.state

/-- A configuration that can be read loses nothing exactly if its options are tidy. -/
theorem configureLost_eq_zero_iff {pcre : Pcre} {tempFolder : Str} {home : Option Str}
    {matchOnly : Bool} {file : Option Bytes} {beyond : Bytes} {ret : ℤ} {s : Session}
    (h : Trailermatic.configure pcre tempFolder home matchOnly file beyond = some (ret, s)) :
  configureLost pcre tempFolder home matchOnly file beyond = 0 ↔ Tidy (optionsOf file beyond)
  := by
  obtain ⟨s₀, hinit, h⟩ := Option.bind_eq_some_iff.mp h
  obtain ⟨parsed, hparse, h⟩ := Option.bind_eq_some_iff.mp h
  obtain ⟨s', hstate, hs'⟩ := Option.map_eq_some_iff.mp h
  rw [parseConfigFile_calls] at hparse
  obtain ⟨recorded, hrecorded, rfl⟩ := Option.map_eq_some_iff.mp hparse
  rw [configureLost, hinit, Option.elim_some, configLost, optionsOf, hrecorded, Option.elim_some,
    Option.elim_some]
  rw [Trailermatic.sessionInit] at hinit
  split_ifs at hinit
  obtain ⟨statefile, -, rfl⟩ := Option.map_eq_some_iff.mp hinit
  exact callsLost_eq_zero_iff rfl rfl hstate

end Owned

/-- All the memory of a session has been freed at shutdown, with the history that there is by
then, exactly if the options of the configuration are tidy: no key and no script is set again,
and no filter and no feed has a line with a name only or a value only, a suboption that is set
again, or lines but no pattern or no URL. -/
theorem session_released_iff {pcre : Pcre} {tempFolder : Str} {home : Option Str}
    {matchOnly : Bool} {file : Option Bytes} {beyond : Bytes} {ret : ℤ} {s : Session}
    (h : configure pcre tempFolder home matchOnly file beyond = some (ret, s)) (heap : Ledger) :
  ∃ as heap₁,
    Owned.configure pcre tempFolder home matchOnly file beyond heap = some ((ret, as), heap₁)
    ∧ ∀ downloads heap₂, heap₁.Keeps heap₂ (downloads.flatMap Owned.cellBlocks) →
      ∃ heap₃, Owned.sessionFree { as with downloads := downloads } heap₂ = some ((), heap₃)
        ∧ (heap.Balanced heap₃ ↔ Owned.Tidy (Owned.optionsOf file beyond))
  := by
  have hconfigure := Owned.realizes_configure pcre tempFolder home matchOnly file beyond
  rw [h] at hconfigure
  obtain ⟨⟨⟨ret', as⟩, heap₁⟩, hrun, hview, hpasses⟩ := hconfigure.exists_run heap
  obtain ⟨rfl, rfl⟩ := Prod.mk.inj hview
  refine ⟨as, heap₁, hrun, ?_⟩
  intro downloads heap₂ hbetween
  rw [← List.append_nil (downloads.flatMap _)] at hbetween
  obtain ⟨heap₃, hfree, lost, hkeeps, hlength⟩ := Owned.exists_sessionFree
    (List.map_eq_nil_iff.mp (downloads_configure h)) hpasses hbetween
  refine ⟨heap₃, hfree, ?_⟩
  rw [List.append_nil] at hkeeps
  rw [hkeeps.balanced_iff, ← List.length_eq_zero_iff, hlength,
    Owned.configureLost_eq_zero_iff h]

/-- A feed with cookies, a filter, and a key. -/
def frugal : Bytes :=
  text "feed=\x7burl => \"a\"\ncookies => \"b\"\x7d\nfilter=\x7bpattern => \"m\"\x7d\n"
    ++ text "prowl-apikey=\"k\"\n"

theorem session_released_frugal :
  ∃ (as : Owned.AutoHandle) (heap₁ heap₃ : Ledger),
    Owned.configure .plain ⟨text "/t", by decide, by decide⟩ none false (some frugal) (text "x")
        .empty = some ((0, as), heap₁)
      ∧ Owned.sessionFree { as with downloads := [] } heap₁ = some ((), heap₃)
      ∧ Ledger.empty.Balanced heap₃
  := by
  obtain ⟨s, hs⟩ : ∃ s, configure .plain ⟨text "/t", by decide, by decide⟩ none false
      (some frugal) (text "x") = some (0, s) := ⟨_, rfl⟩
  have htidy : Owned.Tidy (Owned.optionsOf (some frugal) (text "x")) := by
    rw [← Owned.configureLost_eq_zero_iff hs]
    decide +kernel
  obtain ⟨as, heap₁, hconfigure, hfree⟩ := session_released_iff hs .empty
  obtain ⟨heap₃, hrun, hbalanced⟩ := hfree [] heap₁ (Ledger.Balanced.refl heap₁)
  exact ⟨as, heap₁, heap₃, hconfigure, hrun, hbalanced.mpr htidy⟩

end Trailermatic
