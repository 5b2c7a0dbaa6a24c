import Trailermatic.Config.Options
import Trailermatic.Library.Trace

/-!
# What a parameter can make of a filter

A filter is whole if it has no agent or holds no closing brace.  `setOption_whole` says that
a parameter without a closing brace, or of only one part, makes whole filters only.
-/

namespace Trailermatic

/-! ### The bytes of a parameter -/

theorem mem_of_mem_splitArrow {b : Byte} {line before after : Bytes}
    (h : splitArrow line = some (before, after)) (hb : b ∈ after) :
  b ∈ line
  := by
  rw [eq_of_splitArrow h]
  apply List.mem_append_right
  exact List.mem_cons_of_mem _ (List.mem_cons_of_mem _ hb)

theorem mem_of_mem_parseSubOption {b : Byte} {line option : Bytes} {param : Str}
    (h : parseSubOption line = some (some (option, param))) (hb : b ∈ param.bytes) :
  b ∈ line
  := by
  rw [parseSubOption] at h
  split at h
  · cases h
  · cases h
  · rename_i before after hne hsplit
    obtain ⟨u, hu, heq⟩ := Option.map_eq_some_iff.mp (Option.some.inj h)
    cases heq
    rw [bytes_of_amStrdup hu] at hb
    apply mem_of_mem_splitArrow hsplit ((cstr_initial _).subset hb)

/-! ### Filters -/

/-- What a line can do to a filter: nothing, or set its pattern or its agent to what the
parameter is shortened to. -/
theorem parseFilterLine_cases {f f' : Filter} {line : Bytes}
    (h : parseFilterLine f line = some f') :
  f' = f ∨ ∃ option param u, parseSubOption line = some (some (option, param))
    ∧ shorten param.bytes = some u
    ∧ (f' = { f with pattern := u.map Str.bytes } ∨ f' = { f with agent := u.map Str.bytes })
  := by
  rw [parseFilterLine] at h
  split at h
  · cases h
  · cases h
    left
    rfl
  · rename_i option param hsub
    split_ifs at h
    · obtain ⟨u, hu, rfl⟩ := Option.map_eq_some_iff.mp h
      right
      exact ⟨option, param, u, hsub, hu, Or.inl rfl⟩
    · obtain ⟨u, hu, rfl⟩ := Option.map_eq_some_iff.mp h
      right
      exact ⟨option, param, u, hsub, hu, Or.inr rfl⟩
    · cases h
      left
      rfl

/-- No part of the filter holds the closing brace. -/
def Filter.BraceFree (f : Filter) : Prop :=
  (∀ x ∈ f.pattern, closeBrace ∉ x) ∧ ∀ x ∈ f.agent, closeBrace ∉ x

/-- A filter that has no agent, or that holds no closing brace. -/
def Filter.Whole (f : Filter) : Prop :=
  f.agent = none ∨ f.BraceFree

theorem closeBrace_notMem_shorten {str x : Bytes} {u : Option Str} (h : closeBrace ∉ str)
    (hu : shorten str = some u) (hx : x ∈ u.map Str.bytes) :
  closeBrace ∉ x
  := by
  obtain ⟨v, rfl, rfl⟩ := Option.map_eq_some_iff.mp hx
  intro hb
  rcases mem_of_mem_shorten hu hb with hmem | heq
  · apply h hmem
  · cases heq

/-- A line without a closing brace brings none into a filter. -/
theorem parseFilterLine_braceFree {f f' : Filter} {line : Bytes} (hf : f.BraceFree)
    (hline : closeBrace ∉ line) (h : parseFilterLine f line = some f') :
  f'.BraceFree
  := by
  rcases parseFilterLine_cases h with rfl | ⟨option, param, u, hsub, hu, rfl | rfl⟩
  · apply hf
  · have hparam : closeBrace ∉ param.bytes := fun hb => hline (mem_of_mem_parseSubOption hsub hb)
    exact ⟨fun x hx => closeBrace_notMem_shorten hparam hu hx, hf.2⟩
  · have hparam : closeBrace ∉ param.bytes := fun hb => hline (mem_of_mem_parseSubOption hsub hb)
    exact ⟨hf.1, fun x hx => closeBrace_notMem_shorten hparam hu hx⟩

theorem parseFilterLines_braceFree {f f' : Filter} {lines : List Bytes} (hf : f.BraceFree)
    (hlines : ∀ line ∈ lines, closeBrace ∉ line) (h : lines.foldlM parseFilterLine f = some f') :
  f'.BraceFree
  := by
  apply Trace.foldlM_invariant _ hf h
  intro g line hline g' hg
  apply parseFilterLine_braceFree hg (hlines line hline)

/-- One line gives a filter a pattern or an agent. -/
theorem parseFilterLine_single {f : Filter} {line : Bytes}
    (h : parseFilterLine ⟨none, none⟩ line = some f) :
  f.pattern = none ∨ f.agent = none
  := by
  rcases parseFilterLine_cases h with rfl | ⟨option, param, u, hsub, hu, rfl | rfl⟩
  · left
    rfl
  · right
    rfl
  · left
    rfl

theorem mem_tokens_of_mem {b : Byte} {str line : Bytes}
    (hline : line ∈ Tokens.tokens (· == delimiter) str) (hb : b ∈ line) :
  b ∈ str
  := by
  have hsub := Tokens.sublist_tokensFrom (· == delimiter) hline
  apply hsub.subset hb

/-- Parameters that make whole filters. -/
def MakesWhole (param : Bytes) : Prop :=
  closeBrace ∉ param ∨ SinglePart param

/-- The filter that the lines of a parameter make. -/
theorem parseFilterLines_whole {f : Filter} {param : Bytes} {str : Str} {lines : List Bytes}
    (hparam : MakesWhole param) (hstr : shorten param = some (some str))
    (hlines : strtok (some str) = some lines)
    (hf : lines.foldlM parseFilterLine ⟨none, none⟩ = some f) :
  f.pattern = none ∨ f.Whole
  := by
  obtain rfl : Tokens.tokens (· == delimiter) str.bytes = lines := Option.some.inj hlines
  rcases hparam with hbrace | hsingle
  · right; right
    have hnone : (⟨none, none⟩ : Filter).BraceFree := by
      constructor
      · rintro x ⟨⟩
      · rintro x ⟨⟩
    apply parseFilterLines_braceFree hnone _ hf
    intro line hline hb
    rcases mem_of_mem_shorten hstr (mem_tokens_of_mem hline hb) with hmem | heq
    · apply hbrace hmem
    · cases heq
  · have hone : Tokens.tokens (· == delimiter) str.bytes = [str.bytes] := by
      apply Tokens.tokens_of_forall _ str.ne_nil
      intro b hb
      rw [beq_eq_false_iff_ne]
      rintro rfl
      rw [shorten] at hstr
      split_ifs at hstr
      rw [bytes_of_amStrdup (Option.some.inj hstr)] at hb
      apply hsingle ((cstr_initial _).subset hb)
    rw [hone, List.foldlM_cons] at hf
    obtain ⟨g, hg, hnil⟩ := Option.bind_eq_some_iff.mp hf
    cases hnil
    rcases parseFilterLine_single hg with hpattern | hagent
    · left
      apply hpattern
    · right; left
      apply hagent

theorem parseFilter_whole {filters filters' : List Filter} {param : Bytes}
    (hparam : MakesWhole param) (h : parseFilter filters param = some filters')
    (hfilters : ∀ f ∈ filters, f.Whole) :
  ∀ f ∈ filters', f.Whole
  := by
  obtain ⟨str, hstr, h₁⟩ := Option.bind_eq_some_iff.mp h
  obtain ⟨lines, hlines, h₂⟩ := Option.bind_eq_some_iff.mp h₁
  obtain ⟨f, hf, h₃⟩ := Option.bind_eq_some_iff.mp h₂
  cases str with
  | none => cases hlines
  | some str =>
    have hwhole := parseFilterLines_whole hparam hstr hlines hf
    obtain rfl := Option.some.inj h₃
    split_ifs with hpattern
    · intro g hg
      rcases List.mem_cons.mp hg with rfl | hg
      · rcases hwhole with hnone | hwhole
        · rw [hnone] at hpattern
          cases hpattern
        · apply hwhole
      · apply hfilters g hg
    · apply hfilters

theorem addPatternsOld_whole {filters filters' : List Filter} {param : Bytes}
    (h : addPatternsOld filters param = some filters') (hfilters : ∀ f ∈ filters, f.Whole) :
  ∀ f ∈ filters', f.Whole
  := by
  have hfold (patterns : List Bytes) : ∀ filters : List Filter, (∀ f ∈ filters, f.Whole) →
      ∀ f ∈ patterns.foldl (fun filters p => addItem (some ⟨some p, none⟩) filters) filters,
        f.Whole := by
    induction patterns with
    | nil => exact fun _ hfilters => hfilters
    | cons p patterns ih =>
      intro filters hfilters
      apply ih
      intro f hf
      rcases List.mem_cons.mp hf with rfl | hf
      · left
        rfl
      · apply hfilters f hf
  obtain ⟨str, -, h₁⟩ := Option.bind_eq_some_iff.mp h
  obtain ⟨patterns, -, h₂⟩ := Option.bind_eq_some_iff.mp h₁
  obtain rfl := Option.some.inj h₂
  apply hfold patterns filters hfilters

/-! ### The options -/

/-- All filters of the session are whole, if there is a session. -/
def AllWhole (state : Option Session) : Prop :=
  ∀ s ∈ state, ∀ f ∈ s.filters, f.Whole

/-- What an option can do to the filters. -/
theorem setOption_filters {pcre : Pcre} {home : Option Str} {s s' : Session} {opt param : Bytes}
    {type : OptionType} (h : setOption pcre home (some s) opt param type = some s') :
  s'.filters = s.filters ∨ addPatternsOld s.filters param = some s'.filters
    ∨ parseFilter s.filters param = some s'.filters
  := by
  cases effect_of_setOption h with
  | patterns _ hfilters =>
    right; left
    apply hfilters
  | filter _ hfilters =>
    right; right
    apply hfilters
  | url | feed | downloadFolder | statefile | interval | prowlKey | downloadDoneScript | none =>
    left
    rfl

/-- An option whose parameter makes whole filters leaves all filters whole. -/
theorem setOption_whole {pcre : Pcre} {home : Option Str} {state : Option Session}
    {opt param : Bytes} {type : OptionType} (hparam : MakesWhole param)
    (hstate : AllWhole state) :
  AllWhole (setOption pcre home state opt param type)
  := by
  intro s' h
  obtain ⟨s, rfl⟩ : ∃ s, state = some s := by
    cases state with
    | none => cases h
    | some s => use s
  have hfilters := hstate s rfl
  rcases setOption_filters h with heq | hpatterns | hfilter
  · rw [heq]
    apply hfilters
  · apply addPatternsOld_whole hpatterns hfilters
  · apply parseFilter_whole hparam hfilter hfilters

end Trailermatic
