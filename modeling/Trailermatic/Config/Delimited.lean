import Trailermatic.Config.Filters
import Trailermatic.Config.Segments
import Trailermatic.Config.Whole

/-!
# The delimiter within a text

The delimiter that `shorten` puts between segments is a byte that UTF-8 uses as well.  A
text that holds it is taken apart with the lines, and what is read of it is shorter than
the text.  `parseFilter_filterText_iff` says that just the texts without the delimiter are
read as they are written.
-/

namespace Trailermatic

/-- A filter as two lines of text. -/
def filterText (pattern agent : Bytes) : Bytes :=
  text "pattern => \"" ++ pattern ++ text "\"\nuseragent => \"" ++ agent ++ text "\""

/-- The two lines. -/
def patternLine (pattern : Bytes) : Bytes :=
  quotedSubOption (text "pattern") pattern [doubleQuote]

/-- The line of a block that sets the agent. -/
def agentLine (agent : Bytes) : Bytes :=
  quotedSubOption (text "useragent") agent [doubleQuote]

theorem filterText_eq (pattern agent : Bytes) :
  filterText pattern agent = patternLine pattern ++ newline :: agentLine agent
  := by
  have hpattern : text "pattern => \""
      = text "pattern" ++ [32] ++ equals :: 62 :: [32, doubleQuote] := by
    decide
  have hagent : text "\"\nuseragent => \"" = doubleQuote :: newline ::
      (text "useragent" ++ [32] ++ equals :: 62 :: [32, doubleQuote]) := by
    decide
  have hend : text "\"" = [doubleQuote] := by decide
  rw [filterText, hpattern, hagent, hend]
  simp [patternLine, agentLine, quotedSubOption, quotedParam]

variable {pattern agent : Bytes}

theorem newline_notMem_quotedSubOption {option q : Bytes} (hq : Quotable q)
    (hoption : newline ∉ option) :
  newline ∉ quotedSubOption option q [doubleQuote]
  := by
  simp only [quotedSubOption, quotedParam, List.mem_append, List.mem_cons, not_or,
    List.not_mem_nil, not_false_iff, and_true]
  exact ⟨⟨hoption, by decide⟩, by decide, by decide, by decide, by decide, hq.newline_notMem,
    by decide⟩

theorem segments_filterText (hpattern : Quotable pattern) (hagent : Quotable agent) :
  segments (filterText pattern agent) = [patternLine pattern, agentLine agent]
  := by
  have hfirst : newline ∉ patternLine pattern :=
    newline_notMem_quotedSubOption hpattern (by decide)
  have hsecond : newline ∉ agentLine agent := newline_notMem_quotedSubOption hagent (by decide)
  obtain ⟨line, hline⟩ : ∃ line, patternLine pattern = 112 :: line := ⟨_, rfl⟩
  obtain ⟨line', hline'⟩ : ∃ line, agentLine agent = 117 :: line := ⟨_, rfl⟩
  rw [segments, filterText_eq]
  rw [hline] at hfirst ⊢
  rw [hline'] at hsecond ⊢
  have hskip : skipSpaces (112 :: line ++ newline :: 117 :: line')
      = 112 :: line ++ newline :: 117 :: line' := rfl
  have hnext : skipSpaces (newline :: 117 :: line') = 117 :: line' := rfl
  have hrest := segment_line rfl hfirst (117 :: line')
  rw [List.cons_append] at hrest
  rw [hskip, List.cons_append, segmentsLoop_segment [] hrest, hnext,
    segmentsLoop_segment _ (segment_rest (by rintro ⟨⟩) hsecond)]
  apply segmentsLoop_nil

theorem nul_notMem_filterText (hpattern : Quotable pattern) (hagent : Quotable agent) :
  (0 : Byte) ∉ filterText pattern agent
  := by
  simp only [filterText, List.mem_append, not_or]
  exact ⟨⟨⟨⟨by decide, hpattern.nul_notMem⟩, by decide⟩, hagent.nul_notMem⟩, by decide⟩

/-- The lines that `parseFilter` reads. -/
theorem strtok_filterText (hpattern : Quotable pattern) (hagent : Quotable agent)
    (h : (filterText pattern agent).length ≤ MAX_PARAM_LEN) :
  (shorten (filterText pattern agent)).bind strtok
    = some (Tokens.tokens (· == delimiter) (patternLine pattern)
      ++ Tokens.tokens (· == delimiter) (agentLine agent))
  := by
  have hjoined : joined [patternLine pattern, agentLine agent]
      = patternLine pattern ++ delimiter :: agentLine agent := rfl
  have hnul : (0 : Byte) ∉ patternLine pattern ++ delimiter :: agentLine agent := by
    rw [← hjoined, ← segments_filterText hpattern hagent]
    apply notMem_joined (nul_notMem_filterText hpattern hagent) (by decide)
  rw [shorten_eq_joined h, segments_filterText hpattern hagent, hjoined, Option.bind_some,
    amStrdup, Str.ofBytes]
  simp only [cstr_of_notMem hnul]
  rw [dif_neg (by rintro ⟨⟩), strtok, Option.map_some,
    Tokens.tokens_append_cons (· == delimiter) _ (beq_self_eq_true delimiter)]

/-! ### What a line can make of a filter -/

theorem length_shorten {str : Bytes} {u : Str} (h : shorten str = some (some u)) :
  u.bytes.length ≤ str.length
  := by
  rw [shorten] at h
  split_ifs at h
  rw [bytes_of_amStrdup (Option.some.inj h), shortenLoop_eq]
  apply (cstr_initial _).length_le.trans (length_joined_le str)

/-- What a line sets is shorter than the line. -/
theorem parseFilterLine_shorter {filter filter' : Filter} {line : Bytes} {n : ℕ}
    (hline : line.length ≤ n) (h : parseFilterLine filter line = some filter') :
  ((∀ u ∈ filter.pattern, u.length < n) → ∀ u ∈ filter'.pattern, u.length < n)
    ∧ ((∀ u ∈ filter.agent, u.length < n) → ∀ u ∈ filter'.agent, u.length < n)
  := by
  rcases parseFilterLine_cases h with rfl | ⟨option, param, u, hsub, hu, hset⟩
  · exact ⟨id, id⟩
  · have hshorter : ∀ v ∈ u.map Str.bytes, v.length < n := by
      intro v hv
      obtain ⟨w, rfl, rfl⟩ := Option.map_eq_some_iff.mp hv
      have hparam := length_parseSubOption hsub
      have hvalue := length_shorten hu
      omega
    rcases hset with rfl | rfl
    · exact ⟨fun _ => hshorter, id⟩
    · exact ⟨id, fun _ => hshorter⟩

/-- A text with the delimiter is taken apart: the first line has a part of it, and the
others are not longer than the text. -/
theorem tokens_quotedSubOption {option q : Bytes} (hoption : delimiter ∉ option)
    (hq : Quotable q) (hdelimiter : delimiter ∈ q) :
  ∃ q₁ rest, q₁.length < q.length ∧ Quotable q₁
    ∧ Tokens.tokens (· == delimiter) (quotedSubOption option q [doubleQuote])
      = quotedSubOption option q₁ [] :: rest
    ∧ ∀ t ∈ rest, t.length ≤ q.length
  := by
  obtain ⟨q₁, q₂, rfl, hfresh⟩ := List.eq_append_cons_of_mem hdelimiter
  have hinitial : q₁ ⊆ q₁ ++ delimiter :: q₂ := List.subset_append_left q₁ _
  have hfirst : ∀ b ∈ quotedSubOption option q₁ [], (b == delimiter) = false := by
    intro b hb
    rw [beq_eq_false_iff_ne]
    rintro rfl
    simp only [quotedSubOption, quotedParam, List.append_nil, List.mem_append,
      List.mem_cons] at hb
    rcases hb with (hb | hb) | hb | hb | hb | hb | hb
    · exact hoption hb
    · revert hb
      decide
    · cases hb
    · cases hb
    · cases hb
    · cases hb
    · exact hfresh hb
  refine ⟨q₁, Tokens.tokens (· == delimiter) (q₂ ++ [doubleQuote]), ?_, ?_, ?_, ?_⟩
  · rw [List.length_append, List.length_cons]
    omega
  · exact ⟨fun h => hq.nul_notMem (hinitial h), fun h => hq.newline_notMem (hinitial h),
      fun h => hq.doubleQuote_notMem (hinitial h)⟩
  · have hsplit : quotedSubOption option (q₁ ++ delimiter :: q₂) [doubleQuote]
        = quotedSubOption option q₁ [] ++ delimiter :: (q₂ ++ [doubleQuote]) := by
      simp [quotedSubOption, quotedParam]
    rw [hsplit, Tokens.tokens_append_cons (· == delimiter) _ (beq_self_eq_true delimiter),
      Tokens.tokens_of_forall (· == delimiter) (by simp [quotedSubOption]) hfirst]
    rfl
  · intro t ht
    have hlength := (Tokens.sublist_tokensFrom (· == delimiter) ht).length_le
    simp only [List.nil_append, List.length_append, List.length_cons, List.length_nil] at hlength ⊢
    omega

/-! ### Filters -/

/-- A filter that all lines together have made is the one that is added. -/
theorem parseFilterReturn_eq_iff {filters : List Filter} {match_ : Bytes} {filter : Filter}
    (hpattern : filter.pattern.isSome) :
  parseFilterReturn filters match_ = some (SUCCESS, filter :: filters)
    ↔ ((shorten match_).bind strtok).bind (List.foldlM parseFilterLine ⟨none, none⟩)
      = some filter
  := by
  rw [parseFilterReturn]
  cases shorten match_ with
  | none => simp
  | some str =>
    simp only [bind, Option.bind]
    cases strtok str with
    | none => simp
    | some lines =>
      simp only
      cases lines.foldlM parseFilterLine ⟨none, none⟩ with
      | none => simp
      | some filter' =>
        simp only [pure, Option.some.injEq]
        split_ifs with hpattern'
        · have hadd : addItem (some filter') filters = filter' :: filters := rfl
          simp [hadd]
        · constructor
          · intro h
            cases congrArg Prod.fst h
          · rintro rfl
            exact absurd hpattern hpattern'

/-- Where a text with the delimiter is read, the filter is left with a shorter one. -/
theorem shorter_of_delimiter (get : Filter → Option Bytes) {option q : Bytes}
    (hoption : delimiter ∉ option)
    (hset : ∀ filter q₁, Quotable q₁ → q₁.length ≤ q.length →
      ∃ filter', parseFilterLine filter (quotedSubOption option q₁ []) = some filter'
        ∧ get filter' = if q₁ = [] then none else some q₁)
    (hkeep : ∀ filter filter' line, line.length ≤ q.length →
      parseFilterLine filter line = some filter' →
      (∀ u ∈ get filter, u.length < q.length) → ∀ u ∈ get filter', u.length < q.length)
    (hq : Quotable q) (hdelimiter : delimiter ∈ q) {filter filter' : Filter}
    (h : (Tokens.tokens (· == delimiter) (quotedSubOption option q [doubleQuote])).foldlM
      parseFilterLine filter = some filter') :
  get filter' ≠ some q
  := by
  obtain ⟨q₁, rest, hshorter, hq₁, htokens, hrest⟩ := tokens_quotedSubOption hoption hq hdelimiter
  obtain ⟨filter₁, hfirst, hget⟩ := hset filter q₁ hq₁ hshorter.le
  rw [htokens, List.foldlM_cons, hfirst] at h
  have hstart : ∀ u ∈ get filter₁, u.length < q.length := by
    intro u hu
    rw [hget] at hu
    split_ifs at hu
    · cases hu
    · cases hu
      apply hshorter
  have hlast : ∀ u ∈ get filter', u.length < q.length := by
    apply Trace.foldlM_invariant (I := fun filter => ∀ u ∈ get filter, u.length < q.length)
      _ hstart h
    intro filter line hline filter' hinv hfilter
    apply hkeep filter filter' line (hrest line hline) hfilter hinv
  intro hsome
  apply lt_irrefl _ (hlast q hsome)

theorem pattern_of_delimiter (hpattern : Quotable pattern)
    (hlength : pattern.length ≤ MAX_PARAM_LEN) (hdelimiter : delimiter ∈ pattern)
    {filter filter' : Filter}
    (h : (Tokens.tokens (· == delimiter) (patternLine pattern)).foldlM parseFilterLine filter
      = some filter') :
  filter'.pattern ≠ some pattern
  := by
  apply shorter_of_delimiter Filter.pattern (by decide) _ _ hpattern hdelimiter h
  · intro filter q₁ hq₁ hle
    exact ⟨_, parseFilterLine_pattern hq₁ (Or.inl rfl) filter (hle.trans hlength), rfl⟩
  · intro filter filter' line hline hfilter
    apply (parseFilterLine_shorter hline hfilter).1

theorem agent_of_delimiter (hagent : Quotable agent) (hlength : agent.length ≤ MAX_PARAM_LEN)
    (hdelimiter : delimiter ∈ agent) {filter filter' : Filter}
    (h : (Tokens.tokens (· == delimiter) (agentLine agent)).foldlM parseFilterLine filter
      = some filter') :
  filter'.agent ≠ some agent
  := by
  apply shorter_of_delimiter Filter.agent (by decide) _ _ hagent hdelimiter h
  · intro filter q₁ hq₁ hle
    exact ⟨_, parseFilterLine_agent hq₁ (Or.inl rfl) filter (hle.trans hlength), rfl⟩
  · intro filter filter' line hline hfilter
    apply (parseFilterLine_shorter hline hfilter).2

/-- A suboption without the delimiter is one line. -/
theorem tokens_of_notMem {option q : Bytes} (hoption : delimiter ∉ option)
    (hdelimiter : delimiter ∉ q) :
  Tokens.tokens (· == delimiter) (quotedSubOption option q [doubleQuote])
    = [quotedSubOption option q [doubleQuote]]
  := by
  apply Tokens.tokens_of_forall _ (by simp [quotedSubOption])
  intro b hb
  rw [beq_eq_false_iff_ne]
  rintro rfl
  simp only [quotedSubOption, quotedParam, List.append_assoc, List.cons_append, List.nil_append,
    List.mem_append, List.mem_cons, List.not_mem_nil, hoption, hdelimiter, or_false, false_or]
    at hb
  revert hb
  decide

/-- A filter is read as it is written if and only if neither of its texts holds the byte
that `shorten` puts between lines. -/
theorem parseFilter_filterText_iff (filters : List Filter) (hpattern : Quotable pattern)
    (hagent : Quotable agent) (hpatternNe : pattern ≠ []) (hagentNe : agent ≠ [])
    (h : (filterText pattern agent).length < MAX_PARAM_LEN) :
  parseFilterReturn filters (filterText pattern agent)
      = some (SUCCESS, ⟨some pattern, some agent⟩ :: filters)
    ↔ delimiter ∉ pattern ∧ delimiter ∉ agent
  := by
  have hlength : pattern.length ≤ MAX_PARAM_LEN ∧ agent.length ≤ MAX_PARAM_LEN := by
    rw [filterText] at h
    simp only [List.length_append] at h
    omega
  rw [parseFilterReturn_eq_iff rfl, strtok_filterText hpattern hagent h.le, Option.bind_some,
    List.foldlM_append]
  constructor
  · intro hfold
    obtain ⟨filter₁, hfirst, hsecond⟩ := Option.bind_eq_some_iff.mp hfold
    have hagentFree : delimiter ∉ agent := by
      intro hdelimiter
      apply agent_of_delimiter hagent hlength.2 hdelimiter hsecond rfl
    refine ⟨?_, hagentFree⟩
    intro hdelimiter
    apply pattern_of_delimiter hpattern hlength.1 hdelimiter hfirst
    rw [agentLine, tokens_of_notMem (by decide) hagentFree, List.foldlM_cons,
      parseFilterLine_agent hagent (Or.inr rfl) filter₁ hlength.2] at hsecond
    apply congrArg Filter.pattern (Option.some.inj hsecond)
  · rintro ⟨hpatternFree, hagentFree⟩
    rw [patternLine, agentLine, tokens_of_notMem (by decide) hpatternFree,
      tokens_of_notMem (by decide) hagentFree, List.foldlM_cons,
      parseFilterLine_pattern hpattern (Or.inr rfl) _ hlength.1, if_neg hpatternNe]
    simp only [List.foldlM_nil, bind, Option.bind, pure, List.foldlM_cons]
    rw [parseFilterLine_agent hagent (Or.inr rfl) _ hlength.2, if_neg hagentNe]

theorem parseFilter_filterText_sample :
  parseFilterReturn [] (filterText (text "a+") (text "b c"))
      = some (SUCCESS, [⟨some (text "a+"), some (text "b c")⟩])
    ↔ delimiter ∉ text "a+" ∧ delimiter ∉ text "b c"
  := parseFilter_filterText_iff [] ⟨by decide, by decide, by decide⟩
    ⟨by decide, by decide, by decide⟩ (by decide) (by decide) (by decide)

/-- The superscript two is 194 and 178 in UTF-8, and only the first of them is left. -/
theorem parseFilter_superscript :
  parseFilterReturn [] (filterText [194, 178] (text "a"))
    ≠ some (SUCCESS, [⟨some [194, 178], some (text "a")⟩])
  := by
  have h : parseFilterReturn [] (filterText [194, 178] (text "a"))
      = some (SUCCESS, [⟨some [194], some (text "a")⟩]) := by
    decide
  rw [h]
  decide

end Trailermatic
