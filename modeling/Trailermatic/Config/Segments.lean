import Mathlib.Data.List.Induction
import Trailermatic.Config.Options

/-!
# The segments of a string

A string is cut into segments: each is in quotes, or a line, with whitespace between them.
`shorten` puts the delimiter between them, and is never longer than the string.  `strtok`
takes the segments apart again, but for the empty ones, and at any delimiter that they hold.
`listOption_iff` says for which parameters an option with a list of strings has just the
segments.
-/

namespace Trailermatic

/-! ### Cutting a string -/

/-- What is left of the string, and the segments before it. -/
structure Cutting where
  str : Bytes
  parts : List Bytes

/-- The loop of `shorten`, with the parts in a list instead of the buffer. -/
def segmentsLoop : Loop Cutting (List Bytes) where
  turn s :=
    match s.str with
    | [] => .done s.parts
    | c :: str =>
      let (part, rest) := segment (c :: str)
      .next ⟨skipSpaces rest, s.parts ++ [part]⟩
  size s := s.str.length
  consumes := by
    intro s s' h
    split at h
    · cases h
    · rename_i c str hstr
      cases h
      rw [hstr]
      apply segment_shrinks

/-- The segments of a string: whitespace is skipped, then at a quote a segment runs up to
the same quote, the end of the line or the end, and else up to the end of the line or the
end. -/
def segments (str : Bytes) : List Bytes :=
  segmentsLoop.run ⟨skipSpaces str, []⟩

theorem segmentsLoop_nil (parts : List Bytes) :
  segmentsLoop.run ⟨[], parts⟩ = parts
  := segmentsLoop.run_done rfl

theorem segmentsLoop_segment {c : Byte} {str part rest : Bytes} (parts : List Bytes)
    (h : segment (c :: str) = (part, rest)) :
  segmentsLoop.run ⟨c :: str, parts⟩ = segmentsLoop.run ⟨skipSpaces rest, parts ++ [part]⟩
  := by
  apply Loop.run_next
  simp only [segmentsLoop, h]

/-- What holds at the end of the string, and in front of a segment if it does behind it, holds
of every run. -/
theorem segmentsLoop_induction {P : Cutting → List Bytes → Prop}
    (done : ∀ parts, P ⟨[], parts⟩ parts)
    (next : ∀ c str parts result,
      P ⟨skipSpaces (segment (c :: str)).2, parts ++ [(segment (c :: str)).1]⟩ result →
      P ⟨c :: str, parts⟩ result)
    (s : Cutting) :
  P s (segmentsLoop.run s)
  := by
  apply segmentsLoop.run_induction
  · intro s parts hturn
    obtain ⟨str, parts'⟩ := s
    cases str with
    | nil =>
      cases hturn
      apply done
    | cons c str => cases hturn
  · intro s s' hturn ih
    obtain ⟨str, parts⟩ := s
    cases str with
    | nil => cases hturn
    | cons c str =>
      cases hturn
      apply next c str parts _ ih

/-- What `tmp` holds after some segments. -/
def joined (parts : List Bytes) : Bytes :=
  parts.foldl addSegment []

theorem joined_append (parts : List Bytes) (part : Bytes) :
  joined (parts ++ [part]) = addSegment (joined parts) part
  := by
  rw [joined, joined, List.foldl_append, List.foldl_cons, List.foldl_nil]

/-- The loop over a string joins its segments. -/
theorem shortenLoop_eq_joined (s : Cutting) :
  shortenLoop.run ⟨s.str, joined s.parts⟩ = joined (segmentsLoop.run s)
  := by
  apply segmentsLoop_induction
    (P := fun s parts => shortenLoop.run ⟨s.str, joined s.parts⟩ = joined parts)
  · intro parts
    apply shortenLoop_nil
  · intro c str parts result ih
    rw [← ih, joined_append]
    apply shortenLoop_segment
    rfl

theorem shortenLoop_eq (str : Bytes) :
  shortenLoop.run ⟨skipSpaces str, []⟩ = joined (segments str)
  := shortenLoop_eq_joined ⟨skipSpaces str, []⟩

/-- The bytes of the segments are bytes of the string. -/
theorem mem_of_mem_segmentsLoop {b : Byte} (s : Cutting) :
  (∃ part ∈ segmentsLoop.run s, b ∈ part) → b ∈ s.str ∨ ∃ part ∈ s.parts, b ∈ part
  := by
  apply segmentsLoop_induction
    (P := fun s parts => (∃ part ∈ parts, b ∈ part) → b ∈ s.str ∨ ∃ part ∈ s.parts, b ∈ part)
  · intro parts h
    right
    apply h
  · intro c str parts result ih h
    rcases ih h with hrest | ⟨part, hpart, hb⟩
    · left
      apply mem_of_mem_segment
      apply Or.inr ((List.dropWhile_sublist _).subset hrest)
    · rcases List.mem_append.mp hpart with hpart | hpart
      · right
        exact ⟨part, hpart, hb⟩
      · obtain rfl := List.mem_singleton.mp hpart
        left
        apply mem_of_mem_segment (Or.inl hb)

theorem mem_of_mem_segments {b : Byte} {str part : Bytes} (hpart : part ∈ segments str)
    (hb : b ∈ part) :
  b ∈ str
  := by
  rcases mem_of_mem_segmentsLoop ⟨skipSpaces str, []⟩ ⟨part, hpart, hb⟩ with h | ⟨_, h, -⟩
  · apply (List.dropWhile_sublist _).subset h
  · cases h

/-! ### Lengths -/

/-- The quote or the end of the line pays for the delimiter in front of the next segment. -/
theorem length_segment_le (c : Byte) (str : Bytes) :
  (segment (c :: str)).1.length + (skipSpaces (segment (c :: str)).2).length
      + (if skipSpaces (segment (c :: str)).2 = [] then 0 else 1)
    ≤ (c :: str).length
  := by
  have hspaces := length_skipSpaces_le (segment (c :: str)).2
  by_cases hquote : isQuote c = true
  · have hparts : (segment (c :: str)).1.length + (segment (c :: str)).2.length ≤ str.length := by
      have hsplit := congrArg List.length
        (List.takeWhile_append_dropWhile (p := fun b => b != c && b != newline) (l := str))
      rw [List.length_append] at hsplit
      simp only [segment, if_pos hquote]
      split_ifs
      · rw [List.length_tail]
        omega
      · omega
    rw [List.length_cons]
    split_ifs
    · omega
    · omega
  · have hparts : (segment (c :: str)).1.length + (segment (c :: str)).2.length
        = (c :: str).length := by
      have hsplit := congrArg List.length
        (List.takeWhile_append_dropWhile (p := (· != newline)) (l := c :: str))
      rw [List.length_append] at hsplit
      simpa only [segment, if_neg hquote] using hsplit
    split_ifs with hend
    · omega
    · have hline : (skipSpaces (segment (c :: str)).2).length < (segment (c :: str)).2.length := by
        simp only [segment, if_neg hquote] at hend ⊢
        cases hrest : (c :: str).dropWhile (· != newline) with
        | nil =>
          rw [hrest] at hend
          apply absurd rfl hend
        | cons b rest =>
          have hb := List.head?_dropWhile_not (· != newline) (c :: str)
          rw [hrest] at hb
          obtain rfl : b = newline := by simpa using hb
          rw [skipSpaces, List.dropWhile_cons_of_pos isspace_newline, List.length_cons]
          apply Nat.lt_succ_of_le (length_skipSpaces_le rest)
      omega

theorem length_addSegment (tmp part : Bytes) :
  (addSegment tmp part).length = tmp.length + part.length + if tmp = [] then 0 else 1
  := by
  rw [addSegment]
  split_ifs with h
  · simp [h]
  · simp
    omega

/-- The loop never writes more than it has read. -/
theorem length_shortenLoop_le (s : Shortening) :
  (shortenLoop.run s).length
    ≤ s.tmp.length + s.str.length + if s.tmp = [] ∨ s.str = [] then 0 else 1
  := by
  apply shortenLoop_induction (P := fun s tmp => tmp.length
    ≤ s.tmp.length + s.str.length + if s.tmp = [] ∨ s.str = [] then 0 else 1)
  · intro tmp
    simp
  · rintro c str tmp _ rfl ih
    have hsegment := length_segment_le c str
    have hdelimiter : (if addSegment tmp (segment (c :: str)).1 = []
        ∨ skipSpaces (segment (c :: str)).2 = [] then 0 else 1)
        ≤ if skipSpaces (segment (c :: str)).2 = [] then 0 else 1 := by
      split_ifs with h₁ h₂ h₂
      · rfl
      · apply Nat.zero_le
      · apply absurd (Or.inr h₂) h₁
      · rfl
    rw [length_addSegment] at ih
    simp only [List.cons_ne_nil, or_false] at ih ⊢
    omega

theorem length_joined_le (str : Bytes) :
  (joined (segments str)).length ≤ str.length
  := by
  rw [← shortenLoop_eq]
  apply (length_shortenLoop_le ⟨skipSpaces str, []⟩).trans
  simpa using length_skipSpaces_le str

/-! ### Taking the segments apart -/

theorem tokens_addSegment (tmp part : Bytes) :
  Tokens.tokens (· == delimiter) (addSegment tmp part)
    = Tokens.tokens (· == delimiter) tmp ++ Tokens.tokens (· == delimiter) part
  := by
  rw [addSegment]
  split_ifs with htmp
  · rw [htmp]
    rfl
  · rw [Tokens.tokens_append_cons (· == delimiter) _ (beq_self_eq_true delimiter)]

/-- The lines of a string: its segments, each cut at the delimiters in it. -/
def linesOf (str : Bytes) : List Bytes :=
  (segments str).flatMap (Tokens.tokens (· == delimiter))

theorem tokens_joined (parts : List Bytes) :
  Tokens.tokens (· == delimiter) (joined parts)
    = parts.flatMap (Tokens.tokens (· == delimiter))
  := by
  induction parts using List.reverseRecOn with
  | nil => rfl
  | append_singleton parts part ih =>
    rw [joined_append, tokens_addSegment, ih, List.flatMap_append, List.flatMap_singleton]

theorem flatMap_tokens {parts : List Bytes} (h : ∀ part ∈ parts, delimiter ∉ part) :
  parts.flatMap (Tokens.tokens (· == delimiter)) = parts.filter (· ≠ [])
  := by
  induction parts with
  | nil => rfl
  | cons part parts ih =>
    rw [List.forall_mem_cons] at h
    rw [List.flatMap_cons, ih h.2, List.filter_cons]
    by_cases hnil : part = []
    · simp [hnil, Tokens.tokens, Tokens.tokensFrom]
    · have htokens : Tokens.tokens (· == delimiter) part = [part] := by
        apply Tokens.tokens_of_forall (· == delimiter) hnil
        intro b hb
        rw [beq_eq_false_iff_ne]
        rintro rfl
        apply h.1 hb
      simp [hnil, htokens]

/-- Without the delimiter, the lines are the segments that are not empty. -/
theorem linesOf_eq_filter {str : Bytes} (h : delimiter ∉ str) :
  linesOf str = (segments str).filter (· ≠ [])
  := flatMap_tokens fun _ hpart hmem => h (mem_of_mem_segments hpart hmem)

/-- No line is longer than the string. -/
theorem length_le_of_mem_linesOf {str line : Bytes} (h : line ∈ linesOf str) :
  line.length ≤ str.length
  := by
  rw [linesOf, ← tokens_joined] at h
  have hsub := (Tokens.sublist_tokensFrom (· == delimiter) h).length_le
  rw [List.nil_append] at hsub
  apply hsub.trans (length_joined_le str)

theorem joined_eq_nil_iff {parts : List Bytes} :
  joined parts = [] ↔ ∀ part ∈ parts, part = []
  := by
  induction parts using List.reverseRecOn with
  | nil => simp [joined]
  | append_singleton parts part ih =>
    rw [joined_append, List.forall_mem_append, ← ih, List.forall_mem_singleton, addSegment]
    split_ifs with hnil
    · simp [hnil]
    · simp [hnil]

/-- A string that fits into the buffer is shortened to its segments. -/
theorem shorten_eq_joined {str : Bytes} (h : str.length ≤ MAX_PARAM_LEN) :
  shorten str = some (amStrdup (joined (segments str)))
  := by
  have hlength := length_joined_le str
  rw [shorten, shortenLoop_eq, if_neg]
  omega

theorem notMem_joined {b : Byte} {str : Bytes} (h : b ∉ str) (hb : b ≠ delimiter) :
  b ∉ joined (segments str)
  := by
  rw [← shortenLoop_eq]
  intro hmem
  rcases mem_shortenLoop _ hmem with hstr | htmp | hdelimiter
  · apply h ((List.dropWhile_sublist _).subset hstr)
  · cases htmp
  · apply hb hdelimiter

/-- Some segment of a string is not empty. -/
def HasSegment (str : Bytes) : Prop :=
  ∃ part ∈ segments str, part ≠ []

instance (str : Bytes) : Decidable (HasSegment str) :=
  inferInstanceAs (Decidable (∃ part ∈ segments str, part ≠ []))

/-- What `strtok` makes of a string shortened: its lines, if there is a segment that is not
empty. -/
theorem strtok_shorten {str : Bytes} (hnul : (0 : Byte) ∉ str)
    (h : str.length ≤ MAX_PARAM_LEN) :
  (shorten str).bind strtok = if HasSegment str then some (linesOf str) else none
  := by
  have hcstr := cstr_of_notMem (notMem_joined hnul (by decide))
  rw [shorten_eq_joined h, Option.bind_some, amStrdup, Str.ofBytes]
  simp only [hcstr, joined_eq_nil_iff]
  split_ifs with hnone hsome hsome
  · obtain ⟨part, hpart, hne⟩ := hsome
    apply absurd (hnone part hpart) hne
  · rfl
  · rw [strtok, Option.map_some]
    simp only [tokens_joined]
    rfl
  · apply absurd _ hnone
    intro part hpart
    by_contra hne
    apply hsome ⟨part, hpart, hne⟩

/-! ### Options with a list of strings -/

/-- Feeds with the URLs are added, each with the cookies of its URL. -/
def FeedsAdded (pcre : Pcre) (urls : List Bytes) (feeds : List RssFeed)
    (result : Option (List RssFeed)) : Prop :=
  ∃ added : List RssFeed, result = some (added.reverse ++ feeds)
    ∧ added.map RssFeed.url = urls.map some
    ∧ ∀ feed ∈ added, ∃ url ∈ feed.url, parseCookiesFromURL pcre url = some feed.cookies

/-- Filters with the patterns are added. -/
def FiltersAdded (patterns : List Bytes) (filters : List Filter)
    (result : Option (List Filter)) : Prop :=
  result = some ((patterns.map fun p => ⟨some p, none⟩).reverse ++ filters)

theorem addPatternsOld_eq (filters : List Filter) (strlist : Bytes) :
  addPatternsOld filters strlist
    = ((shorten strlist).bind strtok).map fun patterns =>
      (patterns.map fun p => ⟨some p, none⟩).reverse ++ filters
  := by
  have hadd : ∀ patterns : List Bytes,
      patterns.foldl (fun filters p => addItem (some ⟨some p, none⟩) filters) filters
        = (patterns.map fun p => (⟨some p, none⟩ : Filter)).reverse ++ filters := by
    intro patterns
    induction patterns using List.reverseRecOn with
    | nil => rfl
    | append_singleton patterns p ih =>
      rw [List.foldl_append, List.foldl_cons, List.foldl_nil, ih, List.map_append,
        List.reverse_append]
      rfl
  rw [addPatternsOld]
  cases shorten strlist with
  | none => rfl
  | some tmp =>
    cases tmp with
    | none => rfl
    | some tmp => apply congrArg some (hadd _)

/-- The body of the loop over the URLs. -/
def addURL (pcre : Pcre) (feeds : List RssFeed) (p : Bytes) : Option (List RssFeed) := do
  let cookies ← parseCookiesFromURL pcre p
  return addFeed feeds ⟨some p, cookies, 0⟩

theorem getFeeds_eq (pcre : Pcre) (feeds : List RssFeed) (strlist : Bytes) :
  getFeeds pcre feeds strlist
    = ((shorten strlist).bind strtok).bind fun urls => urls.foldlM (addURL pcre) feeds
  := by
  rw [getFeeds]
  cases shorten strlist with
  | none => rfl
  | some tmp =>
    cases tmp with
    | none => rfl
    | some tmp => rfl

/-- The loop over the URLs adds a feed for each. -/
theorem addURLs_added {pcre : Pcre} (hpcre : pcre.Lists) (urls : List Bytes)
    (feeds : List RssFeed) :
  FeedsAdded pcre urls feeds (urls.foldlM (addURL pcre) feeds)
  := by
  induction urls generalizing feeds with
  | nil => exact ⟨[], rfl, rfl, by simp⟩
  | cons url urls ih =>
    obtain ⟨cookies, hcookies⟩ :=
      hpcre.exists_getRegExMatch (some (text ":COOKIE:(.+)")) url Nat.one_pos
    have hadd : addURL pcre feeds url = some (addFeed feeds ⟨some url, cookies, 0⟩) := by
      rw [addURL, parseCookiesFromURL, hcookies]
      rfl
    obtain ⟨added, hresult, hurls, hadded⟩ := ih (addFeed feeds ⟨some url, cookies, 0⟩)
    refine ⟨⟨some url, cookies, listCount feeds % 65536⟩ :: added, ?_, ?_, ?_⟩
    · rw [List.foldlM_cons, hadd]
      apply hresult.trans
      rw [List.reverse_cons, List.append_assoc]
      rfl
    · rw [List.map_cons, List.map_cons, hurls]
    · intro feed hfeed
      rcases List.mem_cons.mp hfeed with rfl | hfeed
      · exact ⟨url, rfl, hcookies⟩
      · apply hadded feed hfeed

/-- Both options add exactly the segments that are not empty, in order, if there is one;
else they read a token of a string that is `NULL`. -/
theorem listOption_iff {pcre : Pcre} (hpcre : pcre.Lists) (feeds : List RssFeed)
    (filters : List Filter) {str : Bytes} (hnul : (0 : Byte) ∉ str)
    (hdelimiter : delimiter ∉ str) (h : str.length < MAX_PARAM_LEN) :
  (FeedsAdded pcre ((segments str).filter (· ≠ [])) feeds (getFeeds pcre feeds str)
      ∧ FiltersAdded ((segments str).filter (· ≠ [])) filters (addPatternsOld filters str))
    ↔ ∃ part ∈ segments str, part ≠ []
  := by
  rw [getFeeds_eq, addPatternsOld_eq, strtok_shorten hnul h.le, linesOf_eq_filter hdelimiter,
    ← HasSegment]
  split_ifs with hsome
  · simp only [hsome, iff_true]
    exact ⟨addURLs_added hpcre _ _, rfl⟩
  · simp only [hsome, iff_false, not_and]
    rintro - ⟨⟩

theorem listOption_lines :
  (FeedsAdded .plain ((segments (text "a\n 'b c'\n")).filter (· ≠ [])) []
        (getFeeds .plain [] (text "a\n 'b c'\n"))
      ∧ FiltersAdded ((segments (text "a\n 'b c'\n")).filter (· ≠ [])) []
        (addPatternsOld [] (text "a\n 'b c'\n")))
    ↔ ∃ part ∈ segments (text "a\n 'b c'\n"), part ≠ []
  := listOption_iff Pcre.plain_lists [] [] (by decide) (by decide) (by decide)

example : segments (text "a\n 'b c'\n\"\"x") = [text "a", text "b c", [], text "x"] := by
  decide

/-- An empty parameter is shortened to `NULL`, and `strtok` is given that. -/
theorem listOption_empty :
  ¬ (FeedsAdded .plain ((segments (text "")).filter (· ≠ [])) []
        (getFeeds .plain [] (text ""))
      ∧ FiltersAdded ((segments (text "")).filter (· ≠ [])) []
        (addPatternsOld [] (text "")))
  := by
  rintro ⟨-, hfilters⟩
  have h : addPatternsOld [] (text "") = none := by decide
  rw [FiltersAdded, h] at hfilters
  cases hfilters

end Trailermatic
