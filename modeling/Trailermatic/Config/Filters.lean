import Trailermatic.Config.Layout
import Trailermatic.Config.Options

/-!
# Filters in the configuration file

A filter is written as a list of two suboptions.  `parseFilter_block` says that the list is
read as the filter, and `run_filters` that a file of such lists is read as its filters,
unless one of them holds the brace that ends a list.
-/

namespace Trailermatic

/-! ### Suboptions -/

theorem splitArrow_eq {before : Bytes} (h : equals ∉ before) (after : Bytes) :
  splitArrow (before ++ equals :: 62 :: after) = some (before, after)
  := splitArrow_of_not_infix
    (fun hin => h (hin.subset List.mem_cons_self)) after

/-- A suboption is its name and its parameter. -/
theorem parseSubOption_eq {option after : Bytes} {b : Byte} {param : Str}
    (h : equals ∉ option ++ [b]) (hafter : param.bytes = after) :
  parseSubOption (option ++ [b] ++ equals :: 62 :: after) = some (some (option, param))
  := by
  have hparam : amStrdup after = some param := by
    rw [← hafter, amStrdup, Str.ofBytes_bytes]
  rw [parseSubOption, splitArrow_eq h]
  cases option with
  | nil => simp [hparam]
  | cons c option =>
    have hdrop : (c :: option ++ [b]).dropLast = c :: option := List.dropLast_concat
    simpa [hparam] using hdrop

/-- A suboption `pattern` sets the pattern. -/
theorem setPattern_of_parsed (filter : Filter) {line : Bytes} {param : Str} {u : Option Str}
    (h : parseSubOption line = some (some (text "pattern", param)))
    (hu : shorten param.bytes = some u) :
  parseFilterLine filter line = some { filter with pattern := u.map Str.bytes }
  := by
  rw [parseFilterLine, h]
  simp only
  rw [if_pos (by decide), hu, Option.map_some]

/-- A suboption `useragent` sets the agent. -/
theorem setAgent_of_parsed (filter : Filter) {line : Bytes} {param : Str} {u : Option Str}
    (h : parseSubOption line = some (some (text "useragent", param)))
    (hu : shorten param.bytes = some u) :
  parseFilterLine filter line = some { filter with agent := u.map Str.bytes }
  := by
  rw [parseFilterLine, h]
  simp only
  rw [if_neg (by decide), if_pos (by decide), hu, Option.map_some]

/-! ### Suboptions in double quotes -/

/-- A text that double quotes can hold: a string in one line, without double quotes. -/
structure Quotable (q : Bytes) : Prop where
  nul_notMem : (0 : Byte) ∉ q
  newline_notMem : newline ∉ q
  doubleQuote_notMem : doubleQuote ∉ q

/-- What comes after the arrow: a blank and the text, after a double quote. -/
def quotedParam (q closing : Bytes) : Bytes :=
  32 :: doubleQuote :: (q ++ closing)

/-- A suboption with a text in double quotes, of which the second one may be missing. -/
def quotedSubOption (option q closing : Bytes) : Bytes :=
  option ++ [32] ++ equals :: 62 :: quotedParam q closing

/-- The double quote that closes a text, or nothing. -/
def Closing (closing : Bytes) : Prop :=
  closing = [] ∨ closing = [doubleQuote]

theorem map_amStrdup_bytes {q : Bytes} (h : (0 : Byte) ∉ q) :
  (amStrdup q).map Str.bytes = if q = [] then none else some q
  := by
  simp only [amStrdup, Str.ofBytes, cstr_of_notMem h]
  split_ifs
  · rfl
  · rfl

section Quotable

variable {q closing : Bytes} (hq : Quotable q) (hclosing : Closing closing)

include hq hclosing in
theorem nul_notMem_quotedParam :
  (0 : Byte) ∉ quotedParam q closing
  := by
  have hnul : (0 : Byte) ∉ closing := by
    rcases hclosing with rfl | rfl
    · decide
    · decide
  simp only [quotedParam, List.mem_cons, List.mem_append, not_or]
  exact ⟨by decide, by decide, hq.nul_notMem, hnul⟩

include hq hclosing in
/-- The parameter is shortened to the text. -/
theorem shorten_quotedParam (hlength : q.length ≤ MAX_PARAM_LEN) :
  shorten (quotedParam q closing) = some (amStrdup q)
  := by
  have hskip : skipSpaces (quotedParam q closing) = doubleQuote :: (q ++ closing) := rfl
  have hrun : shortenLoop.run ⟨doubleQuote :: (q ++ closing), []⟩ = q := by
    rcases hclosing with rfl | rfl
    · have hline : newline ∉ doubleQuote :: (q ++ []) := by
        rw [List.append_nil, List.mem_cons, not_or]
        exact ⟨by decide, hq.newline_notMem⟩
      have hopen : doubleQuote ∉ q ++ [] := by
        rw [List.append_nil]
        apply hq.doubleQuote_notMem
      rw [shortenLoop_segment [] (segment_rest (fun _ => hopen) hline), List.append_nil]
      apply shortenLoop_nil
    · rw [shortenLoop_segment [] (segment_quoted rfl hq.doubleQuote_notMem hq.newline_notMem [])]
      apply shortenLoop_nil
  rw [shorten, hskip, hrun, if_neg (Nat.not_lt_of_le hlength)]

include hq hclosing in
theorem parseSubOption_quoted {option : Bytes} (h : equals ∉ option ++ [32]) :
  ∃ param : Str, parseSubOption (quotedSubOption option q closing) = some (some (option, param))
    ∧ param.bytes = quotedParam q closing
  := by
  have hparam := nul_notMem_quotedParam hq hclosing
  exact ⟨⟨_, List.cons_ne_nil _ _, hparam⟩, parseSubOption_eq h rfl, rfl⟩

include hq hclosing in
theorem parseFilterLine_pattern (filter : Filter) (hlength : q.length ≤ MAX_PARAM_LEN) :
  parseFilterLine filter (quotedSubOption (text "pattern") q closing)
    = some { filter with pattern := if q = [] then none else some q }
  := by
  obtain ⟨param, hparam, hbytes⟩ :=
    parseSubOption_quoted hq hclosing (by decide : equals ∉ text "pattern" ++ [32])
  rw [← map_amStrdup_bytes hq.nul_notMem]
  apply setPattern_of_parsed filter hparam
  rw [hbytes, shorten_quotedParam hq hclosing hlength]

include hq hclosing in
theorem parseFilterLine_agent (filter : Filter) (hlength : q.length ≤ MAX_PARAM_LEN) :
  parseFilterLine filter (quotedSubOption (text "useragent") q closing)
    = some { filter with agent := if q = [] then none else some q }
  := by
  obtain ⟨param, hparam, hbytes⟩ :=
    parseSubOption_quoted hq hclosing (by decide : equals ∉ text "useragent" ++ [32])
  rw [← map_amStrdup_bytes hq.nul_notMem]
  apply setAgent_of_parsed filter hparam
  rw [hbytes, shorten_quotedParam hq hclosing hlength]

end Quotable

/-! ### Quoted texts -/

/-- A text that can be written in double quotes. -/
structure QuotedText where
  bytes : Bytes
  ne_nil : bytes ≠ []
  chars : ∀ b ∈ bytes, isprint b = true
  doubleQuote_notMem : doubleQuote ∉ bytes

namespace QuotedText

variable (q : QuotedText)

theorem nul_notMem :
  (0 : Byte) ∉ q.bytes
  := fun h => nul_of_isprint (q.chars 0 h) rfl

theorem newline_notMem :
  newline ∉ q.bytes
  := fun h => newline_of_isprint (q.chars newline h) rfl

theorem delimiter_notMem :
  delimiter ∉ q.bytes
  := by
  intro h
  cases q.chars delimiter h

def str : Str :=
  ⟨q.bytes, q.ne_nil, q.nul_notMem⟩

/-- The text in its quotes. -/
def quoted : Bytes :=
  doubleQuote :: (q.bytes ++ [doubleQuote])

/-- A line with a suboption. -/
def line (option : Bytes) : Bytes :=
  option ++ [32] ++ equals :: 62 :: 32 :: q.quoted

theorem notMem_quoted {b : Byte} (hb : b ∉ q.bytes) (hquote : b ≠ doubleQuote) :
  b ∉ q.quoted
  := by
  simp [quoted, hb, hquote]

theorem notMem_line {b : Byte} {option : Bytes} (hb : b ∉ q.bytes)
    (hother : b ∉ option ++ [32, equals, 62, 32, doubleQuote]) :
  b ∉ q.line option
  := by
  simp [line, quoted, hb] at hother ⊢
  tauto

theorem quotable :
  Quotable q.bytes
  := ⟨q.nul_notMem, q.newline_notMem, q.doubleQuote_notMem⟩

/-- The parameter of a suboption. -/
def param : Str where
  bytes := 32 :: q.quoted
  ne_nil := List.cons_ne_nil _ _
  nul_notMem := by
    rw [List.mem_cons, not_or]
    exact ⟨by decide, q.notMem_quoted q.nul_notMem (by decide)⟩

theorem shorten_param (hlength : q.bytes.length ≤ MAX_PARAM_LEN) :
  shorten q.param.bytes = some (some q.str)
  := by
  have hparam : q.param.bytes = quotedParam q.bytes [doubleQuote] := rfl
  have hstr : amStrdup q.bytes = some q.str := Str.ofBytes_bytes q.str
  rw [hparam, shorten_quotedParam q.quotable (Or.inr rfl) hlength, hstr]

theorem parseSubOption_line {option : Bytes} (h : equals ∉ option ++ [32]) :
  parseSubOption (q.line option) = some (some (option, q.param))
  := parseSubOption_eq h rfl

theorem parseFilterLine_pattern (filter : Filter) (hlength : q.bytes.length ≤ MAX_PARAM_LEN) :
  parseFilterLine filter (q.line (text "pattern")) = some { filter with pattern := some q.bytes }
  := setPattern_of_parsed filter (q.parseSubOption_line (by decide)) (q.shorten_param hlength)

theorem parseFilterLine_agent (filter : Filter) (hlength : q.bytes.length ≤ MAX_PARAM_LEN) :
  parseFilterLine filter (q.line (text "useragent")) = some { filter with agent := some q.bytes }
  := setAgent_of_parsed filter (q.parseSubOption_line (by decide)) (q.shorten_param hlength)

end QuotedText

/-! ### Filters as they are written -/

/-- The list of suboptions that a filter is written as, with any number of blanks in front of
the second one and in front of the brace. -/
def filterBlock (pattern agent : Bytes) (indent closing : ℕ) : Bytes :=
  text " pattern => \"" ++ (pattern ++ (text "\"\n" ++ (List.replicate indent 32
    ++ (text "useragent => \"" ++ (agent ++ (text "\"\n" ++ List.replicate closing 32))))))

/-- A filter that is written in the configuration file. -/
structure FilterSetting where
  pattern : QuotedText
  agent : QuotedText
  indent : ℕ
  closing : ℕ
  fits : (filterBlock pattern.bytes agent.bytes indent closing).length ≤ MAX_PARAM_LEN

theorem blank_replicate (n : ℕ) :
  Blank (List.replicate n 32)
  := by
  intro b hb
  obtain rfl := List.eq_of_mem_replicate hb
  rfl

namespace FilterSetting

variable (f : FilterSetting)

/-- The filter that the block stands for. -/
def filter : Filter :=
  ⟨some f.pattern.bytes, some f.agent.bytes⟩

/-- The text of the block, between the braces. -/
def block : Bytes :=
  filterBlock f.pattern.bytes f.agent.bytes f.indent f.closing

/-- The filter as it stands in the file. -/
def written : Bytes :=
  text "filter = \x7b" ++ (f.block ++ text "\x7d\n")

def patternLine : Bytes :=
  f.pattern.line (text "pattern")

def agentLine : Bytes :=
  f.agent.line (text "useragent")

theorem block_eq :
  f.block = 32 :: (f.patternLine ++ newline :: (List.replicate f.indent 32
    ++ (f.agentLine ++ newline :: (List.replicate f.closing 32 ++ []))))
  := by
  have hpattern :
      text " pattern => \"" = 32 :: (text "pattern" ++ [32, equals, 62, 32, doubleQuote])
    := by decide
  have hagent : text "useragent => \"" = text "useragent" ++ [32, equals, 62, 32, doubleQuote] := by
    decide
  have hend : text "\"\n" = [doubleQuote, newline] := by decide
  rw [block, filterBlock, hpattern, hagent, hend]
  simp [patternLine, agentLine, QuotedText.line, QuotedText.quoted]

theorem pattern_length_le :
  f.pattern.bytes.length ≤ MAX_PARAM_LEN
  := by
  have hfits := f.fits
  simp [filterBlock, text] at hfits
  omega

theorem agent_length_le :
  f.agent.bytes.length ≤ MAX_PARAM_LEN
  := by
  have hfits := f.fits
  simp [filterBlock, text] at hfits
  omega

/-- The lines of a filter with the delimiter between them. -/
def lines : Str where
  bytes := f.patternLine ++ delimiter :: f.agentLine
  ne_nil := by
    simp
  nul_notMem := by
    rw [List.mem_append, List.mem_cons, not_or, not_or]
    exact ⟨f.pattern.notMem_line f.pattern.nul_notMem (by decide), by decide,
      f.agent.notMem_line f.agent.nul_notMem (by decide)⟩

theorem length_lines_le :
  f.lines.bytes.length ≤ MAX_PARAM_LEN
  := by
  have hfits : f.block.length ≤ MAX_PARAM_LEN := f.fits
  rw [block_eq] at hfits
  simp [lines] at hfits ⊢
  omega

theorem shorten_block :
  shorten f.block = some (some f.lines)
  := by
  apply shorten_eq _ rfl f.length_lines_le
  obtain ⟨line, hline⟩ : ∃ line, f.patternLine = 112 :: line := ⟨_, rfl⟩
  obtain ⟨line', hline'⟩ : ∃ line, f.agentLine = 117 :: line := ⟨_, rfl⟩
  have hpattern : newline ∉ f.patternLine :=
    f.pattern.notMem_line f.pattern.newline_notMem (by decide)
  have hagent : newline ∉ f.agentLine := f.agent.notMem_line f.agent.newline_notMem (by decide)
  have hlines : f.lines.bytes = f.patternLine ++ delimiter :: f.agentLine := rfl
  rw [hlines, block_eq]
  rw [hline] at hpattern ⊢
  rw [hline'] at hagent ⊢
  have hskip (str : Bytes) : skipSpaces (32 :: (112 :: line ++ str)) = 112 :: line ++ str := rfl
  rw [hskip, shortenLoop_line rfl hpattern (blank_replicate _), List.cons_append,
    skipSpaces_text rfl, ← List.cons_append, shortenLoop_line rfl hagent (blank_replicate _)]
  apply shortenLoop_nil

theorem strtok_lines :
  strtok (some f.lines) = some [f.patternLine, f.agentLine]
  := by
  have hpattern : ∀ b ∈ f.patternLine, (b == delimiter) = false := by
    intro b hb
    rw [beq_eq_false_iff_ne]
    rintro rfl
    apply f.pattern.notMem_line f.pattern.delimiter_notMem (by decide) hb
  have hagent : ∀ b ∈ f.agentLine, (b == delimiter) = false := by
    intro b hb
    rw [beq_eq_false_iff_ne]
    rintro rfl
    apply f.agent.notMem_line f.agent.delimiter_notMem (by decide) hb
  rw [strtok, Option.map_some, lines,
    Tokens.tokens_append_cons (· == delimiter) _ (beq_self_eq_true delimiter),
    Tokens.tokens_of_forall _ (by rintro ⟨⟩) hpattern,
    Tokens.tokens_of_forall _ (by rintro ⟨⟩) hagent]
  rfl

/-- The list that a filter is written as is read as the filter. -/
theorem parseFilter_block (filters : List Filter) :
  parseFilter filters f.block = some (f.filter :: filters)
  := by
  rw [parseFilter, f.shorten_block]
  simp only [bind, Option.bind]
  rw [f.strtok_lines]
  simp only [List.foldlM, bind, Option.bind, pure]
  rw [patternLine, f.pattern.parseFilterLine_pattern _ f.pattern_length_le]
  simp only
  rw [agentLine, f.agent.parseFilterLine_agent _ f.agent_length_le]
  rfl

/-! ### The entry of a filter -/

/-- The block as an entry of a configuration. -/
def entry : Entry :=
  ⟨text "filter", [32], [32], .braced f.block⟩

/-- Neither the pattern nor the agent holds the brace that ends the list. -/
def BraceFree : Prop :=
  closeBrace ∉ f.pattern.bytes ∧ closeBrace ∉ f.agent.bytes

theorem written_eq (rest : Bytes) :
  f.written ++ rest = f.entry.text ++ (newline :: rest)
  := by
  have hhead : text "filter = \x7b" = text "filter" ++ ([32] ++ equals :: [32]) ++ [openBrace] := by
    decide
  have hend : text "\x7d\n" = [closeBrace, newline] := by decide
  rw [written, hhead, hend]
  simp [entry, Entry.text, Entry.head, Value.text]

/-- What is in the list besides the pattern and the agent. -/
theorem notMem_block {b : Byte} (hpattern : b ∉ f.pattern.bytes) (hagent : b ∉ f.agent.bytes)
    (hother : b ∉ text "pattern useragent =>\"\n") :
  b ∉ f.block
  := by
  have hpiece {piece : Bytes}
      (hsubset : piece.all (text "pattern useragent =>\"\n").contains = true) : b ∉ piece :=
    fun h => hother (List.contains_iff_mem.mp (List.all_eq_true.mp hsubset b h))
  have hblank (n : ℕ) : b ∉ List.replicate n 32 := by
    intro h
    obtain rfl := List.eq_of_mem_replicate h
    apply absurd hother (by decide)
  rw [block, filterBlock]
  simp only [List.mem_append, not_or]
  exact ⟨hpiece (by decide), hpattern, hpiece (by decide), hblank _, hpiece (by decide), hagent,
    hpiece (by decide), hblank _⟩

theorem cstr_block :
  cstr f.block = f.block
  := by
  apply cstr_of_notMem
  apply f.notMem_block f.pattern.nul_notMem f.agent.nul_notMem (by decide)

variable {f}

theorem entry_wellFormed (h : f.BraceFree) :
  f.entry.WellFormed where
  name_ne_nil := by rintro ⟨⟩
  name_length := (by decide : (text "filter").length < MAX_OPT_LEN)
  name_chars := List.all_eq_true.mp (by decide : (text "filter").all isOptChar = true)
  before := (by decide : Blank [32])
  after := (by decide : Blank [32])
  value := ⟨f.notMem_block h.1 h.2 (by decide), f.fits⟩

end FilterSetting

theorem setOption_filter (pcre : Pcre) (home : Option Str) (s : Session) (param : Bytes)
    (type : OptionType) :
  setOption pcre home (some s) (text "filter") param type
    = (parseFilter s.filters param).map fun filters => { s with filters := filters }
  := rfl

/-- A file with filters. -/
def filterFile (fs : List FilterSetting) : Bytes :=
  (fs.map FilterSetting.written).flatten

theorem filterFile_cons (f : FilterSetting) (fs : List FilterSetting) :
  filterFile (f :: fs) = f.entry.text ++ newline :: filterFile fs
  := f.written_eq (filterFile fs)

theorem blank_newline :
  Blank [newline]
  := by decide

namespace Parse

variable {pcre : Pcre} {home : Option Str} {size : ℕ} {behind : Bytes}

theorem state_filter {f : FilterSetting} {s : Session} :
  setOption pcre home (some s) f.entry.name (cstr f.entry.value.param) f.entry.value.type
    = some { s with filters := f.filter :: s.filters }
  := by
  have hparam : cstr f.entry.value.param = f.block := f.cstr_block
  rw [hparam]
  apply (setOption_filter ..).trans
  rw [f.parseFilter_block]
  rfl

/-- The parser passes a filter with another one behind it. -/
theorem run_filter (pcre : Pcre) (home : Option Str) {f g : FilterSetting}
    {fs : List FilterSetting} {p : Parse (Option Session)} {s : Session}
    (h : p.AtRest size (filterFile (f :: g :: fs)) behind) (hf : f.BraceFree)
    (hs : p.state = some s) :
  ∃ q : Parse (Option Session), q.AtRest size (filterFile (g :: fs)) behind
    ∧ q.state = some { s with filters := f.filter :: s.filters }
    ∧ (parseLoop (setOption pcre home) size).run p = (parseLoop (setOption pcre home) size).run q
  := by
  obtain ⟨m, htext⟩ : ∃ m, filterFile (g :: fs) ++ behind = 102 :: m := ⟨_, rfl⟩
  rw [filterFile_cons] at h
  have hafter := h.afterEntry (setOption pcre home)
  have hmem : newline :: filterFile (g :: fs) ++ behind = [newline] ++ 102 :: m :=
    congrArg (newline :: ·) htext
  have hrun := h.run_entry (setOption pcre home) (FilterSetting.entry_wellFormed hf) (by rintro ⟨⟩)
    trivial blank_newline rfl hmem (Nat.succ_le_succ (Nat.zero_le _))
  have hmoved := @AtRest.move _ size _ [newline] (filterFile (g :: fs)) behind hafter
  refine ⟨_, hmoved, ?_, hrun.trans ?_⟩
  · apply (congrArg (setOption pcre home · _ _ _) hs).trans state_filter
  · have hpos := hafter.pos
    rw [List.length_cons] at hpos
    rw [htext]
    apply run_blank hafter.reach blank_newline rfl hmem
    rw [List.length_singleton]
    omega

/-- A file of filters without the brace is read as its filters, when text stands behind it. -/
theorem run_filters {f : FilterSetting} {fs : List FilterSetting} {p : Parse (Option Session)}
    {s : Session} {gap tail : Bytes} {b : Byte}
    (h : p.AtRest size (filterFile (f :: fs)) behind) (hfree : ∀ g ∈ f :: fs, g.BraceFree)
    (hs : p.state = some s) (hgap : Blank gap) (hb : isspace b = false)
    (hbehind : behind = gap ++ b :: tail) :
  ∃ r, (parseLoop (setOption pcre home) size).run p = some r ∧ r.ret = 0
    ∧ r.state
      = some { s with filters := ((f :: fs).map FilterSetting.filter).reverse ++ s.filters }
  := by
  have hf := hfree f List.mem_cons_self
  induction fs generalizing f p s with
  | nil =>
    rw [filterFile_cons] at h
    obtain ⟨r, hr, hret, hstate⟩ := h.run_last (setOption pcre home)
      (FilterSetting.entry_wellFormed hf) (by rintro ⟨⟩) trivial blank_newline hgap hb hbehind
    rw [hs, state_filter] at hstate
    exact ⟨r, hr, hret, hstate⟩
  | cons g fs ih =>
    obtain ⟨q, hq, hstate, hrun⟩ := run_filter pcre home h hf hs
    have hfree' : ∀ g' ∈ g :: fs, g'.BraceFree := fun g' hg' =>
      hfree g' (List.mem_cons_of_mem f hg')
    obtain ⟨r, hr, hret, hstate'⟩ := ih hq hfree' hstate (hfree' g List.mem_cons_self)
    refine ⟨r, hrun.trans hr, hret, ?_⟩
    rw [hstate']
    simp

/-- Without text behind the file a file of filters without the brace is not read to its
end. -/
theorem run_filters_blank {f : FilterSetting} {fs : List FilterSetting}
    {p : Parse (Option Session)} {s : Session} (h : p.AtRest size (filterFile (f :: fs)) behind)
    (hfree : ∀ g ∈ f :: fs, g.BraceFree) (hs : p.state = some s) (hbehind : Blank behind) :
  (parseLoop (setOption pcre home) size).run p = none
  := by
  have hf := hfree f List.mem_cons_self
  induction fs generalizing f p s with
  | nil =>
    rw [filterFile_cons] at h
    apply h.run_last_blank (setOption pcre home) (FilterSetting.entry_wellFormed hf)
      (by rintro ⟨⟩) trivial blank_newline hbehind
  | cons g fs ih =>
    obtain ⟨q, hq, hstate, hrun⟩ := run_filter pcre home h hf hs
    have hfree' : ∀ g' ∈ g :: fs, g'.BraceFree := fun g' hg' =>
      hfree g' (List.mem_cons_of_mem f hg')
    rw [hrun]
    apply ih hq hfree' hstate (hfree' g List.mem_cons_self)

end Parse

end Trailermatic
