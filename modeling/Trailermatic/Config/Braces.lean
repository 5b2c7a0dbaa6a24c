import Trailermatic.Config.Filters
import Trailermatic.Config.Whole

/-!
# Braces in filters

A closing brace in a filter ends its list too early, and the parser goes on within the
pattern or the agent.  Whatever it reads from there on, it makes no filter with both a
pattern and an agent of which one holds a closing brace: that would take a quoted value of
two parts, and there is none in the file.  `filters_arrive_iff` is the conclusion.
-/

namespace Trailermatic

/-! ### The quotes of a file of filters -/

/-- The next byte ends the line. -/
def EndsLine (m : Bytes) : Prop :=
  m.head? = some newline

/-- A double quote that comes after an equals sign and whitespace, or after another double
quote of the same line, ends its line.  `armed` says that an equals sign and whitespace
came before, and `opened` that a double quote came before in the line.  No byte is the
delimiter. -/
def Calm (armed opened : Bool) : Bytes → Prop
  | [] => True
  | b :: m => b ≠ delimiter ∧ (b = doubleQuote → (armed || opened) = true → EndsLine m)
      ∧ Calm (b == equals || (armed && isspace b)) (b == doubleQuote || (opened && b != newline)) m

theorem Calm.drop {x m : Bytes} {armed opened : Bool} (h : Calm armed opened (x ++ m)) :
  ∃ armed' opened', Calm armed' opened' m
  := by
  induction x generalizing armed opened with
  | nil => exact ⟨armed, opened, h⟩
  | cons b x ih => apply ih h.2.2

theorem Calm.delimiter_notMem {m : Bytes} {armed opened : Bool} (h : Calm armed opened m) :
  delimiter ∉ m
  := by
  intro hmem
  induction m generalizing armed opened with
  | nil => cases hmem
  | cons b m ih =>
    rcases List.mem_cons.mp hmem with heq | hmem
    · apply h.1 heq.symm
    · apply ih h.2.2 hmem

/-- The double quote after an equals sign ends the line. -/
theorem Calm.endsLine_of_equals {gap m : Bytes} {armed opened : Bool}
    (h : Calm armed opened (equals :: (gap ++ doubleQuote :: m))) (hgap : Blank gap) :
  EndsLine m
  := by
  have harmed : ∀ opened gap, Blank gap → Calm true opened (gap ++ doubleQuote :: m) →
      EndsLine m := by
    intro opened gap
    induction gap generalizing opened with
    | nil =>
      intro _ h
      apply h.2.1 rfl rfl
    | cons b gap ih =>
      intro hblank h
      have hrest := h.2.2
      rw [hblank b List.mem_cons_self, Bool.and_true, Bool.or_true] at hrest
      apply ih _ (fun c hc => hblank c (List.mem_cons_of_mem b hc)) hrest
  apply harmed _ gap hgap h.2.2

/-- The second double quote of a line ends the line. -/
theorem Calm.endsLine_of_second {w m : Bytes} {armed opened : Bool}
    (h : Calm armed opened (doubleQuote :: (w ++ doubleQuote :: m))) (hw : newline ∉ w) :
  EndsLine m
  := by
  have hopened : ∀ armed w, newline ∉ w → Calm armed true (w ++ doubleQuote :: m) →
      EndsLine m := by
    intro armed w
    induction w generalizing armed with
    | nil =>
      intro _ h
      apply h.2.1 rfl (Bool.or_true _)
    | cons b w ih =>
      intro hline h
      rw [List.mem_cons, not_or] at hline
      have hrest := h.2.2
      rw [bne_iff_ne.mpr (Ne.symm hline.1), Bool.and_true, Bool.or_true] at hrest
      apply ih _ hline.2 hrest
  apply hopened _ w hw h.2.2

/-- Text without double quotes and delimiters. -/
theorem calm_append {x m : Bytes} (hquote : doubleQuote ∉ x) (hdelimiter : delimiter ∉ x)
    (armed opened : Bool) :
  Calm armed opened (x ++ m)
    ↔ Calm (x.foldl (fun a b => b == equals || (a && isspace b)) armed)
      (x.foldl (fun o b => o && b != newline) opened) m
  := by
  induction x generalizing armed opened with
  | nil => rfl
  | cons b x ih =>
    rw [List.mem_cons, not_or] at hquote hdelimiter
    have hb : (b == doubleQuote) = false := beq_eq_false_iff_ne.mpr (Ne.symm hquote.1)
    rw [List.cons_append, Calm, ih hquote.2 hdelimiter.2, hb, Bool.false_or]
    constructor
    · rintro ⟨-, -, h⟩
      apply h
    · intro h
      exact ⟨Ne.symm hdelimiter.1, fun heq => absurd heq.symm hquote.1, h⟩

theorem Calm.piece {x m : Bytes} (h : Calm false false m) (hquote : doubleQuote ∉ x)
    (hdelimiter : delimiter ∉ x)
    (harmed : x.foldl (fun a b => b == equals || (a && isspace b)) false = false)
    (hopened : x.foldl (fun o b => o && b != newline) false = false) :
  Calm false false (x ++ m)
  := by
  rw [calm_append hquote hdelimiter, harmed, hopened]
  apply h

theorem Calm.blanks {m : Bytes} (h : Calm false false m) (n : ℕ) :
  Calm false false (List.replicate n 32 ++ m)
  := by
  induction n with
  | zero => apply h
  | succ n ih => exact ⟨by decide, fun heq => absurd heq (by decide), ih⟩

theorem Calm.quoted {m : Bytes} (h : Calm false false m) (q : QuotedText) :
  Calm false false (q.quoted ++ newline :: m)
  := by
  rw [QuotedText.quoted, List.cons_append, List.append_assoc]
  refine ⟨by decide, fun _ harmed => absurd harmed (by decide), ?_⟩
  rw [calm_append q.doubleQuote_notMem q.delimiter_notMem]
  generalize List.foldl _ _ q.bytes = armed
  refine ⟨by decide, fun _ _ => rfl, by decide, fun heq => absurd heq (by decide), ?_⟩
  cases armed with
  | false => apply h
  | true => apply h

namespace FilterSetting

theorem written_pieces (f : FilterSetting) (m : Bytes) :
  f.written ++ m = text "filter = \x7b pattern => " ++ (f.pattern.quoted ++ newline ::
    (List.replicate f.indent 32 ++ (text "useragent => " ++ (f.agent.quoted ++ newline ::
      (List.replicate f.closing 32 ++ (text "\x7d\n" ++ m))))))
  := by
  have hhead : text "filter = \x7b pattern => "
      = text "filter = \x7b" ++ 32 :: (text "pattern" ++ [32] ++ [equals, 62, 32]) := by decide
  have hagent : text "useragent => " = text "useragent" ++ [32] ++ [equals, 62, 32] := by decide
  rw [written, block_eq, hhead, hagent]
  simp [patternLine, agentLine, QuotedText.line]

theorem calm_written {m : Bytes} (f : FilterSetting) (h : Calm false false m) :
  Calm false false (f.written ++ m)
  := by
  rw [f.written_pieces]
  apply Calm.piece (Calm.quoted (Calm.blanks (Calm.piece (Calm.quoted (Calm.blanks (Calm.piece h
    _ _ _ _) _) _) _ _ _ _) _) _)
  all_goals decide

end FilterSetting

theorem calm_filterFile (fs : List FilterSetting) :
  Calm false false (filterFile fs)
  := by
  induction fs with
  | nil => trivial
  | cons f fs ih => apply f.calm_written ih

/-! ### Reading the file -/

namespace Parse

variable {pcre : Pcre} {home : Option Str} {size : ℕ} {behind : Bytes}

theorem AtRest.split {σ : Type} {p : Parse σ} {rest taken m : Bytes}
    (h : p.AtRest size rest behind) (hmem : p.mem = taken ++ m)
    (hsize : p.pos + taken.length ≤ size) :
  ∃ rest', rest = taken ++ rest' ∧ m = rest' ++ behind
  := by
  have hpos := h.pos
  rcases List.append_eq_append_iff.mp (h.mem.symm.trans hmem) with ⟨x, rfl, hbehind⟩ | ⟨x, rfl, hm⟩
  · rw [List.length_append] at hsize
    obtain rfl : x = [] := List.length_eq_zero_iff.mp (by omega)
    exact ⟨[], by simp, hbehind.symm⟩
  · exact ⟨x, rfl, hm⟩

/-- The parser within a file of filters, with whole filters so far. -/
structure Reading (size : ℕ) (behind : Bytes) (p : Parse (Option Session)) : Prop where
  whole : AllWhole p.state
  file : p.pos < size → ∃ rest armed opened, p.AtRest size rest behind ∧ Calm armed opened rest

/-- The parser stays within the file when it passes a part of it. -/
theorem Reading.pass {p : Parse (Option Session)} {taken m : Bytes}
    (h : p.Reading size behind) (q : Parse (Option Session)) (hpos : p.pos < size)
    (hmem : p.mem = taken ++ m)
    (hq : q.pos = p.pos + taken.length) (hqmem : q.mem = m) (hwhole : AllWhole q.state) :
  q.Reading size behind
  := by
  refine ⟨hwhole, ?_⟩
  intro hend
  obtain ⟨rest, armed, opened, hrest, hcalm⟩ := h.file hpos
  obtain ⟨rest', rfl, hm⟩ := hrest.split hmem (by omega)
  obtain ⟨armed', opened', hcalm'⟩ := hcalm.drop
  refine ⟨rest', armed', opened', ⟨hqmem.trans hm, ?_, ?_⟩, hcalm'⟩
  · have hlength := hrest.pos
    rw [List.length_append] at hlength
    omega
  · have hreach := hrest.reach
    rw [InReach, hmem, List.length_append] at hreach
    rw [InReach, hqmem]
    omega

/-- No value in double quotes is read. -/
theorem Reading.not_doubleQuote {p : Parse (Option Session)} {name before after param m : Bytes}
    (h : p.Reading size behind) (hafter : Blank after) (hline : newline ∉ param)
    (hmem : p.mem = name ++ (before ++ equals :: after) ++ (doubleQuote :: (param ++ [doubleQuote]))
      ++ m)
    (hstart : p.pos + (name ++ (before ++ equals :: after)).length < size) :
  False
  := by
  obtain ⟨rest, armed, opened, hrest, hcalm⟩ := h.file (by omega)
  have hmem' : p.mem = (name ++ (before ++ equals :: after) ++ [doubleQuote])
      ++ (param ++ doubleQuote :: m) := by
    simp [hmem]
  obtain ⟨rest', rfl, hm⟩ := hrest.split hmem' (by rw [List.length_append]; exact hstart)
  have hcut : name ++ (before ++ equals :: after) ++ [doubleQuote] ++ rest'
      = name ++ before ++ (equals :: (after ++ doubleQuote :: rest')) := by
    simp
  rw [hcut] at hcalm
  obtain ⟨armed', opened', hequals⟩ := hcalm.drop
  obtain ⟨tail, rfl⟩ := List.head?_eq_some_iff.mp (hequals.endsLine_of_equals hafter)
  cases param with
  | nil => cases (List.cons.inj hm).1
  | cons c param =>
    apply hline
    rw [(List.cons.inj hm).1]
    apply List.mem_cons_self

/-- A value in single quotes holds at most one double quote, and no delimiter. -/
theorem Reading.within_singleQuotes {p : Parse (Option Session)} {head param m : Bytes}
    (h : p.Reading size behind) (hline : newline ∉ param)
    (hmem : p.mem = head ++ (singleQuote :: (param ++ [singleQuote])) ++ m)
    (hwithin : p.pos + head.length + (param.length + 2) ≤ size + 1) :
  delimiter ∉ param ∧ ∀ x y, param = x ++ doubleQuote :: y → doubleQuote ∉ y
  := by
  obtain ⟨rest, armed, opened, hrest, hcalm⟩ := h.file (by omega)
  have hmem' : p.mem = (head ++ singleQuote :: param) ++ (singleQuote :: m) := by
    simp [hmem]
  obtain ⟨rest', rfl, hm⟩ := hrest.split hmem' (by simp; omega)
  constructor
  · intro hdelimiter
    apply hcalm.delimiter_notMem
    simp [hdelimiter]
  · intro x y hparam hquote
    obtain ⟨w, v, rfl⟩ := List.append_of_mem hquote
    have hcut : head ++ singleQuote :: param ++ rest'
        = head ++ singleQuote :: x ++ (doubleQuote :: (w ++ doubleQuote :: (v ++ rest'))) := by
      simp [hparam]
    rw [hcut] at hcalm
    obtain ⟨armed', opened', hfirst⟩ := hcalm.drop
    have hw : newline ∉ w := by
      intro hw
      apply hline
      simp [hparam, hw]
    obtain ⟨tail, hend⟩ := List.head?_eq_some_iff.mp (hfirst.endsLine_of_second hw)
    cases v with
    | nil =>
      rw [List.nil_append] at hend
      rw [hend] at hm
      cases (List.cons.inj hm).1
    | cons c v =>
      apply hline
      rw [hparam, ← (List.cons.inj hend).1]
      simp

/-- A value in single quotes with at most one double quote has one part. -/
theorem singlePart_singleQuoted {param : Bytes} (hfree : singleQuote ∉ param)
    (hline : newline ∉ param) (hdelimiter : delimiter ∉ param)
    (hone : ∀ x y, param = x ++ doubleQuote :: y → doubleQuote ∉ y) :
  SinglePart (cstr param)
  := by
  have hcstr := cstr_initial param
  apply singlePart_of
  · exact fun h => hline (hcstr.subset h)
  · exact fun h => hdelimiter (hcstr.subset h)
  intro c rest hskip hc
  obtain ⟨z, hz⟩ := hcstr
  have hcut : cstr param = (cstr param).takeWhile isspace ++ c :: rest := by
    rw [← hskip, skipSpaces, List.takeWhile_append_dropWhile]
  have hparam : param = (cstr param).takeWhile isspace ++ c :: (rest ++ z) := by
    rw [← List.cons_append, ← List.append_assoc, ← hcut, hz]
  obtain rfl : c = doubleQuote := by
    rcases Bool.or_eq_true_iff.mp hc with h | h
    · apply beq_iff_eq.mp h
    · obtain rfl := beq_iff_eq.mp h
      apply absurd _ hfree
      rw [hparam]
      simp
  intro hmem
  apply hone _ _ hparam
  apply List.mem_append_left z hmem

/-- A value without quotes or braces has one part. -/
theorem singlePart_bare {param : Bytes} (h : (Value.bare param).WellFormed) :
  SinglePart (cstr param)
  := by
  obtain ⟨hchars, -, hopener⟩ := h
  have hcstr := cstr_initial param
  have hnotMem {b : Byte} (hb : isParamChar b = false) : b ∉ cstr param := by
    intro hmem
    cases hb.symm.trans (hchars b (hcstr.subset hmem))
  apply singlePart_of (hnotMem rfl) (hnotMem rfl)
  intro c rest hskip hc
  have hspaces : skipSpaces (cstr param) = cstr param := by
    cases hparam : cstr param with
    | nil => rfl
    | cons b m =>
      apply skipSpaces_text
      apply isspace_of_isParamChar
      apply hchars b
      apply hcstr.subset
      rw [hparam]
      apply List.mem_cons_self
  obtain ⟨z, hz⟩ := hcstr
  rw [← hspaces, hskip] at hz
  obtain ⟨hdouble, hsingle, -⟩ := hopener c (by rw [← hz]; rfl)
  simp [isQuote, hdouble, hsingle] at hc

/-- Whatever the parser reads within a file of filters makes whole filters. -/
theorem Reading.makesWhole {p : Parse (Option Session)} {e : Entry} {m : Bytes}
    (h : p.Reading size behind) (he : e.WellFormed) (hmem : p.mem = e.text ++ m)
    (hstart : p.pos + e.head.length < size)
    (hwithin : e.value.Within size (p.pos + e.head.length)) :
  MakesWhole (cstr e.value.param)
  := by
  have hvalue := he.value
  rw [Entry.text] at hmem
  cases hv : e.value with
  | braced param =>
    rw [hv] at hvalue
    left
    exact fun hb => hvalue.1 ((cstr_initial param).subset hb)
  | bare param =>
    rw [hv] at hvalue
    right
    apply singlePart_bare hvalue
  | quoted quote param =>
    rw [hv] at hvalue hmem hwithin
    obtain ⟨hquote, hfree, hline, -⟩ := hvalue
    rcases hquote with rfl | rfl
    · apply (h.not_doubleQuote he.after hline hmem hstart).elim
    · have hlength : p.pos + e.head.length + (param.length + 2) ≤ size + 1 := by
        simpa [Value.Within, Value.text] using hwithin
      obtain ⟨hdelimiter, hone⟩ := h.within_singleQuotes hline hmem hlength
      right
      apply singlePart_singleQuoted hfree hline hdelimiter hone

/-- A run in a file of filters leaves whole filters. -/
theorem run_whole {p : Parse (Option Session)} (h : p.Reading size behind)
    {r : Parsed (Option Session)}
    (hr : (parseLoop (setOption pcre home) size).run p = some r) :
  r.ret = -1 ∨ AllWhole r.state
  := by
  have hblank (p : Parse (Option Session)) (gap rest : Bytes) (hp : p.Reading size behind)
      (hmem : p.mem = gap ++ rest) (_ : Blank gap) (hpos : p.pos + gap.length < size) :
      (p.move gap rest).Reading size behind :=
    hp.pass (p.move gap rest) (by omega) hmem rfl rfl hp.whole
  have hcomment (p : Parse (Option Session)) (body rest : Bytes) (hp : p.Reading size behind)
      (hmem : p.mem = hash :: (body ++ newline :: rest)) (_ : newline ∉ body)
      (hpos : p.pos < size) :
      (p.move (hash :: (body ++ [newline])) rest).Reading size behind := by
    have htaken : p.mem = (hash :: (body ++ [newline])) ++ rest := by
      simp [hmem]
    apply hp.pass (p.move (hash :: (body ++ [newline])) rest) hpos htaken rfl rfl hp.whole
  have hentry (p : Parse (Option Session)) (e : Entry) (rest : Bytes) (hp : p.Reading size behind)
      (hmem : p.mem = e.text ++ rest) (he : e.WellFormed) (hstart : p.pos + e.head.length < size)
      (hwithin : e.value.Within size (p.pos + e.head.length)) (_ : e.value.EndsBefore rest) :
      (p.afterEntry (setOption pcre home) e rest).Reading size behind := by
    have hwhole : AllWhole (setOption pcre home p.state e.name (cstr e.value.param) e.value.type) :=
      setOption_whole (hp.makesWhole he hmem hstart hwithin) hp.whole
    apply hp.pass (p.afterEntry (setOption pcre home) e rest) (by omega) hmem rfl rfl hwhole
  rcases run_invariant hblank hcomment hentry p h r hr with hret | ⟨q, hq, hstate, -⟩
  · left
    apply hret
  · right
    rw [hstate]
    apply hq.whole

end Parse

/-! ### Filters arrive unchanged -/

/-- Text stands behind the content of a file, after whitespace that an `int` can pass. -/
def TextBehind (content beyond : Bytes) : Prop :=
  ∃ gap b tail, beyond = gap ++ b :: tail ∧ Blank gap ∧ isspace b = false
    ∧ content.length + gap.length ≤ INT_MAX

theorem blank_or_text (m : Bytes) :
  Blank m ∨ ∃ gap b tail, m = gap ++ b :: tail ∧ Blank gap ∧ isspace b = false
  := by
  rcases whitespace.run_cases 0 m with ⟨htakes, -⟩ | ⟨gap, b, tail, hm, htakes, hb, -⟩
    | ⟨gap, b, tail, hm, htakes, -, hrefused, -⟩
  · left
    intro c hc
    simpa [whitespace] using (htakes.1 c hc).1
  · right
    refine ⟨gap, b, tail, hm, ?_, by simpa [whitespace] using hb⟩
    intro c hc
    simpa [whitespace] using (htakes.1 c hc).1
  · cases hrefused

/-- What can be reached behind the content holds text. -/
theorem textBehind_iff {content beyond : Bytes} (hsize : content.length ≤ INT_MAX) :
  TextBehind content beyond
    ↔ ∃ gap b tail, beyond.take (INT_MAX + 1 - content.length) = gap ++ b :: tail ∧ Blank gap
      ∧ isspace b = false
  := by
  constructor
  · rintro ⟨gap, b, tail, rfl, hgap, hb, hlength⟩
    refine ⟨gap, b, tail.take (INT_MAX - content.length - gap.length), ?_, hgap, hb⟩
    rw [List.take_append, List.take_of_length_le (by omega),
      show INT_MAX + 1 - content.length - gap.length
        = INT_MAX - content.length - gap.length + 1 by omega, List.take_succ_cons]
  · rintro ⟨gap, b, tail, htake, hgap, hb⟩
    refine ⟨gap, b, tail ++ beyond.drop (INT_MAX + 1 - content.length), ?_, hgap, hb, ?_⟩
    · rw [← List.cons_append, ← List.append_assoc, ← htake, List.take_append_drop]
    · have hlength := congrArg List.length htake
      rw [List.length_take, List.length_append, List.length_cons] at hlength
      omega

/-- The filters of a file arrive. -/
theorem parse_filters (pcre : Pcre) (home : Option Str) (s : Session) {fs : List FilterSetting}
    {beyond : Bytes} (hfs : fs ≠ []) (hfree : ∀ f ∈ fs, f.BraceFree)
    (htext : TextBehind (filterFile fs) beyond) :
  ∃ r, parseContent (setOption pcre home) (filterFile fs) beyond (some s) = some r ∧ r.ret = 0
    ∧ r.state = some { s with filters := (fs.map FilterSetting.filter).reverse ++ s.filters }
  := by
  obtain ⟨f, fs, rfl⟩ := List.exists_cons_of_ne_nil hfs
  have hsize : (filterFile (f :: fs)).length ≤ INT_MAX := by
    obtain ⟨gap, b, tail, -, -, -, hlength⟩ := htext
    omega
  obtain ⟨gap, b, tail, hbehind, hgap, hb⟩ := (textBehind_iff hsize).mp htext
  apply Parse.run_filters (atRest_content hsize beyond (some s)) hfree rfl hgap hb hbehind

/-- Filters that arrive hold no closing brace, and text stands behind their file. -/
theorem free_of_parse_filters (pcre : Pcre) (home : Option Str) (s : Session)
    {fs : List FilterSetting} {beyond : Bytes} {r : Parsed (Option Session)} {s' : Session}
    (hfs : fs ≠ [])
    (hr : parseContent (setOption pcre home) (filterFile fs) beyond
      (some { s with filters := [] }) = some r)
    (hret : r.ret = 0) (hstate : r.state = some s')
    (hfilters : s'.filters = (fs.map FilterSetting.filter).reverse) :
  (∀ f ∈ fs, f.BraceFree) ∧ TextBehind (filterFile fs) beyond
  := by
  have hreach : (⟨0, (filterFile fs ++ beyond).take (INT_MAX + 1), 0, [],
      some { s with filters := [] }⟩ : Parse (Option Session)).InReach := by
    rw [Parse.InReach, Nat.zero_add]
    apply List.length_take_le
  have hsize : (filterFile fs).length ≤ INT_MAX := Parse.size_le_of_run hreach hr hret
  have hrest := atRest_content hsize beyond (some { s with filters := [] })
  have hfree : ∀ f ∈ fs, f.BraceFree := by
    intro f hf
    have hwhole : AllWhole (some { s with filters := [] }) := by
      rintro s₀ ⟨⟩ g hg
      cases hg
    have hreading : Parse.Reading (filterFile fs).length _ _ :=
      ⟨hwhole, fun _ => ⟨filterFile fs, false, false, hrest, calm_filterFile fs⟩⟩
    rcases Parse.run_whole hreading hr with hfail | hall
    · cases hfail.symm.trans hret
    · have hmem : f.filter ∈ s'.filters := by
        rw [hfilters, List.mem_reverse]
        apply List.mem_map_of_mem hf
      rcases hall s' hstate f.filter hmem with hnone | ⟨hpattern, hagent⟩
      · cases hnone
      · exact ⟨hpattern _ rfl, hagent _ rfl⟩
  refine ⟨hfree, (textBehind_iff hsize).mpr ?_⟩
  rcases blank_or_text (beyond.take (INT_MAX + 1 - (filterFile fs).length)) with hblank | htext
  · obtain ⟨f, fs, rfl⟩ := List.exists_cons_of_ne_nil hfs
    cases (Parse.run_filters_blank hrest hfree rfl hblank).symm.trans hr
  · apply htext

theorem filterFile_ne_nil {fs : List FilterSetting} (hfs : fs ≠ []) :
  filterFile fs ≠ []
  := by
  obtain ⟨f, fs, rfl⟩ := List.exists_cons_of_ne_nil hfs
  rintro ⟨⟩

/-- Filters are read from a file exactly as they are written in it, and the parser returns
0, when there is a filter, none of them holds a closing brace, and text stands behind the
file. -/
theorem filters_arrive_iff (pcre : Pcre) (home : Option Str) (s : Session)
    (fs : List FilterSetting) (beyond : Bytes) :
  (∃ r s', parseConfigFile (setOption pcre home) (some (filterFile fs)) beyond
        (some { s with filters := [] }) = some r
      ∧ r.ret = 0 ∧ r.state = some s' ∧ s'.filters = (fs.map FilterSetting.filter).reverse)
    ↔ fs ≠ [] ∧ (∀ f ∈ fs, f.BraceFree) ∧ TextBehind (filterFile fs) beyond
  := by
  constructor
  · rintro ⟨r, s', hr, hret, hstate, hfilters⟩
    have hfs : fs ≠ [] := by
      rintro rfl
      cases hr
      cases hret
    rw [parseConfigFile, if_neg (filterFile_ne_nil hfs)] at hr
    exact ⟨hfs, free_of_parse_filters pcre home s hfs hr hret hstate hfilters⟩
  · rintro ⟨hfs, hfree, htext⟩
    obtain ⟨r, hr, hret, hstate⟩ := parse_filters pcre home { s with filters := [] } hfs hfree htext
    refine ⟨r, _, ?_, hret, hstate, List.append_nil _⟩
    rw [parseConfigFile, if_neg (filterFile_ne_nil hfs), hr]

/-- A filter with a quantifier in its pattern. -/
def quantified : FilterSetting where
  pattern := ⟨text "h[0-9]\x7b3,4\x7dp", by decide, List.all_eq_true.mp (by decide), by decide⟩
  agent := ⟨text "QuickTime", by decide, List.all_eq_true.mp (by decide), by decide⟩
  indent := 11
  closing := 9
  fits := by decide

/-- The brace of a quantifier ends the list: the parser returns -1. -/
theorem quantifier_torn :
  ¬ ∃ r s', parseConfigFile (setOption .plain none) (some (filterFile [quantified])) [0]
        (some { Session.plain [] [] with filters := [] }) = some r
      ∧ r.ret = 0 ∧ r.state = some s' ∧ s'.filters = [quantified.filter]
  := by
  rintro ⟨r, s', hr, hret, -⟩
  have hfail : (parseConfigFile (setOption .plain none) (some (filterFile [quantified])) [0]
      (some { Session.plain [] [] with filters := [] })).map Parsed.ret = some (-1) := by
    decide +kernel
  rw [hr, Option.map_some, hret] at hfail
  cases hfail

end Trailermatic
