import Trailermatic.Config.Parser

/-!
# The grammar of the configuration file

An entry is an option name, an equals sign and a value.  Each part of the parser takes
what the grammar says and nothing else: `readParam_value` says what the parser makes of
a value, and `paramRead` that whatever it reads is a value, or a syntax error, or does
not end before memory does.
-/

namespace Trailermatic

/-- A parameter as it is written. -/
inductive Value where
  | quoted (quote : Byte) (param : Bytes)
  | braced (param : Bytes)
  | bare (param : Bytes)

namespace Value

/-- The parameter that `setOption` is given. -/
def param : Value → Bytes
  | quoted _ param => param
  | braced param => param
  | bare param => param

/-- The type of option that the form stands for. -/
def type : Value → OptionType
  | quoted .. => .string
  | braced .. => .stringlist
  | bare .. => .int

/-- The value as it is written, with its quotes or braces. -/
def text : Value → Bytes
  | quoted quote param => quote :: (param ++ [quote])
  | braced param => openBrace :: (param ++ [closeBrace])
  | bare param => param

/-- The values that are read as they are written. -/
def WellFormed : Value → Prop
  | quoted quote param => (quote = doubleQuote ∨ quote = singleQuote) ∧ quote ∉ param
      ∧ newline ∉ param ∧ param.length ≤ MAX_PARAM_LEN
  | braced param => closeBrace ∉ param ∧ param.length ≤ MAX_PARAM_LEN
  | bare param => (∀ b ∈ param, isParamChar b = true) ∧ param.length < MAX_PARAM_LEN
      ∧ ∀ b ∈ param.head?, b ≠ doubleQuote ∧ b ≠ singleQuote ∧ b ≠ openBrace

/-- The value ends where the bytes `rest` begin. -/
def EndsBefore (rest : Bytes) : Value → Prop
  | bare param => ∃ b tail, rest = b :: tail ∧ isParamChar b = false
      ∧ (param = [] → isspace b = false)
  | _ => True

/-- A value that is closed, at the position `pos`, is closed no later than at the end of
the file. -/
def Within (size pos : ℕ) : Value → Prop
  | bare _ => True
  | v => pos + v.text.length ≤ size + 1

theorem within_of_le {size pos : ℕ} {v : Value} (h : pos + v.text.length ≤ size + 1) :
  v.Within size pos
  := by
  cases v with
  | quoted quote param => apply h
  | braced param => apply h
  | bare param => trivial

end Value

/-- An entry and the whitespace around its equals sign. -/
structure Entry where
  name : Bytes
  before : Bytes
  after : Bytes
  value : Value

namespace Entry

/-- What comes before the value. -/
def head (e : Entry) : Bytes :=
  e.name ++ (e.before ++ equals :: e.after)

/-- The entry as it is written. -/
def text (e : Entry) : Bytes :=
  e.head ++ e.value.text

/-- Entries whose name and value have the characters and the lengths that the parser takes. -/
structure WellFormed (e : Entry) : Prop where
  name_ne_nil : e.name ≠ []
  name_length : e.name.length < MAX_OPT_LEN
  name_chars : ∀ b ∈ e.name, isOptChar b = true
  before : Blank e.before
  after : Blank e.after
  value : e.value.WellFormed

end Entry

/-! ### Characters -/

theorem isspace_of_isOptChar {b : Byte} (h : isOptChar b = true) :
  isspace b = false
  := by
  grind [isOptChar, isspace_of_isprint]

theorem isOptChar_of_isspace {b : Byte} (h : isspace b = true) :
  isOptChar b = false
  := by
  grind [isspace_of_isOptChar]

theorem ne_hash_of_isOptChar {b : Byte} (h : isOptChar b = true) :
  b ≠ hash
  := by
  grind [isOptChar]

theorem isspace_of_isParamChar {b : Byte} (h : isParamChar b = true) :
  isspace b = false
  := by
  grind [isParamChar]

/-! ### Evaluating the parts of a turn -/

namespace Parse

variable {σ : Type} {setOption : σ → Bytes → Bytes → OptionType → σ} {size : ℕ} {p : Parse σ}

theorem skipWhitespace_eq {gap : Bytes} {b : Byte} {rest : Bytes} (hgap : Blank gap)
    (hb : isspace b = false) (hmem : p.mem = gap ++ b :: rest) :
  p.skipWhitespace size
    = if size ≤ p.pos + gap.length then (p.move gap (b :: rest)).leave 0
      else .ok (p.move gap (b :: rest))
  := by
  have hscan : whitespace.run 0 p.mem = .stopped gap (b :: rest) := by
    rw [hmem]
    apply Scanner.run_eq_stopped (fun _ => rfl) (fun _ => rfl)
    · intro c hc
      simp [whitespace, hgap c hc]
    · simp [whitespace, hb]
  rw [skipWhitespace, hscan]
  rfl

theorem skipWhitespace_cases (size : ℕ) (p : Parse σ) :
  p.skipWhitespace size = fault
    ∨ ∃ gap b rest, p.mem = gap ++ b :: rest ∧ Blank gap ∧ isspace b = false
  := by
  rcases whitespace.run_eq_fault_or (fun _ => rfl) (fun _ => rfl) 0 p.mem with
    hscan | ⟨gap, b, rest, hmem, hgap, hb⟩
  · left
    rw [skipWhitespace, hscan]
  · right
    refine ⟨gap, b, rest, hmem, ?_, by simpa [whitespace] using hb⟩
    intro c hc
    simpa [whitespace] using hgap c hc

theorem skipComment_eq {body rest : Bytes} (hbody : newline ∉ body)
    (hmem : p.mem = body ++ newline :: rest) :
  p.skipComment = .ok (p.move (body ++ [newline]) rest)
  := by
  have hscan : comment.run 0 p.mem = .stopped body (newline :: rest) := by
    rw [hmem]
    apply Scanner.run_eq_stopped (fun _ => rfl) (fun _ => rfl)
    · intro c hc
      simp only [comment, beq_eq_false_iff_ne]
      rintro rfl
      apply hbody hc
    · rfl
  rw [skipComment, hscan]
  rfl

theorem skipComment_cases (p : Parse σ) :
  p.skipComment = fault ∨ ∃ body rest, p.mem = body ++ newline :: rest ∧ newline ∉ body
  := by
  rcases comment.run_eq_fault_or (fun _ => rfl) (fun _ => rfl) 0 p.mem with
    hscan | ⟨body, b, rest, hmem, hbody, hb⟩
  · left
    rw [skipComment, hscan]
  · right
    obtain rfl : b = newline := by simpa [comment] using hb
    refine ⟨body, rest, hmem, ?_⟩
    intro hmem
    have hstop := hbody newline hmem
    simp [comment] at hstop

theorem readOption_eq {name : Bytes} {b : Byte} {rest : Bytes}
    (hname : ∀ c ∈ name, isOptChar c = true) (hb : isOptChar b = false)
    (hmem : p.mem = name ++ b :: rest) :
  p.readOption
    = if name = [] ∨ MAX_OPT_LEN ≤ name.length then
        ((p.move name (b :: rest)).copy .opt name.length).leave (-1)
      else .ok (name, { (p.move name (b :: rest)).copy .opt (name.length + 1) with
        names := p.names + 1 })
  := by
  have hscan : optName.run 0 p.mem = .stopped name (b :: rest) := by
    rw [hmem]
    apply Scanner.run_eq_stopped (fun _ => rfl) (fun _ => rfl)
    · intro c hc
      simp [optName, hname c hc]
    · simp [optName, hb]
  rw [readOption, hscan]
  rfl

theorem readOption_cases (p : Parse σ) :
  p.readOption = fault ∨ ∃ name b rest, p.mem = name ++ b :: rest
    ∧ (∀ c ∈ name, isOptChar c = true) ∧ isOptChar b = false
  := by
  rcases optName.run_eq_fault_or (fun _ => rfl) (fun _ => rfl) 0 p.mem with
    hscan | ⟨name, b, rest, hmem, hname, hb⟩
  · left
    rw [readOption, hscan]
  · right
    refine ⟨name, b, rest, hmem, ?_, by simpa [optName] using hb⟩
    intro c hc
    simpa [optName] using hname c hc

theorem readClosed_eq {s : Scanner Byte} {param rest : Bytes} {c : Byte}
    (htakes : s.Takes 0 param) (hc : s.stop c = true) (hmem : p.mem = param ++ c :: rest) :
  p.readClosed s
    = .ok (param, (p.move (param ++ [c]) rest).copy .param (param.length + 1))
  := by
  have hscan : s.run 0 p.mem = .stopped param (c :: rest) :=
    s.stopped_iff.mpr ⟨hmem, htakes, c, rest, rfl, hc⟩
  rw [readClosed, hscan]
  rfl

theorem readClosed_refused {s : Scanner Byte} {param rest : Bytes} {b : Byte}
    (htakes : s.Takes 0 param) (hb : s.stop b = false)
    (hrefused : (s.room param.length && s.ok b) = false) (hmem : p.mem = param ++ b :: rest) :
  p.readClosed s = (p.copy .param param.length).leave (-1)
  := by
  have hscan : s.run 0 p.mem = .refused param (b :: rest) := by
    apply s.refused_iff.mpr
    refine ⟨hmem, htakes, b, rest, rfl, hb, ?_⟩
    rw [Nat.zero_add]
    apply hrefused
  rw [readClosed, hscan]

theorem readClosed_cases (s : Scanner Byte) (p : Parse σ) :
  p.readClosed s = fault
    ∨ ∃ param b rest, p.mem = param ++ b :: rest ∧ s.Takes 0 param
      ∧ (s.stop b = true ∨ s.stop b = false ∧ (s.room param.length && s.ok b) = false)
  := by
  rcases s.run_cases 0 p.mem with ⟨-, hscan⟩ | ⟨param, b, rest, hmem, htakes, hb, -⟩
    | ⟨param, b, rest, hmem, htakes, hb, hrefused, -⟩
  · left
    rw [readClosed, hscan]
  · right
    exact ⟨param, b, rest, hmem, htakes, Or.inl hb⟩
  · right
    rw [Nat.zero_add] at hrefused
    exact ⟨param, b, rest, hmem, htakes, Or.inr ⟨hb, hrefused⟩⟩

theorem readBare_eq {param rest : Bytes} {b : Byte} (htakes : bare.Takes 0 param)
    (hb : isParamChar b = false) (hmem : p.mem = param ++ b :: rest) :
  p.readBare = .ok (param, (p.move param (b :: rest)).copy .param (param.length + 1))
  := by
  have hscan : bare.run 0 p.mem = .stopped param (b :: rest) :=
    bare.stopped_iff.mpr ⟨hmem, htakes, b, rest, rfl, by simp [bare, hb]⟩
  rw [readBare, hscan]

theorem readBare_refused {param rest : Bytes} {b : Byte} (htakes : bare.Takes 0 param)
    (hb : isParamChar b = true) (hlength : param.length + 1 = MAX_PARAM_LEN)
    (hmem : p.mem = param ++ b :: rest) :
  p.readBare = (p.copy .param (param.length + 1)).leave (-1)
  := by
  have hscan : bare.run 0 p.mem = .refused param (b :: rest) := by
    apply bare.refused_iff.mpr
    refine ⟨hmem, htakes, b, rest, rfl, by simp [bare, hb], ?_⟩
    simp [bare, hlength]
  rw [readBare, hscan]

end Parse

/-! ### What the parameter scanners take -/

theorem room_iff (n pos size : ℕ) :
  (∀ k < n, (pos + k < size && k < MAX_PARAM_LEN : Bool) = true)
    ↔ n ≤ MAX_PARAM_LEN ∧ (n = 0 ∨ pos + n ≤ size)
  := by
  simp only [Bool.and_eq_true, decide_eq_true_eq]
  constructor
  · intro h
    rcases Nat.eq_zero_or_pos n with rfl | hn
    · simp
    · have hlast := h (n - 1) (by omega)
      omega
  · rintro ⟨hmax, hsize⟩ k hk
    omega

theorem takes_quoted_iff {quote : Byte} {size pos : ℕ} {param : Bytes} :
  (quoted quote size pos).Takes 0 param
    ↔ (quote ∉ param ∧ newline ∉ param) ∧ param.length ≤ MAX_PARAM_LEN
      ∧ (param.length = 0 ∨ pos + param.length ≤ size)
  := by
  rw [← room_iff, Scanner.Takes]
  apply and_congr
  · simp only [quoted, beq_eq_false_iff_ne, bne_iff_ne, forall_and]
    apply and_congr
    · exact ⟨fun h hmem => h _ hmem rfl, fun h b hb heq => h (heq ▸ hb)⟩
    · exact ⟨fun h hmem => h _ hmem rfl, fun h b hb heq => h (heq ▸ hb)⟩
  · simp only [quoted, Nat.zero_add]

theorem takes_braced_iff {size pos : ℕ} {param : Bytes} :
  (braced size pos).Takes 0 param
    ↔ closeBrace ∉ param ∧ param.length ≤ MAX_PARAM_LEN
      ∧ (param.length = 0 ∨ pos + param.length ≤ size)
  := by
  rw [← room_iff, Scanner.Takes]
  apply and_congr
  · simp only [braced, beq_eq_false_iff_ne, and_true]
    exact ⟨fun h hmem => h _ hmem rfl, fun h b hb heq => h (heq ▸ hb)⟩
  · simp only [braced, Nat.zero_add]

theorem takes_bare_iff {param : Bytes} :
  bare.Takes 0 param ↔ (∀ b ∈ param, isParamChar b = true) ∧ param.length < MAX_PARAM_LEN
  := by
  rw [Scanner.Takes]
  apply and_congr
  · simp [bare]
  · simp only [bare, Nat.zero_add, decide_eq_true_eq]
    constructor
    · intro h
      rcases Nat.eq_zero_or_pos param.length with hzero | hpos
      · rw [hzero]
        decide
      · have hlast := h (param.length - 1) (by omega)
        omega
    · intro h k hk
      omega

theorem not_opener_of_not_isParamChar {b : Byte} (h : isParamChar b = false) :
  ¬ (b = doubleQuote ∨ b = singleQuote) ∧ b ≠ openBrace
  := by
  refine ⟨?_, ?_⟩
  · rintro (rfl | rfl)
    · cases h
    · cases h
  · rintro rfl
    cases h

namespace Parse

variable {σ : Type} {setOption : σ → Bytes → Bytes → OptionType → σ} {size : ℕ} {p : Parse σ}

theorem readParam_quote {quote : Byte} {rest : Bytes}
    (hquote : quote = doubleQuote ∨ quote = singleQuote) (hmem : p.mem = quote :: rest) :
  p.readParam size = Prod.mk .string <$>
    (p.move [quote] rest).readClosed (quoted quote size (p.pos + 1))
  := by
  rw [readParam, hmem]
  simp only
  rw [if_pos hquote]
  rfl

theorem readParam_brace {rest : Bytes} (hmem : p.mem = openBrace :: rest) :
  p.readParam size = Prod.mk .stringlist <$>
    (p.move [openBrace] rest).readClosed (braced size (p.pos + 1))
  := by
  rw [readParam, hmem]
  simp only
  rw [if_neg (by decide), if_pos trivial]
  rfl

theorem readParam_bare {b : Byte} {rest : Bytes} (hb : ¬ (b = doubleQuote ∨ b = singleQuote))
    (hbrace : b ≠ openBrace) (hmem : p.mem = b :: rest) :
  p.readParam size = Prod.mk .int <$> p.readBare
  := by
  rw [readParam, hmem]
  simp only
  rw [if_neg hb, if_neg hbrace]

/-- A value is read as its parameter. -/
theorem readParam_value {v : Value} (hv : v.WellFormed) (hwithin : v.Within size p.pos)
    {rest : Bytes} (hends : v.EndsBefore rest) (hmem : p.mem = v.text ++ rest) :
  p.readParam size
    = .ok (v.type, v.param, (p.move v.text rest).copy .param (v.param.length + 1))
  := by
  cases v with
  | quoted quote param =>
    obtain ⟨hquote, hfree, hline, hlength⟩ := hv
    have hmem' : p.mem = quote :: (param ++ quote :: rest) := by simp [hmem, Value.text]
    have htakes : (Trailermatic.quoted quote size (p.pos + 1)).Takes 0 param := by
      apply takes_quoted_iff.mpr ⟨⟨hfree, hline⟩, hlength, _⟩
      simp [Value.Within, Value.text] at hwithin
      omega
    rw [readParam_quote hquote hmem', readClosed_eq htakes (beq_self_eq_true quote) rfl]
    simp [move, copy, Value.text, Value.type, Value.param, Functor.map, Except.map]
    omega
  | braced param =>
    obtain ⟨hfree, hlength⟩ := hv
    have hmem' : p.mem = openBrace :: (param ++ closeBrace :: rest) := by
      simp [hmem, Value.text]
    have htakes : (Trailermatic.braced size (p.pos + 1)).Takes 0 param := by
      apply takes_braced_iff.mpr ⟨hfree, hlength, _⟩
      simp [Value.Within, Value.text] at hwithin
      omega
    rw [readParam_brace hmem', readClosed_eq htakes (beq_self_eq_true closeBrace) rfl]
    simp [move, copy, Value.text, Value.type, Value.param, Functor.map, Except.map]
    omega
  | bare param =>
    obtain ⟨hchars, hlength, hopener⟩ := hv
    obtain ⟨b, tail, rfl, hb, -⟩ := hends
    have htakes := takes_bare_iff.mpr ⟨hchars, hlength⟩
    have hbare : p.readParam size = Prod.mk .int <$> p.readBare := by
      cases param with
      | nil =>
        obtain ⟨hquote, hbrace⟩ := not_opener_of_not_isParamChar hb
        apply readParam_bare hquote hbrace hmem
      | cons c param =>
        obtain ⟨hdouble, hsingle, hbrace⟩ := hopener c rfl
        apply readParam_bare (by simp [hdouble, hsingle]) hbrace hmem
    rw [hbare, readBare_eq htakes hb hmem]
    rfl

end Parse

/-! ### Syntax errors -/

/-- Bytes at which reading a parameter fails: a quoted parameter meets a newline, or a
parameter is too long. -/
inductive ParamFails : Bytes → Prop where
  | quoted (quote : Byte) (param : Bytes) (b : Byte) (rest : Bytes)
      (opener : quote = doubleQuote ∨ quote = singleQuote) (free : quote ∉ param)
      (line : newline ∉ param) (length : param.length ≤ MAX_PARAM_LEN) (closed : b ≠ quote)
      (bad : b = newline ∨ param.length = MAX_PARAM_LEN) :
    ParamFails (quote :: (param ++ b :: rest))
  | braced (param : Bytes) (b : Byte) (rest : Bytes) (free : closeBrace ∉ param)
      (length : param.length = MAX_PARAM_LEN) (closed : b ≠ closeBrace) :
    ParamFails (openBrace :: (param ++ b :: rest))
  | bare (c : Byte) (param : Bytes) (b : Byte) (rest : Bytes)
      (opener : ¬ (c = doubleQuote ∨ c = singleQuote) ∧ c ≠ openBrace)
      (chars : ∀ x ∈ c :: param, isParamChar x = true) (char : isParamChar b = true)
      (length : (c :: param).length + 1 = MAX_PARAM_LEN) :
    ParamFails (c :: param ++ b :: rest)

/-- Bytes at which reading an entry fails: the name is missing or too long, the equals
sign is missing, or the parameter fails. -/
inductive EntryFails : Bytes → Prop where
  | name (name : Bytes) (b : Byte) (rest : Bytes) (chars : ∀ c ∈ name, isOptChar c = true)
      (stop : isOptChar b = false) (bad : name = [] ∨ MAX_OPT_LEN ≤ name.length) :
    EntryFails (name ++ b :: rest)
  | equals (name gap : Bytes) (b : Byte) (rest : Bytes) (chars : ∀ c ∈ name, isOptChar c = true)
      (good : ¬ (name = [] ∨ MAX_OPT_LEN ≤ name.length)) (gap_blank : Blank gap)
      (text : isspace b = false) (stop : gap = [] → isOptChar b = false) (bad : b ≠ equals) :
    EntryFails (name ++ (gap ++ b :: rest))
  | param (name before after m : Bytes) (chars : ∀ c ∈ name, isOptChar c = true)
      (good : ¬ (name = [] ∨ MAX_OPT_LEN ≤ name.length)) (before_blank : Blank before)
      (after_blank : Blank after) (bad : ParamFails m) :
    EntryFails (name ++ (before ++ Trailermatic.equals :: (after ++ m)))

namespace Parse

variable {σ : Type} {setOption : σ → Bytes → Bytes → OptionType → σ} {size : ℕ} {p : Parse σ}

/-- The loop is left with the value `ret`, and the state is as it was. -/
def Leaves {α : Type} (p : Parse σ) (ret : ℤ) (x : Flow σ α) : Prop :=
  ∃ r : Parsed σ, x = .error (some r) ∧ r.ret = ret ∧ r.state = p.state

theorem Leaves.bind {α β : Type} {ret : ℤ} {x : Flow σ α} (h : p.Leaves ret x)
    (f : α → Flow σ β) :
  p.Leaves ret (x >>= f)
  := by
  obtain ⟨r, rfl, hr⟩ := h
  exact ⟨r, rfl, hr⟩

/-- A parameter that fails makes the parser return `-1`. -/
theorem readParam_fails {m : Bytes} (h : ParamFails m) (hmem : p.mem = m)
    (hsize : p.pos + m.length ≤ size) :
  p.Leaves (-1) (p.readParam size)
  := by
  cases h with
  | quoted quote param b rest hquote hfree hline hlength hclosed hbad =>
    have htakes : (Trailermatic.quoted quote size (p.pos + 1)).Takes 0 param := by
      apply takes_quoted_iff.mpr ⟨⟨hfree, hline⟩, hlength, _⟩
      simp at hsize
      omega
    have hstop : (Trailermatic.quoted quote size (p.pos + 1)).stop b = false := by
      simpa [Trailermatic.quoted] using hclosed
    have hrefused : ((Trailermatic.quoted quote size (p.pos + 1)).room param.length
        && (Trailermatic.quoted quote size (p.pos + 1)).ok b) = false := by
      rcases hbad with rfl | hmax
      · simp [Trailermatic.quoted]
      · simp [Trailermatic.quoted, hmax]
    rw [readParam_quote hquote hmem, readClosed_refused htakes hstop hrefused rfl]
    exact ⟨_, rfl, rfl, rfl⟩
  | braced param b rest hfree hlength hclosed =>
    have htakes : (Trailermatic.braced size (p.pos + 1)).Takes 0 param := by
      apply takes_braced_iff.mpr ⟨hfree, hlength.le, _⟩
      simp at hsize
      omega
    have hstop : (Trailermatic.braced size (p.pos + 1)).stop b = false := by
      simpa [Trailermatic.braced] using hclosed
    have hrefused : ((Trailermatic.braced size (p.pos + 1)).room param.length
        && (Trailermatic.braced size (p.pos + 1)).ok b) = false := by
      simp [Trailermatic.braced, hlength]
    rw [readParam_brace hmem, readClosed_refused htakes hstop hrefused rfl]
    exact ⟨_, rfl, rfl, rfl⟩
  | bare c param b rest hopener hchars hchar hlength =>
    have htakes := takes_bare_iff.mpr ⟨hchars, by omega⟩
    rw [readParam_bare hopener.1 hopener.2 hmem, readBare_refused htakes hchar hlength hmem]
    exact ⟨_, rfl, rfl, rfl⟩

/-- What reading a parameter comes to: a fault, a failure, or a value. -/
def ParamRead (size : ℕ) (p : Parse σ) : Prop :=
  p.readParam size = fault
    ∨ (p.Leaves (-1) (p.readParam size) ∧ (p.pos + p.mem.length ≤ size → ParamFails p.mem))
    ∨ ∃ (v : Value) (rest : Bytes), p.mem = v.text ++ rest ∧ v.WellFormed
      ∧ v.Within size p.pos ∧ v.EndsBefore rest

theorem paramRead_quote {quote : Byte} {m : Bytes} (hpos : p.pos < size)
    (hquote : quote = doubleQuote ∨ quote = singleQuote) (hmem : p.mem = quote :: m) :
  p.ParamRead size
  := by
  rcases readClosed_cases (quoted quote size (p.pos + 1)) (p.move [quote] m) with
    hfault | ⟨param, b, rest, rfl, htakes, hend⟩
  · left
    rw [readParam_quote hquote hmem, hfault]
    rfl
  · obtain ⟨⟨hfree, hline⟩, hlength, hsize⟩ := takes_quoted_iff.mp htakes
    right
    rcases hend with hstop | ⟨hstop, hrefused⟩
    · right
      obtain rfl : b = quote := by simpa [quoted] using hstop
      use .quoted b param, rest
      refine ⟨by simp [hmem, Value.text], ⟨hquote, hfree, hline, hlength⟩, ?_, trivial⟩
      simp [Value.Within, Value.text]
      omega
    · left
      rw [readParam_quote hquote hmem, readClosed_refused htakes hstop hrefused rfl]
      refine ⟨⟨_, rfl, rfl, rfl⟩, ?_⟩
      rw [hmem]
      intro hall
      apply ParamFails.quoted quote param b rest hquote hfree hline hlength
      · simpa [quoted] using hstop
      · simp only [quoted, Bool.and_eq_false_imp, Bool.and_eq_true, decide_eq_true_eq,
          bne_eq_false_iff_eq, and_imp, List.length_cons, List.length_append] at hrefused hall
        rcases eq_or_ne b newline with hb | hb
        · left
          apply hb
        · right
          by_contra hmax
          apply hb
          apply hrefused
          · omega
          · omega

theorem paramRead_brace {m : Bytes} (hpos : p.pos < size) (hmem : p.mem = openBrace :: m) :
  p.ParamRead size
  := by
  rcases readClosed_cases (braced size (p.pos + 1)) (p.move [openBrace] m) with
    hfault | ⟨param, b, rest, rfl, htakes, hend⟩
  · left
    rw [readParam_brace hmem, hfault]
    rfl
  · obtain ⟨hfree, hlength, hsize⟩ := takes_braced_iff.mp htakes
    right
    rcases hend with hstop | ⟨hstop, hrefused⟩
    · right
      obtain rfl : b = closeBrace := by simpa [braced] using hstop
      use .braced param, rest
      refine ⟨by simp [hmem, Value.text], ⟨hfree, hlength⟩, ?_, trivial⟩
      simp [Value.Within, Value.text]
      omega
    · left
      rw [readParam_brace hmem, readClosed_refused htakes hstop hrefused rfl]
      refine ⟨⟨_, rfl, rfl, rfl⟩, ?_⟩
      rw [hmem]
      intro hall
      apply ParamFails.braced param b rest hfree
      · simp [braced] at hrefused hall
        omega
      · simpa [braced] using hstop

theorem paramRead_bare {c : Byte} {m : Bytes} (hc : isspace c = false)
    (hquote : ¬ (c = doubleQuote ∨ c = singleQuote)) (hbrace : c ≠ openBrace)
    (hmem : p.mem = c :: m) :
  p.ParamRead size
  := by
  rw [ParamRead, readParam_bare hquote hbrace hmem]
  rcases bare.run_cases 0 p.mem with ⟨-, hscan⟩ | ⟨param, b, rest, hm, htakes, hb, -⟩
    | ⟨param, b, rest, hm, htakes, hb, hrefused, -⟩
  · left
    rw [readBare, hscan]
    rfl
  · right; right
    obtain ⟨hchars, hlength⟩ := takes_bare_iff.mp htakes
    use .bare param, b :: rest
    refine ⟨hm, ⟨hchars, hlength, ?_⟩, trivial, b, rest, rfl, by simpa [bare] using hb, ?_⟩
    · intro d hd
      obtain ⟨tail, rfl⟩ := List.head?_eq_some_iff.mp hd
      obtain rfl : c = d := (List.cons.inj (hmem.symm.trans hm)).1
      rw [not_or] at hquote
      exact ⟨hquote.1, hquote.2, hbrace⟩
    · rintro rfl
      obtain rfl : c = b := (List.cons.inj (hmem.symm.trans hm)).1
      apply hc
  · right; left
    obtain ⟨hchars, hlength⟩ := takes_bare_iff.mp htakes
    have hchar : isParamChar b = true := by simpa [bare] using hb
    have hmax : param.length + 1 = MAX_PARAM_LEN := by
      simp [bare] at hrefused
      omega
    rw [readBare_refused htakes hchar hmax hm]
    refine ⟨⟨_, rfl, rfl, rfl⟩, ?_⟩
    intro _
    obtain ⟨d, param, rfl⟩ : ∃ d tail, param = d :: tail := by
      apply List.exists_cons_of_ne_nil
      rintro rfl
      cases hmax
    obtain rfl : c = d := (List.cons.inj (hmem.symm.trans hm)).1
    rw [hm]
    apply ParamFails.bare c param b rest ⟨hquote, hbrace⟩ hchars hchar hmax

theorem paramRead (hpos : p.pos < size) {c : Byte} {m : Bytes} (hmem : p.mem = c :: m)
    (hc : isspace c = false) :
  p.ParamRead size
  := by
  by_cases hquote : c = doubleQuote ∨ c = singleQuote
  · apply paramRead_quote hpos hquote hmem
  · rcases eq_or_ne c openBrace with rfl | hbrace
    · apply paramRead_brace hpos hmem
    · apply paramRead_bare hc hquote hbrace hmem

end Parse

end Trailermatic
