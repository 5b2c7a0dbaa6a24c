import Trailermatic.Config.Grammar

/-!
# Reading an entry

`readEntry_entry` says what the parser makes of an entry, and `entryRead` that whatever
it reads is an entry, or a syntax error, or does not end before memory does.
-/

namespace Trailermatic

/-- The first byte of a value, or of what comes after an empty one, is not whitespace. -/
theorem Value.exists_head {v : Value} (hv : v.WellFormed) {rest : Bytes}
    (hends : v.EndsBefore rest) :
  ∃ c m, v.text ++ rest = c :: m ∧ isspace c = false
  := by
  cases v with
  | quoted quote param =>
    refine ⟨quote, param ++ [quote] ++ rest, rfl, ?_⟩
    rcases hv.1 with rfl | rfl
    · rfl
    · rfl
  | braced param => exact ⟨openBrace, param ++ [closeBrace] ++ rest, rfl, rfl⟩
  | bare param =>
    cases param with
    | nil =>
      obtain ⟨b, tail, rfl, -, hb⟩ := hends
      exact ⟨b, tail, rfl, hb rfl⟩
    | cons c param => exact ⟨c, param ++ rest, rfl, isspace_of_isParamChar (hv.1 c (by simp))⟩

namespace Parse

variable {σ : Type} {setOption : σ → Bytes → Bytes → OptionType → σ} {size : ℕ} {p : Parse σ}

/-! ### The head of an entry -/

theorem readEquals_eq {rest : Bytes} (hmem : p.mem = equals :: rest) :
  p.readEquals = .ok (p.move [equals] rest)
  := by
  rw [readEquals, hmem]
  rfl

theorem readEquals_fails {b : Byte} {rest : Bytes} (hb : b ≠ equals) (hmem : p.mem = b :: rest) :
  p.Leaves (-1) p.readEquals
  := by
  rw [readEquals, hmem]
  simp only
  rw [if_neg hb]
  exact ⟨_, rfl, rfl, rfl⟩

/-- Where the parser is when it has read the name and the whitespace after it. -/
def afterName (p : Parse σ) (name gap rest : Bytes) : Parse σ where
  pos := p.pos + name.length + gap.length
  mem := rest
  names := p.names + 1
  copies := p.copies ++ [⟨.opt, name.length + 1⟩]
  state := p.state

/-- A name is read together with the whitespace after it. -/
theorem readName_eq {name gap rest : Bytes} {b : Byte}
    (hname : ¬ (name = [] ∨ MAX_OPT_LEN ≤ name.length))
    (hchars : ∀ c ∈ name, isOptChar c = true) (hgap : Blank gap) (hb : isspace b = false)
    (hstop : gap = [] → isOptChar b = false) (hmem : p.mem = name ++ (gap ++ b :: rest)) :
  ∃ q, p.readOption = .ok (name, q) ∧ q.state = p.state
    ∧ q.skipWhitespace size
      = if size ≤ p.pos + name.length + gap.length then (p.afterName name gap (b :: rest)).leave 0
        else .ok (p.afterName name gap (b :: rest))
  := by
  obtain ⟨c, tail, htail, hc⟩ : ∃ c tail, gap ++ b :: rest = c :: tail ∧ isOptChar c = false := by
    cases gap with
    | nil => exact ⟨b, rest, rfl, hstop rfl⟩
    | cons c gap => exact ⟨c, gap ++ b :: rest, rfl, isOptChar_of_isspace (hgap c (by simp))⟩
  rw [htail] at hmem
  refine ⟨_, (readOption_eq hchars hc hmem).trans (if_neg hname), rfl, ?_⟩
  rw [skipWhitespace_eq hgap hb htail.symm]
  rfl

/-- Where the parser is when it has read the head of an entry. -/
def afterHead (p : Parse σ) (name before after rest : Bytes) : Parse σ where
  pos := p.pos + (name ++ (before ++ equals :: after)).length
  mem := rest
  names := p.names + 1
  copies := p.copies ++ [⟨.opt, name.length + 1⟩]
  state := p.state

theorem readHead_of_name {name gap rest : Bytes} {b : Byte}
    (hname : ¬ (name = [] ∨ MAX_OPT_LEN ≤ name.length))
    (hchars : ∀ c ∈ name, isOptChar c = true) (hgap : Blank gap) (hb : isspace b = false)
    (hstop : gap = [] → isOptChar b = false) (hmem : p.mem = name ++ (gap ++ b :: rest)) :
  p.readHead size
    = if size ≤ p.pos + name.length + gap.length then (p.afterName name gap (b :: rest)).leave 0
      else do
        let q ← (p.afterName name gap (b :: rest)).readEquals
        let q ← q.skipWhitespace size
        return (name, q)
  := by
  obtain ⟨q, hopt, -, hskip⟩ := readName_eq hname hchars hgap hb hstop hmem
  rw [readHead, hopt]
  simp only [bind, Except.bind]
  rw [hskip]
  split_ifs
  · rfl
  · rfl

/-- The head of an entry is read as its name. -/
theorem readHead_eq {name before after rest : Bytes} {c : Byte}
    (hname : ¬ (name = [] ∨ MAX_OPT_LEN ≤ name.length))
    (hchars : ∀ c ∈ name, isOptChar c = true) (hbefore : Blank before) (hafter : Blank after)
    (hc : isspace c = false) (hmem : p.mem = name ++ (before ++ equals :: (after ++ c :: rest)))
    (hsize : p.pos + (name ++ (before ++ equals :: after)).length < size) :
  p.readHead size = .ok (name, p.afterHead name before after (c :: rest))
  := by
  have hlength : p.pos + (name ++ (before ++ equals :: after)).length
      = p.pos + name.length + before.length + 1 + after.length := by
    simp
    omega
  rw [readHead_of_name hname hchars hbefore (by decide) (fun _ => by decide) hmem,
    if_neg (by omega), readEquals_eq rfl]
  simp only [bind, Except.bind]
  rw [skipWhitespace_eq hafter hc rfl, if_neg]
  · simp only [pure, Except.pure, afterHead, afterName, move]
    rw [hlength]
    rfl
  · simp only [afterName, move, List.length_singleton]
    omega

/-- A missing or too long name or a missing equals sign makes the parser return `-1`. -/
theorem readHead_fails_name {name rest : Bytes} {b : Byte}
    (hchars : ∀ c ∈ name, isOptChar c = true) (hb : isOptChar b = false)
    (hbad : name = [] ∨ MAX_OPT_LEN ≤ name.length) (hmem : p.mem = name ++ b :: rest) :
  p.Leaves (-1) (p.readHead size)
  := by
  apply Leaves.bind
  rw [readOption_eq hchars hb hmem, if_pos hbad]
  exact ⟨_, rfl, rfl, rfl⟩

theorem readHead_fails_equals {name gap rest : Bytes} {b : Byte}
    (hname : ¬ (name = [] ∨ MAX_OPT_LEN ≤ name.length))
    (hchars : ∀ c ∈ name, isOptChar c = true) (hgap : Blank gap) (hb : isspace b = false)
    (hstop : gap = [] → isOptChar b = false) (hbad : b ≠ equals)
    (hmem : p.mem = name ++ (gap ++ b :: rest)) (hsize : p.pos + name.length + gap.length < size) :
  p.Leaves (-1) (p.readHead size)
  := by
  rw [readHead_of_name hname hchars hgap hb hstop hmem, if_neg (by omega)]
  apply Leaves.bind
  obtain ⟨r, hr, hret, hstate⟩ := readEquals_fails (p := p.afterName name gap (b :: rest)) hbad rfl
  exact ⟨r, hr, hret, hstate⟩

/-- What reading the head of an entry comes to: a fault, a failure, the end of the file, or
a head. -/
def HeadRead (size : ℕ) (p : Parse σ) : Prop :=
  p.readHead size = fault
    ∨ (p.Leaves (-1) (p.readHead size) ∧ (p.pos + p.mem.length ≤ size → EntryFails p.mem))
    ∨ (p.Leaves 0 (p.readHead size) ∧ size < p.pos + p.mem.length)
    ∨ ∃ name before after c rest, p.mem = name ++ (before ++ equals :: (after ++ c :: rest))
      ∧ ¬ (name = [] ∨ MAX_OPT_LEN ≤ name.length) ∧ (∀ c ∈ name, isOptChar c = true)
      ∧ Blank before ∧ Blank after ∧ isspace c = false
      ∧ p.pos + (name ++ (before ++ equals :: after)).length < size

/-- With a name and an equals sign only the whitespace before the value is left to read. -/
theorem headRead_equals {name gap tail : Bytes}
    (hname : ¬ (name = [] ∨ MAX_OPT_LEN ≤ name.length))
    (hchars : ∀ c ∈ name, isOptChar c = true) (hgap : Blank gap)
    (hmem : p.mem = name ++ (gap ++ equals :: tail))
    (hsize : p.pos + name.length + gap.length < size) :
  p.HeadRead size
  := by
  have hhead := @readHead_of_name σ size p _ _ _ _ hname hchars hgap (by decide)
    (fun _ => by decide) hmem
  rw [if_neg (by omega), readEquals_eq rfl] at hhead
  rcases skipWhitespace_cases size ((p.afterName name gap (equals :: tail)).move [equals] tail)
    with hfault | ⟨after, c, rest, rfl, hafter, hc⟩
  · left
    rw [hhead]
    simp only [bind, Except.bind]
    rw [hfault]
    rfl
  right; right
  by_cases hend : size ≤ p.pos + name.length + gap.length + 1 + after.length
  · left
    constructor
    · rw [hhead]
      simp only [bind, Except.bind]
      rw [skipWhitespace_eq hafter hc rfl, if_pos]
      · exact ⟨_, rfl, rfl, rfl⟩
      · apply hend
    · rw [hmem]
      simp
      omega
  · right
    refine ⟨name, gap, after, c, rest, hmem, hname, hchars, hgap, hafter, hc, ?_⟩
    simp
    omega

/-- With a name the whitespace and the byte after it are left to read. -/
theorem headRead_name {name gap tail : Bytes} {d : Byte}
    (hname : ¬ (name = [] ∨ MAX_OPT_LEN ≤ name.length))
    (hchars : ∀ c ∈ name, isOptChar c = true) (hgap : Blank gap) (hd : isspace d = false)
    (hstop : gap = [] → isOptChar d = false) (hmem : p.mem = name ++ (gap ++ d :: tail)) :
  p.HeadRead size
  := by
  by_cases hend : size ≤ p.pos + name.length + gap.length
  · right; right; left
    constructor
    · rw [readHead_of_name hname hchars hgap hd hstop hmem, if_pos hend]
      exact ⟨_, rfl, rfl, rfl⟩
    · rw [hmem]
      simp
      omega
  rcases eq_or_ne d equals with rfl | hequals
  · apply headRead_equals hname hchars hgap hmem (Nat.lt_of_not_le hend)
  · right; left
    constructor
    · apply readHead_fails_equals hname hchars hgap hd hstop hequals hmem (Nat.lt_of_not_le hend)
    · intro _
      rw [hmem]
      apply EntryFails.equals name gap d tail hchars hname hgap hd hstop hequals

/-- What reading a name comes to: a fault, a failure, or a name and the whitespace after
it. -/
theorem nameRead (size : ℕ) (p : Parse σ) :
  p.readHead size = fault
    ∨ (p.Leaves (-1) (p.readHead size) ∧ EntryFails p.mem)
    ∨ ∃ name gap d tail, p.mem = name ++ (gap ++ d :: tail)
      ∧ ¬ (name = [] ∨ MAX_OPT_LEN ≤ name.length) ∧ (∀ c ∈ name, isOptChar c = true)
      ∧ Blank gap ∧ isspace d = false ∧ (gap = [] → isOptChar d = false)
  := by
  rcases readOption_cases p with hfault | ⟨name, b, rest, hmem, hchars, hb⟩
  · left
    rw [readHead, hfault]
    rfl
  by_cases hname : name = [] ∨ MAX_OPT_LEN ≤ name.length
  · right; left
    refine ⟨readHead_fails_name hchars hb hname hmem, ?_⟩
    rw [hmem]
    apply EntryFails.name name b rest hchars hb hname
  have hopt := (readOption_eq (p := p) hchars hb hmem).trans (if_neg hname)
  rcases skipWhitespace_cases size { (p.move name (b :: rest)).copy .opt (name.length + 1) with
      names := p.names + 1 } with hfault | ⟨gap, d, tail, htail, hgap, hd⟩
  · left
    rw [readHead, hopt]
    simp only [bind, Except.bind]
    rw [hfault]
    rfl
  have htail : b :: rest = gap ++ d :: tail := htail
  right; right
  refine ⟨name, gap, d, tail, hmem.trans (congrArg (name ++ ·) htail), hname, hchars, hgap, hd, ?_⟩
  rintro rfl
  obtain rfl : b = d := (List.cons.inj htail).1
  apply hb

theorem headRead (size : ℕ) (p : Parse σ) :
  p.HeadRead size
  := by
  rcases nameRead size p with hfault | ⟨hleaves, hfails⟩
    | ⟨name, gap, d, tail, hmem, hname, hchars, hgap, hd, hstop⟩
  · left
    apply hfault
  · right; left
    exact ⟨hleaves, fun _ => hfails⟩
  · apply headRead_name hname hchars hgap hd hstop hmem

/-! ### Entries -/

/-- Where the parser is after an entry, before which it was at `p`. -/
def afterEntry (setOption : σ → Bytes → Bytes → OptionType → σ) (p : Parse σ) (e : Entry)
    (rest : Bytes) : Parse σ where
  pos := p.pos + e.text.length
  mem := rest
  names := p.names + 1
  copies := p.copies ++ [⟨.opt, e.name.length + 1⟩] ++ [⟨.param, e.value.param.length + 1⟩]
  state := setOption p.state e.name (cstr e.value.param) e.value.type

/-- An entry is read with one call of `setOption`. -/
theorem readEntry_entry {e : Entry} (he : e.WellFormed) (hstart : p.pos + e.head.length < size)
    (hwithin : e.value.Within size (p.pos + e.head.length)) {rest : Bytes}
    (hends : e.value.EndsBefore rest) (hmem : p.mem = e.text ++ rest) :
  p.readEntry setOption size = (p.afterEntry setOption e rest).skipWhitespace size
  := by
  obtain ⟨c, m, hvalue, hc⟩ := Value.exists_head he.value hends
  have hname : ¬ (e.name = [] ∨ MAX_OPT_LEN ≤ e.name.length) := by
    rw [not_or]
    exact ⟨he.name_ne_nil, Nat.not_le_of_lt he.name_length⟩
  have hmem' : p.mem = e.name ++ (e.before ++ equals :: (e.after ++ c :: m)) := by
    rw [hmem, ← hvalue]
    simp [Entry.text, Entry.head]
  have hhead := readHead_eq hname he.name_chars he.before he.after hc hmem' hstart
  rw [← hvalue] at hhead
  have hparam := readParam_value (p := p.afterHead e.name e.before e.after (e.value.text ++ rest))
    he.value hwithin hends rfl
  rw [readEntry, hhead]
  simp only [bind, Except.bind]
  rw [hparam]
  simp only [callSetOption, move, copy, afterHead, afterEntry, Entry.text, Entry.head,
    List.length_append, Nat.add_assoc]

/-- A syntax error makes the parser return `-1`. -/
theorem readEntry_fails {m : Bytes} (h : EntryFails m) (hmem : p.mem = m)
    (hsize : p.pos + m.length ≤ size) :
  p.Leaves (-1) (p.readEntry setOption size)
  := by
  cases h with
  | name name b rest hchars hb hbad =>
    apply Leaves.bind
    apply readHead_fails_name hchars hb hbad hmem
  | equals name gap b rest hchars hname hgap hb hstop hbad =>
    apply Leaves.bind
    apply readHead_fails_equals hname hchars hgap hb hstop hbad hmem
    simp at hsize
    omega
  | param name before after m hchars hname hbefore hafter hbad =>
    obtain ⟨c, tail, rfl, hc⟩ : ∃ c tail, m = c :: tail ∧ isspace c = false := by
      cases hbad with
      | quoted quote param b rest hquote =>
        refine ⟨quote, _, rfl, ?_⟩
        rcases hquote with rfl | rfl
        · rfl
        · rfl
      | braced param b rest => exact ⟨openBrace, _, rfl, rfl⟩
      | bare c param b rest _ hchars =>
        exact ⟨c, _, rfl, isspace_of_isParamChar (hchars c (by simp))⟩
    have hlength : p.pos + (name ++ (before ++ Trailermatic.equals :: after)).length
        + (c :: tail).length ≤ size := by
      simp at hsize ⊢
      omega
    rw [readEntry, readHead_eq hname hchars hbefore hafter hc hmem
      (Nat.lt_of_lt_of_le (Nat.lt_add_of_pos_right (Nat.succ_pos _)) hlength)]
    have hparam : (p.afterHead name before after (c :: tail)).Leaves (-1)
        ((p.afterHead name before after (c :: tail)).readParam size) :=
      readParam_fails hbad rfl hlength
    exact hparam.bind _

/-- What reading an entry comes to after its head: a fault, a failure, or an entry. -/
theorem entryRead_of_head (setOption : σ → Bytes → Bytes → OptionType → σ)
    {name before after rest : Bytes} {c : Byte}
    (hmem : p.mem = name ++ (before ++ equals :: (after ++ c :: rest)))
    (hname : ¬ (name = [] ∨ MAX_OPT_LEN ≤ name.length))
    (hchars : ∀ c ∈ name, isOptChar c = true) (hbefore : Blank before) (hafter : Blank after)
    (hc : isspace c = false) (hsize : p.pos + (name ++ (before ++ equals :: after)).length < size) :
  p.readEntry setOption size = fault
    ∨ (p.Leaves (-1) (p.readEntry setOption size)
      ∧ (p.pos + p.mem.length ≤ size → EntryFails p.mem))
    ∨ ∃ (e : Entry) (rest : Bytes), p.mem = e.text ++ rest ∧ e.WellFormed
      ∧ p.pos + e.head.length < size ∧ e.value.Within size (p.pos + e.head.length)
      ∧ e.value.EndsBefore rest
  := by
  have hhead := readHead_eq hname hchars hbefore hafter hc hmem hsize
  have hlength : p.mem.length
      = (name ++ (before ++ equals :: after)).length + (c :: rest).length := by
    rw [hmem]
    simp
    omega
  have hentry : p.readEntry setOption size
      = (p.afterHead name before after (c :: rest)).readParam size >>= fun read =>
        (read.2.2.callSetOption setOption name read.2.1 read.1).skipWhitespace size := by
    rw [readEntry, hhead]
    rfl
  rcases paramRead (p := p.afterHead name before after (c :: rest)) hsize rfl hc with
    hfault | ⟨hleaves, hfails⟩ | ⟨v, tail, hvalue, hv, hwithin, hends⟩
  · left
    rw [hentry, hfault]
    rfl
  · right; left
    rw [hentry]
    refine ⟨hleaves.bind _, ?_⟩
    intro hall
    rw [hmem]
    apply EntryFails.param name before after (c :: rest) hchars hname hbefore hafter
    apply hfails
    simp only [afterHead]
    omega
  · right; right
    rw [not_or] at hname
    refine ⟨⟨name, before, after, v⟩, tail, ?_, ?_, hsize, hwithin, hends⟩
    · have htail : c :: rest = v.text ++ tail := hvalue
      rw [hmem, htail]
      simp [Entry.text, Entry.head]
    · exact ⟨hname.1, Nat.lt_of_not_le hname.2, hchars, hbefore, hafter, hv⟩

/-- What reading an entry comes to: a fault, a failure, the end of the file, or an
entry. -/
theorem entryRead (setOption : σ → Bytes → Bytes → OptionType → σ) (size : ℕ) (p : Parse σ) :
  p.readEntry setOption size = fault
    ∨ (p.Leaves (-1) (p.readEntry setOption size)
      ∧ (p.pos + p.mem.length ≤ size → EntryFails p.mem))
    ∨ (p.Leaves 0 (p.readEntry setOption size) ∧ size < p.pos + p.mem.length)
    ∨ ∃ (e : Entry) (rest : Bytes), p.mem = e.text ++ rest ∧ e.WellFormed
      ∧ p.pos + e.head.length < size ∧ e.value.Within size (p.pos + e.head.length)
      ∧ e.value.EndsBefore rest
  := by
  rcases headRead size p with hfault | ⟨hleaves, hfails⟩ | ⟨hleaves, hsize⟩
    | ⟨name, before, after, c, rest, hmem, hname, hchars, hbefore, hafter, hc, hsize⟩
  · left
    rw [readEntry, hfault]
    rfl
  · right; left
    exact ⟨hleaves.bind _, hfails⟩
  · right; right; left
    exact ⟨hleaves.bind _, hsize⟩
  · rcases entryRead_of_head setOption hmem hname hchars hbefore hafter hc hsize with
      hfault | hfails | hentry
    · left
      apply hfault
    · right; left
      apply hfails
    · right; right; right
      apply hentry

end Parse

end Trailermatic
