import Trailermatic.Config.Turns

/-!
# Options without a parameter

The loop over the file has exits for an option after which the file ends, and some of them
are no errors.  `Finished` describes the files whose end the parser comes to, and whether
every option in them has a parameter.  `every_option_given_iff` says that the parser refuses
the options without one exactly if there are none at such an exit.
-/

namespace Trailermatic

/-- A parameter is there: one that is neither quoted nor in braces has a byte. -/
def Value.given : Value → Bool
  | bare param => !param.isEmpty
  | _ => true

/-- From the position `pos` on there is an option name, behind which the file ends, or behind
whose equals sign the file ends. -/
inductive Missing (size pos : ℕ) : Bytes → Prop where
  | name {name gap rest : Bytes} {b : Byte} (good : ¬ (name = [] ∨ MAX_OPT_LEN ≤ name.length))
      (chars : ∀ c ∈ name, isOptChar c = true) (gap_blank : Blank gap) (text : isspace b = false)
      (stop : gap = [] → isOptChar b = false) (outside : size ≤ pos + name.length + gap.length) :
    Missing size pos (name ++ (gap ++ b :: rest))
  | equals {name before after rest : Bytes} {b : Byte}
      (good : ¬ (name = [] ∨ MAX_OPT_LEN ≤ name.length))
      (chars : ∀ c ∈ name, isOptChar c = true) (before_blank : Blank before)
      (after_blank : Blank after) (text : isspace b = false)
      (inside : pos + name.length + before.length < size)
      (outside : size ≤ pos + name.length + before.length + 1 + after.length) :
    Missing size pos (name ++ (before ++ Trailermatic.equals :: (after ++ b :: rest)))

theorem Missing.exists_head {size pos : ℕ} {mem : Bytes} (h : Missing size pos mem) :
  ∃ b rest, mem = b :: rest ∧ isspace b = false ∧ b ≠ hash
  := by
  have hname : ∀ (name tail : Bytes), ¬ (name = [] ∨ MAX_OPT_LEN ≤ name.length) →
      (∀ c ∈ name, isOptChar c = true) →
      ∃ b rest, name ++ tail = b :: rest ∧ isspace b = false ∧ b ≠ hash := by
    intro name tail hgood hchars
    rw [not_or] at hgood
    obtain ⟨b, name', rfl⟩ := List.exists_cons_of_ne_nil hgood.1
    have hb := hchars b List.mem_cons_self
    exact ⟨b, name' ++ tail, rfl, isspace_of_isOptChar hb, ne_hash_of_isOptChar hb⟩
  cases h with
  | name hgood hchars => apply hname _ _ hgood hchars
  | equals hgood hchars => apply hname _ _ hgood hchars

/-- From the position `pos` on, the parser passes whitespace, comments and entries up to the
end of the file, or up to a name whose parameter is missing there.  The last argument tells
whether every option has a parameter. -/
inductive Finished (size : ℕ) : ℕ → Bytes → Bool → Prop where
  | blank {pos : ℕ} {gap rest : Bytes} {b : Byte} (gap_blank : Blank gap)
      (text : isspace b = false) (outside : size ≤ pos + gap.length) :
    Finished size pos (gap ++ b :: rest) true
  | missing {pos : ℕ} {gap rest : Bytes} (gap_blank : Blank gap)
      (inside : pos + gap.length < size) (lacks : Missing size (pos + gap.length) rest) :
    Finished size pos (gap ++ rest) false
  | lastComment {pos : ℕ} {gap body rest : Bytes} (gap_blank : Blank gap)
      (inside : pos + gap.length < size) (line : newline ∉ body)
      (outside : pos + gap.length + (hash :: (body ++ [newline])).length = size)
      (reach : size ≤ INT_MAX) :
    Finished size pos (gap ++ hash :: (body ++ newline :: rest)) true
  | comment {pos : ℕ} {gap body rest : Bytes} {given : Bool} (gap_blank : Blank gap)
      (inside : pos + gap.length < size) (line : newline ∉ body)
      (more : Finished size (pos + gap.length + (hash :: (body ++ [newline])).length) rest given) :
    Finished size pos (gap ++ hash :: (body ++ newline :: rest)) given
  | entry {pos : ℕ} {gap : Bytes} {e : Entry} {rest : Bytes} {given : Bool}
      (gap_blank : Blank gap) (wellFormed : e.WellFormed)
      (inside : pos + gap.length + e.head.length < size)
      (within : e.value.Within size (pos + gap.length + e.head.length))
      (ends : e.value.EndsBefore rest)
      (more : Finished size (pos + gap.length + e.text.length) rest given) :
    Finished size pos (gap ++ (e.text ++ rest)) (e.value.given && given)

theorem blank_append {gap gap' : Bytes} (h : Blank gap) (h' : Blank gap') :
  Blank (gap ++ gap')
  := by
  intro b hb
  rcases List.mem_append.mp hb with hb | hb
  · apply h b hb
  · apply h' b hb

/-- Whitespace in front changes nothing. -/
theorem Finished.blanks {size pos : ℕ} {gap rest : Bytes} {given : Bool} (hgap : Blank gap)
    (h : Finished size (pos + gap.length) rest given) :
  Finished size pos (gap ++ rest) given
  := by
  have hlength (gap' : Bytes) : pos + (gap ++ gap').length = pos + gap.length + gap'.length := by
    rw [List.length_append, Nat.add_assoc]
  cases h with
  | blank hgap' hb hout =>
    rw [← List.append_assoc]
    apply blank (blank_append hgap hgap') hb
    rw [hlength]
    apply hout
  | missing hgap' hin hlacks =>
    rw [← hlength] at hin hlacks
    rw [← List.append_assoc]
    apply missing (blank_append hgap hgap') hin hlacks
  | lastComment hgap' hin hline hout hreach =>
    rw [← hlength] at hin hout
    rw [← List.append_assoc]
    apply lastComment (blank_append hgap hgap') hin hline hout hreach
  | comment hgap' hin hline hmore =>
    rw [← hlength] at hin hmore
    rw [← List.append_assoc]
    apply comment (blank_append hgap hgap') hin hline hmore
  | entry hgap' he hin hwithin hends hmore =>
    rw [← hlength] at hin hwithin hmore
    rw [← List.append_assoc]
    apply entry (blank_append hgap hgap') he hin hwithin hends hmore

/-- An option without a parameter stands in the file. -/
theorem Finished.pos_lt {size pos : ℕ} {mem : Bytes} {given : Bool}
    (h : Finished size pos mem given) (hgiven : given = false) :
  pos < size
  := by
  cases h with
  | blank => cases hgiven
  | missing hgap hin => omega
  | lastComment => cases hgiven
  | comment hgap hin => omega
  | entry hgap he hin => omega

namespace Parse

variable {σ : Type} {setOption : σ → Bytes → Bytes → OptionType → σ} {size : ℕ} {p : Parse σ}

/-! ### Where the file ends in an entry -/

theorem readHead_missing {mem : Bytes} (h : Missing size p.pos mem) (hmem : p.mem = mem) :
  ∃ r, p.readHead size = .error (some r) ∧ r.ret = 0 ∧ r.names = p.names + 1
    ∧ r.state = p.state
  := by
  cases h with
  | name hname hchars hgap hb hstop hout =>
    rw [readHead_of_name hname hchars hgap hb hstop hmem, if_pos hout]
    exact ⟨_, rfl, rfl, rfl, rfl⟩
  | equals hname hchars hbefore hafter hb hin hout =>
    rw [readHead_of_name hname hchars hbefore (by decide) (fun _ => by decide) hmem,
      if_neg (by omega), readEquals_eq rfl]
    simp only [bind, Except.bind]
    rw [skipWhitespace_eq hafter hb rfl, if_pos]
    · exact ⟨_, rfl, rfl, rfl, rfl⟩
    · simp only [move, afterName, List.length_singleton]
      apply hout

/-- A failure does not return 0. -/
theorem Leaves.absurd {α : Type} {x : Flow σ α} {r : Parsed σ} (h : p.Leaves (-1) x)
    (hx : x = .error (some r)) (hr : r.ret = 0) :
  False
  := by
  obtain ⟨r', hr', hret, -⟩ := h
  cases hr'.symm.trans hx
  cases hret.symm.trans hr

/-- An entry whose head comes to the end of the file is without a parameter. -/
theorem missing_of_readHead {r : Parsed σ} (h : p.readHead size = .error (some r))
    (hr : r.ret = 0) :
  Missing size p.pos p.mem
  := by
  rcases nameRead size p with hfault | ⟨hleaves, -⟩
    | ⟨name, gap, d, tail, hmem, hname, hchars, hgap, hd, hstop⟩
  · cases hfault.symm.trans h
  · exact (hleaves.absurd h hr).elim
  by_cases hout : size ≤ p.pos + name.length + gap.length
  · rw [hmem]
    apply Missing.name hname hchars hgap hd hstop hout
  have hin : p.pos + name.length + gap.length < size := Nat.lt_of_not_le hout
  rcases eq_or_ne d equals with rfl | hequals
  · have hhead := @readHead_of_name σ size p _ _ _ _ hname hchars hgap hd hstop hmem
    rw [if_neg hout, readEquals_eq rfl] at hhead
    rcases skipWhitespace_cases size ((p.afterName name gap (equals :: tail)).move [equals] tail)
      with hfault | ⟨after, c, rest, rfl, hafter, hc⟩
    · simp only [bind, Except.bind] at hhead
      rw [hfault] at hhead
      cases hhead.symm.trans h
    · by_cases hend : size ≤ p.pos + name.length + gap.length + 1 + after.length
      · rw [hmem]
        apply Missing.equals hname hchars hgap hafter hc hin hend
      · have hin' : p.pos + (name ++ (gap ++ equals :: after)).length < size := by
          simp only [List.length_append, List.length_cons]
          omega
        cases (readHead_eq hname hchars hgap hafter hc hmem hin').symm.trans h
  · exact ((readHead_fails_equals hname hchars hgap hd hstop hequals hmem hin).absurd h hr).elim

/-- Reading an entry comes to the end of the file when the parameter is missing, or after an
entry. -/
theorem missing_or_entry {r : Parsed σ} (h : p.readEntry setOption size = .error (some r))
    (hr : r.ret = 0) :
  Missing size p.pos p.mem
    ∨ ∃ (e : Entry) (rest : Bytes), p.mem = e.text ++ rest ∧ e.WellFormed
      ∧ p.pos + e.head.length < size ∧ e.value.Within size (p.pos + e.head.length)
      ∧ e.value.EndsBefore rest
  := by
  rcases headRead size p with hfault | ⟨hleaves, -⟩ | ⟨⟨r', hhead, hret, -⟩, -⟩
    | ⟨name, before, after, c, rest, hmem, hname, hchars, hbefore, hafter, hc, hsize⟩
  · rw [readEntry, hfault] at h
    cases h
  · exact ((hleaves.bind _).absurd h hr).elim
  · left
    apply missing_of_readHead hhead hret
  · rcases entryRead_of_head setOption hmem hname hchars hbefore hafter hc hsize with
      hfault | ⟨hleaves, -⟩ | hentry
    · cases hfault.symm.trans h
    · exact (hleaves.absurd h hr).elim
    · right
      apply hentry

/-! ### The grammar of a run that does not fail -/

theorem finished_of_skip {r : Parsed σ} (h : p.skipWhitespace size = .error (some r)) :
  r.ret = 0 ∧ Finished size p.pos p.mem true
  := by
  rcases skipWhitespace_cases size p with hfault | ⟨gap, b, rest, hmem, hgap, hb⟩
  · cases hfault.symm.trans h
  rw [skipWhitespace_eq hgap hb hmem] at h
  split_ifs at h with hout
  cases h
  refine ⟨rfl, ?_⟩
  rw [hmem]
  apply Finished.blank hgap hb hout

/-- An entry whose whitespace is skipped up to the end of the file is the last one. -/
theorem finished_of_entry {r : Parsed σ} {gap rest : Bytes} {e : Entry} (hgap : Blank gap)
    (he : e.WellFormed) (hin : p.pos + gap.length + e.head.length < size)
    (hwithin : e.value.Within size (p.pos + gap.length + e.head.length))
    (hends : e.value.EndsBefore rest) (hmem : p.mem = gap ++ (e.text ++ rest))
    (h : ((p.move gap (e.text ++ rest)).afterEntry setOption e rest).skipWhitespace size
      = .error (some r)) :
  r.ret = 0 ∧ ∃ given, Finished size p.pos p.mem given
  := by
  obtain ⟨hret, hmore⟩ := finished_of_skip h
  rw [hmem]
  exact ⟨hret, _, Finished.entry hgap he hin hwithin hends hmore⟩

/-- A turn that ends the loop fails, or has come to the end of the file. -/
theorem finished_of_step {r : Parsed σ} (h : p.step setOption size = .error (some r)) :
  r.ret = -1 ∨ r.ret = 0 ∧ ∃ given, Finished size p.pos p.mem given
  := by
  rcases skipWhitespace_cases size p with hfault | ⟨gap, b, rest, hmem, hgap, hb⟩
  · rw [step, hfault] at h
    cases h
  by_cases hout : size ≤ p.pos + gap.length
  · right
    have hskip := (skipWhitespace_eq hgap hb hmem).trans (if_pos hout)
    rw [step, hskip] at h
    cases h
    rw [hmem]
    exact ⟨rfl, _, Finished.blank hgap hb hout⟩
  have hin : p.pos + gap.length < size := Nat.lt_of_not_le hout
  have hskip := (skipWhitespace_eq hgap hb hmem).trans (if_neg hout)
  have htext : (p.move gap (b :: rest)).step setOption size = .error (some r) := by
    rw [step, skipWhitespace_text hb rfl hin, ← hskip]
    apply h
  rcases eq_or_ne b hash with rfl | hhash
  · rcases step_comment_cases (p := p.move gap (hash :: rest)) rfl hin with
      hfault | ⟨body, tail, hbody, hline⟩
    · cases hfault.symm.trans htext
    · cases (step_comment hline (congrArg (hash :: ·) hbody) hin).symm.trans htext
  rw [step_text hb rfl hin, if_neg hhash] at htext
  have hentry : ∀ (e : Entry) (tail : Bytes), b :: rest = e.text ++ tail → e.WellFormed →
      p.pos + gap.length + e.head.length < size →
      e.value.Within size (p.pos + gap.length + e.head.length) → e.value.EndsBefore tail →
      r.ret = 0 ∧ ∃ given, Finished size p.pos p.mem given := by
    intro e tail heq he hstart hwithin hends
    have hread := @readEntry_entry σ setOption size (p.move gap (b :: rest)) e he hstart hwithin _
      hends heq
    rw [heq] at hmem hread htext
    apply finished_of_entry hgap he hstart hwithin hends hmem (hread.symm.trans htext)
  rcases entryRead setOption size (p.move gap (b :: rest)) with
    hfault | ⟨⟨r', hr', hret, -⟩, -⟩ | ⟨⟨r', hr', hret, -⟩, -⟩
    | ⟨e, tail, heq, he, hstart, hwithin, hends⟩
  · cases hfault.symm.trans htext
  · cases hr'.symm.trans htext
    left
    apply hret
  · cases hr'.symm.trans htext
    right
    rcases missing_or_entry htext hret with hmissing
      | ⟨e, tail, heq, he, hstart, hwithin, hends⟩
    · rw [hmem]
      exact ⟨hret, _, Finished.missing hgap hin hmissing⟩
    · apply hentry e tail heq he hstart hwithin hends
  · right
    apply hentry e tail heq he hstart hwithin hends

/-- What a turn passes stands in front of what it leaves. -/
theorem finished_before {q : Parse σ} (h : p.step setOption size = .ok q)
    (hq : q.pos = size ∧ size ≤ INT_MAX ∨ ∃ given, Finished size q.pos q.mem given) :
  ∃ given, Finished size p.pos p.mem given
  := by
  rcases step_cases setOption size p with hfault | ⟨r, hleave, -⟩ | ⟨⟨r, hleave, -⟩, -⟩
    | ⟨gap, rest, hmem, hgap, hpos, hskip, ⟨body, tail, hbody, hline, hcomment⟩
      | ⟨e, tail, htext, he, hstart, hwithin, hends, hentry⟩⟩
  · cases hfault.symm.trans h
  · cases hleave.symm.trans h
  · cases hleave.symm.trans h
  · cases hcomment.symm.trans (hskip.symm.trans h)
    rw [hmem, show rest = _ from hbody]
    rcases hq with ⟨hend, hreach⟩ | ⟨given, hmore⟩
    · exact ⟨_, Finished.lastComment hgap hpos hline hend hreach⟩
    · exact ⟨_, Finished.comment hgap hpos hline hmore⟩
  · obtain ⟨gap', b, rest', hmem', hgap', -, hpos', rfl⟩ :=
      skipWhitespace_ok_iff.mp (hentry.symm.trans (hskip.symm.trans h))
    rcases hq with ⟨hend, -⟩ | ⟨given, hmore⟩
    · exact absurd hend hpos'.ne
    · rw [hmem, show rest = _ from htext, show tail = _ from hmem']
      rw [show tail = _ from hmem'] at hends
      exact ⟨_, Finished.entry hgap he hstart hwithin hends (hmore.blanks hgap')⟩

/-- A run fails, or comes to the end of the file as the grammar says. -/
theorem finished_of_run (p : Parse σ) :
  ∀ r, (parseLoop setOption size).run p = some r →
    r.ret = -1 ∨ r.ret = 0
      ∧ (p.pos = size ∧ size ≤ INT_MAX ∨ ∃ given, Finished size p.pos p.mem given)
  := by
  apply parse_induction (P := fun p result => ∀ r, result = some r →
    r.ret = -1 ∨ r.ret = 0
      ∧ (p.pos = size ∧ size ≤ INT_MAX ∨ ∃ given, Finished size p.pos p.mem given))
  · intro p hpos r hr
    rw [finish] at hr
    split_ifs at hr with hmax
    cases hr
    right
    refine ⟨rfl, Or.inl ⟨hpos, ?_⟩⟩
    rw [← hpos]
    apply Nat.le_of_not_lt hmax
  · rintro p result hpos hstep r rfl
    rcases finished_of_step hstep with hret | ⟨hret, hfinished⟩
    · left
      apply hret
    · right
      exact ⟨hret, Or.inr hfinished⟩
  · intro p q hpos hstep ih r hr
    rcases ih r hr with hret | ⟨hret, hq⟩
    · left
      apply hret
    · right
      exact ⟨hret, Or.inr (finished_before hstep hq)⟩

/-! ### The run of a file that the grammar describes -/

/-- What the loop comes to when it first skips whitespace. -/
def skipped (setOption : σ → Bytes → Bytes → OptionType → σ) (size : ℕ) (p : Parse σ) :
    Option (Parsed σ) :=
  match p.skipWhitespace size with
  | .ok q => (parseLoop setOption size).run q
  | .error result => result

theorem skipped_end {gap rest : Bytes} {b : Byte} (hgap : Blank gap) (hb : isspace b = false)
    (hmem : p.mem = gap ++ b :: rest) (hout : size ≤ p.pos + gap.length) :
  skipped setOption size p = some ⟨0, p.names, p.copies, p.state⟩
  := by
  rw [skipped, skipWhitespace_eq hgap hb hmem, if_pos hout]
  rfl

theorem skipped_text {gap rest : Bytes} {b : Byte} (hgap : Blank gap) (hb : isspace b = false)
    (hmem : p.mem = gap ++ b :: rest) (hin : p.pos + gap.length < size) :
  skipped setOption size p = (parseLoop setOption size).run (p.move gap (b :: rest))
  := by
  rw [skipped, skipWhitespace_eq hgap hb hmem, if_neg (Nat.not_le_of_lt hin)]

theorem run_eq_skipped_of_step {q : Parse σ} (hpos : p.pos ≠ size)
    (h : p.step setOption size = q.skipWhitespace size) :
  (parseLoop setOption size).run p = skipped setOption size q
  := by
  rw [skipped]
  cases hskip : q.skipWhitespace size with
  | ok q' => apply run_of_step_ok hpos (h.trans hskip)
  | error result => apply run_of_step_error hpos (h.trans hskip)

/-- A run skips whitespace first. -/
theorem run_eq_skipped (hpos : p.pos ≠ size) :
  (parseLoop setOption size).run p = skipped setOption size p
  := by
  rw [skipped]
  cases hskip : p.skipWhitespace size with
  | ok q =>
    obtain ⟨gap, b, rest, -, -, hb, hin, rfl⟩ := skipWhitespace_ok_iff.mp hskip
    apply run_congr hpos hin.ne
    rw [step, step, hskip, skipWhitespace_text hb rfl hin]
  | error result =>
    apply run_of_step_error hpos
    rw [step, hskip]
    rfl

/-- At the end of the file, it finds nothing to skip. -/
theorem run_eq_skipped_of_finished {given : Bool} (hreach : p.InReach)
    (h : Finished size p.pos p.mem given) :
  (parseLoop setOption size).run p = skipped setOption size p
  := by
  rcases eq_or_ne p.pos size with hpos | hpos
  · generalize hmem : p.mem = mem at h
    cases h with
    | blank hgap hb hout =>
      rw [run_at_end hpos, skipped_end hgap hb hmem hout, finish_eq]
      rw [InReach, hmem, List.length_append, List.length_cons] at hreach
      omega
    | missing hgap hin => omega
    | lastComment hgap hin => omega
    | comment hgap hin => omega
    | entry hgap he hin => omega
  · apply run_eq_skipped hpos

end Parse

/-- The parameters that are neither quoted nor in braces are not empty. -/
def Given (calls : List (Bytes × Bytes × OptionType)) : Prop :=
  ∀ call ∈ calls, call.2.2 = .int → call.2.1 ≠ []

/-- Every option name that was read has been passed on with a parameter. -/
def Parsed.Complete (r : Parsed (List (Bytes × Bytes × OptionType))) : Prop :=
  r.names = r.state.length ∧ Given r.state

namespace Parse

variable {size : ℕ}

theorem given_record {calls : List (Bytes × Bytes × OptionType)} {e : Entry}
    (he : e.value.WellFormed) :
  Given (record calls e.name (cstr e.value.param) e.value.type)
    ↔ Given calls ∧ e.value.given = true
  := by
  have hlast : (e.value.type = .int → cstr e.value.param ≠ []) ↔ e.value.given = true := by
    cases hvalue : e.value with
    | quoted quote param => simp [Value.type, Value.given]
    | braced param => simp [Value.type, Value.given]
    | bare param =>
      rw [hvalue] at he
      have hnul : (0 : Byte) ∉ param := by
        intro h
        cases he.1 0 h
      simp [Value.type, Value.given, Value.param, cstr_of_notMem hnul]
  rw [← hlast, Given, record, List.forall_mem_append, List.forall_mem_singleton, Given]

/-- A file that the grammar describes is read to its end, with a parameter for every option
exactly if the grammar says so. -/
theorem run_of_finished {pos : ℕ} {mem : Bytes} {given : Bool} (h : Finished size pos mem given) :
  ∀ p : Parse (List (Bytes × Bytes × OptionType)), p.pos = pos → p.mem = mem → p.InReach →
    p.names = p.state.length → ∃ r, skipped record size p = some r ∧ r.ret = 0
      ∧ (r.Complete ↔ Given p.state ∧ given = true)
  := by
  induction h with
  | blank hgap hb hout =>
    rintro p rfl hmem hreach hnames
    refine ⟨_, skipped_end hgap hb hmem hout, rfl, ?_⟩
    simp [Parsed.Complete, hnames]
  | @missing pos gap rest hgap hin hlacks =>
    rintro p rfl hmem hreach hnames
    obtain ⟨b, tail, rfl, hb, hhash⟩ := hlacks.exists_head
    obtain ⟨r, hhead, hret, hcount, hstate⟩ :=
      readHead_missing (p := p.move gap (b :: tail)) hlacks rfl
    have hstep : (p.move gap (b :: tail)).step record size = .error (some r) := by
      rw [step_text hb rfl hin, if_neg hhash, readEntry, hhead]
      rfl
    refine ⟨r, ?_, hret, ?_⟩
    · rw [skipped_text hgap hb hmem hin]
      apply run_of_step_error hin.ne hstep
    · have hlength : r.state.length = p.state.length := congrArg List.length hstate
      have hcount' : r.names = p.names + 1 := hcount
      simp only [Parsed.Complete, Bool.false_eq_true, and_false, iff_false, not_and]
      omega
  | @lastComment pos gap body rest hgap hin hline hout hmax =>
    rintro p rfl hmem hreach hnames
    refine ⟨⟨0, p.names, p.copies, p.state⟩, ?_, rfl, ?_⟩
    · rw [skipped_text hgap rfl hmem hin, run_comment hline rfl hin, run_at_end hout, finish_eq]
      · rfl
      · exact hout.trans_le hmax
    · simp [Parsed.Complete, hnames]
  | @comment pos gap body rest given hgap hin hline hmore ih =>
    rintro p rfl hmem hreach hnames
    have hmoved : ((p.move gap (hash :: (body ++ newline :: rest))).move
        (hash :: (body ++ [newline])) rest).InReach := by
      apply (hreach.move hmem).move
      simp [move]
    rw [skipped_text hgap rfl hmem hin, run_comment hline rfl hin,
      run_eq_skipped_of_finished hmoved hmore]
    apply ih _ rfl rfl hmoved hnames
  | @entry pos gap e rest given hgap he hin hwithin hends hmore ih =>
    rintro p rfl hmem hreach hnames
    obtain ⟨b, tail, htext, hb, -⟩ := Entry.exists_head he rest
    have hmoved : ((p.move gap (e.text ++ rest)).afterEntry record e rest).InReach :=
      (hreach.move hmem).afterEntry rfl
    have hstep := @step_entry _ record size (p.move gap (e.text ++ rest)) e he hin hwithin rest
      hends rfl
    obtain ⟨r, hr, hret, hcomplete⟩ := ih ((p.move gap (e.text ++ rest)).afterEntry record e rest)
      rfl rfl hmoved (by simp [afterEntry, record, move, hnames])
    refine ⟨r, ?_, hret, ?_⟩
    · rw [skipped_text hgap hb (hmem.trans (congrArg (gap ++ ·) htext)) (by omega), ← htext,
        run_eq_skipped_of_step (by simp only [move]; omega) hstep, hr]
    · rw [hcomplete, Bool.and_eq_true, ← and_assoc, ← given_record he.value]
      rfl

end Parse

/-- The parser returns 0 only after it has passed on every option name with a parameter, if
and only if the file does not come to its end with an option that has none. -/
theorem every_option_given_iff (content rest : Bytes) :
  (∀ r, parseConfigFile record (some content) (0 :: rest) [] = some r →
      r.ret = -1 ∨ r.ret = 0 ∧ r.Complete)
    ↔ ¬ Finished content.length 0 ((content ++ 0 :: rest).take (INT_MAX + 1)) false
  := by
  rcases eq_or_ne content [] with rfl | hcontent
  · constructor
    · intro _ h
      apply Nat.not_lt_zero 0 (h.pos_lt rfl)
    · intro _ r hr
      cases hr
      left
      rfl
  have hpos : content.length ≠ 0 := fun h => hcontent (List.length_eq_zero_iff.mp h)
  simp only [parseConfigFile, if_neg hcontent]
  have hrun (given : Bool)
      (h : Finished content.length 0 ((content ++ 0 :: rest).take (INT_MAX + 1)) given) :
      ∃ r, parseContent record content (0 :: rest) [] = some r ∧ r.ret = 0
        ∧ (r.Complete ↔ given = true) := by
    have hreach : (⟨0, (content ++ 0 :: rest).take (INT_MAX + 1), 0, [], []⟩ :
        Parse (List (Bytes × Bytes × OptionType))).InReach := by
      rw [Parse.InReach, List.length_take, Nat.zero_add]
      apply Nat.min_le_left
    obtain ⟨r, hr, hret, hcomplete⟩ := Parse.run_of_finished h _ rfl rfl hreach rfl
    refine ⟨r, ?_, hret, ?_⟩
    · rw [← hr]
      apply Parse.run_eq_skipped_of_finished hreach h
    · rw [hcomplete]
      simp [Given]
  constructor
  · intro h hfinished
    obtain ⟨r, hr, hret, hcomplete⟩ := hrun false hfinished
    rcases h r hr with hfail | ⟨-, hall⟩
    · cases hfail.symm.trans hret
    · cases hcomplete.mp hall
  · intro h r hr
    rcases Parse.finished_of_run _ r hr with hret | ⟨hret, ⟨hend, -⟩ | ⟨given, hfinished⟩⟩
    · left
      apply hret
    · exact absurd hend.symm hpos
    · right
      obtain ⟨r', hr', -, hcomplete⟩ := hrun given hfinished
      cases hr.symm.trans hr'
      refine ⟨hret, hcomplete.mpr ?_⟩
      cases given with
      | true => rfl
      | false => exact absurd hfinished h

/-- Behind the only name, the file ends. -/
theorem option_dropped :
  ¬ ∀ r, parseConfigFile record (some (text "url")) [0] [] = some r →
    r.ret = -1 ∨ r.ret = 0 ∧ r.Complete
  := by
  intro h
  rcases h ⟨0, 1, [⟨.opt, 4⟩], []⟩ rfl with hret | ⟨-, hcomplete⟩
  · cases hret
  · cases hcomplete.1

end Trailermatic
