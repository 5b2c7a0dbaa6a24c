import Trailermatic.Config.Beyond

/-!
# How a configuration file may end

The parser may look behind the content of a file.  `reads_content_iff` says for which
contents it does not: the last thing in the file is a comment, or the parser meets a syntax
error before the file ends.
-/

namespace Trailermatic

/-- Contents behind which the parser does not look: entries and comments, up to a syntax
error, or up to the end of the content after a comment.  Whether the parser may come to the
end is a parameter. -/
inductive SelfContained (ends : Prop) : Bytes → Prop where
  | ended (h : ends) :
    SelfContained ends []
  | comment (gap body rest : Bytes) (gap_blank : Blank gap) (line : newline ∉ body)
      (more : SelfContained ends rest) :
    SelfContained ends (gap ++ hash :: (body ++ newline :: rest))
  | entry (gap : Bytes) (e : Entry) (b : Byte) (rest : Bytes) (gap_blank : Blank gap)
      (wellFormed : e.WellFormed) (value_ends : e.value.EndsBefore (b :: rest))
      (more : SelfContained ends (b :: rest)) :
    SelfContained ends (gap ++ (e.text ++ b :: rest))
  | error (gap : Bytes) (b : Byte) (rest : Bytes) (gap_blank : Blank gap)
      (text : isspace b = false) (no_comment : b ≠ hash) (fails : EntryFails (b :: rest)) :
    SelfContained ends (gap ++ b :: rest)

/-- A self-contained content that is not empty does not consist of whitespace. -/
theorem SelfContained.exists_text {ends : Prop} {m : Bytes} (h : SelfContained ends m)
    (hm : m ≠ []) :
  ∃ gap b rest, m = gap ++ b :: rest ∧ Blank gap ∧ isspace b = false
  := by
  cases h with
  | ended => apply absurd rfl hm
  | comment gap body rest hgap => exact ⟨gap, hash, body ++ newline :: rest, rfl, hgap, rfl⟩
  | entry gap e b rest hgap he =>
    obtain ⟨c, tail, htext, hc, -⟩ := Entry.exists_head he (b :: rest)
    exact ⟨gap, c, tail, congrArg (gap ++ ·) htext, hgap, hc⟩
  | error gap b rest hgap hb => exact ⟨gap, b, rest, rfl, hgap, hb⟩

namespace Parse

variable {σ : Type} {setOption : σ → Bytes → Bytes → OptionType → σ} {size : ℕ} {p : Parse σ}

/-- The memory of the parser ends with the file, or where an `int` ends. -/
def Inside (size : ℕ) (p : Parse σ) : Prop :=
  p.pos + p.mem.length = min size (INT_MAX + 1)

theorem Inside.reach (h : p.Inside size) :
  p.InReach
  := by
  rw [Inside] at h
  rw [InReach]
  omega

theorem Inside.file (h : p.Inside size) :
  p.pos + p.mem.length ≤ size
  := by
  rw [Inside] at h
  omega

theorem Inside.move {taken rest : Bytes} (h : p.Inside size) (hmem : p.mem = taken ++ rest) :
  (p.move taken rest).Inside size
  := by
  rw [Inside, hmem, List.length_append] at h
  simp only [Inside, Parse.move]
  omega

theorem Inside.afterEntry {e : Entry} {rest : Bytes} (h : p.Inside size)
    (hmem : p.mem = e.text ++ rest) :
  (p.afterEntry setOption e rest).Inside size
  := by
  rw [Inside, hmem, List.length_append] at h
  simp only [Inside, Parse.afterEntry]
  omega

/-- Whitespace in front of text is passed. -/
theorem Inside.run_blank {gap rest : Bytes} {b : Byte} (h : p.Inside size) (hgap : Blank gap)
    (hb : isspace b = false) (hmem : p.mem = gap ++ b :: rest) :
  (parseLoop setOption size).run p = (parseLoop setOption size).run (p.move gap (b :: rest))
  := by
  have hfile := h.file
  rw [hmem, List.length_append, List.length_cons] at hfile
  apply Parse.run_blank h.reach hgap hb hmem
  omega

/-- An entry is passed when text comes after it. -/
theorem Inside.run_entry {e : Entry} {rest : Bytes} (h : p.Inside size) (he : e.WellFormed)
    (hends : e.value.EndsBefore rest) (hmem : p.mem = e.text ++ rest)
    (hrest : ∃ gap b tail, rest = gap ++ b :: tail ∧ Blank gap ∧ isspace b = false) :
  (parseLoop setOption size).run p
    = (parseLoop setOption size).run (p.afterEntry setOption e rest)
  := by
  obtain ⟨gap, b, tail, rfl, hgap, hb⟩ := hrest
  have hafter : (p.afterEntry setOption e (gap ++ b :: tail)).Inside size := h.afterEntry hmem
  have hfile := h.file
  rw [hmem] at hfile
  simp only [Entry.text, List.length_append, List.length_cons] at hfile
  apply run_of_step_skip hafter.reach _ (step_entry he _ _ hends hmem) hgap hb rfl
  · simp only [Parse.afterEntry, Entry.text, List.length_append]
    omega
  · omega
  · omega
  · apply Value.within_of_le
    omega

/-! ### Self-contained contents -/

/-- A self-contained content is read without a fault. -/
theorem run_selfContained {m : Bytes} (h : SelfContained (size ≤ INT_MAX) m) (hmem : p.mem = m)
    (hinside : p.Inside size) :
  (parseLoop setOption size).run p ≠ none
  := by
  induction h generalizing p with
  | ended hmax =>
    rw [Inside, hmem, List.length_nil] at hinside
    have hpos : p.pos ≤ INT_MAX := by omega
    rw [run_at_end (by omega), finish_eq hpos]
    rintro ⟨⟩
  | comment gap body rest hgap hbody hrest ih =>
    have hmoved := hinside.move hmem
    have hfile := hmoved.file
    rw [hinside.run_blank hgap rfl hmem, run_comment hbody rfl]
    · apply ih rfl (hmoved.move _)
      rw [Parse.move, List.cons_append, List.append_assoc]
      rfl
    · simp only [Parse.move, List.length_cons] at hfile ⊢
      omega
  | entry gap e b rest hgap he hvalue hrest ih =>
    obtain ⟨c, tail, htext, hc, -⟩ := Entry.exists_head he (b :: rest)
    have hmoved := hinside.move hmem
    rw [hinside.run_blank hgap hc (hmem.trans (congrArg (gap ++ ·) htext)), ← htext,
      hmoved.run_entry he hvalue rfl (hrest.exists_text (List.cons_ne_nil b rest))]
    apply ih rfl (hmoved.afterEntry rfl)
  | error gap b rest hgap hb hhash hfails =>
    have hmoved := hinside.move hmem
    have hfile := hmoved.file
    have hpos : (p.move gap (b :: rest)).pos < size := by
      simp only [Parse.move, List.length_cons] at hfile ⊢
      omega
    obtain ⟨r, hr, -⟩ := @readEntry_fails σ setOption size _ _ hfails rfl hfile
    have hstep : (p.move gap (b :: rest)).step setOption size = .error (some r) := by
      rw [step_text hb rfl hpos, if_neg hhash, hr]
    rw [hinside.run_blank hgap hb hmem, run_of_step_error hpos.ne hstep]
    rintro ⟨⟩

/-- A run that does not fault at a comment passes it. -/
theorem Inside.comment_of_run {rest : Bytes} (h : p.Inside size) (hpos : p.pos < size)
    (hmem : p.mem = hash :: rest) (hrun : (parseLoop setOption size).run p ≠ none) :
  ∃ body tail, rest = body ++ newline :: tail ∧ newline ∉ body
    ∧ (p.move (hash :: (body ++ [newline])) tail).Inside size
    ∧ (parseLoop setOption size).run (p.move (hash :: (body ++ [newline])) tail) ≠ none
  := by
  rcases step_comment_cases hmem hpos with hfault | ⟨body, tail, rfl, hline⟩
  · apply absurd (run_of_step_error hpos.ne hfault) hrun
  refine ⟨body, tail, rfl, hline, h.move ?_, ?_⟩
  · rw [hmem]
    simp
  · rw [← run_comment hline hmem hpos]
    apply hrun

/-- A run that does not fault at an entry passes it, or it is a syntax error. -/
theorem Inside.entry_of_run {b : Byte} {rest : Bytes} (h : p.Inside size) (hpos : p.pos < size)
    (hb : isspace b = false) (hhash : b ≠ hash) (hmem : p.mem = b :: rest)
    (hrun : (parseLoop setOption size).run p ≠ none) :
  EntryFails p.mem
    ∨ ∃ (e : Entry) (c : Byte) (tail : Bytes), p.mem = e.text ++ c :: tail ∧ e.WellFormed
      ∧ e.value.EndsBefore (c :: tail) ∧ (p.afterEntry setOption e (c :: tail)).Inside size
      ∧ (parseLoop setOption size).run (p.afterEntry setOption e (c :: tail)) ≠ none
  := by
  have hstep : p.step setOption size = p.readEntry setOption size := by
    rw [step_text hb hmem hpos, if_neg hhash]
  rcases entryRead setOption size p with hfault | ⟨-, hfails⟩ | ⟨-, hsize⟩
    | ⟨e, tail, hentry, he, hstart, hwithin, hends⟩
  · apply absurd (run_of_step_error hpos.ne (hstep.trans hfault)) hrun
  · left
    apply hfails h.file
  · apply absurd hsize (Nat.not_lt_of_le h.file)
  right
  have hread : p.readEntry setOption size = _ := readEntry_entry he hstart hwithin hends hentry
  rcases skipWhitespace_cases size (p.afterEntry setOption e tail) with
    hfault | ⟨gap, d, more, htail, hgap, hd⟩
  · apply absurd (run_of_step_error hpos.ne (hstep.trans (hread.trans hfault))) hrun
  have htext : ∃ gap b more, tail = gap ++ b :: more ∧ Blank gap ∧ isspace b = false :=
    ⟨gap, d, more, htail, hgap, hd⟩
  obtain ⟨c, tail, rfl⟩ : ∃ c rest, tail = c :: rest := by
    apply List.exists_cons_of_ne_nil
    rintro rfl
    have hnil : ([] : Bytes) = gap ++ d :: more := htail
    simp at hnil
  refine ⟨e, c, tail, hentry, he, hends, h.afterEntry hentry, ?_⟩
  rw [← h.run_entry he hends hentry htext]
  apply hrun

/-- A content that is read without a fault is self-contained. -/
theorem selfContained_of_run (hinside : p.Inside size)
    (hrun : (parseLoop setOption size).run p ≠ none) :
  SelfContained (size ≤ INT_MAX) p.mem
  := by
  induction hk : p.mem.length using Nat.strongRecOn generalizing p with
  | _ k ih =>
    have hfile := hinside.file
    rcases eq_or_ne p.pos size with hpos | hpos
    · obtain hmem : p.mem = [] := List.length_eq_zero_iff.mp (by omega)
      rw [run_at_end hpos, finish] at hrun
      rw [hmem]
      apply SelfContained.ended
      by_contra hmax
      apply hrun (if_pos _)
      omega
    rcases skipWhitespace_cases size p with hfault | ⟨gap, b, rest, hmem, hgap, hb⟩
    · apply absurd (run_of_step_error hpos _) hrun
      rw [step, hfault]
      rfl
    have hmoved := hinside.move hmem
    have hpos' : (p.move gap (b :: rest)).pos < size := by
      have hfile' := hmoved.file
      simp only [Parse.move, List.length_cons] at hfile' ⊢
      omega
    rw [hinside.run_blank hgap hb hmem] at hrun
    rw [hmem, List.length_append] at hk
    rw [hmem]
    rcases eq_or_ne b hash with rfl | hhash
    · obtain ⟨body, tail, rfl, hline, hinside', hrun'⟩ := hmoved.comment_of_run hpos' rfl hrun
      apply SelfContained.comment gap body tail hgap hline
      apply ih tail.length _ hinside' hrun' rfl
      simp at hk
      omega
    · rcases hmoved.entry_of_run hpos' hb hhash rfl hrun with
        hfails | ⟨e, c, tail, hentry, he, hends, hinside', hrun'⟩
      · apply SelfContained.error gap b rest hgap hb hhash hfails
      · have htext : b :: rest = e.text ++ c :: tail := hentry
        rw [htext] at hk ⊢
        apply SelfContained.entry gap e c tail hgap he hends
        apply ih (c :: tail).length _ hinside' hrun' rfl
        have hname := List.length_pos_iff.mpr he.name_ne_nil
        simp [Entry.text, Entry.head] at hk ⊢
        omega

end Parse

/-- Without the bytes behind the content there is a result, or there is none. -/
theorem parseContent_ne_none_iff {σ : Type} {setOption : σ → Bytes → Bytes → OptionType → σ}
    {content : Bytes} {state : σ} :
  parseContent setOption content [] state ≠ none
    ↔ SelfContained (content.length ≤ INT_MAX) (content.take (INT_MAX + 1))
  := by
  have hinside :
      (⟨0, content.take (INT_MAX + 1), 0, [], state⟩ : Parse σ).Inside content.length := by
    rw [Parse.Inside, List.length_take, Nat.zero_add, Nat.min_comm]
  rw [parseContent, List.append_nil]
  constructor
  · apply Parse.selfContained_of_run hinside
  · intro h
    apply Parse.run_selfContained h rfl hinside

/-- A result that does not need the bytes behind the content does not depend on them. -/
theorem parseContent_beyond {σ : Type} {setOption : σ → Bytes → Bytes → OptionType → σ}
    {content : Bytes} {state : σ} (h : parseContent setOption content [] state ≠ none)
    (beyond : Bytes) :
  parseContent setOption content beyond state = parseContent setOption content [] state
  := by
  rw [parseContent, List.append_nil] at h
  rw [parseContent, parseContent, List.append_nil, List.take_append]
  apply Parse.run_extend _ _ h

/-- The parser gives a result that does not depend on what stands behind the content of the
file exactly for the contents that are self-contained. -/
theorem reads_content_iff {σ : Type} (setOption : σ → Bytes → Bytes → OptionType → σ)
    (content : Bytes) (state : σ) :
  (∃ r, ∀ beyond, parseConfigFile setOption (some content) beyond state = some r)
    ↔ SelfContained (content.length ≤ INT_MAX) (content.take (INT_MAX + 1))
  := by
  rcases eq_or_ne content [] with rfl | hcontent
  · constructor
    · intro _
      apply SelfContained.ended (Nat.zero_le _)
    · intro _
      exact ⟨_, fun _ => rfl⟩
  simp only [parseConfigFile, if_neg hcontent]
  rw [← @parseContent_ne_none_iff σ setOption content state]
  constructor
  · rintro ⟨r, hr⟩
    rw [hr]
    rintro ⟨⟩
  · intro h
    obtain ⟨r, hr⟩ := Option.ne_none_iff_exists'.mp h
    use r
    intro beyond
    rw [parseContent_beyond h, hr]

/-- A number at the end of the file goes on with the digits that stand behind it. -/
theorem number_reads_on :
  ¬ ∃ r, ∀ beyond, parseConfigFile record (some (text "interval = 1")) beyond [] = some r
  := by
  rintro ⟨r, hr⟩
  have hone : (parseConfigFile record (some (text "interval = 1")) [0] []).map Parsed.state
      = some [(text "interval", text "1", .int)] := by
    decide +kernel
  have htwelve : (parseConfigFile record (some (text "interval = 1")) (text "2\n" ++ [0])
      []).map Parsed.state = some [(text "interval", text "12", .int)] := by
    decide +kernel
  rw [hr] at hone htwelve
  apply absurd (hone.symm.trans htwelve) (by decide)

end Trailermatic
