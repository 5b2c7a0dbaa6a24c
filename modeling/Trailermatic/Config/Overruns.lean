import Trailermatic.Config.Turns

/-!
# The buffers of the parser

The loop over an option name goes on after the name has become too long, and ends only
where the name ends.  `writes_fit_iff` says for which files the parser writes behind its
buffers: those in which it comes to a name of at least 52 bytes.  The loops over
parameters stay within the buffer.
-/

namespace Trailermatic

namespace Parse

variable {σ : Type} {setOption : σ → Bytes → Bytes → OptionType → σ} {size : ℕ} {p : Parse σ}

/-! ### The writes of a turn -/

/-- The write of the loop over an option name, also when it faults. -/
def optCopy (p : Parse σ) : Copy :=
  match optName.run 0 p.mem with
  | .stopped opt _ =>
    ⟨.opt, if opt = [] ∨ MAX_OPT_LEN ≤ opt.length then opt.length else opt.length + 1⟩
  | _ => ⟨.opt, p.mem.length⟩

/-- The write of a loop over a closed parameter, also when it faults. -/
def closedCopy (s : Scanner Byte) (mem : Bytes) : Copy :=
  match s.run 0 mem with
  | .fault => ⟨.param, mem.length⟩
  | .refused param _ => ⟨.param, param.length⟩
  | .stopped param _ => ⟨.param, param.length + 1⟩

/-- The write of the loop over a bare parameter, also when it faults. -/
def bareCopy (mem : Bytes) : Copy :=
  match bare.run 0 mem with
  | .fault => ⟨.param, mem.length⟩
  | .refused param _ => ⟨.param, param.length + 1⟩
  | .stopped param _ => ⟨.param, param.length + 1⟩

/-- The writes into `param`, by the form of the parameter. -/
def paramCopies (size : ℕ) (p : Parse σ) : List Copy :=
  match p.mem with
  | [] => []
  | b :: rest =>
    if b = doubleQuote ∨ b = singleQuote then [closedCopy (quoted b size (p.pos + 1)) rest]
    else if b = openBrace then [closedCopy (braced size (p.pos + 1)) rest]
    else [bareCopy p.mem]

/-- The writes of a turn from the text it comes to. -/
def textCopies (size : ℕ) (p : Parse σ) : List Copy :=
  match p.peek with
  | .error _ => []
  | .ok b =>
    if b = hash then []
    else
      p.optCopy :: match p.readHead size with
        | .error _ => []
        | .ok (_, q) => q.paramCopies size

/-- The writes of a turn, also of one that faults. -/
def turnCopies (size : ℕ) (p : Parse σ) : List Copy :=
  match p.skipWhitespace size with
  | .error _ => []
  | .ok q => q.textCopies size

/-- The writes of the loop from the state `p` on. -/
inductive Writes (setOption : σ → Bytes → Bytes → OptionType → σ) (size : ℕ) :
    Parse σ → Copy → Prop where
  | turn {p : Parse σ} {c : Copy} (pos : p.pos ≠ size) (write : c ∈ p.turnCopies size) :
    Writes setOption size p c
  | later {p q : Parse σ} {c : Copy} (pos : p.pos ≠ size) (step : p.step setOption size = .ok q)
      (write : Writes setOption size q c) :
    Writes setOption size p c

/-! ### What the parser records -/

/-- A part of a turn that does not fault has recorded the writes `copies`. -/
def Recorded {α : Type} (copies : List Copy) (parse : α → Parse σ) : Flow σ α → Prop
  | .ok a => (parse a).copies = copies
  | .error (some r) => r.copies = copies
  | .error none => True

theorem Recorded.bind {α β : Type} {copies : List Copy} {parse : α → Parse σ}
    {parse' : β → Parse σ} {x : Flow σ α} {f : α → Flow σ β} (hx : Recorded copies parse x)
    (hf : ∀ a, (parse a).copies = copies → Recorded copies parse' (f a)) :
  Recorded copies parse' (x >>= f)
  := by
  match x with
  | .ok a => apply hf a hx
  | .error (some r) => apply hx
  | .error none => trivial

theorem recorded_skipWhitespace (size : ℕ) (p : Parse σ) :
  Recorded p.copies id (p.skipWhitespace size)
  := by
  rw [skipWhitespace]
  split
  · simp only
    split_ifs
    · rfl
    · rfl
  · trivial

theorem recorded_skipComment (p : Parse σ) :
  Recorded p.copies id p.skipComment
  := by
  rw [skipComment]
  split
  · rfl
  · trivial

theorem recorded_readOption (p : Parse σ) :
  Recorded (p.copies ++ [p.optCopy]) Prod.snd p.readOption
  := by
  rw [readOption, optCopy]
  cases optName.run 0 p.mem with
  | fault => trivial
  | refused opt rest => trivial
  | stopped opt rest =>
    simp only
    split_ifs
    · rfl
    · rfl

theorem recorded_readEquals (p : Parse σ) :
  Recorded p.copies id p.readEquals
  := by
  rw [readEquals]
  split
  · trivial
  · split_ifs
    · rfl
    · rfl

theorem recorded_readHead (size : ℕ) (p : Parse σ) :
  Recorded (p.copies ++ [p.optCopy]) Prod.snd (p.readHead size)
  := by
  apply (recorded_readOption p).bind
  rintro ⟨opt, p₁⟩ h₁
  rw [← h₁]
  apply (recorded_skipWhitespace size p₁).bind
  intro p₂ h₂
  rw [← h₂]
  apply (recorded_readEquals p₂).bind
  intro p₃ h₃
  rw [← h₃]
  apply (recorded_skipWhitespace size p₃).bind
  intro p₄ h₄
  apply h₄

theorem recorded_readClosed (s : Scanner Byte) (p : Parse σ) :
  Recorded (p.copies ++ [closedCopy s p.mem]) Prod.snd (p.readClosed s)
  := by
  rw [readClosed, closedCopy]
  cases s.run 0 p.mem with
  | fault => trivial
  | refused param rest => rfl
  | stopped param rest => rfl

theorem recorded_readBare (p : Parse σ) :
  Recorded (p.copies ++ [bareCopy p.mem]) Prod.snd p.readBare
  := by
  rw [readBare, bareCopy]
  cases bare.run 0 p.mem with
  | fault => trivial
  | refused param rest => rfl
  | stopped param rest => rfl

theorem Recorded.map {copies : List Copy} {x : Flow σ (Bytes × Parse σ)} (type : OptionType)
    (hx : Recorded copies Prod.snd x) :
  Recorded copies (fun a : OptionType × Bytes × Parse σ => a.2.2) (Prod.mk type <$> x)
  := by
  match x with
  | .ok a => apply hx
  | .error (some r) => apply hx
  | .error none => trivial

theorem recorded_readParam (size : ℕ) (p : Parse σ) :
  Recorded (p.copies ++ p.paramCopies size) (fun a => a.2.2) (p.readParam size)
  := by
  have hbare := recorded_readBare p
  rw [readParam, paramCopies]
  cases hmem : p.mem with
  | nil => trivial
  | cons b rest =>
    rw [hmem] at hbare
    simp only
    split_ifs
    · apply (recorded_readClosed _ (p.move [b] rest)).map
    · apply (recorded_readClosed _ (p.move [b] rest)).map
    · apply hbare.map

theorem peek_ne_left (p : Parse σ) (r : Parsed σ) :
  p.peek ≠ .error (some r)
  := by
  rw [peek]
  cases p.mem with
  | nil => rintro ⟨⟩
  | cons b rest => rintro ⟨⟩

/-- The text that a turn comes to records its writes. -/
theorem recorded_text (setOption : σ → Bytes → Bytes → OptionType → σ) (size : ℕ)
    (p : Parse σ) :
  Recorded (p.copies ++ p.textCopies size) id
    (p.peek >>= fun b => if b = hash then p.skipComment else p.readEntry setOption size)
  := by
  rw [textCopies]
  cases hb : p.peek with
  | error e =>
    cases e with
    | none => trivial
    | some r => apply absurd hb (p.peek_ne_left r)
  | ok b =>
    simp only [bind, Except.bind]
    split_ifs
    · rw [List.append_nil]
      apply recorded_skipComment
    · have hhead := recorded_readHead size p
      rw [readEntry]
      cases hr : p.readHead size with
      | error e =>
        rw [hr] at hhead
        cases e with
        | none => trivial
        | some r => apply hhead
      | ok a =>
        rw [hr] at hhead
        have hcopies : p.copies ++ p.optCopy :: a.2.paramCopies size
            = a.2.copies ++ a.2.paramCopies size := by
          rw [show a.2.copies = p.copies ++ [p.optCopy] from hhead, List.append_assoc]
          rfl
        simp only [bind, Except.bind]
        rw [hcopies]
        apply (recorded_readParam size a.2).bind
        rintro ⟨type, param, q⟩ hq
        rw [← hq]
        apply recorded_skipWhitespace

/-- A turn records its writes. -/
theorem recorded_step (setOption : σ → Bytes → Bytes → OptionType → σ) (size : ℕ)
    (p : Parse σ) :
  Recorded (p.copies ++ p.turnCopies size) id (p.step setOption size)
  := by
  have hskip := recorded_skipWhitespace size p
  rw [step, turnCopies]
  cases hq : p.skipWhitespace size with
  | error e =>
    rw [hq] at hskip
    cases e with
    | none => trivial
    | some r =>
      rw [List.append_nil]
      apply hskip
  | ok q =>
    rw [hq] at hskip
    rw [← show q.copies = p.copies from hskip]
    apply recorded_text

theorem writes_iff {c : Copy} :
  Writes setOption size p c
    ↔ p.pos ≠ size ∧ (c ∈ p.turnCopies size
      ∨ ∃ q, p.step setOption size = .ok q ∧ Writes setOption size q c)
  := by
  constructor
  · rintro (⟨hpos, hwrite⟩ | ⟨hpos, hstep, hwrite⟩)
    · use hpos
      left
      apply hwrite
    · use hpos
      right
      exact ⟨_, hstep, hwrite⟩
  · rintro ⟨hpos, hwrite | ⟨q, hstep, hwrite⟩⟩
    · apply Writes.turn hpos hwrite
    · apply Writes.later hpos hstep hwrite

/-- A run that returns has recorded its writes. -/
theorem copies_of_run (p : Parse σ) :
  ∀ r, (parseLoop setOption size).run p = some r →
    ∀ c, c ∈ r.copies ↔ c ∈ p.copies ∨ Writes setOption size p c
  := by
  apply parse_induction (P := fun p result => ∀ r, result = some r →
    ∀ c, c ∈ r.copies ↔ c ∈ p.copies ∨ Writes setOption size p c)
  · intro p hpos r hr c
    rw [finish] at hr
    split_ifs at hr
    cases hr
    rw [writes_iff]
    simp [hpos]
  · rintro p result hpos hstep r rfl c
    have hrecorded := recorded_step setOption size p
    rw [hstep] at hrecorded
    rw [show r.copies = p.copies ++ p.turnCopies size from hrecorded, List.mem_append,
      writes_iff, hstep]
    simp [hpos]
  · intro p q hpos hstep ih r hr c
    have hrecorded := recorded_step setOption size p
    rw [hstep] at hrecorded
    rw [ih r hr, show q.copies = p.copies ++ p.turnCopies size from hrecorded,
      List.mem_append, writes_iff (p := p), hstep]
    simp [hpos, or_assoc]

/-! ### Which writes fit -/

theorem closedCopy_fits {s : Scanner Byte} (hs : ∀ xs, s.Takes 0 xs → xs.length ≤ MAX_PARAM_LEN)
    (mem : Bytes) :
  (closedCopy s mem).Fits
  := by
  have htaken := hs _ (s.takes_taken 0 mem)
  rw [Scanner.taken] at htaken
  rw [closedCopy]
  cases hscan : s.run 0 mem with
  | fault =>
    rw [hscan] at htaken
    apply Nat.le_succ_of_le htaken
  | refused param rest =>
    rw [hscan] at htaken
    apply Nat.le_succ_of_le htaken
  | stopped param rest =>
    rw [hscan] at htaken
    apply Nat.succ_le_succ htaken

theorem bareCopy_fits (mem : Bytes) :
  (bareCopy mem).Fits
  := by
  have htaken := (takes_bare_iff.mp (bare.takes_taken 0 mem)).2
  rw [Scanner.taken] at htaken
  rw [bareCopy]
  cases hscan : bare.run 0 mem with
  | fault =>
    rw [hscan] at htaken
    apply Nat.le_succ_of_le htaken.le
  | refused param rest =>
    rw [hscan] at htaken
    apply Nat.succ_le_succ htaken.le
  | stopped param rest =>
    rw [hscan] at htaken
    apply Nat.succ_le_succ htaken.le

/-- A parameter fits into its buffer. -/
theorem paramCopies_fit (p : Parse σ) :
  ∀ c ∈ p.paramCopies size, c.Fits
  := by
  intro c hc
  rw [paramCopies] at hc
  split at hc
  · cases hc
  · split_ifs at hc
    · rw [List.mem_singleton.mp hc]
      apply closedCopy_fits
      intro xs hxs
      apply (takes_quoted_iff.mp hxs).2.1
    · rw [List.mem_singleton.mp hc]
      apply closedCopy_fits
      intro xs hxs
      apply (takes_braced_iff.mp hxs).2.1
    · rw [List.mem_singleton.mp hc]
      apply bareCopy_fits

theorem takes_optName_iff {i : ℕ} {name : Bytes} :
  optName.Takes i name ↔ ∀ b ∈ name, isOptChar b = true
  := by
  simp [Scanner.Takes, optName]

/-- A name fits into its buffer if it is shorter than 52 bytes. -/
theorem optCopy_fits_iff :
  p.optCopy.Fits ↔ (optName.taken 0 p.mem).length < MAX_OPT_LEN + 2
  := by
  rw [optCopy, Scanner.taken]
  rcases optName.run_eq_fault_or (fun _ => rfl) (fun _ => rfl) 0 p.mem with
    hscan | ⟨name, b, rest, hmem, hname, hb⟩
  · rw [hscan]
    apply Nat.lt_succ_iff.symm
  · rw [hmem, Scanner.run_eq_stopped (fun _ => rfl) (fun _ => rfl) hname hb]
    simp only [Copy.Fits, Buffer.size]
    split_ifs with hbad
    · apply Nat.lt_succ_iff.symm
    · rw [not_or] at hbad
      constructor
      · intro _
        omega
      · intro _
        omega

theorem not_fits_of_name {name rest : Bytes} (hchars : ∀ b ∈ name, isOptChar b = true)
    (hlength : name.length = MAX_OPT_LEN + 2) (hmem : p.mem = name ++ rest) :
  ¬ p.optCopy.Fits
  := by
  rw [optCopy_fits_iff, hmem, optName.taken_append (takes_optName_iff.mpr hchars),
    List.length_append]
  omega

theorem exists_name_of_not_fits (h : ¬ p.optCopy.Fits) :
  ∃ name rest, p.mem = name ++ rest ∧ (∀ b ∈ name, isOptChar b = true)
    ∧ name.length = MAX_OPT_LEN + 2
  := by
  rw [optCopy_fits_iff, Nat.not_lt] at h
  have hchars := takes_optName_iff.mp (optName.takes_taken 0 p.mem)
  obtain ⟨rest, hmem⟩ := optName.exists_taken_append 0 p.mem
  refine ⟨(optName.taken 0 p.mem).take (MAX_OPT_LEN + 2),
    (optName.taken 0 p.mem).drop (MAX_OPT_LEN + 2) ++ rest, ?_, ?_, ?_⟩
  · rw [← List.append_assoc, List.take_append_drop]
    apply hmem
  · intro b hb
    apply hchars b (List.mem_of_mem_take hb)
  · rw [List.length_take]
    omega

end Parse

/-! ### Long names -/

/-- From the position `pos` on, where `mem` stands in memory, the parser passes whitespace,
comments and entries up to a name of at least 52 bytes, which begins in the file. -/
inductive LongName (size : ℕ) : ℕ → Bytes → Prop where
  | name {pos : ℕ} {name rest : Bytes} (inside : pos < size)
      (chars : ∀ b ∈ name, isOptChar b = true) (length : name.length = MAX_OPT_LEN + 2) :
    LongName size pos (name ++ rest)
  | blank {pos : ℕ} {b : Byte} {rest : Bytes} (inside : pos < size) (space : isspace b = true)
      (more : LongName size (pos + 1) rest) :
    LongName size pos (b :: rest)
  | comment {pos : ℕ} {body rest : Bytes} (inside : pos < size) (line : newline ∉ body)
      (more : LongName size (pos + (hash :: (body ++ [newline])).length) rest) :
    LongName size pos (hash :: (body ++ newline :: rest))
  | entry {pos : ℕ} {e : Entry} {rest : Bytes} (wellFormed : e.WellFormed)
      (inside : pos + e.head.length < size) (within : e.value.Within size (pos + e.head.length))
      (ends : e.value.EndsBefore rest) (more : LongName size (pos + e.text.length) rest) :
    LongName size pos (e.text ++ rest)

namespace LongName

variable {size pos : ℕ}

theorem pos_lt {mem : Bytes} (h : LongName size pos mem) :
  pos < size
  := by
  cases h with
  | name hpos => apply hpos
  | blank hpos => apply hpos
  | comment hpos => apply hpos
  | entry he hpos => omega

theorem blanks {gap rest : Bytes} (hgap : Blank gap) (h : LongName size (pos + gap.length) rest) :
  LongName size pos (gap ++ rest)
  := by
  induction gap generalizing pos with
  | nil => apply h
  | cons b gap ih =>
    have hpos := h.pos_lt
    rw [List.length_cons] at hpos h
    apply blank (by omega) (hgap b List.mem_cons_self)
    apply ih (fun c hc => hgap c (List.mem_cons_of_mem b hc))
    rw [Nat.add_right_comm]
    apply h

end LongName

namespace Parse

variable {σ : Type} {setOption : σ → Bytes → Bytes → OptionType → σ} {size : ℕ} {p : Parse σ}

theorem skipWhitespace_again {q : Parse σ} (h : p.skipWhitespace size = .ok q) :
  q.skipWhitespace size = .ok q
  := by
  obtain ⟨gap, b, rest, -, -, hb, hpos, rfl⟩ := skipWhitespace_ok_iff.mp h
  apply skipWhitespace_text hb rfl hpos

/-- The writes are those after the whitespace. -/
theorem writes_iff_skipped {c : Copy} :
  Writes setOption size p c
    ↔ ∃ q, p.skipWhitespace size = .ok q ∧ Writes setOption size q c
  := by
  cases hskip : p.skipWhitespace size with
  | error e =>
    rw [writes_iff, turnCopies, step, hskip]
    simp [bind, Except.bind]
  | ok q =>
    obtain ⟨gap, b, rest, -, -, -, hpos, hq⟩ := skipWhitespace_ok_iff.mp hskip
    have hp : p.pos ≠ size := by omega
    have hq' : q.pos ≠ size := by
      rw [hq]
      simp only [move]
      omega
    rw [writes_iff, turnCopies, step, hskip]
    simp only [Except.ok.injEq, exists_eq_left']
    rw [writes_iff (p := q), turnCopies, step, skipWhitespace_again hskip]
    simp [hp, hq']

theorem writes_of_blank {b : Byte} {rest : Bytes} {c : Copy} (hb : isspace b = true)
    (hmem : p.mem = b :: rest) (h : Writes setOption size (p.move [b] rest) c) :
  Writes setOption size p c
  := by
  obtain ⟨q, hskip, hq⟩ := writes_iff_skipped.mp h
  obtain ⟨gap, d, tail, hrest, hgap, hd, hpos, rfl⟩ := skipWhitespace_ok_iff.mp hskip
  rw [show rest = gap ++ d :: tail from hrest] at hmem
  have hpos' : (p.move [b] rest).pos + gap.length = p.pos + (b :: gap).length := by
    simp only [move, List.length_cons, List.length_nil]
    omega
  apply writes_iff_skipped.mpr
  refine ⟨_, skipWhitespace_ok_iff.mpr ⟨b :: gap, d, tail, hmem, ?_, hd, ?_, ?_⟩, hq⟩
  · intro x hx
    rcases List.mem_cons.mp hx with rfl | hx
    · apply hb
    · apply hgap x hx
  · rw [← hpos']
    apply hpos
  · simp only [move, Parse.mk.injEq, and_true]
    apply hpos'

/-- The parser writes behind its buffers when it comes to a long name. -/
theorem exists_write_of_longName {pos : ℕ} {mem : Bytes} (h : LongName size pos mem) :
  ∀ p : Parse σ, p.pos = pos → p.mem = mem → ∃ c, Writes setOption size p c ∧ ¬ c.Fits
  := by
  induction h with
  | @name pos name rest hpos hchars hlength =>
    intro p hp hmem
    use p.optCopy
    constructor
    · obtain ⟨b, name', rfl⟩ := List.exists_cons_of_length_pos (by omega : 0 < name.length)
      have hb := hchars b List.mem_cons_self
      apply Writes.turn (by omega)
      rw [turnCopies, skipWhitespace_text (isspace_of_isOptChar hb) hmem (by omega)]
      have hpeek : p.peek = .ok b := by
        rw [peek, hmem]
        rfl
      simp only [textCopies, hpeek]
      rw [if_neg (ne_hash_of_isOptChar hb)]
      apply List.mem_cons_self
    · apply not_fits_of_name hchars hlength hmem
  | blank hpos hb hmore ih =>
    intro p hp hmem
    obtain ⟨c, hwrite, hc⟩ := ih (p.move [_] _) (congrArg (· + 1) hp) rfl
    exact ⟨c, writes_of_blank hb hmem hwrite, hc⟩
  | comment hpos hline hmore ih =>
    intro p hp hmem
    obtain ⟨c, hwrite, hc⟩ := ih (p.move _ _) (by rw [← hp]; rfl) rfl
    exact ⟨c, Writes.later (by omega) (step_comment hline hmem (by omega)) hwrite, hc⟩
  | @entry pos e rest he hpos hwithin hends hmore ih =>
    intro p hp hmem
    subst hp
    obtain ⟨c, hwrite, hc⟩ := ih (p.afterEntry setOption e rest) rfl rfl
    obtain ⟨q, hskip, hq⟩ := writes_iff_skipped.mp hwrite
    have hstep : p.step setOption size = _ := step_entry he hpos hwithin hends hmem
    exact ⟨c, Writes.later (by omega) (hstep.trans hskip) hq, hc⟩

/-- A write behind the buffers is that of a long name. -/
theorem longName_of_writes {c : Copy} (h : Writes setOption size p c) (hc : ¬ c.Fits) :
  LongName size p.pos p.mem
  := by
  induction h with
  | @turn p c hpos hwrite =>
    rw [turnCopies] at hwrite
    split at hwrite
    · cases hwrite
    · rename_i q hskip
      obtain ⟨gap, b, rest, hmem, hgap, hb, hinside, rfl⟩ := skipWhitespace_ok_iff.mp hskip
      rw [hmem]
      apply LongName.blanks hgap
      rw [textCopies] at hwrite
      split at hwrite
      · cases hwrite
      · split_ifs at hwrite
        · cases hwrite
        · rcases List.mem_cons.mp hwrite with rfl | hwrite
          · obtain ⟨name, tail, hname, hchars, hlength⟩ := exists_name_of_not_fits hc
            rw [show b :: rest = name ++ tail from hname]
            apply LongName.name hinside hchars hlength
          · split at hwrite
            · cases hwrite
            · exfalso
              apply hc (paramCopies_fit _ c hwrite)
  | @later p q c hpos hstep hwrite ih =>
    rcases step_cases setOption size p with hfault | ⟨r, hleave, -⟩ | ⟨⟨r, hleave, -⟩, -⟩
      | ⟨gap, rest, hmem, hgap, hinside, hskip, ⟨body, tail, hbody, hline, hcomment⟩
        | ⟨e, tail, htext, he, hstart, hwithin, hends, hentry⟩⟩
    · cases hfault.symm.trans hstep
    · cases hleave.symm.trans hstep
    · cases hleave.symm.trans hstep
    · cases hcomment.symm.trans (hskip.symm.trans hstep)
      rw [hmem, show rest = _ from hbody]
      apply LongName.blanks hgap
      apply LongName.comment hinside hline (ih hc)
    · obtain ⟨gap', b, rest', hmem', hgap', -, hpos', rfl⟩ :=
        skipWhitespace_ok_iff.mp (hentry.symm.trans (hskip.symm.trans hstep))
      rw [hmem, show rest = _ from htext]
      apply LongName.blanks hgap
      apply LongName.entry he hstart hwithin hends
      rw [show tail = _ from hmem']
      apply LongName.blanks hgap' (ih hc)

/-- All writes fit if and only if the parser comes to no long name. -/
theorem writes_fit_iff :
  (∀ c, Writes setOption size p c → c.Fits) ↔ ¬ LongName size p.pos p.mem
  := by
  constructor
  · intro h hlong
    obtain ⟨c, hwrite, hc⟩ := exists_write_of_longName hlong p rfl rfl
    apply hc (h c hwrite)
  · intro h c hwrite
    by_contra hc
    apply h (longName_of_writes hwrite hc)

/-- Where the parser of a file begins. -/
def start (content beyond : Bytes) (state : σ) : Parse σ where
  pos := 0
  mem := (content ++ beyond).take (INT_MAX + 1)
  names := 0
  copies := []
  state := state

end Parse

/-- The parser stays within `opt` and `param` exactly for the files in which it comes to no
name of at least 52 bytes.  What a run that returns has recorded are its writes. -/
theorem parseContent_fits_iff {σ : Type} (setOption : σ → Bytes → Bytes → OptionType → σ)
    (content beyond : Bytes) (state : σ) :
  ((∀ c, Parse.Writes setOption content.length (.start content beyond state) c → c.Fits)
      ↔ ¬ LongName content.length 0 ((content ++ beyond).take (INT_MAX + 1)))
    ∧ ∀ r, parseContent setOption content beyond state = some r →
      ∀ c, c ∈ r.copies
        ↔ Parse.Writes setOption content.length (.start content beyond state) c
  := by
  constructor
  · apply Parse.writes_fit_iff
  · intro r hr c
    rw [Parse.copies_of_run _ r hr]
    simp [Parse.start]

/-- A name of 52 bytes is written behind `opt`. -/
theorem parseContent_overruns :
  ∃ r, parseContent record (List.replicate 52 97 ++ text " = 1\n") [0] [] = some r
    ∧ ⟨.opt, 52⟩ ∈ r.copies ∧ ¬ Copy.Fits ⟨.opt, 52⟩
  := by
  refine ⟨_, rfl, ?_, by decide⟩
  decide

end Trailermatic
