import Trailermatic.Config.Turns

/-!
# What stands behind the memory of the parser

A part of a turn that does not fault does the same in a memory that goes on.
`run_extend` says this of a whole run.
-/

namespace Trailermatic

namespace Parse

variable {σ α β : Type} {setOption : σ → Bytes → Bytes → OptionType → σ} {size : ℕ}
  {m : Bytes} {p : Parse σ}

/-- The parser in a memory that goes on with `m`. -/
def extend (m : Bytes) (p : Parse σ) : Parse σ :=
  { p with mem := p.mem ++ m }

/-- Unless `x` is a fault, `y` gives what `x` gives, changed by `f`. -/
def Extends (f : α → β) (x : Flow σ α) (y : Flow σ β) : Prop :=
  x ≠ fault → y = f <$> x

theorem Extends.bind {γ δ : Type} {f : α → β} {g : γ → δ} {x : Flow σ α} {y : Flow σ β}
    {k : α → Flow σ γ} {l : β → Flow σ δ} (hxy : Extends f x y)
    (hkl : ∀ a, Extends g (k a) (l (f a))) :
  Extends g (x >>= k) (y >>= l)
  := by
  intro h
  cases x with
  | ok a =>
    rw [hxy (by rintro ⟨⟩)]
    apply hkl a h
  | error result =>
    cases result with
    | none => apply absurd rfl h
    | some r =>
      rw [hxy (by rintro ⟨⟩)]
      rfl

theorem Extends.map {γ δ : Type} {f : α → β} {g : γ → δ} {x : Flow σ α} {y : Flow σ β}
    {k : α → γ} {l : β → δ} (hxy : Extends f x y) (hkl : ∀ a, l (f a) = g (k a)) :
  Extends g (k <$> x) (l <$> y)
  := by
  intro h
  cases x with
  | ok a =>
    rw [hxy (by rintro ⟨⟩)]
    apply congrArg Except.ok (hkl a)
  | error result =>
    cases result with
    | none => apply absurd rfl h
    | some r =>
      rw [hxy (by rintro ⟨⟩)]
      rfl

theorem Extends.fault {f : α → β} {y : Flow σ β} :
  Extends f Parse.fault y
  := fun h => absurd rfl h

theorem stopped_extend {s : Scanner Byte} {taken rest : Bytes}
    (hscan : s.run 0 p.mem = .stopped taken rest) :
  s.run 0 (p.extend m).mem = .stopped taken (rest ++ m)
  := by
  rw [extend, s.run_append (by rw [hscan]; rintro ⟨⟩), hscan]
  rfl

theorem refused_extend {s : Scanner Byte} {taken rest : Bytes}
    (hscan : s.run 0 p.mem = .refused taken rest) :
  s.run 0 (p.extend m).mem = .refused taken (rest ++ m)
  := by
  rw [extend, s.run_append (by rw [hscan]; rintro ⟨⟩), hscan]
  rfl

/-! ### Parts of a turn -/

theorem skipWhitespace_extend :
  Extends (extend m) (p.skipWhitespace size) ((p.extend m).skipWhitespace size)
  := by
  rw [skipWhitespace, skipWhitespace]
  cases hscan : whitespace.run 0 p.mem with
  | fault => apply Extends.fault
  | refused taken rest => apply Extends.fault
  | stopped taken rest =>
    rw [stopped_extend hscan]
    have hpos : ((p.extend m).move taken (rest ++ m)).pos = (p.move taken rest).pos := rfl
    intro _
    simp only
    rw [hpos]
    split_ifs
    · rfl
    · rfl

theorem peek_extend :
  Extends id p.peek (p.extend m).peek
  := by
  rw [peek, peek, extend]
  cases p.mem with
  | nil => apply Extends.fault
  | cons b rest =>
    intro _
    rfl

theorem skipComment_extend :
  Extends (extend m) p.skipComment (p.extend m).skipComment
  := by
  rw [skipComment, skipComment]
  cases hscan : comment.run 0 p.mem with
  | fault => apply Extends.fault
  | refused taken rest => apply Extends.fault
  | stopped taken rest =>
    obtain ⟨-, -, b, tail, rfl, -⟩ := comment.stopped_iff.mp hscan
    rw [stopped_extend hscan]
    intro _
    rfl

theorem readOption_extend :
  Extends (Prod.map id (extend m)) p.readOption (p.extend m).readOption
  := by
  rw [readOption, readOption]
  cases hscan : optName.run 0 p.mem with
  | fault => apply Extends.fault
  | refused taken rest => apply Extends.fault
  | stopped opt rest =>
    rw [stopped_extend hscan]
    intro _
    simp only
    split_ifs
    · rfl
    · rfl

theorem readEquals_extend :
  Extends (extend m) p.readEquals (p.extend m).readEquals
  := by
  rw [readEquals, readEquals, extend]
  cases p.mem with
  | nil => apply Extends.fault
  | cons b rest =>
    intro _
    simp only [List.cons_append]
    split_ifs
    · rfl
    · rfl

theorem readClosed_extend (s : Scanner Byte) :
  Extends (Prod.map id (extend m)) (p.readClosed s) ((p.extend m).readClosed s)
  := by
  rw [readClosed, readClosed]
  cases hscan : s.run 0 p.mem with
  | fault => apply Extends.fault
  | refused param rest =>
    rw [refused_extend hscan]
    intro _
    rfl
  | stopped param rest =>
    obtain ⟨-, -, b, tail, rfl, -⟩ := s.stopped_iff.mp hscan
    rw [stopped_extend hscan]
    intro _
    rfl

theorem readBare_extend :
  Extends (Prod.map id (extend m)) p.readBare (p.extend m).readBare
  := by
  rw [readBare, readBare]
  cases hscan : bare.run 0 p.mem with
  | fault => apply Extends.fault
  | refused param rest =>
    rw [refused_extend hscan]
    intro _
    rfl
  | stopped param rest =>
    rw [stopped_extend hscan]
    intro _
    rfl

theorem readParam_extend :
  Extends (Prod.map id (Prod.map id (extend m))) (p.readParam size) ((p.extend m).readParam size)
  := by
  cases hmem : p.mem with
  | nil =>
    intro h
    rw [readParam, hmem] at h
    apply absurd rfl h
  | cons b rest =>
    have hmem' : (p.extend m).mem = b :: (rest ++ m) := by
      rw [extend, hmem]
      rfl
    by_cases hquote : b = doubleQuote ∨ b = singleQuote
    · rw [readParam_quote hquote hmem, readParam_quote hquote hmem']
      apply (readClosed_extend (p := p.move [b] rest) _).map
      intro _
      rfl
    · rcases eq_or_ne b openBrace with rfl | hbrace
      · rw [readParam_brace hmem, readParam_brace hmem']
        apply (readClosed_extend (p := p.move [openBrace] rest) _).map
        intro _
        rfl
      · rw [readParam_bare hquote hbrace hmem, readParam_bare hquote hbrace hmem']
        apply readBare_extend.map
        intro _
        rfl

theorem readHead_extend :
  Extends (Prod.map id (extend m)) (p.readHead size) ((p.extend m).readHead size)
  := by
  apply readOption_extend.bind
  rintro ⟨opt, p₁⟩
  apply (skipWhitespace_extend (p := p₁)).bind
  intro p₂
  apply (readEquals_extend (p := p₂)).bind
  intro p₃
  apply (skipWhitespace_extend (p := p₃)).bind
  intro p₄ _
  rfl

theorem readEntry_extend :
  Extends (extend m) (p.readEntry setOption size) ((p.extend m).readEntry setOption size)
  := by
  apply readHead_extend.bind
  rintro ⟨opt, p₁⟩
  apply (readParam_extend (p := p₁)).bind
  rintro ⟨type, param, p₂⟩
  apply skipWhitespace_extend (p := p₂.callSetOption setOption opt param type)

theorem step_extend :
  Extends (extend m) (p.step setOption size) ((p.extend m).step setOption size)
  := by
  apply skipWhitespace_extend.bind
  intro p₁
  apply (peek_extend (p := p₁)).bind
  intro b
  rw [id]
  split_ifs
  · apply skipComment_extend
  · apply readEntry_extend

/-! ### The loop -/

/-- A run that has a result has the same result in a memory that goes on. -/
theorem run_extend (m : Bytes) (p : Parse σ) :
  (parseLoop setOption size).run p ≠ none
    → (parseLoop setOption size).run (p.extend m) = (parseLoop setOption size).run p
  := by
  apply parse_induction (P := fun p result =>
    result ≠ none → (parseLoop setOption size).run (p.extend m) = result)
  · intro p hpos _
    apply run_at_end (p := p.extend m) hpos
  · intro p result hpos hstep hresult
    apply run_of_step_error (p := p.extend m) hpos
    rw [step_extend, hstep]
    · rfl
    · rw [hstep]
      rintro ⟨⟩
      apply hresult rfl
  · intro p q hpos hstep ih hresult
    rw [← ih hresult]
    apply run_of_step_ok (p := p.extend m) hpos
    rw [step_extend, hstep]
    · rfl
    · rw [hstep]
      rintro ⟨⟩

end Parse

end Trailermatic
