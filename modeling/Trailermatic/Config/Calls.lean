import Trailermatic.Config.Turns

/-!
# The calls of a run

What the parser reads does not depend on what `setOption` makes of it.  A run with one
`setOption` gives what a run with another one gives, when the states of the one are the
images of those of the other.  So the state that a run leaves is that of the calls a
recording `setOption` has recorded.
-/

namespace Trailermatic

variable {σ τ α β γ δ : Type} (h : σ → τ)

/-- A result with the image of its state. -/
def Parsed.mapState (r : Parsed σ) : Parsed τ :=
  ⟨r.ret, r.names, r.copies, h r.state⟩

namespace Parse

/-- The parser with the image of its state. -/
def mapState (p : Parse σ) : Parse τ :=
  ⟨p.pos, p.mem, p.names, p.copies, h p.state⟩

/-- A part of a turn, with the image of the state and its value changed by `f`. -/
def mapFlow (f : α → β) : Flow σ α → Flow τ β
  | .ok a => .ok (f a)
  | .error r => .error (r.map (Parsed.mapState h))

theorem mapFlow_bind {f : α → β} {g : γ → δ} {k : α → Flow σ γ} {l : β → Flow τ δ}
    (hkl : ∀ a, l (f a) = mapFlow h g (k a)) (x : Flow σ α) :
  mapFlow h f x >>= l = mapFlow h g (x >>= k)
  := by
  cases x with
  | ok a => apply hkl a
  | error r => rfl

theorem mapFlow_map {f : α → β} {g : γ → δ} {k : α → γ} {l : β → δ}
    (hkl : ∀ a, l (f a) = g (k a)) (x : Flow σ α) :
  l <$> mapFlow h f x = mapFlow h g (k <$> x)
  := by
  cases x with
  | ok a => apply congrArg Except.ok (hkl a)
  | error r => rfl

variable {size : ℕ} (p : Parse σ)

/-! ### Parts of a turn -/

theorem skipWhitespace_mapState :
  (p.mapState h).skipWhitespace size = mapFlow h (mapState h) (p.skipWhitespace size)
  := by
  have hmem : (p.mapState h).mem = p.mem := rfl
  rw [skipWhitespace, skipWhitespace, hmem]
  cases whitespace.run 0 p.mem with
  | fault => rfl
  | refused taken rest => rfl
  | stopped taken rest =>
    have hpos : ((p.mapState h).move taken rest).pos = (p.move taken rest).pos := rfl
    simp only
    rw [hpos]
    split_ifs
    · rfl
    · rfl

theorem peek_mapState :
  (p.mapState h).peek = mapFlow h id p.peek
  := by
  rw [peek, peek, mapState]
  simp only
  cases p.mem with
  | nil => rfl
  | cons b rest => rfl

theorem skipComment_mapState :
  (p.mapState h).skipComment = mapFlow h (mapState h) p.skipComment
  := by
  rw [skipComment, skipComment, mapState]
  simp only
  cases comment.run 0 p.mem with
  | fault => rfl
  | refused taken rest => rfl
  | stopped taken rest => rfl

theorem readOption_mapState :
  (p.mapState h).readOption = mapFlow h (Prod.map id (mapState h)) p.readOption
  := by
  rw [readOption, readOption, mapState]
  simp only
  cases optName.run 0 p.mem with
  | fault => rfl
  | refused taken rest => rfl
  | stopped taken rest =>
    simp only
    split_ifs
    · rfl
    · rfl

theorem readEquals_mapState :
  (p.mapState h).readEquals = mapFlow h (mapState h) p.readEquals
  := by
  rw [readEquals, readEquals, mapState]
  simp only
  cases p.mem with
  | nil => rfl
  | cons b rest =>
    simp only
    split_ifs
    · rfl
    · rfl

theorem readClosed_mapState (s : Scanner Byte) :
  (p.mapState h).readClosed s = mapFlow h (Prod.map id (mapState h)) (p.readClosed s)
  := by
  rw [readClosed, readClosed, mapState]
  simp only
  cases s.run 0 p.mem with
  | fault => rfl
  | refused param rest => rfl
  | stopped param rest => rfl

theorem readBare_mapState :
  (p.mapState h).readBare = mapFlow h (Prod.map id (mapState h)) p.readBare
  := by
  rw [readBare, readBare, mapState]
  simp only
  cases bare.run 0 p.mem with
  | fault => rfl
  | refused param rest => rfl
  | stopped param rest => rfl

theorem readParam_mapState :
  (p.mapState h).readParam size
    = mapFlow h (Prod.map id (Prod.map id (mapState h))) (p.readParam size)
  := by
  rw [readParam, readParam]
  cases hmem : p.mem with
  | nil =>
    rw [mapState, hmem]
    rfl
  | cons b rest =>
    have hmem' : (p.mapState h).mem = b :: rest := hmem
    have hinner : (p.mapState h).move [b] rest = (p.move [b] rest).mapState h := rfl
    have hpos : ((p.move [b] rest).mapState h).pos = (p.move [b] rest).pos := rfl
    rw [hmem']
    simp only [hinner, hpos, readClosed_mapState, readBare_mapState]
    split_ifs
    · apply mapFlow_map
      intro a
      rfl
    · apply mapFlow_map
      intro a
      rfl
    · apply mapFlow_map
      intro a
      rfl

theorem readHead_mapState :
  (p.mapState h).readHead size = mapFlow h (Prod.map id (mapState h)) (p.readHead size)
  := by
  rw [readHead, readHead, readOption_mapState]
  apply mapFlow_bind
  rintro ⟨opt, p₁⟩
  simp only [Prod.map, skipWhitespace_mapState]
  apply mapFlow_bind
  intro p₂
  rw [readEquals_mapState]
  apply mapFlow_bind
  intro p₃
  rw [skipWhitespace_mapState]
  apply mapFlow_bind
  intro p₄
  rfl

/-! ### Runs -/

variable {h} {setOption : σ → Bytes → Bytes → OptionType → σ}
  {setOption' : τ → Bytes → Bytes → OptionType → τ}

theorem readEntry_mapState
    (hset : ∀ s opt param type, setOption' (h s) opt param type = h (setOption s opt param type))
    (p : Parse σ) :
  (p.mapState h).readEntry setOption' size
    = mapFlow h (mapState h) (p.readEntry setOption size)
  := by
  rw [readEntry, readEntry, readHead_mapState]
  apply mapFlow_bind
  rintro ⟨opt, p₁⟩
  simp only [Prod.map, readParam_mapState]
  apply mapFlow_bind
  rintro ⟨type, param, p₂⟩
  have hcall : (p₂.mapState h).callSetOption setOption' opt param type
      = (p₂.callSetOption setOption opt param type).mapState h := by
    simp only [callSetOption, mapState, hset]
  simp only [Prod.map, id, hcall, skipWhitespace_mapState]

theorem step_mapState
    (hset : ∀ s opt param type, setOption' (h s) opt param type = h (setOption s opt param type))
    (p : Parse σ) :
  (p.mapState h).step setOption' size = mapFlow h (mapState h) (p.step setOption size)
  := by
  rw [step, step, skipWhitespace_mapState]
  apply mapFlow_bind
  intro p₁
  rw [peek_mapState]
  apply mapFlow_bind
  intro b
  simp only [id]
  split_ifs
  · apply skipComment_mapState
  · apply readEntry_mapState hset

theorem finish_mapState (p : Parse σ) :
  (p.mapState h).finish = p.finish.map (Parsed.mapState h)
  := by
  rw [finish, finish, mapState]
  by_cases hpos : INT_MAX < p.pos
  · simp only [if_pos hpos]
    rfl
  · simp only [if_neg hpos]
    rfl

/-- A run of the parser with the image of a state gives the image of the result. -/
theorem run_mapState
    (hset : ∀ s opt param type, setOption' (h s) opt param type = h (setOption s opt param type))
    (p : Parse σ) :
  (parseLoop setOption' size).run (p.mapState h)
    = ((parseLoop setOption size).run p).map (Parsed.mapState h)
  := by
  have hstep (p : Parse σ) : (p.mapState h).step setOption' size
      = mapFlow h (mapState h) (p.step setOption size) := step_mapState hset p
  apply parse_induction (P := fun p result =>
    (parseLoop setOption' size).run (p.mapState h) = result.map (Parsed.mapState h))
  · intro p hpos
    have hend : (p.mapState h).pos = size := hpos
    rw [run_at_end hend, finish_mapState]
  · intro p result hpos hstop
    have hgoes : (p.mapState h).pos ≠ size := hpos
    apply run_of_step_error hgoes
    rw [hstep, hstop]
    rfl
  · intro p q hpos hnext ih
    have hgoes : (p.mapState h).pos ≠ size := hpos
    rw [← ih]
    apply run_of_step_ok hgoes
    rw [hstep, hnext]
    rfl

end Parse

/-- The state after the calls `calls`. -/
def applyCalls (setOption : σ → Bytes → Bytes → OptionType → σ) (state : σ)
    (calls : List (Bytes × Bytes × OptionType)) : σ :=
  calls.foldl (fun state call => setOption state call.1 call.2.1 call.2.2) state

/-- The calls where a call after undefined behaviour has no effect. -/
theorem applyCalls_eq_foldlM
    {setOption : Option σ → Bytes → Bytes → OptionType → Option σ}
    (hbind : ∀ state opt param type, setOption state opt param type
      = state.bind fun s => setOption (some s) opt param type) (s : σ)
    (calls : List (Bytes × Bytes × OptionType)) :
  applyCalls setOption (some s) calls
    = calls.foldlM (fun s call => setOption (some s) call.1 call.2.1 call.2.2) s
  := by
  induction calls generalizing s with
  | nil => rfl
  | cons call calls ih =>
    rw [applyCalls, List.foldl_cons, ← applyCalls, List.foldlM_cons]
    cases setOption (some s) call.1 call.2.1 call.2.2 with
    | some s' => apply ih
    | none =>
      have hnone : ∀ calls, applyCalls setOption none calls = none := by
        intro calls
        induction calls with
        | nil => rfl
        | cons call calls ih =>
          rw [applyCalls, List.foldl_cons, hbind]
          apply ih
      apply hnone

theorem applyCalls_record (setOption : σ → Bytes → Bytes → OptionType → σ) (state : σ)
    (calls : List (Bytes × Bytes × OptionType)) (opt param : Bytes) (type : OptionType) :
  setOption (applyCalls setOption state calls) opt param type
    = applyCalls setOption state (record calls opt param type)
  := by
  rw [applyCalls, applyCalls, record, List.foldl_append, List.foldl_cons, List.foldl_nil]

/-- The state that is left is the one after the calls recorded. -/
theorem parseConfigFile_calls (setOption : σ → Bytes → Bytes → OptionType → σ)
    (file : Option Bytes) (beyond : Bytes) (state : σ) :
  parseConfigFile setOption file beyond state
    = (parseConfigFile record file beyond []).map
      (Parsed.mapState (applyCalls setOption state))
  := by
  cases file with
  | none => rfl
  | some content =>
    rw [parseConfigFile, parseConfigFile]
    split_ifs
    · rfl
    · apply Parse.run_mapState (applyCalls_record setOption state) ⟨0, _, 0, [], []⟩

end Trailermatic
