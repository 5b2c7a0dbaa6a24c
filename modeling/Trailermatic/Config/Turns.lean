import Trailermatic.Config.Entries

/-!
# Running the parser

Three equations say how the loop over the file passes whitespace, a comment and an entry.
`step_cases` says all that a turn can do, and `run_invariant` is the rule for invariants of
a run.
-/

namespace Trailermatic

/-- The text of an entry begins with a byte of its name. -/
theorem Entry.exists_head {e : Entry} (he : e.WellFormed) (rest : Bytes) :
  ∃ b m, e.text ++ rest = b :: m ∧ isspace b = false ∧ b ≠ hash
  := by
  obtain ⟨b, name, hname⟩ := List.exists_cons_of_ne_nil he.name_ne_nil
  have hb := he.name_chars b (by simp [hname])
  refine ⟨b, name ++ (e.before ++ equals :: e.after) ++ e.value.text ++ rest, ?_,
    isspace_of_isOptChar hb, ne_hash_of_isOptChar hb⟩
  rw [Entry.text, Entry.head, hname]
  rfl

namespace Parse

variable {σ : Type} {setOption : σ → Bytes → Bytes → OptionType → σ} {size : ℕ} {p : Parse σ}

/-- The memory of the parser ends no later than an `int` can reach. -/
def InReach (p : Parse σ) : Prop :=
  p.pos + p.mem.length ≤ INT_MAX + 1

theorem InReach.pos_le {b : Byte} {rest : Bytes} (h : p.InReach) (hmem : p.mem = b :: rest) :
  p.pos ≤ INT_MAX
  := by
  rw [InReach, hmem, List.length_cons] at h
  omega

theorem InReach.move {taken rest : Bytes} (h : p.InReach) (hmem : p.mem = taken ++ rest) :
  (p.move taken rest).InReach
  := by
  rw [InReach, hmem, List.length_append] at h
  simp only [InReach, Parse.move]
  omega

theorem InReach.afterEntry {e : Entry} {rest : Bytes} (h : p.InReach)
    (hmem : p.mem = e.text ++ rest) :
  (p.afterEntry setOption e rest).InReach
  := by
  rw [InReach, hmem, List.length_append] at h
  simp only [InReach, Parse.afterEntry]
  omega

/-! ### Turns -/

theorem finish_eq (hpos : p.pos ≤ INT_MAX) :
  p.finish = some ⟨0, p.names, p.copies, p.state⟩
  := if_neg (Nat.not_lt_of_le hpos)

theorem run_at_end (hpos : p.pos = size) :
  (parseLoop setOption size).run p = p.finish
  := by
  apply Loop.run_done
  simp only [parseLoop, if_pos hpos]

theorem run_of_step_ok {q : Parse σ} (hpos : p.pos ≠ size)
    (hstep : p.step setOption size = .ok q) :
  (parseLoop setOption size).run p = (parseLoop setOption size).run q
  := by
  apply Loop.run_next
  simp only [parseLoop, if_neg hpos, hstep]

theorem run_of_step_error {result : Option (Parsed σ)} (hpos : p.pos ≠ size)
    (hstep : p.step setOption size = .error result) :
  (parseLoop setOption size).run p = result
  := by
  apply Loop.run_done
  simp only [parseLoop, if_neg hpos, hstep]

/-- What holds at the end of the file and where a turn ends the run, and before a turn if it
holds after it, holds of every run. -/
theorem parse_induction {P : Parse σ → Option (Parsed σ) → Prop}
    (ends : ∀ p : Parse σ, p.pos = size → P p p.finish)
    (stops : ∀ (p : Parse σ) result, p.pos ≠ size → p.step setOption size = .error result →
      P p result)
    (goes : ∀ p q : Parse σ, p.pos ≠ size → p.step setOption size = .ok q →
      P q ((parseLoop setOption size).run q) → P p ((parseLoop setOption size).run q))
    (p : Parse σ) :
  P p ((parseLoop setOption size).run p)
  := by
  apply (parseLoop setOption size).run_induction
  · intro p result hturn
    simp only [parseLoop] at hturn
    split_ifs at hturn with hpos
    · cases hturn
      apply ends p hpos
    · split at hturn
      · cases hturn
      · rename_i hstep
        cases hturn
        apply stops p _ hpos hstep
  · intro p q hturn ih
    simp only [parseLoop] at hturn
    split_ifs at hturn with hpos
    split at hturn
    · rename_i hstep
      cases hturn
      apply goes p q hpos hstep ih
    · cases hturn

/-- Runs whose first turns are the same. -/
theorem run_congr {q : Parse σ} (hp : p.pos ≠ size) (hq : q.pos ≠ size)
    (h : p.step setOption size = q.step setOption size) :
  (parseLoop setOption size).run p = (parseLoop setOption size).run q
  := by
  cases hstep : q.step setOption size with
  | ok q' => rw [run_of_step_ok hp (h.trans hstep), run_of_step_ok hq hstep]
  | error result => rw [run_of_step_error hp (h.trans hstep), run_of_step_error hq hstep]

theorem move_nil (p : Parse σ) :
  p.move [] p.mem = p
  := rfl

/-- Nothing is skipped before text. -/
theorem skipWhitespace_text {b : Byte} {rest : Bytes} (hb : isspace b = false)
    (hmem : p.mem = b :: rest) (hpos : p.pos < size) :
  p.skipWhitespace size = .ok p
  := by
  have hgap : Blank [] := fun _ h => absurd h List.not_mem_nil
  rw [skipWhitespace_eq hgap hb hmem, ← hmem, move_nil, if_neg]
  simpa using hpos

/-- Whitespace within the file is passed. -/
theorem run_blank {gap rest : Bytes} {b : Byte} (hreach : p.InReach) (hgap : Blank gap)
    (hb : isspace b = false) (hmem : p.mem = gap ++ b :: rest)
    (hsize : p.pos + gap.length ≤ size) :
  (parseLoop setOption size).run p
    = (parseLoop setOption size).run (p.move gap (b :: rest))
  := by
  rcases eq_or_ne p.pos size with hpos | hpos
  · obtain rfl : gap = [] := List.length_eq_zero_iff.mp (by omega)
    rw [← hmem.trans (List.nil_append _), move_nil]
  rcases Nat.lt_or_eq_of_le hsize with hlt | heq
  · have hskip : (p.move gap (b :: rest)).skipWhitespace size = .ok (p.move gap (b :: rest)) :=
      skipWhitespace_text hb rfl hlt
    apply run_congr hpos (Nat.ne_of_lt hlt)
    rw [step, step, skipWhitespace_eq hgap hb hmem, if_neg (by omega), hskip]
  · have hmove : (p.move gap (b :: rest)).InReach := hreach.move hmem
    have hend : (p.move gap (b :: rest)).pos = size := heq
    rw [run_at_end hend, finish_eq (hmove.pos_le rfl)]
    apply run_of_step_error hpos
    rw [step, skipWhitespace_eq hgap hb hmem, if_pos heq.ge]
    rfl

theorem step_text {b : Byte} {rest : Bytes} (hb : isspace b = false) (hmem : p.mem = b :: rest)
    (hpos : p.pos < size) :
  p.step setOption size = if b = hash then p.skipComment else p.readEntry setOption size
  := by
  rw [step, skipWhitespace_text hb hmem hpos]
  simp only [bind, Except.bind]
  rw [peek, hmem]

/-- A turn that comes to a comment passes it. -/
theorem step_comment {body rest : Bytes} (hbody : newline ∉ body)
    (hmem : p.mem = hash :: (body ++ newline :: rest)) (hpos : p.pos < size) :
  p.step setOption size = .ok (p.move (hash :: (body ++ [newline])) rest)
  := by
  have hcomment : newline ∉ hash :: body := by
    rw [List.mem_cons, not_or]
    exact ⟨by decide, hbody⟩
  rw [step_text rfl hmem hpos, if_pos rfl, skipComment_eq hcomment hmem]
  rfl

/-- A comment that a turn comes to has its newline, or the turn faults. -/
theorem step_comment_cases {rest : Bytes} (hmem : p.mem = hash :: rest) (hpos : p.pos < size) :
  p.step setOption size = fault
    ∨ ∃ body tail, rest = body ++ newline :: tail ∧ newline ∉ body
  := by
  rcases skipComment_cases p with hfault | ⟨comment, tail, hcomment, hline⟩
  · left
    rw [step_text rfl hmem hpos, if_pos rfl, hfault]
  right
  rw [hmem] at hcomment
  cases comment with
  | nil => cases hcomment
  | cons c body =>
    obtain ⟨rfl, hrest⟩ := List.cons.inj hcomment
    rw [List.mem_cons, not_or] at hline
    exact ⟨body, tail, hrest, hline.2⟩

/-- A comment is passed. -/
theorem run_comment {body rest : Bytes} (hbody : newline ∉ body)
    (hmem : p.mem = hash :: (body ++ newline :: rest)) (hpos : p.pos < size) :
  (parseLoop setOption size).run p
    = (parseLoop setOption size).run (p.move (hash :: (body ++ [newline])) rest)
  := run_of_step_ok hpos.ne (step_comment hbody hmem hpos)

/-- A turn that comes to an entry reads it. -/
theorem step_entry {e : Entry} (he : e.WellFormed) (hstart : p.pos + e.head.length < size)
    (hwithin : e.value.Within size (p.pos + e.head.length)) {rest : Bytes}
    (hends : e.value.EndsBefore rest) (hmem : p.mem = e.text ++ rest) :
  p.step setOption size = (p.afterEntry setOption e rest).skipWhitespace size
  := by
  obtain ⟨b, m, htext, hb, hhash⟩ := Entry.exists_head he rest
  rw [step_text hb (hmem.trans htext) (by omega), if_neg hhash]
  apply readEntry_entry he hstart hwithin hends hmem

/-- A turn that skips whitespace from `q` on goes on as the loop does from `q`. -/
theorem run_of_step_skip {q : Parse σ} {gap rest : Bytes} {b : Byte} (hreach : q.InReach)
    (hpos : p.pos < size) (hstep : p.step setOption size = q.skipWhitespace size)
    (hgap : Blank gap) (hb : isspace b = false) (hmem : q.mem = gap ++ b :: rest)
    (hsize : q.pos + gap.length ≤ size) :
  (parseLoop setOption size).run p = (parseLoop setOption size).run q
  := by
  rw [skipWhitespace_eq hgap hb hmem] at hstep
  rw [run_blank hreach hgap hb hmem hsize]
  split_ifs at hstep with hend
  · have hfile : (q.move gap (b :: rest)).pos = size := Nat.le_antisymm hsize hend
    rw [run_at_end hfile, finish_eq ((hreach.move hmem).pos_le rfl)]
    apply run_of_step_error hpos.ne hstep
  · apply run_of_step_ok hpos.ne hstep

/-! ### Invariants -/

/-- What a turn that comes to text reads: a comment, or an entry. -/
def Reads (setOption : σ → Bytes → Bytes → OptionType → σ) (size : ℕ) (p : Parse σ) : Prop :=
  (∃ body tail, p.mem = hash :: (body ++ newline :: tail) ∧ newline ∉ body
      ∧ p.step setOption size = .ok (p.move (hash :: (body ++ [newline])) tail))
    ∨ ∃ (e : Entry) (tail : Bytes), p.mem = e.text ++ tail ∧ e.WellFormed
      ∧ p.pos + e.head.length < size ∧ e.value.Within size (p.pos + e.head.length)
      ∧ e.value.EndsBefore tail
      ∧ p.step setOption size = (p.afterEntry setOption e tail).skipWhitespace size

/-- What a turn that comes to text can do: fault, fail, come to the end of the file, or
read. -/
theorem step_text_cases {b : Byte} {rest : Bytes} (hb : isspace b = false)
    (hmem : p.mem = b :: rest) (hpos : p.pos < size) :
  p.step setOption size = fault
    ∨ p.Leaves (-1) (p.step setOption size)
    ∨ (p.Leaves 0 (p.step setOption size) ∧ size < p.pos + p.mem.length)
    ∨ p.Reads setOption size
  := by
  rcases eq_or_ne b hash with rfl | hhash
  · rcases step_comment_cases hmem hpos with hfault | ⟨body, tail, rfl, hline⟩
    · left
      apply hfault
    · right; right; right; left
      exact ⟨body, tail, hmem, hline, step_comment hline hmem hpos⟩
  have hread : p.step setOption size = p.readEntry setOption size := by
    rw [step_text hb hmem hpos, if_neg hhash]
  rw [hread]
  rcases entryRead setOption size p with hfault | ⟨hleaves, -⟩ | hleaves
    | ⟨e, tail, hentry, he, hstart, hwithin, hends⟩
  · left
    apply hfault
  · right; left
    apply hleaves
  · right; right; left
    apply hleaves
  · right; right; right; right
    exact ⟨e, tail, hentry, he, hstart, hwithin, hends,
      hread.trans (readEntry_entry he hstart hwithin hends hentry)⟩

/-- What a turn can do: fault, fail, come to the end of the file, or pass whitespace and
read. -/
theorem step_cases (setOption : σ → Bytes → Bytes → OptionType → σ) (size : ℕ) (p : Parse σ) :
  p.step setOption size = fault
    ∨ p.Leaves (-1) (p.step setOption size)
    ∨ (p.Leaves 0 (p.step setOption size) ∧ size < p.pos + p.mem.length)
    ∨ ∃ gap rest, p.mem = gap ++ rest ∧ Blank gap ∧ p.pos + gap.length < size
      ∧ p.step setOption size = (p.move gap rest).step setOption size
      ∧ (p.move gap rest).Reads setOption size
  := by
  rcases skipWhitespace_cases size p with hfault | ⟨gap, b, rest, hmem, hgap, hb⟩
  · left
    rw [step, hfault]
    rfl
  have hskip : p.skipWhitespace size = _ := skipWhitespace_eq hgap hb hmem
  by_cases hend : size ≤ p.pos + gap.length
  · right; right; left
    rw [if_pos hend] at hskip
    constructor
    · rw [step, hskip]
      exact ⟨_, rfl, rfl, rfl⟩
    · rw [hmem, List.length_append, List.length_cons]
      omega
  have hpos : (p.move gap (b :: rest)).pos < size := Nat.lt_of_not_le hend
  have hstep : p.step setOption size = (p.move gap (b :: rest)).step setOption size := by
    rw [step, step, hskip, if_neg hend, skipWhitespace_text hb rfl hpos]
  rw [hstep]
  rcases step_text_cases hb rfl hpos with hfault | hleaves | ⟨hleaves, hsize⟩ | hreads
  · left
    apply hfault
  · right; left
    apply hleaves
  · right; right; left
    refine ⟨hleaves, ?_⟩
    rw [hmem, List.length_append]
    simp only [Parse.move] at hsize
    omega
  · right; right; right
    exact ⟨gap, b :: rest, hmem, hgap, hpos, rfl, hreads⟩

theorem skipWhitespace_ok_iff {q : Parse σ} :
  p.skipWhitespace size = .ok q
    ↔ ∃ gap b rest, p.mem = gap ++ b :: rest ∧ Blank gap ∧ isspace b = false
      ∧ p.pos + gap.length < size ∧ q = p.move gap (b :: rest)
  := by
  constructor
  · intro h
    rcases skipWhitespace_cases size p with hfault | ⟨gap, b, rest, hmem, hgap, hb⟩
    · cases hfault.symm.trans h
    rw [skipWhitespace_eq hgap hb hmem] at h
    split_ifs at h with hend
    · cases h
    · cases h
      exact ⟨gap, b, rest, hmem, hgap, hb, Nat.lt_of_not_le hend, rfl⟩
  · rintro ⟨gap, b, rest, hmem, hgap, hb, hpos, rfl⟩
    rw [skipWhitespace_eq hgap hb hmem, if_neg (Nat.not_le_of_lt hpos)]

theorem skipWhitespace_ok {q : Parse σ} (h : p.skipWhitespace size = .ok q) :
  ∃ gap rest, p.mem = gap ++ rest ∧ Blank gap ∧ p.pos + gap.length < size ∧ q = p.move gap rest
  := by
  obtain ⟨gap, b, rest, hmem, hgap, -, hpos, hq⟩ := skipWhitespace_ok_iff.mp h
  exact ⟨gap, b :: rest, hmem, hgap, hpos, hq⟩

theorem skipWhitespace_left {r : Parsed σ} (h : p.skipWhitespace size = .error (some r)) :
  size < p.pos + p.mem.length ∧ r.state = p.state
  := by
  rcases skipWhitespace_cases size p with hfault | ⟨gap, b, rest, hmem, hgap, hb⟩
  · cases hfault.symm.trans h
  rw [skipWhitespace_eq hgap hb hmem] at h
  split_ifs at h with hend
  cases h
  rw [hmem, List.length_append, List.length_cons]
  exact ⟨by omega, rfl⟩

section Invariant

variable {I : Parse σ → Prop} {R : Parsed σ → Prop}
  (blank : ∀ p gap rest, I p → p.mem = gap ++ rest → Blank gap → p.pos + gap.length < size →
    I (p.move gap rest))
  (comment : ∀ p body rest, I p → p.mem = hash :: (body ++ newline :: rest) → newline ∉ body →
    p.pos < size → I (p.move (hash :: (body ++ [newline])) rest))
  (entry : ∀ p e rest, I p → p.mem = e.text ++ rest → e.WellFormed →
    p.pos + e.head.length < size → e.value.Within size (p.pos + e.head.length) →
    e.value.EndsBefore rest → I (p.afterEntry setOption e rest))

include blank comment entry in
/-- An invariant holds after a turn that does not end the loop. -/
theorem step_invariant {q : Parse σ} (hp : I p) (hstep : p.step setOption size = .ok q) :
  I q
  := by
  rcases step_cases setOption size p with hfault | ⟨r, hleave, -⟩ | ⟨⟨r, hleave, -⟩, -⟩
    | ⟨gap, rest, hmem, hgap, hpos, hskip, ⟨body, tail, hbody, hline, hcomment⟩
      | ⟨e, tail, htext, he, hstart, hwithin, hends, hentry⟩⟩
  · cases hfault.symm.trans hstep
  · cases hleave.symm.trans hstep
  · cases hleave.symm.trans hstep
  · cases hcomment.symm.trans (hskip.symm.trans hstep)
    apply comment _ body tail (blank p gap _ hp hmem hgap hpos) hbody hline hpos
  · have hmoved := blank p gap _ hp hmem hgap hpos
    have hafter := entry _ e tail hmoved htext he hstart hwithin hends
    obtain ⟨gap', rest', hmem', hgap', hpos', rfl⟩ :=
      skipWhitespace_ok (hentry.symm.trans (hskip.symm.trans hstep))
    apply blank _ gap' rest' hafter hmem' hgap' hpos'

include blank entry in
/-- A turn that ends the loop fails, or comes to the end of the file with an invariant. -/
theorem step_ends {r : Parsed σ} (hp : I p) (hstep : p.step setOption size = .error (some r)) :
  r.ret = -1 ∨ ∃ q, I q ∧ size < q.pos + q.mem.length ∧ r.state = q.state
  := by
  rcases step_cases setOption size p with hfault | ⟨r', hleave, hret, -⟩
    | ⟨⟨r', hleave, -, hstate⟩, hsize⟩
    | ⟨gap, rest, hmem, hgap, hpos, hskip, ⟨body, tail, -, -, hcomment⟩
      | ⟨e, tail, htext, he, hstart, hwithin, hends, hentry⟩⟩
  · cases hfault.symm.trans hstep
  · cases hleave.symm.trans hstep
    left
    apply hret
  · cases hleave.symm.trans hstep
    right
    exact ⟨p, hp, hsize, hstate⟩
  · cases hcomment.symm.trans (hskip.symm.trans hstep)
  · have hmoved := blank p gap _ hp hmem hgap hpos
    have hafter := entry _ e tail hmoved htext he hstart hwithin hends
    obtain ⟨hsize, hstate⟩ := skipWhitespace_left (hentry.symm.trans (hskip.symm.trans hstep))
    right
    exact ⟨_, hafter, hsize, hstate⟩

include blank comment entry in
/-- The rule for invariants of a run: what whitespace, comments and entries keep holds when
the run comes to the end of the file. -/
theorem run_invariant (p : Parse σ) :
  I p → ∀ r, (parseLoop setOption size).run p = some r →
    r.ret = -1 ∨ ∃ q, I q ∧ r.state = q.state
      ∧ (size < q.pos + q.mem.length ∨ size = q.pos ∧ q.pos ≤ INT_MAX)
  := by
  apply parse_induction (P := fun p result => I p → ∀ r, result = some r →
    r.ret = -1 ∨ ∃ q, I q ∧ r.state = q.state
      ∧ (size < q.pos + q.mem.length ∨ size = q.pos ∧ q.pos ≤ INT_MAX))
  · intro p hpos hp r hr
    rw [finish] at hr
    split_ifs at hr with hmax
    cases hr
    right
    exact ⟨p, hp, rfl, Or.inr ⟨hpos.symm, Nat.le_of_not_lt hmax⟩⟩
  · rintro p result hpos hstep hp r rfl
    rcases step_ends blank entry hp hstep with hret | ⟨q, hq, hsize, hstate⟩
    · left
      apply hret
    · right
      exact ⟨q, hq, hstate, Or.inl hsize⟩
  · intro p q hpos hstep ih hp
    apply ih (step_invariant blank comment entry hp hstep)

end Invariant

/-- A run that returns 0 comes to the end of the file, which an `int` can reach. -/
theorem size_le_of_run (h : p.InReach) {r : Parsed σ}
    (hr : (parseLoop setOption size).run p = some r) (hret : r.ret = 0) :
  size ≤ INT_MAX
  := by
  have hentry (p : Parse σ) (e : Entry) (rest : Bytes) (hp : p.InReach)
      (hmem : p.mem = e.text ++ rest) (_ : e.WellFormed) (_ : p.pos + e.head.length < size)
      (_ : e.value.Within size (p.pos + e.head.length)) (_ : e.value.EndsBefore rest) :
      (p.afterEntry setOption e rest).InReach := hp.afterEntry hmem
  rcases run_invariant (fun p gap rest hp hmem _ _ => hp.move hmem)
    (fun p body rest hp hmem _ _ => hp.move (by simp [hmem])) hentry p h r hr with
    hfail | ⟨q, hq, -, hend⟩
  · cases hfail.symm.trans hret
  · rw [InReach] at hq
    omega

end Parse

end Trailermatic
