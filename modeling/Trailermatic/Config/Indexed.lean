import Trailermatic.Config.Segments
import Trailermatic.Library.While

/-!
# The loops of `shorten`

`shorten` goes through a string with an index that is a `uint32_t`, tests bytes of the
string before it tests the index, and counts the bytes that it stores with an `int`.  Here
its loops are followed turn by turn.  They do what `shortenLoop` does with what is left of
the string, as `ends_shorten` says, and `shorten_within` draws the conclusion: the loops
end, within the string and within the buffer.
-/

namespace Trailermatic

/-! ### The turns -/

/-- Which loop is next: over whitespace, over the segments, or over the bytes of a segment
in quotes or of one that is not. -/
inductive ShortenPhase where
  | spaces
  | segments
  | quoted (c : Byte)
  | line
deriving DecidableEq

/-- The loop that is next, the index, and what has been stored in `tmp`. -/
structure ShortenState where
  phase : ShortenPhase
  linePos : UInt32
  tmp : Bytes

def ShortenState.start : ShortenState :=
  ⟨.spaces, 0, []⟩

/-- The byte of the string at an index; there is one up to the NUL. -/
def readAt (str : Bytes) (linePos : UInt32) : Option Byte :=
  (str ++ [0])[linePos.toNat]?

/-- Store a byte in `tmp`, if the `int` that counts them can be increased. -/
def storeByte (tmp : Bytes) (b : Byte) : Option Bytes :=
  if tmp.length < INT_MAX then some (tmp ++ [b]) else none

/-- Store the delimiter in front of every segment but the first. -/
def storeDelimiter (tmp : Bytes) : Option Bytes :=
  if tmp ≠ [] then storeByte tmp delimiter else some tmp

/-- A turn of the loop that is next. -/
def shortenStep (str : Bytes) (s : ShortenState) : Option (Turn ShortenState Bytes) :=
  let len := UInt32.ofNat str.length
  match s.phase with
  | .spaces => do
    let b ← readAt str s.linePos
    if isspace b then return .next { s with linePos := s.linePos + 1 }
    else return .next { s with phase := .segments }
  | .segments =>
    if s.linePos < len then do
      let tmp ← storeDelimiter s.tmp
      let c ← readAt str s.linePos
      if isQuote c then return .next ⟨.quoted c, s.linePos + 1, tmp⟩
      else return .next ⟨.line, s.linePos, tmp⟩
    else some (.done s.tmp)
  | .quoted c => do
    let b ← readAt str s.linePos
    if b ≠ c ∧ s.linePos < len ∧ b ≠ newline ∧ b ≠ 0 then do
      let tmp ← storeByte s.tmp b
      return .next ⟨.quoted c, s.linePos + 1, tmp⟩
    else if b = c then return .next ⟨.spaces, s.linePos + 1, s.tmp⟩
    else return .next { s with phase := .spaces }
  | .line =>
    if s.linePos < len then do
      let b ← readAt str s.linePos
      if b ≠ newline ∧ b ≠ 0 then do
        let tmp ← storeByte s.tmp b
        return .next ⟨.line, s.linePos + 1, tmp⟩
      else return .next { s with phase := .spaces }
    else some (.next { s with phase := .spaces })

/-- The loops together.  They end without a value at a byte that is read beyond the string,
and when the count of stored bytes overflows. -/
def shortenTurn (str : Bytes) (s : ShortenState) : Turn ShortenState (Option Bytes) :=
  match shortenStep str s with
  | none => .done none
  | some (.done tmp) => .done (some tmp)
  | some (.next s') => .next s'

theorem shortenTurn_done {str tmp : Bytes} {s : ShortenState}
    (h : shortenStep str s = some (.done tmp)) :
  shortenTurn str s = .done (some tmp)
  := by rw [shortenTurn, h]

theorem shortenTurn_next {str : Bytes} {s s' : ShortenState}
    (h : shortenStep str s = some (.next s')) :
  shortenTurn str s = .next s'
  := by rw [shortenTurn, h]

/-! ### The index and what is left of the string -/

/-- The index of the first byte of `rest`, which is what is left of the string. -/
def position (str rest : Bytes) : UInt32 :=
  UInt32.ofNat (str.length - rest.length)

section Position

variable {str rest : Bytes} {b : Byte}

theorem toNat_position (hlength : str.length < UInt32.size) :
  (position str rest).toNat = str.length - rest.length
  := UInt32.toNat_ofNat_of_lt' (Nat.lt_of_le_of_lt (Nat.sub_le _ _) hlength)

theorem position_lt_iff (hrest : rest <:+ str) (hlength : str.length < UInt32.size) :
  position str rest < UInt32.ofNat str.length ↔ rest ≠ []
  := by
  have hle := hrest.length_le
  rw [UInt32.lt_iff_toNat_lt, toNat_position hlength, UInt32.toNat_ofNat_of_lt' hlength,
    ← List.length_pos_iff]
  omega

theorem position_succ (hrest : b :: rest <:+ str) :
  position str (b :: rest) + 1 = position str rest
  := by
  have hle := hrest.length_le
  rw [List.length_cons] at hle
  rw [position, position, List.length_cons, ← UInt32.ofNat_one, ← UInt32.ofNat_add]
  congr 1
  omega

/-- No byte beyond the string is read. -/
theorem readAt_position (hrest : rest <:+ str) (hlength : str.length < UInt32.size) :
  readAt str (position str rest) = some (rest.headD 0)
  := by
  obtain ⟨before, rfl⟩ := hrest
  rw [readAt, toNat_position hlength, List.length_append, Nat.add_sub_cancel, List.append_assoc,
    List.getElem?_append_right (Nat.le_refl _), Nat.sub_self]
  cases rest with
  | nil => rfl
  | cons b rest => rfl

end Position

/-! ### Each loop -/

section Loops

variable {str rest tmp : Bytes} {result : Option Bytes}

/-- What is left of the string has no NUL, and it gets shorter byte by byte. -/
theorem suffix_of_cons {b : Byte} (hrest : b :: rest <:+ str) :
  rest <:+ str
  := (List.suffix_cons b rest).trans hrest

theorem spaces_ends (hlength : str.length < UInt32.size) (hrest : rest <:+ str)
    (h : While.Ends (shortenTurn str) ⟨.segments, position str (skipSpaces rest), tmp⟩ result) :
  While.Ends (shortenTurn str) ⟨.spaces, position str rest, tmp⟩ result
  := by
  induction rest with
  | nil =>
    apply While.Ends.next _ h
    apply shortenTurn_next
    simp [shortenStep, readAt_position hrest hlength, skipSpaces, isspace]
  | cons b rest ih =>
    rw [skipSpaces, List.dropWhile_cons] at h
    split_ifs at h with hb
    · apply While.Ends.next _ (ih (suffix_of_cons hrest) h)
      apply shortenTurn_next
      simp [shortenStep, readAt_position hrest hlength, hb, position_succ hrest]
    · apply While.Ends.next _ h
      apply shortenTurn_next
      simp [shortenStep, readAt_position hrest hlength, hb]

theorem line_ends (hnul : (0 : Byte) ∉ str) (hlength : str.length < UInt32.size)
    (hrest : rest <:+ str) (hroom : tmp.length + (rest.takeWhile (· != newline)).length ≤ INT_MAX)
    (h : While.Ends (shortenTurn str) ⟨.spaces, position str (rest.dropWhile (· != newline)),
      tmp ++ rest.takeWhile (· != newline)⟩ result) :
  While.Ends (shortenTurn str) ⟨.line, position str rest, tmp⟩ result
  := by
  induction rest generalizing tmp with
  | nil =>
    rw [List.takeWhile_nil, List.append_nil] at h
    apply While.Ends.next _ h
    apply shortenTurn_next
    simp [shortenStep, position_lt_iff hrest hlength]
  | cons b rest ih =>
    have hlt : position str (b :: rest) < UInt32.ofNat str.length :=
      (position_lt_iff hrest hlength).mpr (List.cons_ne_nil b rest)
    have hb : b ≠ 0 := by
      rintro rfl
      apply hnul (hrest.subset List.mem_cons_self)
    rw [List.takeWhile_cons] at h hroom
    rw [List.dropWhile_cons] at h
    split_ifs at h hroom with hline
    · rw [List.length_cons] at hroom
      have hstore : storeByte tmp b = some (tmp ++ [b]) := if_pos (by omega)
      rw [List.append_cons] at h
      apply While.Ends.next _ (ih (suffix_of_cons hrest) _ h)
      · apply shortenTurn_next
        simp [shortenStep, hlt, readAt_position hrest hlength, bne_iff_ne.mp hline, hb, hstore,
          position_succ hrest]
      · rw [List.length_append, List.length_singleton]
        omega
    · rw [List.append_nil] at h
      obtain rfl : b = newline := by simpa using hline
      apply While.Ends.next _ h
      apply shortenTurn_next
      simp [shortenStep, hlt, readAt_position hrest hlength]

theorem quoted_ends {c : Byte} (hc : c ≠ 0) (hnul : (0 : Byte) ∉ str)
    (hlength : str.length < UInt32.size) (hrest : rest <:+ str)
    (hroom : tmp.length + (rest.takeWhile fun b => b != c && b != newline).length ≤ INT_MAX)
    (h : While.Ends (shortenTurn str) ⟨.spaces, position str
        (if (rest.dropWhile fun b => b != c && b != newline).head? = some c
          then (rest.dropWhile fun b => b != c && b != newline).tail
          else rest.dropWhile fun b => b != c && b != newline),
      tmp ++ rest.takeWhile fun b => b != c && b != newline⟩ result) :
  While.Ends (shortenTurn str) ⟨.quoted c, position str rest, tmp⟩ result
  := by
  induction rest generalizing tmp with
  | nil =>
    rw [List.takeWhile_nil, List.append_nil] at h
    apply While.Ends.next _ h
    apply shortenTurn_next
    simp [shortenStep, readAt_position hrest hlength, hc.symm]
  | cons b rest ih =>
    have hlt : position str (b :: rest) < UInt32.ofNat str.length :=
      (position_lt_iff hrest hlength).mpr (List.cons_ne_nil b rest)
    have hb : b ≠ 0 := by
      rintro rfl
      apply hnul (hrest.subset List.mem_cons_self)
    by_cases hpart : (b != c && b != newline) = true
    · rw [List.takeWhile_cons, if_pos hpart, List.length_cons] at hroom
      rw [List.takeWhile_cons, if_pos hpart, List.dropWhile_cons, if_pos hpart,
        List.append_cons] at h
      have hstore : storeByte tmp b = some (tmp ++ [b]) := if_pos (by omega)
      rw [Bool.and_eq_true, bne_iff_ne, bne_iff_ne] at hpart
      apply While.Ends.next _ (ih (suffix_of_cons hrest) _ h)
      · apply shortenTurn_next
        simp [shortenStep, hlt, readAt_position hrest hlength, hpart, hb, hstore,
          position_succ hrest]
      · rw [List.length_append, List.length_singleton]
        omega
    · rw [List.takeWhile_cons, if_neg hpart, List.dropWhile_cons, if_neg hpart,
        List.append_nil] at h
      by_cases hquote : b = c
      · subst hquote
        rw [List.head?_cons, if_pos rfl] at h
        apply While.Ends.next _ h
        apply shortenTurn_next
        simp [shortenStep, readAt_position hrest hlength, position_succ hrest]
      · obtain rfl : b = newline := by simpa [hquote] using hpart
        rw [if_neg (by simpa using hquote)] at h
        apply While.Ends.next _ h
        apply shortenTurn_next
        simp [shortenStep, readAt_position hrest hlength, hquote]

end Loops

/-! ### The whole string -/

/-- What has been stored stays. -/
theorem length_tmp_le (s : Shortening) :
  s.tmp.length ≤ (shortenLoop.run s).length
  := by
  apply shortenLoop_induction (P := fun s tmp => s.tmp.length ≤ tmp.length)
  · intro tmp
    apply Nat.le_refl
  · rintro c str tmp _ rfl ih
    simp only [length_addSegment] at ih ⊢
    omega

theorem suffix_segment (str : Bytes) :
  (segment str).2 <:+ str
  := by
  cases str with
  | nil => apply List.suffix_refl
  | cons c str =>
    rw [segment]
    split_ifs
    · apply List.IsSuffix.trans _ (List.suffix_cons c str)
      have hrest := List.dropWhile_suffix (l := str) fun b => b != c && b != newline
      simp only
      split_ifs
      · apply (List.tail_suffix _).trans hrest
      · apply hrest
    · apply List.dropWhile_suffix

theorem nul_not_isQuote {c : Byte} (h : isQuote c = true) :
  c ≠ 0
  := by
  rintro rfl
  cases h

theorem exists_storeDelimiter {tmp part : Bytes} (h : (addSegment tmp part).length ≤ INT_MAX) :
  ∃ before, storeDelimiter tmp = some before ∧ addSegment tmp part = before ++ part
  := by
  rw [length_addSegment] at h
  by_cases hempty : tmp = []
  · subst hempty
    exact ⟨[], rfl, rfl⟩
  · rw [if_neg hempty] at h
    use tmp ++ [delimiter]
    rw [storeDelimiter, if_pos hempty, storeByte, if_pos (by omega), addSegment, if_neg hempty]
    exact ⟨rfl, List.append_cons tmp delimiter part⟩

/-- The loops store the next segment, and are at the whitespace behind it. -/
theorem segment_ends {str rest tmp before : Bytes} {c : Byte} {result : Option Bytes}
    (hnul : (0 : Byte) ∉ str) (hlength : str.length < UInt32.size) (hrest : c :: rest <:+ str)
    (hdelimiter : storeDelimiter tmp = some before)
    (hroom : before.length + (segment (c :: rest)).1.length ≤ INT_MAX)
    (h : While.Ends (shortenTurn str)
      ⟨.spaces, position str (segment (c :: rest)).2, before ++ (segment (c :: rest)).1⟩ result) :
  While.Ends (shortenTurn str) ⟨.segments, position str (c :: rest), tmp⟩ result
  := by
  have hlt : position str (c :: rest) < UInt32.ofNat str.length :=
    (position_lt_iff hrest hlength).mpr (List.cons_ne_nil c rest)
  cases hquote : isQuote c with
  | true =>
    have hturn : shortenTurn str ⟨.segments, position str (c :: rest), tmp⟩
        = .next ⟨.quoted c, position str rest, before⟩ := by
      apply shortenTurn_next
      simp [shortenStep, hlt, hdelimiter, readAt_position hrest hlength, hquote,
        position_succ hrest]
    simp only [segment, hquote, if_true] at h hroom
    apply While.Ends.next hturn
    apply quoted_ends (nul_not_isQuote hquote) hnul hlength (suffix_of_cons hrest) hroom h
  | false =>
    have hturn : shortenTurn str ⟨.segments, position str (c :: rest), tmp⟩
        = .next ⟨.line, position str (c :: rest), before⟩ := by
      apply shortenTurn_next
      simp [shortenStep, hlt, hdelimiter, readAt_position hrest hlength, hquote]
    simp only [segment, hquote, Bool.false_eq_true, if_false] at h hroom
    apply While.Ends.next hturn
    apply line_ends hnul hlength hrest hroom h

/-- The loops do with the index what `shortenLoop` does with what is left of the string. -/
theorem segments_ends {str : Bytes} (hnul : (0 : Byte) ∉ str) (hlength : str.length < UInt32.size)
    (s : Shortening) :
  s.str <:+ str → (shortenLoop.run s).length ≤ INT_MAX →
    While.Ends (shortenTurn str) ⟨.segments, position str s.str, s.tmp⟩ (some (shortenLoop.run s))
  := by
  apply shortenLoop_induction (P := fun s tmp => s.str <:+ str → tmp.length ≤ INT_MAX →
    While.Ends (shortenTurn str) ⟨.segments, position str s.str, s.tmp⟩ (some tmp))
  · intro tmp hrest _
    apply While.Ends.done
    apply shortenTurn_done
    simp [shortenStep, position_lt_iff hrest hlength]
  · intro c rest tmp s' hs' ih hrest hbound
    have hstored : s'.tmp.length ≤ INT_MAX := (length_tmp_le s').trans hbound
    subst hs'
    have hleft : (segment (c :: rest)).2 <:+ str := (suffix_segment _).trans hrest
    have hends := spaces_ends hlength hleft (ih ((List.dropWhile_suffix _).trans hleft) hbound)
    obtain ⟨before, hdelimiter, hadd⟩ := exists_storeDelimiter hstored
    simp only [hadd, List.length_append] at hends hstored
    apply segment_ends hnul hlength hrest hdelimiter hstored
    simpa only [hadd] using hends

theorem length_shorten_le (str : Bytes) :
  (shortenLoop.run ⟨skipSpaces str, []⟩).length ≤ str.length
  := by
  rw [shortenLoop_eq]
  apply length_joined_le

theorem position_self (str : Bytes) :
  position str str = 0
  := by
  rw [position, Nat.sub_self]
  rfl

/-- On a string whose length is an `int` the loops end, with what `shortenLoop` gives. -/
theorem ends_shorten {str : Bytes} (hnul : (0 : Byte) ∉ str) (hlength : str.length ≤ INT_MAX) :
  While.Ends (shortenTurn str) .start (some (shortenLoop.run ⟨skipSpaces str, []⟩))
  := by
  have hsize : str.length < UInt32.size := Nat.lt_of_le_of_lt hlength (by decide)
  have hbound : (shortenLoop.run ⟨skipSpaces str, []⟩).length ≤ INT_MAX :=
    (length_shorten_le str).trans hlength
  have hends := segments_ends hnul hsize ⟨skipSpaces str, []⟩ (List.dropWhile_suffix _) hbound
  have hspaces := spaces_ends hsize (List.suffix_refl str) hends
  rw [position_self] at hspaces
  apply hspaces

/-- On a string whose length is an `int` the loops end.  No byte beyond the NUL is read, and
no more bytes are stored than the string has, delimiters included; so the bytes stored for
a parameter of at most `MAX_PARAM_LEN` bytes fit into the buffer, with a NUL behind them. -/
theorem shorten_within {str : Bytes} (hnul : (0 : Byte) ∉ str) (hlength : str.length ≤ INT_MAX) :
  ∃ tmp, While.Ends (shortenTurn str) .start (some tmp) ∧ tmp.length ≤ str.length
    ∧ (str.length ≤ MAX_PARAM_LEN → tmp.length ≤ MAX_PARAM_LEN)
  := by
  have hle := length_shorten_le str
  exact ⟨_, ends_shorten hnul hlength, hle, hle.trans⟩

/-- Quotes that are empty, and one that nothing ends. -/
theorem shorten_within_quotes :
  ∃ tmp, While.Ends (shortenTurn (text " ''\"\"a\n'b")) .start (some tmp)
    ∧ tmp.length ≤ (text " ''\"\"a\n'b").length
    ∧ ((text " ''\"\"a\n'b").length ≤ MAX_PARAM_LEN → tmp.length ≤ MAX_PARAM_LEN)
  := shorten_within (by decide) (by decide)

/-! ### Strings that are too long -/

section Long

variable {str : Bytes}

theorem exists_readAt {linePos : UInt32} (h : linePos.toNat < str.length) :
  ∃ b ∈ str, readAt str linePos = some b
  := by
  refine ⟨str[linePos.toNat], List.getElem_mem h, ?_⟩
  rw [readAt, List.getElem?_append_left h, List.getElem?_eq_getElem h]

/-- In a string of whitespace with no index too large for it, the index starts again. -/
theorem not_ends_of_blank (hblank : Blank str) (hlength : UInt32.size ≤ str.length)
    (result : Option Bytes) :
  ¬ While.Ends (shortenTurn str) .start result
  := by
  have hturn (s : ShortenState) (hs : s.phase = .spaces) :
      shortenTurn str s = .next { s with linePos := s.linePos + 1 } := by
    obtain ⟨b, hb, hread⟩ := exists_readAt (Nat.lt_of_lt_of_le s.linePos.toNat_lt_size hlength)
    apply shortenTurn_next
    simp [shortenStep, hs, hread, hblank b hb]
  intro hends
  obtain ⟨s, hs, hdone⟩ := hends.invariant (I := fun s => s.phase = .spaces) rfl (by
    intro s s' hs hnext
    rw [hturn s hs] at hnext
    cases hnext
    apply hs)
  rw [hturn s hs] at hdone
  cases hdone

/-- The states of the loops over a string that is one line. -/
inductive Storing : ShortenState → Prop where
  | spaces : Storing .start
  | segments : Storing ⟨.segments, 0, []⟩
  | line (linePos : UInt32) (tmp : Bytes) (stored : linePos.toNat = tmp.length)
      (room : tmp.length ≤ INT_MAX) : Storing ⟨.line, linePos, tmp⟩

theorem Storing.turn (hline : ∀ b ∈ str, isspace b = false ∧ isQuote b = false ∧ b ≠ 0)
    (hlength : INT_MAX < str.length) (hsize : str.length < UInt32.size) {s : ShortenState}
    (h : Storing s) :
  shortenTurn str s = .done none ∨ ∃ s', Storing s' ∧ shortenTurn str s = .next s'
  := by
  have hlt (linePos : UInt32) (hle : linePos.toNat ≤ INT_MAX) :
      linePos < UInt32.ofNat str.length ∧ ∃ b, readAt str linePos = some b
        ∧ isspace b = false ∧ isQuote b = false ∧ b ≠ 0 := by
    obtain ⟨b, hb, hread⟩ := exists_readAt (Nat.lt_of_le_of_lt hle hlength)
    refine ⟨?_, b, hread, hline b hb⟩
    rw [UInt32.lt_iff_toNat_lt, UInt32.toNat_ofNat_of_lt' hsize]
    omega
  cases h with
  | spaces =>
    obtain ⟨-, b, hread, hspace, -⟩ := hlt 0 (Nat.zero_le _)
    right
    refine ⟨_, .segments, ?_⟩
    apply shortenTurn_next
    simp [shortenStep, ShortenState.start, hread, hspace]
  | segments =>
    obtain ⟨hpos, b, hread, -, hquote, -⟩ := hlt 0 (Nat.zero_le _)
    right
    refine ⟨_, .line 0 [] rfl (Nat.zero_le _), ?_⟩
    apply shortenTurn_next
    simp [shortenStep, hpos, hread, hquote, storeDelimiter]
  | line linePos tmp hstored hroom =>
    obtain ⟨hpos, b, hread, hspace, -, hnul⟩ := hlt linePos (hstored.trans_le hroom)
    have hnewline : b ≠ newline := by
      rintro rfl
      cases hspace
    by_cases hlast : tmp.length < INT_MAX
    · right
      refine ⟨_, .line (linePos + 1) (tmp ++ [b]) ?_ ?_, ?_⟩
      · rw [UInt32.toNat_add, hstored, List.length_append, List.length_singleton]
        apply Nat.mod_eq_of_lt
        apply Nat.lt_of_le_of_lt (Nat.succ_le_of_lt hlast)
        decide
      · rw [List.length_append, List.length_singleton]
        omega
      · apply shortenTurn_next
        simp [shortenStep, hpos, hread, hnewline, hnul, storeByte, hlast]
    · left
      simp [shortenTurn, shortenStep, hpos, hread, hnewline, hnul, storeByte, hlast]

theorem not_ends_of_line (hline : ∀ b ∈ str, isspace b = false ∧ isQuote b = false ∧ b ≠ 0)
    (hlength : INT_MAX < str.length) (hsize : str.length < UInt32.size) (tmp : Bytes) :
  ¬ While.Ends (shortenTurn str) .start (some tmp)
  := by
  intro hends
  obtain ⟨s, hs, hdone⟩ := hends.invariant Storing.spaces (by
    intro s s' hs hnext
    rcases hs.turn hline hlength hsize with hfault | ⟨s'', hs'', hturn⟩
    · rw [hfault] at hnext
      cases hnext
    · rw [hturn] at hnext
      cases hnext
      apply hs'')
  rcases hs.turn hline hlength hsize with hfault | ⟨s', -, hturn⟩
  · rw [hfault] at hdone
    cases hdone
  · rw [hturn] at hdone
    cases hdone

end Long

/-- Over `2 ^ 32` blanks the loops never end, and the bytes of a line of `2 ^ 31` letters are
too many for the `int` that counts them. -/
theorem shorten_not_within :
  (∀ result, ¬ While.Ends (shortenTurn (List.replicate 4294967296 32)) .start result)
    ∧ ∀ tmp, ¬ While.Ends (shortenTurn (List.replicate 2147483648 97)) .start (some tmp)
  := by
  constructor
  · apply not_ends_of_blank
    · intro b hb
      rw [List.eq_of_mem_replicate hb]
      rfl
    · rw [List.length_replicate, UInt32.size]
  · apply not_ends_of_line
    · intro b hb
      rw [List.eq_of_mem_replicate hb]
      decide
    · rw [List.length_replicate]
      decide
    · rw [List.length_replicate]
      decide

end Trailermatic
