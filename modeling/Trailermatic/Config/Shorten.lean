import Trailermatic.Config.Parser

/-!
# Strings of several parts

The parameter of an option can hold several strings: in quotes, or one a line.  `shorten`
takes them out and puts a delimiter between them.
-/

namespace Trailermatic

/-- `AM_DELIMITER`, the byte that `shorten` puts between two parts. -/
def delimiter : Byte := 178

def isQuote (b : Byte) : Bool :=
  b == doubleQuote || b == singleQuote

/-- The text behind its leading whitespace. -/
def skipSpaces (str : Bytes) : Bytes :=
  str.dropWhile isspace

/-- The first part of a string, in quotes or up to the end of the line, and what comes
after it. -/
def segment : Bytes → Bytes × Bytes
  | [] => ([], [])
  | c :: str =>
    if isQuote c then
      let rest := str.dropWhile fun b => b != c && b != newline
      (str.takeWhile fun b => b != c && b != newline,
        if rest.head? = some c then rest.tail else rest)
    else ((c :: str).takeWhile (· != newline), (c :: str).dropWhile (· != newline))

/-- What is left of the string, and what `tmp` holds. -/
structure Shortening where
  str : Bytes
  tmp : Bytes

/-- Put a part behind what `tmp` holds. -/
def addSegment (tmp part : Bytes) : Bytes :=
  if tmp = [] then part else tmp ++ delimiter :: part

theorem length_skipSpaces_le (str : Bytes) :
  (skipSpaces str).length ≤ str.length
  := (List.dropWhile_sublist _).length_le

theorem segment_shrinks (c : Byte) (str : Bytes) :
  (skipSpaces (segment (c :: str)).2).length < (c :: str).length
  := by
  rw [segment, List.length_cons, Nat.lt_succ_iff]
  split_ifs with hquote
  · apply (length_skipSpaces_le _).trans
    have hrest := (List.dropWhile_sublist (l := str) fun b => b != c && b != newline).length_le
    simp only
    split_ifs
    · rw [List.length_tail]
      omega
    · apply hrest
  · simp only [List.dropWhile_cons]
    split_ifs with hline
    · apply (length_skipSpaces_le _).trans
      apply (List.dropWhile_sublist _).length_le
    · obtain rfl : c = newline := by simpa using hline
      rw [skipSpaces, List.dropWhile_cons_of_pos isspace_newline]
      apply length_skipSpaces_le

/-- The loop of `shorten`: each turn adds one part to the buffer. -/
def shortenLoop : Loop Shortening Bytes where
  turn s :=
    match s.str with
    | [] => .done s.tmp
    | c :: str =>
      let (part, rest) := segment (c :: str)
      .next ⟨skipSpaces rest, addSegment s.tmp part⟩
  size s := s.str.length
  consumes := by
    intro s s' h
    split at h
    · cases h
    · rename_i c str hstr
      cases h
      rw [hstr]
      apply segment_shrinks

/-- The parts of a string, with delimiters between them.  There is no value when the
buffer, of `MAX_PARAM_LEN + 1` bytes, is too small for them and a NUL. -/
def shorten (str : Bytes) : Option (Option Str) :=
  let tmp := shortenLoop.run ⟨skipSpaces str, []⟩
  if MAX_PARAM_LEN < tmp.length then none else some (amStrdup tmp)

/-! ### Reading one part of a string -/

theorem skipSpaces_text {b : Byte} (hb : isspace b = false) (str : Bytes) :
  skipSpaces (b :: str) = b :: str
  := List.dropWhile_cons_of_neg (by simp [hb])

theorem skipSpaces_blank {gap : Bytes} (hgap : Blank gap) (str : Bytes) :
  skipSpaces (gap ++ str) = skipSpaces str
  := List.dropWhile_append_of_pos hgap

theorem segment_line {c : Byte} {line : Bytes} (hc : isQuote c = false)
    (hline : newline ∉ c :: line) (rest : Bytes) :
  segment (c :: line ++ newline :: rest) = (c :: line, newline :: rest)
  := by
  have hall : ∀ b ∈ c :: line, (b != newline) = true := by
    intro b hb
    rw [bne_iff_ne]
    rintro rfl
    apply hline hb
  rw [List.cons_append, segment, if_neg (by simp [hc]), ← List.cons_append,
    List.takeWhile_append_of_pos hall, List.dropWhile_append_of_pos hall]
  simp

theorem segment_quoted {c : Byte} {part : Bytes} (hc : isQuote c = true)
    (hpart : c ∉ part) (hline : newline ∉ part) (rest : Bytes) :
  segment (c :: (part ++ c :: rest)) = (part, rest)
  := by
  have hall : ∀ b ∈ part, (b != c && b != newline) = true := by
    intro b hb
    rw [Bool.and_eq_true, bne_iff_ne, bne_iff_ne]
    constructor
    · rintro rfl
      apply hpart hb
    · rintro rfl
      apply hline hb
  rw [segment, if_pos hc, List.takeWhile_append_of_pos hall, List.dropWhile_append_of_pos hall]
  simp

/-- A part that neither a quote nor a newline ends is the rest of the string. -/
theorem segment_rest {c : Byte} {str : Bytes} (hquote : isQuote c = true → c ∉ str)
    (hline : newline ∉ c :: str) :
  segment (c :: str) = (if isQuote c then str else c :: str, [])
  := by
  have hall : ∀ b ∈ c :: str, (b != newline) = true := by
    intro b hb
    rw [bne_iff_ne]
    rintro rfl
    apply hline hb
  rw [segment]
  split_ifs with hc
  · have hpart : ∀ b ∈ str, (b != c && b != newline) = true := by
      intro b hb
      rw [Bool.and_eq_true, bne_iff_ne]
      refine ⟨?_, hall b (List.mem_cons_of_mem c hb)⟩
      rintro rfl
      apply hquote hc hb
    rw [List.takeWhile_eq_self_iff.mpr hpart, List.dropWhile_eq_nil_iff.mpr hpart]
    rfl
  · rw [List.takeWhile_eq_self_iff.mpr hall, List.dropWhile_eq_nil_iff.mpr hall]

/-- The loop over a string takes its first part. -/
theorem shortenLoop_segment {c : Byte} {str part rest : Bytes} (tmp : Bytes)
    (h : segment (c :: str) = (part, rest)) :
  shortenLoop.run ⟨c :: str, tmp⟩ = shortenLoop.run ⟨skipSpaces rest, addSegment tmp part⟩
  := by
  apply Loop.run_next
  simp only [shortenLoop, h]

theorem shortenLoop_nil (tmp : Bytes) :
  shortenLoop.run ⟨[], tmp⟩ = tmp
  := shortenLoop.run_done rfl

/-- What holds at the end of the string, and in front of a segment if it does behind it, holds
of every run. -/
theorem shortenLoop_induction {P : Shortening → Bytes → Prop} (done : ∀ tmp, P ⟨[], tmp⟩ tmp)
    (next : ∀ c str tmp s',
      s' = ⟨skipSpaces (segment (c :: str)).2, addSegment tmp (segment (c :: str)).1⟩ →
      P s' (shortenLoop.run s') → P ⟨c :: str, tmp⟩ (shortenLoop.run s'))
    (s : Shortening) :
  P s (shortenLoop.run s)
  := by
  apply shortenLoop.run_induction
  · intro s tmp hturn
    obtain ⟨str, tmp'⟩ := s
    cases str with
    | nil =>
      cases hturn
      apply done
    | cons c str => cases hturn
  · intro s s' hturn ih
    obtain ⟨str, tmp⟩ := s
    cases str with
    | nil => cases hturn
    | cons c str =>
      cases hturn
      apply next c str tmp _ rfl ih

/-- The loop takes a line and the whitespace after it. -/
theorem shortenLoop_line {c : Byte} {line gap : Bytes} (hc : isQuote c = false)
    (hline : newline ∉ c :: line) (hgap : Blank gap) (rest tmp : Bytes) :
  shortenLoop.run ⟨c :: line ++ newline :: (gap ++ rest), tmp⟩
    = shortenLoop.run ⟨skipSpaces rest, addSegment tmp (c :: line)⟩
  := by
  have hblank : Blank (newline :: gap) := by
    intro b hb
    rcases List.mem_cons.mp hb with rfl | hb
    · rfl
    · apply hgap b hb
  have hsegment := segment_line hc hline (gap ++ rest)
  rw [List.cons_append] at hsegment ⊢
  rw [shortenLoop_segment tmp hsegment, ← List.cons_append, skipSpaces_blank hblank]

theorem shorten_eq {str tmp : Bytes} {u : Str} (h : shortenLoop.run ⟨skipSpaces str, []⟩ = tmp)
    (hu : u.bytes = tmp) (hlength : tmp.length ≤ MAX_PARAM_LEN) :
  shorten str = some (some u)
  := by
  rw [shorten, h, if_neg (Nat.not_lt_of_le hlength), amStrdup, ← hu, Str.ofBytes_bytes]

/-! ### The bytes of the parts -/

theorem mem_of_mem_segment {b : Byte} {str : Bytes}
    (h : b ∈ (segment str).1 ∨ b ∈ (segment str).2) :
  b ∈ str
  := by
  cases str with
  | nil =>
    rcases h with h | h
    · cases h
    · cases h
  | cons c str =>
    rw [segment] at h
    split_ifs at h with hquote
    · apply List.mem_cons_of_mem
      rcases h with h | h
      · apply (List.takeWhile_sublist _).subset h
      · apply (List.dropWhile_sublist _).subset
        simp only at h
        split_ifs at h
        · apply List.mem_of_mem_tail h
        · apply h
    · rcases h with h | h
      · apply (List.takeWhile_sublist _).subset h
      · apply (List.dropWhile_sublist _).subset h

theorem mem_of_mem_addSegment {b : Byte} {tmp part : Bytes} (h : b ∈ addSegment tmp part) :
  b ∈ part ∨ b ∈ tmp ∨ b = delimiter
  := by
  rw [addSegment] at h
  split_ifs at h
  · left
    apply h
  · rcases List.mem_append.mp h with h | h
    · right; left
      apply h
    · rcases List.mem_cons.mp h with h | h
      · right; right
        apply h
      · left
        apply h

/-- The loop over a string gives bytes of the string, and delimiters. -/
theorem mem_shortenLoop {b : Byte} (s : Shortening) :
  b ∈ shortenLoop.run s → b ∈ s.str ∨ b ∈ s.tmp ∨ b = delimiter
  := by
  apply shortenLoop_induction
    (P := fun s tmp => b ∈ tmp → b ∈ s.str ∨ b ∈ s.tmp ∨ b = delimiter)
  · intro tmp hb
    right; left
    apply hb
  · rintro c str tmp _ rfl ih hb
    rcases ih hb with h | h | h
    · left
      apply mem_of_mem_segment
      right
      apply (List.dropWhile_sublist _).subset h
    · apply (mem_of_mem_addSegment h).imp_left
      intro hpart
      apply mem_of_mem_segment (Or.inl hpart)
    · right; right
      apply h

theorem bytes_of_amStrdup {s : Bytes} {u : Str} (h : amStrdup s = some u) :
  u.bytes = cstr s
  := Str.ofBytes_eq_some_iff.mp h

theorem mem_of_mem_shorten {b : Byte} {str : Bytes} {u : Str}
    (h : shorten str = some (some u)) (hb : b ∈ u.bytes) :
  b ∈ str ∨ b = delimiter
  := by
  rw [shorten] at h
  split_ifs at h
  rw [bytes_of_amStrdup (Option.some.inj h)] at hb
  rcases mem_shortenLoop _ ((cstr_initial _).subset hb) with h | h | h
  · left
    apply (List.dropWhile_sublist _).subset h
  · cases h
  · right
    apply h

/-! ### Strings of one part -/

/-- A parameter of only one part: between its parts there would be delimiters. -/
def SinglePart (param : Bytes) : Prop :=
  delimiter ∉ shortenLoop.run ⟨skipSpaces param, []⟩

/-- A parameter in one line has one part, unless it begins with a quote and holds that
quote again. -/
theorem singlePart_of {param : Bytes} (hline : newline ∉ param) (hdelimiter : delimiter ∉ param)
    (hquote : ∀ c rest, skipSpaces param = c :: rest → isQuote c = true → c ∉ rest) :
  SinglePart param
  := by
  have hsub {b : Byte} (hb : b ∈ skipSpaces param) : b ∈ param :=
    (List.dropWhile_sublist _).subset hb
  rw [SinglePart]
  cases hskip : skipSpaces param with
  | nil =>
    rw [shortenLoop_nil]
    apply List.not_mem_nil
  | cons c rest =>
    rw [hskip] at hsub
    have hrest := segment_rest (hquote c rest hskip) fun h => hline (hsub h)
    rw [shortenLoop_segment [] hrest, show skipSpaces [] = [] from rfl, shortenLoop_nil,
      addSegment, if_pos rfl]
    intro hmem
    apply hdelimiter (hsub _)
    split_ifs at hmem
    · apply List.mem_cons_of_mem c hmem
    · apply hmem

end Trailermatic
