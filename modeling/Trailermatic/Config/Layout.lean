import Trailermatic.Config.Turns

/-!
# Well-formed configuration files

`Layout es content` says that `content` is a file with the entries `es`, with whitespace and
comments before, between and after them.  `parse_layout` says that the parser calls
`setOption` once for each of the entries, in their order.
-/

namespace Trailermatic

/-- Whitespace and comments. -/
inductive Filler : Bytes → Prop where
  | blank (gap : Bytes) (gap_blank : Blank gap) :
    Filler gap
  | comment (gap body rest : Bytes) (gap_blank : Blank gap) (line : newline ∉ body)
      (more : Filler rest) :
    Filler (gap ++ hash :: (body ++ newline :: rest))

namespace Value

/-- A value that is not missing and that is a C string. -/
structure Proper (v : Value) : Prop where
  nul : (0 : Byte) ∉ v.param
  text : v.text ≠ []

/-- A value without quotes or braces stands before whitespace, before a comment, or at the
end of the file. -/
def Separated (rest : Bytes) : Value → Prop
  | bare _ => ∀ b ∈ rest.head?, isspace b = true ∨ b = hash
  | _ => True

end Value

/-- Files with entries. -/
inductive Layout : List Entry → Bytes → Prop where
  | nil (filler : Bytes) (filled : Filler filler) :
    Layout [] filler
  | cons (filler : Bytes) (e : Entry) (es : List Entry) (rest : Bytes) (filled : Filler filler)
      (wellFormed : e.WellFormed) (proper : e.value.Proper) (separated : e.value.Separated rest)
      (more : Layout es rest) :
    Layout (e :: es) (filler ++ (e.text ++ rest))

theorem isParamChar_separator {b : Byte} (h : isspace b = true ∨ b = hash) :
  isParamChar b = false
  := by
  grind [isParamChar]

/-- What is separated ends before what comes after it, and at the end of the file before the
NUL behind it. -/
theorem Value.Separated.endsBefore {v : Value} {rest : Bytes} (h : v.Separated rest)
    (hv : v.Proper) (beyond : Bytes) :
  v.EndsBefore (rest ++ 0 :: beyond)
  := by
  cases v with
  | quoted quote param => trivial
  | braced param => trivial
  | bare param =>
    cases rest with
    | nil => exact ⟨0, beyond, rfl, rfl, fun hparam => absurd hparam hv.text⟩
    | cons b rest =>
      refine ⟨b, rest ++ 0 :: beyond, rfl, isParamChar_separator (h b rfl), ?_⟩
      intro hparam
      apply absurd hparam hv.text

/-- The whitespace in front of the first text of a memory that ends with a NUL. -/
theorem exists_gap (m beyond : Bytes) :
  ∃ gap b tail, m ++ 0 :: beyond = gap ++ b :: tail ∧ Blank gap ∧ isspace b = false
    ∧ gap.length ≤ m.length
  := by
  induction m with
  | nil => exact ⟨[], 0, beyond, rfl, fun _ h => absurd h List.not_mem_nil, rfl, Nat.le_refl _⟩
  | cons c m ih =>
    cases hc : isspace c with
    | false =>
      exact ⟨[], c, m ++ 0 :: beyond, rfl, fun _ h => absurd h List.not_mem_nil, hc,
        Nat.zero_le _⟩
    | true =>
      obtain ⟨gap, b, tail, hmem, hgap, hb, hlength⟩ := ih
      refine ⟨c :: gap, b, tail, congrArg (c :: ·) hmem, ?_, hb, Nat.succ_le_succ hlength⟩
      intro d hd
      rcases List.mem_cons.mp hd with rfl | hd
      · apply hc
      · apply hgap d hd

namespace Parse

variable {σ : Type} {setOption : σ → Bytes → Bytes → OptionType → σ} {size : ℕ} {p : Parse σ}

theorem move_move (p : Parse σ) (taken taken' rest rest' : Bytes) :
  (p.move taken rest).move taken' rest' = p.move (taken ++ taken') rest'
  := by
  simp only [move, List.length_append, Nat.add_assoc]

/-- Whitespace and comments are passed. -/
theorem run_filler {filler : Bytes} (h : Filler filler) {b : Byte} {rest : Bytes}
    (hb : isspace b = false) (hmem : p.mem = filler ++ b :: rest) (hreach : p.InReach)
    (hsize : p.pos + filler.length ≤ size) :
  (parseLoop setOption size).run p = (parseLoop setOption size).run (p.move filler (b :: rest))
  := by
  induction h generalizing p with
  | blank gap hgap => apply run_blank hreach hgap hb hmem hsize
  | comment gap body more hgap hbody hmore ih =>
    rw [List.append_assoc, List.cons_append, List.append_assoc, List.cons_append] at hmem
    simp only [List.length_append, List.length_cons] at hsize
    have hmoved := hreach.move hmem
    rw [run_blank hreach hgap rfl hmem (by omega), run_comment hbody rfl, ih rfl, move_move,
      move_move]
    · congr 2
      simp
    · apply hmoved.move
      simp [Parse.move]
    · simp [Parse.move]
      omega
    · simp only [Parse.move]
      omega

/-- The parser at `rest`, the rest of the file, behind which `behind` stands. -/
structure AtRest (size : ℕ) (rest behind : Bytes) (p : Parse σ) : Prop where
  mem : p.mem = rest ++ behind
  pos : p.pos + rest.length = size
  reach : p.InReach

theorem AtRest.move {taken rest behind : Bytes} (h : p.AtRest size (taken ++ rest) behind) :
  (p.move taken (rest ++ behind)).AtRest size rest behind
  := by
  have hpos := h.pos
  rw [List.length_append] at hpos
  refine ⟨rfl, ?_, h.reach.move (h.mem.trans (List.append_assoc ..))⟩
  simp only [Parse.move]
  omega

theorem AtRest.afterEntry (setOption : σ → Bytes → Bytes → OptionType → σ) {e : Entry}
    {rest behind : Bytes}
    (h : p.AtRest size (e.text ++ rest) behind) :
  (p.afterEntry setOption e (rest ++ behind)).AtRest size rest behind
  := by
  have hpos := h.pos
  have hreach := h.reach
  rw [InReach, h.mem] at hreach
  simp only [List.length_append] at hpos hreach
  refine ⟨rfl, ?_, ?_⟩
  · simp only [Parse.afterEntry]
    omega
  · simp only [InReach, Parse.afterEntry, List.length_append]
    omega

/-- A turn that comes to an entry in the rest of the file reads it. -/
theorem AtRest.step (setOption : σ → Bytes → Bytes → OptionType → σ) {e : Entry}
    {rest behind : Bytes} (h : p.AtRest size (e.text ++ rest) behind) (he : e.WellFormed)
    (hvalue : e.value.text ≠ []) (hends : e.value.EndsBefore (rest ++ behind)) :
  p.pos < size ∧ p.step setOption size
    = (p.afterEntry setOption e (rest ++ behind)).skipWhitespace size
  := by
  have hpos := h.pos
  have hlength := List.length_pos_iff.mpr hvalue
  simp only [Entry.text, List.length_append] at hpos
  constructor
  · omega
  · apply step_entry he _ _ hends (h.mem.trans (List.append_assoc ..))
    · omega
    · apply Value.within_of_le
      omega

/-- The parser passes an entry when text comes after it in the file, or behind the file. -/
theorem AtRest.run_entry (setOption : σ → Bytes → Bytes → OptionType → σ) {e : Entry}
    {rest behind gap tail : Bytes} {b : Byte} (h : p.AtRest size (e.text ++ rest) behind)
    (he : e.WellFormed) (hvalue : e.value.text ≠ []) (hends : e.value.EndsBefore (rest ++ behind))
    (hgap : Blank gap) (hb : isspace b = false) (hrest : rest ++ behind = gap ++ b :: tail)
    (hlength : gap.length ≤ rest.length) :
  (parseLoop setOption size).run p
    = (parseLoop setOption size).run (p.afterEntry setOption e (rest ++ behind))
  := by
  have hafter := h.afterEntry setOption
  obtain ⟨hstart, hstep⟩ := h.step setOption he hvalue hends
  apply run_of_step_skip hafter.reach hstart hstep hgap hb hrest
  have hpos := hafter.pos
  omega

/-- After the last entry the parser looks for text behind the file. -/
theorem AtRest.run_last (setOption : σ → Bytes → Bytes → OptionType → σ) {e : Entry}
    {gap behind gap' tail : Bytes} {b : Byte} (h : p.AtRest size (e.text ++ gap) behind)
    (he : e.WellFormed) (hvalue : e.value.text ≠ []) (hends : e.value.EndsBefore (gap ++ behind))
    (hgap : Blank gap) (hgap' : Blank gap') (hb : isspace b = false)
    (hbehind : behind = gap' ++ b :: tail) :
  ∃ r, (parseLoop setOption size).run p = some r ∧ r.ret = 0
    ∧ r.state = setOption p.state e.name (cstr e.value.param) e.value.type
  := by
  have hpos := h.pos
  obtain ⟨hstart, hstep⟩ := h.step setOption he hvalue hends
  have hblank : Blank (gap ++ gap') := by
    intro c hc
    rcases List.mem_append.mp hc with hc | hc
    · apply hgap c hc
    · apply hgap' c hc
  have hmem : (p.afterEntry setOption e (gap ++ behind)).mem = gap ++ gap' ++ b :: tail := by
    rw [List.append_assoc, ← hbehind]
    rfl
  rw [skipWhitespace_eq hblank hb hmem, if_pos] at hstep
  · refine ⟨_, run_of_step_error hstart.ne hstep, rfl, rfl⟩
  · simp only [Parse.afterEntry, List.length_append] at hpos ⊢
    omega

/-- Without text behind the file the parser does not end after the last entry. -/
theorem AtRest.run_last_blank (setOption : σ → Bytes → Bytes → OptionType → σ) {e : Entry}
    {gap behind : Bytes} (h : p.AtRest size (e.text ++ gap) behind) (he : e.WellFormed)
    (hvalue : e.value.text ≠ []) (hends : e.value.EndsBefore (gap ++ behind)) (hgap : Blank gap)
    (hbehind : Blank behind) :
  (parseLoop setOption size).run p = none
  := by
  obtain ⟨hstart, hstep⟩ := h.step setOption he hvalue hends
  rcases skipWhitespace_cases size (p.afterEntry setOption e (gap ++ behind)) with
    hfault | ⟨gap', b, tail, hmem, -, hb⟩
  · apply run_of_step_error hstart.ne (hstep.trans hfault)
  · have hmem' : b ∈ gap ++ behind := by
      have hall : gap ++ behind = gap' ++ b :: tail := hmem
      rw [hall]
      simp
    rcases List.mem_append.mp hmem' with hgap_mem | hbehind_mem
    · cases hb.symm.trans (hgap b hgap_mem)
    · cases hb.symm.trans (hbehind b hbehind_mem)

/-- The calls of `setOption` for entries. -/
def setOptions (setOption : σ → Bytes → Bytes → OptionType → σ) (state : σ) (es : List Entry) : σ :=
  es.foldl (fun s e => setOption s e.name e.value.param e.value.type) state

/-- The parser passes the rest of a file that is laid out. -/
theorem run_layout (setOption : σ → Bytes → Bytes → OptionType → σ) {es : List Entry}
    {rest beyond : Bytes} (h : Layout es rest) (hrest : p.AtRest size rest (0 :: beyond)) :
  ∃ r, (parseLoop setOption size).run p = some r ∧ r.ret = 0
    ∧ r.names = p.names + es.length ∧ r.state = setOptions setOption p.state es
  := by
  induction h generalizing p with
  | nil filler hfiller =>
    rw [run_filler hfiller rfl hrest.mem hrest.reach hrest.pos.le]
    have hmoved := hrest.reach.move hrest.mem
    have hend : (p.move filler (0 :: beyond)).pos = size := hrest.pos
    rw [run_at_end hend, finish_eq (hmoved.pos_le rfl)]
    exact ⟨_, rfl, rfl, rfl, rfl⟩
  | cons filler e es rest hfiller he hproper hseparated hmore ih =>
    obtain ⟨b, m, htext, hb, -⟩ := Entry.exists_head he (rest ++ 0 :: beyond)
    obtain ⟨gap, c, tail, htail, hgap, hc, hlength⟩ := exists_gap rest beyond
    have hmoved := hrest.move
    have hrun := hmoved.run_entry setOption he hproper.text
      (hseparated.endsBefore hproper beyond) hgap hc htail hlength
    obtain ⟨r, hr, hret, hnames, hstate⟩ := ih (hmoved.afterEntry setOption)
    refine ⟨r, ?_, hret, ?_, ?_⟩
    · have hpos := hrest.pos
      have hmem : p.mem = filler ++ b :: m := by
        rw [hrest.mem, ← htext, List.append_assoc, List.append_assoc]
      rw [List.length_append] at hpos
      rw [run_filler hfiller hb hmem hrest.reach (by omega), ← htext, ← List.append_assoc, hrun, hr]
    · rw [hnames, List.length_cons]
      simp only [Parse.afterEntry, Parse.move]
      omega
    · rw [hstate]
      simp only [setOptions, List.foldl_cons, Parse.afterEntry, Parse.move,
        cstr_of_notMem hproper.nul]

end Parse

/-- The parser as it begins, with what can be reached behind the file. -/
theorem atRest_content {σ : Type} {content : Bytes} (hsize : content.length ≤ INT_MAX)
    (beyond : Bytes) (state : σ) :
  (⟨0, (content ++ beyond).take (INT_MAX + 1), 0, [], state⟩ : Parse σ).AtRest
    content.length content (beyond.take (INT_MAX + 1 - content.length))
  := by
  refine ⟨?_, Nat.zero_add _, ?_⟩
  · rw [List.take_append, List.take_of_length_le (Nat.le_succ_of_le hsize)]
  · rw [Parse.InReach, Nat.zero_add]
    apply List.length_take_le

/-- A file that is laid out is read as its entries. -/
theorem parse_layout {σ : Type} (setOption : σ → Bytes → Bytes → OptionType → σ)
    {es : List Entry} {content : Bytes} (h : Layout es content) (hcontent : content ≠ [])
    (hsize : content.length ≤ INT_MAX) (beyond : Bytes) (state : σ) :
  ∃ r, parseConfigFile setOption (some content) (0 :: beyond) state = some r ∧ r.ret = 0
    ∧ r.names = es.length
    ∧ r.state = es.foldl (fun s e => setOption s e.name e.value.param e.value.type) state
  := by
  have hrest := atRest_content hsize (0 :: beyond) state
  rw [show INT_MAX + 1 - content.length = INT_MAX - content.length + 1 from Nat.succ_sub hsize,
    List.take_succ_cons] at hrest
  obtain ⟨r, hr, hret, hnames, hstate⟩ := Parse.run_layout setOption h hrest
  refine ⟨r, ?_, hret, ?_, hstate⟩
  · rw [parseConfigFile, if_neg hcontent, parseContent, hr]
  · rw [hnames]
    apply Nat.zero_add

/-- A file with a quoted value, a comment and a number. -/
def sampleContent : Bytes :=
  text "url = \"a b\"#c\ninterval=10"

def sampleEntries : List Entry :=
  [⟨text "url", text " ", text " ", .quoted doubleQuote (text "a b")⟩,
    ⟨text "interval", [], [], .bare (text "10")⟩]

theorem layout_sample :
  Layout sampleEntries sampleContent
  := by
  have hblank : Blank [] := fun _ h => absurd h List.not_mem_nil
  have hnumber : Layout [⟨text "interval", [], [], .bare (text "10")⟩]
      (text "#c\ninterval=10") := by
    apply Layout.cons (text "#c\n") _ [] []
    · apply Filler.comment [] (text "c") [] hblank (by decide) (Filler.blank [] hblank)
    · refine ⟨by decide, by decide, List.all_eq_true.mp (by decide), hblank, hblank, ?_⟩
      refine ⟨List.all_eq_true.mp (by decide), by decide, ?_⟩
      rintro b ⟨⟩
      decide
    · exact ⟨by decide, by decide⟩
    · intro b hb
      cases hb
    · apply Layout.nil [] (Filler.blank [] hblank)
  apply Layout.cons [] _ _ (text "#c\ninterval=10") (Filler.blank [] hblank) _ _ _ hnumber
  · refine ⟨by decide, by decide, List.all_eq_true.mp (by decide), by decide, by decide, ?_⟩
    refine ⟨by decide, by decide, by decide, by decide⟩
  · exact ⟨by decide, by decide⟩
  · trivial

end Trailermatic
