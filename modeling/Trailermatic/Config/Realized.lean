import Trailermatic.Config.Blocks

/-!
# The memory of filters and feeds

The functions that read filters and feeds make of memory what the functions without memory make.
They lose values that the same entry sets again, names of suboptions that have no value, and
entries that cannot be used.
-/

namespace Trailermatic

namespace Owned

open Alloc

/-! ### Strings do what they do without memory -/

theorem realizes_amStrdup (str : Bytes) (owned : List ℕ) :
  Realizes (amStrdup str) owned (some (Trailermatic.amStrdup str)) (Option.map Text.str)
    (fun t => Text.blocks t ++ owned) 0
  := by
  rw [amStrdup]
  cases Trailermatic.amStrdup str with
  | none => exact realizes_pure rfl (List.Perm.refl _)
  | some str =>
    apply (realizes_malloc owned).andThen
    intro block _
    exact realizes_pure rfl (List.Perm.refl _)

theorem realizes_copyChars (bytes : Bytes) (owned : List ℕ) :
  Realizes (copyChars bytes) owned (some bytes) Chars.bytes (fun s => s.block :: owned) 0
  := by
  apply (realizes_malloc owned).andThen
  intro block _
  exact realizes_pure rfl (List.Perm.refl _)

theorem realizes_amFree_text (t : Option Text) (owned : List ℕ) :
  Realizes (Alloc.amFree (t.map Text.block)) (Text.blocks t ++ owned) (some ()) id
    (fun _ => owned) 0
  := by
  cases t with
  | none => exact realizes_amFree none owned
  | some t => exact realizes_amFree (some t.block) owned

theorem realizes_amFree_chars (s : Option Chars) (owned : List ℕ) :
  Realizes (Alloc.amFree (s.map Chars.block)) (Chars.blocks s ++ owned) (some ()) id
    (fun _ => owned) 0
  := by
  cases s with
  | none => exact realizes_amFree none owned
  | some s => exact realizes_amFree (some s.block) owned

theorem realizes_shorten (str : Bytes) (owned : List ℕ) :
  Realizes (shorten str) owned (Trailermatic.shorten str) (Option.map Text.str)
    (fun t => Text.blocks t ++ owned) 0
  := by
  rw [shorten, Trailermatic.shorten]
  apply (realizes_malloc owned).andThen
  intro tmp _
  simp only
  split_ifs
  · apply realizes_none
  · apply (realizes_amStrdup _ _).andThen
    intro retStr hretStr
    apply Realizes.andThen ((realizes_free tmp (Text.blocks retStr ++ owned)).of_perm
      List.perm_middle fun _ => List.Perm.refl _)
    intro _ _
    exact realizes_pure hretStr (List.Perm.refl _)

/-- What a call of `parseSubOption` leaves in `*option` and `*param`. -/
def subOptionParts (line : Bytes) : Option (Option Bytes × Option Str) :=
  match splitArrow line with
  | none => some (none, none)
  | some ([], _) => none
  | some (before, after) => some (some before.dropLast, Trailermatic.amStrdup after)

theorem parseSubOption_eq_parts (line : Bytes) :
  Trailermatic.parseSubOption line
    = (subOptionParts line).map fun parts =>
      parts.1.bind fun option => parts.2.map fun param => (option, param)
  := by
  rw [Trailermatic.parseSubOption, subOptionParts]
  rcases splitArrow line with _ | ⟨_ | ⟨b, before⟩, after⟩
  · rfl
  · rfl
  · rfl

theorem realizes_parseSubOption (line : Bytes) (owned : List ℕ) :
  Realizes (parseSubOption line) owned (subOptionParts line)
    (Prod.map (Option.map Chars.bytes) (Option.map Text.str))
    (fun parts => Chars.blocks parts.1 ++ (Text.blocks parts.2 ++ owned)) 0
  := by
  rw [parseSubOption, subOptionParts]
  rcases splitArrow line with _ | ⟨_ | ⟨b, before⟩, after⟩
  · exact realizes_pure rfl (List.Perm.refl _)
  · apply realizes_none
  · apply (realizes_copyChars _ owned).andThen
    intro option hoption
    apply (realizes_amStrdup after _).andThen
    intro param hparam
    apply realizes_pure
    · rw [Prod.map, Option.map_some, hoption, hparam]
    · apply List.perm_middle

theorem realizes_getSubstringList (strings : Option (List Bytes)) (owned : List ℕ) :
  Realizes (getSubstringList strings) owned (some strings) (Option.map Prod.snd)
    (fun list => (list.map Prod.fst).toList ++ owned) 0
  := by
  cases strings with
  | none => exact realizes_pure rfl (List.Perm.refl _)
  | some strings =>
    apply (realizes_malloc owned).map (h := fun _ => some strings)
    · intro _
      rfl
    · intro list
      apply List.Perm.refl

theorem realizes_getRegExCaptureGroups (pcre : Pcre) (pattern : Option Bytes) (str : Bytes)
    (owned : List ℕ) :
  Realizes (getRegExCaptureGroups pcre pattern str) owned
    (some (pcre.getRegExCaptureGroups pattern str)) (Prod.map id (Option.map Prod.snd))
    (fun r => (r.2.map Prod.fst).toList ++ owned) 0
  := by
  rw [getRegExCaptureGroups, Pcre.getRegExCaptureGroups]
  split_ifs
  · exact realizes_pure rfl (List.Perm.refl _)
  · cases pcre.initRegex pattern with
    | none => exact realizes_pure rfl (List.Perm.refl _)
    | some code =>
      apply (realizes_malloc owned).andThen
      intro resultPreg _
      simp only
      generalize (if 0 < _ then _ else 0) = ovecSize
      apply (realizes_amMalloc ovecSize _).andThen
      intro ovec _
      apply (realizes_getSubstringList _ _).andThen
      intro stringlist hstringlist
      apply Realizes.andThen ((realizes_amFree ovec _).of_perm
        (List.perm_append_comm_assoc _ _ _) fun _ => List.Perm.refl _)
      intro _ _
      apply Realizes.andThen ((realizes_free resultPreg _).of_perm List.perm_middle
        fun _ => List.Perm.refl _)
      intro _ _
      apply realizes_pure
      · rw [Prod.map, hstringlist, id]
      · apply List.Perm.refl

/-- There is a list of strings only if there is a group. -/
theorem one_lt_of_stringlist {pcre : Pcre} {pattern : Option Bytes} {str : Bytes} {count : ℤ}
    {strings : List Bytes} (h : pcre.getRegExCaptureGroups pattern str = (count, some strings)) :
  1 < count
  := by
  rw [Pcre.getRegExCaptureGroups] at h
  split_ifs at h
  · cases h
  · cases hcode : pcre.initRegex pattern with
    | none =>
      rw [hcode] at h
      cases h
    | some code =>
      rw [hcode] at h
      obtain ⟨rfl, hstrings⟩ := Prod.mk.inj h
      by_contra hcount
      rw [if_neg hcount] at hstrings
      cases hstrings

/-- The first group is none of those that matched only if there is no list of strings. -/
theorem realizes_getRegExMatch (pcre : Pcre) (pattern : Option Bytes) (str : Bytes)
    {whichResult : ℕ} (hwhich : whichResult ≤ 1) (owned : List ℕ) :
  Realizes (getRegExMatch pcre pattern str whichResult) owned
    (pcre.getRegExMatch pattern str whichResult) (Option.map Chars.bytes)
    (fun s => Chars.blocks s ++ owned) 0
  := by
  rw [getRegExMatch, Pcre.getRegExMatch]
  split_ifs
  · exact realizes_pure rfl (List.Perm.refl _)
  · apply (realizes_getRegExCaptureGroups pcre pattern str owned).andThen
    rintro ⟨count, stringlist⟩ hgroups
    rw [← hgroups]
    simp only [Prod.map, id]
    split_ifs with hcount
    · rcases stringlist with _ | ⟨list, strings⟩
      · apply realizes_none
      · simp only [Option.map_some, Option.bind_some]
        cases strings[whichResult]? with
        | none => apply realizes_none
        | some string =>
          apply (realizes_amStrdup string _).andThen
          intro resultStr hresultStr
          apply Realizes.andThen ((realizes_free list _).of_perm List.perm_middle
            fun _ => List.Perm.refl _)
          intro _ _
          apply realizes_pure
          · rw [← hresultStr, Option.map_map, Option.map_map]
            rfl
          · cases resultStr with
            | none => apply List.Perm.refl
            | some t => apply List.Perm.refl
    · rcases stringlist with _ | ⟨list, strings⟩
      · exact realizes_pure rfl (List.Perm.refl _)
      · have hgroup : 1 < count := one_lt_of_stringlist hgroups.symm
        exfalso
        omega

theorem realizes_parseCookiesFromURL (pcre : Pcre) (url : Bytes) (owned : List ℕ) :
  Realizes (parseCookiesFromURL pcre url) owned (Trailermatic.parseCookiesFromURL pcre url)
    (Option.map Chars.bytes) (fun s => Chars.blocks s ++ owned) 0
  := realizes_getRegExMatch pcre _ url (Nat.le_refl 1) owned

/-- The tokens of a parameter, which has no value where the behaviour is undefined. -/
def tokensOf (param : Bytes) : Option (List Bytes) :=
  (Trailermatic.shorten param).bind strtok

theorem realizes_withTokens {γ δ : Type} (param : Bytes) {use : List Bytes → Alloc γ}
    {act : List Bytes → Option δ} {view : γ → δ} {owned : List ℕ} {owns : γ → List ℕ}
    (lost : List Bytes → ℕ)
    (huse : ∀ tokens, Realizes (use tokens) owned (act tokens) view owns (lost tokens)) :
  Realizes (withTokens param use) owned ((tokensOf param).bind act) view owns
    ((tokensOf param).elim 0 lost)
  := by
  have hstr : ∀ str : Option Text, Realizes (do
      let tokens ← ofOption (strtok (str.map Text.str))
      let result ← use tokens
      Alloc.amFree (str.map Text.block)
      return result) (Text.blocks str ++ owned) ((strtok (str.map Text.str)).bind act) view owns
      (0 + (strtok (str.map Text.str)).elim 0 lost) := by
    intro str
    apply (realizes_ofOption _ _).bind
    intro tokens _
    apply Realizes.finally (((huse tokens).frame (Text.blocks str)).of_perm
      List.perm_append_comm fun _ => List.perm_append_comm)
    intro result
    apply (realizes_amFree_text str _).andThen
    intro _ _
    exact realizes_pure rfl (List.Perm.refl _)
  have h := (realizes_shorten param owned).bind
    (g := fun str => (strtok str).bind act) (n := fun str => 0 + (strtok str).elim 0 lost)
    fun str _ => hstr str
  rw [tokensOf]
  cases hshorten : Trailermatic.shorten param with
  | none =>
    rw [hshorten] at h
    apply h
  | some str =>
    rw [hshorten, Nat.zero_add, Option.elim_some, Nat.zero_add] at h
    apply h

theorem realizes_withTokens_zero {γ δ : Type} (param : Bytes) {use : List Bytes → Alloc γ}
    {act : List Bytes → Option δ} {view : γ → δ} {owned : List ℕ} {owns : γ → List ℕ}
    (huse : ∀ tokens, Realizes (use tokens) owned (act tokens) view owns 0) :
  Realizes (withTokens param use) owned ((tokensOf param).bind act) view owns 0
  := by
  have h := realizes_withTokens param (fun _ => 0) huse
  cases htokens : tokensOf param with
  | none =>
    rw [htokens] at h
    apply h
  | some tokens =>
    rw [htokens] at h
    apply h

/-! ### Entries do what they do without memory -/

section Entries

variable {α β γ δ : Type} {view : α → β} {blocks : α → List ℕ}

theorem recogniseSuboption_pair (s s' : Suboption view blocks) (option : Bytes) :
  recogniseSuboption [s, s'] option
    = if s.name.isPrefixOf option then some s
      else if s'.name.isPrefixOf option then some s' else none
  := by
  rw [recogniseSuboption, List.find?_cons, List.find?_cons, List.find?_nil]
  cases s.name.isPrefixOf option with
  | true => rfl
  | false =>
    cases s'.name.isPrefixOf option with
    | true => rfl
    | false => rfl

/-- What a name and a parameter do to the value of an entry. -/
def valueParts (suboptions : List (Suboption view blocks)) (b : β) :
    Option Bytes × Option Str → Option β
  | (some option, some param) =>
    match recogniseSuboption suboptions option with
    | none => some b
    | some s =>
      (Trailermatic.shorten param.bytes).map fun value => s.setValue (value.map Str.bytes) b
  | _ => some b

/-- What is lost: the value that is replaced, or the name of a suboption without a value. -/
def partsLost (suboptions : List (Suboption view blocks)) (b : β) : Option Bytes × Option Str → ℕ
  | (some option, some _) =>
    (recogniseSuboption suboptions option).elim 0 fun s => (s.getValue b).toList.length
  | (option, param) => option.toList.length + param.toList.length

/-- What a line makes of the value of an entry. -/
def valueLine (suboptions : List (Suboption view blocks)) (b : β) (line : Bytes) : Option β :=
  (subOptionParts line).bind (valueParts suboptions b)

/-- The names that a line loses: those of suboptions that were set before. -/
def lineLost (suboptions : List (Suboption view blocks)) (b : β) (line : Bytes) : ℕ :=
  (subOptionParts line).elim 0 (partsLost suboptions b)

/-- The value of an entry that is made with the first line. -/
def lazily (start : β) (step : β → Bytes → Option β) (b : Option β) (line : Bytes) :
    Option (Option β) :=
  (step (b.getD start) line).map some

theorem foldlM_lazily (start : β) (step : β → Bytes → Option β) (b : Option β)
    (lines : List Bytes) :
  (lines.foldlM (lazily start step) b).map (fun b => b.getD start)
    = lines.foldlM step (b.getD start)
  := by
  induction lines generalizing b with
  | nil => rfl
  | cons line lines ih =>
    rw [List.foldlM_cons, List.foldlM_cons, lazily]
    cases step (b.getD start) line with
    | none => rfl
    | some b' => apply ih (some b')

theorem length_blocks_chars (s : Option Chars) :
  (Chars.blocks s).length = (s.map Chars.bytes).toList.length
  := by
  cases s with
  | none => rfl
  | some s => rfl

theorem length_blocks_text (t : Option Text) :
  (Text.blocks t).length = (t.map Text.str).toList.length
  := by
  cases t with
  | none => rfl
  | some t => rfl

theorem blocks_chars (t : Option Text) :
  Chars.blocks (t.map Text.chars) = Text.blocks t
  := by
  cases t with
  | none => rfl
  | some t => rfl

theorem realizes_setSuboption (suboptions : List (Suboption view blocks)) (a : α) (option : Bytes)
    (param : Str) (owned : List ℕ) :
  Realizes (setSuboption suboptions a option param) (blocks a ++ owned)
    (valueParts suboptions (view a) (some option, some param)) view
    (fun a => blocks a ++ owned) (partsLost suboptions (view a) (some option, some param))
  := by
  rw [setSuboption, valueParts, partsLost]
  cases recogniseSuboption suboptions option with
  | none => exact realizes_pure rfl (List.Perm.refl _)
  | some s =>
    rw [Option.elim_some, s.getValue_view, ← length_blocks_chars]
    have hshorten := (realizes_shorten param.bytes []).overwrite (Chars.blocks (s.get a))
      (s.rest a ++ owned)
    apply Realizes.of_perm
      (hshorten.map _ _ : Realizes _ _ _ view (fun a => blocks a ++ owned) _)
    · rw [← List.append_assoc]
      apply (s.blocks_perm a).append_right
    · intro _
      apply List.Perm.refl
    · intro t
      rw [s.view_set, Option.map_map, Option.map_map]
      rfl
    · intro t
      rw [List.append_nil, ← List.append_assoc, ← blocks_chars]
      apply (s.blocks_set _ a).append_right

theorem realizes_entryOf {new : Alloc α} {start : β}
    (hnew : Realizes new [] (some start) view blocks 0) (a : Option α) :
  Realizes (entryOf new a) (a.toList.flatMap blocks) (some ((a.map view).getD start)) view blocks 0
  := by
  cases a with
  | none => apply hnew
  | some a =>
    apply realizes_pure rfl
    rw [Option.toList_some, List.flatMap_singleton]

theorem realizes_parseLine {new : Alloc α} {start : β}
    (hnew : Realizes new [] (some start) view blocks 0)
    (suboptions : List (Suboption view blocks)) (a : Option α) (line : Bytes) :
  Realizes (parseLine new suboptions a line) (a.toList.flatMap blocks)
    (lazily start (valueLine suboptions) (a.map view) line) (Option.map view)
    (fun a => a.toList.flatMap blocks) (lineLost suboptions ((a.map view).getD start) line)
  := by
  rw [parseLine, lazily]
  apply (realizes_entryOf hnew a).andThen
  intro a ha
  rw [← ha, valueLine, lineLost, ← Nat.zero_add (Option.elim _ _ _), Option.map_bind]
  apply (realizes_parseSubOption line (blocks a)).bind
  have hunset : ∀ parts : Option Chars × Option Text, Realizes (pure (some a))
      (Chars.blocks parts.1 ++ (Text.blocks parts.2 ++ blocks a)) (some (some (view a)))
      (Option.map view) (fun a => a.toList.flatMap blocks)
      ((parts.1.map Chars.bytes).toList.length + (parts.2.map Text.str).toList.length) := by
    intro parts
    rw [← length_blocks_chars, ← length_blocks_text, ← List.length_append]
    apply realizes_lose
    · rfl
    · rw [Option.toList_some, List.flatMap_singleton, List.append_assoc]
  rintro ⟨_ | option, _ | param⟩ _
  · exact hunset (none, none)
  · exact hunset (none, some param)
  · exact hunset (some option, none)
  · apply Realizes.followed (h := some) ((realizes_setSuboption suboptions a option.bytes param.str
      [option.block, param.block]).of_perm List.perm_append_comm fun _ => List.perm_append_comm)
    intro a
    apply (realizes_free option.block _).andThen
    intro _ _
    apply (realizes_free param.block _).andThen
    intro _ _
    apply realizes_pure
    · rfl
    · rw [Option.toList_some, List.flatMap_singleton]
      apply List.Perm.refl

/-- The value of a list after an entry was read. -/
def valueEntry (start : β) (suboptions : List (Suboption view blocks)) (add : β → δ → Option δ)
    (list : δ) (param : Bytes) : Option δ :=
  (tokensOf param).bind fun lines =>
    (lines.foldlM (valueLine suboptions) start).bind fun b => add b list

/-- What an entry loses while its lines are read, and when it cannot be used in the end. -/
def entryLost (start : β) (suboptions : List (Suboption view blocks)) (unused : β → ℕ)
    (param : Bytes) : ℕ :=
  (tokensOf param).elim 0 fun lines =>
    foldLost (lazily start (valueLine suboptions))
        (fun b => lineLost suboptions (b.getD start)) none lines
      + (lines.foldlM (lazily start (valueLine suboptions)) none).elim 0
        fun b => b.elim 0 unused

theorem realizes_parseEntry {new : Alloc α} {start : β} {add : α → γ → Alloc γ}
    {act : β → δ → Option δ} {value : γ → δ} {owns : γ → List ℕ} {unused : β → ℕ}
    (hnew : Realizes new [] (some start) view blocks 0)
    (hadd : ∀ a list, Realizes (add a list) (blocks a ++ owns list) (act (view a) (value list))
      value owns (unused (view a)))
    (hstart : ∀ list, act start list = some list) (suboptions : List (Suboption view blocks))
    (list : γ) (param : Bytes) :
  Realizes (parseEntry new suboptions add list param) (owns list)
    (valueEntry start suboptions act (value list) param) value owns
    (entryLost start suboptions unused param)
  := by
  apply realizes_withTokens
  intro lines
  have hlines := realizes_foldlM (Option.map view) (fun a => a.toList.flatMap blocks)
    (fun b => lineLost suboptions (b.getD start)) (realizes_parseLine hnew suboptions) none lines
  have hvalue : lines.foldlM (valueLine suboptions) start
      = (lines.foldlM (lazily start (valueLine suboptions)) none).map fun b => b.getD start :=
    (foldlM_lazily start _ none lines).symm
  rw [hvalue, Option.bind_map]
  apply (hlines.frame (owns list)).bind
  intro a _
  cases a with
  | none =>
    rw [Function.comp_apply, Option.map_none, Option.getD_none, hstart]
    exact realizes_pure rfl (List.Perm.refl _)
  | some a =>
    rw [Option.toList_some, List.flatMap_singleton]
    apply hadd

end Entries

/-! ### Filters do what they do without memory -/

theorem realizes_filterNew :
  Realizes filterNew [] (some ⟨none, none⟩) Filter.value Filter.blocks 0
  := by
  apply (realizes_malloc []).andThen
  intro i _
  exact realizes_pure rfl (List.Perm.refl _)

theorem realizes_filterAdd (p : Filter) (head : List (ℕ × Filter)) :
  Realizes (filterAdd p head) (p.blocks ++ head.flatMap filterBlocks)
    (some (addItem (some p.value) (head.map filterValue))) (List.map filterValue)
    (List.flatMap filterBlocks) 0
  := by
  apply (realizes_malloc _).andThen
  intro newnode _
  apply realizes_pure
  · rfl
  · rw [List.flatMap_cons, filterBlocks, List.append_assoc]
    apply List.perm_middle.symm

/-- A filter without a pattern is lost with its agent. -/
def unusedFilter (filter : Trailermatic.Filter) : ℕ :=
  if filter.pattern.isSome then 0 else filter.agent.toList.length + 1

/-- A filter is kept only with a pattern. -/
def addValueFilter (filter : Trailermatic.Filter) (filters : List Trailermatic.Filter) :
    Option (List Trailermatic.Filter) :=
  some (if filter.pattern.isSome then addItem (some filter) filters else filters)

/-- What the block of a filter loses. -/
def filterLost (match_ : Bytes) : ℕ :=
  entryLost ⟨none, none⟩ [pattern, useragent] unusedFilter match_

theorem length_blocks_filter {filter : Filter} (h : filter.pattern = none) :
  filter.value.agent.toList.length + 1 = filter.blocks.length
  := by
  rw [Filter.blocks, Filter.value, h, List.length_append, List.length_append, length_blocks_chars,
    length_blocks_chars]
  simp

theorem valueLine_filter :
  valueLine [pattern, useragent] = Trailermatic.parseFilterLine
  := by
  funext filter line
  rw [valueLine, Trailermatic.parseFilterLine, parseSubOption_eq_parts]
  rcases subOptionParts line with _ | ⟨_ | option, _ | param⟩
  · rfl
  · rfl
  · rfl
  · rfl
  · rw [Option.bind_some, valueParts, recogniseSuboption_pair, pattern, useragent]
    simp only [Option.map_some, Option.bind_some]
    split_ifs
    · rfl
    · rfl
    · rfl

theorem parseFilter_eq_valueEntry (filters : List Trailermatic.Filter) (match_ : Bytes) :
  Trailermatic.parseFilter filters match_
    = valueEntry ⟨none, none⟩ [pattern, useragent] addValueFilter filters match_
  := by
  rw [Trailermatic.parseFilter, valueEntry, tokensOf, valueLine_filter]
  cases Trailermatic.shorten match_ with
  | none => rfl
  | some str => rfl

theorem realizes_parseFilter (filters : List (ℕ × Filter)) (match_ : Bytes) :
  Realizes (parseFilter filters match_) (filters.flatMap filterBlocks)
    (Trailermatic.parseFilter (filters.map filterValue) match_) (List.map filterValue)
    (List.flatMap filterBlocks) (filterLost match_)
  := by
  rw [parseFilter_eq_valueEntry]
  apply realizes_parseEntry realizes_filterNew
  · intro filter filters
    have hpattern : filter.value.pattern.isSome = filter.pattern.isSome := Option.isSome_map
    rw [addValueFilter, unusedFilter, hpattern]
    split_ifs
    · apply realizes_filterAdd
    · rw [length_blocks_filter (Option.not_isSome_iff_eq_none.mp ‹_›)]
      apply realizes_lose
      · rfl
      · apply List.Perm.refl
  · intro filters
    rfl

theorem realizes_addPattern (filters : List (ℕ × Filter)) (p : Bytes) :
  Realizes (addPattern filters p) (filters.flatMap filterBlocks)
    (some (addItem (some ⟨some p, none⟩) (filters.map filterValue))) (List.map filterValue)
    (List.flatMap filterBlocks) 0
  := by
  apply (realizes_filterNew.frame _).andThen
  intro pat hpat
  rcases pat with ⟨i, _ | _, _ | _⟩
  · apply (realizes_copyChars p _).andThen
    rintro pattern rfl
    apply realizes_filterAdd
  · cases hpat
  · cases hpat
  · cases hpat

theorem realizes_addPatternsOld (filters : List (ℕ × Filter)) (strlist : Bytes) :
  Realizes (addPatternsOld filters strlist) (filters.flatMap filterBlocks)
    (Trailermatic.addPatternsOld (filters.map filterValue) strlist) (List.map filterValue)
    (List.flatMap filterBlocks) 0
  := by
  have hvalue : Trailermatic.addPatternsOld (filters.map filterValue) strlist
      = (tokensOf strlist).bind fun patterns => patterns.foldlM
        (fun filters p => some (addItem (some ⟨some p, none⟩) filters))
        (filters.map filterValue) := by
    rw [Trailermatic.addPatternsOld, tokensOf]
    cases Trailermatic.shorten strlist with
    | none => rfl
    | some str =>
      cases hstr : strtok str with
      | none => simp [hstr]
      | some patterns =>
        simp only [hstr, Option.bind_eq_bind, Option.bind_some]
        exact (List.foldlM_pure (m := Option)).symm
  rw [hvalue]
  apply realizes_withTokens_zero
  intro patterns
  apply realizes_foldlM_zero (List.map filterValue) (List.flatMap filterBlocks) realizes_addPattern

/-! ### Feeds do what they do without memory -/

theorem realizes_feedNew :
  Realizes feedNew [] (some ⟨none, none, 0⟩) RssFeed.value RssFeed.blocks 0
  := by
  apply (realizes_malloc []).andThen
  intro i _
  exact realizes_pure rfl (List.Perm.refl _)

theorem realizes_feedAdd (p : RssFeed) (head : List (ℕ × RssFeed)) :
  Realizes (feedAdd p head) (p.blocks ++ head.flatMap feedBlocks)
    (some (addFeed (head.map feedValue) p.value)) (List.map feedValue)
    (List.flatMap feedBlocks) 0
  := by
  apply (realizes_malloc _).andThen
  intro newnode _
  apply realizes_pure
  · have hcount : listCount (head.map feedValue) = listCount head := List.length_map _
    rw [addFeed, hcount]
    rfl
  · rw [List.flatMap_cons, feedBlocks, List.append_assoc]
    apply List.perm_middle.symm

/-- The cookies in the URL of a feed are looked for before it is added. -/
theorem realizes_cookies_feedAdd (pcre : Pcre) (i : ℕ) (url : Chars) (id : ℕ)
    (feeds : List (ℕ × RssFeed)) :
  Realizes (parseCookiesFromURL pcre url.bytes >>= fun cookies =>
      feedAdd ⟨i, some url, cookies, id⟩ feeds) (url.block :: i :: feeds.flatMap feedBlocks)
    ((Trailermatic.parseCookiesFromURL pcre url.bytes).map fun cookies =>
      addFeed (feeds.map feedValue) ⟨some url.bytes, cookies, id⟩) (List.map feedValue)
    (List.flatMap feedBlocks) 0
  := by
  apply (realizes_parseCookiesFromURL pcre url.bytes _).followed
  intro cookies
  apply (realizes_feedAdd ⟨i, some url, cookies, id⟩ feeds).of_perm _ fun _ => List.Perm.refl _
  have hblocks : RssFeed.blocks ⟨i, some url, cookies, id⟩ ++ feeds.flatMap feedBlocks
      = [url.block] ++ (Chars.blocks cookies ++ ([i] ++ feeds.flatMap feedBlocks)) := by
    simp [RssFeed.blocks, Chars.blocks]
  rw [hblocks]
  apply List.perm_append_comm_assoc _ [url.block]

/-- A feed without a URL is lost with its cookies. -/
def unusedFeed (feed : Trailermatic.RssFeed) : ℕ :=
  if feed.url.isSome then 0 else feed.cookies.toList.length + 1

/-- A feed is kept only with a URL, and takes the cookies of its URL if it has none. -/
def addValueFeed (pcre : Pcre) (feed : Trailermatic.RssFeed)
    (feeds : List Trailermatic.RssFeed) : Option (List Trailermatic.RssFeed) :=
  match feed.url with
  | none => some feeds
  | some url =>
    if feed.cookies.isSome then some (addFeed feeds feed)
    else (Trailermatic.parseCookiesFromURL pcre url).map fun cookies =>
      addFeed feeds { feed with cookies := cookies }

/-- What the block of a feed loses. -/
def feedLost (feedstr : Bytes) : ℕ :=
  entryLost ⟨none, none, 0⟩ [url, cookies] unusedFeed feedstr

theorem length_blocks_feed {feed : RssFeed} (h : feed.url = none) :
  feed.value.cookies.toList.length + 1 = feed.blocks.length
  := by
  rw [RssFeed.blocks, RssFeed.value, h, List.length_append, List.length_append,
    length_blocks_chars, length_blocks_chars]
  simp

theorem valueLine_feed :
  valueLine [url, cookies] = Trailermatic.parseFeedLine
  := by
  funext feed line
  rw [valueLine, Trailermatic.parseFeedLine, parseSubOption_eq_parts]
  rcases subOptionParts line with _ | ⟨_ | option, _ | param⟩
  · rfl
  · rfl
  · rfl
  · rfl
  · rw [Option.bind_some, valueParts, recogniseSuboption_pair, url, cookies]
    simp only [Option.map_some, Option.bind_some]
    split_ifs
    · rfl
    · rfl
    · rfl

theorem parseFeed_eq_valueEntry (pcre : Pcre) (feeds : List Trailermatic.RssFeed)
    (feedstr : Bytes) :
  Trailermatic.parseFeed pcre feeds feedstr
    = valueEntry ⟨none, none, 0⟩ [url, cookies] (addValueFeed pcre) feeds feedstr
  := by
  rw [Trailermatic.parseFeed, valueEntry, tokensOf, valueLine_feed]
  cases Trailermatic.shorten feedstr with
  | none => rfl
  | some str =>
    cases hstr : strtok str with
    | none => simp [hstr]
    | some lines =>
      simp only [hstr, Option.bind_eq_bind, Option.bind_some]
      cases lines.foldlM Trailermatic.parseFeedLine ⟨none, none, 0⟩ with
      | none => rfl
      | some feed =>
        simp only [Option.bind_some, addValueFeed]
        cases feed.url with
        | none => rfl
        | some url =>
          simp only
          split_ifs
          · rfl
          · cases Trailermatic.parseCookiesFromURL pcre url with
            | none => rfl
            | some cookies => rfl

theorem realizes_parseFeed (pcre : Pcre) (feeds : List (ℕ × RssFeed)) (feedstr : Bytes) :
  Realizes (parseFeed pcre feeds feedstr) (feeds.flatMap feedBlocks)
    (Trailermatic.parseFeed pcre (feeds.map feedValue) feedstr) (List.map feedValue)
    (List.flatMap feedBlocks) (feedLost feedstr)
  := by
  rw [parseFeed_eq_valueEntry]
  apply realizes_parseEntry realizes_feedNew
  · rintro ⟨i, _ | url, cookies, id⟩ feeds
    · have hlength : unusedFeed (RssFeed.value ⟨i, none, cookies, id⟩)
          = (RssFeed.blocks ⟨i, none, cookies, id⟩).length := length_blocks_feed rfl
      rw [hlength]
      apply realizes_lose
      · rfl
      · apply List.Perm.refl
    · cases cookies with
      | some cookies => apply realizes_feedAdd
      | none => exact realizes_cookies_feedAdd pcre i url id feeds
  · intro feeds
    rfl

theorem realizes_getFeed (pcre : Pcre) (feeds : List (ℕ × RssFeed)) (p : Bytes) :
  Realizes (getFeed pcre feeds p) (feeds.flatMap feedBlocks)
    ((Trailermatic.parseCookiesFromURL pcre p).map fun cookies =>
      addFeed (feeds.map feedValue) ⟨some p, cookies, 0⟩) (List.map feedValue)
    (List.flatMap feedBlocks) 0
  := by
  apply (realizes_feedNew.frame _).andThen
  rintro ⟨i, _ | _, _ | _, id⟩ hfeed
  · cases hfeed
    apply (realizes_copyChars p _).andThen
    rintro url rfl
    exact realizes_cookies_feedAdd pcre i url 0 feeds
  · cases hfeed
  · cases hfeed
  · cases hfeed

theorem realizes_getFeeds (pcre : Pcre) (feeds : List (ℕ × RssFeed)) (strlist : Bytes) :
  Realizes (getFeeds pcre feeds strlist) (feeds.flatMap feedBlocks)
    (Trailermatic.getFeeds pcre (feeds.map feedValue) strlist) (List.map feedValue)
    (List.flatMap feedBlocks) 0
  := by
  have hvalue : Trailermatic.getFeeds pcre (feeds.map feedValue) strlist
      = (tokensOf strlist).bind fun urls => urls.foldlM
        (fun feeds p => (Trailermatic.parseCookiesFromURL pcre p).map fun cookies =>
          addFeed feeds ⟨some p, cookies, 0⟩) (feeds.map feedValue) := by
    rw [Trailermatic.getFeeds, tokensOf]
    cases Trailermatic.shorten strlist with
    | none => rfl
    | some str =>
      cases hstr : strtok str with
      | none => simp [hstr]
      | some urls =>
        simp only [hstr, Option.bind_eq_bind, Option.bind_some, Option.map_eq_bind]
        rfl
  rw [hvalue]
  apply realizes_withTokens_zero
  intro urls
  apply realizes_foldlM_zero (List.map feedValue) (List.flatMap feedBlocks) (realizes_getFeed pcre)

/-! ### Freeing -/

theorem realizes_filterFree (x : Filter) :
  Realizes (filterFree x) x.blocks (some ()) id (fun _ => []) 0
  := by
  apply (realizes_amFree_chars x.pattern _).andThen
  intro _ _
  apply (realizes_amFree_chars x.agent _).andThen
  intro _ _
  apply realizes_free

theorem realizes_feedFree (x : RssFeed) :
  Realizes (feedFree x) x.blocks (some ()) id (fun _ => []) 0
  := by
  apply (realizes_amFree_chars x.url _).andThen
  intro _ _
  apply (realizes_amFree_chars x.cookies _).andThen
  intro _ _
  apply realizes_free

end Owned

end Trailermatic
