import Trailermatic.Bytes

/-!
# Regular expressions

The program matches through the PCRE library, which is a parameter.  `isRegExMatch` asks
whether a pattern matches; `getRegExMatch` asks for the text of a match or of one of its
groups.
-/

namespace Trailermatic

/-- The PCRE library: compiling a pattern with the options of `init_regex`, the number
of groups of a pattern or an error, the value of `pcre_exec` for a subject and a size of
the offset vector, and the strings `pcre_get_substring_list` gives for a subject, a size
of the offset vector and a count. -/
structure Pcre where
  Code : Type
  compile : Bytes → Option Code
  captureCount : Code → Except ℤ ℕ
  exec : Code → Bytes → ℕ → ℤ
  substringList : Code → Bytes → ℕ → ℤ → Option (List Bytes)

/-- `strstrip`: the string without the spaces around it. -/
def strstrip (s : Bytes) : Bytes :=
  ((cstr s).reverse.dropWhile isspace).reverse.dropWhile isspace

namespace Pcre

variable (pcre : Pcre)

/-- Compile a pattern; there is no code for `NULL`. -/
def initRegex (pattern : Option Bytes) : Option pcre.Code :=
  pattern.bind pcre.compile

/-- Whether a pattern matches; nothing matches the empty string. -/
def isRegExMatch (pattern : Option Bytes) (str : Bytes) : Bool :=
  if str = [] then false
  else
    match pcre.initRegex pattern with
    | some preg => pcre.exec preg str 0 == 0
    | none => false

/-- The number of groups, or the error that libpcre returns. -/
def getPCRECaptureCount (code : pcre.Code) : ℤ :=
  match pcre.captureCount code with
  | .ok count => count
  | .error result => result

/-- The count and the list of strings, `none` where the list is not filled. -/
def getRegExCaptureGroups (pattern : Option Bytes) (str : Bytes) : ℤ × Option (List Bytes) :=
  if str = [] then (0, none)
  else
    match pcre.initRegex pattern with
    | none => (-1, none)
    | some preg =>
      let groups := pcre.getPCRECaptureCount preg
      let groups := if groups < 0 then 9 else groups.toNat
      let ovecSize := if 0 < groups then (groups + 1) * 3 else 0
      let count := pcre.exec preg str ovecSize
      (count, if 1 < count then pcre.substringList preg str ovecSize count else none)

/-- The stripped text of the match or of a group, `NULL` if there is none.  The function
itself has no value where it reads a list of strings that was not filled. -/
def getRegExMatch (pattern : Option Bytes) (str : Bytes) (whichResult : ℕ) :
    Option (Option Bytes) :=
  if str = [] then some none
  else
    let (count, stringlist) := pcre.getRegExCaptureGroups pattern str
    if 0 < count ∧ whichResult < count then
      match stringlist.bind fun strings => strings[whichResult]? with
      | some string => some ((amStrdup string).map fun s => strstrip s.bytes)
      | none => none
    else some none

/-- `pcre_get_substring_list` gives as many strings as `pcre_exec` counted. -/
def Lists : Prop :=
  ∀ (code : pcre.Code) (subject : Bytes) (ovecSize : ℕ), 0 < pcre.exec code subject ovecSize →
    ∃ strings, pcre.substringList code subject ovecSize (pcre.exec code subject ovecSize)
        = some strings
      ∧ strings.length = pcre.exec code subject ovecSize

/-- With such a library the text of a group can be asked for. -/
theorem Lists.exists_getRegExMatch {pcre : Pcre} (h : pcre.Lists) (pattern : Option Bytes)
    (str : Bytes) {whichResult : ℕ} (hgroup : 0 < whichResult) :
  ∃ result, pcre.getRegExMatch pattern str whichResult = some result
  := by
  rw [getRegExMatch, getRegExCaptureGroups]
  by_cases hstr : str = []
  · simp [hstr]
  · simp only [if_neg hstr]
    cases pcre.initRegex pattern with
    | none => simp
    | some preg =>
      simp only
      generalize (if pcre.getPCRECaptureCount preg < 0 then 9
        else (pcre.getPCRECaptureCount preg).toNat) = groups
      generalize (if 0 < groups then (groups + 1) * 3 else 0) = ovecSize
      split_ifs with hcount hmany
      · obtain ⟨strings, hstrings, hlength⟩ := h preg str _ hcount.1
        have hlt : whichResult < strings.length := by omega
        rw [hstrings, Option.bind_some, List.getElem?_eq_getElem hlt]
        exact ⟨_, rfl⟩
      · omega
      · exact ⟨none, rfl⟩

/-- A library that matches patterns without special characters. -/
def plain : Pcre where
  Code := Bytes
  compile := some
  captureCount _ := .ok 0
  exec pattern subject ovecSize :=
    if subject.tails.any pattern.isPrefixOf then if ovecSize = 0 then 0 else 1 else -1
  substringList pattern _ _ _ := some [pattern]

theorem plain_lists :
  plain.Lists
  := by
  intro pattern subject ovecSize hexec
  refine ⟨[pattern], rfl, ?_⟩
  simp only [plain] at hexec ⊢
  split_ifs at hexec ⊢ with hmatch hsize
  · cases hexec
  · rfl
  · cases hexec

end Pcre

end Trailermatic
