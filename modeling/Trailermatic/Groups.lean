import Trailermatic.Regex

/-!
# Matches and their groups

What the PCRE library finds of a pattern in a subject is the text of the match and the
texts of the groups that took part in it.  The library tells it by its calls, and
`getRegExMatch` is to tell it by its results.  `getRegExMatch_eq_iff` says for which
matches it does.
-/

namespace Trailermatic

/-- A match: the text of the whole and that of each group, `none` for a group that took no
part. -/
structure Match where
  whole : Bytes
  groups : List (Option Bytes)
deriving DecidableEq

namespace Match

/-- The number of the highest group that took part, `0` if none did. -/
def highest : List (Option Bytes) → ℕ
  | [] => 0
  | group :: groups => if highest groups ≠ 0 ∨ group.isSome then highest groups + 1 else 0

theorem highest_le_length (groups : List (Option Bytes)) :
  highest groups ≤ groups.length
  := by
  induction groups with
  | nil => rfl
  | cons group groups ih =>
    rw [highest, List.length_cons]
    split_ifs
    · omega
    · omega

theorem highest_eq_zero_iff {groups : List (Option Bytes)} :
  highest groups = 0 ↔ ∀ group ∈ groups, group = none
  := by
  induction groups with
  | nil => simp [highest]
  | cons group groups ih =>
    rw [highest, List.forall_mem_cons, ← ih]
    cases group with
    | none => simp
    | some text => simp

/-- A group above the highest one took no part. -/
theorem getElem?_of_highest_le {groups : List (Option Bytes)} {k : ℕ}
    (h : highest groups ≤ k) :
  groups[k]?.join = none
  := by
  induction groups generalizing k with
  | nil => rfl
  | cons group groups ih =>
    rw [highest] at h
    cases k with
    | zero =>
      cases group with
      | none => rfl
      | some text => simp at h
    | succ k =>
      rw [List.getElem?_cons_succ]
      apply ih
      split_ifs at h with hgroup
      · omega
      · simp only [not_or, not_not] at hgroup
        omega

/-- The strings of the match and of its first groups, empty for a group that took no
part. -/
def strings (m : Match) (count : ℕ) : List Bytes :=
  (m.whole :: m.groups.map fun group => group.getD []).take count

theorem getElem?_strings_zero (m : Match) (count : ℕ) :
  (m.strings (count + 1))[0]? = some m.whole
  := rfl

theorem getElem?_strings_succ (m : Match) {count k : ℕ} (h : k < count) :
  (m.strings (count + 1))[k + 1]? = m.groups[k]?.map fun group => group.getD []
  := by
  rw [strings, List.getElem?_take_of_lt (by omega), List.getElem?_cons_succ, List.getElem?_map]

/-- What is to be returned for the match and for a group. -/
def result (m : Match) : ℕ → Option Bytes
  | 0 => if m.whole = [] then none else some (strstrip m.whole)
  | k + 1 => m.groups[k]?.join.map strstrip

/-- The match can be asked for if a group took part, or if there are no groups and it is
empty; a group can be asked for unless it took part with an empty text. -/
def Answered (m : Match) : ℕ → Prop
  | 0 => (m.groups = [] ∧ m.whole = []) ∨ ∃ group ∈ m.groups, group ≠ none
  | k + 1 => m.groups[k]? ≠ some (some [])

/-- Nothing is to be returned for a group above the highest one. -/
theorem answered_of_highest_le {m : Match} {k : ℕ} (h : highest m.groups ≤ k) :
  m.result (k + 1) = none ∧ m.Answered (k + 1)
  := by
  have hnone := getElem?_of_highest_le h
  constructor
  · rw [result, hnone]
    rfl
  · intro hempty
    rw [hempty] at hnone
    cases hnone

end Match

namespace Pcre

variable (pcre : Pcre)

/-- What the library documents: the number of groups of a pattern; a negative code where
there is no match, `0` for a vector that is too small, else one more than the number of
the highest group that took part; and as many strings, which are parts of the subject. -/
structure Describes (code : pcre.Code) (subject : Bytes) (found : Option Match) (c : ℕ) :
    Prop where
  captureCount : pcre.captureCount code = .ok c
  exec_none : found = none → ∀ ovecSize, pcre.exec code subject ovecSize < 0
  length_groups : ∀ m ∈ found, m.groups.length = c
  exec_some : ∀ m ∈ found, ∀ ovecSize, pcre.exec code subject ovecSize
    = if ovecSize < 3 * (Match.highest m.groups + 1) then (0 : ℤ)
      else ((Match.highest m.groups + 1 : ℕ) : ℤ)
  substringList : ∀ m ∈ found, ∀ ovecSize, 3 * (Match.highest m.groups + 1) ≤ ovecSize →
    pcre.substringList code subject ovecSize (Match.highest m.groups + 1 : ℕ)
      = some (m.strings (Match.highest m.groups + 1))
  subset : ∀ m ∈ found, m.whole ⊆ subject ∧ ∀ text, some text ∈ m.groups → text ⊆ subject

variable {pcre} {code : pcre.Code} {pattern subject : Bytes} {found : Option Match} {c : ℕ}

/-- The size of the offset vector for a number of groups. -/
def ovecSize (groups : ℕ) : ℕ :=
  if 0 < groups then (groups + 1) * 3 else 0

theorem Describes.getRegExCaptureGroups_eq (h : pcre.Describes code subject found c)
    (hcompile : pcre.compile pattern = some code) (hne : subject ≠ []) :
  pcre.getRegExCaptureGroups (some pattern) subject
    = (pcre.exec code subject (ovecSize c),
      if 1 < pcre.exec code subject (ovecSize c) then
        pcre.substringList code subject (ovecSize c) (pcre.exec code subject (ovecSize c))
      else none)
  := by
  have hgroups : (if pcre.getPCRECaptureCount code < 0 then 9
      else (pcre.getPCRECaptureCount code).toNat) = c := by
    rw [getPCRECaptureCount, h.captureCount]
    apply if_neg
    simp only
    omega
  rw [getRegExCaptureGroups, if_neg hne, initRegex, Option.bind_some, hcompile]
  simp only [hgroups]
  rfl

/-- What is counted and listed for a subject that matches. -/
theorem Describes.getRegExCaptureGroups_some {m : Match}
    (h : pcre.Describes code subject (some m) c)
    (hcompile : pcre.compile pattern = some code) (hne : subject ≠ []) :
  pcre.getRegExCaptureGroups (some pattern) subject
    = if c = 0 then ((0 : ℤ), none)
      else if Match.highest m.groups = 0 then ((1 : ℤ), none)
      else (((Match.highest m.groups + 1 : ℕ) : ℤ),
        some (m.strings (Match.highest m.groups + 1)))
  := by
  have hhighest := Match.highest_le_length m.groups
  have hlength := h.length_groups m rfl
  rw [h.getRegExCaptureGroups_eq hcompile hne, h.exec_some m rfl]
  by_cases hc : c = 0
  · have hfew : ovecSize c < 3 * (Match.highest m.groups + 1) := by
      rw [ovecSize, if_neg (by omega)]
      omega
    rw [if_pos hc, if_pos hfew]
    rfl
  · have hroom : ¬ ovecSize c < 3 * (Match.highest m.groups + 1) := by
      rw [ovecSize, if_pos (by omega)]
      omega
    rw [if_neg hc, if_neg hroom]
    by_cases hzero : Match.highest m.groups = 0
    · rw [if_pos hzero, hzero]
      rfl
    · rw [if_neg hzero, if_pos (by omega), h.substringList m rfl _ (by omega)]

/-- A subject that does not match is not counted, and nothing is listed. -/
theorem Describes.getRegExCaptureGroups_none (h : pcre.Describes code subject none c)
    (hcompile : pcre.compile pattern = some code) (hne : subject ≠ []) :
  ∃ count < (0 : ℤ), pcre.getRegExCaptureGroups (some pattern) subject = (count, none)
  := by
  have hneg := h.exec_none rfl (ovecSize c)
  use pcre.exec code subject (ovecSize c), hneg
  rw [h.getRegExCaptureGroups_eq hcompile hne, if_neg (by omega)]

/-- A copy of a text, stripped, is the stripped text unless that text is empty. -/
theorem map_strstrip_amStrdup {text : Bytes} (h : (0 : Byte) ∉ text) :
  (amStrdup text).map (fun s => strstrip s.bytes)
    = if text = [] then none else some (strstrip text)
  := by
  simp only [amStrdup, Str.ofBytes, cstr_of_notMem h]
  split_ifs
  · rfl
  · rfl

/-- What is returned for a count and the strings listed with it. -/
theorem getRegExMatch_of_captured {count : ℤ} {strings : Option (List Bytes)}
    (h : pcre.getRegExCaptureGroups (some pattern) subject = (count, strings))
    (hne : subject ≠ []) (whichResult : ℕ) :
  pcre.getRegExMatch (some pattern) subject whichResult
    = if 0 < count ∧ whichResult < count then
        (strings.bind fun strings => strings[whichResult]?).map fun string =>
          (amStrdup string).map fun s => strstrip s.bytes
      else some none
  := by
  rw [getRegExMatch, if_neg hne, h]
  simp only
  split_ifs
  · cases strings.bind fun strings => strings[whichResult]? with
    | none => rfl
    | some string => rfl
  · rfl

/-- The result for a group that is listed. -/
theorem map_group_eq_iff {m : Match} {k : ℕ} {group : Option Bytes}
    (hgroup : m.groups[k]? = some group) (hnul : ∀ text ∈ group, (0 : Byte) ∉ text) :
  (amStrdup (group.getD [])).map (fun s => strstrip s.bytes) = m.result (k + 1)
    ↔ m.Answered (k + 1)
  := by
  rw [Match.result, Match.Answered, hgroup]
  cases group with
  | none => simp [amStrdup, Str.ofBytes, cstr]
  | some text =>
    rw [Option.getD_some, map_strstrip_amStrdup (hnul text rfl)]
    by_cases htext : text = []
    · simp [htext]
    · simp [htext]

section Results

variable {m : Match} (hcompile : pcre.compile pattern = some code) (hne : subject ≠ [])

include hcompile hne

/-- Without groups nothing is returned. -/
theorem Describes.eq_result_iff_of_no_groups (h : pcre.Describes code subject (some m) 0) :
  pcre.getRegExMatch (some pattern) subject 0 = some (m.result 0) ↔ m.Answered 0
  := by
  have hgroups := h.getRegExCaptureGroups_some hcompile hne
  have hnil : m.groups = [] := List.eq_nil_of_length_eq_zero (h.length_groups m rfl)
  rw [if_pos rfl] at hgroups
  rw [getRegExMatch_of_captured hgroups hne, if_neg (by omega)]
  simp [Match.result, Match.Answered, hnil]

/-- If no group took part, the strings are not listed. -/
theorem Describes.eq_result_iff_of_not_listed (h : pcre.Describes code subject (some m) c)
    (hc : c ≠ 0) (hzero : Match.highest m.groups = 0) (whichResult : ℕ) :
  pcre.getRegExMatch (some pattern) subject whichResult = some (m.result whichResult)
    ↔ m.Answered whichResult
  := by
  have hgroups := h.getRegExCaptureGroups_some hcompile hne
  rw [if_neg hc, if_pos hzero] at hgroups
  rw [getRegExMatch_of_captured hgroups hne]
  cases whichResult with
  | zero =>
    have hnone := Match.highest_eq_zero_iff.mp hzero
    have hnil : m.groups ≠ [] := by
      intro hnil
      rw [← h.length_groups m rfl, hnil] at hc
      apply hc rfl
    rw [if_pos (by omega)]
    simpa [Match.Answered, hnil] using hnone
  | succ k =>
    have hk : Match.highest m.groups ≤ k := by omega
    obtain ⟨hresult, hanswered⟩ := Match.answered_of_highest_le hk
    rw [if_neg (by omega), hresult]
    simp [hanswered]

/-- If a group took part, the strings up to the highest one that did are listed. -/
theorem Describes.eq_result_iff_of_listed (h : pcre.Describes code subject (some m) c)
    (hnul : (0 : Byte) ∉ subject) (hzero : Match.highest m.groups ≠ 0) (whichResult : ℕ) :
  pcre.getRegExMatch (some pattern) subject whichResult = some (m.result whichResult)
    ↔ m.Answered whichResult
  := by
  have hgroups := h.getRegExCaptureGroups_some hcompile hne
  have hlength := h.length_groups m rfl
  have hhighest := Match.highest_le_length m.groups
  rw [if_neg (by omega), if_neg hzero] at hgroups
  rw [getRegExMatch_of_captured hgroups hne]
  cases whichResult with
  | zero =>
    have hsome : ∃ group ∈ m.groups, group ≠ none := by
      by_contra hnone
      apply hzero
      apply Match.highest_eq_zero_iff.mpr
      simpa using hnone
    have hwhole : (0 : Byte) ∉ m.whole := fun hmem => hnul ((h.subset m rfl).1 hmem)
    rw [if_pos (by omega), Option.bind_some, Match.getElem?_strings_zero, Option.map_some,
      map_strstrip_amStrdup hwhole]
    simp only [Match.result, true_iff]
    apply Or.inr hsome
  | succ k =>
    by_cases hk : k < Match.highest m.groups
    · obtain ⟨group, hgroup⟩ : ∃ group, m.groups[k]? = some group :=
        ⟨_, List.getElem?_eq_getElem (by omega)⟩
      have hgroupNul : ∀ text ∈ group, (0 : Byte) ∉ text := by
        rintro text rfl hmem
        apply hnul ((h.subset m rfl).2 text (List.mem_of_getElem? hgroup) hmem)
      rw [if_pos (by omega), Option.bind_some, Match.getElem?_strings_succ m hk, hgroup,
        Option.map_some, Option.map_some, Option.some_inj]
      apply map_group_eq_iff hgroup hgroupNul
    · obtain ⟨hresult, hanswered⟩ := Match.answered_of_highest_le (not_lt.mp hk)
      rw [if_neg (by omega), hresult]
      simp [hanswered]

end Results

/-- The result is the documented one exactly if the match or the group can be asked for. -/
theorem getRegExMatch_eq_iff (hcompile : pcre.compile pattern = some code)
    (hne : subject ≠ []) (hnul : (0 : Byte) ∉ subject)
    (h : pcre.Describes code subject found c) {whichResult : ℕ} (hwhich : whichResult ≤ c) :
  pcre.getRegExMatch (some pattern) subject whichResult
      = some (found.bind fun m => m.result whichResult)
    ↔ ∀ m ∈ found, m.Answered whichResult
  := by
  cases found with
  | none =>
    obtain ⟨count, hcount, hgroups⟩ := h.getRegExCaptureGroups_none hcompile hne
    rw [getRegExMatch_of_captured hgroups hne, if_neg (by omega)]
    simp
  | some m =>
    rw [Option.bind_some]
    simp only [Option.mem_some_iff, forall_eq']
    rcases Nat.eq_zero_or_pos c with rfl | hc
    · obtain rfl := Nat.eq_zero_of_le_zero hwhich
      apply h.eq_result_iff_of_no_groups hcompile hne
    by_cases hzero : Match.highest m.groups = 0
    · apply h.eq_result_iff_of_not_listed hcompile hne hc.ne' hzero
    · apply h.eq_result_iff_of_listed hcompile hne hnul hzero

/-- A library that knows of each pattern the number of its groups and what it finds in a
subject. -/
def knowing (compiled : Bytes → Option (ℕ × (Bytes → Option Match))) : Pcre where
  Code := ℕ × (Bytes → Option Match)
  compile := compiled
  captureCount code := .ok code.1
  exec code subject ovecSize :=
    match code.2 subject with
    | none => -1
    | some m =>
      if ovecSize < 3 * (Match.highest m.groups + 1) then 0
      else (Match.highest m.groups + 1 : ℕ)
  substringList code subject _ count :=
    (code.2 subject).map fun m => m.strings count.toNat

theorem knowing_describes {compiled : Bytes → Option (ℕ × (Bytes → Option Match))}
    {code : ℕ × (Bytes → Option Match)} {subject : Bytes} {found : Option Match}
    (hfound : code.2 subject = found) (hlength : ∀ m ∈ found, m.groups.length = code.1)
    (hsubset : ∀ m ∈ found, m.whole ⊆ subject ∧ ∀ text, some text ∈ m.groups → text ⊆ subject) :
  (knowing compiled).Describes code subject found code.1
  := by
  subst hfound
  constructor
  · rfl
  · intro hnone ovecSize
    simp [knowing, hnone]
  · apply hlength
  · intro m hm ovecSize
    rw [Option.mem_def] at hm
    simp [knowing, hm]
  · intro m hm ovecSize _
    rw [Option.mem_def] at hm
    simp only [knowing, hm, Option.map_some]
    rfl
  · apply hsubset

/-- The pattern `a(b)?`, which finds `a` in the subject `a`. -/
def optionalGroup : ℕ × (Bytes → Option Match) :=
  (1, fun subject => if subject = text "a" then some ⟨text "a", [none]⟩ else none)

/-- The patterns `a` and `a(b)?`. -/
def optional : Pcre :=
  knowing fun pattern =>
    if pattern = text "a(b)?" then some optionalGroup
    else if pattern = text "a" then
      some (0, fun subject => if subject = text "a" then some ⟨text "a", []⟩ else none)
    else none

theorem optional_describes :
  optional.Describes optionalGroup (text "a") (some ⟨text "a", [none]⟩) 1
  := by
  apply knowing_describes
  · rfl
  · simp [optionalGroup]
  · simp

theorem getRegExMatch_optional_iff :
  optional.getRegExMatch (some (text "a(b)?")) (text "a") 1
      = some ((some (⟨text "a", [none]⟩ : Match)).bind fun m => m.result 1)
    ↔ ∀ m ∈ some (⟨text "a", [none]⟩ : Match), m.Answered 1
  := getRegExMatch_eq_iff (by rfl) (by decide) (by decide) optional_describes (by decide)

/-- Without groups the text of the match is not returned, and without a group that took
part it is read from a list that was not filled. -/
theorem getRegExMatch_optional :
  optional.getRegExMatch (some (text "a")) (text "a") 0
      ≠ some (Match.result ⟨text "a", []⟩ 0)
    ∧ optional.getRegExMatch (some (text "a(b)?")) (text "a") 0
      ≠ some (Match.result ⟨text "a", [none]⟩ 0)
  := by decide +kernel

end Pcre

end Trailermatic
