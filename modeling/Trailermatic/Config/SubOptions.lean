import Mathlib.Data.List.GetD
import Trailermatic.Config.Options
import Trailermatic.Library.While

/-!
# Suboptions of any length

`parseSubOption` goes through a line with an index that is a `uint32_t`.  It copies one byte
less than there are in front of the `=>`, a number that is converted to an `int`, and what is
behind it, whose length is narrowed to an `int` as well.  Here the call is followed with all
that it leaves.  `parseSubOption_iff` says for which lines the name and the parameter come out,
whatever their length.
-/

namespace Trailermatic

/-- A turn of the loop over a line: it ends at the end of the line, and with the index of
an arrow. -/
def subOptionTurn (line : Bytes) (i : ℕ) : Turn ℕ (Option ℕ) :=
  if line.getD i 0 = 0 then .done none
  else if line.getD i 0 = equals ∧ line.getD ((i + 1) % 4294967296) 0 = 62 then .done (some i)
  else .next ((i + 1) % 4294967296)

/-- `i - 1`, a `uint32_t`, as the `int` that `am_strndup` is given. -/
def nameLength (i : ℕ) : ℤ :=
  Int.bmod ((i : ℤ) - 1) 4294967296

/-- A `size_t` as an `int`. -/
def narrow (n : ℕ) : ℤ :=
  Int.bmod n 4294967296

/-- A copy of `len` bytes into a block of `len + 1`: neither number is negative as an `int`. -/
def Copyable (len : ℤ) : Prop :=
  0 ≤ len ∧ len < INT_MAX

instance (len : ℤ) : Decidable (Copyable len) :=
  inferInstanceAs (Decidable (_ ∧ _))

/-- `am_strndup` with a length that is an `int`.  There is no value where a negative number of
bytes is copied, or where `len + 1` is no `int`. -/
def copyPart (str : Bytes) (len : ℤ) : Option (Option Bytes) :=
  if cstr str = [] then some none
  else if Copyable len then some (amStrndup str len.toNat)
  else none

/-- `am_strdup`, with the length that it gives to `am_strndup`. -/
def copyWhole (str : Bytes) : Option (Option Bytes) :=
  copyPart str (narrow (strlen str))

/-- What a call returns, and what it leaves in `*option` and `*param`. -/
structure SubOption where
  ret : ℤ
  option : Option Bytes
  param : Option Bytes
deriving DecidableEq

/-- What is done after the loop. -/
def subOptionResult (line : Bytes) : Option ℕ → Option SubOption
  | none => some ⟨-1, none, none⟩
  | some i => do
    let option ← copyPart line (nameLength i)
    let param ← copyWhole (line.drop (i + 2))
    return ⟨if option.isSome ∧ param.isSome then 0 else -1, option, param⟩

/-- The call for a line comes to its end. -/
def Returns (line : Bytes) (result : SubOption) : Prop :=
  ∃ found, While.Ends (subOptionTurn line) 0 found ∧ subOptionResult line found = some result

/-- The call asks for no copy of a negative length, and for no block of a negative size. -/
def CopiesNonneg (line : Bytes) : Prop :=
  ∀ i, While.Ends (subOptionTurn line) 0 (some i) →
    Copyable (nameLength i) ∧ Copyable (narrow (strlen (line.drop (i + 2))))

/-! ### The first arrow -/

theorem splitArrow_of_none {line : Bytes} (h : ¬ [equals, 62] <:+: line) :
  splitArrow line = none
  := by
  induction line with
  | nil => rfl
  | cons b line ih =>
    have hrest : ¬ [equals, 62] <:+: line :=
      fun hin => h (hin.trans (List.infix_cons (List.infix_refl line)))
    have harrow : ¬ (b = equals ∧ line.head? = some 62) := by
      rintro ⟨rfl, hhead⟩
      cases line with
      | nil => cases hhead
      | cons c line =>
        cases hhead
        exact h ⟨[], line, rfl⟩
    rw [splitArrow, if_neg harrow, ih hrest]
    rfl

/-- No arrow stands in front of the first one. -/
theorem length_le_of_arrow {line before after : Bytes} {i : ℕ}
    (h : splitArrow line = some (before, after)) (hequals : line.getD i 0 = equals)
    (harrow : line.getD (i + 1) 0 = 62) :
  before.length ≤ i
  := by
  induction line generalizing before i with
  | nil => cases h
  | cons b line ih =>
    rw [splitArrow] at h
    split_ifs at h with hfirst
    · cases h
      apply Nat.zero_le
    · obtain ⟨⟨before', after'⟩, hsplit, heq⟩ := Option.map_eq_some_iff.mp h
      cases heq
      cases i with
      | zero =>
        cases line with
        | nil => cases harrow
        | cons c line =>
          cases harrow
          exact absurd ⟨hequals, rfl⟩ hfirst
      | succ i => exact Nat.succ_le_succ (ih hsplit hequals harrow)

/-! ### The loop -/

theorem getD_length_append (part : Bytes) (b : Byte) (line : Bytes) :
  (part ++ b :: line).getD part.length 0 = b
  := by
  rw [List.getD_append_right _ _ _ _ (Nat.le_refl _), Nat.sub_self, List.getD_cons_zero]

theorem getD_succ_length_append (part : Bytes) (b : Byte) (line : Bytes) :
  (part ++ b :: line).getD (part.length + 1) 0 = line.getD 0 0
  := by
  rw [List.getD_append_right _ _ _ _ (Nat.le_add_right _ 1), Nat.add_sub_cancel_left,
    List.getD_cons_succ]

/-- In front of the first arrow, the loop goes on. -/
theorem subOptionTurn_next {part line : Bytes} {b : Byte} (hnul : b ≠ 0)
    (harrow : ¬ (b = equals ∧ line.head? = some 62))
    (h : part.length + 1 < 4294967296) :
  subOptionTurn (part ++ b :: line) part.length = .next (part ++ [b]).length
  := by
  have hhead : ¬ (b = equals ∧ line.getD 0 0 = 62) := by
    rintro ⟨hb, hline⟩
    apply harrow ⟨hb, _⟩
    cases line with
    | nil => cases hline
    | cons c line => exact congrArg some hline
  rw [subOptionTurn, Nat.mod_eq_of_lt h, getD_length_append, getD_succ_length_append,
    if_neg hnul, if_neg hhead, List.length_append, List.length_singleton]

/-- The loop finds an arrow that its index can reach. -/
theorem ends_of_splitArrow (part : Bytes) {line before after : Bytes}
    (hnul : (0 : Byte) ∉ line) (hsplit : splitArrow line = some (before, after))
    (h : part.length + before.length + 1 < 4294967296) :
  While.Ends (subOptionTurn (part ++ line)) part.length (some (part.length + before.length))
  := by
  induction line generalizing part before with
  | nil => cases hsplit
  | cons b line ih =>
    rw [List.mem_cons, not_or] at hnul
    rw [splitArrow] at hsplit
    split_ifs at hsplit with harrow
    · cases hsplit
      obtain ⟨rfl, hhead⟩ := harrow
      cases line with
      | nil => cases hhead
      | cons c line =>
        cases hhead
        rw [List.length_nil, Nat.add_zero] at h ⊢
        apply While.Ends.done
        rw [subOptionTurn, Nat.mod_eq_of_lt h, getD_length_append, getD_succ_length_append,
          if_neg (by decide), if_pos ⟨rfl, rfl⟩]
    · obtain ⟨⟨before', after'⟩, hrest, heq⟩ := Option.map_eq_some_iff.mp hsplit
      cases heq
      rw [List.length_cons] at h
      apply While.Ends.next (subOptionTurn_next (Ne.symm hnul.1) harrow (by omega))
      have hends := ih (part ++ [b]) hnul.2 hrest (by
        rw [List.length_append, List.length_singleton]
        omega)
      rw [List.append_assoc, List.singleton_append] at hends
      have hlength : (part ++ [b]).length + before'.length
          = part.length + (b :: before').length := by
        rw [List.length_append, List.length_singleton, List.length_cons]
        omega
      rw [← hlength]
      apply hends

/-- The loop ends at the end of a line without an arrow that its index can reach. -/
theorem ends_of_no_arrow (part : Bytes) {line : Bytes} (hnul : (0 : Byte) ∉ line)
    (hsplit : splitArrow line = none) (h : part.length + line.length < 4294967296) :
  While.Ends (subOptionTurn (part ++ line)) part.length none
  := by
  induction line generalizing part with
  | nil =>
    apply While.Ends.done
    rw [List.append_nil, subOptionTurn, List.getD_eq_default _ _ (Nat.le_refl _), if_pos rfl]
  | cons b line ih =>
    rw [List.mem_cons, not_or] at hnul
    rw [List.length_cons] at h
    rw [splitArrow] at hsplit
    split_ifs at hsplit with harrow
    apply While.Ends.next (subOptionTurn_next (Ne.symm hnul.1) harrow (by omega))
    have hends := ih (part ++ [b]) hnul.2 (Option.map_eq_none_iff.mp hsplit) (by
      rw [List.length_append, List.length_singleton]
      omega)
    rw [List.append_assoc, List.singleton_append] at hends
    apply hends

theorem ends_arrow {line before after : Bytes} (hnul : (0 : Byte) ∉ line)
    (hsplit : splitArrow line = some (before, after)) (h : before.length + 1 < 4294967296) :
  While.Ends (subOptionTurn line) 0 (some before.length)
  := by
  have hends := ends_of_splitArrow [] hnul hsplit (by
    rw [List.length_nil]
    omega)
  rw [List.length_nil, Nat.zero_add, List.nil_append] at hends
  apply hends

theorem ends_line {line : Bytes} (hnul : (0 : Byte) ∉ line) (hsplit : splitArrow line = none)
    (h : line.length < 4294967296) :
  While.Ends (subOptionTurn line) 0 none
  := by
  have hends := ends_of_no_arrow [] hnul hsplit (by
    rw [List.length_nil]
    omega)
  rw [List.length_nil, List.nil_append] at hends
  apply hends

theorem subOptionTurn_lt {line : Bytes} {i i' : ℕ} (h : subOptionTurn line i = .next i') :
  i' < 4294967296
  := by
  rw [subOptionTurn] at h
  split_ifs at h
  cases h
  apply Nat.mod_lt
  decide

/-- Where the loop stops. -/
theorem exists_subOptionTurn {line : Bytes} {found : Option ℕ}
    (h : While.Ends (subOptionTurn line) 0 found) :
  ∃ i < 4294967296, subOptionTurn line i = .done found
  := h.invariant (I := (· < 4294967296)) (by decide) fun _ _ _ hturn => subOptionTurn_lt hturn

theorem of_ends_some {line : Bytes} {i : ℕ} (h : While.Ends (subOptionTurn line) 0 (some i)) :
  i < 4294967296 ∧ line.getD i 0 = equals ∧ line.getD ((i + 1) % 4294967296) 0 = 62
  := by
  obtain ⟨j, hlt, hturn⟩ := exists_subOptionTurn h
  rw [subOptionTurn] at hturn
  split_ifs at hturn with hend harrow
  · cases hturn
  · cases hturn
    exact ⟨hlt, harrow⟩

theorem of_ends_none {line : Bytes} (hnul : (0 : Byte) ∉ line)
    (h : While.Ends (subOptionTurn line) 0 none) :
  line.length < 4294967296
  := by
  obtain ⟨i, hlt, hturn⟩ := exists_subOptionTurn h
  rw [subOptionTurn] at hturn
  split_ifs at hturn with hend harrow
  · by_contra hlong
    have hi : i < line.length := by omega
    rw [List.getD_eq_getElem _ _ hi] at hend
    apply hnul
    rw [← hend]
    apply List.getElem_mem
  · cases hturn

/-! ### The copies -/

/-- There is a byte in front of the arrow, and not too many. -/
theorem copyable_nameLength_iff {i : ℕ} (h : i < 4294967296) :
  Copyable (nameLength i) ↔ 1 ≤ i ∧ i ≤ INT_MAX
  := by
  rw [Copyable, nameLength, Int.bmod_def]
  simp only [INT_MAX]
  split_ifs
  · omega
  · omega

theorem toNat_nameLength {i : ℕ} (hpos : 1 ≤ i) (h : i ≤ INT_MAX) :
  (nameLength i).toNat = i - 1
  := by
  rw [nameLength, Int.bmod_def]
  simp only [INT_MAX] at h
  split_ifs
  · omega
  · omega

theorem copyable_narrow_iff (n : ℕ) :
  Copyable (narrow n) ↔ n % 4294967296 < INT_MAX
  := by
  unfold Copyable narrow
  rw [Int.bmod_def]
  simp only [INT_MAX]
  split_ifs
  · omega
  · omega

theorem toNat_narrow {n : ℕ} (h : Copyable (narrow n)) :
  (narrow n).toNat = n % 4294967296
  := by
  unfold Copyable narrow at h
  unfold narrow
  rw [Int.bmod_def] at h ⊢
  split_ifs at h ⊢
  · omega
  · omega

theorem copyPart_of_copyable {str : Bytes} (hne : cstr str ≠ []) {len : ℤ} (h : Copyable len) :
  copyPart str len = some (some (str.take len.toNat))
  := by
  rw [copyPart, if_neg hne, if_pos h, amStrndup, if_neg hne]

theorem copyable_of_copyPart {str : Bytes} (hne : cstr str ≠ []) {len : ℤ} {copy : Option Bytes}
    (h : copyPart str len = some copy) :
  Copyable len
  := by
  rw [copyPart, if_neg hne] at h
  split_ifs at h with hlen
  exact hlen

theorem cstr_ne_nil {str : Bytes} (hnul : (0 : Byte) ∉ str) (hne : str ≠ []) :
  cstr str ≠ []
  := by
  rw [cstr_of_notMem hnul]
  exact hne

/-- The copy of a string of an `int` length is the one that `amStrdup` gives. -/
theorem copyWhole_eq_amStrdup {str : Bytes} (hnul : (0 : Byte) ∉ str) (h : str.length < INT_MAX) :
  copyWhole str = some ((amStrdup str).map Str.bytes)
  := by
  rw [copyWhole, amStrdup, Str.ofBytes]
  by_cases hempty : cstr str = []
  · rw [copyPart, if_pos hempty, dif_pos hempty]
    rfl
  · have hmod : strlen str % 4294967296 = str.length := by
      rw [strlen, cstr_of_notMem hnul]
      simp only [INT_MAX] at h
      omega
    have hcopyable : Copyable (narrow (strlen str)) := by
      rw [copyable_narrow_iff, hmod]
      exact h
    rw [copyPart_of_copyable hempty hcopyable, toNat_narrow hcopyable, hmod, List.take_length,
      dif_neg hempty, Option.map_some]
    simp only [cstr_of_notMem hnul]

/-- A longer string does not come out as a whole. -/
theorem length_lt_of_copyWhole {str : Bytes} (hnul : (0 : Byte) ∉ str) (hne : str ≠ [])
    (h : copyWhole str = some (some str)) :
  str.length < INT_MAX
  := by
  have hne' := cstr_ne_nil hnul hne
  have hcopyable := copyable_of_copyPart hne' h
  rw [copyWhole, copyPart_of_copyable hne' hcopyable, toNat_narrow hcopyable] at h
  have hmod := (copyable_narrow_iff _).mp hcopyable
  rw [strlen, cstr_of_notMem hnul] at h hmod
  have hlength := congrArg List.length (Option.some.inj (Option.some.inj h))
  rw [List.length_take] at hlength
  omega

/-- What is left after an arrow that the copy of the name fits. -/
theorem subOptionResult_some {line : Bytes} (hnul : (0 : Byte) ∉ line) (hne : line ≠ []) {i : ℕ}
    (hpos : 1 ≤ i) (h : i ≤ INT_MAX) :
  subOptionResult line (some i)
    = (copyWhole (line.drop (i + 2))).map fun param =>
      ⟨if param.isSome then 0 else -1, some (line.take (i - 1)), param⟩
  := by
  have hcopyable : Copyable (nameLength i) := by
    apply (copyable_nameLength_iff _).mpr ⟨hpos, h⟩
    rw [INT_MAX] at h
    omega
  rw [subOptionResult, copyPart_of_copyable (cstr_ne_nil hnul hne) hcopyable,
    toNat_nameLength hpos h]
  cases copyWhole (line.drop (i + 2)) with
  | none => rfl
  | some param => simp

/-- A name that was copied was in no copy of negative length. -/
theorem copyable_of_result {line : Bytes} (hnul : (0 : Byte) ∉ line) (hne : line ≠ []) {i : ℕ}
    {result : SubOption} (h : subOptionResult line (some i) = some result) :
  Copyable (nameLength i)
  := by
  obtain ⟨option, hoption, -⟩ := Option.bind_eq_some_iff.mp h
  exact copyable_of_copyPart (cstr_ne_nil hnul hne) hoption

theorem returns_iff {line : Bytes} {found : Option ℕ}
    (h : While.Ends (subOptionTurn line) 0 found) (result : SubOption) :
  Returns line result ↔ subOptionResult line found = some result
  := by
  constructor
  · rintro ⟨found', h', hresult⟩
    rw [h.unique h', hresult]
  · intro hresult
    exact ⟨found, h, hresult⟩

theorem copiesNonneg_iff {line : Bytes} {i : ℕ}
    (h : While.Ends (subOptionTurn line) 0 (some i)) :
  CopiesNonneg line ↔ Copyable (nameLength i) ∧ Copyable (narrow (strlen (line.drop (i + 2))))
  := by
  constructor
  · intro hline
    apply hline i h
  · intro hcopyable j hj
    cases h.unique hj
    exact hcopyable

/-- What is behind the arrow. -/
theorem drop_of_splitArrow {line before after : Bytes}
    (hsplit : splitArrow line = some (before, after)) :
  line.drop (before.length + 2) = after
  := by
  rw [eq_of_splitArrow hsplit, List.drop_append]
  simp

theorem notMem_of_splitArrow {line before after : Bytes} (hnul : (0 : Byte) ∉ line)
    (hsplit : splitArrow line = some (before, after)) :
  (0 : Byte) ∉ after
  := by
  rw [← drop_of_splitArrow hsplit]
  intro h
  apply hnul (List.mem_of_mem_drop h)

/-- The call for a line with an arrow that an `int` can count to. -/
theorem returns_of_splitArrow {line before after : Bytes} (hnul : (0 : Byte) ∉ line)
    (hsplit : splitArrow line = some (before, after)) (hne : before ≠ [])
    (h : before.length ≤ INT_MAX) (result : SubOption) :
  Returns line result ↔ (copyWhole after).map
      (fun param => ⟨if param.isSome then 0 else -1, some before.dropLast, param⟩) = some result
  := by
  have hpos : 1 ≤ before.length := List.length_pos_iff.mpr hne
  have hends := ends_arrow hnul hsplit (by
    rw [INT_MAX] at h
    omega)
  have hline := eq_of_splitArrow hsplit
  have hlineNe : line ≠ [] := by
    rw [hline]
    simp
  have hname : line.take (before.length - 1) = before.dropLast := by
    rw [hline, List.take_append_of_le_length (Nat.sub_le _ _), List.dropLast_eq_take]
  rw [returns_iff hends, subOptionResult_some hnul hlineNe hpos h, hname,
    drop_of_splitArrow hsplit]

/-! ### Lines that an `int` can hold -/

/-- Both copies are asked for with the lengths of the parts. -/
theorem copiesNonneg_of_splitArrow {line before after : Bytes} (hnul : (0 : Byte) ∉ line)
    (hsplit : splitArrow line = some (before, after)) (hne : before ≠ [])
    (h : before.length ≤ INT_MAX) (hafter : after.length < INT_MAX) :
  CopiesNonneg line
  := by
  have hpos : 1 ≤ before.length := List.length_pos_iff.mpr hne
  have hlt : before.length + 1 < 4294967296 := by
    rw [INT_MAX] at h
    omega
  apply (copiesNonneg_iff (ends_arrow hnul hsplit hlt)).mpr
  constructor
  · apply (copyable_nameLength_iff (by omega)).mpr ⟨hpos, h⟩
  · rw [drop_of_splitArrow hsplit, copyable_narrow_iff, strlen,
      cstr_of_notMem (notMem_of_splitArrow hnul hsplit)]
    apply Nat.lt_of_le_of_lt (Nat.mod_le _ _) hafter

/-- Without a byte in front of the arrow, the length of the name is negative. -/
theorem not_copiesNonneg {line after : Bytes} (hnul : (0 : Byte) ∉ line)
    (hsplit : splitArrow line = some ([], after)) :
  ¬ CopiesNonneg line
  := by
  have hzero : ¬ Copyable (nameLength ([] : Bytes).length) := by decide
  intro h
  apply hzero ((copiesNonneg_iff (ends_arrow hnul hsplit (by decide))).mp h).1

/-- The call does what `parseSubOption` says. -/
theorem parseSubOption_eq_some_iff {line : Bytes} (hnul : (0 : Byte) ∉ line)
    (h : line.length ≤ 2147483648) (option : Bytes) (param : Str) :
  parseSubOption line = some (some (option, param))
    ↔ CopiesNonneg line ∧ Returns line ⟨0, some option, some param.bytes⟩
  := by
  cases hsplit : splitArrow line with
  | none =>
    rw [returns_iff (ends_line hnul hsplit (by omega)), parseSubOption, hsplit]
    simp [subOptionResult]
  | some parts =>
    obtain ⟨before, after⟩ := parts
    have hline := length_splitArrow hsplit
    cases before with
    | nil =>
      rw [parseSubOption, hsplit]
      simp [not_copiesNonneg hnul hsplit]
    | cons b before =>
      have hne : b :: before ≠ [] := List.cons_ne_nil b before
      have hbefore : (b :: before).length ≤ INT_MAX := by
        rw [INT_MAX]
        omega
      have hafter : after.length < INT_MAX := by
        rw [List.length_cons] at hline
        rw [INT_MAX]
        omega
      rw [returns_of_splitArrow hnul hsplit hne hbefore, parseSubOption, hsplit,
        copyWhole_eq_amStrdup (notMem_of_splitArrow hnul hsplit) hafter]
      simp only [copiesNonneg_of_splitArrow hnul hsplit hne hbefore hafter, true_and]
      cases amStrdup after with
      | none => simp
      | some param' =>
        simp only [Option.map_some, Option.some.injEq, Prod.mk.injEq, SubOption.mk.injEq]
        constructor
        · rintro ⟨rfl, rfl⟩
          simp
        · rintro ⟨-, hname, hparam⟩
          exact ⟨hname, Str.ext hparam⟩

/-- It has no value where a negative number of bytes is copied. -/
theorem parseSubOption_eq_none_iff {line : Bytes} (hnul : (0 : Byte) ∉ line)
    (h : line.length ≤ 2147483648) :
  parseSubOption line = none ↔ ¬ CopiesNonneg line
  := by
  cases hsplit : splitArrow line with
  | none =>
    have hnonneg : CopiesNonneg line := by
      intro i hi
      cases hi.unique (ends_line hnul hsplit (by omega))
    rw [parseSubOption, hsplit]
    simp [hnonneg]
  | some parts =>
    obtain ⟨before, after⟩ := parts
    have hline := length_splitArrow hsplit
    cases before with
    | nil =>
      rw [parseSubOption, hsplit]
      simp [not_copiesNonneg hnul hsplit]
    | cons b before =>
      have hnonneg : CopiesNonneg line := by
        rw [List.length_cons] at hline
        apply copiesNonneg_of_splitArrow hnul hsplit (List.cons_ne_nil b before)
        · rw [INT_MAX, List.length_cons]
          omega
        · rw [INT_MAX]
          omega
      rw [parseSubOption, hsplit]
      simp [hnonneg]

/-! ### The names that the callers know -/

/-- The name that a suboption begins with, out of those that a caller compares it with. -/
def recognise (names : List Bytes) (option : Bytes) : Option Bytes :=
  names.find? fun name => name.isPrefixOf option

/-- The names of the suboptions of a filter. -/
def filterNames : List Bytes :=
  [text "pattern", text "useragent"]

/-- The names of the suboptions of a feed. -/
def feedNames : List Bytes :=
  [text "url", text "cookies"]

/-- Comparing with one name after the other is recognising one of them. -/
theorem ite_recognise {γ : Type*} {a b : Bytes} (hne : a ≠ b) (option : Bytes) (x y z : γ) :
  (if a.isPrefixOf option then x else if b.isPrefixOf option then y else z)
    = if recognise [a, b] option = some a then x
      else if recognise [a, b] option = some b then y else z
  := by
  rw [recognise, List.find?_cons, List.find?_cons, List.find?_nil]
  cases a.isPrefixOf option with
  | true => simp
  | false =>
    cases b.isPrefixOf option with
    | true => simp [hne.symm]
    | false => simp

/-- What `parseFilter` makes of a line depends on the name it recognises. -/
theorem parseFilterLine_congr {line line' option option' : Bytes} {param : Str}
    (h : parseSubOption line = some (some (option, param)))
    (h' : parseSubOption line' = some (some (option', param)))
    (hname : recognise filterNames option = recognise filterNames option') (filter : Filter) :
  parseFilterLine filter line = parseFilterLine filter line'
  := by
  have hne : text "pattern" ≠ text "useragent" := by decide
  rw [filterNames] at hname
  rw [parseFilterLine, parseFilterLine, h, h']
  simp only
  rw [ite_recognise hne option, ite_recognise hne option', hname]

/-- And so it is with `parseFeed`. -/
theorem parseFeedLine_congr {line line' option option' : Bytes} {param : Str}
    (h : parseSubOption line = some (some (option, param)))
    (h' : parseSubOption line' = some (some (option', param)))
    (hname : recognise feedNames option = recognise feedNames option') (feed : RssFeed) :
  parseFeedLine feed line = parseFeedLine feed line'
  := by
  have hne : text "url" ≠ text "cookies" := by decide
  rw [feedNames] at hname
  rw [parseFeedLine, parseFeedLine, h, h']
  simp only
  rw [ite_recognise hne option, ite_recognise hne option', hname]

theorem isPrefixOf_append_blank {name option blanks : Bytes}
    (hname : ∀ b ∈ name, isspace b = false) (hblanks : Blank blanks) :
  name.isPrefixOf (option ++ blanks) = name.isPrefixOf option
  := by
  induction name generalizing option with
  | nil => rfl
  | cons b name ih =>
    rw [List.forall_mem_cons] at hname
    cases option with
    | nil =>
      cases blanks with
      | nil => rfl
      | cons c blanks =>
        have hne : b ≠ c := by
          rintro rfl
          rw [hblanks b List.mem_cons_self] at hname
          cases hname.1
        rw [List.nil_append, List.isPrefixOf_cons_cons, beq_eq_false_iff_ne.mpr hne]
        rfl
    | cons c option =>
      rw [List.cons_append, List.isPrefixOf, List.isPrefixOf, ih hname.2]

theorem recognise_append_blank {names : List Bytes} {option blanks : Bytes}
    (hnames : (names.all fun name => name.all fun b => !isspace b) = true)
    (hblanks : Blank blanks) :
  recognise names (option ++ blanks) = recognise names option
  := by
  induction names with
  | nil => rfl
  | cons name names ih =>
    rw [List.all_cons, Bool.and_eq_true, List.all_eq_true] at hnames
    have hname : ∀ b ∈ name, isspace b = false := by
      intro b hb
      simpa using hnames.1 b hb
    have hrest := ih hnames.2
    rw [recognise] at hrest ⊢
    rw [List.find?_cons, isPrefixOf_append_blank hname hblanks, hrest, recognise, recognise,
      List.find?_cons]

/-! ### Names, blanks and parameters -/

/-- A line with a suboption: a name, blanks, the arrow and a parameter. -/
structure SubOptionLine where
  name : Bytes
  blanks : Bytes
  param : Str
  nul_notMem : (0 : Byte) ∉ name
  no_arrow : ¬ [equals, 62] <:+: name
  name_end : ∀ b, name.getLast? = some b → isspace b = false
  blank : ∀ b ∈ blanks, b = 32 ∨ b = 9

namespace SubOptionLine

variable (l : SubOptionLine)

def line : Bytes :=
  l.name ++ l.blanks ++ equals :: 62 :: l.param.bytes

/-- The name and the parameter come out, and both callers know the name as what it is. -/
def IsSplit : Prop :=
  CopiesNonneg l.line ∧ (l.name ≠ [] →
    ∃ rest, Blank rest ∧ Returns l.line ⟨0, some (l.name ++ rest), some l.param.bytes⟩
      ∧ recognise filterNames (l.name ++ rest) = recognise filterNames l.name
      ∧ recognise feedNames (l.name ++ rest) = recognise feedNames l.name)

/-- There is a blank in front of the arrow, and an `int` can hold the sizes of both copies. -/
def Spaced : Prop :=
  l.blanks ≠ [] ∧ (l.name ++ l.blanks).length ≤ INT_MAX ∧ l.param.bytes.length < INT_MAX

/-- There is no name, but a blank in front of the arrow, and the lengths as they are narrowed are
not negative. -/
def Unnamed : Prop :=
  l.name = [] ∧ l.blanks ≠ [] ∧ l.blanks.length ≤ INT_MAX
    ∧ l.param.bytes.length % 4294967296 < INT_MAX

/-- There is no name, and the index starts anew before it comes to the arrow. -/
def Endless : Prop :=
  l.name = [] ∧ 4294967295 ≤ l.blanks.length

theorem splitArrow_line :
  splitArrow l.line = some (l.name ++ l.blanks, l.param.bytes)
  := by
  apply splitArrow_of_not_infix
  have hblanks : (62 : Byte) ∉ l.blanks := by
    intro h
    rcases l.blank 62 h with h | h
    · cases h
    · cases h
  rw [List.infix_append_iff_ne_nil]
  rintro (hname | harrow | ⟨begins, ends, hbegins, hends, hsplit, -, hstart⟩)
  · apply l.no_arrow hname
  · apply hblanks (harrow.subset (by decide))
  · apply hblanks (hstart.subset _)
    rcases begins with _ | ⟨a, _ | ⟨b, begins⟩⟩
    · exact absurd rfl hbegins
    · cases hsplit
      exact List.mem_singleton_self 62
    · obtain ⟨-, hends'⟩ := List.append_eq_nil_iff.mp
        (List.cons.inj (List.cons.inj hsplit).2).2.symm
      exact absurd hends' hends

theorem nul_notMem_line :
  (0 : Byte) ∉ l.line
  := by
  have hblanks : (0 : Byte) ∉ l.blanks := by
    intro h
    rcases l.blank 0 h with h | h
    · cases h
    · cases h
  simp only [line, List.mem_append, List.mem_cons, not_or]
  exact ⟨⟨l.nul_notMem, hblanks⟩, by decide, by decide, l.param.nul_notMem⟩

theorem line_ne_nil :
  l.line ≠ []
  := by
  simp [line]

variable {l}

/-- What the call leaves for a line that has a blank in front of the arrow. -/
theorem Spaced.returns (h : l.Spaced) :
  Returns l.line ⟨0, some (l.name ++ l.blanks.dropLast), some l.param.bytes⟩
  := by
  have hne : l.name ++ l.blanks ≠ [] := List.append_ne_nil_of_right_ne_nil _ h.1
  rw [returns_of_splitArrow l.nul_notMem_line l.splitArrow_line hne h.2.1,
    copyWhole_eq_amStrdup l.param.nul_notMem h.2.2, amStrdup, Str.ofBytes_bytes,
    List.dropLast_append_of_ne_nil h.1]
  rfl

theorem Spaced.copiesNonneg (h : l.Spaced) :
  CopiesNonneg l.line
  := copiesNonneg_of_splitArrow l.nul_notMem_line l.splitArrow_line
    (List.append_ne_nil_of_right_ne_nil _ h.1) h.2.1 h.2.2

/-- The loop finds nothing else than the arrow. -/
theorem length_le_of_ends {i : ℕ} (h : While.Ends (subOptionTurn l.line) 0 (some i))
    (hcopyable : Copyable (nameLength i)) :
  (l.name ++ l.blanks).length ≤ i ∧ i ≤ INT_MAX
  := by
  obtain ⟨hlt, hequals, harrow⟩ := of_ends_some h
  obtain ⟨-, hle⟩ := (copyable_nameLength_iff hlt).mp hcopyable
  have hnext : i + 1 < 4294967296 := by
    rw [INT_MAX] at hle
    omega
  rw [Nat.mod_eq_of_lt hnext] at harrow
  exact ⟨length_le_of_arrow l.splitArrow_line hequals harrow, hle⟩

theorem blank_blanks :
  Blank l.blanks
  := by
  intro b hb
  rcases l.blank b hb with rfl | rfl
  · rfl
  · rfl

theorem Spaced.isSplit (h : l.Spaced) :
  l.IsSplit
  := by
  have hrest : Blank l.blanks.dropLast :=
    fun b hb => blank_blanks b ((List.dropLast_sublist _).subset hb)
  refine ⟨h.copiesNonneg, fun _ => ⟨l.blanks.dropLast, hrest, h.returns, ?_, ?_⟩⟩
  · apply recognise_append_blank (by decide) hrest
  · apply recognise_append_blank (by decide) hrest

/-- The copies for a line whose arrow the index reaches. -/
theorem copiesNonneg_iff_lengths (h : (l.name ++ l.blanks).length + 1 < 4294967296) :
  CopiesNonneg l.line ↔ (1 ≤ (l.name ++ l.blanks).length ∧ (l.name ++ l.blanks).length ≤ INT_MAX)
    ∧ l.param.bytes.length % 4294967296 < INT_MAX
  := by
  rw [copiesNonneg_iff (ends_arrow l.nul_notMem_line l.splitArrow_line h),
    copyable_nameLength_iff (by omega), drop_of_splitArrow l.splitArrow_line,
    copyable_narrow_iff, strlen, cstr_of_notMem l.param.nul_notMem]

theorem Unnamed.isSplit (h : l.Unnamed) :
  l.IsSplit
  := by
  obtain ⟨hname, hblanks, hlength, hparam⟩ := h
  refine ⟨?_, fun hne => absurd hname hne⟩
  have heq : (l.name ++ l.blanks).length = l.blanks.length := by
    rw [hname, List.nil_append]
  rw [copiesNonneg_iff_lengths, heq]
  · exact ⟨⟨List.length_pos_iff.mpr hblanks, hlength⟩, hparam⟩
  · rw [heq]
    rw [INT_MAX] at hlength
    omega

theorem isspace_getD (h : l.name = []) {i : ℕ} (hi : i < l.blanks.length) :
  isspace (l.line.getD i 0) = true
  := by
  rw [line, h, List.nil_append, List.getD_append _ _ _ _ hi, List.getD_eq_getElem _ _ hi]
  apply blank_blanks
  apply List.getElem_mem

/-- The loop over a line whose arrow is out of reach never finds one. -/
theorem Endless.isSplit (h : l.Endless) :
  l.IsSplit
  := by
  obtain ⟨hname, hlong⟩ := h
  refine ⟨?_, fun hne => absurd hname hne⟩
  intro i hi
  obtain ⟨hlt, hequals, harrow⟩ := of_ends_some hi
  by_cases hblank : i < l.blanks.length
  · have hspace := isspace_getD hname hblank
    rw [hequals] at hspace
    cases hspace
  · obtain rfl : i = 4294967295 := by omega
    have hspace := isspace_getD hname (i := 0) (by omega)
    rw [Nat.mod_self] at harrow
    rw [harrow] at hspace
    cases hspace

theorem IsSplit.unnamed_or_endless (h : l.IsSplit) (hname : l.name = []) :
  l.Unnamed ∨ l.Endless
  := by
  by_cases hlong : 4294967295 ≤ l.blanks.length
  · right
    exact ⟨hname, hlong⟩
  · left
    have heq : (l.name ++ l.blanks).length = l.blanks.length := by
      rw [hname, List.nil_append]
    have hcopies := h.1
    rw [copiesNonneg_iff_lengths (by omega), heq] at hcopies
    exact ⟨hname, List.ne_nil_of_length_pos hcopies.1.1, hcopies.1.2, hcopies.2⟩

theorem IsSplit.spaced (h : l.IsSplit) (hname : l.name ≠ []) :
  l.Spaced
  := by
  obtain ⟨rest, -, ⟨found, hends, hresult⟩, -⟩ := h.2 hname
  cases found with
  | none => cases hresult
  | some i =>
    have hcopyable := copyable_of_result l.nul_notMem_line l.line_ne_nil hresult
    obtain ⟨harrow, hle⟩ := length_le_of_ends hends hcopyable
    have hcall := (returns_of_splitArrow l.nul_notMem_line l.splitArrow_line
      (List.append_ne_nil_of_left_ne_nil hname _) (harrow.trans hle) _).mp
      ⟨some i, hends, hresult⟩
    obtain ⟨param, hparam, heq⟩ := Option.map_eq_some_iff.mp hcall
    rw [SubOption.mk.injEq] at heq
    refine ⟨?_, harrow.trans hle, ?_⟩
    · intro hblanks
      have hlength := congrArg List.length (Option.some.inj heq.2.1)
      rw [hblanks, List.append_nil, List.length_append, List.length_dropLast] at hlength
      have hpos := List.length_pos_iff.mpr hname
      omega
    · rw [heq.2.2] at hparam
      apply length_lt_of_copyWhole l.param.nul_notMem l.param.ne_nil hparam

theorem isSplit_iff :
  l.IsSplit ↔ l.Spaced ∨ l.Unnamed ∨ l.Endless
  := by
  constructor
  · intro h
    by_cases hname : l.name = []
    · right
      apply h.unnamed_or_endless hname
    · left
      apply h.spaced hname
  · rintro (h | h | h)
    · apply h.isSplit
    · apply h.isSplit
    · apply h.isSplit

end SubOptionLine

/-- A line without an arrow is no suboption, if the index can reach its end. -/
theorem returns_invalid_iff {line : Bytes} (hnul : (0 : Byte) ∉ line)
    (hsplit : splitArrow line = none) :
  Returns line ⟨-1, none, none⟩ ↔ line.length < 4294967296
  := by
  constructor
  · rintro ⟨found, hends, hresult⟩
    cases found with
    | none => apply of_ends_none hnul hends
    | some i =>
      have hne : line ≠ [] := by
        rintro rfl
        cases (of_ends_some hends).2.1
      have hcopyable := copyable_of_result hnul hne hresult
      obtain ⟨option, hoption, hrest⟩ := Option.bind_eq_some_iff.mp hresult
      obtain ⟨param, -, heq⟩ := Option.bind_eq_some_iff.mp hrest
      rw [copyPart_of_copyable (cstr_ne_nil hnul hne) hcopyable] at hoption
      cases hoption
      cases congrArg SubOption.option (Option.some.inj heq)
  · intro h
    exact ⟨none, ends_line hnul hsplit h, rfl⟩

/-- A suboption comes out of its line if and only if there is a blank in front of the arrow
and an `int` can hold the sizes of both copies, or if there is no name and the lengths come out
not negative or the loop never ends; and a line without an arrow is found to be none if the index
can reach its end. -/
theorem parseSubOption_iff (l : SubOptionLine) {line : Bytes} (hnul : (0 : Byte) ∉ line)
    (hline : ¬ [equals, 62] <:+: line) :
  (l.IsSplit ↔ l.Spaced ∨ l.Unnamed ∨ l.Endless)
    ∧ (Returns line ⟨-1, none, none⟩ ↔ line.length < 4294967296)
  := ⟨SubOptionLine.isSplit_iff, returns_invalid_iff hnul (splitArrow_of_none hline)⟩

/-- The line `url=>x`. -/
def bareLine : SubOptionLine where
  name := text "url"
  blanks := []
  param := ⟨text "x", by decide, by decide⟩
  nul_notMem := by decide
  no_arrow := by decide
  name_end := by
    rintro b ⟨⟩
    rfl
  blank := by
    rintro b ⟨⟩

theorem parseSubOption_bareLine :
  (bareLine.IsSplit ↔ bareLine.Spaced ∨ bareLine.Unnamed ∨ bareLine.Endless)
    ∧ (Returns (text "url") ⟨-1, none, none⟩ ↔ (text "url").length < 4294967296)
  := parseSubOption_iff bareLine (by decide) (by decide)

/-- Without a blank, the last byte of the name is lost. -/
theorem bareLine_not_isSplit :
  ¬ bareLine.IsSplit
  := by
  rw [SubOptionLine.isSplit_iff]
  rintro (h | h | h)
  · apply h.1 rfl
  · cases h.1
  · cases h.1

end Trailermatic
