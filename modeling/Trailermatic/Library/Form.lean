import Mathlib.Tactic.Common
import Mathlib.Data.List.Infix

/-!
# Form data

The body of a form is a list of fields joined by `&`, each a name and a value joined by
`=`.  A reader of the body splits it at every `&`, each field at its first `=`, and then
replaces `+` by a blank and `%XX` by the byte it stands for.  A body joined from fields
whose values are written as they are is read back exactly if every value is plain.
-/

namespace Form

def ampersand : UInt8 := 38

def percent : UInt8 := 37

def plus : UInt8 := 43

def equals : UInt8 := 61

/-- The hexadecimal digits. -/
def isHex (b : UInt8) : Bool :=
  (48 ≤ b && b ≤ 57) || (65 ≤ b && b ≤ 70) || (97 ≤ b && b ≤ 102)

/-- The value of a hexadecimal digit. -/
def hexValue (b : UInt8) : UInt8 :=
  if b ≤ 57 then b - 48 else if b ≤ 70 then b - 55 else b - 87

/-- A space is written as a plus. -/
def plusToSpace (b : UInt8) : UInt8 :=
  if b = plus then 32 else b

/-- Replace `+` and `%XX` from left to right. -/
def unescape : List UInt8 → List UInt8
  | b :: c :: d :: s =>
    if b = percent ∧ isHex c = true ∧ isHex d = true then
      (hexValue c * 16 + hexValue d) :: unescape s
    else plusToSpace b :: unescape (c :: d :: s)
  | s => s.map plusToSpace

/-- The field of a piece between two `&`. -/
def decodePair (piece : List UInt8) : List UInt8 × List UInt8 :=
  (unescape (piece.takeWhile (· != equals)), unescape ((piece.dropWhile (· != equals)).drop 1))

/-- The fields of a body. -/
def decode (body : List UInt8) : List (List UInt8 × List UInt8) :=
  (body.splitOn ampersand).map decodePair

/-- The body in which the fields are written as they are. -/
def join (fields : List (List UInt8 × List UInt8)) : List UInt8 :=
  [ampersand].intercalate (fields.map fun f => f.1 ++ equals :: f.2)

/-- A text without `&`, `+` and `%XX`. -/
def Plain (s : List UInt8) : Prop :=
  ampersand ∉ s ∧ plus ∉ s
    ∧ ∀ c d, isHex c = true → isHex d = true → ¬ [percent, c, d] <:+: s

/-! ### Plain texts -/

theorem length_unescape_le (s : List UInt8) :
  (unescape s).length ≤ s.length
  := by
  fun_induction unescape s with
  | case1 b c d s h ih =>
    simp only [List.length_cons]
    omega
  | case2 b c d s h ih =>
    rw [List.length_cons, List.length_cons]
    omega
  | case3 s h => rw [List.length_map]

theorem unescape_cons {b : UInt8} (h : b ≠ percent) (s : List UInt8) :
  unescape (b :: s) = plusToSpace b :: unescape s
  := by
  rcases s with _ | ⟨c, _ | ⟨d, s⟩⟩
  · simp [unescape]
  · simp [unescape]
  · rw [unescape, if_neg]
    rintro ⟨hpercent, -⟩
    apply h hpercent

theorem plusToSpace_eq_self_iff {b : UInt8} :
  plusToSpace b = b ↔ b ≠ plus
  := by
  rw [plusToSpace]
  split_ifs with h
  · simp [h, plus]
  · simp [h]

theorem plus_notMem_cons {b : UInt8} {s : List UInt8} :
  plus ∉ b :: s ↔ b ≠ plus ∧ plus ∉ s
  := by
  rw [List.mem_cons, not_or, eq_comm]

theorem map_plusToSpace_eq_self_iff {s : List UInt8} :
  s.map plusToSpace = s ↔ plus ∉ s
  := by
  induction s with
  | nil => simp
  | cons b s ih =>
    rw [List.map_cons, List.cons.injEq, ih, plusToSpace_eq_self_iff, plus_notMem_cons]

/-- What is read as it was written. -/
theorem unescape_eq_self_iff {s : List UInt8} :
  unescape s = s ↔ plus ∉ s
    ∧ ∀ c d, isHex c = true → isHex d = true → ¬ [percent, c, d] <:+: s
  := by
  fun_induction unescape s with
  | case1 b c d s h ih =>
    obtain ⟨rfl, hc, hd⟩ := h
    have hlength := length_unescape_le s
    constructor
    · intro heq
      have hsame := congrArg List.length heq
      simp only [List.length_cons] at hsame
      omega
    · rintro ⟨-, hnone⟩
      apply absurd _ (hnone c d hc hd)
      exact ⟨[], s, rfl⟩
  | case2 b c d s h ih =>
    rw [List.cons.injEq, ih, plusToSpace_eq_self_iff, plus_notMem_cons (s := c :: d :: s)]
    constructor
    · rintro ⟨hb, hplus, hnone⟩
      refine ⟨⟨hb, hplus⟩, ?_⟩
      intro c' d' hc hd hinfix
      rcases List.infix_cons_iff.mp hinfix with hfirst | hinfix
      · obtain ⟨rest, hrest⟩ := hfirst
        simp only [List.cons_append, List.cons.injEq] at hrest
        obtain ⟨rfl, rfl, rfl, -⟩ := hrest
        apply h ⟨rfl, hc, hd⟩
      · apply hnone c' d' hc hd hinfix
    · rintro ⟨⟨hb, hplus⟩, hnone⟩
      refine ⟨hb, hplus, ?_⟩
      intro c' d' hc hd hinfix
      apply hnone c' d' hc hd
      apply List.infix_cons_iff.mpr (Or.inr hinfix)
  | case3 s h =>
    rw [map_plusToSpace_eq_self_iff, Iff.comm, and_iff_left_iff_imp]
    intro hplus c d hc hd hinfix
    have hlength := hinfix.length_le
    rcases s with _ | ⟨b₀, _ | ⟨b₁, _ | ⟨b₂, s⟩⟩⟩
    · simp at hlength
    · simp at hlength
    · simp at hlength
    · apply h b₀ b₁ b₂ s rfl

theorem plain_iff {s : List UInt8} :
  Plain s ↔ ampersand ∉ s ∧ unescape s = s
  := by
  rw [unescape_eq_self_iff]
  exact Iff.rfl

instance (s : List UInt8) : Decidable (Plain s) :=
  decidable_of_iff _ plain_iff.symm

/-! ### Bodies -/

section

variable {α : Type*} [BEq α]

theorem length_le_length_flatMap_splitOn (a : α) (parts : List (List α)) :
  parts.length ≤ (parts.flatMap (List.splitOn a)).length
  := by
  induction parts with
  | nil => simp
  | cons p parts ih =>
    have hp := List.length_pos_of_ne_nil (List.splitOn_ne_nil a p)
    rw [List.flatMap_cons, List.length_append, List.length_cons]
    omega

variable [LawfulBEq α]

/-- A joined list is split within each of its parts. -/
theorem splitOn_intercalate_eq (a : α) {parts : List (List α)} (hne : parts ≠ []) :
  ([a].intercalate parts).splitOn a = parts.flatMap (List.splitOn a)
  := by
  induction parts with
  | nil => apply absurd rfl hne
  | cons p parts ih =>
    cases parts with
    | nil => simp
    | cons q parts =>
      rw [List.intercalate_cons_cons, List.append_assoc, List.singleton_append,
        List.splitOn_append_cons_self, ih (List.cons_ne_nil q parts)]
      rfl

theorem length_splitOn_of_mem {a : α} {p : List α} (h : a ∈ p) :
  1 < (p.splitOn a).length
  := by
  obtain ⟨u, v, rfl⟩ := List.append_of_mem h
  have hu := List.length_pos_of_ne_nil (List.splitOn_ne_nil a u)
  have hv := List.length_pos_of_ne_nil (List.splitOn_ne_nil a v)
  rw [List.splitOn_append_cons_self, List.length_append]
  omega

/-- A joined list is split into as many parts only if no part has a separator. -/
theorem notMem_of_length_flatMap_splitOn {a : α} {parts : List (List α)}
    (h : (parts.flatMap (List.splitOn a)).length = parts.length) :
  ∀ p ∈ parts, a ∉ p
  := by
  induction parts with
  | nil => simp
  | cons p parts ih =>
    have hp := List.length_pos_of_ne_nil (List.splitOn_ne_nil a p)
    have hrest := length_le_length_flatMap_splitOn a parts
    rw [List.flatMap_cons, List.length_append, List.length_cons] at h
    intro q hq hmem
    rcases List.mem_cons.mp hq with rfl | hq
    · have htwo := length_splitOn_of_mem hmem
      omega
    · apply ih (by omega) q hq hmem

end

theorem decodePair_append {name value : List UInt8} (h : equals ∉ name) :
  decodePair (name ++ equals :: value) = (unescape name, unescape value)
  := by
  have hname : ∀ b ∈ name, (b != equals) = true := by
    intro b hb
    rw [bne_iff_ne]
    rintro rfl
    apply h hb
  rw [decodePair, List.takeWhile_append_of_pos hname, List.dropWhile_append_of_pos hname]
  simp

/-- What is read of fields without separators. -/
theorem decode_join {fields : List (List UInt8 × List UInt8)} (hne : fields ≠ [])
    (h : ∀ f ∈ fields, ampersand ∉ f.1 ∧ equals ∉ f.1 ∧ ampersand ∉ f.2) :
  decode (join fields) = fields.map (Prod.map unescape unescape)
  := by
  have hmap : (fields.map fun f => f.1 ++ equals :: f.2) ≠ [] := by simpa using hne
  have hnone : ∀ p ∈ fields.map fun f => f.1 ++ equals :: f.2, ampersand ∉ p := by
    intro p hp
    obtain ⟨f, hf, rfl⟩ := List.mem_map.mp hp
    obtain ⟨hname, -, hvalue⟩ := h f hf
    simp only [List.mem_append, List.mem_cons, not_or]
    exact ⟨hname, by decide, hvalue⟩
  rw [decode, join, List.splitOn_intercalate _ hnone hmap, List.map_map]
  apply List.map_congr_left
  intro f hf
  apply decodePair_append (h f hf).2.1

/-- A body of fields with plain names is read back exactly if all values are plain. -/
theorem decode_join_iff {fields : List (List UInt8 × List UInt8)} (hne : fields ≠ [])
    (hnames : ∀ f ∈ fields, Plain f.1 ∧ equals ∉ f.1) :
  decode (join fields) = fields ↔ ∀ f ∈ fields, Plain f.2
  := by
  have hmap : (fields.map fun f => f.1 ++ equals :: f.2) ≠ [] := by simpa using hne
  constructor
  · intro heq
    have hlength : ((fields.map fun f => f.1 ++ equals :: f.2).flatMap
        (List.splitOn ampersand)).length
        = (fields.map fun f => f.1 ++ equals :: f.2).length := by
      have hsame := congrArg List.length heq
      rw [decode, join, List.length_map, splitOn_intercalate_eq _ hmap] at hsame
      rw [hsame, List.length_map]
    have hnone := notMem_of_length_flatMap_splitOn hlength
    rw [decode, join, List.splitOn_intercalate _ hnone hmap, List.map_map] at heq
    have hfields : ∀ f ∈ fields, decodePair (f.1 ++ equals :: f.2) = f := by
      intro f hf
      have hid : fields.map (decodePair ∘ fun f => f.1 ++ equals :: f.2) = fields.map id := by
        rw [heq, List.map_id]
      apply List.map_inj_left.mp hid f hf
    intro f hf
    apply plain_iff.mpr
    constructor
    · intro hmem
      apply hnone _ (List.mem_map_of_mem hf)
      simp [hmem]
    · have hpair := hfields f hf
      rw [decodePair_append (hnames f hf).2] at hpair
      apply congrArg Prod.snd hpair
  · intro hplain
    have hdecode := decode_join hne fun f hf =>
      ⟨(hnames f hf).1.1, (hnames f hf).2, (hplain f hf).1⟩
    have hid : fields.map (Prod.map unescape unescape) = fields.map id := by
      apply List.map_congr_left
      intro f hf
      rw [Prod.map, (plain_iff.mp (hnames f hf).1).2, (plain_iff.mp (hplain f hf)).2]
      rfl
    rw [hdecode, hid, List.map_id]

end Form
