import Trailermatic.Base64
import Trailermatic.Library.Form
import Trailermatic.Web

/-!
# URL codes

`urlEncode` writes a string in letters that a URL can hold, and `urlDecode` reads it back:
`urlDecode_urlEncode`.  The program asks for a URL with its blanks encoded only.
`urlDecode_urlEncodeWhitespace_iff` says which URLs can be told from what is asked for.
-/

namespace Trailermatic

def tolower (b : Byte) : Byte :=
  if 65 ≤ b && b ≤ 90 then b + 32 else b

/-- Any character is taken for a digit. -/
def fromHex (ch : Byte) : Byte :=
  if isdigit ch then ch - 48 else tolower ch - 97 + 10

/-- The hexadecimal digit of the low four bits. -/
def toHex (code : Byte) : Byte :=
  (text "0123456789abcdef").getD (code &&& 15).toNat 0

/-- The characters that `urlEncode` leaves as they are. -/
def isUnreserved (b : Byte) : Bool :=
  isalnum b || b == 45 || b == 95 || b == 46 || b == 126

/-- Encode a string for a form; a space becomes a plus. -/
def urlEncode (str : Bytes) : Bytes :=
  str.flatMap fun b =>
    if isUnreserved b then [b]
    else if b = 32 then [Form.plus]
    else [Form.percent, toHex (b >>> 4), toHex (b &&& 15)]

/-- `%` and two characters become a byte.  A `%` without two characters behind it is left out. -/
def urlDecode : Bytes → Bytes
  | b :: c :: d :: str =>
    if b = Form.percent then (fromHex c <<< 4 ||| fromHex d) :: urlDecode str
    else Form.plusToSpace b :: urlDecode (c :: d :: str)
  | b :: str =>
    if b = Form.percent then urlDecode str else Form.plusToSpace b :: urlDecode str
  | [] => []

/-! ### Bytes -/

theorem forall_byte {P : Byte → Prop} (h : ∀ n : Fin 256, P (UInt8.ofFin n)) (b : Byte) :
  P b
  := h b.toFin

theorem fromHex_toHex (b : Byte) :
  fromHex (toHex (b >>> 4)) <<< 4 ||| fromHex (toHex (b &&& 15)) = b
  := by
  apply forall_byte (P := fun b =>
    fromHex (toHex (b >>> 4)) <<< 4 ||| fromHex (toHex (b &&& 15)) = b)
  decide +kernel

theorem hexValue_toHex (b : Byte) :
  Form.isHex (toHex b) = true
    ∧ Form.hexValue (toHex (b >>> 4)) * 16 + Form.hexValue (toHex (b &&& 15)) = b
  := by
  apply forall_byte (P := fun b => Form.isHex (toHex b) = true
    ∧ Form.hexValue (toHex (b >>> 4)) * 16 + Form.hexValue (toHex (b &&& 15)) = b)
  decide +kernel

theorem isUnreserved_ne {b : Byte} (h : isUnreserved b = true) :
  b ≠ Form.percent ∧ b ≠ Form.plus ∧ b ≠ Form.ampersand ∧ b ≠ Form.equals
  := by
  refine ⟨?_, ?_, ?_, ?_⟩
  all_goals
    rintro rfl
    revert h
    decide

theorem isUnreserved_toHex (b : Byte) :
  isUnreserved (toHex b) = true
  := by
  apply forall_byte (P := fun b => isUnreserved (toHex b) = true)
  decide +kernel

/-! ### Decoding -/

theorem urlDecode_cons {b : Byte} (h : b ≠ Form.percent) (str : Bytes) :
  urlDecode (b :: str) = Form.plusToSpace b :: urlDecode str
  := by
  rcases str with _ | ⟨c, _ | ⟨d, str⟩⟩
  · rw [urlDecode, if_neg h]
    simp
  · rw [urlDecode, if_neg h]
    simp
  · rw [urlDecode, if_neg h]

theorem urlDecode_percent (c d : Byte) (str : Bytes) :
  urlDecode (Form.percent :: c :: d :: str) = (fromHex c <<< 4 ||| fromHex d) :: urlDecode str
  := by
  rw [urlDecode, if_pos rfl]

/-- No more bytes are written than read. -/
theorem length_urlDecode_le (str : Bytes) :
  (urlDecode str).length ≤ str.length
  := by
  fun_induction urlDecode str with
  | case1 c d str ih =>
    simp only [List.length_cons]
    omega
  | case2 b c d str h ih =>
    rw [List.length_cons, List.length_cons]
    omega
  | case3 str hshort ih =>
    rw [List.length_cons]
    omega
  | case4 b str hshort h ih =>
    rw [List.length_cons, List.length_cons]
    omega
  | case5 => rfl

/-! ### Encoding -/

theorem urlEncode_cons (b : Byte) (str : Bytes) :
  urlEncode (b :: str)
    = (if isUnreserved b then [b] else if b = 32 then [Form.plus]
      else [Form.percent, toHex (b >>> 4), toHex (b &&& 15)]) ++ urlEncode str
  := List.flatMap_cons

/-- A decoder that replaces `+` and the codes that the encoder writes reads what is encoded. -/
theorem decoder_urlEncode {decoder : Bytes → Bytes} (hnil : decoder [] = [])
    (hcons : ∀ (b : Byte) (str : Bytes), b ≠ Form.percent →
      decoder (b :: str) = Form.plusToSpace b :: decoder str)
    (hpercent : ∀ (b : Byte) (str : Bytes),
      decoder (Form.percent :: toHex (b >>> 4) :: toHex (b &&& 15) :: str) = b :: decoder str)
    (str : Bytes) :
  decoder (urlEncode str) = str
  := by
  induction str with
  | nil => apply hnil
  | cons b str ih =>
    rw [urlEncode_cons]
    split_ifs with hsafe hblank
    · obtain ⟨hne, hplus, -⟩ := isUnreserved_ne hsafe
      rw [List.singleton_append, hcons b _ hne, ih, Form.plusToSpace_eq_self_iff.mpr hplus]
    · rw [List.singleton_append, hcons _ _ (by decide), ih, hblank]
      rfl
    · apply (hpercent b (urlEncode str)).trans
      rw [ih]

theorem unescape_urlEncode (str : Bytes) :
  Form.unescape (urlEncode str) = str
  := by
  apply decoder_urlEncode rfl
  · intro b str hne
    apply Form.unescape_cons hne
  · intro b str
    rw [Form.unescape, if_pos ⟨rfl, (hexValue_toHex _).1, (hexValue_toHex _).1⟩,
      (hexValue_toHex b).2]

/-- What is encoded has letters that a URL can hold only. -/
theorem mem_urlEncode {b : Byte} {str : Bytes} (h : b ∈ urlEncode str) :
  isUnreserved b = true ∨ b = Form.plus ∨ b = Form.percent
  := by
  obtain ⟨c, -, hb⟩ := List.mem_flatMap.mp h
  split_ifs at hb with hsafe
  · left
    rw [List.mem_singleton.mp hb]
    apply hsafe
  · right; left
    apply List.mem_singleton.mp hb
  · rcases List.mem_cons.mp hb with rfl | hb
    · right; right
      rfl
    · left
      rcases List.mem_pair.mp hb with rfl | rfl
      · apply isUnreserved_toHex
      · apply isUnreserved_toHex

theorem length_urlEncode_le (str : Bytes) :
  (urlEncode str).length ≤ 3 * str.length
  := by
  induction str with
  | nil => rfl
  | cons b str ih =>
    rw [urlEncode_cons, List.length_append, List.length_cons]
    split_ifs
    · rw [List.length_singleton]
      omega
    · rw [List.length_singleton]
      omega
    · simp only [List.length_cons, List.length_nil]
      omega

/-- Every string is decoded to itself after it has been encoded.  What is encoded consists of
letters that a URL can hold, and with its NUL it fits into the buffer allocated for it, as what
is decoded does. -/
theorem urlDecode_urlEncode (str : Bytes) :
  urlDecode (urlEncode str) = str
    ∧ (∀ b ∈ urlEncode str, isUnreserved b = true ∨ b = Form.plus ∨ b = Form.percent)
    ∧ (urlEncode str).length + 1 ≤ str.length * 3 + 1
    ∧ (urlDecode str).length + 1 ≤ str.length + 1
  := by
  refine ⟨?_, fun b hb => mem_urlEncode hb, ?_, ?_⟩
  · apply decoder_urlEncode rfl
    · intro b str hne
      apply urlDecode_cons hne
    · intro b str
      rw [urlDecode_percent, fromHex_toHex]
  · have hlength := length_urlEncode_le str
    omega
  · have hlength := length_urlDecode_le str
    omega

theorem notMem_urlEncode {b : Byte} (hsafe : isUnreserved b = false) (hplus : b ≠ Form.plus)
    (hpercent : b ≠ Form.percent) (str : Bytes) :
  b ∉ urlEncode str
  := by
  intro hb
  rcases mem_urlEncode hb with h | h | h
  · rw [hsafe] at h
    cases h
  · apply hplus h
  · apply hpercent h

/-- A form whose names and values are encoded is read back, whatever they hold. -/
theorem decode_join_urlEncode {fields : List (Bytes × Bytes)} (hne : fields ≠ []) :
  Form.decode (Form.join (fields.map (Prod.map urlEncode urlEncode))) = fields
  := by
  have hampersand (str : Bytes) : Form.ampersand ∉ urlEncode str :=
    notMem_urlEncode rfl (by decide) (by decide) str
  have hequals (str : Bytes) : Form.equals ∉ urlEncode str :=
    notMem_urlEncode rfl (by decide) (by decide) str
  have hnames : ∀ f ∈ fields.map (Prod.map urlEncode urlEncode),
      Form.ampersand ∉ f.1 ∧ Form.equals ∉ f.1 ∧ Form.ampersand ∉ f.2 := by
    intro f hf
    obtain ⟨field, -, rfl⟩ := List.mem_map.mp hf
    exact ⟨hampersand _, hequals _, hampersand _⟩
  rw [Form.decode_join (by simpa using hne) hnames, List.map_map]
  have hid : fields.map (Prod.map Form.unescape Form.unescape ∘ Prod.map urlEncode urlEncode)
      = fields.map id := by
    apply List.map_congr_left
    intro f hf
    rw [Function.comp, Prod.map, Prod.map, unescape_urlEncode, unescape_urlEncode]
    rfl
  rw [hid, List.map_id]

theorem decode_join_urlEncode_special :
  let fields := [(text "event", text "a&b=c"), (text "description", text "1+1 is %32")]
  fields ≠ [] ∧ Form.decode (Form.join (fields.map (Prod.map urlEncode urlEncode))) = fields
  := by
  intro fields
  have hne : fields ≠ [] := List.cons_ne_nil _ _
  exact ⟨hne, decode_join_urlEncode hne⟩

/-! ### Blanks -/

theorem urlEncodeWhitespace_cons (b : Byte) (str : Bytes) :
  urlEncodeWhitespace (b :: str)
    = (if b = 32 then text "%20" else [b]) ++ urlEncodeWhitespace str
  := List.flatMap_cons

/-- A blank is decoded where it was encoded. -/
theorem urlDecode_blank (str : Bytes) :
  urlDecode (text "%20" ++ str) = 32 :: urlDecode str
  := by
  apply (urlDecode_percent 50 48 str).trans
  rfl

theorem urlEncodeWhitespace_of_ne {b : Byte} (h : b ≠ 32) (str : Bytes) :
  urlEncodeWhitespace (b :: str) = b :: urlEncodeWhitespace str
  := by
  rw [urlEncodeWhitespace_cons, if_neg h]
  rfl

theorem urlEncodeWhitespace_blank (str : Bytes) :
  urlEncodeWhitespace (32 :: str) = text "%20" ++ urlEncodeWhitespace str
  := by
  rw [urlEncodeWhitespace_cons, if_pos rfl]

/-- What is read of a URL that was asked for. -/
def readBack (url : Bytes) : Bytes :=
  urlDecode (urlEncodeWhitespace url)

theorem readBack_cons {b : Byte} (h : b ≠ Form.percent) (url : Bytes) :
  readBack (b :: url) = Form.plusToSpace b :: readBack url
  := by
  by_cases hblank : b = 32
  · rw [readBack, hblank, urlEncodeWhitespace_blank, urlDecode_blank]
    rfl
  · rw [readBack, urlEncodeWhitespace_of_ne hblank, urlDecode_cons h]
    rfl

/-- A percent sign is left out where the URL ends, or it takes two bytes away; a blank among
them breaks up. -/
theorem readBack_percent (url : Bytes) :
  (url.length ≤ 1 ∧ readBack (Form.percent :: url) = readBack url)
    ∨ (∃ rest, url = 32 :: rest ∧ readBack (Form.percent :: url)
      = (fromHex Form.percent <<< 4 ||| fromHex 50) :: 48 :: readBack rest)
    ∨ (∃ c rest, url = c :: 32 :: rest ∧ readBack (Form.percent :: url)
      = (fromHex c <<< 4 ||| fromHex Form.percent) :: 50 :: 48 :: readBack rest)
    ∨ ∃ c d rest, url = c :: d :: rest ∧ readBack (Form.percent :: url)
      = (fromHex c <<< 4 ||| fromHex d) :: readBack rest
  := by
  have hpercent (rest : Bytes) : readBack (Form.percent :: rest)
      = urlDecode (Form.percent :: urlEncodeWhitespace rest) := by
    rw [readBack, urlEncodeWhitespace_of_ne (by decide)]
  rcases url with _ | ⟨c, url⟩
  · left
    exact ⟨Nat.zero_le 1, rfl⟩
  by_cases hc : c = 32
  · right; left
    use url
    rw [hc, hpercent, urlEncodeWhitespace_blank]
    refine ⟨rfl, (urlDecode_percent Form.percent 50 (48 :: urlEncodeWhitespace url)).trans ?_⟩
    rw [urlDecode_cons (by decide)]
    rfl
  rcases url with _ | ⟨d, url⟩
  · left
    rw [hpercent, readBack, urlEncodeWhitespace_of_ne hc]
    exact ⟨Nat.le_refl 1, rfl⟩
  by_cases hd : d = 32
  · right; right; left
    use c, url
    rw [hd, hpercent, urlEncodeWhitespace_of_ne hc, urlEncodeWhitespace_blank]
    refine ⟨rfl, (urlDecode_percent c Form.percent (50 :: 48 :: urlEncodeWhitespace url)).trans ?_⟩
    rw [urlDecode_cons (by decide), urlDecode_cons (by decide)]
    rfl
  · right; right; right
    use c, d, url
    rw [hpercent, urlEncodeWhitespace_of_ne hc, urlEncodeWhitespace_of_ne hd, urlDecode_percent]
    exact ⟨rfl, rfl⟩

theorem length_readBack_le (url : Bytes) :
  (readBack url).length ≤ url.length
  := by
  induction hlength : url.length using Nat.strong_induction_on generalizing url with
  | h n ih =>
    have hrest (rest : Bytes) (h : rest.length < url.length) :
        (readBack rest).length ≤ rest.length := ih _ (hlength ▸ h) rest rfl
    rcases url with _ | ⟨b, url⟩
    · exact Nat.zero_le n
    rw [← hlength]
    by_cases hb : b = Form.percent
    · subst hb
      rcases readBack_percent url with ⟨-, h⟩ | ⟨rest, rfl, h⟩ | ⟨c, rest, rfl, h⟩
        | ⟨c, d, rest, rfl, h⟩
      · have hle := hrest url (Nat.lt_succ_self _)
        rw [h, List.length_cons]
        omega
      · have hle := hrest rest (by simp only [List.length_cons]; omega)
        simp only [h, List.length_cons]
        omega
      · have hle := hrest rest (by simp only [List.length_cons]; omega)
        simp only [h, List.length_cons]
        omega
      · have hle := hrest rest (by simp only [List.length_cons]; omega)
        simp only [h, List.length_cons]
        omega
    · have hle := hrest url (Nat.lt_succ_self _)
      rw [readBack_cons hb, List.length_cons, List.length_cons]
      omega

/-- A URL is not read back from its first percent sign on. -/
theorem readBack_percent_ne (url : Bytes) :
  readBack (Form.percent :: url) ≠ Form.percent :: url
  := by
  have hlast (c : Byte) : fromHex c <<< 4 ||| fromHex Form.percent ≠ Form.percent := by
    apply forall_byte (P := fun c => fromHex c <<< 4 ||| fromHex Form.percent ≠ Form.percent)
    decide +kernel
  intro heq
  rcases readBack_percent url with ⟨-, h⟩ | ⟨rest, rfl, h⟩ | ⟨c, rest, rfl, h⟩
    | ⟨c, d, rest, rfl, h⟩
  · have hlength := congrArg List.length (h.symm.trans heq)
    have hle := length_readBack_le url
    rw [List.length_cons] at hlength
    omega
  · rw [h, List.cons.injEq] at heq
    have hfirst : fromHex Form.percent <<< 4 ||| fromHex 50 ≠ Form.percent := by decide
    apply hfirst heq.1
  · rw [h, List.cons.injEq] at heq
    apply hlast c heq.1
  · have hlength := congrArg List.length (h.symm.trans heq)
    have hle := length_readBack_le rest
    simp only [List.length_cons] at hlength
    omega

/-- A URL can be told from what is asked for, in which the blanks only are encoded, exactly if it
has neither `+` nor `%` in it. -/
theorem urlDecode_urlEncodeWhitespace_iff (url : Bytes) :
  urlDecode (urlEncodeWhitespace url) = url ↔ Form.plus ∉ url ∧ Form.percent ∉ url
  := by
  rw [← readBack]
  induction url with
  | nil => simp [readBack, urlEncodeWhitespace, urlDecode]
  | cons b url ih =>
    by_cases hb : b = Form.percent
    · subst hb
      constructor
      · intro heq
        apply absurd heq (readBack_percent_ne url)
      · rintro ⟨-, hnone⟩
        apply absurd List.mem_cons_self hnone
    · rw [readBack_cons hb, List.cons.injEq, ih, Form.plusToSpace_eq_self_iff,
        Form.plus_notMem_cons, and_assoc, List.mem_cons, not_or]
      simp [Ne.symm hb]

end Trailermatic
