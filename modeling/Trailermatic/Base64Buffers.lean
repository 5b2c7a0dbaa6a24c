import Trailermatic.Base64

/-!
# The buffers of the encoder and the decoder

Both functions compute the size of their buffer from the length of their input, in 32 bits.
`base64_buffers_iff` says for which inputs what they write fits into it.
-/

namespace Trailermatic

namespace Coder

/-- Four characters for each three bytes begun. -/
theorem length_encoded (x : Bytes) :
  (x.foldl encodeByte start).encodeRest.out.length = 4 * ((x.length + 2) / 3)
  := by
  obtain ⟨body, -, hout, hlength, -⟩ := exists_encoded x
  rw [hout, hlength]

/-- Three bytes for each four letters, and one less than there are letters beyond. -/
theorem length_decoded (encoded : Bytes) :
  (start.decodeLoop encoded).decodeRest.out.length
    = 3 * ((letters encoded).length / 4) + ((letters encoded).length % 4 - 1)
  := by
  have hlengths := @Gathered.length_foldl_gather _ _ 4 decodeGroup 3 (by decide)
    (fun _ _ => rfl) (letters encoded) []
  have hgathered : ((letters encoded).foldl decodeByte start).gathered
      = (letters encoded).foldl (Gathered.gather 4 decodeGroup) ⟨[], []⟩ :=
    gathered_foldl_turn 4 decodeGroup start (letters encoded)
  rw [← hgathered] at hlengths
  obtain ⟨hout, hgroup⟩ := hlengths
  have hout' : ((letters encoded).foldl decodeByte start).out.length
      = 3 * ((letters encoded).length / 4) := hout.trans (Nat.zero_add _)
  have hgroup' : ((letters encoded).foldl decodeByte start).group.length
      = (letters encoded).length % 4 := hgroup
  have hlt := Nat.mod_lt (letters encoded).length (by decide : 0 < 4)
  rw [decodeLoop_eq, decodeRest, hgroup']
  split_ifs with hrest
  · rw [hout', hrest]
    rfl
  · rw [out_write, List.length_append, hout', List.length_take, char3]
    simp only [List.length_cons, List.length_nil]
    omega

theorem length_letters_le (encoded : Bytes) :
  (letters encoded).length ≤ encoded.length
  := (List.takeWhile_prefix _).length_le

/-- All characters are read exactly if they are all of the alphabet. -/
theorem length_letters_eq_iff (encoded : Bytes) :
  (letters encoded).length = encoded.length ↔ ∀ c ∈ encoded, isBase64 c = true
  := by
  have hletter (c : Byte) : (c != padding && isBase64 c) = isBase64 c := by
    rcases eq_or_ne c padding with rfl | hc
    · decide
    · simp [hc]
  have hinitial : letters encoded <+: encoded := List.takeWhile_prefix _
  constructor
  · intro hlength
    have hall := List.takeWhile_eq_self_iff.mp (hinitial.eq_of_length hlength)
    simpa only [hletter] using hall
  · intro hall
    have heq : letters encoded = encoded := by
      apply List.takeWhile_eq_self_iff.mpr
      simpa only [hletter] using hall
    rw [heq]

end Coder

/-! ### The sizes -/

/-- The size for the encoder is enough as long as its computation does not wrap around. -/
theorem encoded_fits_iff (len : UInt32) :
  4 * ((len.toNat + 2) / 3) + 1 ≤ ((len + 13) / 3 * 4).toNat ↔ len.toNat < 3221225459
  := by
  have hlt := len.toNat_lt
  simp only [UInt32.toNat_add, UInt32.toNat_mul, UInt32.toNat_div, UInt32.reduceToNat]
  by_cases hwrap : len.toNat + 13 < 4294967296
  · have hsum : (len.toNat + 13) % 2 ^ 32 = len.toNat + 13 := Nat.mod_eq_of_lt hwrap
    rw [hsum]
    omega
  · have hsum : (len.toNat + 13) % 2 ^ 32 = len.toNat + 13 - 4294967296 := by omega
    rw [hsum]
    omega

/-- The size for the decoder is one less than is needed for three characters beyond the full
groups. -/
theorem decoded_fits_iff (inLen : UInt32) {k : ℕ} (hk : k ≤ inLen.toNat) :
  3 * (k / 4) + (k % 4 - 1) + 1 ≤ (3 * (inLen / 4) + 2).toNat
    ↔ ¬ (k = inLen.toNat ∧ inLen.toNat % 4 = 3)
  := by
  have hlt := inLen.toNat_lt
  simp only [UInt32.toNat_add, UInt32.toNat_mul, UInt32.toNat_div, UInt32.reduceToNat]
  omega

/-- What the encoder writes fits into its buffer exactly if the computation of the size does not
wrap around, and what the decoder writes exactly if it does not read all of its input, or the
length of that is not three more than a multiple of four. -/
theorem base64_buffers_iff (input : Bytes) (len : UInt32) :
  (len.toNat ≤ input.length → ∀ coded ∈ (base64Encode (some input) len).1,
      coded.written.length ≤ coded.size.toNat ↔ len.toNat < 3221225459)
    ∧ ∀ decoded ∈ base64Decode (some input) len,
      decoded.1.written.length ≤ decoded.1.size.toNat
        ↔ ¬ (len.toNat ≤ input.length ∧ (∀ c ∈ input.take len.toNat, isBase64 c = true)
          ∧ len.toNat % 4 = 3)
  := by
  constructor
  · intro hlen coded hcoded
    rw [base64Encode] at hcoded
    split_ifs at hcoded with hzero
    · cases hcoded
    · cases hcoded
      rw [List.length_append, Coder.length_encoded, List.length_take, Nat.min_eq_left hlen]
      apply encoded_fits_iff
  · intro decoded hdecoded
    cases hdecoded
    have hread : (Coder.letters (input.take len.toNat)).length = len.toNat
        ↔ len.toNat ≤ input.length ∧ ∀ c ∈ input.take len.toNat, isBase64 c = true := by
      rw [← Coder.length_letters_eq_iff, List.length_take]
      have hle := Coder.length_letters_le (input.take len.toNat)
      rw [List.length_take] at hle
      omega
    rw [List.length_append, Coder.length_decoded, ← and_assoc, ← hread]
    apply decoded_fits_iff
    apply Nat.le_trans (Coder.length_letters_le _)
    apply List.length_take_le

/-- Encoding four bytes fits, and decoding their text does. -/
theorem base64_buffers_fit :
  (∀ coded ∈ (base64Encode (some (text "dog.")) 4).1, coded.written.length ≤ coded.size.toNat)
    ∧ ∀ decoded ∈ base64Decode (some (text "ZG9nLg==")) 8,
      decoded.1.written.length ≤ decoded.1.size.toNat
  := by
  constructor
  · intro coded hcoded
    apply ((base64_buffers_iff (text "dog.") 4).1 (by decide) coded hcoded).mpr
    decide
  · intro decoded hdecoded
    apply ((base64_buffers_iff (text "ZG9nLg==") 8).2 decoded hdecoded).mpr
    rintro ⟨-, -, hrest⟩
    cases hrest

/-- Three characters decode to two bytes and a NUL, which is one byte more than there is room
for. -/
theorem base64Decode_overruns :
  base64Decode (some (text "Zm9")) 3 = some (⟨2, text "fo" ++ [0]⟩, 2)
    ∧ ¬ (text "fo" ++ [0]).length ≤ (2 : UInt32).toNat
  := by decide +kernel

end Trailermatic
