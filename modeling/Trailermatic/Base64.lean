import Trailermatic.Bytes
import Trailermatic.Library.Gather
import Mathlib.Tactic.NormNum

/-!
# Base64

Base64 writes three bytes as four characters of an alphabet of 64.  The encoder and the
decoder are loops that gather their input in groups, with a shorter group at the end.
All sizes are of 32 bits.
-/

namespace Trailermatic

/-- The characters of the code, in the order of their six bits. -/
def alphabet : Bytes :=
  text "ABCDEFGHIJKLMNOPQRSTUVWXYZabcdefghijklmnopqrstuvwxyz0123456789+/"

/-- The character `=`, which fills up the last group. -/
def padding : Byte := 61

/-- The four places in the alphabet for three bytes. -/
def char4 (char3 : Bytes) : Bytes :=
  [ (char3.getD 0 0 &&& 0xfc) >>> 2,
    ((char3.getD 0 0 &&& 0x03) <<< 4) + ((char3.getD 1 0 &&& 0xf0) >>> 4),
    ((char3.getD 1 0 &&& 0x0f) <<< 2) + ((char3.getD 2 0 &&& 0xc0) >>> 6),
    char3.getD 2 0 &&& 0x3f ]

@[simp]
theorem length_char4 (char3 : Bytes) :
  (char4 char3).length = 4
  := rfl

/-- The three bytes for four places in the alphabet. -/
def char3 (char4 : Bytes) : Bytes :=
  [ (char4.getD 0 0 <<< 2) + ((char4.getD 1 0 &&& 0x30) >>> 4),
    ((char4.getD 1 0 &&& 0xf) <<< 4) + ((char4.getD 2 0 &&& 0x3c) >>> 2),
    ((char4.getD 2 0 &&& 0x3) <<< 6) + char4.getD 3 0 ]

/-- The character at a place in the alphabet. -/
def letter (place : Byte) : Byte :=
  alphabet.getD place.toNat 0

def isalnum (b : Byte) : Bool :=
  isdigit b || (65 ≤ b && b ≤ 90) || (97 ≤ b && b ≤ 122)

/-- Characters that the decoder takes; it stops at any other. -/
def isBase64 (c : Byte) : Bool :=
  isalnum c || c == 43 || c == 47

/-- The place of a character in the alphabet.  The code `-1` of a character that is not
there is stored as the byte 255. -/
def find (c : Byte) : Byte :=
  match alphabet.findIdx? (· == c) with
  | some i => UInt8.ofNat i
  | none => 255

/-- The characters for a full group of bytes. -/
def encodeGroup (char3 : Bytes) : Bytes :=
  (char4 char3).map letter

/-- The bytes for a full group of characters. -/
def decodeGroup (char4 : Bytes) : Bytes :=
  char3 (char4.map find)

/-! ### Single groups -/

private theorem toNat_shifts (b : Byte) :
  ((b &&& 0xfc) >>> 2).toNat = b.toNat / 4 ∧ ((b &&& 0x03) <<< 4).toNat = b.toNat % 4 * 16
    ∧ ((b &&& 0xf0) >>> 4).toNat = b.toNat / 16
    ∧ ((b &&& 0x0f) <<< 2).toNat = b.toNat % 16 * 4
    ∧ ((b &&& 0xc0) >>> 6).toNat = b.toNat / 64 ∧ (b &&& 0x3f).toNat = b.toNat % 64
  := by
  have h : ∀ n < 256, (n &&& 252) >>> 2 = n / 4 ∧ ((n &&& 3) <<< 4) % 256 = n % 4 * 16
      ∧ (n &&& 240) >>> 4 = n / 16 ∧ ((n &&& 15) <<< 2) % 256 = n % 16 * 4
      ∧ (n &&& 192) >>> 6 = n / 64 ∧ n &&& 63 = n % 64 := by
    decide +kernel
  simpa using h b.toNat b.toNat_lt

private theorem toNat_unshifts (b : Byte) :
  (b <<< 2).toNat = b.toNat * 4 % 256 ∧ ((b &&& 0x30) >>> 4).toNat = b.toNat / 16 % 4
    ∧ ((b &&& 0xf) <<< 4).toNat = b.toNat % 16 * 16
    ∧ ((b &&& 0x3c) >>> 2).toNat = b.toNat / 4 % 16
    ∧ ((b &&& 0x3) <<< 6).toNat = b.toNat % 4 * 64
  := by
  have h : ∀ n < 256, (n <<< 2) % 256 = n * 4 % 256 ∧ (n &&& 48) >>> 4 = n / 16 % 4
      ∧ ((n &&& 15) <<< 4) % 256 = n % 16 * 16 ∧ (n &&& 60) >>> 2 = n / 4 % 16
      ∧ ((n &&& 3) <<< 6) % 256 = n % 4 * 64 := by
    decide +kernel
  simpa using h b.toNat b.toNat_lt

/-- The places are the digits of the three bytes to the base 64. -/
theorem toNat_char4 (a b c : Byte) :
  (char4 [a, b, c]).map UInt8.toNat
    = [a.toNat / 4, a.toNat % 4 * 16 + b.toNat / 16, b.toNat % 16 * 4 + c.toNat / 64,
      c.toNat % 64]
  := by
  have ha := toNat_shifts a
  have hb := toNat_shifts b
  have hc := toNat_shifts c
  have hb256 := b.toNat_lt
  have hc256 := c.toNat_lt
  simp [char4, UInt8.toNat_add, ha, hb, hc]
  omega

/-- The bytes are the digits of the four places to the base 256. -/
theorem toNat_char3 (p q r s : Byte) (beyond : Bytes) :
  (char3 (p :: q :: r :: s :: beyond)).map UInt8.toNat
    = [(p.toNat * 4 + q.toNat / 16 % 4) % 256, (q.toNat % 16 * 16 + r.toNat / 4 % 16) % 256,
      (r.toNat % 4 * 64 + s.toNat) % 256]
  := by
  have hp := toNat_unshifts p
  have hq := toNat_unshifts q
  have hr := toNat_unshifts r
  simp [char3, UInt8.toNat_add, hp, hq, hr]

/-- All places are in the alphabet. -/
theorem toNat_lt_of_mem_char4 {group : Bytes} {place : Byte} (h : place ∈ char4 group) :
  place.toNat < 64
  := by
  have hmem : place.toNat ∈ (char4 group).map UInt8.toNat := List.mem_map_of_mem h
  have heq : char4 group = char4 [group.getD 0 0, group.getD 1 0, group.getD 2 0] := rfl
  rw [heq, toNat_char4] at hmem
  have h0 := (group.getD 0 0).toNat_lt
  have h1 := (group.getD 1 0).toNat_lt
  have h2 := (group.getD 2 0).toNat_lt
  simp only [List.mem_cons, List.not_mem_nil, or_false] at hmem
  omega

/-- The letters are found where they are in the alphabet, and none of them ends the
decoder. -/
theorem find_letter {place : Byte} (h : place.toNat < 64) :
  find (letter place) = place ∧ letter place ∈ alphabet ∧ isBase64 (letter place) = true
    ∧ letter place ≠ padding
  := by
  have hall : ∀ n < 64, find (letter (UInt8.ofNat n)) = UInt8.ofNat n
      ∧ letter (UInt8.ofNat n) ∈ alphabet ∧ isBase64 (letter (UInt8.ofNat n)) = true
      ∧ letter (UInt8.ofNat n) ≠ padding := by
    decide +kernel
  simpa using hall place.toNat h

theorem map_find_map_letter {places : Bytes} (h : ∀ p ∈ places, p.toNat < 64) :
  (places.map letter).map find = places
  := by
  rw [List.map_map]
  have hid : places.map (find ∘ letter) = places.map id := by
    apply List.map_congr_left
    intro p hp
    apply (find_letter (h p hp)).1
  rw [hid, List.map_id]

private theorem eq_of_map_toNat {u v : Bytes} (h : u.map UInt8.toNat = v.map UInt8.toNat) :
  u = v
  := List.map_injective_iff.mpr (fun _ _ => UInt8.toNat_inj.mp) h

/-- A group of one to three bytes, filled up with zeros, comes back from its characters,
whatever the missing characters are replaced by. -/
theorem take_char3_char4 {group : Bytes} (hpos : 0 < group.length) (hle : group.length ≤ 3)
    {fill : Bytes} (hfill : fill.length = 3 - group.length) :
  (char3 ((char4 (group ++ List.replicate (3 - group.length) 0)).take (group.length + 1)
    ++ fill)).take group.length = group
  := by
  apply eq_of_map_toNat
  rw [List.map_take]
  rcases group with _ | ⟨a, _ | ⟨b, _ | ⟨c, _ | ⟨d, group⟩⟩⟩⟩
  · cases hpos
  · obtain ⟨r, s, rfl⟩ := List.length_eq_two.mp hfill
    have hplaces := toNat_char4 a 0 0
    have ha := a.toNat_lt
    obtain ⟨p₀, p₁, p₂, p₃, hp⟩ : ∃ p₀ p₁ p₂ p₃, char4 [a, 0, 0] = [p₀, p₁, p₂, p₃] :=
      ⟨_, _, _, _, rfl⟩
    simp [hp, toNat_char3] at hplaces ⊢
    omega
  · obtain ⟨s, rfl⟩ := List.length_eq_one_iff.mp hfill
    have hplaces := toNat_char4 a b 0
    have ha := a.toNat_lt
    have hb := b.toNat_lt
    obtain ⟨p₀, p₁, p₂, p₃, hp⟩ : ∃ p₀ p₁ p₂ p₃, char4 [a, b, 0] = [p₀, p₁, p₂, p₃] :=
      ⟨_, _, _, _, rfl⟩
    simp [hp, toNat_char3] at hplaces ⊢
    omega
  · obtain rfl := List.length_eq_zero_iff.mp hfill
    have hplaces := toNat_char4 a b c
    have ha := a.toNat_lt
    have hb := b.toNat_lt
    have hc := c.toNat_lt
    obtain ⟨p₀, p₁, p₂, p₃, hp⟩ : ∃ p₀ p₁ p₂ p₃, char4 [a, b, c] = [p₀, p₁, p₂, p₃] :=
      ⟨_, _, _, _, rfl⟩
    simp [hp, toNat_char3] at hplaces ⊢
    omega
  · simp only [List.length_cons] at hle
    omega

theorem decodeGroup_encodeGroup {group : Bytes} (h : group.length = 3) :
  decodeGroup (encodeGroup group) = group
  := by
  have hfill : ([] : Bytes).length = 3 - group.length := by
    rw [h]
    rfl
  have hround := take_char3_char4 (by omega) (by omega) hfill
  rw [h] at hround
  rw [decodeGroup, encodeGroup, map_find_map_letter fun p => toNat_lt_of_mem_char4]
  simpa [List.take_of_length_le, char4, char3] using hround

/-! ### The loops -/

/-- The variables of the encoder and the decoder: the group that is not yet full, the
bytes written and their number. -/
structure Coder where
  group : Bytes
  out : Bytes
  count : UInt32
  count_eq : count = UInt32.ofNat out.length

namespace Coder

/-- The coder before the first byte. -/
def start : Coder where
  group := []
  out := []
  count := 0
  count_eq := rfl

/-- `*out = b; out++; count++`. -/
def put (s : Coder) (b : Byte) : Coder where
  group := s.group
  out := s.out ++ [b]
  count := s.count + 1
  count_eq := by simp [s.count_eq]

/-- The coder after more bytes. -/
def write (s : Coder) (bytes : Bytes) : Coder :=
  bytes.foldl put s

@[simp]
theorem group_write (s : Coder) (bytes : Bytes) :
  (s.write bytes).group = s.group
  := by
  induction bytes generalizing s with
  | nil => rfl
  | cons b bytes ih => apply ih (s.put b)

@[simp]
theorem out_write (s : Coder) (bytes : Bytes) :
  (s.write bytes).out = s.out ++ bytes
  := by
  induction bytes generalizing s with
  | nil => simp [write]
  | cons b bytes ih =>
    have h : (s.put b).out = s.out ++ [b] := rfl
    rw [write, List.foldl_cons, ← write, ih, h, List.append_assoc, List.singleton_append]

/-- The group of the loop, and what it has written. -/
def gathered (s : Coder) : Gathered Byte Byte :=
  ⟨s.group, s.out⟩

/-- One turn of a loop whose full groups have the size `n` and are written as `f` says. -/
def turn (n : ℕ) (f : Bytes → Bytes) (s : Coder) (b : Byte) : Coder :=
  if (s.group ++ [b]).length = n then { s.write (f (s.group ++ [b])) with group := [] }
  else { s with group := s.group ++ [b] }

theorem gathered_turn (n : ℕ) (f : Bytes → Bytes) (s : Coder) (b : Byte) :
  (s.turn n f b).gathered = s.gathered.gather n f b
  := by
  rw [turn, Gathered.gather]
  split_ifs with h h' h'
  · simp [gathered]
  · apply absurd h h'
  · apply absurd h' h
  · rfl

theorem gathered_foldl_turn (n : ℕ) (f : Bytes → Bytes) (s : Coder) (bytes : Bytes) :
  (bytes.foldl (turn n f) s).gathered = bytes.foldl (Gathered.gather n f) s.gathered
  := by
  induction bytes generalizing s with
  | nil => rfl
  | cons b bytes ih => rw [List.foldl_cons, List.foldl_cons, ih, gathered_turn]

/-- A turn of the encoder. -/
def encodeByte (s : Coder) (b : Byte) : Coder :=
  s.turn 3 encodeGroup b

/-- The end of the encoder: a group of `i` bytes, filled up with zeros, gives `i + 1`
characters and the padding. -/
def encodeRest (s : Coder) : Coder :=
  let i := s.group.length
  if i = 0 then s
  else
    (s.write (((char4 (s.group ++ List.replicate (3 - i) 0)).take (i + 1)).map letter)).write
      (List.replicate (3 - i) padding)

/-- A turn of the decoder. -/
def decodeByte (s : Coder) (c : Byte) : Coder :=
  s.turn 4 decodeGroup c

/-- The loop of the decoder, which ends at a character that is not of the alphabet. -/
def decodeLoop (s : Coder) : Bytes → Coder
  | [] => s
  | c :: encoded =>
    if c ≠ padding ∧ isBase64 c = true then (s.decodeByte c).decodeLoop encoded else s

/-- The end of the decoder: a group of `i` characters, filled up with NULs that are not
found, gives `i - 1` bytes. -/
def decodeRest (s : Coder) : Coder :=
  let i := s.group.length
  if i = 0 then s
  else s.write ((char3 ((s.group ++ List.replicate (4 - i) 0).map find)).take (i - 1))

end Coder

/-- What a function allocated for its result, and what it wrote there. -/
structure Coded where
  size : UInt32
  written : Bytes
deriving DecidableEq

/-- `base64_encode`: the text, and its length. -/
def base64Encode (input : Option Bytes) (len : UInt32) : Option Coded × UInt32 :=
  match input with
  | none => (none, 0)
  | some input =>
    if len = 0 then (none, 0)
    else
      let s := ((input.take len.toNat).foldl Coder.encodeByte Coder.start).encodeRest
      (some ⟨(len + 13) / 3 * 4, s.out ++ [0]⟩, s.count)

/-- `base64_decode`: the data, and their length. -/
def base64Decode (encodedString : Option Bytes) (inLen : UInt32) : Option (Coded × UInt32) :=
  encodedString.map fun encoded =>
    let s := (Coder.start.decodeLoop (encoded.take inLen.toNat)).decodeRest
    (⟨3 * (inLen / 4) + 2, s.out ++ [0]⟩, s.count)

/-! ### Decoding undoes encoding -/

namespace Coder

/-- The decoder reads as far as the characters are of the alphabet. -/
def letters (encoded : Bytes) : Bytes :=
  encoded.takeWhile fun c => c != padding && isBase64 c

theorem decodeLoop_eq (s : Coder) (encoded : Bytes) :
  s.decodeLoop encoded = (letters encoded).foldl decodeByte s
  := by
  induction encoded generalizing s with
  | nil => rfl
  | cons c encoded ih =>
    rw [decodeLoop, letters, List.takeWhile_cons]
    by_cases hc : c ≠ padding ∧ isBase64 c = true
    · have hletter : (c != padding && isBase64 c) = true := by simpa using hc
      rw [if_pos hc, if_pos hletter, List.foldl_cons]
      apply ih
    · have hother : ¬ (c != padding && isBase64 c) = true := by simpa using hc
      rw [if_neg hc, if_neg hother]
      rfl

/-- The decoder reads letters up to the padding or the end. -/
theorem decodeLoop_append {body beyond : Bytes}
    (hbody : ∀ c ∈ body, c ≠ padding ∧ isBase64 c = true)
    (hend : beyond = [] ∨ ∃ rest, beyond = padding :: rest) (s : Coder) :
  s.decodeLoop (body ++ beyond) = body.foldl decodeByte s
  := by
  have hletters : ∀ c ∈ body, (c != padding && isBase64 c) = true := by simpa using hbody
  have hstop : letters beyond = [] := by
    rcases hend with rfl | ⟨rest, rfl⟩
    · rfl
    · apply List.takeWhile_cons_of_neg
      simp
  rw [letters] at hstop
  rw [decodeLoop_eq, letters, List.takeWhile_append_of_pos hletters, hstop, List.append_nil]

/-- The characters of the last group. -/
def restLetters (rest : Bytes) : Bytes :=
  if rest.length = 0 then []
  else
    ((char4 (rest ++ List.replicate (3 - rest.length) 0)).take (rest.length + 1)).map letter

theorem length_restLetters (rest : Bytes) (h : rest.length < 3) :
  (restLetters rest).length = if rest.length = 0 then 0 else rest.length + 1
  := by
  rw [restLetters]
  split_ifs
  · rfl
  · rw [List.length_map, List.length_take, length_char4]
    omega

/-- All that is written before the padding are letters. -/
theorem exists_letter_of_mem {b : Byte} {rest : Bytes}
    (h : (∃ group, b ∈ encodeGroup group) ∨ b ∈ restLetters rest) :
  ∃ place : Byte, place.toNat < 64 ∧ letter place = b
  := by
  have hgroup : ∃ group, b ∈ encodeGroup group := by
    rcases h with h | h
    · apply h
    · rw [restLetters] at h
      split_ifs at h
      · cases h
      · obtain ⟨place, hplace, rfl⟩ := List.mem_map.mp h
        exact ⟨_, List.mem_map_of_mem (List.mem_of_mem_take hplace)⟩
  obtain ⟨group, hb⟩ := hgroup
  obtain ⟨place, hplace, rfl⟩ := List.mem_map.mp hb
  exact ⟨place, toNat_lt_of_mem_char4 hplace, rfl⟩

theorem out_encodeRest {s : Coder} (h : s.group.length < 3) :
  s.encodeRest.out = s.out ++ restLetters s.group
    ++ List.replicate ((3 - s.group.length) % 3) padding
  := by
  rw [encodeRest, restLetters]
  split_ifs with h0
  · simp [h0]
  · have hmod : (3 - s.group.length) % 3 = 3 - s.group.length := Nat.mod_eq_of_lt (by omega)
    simp [hmod]

theorem out_decodeRest {s : Coder} {rest : Bytes} (hrest : rest.length < 3)
    (h : s.group = restLetters rest) :
  s.decodeRest.out = s.out ++ rest
  := by
  rw [restLetters] at h
  split_ifs at h with h0
  · rw [decodeRest, h, List.eq_nil_of_length_eq_zero h0]
    simp
  · have hlength : s.group.length = rest.length + 1 := by
      rw [h, List.length_map, List.length_take, length_char4]
      omega
    have hfind : s.group.map find
        = (char4 (rest ++ List.replicate (3 - rest.length) 0)).take (rest.length + 1) := by
      rw [h, map_find_map_letter]
      intro p hp
      apply toNat_lt_of_mem_char4 (List.mem_of_mem_take hp)
    rw [decodeRest, if_neg (by omega), out_write, List.map_append, hfind, hlength,
      Nat.add_sub_cancel, take_char3_char4 (by omega) (by omega)]
    rw [List.length_map, List.length_replicate]
    omega

/-- The encoder gives letters for the full groups and keeps the rest; from the letters the
decoder gives the full groups back and keeps the letters of the rest. -/
theorem exists_made (x : Bytes) :
  ∃ whole rest made, x = whole ++ rest ∧ rest.length = x.length % 3
    ∧ made.length = 4 * (x.length / 3) ∧ (∀ c ∈ made, ∃ group, c ∈ encodeGroup group)
    ∧ (x.foldl encodeByte start).gathered = ⟨rest, made⟩
    ∧ ((made ++ restLetters rest).foldl decodeByte start).gathered = ⟨restLetters rest, whole⟩
  := by
  obtain ⟨whole, rest, made, hx, hrest, hmade, hfrom, hfold, hback⟩ :=
    Gathered.exists_foldl_gather (g := decodeGroup) (by decide : 0 < 3) (by decide : 0 < 4)
      (fun c _ => rfl : ∀ c : Bytes, c.length = 3 → (encodeGroup c).length = 4)
      (fun c => decodeGroup_encodeGroup) x [] []
  refine ⟨whole, rest, made, hx, hrest, hmade, hfrom, ?_, ?_⟩
  · apply (gathered_foldl_turn 3 encodeGroup start x).trans hfold
  · have hlt : rest.length < 3 := by
      rw [hrest]
      apply Nat.mod_lt _ (by decide)
    have hshort : (restLetters rest).length < 4 := by
      rw [length_restLetters rest hlt]
      split_ifs
      · decide
      · omega
    have hstart : start.gathered = ⟨[], []⟩ := rfl
    apply (gathered_foldl_turn 4 decodeGroup start _).trans
    rw [List.foldl_append, hstart, hback,
      Gathered.foldl_gather_of_lt _ _ (by simpa using hshort)]
    rfl

/-- The text for some bytes: letters and the padding, four characters for each three
bytes begun.  The decoder gives the bytes back. -/
theorem exists_encoded (x : Bytes) :
  ∃ body, (∀ c ∈ body, c ∈ alphabet)
    ∧ (x.foldl encodeByte start).encodeRest.out
        = body ++ List.replicate ((3 - x.length % 3) % 3) padding
    ∧ (body ++ List.replicate ((3 - x.length % 3) % 3) padding).length
        = 4 * ((x.length + 2) / 3)
    ∧ (start.decodeLoop
        (body ++ List.replicate ((3 - x.length % 3) % 3) padding)).decodeRest.out = x
  := by
  obtain ⟨whole, rest, made, hx, hrest, hmade, hfrom, hencoded, hdecoded⟩ := exists_made x
  have hlt : rest.length < 3 := by
    rw [hrest]
    apply Nat.mod_lt _ (by decide)
  have hletter : ∀ c ∈ made ++ restLetters rest,
      ∃ place : Byte, place.toNat < 64 ∧ letter place = c := by
    intro c hc
    apply exists_letter_of_mem
    apply (List.mem_append.mp hc).imp_left (hfrom c)
  have hgroup : (x.foldl encodeByte start).group = rest := congrArg Gathered.group hencoded
  have hout : (x.foldl encodeByte start).out = made := congrArg Gathered.out hencoded
  refine ⟨made ++ restLetters rest, ?_, ?_, ?_, ?_⟩
  · intro c hc
    obtain ⟨place, hplace, rfl⟩ := hletter c hc
    apply (find_letter hplace).2.1
  · rw [out_encodeRest (by rw [hgroup]; apply hlt), hgroup, hout, hrest]
  · rw [List.length_append, List.length_append, List.length_replicate, hmade,
      length_restLetters rest hlt, hrest]
    split_ifs
    · omega
    · omega
  · have hbody : ∀ c ∈ made ++ restLetters rest, c ≠ padding ∧ isBase64 c = true := by
      intro c hc
      obtain ⟨place, hplace, rfl⟩ := hletter c hc
      exact ⟨(find_letter hplace).2.2.2, (find_letter hplace).2.2.1⟩
    rw [decodeLoop_append hbody, out_decodeRest hlt (congrArg Gathered.group hdecoded), hx]
    · congr 1
      apply congrArg Gathered.out hdecoded
    · cases (3 - x.length % 3) % 3 with
      | zero => exact Or.inl rfl
      | succ k => exact Or.inr ⟨_, rfl⟩

end Coder

/-- The encoder gives four characters for each three bytes begun, all of the alphabet but
the padding, and the decoder gives the bytes back, from which the encoder gives the same
text. -/
theorem base64Decode_base64Encode (x : Bytes) (hpos : 1 ≤ x.length)
    (hlt : x.length < 3221225459) :
  ∃ (encoded body : Bytes) (len size size' : UInt32),
    (∀ beyond, base64Encode (some (x ++ beyond)) (UInt32.ofNat x.length)
        = (some ⟨size, encoded ++ [0]⟩, len))
      ∧ len.toNat = encoded.length ∧ encoded.length = 4 * ((x.length + 2) / 3)
      ∧ encoded = body ++ List.replicate ((3 - x.length % 3) % 3) padding
      ∧ (∀ c ∈ body, c ∈ alphabet)
      ∧ (∀ beyond, base64Decode (some (encoded ++ beyond)) len
        = some (⟨size', x ++ [0]⟩, UInt32.ofNat x.length))
      ∧ base64Encode (some (x ++ [0])) (UInt32.ofNat x.length)
        = (some ⟨size, encoded ++ [0]⟩, len)
  := by
  obtain ⟨body, hbody, hout, hlength, hback⟩ := Coder.exists_encoded x
  have hsize : (UInt32.ofNat x.length).toNat = x.length := by
    rw [UInt32.toNat_ofNat']
    omega
  have hne : UInt32.ofNat x.length ≠ 0 := by
    intro h0
    rw [h0] at hsize
    simp at hsize
    omega
  set s := (x.foldl Coder.encodeByte Coder.start).encodeRest with hs
  have hcount : s.count.toNat = s.out.length := by
    rw [s.count_eq, UInt32.toNat_ofNat', hout, hlength]
    omega
  have hencode : ∀ beyond, base64Encode (some (x ++ beyond)) (UInt32.ofNat x.length)
      = (some ⟨(UInt32.ofNat x.length + 13) / 3 * 4, s.out ++ [0]⟩, s.count) := by
    intro beyond
    rw [base64Encode]
    simp only [if_neg hne, hsize, List.take_left]
    rw [← hs]
  refine ⟨s.out, body, s.count, (UInt32.ofNat x.length + 13) / 3 * 4,
    3 * (s.count / 4) + 2, hencode, hcount, ?_, hout, hbody, ?_, hencode [0]⟩
  · rw [hout, hlength]
  · intro beyond
    have hdecoded := Coder.count_eq (Coder.start.decodeLoop
      (body ++ List.replicate ((3 - x.length % 3) % 3) padding)).decodeRest
    rw [hback] at hdecoded
    rw [base64Decode, Option.map_some, hcount, List.take_left, hout]
    simp only [hback, hdecoded]

theorem base64Decode_base64Encode_dog :
  ∃ (encoded body : Bytes) (len size size' : UInt32),
    (∀ beyond, base64Encode (some (text "dog." ++ beyond)) (UInt32.ofNat 4)
        = (some ⟨size, encoded ++ [0]⟩, len))
      ∧ len.toNat = encoded.length ∧ encoded.length = 8
      ∧ encoded = body ++ [padding, padding] ∧ (∀ c ∈ body, c ∈ alphabet)
      ∧ (∀ beyond, base64Decode (some (encoded ++ beyond)) len
        = some (⟨size', text "dog." ++ [0]⟩, UInt32.ofNat 4))
      ∧ base64Encode (some (text "dog." ++ [0])) (UInt32.ofNat 4)
        = (some ⟨size, encoded ++ [0]⟩, len)
  := base64Decode_base64Encode (text "dog.") (by decide) (by decide)

example :
  base64Encode (some (text "dog.")) 4 = (some ⟨20, text "ZG9nLg==" ++ [0]⟩, 8)
  := by decide +kernel

end Trailermatic
