import Mathlib.Tactic.Common
import Mathlib.Data.List.TakeWhile

/-!
# Bytes and C strings

Memory is a list of bytes.  The C string at a place in memory is what stands there
before the first NUL.  `Str` is a C string that is not empty: the only strings
`amStrdup` gives, since it gives `NULL` for an empty one.  The classes of characters are
those of the "C" locale, which the program never leaves.  A write into a buffer of a fixed
size is recorded with its length.  The program is the release build, in which assertions
are off.
-/

namespace Trailermatic

abbrev Byte := UInt8

abbrev Bytes := List Byte

/-- The bytes of an ASCII text. -/
def text (s : String) : Bytes :=
  s.toList.map Char.toUInt8

/-- The C string at `s`. -/
def cstr (s : Bytes) : Bytes :=
  s.takeWhile (· != 0)

/-- The number of bytes before the first NUL. -/
def strlen (s : Bytes) : ℕ :=
  (cstr s).length

theorem nul_notMem_cstr (s : Bytes) :
  (0 : Byte) ∉ cstr s
  := by
  intro h
  have h0 := List.mem_takeWhile_imp h
  simp at h0

/-- Memory without a NUL is read as a whole. -/
theorem cstr_of_notMem {s : Bytes} (h : (0 : Byte) ∉ s) :
  cstr s = s
  := by
  apply List.takeWhile_eq_self_iff.mpr
  intro b hb
  rw [bne_iff_ne]
  rintro rfl
  apply h hb

theorem cstr_initial (s : Bytes) :
  cstr s <+: s
  := List.takeWhile_prefix _

/-! ### Strings -/

/-- A C string that is not empty. -/
structure Str where
  bytes : Bytes
  ne_nil : bytes ≠ []
  nul_notMem : (0 : Byte) ∉ bytes
deriving DecidableEq

theorem Str.ext {u v : Str} (h : u.bytes = v.bytes) :
  u = v
  := by
  cases u
  cases v
  cases h
  rfl

/-- The string at `s`, when it is not empty. -/
def Str.ofBytes (s : Bytes) : Option Str :=
  if h : cstr s = [] then none else some ⟨cstr s, h, nul_notMem_cstr s⟩

theorem Str.ofBytes_eq_some_iff {s : Bytes} {u : Str} :
  Str.ofBytes s = some u ↔ u.bytes = cstr s
  := by
  rw [Str.ofBytes]
  split_ifs with h
  · simp only [false_iff]
    intro hu
    apply u.ne_nil
    rw [hu, h]
  · constructor
    · intro hu
      cases hu
      rfl
    · intro hu
      congr 1
      apply Str.ext
      symm
      apply hu

@[simp]
theorem Str.ofBytes_bytes (u : Str) :
  Str.ofBytes u.bytes = some u
  := by
  rw [Str.ofBytes_eq_some_iff, cstr_of_notMem u.nul_notMem]

/-- `am_strdup`: a copy of a string, `NULL` for an empty one.  The length is an `int` in the source,
so that this is the copy of a string of less than `INT_MAX` bytes; `copyWhole` copies any other
one. -/
def amStrdup (s : Bytes) : Option Str :=
  Str.ofBytes s

/-- `am_strndup`: a copy of the first `len` bytes, `NULL` for an empty string, where `len` and
`len + 1` are an `int`; `copyPart` takes any `int`. -/
def amStrndup (s : Bytes) (len : ℕ) : Option Bytes :=
  if cstr s = [] then none else some (s.take len)

/-! ### Characters -/

def newline : Byte := 10

def isspace (b : Byte) : Bool :=
  b == 32 || (9 ≤ b && b ≤ 13)

/-- Bytes that are all whitespace. -/
def Blank (gap : Bytes) : Prop :=
  ∀ b ∈ gap, isspace b = true

instance (gap : Bytes) : Decidable (Blank gap) :=
  decidable_of_iff (gap.all isspace = true) List.all_eq_true

def isprint (b : Byte) : Bool :=
  32 ≤ b && b ≤ 126

def isdigit (b : Byte) : Bool :=
  48 ≤ b && b ≤ 57

theorem isspace_newline :
  isspace newline = true
  := rfl

/-- Of the printable characters only the blank is a space. -/
theorem isspace_of_isprint {b : Byte} (h : isprint b = true) (hb : b ≠ 32) :
  isspace b = false
  := by
  grind [isprint, isspace, UInt8.le_iff_toNat_le]

theorem newline_of_isprint {b : Byte} (h : isprint b = true) :
  b ≠ newline
  := by
  grind [isprint, newline, UInt8.le_iff_toNat_le]

theorem nul_of_isprint {b : Byte} (h : isprint b = true) :
  b ≠ 0
  := by
  grind [isprint, UInt8.le_iff_toNat_le]

/-! ### Buffers of fixed size -/

/-- The largest `int`. -/
def INT_MAX : ℕ := 2147483647

def PATH_MAX : ℕ := 4096

def MAX_LINE_LEN : ℕ := 300

def MAX_OPT_LEN : ℕ := 50

def MAX_PARAM_LEN : ℕ := 20000

/-- The buffers of a fixed size that text from outside is copied into: `tmp` and `buf` of
`get_filename`, `path` of `processRSSList`, `tmp` of `save_state`, and `opt` and `param`
of `parse_config_file`. -/
inductive Buffer where
  | tmp | buf | path | line | opt | param
deriving DecidableEq

/-- The sizes of the buffers, as they are declared. -/
def Buffer.size : Buffer → ℕ
  | .tmp => PATH_MAX
  | .buf => PATH_MAX
  | .path => 4096
  | .line => MAX_LINE_LEN + 1
  | .opt => MAX_OPT_LEN + 1
  | .param => MAX_PARAM_LEN + 1

/-- A write into a fixed buffer, from its first byte on. -/
structure Copy where
  buffer : Buffer
  bytes : ℕ
deriving DecidableEq

/-- The copy stays inside its buffer. -/
def Copy.Fits (c : Copy) : Prop :=
  c.bytes ≤ c.buffer.size

instance (c : Copy) : Decidable c.Fits :=
  inferInstanceAs (Decidable (c.bytes ≤ c.buffer.size))

end Trailermatic
