import Trailermatic.Prowl
import Trailermatic.Library.Form

/-!
# The text of a notification

`createProwlMessage` allocates 80 bytes more than its three strings have and formats them
into the body of a form.  The body is never cut off, but the strings are written into it
as they are: `createProwlMessage_decodes_iff` says for which strings the form is read back
as it was meant.
-/

namespace Trailermatic

namespace Message

/-- The text `createProwlMessage` formats. -/
def format (apikey event desc : Bytes) : Bytes :=
  text "apikey=" ++ apikey ++ text "&priority=0&application=Trailermatic&event=" ++ event
    ++ text "&description=" ++ desc

/-- `strlen` as it is stored in the variable of a length, which is `0` for `NULL`. -/
def storedLength (s : Option Bytes) : Int32 :=
  s.elim 0 fun s => Int32.ofNat (strlen s)

/-- The string `%s` prints; glibc prints "(null)" for `NULL`. -/
def printed (s : Option Bytes) : Bytes :=
  s.elim (text "(null)") cstr

/-- What `snprintf` returns for a text. -/
def snprintfResult (s : Bytes) : Int32 :=
  if s.length ≤ INT_MAX then Int32.ofNat s.length else -1

/-- The message, and its reported size.  A negative total is a size no allocation has. -/
def createProwlMessage (apikey event desc : Option Bytes) : Option Bytes × Int32 :=
  match apikey with
  | none => (none, 0)
  | some key =>
    if event.isNone && desc.isNone then (none, 0)
    else
      let totalSize := storedLength (some key) + storedLength event + storedLength desc + 80
      if totalSize < 0 then (none, 0)
      else
        let message := format (cstr key) (printed event) (printed desc)
        (some (snprintf totalSize.toNatClampNeg message), snprintfResult message)

/-- The fields of a message. -/
def fields (apikey event desc : Bytes) : List (Bytes × Bytes) :=
  [ (text "apikey", apikey), (text "priority", text "0"),
    (text "application", text "Trailermatic"), (text "event", event),
    (text "description", desc) ]

/-- The message is whole, its size is its length, and its form is read back as the fields. -/
def Decodes (result : Option Bytes × Int32) (apikey event desc : Bytes) : Prop :=
  ∃ message, result.1 = some message ∧ message = format apikey event desc
    ∧ result.2.toInt = message.length ∧ Form.decode message = fields apikey event desc

/-- The text is the form of the fields, all written as they are. -/
theorem format_eq_join (apikey event desc : Bytes) :
  format apikey event desc = Form.join (fields apikey event desc)
  := by
  have hmiddle : text "&priority=0&application=Trailermatic&event="
      = Form.ampersand :: (text "priority" ++ Form.equals :: text "0") ++ Form.ampersand ::
        (text "application" ++ Form.equals :: text "Trailermatic") ++ Form.ampersand ::
        (text "event" ++ [Form.equals]) := by
    decide
  have hdescription : text "&description="
      = Form.ampersand :: (text "description" ++ [Form.equals]) := by
    decide
  have hapikey : text "apikey=" = text "apikey" ++ [Form.equals] := by
    decide
  rw [format, hmiddle, hdescription, hapikey]
  simp [Form.join, fields, List.intercalate]

theorem length_format (apikey event desc : Bytes) :
  (format apikey event desc).length = apikey.length + event.length + desc.length + 63
  := by
  have hapikey : (text "apikey=").length = 7 := by decide
  have hmiddle : (text "&priority=0&application=Trailermatic&event=").length = 43 := by
    decide
  have hdescription : (text "&description=").length = 13 := by decide
  simp only [format, List.length_append, hapikey, hmiddle, hdescription]
  omega

/-- Within the bound of the sizes nothing is cut off, and the size is the length. -/
theorem createProwlMessage_eq {apikey event desc : Bytes}
    (h : strlen apikey + strlen event + strlen desc < 2147483568) :
  createProwlMessage (some apikey) (some event) (some desc)
    = (some (format (cstr apikey) (cstr event) (cstr desc)),
      Int32.ofNat (format (cstr apikey) (cstr event) (cstr desc)).length)
  := by
  have hlength := length_format (cstr apikey) (cstr event) (cstr desc)
  simp only [strlen] at h
  have htotal : storedLength (some apikey) + storedLength (some event)
      + storedLength (some desc) + 80
        = Int32.ofNat (strlen apikey + strlen event + strlen desc + 80) := by
    simp [storedLength, Int32.ofNat_add]
  have hnat : (Int32.ofNat (strlen apikey + strlen event + strlen desc + 80)).toNatClampNeg
      = strlen apikey + strlen event + strlen desc + 80 := by
    apply Int32.toNatClampNeg_ofNat_of_lt
    simp only [strlen]
    omega
  have hpos : ¬ Int32.ofNat (strlen apikey + strlen event + strlen desc + 80) < 0 := by
    rw [Int32.lt_iff_toInt_lt, Int32.toInt_ofNat_of_lt]
    · simp
      omega
    · simp only [strlen]
      omega
  rw [createProwlMessage]
  simp only [Option.isNone_some, Bool.and_self, Bool.false_eq_true, if_false, htotal, hnat,
    if_neg hpos, printed, Option.elim_some]
  rw [snprintf, snprintfResult, List.take_of_length_le, if_pos]
  · rw [hlength, INT_MAX]
    omega
  · rw [hlength]
    simp only [strlen]
    omega

/-- The notifications the program sends have the message of its strings. -/
theorem createProwlMessage_fst {key : Str} {event desc : Bytes} (hevent : (0 : Byte) ∉ event)
    (hdesc : (0 : Byte) ∉ desc)
    (h : strlen key.bytes + strlen event + strlen desc < 2147483568) :
  (createProwlMessage (some key.bytes) (some event) (some desc)).1
    = Trailermatic.createProwlMessage (some key) event desc
  := by
  rw [createProwlMessage_eq h, cstr_of_notMem key.nul_notMem, cstr_of_notMem hevent,
    cstr_of_notMem hdesc]
  rfl

theorem plain_names (apikey event desc : Bytes) :
  ∀ f ∈ fields apikey event desc, Form.Plain f.1 ∧ Form.equals ∉ f.1
  := by
  simp only [fields, List.forall_mem_cons]
  decide

/-- Of three strings within the bound of the sizes the message is whole and its reported
size is its length, and it is read back as their fields exactly if the strings have no
`&`, no `+` and no `%` before two hexadecimal digits. -/
theorem createProwlMessage_decodes_iff {apikey event desc : Bytes}
    (h : strlen apikey + strlen event + strlen desc < 2147483568) :
  Decodes (createProwlMessage (some apikey) (some event) (some desc)) (cstr apikey)
      (cstr event) (cstr desc)
    ↔ Form.Plain (cstr apikey) ∧ Form.Plain (cstr event) ∧ Form.Plain (cstr desc)
  := by
  have hlength := length_format (cstr apikey) (cstr event) (cstr desc)
  have hsize : (Int32.ofNat (format (cstr apikey) (cstr event) (cstr desc)).length).toInt
      = (format (cstr apikey) (cstr event) (cstr desc)).length := by
    apply Int32.toInt_ofNat_of_lt
    rw [hlength]
    simp only [strlen] at h
    omega
  have hvalues : (∀ f ∈ fields (cstr apikey) (cstr event) (cstr desc), Form.Plain f.2)
      ↔ Form.Plain (cstr apikey) ∧ Form.Plain (cstr event) ∧ Form.Plain (cstr desc) := by
    have hpriority : Form.Plain (text "0") := by decide
    have happlication : Form.Plain (text "Trailermatic") := by decide
    simp [fields, hpriority, happlication]
  have hne : fields (cstr apikey) (cstr event) (cstr desc) ≠ [] := List.cons_ne_nil _ _
  rw [← hvalues, ← Form.decode_join_iff hne (plain_names _ _ _), ← format_eq_join,
    createProwlMessage_eq h]
  constructor
  · rintro ⟨message, -, rfl, -, hdecode⟩
    apply hdecode
  · intro hdecode
    exact ⟨_, rfl, rfl, hsize, hdecode⟩

theorem createProwlMessage_decodes_iff_tom :
  Decodes (createProwlMessage (some (text "key")) (some (text "New Trailer"))
      (some (text "Tom & Jerry"))) (text "key") (text "New Trailer") (text "Tom & Jerry")
    ↔ Form.Plain (text "key") ∧ Form.Plain (text "New Trailer")
      ∧ Form.Plain (text "Tom & Jerry")
  := @createProwlMessage_decodes_iff (text "key") (text "New Trailer") (text "Tom & Jerry")
    (by decide)

/-- The description of a film whose name has an ampersand is cut off there. -/
theorem createProwlMessage_tom :
  ¬ Decodes (createProwlMessage (some (text "key")) (some (text "New Trailer"))
      (some (text "Tom & Jerry"))) (text "key") (text "New Trailer") (text "Tom & Jerry")
  := by
  rintro ⟨message, hmessage, -, -, hdecode⟩
  have hform : (createProwlMessage (some (text "key")) (some (text "New Trailer"))
      (some (text "Tom & Jerry"))).1.map Form.decode ≠ some (fields (text "key")
        (text "New Trailer") (text "Tom & Jerry")) := by
    decide +kernel
  apply hform
  rw [hmessage, Option.map_some, hdecode]

end Message

end Trailermatic
