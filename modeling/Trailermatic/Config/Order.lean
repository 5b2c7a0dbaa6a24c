import Trailermatic.Config.Interval
import Trailermatic.Library.Fields

/-!
# The order of options

Each option sets one field of the session, and reads no other one.  So a configuration can
mix the options of different fields as it likes: `configured_order` says that only the order
of those that set the same field matters.
-/

namespace Trailermatic

/-- The fields that options set. -/
inductive Field where
  | feeds
  | filters
  | downloadFolder
  | statefile
  | checkInterval
  | prowlKey
  | downloadDoneScript
deriving DecidableEq

/-- The type of a field of the session. -/
def Field.Value : Field → Type
  | .feeds => List RssFeed
  | .filters => List Filter
  | .downloadFolder => Str
  | .statefile => Str
  | .checkInterval => UInt8
  | .prowlKey => Option Str
  | .downloadDoneScript => Option Str

/-- The value of a field. -/
def Session.get (s : Session) : (f : Field) → f.Value
  | .feeds => s.feeds
  | .filters => s.filters
  | .downloadFolder => s.downloadFolder
  | .statefile => s.statefile
  | .checkInterval => s.checkInterval
  | .prowlKey => s.prowlKey
  | .downloadDoneScript => s.downloadDoneScript

/-- The session with another value of a field. -/
def Session.set (s : Session) : (f : Field) → f.Value → Session
  | .feeds, feeds => { s with feeds := feeds }
  | .filters, filters => { s with filters := filters }
  | .downloadFolder, path => { s with downloadFolder := path }
  | .statefile, path => { s with statefile := path }
  | .checkInterval, n => { s with checkInterval := n }
  | .prowlKey, key => { s with prowlKey := key }
  | .downloadDoneScript, script => { s with downloadDoneScript := script }

/-- A session as a record of these fields. -/
def sessionFields : Fields Session Field where
  Value := Field.Value
  get f s := s.get f
  set f s v := s.set f v
  get_set {f g} h s v := by
    cases f <;> cases g <;> first | rfl | exact absurd rfl h
  set_comm {f g} h s v u := by
    cases f <;> cases g <;> first | rfl | exact absurd rfl h

/-- The field that an option sets. -/
def optionField (opt : Bytes) : Option Field :=
  if opt = text "url" then some .feeds
  else if opt = text "feed" then some .feeds
  else if opt = text "download-folder" then some .downloadFolder
  else if opt = text "statefile" then some .statefile
  else if opt = text "interval" then some .checkInterval
  else if opt = text "patterns" then some .filters
  else if opt = text "filter" then some .filters
  else if opt = text "prowl-apikey" then some .prowlKey
  else if opt = text "download-done-script" then some .downloadDoneScript
  else none

/-- The update that a call of `setOption` is, if it is one. -/
def callUpdate (pcre : Pcre) (home : Option Str) (call : Bytes × Bytes × OptionType) :
    Option sessionFields.Update :=
  let opt := call.1
  let param := call.2.1
  if opt = text "url" then some ⟨.feeds, fun feeds => getFeeds pcre feeds param⟩
  else if opt = text "feed" then some ⟨.feeds, fun feeds => parseFeed pcre feeds param⟩
  else if opt = text "download-folder" then
    some ⟨.downloadFolder, fun path => setPath home param path⟩
  else if opt = text "statefile" then some ⟨.statefile, fun path => setPath home param path⟩
  else if opt = text "interval" then
    some ⟨.checkInterval, fun n => some (intervalAfter n param)⟩
  else if opt = text "patterns" then
    some ⟨.filters, fun filters => addPatternsOld filters param⟩
  else if opt = text "filter" then some ⟨.filters, fun filters => parseFilter filters param⟩
  else if opt = text "prowl-apikey" then some ⟨.prowlKey, fun _ => some (amStrdup param)⟩
  else if opt = text "download-done-script" then
    some ⟨.downloadDoneScript, fun _ => some (amStrdup param)⟩
  else none

theorem callUpdate_field (pcre : Pcre) (home : Option Str) (call : Bytes × Bytes × OptionType) :
  (callUpdate pcre home call).map Fields.Update.field = optionField call.1
  := by
  simp only [callUpdate, optionField, apply_ite (Option.map Fields.Update.field),
    Option.map_some, Option.map_none]

theorem setOption_eq_apply (pcre : Pcre) (home : Option Str) (s : Session)
    (call : Bytes × Bytes × OptionType) :
  setOption pcre home (some s) call.1 call.2.1 call.2.2
    = ((callUpdate pcre home call).map (sessionFields.apply (some s))).getD (some s)
  := by
  simp only [setOption, callUpdate, Option.bind_some]
  by_cases hurl : call.1 = text "url"
  · simp only [if_pos hurl]
    rfl
  simp only [if_neg hurl]
  by_cases hfeed : call.1 = text "feed"
  · simp only [if_pos hfeed]
    rfl
  simp only [if_neg hfeed]
  by_cases hfolder : call.1 = text "download-folder"
  · simp only [if_pos hfolder]
    rfl
  simp only [if_neg hfolder]
  by_cases hstatefile : call.1 = text "statefile"
  · simp only [if_pos hstatefile]
    rfl
  simp only [if_neg hstatefile]
  by_cases hinterval : call.1 = text "interval"
  · simp only [if_pos hinterval]
    change _ = some { s with checkInterval := intervalAfter s.checkInterval call.2.1 }
    rw [intervalAfter]
    split_ifs
    · rfl
    · rfl
  simp only [if_neg hinterval]
  by_cases hpatterns : call.1 = text "patterns"
  · simp only [if_pos hpatterns]
    rfl
  simp only [if_neg hpatterns]
  by_cases hfilter : call.1 = text "filter"
  · simp only [if_pos hfilter]
    rfl
  simp only [if_neg hfilter]
  by_cases hkey : call.1 = text "prowl-apikey"
  · simp only [if_pos hkey]
    rfl
  simp only [if_neg hkey]
  by_cases hscript : call.1 = text "download-done-script"
  · simp only [if_pos hscript]
    rfl
  simp only [if_neg hscript]
  rfl

/-- An option leaves the fields alone that it does not set. -/
theorem get_setOption {pcre : Pcre} {home : Option Str} {s s' : Session}
    {call : Bytes × Bytes × OptionType} {f : Field}
    (h : setOption pcre home (some s) call.1 call.2.1 call.2.2 = some s')
    (hf : optionField call.1 ≠ some f) :
  s'.get f = s.get f
  := by
  rw [setOption_eq_apply] at h
  have hfield := callUpdate_field pcre home call
  cases hcall : callUpdate pcre home call with
  | none =>
    rw [hcall] at h
    cases h
    rfl
  | some u =>
    rw [hcall] at h hfield
    apply sessionFields.get_apply_of_ne h
    rintro rfl
    apply hf hfield.symm

/-- The calls come down to the updates among them. -/
theorem applyCalls_eq_foldl (pcre : Pcre) (home : Option Str) (state : Option Session)
    (calls : List (Bytes × Bytes × OptionType)) :
  applyCalls (setOption pcre home) state calls
    = (calls.filterMap (callUpdate pcre home)).foldl sessionFields.apply state
  := by
  induction calls generalizing state with
  | nil => rfl
  | cons call calls ih =>
    have hcall : setOption pcre home state call.1 call.2.1 call.2.2
        = ((callUpdate pcre home call).map (sessionFields.apply state)).getD state := by
      cases state with
      | none =>
        cases callUpdate pcre home call with
        | none => rfl
        | some u => rfl
      | some s => apply setOption_eq_apply
    rw [applyCalls, List.foldl_cons, ← applyCalls, hcall, ih, List.filterMap_cons]
    cases callUpdate pcre home call with
    | none => rfl
    | some u => rfl

/-- The updates of a field are those of the calls that set it. -/
theorem filter_updates (pcre : Pcre) (home : Option Str) (f : Field)
    (calls : List (Bytes × Bytes × OptionType)) :
  (calls.filterMap (callUpdate pcre home)).filter (·.field = f)
    = (calls.filter (optionField ·.1 = some f)).filterMap (callUpdate pcre home)
  := by
  induction calls with
  | nil => rfl
  | cons call calls ih =>
    have hfield := callUpdate_field pcre home call
    rw [List.filterMap_cons, List.filter_cons]
    cases hcall : callUpdate pcre home call with
    | none =>
      rw [hcall, Option.map_none] at hfield
      simp [← hfield, ih]
    | some u =>
      rw [hcall, Option.map_some] at hfield
      by_cases hu : u.field = f
      · simp [← hfield, hu, hcall, ih]
      · simp [← hfield, hu, ih]

/-- Two lists of calls leave the same session if they have the same calls, in the same order,
for each field. -/
theorem applyCalls_eq_of_fields (pcre : Pcre) (home : Option Str) (state : Option Session)
    {calls calls' : List (Bytes × Bytes × OptionType)}
    (h : ∀ f, calls.filter (optionField ·.1 = some f) = calls'.filter (optionField ·.1 = some f)) :
  applyCalls (setOption pcre home) state calls = applyCalls (setOption pcre home) state calls'
  := by
  rw [applyCalls_eq_foldl, applyCalls_eq_foldl]
  apply sessionFields.foldl_apply_eq
  intro f
  rw [filter_updates, filter_updates, h f]

/-- Two configurations whose options are the same, in the same order, for each field leave the
same session, or both leave none: options of different fields can be mixed in any order, and
options that set no field can be added anywhere. -/
theorem configured_order {file file' : Option Bytes} {beyond beyond' : Bytes}
    {r r' : Parsed (List (Bytes × Bytes × OptionType))}
    (hr : parseConfigFile record file beyond [] = some r)
    (hr' : parseConfigFile record file' beyond' [] = some r')
    (h : ∀ f, r.state.filter (optionField ·.1 = some f)
      = r'.state.filter (optionField ·.1 = some f))
    (pcre : Pcre) (home : Option Str) (state : Option Session) :
  (parseConfigFile (setOption pcre home) file beyond state).map (·.state)
    = (parseConfigFile (setOption pcre home) file' beyond' state).map (·.state)
  := by
  rw [parseConfigFile_calls, parseConfigFile_calls _ file', hr, hr']
  simp only [Option.map_some, Parsed.mapState]
  rw [applyCalls_eq_of_fields pcre home state h]

/-- A feed before a pattern. -/
def feedFirst : Bytes :=
  text "url = \"a\"\npatterns = \"m\"\n"

def patternFirst : Bytes :=
  text "patterns = \"m\"\nurl = \"a\"\n"

theorem configured_order_swapped :
  (parseConfigFile (setOption .plain none) (some feedFirst) (text "x")
      (some (Session.plain [] []))).map (·.state)
    = (parseConfigFile (setOption .plain none) (some patternFirst) (text "x")
      (some (Session.plain [] []))).map (·.state)
  := by
  obtain ⟨r, hr, hcalls⟩ : ∃ r, parseConfigFile record (some feedFirst) (text "x") [] = some r
      ∧ r.state = [(text "url", text "a", .string), (text "patterns", text "m", .string)] :=
    ⟨_, rfl, by decide⟩
  obtain ⟨r', hr', hcalls'⟩ :
      ∃ r, parseConfigFile record (some patternFirst) (text "x") [] = some r
      ∧ r.state = [(text "patterns", text "m", .string), (text "url", text "a", .string)] :=
    ⟨_, rfl, by decide⟩
  apply configured_order hr hr'
  intro f
  rw [hcalls, hcalls']
  cases f with
  | feeds | filters | downloadFolder | statefile | checkInterval | prowlKey
    | downloadDoneScript => decide

end Trailermatic
