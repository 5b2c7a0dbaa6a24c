import Trailermatic.Config.Shorten
import Trailermatic.Library.Tokens
import Trailermatic.Session

/-!
# Options

`setOption` changes the session for an option of the configuration file.  It has no value
where the program's behaviour is undefined: at a write past the end of a buffer, and when a
token is read of a string that is `NULL`.
-/

namespace Trailermatic

def MAXPATHLEN : ℕ := 4096

/-! ### Suboptions -/

/-- All tokens of a string.  A string that is `NULL` is not the one that is read. -/
def strtok (str : Option Str) : Option (List Bytes) :=
  str.map fun s => Tokens.tokens (· == delimiter) s.bytes

/-- What stands before and after the first `=>`. -/
def splitArrow : Bytes → Option (Bytes × Bytes)
  | [] => none
  | b :: line =>
    if b = equals ∧ line.head? = some 62 then some ([], line.tail)
    else (splitArrow line).map fun (before, after) => (b :: before, after)

theorem splitArrow_of_not_infix {before : Bytes} (h : ¬ [equals, 62] <:+: before)
    (after : Bytes) :
  splitArrow (before ++ equals :: 62 :: after) = some (before, after)
  := by
  induction before with
  | nil => rfl
  | cons b before ih =>
    have hrest : ¬ [equals, 62] <:+: before :=
      fun hin => h (hin.trans (List.infix_cons (List.infix_refl before)))
    have harrow : ¬ (b = equals ∧ (before ++ equals :: 62 :: after).head? = some 62) := by
      rintro ⟨rfl, hhead⟩
      cases before with
      | nil => cases hhead
      | cons c before =>
        cases hhead
        exact h ⟨[], before, rfl⟩
    rw [List.cons_append, splitArrow, if_neg harrow, ih hrest]
    rfl

theorem eq_of_splitArrow {line before after : Bytes} (h : splitArrow line = some (before, after)) :
  line = before ++ equals :: 62 :: after
  := by
  induction line generalizing before with
  | nil => cases h
  | cons b line ih =>
    rw [splitArrow] at h
    split_ifs at h with harrow
    · cases h
      obtain ⟨rfl, hhead⟩ := harrow
      cases line with
      | nil => cases hhead
      | cons c line =>
        cases hhead
        rfl
    · obtain ⟨⟨before', after'⟩, hsplit, heq⟩ := Option.map_eq_some_iff.mp h
      cases heq
      rw [List.cons_append, ← ih hsplit]

theorem length_splitArrow {line before after : Bytes}
    (h : splitArrow line = some (before, after)) :
  line.length = before.length + after.length + 2
  := by
  rw [eq_of_splitArrow h, List.length_append, List.length_cons, List.length_cons]
  omega

/-- The name of a suboption, without the byte before the `=>`, and its parameter.  Where
there is no such byte, a negative number of bytes is copied. -/
def parseSubOption (line : Bytes) : Option (Option (Bytes × Str)) :=
  match splitArrow line with
  | none => some none
  | some ([], _) => none
  | some (before, after) => some ((amStrdup after).map fun param => (before.dropLast, param))

theorem length_parseSubOption {line option : Bytes} {param : Str}
    (h : parseSubOption line = some (some (option, param))) :
  param.bytes.length < line.length
  := by
  rw [parseSubOption] at h
  split at h
  · cases h
  · cases h
  · rename_i before after hne hsplit
    obtain ⟨u, hu, heq⟩ := Option.map_eq_some_iff.mp (Option.some.inj h)
    cases heq
    have hafter : param.bytes.length ≤ after.length := by
      rw [bytes_of_amStrdup hu]
      apply (cstr_initial after).length_le
    have hline := length_splitArrow hsplit
    omega

/-! ### Filters -/

/-- The body of the loop over the lines of a filter.  The name is compared only as far as the known
name is long. -/
def parseFilterLine (filter : Filter) (line : Bytes) : Option Filter :=
  match parseSubOption line with
  | none => none
  | some none => some filter
  | some (some (option, param)) =>
    if (text "pattern").isPrefixOf option then
      (shorten param.bytes).map fun pattern => { filter with pattern := pattern.map Str.bytes }
    else if (text "useragent").isPrefixOf option then
      (shorten param.bytes).map fun agent => { filter with agent := agent.map Str.bytes }
    else some filter

/-- Add a filter, if it has a pattern. -/
def parseFilter (filters : List Filter) (match_ : Bytes) : Option (List Filter) := do
  let str ← shorten match_
  let lines ← strtok str
  let filter ← lines.foldlM parseFilterLine ⟨none, none⟩
  return if filter.pattern.isSome then addItem (some filter) filters else filters

def SUCCESS : ℤ := 0

def FAILURE : ℤ := -1

/-- `parseFilter` with the value it returns. -/
def parseFilterReturn (filters : List Filter) (match_ : Bytes) :
    Option (ℤ × List Filter) := do
  let str ← shorten match_
  let lines ← strtok str
  let filter ← lines.foldlM parseFilterLine ⟨none, none⟩
  return if filter.pattern.isSome then (SUCCESS, addItem (some filter) filters)
    else (FAILURE, filters)

theorem parseFilter_eq_map (filters : List Filter) (match_ : Bytes) :
  parseFilter filters match_ = (parseFilterReturn filters match_).map Prod.snd
  := by
  rw [parseFilter, parseFilterReturn]
  cases shorten match_ with
  | none => rfl
  | some str =>
    simp only [bind, Option.bind]
    cases strtok str with
    | none => rfl
    | some lines =>
      simp only
      cases lines.foldlM parseFilterLine ⟨none, none⟩ with
      | none => rfl
      | some filter =>
        simp only [pure, Option.map_some]
        split_ifs
        · rfl
        · rfl

/-- `addPatterns_old`: a filter for each pattern of the list. -/
def addPatternsOld (filters : List Filter) (strlist : Bytes) : Option (List Filter) := do
  let str ← shorten strlist
  let patterns ← strtok str
  return patterns.foldl (fun filters p => addItem (some ⟨some p, none⟩) filters) filters

/-! ### Feeds -/

/-- The cookies that are written at the end of a URL, if there are any. -/
def parseCookiesFromURL (pcre : Pcre) (url : Bytes) : Option (Option Bytes) :=
  pcre.getRegExMatch (some (text ":COOKIE:(.+)")) url 1

/-- The body of the loop over the lines of a feed. -/
def parseFeedLine (feed : RssFeed) (line : Bytes) : Option RssFeed :=
  match parseSubOption line with
  | none => none
  | some none => some feed
  | some (some (option, param)) =>
    if (text "url").isPrefixOf option then
      (shorten param.bytes).map fun url => { feed with url := url.map Str.bytes }
    else if (text "cookies").isPrefixOf option then
      (shorten param.bytes).map fun cookies => { feed with cookies := cookies.map Str.bytes }
    else some feed

/-- Number a feed and add it.  The number is a `uint16_t`. -/
def addFeed (feeds : List RssFeed) (feed : RssFeed) : List RssFeed :=
  addItem (some { feed with id := listCount feeds % 65536 }) feeds

/-- Add a feed, if it has a URL.  The cookies may be part of the URL. -/
def parseFeed (pcre : Pcre) (feeds : List RssFeed) (feedstr : Bytes) : Option (List RssFeed) := do
  let str ← shorten feedstr
  let lines ← strtok str
  let feed ← lines.foldlM parseFeedLine ⟨none, none, 0⟩
  match feed.url with
  | none => return feeds
  | some url =>
    if feed.cookies.isSome then return addFeed feeds feed
    else
      let cookies ← parseCookiesFromURL pcre url
      return addFeed feeds { feed with cookies := cookies }

/-- A feed for each URL of the list, with the cookies that are written in it. -/
def getFeeds (pcre : Pcre) (feeds : List RssFeed) (strlist : Bytes) : Option (List RssFeed) := do
  let str ← shorten strlist
  let urls ← strtok str
  urls.foldlM (fun feeds p => do
    let cookies ← parseCookiesFromURL pcre p
    return addFeed feeds ⟨some p, cookies, 0⟩) feeds

/-! ### Paths and numbers -/

/-- A path whose `~` stands for the home folder.  A path of at most two bytes is none. -/
def resolvePath (home : Option Str) (path : Bytes) : Option (Option Str) :=
  if 2 < strlen path then
    match home with
    | some homedir =>
      if (text "~/").isPrefixOf path then
        let newDir := homedir.bytes ++ path.tail
        if newDir.length < MAXPATHLEN then some (amStrdup newDir) else none
      else some (amStrdup path)
    | none => some (amStrdup path)
  else some none

/-- Replace a path by the one that `src` resolves to; a path that is too long is not taken. -/
def setPath (home : Option Str) (src : Bytes) (dst : Str) : Option Str :=
  if strlen src < MAXPATHLEN then (resolvePath home src).map fun tmp => tmp.getD dst
  else some dst

/-- The largest `long`. -/
def LONG_MAX : ℕ := 9223372036854775807

/-- The number that digits write. -/
def digitsValue (str : Bytes) : ℕ :=
  (str.takeWhile isdigit).foldl (fun n b => 10 * n + (b.toNat - 48)) 0

/-- `atoi` of digits: a `long`, which does not overflow, cut to an `int`. -/
def atoi (str : Bytes) : ℤ :=
  Int.bmod (min (digitsValue str) LONG_MAX) 4294967296

/-- The value of digits, `-1` for anything else and for a value that is not positive. -/
def parseUInt (str : Bytes) : ℤ :=
  if str.all isdigit ∧ 0 < atoi str then atoi str else -1

/-! ### The options -/

/-- Change the session for an option.  The home folder is a parameter, and so is the state
before: none after undefined behaviour. -/
def setOption (pcre : Pcre) (home : Option Str) (state : Option Session) (opt param : Bytes)
    (_type : OptionType) : Option Session :=
  state.bind fun s =>
    if opt = text "url" then
      (getFeeds pcre s.feeds param).map fun feeds => { s with feeds := feeds }
    else if opt = text "feed" then
      (parseFeed pcre s.feeds param).map fun feeds => { s with feeds := feeds }
    else if opt = text "download-folder" then
      (setPath home param s.downloadFolder).map fun path => { s with downloadFolder := path }
    else if opt = text "statefile" then
      (setPath home param s.statefile).map fun path => { s with statefile := path }
    else if opt = text "interval" then
      let numval := parseUInt param
      if 0 < numval then some { s with checkInterval := UInt8.ofInt numval } else some s
    else if opt = text "patterns" then
      (addPatternsOld s.filters param).map fun filters => { s with filters := filters }
    else if opt = text "filter" then
      (parseFilter s.filters param).map fun filters => { s with filters := filters }
    else if opt = text "prowl-apikey" then some { s with prowlKey := amStrdup param }
    else if opt = text "download-done-script" then
      some { s with downloadDoneScript := amStrdup param }
    else some s

/-- An option after undefined behaviour has no effect. -/
theorem setOption_eq_bind (pcre : Pcre) (home : Option Str) (state : Option Session)
    (opt param : Bytes) (type : OptionType) :
  setOption pcre home state opt param type
    = state.bind fun s => setOption pcre home (some s) opt param type
  := by
  cases state with
  | none => rfl
  | some s => rfl

/-- What an option can do to a session. -/
inductive OptionEffect (pcre : Pcre) (home : Option Str) (s : Session) (opt param : Bytes) :
    Session → Prop
  | url {feeds : List RssFeed} : opt = text "url" → getFeeds pcre s.feeds param = some feeds →
    OptionEffect pcre home s opt param { s with feeds := feeds }
  | feed {feeds : List RssFeed} : opt = text "feed" → parseFeed pcre s.feeds param = some feeds →
    OptionEffect pcre home s opt param { s with feeds := feeds }
  | downloadFolder {path : Str} : opt = text "download-folder" →
    setPath home param s.downloadFolder = some path →
    OptionEffect pcre home s opt param { s with downloadFolder := path }
  | statefile {path : Str} : opt = text "statefile" →
    setPath home param s.statefile = some path →
    OptionEffect pcre home s opt param { s with statefile := path }
  | interval : opt = text "interval" → 0 < parseUInt param →
    OptionEffect pcre home s opt param { s with checkInterval := UInt8.ofInt (parseUInt param) }
  | patterns {filters : List Filter} : opt = text "patterns" →
    addPatternsOld s.filters param = some filters →
    OptionEffect pcre home s opt param { s with filters := filters }
  | filter {filters : List Filter} : opt = text "filter" →
    parseFilter s.filters param = some filters →
    OptionEffect pcre home s opt param { s with filters := filters }
  | prowlKey : opt = text "prowl-apikey" →
    OptionEffect pcre home s opt param { s with prowlKey := amStrdup param }
  | downloadDoneScript : opt = text "download-done-script" →
    OptionEffect pcre home s opt param { s with downloadDoneScript := amStrdup param }
  | none : OptionEffect pcre home s opt param s

theorem effect_of_setOption {pcre : Pcre} {home : Option Str} {s s' : Session}
    {opt param : Bytes} {type : OptionType}
    (h : setOption pcre home (some s) opt param type = some s') :
  OptionEffect pcre home s opt param s'
  := by
  rw [setOption, Option.bind_some] at h
  by_cases hurl : opt = text "url"
  · rw [if_pos hurl] at h
    obtain ⟨feeds, hfeeds, rfl⟩ := Option.map_eq_some_iff.mp h
    apply OptionEffect.url hurl hfeeds
  rw [if_neg hurl] at h
  by_cases hfeed : opt = text "feed"
  · rw [if_pos hfeed] at h
    obtain ⟨feeds, hfeeds, rfl⟩ := Option.map_eq_some_iff.mp h
    apply OptionEffect.feed hfeed hfeeds
  rw [if_neg hfeed] at h
  by_cases hfolder : opt = text "download-folder"
  · rw [if_pos hfolder] at h
    obtain ⟨path, hpath, rfl⟩ := Option.map_eq_some_iff.mp h
    apply OptionEffect.downloadFolder hfolder hpath
  rw [if_neg hfolder] at h
  by_cases hstatefile : opt = text "statefile"
  · rw [if_pos hstatefile] at h
    obtain ⟨path, hpath, rfl⟩ := Option.map_eq_some_iff.mp h
    apply OptionEffect.statefile hstatefile hpath
  rw [if_neg hstatefile] at h
  by_cases hinterval : opt = text "interval"
  · rw [if_pos hinterval] at h
    by_cases hpos : 0 < parseUInt param
    · simp only [if_pos hpos] at h
      obtain rfl := Option.some.inj h
      apply OptionEffect.interval hinterval hpos
    · simp only [if_neg hpos] at h
      obtain rfl := Option.some.inj h
      apply OptionEffect.none
  rw [if_neg hinterval] at h
  by_cases hpatterns : opt = text "patterns"
  · rw [if_pos hpatterns] at h
    obtain ⟨filters, hfilters, rfl⟩ := Option.map_eq_some_iff.mp h
    apply OptionEffect.patterns hpatterns hfilters
  rw [if_neg hpatterns] at h
  by_cases hfilter : opt = text "filter"
  · rw [if_pos hfilter] at h
    obtain ⟨filters, hfilters, rfl⟩ := Option.map_eq_some_iff.mp h
    apply OptionEffect.filter hfilter hfilters
  rw [if_neg hfilter] at h
  by_cases hkey : opt = text "prowl-apikey"
  · rw [if_pos hkey] at h
    obtain rfl := Option.some.inj h
    apply OptionEffect.prowlKey hkey
  rw [if_neg hkey] at h
  by_cases hscript : opt = text "download-done-script"
  · rw [if_pos hscript] at h
    obtain rfl := Option.some.inj h
    apply OptionEffect.downloadDoneScript hscript
  rw [if_neg hscript] at h
  obtain rfl := Option.some.inj h
  apply OptionEffect.none

end Trailermatic
