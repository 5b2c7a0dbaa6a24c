import Trailermatic.Config.Options
import Trailermatic.FeedMemory
import Trailermatic.Library.Allocation

/-!
# Filters and feeds in memory

The functions that read filters and feeds from the configuration, with the blocks they allocate
and free.
-/

namespace Trailermatic

/-- Bytes in memory, which may be none. -/
structure Chars where
  block : ℕ
  bytes : Bytes

/-- A string that is not empty, as one that may be. -/
def Text.chars (t : Text) : Chars :=
  ⟨t.block, t.str.bytes⟩

/-- The block of a string, none for `NULL`. -/
def Chars.blocks (s : Option Chars) : List ℕ :=
  s.toList.map Chars.block

namespace Owned

open Alloc

/-- A filter in its block. -/
structure Filter where
  block : ℕ
  pattern : Option Chars
  agent : Option Chars

/-- A feed in its block. -/
structure RssFeed where
  block : ℕ
  url : Option Chars
  cookies : Option Chars
  id : ℕ

/-- The blocks of a filter: those of its strings, and its own. -/
def Filter.blocks (filter : Filter) : List ℕ :=
  Chars.blocks filter.pattern ++ (Chars.blocks filter.agent ++ [filter.block])

/-- The blocks of a feed: those of its strings, and its own. -/
def RssFeed.blocks (feed : RssFeed) : List ℕ :=
  Chars.blocks feed.url ++ (Chars.blocks feed.cookies ++ [feed.block])

/-- A node of a list and the filter it points to. -/
def filterBlocks (cell : ℕ × Filter) : List ℕ :=
  cell.2.blocks ++ [cell.1]

/-- A node of a list and the feed it points to. -/
def feedBlocks (cell : ℕ × RssFeed) : List ℕ :=
  cell.2.blocks ++ [cell.1]

/-- The filter without its blocks. -/
def Filter.value (filter : Filter) : Trailermatic.Filter :=
  ⟨filter.pattern.map Chars.bytes, filter.agent.map Chars.bytes⟩

/-- The feed without its blocks. -/
def RssFeed.value (feed : RssFeed) : Trailermatic.RssFeed :=
  ⟨feed.url.map Chars.bytes, feed.cookies.map Chars.bytes, feed.id⟩

/-- The filter that a node of a list points to. -/
def filterValue (cell : ℕ × Filter) : Trailermatic.Filter :=
  cell.2.value

/-- The feed that a node of a list points to. -/
def feedValue (cell : ℕ × RssFeed) : Trailermatic.RssFeed :=
  cell.2.value

/-! ### Strings -/

/-- A copy of a string in a block of its own, `NULL` for an empty one. -/
def amStrdup (str : Bytes) : Alloc (Option Text) :=
  match Trailermatic.amStrdup str with
  | none => pure none
  | some str => do
    let block ← malloc
    return some ⟨block, str⟩

/-- A copy of a string or of its beginning. -/
def copyChars (bytes : Bytes) : Alloc Chars := do
  let block ← malloc
  return ⟨block, bytes⟩

/-- The parts are put together in a buffer, and copied from there. -/
def shorten (str : Bytes) : Alloc (Option Text) := do
  let tmp ← malloc
  let parts := shortenLoop.run ⟨skipSpaces str, []⟩
  if MAX_PARAM_LEN < parts.length then ofOption none
  else
    let retStr ← amStrdup parts
    Alloc.free tmp
    return retStr

/-- What a call leaves in `*option` and `*param`.  It returns `0` if neither is `NULL`. -/
def parseSubOption (line : Bytes) : Alloc (Option Chars × Option Text) :=
  match splitArrow line with
  | none => pure (none, none)
  | some ([], _) => ofOption none
  | some (before, after) => do
    let option ← copyChars before.dropLast
    let param ← amStrdup after
    return (some option, param)

/-- The strings that `pcre_get_substring_list` gives, in a block. -/
def getSubstringList (strings : Option (List Bytes)) : Alloc (Option (ℕ × List Bytes)) :=
  match strings with
  | none => pure none
  | some strings => (fun list => some (list, strings)) <$> malloc

/-- The count and the list of strings, with its block.  The compiled pattern and the offsets are
freed. -/
def getRegExCaptureGroups (pcre : Pcre) (pattern : Option Bytes) (str : Bytes) :
    Alloc (ℤ × Option (ℕ × List Bytes)) :=
  if str = [] then pure (0, none)
  else
    match pcre.initRegex pattern with
    | none => pure (-1, none)
    | some code => do
      let resultPreg ← malloc
      let groups := pcre.getPCRECaptureCount code
      let groups := if groups < 0 then 9 else groups.toNat
      let ovecSize := if 0 < groups then (groups + 1) * 3 else 0
      let ovec ← Alloc.amMalloc ovecSize
      let count := pcre.exec code str ovecSize
      let stringlist ← getSubstringList
        (if 1 < count then pcre.substringList code str ovecSize count else none)
      Alloc.amFree ovec
      Alloc.free resultPreg
      return (count, stringlist)

/-- The stripped text of the match or of a group.  The list of strings is not freed where the
group is none of those that matched. -/
def getRegExMatch (pcre : Pcre) (pattern : Option Bytes) (str : Bytes) (whichResult : ℕ) :
    Alloc (Option Chars) :=
  if str = [] then pure none
  else do
    let (count, stringlist) ← getRegExCaptureGroups pcre pattern str
    if 0 < count ∧ whichResult < count then
      match stringlist with
      | none => ofOption none
      | some (list, strings) =>
        match strings[whichResult]? with
        | none => ofOption none
        | some string =>
          let resultStr ← amStrdup string
          Alloc.free list
          return resultStr.map fun t => ⟨t.block, strstrip t.str.bytes⟩
    else return none

/-- The parts of a parameter are put into a string, which is cut into tokens in place. -/
def withTokens {γ : Type} (param : Bytes) (use : List Bytes → Alloc γ) : Alloc γ := do
  let str ← shorten param
  let tokens ← ofOption (strtok (str.map Text.str))
  let result ← use tokens
  Alloc.amFree (str.map Text.block)
  return result

/-! ### Entries with suboptions -/

/-- A suboption of entries of the type `α`, with values of the type `β`: its name, and the field
that it sets. -/
structure Suboption {α β : Type} (view : α → β) (blocks : α → List ℕ) where
  name : Bytes
  get : α → Option Chars
  set : Option Chars → α → α
  getValue : β → Option Bytes
  setValue : Option Bytes → β → β
  rest : α → List ℕ
  getValue_view : ∀ a, getValue (view a) = (get a).map Chars.bytes
  view_set : ∀ s a, view (set s a) = setValue (s.map Chars.bytes) (view a)
  blocks_perm : ∀ a, (blocks a).Perm (Chars.blocks (get a) ++ rest a)
  blocks_set : ∀ s a, (Chars.blocks s ++ rest a).Perm (blocks (set s a))

section Entries

variable {α β γ δ : Type} {view : α → β} {blocks : α → List ℕ}

/-- The first suboption whose name the option begins with. -/
def recogniseSuboption (suboptions : List (Suboption view blocks)) (option : Bytes) :
    Option (Suboption view blocks) :=
  suboptions.find? fun s => s.name.isPrefixOf option

/-- Set the suboption that the name is recognised as to what the parameter is shortened to. -/
def setSuboption (suboptions : List (Suboption view blocks)) (a : α) (option : Bytes)
    (param : Str) : Alloc α :=
  match recogniseSuboption suboptions option with
  | none => pure a
  | some s => (fun value => s.set (value.map Text.chars) a) <$> shorten param.bytes

/-- The entry, which is made if there is none yet. -/
def entryOf (new : Alloc α) (a : Option α) : Alloc α :=
  match a with
  | none => new
  | some a => pure a

/-- The body of the loops of `parseFilter` and `parseFeed`. -/
def parseLine (new : Alloc α) (suboptions : List (Suboption view blocks)) (a : Option α)
    (line : Bytes) : Alloc (Option α) := do
  let a ← entryOf new a
  match ← parseSubOption line with
  | (some option, some param) =>
    let a ← setSuboption suboptions a option.bytes param.str
    Alloc.free option.block
    Alloc.free param.block
    return some a
  | _ => return some a

/-- Read an entry and add it to a list, if there is one. -/
def parseEntry (new : Alloc α) (suboptions : List (Suboption view blocks))
    (add : α → γ → Alloc γ) (list : γ) (param : Bytes) : Alloc γ :=
  withTokens param fun lines => do
    match ← lines.foldlM (parseLine new suboptions) none with
    | none => return list
    | some a => add a list

end Entries

/-! ### Filters -/

/-- Make a filter without strings. -/
def filterNew : Alloc Filter := do
  let i ← malloc
  return ⟨i, none, none⟩

/-- Put a filter in front of a list. -/
def filterAdd (p : Filter) (head : List (ℕ × Filter)) : Alloc (List (ℕ × Filter)) := do
  let newnode ← malloc
  return (newnode, p) :: head

/-- Free the strings of a filter and then the filter. -/
def filterFree (x : Filter) : Alloc Unit := do
  Alloc.amFree (x.pattern.map Chars.block)
  Alloc.amFree (x.agent.map Chars.block)
  Alloc.free x.block

/-- The pattern of a filter as a suboption. -/
def pattern : Suboption Filter.value Filter.blocks where
  name := text "pattern"
  get filter := filter.pattern
  set s filter := { filter with pattern := s }
  getValue filter := filter.pattern
  setValue s filter := { filter with pattern := s }
  rest filter := Chars.blocks filter.agent ++ [filter.block]
  getValue_view _ := rfl
  view_set _ _ := rfl
  blocks_perm _ := List.Perm.refl _
  blocks_set _ _ := List.Perm.refl _

/-- The agent of a filter as a suboption. -/
def useragent : Suboption Filter.value Filter.blocks where
  name := text "useragent"
  get filter := filter.agent
  set s filter := { filter with agent := s }
  getValue filter := filter.agent
  setValue s filter := { filter with agent := s }
  rest filter := Chars.blocks filter.pattern ++ [filter.block]
  getValue_view _ := rfl
  view_set _ _ := rfl
  blocks_perm _ := List.perm_append_comm_assoc _ _ _
  blocks_set _ _ := List.perm_append_comm_assoc _ _ _

/-- Add the filter of a block to a list, if it has a pattern. -/
def parseFilter : List (ℕ × Filter) → Bytes → Alloc (List (ℕ × Filter)) :=
  parseEntry filterNew [pattern, useragent] fun filter filters =>
    if filter.pattern.isSome then filterAdd filter filters else pure filters

/-- The body of the loop of `addPatterns_old`. -/
def addPattern (filters : List (ℕ × Filter)) (p : Bytes) : Alloc (List (ℕ × Filter)) := do
  let pat ← filterNew
  let pattern ← copyChars p
  filterAdd { pat with pattern := some pattern } filters

/-- Add a filter for each pattern of a list. -/
def addPatternsOld (filters : List (ℕ × Filter)) (strlist : Bytes) :
    Alloc (List (ℕ × Filter)) :=
  withTokens strlist fun patterns => patterns.foldlM addPattern filters

/-! ### Feeds -/

/-- Make a feed without strings. -/
def feedNew : Alloc RssFeed := do
  let i ← malloc
  return ⟨i, none, none, 0⟩

/-- Number a feed and add it. -/
def feedAdd (p : RssFeed) (head : List (ℕ × RssFeed)) : Alloc (List (ℕ × RssFeed)) := do
  let newnode ← malloc
  return (newnode, { p with id := listCount head % 65536 }) :: head

/-- Free the strings of a feed and then the feed. -/
def feedFree (x : RssFeed) : Alloc Unit := do
  Alloc.amFree (x.url.map Chars.block)
  Alloc.amFree (x.cookies.map Chars.block)
  Alloc.free x.block

/-- The URL of a feed as a suboption. -/
def url : Suboption RssFeed.value RssFeed.blocks where
  name := text "url"
  get feed := feed.url
  set s feed := { feed with url := s }
  getValue feed := feed.url
  setValue s feed := { feed with url := s }
  rest feed := Chars.blocks feed.cookies ++ [feed.block]
  getValue_view _ := rfl
  view_set _ _ := rfl
  blocks_perm _ := List.Perm.refl _
  blocks_set _ _ := List.Perm.refl _

/-- The cookies of a feed as a suboption. -/
def cookies : Suboption RssFeed.value RssFeed.blocks where
  name := text "cookies"
  get feed := feed.cookies
  set s feed := { feed with cookies := s }
  getValue feed := feed.cookies
  setValue s feed := { feed with cookies := s }
  rest feed := Chars.blocks feed.url ++ [feed.block]
  getValue_view _ := rfl
  view_set _ _ := rfl
  blocks_perm _ := List.perm_append_comm_assoc _ _ _
  blocks_set _ _ := List.perm_append_comm_assoc _ _ _

/-- A copy of the cookies that a URL ends with, `NULL` if there are none. -/
def parseCookiesFromURL (pcre : Pcre) (url : Bytes) : Alloc (Option Chars) :=
  getRegExMatch pcre (some (text ":COOKIE:(.+)")) url 1

/-- Add the feed of a block to a list, if it has a URL; its cookies may be part of the URL. -/
def parseFeed (pcre : Pcre) : List (ℕ × RssFeed) → Bytes → Alloc (List (ℕ × RssFeed)) :=
  parseEntry feedNew [url, cookies] fun feed feeds =>
    match feed.url with
    | none => pure feeds
    | some url =>
      if feed.cookies.isSome then feedAdd feed feeds
      else do
        let cookies ← parseCookiesFromURL pcre url.bytes
        feedAdd { feed with cookies := cookies } feeds

/-- The body of the loop of `getFeeds`. -/
def getFeed (pcre : Pcre) (feeds : List (ℕ × RssFeed)) (p : Bytes) :
    Alloc (List (ℕ × RssFeed)) := do
  let feed ← feedNew
  let url ← copyChars p
  let cookies ← parseCookiesFromURL pcre p
  feedAdd { feed with url := some url, cookies := cookies } feeds

/-- Add a feed for each URL of a list. -/
def getFeeds (pcre : Pcre) (feeds : List (ℕ × RssFeed)) (strlist : Bytes) :
    Alloc (List (ℕ × RssFeed)) :=
  withTokens strlist fun urls => urls.foldlM (getFeed pcre) feeds

end Owned

end Trailermatic
