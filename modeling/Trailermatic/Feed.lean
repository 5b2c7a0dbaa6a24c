import Trailermatic.Downloads
import Trailermatic.Regex

/-!
# Feeds, filters and the items of a feed

A feed document comes from libxml2 as the list of its `item` nodes.  `extractFeedItems`
makes feed items of them, and `isMatch` finds the filter that matches a URL.
-/

namespace Trailermatic

/-- A pattern that the URLs of trailers match, and the agent they are requested with. -/
structure Filter where
  pattern : Option Bytes
  agent : Option Bytes
deriving DecidableEq

/-- The first filter whose pattern matches. -/
def isMatch (pcre : Pcre) (filters : List Filter) (string : Bytes) : Option Filter :=
  match filters with
  | [] => none
  | filter :: rest =>
    if pcre.isRegExMatch filter.pattern string then some filter else isMatch pcre rest string

/-- A feed of the configuration, with its number. -/
structure RssFeed where
  url : Option Bytes
  cookies : Option Bytes
  id : ℕ
deriving DecidableEq

/-- An item of a feed: its title, and the URLs it lists. -/
structure FeedItem where
  name : Option Str
  urls : List Str
deriving DecidableEq

/-! ### Documents -/

/-- An attribute: its name and the content of its first node, `none` for `NULL`. -/
structure XmlAttr where
  name : Bytes
  content : Option Bytes

/-- A child of a node: its name, the content of its first node, `none` for `NULL`, and
its attributes. -/
structure XmlChild where
  name : Bytes
  content : Option Bytes
  properties : List XmlAttr

/-- A node of a node set: an element and its children, or a node of another type. -/
inductive XmlNode where
  | element (children : List XmlChild)
  | other

/-- The string stored by `getNodeText`, `none` for `NULL`.  It replaces one stored before:
assertions are off. -/
def getNodeText (content : Option Bytes) : Option Str :=
  content.bind amStrdup

/-- The attributes of an enclosure. -/
structure RssNode where
  url : Option Str
  type : Option Str

/-- The attributes of an `enclosure`; a later attribute replaces an earlier one. -/
def getNodeAttributes (child : XmlChild) : RssNode :=
  child.properties.foldl
    (fun node attr =>
      if attr.name = text "url" then { node with url := getNodeText attr.content }
      else if attr.name = text "content" ∨ attr.name = text "type" then
        { node with type := getNodeText attr.content }
      else node)
    ⟨none, none⟩

/-- An item in the making, and whether its last title set its name. -/
structure ItemDraft where
  item : FeedItem
  nameSet : Bool

/-- The body of the loop over the children of an item. -/
def extractChild (draft : ItemDraft) (child : XmlChild) : ItemDraft :=
  if child.name = text "title" then
    let name := getNodeText child.content
    { item := { draft.item with name := name }, nameSet := name.isSome }
  else if child.name = text "link" then
    let link := getNodeText child.content
    { draft with item := { draft.item with urls := addItem link draft.item.urls } }
  else if child.name = text "enclosure" then
    let enclosure := getNodeAttributes child
    match enclosure.url, enclosure.type with
    | some url, some type =>
      if (text "video/").isPrefixOf type.bytes then
        { draft with
          item := { draft.item with urls := addItem (amStrdup url.bytes) draft.item.urls } }
      else draft
    | _, _ => draft
  else draft

/-- The item of a node, if the node gives one. -/
def extractItem : XmlNode → Option FeedItem
  | .element [] => none
  | .element (child :: children) =>
    let draft := (child :: children).foldl extractChild ⟨⟨none, []⟩, false⟩
    if draft.nameSet && 0 < listCount draft.item.urls then some draft.item else none
  | .other => none

/-- The items of a document; the last one is in front. -/
def extractFeedItems (nodes : List XmlNode) : List FeedItem :=
  nodes.foldl (fun itemList node => addItem (extractItem node) itemList) []

/-- The number of `item` nodes of a document and the items made of them.  The parser is
libxml2, a parameter: it gives the `item` nodes of the document, or fails. -/
def parseXmldata (libxml : Bytes → Option (List XmlNode)) (data : Bytes) : ℕ × List FeedItem :=
  match libxml data with
  | none => (0, [])
  | some nodes => (nodes.length, extractFeedItems nodes)

end Trailermatic
