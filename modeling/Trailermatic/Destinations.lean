import Trailermatic.Extraction
import Trailermatic.Library.Trace

/-!
# The destinations of texts

`getNodeText` asserts that its destination is `NULL`.  In a debug build a failed assertion
aborts the program; in a release build the string stored before is overwritten and lost.
`destinations` are the contents of the destinations at every call that is made for a
document.  `extractFeedItems_destinations_iff` says for which documents all of them are
`NULL`.
-/

namespace Trailermatic

/-! ### The debug build -/

namespace Debug

/-- The string stored by `getNodeText`.  Where the assertion fails there is no value. -/
def getNodeText (dest : Option Str) (content : Option Bytes) : Option (Option Str) :=
  if dest.isNone then some (Trailermatic.getNodeText content) else none

/-- The body of the loop of `getNodeAttributes`. -/
def setAttribute (node : RssNode) (attr : XmlAttr) : Option RssNode :=
  if attr.name = text "url" then
    (getNodeText node.url attr.content).map fun url => { node with url := url }
  else if attr.name = text "content" ∨ attr.name = text "type" then
    (getNodeText node.type attr.content).map fun type => { node with type := type }
  else some node

/-- The attributes of an enclosure, where no string is set again. -/
def getNodeAttributes (child : XmlChild) : Option RssNode :=
  child.properties.foldlM setAttribute ⟨none, none⟩

/-- The body of the loop over the children of an item. -/
def extractChild (draft : ItemDraft) (child : XmlChild) : Option ItemDraft :=
  if child.name = text "title" then
    (getNodeText draft.item.name child.content).map fun name =>
      { item := { draft.item with name := name }, nameSet := name.isSome }
  else if child.name = text "link" then
    (getNodeText none child.content).map fun link =>
      { draft with item := { draft.item with urls := addItem link draft.item.urls } }
  else if child.name = text "enclosure" then
    (getNodeAttributes child).map fun enclosure =>
      match enclosure.url, enclosure.type with
      | some url, some type =>
        if (text "video/").isPrefixOf type.bytes then
          { draft with
            item := { draft.item with urls := addItem (amStrdup url.bytes) draft.item.urls } }
        else draft
      | _, _ => draft
  else some draft

/-- The item of a node, where no string of it is set again. -/
def extractItem : XmlNode → Option (Option FeedItem)
  | .element [] => some none
  | .element (child :: children) =>
    ((child :: children).foldlM extractChild ⟨⟨none, []⟩, false⟩).map fun draft =>
      if draft.nameSet && 0 < listCount draft.item.urls then some draft.item else none
  | .other => some none

/-- The items of a document, where no string of them is set again. -/
def extractFeedItems (nodes : List XmlNode) : Option (List FeedItem) :=
  nodes.foldlM (fun itemList node => (extractItem node).map fun item => addItem item itemList) []

end Debug

/-! ### The release build -/

/-- The body of the loop of `getNodeAttributes`. -/
def setAttribute (node : RssNode) (attr : XmlAttr) : RssNode :=
  if attr.name = text "url" then { node with url := getNodeText attr.content }
  else if attr.name = text "content" ∨ attr.name = text "type" then
    { node with type := getNodeText attr.content }
  else node

theorem getNodeAttributes_eq_foldl (child : XmlChild) :
  getNodeAttributes child = child.properties.foldl setAttribute ⟨none, none⟩
  := rfl

/-- The destination of the call for an attribute, if there is one. -/
def attributeDestinations (node : RssNode) (attr : XmlAttr) : List (Option Str) :=
  if attr.name = text "url" then [node.url]
  else if attr.name = text "content" ∨ attr.name = text "type" then [node.type]
  else []

/-- The destinations of the calls for a child. -/
def childDestinations (draft : ItemDraft) (child : XmlChild) : List (Option Str) :=
  if child.name = text "title" then [draft.item.name]
  else if child.name = text "link" then [none]
  else if child.name = text "enclosure" then
    Trace.trace setAttribute attributeDestinations ⟨none, none⟩ child.properties
  else []

/-- The destinations of the calls for a node. -/
def nodeDestinations : XmlNode → List (Option Str)
  | .element children =>
    Trace.trace extractChild childDestinations ⟨⟨none, []⟩, false⟩ children
  | .other => []

/-- The contents of the destinations at all calls of `getNodeText`, in order. -/
def destinations (nodes : List XmlNode) : List (Option Str) :=
  Trace.trace (fun itemList node => addItem (extractItem node) itemList)
    (fun _ node => nodeDestinations node) [] nodes

/-! ### The two builds -/

/-- A value made of the text goes on exactly if the destination is `NULL`. -/
theorem map_getNodeText_checked {α : Type*} (dest : Option Str) (content : Option Bytes)
    (f : Option Str → α) :
  (Debug.getNodeText dest content).map f
    = if [dest].all Option.isNone then some (f (getNodeText content)) else none
  := by
  cases dest with
  | none => rfl
  | some dest => rfl

theorem setAttribute_checked (node : RssNode) (attr : XmlAttr) :
  Debug.setAttribute node attr
    = if (attributeDestinations node attr).all Option.isNone then some (setAttribute node attr)
      else none
  := by
  rw [Debug.setAttribute, attributeDestinations, setAttribute]
  by_cases hurl : attr.name = text "url"
  · simp only [if_pos hurl]
    apply map_getNodeText_checked
  · by_cases htype : attr.name = text "content" ∨ attr.name = text "type"
    · simp only [if_neg hurl, if_pos htype]
      apply map_getNodeText_checked
    · simp only [if_neg hurl, if_neg htype]
      rfl

theorem getNodeAttributes_checked (child : XmlChild) :
  Debug.getNodeAttributes child
    = if (Trace.trace setAttribute attributeDestinations ⟨none, none⟩ child.properties).all
        Option.isNone then some (getNodeAttributes child)
      else none
  := Trace.foldlM_eq_of_checked setAttribute_checked _ _

theorem extractChild_checked (draft : ItemDraft) (child : XmlChild) :
  Debug.extractChild draft child
    = if (childDestinations draft child).all Option.isNone then some (extractChild draft child)
      else none
  := by
  rw [Debug.extractChild, childDestinations, extractChild]
  by_cases htitle : child.name = text "title"
  · simp only [if_pos htitle]
    apply map_getNodeText_checked
  · by_cases hlink : child.name = text "link"
    · simp only [if_neg htitle, if_pos hlink]
      apply map_getNodeText_checked
    · by_cases henclosure : child.name = text "enclosure"
      · simp only [if_neg htitle, if_neg hlink, if_pos henclosure, getNodeAttributes_checked]
        apply Option.map_if
      · simp only [if_neg htitle, if_neg hlink, if_neg henclosure]
        rfl

theorem extractItem_checked (node : XmlNode) :
  Debug.extractItem node
    = if (nodeDestinations node).all Option.isNone then some (extractItem node) else none
  := by
  match node with
  | .other => rfl
  | .element [] => rfl
  | .element (child :: children) =>
    rw [Debug.extractItem, nodeDestinations, Trace.foldlM_eq_of_checked extractChild_checked]
    split_ifs
    · rfl
    · rfl

/-- The debug build gives what the release build gives, unless a destination is not
`NULL`. -/
theorem extractFeedItems_checked (nodes : List XmlNode) :
  Debug.extractFeedItems nodes
    = if (destinations nodes).all Option.isNone then some (extractFeedItems nodes) else none
  := by
  apply Trace.foldlM_eq_of_checked
  intro itemList node
  rw [extractItem_checked]
  split_ifs
  · rfl
  · rfl

/-! ### Documents without a destination overwritten -/

/-- Of the elements of a kind, only the last one may have a text. -/
def SetOnce {α : Type*} (content : α → Option Bytes) (kind : α → Prop) (l : List α) : Prop :=
  l.Pairwise fun x y => kind x → kind y → getNodeText (content x) = none

/-- Of the titles of an item only the last one may have a text, and so may only the last
URL and the last type of each of its enclosures. -/
def ItemSetOnce (children : List XmlChild) : Prop :=
  SetOnce XmlChild.content (fun child => child.name = text "title") children
    ∧ ∀ child ∈ children, child.name = text "enclosure" →
      SetOnce XmlAttr.content (fun attr => attr.name = text "url") child.properties
        ∧ SetOnce XmlAttr.content
          (fun attr => attr.name = text "content" ∨ attr.name = text "type") child.properties

theorem attributeDestinations_none_iff (properties : List XmlAttr) :
  (∀ dest ∈ Trace.trace setAttribute attributeDestinations ⟨none, none⟩ properties,
      dest = none)
    ↔ SetOnce XmlAttr.content (fun attr => attr.name = text "url") properties
      ∧ SetOnce XmlAttr.content (fun attr => attr.name = text "content" ∨ attr.name = text "type")
        properties
  := by
  have hname : text "url" ≠ text "content" ∧ text "url" ≠ text "type" := by decide
  have hseen : ∀ (node : RssNode) (attr : XmlAttr),
      (∀ dest ∈ attributeDestinations node attr, dest = none)
        ↔ (attr.name = text "url" → node.url = none)
          ∧ (attr.name = text "content" ∨ attr.name = text "type" → node.type = none) := by
    intro node attr
    rw [attributeDestinations]
    split_ifs with hurl htype
    · simp [hurl, hname]
    · simp [hurl, htype]
    · simp [hurl, htype]
  have hurl : ∀ node attr, (setAttribute node attr).url
      = if attr.name = text "url" then getNodeText attr.content else node.url := by
    intro node attr
    rw [setAttribute]
    split_ifs
    · rfl
    · rfl
    · rfl
  have htype : ∀ node attr, (setAttribute node attr).type
      = if attr.name = text "content" ∨ attr.name = text "type" then getNodeText attr.content
        else node.type := by
    intro node attr
    rw [setAttribute]
    split_ifs with h₁ h₂
    · rw [h₁] at h₂
      apply absurd h₂ (not_or.mpr hname)
    · rfl
    · rfl
    · rfl
  rw [Trace.forall_mem_trace_iff, Trace.always_congr hseen, Trace.always_and,
    Trace.always_empty_iff hurl rfl, Trace.always_empty_iff htype rfl]
  exact Iff.rfl

theorem nodeDestinations_none_iff (children : List XmlChild) :
  (∀ dest ∈ nodeDestinations (.element children), dest = none) ↔ ItemSetOnce children
  := by
  have hname : text "title" ≠ text "enclosure" ∧ text "link" ≠ text "title"
      ∧ text "link" ≠ text "enclosure" ∧ text "enclosure" ≠ text "title" := by
    decide
  have hseen : ∀ (draft : ItemDraft) (child : XmlChild),
      (∀ dest ∈ childDestinations draft child, dest = none)
        ↔ (child.name = text "title" → draft.item.name = none)
          ∧ (child.name = text "enclosure" →
            SetOnce XmlAttr.content (fun attr => attr.name = text "url") child.properties
              ∧ SetOnce XmlAttr.content
                (fun attr => attr.name = text "content" ∨ attr.name = text "type")
                child.properties) := by
    intro draft child
    rw [childDestinations, ← attributeDestinations_none_iff]
    split_ifs with htitle hlink henclosure
    · simp [htitle, hname]
    · simp [hlink, hname]
    · simp [henclosure, hname]
    · simp [htitle, henclosure]
  rw [nodeDestinations, Trace.forall_mem_trace_iff, Trace.always_congr hseen, Trace.always_and,
    Trace.always_empty_iff extractChild_name rfl, Trace.always_const]
  exact Iff.rfl

/-- No destination is overwritten, and no assertion fails, exactly if of the titles of
each element only the last one has a text, and of the URLs and the types of each enclosure
only the last ones. -/
theorem extractFeedItems_destinations_iff (nodes : List XmlNode) :
  ((∀ dest ∈ destinations nodes, dest = none) ∧ Debug.extractFeedItems nodes ≠ none)
    ↔ ∀ children, .element children ∈ nodes → ItemSetOnce children
  := by
  have hchecked : (Debug.extractFeedItems nodes ≠ none)
      ↔ ∀ dest ∈ destinations nodes, dest = none := by
    rw [extractFeedItems_checked]
    simp [Option.isNone_iff_eq_none]
  rw [hchecked, and_self, destinations, Trace.forall_mem_trace_iff, Trace.always_const]
  constructor
  · intro h children hmem
    apply (nodeDestinations_none_iff children).mp
    apply h _ hmem
  · intro h node hmem
    cases node with
    | element children =>
      apply (nodeDestinations_none_iff children).mpr
      apply h children hmem
    | other => simp [nodeDestinations]

/-- A title of the feed is followed by one of another namespace, as in `media:title`. -/
def twoTitles : List XmlNode :=
  [.element [⟨text "title", some (text "A"), []⟩, ⟨text "title", some (text "B"), []⟩,
    ⟨text "link", some (text "u"), []⟩]]

/-- The second title overwrites the first one, or aborts the program. -/
theorem destinations_twoTitles :
  ¬ ((∀ dest ∈ destinations twoTitles, dest = none)
    ∧ Debug.extractFeedItems twoTitles ≠ none)
  := by
  have h : Debug.extractFeedItems twoTitles = none := by decide +kernel
  rintro ⟨-, hdebug⟩
  apply hdebug h

end Trailermatic
