import Mathlib.Algebra.GroupWithZero.Nat
import Trailermatic.Destinations
import Trailermatic.Library.Owners

/-!
# The memory of feeds

The functions that make items of a document, and those that free the items, together with the
blocks they allocate and free.  What they make is what the functions without memory make.  A
string whose destination is overwritten is lost; `feeds_memory` says that nothing else is, over
any number of documents.
-/

namespace Trailermatic

/-! ### Strings, enclosures and items -/

/-- A string in memory: its block and its text. -/
structure Text where
  block : ℕ
  str : Str

/-- The block of a string, none for `NULL`. -/
def Text.blocks (t : Option Text) : List ℕ :=
  t.toList.map Text.block

namespace Owned

/-- The structure of an enclosure, in its block. -/
structure RssNode where
  block : ℕ
  url : Option Text
  type : Option Text

/-- An item in its block; each URL has a node of the list. -/
structure FeedItem where
  block : ℕ
  name : Option Text
  urls : List (ℕ × Text)

/-- An item whose node is being read, and whether its name has been set. -/
structure ItemDraft where
  item : FeedItem
  nameSet : Bool

/-- The blocks of an enclosure: those of its strings, and its own. -/
def RssNode.blocks (node : RssNode) : List ℕ :=
  Text.blocks node.url ++ (Text.blocks node.type ++ [node.block])

/-- A node of a list and the string it points to. -/
def cellBlocks (cell : ℕ × Text) : List ℕ :=
  [cell.2.block, cell.1]

/-- The blocks of an item: those of its name and its URLs, and its own. -/
def FeedItem.blocks (item : FeedItem) : List ℕ :=
  Text.blocks item.name ++ (item.urls.flatMap cellBlocks ++ [item.block])

/-- The blocks of the item that is being read. -/
def ItemDraft.blocks (draft : ItemDraft) : List ℕ :=
  draft.item.blocks

/-- A node of a list and the item it points to. -/
def itemBlocks (cell : ℕ × FeedItem) : List ℕ :=
  cell.2.blocks ++ [cell.1]

/-- The enclosure without its block. -/
def RssNode.value (node : RssNode) : Trailermatic.RssNode :=
  ⟨node.url.map Text.str, node.type.map Text.str⟩

/-- The item without its blocks. -/
def FeedItem.value (item : FeedItem) : Trailermatic.FeedItem :=
  ⟨item.name.map Text.str, item.urls.map fun cell => cell.2.str⟩

/-- The draft without its blocks. -/
def ItemDraft.value (draft : ItemDraft) : Trailermatic.ItemDraft :=
  ⟨draft.item.value, draft.nameSet⟩

/-! ### Making items -/

/-- A copy of a string, `NULL` for `NULL`. -/
def strdup (str : Option Str) (heap : Ledger) : Option Text × Ledger :=
  match str with
  | none => (none, heap)
  | some str => (some ⟨heap.acquired, str⟩, heap.acquire)

/-- The content of a node is copied and freed. -/
def getNodeText (content : Option Bytes) (heap : Ledger) : Option Text × Ledger :=
  match content with
  | none => (none, heap)
  | some content =>
    let textNode := heap.acquired
    let (dest, heap) := strdup (amStrdup content) heap.acquire
    (dest, heap.release textNode)

/-- The body of the loop of `getNodeAttributes`. -/
def setAttribute (s : RssNode × Ledger) (attr : XmlAttr) : RssNode × Ledger :=
  let (node, heap) := s
  if attr.name = text "url" then
    let (url, heap) := getNodeText attr.content heap
    ({ node with url := url }, heap)
  else if attr.name = text "content" ∨ attr.name = text "type" then
    let (type, heap) := getNodeText attr.content heap
    ({ node with type := type }, heap)
  else (node, heap)

/-- Make an enclosure and set its strings from the attributes of the node. -/
def getNodeAttributes (child : XmlChild) (heap : Ledger) : RssNode × Ledger :=
  child.properties.foldl setAttribute (⟨heap.acquired, none, none⟩, heap.acquire)

/-- Free a string; nothing is done for `NULL`. -/
def free (t : Option Text) (heap : Ledger) : Ledger :=
  match t with
  | none => heap
  | some t => heap.release t.block

/-- Free the strings of an enclosure and then the enclosure. -/
def freeNode (rss : RssNode) (heap : Ledger) : Ledger :=
  (free rss.type (free rss.url heap)).release rss.block

/-- Add a string at the head of the URLs; nothing is added for `NULL`. -/
def addURL (elem : Option Text) (item : FeedItem) (heap : Ledger) : FeedItem × Ledger :=
  match elem with
  | none => (item, heap)
  | some t => ({ item with urls := (heap.acquired, t) :: item.urls }, heap.acquire)

/-- A copy of the URL of a video is added to the URLs. -/
def addEnclosure (enclosure : RssNode) (item : FeedItem) (heap : Ledger) : FeedItem × Ledger :=
  match enclosure.url, enclosure.type with
  | some url, some type =>
    if (text "video/").isPrefixOf type.str.bytes then
      let (copy, heap) := strdup (amStrdup url.str.bytes) heap
      addURL copy item heap
    else (item, heap)
  | _, _ => (item, heap)

/-- The body of the loop over the children of an item. -/
def extractChild (s : ItemDraft × Ledger) (child : XmlChild) : ItemDraft × Ledger :=
  let (draft, heap) := s
  if child.name = text "title" then
    let (name, heap) := getNodeText child.content heap
    ({ item := { draft.item with name := name }, nameSet := name.isSome }, heap)
  else if child.name = text "link" then
    let (link, heap) := getNodeText child.content heap
    let (item, heap) := addURL link draft.item heap
    ({ draft with item := item }, heap)
  else if child.name = text "enclosure" then
    let (enclosure, heap) := getNodeAttributes child heap
    let (item, heap) := addEnclosure enclosure draft.item heap
    ({ draft with item := item }, freeNode enclosure heap)
  else (draft, heap)

/-- Free the URLs of an item: each string and then its node. -/
def freeURLs (urls : List (ℕ × Text)) (heap : Ledger) : Ledger :=
  urls.foldl (fun heap cell => (heap.release cell.2.block).release cell.1) heap

/-- Free the name and the URLs of an item and then the item. -/
def freeFeedItem (item : FeedItem) (heap : Ledger) : Ledger :=
  (freeURLs item.urls (free item.name heap)).release item.block

/-- The item of a node, which is freed if it lacks a name or URLs. -/
def extractItem (node : XmlNode) (heap : Ledger) : Option FeedItem × Ledger :=
  match node with
  | .element [] => (none, heap)
  | .element (child :: children) =>
    let (draft, heap) := (child :: children).foldl extractChild
      (⟨⟨heap.acquired, none, []⟩, false⟩, heap.acquire)
    if draft.nameSet && 0 < listCount draft.item.urls then (some draft.item, heap)
    else (none, freeFeedItem draft.item heap)
  | .other => (none, heap)

/-- The body of the loop of `extract_feed_items`. -/
def addNode (s : List (ℕ × FeedItem) × Ledger) (node : XmlNode) : List (ℕ × FeedItem) × Ledger :=
  let (itemList, heap) := s
  match extractItem node heap with
  | (none, heap) => (itemList, heap)
  | (some item, heap) => ((heap.acquired, item) :: itemList, heap.acquire)

/-- The items of the nodes, each in front of the ones before it. -/
def extractFeedItems (nodes : List XmlNode) (heap : Ledger) : List (ℕ × FeedItem) × Ledger :=
  nodes.foldl addNode ([], heap)

/-- `freeList` with `freeFeedItem`: each item and then its node. -/
def freeItems (items : List (ℕ × FeedItem)) (heap : Ledger) : Ledger :=
  items.foldl (fun heap cell => (freeFeedItem cell.2 heap).release cell.1) heap

/-! ### Documents -/

/-- What libxml2 answers: whether the data can be parsed, or recovered, whether there is a
context, and the `item` nodes found with it. -/
structure LibxmlAnswers where
  parseMemory : Bool
  recoverMemory : Bool
  newContext : Bool
  evalItems : Option (List XmlNode)

/-- The `item` nodes of the document, if they are reached. -/
def LibxmlAnswers.nodes (a : LibxmlAnswers) : Option (List XmlNode) :=
  if (a.parseMemory || a.recoverMemory) && a.newContext then a.evalItems else none

/-- The count of the nodes, and the items.  The document, the context and the result of the
search are freed in any case.  The time to live is not asked for: `ttl` is the address of a
variable. -/
def parseXmldata (a : LibxmlAnswers) (heap : Ledger) : ℕ × List (ℕ × FeedItem) × Ledger :=
  if a.parseMemory || a.recoverMemory then
    let doc := heap.acquired
    let heap := heap.acquire
    if a.newContext then
      let xpathCtx := heap.acquired
      let heap := heap.acquire
      match a.evalItems with
      | none => (0, [], (heap.release xpathCtx).release doc)
      | some nodes =>
        let xpathObj := heap.acquired
        let (items, heap) := extractFeedItems nodes heap.acquire
        (nodes.length, items, ((heap.release xpathObj).release xpathCtx).release doc)
    else (0, [], heap.release doc)
  else (0, [], heap)

/-- A document is parsed, and its items are freed after they were processed. -/
def feedMemory (heap : Ledger) (a : LibxmlAnswers) : Ledger :=
  let (_, items, heap) := parseXmldata a heap
  freeItems items heap

/-! ### What making items does to the memory -/

theorem length_blocks (t : Option Text) :
  (Text.blocks t).length = [t.map Text.str].countP Option.isSome
  := by
  cases t with
  | none => rfl
  | some t => rfl

theorem passes_strdup (str : Option Str) (heap : Ledger) :
  (strdup str heap).1.map Text.str = str
    ∧ heap.Passes [] (strdup str heap).2 (Text.blocks (strdup str heap).1) 0
  := by
  cases str with
  | none => exact ⟨rfl, Ledger.Passes.refl _ _⟩
  | some str => exact ⟨rfl, Ledger.passes_acquire _ _⟩

theorem passes_getNodeText (content : Option Bytes) (heap : Ledger) :
  (getNodeText content heap).1.map Text.str = Trailermatic.getNodeText content
    ∧ heap.Passes [] (getNodeText content heap).2 (Text.blocks (getNodeText content heap).1) 0
  := by
  cases content with
  | none => exact ⟨rfl, Ledger.Passes.refl _ _⟩
  | some content =>
    obtain ⟨hvalue, hpasses⟩ := passes_strdup (amStrdup content) heap.acquire
    refine ⟨hvalue, ?_⟩
    apply (Ledger.passes_acquire heap []).andThen
    apply ((hpasses.frame [heap.acquired]).of_perm (List.Perm.refl _)
      List.perm_append_comm).andThen
    apply Ledger.passes_release

theorem passes_free (t : Option Text) (heap : Ledger) :
  heap.Passes (Text.blocks t) (free t heap) [] 0
  := by
  cases t with
  | none => apply Ledger.Passes.refl
  | some t => apply Ledger.passes_release

theorem value_setAttribute (s : RssNode × Ledger) (attr : XmlAttr) :
  (setAttribute s attr).1.value = Trailermatic.setAttribute s.1.value attr
  := by
  have hvalue := (passes_getNodeText attr.content s.2).1
  rw [setAttribute, Trailermatic.setAttribute]
  split_ifs
  · simp only [RssNode.value, hvalue]
  · simp only [RssNode.value, hvalue]
  · rfl

/-- An attribute whose destination is not `NULL` loses the string there. -/
theorem passes_setAttribute (s : RssNode × Ledger) (attr : XmlAttr) :
  s.2.Passes s.1.blocks (setAttribute s attr).2 (setAttribute s attr).1.blocks
    ((attributeDestinations s.1.value attr).countP Option.isSome)
  := by
  obtain ⟨-, hpasses⟩ := passes_getNodeText attr.content s.2
  rw [setAttribute, attributeDestinations]
  split_ifs
  · rw [RssNode.value, ← length_blocks]
    apply hpasses.overwrite
  · rw [RssNode.value, ← length_blocks]
    apply (hpasses.overwrite (Text.blocks s.1.type)
      (Text.blocks s.1.url ++ [s.1.block])).of_perm
    · apply List.perm_append_comm_assoc
    · apply List.perm_append_comm_assoc
  · apply Ledger.Passes.refl

theorem passes_getNodeAttributes (child : XmlChild) (heap : Ledger) :
  (getNodeAttributes child heap).1.value = Trailermatic.getNodeAttributes child
    ∧ heap.Passes [] (getNodeAttributes child heap).2 (getNodeAttributes child heap).1.blocks
      ((Trace.trace Trailermatic.setAttribute attributeDestinations ⟨none, none⟩
        child.properties).countP Option.isSome)
  := by
  obtain ⟨hvalue, hpasses⟩ := Ledger.passes_foldl RssNode.blocks RssNode.value
    attributeDestinations value_setAttribute passes_setAttribute
    (⟨heap.acquired, none, none⟩, heap.acquire) child.properties
  refine ⟨hvalue, ?_⟩
  apply (Ledger.passes_acquire heap []).andThen hpasses

theorem passes_freeNode (rss : RssNode) (heap : Ledger) :
  heap.Passes rss.blocks (freeNode rss heap) [] 0
  := by
  apply ((passes_free rss.url heap).frame _).andThen
  apply ((passes_free rss.type _).frame _).andThen
  apply Ledger.passes_release

theorem value_addURL (elem : Option Text) (item : FeedItem) (heap : Ledger) :
  (addURL elem item heap).1.value
    = { item.value with urls := addItem (elem.map Text.str) item.value.urls }
  := by
  cases elem with
  | none => rfl
  | some t => rfl

theorem passes_addURL (elem : Option Text) (item : FeedItem) (heap : Ledger) :
  heap.Passes (Text.blocks elem ++ item.blocks) (addURL elem item heap).2
    (addURL elem item heap).1.blocks 0
  := by
  cases elem with
  | none => apply Ledger.Passes.refl
  | some t =>
    apply (Ledger.passes_acquire heap (t.block :: item.blocks)).of_perm (List.Perm.refl _)
    simp only [FeedItem.blocks, addURL, List.flatMap_cons, cellBlocks, List.append_assoc]
    apply (List.Perm.swap _ _ _).trans
    apply List.perm_append_comm_assoc [t.block, heap.acquired]

theorem passes_addEnclosure (enclosure : RssNode) (item : FeedItem) (heap : Ledger) :
  heap.Passes item.blocks (addEnclosure enclosure item heap).2
    (addEnclosure enclosure item heap).1.blocks 0
  := by
  rw [addEnclosure]
  split
  · next url type hurl htype =>
    split_ifs
    · obtain ⟨-, hpasses⟩ := passes_strdup (amStrdup url.str.bytes) heap
      apply (hpasses.frame item.blocks).andThen
      apply passes_addURL
    · apply Ledger.Passes.refl
  · apply Ledger.Passes.refl

theorem value_addEnclosure (enclosure : RssNode) (draft : ItemDraft) (heap : Ledger) :
  ItemDraft.value { draft with item := (addEnclosure enclosure draft.item heap).1 }
    = match enclosure.value.url, enclosure.value.type with
      | some url, some type =>
        if (text "video/").isPrefixOf type.bytes then
          { draft.value with item := { draft.value.item with
              urls := addItem (amStrdup url.bytes) draft.value.item.urls } }
        else draft.value
      | _, _ => draft.value
  := by
  obtain ⟨block, url, type⟩ := enclosure
  cases url with
  | none => rfl
  | some url =>
    cases type with
    | none => rfl
    | some type =>
      simp only [addEnclosure, RssNode.value, Option.map_some]
      split_ifs
      · simp only [ItemDraft.value, value_addURL, (passes_strdup _ heap).1]
      · rfl

theorem value_extractChild (s : ItemDraft × Ledger) (child : XmlChild) :
  (extractChild s child).1.value = Trailermatic.extractChild s.1.value child
  := by
  obtain ⟨draft, heap⟩ := s
  have hvalue := (passes_getNodeText child.content heap).1
  rw [extractChild, Trailermatic.extractChild]
  by_cases htitle : child.name = text "title"
  · simp only [if_pos htitle, ← hvalue, Option.isSome_map]
    rfl
  · by_cases hlink : child.name = text "link"
    · simp only [if_neg htitle, if_pos hlink, ← hvalue]
      simp only [ItemDraft.value, value_addURL]
    · by_cases henclosure : child.name = text "enclosure"
      · have hattributes := (passes_getNodeAttributes child heap).1
        simp only [if_neg htitle, if_neg hlink, if_pos henclosure, value_addEnclosure]
        exact hattributes ▸ rfl
      · simp only [if_neg htitle, if_neg hlink, if_neg henclosure]

/-- A child loses what is in the destinations of its calls. -/
theorem passes_extractChild (s : ItemDraft × Ledger) (child : XmlChild) :
  s.2.Passes s.1.blocks (extractChild s child).2 (extractChild s child).1.blocks
    ((childDestinations s.1.value child).countP Option.isSome)
  := by
  obtain ⟨draft, heap⟩ := s
  obtain ⟨-, htext⟩ := passes_getNodeText child.content heap
  rw [extractChild, childDestinations]
  by_cases htitle : child.name = text "title"
  · simp only [if_pos htitle]
    rw [ItemDraft.value, FeedItem.value, ← length_blocks]
    apply htext.overwrite
  · by_cases hlink : child.name = text "link"
    · simp only [if_neg htitle, if_pos hlink]
      apply (htext.frame draft.item.blocks).andThen
      apply passes_addURL
    · by_cases henclosure : child.name = text "enclosure"
      · simp only [if_neg htitle, if_neg hlink, if_pos henclosure]
        obtain ⟨-, hnode⟩ := passes_getNodeAttributes child heap
        generalize getNodeAttributes child heap = enclosure at hnode ⊢
        have hadd := passes_addEnclosure enclosure.1 draft.item enclosure.2
        have hfree := passes_freeNode enclosure.1 (addEnclosure enclosure.1 draft.item enclosure.2).2
        apply Ledger.Passes.trans (n := 0) ((hnode.frame draft.item.blocks).of_perm
          (List.Perm.refl _) List.perm_append_comm)
        apply (hadd.frame enclosure.1.blocks).andThen
        apply (hfree.frame _).of_perm List.perm_append_comm (List.Perm.refl _)
      · simp only [if_neg htitle, if_neg hlink, if_neg henclosure]
        apply Ledger.Passes.refl

theorem passes_freeFeedItem (item : FeedItem) (heap : Ledger) :
  heap.Passes item.blocks (freeFeedItem item heap) [] 0
  := by
  have hurls : ∀ (heap : Ledger) (cell : ℕ × Text),
      heap.Passes (cellBlocks cell) ((heap.release cell.2.block).release cell.1) [] 0 := by
    intro heap cell
    apply (Ledger.passes_release _ _ _).andThen
    apply Ledger.passes_release
  apply ((passes_free item.name heap).frame _).andThen
  apply ((Ledger.passes_foldl_release hurls _ item.urls).frame _).andThen
  apply Ledger.passes_release

theorem passes_freeItems (items : List (ℕ × FeedItem)) (heap : Ledger) :
  heap.Passes (items.flatMap itemBlocks) (freeItems items heap) [] 0
  := by
  apply Ledger.passes_foldl_release
  intro heap cell
  apply ((passes_freeFeedItem cell.2 heap).frame _).andThen
  apply Ledger.passes_release

theorem passes_extractItem (node : XmlNode) (heap : Ledger) :
  (extractItem node heap).1.map FeedItem.value = Trailermatic.extractItem node
    ∧ heap.Passes [] (extractItem node heap).2
      ((extractItem node heap).1.toList.flatMap FeedItem.blocks)
      ((nodeDestinations node).countP Option.isSome)
  := by
  match node with
  | .other => exact ⟨rfl, Ledger.Passes.refl _ _⟩
  | .element [] => exact ⟨rfl, Ledger.Passes.refl _ _⟩
  | .element (child :: children) =>
    obtain ⟨hvalue, hpasses⟩ := Ledger.passes_foldl ItemDraft.blocks ItemDraft.value
      childDestinations value_extractChild passes_extractChild
      (⟨⟨heap.acquired, none, []⟩, false⟩, heap.acquire) (child :: children)
    have hitem := (Ledger.passes_acquire heap []).andThen hpasses
    rw [extractItem, Trailermatic.extractItem, nodeDestinations]
    simp only
    generalize (child :: children).foldl extractChild _ = made at hvalue hitem ⊢
    have hdraft : (child :: children).foldl Trailermatic.extractChild ⟨⟨none, []⟩, false⟩
        = made.1.value := hvalue.symm
    have hcount : listCount made.1.value.item.urls = listCount made.1.item.urls := by
      apply List.length_map
    rw [hdraft, hcount]
    by_cases h : (made.1.nameSet && 0 < listCount made.1.item.urls) = true
    · have h' : (made.1.value.nameSet && 0 < listCount made.1.item.urls) = true := h
      rw [if_pos h, if_pos h']
      refine ⟨rfl, ?_⟩
      rw [Option.toList_some, List.flatMap_singleton]
      apply hitem
    · have h' : ¬ (made.1.value.nameSet && 0 < listCount made.1.item.urls) = true := h
      rw [if_neg h, if_neg h']
      refine ⟨rfl, ?_⟩
      apply Ledger.Passes.trans (n := 0) hitem
      apply passes_freeFeedItem

theorem passes_extractFeedItems (nodes : List XmlNode) (heap : Ledger) :
  (extractFeedItems nodes heap).1.map (fun cell => cell.2.value)
      = Trailermatic.extractFeedItems nodes
    ∧ heap.Passes [] (extractFeedItems nodes heap).2
      ((extractFeedItems nodes heap).1.flatMap itemBlocks)
      ((destinations nodes).countP Option.isSome)
  := by
  have hvalue : ∀ (s : List (ℕ × FeedItem) × Ledger) (node : XmlNode),
      (addNode s node).1.map (fun cell => cell.2.value)
        = addItem (Trailermatic.extractItem node) (s.1.map fun cell => cell.2.value) := by
    rintro ⟨itemList, heap⟩ node
    rw [addNode, ← (passes_extractItem node heap).1]
    rcases extractItem node heap with ⟨_ | item, heap'⟩
    · rfl
    · rfl
  have hpasses : ∀ (s : List (ℕ × FeedItem) × Ledger) (node : XmlNode),
      s.2.Passes (s.1.flatMap itemBlocks) (addNode s node).2 ((addNode s node).1.flatMap itemBlocks)
        ((nodeDestinations node).countP Option.isSome) := by
    rintro ⟨itemList, heap⟩ node
    obtain ⟨-, hitem⟩ := passes_extractItem node heap
    rw [addNode]
    generalize extractItem node heap = made at hitem ⊢
    obtain ⟨_ | item, heap'⟩ := made
    · apply hitem.frame (itemList.flatMap itemBlocks)
    · rw [Option.toList_some, List.flatMap_singleton] at hitem
      apply Ledger.Passes.trans (n := 0) (hitem.frame (itemList.flatMap itemBlocks))
      apply (Ledger.passes_acquire heap' _).of_perm (List.Perm.refl _)
      rw [List.flatMap_cons, itemBlocks, List.append_assoc]
      apply List.perm_middle.symm
  exact Ledger.passes_foldl (List.flatMap itemBlocks) (List.map fun cell => cell.2.value)
    (fun _ node => nodeDestinations node) hvalue hpasses ([], heap) nodes

/-- The number of strings of a document that are overwritten. -/
def overwritten (a : LibxmlAnswers) : ℕ :=
  a.nodes.elim 0 fun nodes => (destinations nodes).countP Option.isSome

/-- What is made of a document is what is made of it without memory, and what the items do not
own was released, except for the strings that were overwritten. -/
theorem passes_parseXmldata (a : LibxmlAnswers) (data : Bytes) (heap : Ledger) :
  ((parseXmldata a heap).1, (parseXmldata a heap).2.1.map fun cell => cell.2.value)
      = Trailermatic.parseXmldata (fun _ => a.nodes) data
    ∧ heap.Passes [] (parseXmldata a heap).2.2 ((parseXmldata a heap).2.1.flatMap itemBlocks)
      (overwritten a)
  := by
  rw [parseXmldata, Trailermatic.parseXmldata, overwritten, LibxmlAnswers.nodes]
  by_cases hdoc : (a.parseMemory || a.recoverMemory) = true
  · by_cases hctx : a.newContext = true
    · cases hitems : a.evalItems with
      | none =>
        simp only [hdoc, hctx, if_true, Bool.and_self, Option.elim_none]
        refine ⟨rfl, ?_⟩
        apply (Ledger.passes_acquire _ _).andThen
        apply (Ledger.passes_acquire _ _).andThen
        apply (Ledger.passes_release _ _ _).andThen
        apply Ledger.passes_release
      | some nodes =>
        obtain ⟨hvalue, hpasses⟩ := passes_extractFeedItems nodes heap.acquire.acquire.acquire
        simp only [hdoc, hctx, if_true, Bool.and_self, Option.elim_some, hvalue, true_and]
        have hfree : ∀ (heap : Ledger) (items : List ℕ) (doc xpathCtx xpathObj : ℕ),
            heap.Passes (items ++ [xpathObj, xpathCtx, doc])
              (((heap.release xpathObj).release xpathCtx).release doc) items 0 := by
          intro heap items doc xpathCtx xpathObj
          apply Ledger.Passes.of_perm _ List.perm_append_comm (List.Perm.refl _)
          apply (Ledger.passes_release _ _ _).andThen
          apply (Ledger.passes_release _ _ _).andThen
          apply Ledger.passes_release
        apply (Ledger.passes_acquire _ _).andThen
        apply (Ledger.passes_acquire _ _).andThen
        apply (Ledger.passes_acquire _ _).andThen
        apply Ledger.Passes.trans (n := 0) (hpasses.frame _)
        apply hfree
    · simp only [hdoc, hctx, if_true, Bool.and_false, Bool.false_eq_true, if_false,
        Option.elim_none]
      refine ⟨rfl, ?_⟩
      apply (Ledger.passes_acquire _ _).andThen
      apply Ledger.passes_release
  · simp only [hdoc, Bool.false_and, Bool.false_eq_true, if_false, Option.elim_none]
    exact ⟨rfl, Ledger.Passes.refl _ _⟩

theorem passes_feedMemory (heap : Ledger) (a : LibxmlAnswers) :
  heap.Passes [] (feedMemory heap a) [] (overwritten a)
  := by
  obtain ⟨-, hparse⟩ := passes_parseXmldata a [] heap
  apply Ledger.Passes.trans (n := 0) hparse
  apply passes_freeItems

/-- No string of the document is overwritten exactly if no destination holds one. -/
theorem overwritten_eq_zero_iff (a : LibxmlAnswers) :
  overwritten a = 0
    ↔ ∀ nodes ∈ a.nodes, ∀ children, .element children ∈ nodes → ItemSetOnce children
  := by
  rw [overwritten]
  cases a.nodes with
  | none => simp
  | some nodes =>
    simp only [Option.elim_some, Option.mem_some_iff, forall_eq', List.countP_eq_zero,
      Option.not_isSome_iff_eq_none]
    rw [destinations, Trace.forall_mem_trace_iff, Trace.always_const]
    constructor
    · intro h children hmem
      apply (nodeDestinations_none_iff children).mp
      apply h _ hmem
    · intro h node hmem
      cases node with
      | element children =>
        apply (nodeDestinations_none_iff children).mpr
        apply h children hmem
      | other => simp [nodeDestinations]

end Owned

/-- Over any number of documents, parsed and freed one after the other, whatever libxml2 answers:
of the blocks allocated, all are freed once, except for the strings that a later title, URL or
type overwrites.  So all are freed exactly if of the titles of each element only the last one has
a text, and of the URLs and the types of each enclosure only the last ones. -/
theorem feeds_memory (documents : List Owned.LibxmlAnswers) (heap : Ledger) :
  (∃ lost, heap.Keeps (documents.foldl Owned.feedMemory heap) lost
      ∧ lost.length = (documents.map Owned.overwritten).sum)
    ∧ (heap.Balanced (documents.foldl Owned.feedMemory heap)
      ↔ ∀ a ∈ documents, ∀ nodes ∈ a.nodes, ∀ children, .element children ∈ nodes →
        ItemSetOnce children)
  := by
  have hpasses : heap.Passes [] (documents.foldl Owned.feedMemory heap) []
      (documents.map Owned.overwritten).sum := by
    induction documents generalizing heap with
    | nil => apply Ledger.Passes.refl
    | cons a documents ih =>
      rw [List.map_cons, List.sum_cons, List.foldl_cons]
      apply (Owned.passes_feedMemory heap a).trans (ih _)
  constructor
  · obtain ⟨lost, hlength, hkeeps⟩ := hpasses.exists_keeps
    exact ⟨lost, hkeeps, hlength⟩
  · rw [hpasses.balanced_iff, List.sum_eq_zero_iff_forall_eq_nat, List.forall_mem_map]
    simp only [Owned.overwritten_eq_zero_iff]

end Trailermatic
