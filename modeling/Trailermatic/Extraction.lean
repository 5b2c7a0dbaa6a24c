import Mathlib.Data.List.Induction
import Trailermatic.Feed

/-!
# The items that a document gives

`itemOf` says in terms of the document which item an element stands for: its name is the
last title, its URLs are those of its links and of its video enclosures.  The loops of
`extractFeedItems` find just these items, the last one first.
-/

namespace Trailermatic

/-! ### Variables that a loop overwrites -/

section Overwrite

variable {α β : Type*}

/-- The last element that passes a test. -/
def lastWith (p : α → Bool) (l : List α) : Option α :=
  l.reverse.find? p

theorem lastWith_append (p : α → Bool) (l : List α) (x : α) :
  lastWith p (l ++ [x]) = if p x then some x else lastWith p l
  := by
  rw [lastWith, List.reverse_append, List.reverse_singleton, List.singleton_append,
    List.find?_cons]
  cases p x
  · rfl
  · rfl

/-- An element is the last one that passes a test if none of those after it does. -/
theorem lastWith_eq_some_iff {p : α → Bool} {l : List α} {x : α} :
  lastWith p l = some x
    ↔ p x ∧ ∃ before after, l = before ++ x :: after ∧ ∀ y ∈ after, ¬ p y
  := by
  rw [lastWith, List.find?_eq_some_iff_append, and_congr_right_iff]
  intro _
  constructor
  · rintro ⟨after, before, hl, hafter⟩
    use before.reverse, after.reverse
    constructor
    · rw [← List.reverse_reverse l, hl, List.reverse_append, List.reverse_cons,
        List.append_assoc]
      rfl
    · intro y hy
      simpa using hafter y (List.mem_reverse.mp hy)
  · rintro ⟨before, after, rfl, hafter⟩
    use after.reverse, before.reverse
    constructor
    · rw [List.reverse_append, List.reverse_cons, List.append_assoc]
      rfl
    · intro y hy
      simpa using hafter y (List.mem_reverse.mp hy)

/-- What a run leaves in a variable that is `NULL` at first and that every element passing
a test overwrites. -/
theorem foldl_overwritten {step : β → α → β} (value : β → Option Str) {p : α → Bool}
    {content : α → Option Str}
    (hstep : ∀ b x, value (step b x) = if p x then content x else value b)
    {start : β} (hstart : value start = none) (l : List α) :
  value (l.foldl step start) = (lastWith p l).bind content
  := by
  induction l using List.reverseRecOn with
  | nil => apply hstart
  | append_singleton l x ih =>
    rw [List.foldl_append, List.foldl_cons, List.foldl_nil, hstep, lastWith_append, ih]
    split_ifs
    · rfl
    · rfl

/-- What a run leaves in a list to which each element adds at the head. -/
theorem foldl_added {γ : Type*} {step : β → α → β} (list : β → List γ)
    {entry : α → Option γ}
    (hstep : ∀ b x, list (step b x) = addItem (entry x) (list b))
    {start : β} (hstart : list start = []) (l : List α) :
  list (l.foldl step start) = (l.filterMap entry).reverse
  := by
  induction l using List.reverseRecOn with
  | nil => apply hstart
  | append_singleton l x ih =>
    rw [List.foldl_append, List.foldl_cons, List.foldl_nil, hstep, ih, List.filterMap_append,
      List.reverse_append]
    cases h : entry x with
    | none => simp [addItem, addToHead, h]
    | some y => simp [addItem, addToHead, h]

end Overwrite

/-! ### What a document says -/

theorem getNodeText_eq_some_iff {content : Option Bytes} {u : Str} :
  getNodeText content = some u ↔ ∃ s, content = some s ∧ u.bytes = cstr s
  := by
  rw [getNodeText, Option.bind_eq_some_iff]
  simp only [amStrdup, Str.ofBytes_eq_some_iff]

/-- What stands in the last attribute with one of the names. -/
def lastAttribute (names : List Bytes) (child : XmlChild) : Option Str :=
  (lastWith (fun attr => attr.name ∈ names) child.properties).bind
    fun attr => getNodeText attr.content

/-- The URL of an enclosure that is a video. -/
def enclosureURL (child : XmlChild) : Option Str :=
  match lastAttribute [text "content", text "type"] child with
  | some type =>
    if (text "video/").isPrefixOf type.bytes then lastAttribute [text "url"] child else none
  | none => none

/-- The URL that a child gives its item. -/
def childURL (child : XmlChild) : Option Str :=
  if child.name = text "link" then getNodeText child.content
  else if child.name = text "enclosure" then enclosureURL child
  else none

/-- What stands in the last title. -/
def itemName (children : List XmlChild) : Option Str :=
  (lastWith (fun child => child.name = text "title") children).bind
    fun child => getNodeText child.content

/-- The name of an item is the text of its last title, which is not empty. -/
theorem itemName_eq_some_iff {children : List XmlChild} {name : Str} :
  itemName children = some name
    ↔ ∃ before title after content,
      children = before ++ title :: after
        ∧ title.name = text "title" ∧ (∀ child ∈ after, child.name ≠ text "title")
        ∧ title.content = some content ∧ name.bytes = cstr content
  := by
  simp only [itemName, Option.bind_eq_some_iff, lastWith_eq_some_iff, getNodeText_eq_some_iff,
    decide_eq_true_eq]
  constructor
  · rintro ⟨title, ⟨htitle, before, after, hchildren, hafter⟩, content, hcontent, hname⟩
    use before, title, after, content
  · rintro ⟨before, title, after, content, hchildren, htitle, hafter, hcontent, hname⟩
    use title, ⟨htitle, before, after, hchildren, hafter⟩, content

/-- The item that a node stands for: an element with a title and a URL. -/
def itemOf : XmlNode → Option FeedItem
  | .element children =>
    match itemName children, children.filterMap childURL with
    | some name, url :: urls => some ⟨some name, (url :: urls).reverse⟩
    | _, _ => none
  | .other => none

/-! ### What the loops find -/

theorem getNodeAttributes_eq (child : XmlChild) :
  getNodeAttributes child
    = ⟨lastAttribute [text "url"] child, lastAttribute [text "content", text "type"] child⟩
  := by
  have hurl : (getNodeAttributes child).url = lastAttribute [text "url"] child := by
    apply foldl_overwritten RssNode.url _ rfl
    intro node attr
    simp only [List.mem_singleton, decide_eq_true_eq]
    split_ifs
    · rfl
    · rfl
    · rfl
  have htype : (getNodeAttributes child).type
      = lastAttribute [text "content", text "type"] child := by
    apply foldl_overwritten RssNode.type _ rfl
    intro node attr
    have hname : text "url" ≠ text "content" ∧ text "url" ≠ text "type" := by decide
    simp only [List.mem_cons, List.not_mem_nil, or_false, decide_eq_true_eq]
    split_ifs with h₁ h₂
    · rw [h₁] at h₂
      exfalso
      apply h₂.elim hname.1 hname.2
    · rfl
    · rfl
    · rfl
  rw [← hurl, ← htype]

/-- A title sets the name, any other child gives its URL if it has one. -/
theorem extractChild_eq (draft : ItemDraft) (child : XmlChild) :
  extractChild draft child
    = if child.name = text "title" then
        { item := { draft.item with name := getNodeText child.content },
          nameSet := (getNodeText child.content).isSome }
      else
        { draft with
          item := { draft.item with urls := addItem (childURL child) draft.item.urls } }
  := by
  rw [extractChild, childURL]
  split_ifs
  · rfl
  · rfl
  · rw [getNodeAttributes_eq, enclosureURL]
    cases lastAttribute [text "content", text "type"] child with
    | none =>
      cases lastAttribute [text "url"] child with
      | none => rfl
      | some url => rfl
    | some type =>
      cases lastAttribute [text "url"] child with
      | none =>
        simp only [ite_self]
        rfl
      | some url =>
        simp only [amStrdup, Str.ofBytes_bytes]
        split_ifs
        · rfl
        · rfl
  · rfl

theorem extractChild_name (draft : ItemDraft) (child : XmlChild) :
  (extractChild draft child).item.name
    = if child.name = text "title" then getNodeText child.content else draft.item.name
  := by
  rw [extractChild_eq]
  split_ifs
  · rfl
  · rfl

theorem extractChild_urls (draft : ItemDraft) (child : XmlChild) :
  (extractChild draft child).item.urls = addItem (childURL child) draft.item.urls
  := by
  rw [extractChild_eq]
  split_ifs with h
  · have hurl : childURL child = none := by
      rw [childURL, h, if_neg (by decide), if_neg (by decide)]
    rw [hurl]
    rfl
  · rfl

/-- The flag says whether there is a name. -/
theorem foldl_extractChild_nameSet (children : List XmlChild) :
  (children.foldl extractChild ⟨⟨none, []⟩, false⟩).nameSet
    = (children.foldl extractChild ⟨⟨none, []⟩, false⟩).item.name.isSome
  := by
  induction children using List.reverseRecOn with
  | nil => rfl
  | append_singleton children child ih =>
    rw [List.foldl_append, List.foldl_cons, List.foldl_nil, extractChild_eq]
    split_ifs
    · rfl
    · apply ih

theorem extractItem_eq (node : XmlNode) :
  extractItem node = itemOf node
  := by
  match node with
  | .other => rfl
  | .element [] => rfl
  | .element (child :: children) =>
    have hname : ((child :: children).foldl extractChild ⟨⟨none, []⟩, false⟩).item.name
        = itemName (child :: children) := by
      apply foldl_overwritten (fun draft : ItemDraft => draft.item.name) _ rfl
      intro draft child
      simp only [decide_eq_true_eq]
      apply extractChild_name
    have hurls : ((child :: children).foldl extractChild ⟨⟨none, []⟩, false⟩).item.urls
        = ((child :: children).filterMap childURL).reverse := by
      apply foldl_added (fun draft : ItemDraft => draft.item.urls) _ rfl
      apply extractChild_urls
    have hset := foldl_extractChild_nameSet (child :: children)
    simp only [extractItem, itemOf]
    generalize (child :: children).foldl extractChild ⟨⟨none, []⟩, false⟩ = draft at *
    obtain ⟨⟨name, urls⟩, nameSet⟩ := draft
    simp only at hname hurls hset ⊢
    rw [hset, hname, hurls]
    cases itemName (child :: children) with
    | none => rfl
    | some name =>
      cases (child :: children).filterMap childURL with
      | nil => rfl
      | cons url urls => simp [listCount]

end Trailermatic
