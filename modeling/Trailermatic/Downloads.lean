import Trailermatic.Bytes
import Trailermatic.Library.Window

/-!
# Linked lists and the download history

A list variable holds the data of its nodes, first node first.  The history is such a
list, newest entry first; `addToBucket_eq_push` says that it is the window that
`Window.push` keeps.
-/

namespace Trailermatic

/-! ### Lists -/

section SimpleList

variable {α : Type*}

/-- A new first node; nothing is added for a `NULL` element. -/
def addToHead (elem : Option α) (head : List α) : List α :=
  match elem with
  | some e => e :: head
  | none => head

def addItem (elem : Option α) (head : List α) : List α :=
  addToHead elem head

/-- A new last node; nothing is added for a `NULL` element. -/
def addToTail (elem : Option α) (head : List α) : List α :=
  match elem with
  | some e => head ++ [e]
  | none => head

def listCount (head : List α) : ℕ :=
  head.length

/-- Remove the last node.  The head is passed by value, so the caller's variable still
points to the node of a list with one node after that node is freed: such a list is
excluded. -/
def removeLast (head : List α) (_ : listCount head ≠ 1) : List α :=
  head.dropLast

end SimpleList

/-! ### The history -/

/-- The loop over the entries, with its comparison by `strcmp`. -/
def bucketHasURL (url : Str) : List Str → Bool
  | [] => false
  | x :: p => if x.bytes = url.bytes then true else bucketHasURL url p

def hasBeenDownloaded (bucket : List Str) (url : Str) : Bool :=
  bucketHasURL url bucket

theorem hasBeenDownloaded_iff {bucket : List Str} {url : Str} :
  hasBeenDownloaded bucket url = true ↔ url ∈ bucket
  := by
  rw [hasBeenDownloaded]
  induction bucket with
  | nil => simp [bucketHasURL]
  | cons x p ih =>
    rw [bucketHasURL, List.mem_cons]
    split_ifs with h
    · simp [Str.ext h]
    · rw [ih, or_iff_right]
      rintro rfl
      apply h rfl

/-- Add an entry to the history, and remove the oldest one when the history has grown
past `maxBucketItems`. -/
def addToBucket (identifier : Str) (head : List Str) (maxBucketItems : ℕ) : List Str :=
  let grown := addToHead (amStrdup identifier.bytes) head
  if h : 0 < maxBucketItems ∧ maxBucketItems < listCount grown then
    removeLast grown (by omega)
  else grown

/-- The history is a window on what was added to it. -/
theorem addToBucket_eq_push (w : Window Str) (identifier : Str) (maxBucketItems : ℕ) :
  addToBucket identifier w.kept maxBucketItems = (w.push maxBucketItems identifier).kept
  := by
  simp only [addToBucket, amStrdup, Str.ofBytes_bytes, addToHead, listCount, removeLast,
    List.length_cons, Window.push]
  split_ifs
  · rfl
  · rfl

theorem mem_of_mem_addToBucket {identifier url : Str} {head : List Str} {maxBucketItems : ℕ}
    (h : url ∈ addToBucket identifier head maxBucketItems) :
  url = identifier ∨ url ∈ head
  := by
  have hpush : addToBucket identifier head maxBucketItems
      = ((Window.all head).push maxBucketItems identifier).kept :=
    addToBucket_eq_push (Window.all head) identifier maxBucketItems
  obtain ⟨rest, hrest, hinit⟩ := (Window.all head).kept_push maxBucketItems identifier
  rw [hpush, hrest, List.mem_cons] at h
  apply h.imp_right
  apply hinit.subset

end Trailermatic
