import Trailermatic.Library.Ledger

/-!
# Heaps

A heap is a ledger of blocks together with the content of each block.  Reading, writing or
freeing a block that is not live fails.  A segment is a sequence of blocks, each of which
links to the next one.
-/

/-- The blocks, and their contents by address. -/
structure Heap (α : Type*) where
  ledger : Ledger
  content : List α
  length_content : content.length = ledger.acquired
  lt_of_released : ∀ n ∈ ledger.released, n < ledger.acquired

namespace Heap

variable {α : Type*}

/-- The heap on which nothing was allocated. -/
def empty : Heap α :=
  ⟨.empty, [], rfl, by simp [Ledger.empty]⟩

/-- Allocate a block, whose address is `h.ledger.acquired`. -/
def alloc (h : Heap α) (x : α) : Heap α where
  ledger := h.ledger.acquire
  content := h.content ++ [x]
  length_content := by rw [List.length_append, h.length_content]; rfl
  lt_of_released n hn := Nat.lt_succ_of_lt (h.lt_of_released n hn)

/-- The content of a block that is live. -/
def read (h : Heap α) (n : ℕ) : Option α :=
  if h.ledger.Live n then h.content[n]? else none

/-- Replace the content of a block that is live. -/
def write (h : Heap α) (n : ℕ) (x : α) : Option (Heap α) :=
  if h.ledger.Live n then
    some { h with
      content := h.content.set n x
      length_content := by rw [List.length_set, h.length_content] }
  else none

/-- Release a block that is live. -/
def free (h : Heap α) (n : ℕ) : Option (Heap α) :=
  if hn : h.ledger.Live n then
    some { h with
      ledger := h.ledger.release n
      lt_of_released := List.forall_mem_cons.mpr ⟨hn.lt, h.lt_of_released⟩ }
  else none

theorem live_of_read {h : Heap α} {n : ℕ} {x : α} (hread : h.read n = some x) :
  h.ledger.Live n
  := by
  rw [read] at hread
  split_ifs at hread with hlive
  apply hlive

theorem exists_read {h : Heap α} {n : ℕ} (hlive : h.ledger.Live n) :
  ∃ x, h.read n = some x
  := by
  have hlt : n < h.content.length := by
    rw [h.length_content]
    apply hlive.lt
  use h.content[n]
  rw [read, if_pos hlive, List.getElem?_eq_getElem hlt]

/-- A new block is live. -/
theorem live_alloc (h : Heap α) (x : α) :
  (h.alloc x).ledger.Live h.ledger.acquired
  := by
  constructor
  · apply Nat.lt_succ_self
  · intro hmem
    apply Nat.lt_irrefl _ (h.lt_of_released _ hmem)

theorem read_alloc_self (h : Heap α) (x : α) :
  (h.alloc x).read h.ledger.acquired = some x
  := by
  rw [read, if_pos (h.live_alloc x), alloc]
  simp only
  rw [← h.length_content, List.getElem?_concat_length]

/-- The other blocks are as before. -/
theorem read_alloc (h : Heap α) (x : α) {n : ℕ} {y : α} (hread : h.read n = some y) :
  (h.alloc x).read n = some y
  := by
  have hlive := live_of_read hread
  have hlive' : (h.alloc x).ledger.Live n := ⟨Nat.lt_succ_of_lt hlive.lt, hlive.notMem⟩
  rw [read, if_pos hlive] at hread
  rw [read, if_pos hlive', alloc]
  simp only
  rw [List.getElem?_append_left, hread]
  rw [h.length_content]
  apply hlive.lt

/-- A live block can be written to; the others stay as they are. -/
theorem exists_write {h : Heap α} {n : ℕ} (hlive : h.ledger.Live n) (x : α) :
  ∃ h', h.write n x = some h' ∧ h'.ledger = h.ledger ∧ h'.read n = some x
    ∧ ∀ k ≠ n, h'.read k = h.read k
  := by
  have hlt : n < h.content.length := by
    rw [h.length_content]
    apply hlive.lt
  refine ⟨_, if_pos hlive, rfl, ?_, ?_⟩
  · rw [read, if_pos hlive]
    simp only
    rw [List.getElem?_set_self hlt]
  · intro k hk
    simp only [read]
    rw [List.getElem?_set_ne (Ne.symm hk)]

/-- A live block can be freed; the others stay as they are. -/
theorem exists_free {h : Heap α} {n : ℕ} (hlive : h.ledger.Live n) :
  ∃ h', h.free n = some h' ∧ h'.ledger = h.ledger.release n ∧ ∀ k ≠ n, h'.read k = h.read k
  := by
  refine ⟨_, dif_pos hlive, rfl, ?_⟩
  intro k hk
  have hiff : (h.ledger.release n).Live k ↔ h.ledger.Live k := by
    constructor
    · intro hk'
      exact ⟨hk'.lt, fun hmem => hk'.notMem (List.mem_cons_of_mem n hmem)⟩
    · intro hk'
      refine ⟨hk'.lt, ?_⟩
      rintro (_ | ⟨_, hmem⟩)
      · apply hk rfl
      · apply hk'.notMem hmem
  simp only [read, hiff]

/-- A block that was freed cannot be read. -/
theorem read_of_free {h h' : Heap α} {n : ℕ} (hfree : h.free n = some h') :
  h'.read n = none
  := by
  rw [free] at hfree
  split_ifs at hfree
  cases hfree
  apply if_neg
  intro hlive
  apply hlive.notMem List.mem_cons_self

/-! ### What is kept of the contents -/

variable {β : Type*}

/-- The heap in which `f` of each content is kept. -/
def map (f : α → β) (h : Heap α) : Heap β where
  ledger := h.ledger
  content := h.content.map f
  length_content := by rw [List.length_map, h.length_content]
  lt_of_released := h.lt_of_released

theorem ledger_map (f : α → β) (h : Heap α) :
  (h.map f).ledger = h.ledger
  := rfl

theorem map_alloc (f : α → β) (h : Heap α) (x : α) :
  (h.alloc x).map f = (h.map f).alloc (f x)
  := by
  simp [map, alloc]

theorem read_map (f : α → β) (h : Heap α) (n : ℕ) :
  (h.map f).read n = (h.read n).map f
  := by
  simp only [read, map, List.getElem?_map]
  split_ifs
  · rfl
  · rfl

theorem map_free (f : α → β) (h : Heap α) (n : ℕ) :
  (h.map f).free n = (h.free n).map (map f)
  := by
  by_cases hlive : h.ledger.Live n
  · have hlive' : (h.map f).ledger.Live n := hlive
    rw [free, free, dif_pos hlive, dif_pos hlive']
    rfl
  · have hlive' : ¬ (h.map f).ledger.Live n := hlive
    rw [free, free, dif_neg hlive, dif_neg hlive']
    rfl

/-- A write that keeps what is kept of the content is not seen. -/
theorem map_write {f : α → β} {h h' : Heap α} {n : ℕ} {x y : α} (hread : h.read n = some y)
    (hwrite : h.write n x = some h') (hxy : f x = f y) :
  h'.map f = h.map f
  := by
  have hlive := live_of_read hread
  rw [read, if_pos hlive] at hread
  rw [write, if_pos hlive] at hwrite
  cases hwrite
  obtain ⟨hlt, hget⟩ := List.getElem?_eq_some_iff.mp hread
  have hself : (h.content.map f).set n (f y) = h.content.map f := by
    rw [← hget, ← List.map_set, List.set_getElem_self]
  simp only [map, mk.injEq, true_and]
  rw [List.map_set, hxy, hself]

/-! ### Blocks that are owned -/

/-- The blocks in the list are live and distinct. -/
structure Owns (h : Heap α) (l : List ℕ) : Prop where
  live : ∀ n ∈ l, h.ledger.Live n
  nodup : l.Nodup

theorem Owns.of_perm {h : Heap α} {l l' : List ℕ} (howns : h.Owns l) (hperm : l.Perm l') :
  h.Owns l'
  where
    live n hn := howns.live n (hperm.mem_iff.mpr hn)
    nodup := hperm.nodup howns.nodup

theorem Owns.of_append {h : Heap α} {l l' : List ℕ} (howns : h.Owns (l ++ l')) :
  h.Owns l'
  where
    live n hn := howns.live n (List.mem_append_right _ hn)
    nodup := howns.nodup.of_append_right

/-- A new block is owned as well. -/
theorem Owns.alloc {h : Heap α} {l : List ℕ} (howns : h.Owns l) (x : α) :
  (h.alloc x).Owns (h.ledger.acquired :: l)
  where
    live := by
      rw [List.forall_mem_cons]
      refine ⟨h.live_alloc x, ?_⟩
      intro n hn
      exact ⟨Nat.lt_succ_of_lt (howns.live n hn).lt, (howns.live n hn).notMem⟩
    nodup := by
      apply List.nodup_cons.mpr ⟨_, howns.nodup⟩
      intro hmem
      apply Nat.lt_irrefl _ (howns.live _ hmem).lt

/-- A block that is owned can be freed; the others are still owned. -/
theorem Owns.exists_free {h : Heap α} {n : ℕ} {l : List ℕ} (howns : h.Owns (n :: l)) :
  ∃ h', h.free n = some h' ∧ h'.ledger = h.ledger.release n ∧ h'.Owns l
    ∧ ∀ k ≠ n, h'.read k = h.read k
  := by
  obtain ⟨h', hfree, hledger, hothers⟩ := Heap.exists_free (howns.live n List.mem_cons_self)
  obtain ⟨hn, hnodup⟩ := List.nodup_cons.mp howns.nodup
  refine ⟨h', hfree, hledger, ⟨?_, hnodup⟩, hothers⟩
  intro k hk
  obtain ⟨y, hy⟩ := exists_read (howns.live k (List.mem_cons_of_mem n hk))
  rw [← hothers k (ne_of_mem_of_not_mem hk hn)] at hy
  apply live_of_read hy

end Heap

/-! ### Linked blocks -/

/-- A block that links to another one; a pointer is an address, `none` for `NULL`. -/
structure Node (δ : Type*) where
  data : δ
  next : Option ℕ
deriving DecidableEq

namespace Heap

variable {δ : Type*}

/-- From the pointer `p` through blocks with the addresses and the data in the list to the
pointer `q`. -/
def Segment (h : Heap (Node δ)) (p : Option ℕ) : List (ℕ × δ) → Option ℕ → Prop
  | [], q => p = q
  | (n, x) :: cells, q => p = some n ∧ ∃ next, h.read n = some ⟨x, next⟩ ∧ h.Segment next cells q

/-- A chain of blocks that ends with `NULL`. -/
def Chain (h : Heap (Node δ)) (p : Option ℕ) (cells : List (ℕ × δ)) : Prop :=
  h.Segment p cells none

theorem segment_append {h : Heap (Node δ)} {p q : Option ℕ} {cells cells' : List (ℕ × δ)} :
  h.Segment p (cells ++ cells') q ↔ ∃ r, h.Segment p cells r ∧ h.Segment r cells' q
  := by
  induction cells generalizing p with
  | nil => simp [Segment]
  | cons cell cells ih =>
    simp only [List.cons_append, Segment, ih]
    constructor
    · rintro ⟨hp, next, hread, r, hcells, hcells'⟩
      exact ⟨r, ⟨hp, next, hread, hcells⟩, hcells'⟩
    · rintro ⟨r, ⟨hp, next, hread, hcells⟩, hcells'⟩
      exact ⟨hp, next, hread, r, hcells, hcells'⟩

/-- A segment stays as it is when its blocks do. -/
theorem Segment.congr {h h' : Heap (Node δ)} {p q : Option ℕ} {cells : List (ℕ × δ)}
    (hcells : h.Segment p cells q)
    (hsame : ∀ n ∈ cells.map Prod.fst, ∀ y, h.read n = some y → h'.read n = some y) :
  h'.Segment p cells q
  := by
  induction cells generalizing p with
  | nil => apply hcells
  | cons cell cells ih =>
    obtain ⟨hp, next, hread, hrest⟩ := hcells
    rw [List.map_cons, List.forall_mem_cons] at hsame
    exact ⟨hp, next, hsame.1 _ hread, ih hrest hsame.2⟩

/-- The blocks of a segment are live. -/
theorem Segment.live {h : Heap (Node δ)} {p q : Option ℕ} {cells : List (ℕ × δ)}
    (hcells : h.Segment p cells q) {n : ℕ} (hn : n ∈ cells.map Prod.fst) :
  h.ledger.Live n
  := by
  induction cells generalizing p with
  | nil => cases hn
  | cons cell cells ih =>
    obtain ⟨-, next, hread, hrest⟩ := hcells
    rcases List.mem_cons.mp hn with rfl | hn
    · apply live_of_read hread
    · apply ih hrest hn

/-- A chain from `NULL` is empty. -/
theorem chain_none {h : Heap (Node δ)} {cells : List (ℕ × δ)} :
  h.Chain none cells ↔ cells = []
  := by
  cases cells with
  | nil => simp [Chain, Segment]
  | cons cell cells => simp [Chain, Segment]

end Heap
