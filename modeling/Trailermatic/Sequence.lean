import Trailermatic.LinkedList
import Trailermatic.Library.Simulation

/-!
# Lists as sequences

A list variable with its nodes in memory represents a sequence of elements.  Every call on
the list does to the sequence what its name says, except for `removeLast` on a list of one
element: it frees the node, and the variable of the caller still points to it.
`list_refines_iff` says which sequences of calls keep the list variable intact.
-/

namespace Trailermatic

namespace SimpleList

variable {δ : Type}

/-! ### Calls on a list variable -/

/-- A list variable and the memory. -/
structure State (δ : Type) where
  head : Option ℕ
  memory : Memory δ

/-- An empty list, and no node in memory. -/
def State.start : State δ :=
  ⟨none, .empty, []⟩

/-- The calls of the list's interface. -/
inductive Call (δ : Type) where
  | addItem (elem : Option δ)
  | addToHead (elem : Option δ)
  | addToTail (elem : Option δ)
  | removeFirst
  | removeLast
  | reverseList
  | listCount
  | freeList

/-- Make a call: the value it returns, if any, and what it leaves. -/
def Call.run (s : State δ) : Call δ → Option (Option ℤ × State δ)
  | .addItem elem => do
    let (ret, head, memory) ← SimpleList.addItem elem s.head s.memory
    return (some ret, ⟨head, memory⟩)
  | .addToHead elem => do
    let (ret, head, memory) ← SimpleList.addToHead elem s.head s.memory
    return (some ret, ⟨head, memory⟩)
  | .addToTail elem => do
    let (ret, head, memory) ← SimpleList.addToTail elem s.head s.memory
    return (some ret, ⟨head, memory⟩)
  | .removeFirst => do
    let (head, memory) ← SimpleList.removeFirst s.head s.memory
    return (none, ⟨head, memory⟩)
  | .removeLast => do
    let memory ← SimpleList.removeLast s.head s.memory
    return (none, ⟨s.head, memory⟩)
  | .reverseList => do
    let (head, memory) ← SimpleList.reverseList s.head s.memory
    return (none, ⟨head, memory⟩)
  | .listCount => do
    let count ← SimpleList.listCount s.head s.memory
    return (some count, s)
  | .freeList => do
    let (head, memory) ← SimpleList.freeList s.head s.memory
    return (none, ⟨head, memory⟩)

/-- The calls one after the other, on the memory. -/
def runCalls (calls : List (Call δ)) (s : State δ) : Option (State δ) :=
  calls.foldlM (fun s call => (call.run s).map Prod.snd) s

/-! ### Sequences -/

/-- The elements of a list, and the elements removed from it so far, newest first. -/
structure Sequence (δ : Type) where
  items : List δ
  removed : List δ

/-- No elements, and none disposed of. -/
def Sequence.start : Sequence δ :=
  ⟨[], []⟩

/-- What a call means for the sequence. -/
def Call.apply (a : Sequence δ) : Call δ → Sequence δ
  | .addItem elem => { a with items := Trailermatic.addItem elem a.items }
  | .addToHead elem => { a with items := Trailermatic.addToHead elem a.items }
  | .addToTail elem => { a with items := Trailermatic.addToTail elem a.items }
  | .removeFirst => ⟨a.items.tail, a.items.head?.toList ++ a.removed⟩
  | .removeLast => ⟨a.items.dropLast, a.items.getLast?.toList ++ a.removed⟩
  | .reverseList => { a with items := a.items.reverse }
  | .listCount => a
  | .freeList => ⟨[], a.items.reverse ++ a.removed⟩

/-- What a call returns. -/
def Call.result (a : Sequence δ) : Call δ → Option ℤ
  | .addItem elem => some (if elem.isSome then 0 else -1)
  | .addToHead elem => some (if elem.isSome then 0 else -1)
  | .addToTail elem => some (if elem.isSome then 0 else -1)
  | .listCount => some (Trailermatic.listCount a.items)
  | _ => none

/-- The calls one after the other, on sequences. -/
def applyCalls (calls : List (Call δ)) : Sequence δ :=
  calls.foldl Call.apply .start

/-- The element that a call adds. -/
def Call.added : Call δ → List δ
  | .addItem elem => elem.toList
  | .addToHead elem => elem.toList
  | .addToTail elem => elem.toList
  | _ => []

/-- The list variable represents the sequence: its nodes form a chain of live nodes with the
elements of the sequence, every other node ever allocated was freed exactly once, and the
elements freed are those removed. -/
structure Represents (s : State δ) (a : Sequence δ) : Prop where
  chain : ∃ cells, s.memory.nodes.Chain s.head cells ∧ cells.map Prod.snd = a.items
    ∧ Ledger.empty.Keeps s.memory.nodes.ledger (cells.map Prod.fst)
  disposed : s.memory.disposed = a.removed

/-- The call is neither `removeLast` on a list of one element, nor does it count more elements
than an `int` can hold. -/
def Call.Allowed (a : Sequence δ) : Call δ → Prop
  | .removeLast => a.items.length ≠ 1
  | .listCount => a.items.length ≤ INT_MAX
  | .freeList => a.items.length ≤ INT_MAX
  | _ => True

/-- The call gives what it should give, and keeps the list variable intact. -/
def Call.Refines (s : State δ) (a : Sequence δ) (call : Call δ) : Prop :=
  ∃ s', call.run s = some (call.result a, s') ∧ Represents s' (call.apply a)

/-! ### What the calls do -/

/-- A list has fewer nodes than its loops have turns. -/
theorem length_lt_turns {nodes : Heap (Node δ)} {cells : List (ℕ × δ)}
    (h : Ledger.empty.Keeps nodes.ledger (cells.map Prod.fst)) :
  cells.length < turns nodes
  := by
  have hlength := h.length_le
  rw [List.length_map] at hlength
  apply Nat.lt_succ_of_le hlength

/-- The nodes of a chain are not the newest one. -/
theorem notMem_alloc {nodes : Heap (Node δ)} {p : Option ℕ} {cells : List (ℕ × δ)}
    (h : nodes.Chain p cells) :
  nodes.ledger.acquired ∉ cells.map Prod.fst
  := by
  intro hmem
  exact Nat.lt_irrefl _ (h.live hmem).lt

/-- A new node is linked in front of a chain. -/
theorem exists_addNodeFirst {nodes : Heap (Node δ)} {p : Option ℕ} {cells : List (ℕ × δ)}
    (h : nodes.Chain p cells) (e : δ) :
  ∃ nodes', addNodeFirst p nodes.ledger.acquired (nodes.alloc ⟨e, none⟩)
      = some (some nodes.ledger.acquired, nodes')
    ∧ nodes'.Chain (some nodes.ledger.acquired) ((nodes.ledger.acquired, e) :: cells)
    ∧ nodes'.ledger = nodes.ledger.acquire
  := by
  obtain ⟨nodes', hset, hledger, hread, hothers⟩ :=
    exists_setNext (nodes.read_alloc_self ⟨e, none⟩) p
  refine ⟨nodes', ?_, ⟨rfl, p, hread, ?_⟩, hledger⟩
  · cases p with
    | none => simp only [addNodeFirst, hset, Option.bind_eq_bind, Option.bind_some, Option.pure_def]
    | some p =>
      simp only [addNodeFirst, hset, Option.bind_eq_bind, Option.bind_some, Option.pure_def]
  · apply h.congr
    intro k hk y hy
    rw [hothers k (ne_of_mem_of_not_mem hk (notMem_alloc h))]
    apply nodes.read_alloc _ hy

/-- The last node of a chain links to `NULL`. -/
theorem read_last {nodes : Heap (Node δ)} {p : Option ℕ} {cells : List (ℕ × δ)} {n : ℕ} {x : δ}
    (h : nodes.Chain p (cells ++ [(n, x)])) :
  nodes.Segment p cells (some n) ∧ nodes.read n = some ⟨x, none⟩
  := by
  obtain ⟨r, hcells, rfl, next, hread, rfl⟩ := Heap.segment_append.mp h
  exact ⟨hcells, hread⟩

/-- A new node is linked to the last node of a chain. -/
theorem exists_addNodeLast {nodes : Heap (Node δ)} {p : Option ℕ} {cells : List (ℕ × δ)}
    (h : nodes.Chain p cells) (hkeeps : Ledger.empty.Keeps nodes.ledger (cells.map Prod.fst))
    (e : δ) :
  ∃ head nodes', addNodeLast p nodes.ledger.acquired (nodes.alloc ⟨e, none⟩)
      = some (head, nodes')
    ∧ nodes'.Chain head (cells ++ [(nodes.ledger.acquired, e)])
    ∧ nodes'.ledger = nodes.ledger.acquire
  := by
  have hnew := nodes.read_alloc_self ⟨e, none⟩
  cases p with
  | none =>
    obtain rfl := Heap.chain_none.mp h
    obtain ⟨nodes', hset, hledger, hread, -⟩ := exists_setNext hnew none
    refine ⟨some nodes.ledger.acquired, nodes', ?_, ⟨rfl, none, hread, rfl⟩, hledger⟩
    simp only [addNodeLast, hset, Option.bind_eq_bind, Option.bind_some, Option.pure_def]
  | some first =>
    obtain rfl | ⟨init, ⟨n, x⟩, rfl⟩ := List.eq_nil_or_concat' cells
    · cases h
    have hchain : (nodes.alloc ⟨e, none⟩).Chain (some first) (init ++ [(n, x)]) :=
      h.congr fun k _ y hy => nodes.read_alloc _ hy
    have hnotMem := notMem_alloc h
    have hnodup := hkeeps.nodup
    have hlast : lastFrom (nodes.alloc ⟨e, none⟩) (turns (nodes.alloc ⟨e, none⟩)) (some first)
        = some (some n) := by
      apply lastFrom_eq hchain
      have hlength := length_lt_turns hkeeps
      rw [List.length_append, List.length_singleton] at hlength
      simp only [turns, Heap.alloc, Ledger.acquire] at hlength ⊢
      omega
    rw [List.map_append, List.map_singleton] at hnotMem hnodup
    rw [List.mem_append, not_or, List.mem_singleton] at hnotMem
    have hn : n ∉ init.map Prod.fst := by
      intro hmem
      apply List.disjoint_of_nodup_append hnodup hmem (List.mem_singleton_self n)
    obtain ⟨hinit, hread⟩ := read_last hchain
    obtain ⟨nodes₁, hset₁, hledger₁, hread₁, hothers₁⟩ :=
      exists_setNext hread (some nodes.ledger.acquired)
    have hnew₁ := (hothers₁ _ hnotMem.2).trans hnew
    obtain ⟨nodes₂, hset₂, hledger₂, hread₂, hothers₂⟩ := exists_setNext hnew₁ none
    refine ⟨some first, nodes₂, ?_, ?_, hledger₂.trans hledger₁⟩
    · simp only [addNodeLast, hlast, hset₁, hset₂, Option.bind_eq_bind, Option.bind_some,
        Option.pure_def]
    · rw [List.append_assoc]
      apply Heap.segment_append.mpr
      refine ⟨some n, ?_, rfl, _, ?_, rfl, none, hread₂, rfl⟩
      · apply hinit.congr
        intro k hk y hy
        rw [hothers₂ k (ne_of_mem_of_not_mem hk hnotMem.1), hothers₁ k (ne_of_mem_of_not_mem hk hn),
          hy]
      · rw [hothers₂ n (Ne.symm hnotMem.2), hread₁]

/-- The last node of a chain with two nodes or more is unlinked and freed. -/
theorem exists_deleteLast {nodes : Heap (Node δ)} {p : Option ℕ} {cells : List (ℕ × δ)}
    {k n : ℕ} {y x : δ} (h : nodes.Chain p (cells ++ [(k, y), (n, x)]))
    (hkeeps : Ledger.empty.Keeps nodes.ledger ((cells ++ [(k, y), (n, x)]).map Prod.fst)) :
  ∃ nodes', deleteLast p nodes = some nodes' ∧ nodes'.Chain p (cells ++ [(k, y)])
    ∧ Ledger.empty.Keeps nodes'.ledger ((cells ++ [(k, y)]).map Prod.fst)
  := by
  have hlength := length_lt_turns hkeeps
  rw [List.length_append] at hlength
  have htwo := lastTwoFrom_eq h (Nat.lt_of_succ_lt hlength) none
  obtain ⟨r, hinit, rfl, next, hread, rfl, next', hread', rfl⟩ := Heap.segment_append.mp h
  have hnodup := hkeeps.nodup
  rw [List.map_append] at hnodup
  have hdisjoint := List.disjoint_of_nodup_append hnodup
  have hk : k ∉ cells.map Prod.fst := fun hmem => hdisjoint hmem List.mem_cons_self
  have hn : n ∉ cells.map Prod.fst := fun hmem =>
    hdisjoint hmem (List.mem_cons_of_mem _ List.mem_cons_self)
  have hne : n ≠ k := by
    rintro rfl
    have htwice := (List.nodup_append.mp hnodup).2.1
    simp at htwice
  obtain ⟨nodes₁, hset, hledger₁, hread₁, hothers₁⟩ := exists_setNext hread none
  have hlive : nodes₁.ledger.Live n := hledger₁ ▸ Heap.live_of_read hread'
  obtain ⟨nodes₂, hfree, hledger₂, hothers₂⟩ := Heap.exists_free hlive
  refine ⟨nodes₂, ?_, ?_, ?_⟩
  · simp only [deleteLast, htwo, hset, amFree, hfree, Option.bind_eq_bind, Option.bind_some]
  · apply Heap.segment_append.mpr
    refine ⟨some k, ?_, rfl, none, ?_, rfl⟩
    · apply hinit.congr
      intro j hj z hz
      rw [hothers₂ j (ne_of_mem_of_not_mem hj hn), hothers₁ j (ne_of_mem_of_not_mem hj hk), hz]
    · rw [hothers₂ k (Ne.symm hne), hread₁]
  · rw [hledger₂, hledger₁]
    apply Ledger.Keeps.release
    apply hkeeps.of_perm
    rw [List.map_append, List.map_append]
    apply List.Perm.trans _ List.perm_middle
    apply List.Perm.append_left
    apply List.Perm.swap

section Represents

variable {s : State δ} {a : Sequence δ}

theorem Represents.addToHead (h : Represents s a) (elem : Option δ) :
  ∃ head memory, SimpleList.addToHead elem s.head s.memory
      = some (if elem.isSome then 0 else -1, head, memory)
    ∧ Represents ⟨head, memory⟩ { a with items := Trailermatic.addToHead elem a.items }
  := by
  cases elem with
  | none => exact ⟨s.head, s.memory, rfl, h⟩
  | some e =>
    obtain ⟨⟨cells, hchain, hitems, hkeeps⟩, hdisposed⟩ := h
    obtain ⟨nodes, hadd, hchain', hledger⟩ := exists_addNodeFirst hchain e
    refine ⟨_, { s.memory with nodes := nodes }, ?_, ⟨_, hchain', ?_, ?_⟩, hdisposed⟩
    · simp only [SimpleList.addToHead, hadd, Option.bind_eq_bind, Option.bind_some, Option.pure_def]
      rfl
    · rw [List.map_cons, hitems]
      rfl
    · rw [hledger]
      apply hkeeps.acquire

theorem Represents.addToTail (h : Represents s a) (elem : Option δ) :
  ∃ head memory, SimpleList.addToTail elem s.head s.memory
      = some (if elem.isSome then 0 else -1, head, memory)
    ∧ Represents ⟨head, memory⟩ { a with items := Trailermatic.addToTail elem a.items }
  := by
  cases elem with
  | none => exact ⟨s.head, s.memory, rfl, h⟩
  | some e =>
    obtain ⟨⟨cells, hchain, hitems, hkeeps⟩, hdisposed⟩ := h
    obtain ⟨head, nodes, hadd, hchain', hledger⟩ := exists_addNodeLast hchain hkeeps e
    refine ⟨head, { s.memory with nodes := nodes }, ?_, ⟨_, hchain', ?_, ?_⟩, hdisposed⟩
    · simp only [SimpleList.addToTail, hadd, Option.bind_eq_bind, Option.bind_some, Option.pure_def]
      rfl
    · rw [List.map_append, hitems]
      rfl
    · rw [hledger, List.map_append]
      apply hkeeps.acquire.of_perm
      apply (List.perm_append_singleton _ _).symm

theorem Represents.removeFirst (h : Represents s a) :
  ∃ head memory, SimpleList.removeFirst s.head s.memory = some (head, memory)
    ∧ Represents ⟨head, memory⟩ (Call.removeFirst.apply a)
  := by
  obtain ⟨⟨cells, hchain, hitems, hkeeps⟩, hdisposed⟩ := h
  cases cells with
  | nil =>
    have hhead : s.head = none := hchain
    have hempty : a.items = [] := hitems.symm
    refine ⟨none, s.memory, by rw [hhead]; rfl, ⟨[], rfl, ?_, hkeeps⟩, ?_⟩
    · rw [Call.apply, hempty]
      rfl
    · rw [Call.apply, hempty]
      exact hdisposed
  | cons cell cells =>
    obtain ⟨hhead, next, hread, hrest⟩ := hchain
    obtain ⟨nodes, hfree, hledger, hothers⟩ := Heap.exists_free (Heap.live_of_read hread)
    have hnotMem : cell.1 ∉ cells.map Prod.fst := (List.nodup_cons.mp hkeeps.nodup).1
    refine ⟨next, ⟨nodes, cell.2 :: s.memory.disposed⟩, ?_, ⟨cells, ?_, ?_, ?_⟩, ?_⟩
    · rw [hhead]
      simp only [SimpleList.removeFirst, deleteFirst, hread, hfree, Option.bind_eq_bind,
        Option.bind_some, Option.pure_def]
    · apply hrest.congr
      intro k hk y hy
      rw [hothers k (ne_of_mem_of_not_mem hk hnotMem), hy]
    · rw [Call.apply, ← hitems]
      rfl
    · rw [hledger]
      apply hkeeps.release
    · rw [Call.apply, ← hitems, hdisposed]
      rfl

theorem Represents.removeLast (h : Represents s a) (hlength : a.items.length ≠ 1) :
  ∃ memory, SimpleList.removeLast s.head s.memory = some memory
    ∧ Represents ⟨s.head, memory⟩ (Call.removeLast.apply a)
  := by
  obtain ⟨⟨cells, hchain, hitems, hkeeps⟩, hdisposed⟩ := h
  obtain rfl | ⟨cells, ⟨n, x⟩, rfl⟩ := List.eq_nil_or_concat' cells
  · have hhead : s.head = none := hchain
    have hempty : a.items = [] := hitems.symm
    refine ⟨s.memory, by rw [hhead]; rfl, ⟨[], hhead, ?_, hkeeps⟩, ?_⟩
    · rw [Call.apply, hempty]
      rfl
    · rw [Call.apply, hempty]
      exact hdisposed
  · obtain rfl | ⟨cells, ⟨k, y⟩, rfl⟩ := List.eq_nil_or_concat' cells
    · rw [← hitems] at hlength
      apply absurd rfl hlength
    · have hlast : getLastNode s.head s.memory.nodes = some (some n) := by
        apply lastFrom_eq hchain
        have hturns := length_lt_turns hkeeps
        rw [List.length_append] at hturns
        apply Nat.lt_of_succ_lt hturns
      obtain ⟨-, hread⟩ := read_last hchain
      rw [List.append_assoc] at hchain hkeeps hitems
      obtain ⟨nodes, hdelete, hchain', hkeeps'⟩ := exists_deleteLast hchain hkeeps
      refine ⟨⟨nodes, x :: s.memory.disposed⟩, ?_, ⟨_, hchain', ?_, hkeeps'⟩, ?_⟩
      · simp only [SimpleList.removeLast, hlast, hread, hdelete, Option.bind_eq_bind,
          Option.bind_some, Option.map_some, Option.pure_def]
      · rw [Call.apply, ← hitems]
        simp
      · rw [Call.apply, ← hitems, hdisposed]
        simp [List.getLast?_append]

theorem Represents.reverseList (h : Represents s a) :
  ∃ head memory, SimpleList.reverseList s.head s.memory = some (head, memory)
    ∧ Represents ⟨head, memory⟩ (Call.reverseList.apply a)
  := by
  obtain ⟨⟨cells, hchain, hitems, hkeeps⟩, hdisposed⟩ := h
  obtain ⟨head, nodes, hreverse, hchain', hledger⟩ := exists_reverseFrom hchain
    (Heap.chain_none.mpr rfl) (by rw [List.map_nil, List.append_nil]; exact hkeeps.nodup)
    (length_lt_turns hkeeps)
  rw [List.append_nil] at hchain'
  refine ⟨head, { s.memory with nodes := nodes }, ?_, ⟨_, hchain', ?_, ?_⟩, hdisposed⟩
  · simp only [SimpleList.reverseList, hreverse, Option.bind_eq_bind, Option.bind_some,
      Option.pure_def]
  · rw [List.map_reverse, hitems]
    rfl
  · rw [hledger, List.map_reverse]
    apply hkeeps.of_perm
    apply (List.reverse_perm _).symm

theorem Represents.listCount (h : Represents s a) :
  SimpleList.listCount s.head s.memory
    = if a.items.length ≤ INT_MAX then some a.items.length else none
  := by
  obtain ⟨⟨cells, hchain, hitems, hkeeps⟩, -⟩ := h
  rw [SimpleList.listCount, countFrom_eq hchain (length_lt_turns hkeeps) (Nat.zero_le _),
    Nat.zero_add, ← hitems, List.length_map]

theorem Represents.freeList (h : Represents s a) (hlength : a.items.length ≤ INT_MAX) :
  ∃ head memory, SimpleList.freeList s.head s.memory = some (head, memory)
    ∧ Represents ⟨head, memory⟩ (Call.freeList.apply a)
  := by
  have hcount := h.listCount
  rw [if_pos hlength] at hcount
  obtain ⟨⟨cells, hchain, hitems, hkeeps⟩, hdisposed⟩ := h
  obtain ⟨nodes, hfree, hempty⟩ :=
    exists_freeFrom hchain hkeeps (length_lt_turns hkeeps) s.memory.disposed
  refine ⟨none, ⟨nodes, (cells.map Prod.snd).reverse ++ s.memory.disposed⟩, ?_,
    ⟨[], rfl, rfl, hempty⟩, ?_⟩
  · simp only [SimpleList.freeList, hcount, Option.bind_eq_bind, Option.bind_some, Option.pure_def]
    rw [hfree]
    rfl
  · rw [Call.apply, ← hitems, hdisposed]

/-- A call that is allowed refines what it means for the sequence. -/
theorem Represents.refines (h : Represents s a) {call : Call δ} (hallowed : call.Allowed a) :
  call.Refines s a
  := by
  cases call with
  | addItem elem =>
    obtain ⟨head, memory, hadd, hrep⟩ := h.addToHead elem
    refine ⟨⟨head, memory⟩, ?_, hrep⟩
    simp only [Call.run, SimpleList.addItem, hadd, Option.bind_eq_bind, Option.bind_some,
      Option.pure_def, Call.result]
  | addToHead elem =>
    obtain ⟨head, memory, hadd, hrep⟩ := h.addToHead elem
    refine ⟨⟨head, memory⟩, ?_, hrep⟩
    simp only [Call.run, hadd, Option.bind_eq_bind, Option.bind_some, Option.pure_def, Call.result]
  | addToTail elem =>
    obtain ⟨head, memory, hadd, hrep⟩ := h.addToTail elem
    refine ⟨⟨head, memory⟩, ?_, hrep⟩
    simp only [Call.run, hadd, Option.bind_eq_bind, Option.bind_some, Option.pure_def, Call.result]
  | removeFirst =>
    obtain ⟨head, memory, hremove, hrep⟩ := h.removeFirst
    refine ⟨⟨head, memory⟩, ?_, hrep⟩
    simp only [Call.run, hremove, Option.bind_eq_bind, Option.bind_some, Option.pure_def,
      Call.result]
  | removeLast =>
    obtain ⟨memory, hremove, hrep⟩ := h.removeLast hallowed
    refine ⟨⟨s.head, memory⟩, ?_, hrep⟩
    simp only [Call.run, hremove, Option.bind_eq_bind, Option.bind_some, Option.pure_def,
      Call.result]
  | reverseList =>
    obtain ⟨head, memory, hreverse, hrep⟩ := h.reverseList
    refine ⟨⟨head, memory⟩, ?_, hrep⟩
    simp only [Call.run, hreverse, Option.bind_eq_bind, Option.bind_some, Option.pure_def,
      Call.result]
  | listCount =>
    refine ⟨s, ?_, h⟩
    simp only [Call.run, h.listCount, if_pos (show a.items.length ≤ INT_MAX from hallowed),
      Option.bind_eq_bind, Option.bind_some, Option.pure_def, Call.result]
    rfl
  | freeList =>
    obtain ⟨head, memory, hfree, hrep⟩ := h.freeList hallowed
    refine ⟨⟨head, memory⟩, ?_, hrep⟩
    simp only [Call.run, hfree, Option.bind_eq_bind, Option.bind_some, Option.pure_def, Call.result]

/-- A call that is not allowed does not refine what it means. -/
theorem Represents.allowed (h : Represents s a) {call : Call δ} (hrefines : call.Refines s a) :
  call.Allowed a
  := by
  obtain ⟨s', hrun, hrep⟩ := hrefines
  have hcount := h.listCount
  cases call with
  | removeLast =>
    intro hlength
    -- the node is freed, and the variable still points to it
    obtain ⟨⟨cells, hchain, hitems, -⟩, -⟩ := h
    obtain ⟨⟨cells', hchain', hitems', -⟩, -⟩ := hrep
    obtain ⟨memory, -, hs'⟩ := Option.bind_eq_some_iff.mp hrun
    cases hs'
    obtain ⟨x, hx⟩ := List.length_eq_one_iff.mp hlength
    rw [Call.apply, hx] at hitems'
    rw [List.map_eq_nil_iff.mp hitems'] at hchain'
    rw [show s.head = none from hchain', Heap.chain_none] at hchain
    rw [hchain, hx] at hitems
    cases hitems
  | listCount =>
    by_contra hlength
    rw [if_neg (show ¬ a.items.length ≤ INT_MAX from hlength)] at hcount
    simp only [Call.run, hcount, Option.bind_eq_bind, Option.bind_none] at hrun
    cases hrun
  | freeList =>
    by_contra hlength
    rw [if_neg (show ¬ a.items.length ≤ INT_MAX from hlength)] at hcount
    simp only [Call.run, SimpleList.freeList, hcount, Option.bind_eq_bind, Option.bind_none] at hrun
    cases hrun
  | addItem => trivial
  | addToHead => trivial
  | addToTail => trivial
  | removeFirst => trivial
  | reverseList => trivial

end Represents

/-! ### Runs of calls -/

theorem represents_start :
  Represents (State.start : State δ) .start
  := ⟨⟨[], rfl, rfl, Ledger.Balanced.refl _⟩, rfl⟩

/-- The list variable simulates the sequence. -/
def simulation (δ : Type) : Simulation (State δ) (Sequence δ) (Call δ) where
  step s call := (call.run s).map Prod.snd
  apply a call := call.apply a
  Rel := Represents
  Allowed a call := call.Allowed a
  Sound s a call := call.Refines s a
  simulates hrep hallowed := by
    obtain ⟨s', hrun, hrep'⟩ := hrep.refines hallowed
    use s'
    rw [hrun]
    exact ⟨rfl, hrep'⟩
  sound hrep hallowed := hrep.refines hallowed
  allowed hrep hrefines := hrep.allowed hrefines

/-- A call takes no element twice from the list, and loses none. -/
theorem Call.apply_perm (a : Sequence δ) (call : Call δ) :
  ((call.apply a).removed ++ (call.apply a).items).Perm (call.added ++ (a.removed ++ a.items))
  := by
  have hhead (elem : Option δ) : (a.removed ++ Trailermatic.addToHead elem a.items).Perm
      (elem.toList ++ (a.removed ++ a.items)) := by
    cases elem with
    | none => rfl
    | some e => apply List.perm_middle
  cases call with
  | addItem elem => apply hhead
  | addToHead elem => apply hhead
  | addToTail elem =>
    cases elem with
    | none => rfl
    | some e =>
      apply List.Perm.trans _ (hhead (some e))
      apply List.Perm.append_left
      apply List.perm_append_singleton
  | removeFirst =>
    cases hitems : a.items with
    | nil => simp [Call.apply, Call.added, hitems]
    | cons x items =>
      simp only [Call.apply, hitems]
      apply List.perm_middle.symm
  | removeLast =>
    obtain hitems | ⟨items, x, hitems⟩ := List.eq_nil_or_concat' a.items
    · simp [Call.apply, Call.added, hitems]
    · simp only [Call.apply, hitems, List.getLast?_concat, List.dropLast_concat, Option.toList_some]
      apply List.perm_middle.symm.trans
      apply List.Perm.append_left
      apply (List.perm_append_singleton x items).symm
  | reverseList =>
    apply List.Perm.append_left
    apply List.reverse_perm
  | listCount => rfl
  | freeList =>
    simp only [Call.apply, Call.added, List.append_nil, List.nil_append]
    apply List.perm_append_comm.trans
    apply List.Perm.append_left
    apply List.reverse_perm

/-- What was added is in the list or was removed. -/
theorem applyCalls_perm (calls : List (Call δ)) :
  ((applyCalls calls).removed ++ (applyCalls calls).items).Perm (calls.flatMap Call.added)
  := by
  induction calls using List.reverseRecOn with
  | nil => rfl
  | append_singleton calls call ih =>
    have hconcat : applyCalls (calls ++ [call]) = call.apply (applyCalls calls) :=
      (simulation δ).meaning_concat .start calls call
    rw [hconcat, List.flatMap_append, List.flatMap_singleton]
    apply (call.apply_perm _).trans
    apply List.perm_append_comm.trans
    apply ih.append_right

/-- Every call of a sequence returns what it should return and leaves a list variable that
represents the sequence of elements, exactly when no call is `removeLast` on a list of one
element and no call counts more elements than an `int` can hold.  When the elements added
are distinct, each one removed is removed once. -/
theorem list_refines_iff (calls : List (Call δ)) :
  ((∀ before call, before ++ [call] <+: calls →
        ∃ s, runCalls before .start = some s ∧ call.Refines s (applyCalls before))
      ↔ ∀ before call, before ++ [call] <+: calls → call.Allowed (applyCalls before))
    ∧ ((calls.flatMap Call.added).Nodup →
      ((applyCalls calls).removed ++ (applyCalls calls).items).Nodup)
  := by
  exact ⟨(simulation δ).sound_iff represents_start calls, (applyCalls_perm calls).nodup_iff.mpr⟩

/-- After `removeLast` on a list of one element the variable points to the freed node, and the
next call that adds an element to the tail accesses it. -/
theorem list_not_refined :
  (runCalls [.addItem (some 7), .removeLast] .start).map
      (fun s => (s.head, s.memory.nodes.read 0, s.memory.disposed)) = some (some 0, none, [7])
    ∧ (applyCalls [.addItem (some 7), .removeLast]).items = []
    ∧ (runCalls [.addItem (some 7), .removeLast, .addToTail (some 8)] .start).isNone = true
  := by
  decide

/-! ### The history as a list variable -/

/-- `addToBucket` on a list variable. -/
def addToBucket (identifier : Str) (s : State Str) (maxBucketItems : ℕ) : Option (State Str) := do
  let (_, head, memory) ← addToHead (amStrdup identifier.bytes) s.head s.memory
  if 0 < maxBucketItems then
    let count ← listCount head memory
    if maxBucketItems < count then
      let memory ← removeLast head memory
      return ⟨head, memory⟩
    else return ⟨head, memory⟩
  else return ⟨head, memory⟩

/-- The history in memory is the history as a list: when `addToBucket` calls `removeLast`, the
list has two elements at least. -/
theorem Represents.addToBucket {s : State Str} {a : Sequence Str} (h : Represents s a)
    (hlength : a.items.length < INT_MAX) (identifier : Str) (maxBucketItems : ℕ) :
  ∃ s' removed, SimpleList.addToBucket identifier s maxBucketItems = some s'
    ∧ Represents s' ⟨Trailermatic.addToBucket identifier a.items maxBucketItems, removed⟩
    ∧ (removed ++ Trailermatic.addToBucket identifier a.items maxBucketItems).Perm
      (identifier :: (a.removed ++ a.items))
  := by
  obtain ⟨head, memory, hadd, hrep⟩ := h.addToHead (amStrdup identifier.bytes)
  have hcopy : amStrdup identifier.bytes = some identifier := identifier.ofBytes_bytes
  have hgrown : (Trailermatic.addToHead (amStrdup identifier.bytes) a.items).length
      = a.items.length + 1 := by
    rw [hcopy]
    rfl
  have hperm : (a.removed ++ Trailermatic.addToHead (amStrdup identifier.bytes) a.items).Perm
      (identifier :: (a.removed ++ a.items)) := by
    rw [hcopy]
    apply List.perm_middle
  have hcount := hrep.listCount
  simp only at hcount
  rw [if_pos (by rw [hgrown]; apply hlength), hgrown] at hcount
  simp only [SimpleList.addToBucket, hadd, Option.bind_eq_bind, Option.bind_some, Option.pure_def,
    Trailermatic.addToBucket, Trailermatic.listCount, hgrown]
  by_cases hmax : 0 < maxBucketItems
  · rw [if_pos hmax, hcount, Option.bind_some]
    by_cases hfull : maxBucketItems < a.items.length + 1
    · obtain ⟨memory', hremove, hrep'⟩ := hrep.removeLast (by simp only [hgrown]; omega)
      rw [if_pos hfull, hremove, Option.bind_some, dif_pos ⟨hmax, hfull⟩]
      exact ⟨_, _, rfl, hrep', (Call.apply_perm _ .removeLast).trans hperm⟩
    · rw [if_neg hfull, dif_neg (fun hboth => hfull hboth.2)]
      exact ⟨_, _, rfl, hrep, hperm⟩
  · rw [if_neg hmax, dif_neg (fun hboth => hmax hboth.1)]
    exact ⟨_, _, rfl, hrep, hperm⟩

end SimpleList

end Trailermatic
