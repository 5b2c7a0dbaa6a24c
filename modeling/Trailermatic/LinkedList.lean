import Trailermatic.Downloads
import Trailermatic.Memory

/-!
# Linked lists in memory

The functions on lists with their nodes on a heap.  A function gives no result if it
accesses a node that is not live, or counts beyond the largest `int`.  `removeLast` takes
the head by value, so it cannot change the variable of its caller.
-/

namespace Trailermatic

namespace SimpleList

variable {δ : Type}

/-- The nodes, and the elements that were freed, newest first. -/
structure Memory (δ : Type) where
  nodes : Heap (Node δ)
  disposed : List δ

/-- The number of turns that a loop over a list is given: a list has no more nodes than were
ever allocated. -/
def turns (nodes : Heap (Node δ)) : ℕ :=
  nodes.ledger.acquired + 1

/-- The assignment `n->next = next`. -/
def setNext (nodes : Heap (Node δ)) (n : ℕ) (next : Option ℕ) : Option (Heap (Node δ)) := do
  let node ← nodes.read n
  nodes.write n { node with next := next }

/-! ### Nodes -/

/-- Put a node in front of a list. -/
def addNodeFirst (head : Option ℕ) (newnode : ℕ) (nodes : Heap (Node δ)) :
    Option (Option ℕ × Heap (Node δ)) := do
  match head with
  | none =>
    let nodes ← setNext nodes newnode none
    return (some newnode, nodes)
  | some first =>
    let nodes ← setNext nodes newnode (some first)
    return (some newnode, nodes)

/-- The loop that stops at the last node. -/
def lastFrom (nodes : Heap (Node δ)) : ℕ → Option ℕ → Option (Option ℕ)
  | 0, _ => none
  | _ + 1, none => some none
  | turns + 1, some current => do
    let node ← nodes.read current
    match node.next with
    | none => some (some current)
    | some next => lastFrom nodes turns (some next)

/-- Put a node behind the last node of a list. -/
def addNodeLast (head : Option ℕ) (newnode : ℕ) (nodes : Heap (Node δ)) :
    Option (Option ℕ × Heap (Node δ)) := do
  match head with
  | none =>
    let nodes ← setNext nodes newnode none
    return (some newnode, nodes)
  | some first =>
    let current ← ← lastFrom nodes (turns nodes) (some first)
    let nodes ← setNext nodes current (some newnode)
    let nodes ← setNext nodes newnode none
    return (some first, nodes)

/-- Free the first node of a list. -/
def deleteFirst (head : Option ℕ) (nodes : Heap (Node δ)) :
    Option (Option ℕ × Heap (Node δ)) := do
  match head with
  | none => return (none, nodes)
  | some p =>
    let node ← nodes.read p
    let nodes ← nodes.free p
    return (node.next, nodes)

/-- The loop that stops at the last node and keeps the node before it. -/
def lastTwoFrom (nodes : Heap (Node δ)) :
    ℕ → Option ℕ → Option ℕ → Option (Option ℕ × Option ℕ)
  | 0, _, _ => none
  | _ + 1, prev, none => some (prev, none)
  | turns + 1, prev, some p => do
    let node ← nodes.read p
    match node.next with
    | none => some (prev, some p)
    | some next => lastTwoFrom nodes turns (some p) (some next)

/-- Free the last node; the head is not changed. -/
def deleteLast (head : Option ℕ) (nodes : Heap (Node δ)) : Option (Heap (Node δ)) := do
  let (prev, p) ← lastTwoFrom nodes (turns nodes) none head
  let nodes ← match prev with
    | none => some nodes
    | some n => setNext nodes n none
  amFree p nodes

/-- The last node of a list. -/
def getLastNode (head : Option ℕ) (nodes : Heap (Node δ)) : Option (Option ℕ) :=
  lastFrom nodes (turns nodes) head

/-! ### Public functions -/

/-- The loop of `reverseList`: the nodes from the second argument on are put, one by one, in front
of the third. -/
def reverseFrom : ℕ → Option ℕ → Option ℕ → Heap (Node δ) →
    Option (Option ℕ × Heap (Node δ))
  | 0, _, _, _ => none
  | _ + 1, none, result, nodes => some (result, nodes)
  | turns + 1, some current, result, nodes => do
    let node ← nodes.read current
    let nodes ← setNext nodes current result
    reverseFrom turns node.next (some current) nodes

/-- Reverse a list in place. -/
def reverseList (list : Option ℕ) (m : Memory δ) : Option (Option ℕ × Memory δ) := do
  let (result, nodes) ← reverseFrom (turns m.nodes) list none m.nodes
  return (result, { m with nodes := nodes })

/-- The loop of `listCount`, whose counter is an `int`. -/
def countFrom (nodes : Heap (Node δ)) : ℕ → ℕ → Option ℕ → Option ℕ
  | 0, _, _ => none
  | _ + 1, c, none => some c
  | turns + 1, c, some current =>
    if c < INT_MAX then do
      let node ← nodes.read current
      countFrom nodes turns (c + 1) node.next
    else none

/-- The number of nodes of a list. -/
def listCount (head : Option ℕ) (m : Memory δ) : Option ℕ :=
  countFrom m.nodes (turns m.nodes) 0 head

/-- Put a new node for the element in front of a list; there is none for `NULL`. -/
def addToHead (elem : Option δ) (head : Option ℕ) (m : Memory δ) :
    Option (ℤ × Option ℕ × Memory δ) := do
  match elem with
  | none => return (-1, head, m)
  | some e =>
    let (head, nodes) ← addNodeFirst head m.nodes.ledger.acquired (m.nodes.alloc ⟨e, none⟩)
    return (0, head, { m with nodes := nodes })

def addItem (elem : Option δ) (head : Option ℕ) (m : Memory δ) :
    Option (ℤ × Option ℕ × Memory δ) :=
  addToHead elem head m

/-- Put a new node for the element behind a list; there is none for `NULL`. -/
def addToTail (elem : Option δ) (head : Option ℕ) (m : Memory δ) :
    Option (ℤ × Option ℕ × Memory δ) := do
  match elem with
  | none => return (-1, head, m)
  | some e =>
    let (head, nodes) ← addNodeLast head m.nodes.ledger.acquired (m.nodes.alloc ⟨e, none⟩)
    return (0, head, { m with nodes := nodes })

/-- The loop of `freeList`.  Elements are freed by `freeFunc`, or by `am_free` if that is
`NULL`. -/
def freeFrom : ℕ → Option ℕ → Memory δ → Option (Memory δ)
  | 0, _, _ => none
  | _ + 1, none, m => some m
  | turns + 1, some head, m => do
    let node ← m.nodes.read head
    let nodes ← m.nodes.free head
    freeFrom turns node.next { nodes := nodes, disposed := node.data :: m.disposed }

/-- Free a list; its length is logged before and after. -/
def freeList (head : Option ℕ) (m : Memory δ) : Option (Option ℕ × Memory δ) := do
  let _ ← listCount head m
  let m ← freeFrom (turns m.nodes) head m
  let _ ← listCount none m
  return (none, m)

/-- Dispose of the data of the last node and free it.  The head that the caller holds is not
changed. -/
def removeLast (head : Option ℕ) (m : Memory δ) : Option (Memory δ) := do
  let lastNode ← getLastNode head m.nodes
  let disposed ← match lastNode with
    | none => some m.disposed
    | some n => (m.nodes.read n).map fun node => node.data :: m.disposed
  let nodes ← deleteLast head m.nodes
  return { nodes := nodes, disposed := disposed }

/-- Dispose of the data of the first node and free it; the head moves on. -/
def removeFirst (head : Option ℕ) (m : Memory δ) : Option (Option ℕ × Memory δ) := do
  match head with
  | none => return (none, m)
  | some first =>
    let node ← m.nodes.read first
    let (head, nodes) ← deleteFirst (some first) m.nodes
    return (head, { nodes := nodes, disposed := node.data :: m.disposed })

/-! ### What the loops do -/

/-- A live node can be linked to another one. -/
theorem exists_setNext {nodes : Heap (Node δ)} {n : ℕ} {x : δ} {p : Option ℕ}
    (h : nodes.read n = some ⟨x, p⟩) (next : Option ℕ) :
  ∃ nodes', setNext nodes n next = some nodes' ∧ nodes'.ledger = nodes.ledger
    ∧ nodes'.read n = some ⟨x, next⟩ ∧ ∀ k ≠ n, nodes'.read k = nodes.read k
  := by
  obtain ⟨nodes', hwrite, hspec⟩ := Heap.exists_write (Heap.live_of_read h) (⟨x, next⟩ : Node δ)
  use nodes'
  refine ⟨?_, hspec⟩
  simp only [setNext, h, Option.bind_eq_bind, Option.bind_some]
  apply hwrite

/-- The loop finds the last node. -/
theorem lastFrom_eq {nodes : Heap (Node δ)} {p : Option ℕ} {cells : List (ℕ × δ)} {n : ℕ} {x : δ}
    (h : nodes.Chain p (cells ++ [(n, x)])) {turns : ℕ} (hturns : cells.length < turns) :
  lastFrom nodes turns p = some (some n)
  := by
  induction turns generalizing p cells with
  | zero => cases hturns
  | succ turns ih =>
    cases cells with
    | nil =>
      obtain ⟨rfl, next, hread, rfl⟩ := h
      simp only [lastFrom, hread, Option.bind_eq_bind, Option.bind_some]
    | cons cell cells =>
      obtain ⟨rfl, next, hread, hrest⟩ := h
      simp only [lastFrom, hread, Option.bind_eq_bind, Option.bind_some]
      cases next with
      | none =>
        have hempty := Heap.chain_none.mp hrest
        cases cells with
        | nil => cases hempty
        | cons => cases hempty
      | some next => exact ih hrest (Nat.lt_of_succ_lt_succ hturns)

/-- The loop finds the last node, and no node before it in a list of one. -/
theorem lastTwoFrom_single {nodes : Heap (Node δ)} {p : Option ℕ} {n : ℕ} {x : δ}
    (h : nodes.Chain p [(n, x)]) {turns : ℕ} (hturns : 0 < turns) (prev : Option ℕ) :
  lastTwoFrom nodes turns prev p = some (prev, some n)
  := by
  obtain ⟨turns, rfl⟩ := Nat.exists_eq_succ_of_ne_zero (Nat.ne_of_gt hturns)
  obtain ⟨rfl, next, hread, rfl⟩ := h
  simp only [lastTwoFrom, hread, Option.bind_eq_bind, Option.bind_some]

/-- The loop finds the last node and the node before it. -/
theorem lastTwoFrom_eq {nodes : Heap (Node δ)} {p : Option ℕ} {cells : List (ℕ × δ)} {k n : ℕ}
    {y x : δ} (h : nodes.Chain p (cells ++ [(k, y), (n, x)])) {turns : ℕ}
    (hturns : cells.length + 1 < turns) (prev : Option ℕ) :
  lastTwoFrom nodes turns prev p = some (some k, some n)
  := by
  induction turns generalizing p cells prev with
  | zero => cases hturns
  | succ turns ih =>
    cases cells with
    | nil =>
      obtain ⟨rfl, next, hread, hlast⟩ := h
      have hnext := lastTwoFrom_single hlast (Nat.lt_of_succ_lt_succ hturns) (some k)
      obtain ⟨rfl, -⟩ := hlast
      simp only [lastTwoFrom, hread, Option.bind_eq_bind, Option.bind_some]
      apply hnext
    | cons cell cells =>
      obtain ⟨rfl, next, hread, hrest⟩ := h
      simp only [lastTwoFrom, hread, Option.bind_eq_bind, Option.bind_some]
      cases next with
      | none =>
        have hempty := Heap.chain_none.mp hrest
        cases cells with
        | nil => cases hempty
        | cons => cases hempty
      | some next => exact ih hrest (Nat.lt_of_succ_lt_succ hturns) _

/-- The loop counts the nodes, unless the counter overflows. -/
theorem countFrom_eq {nodes : Heap (Node δ)} {p : Option ℕ} {cells : List (ℕ × δ)}
    (h : nodes.Chain p cells) {turns : ℕ} (hturns : cells.length < turns) {c : ℕ}
    (hc : c ≤ INT_MAX) :
  countFrom nodes turns c p
    = if c + cells.length ≤ INT_MAX then some (c + cells.length) else none
  := by
  induction turns generalizing p cells c with
  | zero => cases hturns
  | succ turns ih =>
    cases cells with
    | nil =>
      obtain rfl := h
      rw [countFrom, List.length_nil, Nat.add_zero, if_pos hc]
    | cons cell cells =>
      obtain ⟨rfl, next, hread, hrest⟩ := h
      rw [List.length_cons, countFrom]
      by_cases hlt : c < INT_MAX
      · have hnext := ih hrest (Nat.lt_of_succ_lt_succ hturns) hlt
        rw [if_pos hlt, hread]
        simp only [Option.bind_eq_bind, Option.bind_some]
        rw [hnext, Nat.succ_add_eq_add_succ]
      · rw [if_neg hlt, if_neg]
        omega

/-- The loop reverses the rest of the list in front of what it has reversed so far. -/
theorem exists_reverseFrom {nodes : Heap (Node δ)} {p result : Option ℕ}
    {cells done : List (ℕ × δ)} (h : nodes.Chain p cells) (hdone : nodes.Chain result done)
    (hnodup : (cells.map Prod.fst ++ done.map Prod.fst).Nodup) {turns : ℕ}
    (hturns : cells.length < turns) :
  ∃ result' nodes', reverseFrom turns p result nodes = some (result', nodes')
    ∧ nodes'.Chain result' (cells.reverse ++ done) ∧ nodes'.ledger = nodes.ledger
  := by
  induction turns generalizing nodes p result cells done with
  | zero => cases hturns
  | succ turns ih =>
    cases cells with
    | nil =>
      obtain rfl := h
      exact ⟨result, nodes, rfl, hdone, rfl⟩
    | cons cell cells =>
      obtain ⟨rfl, next, hread, hrest⟩ := h
      obtain ⟨nodes₁, hset, hledger, hread₁, hothers⟩ := exists_setNext hread result
      rw [List.map_cons, List.cons_append, List.nodup_cons, List.mem_append, not_or] at hnodup
      obtain ⟨⟨hcells, hmem⟩, hnodup⟩ := hnodup
      have hkeep (l : List (ℕ × δ)) (hl : cell.1 ∉ l.map Prod.fst) :
          ∀ k ∈ l.map Prod.fst, ∀ y, nodes.read k = some y → nodes₁.read k = some y := by
        intro k hk y hy
        rw [hothers k (ne_of_mem_of_not_mem hk hl), hy]
      obtain ⟨result', nodes', hreverse, hchain, hledger'⟩ :=
        @ih nodes₁ next (some cell.1) cells (cell :: done) (hrest.congr (hkeep cells hcells))
          ⟨rfl, result, hread₁, hdone.congr (hkeep done hmem)⟩
          (List.perm_middle.nodup_iff.mpr (List.nodup_cons.mpr
            ⟨by rw [List.mem_append, not_or]; exact ⟨hcells, hmem⟩, hnodup⟩))
          (Nat.lt_of_succ_lt_succ hturns)
      refine ⟨result', nodes', ?_, ?_, hledger'.trans hledger⟩
      · simp only [reverseFrom, hread, hset, Option.bind_eq_bind, Option.bind_some]
        apply hreverse
      · rw [List.reverse_cons, List.append_assoc]
        apply hchain

/-- The loop frees every node of the list and its element. -/
theorem exists_freeFrom {nodes : Heap (Node δ)} {p : Option ℕ} {cells : List (ℕ × δ)}
    (h : nodes.Chain p cells) (hkeeps : Ledger.empty.Keeps nodes.ledger (cells.map Prod.fst))
    {turns : ℕ} (hturns : cells.length < turns) (disposed : List δ) :
  ∃ nodes', freeFrom turns p ⟨nodes, disposed⟩
      = some ⟨nodes', (cells.map Prod.snd).reverse ++ disposed⟩
    ∧ Ledger.empty.Keeps nodes'.ledger []
  := by
  induction turns generalizing nodes p cells disposed with
  | zero => cases hturns
  | succ turns ih =>
    cases cells with
    | nil =>
      obtain rfl := h
      exact ⟨nodes, rfl, hkeeps⟩
    | cons cell cells =>
      obtain ⟨rfl, next, hread, hrest⟩ := h
      obtain ⟨nodes₁, hfree, hledger, hothers⟩ := Heap.exists_free (Heap.live_of_read hread)
      have hnotMem : cell.1 ∉ cells.map Prod.fst := (List.nodup_cons.mp hkeeps.nodup).1
      have hrest₁ : nodes₁.Chain next cells := by
        apply hrest.congr
        intro k hk y hy
        rw [hothers k (ne_of_mem_of_not_mem hk hnotMem), hy]
      have hkeeps₁ : Ledger.empty.Keeps nodes₁.ledger (cells.map Prod.fst) := by
        rw [hledger]
        apply hkeeps.release
      obtain ⟨nodes', hfrom, hkept⟩ :=
        ih hrest₁ hkeeps₁ (Nat.lt_of_succ_lt_succ hturns) (cell.2 :: disposed)
      refine ⟨nodes', ?_, hkept⟩
      simp only [freeFrom, hread, hfree, Option.bind_eq_bind, Option.bind_some]
      rw [hfrom, List.map_cons, List.reverse_cons, List.append_assoc]
      rfl

end SimpleList

end Trailermatic
