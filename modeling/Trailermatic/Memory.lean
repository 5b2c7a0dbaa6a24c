import Trailermatic.Library.Heap

/-!
# Memory of the program

Blocks of memory are allocated, resized and freed through the functions of the program,
which let `NULL` pass.  Allocation succeeds.
-/

namespace Trailermatic

variable {α : Type*}

/-- A new block, whose content is `x`. -/
def amMalloc (x : α) (heap : Heap α) : ℕ × Heap α :=
  (heap.ledger.acquired, heap.alloc x)

/-- A new block in the place of an old one, which is freed. -/
def amRealloc (p : Option ℕ) (x : α) (heap : Heap α) : Option (ℕ × Heap α) :=
  match p with
  | none => some (amMalloc x heap)
  | some n => (heap.free n).map (amMalloc x)

/-- Free a block; nothing is done for `NULL`. -/
def amFree (p : Option ℕ) (heap : Heap α) : Option (Heap α) :=
  match p with
  | none => some heap
  | some n => heap.free n

/-- The new block has the content it is given. -/
theorem read_amRealloc {p : Option ℕ} {x : α} {heap heap' : Heap α} {n : ℕ}
    (h : amRealloc p x heap = some (n, heap')) :
  heap'.read n = some x
  := by
  cases p with
  | none =>
    cases h
    apply heap.read_alloc_self
  | some k =>
    obtain ⟨freed, -, heq⟩ := Option.map_eq_some_iff.mp h
    cases heq
    apply freed.read_alloc_self

/-- A block that is owned, or `NULL`, can be freed. -/
theorem exists_amFree {heap : Heap α} {p : Option ℕ} {l : List ℕ}
    (h : heap.Owns (p.toList ++ l)) :
  ∃ heap', amFree p heap = some heap' ∧ heap'.Owns l
    ∧ heap'.ledger.released = p.toList ++ heap.ledger.released
  := by
  cases p with
  | none => exact ⟨heap, rfl, h, rfl⟩
  | some n =>
    obtain ⟨heap', hfree, hledger, howns, -⟩ := Heap.Owns.exists_free h
    exact ⟨heap', hfree, howns, by rw [hledger]; rfl⟩

/-- A block that is owned, or `NULL`, can be resized, and the new block is owned instead. -/
theorem exists_amRealloc {heap : Heap α} {p : Option ℕ} {l : List ℕ}
    (h : heap.Owns (p.toList ++ l)) (x : α) :
  ∃ n heap', amRealloc p x heap = some (n, heap') ∧ heap'.read n = some x ∧ heap'.Owns (n :: l)
  := by
  cases p with
  | none => exact ⟨_, _, rfl, heap.read_alloc_self x, h.alloc x⟩
  | some n =>
    obtain ⟨heap', hfree, -, howns, -⟩ := Heap.Owns.exists_free h
    refine ⟨_, _, ?_, heap'.read_alloc_self x, howns.alloc x⟩
    rw [amRealloc, hfree]
    rfl

end Trailermatic
