import Mathlib.Data.List.Monad
import Trailermatic.Library.Owners

/-!
# Computations that allocate

A computation that allocates and frees blocks makes a value; `Alloc.Realizes` compares it with
a computation of the value alone.  The two have the same value, as far as `view` shows it, and
the blocks that were owned pass into those that the value owns, except for some that are lost.
Such facts are put together as the computations are.
-/

/-- A computation that acquires and releases resources, with no value after undefined
behaviour. -/
abbrev Alloc (α : Type) := StateT Ledger Option α

namespace Alloc

variable {α β γ δ : Type}

/-- The number of a new block. -/
def malloc : Alloc ℕ :=
  fun heap => some (heap.acquired, heap.acquire)

/-- Release a block. -/
def free (block : ℕ) : Alloc Unit :=
  fun heap => some ((), heap.release block)

/-- A new block of a size, none if the size is `0`. -/
def amMalloc (size : ℕ) : Alloc (Option ℕ) :=
  if 0 < size then some <$> malloc else pure none

/-- Free the block of a pointer, which may be `NULL`. -/
def amFree (p : Option ℕ) : Alloc Unit :=
  match p with
  | none => pure ()
  | some block => free block

/-- A value that is found without memory. -/
def ofOption (y : Option α) : Alloc α :=
  fun heap => y.map fun a => (a, heap)

/-- A computation that is always defined. -/
def lift (f : Ledger → α × Ledger) : Alloc α :=
  fun heap => some (f heap)

/-- Take over what happened on a ledger of its own. -/
def adopt (l : Ledger) : Alloc Unit :=
  fun heap => some ((), heap.append l)

/-- What a fold loses, where `lost b x` is lost in the step from `b` at `x`. -/
def foldLost (step : β → γ → Option β) (lost : β → γ → ℕ) : β → List γ → ℕ
  | _, [] => 0
  | b, x :: xs => lost b x + (step b x).elim 0 fun b => foldLost step lost b xs

theorem foldLost_zero (step : β → γ → Option β) (b : β) (xs : List γ) :
  foldLost step (fun _ _ => 0) b xs = 0
  := by
  induction xs generalizing b with
  | nil => rfl
  | cons x xs ih =>
    rw [foldLost, Nat.zero_add]
    cases step b x with
    | none => rfl
    | some b => apply ih

theorem foldLost_eq_zero {step : β → γ → Option β} {lost : β → γ → ℕ}
    (h : ∀ b x, lost b x = 0) (b : β) (xs : List γ) :
  foldLost step lost b xs = 0
  := by
  have hlost : lost = fun _ _ => 0 := by
    funext b x
    apply h
  rw [hlost]
  apply foldLost_zero

/-- A fold that comes to its end loses nothing exactly if no step does on the way. -/
theorem foldLost_eq_zero_iff {step : β → γ → Option β} {lost : β → γ → ℕ} {total : β → γ → β}
    {b : β} {xs : List γ} (h : Trace.Always total (fun b x => step b x = some (total b x)) b xs) :
  foldLost step lost b xs = 0 ↔ Trace.Always total (fun b x => lost b x = 0) b xs
  := by
  induction xs generalizing b with
  | nil => exact ⟨fun _ => trivial, fun _ => rfl⟩
  | cons x xs ih =>
    rw [foldLost, Trace.Always, h.1, Option.elim_some, Nat.add_eq_zero_iff, ih h.2]

/-- The computation `x` has the value of `y`, if it is seen with `view`, and turns the blocks
`owned` into those that its value owns, except for `lost` blocks. -/
structure Realizes (x : Alloc α) (owned : List ℕ) (y : Option β) (view : α → β)
    (owns : α → List ℕ) (lost : ℕ) : Prop where
  value : ∀ heap, (x heap).map (fun r => view r.1) = y
  passes : ∀ heap r, x heap = some r → heap.Passes owned r.2 (owns r.1) lost

variable {x : Alloc α} {f : α → Alloc γ} {owned others : List ℕ} {y : Option β}
  {g : β → Option δ} {view : α → β} {view' : γ → δ} {owns owns₁ : α → List ℕ}
  {owns' : γ → List ℕ} {m : ℕ} {n : β → ℕ} {k : ℕ}

/-! ### Composition -/

/-- The value owns what is owned. -/
theorem realizes_pure {a : α} {b : β} (hview : view a = b) (howns : owned.Perm (owns a)) :
  Realizes (pure a) owned (some b) view owns 0
  where
    value _ := congrArg some hview
    passes heap r h := by
      cases h
      apply (Ledger.Passes.refl heap owned).of_perm (List.Perm.refl _) howns

/-- The value does not own the blocks `gone`. -/
theorem realizes_lose {a : α} {b : β} {gone : List ℕ} (hview : view a = b)
    (howns : owned.Perm (gone ++ owns a)) :
  Realizes (pure a) owned (some b) view owns gone.length
  where
    value _ := congrArg some hview
    passes heap r h := by
      cases h
      apply (Ledger.passes_lose heap gone (owns a)).of_perm howns (List.Perm.refl _)

theorem realizes_none (owned : List ℕ) (view : α → β) (owns : α → List ℕ) (k : ℕ) :
  Realizes (ofOption none) owned none view owns k
  where
    value _ := rfl
    passes _ _ h := by cases h

theorem realizes_ofOption (y : Option α) (owned : List ℕ) :
  Realizes (ofOption y) owned y id (fun _ => owned) 0
  where
    value heap := by simp [ofOption, Function.comp_def]
    passes heap r h := by
      obtain ⟨a, -, rfl⟩ := Option.map_eq_some_iff.mp h
      apply Ledger.Passes.refl

theorem Realizes.bind (hx : Realizes x owned y view owns m)
    (hf : ∀ a, y = some (view a) →
      Realizes (f a) (owns a) (g (view a)) view' owns' (n (view a))) :
  Realizes (x >>= f) owned (y >>= g) view' owns' (m + y.elim 0 n)
  where
    value heap := by
      have hvalue := hx.value heap
      change ((x heap).bind fun r => f r.1 r.2).map _ = _
      cases hr : x heap with
      | none =>
        rw [hr] at hvalue
        rw [← hvalue]
        rfl
      | some r =>
        rw [hr] at hvalue
        rw [Option.bind_some, (hf r.1 hvalue.symm).value r.2, ← hvalue]
        rfl
    passes heap r h := by
      obtain ⟨s, hs, hr⟩ := Option.bind_eq_some_iff.mp h
      have hvalue := hx.value heap
      rw [hs, Option.map_some] at hvalue
      rw [← hvalue]
      apply (hx.passes heap s hs).trans
      apply (hf s.1 hvalue.symm).passes s.2 r hr

/-- A computation whose value is known comes first, and loses nothing. -/
theorem Realizes.andThen {b : β} {z : Option δ} (hx : Realizes x owned (some b) view owns 0)
    (hf : ∀ a, view a = b → Realizes (f a) (owns a) z view' owns' k) :
  Realizes (x >>= f) owned z view' owns' k
  := by
  have h : Realizes (x >>= f) owned ((some b).bind fun _ => z) view' owns' (0 + k) :=
    hx.bind (n := fun _ => k) fun a ha => hf a (Option.some.inj ha).symm
  rw [Nat.zero_add] at h
  apply h

/-- What comes last makes a value of the value there is, and loses nothing. -/
theorem Realizes.followed {h : β → δ} (hx : Realizes x owned y view owns m)
    (hf : ∀ a, Realizes (f a) (owns a) (some (h (view a))) view' owns' 0) :
  Realizes (x >>= f) owned (y.map h) view' owns' m
  := by
  have hbind := hx.bind (g := fun b => some (h b)) (n := fun _ => 0) fun a _ => hf a
  cases y with
  | none => apply hbind
  | some b => apply hbind

/-- What comes last keeps the value, and loses nothing. -/
theorem Realizes.finally {view' : γ → β} (hx : Realizes x owned y view owns m)
    (hf : ∀ a, Realizes (f a) (owns a) (some (view a)) view' owns' 0) :
  Realizes (x >>= f) owned y view' owns' m
  := by
  have h := hx.followed (h := id) hf
  rw [Option.map_id, id] at h
  apply h

theorem map_apply (e : α → γ) (x : Alloc α) (heap : Ledger) :
  (e <$> x) heap = (x heap).map fun r => (e r.1, r.2)
  := StateT.run_map e x heap

theorem Realizes.map {h : β → δ} {e : α → γ} (hx : Realizes x owned y view owns m)
    (hview : ∀ a, view' (e a) = h (view a)) (howns : ∀ a, (owns a).Perm (owns' (e a))) :
  Realizes (e <$> x) owned (y.map h) view' owns' m
  where
    value heap := by
      rw [← hx.value heap, map_apply, Option.map_map, Option.map_map]
      congr 1
      funext r
      apply hview
    passes heap r hr := by
      rw [map_apply] at hr
      obtain ⟨s, hs, rfl⟩ := Option.map_eq_some_iff.mp hr
      apply (hx.passes heap s hs).of_perm (List.Perm.refl _) (howns s.1)

theorem Realizes.of_perm {owned₁ : List ℕ} (hx : Realizes x owned y view owns m)
    (hperm : owned₁.Perm owned) (hperm' : ∀ a, (owns a).Perm (owns₁ a)) :
  Realizes x owned₁ y view owns₁ m
  where
    value := hx.value
    passes heap r h := (hx.passes heap r h).of_perm hperm (hperm' r.1)

theorem Realizes.frame (hx : Realizes x owned y view owns m) (others : List ℕ) :
  Realizes x (owned ++ others) y view (fun a => owns a ++ others) m
  where
    value := hx.value
    passes heap r h := (hx.passes heap r h).frame others

/-- Others own blocks before and after those of the computation. -/
theorem Realizes.within (hx : Realizes x owned y view owns m) (before after : List ℕ) :
  Realizes x (before ++ (owned ++ after)) y view (fun a => before ++ (owns a ++ after)) m
  := by
  apply (hx.frame (after ++ before)).of_perm
  · rw [← List.append_assoc owned after before]
    apply List.perm_append_comm
  · intro a
    rw [← List.append_assoc (owns a) after before]
    apply List.perm_append_comm

theorem Realizes.beside (hx : Realizes x owned y view owns m) (others : List ℕ) :
  Realizes x (others ++ owned) y view (fun a => others ++ owns a) m
  := by
  apply (hx.frame others).of_perm
  · apply List.perm_append_comm
  · intro a
    apply List.perm_append_comm

/-- Blocks that are not used any more are freed after a computation. -/
theorem Realizes.thenRelease (hx : Realizes x owned y view owns m) {blocks : List ℕ}
    {release : Alloc Unit}
    (hrelease : ∀ others,
      Realizes release (blocks ++ others) (some ()) id (fun _ => others) 0) :
  Realizes (x >>= fun a => release >>= fun _ => pure a) (blocks ++ owned) y view owns m
  := by
  apply (hx.beside blocks).finally
  intro a
  apply (hrelease (owns a)).andThen
  intro _ _
  exact realizes_pure rfl (List.Perm.refl _)

/-- What is in the blocks `old` is replaced, and they are lost. -/
theorem Realizes.overwrite (hx : Realizes x [] y view owns 0) (old rest : List ℕ) :
  Realizes x (old ++ rest) y view (fun a => owns a ++ rest) old.length
  where
    value := hx.value
    passes heap r h := (hx.passes heap r h).overwrite old rest

/-! ### Blocks -/

theorem realizes_malloc (owned : List ℕ) :
  Realizes malloc owned (some ()) (fun _ => ()) (fun block => block :: owned) 0
  where
    value _ := rfl
    passes heap r h := by
      cases h
      apply Ledger.passes_acquire

theorem realizes_free (block : ℕ) (owned : List ℕ) :
  Realizes (free block) (block :: owned) (some ()) id (fun _ => owned) 0
  where
    value _ := rfl
    passes heap r h := by
      cases h
      apply Ledger.passes_release

theorem realizes_amFree (p : Option ℕ) (owned : List ℕ) :
  Realizes (amFree p) (p.toList ++ owned) (some ()) id (fun _ => owned) 0
  := by
  cases p with
  | none => exact realizes_pure rfl (List.Perm.refl _)
  | some block => exact realizes_free block owned

theorem realizes_amMalloc (size : ℕ) (owned : List ℕ) :
  Realizes (amMalloc size) owned (some ()) (fun _ => ()) (fun p => p.toList ++ owned) 0
  := by
  rw [amMalloc]
  split_ifs
  · apply (realizes_malloc owned).map (h := id)
    · intro _
      rfl
    · intro block
      apply List.Perm.refl
  · exact realizes_pure rfl (List.Perm.refl _)

theorem realizes_lift {f : Ledger → α × Ledger} {b : β}
    (h : ∀ heap, view (f heap).1 = b ∧ heap.Passes owned (f heap).2 (owns (f heap).1) k) :
  Realizes (lift f) owned (some b) view owns k
  where
    value heap := congrArg some (h heap).1
    passes heap r hr := by
      cases hr
      apply (h heap).2

theorem realizes_adopt {l : Ledger} (h : Ledger.empty.Passes [] l [] k) (owned : List ℕ) :
  Realizes (adopt l) owned (some ()) id (fun _ => owned) k
  where
    value _ := rfl
    passes heap r hr := by
      cases hr
      apply Ledger.passes_append heap owned h

/-! ### Loops -/

theorem realizes_foldlM {ι : Type} {step : α → ι → Alloc α} {act : β → ι → Option β}
    (view : α → β) (owns : α → List ℕ) (lost : β → ι → ℕ)
    (hstep : ∀ a i, Realizes (step a i) (owns a) (act (view a) i) view owns (lost (view a) i))
    (a : α) (is : List ι) :
  Realizes (is.foldlM step a) (owns a) (is.foldlM act (view a)) view owns
    (foldLost act lost (view a) is)
  := by
  induction is generalizing a with
  | nil => exact realizes_pure rfl (List.Perm.refl _)
  | cons i is ih =>
    rw [List.foldlM_cons, List.foldlM_cons, foldLost]
    apply (hstep a i).bind
    intro a _
    apply ih

/-- A loop whose steps lose nothing. -/
theorem realizes_foldlM_zero {ι : Type} {step : α → ι → Alloc α} {act : β → ι → Option β}
    (view : α → β) (owns : α → List ℕ)
    (hstep : ∀ a i, Realizes (step a i) (owns a) (act (view a) i) view owns 0) (a : α)
    (is : List ι) :
  Realizes (is.foldlM step a) (owns a) (is.foldlM act (view a)) view owns 0
  := by
  have h := realizes_foldlM view owns (fun _ _ => 0) hstep a is
  rw [foldLost_zero] at h
  apply h

/-- A loop whose steps are always defined. -/
theorem realizes_foldlM_some {ι : Type} {step : α → ι → Alloc α} {act : β → ι → β}
    (view : α → β) (owns : α → List ℕ) (lost : β → ι → ℕ)
    (hstep : ∀ a i,
      Realizes (step a i) (owns a) (some (act (view a) i)) view owns (lost (view a) i))
    (a : α) (is : List ι) :
  Realizes (is.foldlM step a) (owns a) (some (is.foldl act (view a))) view owns
    (foldLost (fun b i => some (act b i)) lost (view a) is)
  := by
  have hfold : is.foldlM (fun b i => some (act b i)) (view a) = some (is.foldl act (view a)) :=
    List.foldlM_pure
  rw [← hfold]
  apply realizes_foldlM view owns lost hstep

/-- Freeing value after value frees all they own. -/
theorem realizes_forM {ι : Type} {blocks : ι → List ℕ} {release : ι → Alloc Unit}
    (hrelease : ∀ i, Realizes (release i) (blocks i) (some ()) id (fun _ => []) 0) (is : List ι) :
  Realizes (is.forM release) (is.flatMap blocks) (some ()) id (fun _ => []) 0
  := by
  induction is with
  | nil => exact realizes_pure rfl (List.Perm.refl _)
  | cons i is ih =>
    rw [List.flatMap_cons]
    change Realizes (release i >>= fun _ => is.forM release) _ _ _ _ _
    apply ((hrelease i).frame _).andThen
    intro _ _
    apply ih

/-! ### Runs -/

/-- A computation without undefined behaviour runs. -/
theorem Realizes.exists_run {b : β} (hx : Realizes x owned (some b) view owns m) (heap : Ledger) :
  ∃ r, x heap = some r ∧ view r.1 = b ∧ heap.Passes owned r.2 (owns r.1) m
  := by
  obtain ⟨r, hr, hview⟩ := Option.map_eq_some_iff.mp (hx.value heap)
  exact ⟨r, hr, hview, hx.passes heap r hr⟩

end Alloc
