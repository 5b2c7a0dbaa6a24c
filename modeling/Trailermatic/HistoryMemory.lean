import Trailermatic.Limit
import Trailermatic.Sequence

/-!
# The history in memory

The history is a linked list of nodes, each with a copy of a URL.  Loading it, looking a URL
up, recording one, saving and shutting down walk these nodes.  `history_memory` says that in
every run the walks do to the nodes what the model of the daemon does to the list of URLs, that
they access no node that was freed, and that at the end every node and every copy is freed once.
-/

namespace Trailermatic

namespace SimpleList

/-! ### Walks over the history -/

/-- The loop of `bucket_hasURL`. -/
def hasURLFrom (nodes : Heap (Node Str)) (url : Str) : ℕ → Option ℕ → Option Bool
  | 0, _ => none
  | _ + 1, none => some false
  | turns + 1, some p => do
    let node ← nodes.read p
    if node.data.bytes = url.bytes then return true else hasURLFrom nodes url turns node.next

/-- Look for a URL in the nodes of the history. -/
def hasBeenDownloaded (bucket : State Str) (url : Str) : Option Bool :=
  hasURLFrom bucket.memory.nodes url (turns bucket.memory.nodes) bucket.head

/-- The loop of `save_state`, after `i` entries have been written. -/
def saveFrom (a : SaveAnswers) (nodes : Heap (Node Str)) : ℕ → ℕ → Option ℕ → Option SaveRun
  | 0, _, _ => none
  | _ + 1, _, none => some ⟨[.fclose], [], 0⟩
  | turns + 1, i, some current => do
    let node ← nodes.read current
    let copy : Copy := ⟨.line, (saveLine node.data).length + 1⟩
    if a.fwrite i then
      let run ← saveFrom a nodes turns (i + 1) node.next
      return ⟨.fwrite (saveLine node.data) :: run.steps, copy :: run.copies, run.ret⟩
    else return ⟨[.fclose], [copy], -1⟩

/-- Save the history; its length is logged before. -/
def saveState (a : SaveAnswers) (downloads : State Str) : Option SaveRun := do
  let _ ← listCount downloads.head downloads.memory
  if a.fopen then
    let run ← saveFrom a downloads.memory.nodes (turns downloads.memory.nodes) 0 downloads.head
    return { run with steps := .fopen :: run.steps }
  else return ⟨[], [], -1⟩

/-- Load the lines of a file. -/
def loadLines (lines : List Bytes) (s : State Str) : Option (State Str) :=
  lines.foldlM
    (fun s line => (addToTail (loadEntry line) s.head s.memory).map fun r => ⟨r.2.1, r.2.2⟩) s

/-- Load the state file; the number of entries is logged at the end. -/
def loadState (file : Option Bytes) (s : State Str) : Option (State Str) :=
  match file with
  | none => some s
  | some content => do
    let s ← loadLines (Lines.lines newline (MAX_LINE_LEN - 1) content) s
    let _ ← listCount s.head s.memory
    return s

/-- The walk of `bucket_hasURL` finds what the list holds. -/
theorem hasURLFrom_eq {nodes : Heap (Node Str)} {p : Option ℕ} {cells : List (ℕ × Str)}
    (h : nodes.Chain p cells) (url : Str) {turns : ℕ} (hturns : cells.length < turns) :
  hasURLFrom nodes url turns p = some (bucketHasURL url (cells.map Prod.snd))
  := by
  induction turns generalizing p cells with
  | zero => cases hturns
  | succ turns ih =>
    cases cells with
    | nil =>
      obtain rfl := h
      rfl
    | cons cell cells =>
      obtain ⟨rfl, next, hread, hrest⟩ := h
      simp only [hasURLFrom, hread, Option.bind_eq_bind, Option.bind_some, List.map_cons,
        bucketHasURL, ih hrest (Nat.lt_of_succ_lt_succ hturns), Option.pure_def]
      split_ifs
      · rfl
      · rfl

/-- The walk of `save_state` writes what the list holds. -/
theorem saveFrom_eq (a : SaveAnswers) {nodes : Heap (Node Str)} {p : Option ℕ}
    {cells : List (ℕ × Str)} (h : nodes.Chain p cells) {turns : ℕ} (hturns : cells.length < turns)
    (i : ℕ) :
  saveFrom a nodes turns i p = some (saveEntries a i (cells.map Prod.snd))
  := by
  induction turns generalizing p cells i with
  | zero => cases hturns
  | succ turns ih =>
    cases cells with
    | nil =>
      obtain rfl := h
      rfl
    | cons cell cells =>
      obtain ⟨rfl, next, hread, hrest⟩ := h
      simp only [saveFrom, hread, Option.bind_eq_bind, Option.bind_some, List.map_cons,
        saveEntries, ih hrest (Nat.lt_of_succ_lt_succ hturns), Option.pure_def]
      split_ifs
      · rfl
      · rfl

section Represents

variable {s : State Str} {a : Sequence Str}

theorem Represents.hasBeenDownloaded (h : Represents s a) (url : Str) :
  SimpleList.hasBeenDownloaded s url = some (Trailermatic.hasBeenDownloaded a.items url)
  := by
  obtain ⟨⟨cells, hchain, hitems, hkeeps⟩, -⟩ := h
  rw [SimpleList.hasBeenDownloaded, hasURLFrom_eq hchain url (length_lt_turns hkeeps), hitems,
    Trailermatic.hasBeenDownloaded]

theorem Represents.saveState (h : Represents s a) (hlength : a.items.length ≤ INT_MAX)
    (answers : SaveAnswers) :
  SimpleList.saveState answers s = some (Trailermatic.saveState answers a.items)
  := by
  have hcount := h.listCount
  rw [if_pos hlength] at hcount
  obtain ⟨⟨cells, hchain, hitems, hkeeps⟩, -⟩ := h
  simp only [SimpleList.saveState, hcount, Option.bind_eq_bind, Option.bind_some,
    saveFrom_eq answers hchain (length_lt_turns hkeeps), hitems, Trailermatic.saveState,
    Option.pure_def]
  split_ifs
  · rfl
  · rfl

theorem Represents.loadLines (h : Represents s a) (lines : List Bytes) :
  ∃ s', SimpleList.loadLines lines s = some s'
    ∧ Represents s' { a with items := a.items ++ lines.filterMap loadEntry }
  := by
  induction lines generalizing s a with
  | nil =>
    refine ⟨s, rfl, ?_⟩
    rw [List.filterMap_nil, List.append_nil]
    apply h
  | cons line lines ih =>
    obtain ⟨head, memory, hadd, hrep⟩ := h.addToTail (loadEntry line)
    obtain ⟨s', hload, hrep'⟩ := ih hrep
    refine ⟨s', ?_, ?_⟩
    · simp only [SimpleList.loadLines, List.foldlM_cons, hadd, Option.map_some,
        Option.bind_eq_bind, Option.bind_some]
      apply hload
    · rw [List.filterMap_cons]
      cases hentry : loadEntry line with
      | none => simpa [Trailermatic.addToTail, hentry] using hrep'
      | some entry => simpa [Trailermatic.addToTail, hentry] using hrep'

/-- The nodes that loading makes hold the list that loading makes. -/
theorem exists_loadState (file : Option Bytes)
    (hlength : (Trailermatic.loadState file []).2.length ≤ INT_MAX) :
  ∃ s, SimpleList.loadState file .start = some s
    ∧ Represents s ⟨(Trailermatic.loadState file []).2, []⟩
  := by
  cases file with
  | none => exact ⟨.start, rfl, represents_start⟩
  | some content =>
    obtain ⟨s, hload, hrep⟩ := Represents.loadLines represents_start
      (Lines.lines newline (MAX_LINE_LEN - 1) content)
    rw [loadState_some] at hlength ⊢
    refine ⟨s, ?_, hrep⟩
    have hcount := hrep.listCount
    rw [if_pos (by apply hlength)] at hcount
    simp only [SimpleList.loadState, hload, hcount, Option.bind_eq_bind, Option.bind_some,
      Option.pure_def]

end Represents

end SimpleList

/-! ### The history of a run -/

/-- The URL and the capacity of a call of `addToBucket`. -/
def Event.addition : Event → Option (Str × ℕ)
  | .record url _ maxBucketItems => some (url, maxBucketItems)
  | _ => none

/-- What was recorded, newest first. -/
def additions (trace : List Event) : List (Str × ℕ) :=
  trace.filterMap Event.addition

theorem additions_append_notices {notices : List Event} (h : ∀ e ∈ notices, e.isNotice = true)
    (trace : List Event) :
  additions (notices ++ trace) = additions trace
  := filterMap_append_notices (fun _ _ _ => rfl) (fun _ _ => rfl) h trace

/-- The history in memory after the state file was loaded and the calls of `addToBucket` were
made, newest first. -/
def historyVariable (file : Option Bytes) : List (Str × ℕ) → Option (SimpleList.State Str)
  | [] => SimpleList.loadState file .start
  | (url, maxBucketItems) :: calls => do
    let s ← historyVariable file calls
    SimpleList.addToBucket url s maxBucketItems

/-- The history in memory is the one of the daemon, and every copy of a URL was made when the
URL was loaded or recorded. -/
def InMemory (file : Option Bytes) (w : World) : Prop :=
  ∃ s removed, historyVariable file (additions w.trace) = some s
    ∧ SimpleList.Represents s ⟨w.session.downloads, removed⟩
    ∧ (removed ++ w.session.downloads).Perm
      ((additions w.trace).map Prod.fst ++ (loadState file []).2)

/-- The history is no longer than what was loaded and recorded. -/
theorem InMemory.length_le {file : Option Bytes} {w : World} (h : InMemory file w) :
  w.session.downloads.length ≤ (additions w.trace).length + (loadState file []).2.length
  := by
  obtain ⟨s, removed, -, -, hperm⟩ := h
  have hlength := hperm.length_eq
  rw [List.length_append, List.length_append, List.length_map] at hlength
  omega

theorem InMemory.of_eq {file : Option Bytes} {w w' : World} (h : InMemory file w)
    (hdownloads : w'.session.downloads = w.session.downloads)
    (hadditions : additions w'.trace = additions w.trace) :
  InMemory file w'
  := by
  rw [InMemory, hdownloads, hadditions]
  apply h

/-- A step keeps the history in memory, as long as it can be counted. -/
theorem InMemory.step {env : Env} {file : Option Bytes} {w w' : World} (h : InMemory file w)
    (hstep : Step env w w')
    (hcount : (additions w'.trace).length + (loadState file []).2.length ≤ INT_MAX) :
  InMemory file w'
  := by
  cases hstep with
  | between => exact h.of_eq rfl rfl
  | visit item url =>
    cases processURL_visited env w item url with
    | skipped _ hsession _ htrace =>
      apply h.of_eq
      · rw [hsession]
      · rw [htrace]
    | failed _ _ hsession _ notices honly htrace =>
      apply h.of_eq
      · rw [hsession]
      · rw [htrace]
        apply additions_append_notices honly (visitEvent env w url :: w.trace)
    | completed _ _ hsession _ notices honly htrace =>
      have hadditions : additions (processURL env w item url).trace
          = (url, w.session.maxBucketItems.toNat) :: additions w.trace := by
        rw [htrace]
        apply congrArg (List.cons _)
        apply additions_append_notices honly (visitEvent env w url :: w.trace)
      have hlength := h.length_le
      rw [hadditions, List.length_cons] at hcount
      obtain ⟨s, removed, hvariable, hrep, hperm⟩ := h
      obtain ⟨s', removed', hadd, hrep', hperm'⟩ :=
        hrep.addToBucket (by simp only; omega) url w.session.maxBucketItems.toNat
      refine ⟨s', removed', ?_, ?_, ?_⟩
      · rw [hadditions, historyVariable, hvariable]
        apply hadd
      · rw [hsession]
        apply hrep'
      · rw [hadditions, hsession]
        apply hperm'.trans (hperm.cons url)

/-- What was recorded stays recorded. -/
theorem Step.additions_suffix {env : Env} {w w' : World} (h : Step env w w') :
  additions w.trace <:+ additions w'.trace
  := by
  cases h with
  | between => apply List.suffix_refl
  | visit item url =>
    cases processURL_visited env w item url with
    | skipped _ _ _ htrace =>
      rw [htrace]
    | failed _ _ _ _ notices _ htrace =>
      rw [htrace]
      apply List.IsSuffix.filterMap
      apply (List.suffix_cons _ _).trans (List.suffix_append _ _)
    | completed _ _ _ _ notices _ htrace =>
      rw [htrace]
      apply List.IsSuffix.filterMap
      apply ((List.suffix_cons _ _).trans (List.suffix_append _ _)).trans (List.suffix_cons _ _)

theorem inMemory_run {env : Env} {file : Option Bytes} {w w' : World} (hrun : Run env w w')
    (h : InMemory file w)
    (hcount : (additions w'.trace).length + (loadState file []).2.length ≤ INT_MAX) :
  InMemory file w'
  := by
  induction hrun with
  | refl => apply h
  | tail _ hstep ih =>
    have hle := hstep.additions_suffix.length_le
    apply (ih _).step hstep hcount
    omega

/-- At every moment of every run in which fewer than `2 ^ 31` URLs are loaded and recorded: the
nodes that were linked and unlinked so far hold the history, looking up a URL and saving walk
over them without an access to a node that was freed, and when the history is freed then, no
node is left and each copy of a URL that was ever loaded or recorded has been freed once. -/
theorem history_memory {env : Env} {s : Session} {file : Option Bytes} {disk : Disk} {w : World}
    (hrun : Run env (World.start (s.loaded file) disk) w)
    (hcount : (additions w.trace).length + (loadState file []).2.length ≤ INT_MAX) :
  ∃ v, historyVariable file (additions w.trace) = some v
    ∧ (∀ url, SimpleList.hasBeenDownloaded v url
      = some (hasBeenDownloaded w.session.downloads url))
    ∧ (∀ a, SimpleList.saveState a v = some (saveState a w.session.downloads))
    ∧ ∃ memory, SimpleList.freeList v.head v.memory = some (none, memory)
      ∧ Ledger.empty.Balanced memory.nodes.ledger
      ∧ memory.disposed.Perm ((additions w.trace).map Prod.fst ++ (loadState file []).2)
  := by
  have hstart : InMemory file (World.start (s.loaded file) disk) := by
    have hle : (loadState file []).2.length ≤ INT_MAX := Nat.le_trans (Nat.le_add_left _ _) hcount
    obtain ⟨v, hload, hrep⟩ := SimpleList.exists_loadState file hle
    exact ⟨v, [], hload, hrep, List.Perm.refl _⟩
  have hmemory := inMemory_run hrun hstart hcount
  have hlength := Nat.le_trans hmemory.length_le hcount
  obtain ⟨v, removed, hvariable, hrep, hperm⟩ := hmemory
  refine ⟨v, hvariable, hrep.hasBeenDownloaded, hrep.saveState hlength, ?_⟩
  obtain ⟨head, memory, hfree, ⟨cells, hchain, hitems, hkeeps⟩, hdisposed⟩ := hrep.freeList hlength
  obtain rfl := List.map_eq_nil_iff.mp hitems
  obtain rfl : head = none := hchain
  refine ⟨memory, hfree, hkeeps, ?_⟩
  rw [hdisposed]
  apply List.Perm.trans _ hperm
  apply List.perm_append_comm.trans
  apply List.Perm.append_left
  apply List.reverse_perm

theorem history_memory_longRun :
  let file := some (longFile 32)
  (additions longRun.trace).length + (loadState file []).2.length ≤ INT_MAX
    ∧ ∃ v, historyVariable file (additions longRun.trace) = some v
      ∧ SimpleList.hasBeenDownloaded v newUrl = some true
  := by
  intro file
  have hcount : (additions longRun.trace).length + (loadState file []).2.length ≤ INT_MAX := by
    decide +kernel
  have hrun : Run (.plain [newUrl] fun _ => .plain 200)
      (World.start ((Session.plain [plainFeed] []).loaded file) fun _ => none) longRun :=
    run_mainLoop _ 1 true _
  obtain ⟨v, hvariable, hlookup, -⟩ := history_memory hrun hcount
  have hfound : hasBeenDownloaded longRun.session.downloads newUrl = true := by
    decide +kernel
  exact ⟨hcount, v, hvariable, (hlookup newUrl).trans (congrArg some hfound)⟩

end Trailermatic
