import Mathlib.Algebra.GroupWithZero.Nat
import Trailermatic.Exchange
import Trailermatic.Library.Owners

/-!
# The memory of responses

A `WebData` owns its URL, the name of the file and the buffer.  A header line that names a file
puts a new name in the place of the one before, which is not freed.  `responses_memory` says that
over any number of transfers nothing else is lost.
-/

namespace Trailermatic

/-- The line names a file. -/
def Arrival.names (pcre : Pcre) : Arrival → Bool
  | .header line behind =>
    (text "Content-Disposition").isPrefixOf line
      && match pcre.getRegExMatch (some contentPattern) (cstr (line ++ behind)) 2 with
        | some (some _) => true
        | _ => false
  | .data _ => false

/-- A transfer: its URL, and the calls of the callbacks. -/
structure WebTransfer where
  url : Option Bytes
  arrivals : List Arrival

/-- A transfer with a `WebData` of its own.  The flag is the static flag of the header
callback. -/
def WebTransfer.run (pcre : Pcre) (s : Bool × Heap ℕ) (t : WebTransfer) :
    Option (Bool × Heap ℕ) := do
  let (moving, heap) := s
  let r ← receive pcre t.arrivals (webDataNew t.url moving heap)
  let heap ← webDataFree r
  return (r.isMoveHeader, heap)

/-- The calls of all transfers, one after the other, are allowed. -/
def TransfersAllowed (pcre : Pcre) : Bool → List WebTransfer → Prop
  | _, [] => True
  | moving, t :: transfers =>
    AllAllowed pcre moving t.arrivals
      ∧ TransfersAllowed pcre (progress pcre moving t.arrivals).moving transfers

/-- The number of names that are lost in a transfer: all but the last one. -/
def WebTransfer.lost (pcre : Pcre) (t : WebTransfer) : ℕ :=
  t.arrivals.countP (Arrival.names pcre) - 1

/-! ### Blocks -/

theorem passes_amFree {α : Type*} {p : Option ℕ} {heap heap' : Heap α}
    (h : amFree p heap = some heap') :
  heap.ledger.Passes p.toList heap'.ledger [] 0
  := by
  cases p with
  | none =>
    cases h
    apply Ledger.Passes.refl
  | some n =>
    rw [amFree, Heap.free] at h
    split_ifs at h
    cases h
    apply Ledger.passes_release

theorem passes_amRealloc {α : Type*} {p : Option ℕ} {x : α} {heap heap' : Heap α} {n : ℕ}
    (h : amRealloc p x heap = some (n, heap')) :
  heap.ledger.Passes p.toList heap'.ledger [n] 0
  := by
  cases p with
  | none =>
    cases h
    apply Ledger.passes_acquire
  | some k =>
    obtain ⟨freed, hfree, heq⟩ := Option.map_eq_some_iff.mp h
    cases heq
    have hpasses : heap.ledger.Passes [k] freed.ledger [] 0 := @passes_amFree _ (some k) _ _ hfree
    apply hpasses.andThen
    apply Ledger.passes_acquire

/-! ### Calls -/

/-- What a call does to the blocks of a `WebData`: none is lost, unless the call names a file and
there is a name already. -/
structure Passing (r r' : Receiver) (named : Bool) : Prop where
  filename : r'.mem.contentFilename.isSome = (named || r.mem.contentFilename.isSome)
  passes : r.heap.ledger.Passes r.mem.owned r'.heap.ledger r'.mem.owned
    (if named then r.mem.contentFilename.toList.length else 0)

section Calls

variable {pcre : Pcre} {r r' r'' : Receiver} {p : Progress}

/-- Only the buffer changes. -/
theorem Passing.buffer (hurl : r'.mem.url = r.mem.url)
    (hfilename : r'.mem.contentFilename = r.mem.contentFilename)
    (hpasses : r.heap.ledger.Passes r.mem.response.data.toList r'.heap.ledger
      r'.mem.response.data.toList 0) :
  Passing r r' false
  where
    filename := by rw [hfilename, Bool.false_or]
    passes := by
      rw [WebData.owned, WebData.owned, hurl, hfilename]
      apply hpasses.frame

theorem Passing.refl (r : Receiver) :
  Passing r r false
  := Passing.buffer rfl rfl (Ledger.Passes.refl _ _)

theorem Passing.trans (h : Passing r r' false) (h' : Passing r' r'' false) :
  Passing r r'' false
  where
    filename := h'.filename.trans h.filename
    passes := h.passes.andThen h'.passes

theorem passing_withBuffer (r : Receiver) :
  Passing r r.withBuffer false
  := by
  rw [Receiver.withBuffer]
  cases hdata : r.mem.response.data with
  | some data => apply Passing.refl
  | none =>
    refine Passing.buffer rfl rfl ?_
    rw [hdata]
    apply Ledger.passes_acquire

theorem passing_withRoom {needed : ℕ} (hrun : r.withRoom needed = some r') :
  Passing r r' false
  := by
  rw [Receiver.withRoom] at hrun
  split_ifs at hrun
  · obtain ⟨size, -, hrun⟩ := Option.bind_eq_some_iff.mp hrun
    obtain ⟨⟨data, heap⟩, hrealloc, hrun⟩ := Option.bind_eq_some_iff.mp hrun
    cases hrun
    exact Passing.buffer rfl rfl (passes_amRealloc hrealloc)
  · cases hrun
    apply Passing.refl

theorem passing_writeChunk {chunk : Bytes} (hrun : r.writeChunk chunk = some r') :
  Passing r r' false
  := by
  rw [Receiver.writeChunk] at hrun
  obtain ⟨data, hdata, hrun⟩ := Option.bind_eq_some_iff.mp hrun
  obtain ⟨block, -, hrun⟩ := Option.bind_eq_some_iff.mp hrun
  split_ifs at hrun
  cases hrun
  exact Passing.buffer rfl rfl (Ledger.Passes.refl _ _)

theorem passing_writeDataCallback {chunk : Bytes} (hrun : writeDataCallback chunk r = some r') :
  Passing r r' false
  := by
  rw [Receiver.writeDataCallback_eq] at hrun
  obtain ⟨grown, hroom, hchunk⟩ := Option.bind_eq_some_iff.mp hrun
  apply (passing_withBuffer r).trans
  apply (passing_withRoom hroom).trans (passing_writeChunk hchunk)

/-- A line is none of two kinds that begin differently. -/
theorem not_isPrefixOf {kind other line : Bytes} (hline : kind.isPrefixOf line = true)
    (h : ¬ (kind <+: other ∨ other <+: kind)) :
  other.isPrefixOf line = false
  := by
  rw [← Bool.not_eq_true, List.isPrefixOf_iff_prefix]
  intro hother
  apply h
  apply List.prefix_or_prefix_of_prefix (List.isPrefixOf_iff_prefix.mp hline) hother

theorem passing_writeHeaderCallback {line behind : Bytes} (htracks : Tracks r p)
    (hallowed : (Arrival.header line behind).Allowed pcre p)
    (hrun : writeHeaderCallback pcre line behind r = some r') :
  Passing r r' ((Arrival.header line behind).names pcre)
  := by
  rw [Arrival.Allowed] at hallowed
  rw [Arrival.names]
  by_cases hlocation : (text "Location:").isPrefixOf line = true
  · have hother := not_isPrefixOf hlocation (show ¬ (_ ∨ text "Content-Disposition" <+: _) by decide)
    rw [if_pos hlocation, ← htracks.buffered] at hallowed
    rw [Option.isSome_eq_false_iff, Option.isNone_iff_eq_none] at hallowed
    simp only [writeHeaderCallback, hlocation, hallowed, if_true] at hrun
    cases hrun
    rw [hother, Bool.false_and]
    exact Passing.buffer rfl rfl (Ledger.Passes.refl _ _)
  by_cases hlength : (text "Content-Length:").isPrefixOf line = true
  · have hother := not_isPrefixOf hlength (show ¬ (_ ∨ text "Content-Disposition" <+: _) by decide)
    simp only [writeHeaderCallback, hlocation, hlength, if_true, if_false,
      Bool.false_eq_true] at hrun
    obtain ⟨result, -, hrun⟩ := Option.bind_eq_some_iff.mp hrun
    rw [hother, Bool.false_and]
    cases result with
    | none =>
      cases hrun
      apply Passing.refl
    | some tmp =>
      simp only at hrun
      split_ifs at hrun
      · obtain ⟨⟨data, heap⟩, hrealloc, hrun⟩ := Option.bind_eq_some_iff.mp hrun
        cases hrun
        exact Passing.buffer rfl rfl (passes_amRealloc hrealloc)
      · cases hrun
        apply Passing.refl
  by_cases hdisposition : (text "Content-Disposition").isPrefixOf line = true
  · simp only [writeHeaderCallback, hlocation, hlength, hdisposition, if_true, if_false,
      Bool.false_eq_true] at hrun
    obtain ⟨result, hresult, hrun⟩ := Option.bind_eq_some_iff.mp hrun
    rw [hdisposition, hresult, Bool.true_and]
    cases result with
    | none =>
      cases hrun
      apply Passing.refl
    | some filename =>
      cases hrun
      refine ⟨rfl, ?_⟩
      have hnew := (Ledger.passes_acquire r.heap.ledger []).overwrite
        r.mem.contentFilename.toList (r.mem.response.data.toList ++ r.mem.url.toList)
      apply hnew.of_perm
      · rw [WebData.owned, ← List.append_assoc]
        apply List.perm_append_comm
      · apply List.perm_append_comm.trans
        rw [List.append_assoc]
        rfl
  · simp only [writeHeaderCallback, hlocation, hlength, hdisposition, if_false,
      Bool.false_eq_true] at hrun
    rw [Bool.not_eq_true] at hdisposition
    rw [hdisposition, Bool.false_and]
    split_ifs at hrun
    · cases hrun
      exact Passing.buffer rfl rfl (Ledger.Passes.refl _ _)
    · cases hrun
      apply Passing.refl

theorem passing_run {arrival : Arrival} (htracks : Tracks r p)
    (hallowed : arrival.Allowed pcre p) (hrun : arrival.run pcre r = some r') :
  Passing r r' (arrival.names pcre)
  := by
  cases arrival with
  | header line behind => exact passing_writeHeaderCallback htracks hallowed hrun
  | data chunk => exact passing_writeDataCallback hrun

end Calls

/-! ### Transfers -/

/-- So far `named` lines have named a file; the last name is kept, and the others are lost, with
`lost` blocks from before. -/
structure Leaking (start : Ledger) (lost : ℕ) (r : Receiver) (named : ℕ) : Prop where
  filename : r.mem.contentFilename.isSome = decide (0 < named)
  passes : start.Passes [] r.heap.ledger r.mem.owned (lost + (named - 1))

theorem Leaking.step {start : Ledger} {lost : ℕ} {r r' : Receiver} {named : ℕ} {b : Bool}
    (h : Leaking start lost r named) (hstep : Passing r r' b) :
  Leaking start lost r' (named + b.toNat)
  := by
  have hpasses := h.passes.trans hstep.passes
  cases b with
  | false => exact ⟨hstep.filename.trans h.filename, hpasses⟩
  | true =>
    refine ⟨hstep.filename.trans (by simp), ?_⟩
    have hsum : lost + (named - 1) + r.mem.contentFilename.toList.length
        = lost + (named + 1 - 1) := by
      have hfilename := h.filename
      cases hname : r.mem.contentFilename with
      | none =>
        rw [hname, Option.isSome_none, eq_comm, decide_eq_false_iff_not] at hfilename
        rw [Option.toList_none, List.length_nil]
        omega
      | some n =>
        rw [hname, Option.isSome_some, eq_comm, decide_eq_true_eq] at hfilename
        rw [Option.toList_some, List.length_singleton]
        omega
    rw [if_pos rfl, hsum] at hpasses
    apply hpasses

theorem leaking_new (url : Option Bytes) (moving : Bool) (heap : Heap ℕ) :
  Leaking heap.ledger 0 (webDataNew url moving heap) 0
  := by
  rw [webDataNew]
  cases url.bind amStrdup with
  | none => exact ⟨rfl, Ledger.Passes.refl _ _⟩
  | some url => exact ⟨rfl, Ledger.passes_acquire _ _⟩

/-- A sequence of calls that are allowed loses all names but the last one. -/
theorem leaking_receive {pcre : Pcre} (hpcre : pcre.Lists) {start : Ledger} {lost : ℕ}
    {r₀ : Receiver} {moving : Bool} (htracks : Tracks r₀ ⟨moving, false⟩)
    (hleaking : Leaking start lost r₀ 0) {arrivals : List Arrival}
    (hallowed : AllAllowed pcre moving arrivals) :
  ∃ r, receive pcre arrivals r₀ = some r
    ∧ Tracks r (progress pcre moving arrivals)
    ∧ Leaking start lost r (arrivals.countP (Arrival.names pcre))
  := by
  induction arrivals using List.reverseRecOn with
  | nil => exact ⟨r₀, rfl, htracks, hleaking⟩
  | append_singleton arrivals arrival ih =>
    obtain ⟨hbefore, hlast⟩ := Simulation.throughout_concat.mp hallowed
    obtain ⟨r, hreceive, htracks, hleaking⟩ := ih hbefore
    obtain ⟨r', hrun, htracks'⟩ := htracks.step hpcre hlast
    have hprogress : progress pcre moving (arrivals ++ [arrival])
        = arrival.apply pcre (progress pcre moving arrivals) :=
      (receiving hpcre).meaning_concat _ arrivals arrival
    have hconcat : receive pcre (arrivals ++ [arrival]) r₀
        = (receive pcre arrivals r₀).bind fun r => arrival.run pcre r :=
      (receiving hpcre).run_concat _ arrivals arrival
    refine ⟨r', ?_, ?_, ?_⟩
    · rw [hconcat, hreceive]
      apply hrun
    · rw [hprogress]
      apply htracks'
    · have hnamed : [arrival].countP (Arrival.names pcre) = (arrival.names pcre).toNat := by
        rw [List.countP_singleton]
        cases arrival.names pcre with
        | false => rfl
        | true => rfl
      rw [List.countP_append, hnamed]
      apply hleaking.step (passing_run htracks hlast hrun)

theorem passes_webDataFree {r : Receiver} {heap : Heap ℕ} (hfree : webDataFree r = some heap) :
  r.heap.ledger.Passes r.mem.owned heap.ledger [] 0
  := by
  obtain ⟨heap₁, hurl, hrest⟩ := Option.bind_eq_some_iff.mp hfree
  obtain ⟨heap₂, hfilename, hdata⟩ := Option.bind_eq_some_iff.mp hrest
  apply Ledger.Passes.of_perm _ List.perm_append_comm (List.Perm.refl _)
  rw [List.append_assoc]
  apply ((passes_amFree hurl).frame _).andThen
  apply ((passes_amFree hfilename).frame _).andThen
  apply passes_amFree hdata

theorem WebTransfer.exists_run {pcre : Pcre} (hpcre : pcre.Lists) (t : WebTransfer) (moving : Bool)
    (heap : Heap ℕ) (hallowed : AllAllowed pcre moving t.arrivals) :
  ∃ heap', t.run pcre (moving, heap) = some ((progress pcre moving t.arrivals).moving, heap')
    ∧ heap.ledger.Passes [] heap'.ledger [] (t.lost pcre)
  := by
  obtain ⟨r, hreceive, htracks, hleaking⟩ := leaking_receive hpcre (tracks_new t.url moving heap)
    (leaking_new t.url moving heap) hallowed
  obtain ⟨heap', hfree, -⟩ := htracks.webDataFree
  refine ⟨heap', ?_, ?_⟩
  · rw [WebTransfer.run]
    simp only [hreceive, hfree, Option.bind_eq_bind, Option.bind_some, Option.pure_def]
    rw [htracks.moving]
  · have hpasses := hleaking.passes
    rw [Nat.zero_add] at hpasses
    apply Ledger.Passes.trans (n := 0) hpasses (passes_webDataFree hfree)

/-- Over any number of transfers whose calls are allowed: every block of a `WebData` is freed
once, except for the names of files that a later header line of the same transfer replaced. -/
theorem responses_memory {pcre : Pcre} (hpcre : pcre.Lists) (transfers : List WebTransfer)
    (moving : Bool) (heap : Heap ℕ) (hallowed : TransfersAllowed pcre moving transfers) :
  ∃ s, transfers.foldlM (WebTransfer.run pcre) (moving, heap) = some s
    ∧ ∃ lost, heap.ledger.Keeps s.2.ledger lost
      ∧ lost.length = (transfers.map (WebTransfer.lost pcre)).sum
  := by
  suffices h : ∃ s, transfers.foldlM (WebTransfer.run pcre) (moving, heap) = some s
      ∧ heap.ledger.Passes [] s.2.ledger [] (transfers.map (WebTransfer.lost pcre)).sum by
    obtain ⟨s, hrun, hpasses⟩ := h
    obtain ⟨lost, hlength, hkeeps⟩ := hpasses.exists_keeps
    exact ⟨s, hrun, lost, hkeeps, hlength⟩
  induction transfers generalizing moving heap with
  | nil => exact ⟨_, rfl, Ledger.Passes.refl _ _⟩
  | cons t transfers ih =>
    obtain ⟨heap', hrun, hpasses⟩ := t.exists_run hpcre moving heap hallowed.1
    obtain ⟨s, hrest, hpasses'⟩ := ih _ heap' hallowed.2
    refine ⟨s, ?_, ?_⟩
    · simp only [List.foldlM_cons, hrun, Option.bind_eq_bind, Option.bind_some]
      apply hrest
    · rw [List.map_cons, List.sum_cons]
      apply hpasses.trans hpasses'

/-! ### A response that names its file twice -/

/-- A library that finds the name in a header line of an inline file, and nothing else. -/
def namingPcre : Pcre where
  Code := Bytes
  compile := some
  captureCount _ := .ok 2
  exec pattern subject _ :=
    if pattern = contentPattern
      ∧ (text "Content-Disposition: inline; filename=").isPrefixOf subject then 3
    else -1
  substringList _ subject _ _ :=
    some [subject, text "inline", (subject.drop 38).takeWhile (· != 13)]

theorem lists_namingPcre :
  namingPcre.Lists
  := by
  intro code subject ovecSize h
  simp only [namingPcre] at h ⊢
  split_ifs at h ⊢
  · exact ⟨_, rfl, rfl⟩
  · cases h

/-- A transfer whose header names the file twice. -/
def twoNames : WebTransfer :=
  ⟨some (text "http://a.example/"), [headerLine "Content-Disposition: inline; filename=a",
    headerLine "Content-Disposition: inline; filename=b", headerLine "", .data (text "ok")]⟩

theorem responses_memory_twoNames :
  TransfersAllowed namingPcre false [twoNames]
    ∧ ∃ s, [twoNames].foldlM (WebTransfer.run namingPcre) (false, .empty) = some s
      ∧ ∃ lost, Ledger.empty.Keeps s.2.ledger lost ∧ lost.length = 1
  := by
  have hallowed : AllAllowed namingPcre false
      ([] ++ [headerLine "Content-Disposition: inline; filename=a"]
        ++ [headerLine "Content-Disposition: inline; filename=b"] ++ [headerLine ""]
        ++ [.data (text "ok")]) := by
    rw [AllAllowed, Simulation.throughout_concat, Simulation.throughout_concat,
      Simulation.throughout_concat, Simulation.throughout_concat]
    exact ⟨⟨⟨⟨Simulation.throughout_nil, by decide⟩, by decide⟩, by decide⟩, by decide⟩
  have hone : ([twoNames].map (WebTransfer.lost namingPcre)).sum = 1 := by
    decide +kernel
  have h := responses_memory lists_namingPcre [twoNames] false .empty ⟨hallowed, trivial⟩
  rw [hone] at h
  exact ⟨⟨hallowed, trivial⟩, h⟩

end Trailermatic
