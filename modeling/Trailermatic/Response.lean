import Trailermatic.Config.Options
import Trailermatic.Memory
import Trailermatic.Library.Simulation

/-!
# The buffer of a response

libcurl hands the header lines and the data of a response to two callbacks, which keep a
buffer for the data.  A line that begins with `Location:` frees the buffer but leaves the
pointer to it.  `buffer_intact_iff` says for which sequences of calls the buffer stays
intact.
-/

namespace Trailermatic

def DATA_BUFFER_SIZE : ℕ := 1024 * 100

/-- The buffer of a response: a pointer, the size it was allocated with and how much of it is
used. -/
structure HttpData where
  data : Option ℕ
  bufferSize : ℕ
  bufferPos : ℕ

/-- The state that the callbacks of a transfer share. -/
structure WebData where
  url : Option ℕ
  contentLength : UInt64
  contentFilename : Option ℕ
  response : HttpData

/-- What the callbacks work on: the `WebData` of the transfer, the static flag of
`write_header_callback`, and the blocks of memory with their sizes. -/
structure Receiver where
  mem : WebData
  isMoveHeader : Bool
  heap : Heap ℕ

/-- A new `WebData`; the flag is what the transfer before left. -/
def webDataNew (url : Option Bytes) (isMoveHeader : Bool) (heap : Heap ℕ) : Receiver :=
  let response : HttpData := ⟨none, 0, 0⟩
  match url.bind amStrdup with
  | none => ⟨⟨none, -1, none, response⟩, isMoveHeader, heap⟩
  | some url =>
    let (block, heap) := amMalloc (url.bytes.length + 1) heap
    ⟨⟨some block, -1, none, response⟩, isMoveHeader, heap⟩

/-- Free a `WebData` and what it points to. -/
def webDataFree (r : Receiver) : Option (Heap ℕ) := do
  let heap ← amFree r.mem.url r.heap
  let heap ← amFree r.mem.contentFilename heap
  amFree r.mem.response.data heap

/-! ### The callbacks -/

def contentLengthPattern : Bytes :=
  text "Content-Length:\\s(\\d+)"

def contentPattern : Bytes :=
  text "Content-Disposition:\\s(inline|attachment);\\s+filename=\"?(.+?)\"?;?\\r?\\n?$"

/-- A header line.  The regular expressions also see what comes `behind` it in memory, up to
a NUL. -/
def writeHeaderCallback (pcre : Pcre) (line behind : Bytes) (r : Receiver) : Option Receiver := do
  let mem := r.mem
  if (text "Location:").isPrefixOf line then
    match mem.response.data with
    | none => return { r with isMoveHeader := true }
    | some data =>
      -- the pointer still points to the block after it is freed
      let heap ← amFree (some data) r.heap
      return { mem := { mem with contentLength := 0 }, isMoveHeader := true, heap := heap }
  else if (text "Content-Length:").isPrefixOf line then
    match ← pcre.getRegExMatch (some contentLengthPattern) (cstr (line ++ behind)) 1 with
    | none => return r
    | some tmp =>
      let contentLength := atoi tmp
      if 0 < contentLength ∧ r.isMoveHeader = false then
        -- content_length + 1 is computed as an int
        if contentLength = INT_MAX then none
        else
          let size := contentLength.toNat + 1
          let (data, heap) ← amRealloc mem.response.data size r.heap
          return { r with
            mem := { mem with
              contentLength := UInt64.ofInt contentLength
              response := { mem.response with data := some data, bufferSize := size } }
            heap := heap }
      else return r
  else if (text "Content-Disposition").isPrefixOf line then
    match ← pcre.getRegExMatch (some contentPattern) (cstr (line ++ behind)) 2 with
    | none => return r
    | some filename =>
      let (block, heap) := amMalloc (filename.length + 1) r.heap
      return { r with mem := { mem with contentFilename := some block }, heap := heap }
  else if (text "\r\n").isPrefixOf line then return { r with isMoveHeader := false }
  else return r

/-- Double the size until it is at least `needed`.  Sizes stay far below the largest `size_t`
as long as allocation succeeds. -/
def growBuffer (needed : ℕ) : ℕ → ℕ → Option ℕ
  | 0, _ => none
  | turns + 1, size =>
    if size * 2 < needed then growBuffer needed turns (size * 2) else some (size * 2)

/-- A chunk of the data, which is copied into the buffer and ended with a NUL. -/
def writeDataCallback (chunk : Bytes) (r : Receiver) : Option Receiver := do
  let (response, heap) := match r.mem.response.data with
    | some _ => (r.mem.response, r.heap)
    | none =>
      let (data, heap) := amMalloc DATA_BUFFER_SIZE r.heap
      ({ r.mem.response with data := some data, bufferSize := DATA_BUFFER_SIZE }, heap)
  let needed := response.bufferPos + chunk.length + 1
  let (response, heap) ←
    if response.bufferSize < needed then do
      let size ← growBuffer needed needed response.bufferSize
      let (data, heap) ← amRealloc response.data size heap
      some (({ response with data := some data, bufferSize := size } : HttpData), heap)
    else some (response, heap)
  let data ← response.data
  let block ← heap.read data
  if needed ≤ block then
    return { r with
      mem := { r.mem with
        response := { response with bufferPos := response.bufferPos + chunk.length } }
      heap := heap }
  else none

/-! ### Sequences of calls -/

/-- A call of a callback. -/
inductive Arrival where
  | header (line behind : Bytes)
  | data (chunk : Bytes)

/-- The callback for a line of the header or for a chunk of the body. -/
def Arrival.run (pcre : Pcre) (r : Receiver) : Arrival → Option Receiver
  | .header line behind => writeHeaderCallback pcre line behind r
  | .data chunk => writeDataCallback chunk r

/-- The callbacks of a transfer, in the order of what arrives. -/
def receive (pcre : Pcre) (arrivals : List Arrival) (r : Receiver) : Option Receiver :=
  arrivals.foldlM (Arrival.run pcre) r

/-- The pointer is `NULL`, or the buffer is live and has the size that is kept of it. -/
def Receiver.Intact (r : Receiver) : Prop :=
  ∀ n ∈ r.mem.response.data, r.heap.read n = some r.mem.response.bufferSize

/-- How far a response is: whether its header redirects, and whether there is a buffer. -/
structure Progress where
  moving : Bool
  buffered : Bool

/-- The length that a header line announces, `0` if it announces none. -/
def announced (pcre : Pcre) (line behind : Bytes) : ℤ :=
  match pcre.getRegExMatch (some contentLengthPattern) (cstr (line ++ behind)) 1 with
  | some (some tmp) => atoi tmp
  | _ => 0

/-- What a call means for the progress. -/
def Arrival.apply (pcre : Pcre) (p : Progress) : Arrival → Progress
  | .header line behind =>
    if (text "Location:").isPrefixOf line then { p with moving := true }
    else if (text "Content-Length:").isPrefixOf line then
      if 0 < announced pcre line behind ∧ p.moving = false then { p with buffered := true } else p
    else if (text "Content-Disposition").isPrefixOf line then p
    else if (text "\r\n").isPrefixOf line then { p with moving := false }
    else p
  | .data _ => { p with buffered := true }

/-- What has become of the response when all has arrived. -/
def progress (pcre : Pcre) (moving : Bool) (arrivals : List Arrival) : Progress :=
  arrivals.foldl (Arrival.apply pcre) ⟨moving, false⟩

/-- The call neither redirects a response that has a buffer, nor announces a length whose
successor is no `int`. -/
def Arrival.Allowed (pcre : Pcre) (p : Progress) : Arrival → Prop
  | .header line behind =>
    if (text "Location:").isPrefixOf line then p.buffered = false
    else if (text "Content-Length:").isPrefixOf line then
      p.moving = false → announced pcre line behind ≠ INT_MAX
    else True
  | .data _ => True

instance (pcre : Pcre) (p : Progress) (arrival : Arrival) :
    Decidable (arrival.Allowed pcre p) :=
  match arrival with
  | .header _ _ => inferInstanceAs (Decidable (ite _ _ (ite _ _ _)))
  | .data _ => inferInstanceAs (Decidable True)

/-- The call does not fault, the buffer is intact after it, and `WebData_free` would free the
buffer once. -/
def Arrival.Sound (pcre : Pcre) (r : Receiver) (arrival : Arrival) : Prop :=
  ∃ r', arrival.run pcre r = some r' ∧ r'.Intact
    ∧ ∃ heap, webDataFree r' = some heap
      ∧ ∀ n ∈ r'.mem.response.data, heap.ledger.released.count n = 1

/-! ### What the calls keep -/

/-- The blocks that a `WebData` points to. -/
def WebData.owned (mem : WebData) : List ℕ :=
  mem.response.data.toList ++ (mem.url.toList ++ mem.contentFilename.toList)

/-- The receiver is as far as the progress says, its buffer is intact, and the blocks it points
to are live and distinct. -/
structure Tracks (r : Receiver) (p : Progress) : Prop where
  moving : r.isMoveHeader = p.moving
  buffered : r.mem.response.data.isSome = p.buffered
  intact : r.Intact
  pos : r.mem.response.data.isSome = true → 0 < r.mem.response.bufferSize
  owns : r.heap.Owns r.mem.owned

/-- The loop ends, with a size that is large enough. -/
theorem exists_growBuffer {needed turns size : ℕ} (hpos : 0 < size) (hturns : 0 < turns)
    (h : needed ≤ size + turns) :
  ∃ size', growBuffer needed turns size = some size' ∧ needed ≤ size' ∧ 0 < size'
  := by
  induction turns generalizing size with
  | zero => cases hturns
  | succ turns ih =>
    rw [growBuffer]
    split_ifs with hsmall
    · apply ih
      · omega
      · omega
      · omega
    · exact ⟨size * 2, rfl, by omega, by omega⟩

section Tracks

variable {r : Receiver} {p : Progress}

/-- A new buffer, in the place of the old one if there is one. -/
theorem Tracks.realloc (h : Tracks r p) {size : ℕ} (hsize : 0 < size) (length : UInt64)
    (pos : ℕ) :
  ∃ data heap, amRealloc r.mem.response.data size r.heap = some (data, heap)
    ∧ Tracks { r with
        mem := { r.mem with contentLength := length, response := ⟨some data, size, pos⟩ }
        heap := heap } { p with buffered := true }
  := by
  obtain ⟨data, heap, hrealloc, hread, howns⟩ := exists_amRealloc h.owns size
  refine ⟨data, heap, hrealloc, h.moving, rfl, ?_, fun _ => hsize, howns⟩
  rintro n ⟨⟩
  apply hread

/-- A new block for the name of the file. -/
theorem Tracks.filename (h : Tracks r p) (size : ℕ) :
  Tracks { r with
    mem := { r.mem with contentFilename := some (amMalloc size r.heap).1 }
    heap := (amMalloc size r.heap).2 } p
  := by
  refine ⟨h.moving, h.buffered, ?_, h.pos, ?_⟩
  · intro n hn
    apply r.heap.read_alloc size (h.intact n hn)
  · have hrest : r.heap.Owns (r.mem.response.data.toList ++ r.mem.url.toList) := by
      apply @Heap.Owns.of_append _ _ r.mem.contentFilename.toList
      apply h.owns.of_perm
      rw [WebData.owned, ← List.append_assoc]
      apply List.perm_append_comm
    apply (hrest.alloc size).of_perm
    rw [WebData.owned, ← List.append_assoc]
    apply (List.perm_append_singleton _ _).symm

/-- A chunk is copied into the buffer, which grows if it has to. -/
theorem Tracks.chunk (h : Tracks r p) (hbuffered : p.buffered = true) (chunk : Bytes) :
  ∃ r', writeDataCallback chunk r = some r' ∧ Tracks r' p
  := by
  have hsome := h.buffered.trans hbuffered
  obtain ⟨n, hn⟩ := Option.isSome_iff_exists.mp hsome
  simp only [writeDataCallback, hn]
  split_ifs with hsmall
  · obtain ⟨size, hgrow, hsize, hpos⟩ := exists_growBuffer (h.pos hsome)
      (Nat.succ_pos (r.mem.response.bufferPos + chunk.length)) (Nat.le_add_left _ _)
    obtain ⟨data, heap, hrealloc, htracks⟩ := h.realloc hpos r.mem.contentLength
      (r.mem.response.bufferPos + chunk.length)
    rw [hn] at hrealloc
    have hread : heap.read data = some size := htracks.intact data rfl
    simp only [hgrow, hrealloc, hread, if_pos hsize, Option.bind_eq_bind, Option.bind_some,
      Option.pure_def]
    refine ⟨_, rfl, ?_⟩
    rw [← hbuffered] at htracks
    exact htracks
  · have hread : r.heap.read n = some r.mem.response.bufferSize := h.intact n hn
    simp only [hn, hread, if_pos (Nat.le_of_not_lt hsmall), Option.bind_eq_bind, Option.bind_some,
      Option.pure_def]
    have howns := h.owns
    rw [WebData.owned, hn] at howns
    refine ⟨_, rfl, h.moving, hbuffered.symm, ?_, fun _ => h.pos hsome, howns⟩
    rintro k ⟨⟩
    apply hread

/-- The callbacks keep track of the progress, if the call is allowed. -/
theorem Tracks.data (h : Tracks r p) (pcre : Pcre) (chunk : Bytes) :
  ∃ r', (Arrival.data chunk).run pcre r = some r'
    ∧ Tracks r' ((Arrival.data chunk).apply pcre p)
  := by
  cases hdata : r.mem.response.data with
  | some n =>
    have hbuffered : p.buffered = true := by rw [← h.buffered, hdata]; rfl
    obtain ⟨r', hrun, htracks⟩ := h.chunk hbuffered chunk
    refine ⟨r', hrun, ?_⟩
    rw [Arrival.apply, ← hbuffered]
    exact htracks
  | none =>
    have hsize : 0 < DATA_BUFFER_SIZE := by decide
    obtain ⟨data, heap, hrealloc, htracks⟩ :=
      h.realloc hsize r.mem.contentLength r.mem.response.bufferPos
    rw [hdata] at hrealloc
    cases hrealloc
    obtain ⟨r', hrun, htracks'⟩ := htracks.chunk rfl chunk
    refine ⟨r', ?_, htracks'⟩
    rw [← hrun, Arrival.run, writeDataCallback, hdata]
    rfl

theorem announced_eq {pcre : Pcre} {line behind : Bytes} {result : Option Bytes}
    (h : pcre.getRegExMatch (some contentLengthPattern) (cstr (line ++ behind)) 1 = some result) :
  announced pcre line behind = result.elim 0 atoi
  := by
  rw [announced, h]
  cases result with
  | none => rfl
  | some tmp => rfl

/-- A line that announces a length, if the call is allowed. -/
theorem Tracks.contentLength (h : Tracks r p) {pcre : Pcre} (hpcre : pcre.Lists)
    {line behind : Bytes} (hline : (text "Content-Length:").isPrefixOf line = true)
    (hother : (text "Location:").isPrefixOf line = false)
    (hallowed : p.moving = false → announced pcre line behind ≠ INT_MAX) :
  ∃ r', writeHeaderCallback pcre line behind r = some r' ∧ Tracks r'
    (if 0 < announced pcre line behind ∧ p.moving = false then { p with buffered := true } else p)
  := by
  obtain ⟨result, hresult⟩ := hpcre.exists_getRegExMatch (some contentLengthPattern)
    (cstr (line ++ behind)) Nat.one_pos
  rw [announced_eq hresult] at hallowed ⊢
  simp only [writeHeaderCallback, hline, hother, hresult, Option.bind_eq_bind, Option.bind_some,
    if_true, if_false, Bool.false_eq_true]
  cases result with
  | none =>
    rw [if_neg (fun hboth => Int.lt_irrefl 0 hboth.1)]
    exact ⟨r, rfl, h⟩
  | some tmp =>
    rw [Option.elim_some] at hallowed ⊢
    by_cases hlength : 0 < atoi tmp ∧ p.moving = false
    · have hlength' : 0 < atoi tmp ∧ r.isMoveHeader = false := by rwa [h.moving]
      obtain ⟨data, heap, hrealloc, htracks⟩ := h.realloc (Nat.succ_pos (atoi tmp).toNat)
        (UInt64.ofInt (atoi tmp)) r.mem.response.bufferPos
      simp only [if_pos hlength, if_pos hlength', if_neg (hallowed hlength.2), hrealloc,
        Option.bind_some]
      exact ⟨_, rfl, htracks⟩
    · have hlength' : ¬ (0 < atoi tmp ∧ r.isMoveHeader = false) := by rwa [h.moving]
      simp only [if_neg hlength, if_neg hlength']
      exact ⟨r, rfl, h⟩

theorem Tracks.header (h : Tracks r p) {pcre : Pcre} (hpcre : pcre.Lists) {line behind : Bytes}
    (hallowed : (Arrival.header line behind).Allowed pcre p) :
  ∃ r', writeHeaderCallback pcre line behind r = some r'
    ∧ Tracks r' ((Arrival.header line behind).apply pcre p)
  := by
  rw [Arrival.Allowed] at hallowed
  rw [Arrival.apply]
  by_cases hlocation : (text "Location:").isPrefixOf line = true
  · rw [if_pos hlocation] at hallowed ⊢
    have hdata : r.mem.response.data = none := by
      rw [← Option.isNone_iff_eq_none, ← Option.not_isSome, h.buffered, hallowed]
      rfl
    simp only [writeHeaderCallback, hlocation, hdata, if_true]
    exact ⟨_, rfl, rfl, h.buffered, h.intact, h.pos, h.owns⟩
  rw [if_neg hlocation] at hallowed ⊢
  by_cases hlength : (text "Content-Length:").isPrefixOf line = true
  · rw [if_pos hlength] at hallowed ⊢
    apply h.contentLength hpcre hlength (Bool.not_eq_true _ ▸ hlocation) hallowed
  rw [if_neg hlength]
  by_cases hdisposition : (text "Content-Disposition").isPrefixOf line = true
  · rw [if_pos hdisposition]
    obtain ⟨result, hresult⟩ := hpcre.exists_getRegExMatch (some contentPattern)
      (cstr (line ++ behind)) Nat.two_pos
    simp only [writeHeaderCallback, hlocation, hlength, hdisposition, hresult, Option.bind_eq_bind,
      Option.bind_some, if_true, if_false, Bool.false_eq_true]
    cases result with
    | none => exact ⟨r, rfl, h⟩
    | some filename => exact ⟨_, rfl, h.filename (filename.length + 1)⟩
  rw [if_neg hdisposition]
  by_cases hend : (text "\r\n").isPrefixOf line = true
  · rw [if_pos hend]
    simp only [writeHeaderCallback, hlocation, hlength, hdisposition, hend, if_true, if_false,
      Bool.false_eq_true]
    exact ⟨_, rfl, rfl, h.buffered, h.intact, h.pos, h.owns⟩
  · rw [if_neg hend]
    simp only [writeHeaderCallback, hlocation, hlength, hdisposition, hend, if_false,
      Bool.false_eq_true]
    exact ⟨r, rfl, h⟩

theorem Tracks.step (h : Tracks r p) {pcre : Pcre} (hpcre : pcre.Lists) {arrival : Arrival}
    (hallowed : arrival.Allowed pcre p) :
  ∃ r', arrival.run pcre r = some r' ∧ Tracks r' (arrival.apply pcre p)
  := by
  cases arrival with
  | header line behind => exact h.header hpcre hallowed
  | data chunk => exact h.data pcre chunk

/-- A line that announces a length whose successor is no `int` faults. -/
theorem Tracks.announced_ne (h : Tracks r p) {pcre : Pcre} {line behind : Bytes} {r' : Receiver}
    (hlength : (text "Content-Length:").isPrefixOf line = true)
    (hlocation : (text "Location:").isPrefixOf line = false) (hmoving : p.moving = false)
    (hrun : writeHeaderCallback pcre line behind r = some r') :
  announced pcre line behind ≠ INT_MAX
  := by
  intro hmax
  simp only [writeHeaderCallback, hlocation, hlength, if_true, if_false,
    Bool.false_eq_true] at hrun
  obtain ⟨result, hresult, hrest⟩ := Option.bind_eq_some_iff.mp hrun
  rw [announced_eq hresult] at hmax
  cases result with
  | none => cases hmax
  | some tmp =>
    rw [Option.elim_some] at hmax
    simp only [hmax, h.moving, hmoving, INT_MAX] at hrest
    cases hrest

/-- A call that is not allowed faults or leaves the pointer to a buffer that is freed. -/
theorem Tracks.allowed (h : Tracks r p) {pcre : Pcre} {arrival : Arrival} {r' : Receiver}
    (hrun : arrival.run pcre r = some r') (hintact : r'.Intact) :
  arrival.Allowed pcre p
  := by
  cases arrival with
  | data chunk => trivial
  | header line behind =>
    rw [Arrival.Allowed]
    by_cases hlocation : (text "Location:").isPrefixOf line = true
    · rw [if_pos hlocation, ← h.buffered, ← Bool.not_eq_true, Option.isSome_iff_exists]
      rintro ⟨n, hn⟩
      simp only [Arrival.run, writeHeaderCallback, hlocation, hn, if_true, amFree] at hrun
      obtain ⟨heap, hfree, hr'⟩ := Option.bind_eq_some_iff.mp hrun
      cases hr'
      have hread := hintact n hn
      rw [Heap.read_of_free hfree] at hread
      cases hread
    · rw [if_neg hlocation]
      split_ifs with hlength
      · intro hmoving
        apply h.announced_ne hlength (Bool.not_eq_true _ ▸ hlocation) hmoving hrun

/-- The blocks of a `WebData` can be freed, and its buffer is freed once. -/
theorem Tracks.webDataFree (h : Tracks r p) :
  ∃ heap, Trailermatic.webDataFree r = some heap
    ∧ ∀ n ∈ r.mem.response.data, heap.ledger.released.count n = 1
  := by
  have howns : r.heap.Owns
      (r.mem.url.toList ++ (r.mem.contentFilename.toList ++ r.mem.response.data.toList)) := by
    apply h.owns.of_perm
    rw [WebData.owned, ← List.append_assoc r.mem.url.toList]
    apply List.perm_append_comm
  obtain ⟨heap₁, hfree₁, howns₁, hreleased₁⟩ := exists_amFree howns
  obtain ⟨heap₂, hfree₂, howns₂, hreleased₂⟩ := exists_amFree howns₁
  rw [← List.append_nil r.mem.response.data.toList] at howns₂
  obtain ⟨heap₃, hfree₃, -, hreleased₃⟩ := exists_amFree howns₂
  refine ⟨heap₃, ?_, ?_⟩
  · simp only [Trailermatic.webDataFree, hfree₁, hfree₂, hfree₃, Option.bind_eq_bind,
      Option.bind_some]
  · intro n hn
    have hdata : r.mem.response.data.toList = [n] := by rw [Option.mem_def.mp hn]; rfl
    have hlive := (howns₂.live n (by rw [hdata]; exact List.mem_cons_self)).notMem
    rw [hreleased₃, hdata, List.singleton_append, List.count_cons_self,
      List.count_eq_zero_of_not_mem hlive]

end Tracks

/-! ### Runs of calls -/

/-- Nothing has been received if there is no buffer. -/
theorem tracks_of_none {r : Receiver} (hdata : r.mem.response.data = none)
    (howns : r.heap.Owns r.mem.owned) :
  Tracks r ⟨r.isMoveHeader, false⟩
  := by
  refine ⟨rfl, by rw [hdata, Option.isSome_none], ?_, ?_, howns⟩
  · intro n hn
    rw [hdata] at hn
    cases hn
  · intro hsome
    rw [hdata] at hsome
    cases hsome

theorem tracks_new (url : Option Bytes) (moving : Bool) (heap : Heap ℕ) :
  Tracks (webDataNew url moving heap) ⟨moving, false⟩
  := by
  have hempty : heap.Owns [] := ⟨fun n hn => absurd hn List.not_mem_nil, List.nodup_nil⟩
  rw [webDataNew]
  cases url.bind amStrdup with
  | none => exact tracks_of_none rfl hempty
  | some url => exact tracks_of_none rfl (hempty.alloc _)

/-- The receiver simulates the progress. -/
def receiving {pcre : Pcre} (hpcre : pcre.Lists) : Simulation Receiver Progress Arrival where
  step r arrival := arrival.run pcre r
  apply p arrival := arrival.apply pcre p
  Rel := Tracks
  Allowed p arrival := arrival.Allowed pcre p
  Sound r _ arrival := arrival.Sound pcre r
  simulates htracks hallowed := htracks.step hpcre hallowed
  sound htracks hallowed := by
    obtain ⟨r', hrun, htracks'⟩ := htracks.step hpcre hallowed
    exact ⟨r', hrun, htracks'.intact, htracks'.webDataFree⟩
  allowed htracks hsound := by
    obtain ⟨r', hrun, hintact, -⟩ := hsound
    apply htracks.allowed hrun hintact

/-- In a sequence of calls none uses memory that is freed, each leaves the buffer intact and
`WebData_free` frees it once, exactly when no header line redirects a response that has a
buffer and none announces a length whose successor is no `int`. -/
theorem buffer_intact_iff {pcre : Pcre} (hpcre : pcre.Lists) (url : Option Bytes) (moving : Bool)
    (heap : Heap ℕ) (arrivals : List Arrival) :
  (∀ before arrival, before ++ [arrival] <+: arrivals →
      ∃ r, receive pcre before (webDataNew url moving heap) = some r ∧ arrival.Sound pcre r)
    ↔ ∀ before arrival, before ++ [arrival] <+: arrivals →
      arrival.Allowed pcre (progress pcre moving before)
  := (receiving hpcre).sound_iff (tracks_new url moving heap) arrivals

/-! ### A redirect that announces a length -/

/-- A library that finds the length in a header line that begins with it, and nothing else. -/
def headerPcre : Pcre where
  Code := Bytes
  compile := some
  captureCount _ := .ok 1
  exec pattern subject _ :=
    if pattern = contentLengthPattern ∧ (text "Content-Length: ").isPrefixOf subject
      ∧ (subject.drop 16).head?.any isdigit then 2
    else -1
  substringList _ subject _ _ :=
    let digits := (subject.drop 16).takeWhile isdigit
    some [subject.take 16 ++ digits, digits]

theorem lists_headerPcre :
  headerPcre.Lists
  := by
  intro code subject ovecSize h
  simp only [headerPcre] at h ⊢
  split_ifs at h ⊢
  · exact ⟨_, rfl, rfl⟩
  · cases h

/-- A header line that a NUL follows. -/
def headerLine (line : String) : Arrival :=
  .header (text line ++ text "\r\n") []

/-- A response of two bytes, whose last call is sound. -/
theorem buffer_intact_plain :
  ∃ r, receive headerPcre [headerLine "Content-Length: 2", headerLine ""]
      (webDataNew none false .empty) = some r
    ∧ (Arrival.data (text "ok")).Sound headerPcre r
  := by
  have hallowed : Simulation.Throughout
      (fun before (arrival : Arrival) =>
        arrival.Allowed headerPcre (progress headerPcre false before))
      ([] ++ [headerLine "Content-Length: 2"] ++ [headerLine ""] ++ [.data (text "ok")]) := by
    rw [Simulation.throughout_concat, Simulation.throughout_concat, Simulation.throughout_concat]
    exact ⟨⟨⟨Simulation.throughout_nil, by decide⟩, by decide⟩, by decide⟩
  apply (buffer_intact_iff lists_headerPcre none false .empty _).mpr hallowed
  apply List.prefix_refl

/-- A redirect that announces a length before it names the new location: the buffer is freed,
and the length announced in the next header resizes it. -/
theorem buffer_not_intact :
  (∃ r, receive headerPcre [headerLine "Content-Length: 154", headerLine "Location: /new"]
      (webDataNew none false .empty) = some r ∧ ¬ r.Intact)
    ∧ (receive headerPcre [headerLine "Content-Length: 154", headerLine "Location: /new",
        headerLine "", headerLine "Content-Length: 2"] (webDataNew none false .empty)).isNone = true
  := by
  constructor
  · refine ⟨_, rfl, ?_⟩
    intro h
    cases h 0 rfl
  · decide +kernel

end Trailermatic
