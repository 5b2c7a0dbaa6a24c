import Trailermatic.Response

/-!
# The body of a response

The callbacks again, now with the bytes that the blocks of memory hold.  Bytes that were not
written are arbitrary: they are a parameter, and what is said of a response is said for all of
them.  Without the bytes, the callbacks are those of the buffer.
-/

namespace Trailermatic

/-- The bytes of a block before anything is written to it, by the address of the block. -/
abbrev Junk :=
  ℕ → ℕ → Byte

/-- The content of the next block to be allocated. -/
def fresh (junk : Junk) (heap : Heap Bytes) (size : ℕ) : Bytes :=
  (List.range size).map (junk heap.ledger.acquired)

/-- The content of a block that takes the place of another one. -/
def resized (junk : Junk) (heap : Heap Bytes) (old : Bytes) (size : ℕ) : Bytes :=
  old.take size ++ (fresh junk heap size).drop old.length

/-- Resize a block, of which the first bytes are kept. -/
def reallocBytes (junk : Junk) (p : Option ℕ) (size : ℕ) (heap : Heap Bytes) :
    Option (ℕ × Heap Bytes) := do
  let old ← match p with
    | none => some []
    | some n => heap.read n
  amRealloc p (resized junk heap old size) heap

/-- A C string as it stands in memory. -/
def stored (s : Bytes) : Bytes :=
  s ++ [0]

/-- What the callbacks work on, with the bytes in memory. -/
structure Reception where
  mem : WebData
  isMoveHeader : Bool
  heap : Heap Bytes

namespace Reception

/-- Without the bytes: the sizes of the blocks. -/
def receiver (r : Reception) : Receiver :=
  ⟨r.mem, r.isMoveHeader, r.heap.map List.length⟩

/-- What `WebData_new` makes: a copy of the URL, and a response without data. -/
def webDataNew (url : Option Bytes) (isMoveHeader : Bool) (heap : Heap Bytes) : Reception :=
  let response : HttpData := ⟨none, 0, 0⟩
  match url.bind amStrdup with
  | none => ⟨⟨none, -1, none, response⟩, isMoveHeader, heap⟩
  | some url =>
    let (block, heap) := amMalloc (stored url.bytes) heap
    ⟨⟨some block, -1, none, response⟩, isMoveHeader, heap⟩

/-- Free the strings of the request and the data of its response. -/
def webDataFree (r : Reception) : Option (Heap Bytes) := do
  let heap ← amFree r.mem.url r.heap
  let heap ← amFree r.mem.contentFilename heap
  amFree r.mem.response.data heap

/-- Free what a transfer has left, before another one. -/
def webDataClear (r : Reception) : Option Reception := do
  let heap ← amFree r.mem.contentFilename r.heap
  let heap ← amFree r.mem.response.data heap
  return { r with
    mem := { r.mem with contentFilename := none, response := ⟨none, 0, 0⟩ }
    heap := heap }

/-! ### The callbacks -/

/-- `write_header_callback`, called by libcurl for each line of a header; `behind` is the memory
behind the line, to which the expressions are applied as well. -/
def writeHeaderCallback (pcre : Pcre) (junk : Junk) (line behind : Bytes) (r : Reception) :
    Option Reception := do
  let mem := r.mem
  if (text "Location:").isPrefixOf line then
    match mem.response.data with
    | none => return { r with isMoveHeader := true }
    | some data =>
      -- the pointer still points to the block after it is freed
      let heap ← amFree (some data) r.heap
      return { mem := { mem with contentLength := 0 }, isMoveHeader := true, heap := heap }
  else if (text "Content-Length:").isPrefixOf line then
    match ← pcre.getRegExMatch (some contentLengthPattern) (cstr (line ++ behind)) 1 with
    | none => return r
    | some tmp =>
      let contentLength := atoi tmp
      if 0 < contentLength ∧ r.isMoveHeader = false then
        -- content_length + 1 is computed as an int
        if contentLength = INT_MAX then none
        else
          let size := contentLength.toNat + 1
          let (data, heap) ← reallocBytes junk mem.response.data size r.heap
          return { r with
            mem := { mem with
              contentLength := UInt64.ofInt contentLength
              response := { mem.response with data := some data, bufferSize := size } }
            heap := heap }
      else return r
  else if (text "Content-Disposition").isPrefixOf line then
    match ← pcre.getRegExMatch (some contentPattern) (cstr (line ++ behind)) 2 with
    | none => return r
    | some filename =>
      let (block, heap) := amMalloc (stored filename) r.heap
      return { r with mem := { mem with contentFilename := some block }, heap := heap }
  else if (text "\r\n").isPrefixOf line then return { r with isMoveHeader := false }
  else return r

/-- Allocate the buffer, if there is none. -/
def withBuffer (junk : Junk) (r : Reception) : Reception :=
  match r.mem.response.data with
  | some _ => r
  | none =>
    let (data, heap) := amMalloc (fresh junk r.heap DATA_BUFFER_SIZE) r.heap
    { r with
      mem := { r.mem with
        response := { r.mem.response with data := some data, bufferSize := DATA_BUFFER_SIZE } }
      heap := heap }

/-- Resize the buffer, if it is too small. -/
def withRoom (junk : Junk) (needed : ℕ) (r : Reception) : Option Reception :=
  if r.mem.response.bufferSize < needed then do
    let size ← growBuffer needed needed r.mem.response.bufferSize
    let (data, heap) ← reallocBytes junk r.mem.response.data size r.heap
    return { r with
      mem := { r.mem with
        response := { r.mem.response with data := some data, bufferSize := size } }
      heap := heap }
  else some r

/-- Write a chunk behind what the buffer holds, and a NUL behind the chunk. -/
def writeChunk (chunk : Bytes) (r : Reception) : Option Reception := do
  let pos := r.mem.response.bufferPos
  let data ← r.mem.response.data
  let block ← r.heap.read data
  if pos + chunk.length + 1 ≤ block.length then
    let heap ← r.heap.write data
      (block.take pos ++ (chunk ++ 0 :: block.drop (pos + chunk.length + 1)))
    return { r with
      mem := { r.mem with
        response := { r.mem.response with bufferPos := pos + chunk.length } }
      heap := heap }
  else none

/-- `write_data_callback`, called by libcurl for each chunk of the body. -/
def writeDataCallback (junk : Junk) (chunk : Bytes) (r : Reception) : Option Reception := do
  let r := r.withBuffer junk
  let r ← r.withRoom junk (r.mem.response.bufferPos + chunk.length + 1)
  r.writeChunk chunk

end Reception

/-- The callback for a line of the header or for a chunk of the body. -/
def Arrival.fill (pcre : Pcre) (junk : Junk) (r : Reception) : Arrival → Option Reception
  | .header line behind => r.writeHeaderCallback pcre junk line behind
  | .data chunk => r.writeDataCallback junk chunk

/-- The callbacks of a transfer, in the order of what arrives. -/
def receiveBytes (pcre : Pcre) (junk : Junk) (arrivals : List Arrival) (r : Reception) :
    Option Reception :=
  arrivals.foldlM (Arrival.fill pcre junk) r

/-! ### Without the bytes -/

theorem length_fresh (junk : Junk) (heap : Heap Bytes) (size : ℕ) :
  (fresh junk heap size).length = size
  := by
  rw [fresh, List.length_map, List.length_range]

theorem length_resized (junk : Junk) (heap : Heap Bytes) (old : Bytes) (size : ℕ) :
  (resized junk heap old size).length = size
  := by
  rw [resized, List.length_append, List.length_take, List.length_drop, length_fresh]
  omega

theorem map_amFree (p : Option ℕ) (heap : Heap Bytes) :
  (amFree p heap).map (Heap.map List.length) = amFree p (heap.map List.length)
  := by
  cases p with
  | none => rfl
  | some n => exact (Heap.map_free List.length heap n).symm

theorem map_amMalloc (x : Bytes) (heap : Heap Bytes) :
  (amMalloc x heap).2.map List.length = (amMalloc x.length (heap.map List.length)).2
  := Heap.map_alloc List.length heap x

theorem map_reallocBytes (junk : Junk) (p : Option ℕ) (size : ℕ) (heap : Heap Bytes) :
  (reallocBytes junk p size heap).map (Prod.map id (Heap.map List.length))
    = amRealloc p size (heap.map List.length)
  := by
  have hmalloc (old : Bytes) (heap' : Heap Bytes) :
      Prod.map id (Heap.map List.length) (amMalloc (resized junk heap old size) heap')
        = amMalloc size (heap'.map List.length) := by
    rw [Prod.map, map_amMalloc, length_resized]
    rfl
  cases p with
  | none => exact congrArg some (hmalloc [] heap)
  | some n =>
    rw [reallocBytes, amRealloc, Heap.map_free]
    by_cases hlive : heap.ledger.Live n
    · obtain ⟨old, hread⟩ := Heap.exists_read hlive
      obtain ⟨heap', hfree, -⟩ := Heap.exists_free hlive
      simp only [hread, Option.bind_eq_bind, Option.bind_some, amRealloc, hfree, Option.map_some]
      rw [hmalloc]
    · have hread : heap.read n = none := if_neg hlive
      have hfree : heap.free n = none := dif_neg hlive
      simp [hread, hfree]

namespace Reception

theorem receiver_writeHeaderCallback (pcre : Pcre) (junk : Junk) (line behind : Bytes)
    (r : Reception) :
  (r.writeHeaderCallback pcre junk line behind).map receiver
    = Trailermatic.writeHeaderCallback pcre line behind r.receiver
  := by
  simp only [writeHeaderCallback, Trailermatic.writeHeaderCallback, receiver]
  split_ifs with hlocation hlength hdisposition hend
  · cases r.mem.response.data with
    | none => rfl
    | some data =>
      simp only [← map_amFree]
      cases amFree (some data) r.heap with
      | none => rfl
      | some heap => rfl
  · cases pcre.getRegExMatch (some contentLengthPattern) (cstr (line ++ behind)) 1 with
    | none => rfl
    | some result =>
      cases result with
      | none => rfl
      | some tmp =>
        simp only [Option.bind_eq_bind, Option.bind_some]
        split_ifs
        · rfl
        · rw [← map_reallocBytes junk]
          cases reallocBytes junk r.mem.response.data ((atoi tmp).toNat + 1) r.heap with
          | none => rfl
          | some new => rfl
        · rfl
  · cases pcre.getRegExMatch (some contentPattern) (cstr (line ++ behind)) 2 with
    | none => rfl
    | some result =>
      cases result with
      | none => rfl
      | some filename =>
        have hlength : (stored filename).length = filename.length + 1 := List.length_append
        simp only [Option.bind_eq_bind, Option.bind_some, Option.pure_def, Option.map_some,
          receiver]
        rw [map_amMalloc, hlength]
        rfl
  · rfl
  · rfl

end Reception

/-! The three parts of `writeDataCallback`, without the bytes. -/

namespace Receiver

/-- The buffer is allocated for the first chunk, if no length was announced. -/
def withBuffer (r : Receiver) : Receiver :=
  match r.mem.response.data with
  | some _ => r
  | none =>
    let (data, heap) := amMalloc DATA_BUFFER_SIZE r.heap
    { r with
      mem := { r.mem with
        response := { r.mem.response with data := some data, bufferSize := DATA_BUFFER_SIZE } }
      heap := heap }

/-- The buffer grows until it has room for the chunk and a NUL. -/
def withRoom (needed : ℕ) (r : Receiver) : Option Receiver :=
  if r.mem.response.bufferSize < needed then do
    let size ← growBuffer needed needed r.mem.response.bufferSize
    let (data, heap) ← amRealloc r.mem.response.data size r.heap
    return { r with
      mem := { r.mem with
        response := { r.mem.response with data := some data, bufferSize := size } }
      heap := heap }
  else some r

/-- The chunk is copied behind what the buffer holds, if there is room for it and a NUL. -/
def writeChunk (chunk : Bytes) (r : Receiver) : Option Receiver := do
  let data ← r.mem.response.data
  let block ← r.heap.read data
  if r.mem.response.bufferPos + chunk.length + 1 ≤ block then
    return { r with
      mem := { r.mem with
        response := { r.mem.response with
          bufferPos := r.mem.response.bufferPos + chunk.length } } }
  else none

theorem exists_withBuffer (r : Receiver) :
  ∃ data, r.withBuffer.mem.response.data = some data
  := by
  rw [withBuffer]
  cases hdata : r.mem.response.data with
  | some data => exact ⟨data, hdata⟩
  | none => exact ⟨_, rfl⟩

theorem withBuffer_pos (r : Receiver) :
  r.withBuffer.mem.response.bufferPos = r.mem.response.bufferPos
  := by
  rw [withBuffer]
  cases r.mem.response.data with
  | some data => rfl
  | none => rfl

/-- The callback allocates the buffer first. -/
theorem writeDataCallback_withBuffer (chunk : Bytes) (r : Receiver) :
  writeDataCallback chunk r.withBuffer = writeDataCallback chunk r
  := by
  cases hdata : r.mem.response.data with
  | some data => rw [withBuffer, hdata]
  | none =>
    rw [writeDataCallback, writeDataCallback, withBuffer, hdata]

theorem writeDataCallback_eq (chunk : Bytes) (r : Receiver) :
  writeDataCallback chunk r
    = (r.withBuffer.withRoom (r.mem.response.bufferPos + chunk.length + 1)).bind
      (writeChunk chunk)
  := by
  obtain ⟨data, hdata⟩ := r.exists_withBuffer
  rw [← writeDataCallback_withBuffer, ← r.withBuffer_pos, writeDataCallback, withRoom]
  simp only [hdata]
  split_ifs
  · cases growBuffer (r.withBuffer.mem.response.bufferPos + chunk.length + 1)
      (r.withBuffer.mem.response.bufferPos + chunk.length + 1)
      r.withBuffer.mem.response.bufferSize with
    | none => rfl
    | some size =>
      simp only [Option.bind_eq_bind, Option.bind_some]
      cases amRealloc (some data) size r.withBuffer.heap with
      | none => rfl
      | some new => rfl
  · simp only [writeChunk, hdata, Option.bind_eq_bind, Option.bind_some]

end Receiver

namespace Reception

/-- Writing a chunk changes the size of no block. -/
theorem receiver_writeChunk (chunk : Bytes) (r : Reception) :
  (r.writeChunk chunk).map receiver = r.receiver.writeChunk chunk
  := by
  rw [writeChunk, Receiver.writeChunk, receiver]
  simp only
  cases r.mem.response.data with
  | none => rfl
  | some data =>
    simp only [Option.bind_eq_bind, Option.bind_some, Heap.read_map]
    cases hread : r.heap.read data with
    | none => rfl
    | some block =>
      simp only [Option.bind_some, Option.map_some]
      split_ifs with hroom
      · obtain ⟨heap, hwrite, -⟩ := Heap.exists_write (Heap.live_of_read hread)
          (block.take r.mem.response.bufferPos
            ++ (chunk ++ 0 :: block.drop (r.mem.response.bufferPos + chunk.length + 1)))
        have hsame : heap.map List.length = r.heap.map List.length := by
          apply Heap.map_write hread hwrite
          simp only [List.length_append, List.length_cons, List.length_take, List.length_drop]
          omega
        simp only [hwrite, Option.bind_some, Option.pure_def, Option.map_some, receiver, hsame]
      · rfl

theorem receiver_withRoom (junk : Junk) (needed : ℕ) (r : Reception) :
  (r.withRoom junk needed).map receiver = r.receiver.withRoom needed
  := by
  rw [withRoom, Receiver.withRoom, receiver]
  simp only
  split_ifs
  · cases growBuffer needed needed r.mem.response.bufferSize with
    | none => rfl
    | some size =>
      simp only [Option.bind_eq_bind, Option.bind_some]
      rw [← map_reallocBytes junk]
      cases reallocBytes junk r.mem.response.data size r.heap with
      | none => rfl
      | some new => rfl
  · rfl

theorem receiver_withBuffer (junk : Junk) (r : Reception) :
  (r.withBuffer junk).receiver = r.receiver.withBuffer
  := by
  cases hdata : r.mem.response.data with
  | some data =>
    have hdata' : r.receiver.mem.response.data = some data := hdata
    simp only [withBuffer, Receiver.withBuffer, hdata, hdata']
  | none =>
    have hdata' : r.receiver.mem.response.data = none := hdata
    simp only [withBuffer, Receiver.withBuffer, hdata, hdata']
    simp only [receiver, amMalloc, Heap.map_alloc, Heap.ledger_map, length_fresh]

/-- Without the bytes, it is the callback of the buffer. -/
theorem receiver_writeDataCallback (junk : Junk) (chunk : Bytes) (r : Reception) :
  (r.writeDataCallback junk chunk).map receiver
    = Trailermatic.writeDataCallback chunk r.receiver
  := by
  have hpos : (r.withBuffer junk).mem.response.bufferPos = r.receiver.mem.response.bufferPos := by
    rw [← r.receiver.withBuffer_pos, ← receiver_withBuffer junk]
    rfl
  rw [Receiver.writeDataCallback_eq, ← receiver_withBuffer junk, ← receiver_withRoom junk,
    writeDataCallback, ← hpos]
  cases (r.withBuffer junk).withRoom junk
      ((r.withBuffer junk).mem.response.bufferPos + chunk.length + 1) with
  | none => rfl
  | some q => apply receiver_writeChunk

end Reception

/-- Without the bytes, the calls are those of the buffer. -/
theorem receiver_fill (pcre : Pcre) (junk : Junk) (r : Reception) (arrival : Arrival) :
  (arrival.fill pcre junk r).map Reception.receiver = arrival.run pcre r.receiver
  := by
  cases arrival with
  | header line behind => apply Reception.receiver_writeHeaderCallback
  | data chunk => apply Reception.receiver_writeDataCallback

/-- Without the bytes, a sequence of calls is one of the buffer. -/
theorem receiver_receiveBytes (pcre : Pcre) (junk : Junk) (arrivals : List Arrival)
    (r : Reception) :
  (receiveBytes pcre junk arrivals r).map Reception.receiver = receive pcre arrivals r.receiver
  := by
  induction arrivals generalizing r with
  | nil => rfl
  | cons arrival arrivals ih =>
    rw [receiveBytes, receive, List.foldlM_cons, List.foldlM_cons, ← receiver_fill pcre junk]
    cases arrival.fill pcre junk r with
    | none => rfl
    | some r => apply ih

/-- Without the bytes, the blocks are freed as those of the buffer. -/
theorem Reception.receiver_webDataFree (r : Reception) :
  r.webDataFree.map (Heap.map List.length) = Trailermatic.webDataFree r.receiver
  := by
  rw [webDataFree, Trailermatic.webDataFree, receiver]
  simp only [← map_amFree]
  cases amFree r.mem.url r.heap with
  | none => rfl
  | some heap =>
    simp only [Option.map_some, Option.bind_eq_bind, Option.bind_some, ← map_amFree]
    cases amFree r.mem.contentFilename heap with
    | none => rfl
    | some heap =>
      simp only [Option.map_some, Option.bind_some]
      apply map_amFree

theorem Reception.receiver_webDataNew (url : Option Bytes) (moving : Bool) (heap : Heap Bytes) :
  (webDataNew url moving heap).receiver
    = Trailermatic.webDataNew url moving (heap.map List.length)
  := by
  rw [webDataNew, Trailermatic.webDataNew]
  cases url.bind amStrdup with
  | none => rfl
  | some url =>
    have hlength : (stored url.bytes).length = url.bytes.length + 1 := List.length_append
    simp only [receiver]
    rw [map_amMalloc, hlength]
    rfl

/-! ### What the buffer holds -/

/-- The new bytes are the old ones as far as there are any, and arbitrary from there on. -/
def Grows (junk : Junk) (old new : Bytes) : Prop :=
  ∀ (i : ℕ) (b : Byte), new[i]? = some b → old[i]? = some b ∨ old[i]? = none ∧ ∃ n k, junk n k = b

theorem grows_refl (junk : Junk) (old : Bytes) :
  Grows junk old old
  := fun _ _ h => Or.inl h

theorem grows_fresh (junk : Junk) (heap : Heap Bytes) (size : ℕ) :
  Grows junk [] (fresh junk heap size)
  := by
  intro i b h
  obtain ⟨k, -, hk⟩ := List.mem_map.mp (List.mem_of_getElem? h)
  right
  exact ⟨rfl, _, k, hk⟩

theorem grows_resized (junk : Junk) (heap : Heap Bytes) (old : Bytes) (size : ℕ) :
  Grows junk old (resized junk heap old size)
  := by
  intro i b h
  rw [resized, List.getElem?_append] at h
  split_ifs at h with hi
  · left
    rw [← h, List.getElem?_take_of_lt]
    rw [List.length_take] at hi
    omega
  · right
    rw [List.length_take] at h hi
    rw [List.getElem?_drop] at h
    obtain ⟨hlt, hget⟩ := List.getElem?_eq_some_iff.mp h
    rw [length_fresh] at hlt
    obtain ⟨-, hjunk⟩ := (grows_fresh junk heap size _ b h).resolve_left nofun
    refine ⟨?_, hjunk⟩
    apply List.getElem?_eq_none
    omega

/-- What has grown from nothing can grow on. -/
theorem Grows.trans_nil {junk : Junk} {new newer : Bytes} (h : Grows junk [] new)
    (h' : Grows junk new newer) :
  Grows junk [] newer
  := by
  intro i b hb
  rcases h' i b hb with hnew | ⟨-, hjunk⟩
  · apply h i b hnew
  · right
    exact ⟨rfl, hjunk⟩

/-- What begins the old bytes begins the new ones, if they are enough. -/
theorem Grows.initial {junk : Junk} {old new body : Bytes} (h : Grows junk old new)
    (hbody : body <+: old) (hlength : body.length ≤ new.length) :
  body <+: new
  := by
  rw [List.prefix_iff_getElem?] at hbody ⊢
  intro i hi
  have hnew := List.getElem?_eq_getElem (Nat.lt_of_lt_of_le hi hlength)
  rcases h i _ hnew with hold | ⟨hold, -⟩
  · rw [hnew, ← hold, hbody i hi]
  · rw [hbody i hi] at hold
    cases hold

namespace Reception

/-- The bytes in the buffer. -/
def content (r : Reception) : Bytes :=
  match r.mem.response.data with
  | none => []
  | some n => (r.heap.read n).getD []

theorem content_eq {r : Reception} {n : ℕ} {block : Bytes} (hn : r.mem.response.data = some n)
    (hread : r.heap.read n = some block) :
  r.content = block
  := by
  rw [content, hn]
  simp only
  rw [hread, Option.getD_some]

theorem grows_content {junk : Junk} {old block : Bytes} {r : Reception} {n : ℕ}
    (hn : r.mem.response.data = some n) (hread : r.heap.read n = some block)
    (h : Grows junk old block) :
  Grows junk old r.content
  := by
  rw [content_eq hn hread]
  apply h

theorem grows_reallocBytes {junk : Junk} {r : Reception} {size data : ℕ} {heap : Heap Bytes}
    (h : reallocBytes junk r.mem.response.data size r.heap = some (data, heap)) :
  ∃ block, heap.read data = some block ∧ block.length = size ∧ Grows junk r.content block
  := by
  have hnew {p : Option ℕ} {old : Bytes}
      (hrealloc : amRealloc p (resized junk r.heap old size) r.heap = some (data, heap)) :
      ∃ block, heap.read data = some block ∧ block.length = size ∧ Grows junk old block :=
    ⟨_, read_amRealloc hrealloc, length_resized junk r.heap old size, grows_resized junk _ _ _⟩
  rw [content]
  cases hdata : r.mem.response.data with
  | none =>
    rw [hdata] at h
    exact @hnew none [] h
  | some n =>
    rw [hdata] at h
    obtain ⟨old, hread, hrealloc⟩ := Option.bind_eq_some_iff.mp h
    simp only
    rw [hread, Option.getD_some]
    apply hnew hrealloc

theorem grows_withBuffer (junk : Junk) (r : Reception) :
  Grows junk r.content (r.withBuffer junk).content
    ∧ (r.content = [] ∨ r.withBuffer junk = r)
    ∧ (r.withBuffer junk).mem.response.bufferPos = r.mem.response.bufferPos
  := by
  cases hdata : r.mem.response.data with
  | some n =>
    have hsame : r.withBuffer junk = r := by rw [withBuffer, hdata]
    rw [hsame]
    exact ⟨grows_refl junk _, Or.inr rfl, rfl⟩
  | none =>
    have hcontent : r.content = [] := by rw [content, hdata]
    have hfresh : (r.withBuffer junk).content = fresh junk r.heap DATA_BUFFER_SIZE := by
      rw [withBuffer, hdata]
      exact content_eq rfl (r.heap.read_alloc_self _)
    rw [hcontent, hfresh, withBuffer, hdata]
    exact ⟨grows_fresh junk _ _, Or.inl rfl, rfl⟩

theorem grows_withRoom {junk : Junk} {needed : ℕ} {r r' : Reception}
    (h : r.withRoom junk needed = some r') :
  Grows junk r.content r'.content ∧ r'.mem.response.bufferPos = r.mem.response.bufferPos
  := by
  rw [withRoom] at h
  split_ifs at h
  · obtain ⟨size, -, h⟩ := Option.bind_eq_some_iff.mp h
    obtain ⟨⟨data, heap⟩, hrealloc, h⟩ := Option.bind_eq_some_iff.mp h
    obtain ⟨block, hread, -, hgrows⟩ := grows_reallocBytes hrealloc
    obtain rfl := Option.some.inj h
    exact ⟨grows_content rfl hread hgrows, rfl⟩
  · cases h
    exact ⟨grows_refl junk _, rfl⟩

theorem content_writeChunk {chunk : Bytes} {r r' : Reception} (h : r.writeChunk chunk = some r') :
  r.mem.response.bufferPos + chunk.length + 1 ≤ r.content.length
    ∧ r'.content = r.content.take r.mem.response.bufferPos
      ++ (chunk ++ 0 :: r.content.drop (r.mem.response.bufferPos + chunk.length + 1))
    ∧ r'.mem.response.bufferPos = r.mem.response.bufferPos + chunk.length
  := by
  obtain ⟨data, hdata, h⟩ := Option.bind_eq_some_iff.mp h
  obtain ⟨block, hread, h⟩ := Option.bind_eq_some_iff.mp h
  split_ifs at h with hroom
  obtain ⟨heap, hwrite, h⟩ := Option.bind_eq_some_iff.mp h
  cases h
  obtain ⟨heap', hwrite', -, hread', -⟩ := Heap.exists_write (Heap.live_of_read hread) (block.take
    r.mem.response.bufferPos
      ++ (chunk ++ 0 :: block.drop (r.mem.response.bufferPos + chunk.length + 1)))
  cases hwrite.symm.trans hwrite'
  rw [content_eq hdata hread]
  exact ⟨hroom, content_eq hdata hread', rfl⟩

/-- A chunk is written into what has grown from the buffer. -/
theorem content_writeDataCallback {junk : Junk} {chunk : Bytes} {r r' : Reception}
    (h : r.writeDataCallback junk chunk = some r') :
  ∃ grown, Grows junk r.content grown
    ∧ r.mem.response.bufferPos + chunk.length + 1 ≤ grown.length
    ∧ r'.content = grown.take r.mem.response.bufferPos
      ++ (chunk ++ 0 :: grown.drop (r.mem.response.bufferPos + chunk.length + 1))
    ∧ r'.mem.response.bufferPos = r.mem.response.bufferPos + chunk.length
  := by
  obtain ⟨hbuffer, hempty, hpos⟩ := r.grows_withBuffer junk
  obtain ⟨q, hroom, hchunk⟩ := Option.bind_eq_some_iff.mp h
  obtain ⟨hgrows, hpos'⟩ := grows_withRoom hroom
  have hwritten := content_writeChunk hchunk
  rw [hpos', hpos] at hwritten
  refine ⟨q.content, ?_, hwritten⟩
  rcases hempty with hempty | hsame
  · rw [hempty] at hbuffer ⊢
    apply hbuffer.trans_nil hgrows
  · rw [hsame] at hgrows
    apply hgrows

/-- A block that is allocated for something else leaves the buffer as it is. -/
theorem content_alloc {r : Reception} (hlive : ∀ n ∈ r.mem.response.data, (r.heap.read n).isSome)
    (x : Bytes) (filename : Option ℕ) :
  content { r with
    mem := { r.mem with contentFilename := filename }
    heap := (amMalloc x r.heap).2 } = r.content
  := by
  rw [content, content]
  cases hdata : r.mem.response.data with
  | none => rfl
  | some n =>
    obtain ⟨block, hread⟩ := Option.isSome_iff_exists.mp (hlive n hdata)
    simp only [hread]
    rw [amMalloc, r.heap.read_alloc x hread]

end Reception

/-! ### What a header line means for the buffer -/

/-- The length to which a header line sets the buffer, if it does. -/
def Arrival.announces (pcre : Pcre) (moving : Bool) : Arrival → Option ℤ
  | .header line behind =>
    if (text "Location:").isPrefixOf line then none
    else if (text "Content-Length:").isPrefixOf line ∧ 0 < announced pcre line behind
      ∧ moving = false then some (announced pcre line behind)
    else none
  | .data _ => none

/-- The line does not redirect. -/
def Arrival.Direct : Arrival → Prop
  | .header line _ => (text "Location:").isPrefixOf line = false
  | .data _ => True

/-- A line that may announce a length either does, or leaves the buffer as it is. -/
theorem Reception.content_contentLength {pcre : Pcre} {junk : Junk} {line behind : Bytes}
    {r r' : Reception} (hline : (text "Content-Length:").isPrefixOf line = true)
    (hother : (text "Location:").isPrefixOf line = false)
    (h : r.writeHeaderCallback pcre junk line behind = some r') :
  r'.mem.response.bufferPos = r.mem.response.bufferPos
    ∧ if 0 < announced pcre line behind ∧ r.isMoveHeader = false then
        announced pcre line behind ≠ INT_MAX ∧ Grows junk r.content r'.content
          ∧ (r'.content.length : ℤ) = announced pcre line behind + 1
      else r' = r
  := by
  simp only [writeHeaderCallback, hline, hother, if_true, if_false, Bool.false_eq_true] at h
  obtain ⟨result, hresult, h⟩ := Option.bind_eq_some_iff.mp h
  rw [announced_eq hresult]
  cases result with
  | none =>
    cases h
    rw [if_neg (fun hboth => Int.lt_irrefl 0 hboth.1)]
    exact ⟨rfl, rfl⟩
  | some tmp =>
    rw [Option.elim_some]
    simp only at h
    by_cases hset : 0 < atoi tmp ∧ r.isMoveHeader = false
    · rw [if_pos hset] at h ⊢
      split_ifs at h with hmax
      obtain ⟨⟨data, heap⟩, hrealloc, h⟩ := Option.bind_eq_some_iff.mp h
      obtain ⟨block, hread, hsize, hgrows⟩ := grows_reallocBytes hrealloc
      cases h
      refine ⟨rfl, hmax, grows_content rfl hread hgrows, ?_⟩
      rw [content_eq (n := data) rfl hread, hsize]
      omega
    · rw [if_neg hset] at h ⊢
      cases h
      exact ⟨rfl, rfl⟩

/-- No other line than one that announces a length changes the buffer. -/
theorem Reception.content_writeHeaderCallback {pcre : Pcre} {junk : Junk} {line behind : Bytes}
    {r r' : Reception} (hlive : ∀ n ∈ r.mem.response.data, (r.heap.read n).isSome)
    (hdirect : (Arrival.header line behind).Direct)
    (h : r.writeHeaderCallback pcre junk line behind = some r') :
  r'.mem.response.bufferPos = r.mem.response.bufferPos
    ∧ ((Arrival.header line behind).announces pcre r.isMoveHeader = none →
      r'.content = r.content)
    ∧ ∀ n ∈ (Arrival.header line behind).announces pcre r.isMoveHeader,
      n ≠ INT_MAX ∧ Grows junk r.content r'.content ∧ (r'.content.length : ℤ) = n + 1
  := by
  rw [Arrival.Direct] at hdirect
  rw [Arrival.announces, hdirect, if_neg Bool.false_ne_true]
  by_cases hlength : (text "Content-Length:").isPrefixOf line = true
  · obtain ⟨hpos, hcontent⟩ := content_contentLength hlength hdirect h
    by_cases hset : 0 < announced pcre line behind ∧ r.isMoveHeader = false
    · rw [if_pos hset] at hcontent
      rw [if_pos ⟨hlength, hset⟩]
      refine ⟨hpos, nofun, ?_⟩
      rintro n ⟨⟩
      apply hcontent
    · rw [if_neg hset] at hcontent
      rw [if_neg (fun hboth => hset hboth.2), hcontent]
      exact ⟨rfl, fun _ => rfl, nofun⟩
  · rw [if_neg (fun hboth => hlength hboth.1)]
    simp only [writeHeaderCallback, hdirect, hlength, if_false, Bool.false_eq_true] at h
    split_ifs at h with hdisposition hend
    · obtain ⟨result, -, h⟩ := Option.bind_eq_some_iff.mp h
      cases result with
      | none =>
        cases h
        exact ⟨rfl, fun _ => rfl, nofun⟩
      | some filename =>
        cases h
        exact ⟨rfl, fun _ => content_alloc hlive _ _, nofun⟩
    · cases h
      exact ⟨rfl, fun _ => rfl, nofun⟩
    · cases h
      exact ⟨rfl, fun _ => rfl, nofun⟩

end Trailermatic
