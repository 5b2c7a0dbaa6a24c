import Trailermatic.Exchange
import Trailermatic.Library.While

/-!
# The growing buffer

A length that the header announces is where the size of the buffer begins, and otherwise it
begins with `DATA_BUFFER_SIZE`; it is doubled in a loop until a chunk fits.  Here sizes are
what they are in the program, a `size_t`, and that the loop ends is to be shown.
`writeDataCallback_body` says that what is stored does not depend on the header.
-/

namespace Trailermatic

/-! ### The callback with sizes of 64 bits -/

/-- A turn of the loop that doubles the size. -/
def growTurn (needed size : UInt64) : Turn UInt64 UInt64 :=
  if size * 2 < needed then .next (size * 2) else .done (size * 2)

/-- `buffer_pos + line_len + 1`. -/
def neededSize (pos len : ℕ) : UInt64 :=
  UInt64.ofNat pos + UInt64.ofNat len + 1

namespace Reception

/-- The buffer is resized if it is too small, to the size that the loop ends with. -/
inductive MakesRoom (junk : Junk) (needed : UInt64) (r : Reception) : Reception → Prop where
  | enough (fits : ¬ UInt64.ofNat r.mem.response.bufferSize < needed) : MakesRoom junk needed r r
  | resize (small : UInt64.ofNat r.mem.response.bufferSize < needed) (size : UInt64)
      (ends : While.Ends (growTurn needed) (UInt64.ofNat r.mem.response.bufferSize) size)
      (data : ℕ) (heap : Heap Bytes)
      (realloc : reallocBytes junk r.mem.response.data size.toNat r.heap = some (data, heap)) :
      MakesRoom junk needed r { r with
        mem := { r.mem with
          response := { r.mem.response with data := some data, bufferSize := size.toNat } }
        heap := heap }

/-- The callback returns, with the length of the chunk and with what it leaves. -/
def Writes (junk : Junk) (chunk : Bytes) (r : Reception) (lineLen : UInt64) (r' : Reception) :
    Prop :=
  let q := r.withBuffer junk
  ∃ q', q.MakesRoom junk (neededSize q.mem.response.bufferPos chunk.length) q'
    ∧ q'.writeChunk chunk = some r' ∧ lineLen = UInt64.ofNat chunk.length

variable {junk : Junk} {needed : UInt64} {chunk : Bytes} {r q q' : Reception}

theorem MakesRoom.unique (h : r.MakesRoom junk needed q) (h' : r.MakesRoom junk needed q') :
  q = q'
  := by
  cases h with
  | enough hfits =>
    cases h' with
    | enough => rfl
    | resize hsmall => apply absurd hsmall hfits
  | resize hsmall size hends data heap hrealloc =>
    cases h' with
    | enough hfits => apply absurd hsmall hfits
    | resize _ size' hends' data' heap' hrealloc' =>
      obtain rfl := hends.unique hends'
      cases hrealloc.symm.trans hrealloc'
      rfl

/-- The callback returns in one way. -/
theorem Writes.unique {lineLen lineLen' : UInt64} (h : r.Writes junk chunk lineLen q)
    (h' : r.Writes junk chunk lineLen' q') :
  lineLen = lineLen' ∧ q = q'
  := by
  obtain ⟨room, hroom, hwrite, rfl⟩ := h
  obtain ⟨room', hroom', hwrite', rfl⟩ := h'
  obtain rfl := hroom.unique hroom'
  exact ⟨rfl, Option.some.inj (hwrite.symm.trans hwrite')⟩

end Reception

/-! ### Sizes that do not overflow -/

theorem neededSize_eq (pos len : ℕ) :
  neededSize pos len = UInt64.ofNat (pos + len + 1)
  := by
  rw [neededSize, UInt64.ofNat_add, UInt64.ofNat_add, UInt64.ofNat_one]

/-- The loop over sizes of 64 bits ends as the one over numbers does: up to `2 ^ 62` bytes are
needed, so a size that is too small can be doubled. -/
theorem ends_growTurn {needed turns size size' : ℕ} (hneeded : needed ≤ 4611686018427387904)
    (hsmall : size < needed) (h : growBuffer needed turns size = some size') :
  While.Ends (growTurn (UInt64.ofNat needed)) (UInt64.ofNat size) (UInt64.ofNat size')
    ∧ size' < 9223372036854775808
  := by
  induction turns generalizing size with
  | zero => cases h
  | succ turns ih =>
    have hdouble : UInt64.ofNat size * 2 = UInt64.ofNat (size * 2) := by
      rw [UInt64.ofNat_mul]
      rfl
    have hiff : UInt64.ofNat size * 2 < UInt64.ofNat needed ↔ size * 2 < needed := by
      rw [hdouble, UInt64.lt_iff_toNat_lt, UInt64.toNat_ofNat_of_lt', UInt64.toNat_ofNat_of_lt']
      · rw [UInt64.size]
        omega
      · rw [UInt64.size]
        omega
    rw [growBuffer] at h
    split_ifs at h with hlt
    · obtain ⟨hends, hbound⟩ := ih hlt h
      refine ⟨?_, hbound⟩
      rw [← hdouble] at hends
      apply While.Ends.next _ hends
      rw [growTurn, if_pos (hiff.mpr hlt)]
    · cases h
      refine ⟨?_, by omega⟩
      rw [← hdouble]
      apply While.Ends.done
      rw [growTurn, if_neg (mt hiff.mp hlt)]

namespace Reception

variable {junk : Junk} {chunk : Bytes} {r r' : Reception}

theorem makesRoom_of_withRoom {needed : ℕ} (hneeded : needed ≤ 4611686018427387904)
    (hsize : r.mem.response.bufferSize < UInt64.size)
    (h : r.withRoom junk needed = some r') :
  r.MakesRoom junk (UInt64.ofNat needed) r' ∧ r'.mem.response.bufferSize < UInt64.size
  := by
  have hiff : UInt64.ofNat r.mem.response.bufferSize < UInt64.ofNat needed
      ↔ r.mem.response.bufferSize < needed := by
    rw [UInt64.lt_iff_toNat_lt, UInt64.toNat_ofNat_of_lt' hsize, UInt64.toNat_ofNat_of_lt']
    rw [UInt64.size]
    omega
  rw [withRoom] at h
  split_ifs at h with hsmall
  · obtain ⟨size, hgrow, h⟩ := Option.bind_eq_some_iff.mp h
    obtain ⟨⟨data, heap⟩, hrealloc, h⟩ := Option.bind_eq_some_iff.mp h
    cases h
    obtain ⟨hends, hbound⟩ := ends_growTurn hneeded hsmall hgrow
    have hsize' : size < UInt64.size := by
      rw [UInt64.size]
      omega
    refine ⟨?_, hsize'⟩
    rw [← UInt64.toNat_ofNat_of_lt' hsize'] at hrealloc
    have hroom := MakesRoom.resize (hiff.mpr hsmall) (UInt64.ofNat size) hends data heap hrealloc
    rw [UInt64.toNat_ofNat_of_lt' hsize'] at hroom
    apply hroom
  · cases h
    exact ⟨.enough (mt hiff.mp hsmall), hsize⟩

/-- The callback does what it does with numbers for sizes, as long as these are small. -/
theorem writes_of_writeDataCallback
    (hneeded : r.mem.response.bufferPos + chunk.length + 1 ≤ 4611686018427387904)
    (hsize : (r.withBuffer junk).mem.response.bufferSize < UInt64.size)
    (h : r.writeDataCallback junk chunk = some r') :
  r.Writes junk chunk (UInt64.ofNat chunk.length) r'
    ∧ r'.mem.response.bufferSize < UInt64.size
  := by
  obtain ⟨-, -, hpos⟩ := r.grows_withBuffer junk
  obtain ⟨q, hroom, hwrite⟩ := Option.bind_eq_some_iff.mp h
  rw [← hpos] at hneeded
  obtain ⟨hmakes, hbound⟩ := makesRoom_of_withRoom hneeded hsize hroom
  rw [← neededSize_eq] at hmakes
  refine ⟨⟨q, hmakes, hwrite, rfl⟩, ?_⟩
  obtain ⟨data, -, hwrite⟩ := Option.bind_eq_some_iff.mp hwrite
  obtain ⟨block, -, hwrite⟩ := Option.bind_eq_some_iff.mp hwrite
  split_ifs at hwrite
  obtain ⟨heap, -, hwrite⟩ := Option.bind_eq_some_iff.mp hwrite
  cases hwrite
  apply hbound

/-! ### What is stored -/

/-- A `WebData` that has received nothing, whatever the static flag is. -/
structure Empty (r : Reception) : Prop where
  response : r.mem.response = ⟨none, 0, 0⟩
  owns : r.heap.Owns r.mem.owned

/-- The string in the buffer, with the byte behind it. -/
def storedBody (r : Reception) : Bytes :=
  r.content.take (r.mem.response.bufferPos + 1)

/-- The buffer holds the body and a NUL behind it, and the position is behind the body. -/
structure Holds (r : Reception) (body : Bytes) : Prop where
  pos : r.mem.response.bufferPos = body.length
  room : r.mem.response.bufferPos < r.mem.response.bufferSize
  storedBody : r.storedBody = stored body

end Reception

/-- A header line that is not a redirect, and announces no length whose successor is no
`int`. -/
def Arrival.Harmless (pcre : Pcre) : Arrival → Prop
  | .header line behind => (text "Location:").isPrefixOf line = false
    ∧ ((text "Content-Length:").isPrefixOf line = true → announced pcre line behind < INT_MAX)
  | .data _ => False

theorem Arrival.Harmless.direct {pcre : Pcre} {arrival : Arrival} (h : arrival.Harmless pcre) :
  arrival.Direct
  := by
  cases arrival with
  | header line behind => apply h.1
  | data chunk => cases h

theorem Arrival.Harmless.announces_lt {pcre : Pcre} {arrival : Arrival}
    (h : arrival.Harmless pcre) {moving : Bool} {n : ℤ} (hn : n ∈ arrival.announces pcre moving) :
  0 < n ∧ n < INT_MAX
  := by
  cases arrival with
  | data chunk => cases h
  | header line behind =>
    rw [announces, h.1, if_neg Bool.false_ne_true] at hn
    split_ifs at hn with hlength
    · cases hn
      exact ⟨hlength.2.1, h.2 hlength.1⟩
    · cases hn

/-- Nothing before any data has been received. -/
theorem Reception.Empty.filled {r : Reception} (h : r.Empty) :
  Filled r ⟨r.isMoveHeader, false⟩ []
  := by
  refine ⟨⟨rfl, ?_, ?_, ?_, h.owns.live, h.owns.nodup⟩, ?_, List.nil_prefix⟩
  · rw [receiver, h.response]
    rfl
  · intro n hn
    rw [receiver, h.response] at hn
    cases hn
  · intro hsome
    rw [receiver, h.response] at hsome
    cases hsome
  · rw [h.response]
    rfl

/-- A new `WebData` has received nothing. -/
theorem Reception.empty_webDataNew (url : Option Bytes) (moving : Bool) (heap : Heap Bytes) :
  (Reception.webDataNew url moving heap).Empty
  := by
  have howns := (filled_webDataNew url moving heap).tracks.owns
  refine ⟨?_, howns.live, howns.nodup⟩
  rw [webDataNew]
  cases url.bind amStrdup with
  | none => rfl
  | some url => rfl

/-- A `WebData` that is cleared has received nothing. -/
theorem Tracks.empty_webDataClear {r r' : Reception} {p : Progress} (h : Tracks r.receiver p)
    (hclear : r.webDataClear = some r') :
  r'.Empty
  := by
  obtain ⟨q, hq, hfilled⟩ := h.exists_webDataClear
  obtain rfl := Option.some.inj (hclear.symm.trans hq)
  have howns := hfilled.tracks.owns
  refine ⟨?_, howns.live, howns.nodup⟩
  obtain ⟨heap, -, hclear⟩ := Option.bind_eq_some_iff.mp hclear
  obtain ⟨heap', -, hclear⟩ := Option.bind_eq_some_iff.mp hclear
  cases hclear
  rfl

/-! ### What the calls keep -/

/-- The buffer begins with what has been received, and its size is a `size_t`. -/
structure Sized (r : Reception) (p : Progress) (received : Bytes) : Prop
    extends Filled r p received where
  size : r.content.length < UInt64.size

section Calls

variable {pcre : Pcre} (hpcre : pcre.Lists) {junk : Junk} {r r' : Reception} {p : Progress}
  {received chunk : Bytes}

theorem Tracks.length_content (h : Tracks r.receiver p) {n : ℕ}
    (hn : r.mem.response.data = some n) :
  r.content.length = r.mem.response.bufferSize
  := by
  have hread := h.intact n hn
  rw [Reception.receiver, Heap.read_map] at hread
  obtain ⟨block, hblock, hlength⟩ := Option.map_eq_some_iff.mp hread
  rw [Reception.content_eq hn hblock, hlength]

theorem Sized.withBuffer (h : Sized r p received) :
  (r.withBuffer junk).mem.response.bufferSize < UInt64.size
  := by
  rw [Reception.withBuffer]
  cases hdata : r.mem.response.data with
  | none =>
    have hsize : DATA_BUFFER_SIZE < UInt64.size := by decide
    apply hsize
  | some n =>
    rw [← h.tracks.length_content hdata]
    apply h.size

include hpcre in
/-- A header line changes no more than the size of the buffer, as long as nothing has been
received. -/
theorem Sized.header (h : Sized r p []) {arrival : Arrival} (hharmless : arrival.Harmless pcre) :
  ∃ r' p', arrival.fill pcre junk r = some r' ∧ Sized r' p' []
  := by
  have hsuits : arrival.Suits pcre p.moving 0 := by
    intro n hn
    have hlt := hharmless.announces_lt hn
    omega
  obtain ⟨r', hrun, hfilled⟩ := @Filled.step pcre hpcre junk _ _ _ _ h.toFilled hharmless.direct
    hsuits
  cases arrival with
  | data chunk => cases hharmless
  | header line behind =>
    refine ⟨r', _, hrun, hfilled, ?_⟩
    obtain ⟨-, hsame, hset⟩ :=
      Reception.content_writeHeaderCallback h.tracks.live hharmless.direct hrun
    cases hlength : (Arrival.header line behind).announces pcre r.isMoveHeader with
    | none =>
      rw [hsame hlength]
      apply h.size
    | some n =>
      obtain ⟨-, -, hsize⟩ := hset n hlength
      have hlt := (hharmless.announces_lt hlength).2
      rw [INT_MAX] at hlt
      rw [UInt64.size]
      omega

include hpcre in
/-- The callback returns, and what it leaves holds the chunk behind what has been received. -/
theorem Sized.data (h : Sized r p received)
    (hlength : (received ++ chunk).length < 4611686018427387904) :
  ∃ r' p', (Arrival.data chunk).fill pcre junk r = some r'
    ∧ r.Writes junk chunk (UInt64.ofNat chunk.length) r'
    ∧ Sized r' p' (received ++ chunk) ∧ r'.Holds (received ++ chunk)
  := by
  obtain ⟨r', hrun, htracks⟩ := @Tracks.fill pcre hpcre junk r p (.data chunk) h.tracks trivial
  obtain ⟨hpos, hstored⟩ := h.writeDataCallback hrun
  have hneeded : r.mem.response.bufferPos + chunk.length + 1 ≤ 4611686018427387904 := by
    rw [h.pos, ← List.length_append]
    apply Nat.succ_le_of_lt hlength
  obtain ⟨hwrites, hsize⟩ := Reception.writes_of_writeDataCallback hneeded h.withBuffer hrun
  obtain ⟨n, hn⟩ := Option.isSome_iff_exists.mp htracks.buffered
  have hcontent := htracks.length_content hn
  have hroom := hstored.length_le
  rw [stored, List.length_append, List.length_singleton, hcontent, ← hpos] at hroom
  refine ⟨r', _, hrun, hwrites, ⟨⟨htracks, hpos, ?_⟩, ?_⟩, hpos, hroom, ?_⟩
  · apply (List.prefix_append _ _).trans hstored
  · rw [hcontent]
    apply hsize
  · have hlength : (stored (received ++ chunk)).length = r'.mem.response.bufferPos + 1 := by
      rw [hpos, stored, List.length_append]
      rfl
    rw [Reception.storedBody, ← hlength]
    apply (List.prefix_iff_eq_take.mp hstored).symm

include hpcre in
theorem Sized.headers (h : Sized r p []) {headers : List Arrival}
    (hheaders : ∀ arrival ∈ headers, arrival.Harmless pcre) :
  ∃ r' p', receiveBytes pcre junk headers r = some r' ∧ Sized r' p' []
  := by
  induction headers generalizing r p with
  | nil => exact ⟨r, p, rfl, h⟩
  | cons arrival headers ih =>
    rw [List.forall_mem_cons] at hheaders
    obtain ⟨r₁, p₁, hfirst, h₁⟩ := @Sized.header pcre hpcre junk r p h arrival hheaders.1
    obtain ⟨r₂, p₂, hrest, h₂⟩ := ih h₁ hheaders.2
    refine ⟨r₂, p₂, ?_, h₂⟩
    rw [receiveBytes, List.foldlM_cons, hfirst]
    apply hrest

include hpcre in
theorem Sized.chunks (h : Sized r p received) {chunks : List Bytes}
    (hlength : (received ++ chunks.flatten).length < 4611686018427387904) :
  ∃ r' p', receiveBytes pcre junk (chunks.map .data) r = some r'
    ∧ Sized r' p' (received ++ chunks.flatten)
  := by
  induction chunks generalizing r p received with
  | nil =>
    rw [List.flatten_nil, List.append_nil]
    exact ⟨r, p, rfl, h⟩
  | cons chunk chunks ih =>
    rw [List.flatten_cons, ← List.append_assoc] at hlength ⊢
    have hfirst : (received ++ chunk).length < 4611686018427387904 := by
      rw [List.length_append] at hlength
      omega
    obtain ⟨r₁, p₁, hrun, -, h₁, -⟩ := @Sized.data pcre hpcre junk r p received chunk h hfirst
    obtain ⟨r₂, p₂, hrest, h₂⟩ := ih h₁ hlength
    refine ⟨r₂, p₂, ?_, h₂⟩
    rw [receiveBytes, List.map_cons, List.foldlM_cons, hrun]
    apply hrest

end Calls

/-- Each call of the callback returns, and what it leaves holds the chunks so far. -/
theorem exists_holds {pcre : Pcre} (hpcre : pcre.Lists) (junk : Junk) {r : Reception}
    (hempty : r.Empty) {headers : List Arrival}
    (hheaders : ∀ arrival ∈ headers, arrival.Harmless pcre) {before : List Bytes} {chunk : Bytes}
    (hlength : (before ++ [chunk]).flatten.length < 4611686018427387904) :
  ∃ r₁ r₂, receiveBytes pcre junk (headers ++ before.map .data) r = some r₁
    ∧ r₁.Writes junk chunk (UInt64.ofNat chunk.length) r₂
    ∧ receiveBytes pcre junk (headers ++ (before ++ [chunk]).map .data) r = some r₂
    ∧ r₂.Holds (before ++ [chunk]).flatten
  := by
  have hsized : Sized r ⟨r.isMoveHeader, false⟩ [] := by
    have hcontent : r.content = [] := by rw [Reception.content, hempty.response]
    refine ⟨hempty.filled, ?_⟩
    rw [hcontent]
    decide
  obtain ⟨q, p, hheader, hsized⟩ := @Sized.headers pcre hpcre junk r _ hsized headers hheaders
  rw [List.flatten_append, List.flatten_singleton] at hlength ⊢
  have hbefore : before.flatten.length < 4611686018427387904 := by
    rw [List.length_append] at hlength
    omega
  obtain ⟨r₁, p₁, hchunks, hsized⟩ := @Sized.chunks pcre hpcre junk q p [] hsized before hbefore
  obtain ⟨r₂, p₂, hchunk, hwrites, -, hholds⟩ :=
    @Sized.data pcre hpcre junk r₁ p₁ _ chunk hsized hlength
  have hrun : receiveBytes pcre junk (headers ++ before.map .data) r = some r₁ := by
    rw [receiveBytes_append, hheader]
    apply hchunks
  refine ⟨r₁, r₂, hrun, hwrites, ?_, hholds⟩
  rw [List.map_append, List.map_singleton, ← List.append_assoc, receiveBytes_concat, hrun]
  apply hchunk

/-- Whatever lengths the header lines announce, and whatever the static flag is, each call of
`writeDataCallback` for chunks of less than `2 ^ 62` bytes in all returns the length of its
chunk.  The buffer then holds the chunks so far in order, with a NUL behind them, and is
larger than that; so it holds the same as if no header line had come. -/
theorem writeDataCallback_body {pcre : Pcre} (hpcre : pcre.Lists) (junk : Junk) {r : Reception}
    (hempty : r.Empty) {headers : List Arrival}
    (hheaders : ∀ arrival ∈ headers, arrival.Harmless pcre) {chunks : List Bytes}
    (hlength : chunks.flatten.length < 4611686018427387904) (before : List Bytes) (chunk : Bytes)
    (hbefore : before ++ [chunk] <+: chunks) :
  ∃ r₁ r₂, receiveBytes pcre junk (headers ++ before.map .data) r = some r₁
    ∧ (∀ lineLen r', r₁.Writes junk chunk lineLen r'
      ↔ lineLen = UInt64.ofNat chunk.length ∧ r' = r₂)
    ∧ receiveBytes pcre junk (headers ++ (before ++ [chunk]).map .data) r = some r₂
    ∧ r₂.Holds (before ++ [chunk]).flatten
    ∧ ∃ q, receiveBytes pcre junk ((before ++ [chunk]).map .data) r = some q
      ∧ q.storedBody = r₂.storedBody
  := by
  obtain ⟨after, rfl⟩ := hbefore
  have hshort : (before ++ [chunk]).flatten.length < 4611686018427387904 := by
    rw [List.flatten_append, List.length_append] at hlength
    omega
  obtain ⟨r₁, r₂, hrun, hwrites, hrun', hholds⟩ := exists_holds hpcre junk hempty hheaders hshort
  obtain ⟨-, q, -, -, hwithout, hsame⟩ :=
    exists_holds hpcre junk hempty (List.forall_mem_nil _) hshort
  refine ⟨r₁, r₂, hrun, ?_, hrun', hholds, q, hwithout, ?_⟩
  · intro lineLen r'
    constructor
    · intro h
      apply h.unique hwrites
    · rintro ⟨rfl, rfl⟩
      apply hwrites
  · rw [hsame.storedBody, hholds.storedBody]

/-- Of five bytes two are announced. -/
theorem writeDataCallback_body_short :
  ∃ r₁ r₂, receiveBytes headerPcre (fun _ _ => 7)
      ([headerLine "Content-Length: 2", headerLine ""] ++ [text "ab", []].map .data)
      (.webDataNew (some (text "u")) false .empty) = some r₁
    ∧ (∀ lineLen r', r₁.Writes (fun _ _ => 7) (text "cde") lineLen r'
      ↔ lineLen = UInt64.ofNat (text "cde").length ∧ r' = r₂)
    ∧ receiveBytes headerPcre (fun _ _ => 7)
      ([headerLine "Content-Length: 2", headerLine ""]
        ++ ([text "ab", []] ++ [text "cde"]).map .data)
      (.webDataNew (some (text "u")) false .empty) = some r₂
    ∧ r₂.Holds ([text "ab", []] ++ [text "cde"]).flatten
    ∧ ∃ q, receiveBytes headerPcre (fun _ _ => 7) (([text "ab", []] ++ [text "cde"]).map .data)
        (.webDataNew (some (text "u")) false .empty) = some q
      ∧ q.storedBody = r₂.storedBody
  := by
  have hheaders : ∀ arrival ∈ [headerLine "Content-Length: 2", headerLine ""],
      arrival.Harmless headerPcre := by
    rw [List.forall_mem_cons, List.forall_mem_singleton]
    exact ⟨⟨rfl, by decide⟩, ⟨rfl, by decide⟩⟩
  have hlength :
      ([text "ab", [], text "cde"] : List Bytes).flatten.length < 4611686018427387904 := by decide
  apply writeDataCallback_body lists_headerPcre _ (Reception.empty_webDataNew _ _ _) hheaders
    hlength
  apply List.prefix_refl

end Trailermatic
