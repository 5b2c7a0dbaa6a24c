import Trailermatic.Body

/-!
# The response of a transfer

After a transfer, `getHTTPData` and `sendHTTPData` make a copy of what the buffer holds, with
a function that is meant for C strings: it gives `NULL` where the first byte is a NUL.
`response_carries_body_iff` says for which exchanges the response has the body.
-/

namespace Trailermatic

/-- What the caller gets: the data is the content of its block. -/
structure FullResponse where
  responseCode : ℤ
  size : ℕ
  data : Option Bytes
  contentFilename : Option Str
deriving DecidableEq

/-- What libcurl does for a request: whether it gives a handle, the calls that it makes, the
result of the transfer, which is 0 for success, and the status. -/
structure Exchange where
  curlInit : Bool
  arrivals : List Arrival
  res : ℤ
  responseCode : ℤ

/-- `am_strndup` of a block, with a length that is an `int`.  There is no value where a byte
outside of the block is read, or where `len + 1` is no `int`. -/
def strndupBlock (block : Bytes) (len : ℤ) : Option (Option Bytes) := do
  let first ← block.head?
  if first = 0 then return none
  else if 0 ≤ len ∧ len < INT_MAX ∧ len ≤ block.length then
    return some (stored (block.take len.toNat))
  else none

namespace Reception

/-- The name of the file, which is copied as a C string. -/
def filename (r : Reception) : Option (Option Str) :=
  match r.mem.contentFilename with
  | none => some none
  | some n => (r.heap.read n).map amStrdup

/-- Copy what a transfer has left.  The size is a `size_t` and the length of the copy an
`int`. -/
def response (responseCode : ℤ) (r : Reception) : Option FullResponse := do
  let filename ← r.filename
  match r.mem.response.data with
  | none => return ⟨responseCode, 0, none, filename⟩
  | some n =>
    let size := r.mem.response.bufferPos
    let block ← r.heap.read n
    let data ← strndupBlock block (Int.bmod size 4294967296)
    return ⟨responseCode, size, data, filename⟩

end Reception

namespace Exchange

/-- Request `url`.  The static flag of the header callback is what the transfer before left. -/
def getHttpData (pcre : Pcre) (junk : Junk) (exchange : Exchange) (url : Option Bytes)
    (isMoveHeader : Bool) (heap : Heap Bytes) : Option (Option FullResponse) :=
  match url with
  | none => some none
  | some url => do
    let r := Reception.webDataNew (some url) isMoveHeader heap
    if exchange.curlInit then
      let r ← receiveBytes pcre junk exchange.arrivals r
      let response ← if exchange.res ≠ 0 then some none
        else (r.response exchange.responseCode).map some
      let _ ← r.webDataFree
      return response
    else
      let _ ← r.webDataFree
      return none

/-- The loop of `sendHTTPData`, with what libcurl does by the number of tries left. -/
def sendTries (pcre : Pcre) (junk : Junk) (exchanges : ℕ → Exchange) :
    ℕ → Reception → Option (Option FullResponse × Reception)
  | 0, r => some (none, r)
  | tries + 1, r => do
    let r ← r.webDataClear
    if (exchanges tries).curlInit then
      let r ← receiveBytes pcre junk (exchanges tries).arrivals r
      if (exchanges tries).res ≠ 0 then return (none, r)
      else if (exchanges tries).responseCode = 409 then sendTries pcre junk exchanges tries r
      else
        let response ← r.response (exchanges tries).responseCode
        return (some response, r)
    else return (none, r)

/-- The loop, and what comes after it. -/
def sendFrom (pcre : Pcre) (junk : Junk) (exchanges : ℕ → Exchange) (tries : ℕ) (r : Reception) :
    Option (Option FullResponse) := do
  let (response, r) ← sendTries pcre junk exchanges tries r
  let _ ← r.webDataFree
  return response

/-- Send a form and receive the answer, with at most two tries. -/
def sendHttpData (pcre : Pcre) (junk : Junk) (exchanges : ℕ → Exchange) (url data : Option Bytes)
    (isMoveHeader : Bool) (heap : Heap Bytes) : Option (Option FullResponse) :=
  match url, data with
  | some url, some _ =>
    sendFrom pcre junk exchanges 2 (Reception.webDataNew (some url) isMoveHeader heap)
  | _, _ => some none

end Exchange

/-! ### The body -/

/-- The data of a call. -/
def Arrival.chunk : Arrival → Bytes
  | .header _ _ => []
  | .data chunk => chunk

/-- What the chunks hold together. -/
def bodyOf (arrivals : List Arrival) : Bytes :=
  arrivals.flatMap Arrival.chunk

/-- The call does not announce a length whose successor is no `int`, and none that is too
small for what has been received. -/
def Arrival.Suits (pcre : Pcre) (moving : Bool) (received : ℕ) (arrival : Arrival) : Prop :=
  ∀ n ∈ arrival.announces pcre moving, n ≠ INT_MAX ∧ (received : ℤ) ≤ n + 1

/-- All calls suit what they find. -/
def AllSuit (pcre : Pcre) (moving : Bool) (arrivals : List Arrival) : Prop :=
  Simulation.Throughout (fun before arrival =>
    arrival.Suits pcre (progress pcre moving before).moving (bodyOf before).length) arrivals

/-- All calls are allowed. -/
def AllAllowed (pcre : Pcre) (moving : Bool) (arrivals : List Arrival) : Prop :=
  Simulation.Throughout
    (fun before arrival => arrival.Allowed pcre (progress pcre moving before)) arrivals

namespace Exchange

variable (t : Exchange)

/-- The body of the transfer. -/
def body : Bytes :=
  bodyOf t.arrivals

/-- A successful transfer without a redirect. -/
structure Plain : Prop where
  curlInit : t.curlInit = true
  res : t.res = 0
  direct : ∀ arrival ∈ t.arrivals, arrival.Direct

/-- The response has the whole body. -/
def Carried (result : Option (Option FullResponse)) : Prop :=
  ∃ response, result = some (some response) ∧ response.size = t.body.length
    ∧ response.data = some (stored t.body)

/-- The body does not begin with a NUL, and what the header announces suits it. -/
def Fits (pcre : Pcre) (moving : Bool) : Prop :=
  t.body.head? ≠ some 0 ∧ AllSuit pcre moving t.arrivals

end Exchange

/-! ### What the calls keep -/

section Calls

variable {pcre : Pcre} (hpcre : pcre.Lists) {junk : Junk} {r r' : Reception} {p : Progress}
  {moving : Bool} {arrival : Arrival} {arrivals : List Arrival}

theorem Tracks.live (h : Tracks r.receiver p) :
  ∀ n ∈ r.mem.response.data, (r.heap.read n).isSome
  := by
  intro n hn
  have hread := h.intact n hn
  rw [Reception.receiver, Heap.read_map] at hread
  obtain ⟨block, hblock, -⟩ := Option.map_eq_some_iff.mp hread
  rw [hblock]
  rfl

/-- A call that does not redirect and does not fault is allowed. -/
theorem Tracks.allowed_of_run (h : Tracks r.receiver p) (hdirect : arrival.Direct)
    (hrun : arrival.fill pcre junk r = some r') :
  arrival.Allowed pcre p
  := by
  have hcall := receiver_fill pcre junk r arrival
  rw [hrun] at hcall
  cases arrival with
  | data chunk => trivial
  | header line behind =>
    rw [Arrival.Direct] at hdirect
    rw [Arrival.Allowed, hdirect, if_neg Bool.false_ne_true]
    split_ifs with hlength
    · intro hmoving
      apply h.announced_ne hlength hdirect hmoving hcall.symm

include hpcre in
/-- The bytes do not matter for whether a call faults. -/
theorem Tracks.fill (h : Tracks r.receiver p) (hallowed : arrival.Allowed pcre p) :
  ∃ r', arrival.fill pcre junk r = some r' ∧ Tracks r'.receiver (arrival.apply pcre p)
  := by
  obtain ⟨q, hq, htracks⟩ := h.step hpcre hallowed
  rw [← receiver_fill pcre junk] at hq
  obtain ⟨r', hr', rfl⟩ := Option.map_eq_some_iff.mp hq
  exact ⟨r', hr', htracks⟩

include hpcre in
theorem Tracks.of_fill (h : Tracks r.receiver p) (hdirect : arrival.Direct)
    (hrun : arrival.fill pcre junk r = some r') :
  Tracks r'.receiver (arrival.apply pcre p)
  := by
  obtain ⟨q, hq, htracks⟩ := h.fill hpcre (h.allowed_of_run hdirect hrun)
  cases hrun.symm.trans hq
  apply htracks

end Calls

/-- The buffer begins with what has been received. -/
structure Filled (r : Reception) (p : Progress) (received : Bytes) : Prop where
  tracks : Tracks r.receiver p
  pos : r.mem.response.bufferPos = received.length
  holds : received <+: r.content

/-- At a place in what has been received, the buffer has no byte, or the byte `c`. -/
structure Torn (r : Reception) (p : Progress) (k : ℕ) (c : Byte) : Prop where
  tracks : Tracks r.receiver p
  pos : k < r.mem.response.bufferPos
  torn : ∀ b, r.content[k]? = some b → b = c

section Steps

variable {pcre : Pcre} (hpcre : pcre.Lists) {junk : Junk} {r r' : Reception} {p : Progress}
  {arrival : Arrival} {received : Bytes}

theorem Arrival.Suits.allowed (hdirect : arrival.Direct)
    (h : arrival.Suits pcre p.moving received.length) :
  arrival.Allowed pcre p
  := by
  cases arrival with
  | data chunk => trivial
  | header line behind =>
    rw [Arrival.Direct] at hdirect
    rw [Arrival.Allowed, hdirect, if_neg Bool.false_ne_true]
    split_ifs with hlength
    · intro hmoving hmax
      have hpos : 0 < announced pcre line behind := by
        rw [hmax]
        decide
      apply (h (announced pcre line behind) _).1 hmax
      rw [Arrival.announces, hdirect, if_neg Bool.false_ne_true, if_pos ⟨hlength, hpos, hmoving⟩]
      rfl

/-- A chunk is put behind what has been received, and a NUL behind the chunk. -/
theorem Filled.writeDataCallback (h : Filled r p received) {chunk : Bytes}
    (hrun : r.writeDataCallback junk chunk = some r') :
  r'.mem.response.bufferPos = (received ++ chunk).length
    ∧ stored (received ++ chunk) <+: r'.content
  := by
  obtain ⟨grown, hgrows, hroom, hcontent, hpos⟩ := Reception.content_writeDataCallback hrun
  rw [h.pos] at hroom hcontent hpos
  have hinitial := hgrows.initial h.holds (by omega)
  rw [← List.prefix_iff_eq_take.mp hinitial] at hcontent
  constructor
  · rw [hpos, List.length_append]
  · use grown.drop (received.length + chunk.length + 1)
    rw [hcontent, stored, List.append_assoc, List.append_assoc, List.singleton_append]

include hpcre in
/-- A call that suits what has been received keeps it, and puts its data behind it. -/
theorem Filled.step (h : Filled r p received) (hdirect : arrival.Direct)
    (hsuits : arrival.Suits pcre p.moving received.length) :
  ∃ r', arrival.fill pcre junk r = some r'
    ∧ Filled r' (arrival.apply pcre p) (received ++ arrival.chunk)
  := by
  obtain ⟨r', hrun, htracks⟩ := @Tracks.fill pcre hpcre junk r p arrival h.tracks
    (hsuits.allowed hdirect)
  have hmoving : r.isMoveHeader = p.moving := h.tracks.moving
  suffices hkeeps : r'.mem.response.bufferPos = (received ++ arrival.chunk).length
      ∧ received ++ arrival.chunk <+: r'.content from
    ⟨r', hrun, htracks, hkeeps.1, hkeeps.2⟩
  cases arrival with
  | data chunk =>
    obtain ⟨hpos, hstored⟩ := h.writeDataCallback hrun
    exact ⟨hpos, (List.prefix_append _ _).trans hstored⟩
  | header line behind =>
    obtain ⟨hpos, hsame, hset⟩ :=
      Reception.content_writeHeaderCallback h.tracks.live hdirect hrun
    rw [hmoving] at hsame hset
    rw [Arrival.chunk, List.append_nil]
    refine ⟨hpos.trans h.pos, ?_⟩
    cases hlength : (Arrival.header line behind).announces pcre p.moving with
    | none =>
      rw [hsame hlength]
      apply h.holds
    | some n =>
      obtain ⟨-, hgrows, hsize⟩ := hset n hlength
      have hfits := (hsuits n hlength).2
      apply hgrows.initial h.holds (by omega)

include hpcre in
/-- What is torn stays torn. -/
theorem Torn.step {k : ℕ} {c : Byte} (h : Torn r p k c) (hdirect : arrival.Direct)
    (hrun : arrival.fill pcre (fun _ _ => c) r = some r') :
  Torn r' (arrival.apply pcre p) k c
  := by
  suffices hkeeps : k < r'.mem.response.bufferPos ∧ ∀ b, r'.content[k]? = some b → b = c from
    ⟨h.tracks.of_fill hpcre hdirect hrun, hkeeps.1, hkeeps.2⟩
  have hk := h.pos
  have hgrown {new : Bytes} (hgrows : Grows (fun _ _ => c) r.content new) :
      ∀ b, new[k]? = some b → b = c := by
    intro b hb
    rcases hgrows k b hb with hold | ⟨-, _, _, hjunk⟩
    · apply h.torn b hold
    · apply hjunk.symm
  cases arrival with
  | data chunk =>
    obtain ⟨grown, hgrows, hroom, hcontent, hpos⟩ := Reception.content_writeDataCallback hrun
    have hlt : k < (grown.take r.mem.response.bufferPos).length := by
      rw [List.length_take]
      omega
    rw [hcontent, hpos, List.getElem?_append_left hlt, List.getElem?_take_of_lt hk]
    exact ⟨by omega, hgrown hgrows⟩
  | header line behind =>
    obtain ⟨hpos, hsame, hset⟩ :=
      Reception.content_writeHeaderCallback h.tracks.live hdirect hrun
    rw [hpos]
    refine ⟨hk, ?_⟩
    cases hlength : (Arrival.header line behind).announces pcre r.isMoveHeader with
    | none =>
      rw [hsame hlength]
      apply h.torn
    | some n => exact hgrown (hset n hlength).2.1

include hpcre in
/-- A call that does not suit what has been received faults, or tears it. -/
theorem exists_tear (hdirect : arrival.Direct)
    (hsuits : ¬ arrival.Suits pcre p.moving received.length) :
  ∃ k, ∀ {c r r'}, Filled r p received → arrival.fill pcre (fun _ _ => c) r = some r' →
    Torn r' (arrival.apply pcre p) k c
  := by
  simp only [Arrival.Suits, Classical.not_forall, not_and, Int.not_le] at hsuits
  obtain ⟨n, hannounces, hshort⟩ := hsuits
  use (n + 1).toNat
  intro c r r' h hrun
  have hmoving : r.isMoveHeader = p.moving := h.tracks.moving
  cases arrival with
  | data chunk => cases hannounces
  | header line behind =>
    obtain ⟨hpos, -, hset⟩ := Reception.content_writeHeaderCallback h.tracks.live hdirect hrun
    rw [hmoving] at hset
    obtain ⟨hmax, -, hsize⟩ := hset n hannounces
    have hless := hshort hmax
    refine ⟨h.tracks.of_fill hpcre hdirect hrun, ?_, ?_⟩
    · rw [hpos, h.pos]
      omega
    · intro b hb
      obtain ⟨hlt, -⟩ := List.getElem?_eq_some_iff.mp hb
      omega

end Steps

/-! ### Transfers -/

section Transfers

variable {pcre : Pcre} (hpcre : pcre.Lists) {junk : Junk} {r r' : Reception} {p : Progress}
  {moving : Bool} {arrivals : List Arrival}

theorem progress_concat (pcre : Pcre) (moving : Bool) (arrivals : List Arrival)
    (arrival : Arrival) :
  progress pcre moving (arrivals ++ [arrival])
    = arrival.apply pcre (progress pcre moving arrivals)
  := by
  rw [progress, List.foldl_append]
  rfl

theorem bodyOf_concat (arrivals : List Arrival) (arrival : Arrival) :
  bodyOf (arrivals ++ [arrival]) = bodyOf arrivals ++ arrival.chunk
  := by
  rw [bodyOf, List.flatMap_append, List.flatMap_singleton]
  rfl

theorem receiveBytes_concat (pcre : Pcre) (junk : Junk) (arrivals : List Arrival)
    (arrival : Arrival) (r : Reception) :
  receiveBytes pcre junk (arrivals ++ [arrival]) r
    = (receiveBytes pcre junk arrivals r).bind fun r => arrival.fill pcre junk r
  := by
  simp [receiveBytes, List.foldlM_append]

theorem receiveBytes_append (pcre : Pcre) (junk : Junk) (arrivals after : List Arrival)
    (r : Reception) :
  receiveBytes pcre junk (arrivals ++ after) r
    = (receiveBytes pcre junk arrivals r).bind (receiveBytes pcre junk after)
  := by
  rw [receiveBytes, List.foldlM_append]
  rfl

include hpcre in
/-- A transfer whose calls are all allowed runs. -/
theorem Tracks.receiveBytes (h : Tracks r.receiver ⟨moving, false⟩)
    (hallowed : AllAllowed pcre moving arrivals) :
  ∃ r', Trailermatic.receiveBytes pcre junk arrivals r = some r'
    ∧ Tracks r'.receiver (progress pcre moving arrivals)
  := by
  obtain ⟨q, hq, htracks⟩ := (receiving hpcre).exists_run h hallowed
  have hrun : receive pcre arrivals r.receiver = some q := hq
  rw [← receiver_receiveBytes pcre junk] at hrun
  obtain ⟨r', hr', rfl⟩ := Option.map_eq_some_iff.mp hrun
  exact ⟨r', hr', htracks⟩

include hpcre in
/-- The calls of a transfer that runs and is not redirected are all allowed. -/
theorem Tracks.of_receiveBytes (h : Tracks r.receiver ⟨moving, false⟩)
    (hdirect : ∀ arrival ∈ arrivals, arrival.Direct)
    (hrun : Trailermatic.receiveBytes pcre junk arrivals r = some r') :
  Tracks r'.receiver (progress pcre moving arrivals) ∧ AllAllowed pcre moving arrivals
  := by
  induction arrivals using List.reverseRecOn generalizing r' with
  | nil =>
    cases hrun
    exact ⟨h, Simulation.throughout_nil⟩
  | append_singleton arrivals arrival ih =>
    rw [List.forall_mem_append] at hdirect
    rw [receiveBytes_concat] at hrun
    obtain ⟨r₁, hbefore, hlast⟩ := Option.bind_eq_some_iff.mp hrun
    obtain ⟨htracks, hallowed⟩ := ih hdirect.1 hbefore
    have hdirect' := hdirect.2 arrival (List.mem_singleton_self arrival)
    rw [progress_concat, AllAllowed, Simulation.throughout_concat]
    exact ⟨htracks.of_fill hpcre hdirect' hlast, hallowed, htracks.allowed_of_run hdirect' hlast⟩

include hpcre in
/-- A transfer whose calls all suit what they find fills the buffer with the body. -/
theorem Filled.receiveBytes (h : Filled r ⟨moving, false⟩ [])
    (hdirect : ∀ arrival ∈ arrivals, arrival.Direct) (hsuits : AllSuit pcre moving arrivals) :
  ∃ r', Trailermatic.receiveBytes pcre junk arrivals r = some r'
    ∧ Filled r' (progress pcre moving arrivals) (bodyOf arrivals)
  := by
  induction arrivals using List.reverseRecOn with
  | nil => exact ⟨r, rfl, h⟩
  | append_singleton arrivals arrival ih =>
    rw [List.forall_mem_append] at hdirect
    rw [AllSuit, Simulation.throughout_concat] at hsuits
    obtain ⟨r₁, hbefore, hfilled⟩ := ih hdirect.1 hsuits.1
    obtain ⟨r', hlast, hfilled'⟩ := @Filled.step pcre hpcre junk _ _ _ _ hfilled
      (hdirect.2 arrival (List.mem_singleton_self arrival)) hsuits.2
    rw [receiveBytes_concat, progress_concat, bodyOf_concat, hbefore]
    exact ⟨r', hlast, hfilled'⟩

include hpcre in
theorem Torn.receiveBytes {k : ℕ} {c : Byte} (h : Torn r p k c)
    (hdirect : ∀ arrival ∈ arrivals, arrival.Direct)
    (hrun : Trailermatic.receiveBytes pcre (fun _ _ => c) arrivals r = some r') :
  ∃ p', Torn r' p' k c
  := by
  induction arrivals generalizing r p with
  | nil =>
    cases hrun
    exact ⟨p, h⟩
  | cons arrival arrivals ih =>
    rw [List.forall_mem_cons] at hdirect
    obtain ⟨r₁, hfirst, hrest⟩ := Option.bind_eq_some_iff.mp hrun
    apply ih (h.step hpcre hdirect.1 hfirst) hdirect.2 hrest

include hpcre in
/-- A transfer of which a call does not suit what it finds faults, or tears the body. -/
theorem exists_torn (hdirect : ∀ arrival ∈ arrivals, arrival.Direct)
    (hsuits : ¬ AllSuit pcre moving arrivals) :
  ∃ k, ∀ {c r r'}, Filled r ⟨moving, false⟩ [] →
    receiveBytes pcre (fun _ _ => c) arrivals r = some r' → ∃ p, Torn r' p k c
  := by
  obtain ⟨before, call, after, rfl, hbefore, hcall⟩ := Simulation.exists_first hsuits
  rw [List.forall_mem_append, List.forall_mem_cons] at hdirect
  obtain ⟨k, htear⟩ := exists_tear hpcre hdirect.2.1 hcall
  use k
  intro c r r' h hrun
  rw [receiveBytes_append] at hrun
  obtain ⟨r₁, hfill, hfilled⟩ := h.receiveBytes hpcre hdirect.1 hbefore
  rw [hfill, Option.bind_some] at hrun
  obtain ⟨r₂, hfirst, hrest⟩ := Option.bind_eq_some_iff.mp hrun
  apply (htear hfilled hfirst).receiveBytes hpcre hdirect.2.2 hrest

end Transfers

/-! ### The response -/

/-- The response that is made of what a transfer has left has the whole body. -/
def Reception.Carries (r : Reception) (responseCode : ℤ) (body : Bytes) : Prop :=
  ∃ response, r.response responseCode = some response ∧ response.size = body.length
    ∧ response.data = some (stored body)

theorem bmod_length {body : Bytes} (h : body.length < INT_MAX) :
  Int.bmod body.length 4294967296 = body.length
  := by
  rw [INT_MAX] at h
  rw [Int.bmod_def]
  omega

/-- The copy of a block begins it, and is none where the block begins with a NUL. -/
theorem strndupBlock_iff {body block : Bytes} (hne : body ≠ []) (h : body.length < INT_MAX) :
  strndupBlock block body.length = some (some (stored body))
    ↔ body <+: block ∧ body.head? ≠ some 0
  := by
  have hhead : body <+: block → body.head? = block.head? := by
    rintro ⟨rest, rfl⟩
    rw [List.head?_append_of_ne_nil body hne]
  rw [strndupBlock]
  cases hfirst : block.head? with
  | none =>
    refine iff_of_false nofun ?_
    rintro ⟨hinitial, -⟩
    rw [hfirst, List.head?_eq_none_iff] at hhead
    apply hne (hhead hinitial)
  | some first =>
    simp only [Option.bind_eq_bind, Option.bind_some]
    split_ifs with hnul hroom
    · refine iff_of_false nofun ?_
      rintro ⟨hinitial, hbody⟩
      apply hbody
      rw [hhead hinitial, hfirst, hnul]
    · rw [Int.toNat_natCast, Option.pure_def, Option.some_inj, Option.some_inj, stored, stored,
        List.append_left_inj, List.prefix_iff_eq_take, eq_comm]
      constructor
      · intro hinitial
        refine ⟨hinitial, ?_⟩
        rw [hhead (List.prefix_iff_eq_take.mpr hinitial), hfirst]
        rintro ⟨⟩
        apply hnul rfl
      · rintro ⟨hinitial, -⟩
        apply hinitial
    · refine iff_of_false nofun ?_
      rintro ⟨hinitial, -⟩
      have hle := hinitial.length_le
      omega

theorem Tracks.exists_filename {r : Reception} {p : Progress} (h : Tracks r.receiver p) :
  ∃ name, r.filename = some name
  := by
  rw [Reception.filename]
  cases hname : r.mem.contentFilename with
  | none => exact ⟨none, rfl⟩
  | some n =>
    have hmem : n ∈ r.receiver.mem.owned := by
      rw [WebData.owned, Reception.receiver, hname]
      simp
    obtain ⟨block, hread⟩ := @Heap.exists_read _ r.heap n (h.owns.live n hmem)
    simp only [hread]
    exact ⟨amStrdup block, rfl⟩

/-- The response carries the body exactly when the buffer begins with it, and it does not begin
with a NUL. -/
theorem Tracks.carries_iff {r : Reception} {p : Progress} (h : Tracks r.receiver p)
    {body : Bytes} (hne : body ≠ []) (hlength : body.length < INT_MAX) (responseCode : ℤ) :
  r.Carries responseCode body
    ↔ r.mem.response.bufferPos = body.length ∧ body <+: r.content ∧ body.head? ≠ some 0
  := by
  obtain ⟨name, hname⟩ := h.exists_filename
  simp only [Reception.Carries, Reception.response, Reception.content, hname]
  cases hdata : r.mem.response.data with
  | none =>
    apply iff_of_false
    · rintro ⟨response, hresponse, -, hnone⟩
      cases hresponse
      cases hnone
    · rintro ⟨-, hinitial, -⟩
      apply hne (List.prefix_nil.mp hinitial)
  | some n =>
    obtain ⟨block, hread⟩ := Option.isSome_iff_exists.mp (h.live n hdata)
    simp only [hread, Option.bind_eq_bind, Option.bind_some, Option.getD_some]
    rw [← strndupBlock_iff hne hlength]
    constructor
    · rintro ⟨response, hresponse, hsize, hcopy⟩
      obtain ⟨data, hdup, heq⟩ := Option.bind_eq_some_iff.mp hresponse
      cases heq
      simp only at hsize hcopy
      rw [hsize, bmod_length hlength, hcopy] at hdup
      exact ⟨hsize, hdup⟩
    · rintro ⟨hsize, hdup⟩
      rw [hsize, bmod_length hlength, hdup]
      exact ⟨_, rfl, rfl, rfl⟩

section Transfers

variable {pcre : Pcre} (hpcre : pcre.Lists) {moving : Bool} {arrivals : List Arrival}

include hpcre in
/-- Whatever memory holds, the response carries the body: exactly when the body does not begin
with a NUL, and the calls suit what they find. -/
theorem carries_all_iff {start : Junk → Reception}
    (hstart : ∀ junk, Filled (start junk) ⟨moving, false⟩ [])
    (hdirect : ∀ arrival ∈ arrivals, arrival.Direct) (hne : bodyOf arrivals ≠ [])
    (hlength : (bodyOf arrivals).length < INT_MAX) (responseCode : ℤ) :
  (∀ junk, ∃ r, receiveBytes pcre junk arrivals (start junk) = some r
      ∧ r.Carries responseCode (bodyOf arrivals))
    ↔ (bodyOf arrivals).head? ≠ some 0 ∧ AllSuit pcre moving arrivals
  := by
  constructor
  · intro h
    have hcarries (junk : Junk) : ∃ r, receiveBytes pcre junk arrivals (start junk) = some r
        ∧ r.mem.response.bufferPos = (bodyOf arrivals).length ∧ bodyOf arrivals <+: r.content
        ∧ (bodyOf arrivals).head? ≠ some 0 := by
      obtain ⟨r, hrun, hbody⟩ := h junk
      obtain ⟨htracks, -⟩ := (hstart junk).tracks.of_receiveBytes hpcre hdirect hrun
      exact ⟨r, hrun, (htracks.carries_iff hne hlength responseCode).mp hbody⟩
    obtain ⟨-, -, -, -, hhead⟩ := hcarries fun _ _ => 0
    refine ⟨hhead, ?_⟩
    by_contra hsuits
    obtain ⟨k, htorn⟩ := exists_torn hpcre hdirect hsuits
    -- memory that does not hold the byte of the body
    obtain ⟨r, hrun, hpos, hinitial, -⟩ := hcarries fun _ _ => (bodyOf arrivals)[k]?.getD 0 + 1
    obtain ⟨p, h⟩ := htorn (hstart _) hrun
    have hk : k < (bodyOf arrivals).length := by
      rw [← hpos]
      apply h.pos
    have hbyte := h.torn _ (List.prefix_iff_getElem?.mp hinitial k hk)
    rw [List.getElem?_eq_getElem hk, Option.getD_some] at hbyte
    simp at hbyte
  · rintro ⟨hhead, hsuits⟩ junk
    obtain ⟨r, hrun, hfilled⟩ := (hstart junk).receiveBytes hpcre hdirect hsuits
    exact ⟨r, hrun, (hfilled.tracks.carries_iff hne hlength responseCode).mpr
      ⟨hfilled.pos, hfilled.holds, hhead⟩⟩

end Transfers

/-! ### Before and after a transfer -/

theorem filled_webDataNew (url : Option Bytes) (moving : Bool) (heap : Heap Bytes) :
  Filled (Reception.webDataNew url moving heap) ⟨moving, false⟩ []
  := by
  have htracks := tracks_new url moving (heap.map List.length)
  rw [← Reception.receiver_webDataNew] at htracks
  refine ⟨htracks, ?_, List.nil_prefix⟩
  rw [Reception.webDataNew]
  cases url.bind amStrdup with
  | none => rfl
  | some url => rfl

theorem Tracks.exists_webDataFree {r : Reception} {p : Progress} (h : Tracks r.receiver p) :
  ∃ heap, r.webDataFree = some heap
  := by
  obtain ⟨heap, hfree, -⟩ := h.webDataFree
  rw [← Reception.receiver_webDataFree] at hfree
  obtain ⟨heap', hfree', -⟩ := Option.map_eq_some_iff.mp hfree
  exact ⟨heap', hfree'⟩

/-- What a transfer has left can be cleared, and the next one begins with an empty buffer. -/
theorem Tracks.exists_webDataClear {r : Reception} {p : Progress} (h : Tracks r.receiver p) :
  ∃ r', r.webDataClear = some r' ∧ Filled r' ⟨p.moving, false⟩ []
  := by
  have hlive : r.heap.Owns r.mem.owned := ⟨h.owns.live, h.owns.nodup⟩
  have howns : r.heap.Owns
      (r.mem.contentFilename.toList ++ (r.mem.response.data.toList ++ r.mem.url.toList)) := by
    apply hlive.of_perm
    rw [WebData.owned, ← List.append_assoc]
    apply List.perm_append_comm
  obtain ⟨heap₁, hfree₁, howns₁, -⟩ := exists_amFree howns
  obtain ⟨heap₂, hfree₂, howns₂, -⟩ := exists_amFree howns₁
  simp only [Reception.webDataClear, hfree₁, hfree₂, Option.bind_eq_bind, Option.bind_some]
  refine ⟨_, rfl, ⟨h.moving, rfl, ?_, ?_, ?_⟩, rfl, List.nil_prefix⟩
  · intro n hn
    cases hn
  · intro hsome
    cases hsome
  · rw [WebData.owned]
    simp only [Reception.receiver, Option.toList_none, List.append_nil, List.nil_append]
    exact ⟨howns₂.live, howns₂.nodup⟩

section Exchanges

variable {pcre : Pcre} (hpcre : pcre.Lists) {junk : Junk} {t first : Exchange}
  {exchanges : ℕ → Exchange} {tries : ℕ} {r : Reception} {moving : Bool}

namespace Exchange

/-- After a transfer that ran, the response is what is made of it. -/
theorem carried_iff (hfree : ∃ heap, r.webDataFree = some heap) :
  t.Carried (do
      let response ← r.response t.responseCode
      let _ ← r.webDataFree
      return some response)
    ↔ r.Carries t.responseCode t.body
  := by
  obtain ⟨heap, hfree⟩ := hfree
  rw [Carried, Reception.Carries]
  cases r.response t.responseCode with
  | none => simp
  | some response => simp [hfree]

include hpcre in
/-- The response of `getHTTPData` is made of what the transfer leaves. -/
theorem carried_getHttpData_iff (hplain : t.Plain) (url : Bytes) (heap : Heap Bytes) :
  t.Carried (t.getHttpData pcre junk (some url) moving heap)
    ↔ ∃ r, receiveBytes pcre junk t.arrivals (Reception.webDataNew (some url) moving heap) = some r
      ∧ r.Carries t.responseCode t.body
  := by
  have hstart := (filled_webDataNew (some url) moving heap).tracks
  simp only [getHttpData, hplain.curlInit, hplain.res, if_true, ne_eq, not_true_eq_false, if_false]
  cases hrun : receiveBytes pcre junk t.arrivals (Reception.webDataNew (some url) moving heap) with
  | none => simp [Carried]
  | some r =>
    obtain ⟨htracks, -⟩ := hstart.of_receiveBytes hpcre hplain.direct hrun
    simp only [Option.some_inj, exists_eq_left']
    rw [← carried_iff htracks.exists_webDataFree]
    cases hresponse : r.response t.responseCode with
    | none => simp [hresponse]
    | some response => simp [hresponse]

include hpcre in
/-- If the status is not 409, so is the response of `sendHTTPData`. -/
theorem carried_sendFrom_iff (hplain : t.Plain) (hcode : t.responseCode ≠ 409)
    (ht : exchanges tries = t) {r₀ : Reception} (hclear : r.webDataClear = some r₀)
    (hfilled : Filled r₀ ⟨moving, false⟩ []) :
  t.Carried (sendFrom pcre junk exchanges (tries + 1) r)
    ↔ ∃ r, receiveBytes pcre junk t.arrivals r₀ = some r ∧ r.Carries t.responseCode t.body
  := by
  simp only [sendFrom, sendTries, ht, hclear, hplain.curlInit, hplain.res, hcode, if_true, ne_eq,
    not_true_eq_false, if_false, Option.bind_eq_bind, Option.bind_some]
  cases hrun : receiveBytes pcre junk t.arrivals r₀ with
  | none => simp [Carried]
  | some r =>
    obtain ⟨htracks, -⟩ := hfilled.tracks.of_receiveBytes hpcre hplain.direct hrun
    simp only [Option.some_inj, exists_eq_left']
    rw [← carried_iff htracks.exists_webDataFree]
    cases hresponse : r.response t.responseCode with
    | none => simp [hresponse]
    | some response => simp [hresponse]

/-- If the status is 409, there is another try. -/
theorem sendFrom_conflict (hplain : first.Plain) (hcode : first.responseCode = 409)
    (hfirst : exchanges tries = first) {r₀ : Reception} (hclear : r.webDataClear = some r₀) :
  sendFrom pcre junk exchanges (tries + 1) r
    = (receiveBytes pcre junk first.arrivals r₀).bind (sendFrom pcre junk exchanges tries)
  := by
  simp only [sendFrom, sendTries, hfirst, hclear, hplain.curlInit, hplain.res, hcode, if_true,
    ne_eq, not_true_eq_false, if_false, Option.bind_eq_bind, Option.bind_some]
  cases receiveBytes pcre junk first.arrivals r₀ with
  | none => rfl
  | some r => rfl

include hpcre in
/-- The last try carries the body, whatever memory holds. -/
theorem carried_all_iff (hplain : t.Plain) (hne : t.body ≠ []) (hlength : t.body.length < INT_MAX)
    (hcode : t.responseCode ≠ 409) (ht : exchanges tries = t) {start : Junk → Reception}
    (hstart : ∀ junk, ∃ r₀, (start junk).webDataClear = some r₀ ∧ Filled r₀ ⟨moving, false⟩ []) :
  (∀ junk, t.Carried (sendFrom pcre junk exchanges (tries + 1) (start junk))) ↔ t.Fits pcre moving
  := by
  choose r₀ hclear hfilled using hstart
  simp only [carried_sendFrom_iff hpcre hplain hcode ht (hclear _) (hfilled _)]
  apply carries_all_iff hpcre hfilled hplain.direct hne hlength

include hpcre in
/-- The try before the last one has to run, and leaves its flag to the last one. -/
theorem carried_all_conflict_iff (hplain : t.Plain) (hne : t.body ≠ [])
    (hlength : t.body.length < INT_MAX) (hcode : t.responseCode ≠ 409) (ht : exchanges tries = t)
    (hfirst : first.Plain) (hconflict : first.responseCode = 409)
    (hfirst' : exchanges (tries + 1) = first) {r₀ : Reception} (hclear : r.webDataClear = some r₀)
    (hfilled : Filled r₀ ⟨moving, false⟩ []) :
  (∀ junk, t.Carried (sendFrom pcre junk exchanges (tries + 2) r))
    ↔ AllAllowed pcre moving first.arrivals
      ∧ t.Fits pcre (progress pcre moving first.arrivals).moving
  := by
  simp only [sendFrom_conflict hfirst hconflict hfirst' hclear]
  have hlast (hallowed : AllAllowed pcre moving first.arrivals) :
      (∀ junk, t.Carried ((receiveBytes pcre junk first.arrivals r₀).bind
          (sendFrom pcre junk exchanges (tries + 1))))
        ↔ t.Fits pcre (progress pcre moving first.arrivals).moving := by
    have hruns (junk : Junk) := @Tracks.receiveBytes pcre hpcre junk _ _ _ hfilled.tracks hallowed
    choose r₁ hrun htracks using hruns
    simp only [hrun, Option.bind_some]
    apply carried_all_iff hpcre hplain hne hlength hcode ht
      (fun junk => (htracks junk).exists_webDataClear)
  constructor
  · intro h
    have hallowed : AllAllowed pcre moving first.arrivals := by
      obtain ⟨response, hresponse, -⟩ := h fun _ _ => 0
      obtain ⟨r₁, hrun, -⟩ := Option.bind_eq_some_iff.mp hresponse
      exact (hfilled.tracks.of_receiveBytes hpcre hfirst.direct hrun).2
    exact ⟨hallowed, (hlast hallowed).mp h⟩
  · rintro ⟨hallowed, hfits⟩
    exact (hlast hallowed).mpr hfits

end Exchange

end Exchanges

/-- Whatever memory holds, the response of `getHTTPData` has the whole body of a transfer that
is not redirected, and so has that of `sendHTTPData`, at its first try or after a status of 409:
exactly when the body does not begin with a NUL, and what the header lines announce suits it. -/
theorem response_carries_body_iff {pcre : Pcre} (hpcre : pcre.Lists) {t : Exchange}
    (hplain : t.Plain) (hne : t.body ≠ []) (hlength : t.body.length ≤ 2147483646)
    (url data : Bytes) (moving : Bool) (heap : Heap Bytes) :
  ((∀ junk, t.Carried (t.getHttpData pcre junk (some url) moving heap)) ↔ t.Fits pcre moving)
    ∧ ∀ exchanges : ℕ → Exchange, t.responseCode ≠ 409 →
      (exchanges 1 = t →
        ((∀ junk, t.Carried
            (Exchange.sendHttpData pcre junk exchanges (some url) (some data) moving heap))
          ↔ t.Fits pcre moving))
      ∧ (exchanges 0 = t → (exchanges 1).Plain → (exchanges 1).responseCode = 409 →
        ((∀ junk, t.Carried
            (Exchange.sendHttpData pcre junk exchanges (some url) (some data) moving heap))
          ↔ AllAllowed pcre moving (exchanges 1).arrivals
            ∧ t.Fits pcre (progress pcre moving (exchanges 1).arrivals).moving))
  := by
  have hnew := filled_webDataNew (some url) moving heap
  have hclear := hnew.tracks.exists_webDataClear
  have hlength' : t.body.length < INT_MAX := Nat.lt_succ_of_le hlength
  constructor
  · simp only [Exchange.carried_getHttpData_iff hpcre hplain]
    apply carries_all_iff hpcre (fun _ => hnew) hplain.direct hne hlength'
  · intro exchanges hcode
    constructor
    · intro ht
      apply Exchange.carried_all_iff hpcre hplain hne hlength' hcode ht fun _ => hclear
    · intro ht hfirst hconflict
      obtain ⟨r₀, hclear, hfilled⟩ := hclear
      apply Exchange.carried_all_conflict_iff hpcre hplain hne hlength' hcode ht hfirst hconflict
        rfl hclear hfilled

/-! ### Two bodies -/

/-- A transfer with the body in one chunk. -/
def announcedExchange (line : String) (body : Bytes) : Exchange where
  curlInit := true
  arrivals := [headerLine line, headerLine "", .data body]
  res := 0
  responseCode := 200

theorem plain_announcedExchange {line : String} (body : Bytes) (h : (headerLine line).Direct) :
  (announcedExchange line body).Plain
  where
  curlInit := rfl
  res := rfl
  direct := by
    simp only [announcedExchange, List.forall_mem_cons]
    exact ⟨h, rfl, trivial, nofun⟩

/-- A body of two bytes. -/
theorem response_carries_body_ok :
  (announcedExchange "Content-Length: 2" (text "ok")).Carried
      ((announcedExchange "Content-Length: 2" (text "ok")).getHttpData headerPcre (fun _ _ => 7)
        (some (text "u")) false .empty)
    ∧ (announcedExchange "Content-Length: 2" (text "ok")).Carried
      (Exchange.sendHttpData headerPcre (fun _ _ => 7)
        (fun _ => announcedExchange "Content-Length: 2" (text "ok")) (some (text "u"))
        (some (text "v")) false .empty)
  := by
  have hsuits : AllSuit headerPcre false
      ([] ++ [headerLine "Content-Length: 2"] ++ [headerLine ""] ++ [.data (text "ok")]) := by
    rw [AllSuit, Simulation.throughout_concat, Simulation.throughout_concat,
      Simulation.throughout_concat]
    refine ⟨⟨⟨Simulation.throughout_nil, ?_⟩, ?_⟩, nofun⟩
    · rw [Arrival.Suits]
      decide
    · rw [Arrival.Suits]
      decide
  have hfits : (announcedExchange "Content-Length: 2" (text "ok")).Fits headerPcre false :=
    ⟨by decide, hsuits⟩
  have hcarried := response_carries_body_iff lists_headerPcre
    (@plain_announcedExchange "Content-Length: 2" (text "ok") rfl) (by decide) (by decide)
    (text "u") (text "v") false .empty
  exact ⟨hcarried.1.mpr hfits _, ((hcarried.2 _ (by decide)).1 rfl).mpr hfits _⟩

/-- A body that is a NUL: the size is 1, but there is no data. -/
theorem response_without_body :
  (announcedExchange "Content-Length: 1" [0]).Plain
    ∧ (announcedExchange "Content-Length: 1" [0]).getHttpData headerPcre (fun _ _ => 0)
      (some (text "u")) false .empty = some (some ⟨200, 1, none, none⟩)
    ∧ Exchange.sendHttpData headerPcre (fun _ _ => 0)
      (fun _ => announcedExchange "Content-Length: 1" [0]) (some (text "u")) (some (text "v"))
      false .empty = some (some ⟨200, 1, none, none⟩)
    ∧ ¬ (announcedExchange "Content-Length: 1" [0]).Carried (some (some ⟨200, 1, none, none⟩))
  := by
  refine ⟨plain_announcedExchange [0] rfl, by decide +kernel, by decide +kernel, ?_⟩
  rintro ⟨response, hresponse, -, hdata⟩
  cases hresponse
  cases hdata

end Trailermatic
