import Trailermatic.Config.Realized
import Trailermatic.Prowl
import Trailermatic.ResponseMemory

/-!
# The memory of requests

What is allocated for a request to a server, and freed: the `WebData`, the address in which the
blanks are encoded, the message that is sent, and the response.  A `WebData` has a heap of its
own, whose blocks are counted when it is freed.  Whatever libcurl does, as far as its calls are
allowed, nothing is lost but the names of files that a later header line replaces.
-/

namespace Trailermatic

/-- What libcurl does for a request: whether it gives a handle, the calls that it makes, and the
answer, none if the transfer fails. -/
structure Traffic where
  curlInit : Bool
  arrivals : List Arrival
  reply : Option Reply

/-- The answer that the program gets, none if libcurl gives no handle. -/
def Traffic.answer (t : Traffic) : Option Reply :=
  if t.curlInit then t.reply else none

/-- The number of names that a request loses. -/
def Traffic.lost (pcre : Pcre) (t : Traffic) : ℕ :=
  if t.curlInit then t.arrivals.countP (Arrival.names pcre) - 1 else 0

/-- The number of names that a sending loses, with what libcurl does by the number of tries left. -/
def sendLost (pcre : Pcre) (traffic : ℕ → Traffic) : ℕ → ℕ
  | 0 => 0
  | tries + 1 => (traffic tries).lost pcre
      + if (traffic tries).answer.any (·.responseCode = 409) then sendLost pcre traffic tries else 0

/-- The calls are allowed where the header callback has left its flag clear. -/
def Traffic.Allowed (pcre : Pcre) (t : Traffic) : Prop :=
  AllAllowed pcre false t.arrivals

/-- The answers of `traffic`, as they are given without memory. -/
def Traffic.request (t : Traffic) : RequestAnswers :=
  ⟨t.curlInit, fun _ => t.reply⟩

/-- Free what a transfer has left, before another one. -/
def webDataClear (r : Receiver) : Option Receiver := do
  let heap ← amFree r.mem.contentFilename r.heap
  let heap ← amFree r.mem.response.data heap
  return { r with
    mem := { r.mem with contentFilename := none, response := ⟨none, 0, 0⟩ }
    heap := heap }

namespace Owned

open Alloc

/-! ### Requests and the memory for them -/

/-- A `WebData` in its block, and the block of its `HTTPData`; the callbacks work on a heap of
their own. -/
structure WebData where
  block : ℕ
  response : ℕ
  receiver : Receiver

/-- A response in its block, with a copy of the data and of the name of the file. -/
structure HttpResponse where
  block : ℕ
  data : Option ℕ
  contentFilename : Option ℕ

/-- The blocks of a `WebData` outside the heap of the callbacks. -/
def WebData.blocks (data : WebData) : List ℕ :=
  [data.response, data.block]

/-- The blocks of a response: those of the copies, and its own. -/
def HttpResponse.blocks (response : HttpResponse) : List ℕ :=
  response.data.toList ++ (response.contentFilename.toList ++ [response.block])

/-- Make a `WebData` and its `HTTPData`, with a heap for the callbacks that holds a copy of the
URL. -/
def webDataNew (url : Bytes) (isMoveHeader : Bool) : Alloc WebData := do
  let block ← malloc
  let response ← malloc
  return ⟨block, response, Trailermatic.webDataNew (some url) isMoveHeader .empty⟩

/-- Free what the callbacks have left, and the blocks of the `WebData`.  What was allocated on the
heap of the callbacks is counted with it. -/
def webDataFree (data : WebData) : Alloc Unit := do
  let heap ← ofOption (Trailermatic.webDataFree data.receiver)
  adopt heap.ledger
  Alloc.free data.response
  Alloc.free data.block

/-- Let libcurl make its calls. -/
def receive (pcre : Pcre) (arrivals : List Arrival) (data : WebData) : Alloc WebData :=
  (fun r => { data with receiver := r })
    <$> ofOption (Trailermatic.receive pcre arrivals data.receiver)

/-- Free what a transfer has left, before another one. -/
def webDataClear (data : WebData) : Alloc WebData :=
  (fun r => { data with receiver := r }) <$> ofOption (Trailermatic.webDataClear data.receiver)

/-- A copy of what there is. -/
def copyOf (present : Bool) : Alloc (Option ℕ) :=
  if present then some <$> malloc else pure none

/-- Copy what a transfer has left. -/
def httpResponse (reply : Reply) (data : WebData) : Alloc HttpResponse := do
  let block ← malloc
  let copy ← copyOf reply.data.isSome
  let filename ← copyOf data.receiver.mem.contentFilename.isSome
  return ⟨block, copy, filename⟩

/-- Free the copies of a response and then the response. -/
def httpResponseFree (response : HttpResponse) : Alloc Unit := do
  Alloc.amFree response.data
  Alloc.amFree response.contentFilename
  Alloc.free response.block

/-- The response for an answer, none if the transfer failed. -/
def respond (reply : Option Reply) (data : WebData) : Alloc (Option (Reply × HttpResponse)) :=
  match reply with
  | none => pure none
  | some reply => (fun resp => some (reply, resp)) <$> httpResponse reply data

/-- Request `url`: what the server answers, and the response for it. -/
def getHttpData (pcre : Pcre) (t : Traffic) (url : Bytes) (isMoveHeader : Bool) :
    Alloc (Option (Reply × HttpResponse) × Bool) := do
  let data ← webDataNew url isMoveHeader
  if t.curlInit then
    let escapedUrl ← malloc
    let data ← receive pcre t.arrivals data
    let resp ← respond t.reply data
    Alloc.free escapedUrl
    webDataFree data
    return (resp, data.receiver.isMoveHeader)
  else
    webDataFree data
    return (none, data.receiver.isMoveHeader)

/-- The loop of `sendHTTPData`, with what libcurl does by the number of tries left. -/
def sendTries (pcre : Pcre) (traffic : ℕ → Traffic) :
    ℕ → WebData → Alloc (WebData × Option HttpResponse)
  | 0, data => pure (data, none)
  | tries + 1, data => do
    let data ← webDataClear data
    if (traffic tries).curlInit then
      let data ← receive pcre (traffic tries).arrivals data
      match (traffic tries).reply with
      | none => return (data, none)
      | some reply =>
        if reply.responseCode = 409 then sendTries pcre traffic tries data
        else
          let resp ← httpResponse reply data
          return (data, some resp)
    else return (data, none)

/-- Send data to `url`, twice at most: the response, and the flag of the header callback. -/
def sendHttpData (pcre : Pcre) (traffic : ℕ → Traffic) (url : Bytes) (isMoveHeader : Bool) :
    Alloc (Option HttpResponse × Bool) := do
  let data ← webDataNew url isMoveHeader
  let (data, resp) ← sendTries pcre traffic 2 data
  webDataFree data
  return (resp, data.receiver.isMoveHeader)

/-- Free a response; nothing is done for `NULL`. -/
def freeResponse (response : Option HttpResponse) : Alloc Unit :=
  match response with
  | none => pure ()
  | some response => httpResponseFree response

/-- Send a notification; what is left is the flag of the header callback. -/
def sendProwlNotification (pcre : Pcre) (traffic : ℕ → Traffic) (apikey : Option Text)
    (isMoveHeader : Bool) : Alloc Bool :=
  match apikey with
  | none => pure isMoveHeader
  | some _ => do
    let data ← malloc
    let (response, isMoveHeader) ←
      sendHttpData pcre traffic (snprintf 128 (PROWL_URL ++ PROWL_ADD)) isMoveHeader
    freeResponse response
    Alloc.free data
    return isMoveHeader

/-- Ask about a key: the answer, and the flag of the header callback. -/
def verifyProwlAPIKey (pcre : Pcre) (t : Traffic) (apikey : Option Text) (isMoveHeader : Bool) :
    Alloc (Option Reply × Bool) :=
  match apikey with
  | none => pure (none, isMoveHeader)
  | some key => do
    let (response, isMoveHeader) ← getHttpData pcre t (verifyUrl key.str) isMoveHeader
    freeResponse (response.map Prod.snd)
    return (response.map Prod.fst, isMoveHeader)

/-- Download a URL: what is answered, and the response for it. -/
def downloadFile (a : DownloadAnswers) (url filename : Bytes) (agent : Option Bytes)
    (disk : Disk) : Alloc (Option (Trailermatic.HttpResponse × HttpResponse) × Disk) :=
  match Trailermatic.downloadFile a url filename agent disk with
  | (none, disk) => pure (none, disk)
  | (some response, disk) => do
    let escapedUrl ← malloc
    let resp ← malloc
    Alloc.free escapedUrl
    return (some (response, ⟨resp, none, none⟩), disk)

/-- Run the script: its arguments are copies. -/
def callDownloadDoneScript (scriptname : Text) (filename : Bytes) : Alloc Unit :=
  if filename = [] then pure ()
  else do
    let name ← amStrdup scriptname.str.bytes
    let file ← amStrdup filename
    Alloc.amFree (name.map Text.block)
    Alloc.amFree (file.map Text.block)

/-! ### What a transfer leaves -/

/-- The blocks that the `WebData` would lose if it were freed now. -/
structure Settled (lost : ℕ) (r : Receiver) : Prop where
  tracks : ∃ p, Tracks r p
  passes : Ledger.empty.Passes [] r.heap.ledger r.mem.owned lost

/-- Nothing has been received yet. -/
structure Cleared (lost : ℕ) (r : Receiver) : Prop where
  tracks : Tracks r ⟨r.isMoveHeader, false⟩
  leaking : Leaking .empty lost r 0

theorem Cleared.settled {lost : ℕ} {r : Receiver} (h : Cleared lost r) :
  Settled lost r
  := ⟨⟨_, h.tracks⟩, h.leaking.passes⟩

theorem cleared_new (url : Bytes) (isMoveHeader : Bool) :
  Cleared 0 (Trailermatic.webDataNew (some url) isMoveHeader .empty)
  := by
  have htracks := tracks_new (some url) isMoveHeader .empty
  constructor
  · have hmoving := htracks.moving
    rw [hmoving]
    apply htracks
  · exact leaking_new (some url) isMoveHeader .empty

/-- What a transfer has left can be freed before another one. -/
theorem Settled.exists_clear {lost : ℕ} {r : Receiver} (h : Settled lost r) :
  ∃ r', Trailermatic.webDataClear r = some r' ∧ Cleared lost r'
  := by
  obtain ⟨p, htracks⟩ := h.tracks
  have hperm : r.mem.owned.Perm
      (r.mem.contentFilename.toList ++ (r.mem.response.data.toList ++ r.mem.url.toList)) := by
    rw [WebData.owned, ← List.append_assoc]
    apply List.perm_append_comm
  obtain ⟨heap₁, hfilename, howns₁, -⟩ := exists_amFree (htracks.owns.of_perm hperm)
  obtain ⟨heap₂, hdata, howns₂, -⟩ := exists_amFree howns₁
  have hclear : Trailermatic.webDataClear r = some { r with
      mem := { r.mem with contentFilename := none, response := ⟨none, 0, 0⟩ }
      heap := heap₂ } := by
    simp only [Trailermatic.webDataClear, hfilename, hdata, Option.bind_eq_bind, Option.bind_some,
      Option.pure_def]
  have howned : r.mem.url.toList.Perm ([] ++ (r.mem.url.toList ++ [])) := by
    rw [List.append_nil, List.nil_append]
  refine ⟨_, hclear, tracks_of_none rfl (howns₂.of_perm howned), rfl, ?_⟩
  apply Ledger.Passes.trans (n := 0) (h.passes.of_perm (List.Perm.refl _) hperm)
  apply ((passes_amFree hfilename).frame _).andThen
  apply ((passes_amFree hdata).frame _).of_perm (List.Perm.refl _) howned

/-- The progress `p` redirects where `q` does, and has a buffer only where `q` has one. -/
structure Behind (p q : Progress) : Prop where
  moving : q.moving = true → p.moving = true
  buffered : p.buffered = true → q.buffered = true

theorem Behind.still {p q : Progress} (h : Behind p q) (hp : p.moving = false) :
  q.moving = false
  := by
  rw [← Bool.not_eq_true] at hp ⊢
  exact fun hq => hp (h.moving hq)

theorem Behind.apply {p q : Progress} (h : Behind p q) (pcre : Pcre) (arrival : Arrival) :
  Behind (arrival.apply pcre p) (arrival.apply pcre q)
  := by
  cases arrival with
  | data chunk => exact ⟨h.moving, fun _ => rfl⟩
  | header line behind =>
    simp only [Arrival.apply]
    split_ifs with _ _ hp hq hq
    · exact ⟨fun _ => rfl, h.buffered⟩
    · exact ⟨h.moving, fun _ => rfl⟩
    · exact absurd ⟨hp.1, h.still hp.2⟩ hq
    · exact ⟨h.moving, fun _ => rfl⟩
    · apply h
    · apply h
    · exact ⟨id, h.buffered⟩
    · apply h

theorem Behind.allowed {p q : Progress} (h : Behind p q) {pcre : Pcre} {arrival : Arrival}
    (hallowed : arrival.Allowed pcre q) :
  arrival.Allowed pcre p
  := by
  cases arrival with
  | data chunk => trivial
  | header line behind =>
    rw [Arrival.Allowed] at hallowed ⊢
    split_ifs at hallowed ⊢
    · rw [← Bool.not_eq_true]
      intro hp
      rw [h.buffered hp] at hallowed
      cases hallowed
    · exact fun hp => hallowed (h.still hp)

theorem behind_progress (pcre : Pcre) (moving : Bool) (arrivals : List Arrival) :
  Behind (progress pcre moving arrivals) (progress pcre false arrivals)
  := by
  induction arrivals using List.reverseRecOn with
  | nil => exact ⟨nofun, id⟩
  | append_singleton arrivals arrival ih =>
    rw [progress, progress, List.foldl_append, List.foldl_append]
    apply ih.apply

/-- Calls that are allowed after a transfer that has left the flag clear are allowed after any. -/
theorem allowed_of_moving {pcre : Pcre} {arrivals : List Arrival}
    (h : AllAllowed pcre false arrivals) (moving : Bool) :
  AllAllowed pcre moving arrivals
  := by
  intro before arrival hbefore
  apply (behind_progress pcre moving before).allowed (h before arrival hbefore)

/-- What is received loses all names but the last one. -/
theorem Cleared.exists_receive {pcre : Pcre} (hpcre : pcre.Lists) {lost : ℕ} {r : Receiver}
    (h : Cleared lost r) {arrivals : List Arrival} (hallowed : AllAllowed pcre false arrivals) :
  ∃ r', Trailermatic.receive pcre arrivals r = some r'
    ∧ Settled (lost + (arrivals.countP (Arrival.names pcre) - 1)) r'
  := by
  obtain ⟨r', hreceive, htracks, hleaking⟩ := leaking_receive hpcre h.tracks h.leaking
    (allowed_of_moving hallowed r.isMoveHeader)
  exact ⟨r', hreceive, ⟨_, htracks⟩, hleaking.passes⟩

/-! ### Responses -/

theorem realizes_webDataNew (url : Bytes) (isMoveHeader : Bool) (owned : List ℕ) :
  Realizes (webDataNew url isMoveHeader) owned
    (some (Trailermatic.webDataNew (some url) isMoveHeader .empty)) WebData.receiver
    (fun data => data.blocks ++ owned) 0
  := by
  apply (realizes_malloc _).andThen
  intro block _
  apply (realizes_malloc _).andThen
  intro response _
  exact realizes_pure rfl (List.Perm.refl _)

theorem realizes_webDataFree {data : WebData} {lost : ℕ} (h : Settled lost data.receiver)
    (owned : List ℕ) :
  Realizes (webDataFree data) (data.blocks ++ owned) (some ()) id (fun _ => owned) lost
  := by
  obtain ⟨p, htracks⟩ := h.tracks
  obtain ⟨heap, hfree, -⟩ := htracks.webDataFree
  have hpasses : Ledger.empty.Passes [] heap.ledger [] lost :=
    Ledger.Passes.trans (n := 0) h.passes (passes_webDataFree hfree)
  rw [webDataFree, hfree]
  apply (realizes_ofOption _ _).andThen
  rintro _ rfl
  apply (realizes_adopt hpasses _).finally
  intro _
  apply (realizes_free data.response _).andThen
  intro _ _
  apply realizes_free

/-- The callbacks change what is on the heap of their own only. -/
theorem realizes_receiver (data : WebData) (r : Receiver) (owned : List ℕ) :
  Realizes ((fun r => { data with receiver := r }) <$> ofOption (some r)) (data.blocks ++ owned)
    (some r) WebData.receiver (fun data => data.blocks ++ owned) 0
  := by
  apply (realizes_ofOption (some r) _).map (h := id)
  · intro _
    rfl
  · intro _
    apply List.Perm.refl

theorem realizes_receive {pcre : Pcre} {arrivals : List Arrival} {data : WebData} {r : Receiver}
    (h : Trailermatic.receive pcre arrivals data.receiver = some r) (owned : List ℕ) :
  Realizes (receive pcre arrivals data) (data.blocks ++ owned) (some r) WebData.receiver
    (fun data => data.blocks ++ owned) 0
  := by
  rw [receive, h]
  apply realizes_receiver

theorem realizes_webDataClear {data : WebData} {r : Receiver}
    (h : Trailermatic.webDataClear data.receiver = some r) (owned : List ℕ) :
  Realizes (webDataClear data) (data.blocks ++ owned) (some r) WebData.receiver
    (fun data => data.blocks ++ owned) 0
  := by
  rw [webDataClear, h]
  apply realizes_receiver

theorem realizes_copyOf (present : Bool) (owned : List ℕ) :
  Realizes (copyOf present) owned (some ()) (fun _ => ()) (fun p => p.toList ++ owned) 0
  := by
  rw [copyOf]
  split_ifs
  · apply (realizes_malloc owned).map (h := id)
    · intro _
      rfl
    · intro _
      apply List.Perm.refl
  · exact realizes_pure rfl (List.Perm.refl _)

theorem realizes_httpResponse (reply : Reply) (data : WebData) (owned : List ℕ) :
  Realizes (httpResponse reply data) owned (some ()) (fun _ => ())
    (fun response => response.blocks ++ owned) 0
  := by
  apply (realizes_malloc _).andThen
  intro block _
  apply (realizes_copyOf _ _).andThen
  intro copy _
  apply (realizes_copyOf _ _).andThen
  intro filename _
  apply realizes_pure
  · rfl
  · rw [HttpResponse.blocks, List.append_assoc, List.append_assoc]
    apply List.perm_append_comm_assoc

theorem realizes_httpResponseFree (response : HttpResponse) (owned : List ℕ) :
  Realizes (httpResponseFree response) (response.blocks ++ owned) (some ()) id (fun _ => owned) 0
  := by
  rw [HttpResponse.blocks, List.append_assoc, List.append_assoc]
  apply (realizes_amFree response.data _).andThen
  intro _ _
  apply (realizes_amFree response.contentFilename _).andThen
  intro _ _
  apply realizes_free

/-- The blocks of a response, none for `NULL`. -/
def responseBlocks (response : Option HttpResponse) : List ℕ :=
  response.elim [] HttpResponse.blocks

theorem realizes_freeResponse (response : Option HttpResponse) (owned : List ℕ) :
  Realizes (freeResponse response) (responseBlocks response ++ owned) (some ()) id
    (fun _ => owned) 0
  := by
  cases response with
  | none => exact realizes_pure rfl (List.Perm.refl _)
  | some response => apply realizes_httpResponseFree

/-- The answer of a request, and the blocks of the response for it. -/
theorem realizes_respond (reply : Option Reply) (data : WebData) (owned : List ℕ) :
  Realizes (respond reply data) owned (some reply) (Option.map Prod.fst)
    (fun resp => responseBlocks (resp.map Prod.snd) ++ owned) 0
  := by
  cases reply with
  | none => exact realizes_pure rfl (List.Perm.refl _)
  | some reply =>
    apply (realizes_httpResponse reply data _).map (h := fun _ => some reply)
    · intro _
      rfl
    · intro _
      apply List.Perm.refl

/-! ### Requests -/

section Requests

variable {pcre : Pcre} (hpcre : pcre.Lists)

include hpcre

theorem realizes_getHttpData {t : Traffic} (ht : t.Allowed pcre) (url : Bytes)
    (isMoveHeader : Bool) (owned : List ℕ) :
  Realizes (getHttpData pcre t url isMoveHeader) owned (some t.answer)
    (fun r => r.1.map Prod.fst) (fun r => responseBlocks (r.1.map Prod.snd) ++ owned) (t.lost pcre)
  := by
  rw [Traffic.answer, Traffic.lost]
  apply (realizes_webDataNew url isMoveHeader _).andThen
  intro data hdata
  have hnew : Cleared 0 data.receiver := hdata ▸ cleared_new url isMoveHeader
  split_ifs
  · obtain ⟨r, hreceive, hsettled⟩ := hnew.exists_receive hpcre ht
    apply (realizes_malloc _).andThen
    intro escapedUrl _
    apply Realizes.andThen ((realizes_receive hreceive (escapedUrl :: owned)).of_perm
      List.perm_middle.symm fun _ => List.Perm.refl _)
    rintro data rfl
    apply (realizes_respond t.reply data _).andThen
    intro resp hresp
    apply Realizes.andThen ((realizes_free escapedUrl _).of_perm (by
      rw [← List.append_assoc]
      apply List.perm_middle) fun _ => List.Perm.refl _)
    intro _ _
    rw [Nat.zero_add] at hsettled
    apply Realizes.followed ((realizes_webDataFree hsettled _).of_perm
      (by rw [List.append_assoc]; apply List.perm_append_comm_assoc) fun _ => List.Perm.refl _)
      (h := fun _ => t.reply)
    intro _
    rw [← hresp]
    exact realizes_pure rfl (List.Perm.refl _)
  · apply Realizes.followed (realizes_webDataFree hnew.settled owned) (h := fun _ => none)
    intro _
    exact realizes_pure rfl (List.Perm.refl _)

/-- What the tries leave does not depend on where the `WebData` is. -/
theorem realizes_sendTries {traffic : ℕ → Traffic} (htraffic : ∀ k, (traffic k).Allowed pcre)
    (tries : ℕ) {r₀ : Receiver} {lost : ℕ} (h : Settled lost r₀) :
  ∃ r answered, Settled (lost + sendLost pcre traffic tries) r
    ∧ ∀ data owned, data.receiver = r₀ →
      Realizes (sendTries pcre traffic tries data) (data.blocks ++ owned) (some (r, answered))
        (fun x => (x.1.receiver, x.2.isSome))
        (fun x => responseBlocks x.2 ++ (x.1.blocks ++ owned)) 0
  := by
  induction tries generalizing r₀ lost with
  | zero =>
    refine ⟨r₀, false, h, ?_⟩
    rintro data owned rfl
    exact realizes_pure rfl (List.Perm.refl _)
  | succ tries ih =>
    obtain ⟨cleared, hclear, hcleared⟩ := h.exists_clear
    rw [sendLost, Traffic.lost, Traffic.answer]
    cases hinit : (traffic tries).curlInit with
    | false =>
      refine ⟨cleared, false, hcleared.settled, ?_⟩
      rintro data owned rfl
      rw [sendTries, hinit]
      apply (realizes_webDataClear hclear owned).andThen
      rintro data rfl
      exact realizes_pure rfl (List.Perm.refl _)
    | true =>
      obtain ⟨received, hreceive, hsettled⟩ := hcleared.exists_receive hpcre (htraffic tries)
      cases hreply : (traffic tries).reply with
      | none =>
        refine ⟨received, false, hsettled, ?_⟩
        rintro data owned rfl
        rw [sendTries, hinit, hreply]
        apply (realizes_webDataClear hclear owned).andThen
        rintro data rfl
        apply (realizes_receive hreceive owned).andThen
        rintro data rfl
        exact realizes_pure rfl (List.Perm.refl _)
      | some reply =>
        by_cases hconflict : reply.responseCode = 409
        · obtain ⟨r, answered, hrest, hrun⟩ := ih hsettled
          refine ⟨r, answered, ?_, ?_⟩
          · simp [hconflict, ← Nat.add_assoc, hrest]
          · rintro data owned rfl
            rw [sendTries, hinit, hreply]
            apply (realizes_webDataClear hclear owned).andThen
            rintro data rfl
            apply (realizes_receive hreceive owned).andThen
            intro data hdata
            simp only [if_pos hconflict]
            apply hrun data owned hdata
        · refine ⟨received, true, ?_, ?_⟩
          · simp [hconflict, hsettled]
          · rintro data owned rfl
            rw [sendTries, hinit, hreply]
            apply (realizes_webDataClear hclear owned).andThen
            rintro data rfl
            apply (realizes_receive hreceive owned).andThen
            rintro data rfl
            simp only [if_neg hconflict]
            apply (realizes_httpResponse reply data _).andThen
            intro resp _
            exact realizes_pure rfl (List.Perm.refl _)

theorem realizes_sendHttpData {traffic : ℕ → Traffic} (htraffic : ∀ k, (traffic k).Allowed pcre)
    (url : Bytes) (isMoveHeader : Bool) (owned : List ℕ) :
  Realizes (sendHttpData pcre traffic url isMoveHeader) owned (some ()) (fun _ => ())
    (fun x => responseBlocks x.1 ++ owned) (sendLost pcre traffic 2)
  := by
  apply (realizes_webDataNew url isMoveHeader _).andThen
  intro data hdata
  have hnew : Cleared 0 data.receiver := hdata ▸ cleared_new url isMoveHeader
  obtain ⟨r, answered, hsettled, hrun⟩ := realizes_sendTries hpcre htraffic 2 hnew.settled
  apply (hrun data owned rfl).andThen
  rintro ⟨data, resp⟩ hview
  obtain ⟨rfl, -⟩ := Prod.mk.inj hview
  rw [Nat.zero_add] at hsettled
  apply Realizes.finally ((realizes_webDataFree hsettled _).of_perm
    (List.perm_append_comm_assoc _ _ _) fun _ => List.Perm.refl _)
  intro _
  exact realizes_pure rfl (List.Perm.refl _)

theorem realizes_sendProwlNotification {traffic : ℕ → Traffic}
    (htraffic : ∀ k, (traffic k).Allowed pcre) (apikey : Option Text) (isMoveHeader : Bool)
    (owned : List ℕ) :
  Realizes (sendProwlNotification pcre traffic apikey isMoveHeader) owned (some ())
    (fun _ => ()) (fun _ => owned) (if apikey.isSome then sendLost pcre traffic 2 else 0)
  := by
  cases apikey with
  | none => exact realizes_pure rfl (List.Perm.refl _)
  | some key =>
    apply (realizes_malloc _).andThen
    intro data _
    apply Realizes.finally (realizes_sendHttpData hpcre htraffic _ isMoveHeader (data :: owned))
    rintro ⟨response, isMoveHeader⟩
    apply (realizes_freeResponse response _).andThen
    intro _ _
    apply (realizes_free data _).andThen
    intro _ _
    exact realizes_pure rfl (List.Perm.refl _)

theorem realizes_verifyProwlAPIKey {t : Traffic} (ht : t.Allowed pcre) (key : Text)
    (isMoveHeader : Bool) (owned : List ℕ) :
  Realizes (verifyProwlAPIKey pcre t (some key) isMoveHeader) owned (some t.answer) Prod.fst
    (fun _ => owned) (t.lost pcre)
  := by
  apply Realizes.finally (realizes_getHttpData hpcre ht _ isMoveHeader owned)
  rintro ⟨response, isMoveHeader⟩
  apply (realizes_freeResponse _ _).andThen
  intro _ _
  exact realizes_pure rfl (List.Perm.refl _)

end Requests

/-- What a download allocates is the response, which is there exactly if there is an answer. -/
theorem realizes_downloadFile (a : DownloadAnswers) (url filename : Bytes)
    (agent : Option Bytes) (disk : Disk) (owned : List ℕ) :
  Realizes (downloadFile a url filename agent disk) owned
    (some (Trailermatic.downloadFile a url filename agent disk)) (Prod.map (Option.map Prod.fst) id)
    (fun x => responseBlocks (x.1.map Prod.snd) ++ owned) 0
  := by
  rw [downloadFile]
  obtain ⟨_ | response, disk⟩ := Trailermatic.downloadFile a url filename agent disk
  · exact realizes_pure rfl (List.Perm.refl _)
  · apply (realizes_malloc _).andThen
    intro escapedUrl _
    apply (realizes_malloc _).andThen
    intro resp _
    apply Realizes.andThen ((realizes_free escapedUrl _).of_perm (List.Perm.swap _ _ _)
      fun _ => List.Perm.refl _)
    intro _ _
    exact realizes_pure rfl (List.Perm.refl _)

theorem realizes_callDownloadDoneScript (scriptname : Text) (filename : Bytes)
    (owned : List ℕ) :
  Realizes (callDownloadDoneScript scriptname filename) owned (some ()) id (fun _ => owned) 0
  := by
  rw [callDownloadDoneScript]
  split_ifs
  · exact realizes_pure rfl (List.Perm.refl _)
  · apply (realizes_amStrdup _ _).andThen
    intro name _
    apply (realizes_amStrdup _ _).andThen
    intro file _
    apply Realizes.andThen ((realizes_amFree_text name _).of_perm
      (List.perm_append_comm_assoc _ _ _) fun _ => List.Perm.refl _)
    intro _ _
    apply realizes_amFree_text

end Owned

end Trailermatic
