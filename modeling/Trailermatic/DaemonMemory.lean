import Trailermatic.RequestMemory
import Trailermatic.SessionMemory

/-!
# The memory of the daemon

The functions that pass over the feeds, with the blocks that they allocate and free: responses,
items, and the entries of the history in a session that goes on from pass to pass.  They do what
the functions without memory do, and lose what can be counted without memory.
-/

namespace Trailermatic

/-- The world outside, with the answers of libxml2 to each document, and what libcurl does for
the request about the key, for each request for a feed and, by the number of tries left, for a
notification at a visit. -/
structure Outside where
  pcre : Pcre
  key : Traffic
  libxml : Bytes → Owned.LibxmlAnswers
  visit : ℕ → Visit
  fetch : ℕ → RssFeed → Traffic
  notice : ℕ → ℕ → Traffic

/-- What the daemon learns of it. -/
def Outside.env (o : Outside) : Env where
  pcre := o.pcre
  libxml data := (o.libxml data).nodes
  visit := o.visit
  fetch n feed := feed.url.bind fun _ => (o.fetch n feed).answer

/-- All calls of libcurl are allowed. -/
structure Outside.Allowed (o : Outside) : Prop where
  lists : o.pcre.Lists
  key : o.key.Allowed o.pcre
  fetch : ∀ n feed, (o.fetch n feed).Allowed o.pcre
  notice : ∀ n tries, (o.notice n tries).Allowed o.pcre

/-! ### What passes lose -/

namespace Outside

variable (o : Outside)

/-- The names that the answers to a notification lose, if one is sent. -/
def noticeLost (w : World) : ℕ :=
  if w.session.prowlKeyValid && w.session.prowlKey.isSome then
    sendLost o.pcre (o.notice w.visits) 2
  else 0

/-- A download that is answered is told of. -/
def attemptLost (v : Visit) (w : World) (url : Str) (path : Bytes) (agent : Option Bytes) : ℕ :=
  if (downloadFile v.download url.bytes path agent w.disk).1.isSome then o.noticeLost w else 0

/-- What the visit of a URL loses: what the notification loses of a download that is made. -/
def urlLost (w : World) (url : Str) : ℕ :=
  let v := o.visit w.visits
  let w := beginVisit o.env w
  match isMatch o.pcre w.session.filters url.bytes with
  | none => 0
  | some filter =>
    if w.session.matchOnly then 0
    else
      let file := getFilename v.buf none url.bytes w.session.downloadFolder.bytes
      let w := { w with copies := w.copies ++ file.copies }
      if !hasBeenDownloaded w.session.downloads url && !fileExists w.disk file.path then
        o.attemptLost v w url file.path filter.agent
      else 0

/-- What the visits of the URLs of an item lose, one after the other. -/
def itemLost (w : World) (item : FeedItem) : ℕ :=
  Alloc.foldLost (fun w url => some (processURL o.env w item url)) o.urlLost w item.urls

/-- What the visits of all items lose. -/
def listLost (w : World) (items : List FeedItem) : ℕ :=
  Alloc.foldLost (fun w item => some (processURLs o.env item item.urls w)) o.itemLost w items

/-- The strings of the document that are overwritten, and what its items lose. -/
def documentLost (grows : Bool) (w : World) (data : Bytes) : ℕ :=
  let (itemCount, items) := parseXmldata o.env.libxml data
  Owned.overwritten (o.libxml data) + o.listLost (if grows then growBucket w itemCount else w) items

/-- What the answer to a request for a feed loses: only the status 200 has a document that is
parsed. -/
def replyLost (firstrun : Bool) (w : World) (reply : Reply) : ℕ :=
  if reply.responseCode = 200 then reply.data.elim 0 (o.documentLost firstrun w) else 0

/-- What the request for a feed loses, and what is lost with its answer; a feed without a URL is not
requested. -/
def fetchLost (firstrun : Bool) (w : World) (feed : RssFeed) : ℕ :=
  feed.url.elim 0 fun _ =>
    (o.fetch w.fetches feed).lost o.pcre
      + (o.fetch w.fetches feed).answer.elim 0
        (o.replyLost firstrun { w with fetches := w.fetches + 1 })

/-- What a pass over the feeds of the session loses. -/
def passLost (firstrun : Bool) (w : World) : ℕ :=
  Alloc.foldLost (fun w feed => some (processFeed o.env w feed firstrun)) (o.fetchLost firstrun) w
    w.session.feeds

/-- What the passes of the main loop lose, of which only the first one makes room in the history. -/
def mainLoopLost : ℕ → Bool → World → ℕ
  | 0, _, _ => 0
  | passes + 1, firstRun, w => o.passLost firstRun w
      + mainLoopLost passes false (checkFeeds o.env firstRun w.session.feeds w)

/-- What the pass over a file with a feed loses; its text ends at the first NUL. -/
def fileLost (w : World) (xmldata : Option Bytes) : ℕ :=
  xmldata.elim 0 fun data => o.documentLost true w (cstr data)

end Outside

/-! ### Loops are folds -/

theorem processURLs_eq_foldl (env : Env) (item : FeedItem) (urls : List Str) (w : World) :
  processURLs env item urls w = urls.foldl (fun w url => processURL env w item url) w
  := by
  induction urls generalizing w with
  | nil => rfl
  | cons url urls ih => apply ih

theorem processRSSList_eq_foldl (env : Env) (items : List FeedItem) (w : World) :
  processRSSList env items w
    = items.foldl (fun w item => processURLs env item item.urls w) w
  := by
  induction items generalizing w with
  | nil => rfl
  | cons item items ih => apply ih

theorem checkFeeds_eq_foldl (env : Env) (firstrun : Bool) (feeds : List RssFeed) (w : World) :
  checkFeeds env firstrun feeds w = feeds.foldl (fun w feed => processFeed env w feed firstrun) w
  := by
  induction feeds generalizing w with
  | nil => rfl
  | cons feed feeds ih => apply ih

theorem foldl_addToTail (lines : List Bytes) (head : List Str) :
  lines.foldl (fun head line => addToTail (loadEntry line) head) head
    = head ++ lines.filterMap loadEntry
  := by
  induction lines generalizing head with
  | nil => exact (List.append_nil head).symm
  | cons line lines ih =>
    rw [List.foldl_cons, ih, List.filterMap_cons]
    cases loadEntry line with
    | none => rfl
    | some entry => apply List.append_assoc

/-- The items of a document are processed. -/
def documentProcessed (env : Env) (grows : Bool) (data : Bytes) (w : World) : World :=
  let (itemCount, items) := parseXmldata env.libxml data
  processRSSList env items (if grows then growBucket w itemCount else w)

/-- The answer to the request for a feed is processed. -/
def replyProcessed (env : Env) (firstrun : Bool) (reply : Reply) (w : World) : World :=
  if reply.responseCode = 200 then
    reply.data.elim w fun data => documentProcessed env firstrun data w
  else w

theorem processFeed_eq (env : Env) (w : World) (feed : RssFeed) (firstrun : Bool) :
  processFeed env w feed firstrun
    = (env.fetch w.fetches feed).elim { w with fetches := w.fetches + 1 } fun reply =>
      replyProcessed env firstrun reply { w with fetches := w.fetches + 1 }
  := by
  rw [processFeed]
  cases env.fetch w.fetches feed with
  | none => rfl
  | some reply =>
    simp only [Option.elim_some, replyProcessed]
    cases reply.data with
    | none => rfl
    | some data => rfl

/-! ### A download in steps -/

/-- A notification is sent, if the key counts as valid. -/
def noticed (event : ProwlEvent) (item : FeedItem) (w : World) : World :=
  if w.session.prowlKeyValid then
    { w with trace := .notify event w.session.prowlKey item.name :: w.trace }
  else w

/-- The script is run, if there is one. -/
def scripted (path : Bytes) (w : World) : World :=
  match w.session.downloadDoneScript with
  | some script => { w with trace := .script script path :: w.trace }
  | none => w

/-- The URL is recorded, and the history is saved. -/
def recorded (save : SaveAnswers) (url : Str) (w : World) : World :=
  let max := w.session.maxBucketItems.toNat
  let downloads := addToBucket url w.session.downloads max
  let run := saveState save downloads
  { w with
    session := { w.session with downloads := downloads, bucketChanged := true }
    disk := Function.update w.disk w.session.statefile.bytes
      (runSteps run.steps (w.disk w.session.statefile.bytes))
    trace := .record url (listCount w.session.downloads) max :: w.trace
    copies := w.copies ++ run.copies }

theorem recordDownload_eq (save : SaveAnswers) (w : World) (item : FeedItem) (url : Str)
    (path : Bytes) :
  recordDownload save w item url path
    = recorded save url (scripted path (noticed .newTrailer item w))
  := by
  rw [recordDownload, noticed]
  split_ifs
  · rw [scripted]
    cases hscript : w.session.downloadDoneScript with
    | none => simp [hscript, recorded]
    | some script => simp [hscript, recorded]
  · rw [scripted]
    cases hscript : w.session.downloadDoneScript with
    | none => simp [hscript, recorded]
    | some script => simp [hscript, recorded]

namespace Owned

open Alloc

/-! ### The history -/

/-- The string that a node of the history points to. -/
def cellValue (cell : ℕ × Text) : Str :=
  cell.2.str

/-- Put a string in front of a list, with a node of its own; nothing is added for `NULL`. -/
def addToHead (elem : Option Text) (head : List (ℕ × Text)) : Alloc (List (ℕ × Text)) :=
  match elem with
  | none => pure head
  | some data => do
    let newnode ← malloc
    return (newnode, data) :: head

/-- Put a string behind a list, with a node of its own; nothing is added for `NULL`. -/
def addToTail (elem : Option Text) (head : List (ℕ × Text)) : Alloc (List (ℕ × Text)) :=
  match elem with
  | none => pure head
  | some data => do
    let newnode ← malloc
    return head ++ [(newnode, data)]

/-- Free the data of the last node, and the node. -/
def removeLast (head : List (ℕ × Text)) : Alloc (List (ℕ × Text)) :=
  match head.getLast? with
  | none => pure head
  | some lastNode => do
    Alloc.free lastNode.2.block
    Alloc.free lastNode.1
    return head.dropLast

/-- Put a copy of the URL in front of the history, and take its last entry off if there are too
many. -/
def addToBucket (identifier : Str) (head : List (ℕ × Text)) (maxBucketItems : ℕ) :
    Alloc (List (ℕ × Text)) := do
  let data ← amStrdup identifier.bytes
  let head ← addToHead data head
  if 0 < maxBucketItems ∧ maxBucketItems < listCount head then removeLast head else return head

/-- The body of the loop of `load_state`. -/
def loadLine (head : List (ℕ × Text)) (line : Bytes) : Alloc (List (ℕ × Text)) := do
  let data ← lift (strdup (loadEntry line))
  addToTail data head

/-- Put the entries of the state file, if it can be read, behind the list, line by line. -/
def loadState (file : Option Bytes) (head : List (ℕ × Text)) : Alloc (List (ℕ × Text)) :=
  match file with
  | none => pure head
  | some content => (Lines.lines newline (MAX_LINE_LEN - 1) content).foldlM loadLine head

theorem realizes_addToHead (elem : Option Text) (head : List (ℕ × Text)) :
  Realizes (addToHead elem head) (Text.blocks elem ++ head.flatMap cellBlocks)
    (some (Trailermatic.addToHead (elem.map Text.str) (head.map cellValue))) (List.map cellValue)
    (List.flatMap cellBlocks) 0
  := by
  cases elem with
  | none => exact realizes_pure rfl (List.Perm.refl _)
  | some data =>
    apply (realizes_malloc _).andThen
    intro newnode _
    exact realizes_pure rfl (List.Perm.swap _ _ _)

theorem realizes_addToTail (elem : Option Text) (head : List (ℕ × Text)) :
  Realizes (addToTail elem head) (Text.blocks elem ++ head.flatMap cellBlocks)
    (some (Trailermatic.addToTail (elem.map Text.str) (head.map cellValue))) (List.map cellValue)
    (List.flatMap cellBlocks) 0
  := by
  cases elem with
  | none => exact realizes_pure rfl (List.Perm.refl _)
  | some data =>
    apply (realizes_malloc _).andThen
    intro newnode _
    apply realizes_pure
    · apply List.map_append
    · rw [List.flatMap_append]
      apply (List.Perm.swap _ _ _).trans
      exact @List.perm_append_comm _ [data.block, newnode] _

theorem realizes_removeLast (head : List (ℕ × Text)) :
  Realizes (removeLast head) (head.flatMap cellBlocks) (some (head.map cellValue).dropLast)
    (List.map cellValue) (List.flatMap cellBlocks) 0
  := by
  rcases List.eq_nil_or_concat head with rfl | ⟨init, lastNode, rfl⟩
  · exact realizes_pure rfl (List.Perm.refl _)
  · rw [List.concat_eq_append, removeLast, List.getLast?_concat, List.dropLast_concat,
      List.map_append, List.map_singleton, List.dropLast_concat, List.flatMap_append]
    apply Realizes.andThen ((realizes_free lastNode.2.block _).of_perm List.perm_append_comm
      fun _ => List.Perm.refl _)
    intro _ _
    apply (realizes_free lastNode.1 _).andThen
    intro _ _
    exact realizes_pure rfl (List.Perm.refl _)

/-- The node of an entry that leaves the history is freed with its string. -/
theorem realizes_addToBucket (identifier : Str) (head : List (ℕ × Text)) (maxBucketItems : ℕ) :
  Realizes (addToBucket identifier head maxBucketItems) (head.flatMap cellBlocks)
    (some (Trailermatic.addToBucket identifier (head.map cellValue) maxBucketItems))
    (List.map cellValue) (List.flatMap cellBlocks) 0
  := by
  apply (realizes_amStrdup identifier.bytes _).andThen
  intro data hdata
  apply (realizes_addToHead data head).andThen
  intro grown hgrown
  rw [hdata] at hgrown
  have hcount : listCount (grown.map cellValue) = listCount grown := List.length_map _
  rw [hgrown] at hcount
  by_cases hfull : 0 < maxBucketItems ∧ maxBucketItems < listCount grown
  · have hfull' := hfull
    rw [← hcount] at hfull'
    rw [if_pos hfull, Trailermatic.addToBucket, dif_pos hfull', Trailermatic.removeLast, ← hgrown]
    apply realizes_removeLast
  · have hfull' := hfull
    rw [← hcount] at hfull'
    rw [if_neg hfull, Trailermatic.addToBucket, dif_neg hfull', ← hgrown]
    exact realizes_pure rfl (List.Perm.refl _)

theorem realizes_loadState (file : Option Bytes) :
  Realizes (loadState file []) [] (some (Trailermatic.loadState file []).2) (List.map cellValue)
    (List.flatMap cellBlocks) 0
  := by
  cases file with
  | none => exact realizes_pure rfl (List.Perm.refl _)
  | some content =>
    have hline (head : List (ℕ × Text)) (line : Bytes) :
        Realizes (loadLine head line) (head.flatMap cellBlocks)
          (some (Trailermatic.addToTail (loadEntry line) (head.map cellValue)))
          (List.map cellValue) (List.flatMap cellBlocks) 0 := by
      apply ((realizes_lift fun heap => passes_strdup (loadEntry line) heap).frame _).andThen
      rintro data hdata
      rw [← hdata]
      apply realizes_addToTail
    rw [loadState_some, ← List.nil_append (List.filterMap _ _), ← foldl_addToTail,
      ← foldLost_zero]
    apply realizes_foldlM_some (List.map cellValue) (List.flatMap cellBlocks) (fun _ _ => 0) hline

theorem realizes_downloads (as : AutoHandle) {x : Alloc (List (ℕ × Text))} {y : Option (List Str)}
    {lost : ℕ}
    (hx : Realizes x (as.downloads.flatMap cellBlocks) y (List.map cellValue)
      (List.flatMap cellBlocks) lost) :
  Realizes ((fun downloads => { as with downloads := downloads }) <$> x) as.blocks
    (y.map fun downloads => { as.value with downloads := downloads }) AutoHandle.value
    AutoHandle.blocks lost
  := by
  apply realizes_field hx ([as.downloadFolder.block] ++ ([as.statefile.block]
      ++ (Text.blocks as.prowlKey ++ (Text.blocks as.downloadDoneScript
        ++ as.feeds.flatMap feedBlocks)))) (as.filters.flatMap filterBlocks ++ [as.block])
  · simp only [AutoHandle.blocks, List.append_assoc]
  · intro downloads
    rfl
  · intro downloads
    simp only [AutoHandle.blocks, List.append_assoc]

/-! ### Visits -/

/-- The world with the session in its memory, and the flag of the header callback. -/
structure World where
  session : AutoHandle
  disk : Disk
  trace : List Event
  copies : List Copy
  visits : ℕ
  fetches : ℕ
  isMoveHeader : Bool

/-- The world without its memory and without the flag. -/
def World.value (w : World) : Trailermatic.World :=
  ⟨w.session.value, w.disk, w.trace, w.copies, w.visits, w.fetches⟩

@[simp]
theorem World.value_session (w : World) :
  w.value.session = w.session.value
  := rfl

@[simp]
theorem World.value_disk (w : World) :
  w.value.disk = w.disk
  := rfl

@[simp]
theorem World.value_visits (w : World) :
  w.value.visits = w.visits
  := rfl

/-- The blocks that the world holds are those of its session. -/
def World.blocks (w : World) : List ℕ :=
  w.session.blocks

/-- Send a notification, if the key counts as valid. -/
def notify (o : Outside) (event : ProwlEvent) (item : Trailermatic.FeedItem) (w : World) :
    Alloc World :=
  if w.session.prowlKeyValid then
    (fun isMoveHeader => { w with
      trace := .notify event w.session.value.prowlKey item.name :: w.trace
      isMoveHeader := isMoveHeader })
      <$> sendProwlNotification o.pcre (o.notice w.visits) w.session.prowlKey w.isMoveHeader
  else pure w

/-- Run the script of the session, if there is one, with the path of the download. -/
def runScript (path : Bytes) (w : World) : Alloc World :=
  match w.session.downloadDoneScript with
  | some script => do
    callDownloadDoneScript script path
    return { w with trace := .script script.str path :: w.trace }
  | none => pure w

/-- Record a URL and save the history. -/
def recordURL (save : SaveAnswers) (url : Str) (w : World) : Alloc World := do
  let max := w.session.maxBucketItems.toNat
  let as ← (fun downloads => { w.session with downloads := downloads })
    <$> addToBucket url w.session.downloads max
  let run := saveState save as.value.downloads
  return { w with
    session := { as with bucketChanged := true }
    disk := Function.update w.disk w.session.statefile.str.bytes
      (runSteps run.steps (w.disk w.session.statefile.str.bytes))
    trace := .record url (listCount w.session.value.downloads) max :: w.trace
    copies := w.copies ++ run.copies }

/-- The download is complete: notify, run the script, record the URL and save. -/
def recordDownload (o : Outside) (save : SaveAnswers) (w : World)
    (item : Trailermatic.FeedItem) (url : Str) (path : Bytes) : Alloc World := do
  let w ← notify o .newTrailer item w
  let w ← runScript path w
  recordURL save url w

/-- What is done about a download that the server answered. -/
def tell (o : Outside) (save : SaveAnswers) (responseCode : ℤ) (w : World)
    (item : Trailermatic.FeedItem) (url : Str) (path : Bytes) : Alloc World :=
  if responseCode = 200 then recordDownload o save w item url path
  else notify o .downloadFailed item w

/-- Download a URL into the file `path`; the response is freed when it has been told of. -/
def attempt (o : Outside) (v : Visit) (w : World) (item : Trailermatic.FeedItem) (url : Str)
    (path : Bytes) (agent : Option Bytes) : Alloc World := do
  let (answer, disk) ← downloadFile v.download url.bytes path agent w.disk
  let w := { w with
    disk := disk
    trace := .download url path v.download.fopen (answer.map Prod.fst) :: w.trace }
  match answer with
  | some (r, response) =>
    let w ← tell o v.save r.responseCode w item url path
    httpResponseFree response
    return w
  | none => return w

/-- The body of the loop over the URLs of an item, as `Trailermatic.processURL` has it. -/
def processURL (o : Outside) (w : World) (item : Trailermatic.FeedItem) (url : Str) :
    Alloc World :=
  let v := o.visit w.visits
  let w := { w with visits := w.visits + 1, disk := v.others w.disk }
  match isMatch o.pcre w.session.value.filters url.bytes with
  | none => pure w
  | some filter =>
    if w.session.matchOnly then pure w
    else
      let file := getFilename v.buf none url.bytes w.session.downloadFolder.str.bytes
      let w := { w with copies := w.copies ++ file.copies }
      if !hasBeenDownloaded w.session.value.downloads url && !fileExists w.disk file.path then
        attempt o v w item url file.path filter.agent
      else pure w

/-- The loop over the URLs of an item. -/
def processURLs (o : Outside) (w : World) (item : Trailermatic.FeedItem) : Alloc World :=
  item.urls.foldlM (fun w url => processURL o w item url) w

/-- The items are only read. -/
def processRSSList (o : Outside) (items : List Trailermatic.FeedItem) (w : World) :
    Alloc World :=
  items.foldlM (processURLs o) w

section Visits

variable {o : Outside} (ho : o.Allowed)

include ho

theorem realizes_notify (event : ProwlEvent) (item : Trailermatic.FeedItem) (w : World) :
  Realizes (notify o event item w) w.blocks (some (noticed event item w.value)) World.value
    World.blocks (o.noticeLost w.value)
  := by
  have hkey : w.value.session.prowlKey.isSome = w.session.prowlKey.isSome := Option.isSome_map
  have hvalid : w.value.session.prowlKeyValid = w.session.prowlKeyValid := rfl
  rw [notify, noticed, Outside.noticeLost, hkey, hvalid]
  cases w.session.prowlKeyValid with
  | false => exact realizes_pure rfl (List.Perm.refl _)
  | true =>
    simp only [if_true, Bool.true_and]
    apply (realizes_sendProwlNotification ho.lists (ho.notice w.visits) w.session.prowlKey
      w.isMoveHeader w.blocks).map (h := fun _ => ({ w.value with
        trace := .notify event w.session.value.prowlKey item.name :: w.trace } :
          Trailermatic.World))
    · intro isMoveHeader
      rfl
    · intro isMoveHeader
      apply List.Perm.refl

omit ho in
theorem realizes_runScript (path : Bytes) (w : World) :
  Realizes (runScript path w) w.blocks (some (scripted path w.value)) World.value World.blocks 0
  := by
  have hscript : w.value.session.downloadDoneScript = w.session.downloadDoneScript.map Text.str :=
    rfl
  rw [runScript, scripted, hscript]
  cases w.session.downloadDoneScript with
  | none => exact realizes_pure rfl (List.Perm.refl _)
  | some script =>
    apply (realizes_callDownloadDoneScript script path _).andThen
    intro _ _
    exact realizes_pure rfl (List.Perm.refl _)

omit ho in
theorem realizes_recordURL (save : SaveAnswers) (url : Str) (w : World) :
  Realizes (recordURL save url w) w.blocks (some (recorded save url w.value)) World.value
    World.blocks 0
  := by
  apply (realizes_downloads w.session (realizes_addToBucket url w.session.downloads
    w.session.maxBucketItems.toNat)).andThen
  intro as has
  apply realizes_pure
  · have hsession : AutoHandle.value { as with bucketChanged := true }
        = { as.value with bucketChanged := true } := rfl
    rw [World.value, hsession, has]
    rfl
  · apply List.Perm.refl

theorem realizes_recordDownload (save : SaveAnswers) (w : World) (item : Trailermatic.FeedItem)
    (url : Str) (path : Bytes) :
  Realizes (recordDownload o save w item url path) w.blocks
    (some (Trailermatic.recordDownload save w.value item url path)) World.value World.blocks
    (o.noticeLost w.value)
  := by
  rw [recordDownload_eq]
  apply (realizes_notify ho .newTrailer item w).followed
    (h := fun w => recorded save url (scripted path w))
  intro w
  apply (realizes_runScript path w).andThen
  intro w' hw'
  rw [← hw']
  apply realizes_recordURL

theorem realizes_tell (save : SaveAnswers) (responseCode : ℤ) (w : World)
    (item : Trailermatic.FeedItem) (url : Str) (path : Bytes) :
  Realizes (tell o save responseCode w item url path) w.blocks
    (some (if responseCode = 200 then Trailermatic.recordDownload save w.value item url path
      else reportFailure w.value item)) World.value World.blocks (o.noticeLost w.value)
  := by
  rw [tell]
  split_ifs
  · apply realizes_recordDownload ho
  · apply realizes_notify ho

theorem realizes_attempt (v : Visit) (w : World) (item : Trailermatic.FeedItem) (url : Str)
    (path : Bytes) (agent : Option Bytes) :
  Realizes (attempt o v w item url path agent) w.blocks
    (some (Trailermatic.attempt v w.value item url path agent)) World.value World.blocks
    (o.attemptLost v w.value url path agent)
  := by
  apply (realizes_downloadFile v.download url.bytes path agent w.disk _).andThen
  rintro ⟨answer, disk⟩ hanswer
  have hdisk : w.value.disk = w.disk := rfl
  rw [Trailermatic.attempt, Outside.attemptLost, hdisk, ← hanswer]
  cases answer with
  | none => exact realizes_pure rfl (List.Perm.refl _)
  | some answer =>
    obtain ⟨r, response⟩ := answer
    apply (realizes_tell ho v.save r.responseCode _ item url path).thenRelease
    apply realizes_httpResponseFree

theorem realizes_processURL (w : World) (item : Trailermatic.FeedItem) (url : Str) :
  Realizes (processURL o w item url) w.blocks
    (some (Trailermatic.processURL o.env w.value item url)) World.value World.blocks
    (o.urlLost w.value url)
  := by
  rw [processURL, Trailermatic.processURL, Outside.urlLost]
  simp only [Outside.env, beginVisit, World.value_session, World.value_disk, World.value_visits]
  cases isMatch o.pcre w.session.value.filters url.bytes with
  | none => exact realizes_pure rfl (List.Perm.refl _)
  | some filter =>
    have honly : w.session.value.matchOnly = w.session.matchOnly := rfl
    have hfolder : w.session.value.downloadFolder = w.session.downloadFolder.str := rfl
    simp only [honly, hfolder]
    split_ifs
    · exact realizes_pure rfl (List.Perm.refl _)
    · apply realizes_attempt ho
    · exact realizes_pure rfl (List.Perm.refl _)

theorem realizes_processURLs (w : World) (item : Trailermatic.FeedItem) :
  Realizes (processURLs o w item) w.blocks
    (some (Trailermatic.processURLs o.env item item.urls w.value)) World.value World.blocks
    (o.itemLost w.value item)
  := by
  rw [processURLs_eq_foldl]
  apply realizes_foldlM_some World.value World.blocks o.urlLost
  intro w url
  apply realizes_processURL ho

theorem realizes_processRSSList (items : List Trailermatic.FeedItem) (w : World) :
  Realizes (processRSSList o items w) w.blocks
    (some (Trailermatic.processRSSList o.env items w.value)) World.value World.blocks
    (o.listLost w.value items)
  := by
  rw [processRSSList_eq_foldl]
  apply realizes_foldlM_some World.value World.blocks o.itemLost
  intro w item
  apply realizes_processURLs ho

end Visits

/-! ### Passes -/

/-- Make room for the items of a feed; the capacity is 16 bits wide. -/
def growBucket (w : World) (itemCount : ℕ) : World :=
  { w with session := { w.session with
      maxBucketItems := w.session.maxBucketItems + UInt16.ofNat itemCount } }

/-- The items of a document, with their count. -/
def feedItems (a : LibxmlAnswers) : Alloc (ℕ × List (ℕ × FeedItem)) :=
  lift fun heap =>
    let (itemCount, items, heap) := parseXmldata a heap
    ((itemCount, items), heap)

/-- Parse a document and process its items, which are freed in the end. -/
def processDocument (o : Outside) (grows : Bool) (data : Bytes) (w : World) : Alloc World := do
  let (itemCount, items) ← feedItems (o.libxml data)
  let w ← processRSSList o (items.map fun cell => cell.2.value)
    (if grows then growBucket w itemCount else w)
  lift fun heap => ((), freeItems items heap)
  return w

/-- What is done about the answer to a request for a feed: a document with the status 200 is
processed. -/
def processReply (o : Outside) (firstrun : Bool) (reply : Reply) (w : World) : Alloc World :=
  if reply.responseCode = 200 then
    match reply.data with
    | none => pure w
    | some data => processDocument o firstrun data w
  else pure w

/-- Request a feed and process the answer; the response is freed in the end. -/
def processFeed (o : Outside) (firstrun : Bool) (w : World) (feed : Trailermatic.RssFeed) :
    Alloc World :=
  match feed.url with
  | none => pure { w with fetches := w.fetches + 1 }
  | some url => do
    let (answer, isMoveHeader) ←
      getHttpData o.pcre (o.fetch w.fetches feed) url w.isMoveHeader
    let w := { w with fetches := w.fetches + 1, isMoveHeader := isMoveHeader }
    match answer with
    | none => return w
    | some (reply, response) =>
      let w ← processReply o firstrun reply w
      httpResponseFree response
      return w

/-- The feeds are only read. -/
def checkFeeds (o : Outside) (firstrun : Bool) (w : World) : Alloc World :=
  w.session.value.feeds.foldlM (processFeed o firstrun) w

/-- The passes of the main loop, of which only the first one makes room in the history. -/
def mainLoop (o : Outside) : ℕ → Bool → World → Alloc World
  | 0, _, w => pure w
  | passes + 1, firstRun, w => do
    let w ← checkFeeds o firstRun w
    mainLoop o passes false w

/-- The pass over a file, which is in a buffer that is freed in the end. -/
def processFile (o : Outside) (w : World) (xmldata : Option Bytes) : Alloc World :=
  match xmldata with
  | none => pure w
  | some data => do
    let buffer ← malloc
    let w ← processDocument o true (cstr data) w
    Alloc.free buffer
    return w

theorem realizes_feedItems (a : LibxmlAnswers) (data : Bytes) (owned : List ℕ) :
  Realizes (feedItems a) owned (some (Trailermatic.parseXmldata (fun _ => a.nodes) data))
    (Prod.map id (List.map fun cell => cell.2.value))
    (fun r => r.2.flatMap itemBlocks ++ owned) (overwritten a)
  := by
  have h : Realizes (feedItems a) [] (some (Trailermatic.parseXmldata (fun _ => a.nodes) data))
      (Prod.map id (List.map fun cell => cell.2.value)) (fun r => r.2.flatMap itemBlocks)
      (overwritten a) := by
    apply realizes_lift
    intro heap
    apply passes_parseXmldata
  apply h.frame owned

theorem realizes_freeItems (items : List (ℕ × FeedItem)) (owned : List ℕ) :
  Realizes (lift fun heap => ((), freeItems items heap)) (items.flatMap itemBlocks ++ owned)
    (some ()) id (fun _ => owned) 0
  := by
  apply realizes_lift
  intro heap
  exact ⟨rfl, (passes_freeItems items heap).frame owned⟩

section Passes

variable {o : Outside} (ho : o.Allowed)

include ho

theorem realizes_processDocument (grows : Bool) (data : Bytes) (w : World) :
  Realizes (processDocument o grows data w) w.blocks
    (some (documentProcessed o.env grows data w.value)) World.value World.blocks
    (o.documentLost grows w.value data)
  := by
  apply Realizes.bind (y := some (Trailermatic.parseXmldata o.env.libxml data))
    (g := fun r => some (Trailermatic.processRSSList o.env r.2
      (if grows then Trailermatic.growBucket w.value r.1 else w.value)))
    (n := fun r => o.listLost (if grows then Trailermatic.growBucket w.value r.1 else w.value) r.2)
    (realizes_feedItems (o.libxml data) data w.blocks)
  rintro ⟨itemCount, items⟩ -
  cases grows with
  | false => apply (realizes_processRSSList ho _ w).thenRelease (realizes_freeItems items)
  | true =>
    apply (realizes_processRSSList ho _ (growBucket w itemCount)).thenRelease
      (realizes_freeItems items)

theorem realizes_processReply (firstrun : Bool) (reply : Reply) (w : World) :
  Realizes (processReply o firstrun reply w) w.blocks
    (some (replyProcessed o.env firstrun reply w.value)) World.value World.blocks
    (o.replyLost firstrun w.value reply)
  := by
  rw [processReply, Outside.replyLost, replyProcessed]
  by_cases hcode : reply.responseCode = 200
  · rw [if_pos hcode, if_pos hcode, if_pos hcode]
    cases reply.data with
    | none => exact realizes_pure rfl (List.Perm.refl _)
    | some data => apply realizes_processDocument ho
  · rw [if_neg hcode, if_neg hcode, if_neg hcode]
    exact realizes_pure rfl (List.Perm.refl _)

theorem realizes_processFeed (firstrun : Bool) (w : World) (feed : Trailermatic.RssFeed) :
  Realizes (processFeed o firstrun w feed) w.blocks
    (some (Trailermatic.processFeed o.env w.value feed firstrun)) World.value World.blocks
    (o.fetchLost firstrun w.value feed)
  := by
  rw [processFeed, processFeed_eq, Outside.fetchLost]
  simp only [Outside.env]
  cases feed.url with
  | none => exact realizes_pure rfl (List.Perm.refl _)
  | some url =>
    apply Realizes.bind (y := some (o.fetch w.fetches feed).answer)
      (g := fun answer => some (answer.elim { w.value with fetches := w.fetches + 1 } fun reply =>
        replyProcessed o.env firstrun reply { w.value with fetches := w.fetches + 1 }))
      (n := fun answer => answer.elim 0
        (o.replyLost firstrun { w.value with fetches := w.fetches + 1 }))
      (realizes_getHttpData ho.lists (ho.fetch w.fetches feed) url w.isMoveHeader w.blocks)
    rintro ⟨_ | ⟨reply, response⟩, isMoveHeader⟩ -
    · exact realizes_pure rfl (List.Perm.refl _)
    · apply (realizes_processReply ho firstrun reply { w with
        fetches := w.fetches + 1, isMoveHeader := isMoveHeader }).thenRelease
      apply realizes_httpResponseFree

theorem realizes_checkFeeds (firstrun : Bool) (w : World) :
  Realizes (checkFeeds o firstrun w) w.blocks
    (some (Trailermatic.checkFeeds o.env firstrun w.value.session.feeds w.value)) World.value
    World.blocks (o.passLost firstrun w.value)
  := by
  rw [checkFeeds_eq_foldl]
  apply realizes_foldlM_some World.value World.blocks (o.fetchLost firstrun)
  intro w feed
  apply realizes_processFeed ho

theorem realizes_mainLoop (passes : ℕ) (firstRun : Bool) (w : World) :
  Realizes (mainLoop o passes firstRun w) w.blocks
    (some (Trailermatic.mainLoop o.env passes firstRun w.value)) World.value World.blocks
    (o.mainLoopLost passes firstRun w.value)
  := by
  induction passes generalizing firstRun w with
  | zero => exact realizes_pure rfl (List.Perm.refl _)
  | succ passes ih =>
    apply Realizes.bind (g := fun w => some (Trailermatic.mainLoop o.env passes false w))
      (n := o.mainLoopLost passes false) (realizes_checkFeeds ho firstRun w)
    intro w' _
    apply ih

theorem realizes_processFile (w : World) (xmldata : Option Bytes) :
  Realizes (processFile o w xmldata) w.blocks
    (some (Trailermatic.processFile o.env w.value xmldata)) World.value World.blocks
    (o.fileLost w.value xmldata)
  := by
  cases xmldata with
  | none => exact realizes_pure rfl (List.Perm.refl _)
  | some data =>
    apply (realizes_malloc _).andThen
    intro buffer _
    have hfree : ∀ others, Realizes (Alloc.free buffer) ([buffer] ++ others) (some ()) id
        (fun _ => others) 0 := realizes_free buffer
    apply (realizes_processDocument ho true (cstr data) w).thenRelease hfree

end Passes

end Owned

end Trailermatic
