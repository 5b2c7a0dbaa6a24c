import Trailermatic.Prowl

/-!
# The handles of a run

The daemon together with the handles it has made.  Downloads, notifications and the request
about the key give back the handles they make; `processFeed` closes the handle of a request
only if there is a response.  `handles_closed_iff` says that a run leaves no handle open
exactly when no request of a feed loses one.
-/

namespace Trailermatic

/-- What libcurl answers in a run: to the request of each feed, and to the tries to send the
notification of each visit. -/
structure CurlAnswers where
  request : ℕ → RequestAnswers
  send : ℕ → ℕ → RequestAnswers

/-- The environment in which the feeds are fetched by `getHTTPData`. -/
def Env.served (env : Env) (answers : CurlAnswers) : Env :=
  { env with fetch := fun t feed =>
      (getHttpData (answers.request t) feed.url feed.cookies none .empty).response }

/-- The daemon and its handles. -/
structure Host where
  world : World
  handles : Ledger

/-- What a call does to the handles.  `a` are the answers to a download, `send` those to the
tries to send a notification. -/
def Event.handles (a : DownloadAnswers) (send : ℕ → RequestAnswers) (e : Event)
    (handles : Ledger) : Ledger :=
  match e with
  | .download url path _ _ => downloadHandles a (some url.bytes) (some path) handles
  | .notify event key name => (prowlSendNotification send event key name handles).2
  | .record .. => handles
  | .script .. => handles

theorem Event.handles_balanced (a : DownloadAnswers) (send : ℕ → RequestAnswers) (e : Event)
    (handles : Ledger) :
  handles.Balanced (e.handles a send handles)
  := by
  cases e with
  | download url path opened response =>
    exact downloadHandles_balanced a (some url.bytes) (some path) handles
  | record url count maxBucketItems => apply Ledger.Balanced.refl
  | notify event key name => exact prowlSendNotification_balanced send event key name handles
  | script name path => apply Ledger.Balanced.refl

/-- The events between two worlds, oldest first. -/
def newEvents (w w' : World) : List Event :=
  (w'.trace.take (w'.trace.length - w.trace.length)).reverse

namespace Host

variable (env : Env) (answers : CurlAnswers)

/-- The visit of a URL, whose calls are the events it adds. -/
def processURL (item : FeedItem) (host : Host) (url : Str) : Host :=
  let visits := host.world.visits
  let w := Trailermatic.processURL env host.world item url
  { world := w
    handles := (newEvents host.world w).foldl
      (fun handles e => e.handles (env.visit visits).download (answers.send visits) handles)
      host.handles }

/-- The loop over the URLs of an item, with the handles. -/
def processURLs (host : Host) (item : FeedItem) : Host :=
  item.urls.foldl (processURL env answers item) host

/-- The loop over the items of a feed, with the handles. -/
def processRSSList (items : List FeedItem) (host : Host) : Host :=
  items.foldl (processURLs env answers) host

/-- The handle of the request is closed if there is a response. -/
def processFeed (host : Host) (feed : RssFeed) (firstrun : Bool) : Host :=
  let w := host.world
  let fetched := getHttpData (answers.request w.fetches) feed.url feed.cookies none host.handles
  let w := { w with fetches := w.fetches + 1 }
  match fetched.response with
  | none => ⟨w, fetched.handles⟩
  | some response =>
    let host : Host :=
      if response.responseCode = 200 then
        match response.data with
        | none => ⟨w, fetched.handles⟩
        | some data =>
          let (itemCount, items) := parseXmldata env.libxml data
          processRSSList env answers items
            ⟨if firstrun then growBucket w itemCount else w, fetched.handles⟩
      else ⟨w, fetched.handles⟩
    { host with handles := closeCurlSession fetched.session host.handles }

/-- The pass over a file with a feed; its text ends at the first NUL. -/
def processFile (host : Host) (xmldata : Option Bytes) : Host :=
  match xmldata with
  | none => host
  | some data =>
    let (itemCount, items) := parseXmldata env.libxml (cstr data)
    processRSSList env answers items { host with world := growBucket host.world itemCount }

/-- A pass over the feeds, with the handles. -/
def checkFeeds (firstrun : Bool) : List RssFeed → Host → Host
  | [], host => host
  | feed :: feeds, host => checkFeeds firstrun feeds (processFeed env answers host feed firstrun)

/-- The passes of the main loop, of which only the first one makes room in the history. -/
def mainLoop : ℕ → Bool → Host → Host
  | 0, _, host => host
  | passes + 1, firstRun, host =>
    mainLoop passes false (checkFeeds env answers firstRun host.world.session.feeds host)

/-- The daemon when some passes are over and the next one has processed `k` feeds. -/
def moment (host : Host) (passes k : ℕ) : Host :=
  checkFeeds env answers (passes == 0) (host.world.session.feeds.take k)
    (mainLoop env answers passes true host)

/-! ### The daemon of the host -/

theorem world_processRSSList (items : List FeedItem) (host : Host) :
  (processRSSList env answers items host).world
    = Trailermatic.processRSSList (env.served answers) items host.world
  := by
  have hurls (item : FeedItem) (urls : List Str) (host : Host) :
      (urls.foldl (processURL env answers item) host).world
        = Trailermatic.processURLs (env.served answers) item urls host.world := by
    induction urls generalizing host with
    | nil => rfl
    | cons url urls ih => apply ih
  induction items generalizing host with
  | nil => rfl
  | cons item items ih =>
    apply (ih (processURLs env answers host item)).trans
    rw [processURLs, hurls]
    rfl

theorem world_processFeed (host : Host) (feed : RssFeed) (firstrun : Bool) :
  (processFeed env answers host feed firstrun).world
    = Trailermatic.processFeed (env.served answers) host.world feed firstrun
  := by
  have hresponse := getHttpData_response (answers.request host.world.fetches) feed.url
    feed.cookies host.handles .empty
  simp only [processFeed, Trailermatic.processFeed, Env.served, hresponse]
  cases (getHttpData (answers.request host.world.fetches) feed.url feed.cookies none
    .empty).response with
  | none => rfl
  | some response =>
    by_cases hcode : response.responseCode = 200
    · simp only [if_pos hcode]
      cases response.data with
      | none => rfl
      | some data => apply world_processRSSList
    · simp only [if_neg hcode]

theorem world_checkFeeds (firstrun : Bool) (feeds : List RssFeed) (host : Host) :
  (checkFeeds env answers firstrun feeds host).world
    = Trailermatic.checkFeeds (env.served answers) firstrun feeds host.world
  := by
  induction feeds generalizing host with
  | nil => rfl
  | cons feed feeds ih =>
    rw [checkFeeds, ih, world_processFeed]
    rfl

theorem world_mainLoop (passes : ℕ) (firstRun : Bool) (host : Host) :
  (mainLoop env answers passes firstRun host).world
    = Trailermatic.mainLoop (env.served answers) passes firstRun host.world
  := by
  induction passes generalizing firstRun host with
  | zero => rfl
  | succ passes ih =>
    rw [mainLoop, ih, world_checkFeeds]
    rfl

/-- The daemon of the host is the one that fetches its feeds by `getHTTPData`. -/
theorem world_moment (host : Host) (passes k : ℕ) :
  (moment env answers host passes k).world
    = host.world.moment (env.served answers) passes k
  := by
  rw [moment, world_checkFeeds, world_mainLoop]
  rfl

/-- The calls of a visit are the events that it adds to the trace. -/
theorem trace_processURL (item : FeedItem) (host : Host) (url : Str) :
  (processURL env answers item host url).world.trace
    = (newEvents host.world (processURL env answers item host url).world).reverse
      ++ host.world.trace
  := by
  obtain ⟨added, hadded, -⟩ := (processURL_visited env host.world item url).exists_added
  have htrace : (processURL env answers item host url).world.trace
      = added ++ host.world.trace := hadded
  rw [newEvents, List.reverse_reverse, htrace, List.length_append, Nat.add_sub_cancel,
    List.take_left]

/-! ### Visits give back their handles -/

theorem processURL_balanced (item : FeedItem) (host : Host) (url : Str) :
  host.handles.Balanced (processURL env answers item host url).handles
  := by
  apply List.foldlRecOn (motive := fun handles => host.handles.Balanced handles)
  · apply Ledger.Balanced.refl
  · intro handles h e _
    apply h.trans
    apply Event.handles_balanced

theorem processRSSList_balanced (items : List FeedItem) (host : Host) :
  host.handles.Balanced (processRSSList env answers items host).handles
  := by
  apply List.foldlRecOn (motive := fun host' : Host => host.handles.Balanced host'.handles)
  · apply Ledger.Balanced.refl
  · intro host' h item _
    apply h.trans
    apply List.foldlRecOn (motive := fun host'' : Host => host'.handles.Balanced host''.handles)
    · apply Ledger.Balanced.refl
    · intro host'' h' url _
      apply h'.trans
      apply processURL_balanced

theorem processFile_balanced (host : Host) (xmldata : Option Bytes) :
  host.handles.Balanced (processFile env answers host xmldata).handles
  := by
  cases xmldata with
  | none => apply Ledger.Balanced.refl
  | some data =>
    exact processRSSList_balanced env answers (parseXmldata env.libxml (cstr data)).2
      { host with world := growBucket host.world (parseXmldata env.libxml (cstr data)).1 }

/-- A feed leaves open the handle of a request that it loses, and no other. -/
theorem keeps_processFeed (host : Host) (feed : RssFeed) (firstrun : Bool) :
  host.handles.Keeps (processFeed env answers host feed firstrun).handles
    (if Loses (answers.request host.world.fetches) feed.url feed.cookies
      then [host.handles.acquired] else [])
  := by
  simp only [processFeed]
  cases hresponse : (getHttpData (answers.request host.world.fetches) feed.url feed.cookies none
    host.handles).response with
  | none => exact keeps_getHttpData hresponse
  | some response =>
    obtain ⟨hsession, hhandles⟩ := getHttpData_session hresponse
    rw [if_neg (not_loses_of_response hresponse), hsession, hhandles]
    apply Ledger.keeps_release
    by_cases hcode : response.responseCode = 200
    · rw [if_pos hcode]
      cases response.data with
      | none => apply Ledger.Balanced.refl
      | some data => exact processRSSList_balanced env answers _ ⟨_, host.handles.acquire⟩
    · rw [if_neg hcode]
      apply Ledger.Balanced.refl

/-! ### Handles that are lost -/

/-- How many of the requests lose their handle when the feeds are requested one after the
other, the first one as the request `t`. -/
def lost : ℕ → List RssFeed → ℕ
  | _, [] => 0
  | t, feed :: feeds =>
    (if Loses (answers.request t) feed.url feed.cookies then 1 else 0) + lost (t + 1) feeds

theorem lost_append (t : ℕ) (feeds feeds' : List RssFeed) :
  lost answers t (feeds ++ feeds') = lost answers t feeds + lost answers (t + feeds.length) feeds'
  := by
  induction feeds generalizing t with
  | nil => simp [lost]
  | cons feed feeds ih =>
    have hnext : t + 1 + feeds.length = t + (feeds.length + 1) := by omega
    rw [List.cons_append, lost, ih, lost, List.length_cons, hnext, Nat.add_assoc]

theorem lost_eq_zero_iff (t : ℕ) (feeds : List RssFeed) :
  lost answers t feeds = 0
    ↔ ∀ i feed, feeds[i]? = some feed → ¬ Loses (answers.request (t + i)) feed.url feed.cookies
  := by
  induction feeds generalizing t with
  | nil => simp [lost]
  | cons feed feeds ih =>
    rw [lost, Nat.add_eq_zero_iff, ih]
    constructor
    · rintro ⟨hfirst, hrest⟩ i other hother
      cases i with
      | zero =>
        obtain rfl := Option.some.inj hother
        intro hloses
        rw [Nat.add_zero] at hloses
        rw [if_pos hloses] at hfirst
        cases hfirst
      | succ i =>
        rw [Nat.add_comm i, ← Nat.add_assoc]
        apply hrest i other hother
    · intro h
      constructor
      · apply if_neg
        apply h 0 feed rfl
      · intro i other hother
        rw [Nat.add_assoc, Nat.add_comm 1]
        apply h (i + 1) other hother

/-- The feeds of a stretch of a pass leave open the handles of the requests that lose them. -/
theorem keeps_checkFeeds (firstrun : Bool) (feeds : List RssFeed) (host : Host) :
  ∃ kept : List ℕ, host.handles.Keeps (checkFeeds env answers firstrun feeds host).handles kept
    ∧ kept.length = lost answers host.world.fetches feeds
  := by
  induction feeds generalizing host with
  | nil => exact ⟨[], Ledger.Balanced.refl _, rfl⟩
  | cons feed feeds ih =>
    obtain ⟨kept, hkept, hlength⟩ := ih (processFeed env answers host feed firstrun)
    refine ⟨_, (keeps_processFeed env answers host feed firstrun).trans hkept, ?_⟩
    rw [List.length_append, hlength, world_processFeed, (processFeed_kept _ _ _ _).1, lost]
    split_ifs
    · rfl
    · rfl

/-- The feeds that are requested in some passes and the first `k` of the next one. -/
def requestedFeeds (feeds : List RssFeed) (passes k : ℕ) : List RssFeed :=
  (List.replicate passes feeds).flatten ++ feeds.take k

theorem keeps_mainLoop (passes : ℕ) (firstRun : Bool) (host : Host) :
  ∃ kept : List ℕ, host.handles.Keeps (mainLoop env answers passes firstRun host).handles kept
    ∧ kept.length
      = lost answers host.world.fetches (List.replicate passes host.world.session.feeds).flatten
  := by
  induction passes generalizing firstRun host with
  | zero => exact ⟨[], Ledger.Balanced.refl _, rfl⟩
  | succ passes ih =>
    obtain ⟨kept, hkept, hlength⟩ :=
      keeps_checkFeeds env answers firstRun host.world.session.feeds host
    obtain ⟨kept', hkept', hlength'⟩ :=
      ih false (checkFeeds env answers firstRun host.world.session.feeds host)
    have hfetches := (checkFeeds_take (env.served answers) firstRun host.world.session.feeds
      host.world (Nat.le_refl _)).1
    rw [List.take_length] at hfetches
    rw [world_checkFeeds, hfetches,
      (Run.alike (run_checkFeeds _ firstRun host.world.session.feeds host.world)).feeds] at hlength'
    refine ⟨_, hkept.trans hkept', ?_⟩
    rw [List.length_append, hlength, hlength', List.replicate_succ, List.flatten_cons, lost_append]

theorem length_flatten_replicate (feeds : List RssFeed) (passes : ℕ) :
  (List.replicate passes feeds).flatten.length = passes * feeds.length
  := by
  induction passes with
  | zero => rw [List.replicate_zero, List.flatten_nil, List.length_nil, Nat.zero_mul]
  | succ passes ih =>
    rw [List.replicate_succ, List.flatten_cons, List.length_append, ih, Nat.succ_mul, Nat.add_comm]

/-- At every moment the handles left open are those of the requests that lost them. -/
theorem keeps_moment (host : Host) (passes k : ℕ) :
  ∃ kept : List ℕ, host.handles.Keeps (moment env answers host passes k).handles kept
    ∧ kept.length
      = lost answers host.world.fetches (requestedFeeds host.world.session.feeds passes k)
  := by
  obtain ⟨kept, hkept, hlength⟩ := keeps_mainLoop env answers passes true host
  obtain ⟨kept', hkept', hlength'⟩ := keeps_checkFeeds env answers (passes == 0)
    (host.world.session.feeds.take k) (mainLoop env answers passes true host)
  refine ⟨_, hkept.trans hkept', ?_⟩
  rw [world_mainLoop, (mainLoop_fetches _ passes true _).1] at hlength'
  rw [List.length_append, hlength, hlength', requestedFeeds, lost_append,
    length_flatten_replicate]

/-- The daemon and its handles as its first pass begins: a handle may have been made to ask
about the key. -/
def started (a : RequestAnswers) (s : Session) (file : Option Bytes) (disk : Disk) : Host :=
  ⟨Trailermatic.started a s file disk, (verifyProwlAPIKey a s.prowlKey .empty).2⟩

end Host

/-- Downloads, notifications, the request about the key and the pass over a file give back
each handle they make exactly once.  A feed does so exactly when it does not lose the handle
of its request, and at every moment of a run no handle is open exactly when no request so
far has lost its handle. -/
theorem handles_closed_iff (env : Env) (answers : CurlAnswers) :
  (∀ (a : DownloadAnswers) (url filename : Option Bytes) (handles : Ledger),
      handles.Balanced (downloadHandles a url filename handles))
    ∧ (∀ (tries : ℕ → RequestAnswers) (url data : Option Bytes) (handles : Ledger),
      handles.Balanced (sendHttpData tries url data handles).2)
    ∧ (∀ (a : RequestAnswers) (apikey : Option Str) (handles : Ledger),
      handles.Balanced (verifyProwlAPIKey a apikey handles).2)
    ∧ (∀ (host : Host) (xmldata : Option Bytes),
      host.handles.Balanced (host.processFile env answers xmldata).handles)
    ∧ (∀ (host : Host) (feed : RssFeed) (firstrun : Bool),
      host.handles.Balanced (host.processFeed env answers feed firstrun).handles
        ↔ ¬ Loses (answers.request host.world.fetches) feed.url feed.cookies)
    ∧ ∀ (a : RequestAnswers) (s : Session) (file : Option Bytes) (disk : Disk) (passes k : ℕ),
      ((Host.started a s file disk).moment env answers passes k).handles.live = []
        ↔ ∀ t feed, (Host.requestedFeeds s.feeds passes k)[t]? = some feed →
          ¬ Loses (answers.request t) feed.url feed.cookies
  := by
  refine ⟨downloadHandles_balanced, sendHttpData_balanced, verifyProwlAPIKey_balanced,
    Host.processFile_balanced env answers, ?_, ?_⟩
  · intro host feed firstrun
    rw [(Host.keeps_processFeed env answers host feed firstrun).balanced_iff]
    split_ifs with hloses
    · simp [hloses]
    · simp [hloses]
  · intro a s file disk passes k
    have hfeeds : (started a s file disk).session.feeds = s.feeds := by
      simp only [started, World.start, Session.loaded, checkKey]
      split_ifs
      · rfl
      · rfl
    obtain ⟨kept, hkept, hlength⟩ :=
      Host.keeps_moment env answers (Host.started a s file disk) passes k
    have hlive : ((Host.started a s file disk).moment env answers passes k).handles.live.length
        = kept.length :=
      (Ledger.Keeps.trans (verifyProwlAPIKey_balanced a s.prowlKey .empty) hkept).length_live
    rw [← List.length_eq_zero_iff, hlive, hlength, Host.started, hfeeds, Host.lost_eq_zero_iff]
    simp only [started, World.start, Nat.zero_add]

/-- A feed whose request makes a handle and fails leaves the handle open after every pass. -/
theorem handles_not_closed :
  ((Host.started unanswered (.plain [plainFeed] []) none fun _ => none).moment
    (.plain [] fun _ => .plain 200) ⟨fun _ => unanswered, fun _ _ => unanswered⟩ 3 0
    ).handles.live = [0, 1, 2]
  := by
  decide

end Trailermatic
