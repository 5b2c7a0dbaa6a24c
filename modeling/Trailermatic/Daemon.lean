import Trailermatic.Session
import Trailermatic.Web

/-!
# The daemon

The daemon fetches its feeds in passes.  `processRSSList` downloads every URL of a feed
that a filter matches, that is not in the history, and whose file does not exist; a
completed download is recorded in the history and the history is saved.  What the world
outside answers, and what others do to files, is given by an environment.
-/

namespace Trailermatic

/-! ### The world -/

/-- The events that a notification tells of. -/
inductive ProwlEvent where
  | newTrailer
  | downloadFailed
deriving DecidableEq

/-- What the daemon does that the outside sees: downloads and whether their file was
opened, entries recorded in the history with the length and the capacity of the history
at that moment, notifications, and runs of the script. -/
inductive Event where
  | download (url : Str) (path : Bytes) (opened : Bool) (response : Option HttpResponse)
  | record (url : Str) (count maxBucketItems : ℕ)
  | notify (event : ProwlEvent) (key : Option Str) (name : Option Str)
  | script (name : Str) (path : Bytes)
deriving DecidableEq

/-- The session, the files, the events so far (newest first), the writes into fixed
buffers so far, and how many URLs and how many feeds were visited. -/
structure World where
  session : Session
  disk : Disk
  trace : List Event
  copies : List Copy
  visits : ℕ
  fetches : ℕ

/-- What happens around the visit of a URL: what others do to the files before it, the
string the name buffer holds, and the answers to the download and to saving. -/
structure Visit where
  others : Disk → Disk
  buf : Bytes
  download : DownloadAnswers
  save : SaveAnswers

/-- The answer to a request for a feed. -/
structure Reply where
  responseCode : ℤ
  data : Option Bytes

/-- The world outside: the libraries, what happens around each visit of a URL, and the
answer to each request for a feed. -/
structure Env where
  pcre : Pcre
  libxml : Bytes → Option (List XmlNode)
  visit : ℕ → Visit
  fetch : ℕ → RssFeed → Option Reply

/-! ### Visiting a URL -/

/-- The download is complete: notify, run the script, record the URL and save. -/
def recordDownload (save : SaveAnswers) (w : World) (item : FeedItem) (url : Str)
    (path : Bytes) : World :=
  let s := w.session
  let notices := if s.prowlKeyValid then [.notify .newTrailer s.prowlKey item.name] else []
  let scripts := match s.downloadDoneScript with
    | some script => [.script script path]
    | none => []
  let max := s.maxBucketItems.toNat
  let downloads := addToBucket url s.downloads max
  let run := saveState save downloads
  { w with
    session := { s with downloads := downloads, bucketChanged := true }
    disk := Function.update w.disk s.statefile.bytes
      (runSteps run.steps (w.disk s.statefile.bytes))
    trace := .record url (listCount s.downloads) max :: (scripts ++ (notices ++ w.trace))
    copies := w.copies ++ run.copies }

/-- The download answered with another code: notify. -/
def reportFailure (w : World) (item : FeedItem) : World :=
  let s := w.session
  if s.prowlKeyValid then
    { w with trace := .notify .downloadFailed s.prowlKey item.name :: w.trace }
  else w

/-- Download a URL into the file `path`. -/
def attempt (v : Visit) (w : World) (item : FeedItem) (url : Str) (path : Bytes)
    (agent : Option Bytes) : World :=
  let (response, disk) := downloadFile v.download url.bytes path agent w.disk
  let w := { w with
    disk := disk
    trace := .download url path v.download.fopen response :: w.trace }
  match response with
  | some r =>
    if r.responseCode = 200 then recordDownload v.save w item url path
    else reportFailure w item
  | none => w

/-- The world as the visit of a URL begins. -/
def beginVisit (env : Env) (w : World) : World :=
  { w with visits := w.visits + 1, disk := (env.visit w.visits).others w.disk }

/-- The body of the loop over the URLs of an item.  If matches are only shown, the source prints
the match with the number of the feed in place of a string, which crashes the program for a number
above 0 where such messages are printed; here that branch goes on with the same world. -/
def processURL (env : Env) (w : World) (item : FeedItem) (url : Str) : World :=
  let v := env.visit w.visits
  let w := beginVisit env w
  match isMatch env.pcre w.session.filters url.bytes with
  | none => w
  | some filter =>
    if w.session.matchOnly then w
    else
      let file := getFilename v.buf none url.bytes w.session.downloadFolder.bytes
      let w := { w with copies := w.copies ++ file.copies }
      if !hasBeenDownloaded w.session.downloads url && !fileExists w.disk file.path then
        attempt v w item url file.path filter.agent
      else w

/-- The loop over the URLs of an item. -/
def processURLs (env : Env) (item : FeedItem) : List Str → World → World
  | [], w => w
  | url :: urls, w => processURLs env item urls (processURL env w item url)

/-- The loop over the items of a feed. -/
def processRSSList (env : Env) : List FeedItem → World → World
  | [], w => w
  | item :: items, w => processRSSList env items (processURLs env item item.urls w)

/-! ### Passes over the feeds -/

/-- Make room for the items of a feed; the capacity is 16 bits wide. -/
def growBucket (w : World) (itemCount : ℕ) : World :=
  { w with session := { w.session with
      maxBucketItems := w.session.maxBucketItems + UInt16.ofNat itemCount } }

/-- Request a feed and process its items.  In the first pass the history gets room for them. -/
def processFeed (env : Env) (w : World) (feed : RssFeed) (firstrun : Bool) : World :=
  let reply := env.fetch w.fetches feed
  let w := { w with fetches := w.fetches + 1 }
  match reply with
  | none => w
  | some response =>
    if response.responseCode = 200 then
      match response.data with
      | none => w
      | some data =>
        let (itemCount, items) := parseXmldata env.libxml data
        processRSSList env items (if firstrun then growBucket w itemCount else w)
    else w

/-- The pass over a file given on the command line; it is the only one.  `xmldata` is what
`readFile` gives. -/
def processFile (env : Env) (w : World) (xmldata : Option Bytes) : World :=
  match xmldata with
  | none => w
  | some data =>
    let (itemCount, items) := parseXmldata env.libxml (cstr data)
    processRSSList env items (growBucket w itemCount)

/-- One pass over the feeds. -/
def checkFeeds (env : Env) (firstrun : Bool) : List RssFeed → World → World
  | [], w => w
  | feed :: feeds, w => checkFeeds env firstrun feeds (processFeed env w feed firstrun)

/-- The world as the daemon starts: nothing has happened yet. -/
def World.start (session : Session) (disk : Disk) : World :=
  { session := session, disk := disk, trace := [], copies := [], visits := 0, fetches := 0 }

/-- The main loop after a number of passes. -/
def mainLoop (env : Env) : ℕ → Bool → World → World
  | 0, _, w => w
  | passes + 1, firstRun, w =>
    mainLoop env passes false (checkFeeds env firstRun w.session.feeds w)

/-! ### A plain setting -/

/-- A visit without the others, at which nothing is refused and the server answers with
the code `responseCode`. -/
def Visit.plain (responseCode : ℤ) : Visit where
  others := id
  buf := []
  download := ⟨true, true, fun _ _ => ⟨0, responseCode, 2, text "ok"⟩⟩
  save := .granting

def plainFeed : RssFeed :=
  ⟨some (text "http://a.example/rss"), none, 0⟩

/-- A document with one item, and the item in it. -/
def plainDocument (urls : List Str) : Bytes :=
  text "<rss><channel><item><title>a</title>"
    ++ urls.flatMap (fun url => text "<link>" ++ url.bytes ++ text "</link>")
    ++ text "</item></channel></rss>"

def plainNode (urls : List Str) : XmlNode :=
  .element (⟨text "title", some (text "a"), []⟩
    :: urls.map fun url => ⟨text "link", some url.bytes, []⟩)

/-- An environment in which every feed is a document with one item. -/
def Env.plain (urls : List Str) (visit : ℕ → Visit) : Env where
  pcre := .plain
  libxml data := if data = plainDocument urls then some [plainNode urls] else none
  visit := visit
  fetch _ _ := some ⟨200, some (plainDocument urls)⟩

end Trailermatic
