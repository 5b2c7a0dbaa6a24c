import Trailermatic.Curl
import Trailermatic.Limit

/-!
# Notifications

`verifyProwlAPIKey` asks the server about the key once, at the start; its verdict is `1`,
`-1` or the negated status, narrowed to 16 bits.  `main` takes every verdict but `0` for a
confirmation.  `notified_verified_iff` says for which keys and answers the notifications
of every run are covered by an answer with status 200.
-/

namespace Trailermatic

/-! ### Requests to the server -/

def PROWL_URL : Bytes := text "https://prowlapp.com"

def PROWL_ADD : Bytes := text "/publicapi/add"

def PROWL_VERIFY : Bytes := text "/publicapi/verify"

/-- What `snprintf` leaves in a buffer of `size` bytes. -/
def snprintf (size : ℕ) (s : Bytes) : Bytes :=
  s.take (size - 1)

/-- The form of a notification; its fields are not encoded. -/
def createProwlMessage (apikey : Option Str) (event desc : Bytes) : Option Bytes :=
  apikey.map fun key =>
    text "apikey=" ++ key.bytes ++ text "&priority=0&application=Trailermatic&event=" ++ event
      ++ text "&description=" ++ desc

/-- What is returned for a response. -/
def prowlResult (response : Option Reply) : Int16 :=
  match response with
  | none => -1
  | some response =>
    if response.responseCode = 200 then 1 else Int16.ofInt (-response.responseCode)

/-- Send a notification, and return what its answer stands for. -/
def sendProwlNotification (answers : ℕ → RequestAnswers) (apikey : Option Str)
    (event desc : Bytes) (handles : Ledger) : Int16 × Ledger :=
  match createProwlMessage apikey event desc with
  | none => (-1, handles)
  | some data =>
    let url := snprintf 128 (PROWL_URL ++ PROWL_ADD)
    let (response, handles) := sendHttpData answers (some url) (some data) handles
    (prowlResult response, handles)

/-- The URL that asks about a key. -/
def verifyUrl (apikey : Str) : Bytes :=
  snprintf 128 (PROWL_URL ++ PROWL_VERIFY ++ text "?apikey=" ++ apikey.bytes)

/-- Ask the server about a key, and return what its answer stands for. -/
def verifyProwlAPIKey (a : RequestAnswers) (apikey : Option Str) (handles : Ledger) :
    Int16 × Ledger :=
  match apikey with
  | none => (-1, handles)
  | some key =>
    let fetched := getHttpData a (some (verifyUrl key)) none none handles
    (prowlResult fetched.response, closeCurlSession fetched.session fetched.handles)

/-- The texts of the events. -/
def ProwlEvent.text : ProwlEvent → Bytes
  | .newTrailer => Trailermatic.text "New Trailer"
  | .downloadFailed => Trailermatic.text "Trailer Download Failed"

/-- Send a notification; says whether it was sent. -/
def prowlSendNotification (answers : ℕ → RequestAnswers) (event : ProwlEvent)
    (apikey filename : Option Str) (handles : Ledger) : Bool × Ledger :=
  -- glibc prints "(null)" for NULL
  let desc := snprintf 500 (filename.elim (text "(null)") Str.bytes)
  let (result, handles) := sendProwlNotification answers apikey event.text desc handles
  (result == 1, handles)

/-- No handle is lost by asking about a key, whatever the answer. -/
theorem verifyProwlAPIKey_balanced (a : RequestAnswers) (apikey : Option Str)
    (handles : Ledger) :
  handles.Balanced (verifyProwlAPIKey a apikey handles).2
  := by
  cases apikey with
  | none => apply Ledger.Balanced.refl
  | some key => apply getHttpData_closed

theorem prowlSendNotification_balanced (answers : ℕ → RequestAnswers) (event : ProwlEvent)
    (apikey filename : Option Str) (handles : Ledger) :
  handles.Balanced (prowlSendNotification answers event apikey filename handles).2
  := by
  cases apikey with
  | none => apply Ledger.Balanced.refl
  | some key =>
    simp only [prowlSendNotification, sendProwlNotification, createProwlMessage, Option.map_some]
    apply sendHttpData_balanced

/-! ### The key at the start -/

/-- `main` asks about the key before the first pass. -/
def checkKey (a : RequestAnswers) (s : Session) : Session :=
  if s.prowlKey.isSome && (verifyProwlAPIKey a s.prowlKey .empty).1 != 0 then
    { s with prowlKeyValid := true }
  else s

/-- The response to the request about a key. -/
def keyResponse (a : RequestAnswers) (apikey : Str) : Option Reply :=
  (getHttpData a (some (verifyUrl apikey)) none none .empty).response

/-- The request about the key was answered with status 200. -/
def Verified (a : RequestAnswers) (apikey : Option Str) : Prop :=
  ∃ key ∈ apikey, ∃ response ∈ keyResponse a key, response.responseCode = 200

/-- The request about the key was answered with a status that is `0` in 16 bits. -/
def Vanishes (a : RequestAnswers) (apikey : Option Str) : Prop :=
  ∃ key ∈ apikey, ∃ response ∈ keyResponse a key, 65536 ∣ response.responseCode

theorem prowlResult_eq_zero_iff {response : Option Reply} :
  prowlResult response = 0
    ↔ ∃ r ∈ response, r.responseCode ≠ 200 ∧ 65536 ∣ r.responseCode
  := by
  cases response with
  | none => simp [prowlResult]
  | some r =>
    simp only [prowlResult, Option.mem_some_iff, exists_eq_left']
    split_ifs with hcode
    · simp [hcode]
    · rw [← Int16.toInt_inj, Int16.toInt_ofInt, Int16.toInt_zero, ← Int.dvd_iff_bmod_eq_zero,
        Int.dvd_neg]
      simp [hcode, Int16.size]

/-- The key counts as valid unless there is none or the answer has a status that is `0` in
16 bits. -/
theorem checkKey_valid_iff (a : RequestAnswers) {s : Session} (h : s.prowlKeyValid = false) :
  (checkKey a s).prowlKeyValid = true ↔ s.prowlKey ≠ none ∧ ¬ Vanishes a s.prowlKey
  := by
  cases hkey : s.prowlKey with
  | none => simp [checkKey, hkey, h]
  | some key =>
    have hresult : (verifyProwlAPIKey a (some key) .empty).1 = prowlResult (keyResponse a key) :=
      rfl
    have hiff : (verifyProwlAPIKey a (some key) .empty).1 = 0 ↔ Vanishes a (some key) := by
      rw [hresult, prowlResult_eq_zero_iff]
      simp only [Vanishes, Option.mem_some_iff, exists_eq_left']
      apply exists_congr
      intro r
      apply and_congr_right
      intro _
      rw [and_iff_right_iff_imp]
      intro hdvd hcode
      rw [hcode] at hdvd
      revert hdvd
      decide
    rw [checkKey, hkey, ← hiff]
    split_ifs with htest
    · simpa using htest
    · simpa [h] using htest

/-! ### Notifications in a run -/

/-- The events that are notifications. -/
def Event.isNotify : Event → Bool
  | .notify .. => true
  | _ => false

/-- A download with a response. -/
def Event.isAnswer : Event → Bool
  | .download _ _ _ response => response.isSome
  | _ => false

/-- `prowl_sendNotification` has been called. -/
def World.Notified (w : World) : Prop :=
  ∃ e ∈ w.trace, e.isNotify = true

instance (w : World) : Decidable w.Notified :=
  inferInstanceAs (Decidable (∃ e ∈ w.trace, e.isNotify = true))

/-- A download has been answered. -/
def World.Answered (w : World) : Prop :=
  ∃ e ∈ w.trace, e.isAnswer = true

/-- Notifications have been sent exactly when the key counts as valid and a download has been
answered. -/
structure Told (valid : Bool) (w : World) : Prop where
  flag : w.session.prowlKeyValid = valid
  notified : w.Notified ↔ valid = true ∧ w.Answered

theorem Told.of_eq {valid : Bool} {w w' : World} (h : Told valid w)
    (hsession : w'.session = w.session) (htrace : w'.trace = w.trace) :
  Told valid w'
  := by
  constructor
  · rw [hsession]
    apply h.flag
  · rw [World.Notified, World.Answered, htrace]
    apply h.notified

/-- A download without a response is not followed by a notification. -/
theorem Told.unanswered {valid : Bool} {w w' : World} {url : Str} {path : Bytes} {opened : Bool}
    (h : Told valid w) (hsession : w'.session = w.session)
    (htrace : w'.trace = .download url path opened none :: w.trace) :
  Told valid w'
  := by
  constructor
  · rw [hsession]
    apply h.flag
  · simpa [World.Notified, World.Answered, htrace, Event.isNotify, Event.isAnswer] using h.notified

/-- A download with a response is followed by a notification if the key counts as valid. -/
theorem Told.answered {valid : Bool} {w w' : World} {notices : List Event} {url : Str}
    {path : Bytes} {opened : Bool} {response : HttpResponse} (h : Told valid w)
    (hvalid : w'.session.prowlKeyValid = w.session.prowlKeyValid)
    (htrace : w'.trace = notices ++ .download url path opened (some response) :: w.trace)
    (hnotices : (∃ e ∈ notices, e.isNotify = true) ↔ valid = true) :
  Told valid w'
  := by
  have hanswered : w'.Answered := by
    use .download url path opened (some response)
    simp [htrace, Event.isAnswer]
  constructor
  · rw [hvalid]
    apply h.flag
  · rw [and_iff_left hanswered, ← hnotices]
    constructor
    · rintro ⟨e, he, hnotify⟩
      rw [htrace, List.mem_append, List.mem_cons] at he
      rcases he with he | rfl | he
      · use e
      · cases hnotify
      · exact hnotices.mpr (h.notified.mp ⟨e, he, hnotify⟩).1
    · rintro ⟨e, he, hnotify⟩
      use e
      rw [htrace]
      exact ⟨List.mem_append_left _ he, hnotify⟩

/-- A download that completes is followed by a notification exactly if the key counts as
valid. -/
theorem recordDownload_notifies (save : SaveAnswers) (w : World) (item : FeedItem) (url : Str)
    (path : Bytes) :
  ∃ notices : List Event, (recordDownload save w item url path).trace = notices ++ w.trace
    ∧ ((∃ e ∈ notices, e.isNotify = true) ↔ w.session.prowlKeyValid = true)
  := by
  simp only [recordDownload, ← List.append_assoc, ← List.cons_append]
  refine ⟨_, rfl, ?_⟩
  cases w.session.prowlKeyValid with
  | false =>
    cases w.session.downloadDoneScript with
    | none => simp [Event.isNotify]
    | some script => simp [Event.isNotify]
  | true => simp [Event.isNotify]

theorem reportFailure_notifies (w : World) (item : FeedItem) :
  (reportFailure w item).session = w.session
    ∧ ∃ notices : List Event, (reportFailure w item).trace = notices ++ w.trace
      ∧ ((∃ e ∈ notices, e.isNotify = true) ↔ w.session.prowlKeyValid = true)
  := by
  rw [reportFailure]
  split_ifs with hvalid
  · exact ⟨rfl, [_], rfl, by simp [Event.isNotify, hvalid]⟩
  · exact ⟨rfl, [], rfl, by simp [hvalid]⟩

theorem Told.attempt {valid : Bool} {w : World} (h : Told valid w) (v : Visit) (item : FeedItem)
    (url : Str) (path : Bytes) (agent : Option Bytes) :
  Told valid (attempt v w item url path agent)
  := by
  simp only [Trailermatic.attempt]
  cases (downloadFile v.download url.bytes path agent w.disk).1 with
  | none => exact h.unanswered rfl rfl
  | some response =>
    let w₁ : World := { w with
      disk := (downloadFile v.download url.bytes path agent w.disk).2
      trace := .download url path v.download.fopen (some response) :: w.trace }
    change Told valid (if response.responseCode = 200 then recordDownload v.save w₁ item url path
      else reportFailure w₁ item)
    split_ifs
    · obtain ⟨notices, htrace, hnotices⟩ := recordDownload_notifies v.save w₁ item url path
      refine h.answered ?_ htrace ?_
      · rfl
      · rw [hnotices, ← h.flag]
    · obtain ⟨hsession, notices, htrace, hnotices⟩ := reportFailure_notifies w₁ item
      apply h.answered (congrArg Session.prowlKeyValid hsession) htrace
      rw [hnotices, ← h.flag]

theorem Told.step {env : Env} {valid : Bool} {w w' : World} (h : Told valid w)
    (hstep : Step env w w') :
  Told valid w'
  := by
  cases hstep with
  | between => exact ⟨h.flag, h.notified⟩
  | visit item url =>
    by_cases hattempts : Attempts env w url
    · obtain ⟨w₀, hsession, htrace, -, -, hvisit⟩ := processURL_of_attempts hattempts item
      rw [hvisit]
      apply (h.of_eq hsession htrace).attempt
    · obtain ⟨hsession, -, htrace, -⟩ := processURL_of_not_attempts hattempts item
      apply h.of_eq hsession htrace

theorem told_run {env : Env} {valid : Bool} {w w' : World} (hrun : Run env w w')
    (h : Told valid w) :
  Told valid w'
  := by
  induction hrun with
  | refl => apply h
  | tail _ hstep ih => apply ih.step hstep

/-! ### Notifications and the answer about the key -/

/-- The worlds that `main` leaves: after some passes and a part of the next one, or after the
pass over a file. -/
inductive Reached (env : Env) (start : World) : World → Prop where
  | moment (passes k : ℕ) : Reached env start (start.moment env passes k)
  | file (xmldata : Option Bytes) : Reached env start (processFile env start xmldata)

theorem Reached.run {env : Env} {start w : World} (h : Reached env start w) :
  Run env start w
  := by
  cases h with
  | moment passes k => apply run_moment
  | file xmldata => apply run_processFile

/-- The daemon as its first pass begins. -/
def started (a : RequestAnswers) (s : Session) (file : Option Bytes) (disk : Disk) : World :=
  World.start ((checkKey a s).loaded file) disk

theorem told_started (a : RequestAnswers) (s : Session) (file : Option Bytes) (disk : Disk) :
  Told (checkKey a s).prowlKeyValid (started a s file disk)
  where
    flag := rfl
    notified := by simp [World.Notified, World.Answered, started, World.start]

/-- A session with one feed and a key. -/
def keyed (key : Str) : Session :=
  { Session.plain [plainFeed] [] with prowlKey := some key }

/-- An environment in which the feed has an item with `newUrl`. -/
def oneItem : Env :=
  .plain [newUrl] fun _ => .plain 200

def plainItem : FeedItem :=
  ⟨amStrdup (text "a"), [newUrl]⟩

/-- In the environment with one item, processing the feed is visiting `newUrl`. -/
theorem moment_oneItem {s : Session} (hfeeds : s.feeds = [plainFeed]) (disk : Disk) :
  (World.start s disk).moment oneItem 0 1
    = processURL oneItem (growBucket { World.start s disk with fetches := 1 } 1) plainItem newUrl
  := by
  have hparse : parseXmldata oneItem.libxml (plainDocument [newUrl]) = (1, [plainItem]) := by
    decide +kernel
  have hfeed (w : World) : processFeed oneItem w plainFeed true
      = processRSSList oneItem (parseXmldata oneItem.libxml (plainDocument [newUrl])).2
          (growBucket { w with fetches := w.fetches + 1 }
            (parseXmldata oneItem.libxml (plainDocument [newUrl])).1) := rfl
  have hmoment : (World.start s disk).moment oneItem 0 1
      = checkFeeds oneItem true (s.feeds.take 1) (World.start s disk) := rfl
  rw [hmoment, hfeeds, List.take_succ_cons, List.take_zero, checkFeeds, checkFeeds, hfeed, hparse]
  rfl

/-- A key that counts as valid is used. -/
theorem notified_of_valid {a : RequestAnswers} {key : Str}
    (h : (checkKey a (keyed key)).prowlKeyValid = true) :
  ((started a (keyed key) none fun _ => none).moment oneItem 0 1).Notified
  := by
  have hcheck : checkKey a (keyed key) = { keyed key with prowlKeyValid := true } := by
    rw [checkKey] at h ⊢
    split_ifs at h ⊢
    · rfl
    · cases h
  have htold : Told true ((started a (keyed key) none fun _ => none).moment oneItem 0 1) :=
    told_run (run_moment oneItem _ 0 1) (h ▸ told_started a (keyed key) none fun _ => none)
  rw [htold.notified, and_iff_right rfl, started, hcheck, moment_oneItem rfl]
  have hmatched : (isMatch oneItem.pcre (Session.plain [] []).filters newUrl.bytes).isSome
      = true := by decide
  generalize hw : growBucket _ 1 = w
  have hattempts : Attempts oneItem w newUrl := by
    subst hw
    exact ⟨hmatched, rfl, List.not_mem_nil, rfl⟩
  have hresponse : completed (visitDownload oneItem w newUrl).1 = true :=
    completed_visitDownload oneItem w newUrl rfl
  obtain ⟨-, -, notices, -, htrace⟩ := processURL_of_completed hattempts hresponse plainItem
  use visitEvent oneItem w newUrl
  constructor
  · rw [htrace]
    simp
  · rw [visitEvent, Event.isAnswer]
    cases hd : (visitDownload oneItem w newUrl).1 with
    | none =>
      rw [hd] at hresponse
      cases hresponse
    | some response => rfl

/-- Every run of every session with the key sends notifications only if the key was verified
exactly when there is no key, or it was verified, or the status in the answer vanishes in
16 bits. -/
theorem notified_verified_iff (a : RequestAnswers) (apikey : Option Str) :
  (∀ (s : Session) (file : Option Bytes) (disk : Disk) (env : Env) (w : World),
      s.prowlKey = apikey → s.prowlKeyValid = false → Reached env (started a s file disk) w →
      w.Notified → Verified a apikey)
    ↔ apikey = none ∨ Verified a apikey ∨ Vanishes a apikey
  := by
  constructor
  · intro h
    cases apikey with
    | none =>
      left
      rfl
    | some key =>
      right
      by_contra hneither
      rw [not_or] at hneither
      apply hneither.1
      apply h (keyed key) none (fun _ => none) oneItem _ rfl rfl (.moment 0 1)
      apply notified_of_valid
      rw [checkKey_valid_iff a rfl]
      exact ⟨Option.some_ne_none key, hneither.2⟩
  · intro h s file disk env w hkey hvalid hreached hnotified
    have htold := told_run hreached.run (told_started a s file disk)
    obtain ⟨hchecked, -⟩ := htold.notified.mp hnotified
    obtain ⟨hsome, hvanishes⟩ := (checkKey_valid_iff a hvalid).mp hchecked
    rw [hkey] at hsome hvanishes
    rcases h with hnone | hverified | hvanish
    · apply absurd hnone hsome
    · apply hverified
    · apply absurd hvanish hvanishes

def someKey : Str :=
  ⟨text "0123456789abcdef", by decide, by decide⟩

/-- The request about the key gets no answer. -/
def unanswered : RequestAnswers :=
  ⟨true, fun _ => none⟩

/-- Without an answer about the key, the key counts as valid and a notification is sent. -/
theorem notified_not_verified :
  (verifyProwlAPIKey unanswered (some someKey) .empty).1 = -1
    ∧ ((started unanswered (keyed someKey) none fun _ => none).moment oneItem 0 1).Notified
    ∧ ¬ Verified unanswered (some someKey)
  := by
  refine ⟨by decide, by decide +kernel, ?_⟩
  rintro ⟨key, -, response, hresponse, -⟩
  cases hresponse

end Trailermatic
