import Trailermatic.Daemon
import Trailermatic.Library.Ledger

/-!
# Handles of libcurl

A handle is made for the requests to a server and is given back by `curl_easy_cleanup`.
The handles are kept in a ledger.  `downloadFile` and `sendHTTPData` give back each handle
they make; `getHTTPData` leaves the handle to its caller.
-/

namespace Trailermatic

/-- A pointer to a handle, `none` for `NULL`. -/
abbrev CurlSession := Option ℕ

/-- Get a handle of libcurl, if it gives one. -/
def amCurlInit (curlInit : Bool) (handles : Ledger) : CurlSession × Ledger :=
  if curlInit then (some handles.acquired, handles.acquire) else (none, handles)

/-- Give a handle back; nothing is done for `NULL`. -/
def closeCurlSession (curlHandle : CurlSession) (handles : Ledger) : Ledger :=
  match curlHandle with
  | some handle => handles.release handle
  | none => handles

/-- What is sent to a server. -/
structure HttpRequest where
  url : Bytes
  cookies : Option Bytes
  body : Option Bytes

/-- What libcurl answers when a handle is wanted, and to a request made with it: `none` if
the transfer fails. -/
structure RequestAnswers where
  curlInit : Bool
  perform : HttpRequest → Option Reply

/-! ### Requests -/

/-- What `getHTTPData` returns, and the handle it leaves to its caller. -/
structure Fetched where
  response : Option Reply
  session : CurlSession
  handles : Ledger

/-- The request of `getHTTPData`: an empty cookie string is not sent. -/
def getRequest (url : Bytes) (cookies : Option Bytes) : HttpRequest :=
  ⟨urlEncodeWhitespace url, cookies.filter fun s => !s.isEmpty, none⟩

/-- Request `url` with the handle of the session, or with a new one. -/
def getHttpData (a : RequestAnswers) (url cookies : Option Bytes) (curlSession : CurlSession)
    (handles : Ledger) : Fetched :=
  match url with
  | none => ⟨none, curlSession, handles⟩
  | some url =>
    let (session, handles) := match curlSession with
      | none => amCurlInit a.curlInit handles
      | some session => (some session, handles)
    match session with
    | none => ⟨none, none, handles⟩
    | some handle => ⟨a.perform (getRequest url cookies), some handle, handles⟩

/-- The handles of `downloadFile`: it makes one, and closes it however the transfer ends. -/
def downloadHandles (a : DownloadAnswers) (url filename : Option Bytes) (handles : Ledger) :
    Ledger :=
  match url, filename with
  | some _, some _ =>
    let (curlHandle, handles) := amCurlInit a.curlInit handles
    closeCurlSession curlHandle handles
  | _, _ => handles

/-- The loop of `sendHTTPData`: a request that is answered with status 409 is made again
with a new handle.  `answers` are the answers by the number of tries left. -/
def sendTries (answers : ℕ → RequestAnswers) (url data : Bytes) :
    ℕ → CurlSession → Ledger → Fetched
  | 0, curlHandle, handles => ⟨none, curlHandle, handles⟩
  | tries + 1, curlHandle, handles =>
    let (curlHandle, handles) := match curlHandle with
      | none => amCurlInit (answers tries).curlInit handles
      | some handle => (some handle, handles)
    match curlHandle with
    | none => ⟨none, none, handles⟩
    | some handle =>
      match (answers tries).perform ⟨url, none, some data⟩ with
      | none => ⟨none, some handle, handles⟩
      | some response =>
        if response.responseCode = 409 then
          sendTries answers url data tries none (closeCurlSession (some handle) handles)
        else ⟨some response, some handle, handles⟩

/-- Send a form, with at most two tries; without a URL or data nothing is sent. -/
def sendHttpData (answers : ℕ → RequestAnswers) (url data : Option Bytes) (handles : Ledger) :
    Option Reply × Ledger :=
  match url, data with
  | some url, some data =>
    let sent := sendTries answers url data 2 none handles
    (sent.response, closeCurlSession sent.session sent.handles)
  | _, _ => (none, handles)

/-! ### Every handle is given back -/

/-- A handle that is made and closed is settled. -/
theorem amCurlInit_closed (curlInit : Bool) (handles : Ledger) :
  handles.Balanced
    (closeCurlSession (amCurlInit curlInit handles).1 (amCurlInit curlInit handles).2)
  := by
  cases curlInit with
  | false => apply Ledger.Balanced.refl
  | true =>
    apply Ledger.keeps_release
    apply Ledger.Balanced.refl

theorem downloadHandles_balanced (a : DownloadAnswers) (url filename : Option Bytes)
    (handles : Ledger) :
  handles.Balanced (downloadHandles a url filename handles)
  := by
  cases url with
  | none => apply Ledger.Balanced.refl
  | some url =>
    cases filename with
    | none => apply Ledger.Balanced.refl
    | some filename => apply amCurlInit_closed

/-- The loop ends with at most one handle that is not closed, the one it returns. -/
theorem sendTries_closed (answers : ℕ → RequestAnswers) (url data : Bytes) (tries : ℕ)
    (handles : Ledger) :
  handles.Balanced (closeCurlSession (sendTries answers url data tries none handles).session
    (sendTries answers url data tries none handles).handles)
  := by
  induction tries generalizing handles with
  | zero => apply Ledger.Balanced.refl
  | succ tries ih =>
    have hclosed := amCurlInit_closed (answers tries).curlInit handles
    simp only [sendTries]
    cases hinit : (amCurlInit (answers tries).curlInit handles).1 with
    | none =>
      rw [hinit] at hclosed
      apply hclosed
    | some handle =>
      rw [hinit] at hclosed
      simp only
      split
      · apply hclosed
      · split_ifs
        · apply hclosed.trans
          apply ih
        · apply hclosed

theorem sendHttpData_balanced (answers : ℕ → RequestAnswers) (url data : Option Bytes)
    (handles : Ledger) :
  handles.Balanced (sendHttpData answers url data handles).2
  := by
  cases url with
  | none => apply Ledger.Balanced.refl
  | some url =>
    cases data with
    | none => apply Ledger.Balanced.refl
    | some data => apply sendTries_closed

/-- The response does not depend on the handles made before. -/
theorem getHttpData_response (a : RequestAnswers) (url cookies : Option Bytes)
    (handles handles' : Ledger) :
  (getHttpData a url cookies none handles).response
    = (getHttpData a url cookies none handles').response
  := by
  cases url with
  | none => rfl
  | some url =>
    simp only [getHttpData, amCurlInit]
    split_ifs
    · rfl
    · rfl

/-- There is no response without a handle. -/
theorem getHttpData_session {a : RequestAnswers} {url cookies : Option Bytes}
    {handles : Ledger} {response : Reply}
    (h : (getHttpData a url cookies none handles).response = some response) :
  (getHttpData a url cookies none handles).session = some handles.acquired
    ∧ (getHttpData a url cookies none handles).handles = handles.acquire
  := by
  cases url with
  | none => cases h
  | some url =>
    simp only [getHttpData, amCurlInit] at h ⊢
    split_ifs at h ⊢
    exact ⟨rfl, rfl⟩

/-- Closing the handle that is left settles the request. -/
theorem getHttpData_closed (a : RequestAnswers) (url cookies : Option Bytes)
    (handles : Ledger) :
  handles.Balanced (closeCurlSession (getHttpData a url cookies none handles).session
    (getHttpData a url cookies none handles).handles)
  := by
  cases url with
  | none => apply Ledger.Balanced.refl
  | some url =>
    have hclosed := amCurlInit_closed a.curlInit handles
    simp only [getHttpData]
    cases hinit : (amCurlInit a.curlInit handles).1 with
    | none =>
      rw [hinit] at hclosed
      apply hclosed
    | some handle =>
      rw [hinit] at hclosed
      apply hclosed

/-- A handle is made for the request, and the transfer fails. -/
def Loses (a : RequestAnswers) (url cookies : Option Bytes) : Prop :=
  ∃ u ∈ url, a.curlInit = true ∧ (a.perform (getRequest u cookies)).isNone = true

instance (a : RequestAnswers) (url cookies : Option Bytes) : Decidable (Loses a url cookies) :=
  inferInstanceAs (Decidable (∃ u ∈ url, _ ∧ _))

/-- A request with a response loses no handle. -/
theorem not_loses_of_response {a : RequestAnswers} {url cookies : Option Bytes}
    {handles : Ledger} {response : Reply}
    (h : (getHttpData a url cookies none handles).response = some response) :
  ¬ Loses a url cookies
  := by
  rintro ⟨u, rfl, hinit, hnone⟩
  simp only [getHttpData, amCurlInit, hinit, if_true] at h
  rw [h] at hnone
  cases hnone

/-- A request without a response leaves its handle, if it made one. -/
theorem keeps_getHttpData {a : RequestAnswers} {url cookies : Option Bytes} {handles : Ledger}
    (h : (getHttpData a url cookies none handles).response = none) :
  handles.Keeps (getHttpData a url cookies none handles).handles
    (if Loses a url cookies then [handles.acquired] else [])
  := by
  cases url with
  | none => apply Ledger.Balanced.refl
  | some url =>
    cases hinit : a.curlInit with
    | false =>
      rw [if_neg (by simp [Loses, hinit])]
      simp only [getHttpData, amCurlInit, hinit]
      apply Ledger.Balanced.refl
    | true =>
      simp only [getHttpData, amCurlInit, hinit, if_true] at h ⊢
      rw [if_pos ⟨url, rfl, hinit, Option.isNone_iff_eq_none.mpr h⟩]
      apply Ledger.keeps_acquire
      apply Ledger.Balanced.refl

end Trailermatic
