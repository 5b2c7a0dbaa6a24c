import Trailermatic.State
import Trailermatic.Library.Tokens
import Mathlib.Logic.Function.Basic

/-!
# Downloading a file

The name of a downloaded file is the last part of its URL.  `downloadFile` creates the
file before the transfer begins, and says of the transfer what libcurl says.
-/

namespace Trailermatic

/-- The files that exist, each with its content. -/
abbrev Disk := Bytes → Option Bytes

/-- Whether there is a file of that name. -/
def fileExists (disk : Disk) (filename : Bytes) : Bool :=
  (disk filename).isSome

/-! ### The name of a file -/

def slash : Byte := 47

/-- A path and the writes into fixed buffers made for it. -/
structure Filename where
  path : Bytes
  copies : List Copy

/-- The loop of `get_filename`: each token is copied into `buf` when it is short enough,
so the last one stays there. -/
def copyTokens : List Bytes → Bytes → Bytes × List Copy
  | [], buf => (buf, [])
  | p :: tokens, buf =>
    if p.length < PATH_MAX then
      let (last, copies) := copyTokens tokens p
      (last, { buffer := .buf, bytes := p.length + 1 } :: copies)
    else copyTokens tokens buf

/-- What `get_filename` leaves in `buf`: the name the server sent, or the last token of
the URL. -/
def lastName (buf : Bytes) (contentFilename : Option Bytes) (url : Bytes) : Bytes × List Copy :=
  match contentFilename with
  | some name => (name, [⟨.buf, name.length + 1⟩])
  | none =>
    let (last, copies) := copyTokens (Tokens.tokens (· == slash) url) buf
    (last, ⟨.tmp, url.length + 1⟩ :: copies)

/-- The path of a download.  `buf` is the string in the buffer of that name when the
function begins. -/
def getFilename (buf : Bytes) (contentFilename : Option Bytes) (url tFolder : Bytes) :
    Filename :=
  let (last, copies) := lastName buf contentFilename url
  -- snprintf writes no more than PATH_MAX - 1 bytes, the NUL included
  let path := (tFolder ++ slash :: last).take (PATH_MAX - 2)
  { path := path, copies := copies ++ [⟨.path, path.length + 1⟩] }

/-- `seg` is the last run of bytes of the URL without a slash that is not empty. -/
abbrev LastPart (url seg : Bytes) : Prop :=
  Tokens.Last (· == slash) url seg

theorem copyTokens_fst {tokens : List Bytes} (h : ∀ p ∈ tokens, p.length < PATH_MAX)
    (buf : Bytes) :
  (copyTokens tokens buf).1 = tokens.getLastD buf
  := by
  induction tokens generalizing buf with
  | nil => rfl
  | cons p tokens ih =>
    rw [copyTokens, if_pos (h p List.mem_cons_self), List.getLastD_cons]
    apply ih fun q hq => h q (List.mem_cons_of_mem p hq)

/-- The name of a file is the last part of its URL, whatever was left in the buffer of
names. -/
theorem LastPart.getFilename_path {url seg : Bytes} (h : LastPart url seg)
    (hshort : url.length < PATH_MAX) (buf folder : Bytes) :
  (getFilename buf none url folder).path = (folder ++ slash :: seg).take (PATH_MAX - 2)
  := by
  have htokens : ∀ p ∈ Tokens.tokens (· == slash) url, p.length < PATH_MAX := by
    intro p hp
    apply Nat.lt_of_le_of_lt _ hshort
    apply (Tokens.sublist_tokensFrom (· == slash) hp).length_le
  have hlast : (copyTokens (Tokens.tokens (· == slash) url) buf).1 = seg := by
    rw [copyTokens_fst htokens, List.getLastD_eq_getLast?, h.getLast?_tokens, Option.getD_some]
  simp only [getFilename, lastName, hlast]

/-! ### The transfer -/

/-- `url_encode_whitespace`: blanks as `%20`. -/
def urlEncodeWhitespace (str : Bytes) : Bytes :=
  str.flatMap fun b => if b = 32 then text "%20" else [b]

/-- What libcurl says of a transfer, and what it wrote of the body. -/
structure Transfer where
  result : ℤ
  responseCode : ℤ
  size : ℕ
  body : Bytes

/-- The status of a response and the length of its data. -/
structure HttpResponse where
  responseCode : ℤ
  size : ℕ
deriving DecidableEq

/-- What the file system and libcurl answer to a download: whether the file can be
opened, whether there is a handle, and the transfer of a URL for a user agent. -/
structure DownloadAnswers where
  fopen : Bool
  curlInit : Bool
  perform : Bytes → Option Bytes → Transfer

/-- Download `url` into the file `filename`. -/
def downloadFile (a : DownloadAnswers) (url filename : Bytes) (useragent : Option Bytes)
    (disk : Disk) : Option HttpResponse × Disk :=
  let stream := !filename.isEmpty && a.fopen
  let opened := if stream then Function.update disk filename (some []) else disk
  if a.curlInit && stream then
    let agent := useragent.filter fun s => !s.isEmpty
    let transfer := a.perform (urlEncodeWhitespace url) agent
    let written := Function.update opened filename (some transfer.body)
    if transfer.result ≠ 0 then (some ⟨0, 0⟩, written)
    else (some ⟨transfer.responseCode, transfer.size⟩, written)
  else (none, opened)

/-- A file that cannot be opened is not created, and nothing is downloaded. -/
theorem downloadFile_of_not_opened {a : DownloadAnswers} (h : a.fopen = false)
    (url filename : Bytes) (useragent : Option Bytes) (disk : Disk) :
  downloadFile a url filename useragent disk = (none, disk)
  := by
  simp [downloadFile, h]

/-- A file that can be opened exists afterwards, whatever becomes of the transfer, and no
other file changes. -/
theorem downloadFile_of_opened {a : DownloadAnswers} (h : a.fopen = true) (url : Bytes)
    {filename : Bytes} (hne : filename ≠ []) (useragent : Option Bytes) (disk : Disk) :
  ∃ content, (downloadFile a url filename useragent disk).2
    = Function.update disk filename (some content)
  := by
  have hempty : filename.isEmpty = false := by simpa using hne
  simp only [downloadFile, hempty, h, Bool.not_false, Bool.and_self, Bool.and_true, if_true,
    Function.update_idem]
  cases a.curlInit with
  | false => exact ⟨[], rfl⟩
  | true =>
    simp only [if_true]
    split_ifs
    · exact ⟨_, rfl⟩
    · exact ⟨_, rfl⟩

/-- A download changes no other file. -/
theorem downloadFile_of_ne (a : DownloadAnswers) (url : Bytes) {filename p : Bytes}
    (h : p ≠ filename) (useragent : Option Bytes) (disk : Disk) :
  (downloadFile a url filename useragent disk).2 p = disk p
  := by
  have hupdate (content : Bytes) (disk : Disk) :
      Function.update disk filename (some content) p = disk p := Function.update_of_ne h _ _
  simp only [downloadFile]
  split_ifs
  · simp only [hupdate]
  · simp only [hupdate]
  · simp only [hupdate]
  · simp only [hupdate]
  · simp only [hupdate]
  · rfl

theorem getFilename_path_ne_nil (buf : Bytes) (contentFilename : Option Bytes)
    (url : Bytes) {tFolder : Bytes} (h : tFolder ≠ []) :
  (getFilename buf contentFilename url tFolder).path ≠ []
  := by
  obtain ⟨b, folder, rfl⟩ := List.exists_cons_of_ne_nil h
  simp [getFilename, PATH_MAX]

end Trailermatic
