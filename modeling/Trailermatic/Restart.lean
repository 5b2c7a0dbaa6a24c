import Trailermatic.State

/-!
# The history across a restart

What loading gives is exactly what saving and loading again keeps: entries of 20 to 298
bytes without a newline.  A file of such entries is loaded entry by entry, whatever
saving was stopped at.
-/

namespace Trailermatic

/-- An entry that its line in the state file is long enough for, that fits into the
line buffer of `loadState`, and that takes one line only. -/
def Loadable (entry : Str) : Prop :=
  20 ≤ entry.bytes.length ∧ entry.bytes.length + 1 < MAX_LINE_LEN ∧ newline ∉ entry.bytes

instance (entry : Str) : Decidable (Loadable entry) :=
  inferInstanceAs (Decidable (_ ∧ _ ∧ _))

theorem cstr_saveLine (entry : Str) :
  cstr (saveLine entry) = saveLine entry
  := by
  apply cstr_of_notMem
  rw [saveLine, List.mem_append, not_or]
  exact ⟨entry.nul_notMem, by decide⟩

/-- The line of an entry gives the entry back when it has more than 20 bytes. -/
theorem loadEntry_saveLine (entry : Str) :
  loadEntry (saveLine entry) = if 20 ≤ entry.bytes.length then some entry else none
  := by
  have hlen : strlen (saveLine entry) = entry.bytes.length + 1 := by
    rw [strlen, cstr_saveLine]
    simp [saveLine]
  have hcopy : amStrndup (saveLine entry) entry.bytes.length = some entry.bytes := by
    rw [amStrndup, cstr_saveLine]
    simp [saveLine]
  simp only [loadEntry, hlen, Nat.add_sub_cancel, hcopy]
  split_ifs
  · apply Str.ofBytes_bytes
  · omega
  · omega
  · rfl

theorem take_strlen_sub_one (line : Bytes) :
  line.take (strlen line - 1) = (cstr line).dropLast
  := by
  rw [List.dropLast_eq_take, List.prefix_iff_eq_take.mp (cstr_initial line), List.take_take,
    ← List.prefix_iff_eq_take.mp (cstr_initial line), strlen, Nat.min_eq_left (Nat.sub_le _ 1)]

/-- An entry a line gives is the C string of the line without its last byte. -/
theorem loadEntry_eq_some {line : Bytes} {entry : Str} (h : loadEntry line = some entry) :
  20 < strlen line ∧ entry.bytes = (cstr line).dropLast
  := by
  simp only [loadEntry] at h
  split_ifs at h with hlen
  refine ⟨hlen, ?_⟩
  obtain ⟨copy, hcopy, hentry⟩ := Option.bind_eq_some_iff.mp h
  rw [amStrndup] at hcopy
  split_ifs at hcopy
  cases hcopy
  rw [Str.ofBytes_eq_some_iff.mp hentry]
  rw [take_strlen_sub_one, cstr_of_notMem]
  intro h0
  apply nul_notMem_cstr line (List.dropLast_subset _ h0)

/-! ### What loading gives -/

/-- Every entry that is loaded is one that is loaded again. -/
theorem loadable_of_mem_loadState {file : Bytes} {entry : Str}
    (h : entry ∈ (loadState (some file) []).2) :
  Loadable entry
  := by
  rw [loadState_some] at h
  obtain ⟨line, hline, hentry⟩ := List.mem_filterMap.mp h
  obtain ⟨hlen, hfree⟩ := Lines.mem_lines newline hline
  obtain ⟨hlong, hbytes⟩ := loadEntry_eq_some hentry
  have hinit := cstr_initial line
  have hle := hinit.length_le
  rw [strlen] at hlong
  rw [Loadable, hbytes, List.length_dropLast]
  refine ⟨by omega, by omega, ?_⟩
  intro hnewline
  apply hfree
  rw [← take_strlen_sub_one] at hnewline
  rw [List.dropLast_eq_take]
  apply List.take_subset_take_left _ _ hnewline
  rw [strlen]
  omega

/-- A file of entries is loaded entry by entry. -/
theorem loadState_stateFile_cons (entry : Str) (entries : List Str) :
  (loadState (some (stateFile (entry :: entries))) []).2
    = (loadState (some (saveLine entry)) []).2 ++ (loadState (some (stateFile entries)) []).2
  := by
  simp only [loadState_some]
  rw [stateFile, List.map_cons, Lines.lines_unlines_cons, List.filterMap_append]
  rfl

/-- The line of an entry without a newline that fits into the line buffer. -/
theorem loadState_saveLine {entry : Str} (hlen : entry.bytes.length + 1 < MAX_LINE_LEN)
    (hfree : newline ∉ entry.bytes) :
  (loadState (some (saveLine entry)) []).2 = if 20 ≤ entry.bytes.length then [entry] else []
  := by
  have hline : Lines.lines newline (MAX_LINE_LEN - 1) (saveLine entry) = [saveLine entry] :=
    Lines.lines_line newline hfree (by omega)
  rw [loadState_some, hline, List.filterMap_cons, loadEntry_saveLine]
  split_ifs
  · rfl
  · rfl

/-- Loading a file of loadable entries gives the entries. -/
theorem loadState_stateFile {entries : List Str} (h : ∀ entry ∈ entries, Loadable entry) :
  loadState (some (stateFile entries)) [] = (0, entries)
  := by
  apply Prod.ext
  · rfl
  · induction entries with
    | nil => simp [loadState_some, stateFile]
    | cons entry entries ih =>
      obtain ⟨hlong, hlen, hfree⟩ := h entry List.mem_cons_self
      rw [loadState_stateFile_cons, loadState_saveLine hlen hfree, if_pos hlong,
        ih fun e he => h e (List.mem_cons_of_mem entry he)]
      rfl

/-- An entry without a newline that fits into the line buffer is loaded from a file of
entries exactly when it has at least 20 bytes, whatever the other entries are. -/
theorem mem_loadState_stateFile_iff {entries : List Str} {entry : Str} (hmem : entry ∈ entries)
    (hlen : entry.bytes.length + 1 < MAX_LINE_LEN) (hfree : newline ∉ entry.bytes) :
  entry ∈ (loadState (some (stateFile entries)) []).2 ↔ 20 ≤ entry.bytes.length
  := by
  constructor
  · intro h
    apply (loadable_of_mem_loadState h).1
  · intro hlong
    induction entries with
    | nil => cases hmem
    | cons e entries ih =>
      rw [loadState_stateFile_cons, List.mem_append]
      rcases List.mem_cons.mp hmem with rfl | hmem
      · left
        rw [loadState_saveLine hlen hfree, if_pos hlong]
        apply List.mem_singleton_self
      · right
        apply ih hmem

/-! ### Saving and loading -/

/-- Whatever bytes the state file holds, the list loaded from it is saved within the line
buffer, and loading what was saved gives the list again. -/
theorem load_save_load (file : Bytes) :
  let loaded := (loadState (some file) []).2
  let save := saveState .granting loaded
  save.ret = 0 ∧ (∀ c ∈ save.copies, c.Fits)
    ∧ loadState (runSteps save.steps (some file)) [] = (0, loaded)
  := by
  intro loaded save
  have hloadable : ∀ entry ∈ loaded, Loadable entry := fun entry h =>
    loadable_of_mem_loadState h
  obtain ⟨hret, hsteps⟩ := runSteps_saveState loaded (some file)
  refine ⟨hret, ?_, ?_⟩
  · apply (fits_saveState_iff loaded).mpr
    intro entry h
    apply (hloadable entry h).2.1.le
  · rw [hsteps]
    apply loadState_stateFile hloadable

/-- Of the saved URLs that have at most 298 bytes and no newline, a restart remembers
exactly those of at least 20 bytes. -/
theorem restart_remembers {downloads : List Str} {url : Str} (hurl : url ∈ downloads)
    (hlen : url.bytes.length ≤ 298) (hfree : newline ∉ url.bytes) (file : Option Bytes) :
  hasBeenDownloaded
      (loadState (runSteps (saveState .granting downloads).steps file) []).2 url = true
    ↔ 20 ≤ url.bytes.length
  := by
  rw [(runSteps_saveState downloads file).2, hasBeenDownloaded_iff]
  apply mem_loadState_stateFile_iff hurl _ hfree
  apply Nat.lt_of_le_of_lt (Nat.succ_le_succ hlen) (by decide)

def shortUrl : Str :=
  ⟨text "http://a.io/b.mov", by decide, by decide⟩

def longUrl : Str :=
  ⟨text "http://a.example/b.mov", by decide, by decide⟩

def nextUrl : Str :=
  ⟨text "http://a.example/c.mov", by decide, by decide⟩

/-- A URL with a newline in it. -/
def splitUrl : Str :=
  ⟨text "http://a.example/\nb.mov", by decide, by decide⟩

theorem restart_remembers_long :
  hasBeenDownloaded
      (loadState (runSteps (saveState .granting [shortUrl, longUrl]).steps none) []).2 longUrl
    = true
  := (restart_remembers (by decide) (by decide) (by decide) none).mpr (by decide)

/-- A restart forgets a URL of 17 bytes, and one that takes two lines. -/
theorem restart_forgets :
  (shortUrl.bytes.length ≤ 298 ∧ hasBeenDownloaded
      (loadState (runSteps (saveState .granting [shortUrl]).steps none) []).2 shortUrl = false)
    ∧ (splitUrl.bytes.length ≤ 298 ∧ hasBeenDownloaded
      (loadState (runSteps (saveState .granting [splitUrl]).steps none) []).2 splitUrl = false)
  := by
  decide

/-! ### Stopping while saving -/

/-- Saving over a file of old entries and stopping after `k` steps leaves a file from
which the old or the new entries are loaded exactly when the file has not been opened,
when all new entries have been written, or when those written are the old entries. -/
theorem stopped_save_iff {old new : List Str} (hold : ∀ entry ∈ old, Loadable entry)
    (hnew : ∀ entry ∈ new, Loadable entry) (a : SaveAnswers) (k : ℕ) :
  let written := min (k - 1) (a.granted 0 new.length)
  let left := (loadState (runSteps ((saveState a new).steps.take k) (some (stateFile old))) []).2
  (left = old ∨ left = new)
    ↔ k = 0 ∨ a.fopen = false ∨ written = new.length ∨ new.take written = old
  := by
  intro written left
  have hleft : left = if k = 0 ∨ a.fopen = false then old else new.take written := by
    simp only [left]
    rw [runSteps_take_saveState]
    split_ifs
    · rw [loadState_stateFile hold]
    · rw [loadState_stateFile fun entry h => hnew entry (List.mem_of_mem_take h)]
  have hall : new.take written = new ↔ written = new.length := by
    have hle : written ≤ new.length := (Nat.min_le_right _ _).trans (a.granted_le 0 _)
    constructor
    · intro h
      rw [← h, List.length_take, Nat.min_eq_left hle]
    · intro h
      rw [h, List.take_length]
  rw [hleft]
  split_ifs with hopen
  · tauto
  · rw [hall]
    tauto

/-- Stopped when one of two lines is written, a saving leaves neither history. -/
theorem stopped_save_iff_midway :
  let old := [longUrl]
  let new := [nextUrl, longUrl]
  let left := (loadState
    (runSteps ((saveState .granting new).steps.take 2) (some (stateFile old))) []).2
  ¬ (left = old ∨ left = new)
  := (@stopped_save_iff [longUrl] [nextUrl, longUrl] (by decide) (by decide) .granting 2).not.mpr
    (by decide)

/-- A process killed between opening the state file and writing its first line leaves
neither the old nor the new entries. -/
theorem killed_save_loses :
  let old := [longUrl]
  let new := [nextUrl, longUrl]
  let left := (loadState
    (runSteps ((saveState .granting new).steps.take 1) (some (stateFile old))) []).2
  left ≠ old ∧ left ≠ new
  := by
  decide

end Trailermatic
