import Trailermatic.Folder
import Trailermatic.History

/-!
# Files that exist

The state file apart, the daemon changes no file that exists: a download is made only into
a file that is not there.  So a file keeps its content in every run, and no two downloads
of a run are made into one file, unless others change or remove it in between.
-/

namespace Trailermatic

/-- The others leave the file `p` as it is. -/
def Env.Leaves (env : Env) (p : Bytes) : Prop :=
  ∀ t disk, (env.visit t).others disk p = disk p

/-- The others remove no file. -/
def Env.KeepsFiles (env : Env) : Prop :=
  ∀ t disk p, fileExists disk p = true → fileExists ((env.visit t).others disk) p = true

/-- The file of a download that was opened. -/
def Event.opens : Event → Option Bytes
  | .download _ path true _ => some path
  | _ => none

/-- The files that downloads opened, newest first. -/
def openedFiles (trace : List Event) : List Bytes :=
  trace.filterMap Event.opens

/-! ### Content -/

/-- A visit changes no file that exists but the state file. -/
theorem processURL_disk_of_exists {env : Env} {w : World} {p : Bytes}
    (hp : p ≠ w.session.statefile.bytes) (hexists : (beginVisit env w).disk p ≠ none)
    (item : FeedItem) (url : Str) :
  (processURL env w item url).disk p = (beginVisit env w).disk p
  := by
  have hdownload (hattempts : Attempts env w url) :
      (visitDownload env w url).2 p = (beginVisit env w).disk p := by
    apply downloadFile_of_ne
    rintro rfl
    apply hexists hattempts.absent
  cases processURL_visited env w item url with
  | skipped _ _ hdisk => rw [hdisk]
  | failed hattempts _ _ hdisk => rw [hdisk, hdownload hattempts]
  | completed hattempts _ _ hdisk =>
    rw [hdisk, Function.update_of_ne hp, hdownload hattempts]

/-- In every run a file that exists keeps its content, as far as others leave it alone.
Only the state file is written again. -/
theorem existing_file_kept {env : Env} {w w' : World} (hrun : Run env w w') {p : Bytes}
    (hp : p ≠ w.session.statefile.bytes) (hleaves : env.Leaves p) (hexists : w.disk p ≠ none) :
  w'.disk p = w.disk p
  := by
  induction hrun with
  | refl => rfl
  | tail hrun hstep ih =>
    rename_i w₁ w₂
    cases hstep with
    | between => apply ih
    | visit item url =>
      have hbegin : (beginVisit env w₁).disk p = w.disk p :=
        (hleaves w₁.visits w₁.disk).trans ih
      rw [← hbegin]
      apply processURL_disk_of_exists
      · rw [(Run.alike hrun).statefile]
        apply hp
      · rw [hbegin]
        apply hexists

/-- The file that `newUrl` was downloaded to. -/
def newFile : Bytes :=
  text "/t/c.m4v"

theorem existing_file_kept_newFile :
  newUrlVisited.disk newFile = some (text "ok")
    ∧ (processURL (.plain [] fun _ => .plain 404) newUrlVisited ⟨some oldUrl, [oldUrl, newUrl]⟩
      newUrl).disk newFile = newUrlVisited.disk newFile
  := by
  have hrun : Run (.plain [] fun _ => .plain 404) newUrlVisited _ :=
    Relation.ReflTransGen.single (Step.visit ⟨some oldUrl, [oldUrl, newUrl]⟩ newUrl)
  refine ⟨by decide, ?_⟩
  apply existing_file_kept hrun
  · decide
  · exact fun _ _ => rfl
  · decide

/-! ### Downloads into one file -/

theorem openedFiles_append_notices {notices : List Event}
    (h : ∀ e ∈ notices, e.isNotice = true) (trace : List Event) :
  openedFiles (notices ++ trace) = openedFiles trace
  := filterMap_append_notices (fun _ _ _ => rfl) (fun _ _ => rfl) h trace

/-- A visit opens no file, or one that does not exist before it and exists after it. -/
theorem openedFiles_processURL (env : Env) (w : World) (item : FeedItem) (url : Str) :
  let w' := processURL env w item url
  openedFiles w'.trace = openedFiles w.trace
    ∨ ∃ p, openedFiles w'.trace = p :: openedFiles w.trace
      ∧ fileExists (beginVisit env w).disk p = false ∧ fileExists w'.disk p = true
  := by
  intro w'
  have hevent (hattempts : Attempts env w url) :
      openedFiles (visitEvent env w url :: w.trace) = openedFiles w.trace
        ∨ ∃ p, openedFiles (visitEvent env w url :: w.trace) = p :: openedFiles w.trace
          ∧ fileExists (beginVisit env w).disk p = false
          ∧ fileExists (visitDownload env w url).2 p = true := by
    cases hopen : (env.visit w.visits).download.fopen with
    | false =>
      left
      rw [visitEvent, hopen]
      rfl
    | true =>
      right
      use (visitFile env w url).path
      refine ⟨by rw [visitEvent, hopen]; rfl, by simp [fileExists, hattempts.absent], ?_⟩
      have hpath : (visitFile env w url).path ≠ [] :=
        getFilename_path_ne_nil _ none url.bytes w.session.downloadFolder.ne_nil
      obtain ⟨content, hcontent⟩ := downloadFile_of_opened hopen url.bytes hpath
        ((isMatch env.pcre w.session.filters url.bytes).bind (·.agent)) (beginVisit env w).disk
      rw [visitDownload, hcontent, fileExists, Function.update_self]
      rfl
  cases processURL_visited env w item url with
  | skipped _ _ _ htrace =>
    left
    rw [htrace]
  | failed hattempts _ _ hdisk notices honly htrace =>
    rw [htrace, hdisk, openedFiles_append_notices honly]
    apply hevent hattempts
  | completed hattempts _ _ hdisk notices honly htrace =>
    have hopened : openedFiles w'.trace = openedFiles (visitEvent env w url :: w.trace) := by
      rw [htrace]
      apply openedFiles_append_notices honly
    rw [hopened]
    apply (hevent hattempts).imp_right
    rintro ⟨p, hcons, habsent, hexists⟩
    refine ⟨p, hcons, habsent, ?_⟩
    rw [hdisk, fileExists]
    rcases eq_or_ne p w.session.statefile.bytes with rfl | hne
    · rw [Function.update_self]
      apply isSome_runSteps _ hexists
    · rw [Function.update_of_ne hne]
      apply hexists

/-- The files that downloads opened are distinct, were not there at the start and exist now;
and every file of the start exists still. -/
structure Opened (start : Disk) (w : World) : Prop where
  nodup : (openedFiles w.trace).Nodup
  absent : ∀ p ∈ openedFiles w.trace, fileExists start p = false
  exist : ∀ p ∈ openedFiles w.trace, fileExists w.disk p = true
  remain : ∀ p, fileExists start p = true → fileExists w.disk p = true

theorem Opened.visit {env : Env} {start : Disk} {w : World} (h : Opened start w)
    (hkeeps : env.KeepsFiles) (item : FeedItem) (url : Str) :
  Opened start (processURL env w item url)
  := by
  have hremain (p : Bytes) (hp : fileExists w.disk p = true) :
      fileExists (processURL env w item url).disk p = true :=
    fileExists_processURL (hkeeps w.visits w.disk p hp) item url
  rcases openedFiles_processURL env w item url with hsame | ⟨p, hcons, habsent, hexists⟩
  · constructor
    · rw [hsame]
      apply h.nodup
    · rw [hsame]
      apply h.absent
    · rw [hsame]
      intro p hp
      apply hremain p (h.exist p hp)
    · intro p hp
      apply hremain p (h.remain p hp)
  · have hnew (hp : fileExists w.disk p = true) : False := by
      have hbegin : fileExists (beginVisit env w).disk p = true := hkeeps w.visits w.disk p hp
      rw [habsent] at hbegin
      cases hbegin
    constructor
    · rw [hcons, List.nodup_cons]
      exact ⟨fun hmem => hnew (h.exist p hmem), h.nodup⟩
    · rw [hcons, List.forall_mem_cons]
      refine ⟨?_, h.absent⟩
      rw [← Bool.not_eq_true]
      intro hp
      apply hnew (h.remain p hp)
    · rw [hcons, List.forall_mem_cons]
      exact ⟨hexists, fun q hq => hremain q (h.exist q hq)⟩
    · intro q hq
      apply hremain q (h.remain q hq)

/-- In every run in which others remove no file, no two downloads open the same file, and
none opens a file that was there at the start. -/
theorem opened_files_distinct {env : Env} {w w' : World} (hrun : Run env w w')
    (hkeeps : env.KeepsFiles) (htrace : w.trace = []) :
  (openedFiles w'.trace).Nodup ∧ ∀ p ∈ openedFiles w'.trace, fileExists w.disk p = false
  := by
  have hopened : Opened w.disk w' := by
    induction hrun with
    | refl =>
      refine ⟨?_, ?_, ?_, fun _ hp => hp⟩
      · simp [htrace, openedFiles]
      · simp [htrace, openedFiles]
      · simp [htrace, openedFiles]
    | tail hrun hstep ih =>
      cases hstep with
      | between => exact ⟨ih.nodup, ih.absent, ih.exist, ih.remain⟩
      | visit item url => apply ih.visit hkeeps
  exact ⟨hopened.nodup, hopened.absent⟩

def otherUrl : Str :=
  ⟨text "http://a.example/e.m4v", by decide, by decide⟩

/-- The world in which `newUrl` and then `otherUrl` have been downloaded. -/
def bothVisited : World :=
  processURL (.plain [] fun _ => .plain 200) newUrlVisited ⟨some otherUrl, [otherUrl]⟩ otherUrl

theorem opened_files_distinct_both :
  openedFiles bothVisited.trace = [text "/t/e.m4v", newFile]
    ∧ (openedFiles bothVisited.trace).Nodup
    ∧ ∀ p ∈ openedFiles bothVisited.trace, fileExists (fun _ => none) p = false
  := by
  have hrun : Run (.plain [] fun _ => .plain 200) (.start (.plain [] [oldUrl]) fun _ => none)
      bothVisited :=
    Relation.ReflTransGen.tail (Relation.ReflTransGen.single (Step.visit _ newUrl))
      (Step.visit _ otherUrl)
  refine ⟨by decide, ?_⟩
  apply opened_files_distinct hrun
  · exact fun _ _ _ h => h
  · rfl

end Trailermatic
