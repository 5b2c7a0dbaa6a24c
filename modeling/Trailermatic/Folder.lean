import Trailermatic.OnePass

/-!
# The download folder

The name of a download comes from a feed.  It is the last part of the URL, which has no
slash, and the names `.` and `..` are those of directories that exist; so a download is
always a file in the download folder.  `downloads_inside` is the conclusion.
-/

namespace Trailermatic

/-! ### Directories -/

/-- `folder` is a directory that exists: there are the directory itself and its parent
under their names in it. -/
structure IsDirectory (disk : Disk) (folder : Bytes) : Prop where
  itself : fileExists disk (folder ++ slash :: text ".") = true
  parent : fileExists disk (folder ++ slash :: text "..") = true

/-- The others do not remove the directory `folder`. -/
def Env.KeepsDirectory (env : Env) (folder : Bytes) : Prop :=
  ∀ t disk, IsDirectory disk folder → IsDirectory ((env.visit t).others disk) folder

/-- A directory stays one when no file is removed. -/
theorem IsDirectory.mono {disk disk' : Disk} {folder : Bytes} (h : IsDirectory disk folder)
    (hkeeps : ∀ p, fileExists disk p = true → fileExists disk' p = true) :
  IsDirectory disk' folder
  where
    itself := hkeeps _ h.itself
    parent := hkeeps _ h.parent

/-! ### What a visit removes -/

theorem isSome_runSteps (steps : List SaveStep) {file : Option Bytes} (h : file.isSome = true) :
  (runSteps steps file).isSome = true
  := by
  induction steps generalizing file with
  | nil => apply h
  | cons step steps ih =>
    apply ih
    cases step with
    | fopen => rfl
    | fwrite line => simpa [SaveStep.apply] using h
    | fclose => apply h

theorem fileExists_visitDownload {env : Env} {w : World} {url : Str} {p : Bytes}
    (h : fileExists (beginVisit env w).disk p = true) :
  fileExists (visitDownload env w url).2 p = true
  := by
  cases hopen : (env.visit w.visits).download.fopen with
  | false =>
    rw [visitDownload, downloadFile_of_not_opened hopen]
    apply h
  | true =>
    have hpath : (visitFile env w url).path ≠ [] :=
      getFilename_path_ne_nil _ none url.bytes w.session.downloadFolder.ne_nil
    obtain ⟨content, hcontent⟩ := downloadFile_of_opened hopen url.bytes hpath
      ((isMatch env.pcre w.session.filters url.bytes).bind (·.agent)) (beginVisit env w).disk
    rw [visitDownload, hcontent, fileExists]
    rcases eq_or_ne p (visitFile env w url).path with rfl | hne
    · rw [Function.update_self]
      rfl
    · rw [Function.update_of_ne hne]
      apply h

/-- The daemon itself removes no file. -/
theorem fileExists_processURL {env : Env} {w : World} {p : Bytes}
    (h : fileExists (beginVisit env w).disk p = true) (item : FeedItem) (url : Str) :
  fileExists (processURL env w item url).disk p = true
  := by
  have hdownload : fileExists (visitDownload env w url).2 p = true := fileExists_visitDownload h
  cases processURL_visited env w item url with
  | skipped _ _ hdisk =>
    rw [hdisk]
    apply h
  | failed _ _ _ hdisk =>
    rw [hdisk]
    apply hdownload
  | completed _ _ _ hdisk =>
    rw [hdisk, fileExists]
    rcases eq_or_ne p w.session.statefile.bytes with rfl | hne
    · rw [Function.update_self]
      apply isSome_runSteps _ hdownload
    · rw [Function.update_of_ne hne]
      apply hdownload

/-! ### Downloads in the folder -/

/-- The name of a file in a directory: neither a path nor a name of a directory. -/
structure IsName (seg : Bytes) : Prop where
  ne_nil : seg ≠ []
  slash_notMem : slash ∉ seg
  ne_itself : seg ≠ text "."
  ne_parent : seg ≠ text ".."

/-- Nothing is cut off when the path of the file `seg` in `folder` is made. -/
def PathFits (folder seg : Bytes) : Prop :=
  (folder ++ slash :: seg).length ≤ PATH_MAX - 2

/-- A download is of the file in `folder` that the last part of its URL names. -/
def Event.Inside (folder : Bytes) : Event → Prop
  | .download url path _ _ => Names url → ∀ seg, LastPart url.bytes seg → PathFits folder seg →
    path = folder ++ slash :: seg ∧ IsName seg
  | _ => True

theorem Event.inside_of_isNotice {e : Event} (h : e.isNotice = true) (folder : Bytes) :
  e.Inside folder
  := by
  cases e with
  | download => cases h
  | record => cases h
  | notify => trivial
  | script => trivial

theorem LastPart.getFilename_path_of_fits {url seg : Bytes} (h : LastPart url seg)
    (hshort : url.length < PATH_MAX) {folder : Bytes} (hfits : PathFits folder seg) (buf : Bytes) :
  (getFilename buf none url folder).path = folder ++ slash :: seg
  := by
  rw [h.getFilename_path hshort, List.take_of_length_le hfits]

/-- The names of the directories are excluded because `downloadFile` is called only for a
file that does not exist. -/
theorem Attempts.inside {env : Env} {w : World} {url : Str} (h : Attempts env w url)
    (hdirectory : IsDirectory (beginVisit env w).disk w.session.downloadFolder.bytes) :
  (visitEvent env w url).Inside w.session.downloadFolder.bytes
  := by
  intro hurl seg hseg hfits
  have hpath : (visitFile env w url).path = w.session.downloadFolder.bytes ++ slash :: seg :=
    hseg.getFilename_path_of_fits hurl.short hfits _
  have habsent : fileExists (beginVisit env w).disk
      (w.session.downloadFolder.bytes ++ slash :: seg) = false := by
    rw [← hpath, fileExists, h.absent]
    rfl
  refine ⟨hpath, hseg.ne_nil, ?_, ?_, ?_⟩
  · intro hmem
    cases hseg.within slash hmem
  · rintro rfl
    rw [hdirectory.itself] at habsent
    cases habsent
  · rintro rfl
    rw [hdirectory.parent] at habsent
    cases habsent

/-! ### Runs -/

/-- In the run from `start` to `w` every download was in `folder`, which is still the
download folder and a directory. -/
structure Confined (folder : Bytes) (start w : World) : Prop where
  downloadFolder : w.session.downloadFolder.bytes = folder
  directory : IsDirectory w.disk folder
  inside : ∃ added, w.trace = added ++ start.trace ∧ ∀ e ∈ added, e.Inside folder

theorem Confined.refl {w : World} (h : IsDirectory w.disk w.session.downloadFolder.bytes) :
  Confined w.session.downloadFolder.bytes w w
  := ⟨rfl, h, [], rfl, List.forall_mem_nil _⟩

theorem Confined.visit {env : Env} {folder : Bytes} {start w : World}
    (h : Confined folder start w) (hkeeps : env.KeepsDirectory folder) (item : FeedItem)
    (url : Str) :
  Confined folder start (processURL env w item url)
  := by
  have hdirectory : IsDirectory (beginVisit env w).disk folder :=
    hkeeps w.visits w.disk h.directory
  have hvisited := processURL_visited env w item url
  constructor
  · rw [← h.downloadFolder, hvisited.alike.1.downloadFolder]
  · apply hdirectory.mono
    intro p hp
    apply fileExists_processURL hp
  · obtain ⟨earlier, hearlier, hinside⟩ := h.inside
    obtain ⟨added, hadded, honly⟩ := hvisited.exists_added
    use added ++ earlier
    rw [hadded, hearlier, List.append_assoc]
    refine ⟨rfl, ?_⟩
    intro e he
    rcases List.mem_append.mp he with he | he
    · rcases honly e he with hnotice | ⟨count, maxBucketItems, rfl⟩ | ⟨hattempts, rfl⟩
      · apply Event.inside_of_isNotice hnotice
      · trivial
      · have hfolder := h.downloadFolder
        subst hfolder
        apply hattempts.inside hdirectory
    · apply hinside e he

theorem Confined.step {env : Env} {folder : Bytes} {start w w' : World}
    (h : Confined folder start w) (hkeeps : env.KeepsDirectory folder) (hstep : Step env w w') :
  Confined folder start w'
  := by
  cases hstep with
  | visit item url => apply h.visit hkeeps
  | between => exact ⟨h.downloadFolder, h.directory, h.inside⟩

theorem Confined.run {env : Env} {folder : Bytes} {start w w' : World}
    (h : Confined folder start w) (hkeeps : env.KeepsDirectory folder) (hrun : Run env w w') :
  Confined folder start w'
  := by
  induction hrun with
  | refl => apply h
  | tail _ hstep ih => apply ih.step hkeeps hstep

/-- All downloads of the main loop are in the download folder. -/
theorem mainLoop_inside {env : Env} {w : World}
    (hdirectory : IsDirectory w.disk w.session.downloadFolder.bytes)
    (hkeeps : env.KeepsDirectory w.session.downloadFolder.bytes) (passes : ℕ) (firstRun : Bool) :
  ∃ added, (mainLoop env passes firstRun w).trace = added ++ w.trace
    ∧ ∀ e ∈ added, e.Inside w.session.downloadFolder.bytes
  := ((Confined.refl hdirectory).run hkeeps (run_mainLoop env passes firstRun w)).inside

/-- The file of a URL is named by its last part; and wherever a run of the daemon is, the
files that `processRSSList` downloads are in the download folder, when that is a
directory. -/
theorem downloads_inside :
  (∀ url : Str, Names url → (∃! seg, LastPart url.bytes seg)
      ∧ ∀ seg buf folder, LastPart url.bytes seg → PathFits folder seg →
        (getFilename buf none url.bytes folder).path = folder ++ slash :: seg)
    ∧ ∀ (env : Env) (start w : World) (items : List FeedItem),
      IsDirectory start.disk start.session.downloadFolder.bytes →
      env.KeepsDirectory start.session.downloadFolder.bytes → Run env start w →
      ∃ added, (processRSSList env items w).trace = added ++ w.trace
        ∧ ∀ e ∈ added, e.Inside start.session.downloadFolder.bytes
  := by
  constructor
  · intro url hurl
    obtain ⟨seg, hseg⟩ := hurl.exists_lastPart
    refine ⟨⟨seg, hseg, fun seg' hseg' => hseg'.unique hseg⟩, ?_⟩
    intro seg buf folder hseg hfits
    apply hseg.getFilename_path_of_fits hurl.short hfits
  · intro env start w items hdirectory hkeeps hrun
    have hconfined := (Confined.refl hdirectory).run hkeeps hrun
    have hfolder := hconfined.downloadFolder
    rw [← hfolder] at hkeeps ⊢
    have hdisk : IsDirectory w.disk w.session.downloadFolder.bytes := by
      rw [hfolder]
      apply hconfined.directory
    apply ((Confined.refl hdisk).run hkeeps (run_processRSSList env items w)).inside

/-! ### A feed that names the parent directory -/

/-- The files of a system on which the folder `folder` is empty. -/
def emptyDirectory (folder : Bytes) : Disk := fun p =>
  if p = folder ++ slash :: text "." ∨ p = folder ++ slash :: text ".." then some [] else none

/-- URLs whose last parts are `..`, and `m` with slashes after it. -/
def dotted : List Str :=
  ["..", "m//"].filterMap fun name => Str.ofBytes (text "http://m.example/" ++ text name)

/-- Of two URLs that match, the one that names the parent directory is not downloaded. -/
theorem downloads_inside_dotted :
  dotted.length = 2
    ∧ calls (processRSSList (.plain [] fun _ => .plain 200) [⟨none, dotted⟩]
      (.start (.plain [] []) (emptyDirectory (text "/t")))).trace = dotted.drop 1
    ∧ ∃ added, (processRSSList (.plain [] fun _ => .plain 200) [⟨none, dotted⟩]
      (.start (.plain [] []) (emptyDirectory (text "/t")))).trace = added ++ []
      ∧ ∀ e ∈ added, e.Inside (text "/t")
  := by
  refine ⟨rfl, by decide +kernel, ?_⟩
  apply downloads_inside.2 _ (.start (.plain [] []) (emptyDirectory (text "/t")))
  · exact ⟨by decide, by decide⟩
  · intro t disk hdisk
    apply hdisk
  · apply Relation.ReflTransGen.refl

end Trailermatic
