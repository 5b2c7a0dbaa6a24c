import Trailermatic.Config.Realized
import Trailermatic.Program

/-!
# The memory of a session

A session is made, configured, and freed when the program shuts down, with the blocks that are
allocated and freed on the way.  `session_memory` says that whatever the configuration file
holds, all blocks are freed once, except for those that its options lose.
-/

namespace Trailermatic

/-- The value of parsing a file, and the session that it leaves. -/
def parsedSession (parsed : Parsed (Option Session)) : Option (ℤ × Session) :=
  parsed.state.map fun s => (parsed.ret, s)

/-- Make a session and configure it. -/
def configure (pcre : Pcre) (tempFolder : Str) (home : Option Str) (matchOnly : Bool)
    (file : Option Bytes) (beyond : Bytes) : Option (ℤ × Session) := do
  let s ← sessionInit tempFolder home
  let parsed ← parseConfigFile (setOption pcre home) file beyond
    (some { s with matchOnly := matchOnly })
  parsedSession parsed

/-- `startup` goes on with what `configure` makes. -/
theorem startup_eq_configure (b : Boot) (a : Arguments) :
  startup b a = (autoConfigFile a.cFile).bind fun file =>
    (configure b.env.pcre b.tempFolder b.home a.matchOnly (b.disk file) b.beyond).map
      fun (ret, s) =>
        if ret ≠ 0 ∨ (a.nofork = false ∧ b.daemonize ≠ 0) ∨ listCount s.feeds = 0
            ∨ listCount s.filters = 0 then .stopped (.start s b.disk)
        else .ready (started b.request s (b.disk s.statefile.bytes) b.disk)
  := by
  rw [startup]
  cases autoConfigFile a.cFile with
  | none => rfl
  | some file =>
    simp only [configure, Option.bind_eq_bind, Option.bind_some]
    cases sessionInit b.tempFolder b.home with
    | none => rfl
    | some s =>
      simp only [Option.bind_some]
      cases parseConfigFile (setOption b.env.pcre b.home) (b.disk file) b.beyond
        (some { s with matchOnly := a.matchOnly }) with
      | none => rfl
      | some parsed =>
        simp only [Option.bind_some, parsedSession]
        cases parsed.state with
        | none => rfl
        | some s =>
          simp only [Option.bind_some, Option.map_some]
          split_ifs
          · rfl
          · rfl

namespace Owned

open Alloc

/-- A session in its block; the nodes of its lists have blocks of their own. -/
structure AutoHandle where
  block : ℕ
  statefile : Text
  downloadFolder : Text
  prowlKey : Option Text
  downloadDoneScript : Option Text
  feeds : List (ℕ × RssFeed)
  filters : List (ℕ × Filter)
  downloads : List (ℕ × Text)
  prowlKeyValid : Bool
  maxBucketItems : UInt16
  bucketChanged : Bool
  checkInterval : UInt8
  matchOnly : Bool

/-- The session without its blocks. -/
def AutoHandle.value (as : AutoHandle) : Session where
  statefile := as.statefile.str
  downloadFolder := as.downloadFolder.str
  prowlKey := as.prowlKey.map Text.str
  downloadDoneScript := as.downloadDoneScript.map Text.str
  feeds := as.feeds.map feedValue
  filters := as.filters.map filterValue
  downloads := as.downloads.map fun cell => cell.2.str
  prowlKeyValid := as.prowlKeyValid
  maxBucketItems := as.maxBucketItems
  bucketChanged := as.bucketChanged
  checkInterval := as.checkInterval
  matchOnly := as.matchOnly

/-- The blocks of a session, in the order in which they are freed. -/
def AutoHandle.blocks (as : AutoHandle) : List ℕ :=
  [as.downloadFolder.block] ++ ([as.statefile.block] ++ (Text.blocks as.prowlKey
    ++ (Text.blocks as.downloadDoneScript ++ (as.feeds.flatMap feedBlocks
      ++ (as.downloads.flatMap cellBlocks ++ (as.filters.flatMap filterBlocks ++ [as.block]))))))

/-! ### Folders and paths -/

/-- A copy of the home folder, none if there is no home. -/
def getHomeFolder (home : Option Str) : Alloc (Option Text) :=
  match home with
  | none => pure none
  | some home => do
    let dir ← malloc
    return some ⟨dir, home⟩

/-- A copy of a path, with the home folder for its `~`; the copy of the home folder is freed. -/
def resolvePath (home : Option Str) (path : Bytes) : Alloc (Option Text) :=
  if 2 < strlen path then
    if (text "~/").isPrefixOf path then do
      match ← getHomeFolder home with
      | some homedir =>
        let newDir := homedir.str.bytes ++ path.tail
        if newDir.length < MAXPATHLEN then
          Alloc.free homedir.block
          amStrdup newDir
        else ofOption none
      | none => amStrdup path
    else amStrdup path
  else pure none

/-- Replace a path by the one that `src` resolves to, if there is one; what it resolves to is copied
once more and freed. -/
def setPath (home : Option Str) (src : Bytes) (dst : Text) : Alloc Text :=
  if strlen src < MAXPATHLEN then do
    match ← resolvePath home src with
    | none => return dst
    | some tmp =>
      Alloc.free dst.block
      let block ← malloc
      Alloc.free tmp.block
      return ⟨block, tmp.str⟩
  else pure dst

/-! ### Making, configuring and freeing -/

/-- Make a session with the folder for downloads and the path of the state file. -/
def sessionInit (tempFolder : Str) (home : Option Str) : Alloc AutoHandle := do
  let ses ← malloc
  let downloadFolder ← malloc
  let home ← getHomeFolder home
  let path := (home.map Text.str).elim (text "(null)") Str.bytes ++ slash :: AM_DEFAULT_STATEFILE
  if path.length < MAXPATHLEN then
    Alloc.amFree (home.map Text.block)
    match ← amStrdup path with
    | none => ofOption none
    | some statefile => return {
        block := ses
        statefile := statefile
        downloadFolder := ⟨downloadFolder, tempFolder⟩
        prowlKey := none
        downloadDoneScript := none
        feeds := []
        filters := []
        downloads := []
        prowlKeyValid := false
        maxBucketItems := AM_DEFAULT_MAXBUCKET
        bucketChanged := false
        checkInterval := AM_DEFAULT_INTERVAL
        matchOnly := false }
  else ofOption none

/-- Change the session for an option.  The key and the script that were set before are not freed. -/
def setOption (pcre : Pcre) (home : Option Str) (as : AutoHandle) (opt param : Bytes) :
    Alloc AutoHandle :=
  if opt = text "url" then
    (fun feeds => { as with feeds := feeds }) <$> getFeeds pcre as.feeds param
  else if opt = text "feed" then
    (fun feeds => { as with feeds := feeds }) <$> parseFeed pcre as.feeds param
  else if opt = text "download-folder" then
    (fun path => { as with downloadFolder := path }) <$> setPath home param as.downloadFolder
  else if opt = text "statefile" then
    (fun path => { as with statefile := path }) <$> setPath home param as.statefile
  else if opt = text "interval" then
    let numval := parseUInt param
    if 0 < numval then pure { as with checkInterval := UInt8.ofInt numval } else pure as
  else if opt = text "patterns" then
    (fun filters => { as with filters := filters }) <$> addPatternsOld as.filters param
  else if opt = text "filter" then
    (fun filters => { as with filters := filters }) <$> parseFilter as.filters param
  else if opt = text "prowl-apikey" then
    (fun key => { as with prowlKey := key }) <$> amStrdup param
  else if opt = text "download-done-script" then
    (fun script => { as with downloadDoneScript := script }) <$> amStrdup param
  else pure as

/-- The number of blocks that an option loses: what an entry loses, or a string that was set
before. -/
def optionLost (s : Session) (opt param : Bytes) : ℕ :=
  if opt = text "feed" then feedLost param
  else if opt = text "filter" then filterLost param
  else if opt = text "prowl-apikey" then s.prowlKey.toList.length
  else if opt = text "download-done-script" then s.downloadDoneScript.toList.length
  else 0

/-- `setOption` on a session and the memory it is in. -/
def setOptionState (pcre : Pcre) (home : Option Str) (state : Option (AutoHandle × Ledger))
    (opt param : Bytes) (_type : OptionType) : Option (AutoHandle × Ledger) :=
  state.bind fun r => setOption pcre home r.1 opt param r.2

/-- The loop of `parse_config_file`, and its value. -/
def parseLines (pcre : Pcre) (home : Option Str) (content beyond : Bytes) (as : AutoHandle) :
    Alloc (ℤ × AutoHandle) :=
  fun heap => do
    let parsed ← parseContent (setOptionState pcre home) content beyond (some (as, heap))
    let (as, heap) ← parsed.state
    return ((parsed.ret, as), heap)

/-- Parse a configuration file.  The file and the parameter of an option are in blocks, which
are freed in the end. -/
def parseConfigFile (pcre : Pcre) (home : Option Str) (file : Option Bytes) (beyond : Bytes)
    (as : AutoHandle) : Alloc (ℤ × AutoHandle) :=
  match file with
  | none => pure (-1, as)
  | some content => do
    let line ← malloc
    if content = [] then
      Alloc.free line
      return (-1, as)
    else
      let param ← malloc
      let result ← parseLines pcre home content beyond as
      Alloc.free line
      Alloc.free param
      return result

/-- `freeList` for a list whose items are freed with `freeFunc`. -/
def freeList {α : Type} (freeFunc : α → Alloc Unit) (cells : List (ℕ × α)) : Alloc Unit :=
  cells.forM fun cell => do
    freeFunc cell.2
    Alloc.free cell.1

/-- Free all that a session holds, and the session. -/
def sessionFree (as : AutoHandle) : Alloc Unit := do
  Alloc.free as.downloadFolder.block
  Alloc.free as.statefile.block
  Alloc.amFree (as.prowlKey.map Text.block)
  Alloc.amFree (as.downloadDoneScript.map Text.block)
  freeList feedFree as.feeds
  freeList (fun t => Alloc.free t.block) as.downloads
  freeList filterFree as.filters
  Alloc.free as.block

/-! ### Paths do what they do without memory -/

theorem realizes_getHomeFolder (home : Option Str) (owned : List ℕ) :
  Realizes (getHomeFolder home) owned (some home) (Option.map Text.str)
    (fun t => Text.blocks t ++ owned) 0
  := by
  cases home with
  | none => exact realizes_pure rfl (List.Perm.refl _)
  | some home =>
    apply (realizes_malloc owned).andThen
    intro dir _
    exact realizes_pure rfl (List.Perm.refl _)

theorem realizes_resolvePath (home : Option Str) (path : Bytes) (owned : List ℕ) :
  Realizes (resolvePath home path) owned (Trailermatic.resolvePath home path)
    (Option.map Text.str) (fun t => Text.blocks t ++ owned) 0
  := by
  rw [resolvePath, Trailermatic.resolvePath.eq_def]
  by_cases hlength : 2 < strlen path
  · rw [if_pos hlength, if_pos hlength]
    by_cases htilde : (text "~/").isPrefixOf path = true
    · rw [if_pos htilde]
      apply (realizes_getHomeFolder home owned).andThen
      rintro (_ | homedir) rfl
      · apply realizes_amStrdup
      · simp only [Option.map_some, htilde, if_true]
        split_ifs
        · apply (realizes_free homedir.block owned).andThen
          intro _ _
          apply realizes_amStrdup
        · apply realizes_none
    · rw [if_neg htilde]
      cases home with
      | none => apply realizes_amStrdup
      | some homedir =>
        simp only [htilde, if_false, Bool.false_eq_true]
        apply realizes_amStrdup
  · rw [if_neg hlength, if_neg hlength]
    exact realizes_pure rfl (List.Perm.refl _)

theorem realizes_setPath (home : Option Str) (src : Bytes) (dst : Text) (owned : List ℕ) :
  Realizes (setPath home src dst) (dst.block :: owned) (Trailermatic.setPath home src dst.str)
    Text.str (fun t => t.block :: owned) 0
  := by
  rw [setPath, Trailermatic.setPath]
  split_ifs
  · apply (realizes_resolvePath home src _).followed
    rintro (_ | tmp)
    · exact realizes_pure rfl (List.Perm.refl _)
    · apply Realizes.andThen ((realizes_free dst.block _).of_perm (List.Perm.swap _ _ _)
        fun _ => List.Perm.refl _)
      intro _ _
      apply (realizes_malloc _).andThen
      intro block _
      apply Realizes.andThen ((realizes_free tmp.block _).of_perm (List.Perm.swap _ _ _)
        fun _ => List.Perm.refl _)
      intro _ _
      exact realizes_pure rfl (List.Perm.refl _)
  · exact realizes_pure rfl (List.Perm.refl _)

/-! ### Sessions do what they do without memory -/

theorem realizes_sessionInit (tempFolder : Str) (home : Option Str) :
  Realizes (sessionInit tempFolder home) [] (Trailermatic.sessionInit tempFolder home)
    AutoHandle.value AutoHandle.blocks 0
  := by
  rw [sessionInit, Trailermatic.sessionInit]
  apply (realizes_malloc _).andThen
  intro ses _
  apply (realizes_malloc _).andThen
  intro downloadFolder _
  apply (realizes_getHomeFolder home _).andThen
  rintro home rfl
  simp only
  split_ifs
  · apply (realizes_amFree_text home _).andThen
    intro _ _
    apply (realizes_amStrdup _ _).andThen
    rintro (_ | statefile) hstatefile
    · rw [← hstatefile]
      apply realizes_none
    · rw [← hstatefile]
      apply realizes_pure
      · rfl
      · apply List.Perm.swap
  · apply realizes_none

/-- A field of a session is set. -/
theorem realizes_field {γ δ : Type} {x : Alloc γ} {owned : List ℕ} {y : Option δ} {view : γ → δ}
    {owns : γ → List ℕ} {lost : ℕ} {as : AutoHandle} {set : γ → AutoHandle}
    {setValue : δ → Session} (hx : Realizes x owned y view owns lost) (before after : List ℕ)
    (hblocks : as.blocks = before ++ (owned ++ after))
    (hvalue : ∀ c, (set c).value = setValue (view c))
    (hset : ∀ c, (set c).blocks = before ++ (owns c ++ after)) :
  Realizes (set <$> x) as.blocks (y.map setValue) AutoHandle.value AutoHandle.blocks lost
  := by
  rw [hblocks]
  apply (hx.within before after).map hvalue
  intro c
  rw [hset]

section Fields

variable (as : AutoHandle)

theorem realizes_feeds {x : Alloc (List (ℕ × RssFeed))}
    {y : Option (List Trailermatic.RssFeed)} {lost : ℕ}
    (hx : Realizes x (as.feeds.flatMap feedBlocks) y (List.map feedValue)
      (List.flatMap feedBlocks) lost) :
  Realizes ((fun feeds => { as with feeds := feeds }) <$> x) as.blocks
    (y.map fun feeds => { as.value with feeds := feeds }) AutoHandle.value AutoHandle.blocks lost
  := by
  apply realizes_field hx ([as.downloadFolder.block] ++ ([as.statefile.block]
      ++ (Text.blocks as.prowlKey ++ Text.blocks as.downloadDoneScript)))
    (as.downloads.flatMap cellBlocks ++ (as.filters.flatMap filterBlocks ++ [as.block]))
  · simp only [AutoHandle.blocks, List.append_assoc]
  · intro feeds
    rfl
  · intro feeds
    simp only [AutoHandle.blocks, List.append_assoc]

theorem realizes_filters {x : Alloc (List (ℕ × Filter))}
    {y : Option (List Trailermatic.Filter)} {lost : ℕ}
    (hx : Realizes x (as.filters.flatMap filterBlocks) y (List.map filterValue)
      (List.flatMap filterBlocks) lost) :
  Realizes ((fun filters => { as with filters := filters }) <$> x) as.blocks
    (y.map fun filters => { as.value with filters := filters }) AutoHandle.value AutoHandle.blocks
    lost
  := by
  apply realizes_field hx ([as.downloadFolder.block] ++ ([as.statefile.block]
      ++ (Text.blocks as.prowlKey ++ (Text.blocks as.downloadDoneScript
        ++ (as.feeds.flatMap feedBlocks ++ as.downloads.flatMap cellBlocks))))) [as.block]
  · simp only [AutoHandle.blocks, List.append_assoc]
  · intro filters
    rfl
  · intro filters
    simp only [AutoHandle.blocks, List.append_assoc]

/-- The key that was set before is lost. -/
theorem realizes_prowlKey (param : Bytes) :
  Realizes ((fun key => { as with prowlKey := key }) <$> amStrdup param) as.blocks
    ((some (Trailermatic.amStrdup param)).map fun key => { as.value with prowlKey := key })
    AutoHandle.value AutoHandle.blocks as.value.prowlKey.toList.length
  := by
  have hx := (realizes_amStrdup param []).overwrite (Text.blocks as.prowlKey) []
  rw [length_blocks_text] at hx
  apply realizes_field hx ([as.downloadFolder.block] ++ [as.statefile.block])
    (Text.blocks as.downloadDoneScript ++ (as.feeds.flatMap feedBlocks
      ++ (as.downloads.flatMap cellBlocks ++ (as.filters.flatMap filterBlocks ++ [as.block]))))
  · simp only [AutoHandle.blocks, List.append_assoc, List.nil_append]
  · intro key
    rfl
  · intro key
    simp only [AutoHandle.blocks, List.append_assoc, List.nil_append]

/-- And so is the script. -/
theorem realizes_downloadDoneScript (param : Bytes) :
  Realizes ((fun script => { as with downloadDoneScript := script }) <$> amStrdup param) as.blocks
    ((some (Trailermatic.amStrdup param)).map fun script =>
      { as.value with downloadDoneScript := script })
    AutoHandle.value AutoHandle.blocks as.value.downloadDoneScript.toList.length
  := by
  have hx := (realizes_amStrdup param []).overwrite (Text.blocks as.downloadDoneScript) []
  rw [length_blocks_text] at hx
  apply realizes_field hx ([as.downloadFolder.block] ++ ([as.statefile.block]
      ++ Text.blocks as.prowlKey))
    (as.feeds.flatMap feedBlocks ++ (as.downloads.flatMap cellBlocks
      ++ (as.filters.flatMap filterBlocks ++ [as.block])))
  · simp only [AutoHandle.blocks, List.append_assoc, List.nil_append]
  · intro script
    rfl
  · intro script
    simp only [AutoHandle.blocks, List.append_assoc, List.nil_append]

end Fields

theorem realizes_setOption (pcre : Pcre) (home : Option Str) (as : AutoHandle)
    (opt param : Bytes) (type : OptionType) :
  Realizes (setOption pcre home as opt param) as.blocks
    (Trailermatic.setOption pcre home (some as.value) opt param type) AutoHandle.value
    AutoHandle.blocks (optionLost as.value opt param)
  := by
  rw [setOption, Trailermatic.setOption, Option.bind_some]
  by_cases hurl : opt = text "url"
  · subst hurl
    exact realizes_feeds as (realizes_getFeeds pcre as.feeds param)
  rw [if_neg hurl, if_neg hurl]
  by_cases hfeed : opt = text "feed"
  · subst hfeed
    exact realizes_feeds as (realizes_parseFeed pcre as.feeds param)
  rw [if_neg hfeed, if_neg hfeed]
  by_cases hfolder : opt = text "download-folder"
  · subst hfolder
    apply realizes_field (realizes_setPath home param as.downloadFolder []) [] as.blocks.tail
    · rfl
    · intro path
      rfl
    · intro path
      rfl
  rw [if_neg hfolder, if_neg hfolder]
  by_cases hstatefile : opt = text "statefile"
  · subst hstatefile
    apply realizes_field (realizes_setPath home param as.statefile []) [as.downloadFolder.block]
      as.blocks.tail.tail
    · rfl
    · intro path
      rfl
    · intro path
      rfl
  rw [if_neg hstatefile, if_neg hstatefile]
  by_cases hinterval : opt = text "interval"
  · subst hinterval
    rw [if_pos rfl, if_pos rfl]
    simp only
    split_ifs
    · exact realizes_pure rfl (List.Perm.refl _)
    · exact realizes_pure rfl (List.Perm.refl _)
  rw [if_neg hinterval, if_neg hinterval]
  by_cases hpatterns : opt = text "patterns"
  · subst hpatterns
    exact realizes_filters as (realizes_addPatternsOld as.filters param)
  rw [if_neg hpatterns, if_neg hpatterns]
  by_cases hfilter : opt = text "filter"
  · subst hfilter
    exact realizes_filters as (realizes_parseFilter as.filters param)
  rw [if_neg hfilter, if_neg hfilter]
  by_cases hkey : opt = text "prowl-apikey"
  · subst hkey
    exact realizes_prowlKey as param
  rw [if_neg hkey, if_neg hkey]
  by_cases hscript : opt = text "download-done-script"
  · subst hscript
    exact realizes_downloadDoneScript as param
  rw [if_neg hscript, if_neg hscript, optionLost, if_neg hfeed, if_neg hfilter, if_neg hkey,
    if_neg hscript]
  exact realizes_pure rfl (List.Perm.refl _)

theorem realizes_freeList {α : Type} {blocks : α → List ℕ} {freeFunc : α → Alloc Unit}
    (hfree : ∀ a, Realizes (freeFunc a) (blocks a) (some ()) id (fun _ => []) 0)
    (cells : List (ℕ × α)) (owned : List ℕ) :
  Realizes (freeList freeFunc cells) (cells.flatMap (fun cell => blocks cell.2 ++ [cell.1]) ++ owned)
    (some ()) id (fun _ => owned) 0
  := by
  apply Realizes.frame (realizes_forM (fun cell => ?_) cells)
  apply ((hfree cell.2).frame _).andThen
  intro _ _
  apply realizes_free

theorem realizes_sessionFree (as : AutoHandle) :
  Realizes (sessionFree as) as.blocks (some ()) id (fun _ => []) 0
  := by
  apply (realizes_free as.downloadFolder.block _).andThen
  intro _ _
  apply (realizes_free as.statefile.block _).andThen
  intro _ _
  apply (realizes_amFree_text as.prowlKey _).andThen
  intro _ _
  apply (realizes_amFree_text as.downloadDoneScript _).andThen
  intro _ _
  apply (realizes_freeList realizes_feedFree as.feeds _).andThen
  intro _ _
  apply (realizes_freeList (fun t => realizes_free t.block []) as.downloads _).andThen
  intro _ _
  apply (realizes_freeList realizes_filterFree as.filters _).andThen
  intro _ _
  apply realizes_free

/-! ### Configurations do what they do without memory -/

theorem foldlM_apply {α ι : Type} (step : α → ι → Alloc α) (a : α) (heap : Ledger)
    (is : List ι) :
  (is.foldlM step a) heap = is.foldlM (fun r i => step r.1 i r.2) (a, heap)
  := by
  induction is generalizing a heap with
  | nil => rfl
  | cons i is ih =>
    rw [List.foldlM_cons, List.foldlM_cons]
    change (step a i heap).bind (fun r => (is.foldlM step r.1) r.2) = _
    congr 1
    funext r
    apply ih

/-- What the options lose that are set one after the other. -/
def callsLost (pcre : Pcre) (home : Option Str) (s : Session)
    (calls : List (Bytes × Bytes × OptionType)) : ℕ :=
  foldLost (fun s call => Trailermatic.setOption pcre home (some s) call.1 call.2.1 call.2.2)
    (fun s call => optionLost s call.1 call.2.1) s calls

/-- What the options of a file lose. -/
def configLost (pcre : Pcre) (home : Option Str) (file : Option Bytes) (beyond : Bytes)
    (s : Session) : ℕ :=
  (Trailermatic.parseConfigFile record file beyond []).elim 0 fun parsed =>
    callsLost pcre home s parsed.state

theorem realizes_calls (pcre : Pcre) (home : Option Str) (as : AutoHandle)
    (calls : List (Bytes × Bytes × OptionType)) :
  Realizes (calls.foldlM (fun as call => setOption pcre home as call.1 call.2.1) as) as.blocks
    (applyCalls (Trailermatic.setOption pcre home) (some as.value) calls) AutoHandle.value
    AutoHandle.blocks (callsLost pcre home as.value calls)
  := by
  rw [applyCalls_eq_foldlM (setOption_eq_bind pcre home), callsLost]
  apply realizes_foldlM AutoHandle.value AutoHandle.blocks
    fun s (call : Bytes × Bytes × OptionType) => optionLost s call.1 call.2.1
  intro as call
  apply realizes_setOption

theorem realizes_parseLines (pcre : Pcre) (home : Option Str) (content beyond : Bytes)
    (as : AutoHandle) :
  Realizes (parseLines pcre home content beyond as) as.blocks
    ((parseContent (Trailermatic.setOption pcre home) content beyond (some as.value)).bind
      parsedSession) (Prod.map id AutoHandle.value) (fun r => r.2.blocks)
    ((parseContent record content beyond []).elim 0 fun parsed =>
      callsLost pcre home as.value parsed.state)
  := by
  have hcalls {σ : Type} (setOption : σ → Bytes → Bytes → OptionType → σ) (state : σ) :
      parseContent setOption content beyond state = (parseContent record content beyond []).map
        (Parsed.mapState (applyCalls setOption state)) :=
    Parse.run_mapState (applyCalls_record setOption state) ⟨0, _, 0, [], []⟩
  rw [hcalls (Trailermatic.setOption pcre home) (some as.value)]
  cases hrecord : parseContent record content beyond [] with
  | none =>
    have hlines : parseLines pcre home content beyond as = ofOption none := by
      funext heap
      rw [parseLines, hcalls, hrecord]
      rfl
    rw [hlines]
    apply realizes_none
  | some parsed =>
    have hlines : parseLines pcre home content beyond as = Prod.mk parsed.ret <$>
        parsed.state.foldlM (fun as call => setOption pcre home as call.1 call.2.1) as := by
      funext heap
      have hstate : applyCalls (setOptionState pcre home) (some (as, heap)) parsed.state
          = parsed.state.foldlM (fun r call => setOption pcre home r.1 call.1 call.2.1 r.2)
            (as, heap) := by
        apply applyCalls_eq_foldlM
        intro state opt param type
        cases state with
        | none => rfl
        | some r => rfl
      rw [parseLines, hcalls, hrecord, map_apply, foldlM_apply, ← hstate]
      simp only [Option.map_some, Option.bind_eq_bind, Option.bind_some, Parsed.mapState]
      cases applyCalls (setOptionState pcre home) (some (as, heap)) parsed.state with
      | none => rfl
      | some r => rfl
    rw [hlines]
    apply (realizes_calls pcre home as parsed.state).map
    · intro as
      rfl
    · intro as
      apply List.Perm.refl

theorem realizes_parseConfigFile (pcre : Pcre) (home : Option Str) (file : Option Bytes)
    (beyond : Bytes) (as : AutoHandle) :
  Realizes (parseConfigFile pcre home file beyond as) as.blocks
    ((Trailermatic.parseConfigFile (Trailermatic.setOption pcre home) file beyond
      (some as.value)).bind parsedSession) (Prod.map id AutoHandle.value) (fun r => r.2.blocks)
    (configLost pcre home file beyond as.value)
  := by
  cases file with
  | none => exact realizes_pure rfl (List.Perm.refl _)
  | some content =>
    rw [parseConfigFile, Trailermatic.parseConfigFile, configLost, Trailermatic.parseConfigFile]
    apply (realizes_malloc _).andThen
    intro line _
    split_ifs
    · apply (realizes_free line _).andThen
      intro _ _
      exact realizes_pure rfl (List.Perm.refl _)
    · apply (realizes_malloc _).andThen
      intro param _
      apply Realizes.finally (((realizes_parseLines pcre home content beyond as).frame
        [line, param]).of_perm _ fun _ => List.perm_append_comm)
      · intro result
        apply (realizes_free line _).andThen
        intro _ _
        apply (realizes_free param _).andThen
        intro _ _
        exact realizes_pure rfl (List.Perm.refl _)
      · apply (List.Perm.swap _ _ _).trans
        exact @List.perm_append_comm _ [line, param] as.blocks

/-- Make a session and read the configuration into it. -/
def configure (pcre : Pcre) (tempFolder : Str) (home : Option Str) (matchOnly : Bool)
    (file : Option Bytes) (beyond : Bytes) : Alloc (ℤ × AutoHandle) := do
  let ses ← sessionInit tempFolder home
  parseConfigFile pcre home file beyond { ses with matchOnly := matchOnly }

/-- What the options of the configuration lose. -/
def configureLost (pcre : Pcre) (tempFolder : Str) (home : Option Str) (matchOnly : Bool)
    (file : Option Bytes) (beyond : Bytes) : ℕ :=
  (Trailermatic.sessionInit tempFolder home).elim 0 fun s =>
    configLost pcre home file beyond { s with matchOnly := matchOnly }

theorem realizes_configure (pcre : Pcre) (tempFolder : Str) (home : Option Str)
    (matchOnly : Bool) (file : Option Bytes) (beyond : Bytes) :
  Realizes (configure pcre tempFolder home matchOnly file beyond) []
    (Trailermatic.configure pcre tempFolder home matchOnly file beyond)
    (Prod.map id AutoHandle.value) (fun r => r.2.blocks)
    (configureLost pcre tempFolder home matchOnly file beyond)
  := by
  have h := (realizes_sessionInit tempFolder home).bind
    (g := fun s => (Trailermatic.parseConfigFile (Trailermatic.setOption pcre home) file beyond
      (some { s with matchOnly := matchOnly })).bind parsedSession)
    (n := fun s => configLost pcre home file beyond { s with matchOnly := matchOnly })
    fun as _ => realizes_parseConfigFile pcre home file beyond { as with matchOnly := matchOnly }
  rw [Nat.zero_add] at h
  apply h

/-- A session without a history gets one. -/
theorem AutoHandle.blocks_downloads {as : AutoHandle} (h : as.downloads = [])
    (downloads : List (ℕ × Text)) :
  (as.blocks ++ downloads.flatMap cellBlocks).Perm
    (AutoHandle.blocks { as with downloads := downloads })
  := by
  rw [AutoHandle.blocks, AutoHandle.blocks, h]
  simp only [List.append_assoc, List.flatMap_nil, List.nil_append]
  iterate 5 apply List.Perm.append_left
  rw [← List.append_assoc]
  apply List.perm_append_comm

/-- A session without a history is freed with the one that it has got since. -/
theorem exists_sessionFree {as : AutoHandle} (has : as.downloads = []) {heap heap₁ heap₂ : Ledger}
    {n : ℕ} (hpasses : heap.Passes [] heap₁ as.blocks n) {downloads : List (ℕ × Text)}
    {others : List ℕ}
    (hbetween : heap₁.Keeps heap₂ (downloads.flatMap cellBlocks ++ others)) :
  ∃ heap₃, sessionFree { as with downloads := downloads } heap₂ = some ((), heap₃)
    ∧ ∃ lost, heap.Keeps heap₃ (lost ++ others) ∧ lost.length = n
  := by
  obtain ⟨lost, hlength, hlost⟩ := hpasses heap [] (Ledger.Balanced.refl heap)
  obtain ⟨⟨_, heap₃⟩, hfree, -, hfreed⟩ :=
    (realizes_sessionFree { as with downloads := downloads }).exists_run heap₂
  have hkeeps : heap.Keeps heap₂
      (AutoHandle.blocks { as with downloads := downloads } ++ (lost ++ others)) := by
    apply (hlost.trans hbetween).of_perm
    rw [List.append_nil, List.append_assoc]
    apply ((List.perm_append_comm_assoc lost _ others).append_left as.blocks).trans
    rw [← List.append_assoc]
    apply (AutoHandle.blocks_downloads has downloads).append_right
  obtain ⟨none', hnone, hdone⟩ := hfreed heap (lost ++ others) hkeeps
  obtain rfl := List.length_eq_zero_iff.mp hnone
  exact ⟨heap₃, hfree, lost, hdone, hlength⟩

end Owned

theorem downloads_configure {pcre : Pcre} {tempFolder : Str} {home : Option Str}
    {matchOnly : Bool} {file : Option Bytes} {beyond : Bytes} {ret : ℤ} {s : Session}
    (h : configure pcre tempFolder home matchOnly file beyond = some (ret, s)) :
  s.downloads = []
  := by
  obtain ⟨s₀, hinit, h⟩ := Option.bind_eq_some_iff.mp h
  obtain ⟨parsed, hparse, h⟩ := Option.bind_eq_some_iff.mp h
  obtain ⟨s', hstate, hs'⟩ := Option.map_eq_some_iff.mp h
  obtain ⟨-, rfl⟩ := Prod.mk.inj hs'
  apply parseConfigFile_invariant (I := fun s => s.downloads = []) _ _ hparse hstate
  · intro s₁ s₂ opt param hs₁ heffect
    rw [heffect.sameState.downloads, hs₁]
  · rw [sessionInit] at hinit
    split_ifs at hinit
    obtain ⟨statefile, -, rfl⟩ := Option.map_eq_some_iff.mp hinit
    rfl

/-- Whatever the configuration holds: the session in memory is the one that the model of the
program is configured to.  At shutdown, with the history that there is by then and whatever else
is in memory, the session is freed, and every block that was allocated for it was freed once,
except for those that an option has lost. -/
theorem session_memory {pcre : Pcre} {tempFolder : Str} {home : Option Str} {matchOnly : Bool}
    {file : Option Bytes} {beyond : Bytes} {ret : ℤ} {s : Session}
    (h : configure pcre tempFolder home matchOnly file beyond = some (ret, s)) (heap : Ledger) :
  ∃ as heap₁,
    Owned.configure pcre tempFolder home matchOnly file beyond heap = some ((ret, as), heap₁)
    ∧ as.value = s
    ∧ ∀ downloads others heap₂,
      heap₁.Keeps heap₂ (downloads.flatMap Owned.cellBlocks ++ others) →
      ∃ heap₃, Owned.sessionFree { as with downloads := downloads } heap₂ = some ((), heap₃)
        ∧ ∃ lost, heap.Keeps heap₃ (lost ++ others)
          ∧ lost.length = Owned.configureLost pcre tempFolder home matchOnly file beyond
  := by
  have hconfigure := Owned.realizes_configure pcre tempFolder home matchOnly file beyond
  rw [h] at hconfigure
  obtain ⟨⟨⟨ret', as⟩, heap₁⟩, hrun, hview, hpasses⟩ := hconfigure.exists_run heap
  obtain ⟨rfl, rfl⟩ := Prod.mk.inj hview
  refine ⟨as, heap₁, hrun, rfl, ?_⟩
  intro downloads others heap₂ hbetween
  apply Owned.exists_sessionFree (List.map_eq_nil_iff.mp (downloads_configure h)) hpasses hbetween

/-- A key that is set twice, and a filter without a pattern. -/
def wasteful : Bytes :=
  text "prowl-apikey=\"a\"\nprowl-apikey=\"b\"\nfilter=\x7buseragent => \"x\"\x7d\n"

theorem session_memory_wasteful :
  ∃ s, configure .plain ⟨text "/t", by decide, by decide⟩ none false (some wasteful) (text "x")
      = some (0, s)
    ∧ ∃ (as : Owned.AutoHandle) (heap₁ : Ledger), as.value = s
      ∧ ∃ heap₃, Owned.sessionFree { as with downloads := [] } heap₁ = some ((), heap₃)
        ∧ ∃ lost, Ledger.empty.Keeps heap₃ lost ∧ lost.length = 3
  := by
  have hlost : Owned.configureLost .plain ⟨text "/t", by decide, by decide⟩ none false
      (some wasteful) (text "x") = 3 := by
    decide +kernel
  obtain ⟨s, hs⟩ : ∃ s, configure .plain ⟨text "/t", by decide, by decide⟩ none false
      (some wasteful) (text "x") = some (0, s) := ⟨_, rfl⟩
  obtain ⟨as, heap₁, -, hvalue, hfree⟩ := session_memory hs .empty
  obtain ⟨heap₃, hrun, lost, hkeeps, hlength⟩ := hfree [] [] heap₁ (Ledger.Balanced.refl heap₁)
  rw [List.append_nil] at hkeeps
  exact ⟨s, hs, as, heap₁, hvalue, heap₃, hrun, lost, hkeeps, hlength.trans hlost⟩

end Trailermatic
