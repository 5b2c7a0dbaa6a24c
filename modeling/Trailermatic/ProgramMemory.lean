import Trailermatic.DaemonMemory
import Trailermatic.Tidy

/-!
# The memory of the program

The start, the loop and the shutdown of the program, with the blocks that they allocate and free.
`main_memory` follows the program from the command line to its end, and `main_balanced_iff` says
when every block has been freed.
-/

namespace Trailermatic

/-- What the program finds as it starts. -/
def Outside.boot (o : Outside) (b : Boot) : Boot :=
  { b with env := o.env, request := o.key.request }

/-! ### What the program loses -/

namespace Outside

variable (o : Outside)

/-- What the passes lose, or the one pass over a file that was named. -/
def loopLost (closing : ℕ → Bool) (a : Arguments) (passes : ℕ) (w : World) : ℕ :=
  match a.xmlfile.filter (· ≠ []) with
  | none => o.mainLoopLost passes true w
  | some xmlfile =>
    if closing 0 then 0 else o.fileLost w ((readFile (w.disk xmlfile)).map (·.bytes))

/-- The names that the answer about the key loses, if there is a key. -/
def keyLost (s : Session) : ℕ :=
  if s.prowlKey.isSome then o.key.lost o.pcre else 0

/-- What the program loses after it has been configured. -/
def configuredLost (b : Boot) (a : Arguments) (passes : ℕ) (ret : ℤ) (s : Session) : ℕ :=
  if ret ≠ 0 ∨ (a.nofork = false ∧ b.daemonize ≠ 0) ∨ listCount s.feeds = 0
      ∨ listCount s.filters = 0 then 0
  else
    o.keyLost s + o.loopLost b.closing a passes
      (started o.key.request s (b.disk s.statefile.bytes) b.disk)

/-- The copy of the default path, what the options of the configuration lose, and what is lost
after that. -/
def mainLost (b : Boot) (a : Arguments) (passes : ℕ) : ℕ :=
  (if a.cFile.isNone then 1 else 0) + (autoConfigFile a.cFile).elim 0 fun file =>
    Owned.configureLost o.pcre b.tempFolder b.home a.matchOnly (b.disk file) b.beyond
      + (configure o.pcre b.tempFolder b.home a.matchOnly (b.disk file) b.beyond).elim 0 fun r =>
        o.configuredLost b a passes r.1 r.2

end Outside

/-! ### The end of the program -/

/-- What the loop leaves after a number of passes over the feeds, or after the pass over a
file. -/
def looped (b : Boot) (a : Arguments) (passes : ℕ) (w : World) : World :=
  match a.xmlfile.filter (· ≠ []) with
  | none => mainLoop b.env passes true w
  | some xmlfile =>
    if b.closing 0 then w else processFile b.env w ((readFile (w.disk xmlfile)).map (·.bytes))

/-- The loop over the feeds stops after as many passes, and not before. -/
def Counted (b : Boot) (a : Arguments) (passes : ℕ) : Prop :=
  a.xmlfile.filter (· ≠ []) = none → Stops b a passes ∧ ∀ k < passes, ¬ Stops b a k

/-- Only one pass is wanted, and no signal arrives. -/
theorem Counted.eq_one {b : Boot} {a : Arguments} {passes : ℕ} (h : Counted b a passes)
    (hclosing : ∀ k, b.closing k = false) (honce : a.once = true) (hxml : a.xmlfile = none) :
  passes = 1
  := by
  have hiff := stops_once_iff hclosing honce
  obtain ⟨hstops, hfirst⟩ := h (by rw [hxml, Option.filter_none])
  have hpos := (hiff passes).mp hstops
  have hone : ¬ 1 < passes := fun hlt => hfirst 1 hlt ((hiff 1).mpr Nat.one_pos)
  omega

theorem LoopEnds.exists_looped {b : Boot} {a : Arguments} {w w' : World}
    (h : LoopEnds b a w w') :
  ∃ passes, Counted b a passes ∧ looped b a passes w = w'
  := by
  rcases (loop_ends_iff b a w w').mp h with
    ⟨hxml, passes, hstops, hfirst, rfl⟩ | ⟨xmlfile, hxml, rfl⟩
  · refine ⟨passes, fun _ => ⟨hstops, hfirst⟩, ?_⟩
    rw [looped, hxml]
  · have hxml' := Option.mem_def.mp hxml
    refine ⟨0, ?_, ?_⟩
    · intro hnone
      rw [hnone] at hxml'
      cases hxml'
    · rw [looped, hxml']

/-- What the program leaves. -/
def Startup.left (b : Boot) (a : Arguments) (passes : ℕ) : Startup → World
  | .stopped w => shutdownDaemon b.save w
  | .ready w => shutdownDaemon b.save (looped b a passes w)

theorem Main.exists_left {b : Boot} {options : List CommandOption} {w : World}
    (h : Main b options w) :
  ∃ a passes, readargs options = some a
    ∧ (∀ w', startup b a = some (.ready w') → Counted b a passes)
    ∧ (startup b a).map (Startup.left b a passes) = some w
  := by
  cases h with
  | stopped a w hargs hstartup =>
    refine ⟨a, 0, hargs, ?_, ?_⟩
    · intro w' hready
      rw [hstartup] at hready
      cases hready
    · rw [hstartup]
      rfl
  | ended a w w' hargs hstartup hloop =>
    obtain ⟨passes, hcounted, rfl⟩ := hloop.exists_looped
    refine ⟨a, passes, hargs, fun _ _ => hcounted, ?_⟩
    rw [hstartup]
    rfl

/-- What a configured session starts with. -/
def begun (b : Boot) (a : Arguments) (ret : ℤ) (s : Session) : Startup :=
  if ret ≠ 0 ∨ (a.nofork = false ∧ b.daemonize ≠ 0) ∨ listCount s.feeds = 0
      ∨ listCount s.filters = 0 then .stopped (.start s b.disk)
  else .ready (started b.request s (b.disk s.statefile.bytes) b.disk)

theorem startup_left (b : Boot) (a : Arguments) (passes : ℕ) :
  (startup b a).map (Startup.left b a passes)
    = (autoConfigFile a.cFile).bind fun file =>
      (configure b.env.pcre b.tempFolder b.home a.matchOnly (b.disk file) b.beyond).bind fun r =>
        some (Startup.left b a passes (begun b a r.1 r.2))
  := by
  rw [startup_eq_configure]
  cases autoConfigFile a.cFile with
  | none => rfl
  | some file =>
    simp only [Option.bind_some, Option.map_map]
    cases configure b.env.pcre b.tempFolder b.home a.matchOnly (b.disk file) b.beyond with
    | none => rfl
    | some r => rfl

/-! ### The key -/

/-- The answer about the key, if it counts as a confirmation. -/
def confirmed (answer : Option Reply) (s : Session) : Session :=
  if prowlResult answer != 0 then { s with prowlKeyValid := true } else s

theorem checkKey_eq (t : Traffic) (s : Session) :
  checkKey t.request s = if s.prowlKey.isSome then confirmed t.answer s else s
  := by
  cases hkey : s.prowlKey with
  | none => simp [checkKey, hkey]
  | some key =>
    have hanswer : (verifyProwlAPIKey t.request (some key) .empty).1 = prowlResult t.answer := by
      rw [verifyProwlAPIKey, Traffic.answer]
      cases hinit : t.curlInit with
      | false => simp [getHttpData, amCurlInit, Traffic.request, hinit]
      | true => simp [getHttpData, amCurlInit, Traffic.request, hinit]
    simp [checkKey, hkey, hanswer, confirmed]

theorem downloads_checkKey (a : RequestAnswers) (s : Session) :
  (checkKey a s).downloads = s.downloads
  := by
  rw [checkKey]
  split_ifs
  · rfl
  · rfl

namespace Owned

open Alloc

/-! ### The start -/

/-- The key counts as valid unless the answer about it comes out as 0. -/
def AutoHandle.confirm (answer : Option Reply) (as : AutoHandle) : AutoHandle :=
  if prowlResult answer != 0 then { as with prowlKeyValid := true } else as

/-- Ask about the key before the first pass. -/
def checkKey (o : Outside) (as : AutoHandle) : Alloc (AutoHandle × Bool) :=
  match as.prowlKey with
  | none => pure (as, false)
  | some key => (fun r => (as.confirm r.1, r.2))
      <$> verifyProwlAPIKey o.pcre o.key (some key) false

/-- Load the history. -/
def load (file : Option Bytes) (as : AutoHandle) : Alloc AutoHandle :=
  (fun downloads => { as with downloads := downloads }) <$> loadState file as.downloads

/-- The world in which the first pass begins. -/
def start (o : Outside) (disk : Disk) (as : AutoHandle) : Alloc World := do
  let (checked, isMoveHeader) ← checkKey o as
  let loaded ← load (disk as.statefile.str.bytes) checked
  return ⟨loaded, disk, [], [], 0, 0, isMoveHeader⟩

/-- Save the history and free the session. -/
def shutdownDaemon (save : SaveAnswers) (w : World) : Alloc Trailermatic.World := do
  sessionFree w.session
  return Trailermatic.shutdownDaemon save w.value

theorem realizes_checkKey {o : Outside} (ho : o.Allowed) (as : AutoHandle) :
  Realizes (checkKey o as) as.blocks (some (Trailermatic.checkKey o.key.request as.value))
    (fun r => r.1.value) (fun r => r.1.blocks) (o.keyLost as.value)
  := by
  have hkey : as.value.prowlKey.isSome = as.prowlKey.isSome := Option.isSome_map
  rw [checkKey, checkKey_eq, Outside.keyLost, hkey]
  cases as.prowlKey with
  | none => exact realizes_pure rfl (List.Perm.refl _)
  | some key =>
    simp only [Option.isSome_some, if_true]
    apply (realizes_verifyProwlAPIKey ho.lists ho.key key false _).map
      (h := fun answer => confirmed answer as.value)
    · intro r
      simp only [AutoHandle.confirm, confirmed]
      split_ifs
      · rfl
      · rfl
    · intro r
      simp only [AutoHandle.confirm]
      split_ifs
      · apply List.Perm.refl
      · apply List.Perm.refl

theorem realizes_load (file : Option Bytes) {as : AutoHandle} (has : as.downloads = []) :
  Realizes (load file as) as.blocks (some (as.value.loaded file)) AutoHandle.value
    AutoHandle.blocks 0
  := by
  have h : Realizes (loadState file as.downloads) (as.downloads.flatMap cellBlocks)
      (some (Trailermatic.loadState file []).2) (List.map cellValue) (List.flatMap cellBlocks)
      0 := by
    rw [has]
    apply realizes_loadState
  apply realizes_downloads as h

theorem realizes_start {o : Outside} (ho : o.Allowed) (disk : Disk) {as : AutoHandle}
    (has : as.downloads = []) :
  Realizes (start o disk as) as.blocks
    (some (started o.key.request as.value (disk as.value.statefile.bytes) disk)) World.value
    World.blocks (o.keyLost as.value)
  := by
  apply Realizes.bind (realizes_checkKey ho as)
    (g := fun s => some (Trailermatic.World.start (s.loaded (disk as.value.statefile.bytes)) disk))
    (n := fun _ => 0)
  rintro ⟨checked, isMoveHeader⟩ hchecked
  have hdownloads : checked.value.downloads = [] := by
    rw [← Option.some.inj hchecked, downloads_checkKey]
    apply List.map_eq_nil_iff.mpr has
  apply (realizes_load (disk as.statefile.str.bytes) (List.map_eq_nil_iff.mp hdownloads)).andThen
  intro loaded hloaded
  apply realizes_pure
  · rw [World.value, hloaded]
    rfl
  · apply List.Perm.refl

theorem realizes_shutdownDaemon (save : SaveAnswers) (w : World) :
  Realizes (shutdownDaemon save w) w.blocks (some (Trailermatic.shutdownDaemon save w.value)) id
    (fun _ => []) 0
  := by
  apply (realizes_sessionFree w.session).andThen
  intro _ _
  exact realizes_pure rfl (List.Perm.refl _)

/-! ### The program -/

/-- The main loop, or the one pass over a file that was named. -/
def loop (o : Outside) (closing : ℕ → Bool) (a : Arguments) (passes : ℕ) (w : World) :
    Alloc World :=
  match a.xmlfile.filter (· ≠ []) with
  | none => mainLoop o passes true w
  | some xmlfile =>
    if closing 0 then pure w
    else processFile o w ((readFile (w.disk xmlfile)).map (·.bytes))

/-- `main` after the session has been configured. -/
def configured (o : Outside) (b : Boot) (a : Arguments) (passes : ℕ) (ret : ℤ)
    (as : AutoHandle) : Alloc Trailermatic.World :=
  if ret ≠ 0 ∨ (a.nofork = false ∧ b.daemonize ≠ 0) ∨ listCount as.value.feeds = 0
      ∨ listCount as.value.filters = 0 then
    shutdownDaemon b.save ⟨as, b.disk, [], [], 0, 0, false⟩
  else do
    let w ← start o b.disk as
    let w ← loop o b.closing a passes w
    shutdownDaemon b.save w

/-- The copy of the path of the configuration file, which is made if no path is given, and never
freed. -/
def configFile (cFile : Option Bytes) : Alloc Unit :=
  match cFile with
  | none => do
    let _ ← malloc
    return ()
  | some _ => pure ()

/-- `main` after the command line has been read, with a number of passes over the feeds. -/
def main (o : Outside) (b : Boot) (a : Arguments) (passes : ℕ) : Alloc Trailermatic.World := do
  configFile a.cFile
  let file ← ofOption (autoConfigFile a.cFile)
  let (ret, as) ← configure o.pcre b.tempFolder b.home a.matchOnly (b.disk file) b.beyond
  configured o b a passes ret as

section Program

variable {o : Outside} (ho : o.Allowed)

include ho

theorem realizes_loop (b : Boot) (a : Arguments) (passes : ℕ) (w : World) :
  Realizes (loop o b.closing a passes w) w.blocks (some (looped (o.boot b) a passes w.value))
    World.value World.blocks (o.loopLost b.closing a passes w.value)
  := by
  rw [loop, looped, Outside.loopLost]
  cases a.xmlfile.filter (· ≠ []) with
  | none => apply realizes_mainLoop ho
  | some xmlfile =>
    have hclosing : (o.boot b).closing = b.closing := rfl
    simp only [hclosing, World.value_disk]
    split_ifs
    · exact realizes_pure rfl (List.Perm.refl _)
    · apply realizes_processFile ho

theorem realizes_configured (b : Boot) (a : Arguments) (passes : ℕ) (ret : ℤ) {as : AutoHandle}
    (has : as.downloads = []) :
  Realizes (configured o b a passes ret as) as.blocks
    (some (Startup.left (o.boot b) a passes (begun (o.boot b) a ret as.value))) id (fun _ => [])
    (o.configuredLost b a passes ret as.value)
  := by
  have hdaemonize : (o.boot b).daemonize = b.daemonize := rfl
  rw [configured, Outside.configuredLost, begun, hdaemonize]
  split_ifs
  · apply realizes_shutdownDaemon
  · apply Realizes.bind (realizes_start ho b.disk has)
      (g := fun w => some (Startup.left (o.boot b) a passes (.ready w)))
      (n := o.loopLost b.closing a passes)
    intro w _
    apply Realizes.followed (realizes_loop ho b a passes w)
      (h := Trailermatic.shutdownDaemon b.save)
    intro w'
    apply realizes_shutdownDaemon

omit ho in
theorem realizes_configFile (cFile : Option Bytes) :
  Realizes (configFile cFile) [] (some ()) id (fun _ => []) (if cFile.isNone then 1 else 0)
  := by
  cases cFile with
  | none =>
    apply (realizes_malloc []).andThen
    intro block _
    exact @realizes_lose _ _ [block] id (fun _ => []) () () [block] rfl (List.Perm.refl _)
  | some path => exact realizes_pure rfl (List.Perm.refl _)

theorem realizes_main (b : Boot) (a : Arguments) (passes : ℕ) :
  Realizes (main o b a passes) []
    ((startup (o.boot b) a).map (Startup.left (o.boot b) a passes)) id (fun _ => [])
    (o.mainLost b a passes)
  := by
  have hconfigured (file : Bytes) := (realizes_configure o.pcre b.tempFolder b.home a.matchOnly
    (b.disk file) b.beyond).bind
      (g := fun r => some (Startup.left (o.boot b) a passes (begun (o.boot b) a r.1 r.2)))
      (n := fun r => o.configuredLost b a passes r.1 r.2)
      (f := fun r => configured o b a passes r.1 r.2) fun r hr =>
        realizes_configured ho b a passes r.1 (List.map_eq_nil_iff.mp (downloads_configure hr))
  have hfile := (realizes_ofOption (autoConfigFile a.cFile) []).bind
    (g := fun file => (Trailermatic.configure o.pcre b.tempFolder b.home a.matchOnly (b.disk file)
      b.beyond).bind fun r => some (Startup.left (o.boot b) a passes (begun (o.boot b) a r.1 r.2)))
    (n := fun file => configureLost o.pcre b.tempFolder b.home a.matchOnly (b.disk file) b.beyond
      + (Trailermatic.configure o.pcre b.tempFolder b.home a.matchOnly (b.disk file)
        b.beyond).elim 0 fun r => o.configuredLost b a passes r.1 r.2)
    (f := fun file => configure o.pcre b.tempFolder b.home a.matchOnly (b.disk file) b.beyond
      >>= fun r => configured o b a passes r.1 r.2) fun file _ => hconfigured file
  rw [startup_left, Outside.mainLost]
  rw [Nat.zero_add] at hfile
  apply Realizes.bind (realizes_configFile a.cFile) (g := fun _ => _) (n := fun _ => _)
    fun _ _ => hfile

end Program

end Owned

/-- The program in memory, with what it owns when it has ended: nothing. -/
theorem Main.exists_passes {o : Outside} (ho : o.Allowed) {b : Boot}
    {options : List CommandOption} {w : World} (h : Main (o.boot b) options w) (heap : Ledger) :
  ∃ a passes heap', readargs options = some a
    ∧ (∃ r, startup (o.boot b) a = some r)
    ∧ (∀ w', startup (o.boot b) a = some (.ready w') → Counted (o.boot b) a passes)
    ∧ Owned.main o b a passes heap = some (w, heap')
    ∧ heap.Passes [] heap' [] (o.mainLost b a passes)
  := by
  obtain ⟨a, passes, hargs, hcounted, hleft⟩ := h.exists_left
  obtain ⟨r, hstartup, -⟩ := Option.map_eq_some_iff.mp hleft
  have hmain := Owned.realizes_main ho b a passes
  rw [hleft] at hmain
  obtain ⟨⟨w, heap'⟩, hrun, rfl, hpasses⟩ := hmain.exists_run heap
  exact ⟨a, passes, heap', hargs, ⟨r, hstartup⟩, hcounted, hrun, hpasses⟩

/-- A document with a second title, and transfers without headers. -/
def plainOutside : Outside where
  pcre := .plain
  key := ⟨false, [], none⟩
  libxml _ := ⟨true, false, true, some [.element [⟨text "title", some (text "a"), []⟩,
    ⟨text "title", some (text "b"), []⟩, ⟨text "link", some longUrl.bytes, []⟩]]⟩
  visit _ := .plain 200
  fetch _ _ := ⟨true, [], some ⟨200, some (text "<rss/>")⟩⟩
  notice _ _ := ⟨false, [], none⟩

theorem allowed_plainOutside :
  plainOutside.Allowed
  := ⟨Pcre.plain_lists, Simulation.throughout_nil, fun _ _ => Simulation.throughout_nil,
    fun _ _ => Simulation.throughout_nil⟩

/-- What is left after one pass. -/
def plainLeft : World :=
  shutdownDaemon .granting (mainLoop plainOutside.env 1 true
    (.start plainConfigured (plainBoot .granting).disk))

theorem startup_plainOutside :
  startup (plainOutside.boot (plainBoot .granting)) plainArguments
    = some (.ready (.start plainConfigured (plainBoot .granting).disk))
  := rfl

theorem main_plainOutside :
  Main (plainOutside.boot (plainBoot .granting)) [.nodaemon, .once] plainLeft
  := main_once rfl (fun _ => rfl) rfl rfl startup_plainOutside

/-- No transfer names its file twice, and no string of a document is set again. -/
structure Outside.Once (o : Outside) : Prop where
  key : o.key.arrivals.countP (Arrival.names o.pcre) ≤ 1
  fetch : ∀ n feed, (o.fetch n feed).arrivals.countP (Arrival.names o.pcre) ≤ 1
  notice : ∀ n tries, (o.notice n tries).arrivals.countP (Arrival.names o.pcre) ≤ 1
  documents : ∀ data, ∀ nodes ∈ (o.libxml data).nodes, ∀ children,
    .element children ∈ nodes → ItemSetOnce children

theorem Traffic.lost_eq_zero {pcre : Pcre} {t : Traffic}
    (h : t.arrivals.countP (Arrival.names pcre) ≤ 1) :
  t.lost pcre = 0
  := by
  rw [Traffic.lost]
  split_ifs
  · omega
  · rfl

theorem sendLost_eq_zero {pcre : Pcre} {traffic : ℕ → Traffic}
    (h : ∀ k, (traffic k).arrivals.countP (Arrival.names pcre) ≤ 1) (tries : ℕ) :
  sendLost pcre traffic tries = 0
  := by
  induction tries with
  | zero => rfl
  | succ tries ih => rw [sendLost, Traffic.lost_eq_zero (h tries), ih, ite_self]

namespace Outside

variable {o : Outside} (h : o.Once)

include h

theorem Once.noticeLost (w : World) :
  o.noticeLost w = 0
  := by
  rw [Outside.noticeLost]
  split_ifs
  · apply sendLost_eq_zero (h.notice w.visits)
  · rfl

theorem Once.urlLost (w : World) (url : Str) :
  o.urlLost w url = 0
  := by
  rw [Outside.urlLost]
  cases isMatch o.pcre (beginVisit o.env w).session.filters url.bytes with
  | none => rfl
  | some filter =>
    simp only [attemptLost, h.noticeLost, ite_self]

theorem Once.listLost (w : World) (items : List FeedItem) :
  o.listLost w items = 0
  := by
  apply Alloc.foldLost_eq_zero
  intro w item
  apply Alloc.foldLost_eq_zero
  apply h.urlLost

theorem Once.documentLost (grows : Bool) (w : World) (data : Bytes) :
  o.documentLost grows w data = 0
  := by
  have hoverwritten := (Owned.overwritten_eq_zero_iff (o.libxml data)).mpr (h.documents data)
  simp only [Outside.documentLost, hoverwritten, h.listLost]

theorem Once.fetchLost (firstrun : Bool) (w : World) (feed : RssFeed) :
  o.fetchLost firstrun w feed = 0
  := by
  have hreply (w : World) (reply : Reply) : o.replyLost firstrun w reply = 0 := by
    rw [replyLost]
    cases reply.data with
    | none => apply ite_self
    | some data => rw [Option.elim_some, h.documentLost, ite_self]
  rw [Outside.fetchLost]
  cases feed.url with
  | none => rfl
  | some url =>
    rw [Option.elim_some, Traffic.lost_eq_zero (h.fetch w.fetches feed)]
    cases (o.fetch w.fetches feed).answer with
    | none => rfl
    | some reply => rw [Option.elim_some, hreply]

theorem Once.mainLoopLost (passes : ℕ) (firstRun : Bool) (w : World) :
  o.mainLoopLost passes firstRun w = 0
  := by
  induction passes generalizing firstRun w with
  | zero => rfl
  | succ passes ih =>
    rw [Outside.mainLoopLost, ih, passLost]
    apply Alloc.foldLost_eq_zero
    apply h.fetchLost

theorem Once.configuredLost (b : Boot) (a : Arguments) (passes : ℕ) (ret : ℤ) (s : Session) :
  o.configuredLost b a passes ret s = 0
  := by
  have hkey : o.keyLost s = 0 := by
    rw [keyLost, Traffic.lost_eq_zero h.key, ite_self]
  have hloop (w : World) : o.loopLost b.closing a passes w = 0 := by
    rw [loopLost]
    cases a.xmlfile.filter (· ≠ []) with
    | none => apply h.mainLoopLost
    | some xmlfile =>
      simp only [fileLost, h.documentLost]
      cases (readFile (w.disk xmlfile)).map (·.bytes) with
      | none => apply ite_self
      | some data => apply ite_self
  rw [Outside.configuredLost, hkey, hloop, ite_self]

theorem Once.mainLost_eq_zero_iff {b : Boot} {a : Arguments} {r : Startup}
    (hstartup : startup (o.boot b) a = some r) (passes : ℕ) :
  o.mainLost b a passes = 0
    ↔ ∃ path, a.cFile = some path ∧ Owned.Tidy (Owned.optionsOf (b.disk path) b.beyond)
  := by
  rw [startup_eq_configure] at hstartup
  obtain ⟨file, hfile, hstartup⟩ := Option.bind_eq_some_iff.mp hstartup
  obtain ⟨⟨ret, s⟩, hconfigured, -⟩ := Option.map_eq_some_iff.mp hstartup
  have hs : configure o.pcre b.tempFolder b.home a.matchOnly (b.disk file) b.beyond
      = some (ret, s) := hconfigured
  rw [mainLost, hfile, Option.elim_some, hs, Option.elim_some, h.configuredLost, Nat.add_zero,
    Nat.add_eq_zero_iff, Owned.configureLost_eq_zero_iff hs]
  cases hpath : a.cFile with
  | none => simp
  | some path =>
    rw [hpath, autoConfigFile] at hfile
    split_ifs at hfile
    obtain rfl : path = file := Option.some.inj hfile
    simp

end Outside

/-- The same with one title only. -/
def thriftyOutside : Outside :=
  { plainOutside with libxml := fun _ => ⟨true, false, true, some [plainNode [longUrl]]⟩ }

theorem allowed_thriftyOutside :
  thriftyOutside.Allowed
  := ⟨Pcre.plain_lists, Simulation.throughout_nil, fun _ _ => Simulation.throughout_nil,
    fun _ _ => Simulation.throughout_nil⟩

theorem once_thriftyOutside :
  thriftyOutside.Once
  where
    key := Nat.zero_le 1
    fetch _ _ := Nat.zero_le 1
    notice _ _ := Nat.zero_le 1
    documents _ := (Owned.overwritten_eq_zero_iff (thriftyOutside.libxml [])).mp (by decide)

/-- The path of the configuration is given. -/
def thriftyArguments : Arguments :=
  { plainArguments with cFile := some AM_DEFAULT_CONFIGFILE }

theorem main_thriftyOutside :
  Main (thriftyOutside.boot (plainBoot .granting))
    [.nodaemon, .once, .configfile AM_DEFAULT_CONFIGFILE]
    (shutdownDaemon .granting (mainLoop thriftyOutside.env 1 true
      (.start plainConfigured (plainBoot .granting).disk)))
  := by
  have hready : startup (thriftyOutside.boot (plainBoot .granting)) thriftyArguments
      = some (.ready (.start plainConfigured (plainBoot .granting).disk)) := rfl
  apply main_once rfl (fun _ => rfl) rfl rfl hready

end Trailermatic
