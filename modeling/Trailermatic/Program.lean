import Trailermatic.Config.Proper
import Trailermatic.Files
import Trailermatic.Lifecycle
import Trailermatic.Library.While
import Trailermatic.Prowl
import Mathlib.Data.Nat.Find

/-!
# The program

`main` reads the command line and the configuration, loads the history and passes over the
feeds until a signal tells it to stop.  `startup_ready` says what it is ready with,
`loop_ends_iff` when it ends, and `main_remembers` and `main_saves` what it leaves for the
next time.
-/

namespace Trailermatic

/-! ### The command line -/

/-- What `getopt_long` makes of an option; every option it does not know, and `-h`, is
`help`.  The level of `-v` is what `atoi` makes of its argument. -/
inductive CommandOption where
  | appendLog
  | verbose (level : ℤ)
  | nodaemon
  | configfile (path : Bytes)
  | logfile (path : Bytes)
  | xml (path : Bytes)
  | once
  | matchOnly
  | help
deriving DecidableEq

/-- What `readargs` sets. -/
structure Arguments where
  cFile : Option Bytes
  logfile : Option Bytes
  xmlfile : Option Bytes
  nofork : Bool
  verbose : UInt8
  once : Bool
  appendLog : Bool
  matchOnly : Bool
deriving DecidableEq

/-- The values before the command line is read. -/
def Arguments.initial : Arguments :=
  ⟨none, none, none, false, 1, false, false, false⟩

/-- The body of the loop of `readargs`.  `usage` ends the program. -/
def readarg (a : Arguments) : CommandOption → Option Arguments
  | .appendLog => some { a with appendLog := true }
  | .verbose level => some { a with verbose := UInt8.ofInt level }
  | .nodaemon => some { a with nofork := true }
  | .configfile path => some { a with cFile := some path }
  | .logfile path => some { a with logfile := some path }
  | .xml path => some { a with xmlfile := some path, nofork := true, once := true }
  | .once => some { a with once := true }
  | .matchOnly => some { a with matchOnly := true }
  | .help => none

/-- The loop over the options of the command line. -/
def readargs (options : List CommandOption) : Option Arguments :=
  options.foldlM readarg .initial

/-! ### The start -/

def AM_DEFAULT_CONFIGFILE : Bytes := text "/etc/trailermatic.conf"

def AM_DEFAULT_STATEFILE : Bytes := text ".trailermatic.state"

/-- The string in `AutoConfigFile`, which has room for `MAXPATHLEN` bytes and a NUL. -/
def autoConfigFile (cFile : Option Bytes) : Option Bytes :=
  let configFile := cFile.getD AM_DEFAULT_CONFIGFILE
  if configFile.length ≤ MAXPATHLEN then some configFile else none

/-- The session as it is before the configuration is read.  There is none if the path of the
state file does not fit into its buffer. -/
def sessionInit (tempFolder : Str) (home : Option Str) : Option Session :=
  -- glibc prints "(null)" for NULL
  let path := home.elim (text "(null)") Str.bytes ++ slash :: AM_DEFAULT_STATEFILE
  if path.length < MAXPATHLEN then
    (amStrdup path).map fun statefile =>
      { statefile := statefile
        downloadFolder := tempFolder
        prowlKey := none
        downloadDoneScript := none
        feeds := []
        filters := []
        downloads := []
        prowlKeyValid := false
        maxBucketItems := AM_DEFAULT_MAXBUCKET
        bucketChanged := false
        checkInterval := AM_DEFAULT_INTERVAL
        matchOnly := false }
  else none

/-- What the program finds as it starts, and the answers to what it asks: the folders of the
user, the files, the memory behind the configuration, the value of `daemonize`, the answers
about the key and during the passes, whether a signal has told the program to stop when its
loop begins a turn, and the answers to the last saving. -/
structure Boot where
  home : Option Str
  tempFolder : Str
  disk : Disk
  beyond : Bytes
  daemonize : ℤ
  request : RequestAnswers
  env : Env
  closing : ℕ → Bool
  save : SaveAnswers

/-- The program stops before its loop, or is ready for it. -/
inductive Startup where
  | stopped (w : World)
  | ready (w : World)

/-- `main` up to its loop.  It has no value where the program's behaviour is undefined. -/
def startup (b : Boot) (a : Arguments) : Option Startup := do
  let file ← autoConfigFile a.cFile
  let s ← sessionInit b.tempFolder b.home
  let parsed ← parseConfigFile (setOption b.env.pcre b.home) (b.disk file) b.beyond
    (some { s with matchOnly := a.matchOnly })
  let s ← parsed.state
  if parsed.ret ≠ 0 ∨ (a.nofork = false ∧ b.daemonize ≠ 0) ∨ listCount s.feeds = 0
      ∨ listCount s.filters = 0 then
    return .stopped (.start s b.disk)
  else
    return .ready (started b.request s (b.disk s.statefile.bytes) b.disk)

/-! ### The loop -/

/-- The state of the main loop between two turns. -/
structure LoopState where
  turns : ℕ
  firstRun : Bool
  world : World

/-- A turn of the loop of `main`.  A file on the command line makes it the only one. -/
def mainTurn (env : Env) (closing : ℕ → Bool) (a : Arguments) (s : LoopState) :
    Turn LoopState World :=
  if closing s.turns then .done s.world
  else
    match a.xmlfile.filter (· ≠ []) with
    | some xmlfile =>
      .done (processFile env s.world ((readFile (s.world.disk xmlfile)).map (·.bytes)))
    | none =>
      let w := checkFeeds env s.firstRun s.world.session.feeds s.world
      if a.once then .done w else .next ⟨s.turns + 1, false, w⟩

/-- The loop ends with the world `w'`. -/
def LoopEnds (b : Boot) (a : Arguments) (w w' : World) : Prop :=
  While.Ends (mainTurn b.env b.closing a) ⟨0, true, w⟩ w'

/-- `main` ends, after it has shut the daemon down, and leaves the world `w`. -/
inductive Main (b : Boot) (options : List CommandOption) : World → Prop where
  | stopped (a : Arguments) (w : World) : readargs options = some a →
    startup b a = some (.stopped w) → Main b options (shutdownDaemon b.save w)
  | ended (a : Arguments) (w w' : World) : readargs options = some a →
    startup b a = some (.ready w) → LoopEnds b a w w' →
    Main b options (shutdownDaemon b.save w')

/-! ### When the program ends -/

/-- The loop stops at the beginning of the turn `n`, or after the turn before it. -/
def Stops (b : Boot) (a : Arguments) (n : ℕ) : Prop :=
  b.closing n = true ∨ a.once = true ∧ 0 < n

theorem ends_of_passes {env : Env} {closing : ℕ → Bool} {a : Arguments}
    (hxml : a.xmlfile.filter (· ≠ []) = none) (s : LoopState) (n : ℕ)
    (hgoes : ∀ k < n, closing (s.turns + k) = false ∧ (a.once = true → k = 0))
    (hstops : closing (s.turns + n) = true ∨ a.once = true ∧ 0 < n) :
  While.Ends (mainTurn env closing a) s (mainLoop env n s.firstRun s.world)
  := by
  induction n generalizing s with
  | zero =>
    apply While.Ends.done
    rw [mainTurn, if_pos]
    · rfl
    · simpa using hstops
  | succ n ih =>
    have hfirst : closing s.turns = false := (hgoes 0 (Nat.succ_pos n)).1
    cases honce : a.once with
    | true =>
      have hzero : n = 0 := (hgoes n (Nat.lt_succ_self n)).2 honce
      apply While.Ends.done
      rw [mainTurn, hfirst, hxml, honce, hzero]
      rfl
    | false =>
      have hturn : mainTurn env closing a s = .next ⟨s.turns + 1, false,
          checkFeeds env s.firstRun s.world.session.feeds s.world⟩ := by
        rw [mainTurn, hfirst, hxml, honce]
        rfl
      apply While.Ends.next hturn
      · apply ih ⟨s.turns + 1, false, _⟩
        · intro k hk
          rw [Nat.add_assoc, Nat.add_comm 1 k]
          refine ⟨(hgoes (k + 1) (Nat.succ_lt_succ hk)).1, ?_⟩
          intro h
          rw [honce] at h
          cases h
        · left
          rw [Nat.add_assoc, Nat.add_comm 1 n]
          simpa [honce] using hstops

theorem Stops.of_not {b : Boot} {a : Arguments} {n : ℕ} (h : ¬ Stops b a n) :
  b.closing n = false ∧ (a.once = true → n = 0)
  := by
  rw [Stops, not_or, Bool.not_eq_true, not_and, Nat.not_lt] at h
  exact ⟨h.1, fun honce => Nat.le_zero.mp (h.2 honce)⟩

/-- The loop over the feeds ends exactly if a signal arrives or only one pass is wanted, and
then it has made as many whole passes as turns had begun.  The loop over a file makes at most
one. -/
theorem loop_ends_iff (b : Boot) (a : Arguments) (w w' : World) :
  LoopEnds b a w w'
    ↔ (a.xmlfile.filter (· ≠ []) = none ∧ ∃ n, Stops b a n ∧ (∀ k < n, ¬ Stops b a k)
        ∧ w' = mainLoop b.env n true w)
      ∨ ∃ xmlfile ∈ a.xmlfile.filter (· ≠ []), w' = if b.closing 0 then w
        else processFile b.env w ((readFile (w.disk xmlfile)).map (·.bytes))
  := by
  cases hxml : a.xmlfile.filter (· ≠ []) with
  | some xmlfile =>
    have hends : LoopEnds b a w (if b.closing 0 then w
        else processFile b.env w ((readFile (w.disk xmlfile)).map (·.bytes))) := by
      apply While.Ends.done
      rw [mainTurn, hxml]
      cases b.closing 0 with
      | true => rfl
      | false => rfl
    simp only [reduceCtorEq, false_and, false_or, Option.mem_some_iff, exists_eq_left']
    constructor
    · intro h
      apply While.Ends.unique h hends
    · rintro rfl
      apply hends
  | none =>
    have hends (n : ℕ) (hstops : Stops b a n) (hfirst : ∀ k < n, ¬ Stops b a k) :
        LoopEnds b a w (mainLoop b.env n true w) := by
      apply ends_of_passes hxml ⟨0, true, w⟩
      · intro k hk
        rw [Nat.zero_add]
        apply Stops.of_not (hfirst k hk)
      · rw [Nat.zero_add]
        apply hstops
    simp only [true_and, Option.not_mem_none, false_and, exists_false, or_false]
    constructor
    · intro h
      by_cases hsome : ∃ n, Stops b a n
      · classical
        refine ⟨Nat.find hsome, Nat.find_spec hsome, fun k hk => Nat.find_min hsome hk, ?_⟩
        apply While.Ends.unique h
        apply hends _ (Nat.find_spec hsome) fun k hk => Nat.find_min hsome hk
      · -- without a stop every turn is followed by another one
        rw [not_exists] at hsome
        have honce : a.once = false := by
          rw [← Bool.not_eq_true]
          intro honce
          apply Nat.one_ne_zero ((Stops.of_not (hsome 1)).2 honce)
        obtain ⟨s, -, hdone⟩ := While.Ends.invariant h (I := fun _ => True) trivial
          fun _ _ _ _ => trivial
        rw [mainTurn, (Stops.of_not (hsome s.turns)).1, hxml, honce] at hdone
        cases hdone
    · rintro ⟨n, hstops, hfirst, rfl⟩
      apply hends n hstops hfirst

/-- What the loop leaves is the end of a run. -/
theorem LoopEnds.run {b : Boot} {a : Arguments} {w w' : World} (h : LoopEnds b a w w') :
  Run b.env w w'
  := by
  rcases (loop_ends_iff b a w w').mp h with ⟨-, n, -, -, rfl⟩ | ⟨xmlfile, -, rfl⟩
  · apply run_mainLoop
  · split_ifs
    · apply Relation.ReflTransGen.refl
    · apply run_processFile

/-! ### What the program is ready with -/

/-- The world in which the loop begins. -/
structure Ready (b : Boot) (a : Arguments) (w : World) : Prop where
  proper : w.session.Proper
  feeds : w.session.feeds ≠ []
  filters : w.session.filters ≠ []
  downloads : w.session.downloads = (loadState (b.disk w.session.statefile.bytes) []).2
  maxBucketItems : w.session.maxBucketItems = AM_DEFAULT_MAXBUCKET
  bucketChanged : w.session.bucketChanged = false
  matchOnly : w.session.matchOnly = a.matchOnly
  prowlKeyValid : w.session.prowlKeyValid = true
    ↔ w.session.prowlKey ≠ none ∧ ¬ Vanishes b.request w.session.prowlKey
  disk : w.disk = b.disk
  trace : w.trace = []

/-- A session as it has been configured, before the key is checked and the history loaded. -/
structure Session.Configured (a : Arguments) (s : Session) : Prop where
  proper : s.Proper
  maxBucketItems : s.maxBucketItems = AM_DEFAULT_MAXBUCKET
  bucketChanged : s.bucketChanged = false
  prowlKeyValid : s.prowlKeyValid = false
  matchOnly : s.matchOnly = a.matchOnly

theorem sessionInit_configured {tempFolder : Str} {home : Option Str} {s : Session}
    (h : sessionInit tempFolder home = some s) (a : Arguments) :
  { s with matchOnly := a.matchOnly }.Configured a
  := by
  simp only [sessionInit] at h
  split_ifs at h with hroom
  obtain ⟨statefile, hstatefile, rfl⟩ := Option.map_eq_some_iff.mp h
  refine ⟨⟨?_, trivial, ?_, ?_⟩, rfl, rfl, rfl, rfl⟩
  · apply List.forall_mem_nil
  · apply List.forall_mem_nil
  · apply Nat.lt_of_le_of_lt (length_amStrdup_le hstatefile) hroom

/-- What `startup` does, if it gives a value. -/
theorem startup_cases {b : Boot} {a : Arguments} {r : Startup} (h : startup b a = some r) :
  ∃ s : Session, s.Configured a
    ∧ (r = .stopped (.start s b.disk) ∨ s.feeds ≠ [] ∧ s.filters ≠ []
      ∧ r = .ready (started b.request s (b.disk s.statefile.bytes) b.disk))
  := by
  simp only [startup, Option.bind_eq_bind, Option.bind_eq_some_iff] at h
  obtain ⟨file, -, s, hs, parsed, hparsed, s', hstate, hresult⟩ := h
  have hinit := sessionInit_configured hs a
  obtain ⟨hproper, hsame, -⟩ := configured_proper hinit.proper hparsed hstate
  have hconfigured : s'.Configured a := ⟨hproper, hsame.maxBucketItems.trans hinit.maxBucketItems,
    hsame.bucketChanged.trans hinit.bucketChanged, hsame.prowlKeyValid.trans hinit.prowlKeyValid,
    hsame.matchOnly.trans hinit.matchOnly⟩
  refine ⟨s', hconfigured, ?_⟩
  split_ifs at hresult with hstops
  · left
    apply (Option.some.inj hresult).symm
  · right
    simp only [not_or, listCount, List.length_eq_zero_iff] at hstops
    exact ⟨hstops.2.2.1, hstops.2.2.2, (Option.some.inj hresult).symm⟩

/-- Checking the key changes nothing but the flag. -/
theorem checkKey_cases (r : RequestAnswers) (s : Session) :
  checkKey r s = { s with prowlKeyValid := true } ∨ checkKey r s = s
  := by
  rw [checkKey]
  split_ifs
  · left
    rfl
  · right
    rfl

/-- Whatever the configuration and the state file hold, a loop that begins has at least one
feed and one filter, the feeds with URLs and numbers and the filters with patterns; the
history is that of the state file, nothing in it needs saving, and notifications are sent
unless there is no key or the answer about it has a status that vanishes. -/
theorem startup_ready {b : Boot} {a : Arguments} {w : World} (h : startup b a = some (.ready w)) :
  Ready b a w
  := by
  obtain ⟨s, hs, hstopped | ⟨hfeeds, hfilters, hready⟩⟩ := startup_cases h
  · cases hstopped
  · obtain rfl := Startup.ready.inj hready
    have hvalid := checkKey_valid_iff b.request hs.prowlKeyValid
    rw [started]
    rcases checkKey_cases b.request s with hcheck | hcheck
    · rw [hcheck] at hvalid ⊢
      exact ⟨⟨hs.proper.urls, hs.proper.numbered, hs.proper.patterns, hs.proper.statefile⟩, hfeeds,
        hfilters, rfl, hs.maxBucketItems, hs.bucketChanged, hs.matchOnly, hvalid, rfl, rfl⟩
    · rw [hcheck] at hvalid ⊢
      exact ⟨⟨hs.proper.urls, hs.proper.numbered, hs.proper.patterns, hs.proper.statefile⟩, hfeeds,
        hfilters, rfl, hs.maxBucketItems, hs.bucketChanged, hs.matchOnly, hvalid, rfl, rfl⟩

/-- A configuration with one feed and one pattern. -/
def plainConfig : Bytes :=
  text "url = \"http://a.example/rss\"\npatterns = \"m\"\nstatefile = \"/s.a\"\n"

/-- A machine with that configuration and without a state file.  The feed has an item with
`longUrl`, and `save` are the answers to saving after a download. -/
def plainBoot (save : SaveAnswers) : Boot where
  home := none
  tempFolder := (Session.plain [] []).downloadFolder
  disk p := if p = AM_DEFAULT_CONFIGFILE then some plainConfig else none
  beyond := text "x"
  daemonize := 0
  request := ⟨false, fun _ => none⟩
  env := .plain [longUrl] fun _ => { Visit.plain 200 with save := save }
  closing _ := false
  save := .granting

def plainArguments : Arguments :=
  { Arguments.initial with nofork := true, once := true }

/-- The session that is configured so. -/
def plainConfigured : Session :=
  { Session.plain [plainFeed] [] with statefile := ⟨text "/s.a", by decide, by decide⟩ }

theorem startup_plain (save : SaveAnswers) :
  startup (plainBoot save) plainArguments
    = some (.ready (.start plainConfigured (plainBoot save).disk))
  := rfl

theorem startup_ready_plain :
  Ready (plainBoot .granting) plainArguments (.start plainConfigured (plainBoot .granting).disk)
  := startup_ready (startup_plain .granting)

/-! ### What the program leaves -/

/-- The program stops before its loop with nothing done, or it is at the end of a run. -/
theorem Main.run {b : Boot} {options : List CommandOption} {w : World} (h : Main b options w) :
  ∃ s : Session, s.bucketChanged = false
    ∧ (w = .start s b.disk ∨ ∃ w', Run b.env (.start (s.loaded (b.disk s.statefile.bytes)) b.disk) w'
      ∧ w = shutdownDaemon b.save w')
  := by
  cases h with
  | stopped a w hargs hstartup =>
    obtain ⟨s, hs, hstopped | ⟨-, -, hready⟩⟩ := startup_cases hstartup
    · obtain rfl := Startup.stopped.inj hstopped
      refine ⟨s, hs.bucketChanged, Or.inl ?_⟩
      apply shutdownDaemon_of_unchanged hs.bucketChanged
    · cases hready
  | ended a w w' hargs hstartup hends =>
    obtain ⟨s, hs, hstopped | ⟨-, -, hready⟩⟩ := startup_cases hstartup
    · cases hstopped
    · obtain rfl := Startup.ready.inj hready
      refine ⟨checkKey b.request s, ?_, Or.inr ⟨w', ?_, rfl⟩⟩
      · rcases checkKey_cases b.request s with hcheck | hcheck
        · rw [hcheck]
          apply hs.bucketChanged
        · rw [hcheck]
          apply hs.bucketChanged
      · have hstatefile : (checkKey b.request s).statefile = s.statefile := by
          rcases checkKey_cases b.request s with hcheck | hcheck
          · rw [hcheck]
          · rw [hcheck]
        rw [hstatefile]
        apply hends.run

/-- If nobody else writes to the state file and no saving is refused, the program leaves in it
the newest entries of what it has completed, behind which what it had loaded comes: without
duplicates, and all of it or as much as one of the capacities it had. -/
theorem main_remembers {b : Boot} {options : List CommandOption} {w : World}
    (h : Main b options w) (hsave : b.save = .granting) (hapart : w.session.Apart)
    (hsaves : b.env.Saves w.session.statefile)
    (hnodup : (loadState (b.disk w.session.statefile.bytes) []).2.Nodup)
    (hloadable : ∀ url ∈ successes w.trace, Loadable url) :
  Remembers (loadState (b.disk w.session.statefile.bytes) []).2 (Past.after ⟨[], []⟩ w)
    (loadState (w.disk w.session.statefile.bytes) []).2
  := by
  obtain ⟨s, hchanged, rfl | ⟨w', hrun, rfl⟩⟩ := h.run
  · exact ⟨List.prefix_refl _, hnodup, Or.inl (Nat.le_refl _)⟩
  · simp only [shutdownDaemon_session, shutdownDaemon_trace] at *
    have hfile : w'.session.statefile = s.statefile := hrun.alike.statefile
    rw [hfile] at hsaves hnodup ⊢
    have hstart : Living s.statefile (loadState (b.disk s.statefile.bytes) []).2 b.env
        (.start (s.loaded (b.disk s.statefile.bytes)) b.disk) := by
      apply Living.start b.disk rfl hchanged _ hsaves hnodup
      rw [Session.Apart, hrun.alike.statefile, hrun.alike.downloadFolder] at hapart
      apply hapart
    have hliving := hstart.run hrun
    have hremembers : Remembers (loadState (b.disk s.statefile.bytes) []).2 ⟨[], []⟩
        (loadState (b.disk s.statefile.bytes) []).2 :=
      ⟨List.prefix_refl _, hnodup, Or.inl (Nat.le_refl _)⟩
    rw [hsave, hliving.shutdown]
    have hpast : Past.after ⟨[], []⟩ (shutdownDaemon .granting w') = Past.after ⟨[], []⟩ w' := by
      rw [Past.after, Past.after, shutdownDaemon_trace]
    rw [hpast]
    apply hliving.off hremembers
    intro url hurl
    rw [Past.after, List.append_nil] at hurl
    apply hloadable url hurl

/-- The world that the plain program leaves. -/
def plainEnd (save : SaveAnswers) : World :=
  shutdownDaemon .granting
    (mainLoop (plainBoot save).env 1 true (.start plainConfigured (plainBoot save).disk))

/-- Only one pass is wanted, and no signal arrives. -/
theorem stops_once_iff {b : Boot} {a : Arguments} (hclosing : ∀ k, b.closing k = false)
    (honce : a.once = true) (k : ℕ) :
  Stops b a k ↔ 0 < k
  := by
  rw [Stops, hclosing, honce]
  simp

theorem main_once {b : Boot} {options : List CommandOption} {a : Arguments} {w : World}
    (hargs : readargs options = some a) (hclosing : ∀ k, b.closing k = false)
    (honce : a.once = true) (hxml : a.xmlfile = none)
    (hready : startup b a = some (.ready w)) :
  Main b options (shutdownDaemon b.save (mainLoop b.env 1 true w))
  := by
  apply Main.ended a _ _ hargs hready
  rw [loop_ends_iff, hxml]
  have hiff := stops_once_iff hclosing honce
  refine Or.inl ⟨rfl, 1, (hiff 1).mpr Nat.one_pos, ?_, rfl⟩
  intro k hk hstops
  have hpos := (hiff k).mp hstops
  omega

theorem main_plain (save : SaveAnswers) :
  Main (plainBoot save) [.nodaemon, .once] (plainEnd save)
  := main_once rfl (fun _ => rfl) rfl rfl (startup_plain save)

theorem main_remembers_plain :
  successes (plainEnd .granting).trace = [longUrl]
    ∧ Remembers [] (Past.after ⟨[], []⟩ (plainEnd .granting))
      (loadState ((plainEnd .granting).disk (text "/s.a")) []).2
  := by
  refine ⟨by decide, ?_⟩
  apply main_remembers (main_plain .granting) rfl
  · apply apart_plain
    · rfl
    · decide
  · exact ⟨fun _ => rfl, fun _ _ => rfl⟩
  · apply List.nodup_nil
  · decide

/-- What holds of the history in a run, whatever becomes of the state file. -/
structure Accounted (start : List Str) (w : World) : Prop where
  subset : w.session.downloads ⊆ successes w.trace ++ start
  changed : w.session.bucketChanged = true ↔ successes w.trace ≠ []

theorem Accounted.step {env : Env} {start : List Str} {w w' : World} (h : Accounted start w)
    (hstep : Step env w w') :
  Accounted start w'
  := by
  cases hstep with
  | between => exact ⟨h.subset, h.changed⟩
  | visit item url =>
    rcases (processURL_visited env w item url).history with
      ⟨hsession, hsuccesses, -⟩ | ⟨-, hsession, hsuccesses, -⟩
    · constructor
      · rw [hsession, hsuccesses]
        apply h.subset
      · rw [hsession, hsuccesses]
        apply h.changed
    · constructor
      · rw [hsession, hsuccesses]
        intro other hother
        rcases mem_of_mem_addToBucket hother with rfl | hold
        · apply List.mem_cons_self
        · apply List.mem_cons_of_mem url (h.subset hold)
      · simp [hsession, hsuccesses]

theorem Accounted.run {env : Env} {start : List Str} {w w' : World} (h : Accounted start w)
    (hrun : Run env w w') :
  Accounted start w'
  := by
  induction hrun with
  | refl => apply h
  | tail _ hstep ih => apply ih.step hstep

/-- Whatever savings were refused before, and whatever others made of the state file: when a
program that completed a download ends and its last saving is not refused, the next one loads
exactly its history. -/
theorem main_saves {b : Boot} {options : List CommandOption} {w : World}
    (h : Main b options w) (hsave : b.save = .granting) (hnew : successes w.trace ≠ [])
    (hloadable : ∀ url ∈ successes w.trace, Loadable url) :
  loadState (w.disk w.session.statefile.bytes) [] = (0, w.session.downloads)
  := by
  obtain ⟨s, hchanged, rfl | ⟨w', hrun, rfl⟩⟩ := h.run
  · exact absurd rfl hnew
  · rw [shutdownDaemon_trace] at hnew hloadable
    have haccounted : Accounted (loadState (b.disk s.statefile.bytes) []).2 w' := by
      apply Accounted.run _ hrun
      constructor
      · apply List.Subset.refl
      · simp [World.start, Session.loaded, hchanged, successes]
    have hsaved : (shutdownDaemon .granting w').disk w'.session.statefile.bytes
        = some (stateFile w'.session.downloads) := by
      rw [shutdownDaemon, if_pos (haccounted.changed.mpr hnew)]
      simp only [Function.update_self]
      apply (runSteps_saveState _ _).2
    rw [shutdownDaemon_session, hsave, hsaved]
    apply loadState_stateFile
    intro url hurl
    rcases List.mem_append.mp (haccounted.subset hurl) with hurl | hurl
    · apply hloadable url hurl
    · apply loadable_of_mem_loaded url hurl

/-- Saving after the download is refused. -/
theorem main_saves_plain :
  loadState ((plainEnd ⟨false, fun _ => false⟩).disk (text "/s.a")) [] = (0, [longUrl])
  := by
  apply main_saves (main_plain ⟨false, fun _ => false⟩) rfl
  · decide
  · decide

end Trailermatic
