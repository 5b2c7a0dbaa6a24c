import Trailermatic.Runs
import Mathlib.Data.List.Dedup
import Mathlib.Data.List.Infix

/-!
# Feeds that do not change

When every feed lists the same items in every pass, the main loop makes a list of moves
that is known beforehand.  The history has room for every URL it records exactly when
the feeds up to any feed list no more different URLs than the capacity allows for the
items they list.
-/

namespace Trailermatic

/-- The number of item nodes and the items of each feed. -/
abbrev Listing :=
  RssFeed → ℕ × List FeedItem

/-- Every request for a feed succeeds and gives what is listed. -/
def Env.Lists (env : Env) (listing : Listing) (feeds : List RssFeed) : Prop :=
  ∀ t, ∀ feed ∈ feeds, ∃ data, env.fetch t feed = some ⟨200, some data⟩
    ∧ parseXmldata env.libxml data = listing feed

/-- The URLs that the feeds list, in their order. -/
def listedURLs (listing : Listing) (feeds : List RssFeed) : List Str :=
  feeds.flatMap fun feed => (listing feed).2.flatMap (·.urls)

/-- The number of items that feeds list. -/
def listedCount (listing : Listing) : List RssFeed → ℕ
  | [] => 0
  | feed :: feeds => (listing feed).1 + listedCount listing feeds

/-- The capacity of the history when the last of some feeds is processed for the first
time. -/
def capacityFor (listing : Listing) (feeds : List RssFeed) : ℕ :=
  AM_DEFAULT_MAXBUCKET.toNat + listedCount listing feeds

/-- The URLs for which a session asks for a download. -/
def Session.wanted (s : Session) (pcre : Pcre) (urls : List Str) : List Str :=
  if s.matchOnly then []
  else urls.filter fun url => (isMatch pcre s.filters url.bytes).isSome

/-- The feeds up to any feed list no more different URLs that are wanted than the capacity
of the history is when that feed is processed for the first time. -/
def Session.Fits (s : Session) (pcre : Pcre) (listing : Listing) : Prop :=
  ∀ feeds ∈ s.feeds.inits, (s.wanted pcre (listedURLs listing feeds)).dedup.length
    ≤ capacityFor listing feeds

instance (s : Session) (pcre : Pcre) (listing : Listing) : Decidable (s.Fits pcre listing) :=
  inferInstanceAs (Decidable (∀ feeds ∈ s.feeds.inits, _))

theorem listedURLs_append (listing : Listing) (feeds feeds' : List RssFeed) :
  listedURLs listing (feeds ++ feeds') = listedURLs listing feeds ++ listedURLs listing feeds'
  := List.flatMap_append

theorem listedCount_append (listing : Listing) (feeds feeds' : List RssFeed) :
  listedCount listing (feeds ++ feeds') = listedCount listing feeds + listedCount listing feeds'
  := by
  induction feeds with
  | nil => simp [listedCount]
  | cons feed feeds ih => rw [List.cons_append, listedCount, ih, listedCount, Nat.add_assoc]

theorem capacityFor_append (listing : Listing) (feeds feeds' : List RssFeed) :
  capacityFor listing (feeds ++ feeds') = capacityFor listing feeds + listedCount listing feeds'
  := by
  rw [capacityFor, capacityFor, listedCount_append, Nat.add_assoc]

theorem capacityFor_singleton (listing : Listing) (feeds : List RssFeed) (feed : RssFeed) :
  capacityFor listing (feeds ++ [feed]) = capacityFor listing feeds + (listing feed).1
  := by
  simp [capacityFor_append, listedCount]

theorem capacityFor_le_of_initial (listing : Listing) {feeds feeds' : List RssFeed}
    (h : feeds <+: feeds') :
  capacityFor listing feeds ≤ capacityFor listing feeds'
  := by
  obtain ⟨rest, rfl⟩ := h
  rw [capacityFor_append]
  apply Nat.le_add_right

theorem Session.wanted_append (s : Session) (pcre : Pcre) (urls urls' : List Str) :
  s.wanted pcre (urls ++ urls') = s.wanted pcre urls ++ s.wanted pcre urls'
  := by
  rw [wanted, wanted, wanted]
  split_ifs
  · rfl
  · apply List.filter_append

theorem Session.mem_wanted {s : Session} {pcre : Pcre} {urls : List Str} {url : Str} :
  url ∈ s.wanted pcre urls
    ↔ s.matchOnly = false ∧ url ∈ urls ∧ (isMatch pcre s.filters url.bytes).isSome = true
  := by
  rw [wanted]
  split_ifs with h
  · simp [h]
  · simp [h]

/-! ### Moves -/

/-- A move of the main loop: it requests a feed and makes room for some items, or it
visits a URL. -/
inductive Move where
  | request (itemCount : ℕ)
  | visit (item : FeedItem) (url : Str)

/-- What a move does to the world. -/
def Move.apply (env : Env) (w : World) : Move → World
  | .request itemCount => growBucket { w with fetches := w.fetches + 1 } itemCount
  | .visit item url => processURL env w item url

/-- The moves one after the other. -/
def Move.run (env : Env) (moves : List Move) (w : World) : World :=
  moves.foldl (Move.apply env) w

/-- A visit for each URL of the items. -/
def itemMoves (items : List FeedItem) : List Move :=
  items.flatMap fun item => item.urls.map (Move.visit item)

/-- A request, which makes room only in the first pass, and the visits of what it lists. -/
def feedMoves (listing : Listing) (firstrun : Bool) (feed : RssFeed) : List Move :=
  .request (if firstrun then (listing feed).1 else 0) :: itemMoves (listing feed).2

/-- The moves of a pass over the feeds. -/
def passMoves (listing : Listing) (firstrun : Bool) (feeds : List RssFeed) : List Move :=
  feeds.flatMap (feedMoves listing firstrun)

/-- The moves of the main loop. -/
def loopMoves (listing : Listing) (feeds : List RssFeed) : ℕ → Bool → List Move
  | 0, _ => []
  | passes + 1, firstRun =>
    passMoves listing firstRun feeds ++ loopMoves listing feeds passes false

theorem Move.run_append (env : Env) (moves moves' : List Move) (w : World) :
  run env (moves ++ moves') w = run env moves' (run env moves w)
  := List.foldl_append

theorem processURLs_eq_run (env : Env) (item : FeedItem) (urls : List Str) (w : World) :
  processURLs env item urls w = Move.run env (urls.map (Move.visit item)) w
  := by
  induction urls generalizing w with
  | nil => rfl
  | cons url urls ih => apply ih

theorem processRSSList_eq_run (env : Env) (items : List FeedItem) (w : World) :
  processRSSList env items w = Move.run env (itemMoves items) w
  := by
  induction items generalizing w with
  | nil => rfl
  | cons item items ih =>
    rw [processRSSList, ih, processURLs_eq_run, ← Move.run_append]
    rfl

theorem processFeed_eq_run {env : Env} {listing : Listing} {feeds : List RssFeed}
    (h : env.Lists listing feeds) {feed : RssFeed} (hfeed : feed ∈ feeds) (firstrun : Bool)
    (w : World) :
  processFeed env w feed firstrun = Move.run env (feedMoves listing firstrun feed) w
  := by
  obtain ⟨data, hfetch, hparse⟩ := h w.fetches feed hfeed
  simp only [processFeed, hfetch, if_true, hparse, processRSSList_eq_run]
  cases firstrun with
  | true => rfl
  | false =>
    have hgrow (w : World) : growBucket w 0 = w := by simp [growBucket]
    simp only [Bool.false_eq_true, if_false, feedMoves, Move.run, List.foldl_cons, Move.apply,
      hgrow]

theorem checkFeeds_eq_run {env : Env} {listing : Listing} {feeds : List RssFeed}
    (h : env.Lists listing feeds) (firstrun : Bool) (w : World) :
  checkFeeds env firstrun feeds w = Move.run env (passMoves listing firstrun feeds) w
  := by
  induction feeds generalizing w with
  | nil => rfl
  | cons feed feeds ih =>
    have htail : env.Lists listing feeds := fun t feed hfeed =>
      h t feed (List.mem_cons_of_mem _ hfeed)
    rw [checkFeeds, processFeed_eq_run h List.mem_cons_self, ih htail, ← Move.run_append]
    rfl

/-- With feeds that do not change, the moves of the main loop are known. -/
theorem mainLoop_eq_run {env : Env} {listing : Listing} {w : World}
    (h : env.Lists listing w.session.feeds) (passes : ℕ) (firstRun : Bool) :
  mainLoop env passes firstRun w
    = Move.run env (loopMoves listing w.session.feeds passes firstRun) w
  := by
  induction passes generalizing w firstRun with
  | zero => rfl
  | succ passes ih =>
    have hfeeds : (checkFeeds env firstRun w.session.feeds w).session.feeds = w.session.feeds :=
      (Run.alike (run_checkFeeds env firstRun w.session.feeds w)).feeds
    have hlists : env.Lists listing
        (checkFeeds env firstRun w.session.feeds w).session.feeds := by
      rw [hfeeds]
      apply h
    rw [mainLoop, ih hlists, hfeeds, checkFeeds_eq_run h, ← Move.run_append]
    rfl

/-- After the first pass a move requests a feed or visits a URL that is listed. -/
theorem mem_loopMoves {listing : Listing} {feeds : List RssFeed} {passes : ℕ} {move : Move}
    (h : move ∈ loopMoves listing feeds passes false) :
  move = .request 0 ∨ ∃ item url, move = .visit item url ∧ url ∈ listedURLs listing feeds
  := by
  induction passes with
  | zero => cases h
  | succ passes ih =>
    rcases List.mem_append.mp h with h | h
    · obtain ⟨feed, hfeed, h⟩ := List.mem_flatMap.mp h
      rcases List.mem_cons.mp h with h | h
      · left
        apply h
      · right
        obtain ⟨item, hitem, h⟩ := List.mem_flatMap.mp h
        obtain ⟨url, hurl, rfl⟩ := List.mem_map.mp h
        use item, url, rfl
        apply List.mem_flatMap.mpr ⟨feed, hfeed, _⟩
        apply List.mem_flatMap.mpr ⟨item, hitem, hurl⟩
    · apply ih h

/-- A URL that is listed is visited in every pass. -/
theorem exists_visit_mem_passMoves {listing : Listing} {feeds : List RssFeed} {url : Str}
    (h : url ∈ listedURLs listing feeds) (firstrun : Bool) :
  ∃ item, Move.visit item url ∈ passMoves listing firstrun feeds
  := by
  obtain ⟨feed, hfeed, hurl⟩ := List.mem_flatMap.mp h
  obtain ⟨item, hitem, hurl⟩ := List.mem_flatMap.mp hurl
  use item
  apply List.mem_flatMap.mpr ⟨feed, hfeed, _⟩
  apply List.mem_cons_of_mem
  apply List.mem_flatMap.mpr ⟨item, hitem, _⟩
  apply List.mem_map.mpr ⟨url, hurl, rfl⟩

/-- What each feed of the first pass keeps, for the feeds up to it, the pass keeps. -/
theorem run_passMoves_induction {env : Env} {listing : Listing} {I : List RssFeed → World → Prop}
    {feeds : List RssFeed}
    (hfeed : ∀ feeds' feed w, feeds' ++ [feed] <+: feeds → I feeds' w →
      I (feeds' ++ [feed]) (Move.run env (feedMoves listing true feed) w))
    {w : World} (h : I [] w) :
  I feeds (Move.run env (passMoves listing true feeds) w)
  := by
  induction feeds using List.reverseRecOn with
  | nil => apply h
  | append_singleton feeds feed ih =>
    have hmoves : passMoves listing true (feeds ++ [feed])
        = passMoves listing true feeds ++ feedMoves listing true feed := by simp [passMoves]
    rw [hmoves, Move.run_append]
    apply hfeed feeds feed _ (List.prefix_refl _)
    apply ih
    intro feeds' feed' w hinit
    apply hfeed feeds' feed' w (hinit.trans (List.prefix_append _ _))

/-- What a move brings about and every move keeps is so after moves that include it. -/
theorem Move.run_of_mem {env : Env} {I P : World → Prop} {move : Move}
    (hI : ∀ w m, I w → I (Move.apply env w m)) (hP : ∀ w m, P w → P (Move.apply env w m))
    (hmove : ∀ w, I w → P (move.apply env w)) {moves : List Move} (hmem : move ∈ moves)
    {w : World} (hw : I w) :
  P (Move.run env moves w)
  := by
  obtain ⟨before, after, rfl⟩ := List.append_of_mem hmem
  rw [Move.run_append]
  apply List.foldlRecOn after (Move.apply env)
  · apply hmove
    apply List.foldlRecOn before (Move.apply env) hw
    intro w hw m _
    apply hI w m hw
  · intro w hw m _
    apply hP w m hw

/-! ### The capacity -/

/-- The session asks for what `s` asks for, and saves it where `s` saves it. -/
structure Configured (s : Session) (w : World) : Prop where
  filters : w.session.filters = s.filters
  matchOnly : w.session.matchOnly = s.matchOnly
  downloadFolder : w.session.downloadFolder = s.downloadFolder

theorem Configured.apply {s : Session} {env : Env} (w : World) (move : Move)
    (h : Configured s w) :
  Configured s (move.apply env w)
  := by
  cases move with
  | request => exact ⟨h.filters, h.matchOnly, h.downloadFolder⟩
  | visit item url =>
    obtain ⟨halike, hfilters, _⟩ := (processURL_visited env w item url).alike
    exact ⟨hfilters.trans h.filters, halike.matchOnly.trans h.matchOnly,
      halike.downloadFolder.trans h.downloadFolder⟩

/-- The session is configured as `s`, and its capacity is `cap`. -/
structure Setting (s : Session) (cap : ℕ) (w : World) : Prop extends Configured s w where
  capacity : w.session.maxBucketItems.toNat = cap

theorem Setting.visit {s : Session} {cap : ℕ} {w : World} (h : Setting s cap w) (env : Env)
    (item : FeedItem) (url : Str) :
  Setting s cap (processURL env w item url)
  := by
  refine ⟨h.toConfigured.apply w (.visit item url), ?_⟩
  rw [(processURL_visited env w item url).alike.2.2]
  apply h.capacity

theorem Setting.request {s : Session} {cap : ℕ} {w : World} (h : Setting s cap w) (env : Env)
    {itemCount : ℕ} (hcount : cap + itemCount < 65536) :
  Setting s (cap + itemCount) (Move.apply env w (.request itemCount))
  := by
  refine ⟨h.toConfigured.apply w (.request itemCount), ?_⟩
  simp only [Move.apply, growBucket, UInt16.toNat_add, UInt16.toNat_ofNat', h.capacity]
  omega

theorem Attempts.wanted {env : Env} {w : World} {s : Session} {cap : ℕ} {url : Str}
    (h : Attempts env w url) (hsetting : Setting s cap w) {urls : List Str} (hurl : url ∈ urls) :
  url ∈ s.wanted env.pcre urls
  := by
  apply Session.mem_wanted.mpr
  refine ⟨hsetting.matchOnly ▸ h.matchOnly, hurl, ?_⟩
  rw [← hsetting.filters]
  apply h.matched

/-! ### With room enough -/

/-- The history holds all completed downloads, and they are among `urls`. -/
structure Complete (s : Session) (cap : ℕ) (urls : List Str) (w : World) : Prop
    extends Setting s cap w where
  kept : w.session.downloads = successes w.trace
  nodup : (successes w.trace).Nodup
  among : successes w.trace ⊆ urls

/-- A visit of a URL that belongs to `urls` when it is wanted keeps the history complete,
if the capacity is large enough. -/
theorem Complete.visit {env : Env} {s : Session} {cap : ℕ} {urls : List Str} {w : World}
    (h : Complete s cap urls w) (hroom : urls.dedup.length ≤ cap) (item : FeedItem) {url : Str}
    (hurl : Attempts env w url → url ∈ urls) :
  Complete s cap urls (processURL env w item url)
  := by
  have hsetting := h.toSetting.visit env item url
  rcases (processURL_visited env w item url).history with
    ⟨hsession, hsuccesses, _⟩ | ⟨hattempts, hsession, hsuccesses, _⟩
  · refine ⟨hsetting, ?_, ?_, ?_⟩
    · rw [hsession, hsuccesses, h.kept]
    · rw [hsuccesses]
      apply h.nodup
    · rw [hsuccesses]
      apply h.among
  · have hnodup : (url :: successes w.trace).Nodup := by
      apply List.nodup_cons.mpr ⟨_, h.nodup⟩
      rw [← h.kept]
      apply hattempts.fresh
    have hamong : url :: successes w.trace ⊆ urls :=
      List.cons_subset.mpr ⟨hurl hattempts, h.among⟩
    have hlength : (url :: successes w.trace).length ≤ urls.dedup.length :=
      hnodup.length_le_of_subset fun _ hmem => List.mem_dedup.mpr (hamong hmem)
    have hpush : addToBucket url w.session.downloads cap = url :: w.session.downloads := by
      apply Eq.trans (addToBucket_eq_push (Window.all w.session.downloads) url cap)
      apply Window.kept_push_of_lt
      right
      rw [List.length_cons, ← h.kept] at hlength
      apply Nat.lt_of_lt_of_le hlength hroom
    refine ⟨hsetting, ?_, ?_, ?_⟩
    · rw [hsession, hsuccesses, h.capacity, hpush, h.kept]
    · rw [hsuccesses]
      apply hnodup
    · rw [hsuccesses]
      apply hamong

theorem Complete.run_itemMoves {env : Env} {s : Session} {cap : ℕ} {urls : List Str} {w : World}
    (h : Complete s cap urls w) (hroom : urls.dedup.length ≤ cap) {items : List FeedItem}
    (hurls : s.wanted env.pcre (items.flatMap (·.urls)) ⊆ urls) :
  Complete s cap urls (Move.run env (itemMoves items) w)
  := by
  apply List.foldlRecOn (itemMoves items) (Move.apply env) h
  intro w hw move hmove
  obtain ⟨item, hitem, hmove⟩ := List.mem_flatMap.mp hmove
  obtain ⟨url, hurl, rfl⟩ := List.mem_map.mp hmove
  apply hw.visit hroom
  intro hattempts
  apply hurls (hattempts.wanted hw.toSetting _)
  apply List.mem_flatMap.mpr ⟨item, hitem, hurl⟩

/-- Processing one more feed for the first time keeps the history complete. -/
theorem Complete.run_feedMoves {env : Env} {s : Session} {listing : Listing}
    {feeds : List RssFeed} {feed : RssFeed} {w : World}
    (h : Complete s (capacityFor listing feeds) (s.wanted env.pcre (listedURLs listing feeds)) w)
    (hcount : capacityFor listing (feeds ++ [feed]) < 65536)
    (hroom : (s.wanted env.pcre (listedURLs listing (feeds ++ [feed]))).dedup.length
      ≤ capacityFor listing (feeds ++ [feed])) :
  Complete s (capacityFor listing (feeds ++ [feed]))
    (s.wanted env.pcre (listedURLs listing (feeds ++ [feed])))
    (Move.run env (feedMoves listing true feed) w)
  := by
  have hurls : s.wanted env.pcre (listedURLs listing (feeds ++ [feed]))
      = s.wanted env.pcre (listedURLs listing feeds)
        ++ s.wanted env.pcre ((listing feed).2.flatMap (·.urls)) := by
    rw [listedURLs_append, Session.wanted_append]
    simp [listedURLs]
  apply Complete.run_itemMoves _ hroom
  · rw [hurls]
    apply List.subset_append_right
  · rw [capacityFor_singleton] at hcount ⊢
    refine ⟨h.toSetting.request env hcount, h.kept, h.nodup, ?_⟩
    rw [hurls]
    apply List.subset_append_of_subset_left _ h.among

/-- The passes after the first keep the history complete. -/
theorem Complete.run_loopMoves {env : Env} {s : Session} {listing : Listing} {w : World}
    (h : Complete s (capacityFor listing s.feeds)
      (s.wanted env.pcre (listedURLs listing s.feeds)) w)
    (hcount : capacityFor listing s.feeds < 65536)
    (hroom : (s.wanted env.pcre (listedURLs listing s.feeds)).dedup.length
      ≤ capacityFor listing s.feeds) (passes : ℕ) :
  Complete s (capacityFor listing s.feeds) (s.wanted env.pcre (listedURLs listing s.feeds))
    (Move.run env (loopMoves listing s.feeds passes false) w)
  := by
  apply List.foldlRecOn (loopMoves listing s.feeds passes false) (Move.apply env) h
  intro w hw move hmove
  rcases mem_loopMoves hmove with rfl | ⟨item, url, rfl, hurl⟩
  · have hsetting : Setting s (capacityFor listing s.feeds + 0) (Move.apply env w (.request 0)) :=
      hw.toSetting.request env hcount
    exact ⟨hsetting, hw.kept, hw.nodup, hw.among⟩
  · apply hw.visit hroom
    intro hattempts
    apply hattempts.wanted hw.toSetting hurl

/-- When the listing fits, no URL is downloaded twice. -/
theorem nodup_successes_of_fits {env : Env} {listing : Listing} {w : World}
    (hlists : env.Lists listing w.session.feeds)
    (hcap : capacityFor listing w.session.feeds < 65536)
    (hmax : w.session.maxBucketItems = AM_DEFAULT_MAXBUCKET) (hempty : w.session.downloads = [])
    (htrace : w.trace = []) (hfits : w.session.Fits env.pcre listing) (passes : ℕ) :
  (successes (mainLoop env passes true w).trace).Nodup
  := by
  rw [mainLoop_eq_run hlists]
  have hstart : Complete w.session (capacityFor listing [])
      (w.session.wanted env.pcre (listedURLs listing [])) w := by
    refine ⟨⟨⟨rfl, rfl, rfl⟩, ?_⟩, ?_, ?_, ?_⟩
    · rw [hmax]
      rfl
    · rw [hempty, htrace]
      rfl
    · rw [htrace]
      apply List.nodup_nil
    · rw [htrace]
      apply List.nil_subset
  cases passes with
  | zero => apply hstart.nodup
  | succ passes =>
    rw [loopMoves, Move.run_append]
    have hfirst : Complete w.session (capacityFor listing w.session.feeds)
        (w.session.wanted env.pcre (listedURLs listing w.session.feeds))
        (Move.run env (passMoves listing true w.session.feeds) w) := by
      apply run_passMoves_induction (I := fun feeds => Complete w.session
        (capacityFor listing feeds) (w.session.wanted env.pcre (listedURLs listing feeds))) _ hstart
      intro feeds feed w' hinit h
      apply h.run_feedMoves
      · apply Nat.lt_of_le_of_lt (capacityFor_le_of_initial listing hinit) hcap
      · apply hfits _ ((List.mem_inits _ _).mpr hinit)
    apply Complete.nodup (hfirst.run_loopMoves hcap _ passes)
    apply hfits _ ((List.mem_inits _ _).mpr (List.prefix_refl _))

end Trailermatic
