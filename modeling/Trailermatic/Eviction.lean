import Trailermatic.Listing

/-!
# When the history evicts what is still listed

A listing that does not fit makes the history drop a URL that is still listed.  When the
downloaded files are removed, the next pass downloads that URL a second time.
-/

namespace Trailermatic

/-- The path lies in the download folder. -/
def inFolder (folder path : Bytes) : Bool :=
  ((folder ++ [slash]).take (PATH_MAX - 2)).isPrefixOf path

/-- Others do no more to the files than to remove some from a folder. -/
def Visit.RemovesFrom (folder : Bytes) (v : Visit) : Prop :=
  ∀ disk path, v.others disk path = disk path
    ∨ inFolder folder path = true ∧ v.others disk path = none

theorem inFolder_getFilename (buf : Bytes) (contentFilename : Option Bytes) (url : Bytes)
    (folder : Bytes) :
  inFolder folder (getFilename buf contentFilename url folder).path = true
  := by
  rw [inFolder, List.isPrefixOf_iff_prefix]
  simp only [getFilename]
  have hinit (last : Bytes) : folder ++ [slash] <+: folder ++ slash :: last := by
    rw [List.append_cons folder slash last]
    apply List.prefix_append
  apply (hinit _).take

/-- A visit before which the download folder is emptied, and at which nothing is refused
and the download completes. -/
def Visit.erasing (folder : Bytes) : Visit :=
  { Visit.plain 200 with
    others := fun disk path => if inFolder folder path then none else disk path }

def Env.erasing (env : Env) (s : Session) : Env :=
  { env with visit := fun _ => .erasing s.downloadFolder.bytes }

theorem removesFrom_erasing (folder : Bytes) :
  (Visit.erasing folder).RemovesFrom folder
  := by
  intro disk path
  simp only [Visit.erasing]
  split_ifs with h
  · right
    exact ⟨h, rfl⟩
  · left
    rfl

/-- When the folder is emptied and downloads complete, a wanted URL that is not in the
history is downloaded. -/
theorem successes_erasing {env : Env} {s : Session} {w : World} (hw : Configured s w) {url : Str}
    {urls : List Str} (hurl : url ∈ s.wanted env.pcre urls) (hfresh : url ∉ w.session.downloads)
    (item : FeedItem) :
  successes (processURL (env.erasing s) w item url).trace = url :: successes w.trace
  := by
  obtain ⟨honly, _, hmatch⟩ := Session.mem_wanted.mp hurl
  have hattempts : Attempts (env.erasing s) w url := by
    constructor
    · rw [hw.filters]
      apply hmatch
    · rw [hw.matchOnly, honly]
    · apply hfresh
    · apply if_pos
      rw [← hw.downloadFolder]
      apply inFolder_getFilename
  have hcompleted := completed_visitDownload (env.erasing s) w url rfl
  obtain ⟨_, _, notices, honly, htrace⟩ := processURL_of_completed hattempts hcompleted item
  rw [htrace]
  apply successes_completed hcompleted honly

/-! ### The first pass -/

/-- No more is in the history than its capacity allows, and all of it was downloaded. -/
structure Bounded (s : Session) (cap : ℕ) (w : World) : Prop extends Setting s cap w where
  positive : 0 < cap
  bounded : w.session.downloads.length ≤ cap
  recorded : w.session.downloads ⊆ successes w.trace

theorem recorded_visit {env : Env} {w : World} (h : w.session.downloads ⊆ successes w.trace)
    (item : FeedItem) (url : Str) :
  (processURL env w item url).session.downloads ⊆ successes (processURL env w item url).trace
  := by
  rcases (processURL_visited env w item url).history with
    ⟨hsession, hsuccesses, _⟩ | ⟨_, hsession, hsuccesses, _⟩
  · rw [hsession, hsuccesses]
    apply h
  · rw [hsession, hsuccesses]
    intro entry hentry
    rcases mem_of_mem_addToBucket hentry with rfl | hold
    · apply List.mem_cons_self
    · apply List.mem_cons_of_mem _ (h hold)

theorem Bounded.visit {env : Env} {s : Session} {cap : ℕ} {w : World} (h : Bounded s cap w)
    (item : FeedItem) (url : Str) :
  Bounded s cap (processURL env w item url)
  := by
  refine ⟨h.toSetting.visit env item url, h.positive, ?_, recorded_visit h.recorded item url⟩
  rcases (processURL_visited env w item url).history with
    ⟨hsession, _⟩ | ⟨_, hsession, _⟩
  · rw [hsession]
    apply h.bounded
  · rw [hsession, h.capacity]
    apply Nat.le_trans (Nat.le_of_eq (congrArg List.length
      (addToBucket_eq_push (Window.all w.session.downloads) url cap)))
    apply Window.length_kept_push_le h.positive h.bounded

theorem Bounded.run_feedMoves {env : Env} {s : Session} {listing : Listing}
    {feeds : List RssFeed} {feed : RssFeed} {w : World}
    (h : Bounded s (capacityFor listing feeds) w)
    (hcount : capacityFor listing (feeds ++ [feed]) < 65536) :
  Bounded s (capacityFor listing (feeds ++ [feed])) (Move.run env (feedMoves listing true feed) w)
  := by
  apply List.foldlRecOn (itemMoves (listing feed).2) (Move.apply env)
  · rw [capacityFor_singleton] at hcount ⊢
    refine ⟨h.toSetting.request env hcount, ?_, ?_, h.recorded⟩
    · apply Nat.lt_of_lt_of_le h.positive (Nat.le_add_right _ _)
    · apply Nat.le_trans h.bounded (Nat.le_add_right _ _)
  · intro w hw move hmove
    obtain ⟨item, _, hmove⟩ := List.mem_flatMap.mp hmove
    obtain ⟨url, _, rfl⟩ := List.mem_map.mp hmove
    apply hw.visit

/-! ### A URL that was dropped -/

/-- The URL was downloaded and is not in the history, or some URL was downloaded twice. -/
def Dropped (url : Str) (w : World) : Prop :=
  url ∈ successes w.trace ∧ url ∉ w.session.downloads ∨ ¬ (successes w.trace).Nodup

theorem not_nodup_apply {env : Env} (w : World) (move : Move) (h : ¬ (successes w.trace).Nodup) :
  ¬ (successes (move.apply env w).trace).Nodup
  := by
  cases move with
  | request => apply h
  | visit item url =>
    rcases (processURL_visited env w item url).history with
      ⟨_, hsuccesses, _⟩ | ⟨_, _, hsuccesses, _⟩
    · rw [Move.apply, hsuccesses]
      apply h
    · rw [Move.apply, hsuccesses]
      intro hnodup
      apply h hnodup.of_cons

/-- A URL that was dropped stays so, unless it is downloaded again. -/
theorem Dropped.apply {env : Env} {url : Str} (w : World) (move : Move) (h : Dropped url w) :
  Dropped url (move.apply env w)
  := by
  rcases h with ⟨hdone, hgone⟩ | htwice
  · cases move with
    | request => exact Or.inl ⟨hdone, hgone⟩
    | visit item url' =>
      rcases (processURL_visited env w item url').history with
        ⟨hsession, hsuccesses, _⟩ | ⟨_, hsession, hsuccesses, _⟩
      · left
        rw [Move.apply, hsession, hsuccesses]
        exact ⟨hdone, hgone⟩
      · rcases eq_or_ne url url' with rfl | hne
        · right
          rw [Move.apply, hsuccesses]
          intro hnodup
          apply (List.nodup_cons.mp hnodup).1 hdone
        · left
          rw [Move.apply, hsession, hsuccesses]
          refine ⟨List.mem_cons_of_mem _ hdone, ?_⟩
          intro hmem
          rcases mem_of_mem_addToBucket hmem with heq | hold
          · apply hne heq
          · apply hgone hold
  · right
    apply not_nodup_apply w move htwice

theorem Dropped.visit {env : Env} {s : Session} {w : World} {url : Str} (h : Dropped url w)
    (hw : Configured s w) {urls : List Str} (hurl : url ∈ s.wanted env.pcre urls)
    (item : FeedItem) :
  ¬ (successes (processURL (env.erasing s) w item url).trace).Nodup
  := by
  rcases h with ⟨hdone, hgone⟩ | htwice
  · rw [successes_erasing hw hurl hgone]
    intro hnodup
    apply (List.nodup_cons.mp hnodup).1 hdone
  · apply not_nodup_apply w (.visit item url) htwice

theorem mem_successes_apply {env : Env} {url : Str} (w : World) (move : Move)
    (h : url ∈ successes w.trace) :
  url ∈ successes (move.apply env w).trace
  := by
  cases move with
  | request => apply h
  | visit item url' =>
    rcases (processURL_visited env w item url').history with
      ⟨_, hsuccesses, _⟩ | ⟨_, _, hsuccesses, _⟩
    · rw [Move.apply, hsuccesses]
      apply h
    · rw [Move.apply, hsuccesses]
      apply List.mem_cons_of_mem _ h

/-- When the folder is emptied and downloads complete, a wanted URL that was visited was
downloaded. -/
theorem mem_successes_run {env : Env} {s : Session} {w : World} {url : Str} {urls : List Str}
    {item : FeedItem} (hw : Configured s w) (hrecorded : w.session.downloads ⊆ successes w.trace)
    (hurl : url ∈ s.wanted env.pcre urls) {moves : List Move}
    (hmem : Move.visit item url ∈ moves) :
  url ∈ successes (Move.run (env.erasing s) moves w).trace
  := by
  apply Move.run_of_mem (I := fun w =>
    Configured s w ∧ w.session.downloads ⊆ successes w.trace) _ mem_successes_apply _ hmem
    ⟨hw, hrecorded⟩
  · rintro w move ⟨hw, hrecorded⟩
    refine ⟨hw.apply w move, ?_⟩
    cases move with
    | request => apply hrecorded
    | visit item url => apply recorded_visit hrecorded
  · rintro w ⟨hw, hrecorded⟩
    by_cases hold : url ∈ w.session.downloads
    · apply mem_successes_apply w (.visit item url) (hrecorded hold)
    · rw [Move.apply, successes_erasing hw hurl hold]
      apply List.mem_cons_self

/-- When the different URLs that some feeds list are more than the capacity for them, the
first pass over these feeds drops one of the URLs. -/
theorem exists_dropped {env : Env} {s : Session} {listing : Listing} {feeds : List RssFeed}
    {w : World} (hw : Bounded s (capacityFor listing feeds)
      (Move.run (env.erasing s) (passMoves listing true feeds) w))
    (hstart : Configured s w) (hrecorded : w.session.downloads ⊆ successes w.trace)
    (hlarge : capacityFor listing feeds
      < (s.wanted env.pcre (listedURLs listing feeds)).dedup.length) :
  ∃ url ∈ s.wanted env.pcre (listedURLs listing feeds),
    Dropped url (Move.run (env.erasing s) (passMoves listing true feeds) w)
  := by
  by_contra hnone
  apply Nat.not_le_of_lt hlarge
  apply Nat.le_trans _ hw.bounded
  apply (List.nodup_dedup _).length_le_of_subset
  intro url hurl
  rw [List.mem_dedup] at hurl
  by_contra hgone
  apply hnone
  use url, hurl
  left
  refine ⟨?_, hgone⟩
  obtain ⟨item, hitem⟩ := exists_visit_mem_passMoves (Session.mem_wanted.mp hurl).2.1 true
  apply mem_successes_run hstart hrecorded hurl hitem

/-- A URL that was dropped is downloaded again when a later move visits it. -/
theorem Dropped.run {env : Env} {s : Session} {w : World} {url : Str} (h : Dropped url w)
    (hw : Configured s w) {urls : List Str} (hurl : url ∈ s.wanted env.pcre urls)
    {item : FeedItem} {moves : List Move} (hmem : Move.visit item url ∈ moves) :
  ¬ (successes (Move.run (env.erasing s) moves w).trace).Nodup
  := by
  apply Move.run_of_mem (I := fun w => Configured s w ∧ Dropped url w) _ not_nodup_apply _ hmem
    ⟨hw, h⟩
  · rintro w move ⟨hw, h⟩
    exact ⟨hw.apply w move, h.apply w move⟩
  · rintro w ⟨hw, h⟩
    apply h.visit hw hurl

/-- A listing that does not fit makes the second pass download a URL a second time. -/
theorem not_nodup_erasing {env : Env} {listing : Listing} {s : Session}
    (hlists : env.Lists listing s.feeds) (hcap : capacityFor listing s.feeds < 65536)
    (hmax : s.maxBucketItems = AM_DEFAULT_MAXBUCKET) (hempty : s.downloads = [])
    {feeds rest : List RssFeed} (hfeeds : feeds ++ rest = s.feeds)
    (hlarge : capacityFor listing feeds
      < (s.wanted env.pcre (listedURLs listing feeds)).dedup.length) :
  ¬ (successes (mainLoop (env.erasing s) 2 true (.start s fun _ => none)).trace).Nodup
  := by
  have hlists' : (env.erasing s).Lists listing (World.start s fun _ => none).session.feeds :=
    hlists
  have hstart : Configured s (.start s fun _ => none) := ⟨rfl, rfl, rfl⟩
  have hrecorded : (World.start s fun _ => none).session.downloads
      ⊆ successes (World.start s fun _ => none).trace := by simp [World.start, hempty]
  have hfirst : Bounded s (capacityFor listing feeds)
      (Move.run (env.erasing s) (passMoves listing true feeds) (.start s fun _ => none)) := by
    apply run_passMoves_induction (I := fun feeds => Bounded s (capacityFor listing feeds))
    · intro feeds' feed w hinit hw
      apply hw.run_feedMoves
      apply Nat.lt_of_le_of_lt (capacityFor_le_of_initial listing (hinit.trans _)) hcap
      exact ⟨rest, hfeeds⟩
    · refine ⟨⟨hstart, congrArg UInt16.toNat hmax⟩, ?_, ?_, hrecorded⟩
      · apply Nat.add_pos_left
        decide
      · simp [World.start, hempty]
  obtain ⟨url, hurl, hdropped⟩ := exists_dropped hfirst hstart hrecorded hlarge
  obtain ⟨_, hlisted, _⟩ := Session.mem_wanted.mp hurl
  obtain ⟨item, hitem⟩ : ∃ item, Move.visit item url ∈ passMoves listing false s.feeds := by
    apply exists_visit_mem_passMoves
    rw [← hfeeds, listedURLs_append]
    apply List.mem_append_left _ hlisted
  have hmoves : loopMoves listing s.feeds 2 true
      = passMoves listing true feeds
        ++ (passMoves listing true rest ++ passMoves listing false s.feeds) := by
    rw [loopMoves, loopMoves, loopMoves, ← hfeeds]
    simp [passMoves]
  rw [mainLoop_eq_run hlists']
  apply Eq.subst (motive := fun moves =>
    ¬ (successes (Move.run (env.erasing s) moves (.start s fun _ => none)).trace).Nodup) hmoves.symm
  rw [Move.run_append]
  apply hdropped.run hfirst.toConfigured hurl (List.mem_append_right _ hitem)

/-- No URL is downloaded twice, whatever becomes of downloads and of saving and whichever
downloaded files are removed, exactly when the listing fits. -/
theorem no_second_download_iff {env : Env} {listing : Listing} {s : Session}
    (hlists : env.Lists listing s.feeds) (hcount : listedCount listing s.feeds < 65506)
    (hmax : s.maxBucketItems = AM_DEFAULT_MAXBUCKET) (hempty : s.downloads = []) :
  (∀ visit : ℕ → Visit, (∀ t, (visit t).RemovesFrom s.downloadFolder.bytes) →
      ∀ disk passes, (successes
        (mainLoop { env with visit := visit } passes true (.start s disk)).trace).Nodup)
    ↔ s.Fits env.pcre listing
  := by
  have hcap : capacityFor listing s.feeds < 65536 := by
    have hdefault : AM_DEFAULT_MAXBUCKET.toNat = 30 := rfl
    rw [capacityFor]
    omega
  constructor
  · intro h feeds hfeeds
    obtain ⟨rest, hrest⟩ := (List.mem_inits _ _).mp hfeeds
    by_contra hlarge
    apply not_nodup_erasing hlists hcap hmax hempty hrest (Nat.lt_of_not_le hlarge)
    apply h
    intro _
    apply removesFrom_erasing
  · intro hfits visit _ disk passes
    have hlists' : Env.Lists { env with visit := visit } listing
        (World.start s disk).session.feeds := hlists
    apply nodup_successes_of_fits hlists' hcap hmax hempty rfl hfits

/-! ### One item -/

/-- A listing of one feed with one item. -/
def plainListing (urls : List Str) : Listing :=
  fun _ => (1, extractFeedItems [plainNode urls])

theorem lists_plain (urls : List Str) (visit : ℕ → Visit) :
  (Env.plain urls visit).Lists (plainListing urls) [plainFeed]
  := by
  intro t feed _
  use plainDocument urls, rfl
  simp [Env.plain, parseXmldata, plainListing]

/-- `count` URLs of different files. -/
def trailerUrls (count : ℕ) : List Str :=
  (List.range count).filterMap fun i =>
    Str.ofBytes (text "http://a.example/m" ++ [65 + UInt8.ofNat i])

theorem no_second_download_three :
  (successes (mainLoop (.plain (trailerUrls 3) fun _ => .erasing (text "/t")) 5 true
      (.start (.plain [plainFeed] []) fun _ => none)).trace).Nodup
  := by
  have h := (@no_second_download_iff (.plain (trailerUrls 3) fun _ => .plain 200) _
    (.plain [plainFeed] []) (lists_plain _ _) (by decide) rfl rfl).mpr (by decide)
  apply h (fun _ => .erasing (text "/t"))
  intro _
  apply removesFrom_erasing

/-- An environment in which the downloaded files are removed after the first pass. -/
def removedBetweenPasses : Env :=
  .plain (trailerUrls 32) fun t => if t = 32 then .erasing (text "/t") else .plain 200

/-- Of one item with 32 URLs all are downloaded again by the second pass. -/
theorem second_download_many :
  removedBetweenPasses.Lists (plainListing (trailerUrls 32)) [plainFeed]
    ∧ listedCount (plainListing (trailerUrls 32)) [plainFeed] = 1
    ∧ (∀ t, (removedBetweenPasses.visit t).RemovesFrom (text "/t"))
    ∧ ¬ (successes (mainLoop removedBetweenPasses 2 true
        (.start (.plain [plainFeed] []) fun _ => none)).trace).Nodup
  := by
  refine ⟨lists_plain _ _, rfl, ?_, by decide +kernel⟩
  intro t disk path
  simp only [removedBetweenPasses, Env.plain]
  split_ifs
  · apply removesFrom_erasing
  · left
    rfl

end Trailermatic
