import Trailermatic.Listing

/-!
# The capacity of the history

The capacity grows while the feeds are processed for the first time, and never again.
`capacity_covers_iff` says when it covers all feeds: when what the first pass counts fits
into 16 bits, and the feeds that succeed only later have no more items than the capacity
was at the start.
-/

namespace Trailermatic

/-! ### Counting items -/

/-- The number of items of a feed, if the request `t` for it succeeds and what it gives can
be parsed. -/
def Env.itemCount (env : Env) (t : ℕ) (feed : RssFeed) : Option ℕ :=
  match env.fetch t feed with
  | none => none
  | some response =>
    if response.responseCode = 200 then
      match response.data with
      | none => none
      | some data => (env.libxml data).map List.length
    else none

/-- The number of items that the request `t`, for the feed at the position `j`, gives. -/
def Env.countAt (env : Env) (feeds : List RssFeed) (t j : ℕ) : Option ℕ :=
  feeds[j]?.bind (env.itemCount t)

/-- The number of items at the first success in some requests for the feed at the position
`j`.  Each pass makes one request for each feed. -/
def Env.firstCount (env : Env) (feeds : List RssFeed) (j : ℕ) : ℕ → Option ℕ
  | 0 => none
  | passes + 1 =>
    (env.firstCount feeds j passes).or (env.countAt feeds (passes * feeds.length + j) j)

/-- The number of requests for the feed at the position `j` when some passes are over and
the next one has processed `k` feeds. -/
def requests (passes k j : ℕ) : ℕ :=
  if j < k then passes + 1 else passes

/-- The sum of the first `n` counts. -/
def total (count : ℕ → ℕ) : ℕ → ℕ
  | 0 => 0
  | n + 1 => total count n + count n

theorem total_add (count count' : ℕ → ℕ) (n : ℕ) :
  total (fun j => count j + count' j) n = total count n + total count' n
  := by
  induction n with
  | zero => rfl
  | succ n ih =>
    rw [total, ih, total, total]
    omega

theorem total_congr {count count' : ℕ → ℕ} {n : ℕ} (h : ∀ j < n, count j = count' j) :
  total count n = total count' n
  := by
  induction n with
  | zero => rfl
  | succ n ih =>
    rw [total, total, ih fun j hj => h j (Nat.lt_succ_of_lt hj), h n (Nat.lt_succ_self n)]

/-- A success in the first pass is the first success. -/
theorem firstCount_of_first {env : Env} {feeds : List RssFeed} {j c : ℕ}
    (h : env.countAt feeds j j = some c) (passes : ℕ) :
  env.firstCount feeds j (passes + 1) = some c
  := by
  induction passes with
  | zero => simp [Env.firstCount, h]
  | succ passes ih => rw [Env.firstCount, ih, Option.some_or]

/-! ### The moments of a run -/

/-- The world when some passes are over and the next one has processed `k` feeds. -/
def World.moment (env : Env) (w : World) (passes k : ℕ) : World :=
  checkFeeds env (passes == 0) (w.session.feeds.take k) (mainLoop env passes true w)

theorem processURL_fetches (env : Env) (w : World) (item : FeedItem) (url : Str) :
  (processURL env w item url).fetches = w.fetches
  := by
  simp only [processURL]
  split
  · rfl
  · split_ifs
    · rfl
    · simp only [attempt]
      split
      · split_ifs
        · rfl
        · rw [reportFailure]
          split_ifs
          · rfl
          · rfl
      · rfl
    · rfl

/-- Visits make no requests and leave the capacity as it is. -/
theorem processRSSList_kept (env : Env) (items : List FeedItem) (w : World) :
  (processRSSList env items w).fetches = w.fetches
    ∧ (processRSSList env items w).session.maxBucketItems = w.session.maxBucketItems
  := by
  rw [processRSSList_eq_run]
  apply List.foldlRecOn (itemMoves items) (Move.apply env) (motive := fun w' =>
    w'.fetches = w.fetches ∧ w'.session.maxBucketItems = w.session.maxBucketItems) ⟨rfl, rfl⟩
  rintro w' ⟨hfetches, hcapacity⟩ move hmove
  obtain ⟨item, -, hmove⟩ := List.mem_flatMap.mp hmove
  obtain ⟨url, -, rfl⟩ := List.mem_map.mp hmove
  constructor
  · rw [← hfetches]
    apply processURL_fetches
  · rw [← hcapacity]
    apply (processURL_visited env w' item url).alike.2.2

/-- A feed makes one request, and in the first pass it makes room for its items. -/
theorem processFeed_kept (env : Env) (w : World) (feed : RssFeed) (firstrun : Bool) :
  (processFeed env w feed firstrun).fetches = w.fetches + 1
    ∧ (processFeed env w feed firstrun).session.maxBucketItems
      = w.session.maxBucketItems
        + if firstrun then UInt16.ofNat ((env.itemCount w.fetches feed).getD 0) else 0
  := by
  simp only [processFeed, Env.itemCount]
  cases env.fetch w.fetches feed with
  | none => simp
  | some response =>
    by_cases hcode : response.responseCode = 200
    · simp only [if_pos hcode]
      cases response.data with
      | none => simp
      | some data =>
        simp only [parseXmldata]
        cases env.libxml data with
        | none =>
          obtain ⟨hfetches, hcapacity⟩ := processRSSList_kept env []
            (if firstrun then growBucket { w with fetches := w.fetches + 1 } 0
              else { w with fetches := w.fetches + 1 })
          rw [hfetches, hcapacity]
          cases firstrun with
          | true => exact ⟨rfl, rfl⟩
          | false => simp
        | some nodes =>
          obtain ⟨hfetches, hcapacity⟩ := processRSSList_kept env (extractFeedItems nodes)
            (if firstrun then growBucket { w with fetches := w.fetches + 1 } nodes.length
              else { w with fetches := w.fetches + 1 })
          rw [hfetches, hcapacity]
          cases firstrun with
          | true => exact ⟨rfl, rfl⟩
          | false => simp
    · simp [if_neg hcode]

theorem checkFeeds_append (env : Env) (firstrun : Bool) (feeds feeds' : List RssFeed)
    (w : World) :
  checkFeeds env firstrun (feeds ++ feeds') w
    = checkFeeds env firstrun feeds' (checkFeeds env firstrun feeds w)
  := by
  induction feeds generalizing w with
  | nil => rfl
  | cons feed feeds ih => apply ih

/-- What the first feeds of a pass do to the capacity. -/
theorem checkFeeds_take (env : Env) (firstrun : Bool) (feeds : List RssFeed) (w : World) {k : ℕ}
    (hk : k ≤ feeds.length) :
  (checkFeeds env firstrun (feeds.take k) w).fetches = w.fetches + k
    ∧ (checkFeeds env firstrun (feeds.take k) w).session.maxBucketItems
      = w.session.maxBucketItems + if firstrun then
          UInt16.ofNat (total (fun j => (env.countAt feeds (w.fetches + j) j).getD 0) k) else 0
  := by
  induction k with
  | zero => simp [checkFeeds, total]
  | succ k ih =>
    obtain ⟨hfetches, hcapacity⟩ := ih (Nat.le_of_succ_le hk)
    have hfeed : feeds[k]? = some feeds[k] := List.getElem?_eq_getElem hk
    obtain ⟨hfetches', hcapacity'⟩ := processFeed_kept env
      (checkFeeds env firstrun (feeds.take k) w) feeds[k] firstrun
    have hnext : checkFeeds env firstrun (feeds.take (k + 1)) w
        = processFeed env (checkFeeds env firstrun (feeds.take k) w) feeds[k] firstrun := by
      rw [List.take_succ_eq_append_getElem hk, checkFeeds_append]
      rfl
    rw [hnext, hfetches', hcapacity', hfetches, hcapacity]
    constructor
    · rfl
    · cases firstrun with
      | true =>
        simp only [if_true, total, Env.countAt, hfeed, Option.bind_some, UInt16.ofNat_add,
          UInt16.add_assoc]
      | false => simp

/-- The requests of the passes before. -/
theorem mainLoop_fetches (env : Env) (passes : ℕ) (firstRun : Bool) (w : World) :
  (mainLoop env passes firstRun w).fetches = w.fetches + passes * w.session.feeds.length
    ∧ (mainLoop env passes firstRun w).session.feeds = w.session.feeds
  := by
  induction passes generalizing firstRun w with
  | zero => simp [mainLoop]
  | succ passes ih =>
    have hfeeds := (Run.alike (run_checkFeeds env firstRun w.session.feeds w)).feeds
    have hfetches := (checkFeeds_take env firstRun w.session.feeds w (Nat.le_refl _)).1
    obtain ⟨hmore, hsame⟩ := ih false (checkFeeds env firstRun w.session.feeds w)
    rw [List.take_length] at hfetches
    rw [mainLoop, hmore, hsame, hfeeds, hfetches, Nat.add_mul]
    constructor
    · omega
    · rfl

/-- Later passes leave the capacity as it is. -/
theorem mainLoop_capacity (env : Env) (passes : ℕ) (w : World) :
  (mainLoop env passes false w).session.maxBucketItems = w.session.maxBucketItems
  := by
  induction passes generalizing w with
  | zero => rfl
  | succ passes ih =>
    have hcapacity := (checkFeeds_take env false w.session.feeds w (Nat.le_refl _)).2
    rw [List.take_length] at hcapacity
    rw [mainLoop, ih, hcapacity]
    simp

/-- What is requested before a moment, and what the first pass has made of the capacity. -/
theorem moment_kept (env : Env) {w : World} (hstart : w.fetches = 0) (passes : ℕ) {k : ℕ}
    (hk : k ≤ w.session.feeds.length) :
  (w.moment env passes k).fetches = passes * w.session.feeds.length + k
    ∧ (w.moment env passes k).session.maxBucketItems
      = w.session.maxBucketItems
        + UInt16.ofNat (total (fun j => (env.countAt w.session.feeds j j).getD 0)
          (if passes = 0 then k else w.session.feeds.length))
  := by
  obtain ⟨hfetches, hcapacity⟩ := checkFeeds_take env (passes == 0) w.session.feeds
    (mainLoop env passes true w) hk
  constructor
  · rw [World.moment, hfetches, (mainLoop_fetches env passes true w).1, hstart, Nat.zero_add]
  · rw [World.moment, hcapacity]
    cases passes with
    | zero => simp [mainLoop, hstart]
    | succ passes =>
      have hfirst := (checkFeeds_take env true w.session.feeds w (Nat.le_refl _)).2
      rw [List.take_length, hstart] at hfirst
      rw [mainLoop, mainLoop_capacity, hfirst]
      simp

/-! ### What the capacity covers -/

/-- The number of items at the first success of a feed that fails in the first pass. -/
def Env.lateCount (env : Env) (feeds : List RssFeed) (passes k j : ℕ) : ℕ :=
  if (env.countAt feeds j j).isSome then 0
  else (env.firstCount feeds j (requests passes k j)).getD 0

theorem firstCount_eq_add {env : Env} {feeds : List RssFeed} {passes k j : ℕ}
    (h : (env.firstCount feeds j (requests passes k j)).isSome = true) :
  (env.firstCount feeds j (requests passes k j)).getD 0
    = (env.countAt feeds j j).getD 0 + env.lateCount feeds passes k j
  := by
  rw [Env.lateCount]
  cases hfirst : env.countAt feeds j j with
  | none => simp
  | some c =>
    obtain ⟨n, hn⟩ : ∃ n, requests passes k j = n + 1 := by
      apply Nat.exists_eq_succ_of_ne_zero
      intro hzero
      rw [hzero] at h
      cases h
    rw [hn, firstCount_of_first hfirst]
    rfl

/-- When every feed has succeeded, the capacity is at least the number of items of all
feeds, each at its first success, exactly when what the first pass counts fits into 16 bits
and the feeds that failed in the first pass have no more items than the capacity was at the
start. -/
theorem capacity_covers_iff {env : Env} {s : Session} {disk : Disk} {passes k : ℕ}
    (hmax : s.maxBucketItems = AM_DEFAULT_MAXBUCKET) (hk : k ≤ s.feeds.length)
    (hall : ∀ j < s.feeds.length,
      (env.firstCount s.feeds j (requests passes k j)).isSome = true) :
  let w := (World.start s disk).moment env passes k
  w.fetches = passes * s.feeds.length + k
    ∧ (total (fun j => (env.firstCount s.feeds j (requests passes k j)).getD 0) s.feeds.length
        ≤ w.session.maxBucketItems.toNat
      ↔ AM_DEFAULT_MAXBUCKET.toNat
            + total (fun j => (env.countAt s.feeds j j).getD 0) s.feeds.length < 65536
          ∧ total (env.lateCount s.feeds passes k) s.feeds.length ≤ AM_DEFAULT_MAXBUCKET.toNat)
  := by
  intro w
  obtain ⟨hfetches, hcapacity⟩ := moment_kept env (w := .start s disk) rfl passes hk
  use hfetches
  have hlength : (if passes = 0 then k else s.feeds.length) = s.feeds.length := by
    split_ifs with hpasses
    · apply Nat.le_antisymm hk
      by_contra hlt
      have hnone := hall k (Nat.lt_of_not_le hlt)
      rw [requests, if_neg (Nat.lt_irrefl k), hpasses] at hnone
      cases hnone
    · rfl
  have hsum : total (fun j => (env.firstCount s.feeds j (requests passes k j)).getD 0)
        s.feeds.length
      = total (fun j => (env.countAt s.feeds j j).getD 0) s.feeds.length
        + total (env.lateCount s.feeds passes k) s.feeds.length := by
    rw [← total_add]
    apply total_congr
    intro j hj
    apply firstCount_eq_add (hall j hj)
  have hdefault : AM_DEFAULT_MAXBUCKET.toNat = 30 := rfl
  have hw : w.session.maxBucketItems.toNat
      = (30 + total (fun j => (env.countAt s.feeds j j).getD 0) s.feeds.length) % 65536 := by
    rw [show w.session.maxBucketItems = _ from hcapacity]
    simp only [World.start, hlength, hmax, UInt16.toNat_add, UInt16.toNat_ofNat', hdefault]
    omega
  rw [hsum, hw, hdefault]
  constructor
  · intro h
    omega
  · rintro ⟨hfits, hlate⟩
    omega

/-! ### A feed that fails at first -/

/-- An environment in which the first request fails, and the others give `count` items. -/
def laterItems (count : ℕ) : Env where
  pcre := .plain
  libxml _ := some (List.replicate count (plainNode []))
  visit _ := .plain 200
  fetch t _ := if t = 0 then none else some ⟨200, some []⟩

theorem capacity_covers_few :
  total (fun j => ((laterItems 30).firstCount [plainFeed] j (requests 1 1 j)).getD 0) 1
    ≤ ((World.start (.plain [plainFeed] []) fun _ => none).moment (laterItems 30) 1 1
      ).session.maxBucketItems.toNat
  := by
  have h := (@capacity_covers_iff (laterItems 30) (.plain [plainFeed] []) (fun _ => none) 1 1 rfl
    (by decide) (by decide)).2
  apply h.mpr
  decide

/-- A feed with 31 items that fails in the first pass is not covered. -/
theorem capacity_not_covers :
  (laterItems 31).firstCount [plainFeed] 0 2 = some 31
    ∧ (mainLoop (laterItems 31) 2 true (.start (.plain [plainFeed] []) fun _ => none)
      ).session.maxBucketItems = 30
  := by
  decide

end Trailermatic
