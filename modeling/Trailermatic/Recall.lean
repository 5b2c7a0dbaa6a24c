import Trailermatic.Eviction
import Trailermatic.Limit
import Trailermatic.OnePass

/-!
# What the first pass remembers

After a restart the history is as large as before, but the capacity grows from its default
again, feed by feed.  `recall_iff` says when no URL of the history is downloaded again in
the first pass: when new URLs never push out an entry before its feed comes.
-/

namespace Trailermatic

/-! ### Moves of a pass -/

/-- The number of items that a move makes room for. -/
def Move.itemCount : Move → ℕ
  | .request itemCount => itemCount
  | .visit .. => 0

/-- The items for which the moves make room. -/
def requested : List Move → ℕ
  | [] => 0
  | move :: moves => move.itemCount + requested moves

/-- The capacity after some moves. -/
def capacityAfter (moves : List Move) : ℕ :=
  AM_DEFAULT_MAXBUCKET.toNat + requested moves

theorem requested_append (moves moves' : List Move) :
  requested (moves ++ moves') = requested moves + requested moves'
  := by
  induction moves with
  | nil => simp [requested]
  | cons move moves ih => rw [List.cons_append, requested, ih, requested, Nat.add_assoc]

theorem requested_visits {moves : List Move}
    (h : ∀ move ∈ moves, ∃ item url, move = .visit item url) :
  requested moves = 0
  := by
  induction moves with
  | nil => rfl
  | cons move moves ih =>
    obtain ⟨item, url, rfl⟩ := h _ List.mem_cons_self
    rw [requested, ih fun m hm => h m (List.mem_cons_of_mem _ hm)]
    rfl

theorem requested_passMoves (listing : Listing) (feeds : List RssFeed) :
  requested (passMoves listing true feeds) = listedCount listing feeds
  := by
  induction feeds with
  | nil => rfl
  | cons feed feeds ih =>
    have hitems : requested (itemMoves (listing feed).2) = 0 :=
      requested_visits fun move hmove => exists_of_mem_itemMoves hmove
    rw [passMoves, List.flatMap_cons, requested_append, ← passMoves, ih, feedMoves, requested,
      hitems, listedCount]
    rfl

theorem capacityAfter_append (moves : List Move) (move : Move) :
  capacityAfter (moves ++ [move]) = capacityAfter moves + move.itemCount
  := by
  rw [capacityAfter, capacityAfter, requested_append, Nat.add_assoc]
  rfl

theorem capacityAfter_le_of_initial {moves moves' : List Move} (h : moves <+: moves') :
  capacityAfter moves ≤ capacityAfter moves'
  := by
  obtain ⟨rest, rfl⟩ := h
  rw [capacityAfter, capacityAfter, requested_append]
  omega

theorem capacityAfter_pos (moves : List Move) :
  0 < capacityAfter moves
  := by
  apply Nat.add_pos_left
  decide

/-! ### New URLs -/

/-- The URLs that some moves visit, that are wanted and that are not in the history of the
session. -/
def Session.newURLs (s : Session) (pcre : Pcre) (moves : List Move) : List Str :=
  (s.wanted pcre (moves.filterMap Move.url)).filter (· ∉ s.downloads)

theorem Session.newURLs_append (s : Session) (pcre : Pcre) (moves moves' : List Move) :
  s.newURLs pcre (moves ++ moves') = s.newURLs pcre moves ++ s.newURLs pcre moves'
  := by
  rw [newURLs, List.filterMap_append, wanted_append, List.filter_append]
  rfl

theorem Session.newURLs_request (s : Session) (pcre : Pcre) (itemCount : ℕ) :
  s.newURLs pcre [.request itemCount] = []
  := by
  have hurls : [Move.request itemCount].filterMap Move.url = [] := rfl
  rw [newURLs, hurls, wanted]
  split_ifs
  · rfl
  · rfl

theorem Session.mem_newURLs_visit {s : Session} {pcre : Pcre} {item : FeedItem} {url u : Str} :
  u ∈ s.newURLs pcre [.visit item url]
    ↔ u = url ∧ url ∈ s.wanted pcre [url] ∧ url ∉ s.downloads
  := by
  have hurls : [Move.visit item url].filterMap Move.url = [url] := rfl
  rw [newURLs, hurls, List.mem_filter, decide_eq_true_eq]
  constructor
  · rintro ⟨hwanted, hnew⟩
    obtain rfl := List.mem_singleton.mp (Session.mem_wanted.mp hwanted).2.1
    exact ⟨rfl, hwanted, hnew⟩
  · rintro ⟨rfl, hwanted, hnew⟩
    exact ⟨hwanted, hnew⟩

/-- The number of entries of the history that are older than `url`. -/
def Session.olderThan (s : Session) (url : Str) : ℕ :=
  s.downloads.length - 1 - s.downloads.idxOf url

/-- Whenever an entry of the history is visited that is wanted, the different new URLs up to
any moment before were no more than the entries that are older, and what the capacity had
grown beyond the history by then. -/
def Session.Recalls (s : Session) (pcre : Pcre) (listing : Listing) : Prop :=
  ∀ before item url after, passMoves listing true s.feeds = before ++ .visit item url :: after →
    url ∈ s.downloads → url ∈ s.wanted pcre [url] → ∀ moves, moves <+: before →
    (s.newURLs pcre moves).dedup.length
      ≤ (capacityAfter moves - s.downloads.length) + s.olderThan url

/-! ### Entries that are kept -/

section Moves

variable {env : Env} {s : Session} {w : World} {moves : List Move}

theorem Setting.move (hw : Setting s (capacityAfter moves) w) (env : Env) {move : Move}
    (hcap : capacityAfter (moves ++ [move]) < 65536) :
  Setting s (capacityAfter (moves ++ [move])) (move.apply env w)
  := by
  rw [capacityAfter_append] at hcap ⊢
  cases move with
  | request itemCount => apply hw.request env hcap
  | visit item url => apply hw.visit env item url

/-- The history is a window on the completed downloads and the history of before. -/
def World.Recent (s : Session) (w : World) : Prop :=
  w.session.downloads <+: successes w.trace ++ s.downloads

/-- The completed downloads with the part of them that the history holds. -/
def World.Recent.window (h : w.Recent s) : Window Str :=
  ⟨successes w.trace ++ s.downloads, w.session.downloads, h⟩

/-- What a visit does to a history that is a window. -/
theorem World.Recent.visit (h : w.Recent s) (env : Env) (item : FeedItem) (url : Str) :
  (processURL env w item url).Recent s
    ∧ ((successes (processURL env w item url).trace = successes w.trace
        ∧ (processURL env w item url).session.downloads = w.session.downloads)
      ∨ (Attempts env w url ∧ successes (processURL env w item url).trace
          = url :: successes w.trace
        ∧ (processURL env w item url).session.downloads
          = (h.window.push w.session.maxBucketItems.toNat url).kept))
  := by
  rcases (processURL_visited env w item url).history with
    ⟨hsession, hsuccesses, _⟩ | ⟨hattempts, hsession, hsuccesses, _⟩
  · constructor
    · rw [Recent, hsession, hsuccesses]
      apply h
    · left
      exact ⟨hsuccesses, by rw [hsession]⟩
  · have hpush : (processURL env w item url).session.downloads
        = (h.window.push w.session.maxBucketItems.toNat url).kept := by
      rw [hsession]
      apply addToBucket_eq_push h.window
    constructor
    · rw [Recent, hpush, hsuccesses]
      apply Window.kept_prefix
    · right
      exact ⟨hattempts, hsuccesses, hpush⟩

/-- A history that is pushed to its capacity does not grow. -/
theorem World.Recent.length_pushed (h : w.Recent s) {cap : ℕ} (hw : Setting s cap w)
    {downloads : List Str} {url : Str}
    (hdownloads : downloads = (h.window.push w.session.maxBucketItems.toNat url).kept) :
  downloads.length = if 0 < cap ∧ cap < w.session.downloads.length + 1
    then w.session.downloads.length else w.session.downloads.length + 1
  := by
  rw [hdownloads, hw.capacity]
  apply Window.length_kept_push

/-- An entry of before that was not downloaded again is kept when it is recent enough. -/
theorem World.Recent.mem_iff (h : w.Recent s) {url : Str} (hnew : url ∉ successes w.trace) :
  url ∈ w.session.downloads
    ↔ (successes w.trace).length + s.downloads.idxOf url < w.session.downloads.length
  := by
  apply Iff.trans (h.window.mem_kept_iff url)
  simp only [window]
  rw [List.idxOf_append, if_neg hnew, Nat.add_comm]

theorem successes_subset_calls (trace : List Event) :
  successes trace ⊆ calls trace
  := by
  intro url hurl
  obtain ⟨e, he, hsuccess⟩ := List.mem_filterMap.mp hurl
  apply List.mem_filterMap.mpr
  use e, he
  cases e with
  | download u path opened response =>
    simp only [Event.success] at hsuccess
    split_ifs at hsuccess
    apply hsuccess
  | record => cases hsuccess
  | notify => cases hsuccess
  | script => cases hsuccess

theorem calls_subset_apply (env : Env) (w : World) (move : Move) :
  calls w.trace ⊆ calls (move.apply env w).trace
  := by
  cases move with
  | request => apply List.Subset.refl
  | visit item url =>
    rcases calls_processURL env w item url with ⟨-, hcalls⟩ | ⟨-, hcalls⟩
    · rw [Move.apply, hcalls]
      apply List.subset_cons_self
    · rw [Move.apply, hcalls]
      apply List.Subset.refl

/-- Only new URLs were downloaded, and of the history of before no more than `older` entries
were pushed out. -/
structure Retains (s : Session) (pcre : Pcre) (older : ℕ) (moves : List Move) (w : World) : Prop
    extends Setting s (capacityAfter moves) w where
  recent : w.Recent s
  nodup : (successes w.trace).Nodup
  new : successes w.trace ⊆ s.newURLs pcre moves
  lost : (successes w.trace).length + s.downloads.length ≤ w.session.downloads.length + older
  length : s.downloads.length ≤ w.session.downloads.length

/-- All that was downloaded in the pass is still in the history. -/
theorem Retains.notMem_successes {older : ℕ} (h : Retains s env.pcre older moves w)
    (holder : older < s.downloads.length) {url : Str} (hurl : url ∉ w.session.downloads) :
  url ∉ successes w.trace
  := by
  intro hmem
  apply hurl
  apply (h.recent.window.mem_kept_iff url).mpr
  have hlost := h.lost
  have hindex := List.idxOf_lt_length_of_mem hmem
  simp only [World.Recent.window]
  rw [List.idxOf_append, if_pos hmem]
  omega

/-- A visit that downloads a URL keeps what is retained, if the URL is not one of before. -/
theorem Retains.download {older : ℕ} (h : Retains s env.pcre older moves w)
    (holder : older < s.downloads.length) {item : FeedItem} {url : Str}
    (hcap : capacityAfter (moves ++ [.visit item url]) < 65536)
    (hroom : (s.newURLs env.pcre (moves ++ [.visit item url])).dedup.length
      ≤ (capacityAfter (moves ++ [.visit item url]) - s.downloads.length) + older)
    (hrecent : (processURL env w item url).Recent s) (hattempts : Attempts env w url)
    (hold : url ∉ s.downloads)
    (hsuccesses : successes (processURL env w item url).trace = url :: successes w.trace)
    (hdownloads : (processURL env w item url).session.downloads
      = (h.recent.window.push w.session.maxBucketItems.toNat url).kept) :
  Retains s env.pcre older (moves ++ [.visit item url]) (processURL env w item url)
  := by
  have hwanted : url ∈ s.wanted env.pcre [url] :=
    hattempts.wanted h.toSetting (List.mem_singleton_self url)
  have hnew : url :: successes w.trace ⊆ s.newURLs env.pcre (moves ++ [.visit item url]) := by
    rw [Session.newURLs_append]
    apply List.cons_subset.mpr ⟨_, List.subset_append_of_subset_left _ h.new⟩
    apply List.mem_append_right
    rw [Session.mem_newURLs_visit]
    exact ⟨rfl, hwanted, hold⟩
  have hnodup : (url :: successes w.trace).Nodup :=
    List.nodup_cons.mpr ⟨h.notMem_successes holder hattempts.fresh, h.nodup⟩
  -- the room up to this move bounds the pushes, so the next eviction spares the entry
  have hpushes : (successes w.trace).length + 1
      ≤ (capacityAfter moves - s.downloads.length) + older := by
    rw [capacityAfter_append moves (.visit item url)] at hroom
    apply Nat.le_trans _ hroom
    apply hnodup.length_le_of_subset
    intro u hu
    rw [List.mem_dedup]
    apply hnew hu
  have hlength := h.recent.length_pushed h.toSetting hdownloads
  have hlost := h.lost
  have hgrown := h.length
  refine ⟨h.toSetting.move env hcap, hrecent, ?_, ?_, ?_, ?_⟩
  · rw [hsuccesses]
    apply hnodup
  · rw [hsuccesses]
    apply hnew
  · rw [hsuccesses, hlength, List.length_cons]
    split_ifs
    · omega
    · omega
  · rw [hlength]
    split_ifs
    · omega
    · omega

theorem Retains.move {older : ℕ} (h : Retains s env.pcre older moves w)
    (holder : older < s.downloads.length) {move : Move}
    (hcap : capacityAfter (moves ++ [move]) < 65536)
    (hroom : (s.newURLs env.pcre (moves ++ [move])).dedup.length
      ≤ (capacityAfter (moves ++ [move]) - s.downloads.length) + older)
    (hcalls : ∀ url ∈ s.downloads, url ∉ calls (move.apply env w).trace) :
  Retains s env.pcre older (moves ++ [move]) (move.apply env w)
  := by
  have hsetting := h.toSetting.move env hcap
  have hnew : successes w.trace ⊆ s.newURLs env.pcre (moves ++ [move]) := by
    rw [Session.newURLs_append]
    apply List.subset_append_of_subset_left _ h.new
  cases move with
  | request itemCount => exact ⟨hsetting, h.recent, h.nodup, hnew, h.lost, h.length⟩
  | visit item url =>
    obtain ⟨hrecent, ⟨hsuccesses, hdownloads⟩ | ⟨hattempts, hsuccesses, hdownloads⟩⟩ :=
      h.recent.visit env item url
    · refine ⟨hsetting, hrecent, ?_, ?_, ?_, ?_⟩
      · rw [Move.apply, hsuccesses]
        apply h.nodup
      · rw [Move.apply, hsuccesses]
        apply hnew
      · rw [Move.apply, hsuccesses, hdownloads]
        apply h.lost
      · rw [Move.apply, hdownloads]
        apply h.length
    · have hcalled : url ∈ calls (processURL env w item url).trace := by
        apply successes_subset_calls
        rw [hsuccesses]
        apply List.mem_cons_self
      apply h.download holder hcap hroom hrecent hattempts (fun hold => hcalls url hold hcalled)
        hsuccesses hdownloads

end Moves

/-- The world as the daemon starts is in its setting. -/
theorem setting_start {s : Session} (hmax : s.maxBucketItems = AM_DEFAULT_MAXBUCKET)
    (disk : Disk) :
  Setting s (capacityAfter []) (.start s disk)
  := ⟨⟨rfl, rfl, rfl⟩, congrArg UInt16.toNat hmax⟩

theorem recent_start (s : Session) (disk : Disk) :
  (World.start s disk).Recent s
  := List.prefix_refl _

section Pass

variable {env : Env} {s : Session} {disk : Disk} {listing : Listing}
  (hmax : s.maxBucketItems = AM_DEFAULT_MAXBUCKET)

include hmax

/-- As long as no entry of before is called, those with room enough are kept. -/
theorem retains_run {older : ℕ} (holder : older < s.downloads.length) {moves : List Move}
    (hcap : capacityAfter moves < 65536)
    (hroom : ∀ moves', moves' <+: moves → (s.newURLs env.pcre moves').dedup.length
      ≤ (capacityAfter moves' - s.downloads.length) + older)
    (hcalls : ∀ url ∈ s.downloads, url ∉ calls (Move.run env moves (.start s disk)).trace) :
  Retains s env.pcre older moves (Move.run env moves (.start s disk))
  := by
  induction moves using List.reverseRecOn with
  | nil =>
    refine ⟨setting_start hmax disk, recent_start s disk, List.nodup_nil, List.nil_subset _, ?_,
      Nat.le_refl _⟩
    simp [Move.run, World.start, successes]
  | append_singleton moves move ih =>
    have hinit : moves <+: moves ++ [move] := List.prefix_append _ _
    rw [Move.run_append] at hcalls ⊢
    apply Retains.move _ holder hcap (hroom _ (List.prefix_refl _)) hcalls
    apply ih (Nat.lt_of_le_of_lt (capacityAfter_le_of_initial hinit) hcap)
    · intro moves' hmoves'
      apply hroom moves' (hmoves'.trans hinit)
    · intro url hurl hcalled
      apply hcalls url hurl (calls_subset_apply env _ move hcalled)

/-- As long as no entry of before was called, none is attempted. -/
theorem not_attempts_of_recalls (hrecalls : s.Recalls env.pcre listing) {moves rest : List Move}
    {item : FeedItem} {url : Str}
    (hmoves : passMoves listing true s.feeds = moves ++ ([.visit item url] ++ rest))
    (hcap : capacityAfter moves < 65536)
    (hbefore : ∀ u ∈ s.downloads, u ∉ calls (Move.run env moves (.start s disk)).trace)
    (hurl : url ∈ s.downloads) :
  ¬ Attempts env (Move.run env moves (.start s disk)) url
  := by
  intro hattempts
  have hsetting : Configured s (Move.run env moves (.start s disk)) := by
    apply List.foldlRecOn moves (Move.apply env) (setting_start hmax disk).toConfigured
    intro w hw move _
    apply hw.apply w move
  have hwanted : url ∈ s.wanted env.pcre [url] :=
    hattempts.wanted ⟨hsetting, rfl⟩ (List.mem_singleton_self url)
  have hindex := List.idxOf_lt_length_of_mem hurl
  have holder : s.olderThan url < s.downloads.length := by
    rw [Session.olderThan]
    omega
  have hretains := retains_run hmax holder hcap
    (hrecalls moves item url rest hmoves hurl hwanted) hbefore
  apply hattempts.fresh
  apply (hretains.recent.mem_iff _).mpr
  · have hlost := hretains.lost
    rw [Session.olderThan] at hlost
    omega
  · intro hsuccess
    apply hbefore url hurl (successes_subset_calls _ hsuccess)


/-- When the history recalls its entries, none of them is called in the pass. -/
theorem not_called_of_recalls (hcap : capacityAfter (passMoves listing true s.feeds) < 65536)
    (hrecalls : s.Recalls env.pcre listing) {moves rest : List Move}
    (hmoves : passMoves listing true s.feeds = moves ++ rest) :
  ∀ url ∈ s.downloads, url ∉ calls (Move.run env moves (.start s disk)).trace
  := by
  induction moves using List.reverseRecOn generalizing rest with
  | nil =>
    intro url _ hcalled
    cases hcalled
  | append_singleton moves move ih =>
    rw [List.append_assoc] at hmoves
    have hbefore := ih hmoves
    have hcap' : capacityAfter moves < 65536 := by
      apply Nat.lt_of_le_of_lt (capacityAfter_le_of_initial _) hcap
      rw [hmoves]
      apply List.prefix_append
    intro url hurl hcalled
    rw [Move.run_append] at hcalled
    cases move with
    | request itemCount => apply hbefore url hurl hcalled
    | visit item u =>
      rcases calls_processURL env (Move.run env moves (.start s disk)) item u with
        ⟨hattempts, hcalls⟩ | ⟨-, hcalls⟩
      · have hmem : url ∈ u :: calls (Move.run env moves (.start s disk)).trace := by
          rw [← hcalls]
          apply hcalled
        rcases List.mem_cons.mp hmem with rfl | hmem
        · apply not_attempts_of_recalls hmax hrecalls hmoves hcap' hbefore hurl hattempts
        · apply hbefore url hurl hmem
      · apply hbefore url hurl
        rw [← hcalls]
        apply hcalled

end Pass

/-! ### Entries that are lost -/

section Erasing

variable {env : Env} {s : Session} {w : World} {moves : List Move} {disk : Disk}

/-- When the folder is emptied and downloads complete, all new URLs were downloaded, and the
history is not larger than it was at the start or than its capacity. -/
structure Fills (s : Session) (pcre : Pcre) (moves : List Move) (w : World) : Prop
    extends Setting s (capacityAfter moves) w where
  recent : w.Recent s
  bounded : w.session.downloads.length ≤ max s.downloads.length (capacityAfter moves)
  visited : s.newURLs pcre moves ⊆ successes w.trace

theorem Fills.move (h : Fills s env.pcre moves w) {move : Move}
    (hcap : capacityAfter (moves ++ [move]) < 65536) :
  Fills s env.pcre (moves ++ [move]) (move.apply (env.erasing s) w)
  := by
  have hsetting := h.toSetting.move (env.erasing s) hcap
  have hgrow := capacityAfter_le_of_initial (List.prefix_append moves [move])
  have hbounded := h.bounded
  cases move with
  | request itemCount =>
    refine ⟨hsetting, h.recent, ?_, ?_⟩
    · simp only [Move.apply, growBucket]
      omega
    · rw [Session.newURLs_append, Session.newURLs_request, List.append_nil]
      apply h.visited
  | visit item url =>
    obtain ⟨hrecent, hvisit⟩ := h.recent.visit (env.erasing s) item url
    have hmore : successes w.trace ⊆ successes (processURL (env.erasing s) w item url).trace := by
      rcases hvisit with ⟨hsuccesses, -⟩ | ⟨-, hsuccesses, -⟩
      · rw [hsuccesses]
        apply List.Subset.refl
      · rw [hsuccesses]
        apply List.subset_cons_self
    refine ⟨hsetting, hrecent, ?_, ?_⟩
    · rcases hvisit with ⟨-, hdownloads⟩ | ⟨-, -, hdownloads⟩
      · rw [Move.apply, hdownloads]
        omega
      · have hlength := h.recent.length_pushed h.toSetting hdownloads
        have hpos := capacityAfter_pos moves
        rw [Move.apply, hlength]
        split_ifs
        · omega
        · omega
    · rw [Session.newURLs_append]
      apply List.append_subset.mpr ⟨List.Subset.trans h.visited hmore, _⟩
      intro u hu
      obtain ⟨rfl, hwanted, hnew⟩ := Session.mem_newURLs_visit.mp hu
      by_cases hold : u ∈ w.session.downloads
      · rcases List.mem_append.mp (h.recent.subset hold) with hsuccess | hstart
        · apply hmore hsuccess
        · apply absurd hstart hnew
      · have hsuccesses := successes_erasing h.toConfigured hwanted hold item
        apply Eq.subst (motive := fun urls => u ∈ urls) hsuccesses.symm
        apply List.mem_cons_self

theorem fills_run (hmax : s.maxBucketItems = AM_DEFAULT_MAXBUCKET)
    (hcap : capacityAfter moves < 65536) :
  Fills s env.pcre moves (Move.run (env.erasing s) moves (.start s disk))
  := by
  induction moves using List.reverseRecOn with
  | nil =>
    refine ⟨setting_start hmax disk, recent_start s disk, Nat.le_max_left _ _, ?_⟩
    simp [Session.newURLs, Session.wanted]
  | append_singleton moves move ih =>
    rw [Move.run_append]
    apply Fills.move _ hcap
    apply ih (Nat.lt_of_le_of_lt (capacityAfter_le_of_initial (List.prefix_append _ _)) hcap)

/-- An entry that is lost is called when it is visited. -/
theorem called_of_lost {url : Str} {item : FeedItem} (hw : Configured s w)
    (hlost : url ∉ w.session.downloads) (hwanted : url ∈ s.wanted env.pcre [url])
    (hmem : Move.visit item url ∈ moves) :
  url ∈ calls (Move.run (env.erasing s) moves w).trace
  := by
  apply Move.run_of_mem (I := fun w =>
    Configured s w ∧ (url ∉ w.session.downloads ∨ url ∈ calls w.trace))
    (P := fun w => url ∈ calls w.trace) _ _ _ hmem ⟨hw, Or.inl hlost⟩
  · rintro w move ⟨hw, hlost⟩
    refine ⟨hw.apply w move, ?_⟩
    rcases hlost with hlost | hcalled
    · cases move with
      | request itemCount =>
        left
        apply hlost
      | visit item u =>
        rcases (processURL_visited (env.erasing s) w item u).history with
          ⟨hsession, _⟩ | ⟨hattempts, hsession, hsuccesses, _⟩
        · left
          rw [Move.apply, hsession]
          apply hlost
        · rcases eq_or_ne url u with rfl | hne
          · right
            apply successes_subset_calls
            rw [Move.apply, hsuccesses]
            apply List.mem_cons_self
          · left
            rw [Move.apply, hsession]
            intro hmem
            rcases mem_of_mem_addToBucket hmem with heq | hold
            · apply hne heq
            · apply hlost hold
    · right
      apply calls_subset_apply _ w move hcalled
  · intro w move hcalled
    apply calls_subset_apply _ w move hcalled
  · rintro w ⟨hw, hlost | hcalled⟩
    · apply successes_subset_calls
      rw [Move.apply, successes_erasing hw hwanted hlost]
      apply List.mem_cons_self
    · apply calls_subset_apply _ w (.visit item url) hcalled

/-- When the folder is emptied and downloads complete, and no entry of before is called, the
history recalls its entries. -/
theorem recalls_of_not_called {listing : Listing}
    (hmax : s.maxBucketItems = AM_DEFAULT_MAXBUCKET)
    (hcap : capacityAfter (passMoves listing true s.feeds) < 65536)
    (hcalls : ∀ url ∈ s.downloads, url ∉ calls
      (Move.run (env.erasing s) (passMoves listing true s.feeds) (.start s disk)).trace) :
  s.Recalls env.pcre listing
  := by
  intro before item url after hmoves hurl hwanted moves hinit
  obtain ⟨later, rfl⟩ := hinit
  rw [List.append_assoc] at hmoves
  by_contra hlarge
  apply hcalls url hurl
  rw [hmoves, Move.run_append]
  have hfills : Fills s env.pcre moves (Move.run (env.erasing s) moves (.start s disk)) := by
    apply fills_run hmax (Nat.lt_of_le_of_lt (capacityAfter_le_of_initial _) hcap)
    rw [hmoves]
    apply List.prefix_append
  by_cases hcalled : url ∈ calls (Move.run (env.erasing s) moves (.start s disk)).trace
  · apply List.foldlRecOn (later ++ Move.visit item url :: after) (Move.apply (env.erasing s))
      (motive := fun w => url ∈ calls w.trace) hcalled
    intro w hw move _
    apply calls_subset_apply _ w move hw
  · have hvisit : Move.visit item url ∈ later ++ Move.visit item url :: after := by simp
    apply called_of_lost hfills.toConfigured _ hwanted hvisit
    rw [hfills.recent.mem_iff fun hsuccess => hcalled (successes_subset_calls _ hsuccess)]
    have hpushes : (s.newURLs env.pcre moves).dedup.length
        ≤ (successes (Move.run (env.erasing s) moves (.start s disk)).trace).length := by
      apply (List.nodup_dedup _).length_le_of_subset
      intro u hu
      rw [List.mem_dedup] at hu
      apply hfills.visited hu
    have hbounded := hfills.bounded
    have hindex := List.idxOf_lt_length_of_mem hurl
    rw [Session.olderThan] at hlarge
    omega

end Erasing

/-- In the first pass after a restart no URL of the history is downloaded again, whatever
becomes of downloads and of saving and whichever downloaded files are removed, exactly when
the history recalls its entries. -/
theorem recall_iff {env : Env} {listing : Listing} {s : Session} (file : Option Bytes)
    (hlists : env.Lists listing s.feeds) (hcount : listedCount listing s.feeds < 65506)
    (hmax : s.maxBucketItems = AM_DEFAULT_MAXBUCKET) :
  (∀ visit : ℕ → Visit, (∀ t, (visit t).RemovesFrom s.downloadFolder.bytes) → ∀ disk,
      ∀ url ∈ (s.loaded file).downloads, url ∉ calls (checkFeeds { env with visit := visit } true
        s.feeds (.start (s.loaded file) disk)).trace)
    ↔ (s.loaded file).Recalls env.pcre listing
  := by
  have hcap : capacityAfter (passMoves listing true (s.loaded file).feeds) < 65536 := by
    have hdefault : AM_DEFAULT_MAXBUCKET.toNat = 30 := rfl
    rw [capacityAfter, requested_passMoves]
    simp only [Session.loaded]
    omega
  have hmax' : (s.loaded file).maxBucketItems = AM_DEFAULT_MAXBUCKET := hmax
  have hrun (visit : ℕ → Visit) (disk : Disk) :
      checkFeeds { env with visit := visit } true s.feeds (.start (s.loaded file) disk)
        = Move.run { env with visit := visit } (passMoves listing true (s.loaded file).feeds)
          (.start (s.loaded file) disk) := by
    have hlists' : Env.Lists { env with visit := visit } listing s.feeds := hlists
    apply checkFeeds_eq_run hlists'
  constructor
  · intro h
    have hcalls := h (fun _ => .erasing s.downloadFolder.bytes)
      (fun _ => removesFrom_erasing _) fun _ => none
    rw [hrun] at hcalls
    apply recalls_of_not_called hmax' hcap hcalls
  · intro hrecalls visit _ disk
    have hrecalls' : (s.loaded file).Recalls ({ env with visit := visit } : Env).pcre listing :=
      hrecalls
    rw [hrun]
    apply not_called_of_recalls hmax' hcap hrecalls' (List.append_nil _).symm

/-- A history that has room for all new URLs from the start recalls its entries. -/
theorem recalls_of_room {s : Session} {pcre : Pcre} {listing : Listing}
    (h : (s.newURLs pcre (passMoves listing true s.feeds)).dedup.length + s.downloads.length
      ≤ AM_DEFAULT_MAXBUCKET.toNat) :
  s.Recalls pcre listing
  := by
  intro before item url after hmoves _ _ moves hinit
  have hnew : (s.newURLs pcre moves).dedup.length
      ≤ (s.newURLs pcre (passMoves listing true s.feeds)).dedup.length := by
    apply (List.nodup_dedup _).length_le_of_subset
    intro u hu
    obtain ⟨later, rfl⟩ := hinit
    rw [List.mem_dedup] at hu ⊢
    rw [hmoves, List.append_assoc, Session.newURLs_append]
    apply List.mem_append_left _ hu
  rw [capacityAfter]
  omega

/-! ### Two feeds -/

/-- An environment of feeds with one item each. -/
def feedsWith (urls : ℕ → List Str) : Env where
  pcre := .plain
  libxml data := data.head?.map fun b => [plainNode (urls b.toNat)]
  visit _ := .plain 200
  fetch _ feed := some ⟨200, some [UInt8.ofNat feed.id]⟩

def twoFeeds : List RssFeed :=
  [plainFeed, { plainFeed with id := 1 }]

/-- What the feeds of `feedsWith` list. -/
def listingWith (urls : ℕ → List Str) : Listing :=
  fun feed => (1, extractFeedItems [plainNode (urls feed.id)])

theorem lists_feedsWith (urls : ℕ → List Str) :
  (feedsWith urls).Lists (listingWith urls) twoFeeds
  := by
  intro t feed hfeed
  refine ⟨_, rfl, ?_⟩
  rcases List.mem_cons.mp hfeed with rfl | hfeed
  · rfl
  · obtain rfl := List.mem_singleton.mp hfeed
    rfl

/-- `count` URLs that a state file restores. -/
def savedUrls (count : ℕ) : List Str :=
  (List.range count).filterMap fun i =>
    Str.ofBytes (text "http://a.example/m/" ++ [65 + UInt8.ofNat i])

/-- Of two feeds the first one lists a new URL, and the second one the oldest of `count`
entries of the history. -/
def newThenOld (count : ℕ) : ℕ → List Str
  | 0 => [newUrl]
  | _ => (savedUrls count).drop (count - 1)

/-- The session of a restart with `count` entries in the state file. -/
def restarted (count : ℕ) : Session :=
  (Session.plain twoFeeds []).loaded (some (stateFile (savedUrls count)))

theorem short_history_recalled :
  List.Disjoint (restarted 3).downloads (calls (checkFeeds (feedsWith (newThenOld 3)) true
    twoFeeds (.start (restarted 3) fun _ => none)).trace)
  := by
  have hrecalls : (restarted 3).Recalls .plain (listingWith (newThenOld 3)) := by
    apply recalls_of_room
    decide +kernel
  have h := (@recall_iff (feedsWith (newThenOld 3)) (listingWith (newThenOld 3))
    (.plain twoFeeds []) (some (stateFile (savedUrls 3))) (lists_feedsWith _) (by decide)
    rfl).mpr hrecalls
  apply h (fun _ => .plain 200)
  intro _ disk path
  left
  rfl

/-- With 31 entries in the history the new URL of the first feed pushes out the oldest one,
and the second feed downloads it again. -/
theorem long_history_not_recalled :
  (restarted 31).downloads = savedUrls 31
    ∧ (feedsWith (newThenOld 31)).Lists (listingWith (newThenOld 31)) twoFeeds
    ∧ listedCount (listingWith (newThenOld 31)) twoFeeds = 2
    ∧ (savedUrls 31 ++ listedURLs (listingWith (newThenOld 31)) twoFeeds).dedup.length = 30 + 2
    ∧ (savedUrls 31).drop 30 ⊆ calls (checkFeeds (feedsWith (newThenOld 31)) true twoFeeds
      (.start (restarted 31) fun _ => none)).trace
    ∧ (savedUrls 31).length = 31
  := by
  refine ⟨by decide +kernel, lists_feedsWith _, rfl, by decide +kernel, ?_, by decide +kernel⟩
  have hcalls : calls (checkFeeds (feedsWith (newThenOld 31)) true twoFeeds
      (.start (restarted 31) fun _ => none)).trace = (savedUrls 31).drop 30 ++ [newUrl] := by
    decide +kernel
  rw [hcalls]
  apply List.subset_append_left

end Trailermatic
