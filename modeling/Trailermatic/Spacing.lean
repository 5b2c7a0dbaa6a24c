import Trailermatic.Lifecycle

/-!
# Downloads that are made again

The history forgets a URL, and then the URL can be downloaded again.  `downloads_spaced` says
that this takes as many other downloads as the history has room for, over all processes.
-/

namespace Trailermatic

/-- The history as a window on the log. -/
def Remembers.window {start history : List Str} {past : Past} (h : Remembers start past history) :
    Window Str :=
  ⟨past.urls ++ start, history, h.recent⟩

/-- A URL that is downloaded is not one of the last in the log. -/
theorem Remembers.notMem_take {start history : List Str} {past : Past}
    (h : Remembers start past history) {k : ℕ} (hlimits : ∀ c ∈ past.limits, 0 < c → k ≤ c)
    {url : Str} (hfresh : url ∉ history) :
  url ∉ (past.urls ++ start).take k
  := Window.Filled.notMem_take (w := h.window) h.filled hlimits hfresh

/-- The downloads of a machine are spaced. -/
def Machine.Spaced (k : ℕ) (start : List Str) (m : Machine) : Prop :=
  (∀ c ∈ m.log.limits, 0 < c → k ≤ c) → Window.Spaced k (m.log.urls ++ start)

theorem Transition.spaced {statefile : Str} {start : List Str} {k : ℕ} {m m' : Machine}
    (h : Transition statefile m m') (hm : m.Remembering statefile start)
    (hspaced : m.Spaced k start) :
  m'.Spaced k start
  := by
  cases h with
  | start => apply hspaced
  | kill => apply hspaced
  | shutdown => apply hspaced
  | others => apply hspaced
  | step past env w w' hstep =>
    cases hstep with
    | between => apply hspaced
    | visit item url =>
      rcases (processURL_visited env w item url).history with
        ⟨-, hsame, hlimits, -⟩ | ⟨hattempts, -, hcons, hlimits, -⟩
      · rw [Machine.Spaced, Machine.log, Past.after, hsame, hlimits]
        apply hspaced
      · rw [Machine.Spaced, Machine.log, Past.after, hcons, hlimits]
        intro hcaps
        have hbefore : ∀ c ∈ (past.after w).limits, 0 < c → k ≤ c :=
          fun c hc => hcaps c (List.mem_cons_of_mem _ hc)
        obtain ⟨loaded, hliving, hremembers⟩ := hm
        constructor
        · apply (hremembers.after hliving.history).notMem_take hbefore hattempts.fresh
        · apply hspaced hbefore

/-- However often the daemon is started, shut down and killed between two visits: after a URL
was downloaded, or found in the first state file, at least `k` other downloads complete before
it is downloaded again, if the history never had a room for less than `k`. -/
theorem downloads_spaced {statefile : Str} {disk : Disk} {m : Machine} {k : ℕ}
    (hrun : Relation.ReflTransGen (Transition statefile) (.off ⟨[], []⟩ disk) m)
    (hnodup : (loadState (disk statefile.bytes) []).2.Nodup)
    (hloadable : ∀ url ∈ m.log.urls, Loadable url)
    (hlimits : ∀ c ∈ m.log.limits, 0 < c → k ≤ c) {newer between older : List Str} {url : Str}
    (hagain : m.log.urls ++ (loadState (disk statefile.bytes) []).2
      = newer ++ url :: (between ++ url :: older)) :
  k ≤ between.length
  := by
  have hspaced : m.Remembering statefile (loadState (disk statefile.bytes) []).2
      ∧ m.Spaced k (loadState (disk statefile.bytes) []).2 := by
    clear hagain hlimits
    induction hrun with
    | refl =>
      refine ⟨⟨List.prefix_refl _, hnodup, Or.inl (Nat.le_refl _)⟩, ?_⟩
      intro _
      apply Window.spaced_of_nodup hnodup
    | tail _ htransition ih =>
      obtain ⟨hremembering, hspaced⟩ :=
        ih fun url hurl => hloadable url (htransition.urls_subset hurl)
      exact ⟨htransition.remembering hremembering hloadable,
        htransition.spaced hremembering hspaced⟩
  have h := hspaced.2 hlimits
  rw [hagain] at h
  apply h.le_length

/-- A session with room for one entry. -/
def narrowSession : Session :=
  { Session.plain [] [] with maxBucketItems := 1 }

/-- Others remove the file of `longUrl` all the time. -/
def removingEnv : Env :=
  .plain [] fun _ => { Visit.plain 200 with
    others := fun disk p => if p = text "/t/b.mov" then none else disk p }

/-- A process that has visited some URLs. -/
def visitedWorld (urls : List Str) : World :=
  urls.foldl (fun w url => processURL removingEnv w ⟨none, [url]⟩ url)
    (.start narrowSession fun _ => none)

theorem run_visitedWorld (urls : List Str) :
  Relation.ReflTransGen (Transition narrowSession.statefile) (.off ⟨[], []⟩ fun _ => none)
    (.on ⟨[], []⟩ removingEnv (visitedWorld urls))
  := by
  induction urls using List.reverseRecOn with
  | nil =>
    apply Relation.ReflTransGen.single
    apply Transition.start _ _ _ narrowSession rfl rfl (apart_plain rfl (by decide))
    exact ⟨fun _ => rfl, fun _ _ => rfl⟩
  | append_singleton urls url ih =>
    apply ih.tail
    apply Transition.step
    rw [visitedWorld, visitedWorld, List.foldl_append]
    apply Step.visit

theorem downloads_spaced_narrow :
  successes (visitedWorld [longUrl, nextUrl, longUrl]).trace = [longUrl, nextUrl, longUrl]
    ∧ 1 ≤ [nextUrl].length
  := by
  have hsuccesses : successes (visitedWorld [longUrl, nextUrl, longUrl]).trace
      = [longUrl, nextUrl, longUrl] := by decide
  have hcapacities : capacities (visitedWorld [longUrl, nextUrl, longUrl]).trace = [1, 1, 1] := by
    decide
  refine ⟨hsuccesses, ?_⟩
  have hlog : (Machine.log (.on ⟨[], []⟩ removingEnv (visitedWorld [longUrl, nextUrl, longUrl])))
      = ⟨[longUrl, nextUrl, longUrl], [1, 1, 1]⟩ := by
    rw [Machine.log, Past.after, hsuccesses, hcapacities]
    rfl
  apply downloads_spaced (run_visitedWorld [longUrl, nextUrl, longUrl]) List.nodup_nil
  · rw [hlog]
    decide
  · rw [hlog]
    decide
  · rw [hlog]
    exact (rfl : _ = [] ++ longUrl :: ([nextUrl] ++ longUrl :: []))

end Trailermatic
