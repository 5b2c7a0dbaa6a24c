import Trailermatic.Capacity
import Trailermatic.History

/-!
# The history and its limit

`addToBucket` removes at most one entry, so it keeps a history within its limit but brings
none back to it.  `history_within_iff` says in which runs the history is within its limit
after every call.
-/

namespace Trailermatic

/-! ### Calls of `addToBucket` -/

/-- A call of `addToBucket`: the length of the history before it, and the capacity. -/
structure BucketCall where
  before : ℕ
  max : ℕ
deriving DecidableEq

/-- The length of the history after the call. -/
def BucketCall.after (c : BucketCall) : ℕ :=
  if 0 < c.max ∧ c.max < c.before + 1 then c.before else c.before + 1

theorem listCount_addToBucket (identifier : Str) (head : List Str) (maxBucketItems : ℕ) :
  listCount (addToBucket identifier head maxBucketItems)
    = BucketCall.after ⟨listCount head, maxBucketItems⟩
  := by
  have hpush := addToBucket_eq_push (Window.all head) identifier maxBucketItems
  apply Eq.trans (congrArg List.length hpush)
  apply Window.length_kept_push

/-- After the call the history is within its limit, if it has one. -/
def BucketCall.Within (c : BucketCall) : Prop :=
  0 < c.max → c.after ≤ c.max

theorem BucketCall.within_iff (c : BucketCall) :
  c.Within ↔ (0 < c.max → c.before ≤ c.max)
  := by
  rw [Within, after]
  apply forall_congr'
  intro hmax
  split_ifs
  · rfl
  · constructor
    · omega
    · omega

/-! ### Sequences of calls -/

/-- The length of a history of `start` entries after some calls, newest first. -/
def lengthAfter (start : ℕ) : List BucketCall → ℕ
  | [] => start
  | c :: _ => c.after

/-- Each call finds the history that the calls before it left. -/
def Follow (start : ℕ) : List BucketCall → Prop
  | [] => True
  | c :: calls => c.before = lengthAfter start calls ∧ Follow start calls

/-- The newest call had a limit, which was not above `max`. -/
def Covers (calls : List BucketCall) (max : ℕ) : Prop :=
  ∃ c ∈ calls.head?, 0 < c.max ∧ c.max ≤ max

/-- A call that is the first one, or that comes after one without a limit or with a larger
limit, finds the history within its limit. -/
def Entered : List BucketCall → Prop
  | [] => True
  | c :: calls => (0 < c.max → Covers calls c.max ∨ c.before ≤ c.max) ∧ Entered calls

/-- The history is within its limit after every call exactly when each call finds it so to
which no call before it has seen. -/
theorem within_iff_entered {start : ℕ} {calls : List BucketCall} (h : Follow start calls) :
  (∀ c ∈ calls, c.Within) ↔ Entered calls
  := by
  induction calls with
  | nil => simp [Entered]
  | cons c calls ih =>
    rw [List.forall_mem_cons, Entered, ih h.2, c.within_iff]
    apply and_congr_left
    intro hentered
    apply forall_congr'
    intro hmax
    constructor
    · intro hbefore
      right
      apply hbefore
    · rintro (⟨d, hd, hpos, hle⟩ | hbefore)
      · have hwithin : d.Within := (ih h.2).mpr hentered d (List.mem_of_mem_head? hd)
        have hlength : lengthAfter start calls = d.after := by
          obtain ⟨rest, rfl⟩ := List.head?_eq_some_iff.mp hd
          rfl
        rw [h.1, hlength]
        apply Nat.le_trans (hwithin hpos) hle
      · apply hbefore

/-! ### The calls of a run -/

/-- The call of `addToBucket` that an event records. -/
def Event.bucketCall : Event → Option BucketCall
  | .record _ count maxBucketItems => some ⟨count, maxBucketItems⟩
  | _ => none

/-- The calls of `addToBucket`, newest first. -/
def bucketCalls (trace : List Event) : List BucketCall :=
  trace.filterMap Event.bucketCall

theorem bucketCalls_append_notices {notices : List Event} (h : ∀ e ∈ notices, e.isNotice = true)
    (trace : List Event) :
  bucketCalls (notices ++ trace) = bucketCalls trace
  := filterMap_append_notices (fun _ _ _ => rfl) (fun _ _ => rfl) h trace

/-- The calls of a run that began with a history of `start` entries account for its
length. -/
structure Accounts (start : ℕ) (w : World) : Prop where
  follow : Follow start (bucketCalls w.trace)
  length : listCount w.session.downloads = lengthAfter start (bucketCalls w.trace)

theorem Accounts.step {env : Env} {start : ℕ} {w w' : World} (h : Accounts start w)
    (hstep : Step env w w') :
  Accounts start w'
  := by
  cases hstep with
  | between => exact ⟨h.follow, h.length⟩
  | visit item url =>
    have hkeep {w' : World} (hsession : w'.session = w.session)
        (hcalls : bucketCalls w'.trace = bucketCalls w.trace) : Accounts start w' := by
      constructor
      · rw [hcalls]
        apply h.follow
      · rw [hcalls, hsession]
        apply h.length
    cases processURL_visited env w item url with
    | skipped _ hsession _ htrace =>
      apply hkeep hsession
      rw [htrace]
    | failed _ _ hsession _ notices honly htrace =>
      apply hkeep hsession
      rw [htrace]
      apply bucketCalls_append_notices honly (visitEvent env w url :: w.trace)
    | completed _ _ hsession _ notices honly htrace =>
      have hcalls : bucketCalls (processURL env w item url).trace
          = ⟨listCount w.session.downloads, w.session.maxBucketItems.toNat⟩
            :: bucketCalls w.trace := by
        rw [htrace]
        apply congrArg (List.cons _)
        apply bucketCalls_append_notices honly (visitEvent env w url :: w.trace)
      constructor
      · rw [hcalls]
        exact ⟨h.length, h.follow⟩
      · rw [hcalls, hsession]
        apply listCount_addToBucket

theorem accounts_run {env : Env} {start : ℕ} {w w' : World} (hrun : Run env w w')
    (h : Accounts start w) :
  Accounts start w'
  := by
  induction hrun with
  | refl => apply h
  | tail _ hstep ih => apply ih.step hstep

/-- A session whose history was loaded from the state file. -/
def Session.loaded (s : Session) (file : Option Bytes) : Session :=
  { s with downloads := (loadState file []).2 }

theorem run_moment (env : Env) (w : World) (passes k : ℕ) :
  Run env w (w.moment env passes k)
  := Relation.ReflTransGen.trans (run_mainLoop env passes true w) (run_checkFeeds env _ _ _)

/-- At every moment of a run the calls account for the history, and it was within its limit
after each of them exactly when each call found it so that is the first one, or comes after
one without a limit or with a larger limit. -/
theorem history_within_iff (env : Env) (s : Session) (file : Option Bytes) (disk : Disk)
    (passes k : ℕ) :
  let start := listCount (loadState file []).2
  let w := (World.start (s.loaded file) disk).moment env passes k
  Follow start (bucketCalls w.trace)
    ∧ listCount w.session.downloads = lengthAfter start (bucketCalls w.trace)
    ∧ ((∀ c ∈ bucketCalls w.trace, c.Within) ↔ Entered (bucketCalls w.trace))
  := by
  intro start w
  have haccounts : Accounts start w := by
    apply accounts_run (run_moment env _ passes k)
    exact ⟨trivial, rfl⟩
  exact ⟨haccounts.follow, haccounts.length, within_iff_entered haccounts.follow⟩

/-- A state file with `count` entries. -/
def longFile (count : ℕ) : Bytes :=
  (List.replicate count (text "http://a.example/trailer" ++ [newline])).flatten

/-- A run that loads 32 entries and records another one. -/
def longRun : World :=
  mainLoop (.plain [newUrl] fun _ => .plain 200) 1 true
    (.start ((Session.plain [plainFeed] []).loaded (some (longFile 32))) fun _ => none)

/-- The history of 32 entries from the state file stays larger than its limit of 31. -/
theorem history_not_within :
  longRun.session.maxBucketItems = 31 ∧ bucketCalls longRun.trace = [⟨32, 31⟩]
    ∧ listCount longRun.session.downloads = 32
  := by
  decide +kernel

end Trailermatic
