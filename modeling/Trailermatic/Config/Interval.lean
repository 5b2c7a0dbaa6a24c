import Mathlib.Data.List.Induction
import Trailermatic.Config.Options
import Trailermatic.Config.Calls

/-!
# The interval

The option `interval` passes through three widths: `atoi` cuts a `long` to an `int`, and
the session keeps the `int` in a byte.  `setOption_interval_iff` says for which parameters
the session keeps the number that is written, and for which configurations the main loop
sleeps at least a minute.
-/

namespace Trailermatic

/-- The argument of `sleep` in the main loop. -/
def sleepSeconds (s : Session) : ℕ :=
  s.checkInterval.toNat * 60

/-! ### Numbers -/

theorem toNat_ofInt (n : ℤ) :
  (UInt8.ofInt n).toNat = (n % 256).toNat
  := by
  rw [UInt8.ofInt, UInt8.toNat_ofNat']
  omega

theorem atoi_of_le {str : Bytes} (h : digitsValue str ≤ INT_MAX) :
  atoi str = digitsValue str
  := by
  rw [INT_MAX] at h
  have hmin : min (digitsValue str : ℤ) LONG_MAX = digitsValue str := by
    rw [LONG_MAX]
    omega
  rw [atoi, hmin]
  apply Int.bmod_eq_of_le
  · omega
  · omega

/-- A parameter that writes a number from 1 on that an `int` can hold. -/
def Writes (param : Bytes) : Prop :=
  param.all isdigit ∧ 1 ≤ digitsValue param ∧ digitsValue param ≤ INT_MAX

instance (param : Bytes) : Decidable (Writes param) :=
  inferInstanceAs (Decidable (_ ∧ _))

/-- The number that the interval `old` is to be replaced by. -/
def configured (old : UInt8) (param : Bytes) : ℕ :=
  if Writes param then digitsValue param else old.toNat

/-- A number fits into a byte; and digits whose number does not fit into an `int` are not
read as a positive one, or as one that leaves the interval as it is. -/
def IntervalFits (old : UInt8) (param : Bytes) : Prop :=
  param.all isdigit →
    (1 ≤ digitsValue param → digitsValue param ≤ INT_MAX → digitsValue param ≤ 255)
      ∧ (INT_MAX < digitsValue param → atoi param ≤ 0 ∨ UInt8.ofInt (atoi param) = old)

/-- The interval after the option. -/
def intervalAfter (old : UInt8) (param : Bytes) : UInt8 :=
  if 0 < parseUInt param then UInt8.ofInt (parseUInt param) else old

/-- The interval is the number that is written exactly if that number fits. -/
theorem intervalAfter_iff (old : UInt8) (param : Bytes) :
  (intervalAfter old param).toNat = configured old param ↔ IntervalFits old param
  := by
  simp only [intervalAfter, configured, IntervalFits, Writes, parseUInt]
  by_cases hdigits : param.all isdigit = true
  · by_cases hmax : digitsValue param ≤ INT_MAX
    · have hatoi := atoi_of_le hmax
      by_cases hpos : 1 ≤ digitsValue param
      · have hnum : (0 : ℤ) < digitsValue param := by omega
        have hlarge : ¬ INT_MAX < digitsValue param := Nat.not_lt_of_le hmax
        simp only [hdigits, hpos, hmax, hatoi, hnum, hlarge, and_self, if_true, toNat_ofInt,
          forall_const, false_imp_iff, and_true]
        omega
      · have hzero : digitsValue param = 0 := by omega
        simp [hdigits, hatoi, hzero]
    · have hlarge : INT_MAX < digitsValue param := Nat.lt_of_not_le hmax
      by_cases hnum : 0 < atoi param
      · have hsign : ¬ atoi param ≤ 0 := by omega
        simp only [hdigits, hmax, hlarge, hnum, hsign, and_false, and_self, if_true, if_false,
          UInt8.toNat_inj, forall_const, false_imp_iff, implies_true, true_and, false_or]
      · have hsign : atoi param ≤ 0 := by omega
        simp [hmax, hnum, hsign]
  · simp [hdigits]

/-! ### The option -/

theorem setOption_interval (pcre : Pcre) (home : Option Str) (s : Session) (param : Bytes)
    (type : OptionType) :
  setOption pcre home (some s) (text "interval") param type
    = some { s with checkInterval := intervalAfter s.checkInterval param }
  := by
  have hname : text "interval" ≠ text "url" ∧ text "interval" ≠ text "feed"
      ∧ text "interval" ≠ text "download-folder" ∧ text "interval" ≠ text "statefile" := by
    decide
  simp only [setOption, Option.bind_some, hname, if_false, if_true, intervalAfter]
  split_ifs
  · rfl
  · rfl

/-- Only the option `interval` changes the interval. -/
theorem setOption_checkInterval {pcre : Pcre} {home : Option Str} {s s' : Session}
    {opt param : Bytes} {type : OptionType}
    (h : setOption pcre home (some s) opt param type = some s') :
  s'.checkInterval
    = if opt = text "interval" then intervalAfter s.checkInterval param else s.checkInterval
  := by
  by_cases hopt : opt = text "interval"
  · rw [hopt, setOption_interval] at h
    cases h
    rw [if_pos hopt]
  · rw [if_neg hopt]
    cases effect_of_setOption h with
    | interval hinterval => exact absurd hinterval hopt
    | url | feed | downloadFolder | statefile | patterns | filter | prowlKey | downloadDoneScript
      | none => rfl

/-! ### Configurations -/

/-- The number of the last option `interval` that is read as a positive one. -/
def lastInterval (calls : List (Bytes × Bytes × OptionType)) : ℤ :=
  calls.foldl
    (fun n call => if call.1 = text "interval" ∧ 0 < parseUInt call.2.1 then parseUInt call.2.1
      else n)
    AM_DEFAULT_INTERVAL.toNat

theorem applyCalls_none (pcre : Pcre) (home : Option Str)
    (calls : List (Bytes × Bytes × OptionType)) :
  applyCalls (setOption pcre home) none calls = none
  := by
  induction calls with
  | nil => rfl
  | cons call calls ih => apply ih

/-- After the calls the interval is the last number, cut to a byte. -/
theorem checkInterval_applyCalls {pcre : Pcre} {home : Option Str} {s s' : Session}
    {calls : List (Bytes × Bytes × OptionType)} (hs : s.checkInterval = AM_DEFAULT_INTERVAL)
    (h : applyCalls (setOption pcre home) (some s) calls = some s') :
  s'.checkInterval = UInt8.ofInt (lastInterval calls)
  := by
  induction calls using List.reverseRecOn generalizing s' with
  | nil =>
    cases h
    rw [hs]
    rfl
  | append_singleton calls call ih =>
    rw [applyCalls, List.foldl_append, List.foldl_cons, List.foldl_nil, ← applyCalls] at h
    cases hcalls : applyCalls (setOption pcre home) (some s) calls with
    | none =>
      rw [hcalls] at h
      cases h
    | some s₁ =>
      rw [hcalls] at h
      rw [setOption_checkInterval h, ih hcalls, lastInterval, lastInterval, List.foldl_append,
        List.foldl_cons, List.foldl_nil, intervalAfter]
      split_ifs with hopt hnum hboth hboth hboth
      · rfl
      · apply absurd ⟨hopt, hnum⟩ hboth
      · apply absurd hboth.2 hnum
      · rfl
      · apply absurd hboth.1 hopt
      · rfl

/-- The session keeps the number that is written exactly if it fits; and the main loop
sleeps at least a minute exactly if the last number read is not a multiple of 256. -/
theorem setOption_interval_iff (pcre : Pcre) (home : Option Str) :
  (∀ (s : Session) (param : Bytes) (type : OptionType),
      (∃ s', setOption pcre home (some s) (text "interval") param type = some s'
          ∧ s'.checkInterval.toNat = configured s.checkInterval param)
        ↔ IntervalFits s.checkInterval param)
    ∧ ∀ (file : Option Bytes) (beyond : Bytes) (s : Session),
      s.checkInterval = AM_DEFAULT_INTERVAL → ∀ r s',
        parseConfigFile (setOption pcre home) file beyond (some s) = some r →
          r.state = some s' →
            ∃ recorded, parseConfigFile record file beyond [] = some recorded
              ∧ (60 ≤ sleepSeconds s' ↔ ¬ (256 : ℤ) ∣ lastInterval recorded.state)
  := by
  constructor
  · intro s param type
    rw [setOption_interval, ← intervalAfter_iff]
    simp
  · intro file beyond s hs r s' hr hstate
    rw [parseConfigFile_calls] at hr
    obtain ⟨recorded, hrecorded, rfl⟩ := Option.map_eq_some_iff.mp hr
    use recorded, hrecorded
    rw [sleepSeconds, checkInterval_applyCalls hs hstate, toNat_ofInt]
    omega

theorem setOption_interval_sample :
  ∃ recorded, parseConfigFile record (some (text "interval = 45\n")) (text "x") []
      = some recorded
    ∧ (60 ≤ sleepSeconds { Session.plain [] [] with checkInterval := 45 }
      ↔ ¬ (256 : ℤ) ∣ lastInterval recorded.state)
  := by
  obtain ⟨r, hr, hcalls⟩ :
      ∃ r, parseConfigFile record (some (text "interval = 45\n")) (text "x") [] = some r
        ∧ r.state = [(text "interval", text "45", .int)] := ⟨_, rfl, by decide⟩
  apply (setOption_interval_iff .plain none).2 (some (text "interval = 45\n")) (text "x")
    (Session.plain [] []) rfl (r.mapState (applyCalls _ (some (Session.plain [] []))))
  · rw [parseConfigFile_calls, hr]
    rfl
  · rw [Parsed.mapState, hcalls]
    rfl

/-- An interval of 256 minutes is kept as 0, and the main loop does not sleep. -/
theorem interval_256 :
  ∃ s', setOption .plain none (some (Session.plain [] [])) (text "interval") (text "256") .int
      = some s'
    ∧ s'.checkInterval.toNat ≠ configured AM_DEFAULT_INTERVAL (text "256")
    ∧ sleepSeconds s' = 0
  := ⟨_, rfl, by decide, by decide⟩

end Trailermatic
