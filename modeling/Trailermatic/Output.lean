import Trailermatic.Bytes
import Trailermatic.Library.Ledger
import Mathlib.Data.List.Induction

/-!
# Logging

Messages go to a log file, to syslog or to stderr.  Which of them it is depends on the calls of
`logInit` and `logClose` before: `log_sinks` says how, and that of the files opened the last
one only can still be open.
-/

namespace Trailermatic

def MSGSIZE_MAX : ℕ := 5000

/-- The levels of messages. -/
inductive DebugType where
  | P_NONE
  | P_ERROR
  | P_MSG
  | P_INFO
  | P_INFO2
  | P_DBG
  | P_MEM
deriving DecidableEq

/-- The numbers of the levels, which are compared with the verbosity. -/
def DebugType.value : DebugType → ℤ
  | .P_NONE => -1
  | .P_ERROR => 0
  | .P_MSG => 1
  | .P_INFO => 2
  | .P_INFO2 => 3
  | .P_DBG => 4
  | .P_MEM => 5

/-- Where messages go.  The files that were opened are numbered. -/
inductive Sink where
  | syslog
  | file (n : ℕ)
  | stderr
deriving DecidableEq

/-- The variables of the module, the files opened and closed, and what was written where,
newest first. -/
structure Logger where
  logFP : Option ℕ
  msglevel : Int8
  useSyslog : Bool
  files : Ledger
  written : List (Sink × Bytes)

/-- The logger as the program starts. -/
def Logger.start : Logger :=
  ⟨none, 0, false, .empty, []⟩

/-- Where the next message goes. -/
def Logger.sink (l : Logger) : Sink :=
  if l.useSyslog then .syslog else l.logFP.elim .stderr .file

/-! ### Messages -/

/-- The parts of a local time that are printed. -/
structure Tm where
  year : ℕ
  mon : ℕ
  mday : ℕ
  hour : ℕ
  min : ℕ
  sec : ℕ

def twoDigits (n : ℕ) : Bytes :=
  [48 + UInt8.ofNat (n / 10 % 10), 48 + UInt8.ofNat (n % 10)]

/-- The time that a line of the log begins with. -/
def getlogtimeStr (now : Tm) : Bytes :=
  twoDigits now.year ++ text "/" ++ twoDigits now.mon ++ text "/" ++ twoDigits now.mday
    ++ text " " ++ twoDigits now.hour ++ text ":" ++ twoDigits now.min ++ text ":"
    ++ twoDigits now.sec

/-- A call of `am_printf`: the place in the source that it comes from, its type, the time if it
is to be printed, and what its format and arguments give. -/
structure LogMessage where
  file : Bytes
  line : ℕ
  type : DebugType
  time : Option Tm
  msg : Bytes

/-- What `%d` prints. -/
def decimal (n : ℕ) : Bytes :=
  (Nat.toDigits 10 n).map fun c => UInt8.ofNat c.toNat

/-- The time in brackets, that is left out for syslog. -/
def LogMessage.tmpStr (m : LogMessage) (useSyslog : Bool) : Bytes :=
  match m.time with
  | some now => if useSyslog then [] else text "[" ++ getlogtimeStr now ++ text "] "
  | none => []

/-- The line that is printed. -/
def LogMessage.buf (m : LogMessage) (useSyslog : Bool) : Bytes :=
  let msgStr := m.msg.take (MSGSIZE_MAX - 1)
  if DebugType.P_INFO2.value ≤ m.type.value ∨ m.type = .P_ERROR then
    m.tmpStr useSyslog ++ m.file ++ text ", " ++ decimal m.line ++ text ": " ++ msgStr
      ++ text "\n"
  else m.tmpStr useSyslog ++ msgStr ++ text "\n"

/-- Write a message, if its level is not above the verbosity. -/
def amPrintf (l : Logger) (m : LogMessage) : Logger :=
  if m.type.value ≤ l.msglevel.toInt then
    { l with written := (l.sink, m.buf l.useSyslog) :: l.written }
  else l

/-! ### Opening and closing -/

/-- Close the log file, if one is open. -/
def logClose (l : Logger) : Logger :=
  match l.logFP with
  | some n => { l with logFP := none, files := l.files.release n }
  | none => l

/-- `source` is `__FILE__`, the name under which the source of this module was compiled. -/
def openFailed (source logfile : Bytes) : LogMessage :=
  ⟨source, 64, .P_ERROR, none,
    text "[log_init] Opening '" ++ logfile ++ text "' for logging failed"⟩

/-- The part of `logInit` for a name.  `opened` says whether the file can be opened. -/
def openLog (source : Bytes) (l : Logger) (logfile : Bytes) (opened : Bool) : Logger :=
  let l := if l.logFP.isSome || l.useSyslog then logClose l else l
  if logfile = text "syslog" then { l with useSyslog := true }
  else if opened then { l with logFP := some l.files.acquired, files := l.files.acquire }
  else amPrintf { l with logFP := none } (openFailed source logfile)

/-- Set the verbosity and open the log file, if a name is given. -/
def logInit (source : Bytes) (l : Logger) (logfile : Option Bytes) (msglevel : Int8)
    (opened : Bool) : Logger :=
  let l := { l with msglevel := msglevel }
  match logfile with
  | none => l
  | some [] => l
  | some logfile => openLog source l logfile opened

/-- The calls of the functions. -/
inductive LogCall where
  | init (logfile : Option Bytes) (msglevel : Int8) (opened : Bool)
  | close
  | printf (m : LogMessage)

/-- What a call does to the state of the log. -/
def LogCall.run (source : Bytes) (l : Logger) : LogCall → Logger
  | .init logfile msglevel opened => logInit source l logfile msglevel opened
  | .close => logClose l
  | .printf m => amPrintf l m

/-- The logger after some calls. -/
def logger (source : Bytes) (calls : List LogCall) : Logger :=
  calls.foldl (LogCall.run source) .start

theorem logger_append (source : Bytes) (calls : List LogCall) (call : LogCall) :
  logger source (calls ++ [call]) = call.run source (logger source calls)
  := by
  rw [logger, List.foldl_append]
  rfl

/-! ### What the calls do -/

/-- The call asks for syslog. -/
def LogCall.Syslog : LogCall → Prop
  | .init logfile _ _ => logfile = some (text "syslog")
  | _ => False

instance : DecidablePred LogCall.Syslog
  | .init _ _ _ => inferInstanceAs (Decidable (_ = _))
  | .close => inferInstanceAs (Decidable False)
  | .printf _ => inferInstanceAs (Decidable False)

/-- The call opens a log file. -/
def LogCall.Opens : LogCall → Prop
  | .init logfile _ opened =>
    opened = true ∧ logfile ≠ none ∧ logfile ≠ some [] ∧ logfile ≠ some (text "syslog")
  | _ => False

instance : DecidablePred LogCall.Opens
  | .init _ _ _ => inferInstanceAs (Decidable (_ ∧ _))
  | .close => inferInstanceAs (Decidable False)
  | .printf _ => inferInstanceAs (Decidable False)

/-- The call leaves a log file that is open. -/
def LogCall.Leaves : LogCall → Prop
  | .init logfile _ _ => logfile ≠ none ∧ logfile ≠ some []
  | .close => True
  | .printf _ => False

instance : DecidablePred LogCall.Leaves
  | .init _ _ _ => inferInstanceAs (Decidable (_ ∧ _))
  | .close => inferInstanceAs (Decidable True)
  | .printf _ => inferInstanceAs (Decidable False)

/-- Messages do not change where messages go, or the files. -/
theorem amPrintf_eq (l : Logger) (m : LogMessage) :
  (amPrintf l m).useSyslog = l.useSyslog ∧ (amPrintf l m).logFP = l.logFP
    ∧ (amPrintf l m).files = l.files
  := by
  rw [amPrintf]
  split_ifs
  · exact ⟨rfl, rfl, rfl⟩
  · exact ⟨rfl, rfl, rfl⟩

/-- `logInit` closes the file that is open. -/
theorem closes_eq (l : Logger) :
  (if l.logFP.isSome || l.useSyslog then logClose l else l) = logClose l
  := by
  cases hfile : l.logFP with
  | none => simp [logClose, hfile]
  | some n => simp

/-- What a call can do to the variables. -/
inductive LogEffect (l : Logger) (call : LogCall) (l' : Logger) : Prop
  | keeps : ¬ call.Syslog → ¬ call.Leaves → ¬ call.Opens → l'.useSyslog = l.useSyslog →
    l'.logFP = l.logFP → l'.files = l.files → LogEffect l call l'
  | leaves : call.Leaves → ¬ call.Opens → l'.useSyslog = (l.useSyslog || decide call.Syslog) →
    l'.logFP = none → l'.files = (logClose l).files → LogEffect l call l'
  | opens : call.Opens → ¬ call.Syslog → l'.useSyslog = l.useSyslog →
    l'.logFP = some (logClose l).files.acquired → l'.files = (logClose l).files.acquire →
    LogEffect l call l'

theorem logClose_eq (l : Logger) :
  (logClose l).useSyslog = l.useSyslog ∧ (logClose l).logFP = none
    ∧ (logClose l).files.acquired = l.files.acquired
  := by
  cases hfile : l.logFP with
  | none => simp [logClose, hfile]
  | some n => simp [logClose, hfile, Ledger.release]

/-- A name is given. -/
theorem openLog_effect (source : Bytes) (l : Logger) {logfile : Bytes} (hne : logfile ≠ [])
    (msglevel : Int8) (opened : Bool) :
  LogEffect l (.init (some logfile) msglevel opened) (openLog source l logfile opened)
  := by
  have hleaves : (LogCall.init (some logfile) msglevel opened).Leaves :=
    ⟨Option.some_ne_none _, fun h => hne (Option.some.inj h)⟩
  obtain ⟨hsyslog, hfile, -⟩ := logClose_eq l
  rw [openLog, closes_eq]
  split_ifs with hname hopened
  · apply LogEffect.leaves hleaves
    · simp [LogCall.Opens, hname]
    · simp [LogCall.Syslog, hname]
    · apply hfile
    · rfl
  · apply LogEffect.opens
    · exact ⟨hopened, hleaves.1, hleaves.2, fun h => hname (Option.some.inj h)⟩
    · simpa [LogCall.Syslog] using hname
    · apply hsyslog
    · rfl
    · rfl
  · obtain ⟨huse, hnone, hfiles⟩ :=
      amPrintf_eq { logClose l with logFP := none } (openFailed source logfile)
    apply LogEffect.leaves hleaves
    · simp [LogCall.Opens, hopened]
    · rw [huse, hsyslog]
      simp [LogCall.Syslog, hname]
    · rw [hnone]
    · rw [hfiles]

/-- The level has no part in it. -/
theorem LogEffect.of_level {l l' : Logger} {call : LogCall} (msglevel : Int8)
    (h : LogEffect { l with msglevel := msglevel } call l') :
  LogEffect l call l'
  := by
  have hfiles : (logClose { l with msglevel := msglevel }).files = (logClose l).files := by
    cases hfile : l.logFP with
    | none => simp [logClose, hfile]
    | some n => simp [logClose, hfile]
  cases h with
  | keeps hsyslog hleaves hopens huse hfile hfile' =>
    exact LogEffect.keeps hsyslog hleaves hopens huse hfile hfile'
  | leaves hleaves hopens huse hfile hfile' =>
    exact LogEffect.leaves hleaves hopens huse hfile (hfile'.trans hfiles)
  | opens hopens hsyslog huse hfile hfile' =>
    rw [hfiles] at hfile hfile'
    exact LogEffect.opens hopens hsyslog huse hfile hfile'

theorem LogCall.effect (source : Bytes) (l : Logger) (call : LogCall) :
  LogEffect l call (call.run source l)
  := by
  cases call with
  | close =>
    obtain ⟨hsyslog, hfile, -⟩ := logClose_eq l
    have hleaves : LogCall.close.Leaves := trivial
    have hnone : ¬ LogCall.close.Syslog := id
    apply LogEffect.leaves hleaves id _ hfile rfl
    simp [hsyslog, hnone]
  | printf m =>
    obtain ⟨hsyslog, hfile, hfiles⟩ := amPrintf_eq l m
    exact LogEffect.keeps id id id hsyslog hfile hfiles
  | init logfile msglevel opened =>
    rcases logfile with _ | _ | ⟨b, logfile⟩
    · apply LogEffect.keeps
      all_goals simp [Syslog, Leaves, Opens, run, logInit]
    · apply LogEffect.keeps
      all_goals simp [Syslog, Leaves, Opens, run, logInit, text]
    · apply LogEffect.of_level msglevel
      apply openLog_effect source _ (List.cons_ne_nil b logfile)

/-! ### Any calls -/

/-- The file that the last call of those that leave an open file has opened. -/
def LastOpened (calls : List LogCall) (n : ℕ) : Prop :=
  ∃ before call after, calls = before ++ call :: after ∧ call.Opens
    ∧ before.countP (·.Opens) = n ∧ ∀ c ∈ after, ¬ c.Leaves

theorem LogCall.Opens.leaves {call : LogCall} (h : call.Opens) :
  call.Leaves
  := by
  cases call with
  | init logfile msglevel opened => exact ⟨h.2.1, h.2.2.1⟩
  | close => apply trivial
  | printf m => apply h

theorem lastOpened_append {calls : List LogCall} {call : LogCall} {n : ℕ} :
  LastOpened (calls ++ [call]) n
    ↔ call.Opens ∧ calls.countP (·.Opens) = n ∨ ¬ call.Leaves ∧ LastOpened calls n
  := by
  constructor
  · rintro ⟨before, c, after, heq, hopens, hcount, hafter⟩
    rcases List.eq_nil_or_concat after with rfl | ⟨after, last, rfl⟩
    · obtain ⟨rfl, hcall⟩ := List.append_inj' heq rfl
      obtain rfl := List.singleton_injective hcall
      left
      exact ⟨hopens, hcount⟩
    · rw [List.concat_eq_append, ← List.cons_append, ← List.append_assoc] at heq
      obtain ⟨rfl, hcall⟩ := List.append_inj' heq rfl
      obtain rfl := List.singleton_injective hcall
      right
      refine ⟨hafter _ (by simp), before, c, after, rfl, hopens, hcount, ?_⟩
      intro d hd
      apply hafter d
      simp [hd]
  · rintro (⟨hopens, hcount⟩ | ⟨hleaves, before, c, after, rfl, hopens, hcount, hafter⟩)
    · exact ⟨calls, call, [], rfl, hopens, hcount, List.forall_mem_nil _⟩
    · refine ⟨before, c, after ++ [call], by simp, hopens, hcount, ?_⟩
      intro d hd
      rcases List.mem_append.mp hd with hd | hd
      · apply hafter d hd
      · rw [List.mem_singleton.mp hd]
        apply hleaves

/-- What holds of the logger after some calls. -/
structure LogInvariant (calls : List LogCall) (l : Logger) : Prop where
  syslog : l.useSyslog = true ↔ ∃ call ∈ calls, call.Syslog
  acquired : l.files.acquired = calls.countP (·.Opens)
  file : ∀ n, l.logFP = some n ↔ LastOpened calls n
  keeps : Ledger.Keeps .empty l.files l.logFP.toList

/-- Closing gives back the file that is open. -/
theorem keeps_logClose {l : Logger} (h : Ledger.Keeps .empty l.files l.logFP.toList) :
  Ledger.Keeps .empty (logClose l).files []
  := by
  cases hfile : l.logFP with
  | none =>
    rw [hfile] at h
    simpa [logClose, hfile] using h
  | some n =>
    rw [hfile] at h
    simp only [logClose, hfile]
    apply h.release

theorem LogInvariant.step {calls : List LogCall} {l : Logger} (h : LogInvariant calls l)
    (source : Bytes) (call : LogCall) :
  LogInvariant (calls ++ [call]) (call.run source l)
  := by
  have hclose := (logClose_eq l).2.2
  cases call.effect source l with
  | keeps hsyslog hleaves hopens huse hfile hfiles =>
    constructor
    · simp [huse, h.syslog, hsyslog, or_and_right, exists_or]
    · simp [hfiles, h.acquired, hopens]
    · intro n
      rw [hfile, h.file, lastOpened_append]
      simp [hopens, hleaves]
    · rw [hfiles, hfile]
      apply h.keeps
  | leaves hleaves hopens huse hfile hfiles =>
    constructor
    · simp [huse, h.syslog, or_and_right, exists_or]
    · simp [hfiles, hclose, h.acquired, hopens]
    · intro n
      rw [hfile, lastOpened_append]
      simp [hopens, hleaves]
    · rw [hfiles, hfile]
      apply keeps_logClose h.keeps
  | opens hopens hsyslog huse hfile hfiles =>
    constructor
    · simp [huse, h.syslog, hsyslog, or_and_right, exists_or]
    · simp [hfiles, hclose, h.acquired, hopens, Ledger.acquire]
    · intro n
      rw [hfile, lastOpened_append, hclose, h.acquired]
      simp [hopens, hopens.leaves]
    · rw [hfiles, hfile]
      apply (keeps_logClose h.keeps).acquire

/-- After any calls, messages go to syslog if syslog was ever asked for, even if a file was
opened or the log was closed since.  Otherwise they go to the last file that was opened, unless
a call that leaves it came after; and then to stderr.  Every other file that was opened has been
closed, once. -/
theorem log_sinks (source : Bytes) (calls : List LogCall) :
  ((logger source calls).sink = .syslog ↔ ∃ call ∈ calls, call.Syslog)
    ∧ (∀ n, (logger source calls).sink = .file n
      ↔ (∀ call ∈ calls, ¬ call.Syslog) ∧ LastOpened calls n)
    ∧ Ledger.Keeps .empty (logger source calls).files (logger source calls).logFP.toList
    ∧ ∀ n, (logger source calls).logFP = some n ↔ LastOpened calls n
  := by
  have h : LogInvariant calls (logger source calls) := by
    induction calls using List.reverseRecOn with
    | nil =>
      constructor
      · simp [logger, Logger.start]
      · rfl
      · intro n
        constructor
        · intro hfile
          cases hfile
        · rintro ⟨before, call, after, heq, -⟩
          simp at heq
      · apply Ledger.Balanced.refl
    | append_singleton calls call ih =>
      rw [logger_append]
      apply ih.step source call
  have hnone : (∀ call ∈ calls, ¬ call.Syslog) ↔ (logger source calls).useSyslog = false := by
    rw [← Bool.not_eq_true, h.syslog, not_exists]
    simp only [not_and]
  refine ⟨?_, ?_, h.keeps, h.file⟩
  · rw [← h.syslog, Logger.sink]
    cases (logger source calls).useSyslog with
    | true => simp
    | false => cases (logger source calls).logFP with
      | none => simp
      | some n => simp
  · intro n
    rw [← h.file, hnone, Logger.sink]
    cases (logger source calls).useSyslog with
    | true => simp
    | false => cases (logger source calls).logFP with
      | none => simp
      | some n => simp

/-! ### Buffers -/

/-- The sizes of `tmpStr` and `buf`. -/
def TMPSTR_SIZE : ℕ := 100

def BUF_SIZE : ℕ := MSGSIZE_MAX + 512

theorem length_tmpStr (m : LogMessage) (useSyslog : Bool) :
  (m.tmpStr useSyslog).length = if m.time.isSome ∧ useSyslog = false then 20 else 0
  := by
  rw [LogMessage.tmpStr]
  cases m.time with
  | none => rfl
  | some now =>
    cases useSyslog with
    | true => rfl
    | false => rfl

/-- The line that is printed for an error. -/
theorem length_buf_error {m : LogMessage} (h : m.type = .P_ERROR) (useSyslog : Bool) :
  (m.buf useSyslog).length
    = (m.tmpStr useSyslog).length + m.file.length + (decimal m.line).length
      + min m.msg.length (MSGSIZE_MAX - 1) + 5
  := by
  have hcomma : (text ", ").length = 2 := rfl
  have hcolon : (text ": ").length = 2 := rfl
  have hnewline : (text "\n").length = 1 := rfl
  rw [LogMessage.buf, if_pos (Or.inr h)]
  simp only [List.length_append, List.length_take]
  omega

/-- No other line is longer. -/
theorem length_buf_le (m : LogMessage) (useSyslog : Bool) :
  (m.buf useSyslog).length
    ≤ (m.tmpStr useSyslog).length + m.file.length + (decimal m.line).length
      + min m.msg.length (MSGSIZE_MAX - 1) + 5
  := by
  have hcomma : (text ", ").length = 2 := rfl
  have hcolon : (text ": ").length = 2 := rfl
  have hnewline : (text "\n").length = 1 := rfl
  rw [LogMessage.buf]
  split_ifs
  · simp only [List.length_append, List.length_take]
    omega
  · simp only [List.length_append, List.length_take]
    omega

/-- Whatever is logged, and however long it is, it fits into the buffers exactly if the name of
the source file and the number of the line have at most 487 characters. -/
theorem printf_fits_iff (file : Bytes) (line : ℕ) :
  (∀ m : LogMessage, m.file = file → m.line = line → ∀ useSyslog,
      (m.tmpStr useSyslog).length + 1 ≤ TMPSTR_SIZE
        ∧ (m.buf useSyslog).length + 1 ≤ BUF_SIZE)
    ↔ file.length + (decimal line).length ≤ 487
  := by
  have hmax : MSGSIZE_MAX = 5000 := rfl
  have hsize : BUF_SIZE = MSGSIZE_MAX + 512 := rfl
  have htmpSize : TMPSTR_SIZE = 100 := rfl
  constructor
  · intro h
    obtain ⟨m, hfile, hline, htype, htime, hmsg⟩ : ∃ m : LogMessage, m.file = file
        ∧ m.line = line ∧ m.type = .P_ERROR ∧ m.time.isSome ∧ m.msg.length = MSGSIZE_MAX :=
      ⟨⟨file, line, .P_ERROR, some ⟨0, 0, 0, 0, 0, 0⟩, List.replicate MSGSIZE_MAX 0⟩, rfl, rfl, rfl,
        rfl, List.length_replicate⟩
    have hfits := (h m hfile hline false).2
    rw [length_buf_error htype, length_tmpStr, if_pos ⟨htime, rfl⟩, hfile, hline, hmsg] at hfits
    omega
  · rintro h m rfl rfl useSyslog
    have hbuf := length_buf_le m useSyslog
    have htmp : (m.tmpStr useSyslog).length ≤ 20 := by
      rw [length_tmpStr]
      split_ifs
      · apply Nat.le_refl
      · apply Nat.zero_le
    constructor
    · omega
    · omega

end Trailermatic
