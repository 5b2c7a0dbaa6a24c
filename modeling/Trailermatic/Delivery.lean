import Trailermatic.Prowl

/-!
# Delivery of notifications

A notification is sent again when the server answers with status 409.  `delivered_iff` says
that the server accepts none twice, and that the program knows whether it has accepted one.
-/

namespace Trailermatic

/-- The answers to the requests that `sendTries` makes, each with a new handle. -/
def sendAnswers (answers : ℕ → RequestAnswers) (url data : Bytes) : ℕ → List (Option Reply)
  | 0 => []
  | tries + 1 =>
    if (answers tries).curlInit then
      match (answers tries).perform ⟨url, none, some data⟩ with
      | none => [none]
      | some response =>
        if response.responseCode = 409 then some response :: sendAnswers answers url data tries
        else [some response]
    else []

/-- The answer has the status `code`. -/
def HasStatus (code : ℤ) (answer : Option Reply) : Prop :=
  ∃ response ∈ answer, response.responseCode = code

instance (code : ℤ) : DecidablePred (HasStatus code)
  | none => .isFalse fun ⟨_, h, _⟩ => by cases h
  | some response =>
    decidable_of_iff (response.responseCode = code) (by simp [HasStatus])

/-- At most `tries` requests were made, all of them but the last because the one before was
answered with status 409, and `response` is the answer to the last one, unless that has
status 409 itself. -/
structure Sent (tries : ℕ) (sent : List (Option Reply)) (response : Option Reply) : Prop where
  length : sent.length ≤ tries
  before : ∀ answer ∈ sent.dropLast, HasStatus 409 answer
  last : ∀ r, response = some r ↔ sent.getLast? = some (some r) ∧ r.responseCode ≠ 409

theorem Sent.nil (tries : ℕ) :
  Sent tries [] none
  where
    length := Nat.zero_le tries
    before := List.forall_mem_nil _
    last r := by simp

theorem Sent.single {tries : ℕ} {answer : Option Reply} (h : ¬ HasStatus 409 answer) :
  Sent (tries + 1) [answer] answer
  where
    length := Nat.succ_le_succ (Nat.zero_le tries)
    before := List.forall_mem_nil _
    last r := by
      rw [List.getLast?_singleton, Option.some_inj, iff_self_and]
      rintro rfl hcode
      apply h ⟨r, rfl, hcode⟩

theorem Sent.cons {tries : ℕ} {answer response : Option Reply} {sent : List (Option Reply)}
    (h : Sent tries sent response) (hanswer : HasStatus 409 answer) :
  Sent (tries + 1) (answer :: sent) response
  where
    length := Nat.succ_le_succ h.length
    before := by
      cases sent with
      | nil => apply List.forall_mem_nil
      | cons next sent =>
        rw [List.dropLast_cons_of_ne_nil (List.cons_ne_nil next sent), List.forall_mem_cons]
        exact ⟨hanswer, h.before⟩
    last r := by
      rw [h.last r]
      cases sent with
      | nil =>
        obtain ⟨c, rfl, hcode⟩ := hanswer
        simp only [List.getLast?_nil, List.getLast?_singleton, Option.some_inj, reduceCtorEq,
          false_and, false_iff, not_and, not_not]
        rintro rfl
        apply hcode
      | cons next sent => rw [List.getLast?_cons_cons]

theorem sent_sendTries (answers : ℕ → RequestAnswers) (url data : Bytes) (tries : ℕ)
    (handles : Ledger) :
  Sent tries (sendAnswers answers url data tries)
    (sendTries answers url data tries none handles).response
  := by
  induction tries generalizing handles with
  | zero => apply Sent.nil
  | succ tries ih =>
    rw [sendAnswers, sendTries]
    cases hinit : (answers tries).curlInit with
    | false =>
      simp only [amCurlInit]
      apply Sent.nil
    | true =>
      simp only [amCurlInit, if_true]
      cases hanswer : (answers tries).perform ⟨url, none, some data⟩ with
      | none =>
        apply Sent.single
        rintro ⟨r, hr, -⟩
        cases hr
      | some response =>
        simp only
        split_ifs with hcode
        · apply (ih _).cons ⟨response, rfl, hcode⟩
        · apply Sent.single
          rintro ⟨r, hr, hconflict⟩
          cases hr
          apply hcode hconflict

/-- The answer has a status that the program takes for success: 200, or one that is `-1` in
16 bits. -/
def Succeeds (answer : Option Reply) : Prop :=
  HasStatus 200 answer ∨ ∃ response ∈ answer, 65536 ∣ response.responseCode + 1

theorem Succeeds.not_conflict {answer : Option Reply} (h : Succeeds answer) :
  ¬ HasStatus 409 answer
  := by
  rintro ⟨r, hr, hconflict⟩
  rcases h with ⟨s, hs, hcode⟩ | ⟨s, hs, hcode⟩
  · cases hr.symm.trans hs
    omega
  · cases hr.symm.trans hs
    omega

theorem prowlResult_eq_one_iff {response : Option Reply} :
  prowlResult response = 1 ↔ Succeeds response
  := by
  cases response with
  | none => simp [prowlResult, Succeeds, HasStatus]
  | some r =>
    simp only [prowlResult, Succeeds, HasStatus, Option.mem_some_iff, exists_eq_left']
    split_ifs with hcode
    · simp [hcode]
    · have hsub : -r.responseCode - 1 = -(r.responseCode + 1) := by
        omega
      rw [or_iff_right hcode, ← Int16.toInt_inj, Int16.toInt_ofInt, ← Int.dvd_neg, ← hsub]
      change Int.bmod (-r.responseCode) 65536 = Int.bmod 1 65536 ↔ _
      rw [Int.bmod_eq_bmod_iff_bmod_sub_eq_zero, ← Int.dvd_iff_bmod_eq_zero]
      rfl

/-- An answer that is not status 409 is the last one. -/
theorem Sent.getLast? {tries : ℕ} {sent : List (Option Reply)} {response : Option Reply}
    (h : Sent tries sent response) {answer : Option Reply} (hanswer : answer ∈ sent)
    (hcode : ¬ HasStatus 409 answer) :
  sent.getLast? = some answer
  := by
  rcases List.eq_nil_or_concat sent with rfl | ⟨before, last, rfl⟩
  · cases hanswer
  · have hbefore := h.before answer
    rw [List.concat_eq_append, List.dropLast_concat] at hbefore
    rw [List.concat_eq_append, List.mem_append] at hanswer
    rw [List.concat_eq_append, List.getLast?_concat]
    rcases hanswer with hmem | hlast
    · exact absurd (hbefore hmem) hcode
    · rw [List.mem_singleton.mp hlast]

/-- The response is a success exactly if one of the answers is. -/
theorem Sent.succeeds_iff {tries : ℕ} {sent : List (Option Reply)} {response : Option Reply}
    (h : Sent tries sent response) :
  Succeeds response ↔ ∃ answer ∈ sent, Succeeds answer
  := by
  constructor
  · intro hsuccess
    cases response with
    | none => simp [Succeeds, HasStatus] at hsuccess
    | some r => exact ⟨some r, List.mem_of_getLast? ((h.last r).mp rfl).1, hsuccess⟩
  · rintro ⟨answer, hanswer, hsuccess⟩
    have hlast := h.getLast? hanswer hsuccess.not_conflict
    cases answer with
    | none => simp [Succeeds, HasStatus] at hsuccess
    | some r =>
      have hcode : r.responseCode ≠ 409 := fun hcode =>
        hsuccess.not_conflict ⟨r, rfl, hcode⟩
      rw [(h.last r).mpr ⟨hlast, hcode⟩]
      apply hsuccess

/-- No more than one request is accepted. -/
theorem Sent.countP_le_one {tries : ℕ} {sent : List (Option Reply)} {response : Option Reply}
    (h : Sent tries sent response) :
  sent.countP (HasStatus 200) ≤ 1
  := by
  rcases List.eq_nil_or_concat sent with rfl | ⟨before, last, rfl⟩
  · apply Nat.zero_le
  · have hbefore : before.countP (HasStatus 200) = 0 := by
      rw [List.countP_eq_zero]
      intro answer hmem haccepted
      have hconflict := h.before answer
      rw [List.concat_eq_append, List.dropLast_concat] at hconflict
      apply Succeeds.not_conflict (.inl (of_decide_eq_true haccepted)) (hconflict hmem)
    rw [List.concat_eq_append, List.countP_append, hbefore, Nat.zero_add]
    apply List.countP_le_length

/-- The answers to the requests that `prowl_sendNotification` makes. -/
def notificationAnswers (answers : ℕ → RequestAnswers) (event : ProwlEvent) (apikey : Option Str)
    (filename : Option Str) : List (Option Reply) :=
  let desc := snprintf 500 (filename.elim (text "(null)") Str.bytes)
  match createProwlMessage apikey event.text desc with
  | none => []
  | some data => sendAnswers answers (snprintf 128 (PROWL_URL ++ PROWL_ADD)) data 2

/-- Whatever the server answers: a notification is sent at most twice, and the second time only
after status 409.  The server accepts it at most once, and the program takes it for delivered
exactly if an answer has status 200, or one that is `-1` in 16 bits. -/
theorem delivered_iff (answers : ℕ → RequestAnswers) (event : ProwlEvent)
    (apikey filename : Option Str) (handles : Ledger) :
  let sent := notificationAnswers answers event apikey filename
  sent.length ≤ 2 ∧ (∀ answer ∈ sent.dropLast, HasStatus 409 answer)
    ∧ sent.countP (HasStatus 200) ≤ 1
    ∧ ((prowlSendNotification answers event apikey filename handles).1 = true
      ↔ ∃ answer ∈ sent, Succeeds answer)
  := by
  intro sent
  cases apikey with
  | none =>
    have hsent : sent = [] := rfl
    rw [hsent]
    simp [prowlSendNotification, sendProwlNotification, createProwlMessage]
  | some key =>
    have h : Sent 2 sent _ := sent_sendTries answers _ _ 2 handles
    refine ⟨h.length, h.before, h.countP_le_one, ?_⟩
    rw [← h.succeeds_iff, ← prowlResult_eq_one_iff]
    apply beq_iff_eq

end Trailermatic
