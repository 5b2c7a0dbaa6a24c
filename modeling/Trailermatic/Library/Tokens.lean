import Mathlib.Tactic.Common
import Mathlib.Data.List.Basic
import Mathlib.Data.List.DropRight

/-!
# Tokens

The tokens of a list are its longest parts without a separator, in order, the empty
ones left out.
-/

namespace Tokens

variable {α : Type*} (sep : α → Bool)

/-- The tokens of `m`, of which the first has begun with `cur`. -/
def tokensFrom : List α → List α → List (List α)
  | cur, [] => if cur.isEmpty then [] else [cur]
  | cur, b :: m =>
    if sep b then
      if cur.isEmpty then tokensFrom [] m else cur :: tokensFrom [] m
    else tokensFrom (cur ++ [b]) m

def tokens (m : List α) : List (List α) :=
  tokensFrom sep [] m

theorem sublist_tokensFrom {cur m t : List α} (h : t ∈ tokensFrom sep cur m) :
  t.Sublist (cur ++ m)
  := by
  induction m generalizing cur with
  | nil =>
    rw [tokensFrom] at h
    split_ifs at h
    · cases h
    · obtain rfl := List.mem_singleton.mp h
      simp
  | cons b m ih =>
    rw [tokensFrom] at h
    have htail : m.Sublist (cur ++ b :: m) :=
      (List.sublist_cons_self b m).trans (List.sublist_append_right cur _)
    split_ifs at h
    · apply (ih h).trans htail
    · rcases List.mem_cons.mp h with rfl | h
      · apply List.sublist_append_left
      · apply (ih h).trans htail
    · simpa using ih h

/-- No token is empty. -/
theorem ne_nil_of_mem_tokensFrom {cur m t : List α} (h : t ∈ tokensFrom sep cur m) :
  t ≠ []
  := by
  induction m generalizing cur with
  | nil =>
    rw [tokensFrom] at h
    split_ifs at h with hcur
    · cases h
    · obtain rfl := List.mem_singleton.mp h
      simpa using hcur
  | cons b m ih =>
    rw [tokensFrom] at h
    split_ifs at h with hsep hcur
    · apply ih h
    · rcases List.mem_cons.mp h with rfl | h
      · simpa using hcur
      · apply ih h
    · apply ih h

theorem tokensFrom_append {x : List α} (hx : ∀ b ∈ x, sep b = false) (cur m : List α) :
  tokensFrom sep cur (x ++ m) = tokensFrom sep (cur ++ x) m
  := by
  induction x generalizing cur with
  | nil => simp
  | cons b x ih =>
    rw [List.cons_append, tokensFrom, hx b List.mem_cons_self, if_neg Bool.false_ne_true,
      ih fun c hc => hx c (List.mem_cons_of_mem b hc)]
    simp

/-- A list without a separator is its only token. -/
theorem tokens_of_forall {x : List α} (hne : x ≠ []) (hx : ∀ b ∈ x, sep b = false) :
  tokens sep x = [x]
  := by
  have h := tokensFrom_append sep hx [] []
  rw [List.append_nil] at h
  rw [tokens, h, tokensFrom]
  simp [hne]

theorem tokensFrom_append_cons (cur x : List α) {b : α} (hb : sep b = true) (m : List α) :
  tokensFrom sep cur (x ++ b :: m) = tokensFrom sep cur x ++ tokens sep m
  := by
  induction x generalizing cur with
  | nil =>
    rw [List.nil_append, tokensFrom, tokensFrom, if_pos hb, tokens]
    split_ifs
    · rfl
    · rfl
  | cons c x ih =>
    rw [List.cons_append, tokensFrom, tokensFrom, ih, ih]
    split_ifs
    · rfl
    · rfl
    · rfl

/-- A separator ends a token, and begins no other one. -/
theorem tokens_append_cons (x : List α) {b : α} (hb : sep b = true) (m : List α) :
  tokens sep (x ++ b :: m) = tokens sep x ++ tokens sep m
  := tokensFrom_append_cons sep [] x hb m

/-! ### The last token -/

/-- `t` is the last longest part of `m` without a separator that is not empty. -/
structure Last (m t : List α) : Prop where
  ne_nil : t ≠ []
  within : ∀ b ∈ t, sep b = false
  ends : ∃ before after, m = before ++ t ++ after ∧ (∀ b ∈ after, sep b = true)
    ∧ ∀ b ∈ before.getLast?, sep b = true

theorem exists_last {m : List α} (h : ∃ b ∈ m, sep b = false) :
  ∃ t, Last sep m t
  := by
  obtain ⟨b, hb, hsep⟩ := h
  have hne : m.rdropWhile sep ≠ [] := by
    intro hnil
    rw [List.rdropWhile_eq_nil_iff.mp hnil b hb] at hsep
    cases hsep
  have hlast := List.rdropWhile_last_not sep m hne
  use (m.rdropWhile sep).rtakeWhile fun b => !sep b
  constructor
  · intro hnil
    apply List.rtakeWhile_eq_nil_iff.mp hnil hne
    simpa using hlast
  · intro c hc
    simpa using List.mem_rtakeWhile_imp hc
  · refine ⟨(m.rdropWhile sep).rdropWhile fun b => !sep b, m.rtakeWhile sep, ?_, ?_, ?_⟩
    · rw [List.rdropWhile_append_rtakeWhile, List.rdropWhile_append_rtakeWhile]
    · intro c hc
      apply List.mem_rtakeWhile_imp hc
    · intro c hc
      obtain ⟨hbefore, rfl⟩ := List.mem_getLast?_eq_getLast hc
      simpa using List.rdropWhile_last_not (fun b => !sep b) _ hbefore

theorem tokens_eq_nil {m : List α} (h : ∀ b ∈ m, sep b = true) :
  tokens sep m = []
  := by
  induction m with
  | nil => rfl
  | cons b m ih =>
    rw [tokens, tokensFrom, if_pos (h b List.mem_cons_self), if_pos List.isEmpty_nil]
    apply ih fun c hc => h c (List.mem_cons_of_mem b hc)

theorem tokensFrom_of_forall {m : List α} (h : ∀ b ∈ m, sep b = true) {cur : List α}
    (hcur : cur ≠ []) :
  tokensFrom sep cur m = [cur]
  := by
  have hempty : ¬ cur.isEmpty := by simpa using hcur
  cases m with
  | nil => rw [tokensFrom, if_neg hempty]
  | cons b m =>
    have hm : tokensFrom sep [] m = [] :=
      tokens_eq_nil sep fun c hc => h c (List.mem_cons_of_mem b hc)
    rw [tokensFrom, if_pos (h b List.mem_cons_self), if_neg hempty, hm]

variable {sep}

theorem Last.getLast?_tokens {m t : List α} (h : Last sep m t) :
  (tokens sep m).getLast? = some t
  := by
  obtain ⟨before, after, rfl, hafter, hbefore⟩ := h.ends
  have htail : tokens sep (t ++ after) = [t] := by
    rw [tokens, tokensFrom_append sep h.within, List.nil_append,
      tokensFrom_of_forall sep hafter h.ne_nil]
  rcases List.eq_nil_or_concat before with rfl | ⟨init, b, rfl⟩
  · rw [List.nil_append, htail]
    rfl
  · have hb : sep b = true := hbefore b (by simp)
    rw [List.concat_eq_append, List.append_assoc, List.append_assoc, List.singleton_append,
      tokens_append_cons sep init hb, htail, List.getLast?_concat]

theorem Last.unique {m t t' : List α} (h : Last sep m t) (h' : Last sep m t') :
  t = t'
  := by
  have htoken := h.getLast?_tokens
  rw [h'.getLast?_tokens] at htoken
  apply (Option.some.inj htoken).symm

end Tokens
