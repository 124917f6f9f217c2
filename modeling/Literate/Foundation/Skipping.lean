import Mathlib.Logic.Function.Iterate
import Mathlib.Order.MinMax
import Literate.Foundation.Borders

/-!
# Foundation: a search that skips what it has matched

The search compares the word with the text and after a failure goes on behind the symbols
that agreed.  That passes over an occurrence when the word agrees with itself there, and the
words for which it never does are those whose borders are followed by equal symbols.
-/

namespace Literate.Foundation

open List

variable {α : Type*} [DecidableEq α]

/-- How many symbols of a word and of a text agree. -/
def agreement : List α → List α → Nat
  | p :: word, c :: text => if p = c then agreement word text + 1 else 0
  | _, _ => 0

/-- The text behind the symbols that agree, or behind the first. -/
def skip (word text : List α) : List α := text.drop (max 1 (agreement word text))

/-- One of the texts that the search comes to begins with the word. -/
def Arrives (word text : List α) : Prop := ∃ k, word <+: (skip word)^[k] text

/-- A border of a proper prefix is followed by what follows the prefix. -/
def Unbroken (word : List α) : Prop :=
  ∀ l < word.length, ∀ k, 0 < k → Border (word[·]?) l k → word[k]? = word[l]?

variable {word text : List α}

/-! ## Agreement -/

theorem agreement_le (word text : List α) : agreement word text ≤ word.length := by
  fun_induction agreement word text with
  | case1 p word text ih =>
    rw [length_cons]
    omega
  | case2 p word c text hne => exact Nat.zero_le _
  | case3 => exact Nat.zero_le _

theorem matches_agreement (word text : List α) :
    Matches (word[·]?) (text[·]?) 0 (agreement word text) := by
  fun_induction agreement word text with
  | case1 p word text ih =>
    intro x hx
    cases x with
    | zero => rfl
    | succ x =>
      have h := ih x (Nat.lt_of_succ_lt_succ hx)
      rw [Nat.zero_add] at h ⊢
      exact h
  | case2 p word c text hne => exact matches_zero 0
  | case3 => exact matches_zero 0

/-- The symbols behind those that agree do not. -/
theorem getElem?_agreement_ne (h : agreement word text < word.length) :
    text[agreement word text]? ≠ word[agreement word text]? := by
  fun_induction agreement word text with
  | case1 p word text ih => exact ih (Nat.lt_of_succ_lt_succ h)
  | case2 p word c text hne =>
    simp only [List.getElem?_cons_zero, ne_eq, Option.some.injEq]
    exact fun heq => hne heq.symm
  | case3 word text hnone =>
    cases word with
    | nil => exact absurd h (Nat.lt_irrefl 0)
    | cons p word =>
      cases text with
      | nil => exact (Option.some_ne_none p).symm
      | cons c text => exact absurd rfl (hnone p word c text rfl)

theorem agreement_eq_length_iff : agreement word text = word.length ↔ word <+: text := by
  constructor
  · intro h
    have hmatch := matches_agreement word text
    rw [h, matches_iff_prefixOf, drop_zero] at hmatch
    exact hmatch
  · intro h
    refine Nat.le_antisymm (agreement_le word text) (Nat.le_of_not_lt fun hlt => ?_)
    have hmatch := matches_iff_prefixOf.mpr (by rwa [drop_zero] : word <+: text.drop 0)
    have heq := hmatch _ hlt
    rw [Nat.zero_add] at heq
    exact getElem?_agreement_ne hlt heq

/-- What agrees up to a symbol that differs, in length. -/
theorem agreement_eq {l : Nat} (hmatch : Matches (word[·]?) (text[·]?) 0 l) (hl : l < word.length)
    (hne : text[l]? ≠ word[l]?) : agreement word text = l := by
  rcases Nat.lt_trichotomy (agreement word text) l with hlt | heq | hgt
  · have h := hmatch _ hlt
    rw [Nat.zero_add] at h
    exact absurd h (getElem?_agreement_ne (Nat.lt_trans hlt hl))
  · exact heq
  · have h := matches_agreement word text l hgt
    rw [Nat.zero_add] at h
    exact absurd h hne

/-! ## What is reached -/

theorem arrives_iff : Arrives word text ↔ word <+: text ∨ Arrives word (skip word text) := by
  constructor
  · rintro ⟨k, hk⟩
    cases k with
    | zero => exact .inl hk
    | succ k => exact .inr ⟨k, hk⟩
  · rintro (h | ⟨k, hk⟩)
    · exact ⟨0, h⟩
    · exact ⟨k + 1, hk⟩

theorem length_iterate_skip_le (word text : List α) (k : Nat) :
    ((skip word)^[k] text).length ≤ text.length := by
  induction k generalizing text with
  | zero => exact Nat.le_refl _
  | succ k ih =>
    rw [Function.iterate_succ_apply]
    refine Nat.le_trans (ih _) ?_
    rw [skip, length_drop]
    exact Nat.sub_le _ _

/-- In a text that is too short nothing is reached. -/
theorem not_arrives_of_length_lt (h : text.length < word.length) : ¬ Arrives word text := by
  rintro ⟨k, hk⟩
  have hle := hk.length_le
  have hshorter := length_iterate_skip_le word text k
  omega

theorem infix_of_arrives (h : Arrives word text) : word <:+: text := by
  obtain ⟨k, hk⟩ := h
  refine hk.isInfix.trans ?_
  clear hk
  induction k generalizing text with
  | zero => exact infix_rfl
  | succ k ih =>
    rw [Function.iterate_succ_apply]
    refine (@ih (skip word text)).trans ?_
    exact (drop_suffix _ _).isInfix

/-- In an unbroken word a skip passes over no occurrence. -/
theorem skip_le (h : Unbroken word) {s : Nat} (hs : word <+: text.drop s) (hnot : ¬ word <+: text) :
    max 1 (agreement word text) ≤ s := by
  have hpos : 0 < s := by
    refine Nat.pos_of_ne_zero ?_
    rintro rfl
    exact hnot (by rwa [drop_zero] at hs)
  refine max_le hpos (Nat.le_of_not_lt fun hlt => ?_)
  have hless : agreement word text < word.length :=
    Nat.lt_of_le_of_ne (agreement_le word text) fun heq => hnot (agreement_eq_length_iff.mp heq)
  have hmatch := matches_iff_prefixOf.mpr hs
  have hindex : 0 + (agreement word text - (agreement word text - s)) = s := by omega
  have hborder : Border (word[·]?) (agreement word text) (agreement word text - s) := by
    refine (matches_agreement word text).overlap (by omega) ?_
    rw [hindex]
    exact hmatch.mono (by omega)
  have hsame := h _ hless _ (by omega) hborder
  have htext := hmatch (agreement word text - s) (by omega)
  rw [Nat.add_sub_of_le (Nat.le_of_lt hlt)] at htext
  exact getElem?_agreement_ne hless (htext.trans hsame)

theorem arrives_of_isInfix (h : Unbroken word) (hinside : word <:+: text) : Arrives word text := by
  obtain ⟨before, after, hsplit⟩ := hinside
  have hs : word <+: text.drop before.length := by
    rw [← hsplit, List.append_assoc, drop_left]
    exact prefix_append word after
  clear hsplit
  generalize before.length = s at hs
  induction s using Nat.strong_induction_on generalizing text with
  | _ s ih =>
    rw [arrives_iff]
    by_cases hhere : word <+: text
    · exact .inl hhere
    · have hle := skip_le h hs hhere
      have hless : s - max 1 (agreement word text) < s := by omega
      refine .inr (ih _ hless ?_)
      rwa [skip, drop_drop, Nat.add_sub_of_le hle]

/-- A broken word is passed over behind some prefix of itself. -/
theorem exists_not_arrives (h : ¬ Unbroken word) : ∃ n, ¬ Arrives word (word.take n ++ word) := by
  simp only [Unbroken, not_forall] at h
  obtain ⟨l, hl, k, hk, hborder, hne⟩ := h
  have hkl := hborder.1
  have hfront : (word.take (l - k)).length = l - k := by
    rw [List.length_take]
    omega
  refine ⟨l - k, ?_⟩
  have hlast : (word.take (l - k) ++ word)[l]? = word[k]? := by
    rw [List.getElem?_append_right (by omega), hfront]
    congr 1
    omega
  have hmatch : Matches (word[·]?) ((word.take (l - k) ++ word)[·]?) 0 l := by
    intro x hx
    show (word.take (l - k) ++ word)[0 + x]? = word[x]?
    rw [Nat.zero_add]
    by_cases hlt : x < l - k
    · rw [List.getElem?_append_left (by omega), List.getElem?_take_of_lt hlt]
    · rw [List.getElem?_append_right (by omega), hfront]
      have hperiod := hborder.2 (x - (l - k)) (by omega)
      have hindex : l - k + (x - (l - k)) = x := by omega
      rw [hindex] at hperiod
      exact hperiod.symm
  have hagree : agreement word (word.take (l - k) ++ word) = l :=
    agreement_eq hmatch hl (by rwa [hlast])
  rw [arrives_iff, ← agreement_eq_length_iff, hagree]
  rintro (hfull | hlater)
  · omega
  · refine not_arrives_of_length_lt ?_ hlater
    rw [skip, hagree, length_drop, length_append, hfront]
    have hmax : max 1 l = l := by omega
    omega

end Literate.Foundation
