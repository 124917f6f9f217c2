import Mathlib.Computability.Language

/-!
# Foundation: prefix codes

A language none of whose words is the beginning of another one.  What a text begins with is
then taken apart into words in one way only: words are taken as long as there is one, and
what has been taken is the longest beginning of the text that consists of words.
-/

namespace Literate.Foundation

open Computability List
open Language (mem_kstar nil_mem_kstar)

variable {α : Type*} {C D : Language α} {s p rest w w' r r' : List α}

/-- No word is empty, or the beginning of another one. -/
structure PrefixFree (C : Language α) : Prop where
  ne_nil : ∀ w ∈ C, w ≠ []
  eq_of_append : ∀ w ∈ C, ∀ w' ∈ C, ∀ r r', w ++ r = w' ++ r' → w = w'

/-- The text begins with words, and none comes after them. -/
structure Parsed (C : Language α) (s p rest : List α) : Prop where
  split : s = p ++ rest
  words : p ∈ C∗
  stuck : ∀ w ∈ C, ¬ w <+: rest

theorem mem_kstar_append (hw : w ∈ C) (hp : p ∈ C∗) : w ++ p ∈ C∗ := by
  obtain ⟨words, rfl, hwords⟩ := mem_kstar.mp hp
  exact mem_kstar.mpr ⟨w :: words, rfl, forall_mem_cons.mpr ⟨hw, hwords⟩⟩

theorem mem_kstar_concat (hp : p ∈ C∗) (hw : w ∈ C) : p ++ w ∈ C∗ := by
  obtain ⟨words, rfl, hwords⟩ := mem_kstar.mp hp
  refine mem_kstar.mpr ⟨words ++ [w], by rw [flatten_append, flatten_singleton],
    forall_mem_append.mpr ⟨hwords, forall_mem_singleton.mpr hw⟩⟩

/-- Words are nothing, or one word before others. -/
theorem mem_kstar_cases (hp : p ∈ C∗) : p = [] ∨ ∃ w ∈ C, ∃ p' ∈ C∗, p = w ++ p' := by
  obtain ⟨words, rfl, hwords⟩ := mem_kstar.mp hp
  cases words with
  | nil => exact .inl rfl
  | cons w words =>
    obtain ⟨hw, hwords⟩ := forall_mem_cons.mp hwords
    exact .inr ⟨w, hw, words.flatten, Language.join_mem_kstar hwords, rfl⟩

theorem PrefixFree.mono (hD : PrefixFree D) (h : ∀ w ∈ C, w ∈ D) : PrefixFree C :=
  ⟨fun w hw => hD.ne_nil w (h w hw), fun w hw w' hw' => hD.eq_of_append w (h w hw) w' (h w' hw')⟩

namespace Parsed

/-- The end of the text. -/
theorem of_nil (hC : PrefixFree C) : Parsed C [] [] [] :=
  ⟨rfl, nil_mem_kstar C, fun w hw hprefix => hC.ne_nil w hw (prefix_nil.mp hprefix)⟩

/-- No word is ahead. -/
theorem of_stuck (h : ∀ w ∈ C, ¬ w <+: s) : Parsed C s [] s :=
  ⟨rfl, nil_mem_kstar C, h⟩

/-- One word before the others. -/
theorem cons (hw : w ∈ C) (h : Parsed C s p rest) : Parsed C (w ++ s) (w ++ p) rest :=
  ⟨by rw [h.split, List.append_assoc], mem_kstar_append hw h.words, h.stuck⟩

/-- Any words that the text begins with are among those that are taken. -/
theorem prefix_of_words (hC : PrefixFree C) (h : Parsed C s p rest) {q : List α} (hq : q ∈ C∗)
    (hs : s = q ++ r) : ∃ m ∈ C∗, p = q ++ m := by
  obtain ⟨words, rfl, hwords⟩ := mem_kstar.mp hq
  clear hq
  induction words generalizing s p with
  | nil => exact ⟨p, h.words, rfl⟩
  | cons w words ih =>
    obtain ⟨hw, hwords⟩ := forall_mem_cons.mp hwords
    rw [flatten_cons, List.append_assoc] at hs
    rcases mem_kstar_cases h.words with rfl | ⟨w', hw', p', hp', rfl⟩
    · refine absurd ?_ (h.stuck w hw)
      exact ⟨words.flatten ++ r, hs.symm.trans h.split⟩
    · have hsplit := h.split
      rw [hs, List.append_assoc] at hsplit
      obtain rfl := hC.eq_of_append w hw w' hw' _ _ hsplit
      have hrest : Parsed C (words.flatten ++ r) p' rest :=
        ⟨append_cancel_left hsplit, hp', h.stuck⟩
      obtain ⟨m, hm, hp⟩ := ih hrest hwords rfl
      exact ⟨m, hm, by rw [hp, flatten_cons, List.append_assoc]⟩

/-- The text consists of words exactly when nothing is left. -/
theorem mem_kstar_iff (hC : PrefixFree C) (h : Parsed C s p rest) : s ∈ C∗ ↔ rest = [] := by
  constructor
  · intro hs
    obtain ⟨m, -, hp⟩ := h.prefix_of_words hC hs (append_nil s).symm
    have hlength := congrArg List.length h.split
    simp only [hp, length_append] at hlength
    exact eq_nil_of_length_eq_zero (by omega)
  · intro hrest
    rw [h.split, hrest, append_nil]
    exact h.words

/-- What is taken is the longest beginning that consists of words. -/
theorem isGreatest (hC : PrefixFree C) (h : Parsed C s p rest) :
    IsGreatest {n | ∃ q, q <+: s ∧ q ∈ C∗ ∧ q.length = n} p.length := by
  refine ⟨⟨p, ⟨rest, h.split.symm⟩, h.words, rfl⟩, ?_⟩
  rintro n ⟨q, ⟨r, hs⟩, hq, rfl⟩
  obtain ⟨m, -, hp⟩ := h.prefix_of_words hC hq hs.symm
  rw [hp, length_append]
  exact Nat.le_add_right _ _

/-- A larger code takes the same words exactly when none of its other words comes after words
of the smaller one. -/
theorem mono_iff (hD : PrefixFree D) (hsub : ∀ w ∈ C, w ∈ D) (h : Parsed D s p rest) :
    Parsed C s p rest ↔ ∀ q d r, s = q ++ d ++ r → q ∈ C∗ → d ∈ D → d ∈ C := by
  constructor
  · intro hparsed q d r hs hq hd
    have hC := hD.mono hsub
    rw [List.append_assoc] at hs
    obtain ⟨m, hm, rfl⟩ := hparsed.prefix_of_words hC hq hs
    have hsplit := hparsed.split
    rw [hs, List.append_assoc] at hsplit
    have hrest : d ++ r = m ++ rest := append_cancel_left hsplit
    rcases mem_kstar_cases hm with rfl | ⟨w, hw, m', -, rfl⟩
    · exact absurd ⟨r, hrest⟩ (h.stuck d hd)
    · rw [List.append_assoc] at hrest
      exact (hD.eq_of_append d hd w (hsub w hw) _ _ hrest).symm ▸ hw
  · intro hall
    refine ⟨h.split, ?_, fun w hw => h.stuck w (hsub w hw)⟩
    obtain ⟨words, hp, hwords⟩ := mem_kstar.mp h.words
    -- the words are taken one after the other, each after words of the smaller code
    have htaken : ∀ before after, words = before ++ after → before.flatten ∈ C∗ → p ∈ C∗ := by
      intro before after hsplit hbefore
      induction after generalizing before with
      | nil =>
        rw [hp, hsplit, append_nil]
        exact hbefore
      | cons w after ih =>
        have hw : w ∈ C := by
          refine hall before.flatten w (after.flatten ++ rest) ?_ hbefore
            (hwords w (hsplit ▸ mem_append_right before mem_cons_self))
          rw [h.split, hp, hsplit, flatten_append, flatten_cons]
          simp
        refine ih (before ++ [w]) (by rw [hsplit, List.append_assoc]; rfl) ?_
        rw [flatten_append, flatten_singleton]
        exact mem_kstar_concat hbefore hw
    exact htaken [] words rfl (nil_mem_kstar C)

end Parsed

end Literate.Foundation
