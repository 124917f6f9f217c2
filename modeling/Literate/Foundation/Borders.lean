import Mathlib.Data.List.Infix
import Mathlib.Data.List.TakeDrop
import Mathlib.Tactic.ByContra

/-!
# Foundation: borders and the first occurrence of a word

A border at `i` is a proper prefix of the first `i` symbols of a word that is a suffix of
them too.  `Fallback` is what a failure table holds that skips the borders followed by the
very symbol that has just failed, `Extends` the border that grows by one, and `Aligned`
the invariant of a search that never goes back in the text.
-/

namespace Literate.Foundation

open List

variable {α : Type*} {w t : Nat → α}

/-- The first `k` symbols of `w` stand in `t` at `s`. -/
def Matches (w t : Nat → α) (s k : Nat) : Prop := ∀ x < k, t (s + x) = w x

/-- The first `k` symbols of `w` are the last `k` of its first `i`, and `k < i`. -/
def Border (w : Nat → α) (i k : Nat) : Prop := k < i ∧ Matches w w (i - k) k

@[simp] theorem matches_zero (s : Nat) : Matches w t s 0 := fun x hx => absurd hx (Nat.not_lt_zero x)

variable {s k l : Nat}

theorem matches_succ : Matches w t s (k + 1) ↔ Matches w t s k ∧ t (s + k) = w k := by
  constructor
  · exact fun h => ⟨fun x hx => h x (Nat.lt_succ_of_lt hx), h k (Nat.lt_succ_self k)⟩
  · rintro ⟨h, hk⟩ x hx
    cases Nat.lt_succ_iff_lt_or_eq.mp hx with
    | inl hlt => exact h x hlt
    | inr heq => rw [heq, hk]

theorem Matches.mono (h : Matches w t s l) (hkl : k ≤ l) : Matches w t s k :=
  fun x hx => h x (Nat.lt_of_lt_of_le hx hkl)

theorem Matches.border {j : Nat} (h : Matches w t s j) (hk : Border w j k) :
    Matches w t (s + (j - k)) k := by
  intro x hx
  have hlt : j - k + x < j := by have := hk.1; omega
  rw [Nat.add_assoc, h _ hlt, hk.2 x hx]

theorem Matches.overlap {j : Nat} (h : Matches w t s j) (hkj : k < j)
    (hk : Matches w t (s + (j - k)) k) : Border w j k := by
  refine ⟨hkj, fun x hx => ?_⟩
  rw [← hk x hx, Nat.add_assoc, h _ (by omega)]

theorem border_zero {i : Nat} (hi : 0 < i) : Border w i 0 := ⟨hi, matches_zero _⟩

theorem Border.trans {i : Nat} (hk : Border w i k) (hl : Border w k l) : Border w i l := by
  refine ⟨Nat.lt_trans hl.1 hk.1, ?_⟩
  have h := hk.2.border hl
  rwa [show i - k + (k - l) = i - l by have := hk.1; have := hl.1; omega] at h

theorem Border.nest {i : Nat} (hk : Border w i k) (hl : Border w i l) (hlk : l < k) :
    Border w k l := by
  refine hk.2.overlap hlk ?_
  rw [show i - k + (k - l) = i - l by have := hk.1; omega]
  exact hl.2

theorem border_succ {i : Nat} : Border w (i + 1) (k + 1) ↔ Border w i k ∧ w k = w i := by
  simp only [Border, matches_succ, Nat.succ_lt_succ_iff, Nat.add_sub_add_right]
  constructor
  · rintro ⟨hlt, h, heq⟩
    rw [Nat.sub_add_cancel hlt.le] at heq
    exact ⟨⟨hlt, h⟩, heq.symm⟩
  · rintro ⟨⟨hlt, h⟩, heq⟩
    refine ⟨hlt, h, ?_⟩
    rw [Nat.sub_add_cancel hlt.le, heq]

/-! ## Failure tables -/

/-- `target` is the longest border at `i` that is followed by another symbol than `w i`,
or -1. -/
structure Fallback (w : Nat → α) (i : Nat) (target : Int) : Prop where
  ge : -1 ≤ target
  border : 0 ≤ target → Border w i target.toNat ∧ w target.toNat ≠ w i
  longest : ∀ k, Border w i k → w k ≠ w i → (k : Int) ≤ target

/-- `c` is the longest border at `i`. -/
structure Longest (w : Nat → α) (i : Nat) (c : Int) : Prop where
  ge : 0 ≤ c
  border : Border w i c.toNat
  longest : ∀ k, Border w i k → (k : Int) ≤ c

/-- `c` is the longest border at `i` that is followed by `w i`, or -1. -/
structure Extends (w : Nat → α) (i : Nat) (c : Int) : Prop where
  ge : -1 ≤ c
  border : 0 ≤ c → Border w i c.toNat ∧ w c.toNat = w i
  longest : ∀ k, Border w i k → w k = w i → (k : Int) ≤ c

theorem fallback_zero : Fallback w 0 (-1) where
  ge := Int.le_refl _
  border h := absurd h (by decide)
  longest _ hk _ := absurd hk.1 (Nat.not_lt_zero _)

theorem Fallback.lt {i : Nat} {target : Int} (h : Fallback w i target) : target < i := by
  by_cases h0 : 0 ≤ target
  · have := (h.border h0).1.1
    omega
  · omega

theorem longest_one : Longest w 1 0 where
  ge := Int.le_refl _
  border := border_zero Nat.one_pos
  longest k hk := by have := hk.1; omega

theorem Longest.lt {i : Nat} {c : Int} (h : Longest w i c) : c < i := by
  have := h.border.1
  have := h.ge
  omega

theorem Longest.extends {i : Nat} {c : Int} (h : Longest w i c) (heq : w c.toNat = w i) :
    Extends w i c where
  ge := by have := h.ge; omega
  border _ := ⟨h.border, heq⟩
  longest k hk _ := h.longest k hk

/-- The longest border falls back to itself when the next symbols differ. -/
theorem Longest.fallback {i : Nat} {c : Int} (h : Longest w i c) (hne : w c.toNat ≠ w i) :
    Fallback w i c where
  ge := by have := h.ge; omega
  border _ := ⟨h.border, hne⟩
  longest k hk _ := h.longest k hk

/-- The longest border hands its own fallback on when the next symbols agree. -/
theorem Longest.fallback_of_eq {i : Nat} {c target : Int} (h : Longest w i c)
    (heq : w c.toNat = w i) (ht : Fallback w c.toNat target) : Fallback w i target where
  ge := ht.ge
  border h0 := by
    obtain ⟨hborder, hne⟩ := ht.border h0
    exact ⟨h.border.trans hborder, heq ▸ hne⟩
  longest k hk hne := by
    have hle := h.longest k hk
    have hkc : k ≠ c.toNat := fun hkc => hne (hkc ▸ heq)
    exact ht.longest k (h.border.nest hk (by omega)) (heq ▸ hne)

/-- A longest border grows from the longest one that the next symbol continues. -/
theorem Extends.longest_succ {i : Nat} {c : Int} (h : Extends w i c) :
    Longest w (i + 1) (c + 1) where
  ge := by have := h.ge; omega
  border := by
    by_cases h0 : 0 ≤ c
    · rw [show (c + 1).toNat = c.toNat + 1 by omega]
      exact border_succ.mpr (h.border h0)
    · rw [show (c + 1).toNat = 0 by omega]
      exact border_zero (Nat.succ_pos i)
  longest k hk := by
    have hge := h.ge
    cases k with
    | zero => omega
    | succ k =>
      obtain ⟨hborder, heq⟩ := border_succ.mp hk
      have := h.longest k hborder heq
      omega

/-- `c` is a border at `i` that `w i` does not continue, and that bounds those it does. -/
structure Failing (w : Nat → α) (i : Nat) (c : Int) : Prop where
  ge : 0 ≤ c
  border : Border w i c.toNat
  ne : w c.toNat ≠ w i
  longest : ∀ k, Border w i k → w k = w i → (k : Int) ≤ c

theorem Longest.failing {i : Nat} {c : Int} (h : Longest w i c) (hne : w c.toNat ≠ w i) :
    Failing w i c := ⟨h.ge, h.border, hne, fun k hk _ => h.longest k hk⟩

variable {i : Nat} {c target : Int}

section

variable (h : Failing w i c)

include h

/-- Falling back loses no border that the next symbol continues. -/
theorem Failing.fallback_longest
    (ht : Fallback w c.toNat target) (hk : Border w i k) (heq : w k = w i) :
    (k : Int) ≤ target := by
  have hle := h.longest k hk heq
  have hkc : k ≠ c.toNat := fun hkc => h.ne (hkc ▸ heq)
  exact ht.longest k (h.border.nest hk (by omega)) fun hsame => h.ne (hsame ▸ heq)

theorem Failing.extends_of_neg
    (ht : Fallback w c.toNat target) (hneg : target < 0) : Extends w i target where
  ge := ht.ge
  border h0 := absurd hneg (Int.not_lt.mpr h0)
  longest _ hk heq := h.fallback_longest ht hk heq

theorem Failing.extends_of_eq
    (ht : Fallback w c.toNat target) (h0 : 0 ≤ target) (heq : w target.toNat = w i) :
    Extends w i target where
  ge := ht.ge
  border _ := ⟨h.border.trans (ht.border h0).1, heq⟩
  longest _ hk heq := h.fallback_longest ht hk heq

theorem Failing.failing
    (ht : Fallback w c.toNat target) (h0 : 0 ≤ target) (hne : w target.toNat ≠ w i) :
    Failing w i target where
  ge := h0
  border := h.border.trans (ht.border h0).1
  ne := hne
  longest _ hk heq := h.fallback_longest ht hk heq

end

/-! ## Searching -/

/-- The first `j` symbols of the word of `n` symbols stand before `total` in the text,
and the word begins nowhere before them. -/
structure Aligned (w t : Nat → α) (n total j : Nat) : Prop where
  le : j ≤ total
  standing : Matches w t (total - j) j
  none_before : ∀ s < total - j, ¬ Matches w t s n

variable {n total j : Nat}

theorem aligned_zero : Aligned w t n 0 0 where
  le := le_refl _
  standing := matches_zero _
  none_before _ hs := absurd hs (Nat.not_lt_zero _)

section

variable (h : Aligned w t n total j)

include h

theorem Aligned.advance (heq : w j = t total) : Aligned w t n (total + 1) (j + 1) where
  le := Nat.succ_le_succ h.le
  standing := by
    rw [Nat.add_sub_add_right, matches_succ, Nat.sub_add_cancel h.le]
    exact ⟨h.standing, heq.symm⟩
  none_before := by
    rw [Nat.add_sub_add_right]
    exact h.none_before

/-- After a failure the word begins nowhere before the fallback. -/
theorem Aligned.not_matches (hj : j < n) (hne : w j ≠ t total)
    (ht : Fallback w j target) (hs : s ≤ total) (hbefore : target < (total - s : Nat)) :
    ¬ Matches w t s n := by
  intro hmatch
  by_cases hearly : s < total - j
  · exact h.none_before s hearly hmatch
  have hle := h.le
  -- The part of the word before `total` would be a border, and the next symbol `w j`.
  have hend : t total = w (total - s) := by
    rw [← hmatch (total - s) (by omega), Nat.add_sub_cancel' hs]
  have hne' : w (total - s) ≠ w j := fun heq => hne (by rw [hend, heq])
  have hlt : total - s < j := by
    have : total - s ≠ j := fun heq => hne' (by rw [heq])
    omega
  have hborder : Border w j (total - s) := by
    refine h.standing.overlap hlt ?_
    rw [show total - j + (j - (total - s)) = s by omega]
    exact hmatch.mono (by omega)
  have := ht.longest _ hborder hne'
  omega

theorem Aligned.fall (hj : j < n) (hne : w j ≠ t total)
    (ht : Fallback w j target) (h0 : 0 ≤ target) : Aligned w t n total target.toNat := by
  have hborder := (ht.border h0).1
  have hlt := hborder.1
  have hle := h.le
  refine ⟨by omega, ?_, fun s hs => h.not_matches hj hne ht (by omega) (by omega)⟩
  have hstanding := h.standing.border hborder
  rwa [show total - j + (j - target.toNat) = total - target.toNat by omega] at hstanding

theorem Aligned.skip (hj : j < n) (hne : w j ≠ t total)
    (ht : Fallback w j target) (hneg : target < 0) : Aligned w t n (total + 1) 0 :=
  ⟨Nat.zero_le _, matches_zero _,
    fun s hs => h.not_matches hj hne ht (by omega) (by omega)⟩

end

/-! ## Prefixes that end at a place -/

/-- The first `k` symbols of the word stand right before `i` in the text. -/
def Ends (w t : Nat → α) (i k : Nat) : Prop := k ≤ i ∧ Matches w t (i - k) k

theorem ends_zero (i : Nat) : Ends w t i 0 := ⟨Nat.zero_le i, matches_zero _⟩

theorem ends_start : Ends w t 0 k ↔ k = 0 := by
  constructor
  · exact fun h => Nat.le_zero.mp h.1
  · rintro rfl
    exact ends_zero 0

/-- A prefix that ends at the next place extends one that ends here. -/
theorem ends_succ : Ends w t (i + 1) (k + 1) ↔ Ends w t i k ∧ t i = w k := by
  rw [Ends, Ends, matches_succ, Nat.add_sub_add_right, Nat.succ_le_succ_iff, and_assoc]
  refine and_congr_right fun hle => ?_
  rw [Nat.sub_add_cancel hle]

/-! ## Lists -/

variable {word text : List α}

theorem matches_iff_prefixOf :
    Matches (word[·]?) (text[·]?) s word.length ↔ word <+: text.drop s := by
  rw [prefix_iff_getElem?]
  refine forall₂_congr fun x hx => ?_
  show text[s + x]? = word[x]? ↔ _
  rw [List.getElem?_drop, List.getElem?_eq_getElem hx]

/-- The place where a word occurs first in a text, if it does. -/
def FirstOccurrence (word text : List α) : Option Nat → Prop
  | some s => word <+: text.drop s ∧ ∀ r < s, ¬ word <+: text.drop r
  | none => ∀ s, ¬ word <+: text.drop s

theorem firstOccurrence_of_ends (h : Ends (word[·]?) (text[·]?) i word.length)
    (hfirst : ∀ r < i, ¬ Ends (word[·]?) (text[·]?) r word.length) :
    FirstOccurrence word text (some (i - word.length)) := by
  refine ⟨matches_iff_prefixOf.mp h.2, fun r hr hmatch => ?_⟩
  refine hfirst (r + word.length) (by omega) ⟨Nat.le_add_left _ _, ?_⟩
  rw [Nat.add_sub_cancel]
  exact matches_iff_prefixOf.mpr hmatch

/-- A word that ends nowhere does not occur. -/
theorem firstOccurrence_of_not_ends (hne : word ≠ [])
    (h : ∀ r ≤ text.length, ¬ Ends (word[·]?) (text[·]?) r word.length) :
    FirstOccurrence word text none := by
  intro s hmatch
  have hpos := length_pos_of_ne_nil hne
  have hlength := hmatch.length_le
  rw [length_drop] at hlength
  refine h (s + word.length) (by omega) ⟨Nat.le_add_left _ _, ?_⟩
  rw [Nat.add_sub_cancel]
  exact matches_iff_prefixOf.mpr hmatch

theorem firstOccurrence_nil (text : List α) : FirstOccurrence [] text (some 0) :=
  ⟨List.nil_prefix, fun r hr => absurd hr (Nat.not_lt_zero r)⟩

/-- The word occurs first in one place at most. -/
theorem FirstOccurrence.unique {found found' : Option Nat}
    (h : FirstOccurrence word text found) (h' : FirstOccurrence word text found') :
    found = found' := by
  cases found with
  | none =>
    cases found' with
    | none => rfl
    | some s => exact absurd h'.1 (h s)
  | some r =>
    cases found' with
    | none => exact absurd h.1 (h' r)
    | some s =>
      rcases Nat.lt_trichotomy r s with hlt | heq | hgt
      · exact absurd h.1 (h'.2 r hlt)
      · rw [heq]
      · exact absurd h'.1 (h.2 s hgt)

theorem firstOccurrence_of_length_lt (h : text.length < word.length) :
    FirstOccurrence word text none := by
  intro s hmatch
  have hlength := hmatch.length_le
  rw [length_drop] at hlength
  omega

theorem firstOccurrence_of_length_eq [DecidableEq α] (h : text.length = word.length) :
    FirstOccurrence word text (if text = word then some 0 else none) := by
  by_cases heq : text = word
  · rw [if_pos heq, heq]
    exact ⟨prefix_rfl, fun r hr => absurd hr (Nat.not_lt_zero r)⟩
  · rw [if_neg heq]
    intro s hmatch
    have hlength := hmatch.length_le
    rw [length_drop] at hlength
    cases s with
    | zero => exact heq (hmatch.eq_of_length h.symm).symm
    | succ s =>
      have hnil : word = [] := length_eq_zero_iff.mp (by omega)
      rw [hnil, length_nil] at h
      exact heq (by rw [hnil, length_eq_zero_iff.mp h])

theorem Aligned.found (h : Aligned (word[·]?) (text[·]?) word.length s word.length) :
    FirstOccurrence word text (some (s - word.length)) :=
  ⟨matches_iff_prefixOf.mp h.standing,
    fun r hr hmatch => h.none_before r hr (matches_iff_prefixOf.mpr hmatch)⟩

theorem Aligned.exhausted (h : Aligned (word[·]?) (text[·]?) word.length text.length j)
    (hj : j < word.length) : FirstOccurrence word text none := by
  intro s hmatch
  have hle := h.le
  have hs : text.length - j ≤ s :=
    Nat.le_of_not_lt fun hs => h.none_before s hs (matches_iff_prefixOf.mpr hmatch)
  have hlength := hmatch.length_le
  rw [length_drop] at hlength
  omega

end Literate.Foundation
