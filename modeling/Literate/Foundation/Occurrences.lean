import Mathlib.Order.Basic
import Literate.Foundation.Borders

/-!
# Foundation: all occurrences of a word

`Occurrences` lists the places where a word occurs, overlapping ones included, and
`Replaced` is a text in which the occurrences that do not overlap, from the left, are
replaced.
-/

namespace Literate.Foundation

open List

variable {α : Type*}

/-- The places from `start` on where a word occurs in a text, in order. -/
structure Occurrences (word text : List α) (start : Nat) (places : List Nat) : Prop where
  ordered : places.Pairwise (· < ·)
  mem_iff : ∀ i, i ∈ places ↔ start ≤ i ∧ word <+: text.drop i

/-- No two occurrences of a word overlap. -/
def Separate (word text : List α) : Prop :=
  ∀ i j, word <+: text.drop i → word <+: text.drop j → i < j → i + word.length ≤ j

/-- A text in which a replacement stands for the first occurrence of a word, for the first
one behind it, and so on. -/
inductive Replaced (word replacement : List α) : List α → List α → Prop
  | absent {text : List α} : FirstOccurrence word text none → Replaced word replacement text text
  | next {before after result : List α} :
      FirstOccurrence word (before ++ word ++ after) (some before.length) →
      Replaced word replacement after result →
      Replaced word replacement (before ++ word ++ after) (before ++ replacement ++ result)

/-- Places at which a text can be cut from `last` on, for a word of `length` symbols. -/
def Cuts (length : Nat) : (last : Nat) → List Nat → Prop
  | _, [] => True
  | last, place :: places => last ≤ place ∧ Cuts length (place + length) places

variable {word text replacement : List α} {start : Nat} {places : List Nat}

/-! ## Listing -/

theorem occurrences_nil (h : FirstOccurrence word (text.drop start) none) :
    Occurrences word text start [] where
  ordered := .nil
  mem_iff i := by
    refine iff_of_false not_mem_nil ?_
    rintro ⟨hle, hmatch⟩
    refine h (i - start) ?_
    rwa [drop_drop, Nat.add_sub_of_le hle]

theorem Occurrences.absent (h : Occurrences word text start []) :
    FirstOccurrence word (text.drop start) none := by
  intro i hmatch
  rw [drop_drop] at hmatch
  exact not_mem_nil ((h.mem_iff (start + i)).mpr ⟨Nat.le_add_right _ _, hmatch⟩)

theorem Occurrences.cons {place : Nat}
    (hfirst : FirstOccurrence word (text.drop start) (some place))
    (h : Occurrences word text (start + place + 1) places) :
    Occurrences word text start ((start + place) :: places) where
  ordered := pairwise_cons.mpr ⟨fun i hi => ((h.mem_iff i).mp hi).1, h.ordered⟩
  mem_iff i := by
    have hmatch := hfirst.1
    rw [drop_drop] at hmatch
    rw [mem_cons, h.mem_iff]
    constructor
    · rintro (rfl | ⟨hle, hi⟩)
      · exact ⟨Nat.le_add_right _ _, hmatch⟩
      · exact ⟨by omega, hi⟩
    · rintro ⟨hle, hi⟩
      rcases Nat.lt_trichotomy i (start + place) with hlt | heq | hgt
      · refine absurd ?_ (hfirst.2 (i - start) (by omega))
        rwa [drop_drop, Nat.add_sub_of_le hle]
      · exact .inl heq
      · exact .inr ⟨hgt, hi⟩

theorem Occurrences.first {place : Nat} (h : Occurrences word text start (place :: places)) :
    start ≤ place ∧ FirstOccurrence word (text.drop start) (some (place - start)) := by
  obtain ⟨hle, hmatch⟩ := (h.mem_iff place).mp mem_cons_self
  refine ⟨hle, by rwa [drop_drop, Nat.add_sub_of_le hle], fun r hr hearlier => ?_⟩
  rw [drop_drop] at hearlier
  have hmem := (h.mem_iff (start + r)).mpr ⟨Nat.le_add_right _ _, hearlier⟩
  cases mem_cons.mp hmem with
  | inl heq => omega
  | inr hlater =>
    have := rel_of_pairwise_cons h.ordered hlater
    omega

/-- Behind an occurrence that no later one overlaps the other places are left. -/
theorem Occurrences.behind {place : Nat} (h : Occurrences word text start (place :: places))
    (hne : word ≠ []) (hseparate : ∀ i ∈ places, place + word.length ≤ i) :
    Occurrences word text (place + word.length) places where
  ordered := h.ordered.of_cons
  mem_iff i := by
    have hpos := length_pos_of_ne_nil hne
    obtain ⟨hle, -⟩ := (h.mem_iff place).mp mem_cons_self
    constructor
    · intro hi
      exact ⟨hseparate i hi, ((h.mem_iff i).mp (mem_cons_of_mem _ hi)).2⟩
    · rintro ⟨hbehind, hi⟩
      cases mem_cons.mp ((h.mem_iff i).mpr ⟨by omega, hi⟩) with
      | inl heq => omega
      | inr hmem => exact hmem

/-! ## Cutting -/

theorem Cuts.le_of_mem {length last : Nat} (h : Cuts length last places) :
    ∀ i ∈ places, last ≤ i := by
  induction places generalizing last with
  | nil => exact fun i hi => absurd hi not_mem_nil
  | cons place places ih =>
    intro i hi
    cases mem_cons.mp hi with
    | inl heq => exact heq ▸ h.1
    | inr hmem =>
      have := ih h.2 i hmem
      have := h.1
      omega

/-- The text can be cut at all occurrences when no two of them overlap. -/
theorem Occurrences.cuts_iff (h : Occurrences word text 0 places) :
    Cuts word.length 0 places ↔ Separate word text := by
  have hpairs : ∀ {last : Nat} {places : List Nat}, (∀ i ∈ places, last ≤ i) →
      (Cuts word.length last places ↔ places.Pairwise fun i j => i + word.length ≤ j) := by
    intro last places hlast
    induction places generalizing last with
    | nil => exact iff_of_true trivial .nil
    | cons place places ih =>
      rw [Cuts, and_iff_right (hlast place mem_cons_self), pairwise_cons]
      constructor
      · exact fun hcuts => ⟨hcuts.le_of_mem, (ih hcuts.le_of_mem).mp hcuts⟩
      · exact fun hpairwise => (ih hpairwise.1).mpr hpairwise.2
  rw [hpairs fun i _ => Nat.zero_le i]
  constructor
  · intro hpairwise i j hi hj hlt
    have hmem := (h.mem_iff i).mpr ⟨Nat.zero_le i, hi⟩
    have hmem' := (h.mem_iff j).mpr ⟨Nat.zero_le j, hj⟩
    have hforward : places.Pairwise fun i j => i < j → i + word.length ≤ j := by
      refine hpairwise.imp ?_
      intro i j hle _
      exact hle
    have hbackward : places.Pairwise (flip fun i j => i < j → i + word.length ≤ j) := by
      refine h.ordered.imp ?_
      intro i j hij hji
      exact absurd hji (Nat.lt_asymm hij)
    exact List.Pairwise.forall_of_forall_of_flip (fun k _ hk => absurd hk (Nat.lt_irrefl k))
      hforward hbackward hmem hmem' hlt
  · intro hseparate
    refine (h.ordered.imp_of_mem fun hi hj hlt => ?_)
    exact hseparate _ _ ((h.mem_iff _).mp hi).2 ((h.mem_iff _).mp hj).2 hlt

/-- A text that is cut at all occurrences is replaced from the left. -/
theorem Occurrences.replaced_cons {place : Nat} {result : List α}
    (h : Occurrences word text start (place :: places)) (hne : word ≠ [])
    (hresult : Replaced word replacement (text.drop (place + word.length)) result) :
    Replaced word replacement (text.drop start)
      ((text.drop start).take (place - start) ++ replacement ++ result) := by
  obtain ⟨hle, hfirst⟩ := h.first
  have hpos := length_pos_of_ne_nil hne
  have hmatch := hfirst.1
  have hlength := hmatch.length_le
  rw [length_drop] at hlength
  have hbefore : ((text.drop start).take (place - start)).length = place - start := by
    rw [List.length_take]
    omega
  have hafter : ((text.drop start).drop (place - start)).drop word.length =
      text.drop (place + word.length) := by
    simp only [drop_drop]
    congr 1
    omega
  have hsplit : (text.drop start).take (place - start) ++ word ++ text.drop (place + word.length) =
      text.drop start := by
    rw [← hafter, List.append_assoc, prefix_iff_eq_append.mp hmatch, take_append_drop]
  have hplace : FirstOccurrence word ((text.drop start).take (place - start) ++ word ++
      text.drop (place + word.length)) (some ((text.drop start).take (place - start)).length) := by
    rwa [hbefore, hsplit]
  have hnext := Replaced.next hplace hresult
  rwa [hsplit] at hnext

end Literate.Foundation
