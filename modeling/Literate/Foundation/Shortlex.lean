import Mathlib.Data.List.Shortlex
import Mathlib.Data.List.Nodup
import Mathlib.Tactic.Ring

/-!
# Foundation: words in shortlex order

The words over a finite alphabet, the shorter ones first and those of one length in the
order of the dictionary, are numbered from zero on.  `rank` is the number of a word: one
word comes right after another exactly when its number is the next.
-/

namespace Literate.Foundation

open List

variable {α : Type*} [DecidableEq α] (alphabet : List α)

/-- The order of the letters is that of their places in the alphabet. -/
def LetterLt (a b : α) : Prop := alphabet.idxOf a < alphabet.idxOf b

/-- One word over the alphabet is before another, and no word over it is between them. -/
def IsSuccessor (v w : List α) : Prop :=
  v ⊆ alphabet ∧ w ⊆ alphabet ∧ List.Shortlex (LetterLt alphabet) v w ∧
    ∀ u ⊆ alphabet,
      ¬ (List.Shortlex (LetterLt alphabet) v u ∧ List.Shortlex (LetterLt alphabet) u w)

/-- The number of a word among all of them. -/
def rank : List α → Nat
  | [] => 0
  | a :: w => (alphabet.idxOf a + 1) * alphabet.length ^ w.length + rank w

/-- How many words over so many letters are shorter than `k`. -/
def shorter (base : Nat) : Nat → Nat
  | 0 => 0
  | k + 1 => base ^ k + shorter base k

theorem shorter_mono (base : Nat) {j k : Nat} (h : j ≤ k) : shorter base j ≤ shorter base k := by
  induction h with
  | refl => exact Nat.le_refl _
  | step _ ih => exact ih.trans (Nat.le_add_left _ _)

theorem shorter_succ (base k : Nat) : shorter base (k + 1) = shorter base k * base + 1 := by
  induction k with
  | zero => simp [shorter]
  | succ k ih =>
    calc base ^ (k + 1) + shorter base (k + 1)
        = base ^ k * base + (shorter base k * base + 1) := by rw [ih, Nat.pow_succ]
      _ = (base ^ k + shorter base k) * base + 1 := by ring

variable {alphabet}

theorem shorter_le_rank (w : List α) : shorter alphabet.length w.length ≤ rank alphabet w := by
  induction w with
  | nil => exact Nat.le_refl _
  | cons a w ih =>
    rw [rank, length_cons, shorter, Nat.add_mul, Nat.one_mul]
    omega

variable {w v : List α}

theorem rank_lt_shorter (hw : w ⊆ alphabet) :
    rank alphabet w < shorter alphabet.length (w.length + 1) := by
  induction w with
  | nil => exact Nat.one_pos
  | cons a w ih =>
    obtain ⟨ha, hw⟩ := cons_subset.mp hw
    have hrest := ih hw
    have hfirst : (alphabet.idxOf a + 1) * alphabet.length ^ w.length ≤
        alphabet.length ^ (w.length + 1) := by
      rw [Nat.pow_succ, Nat.mul_comm (_ ^ _)]
      exact Nat.mul_le_mul_right _ (idxOf_lt_length_iff.mpr ha)
    rw [rank, length_cons, shorter]
    omega

/-- Among the words of one length the order of the dictionary is that of the numbers. -/
theorem lex_iff_rank_lt (hv : v ⊆ alphabet) (hw : w ⊆ alphabet) (hlength : v.length = w.length) :
    List.Lex (LetterLt alphabet) v w ↔ rank alphabet v < rank alphabet w := by
  induction v generalizing w with
  | nil =>
    obtain rfl := length_eq_zero_iff.mp hlength.symm
    exact iff_of_false (fun h => nomatch h) (Nat.lt_irrefl _)
  | cons a v ih =>
    cases w with
    | nil => exact absurd hlength (Nat.succ_ne_zero _)
    | cons b w =>
      obtain ⟨ha, hv'⟩ := cons_subset.mp hv
      obtain ⟨hb, hw'⟩ := cons_subset.mp hw
      have htails : v.length = w.length := Nat.succ.inj hlength
      -- A first letter that is earlier outweighs all that follows it.
      have houtweighs : ∀ {c d : α} {x y : List α}, x ⊆ alphabet → x.length = y.length →
          LetterLt alphabet c d → rank alphabet (c :: x) < rank alphabet (d :: y) := by
        intro c d x y hx hxy hlt
        have hrest := rank_lt_shorter hx
        have hleast : shorter alphabet.length y.length ≤ rank alphabet y := shorter_le_rank y
        have hstep : (alphabet.idxOf c + 1 + 1) * alphabet.length ^ y.length ≤
            (alphabet.idxOf d + 1) * alphabet.length ^ y.length :=
          Nat.mul_le_mul_right _ (Nat.succ_le_succ hlt)
        rw [Nat.add_mul, Nat.one_mul] at hstep
        rw [hxy, shorter] at hrest
        rw [rank, rank, hxy]
        omega
      rw [cons_lex_cons_iff]
      rcases Nat.lt_trichotomy (alphabet.idxOf a) (alphabet.idxOf b) with hlt | heq | hgt
      · exact iff_of_true (.inl hlt) (houtweighs hv' htails hlt)
      · obtain rfl : a = b := (idxOf_inj ha).mp heq
        rw [rank, rank, htails, Nat.add_lt_add_iff_left, ← ih hv' hw' htails]
        exact ⟨fun h => (h.resolve_left (Nat.lt_irrefl _)).2, fun h => .inr ⟨rfl, h⟩⟩
      · refine iff_of_false ?_ (Nat.lt_asymm (houtweighs hw' htails.symm hgt))
        rintro (hlt | ⟨rfl, -⟩)
        · exact Nat.lt_asymm hlt hgt
        · exact Nat.lt_irrefl _ hgt

/-- The shortlex order is the order of the numbers. -/
theorem shortlex_iff_rank_lt (hv : v ⊆ alphabet) (hw : w ⊆ alphabet) :
    List.Shortlex (LetterLt alphabet) v w ↔ rank alphabet v < rank alphabet w := by
  have hlonger : ∀ {x y : List α}, x ⊆ alphabet → x.length < y.length →
      rank alphabet x < rank alphabet y := fun hx hlt =>
    (rank_lt_shorter hx).trans_le ((shorter_mono _ hlt).trans (shorter_le_rank _))
  rw [shortlex_def]
  rcases Nat.lt_trichotomy v.length w.length with hlt | heq | hgt
  · exact iff_of_true (.inl hlt) (hlonger hv hlt)
  · rw [lex_iff_rank_lt hv hw heq]
    exact ⟨fun h => (h.resolve_left (heq.not_lt)).2, fun h => .inr ⟨heq, h⟩⟩
  · refine iff_of_false ?_ (Nat.lt_asymm (hlonger hw hgt))
    rintro (hlt | ⟨heq, -⟩)
    · exact Nat.lt_asymm hlt hgt
    · exact hgt.ne heq.symm

theorem rank_append (w : List α) (a : α) : rank alphabet (w ++ [a]) =
      rank alphabet w * alphabet.length + (alphabet.idxOf a + 1) := by
  induction w with
  | nil => simp [rank]
  | cons b w ih =>
    rw [List.cons_append, rank, rank, ih, length_append, length_singleton, Nat.pow_succ]
    ring

theorem idxOf_letter (hnodup : alphabet.Nodup) {i : Nat} {a : α} (h : alphabet[i]? = some a) :
    alphabet.idxOf a = i := by
  obtain ⟨hi, rfl⟩ := List.getElem?_eq_some_iff.mp h
  exact hnodup.idxOf_getElem i hi

/-- Every number is that of a word. -/
theorem exists_rank_eq (hnodup : alphabet.Nodup) (hne : alphabet ≠ []) (n : Nat) :
    ∃ w ⊆ alphabet, rank alphabet w = n := by
  have hpos : 0 < alphabet.length := length_pos_iff.mpr hne
  induction n using Nat.strong_induction_on with
  | _ n ih =>
    match n with
    | 0 => exact ⟨[], nil_subset _, rfl⟩
    | n + 1 =>
      -- The last letter is the remainder of the division, the rest the quotient.
      obtain ⟨w, hw, hrank⟩ :=
        ih (n / alphabet.length) (Nat.lt_succ_of_le (Nat.div_le_self _ _))
      have hletter := Nat.mod_lt n hpos
      refine ⟨w ++ [alphabet[n % alphabet.length]],
        append_subset.mpr ⟨hw, by simp⟩, ?_⟩
      rw [rank_append, hrank, idxOf_letter hnodup (List.getElem?_eq_getElem hletter),
        ← Nat.add_assoc, Nat.mul_comm, Nat.div_add_mod]

/-- A word comes right after another exactly when its number is the next. -/
theorem isSuccessor_iff (hnodup : alphabet.Nodup) (hne : alphabet ≠ []) : IsSuccessor alphabet v w ↔
      v ⊆ alphabet ∧ w ⊆ alphabet ∧ rank alphabet w = rank alphabet v + 1 := by
  constructor
  · rintro ⟨hv, hw, hlt, hnone⟩
    rw [shortlex_iff_rank_lt hv hw] at hlt
    refine ⟨hv, hw, Nat.le_antisymm (Nat.le_of_not_lt fun hbetween => ?_) hlt⟩
    obtain ⟨u, hu, hrank⟩ := exists_rank_eq hnodup hne (rank alphabet v + 1)
    refine hnone u hu ⟨(shortlex_iff_rank_lt hv hu).mpr ?_, (shortlex_iff_rank_lt hu hw).mpr ?_⟩
    · omega
    · omega
  · rintro ⟨hv, hw, hnext⟩
    refine ⟨hv, hw, (shortlex_iff_rank_lt hv hw).mpr (by omega), fun u hu hbetween => ?_⟩
    rw [shortlex_iff_rank_lt hv hu, shortlex_iff_rank_lt hu hw] at hbetween
    omega

section Padded

variable (base : Nat) (letter : Nat → α)

/-- A number in so many digits, the highest first, each written as its letter. -/
def padded : Nat → Nat → List α
  | 0, _ => []
  | k + 1, n => padded k (n / base) ++ [letter (n % base)]

omit [DecidableEq α] in
@[simp] theorem length_padded (k n : Nat) : (padded base letter k n).length = k := by
  induction k generalizing n with
  | zero => rfl
  | succ k ih => rw [padded, length_append, ih, length_singleton]

omit [DecidableEq α] in
theorem padded_subset (hletter : ∀ i < alphabet.length, alphabet[i]? = some (letter i))
    (hne : alphabet ≠ []) (k n : Nat) : padded alphabet.length letter k n ⊆ alphabet := by
  induction k generalizing n with
  | zero => exact nil_subset _
  | succ k ih =>
    have hlast := hletter _ (Nat.mod_lt n (length_pos_iff.mpr hne))
    exact append_subset.mpr ⟨ih _, by simpa using mem_of_getElem? hlast⟩

/-- The words of one length are numbered by the numbers that they write. -/
theorem rank_padded (hnodup : alphabet.Nodup)
    (hletter : ∀ i < alphabet.length, alphabet[i]? = some (letter i)) (hne : alphabet ≠ [])
    {k n : Nat} (hn : n < alphabet.length ^ k) :
    rank alphabet (padded alphabet.length letter k n) = shorter alphabet.length k + n := by
  have hpos : 0 < alphabet.length := length_pos_iff.mpr hne
  induction k generalizing n with
  | zero =>
    obtain rfl : n = 0 := by simpa using hn
    rfl
  | succ k ih =>
    have hrest : n / alphabet.length < alphabet.length ^ k :=
      Nat.div_lt_of_lt_mul (by rwa [Nat.mul_comm, ← Nat.pow_succ])
    rw [padded, rank_append, ih hrest, idxOf_letter hnodup (hletter _ (Nat.mod_lt n hpos)),
      shorter_succ, Nat.add_mul]
    have := Nat.div_add_mod' n alphabet.length
    omega

end Padded

end Literate.Foundation
