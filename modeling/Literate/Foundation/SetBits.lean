import Mathlib.Data.List.Nodup
import Mathlib.Data.List.Range

/-!
# Foundation: the set bits of a word

The positions of the set bits in ascending order, their number and the scan for the lowest
one.  A loop that scans for the lowest bit and takes it out visits them in this order.
-/

namespace Literate.Foundation

open List

variable {w : Nat}

/-- The positions of the set bits, the lowest first. -/
def setBits (x : BitVec w) : List Nat := (List.range w).filter x.getLsbD

/-- The number of set bits. -/
def popcount (x : BitVec w) : Nat := (setBits x).length

/-- One more than the position of the lowest set bit; 0 when there is none. -/
def bitScanForward (x : BitVec w) : Nat :=
  match setBits x with
  | [] => 0
  | i :: _ => i + 1

variable {x : BitVec w} {i j : Nat}

theorem mem_setBits : i ∈ setBits x ↔ x.getLsbD i = true := by
  unfold setBits
  rw [mem_filter, mem_range]
  exact ⟨fun h => h.2, fun h => ⟨BitVec.lt_of_getLsbD h, h⟩⟩

theorem nodup_setBits (x : BitVec w) : (setBits x).Nodup := nodup_range.filter _

theorem setBits_zero : setBits (0#w) = [] := by
  unfold setBits
  rw [filter_eq_nil_iff]
  intro i _
  rw [BitVec.getLsbD_zero]
  exact Bool.false_ne_true

theorem setBits_injective {y : BitVec w} (h : setBits x = setBits y) : x = y := by
  apply BitVec.eq_of_getLsbD_eq
  intro i _
  have hiff : x.getLsbD i = true ↔ y.getLsbD i = true := by simp only [← mem_setBits, h]
  exact Bool.eq_iff_iff.mpr hiff

theorem popcount_eq_zero : popcount x = 0 ↔ x = 0#w := by
  unfold popcount
  rw [length_eq_zero_iff]
  constructor
  · intro h
    exact setBits_injective (h.trans setBits_zero.symm)
  · intro h
    rw [h, setBits_zero]

theorem getLsbD_one_shiftLeft (hi : i < w) : (1#w <<< i).getLsbD j = decide (j = i) := by
  have htwo : (1#w <<< i) = BitVec.twoPow w i := rfl
  rw [htwo, BitVec.getLsbD_twoPow, decide_eq_true hi, Bool.true_and]
  exact decide_eq_decide.mpr eq_comm

theorem getLsbD_and_not (hi : i < w) :
    (x &&& ~~~(1#w <<< i)).getLsbD j = (x.getLsbD j && decide (j ≠ i)) := by
  rw [BitVec.getLsbD_and, BitVec.getLsbD_not, getLsbD_one_shiftLeft hi]
  cases hbit : x.getLsbD j with
  | false => rfl
  | true => simp only [decide_eq_true (BitVec.lt_of_getLsbD hbit), Bool.true_and, decide_not]

/-- Taking the lowest bit out leaves the others. -/
theorem setBits_and_not {rest : List Nat} (h : setBits x = i :: rest) :
    setBits (x &&& ~~~(1#w <<< i)) = rest := by
  have hi : i < w := by
    have hmem : i ∈ setBits x := by
      rw [h]
      exact mem_cons_self
    exact BitVec.lt_of_getLsbD (mem_setBits.mp hmem)
  have hfilter : setBits (x &&& ~~~(1#w <<< i)) = (setBits x).filter fun j => decide (j ≠ i) := by
    unfold setBits
    rw [List.filter_filter]
    apply filter_congr
    intro j _
    rw [getLsbD_and_not hi, Bool.and_comm]
  have hnodup := nodup_setBits x
  rw [h, nodup_cons] at hnodup
  rw [hfilter, h, filter_cons_of_neg, filter_eq_self]
  · intro j hj
    refine decide_eq_true fun heq => ?_
    rw [heq] at hj
    exact hnodup.1 hj
  · rw [decide_eq_true_eq, not_not]

theorem bitScanForward_eq {rest : List Nat} (h : setBits x = i :: rest) :
    bitScanForward x - 1 = i := by
  rw [bitScanForward, h]
  rfl

theorem bitScanForward_spec (h : x ≠ 0#w) :
    ∃ i, bitScanForward x = i + 1 ∧ x.getLsbD i = true ∧ ∀ j < i, x.getLsbD j = false := by
  cases hbits : setBits x with
  | nil => exact absurd (setBits_injective (hbits.trans setBits_zero.symm)) h
  | cons i rest =>
    have hmem : i ∈ setBits x := by
      rw [hbits]
      exact mem_cons_self
    have hsorted : (setBits x).Pairwise (· < ·) := pairwise_lt_range.filter _
    rw [hbits, pairwise_cons] at hsorted
    refine ⟨i, by rw [bitScanForward, hbits], mem_setBits.mp hmem, fun j hj => ?_⟩
    by_contra hset
    have hin : j ∈ setBits x := mem_setBits.mpr (Bool.not_eq_false _ ▸ hset)
    rw [hbits] at hin
    rcases mem_cons.mp hin with rfl | hin
    · exact Nat.lt_irrefl j hj
    · exact Nat.lt_asymm hj (hsorted.1 j hin)

/-- The number of clear bits below the lowest set one. -/
def countTrailingZeroes (x : BitVec w) : Nat :=
  match setBits x with
  | [] => w
  | i :: _ => i

theorem countTrailingZeroes_spec (h : x ≠ 0#w) :
    countTrailingZeroes x < w ∧ x.getLsbD (countTrailingZeroes x) = true ∧
      ∀ j < countTrailingZeroes x, x.getLsbD j = false := by
  obtain ⟨i, hscan, hset, hbelow⟩ := bitScanForward_spec h
  have hcount : countTrailingZeroes x = i := by
    unfold bitScanForward at hscan
    unfold countTrailingZeroes
    cases hbits : setBits x with
    | nil =>
      rw [hbits] at hscan
      cases hscan
    | cons j rest =>
      rw [hbits] at hscan
      exact Nat.succ.inj hscan
  rw [hcount]
  exact ⟨BitVec.lt_of_getLsbD hset, hset, hbelow⟩

end Literate.Foundation
