import Literate.Foundation.SetBits
import Mathlib.Algebra.Group.Nat.Defs

/-!
# Foundation: bits in bytes

The bits of a list of bytes by their index, the words that the bytes make up, and the number of
bits in a range: the set bits of a byte or of a word are counted by its population count.
-/

namespace Literate.Foundation

open List

variable {bytes : List (BitVec 8)} {byte : BitVec 8} {i j k n : Nat}

/-- The bit at an index, the least significant bit of the first byte first. -/
def bitAt (bytes : List (BitVec 8)) (i : Nat) : Bool := (bytes.getD (i / 8) 0).getLsbD (i % 8)

theorem bitAt_eq (h : bytes[i / 8]? = some byte) : bitAt bytes i = byte.getLsbD (i % 8) := by
  rw [bitAt, getD_eq_getElem?_getD, h, Option.getD_some]

theorem bitAt_byte (h : bytes[k]? = some byte) (hj : j < 8) :
    bitAt bytes (8 * k + j) = byte.getLsbD j := by
  have hdiv : (8 * k + j) / 8 = k := by omega
  have hmod : (8 * k + j) % 8 = j := by omega
  rw [bitAt_eq (hdiv.symm ▸ h), hmod]

theorem bitAt_congr {bytes' : List (BitVec 8)} (h : bytes[i / 8]? = bytes'[i / 8]?) :
    bitAt bytes i = bitAt bytes' i := by
  simp only [bitAt, getD_eq_getElem?_getD, h]

theorem bitAt_cons (byte : BitVec 8) (bytes : List (BitVec 8)) (i : Nat) :
    bitAt (byte :: bytes) i = if i < 8 then byte.getLsbD i else bitAt bytes (i - 8) := by
  by_cases hi : i < 8
  · have hget : (byte :: bytes)[i / 8]? = some byte := by
      rw [Nat.div_eq_of_lt hi]
      rfl
    rw [if_pos hi, bitAt_eq hget, Nat.mod_eq_of_lt hi]
  · have hdiv : i / 8 = (i - 8) / 8 + 1 := by omega
    have hmod : i % 8 = (i - 8) % 8 := by omega
    rw [if_neg hi, bitAt, bitAt, hdiv, hmod, getD_cons_succ]

/-- The bits of the bytes from the `k`-th on. -/
theorem bitAt_drop (bytes : List (BitVec 8)) (k i : Nat) :
    bitAt (bytes.drop k) i = bitAt bytes (8 * k + i) := by
  have hdiv : (8 * k + i) / 8 = k + i / 8 := by omega
  have hmod : (8 * k + i) % 8 = i % 8 := by omega
  simp only [bitAt, hdiv, hmod, getD_eq_getElem?_getD, List.getElem?_drop]

theorem bitAt_take (hi : i < 8 * n) : bitAt (bytes.take n) i = bitAt bytes i :=
  bitAt_congr (List.getElem?_take_of_lt (by omega))

/-! ## Words -/

/-- The word that bytes make up, the least significant byte first. -/
def ofLittleEndian (w : Nat) : List (BitVec 8) → BitVec w
  | [] => 0#w
  | byte :: bytes => (ofLittleEndian w bytes <<< 8) ||| byte.setWidth w

theorem getLsbD_ofLittleEndian (w : Nat) (bytes : List (BitVec 8)) (i : Nat) :
    (ofLittleEndian w bytes).getLsbD i = (decide (i < w) && bitAt bytes i) := by
  induction bytes generalizing i with
  | nil => simp [ofLittleEndian, bitAt]
  | cons byte bytes ih =>
    rw [ofLittleEndian, BitVec.getLsbD_or, BitVec.getLsbD_shiftLeft, BitVec.getLsbD_setWidth, ih,
      bitAt_cons]
    by_cases hi : i < 8
    · simp [hi]
    · have hlow : byte.getLsbD i = false := BitVec.getLsbD_of_ge byte i (Nat.le_of_not_lt hi)
      by_cases hw : i < w
      · have hprev : i - 8 < w := by omega
        simp [hi, hw, hprev, hlow]
      · simp [hi, hw]

/-! ## Counting -/

/-- The number of set bits among the `n` from index `a` on. -/
def countBits (bytes : List (BitVec 8)) (a n : Nat) : Nat :=
  (List.range n).countP fun i => bitAt bytes (a + i)

@[simp] theorem countBits_zero (bytes : List (BitVec 8)) (a : Nat) : countBits bytes a 0 = 0 := rfl

theorem countBits_add (bytes : List (BitVec 8)) (a m n : Nat) :
    countBits bytes a (m + n) = countBits bytes a m + countBits bytes (a + m) n := by
  unfold countBits
  rw [range_add, countP_append, countP_map]
  congr 1
  refine countP_congr fun i _ => ?_
  rw [Function.comp_apply, Nat.add_assoc]

/-- A population count of a word that has the bits `a` to `b - 1` of a range, and no others. -/
theorem popcount_eq_countBits {w a b c : Nat} {x : BitVec w} (hab : a ≤ b) (hb : b ≤ w)
    (hin : ∀ i, a ≤ i → i < b → x.getLsbD i = bitAt bytes (c + i))
    (hout : ∀ i, i < a ∨ b ≤ i → x.getLsbD i = false) :
    popcount x = countBits bytes (c + a) (b - a) := by
  have hcount : popcount x = (List.range w).countP x.getLsbD := countP_eq_length_filter.symm
  obtain ⟨m, rfl⟩ := Nat.exists_eq_add_of_le hab
  obtain ⟨n, rfl⟩ := Nat.exists_eq_add_of_le hb
  have hbelow : (List.range a).countP x.getLsbD = 0 := by
    rw [countP_eq_zero]
    intro i hi
    rw [hout i (.inl (mem_range.mp hi))]
    exact Bool.false_ne_true
  have habove : ((List.range n).map (a + m + ·)).countP x.getLsbD = 0 := by
    rw [countP_eq_zero]
    intro i hi
    obtain ⟨k, -, rfl⟩ := List.mem_map.mp hi
    rw [hout (a + m + k) (.inr (Nat.le_add_right _ k))]
    exact Bool.false_ne_true
  simp only [hcount, range_add, countP_append, hbelow, habove, Nat.zero_add, Nat.add_zero,
    countP_map, Nat.add_sub_cancel_left, countBits]
  refine countP_congr fun i hi => ?_
  rw [Function.comp_apply, hin (a + i) (Nat.le_add_right a i)
    (Nat.add_lt_add_left (mem_range.mp hi) a), Nat.add_assoc]

theorem popcount_eq_countBits_low {w c : Nat} {x : BitVec w} (hn : n ≤ w)
    (hin : ∀ i < n, x.getLsbD i = bitAt bytes (c + i)) (hout : ∀ i, n ≤ i → x.getLsbD i = false) :
    popcount x = countBits bytes c n := by
  have hcount := popcount_eq_countBits (Nat.zero_le n) hn (fun i _ hi => hin i hi) fun i hi =>
    hi.elim (fun h => absurd h (Nat.not_lt_zero i)) (hout i)
  rwa [Nat.add_zero, Nat.sub_zero] at hcount

/-- The bits of the range that equal `value`. -/
def countValue (bytes : List (BitVec 8)) (a n : Nat) (value : Bool) : Nat :=
  (List.range n).countP fun i => bitAt bytes (a + i) == value

theorem countValue_true (bytes : List (BitVec 8)) (a n : Nat) :
    countValue bytes a n true = countBits bytes a n :=
  countP_congr fun i _ => by rw [beq_true]

theorem countValue_false (bytes : List (BitVec 8)) (a n : Nat) :
    countValue bytes a n false = n - countBits bytes a n := by
  have hlength := length_eq_countP_add_countP (fun i => bitAt bytes (a + i)) (l := List.range n)
  rw [length_range] at hlength
  have hneg : countValue bytes a n false =
      (List.range n).countP fun i => decide (¬ bitAt bytes (a + i) = true) :=
    countP_congr fun i _ => by simp
  rw [hneg]
  unfold countBits
  omega

end Literate.Foundation
