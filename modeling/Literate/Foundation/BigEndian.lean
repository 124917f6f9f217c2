import Mathlib.Algebra.Ring.Nat
import Mathlib.Data.List.SplitLengths
import Literate.Foundation.Bits

/-!
# Foundation: bit sequences, most significant bit first

`bigEndianBits x` are the bits of a word from the highest one on, and `bigEndian` is the number
that a bit sequence stands for.
-/

namespace Literate.Foundation

open List

variable {w : Nat}

/-- The number with these bits, the most significant one first. -/
def bigEndian (l : List Bool) : Nat := l.foldl (fun value b => 2 * value + b.toNat) 0

/-- All the bits of a word, the most significant one first. -/
def bigEndianBits (x : BitVec w) : List Bool := (List.range w).map fun i => x.getMsbD i

/-- The bits of the bytes, in order. -/
def unpackBigEndian (bytes : List (BitVec 8)) : List Bool := bytes.flatMap bigEndianBits

@[simp] theorem bigEndian_nil : bigEndian [] = 0 := rfl

theorem foldl_bigEndian (l : List Bool) (value : Nat) :
    l.foldl (fun value b => 2 * value + b.toNat) value = value * 2 ^ l.length + bigEndian l := by
  induction l generalizing value with
  | nil => rw [foldl_nil, length_nil, Nat.pow_zero, Nat.mul_one, bigEndian_nil, Nat.add_zero]
  | cons b l ih =>
    rw [bigEndian, foldl_cons, foldl_cons, ih, ih, length_cons, Nat.pow_succ,
      Nat.mul_zero, Nat.zero_add, Nat.add_mul, Nat.add_assoc, Nat.mul_comm 2 value, Nat.mul_assoc,
      Nat.mul_comm (2 ^ l.length) 2]

theorem bigEndian_append (l l' : List Bool) :
    bigEndian (l ++ l') = bigEndian l * 2 ^ l'.length + bigEndian l' := by
  rw [bigEndian, List.foldl_append, foldl_bigEndian]
  rfl

theorem bigEndian_cons (b : Bool) (l : List Bool) :
    bigEndian (b :: l) = b.toNat * 2 ^ l.length + bigEndian l := by
  rw [← singleton_append, bigEndian_append]
  congr 2
  exact Nat.zero_add _

theorem bigEndian_lt (l : List Bool) : bigEndian l < 2 ^ l.length := by
  induction l with
  | nil => exact Nat.one_pos
  | cons b l ih =>
    have hb : b.toNat * 2 ^ l.length ≤ 1 * 2 ^ l.length := Nat.mul_le_mul_right _ (Bool.toNat_le b)
    rw [bigEndian_cons, length_cons, Nat.pow_succ]
    omega

@[simp] theorem length_bigEndianBits (x : BitVec w) : (bigEndianBits x).length = w := by
  rw [bigEndianBits, length_map, length_range]

/-- The first bits of a word are its highest ones. -/
theorem bigEndian_take (x : BitVec w) {n : Nat} (hn : n ≤ w) :
    bigEndian ((List.range n).map fun i => x.getMsbD i) = x.toNat / 2 ^ (w - n) := by
  induction n with
  | zero =>
    rw [Nat.sub_zero, Nat.div_eq_of_lt x.isLt]
    rfl
  | succ n ih =>
    have hbit : (x.getMsbD n).toNat = x.toNat / 2 ^ (w - (n + 1)) % 2 := by
      have hindex : w - 1 - n = w - (n + 1) := by omega
      rw [BitVec.getMsbD, decide_eq_true (by omega : n < w), Bool.true_and, BitVec.getLsbD,
        Nat.toNat_testBit, hindex]
    have hhalf : x.toNat / 2 ^ (w - n) = x.toNat / 2 ^ (w - (n + 1)) / 2 := by
      rw [Nat.div_div_eq_div_mul, ← Nat.pow_succ]
      congr 2
      omega
    rw [List.range_succ, map_append, bigEndian_append, ih (by omega), hhalf, map_singleton,
      bigEndian_cons, hbit, length_singleton]
    simp only [length_nil, bigEndian_nil]
    omega

theorem bigEndian_bigEndianBits (x : BitVec w) : bigEndian (bigEndianBits x) = x.toNat := by
  rw [bigEndianBits, bigEndian_take x (Nat.le_refl w), Nat.sub_self, Nat.pow_zero, Nat.div_one]

theorem drop_bigEndianBits (x : BitVec w) {i : Nat} (hi : i < w) :
    (bigEndianBits x).drop i = x.getMsbD i :: (bigEndianBits x).drop (i + 1) := by
  have hlt : i < (bigEndianBits x).length := by rwa [length_bigEndianBits]
  rw [drop_eq_getElem_cons hlt]
  congr 1
  simp [bigEndianBits]

@[simp] theorem length_unpackBigEndian (bytes : List (BitVec 8)) :
    (unpackBigEndian bytes).length = 8 * bytes.length := by
  induction bytes with
  | nil => rfl
  | cons byte bytes ih =>
    rw [unpackBigEndian] at ih ⊢
    rw [flatMap_cons, length_append, ih, length_bigEndianBits, length_cons]
    omega

/-- The groups of the first counts come before the groups of the others. -/
theorem splitLengths_append {α : Type} (counts counts' : List Nat) (l : List α) :
    (counts ++ counts').splitLengths l =
      counts.splitLengths l ++ counts'.splitLengths (l.drop counts.sum) := by
  induction counts generalizing l with
  | nil => rfl
  | cons count counts ih => simp only [List.cons_append, splitLengths_cons, ih, drop_drop, sum_cons]

/-- Low bits beside a word that has room for them. -/
theorem toNat_shiftLeft_or {x low : BitVec w} {n : Nat} (hx : x.toNat * 2 ^ n < 2 ^ w)
    (hlow : low.toNat < 2 ^ n) : ((x <<< n) ||| low).toNat = x.toNat * 2 ^ n + low.toNat := by
  rw [BitVec.toNat_or, BitVec.toNat_shiftLeft, Nat.shiftLeft_eq, Nat.mod_eq_of_lt hx, Nat.mul_comm,
    ← Nat.two_pow_add_eq_or_of_lt hlow]

end Literate.Foundation
