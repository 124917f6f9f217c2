import Literate.Foundation.Carry
import Literate.AK.Types

/-!
# AK: wide unsigned integers

The types of `AK/UFixedBigInt.h` and its comparisons and shifts.  `UFixedBigInt n` is the
type that the template makes of `u64` when it is applied `n` times: level 0 is `u64`
itself, with the built-in operators, and level 1 is `u128`.  An operator with an operand of
another type is a function of that type, which is no wider than the number it is applied to.
-/

namespace Literate.AK

open Foundation

/-- `u64` at level 0, and `UFixedBigInt<T>` at the level after that of `T`. -/
inductive UFixedBigInt : Nat → Type where
  | u64 (value : BitVec 64) : UFixedBigInt 0
  | mk {n : Nat} (mLow mHigh : UFixedBigInt n) : UFixedBigInt (n + 1)
  deriving DecidableEq, Repr

/-- The unsigned types that are no wider than those of a level. -/
inductive NoWider : Nat → Type where
  | builtin (type : Unsigned) : NoWider 0
  | same {n : Nat} : NoWider (n + 1)
  | narrower {n : Nat} (type : NoWider n) : NoWider (n + 1)
  deriving DecidableEq, Repr

namespace NoWider

/-- The values of a type. -/
abbrev Value : {n : Nat} → NoWider n → Type
  | _, .builtin type => BitVec type.bits
  | n + 1, .same => UFixedBigInt (n + 1)
  | _, .narrower type => Value type

end NoWider

namespace UFixedBigInt

/-- `sizeof(T) * 8`. -/
def bits : Nat → Nat
  | 0 => 64
  | n + 1 => 2 * bits n

/-- The first number that a type does not hold. -/
def base (n : Nat) : Nat := 2 ^ bits n

def toNat : {n : Nat} → UFixedBigInt n → Nat
  | _, .u64 value => value.toNat
  | n + 1, .mk mLow mHigh => toNat mLow + base n * toNat mHigh

/-- The constructor from a `u64`; `0u` and `1u` are converted by it. -/
def ofWord : (n : Nat) → BitVec 64 → UFixedBigInt n
  | 0, value => .u64 value
  | n + 1, low => .mk (ofWord n low) (ofWord n 0)

/-! ## Comparisons -/

/-- `operator!`. -/
def isZero : {n : Nat} → UFixedBigInt n → Bool
  | _, .u64 value => value == 0
  | _, .mk mLow mHigh => isZero mLow && isZero mHigh

/-- `operator==` for the same type. -/
def eq : {n : Nat} → UFixedBigInt n → UFixedBigInt n → Bool
  | _, .u64 value, .u64 other => value == other
  | _, .mk mLow mHigh, .mk otherLow otherHigh => eq mLow otherLow && eq mHigh otherHigh

/-- `operator<` for the same type. -/
def lt : {n : Nat} → UFixedBigInt n → UFixedBigInt n → Bool
  | _, .u64 value, .u64 other => decide (value < other)
  | _, .mk mLow mHigh, .mk otherLow otherHigh =>
    lt mHigh otherHigh || (eq mHigh otherHigh && lt mLow otherLow)

end UFixedBigInt

namespace NoWider

open UFixedBigInt

def toNat : {n : Nat} → (type : NoWider n) → type.Value → Nat
  | _, .builtin _, value => BitVec.toNat value
  | _, .same, value => UFixedBigInt.toNat value
  | _, .narrower type, value => toNat type value

/-- `operator<` of a number and a value of a type that is no wider. -/
def lt : {n : Nat} → UFixedBigInt n → (type : NoWider n) → type.Value → Bool
  | _, .u64 value, .builtin _, other => decide (value.toNat < BitVec.toNat other)
  | _, .mk mLow mHigh, .same, other => UFixedBigInt.lt (.mk mLow mHigh) other
  | _, .mk mLow mHigh, .narrower type, other => isZero mHigh && lt mLow type other

end NoWider

/-! ## What the comparisons decide -/

namespace UFixedBigInt

variable {n : Nat}

theorem base_pos (n : Nat) : 0 < base n := Nat.two_pow_pos _

theorem base_succ (n : Nat) : base (n + 1) = base n * base n := by
  rw [base, base, bits, Nat.two_mul, Nat.pow_add]

/-- Every level holds a `u64`. -/
theorem dvd_base (n : Nat) : 2 ^ 64 ∣ base n := by
  induction n with
  | zero => exact Nat.dvd_refl _
  | succ n ih =>
    rw [base_succ]
    exact Nat.dvd_mul_right_of_dvd ih _

theorem toNat_lt (a : UFixedBigInt n) : a.toNat < base n := by
  induction a with
  | u64 value => exact value.isLt
  | mk mLow mHigh ihLow ihHigh =>
    rw [base_succ]
    exact two_places_lt ihLow ihHigh

theorem toNat_word_zero : (0 : BitVec 64).toNat = 0 := rfl

theorem toNat_ofWord (n : Nat) (value : BitVec 64) : (ofWord n value).toNat = value.toNat := by
  induction n generalizing value with
  | zero => rfl
  | succ n ih => rw [ofWord, toNat, ih, ih, toNat_word_zero, Nat.mul_zero, Nat.add_zero]

theorem isZero_iff (a : UFixedBigInt n) : a.isZero = true ↔ a.toNat = 0 := by
  induction a with
  | u64 value =>
    rw [isZero, toNat, beq_iff_eq]
    exact ⟨fun h => h ▸ toNat_word_zero, fun h => BitVec.eq_of_toNat_eq h⟩
  | @mk n mLow mHigh ihLow ihHigh =>
    have hpos := base_pos n
    rw [isZero, toNat, Bool.and_eq_true, ihLow, ihHigh, Nat.add_eq_zero_iff, Nat.mul_eq_zero]
    omega

theorem eq_iff {a b : UFixedBigInt n} : eq a b = true ↔ a.toNat = b.toNat := by
  induction a with
  | u64 value =>
    cases b with
    | u64 other =>
      rw [eq, toNat, toNat, beq_iff_eq]
      exact BitVec.toNat_inj.symm
  | mk mLow mHigh ihLow ihHigh =>
    cases b with
    | mk otherLow otherHigh =>
      rw [eq, toNat, toNat, two_places_inj mLow.toNat_lt otherLow.toNat_lt, Bool.and_eq_true,
        ihLow, ihHigh, and_comm]

theorem lt_iff {a b : UFixedBigInt n} : lt a b = true ↔ a.toNat < b.toNat := by
  induction a with
  | u64 value =>
    cases b with
    | u64 other =>
      rw [lt, toNat, toNat, decide_eq_true_eq]
      exact BitVec.lt_def
  | mk mLow mHigh ihLow ihHigh =>
    cases b with
    | mk otherLow otherHigh =>
      rw [lt, toNat, toNat, two_places_lt_iff mLow.toNat_lt otherLow.toNat_lt,
        Bool.or_eq_true, Bool.and_eq_true, ihLow, ihHigh, eq_iff]

end UFixedBigInt

namespace NoWider

open UFixedBigInt

theorem toNat_lt {n : Nat} (type : NoWider n) (value : type.Value) : type.toNat value < base n := by
  induction type with
  | builtin type => exact Nat.lt_of_lt_of_le value.isLt (Nat.pow_le_pow_right (by decide) type.bits_le)
  | same => exact UFixedBigInt.toNat_lt value
  | @narrower n type ih =>
    rw [base_succ]
    exact Nat.lt_of_lt_of_le (ih value) (Nat.le_mul_of_pos_left _ (base_pos n))

theorem lt_iff {n : Nat} {a : UFixedBigInt n} {type : NoWider n} {other : type.Value} :
    lt a type other = true ↔ a.toNat < type.toNat other := by
  induction type with
  | builtin type =>
    cases a with
    | u64 value => exact decide_eq_true_iff
  | same =>
    cases a with
    | mk mLow mHigh => exact UFixedBigInt.lt_iff
  | @narrower n type ih =>
    cases a with
    | mk mLow mHigh =>
      rw [lt, Bool.and_eq_true, ih, isZero_iff, UFixedBigInt.toNat, toNat,
        two_places_lt_low_iff mLow.toNat_lt (toNat_lt type other)]

end NoWider

end Literate.AK
