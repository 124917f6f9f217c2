import Literate.AK.UFixedBigInt

/-!
# AK: shifts of wide unsigned integers

`operator<<`, `operator>>` and `operator|` of `AK/UFixedBigInt.h`.  A shift of one level
is made of the shifts of the level below; it drops what leaves the type.
-/

namespace Literate.AK

open Foundation Nat BitVec

namespace UFixedBigInt

/-- `operator|` for the same type. -/
def or : {n : Nat} → UFixedBigInt n → UFixedBigInt n → UFixedBigInt n
  | _, .u64 value, .u64 other => .u64 (value ||| other)
  | _, .mk mLow mHigh, .mk otherLow otherHigh => .mk (or mLow otherLow) (or mHigh otherHigh)

mutual

/-- `operator<<`.  That of `u64` is built in and only used below 64. -/
def shiftLeft : (n : Nat) → UFixedBigInt n → (shift : Nat) → UFixedBigInt n
  | 0, .u64 value, shift => .u64 (value <<< shift)
  | n + 1, .mk mLow mHigh, shift =>
    if bits (n + 1) ≤ shift then ofWord (n + 1) 0
    else if bits n ≤ shift then .mk (ofWord n 0) (shiftLeft n mLow (shift - bits n))
    else if shift = 0 then .mk mLow mHigh
    else
      let overflow := shiftRight n mLow (bits n - shift)
      .mk (shiftLeft n mLow shift) (or (shiftLeft n mHigh shift) overflow)

/-- `operator>>`. -/
def shiftRight : (n : Nat) → UFixedBigInt n → (shift : Nat) → UFixedBigInt n
  | 0, .u64 value, shift => .u64 (value >>> shift)
  | n + 1, .mk mLow mHigh, shift =>
    if bits (n + 1) ≤ shift then ofWord (n + 1) 0
    else if bits n ≤ shift then .mk (shiftRight n mHigh (shift - bits n)) (ofWord n 0)
    else if shift = 0 then .mk mLow mHigh
    else
      let underflow := shiftLeft n mHigh (bits n - shift)
      .mk (or (shiftRight n mLow shift) underflow) (shiftRight n mHigh shift)

end

/-- The lowest bit, as `static_cast` brings it to the type of `1u`. -/
def lowestBit : {n : Nat} → UFixedBigInt n → Bool
  | _, .u64 value => value &&& 1 != 0
  | _, .mk mLow _ => lowestBit mLow

theorem bits_pos (n : Nat) : 0 < bits n := by
  induction n with
  | zero => decide
  | succ n ih =>
    rw [bits]
    omega

theorem toNat_or {n : Nat} (a b : UFixedBigInt n) : (or a b).toNat = a.toNat ||| b.toNat := by
  induction a with
  | u64 value =>
    cases b with
    | u64 other => exact BitVec.toNat_or value other
  | mk mLow mHigh ihLow ihHigh =>
    cases b with
    | mk otherLow otherHigh =>
      simp only [or, toNat, ihLow, ihHigh, base, two_places_or mLow.toNat_lt otherLow.toNat_lt]

/-- Both shifts of a level are those of the number. -/
structure Shifts (n : Nat) : Prop where
  left : ∀ (a : UFixedBigInt n) (shift : Nat),
    (shiftLeft n a shift).toNat = a.toNat * 2 ^ shift % base n
  right : ∀ (a : UFixedBigInt n) (shift : Nat),
    (shiftRight n a shift).toNat = a.toNat / 2 ^ shift

theorem toNat_ofWord_zero (n : Nat) : (ofWord n 0).toNat = 0 := toNat_ofWord n 0

theorem shifts (n : Nat) : Shifts n := by
  induction n with
  | zero =>
    constructor
    · intro a shift
      cases a with
      | u64 value =>
        rw [shiftLeft, toNat, toNat, BitVec.toNat_shiftLeft, Nat.shiftLeft_eq]
        rfl
    · intro a shift
      cases a with
      | u64 value => rw [shiftRight, toNat, toNat, toNat_ushiftRight, Nat.shiftRight_eq_div_pow]
  | succ n ih =>
    have hbits : bits (n + 1) = bits n + bits n := Nat.two_mul _
    constructor
    · intro a shift
      cases a with
      | mk mLow mHigh =>
        rw [shiftLeft]
        split_ifs with hout hhigh hzero
        · rw [toNat_ofWord_zero]
          exact (mod_eq_zero_of_dvd
            (Nat.dvd_mul_left_of_dvd (Nat.pow_dvd_pow 2 hout) _)).symm
        · obtain ⟨rest, rfl⟩ := Nat.exists_eq_add_of_le hhigh
          rw [toNat, toNat_ofWord_zero, ih.left, toNat, base_succ, base,
            two_places_shiftLeft_place, Nat.add_sub_cancel_left, Nat.zero_add]
        · rw [hzero, Nat.pow_zero, Nat.mul_one, mod_eq_of_lt (toNat_lt _)]
        · have hle : shift ≤ bits n := by omega
          rw [toNat, toNat_or, ih.left, ih.left, ih.right, toNat, base_succ, base,
            two_places_shiftLeft hle mLow.toNat_lt]
    · intro a shift
      cases a with
      | mk mLow mHigh =>
        rw [shiftRight]
        split_ifs with hout hhigh hzero
        · have hlt := Nat.lt_of_lt_of_le (toNat_lt (.mk mLow mHigh))
            (Nat.pow_le_pow_right (by decide) hout)
          rw [toNat_ofWord_zero, div_eq_of_lt hlt]
        · obtain ⟨rest, rfl⟩ := Nat.exists_eq_add_of_le hhigh
          rw [toNat, toNat_ofWord_zero, ih.right, toNat, base,
            two_places_shiftRight_place mLow.toNat_lt, Nat.add_sub_cancel_left, Nat.mul_zero,
            Nat.add_zero]
        · rw [hzero, Nat.pow_zero, Nat.div_one]
        · have hle : shift ≤ bits n := by omega
          simp only [toNat, toNat_or, ih.left, ih.right, base,
            two_places_shiftRight hle mLow.toNat_lt]

theorem toNat_shiftLeft {n : Nat} (a : UFixedBigInt n) (shift : Nat) :
    (shiftLeft n a shift).toNat = a.toNat * 2 ^ shift % base n :=
  (shifts n).left a shift

theorem toNat_shiftRight {n : Nat} (a : UFixedBigInt n) (shift : Nat) :
    (shiftRight n a shift).toNat = a.toNat / 2 ^ shift :=
  (shifts n).right a shift

theorem lowestBit_iff {n : Nat} (a : UFixedBigInt n) : a.lowestBit = true ↔ a.toNat % 2 = 1 := by
  induction a with
  | u64 value =>
    have hmask : (value &&& 1).toNat = value.toNat % 2 := by
      rw [toNat_and]
      exact and_two_pow_sub_one_eq_mod value.toNat 1
    have hzero : value &&& 1 = 0 ↔ (value &&& 1).toNat = 0 := toNat_inj.symm
    rw [lowestBit, toNat, bne_iff_ne, ne_eq, hzero, hmask]
    omega
  | @mk n mLow mHigh ihLow ihHigh =>
    obtain ⟨k, hk⟩ := Nat.dvd_trans (Nat.pow_dvd_pow 2 (by decide : 1 ≤ 64)) (dvd_base n)
    rw [lowestBit, ihLow, toNat, hk, Nat.pow_one, Nat.mul_assoc, add_mul_mod_self_left]

end UFixedBigInt

/-! ## Values of a type that is no wider -/

namespace NoWider

open UFixedBigInt

/-- `sizeof(U) * 8`. -/
def bits : {n : Nat} → NoWider n → Nat
  | _, .builtin type => type.bits
  | n + 1, .same => UFixedBigInt.bits (n + 1)
  | _, .narrower type => bits type

/-- `operator!`. -/
def isZero : {n : Nat} → (type : NoWider n) → type.Value → Bool
  | _, .builtin type, value => value == (0 : BitVec type.bits)
  | _, .same, value => UFixedBigInt.isZero value
  | _, .narrower type, value => isZero type value

/-- `value & 1u`. -/
def lowestBit : {n : Nat} → (type : NoWider n) → type.Value → Bool
  | _, .builtin _, value => BitVec.getLsbD value 0
  | _, .same, value => UFixedBigInt.lowestBit value
  | _, .narrower type, value => lowestBit type value

/-- `value <<= shift`. -/
def shiftLeft : {n : Nat} → (type : NoWider n) → type.Value → (shift : Nat) → type.Value
  | _, .builtin type, value, shift => (BitVec.shiftLeft value shift : BitVec type.bits)
  | n + 1, .same, value, shift => UFixedBigInt.shiftLeft (n + 1) value shift
  | _, .narrower type, value, shift => shiftLeft type value shift

/-- `value >>= shift`. -/
def shiftRight : {n : Nat} → (type : NoWider n) → type.Value → (shift : Nat) → type.Value
  | _, .builtin type, value, shift => (BitVec.ushiftRight value shift : BitVec type.bits)
  | n + 1, .same, value, shift => UFixedBigInt.shiftRight (n + 1) value shift
  | _, .narrower type, value, shift => shiftRight type value shift

variable {n : Nat}

section

variable (type : NoWider n) (value : type.Value)

theorem toNat_lt_bits : type.toNat value < 2 ^ type.bits := by
  induction type with
  | builtin type => exact BitVec.isLt value
  | same => exact UFixedBigInt.toNat_lt value
  | narrower type ih => exact ih value

theorem isZero_iff : type.isZero value = true ↔ type.toNat value = 0 := by
  induction type with
  | builtin type =>
    rw [isZero, toNat, beq_iff_eq]
    exact toNat_inj.symm
  | same => exact UFixedBigInt.isZero_iff value
  | narrower type ih => exact ih value

theorem lowestBit_iff : type.lowestBit value = true ↔ type.toNat value % 2 = 1 := by
  induction type with
  | builtin type => rw [lowestBit, toNat, BitVec.getLsbD, testBit_zero, decide_eq_true_eq]
  | same => exact UFixedBigInt.lowestBit_iff value
  | narrower type ih => exact ih value

theorem toNat_shiftLeft (shift : Nat) :
    type.toNat (type.shiftLeft value shift) = type.toNat value * 2 ^ shift % 2 ^ type.bits := by
  induction type with
  | builtin type =>
    rw [shiftLeft, toNat, toNat, ← Nat.shiftLeft_eq]
    exact BitVec.toNat_shiftLeft
  | same => exact UFixedBigInt.toNat_shiftLeft value shift
  | narrower type ih => exact ih value

theorem toNat_shiftRight (shift : Nat) :
    type.toNat (type.shiftRight value shift) = type.toNat value / 2 ^ shift := by
  induction type with
  | builtin type =>
    rw [shiftRight, toNat, toNat, ← Nat.shiftRight_eq_div_pow]
    exact toNat_ushiftRight _ _
  | same => exact UFixedBigInt.toNat_shiftRight value shift
  | narrower type ih => exact ih value

end

end NoWider

end Literate.AK
