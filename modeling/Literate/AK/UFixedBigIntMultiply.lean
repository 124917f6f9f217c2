import Literate.AK.UFixedBigIntCarry
import Literate.AK.UFixedBigIntShift

/-!
# AK: multiplication of wide unsigned integers

`wide_multiply` and `operator*` of `AK/UFixedBigInt.h`.  A wide product is the sum of four
products of the level below, each put at its place in a number of twice the width; the
exact product fits in that width, so no sum on the way overflows.
-/

namespace Literate.AK.UFixedBigInt

open Foundation Nat BitVec

/-- `operator+` for the same type. -/
def add (n : Nat) (a b : UFixedBigInt (n + 1)) : UFixedBigInt (n + 1) := (addc n a .same b false).1

/-! ## The product of two words -/

/-- `mult_64_to_128` by `unsigned __int128`. -/
def multiplyInt128 (a b : BitVec 64) : BitVec 64 × BitVec 64 :=
  let result := a.setWidth 128 * b.setWidth 128
  (result.setWidth 64, (result >>> 64).setWidth 64)

/-- `mult_64_to_128` by halves. -/
def multiplyHalves (a b : BitVec 64) : BitVec 64 × BitVec 64 :=
  let aLow := a.setWidth 32
  let aHigh := (a >>> 32).setWidth 32
  let bLow := b.setWidth 32
  let bHigh := (b >>> 32).setWidth 32
  let llResult := aLow.setWidth 64 * bLow.setWidth 64
  let lhResult := aLow.setWidth 64 * bHigh.setWidth 64
  let hlResult := aHigh.setWidth 64 * bLow.setWidth 64
  let hhResult := aHigh.setWidth 64 * bHigh.setWidth 64
  let ll : UFixedBigInt 1 := .mk (.u64 llResult) (.u64 0)
  let lh : UFixedBigInt 1 := .mk (.u64 (lhResult <<< 32)) (.u64 (lhResult >>> 32))
  let hl : UFixedBigInt 1 := .mk (.u64 (hlResult <<< 32)) (.u64 (hlResult >>> 32))
  let hh : UFixedBigInt 1 := .mk (.u64 0) (.u64 hhResult)
  match add 0 (add 0 (add 0 ll lh) hl) hh with
  | .mk (.u64 low) (.u64 high) => (low, high)

/-- `mult_64_to_128`, with and without `__SIZEOF_INT128__`. -/
def multiply64To128 (hasInt128 : Bool) (a b : BitVec 64) : BitVec 64 × BitVec 64 :=
  if hasInt128 then multiplyInt128 a b else multiplyHalves a b

/-! ## The products of all levels -/

/-- `wide_multiply`: the low and the high part. -/
def wideMultiply (hasInt128 : Bool) : (n : Nat) → UFixedBigInt n → UFixedBigInt n →
    UFixedBigInt n × UFixedBigInt n
  | 0, .u64 value, .u64 other =>
    let result := multiply64To128 hasInt128 value other
    (.u64 result.1, .u64 result.2)
  | n + 1, .mk mLow mHigh, .mk otherLow otherHigh =>
    let llResult := wideMultiply hasInt128 n mLow otherLow
    let lhResult := wideMultiply hasInt128 n mLow otherHigh
    let hlResult := wideMultiply hasInt128 n mHigh otherLow
    let hhResult := wideMultiply hasInt128 n mHigh otherHigh
    let zero := ofWord n 0
    let ll := .mk (.mk llResult.1 llResult.2) (.mk zero zero)
    let lh := .mk (.mk zero lhResult.1) (.mk lhResult.2 zero)
    let hl := .mk (.mk zero hlResult.1) (.mk hlResult.2 zero)
    let hh := .mk (.mk zero zero) (.mk hhResult.1 hhResult.2)
    match add (n + 1) (add (n + 1) (add (n + 1) ll lh) hl) hh with
    | .mk low high => (low, high)

/-- The loop of `operator*`. -/
def multiplyLoop {n : Nat} (type : NoWider (n + 1)) (res that : UFixedBigInt (n + 1))
    (other : type.Value) : UFixedBigInt (n + 1) :=
  if type.isZero other then res
  else
    multiplyLoop type (if type.lowestBit other then add n res that else res)
      (shiftLeft (n + 1) that 1) (type.shiftRight other 1)
termination_by type.toNat other
decreasing_by
  rw [NoWider.toNat_shiftRight, Nat.pow_one]
  have := mt (type.isZero_iff other).mpr ‹_›
  omega

/-- `operator*`. -/
def multiply {n : Nat} (type : NoWider (n + 1)) (a : UFixedBigInt (n + 1)) (other : type.Value) :
    UFixedBigInt (n + 1) :=
  multiplyLoop type (ofWord (n + 1) 0) a other

/-! ## No carry is lost -/

theorem toNat_add {n : Nat} (a b : UFixedBigInt (n + 1)) :
    (add n a b).toNat = (a.toNat + b.toNat) % base (n + 1) :=
  (adds_addc a .same b false (not_losesCarry_same _ _ _)).sum_eq

theorem toNat_add_four {n : Nat} (a b c d : UFixedBigInt (n + 1))
    (h : a.toNat + b.toNat + c.toNat + d.toNat < base (n + 1)) :
    (add n (add n (add n a b) c) d).toNat = a.toNat + b.toNat + c.toNat + d.toNat := by
  simp only [toNat_add, mod_add_mod, Nat.add_assoc (_ % _), ← Nat.add_assoc, mod_eq_of_lt h]

theorem isProduct_int128 (a b : BitVec 64) :
    (multiplyInt128 a b).1.toNat + 2 ^ 64 * (multiplyInt128 a b).2.toNat = a.toNat * b.toNat := by
  have hlt : a.toNat * b.toNat < 2 ^ 64 * 2 ^ 64 := Nat.mul_lt_mul'' a.isLt b.isLt
  have hwide : (a.setWidth 128 * b.setWidth 128).toNat = a.toNat * b.toNat := by
    rw [BitVec.toNat_mul, toNat_setWidth, toNat_setWidth,
      mod_eq_of_lt (Nat.lt_of_lt_of_le a.isLt (by decide)),
      mod_eq_of_lt (Nat.lt_of_lt_of_le b.isLt (by decide))]
    exact mod_eq_of_lt hlt
  rw [multiplyInt128]
  simp only [toNat_setWidth, toNat_ushiftRight, hwide, Nat.shiftRight_eq_div_pow,
    mod_eq_of_lt (Nat.div_lt_of_lt_mul hlt), mod_add_div]

theorem toNat_low_half (a : BitVec 64) :
    ((a.setWidth 32).setWidth 64).toNat = a.toNat % 2 ^ 32 := by
  simp only [toNat_setWidth]
  omega

theorem toNat_high_half (a : BitVec 64) :
    (((a >>> 32).setWidth 32).setWidth 64).toNat = a.toNat / 2 ^ 32 := by
  have hlt := a.isLt
  simp only [toNat_setWidth, toNat_ushiftRight, Nat.shiftRight_eq_div_pow]
  omega

theorem toNat_mul_halves {a b : BitVec 64} (ha : a.toNat < 2 ^ 32) (hb : b.toNat < 2 ^ 32) :
    (a * b).toNat = a.toNat * b.toNat := by
  have hlt : a.toNat * b.toNat < 2 ^ 32 * 2 ^ 32 := Nat.mul_lt_mul'' ha hb
  rw [BitVec.toNat_mul]
  exact mod_eq_of_lt hlt

theorem toNat_mk_shift (a : BitVec 64) :
    (UFixedBigInt.mk (.u64 (a <<< 32)) (.u64 (a >>> 32))).toNat = 2 ^ 32 * a.toNat := by
  simp only [toNat, BitVec.toNat_shiftLeft, toNat_ushiftRight, Nat.shiftLeft_eq,
    Nat.shiftRight_eq_div_pow, base, bits]
  omega

theorem product_of_halves (a b : Nat) :
    a % 2 ^ 32 * (b % 2 ^ 32) + 2 ^ 32 * (a % 2 ^ 32 * (b / 2 ^ 32)) +
        2 ^ 32 * (a / 2 ^ 32 * (b % 2 ^ 32)) + 2 ^ 32 * 2 ^ 32 * (a / 2 ^ 32 * (b / 2 ^ 32)) =
      a * b := by
  simp only [← two_places_mul, mod_add_div]

theorem isProduct_halves (a b : BitVec 64) :
    (multiplyHalves a b).1.toNat + 2 ^ 64 * (multiplyHalves a b).2.toNat = a.toNat * b.toNat := by
  have hlow : ∀ a : BitVec 64, ((a.setWidth 32).setWidth 64).toNat < 2 ^ 32 := by
    intro a
    rw [toNat_low_half]
    exact mod_lt _ (Nat.two_pow_pos 32)
  have hhigh : ∀ a : BitVec 64, (((a >>> 32).setWidth 32).setWidth 64).toNat < 2 ^ 32 := by
    intro a
    have := a.isLt
    rw [toNat_high_half]
    omega
  have hfits : a.toNat * b.toNat < base 0 * base 0 := Nat.mul_lt_mul'' a.isLt b.isLt
  have hfour := toNat_add_four
    (.mk (.u64 ((a.setWidth 32).setWidth 64 * (b.setWidth 32).setWidth 64)) (.u64 0))
    (.mk (.u64 (((a.setWidth 32).setWidth 64 * ((b >>> 32).setWidth 32).setWidth 64) <<< 32))
      (.u64 (((a.setWidth 32).setWidth 64 * ((b >>> 32).setWidth 32).setWidth 64) >>> 32)))
    (.mk (.u64 ((((a >>> 32).setWidth 32).setWidth 64 * (b.setWidth 32).setWidth 64) <<< 32))
      (.u64 ((((a >>> 32).setWidth 32).setWidth 64 * (b.setWidth 32).setWidth 64) >>> 32)))
    (.mk (.u64 0)
      (.u64 (((a >>> 32).setWidth 32).setWidth 64 * ((b >>> 32).setWidth 32).setWidth 64)))
  rw [toNat_mk_shift, toNat_mk_shift, toNat, toNat, toNat, toNat, toNat, toNat, toNat_word_zero,
    toNat_mul_halves (hlow a) (hlow b), toNat_mul_halves (hlow a) (hhigh b),
    toNat_mul_halves (hhigh a) (hlow b), toNat_mul_halves (hhigh a) (hhigh b), toNat_low_half,
    toNat_low_half, toNat_high_half, toNat_high_half, Nat.mul_zero, Nat.add_zero, Nat.zero_add,
    show base 0 = 2 ^ 32 * 2 ^ 32 from rfl, product_of_halves] at hfour
  have hsum := hfour hfits
  rw [multiplyHalves]
  split
  · next low high hresult =>
    simp only [hresult, toNat] at hsum
    exact hsum

theorem isProduct_multiply64To128 (hasInt128 : Bool) (a b : BitVec 64) :
    (multiply64To128 hasInt128 a b).1.toNat + 2 ^ 64 * (multiply64To128 hasInt128 a b).2.toNat =
      a.toNat * b.toNat := by
  cases hasInt128 with
  | true => exact isProduct_int128 a b
  | false => exact isProduct_halves a b

variable {n : Nat}

/-- A product at its place in a number of twice the width. -/
theorem toNat_place_low (low high : UFixedBigInt n) :
    (UFixedBigInt.mk (.mk low high) (.mk (ofWord n 0) (ofWord n 0))).toNat =
      low.toNat + base n * high.toNat := by
  simp only [toNat, toNat_ofWord_zero]
  omega

theorem toNat_place_middle (low high : UFixedBigInt n) :
    (UFixedBigInt.mk (.mk (ofWord n 0) low) (.mk high (ofWord n 0))).toNat =
      base n * (low.toNat + base n * high.toNat) := by
  simp only [toNat, toNat_ofWord_zero, base_succ]
  ring

theorem toNat_place_high (low high : UFixedBigInt n) :
    (UFixedBigInt.mk (.mk (ofWord n 0) (ofWord n 0)) (.mk low high)).toNat =
      base n * base n * (low.toNat + base n * high.toNat) := by
  simp only [toNat, toNat_ofWord_zero, base_succ]
  ring

theorem isProduct_wideMultiply (hasInt128 : Bool) (a b : UFixedBigInt n) :
    (wideMultiply hasInt128 n a b).1.toNat + base n * (wideMultiply hasInt128 n a b).2.toNat =
      a.toNat * b.toNat := by
  induction a with
  | u64 value =>
    cases b with
    | u64 other => exact isProduct_multiply64To128 hasInt128 value other
  | @mk n mLow mHigh ihLow ihHigh =>
    cases b with
    | mk otherLow otherHigh =>
      have hfits : (UFixedBigInt.mk mLow mHigh).toNat * (UFixedBigInt.mk otherLow otherHigh).toNat <
          base (n + 1) * base (n + 1) := Nat.mul_lt_mul'' (toNat_lt _) (toNat_lt _)
      rw [wideMultiply]
      split
      next low high hresult =>
      have hsum := congrArg toNat hresult
      rw [toNat_add_four, toNat_place_low, toNat_place_middle, toNat_place_middle,
        toNat_place_high, ihLow, ihLow, ihHigh, ihHigh, ← two_places_mul] at hsum
      · exact hsum.symm
      · rw [toNat_place_low, toNat_place_middle, toNat_place_middle, toNat_place_high, ihLow,
          ihLow, ihHigh, ihHigh, ← two_places_mul, base_succ]
        exact hfits

theorem add_mul_half {B res that : Nat} (value : Nat) :
    ((res + that * (value % 2)) % B + that * 2 % B * (value / 2)) % B =
      (res + that * value) % B := by
  calc ((res + that * (value % 2)) % B + that * 2 % B * (value / 2)) % B
      = (res + that * (value % 2) + that * 2 * (value / 2)) % B := by
        rw [mod_add_mod, add_mod, mod_mul_mod, ← add_mod]
    _ = (res + that * (value % 2 + 2 * (value / 2))) % B := by
        congr 1
        ring
    _ = (res + that * value) % B := by rw [mod_add_div]

/-- The loop adds the products of the bits that are left. -/
theorem toNat_multiplyLoop (type : NoWider (n + 1)) (res that : UFixedBigInt (n + 1))
    (other : type.Value) : (multiplyLoop type res that other).toNat =
      (res.toNat + that.toNat * type.toNat other) % base (n + 1) := by
  induction hvalue : type.toNat other using Nat.strongRecOn generalizing res that other with
  | ind value ih =>
    rw [multiplyLoop]
    split
    · next hzero =>
      have hsum : res.toNat + that.toNat * value = res.toNat := by
        rw [← hvalue, (type.isZero_iff other).mp hzero, Nat.mul_zero]
        omega
      rw [hsum, mod_eq_of_lt (toNat_lt res)]
    · next hnonzero =>
      have hpos := mt (type.isZero_iff other).mpr hnonzero
      have hhalf : type.toNat (type.shiftRight other 1) = value / 2 := by
        rw [NoWider.toNat_shiftRight, hvalue, Nat.pow_one]
      have hstep : (if type.lowestBit other then add n res that else res).toNat =
          (res.toNat + that.toNat * (value % 2)) % base (n + 1) := by
        split
        · next hbit =>
          rw [toNat_add, ← hvalue, (type.lowestBit_iff other).mp hbit, Nat.mul_one]
        · next hbit =>
          have hmod := mt (type.lowestBit_iff other).mpr hbit
          have heven : value % 2 = 0 := by omega
          have hres : res.toNat + that.toNat * 0 = res.toNat := by omega
          rw [heven, hres, mod_eq_of_lt (toNat_lt res)]
      rw [ih (value / 2) (by omega) _ _ _ hhalf, toNat_shiftLeft, Nat.pow_one, hstep, add_mul_half]

theorem toNat_multiply (type : NoWider (n + 1)) (a : UFixedBigInt (n + 1)) (other : type.Value) :
    (multiply type a other).toNat = a.toNat * type.toNat other % base (n + 1) := by
  rw [multiply, toNat_multiplyLoop, toNat_ofWord_zero, Nat.zero_add]

/-! ## Products are exact -/

/-- What is asked of `wide_multiply` and of `operator*`. -/
structure ExactProduct (hasInt128 : Bool) {n : Nat} (a b : UFixedBigInt (n + 1)) : Prop where
  wide : (wideMultiply hasInt128 (n + 1) a b).2.toNat * 2 ^ bits (n + 1) +
    (wideMultiply hasInt128 (n + 1) a b).1.toNat = a.toNat * b.toNat
  low : (multiply .same a b).toNat = a.toNat * b.toNat % 2 ^ bits (n + 1)

/-- Wide products are exact at every level, whichever way two words are multiplied. -/
theorem exactProduct (hasInt128 : Bool) {n : Nat} (a b : UFixedBigInt (n + 1)) :
    ExactProduct hasInt128 a b where
  wide := by
    have hparts := isProduct_wideMultiply hasInt128 a b
    rw [base, Nat.mul_comm (2 ^ bits (n + 1))] at hparts
    rw [← hparts, Nat.add_comm]
  low := toNat_multiply .same a b

end Literate.AK.UFixedBigInt
