import Literate.Foundation.LongDivision
import Literate.AK.UFixedBigIntMultiply

/-!
# AK: division of wide unsigned integers

`div_mod`, `operator/` and `operator%` of `AK/UFixedBigInt.h`.  The loop of `div_mod` keeps
the remainder in the type of the divisor, where its double may not fit: the long division
is exact just when that does not happen.
-/

namespace Literate.AK

open Foundation Option Nat Bool BitVec

namespace UFixedBigInt

/-- `clz`, with that of `count_leading_zeroes` for GCC and Clang. -/
def clz : {n : Nat} → UFixedBigInt n → Nat
  | _, .u64 value => value.clz.toNat
  | n + 1, .mk mLow mHigh => if mHigh.isZero then bits n + clz mLow else clz mHigh

/-- `operator>` for the same type. -/
def gt : {n : Nat} → UFixedBigInt n → UFixedBigInt n → Bool
  | _, .u64 value, .u64 other => decide (other < value)
  | _, .mk mLow mHigh, .mk otherLow otherHigh =>
    gt mHigh otherHigh || (eq mHigh otherHigh && gt mLow otherLow)

/-- `operator|=` with a `u32`. -/
def orWord : {n : Nat} → UFixedBigInt n → BitVec 32 → UFixedBigInt n
  | _, .u64 value, other => .u64 (value ||| other.setWidth 64)
  | _, .mk mLow mHigh, other => .mk (orWord mLow other) mHigh

end UFixedBigInt

namespace NoWider

open UFixedBigInt

/-- `operator==` of a number and a value of a type that is no wider. -/
def eq : {n : Nat} → UFixedBigInt n → (type : NoWider n) → type.Value → Bool
  | _, .u64 value, .builtin _, other => decide (value.toNat = BitVec.toNat other)
  | _, .mk mLow mHigh, .same, other => UFixedBigInt.eq (.mk mLow mHigh) other
  | _, .mk mLow mHigh, .narrower type, other => mHigh.isZero && eq mLow type other

/-- `static_cast<U>`. -/
def cast : {n : Nat} → UFixedBigInt n → (type : NoWider n) → type.Value
  | _, .u64 value, .builtin type => (BitVec.setWidth type.bits value : BitVec type.bits)
  | _, .mk mLow mHigh, .same => .mk mLow mHigh
  | _, .mk mLow _, .narrower type => cast mLow type

/-- `0u`, in the type. -/
def zero : {n : Nat} → (type : NoWider n) → type.Value
  | _, .builtin type => (0 : BitVec type.bits)
  | n + 1, .same => ofWord (n + 1) 0
  | _, .narrower type => zero type

/-- `value == 1u`. -/
def isOne : {n : Nat} → (type : NoWider n) → type.Value → Bool
  | _, .builtin _, value => decide (BitVec.toNat value = 1)
  | n + 1, .same, value => eq value (.ofBuiltin .u32 (n + 1)) (ofValue .u32 1 (n + 1))
  | _, .narrower type, value => isOne type value

/-- `value |= bit`, with an `unsigned` 0 or 1. -/
def orBit : {n : Nat} → (type : NoWider n) → type.Value → (bit : Bool) → type.Value
  | _, .builtin type, value, bit =>
    (BitVec.or value (BitVec.ofNat type.bits bit.toNat) : BitVec type.bits)
  | _, .same, value, bit => UFixedBigInt.orWord value (BitVec.ofNat 32 bit.toNat)
  | _, .narrower type, value, bit => orBit type value bit

/-- `value >= other`. -/
def ge : {n : Nat} → (type : NoWider n) → type.Value → type.Value → Bool
  | _, .builtin _, value, other => decide (BitVec.toNat other ≤ BitVec.toNat value)
  | _, .same, value, other => UFixedBigInt.eq value other || UFixedBigInt.gt value other
  | _, .narrower type, value, other => ge type value other

/-- `value -= other`. -/
def subtract : {n : Nat} → (type : NoWider n) → type.Value → type.Value → type.Value
  | _, .builtin type, value, other => (BitVec.sub value other : BitVec type.bits)
  | n + 1, .same, value, other => minus (n + 1) value .same other
  | _, .narrower type, value, other => subtract type value other

end NoWider

namespace UFixedBigInt

variable {n : Nat}

/-- The loop of `div_mod`, for the bits below `i`. -/
def divLoop (a : UFixedBigInt (n + 1)) (type : NoWider (n + 1)) (divisor : type.Value) :
    (i : Nat) → (quotient : UFixedBigInt (n + 1)) → (remainder : type.Value) →
      UFixedBigInt (n + 1) × type.Value
  | 0, quotient, remainder => (quotient, remainder)
  | i + 1, quotient, remainder =>
    let remainder := type.shiftLeft remainder 1
    let remainder := type.orBit remainder (shiftRight (n + 1) a i).lowestBit
    if type.ge remainder divisor then
      divLoop a type divisor i (or quotient (shiftLeft (n + 1) (ofWord (n + 1) 1) i))
        (type.subtract remainder divisor)
    else divLoop a type divisor i quotient remainder

/-- `div_mod`: the quotient and the remainder.  A division by zero is a fault. -/
def divMod (a : UFixedBigInt (n + 1)) (type : NoWider (n + 1)) (divisor : type.Value) :
    Option (UFixedBigInt (n + 1) × type.Value) :=
  if type.isZero divisor then none
  else if NoWider.lt a type divisor then some (ofWord (n + 1) 0, NoWider.cast a type)
  else if NoWider.eq a type divisor then some (ofWord (n + 1) 1, type.zero)
  else if type.isOne divisor then some (a, type.zero)
  else some (divLoop a type divisor (bits (n + 1) - a.clz) (ofWord (n + 1) 0) type.zero)

/-- `operator/`. -/
def div (a : UFixedBigInt (n + 1)) (type : NoWider (n + 1)) (other : type.Value) :
    Option (UFixedBigInt (n + 1)) :=
  (divMod a type other).map Prod.fst

/-- `operator%`.  Its remainder is of the type of the number, so it only compiles for a
divisor of that type. -/
def mod (a other : UFixedBigInt (n + 1)) : Option (UFixedBigInt (n + 1)) :=
  (divMod a .same other).map Prod.snd

/-! ## The operators on values -/

theorem clz_le (a : UFixedBigInt n) : a.clz ≤ bits n := by
  induction a with
  | u64 value => exact BitVec.clz_le
  | mk mLow mHigh ihLow ihHigh =>
    rw [clz, bits]
    split
    · omega
    · omega

theorem toNat_lt_clz (a : UFixedBigInt n) : a.toNat < 2 ^ (bits n - a.clz) := by
  induction a with
  | u64 value => exact toNat_lt_two_pow_sub_clz
  | @mk n mLow mHigh ihLow ihHigh =>
    have hle := clz_le mHigh
    rw [clz, toNat, bits]
    split
    · next hzero =>
      have hplaces : 2 * bits n - (bits n + mLow.clz) = bits n - mLow.clz := by omega
      rw [(isZero_iff mHigh).mp hzero, Nat.mul_zero, hplaces]
      exact ihLow
    · have hplaces : 2 * bits n - mHigh.clz = bits n + (bits n - mHigh.clz) := by omega
      rw [hplaces, Nat.pow_add]
      exact two_places_lt mLow.toNat_lt ihHigh

theorem gt_iff {a b : UFixedBigInt n} : gt a b = true ↔ b.toNat < a.toNat := by
  induction a with
  | u64 value =>
    cases b with
    | u64 other =>
      rw [gt, toNat, toNat, decide_eq_true_eq]
      exact lt_def
  | mk mLow mHigh ihLow ihHigh =>
    cases b with
    | mk otherLow otherHigh =>
      rw [gt, toNat, toNat, two_places_lt_iff otherLow.toNat_lt mLow.toNat_lt,
        or_eq_true, and_eq_true, ihLow, ihHigh, eq_iff, eq_comm]

theorem two_dvd_base (n : Nat) : 2 ∣ base n :=
  Nat.dvd_trans (Nat.pow_dvd_pow 2 (by decide : 1 ≤ 64)) (dvd_base n)

/-- The lowest bit of an even number is set in the lowest word. -/
theorem toNat_orWord {a : UFixedBigInt n} (heven : a.toNat % 2 = 0) (bit : Bool) :
    (orWord a (BitVec.ofNat 32 bit.toNat)).toNat = a.toNat + bit.toNat := by
  induction a with
  | u64 value =>
    have hbit : ((BitVec.ofNat 32 bit.toNat).setWidth 64).toNat = bit.toNat := by cases bit <;> rfl
    rw [orWord, toNat, toNat, BitVec.toNat_or, hbit]
    exact or_toNat_of_even heven bit
  | @mk n mLow mHigh ihLow ihHigh =>
    obtain ⟨k, hk⟩ := two_dvd_base n
    rw [toNat, hk, Nat.mul_assoc, add_mul_mod_self_left] at heven
    rw [orWord, toNat, toNat, ihLow heven]
    omega

end UFixedBigInt

namespace NoWider

variable {n : Nat}

theorem eq_iff {a : UFixedBigInt n} {type : NoWider n} {other : type.Value} :
    eq a type other = true ↔ a.toNat = type.toNat other := by
  induction type with
  | builtin type =>
    cases a with
    | u64 value => exact decide_eq_true_iff
  | same =>
    cases a with
    | mk mLow mHigh => exact UFixedBigInt.eq_iff
  | @narrower n type ih =>
    cases a with
    | mk mLow mHigh =>
      rw [eq, and_eq_true, ih, UFixedBigInt.isZero_iff, UFixedBigInt.toNat, toNat,
        two_places_eq_low_iff mLow.toNat_lt (toNat_lt type other)]

section

variable (type : NoWider n)

theorem bits_le : type.bits ≤ UFixedBigInt.bits n := by
  induction type with
  | builtin type => exact type.bits_le
  | same => exact Nat.le_refl _
  | narrower type ih =>
    rw [bits, UFixedBigInt.bits]
    omega

theorem bits_pos : 0 < type.bits := by
  induction type with
  | builtin type => cases type <;> decide
  | same => exact UFixedBigInt.bits_pos _
  | narrower type ih => exact ih

theorem toNat_cast {a : UFixedBigInt n} (hfits : a.toNat < 2 ^ type.bits) :
    type.toNat (cast a type) = a.toNat := by
  induction type with
  | builtin type =>
    cases a with
    | u64 value => exact (toNat_setWidth _ _).trans (mod_eq_of_lt hfits)
  | same =>
    cases a with
    | mk mLow mHigh => rfl
  | @narrower n type ih =>
    cases a with
    | mk mLow mHigh =>
      have hlow : mLow.toNat + UFixedBigInt.base n * mHigh.toNat < UFixedBigInt.base n :=
        Nat.lt_of_lt_of_le hfits (Nat.pow_le_pow_right (by decide) type.bits_le)
      have hhigh : mHigh.toNat = 0 := by
        rcases Nat.eq_zero_or_pos mHigh.toNat with hzero | hpos
        · exact hzero
        · have hle := Nat.le_mul_of_pos_right (UFixedBigInt.base n) hpos
          omega
      have hvalue : (UFixedBigInt.mk mLow mHigh).toNat = mLow.toNat := by
        rw [UFixedBigInt.toNat, hhigh, Nat.mul_zero, Nat.add_zero]
      rw [hvalue] at hfits ⊢
      exact ih hfits

theorem toNat_zero : type.toNat type.zero = 0 := by
  induction type with
  | builtin type => exact BitVec.toNat_zero
  | same => exact UFixedBigInt.toNat_ofWord_zero _
  | narrower type ih => exact ih

theorem isOne_iff (value : type.Value) : type.isOne value = true ↔ type.toNat value = 1 := by
  induction type with
  | builtin type => exact decide_eq_true_iff
  | same =>
    rw [isOne, eq_iff, toNat_ofValue]
    rfl
  | narrower type ih => exact ih value

theorem toNat_orBit {value : type.Value} (heven : type.toNat value % 2 = 0) (bit : Bool) :
    type.toNat (type.orBit value bit) = type.toNat value + bit.toNat := by
  induction type with
  | builtin type =>
    have hbit : (BitVec.ofNat type.bits bit.toNat).toNat = bit.toNat := by
      rw [toNat_ofNat]
      exact mod_eq_of_lt (Nat.lt_of_lt_of_le (Bool.toNat_lt bit)
        (Nat.pow_le_pow_right Nat.two_pos (bits_pos (.builtin type))))
    exact (BitVec.toNat_or _ _).trans (hbit.symm ▸ or_toNat_of_even heven bit)
  | same => exact UFixedBigInt.toNat_orWord heven bit
  | narrower type ih => exact ih heven

theorem ge_iff (value other : type.Value) :
    type.ge value other = true ↔ type.toNat other ≤ type.toNat value := by
  induction type with
  | builtin type => exact decide_eq_true_iff
  | same =>
    rw [ge, or_eq_true, UFixedBigInt.eq_iff, UFixedBigInt.gt_iff, toNat, toNat]
    omega
  | narrower type ih => exact ih value other

theorem toNat_subtract {value other : type.Value} (hle : type.toNat other ≤ type.toNat value) :
    type.toNat (type.subtract value other) = type.toNat value - type.toNat other := by
  induction type with
  | builtin type => exact BitVec.toNat_sub_of_le hle
  | @same n =>
    have hle' : UFixedBigInt.toNat other ≤ UFixedBigInt.toNat value := hle
    have hminus := (UFixedBigInt.exact_minus (n + 1) value .same other).eq
    rw [toNat, decide_eq_false (Nat.not_lt.mpr hle'), toNat_false] at hminus
    simp only [subtract, toNat]
    omega
  | narrower type ih => exact ih hle

end

end NoWider

/-! ## The loop is a long division -/

namespace UFixedBigInt

variable {n : Nat}

/-- A quotient and a remainder as numbers. -/
def divided {type : NoWider (n + 1)} (result : UFixedBigInt (n + 1) × type.Value) : Divided :=
  ⟨result.1.toNat, type.toNat result.2⟩

theorem toNat_ofWord_one (n : Nat) : (ofWord n 1).toNat = 1 := toNat_ofWord n 1

/-- A bit taken down to the remainder, whose double may be cut off. -/
theorem toNat_takeDown (a : UFixedBigInt (n + 1)) (type : NoWider (n + 1)) (i : Nat)
    (remainder : type.Value) :
    type.toNat (type.orBit (type.shiftLeft remainder 1) (shiftRight (n + 1) a i).lowestBit) =
      type.toNat remainder * 2 % 2 ^ type.bits + a.toNat / 2 ^ i % 2 := by
  have hbit : (shiftRight (n + 1) a i).lowestBit.toNat = a.toNat / 2 ^ i % 2 := by
    have hiff := lowestBit_iff (shiftRight (n + 1) a i)
    rw [toNat_shiftRight] at hiff
    cases hlowest : (shiftRight (n + 1) a i).lowestBit with
    | true => exact (hiff.mp hlowest).symm
    | false =>
      have hnot := mt hiff.mpr (hlowest ▸ Bool.false_ne_true)
      rw [toNat_false]
      omega
  have hshift := type.toNat_shiftLeft remainder 1
  rw [Nat.pow_one] at hshift
  have heven : type.toNat (type.shiftLeft remainder 1) % 2 = 0 := by
    rw [hshift, mod_mod_of_dvd _ (dvd_pow_self 2 (Nat.pos_iff_ne_zero.mp type.bits_pos)),
      mul_mod_left]
  rw [type.toNat_orBit heven, hshift, hbit]

theorem toNat_or_bit {quotient : UFixedBigInt n} {i : Nat} (hi : i < bits n)
    (hdvd : 2 ^ (i + 1) ∣ quotient.toNat) :
    (or quotient (shiftLeft n (ofWord n 1) i)).toNat = quotient.toNat + 2 ^ i := by
  rw [toNat_or, toNat_shiftLeft, toNat_ofWord_one, Nat.one_mul, base,
    mod_eq_of_lt (Nat.pow_lt_pow_right Nat.one_lt_two hi), or_two_pow_of_dvd hdvd]

theorem divided_divLoop (a : UFixedBigInt (n + 1)) (type : NoWider (n + 1)) (divisor : type.Value)
    {i : Nat} (hi : i ≤ bits (n + 1)) {quotient : UFixedBigInt (n + 1)}
    (hdvd : 2 ^ i ∣ quotient.toNat) (remainder : type.Value) :
    divided (divLoop a type divisor i quotient remainder) =
      Divided.divideFrom (2 ^ type.bits) a.toNat (type.toNat divisor) i
        (divided (quotient, remainder)) := by
  induction i generalizing quotient remainder with
  | zero => rfl
  | succ i ih =>
    have hbit := toNat_takeDown a type i remainder
    have hor := toNat_or_bit hi hdvd
    have hdvd' : 2 ^ i ∣ quotient.toNat :=
      Nat.dvd_trans (Nat.pow_dvd_pow 2 (le_succ i)) hdvd
    rw [divLoop, Divided.divideFrom, Divided.step]
    split
    · next hge =>
      have hle := (type.ge_iff _ _).mp hge
      rw [ih (Nat.le_of_lt hi) (by rw [hor]; exact Nat.dvd_add hdvd' (Nat.dvd_refl _))]
      rw [hbit] at hle
      rw [divided, divided, hor, type.toNat_subtract (by rw [hbit]; exact hle), hbit, if_pos hle]
    · next hless =>
      have hnot := mt (type.ge_iff _ _).mpr hless
      rw [hbit] at hnot
      rw [ih (Nat.le_of_lt hi) hdvd', divided, divided, hbit, if_neg hnot]

/-! ## When division is exact -/

/-- What is asked of `div_mod` and of the operators. -/
structure ExactDivision (a : UFixedBigInt (n + 1)) (type : NoWider (n + 1)) (divisor : type.Value) :
    Prop where
  divMod : ∃ quotient remainder, divMod a type divisor = some (quotient, remainder) ∧
    a.toNat = quotient.toNat * type.toNat divisor + type.toNat remainder ∧
      type.toNat remainder < type.toNat divisor
  div : ∃ quotient, div a type divisor = some quotient ∧
    quotient.toNat = a.toNat / type.toNat divisor
  mod : ∀ other : UFixedBigInt (n + 1), type = .same → other.toNat = type.toNat divisor →
    ∃ remainder, mod a other = some remainder ∧ remainder.toNat = a.toNat % other.toNat

/-- The double of no remainder on the way is cut off. -/
def Fits (a : UFixedBigInt (n + 1)) (type : NoWider (n + 1)) (divisor : type.Value) : Prop :=
  ∀ i, 0 < i → a.toNat / 2 ^ i % type.toNat divisor < 2 ^ (type.bits - 1)

variable {a : UFixedBigInt (n + 1)} {type : NoWider (n + 1)} {divisor : type.Value}

theorem fits_iff : Fits a type divisor ↔
      ∀ i, 0 < i → a.toNat / 2 ^ i % type.toNat divisor * 2 < 2 ^ type.bits := by
  have hpow : 2 ^ type.bits = 2 ^ (type.bits - 1) * 2 := by
    rw [← Nat.pow_succ, succ_eq_add_one, Nat.sub_add_cancel type.bits_pos]
  unfold Fits
  rw [hpow]
  exact forall₂_congr fun i hi => (Nat.mul_lt_mul_right Nat.two_pos).symm

theorem fits_of_lt (hlt : a.toNat < 2 ^ type.bits) : Fits a type divisor := by
  rw [fits_iff]
  intro i hi
  have hhalf : a.toNat / 2 ^ i * 2 ≤ a.toNat := by
    calc a.toNat / 2 ^ i * 2 ≤ a.toNat / 2 ^ i * 2 ^ i :=
          Nat.mul_le_mul_left _ (Nat.pow_le_pow_right Nat.two_pos hi)
      _ ≤ a.toNat := div_mul_le_self _ _
  have hmod := mod_le (a.toNat / 2 ^ i) (type.toNat divisor)
  omega

theorem fits_of_one (hone : type.toNat divisor = 1) : Fits a type divisor := by
  intro i _
  rw [hone, mod_one]
  exact Nat.two_pow_pos _

/-- `div_mod` gives the quotient and the remainder just when no double is cut off. -/
theorem divMod_iff (a : UFixedBigInt (n + 1)) (type : NoWider (n + 1)) {divisor : type.Value}
    (hpos : 0 < type.toNat divisor) : ∃ result, divMod a type divisor = some result ∧
      (Divided.IsDivision a.toNat (type.toNat divisor) (divided result) ↔ Fits a type divisor) := by
  have hbits := type.toNat_lt_bits divisor
  have hnonzero := mt (type.isZero_iff divisor).mp (Nat.pos_iff_ne_zero.mp hpos)
  unfold divMod
  rw [if_neg hnonzero]
  split_ifs with hless heq hone
  · have hlt := NoWider.lt_iff.mp hless
    refine ⟨_, rfl, fun _ => fits_of_lt (Nat.lt_trans hlt hbits), fun _ => ?_⟩
    rw [divided, toNat_ofWord_zero, type.toNat_cast (Nat.lt_trans hlt hbits)]
    exact ⟨(by rw [Nat.zero_mul, Nat.zero_add]), hlt⟩
  · have hvalue := NoWider.eq_iff.mp heq
    refine ⟨_, rfl, fun _ => fits_of_lt (hvalue ▸ hbits), fun _ => ?_⟩
    rw [divided, toNat_ofWord_one, type.toNat_zero, hvalue]
    exact ⟨(Nat.one_mul _).symm, hpos⟩
  · have hvalue := (type.isOne_iff divisor).mp hone
    refine ⟨_, rfl, fun _ => fits_of_one hvalue, fun _ => ?_⟩
    rw [divided, type.toNat_zero, hvalue]
    exact ⟨(Nat.mul_one _).symm, Nat.one_pos⟩
  · refine ⟨_, rfl, ?_⟩
    have hdvd : 2 ^ (bits (n + 1) - a.clz) ∣ (ofWord (n + 1) 0).toNat := by
      rw [toNat_ofWord_zero]
      exact Nat.dvd_zero _
    rw [divided_divLoop a type divisor (sub_le _ _) hdvd, divided, toNat_ofWord_zero,
      type.toNat_zero, Divided.divideFrom_iff hpos hbits (toNat_lt_clz a), fits_iff]

/-- `operator%` divides by its own type, where every double fits. -/
theorem toNat_mod (a : UFixedBigInt (n + 1)) {other : UFixedBigInt (n + 1)}
    (hpos : 0 < other.toNat) :
    ∃ remainder, mod a other = some remainder ∧ remainder.toNat = a.toNat % other.toNat := by
  obtain ⟨result, hdivMod, hiff⟩ := divMod_iff a .same hpos
  have hdivision := (Divided.isDivision_iff hpos).mp (hiff.mpr (fits_of_lt a.toNat_lt))
  refine ⟨result.2, ?_, hdivision.2⟩
  rw [mod, hdivMod, map_some]

/-- Division is exact just when no double is cut off. -/
theorem exactDivision_iff (a : UFixedBigInt (n + 1)) (type : NoWider (n + 1))
    (divisor : type.Value) (hpos : 0 < type.toNat divisor) : ExactDivision a type divisor ↔
      ∀ i, 0 < i → a.toNat / 2 ^ i % type.toNat divisor < 2 ^ (type.bits - 1) := by
  obtain ⟨result, hdivMod, hiff⟩ := divMod_iff a type hpos
  constructor
  · intro h
    obtain ⟨quotient, remainder, hresult, heq, hlt⟩ := h.divMod
    have hsame := some.inj (hdivMod.symm.trans hresult)
    apply hiff.mp
    rw [hsame]
    exact ⟨heq, hlt⟩
  · intro hfits
    have hdivision := hiff.mpr hfits
    refine ⟨⟨result.1, result.2, hdivMod, hdivision.eq, hdivision.lt⟩,
      ⟨result.1, ?_, ((Divided.isDivision_iff hpos).mp hdivision).1⟩, ?_⟩
    · rw [div, hdivMod, map_some]
    · intro other _ hother
      exact toNat_mod a (hother ▸ hpos)

theorem exactDivision_iff_sample :
    0 < (NoWider.narrower (.builtin .u8) : NoWider 1).toNat (100 : BitVec 8) ∧
      (ExactDivision (.mk (.u64 300) (.u64 0)) (.narrower (.builtin .u8)) (100 : BitVec 8) ↔
        ∀ i, 0 < i → 300 / 2 ^ i % 100 < 2 ^ 7) :=
  ⟨by decide, exactDivision_iff (.mk (.u64 300) (.u64 0)) (.narrower (.builtin .u8))
    (100 : BitVec 8) (by decide)⟩

/-- The `u128` 300 by the `u8` 200: the remainder 150 is doubled to 300, which a `u8` holds
as 44. -/
theorem not_exactDivision_sample :
    (divMod (.mk (.u64 300) (.u64 0)) (.narrower (.builtin .u8)) (200 : BitVec 8)).map divided =
        some ⟨0, 44⟩ ∧
      ¬ ExactDivision (.mk (.u64 300) (.u64 0)) (.narrower (.builtin .u8)) (200 : BitVec 8) := by
  have hvalue : (divMod (.mk (.u64 300) (.u64 0)) (.narrower (.builtin .u8))
      (200 : BitVec 8)).map divided = some ⟨0, 44⟩ := by
    decide
  refine ⟨hvalue, fun h => ?_⟩
  obtain ⟨quotient, remainder, hresult, heq, -⟩ := h.divMod
  rw [hresult, map_some, some.injEq, divided, Divided.mk.injEq] at hvalue
  rw [hvalue.1, hvalue.2] at heq
  revert heq
  decide

end UFixedBigInt

end Literate.AK
