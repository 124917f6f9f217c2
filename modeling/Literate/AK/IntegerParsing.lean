import Literate.AK.StringUtils
import Literate.Foundation.Numerals

/-!
# AK: the conversions to integers are exact

`convert_to_int`, `convert_to_uint`, `convert_to_uint_from_hex` and
`convert_to_uint_from_octal` of `AK/StringUtils.cpp`, for the types that they are
instantiated with.  A `long` has 64 bits.
-/

namespace Literate.AK

open Foundation Option

/-- The types of the instantiations. -/
inductive IntegerType
  | i8
  | i16
  | i32
  | long
  | longLong
  | u8
  | u16
  | u32
  | u64
  | unsignedLong
  | unsignedLongLong
  deriving DecidableEq, Repr

namespace IntegerType

/-- The bits of a type that are not its sign. -/
def valueBits : IntegerType → Nat
  | i8 => 7
  | i16 => 15
  | i32 => 31
  | long => 63
  | longLong => 63
  | u8 => 8
  | u16 => 16
  | u32 => 32
  | u64 => 64
  | unsignedLong => 64
  | unsignedLongLong => 64

/-- The largest value of a type. -/
def max (T : IntegerType) : Nat := 2 ^ T.valueBits - 1

/-- The smallest value of a signed type. -/
def signedMin (T : IntegerType) : Int := -2 ^ T.valueBits

end IntegerType

variable {c : UInt8} {d k : Nat} {sign n : Int} {str : List UInt8}

namespace StringUtils

/-- The value of an octal digit. -/
def octalDigit (c : UInt8) : Option Nat :=
  if byte '0' ≤ c ∧ c ≤ byte '7' then some (c - byte '0').toNat else none

/-- The loop of `convert_to_uint_from_octal<T>`. -/
def convertToUintFromOctalLoop (bits : Nat) : List UInt8 → Nat → Option Nat
  | [], value => some value
  | c :: str, value =>
    if (2 ^ bits - 1) / 2 ^ 3 < value then none
    else match octalDigit c with
      | none => none
      | some digit => convertToUintFromOctalLoop bits str (value * 2 ^ 3 + digit)

/-- `convert_to_uint_from_octal<T>`. -/
def convertToUintFromOctal (bits : Nat) (str : List UInt8) (mode : TrimWhitespace) : Option Nat :=
  let string := converted str mode
  if string = [] then none else convertToUintFromOctalLoop bits string 0

/-- The instantiations of `convert_to_int`. -/
def convertToIntTypes : List IntegerType := [.i8, .i16, .i32, .long, .longLong]

/-- The instantiations of `convert_to_uint`. -/
def convertToUintTypes : List IntegerType :=
  [.u8, .u16, .u32, .unsignedLong, .unsignedLongLong, .long, .longLong]

/-- The instantiations of `convert_to_uint_from_hex` and `convert_to_uint_from_octal`. -/
def convertToUintFromBaseTypes : List IntegerType := [.u8, .u16, .u32, .u64]

/-! ## Digits -/

/-- The value of a decimal digit, if it is one. -/
def decimalDigit (c : UInt8) : Option Nat := if isDigit c then some (digit c) else none

theorem toNat_sub_le {a b : UInt8} (h : a ≤ c ∧ c ≤ b) : (c - a).toNat + a.toNat ≤ b.toNat := by
  have hlow := UInt8.le_iff_toNat_le.mp h.1
  have hhigh := UInt8.le_iff_toNat_le.mp h.2
  rw [UInt8.toNat_sub_of_le _ _ h.1]
  omega

theorem octalDigit_lt (h : octalDigit c = some d) : d < 2 ^ 3 := by
  rw [octalDigit] at h
  split at h
  next hc =>
      have hle := toNat_sub_le hc
      have hseven : (byte '7').toNat = (byte '0').toNat + 7 := by decide
      rw [some.injEq] at h
      omega
  next => cases h

theorem hexDigit_lt (h : hexDigit c = some d) : d < 2 ^ 4 := by
  have hnine : (byte '9').toNat = (byte '0').toNat + 9 := by decide
  have hlower : (byte 'f').toNat = (byte 'a').toNat + 5 := by decide
  have hupper : (byte 'F').toNat = (byte 'A').toNat + 5 := by decide
  rw [hexDigit] at h
  split at h
  next hc =>
      have hle := toNat_sub_le hc
      rw [some.injEq] at h
      omega
  next =>
      split at h
      next hc =>
          have hle := toNat_sub_le hc
          rw [some.injEq] at h
          omega
      next =>
          split at h
          next hc =>
              have hle := toNat_sub_le hc
              rw [some.injEq] at h
              omega
          next => cases h

/-! ## The loops -/

theorem convertToUintLoop_eq (bits : Nat) (str : List UInt8) (value : Nat) :
    convertToUintLoop bits str value = accumulate 10 decimalDigit (2 ^ bits - 1) str value := by
  have hpos := Nat.two_pow_pos bits
  induction str generalizing value with
  | nil => rfl
  | cons c str ih =>
    rw [convertToUintLoop, accumulate, decimalDigit]
    by_cases hc : isDigit c = true
    · rw [if_neg (not_not.mpr hc), if_pos hc, bind_some, ← ih]
      by_cases hfits : value * 10 + digit c ≤ 2 ^ bits - 1
      · rw [if_neg (by omega), if_neg (by omega), if_pos hfits]
      · rw [if_neg hfits]
        by_cases hmul : 2 ^ bits ≤ value * 10
        · rw [if_pos hmul]
        · rw [if_neg hmul, if_pos (by omega)]
    · rw [if_pos hc, if_neg hc, bind_none]

/-- The bound on the value before a shift is the bound on the value after it, since all bits
of the bound are set. -/
theorem shift_bound {bits digit : Nat} (hk : k ≤ bits) (hdigit : digit < 2 ^ k) (value : Nat) :
    (2 ^ bits - 1) / 2 ^ k < value ↔ ¬ value * 2 ^ k + digit ≤ 2 ^ bits - 1 := by
  have hsplit : 2 ^ bits = 2 ^ (bits - k) * 2 ^ k := by rw [← Nat.pow_add, Nat.sub_add_cancel hk]
  have hpos := Nat.two_pow_pos bits
  rw [Nat.div_lt_iff_lt_mul (Nat.two_pow_pos k), Nat.not_le]
  constructor
  · intro h
    omega
  · intro h
    by_contra hsmall
    have hlt : value * 2 ^ k < 2 ^ (bits - k) * 2 ^ k := by omega
    have hvalue : value + 1 ≤ 2 ^ (bits - k) := Nat.lt_of_mul_lt_mul_right hlt
    have hmul : (value + 1) * 2 ^ k ≤ 2 ^ (bits - k) * 2 ^ k := Nat.mul_le_mul_right _ hvalue
    rw [Nat.add_mul] at hmul
    omega

/-- A loop that shifts by `k` bits and stops at the value that has no room for another digit. -/
theorem shiftLoop_eq {bits : Nat} {digitOf : UInt8 → Option Nat}
    {loop : List UInt8 → Nat → Option Nat} (hk : k ≤ bits)
    (hdigit : ∀ {c : UInt8} {digit : Nat}, digitOf c = some digit → digit < 2 ^ k)
    (hnil : ∀ value, loop [] value = some value) (hcons : ∀ c str value, loop (c :: str) value =
      if (2 ^ bits - 1) / 2 ^ k < value then none
      else (digitOf c).bind fun digit => loop str (value * 2 ^ k + digit))
    (str : List UInt8) (value : Nat) :
    loop str value = accumulate (2 ^ k) digitOf (2 ^ bits - 1) str value := by
  induction str generalizing value with
  | nil => exact hnil value
  | cons c str ih =>
    rw [hcons, accumulate]
    cases hc : digitOf c with
    | none => exact ite_self none
    | some digit =>
      simp only [bind_some, ih]
      by_cases hfits : value * 2 ^ k + digit ≤ 2 ^ bits - 1
      · rw [if_neg (mt (shift_bound hk (hdigit hc) value).mp (not_not.mpr hfits)), if_pos hfits]
      · rw [if_pos ((shift_bound hk (hdigit hc) value).mpr hfits), if_neg hfits]

theorem convertToUintFromHexLoop_eq {bits : Nat} (hbits : 4 ≤ bits) (str : List UInt8)
    (value : Nat) : convertToUintFromHexLoop bits str value =
      accumulate 16 hexDigit (2 ^ bits - 1) str value := by
  refine shiftLoop_eq hbits hexDigit_lt (fun _ => rfl) (fun c str value => ?_) str value
  rw [convertToUintFromHexLoop]
  cases hexDigit c <;> rfl

theorem convertToUintFromOctalLoop_eq {bits : Nat} (hbits : 3 ≤ bits) (str : List UInt8)
    (value : Nat) : convertToUintFromOctalLoop bits str value =
      accumulate 8 octalDigit (2 ^ bits - 1) str value := by
  refine shiftLoop_eq hbits octalDigit_lt (fun _ => rfl) (fun c str value => ?_) str value
  rw [convertToUintFromOctalLoop]
  cases octalDigit c <;> rfl

/-- With either sign the loop reads the digits up to the bound of that sign. -/
theorem convertToIntLoop_eq {bits max : Nat}
    (hrange : ∀ m : Nat, inRange bits (sign * m) = true ↔ m ≤ max) (str : List UInt8)
    (value : Nat) : convertToIntLoop bits sign str (sign * value) =
      (accumulate 10 decimalDigit max str value).map fun n : Nat => sign * n := by
  induction str generalizing value with
  | nil => rfl
  | cons c str ih =>
    have hmul : sign * value * 10 = sign * (value * 10 : Nat) := by
      rw [Int.mul_assoc]
      rfl
    have hsum : sign * value * 10 + sign * digit c = sign * (value * 10 + digit c : Nat) := by
      rw [hmul, ← Int.mul_add]
      rfl
    rw [convertToIntLoop, accumulate, decimalDigit]
    by_cases hc : isDigit c = true
    · have htimes := hrange (value * 10)
      have hplus := hrange (value * 10 + digit c)
      rw [if_neg (not_not.mpr hc), if_pos hc, bind_some, hsum, hmul, ih]
      by_cases hfits : value * 10 + digit c ≤ max
      · rw [if_neg (not_not.mpr (htimes.mpr (by omega))), if_neg (not_not.mpr (hplus.mpr hfits)),
          if_pos hfits]
      · rw [if_neg hfits, if_pos (mt hplus.mp hfits), ite_self]
        rfl
    · rw [if_pos hc, if_neg hc, bind_none, map_none]

/-! ## The conversions -/

/-- A text of an optional sign and at least one digit, and its number. -/
def IsSignedNumeral (str : List UInt8) (n : Int) : Prop :=
  ∃ digits m, digits ≠ [] ∧ numeral 10 decimalDigit digits = some m ∧
    ((str = digits ∨ str = byte '+' :: digits) ∧ n = m ∨ str = byte '-' :: digits ∧ n = -m)

theorem inRange_pos (bits m : Nat) : inRange bits (1 * m) = true ↔ m ≤ 2 ^ (bits - 1) - 1 := by
  have hpos := Nat.two_pow_pos (bits - 1)
  have hcast : ((2 ^ (bits - 1) : Nat) : Int) = 2 ^ (bits - 1) := by norm_cast
  rw [inRange, decide_eq_true_iff, ← hcast]
  omega

theorem inRange_neg (bits m : Nat) : inRange bits (-1 * m) = true ↔ m ≤ 2 ^ (bits - 1) := by
  have hpos := Nat.two_pow_pos (bits - 1)
  have hcast : ((2 ^ (bits - 1) : Nat) : Int) = 2 ^ (bits - 1) := by norm_cast
  rw [inRange, decide_eq_true_iff, ← hcast]
  omega

theorem decimalDigit_sign (hc : c = byte '-' ∨ c = byte '+') : decimalDigit c = none := by
  rcases hc with rfl | rfl <;> decide

theorem isSignedNumeral_minus : IsSignedNumeral (byte '-' :: str) n ↔
      str ≠ [] ∧ ∃ m, numeral 10 decimalDigit str = some m ∧ n = -1 * m := by
  constructor
  · rintro ⟨digits, m, hne, hm, ⟨rfl | hplus, -⟩ | ⟨hminus, rfl⟩⟩
    · rw [numeral_cons_none (decimalDigit_sign (.inl rfl))] at hm
      cases hm
    · exact absurd (List.cons.inj hplus).1 (by decide)
    · obtain rfl := (List.cons.inj hminus).2
      exact ⟨hne, m, hm, (Int.neg_one_mul _).symm⟩
  · rintro ⟨hne, m, hm, rfl⟩
    exact ⟨str, m, hne, hm, .inr ⟨rfl, Int.neg_one_mul _⟩⟩

theorem isSignedNumeral_plus : IsSignedNumeral (byte '+' :: str) n ↔
      str ≠ [] ∧ ∃ m, numeral 10 decimalDigit str = some m ∧ n = 1 * m := by
  constructor
  · rintro ⟨digits, m, hne, hm, ⟨rfl | hplus, rfl⟩ | ⟨hminus, -⟩⟩
    · rw [numeral_cons_none (decimalDigit_sign (.inr rfl))] at hm
      cases hm
    · obtain rfl := (List.cons.inj hplus).2
      exact ⟨hne, m, hm, (Int.one_mul _).symm⟩
    · exact absurd (List.cons.inj hminus).1 (by decide)
  · rintro ⟨hne, m, hm, rfl⟩
    exact ⟨str, m, hne, hm, .inl ⟨.inr rfl, Int.one_mul _⟩⟩

theorem isSignedNumeral_other (hc : ¬ (c = byte '-' ∨ c = byte '+')) :
    IsSignedNumeral (c :: str) n ↔
      ∃ m, numeral 10 decimalDigit (c :: str) = some m ∧ n = 1 * m := by
  constructor
  · rintro ⟨digits, m, -, hm, ⟨rfl | hplus, rfl⟩ | ⟨hminus, -⟩⟩
    · exact ⟨m, hm, (Int.one_mul _).symm⟩
    · exact absurd (.inr (List.cons.inj hplus).1) hc
    · exact absurd (.inl (List.cons.inj hminus).1) hc
  · rintro ⟨m, hm, rfl⟩
    exact ⟨c :: str, m, List.cons_ne_nil c str, hm, .inl ⟨.inl rfl, Int.one_mul _⟩⟩

theorem convertToIntLoop_iff {bits max : Nat}
    (hrange : ∀ m : Nat, inRange bits (sign * m) = true ↔ m ≤ max) :
    convertToIntLoop bits sign str 0 = some n ↔
      (∃ m : Nat, numeral 10 decimalDigit str = some m ∧ n = sign * m) ∧
        inRange bits n = true := by
  have hloop := convertToIntLoop_eq hrange str 0
  rw [Int.natCast_zero, Int.mul_zero] at hloop
  rw [hloop, map_eq_some_iff]
  constructor
  · rintro ⟨m, hm, rfl⟩
    obtain ⟨hnumeral, hle⟩ := (accumulate_zero_iff (by decide)).mp hm
    exact ⟨⟨m, hnumeral, rfl⟩, (hrange m).mpr hle⟩
  · rintro ⟨⟨m, hnumeral, rfl⟩, hin⟩
    exact ⟨m, (accumulate_zero_iff (by decide)).mpr ⟨hnumeral, (hrange m).mp hin⟩, rfl⟩

/-- `convert_to_int` gives the number of a signed numeral that is in range. -/
theorem convertToInt_iff (bits : Nat) (str : List UInt8) (n : Int) :
    convertToInt bits str .no = some n ↔ IsSignedNumeral str n ∧ inRange bits n = true := by
  cases str with
  | nil =>
    refine iff_of_false (some_ne_none n).symm ?_
    rintro ⟨⟨digits, m, hne, -, ⟨hnil | hnil, -⟩ | ⟨hnil, -⟩⟩, -⟩
    · exact hne hnil.symm
    · cases hnil
    · cases hnil
  | cons c str =>
    have hunfold : convertToInt bits (c :: str) .no =
        if c = byte '-' ∨ c = byte '+' then
          if str = [] then none
          else convertToIntLoop bits (if c = byte '-' then -1 else 1) str 0
        else convertToIntLoop bits 1 (c :: str) 0 := rfl
    rw [hunfold]
    by_cases hsign : c = byte '-' ∨ c = byte '+'
    · rw [if_pos hsign]
      have hempty : ∀ {r : Option Int} {P : Prop}, (r = some n ↔ P ∧ inRange bits n = true) →
          ((if str = [] then none else r) = some n ↔
            (str ≠ [] ∧ P) ∧ inRange bits n = true) := by
        intro r P h
        by_cases hnil : str = []
        · rw [if_pos hnil]
          exact iff_of_false (some_ne_none n).symm fun hall => hall.1.1 hnil
        · rw [if_neg hnil, h, and_iff_right hnil]
      rcases hsign with rfl | rfl
      · rw [isSignedNumeral_minus, if_pos rfl]
        exact hempty (convertToIntLoop_iff (inRange_neg bits))
      · have hplus : byte '+' ≠ byte '-' := by decide
        rw [isSignedNumeral_plus, if_neg hplus]
        exact hempty (convertToIntLoop_iff (inRange_pos bits))
    · rw [if_neg hsign, isSignedNumeral_other hsign]
      exact convertToIntLoop_iff (inRange_pos bits)

theorem accumulate_nonempty_iff {base max : Nat} {digitOf : UInt8 → Option Nat} (hbase : 0 < base)
    {n : Nat} : (if str = [] then none else accumulate base digitOf max str 0) = some n ↔
      str ≠ [] ∧ numeral base digitOf str = some n ∧ n ≤ max := by
  by_cases hnil : str = []
  · rw [if_pos hnil]
    exact iff_of_false (some_ne_none n).symm fun h => h.1 hnil
  · rw [if_neg hnil, accumulate_zero_iff hbase, and_iff_right hnil]

/-- Each conversion gives a number for exactly the texts that denote one in the range of the
type. -/
theorem conversions_exact : (∀ T ∈ convertToIntTypes, ∀ (str : List UInt8) (n : Int),
      convertToInt (T.valueBits + 1) str .no = some n ↔
        IsSignedNumeral str n ∧ T.signedMin ≤ n ∧ n ≤ T.max) ∧
    (∀ T ∈ convertToUintTypes, ∀ (str : List UInt8) (n : Nat),
      convertToUint T.valueBits str .no = some n ↔
        str ≠ [] ∧ numeral 10 decimalDigit str = some n ∧ n ≤ T.max) ∧
    (∀ T ∈ convertToUintFromBaseTypes, ∀ (str : List UInt8) (n : Nat),
      convertToUintFromHex T.valueBits str .no = some n ↔
        str ≠ [] ∧ numeral 16 hexDigit str = some n ∧ n ≤ T.max) ∧
    (∀ T ∈ convertToUintFromBaseTypes, ∀ (str : List UInt8) (n : Nat),
      convertToUintFromOctal T.valueBits str .no = some n ↔
        str ≠ [] ∧ numeral 8 octalDigit str = some n ∧ n ≤ T.max) := by
  have hbits : ∀ T ∈ convertToUintFromBaseTypes, 4 ≤ T.valueBits := by decide
  refine ⟨fun T _ str n => ?_, fun T _ str n => ?_, fun T hT str n => ?_, fun T hT str n => ?_⟩
  · have hpos := Nat.two_pow_pos T.valueBits
    have hcast : ((2 ^ T.valueBits : Nat) : Int) = 2 ^ T.valueBits := by norm_cast
    rw [convertToInt_iff, inRange, decide_eq_true_iff, Nat.add_sub_cancel, IntegerType.signedMin,
      IntegerType.max, ← hcast]
    refine and_congr_right fun _ => and_congr_right fun _ => ?_
    omega
  · have hunfold : convertToUint T.valueBits str .no =
        if str = [] then none else convertToUintLoop T.valueBits str 0 := rfl
    rw [hunfold, convertToUintLoop_eq]
    exact accumulate_nonempty_iff (by decide)
  · have hunfold : convertToUintFromHex T.valueBits str .no =
        if str = [] then none else convertToUintFromHexLoop T.valueBits str 0 := rfl
    rw [hunfold, convertToUintFromHexLoop_eq (hbits T hT)]
    exact accumulate_nonempty_iff (by decide)
  · have hunfold : convertToUintFromOctal T.valueBits str .no =
        if str = [] then none else convertToUintFromOctalLoop T.valueBits str 0 := rfl
    rw [hunfold, convertToUintFromOctalLoop_eq (Nat.le_of_succ_le (hbits T hT))]
    exact accumulate_nonempty_iff (by decide)

end StringUtils

end Literate.AK
