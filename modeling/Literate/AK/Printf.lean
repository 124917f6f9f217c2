import Literate.AK.StringUtils
import Literate.AK.Time
import Literate.Foundation.Numerals

/-!
# AK: the numbers of printf

`AK/PrintfImplementation.h`.  What is emitted is the list of the characters that go to `putch`.
The printers differ in how they come to the digits, and lay them out alike.
-/

namespace Literate.AK.PrintfImplementation

open Foundation StringUtils List

def printfHexDigitsLower : List UInt8 := "0123456789abcdef".toList.map byte

def printfHexDigitsUpper : List UInt8 := "0123456789ABCDEF".toList.map byte

/-- The `int` that a `u32` is returned as. -/
def intOfU32 (n : Nat) : Int := if n < 2 ^ 31 then n else n - 2 ^ 32

/-- A loop of an `unsigned` counter up to a number of type `size_t`, which ends when the counter
can reach it. -/
def blanks (count : Nat) (ch : UInt8) : Option (List UInt8) :=
  if count < 2 ^ 32 then some (List.replicate count ch) else none

/-- Such a loop, when the padding is wanted. -/
def blanksIf (wanted : Bool) (count : Nat) (ch : UInt8) : Option (List UInt8) :=
  if wanted then blanks count ch else some []

/-- What the printers do when they have the digits: the field width, padding, what goes before the
number (`start`), zeros and the digits. -/
def layout (start digits : List UInt8) (leftPad zeroFill : Bool) (fieldWidth : Nat)
    (hasPrecision : Bool) (precision : Nat) : Option (List UInt8 × Int) := do
  let used := digits.length + (if hasPrecision then precision else 0) + start.length
  let fieldWidth := if fieldWidth = 0 ∨ fieldWidth < used then used % 2 ^ 32 else fieldWidth
  let padding := (fieldWidth + 2 ^ 64 - used) % 2 ^ 64
  let before ← blanksIf (!leftPad) padding (if zeroFill then byte '0' else byte ' ')
  let after ← blanksIf leftPad padding (byte ' ')
  some ((if zeroFill then start else []) ++ before ++ (if zeroFill then [] else start) ++
    (if hasPrecision then List.replicate precision (byte '0') else []) ++ digits ++ after,
    intOfU32 fieldWidth)

/-- The loop that divides by smaller and smaller powers of the base, and counts the precision
down. -/
def digitLoop (base : Nat) : Nat → Nat → Nat → Bool → Nat → List UInt8 × Nat
  | 0, _, _, _, precision => ([], precision)
  | fuel + 1, divisor, number, padding, precision =>
    let ch := UInt8.ofNat ('0'.toNat + number / divisor)
    let number := number % divisor
    let padding := if ch ≠ byte '0' then false else padding
    if !padding ∨ divisor = 1 then
      let precision := if 0 < precision then precision - 1 else precision
      if divisor = 1 then ([ch], precision)
      else
        let (rest, precision) := digitLoop base fuel (divisor / base) number padding precision
        (ch :: rest, precision)
    else digitLoop base fuel (divisor / base) number padding precision

def printDecimal (number : Nat) (sign alwaysSign leftPad zeroPad : Bool) (fieldWidth : Nat)
    (hasPrecision : Bool) (precision : Nat) : Option (List UInt8 × Int) :=
  let (digits, precision) :=
    if ¬ (hasPrecision ∧ precision = 0 ∧ number = 0) then
      digitLoop 10 20 10000000000000000000 number true precision
    else ([], precision)
  layout (if sign || alwaysSign then [if sign then byte '-' else byte '+'] else []) digits leftPad
    (zeroPad && !hasPrecision) fieldWidth hasPrecision precision

/-- The number of digits. -/
def countHexDigits : Nat → Nat → Nat
  | 0, _ => 0
  | fuel + 1, n => if 0 < n then countHexDigits fuel (n >>> 4) + 1 else 0

/-- The loop over `n` digits. -/
def hexLoop (upperCase : Bool) (number : Nat) : Nat → Nat → List UInt8 × Nat
  | 0, precision => ([], precision)
  | n + 1, precision =>
    let index := (number >>> (4 * n)) &&& 0x0f
    let ch := if upperCase then printfHexDigitsUpper.getD index 0
      else printfHexDigitsLower.getD index 0
    let (rest, precision) := hexLoop upperCase number n (if 0 < precision then precision - 1 else precision)
    (ch :: rest, precision)

def printHex (number : Nat) (upperCase alternateForm leftPad zeroPad : Bool) (fieldWidth : Nat)
    (hasPrecision : Bool) (precision : Nat) : Option (List UInt8 × Int) :=
  let digits := countHexDigits 16 number
  let digits := if digits = 0 then 1 else digits
  let notZero := decide (number ≠ 0)
  let (buf, precision) :=
    if ¬ (hasPrecision ∧ precision = 0 ∧ !notZero) then
      if number = 0 then ([byte '0'], if 0 < precision then precision - 1 else precision)
      else hexLoop upperCase number digits precision
    else ([], precision)
  layout (if alternateForm && notZero then [byte '0', byte 'x'] else []) buf leftPad
    (zeroPad && !hasPrecision) fieldWidth hasPrecision precision

/-- The digits that `print_octal_number` lays out, with what is left of the precision. -/
def octalDigits (number : Nat) (alternateForm hasPrecision : Bool) (precision : Nat) :
    List UInt8 × Nat :=
  let (start, precision) :=
    if alternateForm then ([byte '0'], if 0 < precision then precision - 1 else precision)
    else ([], precision)
  let (digits, precision) :=
    if ¬ (hasPrecision ∧ precision = 0 ∧ number = 0) then
      digitLoop 8 10 134217728 number true precision
    else ([], precision)
  (start ++ digits, precision)

def printOctalNumber (number : Nat) (alternateForm leftPad zeroPad : Bool) (fieldWidth : Nat)
    (hasPrecision : Bool) (precision : Nat) : Option (List UInt8 × Int) :=
  let (digits, precision) := octalDigits number alternateForm hasPrecision precision
  layout [] digits leftPad (zeroPad && !hasPrecision) fieldWidth hasPrecision precision

/-- `(number < 0) ? 0 - number : number`. -/
def magnitude (number : Int64) : Option Int64 :=
  if number < 0 then I64.ofInt? (0 - number.toInt) else some number

def printSignedNumber (number : Int64) (alwaysSign leftPad zeroPad : Bool) (fieldWidth : Nat)
    (hasPrecision : Bool) (precision : Nat) : Option (List UInt8 × Int) := do
  let magnitude ← magnitude number
  printDecimal magnitude.toInt.toNat (number < 0) alwaysSign leftPad zeroPad fieldWidth hasPrecision
    precision

/-! ## The digits -/

/-- A word for a number that does not begin with a zero, unless that is all of it. -/
structure Canonical (base : Nat) (digitOf : UInt8 → Option Nat) (digits : List UInt8) (number : Nat) :
    Prop where
  denotes : numeral base digitOf digits = some number
  nonempty : digits ≠ []
  leading : digits.head? = some (byte '0') → digits = [byte '0']

/-- The value of a character as a digit of a base up to ten. -/
def digitOf (base : Nat) (ch : UInt8) : Option Nat :=
  if '0'.toNat ≤ ch.toNat ∧ ch.toNat < '0'.toNat + base then some (ch.toNat - '0'.toNat) else none

/-- The value of a character as a hexadecimal digit. -/
def hexDigitOf (upperCase : Bool) (ch : UInt8) : Option Nat :=
  (if upperCase then printfHexDigitsUpper else printfHexDigitsLower).idxOf? ch

section

variable {base : Nat}

theorem pred_ite (precision : Nat) : (if 0 < precision then precision - 1 else precision) = precision - 1 := by
  split <;> omega

theorem toNat_digit {d : Nat} (hd : d < 208) : (UInt8.ofNat ('0'.toNat + d)).toNat = '0'.toNat + d :=
  UInt8.toNat_ofNat_of_lt' (by
    have hzero : '0'.toNat = 48 := rfl
    have hsize : UInt8.size = 256 := rfl
    omega)

theorem digitOf_digit {d : Nat} (hbase : base ≤ 10) (hd : d < base) :
    digitOf base (UInt8.ofNat ('0'.toNat + d)) = some d := by
  rw [digitOf, toNat_digit (by omega), if_pos ⟨by omega, by omega⟩, Nat.add_sub_cancel_left]

theorem digit_eq_zero_iff {d : Nat} (hd : d < 208) :
    UInt8.ofNat ('0'.toNat + d) = byte '0' ↔ d = 0 := by
  constructor
  · intro h
    have hnat := congrArg UInt8.toNat h
    rw [toNat_digit hd] at hnat
    have hzero : (byte '0').toNat = '0'.toNat := by decide
    omega
  · rintro rfl
    rfl

section

variable (hbase : 2 ≤ base)

include hbase

theorem pow_succ_ne_one (k : Nat) : base ^ (k + 1) ≠ 1 :=
  Nat.ne_of_gt (Nat.one_lt_pow (Nat.succ_ne_zero k) hbase)

theorem pow_succ_div (k : Nat) : base ^ (k + 1) / base = base ^ k := by
  rw [Nat.pow_succ, Nat.mul_div_cancel _ (by omega)]

theorem digitLoop_rest (hten : base ≤ 10) (k number precision : Nat) (h : number < base ^ (k + 1)) :
    ∃ out, digitLoop base (k + 1) (base ^ k) number false precision = (out, precision - out.length) ∧
      out.length = k + 1 ∧ numeral base (digitOf base) out = some number := by
  induction k generalizing number precision with
  | zero =>
    rw [Nat.zero_add, Nat.pow_one] at h
    refine ⟨[UInt8.ofNat ('0'.toNat + number)], ?_, rfl, ?_⟩
    · simp [digitLoop, pred_ite]
    · rw [numeral_cons_some (digitOf_digit hten h) numeral_nil]
      simp
  | succ k ih =>
    have hpos : 0 < base ^ (k + 1) := Nat.pow_pos (by omega)
    have hone := pow_succ_ne_one hbase k
    have hdigit : number / base ^ (k + 1) < base := by
      rw [Nat.div_lt_iff_lt_mul hpos, Nat.mul_comm]
      exact h
    have hdiv := pow_succ_div hbase k
    obtain ⟨out, hout, hlength, hnumeral⟩ := ih (number % base ^ (k + 1)) (precision - 1)
      (Nat.mod_lt number hpos)
    refine ⟨UInt8.ofNat ('0'.toNat + number / base ^ (k + 1)) :: out, ?_, ?_, ?_⟩
    · rw [digitLoop]
      simp only [ite_self, Bool.not_false, true_or, if_true, if_neg hone, hdiv, pred_ite, hout,
        length_cons]
      congr 1
      omega
    · rw [length_cons, hlength]
    · rw [numeral_cons_some (digitOf_digit hten hdigit) hnumeral, hlength, Nat.div_add_mod']

/-- Before the first digit other than zero nothing is out, and zero is the last digit. -/
theorem digitLoop_canonical (hten : base ≤ 10) (k number precision : Nat)
    (h : number < base ^ (k + 1)) :
    ∃ out, digitLoop base (k + 1) (base ^ k) number true precision = (out, precision - out.length) ∧
      out.length ≤ k + 1 ∧ Canonical base (digitOf base) out number := by
  induction k generalizing number with
  | zero =>
    rw [Nat.zero_add, Nat.pow_one] at h
    refine ⟨[UInt8.ofNat ('0'.toNat + number)], ?_, Nat.le_refl _, ?_, cons_ne_nil _ _, ?_⟩
    · simp [digitLoop, pred_ite]
    · rw [numeral_cons_some (digitOf_digit hten h) numeral_nil]
      simp
    · intro hzero
      rw [List.head?_cons, Option.some.injEq] at hzero
      rw [hzero]
  | succ k ih =>
    have hpos : 0 < base ^ (k + 1) := Nat.pow_pos (by omega)
    have hone := pow_succ_ne_one hbase k
    have hdiv := pow_succ_div hbase k
    have hdigit : number / base ^ (k + 1) < base := by
      rw [Nat.div_lt_iff_lt_mul hpos, Nat.mul_comm]
      exact h
    rw [digitLoop]
    by_cases hzero : number / base ^ (k + 1) = 0
    · -- a leading zero
      have hlt : number < base ^ (k + 1) := (Nat.div_eq_zero_iff_lt hpos).mp hzero
      obtain ⟨out, hout, hlength, hcanonical⟩ := ih number hlt
      have hch : UInt8.ofNat ('0'.toNat + number / base ^ (k + 1)) = byte '0' :=
        (digit_eq_zero_iff (by omega)).mpr hzero
      refine ⟨out, ?_, by omega, hcanonical⟩
      simp only [hch, ne_eq, not_true, if_false, Bool.not_true, Bool.false_eq_true, hone, or_self,
        hdiv, Nat.mod_eq_of_lt hlt, hout]
    · obtain ⟨out, hout, hlength, hnumeral⟩ := digitLoop_rest hbase hten k
        (number % base ^ (k + 1)) (precision - 1) (Nat.mod_lt number hpos)
      have hch : UInt8.ofNat ('0'.toNat + number / base ^ (k + 1)) ≠ byte '0' :=
        mt (digit_eq_zero_iff (by omega)).mp hzero
      refine ⟨UInt8.ofNat ('0'.toNat + number / base ^ (k + 1)) :: out, ?_, ?_, ?_,
        cons_ne_nil _ _, fun hhead => ?_⟩
      · simp only [if_pos hch, Bool.not_false, true_or, if_true, if_neg hone, hdiv, pred_ite, hout,
          length_cons]
        congr 1
        omega
      · rw [length_cons, hlength]
      · rw [numeral_cons_some (digitOf_digit hten hdigit) hnumeral, hlength, Nat.div_add_mod']
      · rw [List.head?_cons, Option.some.injEq] at hhead
        exact absurd hhead hch

end

/-- A number with too many digits begins with a character that is none. -/
theorem digitLoop_head (base fuel precision : Nat) {divisor number : Nat} (hpos : number / divisor ≠ 0)
    (hlt : number / divisor < 208) :
    (digitLoop base (fuel + 1) divisor number true precision).1.head? =
      some (UInt8.ofNat ('0'.toNat + number / divisor)) := by
  have hch : UInt8.ofNat ('0'.toNat + number / divisor) ≠ byte '0' :=
    mt (digit_eq_zero_iff hlt).mp hpos
  rw [digitLoop]
  simp only [if_pos hch, Bool.not_false, true_or, if_true]
  split <;> rfl

/-! ## Hexadecimal digits -/

theorem countHexDigits_spec (fuel n : Nat) (h : n < 16 ^ fuel) :
    countHexDigits fuel n ≤ fuel ∧ n < 16 ^ countHexDigits fuel n ∧
      (n ≠ 0 → ∃ k, countHexDigits fuel n = k + 1 ∧ 16 ^ k ≤ n) := by
  induction fuel generalizing n with
  | zero =>
    have hzero : n = 0 := by omega
    exact ⟨Nat.le_refl 0, h, fun hne => absurd hzero hne⟩
  | succ fuel ih =>
    rw [countHexDigits]
    by_cases hpos : 0 < n
    · have hshift : n >>> 4 = n / 16 := Nat.shiftRight_eq_div_pow n 4
      rw [if_pos hpos, hshift]
      obtain ⟨hle, hlt, hleast⟩ := ih (n / 16) (by rw [Nat.pow_succ] at h; omega)
      refine ⟨by omega, by rw [Nat.pow_succ]; omega, fun _ => ⟨_, rfl, ?_⟩⟩
      by_cases hzero : n / 16 = 0
      · have hnone : countHexDigits fuel (n / 16) = 0 := by
          rw [hzero]
          cases fuel <;> rfl
        rw [hnone]
        exact hpos
      · obtain ⟨k, hk, hpow⟩ := hleast hzero
        rw [hk, Nat.pow_succ]
        omega
    · exact ⟨by rw [if_neg hpos]; omega, by rw [if_neg hpos]; omega, fun hne => by omega⟩

theorem hexDigitOf_digit (upperCase : Bool) : ∀ d < 16,
    hexDigitOf upperCase (if upperCase then printfHexDigitsUpper.getD d 0
      else printfHexDigitsLower.getD d 0) = some d := by
  cases upperCase <;> decide

theorem hexDigit_eq_zero (upperCase : Bool) : ∀ d < 16,
    (if upperCase then printfHexDigitsUpper.getD d 0 else printfHexDigitsLower.getD d 0) = byte '0' →
      d = 0 := by
  cases upperCase <;> decide

theorem hexLoop_spec (upperCase : Bool) (number n precision : Nat) :
    ∃ out, hexLoop upperCase number n precision = (out, precision - out.length) ∧ out.length = n ∧
      numeral 16 (hexDigitOf upperCase) out = some (number % 16 ^ n) ∧
      (out.head? = some (byte '0') → number % 16 ^ n < 16 ^ (n - 1)) := by
  induction n generalizing precision with
  | zero => exact ⟨[], rfl, rfl, by rw [Nat.pow_zero, Nat.mod_one]; rfl, nofun⟩
  | succ n ih =>
    have hindex : (number >>> (4 * n)) &&& 0x0f = number / 16 ^ n % 16 := by
      have hmask : 0x0f = 2 ^ 4 - 1 := rfl
      have hpow : 2 ^ (4 * n) = 16 ^ n := Nat.pow_mul 2 4 n
      rw [hmask, Nat.and_two_pow_sub_one_eq_mod, Nat.shiftRight_eq_div_pow, hpow]
    have hlt : number / 16 ^ n % 16 < 16 := Nat.mod_lt _ (by decide)
    have hsplit : number % 16 ^ (n + 1) = number / 16 ^ n % 16 * 16 ^ n + number % 16 ^ n := by
      rw [Nat.pow_succ, Nat.mod_mul, Nat.mul_comm, Nat.add_comm]
    obtain ⟨out, hout, hlength, hnumeral, -⟩ := ih (precision - 1)
    rw [hexLoop]
    simp only [hindex, pred_ite, hout]
    refine ⟨_, by rw [length_cons, Nat.sub_sub, Nat.add_comm 1], ?_, ?_, fun hhead => ?_⟩
    · rw [length_cons, hlength]
    · rw [numeral_cons_some (hexDigitOf_digit upperCase _ hlt) hnumeral, hlength, hsplit]
    · rw [List.head?_cons, Option.some.injEq] at hhead
      rw [hsplit, hexDigit_eq_zero upperCase _ hlt hhead, Nat.zero_mul, Nat.zero_add,
        Nat.add_sub_cancel]
      exact Nat.mod_lt _ (Nat.pow_pos (by decide))

/-! ## The layout -/

/-- Padding with blanks on one side, what goes before the number, zeros and digits.  The zeros are
those that the precision asks for beyond the digits, or those that fill the field. -/
def Prints (start : List UInt8) (IsDigits : List UInt8 → Prop) (leftPad zeroPad : Bool)
    (fieldWidth : Nat) (hasPrecision : Bool) (precision : Nat) (r : Option (List UInt8 × Int)) : Prop :=
  ∃ digits before zeros after out, IsDigits digits ∧ r = some (out, (out.length : Int)) ∧
    out = List.replicate before (byte ' ') ++ start ++ List.replicate zeros (byte '0') ++ digits ++
      List.replicate after (byte ' ') ∧
    zeros = (if hasPrecision then precision - digits.length
      else if zeroPad && !leftPad then fieldWidth - (start.length + digits.length) else 0) ∧
    (0 < before → leftPad = false) ∧ (0 < after → leftPad = true) ∧
    out.length = max fieldWidth (start.length + zeros + digits.length)

variable {IsDigits : List UInt8 → Prop} {leftPad zeroPad hasPrecision : Bool}
  {fieldWidth precision : Nat}

/-- The field width and the padding, when nothing overflows. -/
theorem layout_eq (start digits : List UInt8) (leftPad zeroFill : Bool) (hfield : fieldWidth < 2 ^ 32)
    (hused : digits.length + (if hasPrecision then precision else 0) + start.length < 2 ^ 32) :
    ∃ used padding, used = digits.length + (if hasPrecision then precision else 0) + start.length ∧
      padding = max fieldWidth used - used ∧
      layout start digits leftPad zeroFill fieldWidth hasPrecision precision =
        some ((if zeroFill then start else []) ++
          (if leftPad then [] else List.replicate padding (if zeroFill then byte '0' else byte ' ')) ++
          (if zeroFill then [] else start) ++
          (if hasPrecision then List.replicate precision (byte '0') else []) ++ digits ++
          (if leftPad then List.replicate padding (byte ' ') else []),
          intOfU32 (max fieldWidth used)) := by
  refine ⟨_, _, rfl, rfl, ?_⟩
  rw [layout]
  generalize digits.length + (if hasPrecision then precision else 0) + start.length = used at hused ⊢
  have hwidth : (if fieldWidth = 0 ∨ fieldWidth < used then used % 2 ^ 32 else fieldWidth) =
      max fieldWidth used := by
    split <;> omega
  have hpadding : (max fieldWidth used + 2 ^ 64 - used) % 2 ^ 64 = max fieldWidth used - used := by
    omega
  have hcount : max fieldWidth used - used < 2 ^ 32 := by omega
  simp only [hwidth, hpadding, blanksIf, blanks, if_pos hcount]
  cases leftPad <;> rfl

/-- Digits that have counted the precision down are laid out as they are to be. -/
theorem layout_prints (start digits : List UInt8) (leftPad zeroPad : Bool)
    (hdigits : IsDigits digits) (hfield : fieldWidth < 2 ^ 31)
    (hlong : digits.length + start.length < 2 ^ 31) (hprecision : precision + start.length < 2 ^ 31) :
    Prints start IsDigits leftPad zeroPad fieldWidth hasPrecision precision
      (layout start digits leftPad (zeroPad && !hasPrecision) fieldWidth hasPrecision
        (precision - digits.length)) := by
  have hfits : digits.length + (if hasPrecision then precision - digits.length else 0) +
      start.length < 2 ^ 31 := by
    split <;> omega
  obtain ⟨used, padding, hused, hpadding, hlayout⟩ := layout_eq start digits leftPad
    (zeroPad && !hasPrecision) (Nat.lt_trans hfield (by decide)) (Nat.lt_trans hfits (by decide))
  rw [← hused] at hfits
  have hint : intOfU32 (max fieldWidth used) = ((max fieldWidth used : Nat) : Int) :=
    if_pos (by omega)
  rw [hlayout, hint]
  cases hasPrecision with
  | true =>
    simp only [if_true] at hused
    cases leftPad with
    | true =>
      refine ⟨digits, 0, precision - digits.length, padding, _, hdigits, ?_, rfl, rfl, nofun,
        fun _ => rfl, ?_⟩
      · simp; omega
      · simp; omega
    | false =>
      refine ⟨digits, padding, precision - digits.length, 0, _, hdigits, ?_, rfl, rfl,
        fun _ => rfl, nofun, ?_⟩
      · simp; omega
      · simp; omega
  | false =>
    simp only [Bool.false_eq_true, if_false] at hused
    cases leftPad with
    | true =>
      refine ⟨digits, 0, 0, padding, _, hdigits, ?_, rfl, by simp, nofun, fun _ => rfl, ?_⟩
      · cases zeroPad <;> simp <;> omega
      · simp; omega
    | false =>
      cases zeroPad with
      | true =>
        refine ⟨digits, 0, padding, 0, _, hdigits, ?_, rfl, ?_, fun _ => rfl, nofun, ?_⟩
        · simp; omega
        · simp; omega
        · simp; omega
      | false =>
        refine ⟨digits, padding, 0, 0, _, hdigits, ?_, rfl, by simp, fun _ => rfl, nofun, ?_⟩
        · simp; omega
        · simp; omega

/-! ## The printers -/

/-- No digits for a zero with precision zero, and otherwise the digits of the number. -/
def IsDigitsOf (base : Nat) (digitOf : UInt8 → Option Nat) (number : Nat) (hasPrecision : Bool)
    (precision : Nat) (digits : List UInt8) : Prop :=
  if hasPrecision ∧ precision = 0 ∧ number = 0 then digits = [] else Canonical base digitOf digits number

theorem isDigitsOf_nil {number : Nat} {digitOf : UInt8 → Option Nat}
    (h : hasPrecision = true ∧ precision = 0 ∧ number = 0) :
    IsDigitsOf base digitOf number hasPrecision precision [] := by
  rw [IsDigitsOf, if_pos h]

theorem Canonical.isDigitsOf {number : Nat} {digitOf : UInt8 → Option Nat} {digits : List UInt8}
    (hdigits : Canonical base digitOf digits number)
    (h : ¬ (hasPrecision = true ∧ precision = 0 ∧ number = 0)) :
    IsDigitsOf base digitOf number hasPrecision precision digits := by
  rw [IsDigitsOf, if_neg h]
  exact hdigits

/-- The sign that a number is printed with. -/
def signOf (sign alwaysSign : Bool) : List UInt8 :=
  if sign then [byte '-'] else if alwaysSign then [byte '+'] else []

def PrintsDecimal (number : Nat) (sign alwaysSign leftPad zeroPad : Bool) (fieldWidth : Nat)
    (hasPrecision : Bool) (precision : Nat) (r : Option (List UInt8 × Int)) : Prop :=
  Prints (signOf sign alwaysSign) (IsDigitsOf 10 (digitOf 10) number hasPrecision precision) leftPad
    zeroPad fieldWidth hasPrecision precision r

def PrintsHex (number : Nat) (upperCase alternateForm leftPad zeroPad : Bool) (fieldWidth : Nat)
    (hasPrecision : Bool) (precision : Nat) (r : Option (List UInt8 × Int)) : Prop :=
  Prints (if alternateForm ∧ number ≠ 0 then [byte '0', byte 'x'] else [])
    (IsDigitsOf 16 (hexDigitOf upperCase) number hasPrecision precision) leftPad zeroPad fieldWidth
    hasPrecision precision r

/-- The magnitude of the number and its sign. -/
def PrintsSigned (number : Int64) (alwaysSign leftPad zeroPad : Bool) (fieldWidth : Nat)
    (hasPrecision : Bool) (precision : Nat) (r : Option (List UInt8 × Int)) : Prop :=
  PrintsDecimal number.toInt.natAbs (number.toInt < 0) alwaysSign leftPad zeroPad fieldWidth
    hasPrecision precision r

theorem printDecimal_prints {number : Nat} (hnumber : number < 2 ^ 64) (sign alwaysSign : Bool)
    (hfield : fieldWidth < 2 ^ 31) (hprecision : precision + 2 < 2 ^ 31) :
    PrintsDecimal number sign alwaysSign leftPad zeroPad fieldWidth hasPrecision precision
      (printDecimal number sign alwaysSign leftPad zeroPad fieldWidth hasPrecision precision) := by
  have hstart : (if sign || alwaysSign then [if sign then byte '-' else byte '+'] else []) =
      signOf sign alwaysSign := by
    cases sign <;> cases alwaysSign <;> rfl
  have hlength : (signOf sign alwaysSign).length ≤ 1 := by
    cases sign <;> cases alwaysSign <;> decide
  rw [PrintsDecimal, printDecimal, hstart]
  by_cases hnone : hasPrecision ∧ precision = 0 ∧ number = 0
  · rw [if_neg (not_not_intro hnone)]
    exact layout_prints _ [] leftPad zeroPad (isDigitsOf_nil hnone) hfield
      (by rw [length_nil]; omega) (by omega)
  · have hlt : number < 10 ^ (19 + 1) := by omega
    obtain ⟨digits, hloop, hcount, hcanonical⟩ := digitLoop_canonical (by decide) (by decide) 19
      number precision hlt
    have hdivisor : 10000000000000000000 = 10 ^ 19 := by decide
    rw [if_pos hnone, hdivisor, hloop]
    exact layout_prints _ digits leftPad zeroPad (hcanonical.isDigitsOf hnone) hfield (by omega)
      (by omega)

theorem hexLoop_canonical {number : Nat} (hnumber : number < 2 ^ 64) (hne : number ≠ 0)
    (upperCase : Bool) (precision : Nat) :
    ∃ digits, hexLoop upperCase number (if countHexDigits 16 number = 0 then 1
        else countHexDigits 16 number) precision = (digits, precision - digits.length) ∧
      digits.length ≤ 16 ∧ Canonical 16 (hexDigitOf upperCase) digits number := by
  have hpow : 16 ^ 16 = 2 ^ 64 := by decide
  obtain ⟨hle, hlt, hleast⟩ := countHexDigits_spec 16 number (by omega)
  obtain ⟨k, hk, hpow⟩ := hleast hne
  obtain ⟨digits, hloop, hlength, hnumeral, hhead⟩ :=
    hexLoop_spec upperCase number (countHexDigits 16 number) precision
  rw [Nat.mod_eq_of_lt hlt] at hnumeral hhead
  refine ⟨digits, by rw [if_neg (by omega), hloop], by omega, hnumeral, ?_, fun hzero => ?_⟩
  · rintro rfl
    rw [length_nil] at hlength
    omega
  · have hsmall := hhead hzero
    rw [hk, Nat.add_sub_cancel] at hsmall
    omega

theorem printHex_prints {number : Nat} (hnumber : number < 2 ^ 64) (upperCase alternateForm : Bool)
    (hfield : fieldWidth < 2 ^ 31) (hprecision : precision + 2 < 2 ^ 31) :
    PrintsHex number upperCase alternateForm leftPad zeroPad fieldWidth hasPrecision precision
      (printHex number upperCase alternateForm leftPad zeroPad fieldWidth hasPrecision precision) := by
  have hstart : (if (alternateForm && decide (number ≠ 0)) = true then [byte '0', byte 'x'] else []) =
      if alternateForm ∧ number ≠ 0 then [byte '0', byte 'x'] else [] := by
    simp
  have hlength : (if alternateForm ∧ number ≠ 0 then [byte '0', byte 'x'] else []).length ≤ 2 := by
    split <;> simp
  have hzero : (hasPrecision = true ∧ precision = 0 ∧ (!decide (number ≠ 0)) = true) ↔
      (hasPrecision = true ∧ precision = 0 ∧ number = 0) := by
    simp
  rw [PrintsHex, printHex, hstart]
  simp only [hzero]
  by_cases hnone : hasPrecision ∧ precision = 0 ∧ number = 0
  · rw [if_neg (not_not_intro hnone)]
    exact layout_prints _ [] leftPad zeroPad (isDigitsOf_nil hnone) hfield
      (by rw [length_nil]; omega) (by omega)
  · rw [if_pos hnone]
    by_cases hne : number = 0
    · have hzeroDigit : Canonical 16 (hexDigitOf upperCase) [byte '0'] number := by
        rw [hne]
        exact ⟨by cases upperCase <;> decide, cons_ne_nil _ _, fun _ => rfl⟩
      rw [if_pos hne, pred_ite]
      exact layout_prints _ [byte '0'] leftPad zeroPad (hzeroDigit.isDigitsOf hnone) hfield
        (by rw [length_singleton]; omega) (by omega)
    · obtain ⟨digits, hloop, hcount, hcanonical⟩ := hexLoop_canonical hnumber hne upperCase precision
      rw [if_neg hne, hloop]
      exact layout_prints _ digits leftPad zeroPad (hcanonical.isDigitsOf hnone) hfield (by omega)
        (by omega)

/-- Only the magnitude of the least number does not exist. -/
theorem printSignedNumber_prints_iff (number : Int64) (alwaysSign : Bool)
    (hfield : fieldWidth < 2 ^ 31) (hprecision : precision + 2 < 2 ^ 31) :
    PrintsSigned number alwaysSign leftPad zeroPad fieldWidth hasPrecision precision
        (printSignedNumber number alwaysSign leftPad zeroPad fieldWidth hasPrecision precision) ↔
      number ≠ Int64.minValue := by
  have hmin : Int64.minValue.toInt = -9223372036854775808 := rfl
  have hmax : Int64.maxValue.toInt = 9223372036854775807 := rfl
  have hle := Int64.le_toInt number
  have hlt := Int64.toInt_lt number
  have hzero : number < 0 ↔ number.toInt < 0 := Int64.lt_iff_toInt_lt
  constructor
  · rintro h rfl
    obtain ⟨digits, before, zeros, after, out, -, hnone, -⟩ := h
    cases hnone
  · intro hne
    have hgt : number.toInt ≠ -9223372036854775808 := fun heq => hne (Int64.toInt_inj.mp heq)
    have hmagnitude : ∃ a : Int64, magnitude number = some a ∧
        a.toInt.toNat = number.toInt.natAbs := by
      rw [magnitude]
      by_cases hneg : number < 0
      · rw [if_pos hneg]
        rw [hzero] at hneg
        obtain ⟨a, ha, hvalue⟩ := I64.ofInt?_eq_some (n := 0 - number.toInt) (by omega) (by omega)
        exact ⟨a, ha, by omega⟩
      · rw [if_neg hneg]
        rw [hzero] at hneg
        exact ⟨number, rfl, by omega⟩
    obtain ⟨a, ha, hvalue⟩ := hmagnitude
    rw [printSignedNumber, ha, Option.bind_eq_bind, Option.bind_some, hvalue, PrintsSigned]
    simp only [hzero]
    exact printDecimal_prints (by omega) _ _ hfield hprecision

/-- The printers print every number, but for the least signed one. -/
theorem printers_print (unsigned : UInt64) (signed : Int64)
    (sign upperCase alternateForm alwaysSign : Bool) (leftPad zeroPad hasPrecision : Bool)
    (hfield : fieldWidth < 2 ^ 31) (hprecision : precision + 2 < 2 ^ 31) :
    PrintsDecimal unsigned.toNat sign alwaysSign leftPad zeroPad fieldWidth hasPrecision precision
        (printDecimal unsigned.toNat sign alwaysSign leftPad zeroPad fieldWidth hasPrecision
          precision) ∧
      PrintsHex unsigned.toNat upperCase alternateForm leftPad zeroPad fieldWidth hasPrecision precision
        (printHex unsigned.toNat upperCase alternateForm leftPad zeroPad fieldWidth hasPrecision
          precision) ∧
      (PrintsSigned signed alwaysSign leftPad zeroPad fieldWidth hasPrecision precision
          (printSignedNumber signed alwaysSign leftPad zeroPad fieldWidth hasPrecision precision) ↔
        signed ≠ Int64.minValue) :=
  ⟨printDecimal_prints unsigned.toNat_lt sign alwaysSign hfield hprecision,
    printHex_prints unsigned.toNat_lt upperCase alternateForm hfield hprecision,
    printSignedNumber_prints_iff signed alwaysSign hfield hprecision⟩

/-! ## Octal numbers -/

/-- Zeros and digits of the number, between blanks. -/
def PrintsOctal (number : Nat) (r : Option (List UInt8 × Int)) : Prop :=
  ∃ before digits after out, r = some (out, (out.length : Int)) ∧
    out = List.replicate before (byte ' ') ++ digits ++ List.replicate after (byte ' ') ∧
    numeral 8 (digitOf 8) digits = some number

section

variable {digits : List UInt8} {number : Nat}

theorem numeral_zeros (count : Nat) (h : numeral 8 (digitOf 8) digits = some number) :
    numeral 8 (digitOf 8) (List.replicate count (byte '0') ++ digits) = some number := by
  induction count with
  | zero => exact h
  | succ count ih =>
    have hzero : digitOf 8 (byte '0') = some 0 := by decide
    rw [List.replicate_succ, List.cons_append, numeral_cons_some hzero ih, Nat.zero_mul,
      Nat.zero_add]

theorem digitOf_isSome (h : numeral 8 (digitOf 8) digits = some number) :
    ∀ c ∈ digits, (digitOf 8 c).isSome := by
  induction digits generalizing number with
  | nil => exact fun c hc => absurd hc not_mem_nil
  | cons d digits ih =>
    cases hd : digitOf 8 d with
    | none =>
      rw [numeral_cons_none hd] at h
      cases h
    | some value =>
      cases hrest : numeral 8 (digitOf 8) digits with
      | none =>
        unfold numeral at h hrest
        rw [Option.map_eq_none_iff] at hrest
        rw [mapM_cons, hd, hrest] at h
        cases h
      | some rest =>
        intro c hc
        rcases mem_cons.mp hc with rfl | hc
        · rw [hd]
          rfl
        · exact ih hrest c hc

theorem numeral_alternate (alternateForm : Bool) (h : numeral 8 (digitOf 8) digits = some number) :
    numeral 8 (digitOf 8) ((if alternateForm then [byte '0'] else []) ++ digits) = some number := by
  cases alternateForm with
  | false => exact h
  | true => exact numeral_zeros 1 h

end

/-- The largest power covers the numbers of ten digits. -/
theorem octalDigits_spec {number : Nat} (hnumber : number < 2 ^ 30) (alternateForm hasPrecision : Bool)
    (precision : Nat) : ∃ digits, octalDigits number alternateForm hasPrecision precision =
        (digits, precision - digits.length) ∧
      digits.length ≤ 11 ∧ numeral 8 (digitOf 8) digits = some number := by
  have hstart : (if alternateForm then ([byte '0'], if 0 < precision then precision - 1 else precision)
      else ([], precision)) = ((if alternateForm then [byte '0'] else []),
        precision - (if alternateForm then [byte '0'] else []).length) := by
    cases alternateForm with
    | false => rfl
    | true => rw [if_pos rfl, if_pos rfl, pred_ite, length_singleton]
  have hlength : (if alternateForm then [byte '0'] else []).length ≤ 1 := by
    cases alternateForm <;> decide
  rw [octalDigits, hstart]
  generalize hprecision : precision - (if alternateForm then [byte '0'] else []).length = remaining
  by_cases hnone : hasPrecision ∧ remaining = 0 ∧ number = 0
  · refine ⟨(if alternateForm then [byte '0'] else []) ++ [], ?_, ?_, ?_⟩
    · simp only [if_neg (not_not_intro hnone), append_nil, hprecision]
    · rw [append_nil]
      omega
    · refine numeral_alternate alternateForm ?_
      rw [hnone.2.2]
      rfl
  · have hlt : number < 8 ^ (9 + 1) := by omega
    obtain ⟨digits, hloop, hcount, hcanonical⟩ := digitLoop_canonical (by decide) (by decide) 9
      number remaining hlt
    have hdivisor : 134217728 = 8 ^ 9 := by decide
    refine ⟨(if alternateForm then [byte '0'] else []) ++ digits, ?_, ?_,
      numeral_alternate alternateForm hcanonical.denotes⟩
    · simp only [if_pos hnone, hdivisor, hloop]
      rw [length_append, ← hprecision, Nat.sub_sub]
    · rw [length_append]
      omega

/-- A number of eleven digits begins with a character that is no octal digit. -/
theorem octalDigits_bad {number : Nat} (hnumber : 2 ^ 30 ≤ number) (hlt : number < 2 ^ 32)
    (alternateForm hasPrecision : Bool) (precision : Nat) :
    ∃ c ∈ (octalDigits number alternateForm hasPrecision precision).1, c ≠ byte ' ' ∧
      digitOf 8 c = none := by
  have hnone : ∀ remaining, ¬ (hasPrecision = true ∧ remaining = 0 ∧ number = 0) := fun _ h => by omega
  have hpos : number / 134217728 ≠ 0 := by omega
  have hmem : UInt8.ofNat ('0'.toNat + number / 134217728) ∈
      (octalDigits number alternateForm hasPrecision precision).1 := by
    rw [octalDigits]
    simp only [if_pos (hnone _)]
    exact mem_append_right _
      (List.mem_of_mem_head? (digitLoop_head 8 9 _ hpos (by omega)))
  have hcode := toNat_digit (d := number / 134217728) (by omega)
  have hzero : '0'.toNat = 48 := rfl
  refine ⟨_, hmem, fun hblank => ?_, if_neg fun h => ?_⟩
  · have hspace : (byte ' ').toNat = 32 := by decide
    rw [hblank] at hcode
    omega
  · omega

theorem layout_mem {start digits out : List UInt8} {zeroFill : Bool} {width : Int}
    (h : layout start digits leftPad zeroFill fieldWidth hasPrecision precision = some (out, width)) :
    ∀ c ∈ digits, c ∈ out := by
  intro c hc
  rw [layout] at h
  obtain ⟨before, -, h⟩ := Option.bind_eq_some_iff.mp h
  obtain ⟨after, -, h⟩ := Option.bind_eq_some_iff.mp h
  obtain ⟨rfl, -⟩ := Prod.mk.inj (Option.some.inj h)
  exact mem_append_left _ (mem_append_right _ hc)

theorem PrintsOctal.digits {number : Nat} {out : List UInt8} {width : Int}
    (h : PrintsOctal number (some (out, width))) :
    width = out.length ∧ ∀ c ∈ out, c = byte ' ' ∨ (digitOf 8 c).isSome := by
  obtain ⟨before, digits, after, out', heq, hout, hnumeral⟩ := h
  obtain ⟨rfl, rfl⟩ := Prod.mk.inj (Option.some.inj heq)
  refine ⟨rfl, fun c hc => ?_⟩
  simp only [hout, mem_append] at hc
  rcases hc with (hc | hc) | hc
  · exact .inl (eq_of_mem_replicate hc)
  · exact .inr (digitOf_isSome hnumeral c hc)
  · exact .inl (eq_of_mem_replicate hc)

/-- Digits that have counted the precision down are laid out as an octal number, and their number is
returned when it is an `int`. -/
theorem layout_octal {digits : List UInt8} {number : Nat}
    (hnumber : numeral 8 (digitOf 8) digits = some number)
    (hlength : digits.length ≤ 11) (leftPad zeroPad hasPrecision : Bool) (hfield : fieldWidth < 2 ^ 32)
    (hprecision : precision < 2 ^ 32) :
    PrintsOctal number (layout [] digits leftPad (zeroPad && !hasPrecision) fieldWidth hasPrecision
        (precision - digits.length)) ↔
      fieldWidth < 2 ^ 31 ∧ (hasPrecision = true → precision < 2 ^ 31) := by
  have hfits : digits.length + (if hasPrecision then precision - digits.length else 0) +
      ([] : List UInt8).length < 2 ^ 32 := by
    rw [length_nil]
    split <;> omega
  obtain ⟨used, padding, hused, hpadding, hlayout⟩ := layout_eq [] digits leftPad
    (zeroPad && !hasPrecision) hfield hfits
  have hwidth : max fieldWidth used < 2 ^ 31 ↔
      fieldWidth < 2 ^ 31 ∧ (hasPrecision = true → precision < 2 ^ 31) := by
    rw [hused, length_nil]
    cases hasPrecision with
    | true => simp only [if_true, forall_const]; omega
    | false => simp only [Bool.false_eq_true, if_false, false_implies, and_true]; omega
  rw [← hused] at hfits
  rw [hlayout, ← hwidth]
  constructor
  · intro h
    obtain ⟨hreturned, -⟩ := h.digits
    by_contra hwide
    rw [intOfU32, if_neg hwide] at hreturned
    omega
  · intro hnarrow
    have hint : intOfU32 (max fieldWidth used) = ((max fieldWidth used : Nat) : Int) := if_pos hnarrow
    rw [hint]
    have hzeros := fun count => numeral_zeros count hnumber
    rw [length_nil] at hused
    cases hasPrecision with
    | true =>
      simp only [if_true] at hused
      cases leftPad with
      | true =>
        refine ⟨0, _, padding, _, ?_, rfl, hzeros (precision - digits.length)⟩
        simp; omega
      | false =>
        refine ⟨padding, _, 0, _, ?_, rfl, hzeros (precision - digits.length)⟩
        simp; omega
    | false =>
      simp only [Bool.false_eq_true, if_false] at hused
      cases leftPad with
      | true =>
        refine ⟨0, _, padding, _, ?_, rfl, hnumber⟩
        cases zeroPad <;> simp <;> omega
      | false =>
        cases zeroPad with
        | true =>
          refine ⟨0, _, 0, _, ?_, rfl, hzeros padding⟩
          simp; omega
        | false =>
          refine ⟨padding, _, 0, _, ?_, rfl, hnumber⟩
          simp; omega

/-- The numbers of up to ten octal digits are printed, and their width is returned when it is an
`int`. -/
theorem printOctalNumber_prints_iff (number fieldWidth precision : UInt32)
    (alternateForm leftPad zeroPad hasPrecision : Bool) :
    PrintsOctal number.toNat (printOctalNumber number.toNat alternateForm leftPad zeroPad
        fieldWidth.toNat hasPrecision precision.toNat) ↔
      number.toNat < 2 ^ 30 ∧ fieldWidth.toNat < 2 ^ 31 ∧
        (hasPrecision = true → precision.toNat < 2 ^ 31) := by
  rw [printOctalNumber]
  by_cases hnumber : number.toNat < 2 ^ 30
  · obtain ⟨digits, hdigits, hlength, hnumeral⟩ := octalDigits_spec hnumber alternateForm hasPrecision
      precision.toNat
    rw [hdigits, and_iff_right hnumber]
    exact layout_octal hnumeral hlength leftPad zeroPad hasPrecision fieldWidth.toNat_lt
      precision.toNat_lt
  · refine iff_of_false (fun h => ?_) fun h => hnumber h.1
    obtain ⟨c, hc, hblank, hbad⟩ := octalDigits_bad (Nat.le_of_not_lt hnumber) number.toNat_lt
      alternateForm hasPrecision precision.toNat
    generalize octalDigits number.toNat alternateForm hasPrecision precision.toNat = result at hc h
    obtain ⟨digits, remaining⟩ := result
    simp only [] at h
    cases hlayout : layout [] digits leftPad (zeroPad && !hasPrecision) fieldWidth.toNat hasPrecision
        remaining with
    | none =>
      obtain ⟨before, digits, after, out, hnone, -⟩ := hlayout ▸ h
      cases hnone
    | some r =>
      obtain ⟨out, width⟩ := r
      have hprints : PrintsOctal number.toNat (some (out, width)) := hlayout ▸ h
      rcases hprints.digits.2 c (layout_mem hlayout c hc) with hspace | hdigit
      · exact hblank hspace
      · rw [hbad] at hdigit
        cases hdigit

end

/-- Some printed numbers. -/
theorem printers_print_three : PrintsDecimal (3 : UInt64).toNat true false false true 5 false 6
        (printDecimal (3 : UInt64).toNat true false false true 5 false 6) ∧
      PrintsHex (3 : UInt64).toNat true true false true 5 false 6
        (printHex (3 : UInt64).toNat true true false true 5 false 6) ∧
      (PrintsSigned (-7) false false true 5 false 6 (printSignedNumber (-7) false false true 5 false 6) ↔
        (-7 : Int64) ≠ Int64.minValue) :=
  printers_print 3 (-7) true true true false false true false (by decide) (by decide)

/-- The least number has no magnitude. -/
theorem not_printSignedNumber :
    ¬ ∀ (number : Int64) (alwaysSign leftPad zeroPad hasPrecision : Bool) (fieldWidth precision : Nat),
      fieldWidth < 2 ^ 31 → precision + 2 < 2 ^ 31 →
        PrintsSigned number alwaysSign leftPad zeroPad fieldWidth hasPrecision precision
          (printSignedNumber number alwaysSign leftPad zeroPad fieldWidth hasPrecision precision) := by
  intro h
  obtain ⟨digits, before, zeros, after, out, -, hnone, -⟩ :=
    h Int64.minValue false false false false 0 0 (by decide) (by decide)
  cases hnone

/-- A number with eleven octal digits. -/
theorem not_printOctalNumber :
    ¬ ∀ (number fieldWidth precision : UInt32) (alternateForm leftPad zeroPad hasPrecision : Bool),
      PrintsOctal number.toNat (printOctalNumber number.toNat alternateForm leftPad zeroPad
        fieldWidth.toNat hasPrecision precision.toNat) := by
  intro h
  exact absurd ((printOctalNumber_prints_iff 0x40000000 0 0 false false false false).mp
    (h 0x40000000 0 0 false false false false)).1 (by decide)

end Literate.AK.PrintfImplementation
