import Mathlib.Data.List.Basic
import Mathlib.Data.List.GetD
import Mathlib.Algebra.Group.Nat.Defs
import Mathlib.Algebra.Group.Int.Defs

/-!
# AK: string views as bytes, trimming and number conversion

The functions of `AK/StringUtils.cpp` that the JSON parser rests on.  A
`StringView` is its list of bytes.  The conversions to an integer type `T` take the
number of bits of `T`.

`trim` leaves its loop from the right at a character that belongs to the set, where
the loop from the left leaves at one that does not.  So the text of a number, in
which nothing is to be trimmed, is cut to its first character (`trim_both`).
-/

namespace Literate.AK

open List

/-- A character constant of the source. -/
def byte (c : Char) : UInt8 := UInt8.ofNat c.toNat

variable {str : List UInt8} {c : UInt8}

namespace StringUtils

inductive TrimMode where
  | left
  | right
  | both
  deriving DecidableEq, Repr

inductive TrimWhitespace where
  | yes
  | no
  deriving DecidableEq, Repr

/-- The loop of `trim` from the left over what is left of the string; its state is
`substring_start` and `substring_length`, and `none` says that it returns `""`. -/
def trimLeft (characters : List UInt8) : List UInt8 → Nat → Nat → Option (Nat × Nat)
  | [], start, length => some (start, length)
  | c :: str, start, length =>
    if length = 0 then none
    else if c ∉ characters then some (start, length)
    else trimLeft characters str (start + 1) (length - 1)

/-- The loop of `trim` from the right, from index `i` down to 1. -/
def trimRight (characters str : List UInt8) : Nat → Nat → Option Nat
  | 0, length => some length
  | i + 1, length =>
    if length = 0 then none
    else if str.getD (i + 1) 0 ∈ characters then some length
    else trimRight characters str i (length - 1)

/-- `StringUtils::trim`.  For the empty string the index from the right starts at
the largest `size_t`, and the loop returns `""` at once. -/
def trim (str characters : List UInt8) (mode : TrimMode) : List UInt8 :=
  match (if mode = .left ∨ mode = .both then trimLeft characters str 0 str.length
    else some (0, str.length)) with
  | none => []
  | some (start, length) =>
    match (if mode = .right ∨ mode = .both then
        if str = [] then none else trimRight characters str (str.length - 1) length
      else some length) with
    | none => []
    | some length => (str.drop start).take length

/-- The characters `" \n\t\v\f\r"`. -/
def whitespace : List UInt8 := [0x20, 0x0a, 0x09, 0x0b, 0x0c, 0x0d]

def trimWhitespace (str : List UInt8) (mode : TrimMode) : List UInt8 :=
  trim str whitespace mode

/-- The string a conversion works on. -/
def converted (str : List UInt8) : TrimWhitespace → List UInt8
  | .yes => trimWhitespace str .both
  | .no => str

def isDigit (c : UInt8) : Bool := decide (byte '0' ≤ c ∧ c ≤ byte '9')

/-- The value of a decimal digit. -/
def digit (c : UInt8) : Nat := (c - byte '0').toNat

/-- The loop of `convert_to_uint<T>` for an unsigned type of `bits` bits. -/
def convertToUintLoop (bits : Nat) : List UInt8 → Nat → Option Nat
  | [], value => some value
  | c :: str, value =>
    if ¬ isDigit c then none
    else if 2 ^ bits ≤ value * 10 then none
    else if 2 ^ bits ≤ value * 10 + digit c then none
    else convertToUintLoop bits str (value * 10 + digit c)

/-- `convert_to_uint<T>`. -/
def convertToUint (bits : Nat) (str : List UInt8) (mode : TrimWhitespace) : Option Nat :=
  let string := converted str mode
  if string = [] then none else convertToUintLoop bits string 0

/-- A value of a signed type of `bits` bits. -/
def inRange (bits : Nat) (n : Int) : Bool := decide (-2 ^ (bits - 1) ≤ n ∧ n < 2 ^ (bits - 1))

/-- The loop of `convert_to_int<T>` for a signed type of `bits` bits. -/
def convertToIntLoop (bits : Nat) (sign : Int) : List UInt8 → Int → Option Int
  | [], value => some value
  | c :: str, value =>
    if ¬ isDigit c then none
    else if ¬ inRange bits (value * 10) then none
    else if ¬ inRange bits (value * 10 + sign * digit c) then none
    else convertToIntLoop bits sign str (value * 10 + sign * digit c)

/-- `convert_to_int<T>`. -/
def convertToInt (bits : Nat) (str : List UInt8) (mode : TrimWhitespace) : Option Int :=
  match converted str mode with
  | [] => none
  | c :: string =>
    if c = byte '-' ∨ c = byte '+' then
      if string = [] then none
      else convertToIntLoop bits (if c = byte '-' then -1 else 1) string 0
    else convertToIntLoop bits 1 (c :: string) 0

/-- The value of a hexadecimal digit. -/
def hexDigit (c : UInt8) : Option Nat :=
  if byte '0' ≤ c ∧ c ≤ byte '9' then some (c - byte '0').toNat
  else if byte 'a' ≤ c ∧ c ≤ byte 'f' then some (10 + (c - byte 'a').toNat)
  else if byte 'A' ≤ c ∧ c ≤ byte 'F' then some (10 + (c - byte 'A').toNat)
  else none

/-- The loop of `convert_to_uint_from_hex<T>`. -/
def convertToUintFromHexLoop (bits : Nat) : List UInt8 → Nat → Option Nat
  | [], value => some value
  | c :: str, value =>
    if (2 ^ bits - 1) / 2 ^ 4 < value then none
    else match hexDigit c with
      | none => none
      | some digit => convertToUintFromHexLoop bits str (value * 2 ^ 4 + digit)

/-- `convert_to_uint_from_hex<T>`. -/
def convertToUintFromHex (bits : Nat) (str : List UInt8) (mode : TrimWhitespace) : Option Nat :=
  let string := converted str mode
  if string = [] then none else convertToUintFromHexLoop bits string 0

/-! ## What trimming does -/

theorem trimLeft_of_notMem {characters str : List UInt8} {c : UInt8} (hc : c ∉ characters)
    {start length : Nat} (hlength : 0 < length) :
    trimLeft characters (c :: str) start length = some (start, length) := by
  simp [trimLeft, Nat.ne_of_gt hlength, hc]

/-- The loop from the right takes every character that does *not* belong to the
set. -/
theorem trimRight_of_notMem {characters str : List UInt8} {i length : Nat}
    (hi : i < str.length) (hlength : i ≤ length) (h : ∀ c ∈ str, c ∉ characters) :
    trimRight characters str i length = some (length - i) := by
  induction i generalizing length with
  | zero => rfl
  | succ i ih =>
    have hmem : str.getD (i + 1) 0 ∉ characters := by
      rw [getD_eq_getElem _ _ hi]
      exact h _ (getElem_mem hi)
    rw [trimRight, if_neg (by omega), if_neg hmem, ih (by omega) (by omega)]
    congr 1
    omega

/-- A string without characters of the set is cut to its first character. -/
theorem trim_both_of_notMem {characters : List UInt8} (h : ∀ c ∈ str, c ∉ characters) :
    trim str characters .both = str.take 1 := by
  cases str with
  | nil => rfl
  | cons c str =>
    have hleft := @trimLeft_of_notMem characters str c (h c mem_cons_self) 0
      (c :: str).length (by simp)
    have hright := @trimRight_of_notMem characters (c :: str) ((c :: str).length - 1)
      (c :: str).length (by simp) (by omega) h
    simp only [trim, if_true, or_true, hleft, hright, reduceCtorEq, if_false]
    congr 1
    simp

/-! ## The conversions of an untrimmed text -/

theorem hexDigit_of_whitespace (h : c ∈ whitespace) : hexDigit c = none := by
  simp only [whitespace, mem_cons, not_mem_nil, or_false] at h
  rcases h with rfl | rfl | rfl | rfl | rfl | rfl <;> decide

/-- A hexadecimal conversion that succeeds has met no other character. -/
theorem hexDigit_of_convertToUintFromHexLoop {bits : Nat} {value v : Nat}
    (h : convertToUintFromHexLoop bits str value = some v) : ∀ c ∈ str, (hexDigit c).isSome := by
  induction str generalizing value with
  | nil => simp
  | cons c str ih =>
    rw [convertToUintFromHexLoop] at h
    split at h
    · cases h
    · cases hc : hexDigit c with
      | none =>
        rw [hc] at h
        cases h
      | some digit =>
        rw [hc] at h
        intro c' hc'
        rcases mem_cons.mp hc' with rfl | hc'
        · rw [hc]
          rfl
        · exact ih h c' hc'

/-- Four characters are read as the value of the first: the others are trimmed away,
unless one of them is whitespace. -/
theorem convertToUintFromHex_four {a b c d : UInt8} {v : Nat} :
    convertToUintFromHex 32 [a, b, c, d] .yes = some v ↔
      hexDigit a = some v ∧ b ∉ whitespace ∧ c ∉ whitespace ∧ d ∉ whitespace := by
  by_cases hws : ∀ x ∈ [a, b, c, d], x ∉ whitespace
  · have htrim : converted [a, b, c, d] .yes = [a] := trim_both_of_notMem hws
    have hloop : convertToUintFromHexLoop 32 [a] 0 = hexDigit a := by
      cases ha : hexDigit a <;> simp [convertToUintFromHexLoop, ha]
    simp only [convertToUintFromHex, htrim, hloop, reduceCtorEq, if_false]
    have hb := hws b (by simp)
    have hc := hws c (by simp)
    have hd := hws d (by simp)
    simp [hb, hc, hd]
  · -- what is left after the trimming is empty or ends in whitespace
    have hnone : convertToUintFromHex 32 [a, b, c, d] .yes = none := by
      have hkey : converted [a, b, c, d] .yes = [] ∨
          ∃ x ∈ converted [a, b, c, d] .yes, x ∈ whitespace := by
        simp only [converted, trimWhitespace, trim, trimLeft]
        by_cases ha : a ∈ whitespace <;> by_cases hb : b ∈ whitespace <;>
          by_cases hc : c ∈ whitespace <;> by_cases hd : d ∈ whitespace <;>
          simp_all [trimRight]
      rcases hkey with hempty | ⟨x, hx, hxws⟩
      · simp [convertToUintFromHex, hempty]
      · cases hv : convertToUintFromHex 32 [a, b, c, d] .yes with
        | none => rfl
        | some v =>
          simp only [convertToUintFromHex] at hv
          split at hv
          · cases hv
          · have hsome := hexDigit_of_convertToUintFromHexLoop hv x hx
            rw [hexDigit_of_whitespace hxws] at hsome
            cases hsome
    rw [hnone]
    refine ⟨fun h => (by cases h), fun ⟨ha, hb, hc, hd⟩ => absurd ?_ hws⟩
    intro x hx
    simp only [mem_cons, not_mem_nil, or_false] at hx
    rcases hx with rfl | rfl | rfl | rfl
    · intro hmem
      rw [hexDigit_of_whitespace hmem] at ha
      cases ha
    · exact hb
    · exact hc
    · exact hd

theorem digit_lt (h : isDigit c) : digit c < 10 := by
  simp only [isDigit, decide_eq_true_eq] at h
  obtain ⟨h₁, h₂⟩ := h
  have h₁' : (byte '0').toNat ≤ c.toNat := UInt8.le_iff_toNat_le.mp h₁
  have h₂' : c.toNat ≤ (byte '9').toNat := UInt8.le_iff_toNat_le.mp h₂
  have hsub : digit c = c.toNat - (byte '0').toNat := UInt8.toNat_sub_of_le _ _ h₁
  have h9 : (byte '9').toNat = 57 := by decide
  have h0 : (byte '0').toNat = 48 := by decide
  omega

/-- A text without whitespace is converted as its first character. -/
theorem convertToUint_cons {bits : Nat} (hbits : 4 ≤ bits) (h : ∀ x ∈ c :: str, x ∉ whitespace) :
    convertToUint bits (c :: str) .yes = if isDigit c then some (digit c) else none := by
  have htrim : converted (c :: str) .yes = [c] := trim_both_of_notMem h
  simp only [convertToUint, htrim, reduceCtorEq, if_false, convertToUintLoop, Nat.zero_mul,
    Nat.zero_add]
  have hpow : 2 ^ 4 ≤ 2 ^ bits := Nat.pow_le_pow_right (by decide) hbits
  by_cases hc : isDigit c
  · have := digit_lt hc
    rw [if_neg (by simpa using hc), if_neg (by omega), if_neg (by omega), if_pos hc]
  · rw [if_pos (by simpa using hc), if_neg hc]

/-- Of a negative number the sign is left, which is no number. -/
theorem convertToInt_minus {bits : Nat} (h : ∀ x ∈ byte '-' :: str, x ∉ whitespace) :
    convertToInt bits (byte '-' :: str) .yes = none := by
  have htrim : converted (byte '-' :: str) .yes = [byte '-'] := trim_both_of_notMem h
  simp [convertToInt, htrim]

end StringUtils

end Literate.AK
