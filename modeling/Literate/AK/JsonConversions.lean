import Literate.AK.JsonValue

/-!
# AK: JSON values as numbers

`JsonValue::to_number`.  The type that a number is asked for in is a `NumberType`: it says
what a conversion makes of an integer and of a double.
-/

namespace Literate.AK

open Option

/-- An arithmetic type: its values, the conversions to it, the integer that a value is, if
it is one, and the integers that it can hold. -/
structure NumberType where
  Value : Type
  ofInteger : Int → Value
  ofDouble : Double → Value
  integer : Value → Option Int
  Holds : Int → Prop
  /-- A conversion keeps an integer that the type can hold. -/
  kept : ∀ n, Holds n → integer (ofInteger n) = some n

namespace NumberType

/-- An unsigned type of `w` bits. -/
def unsigned (w : Nat) (ofDouble : Double → BitVec w) : NumberType where
  Value := BitVec w
  ofInteger := BitVec.ofInt w
  ofDouble := ofDouble
  integer := fun v => some v.toNat
  Holds := fun n => 0 ≤ n ∧ n < 2 ^ w
  kept := by
    rintro n ⟨hlow, hhigh⟩
    have hcast : ((2 ^ w : Nat) : Int) = 2 ^ w := Int.natCast_pow 2 w
    rw [BitVec.toNat_ofInt, hcast, Int.emod_eq_of_lt hlow hhigh, Int.toNat_of_nonneg hlow]

/-- A signed type of `w` bits. -/
def signed (w : Nat) (hw : 0 < w) (ofDouble : Double → BitVec w) : NumberType where
  Value := BitVec w
  ofInteger := BitVec.ofInt w
  ofDouble := ofDouble
  integer := fun v => some v.toInt
  Holds := fun n => -2 ^ (w - 1) ≤ n ∧ n < 2 ^ (w - 1)
  kept := fun _ h => congrArg some (BitVec.toInt_ofInt_eq_self hw h.1 h.2)

/-- The double next to an integer, the even one of two that are as near: its significand has
53 bits. -/
def roundToDouble (n : Int) : Int :=
  if n.natAbs < 2 ^ 53 then n
  else
    let shift := n.natAbs.log2 - 52
    let significand := n.natAbs / 2 ^ shift
    let rest := n.natAbs % 2 ^ shift
    let up := 2 ^ shift < 2 * rest ∨ 2 * rest = 2 ^ shift ∧ significand % 2 = 1
    n.sign * (((if up then significand + 1 else significand) * 2 ^ shift : Nat) : Int)

/-- The type `double`; what the floating-point operations of the parser give is a
parameter. -/
def double (ofDouble : Double → Rat) : NumberType where
  Value := Rat
  ofInteger := fun n => (roundToDouble n : Int)
  ofDouble := ofDouble
  integer := fun v => if v.den = 1 then some v.num else none
  Holds := fun n => roundToDouble n = n
  kept := by
    intro n hn
    rw [hn, if_pos (Rat.den_intCast n), Rat.num_intCast]

theorem holds_double {n : Int} (h : n.natAbs < 2 ^ 53) (ofDouble : Double → Rat) :
    (double ofDouble).Holds n := if_pos h

example : roundToDouble (2 ^ 53 + 1) = 2 ^ 53 ∧ roundToDouble (-(2 ^ 53 + 3)) = -(2 ^ 53 + 4) ∧
    roundToDouble (2 ^ 64 - 1) = 2 ^ 64 := by decide

end NumberType

namespace JsonValue

def toNumber (T : NumberType) (defaultValue : T.Value) : JsonValue → T.Value
  | .double d => T.ofDouble d
  | .int32 n => T.ofInteger n.toInt
  | .unsignedInt32 n => T.ofInteger n.toNat
  | .int64 n => T.ofInteger n.toInt
  | .unsignedInt64 n => T.ofInteger n.toNat
  | _ => defaultValue

/-- A value stands for an integer: `to_number` gives it in every type that can hold it. -/
def Denotes (value : JsonValue) (n : Int) : Prop :=
  ∀ (T : NumberType), T.Holds n → ∀ defaultValue,
    T.integer (value.toNumber T defaultValue) = some n

/-- An integer of any of the four types is converted from the number it has. -/
theorem toNumber_of_integer {value : JsonValue} {n : Int} (h : value.integer = some n)
    (T : NumberType) (defaultValue : T.Value) : value.toNumber T defaultValue = T.ofInteger n := by
  cases value with
  | int32 m => exact congrArg T.ofInteger (some.inj h)
  | unsignedInt32 m => exact congrArg T.ofInteger (some.inj h)
  | int64 m => exact congrArg T.ofInteger (some.inj h)
  | unsignedInt64 m => exact congrArg T.ofInteger (some.inj h)
  | null => cases h
  | double d => cases h
  | bool b => cases h
  | string s => cases h
  | array values => cases h
  | object members => cases h

theorem denotes_of_integer {value : JsonValue} {n : Int} (h : value.integer = some n) :
    value.Denotes n := by
  intro T hT defaultValue
  rw [toNumber_of_integer h]
  exact T.kept n hT

end JsonValue

end Literate.AK
