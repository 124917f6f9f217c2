import Mathlib.Algebra.Group.Nat.Defs
import Mathlib.Algebra.Group.Int.Defs

/-!
# AK: the integer types and the error codes

`u8` to `u64` of `AK/Types.h`, the values of `int` expressions, and the codes that the fallible
operations return.
-/

namespace Literate.AK

/-- The built-in unsigned types. -/
inductive Unsigned where
  | u8
  | u16
  | u32
  | u64
  deriving DecidableEq, Repr

namespace Unsigned

def bits : Unsigned → Nat
  | .u8 => 8
  | .u16 => 16
  | .u32 => 32
  | .u64 => 64

theorem bits_le (type : Unsigned) : type.bits ≤ 64 := by
  cases type <;> decide

end Unsigned

/-- The value of an `int` expression; its overflow is undefined. -/
def int (n : Int) : Option Int := if -2147483648 ≤ n ∧ n ≤ 2147483647 then some n else none

variable {m n : Int}

theorem int_of_fits (hmin : -2147483648 ≤ n) (hmax : n ≤ 2147483647) : int n = some n :=
  if_pos ⟨hmin, hmax⟩

theorem int_eq_some : int n = some m ↔ m = n ∧ -2147483648 ≤ n ∧ n ≤ 2147483647 := by
  constructor
  · intro h
    by_cases hfits : -2147483648 ≤ n ∧ n ≤ 2147483647
    · rw [int, if_pos hfits, Option.some.injEq] at h
      exact ⟨h.symm, hfits⟩
    · rw [int, if_neg hfits] at h
      cases h
  · rintro ⟨rfl, hmin, hmax⟩
    exact int_of_fits hmin hmax

/-- The error codes. -/
inductive Errno
  | einval
  | enomem
  deriving DecidableEq, Repr

end Literate.AK
