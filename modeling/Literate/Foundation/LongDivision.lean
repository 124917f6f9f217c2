import Mathlib.Tactic.Ring

/-!
# Foundation: long division by bits

The dividend is read from its highest bit, and the remainder is kept modulo an even number.
`divideFrom_iff` says when that is division: no remainder on the way may reach half of the
modulus, for its double would be cut off and a bit of the quotient lost.
-/

namespace Literate.Foundation

open Nat

/-- A quotient and a remainder. -/
structure Divided where
  quotient : Nat
  remainder : Nat
  deriving DecidableEq, Repr

namespace Divided

/-- The quotient and the remainder of `a` by `d`. -/
structure IsDivision (a d : Nat) (result : Divided) : Prop where
  eq : a = result.quotient * d + result.remainder
  lt : result.remainder < d

/-- The bits of `a` above `place` are divided; the quotient is at its place. -/
structure Above (a d place : Nat) (result : Divided) : Prop where
  quotient_eq : result.quotient = 2 ^ place * (a / 2 ^ place / d)
  remainder_eq : result.remainder = a / 2 ^ place % d

/-- The bit of `a` at `place` is taken down. -/
def step (M a d place : Nat) (result : Divided) : Divided :=
  let remainder := result.remainder * 2 % M + a / 2 ^ place % 2
  if d ≤ remainder then ⟨result.quotient + 2 ^ place, remainder - d⟩
  else ⟨result.quotient, remainder⟩

/-- The bits below `place` are taken down. -/
def divideFrom (M a d : Nat) : (place : Nat) → Divided → Divided
  | 0, result => result
  | place + 1, result => divideFrom M a d place (step M a d place result)

variable {M a d place : Nat} {result : Divided}

theorem isDivision_iff (hpos : 0 < d) :
    IsDivision a d result ↔ result.quotient = a / d ∧ result.remainder = a % d := by
  constructor
  · rintro ⟨heq, hlt⟩
    rw [heq, Nat.mul_comm, mul_add_div hpos, mul_add_mod, div_eq_of_lt hlt,
      mod_eq_of_lt hlt, Nat.add_zero]
    exact ⟨rfl, rfl⟩
  · rintro ⟨hquotient, hremainder⟩
    constructor
    · rw [hquotient, hremainder, Nat.mul_comm, div_add_mod]
    · rw [hremainder]
      exact mod_lt _ hpos

theorem above_zero_iff (hpos : 0 < d) : Above a d 0 result ↔ IsDivision a d result := by
  rw [isDivision_iff hpos]
  constructor
  · rintro ⟨hquotient, hremainder⟩
    rw [Nat.pow_zero, Nat.div_one, Nat.one_mul] at hquotient
    rw [Nat.pow_zero, Nat.div_one] at hremainder
    exact ⟨hquotient, hremainder⟩
  · rintro ⟨hquotient, hremainder⟩
    constructor
    · rw [Nat.pow_zero, Nat.div_one, Nat.one_mul, hquotient]
    · rw [Nat.pow_zero, Nat.div_one, hremainder]

/-- The bits of a number above a place, and the bit at it. -/
theorem div_two_pow_succ (a place : Nat) :
    a / 2 ^ place = 2 * (a / 2 ^ (place + 1)) + a / 2 ^ place % 2 := by
  rw [Nat.pow_succ, ← Nat.div_div_eq_div_mul, div_add_mod]

theorem div_mod_bit (hpos : 0 < d) (x : Nat) {bit : Nat} (hbit : bit < 2) :
    (d ≤ x % d * 2 + bit → (2 * x + bit) / d = 2 * (x / d) + 1 ∧
      (2 * x + bit) % d = x % d * 2 + bit - d) ∧
    (x % d * 2 + bit < d → (2 * x + bit) / d = 2 * (x / d) ∧
      (2 * x + bit) % d = x % d * 2 + bit) := by
  have hsplit : 2 * x + bit = d * (2 * (x / d)) + (x % d * 2 + bit) := by
    calc 2 * x + bit = 2 * (d * (x / d) + x % d) + bit := by rw [div_add_mod]
      _ = d * (2 * (x / d)) + (x % d * 2 + bit) := by ring
  have hlt := mod_lt x hpos
  rw [hsplit, mul_add_div hpos, mul_add_mod]
  constructor
  · intro hle
    have hrest : x % d * 2 + bit - d < d := by omega
    rw [div_eq_sub_div hpos hle, mod_eq_sub_mod hle, div_eq_of_lt hrest,
      mod_eq_of_lt hrest]
    exact ⟨rfl, rfl⟩
  · intro hless
    rw [div_eq_of_lt hless, mod_eq_of_lt hless]
    exact ⟨rfl, rfl⟩

/-- A step divides one more bit when the double of the remainder is not cut off. -/
theorem Above.step (h : Above a d (place + 1) result) (hpos : 0 < d)
    (hfits : a / 2 ^ (place + 1) % d * 2 < M) : Above a d place (step M a d place result) := by
  have hbit : a / 2 ^ place % 2 < 2 := mod_lt _ (by decide)
  obtain ⟨hover, hunder⟩ := div_mod_bit hpos (a / 2 ^ (place + 1)) hbit
  rw [← div_two_pow_succ] at hover hunder
  have hquotient : result.quotient = 2 ^ place * (2 * (a / 2 ^ (place + 1) / d)) := by
    rw [h.quotient_eq, Nat.pow_succ, Nat.mul_assoc]
  rw [Divided.step, h.remainder_eq, mod_eq_of_lt hfits]
  split
  · next hle =>
    obtain ⟨hdiv, hmod⟩ := hover hle
    constructor
    · rw [hdiv, Nat.mul_add, Nat.mul_one, hquotient]
    · exact hmod.symm
  · next hnot =>
    obtain ⟨hdiv, hmod⟩ := hunder (Nat.lt_of_not_le hnot)
    constructor
    · rw [hdiv, hquotient]
    · exact hmod.symm

/-- The bits below a place add less than its value to the quotient. -/
theorem quotient_divideFrom_lt (M a d place : Nat) (result : Divided) :
    (divideFrom M a d place result).quotient < result.quotient + 2 ^ place := by
  induction place generalizing result with
  | zero => exact Nat.lt_succ_self _
  | succ place ih =>
    have hstep : (step M a d place result).quotient ≤ result.quotient + 2 ^ place := by
      rw [step]
      split
      · exact Nat.le_refl _
      · exact Nat.le_add_right _ _
    have hlt := ih (step M a d place result)
    rw [divideFrom, Nat.pow_succ]
    omega

/-- The double of the remainder is cut off: the bit of the quotient is lost. -/
theorem Above.lost (h : Above a d (place + 1) result) (hpos : 0 < d) (hM : d < M)
    (hcut : M ≤ a / 2 ^ (place + 1) % d * 2) :
    (divideFrom M a d (place + 1) result).quotient < a / d := by
  have hbit : a / 2 ^ place % 2 < 2 := mod_lt _ (by decide)
  obtain ⟨hover, -⟩ := div_mod_bit hpos (a / 2 ^ (place + 1)) hbit
  rw [← div_two_pow_succ] at hover
  have hlt := mod_lt (a / 2 ^ (place + 1)) hpos
  have hcutOff : a / 2 ^ (place + 1) % d * 2 % M = a / 2 ^ (place + 1) % d * 2 - M := by
    rw [mod_eq_sub_mod hcut, mod_eq_of_lt (by omega)]
  have hstep : (Divided.step M a d place result).quotient = result.quotient := by
    rw [Divided.step, h.remainder_eq, hcutOff]
    rw [if_neg (by omega)]
  have hrest := quotient_divideFrom_lt M a d place (Divided.step M a d place result)
  rw [hstep] at hrest
  calc (divideFrom M a d (place + 1) result).quotient
      < result.quotient + 2 ^ place := hrest
    _ = 2 ^ place * (a / 2 ^ place / d) := by
        rw [(hover (by omega)).1, h.quotient_eq, Nat.pow_succ, Nat.mul_assoc, Nat.mul_add,
          Nat.mul_one]
    _ ≤ a / d := by
        rw [Nat.div_div_eq_div_mul, Nat.mul_comm (2 ^ place) d, ← Nat.div_div_eq_div_mul]
        exact mul_div_le _ _

/-- From a place on, the division is exact just when no remainder is cut off. -/
theorem Above.divideFrom_iff (h : Above a d place result) (hpos : 0 < d) (hM : d < M) :
    IsDivision a d (divideFrom M a d place result) ↔
      ∀ i, 0 < i → i ≤ place → a / 2 ^ i % d * 2 < M := by
  induction place generalizing result with
  | zero => exact ⟨fun _ i hi hle => absurd hi (by omega), fun _ => (above_zero_iff hpos).mp h⟩
  | succ place ih =>
    rcases Nat.lt_or_ge (a / 2 ^ (place + 1) % d * 2) M with hfits | hcut
    · rw [divideFrom, ih (h.step hpos hfits)]
      constructor
      · intro hall i hi hle
        rcases Nat.lt_or_ge place i with hlast | hless
        · rwa [Nat.le_antisymm hle hlast]
        · exact hall i hi hless
      · intro hall i hi hle
        exact hall i hi (by omega)
    · constructor
      · intro hdivision
        have hquotient := ((isDivision_iff hpos).mp hdivision).1
        have hless := h.lost hpos hM hcut
        omega
      · intro hall
        have hless := hall (place + 1) (succ_pos _) (Nat.le_refl _)
        omega

/-- Long division from above the highest bit. -/
theorem divideFrom_iff (hpos : 0 < d) (hM : d < M) (hplace : a < 2 ^ place) :
    IsDivision a d (divideFrom M a d place ⟨0, 0⟩) ↔ ∀ i, 0 < i → a / 2 ^ i % d * 2 < M := by
  have habove : Above a d place ⟨0, 0⟩ := by
    constructor
    · rw [div_eq_of_lt hplace, Nat.zero_div, Nat.mul_zero]
    · rw [div_eq_of_lt hplace, zero_mod]
  rw [habove.divideFrom_iff hpos hM]
  constructor
  · intro hall i hi
    rcases Nat.lt_or_ge place i with hout | hin
    · have hzero : a / 2 ^ i = 0 :=
        div_eq_of_lt (Nat.lt_trans hplace (Nat.pow_lt_pow_right (by decide) hout))
      rw [hzero, zero_mod, Nat.zero_mul]
      exact Nat.lt_of_le_of_lt (Nat.zero_le _) hM
    · exact hall i hi hin
  · intro hall i hi _
    exact hall i hi

end Divided

end Literate.Foundation
