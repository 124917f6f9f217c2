import Literate.AK.UFixedBigIntDivide
import Mathlib.Data.Nat.Sqrt
import Mathlib.Tactic.Linarith

/-!
# AK: the square root of `UFixedBigInt`

The bitwise method takes two bits of the number in a pass.  What it has found then is the root of
the number that the bits taken so far make, and the next digit of the root is tried by its square.
-/

namespace Literate.AK

open Foundation Nat

namespace UFixedBigInt

variable {n : Nat}

/-- `large_cand`, and `res` at the end of the pass. -/
def sqrtPass (a : UFixedBigInt (n + 1)) (shift : Nat) (res : UFixedBigInt (n + 1)) :
    UFixedBigInt (n + 1) × UFixedBigInt (n + 1) :=
  let res := shiftLeft (n + 1) res 1
  let largeCand := orWord res 1
  let fits := !lt (shiftRight (n + 1) a shift) (multiply .same largeCand largeCand)
  (largeCand, if fits then largeCand else res)

/-- The loop from the shift `2 * (k - 1)` on: the root, and the candidates tried. -/
def sqrtLoop (a : UFixedBigInt (n + 1)) :
    Nat → UFixedBigInt (n + 1) → UFixedBigInt (n + 1) × List (UFixedBigInt (n + 1))
  | 0, res => (res, [])
  | k + 1, res =>
    let (largeCand, res) := sqrtPass a (2 * k) res
    let (root, candidates) := sqrtLoop a k res
    (root, largeCand :: candidates)

/-- `sqrt`, with the candidates that it tries.  The shift begins at an even number. -/
def sqrt (a : UFixedBigInt (n + 1)) : UFixedBigInt (n + 1) × List (UFixedBigInt (n + 1)) :=
  if NoWider.eq a (NoWider.ofBuiltin .u32 (n + 1)) (NoWider.ofValue .u32 1 (n + 1)) then (ofWord (n + 1) 1, [])
  else sqrtLoop a ((bits (n + 1) - a.clz) / 2 + 1) (ofWord (n + 1) 0)

theorem sqrt_of_quarter (p : Nat) :
    Nat.sqrt p = if (2 * Nat.sqrt (p / 4) + 1) * (2 * Nat.sqrt (p / 4) + 1) ≤ p then
      2 * Nat.sqrt (p / 4) + 1 else 2 * Nat.sqrt (p / 4) := by
  have hle := sqrt_le (p / 4)
  have hlt := lt_succ_sqrt (p / 4)
  rw [succ_eq_add_one] at hlt
  generalize Nat.sqrt (p / 4) = r at hle hlt ⊢
  symm
  split
  · next hfits =>
    refine eq_sqrt.mpr ⟨hfits, ?_⟩
    have : p < 4 * ((r + 1) * (r + 1)) := by omega
    nlinarith
  · next hfits =>
    refine eq_sqrt.mpr ⟨?_, by omega⟩
    have : 4 * (r * r) ≤ p := by omega
    nlinarith

theorem candidate_lt {r p : Nat} (hr : r * r ≤ p / 4) (hp : p < base (n + 1)) :
    2 * r + 1 < base n := by
  obtain ⟨half, hhalf⟩ := two_dvd_base n
  have hsquare : 2 * r * (2 * r) < base n * base n := by
    rw [base_succ] at hp
    have : 4 * (r * r) ≤ p := by omega
    nlinarith
  have hlt := Nat.mul_self_lt_mul_self_iff.mp hsquare
  omega

section

variable (a : UFixedBigInt (n + 1))

/-- A pass finds the root of a prefix that is longer by two bits. -/
theorem sqrtPass_spec (k : Nat) {res : UFixedBigInt (n + 1)}
    (hres : res.toNat = Nat.sqrt (a.toNat / 2 ^ (2 * (k + 1)))) :
    (sqrtPass a (2 * k) res).1.toNat * (sqrtPass a (2 * k) res).1.toNat < base (n + 1) ∧
      (sqrtPass a (2 * k) res).2.toNat = Nat.sqrt (a.toNat / 2 ^ (2 * k)) := by
  have hquarter : a.toNat / 2 ^ (2 * (k + 1)) = a.toNat / 2 ^ (2 * k) / 4 := by
    rw [Nat.div_div_eq_div_mul, Nat.mul_succ, Nat.pow_add]
  rw [hquarter] at hres
  have hp : a.toNat / 2 ^ (2 * k) < base (n + 1) :=
    Nat.lt_of_le_of_lt (Nat.div_le_self _ _) a.toNat_lt
  have hcand := candidate_lt (hres ▸ sqrt_le (a.toNat / 2 ^ (2 * k) / 4)) hp
  have hsquare : (2 * res.toNat + 1) * (2 * res.toNat + 1) < base (n + 1) := by
    rw [base_succ]
    exact Nat.mul_self_lt_mul_self_iff.mpr hcand
  have hdouble : (shiftLeft (n + 1) res 1).toNat = 2 * res.toNat := by
    rw [toNat_shiftLeft, Nat.pow_one, Nat.mul_comm, mod_eq_of_lt]
    exact Nat.lt_of_le_of_lt (by nlinarith) hsquare
  have hlarge : (orWord (shiftLeft (n + 1) res 1) 1).toNat = 2 * res.toNat + 1 := by
    have hor := toNat_orWord (a := shiftLeft (n + 1) res 1) (by rw [hdouble]; omega) true
    rw [hdouble] at hor
    exact hor
  have hproduct : (multiply .same (orWord (shiftLeft (n + 1) res 1) 1)
      (orWord (shiftLeft (n + 1) res 1) 1)).toNat = (2 * res.toNat + 1) * (2 * res.toNat + 1) := by
    rw [toNat_multiply, NoWider.toNat, hlarge, mod_eq_of_lt hsquare]
  have hfits : (!lt (shiftRight (n + 1) a (2 * k)) (multiply .same
      (orWord (shiftLeft (n + 1) res 1) 1) (orWord (shiftLeft (n + 1) res 1) 1))) = true ↔
        (2 * res.toNat + 1) * (2 * res.toNat + 1) ≤ a.toNat / 2 ^ (2 * k) := by
    rw [Bool.not_eq_true', ← Bool.not_eq_true, lt_iff, toNat_shiftRight, hproduct, Nat.not_lt]
  refine ⟨?_, ?_⟩
  · rw [sqrtPass, hlarge]
    exact hsquare
  · rw [sqrtPass, sqrt_of_quarter, ← hres]
    by_cases hle : (2 * res.toNat + 1) * (2 * res.toNat + 1) ≤ a.toNat / 2 ^ (2 * k)
    · rw [if_pos (hfits.mpr hle), if_pos hle, hlarge]
    · rw [if_neg (mt hfits.mp hle), if_neg hle, hdouble]

/-- The loop finds the root of the whole, and no square of a candidate wraps around. -/
theorem sqrtLoop_spec (k : Nat) {res : UFixedBigInt (n + 1)}
    (hres : res.toNat = Nat.sqrt (a.toNat / 2 ^ (2 * k))) :
    (sqrtLoop a k res).1.toNat = Nat.sqrt a.toNat ∧
      ∀ candidate ∈ (sqrtLoop a k res).2,
        candidate.toNat * candidate.toNat < base (n + 1) := by
  induction k generalizing res with
  | zero =>
    rw [Nat.mul_zero, Nat.pow_zero, Nat.div_one] at hres
    exact ⟨hres, fun _ hmem => nomatch hmem⟩
  | succ k ih =>
    obtain ⟨hsquare, hpass⟩ := sqrtPass_spec a k hres
    obtain ⟨hroot, hcandidates⟩ := ih hpass
    exact ⟨hroot, List.forall_mem_cons.mpr ⟨hsquare, hcandidates⟩⟩

/-- Above the bits that the loop takes there are none. -/
theorem shift_eq_zero : a.toNat / 2 ^ (2 * ((bits (n + 1) - a.clz) / 2 + 1)) = 0 := by
  refine div_eq_of_lt (Nat.lt_of_lt_of_le a.toNat_lt_clz ?_)
  exact Nat.pow_le_pow_right (by decide) (by omega)

/-- The square root is that of the number, rounded down, and the squares of the candidates fit. -/
theorem sqrt_spec : (a.sqrt.1.toNat * a.sqrt.1.toNat ≤ a.toNat ∧
        a.toNat < (a.sqrt.1.toNat + 1) * (a.sqrt.1.toNat + 1)) ∧
      ∀ candidate ∈ a.sqrt.2, candidate.toNat * candidate.toNat < 2 ^ bits (n + 1) := by
  have hzero : (ofWord (n + 1) 0).toNat =
      Nat.sqrt (a.toNat / 2 ^ (2 * ((bits (n + 1) - a.clz) / 2 + 1))) := by
    rw [shift_eq_zero, toNat_ofWord_zero, sqrt_zero]
  have hloop := sqrtLoop_spec a _ hzero
  rw [← eq_sqrt, sqrt]
  split
  · next hone =>
    have hvalue := NoWider.eq_iff.mp hone
    rw [NoWider.toNat_ofValue] at hvalue
    refine ⟨?_, fun _ hmem => nomatch hmem⟩
    rw [hvalue, toNat_ofWord_one]
    exact sqrt_one.symm
  · exact hloop

end

end UFixedBigInt

end Literate.AK
