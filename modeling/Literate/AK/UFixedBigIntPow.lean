import Literate.AK.UFixedBigIntDivide
import Mathlib.Data.Nat.ModEq
import Mathlib.RingTheory.Int.Basic

/-!
# AK: powers of `UFixedBigInt`

Both loops take the bits of the exponent from the lowest on, where the ladder and the squarings
are to begin with the highest; the ladder also has its two cases exchanged, and `pow_mod` counts
the bytes of the exponent where it is to count the bits.
-/

namespace Literate.AK

open Foundation Option Nat Int

namespace UFixedBigInt

variable {n : Nat}

/-- The loop of `pow`. -/
def powLoop : Nat → UFixedBigInt (n + 1) → UFixedBigInt (n + 1) → Nat → UFixedBigInt (n + 1)
  | 0, x1, _, _ => x1
  | k + 1, x1, x2, expCopy =>
    if expCopy % 2 = 1 then powLoop k (multiply .same x1 x1) (multiply .same x2 x1) (expCopy / 2)
    else powLoop k (multiply .same x1 x2) (multiply .same x2 x2) (expCopy / 2)

/-- `pow`: the index goes down to zero from `sizeof(u64) * 8 - count_leading_zeroes(exp) - 2`. -/
def pow (a : UFixedBigInt (n + 1)) (exp : BitVec 64) : UFixedBigInt (n + 1) :=
  powLoop (63 - exp.clz.toNat) a (multiply .same a a) exp.toNat

/-- A pass of the loop of `pow_mod`. -/
def powModPass (a m res : UFixedBigInt (n + 1)) (expCopy : Nat) : Option (UFixedBigInt (n + 1)) :=
  (mod (multiply .same res res) m).bind fun res =>
    if expCopy % 2 = 1 then mod (multiply .same a res) m else some res

/-- The loop of `pow_mod`. -/
def powModLoop (a m : UFixedBigInt (n + 1)) :
    Nat → UFixedBigInt (n + 1) → Nat → Option (UFixedBigInt (n + 1))
  | 0, res, _ => some res
  | k + 1, res, expCopy =>
    (powModPass a m res expCopy).bind fun res => powModLoop a m k res (expCopy / 2)

/-- How often the loop of `pow_mod` runs: its index goes up to `exp` from
`sizeof(u64) - count_leading_zeroes(exp) - 1u`, a `size_t`. -/
def powModPasses (exp : BitVec 64) : Nat :=
  exp.toNat - (2 ^ 64 + 7 - exp.clz.toNat) % 2 ^ 64

/-- `pow_mod` for a modulus of the same width. -/
def powMod (a : UFixedBigInt (n + 1)) (exp : BitVec 64) (m : UFixedBigInt (n + 1)) :
    Option (UFixedBigInt (n + 1)) :=
  if m.isZero then some (ofWord (n + 1) 0)
  else powModLoop a m (powModPasses exp) (ofWord (n + 1) 1) exp.toNat

/-! ### The exponents that are taken -/

/-- The exponent of the first power after `k` passes of the ladder. -/
def ladder : Nat → Nat → Nat → Nat
  | 0, m, _ => m
  | k + 1, m, exp => ladder k (if exp % 2 = 1 then 2 * m else 2 * m + 1) (exp / 2)

/-- The bits below the highest, in the other order and each inverted. -/
def ladderExponent (exp : BitVec 64) : Nat := ladder (63 - exp.clz.toNat) 1 exp.toNat

/-- The exponent after `k` squarings, with the lowest bits first. -/
def squarings : Nat → Nat → Nat → Nat
  | 0, m, _ => m
  | k + 1, m, exp => squarings k (2 * m + exp % 2) (exp / 2)

/-- When the power with the ladder's exponent is the one wanted: the exponents are the same, or
both powers of an even base are zero, or the powers of an odd base repeat. -/
def LadderAgrees (a : UFixedBigInt (n + 1)) (exp : BitVec 64) : Prop :=
  ladderExponent exp = exp.toNat ∨
    (a.toNat % 2 = 0 ∧ 2 ^ bits (n + 1) ∣ a.toNat ^ min (ladderExponent exp) exp.toNat) ∨
    (a.toNat % 2 = 1 ∧ a.toNat ^ (max (ladderExponent exp) exp.toNat -
      min (ladderExponent exp) exp.toNat) % 2 ^ bits (n + 1) = 1)

/-- When the power that `pow_mod` takes is the one wanted: without a pass it is one. -/
def SquaringsAgree (a m : UFixedBigInt (n + 1)) (exp : BitVec 64) : Prop :=
  if exp.toNat < 2 ^ 56 then a.toNat ^ exp.toNat % m.toNat = 1
  else a.toNat ^ squarings (powModPasses exp) 0 exp.toNat ≡ a.toNat ^ exp.toNat [MOD m.toNat]

/-! ### Powers of two exponents -/

section Exponents

variable {b e d N : Nat}

theorem pow_modEq_even (hb : b % 2 = 0) (hd : 0 < d) :
    b ^ (e + d) ≡ b ^ e [MOD 2 ^ N] ↔ 2 ^ N ∣ b ^ e := by
  have hodd : Odd (1 - (b : Int) ^ d) := by
    have heven : Even ((b : Int) ^ d) :=
      (even_coe_nat b |>.mpr (Nat.even_iff.mpr hb)).pow_of_ne_zero (by omega)
    exact odd_one.sub_even heven
  have hcoprime : IsCoprime ((2 : Int) ^ N) (1 - (b : Int) ^ d) :=
    (isCoprime_two_left.mpr hodd).pow_left
  rw [Nat.modEq_iff_dvd, ← natCast_dvd_natCast]
  push_cast
  have hfactor : (b : Int) ^ e - (b : Int) ^ (e + d) = (b : Int) ^ e * (1 - (b : Int) ^ d) := by
    ring
  rw [hfactor]
  exact ⟨fun h => hcoprime.dvd_of_dvd_mul_right h, fun h => h.mul_right _⟩

theorem pow_modEq_odd (hb : b % 2 = 1) :
    b ^ (e + d) ≡ b ^ e [MOD 2 ^ N] ↔ b ^ d ≡ 1 [MOD 2 ^ N] := by
  have hcoprime : (2 ^ N).gcd (b ^ e) = 1 :=
    (coprime_two_left.mpr (Nat.odd_iff.mpr hb)).pow N e
  constructor
  · intro h
    rw [Nat.pow_add] at h
    exact Nat.ModEq.cancel_left_of_coprime hcoprime (by rwa [Nat.mul_one])
  · intro h
    have hmul := h.mul_left (b ^ e)
    rwa [← Nat.pow_add, Nat.mul_one] at hmul

/-- The powers of two exponents of which one is the larger by `d`. -/
theorem pow_modEq_iff (hN : 0 < N) (e d : Nat) : b ^ (e + d) ≡ b ^ e [MOD 2 ^ N] ↔
      d = 0 ∨ (b % 2 = 0 ∧ 2 ^ N ∣ b ^ e) ∨ (b % 2 = 1 ∧ b ^ d % 2 ^ N = 1) := by
  have hone : 1 % 2 ^ N = 1 := mod_eq_of_lt (Nat.one_lt_two_pow (by omega))
  rcases Nat.eq_zero_or_pos d with rfl | hd
  · exact iff_of_true rfl (.inl rfl)
  rcases mod_two_eq_zero_or_one b with hb | hb
  · rw [pow_modEq_even hb hd, hb]
    constructor
    · exact fun h => .inr (.inl ⟨rfl, h⟩)
    · rintro (h | ⟨-, h⟩ | ⟨h, -⟩)
      · omega
      · exact h
      · cases h
  · rw [pow_modEq_odd hb, hb, Nat.ModEq, hone]
    constructor
    · exact fun h => .inr (.inr ⟨rfl, h⟩)
    · rintro (h | ⟨h, -⟩ | ⟨-, h⟩)
      · omega
      · cases h
      · exact h

end Exponents

/-! ### What the loops compute -/

/-- The ladder keeps two powers whose exponents are neighbours. -/
theorem toNat_powLoop (b k m exp : Nat) {x1 x2 : UFixedBigInt (n + 1)}
    (hx1 : x1.toNat = b ^ m % base (n + 1)) (hx2 : x2.toNat = b ^ (m + 1) % base (n + 1)) :
    (powLoop k x1 x2 exp).toNat = b ^ ladder k m exp % base (n + 1) := by
  induction k generalizing m exp x1 x2 with
  | zero => exact hx1
  | succ k ih =>
    have hproduct : ∀ {x y : UFixedBigInt (n + 1)} {i j : Nat},
        x.toNat = b ^ i % base (n + 1) → y.toNat = b ^ j % base (n + 1) →
          (multiply .same x y).toNat = b ^ (i + j) % base (n + 1) := by
      intro x y i j hx hy
      rw [toNat_multiply, NoWider.toNat, hx, hy, ← mul_mod, ← Nat.pow_add]
    rw [powLoop, ladder]
    split
    · refine ih (2 * m) (exp / 2) ?_ ?_
      · rw [Nat.two_mul]
        exact hproduct hx1 hx1
      · have hsum : 2 * m + 1 = m + 1 + m := by omega
        rw [hsum]
        exact hproduct hx2 hx1
    · refine ih (2 * m + 1) (exp / 2) ?_ ?_
      · have hsum : 2 * m + 1 = m + (m + 1) := by omega
        rw [hsum]
        exact hproduct hx1 hx2
      · have hsum : 2 * m + 1 + 1 = m + 1 + (m + 1) := by omega
        rw [hsum]
        exact hproduct hx2 hx2

theorem toNat_pow (a : UFixedBigInt (n + 1)) (exp : BitVec 64) :
    (pow a exp).toNat = a.toNat ^ ladderExponent exp % 2 ^ bits (n + 1) := by
  refine toNat_powLoop a.toNat _ 1 exp.toNat ?_ ?_
  · rw [Nat.pow_one, mod_eq_of_lt a.toNat_lt]
  · rw [toNat_multiply, NoWider.toNat, Nat.pow_succ, Nat.pow_one]

/-- The ladder gives the power exactly when its exponent gives it. -/
theorem toNat_pow_iff (a : UFixedBigInt (n + 1)) (exp : BitVec 64) :
    (pow a exp).toNat = a.toNat ^ exp.toNat % 2 ^ bits (n + 1) ↔ LadderAgrees a exp := by
  rw [toNat_pow, LadderAgrees]
  rcases Nat.le_total exp.toNat (ladderExponent exp) with hle | hle
  · obtain ⟨d, hd⟩ := Nat.exists_eq_add_of_le hle
    have hiff := pow_modEq_iff (b := a.toNat) (bits_pos (n + 1)) exp.toNat d
    rw [Nat.ModEq, ← hd] at hiff
    rw [hiff, Nat.max_eq_left hle, Nat.min_eq_right hle, hd, Nat.add_sub_cancel_left]
    simp
  · obtain ⟨d, hd⟩ := Nat.exists_eq_add_of_le hle
    have hiff := pow_modEq_iff (b := a.toNat) (bits_pos (n + 1)) (ladderExponent exp) d
    rw [Nat.ModEq, ← hd] at hiff
    rw [eq_comm, hiff, Nat.max_eq_right hle, Nat.min_eq_left hle, hd, Nat.add_sub_cancel_left]
    simp

section Modulus

variable {a m : UFixedBigInt (n + 1)}

theorem powModPass_spec (hpos : 0 < m.toNat) (hsize : m.toNat * m.toNat < base (n + 1))
    (ha : a.toNat < m.toNat) {res : UFixedBigInt (n + 1)} {x : Nat} (hle : res.toNat ≤ m.toNat)
    (hres : res.toNat ≡ a.toNat ^ x [MOD m.toNat]) (exp : Nat) :
    ∃ res', powModPass a m res exp = some res' ∧
      res'.toNat = a.toNat ^ (2 * x + exp % 2) % m.toNat := by
  have hsquare : res.toNat * res.toNat < base (n + 1) :=
    Nat.lt_of_le_of_lt (Nat.mul_le_mul hle hle) hsize
  obtain ⟨squared, hmod, hsquared⟩ := toNat_mod (multiply .same res res) hpos
  rw [toNat_multiply, NoWider.toNat, mod_eq_of_lt hsquare] at hsquared
  have hvalue : squared.toNat = a.toNat ^ (2 * x) % m.toNat := by
    rw [hsquared, Nat.two_mul, Nat.pow_add]
    exact hres.mul hres
  rw [powModPass, hmod, bind_some]
  rcases mod_two_eq_zero_or_one exp with hbit | hbit
  · refine ⟨squared, if_neg (by omega), ?_⟩
    rw [hbit]
    exact hvalue
  · have hlt : squared.toNat < m.toNat := hsquared ▸ mod_lt _ hpos
    have hproduct : a.toNat * squared.toNat < base (n + 1) :=
      Nat.lt_of_le_of_lt (Nat.mul_le_mul (Nat.le_of_lt ha) (Nat.le_of_lt hlt)) hsize
    obtain ⟨res', hmod', hres'⟩ := toNat_mod (multiply .same a squared) hpos
    rw [toNat_multiply, NoWider.toNat, mod_eq_of_lt hproduct] at hres'
    refine ⟨res', by rw [if_pos hbit, hmod'], ?_⟩
    rw [hres', hvalue, hbit, Nat.pow_succ, mul_mod, mod_mod, ← mul_mod, Nat.mul_comm]

/-- The loop of `pow_mod`: what it has at first is left when there is no pass. -/
theorem powModLoop_spec (hpos : 0 < m.toNat) (hsize : m.toNat * m.toNat < base (n + 1))
    (ha : a.toNat < m.toNat) (k exp : Nat) {res : UFixedBigInt (n + 1)} {x : Nat}
    (hle : res.toNat ≤ m.toNat) (hres : res.toNat ≡ a.toNat ^ x [MOD m.toNat]) :
    ∃ res', powModLoop a m k res exp = some res' ∧
      res'.toNat = if k = 0 then res.toNat else a.toNat ^ squarings k x exp % m.toNat := by
  induction k generalizing res x exp with
  | zero => exact ⟨res, rfl, rfl⟩
  | succ k ih =>
    obtain ⟨next, hnext, hvalue⟩ := powModPass_spec hpos hsize ha hle hres exp
    obtain ⟨res', hres', hlast⟩ := ih (exp / 2) (hvalue ▸ Nat.le_of_lt (mod_lt _ hpos))
      (hvalue ▸ Nat.mod_modEq _ _)
    refine ⟨res', by rw [powModLoop, hnext, bind_some, hres'], ?_⟩
    rw [hlast, if_neg (succ_ne_zero k), squarings]
    split
    · next hk => rw [hvalue, hk, squarings]
    · rfl

/-- The loop does not run when the exponent has leading zeroes for a byte. -/
theorem powModPasses_eq_zero_iff (exp : BitVec 64) : powModPasses exp = 0 ↔ exp.toNat < 2 ^ 56 := by
  have hlt := exp.toNat_lt_two_pow_sub_clz
  have hle : exp.clz.toNat ≤ 64 := BitVec.clz_le
  rw [powModPasses]
  rcases Nat.lt_or_ge 7 exp.clz.toNat with hmany | hfew
  · have hsmall : exp.toNat < 2 ^ 56 :=
      Nat.lt_of_lt_of_le hlt (Nat.pow_le_pow_right (by decide) (by omega))
    omega
  · have hne : exp ≠ 0#64 := by
      rintro rfl
      exact absurd hfew (by decide)
    have hge := BitVec.two_pow_sub_clz_le_toNat_of_ne_zero (by decide) hne
    have hlarge : 2 ^ 56 ≤ exp.toNat :=
      Nat.le_trans (Nat.pow_le_pow_right (by decide) (by omega)) hge
    omega

theorem powMod_iff (hpos : 0 < m.toNat) (hsize : m.toNat * m.toNat < base (n + 1))
    (ha : a.toNat < m.toNat) (exp : BitVec 64) :
    (∃ res, powMod a exp m = some res ∧ res.toNat = a.toNat ^ exp.toNat % m.toNat) ↔
      SquaringsAgree a m exp := by
  have hzero : ¬ m.isZero = true := mt (isZero_iff m).mp (by omega)
  have hone : (ofWord (n + 1) 1).toNat = 1 := toNat_ofWord_one (n + 1)
  have hstart : (ofWord (n + 1) 1).toNat ≡ a.toNat ^ 0 [MOD m.toNat] := by rw [hone, Nat.pow_zero]
  obtain ⟨res, hres, hvalue⟩ := powModLoop_spec hpos hsize ha (powModPasses exp) exp.toNat
    (by rw [hone]; exact hpos) hstart
  have hiff : (∃ res, powMod a exp m = some res ∧ res.toNat = a.toNat ^ exp.toNat % m.toNat) ↔
      res.toNat = a.toNat ^ exp.toNat % m.toNat := by
    rw [powMod, if_neg hzero, hres]
    constructor
    · rintro ⟨_, hsome, h⟩
      obtain rfl := some.inj hsome
      exact h
    · exact fun h => ⟨res, rfl, h⟩
  rw [hiff, hvalue, SquaringsAgree, hone]
  by_cases hsmall : exp.toNat < 2 ^ 56
  · rw [if_pos ((powModPasses_eq_zero_iff exp).mpr hsmall), if_pos hsmall, eq_comm]
  · rw [if_neg (mt (powModPasses_eq_zero_iff exp).mp hsmall), if_neg hsmall]
    rfl

end Modulus

/-- The powers are those wanted exactly when the exponents that the loops form agree with the
exponent given. -/
theorem powers_iff (a : UFixedBigInt (n + 1)) (exp : BitVec 64) :
    ((pow a exp).toNat = a.toNat ^ exp.toNat % 2 ^ bits (n + 1) ↔ LadderAgrees a exp) ∧
      ∀ m : UFixedBigInt (n + 1), 0 < m.toNat → m.toNat * m.toNat < 2 ^ bits (n + 1) →
        a.toNat < m.toNat →
          ((∃ res, powMod a exp m = some res ∧ res.toNat = a.toNat ^ exp.toNat % m.toNat) ↔
            SquaringsAgree a m exp) :=
  ⟨toNat_pow_iff a exp, fun _ hpos hsize ha => powMod_iff hpos hsize ha exp⟩

/-- The bits of five below its highest are the other way round and inverted as they were. -/
theorem powers_iff_five : (pow (ofWord 1 3) 5).toNat = (ofWord 1 3).toNat ^ 5 % 2 ^ bits 1 ∧
      ∃ res, powMod (ofWord 1 2) 3 (ofWord 1 7) = some res ∧
        res.toNat = (ofWord 1 2).toNat ^ 3 % (ofWord 1 7).toNat :=
  ⟨(powers_iff (ofWord 1 3) 5).1.mpr (.inl (by decide)),
    ((powers_iff (ofWord 1 2) 3).2 (ofWord 1 7) (by decide) (by decide) (by decide)).mpr
      (by unfold SquaringsAgree; decide)⟩

/-- The square of two is given as its cube, and as one modulo seven. -/
theorem not_powers : ¬ (pow (ofWord 1 2) 2).toNat = (ofWord 1 2).toNat ^ 2 % 2 ^ bits 1 ∧
      ¬ ∃ res, powMod (ofWord 1 2) 2 (ofWord 1 7) = some res ∧
        res.toNat = (ofWord 1 2).toNat ^ 2 % (ofWord 1 7).toNat := by
  have hone : ¬ SquaringsAgree (ofWord 1 2) (ofWord 1 7) 2 := by
    unfold SquaringsAgree
    decide
  refine ⟨by rw [toNat_pow]; decide, fun h => hone ?_⟩
  exact (powMod_iff (by decide) (by decide) (by decide) 2).mp h

end UFixedBigInt

end Literate.AK
