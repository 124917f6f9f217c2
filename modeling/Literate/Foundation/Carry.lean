import Mathlib.Tactic.Ring

/-!
# Foundation: numbers of two places, with carry

A number of two places is `low + B * high` with `low` below the base `B`.  `Adds` and
`Subtracts` say that one place of an addition or subtraction is exact together with the
carry that comes in and the one that goes out; two places that are exact one after the
other are exact as one place of the product of their bases.
-/

namespace Literate.Foundation

open Nat Bool

/-- A sum below the base and a carry make up the exact sum. -/
structure Adds (B a b : Nat) (carry : Bool) (sum : Nat) (carryOut : Bool) : Prop where
  lt : sum < B
  eq : sum + B * carryOut.toNat = a + b + carry.toNat

/-- A difference below the base and a borrow make up the exact difference. -/
structure Subtracts (B a b : Nat) (borrow : Bool) (difference : Nat) (borrowOut : Bool) : Prop where
  lt : difference < B
  eq : difference + b + borrow.toNat = a + B * borrowOut.toNat

variable {B B' a b a' b' sum sum' : Nat} {carry carry' carry'' : Bool}

theorem Adds.sum_eq (h : Adds B a b carry sum carry') : sum = (a + b + carry.toNat) % B := by
  rw [← h.eq, add_mul_mod_self_left, mod_eq_of_lt h.lt]

theorem Adds.carry_iff (h : Adds B a b carry sum carry') :
    carry' = true ↔ B ≤ a + b + carry.toNat := by
  have hlt := h.lt
  have heq := h.eq
  cases carry' with
  | true =>
    rw [toNat_true] at heq
    exact ⟨fun _ => (by omega), fun _ => rfl⟩
  | false =>
    rw [toNat_false] at heq
    exact ⟨fun hfalse => absurd hfalse Bool.false_ne_true, fun hle => (by omega)⟩

theorem Adds.add_zero (h : Adds B a 0 false sum carry') (ha : a < B) :
    sum = a ∧ carry' = false := by
  have heq := h.eq
  cases carry' with
  | true =>
    rw [toNat_true, toNat_false] at heq
    omega
  | false =>
    rw [toNat_false] at heq
    exact ⟨(by omega), rfl⟩

/-- Addition modulo the base carries just when it reaches the base. -/
theorem Adds.of_mod (hpos : 0 < B) (hlt : a + b + carry.toNat < 2 * B)
    (hcarry : carry' = true ↔ B ≤ a + b + carry.toNat) :
    Adds B a b carry ((a + b + carry.toNat) % B) carry' where
  lt := mod_lt _ hpos
  eq := by
    cases carry' with
    | true =>
      have hle := hcarry.mp rfl
      rw [mod_eq_sub_mod hle, mod_eq_of_lt (by omega), toNat_true]
      omega
    | false =>
      have hlt' := Nat.lt_of_not_le (mt hcarry.mpr Bool.false_ne_true)
      rw [mod_eq_of_lt hlt', toNat_false]
      omega

theorem two_places_lt {low high : Nat} (hlow : low < B) (hhigh : high < B') :
    low + B * high < B * B' := by
  have hmul := Nat.mul_le_mul_left B (succ_le_of_lt hhigh)
  rw [Nat.mul_succ] at hmul
  omega

theorem Adds.join (hlow : Adds B a b carry sum carry') (hhigh : Adds B' a' b' carry' sum' carry'') :
    Adds (B * B') (a + B * a') (b + B * b') carry (sum + B * sum') carry'' where
  lt := two_places_lt hlow.lt hhigh.lt
  eq := by
    calc sum + B * sum' + B * B' * carry''.toNat
        = sum + B * (sum' + B' * carry''.toNat) := by ring
      _ = sum + B * carry'.toNat + B * a' + B * b' := by rw [hhigh.eq]; ring
      _ = a + B * a' + (b + B * b') + carry.toNat := by rw [hlow.eq]; ring

/-- An operand of one place: only its carry reaches the other. -/
theorem Adds.join_zero (hlow : Adds B a b carry sum carry')
    (hhigh : Adds B' a' 0 carry' sum' carry'') :
    Adds (B * B') (a + B * a') b carry (sum + B * sum') carry'' :=
  Nat.add_zero b ▸ hlow.join hhigh

theorem Subtracts.difference_eq (h : Subtracts B a b carry sum carry') :
    (sum : Int) = ((a : Int) - b - carry.toNat) % B := by
  have heq : ((a : Int) - b - carry.toNat) = sum - B * carry'.toNat := by
    have heq := congrArg (Nat.cast : Nat → Int) h.eq
    push_cast at heq
    omega
  have hlt := h.lt
  rw [heq, Int.sub_mul_emod_self_left, Int.emod_eq_of_lt (by omega) (by omega)]

theorem Subtracts.borrow_iff (h : Subtracts B a b carry sum carry') :
    carry' = true ↔ (a : Int) - b - carry.toNat < 0 := by
  have hlt := h.lt
  have heq := h.eq
  cases carry' with
  | true =>
    rw [toNat_true] at heq
    exact ⟨fun _ => (by omega), fun _ => rfl⟩
  | false =>
    rw [toNat_false] at heq
    exact ⟨fun hfalse => absurd hfalse Bool.false_ne_true, fun hneg => (by omega)⟩

/-- Subtraction modulo the base borrows just below zero. -/
theorem Subtracts.of_mod (ha : a < B) (hb : b < B) :
    Subtracts B a b false ((B - b + a) % B) (decide (a < b)) where
  lt := mod_lt _ (by omega)
  eq := by
    rcases Nat.lt_or_ge a b with hlt | hge
    · rw [mod_eq_of_lt (by omega), decide_eq_true hlt, toNat_true, toNat_false]
      omega
    · rw [mod_eq_sub_mod (by omega), mod_eq_of_lt (by omega),
        decide_eq_false (Nat.not_lt.mpr hge), toNat_false]
      omega

/-- Subtracting the operand first and then the borrow that came in. -/
theorem Subtracts.thenBorrow {difference difference' : Nat} {borrow' borrow'' : Bool}
    (h : Subtracts B a b false difference borrow')
    (hborrow : Subtracts B difference carry.toNat false difference' borrow'') (hb : b < B) :
    Subtracts B a b carry difference' (decide (a < b + carry.toNat)) where
  lt := hborrow.lt
  eq := by
    have heq := h.eq
    have heq' := hborrow.eq
    have hlt := hborrow.lt
    have hcarry := Bool.toNat_le carry
    rcases Nat.lt_or_ge a (b + carry.toNat) with hless | hge
    · rw [decide_eq_true hless]
      cases borrow' <;> cases borrow'' <;> simp only [toNat_true, toNat_false] at * <;>
        omega
    · rw [decide_eq_false (Nat.not_lt.mpr hge)]
      cases borrow' <;> cases borrow'' <;> simp only [toNat_true, toNat_false] at * <;>
        omega

theorem Subtracts.join (hlow : Subtracts B a b carry sum carry')
    (hhigh : Subtracts B' a' b' carry' sum' carry'') :
    Subtracts (B * B') (a + B * a') (b + B * b') carry (sum + B * sum') carry'' where
  lt := two_places_lt hlow.lt hhigh.lt
  eq := by
    calc sum + B * sum' + (b + B * b') + carry.toNat
        = (sum + b + carry.toNat) + B * (sum' + b') := by ring
      _ = a + B * (sum' + b' + carry'.toNat) := by rw [hlow.eq]; ring
      _ = a + B * a' + B * B' * carry''.toNat := by rw [hhigh.eq]; ring

theorem Subtracts.join_zero (hlow : Subtracts B a b carry sum carry')
    (hhigh : Subtracts B' a' 0 carry' sum' carry'') :
    Subtracts (B * B') (a + B * a') b carry (sum + B * sum') carry'' :=
  Nat.add_zero b ▸ hlow.join hhigh

theorem two_places_lt_iff {low high low' high' : Nat} (hlow : low < B) (hlow' : low' < B) :
    low + B * high < low' + B * high' ↔ high < high' ∨ high = high' ∧ low < low' := by
  constructor
  · intro h
    rcases Nat.lt_trichotomy high high' with hlt | rfl | hgt
    · exact .inl hlt
    · exact .inr ⟨rfl, by omega⟩
    · have hmul := Nat.mul_le_mul_left B (succ_le_of_lt hgt)
      rw [Nat.mul_succ] at hmul
      omega
  · rintro (hlt | ⟨rfl, hlt⟩)
    · have hmul := Nat.mul_le_mul_left B (succ_le_of_lt hlt)
      rw [Nat.mul_succ] at hmul
      omega
    · omega

theorem two_places_inj {low high low' high' : Nat} (hlow : low < B) (hlow' : low' < B) :
    low + B * high = low' + B * high' ↔ high = high' ∧ low = low' := by
  constructor
  · intro h
    have hnot := mt (two_places_lt_iff hlow hlow').mpr (Nat.not_lt.mpr (Nat.le_of_eq h.symm))
    have hnot' := mt (two_places_lt_iff hlow' hlow).mpr (Nat.not_lt.mpr (Nat.le_of_eq h))
    omega
  · rintro ⟨rfl, rfl⟩
    rfl

theorem two_places_lt_low_iff {low high low' : Nat} (hlow : low < B) (hlow' : low' < B) :
    low + B * high < low' ↔ high = 0 ∧ low < low' := by
  have hiff := @two_places_lt_iff B low high low' 0 hlow hlow'
  rw [Nat.mul_zero, Nat.add_zero] at hiff
  rw [hiff]
  omega

theorem two_places_eq_low_iff {low high low' : Nat} (hlow : low < B) (hlow' : low' < B) :
    low + B * high = low' ↔ high = 0 ∧ low = low' := by
  have hiff := @two_places_inj B low high low' 0 hlow hlow'
  rwa [Nat.mul_zero, Nat.add_zero] at hiff

theorem two_places_mul (low high low' high' : Nat) : (low + B * high) * (low' + B * high') =
      low * low' + B * (low * high') + B * (high * low') + B * B * (high * high') := by
  ring

/-- The low place is not affected by a remainder of the high one. -/
theorem two_places_mod {low : Nat} (hlow : low < B) (high : Nat) :
    (low + B * high) % (B * B') = low + B * (high % B') := by
  rw [mod_mul, add_mul_mod_self_left, mod_eq_of_lt hlow,
    add_mul_div_left _ _ (zero_lt_of_lt hlow), div_eq_of_lt hlow, Nat.zero_add]

/-! ## Bits of two places -/

variable {k s low high : Nat}

theorem two_places_or {low' : Nat} (hlow : low < 2 ^ k) (hlow' : low' < 2 ^ k) (high' : Nat) :
    (low + 2 ^ k * high) ||| (low' + 2 ^ k * high') =
      (low ||| low') + 2 ^ k * (high ||| high') := by
  have hor : low ||| low' < 2 ^ k := or_lt_two_pow hlow hlow'
  apply eq_of_testBit_eq
  intro i
  rw [testBit_or, Nat.add_comm low, Nat.add_comm low', Nat.add_comm (low ||| low'),
    testBit_two_pow_mul_add _ hlow, testBit_two_pow_mul_add _ hlow',
    testBit_two_pow_mul_add _ hor]
  split
  · exact (testBit_or _ _ _).symm
  · exact (testBit_or _ _ _).symm

/-- Bits that lie apart are added by `|||`. -/
theorem or_two_pow_mul (hlow : low < 2 ^ s) (high : Nat) :
    low ||| 2 ^ s * high = low + 2 ^ s * high := by
  rw [Nat.or_comm, ← two_pow_add_eq_or_of_lt hlow, Nat.add_comm]

/-- A bit at the lowest place of an even number. -/
theorem or_toNat_of_even {n : Nat} (heven : n % 2 = 0) (bit : Bool) :
    n ||| bit.toNat = n + bit.toNat := by
  have hbit : bit.toNat < 2 ^ 1 := Bool.toNat_lt bit
  have hn : n = 2 ^ 1 * (n / 2) := by omega
  rw [hn, Nat.or_comm, or_two_pow_mul hbit, Nat.add_comm]

/-- A bit below the places that a number has. -/
theorem or_two_pow_of_dvd {n i : Nat} (hdvd : 2 ^ (i + 1) ∣ n) : n ||| 2 ^ i = n + 2 ^ i := by
  obtain ⟨m, rfl⟩ := hdvd
  rw [Nat.or_comm, or_two_pow_mul (Nat.pow_lt_pow_right (by decide) (Nat.lt_succ_self i)),
    Nat.add_comm]

/-- The bits of a product by a power of two that stay below another. -/
theorem mul_two_pow_mod (hs : s ≤ k) (n : Nat) : n * 2 ^ s % 2 ^ k = 2 ^ s * (n % 2 ^ (k - s)) := by
  obtain ⟨t, rfl⟩ := Nat.exists_eq_add_of_le hs
  rw [Nat.add_sub_cancel_left, Nat.pow_add, Nat.mul_comm n, mul_mod_mul_left]

/-- Shifting two places to the right: the lower bits of the high place come down. -/
theorem two_places_shiftRight (hs : s ≤ k) (hlow : low < 2 ^ k) : (low + 2 ^ k * high) / 2 ^ s =
      (low / 2 ^ s ||| high * 2 ^ (k - s) % 2 ^ k) + 2 ^ k * (high / 2 ^ s) := by
  have hpow : 2 ^ k = 2 ^ s * 2 ^ (k - s) := by rw [← Nat.pow_add, Nat.add_sub_cancel' hs]
  have hdiv : low / 2 ^ s < 2 ^ (k - s) := by
    rw [hpow] at hlow
    exact Nat.div_lt_of_lt_mul hlow
  have hback : k - (k - s) = s := by omega
  rw [mul_two_pow_mod (sub_le k s), hback, or_two_pow_mul hdiv, hpow]
  calc (low + 2 ^ s * 2 ^ (k - s) * high) / 2 ^ s
      = low / 2 ^ s + 2 ^ (k - s) * high := by
        rw [Nat.mul_assoc, add_mul_div_left _ _ (Nat.two_pow_pos s)]
    _ = low / 2 ^ s + 2 ^ (k - s) * (high % 2 ^ s + 2 ^ s * (high / 2 ^ s)) := by
        rw [mod_add_div]
    _ = low / 2 ^ s + 2 ^ (k - s) * (high % 2 ^ s) +
          2 ^ s * 2 ^ (k - s) * (high / 2 ^ s) := by
        ring

/-- Shifting two places to the left: the upper bits of the low place go up. -/
theorem two_places_shiftLeft (hs : s ≤ k) (hlow : low < 2 ^ k) :
    (low + 2 ^ k * high) * 2 ^ s % (2 ^ k * 2 ^ k) =
      low * 2 ^ s % 2 ^ k + 2 ^ k * (high * 2 ^ s % 2 ^ k ||| low / 2 ^ (k - s)) := by
  have hpow : 2 ^ k = 2 ^ s * 2 ^ (k - s) := by rw [← Nat.pow_add, Nat.add_sub_cancel' hs]
  have hdiv : low / 2 ^ (k - s) < 2 ^ s := by
    rw [hpow, Nat.mul_comm] at hlow
    exact Nat.div_lt_of_lt_mul hlow
  have hlower : 2 ^ s * (low % 2 ^ (k - s)) < 2 ^ s * 2 ^ (k - s) :=
    Nat.mul_lt_mul_of_pos_left (mod_lt _ (Nat.two_pow_pos _)) (Nat.two_pow_pos s)
  simp only [mul_two_pow_mod hs, Nat.or_comm, or_two_pow_mul hdiv]
  calc (low + 2 ^ k * high) * 2 ^ s % (2 ^ k * 2 ^ k)
      = ((low % 2 ^ (k - s) + 2 ^ (k - s) * (low / 2 ^ (k - s)) + 2 ^ k * high) * 2 ^ s) %
          (2 ^ k * 2 ^ k) := by
        rw [mod_add_div]
    _ = (2 ^ s * (low % 2 ^ (k - s)) +
          2 ^ s * 2 ^ (k - s) * (low / 2 ^ (k - s) + 2 ^ s * high)) %
          (2 ^ s * 2 ^ (k - s) * (2 ^ s * 2 ^ (k - s))) := by
        rw [hpow]
        congr 1
        ring
    _ = 2 ^ s * (low % 2 ^ (k - s)) +
          2 ^ s * 2 ^ (k - s) * (low / 2 ^ (k - s) + 2 ^ s * (high % 2 ^ (k - s))) := by
        rw [two_places_mod hlower, two_places_mod hdiv]
    _ = 2 ^ s * (low % 2 ^ (k - s)) +
          2 ^ k * (low / 2 ^ (k - s) + 2 ^ s * (high % 2 ^ (k - s))) := by
        rw [hpow]

theorem two_places_shiftRight_place (hlow : low < 2 ^ k) (s : Nat) :
    (low + 2 ^ k * high) / 2 ^ (k + s) = high / 2 ^ s := by
  rw [Nat.pow_add, ← Nat.div_div_eq_div_mul, add_mul_div_left _ _ (Nat.two_pow_pos k),
    div_eq_of_lt hlow, Nat.zero_add]

theorem two_places_shiftLeft_place (s : Nat) :
    (low + 2 ^ k * high) * 2 ^ (k + s) % (2 ^ k * 2 ^ k) = 2 ^ k * (low * 2 ^ s % 2 ^ k) := by
  have hsplit : (low + 2 ^ k * high) * 2 ^ (k + s) =
      2 ^ k * (low * 2 ^ s + 2 ^ k * (high * 2 ^ s)) := by
    rw [Nat.pow_add]
    ring
  rw [hsplit, mul_mod_mul_left, add_mul_mod_self_left]

end Literate.Foundation
