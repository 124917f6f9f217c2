import Literate.AK.UFixedBigInt

/-!
# AK: addition and subtraction with carry

`addc` and `subc` of `AK/UFixedBigInt.h`, with one equation for each of their overloads.
Subtraction is exact.  Addition is, but for one case: with an operand of a built-in type
the overload of `u128` tests the operand and the carry for an overflow apart, so it misses
the carry when only both together overflow.
-/

namespace Literate.AK

open Foundation Nat Bool

namespace NoWider

/-- A built-in type among those of a level. -/
def ofBuiltin (type : Unsigned) : (n : Nat) → NoWider n
  | 0 => .builtin type
  | n + 1 => .narrower (ofBuiltin type n)

def ofValue (type : Unsigned) (value : BitVec type.bits) : (n : Nat) → (ofBuiltin type n).Value
  | 0 => value
  | n + 1 => ofValue type value n

/-- The type of a level itself. -/
def self : (n : Nat) → NoWider n
  | 0 => .builtin .u64
  | _ + 1 => .same

theorem toNat_ofValue (type : Unsigned) (value : BitVec type.bits) (n : Nat) :
    (ofBuiltin type n).toNat (ofValue type value n) = value.toNat := by
  induction n with
  | zero => rfl
  | succ n ih => exact ih

/-- Is it one of the built-in types? -/
def isBuiltin : {n : Nat} → NoWider n → Bool
  | _, .builtin _ => true
  | _, .same => false
  | _, .narrower type => isBuiltin type

end NoWider

namespace UFixedBigInt

/-- A number as a value of its own type. -/
def toValue : {n : Nat} → UFixedBigInt n → (NoWider.self n).Value
  | _, .u64 value => value
  | _, .mk mLow mHigh => .mk mLow mHigh

theorem toNat_toValue {n : Nat} (a : UFixedBigInt n) : (NoWider.self n).toNat a.toValue = a.toNat := by
  cases a with
  | u64 value => rfl
  | mk mLow mHigh => rfl

/-! ## The operators -/

/-- `Checked<u64>::addition_would_overflow`. -/
def additionWouldOverflow (u v : Nat) : Bool := decide (2 ^ 64 ≤ u + v)

/-- A `bool` in an expression of type `u64`. -/
def ofBool (carry : Bool) : BitVec 64 := BitVec.ofNat 64 carry.toNat

/-- `addc`, of the level after `n`. -/
def addc : (n : Nat) → UFixedBigInt (n + 1) → (type : NoWider (n + 1)) → type.Value →
    (carry : Bool) → UFixedBigInt (n + 1) × Bool
  -- `requires(sizeof(T) >= sizeof(U) && IsSame<T, u64>)`
  | 0, .mk (.u64 mLow) (.u64 mHigh), .narrower (.builtin _), other, carry =>
    let lowCarry := additionWouldOverflow mLow.toNat (BitVec.toNat other) ||
      additionWouldOverflow mLow.toNat carry.toNat
    let highCarry := additionWouldOverflow mHigh.toNat lowCarry.toNat
    let lower := mLow + BitVec.ofNat 64 (BitVec.toNat other) + ofBool carry
    let higher := mHigh + ofBool lowCarry
    (.mk (.u64 lower) (.u64 higher), highCarry)
  -- `requires(IsSame<R, U>&& IsSame<T, u64>)`
  | 0, .mk (.u64 mLow) (.u64 mHigh), .same, .mk (.u64 otherLow) (.u64 otherHigh), carry =>
    let lower := mLow + otherLow
    let higher := mHigh + otherHigh
    let lowCarry := additionWouldOverflow mLow.toNat otherLow.toNat ||
      additionWouldOverflow lower.toNat carry.toNat
    let highCarry := additionWouldOverflow mHigh.toNat otherHigh.toNat ||
      additionWouldOverflow higher.toNat lowCarry.toNat
    (.mk (.u64 (lower + ofBool carry)) (.u64 (higher + ofBool lowCarry)), highCarry)
  -- `requires(my_size() > sizeof(U) && sizeof(T) > sizeof(u64))`
  | n + 1, .mk mLow mHigh, .narrower type, other, carry =>
    let lower := addc n mLow type other carry
    let higher := addc n mHigh (.ofBuiltin .u32 (n + 1)) (NoWider.ofValue .u32 0 (n + 1)) lower.2
    (.mk lower.1 higher.1, higher.2)
  -- `requires(IsSame<R, U> && sizeof(T) > sizeof(u64))`
  | n + 1, .mk mLow mHigh, .same, .mk otherLow otherHigh, carry =>
    let lower := addc n mLow .same otherLow carry
    let higher := addc n mHigh .same otherHigh lower.2
    (.mk lower.1 higher.1, higher.2)

/-- An `operator-` of the type of level `n`, for operands of every type. -/
abbrev Minus (n : Nat) : Type :=
  UFixedBigInt n → (type : NoWider n) → type.Value → UFixedBigInt n

/-- `operator-(bool)`. -/
def minusBool {n : Nat} (minus : Minus n) (a : UFixedBigInt n) (other : Bool) : UFixedBigInt n :=
  minus a (.ofBuiltin .u8 n) (NoWider.ofValue .u8 (BitVec.ofNat 8 other.toNat) n)

/-- `subc`, by the `operator-` of `T`. -/
def subcWith {n : Nat} (minus : Minus n) : UFixedBigInt (n + 1) → (type : NoWider (n + 1)) →
    type.Value → (carry : Bool) → UFixedBigInt (n + 1) × Bool
  -- `requires(sizeof(T) >= sizeof(U))`
  | .mk mLow mHigh, .narrower type, other, carry =>
    let lowCarry := (mLow.isZero && carry) || NoWider.lt (minusBool minus mLow carry) type other
    let highCarry := mHigh.isZero && lowCarry
    let lower := minusBool minus (minus mLow type other) carry
    let higher := minusBool minus mHigh lowCarry
    (.mk lower higher, highCarry)
  -- the operand is of type `R`
  | .mk mLow mHigh, .same, .mk otherLow otherHigh, carry =>
    let lowCarry := (mLow.isZero && carry) || lt (minusBool minus mLow carry) otherLow
    let highCarry :=
      (mHigh.isZero && lowCarry) || lt (minusBool minus mHigh lowCarry) otherHigh
    let lower := minusBool minus (minus mLow (.self n) otherLow.toValue) carry
    let higher := minusBool minus (minus mHigh (.self n) otherHigh.toValue) lowCarry
    (.mk lower higher, highCarry)

/-- `operator-`; that of `u64` is built in. -/
def minus : (n : Nat) → Minus n
  | 0, .u64 value, .builtin _, other => .u64 (value - BitVec.ofNat 64 (BitVec.toNat other))
  | n + 1, a, type, other => (subcWith (minus n) a type other false).1

def subc (n : Nat) : UFixedBigInt (n + 1) → (type : NoWider (n + 1)) → type.Value →
    (carry : Bool) → UFixedBigInt (n + 1) × Bool :=
  subcWith (minus n)

/-! ## Subtraction -/

section

variable {n : Nat}

/-- An `operator-` is exact when it borrows just below zero. -/
def Exact (minus : Minus n) : Prop :=
  ∀ (a : UFixedBigInt n) (type : NoWider n) (other : type.Value),
    Subtracts (base n) a.toNat (type.toNat other) false (minus a type other).toNat
      (decide (a.toNat < type.toNat other))

variable {minus : Minus n}

section

variable (h : Exact minus)

include h

theorem Exact.minusBool (a : UFixedBigInt n) (other : Bool) :
    Subtracts (base n) a.toNat other.toNat false (minusBool minus a other).toNat
      (decide (a.toNat < other.toNat)) := by
  have hminus := h a (.ofBuiltin .u8 n) (NoWider.ofValue .u8 (BitVec.ofNat 8 other.toNat) n)
  have hother : (BitVec.ofNat 8 other.toNat).toNat = other.toNat := by cases other <;> rfl
  rw [(NoWider.toNat_ofValue .u8 _ n).trans hother] at hminus
  exact hminus

theorem Exact.toNat_minusBool {a : UFixedBigInt n} {carry : Bool} (hle : carry.toNat ≤ a.toNat) :
    (UFixedBigInt.minusBool minus a carry).toNat = a.toNat - carry.toNat := by
  have heq := (h.minusBool a carry).eq
  rw [decide_eq_false (Nat.not_lt.mpr hle), toNat_false] at heq
  omega

/-- The test of a place for a borrow, by the `operator<` of the operand's type. -/
theorem Exact.borrow_eq {a : UFixedBigInt n} {carry : Bool} {other : Nat}
    {less : Bool} (hless : less = true ↔ (UFixedBigInt.minusBool minus a carry).toNat < other) :
    ((a.isZero && carry) || less) = decide (a.toNat < other + carry.toNat) := by
  rw [Bool.eq_iff_iff, or_eq_true, and_eq_true, isZero_iff, decide_eq_true_eq, hless]
  rcases Nat.lt_or_ge a.toNat carry.toNat with hlt | hle
  · cases carry with
    | false => exact absurd hlt (Nat.not_lt_zero _)
    | true =>
      rw [toNat_true] at hlt ⊢
      exact ⟨fun _ => (by omega), fun _ => .inl ⟨(by omega), rfl⟩⟩
  · rw [h.toNat_minusBool hle]
    cases carry with
    | false =>
      rw [toNat_false]
      exact ⟨fun hor => hor.elim (fun hand => absurd hand.2 Bool.false_ne_true) id, .inr⟩
    | true =>
      rw [toNat_true] at hle ⊢
      omega

theorem Exact.place (a : UFixedBigInt n) (type : NoWider n)
    (other : type.Value) (carry : Bool) {less : Bool}
    (hless : less = true ↔ (UFixedBigInt.minusBool minus a carry).toNat < type.toNat other) :
    Subtracts (base n) a.toNat (type.toNat other) carry
      (UFixedBigInt.minusBool minus (minus a type other) carry).toNat
      ((a.isZero && carry) || less) := by
  rw [h.borrow_eq hless]
  exact (h a type other).thenBorrow (h.minusBool _ carry) (type.toNat_lt other)

theorem Exact.place_zero (a : UFixedBigInt n) (carry : Bool) :
    Subtracts (base n) a.toNat 0 carry (UFixedBigInt.minusBool minus a carry).toNat
      (a.isZero && carry) := by
  have hless : false = true ↔ (UFixedBigInt.minusBool minus a carry).toNat < 0 :=
    ⟨fun hfalse => absurd hfalse Bool.false_ne_true, fun hlt => absurd hlt (Nat.not_lt_zero _)⟩
  have hborrow := h.borrow_eq hless
  have hminus := h.minusBool a carry
  rw [Bool.or_false, Nat.zero_add] at hborrow
  rw [hborrow]
  exact ⟨hminus.lt, hminus.eq⟩

theorem Exact.subcWith (a : UFixedBigInt (n + 1))
    (type : NoWider (n + 1)) (other : type.Value) (carry : Bool) :
    Subtracts (base (n + 1)) a.toNat (type.toNat other) carry
      (UFixedBigInt.subcWith minus a type other carry).1.toNat
      (UFixedBigInt.subcWith minus a type other carry).2 := by
  rw [base_succ]
  cases a with
  | mk mLow mHigh =>
    cases type with
    | narrower type =>
      have hlow := h.place mLow type other carry NoWider.lt_iff
      exact hlow.join_zero (h.place_zero mHigh _)
    | same =>
      cases other with
      | mk otherLow otherHigh =>
        have hless : ∀ {a b : UFixedBigInt n}, lt a b = true ↔
            a.toNat < (NoWider.self n).toNat b.toValue := by
          intro a b
          rw [toNat_toValue]
          exact lt_iff
        have hlow := h.place mLow _ otherLow.toValue carry hless
        have hjoin := hlow.join (h.place mHigh _ otherHigh.toValue _ hless)
        simp only [toNat_toValue] at hjoin
        exact hjoin

end

end

theorem exact_minus (n : Nat) : Exact (minus n) := by
  induction n with
  | zero =>
    intro a type other
    cases a with
    | u64 value =>
      cases type with
      | builtin type =>
        have hother := NoWider.toNat_lt (.builtin type) other
        have hvalue : (BitVec.ofNat 64 (BitVec.toNat other)).toNat = BitVec.toNat other :=
          mod_eq_of_lt hother
        have hminus : (value - BitVec.ofNat 64 (BitVec.toNat other)).toNat =
            (base 0 - BitVec.toNat other + value.toNat) % base 0 := by
          rw [BitVec.toNat_sub, hvalue]
          rfl
        rw [minus, toNat, toNat, hminus]
        exact Subtracts.of_mod value.isLt hother
  | succ n ih =>
    intro a type other
    have h := ih.subcWith a type other false
    refine ⟨h.lt, ?_⟩
    have hborrow := h.borrow_iff
    have heq : decide (a.toNat < type.toNat other) =
        (subcWith (minus n) a type other false).2 := by
      rw [Bool.eq_iff_iff, hborrow, decide_eq_true_eq, toNat_false]
      omega
    rw [heq]
    exact h.eq

theorem subtracts_subc {n : Nat} (a : UFixedBigInt (n + 1)) (type : NoWider (n + 1)) (other : type.Value)
    (carry : Bool) :
    Subtracts (base (n + 1)) a.toNat (type.toNat other) carry (subc n a type other carry).1.toNat
      (subc n a type other carry).2 :=
  (exact_minus n).subcWith a type other carry

/-! ## Addition -/

theorem toNat_ofBool (carry : Bool) : (ofBool carry).toNat = carry.toNat := by
  cases carry <;> rfl

theorem adds_ofBool (a : BitVec 64) (carry : Bool) :
    Adds (base 0) a.toNat 0 carry (a + ofBool carry).toNat
      (additionWouldOverflow a.toNat carry.toNat) := by
  have hlt := a.isLt
  have hcarry := Bool.toNat_le carry
  have hsum : (a + ofBool carry).toNat = (a.toNat + 0 + carry.toNat) % base 0 := by
    rw [BitVec.toNat_add, toNat_ofBool, Nat.add_zero]
    rfl
  rw [hsum]
  apply Adds.of_mod (base_pos 0)
  · unfold base bits
    omega
  · exact decide_eq_true_iff

/-- One place of an addition to an operand of the same type: the sum and the carry are added
one after the other, and at most one of them overflows. -/
theorem adds_same (a other : BitVec 64) (carry : Bool) :
    Adds (base 0) a.toNat other.toNat carry (a + other + ofBool carry).toNat
      (additionWouldOverflow a.toNat other.toNat ||
        additionWouldOverflow (a + other).toNat carry.toNat) := by
  have ha := a.isLt
  have hother := other.isLt
  have hcarry := Bool.toNat_le carry
  have hsum : (a + other + ofBool carry).toNat =
      (a.toNat + other.toNat + carry.toNat) % base 0 := by
    simp only [BitVec.toNat_add, toNat_ofBool, mod_add_mod]
    rfl
  rw [hsum]
  apply Adds.of_mod (base_pos 0)
  · unfold base bits
    omega
  · simp only [or_eq_true, additionWouldOverflow, decide_eq_true_eq, BitVec.toNat_add]
    unfold base bits
    omega

/-- The carry is lost when the operand of a built-in type and the carry overflow the lowest
word only together. -/
structure LosesCarry {n : Nat} (a : UFixedBigInt n) (type : NoWider n) (other : type.Value)
    (carry : Bool) : Prop where
  carry : carry = true
  builtin : type.isBuiltin = true
  ne_zero : type.toNat other ≠ 0
  sum : a.toNat % 2 ^ 64 + type.toNat other + 1 = 2 ^ 64

/-- One place of an addition to an operand of a built-in type: the test misses only a carry
that makes the sum the base. -/
theorem adds_builtin (a : BitVec 64) {other : Nat} (hother : other < 2 ^ 64) (carry : Bool)
    (hkept : ¬ (carry = true ∧ other ≠ 0 ∧ a.toNat + other + 1 = 2 ^ 64)) :
    Adds (base 0) a.toNat other carry (a + BitVec.ofNat 64 other + ofBool carry).toNat
      (additionWouldOverflow a.toNat other || additionWouldOverflow a.toNat carry.toNat) := by
  have ha := a.isLt
  have hsum : (a + BitVec.ofNat 64 other + ofBool carry).toNat =
      (a.toNat + other + carry.toNat) % base 0 := by
    simp only [BitVec.toNat_add, toNat_ofBool, mod_add_mod, BitVec.toNat_ofNat,
      mod_eq_of_lt hother]
    rfl
  rw [hsum]
  have hcarry := Bool.toNat_le carry
  apply Adds.of_mod (base_pos 0)
  · unfold base bits
    omega
  · simp only [or_eq_true, additionWouldOverflow, decide_eq_true_eq]
    unfold base bits
    cases carry with
    | false =>
      rw [toNat_false]
      omega
    | true =>
      have hkept' : ¬ (other ≠ 0 ∧ a.toNat + other + 1 = 2 ^ 64) := fun h => hkept ⟨rfl, h⟩
      rw [toNat_true]
      omega

variable {n : Nat}

theorem lowest_mk (mLow mHigh : UFixedBigInt n) :
    (UFixedBigInt.mk mLow mHigh).toNat % 2 ^ 64 = mLow.toNat % 2 ^ 64 := by
  obtain ⟨k, hk⟩ := dvd_base n
  rw [toNat, hk, Nat.mul_assoc, add_mul_mod_self_left]

theorem losesCarry_narrower {mLow mHigh : UFixedBigInt n} {type : NoWider n}
    {other : type.Value} {carry : Bool} : LosesCarry (.mk mLow mHigh) (.narrower type) other carry ↔
      LosesCarry mLow type other carry := by
  constructor
  · intro h
    have hsum := h.sum
    rw [lowest_mk] at hsum
    exact ⟨h.carry, h.builtin, h.ne_zero, hsum⟩
  · intro h
    have hsum := h.sum
    rw [← lowest_mk mLow mHigh] at hsum
    exact ⟨h.carry, h.builtin, h.ne_zero, hsum⟩

theorem losesCarry_word {mLow : BitVec 64} {mHigh : UFixedBigInt 0} {type : Unsigned}
    {other : BitVec type.bits} {carry : Bool}
    (h : carry = true ∧ other.toNat ≠ 0 ∧ mLow.toNat + other.toNat + 1 = 2 ^ 64) :
    LosesCarry (.mk (.u64 mLow) mHigh) (.narrower (.builtin type)) other carry := by
  refine losesCarry_narrower.mpr ⟨h.1, rfl, h.2.1, ?_⟩
  rw [toNat, mod_eq_of_lt mLow.isLt]
  exact h.2.2

theorem toNat_zero_ofValue (n : Nat) :
    (NoWider.ofBuiltin .u32 n).toNat (NoWider.ofValue .u32 0 n) = 0 :=
  NoWider.toNat_ofValue .u32 0 n

theorem not_losesCarry_zero (a : UFixedBigInt n) (carry : Bool) :
    ¬ LosesCarry a (.ofBuiltin .u32 n) (NoWider.ofValue .u32 0 n) carry :=
  fun h => h.ne_zero (toNat_zero_ofValue n)

theorem not_losesCarry_same (a other : UFixedBigInt (n + 1)) (carry : Bool) :
    ¬ LosesCarry a .same other carry :=
  fun h => absurd h.builtin Bool.false_ne_true

/-- `addc` is exact when it does not lose the carry. -/
theorem adds_addc : ∀ {n : Nat} (a : UFixedBigInt (n + 1)) (type : NoWider (n + 1))
    (other : type.Value) (carry : Bool), ¬ LosesCarry a type other carry →
    Adds (base (n + 1)) a.toNat (type.toNat other) carry (addc n a type other carry).1.toNat
      (addc n a type other carry).2 := by
  intro n
  induction n with
  | zero =>
    intro a type other carry hkept
    rw [base_succ]
    cases a with
    | mk mLow mHigh =>
      cases mLow with
      | u64 mLow =>
        cases mHigh with
        | u64 mHigh =>
          cases type with
          | narrower type =>
            cases type with
            | builtin type =>
              have hother := NoWider.toNat_lt (.builtin type) other
              have hlow := adds_builtin mLow hother carry fun h =>
                hkept (losesCarry_word h)
              exact hlow.join_zero (adds_ofBool mHigh _)
          | same =>
            cases other with
            | mk otherLow otherHigh =>
              cases otherLow with
              | u64 otherLow =>
                cases otherHigh with
                | u64 otherHigh =>
                  exact (adds_same mLow otherLow carry).join
                    (adds_same mHigh otherHigh _)
  | succ n ih =>
    intro a type other carry hkept
    rw [base_succ]
    cases a with
    | mk mLow mHigh =>
      cases type with
      | narrower type =>
        have hlow := ih mLow type other carry (mt losesCarry_narrower.mpr hkept)
        have hhigh := ih mHigh _ _ (addc n mLow type other carry).2
          (not_losesCarry_zero mHigh _)
        rw [toNat_zero_ofValue] at hhigh
        exact hlow.join_zero hhigh
      | same =>
        cases other with
        | mk otherLow otherHigh =>
          exact (ih mLow .same otherLow carry (not_losesCarry_same _ _ _)).join
            (ih mHigh .same otherHigh _ (not_losesCarry_same _ _ _))

theorem addc_of_losesCarry_word {mLow mHigh : BitVec 64} {type : Unsigned}
    {other : BitVec type.bits} {carry : Bool}
    (h : LosesCarry (.mk (.u64 mLow) (.u64 mHigh)) (.narrower (.builtin type)) other carry) :
    (addc 0 (.mk (.u64 mLow) (.u64 mHigh)) (.narrower (.builtin type)) other carry).1.toNat +
        2 ^ 64 =
      toNat (.mk (.u64 mLow) (.u64 mHigh)) + other.toNat + carry.toNat ∧
    (addc 0 (.mk (.u64 mLow) (.u64 mHigh)) (.narrower (.builtin type)) other carry).2 = false := by
  have hword := losesCarry_narrower.mp h
  have hsum := hword.sum
  have hne := hword.ne_zero
  have hother : other.toNat < 2 ^ 64 := NoWider.toNat_lt (.builtin type) other
  have hcarry := h.carry
  rw [toNat, mod_eq_of_lt mLow.isLt] at hsum
  rw [NoWider.toNat] at hsum hne
  subst hcarry
  have hlow : (additionWouldOverflow mLow.toNat other.toNat ||
      additionWouldOverflow mLow.toNat true.toNat) = false := by
    simp only [or_eq_false_iff, additionWouldOverflow, decide_eq_false_iff_not,
      toNat_true]
    omega
  have hlower : (mLow + BitVec.ofNat 64 other.toNat + ofBool true).toNat = 0 := by
    simp only [BitVec.toNat_add, toNat_ofBool, mod_add_mod, BitVec.toNat_ofNat,
      mod_eq_of_lt hother, toNat_true, hsum, mod_self]
  obtain ⟨hhigher, hout⟩ := (adds_ofBool mHigh false).add_zero mHigh.isLt
  rw [addc]
  rw [hlow, hout, toNat, toNat, toNat, hlower, hhigher, toNat, toNat, toNat, toNat_true]
  exact ⟨by omega, rfl⟩

/-- When the carry is lost, the result is 2^64 less than the sum, and no carry goes out. -/
theorem addc_of_losesCarry : ∀ {n : Nat} (a : UFixedBigInt (n + 1)) (type : NoWider (n + 1))
    (other : type.Value) (carry : Bool), LosesCarry a type other carry →
    (addc n a type other carry).1.toNat + 2 ^ 64 = a.toNat + type.toNat other + carry.toNat ∧
      (addc n a type other carry).2 = false := by
  intro n
  induction n with
  | zero =>
    intro a type other carry hlost
    cases a with
    | mk mLow mHigh =>
      cases type with
      | narrower type =>
        cases mLow with
        | u64 mLow =>
          cases mHigh with
          | u64 mHigh =>
            cases type with
            | builtin type => exact addc_of_losesCarry_word hlost
      | same => exact absurd hlost (not_losesCarry_same _ _ _)
  | succ n ih =>
    intro a type other carry hlost
    cases a with
    | mk mLow mHigh =>
      cases type with
      | narrower type =>
        obtain ⟨hsum, hcarry⟩ := ih mLow type other carry (losesCarry_narrower.mp hlost)
        have hhigh := adds_addc mHigh _ _ (addc n mLow type other carry).2
          (not_losesCarry_zero mHigh _)
        rw [hcarry, toNat_zero_ofValue] at hhigh
        obtain ⟨hvalue, hout⟩ := hhigh.add_zero mHigh.toNat_lt
        rw [addc, NoWider.toNat]
        rw [hcarry, hout, toNat, toNat, hvalue]
        exact ⟨by omega, rfl⟩
      | same => exact absurd hlost (not_losesCarry_same _ _ _)

/-- What is asked of `addc` and `subc`: the result modulo the number of values of the type,
and a carry out of it exactly when the sum is not below that number, or the difference is
negative. -/
structure ExactCarry (a : UFixedBigInt (n + 1)) (type : NoWider (n + 1)) (other : type.Value)
    (carry : Bool) : Prop where
  sum : (addc n a type other carry).1.toNat =
    (a.toNat + type.toNat other + carry.toNat) % 2 ^ bits (n + 1)
  sumCarry : (addc n a type other carry).2 = true ↔
    2 ^ bits (n + 1) ≤ a.toNat + type.toNat other + carry.toNat
  difference : ((subc n a type other carry).1.toNat : Int) =
    ((a.toNat : Int) - type.toNat other - carry.toNat) % (2 ^ bits (n + 1) : Nat)
  differenceCarry : (subc n a type other carry).2 = true ↔
    (a.toNat : Int) - type.toNat other - carry.toNat < 0

/-- `addc` and `subc` are exact unless `addc` loses the carry. -/
theorem exactCarry_iff (a : UFixedBigInt (n + 1)) (type : NoWider (n + 1)) (other : type.Value)
    (carry : Bool) : ExactCarry a type other carry ↔ ¬ LosesCarry a type other carry := by
  have hsub := subtracts_subc a type other carry
  constructor
  · intro h hlost
    obtain ⟨hsum, hcarry⟩ := addc_of_losesCarry a type other carry hlost
    have hnot := mt h.sumCarry.mpr (by rw [hcarry]; exact Bool.false_ne_true)
    have hmod := h.sum
    rw [mod_eq_of_lt (Nat.lt_of_not_le hnot)] at hmod
    omega
  · intro hkept
    have hadd := adds_addc a type other carry hkept
    exact ⟨hadd.sum_eq, hadd.carry_iff, hsub.difference_eq, hsub.borrow_iff⟩

/-- 2^64 - 2 and the `u8` 1 and a carry make 2^64, but the `u128` comes out as 0. -/
theorem not_exactCarry_sample :
    addc 0 (.mk (.u64 0xfffffffffffffffe) (.u64 0)) (.narrower (.builtin .u8)) (1 : BitVec 8) true =
        (.mk (.u64 0) (.u64 0), false) ∧
      ¬ ExactCarry (.mk (.u64 0xfffffffffffffffe) (.u64 0)) (.narrower (.builtin .u8))
        (1 : BitVec 8) true := by
  have hvalue : addc 0 (.mk (.u64 0xfffffffffffffffe) (.u64 0)) (.narrower (.builtin .u8))
      (1 : BitVec 8) true = (.mk (.u64 0) (.u64 0), false) := by
    decide
  refine ⟨hvalue, fun h => ?_⟩
  have hsum := h.sum
  rw [hvalue] at hsum
  revert hsum
  decide

end UFixedBigInt

end Literate.AK
