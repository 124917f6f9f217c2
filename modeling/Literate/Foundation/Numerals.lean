import Mathlib.Data.Nat.Digits.Defs

/-!
# Foundation: numerals

A numeral is a word over an alphabet some symbols of which are digits.  `accumulate` reads
it from its first digit on and gives up at a symbol that is no digit, or at a value above a
bound; since the value never falls it gives up exactly when the whole is above the bound.
-/

namespace Literate.Foundation

open List Option

variable {α : Type*} (base : Nat) (digitOf : α → Option Nat)

/-- The number that a word of digits stands for, the highest digit first. -/
def numeral (l : List α) : Option Nat :=
  (l.mapM digitOf).map fun digits => Nat.ofDigits base digits.reverse

/-- The value of a word read digit by digit on top of `value`, up to `max`. -/
def accumulate (max : Nat) : List α → Nat → Option Nat
  | [], value => some value
  | c :: l, value =>
    (digitOf c).bind fun digit =>
      if value * base + digit ≤ max then accumulate max l (value * base + digit) else none

variable {base digitOf}

@[simp] theorem numeral_nil : numeral base digitOf [] = some 0 := rfl

variable {c : α} {l : List α} {n : Nat}

theorem numeral_cons_none (h : digitOf c = none) (l : List α) :
    numeral base digitOf (c :: l) = none := by
  rw [numeral, mapM_cons, h]
  rfl

theorem ofDigits_reverse_cons (digit : Nat) (digits : List Nat) :
    Nat.ofDigits base (digit :: digits).reverse =
      digit * base ^ digits.length + Nat.ofDigits base digits.reverse := by
  rw [reverse_cons, Nat.ofDigits_append, length_reverse, Nat.ofDigits_singleton,
    Nat.add_comm, Nat.mul_comm]

theorem length_mapM {digits : List Nat} (h : l.mapM digitOf = some digits) :
    digits.length = l.length := by
  induction l generalizing digits with
  | nil =>
    obtain rfl : [] = digits := some.inj h
    rfl
  | cons c l ih =>
    rw [mapM_cons] at h
    obtain ⟨digit, -, h⟩ := bind_eq_some_iff.mp h
    obtain ⟨rest, hrest, h⟩ := bind_eq_some_iff.mp h
    obtain rfl : digit :: rest = digits := some.inj h
    simp only [length_cons, ih hrest]

theorem numeral_cons_some {digit : Nat} (h : digitOf c = some digit)
    (hl : numeral base digitOf l = some n) :
    numeral base digitOf (c :: l) = some (digit * base ^ l.length + n) := by
  unfold numeral at hl ⊢
  obtain ⟨digits, hdigits, rfl⟩ := map_eq_some_iff.mp hl
  have hlength := length_mapM hdigits
  rw [mapM_cons, h, hdigits]
  exact congrArg some ((ofDigits_reverse_cons digit digits).trans (hlength ▸ rfl))

/-- What `accumulate` gives is the value of the whole, when it is within the bound. -/
theorem accumulate_eq_some_iff (hbase : 0 < base) {max : Nat} {value : Nat} (hvalue : value ≤ max) :
    accumulate base digitOf max l value = some n ↔
      ∃ digits, l.mapM digitOf = some digits ∧
        n = value * base ^ digits.length + Nat.ofDigits base digits.reverse ∧ n ≤ max := by
  induction l generalizing value with
  | nil =>
    rw [accumulate, some.injEq]
    constructor
    · rintro rfl
      exact ⟨[], rfl, by simp, hvalue⟩
    · rintro ⟨digits, hdigits, hn, -⟩
      obtain rfl : [] = digits := some.inj hdigits
      simpa using hn.symm
  | cons c l ih =>
    rw [accumulate, mapM_cons]
    cases hdigit : digitOf c with
    | none => simp
    | some digit =>
      simp only [bind_some, bind_eq_bind]
      have hvalues : ∀ digits : List Nat,
          value * base ^ (digit :: digits).length + Nat.ofDigits base (digit :: digits).reverse =
            (value * base + digit) * base ^ digits.length +
              Nat.ofDigits base digits.reverse := by
        intro digits
        rw [ofDigits_reverse_cons, length_cons, Nat.pow_succ, Nat.add_mul, Nat.mul_assoc,
          Nat.mul_comm base, Nat.add_assoc]
      have hword : ∀ digits' : List Nat,
          ((l.mapM digitOf).bind fun digits => some (digit :: digits)) = some digits' ↔
            ∃ digits, l.mapM digitOf = some digits ∧ digit :: digits = digits' := by
        intro digits'
        rw [bind_eq_some_iff]
        simp
      by_cases hmax : value * base + digit ≤ max
      · rw [if_pos hmax, ih hmax]
        constructor
        · rintro ⟨digits, hdigits, hn, hle⟩
          exact ⟨digit :: digits, (hword _).mpr ⟨digits, hdigits, rfl⟩,
            hn.trans (hvalues digits).symm, hle⟩
        · rintro ⟨digits', hdigits', hn, hle⟩
          obtain ⟨digits, hdigits, rfl⟩ := (hword _).mp hdigits'
          exact ⟨digits, hdigits, hn.trans (hvalues digits), hle⟩
      · rw [if_neg hmax]
        refine iff_of_false (some_ne_none n).symm ?_
        rintro ⟨digits', hdigits', hn, hle⟩
        obtain ⟨digits, -, rfl⟩ := (hword _).mp hdigits'
        rw [hvalues] at hn
        have hgrows : (value * base + digit) * 1 ≤
            (value * base + digit) * base ^ digits.length :=
          Nat.mul_le_mul_left _ (Nat.pow_pos hbase)
        omega

/-- From zero on the value is that of the numeral. -/
theorem accumulate_zero_iff (hbase : 0 < base) {max : Nat} :
    accumulate base digitOf max l 0 = some n ↔ numeral base digitOf l = some n ∧ n ≤ max := by
  rw [accumulate_eq_some_iff hbase (Nat.zero_le max), numeral]
  cases l.mapM digitOf with
  | none => simp
  | some digits => simp [eq_comm]

end Literate.Foundation
