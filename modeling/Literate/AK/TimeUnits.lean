import Literate.AK.TimeConversions

/-!
# AK: times made of a number of units

`sane_mod`, `from_milliseconds` and `from_nanoseconds` of `AK/Time.h` against the conversions
back.  `sane_mod` wants a denominator below a billion, so a time is never made of nanoseconds.
-/

namespace Literate.AK

open Option

namespace Time

/-- `sane_mod`: the dividend that it returns, and the numerator after it. -/
def saneMod (numerator denominator : Int64) : Option (Int64 × Int64) :=
  if 2 ≤ denominator ∧ denominator < 1000000000 then
    let dividend := numerator / denominator
    let numerator := numerator % denominator
    if numerator < 0 then
      (I64.add numerator denominator).bind fun numerator =>
        (I64.sub dividend 1).map fun dividend => (dividend, numerator)
    else some (dividend, numerator)
  else none

/-- The constructor, which converts the nanoseconds to 32 bits. -/
def ofParts (seconds nanoseconds : Int64) : Time :=
  ⟨seconds, UInt32.ofNat (nanoseconds.toInt % 4294967296).toNat⟩

def fromNanoseconds (nanoseconds : Int64) : Option Time :=
  (saneMod nanoseconds 1000000000).map fun result => ofParts result.1 result.2

def fromMilliseconds (milliseconds : Int64) : Option Time :=
  (saneMod milliseconds 1000).bind fun result =>
    (I64.mul result.2 1000000).map fun nanoseconds => ofParts result.1 nanoseconds

/-- `to_nanoseconds`.  An unsigned number is never negative. -/
def toNanoseconds (time : Time) : Option Int64 :=
  if time.mNanoseconds < 1000000000 then
    (time.scaled 1000000000 time.mNanoseconds).bind fun checked =>
      time.saturatedValue
        (if time.mNanoseconds < 0 then checked.sub 1000000000 else checked)
  else none

/-! ## Division -/

/-- The quotient is rounded down, and the remainder is not negative. -/
theorem saneMod_spec (numerator : Int64) {denominator : Int64} (hlow : 2 ≤ denominator.toInt)
    (hhigh : denominator.toInt < 1000000000) :
    ∃ dividend rest, saneMod numerator denominator = some (dividend, rest) ∧
      dividend.toInt = numerator.toInt / denominator.toInt ∧
      rest.toInt = numerator.toInt % denominator.toInt := by
  have htwo : (2 : Int64).toInt = 2 := rfl
  have hbillion : (1000000000 : Int64).toInt = 1000000000 := rfl
  have hguard : 2 ≤ denominator ∧ denominator < 1000000000 := by
    rw [Int64.le_iff_toInt_le, Int64.lt_iff_toInt_lt, htwo, hbillion]
    exact ⟨hlow, hhigh⟩
  have hpos : 0 < denominator.toInt := by omega
  have hne : denominator ≠ -1 := by
    rintro rfl
    have hminus : (-1 : Int64).toInt = -1 := rfl
    omega
  have hdividend := Int64.toInt_div_of_ne_right numerator denominator hne
  have hrest := Int64.toInt_mod numerator denominator
  have hsum := Int.tmod_add_mul_tdiv numerator.toInt denominator.toInt
  have hlt := Int.tmod_lt_of_pos numerator.toInt hpos
  have hgt := Int.lt_tmod_of_pos numerator.toInt hpos
  have hnegative : numerator % denominator < 0 ↔ numerator.toInt.tmod denominator.toInt < 0 := by
    rw [Int64.lt_iff_toInt_lt, hrest, Int64.toInt_zero]
  rw [saneMod, if_pos hguard]
  dsimp only
  split
  · next hneg =>
    have hbelow := hnegative.mp hneg
    have hmin := le_toInt numerator
    have hmax := toInt_lt numerator
    have hquotientMax := toInt_lt (numerator / denominator)
    -- the quotient is halved at least, so there is one below it
    have hquotientMin : -9223372036854775808 < (numerator / denominator).toInt := by
      rw [hdividend]
      by_cases hquotient : numerator.toInt.tdiv denominator.toInt ≤ 0
      · have hhalf := Int.mul_le_mul_of_nonpos_right hlow hquotient
        omega
      · omega
    obtain ⟨rest, hadd, hrestValue⟩ : ∃ rest,
        I64.add (numerator % denominator) denominator = some rest ∧
          rest.toInt = (numerator % denominator).toInt + denominator.toInt :=
      I64.ofInt?_eq_some (by rw [toInt_minValue, hrest]; omega)
        (by rw [toInt_maxValue, hrest]; omega)
    obtain ⟨dividend, hsub, hdividendValue⟩ : ∃ dividend,
        I64.sub (numerator / denominator) 1 = some dividend ∧
          dividend.toInt = (numerator / denominator).toInt - (1 : Int64).toInt :=
      I64.ofInt?_eq_some (by rw [toInt_minValue, Int64.toInt_one]; omega)
        (by rw [toInt_maxValue, Int64.toInt_one]; omega)
    rw [hrest] at hrestValue
    rw [hdividend, Int64.toInt_one] at hdividendValue
    have hunique : rest.toInt + denominator.toInt * dividend.toInt = numerator.toInt := by
      rw [hrestValue, hdividendValue, Int.mul_sub, Int.mul_one]
      omega
    obtain ⟨hquotient, hremainder⟩ :=
      (Int.ediv_emod_unique hpos).mpr ⟨hunique, by omega, by omega⟩
    rw [hadd, bind_some, hsub, map_some]
    exact ⟨dividend, rest, rfl, hquotient.symm, hremainder.symm⟩
  · next hnonneg =>
    have habove := Int.not_lt.mp (mt hnegative.mpr hnonneg)
    obtain ⟨hquotient, hremainder⟩ :=
      (Int.ediv_emod_unique hpos).mpr ⟨hsum, habove, hlt⟩
    exact ⟨_, _, rfl, hdividend.trans hquotient.symm, hrest.trans hremainder.symm⟩

/-- A billion is no denominator. -/
theorem fromNanoseconds_eq (nanoseconds : Int64) : fromNanoseconds nanoseconds = none := by
  have hguard : ¬ ((2 : Int64) ≤ 1000000000 ∧ (1000000000 : Int64) < 1000000000) := by decide
  rw [fromNanoseconds, saneMod, if_neg hguard]
  rfl

/-! ## There and back -/

/-- A time made of a number of milliseconds is normalized and converted back to it. -/
def MillisecondsReturn (n : Int64) : Prop :=
  ∃ time, fromMilliseconds n = some time ∧ time.Normalized ∧ time.toMilliseconds = some n

/-- A time made of a number of nanoseconds is normalized and converted back to it. -/
def NanosecondsReturn (n : Int64) : Prop :=
  ∃ time, fromNanoseconds n = some time ∧ time.Normalized ∧ time.toNanoseconds = some n

theorem fromMilliseconds_spec (n : Int64) :
    ∃ time, fromMilliseconds n = some time ∧ time.mSeconds.toInt = n.toInt / 1000 ∧
      (time.mNanoseconds.toNat : Int) = n.toInt % 1000 * 1000000 := by
  have hthousand : (1000 : Int64).toInt = 1000 := rfl
  have hmillion : (1000000 : Int64).toInt = 1000000 := rfl
  obtain ⟨seconds, milliseconds, hsaneMod, hseconds, hmilliseconds⟩ :=
    @saneMod_spec n 1000 (by decide) (by decide)
  rw [hthousand] at hseconds hmilliseconds
  obtain ⟨nanoseconds, hmul, hnanoseconds⟩ : ∃ nanoseconds,
      I64.mul milliseconds 1000000 = some nanoseconds ∧
        nanoseconds.toInt = milliseconds.toInt * (1000000 : Int64).toInt :=
    I64.ofInt?_eq_some (by rw [toInt_minValue, hmillion]; omega)
      (by rw [toInt_maxValue, hmillion]; omega)
  rw [hmillion] at hnanoseconds
  refine ⟨ofParts seconds nanoseconds, ?_, hseconds, ?_⟩
  · rw [fromMilliseconds, hsaneMod, bind_some, hmul]
    rfl
  · rw [ofParts, UInt32.toNat_ofNat']
    omega

theorem millisecondsReturn (n : Int64) : MillisecondsReturn n := by
  have hlt := toInt_lt n
  have hle := le_toInt n
  obtain ⟨time, htime, hseconds, hnanoseconds⟩ := fromMilliseconds_spec n
  have hnormalized : time.Normalized := by
    rw [Normalized]
    omega
  refine ⟨time, htime, hnormalized, ?_⟩
  -- the time is a whole number of milliseconds
  obtain ⟨value, hvalue, hn⟩ := (returns_toMilliseconds_iff hnormalized).mpr (.inr (.inl (by omega)))
  have hsame : value = n := by
    refine Int64.toInt_inj.mp (hn.trans ?_)
    rw [roundedAway, exact]
    split <;> omega
  rw [hvalue, hsame]

/-- What is promised of a number: it comes back from milliseconds and from nanoseconds. -/
def UnitsReturn (n : Int64) : Prop := MillisecondsReturn n ∧ NanosecondsReturn n

/-- Every number comes back from milliseconds, and none from nanoseconds. -/
theorem not_unitsReturn (n : Int64) : MillisecondsReturn n ∧ ¬ UnitsReturn n := by
  refine ⟨millisecondsReturn n, fun h => ?_⟩
  obtain ⟨time, htime, -, -⟩ := h.2
  rw [fromNanoseconds_eq] at htime
  cases htime

theorem not_unitsReturn_zero : ¬ UnitsReturn 0 ∧ fromNanoseconds 0 = none := by
  have hnone : fromNanoseconds 0 = none := by decide
  refine ⟨fun h => ?_, hnone⟩
  obtain ⟨time, htime, -, -⟩ := h.2
  rw [hnone] at htime
  cases htime

end Time

end Literate.AK
