import Literate.AK.Time

/-!
# AK: conversions of times

The conversions of a `Time` to seconds, milliseconds and microseconds of `AK/Time.cpp`.

Where a `Checked` that is no constant is copied, the constructor that takes it by reference is
preferred, and that one moves out of it.  So `operator++(int)` counts from 0.
-/

namespace Literate.AK

open Option

namespace I64

def sub (a b : Int64) : Option Int64 := ofInt? (a.toInt - b.toInt)

def mul (a b : Int64) : Option Int64 := ofInt? (a.toInt * b.toInt)

end I64

/-! ## Checked numbers -/

namespace Checked

/-- `Checked::sub`, by `__builtin_sub_overflow`. -/
def sub (checked : Checked) (other : Int64) : Checked :=
  { mValue := checked.mValue - other
    mOverflow := checked.mOverflow || (I64.sub checked.mValue other).isNone }

/-- `Checked::mul`, by `__builtin_mul_overflow`. -/
def mul (checked : Checked) (other : Int64) : Checked :=
  { mValue := checked.mValue * other
    mOverflow := checked.mOverflow || (I64.mul checked.mValue other).isNone }

def value (checked : Checked) : Option Int64 :=
  if checked.mOverflow then none else some checked.mValue

/-- `Checked(Checked&)`: the new number, and what is left of the other. -/
def take (other : Checked) : Checked × Checked := (other, { mValue := 0 })

/-- `operator++(int)`: what it returns, and the number after it. -/
def postIncrement (checked : Checked) : Checked × Checked :=
  let (old, this) := checked.take
  (old, this.add 1)

/-- A number that has not overflowed. -/
structure Is (checked : Checked) (n : Int) : Prop where
  overflow : checked.mOverflow = false
  value : checked.mValue.toInt = n

variable {checked : Checked} {n : Int}

theorem postIncrement_eq (checked : Checked) : checked.postIncrement.2 = { mValue := 1 } := rfl

theorem ofInt?_isNone_of_fits {m : Int} (hmin : -9223372036854775808 ≤ m)
    (hmax : m ≤ 9223372036854775807) : (I64.ofInt? m).isNone = false := by
  rw [I64.ofInt?, Time.toInt_minValue, Time.toInt_maxValue, if_pos ⟨hmin, hmax⟩]
  rfl

theorem ofInt?_isNone {m : Int} (h : m < -9223372036854775808 ∨ 9223372036854775807 < m) :
    (I64.ofInt? m).isNone = true := by
  rw [I64.ofInt?, Time.toInt_minValue, Time.toInt_maxValue, if_neg (by omega)]
  rfl

section

variable (h : checked.Is n)

include h

theorem Is.add (other : Int64) (hmin : -9223372036854775808 ≤ n + other.toInt)
    (hmax : n + other.toInt ≤ 9223372036854775807) : (checked.add other).Is (n + other.toInt) := by
  obtain ⟨hoverflow, rfl⟩ := h
  refine ⟨?_, ?_⟩
  · rw [Checked.add, hoverflow, Bool.false_or, I64.add, ofInt?_isNone_of_fits hmin hmax]
  · rw [Checked.add, Int64.toInt_add]
    exact Int.bmod_eq_of_le (by omega) (by omega)

theorem Is.sub (other : Int64) (hmin : -9223372036854775808 ≤ n - other.toInt)
    (hmax : n - other.toInt ≤ 9223372036854775807) : (checked.sub other).Is (n - other.toInt) := by
  obtain ⟨hoverflow, rfl⟩ := h
  refine ⟨?_, ?_⟩
  · rw [Checked.sub, hoverflow, Bool.false_or, I64.sub, ofInt?_isNone_of_fits hmin hmax]
  · rw [Checked.sub, Int64.toInt_sub]
    exact Int.bmod_eq_of_le (by omega) (by omega)

theorem Is.mul (other : Int64) (hmin : -9223372036854775808 ≤ n * other.toInt)
    (hmax : n * other.toInt ≤ 9223372036854775807) : (checked.mul other).Is (n * other.toInt) := by
  obtain ⟨hoverflow, rfl⟩ := h
  refine ⟨?_, ?_⟩
  · rw [Checked.mul, hoverflow, Bool.false_or, I64.mul, ofInt?_isNone_of_fits hmin hmax]
  · rw [Checked.mul, Int64.toInt_mul]
    exact Int.bmod_eq_of_le (by omega) (by omega)

theorem Is.add_overflow (other : Int64)
    (hout : n + other.toInt < -9223372036854775808 ∨ 9223372036854775807 < n + other.toInt) :
    (checked.add other).mOverflow = true := by
  rw [← h.value] at hout
  rw [Checked.add, I64.add, ofInt?_isNone hout, Bool.or_true]

theorem Is.sub_overflow (other : Int64)
    (hout : n - other.toInt < -9223372036854775808 ∨ 9223372036854775807 < n - other.toInt) :
    (checked.sub other).mOverflow = true := by
  rw [← h.value] at hout
  rw [Checked.sub, I64.sub, ofInt?_isNone hout, Bool.or_true]

theorem Is.mul_overflow (other : Int64)
    (hout : n * other.toInt < -9223372036854775808 ∨ 9223372036854775807 < n * other.toInt) :
    (checked.mul other).mOverflow = true := by
  rw [← h.value] at hout
  rw [Checked.mul, I64.mul, ofInt?_isNone hout, Bool.or_true]

end

theorem add_mOverflow (h : checked.mOverflow = true) (other : Int64) :
    (checked.add other).mOverflow = true := by
  rw [Checked.add, h, Bool.true_or]

theorem sub_mOverflow (h : checked.mOverflow = true) (other : Int64) :
    (checked.sub other).mOverflow = true := by
  rw [Checked.sub, h, Bool.true_or]

end Checked

namespace Time

/-! ## The conversions -/

/-- What the conversions have in common: the seconds, one more where they are negative, in a
smaller unit, and the whole units of the nanoseconds. -/
def scaled (perSecond : Int64) (units : UInt32) (time : Time) : Option Checked :=
  (if time.mSeconds < 0 then I64.add time.mSeconds 1 else some time.mSeconds).map fun seconds =>
    (Checked.mul { mValue := seconds } perSecond).add (Int64.ofNat units.toNat)

/-- How they end: the value, or the bound on its side. -/
def saturatedValue (time : Time) (checked : Checked) : Option Int64 :=
  if !checked.mOverflow then checked.value
  else some (if time.mSeconds < 0 then Int64.minValue else Int64.maxValue)

def toTruncatedSeconds (time : Time) : Option Int64 :=
  if time.mNanoseconds < 1000000000 then
    if time.mSeconds < 0 ∧ time.mNanoseconds ≠ 0 then I64.add time.mSeconds 1
    else some time.mSeconds
  else none

/-- `to_truncated_milliseconds` and `to_truncated_microseconds`, with the units in a second
and the nanoseconds in a unit. -/
def toTruncated (perSecond : Int64) (unit : UInt32) (time : Time) : Option Int64 :=
  if time.mNanoseconds < 1000000000 then
    (time.scaled perSecond (time.mNanoseconds / unit)).bind fun checked =>
      time.saturatedValue
        (if time.mSeconds < 0 then
          (if time.mNanoseconds % unit ≠ 0 then checked.postIncrement.2 else checked).sub perSecond
        else checked)
  else none

def toTruncatedMilliseconds (time : Time) : Option Int64 := time.toTruncated 1000 1000000

def toTruncatedMicroseconds (time : Time) : Option Int64 := time.toTruncated 1000000 1000

def toSeconds (time : Time) : Option Int64 :=
  if time.mNanoseconds < 1000000000 then
    if 0 ≤ time.mSeconds ∧ time.mNanoseconds ≠ 0 then
      let seconds := (Checked.mk time.mSeconds false).postIncrement.2
      if seconds.mOverflow then some Int64.maxValue else seconds.value
    else some time.mSeconds
  else none

def toMilliseconds (time : Time) : Option Int64 :=
  if time.mNanoseconds < 1000000000 then
    (time.scaled 1000 (time.mNanoseconds / 1000000)).bind fun checked =>
      let checked :=
        if 0 ≤ time.mSeconds ∧ time.mNanoseconds % 1000000 ≠ 0 then checked.postIncrement.2
        else checked
      time.saturatedValue (if time.mSeconds < 0 then checked.sub 1000 else checked)
  else none

/-! ## Rounding -/

/-- A number of units, truncated toward zero. -/
def truncated (nanoseconds unit : Int) : Int :=
  if 0 ≤ nanoseconds then nanoseconds / unit else -(-nanoseconds / unit)

/-- A number of units, rounded away from zero. -/
def roundedAway (nanoseconds unit : Int) : Int :=
  if 0 ≤ nanoseconds then -(-nanoseconds / unit) else nanoseconds / unit

/-- A conversion returns a number, or the bound of 64 bits on its side. -/
def Returns (result : Option Int64) (n : Int) : Prop :=
  ∃ value, result = some value ∧
    value.toInt = Max.max (-9223372036854775808) (Min.min n 9223372036854775807)

variable {time : Time} {checked : Checked} {n : Int} {perSecond : Int64} {units : UInt32}

theorem seconds_neg_iff (time : Time) : time.mSeconds < 0 ↔ time.mSeconds.toInt < 0 := by
  rw [Int64.lt_iff_toInt_lt, Int64.toInt_zero]

theorem returns_of_is (h : checked.Is n) (time : Time) : Returns (time.saturatedValue checked) n := by
  have hlt := toInt_lt checked.mValue
  have hle := le_toInt checked.mValue
  refine ⟨checked.mValue, ?_, ?_⟩
  · rw [saturatedValue, Checked.value, h.overflow]
    rfl
  · rw [← h.value]
    omega

theorem returns_of_overflow (h : checked.mOverflow = true)
    (hneg : time.mSeconds.toInt < 0 → n < -9223372036854775808)
    (hpos : 0 ≤ time.mSeconds.toInt → 9223372036854775807 < n) :
    Returns (time.saturatedValue checked) n := by
  rw [saturatedValue, h]
  by_cases hseconds : time.mSeconds.toInt < 0
  · have hn := hneg hseconds
    rw [if_pos ((seconds_neg_iff time).mpr hseconds)]
    refine ⟨Int64.minValue, rfl, ?_⟩
    rw [toInt_minValue]
    omega
  · have hn := hpos (Int.not_lt.mp hseconds)
    rw [if_neg (mt (seconds_neg_iff time).mp hseconds)]
    refine ⟨Int64.maxValue, rfl, ?_⟩
    rw [toInt_maxValue]
    omega

theorem toInt_ofNat_units (hunits : units.toNat < 1000000000) :
    (Int64.ofNat units.toNat).toInt = units.toNat :=
  Int64.toInt_ofNat_of_lt (by omega)

/-- What is scaled are the seconds, of which a negative number has one more. -/
theorem scaled_eq (perSecond : Int64) (units : UInt32) (time : Time) :
    ∃ seconds, time.scaled perSecond units =
        some ((Checked.mul { mValue := seconds } perSecond).add (Int64.ofNat units.toNat)) ∧
      seconds.toInt =
        if time.mSeconds.toInt < 0 then time.mSeconds.toInt + 1 else time.mSeconds.toInt := by
  rw [scaled]
  by_cases hneg : time.mSeconds.toInt < 0
  · have hle := le_toInt time.mSeconds
    obtain ⟨seconds, hadd, hvalue⟩ : ∃ seconds, I64.add time.mSeconds 1 = some seconds ∧
        seconds.toInt = time.mSeconds.toInt + 1 :=
      I64.ofInt?_eq_some (by rw [toInt_minValue, Int64.toInt_one]; omega)
        (by rw [toInt_maxValue, Int64.toInt_one]; omega)
    rw [if_pos ((seconds_neg_iff time).mpr hneg), if_pos hneg, hadd]
    exact ⟨seconds, rfl, hvalue⟩
  · rw [if_neg (mt (seconds_neg_iff time).mp hneg), if_neg hneg]
    exact ⟨time.mSeconds, rfl, rfl⟩

/-- Without an increment the whole units are returned: a negative number of seconds loses the
one that it was given. -/
theorem returns_scaled (hpos : 0 < perSecond.toInt) (hsmall : perSecond.toInt ≤ 1000000000)
    (hunits : (units.toNat : Int) < perSecond.toInt) (time : Time) :
    ∃ checked, time.scaled perSecond units = some checked ∧
      Returns (time.saturatedValue
        (if time.mSeconds < 0 then checked.sub perSecond else checked))
        (time.mSeconds.toInt * perSecond.toInt + units.toNat) := by
  have hofNat := @toInt_ofNat_units units (by omega)
  obtain ⟨seconds, hscaled, hvalue⟩ := scaled_eq perSecond units time
  have his : Checked.Is { mValue := seconds } seconds.toInt := ⟨rfl, rfl⟩
  refine ⟨_, hscaled, ?_⟩
  by_cases hneg : time.mSeconds.toInt < 0
  · rw [if_pos hneg] at hvalue
    have hproduct : seconds.toInt * perSecond.toInt =
        time.mSeconds.toInt * perSecond.toInt + perSecond.toInt := by
      rw [hvalue, Int.add_mul, Int.one_mul]
    have hnonpos : seconds.toInt * perSecond.toInt ≤ 0 :=
      Int.mul_nonpos_of_nonpos_of_nonneg (by omega) (Int.le_of_lt hpos)
    rw [if_pos ((seconds_neg_iff time).mpr hneg)]
    by_cases hfits : -9223372036854775808 ≤ seconds.toInt * perSecond.toInt
    · have hsum := (his.mul perSecond hfits (by omega)).add (Int64.ofNat units.toNat)
        (by rw [hofNat]; omega) (by rw [hofNat]; omega)
      rw [hofNat] at hsum
      by_cases hfits' : -9223372036854775808 ≤ time.mSeconds.toInt * perSecond.toInt + units.toNat
      · have hdifference := hsum.sub perSecond (by omega) (by omega)
        have hsame : seconds.toInt * perSecond.toInt + units.toNat - perSecond.toInt =
            time.mSeconds.toInt * perSecond.toInt + units.toNat := by omega
        exact returns_of_is (hsame ▸ hdifference) time
      · exact returns_of_overflow (hsum.sub_overflow perSecond (.inl (by omega)))
          (fun _ => by omega) (fun h => absurd hneg (Int.not_lt.mpr h))
    · have hoverflow := Checked.add_mOverflow (his.mul_overflow perSecond
        (.inl (Int.not_le.mp hfits))) (Int64.ofNat units.toNat)
      exact returns_of_overflow (Checked.sub_mOverflow hoverflow perSecond) (fun _ => by omega)
        (fun h => absurd hneg (Int.not_lt.mpr h))
  · rw [if_neg hneg] at hvalue
    have hnonneg : 0 ≤ seconds.toInt * perSecond.toInt :=
      Int.mul_nonneg (by omega) (Int.le_of_lt hpos)
    rw [if_neg (mt (seconds_neg_iff time).mp hneg), ← hvalue]
    by_cases hfits : seconds.toInt * perSecond.toInt ≤ 9223372036854775807
    · have hproduct := his.mul perSecond (by omega) hfits
      by_cases hfits' : seconds.toInt * perSecond.toInt + units.toNat ≤ 9223372036854775807
      · have hsum := hproduct.add (Int64.ofNat units.toNat) (by rw [hofNat]; omega)
          (by rw [hofNat]; omega)
        rw [hofNat] at hsum
        exact returns_of_is hsum time
      · exact returns_of_overflow
          (hproduct.add_overflow _ (.inr (by rw [hofNat]; exact Int.not_le.mp hfits')))
          (fun h => absurd h hneg) (fun _ => by omega)
    · have hoverflow := his.mul_overflow perSecond (.inr (Int.not_le.mp hfits))
      exact returns_of_overflow (Checked.add_mOverflow hoverflow _) (fun h => absurd h hneg)
        (fun _ => by omega)

theorem returns_some_iff {value : Int64} : Returns (some value) n ↔
    value.toInt = Max.max (-9223372036854775808) (Min.min n 9223372036854775807) := by
  rw [Returns]
  constructor
  · rintro ⟨value', hsome, hvalue⟩
    rw [some.inj hsome, hvalue]
  · exact fun hvalue => ⟨value, rfl, hvalue⟩

/-- A truncating conversion returns the whole units of a time, and one more of a negative time
that is not whole.  Only that one is lost with the increment. -/
theorem returns_toTruncated_iff {unit : UInt32} (hnormalized : time.Normalized)
    (hpos : 0 < perSecond.toInt) (hsmall : perSecond.toInt ≤ 1000000000)
    (hunits : ((time.mNanoseconds / unit).toNat : Int) < perSecond.toInt)
    (hwhole : 0 ≤ time.mSeconds.toInt ∨ time.mNanoseconds % unit = 0 →
      n = time.mSeconds.toInt * perSecond.toInt + (time.mNanoseconds / unit).toNat)
    (hmore : time.mSeconds.toInt < 0 → time.mNanoseconds % unit ≠ 0 →
      n = time.mSeconds.toInt * perSecond.toInt + (time.mNanoseconds / unit).toNat + 1) :
    Returns (time.toTruncated perSecond unit) n ↔
      0 ≤ time.mSeconds.toInt ∨ time.mNanoseconds % unit = 0 ∨
        time.mSeconds.toInt = -1 ∧ (time.mNanoseconds / unit).toNat = 0 := by
  obtain ⟨checked, hscaled, hreturns⟩ := returns_scaled hpos hsmall hunits time
  rw [toTruncated, if_pos ((normalized_iff time).mpr hnormalized), hscaled, bind_some]
  by_cases hlost : time.mSeconds.toInt < 0 ∧ time.mNanoseconds % unit ≠ 0
  · obtain ⟨hneg, hrest⟩ := hlost
    have his : Checked.Is { mValue := 1 } 1 := ⟨rfl, rfl⟩
    have hdifference := his.sub perSecond (by omega) (by omega)
    have hresult : time.saturatedValue (Checked.sub { mValue := 1 } perSecond) =
        some (1 - perSecond) := by
      rw [saturatedValue, Checked.value, hdifference.overflow]
      rfl
    have hvalue : (1 - perSecond).toInt = 1 - perSecond.toInt := hdifference.value
    have hlow : time.mSeconds.toInt ≤ -2 →
        time.mSeconds.toInt * perSecond.toInt ≤ -2 * perSecond.toInt := fun h =>
      Int.mul_le_mul_of_nonneg_right h (Int.le_of_lt hpos)
    have hlast : time.mSeconds.toInt = -1 →
        time.mSeconds.toInt * perSecond.toInt = -perSecond.toInt := fun h => by
      rw [h, Int.neg_one_mul]
    rw [if_pos ((seconds_neg_iff time).mpr hneg), if_pos hrest, Checked.postIncrement_eq, hresult,
      returns_some_iff, hvalue, hmore hneg hrest]
    constructor
    · intro heq
      by_cases hone : time.mSeconds.toInt = -1
      · have hproduct := hlast hone
        exact .inr (.inr ⟨hone, by omega⟩)
      · have hproduct := hlow (by omega)
        omega
    · rintro (h | h | ⟨hone, hunit⟩)
      · exact absurd hneg (Int.not_lt.mpr h)
      · exact absurd h hrest
      · have hproduct := hlast hone
        omega
  · have hwhole' : 0 ≤ time.mSeconds.toInt ∨ time.mNanoseconds % unit = 0 := by
      by_cases hneg : time.mSeconds.toInt < 0
      · exact .inr (Classical.not_not.mp fun hrest => hlost ⟨hneg, hrest⟩)
      · exact .inl (Int.not_lt.mp hneg)
    have hkept : (if time.mSeconds < 0 then
          (if time.mNanoseconds % unit ≠ 0 then checked.postIncrement.2 else checked).sub perSecond
        else checked) =
        if time.mSeconds < 0 then checked.sub perSecond else checked := by
      by_cases hneg : time.mSeconds.toInt < 0
      · simp only [if_pos ((seconds_neg_iff time).mpr hneg),
          if_neg fun hrest => hlost ⟨hneg, hrest⟩]
      · simp only [if_neg (mt (seconds_neg_iff time).mp hneg)]
    rw [hkept, hwhole hwhole']
    exact iff_of_true hreturns (hwhole'.imp_right .inl)

/-! ## Each conversion -/

theorem toNat_units (nanoseconds : UInt32) :
    (nanoseconds / 1000000).toNat = nanoseconds.toNat / 1000000 ∧
      (nanoseconds / 1000).toNat = nanoseconds.toNat / 1000 :=
  ⟨UInt32.toNat_div _ _, UInt32.toNat_div _ _⟩

theorem mod_eq_zero_iff (nanoseconds : UInt32) :
    (nanoseconds % 1000000 = 0 ↔ nanoseconds.toNat % 1000000 = 0) ∧
      (nanoseconds % 1000 = 0 ↔ nanoseconds.toNat % 1000 = 0) := by
  simp only [← UInt32.toNat_inj, UInt32.toNat_mod]
  exact ⟨Iff.rfl, Iff.rfl⟩

section

variable (hnormalized : time.Normalized)

include hnormalized

theorem returns_toTruncatedSeconds :
    Returns time.toTruncatedSeconds (truncated time.exact 1000000000) := by
  have hlt := toInt_lt time.mSeconds
  have hle := le_toInt time.mSeconds
  have hzero : time.mNanoseconds = 0 ↔ time.mNanoseconds.toNat = 0 := UInt32.toNat_inj.symm
  rw [toTruncatedSeconds, if_pos ((normalized_iff time).mpr hnormalized), truncated, exact]
  rw [Normalized] at hnormalized
  split
  · next hbegun =>
    have hneg := (seconds_neg_iff time).mp hbegun.1
    have hmore := mt hzero.mpr hbegun.2
    obtain ⟨seconds, hadd, hvalue⟩ : ∃ seconds, I64.add time.mSeconds 1 = some seconds ∧
        seconds.toInt = time.mSeconds.toInt + 1 :=
      I64.ofInt?_eq_some (by rw [toInt_minValue, Int64.toInt_one]; omega)
        (by rw [toInt_maxValue, Int64.toInt_one]; omega)
    rw [hadd, returns_some_iff, hvalue, if_neg (by omega)]
    omega
  · next hwhole =>
    have hnot : ¬ (time.mSeconds.toInt < 0 ∧ ¬ time.mNanoseconds.toNat = 0) := fun h =>
      hwhole ⟨(seconds_neg_iff time).mpr h.1, mt hzero.mp h.2⟩
    rw [returns_some_iff]
    split <;> omega

theorem returns_toTruncatedMilliseconds_iff :
    Returns time.toTruncatedMilliseconds (truncated time.exact 1000000) ↔
      0 ≤ time.mSeconds.toInt ∨ time.mNanoseconds.toNat % 1000000 = 0 ∨
        time.mSeconds.toInt = -1 ∧ time.mNanoseconds.toNat < 1000000 := by
  have hunits := (toNat_units time.mNanoseconds).1
  have hrest := (mod_eq_zero_iff time.mNanoseconds).1
  have hthousand : (1000 : Int64).toInt = 1000 := rfl
  have hlt := hnormalized
  rw [Normalized] at hlt
  rw [toTruncatedMilliseconds, returns_toTruncated_iff hnormalized, hrest, hunits]
  · omega
  · rw [hthousand]; decide
  · rw [hthousand]; decide
  · rw [hthousand, hunits]
    omega
  · rw [hrest, hthousand, hunits, truncated, exact]
    intro hwhole
    split <;> omega
  · rw [ne_eq, hrest, hthousand, hunits, truncated, exact]
    intro hneg hmore
    rw [if_neg (by omega)]
    omega

theorem returns_toTruncatedMicroseconds_iff :
    Returns time.toTruncatedMicroseconds (truncated time.exact 1000) ↔
      0 ≤ time.mSeconds.toInt ∨ time.mNanoseconds.toNat % 1000 = 0 ∨
        time.mSeconds.toInt = -1 ∧ time.mNanoseconds.toNat < 1000 := by
  have hunits := (toNat_units time.mNanoseconds).2
  have hrest := (mod_eq_zero_iff time.mNanoseconds).2
  have hmillion : (1000000 : Int64).toInt = 1000000 := rfl
  have hlt := hnormalized
  rw [Normalized] at hlt
  rw [toTruncatedMicroseconds, returns_toTruncated_iff hnormalized, hrest, hunits]
  · omega
  · rw [hmillion]; decide
  · rw [hmillion]; decide
  · rw [hmillion, hunits]
    omega
  · rw [hrest, hmillion, hunits, truncated, exact]
    intro hwhole
    split <;> omega
  · rw [ne_eq, hrest, hmillion, hunits, truncated, exact]
    intro hneg hmore
    rw [if_neg (by omega)]
    omega

theorem returns_toSeconds_iff : Returns time.toSeconds (roundedAway time.exact 1000000000) ↔
      time.mSeconds.toInt ≤ 0 ∨ time.mNanoseconds.toNat = 0 := by
  have hlt := toInt_lt time.mSeconds
  have hle := le_toInt time.mSeconds
  have hzero : time.mNanoseconds = 0 ↔ time.mNanoseconds.toNat = 0 := UInt32.toNat_inj.symm
  have hnonneg : 0 ≤ time.mSeconds ↔ 0 ≤ time.mSeconds.toInt := by
    rw [Int64.le_iff_toInt_le, Int64.toInt_zero]
  rw [toSeconds, if_pos ((normalized_iff time).mpr hnormalized), roundedAway, exact]
  rw [Normalized] at hnormalized
  split
  · next hbegun =>
    have hpos := hnonneg.mp hbegun.1
    have hmore := mt hzero.mpr hbegun.2
    have hone : (1 : Int64).toInt = 1 := rfl
    show Returns (some 1) _ ↔ _
    rw [returns_some_iff, hone, if_pos (by omega)]
    omega
  · next hwhole =>
    have hnot : ¬ (0 ≤ time.mSeconds.toInt ∧ ¬ time.mNanoseconds.toNat = 0) := fun h =>
      hwhole ⟨hnonneg.mpr h.1, mt hzero.mp h.2⟩
    rw [returns_some_iff]
    split <;> omega

theorem returns_toMilliseconds_iff : Returns time.toMilliseconds (roundedAway time.exact 1000000) ↔
      time.mSeconds.toInt < 0 ∨ time.mNanoseconds.toNat % 1000000 = 0 ∨
        time.mSeconds.toInt = 0 ∧ time.mNanoseconds.toNat < 1000000 := by
  have hunits := (toNat_units time.mNanoseconds).1
  have hrest := (mod_eq_zero_iff time.mNanoseconds).1
  have hthousand : (1000 : Int64).toInt = 1000 := rfl
  have hnonneg : 0 ≤ time.mSeconds ↔ 0 ≤ time.mSeconds.toInt := by
    rw [Int64.le_iff_toInt_le, Int64.toInt_zero]
  have hlt := hnormalized
  rw [Normalized] at hlt
  obtain ⟨checked, hscaled, hreturns⟩ := @returns_scaled 1000 (time.mNanoseconds / 1000000)
    (by decide) (by decide) (by rw [hthousand, hunits]; omega) time
  rw [hthousand, hunits] at hreturns
  rw [toMilliseconds, if_pos ((normalized_iff time).mpr hnormalized), hscaled, bind_some,
    roundedAway, exact]
  by_cases hbegun : 0 ≤ time.mSeconds ∧ time.mNanoseconds % 1000000 ≠ 0
  · have hpos := hnonneg.mp hbegun.1
    have hmore := mt hrest.mpr hbegun.2
    have hone : (1 : Int64).toInt = 1 := rfl
    have hresult : time.saturatedValue checked.postIncrement.2 = some 1 := rfl
    rw [if_pos hbegun]
    dsimp only
    rw [if_neg (mt (seconds_neg_iff time).mp (Int.not_lt.mpr hpos)), hresult, returns_some_iff, hone,
      if_pos (by omega)]
    omega
  · have hwhole : time.mSeconds.toInt < 0 ∨ time.mNanoseconds.toNat % 1000000 = 0 := by
      by_cases hneg : time.mSeconds.toInt < 0
      · exact .inl hneg
      · refine .inr (hrest.mp (Classical.not_not.mp fun hne => hbegun ⟨?_, hne⟩))
        exact hnonneg.mpr (Int.not_lt.mp hneg)
    have hvalue : (if 0 ≤ time.mSeconds.toInt * 1000000000 + time.mNanoseconds.toNat then
        -(-(time.mSeconds.toInt * 1000000000 + time.mNanoseconds.toNat) / 1000000)
      else (time.mSeconds.toInt * 1000000000 + time.mNanoseconds.toNat) / 1000000) =
        time.mSeconds.toInt * 1000 + ((time.mNanoseconds.toNat / 1000000 : Nat) : Int) := by
      split <;> omega
    rw [if_neg hbegun, hvalue]
    exact iff_of_true hreturns (hwhole.imp_right .inl)

end

/-- What is documented of the conversions: three truncate toward zero and two round away from
it. -/
structure RoundsAsDocumented (time : Time) : Prop where
  truncatedSeconds : Returns time.toTruncatedSeconds (truncated time.exact 1000000000)
  truncatedMilliseconds : Returns time.toTruncatedMilliseconds (truncated time.exact 1000000)
  truncatedMicroseconds : Returns time.toTruncatedMicroseconds (truncated time.exact 1000)
  seconds : Returns time.toSeconds (roundedAway time.exact 1000000000)
  milliseconds : Returns time.toMilliseconds (roundedAway time.exact 1000000)

/-- The conversions round as documented exactly where none of them counts one more, or where
there is nothing else to count. -/
theorem roundsAsDocumented_iff (time : Time) (hnormalized : time.Normalized) :
    time.RoundsAsDocumented ↔
      (0 ≤ time.mSeconds.toInt ∨ time.mNanoseconds.toNat % 1000000 = 0 ∨
        time.mSeconds.toInt = -1 ∧ time.mNanoseconds.toNat < 1000000) ∧
      (0 ≤ time.mSeconds.toInt ∨ time.mNanoseconds.toNat % 1000 = 0 ∨
        time.mSeconds.toInt = -1 ∧ time.mNanoseconds.toNat < 1000) ∧
      (time.mSeconds.toInt ≤ 0 ∨ time.mNanoseconds.toNat = 0) ∧
      (time.mSeconds.toInt < 0 ∨ time.mNanoseconds.toNat % 1000000 = 0 ∨
        time.mSeconds.toInt = 0 ∧ time.mNanoseconds.toNat < 1000000) := by
  rw [← returns_toTruncatedMilliseconds_iff hnormalized,
    ← returns_toTruncatedMicroseconds_iff hnormalized, ← returns_toSeconds_iff hnormalized,
    ← returns_toMilliseconds_iff hnormalized]
  constructor
  · exact fun h => ⟨h.truncatedMilliseconds, h.truncatedMicroseconds, h.seconds, h.milliseconds⟩
  · rintro ⟨htruncatedMilliseconds, htruncatedMicroseconds, hseconds, hmilliseconds⟩
    exact ⟨returns_toTruncatedSeconds hnormalized, htruncatedMilliseconds, htruncatedMicroseconds,
      hseconds, hmilliseconds⟩

theorem roundsAsDocumented_iff_sample : RoundsAsDocumented ⟨-1, 500000000⟩ ↔
      ((0 : Int) ≤ -1 ∨ 500000000 % 1000000 = 0 ∨ (-1 : Int) = -1 ∧ 500000000 < 1000000) ∧
      ((0 : Int) ≤ -1 ∨ 500000000 % 1000 = 0 ∨ (-1 : Int) = -1 ∧ 500000000 < 1000) ∧
      ((-1 : Int) ≤ 0 ∨ 500000000 = 0) ∧
      ((-1 : Int) < 0 ∨ 500000000 % 1000000 = 0 ∨ (-1 : Int) = 0 ∧ 500000000 < 1000000) :=
  roundsAsDocumented_iff ⟨-1, 500000000⟩ (by decide)

/-- A second and a nanosecond are one second and one millisecond, rounded up. -/
theorem not_roundsAsDocumented :
    ¬ RoundsAsDocumented ⟨1, 1⟩ ∧ toSeconds ⟨1, 1⟩ = some 1 ∧ toMilliseconds ⟨1, 1⟩ = some 1 := by
  refine ⟨fun h => ?_, by decide, by decide⟩
  have hseconds := (returns_toSeconds_iff (by decide)).mp h.seconds
  revert hseconds
  decide

end Time

end Literate.AK
