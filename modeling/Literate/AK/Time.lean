/-!
# AK: times

`AK/Time.h` and the first `operator+` and `operator-` of `AK/Time.cpp` (the file has
both once more further down, under misspelt names).  A computation is `none` where a signed
addition or negation overflows or an assertion fails; none of that happens, and both
operators are exact as far as a `Time` reaches and stop at its bounds.
-/

namespace Literate.AK

open Option
open Int64 (minValue maxValue toInt)
open Classical (not_not)

/-! ## Signed arithmetic -/

namespace I64

/-- The value of a signed expression; its overflow is undefined. -/
def ofInt? (n : Int) : Option Int64 :=
  if minValue.toInt ≤ n ∧ n ≤ maxValue.toInt then some (Int64.ofInt n) else none

def add (a b : Int64) : Option Int64 := ofInt? (a.toInt + b.toInt)

def neg (a : Int64) : Option Int64 := ofInt? (-a.toInt)

theorem ofInt?_eq_some {n : Int} (hmin : minValue.toInt ≤ n) (hmax : n ≤ maxValue.toInt) :
    ∃ a, ofInt? n = some a ∧ a.toInt = n := by
  refine ⟨Int64.ofInt n, if_pos ⟨hmin, hmax⟩, Int64.toInt_ofInt_of_le ?_ ?_⟩
  · rwa [Int64.toInt_minValue] at hmin
  · rw [Int64.toInt_maxValue] at hmax
    omega

end I64

/-- `Checked<i64>`. -/
structure Checked where
  mValue : Int64
  mOverflow : Bool := false
  deriving DecidableEq, Repr

/-- `Checked::add`, by `__builtin_add_overflow`: the value wraps around. -/
def Checked.add (checked : Checked) (other : Int64) : Checked :=
  { mValue := checked.mValue + other
    mOverflow := checked.mOverflow || (I64.add checked.mValue other).isNone }

/-- A time: the seconds, and nanoseconds after them. -/
structure Time where
  mSeconds : Int64
  mNanoseconds : UInt32
  deriving DecidableEq, Repr

variable {time b : Time} {nanoseconds : Int} {a : Int64}

namespace Time

def min : Time := ⟨minValue, 0⟩

def max : Time := ⟨maxValue, 999999999⟩

/-- The end of `operator+`: the sum of the seconds, saturated. -/
def sumSeconds (thisSecs otherSecs : Int64) (newNsecs : UInt32) : Time :=
  let newSecs := Checked.add { mValue := thisSecs } otherSecs
  if newSecs.mOverflow then
    if 0 < otherSecs then max else min
  else ⟨newSecs.mValue, newNsecs⟩

/-- `operator+`. -/
def add (this other : Time) : Option Time :=
  if this.mNanoseconds < 1000000000 ∧ other.mNanoseconds < 1000000000 then
    let newNsecs := this.mNanoseconds + other.mNanoseconds
    let extraSecs := newNsecs / 1000000000
    let newNsecs := newNsecs % 1000000000
    if extraSecs ≠ 0 then
      if extraSecs ≠ 1 then none
      else if this.mSeconds ≠ maxValue then
        (I64.add this.mSeconds 1).map fun thisSecs =>
          sumSeconds thisSecs other.mSeconds newNsecs
      else if other.mSeconds ≠ maxValue then
        (I64.add other.mSeconds 1).map fun otherSecs =>
          sumSeconds this.mSeconds otherSecs newNsecs
      else some max
    else some (sumSeconds this.mSeconds other.mSeconds newNsecs)
  else none

/-- `operator-`. -/
def sub (this other : Time) : Option Time :=
  if this.mNanoseconds < 1000000000 ∧ other.mNanoseconds < 1000000000 then
    if other.mNanoseconds ≠ 0 then
      add this ⟨(~~~other.mSeconds.toUInt64).toInt64, 1000000000 - other.mNanoseconds⟩
    else if other.mSeconds ≠ minValue then
      (I64.neg other.mSeconds).bind fun seconds => add this ⟨seconds, 0⟩
    else if 0 ≤ this.mSeconds then some max
    else
      ((I64.add this.mSeconds 0x4000000000000000).bind fun seconds =>
        I64.add seconds 0x4000000000000000).map fun seconds => ⟨seconds, this.mNanoseconds⟩
  else none

/-! ## What a time stands for -/

/-- The nanoseconds are less than a second. -/
def Normalized (time : Time) : Prop := time.mNanoseconds.toNat < 1000000000

instance (time : Time) : Decidable time.Normalized :=
  inferInstanceAs (Decidable (time.mNanoseconds.toNat < 1000000000))

/-- The time in nanoseconds. -/
def exact (time : Time) : Int := time.mSeconds.toInt * 1000000000 + time.mNanoseconds.toNat

/-- The time nearest to a number of nanoseconds: that number itself if it lies between the
bounds. -/
structure Saturates (time : Time) (nanoseconds : Int) : Prop where
  normalized : time.Normalized
  exact : min.exact ≤ nanoseconds → nanoseconds ≤ max.exact → time.exact = nanoseconds
  max : max.exact < nanoseconds → time = max
  min : nanoseconds < min.exact → time = min

theorem normalized_iff (time : Time) : time.mNanoseconds < 1000000000 ↔ time.Normalized :=
  UInt32.lt_iff_toNat_lt

theorem exact_min : min.exact = -9223372036854775808 * 1000000000 := rfl

theorem exact_max : max.exact = 9223372036854775807 * 1000000000 + 999999999 := rfl

theorem toInt_lt (a : Int64) : a.toInt < 9223372036854775808 := a.toInt_lt

theorem le_toInt (a : Int64) : -9223372036854775808 ≤ a.toInt := a.le_toInt

theorem toInt_maxValue : maxValue.toInt = 9223372036854775807 := rfl

theorem toInt_minValue : minValue.toInt = -9223372036854775808 := rfl

theorem Normalized.bounds (h : time.Normalized) :
    min.exact ≤ time.exact ∧ time.exact ≤ max.exact := by
  have hlt := toInt_lt time.mSeconds
  have hle := le_toInt time.mSeconds
  unfold Normalized at h
  rw [exact_min, exact_max, exact]
  omega

theorem Normalized.saturates (h : time.Normalized) : Saturates time time.exact where
  normalized := h
  exact := fun _ _ => rfl
  max := fun hlt => absurd hlt (Int.not_lt.mpr h.bounds.2)
  min := fun hlt => absurd hlt (Int.not_lt.mpr h.bounds.1)

theorem normalized_max : max.Normalized := by decide

theorem normalized_min : min.Normalized := by decide

theorem saturates_max (h : max.exact < nanoseconds) : Saturates max nanoseconds where
  normalized := normalized_max
  exact := fun _ hle => absurd h (Int.not_lt.mpr hle)
  max := fun _ => rfl
  min := fun hlt => absurd (Int.lt_trans h hlt) (Int.not_lt.mpr normalized_max.bounds.1)

theorem saturates_min (h : nanoseconds < min.exact) : Saturates min nanoseconds where
  normalized := normalized_min
  exact := fun hle _ => absurd h (Int.not_lt.mpr hle)
  max := fun hlt => absurd (Int.lt_trans hlt h) (Int.not_lt.mpr normalized_min.bounds.2)
  min := fun _ => rfl

/-! ## Addition -/

/-- The sum of the seconds overflows exactly when no time has so many of them. -/
theorem saturates_sumSeconds (thisSecs otherSecs : Int64) {newNsecs : UInt32}
    (h : newNsecs.toNat < 1000000000) : Saturates (sumSeconds thisSecs otherSecs newNsecs)
      ((thisSecs.toInt + otherSecs.toInt) * 1000000000 + newNsecs.toNat) := by
  have hthis := toInt_lt thisSecs
  have hthis' := le_toInt thisSecs
  have hother := toInt_lt otherSecs
  have hother' := le_toInt otherSecs
  have hpos : 0 < otherSecs ↔ 0 < otherSecs.toInt := Int64.lt_iff_toInt_lt
  unfold sumSeconds Checked.add I64.add I64.ofInt?
  rw [toInt_minValue, toInt_maxValue, Bool.false_or]
  by_cases hfits : -9223372036854775808 ≤ thisSecs.toInt + otherSecs.toInt ∧
      thisSecs.toInt + otherSecs.toInt ≤ 9223372036854775807
  · have hvalue : (thisSecs + otherSecs).toInt = thisSecs.toInt + otherSecs.toInt := by
      rw [Int64.toInt_add]
      exact Int.bmod_eq_of_le (by omega) (by omega)
    rw [if_pos hfits, isNone_some, ← hvalue]
    have hnormalized : Normalized ⟨thisSecs + otherSecs, newNsecs⟩ := h
    exact hnormalized.saturates
  · rw [if_neg hfits, isNone_none]
    rw [if_pos rfl]
    split
    · next hotherPos =>
      apply saturates_max
      rw [exact_max]
      have := hpos.mp hotherPos
      omega
    · next hotherNeg =>
      apply saturates_min
      rw [exact_min]
      have := mt hpos.mpr hotherNeg
      omega

/-- The nanoseconds of a sum: what is over a second is carried. -/
theorem carry_eq {a b : UInt32} (ha : a.toNat < 1000000000) (hb : b.toNat < 1000000000) :
    ((a + b) / 1000000000).toNat = (a.toNat + b.toNat) / 1000000000 ∧
      ((a + b) % 1000000000).toNat = (a.toNat + b.toNat) % 1000000000 := by
  have hsum : (a + b).toNat = a.toNat + b.toNat := by
    rw [UInt32.toNat_add]
    omega
  have hbillion : (1000000000 : UInt32).toNat = 1000000000 := rfl
  rw [UInt32.toNat_div, UInt32.toNat_mod, hsum, hbillion]
  exact ⟨rfl, rfl⟩

theorem ne_maxValue (h : a ≠ maxValue) : a.toInt < 9223372036854775807 := by
  have hne : a.toInt ≠ 9223372036854775807 := fun heq => h (Int64.toInt_inj.mp heq)
  have hlt := toInt_lt a
  omega

/-- Adding the carry to a number of seconds that is not the greatest. -/
theorem add_one (h : a ≠ maxValue) : ∃ a', I64.add a 1 = some a' ∧ a'.toInt = a.toInt + 1 := by
  have hlt := ne_maxValue h
  have hle := le_toInt a
  apply I64.ofInt?_eq_some
  · rw [toInt_minValue, Int64.toInt_one]
    omega
  · rw [toInt_maxValue, Int64.toInt_one]
    omega

theorem saturates_add {a : Time} (ha : a.Normalized) (hb : b.Normalized) :
    ∃ time, a.add b = some time ∧ Saturates time (a.exact + b.exact) := by
  obtain ⟨hextra, hnsecs⟩ := carry_eq ha hb
  have hguard : a.mNanoseconds < 1000000000 ∧ b.mNanoseconds < 1000000000 :=
    ⟨(normalized_iff a).mpr ha, (normalized_iff b).mpr hb⟩
  have hlt : ((a.mNanoseconds + b.mNanoseconds) % 1000000000).toNat < 1000000000 := by
    rw [hnsecs]
    exact Nat.mod_lt _ (by decide)
  have hsaturates := fun thisSecs otherSecs =>
    saturates_sumSeconds thisSecs otherSecs hlt
  unfold Normalized at ha hb
  rw [add, if_pos hguard]
  dsimp only
  split
  · next hcarry =>
    -- the nanoseconds are over a second
    have hone : ((a.mNanoseconds + b.mNanoseconds) / 1000000000).toNat = 1 := by
      have hne : ((a.mNanoseconds + b.mNanoseconds) / 1000000000).toNat ≠ 0 :=
        fun heq => hcarry (UInt32.toNat_inj.mp heq)
      omega
    rw [if_neg (not_not.mpr (UInt32.toNat_inj.mp hone))]
    split
    · next hthis =>
      obtain ⟨thisSecs, hadd, hvalue⟩ := add_one hthis
      rw [hadd]
      refine ⟨_, rfl, ?_⟩
      have hexact : a.exact + b.exact = (thisSecs.toInt + b.mSeconds.toInt) * 1000000000 +
          ((a.mNanoseconds + b.mNanoseconds) % 1000000000).toNat := by
        unfold exact
        omega
      rw [hexact]
      exact hsaturates _ _
    · next hthis =>
      split
      · next hother =>
        obtain ⟨otherSecs, hadd, hvalue⟩ := add_one hother
        rw [hadd]
        refine ⟨_, rfl, ?_⟩
        have hexact : a.exact + b.exact = (a.mSeconds.toInt + otherSecs.toInt) * 1000000000 +
            ((a.mNanoseconds + b.mNanoseconds) % 1000000000).toNat := by
          unfold exact
          omega
        rw [hexact]
        exact hsaturates _ _
      · next hother =>
        refine ⟨max, rfl, saturates_max ?_⟩
        have hthisMax := congrArg toInt (not_not.mp hthis)
        have hotherMax := congrArg toInt (not_not.mp hother)
        rw [toInt_maxValue] at hthisMax hotherMax
        rw [exact_max]
        unfold exact
        omega
  · next hcarry =>
    have hzero := congrArg UInt32.toNat (not_not.mp hcarry)
    rw [hextra, UInt32.toNat_zero] at hzero
    refine ⟨_, rfl, ?_⟩
    have hexact : a.exact + b.exact = (a.mSeconds.toInt + b.mSeconds.toInt) * 1000000000 +
        ((a.mNanoseconds + b.mNanoseconds) % 1000000000).toNat := by
      unfold exact
      omega
    rw [hexact]
    exact hsaturates _ _

/-! ## Subtraction -/

theorem toInt_complement (a : Int64) : (~~~a.toUInt64).toInt64.toInt = -a.toInt - 1 := by
  have hlt := toInt_lt a
  have hle := le_toInt a
  have hnot : (~~~a.toUInt64).toInt64 = ~~~a := rfl
  rw [hnot, Int64.toInt_not]
  exact Int.bmod_eq_of_le (by omega) (by omega)

/-- What is subtracted with nanoseconds is added as its complement. -/
theorem exact_complement (hb : b.Normalized) (hne : b.mNanoseconds ≠ 0) :
    Normalized ⟨(~~~b.mSeconds.toUInt64).toInt64, 1000000000 - b.mNanoseconds⟩ ∧
      exact ⟨(~~~b.mSeconds.toUInt64).toInt64, 1000000000 - b.mNanoseconds⟩ = -b.exact := by
  unfold Normalized at hb
  have hpos : b.mNanoseconds.toNat ≠ 0 := fun heq => hne (UInt32.toNat_inj.mp heq)
  have hbillion : (1000000000 : UInt32).toNat = 1000000000 := rfl
  have hle : b.mNanoseconds ≤ 1000000000 := UInt32.le_iff_toNat_le.mpr (by omega)
  have hsub : (1000000000 - b.mNanoseconds).toNat = 1000000000 - b.mNanoseconds.toNat :=
    UInt32.toNat_sub_of_le _ _ hle
  constructor
  · unfold Normalized
    dsimp only
    omega
  · unfold exact
    dsimp only
    rw [toInt_complement]
    omega

theorem saturates_sub {a : Time} (ha : a.Normalized) (hb : b.Normalized) :
    ∃ time, a.sub b = some time ∧ Saturates time (a.exact - b.exact) := by
  have hguard : a.mNanoseconds < 1000000000 ∧ b.mNanoseconds < 1000000000 :=
    ⟨(normalized_iff a).mpr ha, (normalized_iff b).mpr hb⟩
  have hlt := toInt_lt b.mSeconds
  have hle := le_toInt b.mSeconds
  rw [sub, if_pos hguard]
  split
  · next hne =>
    obtain ⟨hnormalized, hexact⟩ := exact_complement hb hne
    obtain ⟨time, htime, hsaturates⟩ := saturates_add ha hnormalized
    rw [hexact] at hsaturates
    exact ⟨time, htime, hsaturates⟩
  · next hzero =>
    have hnsecs := congrArg UInt32.toNat (not_not.mp hzero)
    rw [UInt32.toNat_zero] at hnsecs
    split
    · next hmin =>
      have hne : b.mSeconds.toInt ≠ -9223372036854775808 :=
        fun heq => hmin (Int64.toInt_inj.mp heq)
      obtain ⟨seconds, hneg, hvalue⟩ : ∃ seconds, I64.neg b.mSeconds = some seconds ∧
          seconds.toInt = -b.mSeconds.toInt := by
        apply I64.ofInt?_eq_some
        · rw [toInt_minValue]
          omega
        · rw [toInt_maxValue]
          omega
      have hnormalized : Normalized ⟨seconds, 0⟩ := (by decide : (0 : Nat) < 1000000000)
      obtain ⟨time, htime, hsaturates⟩ := saturates_add ha hnormalized
      have hexact : a.exact - b.exact = a.exact + exact ⟨seconds, 0⟩ := by
        unfold exact
        dsimp only
        rw [UInt32.toNat_zero]
        omega
      rw [hneg, hexact]
      exact ⟨time, htime, hsaturates⟩
    · next hmin =>
      have hvalue := congrArg toInt (not_not.mp hmin)
      rw [toInt_minValue] at hvalue
      split
      · next hpos =>
        refine ⟨max, rfl, saturates_max ?_⟩
        have := Int64.le_iff_toInt_le.mp hpos
        rw [Int64.toInt_zero] at this
        rw [exact_max]
        unfold exact
        omega
      · next hneg =>
        have hneg' : a.mSeconds.toInt < 0 := by
          have := mt Int64.le_iff_toInt_le.mpr hneg
          rw [Int64.toInt_zero] at this
          omega
        have hle' := le_toInt a.mSeconds
        have hhalf : (0x4000000000000000 : Int64).toInt = 4611686018427387904 := rfl
        obtain ⟨half, hadd, hhalfValue⟩ : ∃ half,
            I64.add a.mSeconds 0x4000000000000000 = some half ∧
              half.toInt = a.mSeconds.toInt + (0x4000000000000000 : Int64).toInt := by
          apply I64.ofInt?_eq_some
          · rw [toInt_minValue]
            omega
          · rw [toInt_maxValue]
            omega
        obtain ⟨seconds, hadd', hseconds⟩ : ∃ seconds,
            I64.add half 0x4000000000000000 = some seconds ∧
              seconds.toInt = half.toInt + (0x4000000000000000 : Int64).toInt := by
          apply I64.ofInt?_eq_some
          · rw [toInt_minValue]
            omega
          · rw [toInt_maxValue]
            omega
        rw [hadd, bind_some, hadd', map_some]
        refine ⟨_, rfl, ?_⟩
        have hexact : a.exact - b.exact = exact ⟨seconds, a.mNanoseconds⟩ := by
          unfold exact
          dsimp only
          omega
        have hnormalized : Normalized ⟨seconds, a.mNanoseconds⟩ := ha
        rw [hexact]
        exact hnormalized.saturates

/-- Both operators are total on normalized times, and exact between the bounds. -/
theorem saturates_add_sub {a b : Time} (ha : a.Normalized) (hb : b.Normalized) :
    (∃ time, a.add b = some time ∧ Saturates time (a.exact + b.exact)) ∧
      ∃ time, a.sub b = some time ∧ Saturates time (a.exact - b.exact) :=
  ⟨saturates_add ha hb, saturates_sub ha hb⟩

theorem saturates_add_sub_half : (∃ time, add ⟨-1, 500000000⟩ ⟨maxValue, 500000000⟩ = some time ∧
        Saturates time (exact ⟨-1, 500000000⟩ + exact ⟨maxValue, 500000000⟩)) ∧
      ∃ time, sub ⟨-1, 500000000⟩ ⟨maxValue, 500000000⟩ = some time ∧
        Saturates time (exact ⟨-1, 500000000⟩ - exact ⟨maxValue, 500000000⟩) :=
  saturates_add_sub (by decide) (by decide)

end Time

end Literate.AK
