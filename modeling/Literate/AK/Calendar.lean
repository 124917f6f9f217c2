import Mathlib.Data.Int.ModEq
import Mathlib.Algebra.Order.Ring.Int
import Mathlib.Tactic.IntervalCases
import Mathlib.Tactic.Ring
import Literate.AK.Types

/-!
# AK: the calendar

The functions of dates of `AK/Time.h` and `AK/Time.cpp`.  A computation is `none` where an `int`
overflows or an assertion fails.
-/

namespace Literate.AK

open List Option Int

def isLeapYear (year : Int) : Bool :=
  year.tmod 4 = 0 && (year.tmod 100 ≠ 0 || year.tmod 400 = 0)

/-- `days_in_month`, where `mont` is the month. -/
def daysInMonth (year : Int) (month : Nat) : Option Int :=
  if 1 ≤ month ∧ month ≤ 12 then
    if month = 2 then some (if isLeapYear year then 29 else 28)
    else
      let isLongMonth := month = 1 || month = 3 || month = 5 || month = 7 || month = 8 ||
        month = 10 || month = 12
      some (if isLongMonth then 31 else 30)
  else none

/-- The `seek_table` of `day_of_week`. -/
def weekTable : List Int := [0, 3, 2, 5, 0, 3, 5, 1, 4, 6, 2, 4]

def dayOfWeek (year : Int) (month : Nat) (day : Int) : Option Nat :=
  if 1 ≤ month ∧ month ≤ 12 then do
    let year ← (if month < 3 then int (year - 1) else some year)
    let sum ← int (year + year.tdiv 4)
    let sum ← int (sum - year.tdiv 100)
    let sum ← int (sum + year.tdiv 400)
    let seek ← weekTable[month - 1]?
    let sum ← int (sum + seek)
    let sum ← int (sum + day)
    -- converted to `unsigned`
    return (sum.tmod 7 % 4294967296).toNat
  else none

/-- The `seek_table` of `day_of_year`. -/
def yearTable : List Int := [0, 31, 59, 90, 120, 151, 181, 212, 243, 273, 304, 334]

def dayOfYear (year : Int) (month : Nat) (day : Int) : Option Int :=
  if 1 ≤ month ∧ month ≤ 12 then do
    let seek ← yearTable[month - 1]?
    let sum ← int (seek + day)
    let dayOfYear ← int (sum - 1)
    (if isLeapYear year && 3 ≤ month then int (dayOfYear + 1) else some dayOfYear)
  else none

def daysInYear (year : Int) : Int := 365 + if isLeapYear year then 1 else 0

/-- A loop of `years_to_days_since_epoch`, with `count` years left. -/
def yearsLoop (f : Int → Int → Int) : (count : Nat) → (currentYear days : Int) → Option Int
  | 0, _, days => some days
  | count + 1, currentYear, days => do
      let days ← int (f days (daysInYear currentYear))
      yearsLoop f count (currentYear + 1) days

def yearsToDaysSinceEpoch (year : Int) : Option Int := do
  let days ← yearsLoop (fun days n => days + n) (year - 1970).toNat 1970 0
  yearsLoop (fun days n => days - n) (1970 - year).toNat year days

def daysSinceEpoch (year : Int) (month : Nat) (day : Int) : Option Int := do
  let years ← yearsToDaysSinceEpoch year
  let dayOfYear ← dayOfYear year month day
  int (years + dayOfYear)

/-! ## Years -/

/-- The days before a year, from the year 1 on. -/
def daysBefore (year : Int) : Int :=
  365 * (year - 1) + (year - 1) / 4 - (year - 1) / 100 + (year - 1) / 400

variable {f : Int → Int → Int} {sign days : Int} {week : Nat}

variable {year day n : Int} {month : Nat}

theorem isLeapYear_iff (hyear : 0 ≤ year) : isLeapYear year = true ↔
    year % 4 = 0 ∧ (year % 100 ≠ 0 ∨ year % 400 = 0) := by
  simp only [isLeapYear, tmod_eq_emod_of_nonneg hyear]
  simp

/-- A year has as many days as there are between its beginning and the next one's. -/
theorem daysBefore_succ (hyear : 1 ≤ year) :
    daysBefore (year + 1) = daysBefore year + daysInYear year := by
  have hleap := @isLeapYear_iff year (by omega)
  unfold daysBefore daysInYear
  split_ifs with h
  · have hrules := hleap.mp h
    omega
  · have hrules := mt hleap.mpr h
    omega

theorem daysInYear_bounds : 365 ≤ daysInYear year ∧ daysInYear year ≤ 366 := by
  unfold daysInYear
  split_ifs <;> omega

/-- A loop over years adds or subtracts the days between two of them. -/
theorem yearsLoop_eq (hf : ∀ days n, f days n = days + sign * n)
    {count : Nat} (hyear : 1 ≤ year) (h : yearsLoop f count year day = some n) :
    n = day + sign * (daysBefore (year + count) - daysBefore year) := by
  induction count generalizing year day with
  | zero =>
    rw [yearsLoop, some.injEq] at h
    simp only [Nat.cast_zero, Int.add_zero, Int.sub_self, Int.mul_zero, h]
  | succ count ih =>
    rw [yearsLoop] at h
    obtain ⟨days, hdays, hrest⟩ := bind_eq_some_iff.mp h
    have hnext : year + 1 + (count : Int) = year + ((count + 1 : Nat) : Int) := by push_cast; ring
    rw [ih (by omega) hrest, (int_eq_some.mp hdays).1, hf, hnext, daysBefore_succ hyear]
    ring

theorem daysBefore_mono (hyear : 1 ≤ year) (count : Nat) :
    daysBefore year ≤ daysBefore (year + count) := by
  induction count with
  | zero => rw [Nat.cast_zero, Int.add_zero]
  | succ count ih =>
    have hnext : year + ((count + 1 : Nat) : Int) = year + count + 1 := by push_cast; ring
    have hdays := @daysInYear_bounds (year + count)
    rw [hnext, daysBefore_succ (by omega)]
    omega

/-- Nothing overflows on the way to a number of days that fits. -/
theorem yearsLoop_some (hf : ∀ days n, f days n = days + sign * n)
    (hsign : sign = 1 ∨ sign = -1) {count : Nat} (hyear : 1 ≤ year)
    (hday : -2147483648 ≤ day ∧ day ≤ 2147483647)
    (hfits : -2147483648 ≤ day + sign * (daysBefore (year + count) - daysBefore year) ∧
      day + sign * (daysBefore (year + count) - daysBefore year) ≤ 2147483647) :
    yearsLoop f count year day =
      some (day + sign * (daysBefore (year + count) - daysBefore year)) := by
  induction count generalizing year day with
  | zero => simp only [yearsLoop, Nat.cast_zero, Int.add_zero, Int.sub_self, Int.mul_zero]
  | succ count ih =>
    have hnext : year + ((count + 1 : Nat) : Int) = year + 1 + count := by push_cast; ring
    have hmono := daysBefore_mono (by omega : 1 ≤ year + 1) count
    have hdays := @daysInYear_bounds year
    have hsucc := daysBefore_succ hyear
    rw [hnext] at hfits ⊢
    have hthis : -2147483648 ≤ day + sign * daysInYear year ∧
        day + sign * daysInYear year ≤ 2147483647 := by
      rcases hsign with rfl | rfl <;> omega
    have hsum : day + sign * daysInYear year +
        sign * (daysBefore (year + 1 + count) - daysBefore (year + 1)) =
          day + sign * (daysBefore (year + 1 + count) - daysBefore year) := by
      rw [hsucc]
      ring
    rw [yearsLoop, hf, int_of_fits hthis.1 hthis.2]
    refine (ih (by omega) hthis ?_).trans (congrArg some hsum)
    rw [hsum]
    exact hfits

theorem add_eq_add_one_mul (days n : Int) : days + n = days + 1 * n := by
  rw [Int.one_mul]

theorem sub_eq_add_neg_one_mul (days n : Int) : days - n = days + -1 * n := by
  ring

theorem yearsToDaysSinceEpoch_eq (hyear : 1 ≤ year) (h : yearsToDaysSinceEpoch year = some n) :
    n = daysBefore year - daysBefore 1970 := by
  obtain ⟨days, hup, hdown⟩ := bind_eq_some_iff.mp h
  have hup' := yearsLoop_eq add_eq_add_one_mul (by decide) hup
  have hdown' := yearsLoop_eq sub_eq_add_neg_one_mul hyear hdown
  rw [hdown', hup']
  rcases le_total 1970 year with hafter | hbefore
  · rw [toNat_of_nonneg (by omega), toNat_of_nonpos (by omega)]
    rw [show (1970 : Int) + (year - 1970) = year by ring]
    simp
  · rw [toNat_of_nonpos (by omega), toNat_of_nonneg (by omega)]
    rw [show year + (1970 - year) = 1970 by ring]
    simp

theorem yearsToDaysSinceEpoch_some (hyear : 1 ≤ year) (hmax : year ≤ 5881580) :
    yearsToDaysSinceEpoch year = some (daysBefore year - daysBefore 1970) := by
  have hepoch : daysBefore 1970 = 719162 := by decide
  have hbounds : -719162 ≤ daysBefore year - daysBefore 1970 ∧
      daysBefore year - daysBefore 1970 ≤ 2147483455 := by
    rw [hepoch]
    unfold daysBefore
    omega
  unfold yearsToDaysSinceEpoch
  rcases le_total 1970 year with hafter | hbefore
  · have hcount : (1970 : Int) + ((year - 1970).toNat : Int) = year := by omega
    rw [yearsLoop_some add_eq_add_one_mul (.inl rfl) (by decide)
      (by decide) (by rw [hcount]; omega), hcount, toNat_of_nonpos (by omega : 1970 - year ≤ 0)]
    exact congrArg some (by ring)
  · have hcount : year + ((1970 - year).toNat : Int) = 1970 := by omega
    rw [toNat_of_nonpos (by omega : year - 1970 ≤ 0)]
    refine (yearsLoop_some sub_eq_add_neg_one_mul (.inr rfl) hyear (by decide)
      (by rw [hcount]; omega)).trans ?_
    rw [hcount]
    exact congrArg some (by ring)

/-! ## Dates -/

/-- A date from the year 1 on. -/
structure IsDate (year : Int) (month : Nat) (day : Int) : Prop where
  year_pos : 1 ≤ year
  month_mem : 1 ≤ month ∧ month ≤ 12
  day_pos : 1 ≤ day
  day_le : ∃ days, daysInMonth year month = some days ∧ day ≤ days

/-- The date that follows. -/
def followingDate (year : Int) (month : Nat) (day : Int) : Option (Int × Nat × Int) :=
  (daysInMonth year month).map fun days =>
    if day < days then (year, month, day + 1)
    else if month < 12 then (year, month + 1, 1)
    else (year + 1, 1, 1)

/-- The days of a year before a month. -/
def monthStart (year : Int) (month : Nat) : Int :=
  yearTable.getD (month - 1) 0 + if isLeapYear year && 3 ≤ month then 1 else 0

theorem monthStart_bounds (hmonth : 1 ≤ month ∧ month ≤ 12) :
    0 ≤ monthStart year month ∧ monthStart year month ≤ 335 := by
  obtain ⟨hmin, hmax⟩ := hmonth
  unfold monthStart
  interval_cases month <;> split_ifs <;> decide

theorem dayOfYear_eq (h : dayOfYear year month day = some n) :
    n = monthStart year month + day - 1 := by
  by_cases hmonth : 1 ≤ month ∧ month ≤ 12
  · rw [dayOfYear, if_pos hmonth] at h
    obtain ⟨seek, hseek, hrest⟩ := bind_eq_some_iff.mp h
    obtain ⟨sum, hsum, hrest⟩ := bind_eq_some_iff.mp hrest
    obtain ⟨dayOfYear, hdayOfYear, hrest⟩ := bind_eq_some_iff.mp hrest
    have hsum' := (int_eq_some.mp hsum).1
    have hdayOfYear' := (int_eq_some.mp hdayOfYear).1
    rw [monthStart, getD_eq_getElem?_getD, hseek, getD_some]
    by_cases hleap : (isLeapYear year && 3 ≤ month) = true
    · rw [if_pos hleap] at hrest ⊢
      have hn := (int_eq_some.mp hrest).1
      omega
    · rw [if_neg hleap] at hrest ⊢
      have hn := some.inj hrest
      omega
  · rw [dayOfYear, if_neg hmonth] at h
    cases h

theorem dayOfYear_some (hmonth : 1 ≤ month ∧ month ≤ 12) (hday : 1 ≤ day ∧ day ≤ 31) :
    dayOfYear year month day = some (monthStart year month + day - 1) := by
  have hbounds := @monthStart_bounds year month hmonth
  obtain ⟨seek, hseek⟩ : ∃ seek, yearTable[month - 1]? = some seek :=
    ⟨_, List.getElem?_eq_getElem (by rw [yearTable]; simp only [List.length]; omega)⟩
  unfold monthStart at hbounds ⊢
  rw [getD_eq_getElem?_getD, hseek, getD_some] at hbounds ⊢
  rw [dayOfYear, if_pos hmonth]
  dsimp only [bind, Option.bind]
  rw [hseek]
  dsimp only
  by_cases hleap : (isLeapYear year && 3 ≤ month) = true
  · rw [if_pos hleap] at hbounds ⊢
    rw [int_of_fits (by omega) (by omega)]
    dsimp only
    rw [int_of_fits (by omega) (by omega)]
    dsimp only
    rw [if_pos hleap, int_of_fits (by omega) (by omega)]
    exact congrArg some (by ring)
  · rw [if_neg hleap] at hbounds ⊢
    rw [int_of_fits (by omega) (by omega)]
    dsimp only
    rw [int_of_fits (by omega) (by omega)]
    dsimp only
    rw [if_neg hleap]
    exact congrArg some (by ring)

theorem daysSinceEpoch_eq (hyear : 1 ≤ year) (h : daysSinceEpoch year month day = some n) :
    n = daysBefore year - daysBefore 1970 + (monthStart year month + day - 1) := by
  obtain ⟨years, hyears, hrest⟩ := bind_eq_some_iff.mp h
  obtain ⟨days, hdays, hsum⟩ := bind_eq_some_iff.mp hrest
  rw [(int_eq_some.mp hsum).1, yearsToDaysSinceEpoch_eq hyear hyears, dayOfYear_eq hdays]

/-- Nothing overflows up to the year 5881579 and the day after it. -/
theorem daysSinceEpoch_some (hyear : 1 ≤ year) (hmonth : 1 ≤ month ∧ month ≤ 12)
    (hday : 1 ≤ day ∧ day ≤ 31) (hmax : year ≤ 5881579 ∨ (year = 5881580 ∧ month = 1 ∧ day = 1)) :
    (daysSinceEpoch year month day).isSome = true := by
  have hepoch : daysBefore 1970 = 719162 := by decide
  have hbounds := @monthStart_bounds year month hmonth
  have hstart : month = 1 → monthStart year month = 0 := by
    rintro rfl
    unfold monthStart
    rw [if_neg (by simp)]
    rfl
  have hyears : -719162 ≤ daysBefore year - daysBefore 1970 ∧
      daysBefore year - daysBefore 1970 + (monthStart year month + day - 1) ≤ 2147483647 := by
    rw [hepoch]
    unfold daysBefore
    omega
  rw [daysSinceEpoch, yearsToDaysSinceEpoch_some hyear (by omega), dayOfYear_some hmonth hday]
  dsimp only [bind, Option.bind]
  rw [int_of_fits (by omega) hyears.2]
  rfl

theorem dayOfWeek_sum (hyear : 1 ≤ year) (hday : 0 ≤ day)
    (hmonth : 1 ≤ month ∧ month ≤ 12) (hweek : dayOfWeek year month day = some week) :
    ∃ shifted seek, (shifted = if month < 3 then year - 1 else year) ∧
      weekTable[month - 1]? = some seek ∧
      (week : Int) = (shifted + shifted / 4 - shifted / 100 + shifted / 400 + seek + day) % 7 := by
  rw [dayOfWeek, if_pos hmonth] at hweek
  obtain ⟨shifted, hshifted, hrest⟩ := bind_eq_some_iff.mp hweek
  obtain ⟨sum₁, hsum₁, hrest⟩ := bind_eq_some_iff.mp hrest
  obtain ⟨sum₂, hsum₂, hrest⟩ := bind_eq_some_iff.mp hrest
  obtain ⟨sum₃, hsum₃, hrest⟩ := bind_eq_some_iff.mp hrest
  obtain ⟨seek, hseek, hrest⟩ := bind_eq_some_iff.mp hrest
  obtain ⟨sum₄, hsum₄, hrest⟩ := bind_eq_some_iff.mp hrest
  obtain ⟨sum₅, hsum₅, hrest⟩ := bind_eq_some_iff.mp hrest
  have hshift : shifted = if month < 3 then year - 1 else year := by
    by_cases hearly : month < 3
    · rw [if_pos hearly] at hshifted ⊢
      exact (int_eq_some.mp hshifted).1
    · rw [if_neg hearly] at hshifted ⊢
      exact (some.inj hshifted).symm
  have hnonneg : 0 ≤ shifted := by
    rw [hshift]
    split_ifs <;> omega
  have hseekNonneg : 0 ≤ seek :=
    (by decide : ∀ entry ∈ weekTable, 0 ≤ entry) seek (mem_of_getElem? hseek)
  have h₁ := (int_eq_some.mp hsum₁).1
  have h₂ := (int_eq_some.mp hsum₂).1
  have h₃ := (int_eq_some.mp hsum₃).1
  have h₄ := (int_eq_some.mp hsum₄).1
  have h₅ := (int_eq_some.mp hsum₅).1
  rw [tdiv_eq_ediv_of_nonneg hnonneg] at h₁ h₂ h₃
  have hsum : sum₅ = shifted + shifted / 4 - shifted / 100 + shifted / 400 + seek + day := by omega
  have hpos : 0 ≤ sum₅ := by omega
  have hweek' := some.inj hrest
  rw [tmod_eq_emod_of_nonneg hpos] at hweek'
  refine ⟨shifted, seek, hshift, hseek, ?_⟩
  rw [← hsum, ← hweek']
  omega

/-- The two tables name the same day of the week. -/
theorem tables_agree {seek : Int} (hmonth : 1 ≤ month ∧ month ≤ 12)
    (hseek : weekTable[month - 1]? = some seek) :
    (seek + if month < 3 then 0 else 1) % 7 = yearTable.getD (month - 1) 0 % 7 := by
  have hall : ∀ index < 12, ∀ seek ∈ weekTable[index]?,
      (seek + if index < 2 then 0 else 1) % 7 = yearTable.getD index 0 % 7 := by decide
  have hthis := hall (month - 1) (by omega) seek hseek
  rcases lt_or_ge month 3 with hearly | hlate
  · rw [if_pos (by omega)] at hthis ⊢
    exact hthis
  · rw [if_neg (by omega)] at hthis ⊢
    exact hthis

theorem dayOfWeek_eq (hyear : 1 ≤ year) (hmonth : 1 ≤ month ∧ month ≤ 12)
    (hday : 0 ≤ day) (hweek : dayOfWeek year month day = some week) :
    (week : Int) = (daysBefore year + monthStart year month + day) % 7 := by
  obtain ⟨shifted, seek, hshifted, hseek, hsum⟩ := dayOfWeek_sum hyear hday hmonth hweek
  have htables := tables_agree hmonth hseek
  -- the leap years up to `shifted` are counted by the days before the year after it
  have hcount : shifted + shifted / 4 - shifted / 100 + shifted / 400 =
      daysBefore (shifted + 1) - 364 * shifted := by
    unfold daysBefore
    rw [Int.add_sub_cancel]
    ring
  rw [hsum, hcount]
  rcases lt_or_ge month 3 with hearly | hlate
  · rw [if_pos hearly] at hshifted htables
    have hstart : monthStart year month = yearTable.getD (month - 1) 0 := by
      rw [monthStart, if_neg (by simp only [Bool.and_eq_true, decide_eq_true_eq]; omega), Int.add_zero]
    rw [hstart, hshifted, Int.sub_add_cancel]
    omega
  · rw [if_neg (by omega)] at hshifted htables
    have hstart : monthStart year month =
        yearTable.getD (month - 1) 0 + (daysInYear year - 365) := by
      have hlate' : decide (3 ≤ month) = true := decide_eq_true hlate
      rw [monthStart, daysInYear, hlate', Bool.and_true]
      ring
    rw [hstart, hshifted, daysBefore_succ hyear]
    omega

/-- A month has as many days as there are between its beginning and the next one's. -/
theorem monthStart_succ (hmonth : 1 ≤ month ∧ month < 12)
    (hdays : daysInMonth year month = some days) :
    monthStart year (month + 1) = monthStart year month + days := by
  obtain ⟨hmin, hmax⟩ := hmonth
  unfold daysInMonth at hdays
  unfold monthStart
  generalize isLeapYear year = leap at hdays ⊢
  interval_cases month <;> cases leap <;> cases hdays <;> decide

theorem monthStart_december (hdays : daysInMonth year 12 = some days) :
    monthStart year 12 + days = daysInYear year := by
  unfold daysInMonth at hdays
  unfold monthStart daysInYear
  generalize isLeapYear year = leap at hdays ⊢
  cases leap <;> cases hdays <;> decide

theorem daysInMonth_le (hdays : daysInMonth year month = some days) : days ≤ 31 := by
  unfold daysInMonth at hdays
  split_ifs at hdays <;> cases hdays
  · decide
  · decide
  · split <;> decide

theorem IsDate.day_bounds (hdate : IsDate year month day) : 1 ≤ day ∧ day ≤ 31 := by
  obtain ⟨days, hdays, hle⟩ := hdate.day_le
  exact ⟨hdate.day_pos, hle.trans (daysInMonth_le hdays)⟩

theorem daysSinceEpoch_following {next : Int × Nat × Int} {after : Int}
    (hdate : IsDate year month day) (hnext : followingDate year month day = some next)
    (hdays : daysSinceEpoch year month day = some n)
    (hafter : daysSinceEpoch next.1 next.2.1 next.2.2 = some after) : after = n + 1 := by
  obtain ⟨days, hlength, hle⟩ := hdate.day_le
  have hyear := hdate.year_pos
  have hthis := daysSinceEpoch_eq hyear hdays
  rw [followingDate, hlength, map_some, some.injEq] at hnext
  by_cases hday : day < days
  · rw [if_pos hday] at hnext
    subst hnext
    have hthat := daysSinceEpoch_eq hyear hafter
    dsimp only at hthat
    omega
  · rw [if_neg hday] at hnext
    by_cases hmonth : month < 12
    · rw [if_pos hmonth] at hnext
      subst hnext
      have hthat := daysSinceEpoch_eq hyear hafter
      have hstart := monthStart_succ ⟨hdate.month_mem.1, hmonth⟩ hlength
      dsimp only at hthat
      omega
    · have hlast : month = 12 := by
        have hmax := hdate.month_mem.2
        omega
      subst hlast
      rw [if_neg hmonth] at hnext
      subst hnext
      have hthat := daysSinceEpoch_eq (by dsimp only; omega) hafter
      dsimp only at hthat
      have hend := monthStart_december hlength
      have hsucc := daysBefore_succ hyear
      have hfirst : monthStart (year + 1) 1 = 0 := by
        unfold monthStart
        rw [if_neg (by simp)]
        rfl
      rw [hsucc, hfirst] at hthat
      omega

/-- `day_of_week` is defined for every year up to the last whose days all fit. -/
theorem dayOfWeek_some (hyear : 1 ≤ year) (hmonth : 1 ≤ month ∧ month ≤ 12)
    (hday : 1 ≤ day ∧ day ≤ 31) (hmax : year ≤ 5881579) :
    (dayOfWeek year month day).isSome = true := by
  obtain ⟨shifted, hshifted, hbounds⟩ : ∃ shifted,
      (if month < 3 then int (year - 1) else some year) = some shifted ∧
        0 ≤ shifted ∧ shifted ≤ 5881579 := by
    by_cases hearly : month < 3
    · rw [if_pos hearly]
      exact ⟨year - 1, int_of_fits (by omega) (by omega), by omega, by omega⟩
    · rw [if_neg hearly]
      exact ⟨year, rfl, by omega, hmax⟩
  obtain ⟨seek, hseek⟩ : ∃ seek, weekTable[month - 1]? = some seek :=
    ⟨_, List.getElem?_eq_getElem (by rw [weekTable]; simp only [List.length]; omega)⟩
  have hseekBounds : 0 ≤ seek ∧ seek ≤ 6 :=
    (by decide : ∀ entry ∈ weekTable, 0 ≤ entry ∧ entry ≤ 6) seek (mem_of_getElem? hseek)
  rw [dayOfWeek, if_pos hmonth, hshifted]
  dsimp only [bind, Option.bind]
  rw [tdiv_eq_ediv_of_nonneg hbounds.1, tdiv_eq_ediv_of_nonneg hbounds.1,
    tdiv_eq_ediv_of_nonneg hbounds.1, int_of_fits (by omega) (by omega)]
  dsimp only
  rw [int_of_fits (by omega) (by omega)]
  dsimp only
  rw [int_of_fits (by omega) (by omega)]
  rw [hseek]
  dsimp only
  rw [int_of_fits (by omega) (by omega)]
  dsimp only
  rw [int_of_fits (by omega) (by omega)]
  rfl

/-- The date that follows is a date, up to the last whose days fit. -/
theorem IsDate.following (hdate : IsDate year month day) :
    ∃ next, followingDate year month day = some next ∧ IsDate next.1 next.2.1 next.2.2 ∧
      (next.1 = year ∨ (next.1 = year + 1 ∧ next.2.1 = 1 ∧ next.2.2 = 1)) := by
  obtain ⟨days, hlength, hle⟩ := hdate.day_le
  have hyear := hdate.year_pos
  have hmonths := hdate.month_mem
  have hpos := hdate.day_pos
  have hfirst : ∀ (year : Int) month, 1 ≤ month ∧ month ≤ 12 →
      ∃ days, daysInMonth year month = some days ∧ 1 ≤ days := by
    intro year month hmonth
    rw [daysInMonth, if_pos hmonth]
    by_cases hfebruary : month = 2
    · rw [if_pos hfebruary]
      exact ⟨_, rfl, by split <;> decide⟩
    · rw [if_neg hfebruary]
      exact ⟨_, rfl, by split <;> decide⟩
  rw [followingDate, hlength, map_some]
  by_cases hday : day < days
  · rw [if_pos hday]
    exact ⟨_, rfl, ⟨hyear, hmonths, by dsimp only; omega, days, hlength, hday⟩, .inl rfl⟩
  · rw [if_neg hday]
    by_cases hmonth : month < 12
    · rw [if_pos hmonth]
      exact ⟨_, rfl, ⟨hyear, by dsimp only; omega, le_refl 1, hfirst _ _ (by dsimp only; omega)⟩,
        .inl rfl⟩
    · rw [if_neg hmonth]
      exact ⟨_, rfl, ⟨by dsimp only; omega, by dsimp only; decide, le_refl 1,
        hfirst _ _ (by dsimp only; decide)⟩,
        .inr ⟨rfl, rfl, rfl⟩⟩

/-- The two ways of counting days agree for every date, and the date that follows is one day
later, wherever the numbers fit into an `int`; they do up to the year 5881579. -/
theorem calendar_agrees (hdate : IsDate year month day) :
    (∀ week days, dayOfWeek year month day = some week →
      daysSinceEpoch year month day = some days → (week : Int) ≡ days + 4 [ZMOD 7]) ∧
    (∃ next, followingDate year month day = some next ∧
      ∀ days after, daysSinceEpoch year month day = some days →
        daysSinceEpoch next.1 next.2.1 next.2.2 = some after → after = days + 1) ∧
    (year ≤ 5881579 → (dayOfWeek year month day).isSome = true ∧
      (daysSinceEpoch year month day).isSome = true ∧
      ∃ next, followingDate year month day = some next ∧
        (daysSinceEpoch next.1 next.2.1 next.2.2).isSome = true) := by
  obtain ⟨next, hnext, hnextDate, hnextYear⟩ := hdate.following
  refine ⟨fun week days hweek hdays => ?_, ⟨next, hnext, fun days after hdays hafter => ?_⟩,
    fun hmax => ⟨?_, ?_, next, hnext, ?_⟩⟩
  · have hepoch : daysBefore 1970 = 719162 := by decide
    have hday := hdate.day_bounds
    have hthis := daysSinceEpoch_eq hdate.year_pos hdays
    have hthat := dayOfWeek_eq hdate.year_pos hdate.month_mem (by omega) hweek
    rw [hepoch] at hthis
    rw [Int.ModEq, hthat, emod_emod_of_dvd _ (dvd_refl 7)]
    omega
  · exact daysSinceEpoch_following hdate hnext hdays hafter
  · exact dayOfWeek_some hdate.year_pos hdate.month_mem hdate.day_bounds hmax
  · exact daysSinceEpoch_some hdate.year_pos hdate.month_mem hdate.day_bounds (.inl hmax)
  · have hlast : next.1 ≤ 5881579 ∨ (next.1 = 5881580 ∧ next.2.1 = 1 ∧ next.2.2 = 1) := by
      rcases hnextYear with hsame | ⟨hsucc, hmonth, hday⟩
      · exact .inl (hsame.le.trans hmax)
      · omega
    exact daysSinceEpoch_some hnextDate.year_pos hnextDate.month_mem hnextDate.day_bounds hlast

/-- The leap day of 2000 is a Tuesday. -/
theorem calendar_agrees_leap : dayOfWeek 2000 2 29 = some 2 ∧
    daysSinceEpoch 2000 2 29 = some 11016 ∧ ((2 : Nat) : Int) ≡ 11016 + 4 [ZMOD 7] := by
  have hdate : IsDate 2000 2 29 := ⟨by decide, by decide, by decide, 29, by decide, by decide⟩
  exact ⟨by decide, by decide, (calendar_agrees hdate).1 2 11016 (by decide) (by decide)⟩

end Literate.AK
