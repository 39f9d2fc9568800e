import Mathlib.Data.Int.Basic
import SolidDB.Foundation.Calendar

/-!
# Years and months

The leap years and the lengths of the months of `sstime.h`, computed in `uint`.
-/

namespace SolidDB

section

def ssTimeLeapsBeforeThis (year : UInt32) : UInt32 :=
  (year - 1) / 4 - (year - 1) / 100 + (year - 1) / 400

def ssTimeIsLeapYear (year : UInt32) : UInt32 :=
  ssTimeLeapsBeforeThis (year + 1) - ssTimeLeapsBeforeThis year

def ssTimeDaysinmonths : List (List ℤ) :=
  [[31, 28, 31, 30, 31, 30, 31, 31, 30, 31, 30, 31],
    [31, 29, 31, 30, 31, 30, 31, 31, 30, 31, 30, 31]]

def ssTimeDaysInMonth (year : UInt32) (month : ℤ) : ℤ :=
  (ssTimeDaysinmonths.getD (ssTimeIsLeapYear year).toNat []).getD (month - 1).toNat 0

/-- An entry of a table of months, `none` for an index outside of the table. -/
def readMonth (table : List (List ℤ)) (year : UInt32) (month : ℤ) : Option ℤ :=
  if 1 ≤ month then
    table[(ssTimeIsLeapYear year).toNat]?.bind fun row => row[(month - 1).toNat]?
  else none

/-- `SsTimeDaysInMonth` where an index can be outside of the table. -/
def readDaysInMonth (year : UInt32) (month : ℤ) : Option ℤ :=
  readMonth ssTimeDaysinmonths year month

def ssTimeMonthdaysum : List (List ℤ) :=
  [[0, 31, 59, 90, 120, 151, 181, 212, 243, 273, 304, 334, 9999],
    [0, 31, 60, 91, 121, 152, 182, 213, 244, 274, 305, 335, 9999]]

def ssTimeDayOfYear (year : UInt32) (month mday : ℤ) : Option ℤ :=
  (readMonth ssTimeMonthdaysum year month).map (· + mday)

end

/-!
## The tables of months and the calendar

For the years that fit into an `int` the macros of `sstime.h` are the Gregorian calendar. The
year zero counts as a leap year, but its row is outside of the tables.
-/

section

variable {y m : ℤ}

theorem toNat_ofInt_year (hge : 0 ≤ y) (hlt : y < 2 ^ 32) :
    ((UInt32.ofInt y).toNat : ℤ) = y := by
  rw [UInt32.ofInt, UInt32.toNat_ofNat']
  omega

theorem leapsBeforeThis_eq (hge : 1 ≤ y) (hlt : y < 2 ^ 32) :
    ((ssTimeLeapsBeforeThis (.ofInt y)).toNat : ℤ) = daysBeforeYear y - 365 * (y - 1) := by
  have hyear := toNat_ofInt_year (y := y) (by omega) hlt
  simp only [ssTimeLeapsBeforeThis, UInt32.toNat_add, UInt32.toNat_sub, UInt32.toNat_div,
    UInt32.reduceToNat, daysBeforeYear]
  omega

theorem isLeapYear_eq (hge : 1 ≤ y) (hlt : y < 2 ^ 31) :
    ((ssTimeIsLeapYear (.ofInt y)).toNat : ℤ) = leapDay y := by
  have hone : UInt32.ofInt y + 1 = UInt32.ofInt (y + 1) := by
    rw [UInt32.ofInt_add, UInt32.ofInt_one]
  have hyear := leapsBeforeThis_eq hge (by omega)
  have hnext := leapsBeforeThis_eq (y := y + 1) (by omega) (by omega)
  have hlow := (ssTimeLeapsBeforeThis (.ofInt y)).toNat_lt
  have hcases := leapDay_cases y
  rw [daysBeforeYear_succ] at hnext
  rw [ssTimeIsLeapYear, hone, UInt32.toNat_sub]
  omega

/-- The row of the tables for a year and its leap days. -/
theorem isLeapYear_cases (hge : 1 ≤ y) (hlt : y < 2 ^ 31) :
    (ssTimeIsLeapYear (.ofInt y)).toNat = 0 ∧ leapDay y = 0 ∨
      (ssTimeIsLeapYear (.ofInt y)).toNat = 1 ∧ leapDay y = 1 := by
  have hleap := isLeapYear_eq hge hlt
  have hcases := leapDay_cases y
  omega

/-- The test for a leap year is right for the year zero too. -/
theorem isLeapYear_ne_zero_iff (hge : 0 ≤ y) (hlt : y < 2 ^ 31) :
    ssTimeIsLeapYear (.ofInt y) ≠ 0 ↔ leapDay y = 1 := by
  rcases hge.eq_or_lt with rfl | hpos
  · decide
  · have hleap := isLeapYear_eq hpos hlt
    have hcases := leapDay_cases y
    rw [ne_eq, ← UInt32.toNat_inj, UInt32.toNat_zero]
    omega

theorem readDaysInMonth_eq (hge : 1 ≤ y) (hlt : y < 2 ^ 31) (hmge : 1 ≤ m) (hmle : m ≤ 12) :
    readDaysInMonth (.ofInt y) m = some (monthLength y m) := by
  rw [readDaysInMonth, readMonth, if_pos hmge, monthLength]
  rcases isLeapYear_cases hge hlt with ⟨hindex, hzero⟩ | ⟨hindex, hone⟩
  · rw [hindex, hzero]
    interval_cases m <;> rfl
  · rw [hindex, hone]
    interval_cases m <;> rfl

theorem readDaysInMonth_zero (m : ℤ) : readDaysInMonth (.ofInt 0) m = none := by
  have hrow : ssTimeDaysinmonths[(ssTimeIsLeapYear (.ofInt 0)).toNat]? = none := by decide
  rw [readDaysInMonth, readMonth, hrow]
  split
  · rfl
  · rfl

theorem ssTimeDaysInMonth_eq (hge : 1 ≤ y) (hlt : y < 2 ^ 31) (hmge : 1 ≤ m) (hmle : m ≤ 12) :
    ssTimeDaysInMonth (.ofInt y) m = monthLength y m := by
  rw [ssTimeDaysInMonth, monthLength]
  rcases isLeapYear_cases hge hlt with ⟨hindex, hzero⟩ | ⟨hindex, hone⟩
  · rw [hindex, hzero]
    interval_cases m <;> rfl
  · rw [hindex, hone]
    interval_cases m <;> rfl

theorem ssTimeDayOfYear_eq (hge : 1 ≤ y) (hlt : y < 2 ^ 31) (hmge : 1 ≤ m) (hmle : m ≤ 12)
    (d : ℤ) : ssTimeDayOfYear (.ofInt y) m d = some (daysBeforeMonth y m + d) := by
  rw [ssTimeDayOfYear, readMonth, if_pos hmge, daysBeforeMonth]
  rcases isLeapYear_cases hge hlt with ⟨hindex, hzero⟩ | ⟨hindex, hone⟩
  · rw [hindex, hzero]
    interval_cases m <;> rfl
  · rw [hindex, hone]
    interval_cases m <;> rfl

end

end SolidDB
