import SolidDB.Dt.Tsadd
import Mathlib.Tactic.Ring

/-!
# Days back

The loop over years comes to the right year unless it starts at a leap day, which it takes for
a day that is 365 days after the same day of the year before. The loop over months reads the
length of December of the year zero as soon as it is in January of year 1.
-/

namespace SolidDB

open Ymd

variable {c : Ymd} {val y : ℤ} {fuel : ℕ}

theorem isLeap_iff (hge : 0 ≤ y) (hlt : y < 2 ^ 31) : isLeap y ↔ leapDay y = 1 :=
  isLeapYear_ne_zero_iff hge hlt

theorem leapBack_eq (hge : 1 ≤ c.year) (hlt : c.year < 2 ^ 31) :
    leapBack c = if 2 < c.month then leapDay c.year else leapDay (c.year - 1) := by
  have hyear := isLeap_iff (y := c.year) (by omega) hlt
  have hprev := isLeap_iff (y := c.year - 1) (by omega) (by omega)
  have hcases := leapDay_cases c.year
  have hcases' := leapDay_cases (c.year - 1)
  simp only [leapBack, hyear, hprev]
  split <;> split <;> omega

theorem dayNumber_year_pred (hge : 1 ≤ c.year) (hlt : c.year < 2 ^ 31) :
    dayNumber ⟨c.year - 1, c.month, c.mday⟩ = c.dayNumber - (365 + leapBack c) := by
  have hnext := dayNumber_year_succ ⟨c.year - 1, c.month, c.mday⟩
  simp only [sub_add_cancel] at hnext
  rw [leapBack_eq hge hlt]
  change c.dayNumber = _ at hnext
  split
  next h =>
    rw [if_neg (not_le.mpr h)] at hnext
    omega
  next h =>
    rw [if_pos (not_lt.mp h)] at hnext
    omega

/-- The loop over years from a day that is no leap day. -/
theorem backYears_spec (h : c.IsDay) (hleap : ¬ c.IsLeapDay) (hge : 1 ≤ c.year)
    (hlt : c.year < 2 ^ 31) (hval : 0 ≤ val) (hfuel : val < fuel) :
    backYears fuel c val = .failed ∧ c.dayNumber - val ≤ dayNumber ⟨0, c.month, c.mday⟩ ∨
      ∃ y val', backYears fuel c val = .done (⟨y, c.month, c.mday⟩, val') ∧ 1 ≤ y ∧ y ≤ c.year ∧
        0 ≤ val' ∧ dayNumber ⟨y, c.month, c.mday⟩ - val' = c.dayNumber - val ∧
        dayNumber ⟨y - 1, c.month, c.mday⟩ < c.dayNumber - val := by
  induction fuel generalizing c val with
  | zero => omega
  | succ fuel ih =>
      have hjump := dayNumber_year_pred (c := c) hge hlt
      have hdecr : mdayDecr c = 0 := if_neg hleap
      have hback : 0 ≤ leapBack c := by
        rw [leapBack]
        split
        · exact zero_le_one
        · split <;> decide
      rw [backYears, hdecr, add_zero]
      by_cases hjumps : 365 + leapBack c ≤ val
      · rw [if_pos hjumps]
        by_cases hfirst : c.year - 1 ≤ 0
        · have hzero : c.year - 1 = 0 := by omega
          rw [hzero] at hjump
          rw [if_pos hfirst]
          exact .inl ⟨rfl, by omega⟩
        · rw [if_neg hfirst]
          have hrest := ih (h.with_year hleap (c.year - 1)) hleap (by simp only; omega)
            (by simp only; omega) (show 0 ≤ val - (365 + leapBack c) by omega) (by omega)
          rw [hjump] at hrest
          simp only at hrest
          have hsame : c.dayNumber - (365 + leapBack c) - (val - (365 + leapBack c)) =
              c.dayNumber - val := by ring
          rw [hsame] at hrest
          rcases hrest with hfail | ⟨y, val', hrun, hy, hyle, hval', hnumber, hlow⟩
          · exact .inl hfail
          · exact .inr ⟨y, val', hrun, hy, by omega, hval', hnumber, hlow⟩
      · rw [if_neg hjumps]
        exact .inr ⟨c.year, val, rfl, hge, le_rfl, hval, rfl, by omega⟩

/-- The day at which the months come to January of year 1. -/
def januaryFloor (c : Ymd) : ℤ :=
  dayNumber ⟨1, 1, if c.year = 1 ∧ c.month = 1 then c.mday else min c.mday 28⟩

def prevMonth (c : Ymd) : ℤ × ℤ :=
  (if c.month = 1 then c.year - 1 else c.year, if c.month = 1 then 12 else c.month - 1)

theorem prevMonth_bounds (h : c.IsDay) : 1 ≤ (prevMonth c).2 ∧ (prevMonth c).2 ≤ 12 := by
  have hge := h.month_ge
  have hle := h.month_le
  simp only [prevMonth]
  split <;> omega

theorem dayNumber_prevMonth (h : c.IsDay) (d : ℤ) :
    dayNumber ⟨(prevMonth c).1, (prevMonth c).2, d⟩ =
      dayNumber ⟨c.year, c.month, d⟩ - monthLength (prevMonth c).1 (prevMonth c).2 := by
  rw [prevMonth]
  by_cases hjan : c.month = 1
  · have hyear := dayNumber_year_succ_january (c.year - 1) d
    have hdec : monthLength (c.year - 1) 12 = 31 := rfl
    rw [sub_add_cancel] at hyear
    rw [if_pos hjan, if_pos hjan, hjan, hyear, hdec]
    ring
  · have hge := h.month_ge
    have hle := h.month_le
    have hmonth := dayNumber_month_succ (y := c.year) (m := c.month - 1) (by omega) (by omega) d
    rw [sub_add_cancel] at hmonth
    rw [if_neg hjan, if_neg hjan, hmonth]
    ring

/-- A step of the months does not change where January of year 1 is reached. -/
theorem januaryFloor_prevMonth (h : c.IsDay)
    (hfirst : ¬ (c.year = 1 ∧ c.month = 1)) :
    januaryFloor ⟨(prevMonth c).1, (prevMonth c).2,
      min c.mday (monthLength (prevMonth c).1 (prevMonth c).2)⟩ = januaryFloor c := by
  have hb := monthLength_bounds (prevMonth c).1 (prevMonth c).2
  rw [januaryFloor, januaryFloor, if_neg hfirst]
  congr 2
  split
  next hjan =>
    have hyear : c.year = 1 ∧ c.month = 2 := by
      simp only [prevMonth] at hjan
      have hmge := h.month_ge
      split at hjan <;> omega
    have hle := h.mday_le
    have hfeb : monthLength 1 2 = 28 := rfl
    rw [hyear.1, hyear.2, hfeb] at hle
    simp only
    omega
  next hjan =>
    simp only
    omega

/-- The floor is in January, before the month after it. -/
theorem januaryFloor_lt (h : c.IsDay) (hge : 1 ≤ c.year) (hfirst : ¬ (c.year = 1 ∧ c.month = 1)) :
    januaryFloor c < dayNumber ⟨c.year, c.month, 1⟩ := by
  have hmge := h.month_ge
  have hday : IsDay ⟨c.year, c.month, 1⟩ := by
    have hb := monthLength_bounds c.year c.month
    exact ⟨h.month_ge, h.month_le, le_rfl, by simp only; omega⟩
  have hlast : IsDay ⟨1, 1, 31⟩ := ⟨le_rfl, by decide, by decide, le_rfl⟩
  have hbefore : Ymd.Before ⟨1, 1, 31⟩ ⟨c.year, c.month, 1⟩ := by
    simp only [Ymd.Before]
    omega
  have hlt := hbefore.dayNumber_lt hlast hday
  rw [dayNumber_first] at hlt
  rw [januaryFloor, if_neg hfirst, dayNumber_first]
  omega

theorem januaryFloor_le (h : c.IsDay) (hge : 1 ≤ c.year) : januaryFloor c ≤ c.dayNumber := by
  by_cases hfirst : c.year = 1 ∧ c.month = 1
  · have hc : c = ⟨1, 1, c.mday⟩ := Ymd.ext hfirst.1 hfirst.2 rfl
    rw [januaryFloor, if_pos hfirst, ← hc]
  · have hlt := januaryFloor_lt h hge hfirst
    have hmday := h.mday_ge
    rw [dayNumber_mk] at hlt
    rw [dayNumber]
    omega

theorem backMonths_succ {n : ℤ}
    (hread : readDaysInMonth (.ofInt (prevMonth c).1) (prevMonth c).2 = some n) :
    backMonths (fuel + 1) c val =
      if n ≤ val + (min c.mday n - c.mday) then
        if (prevMonth c).1 ≤ 0 then .failed
        else
          backMonths fuel ⟨(prevMonth c).1, (prevMonth c).2, min c.mday n⟩
            (val - n + (min c.mday n - c.mday))
      else if c.mday ≤ val then .done ⟨(prevMonth c).1, (prevMonth c).2, n - (val - c.mday)⟩
      else .done { c with mday := c.mday - val } := by
  have hdecr : (if n < c.mday then n - c.mday else 0) = min c.mday n - c.mday := by
    split <;> omega
  rw [prevMonth] at hread
  rw [backMonths]
  simp only [hread, hdecr, add_sub_cancel, prevMonth]
  rfl

theorem backMonths_spec (h : c.IsDay) (hge : 1 ≤ c.year) (hlt : c.year < 2 ^ 31) (hval : 0 ≤ val)
    (hfuel : val < fuel) :
    backMonths fuel c val = .undefined ∧ c.dayNumber - val ≤ januaryFloor c ∨
      ∃ c', backMonths fuel c val = .done c' ∧ c'.IsDay ∧ 1 ≤ c'.year ∧ c'.year ≤ c.year ∧
        c'.dayNumber = c.dayNumber - val ∧ januaryFloor c < c'.dayNumber := by
  induction fuel generalizing c val with
  | zero => omega
  | succ fuel ih =>
      by_cases hfirst : c.year = 1 ∧ c.month = 1
      · have hc : c = ⟨1, 1, c.mday⟩ := Ymd.ext hfirst.1 hfirst.2 rfl
        left
        constructor
        · simp only [backMonths, hfirst.1, hfirst.2, if_true, sub_self, readDaysInMonth_zero]
        · rw [januaryFloor, if_pos hfirst, ← hc]
          omega
      · have hmge := h.month_ge
        have hyear : 1 ≤ (prevMonth c).1 ∧ (prevMonth c).1 ≤ c.year := by
          simp only [prevMonth]
          split <;> omega
        have hmonth := prevMonth_bounds h
        have hread := readDaysInMonth_eq hyear.1 (by omega) hmonth.1 hmonth.2
        have hlen := monthLength_bounds (prevMonth c).1 (prevMonth c).2
        have hnumber (d : ℤ) : dayNumber ⟨(prevMonth c).1, (prevMonth c).2, d⟩ =
            c.dayNumber + (d - c.mday) - monthLength (prevMonth c).1 (prevMonth c).2 := by
          rw [dayNumber_prevMonth h, dayNumber_mk, dayNumber]
          omega
        have hfloor := januaryFloor_prevMonth h hfirst
        have hbelow := januaryFloor_lt h hge hfirst
        have hmday := h.mday_ge
        rw [backMonths_succ hread]
        generalize hn : monthLength (prevMonth c).1 (prevMonth c).2 = n at *
        generalize prevMonth c = p at *
        have hshort : IsDay ⟨p.1, p.2, min c.mday n⟩ :=
          ⟨hmonth.1, hmonth.2, by simp only; omega, by simp only [hn]; omega⟩
        by_cases hjump : n ≤ val + (min c.mday n - c.mday)
        · have hrest := ih hshort hyear.1 (by simp only; omega)
            (show 0 ≤ val - n + (min c.mday n - c.mday) by omega) (by omega)
          have hsame : dayNumber ⟨p.1, p.2, min c.mday n⟩ -
              (val - n + (min c.mday n - c.mday)) = c.dayNumber - val := by
            rw [hnumber]
            ring
          rw [hfloor, hsame] at hrest
          rw [if_pos hjump, if_neg (by omega)]
          rcases hrest with hundef | ⟨c', hrun, hday', hy, hyle, heq, hlow⟩
          · exact .inl hundef
          · exact .inr ⟨c', hrun, hday', hy, hyle.trans hyear.2, heq, hlow⟩
        · rw [if_neg hjump]
          right
          by_cases hprev : c.mday ≤ val
          · have hday : IsDay ⟨p.1, p.2, n - (val - c.mday)⟩ :=
              ⟨hmonth.1, hmonth.2, by simp only; omega, by simp only [hn]; omega⟩
            rw [if_pos hprev]
            refine ⟨_, rfl, hday, hyear.1, hyear.2, ?_, ?_⟩
            · rw [hnumber]
              ring
            · have hle := januaryFloor_le hshort hyear.1
              rw [hfloor, hnumber] at hle
              rw [hnumber]
              omega
          · rw [if_neg hprev]
            refine ⟨_, rfl, ⟨h.month_ge, h.month_le, by simp only; omega, ?_⟩, hge, le_rfl, ?_, ?_⟩
            · have hle := h.mday_le
              simp only
              omega
            · rw [dayNumber_mk, dayNumber]
              ring
            · rw [dayNumber_mk] at hbelow ⊢
              omega

/-! ## Both loops -/

/-- The day of January in which the search ends that comes from a day. -/
def januaryDay (c : Ymd) : ℤ := if c.month = 1 then c.mday else min c.mday 28

inductive BackEnds (c : Ymd) (number : ℤ) : TsResult Ymd → Prop where
  | failed (h : number ≤ dayNumber ⟨0, c.month, c.mday⟩) : BackEnds c number .failed
  | undefined (h : dayNumber ⟨0, c.month, c.mday⟩ < number) (h' : number ≤ januaryDay c) :
      BackEnds c number .undefined
  | done {c' : Ymd} (hday : c'.IsDay) (hge : 1 ≤ c'.year) (hle : c'.year ≤ c.year)
      (heq : c'.dayNumber = number) (hlow : januaryDay c < number) :
      BackEnds c number (.done c')

theorem dayNumber_year_mono (h : c.IsDay) (hleap : ¬ c.IsLeapDay) {y z : ℤ} (hle : y ≤ z) :
    dayNumber ⟨y, c.month, c.mday⟩ ≤ dayNumber ⟨z, c.month, c.mday⟩ := by
  rcases hle.eq_or_lt with rfl | hlt
  · exact le_rfl
  · have hbefore : Ymd.Before ⟨y, c.month, c.mday⟩ ⟨z, c.month, c.mday⟩ := .inl hlt
    exact (hbefore.dayNumber_lt (h.with_year hleap y) (h.with_year hleap z)).le

/-- Years do not change the day of January, as far as the search comes there. -/
theorem januaryFloor_iff (h : c.IsDay) (hleap : ¬ c.IsLeapDay) (hy : 1 ≤ y) {number : ℤ}
    (hlow : dayNumber ⟨y - 1, c.month, c.mday⟩ < number) :
    number ≤ januaryFloor ⟨y, c.month, c.mday⟩ ↔ number ≤ januaryDay c := by
  rw [januaryFloor, dayNumber_first, januaryDay]
  by_cases hjan : c.month = 1
  · by_cases hfirst : y = 1
    · rw [if_pos ⟨hfirst, hjan⟩, if_pos hjan]
    · have hmono := dayNumber_year_mono h hleap (y := 1) (z := y - 1) (by omega)
      have hnumber := dayNumber_first c.mday
      rw [hjan] at hmono hlow
      rw [if_neg fun hand => hfirst hand.1, if_pos hjan]
      dsimp only
      refine iff_of_false ?_ ?_
      all_goals omega
  · rw [if_neg fun hand => hjan hand.2, if_neg hjan]

theorem searchBack_spec (h : c.IsDay) (hleap : ¬ c.IsLeapDay) (hge : 1 ≤ c.year)
    (hlt : c.year < 2 ^ 31) (hval : 0 ≤ val) (hfuel : val < fuel) :
    BackEnds c (c.dayNumber - val)
      ((backYears fuel c val).bind fun r => backMonths (r.2.toNat + 1) r.1 r.2) := by
  rcases backYears_spec h hleap hge hlt hval hfuel with
    ⟨hfail, hlow⟩ | ⟨y, val', hrun, hy, hyle, hval', hnumber, hlow⟩
  · rw [hfail]
    exact .failed hlow
  · have hday := h.with_year hleap y
    have hfloor := januaryFloor_iff h hleap hy hlow
    have hmono := dayNumber_year_mono h hleap (y := 0) (z := y - 1) (by omega)
    have hmonths := backMonths_spec hday hy (hyle.trans_lt hlt) hval'
      (show val' < (val'.toNat + 1 : ℕ) by omega)
    rw [hnumber, hfloor] at hmonths
    rw [hrun]
    rcases hmonths with ⟨hundef, hle⟩ | ⟨c', hrun', hday', hy', hyle', heq, hlow'⟩
    · rw [TsResult.bind_done, hundef]
      exact .undefined (hmono.trans_lt hlow) hle
    · rw [TsResult.bind_done, hrun']
      refine .done hday' hy' (hyle'.trans hyle) heq ?_
      rw [heq, ← not_le, hfloor, not_le] at hlow'
      exact hlow'

/-- The search starts at a leap day and goes over a year. -/
def YearSlip (c : Ymd) (number : ℤ) : Prop := c.IsLeapDay ∧ number + 365 ≤ c.dayNumber

instance (c : Ymd) (number : ℤ) : Decidable (YearSlip c number) :=
  inferInstanceAs (Decidable (_ ∧ _))

theorem leapDay_of_isLeapDay (h : c.IsDay) (hleap : c.IsLeapDay) : leapDay c.year = 1 := by
  have hle := h.mday_le
  have hcases := leapDay_cases c.year
  rw [monthLength, hleap.1, hleap.2, if_pos rfl] at hle
  omega

theorem year_ge_of_isLeapDay (h : c.IsDay) (hleap : c.IsLeapDay) (hge : 1 ≤ c.year) :
    4 ≤ c.year ∧ leapDay (c.year - 1) = 0 := by
  have hyear := leapDay_of_isLeapDay h hleap
  have hcond : c.year % 4 = 0 := by
    rw [leapDay] at hyear
    split at hyear
    next hc => exact hc.1
    next => exact absurd hyear (by decide)
  refine ⟨by omega, ?_⟩
  rw [leapDay, if_neg]
  omega

theorem leapBack_of_isLeapDay (h : c.IsDay) (hleap : c.IsLeapDay) (hge : 1 ≤ c.year)
    (hlt : c.year < 2 ^ 31) : leapBack c = 0 := by
  have hmonth := hleap.1
  rw [leapBack_eq hge hlt, if_neg (by omega)]
  exact (year_ge_of_isLeapDay h hleap hge).2

/-- From a leap day less than a year back there is no jump over a year. -/
theorem dayCase_back_leapDay (h : c.IsDay) (hleap : c.IsLeapDay) (hge : 1 ≤ c.year)
    (hlt : c.year < 2 ^ 31) (hval : val < 0) (hnear : -365 < val) :
    BackEnds c (c.dayNumber + val) (dayCase val c) := by
  have hback := leapBack_of_isLeapDay h hleap hge hlt
  have hyears : backYears ((-val).toNat + 1) c (-val) = .done (c, -val) := by
    rw [backYears, hback, if_neg (by omega)]
  have hmonths := backMonths_spec h hge hlt (show 0 ≤ -val by omega)
    (show -val < ((-val).toNat + 1 : ℕ) by omega)
  have hjan : ¬ c.month = 1 := by
    have hmonth := hleap.1
    omega
  have hfloor : januaryFloor c = januaryDay c := by
    rw [januaryFloor, januaryDay, if_neg hjan, if_neg fun hand => hjan hand.2, dayNumber_first]
  have hyear := (year_ge_of_isLeapDay h hleap hge).1
  rw [sub_neg_eq_add, hfloor] at hmonths
  rw [dayCase, if_pos hval, hyears]
  rcases hmonths with ⟨hundef, hle⟩ | ⟨c', hrun, hday, hy, hyle, heq, hlow⟩
  · have hfar := (h.year_bounds).1
    have hmono := daysBeforeYear_mono hyear
    have hfour : daysBeforeYear 4 = 1095 := rfl
    rw [januaryDay, if_neg hjan] at hle
    omega
  · rw [TsResult.bind_done, hrun]
    rw [heq] at hlow
    exact .done hday hy hyle heq hlow

theorem dayCase_back_slip (h : c.IsDay) (hleap : c.IsLeapDay) (hge : 1 ≤ c.year)
    (hlt : c.year < 2 ^ 31) (hfar : val ≤ -365) :
    BackEnds ⟨c.year - 1, 2, 28⟩ (c.dayNumber + val - 1) (dayCase val c) := by
  have hback := leapBack_of_isLeapDay h hleap hge hlt
  have hyear := (year_ge_of_isLeapDay h hleap hge).1
  have hday : IsDay ⟨c.year - 1, 2, 28⟩ :=
    ⟨(show (1 : ℤ) ≤ 2 by decide), (show (2 : ℤ) ≤ 12 by decide), (show (1 : ℤ) ≤ 28 by decide),
      (monthLength_bounds _ _).1⟩
  have hyears : backYears ((-val).toNat + 1) c (-val) =
      backYears (-val).toNat ⟨c.year - 1, 2, 28⟩ (-val - 365) := by
    have hdecr : mdayDecr c = -1 := if_pos hleap
    rw [backYears, hback, if_pos (by omega), if_neg (by omega), hdecr, hleap.1, hleap.2, add_zero]
    rfl
  have hnumber : dayNumber ⟨c.year - 1, 2, 28⟩ = c.dayNumber - 366 := by
    have hnext := dayNumber_year_succ ⟨c.year - 1, 2, 28⟩
    have hzero := (year_ge_of_isLeapDay h hleap hge).2
    simp only [sub_add_cancel, hzero] at hnext
    rw [if_pos le_rfl, add_zero] at hnext
    have hc : c.dayNumber = dayNumber ⟨c.year, 2, 28⟩ + 1 := by
      rw [dayNumber, dayNumber_mk, hleap.1, hleap.2]
      omega
    omega
  have hspec := searchBack_spec hday (fun hand => absurd hand.2 (show ¬ (28 : ℤ) = 29 by decide))
    (by simp only; omega) (by simp only; omega) (show 0 ≤ -val - 365 by omega)
    (show -val - 365 < ((-val).toNat : ℕ) by omega)
  have hsame : c.dayNumber - 366 - (-val - 365) = c.dayNumber + val - 1 := by ring
  rw [hnumber, hsame] at hspec
  rw [dayCase, if_pos (by omega), hyears]
  exact hspec

theorem dayCase_back_near (h : c.IsDay) (hge : 1 ≤ c.year) (hlt : c.year < 2 ^ 31)
    (hval : val < 0) (hslip : ¬ YearSlip c (c.dayNumber + val)) :
    BackEnds c (c.dayNumber + val) (dayCase val c) := by
  by_cases hleap : c.IsLeapDay
  · have hnear : -365 < val := by
      by_contra hfar
      exact hslip ⟨hleap, by omega⟩
    exact dayCase_back_leapDay h hleap hge hlt hval hnear
  · have hspec := searchBack_spec h hleap hge hlt (show 0 ≤ -val by omega)
      (show -val < ((-val).toNat + 1 : ℕ) by omega)
    rw [sub_neg_eq_add] at hspec
    rw [dayCase, if_pos hval]
    exact hspec

theorem dayCase_back_isDay {c' : Ymd} (h : c.IsDay) (hge : 1 ≤ c.year) (hlt : c.year < 2 ^ 31)
    (hval : val < 0) (hdone : dayCase val c = .done c') :
    c'.IsDay ∧ 1 ≤ c'.year ∧ c'.year ≤ c.year := by
  by_cases hslip : YearSlip c (c.dayNumber + val)
  · have hfar := hslip.2
    have hends := dayCase_back_slip h hslip.1 hge hlt (show val ≤ -365 by omega)
    rw [hdone] at hends
    cases hends with
    | done hday hy hyle heq hlow => exact ⟨hday, hy, hyle.trans (Int.sub_le_self _ zero_le_one)⟩
  · have hends := dayCase_back_near h hge hlt hval hslip
    rw [hdone] at hends
    cases hends with
    | done hday hy hyle heq hlow => exact ⟨hday, hy, hyle⟩

/-! ## Exact moves -/

def MovesExactly (number : ℤ) : TsResult Ymd → Prop
  | .done c => c.IsDay ∧ 1 ≤ c.year ∧ c.year ≤ dateYearmax ∧ c.dayNumber = number
  | .failed => ∀ c : Ymd, c.IsDay → 1 ≤ c.year → c.year ≤ dateYearmax → c.dayNumber ≠ number
  | .undefined => False

/-- A move back does not start at a leap day and go over a year, and does not end between the
same day of year 0 and the day of January of year 1; a number that is not above the days of year
zero is rejected. -/
def BackSafe (c : Ymd) (number : ℤ) : Prop :=
  if YearSlip c number then number ≤ dayNumber ⟨0, 2, 29⟩
  else number ≤ dayNumber ⟨0, c.month, c.mday⟩ ∨ januaryDay c < number

instance (c : Ymd) (number : ℤ) : Decidable (BackSafe c number) :=
  inferInstanceAs (Decidable (if YearSlip c number then number ≤ dayNumber ⟨0, 2, 29⟩
    else number ≤ dayNumber ⟨0, c.month, c.mday⟩ ∨ januaryDay c < number))

/-- The year zero has every day, and its days have no positive numbers. -/
theorem dayNumber_zero_le (h : c.IsDay) : dayNumber ⟨0, c.month, c.mday⟩ ≤ 0 := by
  have hday : IsDay ⟨0, c.month, c.mday⟩ := by
    have hle := h.mday_le
    have hcases := leapDay_cases c.year
    have hzero : leapDay 0 = 1 := rfl
    refine ⟨h.month_ge, h.month_le, h.mday_ge, ?_⟩
    simp only [monthLength, hzero] at hle ⊢
    split <;> split at hle <;> omega
  have hpos := hday.dayNumber_pos_iff
  by_contra hlt
  exact absurd (hpos.mp (not_le.mp hlt)) (show ¬ (1 : ℤ) ≤ 0 by decide)

theorem movesExactly_failed {number : ℤ} (h : number ≤ 0) : MovesExactly number .failed := by
  intro c' hday hge _ heq
  have hpos := hday.dayNumber_pos_iff.mpr hge
  omega

/-- A move back is exact when it is safe, and never otherwise. -/
theorem dayCase_back_iff (h : c.IsDay) (hge : 1 ≤ c.year) (hle : c.year ≤ dateYearmax)
    (hval : val < 0) :
    MovesExactly (c.dayNumber + val) (dayCase val c) ↔ BackSafe c (c.dayNumber + val) := by
  have hlt : c.year < 2 ^ 31 := by
    rw [dateYearmax] at hle
    omega
  rw [BackSafe]
  by_cases hslip : YearSlip c (c.dayNumber + val)
  · have hfar : val ≤ -365 := by
      have hslip' := hslip.2
      omega
    have hends := dayCase_back_slip h hslip.1 hge hlt hfar
    have hzero : dayNumber ⟨0, 2, 28⟩ + 1 = dayNumber ⟨0, 2, 29⟩ := rfl
    have hneg : dayNumber ⟨0, 2, 29⟩ ≤ 0 := by decide
    rw [if_pos hslip]
    generalize dayCase val c = r at hends ⊢
    cases hends with
    | failed hlow =>
        dsimp only at hlow
        exact iff_of_true (movesExactly_failed (by omega)) (by omega)
    | undefined hlow hhigh =>
        dsimp only at hlow
        exact iff_of_false id (by omega)
    | done hday hy hyle heq hlow =>
        have hjan : januaryDay ⟨c.year - 1, 2, 28⟩ = 28 := rfl
        refine iff_of_false (fun hexact => ?_) (by omega)
        have hsame := hexact.2.2.2
        omega
  · have hends := dayCase_back_near h hge hlt hval hslip
    have hzero := dayNumber_zero_le h
    rw [if_neg hslip]
    generalize dayCase val c = r at hends ⊢
    cases hends with
    | failed hlow => exact iff_of_true (movesExactly_failed (hlow.trans hzero)) (.inl hlow)
    | undefined hlow hhigh => exact iff_of_false id (by omega)
    | done hday hy hyle heq hlow =>
        exact iff_of_true ⟨hday, hy, hyle.trans hle, heq⟩ (.inr hlow)

end SolidDB
