import Mathlib.Tactic.Common
import Mathlib.Tactic.IntervalCases
import Mathlib.Order.Basic
import Mathlib.Algebra.Order.Ring.Int

/-!
# The proleptic Gregorian calendar

Days are numbered from the first day of year 1, which has the number one. The numbers order
the days, and the next day, month and year are where the calendar says.
-/

namespace SolidDB

@[ext] structure Ymd where
  year : ℤ
  month : ℤ
  mday : ℤ
  deriving DecidableEq

def leapDay (y : ℤ) : ℤ := if y % 4 = 0 ∧ (y % 100 ≠ 0 ∨ y % 400 = 0) then 1 else 0

def monthLength (y m : ℤ) : ℤ :=
  if m = 2 then 28 + leapDay y
  else if m = 4 ∨ m = 6 ∨ m = 9 ∨ m = 11 then 30
  else 31

def daysBeforeYear (y : ℤ) : ℤ :=
  365 * (y - 1) + (y - 1) / 4 - (y - 1) / 100 + (y - 1) / 400

def daysBeforeMonth (y m : ℤ) : ℤ :=
  if m ≤ 2 then 31 * (m - 1) else 59 + leapDay y + (153 * (m - 3) + 2) / 5

namespace Ymd

structure IsDay (c : Ymd) : Prop where
  month_ge : 1 ≤ c.month
  month_le : c.month ≤ 12
  mday_ge : 1 ≤ c.mday
  mday_le : c.mday ≤ monthLength c.year c.month

def dayNumber (c : Ymd) : ℤ := daysBeforeYear c.year + daysBeforeMonth c.year c.month + c.mday

def IsLeapDay (c : Ymd) : Prop := c.month = 2 ∧ c.mday = 29

instance (c : Ymd) : Decidable c.IsLeapDay := inferInstanceAs (Decidable (_ ∧ _))

def Before (c c' : Ymd) : Prop :=
  c.year < c'.year ∨ c.year = c'.year ∧
    (c.month < c'.month ∨ c.month = c'.month ∧ c.mday < c'.mday)

end Ymd

variable {y m : ℤ} {c c' : Ymd}

theorem leapDay_cases (y : ℤ) : leapDay y = 0 ∨ leapDay y = 1 := by
  rw [leapDay]
  split
  · exact .inr rfl
  · exact .inl rfl

/-! ## Years and months -/

theorem daysBeforeYear_succ (y : ℤ) :
    daysBeforeYear (y + 1) = daysBeforeYear y + 365 + leapDay y := by
  rw [daysBeforeYear, daysBeforeYear, leapDay]
  split <;> omega

theorem daysBeforeYear_mono {y z : ℤ} (h : y ≤ z) : daysBeforeYear y ≤ daysBeforeYear z := by
  rw [daysBeforeYear, daysBeforeYear]
  omega

@[simp] theorem daysBeforeMonth_one (y : ℤ) : daysBeforeMonth y 1 = 0 := rfl

theorem daysBeforeMonth_succ (hge : 1 ≤ m) (hle : m ≤ 12) :
    daysBeforeMonth y (m + 1) = daysBeforeMonth y m + monthLength y m := by
  generalize hleap : leapDay y = leap
  simp only [daysBeforeMonth, monthLength, hleap]
  interval_cases m
  all_goals norm_num
  all_goals omega

theorem daysBeforeMonth_mono {m n : ℤ} (hge : 1 ≤ m) (h : m ≤ n) :
    daysBeforeMonth y m ≤ daysBeforeMonth y n := by
  have hleap := leapDay_cases y
  rw [daysBeforeMonth, daysBeforeMonth]
  split <;> split <;> omega

theorem daysBeforeMonth_thirteen (y : ℤ) : daysBeforeMonth y 13 = 365 + leapDay y := by
  rw [daysBeforeMonth, if_neg (by decide)]
  omega

theorem monthLength_bounds (y m : ℤ) : 28 ≤ monthLength y m ∧ monthLength y m ≤ 31 := by
  have hleap := leapDay_cases y
  rw [monthLength]
  split
  · omega
  · split <;> omega

namespace Ymd

theorem dayNumber_mk (y m d : ℤ) :
    dayNumber ⟨y, m, d⟩ = daysBeforeYear y + daysBeforeMonth y m + d := rfl

@[simp] theorem dayNumber_first (d : ℤ) : dayNumber ⟨1, 1, d⟩ = d := by
  have hyear : daysBeforeYear 1 = 0 := rfl
  rw [dayNumber_mk, hyear, daysBeforeMonth_one, zero_add, zero_add]

/-- The day before the first one of a month is the last one of the month before. -/
theorem dayNumber_month_succ (hge : 1 ≤ m) (hle : m ≤ 12) (d : ℤ) :
    dayNumber ⟨y, m + 1, d⟩ = dayNumber ⟨y, m, d⟩ + monthLength y m := by
  rw [dayNumber_mk, dayNumber_mk, daysBeforeMonth_succ hge hle]
  omega

theorem dayNumber_year_succ_january (y d : ℤ) :
    dayNumber ⟨y + 1, 1, d⟩ = dayNumber ⟨y, 12, d⟩ + 31 := by
  have hdec := daysBeforeMonth_succ (y := y) (m := 12) (by decide) (by decide)
  have hlen : monthLength y 12 = 31 := rfl
  have hyear : daysBeforeMonth y (12 + 1) = 365 + leapDay y := daysBeforeMonth_thirteen y
  rw [dayNumber_mk, dayNumber_mk, daysBeforeYear_succ, daysBeforeMonth_one]
  omega

/-- The same day of the next year, with the leap day that lies between. -/
theorem dayNumber_year_succ (c : Ymd) :
    dayNumber ⟨c.year + 1, c.month, c.mday⟩ =
      c.dayNumber + 365 + (if c.month ≤ 2 then leapDay c.year else leapDay (c.year + 1)) := by
  rw [dayNumber_mk, dayNumber, daysBeforeYear_succ, daysBeforeMonth, daysBeforeMonth]
  split <;> omega

theorem IsDay.with_year (h : c.IsDay) (hleap : ¬ c.IsLeapDay) (y : ℤ) :
    IsDay ⟨y, c.month, c.mday⟩ := by
  have hle := h.mday_le
  have hcases := leapDay_cases y
  have hcases' := leapDay_cases c.year
  refine ⟨h.month_ge, h.month_le, h.mday_ge, ?_⟩
  simp only [monthLength] at hle ⊢
  by_cases hfeb : c.month = 2
  · have hne : c.mday ≠ 29 := fun hd => hleap ⟨hfeb, hd⟩
    rw [if_pos hfeb] at hle ⊢
    omega
  · rw [if_neg hfeb] at hle ⊢
    exact hle

/-! ## The order of the days -/

theorem IsDay.bounds (h : c.IsDay) :
    daysBeforeYear c.year + daysBeforeMonth c.year c.month < c.dayNumber ∧
      c.dayNumber ≤ daysBeforeYear c.year + daysBeforeMonth c.year (c.month + 1) := by
  have hge := h.mday_ge
  have hle := h.mday_le
  rw [daysBeforeMonth_succ h.month_ge h.month_le, dayNumber]
  omega

theorem IsDay.year_bounds (h : c.IsDay) :
    daysBeforeYear c.year < c.dayNumber ∧ c.dayNumber ≤ daysBeforeYear (c.year + 1) := by
  have hb := h.bounds
  have hfirst := daysBeforeMonth_mono (y := c.year) (m := 1) (n := c.month) le_rfl h.month_ge
  have hle := h.month_le
  have hlast := daysBeforeMonth_mono (y := c.year) (m := c.month + 1) (n := 13)
    (h.month_ge.trans (by omega)) (by omega)
  rw [daysBeforeMonth_one] at hfirst
  rw [daysBeforeMonth_thirteen] at hlast
  rw [daysBeforeYear_succ]
  omega

theorem IsDay.dayNumber_pos_iff (h : c.IsDay) : 0 < c.dayNumber ↔ 1 ≤ c.year := by
  have hone : daysBeforeYear 1 = 0 := rfl
  have hb := h.year_bounds
  constructor
  · intro hpos
    by_contra hyear
    have hmono := daysBeforeYear_mono (y := c.year + 1) (z := 1) (by omega)
    omega
  · intro hyear
    have hmono := daysBeforeYear_mono hyear
    omega

theorem Before.dayNumber_lt (h : c.IsDay) (h' : c'.IsDay) (hlt : c.Before c') :
    c.dayNumber < c'.dayNumber := by
  rcases hlt with hyear | ⟨hyear, hmonth | ⟨hmonth, hmday⟩⟩
  · have hmono := daysBeforeYear_mono (y := c.year + 1) (z := c'.year) hyear
    have hb := h.year_bounds
    have hb' := h'.year_bounds
    omega
  · have hmono := daysBeforeMonth_mono (y := c'.year) (m := c.month + 1) (n := c'.month)
      (h.month_ge.trans (by omega)) hmonth
    have hb := h.bounds
    have hb' := h'.bounds
    rw [hyear] at hb
    omega
  · rw [dayNumber, dayNumber, hyear, hmonth]
    omega

theorem before_trichotomy (c c' : Ymd) : c.Before c' ∨ c = c' ∨ c'.Before c := by
  rw [Before, Before, Ymd.ext_iff]
  omega

theorem dayNumber_lt_iff (h : c.IsDay) (h' : c'.IsDay) :
    c.dayNumber < c'.dayNumber ↔ c.Before c' := by
  refine ⟨fun hlt => ?_, fun hlt => hlt.dayNumber_lt h h'⟩
  rcases before_trichotomy c c' with hbefore | rfl | hafter
  · exact hbefore
  · exact absurd hlt (lt_irrefl _)
  · exact absurd (hafter.dayNumber_lt h' h) hlt.not_gt

theorem dayNumber_injective (h : c.IsDay) (h' : c'.IsDay) (heq : c.dayNumber = c'.dayNumber) :
    c = c' := by
  rcases before_trichotomy c c' with hbefore | hsame | hafter
  · exact absurd heq (hbefore.dayNumber_lt h h').ne
  · exact hsame
  · exact absurd heq (hafter.dayNumber_lt h' h).ne'

theorem exists_isDay_succ (n : ℕ) :
    ∃ c : Ymd, c.IsDay ∧ 1 ≤ c.year ∧ c.dayNumber = n + 1 := by
  induction n with
  | zero =>
      refine ⟨⟨1, 1, 1⟩, ⟨le_rfl, by decide, le_rfl, by decide⟩, le_rfl, ?_⟩
      rw [dayNumber_first]
      rfl
  | succ n ih =>
      obtain ⟨⟨y, m, d⟩, ⟨hmge, hmle, hdge, hdle⟩, hyear, hnum⟩ := ih
      simp only at hmge hmle hdge hdle hyear
      by_cases hlast : d < monthLength y m
      · refine ⟨⟨y, m, d + 1⟩, ⟨hmge, hmle, by simp only; omega, by simp only; omega⟩, hyear, ?_⟩
        rw [dayNumber_mk] at hnum ⊢
        push_cast
        omega
      · have hd : d = monthLength y m := by omega
        have hlen := monthLength_bounds
        by_cases hdec : m = 12
        · refine ⟨⟨y + 1, 1, 1⟩, ⟨le_rfl, by simp only; decide, le_rfl, ?_⟩, by simp only; omega,
            ?_⟩
          · have hjan := hlen (y + 1) 1
            simp only
            omega
          · have hlength : monthLength y 12 = 31 := rfl
            rw [dayNumber_year_succ_january]
            rw [hdec, dayNumber_mk] at hnum
            rw [dayNumber_mk]
            rw [hdec, hlength] at hd
            push_cast
            omega
        · refine ⟨⟨y, m + 1, 1⟩, ⟨by simp only; omega, by simp only; omega, le_rfl, ?_⟩, hyear, ?_⟩
          · have hnext := hlen y (m + 1)
            simp only
            omega
          · rw [dayNumber_month_succ hmge hmle]
            rw [dayNumber_mk] at hnum ⊢
            push_cast
            omega

end Ymd

end SolidDB
