import SolidDB.Dt.TsaddBack
import Mathlib.Tactic.Linarith

/-!
# Days forward

The search for a later day is exact, also from leap days. Amounts that go over the last year
end with `FALSE`.
-/

namespace SolidDB

open Ymd

variable {c : Ymd} {val y m : ℤ} {fuel : ℕ}

theorem leapForward_cases (c : Ymd) : leapForward c = 0 ∨ leapForward c = 1 := by
  rw [leapForward]
  split
  · exact .inl rfl
  · split
    · exact .inr rfl
    · split
      · exact .inr rfl
      · exact .inl rfl

theorem leapForward_eq (hleap : ¬ c.IsLeapDay) (hge : 1 ≤ c.year) (hlt : c.year + 1 < 2 ^ 31) :
    leapForward c = if c.month ≤ 2 then leapDay c.year else leapDay (c.year + 1) := by
  have hyear := isLeap_iff (y := c.year) (by omega) (by omega)
  have hnext := isLeap_iff (y := c.year + 1) (by omega) hlt
  have hcases := leapDay_cases c.year
  have hcases' := leapDay_cases (c.year + 1)
  have hleap' : ¬ (c.month = 2 ∧ c.mday = 29) := hleap
  simp only [leapForward, hyear, hnext, hleap', if_false]
  split
  next hfirst =>
    rw [if_pos hfirst.1, hfirst.2]
  next hfirst =>
    split <;> split <;> omega

def nextYear (c : Ymd) : Ymd := ⟨c.year + 1, c.month, c.mday + mdayDecr c⟩

theorem nextYear_spec (h : c.IsDay) (hge : 1 ≤ c.year) (hlt : c.year + 1 < 2 ^ 31) :
    (nextYear c).IsDay ∧ (nextYear c).dayNumber = c.dayNumber + (365 + leapForward c) := by
  have hnext := dayNumber_year_succ c
  by_cases hleap : c.IsLeapDay
  · have hdecr : mdayDecr c = -1 := if_pos hleap
    have hzero : leapForward c = 0 := if_pos hleap
    have hyear := leapDay_of_isLeapDay h hleap
    have hfeb := hleap.1
    rw [nextYear, hdecr, hzero]
    refine ⟨⟨h.month_ge, h.month_le, ?_, ?_⟩, ?_⟩
    · have hday := hleap.2
      simp only
      omega
    · have hb := monthLength_bounds (c.year + 1) c.month
      have hday := hleap.2
      simp only
      omega
    · rw [if_pos (by omega), hyear, dayNumber_mk] at hnext
      rw [dayNumber_mk]
      omega
  · have hdecr : mdayDecr c = 0 := if_neg hleap
    rw [nextYear, hdecr, add_zero, leapForward_eq hleap hge hlt]
    exact ⟨h.with_year hleap (c.year + 1), by rw [hnext, add_assoc]⟩

theorem forwardYears_done (hval : 0 ≤ val) (hfuel : val < fuel) :
    ∃ c' val', forwardYears fuel c val = .done (c', val') ∧ c.year ≤ c'.year := by
  induction fuel generalizing c val with
  | zero => omega
  | succ fuel ih =>
      have hcases := leapForward_cases c
      rw [forwardYears]
      split
      next hjump =>
        obtain ⟨c', val', hrun, hle⟩ := ih (c := nextYear c)
          (show 0 ≤ val - (365 + leapForward c) by omega) (by omega)
        exact ⟨c', val', hrun, (Int.le_add_one le_rfl).trans hle⟩
      next => exact ⟨c, val, rfl, le_rfl⟩

/-- The loop over years comes to a day of the stored years, or goes over them. -/
theorem forwardYears_spec (h : c.IsDay) (hge : 1 ≤ c.year) (hle : c.year ≤ dateYearmax)
    (hval : 0 ≤ val) (hfuel : val < fuel) :
    ∃ c' val', forwardYears fuel c val = .done (c', val') ∧
      (c'.year ≤ dateYearmax ∧ c'.IsDay ∧ c.year ≤ c'.year ∧ 0 ≤ val' ∧ val' < 366 ∧
          c'.dayNumber + val' = c.dayNumber + val ∨
        dateYearmax < c'.year ∧ daysBeforeYear (dateYearmax + 1) < c.dayNumber + val) := by
  induction fuel generalizing c val with
  | zero => omega
  | succ fuel ih =>
      have hcases := leapForward_cases c
      have hlt : c.year + 1 < 2 ^ 31 := by
        rw [dateYearmax] at hle
        omega
      obtain ⟨hday, hnumber⟩ := nextYear_spec h hge hlt
      rw [forwardYears]
      by_cases hjump : 365 + leapForward c ≤ val
      · have hfuel' : val - (365 + leapForward c) < fuel := by omega
        have hyear : (nextYear c).year = c.year + 1 := rfl
        have hsame : (nextYear c).dayNumber + (val - (365 + leapForward c)) =
            c.dayNumber + val := by
          rw [hnumber]
          ring
        rw [if_pos hjump]
        by_cases hlast : c.year + 1 ≤ dateYearmax
        · obtain ⟨c', val', hrun, hend⟩ :=
            ih hday (by omega) hlast (show 0 ≤ val - (365 + leapForward c) by omega) hfuel'
          rw [hsame] at hend
          refine ⟨c', val', hrun, hend.imp (fun hin => ?_) id⟩
          exact ⟨hin.1, hin.2.1, by omega, hin.2.2.2⟩
        · obtain ⟨c', val', hrun, hgrow⟩ := forwardYears_done (c := nextYear c)
            (show 0 ≤ val - (365 + leapForward c) by omega) hfuel'
          refine ⟨c', val', hrun, .inr ⟨by omega, ?_⟩⟩
          have hb := hday.year_bounds
          have hmax : (nextYear c).year = dateYearmax + 1 := by omega
          rw [hmax] at hb
          omega
      · rw [if_neg hjump]
        exact ⟨c, val, rfl, .inl ⟨hle, h, le_rfl, hval, by omega, rfl⟩⟩

theorem forwardMonths_spec (hge : 1 ≤ y) (hmge : 1 ≤ m) (hmle : m ≤ 12) (hval : 1 ≤ val)
    (hlt : y + val < 2 ^ 31) (hfuel : val < fuel) :
    ∃ c', forwardMonths fuel y m val = .done c' ∧ c'.IsDay ∧ y ≤ c'.year ∧
      c'.dayNumber = dayNumber ⟨y, m, val⟩ := by
  induction fuel generalizing y m val with
  | zero => omega
  | succ fuel ih =>
      have hread := readDaysInMonth_eq hge (by omega) hmge hmle
      have hb := monthLength_bounds y m
      simp only [forwardMonths, hread]
      split
      next hjump =>
        split
        next hlast =>
          obtain ⟨c', hrun, hday, hyear, hnumber⟩ := ih (y := y + 1) (m := 1) (by omega) le_rfl
            (by decide) (show 1 ≤ val - monthLength y m by omega) (by omega) (by omega)
          refine ⟨c', hrun, hday, by omega, ?_⟩
          have hdec : m = 12 := by omega
          have hlen : monthLength y 12 = 31 := rfl
          rw [hnumber, dayNumber_year_succ_january, hdec, hlen, dayNumber_mk, dayNumber_mk]
          ring
        next hmore =>
          obtain ⟨c', hrun, hday, hyear, hnumber⟩ := ih (y := y) (m := m + 1) hge (by omega)
            (by omega) (show 1 ≤ val - monthLength y m by omega) (by omega) (by omega)
          refine ⟨c', hrun, hday, hyear, ?_⟩
          rw [hnumber, dayNumber_month_succ hmge hmle, dayNumber_mk, dayNumber_mk]
          ring
      next hend => exact ⟨_, rfl, ⟨hmge, hmle, hval, not_lt.mp hend⟩, le_rfl, rfl⟩

theorem movesExactly_over {number : ℤ} (h : daysBeforeYear (dateYearmax + 1) < number) :
    MovesExactly number .failed := by
  intro c' hday _ hle heq
  have hb := hday.year_bounds
  have hmono := daysBeforeYear_mono (y := c'.year + 1) (z := dateYearmax + 1) (by omega)
  omega

theorem dayCase_forward (h : c.IsDay) (hge : 1 ≤ c.year) (hle : c.year ≤ dateYearmax)
    (hval : 0 ≤ val) : MovesExactly (c.dayNumber + val) (dayCase val c) := by
  obtain ⟨c₁, val₁, hrun, hend⟩ := forwardYears_spec h hge hle hval
    (show val < (val.toNat + 1 : ℕ) by omega)
  rw [dayCase, if_neg (by omega), hrun, TsResult.bind_done]
  rcases hend with ⟨hyear, hday, hgrow, hval₁, hsmall, hsame⟩ | ⟨hyear, hover⟩
  · have hmday := hday.mday_ge
    have hb := monthLength_bounds c₁.year c₁.month
    have hmday' := hday.mday_le
    have hmax : dateYearmax < 2 ^ 16 := by decide
    obtain ⟨c', hrun', hday', hgrow', hnumber⟩ := forwardMonths_spec
      (show 1 ≤ c₁.year by omega) hday.month_ge hday.month_le
      (show 1 ≤ val₁ + c₁.mday by omega) (by omega)
      (show val₁ + c₁.mday < ((val₁ + c₁.mday).toNat + 1 : ℕ) by omega)
    have htotal : c'.dayNumber = c.dayNumber + val := by
      rw [hnumber, ← hsame, dayNumber_mk, dayNumber]
      ring
    rw [if_neg (not_lt.mpr hyear), hrun', TsResult.bind_done]
    split
    next hover =>
      refine movesExactly_over ?_
      have hbounds := hday'.year_bounds
      have hmono := daysBeforeYear_mono (y := dateYearmax + 1) (z := c'.year) hover
      omega
    next hin => exact ⟨hday', by omega, not_lt.mp hin, htotal⟩
  · rw [if_pos hyear]
    exact movesExactly_over hover

end SolidDB

/-!
## Carries

The fall-through chain spreads an amount over the fields of the time, rounding down for
negative amounts too, and leaves a number of days.
-/

namespace SolidDB

variable {base field val lend : ℤ} {f : TsFields} {r : TsResult TsFields}

/-- A carry is a division with the remainder in the field. A lend is only left with a negative
amount. -/
theorem carryField_spec (hge : 0 ≤ field) (hlt : field < base) (hlend : val < 0 ∨ lend = 0) :
    0 ≤ (carryField base field val lend).1 ∧ (carryField base field val lend).1 < base ∧
      (carryField base field val lend).2.1 * base + (carryField base field val lend).1 =
        val + field ∧
      ((carryField base field val lend).2.1 ≤ 0 ∨ (carryField base field val lend).2.2 = 0) := by
  have hpos : 0 < base := hge.trans_lt hlt
  rw [carryField]
  by_cases hval : val < 0
  · have hneg : val.tdiv base = -((-val) / base) := by
      rw [← Int.tdiv_eq_ediv_of_nonneg (by omega), Int.neg_tdiv, neg_neg]
    have hquot : 0 ≤ -val / base := Int.ediv_nonneg (by omega) hpos.le
    have hrem := Int.emod_nonneg (-val) hpos.ne'
    have hrem' := Int.emod_lt_of_pos (-val) hpos
    have hdiv := Int.mul_ediv_add_emod (-val) base
    rw [if_pos hval, Int.tmod_eq_emod_of_nonneg (by omega), hneg]
    generalize -val / base = q at *
    generalize -val % base = t at *
    by_cases hborrow : field - t < 0
    · simp only [hborrow, if_true]
      exact ⟨by omega, by omega, by linarith, .inl (by omega)⟩
    · simp only [hborrow, if_false]
      exact ⟨by omega, by omega, by linarith, .inl (by omega)⟩
  · have hzero : lend = 0 := hlend.resolve_left hval
    have hrem := Int.emod_nonneg (val + field) hpos.ne'
    have hrem' := Int.emod_lt_of_pos (val + field) hpos
    have hdiv := Int.mul_ediv_add_emod (val + field) base
    rw [if_neg hval, Int.tmod_eq_emod_of_nonneg (by omega),
      Int.tdiv_eq_ediv_of_nonneg (by omega), hzero]
    exact ⟨hrem, hrem', by linarith, .inr rfl⟩

/-- The result is that of adding days to fields with a time, which together are the total
of nanoseconds since the midnight before. -/
def AddsDays (f : TsFields) (total : ℤ) (r : TsResult TsFields) : Prop :=
  ∃ (k : ℤ) (f' : TsFields), (r = dayFields k f' ∨ k = 0 ∧ r = .done f') ∧ f'.ymd = f.ymd ∧
    f'.IsTime ∧ k * dayNanos + f'.nanos = total

theorem dayFields_adds (h : f.IsTime) (val : ℤ) :
    AddsDays f (f.nanos + val * dayNanos) (dayFields val f) :=
  ⟨val, f, .inl rfl, rfl, h, add_comm _ _⟩

theorem hourCase_adds (h : f.IsTime) (hlend : val < 0 ∨ lend = 0) :
    AddsDays f (f.nanos + val * 3600000000000) (hourCase val lend f) := by
  obtain ⟨hge, hlt, hsum, -⟩ := carryField_spec h.hour_ge h.hour_lt hlend
  have htime : TsFields.IsTime { f with hour := (carryField 24 f.hour val lend).1 } :=
    ⟨hge, hlt, h.minute_ge, h.minute_lt, h.sec_ge, h.sec_lt, h.fraction_ge, h.fraction_lt⟩
  refine ⟨(carryField 24 f.hour val lend).2.1,
    { f with hour := (carryField 24 f.hour val lend).1 }, ?_, rfl, htime, ?_⟩
  · rw [hourCase]
    split
    next hzero => exact .inr ⟨hzero, rfl⟩
    next => exact .inl rfl
  · simp only [TsFields.nanos, dayNanos]
    omega

theorem AddsDays.of_fields {f₁ : TsFields} {total total₁ : ℤ} (h : AddsDays f₁ total₁ r)
    (hymd : f₁.ymd = f.ymd) (htotal : total₁ = total) : AddsDays f total r := by
  obtain ⟨k, f', hr, hymd', htime, hsum⟩ := h
  exact ⟨k, f', hr, hymd'.trans hymd, htime, hsum.trans htotal⟩

theorem addsDays_done {total : ℤ} {f₁ : TsFields} (htime : f₁.IsTime) (hymd : f₁.ymd = f.ymd)
    (htotal : f₁.nanos = total) : AddsDays f total (.done f₁) := by
  refine ⟨0, f₁, .inr ⟨rfl, rfl⟩, hymd, htime, ?_⟩
  rw [zero_mul, zero_add, htotal]

theorem minuteCase_adds (h : f.IsTime) (hlend : val < 0 ∨ lend = 0) :
    AddsDays f (f.nanos + val * 60000000000) (minuteCase val lend f) := by
  obtain ⟨hge, hlt, hsum, hnext⟩ := carryField_spec h.minute_ge h.minute_lt hlend
  have htime : TsFields.IsTime { f with minute := (carryField 60 f.minute val lend).1 } :=
    ⟨h.hour_ge, h.hour_lt, hge, hlt, h.sec_ge, h.sec_lt, h.fraction_ge, h.fraction_lt⟩
  rw [minuteCase]
  split
  next hzero =>
    refine addsDays_done htime rfl ?_
    rw [hzero] at hsum
    simp only [TsFields.nanos]
    omega
  next hne =>
    refine (hourCase_adds htime (by omega)).of_fields rfl ?_
    simp only [TsFields.nanos]
    omega

theorem secondCase_adds (h : f.IsTime) (hlend : val < 0 ∨ lend = 0) :
    AddsDays f (f.nanos + val * 1000000000) (secondCase val lend f) := by
  obtain ⟨hge, hlt, hsum, hnext⟩ := carryField_spec h.sec_ge h.sec_lt hlend
  have htime : TsFields.IsTime { f with sec := (carryField 60 f.sec val lend).1 } :=
    ⟨h.hour_ge, h.hour_lt, h.minute_ge, h.minute_lt, hge, hlt, h.fraction_ge, h.fraction_lt⟩
  rw [secondCase]
  split
  next hzero =>
    refine addsDays_done htime rfl ?_
    rw [hzero] at hsum
    simp only [TsFields.nanos]
    omega
  next hne =>
    refine (minuteCase_adds htime (by omega)).of_fields rfl ?_
    simp only [TsFields.nanos]
    omega

theorem borrowSeconds_spec {fuel : ℕ} (hfuel : -val < fuel) (hpos : 0 < fuel) :
    ∃ val' lend', borrowSeconds fuel val lend = .done (val', lend') ∧ 0 ≤ val' ∧
      val' + lend' * 1000000000 = val + lend * 1000000000 ∧ lend' ≤ lend ∧
      (val < 1000000000 → val' < 1000000000) := by
  induction fuel generalizing val lend with
  | zero => exact absurd hpos (lt_irrefl 0)
  | succ fuel ih =>
      rw [borrowSeconds]
      split
      next hneg =>
        obtain ⟨val', lend', hrun, hge, hsum, hle, hlt⟩ :=
          ih (show -(val + 1000000000) < fuel by omega) (by omega)
        exact ⟨val', lend', hrun, hge, by omega, by omega, fun _ => hlt (by omega)⟩
      next hge => exact ⟨val, lend, rfl, not_lt.mp hge, rfl, le_rfl, id⟩

theorem fracCase_adds (h : f.IsTime) : AddsDays f (f.nanos + val) (fracCase val f) := by
  have hge := h.fraction_ge
  have hlt := h.fraction_lt
  have hborrow : ∃ val' lend', (if val < 0 then
        borrowSeconds ((-(val + f.fraction)).toNat + 1) (val + f.fraction) 0
      else .done (val + f.fraction, 0)) = TsResult.done (val', lend') ∧ 0 ≤ val' ∧
      val' + lend' * 1000000000 = val + f.fraction ∧
      (lend' = 0 ∨ lend' < 0 ∧ val' < 1000000000) := by
    by_cases hval : val < 0
    · obtain ⟨val', lend', hrun, hge', hsum, hle, hlt'⟩ := borrowSeconds_spec
        (show -(val + f.fraction) < ((-(val + f.fraction)).toNat + 1 : ℕ) by omega)
        (Nat.succ_pos _)
      rw [if_pos hval]
      exact ⟨val', lend', hrun, hge', by omega, by omega⟩
    · rw [if_neg hval]
      exact ⟨_, 0, rfl, by omega, by omega, .inl rfl⟩
  obtain ⟨val', lend', hrun, hge', hsum, hlend⟩ := hborrow
  have htime : TsFields.IsTime { f with fraction := val'.tmod 1000000000 } := by
    rw [Int.tmod_eq_emod_of_nonneg hge']
    exact ⟨h.hour_ge, h.hour_lt, h.minute_ge, h.minute_lt, h.sec_ge, h.sec_lt,
      Int.emod_nonneg _ (by decide), Int.emod_lt_of_pos _ (by decide)⟩
  have hdiv : val'.tdiv 1000000000 = val' / 1000000000 := Int.tdiv_eq_ediv_of_nonneg hge'
  have hmod : val'.tmod 1000000000 = val' % 1000000000 := Int.tmod_eq_emod_of_nonneg hge'
  rw [fracCase, hrun, TsResult.bind_done]
  dsimp only
  split
  next hzero =>
    refine addsDays_done htime rfl ?_
    simp only [TsFields.nanos]
    omega
  next hne =>
    refine (secondCase_adds htime (by omega)).of_fields rfl ?_
    simp only [TsFields.nanos]
    omega

/-! ## The units that are a number of nanoseconds -/

def unitNanos : DtDateTsiunit → Option ℤ
  | .fracSecond => some 1
  | .second => some 1000000000
  | .minute => some 60000000000
  | .hour => some 3600000000000
  | .day => some dayNanos
  | .week => some (7 * dayNanos)
  | .month => none
  | .quarter => none
  | .year => none

theorem tsaddFields_adds {unit : DtDateTsiunit} {u : ℤ} (hunit : unitNanos unit = some u)
    (h : f.IsTime) : AddsDays f (f.nanos + val * u) (tsaddFields unit val f) := by
  have hlend (val : ℤ) : val < 0 ∨ (0 : ℤ) = 0 := .inr rfl
  cases unit with
  | fracSecond =>
      obtain rfl := Option.some.inj hunit
      rw [mul_one]
      exact fracCase_adds h
  | second =>
      obtain rfl := Option.some.inj hunit
      exact secondCase_adds h (hlend val)
  | minute =>
      obtain rfl := Option.some.inj hunit
      exact minuteCase_adds h (hlend val)
  | hour =>
      obtain rfl := Option.some.inj hunit
      exact hourCase_adds h (hlend val)
  | day =>
      obtain rfl := Option.some.inj hunit
      exact dayFields_adds h val
  | week =>
      obtain rfl := Option.some.inj hunit
      rw [← mul_assoc]
      exact dayFields_adds h (val * 7)
  | month | quarter | year => exact absurd hunit.symm (Option.some_ne_none u)

/-! ## Exact instants -/

/-- The result has the instant, and no legal fields have it where it is `FALSE`. -/
def AddsExactly (total : ℤ) : TsResult TsFields → Prop
  | .done f => f.Legal ∧ f.instant = total
  | .failed => ∀ f : TsFields, f.Legal → f.instant ≠ total
  | .undefined => False

def MoveSafe (c : Ymd) (number : ℤ) : Prop := c.dayNumber ≤ number ∨ BackSafe c number

instance (c : Ymd) (number : ℤ) : Decidable (MoveSafe c number) :=
  inferInstanceAs (Decidable (_ ∨ _))

theorem dayCase_iff {c : Ymd} (h : c.IsDay) (hge : 1 ≤ c.year) (hle : c.year ≤ dateYearmax)
    (val : ℤ) : MovesExactly (c.dayNumber + val) (dayCase val c) ↔
      MoveSafe c (c.dayNumber + val) := by
  by_cases hval : val < 0
  · rw [dayCase_back_iff h hge hle hval, MoveSafe]
    exact ⟨.inr, fun hsafe => hsafe.resolve_left (by omega)⟩
  · exact iff_of_true (dayCase_forward h hge hle (not_lt.mp hval)) (.inl (by omega))

theorem dayCase_isDay {c c' : Ymd} (h : c.IsDay) (hge : 1 ≤ c.year) (hle : c.year ≤ dateYearmax)
    {val : ℤ} (hdone : dayCase val c = .done c') :
    c'.IsDay ∧ 1 ≤ c'.year ∧ c'.year ≤ dateYearmax := by
  by_cases hval : val < 0
  · have hmax : dateYearmax < 2 ^ 31 := by decide
    have hback := dayCase_back_isDay h hge (by omega) hval hdone
    exact ⟨hback.1, hback.2.1, hback.2.2.trans hle⟩
  · have hforward := dayCase_forward h hge hle (not_lt.mp hval)
    rw [hdone] at hforward
    exact ⟨hforward.1, hforward.2.1, hforward.2.2.1⟩

theorem TsFields.IsTime.with_ymd (h : f.IsTime) (c : Ymd) : IsTime { f with ymd := c } :=
  ⟨h.1, h.2, h.3, h.4, h.5, h.6, h.7, h.8⟩

theorem addsExactly_dayFields {f : TsFields} (htime : f.IsTime) (number : ℤ)
    (r : TsResult Ymd) :
    AddsExactly (number * dayNanos + f.nanos) (r.bind fun c => .done { f with ymd := c }) ↔
      MovesExactly number r := by
  have hge := htime.nanos_ge
  have hlt := htime.nanos_lt
  cases r with
  | done c =>
      rw [TsResult.bind_done, AddsExactly, MovesExactly]
      have hinstant : TsFields.instant { f with ymd := c } = c.dayNumber * dayNanos + f.nanos :=
        rfl
      rw [hinstant]
      constructor
      · rintro ⟨hlegal, heq⟩
        refine ⟨hlegal.isDay, hlegal.year_ge, hlegal.year_le, ?_⟩
        rw [dayNanos] at heq
        omega
      · rintro ⟨hday, hyear, hmax, heq⟩
        refine ⟨⟨hday, htime.with_ymd c, hyear, hmax⟩, ?_⟩
        rw [heq]
  | failed =>
      rw [TsResult.bind_failed, AddsExactly, MovesExactly]
      constructor
      · intro hnone c hday hyear hmax heq
        refine hnone { f with ymd := c } ⟨hday, htime.with_ymd c, hyear, hmax⟩ ?_
        rw [TsFields.instant, heq]
        rfl
      · intro hnone f' hlegal heq
        refine hnone f'.ymd hlegal.isDay hlegal.year_ge hlegal.year_le ?_
        have hdiv := hlegal.isTime.instant_div.1
        rw [heq] at hdiv
        rw [← hdiv]
        rw [dayNanos] at hlt ⊢
        omega
  | undefined => exact Iff.rfl

theorem tsaddFields_legal {unit : DtDateTsiunit} {u : ℤ} (hunit : unitNanos unit = some u)
    (h : f.Legal) {f₁ : TsFields} (hdone : tsaddFields unit val f = .done f₁) : f₁.Legal := by
  have hadds : AddsDays f (f.nanos + val * u) (tsaddFields unit val f) :=
    tsaddFields_adds hunit h.isTime
  obtain ⟨k, f', hr, hymd, htime, -⟩ := hadds
  rcases hr with hr | ⟨-, hr⟩
  · rw [hdone, dayFields, hymd] at hr
    cases hday : dayCase k f.ymd with
    | done c =>
        rw [hday, TsResult.bind_done] at hr
        obtain rfl := TsResult.done.inj hr
        obtain ⟨hisDay, hge, hle⟩ := dayCase_isDay h.isDay h.year_ge h.year_le hday
        exact ⟨hisDay, htime.with_ymd c, hge, hle⟩
    | failed =>
        rw [hday, TsResult.bind_failed] at hr
        cases hr
    | undefined =>
        rw [hday, TsResult.bind_undefined] at hr
        cases hr
  · rw [hdone] at hr
    obtain rfl := TsResult.done.inj hr
    exact ⟨hymd ▸ h.isDay, htime, hymd ▸ h.year_ge, hymd ▸ h.year_le⟩

/-- Adding a number of nanoseconds is exact when the move of the day is safe. -/
theorem tsaddFields_iff {unit : DtDateTsiunit} {u : ℤ} (hunit : unitNanos unit = some u)
    (h : f.Legal) : AddsExactly (f.instant + val * u) (tsaddFields unit val f) ↔
      MoveSafe f.ymd ((f.instant + val * u) / dayNanos) := by
  have hadds : AddsDays f (f.nanos + val * u) (tsaddFields unit val f) :=
    tsaddFields_adds hunit h.isTime
  obtain ⟨k, f', hr, hymd, htime, hsum⟩ := hadds
  have hge := htime.nanos_ge
  have hlt := htime.nanos_lt
  have htotal : f.instant + val * u = (f.ymd.dayNumber + k) * dayNanos + f'.nanos := by
    rw [TsFields.instant, add_assoc, ← hsum]
    ring
  have hnumber : (f.instant + val * u) / dayNanos = f.ymd.dayNumber + k := by
    rw [htotal]
    rw [dayNanos] at hlt ⊢
    omega
  rw [hnumber, htotal]
  rcases hr with hr | ⟨hzero, hr⟩
  · rw [hr, dayFields, hymd, addsExactly_dayFields htime,
      dayCase_iff h.isDay h.year_ge h.year_le]
  · rw [hr, hzero, add_zero]
    refine iff_of_true ⟨⟨hymd ▸ h.isDay, htime, hymd ▸ h.year_ge, hymd ▸ h.year_le⟩, ?_⟩
      (.inl le_rfl)
    rw [TsFields.instant, hymd]

end SolidDB
