import SolidDB.Dt.TsaddExact

/-!
# The difference of timestamps in units

`dt_date_tsdiff_new`. Up to weeks the nanoseconds between the dates are divided by the length of
the unit; months, quarters and years are counted in the fields. The result is the greatest
amount that `dt_date_tsadd` can add to the earlier date without passing the later one.
-/

namespace SolidDB

open SsInt8 Ymd

def tsdiffDiv : DtDateTsiunit → SsInt8
  | .minute => (ssInt8MultiplyByInt2 (ssInt8SetInt4 1000000000) 60).2
  | .hour => (ssInt8MultiplyByInt2 (ssInt8SetInt4 1000000000) (60 * 60)).2
  | .day => (ssInt8MultiplyByInt2
      (ssInt8MultiplyByInt2 (ssInt8SetInt4 1000000000) (60 * 60)).2 24).2
  | .week => (ssInt8MultiplyByInt2
      (ssInt8MultiplyByInt2 (ssInt8SetInt4 1000000000) (60 * 60)).2 (24 * 7)).2
  | _ => ssInt8SetInt4 1000000000

/-- `SsInt8DivideByInt8` in place; a divisor of zero leaves the result as it is. -/
def divideInPlace (result div : SsInt8) : SsInt8 := (ssInt8DivideByInt8 result div).getD result

/-- Whether the comparisons of the days and times come to `dec_diff`. -/
def decDiff (mday1 : ℤ) (d1 d2 : DtDate) : Bool :=
  if d2.mday < mday1 then true
  else if mday1 < d2.mday then false
  else if d2.hour < d1.hour then true
  else if d1.hour < d2.hour then false
  else if d2.min < d1.min then true
  else if d1.min < d2.min then false
  else if d2.sec < d1.sec then true
  else if d1.sec < d2.sec then false
  else d2.fraction < d1.fraction

/-- The number of months between the dates, in four bytes; `none` where the length of the month
is read outside of the table. -/
def tsdiffMonths (d1 d2 : DtDate) : Option ℕ :=
  (readDaysInMonth (.ofInt d2.year) d2.month).map fun daysinmonth2 =>
    let month2 := if d2.month < d1.month then d2.month + 12 else d2.month
    let year2 := if d2.month < d1.month then d2.year - 1 else d2.year
    let diff := toUnsigned (toUnsigned (month2 - d1.month) + (year2 - d1.year) * 12)
    let mday1 := if daysinmonth2 < d1.mday then daysinmonth2 else d1.mday
    if decDiff mday1 d1 d2 then toUnsigned (diff - 1) else diff

def setUint4 (diff : ℕ) : SsInt8 := ssInt8SetInt4 ((diff : ℤ).bmod (2 ^ 32))

/-- The `switch` over the units, for dates in ascending order. The call for the quarters finds
the dates in this order again. -/
def tsdiffCase (unit : DtDateTsiunit) (d1 d2 : DtDate) : TsResult SsInt8 :=
  match unit with
  | .fracSecond => dateSubstractGreater1st d2 d1
  | .second | .minute | .hour | .day | .week =>
    (dateSubstractGreater1st d2 d1).bind fun r => .done (divideInPlace r (tsdiffDiv unit))
  | .month =>
    match tsdiffMonths d1 d2 with
    | none => .undefined
    | some diff => .done (setUint4 diff)
  | .quarter =>
    match tsdiffMonths d1 d2 with
    | none => .undefined
    | some diff => .done (divideInPlace (setUint4 diff) (ssInt8SetInt4 3))
  | .year =>
    match tsdiffMonths d1 d2 with
    | none => .undefined
    | some diff => .done (setUint4 (diff / 12))

def dtDateTsdiffNew (unit : DtDateTsiunit) (d1 d2 : DtDate) : TsResult SsInt8 :=
  let comp := dtDateCmp d1 d2
  if comp = 0 then .done (.set2U4 0 0)
  else if 0 < comp then (tsdiffCase unit d2 d1).bind fun r => .done (ssInt8Negate r).2
  else tsdiffCase unit d1 d2

/-! ## Adding months -/

section Months

variable {c : Ymd} {f f1 f2 : TsFields} {unit : DtDateTsiunit} {n k : ℤ}

def monthNumber (c : Ymd) : ℤ := 12 * c.year + (c.month - 1)

/-- The day of the month that comes `n` months later, clipped to the length of the month. -/
def addMonths (c : Ymd) (n : ℤ) : Ymd where
  year := (monthNumber c + n) / 12
  month := (monthNumber c + n) % 12 + 1
  mday := min c.mday (monthLength ((monthNumber c + n) / 12) ((monthNumber c + n) % 12 + 1))

def unitMonths : DtDateTsiunit → Option ℤ
  | .month => some 1
  | .quarter => some 3
  | .year => some 12
  | _ => none

theorem yearCase_eq (hmge : 1 ≤ c.month) (hmle : c.month ≤ 12) (hge : 1 ≤ c.year + n) :
    yearCase n c = if dateYearmax < c.year + n then .failed
      else .done ⟨c.year + n, c.month, min c.mday (monthLength (c.year + n) c.month)⟩ := by
  have hmax : dateYearmax < 2 ^ 31 := by decide
  rw [yearCase]
  split
  next hover => rw [if_pos (hover.resolve_right (by omega))]
  next hover =>
    have hclip (len : ℤ) : (if len < c.mday then len else c.mday) = min c.mday len := by
      split <;> omega
    rw [if_neg fun h => hover (.inl h), readDaysInMonth_eq hge (by omega) hmge hmle]
    simp only [hclip]

theorem monthCase_eq (h : c.IsDay) (hge : 1 ≤ c.year) (hn : 0 ≤ n) :
    monthCase n c = if dateYearmax < (addMonths c n).year then .failed
      else .done (addMonths c n) := by
  have hmge := h.month_ge
  have hmle := h.month_le
  have hyear : (addMonths c n).year = c.year + (n + (c.month - 1)) / 12 := by
    simp only [addMonths, monthNumber]
    omega
  have hmonth : (addMonths c n).month = (n + (c.month - 1)) % 12 + 1 := by
    simp only [addMonths, monthNumber]
    omega
  have hadd : addMonths c n = ⟨(addMonths c n).year, (addMonths c n).month,
      min c.mday (monthLength (addMonths c n).year (addMonths c n).month)⟩ := rfl
  rw [monthCase, if_neg (by omega)]
  simp only
  rw [Int.tdiv_eq_ediv_of_nonneg (by omega), Int.tmod_eq_emod_of_nonneg (by omega),
    yearCase_eq (by simp only; omega) (by simp only; omega) (by simp only; omega)]
  simp only
  rw [← hyear, ← hmonth, ← hadd]

theorem yearCase_months (h : c.IsDay) (hge : 1 ≤ c.year) (hn : 0 ≤ n) :
    yearCase n c = if dateYearmax < (addMonths c (n * 12)).year then .failed
      else .done (addMonths c (n * 12)) := by
  have hmge := h.month_ge
  have hmle := h.month_le
  have hyear : (addMonths c (n * 12)).year = c.year + n := by
    simp only [addMonths, monthNumber]
    omega
  have hmonth : (addMonths c (n * 12)).month = c.month := by
    simp only [addMonths, monthNumber]
    omega
  have hadd : addMonths c (n * 12) = ⟨(addMonths c (n * 12)).year, (addMonths c (n * 12)).month,
      min c.mday (monthLength (addMonths c (n * 12)).year (addMonths c (n * 12)).month)⟩ := rfl
  rw [yearCase_eq hmge hmle (by omega), hadd, hyear, hmonth]

theorem addMonths_isDay (h : c.IsDay) (hge : 1 ≤ c.year) (hn : 0 ≤ n) :
    (addMonths c n).IsDay ∧ 1 ≤ (addMonths c n).year := by
  have hmge := h.month_ge
  have hdge := h.mday_ge
  have hlen := monthLength_bounds ((monthNumber c + n) / 12) ((monthNumber c + n) % 12 + 1)
  refine ⟨⟨?_, ?_, ?_, min_le_right _ _⟩, ?_⟩
  · simp only [addMonths]
    omega
  · simp only [addMonths]
    omega
  · simp only [addMonths]
    omega
  · simp only [addMonths, monthNumber]
    omega

/-- The switch of `dt_date_tsadd` for the units that are a number of months. -/
theorem tsaddFields_months (hunit : unitMonths unit = some k) (h : f.Legal) (hn : 0 ≤ n) :
    tsaddFields unit n f = if dateYearmax < (addMonths f.ymd (n * k)).year then .failed
      else .done { f with ymd := addMonths f.ymd (n * k) } := by
  have hbind (b : Prop) [Decidable b] (c : Ymd) :
      ymdFields (if b then .failed else .done c) f =
        if b then .failed else .done { f with ymd := c } := by
    split <;> rfl
  cases unit with
  | month =>
      obtain rfl := Option.some.inj hunit
      rw [tsaddFields, monthCase_eq h.isDay h.year_ge hn, mul_one, hbind]
  | quarter =>
      obtain rfl := Option.some.inj hunit
      rw [tsaddFields, monthCase_eq h.isDay h.year_ge (by omega), hbind]
  | year =>
      obtain rfl := Option.some.inj hunit
      rw [tsaddFields, yearCase_months h.isDay h.year_ge hn, hbind]
  | _ => exact absurd hunit.symm (Option.some_ne_none k)

/-! ## Counting months -/

/-- The months between two dates: one less where the day and time of the earlier date, in the
month of the later one, are behind it. -/
def monthDiff (f1 f2 : TsFields) : ℤ :=
  monthNumber f2.ymd - monthNumber f1.ymd -
    if f2.ymd.mday < min f1.ymd.mday (monthLength f2.ymd.year f2.ymd.month) ∨
        f2.ymd.mday = min f1.ymd.mday (monthLength f2.ymd.year f2.ymd.month) ∧
          f2.nanos < f1.nanos then 1 else 0

/-- As many months as are between the dates can be added without passing the later one. -/
theorem le_monthDiff_iff (h1 : f1.Legal) (h2 : f2.Legal) (hn : 0 ≤ n) :
    n ≤ monthDiff f1 f2 ↔ (addMonths f1.ymd n).year ≤ dateYearmax ∧
      TsFields.instant { f1 with ymd := addMonths f1.ymd n } ≤ f2.instant := by
  obtain ⟨hisDay, hyear⟩ := addMonths_isDay h1.isDay h1.year_ge hn
  have hmax := h2.year_le
  have hmge := h2.isDay.month_ge
  have hmle := h2.isDay.month_le
  by_cases hover : dateYearmax < (addMonths f1.ymd n).year
  · refine iff_of_false (fun hle => ?_) fun h => absurd h.1 (not_le.mpr hover)
    rw [monthDiff] at hle
    simp only [addMonths, monthNumber] at hover hle
    split at hle <;> omega
  · have hlegal : TsFields.Legal { f1 with ymd := addMonths f1.ymd n } :=
      ⟨hisDay, h1.isTime.with_ymd _, hyear, not_lt.mp hover⟩
    have hsame (ht : monthNumber f1.ymd + n = monthNumber f2.ymd) :
        (addMonths f1.ymd n).mday = min f1.ymd.mday (monthLength f2.ymd.year f2.ymd.month) := by
      have hy : monthNumber f2.ymd / 12 = f2.ymd.year := by
        rw [monthNumber]
        omega
      have hm : monthNumber f2.ymd % 12 + 1 = f2.ymd.month := by
        rw [monthNumber]
        omega
      rw [addMonths, ht, hy, hm]
    have hnanos : TsFields.nanos { f1 with ymd := addMonths f1.ymd n } = f1.nanos := rfl
    have hay : (addMonths f1.ymd n).year = (monthNumber f1.ymd + n) / 12 := rfl
    have ham : (addMonths f1.ymd n).month = (monthNumber f1.ymd + n) % 12 + 1 := rfl
    have hnum : monthNumber f2.ymd = 12 * f2.ymd.year + (f2.ymd.month - 1) := rfl
    rw [and_iff_right (not_lt.mp hover), ← not_lt, ← not_lt, h2.instant_lt_iff hlegal, hnanos,
      Ymd.Before, Ymd.ext_iff, hay, ham, monthDiff]
    refine not_congr ?_
    rcases lt_trichotomy (monthNumber f1.ymd + n) (monthNumber f2.ymd) with hlt | heq | hgt
    · split <;> omega
    · rw [hsame heq]
      split <;> omega
    · split <;> omega

end Months

section Diff

variable {now d1 d2 : DtDate} {unit : DtDateTsiunit} {n k u : ℤ}

theorem decDiff_iff (h1 : d1.IsTimestamp) (h2 : d2.IsTimestamp) (mday1 : ℤ) :
    decDiff mday1 d1 d2 = true ↔
      d2.mday < mday1 ∨ d2.mday = mday1 ∧ d2.tsFields.nanos < d1.tsFields.nanos := by
  rw [h2.legal.isTime.nanos_lt_iff h1.legal.isTime]
  simp only [decDiff, DtDate.tsFields]
  split
  next h => exact iff_of_true rfl (.inl h)
  next hle =>
    split
    next h => exact iff_of_false Bool.false_ne_true (by omega)
    next hge =>
      have hmday : d2.mday = mday1 := by omega
      rw [or_iff_right hle, and_iff_right hmday]
      split
      next h => exact iff_of_true rfl (.inl h)
      next hle =>
        split
        next h => exact iff_of_false Bool.false_ne_true (by omega)
        next hge =>
          rw [or_iff_right hle, and_iff_right (by omega)]
          split
          next h => exact iff_of_true rfl (.inl h)
          next hle =>
            split
            next h => exact iff_of_false Bool.false_ne_true (by omega)
            next hge =>
              rw [or_iff_right hle, and_iff_right (by omega)]
              split
              next h => exact iff_of_true rfl (.inl h)
              next hle =>
                split
                next h => exact iff_of_false Bool.false_ne_true (by omega)
                next hge =>
                  rw [or_iff_right hle, and_iff_right (by omega), decide_eq_true_iff]
                  exact Nat.cast_lt.symm

theorem addMonths_zero {c : Ymd} (h : c.IsDay) : addMonths c 0 = c := by
  have hmge := h.month_ge
  have hmle := h.month_le
  have hyear : (monthNumber c + 0) / 12 = c.year := by
    rw [monthNumber]
    omega
  have hmonth : (monthNumber c + 0) % 12 + 1 = c.month := by
    rw [monthNumber]
    omega
  rw [addMonths, hyear, hmonth, min_eq_left h.mday_le]

theorem monthDiff_nonneg (h1 : d1.IsTimestamp) (h2 : d2.IsTimestamp)
    (hle : d1.instant ≤ d2.instant) : 0 ≤ monthDiff d1.tsFields d2.tsFields := by
  rw [le_monthDiff_iff h1.legal h2.legal le_rfl, addMonths_zero h1.legal.isDay]
  exact ⟨h1.legal.year_le, hle⟩

theorem toUnsigned_of_nonneg {x : ℤ} (hge : 0 ≤ x) (hlt : x < 2 ^ 32) :
    (toUnsigned x : ℤ) = x := by
  rw [toUnsigned]
  omega

/-- The difference of the fields in four bytes, with twelve months lent to the year. -/
theorem lendYear_eq {y1 m1 y2 m2 : ℤ} (hm1 : 1 ≤ m1 ∧ m1 ≤ 12) (hm2 : 1 ≤ m2 ∧ m2 ≤ 12)
    (hge : 0 ≤ 12 * y2 + m2 - (12 * y1 + m1)) (hlt : 12 * y2 + m2 - (12 * y1 + m1) < 2 ^ 31) :
    (toUnsigned (toUnsigned ((if m2 < m1 then m2 + 12 else m2) - m1) +
      ((if m2 < m1 then y2 - 1 else y2) - y1) * 12) : ℤ) = 12 * y2 + m2 - (12 * y1 + m1) := by
  by_cases hless : m2 < m1
  · rw [if_pos hless, if_pos hless, toUnsigned_of_nonneg (x := m2 + 12 - m1) (by omega) (by omega),
      toUnsigned_of_nonneg (by omega) (by omega)]
    ring
  · rw [if_neg hless, if_neg hless, toUnsigned_of_nonneg (x := m2 - m1) (by omega) (by omega),
      toUnsigned_of_nonneg (by omega) (by omega)]
    ring

theorem tsdiffMonths_eq (h1 : d1.IsTimestamp) (h2 : d2.IsTimestamp)
    (hle : d1.instant ≤ d2.instant) :
    tsdiffMonths d1 d2 = some (monthDiff d1.tsFields d2.tsFields).toNat ∧
      monthDiff d1.tsFields d2.tsFields < 2 ^ 31 := by
  have hnonneg := monthDiff_nonneg h1 h2 hle
  obtain ⟨⟨hmge1, hmle1, -, -⟩, -, hge1, hmax1⟩ := h1.legal
  obtain ⟨⟨hmge2, hmle2, -, -⟩, -, hge2, hmax2⟩ := h2.legal
  have hmax : dateYearmax = 32767 := rfl
  simp only [DtDate.tsFields] at hmge1 hmle1 hge1 hmax1 hmge2 hmle2 hge2 hmax2
  have hclip : (if monthLength d2.year d2.month < d1.mday then monthLength d2.year d2.month
      else d1.mday) = min d1.mday (monthLength d2.year d2.month) := by
    split <;> omega
  have hdec := decDiff_iff h1 h2 (min d1.mday (monthLength d2.year d2.month))
  have hvalue : monthDiff d1.tsFields d2.tsFields =
      12 * d2.year + (d2.month - 1) - (12 * d1.year + (d1.month - 1)) -
        if decDiff (min d1.mday (monthLength d2.year d2.month)) d1 d2 = true then 1 else 0 :=
    congrArg _ (if_congr hdec rfl rfl).symm
  rw [hvalue] at hnonneg
  rw [tsdiffMonths, readDaysInMonth_eq hge2 (by omega) hmge2 hmle2, Option.map_some, hvalue]
  have hlend := lendYear_eq ⟨hmge1, hmle1⟩ ⟨hmge2, hmle2⟩
    (show 0 ≤ 12 * d2.year + d2.month - (12 * d1.year + d1.month) by omega) (by omega)
  simp only [hclip]
  generalize toUnsigned (toUnsigned _ + _) = diff at *
  generalize decDiff (min d1.mday (monthLength d2.year d2.month)) d1 d2 = dec at *
  constructor
  · congr 1
    cases dec with
    | true =>
        rw [if_pos rfl] at hnonneg ⊢
        rw [if_pos rfl]
        have hpred := toUnsigned_of_nonneg (x := (diff : ℤ) - 1) (by omega) (by omega)
        omega
    | false =>
        rw [if_neg Bool.false_ne_true, if_neg Bool.false_ne_true]
        omega
  · omega

theorem setUint4_toInt {diff : ℕ} (h : diff < 2 ^ 31) : (setUint4 diff).toInt = diff := by
  have hmod : (diff : ℤ).bmod (2 ^ 32) = diff := by
    rw [Int.bmod_def]
    split <;> omega
  rw [setUint4, hmod]
  exact toInt_of_toNat (toNat_setInt4 (by omega) (by omega)) (by omega)

theorem divideInPlace_toInt (r div : SsInt8) (hdiv : 0 < div.toInt) :
    (divideInPlace r div).toInt = r.toInt.tdiv div.toInt := by
  obtain ⟨q, -, hq, -, hvalue, -⟩ := divide_spec r div (by omega)
  have hfits := (fitsInt8_tdiv_iff r div (by omega)).mpr (by omega)
  rw [divideInPlace, hq]
  exact (toInt_eq_iff q).mpr ⟨hfits.1, hfits.2, hvalue⟩

theorem tsdiffDiv_toInt (hunit : unitNanos unit = some u) (hfrac : unit ≠ .fracSecond) :
    (tsdiffDiv unit).toInt = u := by
  cases unit with
  | fracSecond => exact absurd rfl hfrac
  | second =>
      obtain rfl := Option.some.inj hunit
      decide
  | minute =>
      obtain rfl := Option.some.inj hunit
      decide
  | hour =>
      obtain rfl := Option.some.inj hunit
      decide
  | day =>
      obtain rfl := Option.some.inj hunit
      decide
  | week =>
      obtain rfl := Option.some.inj hunit
      decide
  | month | quarter | year => exact absurd hunit.symm (Option.some_ne_none u)

/-! ## The greatest amount -/

def Reaches (now : DtDate) (unit : DtDateTsiunit) (n : ℤ) (d1 d2 : DtDate) : Prop :=
  ∃ r, dtDateTsadd now unit n d1 = .done r ∧ dtDateCmp r d2 ≤ 0

def greatestAmount (unit : DtDateTsiunit) (d1 d2 : DtDate) : ℤ :=
  (unitNanos unit).elim (monthDiff d1.tsFields d2.tsFields / (unitMonths unit).getD 1)
    fun u => (d2.instant - d1.instant) / u

theorem unitNanos_pos (hunit : unitNanos unit = some u) : 0 < u := by
  cases unit <;> cases hunit <;> decide

theorem exists_unitMonths (hunit : unitNanos unit = none) :
    ∃ k, unitMonths unit = some k ∧ 0 < k := by
  cases unit <;> first | exact absurd hunit (Option.some_ne_none _) | exact ⟨_, rfl, by decide⟩

theorem DtDate.IsTimestamp.cmp_le_iff (h1 : d1.IsTimestamp) (h2 : d2.IsTimestamp) :
    dtDateCmp d1 d2 ≤ 0 ↔ d1.instant ≤ d2.instant := by
  rw [← not_lt, (h1.cmp_iff h2).2.2, not_lt]

/-- There is a date for every instant up to a later date. -/
theorem exists_isTimestamp {total : ℤ} (h1 : d1.IsTimestamp) (h2 : d2.IsTimestamp)
    (hge : d1.instant ≤ total) (hle : total ≤ d2.instant) :
    ∃ date : DtDate, date.IsTimestamp ∧ date.instant = total := by
  have hdiv1 := h1.legal.isTime.instant_div.1
  have hdiv2 := h2.legal.isTime.instant_div.1
  have hpos := h1.legal.dayNumber_bounds.1
  rw [DtDate.instant] at hge hle
  obtain ⟨c, hc, hyear, hnum⟩ := exists_isDay_succ (total / dayNanos - 1).toNat
  have hmax : c.year ≤ dateYearmax := by
    by_contra hover
    have hb := hc.year_bounds
    have hb2 := h2.legal.isDay.year_bounds
    have hle2 := h2.legal.year_le
    have hmono := daysBeforeYear_mono (y := d2.tsFields.ymd.year + 1) (z := c.year) (by omega)
    rw [dayNanos] at *
    omega
  obtain ⟨date, -, hfields, hdate⟩ := dtDateSetdata_of_legal (f := ⟨c,
    total % dayNanos / 3600000000000, total % dayNanos / 60000000000 % 60,
    total % dayNanos / 1000000000 % 60, total % dayNanos % 1000000000⟩)
    ⟨hc, by constructor <;> simp only [dayNanos] <;> omega, hyear, hmax⟩
  refine ⟨date, hdate, ?_⟩
  rw [DtDate.instant, hfields, TsFields.instant, TsFields.nanos, hnum]
  simp only [dayNanos] at *
  omega

theorem reaches_nanos (hunit : unitNanos unit = some u) (h1 : d1.IsTimestamp)
    (h2 : d2.IsTimestamp) (hn : 0 ≤ n) :
    Reaches now unit n d1 d2 ↔ d1.instant + n * u ≤ d2.instant := by
  have hamount : 0 ≤ n * u := mul_nonneg hn (unitNanos_pos hunit).le
  have hmoves : MovesTo (d1.instant + n * u) (dtDateTsadd now unit n d1) := by
    refine (dtDateTsadd_iff hunit h1).mpr (.inl ?_)
    rw [← h1.legal.isTime.instant_div.1]
    exact Int.ediv_le_ediv (by decide) (by rw [DtDate.instant]; omega)
  constructor
  · rintro ⟨r, hr, hcmp⟩
    rw [hr] at hmoves
    rw [← hmoves.2]
    exact (hmoves.1.cmp_le_iff h2).mp hcmp
  · intro hle
    obtain ⟨date, hdate, hinstant⟩ := exists_isTimestamp h1 h2 (by omega) hle
    refine ⟨date, hmoves.eq_done hdate hinstant, ?_⟩
    rw [hdate.cmp_le_iff h2, hinstant]
    exact hle

theorem reaches_months (hunit : unitMonths unit = some k) (h1 : d1.IsTimestamp)
    (h2 : d2.IsTimestamp) (hn : 0 ≤ n) (hk : 0 < k) :
    Reaches now unit n d1 d2 ↔ n * k ≤ monthDiff d1.tsFields d2.tsFields := by
  have hamount : 0 ≤ n * k := mul_nonneg hn hk.le
  rw [Reaches, dtDateTsadd_eq h1, tsaddFields_months hunit h1.legal hn,
    le_monthDiff_iff h1.legal h2.legal hamount]
  by_cases hover : dateYearmax < (addMonths d1.tsFields.ymd (n * k)).year
  · rw [if_pos hover, TsResult.bind_failed]
    refine iff_of_false ?_ fun h => absurd h.1 (not_le.mpr hover)
    rintro ⟨r, hr, -⟩
    cases hr
  · obtain ⟨hisDay, hyear⟩ := addMonths_isDay h1.legal.isDay h1.legal.year_ge hamount
    obtain ⟨date, hwrite, hdate, hinstant⟩ := writeFields_of_legal
      (f := { d1.tsFields with ymd := addMonths d1.tsFields.ymd (n * k) })
      ⟨hisDay, h1.legal.isTime.with_ymd _, hyear, not_lt.mp hover⟩
    rw [if_neg hover, TsResult.bind_done, hwrite, and_iff_right (not_lt.mp hover), ← hinstant]
    constructor
    · rintro ⟨r, hr, hcmp⟩
      obtain rfl := TsResult.done.inj hr
      exact (hdate.cmp_le_iff h2).mp hcmp
    · intro hle
      exact ⟨date, rfl, (hdate.cmp_le_iff h2).mpr hle⟩

/-- An amount reaches no further than the later date when it is not above the greatest one. -/
theorem reaches_iff (h1 : d1.IsTimestamp) (h2 : d2.IsTimestamp) (hn : 0 ≤ n) :
    Reaches now unit n d1 d2 ↔ n ≤ greatestAmount unit d1 d2 := by
  cases hunit : unitNanos unit with
  | some u =>
      have hgreatest : greatestAmount unit d1 d2 = (d2.instant - d1.instant) / u := by
        rw [greatestAmount, hunit, Option.elim_some]
      rw [reaches_nanos hunit h1 h2 hn, hgreatest, Int.le_ediv_iff_mul_le (unitNanos_pos hunit)]
      omega
  | none =>
      obtain ⟨k, hmonths, hk⟩ := exists_unitMonths hunit
      have hgreatest : greatestAmount unit d1 d2 = monthDiff d1.tsFields d2.tsFields / k := by
        rw [greatestAmount, hunit, hmonths, Option.elim_none, Option.getD_some]
      rw [reaches_months hmonths h1 h2 hn hk, hgreatest, Int.le_ediv_iff_mul_le hk]

/-- The difference in a unit of a fixed length: while the nanoseconds fit it is the greatest
amount, and behind that it fails or is too small. -/
theorem tsdiffCase_nanos (hunit : unitNanos unit = some u) (h1 : d1.IsTimestamp)
    (h2 : d2.IsTimestamp) (hle : d1.instant ≤ d2.instant) :
    (d2.instant - d1.instant < 2 ^ 63 → ∃ x, tsdiffCase unit d1 d2 = .done x ∧
        x.toInt = (d2.instant - d1.instant) / u) ∧
      (2 ^ 63 ≤ d2.instant - d1.instant → ∀ x, tsdiffCase unit d1 d2 = .done x →
        x.toInt < (d2.instant - d1.instant) / u) := by
  have hcounts := dateSubstractGreater1st_counts h2 h1 hle
  have hu := unitNanos_pos hunit
  have hu' : u < 2 ^ 63 := by
    cases unit <;> cases hunit <;> decide
  have hcase : tsdiffCase unit d1 d2 = (dateSubstractGreater1st d2 d1).bind fun r =>
      .done (if unit = .fracSecond then r else divideInPlace r (tsdiffDiv unit)) := by
    cases unit with
    | fracSecond =>
        rw [tsdiffCase]
        cases dateSubstractGreater1st d2 d1 <;> rfl
    | second => rfl
    | minute => rfl
    | hour => rfl
    | day => rfl
    | week => rfl
    | month | quarter | year => exact absurd hunit.symm (Option.some_ne_none u)
  have hquot (r : SsInt8) :
      (if unit = .fracSecond then r else divideInPlace r (tsdiffDiv unit)).toInt =
        r.toInt.tdiv u := by
    by_cases hfrac : unit = .fracSecond
    · subst hfrac
      obtain rfl := Option.some.inj hunit
      rw [if_pos rfl, Int.tdiv_one]
    · have hdiv := tsdiffDiv_toInt hunit hfrac
      rw [if_neg hfrac, divideInPlace_toInt r _ (by omega), hdiv]
  rw [hcase]
  have hdiff : 0 ≤ d2.instant - d1.instant := by omega
  generalize dateSubstractGreater1st d2 d1 = r at hcounts
  generalize d2.instant - d1.instant = diff at *
  cases hcounts with
  | failed hover =>
      refine ⟨fun hfits => absurd hfits (by omega), fun _ x hx => ?_⟩
      cases hx
  | done hvalue =>
      rename_i p
      refine ⟨fun hfits => ⟨_, rfl, ?_⟩, fun hover x hx => ?_⟩
      · rw [hquot, toInt_of_toNat (n := diff) (by omega) hfits,
          Int.tdiv_eq_ediv_of_nonneg (by omega)]
      · obtain rfl := TsResult.done.inj hx
        rw [hquot]
        have hless : p.toInt + u ≤ diff := by
          have hcast := toNat_cast p
          have hb := p.toInt_bounds
          omega
        rcases lt_or_ge p.toInt 0 with hneg | hpos
        · have hzero : 0 ≤ (-p.toInt).tdiv u := Int.tdiv_nonneg (by omega) hu.le
          rw [Int.neg_tdiv] at hzero
          have hone : 1 ≤ diff / u := (Int.le_ediv_iff_mul_le hu).mpr (by omega)
          omega
        · rw [Int.tdiv_eq_ediv_of_nonneg hpos]
          have hmono := Int.ediv_le_ediv hu hless
          rw [Int.add_ediv_of_dvd_right (dvd_refl u), Int.ediv_self hu.ne'] at hmono
          omega

theorem tsdiffCase_months (hunit : unitMonths unit = some k) (h1 : d1.IsTimestamp)
    (h2 : d2.IsTimestamp) (hle : d1.instant ≤ d2.instant) :
    ∃ x, tsdiffCase unit d1 d2 = .done x ∧
      x.toInt = monthDiff d1.tsFields d2.tsFields / k := by
  obtain ⟨hmonths, hlt⟩ := tsdiffMonths_eq h1 h2 hle
  have hge := monthDiff_nonneg h1 h2 hle
  generalize monthDiff d1.tsFields d2.tsFields = m at *
  have hvalue {diff : ℕ} (h : diff ≤ m.toNat) : (setUint4 diff).toInt = diff :=
    setUint4_toInt (by omega)
  cases unit with
  | month =>
      obtain rfl := Option.some.inj hunit
      refine ⟨_, by rw [tsdiffCase, hmonths], ?_⟩
      rw [hvalue le_rfl]
      omega
  | quarter =>
      obtain rfl := Option.some.inj hunit
      have hthree : (ssInt8SetInt4 3).toInt = 3 := by decide
      refine ⟨_, by rw [tsdiffCase, hmonths], ?_⟩
      rw [divideInPlace_toInt _ _ (by omega), hthree, hvalue le_rfl,
        Int.tdiv_eq_ediv_of_nonneg (by omega)]
      omega
  | year =>
      obtain rfl := Option.some.inj hunit
      refine ⟨_, by rw [tsdiffCase, hmonths], ?_⟩
      rw [hvalue (Nat.div_le_self _ _)]
      omega
  | _ => exact absurd hunit.symm (Option.some_ne_none k)

/-! ## The integer inverse of the addition -/

/-- The difference is the greatest amount that can be added without passing the later date, and
the other way round it is the negation. -/
structure TsdiffInverts (now : DtDate) (unit : DtDateTsiunit) (d1 d2 : DtDate)
    (x y : SsInt8) : Prop where
  forward : dtDateTsdiffNew unit d1 d2 = .done x
  back : dtDateTsdiffNew unit d2 d1 = .done y
  nonneg : 0 ≤ x.toInt
  greatest : ∀ n, 0 ≤ n → (Reaches now unit n d1 d2 ↔ n ≤ x.toInt)
  negates : y.toInt = -x.toInt

theorem greatestAmount_nonneg (h1 : d1.IsTimestamp) (h2 : d2.IsTimestamp)
    (hle : d1.instant ≤ d2.instant) : 0 ≤ greatestAmount unit d1 d2 := by
  cases hunit : unitNanos unit with
  | some u =>
      rw [greatestAmount, hunit, Option.elim_some]
      exact Int.ediv_nonneg (by omega) (unitNanos_pos hunit).le
  | none =>
      obtain ⟨k, hmonths, hk⟩ := exists_unitMonths hunit
      rw [greatestAmount, hunit, hmonths, Option.elim_none, Option.getD_some]
      exact Int.ediv_nonneg (monthDiff_nonneg h1 h2 hle) hk.le

/-- Where the nanoseconds fit or are not counted, the case gives the greatest amount. -/
theorem tsdiffCase_greatest (h1 : d1.IsTimestamp) (h2 : d2.IsTimestamp)
    (hle : d1.instant ≤ d2.instant)
    (hfits : unitNanos unit = none ∨ d2.instant - d1.instant < 2 ^ 63) :
    ∃ x, tsdiffCase unit d1 d2 = .done x ∧ x.toInt = greatestAmount unit d1 d2 := by
  cases hunit : unitNanos unit with
  | some u =>
      have hlt := hfits.resolve_left fun h => Option.some_ne_none u (hunit.symm.trans h)
      rw [greatestAmount, hunit, Option.elim_some]
      exact (tsdiffCase_nanos hunit h1 h2 hle).1 hlt
  | none =>
      obtain ⟨k, hmonths, -⟩ := exists_unitMonths hunit
      rw [greatestAmount, hunit, hmonths, Option.elim_none, Option.getD_some]
      exact tsdiffCase_months hmonths h1 h2 hle

theorem greatestAmount_self (h : d1.IsTimestamp) : greatestAmount unit d1 d1 = 0 := by
  cases hunit : unitNanos unit with
  | some u =>
      rw [greatestAmount, hunit, Option.elim_some, sub_self, Int.zero_ediv]
  | none =>
      have hzero : monthDiff d1.tsFields d1.tsFields = 0 := by
        rw [monthDiff, sub_self, min_eq_left h.legal.isDay.mday_le, if_neg, sub_zero]
        exact fun h => h.elim (lt_irrefl _) fun h => lt_irrefl _ h.2
      rw [greatestAmount, hunit, Option.elim_none, hzero, Int.zero_ediv]

theorem negate_toInt {x : SsInt8} (hge : 0 ≤ x.toInt) : (ssInt8Negate x).2.toInt = -x.toInt := by
  have hneg := toNat_negate x
  have hb := x.toInt_bounds
  have hcast := toNat_cast x
  have hlt := x.toNat_lt
  exact (toInt_eq_iff _).mpr ⟨by omega, by omega, by omega⟩

/-- The difference is the integer inverse of the addition exactly when it is counted in months or
its nanoseconds fit into an eight-byte integer. The amounts are those for which the `long` of
`dt_date_tsadd` does not overflow. -/
theorem tsdiffInverts_iff (now : DtDate) (unit : DtDateTsiunit) (h1 : d1.IsTimestamp)
    (h2 : d2.IsTimestamp) (hle : d1.instant ≤ d2.instant) :
    (∃ x y, TsdiffInverts now unit d1 d2 x y) ↔
      unitNanos unit = none ∨ d2.instant - d1.instant < 2 ^ 63 := by
  have hreach (n : ℤ) (hn : 0 ≤ n) :
      Reaches now unit n d1 d2 ↔ n ≤ greatestAmount unit d1 d2 := reaches_iff h1 h2 hn
  rcases hle.eq_or_lt with heq | hlt
  · obtain rfl := DtDate.eq_of_instant h1 h2 heq
    have hcmp : dtDateCmp d1 d1 = 0 := (h1.cmp_iff h1).2.1.mpr rfl
    have hrun : dtDateTsdiffNew unit d1 d1 = .done (.set2U4 0 0) := if_pos hcmp
    have hzero : (SsInt8.set2U4 0 0).toInt = 0 := by decide
    rw [greatestAmount_self h1] at hreach
    refine iff_of_true ⟨_, _, hrun, hrun, by rw [hzero], ?_, by rw [hzero, neg_zero]⟩
      (.inr (by omega))
    rw [hzero]
    exact hreach
  · have hneg := (h1.cmp_iff h2).1.mpr hlt
    have hpos := (h2.cmp_iff h1).2.2.mpr hlt
    have hrun : dtDateTsdiffNew unit d1 d2 = tsdiffCase unit d1 d2 := by
      rw [dtDateTsdiffNew, if_neg hneg.ne, if_neg hneg.not_gt]
    have hback : dtDateTsdiffNew unit d2 d1 =
        (tsdiffCase unit d1 d2).bind fun r => .done (ssInt8Negate r).2 := by
      rw [dtDateTsdiffNew, if_neg hpos.ne', if_pos hpos]
    constructor
    · rintro ⟨x, y, h⟩
      cases hunit : unitNanos unit with
      | none => exact .inl rfl
      | some u =>
          refine .inr (not_le.mp fun hover => ?_)
          have hamount : greatestAmount unit d1 d2 = (d2.instant - d1.instant) / u := by
            rw [greatestAmount, hunit, Option.elim_some]
          have hless := (tsdiffCase_nanos hunit h1 h2 hle).2 hover x (hrun.symm.trans h.forward)
          have hn : 0 ≤ greatestAmount unit d1 d2 := greatestAmount_nonneg h1 h2 hle
          have hle' := (h.greatest _ hn).mp ((hreach _ hn).mpr le_rfl)
          omega
    · intro hfits
      obtain ⟨x, hx, hvalue⟩ := tsdiffCase_greatest h1 h2 hle hfits
      have hn : 0 ≤ x.toInt := hvalue ▸ greatestAmount_nonneg h1 h2 hle
      refine ⟨x, (ssInt8Negate x).2, hrun.trans hx, by rw [hback, hx, TsResult.bind_done], hn, ?_,
        negate_toInt hn⟩
      rw [hvalue]
      exact hreach

/-- From the last day of January a month ends on 29 February. -/
theorem tsdiffInverts_january :
    (DtDate.midnight 2004 1 31).IsTimestamp ∧ (DtDate.midnight 2004 2 29).IsTimestamp ∧
      ∃ x y, TsdiffInverts (.midnight 1998 1 1) .month (.midnight 2004 1 31)
        (.midnight 2004 2 29) x y :=
  have h1 : (DtDate.midnight 2004 1 31).IsTimestamp := by decide
  have h2 : (DtDate.midnight 2004 2 29).IsTimestamp := by decide
  ⟨h1, h2, (tsdiffInverts_iff (.midnight 1998 1 1) .month h1 h2
    (by decide +kernel)).mpr (.inl rfl)⟩

/-- Between the first days of the years 1 and 586 the count of the nanoseconds overflows twice, and
the difference of 163 days is taken for a success. -/
theorem not_tsdiffInverts_overflow :
    dtDateTsdiffNew .day (.midnight 1 1 1) (.midnight 586 1 1) = .done (ssInt8SetInt4 163) ∧
      ∀ now, ¬ ∃ x y, TsdiffInverts now .day (.midnight 1 1 1) (.midnight 586 1 1) x y := by
  have h1 : (DtDate.midnight 1 1 1).IsTimestamp := by decide
  have h2 : (DtDate.midnight 586 1 1).IsTimestamp := by decide
  have hrun : dtDateTsdiffNew .day (.midnight 1 1 1) (.midnight 586 1 1) =
      .done (ssInt8SetInt4 163) := by decide +kernel
  refine ⟨hrun, ?_⟩
  rintro now ⟨x, y, h⟩
  obtain rfl := TsResult.done.inj (hrun.symm.trans h.forward)
  have hreach : Reaches now .day 164 (.midnight 1 1 1) (.midnight 586 1 1) :=
    (reaches_iff h1 h2 (by decide)).mpr (by decide +kernel)
  exact absurd ((h.greatest 164 (by decide)).mp hreach) (by decide)

end Diff

end SolidDB
