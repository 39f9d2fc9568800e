import SolidDB.Dt.Date

/-!
# Instants

The fields of a legal date and time as one number of nanoseconds. The number determines the
date, and `dt_date_cmp` is the order of the numbers.
-/

namespace SolidDB

@[ext] structure TsFields where
  ymd : Ymd
  hour : ℤ
  minute : ℤ
  sec : ℤ
  fraction : ℤ
  deriving DecidableEq

def dayNanos : ℤ := 86400000000000

namespace TsFields

structure IsTime (f : TsFields) : Prop where
  hour_ge : 0 ≤ f.hour
  hour_lt : f.hour < 24
  minute_ge : 0 ≤ f.minute
  minute_lt : f.minute < 60
  sec_ge : 0 ≤ f.sec
  sec_lt : f.sec < 60
  fraction_ge : 0 ≤ f.fraction
  fraction_lt : f.fraction < 1000000000

def nanos (f : TsFields) : ℤ :=
  ((f.hour * 60 + f.minute) * 60 + f.sec) * 1000000000 + f.fraction

def instant (f : TsFields) : ℤ := f.ymd.dayNumber * dayNanos + f.nanos

structure Legal (f : TsFields) : Prop where
  isDay : f.ymd.IsDay
  isTime : f.IsTime
  year_ge : 1 ≤ f.ymd.year
  year_le : f.ymd.year ≤ dateYearmax

end TsFields

def DtDate.tsFields (date : DtDate) : TsFields :=
  ⟨⟨date.year, date.month, date.mday⟩, date.hour, date.min, date.sec, date.fraction⟩

structure DtDate.IsTimestamp (date : DtDate) : Prop where
  year_ge : 1 ≤ date.year
  legal_ymd : dateIslegalymd date.year date.month date.mday = true
  legal_hmsf : dateIslegalhmsf date.hour date.min date.sec date.fraction = true

instance (date : DtDate) : Decidable date.IsTimestamp :=
  decidable_of_iff (1 ≤ date.year ∧ dateIslegalymd date.year date.month date.mday = true ∧
      dateIslegalhmsf date.hour date.min date.sec date.fraction = true)
    ⟨fun h => ⟨h.1, h.2.1, h.2.2⟩, fun h => ⟨h.1, h.2, h.3⟩⟩

namespace TsFields

variable {f f' : TsFields}

theorem IsTime.nanos_ge (h : f.IsTime) : 0 ≤ f.nanos := by
  have h₁ := h.hour_ge
  have h₂ := h.minute_ge
  have h₃ := h.sec_ge
  have h₄ := h.fraction_ge
  rw [nanos]
  omega

theorem IsTime.nanos_lt (h : f.IsTime) : f.nanos < dayNanos := by
  have h₁ := h.hour_lt
  have h₂ := h.minute_lt
  have h₃ := h.sec_lt
  have h₄ := h.fraction_lt
  rw [nanos, dayNanos]
  omega

theorem IsTime.eq_of_nanos (h : f.IsTime) (h' : f'.IsTime) (heq : f.nanos = f'.nanos) :
    f.hour = f'.hour ∧ f.minute = f'.minute ∧ f.sec = f'.sec ∧ f.fraction = f'.fraction := by
  obtain ⟨_, _, _, _, _, _, _, _⟩ := h
  obtain ⟨_, _, _, _, _, _, _, _⟩ := h'
  rw [nanos, nanos] at heq
  omega

theorem IsTime.instant_div (h : f.IsTime) :
    f.instant / dayNanos = f.ymd.dayNumber ∧ f.instant % dayNanos = f.nanos := by
  have hge := h.nanos_ge
  have hlt := h.nanos_lt
  rw [instant]
  rw [dayNanos] at hlt ⊢
  omega

theorem Legal.eq_of_instant (h : f.Legal) (h' : f'.Legal) (heq : f.instant = f'.instant) :
    f = f' := by
  have hdiv := h.isTime.instant_div
  have hdiv' := h'.isTime.instant_div
  rw [heq] at hdiv
  obtain ⟨hhour, hminute, hsec, hfraction⟩ :=
    h.isTime.eq_of_nanos h'.isTime (hdiv.2.symm.trans hdiv'.2)
  exact TsFields.ext (Ymd.dayNumber_injective h.isDay h'.isDay (hdiv.1.symm.trans hdiv'.1))
    hhour hminute hsec hfraction

end TsFields

/-! ## Legal dates -/

theorem toUnsigned_lt_iff {x : ℤ} (hge : -2 ^ 31 ≤ x) (hlt : x < 2 ^ 31) {n : ℕ} (hn : n ≤ 2 ^ 31) :
    toUnsigned x < n ↔ 0 ≤ x ∧ x < n := by
  rw [toUnsigned]
  omega

theorem charToInt_bounds (b : UInt8) : -128 ≤ charToInt b ∧ charToInt b < 128 := by
  have hb := b.toNat_lt
  rw [charToInt]
  split <;> omega

theorem dateIslegalymd_iff {y m d : ℤ} (hge : 1 ≤ y) (hle : y ≤ dateYearmax)
    (hm : -128 ≤ m ∧ m < 128) (hd : -128 ≤ d ∧ d < 128) :
    dateIslegalymd y m d = true ↔ Ymd.IsDay ⟨y, m, d⟩ := by
  rw [dateYearmax] at hle
  have hmonth := toUnsigned_lt_iff (x := m - 1) (n := 12) (by omega) (by omega) (by decide)
  have hiff : Ymd.IsDay ⟨y, m, d⟩ ↔ (1 ≤ m ∧ m ≤ 12) ∧ 1 ≤ d ∧ d ≤ monthLength y m :=
    ⟨fun h => ⟨⟨h.1, h.2⟩, h.3, h.4⟩, fun h => ⟨h.1.1, h.1.2, h.2.1, h.2.2⟩⟩
  have hcond : dateIslegalymd y m d = true ↔ toUnsigned (m - 1) < 12 ∧
      toUnsigned (d - 1) < toUnsigned (ssTimeDaysInMonth (.ofInt y) m) := by
    have hne : y ≠ -dateYeardrift := by
      rw [dateYeardrift]
      omega
    have hzero : y ≠ 0 := by omega
    have hpos : ¬ y < 0 := by omega
    rw [dateIslegalymd]
    simp only [hne, hzero, hpos, decide_false, Bool.false_and, Bool.false_or, ne_eq, not_false_iff,
      decide_true, Bool.true_and, if_false, Bool.and_eq_true, decide_eq_true_eq, Bool.or_false]
    exact ⟨fun h => ⟨h.1.2, h.2⟩, fun h => ⟨⟨hle, h.1⟩, h.2⟩⟩
  rw [hcond, hiff, hmonth]
  by_cases hmm : 1 ≤ m ∧ m ≤ 12
  · have hb := monthLength_bounds y m
    have hlen : toUnsigned (monthLength y m) = (monthLength y m).toNat := by
      rw [toUnsigned]
      omega
    rw [ssTimeDaysInMonth_eq hge (by omega) hmm.1 hmm.2, hlen,
      toUnsigned_lt_iff (by omega) (by omega) (by omega)]
    omega
  · omega

theorem dateIslegalhmsf_iff {hour minute sec : ℤ} (fract : ℕ) (hh : -128 ≤ hour ∧ hour < 128)
    (hm : -128 ≤ minute ∧ minute < 128) (hs : -128 ≤ sec ∧ sec < 128) (c : Ymd) :
    dateIslegalhmsf hour minute sec fract = true ↔
      TsFields.IsTime ⟨c, hour, minute, sec, fract⟩ := by
  have hhour := toUnsigned_lt_iff (x := hour) (n := 24) (by omega) (by omega) (by decide)
  have hminute := toUnsigned_lt_iff (x := minute) (n := 60) (by omega) (by omega) (by decide)
  have hsec := toUnsigned_lt_iff (x := sec) (n := 60) (by omega) (by omega) (by decide)
  rw [dateIslegalhmsf]
  simp only [Bool.and_eq_true, decide_eq_true_eq]
  constructor
  · rintro ⟨⟨⟨h₁, h₂⟩, h₃⟩, h₄⟩
    have hour_in := hhour.mp (Nat.lt_succ_of_le h₁)
    have minute_in := hminute.mp (Nat.lt_succ_of_le h₂)
    have sec_in := hsec.mp (Nat.lt_succ_of_le h₃)
    exact ⟨hour_in.1, hour_in.2, minute_in.1, minute_in.2, sec_in.1, sec_in.2,
      Int.natCast_nonneg _, by simp only; omega⟩
  · intro h
    have hlt := h.fraction_lt
    simp only at hlt
    exact ⟨⟨⟨Nat.le_of_lt_succ (hhour.mpr ⟨h.hour_ge, h.hour_lt⟩),
      Nat.le_of_lt_succ (hminute.mpr ⟨h.minute_ge, h.minute_lt⟩)⟩,
      Nat.le_of_lt_succ (hsec.mpr ⟨h.sec_ge, h.sec_lt⟩)⟩, by omega⟩

namespace DtDate

theorem year_le (date : DtDate) : date.year ≤ dateYearmax := by
  have hb0 := (date.byte 0).toNat_lt
  have hb1 := (date.byte 1).toNat_lt
  rw [year_eq, dateYearmax]
  omega

theorem isTimestamp_iff (date : DtDate) : date.IsTimestamp ↔ date.tsFields.Legal := by
  have hle := date.year_le
  have hhmsf := dateIslegalhmsf_iff date.fraction (charToInt_bounds (date.byte 4))
    (charToInt_bounds (date.byte 5)) (charToInt_bounds (date.byte 6)) date.tsFields.ymd
  constructor
  · intro h
    have hymd := (dateIslegalymd_iff h.year_ge hle (charToInt_bounds (date.byte 2))
      (charToInt_bounds (date.byte 3))).mp h.legal_ymd
    exact ⟨hymd, hhmsf.mp h.legal_hmsf, h.year_ge, hle⟩
  · intro h
    exact ⟨h.year_ge, (dateIslegalymd_iff h.year_ge hle (charToInt_bounds (date.byte 2))
      (charToInt_bounds (date.byte 3))).mpr h.isDay, hhmsf.mpr h.isTime⟩

theorem tsFields_setData {f : TsFields} (h : f.Legal) :
    (setData (f.ymd.year + dateYeardrift) f.ymd.month f.ymd.mday f.hour f.minute f.sec
      f.fraction).tsFields = f := by
  have hyge := h.year_ge
  have hyle := h.year_le
  rw [dateYearmax] at hyle
  have hlen := monthLength_bounds f.ymd.year f.ymd.month
  obtain ⟨hmge, hmle, hdge, hdle⟩ := h.isDay
  obtain ⟨hhge, hhlt, hmige, hmilt, hsge, hslt, hfge, hflt⟩ := h.isTime
  have hshift (x : ℤ) (k m : ℕ) (hm : 2 ^ k = m) : x >>> k = x / m := by
    rw [Int.shiftRight_eq_div_pow, hm]
  have hbyte (x : ℤ) := toNat_toChar x
  apply TsFields.ext
  · apply Ymd.ext
    · simp only [tsFields, year_eq, setData, byte, List.getD_cons_zero, List.getD_cons_succ,
        hbyte, hshift _ 8 256 rfl, dateYeardrift]
      omega
    · exact charToInt_toChar (by omega) (by omega)
    · exact charToInt_toChar (by omega) (by omega)
  · exact charToInt_toChar (by omega) (by omega)
  · exact charToInt_toChar (by omega) (by omega)
  · exact charToInt_toChar (by omega) (by omega)
  · simp only [tsFields, fraction_eq, setData, byte, List.getD_cons_zero, List.getD_cons_succ,
      Nat.cast_add, Nat.cast_mul, Nat.cast_ofNat, hbyte, hshift _ 24 16777216 rfl,
      hshift _ 16 65536 rfl, hshift _ 8 256 rfl]
    omega

theorem tsFields_injective {date date' : DtDate} (h : date.tsFields = date'.tsFields) :
    date = date' := by
  simp only [tsFields, TsFields.mk.injEq, Ymd.mk.injEq] at h
  obtain ⟨⟨hyear, hmonth, hmday⟩, hhour, hmin, hsec, hfract⟩ := h
  refine fields_injective ?_
  rw [fields, fields, hyear, hmonth, hmday, hhour, hmin, hsec, hfract]

theorem IsTimestamp.legal {date : DtDate} (h : date.IsTimestamp) : date.tsFields.Legal :=
  date.isTimestamp_iff.mp h

def instant (date : DtDate) : ℤ := date.tsFields.instant

theorem eq_of_instant {date date' : DtDate} (h : date.IsTimestamp) (h' : date'.IsTimestamp)
    (heq : date.instant = date'.instant) : date = date' :=
  tsFields_injective (h.legal.eq_of_instant h'.legal heq)

end DtDate

theorem dtDateSetdata_of_legal {f : TsFields} (h : f.Legal) :
    ∃ date, dtDateSetdata f.ymd.year f.ymd.month f.ymd.mday f.hour f.minute f.sec f.fraction =
        some date ∧ date.tsFields = f ∧ date.IsTimestamp := by
  have hfields := DtDate.tsFields_setData h
  have hfract : (toUlong f.fraction : ℤ) = f.fraction := by
    have hge := h.isTime.fraction_ge
    have hlt := h.isTime.fraction_lt
    rw [toUlong]
    omega
  have hlen := monthLength_bounds f.ymd.year f.ymd.month
  have hday := h.isDay
  obtain ⟨hmge, hmle, hdge, hdle⟩ := h.isDay
  obtain ⟨hhge, hhlt, hmige, hmilt, hsge, hslt, hfge, hflt⟩ := h.isTime
  have hymd : dateIslegalymd f.ymd.year f.ymd.month f.ymd.mday = true :=
    (dateIslegalymd_iff h.year_ge h.year_le (by omega) (by omega)).mpr hday
  have hhmsf : dateIslegalhmsf f.hour f.minute f.sec (toUlong f.fraction) = true := by
    rw [dateIslegalhmsf_iff _ (by omega) (by omega) (by omega) f.ymd, hfract]
    exact h.isTime
  refine ⟨_, ?_, hfields, ?_⟩
  · rw [dtDateSetdata, hymd, hhmsf, hfract]
    rfl
  · rw [DtDate.isTimestamp_iff, hfields]
    exact h

/-! ## The order -/

/-- Two numbers with a digit of the same base are compared like their parts. -/
theorem mul_add_lt_iff {a a' x x' b : ℤ} (hge : 0 ≤ x) (hlt : x < b) (hge' : 0 ≤ x')
    (hlt' : x' < b) : a * b + x < a' * b + x' ↔ a < a' ∨ a = a' ∧ x < x' := by
  rcases lt_trichotomy a a' with h | rfl | h
  · have hmul : (a + 1) * b ≤ a' * b := mul_le_mul_of_nonneg_right h (by omega)
    rw [add_mul, one_mul] at hmul
    refine iff_of_true (by omega) (.inl h)
  · simp
  · have hmul : (a' + 1) * b ≤ a * b := mul_le_mul_of_nonneg_right h (by omega)
    rw [add_mul, one_mul] at hmul
    refine iff_of_false (by omega) ?_
    rintro (hlt | ⟨rfl, -⟩)
    · omega
    · omega

namespace TsFields

variable {f f' : TsFields}

theorem Legal.instant_lt_iff (h : f.Legal) (h' : f'.Legal) :
    f.instant < f'.instant ↔ f.ymd.Before f'.ymd ∨ f.ymd = f'.ymd ∧ f.nanos < f'.nanos := by
  rw [instant, instant, mul_add_lt_iff h.isTime.nanos_ge h.isTime.nanos_lt h'.isTime.nanos_ge
    h'.isTime.nanos_lt, Ymd.dayNumber_lt_iff h.isDay h'.isDay]
  refine or_congr_right (and_congr_left fun _ => ⟨?_, fun heq => by rw [heq]⟩)
  exact Ymd.dayNumber_injective h.isDay h'.isDay

theorem IsTime.nanos_lt_iff (h : f.IsTime) (h' : f'.IsTime) :
    f.nanos < f'.nanos ↔ f.hour < f'.hour ∨ f.hour = f'.hour ∧
      (f.minute < f'.minute ∨ f.minute = f'.minute ∧
        (f.sec < f'.sec ∨ f.sec = f'.sec ∧ f.fraction < f'.fraction)) := by
  obtain ⟨hhge, hhlt, hmge, hmlt, hsge, hslt, hfge, hflt⟩ := h
  obtain ⟨hhge', hhlt', hmge', hmlt', hsge', hslt', hfge', hflt'⟩ := h'
  rw [nanos, nanos, mul_add_lt_iff hfge hflt hfge' hflt', mul_add_lt_iff hsge hslt hsge' hslt',
    mul_add_lt_iff hmge hmlt hmge' hmlt']
  omega

end TsFields

namespace DtDate

variable {date1 date2 : DtDate}

theorem IsTimestamp.isLegal (h : date1.IsTimestamp) : date1.isLegal = true := by
  have hlen := monthLength_bounds date1.year date1.month
  obtain ⟨hmge, hmle, hdge, hdle⟩ := h.legal.isDay
  obtain ⟨hhge, hhlt, hmige, hmilt, hsge, hslt, hfge, hflt⟩ := h.legal.isTime
  simp only [tsFields] at hmge hmle hdge hdle hhge hhlt hmige hmilt hsge hslt hfge hflt
  simp only [DtDate.isLegal, Bool.and_eq_true, Bool.not_eq_true', Bool.or_eq_false_iff,
    decide_eq_false_iff_not, not_lt, not_le]
  omega

theorem IsTimestamp.fields_lt_iff (h1 : date1.IsTimestamp) (h2 : date2.IsTimestamp) :
    date1.fields < date2.fields ↔ date1.instant < date2.instant := by
  rw [instant, instant, h1.legal.instant_lt_iff h2.legal,
    h1.legal.isTime.nanos_lt_iff h2.legal.isTime, Ymd.Before, Ymd.ext_iff]
  simp only [fields, tsFields, List.cons_lt_cons_iff, List.not_lt_nil, and_false, or_false]
  tauto

/-- `dt_date_cmp` is the order of the instants. -/
theorem IsTimestamp.cmp_iff (h1 : date1.IsTimestamp) (h2 : date2.IsTimestamp) :
    (dtDateCmp date1 date2 < 0 ↔ date1.instant < date2.instant) ∧
      (dtDateCmp date1 date2 = 0 ↔ date1.instant = date2.instant) ∧
      (0 < dtDateCmp date1 date2 ↔ date2.instant < date1.instant) := by
  obtain ⟨hlt, heq, hgt⟩ := DtDate.cmp_iff h1.isLegal h2.isLegal
  rw [hlt, heq, hgt, h1.fields_lt_iff h2, h2.fields_lt_iff h1]
  refine ⟨Iff.rfl, ⟨fun h => ?_, fun h => ?_⟩, Iff.rfl⟩
  · rw [fields_injective h]
  · rw [eq_of_instant h1 h2 h]

end DtDate

end SolidDB
