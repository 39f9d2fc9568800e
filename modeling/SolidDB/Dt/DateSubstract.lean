import SolidDB.Dt.Tsadd
import SolidDB.Ss.Int8Exact

/-!
# The difference of timestamps

`dt_date_substract` counts the nanoseconds between two dates in an eight-byte integer. The
seconds are multiplied with a check, and the fraction is added without one.
-/

namespace SolidDB

open SsInt8 Ymd

def borrowField (base field1 field2 : ℤ) : ℤ × ℤ :=
  if field1 - field2 < 0 then (field1 - field2 + base, 1) else (field1 - field2, 0)

/-- The days of the years before a year, as `365L * year + SsTimeLeapsBeforeThis(year)`. -/
def yearInDays (year : ℤ) : ℤ := 365 * year + (ssTimeLeapsBeforeThis (.ofInt year)).toNat

def countNanos (days hours mins secs fracs : ℤ) : Bool × SsInt8 :=
  let rday := ssInt8MultiplyByInt2 (ssInt8SetInt4 days) 24
  let rhour := ssInt8MultiplyByInt2 (ssInt8AddUint4 rday.2 hours.toNat).2 60
  let rmin := ssInt8MultiplyByInt2 (ssInt8AddUint4 rhour.2 mins.toNat).2 60
  let rsec := ssInt8MultiplyByInt8 (ssInt8AddUint4 rmin.2 secs.toNat).2 (ssInt8SetInt4 1000000000)
  (rsec.1 && (rmin.1 && (rhour.1 && rday.1)), (ssInt8AddUint4 rsec.2 fracs.toNat).2)

def dateSubstractGreater1st (date1 date2 : DtDate) : TsResult SsInt8 :=
  match ssTimeDayOfYear (.ofInt date1.year) date1.month date1.mday,
    ssTimeDayOfYear (.ofInt date2.year) date2.month date2.mday with
  | some yday1, some yday2 =>
    if date1.year < 0 ∨ date2.year < 0 then .failed
    else
      let fracs := borrowField 1000000000 date1.fraction date2.fraction
      let secs := borrowField 60 date1.sec (date2.sec + fracs.2)
      let mins := borrowField 60 date1.min (date2.min + secs.2)
      let hours := borrowField 24 date1.hour (date2.hour + mins.2)
      let days := yearInDays date1.year + yday1 - yearInDays date2.year - (yday2 + hours.2)
      let r := countNanos days hours.1 mins.1 secs.1 fracs.1
      if r.1 then .done r.2 else .failed
  | _, _ => .undefined

def dtDateSubstract (date1 date2 : DtDate) : TsResult SsInt8 :=
  if dtDateCmp date1 date2 = 0 then .done (.set2U4 0 0)
  else if dtDateCmp date1 date2 < 0 then
    (dateSubstractGreater1st date2 date1).bind fun diff => .done (ssInt8Negate diff).2
  else dateSubstractGreater1st date1 date2

/-! ## Counting nanoseconds -/

theorem count_step {v : SsInt8} {n k : ℤ} {m : UInt16} (hv : (v.toNat : ℤ) = n) (hk : 0 ≤ k)
    (hk' : k < 2 ^ 15) (hpos : 0 < m.toNat) (hm : m.toNat < 2 ^ 15)
    (hfits : n * m.toNat + k < 2 ^ 63) :
    (ssInt8MultiplyByInt2 v m).1 = true ∧
      ((ssInt8AddUint4 (ssInt8MultiplyByInt2 v m).2 k.toNat).2.toNat : ℤ) = n * m.toNat + k := by
  have hle : v.toNat ≤ v.toNat * m.toNat := Nat.le_mul_of_pos_right _ hpos
  rw [← hv] at hfits ⊢
  have hmul : v.toNat * m.toNat < 2 ^ 63 := by
    zify
    omega
  obtain ⟨hsucc, hvalue⟩ := multiplyInt2_spec (v := v) (by omega) hm
  refine ⟨hsucc.mpr hmul, ?_⟩
  rw [toNat_addUint4 _ (by omega), hvalue hmul]
  push_cast
  omega

theorem toInt_of_toNat {v : SsInt8} {n : ℤ} (hv : (v.toNat : ℤ) = n) (hlt : n < 2 ^ 63) :
    v.toInt = n := by
  rw [toInt, if_pos (by omega), hv]

/-- The count is right modulo `2 ^ 64`, and succeeds while the seconds fit. -/
theorem countNanos_spec {days hours mins secs fracs : ℤ} (hd : 0 ≤ days) (hd' : days < 2 ^ 31)
    (hh : 0 ≤ hours ∧ hours < 24) (hm : 0 ≤ mins ∧ mins < 60) (hs : 0 ≤ secs ∧ secs < 60)
    (hf : 0 ≤ fracs ∧ fracs < 1000000000) :
    ((countNanos days hours mins secs fracs).2.toNat : ℤ) =
        ((((days * 24 + hours) * 60 + mins) * 60 + secs) * 1000000000 + fracs) % 2 ^ 64 ∧
      ((((days * 24 + hours) * 60 + mins) * 60 + secs) * 1000000000 < 2 ^ 63 →
        (countNanos days hours mins secs fracs).1 = true) := by
  have hdays := toNat_setInt4 hd hd'
  obtain ⟨hday, hhour⟩ := count_step (m := 24) hdays hh.1 (by omega) (by decide) (by decide)
    (by simp only [UInt16.reduceToNat, Nat.cast_ofNat]; omega)
  obtain ⟨hhour', hmin⟩ := count_step (m := 60) hhour hm.1 (by omega) (by decide) (by decide)
    (by simp only [UInt16.reduceToNat, Nat.cast_ofNat]; omega)
  obtain ⟨hmin', hsec⟩ := count_step (m := 60) hmin hs.1 (by omega) (by decide) (by decide)
    (by simp only [UInt16.reduceToNat, Nat.cast_ofNat]; omega)
  simp only [UInt16.reduceToNat, Nat.cast_ofNat] at hsec
  have hbillion := toNat_setInt4 (show (0 : ℤ) ≤ 1000000000 by decide) (by decide)
  have hcount := toInt_of_toNat hsec (by omega)
  have hfactor := toInt_of_toNat hbillion (by decide)
  rw [countNanos]
  simp only [hday, hhour', hmin', Bool.and_true]
  generalize (ssInt8AddUint4 (ssInt8MultiplyByInt2 (ssInt8AddUint4 (ssInt8MultiplyByInt2
    (ssInt8AddUint4 (ssInt8MultiplyByInt2 (ssInt8SetInt4 days) 24).2 hours.toNat).2 60).2
      mins.toNat).2 60).2 secs.toNat).2 = v at *
  generalize hn : ((days * 24 + hours) * 60 + mins) * 60 + secs = n at *
  obtain ⟨hsucc, hvalue⟩ := multiplyInt8_spec v (ssInt8SetInt4 1000000000)
  rw [hcount, hfactor] at hsucc hvalue
  constructor
  · rw [toNat_addUint4 _ (by omega)]
    push_cast
    rw [hvalue]
    omega
  · intro hfits
    have hsize : Int.natAbs 1000000000 = 1000000000 := rfl
    refine hsucc.mpr ⟨by omega, by decide, not_productNoticed _ _ ?_⟩
    rw [hcount, hfactor, hsize]
    omega

/-! ## The difference -/

theorem borrowField_spec {base field1 field2 : ℤ} (hge : -base ≤ field1 - field2)
    (hlt : field1 - field2 < base) :
    0 ≤ (borrowField base field1 field2).1 ∧ (borrowField base field1 field2).1 < base ∧
      ((borrowField base field1 field2).2 = 0 ∧
          (borrowField base field1 field2).1 = field1 - field2 ∨
        (borrowField base field1 field2).2 = 1 ∧
          (borrowField base field1 field2).1 = field1 - field2 + base) := by
  rw [borrowField]
  split
  next hneg => exact ⟨by simp only; omega, by simp only; omega, .inr ⟨rfl, rfl⟩⟩
  next hpos => exact ⟨not_lt.mp hpos, hlt, .inl ⟨rfl, rfl⟩⟩

theorem yearInDays_eq {y : ℤ} (hge : 1 ≤ y) (hlt : y < 2 ^ 31) :
    yearInDays y = daysBeforeYear y + 365 := by
  rw [yearInDays, leapsBeforeThis_eq hge (by omega)]
  ring

inductive Counts (diff : ℤ) : TsResult SsInt8 → Prop where
  | done {p : SsInt8} (h : (p.toNat : ℤ) = diff % 2 ^ 64) : Counts diff (.done p)
  | failed (h : 2 ^ 63 < diff) : Counts diff .failed

/-- Year 32767 is before the numbers that do not fit into four bytes. -/
theorem TsFields.Legal.dayNumber_bounds {f : TsFields} (h : f.Legal) :
    0 < f.ymd.dayNumber ∧ f.ymd.dayNumber < 2 ^ 31 := by
  have hpos := h.isDay.dayNumber_pos_iff.mpr h.year_ge
  have hb := h.isDay.year_bounds
  have hle := h.year_le
  have hmono := daysBeforeYear_mono (y := f.ymd.year + 1) (z := 32768) (by
    rw [dateYearmax] at hle
    omega)
  have hmax : daysBeforeYear 32768 < 2 ^ 31 := by decide
  omega

theorem dateSubstractGreater1st_counts {date1 date2 : DtDate} (h1 : date1.IsTimestamp)
    (h2 : date2.IsTimestamp) (hle : date2.instant ≤ date1.instant) :
    Counts (date1.instant - date2.instant) (dateSubstractGreater1st date1 date2) := by
  have hnum1 := h1.legal.dayNumber_bounds
  have hnum2 := h2.legal.dayNumber_bounds
  obtain ⟨hday1, htime1, hge1, hmax1⟩ := h1.legal
  obtain ⟨hday2, htime2, hge2, hmax2⟩ := h2.legal
  obtain ⟨hhge1, hhlt1, hmge1, hmlt1, hsge1, hslt1, hfge1, hflt1⟩ := htime1
  obtain ⟨hhge2, hhlt2, hmge2, hmlt2, hsge2, hslt2, hfge2, hflt2⟩ := htime2
  have hmax : dateYearmax < 2 ^ 16 := by decide
  simp only [DtDate.instant, TsFields.instant, TsFields.nanos, dayNanos, DtDate.tsFields] at *
  rw [dateSubstractGreater1st,
    ssTimeDayOfYear_eq hge1 (by omega) hday1.month_ge hday1.month_le date1.mday,
    ssTimeDayOfYear_eq hge2 (by omega) hday2.month_ge hday2.month_le date2.mday]
  simp only
  rw [if_neg (by omega), yearInDays_eq hge1 (by omega), yearInDays_eq hge2 (by omega)]
  have hf := borrowField_spec
    (show -1000000000 ≤ (date1.fraction : ℤ) - date2.fraction by omega) (by omega)
  generalize borrowField 1000000000 date1.fraction date2.fraction = fracs at *
  have hs := borrowField_spec (show -60 ≤ date1.sec - (date2.sec + fracs.2) by omega) (by omega)
  generalize borrowField 60 date1.sec (date2.sec + fracs.2) = secs at *
  have hm := borrowField_spec (show -60 ≤ date1.min - (date2.min + secs.2) by omega) (by omega)
  generalize borrowField 60 date1.min (date2.min + secs.2) = mins at *
  have hh := borrowField_spec (show -24 ≤ date1.hour - (date2.hour + mins.2) by omega) (by omega)
  generalize borrowField 24 date1.hour (date2.hour + mins.2) = hours at *
  have hdays : daysBeforeYear date1.year + 365 + (daysBeforeMonth date1.year date1.month +
      date1.mday) - (daysBeforeYear date2.year + 365) - (daysBeforeMonth date2.year date2.month +
      date2.mday + hours.2) =
      dayNumber ⟨date1.year, date1.month, date1.mday⟩ -
        dayNumber ⟨date2.year, date2.month, date2.mday⟩ - hours.2 := by
    rw [dayNumber_mk, dayNumber_mk]
    ring
  rw [hdays]
  generalize dayNumber ⟨date1.year, date1.month, date1.mday⟩ = n1 at *
  generalize dayNumber ⟨date2.year, date2.month, date2.mday⟩ = n2 at *
  obtain ⟨hvalue, hsucc⟩ := countNanos_spec (show 0 ≤ n1 - n2 - hours.2 by omega) (by omega)
    ⟨hh.1, hh.2.1⟩ ⟨hm.1, hm.2.1⟩ ⟨hs.1, hs.2.1⟩ ⟨hf.1, hf.2.1⟩
  generalize countNanos (n1 - n2 - hours.2) hours.1 mins.1 secs.1 fracs.1 = r at *
  split
  next hdone =>
    refine .done ?_
    rw [hvalue]
    congr 1
    omega
  next hfail =>
    refine .failed ?_
    have hover := mt hsucc hfail
    omega

def Substracts (diff : ℤ) : TsResult SsInt8 → Prop
  | .done p => p.toInt = diff
  | .failed => False
  | .undefined => False

theorem Counts.substracts {diff : ℤ} {r : TsResult SsInt8} (h : Counts diff r) (hge : 0 ≤ diff)
    (hlt : diff < 2 ^ 63) : Substracts diff r := by
  cases h with
  | done hvalue => exact toInt_of_toNat (by omega) hlt
  | failed hover => omega

/-- The least eight-byte integer is its own negation, so that it is found too. -/
theorem Counts.substracts_neg {diff : ℤ} {r : TsResult SsInt8} (h : Counts diff r)
    (hge : 0 < diff) (hle : diff ≤ 2 ^ 63) :
    Substracts (-diff) (r.bind fun diff => .done (ssInt8Negate diff).2) := by
  cases h with
  | done hvalue =>
      rename_i p
      have hneg := toNat_negate p
      change (ssInt8Negate p).2.toInt = -diff
      rw [toInt, hneg]
      split <;> omega
  | failed hover => omega

/-- The difference is found exactly when it fits into an eight-byte integer. -/
theorem dtDateSubstract_iff {date1 date2 : DtDate} (h1 : date1.IsTimestamp)
    (h2 : date2.IsTimestamp) :
    Substracts (date1.instant - date2.instant) (dtDateSubstract date1 date2) ↔
      FitsInt8 (date1.instant - date2.instant) := by
  obtain ⟨hlt, heq, hgt⟩ := h1.cmp_iff h2
  constructor
  · intro h
    generalize dtDateSubstract date1 date2 = r at h
    cases r with
    | done p => exact h ▸ fitsInt8_toInt p
    | failed => exact h.elim
    | undefined => exact h.elim
  · intro hfits
    rw [FitsInt8] at hfits
    rw [dtDateSubstract]
    split
    next hzero =>
      rw [heq.mp hzero, sub_self]
      rfl
    next hne =>
      split
      next hneg =>
        have hless := hlt.mp hneg
        have hcounts := dateSubstractGreater1st_counts h2 h1 hless.le
        have hsub := hcounts.substracts_neg (by omega) (by omega)
        rw [neg_sub] at hsub
        exact hsub
      next hpos =>
        have hmore := hgt.mp (by omega)
        exact (dateSubstractGreater1st_counts h1 h2 hmore.le).substracts (by omega) (by omega)

end SolidDB
