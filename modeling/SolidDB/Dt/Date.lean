import SolidDB.Ss.Time
import SolidDB.Uti.VtplCompare
import Mathlib.Data.Int.Order.Basic
import Mathlib.Algebra.Ring.Nat

/-!
# Dates

A `dt_date_t` has eleven bytes: the year with a drift that makes negative years compare
correctly, month, day, hour, minute and second, and four bytes of nanoseconds.
-/

namespace SolidDB

def toChar (x : ℤ) : UInt8 := UInt8.ofNat (x % 256).toNat

def charToInt (b : UInt8) : ℤ := if b.toNat < 128 then b.toNat else (b.toNat : ℤ) - 256

def toUnsigned (x : ℤ) : ℕ := (x % 2 ^ 32).toNat

def toUlong (x : ℤ) : ℕ := (x % 2 ^ 64).toNat

def dateYeardrift : ℤ := 32768

def dateYearmax : ℤ := 32767

@[ext] structure DtDate where
  dateData : List UInt8
  length_eq : dateData.length = 11
  deriving DecidableEq

namespace DtDate

def byte (date : DtDate) (i : ℕ) : UInt8 := date.dateData.getD i 0

def year (date : DtDate) : ℤ :=
  (((date.byte 0).toNat <<< 8 ||| (date.byte 1).toNat : ℕ) : ℤ) - dateYeardrift

def month (date : DtDate) : ℤ := charToInt (date.byte 2)

def mday (date : DtDate) : ℤ := charToInt (date.byte 3)

def hour (date : DtDate) : ℤ := charToInt (date.byte 4)

def min (date : DtDate) : ℤ := charToInt (date.byte 5)

def sec (date : DtDate) : ℤ := charToInt (date.byte 6)

def fraction (date : DtDate) : ℕ :=
  [7, 8, 9, 10].foldl (fun fract i => fract <<< 8 ||| (date.byte i).toNat) 0

def setData (yyyy mm dd hh mi se fract : ℤ) : DtDate where
  dateData := [toChar (yyyy >>> (8 : ℕ)), toChar yyyy, toChar mm, toChar dd, toChar hh, toChar mi,
    toChar se, toChar (fract >>> (24 : ℕ)), toChar (fract >>> (16 : ℕ)),
    toChar (fract >>> (8 : ℕ)), toChar fract]
  length_eq := rfl

def isLegal (date : DtDate) : Bool :=
  !(date.month < 0 || 12 < date.month) && !(date.mday < 0 || 31 < date.mday) &&
    !(date.hour < 0 || 24 ≤ date.hour) && !(date.min < 0 || 60 ≤ date.min) &&
    !(date.sec < 0 || 60 ≤ date.sec) && !((date.fraction : ℤ) < 0)

def isTime (date : DtDate) : Bool := date.year = 0 && date.month = 0 && date.mday = 0

end DtDate

def dateIslegalymd (year month day : ℤ) : Bool :=
  (year = -dateYeardrift && month = 0 && day = 0) ||
    (year = 0 && month = 0 && day = 0) ||
    year = 0 ||
    (year ≠ 0 && (if year < 0 then -year else year) ≤ dateYearmax && toUnsigned (month - 1) < 12 &&
      (toUnsigned (day - 1) < toUnsigned (ssTimeDaysInMonth (.ofInt year) month) ||
        (year < 0 && toUnsigned (day - 1) < toUnsigned (ssTimeDaysInMonth 4 month))))

def dateIslegalhmsf (hour minute sec : ℤ) (fract : ℕ) : Bool :=
  toUnsigned hour ≤ 23 && toUnsigned minute ≤ 59 && toUnsigned sec ≤ 59 && fract ≤ 999999999

/-- `dt_date_setdata`, `none` where it returns `FALSE`. -/
def dtDateSetdata (year mon mday hour minute sec fraction : ℤ) : Option DtDate :=
  if !dateIslegalymd year mon mday || !dateIslegalhmsf hour minute sec (toUlong fraction) then none
  else
    some (.setData (year + dateYeardrift) mon mday hour minute sec (toUlong fraction))

def dtDateCmp (date1 date2 : DtDate) : ℤ := ssMemcmp date1.dateData date2.dateData 11

/-! ## Reading and writing the fields -/

theorem toChar_eq {x : ℤ} {b : UInt8} (h : x % 256 = b.toNat) : toChar x = b := by
  rw [toChar, h, Int.toNat_natCast, UInt8.ofNat_toNat]

@[simp] theorem toChar_charToInt (b : UInt8) : toChar (charToInt b) = b := by
  have hb := b.toNat_lt
  apply toChar_eq
  rw [charToInt]
  split <;> omega

theorem toNat_toChar (x : ℤ) : ((toChar x).toNat : ℤ) = x % 256 := by
  rw [toChar, UInt8.toNat_ofNat']
  omega

theorem charToInt_toChar {x : ℤ} (hlow : -128 ≤ x) (hlt : x < 128) :
    charToInt (toChar x) = x := by
  have hbyte := toNat_toChar x
  rw [charToInt]
  split <;> omega

theorem shiftLeft_or_byte (n : ℕ) (b : UInt8) : n <<< 8 ||| b.toNat = n * 256 + b.toNat := by
  rw [← Nat.shiftLeft_add_eq_or_of_lt b.toNat_lt, Nat.shiftLeft_eq]

namespace DtDate

theorem exists_bytes (date : DtDate) :
    ∃ b0 b1 b2 b3 b4 b5 b6 b7 b8 b9 b10,
      date.dateData = [b0, b1, b2, b3, b4, b5, b6, b7, b8, b9, b10] := by
  obtain ⟨data, hlen⟩ := date
  match data, hlen with
  | [b0, b1, b2, b3, b4, b5, b6, b7, b8, b9, b10], _ =>
      exact ⟨b0, b1, b2, b3, b4, b5, b6, b7, b8, b9, b10, rfl⟩

theorem year_eq (date : DtDate) :
    date.year = (date.byte 0).toNat * 256 + (date.byte 1).toNat - 32768 := by
  rw [year, shiftLeft_or_byte]
  rfl

theorem fraction_eq (date : DtDate) :
    date.fraction = (((date.byte 7).toNat * 256 + (date.byte 8).toNat) * 256 +
      (date.byte 9).toNat) * 256 + (date.byte 10).toNat := by
  rw [fraction]
  simp only [List.foldl_cons, List.foldl_nil, shiftLeft_or_byte, zero_mul, zero_add]

theorem setData_fields (date : DtDate) :
    setData (date.year + dateYeardrift) date.month date.mday date.hour date.min date.sec
      date.fraction = date := by
  obtain ⟨b0, b1, b2, b3, b4, b5, b6, b7, b8, b9, b10, hdata⟩ := date.exists_bytes
  have hbyte (i : ℕ) : date.byte i = [b0, b1, b2, b3, b4, b5, b6, b7, b8, b9, b10].getD i 0 := by
    rw [byte, hdata]
  have hyear : date.year + dateYeardrift = (b0.toNat * 256 + b1.toNat : ℕ) := by
    rw [year_eq, hbyte, hbyte, dateYeardrift, Int.sub_add_cancel]
    rfl
  have hfract : date.fraction =
      ((b7.toNat * 256 + b8.toNat) * 256 + b9.toNat) * 256 + b10.toNat := by
    rw [fraction_eq, hbyte, hbyte, hbyte, hbyte]
    rfl
  have hb0 := b0.toNat_lt
  have hb1 := b1.toNat_lt
  have hb7 := b7.toNat_lt
  have hb8 := b8.toNat_lt
  have hb9 := b9.toNat_lt
  have hb10 := b10.toNat_lt
  have hchar (n k m : ℕ) (hm : 2 ^ k = m) (b : UInt8) (h : n / m % 256 = b.toNat) :
      toChar ((n : ℤ) >>> k) = b := by
    apply toChar_eq
    rw [Int.shiftRight_eq_div_pow, hm, ← h]
    rfl
  have hlow (n : ℕ) (b : UInt8) (h : n % 256 = b.toNat) : toChar (n : ℤ) = b :=
    toChar_eq (by rw [← h]; rfl)
  apply DtDate.ext
  rw [hdata, hyear, hfract, setData, month, mday, hour, min, sec]
  simp only [hbyte, List.getD_cons_zero, List.getD_cons_succ, toChar_charToInt, List.cons.injEq,
    and_true, true_and]
  refine ⟨hchar _ 8 256 rfl b0 ?_, hlow _ b1 ?_, hchar _ 24 16777216 rfl b7 ?_,
    hchar _ 16 65536 rfl b8 ?_, hchar _ 8 256 rfl b9 ?_, hlow _ b10 ?_⟩
  all_goals omega

/-! ## The order -/

def fields (date : DtDate) : List ℤ :=
  [date.year, date.month, date.mday, date.hour, date.min, date.sec, date.fraction]

end DtDate

theorem lt_or_eq_and_digit {a a' b b' : ℕ} (hb : b < 256) (hb' : b' < 256) (p : Prop) :
    (a < a' ∨ a = a' ∧ (b < b' ∨ b = b' ∧ p)) ↔
      a * 256 + b < a' * 256 + b' ∨ a * 256 + b = a' * 256 + b' ∧ p := by
  by_cases hp : p
  · simp only [hp, and_true]
    omega
  · simp only [hp, and_false, or_false]
    omega

namespace DtDate

theorem fields_eq {date : DtDate} (hlegal : date.isLegal = true) :
    date.fields = [(((date.byte 0).toNat * 256 + (date.byte 1).toNat : ℕ) : ℤ) - 32768,
      (date.byte 2).toNat, (date.byte 3).toNat, (date.byte 4).toNat, (date.byte 5).toNat,
      (date.byte 6).toNat, ((((date.byte 7).toNat * 256 + (date.byte 8).toNat) * 256 +
        (date.byte 9).toNat) * 256 + (date.byte 10).toNat : ℕ)] := by
  have hchar {b : UInt8} (h : 0 ≤ charToInt b) : charToInt b = b.toNat := by
    have hb := b.toNat_lt
    rw [charToInt] at h ⊢
    split at h
    next hlt => rw [if_pos hlt]
    next => omega
  simp only [isLegal, Bool.and_eq_true, Bool.not_eq_true', Bool.or_eq_false_iff,
    decide_eq_false_iff_not, not_lt] at hlegal
  obtain ⟨⟨⟨⟨⟨hmonth, hmday⟩, hhour⟩, hmin⟩, hsec⟩, -⟩ := hlegal
  rw [fields, year_eq, fraction_eq, month, mday, hour, min, sec, hchar hmonth.1, hchar hmday.1,
    hchar hhour.1, hchar hmin.1, hchar hsec.1]
  rfl

theorem dateData_lt_iff {date1 date2 : DtDate} (h1 : date1.isLegal = true)
    (h2 : date2.isLegal = true) :
    date1.dateData < date2.dateData ↔ date1.fields < date2.fields := by
  obtain ⟨a0, a1, a2, a3, a4, a5, a6, a7, a8, a9, a10, hdata1⟩ := date1.exists_bytes
  obtain ⟨b0, b1, b2, b3, b4, b5, b6, b7, b8, b9, b10, hdata2⟩ := date2.exists_bytes
  have hbyte (b : UInt8) : b.toNat < 256 := b.toNat_lt
  have hyear (a b : ℕ) : (a : ℤ) - 32768 < (b : ℤ) - 32768 ↔ a < b := by omega
  have hyear' (a b : ℕ) : (a : ℤ) - 32768 = (b : ℤ) - 32768 ↔ a = b := by omega
  rw [fields_eq h1, fields_eq h2]
  simp only [byte, hdata1, hdata2, List.getD_cons_zero, List.getD_cons_succ,
    List.cons_lt_cons_iff, UInt8.lt_iff_toNat_lt, ← UInt8.toNat_inj, Int.ofNat_lt, Int.ofNat_inj,
    hyear, hyear', List.not_lt_nil]
  rw [lt_or_eq_and_digit (hbyte a1) (hbyte b1), lt_or_eq_and_digit (hbyte a8) (hbyte b8),
    lt_or_eq_and_digit (hbyte a9) (hbyte b9), lt_or_eq_and_digit (hbyte a10) (hbyte b10)]

theorem fields_injective {date1 date2 : DtDate} (h : date1.fields = date2.fields) :
    date1 = date2 := by
  simp only [fields, List.cons.injEq, and_true, Int.ofNat_inj] at h
  obtain ⟨hyear, hmonth, hmday, hhour, hmin, hsec, hfract⟩ := h
  rw [← date1.setData_fields, hyear, hmonth, hmday, hhour, hmin, hsec, hfract, date2.setData_fields]

/-- Legal dates are compared by year, month, day, hour, minute, second and fraction. -/
theorem cmp_iff {date1 date2 : DtDate} (h1 : date1.isLegal = true) (h2 : date2.isLegal = true) :
    (dtDateCmp date1 date2 < 0 ↔ date1.fields < date2.fields) ∧
      (dtDateCmp date1 date2 = 0 ↔ date1.fields = date2.fields) ∧
      (0 < dtDateCmp date1 date2 ↔ date2.fields < date1.fields) := by
  have hcmp := ssMemcmp_append date1.dateData date2.dateData [] []
  rw [List.append_nil, List.append_nil, date1.length_eq, date2.length_eq, Nat.min_self] at hcmp
  rw [← dateData_lt_iff h1 h2, ← dateData_lt_iff h2 h1, dtDateCmp]
  have hfields : date1.fields = date2.fields ↔ date1.dateData = date2.dateData :=
    ⟨fun h => by rw [fields_injective h], fun h => by rw [DtDate.ext h]⟩
  rw [hfields]
  rcases hcmp with ⟨hneg, hlt⟩ | ⟨hpos, hlt⟩ | ⟨hzero, hprefix⟩
  · exact ⟨iff_of_true hneg hlt, iff_of_false hneg.ne hlt.ne,
      iff_of_false hneg.not_gt hlt.not_gt⟩
  · exact ⟨iff_of_false hpos.not_gt hlt.not_gt, iff_of_false hpos.ne' hlt.ne',
      iff_of_true hpos hlt⟩
  · have heq := eq_of_isPrefix_of_length_eq hprefix (by rw [date1.length_eq, date2.length_eq])
    rw [hzero, heq]
    exact ⟨iff_of_false (lt_irrefl 0) (lt_irrefl _), iff_of_true rfl rfl,
      iff_of_false (lt_irrefl 0) (lt_irrefl _)⟩

end DtDate

end SolidDB
