import SolidDB.Dt.Date
import SolidDB.Ss.Scan

/-!
# Dates as text

`dt_date_datetoasciiz_sql` prints a date, a time or a timestamp, and `dt_date_setasciiz_ext`
scans one in the default format. A time differs from the others by the delimiter behind its
first number.
-/

namespace SolidDB

inductive DtDatesqltype where
  | sqldate
  | sqltime
  | sqltimestamp
  | sqltypeUnknown
  deriving DecidableEq

/-! ## Printing -/

namespace DtDate

def dateText (date : DtDate) : List Char :=
  printInt 4 date.year ++ '-' :: (printInt 2 date.month ++ '-' :: printInt 2 date.mday)

def timeText (date : DtDate) : List Char :=
  printInt 2 date.hour ++ ':' :: (printInt 2 date.min ++ ':' :: (printInt 2 date.sec ++
    if date.fraction ≠ 0 then '.' :: zeroPadded 9 date.fraction else []))

def datetoasciizSql (date : DtDate) : DtDatesqltype → List Char
  | .sqldate => date.dateText
  | .sqltime => date.timeText
  | .sqltimestamp => date.dateText ++ ' ' :: date.timeText
  | .sqltypeUnknown =>
    if date.year = 0 ∧ date.month = 0 ∧ date.mday = 0 then date.timeText
    else date.dateText ++ ' ' :: date.timeText

end DtDate

/-! ## Scanning -/

def fractMaxdigits : ℕ := 9

def fractCoeff (l : ℕ) : ℤ :=
  [100000000, 10000000, 1000000, 100000, 10000, 1000, 100, 10, 1].getD (l - 1) 0

structure DateScan where
  isDate : Bool
  isTime : Bool
  year : ℤ
  mon : ℤ
  mday : ℤ
  hour : ℤ
  minute : ℤ
  sec : ℤ
  fract : ℤ

def scanDelimited (delimiter : Char) (s : List Char) : Option (ℤ × List Char) :=
  (ssStrScanInt s).bind fun r =>
    if r.2.head? = some delimiter then some (r.1, r.2.tail) else none

/-- The fraction behind the seconds. A point without digits is legal, and digits behind the
ninth are left out. -/
def scanFract (ptr : List Char) : Option ℤ :=
  if ptr.head? = some '.' then
    let start := ptr.tail
    let (b, fract, ptr) := ssStrScanLong start
    let len := start.length - ptr.length
    if !b then some 0
    else if fractMaxdigits < len then
      let (b, fract, _) := ssStrScanLong (start.take fractMaxdigits)
      if b then some (fract * fractCoeff fractMaxdigits) else none
    else some (fract * fractCoeff len)
  else some 0

/-- Minute, second and fraction behind the hour. -/
def scanTime (scan : DateScan) (s : List Char) : Option DateScan :=
  (scanDelimited ':' s).bind fun minute =>
    (ssStrScanInt minute.2).bind fun sec =>
      (scanFract sec.2).map fun fract =>
        { scan with isTime := true, minute := minute.1, sec := sec.1, fract := fract }

def scanDefault (extDate : List Char) : Option DateScan :=
  (ssStrScanInt extDate).bind fun first =>
    if first.2.head? = some '-' then
      (scanDelimited '-' first.2.tail).bind fun mon =>
        (ssStrScanInt mon.2).bind fun mday =>
          let ptr := mday.2.dropWhile (· = ' ')
          if ptr = [] then some ⟨true, false, first.1, mon.1, mday.1, 0, 0, 0, 0⟩
          else
            (scanDelimited ':' ptr).bind fun hour =>
              scanTime ⟨true, false, first.1, mon.1, mday.1, hour.1, 0, 0, 0⟩ hour.2
    else if first.2.head? = some ':' then
      scanTime ⟨false, false, 0, 0, 0, first.1, 0, 0, 0⟩ first.2.tail
    else none

/-- `dt_date_setasciiz_ext` in the default format: the date and `*p_datesqltype`. -/
def dtDateSetasciizExt (extDate : List Char) : Option (DtDate × DtDatesqltype) :=
  (scanDefault extDate).bind fun scan =>
    if scan.isDate && !dateIslegalymd scan.year scan.mon scan.mday then none
    else if !scan.isDate && !scan.isTime then none
    else if scan.isTime && !dateIslegalhmsf scan.hour scan.minute scan.sec (toUlong scan.fract) then
      none
    else
      some (.setData (scan.year + dateYeardrift) scan.mon scan.mday scan.hour scan.minute scan.sec
          scan.fract,
        if scan.isTime then (if scan.isDate then .sqltimestamp else .sqltime) else .sqldate)

/-! ## Scanning printed fields -/

theorem numberEnd_delimiter {c : Char} (hc : c ∈ ['-', ':', ' ', '.']) (s : List Char) :
    NumberEnd (c :: s) := by
  apply NumberEnd.cons
  simp only [List.mem_cons, List.not_mem_nil, or_false] at hc
  rcases hc with rfl | rfl | rfl | rfl <;> decide

theorem charToInt_natAbs_le (b : UInt8) : (charToInt b).natAbs ≤ 128 := by
  have hb := b.toNat_lt
  rw [charToInt]
  split <;> omega

theorem scanDelimited_printInt {delimiter : Char} (hd : delimiter ∈ ['-', ':', ' ', '.'])
    (width : ℕ) {n : ℤ} (hn : n.natAbs < 2 ^ 31) (s : List Char) :
    scanDelimited delimiter (printInt width n ++ delimiter :: s) = some (n, s) := by
  rw [scanDelimited, ssStrScanInt_printInt (numberEnd_delimiter hd s) width hn, Option.bind_some]
  exact if_pos rfl

namespace DtDate

variable (date : DtDate)

theorem year_natAbs_lt : date.year.natAbs < 2 ^ 31 := by
  have h0 := (date.byte 0).toNat_lt
  have h1 := (date.byte 1).toNat_lt
  rw [year_eq]
  omega

theorem char_natAbs_lt (i : ℕ) : (charToInt (date.byte i)).natAbs < 2 ^ 31 :=
  (charToInt_natAbs_le _).trans_lt (by decide)

theorem scanFract_text (hfract : date.fraction ≤ 999999999) :
    scanFract (if date.fraction ≠ 0 then '.' :: zeroPadded 9 date.fraction else []) =
      some (date.fraction : ℤ) := by
  by_cases h0 : date.fraction = 0
  · rw [h0]
    rfl
  · have hlen := length_zeroPadded (show 0 < 9 by decide)
      (show date.fraction < 10 ^ 9 by omega)
    have hscan := ssStrScanLong_zeroPadded numberEnd_nil 9
      (show date.fraction < 2 ^ 63 by omega)
    rw [List.append_nil] at hscan
    rw [if_pos h0, scanFract, List.head?_cons, if_pos rfl]
    simp only [List.tail_cons, hscan, hlen, List.length_nil, Nat.sub_zero]
    rw [if_neg (by decide), if_neg (by decide)]
    exact congrArg some (mul_one _)

theorem scanTime_text (hfract : date.fraction ≤ 999999999) (scan : DateScan) :
    scanTime scan (printInt 2 date.min ++ ':' :: (printInt 2 date.sec ++
      if date.fraction ≠ 0 then '.' :: zeroPadded 9 date.fraction else [])) =
        some { scan with isTime := true, minute := date.min, sec := date.sec,
                         fract := date.fraction } := by
  have hend : NumberEnd (if date.fraction ≠ 0 then '.' :: zeroPadded 9 date.fraction else []) := by
    split
    · exact numberEnd_delimiter (by decide) _
    · exact numberEnd_nil
  rw [scanTime, scanDelimited_printInt (n := date.min) (by decide) 2 (date.char_natAbs_lt 5),
    Option.bind_some, ssStrScanInt_printInt (n := date.sec) hend 2 (date.char_natAbs_lt 6),
    Option.bind_some, date.scanFract_text hfract]
  rfl

theorem scanDefault_timeText (hfract : date.fraction ≤ 999999999) :
    scanDefault date.timeText =
      some ⟨false, true, 0, 0, 0, date.hour, date.min, date.sec, date.fraction⟩ := by
  rw [scanDefault, timeText, ssStrScanInt_printInt (n := date.hour)
    (numberEnd_delimiter (by decide) _) 2 (date.char_natAbs_lt 4), Option.bind_some,
    List.head?_cons, if_neg (by decide), if_pos rfl]
  exact date.scanTime_text hfract _

theorem digitChar_ne_space (d : Fin 10) : Nat.digitChar d ≠ ' ' := by
  decide +revert

theorem dropWhile_space_printInt (width : ℕ) (n : ℤ) (s : List Char) :
    (' ' :: (printInt width n ++ s)).dropWhile (· = ' ') = printInt width n ++ s := by
  obtain ⟨sign, d, ds, htext, -⟩ := exists_printInt_eq width n
  rw [htext, List.dropWhile_cons_of_pos (by decide)]
  cases sign with
  | none => exact List.dropWhile_cons_of_neg (by simp [digitChar_ne_space d])
  | plus => rfl
  | minus => rfl

theorem scanDefault_timestampText (hfract : date.fraction ≤ 999999999) :
    scanDefault (date.dateText ++ ' ' :: date.timeText) =
      some ⟨true, true, date.year, date.month, date.mday, date.hour, date.min, date.sec,
        date.fraction⟩ := by
  have hend {c : Char} (hc : c ∈ ['-', ':', ' ', '.']) (s : List Char) := numberEnd_delimiter hc s
  have hne : printInt 2 date.hour ++ ':' :: (printInt 2 date.min ++ ':' ::
      (printInt 2 date.sec ++ if date.fraction ≠ 0 then '.' :: zeroPadded 9 date.fraction else []))
        ≠ [] := by simp
  rw [scanDefault, dateText, timeText]
  simp only [List.append_assoc, List.cons_append]
  rw [ssStrScanInt_printInt (hend (by decide) _) 4 date.year_natAbs_lt, Option.bind_some,
    List.head?_cons, if_pos rfl, List.tail_cons,
    scanDelimited_printInt (n := date.month) (by decide) 2 (date.char_natAbs_lt 2),
    Option.bind_some,
    ssStrScanInt_printInt (n := date.mday) (hend (by decide) _) 2 (date.char_natAbs_lt 3),
    Option.bind_some]
  simp only [dropWhile_space_printInt]
  rw [if_neg hne, scanDelimited_printInt (n := date.hour) (by decide) 2 (date.char_natAbs_lt 4),
    Option.bind_some]
  exact date.scanTime_text hfract _

end DtDate

/-! ## Round trip -/

theorem le_of_dateIslegalhmsf {hour minute sec : ℤ} {fract : ℕ}
    (h : dateIslegalhmsf hour minute sec fract = true) : fract ≤ 999999999 := by
  rw [dateIslegalhmsf, Bool.and_eq_true] at h
  exact of_decide_eq_true h.2

/-- A date with legal fields is scanned back from its text, and legal dates are compared by
their fields. -/
theorem dateText_roundtrip_cmp :
    (∀ date : DtDate, dateIslegalymd date.year date.month date.mday = true →
      dateIslegalhmsf date.hour date.min date.sec date.fraction = true →
      dtDateSetasciizExt (date.datetoasciizSql .sqltimestamp) = some (date, .sqltimestamp) ∧
      (date.isTime = true →
        dtDateSetasciizExt (date.datetoasciizSql .sqltime) = some (date, .sqltime))) ∧
    ∀ date1 date2 : DtDate, date1.isLegal = true → date2.isLegal = true →
      (dtDateCmp date1 date2 < 0 ↔ date1.fields < date2.fields) ∧
      (dtDateCmp date1 date2 = 0 ↔ date1.fields = date2.fields) ∧
      (0 < dtDateCmp date1 date2 ↔ date2.fields < date1.fields) := by
  refine ⟨fun date hymd hhmsf => ?_, fun date1 date2 h1 h2 => DtDate.cmp_iff h1 h2⟩
  have hfract := le_of_dateIslegalhmsf hhmsf
  have hulong : toUlong date.fraction = date.fraction := by
    rw [toUlong]
    omega
  have hfields := date.setData_fields
  constructor
  · rw [dtDateSetasciizExt, DtDate.datetoasciizSql, date.scanDefault_timestampText hfract,
      Option.bind_some]
    simp only [hymd, hulong, hhmsf, hfields, Bool.not_true, Bool.and_false, Bool.false_eq_true,
      if_true, if_false]
  · intro htime
    rw [DtDate.isTime, Bool.and_eq_true, Bool.and_eq_true] at htime
    obtain ⟨⟨hyear, hmonth⟩, hmday⟩ := htime
    rw [of_decide_eq_true hyear, of_decide_eq_true hmonth, of_decide_eq_true hmday] at hfields
    rw [dtDateSetasciizExt, DtDate.datetoasciizSql, date.scanDefault_timeText hfract,
      Option.bind_some]
    simp only [hulong, hhmsf, hfields, Bool.not_true, Bool.and_false, Bool.false_and,
      Bool.false_eq_true, if_true, if_false]

/-- A leap day before year 0, a time, and their order. -/
theorem dateText_roundtrip_cmp_leapday :
    dtDateSetasciizExt ((DtDate.setData (-5 + dateYeardrift) 2 29 23 59 59 1).datetoasciizSql
        .sqltimestamp) =
      some (.setData (-5 + dateYeardrift) 2 29 23 59 59 1, .sqltimestamp) ∧
    dtDateSetasciizExt ((DtDate.setData dateYeardrift 0 0 7 8 9 0).datetoasciizSql .sqltime) =
      some (.setData dateYeardrift 0 0 7 8 9 0, .sqltime) ∧
    (dtDateCmp (.setData (-5 + dateYeardrift) 2 29 23 59 59 1)
        (.setData dateYeardrift 0 0 7 8 9 0) < 0 ↔
      (DtDate.setData (-5 + dateYeardrift) 2 29 23 59 59 1).fields <
        (DtDate.setData dateYeardrift 0 0 7 8 9 0).fields) :=
  ⟨(dateText_roundtrip_cmp.1 _ (by decide +kernel) (by decide +kernel)).1,
    (dateText_roundtrip_cmp.1 _ (by decide +kernel) (by decide +kernel)).2 (by decide +kernel),
    (dateText_roundtrip_cmp.2 _ _ (by decide +kernel) (by decide +kernel)).1⟩

end SolidDB
