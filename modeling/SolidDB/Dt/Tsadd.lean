import SolidDB.Dt.DateInstant

/-!
# Adding to a timestamp

`dt_date_tsadd`. The amounts of the small units fall through a chain of carries down to the
days, which are added in jumps of a year and then in jumps of a month.
-/

namespace SolidDB

inductive DtDateTsiunit where
  | fracSecond
  | second
  | minute
  | hour
  | day
  | week
  | month
  | quarter
  | year
  deriving DecidableEq

/-- How a step of `dt_date_tsadd` ends: with a value, with `FALSE`, or by reading outside of a
table. -/
inductive TsResult (α : Type) where
  | done (a : α)
  | failed
  | undefined
  deriving DecidableEq

namespace TsResult

variable {α β : Type}

def bind : TsResult α → (α → TsResult β) → TsResult β
  | done a, f => f a
  | failed, _ => failed
  | undefined, _ => undefined

@[simp] theorem bind_done (a : α) (f : α → TsResult β) : (done a).bind f = f a := rfl

@[simp] theorem bind_failed (f : α → TsResult β) : failed.bind f = .failed := rfl

@[simp] theorem bind_undefined (f : α → TsResult β) : undefined.bind f = .undefined := rfl

/-- A value that is missing makes the function return `FALSE`. -/
def ofOption : Option α → TsResult α
  | some a => done a
  | none => failed

end TsResult

/-! ## Days -/

/-- `SsTimeIsLeapYear((uint)year)` as a condition. -/
def isLeap (year : ℤ) : Prop := ssTimeIsLeapYear (.ofInt year) ≠ 0

instance (year : ℤ) : Decidable (isLeap year) := inferInstanceAs (Decidable (_ ≠ _))

def leapBack (c : Ymd) : ℤ :=
  if 2 < c.month ∧ isLeap c.year then 1
  else if c.month ≤ 2 ∧ isLeap (c.year - 1) then 1
  else 0

def mdayDecr (c : Ymd) : ℤ := if c.month = 2 ∧ c.mday = 29 then -1 else 0

def backYears : ℕ → Ymd → ℤ → TsResult (Ymd × ℤ)
  | 0, _, _ => .undefined
  | fuel + 1, c, val =>
    if 365 + leapBack c ≤ val then
      if c.year - 1 ≤ 0 then .failed
      else
        backYears fuel ⟨c.year - 1, c.month, c.mday + mdayDecr c⟩ (val - (365 + leapBack c))
    else .done (c, val)

/-- The loop over months for a negative amount. The length of the month is read first. -/
def backMonths : ℕ → Ymd → ℤ → TsResult Ymd
  | 0, _, _ => .undefined
  | fuel + 1, c, val =>
    let month1 := if c.month = 1 then 12 else c.month - 1
    let year1 := if c.month = 1 then c.year - 1 else c.year
    match readDaysInMonth (.ofInt year1) month1 with
    | none => .undefined
    | some ndaysinmonth =>
      let decr := if ndaysinmonth < c.mday then ndaysinmonth - c.mday else 0
      if ndaysinmonth ≤ val + decr then
        if year1 ≤ 0 then .failed
        else backMonths fuel ⟨year1, month1, c.mday + decr⟩ (val - ndaysinmonth + decr)
      else if c.mday ≤ val then .done ⟨year1, month1, ndaysinmonth - (val - c.mday)⟩
      else .done { c with mday := c.mday - val }

/-- The leap day of the year after a day; the day itself does not count. -/
def leapForward (c : Ymd) : ℤ :=
  if c.month = 2 ∧ c.mday = 29 then 0
  else if c.month ≤ 2 ∧ isLeap c.year then 1
  else if 2 < c.month ∧ isLeap (c.year + 1) then 1
  else 0

def forwardYears : ℕ → Ymd → ℤ → TsResult (Ymd × ℤ)
  | 0, _, _ => .undefined
  | fuel + 1, c, val =>
    if 365 + leapForward c ≤ val then
      forwardYears fuel ⟨c.year + 1, c.month, c.mday + mdayDecr c⟩ (val - (365 + leapForward c))
    else .done (c, val)

/-- The loop over months for a positive amount, counted from the day before the month. -/
def forwardMonths : ℕ → ℤ → ℤ → ℤ → TsResult Ymd
  | 0, _, _, _ => .undefined
  | fuel + 1, year, month, val =>
    match readDaysInMonth (.ofInt year) month with
    | none => .undefined
    | some ndaysinmonth =>
      if ndaysinmonth < val then
        if 12 < month + 1 then forwardMonths fuel (year + 1) 1 (val - ndaysinmonth)
        else forwardMonths fuel year (month + 1) (val - ndaysinmonth)
      else .done ⟨year, month, val⟩

def dayCase (val : ℤ) (c : Ymd) : TsResult Ymd :=
  if val < 0 then
    (backYears ((-val).toNat + 1) c (-val)).bind fun r => backMonths (r.2.toNat + 1) r.1 r.2
  else
    (forwardYears (val.toNat + 1) c val).bind fun r =>
      if dateYearmax < r.1.year then .failed
      else
        (forwardMonths ((r.2 + r.1.mday).toNat + 1) r.1.year r.1.month (r.2 + r.1.mday)).bind
          fun c => if dateYearmax < c.year then .failed else .done c

/-! ## Carries -/

/-- The field, `val` and `lend` after an amount was added to a field of the given base. -/
def carryField (base field val lend : ℤ) : ℤ × ℤ × ℤ :=
  if val < 0 then
    let tmp := (-val).tmod base
    if field - tmp < 0 then (field + base - tmp, val.tdiv base + -1, -1)
    else (field - tmp, val.tdiv base + 0, 0)
  else ((val + field).tmod base, (val + field).tdiv base + lend, lend)

def dayFields (val : ℤ) (f : TsFields) : TsResult TsFields :=
  (dayCase val f.ymd).bind fun c => .done { f with ymd := c }

def hourCase (val lend : ℤ) (f : TsFields) : TsResult TsFields :=
  let r := carryField 24 f.hour val lend
  if r.2.1 = 0 then .done { f with hour := r.1 } else dayFields r.2.1 { f with hour := r.1 }

def minuteCase (val lend : ℤ) (f : TsFields) : TsResult TsFields :=
  let r := carryField 60 f.minute val lend
  if r.2.1 = 0 then .done { f with minute := r.1 }
  else hourCase r.2.1 r.2.2 { f with minute := r.1 }

def secondCase (val lend : ℤ) (f : TsFields) : TsResult TsFields :=
  let r := carryField 60 f.sec val lend
  if r.2.1 = 0 then .done { f with sec := r.1 }
  else minuteCase r.2.1 r.2.2 { f with sec := r.1 }

/-- The loop that borrows seconds until the nanoseconds are not negative. -/
def borrowSeconds : ℕ → ℤ → ℤ → TsResult (ℤ × ℤ)
  | 0, _, _ => .undefined
  | fuel + 1, val, lend =>
    if val < 0 then borrowSeconds fuel (val + 1000000000) (lend - 1) else .done (val, lend)

def fracCase (val : ℤ) (f : TsFields) : TsResult TsFields :=
  let r : TsResult (ℤ × ℤ) :=
    if val < 0 then borrowSeconds ((-(val + f.fraction)).toNat + 1) (val + f.fraction) 0
    else .done (val + f.fraction, 0)
  r.bind fun r =>
    let val := r.1.tdiv 1000000000 + r.2
    let f := { f with fraction := r.1.tmod 1000000000 }
    if val = 0 then .done f else secondCase val r.2 f

/-! ## Months and years -/

def yearCase (val : ℤ) (c : Ymd) : TsResult Ymd :=
  let year := c.year + val
  if dateYearmax < year ∨ year ≤ 0 then .failed
  else
    match readDaysInMonth (.ofInt year) c.month with
    | none => .undefined
    | some ndaysinmonth =>
      .done ⟨year, c.month, if ndaysinmonth < c.mday then ndaysinmonth else c.mday⟩

def monthCase (val : ℤ) (c : Ymd) : TsResult Ymd :=
  if val < 0 then
    let r := (-val).tmod 12
    let c := if c.month ≤ r then { c with year := c.year - 1, month := c.month + 12 } else c
    yearCase (-(-val).tdiv 12) { c with month := c.month - r }
  else
    let val := val + (c.month - 1)
    yearCase (val.tdiv 12) { c with month := val.tmod 12 + 1 }

def ymdFields (r : TsResult Ymd) (f : TsFields) : TsResult TsFields :=
  r.bind fun c => .done { f with ymd := c }

/-- The `switch` over the units. Amounts are not bounded. -/
def tsaddFields (unit : DtDateTsiunit) (val : ℤ) (f : TsFields) : TsResult TsFields :=
  match unit with
  | .fracSecond => fracCase val f
  | .second => secondCase val 0 f
  | .minute => minuteCase val 0 f
  | .hour => hourCase val 0 f
  | .day => dayFields val f
  | .week => dayFields (val * 7) f
  | .month => ymdFields (monthCase val f.ymd) f
  | .quarter => ymdFields (monthCase (val * 3) f.ymd) f
  | .year => ymdFields (yearCase val f.ymd) f

/-- `dt_date_padtimewithcurdate` at the current date `now`. -/
def padtimewithcurdate (now d : DtDate) : DtDate :=
  if d.isTime then
    (dtDateSetdata now.year now.month now.mday d.hour d.min d.sec d.fraction).getD d
  else d

/-- `dt_date_tsadd` at the current date `now`. -/
def dtDateTsadd (now : DtDate) (unit : DtDateTsiunit) (val : ℤ) (srcD : DtDate) :
    TsResult DtDate :=
  let destD := if srcD.isTime then padtimewithcurdate now srcD else srcD
  (tsaddFields unit val destD.tsFields).bind fun f =>
    .ofOption (dtDateSetdata f.ymd.year f.ymd.month f.ymd.mday f.hour f.minute f.sec f.fraction)

end SolidDB
