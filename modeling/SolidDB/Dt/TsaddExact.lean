import SolidDB.Dt.TsaddForward
import SolidDB.Dt.DateSubstract

/-!
# Adding is exact

`dt_date_tsadd` with the units that are a number of nanoseconds, as an addition of instants.
`dt_date_substract` finds the amount again, and the negative amount leads back.
-/

namespace SolidDB

variable {now d : DtDate} {unit : DtDateTsiunit} {u v : ℤ}

theorem DtDate.IsTimestamp.isTime_eq_false (h : d.IsTimestamp) : d.isTime = false := by
  have hge := h.year_ge
  rw [DtDate.isTime, decide_eq_false (by omega), Bool.false_and, Bool.false_and]

/-- The result is the timestamp with the instant, and there is none where it is `FALSE`. -/
def MovesTo (total : ℤ) : TsResult DtDate → Prop
  | .done date => date.IsTimestamp ∧ date.instant = total
  | .failed => ∀ date : DtDate, date.IsTimestamp → date.instant ≠ total
  | .undefined => False

def writeFields (f : TsFields) : TsResult DtDate :=
  .ofOption (dtDateSetdata f.ymd.year f.ymd.month f.ymd.mday f.hour f.minute f.sec f.fraction)

theorem writeFields_of_legal {f : TsFields} (h : f.Legal) :
    ∃ date, writeFields f = .done date ∧ date.IsTimestamp ∧ date.instant = f.instant := by
  obtain ⟨date, hset, hfields, hlegal⟩ := dtDateSetdata_of_legal h
  refine ⟨date, ?_, hlegal, ?_⟩
  · rw [writeFields, hset]
    rfl
  · rw [DtDate.instant, hfields]

theorem movesTo_writeFields {total : ℤ} {r : TsResult TsFields}
    (hlegal : ∀ f, r = .done f → f.Legal) :
    MovesTo total (r.bind writeFields) ↔ AddsExactly total r := by
  cases r with
  | done f =>
      obtain ⟨date, hwrite, htimestamp, hinstant⟩ := writeFields_of_legal (hlegal f rfl)
      rw [TsResult.bind_done, hwrite, MovesTo, AddsExactly, hinstant]
      exact and_congr_left fun _ => iff_of_true htimestamp (hlegal f rfl)
  | failed =>
      rw [TsResult.bind_failed, MovesTo, AddsExactly]
      constructor
      · intro hnone f hf hsame
        obtain ⟨date, -, htimestamp, hinstant⟩ := writeFields_of_legal hf
        exact hnone date htimestamp (hinstant.trans hsame)
      · intro hnone date htimestamp
        exact hnone date.tsFields htimestamp.legal
  | undefined => exact Iff.rfl

theorem dtDateTsadd_eq (h : d.IsTimestamp) (v : ℤ) :
    dtDateTsadd now unit v d = (tsaddFields unit v d.tsFields).bind writeFields := by
  rw [dtDateTsadd, h.isTime_eq_false]
  rfl

/-- An addition comes to its instant exactly when the move of the day is safe. -/
theorem dtDateTsadd_iff (hunit : unitNanos unit = some u) (h : d.IsTimestamp) :
    MovesTo (d.instant + v * u) (dtDateTsadd now unit v d) ↔
      MoveSafe d.tsFields.ymd ((d.instant + v * u) / dayNanos) := by
  rw [dtDateTsadd_eq h, movesTo_writeFields fun f => tsaddFields_legal hunit h.legal]
  exact tsaddFields_iff hunit h.legal

/-- The sum is exact, `dt_date_substract` has the amount, and the negative amount leads back. -/
structure AddsAndReturns (now d : DtDate) (unit : DtDateTsiunit) (u v : ℤ) : Prop where
  moves : MovesTo (d.instant + v * u) (dtDateTsadd now unit v d)
  substracts : ∀ r, dtDateTsadd now unit v d = .done r → Substracts (v * u) (dtDateSubstract r d)
  returns : ∀ r, dtDateTsadd now unit v d = .done r → dtDateTsadd now unit (-v) r = .done d

/-- The amount fits into eight bytes, and the move back from the sum is safe. -/
def ReturnSafe (d : DtDate) (amount : ℤ) : Prop :=
  ∀ r : DtDate, r.IsTimestamp → r.instant = d.instant + amount →
    FitsInt8 amount ∧ MoveSafe r.tsFields.ymd (d.instant / dayNanos)

theorem MovesTo.eq_done {total : ℤ} {r : TsResult DtDate} {date : DtDate} (h : MovesTo total r)
    (hdate : date.IsTimestamp) (hinstant : date.instant = total) : r = .done date := by
  cases r with
  | done date' => rw [DtDate.eq_of_instant h.1 hdate (h.2.trans hinstant.symm)]
  | failed => exact absurd hinstant (h date hdate)
  | undefined => exact h.elim

theorem instant_back {r : DtDate} (hr : r.instant = d.instant + v * u) :
    r.instant + -v * u = d.instant := by
  rw [hr]
  ring

theorem addsAndReturns_iff (hunit : unitNanos unit = some u) (h : d.IsTimestamp) :
    AddsAndReturns now d unit u v ↔
      MoveSafe d.tsFields.ymd ((d.instant + v * u) / dayNanos) ∧ ReturnSafe d (v * u) := by
  have hdiff {r : DtDate} (hr : r.instant = d.instant + v * u) : r.instant - d.instant = v * u := by
    rw [hr]
    ring
  constructor
  · rintro ⟨hmoves, hsub, hback⟩
    refine ⟨(dtDateTsadd_iff hunit h).mp hmoves, fun r htimestamp hinstant => ?_⟩
    have hdone := hmoves.eq_done htimestamp hinstant
    have hnanos := hdiff hinstant
    have hreturn : MovesTo (r.instant + -v * u) (dtDateTsadd now unit (-v) r) ↔ _ :=
      dtDateTsadd_iff hunit htimestamp
    rw [instant_back hinstant, hback r hdone] at hreturn
    refine ⟨?_, hreturn.mp ⟨h, rfl⟩⟩
    rw [← hnanos, ← dtDateSubstract_iff htimestamp h, hnanos]
    exact hsub r hdone
  · rintro ⟨hsafe, hreturns⟩
    have hmoves : MovesTo (d.instant + v * u) (dtDateTsadd now unit v d) :=
      (dtDateTsadd_iff hunit h).mpr hsafe
    have hdone (r : DtDate) (hr : dtDateTsadd now unit v d = .done r) :
        r.IsTimestamp ∧ r.instant = d.instant + v * u := by
      rw [hr] at hmoves
      exact hmoves
    refine ⟨hmoves, fun r hr => ?_, fun r hr => ?_⟩
    · obtain ⟨htimestamp, hinstant⟩ := hdone r hr
      have hiff := dtDateSubstract_iff htimestamp h
      rw [hdiff hinstant] at hiff
      exact hiff.mpr (hreturns r htimestamp hinstant).1
    · obtain ⟨htimestamp, hinstant⟩ := hdone r hr
      have hreturn : MovesTo (r.instant + -v * u) (dtDateTsadd now unit (-v) r) ↔ _ :=
        dtDateTsadd_iff hunit htimestamp
      rw [instant_back hinstant] at hreturn
      exact (hreturn.mpr (hreturns r htimestamp hinstant).2).eq_done h rfl

def DtDate.midnight (year month mday : ℤ) : DtDate :=
  .setData (year + dateYeardrift) month mday 0 0 0 0

/-- A leap day and a day added to 28 February. -/
theorem addsAndReturns_leapDay :
    (MoveSafe ⟨2004, 2, 28⟩ (((DtDate.midnight 2004 2 28).instant + 1 * dayNanos) / dayNanos) ∧
      ReturnSafe (DtDate.midnight 2004 2 28) (1 * dayNanos)) ∧
      AddsAndReturns (.midnight 1998 1 1) (.midnight 2004 2 28) .day dayNanos 1 := by
  have hstart : (DtDate.midnight 2004 2 28).IsTimestamp := by decide
  have hend : (DtDate.midnight 2004 2 29).IsTimestamp := by decide
  have hreturn : ReturnSafe (DtDate.midnight 2004 2 28) (1 * dayNanos) := by
    intro r hr hinstant
    rw [DtDate.eq_of_instant hr hend (hinstant.trans (by decide))]
    decide
  have hmove : MoveSafe ⟨2004, 2, 28⟩
      (((DtDate.midnight 2004 2 28).instant + 1 * dayNanos) / dayNanos) := by decide
  exact ⟨⟨hmove, hreturn⟩, (addsAndReturns_iff rfl hstart).mpr ⟨hmove, hreturn⟩⟩

/-- 365 days before 29 February 2004 is not 28 February 2003. -/
theorem not_addsAndReturns_leapDay :
    (DtDate.midnight 2004 2 29).IsTimestamp ∧ unitNanos .day = some dayNanos ∧
      dtDateTsadd (.midnight 1998 1 1) .day (-365) (.midnight 2004 2 29) =
        .done (.midnight 2003 2 28) ∧
      ¬ AddsAndReturns (.midnight 1998 1 1) (.midnight 2004 2 29) .day dayNanos (-365) := by
  have hrun : dtDateTsadd (.midnight 1998 1 1) .day (-365) (.midnight 2004 2 29) =
      .done (.midnight 2003 2 28) := by decide +kernel
  refine ⟨by decide, rfl, hrun, fun h => ?_⟩
  have hmoves := h.moves
  rw [hrun] at hmoves
  exact absurd hmoves.2 (by decide)

/-- A day before 5 January of year 1 the search reads outside of the table. -/
example : dtDateTsadd (.midnight 1998 1 1) .day (-1) (.midnight 1 1 5) = .undefined := by decide

end SolidDB
