import SolidDB.Dt.DflRounded
import Mathlib.Data.Rat.Floor
import Mathlib.Tactic.NormNum

/-!
# Rounding is exact

For every mantissa that has a negation the result is the rounded number, and a rounded
number that does not fit is an overflow.
-/

namespace SolidDB

variable {round : ℚ → ℤ} {lastDigit : Dfl → Option Dfl} {d : Dfl} {e n : ℕ} {v s : ℤ}

structure RoundsTo (round : ℚ → ℤ) (d : Dfl) (scale : ℤ) (succ : Bool) (res : Dfl) : Prop where
  value : succ = true → res.Valid ∧ res.value = atScale round scale d.value
  fails : succ = false → ¬ ∃ d' : Decimal, d'.1.value = atScale round scale d.value
  same : (d.exp : ℤ) ≤ scale → succ = true ∧ res = d
  same_value : (∃ n : ℤ, d.value * 10 ^ scale = n) → succ = true ∧ res.value = d.value

def RoundsExactly (d : Decimal) (scale : ℤ) : Prop :=
  (∃ succ res, dtDflRound d.1 scale = some (succ, res) ∧
      RoundsTo halfAway d.1 scale succ res) ∧
    ∃ succ res, dtDflTruncate d.1 scale = some (succ, res) ∧
      RoundsTo towardZero d.1 scale succ res

/-! ## The last digit -/

structure TakesLastDigit (round : ℚ → ℤ) (lastDigit : Dfl → Option Dfl) : Prop where
  is : ∀ ⦃d e v⦄, d.Is (e + 1) v → v ≠ -2 ^ 55 →
    ∃ d', lastDigit d = some d' ∧ d'.Is e (round (v / 10)) ∧ d'.coef ≠ -2 ^ 55
  tdiv : ∀ (v : ℤ) (j : ℕ),
    round ((v.tdiv (10 ^ j) : ℤ) / 10) = round ((v : ℚ) / 10 ^ (j + 1))
  int : ∀ n : ℤ, round n = n

theorem cutDigit_is (h : d.Is (e + 1) v) (hv : v ≠ -2 ^ 55) :
    ∃ d', cutDigit d = some d' ∧ d'.Is e (v.tdiv 10) := by
  obtain ⟨d', hdiv, his, -⟩ := dfMdiv10_is h hv
  refine ⟨d', ?_, his⟩
  rw [cutDigit, hdiv]
  rfl

theorem tdiv_ne_min (v : ℤ) (hv : -2 ^ 55 < v) (hv' : v < 2 ^ 55) (m : ℤ) :
    v.tdiv m ≠ -2 ^ 55 := by
  have habs := Int.natAbs_tdiv_le_natAbs v m
  omega

theorem cutDigit_takes : TakesLastDigit towardZero cutDigit where
  is := by
    intro d e v h hv
    obtain ⟨d', hdiv, his⟩ := cutDigit_is h hv
    have hb := h.bounds
    have hround : towardZero ((v : ℚ) / 10) = v.tdiv 10 := towardZero_div v 10
    rw [hround]
    refine ⟨d', hdiv, his, ?_⟩
    rw [his.coef_eq]
    exact tdiv_ne_min v (by omega) hb.2 10
  tdiv := by
    intro v j
    have hone : towardZero (((v.tdiv (10 ^ j) : ℤ) : ℚ) / 10) = (v.tdiv (10 ^ j)).tdiv 10 :=
      towardZero_div _ 10
    have hall := towardZero_div (K := ℚ) v (10 ^ (j + 1))
    push_cast at hall
    have hcut := tdiv_tdiv_natCast v (10 ^ j) 10
    push_cast at hcut
    rw [hone, hall, pow_succ, hcut]
  int := towardZero_intCast

theorem roundUp_is (h : d.Is e v) (hv : 0 ≤ v) (hfits : v + 1 < 2 ^ 55) :
    (roundUp d).Is e (v + 1) := sum_is h hv (n := 1) (by decide) hfits

theorem dfMdiv10andround_is (h : d.Is (e + 1) v) (hv : v ≠ -2 ^ 55) :
    ∃ d', dfMdiv10andround d = some d' ∧ d'.Is e (v.sign * ((v.natAbs + 5) / 10 : ℕ)) := by
  obtain ⟨d₁, hdiv, his, -⟩ := dfMdiv10_is h hv
  have hb := h.bounds
  rw [dfMdiv10andround, hdiv, Option.map_some]
  refine ⟨_, rfl, ?_⟩
  dsimp only
  rcases lt_or_ge v 0 with hlt | hge
  · obtain ⟨a, rfl⟩ : ∃ a : ℕ, v = -(a : ℤ) := ⟨v.natAbs, by omega⟩
    rw [Int.neg_tdiv, Int.tdiv_eq_ediv_of_nonneg (Int.natCast_nonneg a)] at his
    rw [Int.natAbs_neg, Int.natAbs_natCast, Int.sign_eq_neg_one_of_neg hlt, neg_one_mul]
    split
    next hrem =>
      have habs := dflChangeSign_is his (by omega)
      have hup := roundUp_is habs (by omega) (by omega)
      rw [if_pos (h.neg_iff.mpr hlt)]
      convert dflChangeSign_is hup (by omega) using 1
      omega
    next hrem =>
      convert his using 1
      omega
  · obtain ⟨a, rfl⟩ := Int.eq_ofNat_of_zero_le hge
    rw [Int.tdiv_eq_ediv_of_nonneg hge] at his
    rw [Int.natAbs_natCast]
    rw [Int.natAbs_natCast] at hdiv
    split
    next hrem =>
      have hup := roundUp_is his (by omega) (by omega)
      rw [h.neg_eq_false hge, if_neg Bool.false_ne_true,
        Int.sign_eq_one_of_pos (by omega), one_mul]
      convert hup using 1
      omega
    next hrem =>
      convert his using 1
      rcases Nat.eq_zero_or_pos a with rfl | hpos
      · rfl
      · rw [Int.sign_eq_one_of_pos (by omega), one_mul]
        omega

theorem dfMdiv10andround_takes : TakesLastDigit halfAway dfMdiv10andround where
  is := by
    intro d e v h hv
    obtain ⟨d', hdiv, his⟩ := dfMdiv10andround_is h hv
    have hb := h.bounds
    have hten : ((5 * 2 : ℕ) : ℚ) = 10 := by norm_num
    have hround := halfAway_div (K := ℚ) v 5 (by decide)
    rw [hten] at hround
    rw [hround]
    refine ⟨d', hdiv, his, ?_⟩
    rw [his.coef_eq]
    rcases Int.sign_trichotomy v with hsign | hsign | hsign
    all_goals
      rw [hsign]
      omega
  tdiv := by
    intro v j
    have hcut := halfAway_tdiv_div (K := ℚ) v (10 ^ j) 5 (Nat.pow_pos (by decide)) (by decide)
    push_cast at hcut
    rw [pow_succ, hcut]
  int := halfAway_intCast

/-! ## Scales -/

theorem value_mul_scale (h : d.Is e v) (hle : s ≤ e) :
    d.value * 10 ^ s = v / 10 ^ (e - s).toNat := by
  have hpow : (10 : ℚ) ^ e = 10 ^ s * 10 ^ (e - s).toNat := by
    rw [← zpow_natCast, ← zpow_natCast, ← zpow_add₀ (by norm_num)]
    congr 1
    omega
  have hne : (10 : ℚ) ^ s ≠ 0 := zpow_ne_zero s (by norm_num)
  rw [h.value_eq, hpow]
  field_simp

theorem scaled_eq (q s : ℤ) :
    ((q * 10 ^ (-s).toNat : ℤ) : ℚ) / 10 ^ s.toNat = q / 10 ^ s := by
  have hpow : (10 : ℚ) ^ s.toNat = 10 ^ (-s).toNat * 10 ^ s := by
    rw [← zpow_natCast, ← zpow_natCast, ← zpow_add₀ (by norm_num)]
    congr 1
    omega
  have hne : (10 : ℚ) ^ (-s).toNat ≠ 0 := pow_ne_zero _ (by norm_num)
  push_cast
  rw [hpow, mul_comm, mul_div_mul_left _ _ hne]

theorem atScale_of_int (hint : ∀ n : ℤ, round n = n) {x : ℚ} (h : ∃ n : ℤ, x * 10 ^ s = n) :
    atScale round s x = x := by
  obtain ⟨n, hn⟩ := h
  have hne : (10 : ℚ) ^ s ≠ 0 := zpow_ne_zero s (by norm_num)
  rw [atScale, hn, hint, ← hn, mul_div_cancel_right₀ x hne]

/-- A stored decimal has no more decimal places than its exponent says. -/
theorem scaled_int (d : Dfl) (hle : (d.exp : ℤ) ≤ s) : ∃ n : ℤ, d.value * 10 ^ s = n := by
  refine ⟨d.coef * 10 ^ (s - d.exp).toNat, ?_⟩
  have hpow : (10 : ℚ) ^ s = 10 ^ d.exp * 10 ^ (s - d.exp).toNat := by
    rw [← zpow_natCast, ← zpow_natCast, ← zpow_add₀ (by norm_num)]
    congr 1
    omega
  have hne : (10 : ℚ) ^ d.exp ≠ 0 := pow_ne_zero _ (by norm_num)
  push_cast
  rw [Dfl.value, hpow, ← mul_assoc, div_mul_cancel₀ _ hne]

/-- A mantissa that had to be multiplied back and is too long is in no decimal. -/
theorem not_decimal_of_big {q : ℤ} {k : ℕ} (hk : 0 < k) (hbig : 2 ^ 55 ≤ q.natAbs * 10 ^ k)
    (d : Decimal) : d.1.value ≠ (q * 10 ^ k : ℤ) := by
  intro heq
  have hb := d.2.is.bounds
  have hne : (10 : ℚ) ^ d.1.exp ≠ 0 := pow_ne_zero _ (by norm_num)
  rw [Dfl.value, div_eq_iff hne] at heq
  have hcoef : d.1.coef = q * 10 ^ k * 10 ^ d.1.exp := by exact_mod_cast heq
  have habs : d.1.coef.natAbs = q.natAbs * 10 ^ k * 10 ^ d.1.exp := by
    rw [hcoef, Int.natAbs_mul, Int.natAbs_mul, Int.natAbs_pow, Int.natAbs_pow]
    rfl
  have hge : 2 ^ 55 ≤ d.1.coef.natAbs := by
    rw [habs]
    exact hbig.trans (Nat.le_mul_of_pos_right _ (Nat.pow_pos (by decide)))
  have hten : 10 ∣ d.1.coef.natAbs := by
    rw [habs]
    exact Dvd.dvd.mul_right (Dvd.dvd.mul_left (dvd_pow_self 10 hk.ne') _) _
  have hmin : d.1.coef.natAbs = 2 ^ 55 := by omega
  rw [hmin] at hten
  exact absurd hten (by decide)

/-! ## The whole run -/

/-- The rounded mantissa, or an overflow where it does not fit. -/
theorem dflShortened_is (hlast : TakesLastDigit round lastDigit) (h : d.Is d.exp v)
    (hv : v ≠ -2 ^ 55) (hs : |s| < 2 ^ 15) (hlt : s < d.exp) {q : ℤ}
    (hq : q = round (v / 10 ^ (d.exp - s).toNat)) :
    ∃ d' : Dfl, dflShortened lastDigit d (-s) = some d' ∧
      (q.natAbs * 10 ^ (-s).toNat < 2 ^ 55 → d'.Is s.toNat (q * 10 ^ (-s).toNat)) ∧
      (2 ^ 55 ≤ q.natAbs * 10 ^ (-s).toNat → 0 < (-s).toNat ∧ dflOverflow d' = true) := by
  have hb := h.bounds
  have hcut : Divides cutDigit (fun j d => d.Is d.exp (v.tdiv (10 ^ j)))
      fun j d => d.Is d.exp (v.tdiv (10 ^ j)) := by
    intro j d hexp hd
    obtain ⟨e, he⟩ := Nat.exists_eq_succ_of_ne_zero hexp
    rw [he] at hd
    obtain ⟨d', hdiv, his⟩ := cutDigit_is hd (tdiv_ne_min v (by omega) hb.2 _)
    have htdiv := tdiv_tdiv_natCast v (10 ^ j) 10
    push_cast at htdiv
    refine ⟨d', hdiv, by rw [his.exp_eq, he]; rfl, ?_⟩
    rw [htdiv, ← pow_succ] at his
    rw [his.exp_eq]
    exact his
  have hround : Divides lastDigit (fun j d => d.Is d.exp (v.tdiv (10 ^ j)))
      fun j d => d.Is d.exp (round (v / 10 ^ j)) ∧ d.coef ≠ -2 ^ 55 := by
    intro j d hexp hd
    obtain ⟨e, he⟩ := Nat.exists_eq_succ_of_ne_zero hexp
    rw [he] at hd
    obtain ⟨d', hdiv, his, hne⟩ := hlast.is hd (tdiv_ne_min v (by omega) hb.2 _)
    refine ⟨d', hdiv, by rw [his.exp_eq, he]; rfl, ?_, hne⟩
    rw [hlast.tdiv] at his
    rw [his.exp_eq]
    exact his
  have hstart : d.Is d.exp (v.tdiv (10 ^ 0)) := by
    rw [pow_zero, Int.tdiv_one]
    exact h
  obtain ⟨d₁, hrun, ⟨his, hne⟩, hexp⟩ := dflShortened_rule hcut hround
    (fun j d e he hd => hd.with_exp e he) hstart h.valid hs hlt
  rw [← hq] at his
  have hcoef := his.coef_eq
  rw [hcoef] at hne
  refine ⟨_, hrun, ?_⟩
  rw [hexp] at his
  by_cases hneg : s < 0
  · have hzero : s.toNat = 0 := by omega
    rw [hzero] at his ⊢
    obtain ⟨hfits, hbig⟩ := multiplyBack_is his hne (-s).toNat
    exact ⟨fun hsmall => (dfCompres_is (hfits hsmall)).1,
      fun hge => ⟨by omega, (hbig hge).compres⟩⟩
  · have hback : (-s).toNat = 0 := by omega
    rw [hback, pow_zero, pow_zero, mul_one, mul_one]
    have hqb := his.bounds
    exact ⟨fun _ => (dfCompres_is his).1, fun hge => absurd hge (by omega)⟩

theorem dflShortened_same (h : d.Valid) (hs : |s| < 2 ^ 15) (hle : (d.exp : ℤ) ≤ s) :
    dflShortened lastDigit d (-s) = some d := by
  rw [dflShortened, bmod_neg_scale hs, h.not_overflow, if_neg Bool.false_ne_true,
    if_pos (by omega)]

theorem roundsTo_same (hint : ∀ n : ℤ, round n = n) (h : d.Valid) (hle : (d.exp : ℤ) ≤ s) :
    RoundsTo round d s true d where
  value := fun _ => ⟨h, (atScale_of_int hint (scaled_int d hle)).symm⟩
  fails := fun hfalse => Bool.noConfusion hfalse
  same := fun _ => ⟨rfl, rfl⟩
  same_value := fun _ => ⟨rfl, rfl⟩

theorem dflShortened_roundsTo (hlast : TakesLastDigit round lastDigit) (h : d.Valid)
    (hv : d.coef ≠ -2 ^ 55) (hs : |s| < 2 ^ 15) :
    ∃ d', dflShortened lastDigit d (-s) = some d' ∧ RoundsTo round d s (!dflOverflow d') d' := by
  rcases lt_or_ge s d.exp with hlt | hle
  · obtain ⟨d', hrun, hfits, hbig⟩ := dflShortened_is hlast h.is hv hs hlt rfl
    have hscale := value_mul_scale h.is hlt.le
    set q := round (d.coef / 10 ^ (d.exp - s).toNat) with hq
    have hat : atScale round s d.value = q / 10 ^ s := by
      rw [atScale, hscale]
    have hvalue (his : d'.Is s.toNat (q * 10 ^ (-s).toNat)) :
        d'.value = atScale round s d.value := by
      rw [his.value_eq, scaled_eq, hat]
    have hsmall (hov : dflOverflow d' = false) : q.natAbs * 10 ^ (-s).toNat < 2 ^ 55 := by
      by_contra hge
      exact Bool.noConfusion (hov.symm.trans (hbig (not_lt.mp hge)).2)
    have hfails (hov : dflOverflow d' = true) :
        ¬ ∃ d' : Decimal, d'.1.value = atScale round s d.value := by
      rintro ⟨d₂, hd₂⟩
      have hge : 2 ^ 55 ≤ q.natAbs * 10 ^ (-s).toNat := by
        by_contra hlt
        exact Bool.noConfusion
          ((hfits (not_le.mp hlt)).valid.not_overflow.symm.trans hov)
      have hzero : s.toNat = 0 := by
        have hpos := (hbig hge).1
        omega
      refine not_decimal_of_big (hbig hge).1 hge d₂ ?_
      rw [hd₂, hat, ← scaled_eq, hzero, pow_zero, div_one]
    refine ⟨d', hrun, ?_⟩
    cases hov : dflOverflow d' with
    | false =>
        have his := hfits (hsmall hov)
        exact ⟨fun _ => ⟨his.valid, hvalue his⟩, fun hfalse => Bool.noConfusion hfalse,
          fun hle => absurd hle (not_le.mpr hlt),
          fun hint => ⟨rfl, (hvalue his).trans (atScale_of_int hlast.int hint)⟩⟩
    | true =>
        refine ⟨fun htrue => Bool.noConfusion htrue, fun _ => hfails hov,
          fun hle => absurd hle (not_le.mpr hlt), fun hint => ?_⟩
        exact absurd ⟨⟨d, h⟩, (atScale_of_int hlast.int hint).symm⟩ (hfails hov)
  · rw [dflShortened_same h hs hle]
    refine ⟨d, rfl, ?_⟩
    rw [h.not_overflow]
    exact roundsTo_same hlast.int h hle

/-! ## The lowest mantissa -/

/-- The neighbour of the lowest mantissa has the same quotients. -/
theorem min_tdiv_pow (hn : n ≠ 0) :
    (-2 ^ 55 : ℤ).tdiv (10 ^ n) = (-(2 ^ 55 - 1) : ℤ).tdiv (10 ^ n) := by
  have hndvd : ¬ 10 ^ n ∣ 2 ^ 55 - 1 + 1 := fun hdvd =>
    absurd ((dvd_pow_self 10 hn).trans hdvd) (by decide)
  have hnat : (2 ^ 55 - 1 + 1) / 10 ^ n = _ := Nat.succ_div
  rw [if_neg hndvd, add_zero] at hnat
  have hint := congrArg (fun k : ℕ => -(k : ℤ)) hnat
  rw [Int.ofNat_tdiv, Int.ofNat_tdiv] at hint
  rw [Int.neg_tdiv, Int.neg_tdiv]
  push_cast at hint
  exact hint

theorem towardZero_min (hn : n ≠ 0) :
    towardZero (((-2 ^ 55 : ℤ) : ℚ) / 10 ^ n) =
      towardZero (((-(2 ^ 55 - 1) : ℤ) : ℚ) / 10 ^ n) := by
  have hdiv (v : ℤ) : towardZero ((v : ℚ) / 10 ^ n) = v.tdiv (10 ^ n) := by
    have h := towardZero_div (K := ℚ) v (10 ^ n)
    push_cast at h
    exact h
  rw [hdiv, hdiv, min_tdiv_pow hn]

def secondDfl (e : ℕ) : Dfl := ⟨8, e, [0x80, 0, 0, 0, 0, 0, 1]⟩

theorem secondDfl_is (he : e < 256) : (secondDfl e).Is e (-(2 ^ 55 - 1)) :=
  ⟨⟨(show 2 ≤ 8 by decide), le_rfl, rfl, he⟩, rfl,
    (show signedBytes [0x80, 0, 0, 0, 0, 0, 1] = -(2 ^ 55 - 1) by decide)⟩

theorem exists_truncated (h : d.Is d.exp v) (hv : v ≠ -2 ^ 55) (hs : |s| < 2 ^ 15)
    (hlt : s < d.exp) : ∃ d' : Decimal, d'.1.value = atScale towardZero s d.value := by
  have hb := h.bounds
  obtain ⟨d', -, hfits, -⟩ := dflShortened_is cutDigit_takes h hv hs hlt rfl
  have hscale := value_mul_scale h hlt.le
  have hq : towardZero ((v : ℚ) / 10 ^ (d.exp - s).toNat) = v.tdiv (10 ^ (d.exp - s).toNat) := by
    have hdiv := towardZero_div (K := ℚ) v (10 ^ (d.exp - s).toNat)
    push_cast at hdiv
    exact hdiv
  have hsmall : (v.tdiv (10 ^ (d.exp - s).toNat)).natAbs * 10 ^ (-s).toNat < 2 ^ 55 := by
    have hpow : 10 ^ (-s).toNat ≤ 10 ^ (d.exp - s).toNat :=
      Nat.pow_le_pow_right (by decide) (by omega)
    rw [Int.natAbs_tdiv, Int.natAbs_pow]
    calc v.natAbs / 10 ^ (d.exp - s).toNat * 10 ^ (-s).toNat
        ≤ v.natAbs / 10 ^ (d.exp - s).toNat * 10 ^ (d.exp - s).toNat :=
          Nat.mul_le_mul_left _ hpow
      _ ≤ v.natAbs := Nat.div_mul_le_self _ _
      _ < 2 ^ 55 := by omega
  rw [hq] at hfits
  have his := hfits hsmall
  refine ⟨⟨d', his.valid⟩, ?_⟩
  rw [atScale, hscale, hq, his.value_eq, scaled_eq]

theorem exists_truncated_min (h : d.Is d.exp (-2 ^ 55)) (hs : |s| < 2 ^ 15) (hlt : s < d.exp) :
    ∃ d' : Decimal, d'.1.value = atScale towardZero s d.value := by
  have his := secondDfl_is h.valid.exp_lt
  obtain ⟨d', hd'⟩ := exists_truncated (d := secondDfl d.exp) his (by decide) hs hlt
  refine ⟨d', ?_⟩
  rw [hd', atScale, atScale, value_mul_scale his hlt.le, value_mul_scale h hlt.le,
    towardZero_min (by omega)]

/-- Rounding and truncating is exact but for the lowest mantissa, which is an overflow as
soon as a digit has to be taken away. -/
theorem roundsExactly_iff (d : Decimal) (s : ℤ) (hs : |s| < 2 ^ 15) :
    RoundsExactly d s ↔ d.1.coef ≠ -2 ^ 55 ∨ (d.1.exp : ℤ) ≤ s := by
  constructor
  · rintro ⟨-, succ, res, hrun, hrounds⟩
    by_contra hnot
    rw [not_or, not_not, not_le] at hnot
    obtain ⟨hmin, hlt⟩ := hnot
    have h : d.1.Is d.1.exp (-2 ^ 55) := ⟨d.2, rfl, hmin⟩
    obtain ⟨d', hshort, hov⟩ := dflShortened_min (.inr rfl) h hs hlt
    rw [dtDflTruncate, dflTruncated, hshort, Option.map_some, Option.some_inj,
      Prod.mk.injEq, hov] at hrun
    exact hrounds.fails hrun.1.symm (exists_truncated_min h hs hlt)
  · rintro (hv | hle)
    · obtain ⟨d₁, hrun₁, hrounds₁⟩ :=
        dflShortened_roundsTo dfMdiv10andround_takes d.2 hv hs
      obtain ⟨d₂, hrun₂, hrounds₂⟩ := dflShortened_roundsTo cutDigit_takes d.2 hv hs
      refine ⟨⟨!dflOverflow d₁, d₁, ?_, hrounds₁⟩, !dflOverflow d₂, d₂, ?_, hrounds₂⟩
      · rw [dtDflRound, dflRounded, hrun₁, Option.map_some]
      · rw [dtDflTruncate, dflTruncated, hrun₂, Option.map_some]
    · refine ⟨⟨true, d.1, ?_, roundsTo_same halfAway_intCast d.2 hle⟩, true, d.1, ?_,
        roundsTo_same towardZero_intCast d.2 hle⟩
      · rw [dtDflRound, dflRounded, dflShortened_same d.2 hs hle, Option.map_some,
          d.2.not_overflow]
        rfl
      · rw [dtDflTruncate, dflTruncated, dflShortened_same d.2 hs hle, Option.map_some,
          d.2.not_overflow]
        rfl

def lowestTenth : Decimal := ⟨⟨8, 1, [0x80, 0, 0, 0, 0, 0, 0]⟩, by decide⟩

/-- 25.5 is rounded to 26 and truncated to 25. -/
theorem roundsExactly_tie : RoundsExactly ⟨⟨3, 1, [0, 0xff]⟩, by decide⟩ 0 :=
  (roundsExactly_iff ⟨⟨3, 1, [0, 0xff]⟩, by decide⟩ 0 (by decide)).mpr (.inl (by decide))

/-- The integer next to the lowest mantissa with one decimal place is representable, but
rounding to it fails. -/
theorem roundsExactly_fails_lowest :
    dtDflRound lowestTenth.1 0 = some (false, ⟨0, 0, [0x80, 0, 0, 0, 0, 0, 0]⟩) ∧
      ¬ RoundsExactly lowestTenth 0 := by
  have hrun : dtDflRound lowestTenth.1 0 =
      some (false, ⟨0, 0, [0x80, 0, 0, 0, 0, 0, 0]⟩) := by decide
  refine ⟨hrun, ?_⟩
  rintro ⟨⟨succ, res, hrun', hrounds⟩, -⟩
  rw [hrun, Option.some_inj, Prod.mk.injEq] at hrun'
  refine hrounds.fails hrun'.1.symm
    ⟨⟨⟨8, 0, [0xf3, 0x33, 0x33, 0x33, 0x33, 0x33, 0x33]⟩, by decide⟩, ?_⟩
  have hscale : lowestTenth.1.value * 10 ^ (0 : ℤ) = (-2 ^ 55 : ℤ) / (5 * 2 : ℕ) := by
    have hcoef : lowestTenth.1.coef = -2 ^ 55 := by decide
    rw [Dfl.value, hcoef, zpow_zero, mul_one]
    norm_num [lowestTenth]
  have hvalue : Dfl.coef ⟨8, 0, [0xf3, 0x33, 0x33, 0x33, 0x33, 0x33, 0x33]⟩ =
      -3602879701896397 := by decide
  rw [atScale, hscale, halfAway_div _ 5 (by decide), Dfl.value, hvalue]
  norm_num

end SolidDB
