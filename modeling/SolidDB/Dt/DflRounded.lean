import SolidDB.Dt.Dfl
import SolidDB.Foundation.Rounding

/-!
# Rounding and truncating decimals

`dfl_rounded` and `dfl_truncated` take the digits away one after the other. When no decimal
place is left, an exponent is borrowed and the mantissa is multiplied back at the end.
-/

namespace SolidDB

section

def roundUp (df : Dfl) : Dfl :=
  if (dfMaddint df 1).neg ∧ (dfMaddint df 1).len < dflMaxlen then dfIncsize (dfMaddint df 1)
  else dfMaddint df 1

def dfMdiv10andround (df : Dfl) : Option Dfl :=
  (dfMdiv10 df).map fun r =>
    if 5 ≤ r.2 then
      if df.neg then dflChangeSign (roundUp (dflChangeSign r.1)) else roundUp r.1
    else r.1

/-- `df_mdiv10`, without the remainder. -/
def cutDigit (df : Dfl) : Option Dfl := (dfMdiv10 df).map Prod.fst

def takeDigits : ℕ → Dfl → ℕ → ℤ → ℕ → Option (Dfl × ℕ × ℕ)
  | 0, _, _, _, _ => none
  | fuel + 1, df, exponent, e, multiplies =>
    if 1 < exponent + e then
      if exponent ≠ 0 then
        (cutDigit df).bind fun df => takeDigits fuel df (exponent - 1) e multiplies
      else
        (cutDigit (incExp df)).bind fun df => takeDigits fuel df exponent (e - 1) (multiplies + 1)
    else some (df, exponent, multiplies)

/-- `while(multiplies--)` -/
def multiplyBack : ℕ → Dfl → Dfl
  | 0, df => df
  | multiplies + 1, df => multiplyBack multiplies (decExp (dfMmul10 df))

/-- The common text of `dfl_rounded` and `dfl_truncated`, which treat the last digit
differently. The exponent is cast to `df_int16`. -/
def dflShortened (lastDigit : Dfl → Option Dfl) (df : Dfl) (exp : ℤ) : Option Dfl :=
  let e := exp.bmod (2 ^ 16)
  if dflOverflow df then some { df with len := 0 }
  else if (df.exp : ℤ) ≤ -e then some df
  else
    (takeDigits (df.exp + e).toNat df df.exp e 0).bind fun r =>
      if r.2.1 ≠ 0 then
        (lastDigit r.1).map fun df => dfCompres (multiplyBack r.2.2 df)
      else
        (lastDigit (incExp r.1)).map fun df => dfCompres (multiplyBack (r.2.2 + 1) df)

def dflRounded (df : Dfl) (exp : ℤ) : Option Dfl := dflShortened dfMdiv10andround df exp

def dflTruncated (df : Dfl) (exp : ℤ) : Option Dfl := dflShortened cutDigit df exp

/-- `dt_dfl_round`: the return value and the decimal. -/
def dtDflRound (srcDfl : Dfl) (scale : ℤ) : Option (Bool × Dfl) :=
  (dflRounded srcDfl (-scale)).map fun df => (!dflOverflow df, df)

def dtDflTruncate (srcDfl : Dfl) (scale : ℤ) : Option (Bool × Dfl) :=
  (dflTruncated srcDfl (-scale)).map fun df => (!dflOverflow df, df)

variable {d : Dfl} {e n : ℕ} {v : ℤ}

/-! ## Overflows -/

/-- An overflow that no step of the multiplication takes for a number again. -/
def Lost (d : Dfl) : Prop := d.len = 0 ∨ d.len = 1 ∧ d.neg = false

theorem Lost.len_le (h : Lost d) : d.len ≤ 1 := by
  rcases h with h | ⟨h, -⟩
  · exact h.trans_le zero_le_one
  · exact h.le

theorem Lost.bytes_eq (h : Lost d) : d.bytes = [] := by
  rw [Dfl.bytes, Nat.sub_eq_zero_of_le h.len_le, List.take_zero]

theorem Lost.setBytes_nil (h : Lost d) : d.setBytes [] = d := by
  rw [Dfl.setBytes, Nat.sub_eq_zero_of_le h.len_le]
  rfl

theorem Lost.changeSign (h : Lost d) : dflChangeSign d = d := by
  rw [dflChangeSign, h.bytes_eq]
  exact (if_neg fun hand => absurd hand.2 (by decide)).trans h.setBytes_nil

theorem Lost.with_exp (h : Lost d) (e : ℕ) : Lost { d with exp := e } := h

theorem Lost.mmul10 (h : Lost d) : Lost (dfMmul10 d) := by
  have hset := (h.with_exp ((d.exp + 1) % 256)).setBytes_nil
  rw [dfMmul10]
  simp only [h.changeSign, ite_self, h.bytes_eq, mulBytes, h.setBytes_nil]
  split
  · exact .inl rfl
  · rw [if_neg]
    · rcases h with h | ⟨h, hneg⟩
      · cases hneg : d.neg with
        | true =>
            have hone : Lost (Dfl.grow { d with exp := (d.exp + 1) % 256 } 0) := by
              refine .inr ⟨congrArg (· + 1) h, ?_⟩
              rfl
            rw [if_pos rfl, if_pos (.inr hneg)]
            exact (congrArg Lost hone.changeSign).mpr hone
        | false =>
            rw [if_neg Bool.false_ne_true, if_neg]
            · exact .inl h
            · rintro (hc | hc)
              · exact hc rfl
              · exact Bool.noConfusion (hneg.symm.trans hc)
      · rw [hneg, if_neg Bool.false_ne_true, if_neg]
        · exact .inr ⟨h, hneg⟩
        · rintro (hc | hc)
          · exact hc rfl
          · exact Bool.noConfusion (hneg.symm.trans hc)
    · exact fun hand => absurd (hand.2.trans h.len_le) (by decide)

theorem Lost.multiplyBack (h : Lost d) (k : ℕ) : Lost (multiplyBack k d) := by
  induction k generalizing d with
  | zero => exact h
  | succ k ih => exact ih (h.mmul10.with_exp _)

theorem Lost.compres (h : Lost d) : dflOverflow (dfCompres d) = true := by
  have hlen := h.len_le
  have hov : dflOverflow d = true := by
    rcases h with h | ⟨h, -⟩
    · rw [dflOverflow, h]
      rfl
    · rw [dflOverflow, h]
      rfl
  rw [dfCompres, if_neg (by rw [dflMaxlen]; omega), if_neg (by omega),
    if_pos (Nat.lt_succ_of_le hlen)]
  split
  · exact hov
  · rfl

/-! ## Multiplying back -/

theorem dfMmul10_of_neg (hneg : d.neg = true) (hpos : (dflChangeSign d).neg = false) :
    dfMmul10 d = dflChangeSign (dfMmul10 (dflChangeSign d)) := by
  rw [dfMmul10, dfMmul10]
  simp only [hneg, hpos, if_true, Bool.false_eq_true, if_false]
  split
  · exact (Lost.changeSign (.inl rfl)).symm
  · split
    · exact (Lost.changeSign (.inl rfl)).symm
    · rfl

theorem dfMmul10_signed (h : d.Is e v) (hv : v ≠ -2 ^ 55) (he : e < 255) :
    (v.natAbs * 10 < 2 ^ 55 → (dfMmul10 d).Is (e + 1) (v * 10)) ∧
      (2 ^ 55 ≤ v.natAbs * 10 → (dfMmul10 d).len = 0) := by
  rcases le_or_gt 0 v with hge | hlt
  · obtain ⟨hfits, hbig⟩ := dfMmul10_is h hge he
    exact ⟨fun hlt => hfits (by omega), fun hle => hbig (by omega)⟩
  · have hneg := h.neg_iff.mpr hlt
    have habs := dflChangeSign_is h hv
    obtain ⟨hfits, hbig⟩ := dfMmul10_is habs (by omega) he
    rw [dfMmul10_of_neg hneg (habs.neg_eq_false (by omega))]
    constructor
    · intro hsmall
      have his := dflChangeSign_is (hfits (by omega)) (by omega)
      rw [neg_mul, neg_neg] at his
      exact his
    · intro hle
      have hlen := hbig (by omega)
      rw [Lost.changeSign (.inl hlen), hlen]

theorem multiplyBack_is (h : d.Is 0 v) (hv : v ≠ -2 ^ 55) (k : ℕ) :
    (v.natAbs * 10 ^ k < 2 ^ 55 → (multiplyBack k d).Is 0 (v * 10 ^ k)) ∧
      (2 ^ 55 ≤ v.natAbs * 10 ^ k → Lost (multiplyBack k d)) := by
  have hb := h.bounds
  induction k generalizing d v with
  | zero =>
      rw [pow_zero, pow_zero, mul_one, mul_one]
      exact ⟨fun _ => h, fun hle => absurd hle (by omega)⟩
  | succ k ih =>
      obtain ⟨hfits, hbig⟩ := dfMmul10_signed h hv (by decide)
      have hpow : v.natAbs * 10 ^ (k + 1) = (v * 10).natAbs * 10 ^ k := by
        rw [Int.natAbs_mul, pow_succ']
        exact (mul_assoc _ _ _).symm
      have hcoef : v * 10 ^ (k + 1) = v * 10 * 10 ^ k := by
        rw [pow_succ', mul_assoc]
      rw [multiplyBack, hpow, hcoef]
      by_cases hsmall : v.natAbs * 10 < 2 ^ 55
      · have his := decExp_is (hfits hsmall)
        exact ih his (by omega) his.bounds
      · have hlost : Lost (decExp (dfMmul10 d)) :=
          Lost.with_exp (.inl (hbig (not_lt.mp hsmall))) _
        refine ⟨fun hlt => absurd hlt (not_lt.mpr ?_), fun _ => hlost.multiplyBack k⟩
        calc 2 ^ 55 ≤ (v * 10).natAbs := by omega
          _ ≤ (v * 10).natAbs * 10 ^ k := Nat.le_mul_of_pos_right _ (Nat.pow_pos (by decide))

end

/-!
## The loops of rounding

What the digits are that the loop takes away, for a mantissa with a negation and for the
lowest one.
-/

section

variable {P Q : ℕ → Dfl → Prop} {lastDigit : Dfl → Option Dfl} {d : Dfl} {e n j : ℕ} {v : ℤ}

/-- One division keeps the rounds that are counted and takes an exponent away. -/
def Divides (divide : Dfl → Option Dfl) (P Q : ℕ → Dfl → Prop) : Prop :=
  ∀ ⦃j d⦄, d.exp ≠ 0 → P j d → ∃ d', divide d = some d' ∧ d'.exp = d.exp - 1 ∧ Q (j + 1) d'

def IgnoresExp (P : ℕ → Dfl → Prop) : Prop :=
  ∀ ⦃j d⦄ (e : ℕ), e < 256 → P j d → P j { d with exp := e }

/-- A decimal without decimal places is divided with a borrowed exponent. -/
theorem divide_borrowed {divide : Dfl → Option Dfl} (hdiv : Divides divide P Q)
    (hexp : IgnoresExp P) (hzero : d.exp = 0) (h : P j d) :
    ∃ d', divide (incExp d) = some d' ∧ d'.exp = 0 ∧ Q (j + 1) d' := by
  have hinc : incExp d = { d with exp := 1 } := by
    rw [incExp, hzero]
  rw [hinc]
  exact hdiv Nat.one_ne_zero (hexp 1 (by decide) h)

/-- The loop takes away all digits but one: `b` of them are borrowed. -/
theorem takeDigits_rule (hcut : Divides cutDigit P P) (hexp : IgnoresExp P) (h : P j d) {e : ℤ}
    (hsum : d.exp + e = n + 1) (m : ℕ) :
    ∃ (d' : Dfl) (b : ℕ), takeDigits (n + 1) d d.exp e m = some (d', d'.exp, m + b) ∧
      P (j + n) d' ∧ d'.exp + e = b + 1 ∧ (d'.exp = 0 ∨ b = 0) := by
  induction n generalizing d e j m with
  | zero =>
      refine ⟨d, 0, ?_, h, hsum, .inr rfl⟩
      rw [takeDigits, if_neg (by omega)]
      rfl
  | succ n ih =>
      have hround : j + (n + 1) = j + 1 + n := by omega
      rw [takeDigits, if_pos (by omega), hround]
      by_cases hzero : d.exp = 0
      · obtain ⟨d₁, hdiv, hexp₁, h₁⟩ := divide_borrowed hcut hexp hzero h
        obtain ⟨d', b, hloop, h', hsum', hb⟩ :=
          ih h₁ (e := e - 1) (by rw [hexp₁]; omega) (m + 1)
        refine ⟨d', b + 1, ?_, h', by omega, .inl ?_⟩
        · rw [if_neg (not_not.mpr hzero), hdiv, Option.bind_some, hzero, ← hexp₁, hloop]
          congr 3
          omega
        · omega
      · obtain ⟨d₁, hdiv, hexp₁, h₁⟩ := hcut hzero h
        obtain ⟨d', b, hloop, h', hsum', hb⟩ :=
          ih h₁ (e := e) (by rw [hexp₁]; omega) m
        refine ⟨d', b, ?_, h', hsum', hb⟩
        rw [if_pos hzero, hdiv, Option.bind_some, ← hexp₁, hloop]

/-- The exponent is an `int`, and its negation fits into `df_int16`. -/
theorem bmod_neg_scale {s : ℤ} (hs : |s| < 2 ^ 15) : (-s).bmod (2 ^ 16) = -s := by
  obtain ⟨hlow, hhigh⟩ := abs_lt.mp hs
  rw [Int.bmod_eq_of_le (by omega) (by omega)]

/-- All digits are taken away, and borrowed exponents are multiplied back. -/
theorem dflShortened_rule (hcut : Divides cutDigit P P) (hlast : Divides lastDigit P Q)
    (hexp : IgnoresExp P) (h : P 0 d) (hvalid : d.Valid) {s : ℤ} (hs : |s| < 2 ^ 15)
    (hlt : s < d.exp) :
    ∃ d' : Dfl, dflShortened lastDigit d (-s) =
        some (dfCompres (multiplyBack (-s).toNat d')) ∧
      Q (d.exp - s).toNat d' ∧ d'.exp = s.toNat := by
  obtain ⟨n, hn⟩ : ∃ n : ℕ, (d.exp : ℤ) + -s = n + 1 :=
    ⟨(d.exp - s).toNat - 1, by omega⟩
  obtain ⟨d₁, b, hloop, h₁, hsum, hb⟩ := takeDigits_rule hcut hexp h hn 0
  have hfuel : (d.exp + -s).toNat = n + 1 := by omega
  have hcount : (d.exp - s).toNat = 0 + n + 1 := by omega
  rw [dflShortened, bmod_neg_scale hs, hvalid.not_overflow, if_neg Bool.false_ne_true,
    if_neg (by omega), hfuel, hloop, Option.bind_some, hcount]
  dsimp only
  by_cases hzero : d₁.exp = 0
  · obtain ⟨d', hdiv, hexp', h'⟩ := divide_borrowed hlast hexp hzero h₁
    have hback : 0 + b + 1 = (-s).toNat := by omega
    rw [if_neg (not_not.mpr hzero), hdiv, Option.map_some, hback]
    exact ⟨d', rfl, h', by omega⟩
  · obtain ⟨d', hdiv, hexp', h'⟩ := hlast hzero h₁
    have hback : 0 + b = (-s).toNat := by omega
    rw [if_pos hzero, hdiv, Option.map_some, hback]
    exact ⟨d', rfl, h', by omega⟩

/-! ## The lowest mantissa -/

structure Emptied (d : Dfl) : Prop where
  len_eq : d.len = 0
  length_ge : 2 ≤ d.mant.length
  compact : compactBytes d.mant = d.mant

theorem dfMdiv10_of_min (h : d.Is e (-2 ^ 55)) : dfMdiv10 d = dfMdiv10 { d with len := 0 } := by
  have hneg := h.neg_iff.mpr (by norm_num)
  have hmin : dflChangeSign { d with exp := d.exp - 1 } = { d with len := 0, exp := d.exp - 1 } :=
    dflChangeSign_min (h.with_exp (d.exp - 1) (by have hlt := h.valid.exp_lt; omega))
  have hlost : dflChangeSign { d with len := 0, exp := d.exp - 1 } =
      { d with len := 0, exp := d.exp - 1 } := Lost.changeSign (.inl rfl)
  have hneg' : ({ d with len := 0 } : Dfl).neg = true := hneg
  rw [dfMdiv10, dfMdiv10]
  simp only [hneg, hneg', if_true, hmin, hlost]

theorem dfMdiv10_lowest (hexp : d.exp ≠ 0) (h : d.Is d.exp (-2 ^ 55) ∨ Emptied d) :
    ∃ d', dfMdiv10 d = some (d', 0) ∧ d'.exp = d.exp - 1 ∧ Emptied d' := by
  have hempty (d : Dfl) (hexp : d.exp ≠ 0) (h : Emptied d) :
      ∃ d', dfMdiv10 d = some (d', 0) ∧ d'.exp = d.exp - 1 ∧ Emptied d' := by
    obtain ⟨e, he⟩ := Nat.exists_eq_succ_of_ne_zero hexp
    have hdiv := dfMdiv10_of_lowest he h.len_eq h.length_ge h.compact
    refine ⟨_, hdiv, ?_, h.len_eq, h.length_ge, h.compact⟩
    rw [he]
    rfl
  rcases h with h | h
  · obtain ⟨hcompact, hbytes⟩ := compact_of_min h
    rw [dfMdiv10_of_min h]
    exact hempty { d with len := 0 } hexp ⟨rfl, hbytes, hcompact⟩
  · exact hempty d hexp h

theorem divides_lowest (hlast : lastDigit = dfMdiv10andround ∨ lastDigit = cutDigit) :
    Divides lastDigit (fun _ d => d.Is d.exp (-2 ^ 55) ∨ Emptied d) fun _ d => Emptied d := by
  intro j d hexp h
  obtain ⟨d', hdiv, hexp', hempty⟩ := dfMdiv10_lowest hexp h
  refine ⟨d', ?_, hexp', hempty⟩
  rcases hlast with rfl | rfl
  · rw [dfMdiv10andround, hdiv]
    rfl
  · rw [cutDigit, hdiv]
    rfl

theorem dflShortened_min (hlast : lastDigit = dfMdiv10andround ∨ lastDigit = cutDigit)
    (h : d.Is d.exp (-2 ^ 55)) {s : ℤ} (hs : |s| < 2 ^ 15) (hlt : s < d.exp) :
    ∃ d', dflShortened lastDigit d (-s) = some d' ∧ dflOverflow d' = true := by
  have hcut : Divides cutDigit (fun _ d => d.Is d.exp (-2 ^ 55) ∨ Emptied d)
      fun _ d => d.Is d.exp (-2 ^ 55) ∨ Emptied d := by
    intro j d hexp h
    obtain ⟨d', hdiv, hexp', hempty⟩ := divides_lowest (.inr rfl) (j := j) hexp h
    exact ⟨d', hdiv, hexp', .inr hempty⟩
  have hexp : IgnoresExp fun _ d => d.Is d.exp (-2 ^ 55) ∨ Emptied d := by
    intro j d e he h
    rcases h with h | h
    · exact .inl (h.with_exp e he)
    · exact .inr ⟨h.len_eq, h.length_ge, h.compact⟩
  obtain ⟨d', hrun, hempty, -⟩ :=
    dflShortened_rule hcut (divides_lowest hlast) hexp (.inl h) h.valid hs hlt
  exact ⟨_, hrun, (Lost.multiplyBack (.inl hempty.len_eq) _).compres⟩

end

end SolidDB
