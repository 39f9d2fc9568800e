import SolidDB.Dt.DflNstRead
import SolidDB.Uti.VtplCompare
import Mathlib.Data.Sign.Basic
import Mathlib.Data.Int.ConditionallyCompleteOrder

/-!
# The order of encoded decimals

The v-attributes of two decimals compare like their values: first the sign, then the exponent
to base 100 and the digits, all turned around for negative decimals. Only a zero of several
bytes is not in its place, because it keeps an exponent.
-/

namespace SolidDB

/-! ## Encodings -/

/-- `dfl_dfltonst` ends and writes the given v-attribute. -/
def NstEncodes (x : Dfl) (nst : List UInt8) : Prop := ∃ fuel, dflDfltonst fuel x = some nst

def NstRoundtrips (x : Dfl) : Prop :=
  ∃ nst d, NstEncodes x nst ∧ dflNsttodfl nst = some d ∧ d.Valid ∧ d.value = x.value

def NstOrdered (x y : Dfl) : Prop :=
  ∃ nst nst', NstEncodes x nst ∧ NstEncodes y nst' ∧
    SignType.sign (vaCompare nst nst') = SignType.sign (x.value - y.value)

theorem NstState.loop_mono {fuel fuel' : ℕ} {st st' : NstState} (h : st.loop fuel = some st')
    (hle : fuel ≤ fuel') : st.loop fuel' = some st' := by
  induction fuel generalizing fuel' st with
  | zero => cases h
  | succ fuel ih =>
      obtain ⟨fuel', rfl⟩ : ∃ n, fuel' = n + 1 := ⟨fuel' - 1, by omega⟩
      rw [NstState.loop] at h ⊢
      by_cases hzero : dfEqzero st.df = true
      · rw [if_pos hzero] at h ⊢
        exact h
      · rw [if_neg hzero] at h ⊢
        obtain ⟨r, hr, h⟩ := Option.bind_eq_some_iff.mp h
        obtain ⟨r', hr', h⟩ := Option.bind_eq_some_iff.mp h
        obtain ⟨st₁, hst, h⟩ := Option.bind_eq_some_iff.mp h
        rw [hr, Option.bind_some, hr', Option.bind_some, hst, Option.bind_some]
        exact ih h (Nat.le_of_succ_le_succ hle)

theorem dflDfltonst_mono {fuel fuel' : ℕ} {x : Dfl} {nst : List UInt8} (hx : x.Valid)
    (h : dflDfltonst fuel x = some nst) (hle : fuel ≤ fuel') :
    dflDfltonst fuel' x = some nst := by
  by_cases hzero : dfEqzero x = true
  · rw [dflDfltonst, hzero] at h ⊢
    exact h
  · rw [dflDfltonst_eq hx hzero] at h ⊢
    obtain ⟨st, hst, h⟩ := Option.bind_eq_some_iff.mp h
    obtain ⟨st', hst', h⟩ := Option.bind_eq_some_iff.mp h
    rw [hst, Option.bind_some, NstState.loop_mono hst' hle, Option.bind_some]
    exact h

theorem NstEncodes.unique {x : Dfl} {nst nst' : List UInt8} (hx : x.Valid)
    (h : NstEncodes x nst) (h' : NstEncodes x nst') : nst = nst' := by
  obtain ⟨fuel, h⟩ := h
  obtain ⟨fuel', h'⟩ := h'
  have hmax := dflDfltonst_mono hx h (le_max_left fuel fuel')
  have hmax' := dflDfltonst_mono hx h' (le_max_right fuel fuel')
  exact Option.some.inj (hmax.symm.trans hmax')

/-- The exponent that is left of a zero: nothing for a zero of one byte. -/
def zeroByte (x : Dfl) : ℕ := if dfEqzero x then 0 else (129 - (x.exp + 1) / 2) / 2

theorem zeroByte_le (x : Dfl) : zeroByte x ≤ 64 := by
  rw [zeroByte]
  split <;> omega

inductive NstImage (x : Dfl) : List UInt8 → Prop where
  | zero (h0 : x.coef = 0) : NstImage x [UInt8.ofNat (128 + zeroByte x)]
  | form {b : ℕ} {ps : List UInt8} (h0 : x.coef ≠ 0) (hb : b < 256)
      (hform : NstForm (nstNumber x.exp x.coef) ((x.exp + 1) / 2) b ps) :
      NstImage x (nstData x.neg ((b : ℤ) - 128) ps)

theorem nstVa_eq_encVa {data : List UInt8} (h : data.length ≤ dfnstLen - 1) :
    nstVa data = encVa data := by
  have hshort : byteLenTest data.length = true :=
    (byteLenTest_iff _).mpr (h.trans_lt (by decide))
  rw [nstVa, encVa, vaSetLen, if_pos hshort]
  rfl

theorem NstImage.length_le {x : Dfl} {data : List UInt8} (h : NstImage x data) :
    data.length ≤ dfnstLen - 1 := by
  cases h with
  | zero h0 => exact (show 1 ≤ dfnstLen - 1 by decide)
  | form h0 hb hform =>
      rw [length_nstData]
      exact Nat.succ_le_succ hform.length

theorem exists_nstImage {x : Dfl} (hx : x.Valid) (hmin : x.coef ≠ -2 ^ 55) :
    ∃ data, NstImage x data ∧ NstEncodes x (nstVa data) := by
  by_cases h0 : x.coef = 0
  · refine ⟨_, .zero h0, 10, ?_⟩
    rw [zeroByte]
    by_cases hz : dfEqzero x = true
    · have hnov : ¬ dflOverflow x = true := by
        rw [hx.not_overflow]
        exact Bool.false_ne_true
      rw [dflDfltonst, if_neg hnov, if_pos hz, if_pos hz]
      rfl
    · have hexp := hx.exp_lt
      have hb : (1 - ((x.exp + 1) / 2 : ℕ) : ℤ) = (129 - (x.exp + 1) / 2 : ℕ) - 128 := by omega
      rw [dflDfltonst_zero hx h0 hz (by decide), if_neg hz, hb, nstData_pos (by omega)]
      rfl
  · obtain ⟨b, ps, hb, hform, heq⟩ := dflDfltonst_form hx.is hmin h0 (le_refl 10)
    exact ⟨_, .form h0 hb hform, 10, heq⟩

/-! ## The order of the digits -/

def nstMagnitude (b : ℕ) (ps : List UInt8) : ℚ := digitFraction 100 ps * 100 ^ b

variable {M h M' h' b b' : ℕ} {ps ps' : List UInt8}

theorem NstForm.magnitude_lt (hform : NstForm M h b ps) : nstMagnitude b ps < 100 ^ b := by
  have hlt := digitFraction_lt_one (by decide) hform.digits
  have hpow : (0 : ℚ) < 100 ^ b := by positivity
  rw [nstMagnitude]
  exact (mul_lt_mul_of_pos_right hlt hpow).trans_eq (one_mul _)

theorem NstForm.le_magnitude (hform : NstForm M h b ps) :
    (100 : ℚ) ^ b ≤ nstMagnitude b ps * 100 := by
  obtain ⟨p, rest, rfl, hp⟩ := hform.head
  have hle := le_digitFraction (show 0 < 100 by decide) hp rest
  have hpow : (0 : ℚ) < 100 ^ b := by positivity
  have hmul := mul_le_mul_of_nonneg_right hle hpow.le
  rw [nstMagnitude]
  push_cast at hmul
  linarith

theorem NstForm.magnitude_pos (hform : NstForm M h b ps) : 0 < nstMagnitude b ps := by
  have hle := hform.le_magnitude
  have hpow : (0 : ℚ) < 100 ^ b := by positivity
  linarith

theorem NstForm.magnitude_lt_of_lt (hform : NstForm M h b ps) (hform' : NstForm M' h' b' ps')
    (hlt : b < b' ∨ (b = b' ∧ ps < ps')) : nstMagnitude b ps < nstMagnitude b' ps' := by
  rcases hlt with hlt | ⟨rfl, hlt⟩
  · have hle := hform'.le_magnitude
    have hpow : (100 : ℚ) ^ (b + 1) ≤ 100 ^ b' := pow_le_pow_right₀ (by norm_num) hlt
    have hup := hform.magnitude_lt
    rw [pow_succ] at hpow
    linarith
  · have hpow : (0 : ℚ) < 100 ^ b := by positivity
    exact mul_lt_mul_of_pos_right
      (digitFraction_lt hlt hform.digits hform'.digits hform'.last) hpow

theorem NstForm.lt_of_bytes_lt {p p' : UInt8} {rest rest' : List UInt8}
    (hform : NstForm M h b (p :: rest)) (hform' : NstForm M' h' b' (p' :: rest')) (hb : b < 256)
    (hb' : b' < 256)
    (hlt : UInt8.ofNat (128 + b / 2) :: nstHead b p :: rest <
      UInt8.ofNat (128 + b' / 2) :: nstHead b' p' :: rest') :
    b < b' ∨ (b = b' ∧ p :: rest < p' :: rest') := by
  have hp := hform.head_lt
  have hp' := hform'.head_lt
  rcases List.cons_lt_cons_iff.mp hlt with hlt | ⟨heq, hlt⟩
  · rw [UInt8.lt_iff_toNat_lt, toNat_ofNat_byte, toNat_ofNat_byte] at hlt
    omega
  · have heq' := congrArg UInt8.toNat heq
    rw [toNat_ofNat_byte, toNat_ofNat_byte] at heq'
    rcases List.cons_lt_cons_iff.mp hlt with hlt | ⟨hhead, hlt⟩
    · rw [UInt8.lt_iff_toNat_lt, toNat_nstHead b hp, toNat_nstHead b' hp'] at hlt
      by_cases hbb : b < b'
      · exact Or.inl hbb
      · refine Or.inr ⟨by omega, List.cons_lt_cons_iff.mpr (Or.inl ?_)⟩
        rw [UInt8.lt_iff_toNat_lt]
        omega
    · have hhead' := congrArg UInt8.toNat hhead
      rw [toNat_nstHead b hp, toNat_nstHead b' hp'] at hhead'
      refine Or.inr ⟨by omega, List.cons_lt_cons_iff.mpr (Or.inr ⟨?_, hlt⟩)⟩
      rw [← UInt8.toNat_inj]
      omega

/-! ## Data areas and values -/

def SameOrder (f g : List UInt8) (u v : ℚ) : Prop :=
  (f < g ∧ u < v) ∨ (g < f ∧ v < u) ∨ (f = g ∧ u = v)

theorem SameOrder.symm {f g : List UInt8} {u v : ℚ} (h : SameOrder f g u v) :
    SameOrder g f v u := by
  rcases h with h | h | h
  · exact Or.inr (Or.inl h)
  · exact Or.inl h
  · exact Or.inr (Or.inr ⟨h.1.symm, h.2.symm⟩)

theorem sameOrder_of {f g : List UInt8} {u v : ℚ} (hlt : f < g → u < v) (hgt : g < f → v < u)
    (heq : f = g → u = v) : SameOrder f g u v := by
  rcases lt_trichotomy f g with h | h | h
  · exact Or.inl ⟨h, hlt h⟩
  · exact Or.inr (Or.inr ⟨h, heq h⟩)
  · exact Or.inr (Or.inl ⟨h, hgt h⟩)

theorem SameOrder.lt_iff {f g : List UInt8} {u v : ℚ} (h : SameOrder f g u v) :
    f < g ↔ u < v := by
  rcases h with ⟨hfg, huv⟩ | ⟨hfg, huv⟩ | ⟨rfl, rfl⟩
  · exact iff_of_true hfg huv
  · exact iff_of_false hfg.not_gt huv.not_gt
  · exact iff_of_false (lt_irrefl f) (lt_irrefl u)

theorem sameOrder_mul {f g : List UInt8} {u v c : ℚ} (hc : 0 < c) :
    SameOrder f g (u * c) (v * c) ↔ SameOrder f g u v := by
  rw [SameOrder, SameOrder, mul_lt_mul_iff_left₀ hc, mul_lt_mul_iff_left₀ hc,
    mul_left_inj' hc.ne']

/-- `va_compare` gives the sign of the difference exactly when the orders agree. -/
theorem sign_vaCompare_iff {f g : List UInt8} {u v : ℚ} (hf : f.length < 2 ^ 31)
    (hg : g.length < 2 ^ 31) :
    SignType.sign (vaCompare (encVa f) (encVa g)) = SignType.sign (u - v) ↔
      SameOrder f g u v := by
  rcases vaCompare_cases hf hg with ⟨hneg, hlt⟩ | ⟨hpos, hgt⟩ | ⟨hzero, rfl⟩
  · rw [sign_neg hneg, eq_comm, sign_eq_neg_one_iff, sub_neg]
    refine ⟨fun h => Or.inl ⟨hlt, h⟩, ?_⟩
    rintro (h | h | h)
    · exact h.2
    · exact absurd h.1 hlt.not_gt
    · exact absurd h.1 hlt.ne
  · rw [sign_pos hpos, eq_comm, sign_eq_one_iff, sub_pos]
    refine ⟨fun h => Or.inr (Or.inl ⟨hgt, h⟩), ?_⟩
    rintro (h | h | h)
    · exact absurd h.1 hgt.not_gt
    · exact h.2
    · exact absurd h.1 hgt.ne'
  · rw [hzero, sign_zero, eq_comm, sign_eq_zero_iff, sub_eq_zero]
    refine ⟨fun h => Or.inr (Or.inr ⟨rfl, h⟩), ?_⟩
    rintro (h | h | h)
    · exact absurd h.1 (lt_irrefl f)
    · exact absurd h.1 (lt_irrefl f)
    · exact h.2

/-- The bytes of positive decimals are in the order of the magnitudes. -/
theorem NstForm.sameOrder_pos {p p' : UInt8} {rest rest' : List UInt8}
    (hform : NstForm M h b (p :: rest)) (hform' : NstForm M' h' b' (p' :: rest')) (hb : b < 256)
    (hb' : b' < 256) :
    SameOrder (UInt8.ofNat (128 + b / 2) :: nstHead b p :: rest)
      (UInt8.ofNat (128 + b' / 2) :: nstHead b' p' :: rest')
      (nstMagnitude b (p :: rest)) (nstMagnitude b' (p' :: rest')) := by
  refine sameOrder_of (fun hlt => ?_) (fun hgt => ?_) (fun heq => ?_)
  · exact hform.magnitude_lt_of_lt hform' (hform.lt_of_bytes_lt hform' hb hb' hlt)
  · exact hform'.magnitude_lt_of_lt hform (hform'.lt_of_bytes_lt hform hb' hb hgt)
  · have hp := hform.head_lt
    have hp' := hform'.head_lt
    obtain ⟨hfirst, hrest⟩ := List.cons.inj heq
    obtain ⟨hhead, rfl⟩ := List.cons.inj hrest
    have hfirst' := congrArg UInt8.toNat hfirst
    have hhead' := congrArg UInt8.toNat hhead
    rw [toNat_ofNat_byte, toNat_ofNat_byte] at hfirst'
    rw [toNat_nstHead b hp, toNat_nstHead b' hp'] at hhead'
    obtain rfl : b = b' := by omega
    obtain rfl : p = p' := UInt8.toNat_inj.mp (by omega)
    rfl

theorem lt_of_negated_lt {f g : List UInt8} (hb : b < 256) (hb' : b' < 256) (hne : f ≠ [])
    (hf : NoLastZero f) (hg : NoLastZero g)
    (hlt : UInt8.ofNat (127 - b / 2) :: (negateBytes f).1 <
      UInt8.ofNat (127 - b' / 2) :: (negateBytes g).1) :
    UInt8.ofNat (128 + b' / 2) :: g < UInt8.ofNat (128 + b / 2) :: f := by
  rcases List.cons_lt_cons_iff.mp hlt with hlt | ⟨heq, hlt⟩
  · refine List.cons_lt_cons_iff.mpr (Or.inl ?_)
    rw [UInt8.lt_iff_toNat_lt, toNat_ofNat_byte, toNat_ofNat_byte] at hlt ⊢
    omega
  · have heq' := congrArg UInt8.toNat heq
    rw [toNat_ofNat_byte, toNat_ofNat_byte] at heq'
    refine List.cons_lt_cons_iff.mpr (Or.inr ⟨?_, ?_⟩)
    · rw [show b / 2 = b' / 2 by omega]
    · rcases lt_trichotomy f g with hfg | rfl | hgf
      · exact absurd hlt (negateBytes_lt hfg hne hf hg).not_gt
      · exact absurd hlt (lt_irrefl _)
      · exact hgf

theorem NstForm.sameOrder_neg {p p' : UInt8} {rest rest' : List UInt8}
    (hform : NstForm M h b (p :: rest)) (hform' : NstForm M' h' b' (p' :: rest')) (hb : b < 256)
    (hb' : b' < 256) :
    SameOrder (UInt8.ofNat (127 - b / 2) :: (negateBytes (nstHead b p :: rest)).1)
      (UInt8.ofNat (127 - b' / 2) :: (negateBytes (nstHead b' p' :: rest')).1)
      (-nstMagnitude b (p :: rest)) (-nstMagnitude b' (p' :: rest')) := by
  have hpos := hform.sameOrder_pos hform' hb hb'
  have hlast := hform.noLastZero
  have hlast' := hform'.noLastZero
  refine sameOrder_of (fun hlt => ?_) (fun hgt => ?_) (fun heq => ?_)
  · exact neg_lt_neg (hpos.symm.lt_iff.mp
      (lt_of_negated_lt hb hb' (List.cons_ne_nil _ _) hlast hlast' hlt))
  · exact neg_lt_neg (hpos.lt_iff.mp
      (lt_of_negated_lt hb' hb (List.cons_ne_nil _ _) hlast' hlast hgt))
  · obtain ⟨hfirst, hrest⟩ := List.cons.inj heq
    have hfirst' := congrArg UInt8.toNat hfirst
    rw [toNat_ofNat_byte, toNat_ofNat_byte] at hfirst'
    have hbytes : nstHead b p :: rest = nstHead b' p' :: rest' := by
      rw [← negateBytes_negateBytes (nstHead b p :: rest), hrest, negateBytes_negateBytes]
    have hhalf : b / 2 = b' / 2 := by omega
    rw [hbytes, hhalf] at hpos
    rcases hpos with hlt | hlt | heq
    · exact absurd hlt.1 (lt_irrefl _)
    · exact absurd hlt.1 (lt_irrefl _)
    · rw [heq.2]

theorem NstForm.sameOrder (hform : NstForm M h b ps) (hform' : NstForm M' h' b' ps')
    (hb : b < 256) (hb' : b' < 256) (neg neg' : Bool) :
    SameOrder (nstData neg ((b : ℤ) - 128) ps) (nstData neg' ((b' : ℤ) - 128) ps')
      ((if neg then -1 else 1) * nstMagnitude b ps)
      ((if neg' then -1 else 1) * nstMagnitude b' ps') := by
  have hmag := hform.magnitude_pos
  have hmag' := hform'.magnitude_pos
  obtain ⟨p, rest, rfl, -⟩ := hform.head
  obtain ⟨p', rest', rfl, -⟩ := hform'.head
  rw [hform.data_eq hb, hform'.data_eq hb']
  have hsign {b b' : ℕ} {f g : List UInt8} (hb' : b' < 256) :
      UInt8.ofNat (127 - b / 2) :: f < UInt8.ofNat (128 + b' / 2) :: g := by
    refine List.cons_lt_cons_iff.mpr (Or.inl ?_)
    rw [UInt8.lt_iff_toNat_lt, toNat_ofNat_byte, toNat_ofNat_byte]
    omega
  cases neg with
  | true =>
      cases neg' with
      | true =>
          simp only [if_true, neg_one_mul]
          exact hform.sameOrder_neg hform' hb hb'
      | false =>
          simp only [if_true, Bool.false_eq_true, if_false, neg_one_mul, one_mul]
          exact Or.inl ⟨hsign hb', by linarith⟩
  | false =>
      cases neg' with
      | true =>
          simp only [if_true, Bool.false_eq_true, if_false, neg_one_mul, one_mul]
          exact Or.inr (Or.inl ⟨hsign hb, by linarith⟩)
      | false =>
          simp only [Bool.false_eq_true, if_false, one_mul]
          exact hform.sameOrder_pos hform' hb hb'

theorem value_eq_sign (x : Dfl) :
    x.value = (if x.neg then -1 else 1) * ((x.coef.natAbs : ℚ) / 10 ^ x.exp) := by
  have hcoef := coef_eq_natAbs x
  rw [Dfl.value]
  generalize x.coef.natAbs = n at hcoef
  rw [hcoef]
  cases x.neg with
  | true =>
      simp only [if_true]
      rw [Int.cast_neg, Int.cast_natCast, neg_div, neg_one_mul]
  | false =>
      simp only [Bool.false_eq_true, if_false, one_mul]
      rw [Int.cast_natCast]

theorem NstForm.value_eq {x : Dfl}
    (hform : NstForm (nstNumber x.exp x.coef) ((x.exp + 1) / 2) b ps) :
    x.value * 100 ^ 128 = (if x.neg then -1 else 1) * nstMagnitude b ps := by
  obtain ⟨s, hM, hexp, -⟩ := hform.sum
  have hnumber : nstNumber x.exp x.coef = nstNumber x.exp x.coef.natAbs := by
    rw [nstNumber, nstNumber, Int.natAbs_natCast]
  have hvalue := nstNumber_value x.exp x.coef.natAbs
  rw [← hnumber, hM, pow_mul, show (10 : ℚ) ^ 2 = 100 by norm_num] at hvalue
  have hpow (k : ℕ) : (100 : ℚ) ^ k ≠ 0 := pow_ne_zero _ (by norm_num)
  have hmag : (x.coef.natAbs : ℚ) / 10 ^ x.exp * 100 ^ 128 = nstMagnitude b ps := by
    rw [← hvalue, nstMagnitude, digitFraction, div_mul_eq_mul_div, div_mul_eq_mul_div]
    push_cast
    rw [div_eq_div_iff (hpow _) (hpow _), mul_assoc, mul_assoc, mul_assoc, ← pow_add, ← pow_add,
      ← pow_add, show s + (128 + ps.length) = b + (x.exp + 1) / 2 by omega]
  rw [value_eq_sign, ← hmag, mul_assoc]

/-! ## Zeros -/

/-- A zero sorts like a zero: other zeros leave the same exponent, and a positive decimal is
not below the place of the exponent. -/
structure ZeroInPlace (x y : Dfl) : Prop where
  zero : x.coef = 0 → y.coef = 0 → zeroByte x = zeroByte y
  positive : x.coef = 0 → 0 < y.coef → (100 : ℚ) ^ (2 * zeroByte x) ≤ y.value * 100 ^ 129

theorem toNat_zero_first (x : Dfl) :
    (UInt8.ofNat (128 + zeroByte x)).toNat = 128 + zeroByte x := by
  have hle := zeroByte_le x
  rw [toNat_ofNat_byte]
  omega

theorem value_eq_zero {x : Dfl} (h0 : x.coef = 0) : x.value = 0 := by
  rw [Dfl.value, h0, Int.cast_zero, zero_div]

theorem value_pos_iff (x : Dfl) : 0 < x.value ↔ 0 < x.coef := by
  have hpow : (0 : ℚ) < 10 ^ x.exp := by positivity
  rw [Dfl.value, div_pos_iff_of_pos_right hpow, Int.cast_pos]

theorem NstForm.sameOrder_zero {x y : Dfl} (hx : x.coef = 0) (hy : y.coef ≠ 0) (hb : b < 256)
    (hform : NstForm (nstNumber y.exp y.coef) ((y.exp + 1) / 2) b ps) :
    SameOrder [UInt8.ofNat (128 + zeroByte x)] (nstData y.neg ((b : ℤ) - 128) ps) x.value y.value ↔
      ZeroInPlace x y := by
  have hvalue := hform.value_eq
  have hlow := hform.le_magnitude
  have hup := hform.magnitude_lt
  have hneg : y.neg = true ↔ y.coef < 0 := (signedBytes_neg_iff y.mant).symm
  have hpos := value_pos_iff y
  have hfirst := toNat_zero_first x
  have hz := zeroByte_le x
  obtain ⟨p, rest, rfl, -⟩ := hform.head
  rw [hform.data_eq hb, value_eq_zero hx]
  cases hsign : y.neg with
  | true =>
      have hlt := hneg.mp hsign
      rw [if_pos rfl]
      refine iff_of_true (Or.inr (Or.inl ⟨?_, ?_⟩)) ⟨fun _ h => absurd h hy, fun _ h => ?_⟩
      · refine List.cons_lt_cons_iff.mpr (Or.inl ?_)
        rw [UInt8.lt_iff_toNat_lt, toNat_ofNat_byte, hfirst]
        omega
      · by_contra hge
        have hmag := hform.magnitude_pos
        rw [hsign, if_pos rfl] at hvalue
        have hpow : (0 : ℚ) < 100 ^ 128 := by positivity
        have hmul := mul_nonneg (not_lt.mp hge) hpow.le
        linarith
      · omega
  | false =>
      have hgt : 0 < y.coef := by
        have hnlt := mt hneg.mpr (by rw [hsign]; exact Bool.false_ne_true)
        omega
      have hv := hpos.mpr hgt
      rw [hsign, if_neg Bool.false_ne_true, one_mul] at hvalue
      rw [if_neg Bool.false_ne_true]
      have hscale : y.value * 100 ^ 129 = nstMagnitude b (p :: rest) * 100 := by
        rw [← hvalue]
        ring
      have hplace : (100 : ℚ) ^ (2 * zeroByte x) ≤ y.value * 100 ^ 129 ↔ 2 * zeroByte x ≤ b := by
        rw [hscale]
        constructor
        · intro hle
          by_contra hlt
          have hpow : (100 : ℚ) ^ (b + 1) ≤ 100 ^ (2 * zeroByte x) :=
            pow_le_pow_right₀ (by norm_num) (by omega)
          rw [pow_succ] at hpow
          linarith
        · intro hle
          have hpow : (100 : ℚ) ^ (2 * zeroByte x) ≤ 100 ^ b :=
            pow_le_pow_right₀ (by norm_num) hle
          linarith
      have hiff : SameOrder [UInt8.ofNat (128 + zeroByte x)]
          (UInt8.ofNat (128 + b / 2) :: nstHead b p :: rest) 0 y.value ↔
            2 * zeroByte x ≤ b := by
        constructor
        · rintro (h | h | h)
          · rcases List.cons_lt_cons_iff.mp h.1 with hlt | ⟨heq, -⟩
            · rw [UInt8.lt_iff_toNat_lt, hfirst, toNat_ofNat_byte] at hlt
              omega
            · have heq' := congrArg UInt8.toNat heq
              rw [hfirst, toNat_ofNat_byte] at heq'
              omega
          · exact absurd h.2 hv.not_gt
          · exact absurd h.2 hv.ne
        · intro hle
          refine Or.inl ⟨List.cons_lt_cons_iff.mpr ?_, hv⟩
          rcases Nat.lt_or_ge (zeroByte x) (b / 2) with hlt | hge
          · left
            rw [UInt8.lt_iff_toNat_lt, hfirst, toNat_ofNat_byte]
            omega
          · rw [show zeroByte x = b / 2 by omega]
            exact Or.inr ⟨rfl, List.nil_lt_cons _ _⟩
      rw [hiff, ← hplace]
      exact ⟨fun hle => ⟨fun _ h => absurd h hy, fun _ _ => hle⟩, fun h => h.positive hx hgt⟩

/-! ## All decimals -/

theorem NstImage.sameOrder_iff {x y : Dfl} {f g : List UInt8} (hf : NstImage x f)
    (hg : NstImage y g) :
    SameOrder f g x.value y.value ↔ ZeroInPlace x y ∧ ZeroInPlace y x := by
  have hnone {x y : Dfl} (h0 : x.coef ≠ 0) : ZeroInPlace x y :=
    ⟨fun h => absurd h h0, fun h => absurd h h0⟩
  cases hf with
  | zero hx =>
      cases hg with
      | zero hy =>
          have hx' := toNat_zero_first x
          have hy' := toNat_zero_first y
          rw [value_eq_zero hx, value_eq_zero hy]
          constructor
          · rintro (h | h | h)
            · exact absurd h.2 (lt_irrefl 0)
            · exact absurd h.2 (lt_irrefl 0)
            · have heq := congrArg UInt8.toNat (List.cons.inj h.1).1
              rw [hx', hy'] at heq
              exact ⟨⟨fun _ _ => by omega, fun _ h => by omega⟩,
                ⟨fun _ _ => by omega, fun _ h => by omega⟩⟩
          · intro h
            rw [h.1.zero hx hy]
            exact Or.inr (Or.inr ⟨rfl, rfl⟩)
      | form hy hb hform =>
          rw [hform.sameOrder_zero hx hy hb]
          exact ⟨fun h => ⟨h, hnone hy⟩, And.left⟩
  | form hx hb hform =>
      cases hg with
      | zero hy =>
          have hswap := hform.sameOrder_zero hy hx hb
          exact ⟨fun h => ⟨hnone hx, hswap.mp h.symm⟩, fun h => (hswap.mpr h.2).symm⟩
      | form hy hb' hform' =>
          have hsame := hform.sameOrder hform' hb hb' x.neg y.neg
          rw [← hform.value_eq, ← hform'.value_eq, sameOrder_mul (by positivity)] at hsame
          exact iff_of_true hsame ⟨hnone hx, hnone hy⟩

theorem not_nstEncodes_min {x : Dfl} {nst : List UInt8} (hx : x.Valid)
    (hmin : x.coef = -2 ^ 55) : ¬ NstEncodes x nst := by
  rintro ⟨fuel, h⟩
  rw [dflDfltonst_min hx hmin] at h
  cases h

theorem NstImage.read_iff {x : Dfl} {data : List UInt8} (hx : x.Valid) (hmin : x.coef ≠ -2 ^ 55)
    (h : NstImage x data) :
    (∃ d, dflNsttodfl (nstVa data) = some d ∧ d.Valid ∧ d.value = x.value) ↔
      (x.exp % 2 = 1 → (10 : ℤ) ∣ x.coef ∨ 10 * |x.coef| < 2 ^ 55) := by
  have hlen := h.length_le
  cases h with
  | zero h0 =>
      refine iff_of_true ⟨dfZero, ?_, dfZero_is.valid, ?_⟩ fun _ => Or.inl ?_
      · rw [dflNsttodfl, take_nstVa hlen]
      · rw [value_eq_zero h0, value_eq_zero (show dfZero.coef = 0 by decide)]
      · rw [h0]
        exact dvd_zero 10
  | form h0 hb hform =>
      have hbounds := hx.is.bounds
      have habs : x.coef.natAbs < 2 ^ 55 := by omega
      have hnumber : nstNumber x.exp x.coef = nstNumber x.exp x.coef.natAbs := by
        rw [nstNumber, nstNumber, Int.natAbs_natCast]
      have hfits := hform.fits_iff habs
      have habs' : (10 * |x.coef| < 2 ^ 55) ↔ 10 * x.coef.natAbs < 2 ^ 55 := by
        rw [Int.abs_eq_natAbs]
        omega
      rw [habs', ← hfits, value_eq_sign x]
      rw [hnumber] at hform
      rcases Nat.lt_or_ge (ofDigitBytes 100 _) (2 ^ 55) with hlt | hge
      · exact iff_of_true (hform.read_exact hb hx.exp_lt habs x.neg hlt) hlt
      · refine iff_of_false ?_ (not_lt.mpr hge)
        obtain ⟨d', hread, hne⟩ := hform.read_lost hb hx.exp_lt habs x.neg hge
        rintro ⟨d, hd, -, heq⟩
        obtain rfl := Option.some.inj (hread.symm.trans hd)
        exact hne heq

/-- A decimal is read back from its encoding unless the mantissa is the lowest one, which has
no encoding, or it has an odd number of decimal places and no room for one more digit. The
encodings of two decimals with an encoding compare like the values, apart from zeros that
leave an exponent. -/
theorem decimalNst_exact_iff (x y : Decimal) :
    (NstRoundtrips x.1 ↔ x.1.coef ≠ -2 ^ 55 ∧
      (x.1.exp % 2 = 1 → (10 : ℤ) ∣ x.1.coef ∨ 10 * |x.1.coef| < 2 ^ 55)) ∧
      (NstOrdered x.1 y.1 ↔ (x.1.coef ≠ -2 ^ 55 ∧ y.1.coef ≠ -2 ^ 55) ∧
        ZeroInPlace x.1 y.1 ∧ ZeroInPlace y.1 x.1) := by
  obtain ⟨x, hx⟩ := x
  obtain ⟨y, hy⟩ := y
  constructor
  · by_cases hmin : x.coef = -2 ^ 55
    · refine iff_of_false ?_ fun h => h.1 hmin
      rintro ⟨nst, d, henc, -⟩
      exact not_nstEncodes_min hx hmin henc
    · obtain ⟨data, himage, henc⟩ := exists_nstImage hx hmin
      have hiff := himage.read_iff hx hmin
      constructor
      · rintro ⟨nst, d, henc', hread⟩
        rw [henc'.unique hx henc] at hread
        exact ⟨hmin, hiff.mp ⟨d, hread⟩⟩
      · intro hcond
        obtain ⟨d, hread⟩ := hiff.mpr hcond.2
        exact ⟨nstVa data, d, henc, hread⟩
  · by_cases hmin : x.coef ≠ -2 ^ 55 ∧ y.coef ≠ -2 ^ 55
    · obtain ⟨f, hf, henc⟩ := exists_nstImage hx hmin.1
      obtain ⟨g, hg, henc'⟩ := exists_nstImage hy hmin.2
      have hlen := hf.length_le
      have hlen' := hg.length_le
      rw [nstVa_eq_encVa hlen] at henc
      rw [nstVa_eq_encVa hlen'] at henc'
      rw [dfnstLen] at hlen hlen'
      have hsign := sign_vaCompare_iff (f := f) (g := g) (u := x.value) (v := y.value)
        (by omega) (by omega)
      have hsame := hf.sameOrder_iff hg
      constructor
      · rintro ⟨nst, nst', hnst, hnst', heq⟩
        rw [hnst.unique hx henc, hnst'.unique hy henc'] at heq
        exact ⟨hmin, hsame.mp (hsign.mp heq)⟩
      · intro hcond
        exact ⟨_, _, henc, henc', hsign.mpr (hsame.mpr hcond.2)⟩
    · refine iff_of_false ?_ fun h => hmin h.1
      rintro ⟨nst, nst', hnst, hnst', -⟩
      refine hmin ⟨fun hx' => ?_, fun hy' => ?_⟩
      · exact not_nstEncodes_min hx hx' hnst
      · exact not_nstEncodes_min hy hy' hnst'

def highestDfl : Dfl := ⟨8, 1, [0x7F, 0xFF, 0xFF, 0xFF, 0xFF, 0xFF, 0xFF]⟩

theorem highestDfl_valid : highestDfl.Valid := by decide

theorem not_nstRoundtrips_highest : ¬ ∀ x : Decimal, NstRoundtrips x.1 := by
  intro h
  obtain ⟨nst, d, henc, hread, -, hvalue⟩ := h ⟨highestDfl, highestDfl_valid⟩
  have hrun : (dflDfltonst 10 highestDfl).bind dflNsttodfl =
      some ⟨8, 0, [0x0C, 0xCC, 0xCC, 0xCC, 0xCC, 0xCC, 0xCC]⟩ := by decide +kernel
  obtain ⟨nst', henc', hread'⟩ := Option.bind_eq_some_iff.mp hrun
  obtain rfl := henc.unique highestDfl_valid ⟨10, henc'⟩
  obtain rfl := Option.some.inj (hread'.symm.trans hread)
  have hcoef : (⟨8, 0, [0x0C, 0xCC, 0xCC, 0xCC, 0xCC, 0xCC, 0xCC]⟩ : Dfl).coef =
      3602879701896396 := by decide +kernel
  have hhigh : highestDfl.coef = 36028797018963967 := by decide +kernel
  rw [Dfl.value, Dfl.value, hcoef, hhigh] at hvalue
  norm_num [highestDfl] at hvalue

end SolidDB
