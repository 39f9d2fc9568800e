import SolidDB.Foundation.ByteNumber
import Mathlib.Algebra.Order.Field.Rat

/-!
# Decimal numbers

The decimals of `dt1dfl.c`: a mantissa of one to seven bytes in two's complement and a
decimal exponent. Bytes behind the last used mantissa byte are left out.
-/

namespace SolidDB

/-- `MAXLEN` -/
def dflMaxlen : ℕ := 8

/-- `dt_dfl_t`: byte 0, the exponent byte and the mantissa from byte 2 on. Byte 0 is the
index of the last mantissa byte. An overflow sets it to 0 and leaves the other bytes. -/
structure Dfl where
  len : ℕ
  exp : ℕ
  mant : List UInt8
  deriving DecidableEq

namespace Dfl

/-- The bytes that the loops from 2 to byte 0 run over. -/
def bytes (d : Dfl) : List UInt8 := d.mant.take (d.len - 1)

def setBytes (d : Dfl) (bs : List UInt8) : Dfl :=
  { d with mant := bs ++ d.mant.drop (d.len - 1) }

def grow (d : Dfl) (c : UInt8) : Dfl :=
  { d with len := d.len + 1, mant := c :: d.bytes ++ (d.mant.drop (d.len - 1)).tail }

def neg (d : Dfl) : Bool := signBit d.mant

structure Valid (d : Dfl) : Prop where
  len_ge : 2 ≤ d.len
  len_le : d.len ≤ dflMaxlen
  mant_length : d.mant.length + 1 = d.len
  exp_lt : d.exp < 256

instance (d : Dfl) : Decidable d.Valid :=
  decidable_of_iff (2 ≤ d.len ∧ d.len ≤ dflMaxlen ∧ d.mant.length + 1 = d.len ∧ d.exp < 256)
    ⟨fun h => ⟨h.1, h.2.1, h.2.2.1, h.2.2.2⟩, fun h => ⟨h.1, h.2, h.3, h.4⟩⟩

def coef (d : Dfl) : ℤ := signedBytes d.mant

def value (d : Dfl) : ℚ := d.coef / 10 ^ d.exp

structure Is (d : Dfl) (e : ℕ) (v : ℤ) : Prop where
  valid : d.Valid
  exp_eq : d.exp = e
  coef_eq : d.coef = v

def Compact (d : Dfl) : Prop := compactBytes d.mant = d.mant

end Dfl

def Decimal : Type := { d : Dfl // d.Valid }

def dfZero : Dfl := ⟨2, 0, [0]⟩

def dflNan : Dfl := ⟨0, 0, []⟩

def dflOverflow (d : Dfl) : Bool := dflMaxlen < d.len || d.len = 0 || d.len = 1

def dfEqzero (d : Dfl) : Bool := d.len = 2 && d.mant.headD 0 = 0

/-- `dfl_change_sign`. The test for a new byte is made when the carry reaches the first
byte. -/
def dflChangeSign (d : Dfl) : Dfl :=
  let r := (negateBytes d.bytes).1
  if (negateBytes d.bytes.tail).2 ∧ r.headD 0 = 0x80 then
    if dflMaxlen ≤ d.len then { d.setBytes r with len := 0 }
    else (d.setBytes r).grow 0
  else d.setBytes r

def dfCompres (d : Dfl) : Dfl :=
  if dflMaxlen < d.len then dflNan
  else if d.len = 2 then d
  else if d.len < 2 then
    -- byte 0 wraps around when a byte is taken away
    if compactBytes d.mant = d.mant ∧ 2 ≤ d.mant.length then d else dflNan
  else { d with len := (compactBytes d.bytes).length + 1, mant := compactBytes d.bytes }

def dfIncsize (d : Dfl) : Dfl := d.grow 0

def incExp (df : Dfl) : Dfl := { df with exp := (df.exp + 1) % 256 }

def decExp (df : Dfl) : Dfl := { df with exp := (df.exp + 255) % 256 }

def dfMaddint (d : Dfl) (smallint : ℕ) : Dfl :=
  d.setBytes (mulBytes 1 d.bytes smallint).1

/-- `df_mulint`, only for a positive decimal. -/
def dfMulint (d : Dfl) (smallint : ℕ) : Dfl :=
  let r := mulBytes smallint d.bytes 0
  let d' := d.setBytes r.1
  if r.2 ≠ 0 ∨ d'.neg then
    if dflMaxlen ≤ d.len then { d' with len := 0 } else d'.grow (UInt8.ofNat r.2)
  else d'

def dfMmul10 (d : Dfl) : Dfl :=
  let negative := d.neg
  let d₁ := if negative then dflChangeSign d else d
  let r := mulBytes 10 d₁.bytes 0
  let d₂ : Dfl := { d₁.setBytes r.1 with exp := (d₁.exp + 1) % 256 }
  if d₂.exp = 0 then { d₂ with len := 0 }
  else if (r.2 ≠ 0 ∨ d₂.neg) ∧ dflMaxlen ≤ d₂.len then { d₂ with len := 0 }
  else
    let d₃ := if r.2 ≠ 0 ∨ d₂.neg then d₂.grow (UInt8.ofNat r.2) else d₂
    if negative then dflChangeSign d₃ else d₃

/-- `df_mdiv10`: the decimal and the remainder, `none` when the exponent is 0, which an
assertion excludes. -/
def dfMdiv10 (d : Dfl) : Option (Dfl × ℕ) :=
  if d.exp = 0 then none
  else
    let d₁ : Dfl := { d with exp := d.exp - 1 }
    let d₂ := if d.neg then dflChangeSign d₁ else d₁
    let r := divBytes 10 d₂.bytes 0
    let d₃ := if d.neg then dflChangeSign (d₂.setBytes r.1) else d₂.setBytes r.1
    some (dfCompres d₃, r.2)

def normalizeLoop : ℕ → Dfl → Option Dfl
  | 0, d => some d
  | fuel + 1, d =>
    if d.exp = 0 then some d
    else
      (dfMdiv10 d).bind fun r =>
        if r.2 ≠ 0 then some d
        else if dflMaxlen < r.1.len then some dflNan
        else normalizeLoop fuel r.1

def dfNormalize (d : Dfl) : Option Dfl := (normalizeLoop d.exp d).map dfCompres

/-! ## Valid decimals -/

variable {d : Dfl} {e : ℕ} {v : ℤ}

namespace Dfl

theorem Valid.bytes_eq (h : d.Valid) : d.bytes = d.mant := by
  rw [bytes, List.take_of_length_le]
  have hlen := h.mant_length
  omega

theorem Valid.setBytes_eq (h : d.Valid) (bs : List UInt8) :
    d.setBytes bs = { d with mant := bs } := by
  rw [setBytes, List.drop_of_length_le, List.append_nil]
  have hlen := h.mant_length
  omega

theorem Valid.grow_eq (h : d.Valid) (c : UInt8) :
    d.grow c = { d with len := d.len + 1, mant := c :: d.mant } := by
  have hlen := h.mant_length
  rw [grow, h.bytes_eq, List.drop_of_length_le (by omega), List.tail_nil, List.append_nil]

theorem Valid.mant_ne_nil (h : d.Valid) : d.mant ≠ [] := by
  intro hnil
  have hlen := h.mant_length
  have hge := h.len_ge
  rw [hnil, List.length_nil] at hlen
  omega

theorem Valid.with_mant (h : d.Valid) {bs : List UInt8} (hbs : bs.length = d.mant.length) :
    ({ d with mant := bs } : Dfl).Valid :=
  ⟨h.len_ge, h.len_le, by rw [hbs]; exact h.mant_length, h.exp_lt⟩

theorem Valid.with_grow (h : d.Valid) (hlen : d.len < dflMaxlen) (c : UInt8) :
    ({ d with len := d.len + 1, mant := c :: d.mant } : Dfl).Valid :=
  ⟨h.len_ge.trans (Nat.le_succ _), hlen, by rw [List.length_cons, h.mant_length], h.exp_lt⟩

theorem Valid.not_overflow (h : d.Valid) : dflOverflow d = false := by
  have hge := h.len_ge
  have hle := h.len_le
  simp only [dflOverflow, Bool.or_eq_false_iff, decide_eq_false_iff_not]
  omega

theorem Valid.pow_le (h : d.Valid) : 256 ^ d.mant.length ≤ 2 ^ 56 := by
  have hle := h.len_le
  have hlen := h.mant_length
  calc 256 ^ d.mant.length ≤ 256 ^ 7 := by
        refine Nat.pow_le_pow_right (by decide) ?_
        rw [dflMaxlen] at hle
        omega
    _ = 2 ^ 56 := by norm_num

theorem Is.bounds (h : d.Is e v) : -2 ^ 55 ≤ v ∧ v < 2 ^ 55 := by
  have hb := signedBytes_bounds d.mant
  have hpow := h.valid.pow_le
  rw [← h.coef_eq, coef]
  generalize 256 ^ d.mant.length = m at hb hpow
  zify at hpow
  constructor
  · linarith
  · linarith

theorem Is.neg_iff (h : d.Is e v) : d.neg = true ↔ v < 0 := by
  rw [← h.coef_eq, coef, signedBytes_neg_iff, neg]

theorem Is.value_eq (h : d.Is e v) : d.value = v / 10 ^ e := by
  rw [value, h.coef_eq, h.exp_eq]

theorem Valid.is (h : d.Valid) : d.Is d.exp d.coef := ⟨h, rfl, rfl⟩

theorem Is.ofBytes_eq (h : d.Is e v) (hv : 0 ≤ v) : (ofBytes d.mant : ℤ) = v := by
  rw [← h.coef_eq, coef] at hv ⊢
  refine (signedBytes_of_not_signBit ?_).symm
  rw [Bool.eq_false_iff, ne_eq, ← signedBytes_neg_iff]
  exact not_lt.mpr hv

end Dfl

theorem dfZero_is : dfZero.Is 0 (0 : ℕ) := ⟨by decide, rfl, by decide⟩

/-! ## The sign -/

/-- Only the lowest number of seven bytes has no negation. -/
theorem dflChangeSign_is (h : d.Is e v) (hv : v ≠ -2 ^ 55) : (dflChangeSign d).Is e (-v) := by
  have hvalid := h.valid
  have hmin := negateBytes_min_iff hvalid.mant_ne_nil
  have hlen := hvalid.mant_length
  have hcoef : signedBytes d.mant = v := h.coef_eq
  rw [dflChangeSign, hvalid.bytes_eq, hvalid.setBytes_eq]
  simp only [hmin, hcoef]
  split
  next hlow =>
    have hshort : ¬ dflMaxlen ≤ d.len := fun hle => by
      have h8 : d.mant.length = 7 := by
        have hle' := hvalid.len_le
        rw [dflMaxlen] at hle hle'
        omega
      rw [h8] at hlow
      norm_num at hlow
      exact hv (by omega)
    rw [if_neg hshort]
    have hset := hvalid.with_mant (length_negateBytes d.mant)
    rw [hset.grow_eq]
    refine ⟨hset.with_grow (not_le.mp hshort) 0, h.exp_eq, ?_⟩
    rw [← hcoef] at hlow ⊢
    exact (signedBytes_zero_cons _).trans (ofBytes_negateBytes_min hlow)
  next hlow =>
    refine ⟨hvalid.with_mant (length_negateBytes d.mant), h.exp_eq, ?_⟩
    rw [← hcoef] at hlow ⊢
    exact signedBytes_negateBytes hlow

/-- The lowest number of seven bytes becomes an overflow that keeps its bytes. -/
theorem dflChangeSign_min (h : d.Is e (-2 ^ 55)) : dflChangeSign d = { d with len := 0 } := by
  have hvalid := h.valid
  have hcoef : signedBytes d.mant = -2 ^ 55 := h.coef_eq
  have hb := signedBytes_bounds d.mant
  have hpow := hvalid.pow_le
  have hlow : 2 * signedBytes d.mant = -(256 ^ d.mant.length : ℕ) := by
    rw [hcoef] at hb ⊢
    zify at hpow hb ⊢
    linarith
  have hof := ofBytes_negateBytes_min hlow
  have hsame : (negateBytes d.mant).1 = d.mant := by
    refine ofBytes_injective (length_negateBytes d.mant) ?_
    have hbit := (signedBytes_neg_iff d.mant).mp (by rw [hcoef]; norm_num)
    have hsigned := signedBytes_of_signBit hbit
    zify
    linarith
  have hfull : dflMaxlen ≤ d.len := by
    by_contra hshort
    have hle : 256 ^ d.mant.length ≤ 256 ^ 6 := by
      refine Nat.pow_le_pow_right (by decide) ?_
      have hlen := hvalid.mant_length
      rw [dflMaxlen] at hshort
      omega
    rw [hcoef] at hlow
    omega
  have hmin := (negateBytes_min_iff hvalid.mant_ne_nil).mpr hlow
  rw [dflChangeSign, hvalid.bytes_eq, if_pos hmin, if_pos hfull, hvalid.setBytes_eq, hsame]

theorem coef_eq_natAbs (d : Dfl) :
    d.coef = if d.neg then -(d.coef.natAbs : ℤ) else d.coef.natAbs := by
  have hneg := signedBytes_neg_iff d.mant
  rw [Dfl.neg]
  split
  next h =>
    have hlow := hneg.mpr h
    rw [Dfl.coef]
    omega
  next h =>
    have hge := mt hneg.mp h
    rw [Dfl.coef]
    omega

/-! ## Leading bytes -/

theorem dfCompres_is (h : d.Is e v) : (dfCompres d).Is e v ∧ (dfCompres d).Compact := by
  have hvalid := h.valid
  have hge := hvalid.len_ge
  have hle := hvalid.len_le
  have hlen := hvalid.mant_length
  rw [dfCompres, if_neg (not_lt.mpr hle), hvalid.bytes_eq]
  split
  next h2 =>
    refine ⟨h, ?_⟩
    have h1 : d.mant.length = 1 := by omega
    obtain ⟨b, hb⟩ := List.length_eq_one_iff.mp h1
    rw [Dfl.Compact, hb]
    rfl
  next h2 =>
    rw [if_neg (not_lt.mpr hge)]
    have hpos := List.length_pos_iff.mpr (compactBytes_ne_nil hvalid.mant_ne_nil)
    have hshort := length_compactBytes_le d.mant
    refine ⟨⟨⟨?_, ?_, rfl, hvalid.exp_lt⟩, h.exp_eq, ?_⟩, compactBytes_compactBytes d.mant⟩
    · exact Nat.succ_le_succ hpos
    · exact (Nat.succ_le_succ hshort).trans (hlen.le.trans hle)
    · rw [← h.coef_eq]
      exact signedBytes_compactBytes d.mant

theorem eq_zero_of_dfEqzero (h : d.Is e v) (hz : dfEqzero d = true) : v = 0 := by
  rw [dfEqzero, Bool.and_eq_true, decide_eq_true_iff, decide_eq_true_iff] at hz
  have hlen := h.valid.mant_length
  obtain ⟨b, hb⟩ := List.length_eq_one_iff.mp (Nat.succ_injective (hlen.trans hz.1))
  rw [hb, List.headD_cons] at hz
  rw [← h.coef_eq, Dfl.coef, hb, hz.2]
  rfl

theorem dfEqzero_iff (h : d.Is e v) (hc : d.Compact) : dfEqzero d = true ↔ v = 0 := by
  refine ⟨eq_zero_of_dfEqzero h, fun hv => ?_⟩
  have hzero : ofBytes d.mant = 0 := by
    have heq := h.ofBytes_eq hv.ge
    rw [hv] at heq
    exact_mod_cast heq
  have hmant : d.mant = [0] := hc.symm.trans (compactBytes_of_zero h.valid.mant_ne_nil hzero)
  have hlen := h.valid.mant_length
  rw [hmant] at hlen
  rw [dfEqzero, hmant, ← hlen]
  rfl

/-! ## Products -/

theorem Dfl.Is.of_mant {bs : List UInt8} (h : d.Is e v) (hbs : bs.length = d.mant.length)
    (hsign : signBit bs = false) : ({ d with mant := bs } : Dfl).Is e (ofBytes bs) :=
  ⟨h.valid.with_mant hbs, h.exp_eq, signedBytes_of_not_signBit hsign⟩

theorem Dfl.Valid.grow_is {c : UInt8} (h : d.Valid) (hlen : d.len < dflMaxlen)
    (hc : c.toNat < 128) : (d.grow c).Is d.exp (ofBytes (c :: d.mant)) := by
  rw [h.grow_eq]
  exact ⟨h.with_grow hlen c, rfl, signedBytes_cons_of_lt hc d.mant⟩

/-- A positive decimal times a small number, before the carry is put in front. -/
theorem mulBytes_of_is (h : d.Is e v) (hv : 0 ≤ v) (k : ℕ) :
    (ofBytes (mulBytes k d.mant 0).1 + (mulBytes k d.mant 0).2 * 256 ^ d.mant.length : ℤ) =
      v * k := by
  have hmul := ofBytes_mulBytes k d.mant 0
  have hof := h.ofBytes_eq hv
  rw [add_zero] at hmul
  rw [← hof]
  exact_mod_cast hmul

/-- The three ways a product ends: it keeps the length, the carry comes in front, or seven
bytes are not enough. -/
inductive SmallProduct (d : Dfl) (e : ℕ) (v : ℤ) (k : ℕ) : List UInt8 × ℕ → Prop where
  | same {r : List UInt8 × ℕ} (hr : ¬ (r.2 ≠ 0 ∨ ({ d with mant := r.1 } : Dfl).neg))
      (his : ({ d with mant := r.1 } : Dfl).Is e (v * k)) : SmallProduct d e v k r
  | carry {r : List UInt8 × ℕ} (hr : r.2 ≠ 0 ∨ ({ d with mant := r.1 } : Dfl).neg)
      (hlen : ¬ dflMaxlen ≤ d.len)
      (his : (({ d with mant := r.1 } : Dfl).grow (UInt8.ofNat r.2)).Is e (v * k)) :
      SmallProduct d e v k r
  | overflow {r : List UInt8 × ℕ} (hr : r.2 ≠ 0 ∨ ({ d with mant := r.1 } : Dfl).neg)
      (hlen : dflMaxlen ≤ d.len) (hbig : 2 ^ 55 ≤ v * k) : SmallProduct d e v k r

theorem product_cases (h : d.Is e v) (hv : 0 ≤ v) {k : ℕ} (hk : 0 < k) (hk' : k ≤ 128) :
    SmallProduct d e v k (mulBytes k d.mant 0) := by
  have hvalid := h.valid
  have hmul := mulBytes_of_is h hv k
  have hcarry := carry_mulBytes_lt hk d.mant
  have hsize := length_mulBytes k d.mant 0
  have hset := hvalid.with_mant hsize
  have hsign := signBit_iff (mulBytes k d.mant 0).1
  rw [hsize] at hsign
  generalize mulBytes k d.mant 0 = r at *
  by_cases hr : r.2 ≠ 0 ∨ ({ d with mant := r.1 } : Dfl).neg
  · by_cases hlen : dflMaxlen ≤ d.len
    · refine .overflow hr hlen ?_
      have h8 : d.mant.length = 7 := by
        have hle := hvalid.len_le
        have hmant := hvalid.mant_length
        rw [dflMaxlen] at hlen hle
        omega
      rw [h8] at hmul hsign
      rcases hr with hr | hr
      · have hpos : (1 : ℤ) ≤ r.2 := by exact_mod_cast Nat.pos_of_ne_zero hr
        have hof : (0 : ℤ) ≤ ofBytes r.1 := Int.natCast_nonneg _
        rw [← hmul]
        linarith
      · have hle := hsign.mp hr
        have hof : (0 : ℤ) ≤ r.2 := Int.natCast_nonneg _
        rw [← hmul]
        zify at hle
        linarith
    · refine .carry hr hlen ?_
      have hbyte : (UInt8.ofNat r.2).toNat = r.2 := by
        rw [toNat_ofNat_byte]
        omega
      have his := hset.grow_is (c := UInt8.ofNat r.2) (not_le.mp hlen) (by omega)
      rw [ofBytes_cons, hbyte, hsize] at his
      refine ⟨his.valid, h.exp_eq, his.coef_eq.trans ?_⟩
      rw [← hmul]
      push_cast
      ring
  · have hr' := hr
    rw [not_or, not_not, Bool.not_eq_true] at hr'
    rw [hr'.1, Nat.cast_zero, zero_mul, add_zero] at hmul
    have his := h.of_mant hsize hr'.2
    rw [hmul] at his
    exact .same hr his

theorem dfMulint_is (h : d.Is e v) (hv : 0 ≤ v) {k : ℕ} (hk : 0 < k) (hk' : k ≤ 128) :
    (v * k < 2 ^ 55 → (dfMulint d k).Is e (v * k)) ∧
      (2 ^ 55 ≤ v * k → (dfMulint d k).len = 0) := by
  have hproduct := product_cases h hv hk hk'
  rw [dfMulint, h.valid.bytes_eq, h.valid.setBytes_eq]
  cases hproduct with
  | same hr his =>
      rw [if_neg hr]
      exact ⟨fun _ => his, fun hge => absurd hge (not_le.mpr his.bounds.2)⟩
  | carry hr hlen his =>
      rw [if_pos hr, if_neg hlen]
      exact ⟨fun _ => his, fun hge => absurd hge (not_le.mpr his.bounds.2)⟩
  | overflow hr hlen hbig =>
      rw [if_pos hr, if_pos hlen]
      exact ⟨fun hlt => absurd hbig (not_le.mpr hlt), fun _ => rfl⟩

theorem Dfl.Is.with_exp (h : d.Is e v) (e' : ℕ) (he : e' < 256) :
    ({ d with exp := e' } : Dfl).Is e' v :=
  ⟨⟨h.valid.len_ge, h.valid.len_le, h.valid.mant_length, he⟩, rfl, h.coef_eq⟩

theorem decExp_is (h : d.Is (e + 1) v) : (decExp d).Is e v := by
  have hlt := h.valid.exp_lt
  rw [h.exp_eq] at hlt
  have hexp : (d.exp + 255) % 256 = e := by
    rw [h.exp_eq]
    omega
  rw [decExp, hexp]
  exact h.with_exp e (by omega)

theorem Dfl.Is.neg_eq_false (h : d.Is e v) (hv : 0 ≤ v) : d.neg = false := by
  rw [Bool.eq_false_iff, ne_eq, h.neg_iff]
  exact not_lt.mpr hv

theorem dfMmul10_of_full (h : d.Is 255 v) (hv : 0 ≤ v) : (dfMmul10 d).len = 0 := by
  have hneg := h.neg_eq_false hv
  have hexp := h.exp_eq
  rw [dfMmul10]
  simp only [hneg, Bool.false_eq_true, if_false, h.valid.setBytes_eq, hexp]
  rfl

theorem dfMmul10_is (h : d.Is e v) (hv : 0 ≤ v) (he : e < 255) :
    (v * 10 < 2 ^ 55 → (dfMmul10 d).Is (e + 1) (v * 10)) ∧
      (2 ^ 55 ≤ v * 10 → (dfMmul10 d).len = 0) := by
  have hneg := h.neg_eq_false hv
  have hexp : (d.exp + 1) % 256 = e + 1 := by
    rw [h.exp_eq]
    omega
  have hproduct := product_cases (h.with_exp (e + 1) (by omega)) hv (k := 10) (by decide)
    (by decide)
  rw [dfMmul10]
  simp only [hneg, Bool.false_eq_true, if_false, h.valid.setBytes_eq, hexp, h.valid.bytes_eq,
    Nat.succ_ne_zero]
  cases hproduct with
  | same hr his =>
      rw [if_neg fun hand => hr hand.1, if_neg hr]
      exact ⟨fun _ => his, fun hge => absurd hge (not_le.mpr his.bounds.2)⟩
  | carry hr hlen his =>
      rw [if_neg fun hand => hlen hand.2, if_pos hr]
      exact ⟨fun _ => his, fun hge => absurd hge (not_le.mpr his.bounds.2)⟩
  | overflow hr hlen hbig =>
      rw [if_pos ⟨hr, hlen⟩]
      exact ⟨fun hlt => absurd hbig (not_le.mpr hlt), fun _ => rfl⟩

theorem absDfl_is (h : d.Is e v) (hv : v ≠ -2 ^ 55) :
    (if d.neg then dflChangeSign d else d).Is e v.natAbs := by
  cases hneg : d.neg with
  | true =>
      have his := dflChangeSign_is h hv
      have hlow := h.neg_iff.mp hneg
      rw [if_pos rfl, Int.ofNat_natAbs_of_nonpos hlow.le]
      exact his
  | false =>
      have hge : 0 ≤ v := by
        rw [← not_lt, ← h.neg_iff, hneg]
        exact Bool.false_ne_true
      rw [if_neg Bool.false_ne_true, Int.natAbs_of_nonneg hge]
      exact h

theorem compact_of_min (h : d.Is e (-2 ^ 55)) : d.Compact ∧ 2 ≤ d.mant.length := by
  have hcoef : signedBytes d.mant = -2 ^ 55 := h.coef_eq
  have hb := (signedBytes_bounds (compactBytes d.mant)).1
  have hle := length_compactBytes_le d.mant
  have hmant := h.valid.mant_length
  have hlen := h.valid.len_le
  rw [signedBytes_compactBytes, hcoef] at hb
  rw [dflMaxlen] at hlen
  have hfull : 7 ≤ (compactBytes d.mant).length := by
    by_contra hlt
    have hpow : 256 ^ (compactBytes d.mant).length ≤ 256 ^ 6 :=
      Nat.pow_le_pow_right (by decide) (by omega)
    omega
  exact ⟨(compactBytes_suffix d.mant).eq_of_length (by omega), by omega⟩

/-! ## Sums with a small number -/

/-- The ways a sum ends: it is positive, a byte can be put in front, or seven bytes are not
enough. -/
inductive SmallSum (d : Dfl) (e : ℕ) (v : ℤ) (n : ℕ) : Prop where
  | same (hneg : (dfMaddint d n).neg = false) (his : (dfMaddint d n).Is e (v + n))
  | carry (hneg : (dfMaddint d n).neg = true) (hlen : (dfMaddint d n).len < dflMaxlen)
      (his : (dfIncsize (dfMaddint d n)).Is e (v + n))
  | overflow (hneg : (dfMaddint d n).neg = true) (hlen : (dfMaddint d n).len = dflMaxlen)
      (hbig : 2 ^ 55 ≤ v + n)

theorem sum_cases (h : d.Is e v) (hv : 0 ≤ v) {n : ℕ} (hn : n < 128) : SmallSum d e v n := by
  have hvalid := h.valid
  have hof := h.ofBytes_eq hv
  have hsum := ofBytes_mulBytes 1 d.mant n
  have hsize := length_mulBytes 1 d.mant n
  have hset := hvalid.with_mant hsize
  have hsign := signBit_iff (mulBytes 1 d.mant n).1
  have hpos := h.neg_eq_false hv
  rw [Dfl.neg, Bool.eq_false_iff, ne_eq, signBit_iff] at hpos
  -- half of the range is free, so there is no carry
  have hcarry : (mulBytes 1 d.mant n).2 = 0 := by
    have hlen : 256 ^ 1 ≤ 256 ^ d.mant.length :=
      Nat.pow_le_pow_right (by decide) (List.length_pos_iff.mpr hvalid.mant_ne_nil)
    by_contra hne
    have hmul := Nat.mul_le_mul_right (256 ^ d.mant.length) (Nat.pos_of_ne_zero hne)
    omega
  have hmant : dfMaddint d n = { d with mant := (mulBytes 1 d.mant n).1 } := by
    rw [dfMaddint, hvalid.bytes_eq, hvalid.setBytes_eq]
  rw [hcarry, zero_mul, add_zero, mul_one] at hsum
  have hvalue : (ofBytes (mulBytes 1 d.mant n).1 : ℤ) = v + n := by
    rw [hsum, Nat.cast_add, hof]
  cases hneg : (dfMaddint d n).neg with
  | false =>
      refine .same hneg ?_
      rw [hmant] at hneg ⊢
      have his := h.of_mant hsize hneg
      rw [hvalue] at his
      exact his
  | true =>
      by_cases hlen : (dfMaddint d n).len < dflMaxlen
      · refine .carry hneg hlen ?_
        rw [hmant] at hlen ⊢
        have his := hset.grow_is (c := 0) hlen (by decide)
        rw [ofBytes_zero_cons, hvalue] at his
        exact ⟨his.valid, h.exp_eq, his.coef_eq⟩
      · rw [hmant] at hlen hneg
        have hfull := le_antisymm hset.len_le (not_lt.mp hlen)
        refine .overflow ?_ ?_ ?_
        · rw [hmant]
          exact hneg
        · rw [hmant]
          exact hfull
        · have hbytes : d.mant.length = 7 := by
            have hmantlen := hset.mant_length
            simp only at hfull hmantlen
            rw [dflMaxlen] at hfull
            omega
          have hle := hsign.mp hneg
          rw [hsize, hbytes] at hle
          rw [← hvalue]
          omega

/-- A sum that fits, with the byte in front where it is needed. -/
theorem sum_is (h : d.Is e v) (hv : 0 ≤ v) {n : ℕ} (hn : n < 128) (hfits : v + n < 2 ^ 55) :
    (if (dfMaddint d n).neg ∧ (dfMaddint d n).len < dflMaxlen then dfIncsize (dfMaddint d n)
      else dfMaddint d n).Is e (v + n) := by
  cases sum_cases h hv hn with
  | same hneg his =>
      rw [if_neg fun hand => Bool.noConfusion (hneg.symm.trans hand.1)]
      exact his
  | carry hneg hlen his =>
      rw [if_pos ⟨hneg, hlen⟩]
      exact his
  | overflow hneg hlen hbig => exact absurd hbig (not_le.mpr hfits)

/-! ## Quotients -/

theorem quotient_is (h : d.Is e v) (hv : 0 ≤ v) :
    ({ d with mant := (divBytes 10 d.mant 0).1 } : Dfl).Is e (v / 10) ∧
      (divBytes 10 d.mant 0).2 = v.natAbs % 10 := by
  have hof := h.ofBytes_eq hv
  have hdiv := ofBytes_divBytes_eq (k := 10) (by decide) d.mant
  have hrem := rem_divBytes_eq (k := 10) (by decide) d.mant
  have hsign := signBit_iff (divBytes 10 d.mant 0).1
  have hsign' := signBit_iff d.mant
  have hpos := h.neg_eq_false hv
  rw [length_divBytes, hdiv] at hsign
  have hfalse : signBit (divBytes 10 d.mant 0).1 = false := by
    rw [Bool.eq_false_iff, ne_eq, hsign]
    rw [Dfl.neg, Bool.eq_false_iff, ne_eq, hsign'] at hpos
    omega
  have his := h.of_mant (length_divBytes 10 d.mant 0) hfalse
  rw [hdiv] at his
  refine ⟨⟨his.valid, his.exp_eq, his.coef_eq.trans ?_⟩, ?_⟩
  · omega
  · rw [hrem]
    omega

theorem dfMdiv10_is (h : d.Is (e + 1) v) (hv : v ≠ -2 ^ 55) :
    ∃ d', dfMdiv10 d = some (d', v.natAbs % 10) ∧ d'.Is e (v.tdiv 10) ∧ d'.Compact := by
  have hexp : d.exp ≠ 0 := by
    rw [h.exp_eq]
    exact Nat.succ_ne_zero e
  have hpred : d.exp - 1 = e := by
    rw [h.exp_eq]
    rfl
  have hlt := h.valid.exp_lt
  rw [h.exp_eq] at hlt
  have h₁ := h.with_exp e (by omega)
  rw [dfMdiv10, if_neg hexp, hpred]
  cases hneg : d.neg with
  | true =>
      have hlow := h.neg_iff.mp hneg
      have h₂ := dflChangeSign_is h₁ hv
      obtain ⟨h₃, hrem⟩ := quotient_is h₂ (by omega)
      have h₄ := dflChangeSign_is h₃ (by omega)
      have hcompres := dfCompres_is h₄
      simp only [if_true, h₂.valid.bytes_eq, h₂.valid.setBytes_eq]
      refine ⟨_, ?_, ⟨hcompres.1.valid, hcompres.1.exp_eq, hcompres.1.coef_eq.trans ?_⟩,
        hcompres.2⟩
      · rw [hrem, Int.natAbs_neg]
      · rw [← Int.tdiv_eq_ediv_of_nonneg (by omega), Int.neg_tdiv, neg_neg]
  | false =>
      have hge : 0 ≤ v := by
        rw [← not_lt, ← h.neg_iff, hneg]
        exact Bool.false_ne_true
      obtain ⟨h₂, hrem⟩ := quotient_is h₁ hge
      have hcompres := dfCompres_is h₂
      simp only [Bool.false_eq_true, if_false, h₁.valid.bytes_eq, h₁.valid.setBytes_eq]
      refine ⟨_, ?_, ⟨hcompres.1.valid, hcompres.1.exp_eq, hcompres.1.coef_eq.trans ?_⟩,
        hcompres.2⟩
      · rw [hrem]
      · rw [Int.tdiv_eq_ediv_of_nonneg hge]

theorem dfMdiv10_of_nonneg (h : d.Is (e + 1) v) (hv : 0 ≤ v) :
    ∃ d', dfMdiv10 d = some (d', (v % 10).toNat) ∧ d'.Is e (v / 10) ∧ d'.Compact := by
  obtain ⟨d', heq, his, hc⟩ := dfMdiv10_is h (by omega)
  refine ⟨d', ?_, ?_, hc⟩
  · rw [heq]
    congr 2
    omega
  · rw [Int.tdiv_eq_ediv_of_nonneg hv] at his
    exact his

theorem dfMdiv10_of_lowest {e : ℕ} (hexp : d.exp = e + 1) (hlen : d.len = 0)
    (hbytes : 2 ≤ d.mant.length) (hcompact : compactBytes d.mant = d.mant) :
    dfMdiv10 d = some ({ d with exp := e }, 0) := by
  have hset (d : Dfl) (h : d.len = 0) : d.setBytes [] = d := by
    have hpred : d.len - 1 = 0 := by rw [h]
    rw [Dfl.setBytes, hpred]
    rfl
  have hnil (d : Dfl) (h : d.len = 0) : d.bytes = [] := by
    rw [Dfl.bytes, h]
    rfl
  have hsign (d : Dfl) (h : d.len = 0) : dflChangeSign d = d := by
    rw [dflChangeSign, hnil d h]
    exact (if_neg fun hand => absurd hand.2 (by decide)).trans (hset d h)
  have hpred : d.exp - 1 = e := by
    rw [hexp]
    rfl
  rw [dfMdiv10, if_neg (by omega), hpred]
  simp only [hsign { d with exp := e } hlen, ite_self, hnil { d with exp := e } hlen, divBytes,
    hset { d with exp := e } hlen]
  rw [dfCompres]
  simp only [hlen, hcompact, hbytes]
  rfl

/-! ## Trailing zeros -/

structure Trimmed (e : ℕ) (v : ℤ) (d : Dfl) (e' : ℕ) (v' : ℤ) : Prop where
  is : d.Is e' v'
  exp_le : e' ≤ e
  coef_eq : v = v' * 10 ^ (e - e')
  last : e' = 0 ∨ ¬ (10 : ℤ) ∣ v'

theorem normalizeLoop_trimmed {fuel : ℕ} (h : d.Is e v) (hv : v ≠ -2 ^ 55) (hfuel : e ≤ fuel) :
    ∃ d' e' v', normalizeLoop fuel d = some d' ∧ Trimmed e v d' e' v' := by
  induction fuel generalizing d e v with
  | zero =>
      refine ⟨d, e, v, rfl, h, le_rfl, ?_, Or.inl (Nat.le_zero.mp hfuel)⟩
      rw [Nat.sub_self, pow_zero, mul_one]
  | succ fuel ih =>
      cases e with
      | zero =>
          refine ⟨d, 0, v, ?_, h, le_rfl, ?_, Or.inl rfl⟩
          · rw [normalizeLoop, if_pos h.exp_eq]
          · rw [Nat.sub_self, pow_zero, mul_one]
      | succ e =>
          obtain ⟨d₁, hdiv, his, -⟩ := dfMdiv10_is h hv
          have hexp : d.exp ≠ 0 := by
            rw [h.exp_eq]
            exact Nat.succ_ne_zero e
          rw [normalizeLoop, if_neg hexp, hdiv, Option.bind_some]
          by_cases hrem : v.natAbs % 10 = 0
          · have hdvd : (10 : ℤ) ∣ v := by omega
            have hlen : ¬ dflMaxlen < d₁.len := not_lt.mpr his.valid.len_le
            rw [if_neg (not_not.mpr hrem), if_neg hlen]
            have hmul := Int.tdiv_mul_cancel hdvd
            have hb := h.bounds
            obtain ⟨d', e', v', hloop, htrim⟩ := ih his (by omega) (Nat.le_of_succ_le_succ hfuel)
            refine ⟨d', e', v', hloop, htrim.is, htrim.exp_le.trans (Nat.le_succ e), ?_,
              htrim.last⟩
            rw [Nat.succ_sub htrim.exp_le, pow_succ, ← mul_assoc, ← htrim.coef_eq, hmul]
          · rw [if_pos hrem]
            refine ⟨d, e + 1, v, rfl, h, le_rfl, ?_, Or.inr ?_⟩
            · rw [Nat.sub_self, pow_zero, mul_one]
            · omega

theorem dfNormalize_trimmed (h : d.Is e v) (hv : v ≠ -2 ^ 55) :
    ∃ d' e' v', dfNormalize d = some d' ∧ Trimmed e v d' e' v' ∧ d'.Compact := by
  obtain ⟨d', e', v', hloop, htrim⟩ := normalizeLoop_trimmed h hv le_rfl
  have hcompres := dfCompres_is htrim.is
  refine ⟨dfCompres d', e', v', ?_, ⟨hcompres.1, htrim.exp_le, htrim.coef_eq, htrim.last⟩,
    hcompres.2⟩
  rw [dfNormalize, h.exp_eq, hloop]
  rfl

theorem Trimmed.value_eq {d' : Dfl} {e' : ℕ} {v' : ℤ} (h : Trimmed e v d' e' v') :
    d'.value = v / 10 ^ e := by
  have hpow : (10 : ℚ) ^ (e - e') ≠ 0 := pow_ne_zero _ (by norm_num)
  rw [h.is.value_eq, h.coef_eq]
  nth_rewrite 2 [← Nat.sub_add_cancel h.exp_le]
  rw [pow_add, Int.cast_mul, Int.cast_pow, Int.cast_ofNat, mul_comm (v' : ℚ),
    mul_div_mul_left _ _ hpow]

/-! ## Examples -/

def lowestDfl : Dfl := ⟨8, 0, [0x80, 0, 0, 0, 0, 0, 0]⟩

theorem lowestDfl_valid : lowestDfl.Valid := by decide

def oneDfl : Dfl := ⟨2, 0, [1]⟩

theorem oneDfl_valid : oneDfl.Valid := by decide

end SolidDB
