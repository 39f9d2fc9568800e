import SolidDB.Dt.Dfl
import Mathlib.Algebra.Order.Field.Basic
import Mathlib.Data.Sign.Basic
import Mathlib.Tactic.FieldSimp

/-!
# Products of decimals

`dfl_prod` multiplies the mantissas byte by byte in `resultarea` and divides the product by
ten until it fits into seven bytes.
-/

namespace SolidDB

def int16Msb (w : ℕ) : ℕ := w / 256 % 256

def int16Lsb (w : ℕ) : UInt8 := UInt8.ofNat w

/-- Adds to `resultarea[i]` and carries to the bytes before, `none` outside of the area. -/
def addResultarea : ℕ → ℕ → List UInt8 → Option (List UInt8)
  | 0, addend, area =>
    area[0]?.bind fun b =>
      if int16Msb (b.toNat + addend) = 0 then some (area.set 0 (int16Lsb (b.toNat + addend)))
      else none
  | i + 1, addend, area =>
    area[i + 1]?.bind fun b =>
      let area' := area.set (i + 1) (int16Lsb (b.toNat + addend))
      if int16Msb (b.toNat + addend) = 0 then some area'
      else addResultarea i (int16Msb (b.toNat + addend)) area'

/-- The loop over the bytes of the second mantissa, the last one first. The product with the
first of the given bytes goes to `resultarea[i]`. -/
def prodInner (b : UInt8) : ℕ → List UInt8 → List UInt8 → Option (List UInt8)
  | _, [], area => some area
  | i, c :: cs, area =>
    (prodInner b (i + 1) cs area).bind (addResultarea i (b.toNat * c.toNat))

def prodOuter (cs : List UInt8) : ℕ → List UInt8 → List UInt8 → Option (List UInt8)
  | _, [], area => some area
  | i, b :: bs, area =>
    (prodOuter cs (i + 1) bs area).bind fun area' =>
      if b ≠ 0 then prodInner b i cs area' else some area'

def firstNonzero (ind : ℕ) (area : List UInt8) : ℕ :=
  (((area.drop 1).take ind).takeWhile fun b => b = 0).length + 1

/-- The loop that divides by ten until the `ind` highest bytes are clear, `none` for an
overflow. -/
def prodShrink (ind : ℕ) : ℕ → List UInt8 → Option (ℕ × List UInt8)
  | exponent, area =>
    let i := firstNonzero ind area
    if signBit (area.drop (ind + 1)) = false ∧ i = ind + 1 then some (exponent, area)
    else
      match exponent with
      | 0 => none
      | exponent + 1 =>
        prodShrink ind exponent (area.take i ++ (divBytes 10 (area.drop i) 0).1)

/-- The result in `resultarea` for a product of less than seven bytes. -/
def prodShort (maxarea : ℕ) (area : List UInt8) : Dfl :=
  let i₁ := min (firstNonzero maxarea area) maxarea
  let i₁ := if signBit (area.drop i₁) then i₁ - 1 else i₁
  ⟨1 + (maxarea + 1 - i₁), 0, area.drop i₁⟩

def prodExponent : ℕ → Dfl → Option Dfl
  | 0, result => some result
  | n + 1, result =>
    (dfMdiv10 { result with exp := 1 }).bind fun r => prodExponent n r.1

def prodFinish (positive : Bool) (exponent : ℕ) (result : Dfl) : Option Dfl :=
  (prodExponent (exponent - 255) result).map fun result =>
    let result : Dfl := { result with exp := min exponent 255 }
    dfCompres (if positive then result else dflChangeSign result)

/-- `dfl_prod`, `none` when an index is outside of `resultarea`. -/
def dflProd (df₁ df₂ : Dfl) : Option Dfl :=
  if dflOverflow df₁ ∨ dflOverflow df₂ then some dflNan
  else
    let positive := df₁.neg == df₂.neg
    let df₁ := if df₁.neg then dflChangeSign df₁ else df₁
    let df₂ := if df₂.neg then dflChangeSign df₂ else df₂
    let exponent := df₁.exp + df₂.exp
    -- a negative `maxarea` is caught by the assertion on `i1`
    if df₁.len + df₂.len < 2 then none
    else
      let maxarea := df₁.len + df₂.len - 2
      (prodOuter df₂.bytes 2 df₁.bytes (List.replicate (maxarea + 1) 0)).bind fun area =>
        if dflMaxlen ≤ maxarea + 1 then
          let ind := maxarea + 1 - dflMaxlen
          match prodShrink ind exponent area with
          | none => some dflNan
          | some (exponent, area) =>
            prodFinish positive exponent ⟨dflMaxlen, 0, area.drop (ind + 1)⟩
        else prodFinish positive exponent (prodShort maxarea area)

/-! ## The product of the mantissas -/

variable {i w : ℕ}

theorem addResultarea_step {area area' : List UInt8} {b : UInt8} (hi : area[i]? = some b)
    (harea : area' = area.set i (int16Lsb (b.toNat + w))) :
    ofBytes area' + (b.toNat + w) / 256 * (256 * 256 ^ (area.length - 1 - i)) =
      ofBytes area + w * 256 ^ (area.length - 1 - i) := by
  have hset := ofBytes_set hi (int16Lsb (b.toNat + w))
  have hdiv := Nat.mod_add_div (b.toNat + w) 256
  rw [int16Lsb, toNat_ofNat_byte] at hset
  rw [harea, int16Lsb]
  generalize 256 ^ (area.length - 1 - i) = p at *
  have hsum : (b.toNat + w) % 256 * p + (b.toNat + w) / 256 * (256 * p) =
      b.toNat * p + w * p := by
    rw [← add_mul]
    nth_rewrite 3 [← hdiv]
    ring
  omega

theorem int16Msb_eq {b : UInt8} (hw : w ≤ 65280) :
    int16Msb (b.toNat + w) = (b.toNat + w) / 256 := by
  have hb := b.toNat_lt
  rw [int16Msb]
  omega

/-- A sum that fits into the area is added without an access outside. -/
theorem addResultarea_spec (area : List UInt8) (hi : i < area.length) (hw : w ≤ 65280)
    (hfits : ofBytes area + w * 256 ^ (area.length - 1 - i) < 256 ^ area.length) :
    ∃ area', addResultarea i w area = some area' ∧ area'.length = area.length ∧
      ofBytes area' = ofBytes area + w * 256 ^ (area.length - 1 - i) := by
  induction i generalizing area w with
  | zero =>
      have hget := List.getElem?_eq_getElem hi
      have hstep := addResultarea_step (w := w) hget rfl
      rw [Nat.sub_zero, ← pow_succ', Nat.sub_add_cancel (Nat.one_le_of_lt hi)] at hstep
      rw [Nat.sub_zero] at hfits ⊢
      -- a carry out of the first byte would be too large for the area
      have hmsb : (area[0].toNat + w) / 256 = 0 := by
        by_contra hne
        have hmul := Nat.mul_le_mul_right (256 ^ area.length) (Nat.pos_of_ne_zero hne)
        omega
      rw [hmsb, zero_mul, add_zero] at hstep
      rw [addResultarea, hget, Option.bind_some, int16Msb_eq hw, if_pos hmsb]
      exact ⟨_, rfl, List.length_set, hstep⟩
  | succ i ih =>
      have hget := List.getElem?_eq_getElem hi
      have hstep := addResultarea_step (w := w) hget rfl
      have hb := (area[i + 1]).toNat_lt
      rw [addResultarea, hget, Option.bind_some, int16Msb_eq hw]
      by_cases hmsb : (area[i + 1].toNat + w) / 256 = 0
      · rw [hmsb, zero_mul, add_zero] at hstep
        simp only [if_pos hmsb]
        exact ⟨_, rfl, List.length_set, hstep⟩
      · have hweight : 256 * 256 ^ (area.length - 1 - (i + 1)) = 256 ^ (area.length - 1 - i) := by
          rw [← pow_succ']
          congr 1
          omega
        rw [hweight] at hstep
        rw [← hstep] at hfits ⊢
        simp only [if_neg hmsb]
        have hlen : (area.set (i + 1) (int16Lsb (area[i + 1].toNat + w))).length = area.length :=
          List.length_set
        obtain ⟨area', hadd, hlen', hof⟩ := ih (area.set (i + 1) _)
          (w := (area[i + 1].toNat + w) / 256) (by rw [hlen]; omega) (by omega)
          (by rw [hlen]; exact hfits)
        rw [hlen] at hlen' hof
        exact ⟨area', hadd, hlen', hof⟩

theorem prodInner_spec (b : UInt8) (cs area : List UInt8) {q : ℕ}
    (hlen : i + cs.length + q = area.length)
    (hfits : ofBytes area + b.toNat * ofBytes cs * 256 ^ q < 256 ^ area.length) :
    ∃ area', prodInner b i cs area = some area' ∧ area'.length = area.length ∧
      ofBytes area' = ofBytes area + b.toNat * ofBytes cs * 256 ^ q := by
  induction cs generalizing i with
  | nil =>
      refine ⟨area, rfl, rfl, ?_⟩
      rw [ofBytes_nil, mul_zero, zero_mul, add_zero]
  | cons c cs ih =>
      have hb := b.toNat_lt
      have hc := c.toNat_lt
      have hsplit : b.toNat * ofBytes (c :: cs) * 256 ^ q =
          b.toNat * ofBytes cs * 256 ^ q + b.toNat * c.toNat * 256 ^ (cs.length + q) := by
        rw [ofBytes_cons, pow_add]
        ring
      rw [List.length_cons] at hlen
      rw [hsplit, ← add_assoc] at hfits ⊢
      obtain ⟨area₁, hrow, hlen₁, hof₁⟩ := ih (i := i + 1) (by omega) (by omega)
      have hweight : area₁.length - 1 - i = cs.length + q := by omega
      have hprod : b.toNat * c.toNat ≤ 65280 := by
        calc b.toNat * c.toNat ≤ 255 * 255 := Nat.mul_le_mul (by omega) (by omega)
          _ ≤ 65280 := by norm_num
      obtain ⟨area', hadd, hlen', hof'⟩ := addResultarea_spec area₁ (i := i) (by omega)
        hprod (by rw [hweight, hof₁, hlen₁]; exact hfits)
      rw [prodInner, hrow, Option.bind_some]
      refine ⟨area', hadd, hlen'.trans hlen₁, ?_⟩
      rw [hof', hof₁, hweight]

theorem prodOuter_spec (bs cs area : List UInt8)
    (hlen : i + bs.length + cs.length = area.length + 1)
    (hfits : ofBytes area + ofBytes bs * ofBytes cs < 256 ^ area.length) :
    ∃ area', prodOuter cs i bs area = some area' ∧ area'.length = area.length ∧
      ofBytes area' = ofBytes area + ofBytes bs * ofBytes cs := by
  induction bs generalizing i with
  | nil =>
      refine ⟨area, rfl, rfl, ?_⟩
      rw [ofBytes_nil, zero_mul, add_zero]
  | cons b bs ih =>
      have hsplit : ofBytes (b :: bs) * ofBytes cs =
          ofBytes bs * ofBytes cs + b.toNat * ofBytes cs * 256 ^ bs.length := by
        rw [ofBytes_cons]
        ring
      rw [List.length_cons] at hlen
      rw [hsplit, ← add_assoc] at hfits ⊢
      obtain ⟨area₁, hrows, hlen₁, hof₁⟩ := ih (i := i + 1) (by omega) (by omega)
      rw [prodOuter, hrows, Option.bind_some]
      by_cases hb : b = 0
      · rw [if_neg (not_not.mpr hb)]
        refine ⟨area₁, rfl, hlen₁, ?_⟩
        rw [hof₁, hb, UInt8.toNat_zero, zero_mul, zero_mul, add_zero]
      · rw [if_pos hb]
        obtain ⟨area', hrow, hlen', hof'⟩ := prodInner_spec b cs area₁ (i := i)
           (q := bs.length) (by omega) (by rw [hof₁, hlen₁]; exact hfits)
        refine ⟨area', hrow, hlen'.trans hlen₁, ?_⟩
        rw [hof', hof₁]

/-! ## The shift to seven bytes -/

section Shrink

variable {area : List UInt8} {ind : ℕ}

theorem area_cons {n : ℕ} (hlen : area.length = n + 1) (hfits : ofBytes area < 256 ^ n) :
    ∃ rest, area = 0 :: rest ∧ rest.length = n := by
  cases area with
  | nil => exact absurd hlen.symm (Nat.succ_ne_zero n)
  | cons x rest =>
      rw [List.length_cons, Nat.add_right_cancel_iff] at hlen
      rw [ofBytes_cons, hlen] at hfits
      have hx : x.toNat = 0 := by
        by_contra hne
        have hmul := Nat.mul_le_mul_right (256 ^ n) (Nat.pos_of_ne_zero hne)
        omega
      exact ⟨rest, by rw [UInt8.toNat_inj.mp (hx.trans UInt8.toNat_zero.symm)], hlen⟩

theorem ofBytes_take_firstNonzero (ind : ℕ) (rest : List UInt8) :
    ofBytes ((0 :: rest).take (firstNonzero ind (0 :: rest))) = 0 := by
  have hzero := ofBytes_takeWhile_zero (rest.take ind)
  have hle : ((rest.take ind).takeWhile fun b => b = 0).length ≤ ind :=
    (List.takeWhile_sublist _).length_le.trans (List.length_take_le ind rest)
  rw [List.take_take, Nat.min_eq_left hle] at hzero
  rw [firstNonzero, List.drop_succ_cons, List.drop_zero, List.take_succ_cons, ofBytes_zero_cons]
  exact hzero

theorem firstNonzero_eq_iff {rest : List UInt8} (hlen : ind ≤ rest.length) :
    firstNonzero ind (0 :: rest) = ind + 1 ↔ ofBytes (rest.take ind) = 0 := by
  have hsize := List.length_take_of_le hlen
  have hiff := length_takeWhile_zero_iff (rest.take ind)
  rw [hsize] at hiff
  rw [firstNonzero, List.drop_succ_cons, List.drop_zero, Nat.add_right_cancel_iff]
  exact hiff

theorem prodFits_iff {rest : List UInt8} (hlen : rest.length = ind + 7) :
    (signBit ((0 :: rest).drop (ind + 1)) = false ∧ firstNonzero ind (0 :: rest) = ind + 1) ↔
      ofBytes rest < 2 ^ 55 := by
  have happend := ofBytes_append (rest.take ind) (rest.drop ind)
  have hsign := signBit_iff (rest.drop ind)
  have hlow : (rest.drop ind).length = 7 := by
    rw [List.length_drop]
    omega
  have hlt := ofBytes_lt (rest.drop ind)
  rw [List.take_append_drop, hlow] at happend
  rw [hlow] at hsign hlt
  rw [firstNonzero_eq_iff (by omega), List.drop_succ_cons, Bool.eq_false_iff, ne_eq, hsign,
    happend]
  omega

theorem ofBytes_prodShrink_step (i : ℕ) (hzero : ofBytes (area.take i) = 0) :
    ofBytes (area.take i ++ (divBytes 10 (area.drop i) 0).1) = ofBytes area / 10 := by
  rw [ofBytes_append, hzero, zero_mul, zero_add, ofBytes_divBytes_eq (by decide),
    ofBytes_drop_of_zero hzero]

theorem length_prodShrink_step (i : ℕ) (area : List UInt8) :
    (area.take i ++ (divBytes 10 (area.drop i) 0).1).length = area.length := by
  rw [List.length_append, length_divBytes, ← List.length_append, List.take_append_drop]

/-- The loop divides as often as it is needed, or the exponent is used up before. -/
theorem prodShrink_spec (exponent : ℕ) (hlen : area.length = ind + 8)
    (hfits : ofBytes area < 256 ^ (ind + 7)) :
    (prodShrink ind exponent area = none ∧ 2 ^ 55 ≤ ofBytes area / 10 ^ exponent) ∨
      ∃ k area', k ≤ exponent ∧ prodShrink ind exponent area = some (exponent - k, area') ∧
        area'.length = ind + 8 ∧ ofBytes area' = ofBytes area / 10 ^ k ∧
        ofBytes area' < 2 ^ 55 ∧ ∀ j < k, 2 ^ 55 ≤ ofBytes area / 10 ^ j := by
  induction exponent generalizing area with
  | zero =>
      obtain ⟨rest, rfl, hrest⟩ := area_cons hlen hfits
      have hiff := prodFits_iff hrest
      rw [prodShrink]
      by_cases hfit : ofBytes rest < 2 ^ 55
      · right
        rw [if_pos (hiff.mpr hfit)]
        refine ⟨0, _, le_rfl, rfl, hlen, ?_, ?_, fun j hj => absurd hj (Nat.not_lt_zero j)⟩
        · rw [pow_zero, Nat.div_one]
        · rw [ofBytes_zero_cons]
          exact hfit
      · left
        rw [if_neg fun h => hfit (hiff.mp h), pow_zero, Nat.div_one, ofBytes_zero_cons]
        exact ⟨rfl, not_lt.mp hfit⟩
  | succ exponent ih =>
      obtain ⟨rest, rfl, hrest⟩ := area_cons hlen hfits
      have hiff := prodFits_iff hrest
      rw [prodShrink]
      by_cases hfit : ofBytes rest < 2 ^ 55
      · right
        rw [if_pos (hiff.mpr hfit)]
        refine ⟨0, _, Nat.zero_le _, rfl, hlen, ?_, ?_, fun j hj => absurd hj (Nat.not_lt_zero j)⟩
        · rw [pow_zero, Nat.div_one]
        · rw [ofBytes_zero_cons]
          exact hfit
      · have hzero := ofBytes_take_firstNonzero ind rest
        have hstep := ofBytes_prodShrink_step _ hzero
        have hsize := length_prodShrink_step (firstNonzero ind (0 :: rest)) (0 :: rest)
        rw [if_neg fun h => hfit (hiff.mp h)]
        generalize (0 :: rest).take (firstNonzero ind (0 :: rest)) ++
          (divBytes 10 ((0 :: rest).drop (firstNonzero ind (0 :: rest))) 0).1 = area₁ at *
        have hdiv (k : ℕ) : ofBytes area₁ / 10 ^ k = ofBytes (0 :: rest) / 10 ^ (k + 1) := by
          rw [hstep, Nat.div_div_eq_div_mul, pow_succ']
        have hlt₁ : ofBytes area₁ < 256 ^ (ind + 7) := by
          rw [hstep]
          exact (Nat.div_le_self _ _).trans_lt hfits
        rcases ih (hsize.trans hlen) hlt₁ with
          ⟨hnone, hbig⟩ | ⟨k, area', hk, hsome, hlen', hof, hlt, hneed⟩
        · left
          rw [hdiv] at hbig
          exact ⟨hnone, hbig⟩
        · right
          refine ⟨k + 1, area', Nat.succ_le_succ hk, ?_, hlen', hof.trans (hdiv k), hlt, ?_⟩
          · rw [Nat.succ_sub_succ]
            exact hsome
          · intro j hj
            cases j with
            | zero =>
                rw [pow_zero, Nat.div_one, ofBytes_zero_cons]
                exact not_lt.mp hfit
            | succ j =>
                rw [← hdiv]
                exact hneed j (Nat.lt_of_succ_lt_succ hj)

/-- A product of less than seven bytes is taken from its first byte on, or from the zero
before it. -/
theorem prodShort_is {maxarea : ℕ} (hlen : area.length = maxarea + 1)
    (hfits : ofBytes area < 256 ^ maxarea) (hshort : maxarea < 7) :
    (prodShort maxarea area).Is 0 (ofBytes area) := by
  obtain ⟨rest, rfl, hrest⟩ := area_cons hlen hfits
  have hzero := ofBytes_take_firstNonzero maxarea rest
  have hle : min (firstNonzero maxarea (0 :: rest)) maxarea ≤ firstNonzero maxarea (0 :: rest) :=
    min_le_left _ _
  have hle' : min (firstNonzero maxarea (0 :: rest)) maxarea ≤ maxarea := min_le_right _ _
  rw [prodShort]
  generalize min (firstNonzero maxarea (0 :: rest)) maxarea = j at *
  have hj := ofBytes_take_of_le hle hzero
  have hof := ofBytes_drop_of_zero hj
  have hsize : ((0 :: rest).drop j).length = maxarea + 1 - j := by
    rw [List.length_drop, hlen]
  have his (i : ℕ) (hi : i ≤ j) (hsign : signBit ((0 :: rest).drop i) = false) :
      (⟨1 + (maxarea + 1 - i), 0, (0 :: rest).drop i⟩ : Dfl).Is 0 (ofBytes (0 :: rest)) := by
    refine ⟨⟨?_, ?_, ?_, ?_⟩, rfl, (signedBytes_of_not_signBit hsign).trans ?_⟩
    · simp only
      omega
    · simp only [dflMaxlen]
      omega
    · simp only [List.length_drop, hlen]
      omega
    · exact Nat.zero_lt_succ 255
    · rw [ofBytes_drop_of_zero (ofBytes_take_of_le hi hj)]
  cases hsign : signBit ((0 :: rest).drop j) with
  | false => exact his j le_rfl hsign
  | true =>
      -- the byte before is clear
      refine his (j - 1) (Nat.sub_le j 1) ?_
      have hpos : j ≠ 0 := by
        rintro rfl
        exact Bool.noConfusion hsign
      have hlt := ofBytes_lt ((0 :: rest).drop j)
      rw [hsize, hof] at hlt
      rw [Bool.eq_false_iff, ne_eq, signBit_iff,
        ofBytes_drop_of_zero (ofBytes_take_of_le (Nat.sub_le j 1) hj), List.length_drop, hlen]
      have hpow : maxarea + 1 - (j - 1) = maxarea + 1 - j + 1 := by omega
      rw [hpow, pow_succ]
      omega

end Shrink

/-! ## The sign and the exponent -/

variable {d : Dfl} {e : ℕ} {v : ℤ}

theorem prodExponent_is {n : ℕ} (h : d.Is e v) (hv : 0 ≤ v) :
    ∃ d' e', prodExponent n d = some d' ∧ d'.Is e' (v / 10 ^ n) := by
  induction n generalizing d e v with
  | zero =>
      refine ⟨d, e, rfl, ?_⟩
      rw [pow_zero, Int.ediv_one]
      exact h
  | succ n ih =>
      obtain ⟨d₁, hdiv, his, -⟩ := dfMdiv10_of_nonneg (h.with_exp 1 (by decide)) hv
      obtain ⟨d', e', hrest, his'⟩ := ih his (Int.ediv_nonneg hv (by decide))
      rw [prodExponent, hdiv, Option.bind_some]
      refine ⟨d', e', hrest, ?_⟩
      rw [pow_succ', ← Int.ediv_ediv_of_nonneg (by decide)]
      exact his'

theorem prodFinish_is (h : d.Is e v) (hv : 0 ≤ v) (positive : Bool) (exponent : ℕ) :
    ∃ d', prodFinish positive exponent d = some d' ∧ d'.Is (min exponent 255)
      (if positive then v / 10 ^ (exponent - 255) else -(v / 10 ^ (exponent - 255))) := by
  obtain ⟨d₁, e₁, hloop, h₁⟩ := prodExponent_is (n := exponent - 255) h hv
  have h₂ := h₁.with_exp (min exponent 255) (by omega)
  have hq := Int.ediv_nonneg hv (show (0 : ℤ) ≤ 10 ^ (exponent - 255) by positivity)
  rw [prodFinish, hloop]
  cases positive with
  | true => exact ⟨_, rfl, (dfCompres_is h₂).1⟩
  | false => exact ⟨_, rfl, (dfCompres_is (dflChangeSign_is h₂ (by omega))).1⟩

/-! ## The product -/

/-- What `dfl_prod` makes of decimals that have a negation: the product is divided by ten
`k` times, or it is an overflow. -/
inductive ProdResult (a b : Dfl) : Option Dfl → Prop where
  | overflow (h : 2 ^ 55 ≤ a.coef.natAbs * b.coef.natAbs / 10 ^ (a.exp + b.exp)) :
      ProdResult a b (some dflNan)
  | divided {r : Dfl} (k : ℕ) (hk : k ≤ a.exp + b.exp)
      (h : r.Is (a.exp + b.exp - k) (if a.neg == b.neg then
        ((a.coef.natAbs * b.coef.natAbs / 10 ^ k : ℕ) : ℤ)
        else -((a.coef.natAbs * b.coef.natAbs / 10 ^ k : ℕ) : ℤ)))
      (hlt : a.coef.natAbs * b.coef.natAbs / 10 ^ k < 2 ^ 55)
      (hneed : ∀ j < k, 2 ^ 55 ≤ a.coef.natAbs * b.coef.natAbs / 10 ^ j ∨
        255 < a.exp + b.exp - j) :
      ProdResult a b (some r)

variable {a b : Dfl}

theorem dflProd_result (ha : a.Valid) (hb : b.Valid) (hamin : a.coef ≠ -2 ^ 55)
    (hbmin : b.coef ≠ -2 ^ 55) : ProdResult a b (dflProd a b) := by
  have hov : ¬ (dflOverflow a = true ∨ dflOverflow b = true) := by
    rw [ha.not_overflow, hb.not_overflow]
    decide
  have h₁ := absDfl_is ha.is hamin
  have h₂ := absDfl_is hb.is hbmin
  rw [dflProd, if_neg hov]
  simp only
  generalize (if a.neg = true then dflChangeSign a else a) = d₁ at *
  generalize (if b.neg = true then dflChangeSign b else b) = d₂ at *
  have hof₁ := h₁.ofBytes_eq (Int.natCast_nonneg _)
  have hof₂ := h₂.ofBytes_eq (Int.natCast_nonneg _)
  rw [Nat.cast_inj] at hof₁ hof₂
  have hlen₁ := h₁.valid.mant_length
  have hlen₂ := h₂.valid.mant_length
  have hge₁ := h₁.valid.len_ge
  have hge₂ := h₂.valid.len_ge
  have hlt₁ := ofBytes_lt d₁.mant
  have hlt₂ := ofBytes_lt d₂.mant
  rw [if_neg (by omega), h₁.valid.bytes_eq, h₂.valid.bytes_eq, h₁.exp_eq, h₂.exp_eq]
  have hmax : d₁.len + d₂.len - 2 = d₁.mant.length + d₂.mant.length := by omega
  have hprod : ofBytes d₁.mant * ofBytes d₂.mant < 256 ^ (d₁.mant.length + d₂.mant.length) := by
    rw [pow_add]
    exact Nat.mul_lt_mul'' hlt₁ hlt₂
  rw [hmax]
  generalize d₁.mant.length + d₂.mant.length = n at *
  obtain ⟨area, harea, hlen, hof⟩ := prodOuter_spec d₁.mant d₂.mant (List.replicate (n + 1) 0)
    (i := 2) (by rw [List.length_replicate]; omega)
    (by
      rw [ofBytes_replicate_zero, zero_add, List.length_replicate]
      exact hprod.trans (Nat.pow_lt_pow_right (by decide) (Nat.lt_succ_self n)))
  rw [ofBytes_replicate_zero, zero_add, hof₁, hof₂] at hof
  rw [hof₁, hof₂, ← hof] at hprod
  rw [List.length_replicate] at hlen
  rw [harea, Option.bind_some]
  by_cases hlong : dflMaxlen ≤ n + 1
  · rw [if_pos hlong]
    have hind : n = n + 1 - dflMaxlen + 7 := by
      rw [dflMaxlen] at hlong ⊢
      omega
    generalize n + 1 - dflMaxlen = ind at *
    rw [hind] at hlen hprod
    rcases prodShrink_spec (a.exp + b.exp) hlen hprod with
      ⟨hnone, hbig⟩ | ⟨k, area', hk, hsome, hlen', hof', hlt, hneed⟩
    · rw [hnone]
      rw [hof] at hbig
      exact .overflow hbig
    · rw [hsome]
      rw [hof] at hof' hneed
      have hfits' : ofBytes area' < 256 ^ (ind + 7) := by
        rw [hof', ← hof]
        exact (Nat.div_le_self _ _).trans_lt hprod
      obtain ⟨rest, rfl, hrest⟩ := area_cons hlen' hfits'
      rw [ofBytes_zero_cons] at hof' hlt
      have hfit := (prodFits_iff hrest).mpr hlt
      have hdrop := ofBytes_drop_of_zero (ofBytes_take_firstNonzero ind rest)
      rw [hfit.2, ofBytes_zero_cons] at hdrop
      have his : (⟨dflMaxlen, 0, (0 :: rest).drop (ind + 1)⟩ : Dfl).Is 0 (ofBytes rest) := by
        refine ⟨⟨show 2 ≤ dflMaxlen by decide, le_rfl, ?_, Nat.zero_lt_succ 255⟩, rfl, ?_⟩
        · simp only [List.length_drop, List.length_cons, hrest, dflMaxlen]
          omega
        · exact (signedBytes_of_not_signBit hfit.1).trans (by rw [hdrop])
      obtain ⟨r, hr, hres⟩ := prodFinish_is his (Int.natCast_nonneg _) (a.neg == b.neg)
        (a.exp + b.exp - k)
      simp only [hr]
      refine .divided (k + (a.exp + b.exp - k - 255)) (by omega) ?_ ?_ ?_
      · have hexp : a.exp + b.exp - (k + (a.exp + b.exp - k - 255)) =
            min (a.exp + b.exp - k) 255 := by omega
        rw [hexp, pow_add, ← Nat.div_div_eq_div_mul, ← hof']
        push_cast
        exact hres
      · rw [pow_add, ← Nat.div_div_eq_div_mul, ← hof']
        exact (Nat.div_le_self _ _).trans_lt hlt
      · intro j hj
        by_cases hjk : j < k
        · exact Or.inl (hneed j hjk)
        · right
          omega
  · rw [if_neg hlong]
    have his := prodShort_is hlen hprod (by rw [dflMaxlen] at hlong; omega)
    obtain ⟨r, hr, hres⟩ := prodFinish_is his (Int.natCast_nonneg _) (a.neg == b.neg)
      (a.exp + b.exp)
    rw [hr]
    refine .divided (a.exp + b.exp - 255) (Nat.sub_le _ _) ?_ ?_ ?_
    · have hexp : a.exp + b.exp - (a.exp + b.exp - 255) = min (a.exp + b.exp) 255 := by omega
      rw [hexp, ← hof]
      push_cast
      exact hres
    · have hpow : 256 ^ n ≤ 256 ^ 6 := Nat.pow_le_pow_right (by decide) (by
        rw [dflMaxlen] at hlong
        omega)
      rw [← hof]
      refine (Nat.div_le_self _ _).trans_lt (hprod.trans_le (hpow.trans ?_))
      norm_num
    · intro j hj
      right
      omega

/-- The product with the decimal that has no negation is zero. -/
theorem prodOuter_nil (i : ℕ) (bs area : List UInt8) : prodOuter [] i bs area = some area := by
  induction bs generalizing i with
  | nil => rfl
  | cons b bs ih =>
      rw [prodOuter, ih, Option.bind_some]
      split
      · rfl
      · rfl

theorem neg_of_min (h : a.coef = -2 ^ 55) : a.neg = true := by
  rw [Dfl.neg, ← signedBytes_neg_iff]
  rw [Dfl.coef] at h
  omega

theorem prodFinish_zero {maxarea : ℕ} (hshort : maxarea < 7) (positive : Bool) (exponent : ℕ) :
    ∃ r, prodFinish positive exponent (prodShort maxarea (List.replicate (maxarea + 1) 0)) =
        some r ∧ r.Is (min exponent 255) 0 := by
  have hfits : ofBytes (List.replicate (maxarea + 1) 0) < 256 ^ maxarea := by
    rw [ofBytes_replicate_zero]
    exact Nat.pow_pos (by decide)
  have his := prodShort_is List.length_replicate hfits hshort
  rw [ofBytes_replicate_zero] at his
  obtain ⟨r, hr, hres⟩ := prodFinish_is his le_rfl positive exponent
  refine ⟨r, hr, hres.valid, hres.exp_eq, hres.coef_eq.trans ?_⟩
  rw [Nat.cast_zero, Int.zero_ediv, neg_zero, ite_self]

/-- An overflow without mantissa bytes gives zero, on either side. -/
theorem dflProd_min_left (ha : a.Valid) (hb : b.Valid) (hamin : a.coef = -2 ^ 55)
    (hbmin : b.coef ≠ -2 ^ 55) :
    ∃ r, dflProd a b = some r ∧ r.Is (min (a.exp + b.exp) 255) 0 := by
  have hov : ¬ (dflOverflow a = true ∨ dflOverflow b = true) := by
    rw [ha.not_overflow, hb.not_overflow]
    decide
  have h₁ := dflChangeSign_min ⟨ha, rfl, hamin⟩
  have h₂ := absDfl_is hb.is hbmin
  have hge := h₂.valid.len_ge
  have hle := h₂.valid.len_le
  rw [dflMaxlen] at hle
  rw [dflProd, if_neg hov]
  simp only [neg_of_min hamin, if_true, h₁]
  generalize (if b.neg = true then dflChangeSign b else b) = d₂ at *
  rw [if_neg (by omega), zero_add, h₂.exp_eq]
  have hnil : ({ a with len := 0 } : Dfl).bytes = [] := rfl
  rw [hnil, prodOuter, Option.bind_some, if_neg (by rw [dflMaxlen]; omega)]
  exact prodFinish_zero (by omega) _ _

theorem dflProd_min_right (ha : a.Valid) (hb : b.Valid) (hamin : a.coef ≠ -2 ^ 55)
    (hbmin : b.coef = -2 ^ 55) :
    ∃ r, dflProd a b = some r ∧ r.Is (min (a.exp + b.exp) 255) 0 := by
  have hov : ¬ (dflOverflow a = true ∨ dflOverflow b = true) := by
    rw [ha.not_overflow, hb.not_overflow]
    decide
  have h₁ := absDfl_is ha.is hamin
  have h₂ := dflChangeSign_min ⟨hb, rfl, hbmin⟩
  have hge := h₁.valid.len_ge
  have hle := h₁.valid.len_le
  rw [dflMaxlen] at hle
  rw [dflProd, if_neg hov]
  simp only [neg_of_min hbmin, if_true, h₂]
  generalize (if a.neg = true then dflChangeSign a else a) = d₁ at *
  rw [if_neg (by omega), add_zero, h₁.exp_eq]
  have hnil : ({ b with len := 0 } : Dfl).bytes = [] := rfl
  rw [hnil, prodOuter_nil, Option.bind_some, if_neg (by rw [dflMaxlen]; omega)]
  exact prodFinish_zero (by omega) _ _

/-- Without any bytes the assertion on the index of the first byte fails. -/
theorem dflProd_min_min (ha : a.Valid) (hb : b.Valid) (hamin : a.coef = -2 ^ 55)
    (hbmin : b.coef = -2 ^ 55) : dflProd a b = none := by
  have hov : ¬ (dflOverflow a = true ∨ dflOverflow b = true) := by
    rw [ha.not_overflow, hb.not_overflow]
    decide
  have h₁ := dflChangeSign_min ⟨ha, rfl, hamin⟩
  have h₂ := dflChangeSign_min ⟨hb, rfl, hbmin⟩
  rw [dflProd, if_neg hov]
  simp only [neg_of_min hamin, neg_of_min hbmin, if_true, h₁, h₂]
  rfl

/-! ## Accuracy -/

/-- The product is exact where it fits, an overflow stands for a product that is too large,
and otherwise the last decimal place is the limit of the error. -/
structure ProdAccurate (a b r : Dfl) : Prop where
  exact : |a.coef * b.coef| < 2 ^ 55 → a.exp + b.exp ≤ 255 →
    r.Valid ∧ r.value = a.value * b.value
  overflow : dflOverflow r = true → 2 ^ 55 ≤ |a.value * b.value|
  near : dflOverflow r = false → r.Valid ∧
    (r.value = 0 ∨ SignType.sign r.value = SignType.sign (a.value * b.value)) ∧
      |a.value * b.value - r.value| < 1 / 10 ^ r.exp

/-- Both orders give a product, inside of the area, and the same one. -/
def ProdCorrect (a b : Dfl) : Prop :=
  ∃ r s, dflProd a b = some r ∧ dflProd b a = some s ∧ ProdAccurate a b r ∧
    ProdAccurate b a s ∧ dflOverflow r = dflOverflow s ∧ r.value = s.value

def prodSign (a b : Dfl) : ℤ := if a.neg == b.neg then 1 else -1

theorem prodSign_eq_or (a b : Dfl) : prodSign a b = 1 ∨ prodSign a b = -1 := by
  rw [prodSign]
  split
  · exact Or.inl rfl
  · exact Or.inr rfl

theorem coef_mul_eq (a b : Dfl) :
    a.coef * b.coef = prodSign a b * (a.coef.natAbs * b.coef.natAbs : ℕ) := by
  nth_rewrite 1 [coef_eq_natAbs a, coef_eq_natAbs b]
  rw [prodSign, Nat.cast_mul]
  generalize (a.coef.natAbs : ℤ) = m
  generalize (b.coef.natAbs : ℤ) = n
  cases a.neg with
  | true =>
      cases b.neg with
      | true => exact (neg_mul_neg m n).trans (one_mul (m * n)).symm
      | false => exact (neg_mul m n).trans (neg_one_mul (m * n)).symm
  | false =>
      cases b.neg with
      | true => exact (mul_neg m n).trans (neg_one_mul (m * n)).symm
      | false => exact (one_mul (m * n)).symm

theorem value_mul_eq (a b : Dfl) : a.value * b.value =
    prodSign a b * ((a.coef.natAbs * b.coef.natAbs : ℕ) / 10 ^ (a.exp + b.exp)) := by
  have hcoef : ((a.coef * b.coef : ℤ) : ℚ) = _ := congrArg Int.cast (coef_mul_eq a b)
  rw [Dfl.value, Dfl.value, div_mul_div_comm, ← pow_add, ← Int.cast_mul, hcoef, Int.cast_mul,
    mul_div_assoc]
  rfl

/-- Digits that are cut off are less than one unit of the last one that stays. -/
theorem abs_div_sub_lt {n k e : ℕ} (hk : k ≤ e) :
    |(n : ℚ) / 10 ^ e - (n / 10 ^ k : ℕ) / 10 ^ (e - k)| < 1 / 10 ^ (e - k) := by
  have hsplit : (10 : ℚ) ^ e = 10 ^ k * 10 ^ (e - k) := by
    rw [← pow_add, Nat.add_sub_cancel' hk]
  have hpow : (0 : ℚ) < 10 ^ (e - k) := by positivity
  have hpow' : (0 : ℚ) < 10 ^ k := by positivity
  have hlow : ((n / 10 ^ k : ℕ) : ℚ) * 10 ^ k ≤ n := by
    exact_mod_cast Nat.div_mul_le_self n (10 ^ k)
  have hhigh : (n : ℚ) < ((n / 10 ^ k : ℕ) + 1) * 10 ^ k := by
    rw [mul_comm]
    exact_mod_cast Nat.lt_mul_div_succ n (Nat.pow_pos (n := k) (by decide : 0 < 10))
  rw [hsplit, ← div_div, ← sub_div, abs_div, abs_of_pos hpow]
  refine div_lt_div_of_pos_right ?_ hpow
  rw [abs_lt]
  constructor
  · rw [lt_sub_iff_add_lt, lt_div_iff₀ hpow']
    linarith
  · rw [sub_lt_iff_lt_add, div_lt_iff₀ hpow']
    linarith

theorem value_of_result {r : Dfl} {k : ℕ}
    (h : r.Is (a.exp + b.exp - k) (if a.neg == b.neg then
      ((a.coef.natAbs * b.coef.natAbs / 10 ^ k : ℕ) : ℤ)
      else -((a.coef.natAbs * b.coef.natAbs / 10 ^ k : ℕ) : ℤ))) :
    r.value = prodSign a b *
      ((a.coef.natAbs * b.coef.natAbs / 10 ^ k : ℕ) / 10 ^ (a.exp + b.exp - k)) := by
  rw [h.value_eq, prodSign]
  cases a.neg == b.neg with
  | true => rw [if_pos rfl, if_pos rfl, Int.cast_one, one_mul, Int.cast_natCast]
  | false =>
      rw [if_neg Bool.false_ne_true, if_neg Bool.false_ne_true, Int.cast_neg, Int.cast_neg,
        Int.cast_one, Int.cast_natCast, neg_one_mul, neg_div]

theorem abs_prodSign_mul (a b : Dfl) (x : ℚ) : |(prodSign a b : ℚ) * x| = |x| := by
  rcases prodSign_eq_or a b with h | h
  · rw [h, Int.cast_one, one_mul]
  · rw [h, Int.cast_neg, Int.cast_one, neg_one_mul, abs_neg]

theorem ProdResult.accurate {r : Option Dfl} (h : ProdResult a b r) :
    ∃ r', r = some r' ∧ ProdAccurate a b r' := by
  have hvalue := value_mul_eq a b
  have habs : |a.coef * b.coef| = (a.coef.natAbs * b.coef.natAbs : ℕ) := by
    rw [Int.abs_eq_natAbs, Int.natAbs_mul]
  cases h with
  | overflow hbig =>
      have hle : 2 ^ 55 * 10 ^ (a.exp + b.exp) ≤ a.coef.natAbs * b.coef.natAbs :=
        (Nat.le_div_iff_mul_le (Nat.pow_pos (by decide))).mp hbig
      refine ⟨dflNan, rfl, fun hexact _ => ?_, fun _ => ?_, fun hov => absurd hov (by decide)⟩
      · rw [habs] at hexact
        have hle' := Nat.div_le_self (a.coef.natAbs * b.coef.natAbs) (10 ^ (a.exp + b.exp))
        omega
      · rw [hvalue, abs_prodSign_mul, abs_of_nonneg (by positivity),
          le_div_iff₀ (by positivity)]
        exact_mod_cast hle
  | divided k hk hr hlt hneed =>
      have hres := value_of_result hr
      refine ⟨_, rfl, fun hexact hexp => ⟨hr.valid, ?_⟩, fun hov => ?_, fun _ =>
        ⟨hr.valid, ?_, ?_⟩⟩
      · have hk0 : k = 0 := by
          by_contra hne
          rw [habs] at hexact
          rcases hneed 0 (Nat.pos_of_ne_zero hne) with hbig | hbig
          · rw [pow_zero, Nat.div_one] at hbig
            omega
          · omega
        rw [hres, hvalue, hk0, pow_zero, Nat.div_one, Nat.sub_zero]
      · rw [hr.valid.not_overflow] at hov
        exact absurd hov Bool.false_ne_true
      · rw [hres, hvalue]
        rcases Nat.eq_zero_or_pos (a.coef.natAbs * b.coef.natAbs / 10 ^ k) with hq | hq
        · left
          rw [hq, Nat.cast_zero, zero_div, mul_zero]
        · right
          have hp := hq.trans_le (Nat.div_le_self _ _)
          rw [sign_mul, sign_mul, sign_pos (div_pos (Nat.cast_pos.mpr hq) (by positivity)),
            sign_pos (div_pos (Nat.cast_pos.mpr hp) (by positivity))]
      · rw [hres, hvalue, ← mul_sub, abs_prodSign_mul, hr.exp_eq]
        exact abs_div_sub_lt hk

theorem ProdResult.symm {r : Option Dfl} (h : ProdResult b a r) : ProdResult a b r := by
  cases h with
  | overflow h =>
      rw [mul_comm, add_comm] at h
      exact .overflow h
  | divided k hk h hlt hneed =>
      rw [mul_comm, add_comm, BEq.comm] at h
      rw [add_comm] at hk
      rw [mul_comm] at hlt
      simp only [mul_comm b.coef.natAbs, add_comm b.exp] at hneed
      exact .divided k hk h hlt hneed

theorem ProdResult.unique {r s : Dfl} (hr : ProdResult a b (some r))
    (hs : ProdResult a b (some s)) : dflOverflow r = dflOverflow s ∧ r.value = s.value := by
  have hmono (k : ℕ) (hk : k ≤ a.exp + b.exp) :
      a.coef.natAbs * b.coef.natAbs / 10 ^ (a.exp + b.exp) ≤
        a.coef.natAbs * b.coef.natAbs / 10 ^ k :=
    Nat.div_le_div_left (Nat.pow_le_pow_right (by decide) hk) (Nat.pow_pos (by decide))
  cases hr with
  | overflow h =>
      cases hs with
      | overflow h' => exact ⟨rfl, rfl⟩
      | divided k hk hs hlt hneed => exact absurd (h.trans (hmono k hk)) (not_le.mpr hlt)
  | divided k hk hr hlt hneed =>
      cases hs with
      | overflow h => exact absurd (h.trans (hmono k hk)) (not_le.mpr hlt)
      | divided k' hk' hs hlt' hneed' =>
          -- a step is only made while it is needed
          have hle {i j : ℕ} (hi : a.coef.natAbs * b.coef.natAbs / 10 ^ i < 2 ^ 55)
              (hexp : a.exp + b.exp - i < 256)
              (hj : ∀ i < j, 2 ^ 55 ≤ a.coef.natAbs * b.coef.natAbs / 10 ^ i ∨
                255 < a.exp + b.exp - i) : j ≤ i := by
            by_contra hlt
            rcases hj i (not_le.mp hlt) with hbig | hbig
            · exact absurd hbig (not_le.mpr hi)
            · omega
          have hexp := hr.valid.exp_lt
          have hexp' := hs.valid.exp_lt
          rw [hr.exp_eq] at hexp
          rw [hs.exp_eq] at hexp'
          obtain rfl := le_antisymm (hle hlt' hexp' hneed) (hle hlt hexp hneed')
          refine ⟨?_, ?_⟩
          · rw [hr.valid.not_overflow, hs.valid.not_overflow]
          · rw [hr.value_eq, hs.value_eq]

theorem abs_value_mul (a b : Dfl) :
    |a.value * b.value| = (|a.coef * b.coef| : ℤ) / 10 ^ (a.exp + b.exp) := by
  rw [Dfl.value, Dfl.value, div_mul_div_comm, ← pow_add, abs_div, ← Int.cast_mul, Int.cast_abs,
    abs_of_pos (show (0 : ℚ) < 10 ^ (a.exp + b.exp) by positivity)]

/-- The product with the lowest mantissa of seven bytes is a zero. It is accurate when the
exact product is below the last decimal place. -/
theorem prodAccurate_zero_iff {r : Dfl} (hr : r.Is (min (a.exp + b.exp) 255) 0) :
    ProdAccurate a b r ↔ |a.coef * b.coef| < 10 ^ (a.exp + b.exp - 255) := by
  have hzero : r.value = 0 := by
    rw [hr.value_eq, Int.cast_zero, zero_div]
  have hsplit : (10 : ℚ) ^ (a.exp + b.exp) =
      10 ^ (a.exp + b.exp - 255) * 10 ^ min (a.exp + b.exp) 255 := by
    have hexp : a.exp + b.exp - 255 + min (a.exp + b.exp) 255 = a.exp + b.exp := by omega
    rw [← pow_add, hexp]
  have hnear : |a.value * b.value - r.value| < 1 / 10 ^ r.exp ↔
      |a.coef * b.coef| < 10 ^ (a.exp + b.exp - 255) := by
    have hpow : (0 : ℚ) < 10 ^ min (a.exp + b.exp) 255 := by positivity
    rw [hzero, sub_zero, hr.exp_eq, abs_value_mul, hsplit, ← div_div,
      div_lt_div_iff_of_pos_right hpow, div_lt_one (by positivity)]
    generalize a.exp + b.exp - 255 = k
    exact_mod_cast Iff.rfl
  refine ⟨fun h => hnear.mp (h.near hr.valid.not_overflow).2.2, fun h => ⟨fun _ hexp => ?_,
    fun hov => ?_, fun _ => ⟨hr.valid, Or.inl hzero, hnear.mpr h⟩⟩⟩
  · rw [Nat.sub_eq_zero_of_le hexp, pow_zero, Int.abs_lt_one_iff] at h
    refine ⟨hr.valid, ?_⟩
    rw [hzero, Dfl.value, Dfl.value, div_mul_div_comm, ← Int.cast_mul, h, Int.cast_zero, zero_div]
  · rw [hr.valid.not_overflow] at hov
    exact absurd hov Bool.false_ne_true

/-- `dfl_prod` is correct except for a factor with the lowest mantissa of seven bytes, which
has no negation: it is taken for zero, and two of them fail. -/
theorem dflProd_correct_iff (a b : Decimal) : ProdCorrect a.1 b.1 ↔
    (a.1.coef = -2 ^ 55 ∨ b.1.coef = -2 ^ 55 → ¬ (a.1.coef = -2 ^ 55 ∧ b.1.coef = -2 ^ 55) ∧
      |a.1.coef * b.1.coef| < 10 ^ (a.1.exp + b.1.exp - 255)) := by
  obtain ⟨a, ha⟩ := a
  obtain ⟨b, hb⟩ := b
  -- with one lowest mantissa both orders give zero
  have hone {r s : Dfl} (hr : dflProd a b = some r) (hs : dflProd b a = some s)
      (hr' : r.Is (min (a.exp + b.exp) 255) 0) (hs' : s.Is (min (b.exp + a.exp) 255) 0) :
      ProdCorrect a b ↔ |a.coef * b.coef| < 10 ^ (a.exp + b.exp - 255) := by
    have hacc := prodAccurate_zero_iff hr'
    have hacc' := prodAccurate_zero_iff hs'
    rw [mul_comm, add_comm] at hacc'
    constructor
    · rintro ⟨r', -, hr'', -, h, -⟩
      obtain rfl := Option.some.inj (hr.symm.trans hr'')
      exact hacc.mp h
    · intro h
      refine ⟨r, s, hr, hs, hacc.mpr h, hacc'.mpr h, ?_, ?_⟩
      · rw [hr'.valid.not_overflow, hs'.valid.not_overflow]
      · rw [hr'.value_eq, hs'.value_eq, Int.cast_zero, zero_div, zero_div]
  by_cases hamin : a.coef = -2 ^ 55
  · by_cases hbmin : b.coef = -2 ^ 55
    · have hnone := dflProd_min_min ha hb hamin hbmin
      refine ⟨?_, fun h => absurd ⟨hamin, hbmin⟩ (h (Or.inl hamin)).1⟩
      rintro ⟨r, -, hr, -⟩
      exact absurd (hnone.symm.trans hr) (Option.some_ne_none r).symm
    · obtain ⟨r, hr, hr'⟩ := dflProd_min_left ha hb hamin hbmin
      obtain ⟨s, hs, hs'⟩ := dflProd_min_right hb ha hbmin hamin
      rw [hone hr hs hr' hs']
      exact ⟨fun h _ => ⟨fun hand => hbmin hand.2, h⟩, fun h => (h (Or.inl hamin)).2⟩
  · by_cases hbmin : b.coef = -2 ^ 55
    · obtain ⟨r, hr, hr'⟩ := dflProd_min_right ha hb hamin hbmin
      obtain ⟨s, hs, hs'⟩ := dflProd_min_left hb ha hbmin hamin
      rw [hone hr hs hr' hs']
      exact ⟨fun h _ => ⟨fun hand => hamin hand.1, h⟩, fun h => (h (Or.inr hbmin)).2⟩
    · refine ⟨fun _ h => absurd h (not_or.mpr ⟨hamin, hbmin⟩), fun _ => ?_⟩
      have hres := dflProd_result ha hb hamin hbmin
      have hres' := dflProd_result hb ha hbmin hamin
      obtain ⟨r, hr, hacc⟩ := hres.accurate
      obtain ⟨s, hs, hacc'⟩ := hres'.accurate
      rw [hr] at hres
      rw [hs] at hres'
      exact ⟨r, s, hr, hs, hacc, hacc', hres.unique hres'.symm⟩

/-- The product of the lowest mantissa and one is zero. -/
theorem not_prodCorrect_lowest : ¬ ∀ a b : Decimal, ProdCorrect a.1 b.1 := by
  intro h
  obtain ⟨r, -, hr, -, hacc, -⟩ := h ⟨lowestDfl, lowestDfl_valid⟩ ⟨oneDfl, oneDfl_valid⟩
  have hrun : dflProd lowestDfl oneDfl = some dfZero := by decide +kernel
  obtain rfl := Option.some.inj (hrun.symm.trans hr)
  have hnear := (hacc.near rfl).2.2
  have hlow : lowestDfl.coef = -2 ^ 55 := by decide +kernel
  have hone : oneDfl.coef = 1 := by decide +kernel
  have hzero : dfZero.coef = 0 := by decide +kernel
  rw [Dfl.value, Dfl.value, Dfl.value, hlow, hone, hzero] at hnear
  norm_num [lowestDfl, oneDfl, dfZero] at hnear

end SolidDB
