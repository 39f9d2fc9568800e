import SolidDB.Ss.Int8Mul
import SolidDB.Ss.Int8Div

/-!
# Exactness of the eight-byte integer operations

All results are right modulo `2 ^ 64`, so that an operation is exact when it reports success for
the results that fit and for no others.
-/

namespace SolidDB

open SsInt8

def FitsInt8 (n : ℤ) : Prop := -2 ^ 63 ≤ n ∧ n < 2 ^ 63

instance (n : ℤ) : Decidable (FitsInt8 n) := inferInstanceAs (Decidable (_ ∧ _))

def succeeded (r : Bool × SsInt8) : Option SsInt8 := if r.1 then some r.2 else none

/-- Success exactly when the mathematical result fits, and then with this result. -/
def ExactInt8 (r : Option SsInt8) (n : ℤ) : Prop :=
  (r.isSome = true ↔ FitsInt8 n) ∧ ∀ v ∈ r, v.toInt = n

theorem exactInt8_succeeded_iff {r : Bool × SsInt8} {n : ℤ}
    (hr : (r.2.toNat : ℤ) = n % 2 ^ 64) :
    ExactInt8 (succeeded r) n ↔ (r.1 = true ↔ FitsInt8 n) := by
  rw [ExactInt8, succeeded]
  by_cases h : r.1 = true
  · simp only [h, if_true, Option.isSome_some, true_iff, Option.mem_def, Option.some.injEq,
      forall_eq', and_iff_left_iff_imp]
    exact fun hn => (toInt_eq_iff r.2).mpr ⟨hn.1, hn.2, hr⟩
  · simp [h]

theorem exactInt8_some_iff {v : SsInt8} {n : ℤ} (hv : (v.toNat : ℤ) = n % 2 ^ 64) :
    ExactInt8 (some v) n ↔ FitsInt8 n := by
  have h := exactInt8_succeeded_iff (r := (true, v)) hv
  simpa [succeeded] using h

variable (x y : SsInt8)

/-! ## Addition, negation and subtraction -/

theorem toNat_cast : (x.toNat : ℤ) = x.toInt ∨ (x.toNat : ℤ) = x.toInt + 2 ^ 64 := by
  rw [toInt]
  split <;> omega

theorem fitsInt8_toInt : FitsInt8 x.toInt := x.toInt_bounds

theorem addInt8_exact : ExactInt8 (succeeded (ssInt8AddInt8 x y)) (x.toInt + y.toInt) := by
  have hx := x.toNat_lt
  have hy := y.toNat_lt
  have hsum := toNat_addInt8 x y
  rw [exactInt8_succeeded_iff, addInt8_fst, hsum, FitsInt8, toInt, toInt]
  · split <;> split <;> omega
  · rw [hsum, toInt, toInt]
    split <;> split <;> omega

theorem negate_exact : ExactInt8 (succeeded (ssInt8Negate x)) (-x.toInt) := by
  have hx := x.toNat_lt
  have hneg := toNat_negate x
  rw [exactInt8_succeeded_iff, negate_fst, FitsInt8, toInt]
  · split <;> omega
  · rw [hneg, toInt]
    split <;> omega

/-- The negation of the lowest value fails, also where the difference fits. -/
theorem subtractInt8_exact_iff :
    ExactInt8 (succeeded (ssInt8SubtractInt8 x y)) (x.toInt - y.toInt) ↔
      ¬ (y.toInt = -2 ^ 63 ∧ x.toInt < 0) := by
  have hx := x.toNat_lt
  have hy := y.toNat_lt
  have hneg := toNat_negate y
  have hdiff := toNat_subtractInt8 x y
  have hsum := toNat_addInt8 x (ssInt8Negate y).2
  have hfst : (ssInt8SubtractInt8 x y).1 = true ↔
      (ssInt8Negate y).1 = true ∧ (ssInt8AddInt8 x (ssInt8Negate y).2).1 = true := by
    rw [← Bool.and_eq_true]
    rfl
  rw [exactInt8_succeeded_iff, hfst, negate_fst, addInt8_fst, hsum, hneg, FitsInt8, toInt, toInt]
  · split <;> split <;> omega
  · rw [hdiff, toInt, toInt]
    split <;> split <;> omega

/-! ## Small operands -/

theorem toNat_addUint4 {u4 : ℕ} (h : u4 < 2 ^ 32) :
    (ssInt8AddUint4 x u4).2.toNat = (x.toNat + u4) % 2 ^ 64 := by
  have hhigh : u4 >>> 16 = u4 / 65536 := Nat.shiftRight_eq_div_pow u4 16
  rw [ssInt8AddUint4]
  simp only []
  rw [toNat_addUint2WithShift _ _ (show 1 ≤ 4 by decide),
    toNat_addUint2WithShift _ _ (Nat.zero_le 4), toNat_ofNat_word, toNat_ofNat_word, hhigh]
  omega

theorem toNat_setInt4 {i4 : ℤ} (hge : 0 ≤ i4) (hlt : i4 < 2 ^ 31) :
    ((ssInt8SetInt4 i4).toNat : ℤ) = i4 := by
  rw [ssInt8SetInt4, if_neg (not_lt.mpr hge), toNat_set2U4 (by decide) (by omega)]
  omega

theorem multiplyInt2_spec {v : SsInt8} (hv : v.toNat < 2 ^ 63) {m : UInt16}
    (hm : m.toNat < 2 ^ 15) :
    ((ssInt8MultiplyByInt2 v m).1 = true ↔ v.toNat * m.toNat < 2 ^ 63) ∧
      (v.toNat * m.toNat < 2 ^ 63 →
        (ssInt8MultiplyByInt2 v m).2.toNat = v.toNat * m.toNat) := by
  have hneg : v.isneg = false := v.isneg_eq_false_iff.mpr hv
  have hshift : (decide (m.toNat >>> 15 ≠ 0)) = false := by
    rw [decide_eq_false_iff_not, Nat.shiftRight_eq_div_pow]
    omega
  have hsum := ofWords_mulCarry m.toNat v.u2 0
  have hlt := (multiplyInt2Loop v m.toNat).1.toNat_lt
  rw [v.length_u2, add_zero] at hsum
  have hval : (multiplyInt2Loop v m.toNat).1.toNat +
      65536 ^ 4 * (multiplyInt2Loop v m.toNat).2 = v.toNat * m.toNat := hsum
  have hisneg := (multiplyInt2Loop v m.toNat).1.isneg_eq_false_iff
  rw [ssInt8MultiplyByInt2]
  simp only [hneg, hshift, negateIf, Bool.false_eq_true, if_false, Bool.not_eq_true',
    Bool.or_eq_false_iff, hisneg, decide_eq_false_iff_not, not_not, bne_self_eq_false]
  generalize (multiplyInt2Loop v m.toNat).2 = c at hval
  generalize v.toNat * m.toNat = p at hval
  omega

/-! ## Multiplication -/

/-- The product of absolute values does not go unnoticed: a product of words reaches over the
highest word, or a partial sum of the terms has its highest bit set. -/
def ProductNoticed : Prop :=
  (∃ t ∈ mulTops (ofNat x.toInt.natAbs).u2 0 (ofNat y.toInt.natAbs).u2, t ≠ 0) ∨
    ∃ us, us <+: mulTerms (ofNat x.toInt.natAbs).u2 0 (ofNat y.toInt.natAbs).u2 ∧
      2 ^ 63 ≤ termSum us % 2 ^ 64

/-- No operand and no product is the lowest value, and a product that does not fit is noticed. -/
structure MultiplyMeets : Prop where
  fits : FitsInt8 (x.toInt * y.toInt) →
    x.toInt ≠ -2 ^ 63 ∧ y.toInt ≠ -2 ^ 63 ∧ x.toInt * y.toInt ≠ -2 ^ 63
  misfits : ¬ FitsInt8 (x.toInt * y.toInt) →
    x.toInt = -2 ^ 63 ∨ y.toInt = -2 ^ 63 ∨ ProductNoticed x y

theorem negateIf_isneg_eq : (negateIf x.isneg x).2 = ofNat x.toInt.natAbs := by
  apply toNat_injective
  have hlt := (negateIf x.isneg x).2.toNat_lt
  rw [negateIf_isneg_toNat] at hlt
  rw [negateIf_isneg_toNat, toNat_ofNat, Nat.mod_eq_of_lt hlt]

theorem negateIf_isneg_fst : (negateIf x.isneg x).1 = true ↔ x.toInt ≠ -2 ^ 63 := by
  have hlt := x.toNat_lt
  rw [negateIf_fst, isneg_iff, toInt]
  split <;> omega

/-- The sum of all terms, which is the product up to multiples of `2 ^ 64`. -/
theorem exists_termSum (a b : ℕ) (ha : a < 2 ^ 64) (hb : b < 2 ^ 64) :
    ∃ k, a * b = termSum (mulTerms (ofNat a).u2 0 (ofNat b).u2) + 2 ^ 64 * k ∧
      ∀ t ∈ mulTops (ofNat a).u2 0 (ofNat b).u2, t ≤ k := by
  have h := mulTerms_sum (ofNat a).length_u2 (ofNat b).u2 0 (by rw [(ofNat b).length_u2])
  have hval (n : ℕ) (hn : n < 2 ^ 64) : ofWords (ofNat n).u2 = n := by
    have hmod := toNat_ofNat n
    rw [Nat.mod_eq_of_lt hn] at hmod
    exact hmod
  rw [hval a ha, hval b hb, pow_zero, mul_one] at h
  exact h

theorem termSum_prefix_le {us ts : List Term} (h : us <+: ts) : termSum us ≤ termSum ts := by
  obtain ⟨vs, rfl⟩ := h
  rw [termSum_append]
  exact Nat.le_add_right _ _

theorem natAbs_lt : x.toInt.natAbs < 2 ^ 64 := by
  have h := x.toInt_bounds
  omega

/-- The loop over the words succeeds when the product is not noticed. -/
theorem multiplyInt8Loop_spec :
    let r := multiplyInt8Loop (negateIf x.isneg x).2 (.set2U4 0 0) 0 (negateIf y.isneg y).2.u2
    (r.1 = true ↔ ¬ ProductNoticed x y) ∧
      r.2.toNat = x.toInt.natAbs * y.toInt.natAbs % 2 ^ 64 := by
  intro r
  have hlen : 0 + (ofNat y.toInt.natAbs).u2.length ≤ 4 := by rw [(ofNat _).length_u2]
  have hr : r = multiplyInt8Loop (ofNat x.toInt.natAbs) (.set2U4 0 0) 0
      (ofNat y.toInt.natAbs).u2 := by
    rw [← negateIf_isneg_eq, ← negateIf_isneg_eq]
  have hzero : (set2U4 0 0).toNat = 0 := rfl
  have hpos := mulTerms_position (ofNat x.toInt.natAbs).length_u2 (ofNat y.toInt.natAbs).u2 0 hlen
  rw [hr, multiplyInt8Loop_eq _ _ _ _ hlen]
  constructor
  · rw [Bool.and_eq_true, addTerms_fst _ _ hpos (by rw [hzero]; decide), List.all_eq_true,
      ProductNoticed, not_or, hzero]
    push Not
    simp only [zero_add, decide_eq_true_eq]
    exact and_comm
  · obtain ⟨k, hk, -⟩ := exists_termSum _ _ (natAbs_lt x) (natAbs_lt y)
    rw [addTerms_toNat _ _ hpos, hzero, zero_add, hk, Nat.add_mul_mod_self_left]

/-- A product that fits without its sign is not noticed. -/
theorem not_productNoticed (h : x.toInt.natAbs * y.toInt.natAbs < 2 ^ 63) :
    ¬ ProductNoticed x y := by
  obtain ⟨k, hk, htops⟩ := exists_termSum _ _ (natAbs_lt x) (natAbs_lt y)
  have hk0 : k = 0 := by omega
  rintro (⟨t, ht, hne⟩ | ⟨us, hus, hge⟩)
  · have := htops t ht
    omega
  · have hle := termSum_prefix_le hus
    rw [Nat.mod_eq_of_lt (by omega)] at hge
    omega

/-- A product that is not noticed is below `2 ^ 63` modulo `2 ^ 64`. -/
theorem mod_lt_of_not_productNoticed (h : ¬ ProductNoticed x y) :
    x.toInt.natAbs * y.toInt.natAbs % 2 ^ 64 < 2 ^ 63 := by
  obtain ⟨k, hk, -⟩ := exists_termSum _ _ (natAbs_lt x) (natAbs_lt y)
  rw [hk, Nat.add_mul_mod_self_left]
  exact not_le.mp fun hge => h (Or.inr ⟨_, List.prefix_rfl, hge⟩)

theorem natAbs_mul_eq : ((x.toInt.natAbs * y.toInt.natAbs : ℕ) : ℤ) =
    if (x.isneg != y.isneg) = true then -(x.toInt * y.toInt) else x.toInt * y.toInt := by
  have hx := x.isneg_iff_toInt
  have hy := y.isneg_iff_toInt
  rw [Nat.cast_mul]
  by_cases hnx : x.isneg = true
  · have hx0 := hx.mp hnx
    by_cases hny : y.isneg = true
    · have hy0 := hy.mp hny
      rw [hnx, hny, Int.ofNat_natAbs_of_nonpos hx0.le, Int.ofNat_natAbs_of_nonpos hy0.le,
        bne_self_eq_false, if_neg Bool.false_ne_true, neg_mul_neg]
    · have hy0 := not_lt.mp fun h => hny (hy.mpr h)
      rw [hnx, Bool.eq_false_of_not_eq_true hny, Int.ofNat_natAbs_of_nonpos hx0.le,
        Int.natAbs_of_nonneg hy0, if_pos (show (true != false) = true from rfl), neg_mul]
  · have hx0 := not_lt.mp fun h => hnx (hx.mpr h)
    by_cases hny : y.isneg = true
    · have hy0 := hy.mp hny
      rw [Bool.eq_false_of_not_eq_true hnx, hny, Int.natAbs_of_nonneg hx0,
        Int.ofNat_natAbs_of_nonpos hy0.le, if_pos (show (false != true) = true from rfl), mul_neg]
    · have hy0 := not_lt.mp fun h => hny (hy.mpr h)
      rw [Bool.eq_false_of_not_eq_true hnx, Bool.eq_false_of_not_eq_true hny,
        Int.natAbs_of_nonneg hx0, Int.natAbs_of_nonneg hy0, bne_self_eq_false,
        if_neg Bool.false_ne_true]

/-- What the multiplication returns: the flag and the result modulo `2 ^ 64`. -/
theorem multiplyInt8_spec :
    ((ssInt8MultiplyByInt8 x y).1 = true ↔
      x.toInt ≠ -2 ^ 63 ∧ y.toInt ≠ -2 ^ 63 ∧ ¬ ProductNoticed x y) ∧
    ((ssInt8MultiplyByInt8 x y).2.toNat : ℤ) = x.toInt * y.toInt % 2 ^ 64 := by
  obtain ⟨hfst, hval⟩ := multiplyInt8Loop_spec x y
  have habs := natAbs_mul_eq x y
  have hmod := mod_lt_of_not_productNoticed x y
  rw [ssInt8MultiplyByInt8]
  generalize multiplyInt8Loop (negateIf x.isneg x).2 (.set2U4 0 0) 0 (negateIf y.isneg y).2.u2 = r
    at hfst hval
  simp only []
  constructor
  · rw [Bool.and_eq_true, Bool.and_eq_true, Bool.and_eq_true, negateIf_isneg_fst,
      negateIf_isneg_fst, hfst, negateIf_fst, hval]
    constructor
    · rintro ⟨⟨⟨hx, hy⟩, hn⟩, -⟩
      exact ⟨hx, hy, hn⟩
    · rintro ⟨hx, hy, hn⟩
      exact ⟨⟨⟨hx, hy⟩, hn⟩, fun _ => (hmod hn).ne⟩
  · rw [negateIf_toNat, hval]
    split
    · next h =>
      rw [if_pos h] at habs
      generalize x.toInt.natAbs * y.toInt.natAbs = p at habs
      omega
    · next h =>
      rw [if_neg h] at habs
      rw [← habs]
      rfl

theorem multiplyInt8_exact_iff :
    ExactInt8 (succeeded (ssInt8MultiplyByInt8 x y)) (x.toInt * y.toInt) ↔ MultiplyMeets x y := by
  obtain ⟨hfst, hval⟩ := multiplyInt8_spec x y
  rw [exactInt8_succeeded_iff hval, hfst]
  have habs := natAbs_mul_eq x y
  have hsmall := not_productNoticed x y
  have hmod := mod_lt_of_not_productNoticed x y
  have hmin : x.toInt * y.toInt = -2 ^ 63 → ProductNoticed x y := by
    intro h
    by_contra hn
    have := hmod hn
    rw [h] at habs
    generalize x.toInt.natAbs * y.toInt.natAbs = p at habs this
    split at habs <;> omega
  constructor
  · intro h
    refine ⟨fun hfits => ?_, fun hmis => ?_⟩
    · obtain ⟨hx, hy, hn⟩ := h.mpr hfits
      exact ⟨hx, hy, fun heq => hn (hmin heq)⟩
    · by_contra hnot
      push Not at hnot
      exact hmis (h.mp ⟨hnot.1, hnot.2.1, hnot.2.2⟩)
  · intro h
    constructor
    · rintro ⟨hx, hy, hn⟩
      by_contra hmis
      rcases h.misfits hmis with h | h | h
      · exact hx h
      · exact hy h
      · exact hn h
    · intro hfits
      obtain ⟨hx, hy, hne⟩ := h.fits hfits
      refine ⟨hx, hy, hsmall ?_⟩
      rw [FitsInt8] at hfits
      generalize x.toInt.natAbs * y.toInt.natAbs = p at habs
      split at habs <;> omega

/-! ## Division -/

theorem toInt_eq_natAbs :
    x.toInt = if x.isneg = true then -(x.toInt.natAbs : ℤ) else x.toInt.natAbs := by
  have h := x.isneg_iff_toInt
  split
  · next hneg =>
    have := h.mp hneg
    omega
  · next hpos =>
    have := not_lt.mp fun hlt => hpos (h.mpr hlt)
    omega

theorem tdiv_eq : x.toInt.tdiv y.toInt =
    if (x.isneg != y.isneg) = true then -((x.toInt.natAbs / y.toInt.natAbs : ℕ) : ℤ)
    else ((x.toInt.natAbs / y.toInt.natAbs : ℕ) : ℤ) := by
  have hx := toInt_eq_natAbs x
  have hy := toInt_eq_natAbs y
  generalize x.toInt.natAbs = a at hx
  generalize y.toInt.natAbs = b at hy
  rw [hx, hy]
  cases x.isneg <;> cases y.isneg <;> simp

theorem tmod_eq : x.toInt.tmod y.toInt =
    if x.isneg = true then -((x.toInt.natAbs % y.toInt.natAbs : ℕ) : ℤ)
    else ((x.toInt.natAbs % y.toInt.natAbs : ℕ) : ℤ) := by
  have hx := toInt_eq_natAbs x
  have hy := toInt_eq_natAbs y
  generalize x.toInt.natAbs = a at hx
  generalize y.toInt.natAbs = b at hy
  rw [hx, hy, Int.ofNat_tmod]
  cases x.isneg <;> cases y.isneg <;> simp

theorem toInt_eq_zero_iff : x.toInt = 0 ↔ x.toNat = 0 := by
  have hlt := x.toNat_lt
  rw [toInt]
  split <;> omega

theorem negateIf_toNat_emod (neg : Bool) :
    ((negateIf neg x).2.toNat : ℤ) = (if neg = true then -(x.toNat : ℤ) else x.toNat) % 2 ^ 64 := by
  have hlt := x.toNat_lt
  rw [negateIf_toNat]
  split <;> omega

theorem divide_of_zero (h : y.toInt = 0) :
    ssInt8DivideByInt8 x y = none ∧ ssInt8RemainderByInt8 x y = none := by
  have h0 : y.is0 = true := y.is0_iff.mpr ((toInt_eq_zero_iff y).mp h)
  rw [ssInt8DivideByInt8, ssInt8RemainderByInt8, if_pos h0, if_pos h0]
  exact ⟨rfl, rfl⟩

theorem divide_spec (h : y.toInt ≠ 0) :
    ∃ q r, ssInt8DivideByInt8 x y = some q ∧ ssInt8RemainderByInt8 x y = some r ∧
      (q.toNat : ℤ) = x.toInt.tdiv y.toInt % 2 ^ 64 ∧
      (r.toNat : ℤ) = x.toInt.tmod y.toInt % 2 ^ 64 := by
  have h0 : ¬ y.is0 = true := fun h' => h ((toInt_eq_zero_iff y).mpr (y.is0_iff.mp h'))
  have hy : (negateIf y.isneg y).2.toNat ≠ 0 := by
    rw [negateIf_isneg_toNat, Int.natAbs_ne_zero]
    exact h
  obtain ⟨q, r, hdiv, hq, hr⟩ := ssInt8UnsignedDivide_spec (x := (negateIf x.isneg x).2) hy
  rw [negateIf_isneg_toNat, negateIf_isneg_toNat] at hq hr
  rw [ssInt8DivideByInt8, ssInt8RemainderByInt8, if_neg h0, if_neg h0, hdiv]
  refine ⟨_, _, rfl, rfl, ?_, ?_⟩
  · rw [negateIf_toNat_emod, tdiv_eq, hq]
  · rw [negateIf_toNat_emod, tmod_eq, hr]

theorem fitsInt8_tdiv_iff (h : y.toInt ≠ 0) :
    FitsInt8 (x.toInt.tdiv y.toInt) ↔ ¬ (x.toInt = -2 ^ 63 ∧ y.toInt = -1) := by
  have hx := x.toInt_bounds
  have hxneg := x.isneg_iff_toInt
  have hyneg := y.isneg_iff_toInt
  rw [tdiv_eq, FitsInt8]
  by_cases hone : y.toInt.natAbs = 1
  · rw [hone, Nat.div_one]
    have hy : y.toInt = 1 ∨ y.toInt = -1 := by omega
    rcases hy with hy | hy
    · have hny : y.isneg = false := by
        rw [← Bool.not_eq_true, hyneg, hy]
        decide
      rw [hny, Bool.bne_false]
      split
      · omega
      · next hnx =>
        have := not_lt.mp fun hlt => hnx (hxneg.mpr hlt)
        omega
    · have hny : y.isneg = true := hyneg.mpr (by omega)
      rw [hny]
      by_cases hnx : x.isneg = true
      · have := hxneg.mp hnx
        rw [hnx, if_neg (by decide)]
        omega
      · have := not_lt.mp fun hlt => hnx (hxneg.mpr hlt)
        rw [Bool.eq_false_of_not_eq_true hnx, if_pos (by decide)]
        omega
  · have hdiv : x.toInt.natAbs / y.toInt.natAbs ≤ x.toInt.natAbs / 2 :=
      Nat.div_le_div_left (by omega) (by decide)
    generalize x.toInt.natAbs / y.toInt.natAbs = q at hdiv
    split <;> omega

theorem fitsInt8_tmod (h : y.toInt ≠ 0) : FitsInt8 (x.toInt.tmod y.toInt) := by
  have hy := y.toInt_bounds
  have hmod : x.toInt.natAbs % y.toInt.natAbs < y.toInt.natAbs := Nat.mod_lt _ (by omega)
  rw [tmod_eq, FitsInt8]
  generalize x.toInt.natAbs % y.toInt.natAbs = r at hmod
  split <;> omega

/-! ## All operations -/

/-- The operations on two values are exact, a division by zero fails, dividend, quotient and
remainder fit together, and the comparison has the sign of the difference. -/
structure ExactOperations : Prop where
  add : ExactInt8 (succeeded (ssInt8AddInt8 x y)) (x.toInt + y.toInt)
  subtract : ExactInt8 (succeeded (ssInt8SubtractInt8 x y)) (x.toInt - y.toInt)
  multiply : ExactInt8 (succeeded (ssInt8MultiplyByInt8 x y)) (x.toInt * y.toInt)
  negate : ExactInt8 (succeeded (ssInt8Negate x)) (-x.toInt)
  divide : if y.toInt = 0 then ssInt8DivideByInt8 x y = none
    else ExactInt8 (ssInt8DivideByInt8 x y) (x.toInt.tdiv y.toInt)
  remainder : if y.toInt = 0 then ssInt8RemainderByInt8 x y = none
    else ExactInt8 (ssInt8RemainderByInt8 x y) (x.toInt.tmod y.toInt)
  recompose : ∀ q ∈ ssInt8DivideByInt8 x y, ∀ r ∈ ssInt8RemainderByInt8 x y,
    x.toInt = q.toInt * y.toInt + r.toInt
  cmp : (ssInt8Cmp x y).sign = (x.toInt - y.toInt).sign

/-- The operations are exact except for the lowest value as second operand of a difference, the
products above, and the lowest value divided by `-1`. -/
theorem exactOperations_iff_noticed :
    ExactOperations x y ↔
      ¬ (y.toInt = -2 ^ 63 ∧ x.toInt < 0) ∧ MultiplyMeets x y ∧
        ¬ (x.toInt = -2 ^ 63 ∧ y.toInt = -1) := by
  constructor
  · intro h
    refine ⟨(subtractInt8_exact_iff x y).mp h.subtract, (multiplyInt8_exact_iff x y).mp h.multiply,
      fun hmin => ?_⟩
    have hy : y.toInt ≠ 0 := by
      rw [hmin.2]
      decide
    obtain ⟨q, r, hq, -, hval, -⟩ := divide_spec x y hy
    have hdivide := h.divide
    rw [if_neg hy, hq, exactInt8_some_iff hval, fitsInt8_tdiv_iff x y hy] at hdivide
    exact hdivide hmin
  · rintro ⟨hsub, hmul, hdiv⟩
    refine ⟨addInt8_exact x y, (subtractInt8_exact_iff x y).mpr hsub,
      (multiplyInt8_exact_iff x y).mpr hmul, negate_exact x, ?_, ?_, ?_, ssInt8Cmp_sign x y⟩
    · split
      · next hy => exact (divide_of_zero x y hy).1
      · next hy =>
        obtain ⟨q, r, hq, -, hval, -⟩ := divide_spec x y hy
        rw [hq, exactInt8_some_iff hval, fitsInt8_tdiv_iff x y hy]
        exact hdiv
    · split
      · next hy => exact (divide_of_zero x y hy).2
      · next hy =>
        obtain ⟨q, r, -, hr, -, hval⟩ := divide_spec x y hy
        rw [hr, exactInt8_some_iff hval]
        exact fitsInt8_tmod x y hy
    · intro q' hq' r' hr'
      by_cases hy : y.toInt = 0
      · rw [(divide_of_zero x y hy).1] at hq'
        cases hq'
      · obtain ⟨q, r, hq, hr, hvq, hvr⟩ := divide_spec x y hy
        obtain rfl : q = q' := Option.some.inj (hq.symm.trans hq')
        obtain rfl : r = r' := Option.some.inj (hr.symm.trans hr')
        have hfq := (fitsInt8_tdiv_iff x y hy).mpr hdiv
        have hfr := fitsInt8_tmod x y hy
        rw [(toInt_eq_iff q).mpr ⟨hfq.1, hfq.2, hvq⟩, (toInt_eq_iff r).mpr ⟨hfr.1, hfr.2, hvr⟩,
          Int.tdiv_mul_add_tmod]

/-! ## Overflows that are lost -/

/-- The word of a number with the weight `65536 ^ i`. -/
def wordAt (n i : ℕ) : ℕ := n / 65536 ^ i % 65536

/-- The product of the absolute values takes more than 64 bits, and no product of two words
that ends in the highest word of the result takes more than 16. -/
def LosesOverflow (m n : ℤ) : Prop :=
  2 ^ 64 ≤ m.natAbs * n.natAbs ∧
    ∀ i < 4, wordAt m.natAbs (3 - i) * wordAt n.natAbs i < 65536

instance (m n : ℤ) : Decidable (LosesOverflow m n) := inferInstanceAs (Decidable (_ ∧ _))

theorem getElem_toWords : ∀ (k n i : ℕ) (h : i < (toWords k n).length),
    ((toWords k n)[i]).toNat = wordAt n i
  | 0, _, _, h => absurd h (Nat.not_lt_zero _)
  | k + 1, n, 0, _ => by
      rw [wordAt, pow_zero, Nat.div_one]
      exact toNat_ofNat_word n
  | k + 1, n, i + 1, h => by
      have hword := getElem_toWords k (n / 65536) i (by simpa [toWords] using h)
      rw [wordAt, Nat.div_div_eq_div_mul, ← pow_succ'] at hword
      exact hword

theorem getElem_mulTops (ws : List UInt16) : ∀ (shift : ℕ) (vs : List UInt16) (i : ℕ)
    (h : i < vs.length), rowTop vs[i] (rowWords ws (shift + i)) ∈ mulTops ws shift vs
  | _, [], _, h => absurd h (Nat.not_lt_zero _)
  | _, _ :: _, 0, _ => List.mem_cons_self
  | shift, _ :: vs, i + 1, h => by
      have hmem := getElem_mulTops ws (shift + 1) vs i (Nat.lt_of_succ_lt_succ h)
      rw [Nat.add_right_comm, Nat.add_assoc] at hmem
      exact List.mem_cons_of_mem _ hmem

theorem rowTop_rowWords {ws : List UInt16} (hws : ws.length = 4) (v : UInt16) {i : ℕ} (hi : i < 4) :
    rowTop v (rowWords ws i) = ws[3 - i].toNat * v.toNat / 65536 := by
  have hlen : (ws.take (4 - i)).length = 4 - i := List.length_take_of_le (by omega)
  have hne : ws.take (4 - i) ≠ [] := List.ne_nil_of_length_pos (by omega)
  rw [rowTop, rowWords, List.getLastD_eq_getLast?, List.getLast?_eq_some_getLast hne,
    Option.getD_some, List.getLast_eq_getElem, List.getElem_take]
  congr 4
  omega

theorem mem_mulTops (a b : ℕ) {i : ℕ} (hi : i < 4) :
    wordAt a (3 - i) * wordAt b i / 65536 ∈ mulTops (ofNat a).u2 0 (ofNat b).u2 := by
  have hmem := getElem_mulTops (ofNat a).u2 0 (ofNat b).u2 i (by rw [(ofNat b).length_u2]; exact hi)
  rw [zero_add, rowTop_rowWords (ofNat a).length_u2 _ hi] at hmem
  have ha := getElem_toWords 4 a (3 - i) (by rw [toWords_length]; omega)
  have hb := getElem_toWords 4 b i (by rw [toWords_length]; exact hi)
  rw [← ha, ← hb]
  exact hmem

/-- A product that does not fit is noticed unless its overflow is lost. -/
theorem productNoticed_of_not_loses (h : ¬ LosesOverflow x.toInt y.toInt)
    (hmis : 2 ^ 63 ≤ x.toInt.natAbs * y.toInt.natAbs) : ProductNoticed x y := by
  rcases Nat.lt_or_ge (x.toInt.natAbs * y.toInt.natAbs) (2 ^ 64) with hlt | hge
  · by_contra hnot
    have hmod := mod_lt_of_not_productNoticed x y hnot
    rw [Nat.mod_eq_of_lt hlt] at hmod
    omega
  · have hword : ∃ i < 4, 65536 ≤ wordAt x.toInt.natAbs (3 - i) * wordAt y.toInt.natAbs i := by
      by_contra hnone
      push Not at hnone
      exact h ⟨hge, hnone⟩
    obtain ⟨i, hi, hword⟩ := hword
    exact .inl ⟨_, mem_mulTops _ _ hi, (Nat.div_pos hword (by decide)).ne'⟩

theorem multiplyMeets_iff_of_not_loses (h : ¬ LosesOverflow x.toInt y.toInt) :
    MultiplyMeets x y ↔ (FitsInt8 (x.toInt * y.toInt) →
      x.toInt ≠ -2 ^ 63 ∧ y.toInt ≠ -2 ^ 63 ∧ x.toInt * y.toInt ≠ -2 ^ 63) := by
  refine ⟨MultiplyMeets.fits, fun hfits => ⟨hfits, fun hmis => .inr (.inr ?_)⟩⟩
  refine productNoticed_of_not_loses x y h ?_
  have habs := natAbs_mul_eq x y
  rw [FitsInt8] at hmis
  generalize x.toInt.natAbs * y.toInt.natAbs = p at habs
  split at habs <;> omega

/-- Where no overflow of a product is lost, the operations are exact except for the lowest
value as second operand of a difference, as operand or result of a product that fits, and
divided by `-1`. -/
theorem exactOperations_iff_of_not_loses (h : ¬ LosesOverflow x.toInt y.toInt) :
    ExactOperations x y ↔
      ¬ (y.toInt = -2 ^ 63 ∧ x.toInt < 0) ∧
        (FitsInt8 (x.toInt * y.toInt) →
          x.toInt ≠ -2 ^ 63 ∧ y.toInt ≠ -2 ^ 63 ∧ x.toInt * y.toInt ≠ -2 ^ 63) ∧
        ¬ (x.toInt = -2 ^ 63 ∧ y.toInt = -1) := by
  rw [exactOperations_iff_noticed, multiplyMeets_iff_of_not_loses x y h]

/-- `2 ^ 40` times `2 ^ 30` does not fit, and the word product at the top tells. -/
theorem exactOperations_noticed_overflow : ExactOperations (ofInt (2 ^ 40)) (ofInt (2 ^ 30)) := by
  have hx : (ofInt (2 ^ 40)).toInt = 2 ^ 40 := toInt_ofInt (by decide)
  have hy : (ofInt (2 ^ 30)).toInt = 2 ^ 30 := toInt_ofInt (by decide)
  have hloses : ¬ LosesOverflow (ofInt (2 ^ 40)).toInt (ofInt (2 ^ 30)).toInt := by
    rw [hx, hy]
    decide +kernel
  refine (exactOperations_iff_of_not_loses _ _ hloses).mpr ?_
  rw [hx, hy]
  decide

/-- `2 ^ 48` times `2 ^ 16` is reported to be zero. -/
theorem exactOperations_fails : ¬ ExactOperations (ofInt (2 ^ 48)) (ofInt (2 ^ 16)) := by
  intro h
  have hsome : (succeeded (ssInt8MultiplyByInt8 (ofInt (2 ^ 48)) (ofInt (2 ^ 16)))).isSome = true :=
    by decide +kernel
  have hfits := h.multiply.1.mp hsome
  rw [toInt_ofInt (by decide), toInt_ofInt (by decide)] at hfits
  exact absurd hfits (by decide)

end SolidDB
