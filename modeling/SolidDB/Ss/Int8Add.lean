import SolidDB.Ss.Int8

/-!
# Sums and differences of eight-byte integers

Every operation is one on the unsigned numbers modulo `2 ^ 64`; the sign is the highest bit.
-/

namespace SolidDB

namespace SsInt8

variable (x y : SsInt8)

theorem toNat_lt : x.toNat < 2 ^ 64 := by
  have h := ofWords_lt x.u2
  rwa [x.length_u2] at h

theorem toNat_injective {x y : SsInt8} (h : x.toNat = y.toNat) : x = y := by
  obtain ⟨ws, hws⟩ := x
  obtain ⟨vs, hvs⟩ := y
  rw [mk.injEq]
  exact ofWords_injective (hws.trans hvs.symm) h

/-! ## The halves -/

theorem exists_words : ∃ w₀ w₁ w₂ w₃, x.u2 = [w₀, w₁, w₂, w₃] := by
  obtain ⟨ws, hws⟩ := x
  match ws, hws with
  | [w₀, w₁, w₂, w₃], _ => exact ⟨w₀, w₁, w₂, w₃, rfl⟩

theorem toNat_eq_halves : x.toNat = x.lsU4 + 2 ^ 32 * x.msU4 := by
  obtain ⟨w₀, w₁, w₂, w₃, h⟩ := x.exists_words
  simp only [toNat, lsU4, msU4, h, ofWords_cons, ofWords_nil, List.getD_cons_zero,
    List.getD_cons_succ]
  omega

theorem lsU4_lt : x.lsU4 < 2 ^ 32 := by
  have h₀ := (x.u2.getD 0 0).toNat_lt
  have h₁ := (x.u2.getD 1 0).toNat_lt
  rw [lsU4]
  omega

theorem msU4_lt : x.msU4 < 2 ^ 32 := by
  have h₂ := (x.u2.getD 2 0).toNat_lt
  have h₃ := (x.u2.getD 3 0).toNat_lt
  rw [msU4]
  omega

theorem toNat_set2U4 {hi lo : ℕ} (hhi : hi < 2 ^ 32) (hlo : lo < 2 ^ 32) :
    (set2U4 hi lo).toNat = lo + 2 ^ 32 * hi := by
  rw [toNat, set2U4, ofWords_append, ofWords_toWords, ofWords_toWords, toWords_length]
  omega

@[simp] theorem toNat_ofNat (n : ℕ) : (ofNat n).toNat = n % 2 ^ 64 := ofWords_toWords 4 n

/-! ## The sign -/

theorem isneg_iff : x.isneg = true ↔ 2 ^ 63 ≤ x.toNat := by
  have hls := x.lsU4_lt
  have hms := x.msU4_lt
  rw [isneg, decide_eq_true_iff, Nat.shiftRight_eq_div_pow, x.toNat_eq_halves]
  omega

theorem isneg_eq_false_iff : x.isneg = false ↔ x.toNat < 2 ^ 63 := by
  rw [← Bool.not_eq_true, isneg_iff, not_le]

theorem isneg_iff_toInt : x.isneg = true ↔ x.toInt < 0 := by
  have hlt := x.toNat_lt
  rw [isneg_iff, toInt]
  split <;> omega

theorem is0_iff : x.is0 = true ↔ x.toNat = 0 := by
  rw [is0, decide_eq_true_iff, Nat.or_eq_zero_iff, x.toNat_eq_halves]
  omega

theorem toInt_bounds : -2 ^ 63 ≤ x.toInt ∧ x.toInt < 2 ^ 63 := by
  have hlt := x.toNat_lt
  rw [toInt]
  split <;> omega

theorem toInt_emod : x.toInt % 2 ^ 64 = x.toNat := by
  have hlt := x.toNat_lt
  rw [toInt]
  split <;> omega

theorem toInt_injective {x y : SsInt8} (h : x.toInt = y.toInt) : x = y := by
  have hx := x.toInt_emod
  have hy := y.toInt_emod
  rw [h, hy] at hx
  exact toNat_injective (by omega)

/-- A value is known from its rest modulo `2 ^ 64`. -/
theorem toInt_eq_iff {n : ℤ} :
    x.toInt = n ↔ -2 ^ 63 ≤ n ∧ n < 2 ^ 63 ∧ (x.toNat : ℤ) = n % 2 ^ 64 := by
  have hlt := x.toNat_lt
  rw [toInt]
  split <;> omega

theorem toInt_ofInt {n : ℤ} (h : -2 ^ 63 ≤ n ∧ n < 2 ^ 63) : (ofInt n).toInt = n := by
  rw [toInt_eq_iff]
  refine ⟨h.1, h.2, ?_⟩
  rw [ofInt, toNat_ofNat]
  omega

/-! ## The unsigned operations -/

theorem unsignedcmp_eq : x.unsignedcmp y = compare x.toNat y.toNat := by
  have hx := x.lsU4_lt
  have hy := y.lsU4_lt
  have hxy := x.toNat_eq_halves
  have hyx := y.toNat_eq_halves
  rw [unsignedcmp]
  rcases lt_trichotomy x.msU4 y.msU4 with h | h | h
  · have hlt : x.toNat < y.toNat := by omega
    rw [compare_lt_iff_lt.mpr h, compare_lt_iff_lt.mpr hlt]
    rfl
  · rw [compare_eq_iff_eq.mpr h]
    change compare x.lsU4 y.lsU4 = _
    rcases lt_trichotomy x.lsU4 y.lsU4 with h' | h' | h'
    · have hlt : x.toNat < y.toNat := by omega
      rw [compare_lt_iff_lt.mpr h', compare_lt_iff_lt.mpr hlt]
    · have heq : x.toNat = y.toNat := by omega
      rw [compare_eq_iff_eq.mpr h', compare_eq_iff_eq.mpr heq]
    · have hgt : x.toNat > y.toNat := by omega
      rw [compare_gt_iff_gt.mpr h', compare_gt_iff_gt.mpr hgt]
  · have hgt : x.toNat > y.toNat := by omega
    rw [compare_gt_iff_gt.mpr h, compare_gt_iff_gt.mpr hgt]
    rfl

theorem toNat_unsignedshiftright1 : x.unsignedshiftright1.toNat = x.toNat / 2 := by
  have hls := x.lsU4_lt
  have hms := x.msU4_lt
  have hlow : x.lsU4 >>> 1 ||| (x.msU4 <<< 31) % 2 ^ 32 = x.lsU4 / 2 + 2 ^ 31 * (x.msU4 % 2) := by
    have hcarry : (x.msU4 <<< 31) % 2 ^ 32 = 2 ^ 31 * (x.msU4 % 2) := by
      rw [Nat.shiftLeft_eq]
      omega
    rw [hcarry, Nat.shiftRight_eq_div_pow, Nat.or_comm,
      ← Nat.two_pow_add_eq_or_of_lt (by omega), Nat.add_comm]
  rw [unsignedshiftright1, hlow, Nat.shiftRight_eq_div_pow, toNat_set2U4 (by omega) (by omega),
    x.toNat_eq_halves]
  omega

theorem toNat_unsignedshiftleft1 : x.unsignedshiftleft1.toNat = x.toNat * 2 % 2 ^ 64 := by
  have hls := x.lsU4_lt
  have hms := x.msU4_lt
  have hbit : (x.lsU4 >>> 31) &&& 1 = x.lsU4 / 2 ^ 31 := by
    rw [Nat.and_one_is_mod, Nat.shiftRight_eq_div_pow]
    omega
  have hhigh : (x.msU4 <<< 1) % 2 ^ 32 ||| ((x.lsU4 >>> 31) &&& 1) =
      2 * (x.msU4 % 2 ^ 31) + x.lsU4 / 2 ^ 31 := by
    have hcarry : (x.msU4 <<< 1) % 2 ^ 32 = 2 ^ 1 * (x.msU4 % 2 ^ 31) := by
      rw [Nat.shiftLeft_eq]
      omega
    rw [hbit, hcarry, ← Nat.two_pow_add_eq_or_of_lt (by omega)]
  rw [unsignedshiftleft1, hhigh, Nat.shiftLeft_eq, toNat_set2U4 (by omega) (by omega),
    x.toNat_eq_halves]
  omega

end SsInt8

open SsInt8

variable (x y : SsInt8)

/-! ## Adding words -/

theorem toNat_addUint2WithShift (u2 : UInt16) {shift : ℕ} (hshift : shift ≤ 4) :
    (ssInt8AddUint2WithShift x u2 shift).2.toNat =
      (x.toNat + u2.toNat * 65536 ^ shift) % 2 ^ 64 := by
  have h := ofWords_take_addCarry x.u2 u2 (x.length_u2.symm ▸ hshift)
  rw [x.length_u2] at h
  exact h

theorem addUint2WithShift_fst (u2 : UInt16) (shift : ℕ) :
    (ssInt8AddUint2WithShift x u2 shift).1 = false ↔
      x.toNat < 2 ^ 63 ∧ 2 ^ 63 ≤ (ssInt8AddUint2WithShift x u2 shift).2.toNat := by
  rw [← isneg_eq_false_iff, ← isneg_iff]
  change (!(!x.isneg && (ssInt8AddUint2WithShift x u2 shift).2.isneg)) = false ↔ _
  simp only [Bool.not_eq_false', Bool.and_eq_true, Bool.not_eq_true']

theorem toNat_addInt8Loop (shift : ℕ) (u2s : List UInt16) (h : shift + u2s.length ≤ 4) :
    (addInt8Loop x shift u2s).toNat = (x.toNat + ofWords u2s * 65536 ^ shift) % 2 ^ 64 := by
  induction u2s generalizing x shift with
  | nil => rw [addInt8Loop, ofWords_nil, zero_mul, add_zero, Nat.mod_eq_of_lt x.toNat_lt]
  | cons u2 u2s ih =>
      rw [List.length_cons] at h
      rw [addInt8Loop, ih _ _ (by omega), toNat_addUint2WithShift x u2 (by omega), ofWords_cons,
        Nat.mod_add_mod, pow_succ]
      congr 1
      ring

/-! ## Negation -/

theorem toNat_negate : (ssInt8Negate x).2.toNat = (2 ^ 64 - x.toNat) % 2 ^ 64 := by
  have hlt := x.toNat_lt
  have hnot := ofWords_complement x.u2
  rw [x.length_u2] at hnot
  rw [ssInt8Negate, ssInt8AddUint2, toNat_addUint2WithShift _ _ (Nat.zero_le _)]
  simp only [SsInt8.toNat] at hlt ⊢
  have hone : (1 : UInt16).toNat = 1 := rfl
  rw [hone]
  omega

theorem negate_fst : (ssInt8Negate x).1 = true ↔ x.toNat ≠ 2 ^ 63 := by
  have hlt := x.toNat_lt
  have hneg := toNat_negate x
  have hand : (ssInt8Negate x).1 = true ↔
      ¬ (x.isneg = true ∧ (ssInt8Negate x).2.isneg = true) := by
    rw [← Bool.and_eq_true, Bool.not_eq_true]
    change (!(x.isneg && (ssInt8Negate x).2.isneg)) = true ↔ _
    rw [Bool.not_eq_true']
  rw [hand, isneg_iff, isneg_iff, hneg]
  omega

theorem negateIf_toNat (neg : Bool) :
    (negateIf neg x).2.toNat = if neg then (2 ^ 64 - x.toNat) % 2 ^ 64 else x.toNat := by
  cases neg with
  | false => rfl
  | true => exact toNat_negate x

theorem negateIf_isneg_toNat : (negateIf x.isneg x).2.toNat = x.toInt.natAbs := by
  have hlt := x.toNat_lt
  rw [negateIf_toNat, toInt]
  by_cases h : x.isneg = true
  · have hge := x.isneg_iff.mp h
    rw [if_pos h, if_neg (by omega)]
    omega
  · have hl := x.isneg_eq_false_iff.mp (Bool.eq_false_of_not_eq_true h)
    rw [if_neg h, if_pos hl]
    omega

theorem negateIf_fst (neg : Bool) :
    (negateIf neg x).1 = true ↔ (neg = true → x.toNat ≠ 2 ^ 63) := by
  cases neg with
  | false => simp [negateIf]
  | true => simpa [negateIf] using negate_fst x

/-! ## Sums and differences -/

theorem toNat_addInt8 : (ssInt8AddInt8 x y).2.toNat = (x.toNat + y.toNat) % 2 ^ 64 := by
  have h := toNat_addInt8Loop x 0 y.u2 (by rw [y.length_u2])
  rwa [pow_zero, mul_one] at h

theorem toNat_subtractInt8 :
    (ssInt8SubtractInt8 x y).2.toNat = (x.toNat + (2 ^ 64 - y.toNat)) % 2 ^ 64 := by
  change (ssInt8AddInt8 x (ssInt8Negate y).2).2.toNat = _
  rw [toNat_addInt8, toNat_negate, Nat.add_mod_mod]

theorem addInt8_fst : (ssInt8AddInt8 x y).1 = true ↔
    (2 ^ 63 ≤ x.toNat ↔ 2 ^ 63 ≤ y.toNat) →
      (2 ^ 63 ≤ x.toNat ↔ 2 ^ 63 ≤ (ssInt8AddInt8 x y).2.toNat) := by
  rw [← isneg_iff, ← isneg_iff, ← isneg_iff]
  change (!(x.isneg == y.isneg && x.isneg != (ssInt8AddInt8 x y).2.isneg)) = true ↔ _
  cases x.isneg <;> cases y.isneg <;> cases (ssInt8AddInt8 x y).2.isneg <;> decide

end SolidDB
