import SolidDB.Ss.Int8Add

/-!
# Division of eight-byte integers

The divisor is shifted to the left until it is not below the dividend or has its highest bit
set, and then back: at each position it is subtracted once at most.
-/

namespace SolidDB

open SsInt8

/-! ## The unsigned division -/

structure DivideInvariant (n d : ℕ) (s : DivideState) : Prop where
  divisor : s.divisor.toNat = d * 2 ^ s.bitshift
  resbit : s.resbit.toNat = 2 ^ s.bitshift
  sum : s.result.toNat * d + s.dividend.toNat = n

variable {n d : ℕ} {s : DivideState}

theorem unsignedcmp_lt_iff (x y : SsInt8) : x.unsignedcmp y = .lt ↔ x.toNat < y.toNat := by
  rw [unsignedcmp_eq, compare_lt_iff_lt]

/-- The first loop ends with a divisor whose double is above the dividend. -/
theorem divideShiftLoop_spec (hd : 0 < d) : ∀ (fuel : ℕ) (s : DivideState),
    DivideInvariant n d s → s.bitshift + fuel = 65 →
      ∃ s', divideShiftLoop fuel s = some s' ∧ DivideInvariant n d s' ∧ s'.bitshift < 64 ∧
        s'.dividend.toNat < 2 * s'.divisor.toNat
  | 0, s, hs, hfuel => by
    have hlt := s.resbit.toNat_lt
    rw [hs.resbit, show s.bitshift = 65 by omega] at hlt
    exact absurd hlt (by decide)
  | fuel + 1, s, hs, hfuel => by
    have hlt := s.dividend.toNat_lt
    have hres := s.resbit.toNat_lt
    rw [hs.resbit] at hres
    have hshift : s.bitshift < 64 := (Nat.pow_lt_pow_iff_right (by decide)).mp hres
    rw [divideShiftLoop]
    by_cases hc : s.divisor.toNat < 2 ^ 63 ∧ s.divisor.toNat < s.dividend.toNat
    · have hcond : (!s.divisor.isneg && s.dividend.unsignedcmp s.divisor == .gt) = true := by
        rw [Bool.and_eq_true, Bool.not_eq_true', isneg_eq_false_iff, beq_iff_eq, unsignedcmp_eq,
          compare_gt_iff_gt]
        exact hc
      rw [if_pos hcond]
      refine divideShiftLoop_spec hd fuel _ ⟨?_, ?_, hs.sum⟩ (by simp only []; omega)
      · have hdbl := hs.divisor
        simp only [toNat_unsignedshiftleft1, pow_succ]
        rw [Nat.mod_eq_of_lt (by omega), hdbl, mul_assoc]
      · have hle : 2 ^ s.bitshift ≤ d * 2 ^ s.bitshift := Nat.le_mul_of_pos_left _ hd
        have hdbl := hs.resbit
        have hdiv := hs.divisor
        simp only [toNat_unsignedshiftleft1, pow_succ]
        rw [Nat.mod_eq_of_lt (by omega), hdbl]
    · have hcond : (!s.divisor.isneg && s.dividend.unsignedcmp s.divisor == .gt) = false := by
        rw [← Bool.not_eq_true, Bool.and_eq_true, Bool.not_eq_true', isneg_eq_false_iff,
          beq_iff_eq, unsignedcmp_eq, compare_gt_iff_gt]
        exact hc
      rw [if_neg (by rw [hcond]; exact Bool.false_ne_true)]
      refine ⟨s, rfl, hs, hshift, ?_⟩
      have hpos : 0 < d * 2 ^ s.bitshift := Nat.mul_pos hd (Nat.two_pow_pos _)
      have hdiv := hs.divisor
      omega

/-- A step to the right or a subtraction keeps the invariant. -/
theorem divideLoop_spec (hd : 0 < d) : ∀ (fuel : ℕ) (s : DivideState),
    DivideInvariant n d s → n < 2 ^ 64 → s.dividend.toNat < 2 * s.divisor.toNat →
      2 * s.bitshift + (if s.dividend.toNat < s.divisor.toNat then 0 else 1) < fuel →
      ∃ s', divideLoop fuel s = some s' ∧ s'.result.toNat = n / d ∧ s'.dividend.toNat = n % d
  | 0, _, _, _, _, hfuel => absurd hfuel (Nat.not_lt_zero _)
  | fuel + 1, s, hs, hn, hlt, hfuel => by
    have hdiv := hs.divisor
    have hsum := hs.sum
    rw [divideLoop]
    by_cases hcmp : s.dividend.toNat < s.divisor.toNat
    · rw [if_pos ((unsignedcmp_lt_iff _ _).mpr hcmp)]
      rw [if_pos hcmp] at hfuel
      by_cases h0 : s.bitshift = 0
      · rw [if_pos h0]
        rw [h0, pow_zero, mul_one] at hdiv
        rw [hdiv] at hcmp
        have hdm : n / d = s.result.toNat ∧ n % d = s.dividend.toNat := by
          rw [Nat.div_mod_unique hd, add_comm, mul_comm]
          exact ⟨hsum, hcmp⟩
        exact ⟨s, rfl, hdm.1.symm, hdm.2.symm⟩
      · rw [if_neg h0]
        obtain ⟨k, hk⟩ := Nat.exists_eq_succ_of_ne_zero h0
        have hhalf : s.divisor.toNat = 2 * (d * 2 ^ k) := by
          rw [hdiv, hk, Nat.succ_eq_add_one, pow_succ]
          ring
        refine divideLoop_spec hd fuel _ ⟨?_, ?_, hsum⟩ hn ?_ ?_
        · simp only [toNat_unsignedshiftright1, hk, Nat.succ_sub_one]
          omega
        · simp only [toNat_unsignedshiftright1, hk, Nat.succ_sub_one, hs.resbit]
          rw [Nat.succ_eq_add_one, pow_succ]
          omega
        · simp only [toNat_unsignedshiftright1]
          omega
        · simp only []
          split <;> omega
    · rw [if_neg fun h => hcmp ((unsignedcmp_lt_iff _ _).mp h)]
      rw [if_neg hcmp] at hfuel
      have hle := Nat.le_of_not_lt hcmp
      have hdlt := s.dividend.toNat_lt
      have hpos : 0 < d * 2 ^ s.bitshift := Nat.mul_pos hd (Nat.two_pow_pos _)
      have hdividend : (ssInt8SubtractInt8 s.dividend s.divisor).2.toNat =
          s.dividend.toNat - s.divisor.toNat := by
        rw [toNat_subtractInt8]
        omega
      have hresult : (ssInt8AddInt8 s.result s.resbit).2.toNat =
          s.result.toNat + s.resbit.toNat := by
        have hbound : (s.result.toNat + 2 ^ s.bitshift) * 1 ≤
            (s.result.toNat + 2 ^ s.bitshift) * d := Nat.mul_le_mul_left _ hd
        have hexp : (s.result.toNat + 2 ^ s.bitshift) * d =
            s.result.toNat * d + d * 2 ^ s.bitshift := by ring
        rw [toNat_addInt8, hs.resbit]
        omega
      refine divideLoop_spec hd fuel _ ⟨hdiv, hs.resbit, ?_⟩ hn ?_ ?_
      · simp only [hresult, hdividend, hs.resbit]
        have hexp : (s.result.toNat + 2 ^ s.bitshift) * d =
            s.result.toNat * d + d * 2 ^ s.bitshift := by ring
        omega
      · simp only [hdividend]
        omega
      · simp only [hdividend]
        rw [if_pos (by omega)]
        omega

theorem ssInt8UnsignedDivide_spec {x y : SsInt8} (hy : y.toNat ≠ 0) :
    ∃ q r, ssInt8UnsignedDivide x y = some (q, r) ∧ q.toNat = x.toNat / y.toNat ∧
      r.toNat = x.toNat % y.toNat := by
  have h0 : y.is0 = false := by
    rw [← Bool.not_eq_true, is0_iff]
    exact hy
  have hpos := Nat.pos_of_ne_zero hy
  have hstart : DivideInvariant x.toNat y.toNat ⟨x, y, .set2U4 0 1, .set2U4 0 0, 0⟩ :=
    ⟨by rw [pow_zero, mul_one], by rw [toNat_set2U4 (by decide) (by decide)]; rfl, by
      simp only [toNat_set2U4 (show 0 < 2 ^ 32 by decide) (show 0 < 2 ^ 32 by decide)]
      omega⟩
  obtain ⟨s, hs, hinv, hshift, hlt⟩ := divideShiftLoop_spec hpos 65 _ hstart rfl
  obtain ⟨s', hs', hq, hr⟩ := divideLoop_spec hpos 130 s hinv x.toNat_lt hlt
    (by split <;> omega)
  refine ⟨s'.result, s'.dividend, ?_, hq, hr⟩
  rw [ssInt8UnsignedDivide, h0, if_neg Bool.false_ne_true, hs, Option.bind_some, hs',
    Option.map_some]

/-! ## Comparison -/

theorem cmpLoop_of_ne_zero {cmp : ℤ} (h : cmp ≠ 0) (us vs : List UInt16) :
    cmpLoop cmp us vs = cmp := by
  match us, vs with
  | [], _ => rw [cmpLoop.eq_def]
  | _ :: _, [] => rw [cmpLoop.eq_def]
  | _ :: _, _ :: _ => rw [cmpLoop, if_neg h]

/-- The first words that differ, from the most significant one, decide. -/
theorem cmpLoop_sign : ∀ {us vs : List UInt16}, us.length = vs.length →
    (cmpLoop 0 us vs).sign = ((ofWords us.reverse : ℤ) - ofWords vs.reverse).sign
  | [], [], _ => by simp [cmpLoop]
  | u :: us, v :: vs, h => by
    have hlen : us.length = vs.length := Nat.succ.inj h
    have hu := ofWords_lt us.reverse
    have hv := ofWords_lt vs.reverse
    rw [List.length_reverse] at hu hv
    rw [hlen] at hu
    rw [cmpLoop, if_pos rfl, List.reverse_cons, List.reverse_cons, ofWords_append, ofWords_append,
      List.length_reverse, List.length_reverse, hlen, ofWords_cons, ofWords_cons, ofWords_nil]
    push_cast
    by_cases huv : u.toNat = v.toNat
    · rw [huv, sub_self, cmpLoop_sign hlen]
      congr 1
      ring
    · have hne : (u.toNat : ℤ) - v.toNat ≠ 0 := fun h => huv (by omega)
      rw [cmpLoop_of_ne_zero hne]
      rcases Nat.lt_or_gt_of_ne huv with hlt | hgt
      · have hmul := Nat.mul_le_mul_left (65536 ^ vs.length) (Nat.succ_le_of_lt hlt)
        rw [Nat.mul_succ] at hmul
        zify at hmul hu hv
        rw [Int.sign_eq_neg_one_of_neg (by omega), Int.sign_eq_neg_one_of_neg (by linarith)]
      · have hmul := Nat.mul_le_mul_left (65536 ^ vs.length) (Nat.succ_le_of_lt hgt)
        rw [Nat.mul_succ] at hmul
        zify at hmul hu hv
        rw [Int.sign_eq_one_of_pos (by omega), Int.sign_eq_one_of_pos (by linarith)]

theorem ssInt8Cmp_sign (x y : SsInt8) : (ssInt8Cmp x y).sign = (x.toInt - y.toInt).sign := by
  have hxlt := x.toNat_lt
  have hylt := y.toNat_lt
  have hloop : (cmpLoop 0 x.u2.reverse y.u2.reverse).sign =
      ((x.toNat : ℤ) - y.toNat).sign := by
    rw [cmpLoop_sign (by rw [List.length_reverse, List.length_reverse, x.length_u2, y.length_u2]),
      List.reverse_reverse, List.reverse_reverse]
    rfl
  have hpos {z : SsInt8} (h : ¬ z.isneg = true) : z.toNat < 2 ^ 63 :=
    z.isneg_eq_false_iff.mp (Bool.eq_false_of_not_eq_true h)
  have hnonpos {z : SsInt8} (h : z.isneg = true) : ¬ z.toNat < 2 ^ 63 :=
    not_lt.mpr (z.isneg_iff.mp h)
  rw [ssInt8Cmp, toInt, toInt]
  by_cases hnx : x.isneg = true
  · have hx := hnonpos hnx
    by_cases hny : y.isneg = true
    · rw [if_pos hnx, if_pos hny, sub_self, hloop, if_neg hx, if_neg (hnonpos hny)]
      congr 1
      ring
    · have hy := hpos hny
      rw [if_pos hnx, if_neg hny, if_neg hx, if_pos hy, cmpLoop_of_ne_zero (by decide)]
      rw [Int.sign_eq_neg_one_of_neg (by omega), Int.sign_eq_neg_one_of_neg (by omega)]
  · have hx := hpos hnx
    by_cases hny : y.isneg = true
    · have hy := hnonpos hny
      rw [if_neg hnx, if_pos hny, if_pos hx, if_neg hy, cmpLoop_of_ne_zero (by decide)]
      rw [Int.sign_eq_one_of_pos (by omega), Int.sign_eq_one_of_pos (by omega)]
    · rw [if_neg hnx, if_neg hny, sub_self, hloop, if_pos hx, if_pos (hpos hny)]

end SolidDB
