import SolidDB.Uti.Vai

/-!
# The order of integers in v-attributes

All routines write one code, whose length depends only on the value. A negative value of more than
four bytes always takes eight, since the constants that its length is found with are positive.
-/

namespace SolidDB.Vai

open LeadInt SsInt8

def vaIntLen (x : ℤ) : ℕ :=
  if x < 0 then
    if x + vaNegBias ≥ -0x100 then 1
    else if x + vaNegBias ≥ -0x10000 then 2
    else if x + vaNegBias ≥ -0x1000000 then 3
    else if x ≥ -2 ^ 31 then 4
    else 8
  else
    if x + vaPosBias < 0x100 then 1
    else if x + vaPosBias < 0x10000 then 2
    else if x + vaPosBias < 0x1000000 then 3
    else if x < 2 ^ 31 then 4
    else if x + vaPosBias < 0x10000000000 then 5
    else if x + vaPosBias < 0x1000000000000 then 6
    else if x + vaPosBias < 0x100000000000000 then 7
    else 8

def vaIntCode (x : ℤ) : List UInt8 := leadInt 128 8 vaIntLen x

theorem vaNegBias_eq : vaNegBias = 120 := by decide

theorem vaPosBias_eq : vaPosBias = -120 := by decide

variable {x y : ℤ}

/-! ## Lengths -/

theorem vaIntLen_neg (hneg : x < 0) :
    (vaIntLen x = 1 ∧ -376 ≤ x) ∨ (vaIntLen x = 2 ∧ -65656 ≤ x ∧ x < -376) ∨
      (vaIntLen x = 3 ∧ -16777336 ≤ x ∧ x < -65656) ∨
      (vaIntLen x = 4 ∧ -2 ^ 31 ≤ x ∧ x < -16777336) ∨ (vaIntLen x = 8 ∧ x < -2 ^ 31) := by
  rw [vaIntLen, if_pos hneg]
  simp only [vaNegBias_eq]
  split_ifs <;> omega

theorem vaIntLen_nonneg (hpos : 0 ≤ x) :
    (vaIntLen x = 1 ∧ x < 376) ∨ (vaIntLen x = 2 ∧ 376 ≤ x ∧ x < 65656) ∨
      (vaIntLen x = 3 ∧ 65656 ≤ x ∧ x < 16777336) ∨
      (vaIntLen x = 4 ∧ 16777336 ≤ x ∧ x < 2 ^ 31) ∨
      (vaIntLen x = 5 ∧ 2 ^ 31 ≤ x ∧ x < 2 ^ 40 + 120) ∨
      (vaIntLen x = 6 ∧ 2 ^ 40 + 120 ≤ x ∧ x < 2 ^ 48 + 120) ∨
      (vaIntLen x = 7 ∧ 2 ^ 48 + 120 ≤ x ∧ x < 2 ^ 56 + 120) ∨
      (vaIntLen x = 8 ∧ 2 ^ 56 + 120 ≤ x) := by
  rw [vaIntLen, if_neg (not_lt.mpr hpos)]
  simp only [vaPosBias_eq]
  split_ifs <;> omega

theorem fits_vaIntLen (hx : FitsInt8 x) : Fits 128 8 vaIntLen x := by
  obtain ⟨hge, hlt⟩ := hx
  by_cases hneg : x < 0
  · rcases vaIntLen_neg hneg with h | h | h | h | h <;>
      refine ⟨by omega, by omega, fun _ => ?_, fun _ => by omega⟩ <;>
      rw [h.1] <;> omega
  · rcases vaIntLen_nonneg (not_lt.mp hneg) with h | h | h | h | h | h | h | h <;>
      refine ⟨by omega, by omega, fun _ => by omega, fun _ => ?_⟩ <;>
      rw [h.1] <;> omega

theorem vaIntLen_anti (hlt : x < y) (hneg : y < 0) : vaIntLen y ≤ vaIntLen x := by
  have hx := vaIntLen_neg (hlt.trans hneg)
  have hy := vaIntLen_neg hneg
  omega

theorem vaIntLen_mono (hlt : x < y) (hpos : 0 ≤ x) : vaIntLen x ≤ vaIntLen y := by
  have hx := vaIntLen_nonneg hpos
  have hy := vaIntLen_nonneg (hpos.trans hlt.le)
  rcases hx with h | h | h | h | h | h | h | h <;> omega

theorem vaIntCode_lt (hx : FitsInt8 x) (hy : FitsInt8 y) (hlt : x < y) :
    vaIntCode x < vaIntCode y :=
  leadInt_lt (by decide) (fits_vaIntLen hx) (fits_vaIntLen hy)
    (fun hlow => vaIntLen_anti hlt (by omega)) (fun hhigh => vaIntLen_mono hlt (by omega)) hlt

/-! ## The v-attribute of an integer -/

theorem ssByte_natCast (n : ℕ) : ssByte n = UInt8.ofNat n := by
  rw [← UInt8.toNat_inj, ssByte, toNat_ofNat_byte, toNat_ofNat_byte]
  omega

theorem lowBytes_one (y : ℤ) : lowBytes y 1 = [ssByte y] := by
  rw [lowBytes, lowBytes, pow_zero, Int.ediv_one, ssByte]

theorem encVa_short {f : List UInt8} (hlen : f.length < 0xFE) :
    encVa f = UInt8.ofNat f.length :: f := by
  rw [encVa, vaSetLen, if_pos ((byteLenTest_iff _).mpr hlen)]
  rfl

theorem encVa_small (hge : -120 ≤ x) (hle : x ≤ 119) :
    encVa (vaIntCode x) = [1, ssByte (x + 128)] := by
  have hcode : vaIntCode x = [UInt8.ofNat (x + 128).toNat] :=
    leadInt_small (by omega) (by omega)
  have hbyte : ssByte (x + 128) = UInt8.ofNat (x + 128).toNat := by
    rw [← ssByte_natCast, Int.toNat_of_nonneg (by omega)]
  rw [hcode, hbyte, encVa_short (by rw [List.length_singleton]; decide)]
  rfl

theorem encVa_low (hlow : x < -120) (hlen : vaIntLen x ≤ 8) :
    encVa (vaIntCode x) =
      ssByte (vaIntLen x + 1 : ℕ) :: ssByte (vaIntMaxBytes - vaIntLen x) ::
        lowBytes (x + vaNegBias) (vaIntLen x) := by
  have hcode : vaIntCode x =
      UInt8.ofNat (8 - vaIntLen x) :: lowBytes (x + vaNegBias) (vaIntLen x) :=
    leadInt_low (by omega)
  have hbyte : ssByte (vaIntMaxBytes - vaIntLen x) = UInt8.ofNat (8 - vaIntLen x) := by
    rw [← ssByte_natCast, Nat.cast_sub hlen]
    rfl
  rw [hcode, hbyte, encVa_short (by rw [List.length_cons, length_lowBytes]; omega),
    List.length_cons, length_lowBytes, ssByte_natCast]

theorem encVa_high (hhigh : 119 < x) (hlen : vaIntLen x ≤ 8) :
    encVa (vaIntCode x) =
      ssByte (vaIntLen x + 1 : ℕ) :: ssByte (0xFF - vaIntMaxBytes + vaIntLen x) ::
        lowBytes (x + vaPosBias) (vaIntLen x) := by
  have hcode : vaIntCode x =
      UInt8.ofNat (255 - 8 + vaIntLen x) :: lowBytes (x + vaPosBias) (vaIntLen x) :=
    leadInt_high (by decide) (by omega)
  have hbyte : ssByte (0xFF - vaIntMaxBytes + vaIntLen x) = UInt8.ofNat (255 - 8 + vaIntLen x) := by
    rw [← ssByte_natCast, Nat.cast_add]
    rfl
  rw [hcode, hbyte, encVa_short (by rw [List.length_cons, length_lowBytes]; omega),
    List.length_cons, length_lowBytes, ssByte_natCast]

theorem vaSetint_eq (hge : -2 ^ 31 ≤ x) (hlt : x < 2 ^ 31) : vaSetint x = encVa (vaIntCode x) := by
  have hmax : vaIntMaxBytes = 8 := rfl
  have hbias : vaIntBias = 128 := rfl
  rw [vaSetint]
  simp only [hmax, hbias, vaNegBias_eq, vaPosBias_eq]
  by_cases hsmall : 8 - 128 ≤ x ∧ x ≤ 255 - 128 - 8
  · rw [if_pos hsmall, encVa_small (by omega) (by omega)]
  · rw [if_neg hsmall]
    by_cases hneg : x < 0
    · have hlen := vaIntLen_neg hneg
      rw [if_pos hneg, encVa_low (by omega) (by omega), hmax, vaNegBias_eq]
      by_cases hone : x + 120 ≥ -0x100
      · have hlen₁ : vaIntLen x = 1 := by omega
        rw [if_pos hone, hlen₁, lowBytes_one]
        rfl
      · have hlen' : (if x + 120 ≥ -0x10000 then 2 else if x + 120 ≥ -0x1000000 then 3 else 4) =
            vaIntLen x := by
          split_ifs <;> omega
        rw [if_neg hone, hlen']
    · have hlen := vaIntLen_nonneg (not_lt.mp hneg)
      rw [if_neg hneg, encVa_high (by omega) (by omega), hmax, vaPosBias_eq]
      by_cases hone : x + -120 < 0x100
      · have hlen₁ : vaIntLen x = 1 := by omega
        rw [if_pos hone, hlen₁, lowBytes_one]
        rfl
      · have hlen' : (if x + -120 < 0x10000 then 2 else if x + -120 < 0x1000000 then 3 else 4) =
            vaIntLen x := by
          split_ifs <;> omega
        rw [if_neg hone, hlen']

theorem vaSetlong_eq (hge : -2 ^ 31 ≤ x) (hlt : x < 2 ^ 31) :
    vaSetlong x = encVa (vaIntCode x) := by
  rw [vaSetlong, toInt32_of_abs_lt hge hlt, vaSetint_eq hge hlt]

/-! ## Eight bytes -/

variable (v w : SsInt8)

theorem ssInt8ConvertToInt4_spec :
    ((ssInt8ConvertToInt4 v).1 = true ↔ -2 ^ 31 ≤ v.toInt ∧ v.toInt < 2 ^ 31) ∧
      ((ssInt8ConvertToInt4 v).1 = true → (ssInt8ConvertToInt4 v).2 = v.toInt) := by
  have hls := v.lsU4_lt
  have hms := v.msU4_lt
  have hhalves := v.toNat_eq_halves
  have hneg := v.isneg_iff
  have hint : v.toInt = if v.toNat < 2 ^ 63 then (v.toNat : ℤ) else v.toNat - 2 ^ 64 := rfl
  have hlow : toInt32 v.lsU4 = if v.lsU4 < 2 ^ 31 then (v.lsU4 : ℤ) else v.lsU4 - 2 ^ 32 := by
    rw [toInt32, Int.bmod]
    split_ifs <;> omega
  rw [ssInt8ConvertToInt4]
  generalize hr : toInt32 v.lsU4 = r at hlow ⊢
  by_cases hnegv : v.isneg = true
  · have hge := hneg.mp hnegv
    simp only [hnegv, if_true]
    rw [if_neg (by omega)] at hint
    simp only [Bool.not_eq_true', Bool.or_eq_false_iff, decide_eq_false_iff_not, not_not,
      Bool.not_eq_false', decide_eq_true_eq]
    split_ifs at hlow <;> omega
  · have hlt : v.toNat < 2 ^ 63 := v.isneg_eq_false_iff.mp (Bool.eq_false_of_not_eq_true hnegv)
    simp only [hnegv]
    rw [if_pos hlt] at hint
    simp only [Bool.false_eq_true, if_false, Bool.not_eq_true', Bool.or_eq_false_iff,
      decide_eq_false_iff_not, not_not]
    split_ifs at hlow <;> omega

theorem ssInt8Cmp_neg_iff : ssInt8Cmp v w < 0 ↔ v.toInt < w.toInt := by
  rw [← Int.sign_neg_iff, ssInt8Cmp_sign, Int.sign_neg_iff]
  omega

variable {v}

theorem toInt_addNegBias (hlow : v.toInt < -120) :
    (ssInt8AddUint2 v (UInt16.ofNat vaNegBias.toNat)).2.toInt = v.toInt + vaNegBias := by
  have hv := v.toInt_emod
  have hbounds := v.toInt_bounds
  have hadd : (ssInt8AddUint2 v (UInt16.ofNat vaNegBias.toNat)).2.toNat =
      (v.toNat + 120) % 2 ^ 64 := toNat_addUint2WithShift v _ (Nat.zero_le 4)
  rw [toInt_eq_iff, hadd, vaNegBias_eq]
  omega

theorem toInt_addPosBias (hhigh : 119 < v.toInt) :
    (ssInt8AddInt8 v (ssInt8SetInt4 vaPosBias)).2.toInt = v.toInt + vaPosBias := by
  have hv := v.toInt_emod
  have hbounds := v.toInt_bounds
  have hbias : (ssInt8SetInt4 vaPosBias).toNat = 2 ^ 64 - 120 := by decide +kernel
  have hadd := toNat_addInt8 v (ssInt8SetInt4 vaPosBias)
  rw [toInt_eq_iff, hadd, hbias, vaPosBias_eq]
  omega

theorem toInt_setInt4 {i4 : ℤ} (hge : -2 ^ 31 ≤ i4) (hlt : i4 < 2 ^ 31) :
    (ssInt8SetInt4 i4).toInt = i4 := by
  rw [ssInt8SetInt4, toInt_eq_iff, toNat_set2U4 (by split <;> omega) (by omega)]
  split <;> omega

theorem ofBytes_setMsBytes (msUint4 n : ℕ) :
    ofBytes (setMsBytes msUint4 n) = msUint4 % 256 ^ (n + 1) ∧
      (setMsBytes msUint4 n).length = n + 1 := by
  induction n generalizing msUint4 with
  | zero => exact ⟨by rw [setMsBytes, ofBytes_singleton, toNat_ofNat_byte]; rfl, rfl⟩
  | succ n ih =>
      obtain ⟨hval, hlen⟩ := ih (msUint4 >>> 8)
      have hshift : msUint4 >>> 8 = msUint4 / 256 := Nat.shiftRight_eq_div_pow ..
      refine ⟨?_, by rw [setMsBytes, List.length_append, hlen]; rfl⟩
      rw [setMsBytes, ofBytes_append, hval, List.length_singleton, pow_one, ofBytes_singleton,
        toNat_ofNat_byte, hshift, pow_succ' 256 (n + 1), Nat.mod_mul]
      omega

theorem setValueBytes_eq {n : ℕ} (hge : 5 ≤ n) (hle : n ≤ 8) :
    setValueBytes v n = lowBytes v.toInt n := by
  obtain ⟨hval, hlen⟩ := ofBytes_setMsBytes v.msU4 (n - 5)
  have hms := v.msU4_lt
  have hls := v.lsU4_lt
  have hhalves := v.toNat_eq_halves
  have hv := v.toInt_emod
  have hlow := ofBytes_lowBytes v.lsU4 4
  have hwhole := ofBytes_lowBytes v.toInt n
  apply ofBytes_injective
  · rw [setValueBytes, List.length_append, hlen, length_lowBytes, length_lowBytes]
    omega
  · rw [setValueBytes, ofBytes_append, hval, length_lowBytes]
    obtain rfl | rfl | rfl | rfl : n = 5 ∨ n = 6 ∨ n = 7 ∨ n = 8 := by omega
    all_goals
      norm_num at hlow hwhole ⊢
      omega

theorem vaSetint8_eq : vaSetint8 v = encVa (vaIntCode v.toInt) := by
  obtain ⟨hfits, hconv⟩ := ssInt8ConvertToInt4_spec v
  have hbounds := v.toInt_bounds
  rw [vaSetint8]
  by_cases hint4 : (ssInt8ConvertToInt4 v).1 = true
  · obtain ⟨hge, hlt⟩ := hfits.mp hint4
    simp only [hint4, if_true]
    rw [hconv hint4, vaSetlong_eq hge hlt]
  · rw [hfits] at hint4
    have hfalse : (ssInt8ConvertToInt4 v).1 = false :=
      Bool.eq_false_of_not_eq_true fun h => hint4 (hfits.mp h)
    simp only [hfalse, Bool.false_eq_true, if_false]
    by_cases hneg : v.isneg = true
    · have hlt := v.isneg_iff_toInt.mp hneg
      have hbias := toInt_addNegBias (v := v) (by omega)
      have hlen := vaIntLen_neg hlt
      have hlen₈ : vaIntLen v.toInt = 8 := by omega
      -- a negative value is less than each of the constants
      have hcmp {c : SsInt8} (hc : 0 ≤ c.toInt) :
          ¬ ssInt8Cmp (ssInt8AddUint2 v (UInt16.ofNat vaNegBias.toNat)).2 c ≥ 0 := by
        rw [ge_iff_le, not_le, ssInt8Cmp_neg_iff, hbias, vaNegBias_eq]
        omega
      rw [if_pos hneg, if_neg (hcmp (by decide +kernel)), if_neg (hcmp (by decide +kernel)),
        if_neg (hcmp (by decide +kernel)), setValueBytes_eq (by decide) (by decide), hbias,
        encVa_low (by omega) (by omega), hlen₈]
    · have hge : ¬ v.toInt < 0 := fun h => hneg (v.isneg_iff_toInt.mpr h)
      have hbias := toInt_addPosBias (v := v) (by omega)
      have hlen := vaIntLen_nonneg (not_lt.mp hge)
      have h40 : value0000010000000000.toInt = 2 ^ 40 := by decide +kernel
      have h48 : value0001000000000000.toInt = 2 ^ 48 := by decide +kernel
      have h56 : value0100000000000000.toInt = 2 ^ 56 := by decide +kernel
      have hchain : (if v.toInt + vaPosBias < 2 ^ 40 then 5
          else if v.toInt + vaPosBias < 2 ^ 48 then 6
          else if v.toInt + vaPosBias < 2 ^ 56 then 7 else 8) = vaIntLen v.toInt := by
        rw [vaPosBias_eq]
        split_ifs <;> omega
      rw [if_neg hneg]
      simp only [ssInt8Cmp_neg_iff, hbias, h40, h48, h56, hchain]
      rw [setValueBytes_eq (by omega) (by omega), hbias, encVa_high (by omega) (by omega)]

/-! ## Reading -/

theorem shiftLeft_or (w start : ℕ) (hw : 8 ≤ w) (b : UInt8) :
    (start <<< 8) % 2 ^ w ||| b.toNat = (start * 256 + b.toNat) % 2 ^ w := by
  have hb := b.toNat_lt
  have hpow : 2 ^ w = 2 ^ (w - 8) * 256 := by
    rw [show (256 : ℕ) = 2 ^ 8 from rfl, ← pow_add, Nat.sub_add_cancel hw]
  have hhigh : (start <<< 8) % 2 ^ w = 2 ^ 8 * (start % 2 ^ (w - 8)) := by
    rw [Nat.shiftLeft_eq, hpow, Nat.mul_mod_mul_right, mul_comm]
  have hlt := Nat.mod_lt start (Nat.two_pow_pos (w - 8))
  have hsum : (start * 256 + b.toNat) % 2 ^ w = 2 ^ 8 * (start % 2 ^ (w - 8)) + b.toNat := by
    have hsplit := Nat.mod_add_div start (2 ^ (w - 8))
    have hwhole : start * 256 + b.toNat =
        2 ^ 8 * (start % 2 ^ (w - 8)) + b.toNat + 2 ^ w * (start / 2 ^ (w - 8)) := by
      conv_lhs => rw [← hsplit]
      rw [hpow]
      ring
    rw [hwhole, Nat.add_mul_mod_self_left, Nat.mod_eq_of_lt (by rw [hpow]; omega)]
  rw [hhigh, hsum, Nat.two_pow_add_eq_or_of_lt hb]

theorem getBytes_eq {w start : ℕ} (hw : 8 ≤ w) (hstart : start < 2 ^ w) (bs r : List UInt8) :
    getBytes w bs.length (bs ++ r) start = (start * 256 ^ bs.length + ofBytes bs) % 2 ^ w := by
  induction bs generalizing start with
  | nil =>
      rw [List.length_nil, getBytes, pow_zero, mul_one, ofBytes_nil, add_zero,
        Nat.mod_eq_of_lt hstart]
  | cons b bs ih =>
      rw [List.length_cons, getBytes, List.cons_append, List.tail_cons, List.headD_cons,
        shiftLeft_or w start hw b, ih (Nat.mod_lt _ (Nat.two_pow_pos w)), ofBytes_cons]
      have hmod := ((Nat.mod_modEq (start * 256 + b.toNat) (2 ^ w)).mul_right
        (256 ^ bs.length)).add_right (ofBytes bs)
      rw [hmod]
      congr 1
      ring

theorem toNat_ssByte {n : ℤ} (hge : 0 ≤ n) (hlt : n < 256) : ((ssByte n).toNat : ℤ) = n := by
  rw [ssByte, toNat_ofNat_byte]
  omega

theorem ofBytes_low (hx : FitsInt8 x) (hlow : x < -120) :
    (ofBytes (lowBytes (x + vaNegBias) (vaIntLen x)) : ℤ) =
      x + vaNegBias + 256 ^ vaIntLen x := by
  rw [ofBytes_lowBytes]
  exact (fits_vaIntLen hx).low_emod (by omega)

theorem ofBytes_high (hx : FitsInt8 x) (hhigh : 119 < x) :
    (ofBytes (lowBytes (x + vaPosBias) (vaIntLen x)) : ℤ) = x + vaPosBias := by
  have hmod := (fits_vaIntLen hx).high_emod (by omega)
  rw [show ((128 : ℕ) : ℤ) + (8 : ℕ) - 256 = vaPosBias by decide] at hmod
  rw [ofBytes_lowBytes, hmod]

theorem asLong_eq {r : ℕ} {n : ℤ} (hr : (r : ℤ) = n % 2 ^ 64) (hn : FitsInt8 n) :
    asLong r = n := by
  obtain ⟨hge, hlt⟩ := hn
  rw [asLong]
  split <;> omega

theorem fits_addNegBias (hx : FitsInt8 x) (hneg : x < 0) : FitsInt8 (x + vaNegBias) := by
  obtain ⟨hge, hlt⟩ := hx
  rw [FitsInt8, vaNegBias_eq]
  omega

theorem fits_addPosBias (hx : FitsInt8 x) (hpos : 0 ≤ x) : FitsInt8 (x + vaPosBias) := by
  obtain ⟨hge, hlt⟩ := hx
  rw [FitsInt8, vaPosBias_eq]
  omega

theorem ssByte_ne_zero {n : ℤ} (hpos : 0 < n) (hlt : n < 256) : ssByte n ≠ 0 := by
  intro hzero
  have hbyte := toNat_ssByte hpos.le hlt
  rw [hzero, UInt8.toNat_zero] at hbyte
  omega

/-- Two words, the high one reduced, are a number modulo `2 ^ 64`. -/
theorem low_add_high {lo : ℕ} (hlo : lo < 2 ^ 32) (m : ℕ) :
    lo + 2 ^ 32 * (m % 2 ^ 32) = (lo + 2 ^ 32 * m) % 2 ^ 64 := by
  omega

/-- The number of the bytes that the two loops of `va_getint8` read; the start value is `0` or
`-1`. -/
theorem toNat_getInt8Bytes (bs : List UInt8) {s : ℕ} (hs : s ≤ 1) (hle : bs.length ≤ 8) :
    ((getInt8Bytes bs.length bs (s * (2 ^ 32 - 1))).toNat : ℤ) =
      (ofBytes bs - s * 256 ^ bs.length) % 2 ^ 64 := by
  have hstart : s * (2 ^ 32 - 1) < 2 ^ 32 := by omega
  rw [getInt8Bytes]
  rcases Nat.lt_or_ge bs.length 5 with hshort | hlong
  · have hlo := getBytes_eq (w := 32) (by decide) hstart bs []
    have hlt := ofBytes_lt bs
    have hpow : 256 ^ bs.length ≤ 256 ^ 4 := Nat.pow_le_pow_right (by decide) (by omega)
    rw [List.append_nil] at hlo
    rw [Nat.sub_eq_zero_of_le (by omega), getBytes, List.drop_zero, Nat.min_eq_left (by omega), hlo,
      toNat_set2U4 hstart (Nat.mod_lt _ (Nat.two_pow_pos 32))]
    generalize ofBytes bs = k at hlt ⊢
    have hcast : (256 : ℤ) ^ bs.length = (256 ^ bs.length : ℕ) := by rw [Nat.cast_pow]; rfl
    rw [hcast]
    generalize 256 ^ bs.length = m at hlt hpow ⊢
    clear hstart hlo
    obtain rfl | rfl : s = 0 ∨ s = 1 := by omega
    · rw [zero_mul, zero_mul, zero_add, Nat.mod_eq_of_lt (by omega)]
      omega
    · rw [one_mul, show (2 ^ 32 - 1) * m + k = 2 ^ 32 - m + k + 2 ^ 32 * (m - 1) by omega,
        Nat.add_mul_mod_self_left, Nat.mod_eq_of_lt (by omega)]
      omega
  · obtain ⟨a, b, rfl, ha⟩ : ∃ a b, bs = a ++ b ∧ a.length = bs.length - 4 :=
      ⟨bs.take (bs.length - 4), bs.drop (bs.length - 4), (List.take_append_drop _ _).symm, by
        rw [List.length_take, Nat.min_eq_left (by omega)]⟩
    have hhi := getBytes_eq (w := 32) (by decide) hstart a b
    have hlo := getBytes_eq (w := 32) (by decide) hstart b []
    have hblt := ofBytes_lt b
    rw [List.length_append] at ha hle hlong ⊢
    have hb : b.length = 4 := by omega
    rw [List.append_nil, hb, show (256 : ℕ) ^ 4 = 2 ^ 32 by decide, Nat.add_comm,
      Nat.add_mul_mod_self_right, Nat.mod_eq_of_lt (by rwa [hb] at hblt)] at hlo
    rw [hb] at hblt
    rw [hb, Nat.add_sub_cancel, hhi, Nat.min_eq_right (by omega), List.drop_left, hlo,
      toNat_set2U4 (Nat.mod_lt _ (Nat.two_pow_pos 32)) hblt, low_add_high hblt, ofBytes_append, hb]
    have hmod : ((ofBytes b : ℤ) + 2 ^ 32 * (s * (2 ^ 32 - 1) * 256 ^ a.length + ofBytes a)) ≡
        ofBytes a * 256 ^ 4 + ofBytes b - s * 256 ^ (a.length + 4) [ZMOD 2 ^ 64] :=
      (Int.modEq_iff_dvd.mpr ⟨s * 256 ^ a.length, by ring⟩).symm
    rw [Int.natCast_mod]
    push_cast
    exact hmod

/-! ## Both routines that read -/

theorem read_small (hge : -120 ≤ x) (hle : x ≤ 119) :
    (encVa (vaIntCode x)).headD 0 ≠ 0 ∧
      (((encVa (vaIntCode x)).tail.headD 0).toNat : ℤ) = x + vaIntBias := by
  have hbyte := toNat_ssByte (n := x + 128) (by omega) (by omega)
  rw [encVa_small hge hle]
  exact ⟨by rw [List.headD_cons]; decide, hbyte⟩

theorem read_low (hx : FitsInt8 x) (hlow : x < -120) :
    (encVa (vaIntCode x)).headD 0 ≠ 0 ∧
      (((encVa (vaIntCode x)).tail.headD 0).toNat : ℤ) = vaIntMaxBytes - vaIntLen x ∧
      (encVa (vaIntCode x)).drop 2 = lowBytes (x + vaNegBias) (vaIntLen x) := by
  have hmax : vaIntMaxBytes = 8 := by decide
  have hpos := (fits_vaIntLen hx).pos
  have hle := (fits_vaIntLen hx).le
  rw [encVa_low hlow hle]
  exact ⟨ssByte_ne_zero (by omega) (by omega), toNat_ssByte (by omega) (by omega), rfl⟩

theorem read_high (hx : FitsInt8 x) (hhigh : 119 < x) :
    (encVa (vaIntCode x)).headD 0 ≠ 0 ∧
      (((encVa (vaIntCode x)).tail.headD 0).toNat : ℤ) = 0xFF - vaIntMaxBytes + vaIntLen x ∧
      (encVa (vaIntCode x)).drop 2 = lowBytes (x + vaPosBias) (vaIntLen x) := by
  have hmax : vaIntMaxBytes = 8 := by decide
  have hpos := (fits_vaIntLen hx).pos
  have hle := (fits_vaIntLen hx).le
  rw [encVa_high hhigh hle]
  exact ⟨ssByte_ne_zero (by omega) (by omega), toNat_ssByte (by omega) (by omega), rfl⟩

theorem signExtendToLong_small (hge : -120 ≤ x) (hle : x ≤ 119) :
    signExtendToLong (x + vaIntBias - vaIntBias) = x := by
  rw [signExtendToLong, add_sub_cancel_right, Int.bmod_eq_of_le (by omega) (by omega)]

theorem vaGetlong_encVa (hx : FitsInt8 x) : vaGetlong (encVa (vaIntCode x)) = some x := by
  have hmax : vaIntMaxBytes = 8 := by decide
  have hbias : vaIntBias = 128 := by decide
  have hpos := (fits_vaIntLen hx).pos
  have hle := (fits_vaIntLen hx).le
  rw [vaGetlong]
  rcases lt_or_ge x (-120) with hlow | hlow
  · obtain ⟨hnull, hfirst, hdrop⟩ := read_low hx hlow
    have hget := getBytes_eq (w := 64) (by decide) (show 2 ^ 64 - 1 < 2 ^ 64 by decide)
      (lowBytes (x + vaNegBias) (vaIntLen x)) []
    have hmod : ((((2 ^ 64 - 1) * 256 ^ vaIntLen x +
        ofBytes (lowBytes (x + vaNegBias) (vaIntLen x))) % 2 ^ 64 : ℕ) : ℤ) =
          (x + vaNegBias) % 2 ^ 64 := by
      rw [Int.natCast_mod, Nat.cast_add, ofBytes_low hx hlow]
      push_cast
      exact (Int.modEq_iff_dvd.mpr ⟨256 ^ vaIntLen x, by ring⟩).symm
    rw [List.append_nil, length_lowBytes] at hget
    simp only [hfirst, hdrop]
    rw [if_neg hnull, if_neg (by omega), if_pos (by omega), sub_sub_cancel, Int.toNat_natCast,
      hget, asLong_eq hmod (fits_addNegBias hx (by omega)), add_sub_cancel_right]
  · rcases le_or_gt x 119 with hsmall | hhigh
    · obtain ⟨hnull, hfirst⟩ := read_small hlow hsmall
      simp only [hfirst]
      rw [if_neg hnull, if_pos (by omega), signExtendToLong_small hlow hsmall]
    · obtain ⟨hnull, hfirst, hdrop⟩ := read_high hx hhigh
      have hget := getBytes_eq (w := 64) (by decide) (show 0 < 2 ^ 64 by decide)
        (lowBytes (x + vaPosBias) (vaIntLen x)) []
      have hmod : (((0 * 256 ^ vaIntLen x +
          ofBytes (lowBytes (x + vaPosBias) (vaIntLen x))) % 2 ^ 64 : ℕ) : ℤ) =
            (x + vaPosBias) % 2 ^ 64 := by
        rw [Int.natCast_mod, zero_mul, zero_add, ofBytes_high hx hhigh]
        rfl
      rw [List.append_nil, length_lowBytes] at hget
      simp only [hfirst, hdrop]
      rw [if_neg hnull, if_neg (by omega), if_neg (by omega), add_sub_cancel_left,
        Int.toNat_natCast, hget, asLong_eq hmod (fits_addPosBias hx (by omega)),
        add_sub_cancel_right]

/-- The value of a difference, from the number of the minuend. -/
theorem toInt_subtract_eq {b n : ℤ} (hb : -2 ^ 31 ≤ b) (hb' : b < 2 ^ 31) (hn : FitsInt8 n)
    (hv : (v.toNat : ℤ) = (n + b) % 2 ^ 64) :
    (ssInt8SubtractInt8 v (ssInt8SetInt4 b)).2.toInt = n := by
  obtain ⟨hge, hlt⟩ := hn
  have hset := toInt_setInt4 hb hb'
  have hmod := (ssInt8SetInt4 b).toInt_emod
  have hbnat := (ssInt8SetInt4 b).toNat_lt
  rw [toInt_eq_iff, toNat_subtractInt8]
  rw [hset] at hmod
  omega

theorem vaGetint8_encVa (v : SsInt8) : vaGetint8 (encVa (vaIntCode v.toInt)) = some v := by
  have hx := fitsInt8_toInt v
  have hmax : vaIntMaxBytes = 8 := by decide
  have hbias : vaIntBias = 128 := by decide
  have hpos := (fits_vaIntLen hx).pos
  have hle := (fits_vaIntLen hx).le
  rw [vaGetint8]
  rcases lt_or_ge v.toInt (-120) with hlow | hlow
  · obtain ⟨hnull, hfirst, hdrop⟩ := read_low hx hlow
    have hnat := toNat_getInt8Bytes (lowBytes (v.toInt + vaNegBias) (vaIntLen v.toInt))
      (s := 1) (by decide) (by rwa [length_lowBytes])
    rw [length_lowBytes, one_mul, ofBytes_low hx hlow, Nat.cast_one, one_mul,
      add_sub_cancel_right] at hnat
    simp only [hfirst, hdrop]
    rw [if_neg hnull, if_neg (by omega), if_pos (by omega), sub_sub_cancel, Int.toNat_natCast,
      Option.some_inj]
    exact toInt_injective (toInt_subtract_eq (by decide) (by decide) hx hnat)
  · rcases le_or_gt v.toInt 119 with hsmall | hhigh
    · obtain ⟨hnull, hfirst⟩ := read_small hlow hsmall
      simp only [hfirst]
      rw [if_neg hnull, if_pos (by omega), signExtendToLong_small hlow hsmall, Option.some_inj]
      exact toInt_injective (toInt_setInt4 (by omega) (by omega))
    · obtain ⟨hnull, hfirst, hdrop⟩ := read_high hx hhigh
      have hnat := toNat_getInt8Bytes (lowBytes (v.toInt + vaPosBias) (vaIntLen v.toInt))
        (s := 0) (by decide) (by rwa [length_lowBytes])
      rw [length_lowBytes, zero_mul, ofBytes_high hx hhigh, Nat.cast_zero, zero_mul,
        sub_zero] at hnat
      simp only [hfirst, hdrop]
      rw [if_neg hnull, if_neg (by omega), if_neg (by omega), add_sub_cancel_left,
        Int.toNat_natCast, Option.some_inj]
      exact toInt_injective (toInt_subtract_eq (by decide) (by decide) hx hnat)

/-! ## The embedding -/

theorem vaIntCode_lt_iff (hx : FitsInt8 x) (hy : FitsInt8 y) :
    vaIntCode x < vaIntCode y ↔ x < y := by
  refine ⟨fun hcode => ?_, vaIntCode_lt hx hy⟩
  rcases lt_trichotomy x y with hlt | rfl | hgt
  · exact hlt
  · exact absurd hcode (lt_irrefl _)
  · exact absurd hcode (lt_asymm (vaIntCode_lt hy hx hgt))

theorem signOf_vaCompare_vaIntCode (hx : FitsInt8 x) (hy : FitsInt8 y) :
    signOf (vaCompare (encVa (vaIntCode x)) (encVa (vaIntCode y))) = signOf (x - y) := by
  have hlen {z : ℤ} (hz : FitsInt8 z) : (vaIntCode z).length < 2 ^ 31 := by
    have hle := (fits_vaIntLen hz).le
    rw [vaIntCode, leadInt]
    split_ifs <;> rw [List.length_cons] <;> simp <;> omega
  rcases vaCompare_cases (hlen hx) (hlen hy) with ⟨hneg, hcode⟩ | ⟨hpos, hcode⟩ | ⟨hzero, hcode⟩
  · have hlt := (vaIntCode_lt_iff hx hy).mp hcode
    rw [signOf_of_neg hneg, signOf_of_neg (by omega)]
  · have hgt := (vaIntCode_lt_iff hy hx).mp hcode
    rw [signOf_of_pos hpos, signOf_of_pos (by omega)]
  · have hnlt : ¬ x < y := fun hlt => (vaIntCode_lt hx hy hlt).ne hcode
    have hngt : ¬ y < x := fun hgt => (vaIntCode_lt hy hx hgt).ne' hcode
    rw [hzero, show x - y = 0 by omega]

/-- The code of the integers of 64 bits is an order embedding and is read back, and the routines
for a `long` agree with it on the integers of 32 bits. -/
theorem vaInt_orderEmbedding :
    (∀ x : SsInt8, vaGetint8 (vaSetint8 x) = some x) ∧
      (∀ x y : SsInt8,
        signOf (vaCompare (vaSetint8 x) (vaSetint8 y)) = signOf (x.toInt - y.toInt)) ∧
      ∀ x : Int32,
        vaSetlong x.toInt = vaSetint8 (ssInt8SetInt4 x.toInt) ∧
          vaGetlong (vaSetlong x.toInt) = some x.toInt ∧
          vaGetlong (vaSetint8 (ssInt8SetInt4 x.toInt)) = some x.toInt := by
  refine ⟨fun x => ?_, fun x y => ?_, fun x => ?_⟩
  · rw [vaSetint8_eq, vaGetint8_encVa]
  · rw [vaSetint8_eq, vaSetint8_eq,
      signOf_vaCompare_vaIntCode (fitsInt8_toInt x) (fitsInt8_toInt y)]
  · have hge := x.le_toInt
    have hlt := x.toInt_lt
    have hget : vaGetlong (encVa (vaIntCode x.toInt)) = some x.toInt :=
      vaGetlong_encVa ⟨by omega, by omega⟩
    rw [vaSetint8_eq, toInt_setInt4 hge hlt, vaSetlong_eq hge hlt]
    exact ⟨rfl, hget, hget⟩

end SolidDB.Vai
