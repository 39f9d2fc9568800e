import SolidDB.Dt.DflNst

/-!
# Reading encoded decimals

`dfl_nsttodfl` finds the sign, the exponent and the digits that `dfl_dfltonst` wrote and
builds the mantissa from them. It stops before the first digit that does not fit into seven
bytes.
-/

namespace SolidDB

variable {d : Dfl} {b : ℕ} {ps : List UInt8}

/-! ## The parts of an encoding -/

theorem toNat_expchar (f : UInt8) :
    (((f ^^^ 0x40) &&& 0x7F) <<< 1 ||| 0).toNat = (f.toNat % 128 * 2 + 128) % 256 ∧
      (((f ^^^ 0x40) &&& 0x7F) <<< 1 ||| 1).toNat = (f.toNat % 128 * 2 + 129) % 256 :=
  (byte_table f).2.2.2.2.2

theorem toNat_xor_127 (f : UInt8) (hlt : f.toNat < 128) : (f ^^^ 0x7F).toNat = 127 - f.toNat :=
  ((byte_table f).2.2.2.1 hlt).2.2

theorem and_127 (f : UInt8) : (f &&& 0x7F).toNat = f.toNat % 128 := (byte_table f).2.2.2.2.1

theorem nstSplit_exp (first : UInt8) {p : UInt8} (hb : b < 256) (hp : p.toNat < 128)
    (hfirst : first.toNat % 128 = b / 2) (rest : List UInt8) :
    ((((first ^^^ 0x40) &&& 0x7F) <<< 1 |||
        (if 128 ≤ ((nstHead b p :: rest).headD 0).toNat then 1 else 0)).toNat : ℤ).bmod 256 * 2 =
      2 * ((b : ℤ) - 128) ∧
      ((nstHead b p :: rest).headD 0 &&& 0x7F) :: (nstHead b p :: rest).tail = p :: rest := by
  have hhead := toNat_nstHead b hp
  have hchar := toNat_expchar first
  rw [hfirst] at hchar
  rw [List.headD_cons, List.tail_cons]
  refine ⟨?_, ?_⟩
  · split
    next hodd =>
      rw [hchar.2, Int.bmod_def]
      split <;> omega
    next heven =>
      rw [hchar.1, Int.bmod_def]
      split <;> omega
  · congr 1
    rw [← UInt8.toNat_inj, and_127, hhead]
    omega

theorem NstForm.head_lt {M h : ℕ} {p : UInt8} {rest : List UInt8}
    (hform : NstForm M h b (p :: rest)) : p.toNat < 128 :=
  hform.digits.head.trans (by decide)

theorem NstForm.noLastZero {M h : ℕ} {p : UInt8} {rest : List UInt8}
    (hform : NstForm M h b (p :: rest)) : NoLastZero (nstHead b p :: rest) := by
  cases rest with
  | nil =>
      have hp := hform.last.ne_zero
      have hhead := toNat_nstHead b hform.head_lt
      intro hlast
      have hzero : nstHead b p = 0 := Option.some.inj hlast
      rw [hzero, UInt8.toNat_zero] at hhead
      refine hp (UInt8.toNat_inj.mp ?_)
      rw [UInt8.toNat_zero]
      omega
  | cons q rest => exact hform.last

theorem NstForm.data_eq {M h : ℕ} {p : UInt8} {rest : List UInt8}
    (hform : NstForm M h b (p :: rest)) (hb : b < 256) (neg : Bool) :
    nstData neg ((b : ℤ) - 128) (p :: rest) =
      if neg then UInt8.ofNat (127 - b / 2) :: (negateBytes (nstHead b p :: rest)).1
      else UInt8.ofNat (128 + b / 2) :: nstHead b p :: rest := by
  have hdigits := nstDigits_cons hb hform.head_lt rest
  cases neg with
  | true =>
      have hflag : (negateBytes (nstHead b p :: rest)).2 = false := by
        rw [Bool.eq_false_iff, ne_eq, negateBytes_flag]
        exact (ofDigitBytes_pos 256 hform.noLastZero).ne'
      rw [nstData_neg hb (by rw [hdigits]; exact hflag), hdigits, if_pos rfl]
  | false => rw [nstData_pos hb, hdigits, if_neg Bool.false_ne_true]

theorem NstForm.split {M h : ℕ} {p : UInt8} {rest : List UInt8}
    (hform : NstForm M h b (p :: rest)) (hb : b < 256) (neg : Bool) :
    ∃ first bytes, nstData neg ((b : ℤ) - 128) (p :: rest) = first :: bytes ∧
      nstSplit first bytes = (!neg, 2 * ((b : ℤ) - 128), p :: rest) := by
  rw [hform.data_eq hb]
  cases neg with
  | true =>
      have hbyte : (UInt8.ofNat (127 - b / 2)).toNat = 127 - b / 2 := by
        rw [toNat_ofNat_byte]
        omega
      have hsign : ¬ 128 ≤ (UInt8.ofNat (127 - b / 2)).toNat := by omega
      have hxor := toNat_xor_127 (UInt8.ofNat (127 - b / 2)) (not_le.mp hsign)
      have hparts := nstSplit_exp (UInt8.ofNat (127 - b / 2) ^^^ 0x7F) hb hform.head_lt
        (by omega) rest
      refine ⟨_, _, if_pos rfl, ?_⟩
      rw [nstSplit]
      simp only [hsign, decide_false, if_false, negateBytes_negateBytes, hparts, Bool.not_true]
  | false =>
      have hbyte : (UInt8.ofNat (128 + b / 2)).toNat = 128 + b / 2 := by
        rw [toNat_ofNat_byte]
        omega
      have hsign : 128 ≤ (UInt8.ofNat (128 + b / 2)).toNat := by omega
      have hparts := nstSplit_exp (UInt8.ofNat (128 + b / 2)) hb hform.head_lt
        (by omega) rest
      refine ⟨_, _, if_neg Bool.false_ne_true, ?_⟩
      rw [nstSplit]
      simp only [hsign, decide_true, if_true, hparts, Bool.not_false]

/-! ## The mantissa -/

theorem nstMantissa_cons {v : ℤ} {p : UInt8} (exp : ℤ) (h : d.Is 0 v) (hv : 0 ≤ v)
    (hp : p.toNat < 100) (hfit : v * 100 + p.toNat < 2 ^ 55) (es : List UInt8) :
    ∃ d', nstMantissa (p :: es) exp d = nstMantissa es (exp - 2) d' ∧
      d'.Is 0 (v * 100 + p.toNat) := by
  have hmul := (dfMulint_is h hv (k := 100) (by decide) (by decide)).1 (by
    push_cast
    omega)
  have hlen : ¬ (dfMulint d 100).len = 0 := by
    have hge := hmul.valid.len_ge
    omega
  push_cast at hmul
  rw [nstMantissa]
  simp only [hlen, if_false]
  cases sum_cases hmul (by omega) (n := p.toNat) (by omega) with
  | same hneg his =>
      simp only [hneg, Bool.false_eq_true, if_false]
      exact ⟨_, rfl, his⟩
  | carry hneg hlen his =>
      simp only [hneg, if_true, not_le.mpr hlen, if_false]
      exact ⟨_, rfl, his⟩
  | overflow hneg hlen hbig => exact absurd hfit (not_lt.mpr hbig)

theorem nstMantissa_full {v exp : ℤ} {p : UInt8} (h : d.Is 0 v) (hv : 0 ≤ v)
    (hp : p.toNat < 100) (hfull : 2 ^ 55 ≤ v * 100 + p.toNat) (es : List UInt8) :
    nstMantissa (p :: es) exp d = (d, exp) := by
  have hmul := dfMulint_is h hv (k := 100) (by decide) (by decide)
  push_cast at hmul
  rw [nstMantissa]
  by_cases hbig : 2 ^ 55 ≤ v * 100
  · simp only [hmul.2 hbig, if_true]
  · have his := hmul.1 (not_le.mp hbig)
    have hlen : ¬ (dfMulint d 100).len = 0 := by
      have hge := his.valid.len_ge
      omega
    simp only [hlen, if_false]
    cases sum_cases his (by omega) (n := p.toNat) (by omega) with
    | same hneg hsum => exact absurd hfull (not_le.mpr hsum.bounds.2)
    | carry hneg hlen hsum => exact absurd hfull (not_le.mpr hsum.bounds.2)
    | overflow hneg hlen hbig =>
        simp only [hneg, if_true, hlen, le_refl]

theorem nstMantissa_append {n : ℕ} (exp : ℤ) (h : d.Is 0 n) (hps : DigitBytes 100 ps)
    (hfit : n * 100 ^ ps.length + ofDigitBytes 100 ps < 2 ^ 55) (es : List UInt8) :
    ∃ d', nstMantissa (ps ++ es) exp d = nstMantissa es (exp - 2 * ps.length) d' ∧
      d'.Is 0 (n * 100 ^ ps.length + ofDigitBytes 100 ps : ℕ) := by
  induction ps generalizing d n exp with
  | nil =>
      refine ⟨d, ?_, ?_⟩
      · rw [List.nil_append, List.length_nil, Nat.cast_zero, mul_zero, sub_zero]
      · rw [List.length_nil, pow_zero, mul_one, ofDigitBytes_nil, add_zero]
        exact h
  | cons p ps ih =>
      have hsplit : n * 100 ^ (p :: ps).length + ofDigitBytes 100 (p :: ps) =
          (n * 100 + p.toNat) * 100 ^ ps.length + ofDigitBytes 100 ps := by
        rw [ofDigitBytes_cons, List.length_cons, pow_succ]
        ring
      rw [hsplit] at hfit ⊢
      have hpos : 0 < 100 ^ ps.length := Nat.pow_pos (by decide)
      have hle : n * 100 + p.toNat ≤ (n * 100 + p.toNat) * 100 ^ ps.length :=
        Nat.le_mul_of_pos_right _ hpos
      obtain ⟨d₁, heq, his⟩ := nstMantissa_cons exp h (Int.natCast_nonneg n) hps.head
        (by exact_mod_cast (Nat.le_add_right_of_le hle).trans_lt hfit) (ps ++ es)
      obtain ⟨d', hrest, his'⟩ := ih (exp - 2) (by exact_mod_cast his) hps.tail hfit
      refine ⟨d', ?_, his'⟩
      rw [List.cons_append, heq, hrest, List.length_cons]
      congr 1
      push_cast
      ring

/-! ## The exponent -/

theorem nstRaise_is {e n k : ℕ} (h : d.Is e n) (hfit : n * 10 ^ k < 2 ^ 55)
    (hexp : e + k < 256) :
    ∃ d', nstRaise k d = some d' ∧ d'.Is (e + k) (n * 10 ^ k : ℕ) := by
  induction k generalizing d e n with
  | zero => exact ⟨d, rfl, by rwa [pow_zero, mul_one]⟩
  | succ k ih =>
      rw [pow_succ, mul_comm (10 ^ k), ← mul_assoc] at hfit ⊢
      have hpos : 0 < 10 ^ k := Nat.pow_pos (by decide)
      have hle : n * 10 ≤ n * 10 * 10 ^ k := Nat.le_mul_of_pos_right _ hpos
      have hmul := (dfMulint_is h (Int.natCast_nonneg n) (k := 10) (by decide) (by decide)).1
        (by exact_mod_cast hle.trans_lt hfit)
      have hlen : ¬ (dfMulint d 10).len = 0 := by
        have hge := hmul.valid.len_ge
        omega
      have his := hmul.with_exp (e + 1) (by omega)
      obtain ⟨d', hrest, his'⟩ := ih (by exact_mod_cast his) hfit (by omega)
      refine ⟨d', ?_, ?_⟩
      · rw [nstRaise]
        simp only [hlen, if_false, hmul.exp_eq]
        exact hrest
      · rw [add_right_comm] at his'
        exact his'

theorem nst_normalize {e n : ℕ} (h : d.Is e n) (sign : Bool) :
    ∃ d', dfNormalize (if sign then d else dflChangeSign d) = some d' ∧ d'.Valid ∧
      d'.value = (if sign then 1 else -1) * (n / 10 ^ e) := by
  have hb := h.bounds
  have hnat := Int.natCast_nonneg n
  cases sign with
  | true =>
      obtain ⟨d', e', v', heq, htrim, -⟩ := dfNormalize_trimmed h (by omega)
      refine ⟨d', heq, htrim.is.valid, ?_⟩
      rw [htrim.value_eq, if_pos rfl, one_mul]
      push_cast
      rfl
  | false =>
      have hneg := dflChangeSign_is h (by omega)
      obtain ⟨d', e', v', heq, htrim, -⟩ := dfNormalize_trimmed hneg (by omega)
      refine ⟨d', heq, htrim.is.valid, ?_⟩
      rw [htrim.value_eq, if_neg Bool.false_ne_true, neg_one_mul, ← neg_div]
      push_cast
      rfl

/-- The mantissa with the exponent and the sign, without zeros at the end. -/
theorem nst_finish {n i j : ℕ} {E : ℤ} (sign : Bool) (h : d.Is 0 n) (hE : E = i - j)
    (hi : i < 256) (hfit : n * 10 ^ (i - j) < 2 ^ 55)
    (hlow : j ≤ i + 255 ∨ (j = i + 256 ∧ 10 ∣ n)) :
    ∃ df d', nstRaise E.toNat d = some df ∧
      ((nstLower (-255 - E).toNat df).bind fun df =>
        let df : Dfl := { df with exp := (-E - max (-255 - E) 0).toNat % 256 }
        dfNormalize (if sign then df else dflChangeSign df)) = some d' ∧ d'.Valid ∧
      d'.value = (if sign then 1 else -1) * ((n * 10 ^ i : ℕ) / 10 ^ j) := by
  have hraise : E.toNat = i - j := by omega
  obtain ⟨df, hdf, his⟩ := nstRaise_is h hfit (by omega)
  rw [← hraise] at hdf
  rcases hlow with hlow | ⟨hlow, hdvd⟩
  · have hzero : (-255 - E).toNat = 0 := by omega
    have hexp : (-E - max (-255 - E) 0).toNat % 256 = j - i := by omega
    obtain ⟨d', hnorm, hvalid, hvalue⟩ := nst_normalize (his.with_exp (j - i) (by omega)) sign
    refine ⟨df, d', hdf, ?_, hvalid, ?_⟩
    · rw [hzero, nstLower, Option.bind_some, hexp]
      exact hnorm
    · rw [hvalue]
      congr 1
      have hsplit : (10 : ℚ) ^ i * 10 ^ (j - i) = 10 ^ (i - j) * 10 ^ j := by
        rw [← pow_add, ← pow_add]
        congr 1
        omega
      rw [div_eq_div_iff (pow_ne_zero _ (by norm_num)) (pow_ne_zero _ (by norm_num))]
      push_cast
      rw [mul_assoc, mul_assoc, hsplit]
  · obtain ⟨m, rfl⟩ := hdvd
    have hone : (-255 - E).toNat = 1 := by omega
    have hexp : (-E - max (-255 - E) 0).toNat % 256 = 255 := by omega
    have hsub : i - j = 0 := by omega
    rw [hsub, pow_zero, mul_one] at his
    obtain ⟨d₁, hdiv, his₁, -⟩ :=
      dfMdiv10_of_nonneg (his.with_exp (0 + 1) (by decide)) (Int.natCast_nonneg _)
    have hquot : ((10 * m : ℕ) : ℤ) / 10 = m := by omega
    rw [hquot] at his₁
    obtain ⟨d', hnorm, hvalid, hvalue⟩ := nst_normalize (his₁.with_exp 255 (by decide)) sign
    refine ⟨df, d', hdf, ?_, hvalid, ?_⟩
    · rw [hone, nstLower, hdiv, Option.bind_some, nstLower, Option.bind_some, hexp]
      exact hnorm
    · rw [hvalue]
      congr 1
      rw [hlow, show i + 256 = 255 + 1 + i from by ring,
        div_eq_div_iff (pow_ne_zero _ (by norm_num)) (pow_ne_zero _ (by norm_num)), pow_add,
        pow_succ]
      push_cast
      ring

/-! ## Reading an encoding -/

theorem take_nstVa {data : List UInt8} (hlen : data.length ≤ dfnstLen - 1) :
    (nstVa data).tail.take (min ((nstVa data).headD 0).toNat (dfnstLen - 1)) = data := by
  have hbyte : (UInt8.ofNat data.length).toNat = data.length := by
    rw [toNat_ofNat_byte]
    rw [dfnstLen] at hlen
    omega
  rw [nstVa, List.tail_cons, List.headD_cons, hbyte, Nat.min_eq_left hlen, List.take_length]

theorem dflNsttodfl_of_split {data bytes ds : List UInt8} {first : UInt8} {sign : Bool} {exp : ℤ}
    {i j n : ℕ} (hdata : data = first :: bytes) (hne : bytes ≠ [])
    (hlen : data.length ≤ dfnstLen - 1) (hsplit : nstSplit first bytes = (sign, exp, ds))
    (hmant : (nstMantissa ds exp dfZero).1.Is 0 n)
    (hexp : (nstMantissa ds exp dfZero).2 = i - j) (hi : i < 256)
    (hfit : n * 10 ^ (i - j) < 2 ^ 55) (hlow : j ≤ i + 255 ∨ (j = i + 256 ∧ 10 ∣ n)) :
    ∃ d', dflNsttodfl (nstVa data) = some d' ∧ d'.Valid ∧
      d'.value = (if sign then 1 else -1) * ((n * 10 ^ i : ℕ) / 10 ^ j) := by
  obtain ⟨x, xs, hbytes⟩ := List.exists_cons_of_ne_nil hne
  obtain ⟨df, d', hraise, hrest, hvalid, hvalue⟩ :=
    nst_finish sign hmant hexp hi hfit hlow
  refine ⟨d', ?_, hvalid, hvalue⟩
  rw [dflNsttodfl, take_nstVa hlen, hdata, hbytes]
  rw [hbytes] at hsplit
  simp only [hsplit, hraise]
  exact hrest

theorem NstForm.last_digit {M h : ℕ} (hform : NstForm M h b ps) :
    ∃ init q, ps = init ++ [q] ∧ DigitBytes 100 init ∧ q.toNat < 100 ∧ q.toNat ≠ 0 ∧
      ofDigitBytes 100 ps = ofDigitBytes 100 init * 100 + q.toNat := by
  obtain ⟨p, rest, hps, -⟩ := hform.head
  have hne : ps ≠ [] := by
    rw [hps]
    exact List.cons_ne_nil p rest
  have hsplit := List.dropLast_append_getLast hne
  have hval := ofDigitBytes_append 100 ps.dropLast [ps.getLast hne]
  rw [hsplit, ofDigitBytes_singleton, List.length_singleton, pow_one] at hval
  refine ⟨ps.dropLast, ps.getLast hne, hsplit.symm, ?_, ?_, ?_, hval⟩
  · exact fun d hd => hform.digits d (List.mem_of_mem_dropLast hd)
  · exact hform.digits _ (List.getLast_mem hne)
  · intro hzero
    refine hform.last ?_
    rw [List.getLast?_eq_getLast_of_ne_nil hne]
    exact congrArg some (UInt8.toNat_inj.mp hzero)

theorem nstNumber_le (e n : ℕ) : nstNumber e n ≤ 10 * n := by
  rw [nstNumber, Int.natAbs_natCast]
  split <;> omega

theorem nstNumber_value (e n : ℕ) :
    (nstNumber e n : ℚ) / 10 ^ (2 * ((e + 1) / 2)) = n / 10 ^ e := by
  have hpow (k : ℕ) : (10 : ℚ) ^ k ≠ 0 := pow_ne_zero _ (by norm_num)
  rw [nstNumber, Int.natAbs_natCast]
  by_cases hpar : e % 2 = 0
  · rw [if_pos hpar, show 2 * ((e + 1) / 2) = e by omega]
  · rw [if_neg hpar, show 2 * ((e + 1) / 2) = e + 1 by omega,
      div_eq_div_iff (hpow _) (hpow _), pow_succ]
    push_cast
    ring

theorem nstNumber_fits {e n m s : ℕ} (hM : nstNumber e n = m * 100 ^ s) (hn : n < 2 ^ 55)
    (hm : m < 2 ^ 55) : m * 10 ^ (2 * s - 2 * ((e + 1) / 2)) < 2 ^ 55 := by
  have hle := nstNumber_le e n
  rcases Nat.lt_or_ge ((e + 1) / 2) s with hlt | hge
  · have hsub : 2 * s - 2 * ((e + 1) / 2) = 2 * (s - (e + 1) / 2) := by omega
    rw [hsub, pow_mul]
    rcases Nat.eq_zero_or_pos e with rfl | hpos
    · have hsame : nstNumber 0 n = n := Int.natAbs_natCast n
      rw [hsame] at hM
      exact hM.symm.trans_lt hn
    · have hsplit : 100 ^ s = 100 ^ (s - (e + 1) / 2) * 100 ^ ((e + 1) / 2) := by
        rw [← pow_add, Nat.sub_add_cancel hlt.le]
      have hhundred : 100 ^ 1 ≤ 100 ^ ((e + 1) / 2) :=
        Nat.pow_le_pow_right (by decide) (by omega)
      have hmul : m * (10 ^ 2) ^ (s - (e + 1) / 2) * 100 ≤ nstNumber e n := by
        rw [hM, hsplit, ← mul_assoc]
        exact Nat.mul_le_mul_left _ hhundred
      omega
  · rw [Nat.sub_eq_zero_of_le (by omega), pow_zero, mul_one]
    exact hm

theorem NstForm.parts {M h : ℕ} (hform : NstForm M h b ps) (hb : b < 256) (neg : Bool) :
    ∃ first bytes, nstData neg ((b : ℤ) - 128) ps = first :: bytes ∧ bytes ≠ [] ∧
      (nstData neg ((b : ℤ) - 128) ps).length ≤ dfnstLen - 1 ∧
      nstSplit first bytes = (!neg, 2 * ((b : ℤ) - 128), ps) := by
  obtain ⟨p, rest, rfl, -⟩ := hform.head
  have hsize := length_nstData neg ((b : ℤ) - 128) (p :: rest)
  obtain ⟨first, bytes, hdata, hsplit⟩ := hform.split hb neg
  refine ⟨first, bytes, hdata, ?_, ?_, hsplit⟩
  · intro hnil
    rw [hdata, hnil] at hsize
    exact absurd hsize (by simp)
  · rw [hsize]
    exact Nat.succ_le_succ hform.length

theorem ite_not_sign (neg : Bool) : (if !neg then (1 : ℚ) else -1) = if neg then -1 else 1 := by
  cases neg with
  | true => rfl
  | false => rfl

/-- An encoding is read exactly when its digits fit into a mantissa. -/
theorem NstForm.read_exact {e n b : ℕ} {ps : List UInt8}
    (hform : NstForm (nstNumber e n) ((e + 1) / 2) b ps) (hb : b < 256) (he : e < 256)
    (hn : n < 2 ^ 55) (neg : Bool) (hfit : ofDigitBytes 100 ps < 2 ^ 55) :
    ∃ d', dflNsttodfl (nstVa (nstData neg ((b : ℤ) - 128) ps)) = some d' ∧ d'.Valid ∧
      d'.value = (if neg then -1 else 1) * (n / 10 ^ e) := by
  obtain ⟨s, hM, hexp, hs⟩ := hform.sum
  obtain ⟨first, bytes, hdata, hne, hlen, hsplit⟩ := hform.parts hb neg
  have hzero : 0 * 100 ^ ps.length + ofDigitBytes 100 ps < 2 ^ 55 := by omega
  -- an odd number of 255 places ends with a zero
  have hlow : 2 * ((e + 1) / 2) ≤ 2 * s + 255 ∨
      (2 * ((e + 1) / 2) = 2 * s + 256 ∧ 10 ∣ ofDigitBytes 100 ps) := by
    by_cases hmax : e = 255 ∧ s = 0
    · refine Or.inr ⟨by omega, n, ?_⟩
      rw [hmax.2, pow_zero, mul_one] at hM
      rw [← hM, nstNumber, hmax.1, Int.natAbs_natCast]
      rfl
    · exact Or.inl (by omega)
  obtain ⟨d, hmant, his⟩ := nstMantissa_append (2 * ((b : ℤ) - 128)) dfZero_is
    hform.digits hzero []
  rw [List.append_nil, nstMantissa] at hmant
  rw [zero_mul, zero_add] at his
  have hread := dflNsttodfl_of_split (i := 2 * s) (j := 2 * ((e + 1) / 2)) hdata hne hlen hsplit
    (by rw [hmant]; exact his)
    (by
      rw [hmant]
      push_cast
      omega)
    (by omega) (nstNumber_fits hM hn hfit) hlow
  obtain ⟨d', hread, hvalid, hd'⟩ := hread
  refine ⟨d', hread, hvalid, ?_⟩
  rw [hd', ite_not_sign, ← nstNumber_value e n, hM, pow_mul 10 2 s,
    show (10 : ℕ) ^ 2 = 100 from rfl]

theorem NstForm.read_lost {e n b : ℕ} {ps : List UInt8}
    (hform : NstForm (nstNumber e n) ((e + 1) / 2) b ps) (hb : b < 256) (he : e < 256)
    (hn : n < 2 ^ 55) (neg : Bool) (hbig : 2 ^ 55 ≤ ofDigitBytes 100 ps) :
    ∃ d', dflNsttodfl (nstVa (nstData neg ((b : ℤ) - 128) ps)) = some d' ∧
      d'.value ≠ (if neg then -1 else 1) * (n / 10 ^ e) := by
  obtain ⟨s, hM, hexp, hs⟩ := hform.sum
  have hle := nstNumber_le e n
  obtain ⟨first, bytes, hdata, hne, hlen, hsplit⟩ := hform.parts hb neg
  obtain rfl : s = 0 := by
    by_contra hs0
    have hhundred : 100 ^ 1 ≤ 100 ^ s := Nat.pow_le_pow_right (by decide) (by omega)
    have hmul := Nat.mul_le_mul_left (ofDigitBytes 100 ps) hhundred
    omega
  rw [pow_zero, mul_one] at hM
  have hodd : e % 2 ≠ 0 := by
    intro hpar
    rw [nstNumber, if_pos hpar, Int.natAbs_natCast] at hM
    omega
  obtain ⟨init, q, hinit, hdigits, hq, hq0, hnum⟩ := hform.last_digit
  have hsmall : ofDigitBytes 100 init < 2 ^ 55 := by omega
  have hzero : 0 * 100 ^ init.length + ofDigitBytes 100 init < 2 ^ 55 := by omega
  obtain ⟨d, hmant, his⟩ := nstMantissa_append (2 * ((b : ℤ) - 128)) dfZero_is
    hdigits hzero [q]
  rw [zero_mul, zero_add] at his
  rw [← hinit, nstMantissa_full his (Int.natCast_nonneg _) hq (by
    rw [hnum] at hbig
    exact_mod_cast hbig)] at hmant
  have hcount : ps.length = init.length + 1 := by
    rw [hinit, List.length_append, List.length_singleton]
  have hread := dflNsttodfl_of_split (i := 2) (j := 2 * ((e + 1) / 2)) hdata hne hlen hsplit
    (by rw [hmant]; exact his)
    (by
      rw [hmant]
      push_cast
      omega)
    (by omega) (by
      rw [Nat.sub_eq_zero_of_le (by omega), pow_zero, mul_one]
      exact hsmall) (Or.inl (by omega))
  obtain ⟨d', hread, -, hd'⟩ := hread
  refine ⟨d', hread, ?_⟩
  rw [hd', ite_not_sign, ← nstNumber_value e n, hM, hnum]
  intro heq
  have hunit : (if neg then (-1 : ℚ) else 1) ≠ 0 := by
    cases neg with
    | true => exact neg_ne_zero.mpr one_ne_zero
    | false => exact one_ne_zero
  have hdiv := mul_left_cancel₀ hunit heq
  rw [div_left_inj' (pow_ne_zero _ (by norm_num))] at hdiv
  have hnat : ofDigitBytes 100 init * 10 ^ 2 = ofDigitBytes 100 init * 100 + q.toNat := by
    exact_mod_cast hdiv
  omega

/-- In terms of the decimal: an odd number of places needs room for one more digit. -/
theorem NstForm.fits_iff {e b : ℕ} {v : ℤ} {ps : List UInt8}
    (hform : NstForm (nstNumber e v) ((e + 1) / 2) b ps) (hv : v.natAbs < 2 ^ 55) :
    ofDigitBytes 100 ps < 2 ^ 55 ↔
      (e % 2 = 1 → (10 : ℤ) ∣ v ∨ 10 * v.natAbs < 2 ^ 55) := by
  obtain ⟨s, hM, -, -⟩ := hform.sum
  have hpos : 0 < 100 ^ s := Nat.pow_pos (by decide)
  have hle : ofDigitBytes 100 ps ≤ nstNumber e v := by
    rw [hM]
    exact Nat.le_mul_of_pos_right _ hpos
  rw [nstNumber] at hM hle
  by_cases hpar : e % 2 = 0
  · rw [if_pos hpar] at hle
    exact iff_of_true (hle.trans_lt hv) (by omega)
  · rw [if_neg hpar] at hM hle
    rcases Nat.eq_zero_or_pos s with rfl | hs
    · -- the last pair of digits is not zero
      rw [pow_zero, mul_one] at hM
      obtain ⟨init, q, -, -, hq, hq0, hnum⟩ := hform.last_digit
      rw [← hM]
      constructor
      · exact fun hlt _ => Or.inr hlt
      · intro hcond
        rcases hcond (by omega) with hdvd | hlt
        · omega
        · exact hlt
    · have hhundred : 100 ^ 1 ≤ 100 ^ s := Nat.pow_le_pow_right (by decide) hs
      have hmul := Nat.mul_le_mul_left (ofDigitBytes 100 ps) hhundred
      obtain ⟨t, ht⟩ := pow_dvd_pow 100 hs
      have hdvd : 10 * v.natAbs = 100 * (ofDigitBytes 100 ps * t) := by
        rw [hM, ht]
        ring
      refine iff_of_true (by omega) fun _ => Or.inl ?_
      omega

end SolidDB
