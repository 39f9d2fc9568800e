import SolidDB.Dt.Dfl
import SolidDB.Foundation.DigitBytes

/-!
# Decimals as v-attributes

`dfl_dfltonst` writes a decimal as a v-attribute for the index: a sign bit, the exponent to
base 100 and the digits to base 100 of a mantissa below one, from the first one on.
`dfl_nsttodfl` reads it back.
-/

namespace SolidDB

def dfnstLen : ℕ := 11

/-! ## Encoding -/

/-- The variables of `dfl_dfltonst`. The digits are those from `nst[i + 1]` on. -/
structure NstState where
  df : Dfl
  exp : ℤ
  allzeros : Bool
  digits : List UInt8

namespace NstState

/-- A digit in front. Zeros at the end are left out. -/
def push (remainder : ℕ) (st : NstState) : Option NstState :=
  if st.allzeros && remainder == 0 then some st
  else if dfnstLen < st.digits.length then none
  else
    some { st with allzeros := false, digits := UInt8.ofNat remainder :: st.digits }

def even (st : NstState) : Option NstState :=
  if st.exp % 2 = 0 then some st
  else
    (dfMdiv10 { st.df with exp := 1 }).bind fun r =>
      { st with df := r.1, exp := st.exp + 1 }.push (10 * r.2)

def loop : ℕ → NstState → Option NstState
  | 0, _ => none
  | fuel + 1, st =>
    if dfEqzero st.df then some st
    else
      (dfMdiv10 { st.df with exp := 2 }).bind fun r =>
        (dfMdiv10 r.1).bind fun r' =>
          ({ st with df := r'.1, exp := st.exp + 2 }.push (r.2 + 10 * r'.2)).bind (loop fuel)

end NstState

/-- The first byte of the digits carries the last bit of the exponent. -/
def nstDigits (biased : UInt8) : List UInt8 → List UInt8
  | [] => []
  | d :: ds => (if biased &&& 1 ≠ 0 then d ||| 0x80 else d &&& 0x7F) :: ds

/-- The data of the v-attribute. A negative one is in two's complement except for the sign
bit. -/
def nstData (sign : Bool) (exp : ℤ) (digits : List UInt8) : List UInt8 :=
  let biased := UInt8.ofNat (exp + 128).toNat
  let first := (biased >>> 1) ||| (biased &&& 0x80)
  let digits := nstDigits biased digits
  if sign then
    (((negateBytes (first :: digits)).1.headD 0) &&& 0x7F) :: (negateBytes (first :: digits)).1.tail
  else (first ||| 0x80) :: digits

def nstVa (data : List UInt8) : List UInt8 := UInt8.ofNat data.length :: data

/-- `dfl_dfltonst`, `none` when an assertion fails or the rounds do not suffice. -/
def dflDfltonst (fuel : ℕ) (df : Dfl) : Option (List UInt8) :=
  if dflOverflow df then some (nstVa [])
  else if dfEqzero df then some (nstVa [0x80])
  else
    let tmp := if df.neg then dflChangeSign df else df
    (NstState.even ⟨tmp, -(tmp.exp : ℤ), true, []⟩).bind fun st =>
      (st.loop fuel).bind fun st =>
        let exp := st.exp / 2
        if st.exp % 2 = 0 ∧ -128 ≤ exp ∧ exp ≤ 127 then
          let data := nstData df.neg exp st.digits
          if data.length ≤ dfnstLen then some (nstVa data) else none
        else none

/-! ## Decoding -/

/-- The digits to base 100 are added to the mantissa as long as it does not overflow. -/
def nstMantissa : List UInt8 → ℤ → Dfl → Dfl × ℤ
  | [], exp, df => (df, exp)
  | d :: ds, exp, df =>
    let df₁ := dfMulint df 100
    if df₁.len = 0 then (df, exp)
    else
      let df₂ := dfMaddint df₁ d.toNat
      if df₂.neg then
        if dflMaxlen ≤ df₂.len then (df, exp)
        else nstMantissa ds (exp - 2) (dfIncsize df₂)
      else nstMantissa ds (exp - 2) df₂

def nstRaise : ℕ → Dfl → Option Dfl
  | 0, df => some df
  | n + 1, df =>
    let df₁ := dfMulint df 10
    if df₁.len = 0 then none else nstRaise n { df₁ with exp := df₁.exp + 1 }

def nstLower : ℕ → Dfl → Option Dfl
  | 0, df => some df
  | n + 1, df => (dfMdiv10 { df with exp := 1 }).bind fun r => nstLower n r.1

def nstSplit (first : UInt8) (rest : List UInt8) : Bool × ℤ × List UInt8 :=
  let signbit := 128 ≤ first.toNat
  let first := if signbit then first else first ^^^ 0x7F
  let rest := if signbit then rest else (negateBytes rest).1
  let first := first ^^^ 0x40
  let lastExp := 128 ≤ (rest.headD 0).toNat
  let expchar := ((first &&& 0x7F) <<< 1) ||| (if lastExp then 1 else 0)
  (signbit, (expchar.toNat : ℤ).bmod 256 * 2, (rest.headD 0 &&& 0x7F) :: rest.tail)

/-- `dfl_nsttodfl`, `none` when an assertion fails. -/
def dflNsttodfl (nst : List UInt8) : Option Dfl :=
  match nst.tail.take (min (nst.headD 0).toNat (dfnstLen - 1)) with
  | [] => some dflNan
  | [_] => some dfZero
  | first :: rest =>
    let r := nstSplit first rest
    let m := nstMantissa r.2.2 r.2.1 dfZero
    match nstRaise m.2.toNat m.1 with
    | none => some dflNan
    | some df =>
      (nstLower (-255 - m.2).toNat df).bind fun df =>
        let df : Dfl := { df with exp := (-m.2 - max (-255 - m.2) 0).toNat % 256 }
        dfNormalize (if r.1 then df else dflChangeSign df)

/-! ## The digits of an encoding -/

@[simp] theorem length_nstDigits (biased : UInt8) (ds : List UInt8) :
    (nstDigits biased ds).length = ds.length := by
  cases ds with
  | nil => rfl
  | cons d ds => rfl

theorem length_nstData (sign : Bool) (exp : ℤ) (ds : List UInt8) :
    (nstData sign exp ds).length = ds.length + 1 := by
  rw [nstData]
  cases sign with
  | true =>
      simp only [if_true, List.length_cons, List.length_tail, length_negateBytes,
        length_nstDigits, Nat.add_sub_cancel]
  | false =>
      simp only [Bool.false_eq_true, if_false, List.length_cons, length_nstDigits]

/-- The decimal places are made even, so a digit is put behind when they are odd. -/
def nstNumber (e : ℕ) (v : ℤ) : ℕ := if e % 2 = 0 then v.natAbs else 10 * v.natAbs

/-- The digits to base 100 that are in front of and in the state of the encoder: the number
`M` with `h` places to base 100 has `v` and the digits. -/
structure NstPart (M h v : ℕ) (st : NstState) : Prop where
  sum : ∃ s, M = v * 100 ^ (st.digits.length + s) + ofDigitBytes 100 st.digits * 100 ^ s ∧
    st.exp = 2 * (st.digits.length + s : ℕ) - 2 * h
  allzeros : st.allzeros = true ↔ st.digits = []
  digits : DigitBytes 100 st.digits
  last : NoLastZero st.digits
  head : v = 0 → st.digits.head? ≠ some 0

/-- The next digit goes in front unless it is a zero behind all other digits. -/
theorem NstPart.push {M h v : ℕ} {st : NstState} (hpart : NstPart M h v st) (hv : 0 < v)
    (hlen : st.digits.length ≤ dfnstLen) (df : Dfl) :
    ∃ st', ({ st with df := df, exp := st.exp + 2 } : NstState).push (v % 100) = some st' ∧
      st'.df = df ∧ NstPart M h (v / 100) st' := by
  obtain ⟨s, hsum, hexp⟩ := hpart.sum
  have hdiv := Nat.div_add_mod v 100
  have hmod := Nat.mod_lt v (show 0 < 100 by decide)
  rw [NstState.push]
  split
  next hzero =>
    rw [Bool.and_eq_true, beq_iff_eq] at hzero
    have hnil := hpart.allzeros.mp hzero.1
    refine ⟨_, rfl, rfl, ⟨s + 1, ?_, ?_⟩, hpart.allzeros, hpart.digits, hpart.last,
      fun _ => ?_⟩
    · simp only [hnil, List.length_nil, zero_add, ofDigitBytes_nil, zero_mul, add_zero] at hsum ⊢
      have hv' : v = 100 * (v / 100) := by omega
      rw [hsum, pow_succ]
      nth_rewrite 1 [hv']
      ring
    · simp only [hexp]
      push_cast
      ring
    · simp only [hnil, List.head?_nil]
      exact Option.some_ne_none 0 ∘ Eq.symm
  next hzero =>
    rw [if_neg (not_lt.mpr hlen)]
    have hbyte : (UInt8.ofNat (v % 100)).toNat = v % 100 := by
      rw [toNat_ofNat_byte]
      omega
    refine ⟨_, rfl, rfl, ⟨s, ?_, ?_⟩, ?_, ?_, ?_, fun hv' => ?_⟩
    · simp only [ofDigitBytes_cons, hbyte, List.length_cons]
      rw [hsum, pow_add, pow_add, pow_succ]
      nth_rewrite 1 [← hdiv]
      ring
    · simp only [hexp, List.length_cons]
      push_cast
      ring
    · exact iff_of_false Bool.false_ne_true (List.cons_ne_nil _ _)
    · refine hpart.digits.cons ?_
      rw [hbyte]
      exact hmod
    · intro hlast
      cases hds : st.digits with
      | nil =>
          simp only [hds] at hlast
          have hzero' : UInt8.ofNat (v % 100) = 0 := Option.some.inj hlast
          have hdigit := congrArg UInt8.toNat hzero'
          rw [hbyte] at hdigit
          refine hzero ?_
          rw [Bool.and_eq_true, beq_iff_eq]
          exact ⟨hpart.allzeros.mpr hds, hdigit⟩
      | cons d ds =>
          have hold := hpart.last
          simp only [hds] at hlast
          rw [hds] at hold
          exact hold hlast
    · intro hhead
      have hdigit := congrArg UInt8.toNat (Option.some.inj hhead)
      rw [hbyte, UInt8.toNat_zero] at hdigit
      omega

theorem NstPart.length_lt {M h v n : ℕ} {st : NstState} (hpart : NstPart M h v st) (hv : 0 < v)
    (hM : M < 100 ^ n) : st.digits.length < n := by
  obtain ⟨s, hsum, -⟩ := hpart.sum
  have hle : 100 ^ st.digits.length ≤ M := by
    calc 100 ^ st.digits.length ≤ 100 ^ (st.digits.length + s) :=
          Nat.pow_le_pow_right (by decide) (Nat.le_add_right _ _)
      _ ≤ v * 100 ^ (st.digits.length + s) := Nat.le_mul_of_pos_left _ hv
      _ ≤ M := by
          rw [hsum]
          exact Nat.le_add_right _ _
  exact (Nat.pow_lt_pow_iff_right (by decide)).mp (hle.trans_lt hM)

theorem NstState.loop_part {M h v fuel : ℕ} {st : NstState} (hpart : NstPart M h v st)
    (his : st.df.Is st.df.exp v) (hc : st.df.Compact ∨ 0 < v) (hM : M < 100 ^ 9)
    (hfuel : v < 100 ^ fuel) : ∃ st', st.loop (fuel + 1) = some st' ∧ NstPart M h 0 st' := by
  induction fuel generalizing st v with
  | zero =>
      obtain rfl : v = 0 := Nat.lt_one_iff.mp hfuel
      have hzero := (dfEqzero_iff his (hc.resolve_right (lt_irrefl 0))).mpr rfl
      exact ⟨st, by rw [NstState.loop, if_pos hzero], hpart⟩
  | succ fuel ih =>
      rw [NstState.loop]
      by_cases hzero : dfEqzero st.df = true
      · have hv := eq_zero_of_dfEqzero his hzero
        rw [if_pos hzero]
        exact ⟨st, rfl, by rwa [Nat.cast_eq_zero.mp hv] at hpart⟩
      · have hv : 0 < v := by
          refine hc.elim (fun hcompact => Nat.pos_of_ne_zero fun h0 => hzero ?_) id
          exact (dfEqzero_iff his hcompact).mpr (by rw [h0, Nat.cast_zero])
        obtain ⟨d₁, hdiv₁, his₁, -⟩ :=
          dfMdiv10_of_nonneg (his.with_exp (1 + 1) (by decide)) (Int.natCast_nonneg v)
        obtain ⟨d₂, hdiv₂, his₂, hc₂⟩ :=
          dfMdiv10_of_nonneg (e := 0) his₁ (by omega)
        have hpair : ((v : ℤ) % 10).toNat + 10 * ((v : ℤ) / 10 % 10).toNat = v % 100 := by omega
        have hquot : (v : ℤ) / 10 / 10 = (v / 100 : ℕ) := by omega
        have hlen := (hpart.length_lt hv hM).le.trans (show 9 ≤ dfnstLen by decide)
        obtain ⟨st', hpush, hdf, hpart'⟩ := hpart.push hv hlen d₂
        rw [if_neg hzero, hdiv₁, Option.bind_some, hdiv₂, Option.bind_some]
        simp only [hpair]
        rw [hpush, Option.bind_some]
        rw [hquot] at his₂
        refine ih hpart' ?_ (Or.inl ?_) ?_
        · rw [hdf, his₂.exp_eq]
          exact his₂
        · rw [hdf]
          exact hc₂
        · rw [pow_succ] at hfuel
          omega

/-- The encoding of a number `M` with `h` places to base 100: the biased exponent `b` and the
digits, without zeros in front or at the end. -/
structure NstForm (M h b : ℕ) (ps : List UInt8) : Prop where
  digits : DigitBytes 100 ps
  head : ∃ p rest, ps = p :: rest ∧ p ≠ 0
  last : NoLastZero ps
  length : ps.length ≤ 9
  sum : ∃ s, M = ofDigitBytes 100 ps * 100 ^ s ∧ b + h = ps.length + s + 128 ∧
    ps.length + s ≤ 9

theorem NstPart.form {M h : ℕ} {st : NstState} (hpart : NstPart M h 0 st) (hM : M ≠ 0)
    (hM' : M < 100 ^ 9) (hh : h ≤ 128) :
    ∃ b : ℕ, st.exp = 2 * ((b : ℤ) - 128) ∧ b < 256 ∧ NstForm M h b st.digits := by
  obtain ⟨s, hsum, hexp⟩ := hpart.sum
  rw [zero_mul, zero_add] at hsum
  obtain ⟨p, rest, hps⟩ : ∃ p rest, st.digits = p :: rest := by
    refine List.exists_cons_of_ne_nil fun hnil => hM ?_
    rw [hsum, hnil, ofDigitBytes_nil, zero_mul]
  have hp : p ≠ 0 := fun h0 => hpart.head rfl (by rw [hps, h0, List.head?_cons])
  have hlow : 100 ^ rest.length ≤ ofDigitBytes 100 st.digits := by
    rw [hps, ofDigitBytes_cons]
    refine (Nat.le_mul_of_pos_left _ ?_).trans (Nat.le_add_right _ _)
    exact Nat.pos_of_ne_zero fun h0 => hp (UInt8.toNat_inj.mp h0)
  have hlen : st.digits.length + s ≤ 9 := by
    have hle : 100 ^ (rest.length + s) ≤ M := by
      rw [hsum, pow_add]
      exact Nat.mul_le_mul_right _ hlow
    have hlt := (Nat.pow_lt_pow_iff_right (by decide)).mp (hle.trans_lt hM')
    rw [hps, List.length_cons]
    omega
  refine ⟨st.digits.length + s + 128 - h, ?_, ?_, hpart.digits, ⟨p, rest, hps, hp⟩, hpart.last,
    ?_, s, hsum, ?_, hlen⟩
  · rw [hexp]
    omega
  · omega
  · omega
  · omega

theorem nstNumber_bounds {d : Dfl} {e : ℕ} {v : ℤ} (h : d.Is e v) (h0 : v ≠ 0) :
    nstNumber e v ≠ 0 ∧ nstNumber e v < 100 ^ 9 := by
  have hb := h.bounds
  rw [nstNumber]
  split
  next => constructor <;> omega
  next => constructor <;> omega

theorem NstState.even_part {d : Dfl} {e : ℕ} {n : ℕ} (h : d.Is e n) (h0 : 0 < n)
    (hn : n < 2 ^ 55) : ∃ st v, NstState.even ⟨d, -(e : ℤ), true, []⟩ = some st ∧
      NstPart (nstNumber e n) ((e + 1) / 2) v st ∧ st.df.Is st.df.exp v ∧
      (st.df.Compact ∨ 0 < v) ∧ v < 100 ^ 9 := by
  have hnil : NoLastZero [] := Option.some_ne_none 0 ∘ Eq.symm
  have hnone : ∀ v : ℕ, v = 0 → ([] : List UInt8).head? ≠ some 0 := fun _ _ =>
    Option.some_ne_none 0 ∘ Eq.symm
  rw [NstState.even]
  by_cases hpar : e % 2 = 0
  · have hpar' : -(e : ℤ) % 2 = 0 := by omega
    rw [if_pos hpar']
    refine ⟨_, n, rfl, ⟨⟨0, ?_, ?_⟩, iff_of_true rfl rfl, ?_, hnil, hnone _⟩, ?_, Or.inr h0, ?_⟩
    · rw [nstNumber, if_pos hpar, Int.natAbs_natCast]
      simp only [List.length_nil, add_zero, pow_zero, mul_one, ofDigitBytes_nil]
    · simp only [List.length_nil, add_zero, Nat.cast_zero, mul_zero, zero_sub]
      omega
    · exact fun x hx => absurd hx List.not_mem_nil
    · rw [h.exp_eq]
      exact h
    · omega
  · have hpar' : ¬ -(e : ℤ) % 2 = 0 := by omega
    obtain ⟨d₁, hdiv, his, hc⟩ :=
      dfMdiv10_of_nonneg (h.with_exp (0 + 1) (by decide)) (Int.natCast_nonneg n)
    have hpart : NstPart (nstNumber e n) ((e + 1) / 2) (10 * n) ⟨d₁, -(e : ℤ) - 1, true, []⟩ := by
      refine ⟨⟨0, ?_, ?_⟩, iff_of_true rfl rfl, ?_, hnil, hnone _⟩
      · rw [nstNumber, if_neg hpar, Int.natAbs_natCast]
        simp only [List.length_nil, add_zero, pow_zero, mul_one, ofDigitBytes_nil]
      · simp only [List.length_nil, add_zero, Nat.cast_zero, mul_zero, zero_sub]
        omega
      · exact fun x hx => absurd hx List.not_mem_nil
    obtain ⟨st, hpush, hdf, hpart'⟩ := hpart.push (by omega) (Nat.zero_le _) d₁
    have hrem : 10 * ((n : ℤ) % 10).toNat = 10 * n % 100 := by omega
    have hplus : -(e : ℤ) - 1 + 2 = -(e : ℤ) + 1 := by ring
    have hquot : (n : ℤ) / 10 = (10 * n / 100 : ℕ) := by omega
    rw [if_neg hpar', hdiv, Option.bind_some]
    simp only [hrem]
    simp only [hplus] at hpush
    refine ⟨st, _, hpush, hpart', ?_, Or.inl ?_, ?_⟩
    · rw [hdf, his.exp_eq, ← hquot]
      exact his
    · rw [hdf]
      exact hc
    · omega

/-- The mantissa that is encoded: an overflow that keeps its bytes is left as it is. -/
theorem dflDfltonst_eq {d : Dfl} (h : d.Valid) (h0 : ¬ dfEqzero d = true) (fuel : ℕ) :
    dflDfltonst fuel d =
      (NstState.even ⟨if d.neg then dflChangeSign d else d, -(d.exp : ℤ), true, []⟩).bind fun st =>
        (st.loop fuel).bind fun st =>
          if st.exp % 2 = 0 ∧ -128 ≤ st.exp / 2 ∧ st.exp / 2 ≤ 127 then
            if (nstData d.neg (st.exp / 2) st.digits).length ≤ dfnstLen then
              some (nstVa (nstData d.neg (st.exp / 2) st.digits))
            else none
          else none := by
  have hexp : (if d.neg then dflChangeSign d else d).exp = d.exp := by
    by_cases hmin : d.coef = -2 ^ 55
    · rw [dflChangeSign_min ⟨h, rfl, hmin⟩, apply_ite Dfl.exp, ite_self]
    · exact (absDfl_is h.is hmin).exp_eq
  have hnov : ¬ dflOverflow d = true := by
    rw [h.not_overflow]
    exact Bool.false_ne_true
  rw [dflDfltonst, if_neg hnov, if_neg h0]
  simp only [hexp]

/-- A decimal other than zero has an encoding unless it has no negation. -/
theorem dflDfltonst_form {d : Dfl} {e : ℕ} {v : ℤ} (h : d.Is e v) (hv : v ≠ -2 ^ 55)
    (h0 : v ≠ 0) {fuel : ℕ} (hfuel : 10 ≤ fuel) : ∃ (b : ℕ) (ps : List UInt8), b < 256 ∧
      NstForm (nstNumber e v) ((e + 1) / 2) b ps ∧
      dflDfltonst fuel d = some (nstVa (nstData d.neg ((b : ℤ) - 128) ps)) := by
  obtain ⟨fuel, rfl⟩ : ∃ n, fuel = n + 1 := ⟨fuel - 1, by omega⟩
  have hb := h.bounds
  have hexp := h.valid.exp_lt
  obtain ⟨hM, hM'⟩ := nstNumber_bounds h h0
  rw [h.exp_eq] at hexp
  obtain ⟨st, v', hst, hpart, his, hc, hv'⟩ :=
    NstState.even_part (absDfl_is h hv) (Int.natAbs_pos.mpr h0) (by omega)
  have hnumber : nstNumber e v.natAbs = nstNumber e v := by
    rw [nstNumber, nstNumber, Int.natAbs_natCast]
  rw [hnumber] at hpart
  have hfuel' : v' < 100 ^ fuel :=
    hv'.trans_le (Nat.pow_le_pow_right (by decide) (Nat.le_of_succ_le_succ hfuel))
  obtain ⟨st', hloop, hend⟩ := NstState.loop_part hpart his hc hM' hfuel'
  obtain ⟨b, hbexp, hb256, hform⟩ := hend.form hM hM' (by omega)
  have hhalf : st'.exp / 2 = (b : ℤ) - 128 := by omega
  have hrange : st'.exp % 2 = 0 ∧ -128 ≤ (b : ℤ) - 128 ∧ (b : ℤ) - 128 ≤ 127 := by omega
  have hlen : (nstData d.neg ((b : ℤ) - 128) st'.digits).length ≤ dfnstLen := by
    rw [length_nstData]
    exact (Nat.succ_le_succ hform.length).trans (by decide)
  refine ⟨b, st'.digits, hb256, hform, ?_⟩
  rw [dflDfltonst_eq h.valid fun hz => h0 (eq_zero_of_dfEqzero h hz), h.exp_eq, hst,
    Option.bind_some, hloop, Option.bind_some, hhalf, if_pos hrange, if_pos hlen]

theorem NstState.push_zero (df : Dfl) (exp : ℤ) :
    (⟨df, exp, true, []⟩ : NstState).push 0 = some ⟨df, exp, true, []⟩ := rfl

theorem dflDfltonst_zero {d : Dfl} (h : d.Valid) (h0 : d.coef = 0)
    (hz : ¬ dfEqzero d = true) {fuel : ℕ} (hfuel : 2 ≤ fuel) :
    dflDfltonst fuel d = some (nstVa (nstData false (1 - ((d.exp + 1) / 2 : ℕ)) [])) := by
  obtain ⟨fuel, rfl⟩ : ∃ n, fuel = n + 2 := ⟨fuel - 2, by omega⟩
  have his : d.Is d.exp (0 : ℤ) := ⟨h, rfl, h0⟩
  have hexp := h.exp_lt
  have hneg := his.neg_eq_false le_rfl
  have hrun : ∃ df, ((NstState.even ⟨d, -(d.exp : ℤ), true, []⟩).bind
      (NstState.loop (fuel + 2))) = some ⟨df, 2 * (1 - ((d.exp + 1) / 2 : ℕ)), true, []⟩ := by
    rw [NstState.even]
    by_cases hpar : d.exp % 2 = 0
    · have hpar' : -(d.exp : ℤ) % 2 = 0 := by omega
      have hplus : -(d.exp : ℤ) + 2 = 2 * (1 - ((d.exp + 1) / 2 : ℕ)) := by omega
      obtain ⟨d₁, hdiv₁, his₁, -⟩ :=
        dfMdiv10_of_nonneg (his.with_exp (1 + 1) (by decide)) le_rfl
      obtain ⟨d₂, hdiv₂, his₂, hc₂⟩ := dfMdiv10_of_nonneg (e := 0) his₁ le_rfl
      have hzero := (dfEqzero_iff his₂ hc₂).mpr rfl
      refine ⟨d₂, ?_⟩
      rw [if_pos hpar', Option.bind_some, NstState.loop, if_neg hz, hdiv₁, Option.bind_some,
        hdiv₂, Option.bind_some]
      refine (congrArg (Option.bind · _) (NstState.push_zero d₂ _)).trans ?_
      rw [Option.bind_some, NstState.loop, if_pos hzero, hplus]
    · have hpar' : ¬ -(d.exp : ℤ) % 2 = 0 := by omega
      have hplus : -(d.exp : ℤ) + 1 = 2 * (1 - ((d.exp + 1) / 2 : ℕ)) := by omega
      obtain ⟨d₁, hdiv, his₁, hc⟩ :=
        dfMdiv10_of_nonneg (his.with_exp (0 + 1) (by decide)) le_rfl
      have hzero := (dfEqzero_iff his₁ hc).mpr rfl
      refine ⟨d₁, ?_⟩
      rw [if_neg hpar', hdiv, Option.bind_some]
      refine (congrArg (Option.bind · _) (NstState.push_zero d₁ _)).trans ?_
      rw [Option.bind_some, NstState.loop, if_pos hzero, hplus]
  obtain ⟨df, hrun⟩ := hrun
  have hhalf : 2 * (1 - ((d.exp + 1) / 2 : ℕ) : ℤ) / 2 = 1 - ((d.exp + 1) / 2 : ℕ) := by omega
  have hrange : 2 * (1 - ((d.exp + 1) / 2 : ℕ) : ℤ) % 2 = 0 ∧
      (-128 : ℤ) ≤ 1 - ((d.exp + 1) / 2 : ℕ) ∧ (1 - ((d.exp + 1) / 2 : ℕ) : ℤ) ≤ 127 := by omega
  rw [dflDfltonst_eq h hz, hneg, if_neg Bool.false_ne_true, ← Option.bind_assoc, hrun,
    Option.bind_some, hhalf, if_pos hrange, if_pos]
  rw [length_nstData]
  exact (show 0 + 1 ≤ dfnstLen by decide)

theorem dflDfltonst_min {d : Dfl} (h : d.Valid) (hmin : d.coef = -2 ^ 55) (fuel : ℕ) :
    dflDfltonst fuel d = none := by
  have his : d.Is d.exp (-2 ^ 55) := ⟨h, rfl, hmin⟩
  obtain ⟨hcompact, hbytes⟩ := compact_of_min his
  have hneg : d.neg = true := his.neg_iff.mpr (by norm_num)
  have hz : ¬ dfEqzero d = true := fun hz => absurd (eq_zero_of_dfEqzero his hz) (by norm_num)
  have hdiv (k : ℕ) : dfMdiv10 ⟨0, k + 1, d.mant⟩ = some (⟨0, k, d.mant⟩, 0) :=
    dfMdiv10_of_lowest rfl rfl hbytes hcompact
  have hnz (e : ℕ) : ¬ dfEqzero ⟨0, e, d.mant⟩ = true := Bool.false_ne_true
  have hloop (e : ℕ) (exp : ℤ) : NstState.loop fuel ⟨⟨0, e, d.mant⟩, exp, true, []⟩ = none := by
    induction fuel generalizing e exp with
    | zero => rfl
    | succ fuel ih =>
        rw [NstState.loop, if_neg (hnz e), hdiv, Option.bind_some, hdiv, Option.bind_some]
        refine (congrArg (Option.bind · _) (NstState.push_zero _ _)).trans ?_
        exact ih 0 (exp + 2)
  rw [dflDfltonst_eq h hz, hneg, if_pos rfl, dflChangeSign_min his, NstState.even]
  by_cases hpar : -(d.exp : ℤ) % 2 = 0
  · rw [if_pos hpar, Option.bind_some, hloop]
    rfl
  · rw [if_neg hpar, hdiv, Option.bind_some]
    refine (congrArg (Option.bind · _) (NstState.push_zero _ _)).trans ?_
    rw [Option.bind_some, hloop]
    rfl

/-! ## The bytes of an encoding -/

theorem forall_byte {P : UInt8 → Prop} (h : ∀ n : Fin 256, P ⟨⟨n⟩⟩) (b : UInt8) : P b := h b.toFin

theorem byte_table (b : UInt8) :
    ((b >>> 1 ||| b &&& 0x80) ||| 0x80).toNat = 128 + b.toNat / 2 ∧
      (~~~(b >>> 1 ||| b &&& 0x80) &&& 0x7F).toNat = 127 - b.toNat / 2 ∧
      (b &&& 1 ≠ 0 ↔ b.toNat % 2 = 1) ∧
      (b.toNat < 128 → (b ||| 0x80).toNat = 128 + b.toNat ∧ b &&& 0x7F = b ∧
        (b ^^^ 0x7F).toNat = 127 - b.toNat) ∧
      (b &&& 0x7F).toNat = b.toNat % 128 ∧
      (((b ^^^ 0x40) &&& 0x7F) <<< 1 ||| 0).toNat = (b.toNat % 128 * 2 + 128) % 256 ∧
      (((b ^^^ 0x40) &&& 0x7F) <<< 1 ||| 1).toNat = (b.toNat % 128 * 2 + 129) % 256 := by
  revert b
  exact forall_byte (by decide +kernel)

theorem toNat_first_pos (b : UInt8) :
    ((b >>> 1 ||| b &&& 0x80) ||| 0x80).toNat = 128 + b.toNat / 2 :=
  (byte_table b).1

theorem toNat_first_neg (b : UInt8) :
    (~~~(b >>> 1 ||| b &&& 0x80) &&& 0x7F).toNat = 127 - b.toNat / 2 :=
  (byte_table b).2.1

theorem and_one_ne_zero_iff (b : UInt8) : b &&& 1 ≠ 0 ↔ b.toNat % 2 = 1 := (byte_table b).2.2.1

theorem toNat_or_128 (b : UInt8) (hlt : b.toNat < 128) : (b ||| 0x80).toNat = 128 + b.toNat :=
  ((byte_table b).2.2.2.1 hlt).1

theorem and_127_of_lt (b : UInt8) (hlt : b.toNat < 128) : b &&& 0x7F = b :=
  ((byte_table b).2.2.2.1 hlt).2.1

/-- The first digit with the last bit of the exponent. -/
def nstHead (b : ℕ) (d : UInt8) : UInt8 := UInt8.ofNat (b % 2 * 128 + d.toNat)

theorem toNat_nstHead {d : UInt8} (b : ℕ) (hd : d.toNat < 128) :
    (nstHead b d).toNat = b % 2 * 128 + d.toNat := by
  have hb := Nat.mod_lt b (show 0 < 2 by decide)
  rw [nstHead, toNat_ofNat_byte]
  omega

theorem nstDigits_cons {b : ℕ} {d : UInt8} (hb : b < 256) (hd : d.toNat < 128)
    (ds : List UInt8) : nstDigits (UInt8.ofNat b) (d :: ds) = nstHead b d :: ds := by
  have hbyte : (UInt8.ofNat b).toNat = b := by
    rw [toNat_ofNat_byte, Nat.mod_eq_of_lt hb]
  have hodd := and_one_ne_zero_iff (UInt8.ofNat b)
  rw [hbyte] at hodd
  rw [nstDigits]
  congr 1
  rw [← UInt8.toNat_inj, toNat_nstHead b hd]
  by_cases hbit : UInt8.ofNat b &&& 1 ≠ 0
  · rw [if_pos hbit, toNat_or_128 d hd, hodd.mp hbit]
  · have heven := mt hodd.mpr hbit
    rw [if_neg hbit, and_127_of_lt d hd]
    omega

theorem nstData_pos {b : ℕ} (hb : b < 256) (ds : List UInt8) :
    nstData false ((b : ℤ) - 128) ds =
      UInt8.ofNat (128 + b / 2) :: nstDigits (UInt8.ofNat b) ds := by
  have hbias : ((b : ℤ) - 128 + 128).toNat = b := by omega
  have hbyte : (UInt8.ofNat b).toNat = b := by
    rw [toNat_ofNat_byte, Nat.mod_eq_of_lt hb]
  have hfirst := toNat_first_pos (UInt8.ofNat b)
  rw [hbyte] at hfirst
  rw [nstData]
  simp only [hbias, Bool.false_eq_true, if_false]
  congr 1
  rw [← UInt8.toNat_inj, hfirst, toNat_ofNat_byte]
  omega

theorem nstData_neg {b : ℕ} {ds : List UInt8} (hb : b < 256)
    (hds : (negateBytes (nstDigits (UInt8.ofNat b) ds)).2 = false) :
    nstData true ((b : ℤ) - 128) ds =
      UInt8.ofNat (127 - b / 2) :: (negateBytes (nstDigits (UInt8.ofNat b) ds)).1 := by
  have hbias : ((b : ℤ) - 128 + 128).toNat = b := by omega
  have hbyte : (UInt8.ofNat b).toNat = b := by
    rw [toNat_ofNat_byte, Nat.mod_eq_of_lt hb]
  have hfirst := toNat_first_neg (UInt8.ofNat b)
  rw [hbyte] at hfirst
  rw [nstData]
  simp only [hbias, if_true, negateBytes, hds, Bool.false_eq_true, if_false, List.headD_cons,
    List.tail_cons]
  congr 1
  rw [← UInt8.toNat_inj, hfirst, toNat_ofNat_byte]
  omega

end SolidDB
