import SolidDB.Dt.DflAsciiz

/-!
# The value of a parsed text

A text of digits with a sign and a decimal point is read digit by digit. The exponent byte
holds 254 decimals, because the product with ten overflows at 255.
-/

namespace SolidDB

variable {d : Dfl} {e n : ℕ} {v : ℤ}

theorem isDecimalpoint_digitChar (d : Fin 10) : isDecimalpoint (Nat.digitChar d) = false := by
  decide +revert

/-! ## The loop -/

theorem appendDigit_is (h : d.Is e v) (hv : 0 ≤ v) (he : e < 255) (c : Fin 10)
    (hfits : v * 10 + (c : ℕ) < 2 ^ 55) : (appendDigit d c).Is (e + 1) (v * 10 + (c : ℕ)) := by
  have hc : (c : ℕ) < 128 := c.isLt.trans (by decide)
  have hmul := (dfMmul10_is h hv he).1 (by omega)
  rw [appendDigit]
  simp only [hmul.valid.not_overflow, Bool.false_eq_true, if_false]
  exact sum_is hmul (by omega) hc hfits

theorem appendDigit_of_full (h : d.Is 255 v) (hv : 0 ≤ v) (c : ℕ) :
    dflOverflow (appendDigit d c) = true := by
  have hlen := dfMmul10_of_full h hv
  have hov : dflOverflow (dfMmul10 d) = true := by
    rw [dflOverflow, hlen]
    rfl
  rw [appendDigit]
  simp only [hov, if_true]

theorem incExp_is (h : d.Is e v) (he : e < 255) : (incExp d).Is (e + 1) v := by
  have hexp : (d.exp + 1) % 256 = e + 1 := by
    rw [h.exp_eq]
    omega
  rw [incExp, hexp]
  exact h.with_exp (e + 1) (by omega)

def stateExp (point : Bool) (e : ℕ) : ℕ := if point then e + 1 else e

theorem asciiDigit_is (orgdf : Dfl) (found point : Bool) (h : d.Is e n) (c : Fin 10)
    (he : stateExp point e < 255) (hfits : n * 10 + c < 2 ^ 55) :
    ∃ d', asciiDigit orgdf ⟨d, found, point, false⟩ c = .ok ⟨d', true, point, false⟩ ∧
      d'.Is (stateExp point e) (n * 10 + c : ℕ) := by
  have hstart : (if point then incExp d else d).Is (stateExp point e) n := by
    cases point with
    | true => exact incExp_is h ((Nat.lt_succ_self e).trans he)
    | false => exact h
  have hdigit := appendDigit_is hstart (Int.natCast_nonneg n) he c (by exact_mod_cast hfits)
  have hres := decExp_is hdigit
  rw [asciiDigit]
  simp only
  rw [hdigit.valid.not_overflow, if_neg Bool.false_ne_true,
    hres.neg_eq_false (by positivity), if_neg Bool.false_ne_true]
  refine ⟨_, rfl, hres.valid, hres.exp_eq, hres.coef_eq.trans ?_⟩
  push_cast
  rfl

theorem asciiLoop_digit (orgdf : Dfl) (st : AsciiState) (c : Fin 10) (s : List Char) :
    asciiLoop orgdf st (Nat.digitChar c :: s) =
      (asciiDigit orgdf st c).bind fun st => asciiLoop orgdf st s := by
  rw [asciiLoop, isDigitChar_digitChar, Bool.true_or, if_pos rfl, asciiStep,
    isDecimalpoint_digitChar, if_neg Bool.false_ne_true, toNat_digitChar]

theorem asciiLoop_digits (orgdf : Dfl) (found point : Bool) (ds : List (Fin 10)) (s : List Char)
    (h : d.Is e n) (he : (if point then e + ds.length else e) < 255)
    (hfits : appendDigits n ds < 2 ^ 55) :
    ∃ d', asciiLoop orgdf ⟨d, found, point, false⟩ (digitText ds ++ s) =
        asciiLoop orgdf ⟨d', found || !ds.isEmpty, point, false⟩ s ∧
      d'.Is (if point then e + ds.length else e) (appendDigits n ds : ℕ) := by
  induction ds generalizing d e n found with
  | nil =>
      refine ⟨d, ?_, ?_⟩
      · rw [List.isEmpty_nil, Bool.not_true, Bool.or_false]
        rfl
      · rw [List.length_nil, add_zero, ite_self]
        exact h
  | cons c ds ih =>
      rw [List.length_cons] at he
      rw [appendDigits_cons] at hfits
      have hstep : stateExp point e < 255 := by
        cases point with
        | true => exact (Nat.add_le_add_left (Nat.le_add_left 1 ds.length) e).trans_lt he
        | false => exact he
      obtain ⟨d₁, hdigit, h₁⟩ := asciiDigit_is orgdf found point h c hstep
        ((le_appendDigits _ ds).trans_lt hfits)
      have hexp : (if point then stateExp point e + ds.length else stateExp point e) =
          if point then e + (ds.length + 1) else e := by
        cases point with
        | true => exact Nat.succ_add_eq_add_succ e ds.length
        | false => rfl
      obtain ⟨d', hloop, h'⟩ := ih true h₁ (hexp ▸ he) hfits
      rw [hexp] at h'
      refine ⟨d', ?_, h'⟩
      rw [digitText, List.map_cons, List.cons_append, asciiLoop_digit, hdigit]
      refine hloop.trans ?_
      rw [Bool.true_or, List.isEmpty_cons, Bool.not_false, Bool.or_true]

/-- The digit after 254 decimals is only used for rounding. -/
theorem asciiDigit_of_full (orgdf : Dfl) (found : Bool) (h : d.Is 254 n) (c : ℕ) :
    asciiDigit orgdf ⟨d, found, true, false⟩ c =
      if 5 ≤ c then
        if (dfMaddint d 1).neg then .error orgdf else .ok ⟨dfMaddint d 1, true, true, true⟩
      else .ok ⟨d, true, true, true⟩ := by
  have hinc := incExp_is h (by decide)
  have hov := appendDigit_of_full hinc (Int.natCast_nonneg n) c
  have hback : decExp (incExp d) = d := by
    have hexp : ((d.exp + 1) % 256 + 255) % 256 = d.exp := by
      rw [h.exp_eq]
    rw [decExp, incExp]
    simp only [hexp]
  rw [asciiDigit]
  simp only [if_true, hov]
  rw [digitTooMany]
  simp only [Bool.false_eq_true, if_false, if_true, hback]

/-! ## Texts -/

inductive TextSign where
  | none
  | plus
  | minus

inductive TextPoint where
  | none
  | period
  | comma

/-- A digit string with an optional sign and a decimal point. Its digits form a number below
`2 ^ 55`, and at most 255 of them are decimals. -/
structure DecimalText where
  sign : TextSign
  int : List (Fin 10)
  point : TextPoint
  frac : List (Fin 10)
  frac_nil : point = .none → frac = []
  digits_ne_nil : int ++ frac ≠ []
  fits : appendDigits 0 (int ++ frac) < 2 ^ 55
  frac_le : frac.length ≤ 255

def TextSign.chars : TextSign → List Char
  | .none => []
  | .plus => ['+']
  | .minus => ['-']

def TextPoint.chars : TextPoint → List Char
  | .none => []
  | .period => ['.']
  | .comma => [',']

namespace DecimalText

def body (t : DecimalText) : List Char :=
  digitText t.int ++ (t.point.chars ++ digitText t.frac)

def chars (t : DecimalText) : List Char := t.sign.chars ++ t.body

def coef (t : DecimalText) : ℤ :=
  match t.sign with
  | .minus => -(appendDigits 0 (t.int ++ t.frac) : ℕ)
  | _ => (appendDigits 0 (t.int ++ t.frac) : ℕ)

def value (t : DecimalText) : ℚ := t.coef / 10 ^ t.frac.length

end DecimalText

def Parses (s : List Char) (x : ℚ) : Prop :=
  ∀ (ssStrScanInt : List Char → Option ℤ) (orgdf : Dfl),
    ∃ d, dflAsciiztodfl ssStrScanInt orgdf s = .ok d ∧ d.Valid ∧ d.value = x

/-! ## The value of a text -/

def BodyChar (c : Char) : Prop := isDigitChar c = true ∨ isDecimalpoint c = true

theorem bodyChar_of_mem (t : DecimalText) {c : Char} (hc : c ∈ t.body) : BodyChar c := by
  have hdigit (ds : List (Fin 10)) (h : c ∈ digitText ds) : BodyChar c := by
    obtain ⟨d, -, rfl⟩ := List.mem_map.mp h
    exact Or.inl (isDigitChar_digitChar d)
  rcases List.mem_append.mp hc with hc | hc
  · exact hdigit _ hc
  · rcases List.mem_append.mp hc with hc | hc
    · right
      cases ht : t.point with
      | none =>
          rw [ht] at hc
          exact absurd hc List.not_mem_nil
      | period =>
          rw [ht] at hc
          rw [List.mem_singleton.mp hc]
          rfl
      | comma =>
          rw [ht] at hc
          rw [List.mem_singleton.mp hc]
          rfl
    · exact hdigit _ hc

theorem BodyChar.ne {c x : Char} (hc : BodyChar c) (hx : isDigitChar x = false)
    (hx' : isDecimalpoint x = false) : c ≠ x := by
  rintro rfl
  rcases hc with hc | hc
  · exact Bool.noConfusion (hc.symm.trans hx)
  · exact Bool.noConfusion (hc.symm.trans hx')

theorem dropWhile_blank {s : List Char} (h : ∀ c ∈ s, isBlankChar c = false) :
    s.dropWhile isBlankChar = s := by
  cases s with
  | nil => rfl
  | cons c s =>
      rw [List.dropWhile_cons, h c List.mem_cons_self, if_neg Bool.false_ne_true]

theorem asciiSign_of_body {s : List Char} (h : ∀ c ∈ s, BodyChar c) : asciiSign s = (false, s) := by
  cases s with
  | nil => rfl
  | cons c s =>
      have hplus := (h c List.mem_cons_self).ne (x := '+') rfl rfl
      have hminus := (h c List.mem_cons_self).ne (x := '-') rfl rfl
      rw [asciiSign]
      · exact fun s' heq => hplus (List.cons.inj heq).1
      · exact fun s' heq => hminus (List.cons.inj heq).1

theorem isBlankChar_of_body {c : Char} (h : BodyChar c) : isBlankChar c = false := by
  have h₁ := h.ne (x := ' ') rfl rfl
  have h₂ := h.ne (x := '\t') rfl rfl
  have h₃ := h.ne (x := '\n') rfl rfl
  rw [isBlankChar, decide_eq_false h₁, decide_eq_false h₂, decide_eq_false h₃]
  rfl

def DecimalText.negative (t : DecimalText) : Bool :=
  match t.sign with
  | .minus => true
  | _ => false

theorem asciiSign_chars (t : DecimalText) : asciiSign t.chars = (t.negative, t.body) := by
  rw [DecimalText.chars, DecimalText.negative]
  cases t.sign with
  | none => exact asciiSign_of_body fun c hc => bodyChar_of_mem t hc
  | plus => rfl
  | minus => rfl

theorem dropWhile_chars (t : DecimalText) : t.chars.dropWhile isBlankChar = t.chars := by
  refine dropWhile_blank fun c hc => ?_
  rw [DecimalText.chars] at hc
  rcases List.mem_append.mp hc with hc | hc
  · cases ht : t.sign with
    | none =>
        rw [ht] at hc
        exact absurd hc List.not_mem_nil
    | plus =>
        rw [ht] at hc
        rw [List.mem_singleton.mp hc]
        rfl
    | minus =>
        rw [ht] at hc
        rw [List.mem_singleton.mp hc]
        rfl
  · exact isBlankChar_of_body (bodyChar_of_mem t hc)

/-- When the whole text is read, the exponent scanner is not called. -/
theorem dflAsciiztodfl_of_loop (t : DecimalText) (ssStrScanInt : List Char → Option ℤ)
    {orgdf : Dfl} {st : AsciiState}
    (hloop : asciiLoop orgdf ⟨dfZero, false, false, false⟩ t.body = .ok (st, []))
    (hfound : st.found = true) :
    dflAsciiztodfl ssStrScanInt orgdf t.chars =
      .ok (if t.negative then dflChangeSign st.df₁ else st.df₁) := by
  rw [dflAsciiztodfl, dropWhile_chars, asciiSign_chars]
  simp only [hloop, Except.bind, hfound, if_true, asciiExponent, Bool.not_true,
    Bool.false_eq_true, if_false]

theorem dflAsciiztodfl_of_error (t : DecimalText) (ssStrScanInt : List Char → Option ℤ)
    {orgdf d : Dfl}
    (hloop : asciiLoop orgdf ⟨dfZero, false, false, false⟩ t.body = .error d) :
    dflAsciiztodfl ssStrScanInt orgdf t.chars = .error d := by
  rw [dflAsciiztodfl, dropWhile_chars, asciiSign_chars]
  simp only [hloop, Except.bind]

def DecimalText.pointfound (t : DecimalText) : Bool :=
  match t.point with
  | .none => false
  | _ => true

theorem asciiLoop_point (orgdf d : Dfl) (found : Bool) (t : DecimalText) (s : List Char) :
    asciiLoop orgdf ⟨d, found, false, false⟩ (t.point.chars ++ s) =
      asciiLoop orgdf ⟨d, found, t.pointfound, false⟩ s := by
  rw [DecimalText.pointfound]
  cases t.point with
  | none => rfl
  | period => rfl
  | comma => rfl

theorem asciiLoop_int (orgdf : Dfl) (t : DecimalText) :
    ∃ d, asciiLoop orgdf ⟨dfZero, false, false, false⟩ t.body =
        asciiLoop orgdf ⟨d, !t.int.isEmpty, t.pointfound, false⟩ (digitText t.frac) ∧
      d.Is 0 (appendDigits 0 t.int : ℕ) := by
  have hfits : appendDigits 0 t.int < 2 ^ 55 := by
    have hlt := t.fits
    rw [appendDigits_append] at hlt
    exact (le_appendDigits _ _).trans_lt hlt
  obtain ⟨d, hloop, his⟩ := asciiLoop_digits orgdf false false t.int
    (t.point.chars ++ digitText t.frac) dfZero_is
    (by rw [if_neg Bool.false_ne_true]; exact Nat.zero_lt_succ 254) hfits
  refine ⟨d, ?_, his⟩
  rw [DecimalText.body, hloop, asciiLoop_point, Bool.false_or]

theorem DecimalText.found_eq (t : DecimalText) : (!t.int.isEmpty || !t.frac.isEmpty) = true := by
  rw [Bool.or_eq_true, Bool.not_eq_true', Bool.not_eq_true', List.isEmpty_eq_false_iff,
    List.isEmpty_eq_false_iff]
  by_contra h
  rw [not_or, not_not, not_not] at h
  exact t.digits_ne_nil (by rw [h.1, h.2]; rfl)

theorem DecimalText.pointfound_of_frac {t : DecimalText} (h : t.frac ≠ []) :
    t.pointfound = true := by
  have hnil := t.frac_nil
  rw [DecimalText.pointfound]
  cases hpoint : t.point with
  | none => exact absurd (hnil hpoint) h
  | period => rfl
  | comma => rfl

theorem asciiLoop_short (orgdf : Dfl) {t : DecimalText} (h : t.frac.length ≤ 254) :
    ∃ d, asciiLoop orgdf ⟨dfZero, false, false, false⟩ t.body =
        .ok (⟨d, true, t.pointfound, false⟩, []) ∧
      d.Is t.frac.length (appendDigits 0 (t.int ++ t.frac) : ℕ) := by
  obtain ⟨d₁, hint, h₁⟩ := asciiLoop_int orgdf t
  have hfits := t.fits
  have hfound := t.found_eq
  rw [appendDigits_append] at hfits
  rw [hint]
  have hexp : (if t.pointfound then 0 + t.frac.length else 0) = t.frac.length := by
    rw [zero_add]
    split
    · rfl
    next hpoint =>
      have hnil : t.frac = [] := by
        by_contra hne
        exact hpoint (DecimalText.pointfound_of_frac hne)
      rw [hnil]
      rfl
  obtain ⟨d, hloop, his⟩ := asciiLoop_digits orgdf (!t.int.isEmpty) t.pointfound t.frac [] h₁
    (by rw [hexp]; exact Nat.lt_succ_of_le h) hfits
  rw [List.append_nil, hfound] at hloop
  rw [hexp] at his
  rw [appendDigits_append]
  exact ⟨d, hloop, his⟩

theorem asciiLoop_long (orgdf : Dfl) {t : DecimalText} {ds : List (Fin 10)} {c : Fin 10}
    (ht : t.frac = ds ++ [c]) (hlen : ds.length = 254) :
    ∃ d, asciiLoop orgdf ⟨dfZero, false, false, false⟩ t.body =
        (asciiDigit orgdf ⟨d, !t.int.isEmpty || !ds.isEmpty, true, false⟩ c).map
          (fun st => (st, [])) ∧
      d.Is 254 (appendDigits 0 (t.int ++ ds) : ℕ) := by
  obtain ⟨d₁, hint, h₁⟩ := asciiLoop_int orgdf t
  have hfits := t.fits
  have hpoint : t.pointfound = true := DecimalText.pointfound_of_frac (by
    rw [ht]
    exact List.append_ne_nil_of_right_ne_nil ds (List.cons_ne_nil c []))
  rw [ht, ← List.append_assoc, appendDigits_append, appendDigits_append] at hfits
  have hfits' := (le_appendDigits _ [c]).trans_lt hfits
  have hexp : (if true then 0 + ds.length else 0) = 254 := by
    rw [if_pos rfl, zero_add, hlen]
  obtain ⟨d, hloop, his⟩ := asciiLoop_digits orgdf (!t.int.isEmpty) true ds (digitText [c]) h₁
    (by rw [hexp]; decide) hfits'
  rw [hexp] at his
  rw [appendDigits_append]
  refine ⟨d, ?_, his⟩
  have happend : digitText t.frac = digitText ds ++ digitText [c] := by
    rw [ht, digitText, List.map_append]
    rfl
  rw [hint, happend, hpoint, hloop]
  exact asciiLoop_digit orgdf _ c []

theorem DecimalText.coef_eq (t : DecimalText) :
    t.coef = if t.negative then -((appendDigits 0 (t.int ++ t.frac) : ℕ) : ℤ)
      else (appendDigits 0 (t.int ++ t.frac) : ℕ) := by
  rw [DecimalText.coef, DecimalText.negative]
  cases t.sign with
  | none => rfl
  | plus => rfl
  | minus => rfl

theorem applySign_is (h : d.Is e n) (negative : Bool) :
    (if negative then dflChangeSign d else d).Is e (if negative then -(n : ℤ) else n) := by
  cases negative with
  | true => exact dflChangeSign_is h (by omega)
  | false => exact h

theorem parses_of_short {t : DecimalText} (h : t.frac.length ≤ 254) :
    Parses t.chars t.value := by
  intro ssStrScanInt orgdf
  obtain ⟨d, hloop, his⟩ := asciiLoop_short orgdf h
  have hres := applySign_is his t.negative
  refine ⟨_, dflAsciiztodfl_of_loop t ssStrScanInt hloop rfl, hres.valid, ?_⟩
  rw [hres.value_eq, DecimalText.value, t.coef_eq]

theorem div_pow_eq_iff {m n e : ℕ} (negative : Bool) :
    ((if negative then -(m : ℤ) else m : ℤ) : ℚ) / 10 ^ e =
        ((if negative then -(n : ℤ) else n : ℤ) : ℚ) / 10 ^ (e + 1) ↔ m * 10 = n := by
  have hpow : (10 : ℚ) ^ e ≠ 0 := pow_ne_zero _ (by norm_num)
  have hpow' : (10 : ℚ) ^ (e + 1) ≠ 0 := pow_ne_zero _ (by norm_num)
  rw [div_eq_div_iff hpow hpow', pow_succ, mul_comm (10 ^ e) (10 : ℚ), ← mul_assoc,
    mul_left_inj' hpow]
  cases negative with
  | true =>
      rw [if_pos rfl, if_pos rfl]
      push_cast
      rw [neg_mul, neg_inj]
      exact_mod_cast Iff.rfl
  | false =>
      rw [if_neg Bool.false_ne_true, if_neg Bool.false_ne_true]
      exact_mod_cast Iff.rfl

theorem parses_long_iff {t : DecimalText} {ds : List (Fin 10)} {c : Fin 10}
    (ht : t.frac = ds ++ [c]) (hlen : ds.length = 254) : Parses t.chars t.value ↔ c = 0 := by
  have hfrac : t.frac.length = 254 + 1 := by
    rw [ht, List.length_append, hlen]
    rfl
  have hcoef : appendDigits 0 (t.int ++ t.frac) = appendDigits 0 (t.int ++ ds) * 10 + c := by
    rw [ht, ← List.append_assoc, appendDigits_append]
    rfl
  have hvalue {r : Dfl} {m : ℕ} (hr : r.Is 254 m) :
      (if t.negative then dflChangeSign r else r).value = t.value ↔
        m * 10 = appendDigits 0 (t.int ++ ds) * 10 + c := by
    rw [(applySign_is hr t.negative).value_eq, DecimalText.value, t.coef_eq, hfrac, hcoef]
    exact div_pow_eq_iff t.negative
  constructor
  · intro h
    obtain ⟨d', hparse, -, hd'⟩ := h (fun _ => none) dfZero
    obtain ⟨d, hloop, his⟩ := asciiLoop_long dfZero ht hlen
    rw [asciiDigit_of_full _ _ his] at hloop
    by_cases hround : 5 ≤ (c : ℕ)
    · rw [if_pos hround] at hloop
      cases hneg : (dfMaddint d 1).neg with
      | true =>
          rw [hneg, if_pos rfl] at hloop
          rw [dflAsciiztodfl_of_error t _ hloop] at hparse
          cases hparse
      | false =>
          rw [hneg, if_neg Bool.false_ne_true] at hloop
          rw [dflAsciiztodfl_of_loop t _ hloop rfl] at hparse
          obtain rfl := Except.ok.inj hparse
          have hone : (dfMaddint d 1).Is 254 (appendDigits 0 (t.int ++ ds) + 1 : ℕ) := by
            cases sum_cases his (Int.natCast_nonneg _) (n := 1) (by decide) with
            | same hneg' his' => exact his'
            | carry hneg' hlen' his' => exact Bool.noConfusion (hneg.symm.trans hneg')
            | overflow hneg' hlen' hbig => exact Bool.noConfusion (hneg.symm.trans hneg')
          have heq := (hvalue hone).mp hd'
          have hc := c.isLt
          omega
    · rw [if_neg hround] at hloop
      rw [dflAsciiztodfl_of_loop t _ hloop rfl] at hparse
      obtain rfl := Except.ok.inj hparse
      have heq := (hvalue his).mp hd'
      exact Fin.ext (by omega)
  · rintro rfl ssStrScanInt orgdf
    obtain ⟨d, hloop, his⟩ := asciiLoop_long orgdf ht hlen
    rw [asciiDigit_of_full _ _ his] at hloop
    exact ⟨_, dflAsciiztodfl_of_loop t ssStrScanInt hloop rfl,
      (applySign_is his t.negative).valid, (hvalue his).mpr rfl⟩

/-- A text is read exactly unless a digit that is not zero stands in the last of 255
decimals. -/
theorem parses_iff_last (t : DecimalText) :
    Parses t.chars t.value ↔ (t.frac.length = 255 → t.frac.getLast? = some 0) := by
  rcases Nat.lt_or_ge t.frac.length 255 with hshort | hlong
  · exact ⟨fun _ h => absurd h hshort.ne, fun _ => parses_of_short (Nat.le_of_lt_succ hshort)⟩
  · have hlen := le_antisymm t.frac_le hlong
    have hne : t.frac ≠ [] := by
      intro hnil
      rw [hnil] at hlen
      exact absurd hlen (by decide)
    have hsplit := (List.dropLast_append_getLast hne).symm
    have hinit : t.frac.dropLast.length = 254 := by
      rw [List.length_dropLast, hlen]
    rw [parses_long_iff hsplit hinit, List.getLast?_eq_getLast_of_ne_nil hne, Option.some_inj]
    exact ⟨fun h _ => h, fun h => h hlen⟩

end SolidDB
