import SolidDB.Dt.DflParse

/-!
# The printed text

The rounds of `dfl_dfltoasciiz_maxlen` write the digits of the mantissa from the last one on.
The text denotes the decimal, and its last decimal is not zero.
-/

namespace SolidDB

open PrintState

variable {d : Dfl} {n m maxlen : ℕ} {st st' : PrintState}

/-! ## The digits of the mantissa -/

inductive Remains (d : Dfl) : ℕ → Prop where
  | is {n : ℕ} (e : ℕ) (h : d.Is e n) : Remains d n
  | lowest (hlen : d.len = 0) (hbytes : 2 ≤ d.mant.length) (hneg : d.neg = true)
      (hcompact : compactBytes d.mant = d.mant) : Remains d 0

theorem takeDigit_of_remains (st : PrintState) (h : Remains st.tmp n) :
    ∃ tmp, st.takeDigit = some (tmp, n % 10) ∧ Remains tmp (n / 10) := by
  have hdigit {d : Dfl} {e : ℕ} (h : d.Is (e + 1) n) :
      ∃ d', dfMdiv10 d = some (d', n % 10) ∧ d'.Is e (n / 10 : ℕ) := by
    obtain ⟨d', hdiv, his, -⟩ := dfMdiv10_of_nonneg h (Int.natCast_nonneg n)
    exact ⟨d', hdiv, his⟩
  rw [takeDigit]
  cases h with
  | is e h =>
      by_cases hexp : st.tmp.exp = 0
      · obtain ⟨d', hdiv, his⟩ := hdigit (h.with_exp 1 (by decide))
        rw [if_pos hexp]
        exact ⟨d', hdiv, .is 0 his⟩
      · obtain ⟨e', rfl⟩ := Nat.exists_eq_succ_of_ne_zero (h.exp_eq ▸ hexp)
        obtain ⟨d', hdiv, his⟩ := hdigit h
        have hlt := h.valid.exp_lt
        rw [h.exp_eq] at hlt
        have hback := his.with_exp (d'.exp + 1) (by rw [his.exp_eq]; exact hlt)
        rw [if_neg hexp, hdiv]
        exact ⟨_, rfl, .is _ hback⟩
  | lowest hlen hbytes hneg hcompact =>
      by_cases hexp : st.tmp.exp = 0
      · have hdiv := dfMdiv10_of_lowest (d := { st.tmp with exp := 1 }) rfl hlen hbytes hcompact
        rw [if_pos hexp, hdiv]
        exact ⟨_, rfl, .lowest hlen hbytes hneg hcompact⟩
      · obtain ⟨e', he'⟩ := Nat.exists_eq_succ_of_ne_zero hexp
        have hdiv := dfMdiv10_of_lowest he' hlen hbytes hcompact
        rw [if_neg hexp, hdiv]
        exact ⟨_, rfl, .lowest hlen hbytes hneg hcompact⟩

/-! ## The rounds -/

structure FracPrinted (m r : ℕ) (ds : List (Fin 10)) : Prop where
  length_le : ds.length ≤ r
  value_eq : m % 10 ^ r = appendDigits 0 ds * 10 ^ (r - ds.length)
  last_ne : ds.getLast? ≠ some 0

inductive Printed (m e : ℕ) : ℕ → PrintState → Prop where
  | frac {r : ℕ} {ds : List (Fin 10)} {st : PrintState} (hr : r ≤ e) (hfrac : FracPrinted m r ds)
      (htmp : Remains st.tmp (m / 10 ^ r)) (he : st.e = e - r) (hzero : st.zeroscoming = 0)
      (hprinted : st.stgprinted = !ds.isEmpty) (htext : st.text = digitText ds) :
      Printed m e r st
  | int {r : ℕ} (is : List (Fin 10)) {ds : List (Fin 10)} {st : PrintState} (hr : e < r)
      (hfrac : FracPrinted m e ds) (hr' : r = e + (is.length + st.zeroscoming))
      (hint : m / 10 ^ e % 10 ^ (is.length + st.zeroscoming) = appendDigits 0 is)
      (htmp : Remains st.tmp (m / 10 ^ r)) (he : st.e = e - r)
      (htext : st.text = digitText is ++ '.' :: digitText ds) : Printed m e r st

theorem put_eq_ok {c : Char} (h : st.put maxlen c = .ok st') :
    st' = { st with text := c :: st.text } := by
  rw [put] at h
  split at h
  · cases h
  · exact (Except.ok.inj h).symm

theorem putZeros_eq_ok {k : ℕ} (h : st.putZeros maxlen k = .ok st') :
    st' = { st with zeroscoming := 0, text := List.replicate k '0' ++ st.text } := by
  induction k generalizing st with
  | zero => exact (Except.ok.inj h).symm
  | succ k ih =>
      rw [putZeros] at h
      cases hput : st.put maxlen '0' with
      | error err =>
          rw [hput] at h
          cases h
      | ok st₁ =>
          rw [hput] at h
          rw [ih h, put_eq_ok hput, List.replicate_succ', List.append_assoc]
          rfl

theorem putDigit_eq_ok {digit : ℕ} (h : st.putDigit maxlen digit = .ok st') :
    (digit = 0 ∧ st.e < 0 ∧ st' = { st with zeroscoming := st.zeroscoming + 1 }) ∨
      (¬ (digit = 0 ∧ st.e < 0) ∧ (digit ≠ 0 ∨ st.stgprinted) ∧
        st' = { st with
          zeroscoming := 0
          stgprinted := true
          text := Nat.digitChar digit :: (List.replicate st.zeroscoming '0' ++ st.text) }) ∨
      (¬ (digit = 0 ∧ st.e < 0) ∧ digit = 0 ∧ st.stgprinted = false ∧ st' = st) := by
  rw [putDigit] at h
  by_cases hwait : digit = 0 ∧ st.e < 0
  · rw [if_pos hwait] at h
    exact Or.inl ⟨hwait.1, hwait.2, (Except.ok.inj h).symm⟩
  · right
    rw [if_neg hwait] at h
    by_cases hprint : digit ≠ 0 ∨ st.stgprinted
    · left
      rw [if_pos hprint] at h
      cases hzeros : st.putZeros maxlen st.zeroscoming with
      | error err =>
          rw [hzeros] at h
          cases h
      | ok st₁ =>
          rw [hzeros] at h
          cases hput : st₁.put maxlen (Nat.digitChar digit) with
          | error err =>
              simp only [Except.bind, hput] at h
              cases h
          | ok st₂ =>
              simp only [Except.bind, hput] at h
              refine ⟨hwait, hprint, ?_⟩
              rw [← Except.ok.inj h, put_eq_ok hput, putZeros_eq_ok hzeros]
    · right
      rw [if_neg hprint] at h
      rw [not_or, not_not, Bool.not_eq_true] at hprint
      exact ⟨hwait, hprint.1, hprint.2, (Except.ok.inj h).symm⟩

def lastDigit (n : ℕ) : Fin 10 := ⟨n % 10, Nat.mod_lt n (by decide)⟩

theorem appendDigits_front (c : Fin 10) (ds : List (Fin 10)) :
    appendDigits 0 (c :: ds) = c * 10 ^ ds.length + appendDigits 0 ds := by
  rw [appendDigits_cons, zero_mul, zero_add, appendDigits_eq]

theorem appendDigits_zeros (k : ℕ) (ds : List (Fin 10)) :
    appendDigits 0 (List.replicate k 0 ++ ds) = appendDigits 0 ds := by
  induction k with
  | zero => rfl
  | succ k ih =>
      rw [List.replicate_succ, List.cons_append, appendDigits_front, ih, Fin.val_zero, zero_mul,
        zero_add]

theorem FracPrinted.zero {r : ℕ} (h : FracPrinted m r []) (hdigit : m / 10 ^ r % 10 = 0) :
    FracPrinted m (r + 1) [] := by
  refine ⟨Nat.zero_le _, ?_, h.last_ne⟩
  have hvalue := h.value_eq
  rw [appendDigits_nil, zero_mul] at hvalue
  rw [Nat.mod_pow_succ, hvalue, hdigit, mul_zero, add_zero, appendDigits_nil, zero_mul]

theorem FracPrinted.cons {r : ℕ} {ds : List (Fin 10)} (h : FracPrinted m r ds)
    (hdigit : m / 10 ^ r % 10 ≠ 0 ∨ ds ≠ []) :
    FracPrinted m (r + 1) (lastDigit (m / 10 ^ r) :: ds) := by
  have hle := h.length_le
  refine ⟨Nat.succ_le_succ hle, ?_, ?_⟩
  · have hpow : 10 ^ ds.length * 10 ^ (r - ds.length) = 10 ^ r := by
      rw [← pow_add, Nat.add_sub_cancel' hle]
    rw [Nat.mod_pow_succ, h.value_eq, appendDigits_front, List.length_cons, Nat.succ_sub_succ,
      add_mul, mul_assoc, hpow, add_comm, mul_comm (10 ^ r)]
    rfl
  · cases ds with
    | nil =>
        rw [List.getLast?_singleton, ne_eq, Option.some_inj]
        intro hzero
        rcases hdigit with hdigit | hdigit
        · exact hdigit (congrArg Fin.val hzero)
        · exact hdigit rfl
    | cons d ds =>
        rw [List.getLast?_cons_cons]
        exact h.last_ne

theorem digitText_zeros (c : Fin 10) (k : ℕ) (ds : List (Fin 10)) (s : List Char) :
    Nat.digitChar c :: (List.replicate k '0' ++ (digitText ds ++ s)) =
      digitText (c :: (List.replicate k 0 ++ ds)) ++ s := by
  rw [digitText, digitText, List.map_cons, List.map_append, List.map_replicate, List.cons_append,
    List.append_assoc]
  rfl

theorem Printed.putDigit_int {e r : ℕ} (st : PrintState) (is : List (Fin 10))
    {ds : List (Fin 10)} (hr : e < r + 1)
    (hfrac : FracPrinted m e ds) (hr' : r = e + (is.length + st.zeroscoming))
    (hint : m / 10 ^ e % 10 ^ (is.length + st.zeroscoming) = appendDigits 0 is)
    (htmp : Remains st.tmp (m / 10 ^ (r + 1))) (he : st.e = e - (r + 1 : ℕ))
    (htext : st.text = digitText is ++ '.' :: digitText ds)
    (h : st.putDigit maxlen (m / 10 ^ r % 10) = .ok st') : Printed m e (r + 1) st' := by
  have hdigit : m / 10 ^ e / 10 ^ (is.length + st.zeroscoming) = m / 10 ^ r := by
    rw [Nat.div_div_eq_div_mul, ← pow_add, ← hr']
  have hmod := Nat.mod_pow_succ (x := m / 10 ^ e) (b := 10) (k := is.length + st.zeroscoming)
  rw [hdigit, hint] at hmod
  have hneg : st.e < 0 := by
    rw [he]
    omega
  rcases putDigit_eq_ok h with ⟨hzero, -, rfl⟩ | ⟨hwait, -, rfl⟩ | ⟨hwait, hzero, -⟩
  · refine .int is hr hfrac ?_ ?_ htmp he htext
    · simp only
      omega
    · rw [hzero, mul_zero, add_zero] at hmod
      exact hmod
  · refine .int (lastDigit (m / 10 ^ r) :: (List.replicate st.zeroscoming 0 ++ is)) hr hfrac
      ?_ ?_ htmp he ?_
    · simp only [List.length_cons, List.length_append, List.length_replicate]
      omega
    · have hlen : (List.replicate st.zeroscoming (0 : Fin 10) ++ is).length =
          is.length + st.zeroscoming := by
        rw [List.length_append, List.length_replicate, add_comm]
      rw [List.length_cons, add_zero, hlen, hmod, appendDigits_front, appendDigits_zeros, hlen,
        add_comm, mul_comm (10 ^ _)]
      rfl
    · simp only [htext]
      exact digitText_zeros (lastDigit (m / 10 ^ r)) _ _ _
  · exact absurd ⟨hzero, hneg⟩ hwait

theorem Printed.putDigit_frac {e r : ℕ} (st : PrintState) {ds : List (Fin 10)} (hr : r + 1 ≤ e)
    (hfrac : FracPrinted m r ds) (htmp : Remains st.tmp (m / 10 ^ (r + 1)))
    (he : st.e = e - (r + 1 : ℕ)) (hzero : st.zeroscoming = 0)
    (hprinted : st.stgprinted = !ds.isEmpty) (htext : st.text = digitText ds)
    (h : st.putDigit maxlen (m / 10 ^ r % 10) = .ok st') : Printed m e (r + 1) st' := by
  have hneg : ¬ st.e < 0 := by
    rw [he]
    omega
  rcases putDigit_eq_ok h with ⟨-, hlow, -⟩ | ⟨-, hdigit, rfl⟩ | ⟨-, hdigit, hempty, rfl⟩
  · exact absurd hlow hneg
  · refine .frac hr (hfrac.cons ?_) htmp he rfl rfl ?_
    · refine hdigit.imp_right fun hp hnil => ?_
      rw [hprinted, hnil] at hp
      exact Bool.noConfusion hp
    · rw [hzero, htext]
      rfl
  · have hnil : ds = [] := by
      rw [hprinted, Bool.not_eq_false'] at hempty
      exact List.isEmpty_iff.mp hempty
    rw [hnil] at hfrac hprinted htext
    exact .frac hr (hfrac.zero hdigit) htmp he hzero hprinted htext

theorem Printed.round {e r : ℕ} (h : Printed m e r st) (hok : st.round maxlen = .ok st') :
    Printed m e (r + 1) st' := by
  have hdiv : m / 10 ^ r / 10 = m / 10 ^ (r + 1) := by
    rw [Nat.div_div_eq_div_mul, pow_succ]
  rw [PrintState.round] at hok
  cases h with
  | frac hr hfrac htmp he hzero hprinted htext =>
      by_cases hend : r = e
      · -- the decimal point comes before the digit
        have he0 : st.e = 0 := by
          rw [he, hend]
          exact sub_self _
        rw [putPoint, if_pos he0] at hok
        cases hput : st.put maxlen '.' with
        | error err =>
            rw [hput] at hok
            cases hok
        | ok st₁ =>
            obtain rfl := put_eq_ok hput
            obtain ⟨tmp, htake, htmp'⟩ := takeDigit_of_remains
              { st with text := '.' :: st.text } htmp
            rw [hdiv] at htmp'
            simp only [hput, Except.bind, htake] at hok
            refine Printed.putDigit_int
              { st with tmp := tmp, e := st.e - 1, text := '.' :: st.text } []
              (Nat.lt_succ_of_le hend.ge) (hend ▸ hfrac) ?_ ?_ htmp' ?_ ?_ hok
            · rw [hzero]
              exact hend
            · rw [hzero]
              exact Nat.mod_one _
            · simp only [he]
              omega
            · rw [htext]
              rfl
      · have hne : st.e ≠ 0 := by
          rw [he]
          omega
        obtain ⟨tmp, htake, htmp'⟩ := takeDigit_of_remains st htmp
        rw [hdiv] at htmp'
        rw [putPoint, if_neg hne] at hok
        simp only [Except.bind, htake] at hok
        refine Printed.putDigit_frac { st with tmp := tmp, e := st.e - 1 }
          (lt_of_le_of_ne hr hend) hfrac htmp' ?_ hzero hprinted htext hok
        simp only [he]
        omega
  | int is hr hfrac hr' hint htmp he htext =>
      have hne : st.e ≠ 0 := by
        rw [he]
        omega
      obtain ⟨tmp, htake, htmp'⟩ := takeDigit_of_remains st htmp
      rw [hdiv] at htmp'
      rw [putPoint, if_neg hne] at hok
      simp only [Except.bind, htake] at hok
      refine Printed.putDigit_int { st with tmp := tmp, e := st.e - 1 } is
        (hr.trans (Nat.lt_succ_self r)) hfrac hr' hint htmp' ?_ htext hok
      simp only [he]
      omega

theorem Printed.loop {e r fuel : ℕ} {left : ℤ} (h : Printed m e r st)
    (hleft : left = dflMaxlen * 2 + 2 - r) (hok : st.loop maxlen fuel left = .ok st') :
    ∃ r', Printed m e r' st' ∧ dflMaxlen * 2 + 2 ≤ r' ∧ st'.e < 0 := by
  induction fuel generalizing st left r with
  | zero => cases hok
  | succ fuel ih =>
      rw [PrintState.loop] at hok
      by_cases hmore : 0 < left ∨ 0 ≤ st.e
      · rw [if_pos hmore] at hok
        cases hround : st.round maxlen with
        | error err =>
            rw [hround] at hok
            cases hok
        | ok st₁ =>
            rw [hround] at hok
            refine ih (h.round hround) ?_ hok
            rw [hleft]
            push_cast
            ring
      · rw [if_neg hmore] at hok
        obtain rfl := Except.ok.inj hok
        rw [not_or, not_lt, not_le] at hmore
        refine ⟨r, h, ?_, hmore.2⟩
        omega

/-! ## The text -/

/-- The magnitude that is printed. The lowest mantissa of seven bytes is taken for zero. -/
def printedMantissa (d : Dfl) : ℕ := if d.coef = -2 ^ 55 then 0 else d.coef.natAbs

theorem printedMantissa_lt (h : d.Valid) : printedMantissa d < 2 ^ 55 := by
  have hb := h.is.bounds
  rw [printedMantissa]
  split
  · decide
  · omega

theorem remains_start (h : d.Valid) :
    Remains (if d.neg then dflChangeSign d else d) (printedMantissa d) ∧
      (if d.neg then dflChangeSign d else d).exp = d.exp := by
  rw [printedMantissa]
  by_cases hmin : d.coef = -2 ^ 55
  · have hsign := (signedBytes_neg_iff d.mant).mp (by
      rw [Dfl.coef] at hmin
      omega)
    have hneg : d.neg = true := hsign
    have hlow := dflChangeSign_min ⟨h, rfl, hmin⟩
    have hcompact := compact_of_min ⟨h, rfl, hmin⟩
    rw [hneg, if_pos rfl, if_pos hmin, hlow]
    exact ⟨.lowest rfl hcompact.2 hneg hcompact.1, rfl⟩
  · have his := absDfl_is h.is hmin
    rw [if_neg hmin]
    exact ⟨.is d.exp his, his.exp_eq⟩

theorem Printed.int_of_done {e r : ℕ} (h : Printed m e r st) (hm : m < 2 ^ 55) (hr : 17 ≤ r)
    (he : st.e < 0) :
    ∃ is ds, FracPrinted m e ds ∧ m / 10 ^ e = appendDigits 0 is ∧
      st.text = digitText is ++ '.' :: digitText ds := by
  cases h with
  | frac hr hfrac htmp he' hzero hprinted htext =>
      rw [he'] at he
      omega
  | int is hr' hfrac hr'' hint htmp he' htext =>
      refine ⟨is, _, hfrac, ?_, htext⟩
      have hlt : m / 10 ^ e < 10 ^ (is.length + st.zeroscoming) := by
        rw [Nat.div_lt_iff_lt_mul (Nat.pow_pos (by decide)), ← pow_add, add_comm, ← hr'']
        have hpow : 10 ^ 17 ≤ 10 ^ r := Nat.pow_le_pow_right (by decide) hr
        omega
      rw [Nat.mod_eq_of_lt hlt] at hint
      exact hint

theorem finish_eq_ok {is ds : List (Fin 10)} (h : st.finish maxlen = .ok st')
    (htext : st.text = digitText is ++ '.' :: digitText ds) :
    st'.text = digitText (if is = [] then [0] else is) ++ '.' :: digitText ds := by
  rw [finish, htext] at h
  cases is with
  | nil =>
      have hpoint : isDecimalpoint ((digitText [] ++ '.' :: digitText ds).headD '0') = true := rfl
      rw [if_pos hpoint] at h
      rw [put_eq_ok h, htext, if_pos rfl]
      rfl
  | cons c is =>
      have hpoint : isDecimalpoint ((digitText (c :: is) ++ '.' :: digitText ds).headD '0') =
          false := isDecimalpoint_digitChar c
      rw [hpoint, if_neg Bool.false_ne_true] at h
      rw [← Except.ok.inj h, htext, if_neg (List.cons_ne_nil c is)]

theorem appendDigits_or_zero (is ds : List (Fin 10)) :
    appendDigits 0 ((if is = [] then [0] else is) ++ ds) = appendDigits 0 (is ++ ds) := by
  split
  next h =>
    rw [h]
    rfl
  next h => rfl

theorem FracPrinted.number_eq {e : ℕ} {is ds : List (Fin 10)} (h : FracPrinted m e ds)
    (hint : m / 10 ^ e = appendDigits 0 is) :
    appendDigits 0 (is ++ ds) * 10 ^ (e - ds.length) = m := by
  have hpow : 10 ^ ds.length * 10 ^ (e - ds.length) = 10 ^ e := by
    rw [← pow_add, Nat.add_sub_cancel' h.length_le]
  rw [appendDigits_append, appendDigits_eq, add_mul, mul_assoc, hpow, ← h.value_eq, ← hint,
    mul_comm, add_comm]
  exact Nat.mod_add_div m (10 ^ e)

structure PrintedText (d : Dfl) (t : DecimalText) : Prop where
  negative_eq : t.negative = d.neg
  number_eq : appendDigits 0 (t.int ++ t.frac) * 10 ^ (d.exp - t.frac.length) = printedMantissa d
  length_le : t.frac.length ≤ d.exp
  last_ne : t.frac.getLast? ≠ some 0

theorem printed_text {text : List Char} (hd : d.Valid)
    (h : dflDfltoasciizMaxlen d maxlen = .ok (true, text)) :
    ∃ t : DecimalText, text = t.chars ∧ PrintedText d t := by
  obtain ⟨hstart, hexp⟩ := remains_start hd
  have hlt := printedMantissa_lt hd
  have hbyte := hd.exp_lt
  rw [dflDfltoasciizMaxlen, hd.not_overflow, if_neg Bool.false_ne_true] at h
  simp only at h
  generalize (if d.neg = true then dflChangeSign d else d) = tmp at *
  have hinit : Printed (printedMantissa d) d.exp 0 ⟨tmp, tmp.exp, 0, false, []⟩ := by
    have hfrac : FracPrinted (printedMantissa d) 0 [] := by
      refine ⟨le_rfl, ?_, (Option.some_ne_none _).symm⟩
      rw [pow_zero, Nat.mod_one, appendDigits_nil, zero_mul]
    refine .frac (Nat.zero_le _) hfrac ?_ ?_ rfl rfl rfl
    · rw [pow_zero, Nat.div_one]
      exact hstart
    · simp only [hexp]
      exact (sub_zero _).symm
  cases hloop : PrintState.loop maxlen (dflMaxlen * 2 + 260) (dflMaxlen * 2 + 2)
      ⟨tmp, tmp.exp, 0, false, []⟩ with
  | error err =>
      rw [hloop] at h
      cases err with
      | assertion => cases h
      | overflow => cases h
  | ok st =>
      rw [hloop] at h
      obtain ⟨r, hprinted, hr, he⟩ := hinit.loop (by norm_num) hloop
      obtain ⟨is, ds, hfrac, hint, htext⟩ := hprinted.int_of_done hlt
        (le_trans (by decide) hr) he
      cases hfinish : st.finish maxlen with
      | error err =>
          simp only [Except.bind, hfinish] at h
          cases err with
          | assertion => cases h
          | overflow => cases h
      | ok st' =>
          simp only [Except.bind, hfinish] at h
          have htext' := finish_eq_ok hfinish htext
          have hnumber := hfrac.number_eq hint
          have hpos : 0 < 10 ^ (d.exp - ds.length) := Nat.pow_pos (by decide)
          have hnumber' := hnumber
          rw [← appendDigits_or_zero] at hnumber'
          refine ⟨⟨if d.neg then .minus else .none, if is = [] then [0] else is, .period, ds,
            TextPoint.noConfusion, ?_, ?_, ?_⟩, ?_, ?_, hnumber', hfrac.length_le, hfrac.last_ne⟩
          · split
            · exact List.cons_ne_nil _ _
            next hne => exact List.append_ne_nil_of_left_ne_nil hne ds
          · refine (Nat.le_mul_of_pos_right _ hpos).trans_lt ?_
            rw [hnumber']
            exact hlt
          · exact hfrac.length_le.trans (Nat.le_of_lt_succ hbyte)
          · rw [← (Prod.mk.inj (Except.ok.inj h)).2, htext']
            cases d.neg with
            | true => rfl
            | false => rfl
          · cases d.neg with
            | true => rfl
            | false => rfl

/-! ## The round trip -/

theorem Parses.unique {s : List Char} {x y : ℚ} (hx : Parses s x) (hy : Parses s y) : x = y := by
  obtain ⟨d, hparse, -, rfl⟩ := hx (fun _ => none) dfZero
  obtain ⟨d', hparse', -, rfl⟩ := hy (fun _ => none) dfZero
  rw [Except.ok.inj (hparse.symm.trans hparse')]

/-- Apart from the lowest mantissa the text has the value of the decimal. -/
theorem PrintedText.value_eq {t : DecimalText} (h : PrintedText d t) (hmin : d.coef ≠ -2 ^ 55) :
    t.value = d.value := by
  have hnumber := h.number_eq
  have hpow : (10 : ℚ) ^ (d.exp - t.frac.length) ≠ 0 := pow_ne_zero _ (by norm_num)
  have hexp : (10 : ℚ) ^ d.exp = 10 ^ t.frac.length * 10 ^ (d.exp - t.frac.length) := by
    rw [← pow_add, Nat.add_sub_cancel' h.length_le]
  rw [printedMantissa, if_neg hmin] at hnumber
  rw [DecimalText.value, Dfl.value, t.coef_eq, h.negative_eq, coef_eq_natAbs d, hexp, ← hnumber]
  cases d.neg with
  | true =>
      rw [if_pos rfl, if_pos rfl]
      push_cast
      rw [← neg_mul, mul_div_mul_right _ _ hpow]
  | false =>
      rw [if_neg Bool.false_ne_true, if_neg Bool.false_ne_true]
      push_cast
      rw [mul_div_mul_right _ _ hpow]

theorem appendDigits_pos {ds : List (Fin 10)} (hne : ds ≠ []) (hlast : ds.getLast? ≠ some 0) :
    ¬ 10 ∣ appendDigits 0 ds := by
  have hsplit := List.dropLast_append_getLast hne
  rw [List.getLast?_eq_getLast_of_ne_nil hne, ne_eq, Option.some_inj] at hlast
  have hlt := (ds.getLast hne).isLt
  have hval : ((ds.getLast hne : Fin 10) : ℕ) ≠ 0 := fun h0 => hlast (Fin.ext h0)
  rw [← hsplit, appendDigits_append, appendDigits_cons, appendDigits_nil]
  omega

/-- 255 decimals are printed for a mantissa whose last digit is not zero. -/
theorem PrintedText.length_eq_iff {t : DecimalText} (h : PrintedText d t) (hd : d.Valid) :
    t.frac.length = 255 ↔ d.exp = 255 ∧ ¬ 10 ∣ printedMantissa d := by
  have hnumber := h.number_eq
  have hle := h.length_le
  have hlt := hd.exp_lt
  constructor
  · intro hlen
    have hexp : d.exp = 255 := by omega
    refine ⟨hexp, ?_⟩
    rw [hexp, hlen, Nat.sub_self, pow_zero, mul_one, appendDigits_append, appendDigits_eq,
      hlen] at hnumber
    rw [← hnumber]
    have hne : t.frac ≠ [] := by
      intro hnil
      rw [hnil] at hlen
      exact absurd hlen (by decide)
    have hdvd : 10 ∣ appendDigits 0 t.int * 10 ^ 255 :=
      Dvd.dvd.mul_left (dvd_pow_self 10 (by decide)) _
    rw [Nat.dvd_add_right hdvd]
    exact appendDigits_pos hne h.last_ne
  · rintro ⟨hexp, hdvd⟩
    by_contra hne
    refine hdvd ?_
    rw [← hnumber, hexp]
    exact Dvd.dvd.mul_left (dvd_pow_self 10 (by omega)) _

/-- The printed text of a decimal is read exactly unless the mantissa is the lowest one, which
has no negation, or all 255 decimals are needed. A decimal text is read exactly unless the
last one of 255 decimals is not zero. -/
theorem decimalText_roundtrip_iff (x : Decimal) (maxlen : ℕ) (text : List Char)
    (t : DecimalText) :
    (dflDfltoasciizMaxlen x.1 maxlen = .ok (true, text) →
      (Parses text x.1.value ↔
        x.1.coef ≠ -2 ^ 55 ∧ (x.1.exp = 255 → (10 : ℤ) ∣ x.1.coef))) ∧
      (Parses t.chars t.value ↔ (t.frac.length = 255 → t.frac.getLast? = some 0)) := by
  refine ⟨fun h => ?_, parses_iff_last t⟩
  obtain ⟨d, hd⟩ := x
  clear t
  obtain ⟨t, rfl, ht⟩ := printed_text hd h
  have hlast := parses_iff_last t
  have hlen := ht.length_eq_iff hd
  by_cases hmin : d.coef = -2 ^ 55
  · -- the text of the lowest mantissa is zero
    refine ⟨fun hparse => ?_, fun hcond => absurd hmin hcond.1⟩
    have hnumber := ht.number_eq
    rw [printedMantissa, if_pos hmin] at hlen hnumber
    have hpow : 10 ^ (d.exp - t.frac.length) ≠ 0 := (Nat.pow_pos (by decide)).ne'
    have hdigits := (Nat.mul_eq_zero.mp hnumber).resolve_right hpow
    have hzero : t.value = 0 := by
      rw [DecimalText.value, t.coef_eq, hdigits, Nat.cast_zero, neg_zero, ite_self, Int.cast_zero,
        zero_div]
    have heq := hparse.unique (hlast.mpr fun h255 => absurd (dvd_zero 10) (hlen.mp h255).2)
    have hpow' : (10 : ℚ) ^ d.exp ≠ 0 := pow_ne_zero _ (by norm_num)
    rw [hzero, Dfl.value, div_eq_zero_iff, or_iff_left hpow', hmin] at heq
    norm_num at heq
  · have hvalue := ht.value_eq hmin
    rw [printedMantissa, if_neg hmin] at hlen
    rw [← hvalue, hlast]
    have hdvd : (10 : ℤ) ∣ d.coef ↔ 10 ∣ d.coef.natAbs := Int.natCast_dvd
    rw [hdvd]
    constructor
    · intro h
      refine ⟨hmin, fun hexp => ?_⟩
      by_contra hnot
      exact ht.last_ne (h (hlen.mpr ⟨hexp, hnot⟩))
    · intro hcond h255
      exact absurd (hcond.2 (hlen.mp h255).1) (hlen.mp h255).2

def amountDfl : Dfl := ⟨3, 2, [0xFB, 0x2E]⟩

theorem amountDfl_valid : amountDfl.Valid := by decide

def commaText : DecimalText :=
  ⟨.plus, [7, 0], .comma, [0, 5, 0], nofun, List.cons_ne_nil _ _, by decide, by decide⟩

/-- `-1234` with two decimals is printed as `-12.34` and read back, and `+70,050` is read
exactly. -/
theorem decimalText_roundtrip_amount :
    dflDfltoasciizMaxlen amountDfl 30 = .ok (true, ['-', '1', '2', '.', '3', '4']) ∧
      Parses ['-', '1', '2', '.', '3', '4'] amountDfl.value ∧
      Parses ['+', '7', '0', ',', '0', '5', '0'] commaText.value := by
  have hprint : dflDfltoasciizMaxlen amountDfl 30 =
      .ok (true, ['-', '1', '2', '.', '3', '4']) := by
    decide +kernel
  have hiff := decimalText_roundtrip_iff ⟨amountDfl, amountDfl_valid⟩ 30
    ['-', '1', '2', '.', '3', '4'] commaText
  have hcomma : commaText.chars = ['+', '7', '0', ',', '0', '5', '0'] := by decide
  rw [hcomma] at hiff
  exact ⟨hprint, (hiff.1 hprint).mpr ⟨by decide +kernel, fun h => absurd h (by decide)⟩,
    hiff.2.mpr fun h => absurd h (by decide)⟩

/-- The lowest mantissa is printed as `-0.`. -/
theorem not_decimalText_roundtrip :
    ¬ ∀ (x : Decimal) (maxlen : ℕ) (text : List Char),
      dflDfltoasciizMaxlen x.1 maxlen = .ok (true, text) → Parses text x.1.value := by
  intro h
  have hprint : dflDfltoasciizMaxlen lowestDfl 30 = .ok (true, ['-', '0', '.']) := by
    decide +kernel
  obtain ⟨d, hparse, -, hvalue⟩ := h ⟨lowestDfl, lowestDfl_valid⟩ 30 ['-', '0', '.'] hprint
    (fun _ => none) dfZero
  have hzero : dflAsciiztodfl (fun _ => none) dfZero ['-', '0', '.'] = .ok dfZero := by
    decide +kernel
  obtain rfl := Except.ok.inj (hzero.symm.trans hparse)
  have hlow : lowestDfl.coef = -2 ^ 55 := by decide +kernel
  have hcoef : dfZero.coef = 0 := by decide +kernel
  rw [Dfl.value, Dfl.value, hlow, hcoef] at hvalue
  norm_num [lowestDfl, dfZero] at hvalue

end SolidDB
