import SolidDB.Ss.Scan
import SolidDB.Ss.Int8Exact

/-!
# Eight-byte integers as text

`SsInt8ToAscii` takes the digits of the absolute value from the last one on; `SsStrScanInt8`
multiplies by ten and adds a digit, and takes the lowest value by a case of its own. A string is
the list of its characters before the terminating zero.
-/

namespace SolidDB

section

/-! ## Printing -/

def ltoaInt2asciiXlat : List Char :=
  ['0', '1', '2', '3', '4', '5', '6', '7', '8', '9', 'A', 'B', 'C', 'D', 'E', 'F', 'G', 'H', 'I',
    'J', 'K', 'L', 'M', 'N', 'O', 'P', 'Q', 'R', 'S', 'T', 'U', 'V', 'W', 'X', 'Y', 'Z']

def ltoaDigitxlate (digitvalue : ℕ) : Char := ltoaInt2asciiXlat.getD digitvalue '0'

/-- The loop without a width: the digits from the last one to the first. A digit takes one bit
at least, so that the loop ends within the fuel. -/
def asciiDigits (radix8 : SsInt8) : ℕ → SsInt8 → Option (List Char)
  | 0, _ => none
  | fuel + 1, i8 =>
    (ssInt8UnsignedDivide i8 radix8).bind fun r =>
      if r.1.is0 then some [ltoaDigitxlate r.2.lsU4]
      else (asciiDigits radix8 fuel r.1).map (ltoaDigitxlate r.2.lsU4 :: ·)

/-- The loop with a width: the text of the digits, and the places that are left. -/
def asciiWidthDigits (radix8 : SsInt8) : ℕ → SsInt8 → List Char → Option (List Char × ℕ)
  | 0, _, text => some (text, 0)
  | n + 1, i8, text =>
    (ssInt8UnsignedDivide i8 radix8).bind fun r =>
      if r.1.is0 then some (ltoaDigitxlate r.2.lsU4 :: text, n)
      else asciiWidthDigits radix8 n r.1 (ltoaDigitxlate r.2.lsU4 :: text)

/-- The places in front of the digits. A sign without a place is left out. -/
def asciiFill (leftfillch : Char) (sign : Bool) (text : List Char) (n : ℕ) : List Char :=
  if n ≠ 0 ∧ leftfillch ≠ '0' ∧ sign then List.replicate (n - 1) leftfillch ++ '-' :: text
  else if n ≠ 0 ∧ sign then '-' :: (List.replicate (n - 1) leftfillch ++ text)
  else List.replicate n leftfillch ++ text

/-- `SsInt8ToAscii`. An illegal radix gives no text. -/
def ssInt8ToAscii (i8 : SsInt8) (radix width : ℕ) (leftfillch : Char) (isSigned : Bool) :
    Option (List Char) :=
  let sign := radix = 10 && isSigned && i8.isneg
  let i8 := (negateIf sign i8).2
  if radix < 2 ∨ 36 < radix then some []
  else if width = 0 then
    (asciiDigits (.set2U4 0 radix) 65 i8).map fun digits =>
      (if sign then ['-'] else []) ++ digits.reverse
  else
    (asciiWidthDigits (.set2U4 0 radix) width i8 []).map fun r =>
      asciiFill leftfillch sign r.1 r.2

/-! ## Scanning -/

structure Int8Scan where
  valid : Bool
  v : SsInt8
  mismatch : List Char

/-- The loop of `SsStrScanInt8`. -/
def scanInt8Loop (neg succp valid : Bool) (v : SsInt8) : List Char → Int8Scan
  | [] => ⟨valid, v, []⟩
  | c :: s =>
    if isDigitChar c then
      if !succp then ⟨false, v, c :: s⟩
      else
        let m := ssInt8MultiplyByInt2 v 10
        if !m.1 then ⟨false, m.2, c :: s⟩
        else
          let a := ssInt8AddUint2 m.2 (UInt16.ofNat (c.toNat - '0'.toNat))
          -- the absolute value of the lowest value
          if !a.1 && (a.2.lsU4 ≠ 0 || a.2.msU4 ≠ 0x80000000 || !neg) then ⟨false, a.2, c :: s⟩
          else scanInt8Loop neg a.1 true a.2 s
    else ⟨valid, v, c :: s⟩

def scanInt8Sign : List Char → Bool × List Char
  | '-' :: s => (true, s)
  | '+' :: s => (false, s)
  | s => (false, s)

/-- `SsStrScanInt8`: whether the scan succeeds, the result and the mismatch position. -/
def ssStrScanInt8 (s : List Char) : Bool × SsInt8 × List Char :=
  let (neg, s) := scanInt8Sign (s.dropWhile ssIsspace)
  let r := scanInt8Loop neg true false (.set2U4 0 0) s
  let v := (negateIf neg r.v).2
  (r.valid, if r.valid then v else .set2U4 0 0, r.mismatch)

end

/-!
## Printing and scanning eight-byte integers

The scan goes on as long as the number fits, where the lowest value is allowed once as an
absolute value; the digits that are printed are those of the absolute value.
-/

section

open SsInt8

/-! ## The steps of the scan -/

theorem addUint2_spec {v : SsInt8} (hv : v.toNat < 2 ^ 63) (t : UInt16) :
    ((ssInt8AddUint2 v t).1 = true ↔ v.toNat + t.toNat < 2 ^ 63) ∧
      (ssInt8AddUint2 v t).2.toNat = v.toNat + t.toNat := by
  have ht := t.toNat_lt
  have hfst := addUint2WithShift_fst v t 0
  have hval := toNat_addUint2WithShift v t (Nat.zero_le 4)
  rw [pow_zero, mul_one, Nat.mod_eq_of_lt (by omega)] at hval
  rw [ssInt8AddUint2, ← Bool.not_eq_false, hfst, hval]
  omega

/-! ## The loop of the scan -/

def AcceptsInt8 (neg : Bool) (n : ℕ) : Prop := n < 2 ^ 63 ∨ neg = true ∧ n = 2 ^ 63

theorem AcceptsInt8.of_appendDigits {neg : Bool} {n : ℕ} {ds : List (Fin 10)}
    (h : AcceptsInt8 neg (appendDigits n ds)) : AcceptsInt8 neg n := by
  have hle := le_appendDigits n ds
  rcases h with h | ⟨hneg, h⟩
  · exact Or.inl (hle.trans_lt h)
  · rcases Nat.lt_or_eq_of_le (hle.trans h.le) with hlt | heq
    · exact Or.inl hlt
    · exact Or.inr ⟨hneg, heq⟩

theorem scanInt8Loop_noDigit {rest : List Char} (hrest : NoDigit rest) (neg succp valid : Bool)
    (v : SsInt8) : scanInt8Loop neg succp valid v rest = ⟨valid, v, rest⟩ := by
  cases rest with
  | nil => rfl
  | cons c s =>
      have hc : ¬ isDigitChar c = true := by
        rw [hrest c rfl]
        exact Bool.false_ne_true
      rw [scanInt8Loop, if_neg hc]

theorem lowest_halves (v : SsInt8) : (v.lsU4 ≠ 0 ∨ v.msU4 ≠ 0x80000000) ↔ v.toNat ≠ 2 ^ 63 := by
  have hls := v.lsU4_lt
  have hms := v.msU4_lt
  rw [v.toNat_eq_halves]
  omega

theorem digit_toUInt16 (d : Fin 10) :
    (UInt16.ofNat ((Nat.digitChar d).toNat - '0'.toNat)).toNat = d := by
  decide +revert

theorem scanInt8Loop_digit {v : SsInt8} (hv : v.toNat < 2 ^ 63) (neg valid : Bool) (d : Fin 10)
    (s : List Char) :
    (AcceptsInt8 neg (v.toNat * 10 + d) →
      ∃ v' succp, v'.toNat = v.toNat * 10 + d ∧ (succp = true ↔ v'.toNat < 2 ^ 63) ∧
        scanInt8Loop neg true valid v (Nat.digitChar d :: s) =
          scanInt8Loop neg succp true v' s) ∧
    (¬ AcceptsInt8 neg (v.toNat * 10 + d) →
      (scanInt8Loop neg true valid v (Nat.digitChar d :: s)).valid = false) := by
  have hd := d.isLt
  obtain ⟨hmfst, hmval⟩ := multiplyInt2_spec hv (m := 10) (by decide)
  have hten : (10 : UInt16).toNat = 10 := rfl
  rw [hten] at hmfst hmval
  have hloop : scanInt8Loop neg true valid v (Nat.digitChar d :: s) =
      if (!(ssInt8MultiplyByInt2 v 10).1) = true then
        ⟨false, (ssInt8MultiplyByInt2 v 10).2, Nat.digitChar d :: s⟩
      else
        let a := ssInt8AddUint2 (ssInt8MultiplyByInt2 v 10).2
          (UInt16.ofNat ((Nat.digitChar d).toNat - '0'.toNat))
        if (!a.1 && (a.2.lsU4 ≠ 0 || a.2.msU4 ≠ 0x80000000 || !neg)) = true then
          ⟨false, a.2, Nat.digitChar d :: s⟩
        else scanInt8Loop neg a.1 true a.2 s := by
    rw [scanInt8Loop, if_pos (isDigitChar_digitChar d), if_neg (by decide)]
  rw [hloop]
  by_cases hm : v.toNat * 10 < 2 ^ 63
  · rw [if_neg (by rw [hmfst.mpr hm]; decide)]
    have hmtoNat := hmval hm
    obtain ⟨hafst, haval⟩ := addUint2_spec (v := (ssInt8MultiplyByInt2 v 10).2)
      (by rw [hmtoNat]; exact hm) (UInt16.ofNat ((Nat.digitChar d).toNat - '0'.toNat))
    rw [digit_toUInt16, hmtoNat] at hafst haval
    generalize ssInt8AddUint2 (ssInt8MultiplyByInt2 v 10).2
      (UInt16.ofNat ((Nat.digitChar d).toNat - '0'.toNat)) = a at hafst haval
    simp only []
    have hcond : (!a.1 && (a.2.lsU4 ≠ 0 || a.2.msU4 ≠ 0x80000000 || !neg)) = true ↔
        ¬ AcceptsInt8 neg (v.toNat * 10 + d) := by
      have hlow := lowest_halves a.2
      rw [haval] at hlow
      rw [Bool.and_eq_true, Bool.or_eq_true, Bool.or_eq_true, decide_eq_true_iff,
        decide_eq_true_iff, hlow, Bool.not_eq_true', Bool.not_eq_true', ← Bool.not_eq_true,
        hafst, AcceptsInt8, not_or, not_and_or, ← Bool.not_eq_true, or_comm]
    constructor
    · intro h
      refine ⟨a.2, a.1, haval, by rw [haval]; exact hafst, ?_⟩
      rw [if_neg fun h' => hcond.mp h' h]
    · intro h
      rw [if_pos (hcond.mpr h)]
  · have hfalse : (!(ssInt8MultiplyByInt2 v 10).1) = true := by
      rw [Bool.not_eq_true', ← Bool.not_eq_true, hmfst]
      exact hm
    rw [if_pos hfalse]
    refine ⟨fun h => ?_, fun _ => rfl⟩
    exfalso
    rcases h with h | ⟨-, h⟩ <;> omega

/-- Digits behind a number: the scan succeeds if the whole number is taken. -/
theorem scanInt8Loop_digits {rest : List Char} (hrest : NoDigit rest) (neg : Bool) :
    ∀ (ds : List (Fin 10)) (v : SsInt8) (succp valid : Bool), AcceptsInt8 neg v.toNat →
      (succp = true ↔ v.toNat < 2 ^ 63) →
      (AcceptsInt8 neg (appendDigits v.toNat ds) →
        ∃ v', scanInt8Loop neg succp valid v (digitText ds ++ rest) =
          ⟨valid || !ds.isEmpty, v', rest⟩ ∧ v'.toNat = appendDigits v.toNat ds) ∧
      (¬ AcceptsInt8 neg (appendDigits v.toNat ds) →
        (scanInt8Loop neg succp valid v (digitText ds ++ rest)).valid = false)
  | [], v, succp, valid, hv, _ => by
    refine ⟨fun _ => ⟨v, ?_, rfl⟩, fun h => absurd hv h⟩
    rw [digitText, List.map_nil, List.nil_append, scanInt8Loop_noDigit hrest, List.isEmpty_nil,
      Bool.not_true, Bool.or_false]
  | d :: ds, v, succp, valid, hv, hsuccp => by
    rw [appendDigits_cons, digitText, List.map_cons, List.cons_append]
    cases succp with
    | false =>
        -- the number is the lowest value already
        have hge : ¬ v.toNat < 2 ^ 63 := fun h => Bool.false_ne_true (hsuccp.mpr h)
        have hfalse : (scanInt8Loop neg false valid v
            (Nat.digitChar d :: (ds.map (fun d : Fin 10 => Nat.digitChar d) ++ rest))).valid =
              false := by
          rw [scanInt8Loop, if_pos (isDigitChar_digitChar d), if_pos (by decide)]
        refine ⟨fun h => ?_, fun _ => hfalse⟩
        exfalso
        rcases h.of_appendDigits with h | ⟨-, h⟩ <;> omega
    | true =>
        obtain ⟨hyes, hno⟩ := scanInt8Loop_digit (hsuccp.mp rfl) neg valid d
          (ds.map (fun d : Fin 10 => Nat.digitChar d) ++ rest)
        by_cases hacc : AcceptsInt8 neg (v.toNat * 10 + d)
        · obtain ⟨v', succp', hv', hsuccp', hstep⟩ := hyes hacc
          have ih := scanInt8Loop_digits hrest neg ds v' succp' true (by rw [hv']; exact hacc)
            hsuccp'
          rw [hstep, ← hv']
          rw [Bool.true_or] at ih
          rw [List.isEmpty_cons, Bool.not_false, Bool.or_true]
          exact ih
        · exact ⟨fun h => absurd h.of_appendDigits hacc, fun _ => hno hacc⟩

/-! ## The sign -/

namespace DecimalSign

theorem fitsInt8_apply (sign : DecimalSign) (n : ℕ) :
    FitsInt8 (sign.apply n) ↔ AcceptsInt8 sign.isMinus n := by
  rw [FitsInt8, AcceptsInt8, apply]
  cases sign.isMinus with
  | true =>
      simp only [if_true, true_and]
      omega
  | false =>
      simp only [Bool.false_eq_true, if_false, false_and, or_false]
      omega

end DecimalSign

theorem scanInt8Sign_digits (sign : DecimalSign) (d : Fin 10) (s : List Char) :
    scanInt8Sign ((sign.text ++ Nat.digitChar d :: s).dropWhile ssIsspace) =
      (sign.isMinus, Nat.digitChar d :: s) := by
  cases sign with
  | none =>
      have hminus : Nat.digitChar d ≠ '-' := by decide +revert
      have hplus : Nat.digitChar d ≠ '+' := by decide +revert
      rw [DecimalSign.text, List.nil_append, List.dropWhile_cons_of_neg (by
        rw [ssIsspace_digitChar]
        exact Bool.false_ne_true), scanInt8Sign]
      · rfl
      · exact fun s' h => hminus (List.cons.inj h).1
      · exact fun s' h => hplus (List.cons.inj h).1
  | plus => rfl
  | minus => rfl

/-- The scan of a sign and digits with what follows them. -/
theorem ssStrScanInt8_digits {rest : List Char} (hrest : NoDigit rest) (sign : DecimalSign)
    (d : Fin 10) (ds : List (Fin 10)) :
    (FitsInt8 (sign.apply (appendDigits 0 (d :: ds))) →
      ssStrScanInt8 (sign.text ++ digitText (d :: ds) ++ rest) =
        (true, ofInt (sign.apply (appendDigits 0 (d :: ds))), rest)) ∧
    (¬ FitsInt8 (sign.apply (appendDigits 0 (d :: ds))) →
      (ssStrScanInt8 (sign.text ++ digitText (d :: ds) ++ rest)).1 = false) := by
  have hzero : (set2U4 0 0).toNat = 0 := rfl
  have hsplit : scanInt8Sign ((sign.text ++ digitText (d :: ds) ++ rest).dropWhile ssIsspace) =
      (sign.isMinus, digitText (d :: ds) ++ rest) := by
    rw [List.append_assoc]
    exact scanInt8Sign_digits sign d _
  obtain ⟨hyes, hno⟩ := scanInt8Loop_digits hrest sign.isMinus (d :: ds) (.set2U4 0 0) true false
    (Or.inl (by rw [hzero]; decide)) (by rw [hzero]; decide)
  rw [hzero, ← sign.fitsInt8_apply] at hyes hno
  rw [ssStrScanInt8, hsplit]
  simp only []
  constructor
  · intro hfits
    obtain ⟨v, hloop, hv⟩ := hyes hfits
    rw [hloop, List.isEmpty_cons, Bool.not_false, Bool.or_true]
    simp only [if_true, Prod.mk.injEq, and_true, true_and]
    apply toInt_injective
    rw [toInt_ofInt hfits, toInt_eq_iff]
    refine ⟨hfits.1, hfits.2, ?_⟩
    rw [negateIf_toNat_emod, hv]
    rfl
  · exact fun hfits => hno hfits

/-! ## The digits that are printed -/

theorem asciiDigits_spec {radix : ℕ} (hradix : 2 ≤ radix) (hlt : radix < 2 ^ 32) :
    ∀ (fuel : ℕ) (i8 : SsInt8), i8.toNat < 2 ^ fuel →
      ∃ ds : List ℕ, asciiDigits (.set2U4 0 radix) (fuel + 1) i8 = some (ds.map ltoaDigitxlate) ∧
        ds ≠ [] ∧ (∀ d ∈ ds, d < radix) ∧ Nat.ofDigits radix ds = i8.toNat := by
  have hr : (set2U4 0 radix).toNat = radix := by
    rw [toNat_set2U4 (by decide) hlt, mul_zero, add_zero]
  intro fuel
  induction fuel with
  | zero =>
      intro i8 hi8
      obtain ⟨q, r, hdiv, hq, hrem⟩ := ssInt8UnsignedDivide_spec (x := i8)
        (y := .set2U4 0 radix) (by rw [hr]; omega)
      have h0 : i8.toNat = 0 := Nat.lt_one_iff.mp hi8
      rw [hr, h0, Nat.zero_div] at hq
      rw [hr, h0, Nat.zero_mod] at hrem
      have hls : r.lsU4 = 0 := by
        have := r.toNat_eq_halves
        omega
      refine ⟨[0], ?_, List.cons_ne_nil _ _, by simp; omega, ?_⟩
      · rw [asciiDigits, hdiv, Option.bind_some, if_pos (q.is0_iff.mpr hq), hls]
        rfl
      · rw [h0, Nat.ofDigits_singleton]
  | succ fuel ih =>
      intro i8 hi8
      obtain ⟨q, r, hdiv, hq, hrem⟩ := ssInt8UnsignedDivide_spec (x := i8)
        (y := .set2U4 0 radix) (by rw [hr]; omega)
      rw [hr] at hq hrem
      have hmod : i8.toNat % radix < radix := Nat.mod_lt _ (by omega)
      have hls : r.lsU4 = i8.toNat % radix := by
        have := r.toNat_eq_halves
        have := r.msU4_lt
        have := r.lsU4_lt
        omega
      have hdm := Nat.mod_add_div i8.toNat radix
      rw [asciiDigits, hdiv, Option.bind_some, hls]
      by_cases h0 : q.toNat = 0
      · refine ⟨[i8.toNat % radix], ?_, List.cons_ne_nil _ _, by simpa using hmod, ?_⟩
        · rw [if_pos (q.is0_iff.mpr h0)]
          rfl
        · rw [Nat.ofDigits_singleton]
          rw [← hq, h0, mul_zero, add_zero] at hdm
          exact hdm
      · have hqlt : q.toNat < 2 ^ fuel := by
          rw [hq]
          have hle : i8.toNat / radix ≤ i8.toNat / 2 := Nat.div_le_div_left hradix (by decide)
          rw [pow_succ] at hi8
          omega
        obtain ⟨ds, hds, hne, hall, hval⟩ := ih q hqlt
        refine ⟨i8.toNat % radix :: ds, ?_, List.cons_ne_nil _ _,
          List.forall_mem_cons.mpr ⟨hmod, hall⟩, ?_⟩
        · rw [if_neg fun h => h0 (q.is0_iff.mp h), hds]
          rfl
        · rw [Nat.ofDigits_cons, hval, hq]
          exact hdm

theorem appendDigits_reverse (ds : List (Fin 10)) :
    appendDigits 0 ds.reverse = Nat.ofDigits 10 (ds.map fun d : Fin 10 => (d : ℕ)) := by
  induction ds with
  | nil => rfl
  | cons d ds ih =>
      rw [List.reverse_cons, appendDigits_append, ih, List.map_cons, Nat.ofDigits_cons,
        appendDigits_cons, appendDigits_nil, mul_comm, add_comm]

theorem ltoaDigitxlate_fin (d : Fin 10) : ltoaDigitxlate d = Nat.digitChar d := by
  decide +revert

/-- The text of a value: its sign and the digits of its absolute value. -/
theorem ssInt8ToAscii_text (i8 : SsInt8) (leftfillch : Char) :
    ∃ (sign : DecimalSign) (d : Fin 10) (ds : List (Fin 10)),
      ssInt8ToAscii i8 10 0 leftfillch true = some (sign.text ++ digitText (d :: ds)) ∧
        sign.apply (appendDigits 0 (d :: ds)) = i8.toInt := by
  have habs := negateIf_isneg_toNat i8
  have hlt := (negateIf i8.isneg i8).2.toNat_lt
  obtain ⟨ns, hns, hne, hall, hval⟩ := asciiDigits_spec (show 2 ≤ 10 by decide) (by decide) 64
    (negateIf i8.isneg i8).2 hlt
  -- the digits as numbers below ten, in the order of the text
  obtain ⟨es, rfl⟩ : ∃ es : List (Fin 10), ns = es.map fun e : Fin 10 => (e : ℕ) := by
    refine ⟨ns.pmap Fin.mk hall, ?_⟩
    rw [List.map_pmap]
    simp
  have hesne : es.reverse ≠ [] := fun h => hne (by rw [List.reverse_eq_nil_iff.mp h]; rfl)
  obtain ⟨d, ds, hes⟩ := List.exists_cons_of_ne_nil hesne
  have htext : (List.map ltoaDigitxlate (es.map fun e : Fin 10 => (e : ℕ))).reverse =
      digitText (d :: ds) := by
    rw [← hes, digitText, List.map_reverse, List.map_map]
    congr 1
    exact List.map_congr_left fun e _ => ltoaDigitxlate_fin e
  have hnum : appendDigits 0 (d :: ds) = i8.toInt.natAbs := by
    rw [← hes, appendDigits_reverse, hval, habs]
  refine ⟨if i8.isneg then .minus else .none, d, ds, ?_, ?_⟩
  · rw [ssInt8ToAscii]
    simp only [decide_true, Bool.true_and, if_true]
    rw [if_neg (by decide), hns, Option.map_some, htext]
    cases i8.isneg <;> rfl
  · have heq := toInt_eq_natAbs i8
    rw [hnum, heq, DecimalSign.apply]
    have habs2 : ((if i8.isneg = true then -(i8.toInt.natAbs : ℤ) else i8.toInt.natAbs)).natAbs =
        i8.toInt.natAbs := by rw [← heq]
    rw [habs2]
    cases i8.isneg <;> rfl

/-! ## Round trip -/

/-- The text of a value scans to it and is consumed; a sign and digits are scanned exactly when
the number fits, and then to this number. -/
theorem int8_text_scan :
    (∀ i8 leftfillch, ∃ text, ssInt8ToAscii i8 10 0 leftfillch true = some text ∧
      ssStrScanInt8 text = (true, i8, [])) ∧
    ∀ (sign : DecimalSign) (d : Fin 10) (ds : List (Fin 10)),
      ((ssStrScanInt8 (sign.text ++ digitText (d :: ds))).1 = true ↔
        FitsInt8 (sign.apply (appendDigits 0 (d :: ds)))) ∧
      (FitsInt8 (sign.apply (appendDigits 0 (d :: ds))) →
        ∃ v, ssStrScanInt8 (sign.text ++ digitText (d :: ds)) = (true, v, []) ∧
          v.toInt = sign.apply (appendDigits 0 (d :: ds))) := by
  have hnil : NoDigit [] := fun c hc => nomatch hc
  have hscan (sign : DecimalSign) (d : Fin 10) (ds : List (Fin 10)) :=
    ssStrScanInt8_digits hnil sign d ds
  simp only [List.append_nil] at hscan
  constructor
  · intro i8 leftfillch
    obtain ⟨sign, d, ds, htext, hval⟩ := ssInt8ToAscii_text i8 leftfillch
    refine ⟨_, htext, ?_⟩
    rw [(hscan sign d ds).1 (by rw [hval]; exact fitsInt8_toInt i8), hval]
    congr 2
    exact toInt_injective (toInt_ofInt (fitsInt8_toInt i8))
  · intro sign d ds
    obtain ⟨hyes, hno⟩ := hscan sign d ds
    refine ⟨⟨fun h => ?_, fun h => by rw [hyes h]⟩, fun h => ⟨_, hyes h, toInt_ofInt h⟩⟩
    by_contra hfits
    rw [hno hfits] at h
    exact Bool.false_ne_true h

end

end SolidDB
