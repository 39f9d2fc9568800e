import SolidDB.Foundation.DigitText

/-!
# Scanning integers

`SsStrScanLong` takes an optional sign and decimal digits, or `0x` and hexadecimal digits; it
computes with an `unsigned long` of 64 bits and rejects a number whose sign does not come out.
-/

namespace SolidDB

def ssIsspace (c : Char) : Bool := c = ' ' || (9 ≤ c.toNat && c.toNat ≤ 13)

/-- The digit for which a character stands. -/
def scanLongDigit (hex : Bool) (c : Char) : Option ℕ :=
  if isDigitChar c then some (c.toNat - '0'.toNat)
  else if hex && 'a' ≤ c && c ≤ 'f' then some (c.toNat - 'a'.toNat + 10)
  else if hex && 'A' ≤ c && c ≤ 'F' then some (c.toNat - 'A'.toNat + 10)
  else none

/-- The loop of `SsStrScanLong`: the number, whether there is a digit, and the rest. -/
def scanLongLoop (hex : Bool) (v : ℕ) (valid : Bool) : List Char → ℕ × Bool × List Char
  | [] => (v, valid, [])
  | c :: s =>
    match scanLongDigit hex c with
    | some t => scanLongLoop hex ((v * (if hex then 16 else 10) + t) % 2 ^ 64) true s
    | none => (v, valid, c :: s)

/-- What stands in front of the digits: whether the number is negative, and whether it is
hexadecimal. -/
def scanLongSign : List Char → Bool × Bool × List Char
  | '-' :: s => (true, false, s)
  | '+' :: s => (false, false, s)
  | '0' :: 'x' :: s => (false, true, s)
  | '0' :: 'X' :: s => (false, true, s)
  | s => (false, false, s)

/-- The conversion to `long`. -/
def toLong (x : ℤ) : ℤ := x.bmod (2 ^ 64)

/-- `SsStrScanLong`: whether the scan succeeds, the number and the mismatch position. -/
def ssStrScanLong (s : List Char) : Bool × ℤ × List Char :=
  let (negative, hex, s) := scanLongSign (s.dropWhile ssIsspace)
  let (v, valid, s) := scanLongLoop hex 0 false s
  if negative then
    let l := toLong (-toLong v)
    (valid && !decide (0 < l), l, s)
  else
    let l := toLong v
    (valid && !decide (l < 0), l, s)

/-- `SsStrScanInt`: the number and the mismatch position. -/
def ssStrScanInt (s : List Char) : Option (ℤ × List Char) :=
  let (succp, l, s) := ssStrScanLong s
  if succp then some (l.bmod (2 ^ 32), s) else none

/-! ## Decimal numbers -/

theorem ssIsspace_digitChar (d : Fin 10) : ssIsspace (Nat.digitChar d) = false := by
  decide +revert

theorem scanLongDigit_digitChar (d : Fin 10) :
    scanLongDigit false (Nat.digitChar d) = some (d : ℕ) := by
  decide +revert

theorem scanLongDigit_noDigit {c : Char} (hc : isDigitChar c = false) :
    scanLongDigit false c = none := by
  rw [scanLongDigit, hc]
  rfl

theorem scanLongLoop_noDigit {rest : List Char} (hrest : NoDigit rest) (v : ℕ) (valid : Bool) :
    scanLongLoop false v valid rest = (v, valid, rest) := by
  cases rest with
  | nil => rfl
  | cons c s => rw [scanLongLoop, scanLongDigit_noDigit (hrest c rfl)]

theorem scanLongLoop_digits {rest : List Char} (hrest : NoDigit rest) (ds : List (Fin 10)) :
    ∀ (v : ℕ) (valid : Bool), appendDigits v ds < 2 ^ 64 →
      scanLongLoop false v valid (digitText ds ++ rest) =
        (appendDigits v ds, valid || !ds.isEmpty, rest) := by
  induction ds with
  | nil =>
      intro v valid _
      rw [digitText, List.map_nil, List.nil_append, scanLongLoop_noDigit hrest, List.isEmpty_nil,
        Bool.not_true, Bool.or_false, appendDigits_nil]
  | cons d ds ih =>
      intro v valid hlt
      rw [appendDigits_cons] at hlt ⊢
      have hstep : v * 10 + d < 2 ^ 64 := (le_appendDigits _ ds).trans_lt hlt
      have hdigits := ih (v * 10 + d) true hlt
      rw [digitText] at hdigits
      rw [digitText, List.map_cons, List.cons_append, scanLongLoop, scanLongDigit_digitChar]
      simp only [Bool.false_eq_true, if_false]
      rw [Nat.mod_eq_of_lt hstep, hdigits, List.isEmpty_cons, Bool.not_false, Bool.or_true,
        Bool.true_or]

/-- Behind the first digit no `x` comes, so that the digits are decimal ones. -/
theorem scanLongSign_digits (sign : DecimalSign) (d : Fin 10) {s : List Char}
    (hs : ∀ c ∈ s.head?, c ≠ 'x' ∧ c ≠ 'X') :
    scanLongSign ((sign.text ++ Nat.digitChar d :: s).dropWhile ssIsspace) =
      (sign.isMinus, false, Nat.digitChar d :: s) := by
  cases sign with
  | none =>
      have hminus : Nat.digitChar d ≠ '-' := by decide +revert
      have hplus : Nat.digitChar d ≠ '+' := by decide +revert
      rw [DecimalSign.text, List.nil_append, List.dropWhile_cons_of_neg (by
        rw [ssIsspace_digitChar]
        exact Bool.false_ne_true), scanLongSign]
      · rfl
      · exact fun s' h => hminus (List.cons.inj h).1
      · exact fun s' h => hplus (List.cons.inj h).1
      · rintro s' h
        rw [(List.cons.inj h).2] at hs
        exact (hs 'x' rfl).1 rfl
      · rintro s' h
        rw [(List.cons.inj h).2] at hs
        exact (hs 'X' rfl).2 rfl
  | plus => rfl
  | minus => rfl

def NumberEnd (s : List Char) : Prop :=
  ∀ c ∈ s.head?, isDigitChar c = false ∧ c ≠ 'x' ∧ c ≠ 'X'

theorem numberEnd_nil : NumberEnd [] := fun _ hc => nomatch hc

theorem NumberEnd.cons {c : Char} (hc : isDigitChar c = false ∧ c ≠ 'x' ∧ c ≠ 'X')
    (s : List Char) : NumberEnd (c :: s) := by
  intro c' hc'
  cases hc'
  exact hc

theorem digitChar_ne_x (d : Fin 10) : Nat.digitChar d ≠ 'x' ∧ Nat.digitChar d ≠ 'X' := by
  decide +revert

theorem toLong_of_lt {x : ℤ} (hlow : -2 ^ 63 ≤ x) (hlt : x < 2 ^ 63) : toLong x = x := by
  rw [toLong, Int.bmod_eq_of_le (by omega) (by omega)]

/-- A sign and digits are scanned to the number that they stand for. -/
theorem ssStrScanLong_digits {rest : List Char} (hrest : NumberEnd rest) (sign : DecimalSign)
    (d : Fin 10) (ds : List (Fin 10)) (hlt : appendDigits 0 (d :: ds) < 2 ^ 63) :
    ssStrScanLong (sign.text ++ digitText (d :: ds) ++ rest) =
      (true, sign.apply (appendDigits 0 (d :: ds)), rest) := by
  have hhead : ∀ c ∈ (digitText ds ++ rest).head?, c ≠ 'x' ∧ c ≠ 'X' := by
    cases ds with
    | nil => exact fun c hc => (hrest c hc).2
    | cons e es =>
        rintro c hc
        cases hc
        exact digitChar_ne_x e
  have hsplit : scanLongSign ((sign.text ++ digitText (d :: ds) ++ rest).dropWhile ssIsspace) =
      (sign.isMinus, false, digitText (d :: ds) ++ rest) := by
    rw [List.append_assoc]
    exact scanLongSign_digits sign d hhead
  have hloop := scanLongLoop_digits (fun c hc => (hrest c hc).1) (d :: ds) 0 false
    (hlt.trans (by decide))
  rw [List.isEmpty_cons, Bool.not_false, Bool.or_true] at hloop
  rw [ssStrScanLong, hsplit]
  simp only [hloop]
  generalize appendDigits 0 (d :: ds) = n at hlt
  have hlong : toLong n = n := toLong_of_lt (by omega) (by omega)
  rw [hlong, DecimalSign.apply, toLong_of_lt (by omega) (by omega)]
  have hneg : ¬ 0 < -(n : ℤ) := by omega
  have hpos : ¬ (n : ℤ) < 0 := by omega
  cases sign.isMinus with
  | true => rw [if_pos rfl, if_pos rfl, decide_eq_false hneg]; rfl
  | false =>
      rw [if_neg Bool.false_ne_true, if_neg Bool.false_ne_true, decide_eq_false hpos]
      rfl

theorem ssStrScanInt_digits {rest : List Char} (hrest : NumberEnd rest) (sign : DecimalSign)
    (d : Fin 10) (ds : List (Fin 10)) (hlt : appendDigits 0 (d :: ds) < 2 ^ 31) :
    ssStrScanInt (sign.text ++ digitText (d :: ds) ++ rest) =
      some (sign.apply (appendDigits 0 (d :: ds)), rest) := by
  rw [ssStrScanInt, ssStrScanLong_digits hrest sign d ds (hlt.trans (by decide))]
  simp only [if_true]
  rw [Int.bmod_eq_of_le]
  · rw [DecimalSign.apply]
    split <;> omega
  · rw [DecimalSign.apply]
    split <;> omega

/-! ## Formatted numbers -/

/-- The conversion `%0<width>d` of `SsSprintf`. -/
def printInt (width : ℕ) (n : ℤ) : List Char :=
  if n < 0 then '-' :: zeroPadded (width - 1) n.natAbs else zeroPadded width n.natAbs

theorem exists_printInt_eq (width : ℕ) (n : ℤ) :
    ∃ (sign : DecimalSign) (d : Fin 10) (ds : List (Fin 10)),
      printInt width n = sign.text ++ digitText (d :: ds) ∧
        appendDigits 0 (d :: ds) = n.natAbs ∧ sign.apply n.natAbs = n := by
  rw [printInt]
  by_cases hneg : n < 0
  · obtain ⟨d, ds, htext, hval⟩ := exists_zeroPadded_eq_digitText (width - 1) n.natAbs
    refine ⟨.minus, d, ds, ?_, hval, ?_⟩
    · rw [if_pos hneg, htext]
      rfl
    · rw [DecimalSign.apply, DecimalSign.isMinus, if_pos rfl]
      omega
  · obtain ⟨d, ds, htext, hval⟩ := exists_zeroPadded_eq_digitText width n.natAbs
    refine ⟨.none, d, ds, ?_, hval, ?_⟩
    · rw [if_neg hneg, htext]
      rfl
    · have habs : ((n.natAbs : ℕ) : ℤ) = n := by omega
      exact habs

theorem ssStrScanInt_printInt {rest : List Char} (hrest : NumberEnd rest) (width : ℕ) {n : ℤ}
    (hn : n.natAbs < 2 ^ 31) : ssStrScanInt (printInt width n ++ rest) = some (n, rest) := by
  obtain ⟨sign, d, ds, htext, hval, happly⟩ := exists_printInt_eq width n
  rw [htext, ssStrScanInt_digits hrest sign d ds (by rw [hval]; exact hn), hval, happly]

theorem ssStrScanLong_zeroPadded {rest : List Char} (hrest : NumberEnd rest) (width : ℕ) {n : ℕ}
    (hn : n < 2 ^ 63) : ssStrScanLong (zeroPadded width n ++ rest) = (true, (n : ℤ), rest) := by
  obtain ⟨d, ds, htext, hval⟩ := exists_zeroPadded_eq_digitText width n
  have hscan := ssStrScanLong_digits hrest .none d ds (by rw [hval]; exact hn)
  rw [hval] at hscan
  rw [htext]
  exact hscan

end SolidDB
