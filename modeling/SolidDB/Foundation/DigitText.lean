import Mathlib.Data.Nat.Digits.Defs
import Mathlib.Data.Fin.Basic
import Mathlib.Tactic.Common
import Mathlib.Tactic.Ring

/-!
# Decimal digits as text

Texts of decimal digits, the highest one first, and the numbers that are read from them.
-/

namespace SolidDB

variable {n : ℕ}

def isDigitChar (c : Char) : Bool := '0' ≤ c && c ≤ '9'

def appendDigits (n : ℕ) (ds : List (Fin 10)) : ℕ := ds.foldl (fun n (d : Fin 10) => n * 10 + d) n

@[simp] theorem appendDigits_nil (n : ℕ) : appendDigits n [] = n := rfl

@[simp] theorem appendDigits_cons (n : ℕ) (d : Fin 10) (ds : List (Fin 10)) :
    appendDigits n (d :: ds) = appendDigits (n * 10 + d) ds := rfl

theorem appendDigits_append (n : ℕ) (ds ds' : List (Fin 10)) :
    appendDigits n (ds ++ ds') = appendDigits (appendDigits n ds) ds' := by
  rw [appendDigits, List.foldl_append]
  rfl

theorem appendDigits_eq (n : ℕ) (ds : List (Fin 10)) :
    appendDigits n ds = n * 10 ^ ds.length + appendDigits 0 ds := by
  induction ds generalizing n with
  | nil => rw [appendDigits_nil, List.length_nil, pow_zero, mul_one, appendDigits_nil, add_zero]
  | cons d ds ih =>
      rw [appendDigits_cons, appendDigits_cons, ih (n * 10 + d), ih (0 * 10 + d), List.length_cons,
        pow_succ]
      ring

theorem le_appendDigits (n : ℕ) (ds : List (Fin 10)) : n ≤ appendDigits n ds := by
  have hpow : 0 < 10 ^ ds.length := Nat.pow_pos (by decide)
  rw [appendDigits_eq]
  exact (Nat.le_mul_of_pos_right n hpow).trans (Nat.le_add_right _ _)

def digitText (ds : List (Fin 10)) : List Char := ds.map fun d : Fin 10 => Nat.digitChar d

theorem isDigitChar_digitChar (d : Fin 10) : isDigitChar (Nat.digitChar d) = true := by
  decide +revert

theorem toNat_digitChar (d : Fin 10) : (Nat.digitChar d).toNat - '0'.toNat = d := by
  decide +revert

def NoDigit (s : List Char) : Prop := ∀ c ∈ s.head?, isDigitChar c = false

/-! ## Signs -/

inductive DecimalSign where
  | none
  | plus
  | minus
  deriving DecidableEq

namespace DecimalSign

def text : DecimalSign → List Char
  | none => []
  | plus => ['+']
  | minus => ['-']

def isMinus : DecimalSign → Bool
  | minus => true
  | _ => false

def apply (sign : DecimalSign) (n : ℕ) : ℤ := if sign.isMinus then -(n : ℤ) else n

end DecimalSign

/-! ## The text of a number -/

/-- The text of a number consists of at least one digit and stands for the number. -/
theorem exists_toDigits_eq_digitText (n : ℕ) :
    ∃ d ds, Nat.toDigits 10 n = digitText (d :: ds) ∧ appendDigits 0 (d :: ds) = n := by
  induction n using Nat.strong_induction_on with
  | _ n ih =>
      by_cases hn : n < 10
      · refine ⟨⟨n, hn⟩, [], Nat.toDigits_of_lt_base hn, ?_⟩
        rw [appendDigits_cons, appendDigits_nil, zero_mul, zero_add]
      · have hle : 10 ≤ n := Nat.le_of_not_lt hn
        obtain ⟨d, ds, htext, hval⟩ := ih (n / 10) (Nat.div_lt_self (by omega) (by decide))
        refine ⟨d, ds ++ [⟨n % 10, Nat.mod_lt n (by decide)⟩], ?_, ?_⟩
        · rw [Nat.toDigits_of_base_le (by decide) hle, htext, ← List.cons_append, digitText,
            digitText, List.map_append]
          rfl
        · rw [← List.cons_append, appendDigits_append, hval, appendDigits_cons, appendDigits_nil,
            mul_comm]
          exact Nat.div_add_mod n 10

def zeroPadded (width n : ℕ) : List Char := (Nat.toDigits 10 n).leftpad width '0'

theorem appendDigits_replicate_zero (k : ℕ) (ds : List (Fin 10)) :
    appendDigits 0 (List.replicate k 0 ++ ds) = appendDigits 0 ds := by
  induction k with
  | zero => rfl
  | succ k ih =>
      rw [List.replicate_succ, List.cons_append, appendDigits_cons, zero_mul, zero_add]
      exact ih

theorem exists_zeroPadded_eq_digitText (width n : ℕ) :
    ∃ d ds, zeroPadded width n = digitText (d :: ds) ∧ appendDigits 0 (d :: ds) = n := by
  obtain ⟨d, ds, htext, hval⟩ := exists_toDigits_eq_digitText n
  have hpad (k : ℕ) : List.replicate k '0' ++ digitText (d :: ds) =
      digitText (List.replicate k 0 ++ d :: ds) := by
    rw [digitText, digitText, List.map_append, List.map_replicate]
    rfl
  obtain ⟨e, es, hes⟩ := List.exists_cons_of_ne_nil
    (show List.replicate (width - (Nat.toDigits 10 n).length) (0 : Fin 10) ++ d :: ds ≠ [] by simp)
  refine ⟨e, es, ?_, ?_⟩
  · rw [zeroPadded, List.leftpad, ← hes, ← hpad, htext]
  · rw [← hes, appendDigits_replicate_zero]
    exact hval

theorem length_zeroPadded {width n : ℕ} (hwidth : 0 < width) (hn : n < 10 ^ width) :
    (zeroPadded width n).length = width := by
  rw [zeroPadded, List.length_leftpad]
  exact max_eq_left (Nat.toDigits_length 10 n width hwidth hn)

end SolidDB
