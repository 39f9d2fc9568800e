import Mathlib.Data.Nat.Digits.Defs
import Mathlib.Data.Nat.Digits.Lemmas
import Mathlib.Tactic.Linarith
import Mathlib.Tactic.Ring

/-!
# Numbers in 16-bit words

A list of words, the low one first, as a number, with the loops that add a word with its
carries, complement all words and multiply by a word.
-/

namespace SolidDB

variable {w c : UInt16} {ws vs : List UInt16}

@[simp] theorem toNat_ofNat_word (n : ℕ) : (UInt16.ofNat n).toNat = n % 65536 :=
  UInt16.toNat_ofNat'

def ofWords (ws : List UInt16) : ℕ := Nat.ofDigits 65536 (ws.map UInt16.toNat)

@[simp] theorem ofWords_nil : ofWords [] = 0 := rfl

theorem ofWords_cons (w : UInt16) (ws : List UInt16) :
    ofWords (w :: ws) = w.toNat + 65536 * ofWords ws := by
  rw [ofWords, List.map_cons, Nat.ofDigits_cons]
  rfl

theorem ofWords_append (ws vs : List UInt16) :
    ofWords (ws ++ vs) = ofWords ws + 65536 ^ ws.length * ofWords vs := by
  rw [ofWords, List.map_append, Nat.ofDigits_append, List.length_map]
  rfl

theorem words_lt (ws : List UInt16) : ∀ x ∈ ws.map UInt16.toNat, x < 65536 := by
  intro x hx
  obtain ⟨w, -, rfl⟩ := List.mem_map.mp hx
  exact w.toNat_lt

theorem ofWords_lt (ws : List UInt16) : ofWords ws < 65536 ^ ws.length := by
  have h := Nat.ofDigits_lt_base_pow_length (b := 65536) (by decide) (words_lt ws)
  rwa [List.length_map] at h

theorem ofWords_injective (hlen : ws.length = vs.length) (h : ofWords ws = ofWords vs) :
    ws = vs := by
  have heq := Nat.ofDigits_inj_of_len_eq (by decide) (by simpa using hlen) (words_lt ws)
    (words_lt vs) h
  exact List.map_injective_iff.mpr (fun _ _ => UInt16.toNat_inj.mp) heq

/-! ## Words of a number -/

def toWords : ℕ → ℕ → List UInt16
  | 0, _ => []
  | k + 1, n => UInt16.ofNat n :: toWords k (n / 65536)

@[simp] theorem toWords_length (k n : ℕ) : (toWords k n).length = k := by
  induction k generalizing n with
  | zero => rfl
  | succ k ih => rw [toWords, List.length_cons, ih]

theorem ofWords_toWords (k n : ℕ) : ofWords (toWords k n) = n % 65536 ^ k := by
  induction k generalizing n with
  | zero => rw [pow_zero, Nat.mod_one, toWords, ofWords_nil]
  | succ k ih =>
      rw [toWords, ofWords_cons, ih, toNat_ofNat_word, pow_succ, mul_comm (65536 ^ k),
        Nat.mod_mul]

/-! ## Adding a word -/

/-- A word is added to the lowest one; the loop ends when there is no carry, and the carry out
of the highest word is lost. -/
def addCarry : List UInt16 → UInt16 → List UInt16
  | [], _ => []
  | w :: ws, c =>
    if c = 0 then w :: ws
    else UInt16.ofNat (w.toNat + c.toNat) :: addCarry ws (UInt16.ofNat ((w.toNat + c.toNat) >>> 16))

@[simp] theorem addCarry_length (ws : List UInt16) (c : UInt16) :
    (addCarry ws c).length = ws.length := by
  induction ws generalizing c with
  | nil => rfl
  | cons w ws ih =>
      rw [addCarry]
      split
      · rfl
      · rw [List.length_cons, ih, List.length_cons]

theorem ofWords_addCarry (ws : List UInt16) (c : UInt16) :
    ofWords (addCarry ws c) = (ofWords ws + c.toNat) % 65536 ^ ws.length := by
  induction ws generalizing c with
  | nil => rw [addCarry, List.length_nil, pow_zero, Nat.mod_one, ofWords_nil]
  | cons w ws ih =>
      rw [addCarry]
      split
      · next h => rw [h, UInt16.toNat_zero, add_zero, Nat.mod_eq_of_lt (ofWords_lt _)]
      · have hw := w.toNat_lt
        have hc := c.toNat_lt
        have hcarry : (UInt16.ofNat ((w.toNat + c.toNat) >>> 16)).toNat =
            (w.toNat + c.toNat) / 65536 := by
          rw [toNat_ofNat_word, Nat.shiftRight_eq_div_pow]
          omega
        rw [ofWords_cons, ih, hcarry, toNat_ofNat_word, ofWords_cons, List.length_cons,
          pow_succ, mul_comm (65536 ^ ws.length), Nat.mod_mul]
        have hlow : (w.toNat + 65536 * ofWords ws + c.toNat) % 65536 =
            (w.toNat + c.toNat) % 65536 := by omega
        have hhigh : (w.toNat + 65536 * ofWords ws + c.toNat) / 65536 =
            ofWords ws + (w.toNat + c.toNat) / 65536 := by omega
        rw [hlow, hhigh]

theorem ofWords_take_addCarry (ws : List UInt16) (c : UInt16) {k : ℕ} (hk : k ≤ ws.length) :
    ofWords (ws.take k ++ addCarry (ws.drop k) c) =
      (ofWords ws + c.toNat * 65536 ^ k) % 65536 ^ ws.length := by
  have hsplit : ofWords ws = ofWords (ws.take k) + 65536 ^ k * ofWords (ws.drop k) := by
    conv_lhs => rw [← List.take_append_drop k ws]
    rw [ofWords_append, List.length_take_of_le hk]
  have hlt : ofWords (ws.take k) < 65536 ^ k := by
    have h := ofWords_lt (ws.take k)
    rwa [List.length_take_of_le hk] at h
  have hpow : 65536 ^ ws.length = 65536 ^ k * 65536 ^ (ws.drop k).length := by
    rw [← pow_add, List.length_drop, Nat.add_sub_cancel' hk]
  have hsum : ofWords ws + c.toNat * 65536 ^ k =
      ofWords (ws.take k) + 65536 ^ k * (ofWords (ws.drop k) + c.toNat) := by
    rw [hsplit]
    ring
  rw [ofWords_append, List.length_take_of_le hk, ofWords_addCarry, hsum, hpow, Nat.mod_mul,
    Nat.add_mul_mod_self_left, Nat.mod_eq_of_lt hlt, Nat.add_mul_div_left _ _ (by positivity),
    Nat.div_eq_of_lt hlt, Nat.zero_add]

/-! ## The complement -/

theorem ofWords_complement (ws : List UInt16) :
    ofWords (ws.map (~~~ ·)) + ofWords ws + 1 = 65536 ^ ws.length := by
  induction ws with
  | nil => rfl
  | cons w ws ih =>
      have hw := w.toNat_lt
      have hnot : (~~~ w).toNat = 65536 - 1 - w.toNat := UInt16.toNat_not w
      rw [List.map_cons, ofWords_cons, ofWords_cons, List.length_cons, pow_succ, ← ih, hnot]
      omega

/-! ## Multiplying by a word -/

def mulCarry (m : ℕ) : List UInt16 → ℕ → List UInt16 × ℕ
  | [], val => ([], val)
  | w :: ws, val =>
    let r := mulCarry m ws ((w.toNat * m + val) >>> 16)
    (UInt16.ofNat (w.toNat * m + val) :: r.1, r.2)

@[simp] theorem mulCarry_length (m : ℕ) (ws : List UInt16) (val : ℕ) :
    (mulCarry m ws val).1.length = ws.length := by
  induction ws generalizing val with
  | nil => rfl
  | cons w ws ih => rw [mulCarry, List.length_cons, ih, List.length_cons]

theorem ofWords_mulCarry (m : ℕ) (ws : List UInt16) (val : ℕ) :
    ofWords (mulCarry m ws val).1 + 65536 ^ ws.length * (mulCarry m ws val).2 =
      ofWords ws * m + val := by
  induction ws generalizing val with
  | nil => simp [mulCarry]
  | cons w ws ih =>
      have h := ih ((w.toNat * m + val) >>> 16)
      have hdm := Nat.mod_add_div (w.toNat * m + val) 65536
      have hshift : (w.toNat * m + val) >>> 16 = (w.toNat * m + val) / 65536 :=
        Nat.shiftRight_eq_div_pow _ 16
      rw [hshift] at h
      simp only [mulCarry, ofWords_cons, List.length_cons, toNat_ofNat_word, hshift]
      rw [pow_succ]
      linarith

end SolidDB
