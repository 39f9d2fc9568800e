import SolidDB.Foundation.ByteNumber
import Mathlib.Algebra.Order.Field.Basic
import Mathlib.Algebra.Order.Field.Rat
import Mathlib.Tactic.FieldSimp
import Mathlib.Tactic.Positivity

/-!
# Digits in bytes

Lists of bytes that hold the digits of a number to a base, the highest one first. The
dictionary order of such lists is the order of the fractions below one that they denote.
-/

namespace SolidDB

variable {b : ℕ} {d : UInt8} {ds es : List UInt8}

def ofDigitBytes (b : ℕ) (ds : List UInt8) : ℕ := Nat.ofDigits b (ds.reverse.map UInt8.toNat)

@[simp] theorem ofDigitBytes_nil : ofDigitBytes b [] = 0 := rfl

theorem ofDigitBytes_append (b : ℕ) (ds es : List UInt8) :
    ofDigitBytes b (ds ++ es) = ofDigitBytes b ds * b ^ es.length + ofDigitBytes b es := by
  rw [ofDigitBytes, List.reverse_append, List.map_append, Nat.ofDigits_append, List.length_map,
    List.length_reverse, add_comm, mul_comm]
  rfl

theorem ofDigitBytes_singleton (b : ℕ) (d : UInt8) : ofDigitBytes b [d] = d.toNat :=
  Nat.ofDigits_singleton

theorem ofDigitBytes_cons (b : ℕ) (d : UInt8) (ds : List UInt8) :
    ofDigitBytes b (d :: ds) = d.toNat * b ^ ds.length + ofDigitBytes b ds := by
  rw [← List.singleton_append, ofDigitBytes_append, ofDigitBytes_singleton]

def DigitBytes (b : ℕ) (ds : List UInt8) : Prop := ∀ d ∈ ds, d.toNat < b

theorem DigitBytes.head (h : DigitBytes b (d :: ds)) : d.toNat < b := h d List.mem_cons_self

theorem DigitBytes.tail (h : DigitBytes b (d :: ds)) : DigitBytes b ds :=
  fun e he => h e (List.mem_cons_of_mem d he)

theorem DigitBytes.cons (hd : d.toNat < b) (h : DigitBytes b ds) : DigitBytes b (d :: ds) :=
  List.forall_mem_cons.mpr ⟨hd, h⟩

theorem ofDigitBytes_lt (h : DigitBytes b ds) : ofDigitBytes b ds < b ^ ds.length := by
  induction ds with
  | nil => exact Nat.one_pos
  | cons d ds ih =>
      have hlt := ih h.tail
      have hmul := Nat.mul_le_mul_right (b ^ ds.length) (Nat.succ_le_of_lt h.head)
      rw [ofDigitBytes_cons, List.length_cons, pow_succ, mul_comm (b ^ ds.length)]
      rw [Nat.succ_mul] at hmul
      omega

def NoLastZero (ds : List UInt8) : Prop := ds.getLast? ≠ some 0

theorem NoLastZero.tail {ds : List UInt8} (h : NoLastZero (d :: ds)) : NoLastZero ds := by
  cases ds with
  | nil => exact Option.some_ne_none 0 ∘ Eq.symm
  | cons e ds => exact h

theorem NoLastZero.ne_zero (h : NoLastZero [d]) : d ≠ 0 := fun hd => h (congrArg some hd)

theorem ofDigitBytes_pos (b : ℕ) (h : NoLastZero (d :: ds)) : 0 < ofDigitBytes b (d :: ds) := by
  induction ds generalizing d with
  | nil =>
      rw [ofDigitBytes_singleton]
      exact Nat.pos_of_ne_zero fun h0 => h.ne_zero (UInt8.toNat_inj.mp h0)
  | cons e ds ih =>
      rw [ofDigitBytes_cons]
      exact Nat.add_pos_right _ (ih h.tail)

/-! ## Fractions -/

def digitFraction (b : ℕ) (ds : List UInt8) : ℚ := ofDigitBytes b ds / b ^ ds.length

theorem digitFraction_nonneg (b : ℕ) (ds : List UInt8) : 0 ≤ digitFraction b ds := by
  rw [digitFraction]
  positivity

theorem digitFraction_cons (hb : 0 < b) (d : UInt8) (ds : List UInt8) :
    digitFraction b (d :: ds) = (d.toNat + digitFraction b ds) / b := by
  have hpos : (b : ℚ) ≠ 0 := Nat.cast_ne_zero.mpr hb.ne'
  rw [digitFraction, digitFraction, ofDigitBytes_cons, List.length_cons, pow_succ]
  push_cast
  field_simp

theorem digitFraction_lt_one (hb : 0 < b) (h : DigitBytes b ds) : digitFraction b ds < 1 := by
  have hpos : (0 : ℚ) < b ^ ds.length := pow_pos (Nat.cast_pos.mpr hb) _
  rw [digitFraction, div_lt_one hpos]
  exact_mod_cast ofDigitBytes_lt h

theorem digitFraction_pos (hb : 0 < b) (h : NoLastZero (d :: ds)) :
    0 < digitFraction b (d :: ds) := by
  have hpos : (0 : ℚ) < b ^ (d :: ds).length := pow_pos (Nat.cast_pos.mpr hb) _
  exact div_pos (Nat.cast_pos.mpr (ofDigitBytes_pos b h)) hpos

/-- A first digit other than zero bounds the fraction from below. -/
theorem le_digitFraction (hb : 0 < b) (hd : d ≠ 0) (ds : List UInt8) :
    1 / (b : ℚ) ≤ digitFraction b (d :: ds) := by
  have hpos : (0 : ℚ) < b := Nat.cast_pos.mpr hb
  have hone : (1 : ℚ) ≤ d.toNat := by
    exact_mod_cast Nat.pos_of_ne_zero fun h0 => hd (UInt8.toNat_inj.mp h0)
  have hnonneg := digitFraction_nonneg b ds
  rw [digitFraction_cons hb, div_le_div_iff_of_pos_right hpos]
  linarith

/-- Without zeros at the end the dictionary order is the order of the fractions. -/
theorem digitFraction_lt (h : ds < es) (hds : DigitBytes b ds) (hes : DigitBytes b es)
    (hlast : NoLastZero es) : digitFraction b ds < digitFraction b es := by
  induction ds generalizing es with
  | nil =>
      cases es with
      | nil => exact absurd h (List.not_lt_nil _)
      | cons e es =>
          have hpos := digitFraction_pos (Nat.zero_lt_of_lt hes.head) hlast
          rw [digitFraction, ofDigitBytes_nil, Nat.cast_zero, zero_div]
          exact hpos
  | cons d ds ih =>
      cases es with
      | nil => exact absurd h (List.not_lt_nil _)
      | cons e es =>
          have hb := Nat.zero_lt_of_lt hes.head
          have hpos : (0 : ℚ) < b := Nat.cast_pos.mpr hb
          rw [digitFraction_cons hb, digitFraction_cons hb, div_lt_div_iff_of_pos_right hpos]
          rcases List.cons_lt_cons_iff.mp h with hlt | ⟨rfl, htail⟩
          · have hone := digitFraction_lt_one hb hds.tail
            have hnonneg := digitFraction_nonneg b es
            have hdigit : (d.toNat + 1 : ℚ) ≤ e.toNat := by
              exact_mod_cast Nat.succ_le_of_lt (UInt8.lt_iff_toNat_lt.mp hlt)
            linarith
          · have hrec := ih htail hds.tail hes.tail hlast.tail
            linarith

/-! ## Two's complement -/

theorem negateBytes_negateBytes (bs : List UInt8) : (negateBytes (negateBytes bs).1).1 = bs := by
  have hsum := ofBytes_negateBytes bs
  have hsum' := ofBytes_negateBytes (negateBytes bs).1
  have hflag := negateBytes_flag bs
  have hflag' := negateBytes_flag (negateBytes bs).1
  have hlt := ofBytes_lt (negateBytes bs).1
  rw [length_negateBytes] at hsum' hlt
  refine ofBytes_injective (by rw [length_negateBytes, length_negateBytes]) ?_
  cases h : (negateBytes bs).2 with
  | true =>
      have hzero := hflag.mp h
      rw [h, if_pos rfl] at hsum
      rw [hflag'.mpr (by omega), if_pos rfl] at hsum'
      omega
  | false =>
      have hne : (negateBytes (negateBytes bs).1).2 = false := by
        rw [Bool.eq_false_iff, ne_eq, hflag']
        intro hzero
        rw [h, if_neg Bool.false_ne_true, hzero, zero_add] at hsum
        have hbs := ofBytes_lt bs
        omega
      rw [h, if_neg Bool.false_ne_true] at hsum
      rw [hne, if_neg Bool.false_ne_true] at hsum'
      omega

theorem negateBytes_cons_cons {c : UInt8} {bs : List UInt8} (h : NoLastZero (c :: bs))
    (a : UInt8) : (negateBytes (a :: c :: bs)).1 = ~~~a :: (negateBytes (c :: bs)).1 := by
  have hpos := ofDigitBytes_pos 256 h
  have hflag : (negateBytes (c :: bs)).2 = false := by
    rw [Bool.eq_false_iff, ne_eq, negateBytes_flag]
    exact hpos.ne'
  rw [negateBytes]
  simp only [hflag, Bool.false_eq_true, if_false]

theorem negateBytes_singleton (a : UInt8) : (negateBytes [a]).1 = [~~~a + 1] := rfl

theorem negateBytes_lt_singleton {a c : UInt8} {cs : List UInt8} (ha : a ≠ 0)
    (hcs : NoLastZero (c :: cs)) (h : [a] < c :: cs) :
    (negateBytes (c :: cs)).1 < (negateBytes [a]).1 := by
  have hpos := Nat.pos_of_ne_zero fun h0 => ha (UInt8.toNat_inj.mp h0)
  have ha' := a.toNat_lt
  have hc' := c.toNat_lt
  have hcase := List.cons_lt_cons_iff.mp h
  cases cs with
  | nil =>
      have hlt := hcase.resolve_right fun hand => List.not_lt_nil _ hand.2
      rw [UInt8.lt_iff_toNat_lt] at hlt
      rw [negateBytes_singleton, negateBytes_singleton, List.cons_lt_cons_iff,
        UInt8.lt_iff_toNat_lt, toNat_compl_add_one, toNat_compl_add_one]
      omega
  | cons e es =>
      have hle : a.toNat ≤ c.toNat := by
        rcases hcase with hlt | ⟨rfl, -⟩
        · exact (UInt8.lt_iff_toNat_lt.mp hlt).le
        · exact le_rfl
      rw [negateBytes_cons_cons hcs.tail, negateBytes_singleton, List.cons_lt_cons_iff,
        UInt8.lt_iff_toNat_lt, toNat_compl_add_one, toNat_compl]
      omega

theorem singleton_negateBytes_lt {a c e : UInt8} {es : List UInt8}
    (hes : NoLastZero (e :: es)) (h : a < c) :
    (negateBytes [c]).1 < (negateBytes (a :: e :: es)).1 := by
  have hc' := c.toNat_lt
  rw [UInt8.lt_iff_toNat_lt] at h
  rw [negateBytes_cons_cons hes, negateBytes_singleton, List.cons_lt_cons_iff]
  rcases Nat.lt_or_ge (a.toNat + 1) c.toNat with hmore | hnext
  · left
    rw [UInt8.lt_iff_toNat_lt, toNat_compl_add_one, toNat_compl]
    omega
  · -- the heads are equal and one list goes on
    refine Or.inr ⟨?_, ?_⟩
    · rw [← UInt8.toNat_inj, toNat_compl_add_one, toNat_compl]
      omega
    · have hne : (negateBytes (e :: es)).1 ≠ [] := by
        refine List.ne_nil_of_length_pos ?_
        rw [length_negateBytes]
        exact Nat.succ_pos _
      obtain ⟨x, xs, hx⟩ := List.exists_cons_of_ne_nil hne
      rw [hx]
      exact List.nil_lt_cons x xs

theorem negateBytes_lt {bs cs : List UInt8} (h : bs < cs) (hne : bs ≠ []) (hbs : NoLastZero bs)
    (hcs : NoLastZero cs) : (negateBytes cs).1 < (negateBytes bs).1 := by
  induction bs generalizing cs with
  | nil => exact absurd rfl hne
  | cons a bs ih =>
      cases cs with
      | nil => exact absurd h (List.not_lt_nil _)
      | cons c cs =>
          cases bs with
          | nil => exact negateBytes_lt_singleton hbs.ne_zero hcs h
          | cons e es =>
              have hcase := List.cons_lt_cons_iff.mp h
              cases cs with
              | nil =>
                  exact singleton_negateBytes_lt hbs.tail
                    (hcase.resolve_right fun hand => List.not_lt_nil _ hand.2)
              | cons k ks =>
                  rw [negateBytes_cons_cons hbs.tail, negateBytes_cons_cons hcs.tail,
                    List.cons_lt_cons_iff]
                  rcases hcase with hlt | ⟨rfl, htail⟩
                  · have hc' := c.toNat_lt
                    left
                    rw [UInt8.lt_iff_toNat_lt] at hlt ⊢
                    rw [toNat_compl, toNat_compl]
                    omega
                  · exact Or.inr ⟨rfl, ih htail (List.cons_ne_nil _ _) hbs.tail hcs.tail⟩

end SolidDB
