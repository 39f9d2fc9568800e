import Mathlib.Algebra.Order.Floor.Ring
import Mathlib.Data.Int.NatAbs
import Mathlib.Tactic.FieldSimp
import Mathlib.Tactic.Linarith
import Mathlib.Tactic.Ring

/-!
# Rounding

The two symmetric ways to round a number to an integer, and rounding to a multiple of a
power of ten. Digits can be taken away one after the other: only the last one is rounded.
-/

namespace SolidDB

variable {K : Type*} [Field K] [LinearOrder K] [IsStrictOrderedRing K] [FloorRing K]

def towardZero (x : K) : ℤ := if 0 ≤ x then ⌊x⌋ else ⌈x⌉

def halfAway (x : K) : ℤ := if 0 ≤ x then ⌊x + 1 / 2⌋ else ⌈x - 1 / 2⌉

/-- `x` rounded to a multiple of `10⁻ˢ`. -/
def atScale (round : K → ℤ) (s : ℤ) (x : K) : K := round (x * 10 ^ s) / 10 ^ s

theorem towardZero_neg (x : K) : towardZero (-x) = -towardZero x := by
  rcases lt_trichotomy x 0 with h | rfl | h
  · rw [towardZero, towardZero, if_pos (neg_nonneg.mpr h.le), if_neg (not_le.mpr h),
      Int.floor_neg]
  · simp [towardZero]
  · rw [towardZero, towardZero, if_neg (not_le.mpr (neg_lt_zero.mpr h)), if_pos h.le,
      Int.ceil_neg]

theorem halfAway_neg (x : K) : halfAway (-x) = -halfAway x := by
  rcases lt_trichotomy x 0 with h | rfl | h
  · rw [halfAway, halfAway, if_pos (neg_nonneg.mpr h.le), if_neg (not_le.mpr h), ← Int.floor_neg,
      neg_sub, sub_eq_neg_add, add_comm]
  · have hhalf : ⌊(0 : K) + 1 / 2⌋ = 0 := by
      rw [Int.floor_eq_zero_iff, Set.mem_Ico]
      constructor
      · positivity
      · norm_num
    rw [neg_zero, halfAway, if_pos le_rfl, hhalf, neg_zero]
  · rw [halfAway, halfAway, if_neg (not_le.mpr (neg_lt_zero.mpr h)), if_pos h.le, ← Int.ceil_neg,
      neg_add, sub_eq_add_neg]

@[simp] theorem towardZero_intCast (n : ℤ) : towardZero (n : K) = n := by
  rw [towardZero]
  split
  · exact Int.floor_intCast n
  · exact Int.ceil_intCast n

theorem halfAway_natCast (n : ℕ) : halfAway (n : K) = n := by
  rw [halfAway, if_pos (Nat.cast_nonneg n), Int.floor_eq_iff]
  constructor
  · push_cast
    linarith
  · push_cast
    linarith

@[simp] theorem halfAway_intCast (n : ℤ) : halfAway (n : K) = n := by
  obtain ⟨k, rfl | rfl⟩ := n.eq_nat_or_neg
  · rw [Int.cast_natCast, halfAway_natCast]
  · rw [Int.cast_neg, halfAway_neg, Int.cast_natCast, halfAway_natCast]

/-! ## Quotients of integers -/

theorem towardZero_natCast_div (a m : ℕ) : towardZero ((a : K) / m) = (a / m : ℕ) := by
  rw [towardZero, if_pos (by positivity), Int.floor_div_natCast, Int.floor_natCast,
    Int.natCast_div]

theorem towardZero_div (v : ℤ) (m : ℕ) : towardZero ((v : K) / m) = v.tdiv m := by
  obtain ⟨a, rfl | rfl⟩ := v.eq_nat_or_neg
  · rw [Int.cast_natCast, towardZero_natCast_div, Int.ofNat_tdiv]
  · rw [Int.cast_neg, neg_div, towardZero_neg, Int.cast_natCast, towardZero_natCast_div,
      Int.neg_tdiv, Int.ofNat_tdiv]

theorem halfAway_natCast_div (a b : ℕ) (hb : 0 < b) :
    halfAway ((a : K) / (b * 2 : ℕ)) = ((a + b) / (b * 2) : ℕ) := by
  have hpos : (0 : K) < b := Nat.cast_pos.mpr hb
  have hsum : (a : K) / (b * 2 : ℕ) + 1 / 2 = (a + b : ℕ) / (b * 2 : ℕ) := by
    push_cast
    field_simp
  rw [halfAway, if_pos (by positivity), hsum, Int.floor_div_natCast, Int.floor_natCast,
    Int.natCast_div]

theorem halfAway_div (v : ℤ) (b : ℕ) (hb : 0 < b) :
    halfAway ((v : K) / (b * 2 : ℕ)) = v.sign * ((v.natAbs + b) / (b * 2) : ℕ) := by
  have hnat (a : ℕ) (ha : a ≠ 0) : halfAway ((a : K) / (b * 2 : ℕ)) =
      (a : ℤ).sign * (((a : ℤ).natAbs + b) / (b * 2) : ℕ) := by
    rw [halfAway_natCast_div a b hb, Int.natAbs_natCast, Int.sign_eq_one_of_pos (by omega),
      one_mul]
  by_cases hzero : v = 0
  · have h := halfAway_intCast (K := K) 0
    rw [hzero, Int.cast_zero, zero_div, Int.sign_zero, zero_mul, ← h, Int.cast_zero]
  · obtain ⟨a, rfl | rfl⟩ := v.eq_nat_or_neg
    · rw [Int.cast_natCast]
      exact hnat a (by omega)
    · rw [Int.cast_neg, neg_div, halfAway_neg, Int.cast_natCast, hnat a (by omega), Int.sign_neg,
        Int.natAbs_neg, neg_mul]

theorem tdiv_tdiv_natCast (v : ℤ) (m k : ℕ) : (v.tdiv m).tdiv k = v.tdiv (m * k : ℕ) := by
  obtain ⟨a, rfl | rfl⟩ := v.eq_nat_or_neg
  · rw [← Int.ofNat_tdiv, ← Int.ofNat_tdiv, ← Int.ofNat_tdiv, Nat.div_div_eq_div_mul]
  · rw [Int.neg_tdiv, Int.neg_tdiv, Int.neg_tdiv, ← Int.ofNat_tdiv, ← Int.ofNat_tdiv,
      ← Int.ofNat_tdiv, Nat.div_div_eq_div_mul]

theorem halfAway_tdiv_div (v : ℤ) (m b : ℕ) (hm : 0 < m) (hb : 0 < b) :
    halfAway ((v.tdiv m : ℤ) / (b * 2 : ℕ) : K) = halfAway ((v : K) / (m * (b * 2) : ℕ)) := by
  have hnat (a : ℕ) : halfAway ((a / m : ℕ) / (b * 2 : ℕ) : K) =
      halfAway ((a : K) / (m * (b * 2) : ℕ)) := by
    have hassoc : m * (b * 2) = m * b * 2 := (mul_assoc m b 2).symm
    rw [halfAway_natCast_div _ b hb, hassoc, halfAway_natCast_div a (m * b) (Nat.mul_pos hm hb),
      ← hassoc, ← Nat.div_div_eq_div_mul (a + m * b) m, Nat.add_mul_div_left a b hm]
  obtain ⟨a, rfl | rfl⟩ := v.eq_nat_or_neg
  · rw [← Int.ofNat_tdiv, Int.cast_natCast, Int.cast_natCast]
    exact hnat a
  · rw [Int.neg_tdiv, ← Int.ofNat_tdiv, Int.cast_neg, Int.cast_neg, Int.cast_natCast,
      Int.cast_natCast, neg_div, neg_div, halfAway_neg, halfAway_neg, hnat a]

end SolidDB
