import Mathlib.Tactic.LinearCombination
import SolidDB.Foundation.ByteNumber

/-!
# Integers behind a length

An integer as bytes that are ordered as the integers are. A small integer is one byte. Otherwise
the first byte tells how many bytes follow; it is less than the byte of every small integer where
the integer is negative, and greater where it is positive. The bytes that follow are the integer
from the end of the small ones on, in two's complement.
-/

namespace LeadInt

open SolidDB

def lowBytes (y : ℤ) : ℕ → List UInt8
  | 0 => []
  | n + 1 => UInt8.ofNat (y / 256 ^ n % 256).toNat :: lowBytes y n

@[simp] theorem length_lowBytes (y : ℤ) (n : ℕ) : (lowBytes y n).length = n := by
  induction n with
  | zero => rfl
  | succ n ih => rw [lowBytes, List.length_cons, ih]

theorem emod_mul_eq {a b : ℤ} (y : ℤ) (ha : 0 < a) (hb : 0 < b) :
    y % (a * b) = y / a % b * a + y % a := by
  have hquot : y = y / a % b * a + y % a + a * b * (y / a / b) := by
    have hy := Int.mul_ediv_add_emod y a
    have hq := Int.mul_ediv_add_emod (y / a) b
    linear_combination -hy - a * hq
  have hlow := Int.emod_nonneg y ha.ne'
  have hlow' := Int.emod_lt_of_pos y ha
  have hhigh := Int.emod_nonneg (y / a) hb.ne'
  have hhigh' := Int.emod_lt_of_pos (y / a) hb
  conv_lhs => rw [hquot]
  rw [Int.add_mul_emod_self_left, Int.emod_eq_of_lt (by positivity)]
  nlinarith

theorem ofBytes_lowBytes (y : ℤ) (n : ℕ) : (ofBytes (lowBytes y n) : ℤ) = y % 256 ^ n := by
  induction n with
  | zero => rw [lowBytes, ofBytes_nil, pow_zero, Int.emod_one, Nat.cast_zero]
  | succ n ih =>
      have hpos : (0 : ℤ) < 256 ^ n := by positivity
      have hbyte := Int.emod_nonneg (y / 256 ^ n) (show (256 : ℤ) ≠ 0 by decide)
      have hbyte' := Int.emod_lt_of_pos (y / 256 ^ n) (show (0 : ℤ) < 256 by decide)
      have hcast : ((UInt8.ofNat (y / 256 ^ n % 256).toNat).toNat : ℤ) = y / 256 ^ n % 256 := by
        rw [toNat_ofNat_byte]
        omega
      rw [lowBytes, ofBytes_cons, length_lowBytes, Nat.cast_add, Nat.cast_mul, Nat.cast_pow,
        Nat.cast_ofNat, hcast, ih, pow_succ, emod_mul_eq y hpos (by decide)]

/-- Byte strings of one length are ordered as their numbers. -/
theorem lt_of_ofBytes_lt {bs cs : List UInt8} (hlen : bs.length = cs.length)
    (hlt : ofBytes bs < ofBytes cs) : bs < cs := by
  induction bs generalizing cs with
  | nil =>
      rw [List.length_nil, eq_comm, List.length_eq_zero_iff] at hlen
      rw [hlen] at hlt
      exact absurd hlt (Nat.lt_irrefl _)
  | cons b bs ih =>
      cases cs with
      | nil => exact absurd hlen (Nat.succ_ne_zero _)
      | cons c cs =>
          have hlen' : bs.length = cs.length := Nat.succ.inj hlen
          rw [ofBytes_cons, ofBytes_cons, hlen'] at hlt
          rw [List.cons_lt_cons_iff, UInt8.lt_iff_toNat_lt]
          rcases Nat.lt_trichotomy b.toNat c.toNat with hb | hb | hb
          · exact Or.inl hb
          · rw [hb] at hlt
            exact Or.inr ⟨UInt8.toNat_inj.mp hb, ih hlen' (Nat.lt_of_add_lt_add_left hlt)⟩
          · have hbs := ofBytes_lt cs
            have hmul : (c.toNat + 1) * 256 ^ cs.length ≤ b.toNat * 256 ^ cs.length :=
              Nat.mul_le_mul_right _ hb
            rw [Nat.succ_mul] at hmul
            omega

theorem lowBytes_lt {a b : ℤ} {n : ℕ} (hlt : a % 256 ^ n < b % 256 ^ n) :
    lowBytes a n < lowBytes b n := by
  apply lt_of_ofBytes_lt
  · rw [length_lowBytes, length_lowBytes]
  · rw [← Int.ofNat_lt, ofBytes_lowBytes, ofBytes_lowBytes]
    exact hlt

theorem ofNat_lt {a b : ℕ} (hlt : a < b) (hb : b < 256) : UInt8.ofNat a < UInt8.ofNat b := by
  rw [UInt8.lt_iff_toNat_lt, toNat_ofNat_byte, toNat_ofNat_byte]
  omega

section Code

variable (bias size : ℕ) (len : ℤ → ℕ)

/-- The bytes of an integer. The small integers with `bias` added go from `size` to `255 - size`. -/
def leadInt (x : ℤ) : List UInt8 :=
  if x + bias < size then
    UInt8.ofNat (size - len x) :: lowBytes (x + (bias - size)) (len x)
  else if x + bias ≤ 255 - size then
    [UInt8.ofNat (x + bias).toNat]
  else
    UInt8.ofNat (255 - size + len x) :: lowBytes (x + (bias + size - 256)) (len x)

structure Fits (x : ℤ) : Prop where
  pos : 1 ≤ len x
  le : len x ≤ size
  low : x + bias < size → -256 ^ len x ≤ x + (bias - size)
  high : 255 - size < x + bias → x + (bias + size - 256) < 256 ^ len x

variable {bias size len} {x y : ℤ}

theorem leadInt_low (hx : x + bias < size) :
    leadInt bias size len x = UInt8.ofNat (size - len x) :: lowBytes (x + (bias - size)) (len x) :=
  if_pos hx

theorem leadInt_small (hx : size ≤ x + bias) (hx' : x + bias ≤ 255 - size) :
    leadInt bias size len x = [UInt8.ofNat (x + bias).toNat] := by
  rw [leadInt, if_neg (not_lt.mpr hx), if_pos hx']

theorem leadInt_high (hsize : 2 * size ≤ 256) (hx : 255 - size < x + bias) :
    leadInt bias size len x =
      UInt8.ofNat (255 - size + len x) :: lowBytes (x + (bias + size - 256)) (len x) := by
  rw [leadInt, if_neg (by omega), if_neg (by omega)]

theorem Fits.low_emod (hx : Fits bias size len x) (hlow : x + bias < size) :
    (x + (bias - size)) % 256 ^ len x = x + (bias - size) + 256 ^ len x := by
  have hle := hx.low hlow
  rw [← Int.add_emod_right, Int.emod_eq_of_lt (by omega) (by omega)]

theorem Fits.high_emod (hx : Fits bias size len x) (hhigh : 255 - size < x + bias) :
    (x + (bias + size - 256)) % 256 ^ len x = x + (bias + size - 256) :=
  Int.emod_eq_of_lt (by omega) (hx.high hhigh)

theorem leadInt_lt (hsize : 2 * size ≤ 256) (hx : Fits bias size len x)
    (hy : Fits bias size len y) (hlow : y + bias < size → len y ≤ len x)
    (hhigh : 255 - size < x + bias → len x ≤ len y) (hlt : x < y) :
    leadInt bias size len x < leadInt bias size len y := by
  have hxpos := hx.pos
  have hxle := hx.le
  have hypos := hy.pos
  have hyle := hy.le
  by_cases hxlow : x + bias < size
  · rw [leadInt_low hxlow]
    by_cases hylow : y + bias < size
    · rw [leadInt_low hylow, List.cons_lt_cons_iff]
      rcases Nat.lt_or_eq_of_le (hlow hylow) with hlen | hlen
      · exact Or.inl (ofNat_lt (by omega) (by omega))
      · have hxmod := hx.low_emod hxlow
        have hymod := hy.low_emod hylow
        rw [hlen] at hymod ⊢
        exact Or.inr ⟨rfl, lowBytes_lt (by omega)⟩
    · by_cases hysmall : y + bias ≤ 255 - size
      · rw [leadInt_small (not_lt.mp hylow) hysmall, List.cons_lt_cons_iff]
        exact Or.inl (ofNat_lt (by omega) (by omega))
      · rw [leadInt_high hsize (not_le.mp hysmall), List.cons_lt_cons_iff]
        exact Or.inl (ofNat_lt (by omega) (by omega))
  · by_cases hxsmall : x + bias ≤ 255 - size
    · rw [leadInt_small (not_lt.mp hxlow) hxsmall]
      by_cases hysmall : y + bias ≤ 255 - size
      · rw [leadInt_small (by omega) hysmall, List.cons_lt_cons_iff]
        exact Or.inl (ofNat_lt (by omega) (by omega))
      · rw [leadInt_high hsize (not_le.mp hysmall), List.cons_lt_cons_iff]
        exact Or.inl (ofNat_lt (by omega) (by omega))
    · have hxhigh := not_le.mp hxsmall
      have hyhigh : 255 - (size : ℤ) < y + bias := by omega
      rw [leadInt_high hsize hxhigh, leadInt_high hsize hyhigh, List.cons_lt_cons_iff]
      rcases Nat.lt_or_eq_of_le (hhigh hxhigh) with hlen | hlen
      · exact Or.inl (ofNat_lt (by omega) (by omega))
      · have hxmod := hx.high_emod hxhigh
        have hymod := hy.high_emod hyhigh
        rw [← hlen] at hymod ⊢
        exact Or.inr ⟨rfl, lowBytes_lt (by omega)⟩

end Code

end LeadInt
