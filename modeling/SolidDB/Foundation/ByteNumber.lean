import Mathlib.Data.Nat.Digits.Defs
import Mathlib.Data.Nat.Digits.Lemmas
import Mathlib.Tactic.Linarith
import Mathlib.Tactic.Ring

/-!
# Numbers in bytes

A list of bytes, the high one first, as an unsigned number and as a number in two's
complement, with the loops that multiply, divide and negate it byte by byte.
-/

namespace SolidDB

variable {b : UInt8} {bs cs : List UInt8} {k c : ℕ}

def ofBytes (bs : List UInt8) : ℕ := Nat.ofDigits 256 (bs.reverse.map UInt8.toNat)

@[simp] theorem ofBytes_nil : ofBytes [] = 0 := rfl

theorem ofBytes_append (bs cs : List UInt8) :
    ofBytes (bs ++ cs) = ofBytes bs * 256 ^ cs.length + ofBytes cs := by
  rw [ofBytes, List.reverse_append, List.map_append, Nat.ofDigits_append, List.length_map,
    List.length_reverse, add_comm, mul_comm]
  rfl

@[simp] theorem ofBytes_singleton (b : UInt8) : ofBytes [b] = b.toNat := by
  rw [ofBytes, List.reverse_singleton, List.map_singleton, Nat.ofDigits_singleton]

theorem ofBytes_cons (b : UInt8) (bs : List UInt8) :
    ofBytes (b :: bs) = b.toNat * 256 ^ bs.length + ofBytes bs := by
  rw [← List.singleton_append, ofBytes_append, ofBytes_singleton]

theorem ofBytes_lt (bs : List UInt8) : ofBytes bs < 256 ^ bs.length := by
  have h := Nat.ofDigits_lt_base_pow_length (b := 256) (l := bs.reverse.map UInt8.toNat)
    (by decide) fun x hx => ?_
  · rw [List.length_map, List.length_reverse] at h
    exact h
  · obtain ⟨b, -, rfl⟩ := List.mem_map.mp hx
    exact b.toNat_lt

theorem ofBytes_injective (hlen : bs.length = cs.length) (h : ofBytes bs = ofBytes cs) :
    bs = cs := by
  have hbyte (ds : List UInt8) : ∀ x ∈ ds.reverse.map UInt8.toNat, x < 256 := by
    intro x hx
    obtain ⟨b, -, rfl⟩ := List.mem_map.mp hx
    exact b.toNat_lt
  have heq := Nat.ofDigits_inj_of_len_eq (by decide) (by simpa using hlen) (hbyte bs) (hbyte cs) h
  exact List.reverse_injective (List.map_injective_iff.mpr (fun _ _ => UInt8.toNat_inj.mp) heq)

@[simp] theorem ofBytes_replicate_zero (n : ℕ) : ofBytes (List.replicate n 0) = 0 := by
  induction n with
  | zero => rfl
  | succ n ih =>
      rw [List.replicate_succ, ofBytes_cons, ih, UInt8.toNat_zero, zero_mul]

@[simp] theorem toNat_ofNat_byte (n : ℕ) : (UInt8.ofNat n).toNat = n % 256 := UInt8.toNat_ofNat'

/-- The weight of a byte is a power that depends on the bytes behind it. -/
theorem ofBytes_set {i : ℕ} (hi : bs[i]? = some b) (c : UInt8) :
    ofBytes (bs.set i c) + b.toNat * 256 ^ (bs.length - 1 - i) =
      ofBytes bs + c.toNat * 256 ^ (bs.length - 1 - i) := by
  induction bs generalizing i with
  | nil => exact absurd hi.symm (Option.some_ne_none b)
  | cons d ds ih =>
      cases i with
      | zero =>
          obtain rfl := Option.some.inj hi
          rw [List.set_cons_zero, ofBytes_cons, ofBytes_cons, List.length_cons,
            Nat.add_sub_cancel, Nat.sub_zero]
          ring
      | succ i =>
          have hrest := ih hi
          have hsub : (d :: ds).length - 1 - (i + 1) = ds.length - 1 - i := by
            rw [List.length_cons]
            omega
          rw [List.set_cons_succ, ofBytes_cons, ofBytes_cons, List.length_set, hsub]
          omega

theorem ofBytes_drop_of_zero {i : ℕ} (h : ofBytes (bs.take i) = 0) :
    ofBytes (bs.drop i) = ofBytes bs := by
  have happend := ofBytes_append (bs.take i) (bs.drop i)
  rw [List.take_append_drop, h, zero_mul, zero_add] at happend
  exact happend.symm

theorem ofBytes_take_of_le {i j : ℕ} (hij : i ≤ j) (h : ofBytes (bs.take j) = 0) :
    ofBytes (bs.take i) = 0 := by
  have happend := ofBytes_append ((bs.take j).take i) ((bs.take j).drop i)
  have hpos : 256 ^ ((bs.take j).drop i).length ≠ 0 := (Nat.pow_pos (by decide)).ne'
  rw [List.take_append_drop, h, List.take_take, Nat.min_eq_left hij] at happend
  exact (Nat.mul_eq_zero.mp (Nat.add_eq_zero_iff.mp happend.symm).1).resolve_right hpos

theorem eq_zero_of_ofBytes_cons (h : ofBytes (b :: bs) = 0) : b = 0 ∧ ofBytes bs = 0 := by
  rw [ofBytes_cons, Nat.add_eq_zero_iff] at h
  have hpos : 256 ^ bs.length ≠ 0 := (Nat.pow_pos (by decide)).ne'
  exact ⟨UInt8.toNat_inj.mp ((Nat.mul_eq_zero.mp h.1).resolve_right hpos), h.2⟩

theorem ofBytes_takeWhile_zero (bs : List UInt8) :
    ofBytes (bs.take (bs.takeWhile fun b => b = 0).length) = 0 := by
  induction bs with
  | nil => rfl
  | cons b bs ih =>
      rw [List.takeWhile_cons]
      split
      next h =>
        rw [List.length_cons, List.take_succ_cons, ofBytes_cons, ih, of_decide_eq_true h,
          UInt8.toNat_zero, zero_mul]
      next h => rfl

theorem length_takeWhile_zero_iff (bs : List UInt8) :
    (bs.takeWhile fun b => b = 0).length = bs.length ↔ ofBytes bs = 0 := by
  refine ⟨fun h => ?_, fun h => ?_⟩
  · have hzero := ofBytes_takeWhile_zero bs
    rw [h, List.take_length] at hzero
    exact hzero
  · induction bs with
    | nil => rfl
    | cons b bs ih =>
        obtain ⟨rfl, hrest⟩ := eq_zero_of_ofBytes_cons h
        rw [List.takeWhile_cons, if_pos (decide_eq_true rfl), List.length_cons, ih hrest,
          List.length_cons]

/-! ## Products and quotients with a small number -/

def mulBytes (k : ℕ) : List UInt8 → ℕ → List UInt8 × ℕ
  | [], c => ([], c)
  | b :: bs, c =>
    let r := mulBytes k bs c
    (UInt8.ofNat (b.toNat * k + r.2) :: r.1, (b.toNat * k + r.2) / 256)

@[simp] theorem length_mulBytes (k : ℕ) (bs : List UInt8) (c : ℕ) :
    (mulBytes k bs c).1.length = bs.length := by
  induction bs with
  | nil => rfl
  | cons b bs ih =>
      rw [mulBytes, List.length_cons, List.length_cons, ih]

theorem ofBytes_mulBytes (k : ℕ) (bs : List UInt8) (c : ℕ) :
    ofBytes (mulBytes k bs c).1 + (mulBytes k bs c).2 * 256 ^ bs.length =
      ofBytes bs * k + c := by
  induction bs with
  | nil => simp [mulBytes]
  | cons b bs ih =>
      have hdiv := Nat.mod_add_div (b.toNat * k + (mulBytes k bs c).2) 256
      simp only [mulBytes, ofBytes_cons, toNat_ofNat_byte, length_mulBytes, List.length_cons,
        pow_succ]
      calc _ = ((b.toNat * k + (mulBytes k bs c).2) % 256 +
            256 * ((b.toNat * k + (mulBytes k bs c).2) / 256)) * 256 ^ bs.length +
            ofBytes (mulBytes k bs c).1 := by ring
        _ = b.toNat * k * 256 ^ bs.length +
            (ofBytes (mulBytes k bs c).1 + (mulBytes k bs c).2 * 256 ^ bs.length) := by
          rw [hdiv]
          ring
        _ = _ := by
          rw [ih]
          ring

theorem carry_mulBytes_lt (hc : c < k) (bs : List UInt8) : (mulBytes k bs c).2 < k := by
  have h := ofBytes_mulBytes k bs c
  have hlt := ofBytes_lt bs
  by_contra hle
  have hmul : k * 256 ^ bs.length ≤ (mulBytes k bs c).2 * 256 ^ bs.length :=
    Nat.mul_le_mul_right _ (not_lt.mp hle)
  have hbs : (ofBytes bs + 1) * k ≤ 256 ^ bs.length * k := Nat.mul_le_mul_right k hlt
  rw [add_mul, one_mul] at hbs
  rw [mul_comm] at hmul
  omega

def divBytes (k : ℕ) : List UInt8 → ℕ → List UInt8 × ℕ
  | [], c => ([], c)
  | b :: bs, c =>
    let r := divBytes k bs ((b.toNat + 256 * c) % k)
    (UInt8.ofNat ((b.toNat + 256 * c) / k) :: r.1, r.2)

@[simp] theorem length_divBytes (k : ℕ) (bs : List UInt8) (c : ℕ) :
    (divBytes k bs c).1.length = bs.length := by
  induction bs generalizing c with
  | nil => rfl
  | cons b bs ih =>
      rw [divBytes, List.length_cons, List.length_cons, ih]

theorem rem_divBytes_lt (hc : c < k) (bs : List UInt8) : (divBytes k bs c).2 < k := by
  induction bs generalizing c with
  | nil => exact hc
  | cons b bs ih => exact ih (Nat.mod_lt _ (Nat.zero_lt_of_lt hc))

theorem ofBytes_divBytes (hc : c < k) (bs : List UInt8) :
    ofBytes (divBytes k bs c).1 * k + (divBytes k bs c).2 =
      c * 256 ^ bs.length + ofBytes bs := by
  induction bs generalizing c with
  | nil => simp [divBytes]
  | cons b bs ih =>
      have hk := Nat.zero_lt_of_lt hc
      have hdiv := Nat.mod_add_div (b.toNat + 256 * c) k
      -- the quotient of a byte is a byte because the remainder before it is below `k`
      have hq : (b.toNat + 256 * c) / k < 256 := by
        rw [Nat.div_lt_iff_lt_mul hk]
        have hb := b.toNat_lt
        calc b.toNat + 256 * c < 256 * (c + 1) := by omega
          _ ≤ 256 * k := Nat.mul_le_mul_left 256 hc
      have hrest := ih (Nat.mod_lt (b.toNat + 256 * c) hk)
      simp only [divBytes, ofBytes_cons, toNat_ofNat_byte, length_divBytes, List.length_cons,
        pow_succ, Nat.mod_eq_of_lt hq]
      calc _ = k * ((b.toNat + 256 * c) / k) * 256 ^ bs.length +
            (ofBytes (divBytes k bs ((b.toNat + 256 * c) % k)).1 * k +
              (divBytes k bs ((b.toNat + 256 * c) % k)).2) := by ring
        _ = ((b.toNat + 256 * c) % k + k * ((b.toNat + 256 * c) / k)) * 256 ^ bs.length +
            ofBytes bs := by
          rw [hrest]
          ring
        _ = _ := by
          rw [hdiv]
          ring

theorem ofBytes_divBytes_eq (hk : 0 < k) (bs : List UInt8) :
    ofBytes (divBytes k bs 0).1 = ofBytes bs / k := by
  have h := ofBytes_divBytes hk bs
  have hrem := rem_divBytes_lt hk bs
  rw [zero_mul, zero_add] at h
  rw [← h, add_comm, Nat.add_mul_div_right _ _ hk, Nat.div_eq_of_lt hrem, zero_add]

theorem rem_divBytes_eq (hk : 0 < k) (bs : List UInt8) :
    (divBytes k bs 0).2 = ofBytes bs % k := by
  have h := ofBytes_divBytes hk bs
  rw [zero_mul, zero_add] at h
  rw [← h, Nat.mul_add_mod_self_right, Nat.mod_eq_of_lt (rem_divBytes_lt hk bs)]

/-! ## Two's complement -/

def signBit (bs : List UInt8) : Bool := 128 ≤ (bs.headD 0).toNat

def signedBytes (bs : List UInt8) : ℤ :=
  if signBit bs then (ofBytes bs : ℤ) - (256 ^ bs.length : ℕ) else ofBytes bs

theorem signBit_cons (b : UInt8) (bs : List UInt8) :
    signBit (b :: bs) = true ↔ 128 ≤ b.toNat := decide_eq_true_iff

theorem signBit_iff (bs : List UInt8) :
    signBit bs = true ↔ 256 ^ bs.length ≤ 2 * ofBytes bs := by
  cases bs with
  | nil => simp [signBit]
  | cons b bs =>
      have hlt := ofBytes_lt bs
      rw [signBit_cons, ofBytes_cons, List.length_cons, pow_succ]
      generalize 256 ^ bs.length = m at *
      constructor
      · intro hb
        have hmul : 128 * m ≤ b.toNat * m := Nat.mul_le_mul_right m hb
        omega
      · intro hle
        by_contra hb
        have hmul : (b.toNat + 1) * m ≤ 128 * m := Nat.mul_le_mul_right m (by omega)
        rw [add_mul, one_mul] at hmul
        omega

theorem signedBytes_of_signBit (h : signBit bs = true) :
    signedBytes bs = (ofBytes bs : ℤ) - (256 ^ bs.length : ℕ) := if_pos h

theorem signedBytes_of_not_signBit (h : signBit bs = false) : signedBytes bs = ofBytes bs := by
  rw [signedBytes, h, if_neg Bool.false_ne_true]

theorem signedBytes_bounds (bs : List UInt8) :
    -(256 ^ bs.length : ℕ) ≤ 2 * signedBytes bs ∧ 2 * signedBytes bs < (256 ^ bs.length : ℕ) := by
  have hlt := ofBytes_lt bs
  have hsign := signBit_iff bs
  cases h : signBit bs with
  | true =>
      rw [signedBytes_of_signBit h]
      have hle := hsign.mp h
      omega
  | false =>
      rw [signedBytes_of_not_signBit h]
      have hle : ¬ 256 ^ bs.length ≤ 2 * ofBytes bs := fun hle => by
        rw [hsign.mpr hle] at h
        exact Bool.noConfusion h
      omega

theorem signedBytes_neg_iff (bs : List UInt8) : signedBytes bs < 0 ↔ signBit bs = true := by
  have hlt := ofBytes_lt bs
  cases h : signBit bs with
  | true =>
      rw [signedBytes_of_signBit h]
      refine ⟨fun _ => rfl, fun _ => ?_⟩
      omega
  | false =>
      rw [signedBytes_of_not_signBit h]
      refine ⟨fun hneg => ?_, fun hfalse => absurd hfalse Bool.false_ne_true⟩
      omega

theorem signedBytes_cons_of_lt (hb : b.toNat < 128) (bs : List UInt8) :
    signedBytes (b :: bs) = ofBytes (b :: bs) := by
  refine signedBytes_of_not_signBit ?_
  rw [Bool.eq_false_iff, ne_eq, signBit_cons]
  exact not_le.mpr hb

theorem toNat_compl (b : UInt8) : (~~~b).toNat = 255 - b.toNat := by
  rw [UInt8.toNat_not]
  rfl

/-- The bytes of the negated number. All bytes from the last on are inverted and
incremented until a byte is not zero, the others are only inverted. The flag says that all
have been zero. -/
def negateBytes : List UInt8 → List UInt8 × Bool
  | [] => ([], true)
  | b :: bs =>
    let r := negateBytes bs
    if r.2 then ((~~~b + 1) :: r.1, ~~~b + 1 = 0) else (~~~b :: r.1, false)

@[simp] theorem length_negateBytes (bs : List UInt8) :
    (negateBytes bs).1.length = bs.length := by
  induction bs with
  | nil => rfl
  | cons b bs ih =>
      rw [negateBytes]
      split
      · rw [List.length_cons, List.length_cons, ih]
      · rw [List.length_cons, List.length_cons, ih]

theorem toNat_compl_add_one (b : UInt8) : (~~~b + 1).toNat = (256 - b.toNat) % 256 := by
  have hb := b.toNat_lt
  rw [UInt8.toNat_add, toNat_compl, UInt8.toNat_one]
  omega

theorem compl_add_one_eq_zero (b : UInt8) : ~~~b + 1 = 0 ↔ b.toNat = 0 := by
  have hb := b.toNat_lt
  rw [← UInt8.toNat_inj, toNat_compl_add_one, UInt8.toNat_zero]
  omega

/-- The number and the negated one add up to a power, unless they are zero. -/
theorem ofBytes_negateBytes (bs : List UInt8) :
    ofBytes (negateBytes bs).1 + ofBytes bs =
      if (negateBytes bs).2 then 0 else 256 ^ bs.length := by
  induction bs with
  | nil => rfl
  | cons b bs ih =>
      have hb := b.toNat_lt
      cases hflag : (negateBytes bs).2 with
      | true =>
          rw [hflag, if_pos rfl] at ih
          simp only [negateBytes, hflag, if_true, ofBytes_cons, toNat_compl_add_one,
            length_negateBytes, List.length_cons, compl_add_one_eq_zero, decide_eq_true_iff,
            pow_succ]
          by_cases h0 : b.toNat = 0
          · rw [if_pos h0, h0]
            omega
          · rw [if_neg h0, Nat.mod_eq_of_lt (by omega)]
            calc _ = ((256 - b.toNat) + b.toNat) * 256 ^ bs.length +
                  (ofBytes (negateBytes bs).1 + ofBytes bs) := by ring
              _ = _ := by
                rw [ih, Nat.sub_add_cancel hb.le]
                ring
      | false =>
          rw [hflag, if_neg Bool.false_ne_true] at ih
          simp only [negateBytes, hflag, Bool.false_eq_true, if_false, ofBytes_cons, toNat_compl,
            length_negateBytes, List.length_cons, pow_succ]
          calc _ = ((255 - b.toNat) + b.toNat) * 256 ^ bs.length +
                (ofBytes (negateBytes bs).1 + ofBytes bs) := by ring
            _ = _ := by
              rw [ih, Nat.sub_add_cancel (by omega)]
              ring

theorem negateBytes_flag (bs : List UInt8) : (negateBytes bs).2 = true ↔ ofBytes bs = 0 := by
  have h := ofBytes_negateBytes bs
  have hlt := ofBytes_lt (negateBytes bs).1
  rw [length_negateBytes] at hlt
  cases hflag : (negateBytes bs).2 with
  | true =>
      rw [hflag, if_pos rfl] at h
      exact ⟨fun _ => by omega, fun _ => rfl⟩
  | false =>
      rw [hflag, if_neg Bool.false_ne_true] at h
      refine ⟨fun hfalse => absurd hfalse Bool.false_ne_true, fun h0 => ?_⟩
      omega

/-- The lowest number of a length has no negation of that length. -/
theorem signedBytes_negateBytes (h : 2 * signedBytes bs ≠ -(256 ^ bs.length : ℕ)) :
    signedBytes (negateBytes bs).1 = -signedBytes bs := by
  have hlt := ofBytes_lt bs
  have hsum := ofBytes_negateBytes bs
  have hflag := negateBytes_flag bs
  have hsign := signBit_iff bs
  have hsign' := signBit_iff (negateBytes bs).1
  rw [length_negateBytes] at hsign'
  have hpos : 0 < 256 ^ bs.length := Nat.pos_of_ne_zero fun h0 => by
    rw [h0] at hlt
    exact absurd hlt (Nat.not_lt_zero _)
  rw [signedBytes] at h ⊢
  rw [signedBytes, length_negateBytes]
  simp only [hsign, hsign', hflag] at *
  generalize 256 ^ bs.length = m at *
  split at hsum
  · split
    · omega
    · split
      · omega
      · omega
  · split
    · split
      · omega
      · omega
    · split
      · omega
      · omega

/-- The first byte becomes `0x80` under the carry for the lowest number of a length only. -/
theorem negateBytes_min_iff (hne : bs ≠ []) :
    ((negateBytes bs.tail).2 ∧ (negateBytes bs).1.headD 0 = 0x80) ↔
      2 * signedBytes bs = -(256 ^ bs.length : ℕ) := by
  cases bs with
  | nil => exact absurd rfl hne
  | cons b bs =>
      have hb := b.toNat_lt
      have hlt := ofBytes_lt bs
      have hflag := negateBytes_flag bs
      have hsign := signBit_cons b bs
      have h80 : ~~~b + 1 = 0x80 ↔ b.toNat = 128 := by
        have h128 : (0x80 : UInt8).toNat = 128 := rfl
        rw [← UInt8.toNat_inj, toNat_compl_add_one, h128]
        omega
      have hneg := signedBytes_neg_iff (b :: bs)
      simp only [negateBytes, List.tail_cons]
      constructor
      · rintro ⟨hzero, hhead⟩
        rw [if_pos hzero, List.headD_cons, h80] at hhead
        rw [signedBytes_of_signBit (hsign.mpr hhead.ge), ofBytes_cons, hflag.mp hzero, hhead,
          List.length_cons, pow_succ]
        push_cast
        ring
      · intro hmin
        have hpos : 0 < 256 ^ (b :: bs).length := Nat.pow_pos (by decide)
        have hbit := hneg.mp (by omega)
        rw [signedBytes_of_signBit hbit, ofBytes_cons, List.length_cons, pow_succ] at hmin
        generalize 256 ^ bs.length = m at hmin hlt
        have heq : b.toNat * m + ofBytes bs = 128 * m := by
          zify
          push_cast at hmin
          linarith
        have hb128 : b.toNat = 128 := by
          refine le_antisymm ?_ (hsign.mp hbit)
          by_contra hgt
          have hmul : 129 * m ≤ b.toNat * m := Nat.mul_le_mul_right m (by omega)
          omega
        have hzero := hflag.mpr (by rw [hb128] at heq; omega)
        rw [if_pos hzero, List.headD_cons, h80]
        exact ⟨hzero, hb128⟩

/-- The negation of the lowest number is the unsigned number. -/
theorem ofBytes_negateBytes_min (h : 2 * signedBytes bs = -(256 ^ bs.length : ℕ)) :
    (ofBytes (negateBytes bs).1 : ℤ) = -signedBytes bs := by
  have hpos : 0 < 256 ^ bs.length := Nat.pow_pos (by decide)
  have hsum := ofBytes_negateBytes bs
  have hflag := negateBytes_flag bs
  have hbit := (signedBytes_neg_iff bs).mp (by omega)
  have hle := (signBit_iff bs).mp hbit
  rw [if_neg (by rw [hflag]; omega)] at hsum
  rw [signedBytes_of_signBit hbit]
  omega

/-! ## Leading bytes -/

def compactBytes : List UInt8 → List UInt8
  | b :: c :: bs =>
    if (b = 0 ∧ signBit (c :: bs) = false) ∨ (b = 255 ∧ signBit (c :: bs) = true) then
      compactBytes (c :: bs)
    else b :: c :: bs
  | bs => bs

theorem ofBytes_zero_cons (bs : List UInt8) : ofBytes (0 :: bs) = ofBytes bs := by
  rw [ofBytes_cons, UInt8.toNat_zero, zero_mul, zero_add]

theorem signedBytes_zero_cons (bs : List UInt8) : signedBytes (0 :: bs) = ofBytes bs := by
  rw [signedBytes_cons_of_lt (by decide), ofBytes_zero_cons]

theorem signedBytes_ff_cons (h : signBit bs = true) :
    signedBytes (255 :: bs) = signedBytes bs := by
  have h1 : signBit (255 :: bs) = true := rfl
  have h255 : (255 : UInt8).toNat = 255 := rfl
  rw [signedBytes_of_signBit h, signedBytes_of_signBit h1, ofBytes_cons, List.length_cons, h255,
    pow_succ]
  generalize 256 ^ bs.length = m
  push_cast
  ring

@[simp] theorem signedBytes_compactBytes (bs : List UInt8) :
    signedBytes (compactBytes bs) = signedBytes bs := by
  fun_induction compactBytes bs with
  | case1 b c bs h ih =>
      rw [ih]
      rcases h with ⟨rfl, h⟩ | ⟨rfl, h⟩
      · rw [signedBytes_zero_cons, signedBytes_of_not_signBit h]
      · exact (signedBytes_ff_cons h).symm
  | case2 b c bs h => rfl
  | case3 bs h => rfl

theorem compactBytes_compactBytes (bs : List UInt8) :
    compactBytes (compactBytes bs) = compactBytes bs := by
  fun_induction compactBytes bs with
  | case1 b c bs h ih => exact ih
  | case2 b c bs h => rw [compactBytes, if_neg h]
  | case3 bs h =>
      cases bs with
      | nil => rfl
      | cons b bs =>
          cases bs with
          | nil => rfl
          | cons c bs => exact absurd rfl (h b c bs)

theorem compactBytes_suffix (bs : List UInt8) : compactBytes bs <:+ bs := by
  fun_induction compactBytes bs with
  | case1 b c bs h ih => exact ih.trans (List.suffix_cons _ _)
  | case2 b c bs h => exact List.suffix_rfl
  | case3 bs h => exact List.suffix_rfl

theorem length_compactBytes_le (bs : List UInt8) :
    (compactBytes bs).length ≤ bs.length := (compactBytes_suffix bs).length_le

theorem compactBytes_ne_nil (h : bs ≠ []) : compactBytes bs ≠ [] := by
  fun_induction compactBytes bs with
  | case1 b c bs h ih => exact ih (List.cons_ne_nil _ _)
  | case2 b c bs h => exact List.cons_ne_nil _ _
  | case3 bs => exact h

theorem signBit_of_zero (h : ofBytes bs = 0) : signBit bs = false := by
  rw [Bool.eq_false_iff, ne_eq, signBit_iff, h]
  have hpos : 0 < 256 ^ bs.length := Nat.pow_pos (by decide)
  omega

theorem compactBytes_of_zero (hne : bs ≠ []) (h : ofBytes bs = 0) : compactBytes bs = [0] := by
  fun_induction compactBytes bs with
  | case1 b c bs hb ih => exact ih (List.cons_ne_nil _ _) (eq_zero_of_ofBytes_cons h).2
  | case2 b c bs hb =>
      obtain ⟨rfl, hrest⟩ := eq_zero_of_ofBytes_cons h
      exact absurd (Or.inl ⟨rfl, signBit_of_zero hrest⟩) hb
  | case3 bs hb =>
      cases bs with
      | nil => exact absurd rfl hne
      | cons b bs =>
          cases bs with
          | nil => rw [(eq_zero_of_ofBytes_cons h).1]
          | cons c bs => exact absurd rfl (hb b c bs)

end SolidDB
