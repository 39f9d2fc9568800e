import SolidDB.Ss.Int8Add

/-!
# Products of eight-byte integers

The product of two absolute values is summed up from the products of their words. The two
halves of such a product are added one after the other, each with a check of the sign only.
-/

namespace SolidDB

open SsInt8

/-! ## The terms of a product -/

abbrev Term := ℕ × UInt16

def Term.value (t : Term) : ℕ := t.2.toNat * 65536 ^ t.1

def termSum (ts : List Term) : ℕ := (ts.map Term.value).sum

@[simp] theorem termSum_nil : termSum [] = 0 := rfl

@[simp] theorem termSum_cons (t : Term) (ts : List Term) :
    termSum (t :: ts) = t.value + termSum ts := rfl

@[simp] theorem termSum_append (ts us : List Term) :
    termSum (ts ++ us) = termSum ts + termSum us := by
  rw [termSum, List.map_append, List.sum_append]
  rfl

/-- The halves of the products of the words with one word; the high half of the last product
is left out. -/
def rowTerms (u2 : UInt16) (shift : ℕ) : List UInt16 → List Term
  | [] => []
  | [w] => [(shift, UInt16.ofNat (w.toNat * u2.toNat))]
  | w :: ws =>
    (shift, UInt16.ofNat (w.toNat * u2.toNat)) ::
      (1 + shift, UInt16.ofNat ((w.toNat * u2.toNat) >>> 16)) :: rowTerms u2 (shift + 1) ws

theorem rowTerms_cons_cons (u2 : UInt16) (shift : ℕ) (w v : UInt16) (ws : List UInt16) :
    rowTerms u2 shift (w :: v :: ws) =
      (shift, UInt16.ofNat (w.toNat * u2.toNat)) ::
        (1 + shift, UInt16.ofNat ((w.toNat * u2.toNat) >>> 16)) ::
          rowTerms u2 (shift + 1) (v :: ws) := by
  rw [rowTerms]
  simp

def rowTop (u2 : UInt16) (ws : List UInt16) : ℕ := ((ws.getLastD 0).toNat * u2.toNat) / 65536

def rowWords (ws : List UInt16) (shift : ℕ) : List UInt16 := ws.take (4 - shift)

def mulTerms (ws : List UInt16) (shift : ℕ) : List UInt16 → List Term
  | [] => []
  | v :: vs => rowTerms v shift (rowWords ws shift) ++ mulTerms ws (shift + 1) vs

def mulTops (ws : List UInt16) (shift : ℕ) : List UInt16 → List ℕ
  | [] => []
  | v :: vs => rowTop v (rowWords ws shift) :: mulTops ws (shift + 1) vs

theorem high_toNat (w v : UInt16) :
    (UInt16.ofNat ((w.toNat * v.toNat) >>> 16)).toNat = w.toNat * v.toNat / 65536 := by
  have hw := w.toNat_lt
  have hv := v.toNat_lt
  have hmul : w.toNat * v.toNat < 65536 * 65536 :=
    Nat.mul_lt_mul_of_lt_of_lt hw hv
  rw [toNat_ofNat_word, Nat.shiftRight_eq_div_pow]
  exact Nat.mod_eq_of_lt (Nat.div_lt_of_lt_mul hmul)

theorem rowTerms_sum (u2 : UInt16) : ∀ (ws : List UInt16) (shift : ℕ), ws ≠ [] →
    ofWords ws * u2.toNat * 65536 ^ shift =
      termSum (rowTerms u2 shift ws) + 65536 ^ (shift + ws.length) * rowTop u2 ws
  | [w], shift, _ => by
    have hdm := Nat.mod_add_div (w.toNat * u2.toNat) 65536
    simp only [rowTerms, rowTop, termSum_cons, termSum_nil, Term.value, toNat_ofNat_word,
      ofWords_cons, ofWords_nil, List.length_singleton, List.getLastD_cons, List.getLastD_nil]
    rw [pow_succ, mul_zero, add_zero, add_zero]
    conv_lhs => rw [← hdm]
    ring
  | w :: v :: ws, shift, _ => by
    have hdm := Nat.mod_add_div (w.toNat * u2.toNat) 65536
    have ih := rowTerms_sum u2 (v :: ws) (shift + 1) (List.cons_ne_nil v ws)
    have htop : rowTop u2 (w :: v :: ws) = rowTop u2 (v :: ws) := rfl
    have hlen : shift + (w :: v :: ws).length = shift + 1 + (v :: ws).length := by
      simp only [List.length_cons]
      omega
    rw [rowTerms_cons_cons, htop, hlen, termSum_cons, termSum_cons, add_assoc, add_assoc, ← ih,
      Term.value, Term.value, high_toNat, toNat_ofNat_word, ofWords_cons w]
    have hexp : (w.toNat + 65536 * ofWords (v :: ws)) * u2.toNat * 65536 ^ shift =
        w.toNat * u2.toNat * 65536 ^ shift +
          ofWords (v :: ws) * u2.toNat * 65536 ^ (shift + 1) := by
      rw [pow_succ]
      ring
    rw [hexp, add_comm 1 shift, pow_succ]
    conv_lhs => rw [← hdm]
    ring

/-- The words that do not reach into the result have a weight of `2 ^ 64` or more. -/
theorem rowWords_value {ws : List UInt16} (hws : ws.length = 4) {shift : ℕ} (hshift : shift < 4) :
    ∃ k, ofWords ws * 65536 ^ shift =
      ofWords (rowWords ws shift) * 65536 ^ shift + 2 ^ 64 * k := by
  refine ⟨ofWords (ws.drop (4 - shift)), ?_⟩
  have hpow : 65536 ^ (4 - shift) * 65536 ^ shift = 2 ^ 64 := by
    rw [← pow_add, Nat.sub_add_cancel hshift.le]
    rfl
  conv_lhs => rw [← List.take_append_drop (4 - shift) ws]
  rw [ofWords_append, List.length_take_of_le (by omega), add_mul, rowWords]
  rw [mul_right_comm, hpow]

theorem mulTerms_sum {ws : List UInt16} (hws : ws.length = 4) :
    ∀ (vs : List UInt16) (shift : ℕ), shift + vs.length ≤ 4 →
      ∃ k, ofWords ws * (ofWords vs * 65536 ^ shift) =
          termSum (mulTerms ws shift vs) + 2 ^ 64 * k ∧
        ∀ t ∈ mulTops ws shift vs, t ≤ k
  | [], shift, _ => ⟨0, by simp [mulTerms], by simp [mulTops]⟩
  | v :: vs, shift, h => by
    rw [List.length_cons] at h
    obtain ⟨k₁, hk₁⟩ := rowWords_value hws (show shift < 4 by omega)
    obtain ⟨k₂, hk₂, htops⟩ := mulTerms_sum hws vs (shift + 1) (by omega)
    have hlen : (rowWords ws shift).length = 4 - shift :=
      List.length_take_of_le (by omega)
    have hne : rowWords ws shift ≠ [] := List.ne_nil_of_length_pos (by omega)
    have hrow := rowTerms_sum v (rowWords ws shift) shift hne
    have hpow : 65536 ^ (shift + (rowWords ws shift).length) = 2 ^ 64 := by
      rw [hlen, Nat.add_sub_cancel' (by omega)]
      rfl
    rw [hpow] at hrow
    refine ⟨k₁ * v.toNat + rowTop v (rowWords ws shift) + k₂, ?_, ?_⟩
    · rw [mulTerms, termSum_append, ofWords_cons]
      have hexp : ofWords ws * ((v.toNat + 65536 * ofWords vs) * 65536 ^ shift) =
          ofWords ws * 65536 ^ shift * v.toNat +
            ofWords ws * (ofWords vs * 65536 ^ (shift + 1)) := by
        rw [pow_succ]
        ring
      rw [hexp, hk₁, hk₂, add_mul, mul_right_comm _ _ v.toNat, hrow]
      ring
    · intro t ht
      rw [mulTops, List.mem_cons] at ht
      rcases ht with rfl | ht
      · omega
      · exact (htops t ht).trans (Nat.le_add_left _ _)

/-! ## Adding the terms -/

def addTerms (r : SsInt8) : List Term → Bool × SsInt8
  | [] => (true, r)
  | t :: ts =>
    let a := ssInt8AddUint2WithShift r t.2 t.1
    let s := addTerms a.2 ts
    (a.1 && s.1, s.2)

theorem addTerms_append (r : SsInt8) (ts us : List Term) :
    addTerms r (ts ++ us) =
      ((addTerms r ts).1 && (addTerms (addTerms r ts).2 us).1,
        (addTerms (addTerms r ts).2 us).2) := by
  induction ts generalizing r with
  | nil => simp [addTerms]
  | cons t ts ih => simp only [List.cons_append, addTerms, ih, Bool.and_assoc]

theorem addTerms_toNat (r : SsInt8) (ts : List Term) (h : ∀ t ∈ ts, t.1 ≤ 4) :
    (addTerms r ts).2.toNat = (r.toNat + termSum ts) % 2 ^ 64 := by
  induction ts generalizing r with
  | nil => rw [addTerms, termSum_nil, add_zero, Nat.mod_eq_of_lt r.toNat_lt]
  | cons t ts ih =>
      rw [List.forall_mem_cons] at h
      rw [addTerms, ih _ h.2, toNat_addUint2WithShift r t.2 h.1, Nat.mod_add_mod, termSum_cons,
        add_assoc]
      rfl

/-- From a number below `2 ^ 63` all additions succeed exactly when no partial sum has its
highest bit set. -/
theorem addTerms_fst (r : SsInt8) (ts : List Term) (h : ∀ t ∈ ts, t.1 ≤ 4)
    (hr : r.toNat < 2 ^ 63) :
    (addTerms r ts).1 = true ↔
      ∀ us, us <+: ts → (r.toNat + termSum us) % 2 ^ 64 < 2 ^ 63 := by
  induction ts generalizing r with
  | nil =>
      have hlt := r.toNat_lt
      simp only [addTerms, List.prefix_nil, forall_eq, termSum_nil, true_iff]
      omega
  | cons t ts ih =>
      rw [List.forall_mem_cons] at h
      have ha := toNat_addUint2WithShift r t.2 h.1
      have hfst := addUint2WithShift_fst r t.2 t.1
      change ((ssInt8AddUint2WithShift r t.2 t.1).1 &&
        (addTerms (ssInt8AddUint2WithShift r t.2 t.1).2 ts).1) = true ↔ _
      by_cases hstep : (ssInt8AddUint2WithShift r t.2 t.1).2.toNat < 2 ^ 63
      · have htrue : (ssInt8AddUint2WithShift r t.2 t.1).1 = true := by
          rw [← Bool.not_eq_false, hfst]
          omega
        rw [htrue, Bool.true_and, ih _ h.2 hstep, ha]
        have hval : t.2.toNat * 65536 ^ t.1 = t.value := rfl
        constructor
        · intro hall us hus
          rcases List.prefix_cons_iff.mp hus with rfl | ⟨us, rfl, hus'⟩
          · rw [termSum_nil, add_zero, Nat.mod_eq_of_lt r.toNat_lt]
            exact hr
          · have h := hall us hus'
            rw [Nat.mod_add_mod, hval, add_assoc] at h
            rw [termSum_cons]
            exact h
        · intro hall us hus
          have h := hall (t :: us) (List.cons_prefix_cons.mpr ⟨rfl, hus⟩)
          rw [Nat.mod_add_mod, hval, add_assoc]
          exact h
      · have hfalse : (ssInt8AddUint2WithShift r t.2 t.1).1 = false :=
          hfst.mpr ⟨hr, not_lt.mp hstep⟩
        rw [hfalse, Bool.false_and]
        constructor
        · exact fun h => absurd h Bool.false_ne_true
        · intro hall
          have h := hall [t] (List.cons_prefix_cons.mpr ⟨rfl, List.nil_prefix⟩)
          rw [ha] at hstep
          exact absurd h hstep

/-! ## The loops -/

theorem rowTerms_position (u2 : UInt16) : ∀ (ws : List UInt16) (shift : ℕ),
    shift + ws.length ≤ 4 → ∀ t ∈ rowTerms u2 shift ws, t.1 ≤ 4
  | [], _, _ => by simp [rowTerms]
  | [w], shift, h => by
    intro t ht
    rw [rowTerms, List.mem_singleton] at ht
    rw [ht]
    exact (Nat.le_add_right _ _).trans h
  | w :: v :: ws, shift, h => by
    have ih := rowTerms_position u2 (v :: ws) (shift + 1)
    simp only [List.length_cons] at h ih
    rw [rowTerms_cons_cons]
    intro t ht
    rw [List.mem_cons, List.mem_cons] at ht
    rcases ht with rfl | rfl | ht
    · simp only []
      omega
    · simp only []
      omega
    · exact ih (by omega) t ht

theorem multiplyLoop_eq (u2 : UInt16) : ∀ (ws : List UInt16) (result : SsInt8) (shift : ℕ),
    ws ≠ [] → multiplyLoop u2 result shift ws =
      ((addTerms result (rowTerms u2 shift ws)).1 && (rowTop u2 ws = 0),
        (addTerms result (rowTerms u2 shift ws)).2)
  | [w], result, shift, _ => by
    simp only [multiplyLoop, rowTerms, addTerms, rowTop, List.getLastD_cons, List.getLastD_nil,
      Nat.shiftRight_eq_div_pow, Bool.and_true]
  | w :: v :: ws, result, shift, _ => by
    have htop : rowTop u2 (w :: v :: ws) = rowTop u2 (v :: ws) := rfl
    rw [multiplyLoop.eq_def]
    simp only [multiplyLoop_eq u2 (v :: ws) _ _ (List.cons_ne_nil v ws), htop]
    rw [rowTerms_cons_cons]
    simp only [addTerms, Bool.and_assoc]

theorem mulTerms_position {ws : List UInt16} (hws : ws.length = 4) :
    ∀ (vs : List UInt16) (shift : ℕ), shift + vs.length ≤ 4 →
      ∀ t ∈ mulTerms ws shift vs, t.1 ≤ 4
  | [], _, _ => by simp [mulTerms]
  | v :: vs, shift, h => by
    rw [List.length_cons] at h
    intro t ht
    rw [mulTerms, List.mem_append] at ht
    rcases ht with ht | ht
    · refine rowTerms_position v _ shift ?_ t ht
      rw [rowWords, List.length_take_of_le (by omega)]
      omega
    · exact mulTerms_position hws vs (shift + 1) (by omega) t ht

theorem addUint2WithShift_zero (r : SsInt8) (shift : ℕ) (h : shift ≤ 4) :
    ssInt8AddUint2WithShift r 0 shift = (true, r) := by
  have hval : (ssInt8AddUint2WithShift r 0 shift).2 = r := by
    apply toNat_injective
    rw [toNat_addUint2WithShift r 0 h, UInt16.toNat_zero, zero_mul, add_zero,
      Nat.mod_eq_of_lt r.toNat_lt]
  refine Prod.ext ?_ hval
  rw [← Bool.not_eq_false, addUint2WithShift_fst, hval]
  omega

theorem addTerms_zero (r : SsInt8) (ts : List Term) (h : ∀ t ∈ ts, t.1 ≤ 4)
    (hzero : ∀ t ∈ ts, t.2 = 0) : addTerms r ts = (true, r) := by
  induction ts with
  | nil => rfl
  | cons t ts ih =>
      rw [List.forall_mem_cons] at h hzero
      rw [addTerms, hzero.1, addUint2WithShift_zero r t.1 h.1, ih h.2 hzero.2]
      rfl

theorem rowTerms_zero : ∀ (ws : List UInt16) (shift : ℕ), ∀ t ∈ rowTerms 0 shift ws, t.2 = 0
  | [], _ => by simp [rowTerms]
  | [w], shift => by simp [rowTerms]
  | w :: v :: ws, shift => by
    rw [rowTerms_cons_cons]
    intro t ht
    rw [List.mem_cons, List.mem_cons] at ht
    rcases ht with rfl | rfl | ht
    · simp
    · simp
    · exact rowTerms_zero (v :: ws) (shift + 1) t ht

theorem multiplyInt8Loop_eq (x : SsInt8) : ∀ (vs : List UInt16) (result : SsInt8) (shift : ℕ),
    shift + vs.length ≤ 4 → multiplyInt8Loop x result shift vs =
      ((addTerms result (mulTerms x.u2 shift vs)).1 && (mulTops x.u2 shift vs).all (· = 0),
        (addTerms result (mulTerms x.u2 shift vs)).2)
  | [], _, _, _ => rfl
  | v :: vs, result, shift, h => by
    rw [List.length_cons] at h
    have hlen : (rowWords x.u2 shift).length = 4 - shift := by
      rw [rowWords, List.length_take_of_le (by rw [x.length_u2]; omega)]
    have hne : rowWords x.u2 shift ≠ [] := List.ne_nil_of_length_pos (by omega)
    have hstep : (if v ≠ 0 then ssInt8MultiplyByUint2WithShift result x v shift
        else (true, result)) =
        ((addTerms result (rowTerms v shift (rowWords x.u2 shift))).1 &&
          (rowTop v (rowWords x.u2 shift) = 0),
          (addTerms result (rowTerms v shift (rowWords x.u2 shift))).2) := by
      by_cases hv : v = 0
      · rw [if_neg (not_not.mpr hv), hv, addTerms_zero result _
          (rowTerms_position 0 _ shift (by omega)) (rowTerms_zero _ shift)]
        simp [rowTop]
      · rw [if_pos hv]
        exact multiplyLoop_eq v (rowWords x.u2 shift) result shift hne
    simp only [multiplyInt8Loop, hstep, multiplyInt8Loop_eq x vs _ (shift + 1) (by omega)]
    rw [mulTerms, addTerms_append, mulTops, List.all_cons]
    simp only [Prod.mk.injEq, and_true]
    ac_rfl

end SolidDB
