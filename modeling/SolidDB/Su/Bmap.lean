import SolidDB.Foundation.Bitmap

/-!
# Bit map searches

`su_bmap_find1st`, `su_bmap_findlast` and `su_bmap_findnext` over the bytes of a bit map.
They pass over whole elements that hold only the other bit. A bit number is used as an
unsigned int, so positions from 2 ^ 32 on are read from the start of the map again.
-/

namespace SolidDB

namespace Bmap

/-- `su_bmap_t`, the memory from the pointer on. -/
abbrev SuBmap := ℕ → UInt8

abbrev elemBit : ℕ := 8

def uint (bit : ℕ) : ℕ := bit % 2 ^ 32

def suBmapGet (bmap : SuBmap) (bit : ℕ) : Bool :=
  ((bmap (uint bit / elemBit)).toNat >>> (uint bit % elemBit)) &&& 1 = 1

/-- The loop that passes over the elements `e`, with the number of elements left. -/
def skipElems (bmap : SuBmap) (e : UInt8) : ℕ → ℕ → ℕ
  | 0, i => i
  | left + 1, i => if bmap i ≠ e then i else skipElems bmap e left (i + 1)

def scanBits (bmap : SuBmap) (val : Bool) : ℕ → ℕ → Option ℕ
  | 0, _ => none
  | left + 1, rv => if suBmapGet bmap rv = val then some rv else scanBits bmap val left (rv + 1)

def otherElem (val : Bool) : UInt8 := if val then 0 else 255

def suBmapFind1st (bmap : SuBmap) (bmsize : ℕ) (val : Bool) : Option ℕ :=
  let iMax := (bmsize + elemBit - 1) / elemBit
  let i := skipElems bmap (otherElem val) iMax 0
  scanBits bmap val (bmsize - i * elemBit) (i * elemBit)

/-- The loop over the `i` bits below `rv`. -/
def scanBack (bmap : SuBmap) (val : Bool) : ℕ → ℕ → Option ℕ
  | 0, _ => none
  | i + 1, rv =>
      if suBmapGet bmap (rv - 1) = val then some (rv - 1) else scanBack bmap val i (rv - 1)

/-- The loop that passes back over the elements `e`. -/
def skipBack (bmap : SuBmap) (e : UInt8) : ℕ → ℕ
  | 0 => 0
  | i + 1 => if bmap i ≠ e then i + 1 else skipBack bmap e i

def suBmapFindlast (bmap : SuBmap) (bmsize : ℕ) (val : Bool) : Option ℕ :=
  match scanBack bmap val (bmsize % elemBit) bmsize with
  | some rv => some rv
  | none =>
      let bmsize := bmsize - bmsize % elemBit
      let i := skipBack bmap (otherElem val) (bmsize / elemBit)
      -- the loop ends at a bit of the element, the assertion says that it is not below 0
      if i = 0 then none
      else scanBack bmap val ((i - 1) * elemBit + elemBit) ((i - 1) * elemBit + elemBit)

def suBmapFindnext (bmap : SuBmap) (bmsize : ℕ) (val : Bool) (startpos : ℕ) : Option ℕ :=
  if startpos = bmsize then none
  else
    let sameBits := startpos % elemBit
    let sameByte := (bmap (startpos / elemBit)).toNat
    if startpos + elemBit < bmsize ∧
        ((val = true ∧ sameByte >>> sameBits = 0) ∨
          (val = false ∧ sameByte ||| ((1 <<< sameBits) - 1) = 255)) then
      let startpos := startpos - sameBits + elemBit
      (suBmapFind1st (fun i => bmap (startpos / elemBit + i)) (bmsize - startpos) val).map
        (· + startpos)
    else scanBits bmap val (bmsize - startpos) startpos

/-! ## Bits -/

variable {bmap : SuBmap} {bmsize startpos a i left : ℕ} {val : Bool}

def bitAt (bmap : SuBmap) (a : ℕ) : Bool := (bmap (a / elemBit)).toNat.testBit (a % elemBit)

def holds (bmap : SuBmap) (val : Bool) (a : ℕ) : Bool := bitAt bmap a == val

theorem suBmapGet_eq (ha : a < 2 ^ 32) : suBmapGet bmap a = bitAt bmap a := by
  rw [suBmapGet, bitAt, uint, Nat.mod_eq_of_lt ha, Nat.testBit, Nat.and_comm,
    Nat.one_and_eq_mod_two]
  rcases Nat.mod_two_eq_zero_or_one ((bmap (a / elemBit)).toNat >>> (a % elemBit)) with h | h
  · rw [h]
    rfl
  · rw [h]
    rfl

theorem holds_iff : holds bmap val a = true ↔ bitAt bmap a = val := beq_iff_eq

theorem holds_eq_false_iff : holds bmap val a = false ↔ bitAt bmap a ≠ val := by
  rw [holds, beq_eq_false_iff_ne]

theorem bitAt_elem (hi : i < elemBit) (j : ℕ) :
    bitAt bmap (j * elemBit + i) = (bmap j).toNat.testBit i := by
  rw [bitAt, Nat.mul_comm, Nat.mul_add_div (by decide), Nat.div_eq_of_lt hi, Nat.add_zero,
    Nat.mul_add_mod, Nat.mod_eq_of_lt hi]

theorem bitAt_shift (j : ℕ) :
    bitAt (fun i => bmap (j + i)) a = bitAt bmap (a + j * elemBit) := by
  rw [bitAt, bitAt, Nat.add_mul_div_right _ _ (by decide), Nat.add_mul_mod_self_right,
    Nat.add_comm j]

theorem testBit_otherElem (hi : i < elemBit) : (otherElem val).toNat.testBit i = !val := by
  cases val with
  | false => exact (Nat.testBit_two_pow_sub_one 8 i).trans (decide_eq_true hi)
  | true => exact Nat.zero_testBit i

theorem lt_elem_end (a : ℕ) : a < (a / elemBit + 1) * elemBit := by
  rw [Nat.succ_mul]
  exact Nat.lt_div_mul_add (by decide)

theorem not_holds_of_elem {j : ℕ} (h : bmap j = otherElem val) (hle : j * elemBit ≤ a)
    (hlt : a < (j + 1) * elemBit) : holds bmap val a = false := by
  obtain ⟨i, rfl⟩ := Nat.exists_eq_add_of_le hle
  have hi : i < elemBit := by
    rw [Nat.succ_mul] at hlt
    exact Nat.lt_of_add_lt_add_left hlt
  rw [holds_eq_false_iff, bitAt_elem hi, h, testBit_otherElem hi]
  exact Bool.not_ne_self val

/-! ## The loops -/

theorem scanBits_eq (hbound : i + left ≤ 2 ^ 32) :
    scanBits bmap val left i = Bitmap.findNext (holds bmap val) (i + left) i := by
  induction left generalizing i with
  | zero => exact (Bitmap.findNext_of_le le_rfl).symm
  | succ left ih =>
      have hget : suBmapGet bmap i = bitAt bmap i := suBmapGet_eq (by omega)
      have hlt : i < i + (left + 1) := Nat.lt_add_of_pos_right left.succ_pos
      rw [scanBits, hget, ih (by omega), Bitmap.findNext_of_lt hlt, Nat.add_assoc,
        Nat.add_comm 1 left]
      simp only [holds_iff]

theorem scanBack_eq (hle : i ≤ a) (hbound : a ≤ 2 ^ 32) :
    Bitmap.findLast (holds bmap val) a =
      (scanBack bmap val i a).or (Bitmap.findLast (holds bmap val) (a - i)) := by
  induction i generalizing a with
  | zero => rfl
  | succ i ih =>
      obtain ⟨b, rfl⟩ := Nat.exists_eq_add_of_le' hle
      have hget : suBmapGet bmap (b + i) = bitAt bmap (b + i) := suBmapGet_eq (by omega)
      have hsub : b + (i + 1) - 1 = b + i := rfl
      rw [scanBack, hsub, hget, ← Nat.add_assoc, Bitmap.findLast, ih (by omega) (by omega)]
      simp only [holds_iff]
      split
      · rfl
      · rw [Nat.add_sub_cancel, Nat.add_assoc, Nat.add_sub_cancel]

theorem skipElems_spec (bmap : SuBmap) (e : UInt8) (left i : ℕ) :
    i ≤ skipElems bmap e left i ∧ ∀ j, i ≤ j → j < skipElems bmap e left i → bmap j = e := by
  induction left generalizing i with
  | zero => exact ⟨le_rfl, fun j hle hlt => absurd hlt (not_lt.mpr hle)⟩
  | succ left ih =>
      rw [skipElems]
      split
      next => exact ⟨le_rfl, fun j hle hlt => absurd hlt (not_lt.mpr hle)⟩
      next h =>
        obtain ⟨hle, hskip⟩ := ih (i + 1)
        refine ⟨Nat.le_of_succ_le hle, fun j hij hlt => ?_⟩
        rcases hij.eq_or_lt with rfl | hij
        · exact not_not.mp h
        · exact hskip j hij hlt

theorem skipBack_spec (bmap : SuBmap) (e : UInt8) (i : ℕ) :
    skipBack bmap e i ≤ i ∧ (∀ j, skipBack bmap e i ≤ j → j < i → bmap j = e) ∧
      (skipBack bmap e i ≠ 0 → bmap (skipBack bmap e i - 1) ≠ e) := by
  induction i with
  | zero => exact ⟨le_rfl, fun j _ hlt => absurd hlt j.not_lt_zero, fun h => absurd rfl h⟩
  | succ i ih =>
      rw [skipBack]
      split
      next h => exact ⟨le_rfl, fun j hle hlt => absurd hlt (not_lt.mpr hle), fun _ => h⟩
      next h =>
        obtain ⟨hle, hskip, hlast⟩ := ih
        refine ⟨Nat.le_succ_of_le hle, fun j hij hlt => ?_, hlast⟩
        rcases Nat.lt_succ_iff_lt_or_eq.mp hlt with hlt | rfl
        · exact hskip j hij hlt
        · exact not_not.mp h

/-! ## The searches -/

theorem suBmapFind1st_eq (hbound : bmsize ≤ 2 ^ 32) :
    suBmapFind1st bmap bmsize val = Bitmap.findNext (holds bmap val) bmsize 0 := by
  obtain ⟨-, hskip⟩ := skipElems_spec bmap (otherElem val)
    ((bmsize + elemBit - 1) / elemBit) 0
  rw [suBmapFind1st]
  generalize skipElems bmap (otherElem val) ((bmsize + elemBit - 1) / elemBit) 0 = i at hskip ⊢
  have hnone (a : ℕ) (hlt : a < i * elemBit) : holds bmap val a = false := by
    have hj : a / elemBit < i := Nat.div_lt_of_lt_mul (by rw [Nat.mul_comm]; exact hlt)
    exact not_holds_of_elem (hskip _ (Nat.zero_le _) hj) (Nat.div_mul_le_self a elemBit)
      (lt_elem_end a)
  rw [Bitmap.findNext_skip (Nat.zero_le (i * elemBit)) fun a _ hlt => hnone a hlt]
  rcases Nat.le_total (i * elemBit) bmsize with hle | hle
  · rw [scanBits_eq (by omega), Nat.add_sub_cancel' hle]
  · rw [Nat.sub_eq_zero_of_le hle, Bitmap.findNext_of_le hle]
    rfl

/-- The loop down from the end of element `i - 1` is the search below it. -/
theorem scanBack_elem (hbound : i * elemBit ≤ 2 ^ 32) (hi : i ≠ 0) :
    scanBack bmap val ((i - 1) * elemBit + elemBit) ((i - 1) * elemBit + elemBit) =
      Bitmap.findLast (holds bmap val) (i * elemBit) := by
  have hmul : (i - 1) * elemBit + elemBit = i * elemBit := by
    rw [← Nat.succ_mul, Nat.succ_eq_add_one, Nat.sub_add_cancel (Nat.pos_of_ne_zero hi)]
  rw [hmul, scanBack_eq le_rfl hbound, Nat.sub_self, Bitmap.findLast, Option.or_none]

theorem suBmapFindlast_eq (hbound : bmsize ≤ 2 ^ 32) :
    suBmapFindlast bmap bmsize val = Bitmap.findLast (holds bmap val) bmsize := by
  have hmod := Nat.mod_le bmsize elemBit
  have hdiv : bmsize - bmsize % elemBit = bmsize / elemBit * elemBit := by
    have hadd := Nat.div_add_mod bmsize elemBit
    rw [Nat.mul_comm] at hadd
    omega
  rw [suBmapFindlast, scanBack_eq hmod hbound]
  cases scanBack bmap val (bmsize % elemBit) bmsize with
  | some rv => rfl
  | none =>
      simp only [Option.none_or, hdiv, Nat.mul_div_cancel _ (show 0 < elemBit by decide)]
      obtain ⟨hle, hskip, -⟩ := skipBack_spec bmap (otherElem val) (bmsize / elemBit)
      generalize skipBack bmap (otherElem val) (bmsize / elemBit) = i at hle hskip ⊢
      have hmul : i * elemBit ≤ bmsize / elemBit * elemBit := Nat.mul_le_mul_right _ hle
      have hnone (a : ℕ) (hge : i * elemBit ≤ a) (hlt : a < bmsize / elemBit * elemBit) :
          holds bmap val a = false := by
        have hj : a / elemBit < bmsize / elemBit :=
          Nat.div_lt_of_lt_mul (by rw [Nat.mul_comm]; exact hlt)
        have hij : i ≤ a / elemBit := (Nat.le_div_iff_mul_le (by decide)).mpr hge
        exact not_holds_of_elem (hskip _ hij hj) (Nat.div_mul_le_self a elemBit) (lt_elem_end a)
      rw [Bitmap.findLast_skip hmul hnone]
      split
      next hz => rw [hz, Nat.zero_mul, Bitmap.findLast]
      next hz => exact scanBack_elem (by omega) hz

/-- The rest of an element that is passed over does not hold the value. -/
theorem not_holds_of_rest {sameByte sameBits : ℕ}
    (h : (val = true ∧ sameByte >>> sameBits = 0) ∨
      (val = false ∧ sameByte ||| ((1 <<< sameBits) - 1) = 255))
    (hle : sameBits ≤ i) (hi : i < elemBit) : sameByte.testBit i ≠ val := by
  rcases h with ⟨rfl, hzero⟩ | ⟨rfl, hones⟩
  · have hbit := Nat.testBit_shiftRight (i := sameBits) (j := i - sameBits) sameByte
    rw [hzero, Nat.zero_testBit, Nat.add_sub_cancel' hle] at hbit
    rw [← hbit]
    exact Bool.false_ne_true
  · have hbit := Nat.testBit_or sameByte ((1 <<< sameBits) - 1) i
    rw [hones, Nat.one_shiftLeft, Nat.testBit_two_pow_sub_one, decide_eq_false (not_lt.mpr hle),
      Bool.or_false] at hbit
    rw [← hbit]
    exact fun hfalse => Bool.false_ne_true (hfalse.symm.trans
      ((Nat.testBit_two_pow_sub_one 8 i).trans (decide_eq_true hi)))

theorem suBmapFindnext_eq (hbound : bmsize ≤ 2 ^ 32) (hstart : startpos ≤ bmsize) :
    suBmapFindnext bmap bmsize val startpos = Bitmap.findNext (holds bmap val) bmsize startpos := by
  rw [suBmapFindnext]
  split
  next heq => rw [heq, Bitmap.findNext_of_le le_rfl]
  next hne =>
    simp only
    split
    next h =>
      obtain ⟨hlt, hrest⟩ := h
      have hmod := Nat.mod_lt startpos (show 0 < elemBit by decide)
      have hdiv := Nat.div_add_mod' startpos elemBit
      have hnext : startpos - startpos % elemBit + elemBit =
          (startpos / elemBit + 1) * elemBit := by
        rw [Nat.succ_mul, ← Nat.sub_eq_of_eq_add hdiv.symm]
      have hle : startpos ≤ (startpos / elemBit + 1) * elemBit := (lt_elem_end startpos).le
      have hsize : (startpos / elemBit + 1) * elemBit ≤ bmsize := by
        rw [← hnext]
        omega
      have hskip (a : ℕ) (hge : startpos ≤ a) (ha : a < (startpos / elemBit + 1) * elemBit) :
          holds bmap val a = false := by
        obtain ⟨b, rfl⟩ := Nat.exists_eq_add_of_le hge
        rw [Nat.succ_mul] at ha
        have hb : startpos % elemBit + b < elemBit := by omega
        rw [holds_eq_false_iff, ← hdiv, Nat.add_assoc, bitAt_elem hb]
        exact not_holds_of_rest hrest (Nat.le_add_right _ b) hb
      rw [Bitmap.findNext_skip hle hskip, hnext, Nat.mul_div_cancel _ (by decide),
        suBmapFind1st_eq (le_trans (Nat.sub_le _ _) hbound)]
      have hshift : holds (fun i => bmap (startpos / elemBit + 1 + i)) val =
          fun a => holds bmap val (a + (startpos / elemBit + 1) * elemBit) := by
        funext a
        rw [holds, bitAt_shift, holds]
      rw [hshift, Bitmap.map_findNext_shift, Nat.sub_add_cancel hsize, Nat.zero_add]
    next => rw [scanBits_eq (by omega), Nat.add_sub_cancel' hstart]

/-! ## Exact searches -/

/-- The searches find the least position from the start, the least one at all and the
greatest one of the value, and fail where there is none below the size. -/
structure ExactSearches (bmap : SuBmap) (bmsize : ℕ) (val : Bool) (startpos : ℕ) : Prop where
  next : ∀ p, suBmapFindnext bmap bmsize val startpos = some p ↔
    IsLeast {a | startpos ≤ a ∧ a < bmsize ∧ bitAt bmap a = val} p
  next_none : suBmapFindnext bmap bmsize val startpos = none ↔
    ∀ a, startpos ≤ a → a < bmsize → bitAt bmap a ≠ val
  first : ∀ p, suBmapFind1st bmap bmsize val = some p ↔
    IsLeast {a | a < bmsize ∧ bitAt bmap a = val} p
  first_none : suBmapFind1st bmap bmsize val = none ↔ ∀ a < bmsize, bitAt bmap a ≠ val
  last : ∀ p, suBmapFindlast bmap bmsize val = some p ↔
    IsGreatest {a | a < bmsize ∧ bitAt bmap a = val} p
  last_none : suBmapFindlast bmap bmsize val = none ↔ ∀ a < bmsize, bitAt bmap a ≠ val

theorem searches_exact (hbound : bmsize ≤ 2 ^ 32) (hstart : startpos ≤ bmsize) :
    ExactSearches bmap bmsize val startpos where
  next := fun p => by
    rw [suBmapFindnext_eq hbound hstart, Bitmap.findNext_eq_some_iff]
    simp only [holds_iff]
  next_none := by
    rw [suBmapFindnext_eq hbound hstart, Bitmap.findNext_eq_none_iff]
    simp only [holds_eq_false_iff]
  first := fun p => by
    rw [suBmapFind1st_eq hbound, Bitmap.findNext_eq_some_iff]
    simp only [holds_iff, Nat.zero_le, true_and]
  first_none := by
    rw [suBmapFind1st_eq hbound, Bitmap.findNext_eq_none_iff]
    simp only [holds_eq_false_iff, Nat.zero_le, true_implies]
  last := fun p => by
    rw [suBmapFindlast_eq hbound, Bitmap.findLast_eq_some_iff]
    simp only [holds_iff]
  last_none := by
    rw [suBmapFindlast_eq hbound, Bitmap.findLast_eq_none_iff]
    simp only [holds_eq_false_iff]

theorem searches_exact_partial_element :
    ExactSearches (fun i => if i = 1 then 12 else 0) 11 true 3 :=
  searches_exact (by decide) (by decide)

/-- A map whose only set bit is that with number 2 ^ 32. -/
def farBit : SuBmap := fun i => if i = 2 ^ 29 then 1 else 0

theorem suBmapGet_farBit (a : ℕ) : suBmapGet farBit a = false := by
  have hlt : uint a < 2 ^ 32 := Nat.mod_lt a (by decide)
  have hdiv : uint a / elemBit < 2 ^ 29 := Nat.div_lt_of_lt_mul hlt
  rw [suBmapGet, farBit, if_neg hdiv.ne, UInt8.toNat_zero, Nat.zero_shiftRight, Nat.zero_and]
  rfl

theorem scanBits_farBit (left i : ℕ) : scanBits farBit true left i = none := by
  induction left generalizing i with
  | zero => rfl
  | succ left ih =>
      rw [scanBits, suBmapGet_farBit, if_neg Bool.false_ne_true]
      exact ih (i + 1)

/-- A bit behind the range of an unsigned int is missed. -/
theorem not_searches_exact_farBit : ¬ ExactSearches farBit (2 ^ 32 + 1) true 0 := by
  intro h
  have hnone := h.first_none.mp (scanBits_farBit _ _)
  exact hnone (2 ^ 32) (Nat.lt_succ_self _) rfl

end Bmap

end SolidDB
