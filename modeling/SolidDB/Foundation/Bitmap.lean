import Mathlib.Data.List.Nodup
import Mathlib.Data.List.Basic
import Mathlib.Logic.Function.Basic
import Mathlib.Order.Nat
import Mathlib.Order.Bounds.Basic
import Mathlib.Data.Nat.Bitwise

/-!
# Scanning a bit map

The set bits below a size, in ascending order from a start position. A search from a
position finds the first of them, and the search goes on behind the position it found.
-/

namespace Bitmap

variable {m m' : ℕ → Bool} {size start a p : ℕ} {as : List ℕ}

def ones (m : ℕ → Bool) (size start : ℕ) : List ℕ :=
  (List.range' start (size - start)).filter m

def findNext (m : ℕ → Bool) (size start : ℕ) : Option ℕ :=
  (List.range' start (size - start)).find? m

theorem findNext_eq_head? (m : ℕ → Bool) (size start : ℕ) :
    findNext m size start = (ones m size start).head? :=
  List.head?_filter.symm

theorem mem_ones : a ∈ ones m size start ↔ start ≤ a ∧ a < size ∧ m a = true := by
  rw [ones, List.mem_filter, List.mem_range'_1]
  constructor
  · rintro ⟨⟨hle, hlt⟩, hm⟩
    refine ⟨hle, ?_, hm⟩
    omega
  · rintro ⟨hle, hlt, hm⟩
    refine ⟨⟨hle, ?_⟩, hm⟩
    omega

theorem nodup_ones (m : ℕ → Bool) (size start : ℕ) : (ones m size start).Nodup :=
  List.Nodup.filter m List.nodup_range'

theorem ones_of_le (h : size ≤ start) : ones m size start = [] := by
  rw [ones, Nat.sub_eq_zero_of_le h]
  rfl

theorem ones_of_lt (h : start < size) :
    ones m size start = (if m start then [start] else []) ++ ones m size (start + 1) := by
  have hsub : size - start = (size - (start + 1)) + 1 := by omega
  rw [ones, hsub, List.range'_succ, List.filter_cons]
  cases m start with
  | true => rfl
  | false => rfl

theorem ones_succ_of_cons (h : ones m size start = a :: as) : ones m size (a + 1) = as := by
  induction hk : size - start generalizing start with
  | zero =>
      rw [ones_of_le (Nat.le_of_sub_eq_zero hk)] at h
      cases h
  | succ k ih =>
      have hlt : start < size := by omega
      rw [ones_of_lt hlt] at h
      cases hm : m start with
      | true =>
          rw [hm, if_pos rfl, List.singleton_append] at h
          obtain ⟨rfl, rfl⟩ := List.cons.inj h
          rfl
      | false =>
          rw [hm, if_neg Bool.false_ne_true, List.nil_append] at h
          refine ih h ?_
          omega

theorem le_of_mem_of_cons (h : ones m size start = a :: as) (hp : p ∈ a :: as) : a ≤ p := by
  rcases List.mem_cons.mp hp with rfl | hp
  · exact le_rfl
  · rw [← ones_succ_of_cons h, mem_ones] at hp
    exact Nat.le_of_succ_le hp.1

theorem ones_congr (h : ∀ a, start ≤ a → m' a = m a) : ones m' size start = ones m size start := by
  refine List.filter_congr fun a ha => ?_
  exact h a (List.mem_range'_1.mp ha).1

theorem ones_update_of_lt (h : p < start) (b : Bool) :
    ones (Function.update m p b) size start = ones m size start := by
  refine ones_congr fun a ha => ?_
  exact Function.update_of_ne (ne_of_gt (lt_of_lt_of_le h ha)) b m

theorem ones_eq_nil_iff : ones m size start = [] ↔ ∀ a, start ≤ a → a < size → m a = false := by
  rw [List.eq_nil_iff_forall_not_mem]
  refine forall_congr' fun a => ?_
  rw [mem_ones, not_and, not_and, Bool.not_eq_true]

/-! ## The number of set bits -/

def count (m : ℕ → Bool) (size : ℕ) : ℕ := (ones m size 0).length

theorem count_le (m : ℕ → Bool) (size : ℕ) : count m size ≤ size := by
  refine (List.length_filter_le m _).trans ?_
  rw [List.length_range', Nat.sub_zero]

theorem ones_clear (m : ℕ → Bool) (size p : ℕ) :
    ones (Function.update m p false) size 0 = (ones m size 0).erase p := by
  rw [(nodup_ones m size 0).erase_eq_filter, ones, ones, List.filter_filter]
  refine List.filter_congr fun a _ => ?_
  by_cases hap : a = p
  · rw [hap, Function.update_self, bne_self_eq_false, Bool.false_and]
  · rw [Function.update_of_ne hap, bne_iff_ne.mpr hap, Bool.true_and]

theorem count_clear (hp : p < size) (hm : m p = true) :
    count (Function.update m p false) size + 1 = count m size := by
  have hmem : p ∈ ones m size 0 := mem_ones.mpr ⟨p.zero_le, hp, hm⟩
  rw [count, ones_clear, List.length_erase_of_mem hmem, count]
  exact Nat.sub_add_cancel (List.length_pos_of_mem hmem)

theorem count_set (hp : p < size) (hm : m p = false) :
    count (Function.update m p true) size = count m size + 1 := by
  have hback : Function.update (Function.update m p true) p false = m := by
    rw [Function.update_idem, ← hm, Function.update_eq_self]
  have hset := count_clear hp (Function.update_self p true m)
  rw [hback] at hset
  exact hset.symm

theorem count_extend {old new : ℕ} (m : ℕ → Bool) (hle : old ≤ new) :
    count (fun a => if old ≤ a ∧ a < new then false else m a) new = count m old := by
  have hsplit : List.range' 0 new = List.range' 0 old ++ List.range' old (new - old) := by
    have happend := @List.range'_append 0 old (new - old) 1
    rw [Nat.zero_add, Nat.one_mul, Nat.add_sub_cancel' hle] at happend
    exact happend.symm
  have hnew : (List.range' old (new - old)).filter
      (fun a => if old ≤ a ∧ a < new then false else m a) = [] := by
    refine List.filter_eq_nil_iff.mpr fun a ha => ?_
    have hbounds := List.mem_range'_1.mp ha
    rw [Nat.add_sub_cancel' hle] at hbounds
    rw [if_pos hbounds]
    exact Bool.false_ne_true
  rw [count, ones, Nat.sub_zero, hsplit, List.filter_append, hnew, List.append_nil, count, ones,
    Nat.sub_zero]
  refine congrArg List.length (List.filter_congr fun a ha => ?_)
  have hlt := (List.mem_range'_1.mp ha).2
  rw [Nat.zero_add] at hlt
  rw [if_neg fun h => Nat.not_le.mpr hlt h.1]

/-- A search that starts at or below every set bit finds the first one. -/
theorem ones_of_below (size : ℕ) (h : ∀ a < start, m a = false) :
    ones m size start = ones m size 0 := by
  induction start with
  | zero => rfl
  | succ p ih =>
      have ih := ih fun a ha => h a (Nat.lt_succ_of_lt ha)
      rw [← ih]
      rcases Nat.lt_or_ge p size with hlt | hge
      · rw [ones_of_lt hlt, h p p.lt_succ_self]
        rfl
      · rw [ones_of_le hge, ones_of_le (Nat.le_succ_of_le hge)]

end Bitmap

/-!
## First and last bits

A search up finds the least position of a bit from a start, a search down the greatest one
below a size. Both may leave out a part that has no such bit.
-/

namespace Bitmap

variable {m : ℕ → Bool} {size start mid p : ℕ}

theorem findNext_of_le (h : size ≤ start) : findNext m size start = none := by
  rw [findNext, Nat.sub_eq_zero_of_le h]
  rfl

theorem findNext_of_lt (h : start < size) :
    findNext m size start = if m start then some start else findNext m size (start + 1) := by
  have hsub : size - start = (size - (start + 1)) + 1 := by omega
  rw [findNext, hsub, List.range'_succ, List.find?_cons]
  cases m start with
  | true => rfl
  | false => rfl

theorem findNext_skip (hle : start ≤ mid) (h : ∀ a, start ≤ a → a < mid → m a = false) :
    findNext m size start = findNext m size mid := by
  induction mid, hle using Nat.le_induction with
  | base => rfl
  | succ mid hle ih =>
      rw [ih fun a ha hlt => h a ha (Nat.lt_succ_of_lt hlt)]
      rcases Nat.lt_or_ge mid size with hlt | hge
      · rw [findNext_of_lt hlt, h mid hle mid.lt_succ_self, if_neg Bool.false_ne_true]
      · rw [findNext_of_le hge, findNext_of_le (Nat.le_succ_of_le hge)]

theorem map_findNext_shift (m : ℕ → Bool) (k size start : ℕ) :
    (findNext (fun a => m (a + k)) size start).map (· + k) =
      findNext m (size + k) (start + k) := by
  induction hn : size - start generalizing start with
  | zero =>
      have hle : size ≤ start := Nat.le_of_sub_eq_zero hn
      rw [findNext_of_le hle, findNext_of_le (Nat.add_le_add_right hle k)]
      rfl
  | succ n ih =>
      have hlt : start < size := by omega
      rw [findNext_of_lt hlt, findNext_of_lt (Nat.add_lt_add_right hlt k), Nat.add_right_comm]
      cases m (start + k) with
      | true => rfl
      | false => exact ih (start + 1) (by omega)

theorem findNext_eq_none_iff :
    findNext m size start = none ↔ ∀ a, start ≤ a → a < size → m a = false := by
  rw [findNext_eq_head?, List.head?_eq_none_iff, ones_eq_nil_iff]

theorem findNext_eq_some_iff :
    findNext m size start = some p ↔ IsLeast {a | start ≤ a ∧ a < size ∧ m a = true} p := by
  rw [findNext_eq_head?]
  constructor
  · intro h
    obtain ⟨as, has⟩ := List.head?_eq_some_iff.mp h
    refine ⟨mem_ones.mp (List.mem_of_mem_head? h), fun a ha => ?_⟩
    exact le_of_mem_of_cons has (has ▸ mem_ones.mpr ha)
  · rintro ⟨hmem, hleast⟩
    cases has : ones m size start with
    | nil =>
        have hp := mem_ones.mpr hmem
        rw [has] at hp
        exact absurd hp List.not_mem_nil
    | cons a as =>
        have ha := mem_ones.mp (has ▸ List.mem_cons_self : a ∈ ones m size start)
        have hp : p ∈ a :: as := has ▸ mem_ones.mpr hmem
        exact congrArg some (le_antisymm (le_of_mem_of_cons has hp) (hleast ha))

def findLast (m : ℕ → Bool) : ℕ → Option ℕ
  | 0 => none
  | size + 1 => if m size then some size else findLast m size

theorem findLast_skip (hle : mid ≤ size) (h : ∀ a, mid ≤ a → a < size → m a = false) :
    findLast m size = findLast m mid := by
  induction size, hle using Nat.le_induction with
  | base => rfl
  | succ size hle ih =>
      rw [findLast, h size hle size.lt_succ_self, if_neg Bool.false_ne_true]
      exact ih fun a ha hlt => h a ha (Nat.lt_succ_of_lt hlt)

theorem findLast_eq_none_iff : findLast m size = none ↔ ∀ a < size, m a = false := by
  induction size with
  | zero => exact ⟨fun _ a ha => absurd ha a.not_lt_zero, fun _ => rfl⟩
  | succ size ih =>
      rw [findLast]
      cases hm : m size with
      | true =>
          rw [if_pos rfl]
          refine ⟨fun h => absurd h (Option.some_ne_none size), fun h => ?_⟩
          exact absurd (h size size.lt_succ_self) (by rw [hm]; exact Bool.true_eq_false_eq_False)
      | false =>
          rw [if_neg Bool.false_ne_true, ih]
          refine ⟨fun h a ha => ?_, fun h a ha => h a (Nat.lt_succ_of_lt ha)⟩
          rcases Nat.lt_succ_iff_lt_or_eq.mp ha with hlt | rfl
          · exact h a hlt
          · exact hm

theorem findLast_eq_some_iff :
    findLast m size = some p ↔ IsGreatest {a | a < size ∧ m a = true} p := by
  induction size with
  | zero =>
      refine ⟨fun h => absurd h.symm (Option.some_ne_none p), fun h => ?_⟩
      exact absurd h.1.1 p.not_lt_zero
  | succ size ih =>
      rw [findLast]
      cases hm : m size with
      | true =>
          have hgreatest : IsGreatest {a | a < size + 1 ∧ m a = true} size :=
            ⟨⟨size.lt_succ_self, hm⟩, fun a ha => Nat.le_of_lt_succ ha.1⟩
          rw [if_pos rfl, Option.some_inj]
          exact ⟨fun h => h ▸ hgreatest, fun h => hgreatest.unique h⟩
      | false =>
          have hset : {a | a < size + 1 ∧ m a = true} = {a | a < size ∧ m a = true} := by
            ext a
            refine and_congr_left fun ha => ?_
            rw [Nat.lt_succ_iff_lt_or_eq, or_iff_left]
            rintro rfl
            exact Bool.false_ne_true (hm.symm.trans ha)
          rw [if_neg Bool.false_ne_true, ih, hset]

end Bitmap
