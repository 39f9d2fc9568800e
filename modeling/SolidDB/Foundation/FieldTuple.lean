import SolidDB.Foundation.CommonPrefix
import Mathlib.Order.WithBot

/-!
# Tuples of fields as terminated symbol sequences

A tuple is a list of fields and a field is a list over a linear order. Tuples
are compared lexicographically, field by field, and a shorter field or tuple
precedes its extensions. Writing `⊥` after every field turns a tuple into one
sequence of symbols. This map preserves the order and the prefix relation, so a
mismatch index counts data symbols plus one for every field boundary passed.

`residual v i` is what is left of `v` from symbol `i` on, again as a tuple, and
`rejoin p i c` puts a residual back behind the first `i` symbols of `p`.
-/

namespace FrontCoding

variable {α : Type*}

def fieldSyms (f : List α) : List (WithBot α) :=
  f.map WithBot.some ++ [⊥]

def tupleSyms (v : List (List α)) : List (WithBot α) :=
  v.flatMap fieldSyms

@[simp] theorem length_fieldSyms (f : List α) :
    (fieldSyms f).length = f.length + 1 := by
  simp [fieldSyms]

@[simp] theorem tupleSyms_nil : tupleSyms ([] : List (List α)) = [] := rfl

@[simp] theorem tupleSyms_cons (f : List α) (v : List (List α)) :
    tupleSyms (f :: v) = fieldSyms f ++ tupleSyms v := rfl

@[simp] theorem tupleSyms_append (v w : List (List α)) :
    tupleSyms (v ++ w) = tupleSyms v ++ tupleSyms w := by
  simp [tupleSyms]

@[simp] theorem tupleSyms_eq_nil_iff (v : List (List α)) :
    tupleSyms v = [] ↔ v = [] := by
  cases v with
  | nil => simp
  | cons f v => simp [fieldSyms]

theorem length_tupleSyms_pos {v : List (List α)} (hv : v ≠ []) :
    0 < (tupleSyms v).length := by
  rw [List.length_pos_iff]
  simpa using hv

/-! ## Residuals -/

/-- What is left of the tuple from symbol `i` on. -/
def residual : List (List α) → ℕ → List (List α)
  | [], _ => []
  | f :: v, i =>
      if i ≤ f.length then f.drop i :: v else residual v (i - f.length - 1)

def fieldAt : List (List α) → ℕ → List α
  | [], _ => []
  | f :: v, i => if i ≤ f.length then f else fieldAt v (i - f.length - 1)

@[simp] theorem residual_zero (v : List (List α)) : residual v 0 = v := by
  cases v <;> simp [residual]

theorem residual_cons_of_le {f : List α} {v : List (List α)} {i : ℕ}
    (h : i ≤ f.length) : residual (f :: v) i = f.drop i :: v := by
  simp [residual, h]

theorem residual_cons_succ (f : List α) (v : List (List α)) (i : ℕ) :
    residual (f :: v) (f.length + 1 + i) = residual v i := by
  have h : ¬ f.length + 1 + i ≤ f.length := by omega
  have hi : f.length + 1 + i - f.length - 1 = i := by omega
  simp only [residual, if_neg h, hi]

theorem tupleSyms_residual {v : List (List α)} {i : ℕ}
    (h : i ≤ (tupleSyms v).length) :
    tupleSyms (residual v i) = (tupleSyms v).drop i := by
  induction v generalizing i with
  | nil => simp [residual]
  | cons f v ih =>
      by_cases hi : i ≤ f.length
      · rw [residual_cons_of_le hi, tupleSyms_cons, tupleSyms_cons,
          List.drop_append_of_le_length (by simp; omega)]
        congr 1
        simp [fieldSyms, List.drop_append_of_le_length, hi, List.map_drop]
      · obtain ⟨j, rfl⟩ : ∃ j, i = f.length + 1 + j :=
          ⟨i - f.length - 1, by omega⟩
        have hj : j ≤ (tupleSyms v).length := by
          simp only [tupleSyms_cons, List.length_append, length_fieldSyms] at h
          omega
        rw [residual_cons_succ, tupleSyms_cons, ih hj, ← length_fieldSyms f,
          List.drop_length_add_append]

theorem residual_ne_nil {v : List (List α)} {i : ℕ}
    (h : i < (tupleSyms v).length) : residual v i ≠ [] := by
  intro hnil
  have := tupleSyms_residual h.le
  rw [hnil, tupleSyms_nil, eq_comm, List.drop_eq_nil_iff] at this
  omega

theorem residual_residual {v : List (List α)} {i j : ℕ}
    (h : i < (tupleSyms v).length) :
    residual (residual v i) j = residual v (i + j) := by
  induction v generalizing i with
  | nil => simp at h
  | cons f v ih =>
      by_cases hi : i ≤ f.length
      · rw [residual_cons_of_le hi]
        by_cases hj : j ≤ (f.drop i).length
        · rw [residual_cons_of_le hj,
            residual_cons_of_le (by simp at hj; omega), List.drop_drop]
        · obtain ⟨l, rfl⟩ : ∃ l, j = (f.drop i).length + 1 + l :=
            ⟨j - (f.drop i).length - 1, by omega⟩
          have hlen : i + ((f.drop i).length + 1 + l) = f.length + 1 + l := by
            simp
            omega
          rw [residual_cons_succ, hlen, residual_cons_succ]
      · obtain ⟨l, rfl⟩ : ∃ l, i = f.length + 1 + l :=
          ⟨i - f.length - 1, by omega⟩
        rw [residual_cons_succ, Nat.add_assoc (f.length + 1) l j,
          residual_cons_succ]
        exact ih (by simpa [Nat.add_assoc] using h)

/-- At its last terminator a tuple leaves one empty field. -/
theorem residual_length_sub_one {v : List (List α)} (hv : v ≠ []) :
    residual v ((tupleSyms v).length - 1) = [[]] := by
  induction v with
  | nil => exact absurd rfl hv
  | cons f v ih =>
      by_cases hnil : v = []
      · subst hnil
        simp [residual]
      · have hpos := length_tupleSyms_pos hnil
        have hlen : (tupleSyms (f :: v)).length - 1 =
            f.length + 1 + ((tupleSyms v).length - 1) := by
          rw [tupleSyms_cons, List.length_append, length_fieldSyms]
          omega
        rw [hlen, residual_cons_succ, ih hnil]

theorem residual_append (v w : List (List α)) :
    residual (v ++ w) (tupleSyms v).length = w := by
  induction v with
  | nil => simp
  | cons f v ih =>
      rw [tupleSyms_cons, List.length_append, length_fieldSyms, List.cons_append,
        residual_cons_succ, ih]

/-! ## Putting a residual back -/

/-- The first `i` symbols of `p` followed by the tuple `c`. -/
def rejoin : List (List α) → ℕ → List (List α) → List (List α)
  | [], _, c => c
  | f :: p, i, c =>
      if i ≤ f.length then (f.take i ++ c.headD []) :: c.tail
      else f :: rejoin p (i - f.length - 1) c

theorem tupleSyms_rejoin {p c : List (List α)} {i : ℕ}
    (hi : i ≤ (tupleSyms p).length) (hc : c ≠ []) :
    tupleSyms (rejoin p i c) = (tupleSyms p).take i ++ tupleSyms c := by
  induction p generalizing i with
  | nil =>
      obtain rfl : i = 0 := by simpa using hi
      simp [rejoin]
  | cons f p ih =>
      by_cases hif : i ≤ f.length
      · obtain ⟨g, c, rfl⟩ := List.exists_cons_of_ne_nil hc
        rw [tupleSyms_cons, List.take_append_of_le_length (by simp; omega)]
        simp [rejoin, hif, fieldSyms, List.take_append_of_le_length,
          List.map_take]
      · obtain ⟨j, rfl⟩ : ∃ j, i = f.length + 1 + j :=
          ⟨i - f.length - 1, by omega⟩
        have hj : f.length + 1 + j - f.length - 1 = j := by omega
        have hjlen : j ≤ (tupleSyms p).length := by
          simp only [tupleSyms_cons, List.length_append, length_fieldSyms] at hi
          omega
        rw [rejoin, if_neg hif, hj, tupleSyms_cons, tupleSyms_cons, ih hjlen,
          ← length_fieldSyms f, List.take_length_add_append, List.append_assoc]

/-! ## The order of tuples -/

section Order

variable [LinearOrder α]

theorem fieldSyms_append_lt_iff (f g : List α) (s t : List (WithBot α)) :
    fieldSyms f ++ s < fieldSyms g ++ t ↔ f < g ∨ (f = g ∧ s < t) := by
  induction f generalizing g with
  | nil =>
      cases g with
      | nil => simp [fieldSyms]
      | cons y g => simp [fieldSyms, List.cons_lt_cons_iff]
  | cons x f ih =>
      cases g with
      | nil => simp [fieldSyms, List.cons_lt_cons_iff, -not_lt, -List.not_lt]
      | cons y g =>
          have := ih g
          simp only [fieldSyms, List.map_cons, List.cons_append,
            List.cons_lt_cons_iff, WithBot.coe_lt_coe, WithBot.coe_inj,
            List.cons.injEq] at this ⊢
          rw [this]
          tauto

/-- Writing out the symbols preserves and reflects the order. -/
theorem tupleSyms_lt_iff (v w : List (List α)) :
    tupleSyms v < tupleSyms w ↔ v < w := by
  induction v generalizing w with
  | nil =>
      cases w with
      | nil => simp
      | cons g w =>
          cases g <;> simp [fieldSyms]
  | cons f v ih =>
      cases w with
      | nil => simp
      | cons g w =>
          rw [tupleSyms_cons, tupleSyms_cons, fieldSyms_append_lt_iff, ih w,
            List.cons_lt_cons_iff]

theorem tupleSyms_le_iff (v w : List (List α)) :
    tupleSyms v ≤ tupleSyms w ↔ v ≤ w := by
  rw [← not_lt, ← not_lt, tupleSyms_lt_iff]

theorem tupleSyms_injective :
    Function.Injective (tupleSyms : List (List α) → List (WithBot α)) := by
  intro v w h
  apply le_antisymm
  · exact (tupleSyms_le_iff v w).mp h.le
  · exact (tupleSyms_le_iff w v).mp h.ge

/-! ## The mismatch index of tuples -/

theorem commonPrefixLen_fieldSyms (f g : List α) (s t : List (WithBot α)) :
    commonPrefixLen (fieldSyms f ++ s) (fieldSyms g ++ t) =
      if f = g then f.length + 1 + commonPrefixLen s t
      else commonPrefixLen f g := by
  induction f generalizing g with
  | nil =>
      cases g with
      | nil => simp [fieldSyms]; omega
      | cons y g => simp [fieldSyms]
  | cons x f ih =>
      cases g with
      | nil => simp [fieldSyms]
      | cons y g =>
          have := ih g
          simp only [fieldSyms] at this
          simp only [fieldSyms, List.map_cons, List.cons_append,
            commonPrefixLen_cons_cons, WithBot.coe_inj, List.cons.injEq,
            List.length_cons, this]
          by_cases hxy : x = y
          · by_cases hfg : f = g
            · simp [hxy, hfg]
              omega
            · simp [hxy, hfg]
          · simp [hxy]

/-- The mismatch index of two tuples: data symbols plus one for each field
boundary both pass, the last terminator of `n` excepted. -/
def tupleMismatch (p n : List (List α)) : ℕ :=
  mismatchIndex (tupleSyms p) (tupleSyms n)

theorem tupleMismatch_lt_length (p : List (List α)) {n : List (List α)}
    (hn : n ≠ []) : tupleMismatch p n < (tupleSyms n).length :=
  mismatchIndex_lt_length _ (by simpa using hn)

theorem tupleMismatch_le_left (p n : List (List α)) :
    tupleMismatch p n ≤ (tupleSyms p).length :=
  (mismatchIndex_le_commonPrefixLen _ _).trans (commonPrefixLen_le_left _ _)

/-- The recursion by which the index is computed, field by field. -/
theorem tupleMismatch_cons_cons (f g : List α) (p n : List (List α)) :
    tupleMismatch (f :: p) (g :: n) =
      if f = g then
        (if n = [] then f.length else f.length + 1 + tupleMismatch p n)
      else commonPrefixLen f g := by
  unfold tupleMismatch mismatchIndex
  rw [tupleSyms_cons, tupleSyms_cons, commonPrefixLen_fieldSyms]
  by_cases hfg : f = g
  · subst hfg
    by_cases hn : n = []
    · subst hn
      simp
    · have := length_tupleSyms_pos hn
      simp only [if_true, if_neg hn, List.length_append, length_fieldSyms]
      omega
  · have := commonPrefixLen_le_right f g
    simp only [if_neg hfg, List.length_append, length_fieldSyms]
    omega

/-- Between a tuple and one it was compared with the index does not get smaller. -/
theorem tupleMismatch_le_of_le {p q n : List (List α)} (hpq : p ≤ q) (hqn : q ≤ n) :
    tupleMismatch p n ≤ tupleMismatch q n :=
  mismatchIndex_le_of_le ((tupleSyms_le_iff p q).mpr hpq) ((tupleSyms_le_iff q n).mpr hqn)

/-- A residual taken inside the common prefix gives the tuple back. -/
theorem rejoin_residual_of_le {p n : List (List α)} {i : ℕ} (hlt : i < (tupleSyms n).length)
    (hi : i ≤ commonPrefixLen (tupleSyms p) (tupleSyms n)) : rejoin p i (residual n i) = n := by
  apply tupleSyms_injective
  rw [tupleSyms_rejoin (hi.trans (commonPrefixLen_le_left _ _)) (residual_ne_nil hlt),
    tupleSyms_residual hlt.le, take_eq_take_of_le hi]
  exact List.take_append_drop i _

/-- A residual taken no later than the mismatch index gives the tuple back. -/
theorem rejoin_residual {p n : List (List α)} {i : ℕ} (hn : n ≠ [])
    (hi : i ≤ tupleMismatch p n) : rejoin p i (residual n i) = n :=
  rejoin_residual_of_le (lt_of_le_of_lt hi (tupleMismatch_lt_length p hn))
    (hi.trans (mismatchIndex_le_commonPrefixLen _ _))

end Order

end FrontCoding
