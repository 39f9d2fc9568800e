import SolidDB.Foundation.FieldTuple

/-!
# The first symbols of a tuple as fields

The first `i` symbols of a tuple are whole fields and the beginning of one more. They can be
held as the data of these fields in one list with the positions at which the fields end.
-/

namespace FrontCoding

variable {α : Type*} {v w c : List (List α)} {f g t : List α} {i j : ℕ}

def keptFields : List (List α) → ℕ → List (List α) × List α
  | [], _ => ([], [])
  | f :: v, i =>
      if i ≤ f.length then ([], f.take i)
      else (f :: (keptFields v (i - f.length - 1)).1, (keptFields v (i - f.length - 1)).2)

def fieldEnds : ℕ → List (List α) → List ℕ
  | _, [] => []
  | off, f :: v => (off + f.length) :: fieldEnds (off + f.length) v

@[simp] theorem keptFields_zero (v : List (List α)) : keptFields v 0 = ([], []) := by
  cases v <;> simp [keptFields]

theorem keptFields_cons_of_le (v : List (List α)) (h : i ≤ f.length) :
    keptFields (f :: v) i = ([], f.take i) := if_pos h

theorem keptFields_cons_succ (f : List α) (v : List (List α)) (i : ℕ) :
    keptFields (f :: v) (f.length + 1 + i) =
      (f :: (keptFields v i).1, (keptFields v i).2) := by
  have h : ¬ f.length + 1 + i ≤ f.length := by omega
  have hi : f.length + 1 + i - f.length - 1 = i := by omega
  rw [keptFields, if_neg h, hi]

theorem le_or_eq_add (f : List α) (i : ℕ) : i ≤ f.length ∨ ∃ j, i = f.length + 1 + j := by
  rcases Nat.lt_or_ge f.length i with h | h
  · exact .inr ⟨i - f.length - 1, by omega⟩
  · exact .inl h

theorem fieldEnds_append (off : ℕ) (v w : List (List α)) :
    fieldEnds off (v ++ w) = fieldEnds off v ++ fieldEnds (off + v.flatten.length) w := by
  induction v generalizing off with
  | nil => rfl
  | cons f v ih =>
      rw [List.cons_append, fieldEnds, fieldEnds, ih, List.flatten_cons, List.length_append,
        Nat.add_assoc]
      rfl

theorem rejoin_eq_keptFields (hi : i ≤ (tupleSyms v).length) (hc : c ≠ []) :
    rejoin v i c = (keptFields v i).1 ++ ((keptFields v i).2 ++ c.headD []) :: c.tail := by
  induction v generalizing i with
  | nil =>
      obtain ⟨g, c, rfl⟩ := List.exists_cons_of_ne_nil hc
      rfl
  | cons f v ih =>
      rcases le_or_eq_add f i with hle | ⟨j, rfl⟩
      · rw [keptFields_cons_of_le v hle, rejoin, if_pos hle]
        rfl
      · have hj : f.length + 1 + j - f.length - 1 = j := by omega
        rw [tupleSyms_cons, List.length_append, length_fieldSyms] at hi
        rw [keptFields_cons_succ, rejoin, if_neg (by omega), hj, ih (by omega)]
        rfl

theorem keptFields_rejoin (hi : i ≤ (tupleSyms v).length) (c : List (List α)) :
    keptFields (rejoin v i c) i = keptFields v i := by
  induction v generalizing i with
  | nil =>
      rw [tupleSyms_nil, List.length_nil] at hi
      rw [Nat.le_zero.mp hi, keptFields_zero, keptFields_zero]
  | cons f v ih =>
      rcases le_or_eq_add f i with hle | ⟨j, rfl⟩
      · have hlen : i ≤ (f.take i ++ c.headD []).length := by
          rw [List.length_append, List.length_take]
          omega
        rw [rejoin, if_pos hle, keptFields_cons_of_le _ hlen, keptFields_cons_of_le _ hle,
          List.take_append_of_le_length (by simp [hle]), List.take_take, Nat.min_self]
      · have hj : f.length + 1 + j - f.length - 1 = j := by omega
        rw [tupleSyms_cons, List.length_append, length_fieldSyms] at hi
        rw [rejoin, if_neg (by omega), hj, keptFields_cons_succ, keptFields_cons_succ,
          ih (by omega)]

theorem keptFields_add (hi : i < (tupleSyms v).length) (hres : residual v i = g :: w) :
    keptFields v (i + j) =
      if j ≤ g.length then ((keptFields v i).1, (keptFields v i).2 ++ g.take j)
      else ((keptFields v i).1 ++ ((keptFields v i).2 ++ g) :: (keptFields w (j - g.length - 1)).1,
        (keptFields w (j - g.length - 1)).2) := by
  induction v generalizing i with
  | nil => exact absurd hi (Nat.not_lt_zero i)
  | cons f v ih =>
      rcases le_or_eq_add f i with hle | ⟨k, rfl⟩
      · rw [residual_cons_of_le hle, List.cons.injEq] at hres
        obtain ⟨rfl, rfl⟩ := hres
        rw [keptFields_cons_of_le v hle, List.length_drop]
        by_cases hj : j ≤ f.length - i
        · rw [if_pos hj, keptFields_cons_of_le v (by omega), List.take_add]
        · have hsub : i + j - f.length - 1 = j - (f.length - i) - 1 := by omega
          rw [if_neg hj, keptFields, if_neg (by omega), hsub, List.take_append_drop]
          rfl
      · rw [tupleSyms_cons, List.length_append, length_fieldSyms] at hi
        rw [residual_cons_succ] at hres
        rw [Nat.add_assoc (f.length + 1) k j, keptFields_cons_succ, keptFields_cons_succ,
          ih (by omega) hres]
        split <;> rfl

theorem isPrefix_keptFields (v : List (List α)) (h : j ≤ i) :
    (keptFields v j).1.flatten ++ (keptFields v j).2 <+:
      (keptFields v i).1.flatten ++ (keptFields v i).2 := by
  induction v generalizing i j with
  | nil => exact List.prefix_rfl
  | cons f v ih =>
      rcases le_or_eq_add f i with hle | ⟨k, rfl⟩
      · rw [keptFields_cons_of_le v hle, keptFields_cons_of_le v (h.trans hle)]
        exact List.take_prefix_take_left h
      · rw [keptFields_cons_succ]
        rcases le_or_eq_add f j with hle | ⟨l, rfl⟩
        · rw [keptFields_cons_of_le v hle, List.flatten_cons, List.append_assoc]
          exact (List.take_prefix j f).trans (List.prefix_append f _)
        · rw [keptFields_cons_succ, List.flatten_cons, List.flatten_cons, List.append_assoc,
            List.append_assoc, List.prefix_append_right_inj]
          exact ih (by omega)

end FrontCoding
