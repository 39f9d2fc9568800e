import Mathlib.Data.List.Basic
import Mathlib.Tactic.Common

/-!
# Block arrays

A block array is a list that is resized at its end, read in slices and overwritten in place.
-/

namespace BlockArray

variable {β : Type*} {l a b c data data' : List β} {i j n m : ℕ}

def resize [Zero β] (l : List β) (n : ℕ) : List β :=
  l.take n ++ List.replicate (n - l.length) 0

def slice (l : List β) (i n : ℕ) : List β := (l.drop i).take n

def overwrite (l : List β) (i : ℕ) (data : List β) : List β :=
  l.take i ++ data ++ l.drop (i + data.length)

/-! ## Resizing -/

@[simp] theorem length_resize [Zero β] : (resize l n).length = n := by
  rw [resize, List.length_append, List.length_take, List.length_replicate]
  omega

theorem resize_of_le [Zero β] (h : n ≤ l.length) : resize l n = l.take n := by
  rw [resize, Nat.sub_eq_zero_of_le h, List.replicate_zero, List.append_nil]

theorem resize_of_ge [Zero β] (h : l.length ≤ n) :
    resize l n = l ++ List.replicate (n - l.length) 0 := by
  rw [resize, List.take_of_length_le h]

/-! ## Slices -/

theorem length_slice (h : i + n ≤ l.length) : (slice l i n).length = n := by
  rw [slice, List.length_take, List.length_drop]
  omega

theorem slice_zero : slice l i 0 = [] := List.take_zero

theorem slice_take (h : i + n ≤ m) : slice (l.take m) i n = slice l i n := by
  unfold slice
  rw [List.drop_take, List.take_take, Nat.min_eq_left (by omega)]

theorem slice_add : slice l i n ++ slice l (i + n) m = slice l i (n + m) := by
  unfold slice
  rw [List.take_add, List.drop_drop]

theorem slice_append_middle (h : i + n ≤ b.length) :
    slice (a ++ b ++ c) (a.length + i) n = slice b i n := by
  unfold slice
  rw [List.append_assoc, List.drop_append, List.drop_of_length_le (by omega), List.nil_append,
    Nat.add_sub_cancel_left, List.drop_append_of_le_length (by omega),
    List.take_append_of_le_length (by rw [List.length_drop]; omega)]

/-! ## Overwriting -/

@[simp] theorem overwrite_nil : overwrite l i [] = l := by
  rw [overwrite, List.append_nil, List.length_nil, Nat.add_zero, List.take_append_drop]

theorem length_overwrite (h : i + data.length ≤ l.length) :
    (overwrite l i data).length = l.length := by
  rw [overwrite, List.length_append, List.length_append, List.length_take, List.length_drop]
  omega

theorem overwrite_take (h : i + data.length ≤ m) :
    (overwrite l i data).take m = overwrite (l.take m) i data := by
  unfold overwrite
  rcases Nat.le_total l.length i with hi | hi
  · rw [List.drop_of_length_le (by omega), List.drop_of_length_le
      (by rw [List.length_take]; omega), List.append_nil, List.append_nil,
      List.take_take, Nat.min_eq_left (by omega), List.take_of_length_le hi,
      List.take_of_length_le (by rw [List.length_append]; omega)]
  · have hlen : (l.take i ++ data).length = i + data.length := by
      rw [List.length_append, List.length_take, Nat.min_eq_left hi]
    rw [List.take_append, hlen, List.take_of_length_le (by omega), List.drop_take,
      List.take_take, Nat.min_eq_left (by omega)]

theorem overwrite_append_middle (h : i + data.length ≤ b.length) :
    overwrite (a ++ b ++ c) (a.length + i) data = a ++ overwrite b i data ++ c := by
  unfold overwrite
  rw [List.append_assoc a b c, List.take_append, List.take_of_length_le (by omega),
    Nat.add_sub_cancel_left, List.take_append_of_le_length (by omega), Nat.add_assoc,
    List.drop_append, List.drop_of_length_le (by omega), List.nil_append,
    Nat.add_sub_cancel_left, List.drop_append_of_le_length h]
  simp only [List.append_assoc]

theorem overwrite_overwrite (h : i ≤ l.length) :
    overwrite (overwrite l i data) (i + data.length) data' = overwrite l i (data ++ data') := by
  have hlen : (l.take i ++ data).length = i + data.length := by
    rw [List.length_append, List.length_take, Nat.min_eq_left h]
  have hcut : (l.take i ++ data ++ l.drop (i + data.length)).take (i + data.length) =
      l.take i ++ data := by
    rw [← hlen, List.take_left]
  have hrest : (l.take i ++ data ++ l.drop (i + data.length)).drop
      (i + data.length + data'.length) = l.drop (i + (data ++ data').length) := by
    rw [List.drop_append, hlen, List.drop_of_length_le (by omega), List.nil_append,
      Nat.add_sub_cancel_left, List.drop_drop, List.length_append, Nat.add_assoc]
  unfold overwrite
  rw [hcut, hrest]
  simp only [List.append_assoc]

theorem overwrite_all (h : data.length = l.length) : overwrite l 0 data = data := by
  rw [overwrite, List.take_zero, List.nil_append, Nat.zero_add, h, List.drop_length,
    List.append_nil]

theorem getElem?_overwrite (h : i ≤ l.length) :
    (overwrite l i data)[j]? =
      if j < i then l[j]? else if j < i + data.length then data[j - i]? else l[j]? := by
  have hlen : (l.take i ++ data).length = i + data.length := by
    rw [List.length_append, List.length_take, Nat.min_eq_left h]
  unfold overwrite
  by_cases hj : j < i
  · rw [if_pos hj, List.append_assoc, List.getElem?_append_left
      (by rw [List.length_take]; omega), List.getElem?_take_of_lt hj]
  · rw [if_neg hj]
    by_cases hj' : j < i + data.length
    · rw [if_pos hj', List.getElem?_append_left (by omega), List.getElem?_append_right
        (by rw [List.length_take]; omega), List.length_take, Nat.min_eq_left h]
    · rw [if_neg hj', List.getElem?_append_right (by omega), hlen, List.getElem?_drop]
      congr 1
      omega

/-! ## Maps that know the address of a block -/

variable {γ : Type*} {f : ℕ → β → γ}

def mapFrom (f : ℕ → β → γ) (i : ℕ) (l : List β) : List γ := l.mapIdx fun j x => f (i + j) x

@[simp] theorem length_mapFrom : (mapFrom f i l).length = l.length := List.length_mapIdx

@[simp] theorem mapFrom_nil : mapFrom f i [] = [] := rfl

theorem getElem?_mapFrom : (mapFrom f i l)[j]? = l[j]?.map (f (i + j)) := List.getElem?_mapIdx

theorem mapFrom_append : mapFrom f i (a ++ b) = mapFrom f i a ++ mapFrom f (i + a.length) b := by
  unfold mapFrom
  rw [List.mapIdx_append]
  congr 1
  refine List.mapIdx_eq_mapIdx_iff.mpr fun j hj => ?_
  rw [Nat.add_assoc, Nat.add_comm a.length j]

theorem mapFrom_cons (x : β) : mapFrom f i (x :: l) = f i x :: mapFrom f (i + 1) l := by
  rw [← List.singleton_append, mapFrom_append]
  rfl

/-- A slice of a mapped array is the map of the slice from its own address on. -/
theorem slice_mapFrom : slice (mapFrom f 0 l) i n = mapFrom f i (slice l i n) := by
  refine List.ext_getElem? fun j => ?_
  unfold slice
  rw [getElem?_mapFrom, List.getElem?_take, List.getElem?_take, List.getElem?_drop,
    List.getElem?_drop, getElem?_mapFrom, Nat.zero_add]
  split
  · rfl
  · rfl

theorem mapFrom_mapFrom {g : ℕ → γ → β} (h : ∀ k x, g k (f k x) = x) :
    mapFrom g i (mapFrom f i l) = l := by
  refine List.ext_getElem? fun j => ?_
  rw [getElem?_mapFrom, getElem?_mapFrom, Option.map_map]
  cases l[j]? with
  | none => rfl
  | some x => rw [Option.map_some, Function.comp_apply, h]

end BlockArray
