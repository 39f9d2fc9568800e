import Mathlib.Data.List.Basic

/-!
# Cursors over a list

A cursor over a list of `n` elements is a number up to `n + 1`: 0 stands before the first
element, `k + 1` on element `k`, and `n + 1` behind the last one.
-/

namespace SolidDB

variable {α : Type*}

inductive CursorCall where
  | next
  | prev
  | toBegin
  | toEnd

inductive CursorAnswer (α : Type*) where
  | row (a : α)
  | beforeFirst
  | afterLast
  | ready

/-- One call. Going to the beginning tells whether there is an element. -/
def listCursor (l : List α) (k : ℕ) : CursorCall → CursorAnswer α × ℕ
  | .next =>
    match l[k]? with
    | some a => (.row a, k + 1)
    | none => (.afterLast, l.length + 1)
  | .prev =>
    match k with
    | 0 => (.beforeFirst, 0)
    | 1 => (.beforeFirst, 0)
    | k + 2 =>
      match l[k]? with
      | some a => (.row a, k + 1)
      | none => (.beforeFirst, 0)
  | .toBegin => (if l = [] then .afterLast else .ready, 0)
  | .toEnd => (.afterLast, l.length + 1)

theorem listCursor_next_of_le {l : List α} {k : ℕ} (h : l.length ≤ k) :
    listCursor l k .next = (.afterLast, l.length + 1) := by
  rw [listCursor, List.getElem?_eq_none h]

theorem listCursor_next_mid (l : List α) (a : α) (l' : List α) :
    listCursor (l ++ a :: l') l.length .next = (.row a, l.length + 1) := by
  rw [listCursor, List.getElem?_append_right (Nat.le_refl _), Nat.sub_self]
  rfl

theorem listCursor_prev_nil (k : ℕ) : listCursor ([] : List α) k .prev = (.beforeFirst, 0) := by
  match k with
  | 0 => rfl
  | 1 => rfl
  | k + 2 => rfl

theorem listCursor_prev_mid (l : List α) (a : α) (l' : List α) :
    listCursor (l ++ a :: l') (l.length + 2) .prev = (.row a, l.length + 1) := by
  rw [listCursor, List.getElem?_append_right (Nat.le_refl _), Nat.sub_self]
  rfl

def listCursorRun (l : List α) : ℕ → List CursorCall → List (CursorAnswer α)
  | _, [] => []
  | k, call :: calls => (listCursor l k call).1 :: listCursorRun l (listCursor l k call).2 calls

/-- The calls for the next element that go to the end. -/
theorem listCursorRun_next (pre post : List α) :
    listCursorRun (pre ++ post) pre.length (List.replicate (post.length + 1) .next) =
      post.map .row ++ [.afterLast] := by
  induction post generalizing pre with
  | nil =>
      rw [List.length_nil, List.replicate_succ, listCursorRun, List.append_nil,
        listCursor_next_of_le (Nat.le_refl _)]
      rfl
  | cons a post ih =>
      have hrest := ih (pre ++ [a])
      rw [List.append_assoc, List.length_append, List.length_singleton] at hrest
      rw [List.length_cons, List.replicate_succ, listCursorRun, listCursor_next_mid]
      exact congrArg _ hrest

end SolidDB
