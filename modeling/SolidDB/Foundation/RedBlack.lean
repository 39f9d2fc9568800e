import Mathlib.Data.List.Basic
import Mathlib.Data.List.Nodup
import Mathlib.Tactic.Common

/-!
# Red-black trees

Binary trees with coloured nodes, the contexts of their subtrees and the red-black shape: a
black root, no red node with a red child and the same number of black nodes on all paths. The
shape is carried by a context for a subtree, so that it can be restored step by step. A step is
written once for both sides.
-/

namespace SolidDB

inductive Side where
  | left
  | right
  deriving DecidableEq

namespace Side

def other : Side → Side
  | left => right
  | right => left

@[simp] theorem other_other (d : Side) : d.other.other = d := by
  cases d with
  | left => rfl
  | right => rfl

theorem other_ne (d : Side) : d.other ≠ d := by
  cases d with
  | left => exact fun h => Side.noConfusion h
  | right => exact fun h => Side.noConfusion h

theorem eq_or_eq_other (d e : Side) : e = d ∨ e = d.other := by
  cases d with
  | left =>
      cases e with
      | left => exact Or.inl rfl
      | right => exact Or.inr rfl
  | right =>
      cases e with
      | left => exact Or.inr rfl
      | right => exact Or.inl rfl

end Side

inductive RbColor where
  | red
  | black
  deriving DecidableEq

theorem RbColor.ne_red_iff (c : RbColor) : c ≠ .red ↔ c = .black := by
  cases c with
  | red => exact iff_of_false (fun h => h rfl) (fun h => RbColor.noConfusion h)
  | black => exact iff_of_true (fun h => RbColor.noConfusion h) rfl

inductive RbTree (α : Type*) where
  | nil
  | node (c : RbColor) (l : RbTree α) (x : α) (r : RbTree α)

namespace RbTree

variable {α : Type*} {d : Side} {c c' : RbColor} {t u v : RbTree α} {x y : α} {n : ℕ}

/-- The node with the subtree `t` on the side `d` and `u` on the other side. -/
def branch (d : Side) (c : RbColor) (t : RbTree α) (x : α) (u : RbTree α) : RbTree α :=
  match d with
  | .left => node c t x u
  | .right => node c u x t

theorem branch_other (d : Side) (c : RbColor) (t : RbTree α) (x : α) (u : RbTree α) :
    branch d.other c t x u = branch d c u x t := by
  cases d with
  | left => rfl
  | right => rfl

theorem eq_branch (d : Side) (h : t ≠ nil) : ∃ c u x v, t = branch d c u x v := by
  cases t with
  | nil => exact absurd rfl h
  | node c l x r =>
      cases d with
      | left => exact ⟨c, l, x, r, rfl⟩
      | right => exact ⟨c, r, x, l, rfl⟩

theorem branch_ne_nil : branch d c t x u ≠ nil := by
  cases d with
  | left => exact fun h => nomatch h
  | right => exact fun h => nomatch h

def color : RbTree α → RbColor
  | nil => .black
  | node c _ _ _ => c

@[simp] theorem color_nil : (nil : RbTree α).color = .black := rfl

@[simp] theorem color_branch : (branch d c t x u).color = c := by
  cases d with
  | left => rfl
  | right => rfl

def paint (c : RbColor) : RbTree α → RbTree α
  | nil => nil
  | node _ l x r => node c l x r

@[simp] theorem paint_branch : (branch d c t x u).paint c' = branch d c' t x u := by
  cases d with
  | left => rfl
  | right => rfl

theorem paint_color (t : RbTree α) : t.paint t.color = t := by
  cases t with
  | nil => rfl
  | node c l x r => rfl

def toList : RbTree α → List α
  | nil => []
  | node _ l x r => l.toList ++ x :: r.toList

@[simp] theorem toList_nil : (nil : RbTree α).toList = [] := rfl

@[simp] theorem toList_paint : (t.paint c).toList = t.toList := by
  cases t with
  | nil => rfl
  | node c' l x r => rfl

theorem perm_branch (d : Side) (c : RbColor) (t : RbTree α) (x : α) (u : RbTree α) :
    (branch d c t x u).toList.Perm (x :: (t.toList ++ u.toList)) := by
  cases d with
  | left => exact List.perm_middle
  | right => exact List.perm_middle.trans (List.Perm.cons x List.perm_append_comm)

theorem mem_branch {a : α} : a ∈ (branch d c t x u).toList ↔
    a = x ∨ a ∈ t.toList ∨ a ∈ u.toList := by
  rw [(perm_branch d c t x u).mem_iff, List.mem_cons, List.mem_append]

theorem nodup_branch : (branch d c t x u).toList.Nodup ↔
    (x ∉ t.toList ∧ x ∉ u.toList) ∧ t.toList.Nodup ∧ u.toList.Nodup ∧
      t.toList.Disjoint u.toList := by
  rw [(perm_branch d c t x u).nodup_iff, List.nodup_cons, List.mem_append, not_or,
    List.nodup_append']

def around (d : Side) (l : List α) (x : α) (m : List α) : List α :=
  match d with
  | .left => l ++ x :: m
  | .right => m ++ x :: l

/-- The order of the labels does not depend on the colours. -/
theorem toList_branch (d : Side) (c : RbColor) (t : RbTree α) (x : α) (u : RbTree α) :
    (branch d c t x u).toList = around d t.toList x u.toList := by
  cases d with
  | left => rfl
  | right => rfl

theorem toList_rotate (d : Side) (c₁ c₂ c₃ c₄ : RbColor) (t : RbTree α) (x : α) (u : RbTree α)
    (y : α) (v : RbTree α) : (branch d c₁ t x (branch d c₂ u y v)).toList =
      (branch d c₃ (branch d c₄ t x u) y v).toList := by
  cases d with
  | left => simp [branch, toList]
  | right => simp [branch, toList]

/-! ## The shape -/

/-- All paths have `n` black nodes, and no red node has a red child. -/
def IsRb : RbTree α → ℕ → Prop
  | nil, n => n = 0
  | node .red l _ r, n => (l.color = .black ∧ r.color = .black) ∧ l.IsRb n ∧ r.IsRb n
  | node .black l _ r, n => ∃ m, n = m + 1 ∧ l.IsRb m ∧ r.IsRb m

theorem isRb_branch_red : (branch d .red t x u).IsRb n ↔
    (t.color = .black ∧ u.color = .black) ∧ t.IsRb n ∧ u.IsRb n := by
  cases d with
  | left => exact Iff.rfl
  | right => exact and_congr and_comm and_comm

theorem isRb_branch_black : (branch d .black t x u).IsRb (n + 1) ↔ t.IsRb n ∧ u.IsRb n := by
  have hnode (l r : RbTree α) : (node .black l x r).IsRb (n + 1) ↔ l.IsRb n ∧ r.IsRb n := by
    constructor
    · rintro ⟨m, hm, hl, hr⟩
      obtain rfl := Nat.succ.inj hm
      exact ⟨hl, hr⟩
    · exact fun h => ⟨n, rfl, h⟩
  cases d with
  | left => exact hnode t u
  | right => exact (hnode u t).trans and_comm

theorem isRb_branch_black_iff : (branch d .black t x u).IsRb n ↔
    ∃ m, n = m + 1 ∧ t.IsRb m ∧ u.IsRb m := by
  cases d with
  | left => exact Iff.rfl
  | right =>
      constructor
      · rintro ⟨m, hm, hu, ht⟩
        exact ⟨m, hm, ht, hu⟩
      · rintro ⟨m, hm, ht, hu⟩
        exact ⟨m, hm, hu, ht⟩

theorem ne_nil_of_isRb_succ (h : t.IsRb (n + 1)) : t ≠ nil := by
  rintro rfl
  exact Nat.succ_ne_zero n h

theorem isRb_paint_black (h : t.IsRb n) (hred : t.color = .red) :
    (t.paint .black).IsRb (n + 1) := by
  cases t with
  | nil => exact RbColor.noConfusion hred
  | node c l x r =>
      obtain rfl : c = .red := hred
      exact ⟨n, rfl, h.2⟩

def RedBlack (t : RbTree α) : Prop := t.color = .black ∧ ∃ n, t.IsRb n

/-! ## Contexts -/

/-- A node on the path to a subtree, with the subtree on the side `side`. -/
structure Frame (α : Type*) where
  side : Side
  color : RbColor
  x : α
  sibling : RbTree α

def Frame.fill (f : Frame α) (t : RbTree α) : RbTree α := branch f.side f.color t f.x f.sibling

/-- The whole tree, from the subtree and the nodes on the path to it, the parent first. -/
def plug : List (Frame α) → RbTree α → RbTree α
  | [], t => t
  | f :: k, t => plug k (f.fill t)

def before : List (Frame α) → List α
  | [] => []
  | f :: k =>
    match f.side with
    | .left => before k
    | .right => before k ++ (f.sibling.toList ++ [f.x])

def after : List (Frame α) → List α
  | [] => []
  | f :: k =>
    match f.side with
    | .left => f.x :: f.sibling.toList ++ after k
    | .right => after k

theorem toList_plug (k : List (Frame α)) (t : RbTree α) :
    (plug k t).toList = before k ++ t.toList ++ after k := by
  induction k generalizing t with
  | nil => simp [plug, before, after]
  | cons f k ih =>
      rw [plug, ih, Frame.fill, before, after]
      cases f.side with
      | left => simp [branch, toList]
      | right => simp [branch, toList]

def labels : List (Frame α) → List α
  | [] => []
  | f :: k => f.x :: (f.sibling.toList ++ labels k)

theorem perm_plug (k : List (Frame α)) (t : RbTree α) :
    (plug k t).toList.Perm (t.toList ++ labels k) := by
  induction k generalizing t with
  | nil => exact (List.append_nil _).symm ▸ List.Perm.refl _
  | cons f k ih =>
      refine (ih (f.fill t)).trans ?_
      refine ((perm_branch f.side f.color t f.x f.sibling).append_right _).trans ?_
      rw [labels, List.cons_append, List.append_assoc]
      exact List.perm_middle.symm

theorem length_le_labels (k : List (Frame α)) : k.length ≤ (labels k).length := by
  induction k with
  | nil => exact Nat.le_refl 0
  | cons f k ih =>
      rw [labels, List.length_cons, List.length_cons, List.length_append]
      exact Nat.succ_le_succ (Nat.le_trans ih (Nat.le_add_left _ _))

theorem nodup_plug (k : List (Frame α)) (t : RbTree α) : (plug k t).toList.Nodup ↔
    t.toList.Nodup ∧ (labels k).Nodup ∧ t.toList.Disjoint (labels k) := by
  rw [(perm_plug k t).nodup_iff, List.nodup_append']

theorem toList_plug_congr (h : t.toList = u.toList) (k : List (Frame α)) :
    (plug k t).toList = (plug k u).toList := by
  rw [toList_plug, toList_plug, h]

/-- The path accepts a red subtree: the parent is black. -/
def AcceptsRed : List (Frame α) → Prop
  | [] => False
  | f :: _ => f.color = .black

def CtxRb : List (Frame α) → ℕ → Prop
  | [], _ => True
  | ⟨_, .black, _, s⟩ :: k, n => s.IsRb n ∧ CtxRb k (n + 1)
  | ⟨_, .red, _, s⟩ :: k, n => (s.color = .black ∧ AcceptsRed k) ∧ s.IsRb n ∧ CtxRb k n

theorem redBlack_plug_iff (k : List (Frame α)) (t : RbTree α) : (plug k t).RedBlack ↔
    ∃ n, t.IsRb n ∧ CtxRb k n ∧ (t.color = .red → AcceptsRed k) := by
  induction k generalizing t with
  | nil =>
      constructor
      · rintro ⟨hblack, n, hrb⟩
        refine ⟨n, hrb, trivial, fun hred => ?_⟩
        rw [show t.color = .black from hblack] at hred
        exact RbColor.noConfusion hred
      · rintro ⟨n, hrb, -, hred⟩
        exact ⟨(RbColor.ne_red_iff _).mp hred, n, hrb⟩
  | cons f k ih =>
      obtain ⟨d, c, x, s⟩ := f
      rw [plug, ih, Frame.fill]
      cases c with
      | red =>
          simp only [isRb_branch_red, color_branch, CtxRb, AcceptsRed, forall_const]
          constructor
          · rintro ⟨n, ⟨⟨htb, hsb⟩, ht, hs⟩, hk, hacc⟩
            refine ⟨n, ht, ⟨⟨hsb, hacc⟩, hs, hk⟩, fun hred => ?_⟩
            rw [htb] at hred
            exact RbColor.noConfusion hred
          · rintro ⟨n, ht, ⟨⟨hsb, hacc⟩, hs, hk⟩, hred⟩
            refine ⟨n, ⟨⟨(RbColor.ne_red_iff _).mp fun h => ?_, hsb⟩, ht, hs⟩, hk, hacc⟩
            exact RbColor.noConfusion (hred h)
      | black =>
          simp only [isRb_branch_black_iff, color_branch, CtxRb, AcceptsRed]
          constructor
          · rintro ⟨_, ⟨m, rfl, ht, hs⟩, hk, -⟩
            exact ⟨m, ht, ⟨hs, hk⟩, fun _ => trivial⟩
          · rintro ⟨n, ht, ⟨hs, hk⟩, -⟩
            exact ⟨n + 1, ⟨n, rfl, ht, hs⟩, hk, fun h => RbColor.noConfusion h⟩

theorem ctxRb_relabel {k₁ k₂ : List (Frame α)} {s : RbTree α} (y : α) :
    CtxRb (k₁ ++ ⟨d, c, x, s⟩ :: k₂) n ↔ CtxRb (k₁ ++ ⟨d, c, y, s⟩ :: k₂) n := by
  induction k₁ generalizing n with
  | nil =>
      cases c with
      | red => exact Iff.rfl
      | black => exact Iff.rfl
  | cons f k₁ ih =>
      obtain ⟨d', c', z, u⟩ := f
      cases c' with
      | red =>
          have hacc : AcceptsRed (k₁ ++ ⟨d, c, x, s⟩ :: k₂) ↔
              AcceptsRed (k₁ ++ ⟨d, c, y, s⟩ :: k₂) := by
            cases k₁ with
            | nil => exact Iff.rfl
            | cons g k₁ => exact Iff.rfl
          exact and_congr (and_congr Iff.rfl hacc) (and_congr Iff.rfl ih)
      | black => exact and_congr Iff.rfl ih

end RbTree

end SolidDB
