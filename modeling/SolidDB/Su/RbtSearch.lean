import SolidDB.Su.RbtInsert

/-!
# Walks in the red-black tree

The nodes in the order of their keys are the labels of the tree from left to right. The walks
give the ends of this list, the neighbours of a node and the first node that a search key
reaches.
-/

namespace SolidDB

namespace RbTree

variable {α : Type*} {d : Side} {c : RbColor} {t u : RbTree α} {x : α} {k : List (Frame α)}

theorem branch_left : branch .left c t x u = node c t x u := rfl

theorem branch_right : branch .right c t x u = node c u x t := rfl

theorem sideInduction (d : Side) {motive : RbTree α → Prop} (nil : motive .nil)
    (branch : ∀ c t x u, motive t → motive u → motive (branch d c t x u)) (t : RbTree α) :
    motive t := by
  induction t with
  | nil => exact nil
  | node c l x r ihl ihr =>
      cases d with
      | left => exact branch c l x r ihl ihr
      | right => exact branch c r x l ihr ihl

def endOf (d : Side) (l : List α) : Option α :=
  match d with
  | .left => l.head?
  | .right => l.getLast?

theorem exists_endOf {l : List α} (h : l ≠ []) : ∃ a, endOf d l = some a := by
  cases d with
  | left => exact ⟨l.head h, List.head?_eq_some_head h⟩
  | right => exact ⟨l.getLast h, List.getLast?_eq_some_getLast h⟩

theorem endOf_nil : endOf d ([] : List α) = none := by
  cases d with
  | left => rfl
  | right => rfl

theorem endOf_around (l : List α) (x : α) (m : List α) :
    endOf d (around d l x m) = (endOf d l).or (some x) := by
  cases d with
  | left => exact List.head?_append
  | right =>
      rw [endOf, around, endOf, List.getLast?_append]
      cases l with
      | nil => rfl
      | cons a l => rw [List.getLast?_cons_cons, List.getLast?_cons, Option.some_or, Option.some_or]

def beyond (d : Side) (k : List (Frame α)) : Option α :=
  match d with
  | .left => (before k).getLast?
  | .right => (after k).head?

theorem beyond_nil : beyond d ([] : List (Frame α)) = none := by
  cases d with
  | left => rfl
  | right => rfl

theorem beyond_cons (f : Frame α) (k : List (Frame α)) :
    beyond d (f :: k) = if f.side = d then beyond d k else some f.x := by
  obtain ⟨e, c, x, u⟩ := f
  cases d with
  | left =>
      cases e with
      | left => rfl
      | right =>
          rw [if_neg fun h => Side.noConfusion h, beyond, before, ← List.append_assoc]
          exact List.getLast?_concat
  | right =>
      cases e with
      | left => rw [if_neg fun h => Side.noConfusion h, beyond, after, List.cons_append,
          List.head?_cons]
      | right => rfl

theorem exists_plug_of_mem {a : α} (ha : a ∈ t.toList) :
    ∃ k c l r, plug k (node c l a r) = t := by
  suffices h : ∀ k, ∃ k' c l r, plug k' (node c l a r) = plug k t from h []
  induction t with
  | nil => exact absurd ha List.not_mem_nil
  | node c l x r ihl ihr =>
      intro k
      rcases mem_branch (d := .left).mp ha with rfl | hl | hr
      · exact ⟨k, c, l, r, rfl⟩
      · exact ihl hl (⟨.left, c, x, r⟩ :: k)
      · exact ihr hr (⟨.right, c, x, l⟩ :: k)

theorem toList_plug_node (k : List (Frame α)) (c : RbColor) (l : RbTree α) (x : α)
    (r : RbTree α) : (plug k (node c l x r)).toList =
      (before k ++ l.toList) ++ x :: (r.toList ++ after k) := by
  rw [toList_plug, toList, List.append_assoc, List.append_assoc, List.append_assoc,
    List.cons_append]

end RbTree

namespace Rbt

open RbTree

variable {K : Type*} {s : Rbt K} {d : Side} {c : RbColor} {t u : RbTree ℕ}
  {k : List (Frame ℕ)} {x fuel : ℕ} {cmp : ℕ → ℤ}

/-! ## Neighbours -/

theorem length_toList_branch : (branch d c t x u).toList.length =
    t.toList.length + u.toList.length + 1 := by
  rw [(perm_branch d c t x u).length_eq, List.length_cons, List.length_append]

theorem toList_ne_nil (ht : t ≠ .nil) : t.toList ≠ [] :=
  List.ne_nil_of_mem (top_mem 0 ht)

theorem treeEnd_eq (h : Placed s k t) (ht : t ≠ .nil) (hfuel : t.toList.length ≤ fuel) :
    treeEnd d s fuel (top s.rbtNil t) = endOf d t.toList := by
  induction t using sideInduction d generalizing k fuel with
  | nil => exact absurd rfl ht
  | branch c t x u iht _ =>
      rw [length_toList_branch] at hfuel
      obtain ⟨fuel, rfl⟩ : ∃ m, fuel = m + 1 := ⟨fuel - 1, by omega⟩
      have hnear := h.node.near
      rw [treeEnd, top_branch, hnear, toList_branch, endOf_around]
      by_cases hnil : t = .nil
      · subst hnil
        rw [top_nil, if_neg (not_not.mpr rfl), toList_nil, endOf_nil, Option.none_or]
      · have hplaced := placed_branch.mp h
        obtain ⟨a, ha⟩ := exists_endOf (d := d) (toList_ne_nil hnil)
        rw [if_pos (hplaced.tree.top_ne hnil), iht hplaced hnil (by omega), ha, Option.some_or]

theorem climb_eq (h : Placed s k t) (ht : t ≠ .nil) (hfuel : k.length < fuel) :
    climb d s fuel (top s.rbtNil t) (parent s.rbtNil k) =
      some ((beyond d k).getD s.rbtNil) := by
  induction k generalizing t fuel with
  | nil =>
      obtain ⟨fuel, rfl⟩ : ∃ m, fuel = m + 1 := ⟨fuel - 1, by omega⟩
      rw [climb, if_neg fun hand => hand.1 rfl, beyond_nil]
      rfl
  | cons f k ih =>
      obtain ⟨fuel, rfl⟩ : ∃ m, fuel = m + 1 := ⟨fuel - 1, by omega⟩
      have hside := h.child_other_iff (d := d.other) (Or.inl ht)
      rw [Side.other_other] at hside
      have hnode := h.frame
      have hne : parent s.rbtNil (f :: k) ≠ s.rbtNil := hnode.ne_nil
      rw [climb, beyond_cons]
      by_cases hd : f.side = d
      · rw [if_pos ⟨hne, hside.mpr hd⟩, if_pos hd]
        have hup := ih (placed_cons.mp h) branch_ne_nil (Nat.lt_of_succ_lt_succ hfuel)
        rw [Frame.fill, top_branch] at hup
        rw [show parent s.rbtNil (f :: k) = f.x from rfl, hnode.parent]
        exact hup
      · rw [if_neg fun hand => hd (hside.mp hand.2), if_neg hd]
        rfl

theorem treeNext_eq (h : Placed s k (branch d c t x u)) (hfuel : t.toList.length ≤ fuel)
    (hclimb : k.length < fuel) : treeNext d s fuel x =
      some (((endOf d.other t.toList).or (beyond d k)).getD s.rbtNil) := by
  have hnode := h.node
  rw [treeNext, hnode.near]
  by_cases hnil : t = .nil
  · subst hnil
    have hup := climb_eq (d := d) h branch_ne_nil hclimb
    rw [top_branch] at hup
    rw [top_nil, if_neg (not_not.mpr rfl), hnode.parent, hup, toList_nil, endOf_nil,
      Option.none_or]
  · have hplaced := placed_branch.mp h
    obtain ⟨a, ha⟩ := exists_endOf (d := d.other) (toList_ne_nil hnil)
    rw [if_pos (hplaced.tree.top_ne hnil), treeEnd_eq hplaced hnil hfuel, ha, Option.some_or,
      Option.getD_some]

/-! ## Searches -/

/-- Both subtrees of a cut at a node: the one that the comparison does not lead to is beyond. -/
theorem Cut.far (h : Cut cmp (branch d c t x u).toList)
    (hx : cmp x = 0 ∨ sideOf (cmp x) = d) {a : ℕ} (ha : a ∈ u.toList) :
    cmp a ≠ 0 ∧ sideOf (cmp a) = d := by
  rw [Cut, toList_branch] at h
  cases d with
  | left =>
      have hle : cmp x ≤ 0 := by
        rcases hx with hx | hx
        · exact hx.le
        · by_contra hgt
          rw [sideOf, if_neg (not_lt.mpr (not_le.mp hgt).le)] at hx
          exact Side.noConfusion hx
      have hlt := (List.pairwise_cons.mp (List.pairwise_append.mp h).2.1).1 a ha hle
      exact ⟨hlt.ne, if_pos hlt⟩
  | right =>
      have hge : ¬ cmp x < 0 := by
        intro hlt
        rcases hx with hx | hx
        · exact hlt.ne hx
        · rw [sideOf, if_pos hlt] at hx
          exact Side.noConfusion hx
      have hgt : ¬ cmp a ≤ 0 := fun hle =>
        hge ((List.pairwise_append.mp h).2.2 a ha x List.mem_cons_self hle)
      exact ⟨(not_le.mp hgt).ne', if_neg (not_lt.mpr (not_le.mp hgt).le)⟩

theorem Cut.near (h : Cut cmp (branch d c t x u).toList) : Cut cmp t.toList := by
  rw [Cut, toList_branch] at h
  cases d with
  | left => exact (List.pairwise_append.mp h).1
  | right => exact (List.pairwise_cons.mp (List.pairwise_append.mp h).2.1).2

theorem Cut.find?_near (h : Cut cmp (branch d c t x u).toList) (hx : cmp x ≠ 0)
    (hside : sideOf (cmp x) = d) : (branch d c t x u).toList.find? (fun a => decide (cmp a = 0)) =
      t.toList.find? fun a => decide (cmp a = 0) := by
  have hfar : u.toList.find? (fun a => decide (cmp a = 0)) = none :=
    List.find?_eq_none.mpr fun a ha => by
      rw [decide_eq_true_iff]
      exact (h.far (Or.inr hside) ha).1
  have hnode : ([x] : List ℕ).find? (fun a => decide (cmp a = 0)) = none := by
    rw [List.find?_singleton, decide_eq_false hx]
    rfl
  rw [toList_branch]
  cases d with
  | left => rw [around, List.append_cons, List.find?_append, List.find?_append, hfar, hnode,
      Option.or_none, Option.or_none]
  | right => rw [around, List.append_cons, List.find?_append, List.find?_append, hfar, hnode,
      Option.none_or, Option.none_or]

theorem Cut.find?_node (h : Cut cmp (branch d c t x u).toList) (hx : cmp x = 0) :
    (branch d c t x u).toList.find? (fun a => decide (cmp a = 0)) = some x := by
  have hsplit : ∃ l m, (branch d c t x u).toList = l ++ x :: m := by
    rw [toList_branch]
    cases d with
    | left => exact ⟨_, _, rfl⟩
    | right => exact ⟨_, _, rfl⟩
  obtain ⟨l, m, hlist⟩ := hsplit
  rw [hlist] at h ⊢
  have hl : l.find? (fun a => decide (cmp a = 0)) = none :=
    List.find?_eq_none.mpr fun a ha => by
      rw [decide_eq_true_iff]
      intro hzero
      exact absurd ((List.pairwise_append.mp h).2.2 a ha x List.mem_cons_self hzero.le)
        (not_lt.mpr hx.ge)
  rw [List.find?_append, hl, Option.none_or, List.find?_cons, decide_eq_true hx]

theorem iterativeTreeSearch_eq {cmp : K → ℤ} (h : Placed s k t)
    (hcut : Cut (cmp ∘ s.rnKey) t.toList) (hfuel : t.toList.length < fuel) :
    iterativeTreeSearch cmp s fuel (top s.rbtNil t) =
      some ((t.toList.find? fun a => decide ((cmp ∘ s.rnKey) a = 0)).getD s.rbtNil) := by
  induction t generalizing k fuel with
  | nil =>
      obtain ⟨fuel, rfl⟩ : ∃ m, fuel = m + 1 := ⟨fuel - 1, by omega⟩
      rw [iterativeTreeSearch, top_nil, if_neg fun hand => hand.1 rfl]
      rfl
  | node c l x r ihl ihr =>
      obtain ⟨fuel, rfl⟩ : ∃ m, fuel = m + 1 := ⟨fuel - 1, by omega⟩
      obtain ⟨hne, hl, hr⟩ := h.node_reads
      rw [length_toList_node] at hfuel
      rw [iterativeTreeSearch, show top s.rbtNil (.node c l x r) = x from rfl]
      by_cases hzero : cmp (s.rnKey x) = 0
      · have hfind := Cut.find?_node (d := .left) hcut hzero
        rw [branch_left] at hfind
        rw [if_neg fun hand => hand.2 hzero, hfind]
        rfl
      · rw [if_pos ⟨hne, hzero⟩]
        cases hside : sideOf (cmp (s.rnKey x)) with
        | left =>
            have hfind := Cut.find?_near (d := .left) hcut hzero hside
            rw [branch_left] at hfind
            rw [hl, ihl (placed_branch (d := .left).mp h) (Cut.near (d := .left) hcut) (by omega),
              hfind]
        | right =>
            have hfind := Cut.find?_near (d := .right) hcut hzero hside
            rw [branch_right] at hfind
            rw [hr, ihr (placed_branch (d := .right).mp h) (Cut.near (d := .right) hcut)
              (by omega), hfind]

/-- A search to a side may end at a node with this comparison. -/
def Reaches (d : Side) (z : ℤ) : Prop := z = 0 ∨ sideOf z = d.other

instance : Decidable (Reaches d z) := inferInstanceAs (Decidable (_ ∨ _))

/-- The first label from the other side that the search reaches. -/
def nearest (d : Side) (cmp : ℕ → ℤ) (l : List ℕ) : Option ℕ :=
  match d with
  | .left => l.reverse.find? fun a => decide (Reaches .left (cmp a))
  | .right => l.find? fun a => decide (Reaches .right (cmp a))

theorem nearest_around (l : List ℕ) (x : ℕ) (m : List ℕ) :
    nearest d cmp (around d l x m) = (nearest d cmp m).or
      (if Reaches d (cmp x) then some x else nearest d cmp l) := by
  cases d with
  | left =>
      rw [nearest, around, List.reverse_append, List.reverse_cons, List.append_assoc,
        List.find?_append, List.singleton_append, List.find?_cons]
      by_cases hx : Reaches .left (cmp x)
      · rw [decide_eq_true hx, if_pos hx]
        rfl
      · rw [decide_eq_false hx, if_neg hx]
        rfl
  | right =>
      rw [nearest, around, List.find?_append, List.find?_cons]
      by_cases hx : Reaches .right (cmp x)
      · rw [decide_eq_true hx, if_pos hx]
        rfl
      · rw [decide_eq_false hx, if_neg hx]
        rfl

theorem nearest_eq_none {l : List ℕ} (h : ∀ a ∈ l, ¬ Reaches d (cmp a)) :
    nearest d cmp l = none := by
  cases d with
  | left =>
      refine List.find?_eq_none.mpr fun a ha => ?_
      rw [decide_eq_true_iff]
      exact h a (List.mem_reverse.mp ha)
  | right =>
      refine List.find?_eq_none.mpr fun a ha => ?_
      rw [decide_eq_true_iff]
      exact h a ha

theorem Cut.nearest_far (h : Cut cmp (branch d c t x u).toList)
    (hx : cmp x = 0 ∨ sideOf (cmp x) = d) : nearest d cmp u.toList = none := by
  refine nearest_eq_none fun a ha hreach => ?_
  obtain ⟨hne, hside⟩ := h.far hx ha
  rcases hreach with hzero | hother
  · exact hne hzero
  · exact d.other_ne (hother.symm.trans hside)

theorem iterativeTreeSearchNear_step {cmp : K → ℤ} {e : Side} (h : Placed s k (branch e c t x u))
    (hcut : Cut (cmp ∘ s.rnKey) (branch e c t x u).toList) (hzero : cmp (s.rnKey x) ≠ 0)
    (hside : sideOf (cmp (s.rnKey x)) = e) (hfuel : t.toList.length + k.length < fuel)
    (ih : t ≠ .nil → iterativeTreeSearchNear d cmp s fuel (top s.rbtNil t) =
      some (((nearest d (cmp ∘ s.rnKey) t.toList).or
        (beyond d (⟨e, c, x, u⟩ :: k))).getD s.rbtNil)) :
    iterativeTreeSearchNear d cmp s (fuel + 1) x =
      some (((nearest d (cmp ∘ s.rnKey) (branch e c t x u).toList).or
        (beyond d k)).getD s.rbtNil) := by
  have hnode := h.node
  have hfar := Cut.nearest_far (d := e) hcut (Or.inr hside)
  rw [iterativeTreeSearchNear, if_pos ⟨hnode.ne_nil, hzero⟩, hside, hnode.near]
  dsimp only
  rcases Side.eq_or_eq_other d e with rfl | rfl
  · -- the node and the other subtree are not reached
    have hnot : ¬ Reaches e ((cmp ∘ s.rnKey) x) := by
      rintro (heq | hother)
      · exact hzero heq
      · exact e.other_ne (hother.symm.trans hside)
    rw [toList_branch, nearest_around, hfar, Option.none_or, if_neg hnot]
    by_cases hnil : t = .nil
    · subst hnil
      have hnone : nearest e (cmp ∘ s.rnKey) [] = none :=
        nearest_eq_none fun a ha => absurd ha List.not_mem_nil
      have hnext := treeNext_eq h (Nat.zero_le _) (show _ < fuel by omega)
      rw [toList_nil, endOf_nil] at hnext
      rw [top_nil, if_pos rfl, if_pos rfl, hnext, toList_nil, hnone]
    · have hplaced := placed_branch.mp h
      rw [if_neg (hplaced.tree.top_ne hnil), ih hnil, beyond_cons, if_pos rfl]
  · have hyes : Reaches d ((cmp ∘ s.rnKey) x) := Or.inr hside
    rw [branch_other, toList_branch, nearest_around, if_pos hyes, Option.or_assoc,
      Option.some_or]
    by_cases hnil : t = .nil
    · subst hnil
      have hnone : nearest d (cmp ∘ s.rnKey) [] = none :=
        nearest_eq_none fun a ha => absurd ha List.not_mem_nil
      rw [top_nil, if_pos rfl, if_neg d.other_ne, toList_nil, hnone]
      rfl
    · have hplaced := placed_branch.mp h
      rw [if_neg (hplaced.tree.top_ne hnil), ih hnil, beyond_cons, if_neg d.other_ne]

/-- `iterative_tree_search_atleast` and `iterative_tree_search_atmost` in a subtree. -/
theorem iterativeTreeSearchNear_eq {cmp : K → ℤ} (h : Placed s k t) (ht : t ≠ .nil)
    (hcut : Cut (cmp ∘ s.rnKey) t.toList) (hfuel : 2 * t.toList.length + k.length < fuel) :
    iterativeTreeSearchNear d cmp s fuel (top s.rbtNil t) =
      some (((nearest d (cmp ∘ s.rnKey) t.toList).or (beyond d k)).getD s.rbtNil) := by
  induction t generalizing k fuel with
  | nil => exact absurd rfl ht
  | node c l x r ihl ihr =>
      obtain ⟨fuel, rfl⟩ : ∃ m, fuel = m + 1 := ⟨fuel - 1, by omega⟩
      rw [length_toList_node] at hfuel
      by_cases hzero : cmp (s.rnKey x) = 0
      · have hnear : nearest d (cmp ∘ s.rnKey) (RbTree.node c l x r).toList = some x := by
          obtain ⟨c', t, x', u, heq⟩ := eq_branch d (t := .node c l x r) ht
          obtain rfl : x = x' := by
            have htop := congrArg (top 0) heq
            rwa [top_branch] at htop
          have hreach : Reaches d ((cmp ∘ s.rnKey) x) := Or.inl hzero
          rw [heq] at hcut ⊢
          rw [toList_branch, nearest_around, Cut.nearest_far hcut (Or.inl hzero), Option.none_or,
            if_pos hreach]
        rw [iterativeTreeSearchNear, show top s.rbtNil (.node c l x r) = x from rfl,
          if_neg fun hand => hand.2 hzero, hnear]
        rfl
      · cases hside : sideOf (cmp (s.rnKey x)) with
        | left =>
            refine iterativeTreeSearchNear_step (e := .left) h hcut hzero hside (by omega)
              fun hnil => ihl (placed_branch (d := .left).mp h) hnil
                (Cut.near (d := .left) hcut) ?_
            rw [List.length_cons]
            omega
        | right =>
            refine iterativeTreeSearchNear_step (e := .right) h hcut hzero hside (by omega)
              fun hnil => ihr (placed_branch (d := .right).mp h) hnil
                (Cut.near (d := .right) hcut) ?_
            rw [List.length_cons]
            omega

/-! ## Functions of the interface -/

section Interface

variable {S : Type*} {icompare : K → K → ℤ} {scompare : S → K → ℤ}

def SearchCompare (icompare : K → K → ℤ) (scompare : S → K → ℤ) : Prop :=
  ∀ key a b, icompare a b < 0 → scompare key a ≤ 0 → scompare key b < 0

theorem IsTree.searchCut (h : IsTree icompare s t) (hs : SearchCompare icompare scompare)
    (key : S) : Cut (scompare key ∘ s.rnKey) t.toList :=
  h.ordered.imp fun hab => hs key _ _ hab

theorem IsTree.root_eq (h : IsTree icompare s t) : s.rbtRoot = top s.rbtNil t := h.placed.ctx

theorem IsTree.ne_nil (h : IsTree icompare s t) {a : ℕ} (ha : a ∈ t.toList) : a ≠ s.rbtNil :=
  h.placed.tree.ne_nil ha

theorem notNil_getD {r : Option ℕ} (h : ∀ a, r = some a → a ≠ s.rbtNil) :
    s.notNil (r.getD s.rbtNil) = r := by
  cases r with
  | none => exact if_pos rfl
  | some a => exact if_neg (h a rfl)

theorem IsTree.suRbtSearch_eq (h : IsTree icompare s t) (hs : SearchCompare icompare scompare)
    (key : S) (hfuel : t.toList.length < fuel) : s.suRbtSearch scompare fuel key =
      some (t.toList.find? fun a => decide (scompare key (s.rnKey a) = 0)) := by
  rw [suRbtSearch, h.root_eq, iterativeTreeSearch_eq h.placed (h.searchCut hs key) hfuel]
  exact congrArg some (notNil_getD fun a ha => h.ne_nil (List.mem_of_find?_eq_some ha))

theorem mem_of_nearest {l : List ℕ} {a : ℕ} (h : nearest d cmp l = some a) : a ∈ l := by
  cases d with
  | left => exact List.mem_reverse.mp (List.mem_of_find?_eq_some h)
  | right => exact List.mem_of_find?_eq_some h

theorem IsTree.searchNear_eq (h : IsTree icompare s t) (hs : SearchCompare icompare scompare)
    (key : S) (hfuel : 2 * t.toList.length < fuel) :
    (s.iterativeTreeSearchNear d (scompare key) fuel s.rbtRoot).map s.notNil =
      some (nearest d (scompare key ∘ s.rnKey) t.toList) := by
  have hnil (a : ℕ) (ha : nearest d (scompare key ∘ s.rnKey) t.toList = some a) : a ≠ s.rbtNil :=
    h.ne_nil (mem_of_nearest ha)
  rw [h.root_eq]
  by_cases ht : t = .nil
  · subst ht
    obtain ⟨fuel, rfl⟩ : ∃ m, fuel = m + 1 := ⟨fuel - 1, by omega⟩
    have hnone : nearest d (scompare key ∘ s.rnKey) [] = none :=
      nearest_eq_none fun a ha => absurd ha List.not_mem_nil
    rw [top_nil, iterativeTreeSearchNear, if_neg fun hand => hand.1 rfl, toList_nil, hnone]
    exact congrArg some (if_pos rfl)
  · rw [iterativeTreeSearchNear_eq h.placed ht (h.searchCut hs key) hfuel, beyond_nil,
      Option.or_none]
    exact congrArg some (notNil_getD hnil)

theorem IsTree.suRbtMin_eq (h : IsTree icompare s t) (hfuel : t.toList.length ≤ fuel) :
    s.suRbtMin fuel = some t.toList.head? := by
  rw [suRbtMin, h.root_eq]
  by_cases ht : t = .nil
  · subst ht
    exact if_pos rfl
  · have hend := treeEnd_eq (d := .left) h.placed ht hfuel
    obtain ⟨a, ha⟩ := exists_endOf (d := .left) (toList_ne_nil ht)
    rw [if_neg (h.placed.tree.top_ne ht), treeMinimum, hend, ha,
      show t.toList.head? = some a from ha]
    rfl

theorem IsTree.suRbtMax_eq (h : IsTree icompare s t) (hfuel : t.toList.length ≤ fuel) :
    s.suRbtMax fuel = some t.toList.getLast? := by
  rw [suRbtMax, h.root_eq]
  by_cases ht : t = .nil
  · subst ht
    exact if_pos rfl
  · have hend := treeEnd_eq (d := .right) h.placed ht hfuel
    obtain ⟨a, ha⟩ := exists_endOf (d := .right) (toList_ne_nil ht)
    rw [if_neg (h.placed.tree.top_ne ht), treeMaximum, hend, ha,
      show t.toList.getLast? = some a from ha]
    rfl

theorem IsTree.neighbours (h : IsTree icompare s t) (hx : x ∈ t.toList)
    (hfuel : t.toList.length < fuel) : ∃ l₁ l₂, t.toList = l₁ ++ x :: l₂ ∧
      s.suRbtSucc fuel x = some l₂.head? ∧ s.suRbtPred fuel x = some l₁.getLast? := by
  obtain ⟨k, c, l, r, rfl⟩ := exists_plug_of_mem hx
  have hplaced := placed_plug.mpr h.placed
  have hlist := toList_plug_node k c l x r
  have hmem {a : ℕ} (ha : a ∈ before k ++ l.toList ∨ a ∈ r.toList ++ after k) :
      a ≠ s.rbtNil := by
    refine h.ne_nil ?_
    rw [hlist, List.mem_append, List.mem_cons]
    exact ha.imp_right Or.inr
  have hlength := (perm_plug k (.node c l x r)).length_eq
  rw [List.length_append, length_toList_node] at hlength
  have hk := length_le_labels k
  refine ⟨_, _, hlist, ?_, ?_⟩
  · have hnext := treeNext_eq (d := .right) (t := r) (u := l) hplaced
      (show _ ≤ fuel by omega) (by omega)
    have heq : (endOf Side.right.other r.toList).or (beyond .right k) =
        (r.toList ++ after k).head? := List.head?_append.symm
    rw [heq] at hnext
    rw [suRbtSucc, treeSuccessor, hnext]
    exact congrArg some (notNil_getD fun a ha => hmem (Or.inr (List.mem_of_head? ha)))
  · have hnext := treeNext_eq (d := .left) (t := l) (u := r) hplaced
      (show _ ≤ fuel by omega) (by omega)
    have heq : (endOf Side.left.other l.toList).or (beyond .left k) =
        (before k ++ l.toList).getLast? := List.getLast?_append.symm
    rw [heq] at hnext
    rw [suRbtPred, treePredecessor, hnext]
    exact congrArg some (notNil_getD fun a ha => hmem (Or.inl (List.mem_of_getLast? ha)))

end Interface

end Rbt

end SolidDB
