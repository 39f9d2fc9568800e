import SolidDB.Su.RbtFixup
import SolidDB.Su.RbtSearch

/-!
# Deletion from the red-black tree

`rb_delete` takes out a node with at most one child. When the node to delete has two children,
its successor is taken out and comes in its place.
-/

namespace SolidDB

namespace RbTree

variable {α : Type*} {t : RbTree α} {k₁ k₂ : List (Frame α)}

theorem plug_append (k₁ k₂ : List (Frame α)) (t : RbTree α) :
    plug (k₁ ++ k₂) t = plug k₂ (plug k₁ t) := by
  induction k₁ generalizing t with
  | nil => rfl
  | cons f k₁ ih => exact ih (f.fill t)

theorem before_append (k₁ k₂ : List (Frame α)) :
    before (k₁ ++ k₂) = before k₂ ++ before k₁ := by
  induction k₁ with
  | nil => exact (List.append_nil _).symm
  | cons f k₁ ih =>
      rw [List.cons_append, before, before, ih]
      cases f.side with
      | left => rfl
      | right => exact List.append_assoc _ _ _

theorem after_append (k₁ k₂ : List (Frame α)) :
    after (k₁ ++ k₂) = after k₁ ++ after k₂ := by
  induction k₁ with
  | nil => rfl
  | cons f k₁ ih =>
      rw [List.cons_append, after, after, ih]
      cases f.side with
      | left => exact (List.append_assoc _ _ _).symm
      | right => rfl

theorem exists_leftmost (ht : t ≠ .nil) (hnodup : t.toList.Nodup) :
    ∃ k c y r, plug k (node c .nil y r) = t ∧ before k = [] := by
  have hne : t.toList ≠ [] := by
    cases t with
    | nil => exact absurd rfl ht
    | node c l x r => exact List.append_ne_nil_of_right_ne_nil _ (List.cons_ne_nil _ _)
  obtain ⟨k, c, l, r, hplug⟩ := exists_plug_of_mem (List.head_mem hne)
  have hlist := toList_plug_node k c l (t.toList.head hne) r
  rw [hplug] at hlist
  obtain ⟨y, hy⟩ : ∃ y, t.toList.head hne = y := ⟨_, rfl⟩
  have hhead : t.toList.head? = some y := by rw [List.head?_eq_some_head hne, hy]
  rw [hy] at hplug hlist
  have hempty : before k ++ l.toList = [] := by
    cases hb : before k ++ l.toList with
    | nil => rfl
    | cons a m =>
        -- the leftmost label would occur twice
        rw [hb] at hlist
        rw [hlist] at hhead hnodup
        obtain rfl : a = y := Option.some.inj hhead
        exact absurd (List.mem_append_right _ List.mem_cons_self) (List.nodup_cons.mp hnodup).1
  obtain ⟨hb, hl⟩ := List.append_eq_nil_iff.mp hempty
  obtain rfl : l = .nil := by
    cases l with
    | nil => rfl
    | node c' l' x r' =>
        exact absurd hl (List.append_ne_nil_of_right_ne_nil _ (List.cons_ne_nil _ _))
  exact ⟨k, c, y, r, hplug, hb⟩

end RbTree

namespace Rbt

open RbTree

variable {K : Type*} {s s' : Rbt K} {d e : Side} {c : RbColor} {t u : RbTree ℕ}
  {k k₁ k₂ : List (Frame ℕ)} {x y z a n fuel : ℕ}

theorem placed_append : Placed s (k₁ ++ k₂) t ↔ Placed s k₂ (plug k₁ t) := by
  induction k₁ generalizing t with
  | nil => exact Iff.rfl
  | cons f k₁ ih => exact placed_cons.trans ih

/-! ## A node with at most one child -/

@[simp] theorem spliceOut_rnColor : (s.spliceOut y x).rnColor = s.rnColor := by
  simp only [spliceOut, replaceChild_rnColor, setP_rnColor]

@[simp] theorem spliceOut_rbtNil : (s.spliceOut y x).rbtNil = s.rbtNil := by
  simp only [spliceOut, replaceChild_rbtNil, setP_rbtNil]

theorem sameRest_spliceOut (s : Rbt K) (y x : ℕ) : SameRest s (s.spliceOut y x) := by
  unfold spliceOut replaceChild
  dsimp only
  split_ifs <;> exact ⟨rfl, rfl, rfl⟩

theorem Placed.exists_side (h : Placed s k t) (ht : t ≠ .nil) : ∃ e,
    (parent s.rbtNil k ≠ s.rbtNil → s.rnChild e (parent s.rbtNil k) = top s.rbtNil t) ∧
    (parent s.rbtNil k ≠ s.rbtNil → s.rnChild e.other (parent s.rbtNil k) ≠ top s.rbtNil t) ∧
    ∀ f ∈ k.head?, f.side = e := by
  cases k with
  | nil => exact ⟨.left, fun hp => absurd rfl hp, fun hp => absurd rfl hp, fun f hf => nomatch hf⟩
  | cons f k =>
      refine ⟨f.side, fun _ => h.frame.near, fun _ heq => ?_, fun g hg => ?_⟩
      · exact h.top_ne_sibling (Or.inl ht) (heq.symm.trans h.frame.far)
      · rw [Option.some.inj hg]

/-- A node of the tree is not the root of a subtree apart from it, also when the subtree is
empty. -/
theorem Placed.ne_top (h : Placed s k t) (ha : a ∈ labels k) : a ≠ top s.rbtNil t := by
  by_cases ht : t = .nil
  · rw [ht, top_nil]
    exact (placed_plug.mp h).tree.ne_nil ((perm_plug k t).mem_iff.mpr (List.mem_append_right _ ha))
  · exact (ne_of_disjoint ((nodup_plug _ _).mp h.nodup).2.2 (top_mem s.rbtNil ht) ha).symm

/-- The child comes in the place of the node, with the parent of the node. -/
theorem Placed.spliceOut (h : Placed s k (branch d c t y .nil)) :
    Placed (s.spliceOut y (top s.rbtNil t)) k t ∧
      (s.spliceOut y (top s.rbtNil t)).rnP (top s.rbtNil t) = parent s.rbtNil k := by
  obtain ⟨hnode, ht, -⟩ := linked_branch.mp h.tree
  obtain ⟨hnodup, hlabels, hdisj⟩ := (nodup_plug _ _).mp h.nodup
  obtain ⟨-, hnt, -, -⟩ := nodup_branch.mp hnodup
  obtain ⟨e, hnear, hfar, hside⟩ := h.exists_side branch_ne_nil
  rw [top_branch] at hnear hfar
  have hmem {a : ℕ} (ha : a ∈ t.toList) : a ∈ (branch d c t y .nil).toList :=
    mem_branch.mpr (Or.inr (Or.inl ha))
  have hnil : (s.spliceOut y (top s.rbtNil t)).rbtNil = s.rbtNil := spliceOut_rbtNil
  have hP (a : ℕ) : (s.spliceOut y (top s.rbtNil t)).rnP a =
      if a = top s.rbtNil t then parent s.rbtNil k else s.rnP a := by
    rw [Rbt.spliceOut, replaceChild_rnP, setP_rnP, hnode.parent]
  have hyP : (s.setP (top s.rbtNil t) (s.rnP y)).rnP y = parent s.rbtNil k := by
    rw [setP_rnP, hnode.parent]
    exact ite_self _
  have hroot : (s.spliceOut y (top s.rbtNil t)).rbtRoot =
      if parent s.rbtNil k = s.rbtNil then top s.rbtNil t else s.rbtRoot := by
    rw [Rbt.spliceOut, hyP]
    exact replaceChild_rbtRoot
  have hchild {e' : Side} (a : ℕ) : (s.spliceOut y (top s.rbtNil t)).rnChild e' a =
      if parent s.rbtNil k ≠ s.rbtNil ∧ e' = e ∧ a = parent s.rbtNil k then top s.rbtNil t
      else s.rnChild e' a := by
    rw [Rbt.spliceOut, hyP]
    exact replaceChild_rnChild (s := s.setP (top s.rbtNil t) (s.rnP y)) hnear hfar
  have hsub {a : ℕ} (ha : a ∈ t.toList) : a ≠ parent s.rbtNil k := h.parent_not_mem (hmem ha)
  refine ⟨⟨?_, ?_, ?_, fun e' => ?_, ?_⟩, ?_⟩
  · rw [hnil]
    refine ht.reparent hnil hnt (fun _ => ?_) (fun a ha htop => ?_) (fun a _ => ?_)
      (fun a ha e' => ?_)
    · rw [hP, if_pos rfl]
    · rw [hP, if_neg htop]
    · rw [spliceOut_rnColor]
    · rw [hchild, if_neg fun hand => hsub ha hand.2.2]
  · rw [hnil]
    have hctx := h.ctx
    rw [top_branch] at hctx
    have hview : Placed s (⟨d, c, y, .nil⟩ :: k) t := placed_branch.mp h
    refine hctx.rehole hnil hlabels hroot (fun a ha => ?_) (fun a _ => ?_) (fun f hf => ?_)
      (fun a ha hap e' => ?_)
    · rw [hP, if_neg (hview.ne_top (List.mem_cons_of_mem _ ha))]
    · rw [spliceOut_rnColor]
    · have hfe := hside f hf
      cases k with
      | nil => exact nomatch hf
      | cons g k =>
          obtain rfl : g = f := Option.some.inj hf
          have hne : parent s.rbtNil (g :: k) ≠ s.rbtNil := h.frame.ne_nil
          constructor
          · rw [hchild, if_pos ⟨hne, hfe, rfl⟩]
          · rw [hchild, if_neg fun hand => g.side.other_ne (hand.2.1.trans hfe.symm)]
    · rw [hchild, if_neg fun hand => hap hand.2.2]
  · exact (nodup_plug _ _).mpr ⟨hnt, hlabels, fun a ha hin => hdisj (hmem ha) hin⟩
  · rw [hnil, hchild, if_neg fun hand => hand.1 hand.2.2.symm]
    exact h.nilChild e'
  · rw [hnil, spliceOut_rnColor]
    exact h.nilColor
  · rw [hP, if_pos rfl]

/-! ## A node in the place of another one -/

def passChild (d : Side) (z y : ℕ) (s : Rbt K) : Rbt K :=
  if s.rnChild d (s.rnP z) = z then s.setChild d (s.rnP z) y else s

def passParent (d : Side) (z y : ℕ) (s : Rbt K) : Rbt K :=
  if s.rnP (s.rnChild d z) = z then s.setP (s.rnChild d z) y else s

/-- The fields of `z` other than the key. -/
def copyNode (z y : ℕ) (s : Rbt K) : Rbt K :=
  let s := s.setChild .left y (s.rnChild .left z)
  let s := s.setChild .right y (s.rnChild .right z)
  let s := s.setP y (s.rnP z)
  let s := s.setColor y (s.rnColor z)
  if s.rbtRoot = z then s.setRoot y else s

theorem replaceNode_eq (z y : ℕ) (s : Rbt K) : s.replaceNode z y =
    ((((s.passChild .left z y).passChild .right z y).passParent .left z y).passParent .right z
      y).copyNode z y := rfl

section Pass

theorem passChild_of_eq (h : s.rnChild d (s.rnP z) = z) :
    s.passChild d z y = s.setChild d (s.rnP z) y := if_pos h

theorem passChild_of_ne (h : s.rnChild d (s.rnP z) ≠ z) : s.passChild d z y = s := if_neg h

theorem passChild_both (hside : ∀ d, s.rnChild d (s.rnP z) = z ↔ s.rnP z ≠ s.rbtNil ∧ d = e) :
    (s.passChild .left z y).passChild .right z y =
      if s.rnP z ≠ s.rbtNil then s.setChild e (s.rnP z) y else s := by
  by_cases hp : s.rnP z = s.rbtNil
  · have hne (d : Side) : s.rnChild d (s.rnP z) ≠ z := fun heq => ((hside d).mp heq).1 hp
    rw [passChild_of_ne (hne .left), passChild_of_ne (hne .right), if_neg (not_not.mpr hp)]
  · rw [if_pos hp]
    cases e with
    | left =>
        rw [passChild_of_eq ((hside .left).mpr ⟨hp, rfl⟩)]
        refine passChild_of_ne fun heq => ?_
        rw [setChild_rnP, setChild_rnChild, if_neg fun hand => Side.noConfusion hand.1] at heq
        exact Side.noConfusion ((hside .right).mp heq).2
    | right =>
        rw [passChild_of_ne fun heq => Side.noConfusion ((hside .left).mp heq).2]
        exact passChild_of_eq ((hside .right).mpr ⟨hp, rfl⟩)

end Pass

structure ReplaceAt (s : Rbt K) (e : Side) (z y l r p : ℕ) : Prop where
  left : s.rnChild .left z = l
  right : s.rnChild .right z = r
  parent : s.rnP z = p
  leftP : s.rnP l = z
  rightP : s.rnP r = z
  side : ∀ d, s.rnChild d p = z ↔ p ≠ s.rbtNil ∧ d = e
  parent_ne : z ≠ p
  left_ne : z ≠ l
  right_ne : z ≠ r
  ne : r ≠ l
  new : y ≠ z
  root : s.rbtRoot = z ↔ p = s.rbtNil

theorem ReplaceAt.replaceNode_eq {l r p : ℕ} (h : ReplaceAt s e z y l r p) : s.replaceNode z y =
    (((if p ≠ s.rbtNil then s.setChild e p y else s).setP l y).setP r y).copyNode z y := by
  have hboth : (s.passChild .left z y).passChild .right z y =
      if p ≠ s.rbtNil then s.setChild e p y else s := by
    rw [passChild_both (e := e) (by rw [h.parent]; exact h.side), h.parent]
  have hchild (d : Side) :
      (if p ≠ s.rbtNil then s.setChild e p y else s).rnChild d z = s.rnChild d z := by
    split_ifs with hp
    · rw [setChild_rnChild, if_neg fun hand => h.parent_ne hand.2]
    · rfl
  have hP : (if p ≠ s.rbtNil then s.setChild e p y else s).rnP = s.rnP := by
    split_ifs <;> rfl
  rw [Rbt.replaceNode_eq, hboth]
  congr 1
  generalize (if p ≠ s.rbtNil then s.setChild e p y else s) = s₁ at hchild hP
  have hleft : s₁.passParent .left z y = s₁.setP l y := by
    rw [passParent, hchild, h.left, hP, if_pos h.leftP]
  have hright : (s₁.setP l y).passParent .right z y = (s₁.setP l y).setP r y := by
    rw [passParent, setP_rnChild, hchild, h.right, setP_rnP, if_neg h.ne, hP, if_pos h.rightP]
  rw [hleft, hright]

theorem ReplaceAt.rnP {l r p : ℕ} (h : ReplaceAt s e z y l r p) : (s.replaceNode z y).rnP a =
    if a = y then p else if a = r then y else if a = l then y else s.rnP a := by
  have hP : (if p ≠ s.rbtNil then s.setChild e p y else s).rnP = s.rnP := by
    split_ifs <;> rfl
  have hz : (((if p ≠ s.rbtNil then s.setChild e p y else s).setP l y).setP r y).rnP z = p := by
    rw [setP_rnP, if_neg h.right_ne, setP_rnP, if_neg h.left_ne, hP, h.parent]
  have hcopy (s : Rbt K) : (s.copyNode z y).rnP a = if a = y then s.rnP z else s.rnP a := by
    rw [copyNode]
    split_ifs <;> simp_all [setP_rnP]
  rw [h.replaceNode_eq, hcopy, hz, setP_rnP, setP_rnP, hP]

theorem ReplaceAt.rnChild {l r p : ℕ} (h : ReplaceAt s e z y l r p) {e' : Side} :
    (s.replaceNode z y).rnChild e' a = if a = y then s.rnChild e' z
      else if p ≠ s.rbtNil ∧ e' = e ∧ a = p then y else s.rnChild e' a := by
  have hchild (a : ℕ) : (if p ≠ s.rbtNil then s.setChild e p y else s).rnChild e' a =
      if p ≠ s.rbtNil ∧ e' = e ∧ a = p then y else s.rnChild e' a := by
    by_cases hp : p = s.rbtNil
    · rw [if_neg (not_not.mpr hp), if_neg fun hand => hand.1 hp]
    · rw [if_pos hp, setChild_rnChild]
      exact if_congr ⟨fun hand => ⟨hp, hand⟩, And.right⟩ rfl rfl
  have hz := (hchild z).trans (if_neg fun hand => h.parent_ne hand.2.2)
  have hcopy (s : Rbt K) :
      (s.copyNode z y).rnChild e' a = if a = y then s.rnChild e' z else s.rnChild e' a := by
    have hne := h.new.symm
    rw [copyNode]
    cases e' <;> split_ifs <;> simp_all [setChild_rnChild]
  rw [h.replaceNode_eq, hcopy]
  simp only [setP_rnChild]
  rw [hz, hchild]

theorem ReplaceAt.rnColor {l r p : ℕ} (h : ReplaceAt s e z y l r p) :
    (s.replaceNode z y).rnColor a = if a = y then s.rnColor z else s.rnColor a := by
  have hcopy (s : Rbt K) :
      (s.copyNode z y).rnColor a = if a = y then s.rnColor z else s.rnColor a := by
    rw [copyNode]
    split_ifs <;> simp_all [setColor_rnColor]
  have hcolor : (if p ≠ s.rbtNil then s.setChild e p y else s).rnColor = s.rnColor := by
    split_ifs <;> rfl
  rw [h.replaceNode_eq, hcopy, setP_rnColor, setP_rnColor, hcolor]

theorem ReplaceAt.rbtRoot {l r p : ℕ} (h : ReplaceAt s e z y l r p) :
    (s.replaceNode z y).rbtRoot = if p = s.rbtNil then y else s.rbtRoot := by
  have hcopy (s : Rbt K) :
      (s.copyNode z y).rbtRoot = if s.rbtRoot = z then y else s.rbtRoot := by
    rw [copyNode]
    split_ifs <;> simp_all
  have hroot : (if p ≠ s.rbtNil then s.setChild e p y else s).rbtRoot = s.rbtRoot := by
    split_ifs <;> rfl
  rw [h.replaceNode_eq, hcopy, setP_rbtRoot, setP_rbtRoot, hroot]
  exact if_congr h.root rfl rfl

theorem sameRest_replaceNode (s : Rbt K) (z y : ℕ) : SameRest s (s.replaceNode z y) := by
  have hchild (d : Side) (s : Rbt K) : SameRest s (s.passChild d z y) := by
    unfold passChild
    split_ifs <;> exact ⟨rfl, rfl, rfl⟩
  have hparent (d : Side) (s : Rbt K) : SameRest s (s.passParent d z y) := by
    unfold passParent
    split_ifs <;> exact ⟨rfl, rfl, rfl⟩
  have hcopy (s : Rbt K) : SameRest s (s.copyNode z y) := by
    unfold copyNode
    dsimp only
    split_ifs <;> exact ⟨rfl, rfl, rfl⟩
  rw [replaceNode_eq]
  exact ((((hchild .left s).trans (hchild .right _)).trans (hparent .left _)).trans
    (hparent .right _)).trans (hcopy _)

theorem Placed.replaceAt {l r : RbTree ℕ} (h : Placed s k (branch .right c r z l)) (hl : l ≠ .nil)
    (hr : r = .nil → s.rnP s.rbtNil = z) (hy : y ≠ z) :
    ∃ e, ReplaceAt s e z y (top s.rbtNil l) (top s.rbtNil r) (parent s.rbtNil k) ∧
      ∀ f ∈ k.head?, f.side = e := by
  have hnode := h.node
  have hleft := placed_branch_far.mp h
  have hright := placed_branch.mp h
  obtain ⟨e, hnear, hfar, hside⟩ := h.exists_side branch_ne_nil
  rw [top_branch] at hnear hfar
  refine ⟨e, ⟨hnode.far, hnode.near, hnode.parent, hleft.parent_eq hl, ?_, fun d => ?_,
    h.parent_not_mem (mem_branch.mpr (Or.inl rfl)), hleft.ne_top List.mem_cons_self,
    hright.ne_top List.mem_cons_self, hright.top_ne_sibling (Or.inr hl), hy, ?_⟩, hside⟩
  · by_cases hnil : r = .nil
    · rw [hnil, top_nil]
      exact hr hnil
    · exact hright.parent_eq hnil
  · by_cases hp : parent s.rbtNil k = s.rbtNil
    · rw [hp, h.nilChild d]
      exact iff_of_false hnode.ne_nil.symm fun hand => hand.1 rfl
    · rcases Side.eq_or_eq_other e d with rfl | rfl
      · exact iff_of_true (hnear hp) ⟨hp, rfl⟩
      · exact iff_of_false (hfar hp) fun hand => e.other_ne hand.2
  · have hroot := h.root_eq_iff
    rw [top_branch, eq_comm] at hroot
    rw [hroot]
    cases k with
    | nil => exact iff_of_true rfl rfl
    | cons f k => exact iff_of_false (List.cons_ne_nil _ _) h.frame.ne_nil

theorem Placed.replaceNode {l r : RbTree ℕ} (h : Placed s k (branch .right c r z l))
    (hl : l ≠ .nil) (hr : r = .nil → s.rnP s.rbtNil = z) (hnil : y ≠ s.rbtNil)
    (hy : y ∉ (plug k (branch .right c r z l)).toList) :
    Placed (s.replaceNode z y) k (branch .right c r y l) ∧
      (r = .nil → (s.replaceNode z y).rnP s.rbtNil = y) ∧
      (r ≠ .nil → (s.replaceNode z y).rnP s.rbtNil = s.rnP s.rbtNil) := by
  have hperm := perm_plug k (branch .right c r z l)
  have hnew {a : ℕ} (ha : a ∈ (branch .right c r z l).toList ∨ a ∈ labels k) : a ≠ y := by
    rintro rfl
    exact hy (hperm.mem_iff.mpr (List.mem_append.mpr ha))
  have hyz : y ≠ z := (hnew (Or.inl (mem_branch.mpr (Or.inl rfl)))).symm
  obtain ⟨e, hat, hside⟩ := h.replaceAt hl hr hyz
  obtain ⟨hnode, htr, htl⟩ := linked_branch.mp h.tree
  obtain ⟨hnodup, hlabels, hdisj⟩ := (nodup_plug _ _).mp h.nodup
  obtain ⟨-, hnr, hnl, hrl⟩ := nodup_branch.mp hnodup
  have hnil' : (s.replaceNode z y).rbtNil = s.rbtNil := (sameRest_replaceNode s z y).nil
  have hmemr {a : ℕ} (ha : a ∈ r.toList) : a ∈ (branch .right c r z l).toList :=
    mem_branch.mpr (Or.inr (Or.inl ha))
  have hmeml {a : ℕ} (ha : a ∈ l.toList) : a ∈ (branch .right c r z l).toList :=
    mem_branch.mpr (Or.inr (Or.inr ha))
  have htopr {a : ℕ} (ha : a ∈ l.toList) : a ≠ top s.rbtNil r :=
    (placed_branch.mp h).ne_top (List.mem_cons_of_mem _ (List.mem_append_left _ ha))
  have htopl {a : ℕ} (ha : a ∈ r.toList) : a ≠ top s.rbtNil l :=
    (placed_branch_far.mp h).ne_top (List.mem_cons_of_mem _ (List.mem_append_left _ ha))
  have hchild {a : ℕ} (ha : a ∈ (branch .right c r z l).toList) (e' : Side) :
      (s.replaceNode z y).rnChild e' a = s.rnChild e' a := by
    rw [hat.rnChild, if_neg (hnew (Or.inl ha)), if_neg fun hand => h.parent_not_mem ha hand.2.2]
  have hcolor {a : ℕ} (ha : a ≠ y) : (s.replaceNode z y).rnColor a = s.rnColor a := by
    rw [hat.rnColor, if_neg ha]
  refine ⟨⟨linked_branch.mpr ⟨⟨?_, ?_, ?_, ?_, ?_⟩, ?_, ?_⟩, ?_, ?_, fun e' => ?_, ?_⟩,
    fun hrn => ?_, fun hrn => ?_⟩
  · rw [hnil']
    exact hnil
  · rw [hat.rnP, if_pos rfl, hnil']
  · rw [hat.rnColor, if_pos rfl]
    exact hnode.color
  · rw [hat.rnChild, if_pos rfl, hnil']
    exact hnode.near
  · rw [hat.rnChild, if_pos rfl, hnil']
    exact hnode.far
  · refine htr.reparent hnil' hnr (fun hne => ?_) (fun a ha htop => ?_)
      (fun a ha => hcolor (hnew (Or.inl (hmemr ha)))) (fun a ha e' => hchild (hmemr ha) e')
    · rw [hat.rnP, if_neg (hnew (Or.inl (hmemr (top_mem s.rbtNil hne)))), if_pos rfl]
    · rw [hat.rnP, if_neg (hnew (Or.inl (hmemr ha))), if_neg htop, if_neg (htopl ha)]
  · refine htl.reparent hnil' hnl (fun hne => ?_) (fun a ha htop => ?_)
      (fun a ha => hcolor (hnew (Or.inl (hmeml ha)))) (fun a ha e' => hchild (hmeml ha) e')
    · have hmem := top_mem s.rbtNil hne
      rw [hat.rnP, if_neg (hnew (Or.inl (hmeml hmem))), if_neg (htopr hmem), if_pos rfl]
    · rw [hat.rnP, if_neg (hnew (Or.inl (hmeml ha))), if_neg (htopr ha), if_neg htop]
  · rw [top_branch]
    have hctx := h.ctx
    rw [top_branch] at hctx
    refine hctx.rehole hnil' hlabels hat.rbtRoot (fun a ha => ?_)
      (fun a ha => hcolor (hnew (Or.inr ha))) (fun f hf => ?_) (fun a ha hap e' => ?_)
    · have har := (placed_branch.mp h).ne_top
        (List.mem_cons_of_mem _ (List.mem_append_right _ ha))
      have hal := (placed_branch_far.mp h).ne_top
        (List.mem_cons_of_mem _ (List.mem_append_right _ ha))
      rw [hat.rnP, if_neg (hnew (Or.inr ha)), if_neg har, if_neg hal]
    · have hfe := hside f hf
      cases k with
      | nil => exact nomatch hf
      | cons g k =>
          obtain rfl : g = f := Option.some.inj hf
          have hne : parent s.rbtNil (g :: k) ≠ s.rbtNil := h.frame.ne_nil
          have hgy := hnew (Or.inr (List.mem_cons_self (a := g.x)))
          constructor
          · rw [hat.rnChild, if_neg hgy, if_pos ⟨hne, hfe, rfl⟩]
          · rw [hat.rnChild, if_neg hgy,
              if_neg fun hand => g.side.other_ne (hand.2.1.trans hfe.symm)]
    · rw [hat.rnChild, if_neg (hnew (Or.inr ha)), if_neg fun hand => hap hand.2.2]
  · rw [nodup_plug]
    refine ⟨nodup_branch.mpr ⟨⟨fun hin => hnew (Or.inl (hmemr hin)) rfl,
      fun hin => hnew (Or.inl (hmeml hin)) rfl⟩, hnr, hnl, hrl⟩, hlabels, fun a ha hin => ?_⟩
    rcases mem_branch.mp ha with rfl | hin'
    · exact hnew (Or.inr hin) rfl
    · exact hdisj (mem_branch.mpr (Or.inr hin')) hin
  · rw [hnil', hat.rnChild, if_neg hnil.symm, if_neg fun hand => hand.1 hand.2.2.symm]
    exact h.nilChild e'
  · rw [hnil', hcolor hnil.symm]
    exact h.nilColor
  · rw [hat.rnP, if_neg hnil.symm, hrn, top_nil, if_pos rfl]
  · rw [hat.rnP, if_neg hnil.symm, if_neg ((placed_branch.mp h).tree.top_ne hrn).symm,
      if_neg ((placed_branch_far.mp h).tree.top_ne hl).symm]

/-! ## The deletion -/

def Spliced (c : RbColor) (t : RbTree ℕ) (k : List (Frame ℕ)) : Prop :=
  match c with
  | .red => ∃ n, (t.IsRb n ∧ t.color = .black) ∧ CtxRb k n
  | .black => ∃ n, t.IsRb n ∧ CtxRb k (n + 1)

theorem spliced_of_redBlack (h : (plug k (branch d c t y u)).RedBlack) : Spliced c t k := by
  obtain ⟨m, hrb, hctx, -⟩ := (redBlack_plug_iff _ _).mp h
  cases c with
  | red =>
      obtain ⟨⟨hblack, -⟩, ht, -⟩ := isRb_branch_red.mp hrb
      exact ⟨m, ⟨ht, hblack⟩, hctx⟩
  | black =>
      obtain ⟨m, rfl, ht, -⟩ := isRb_branch_black_iff.mp hrb
      exact ⟨m, ht, hctx⟩

theorem spliced_relabel {c' : RbColor} (y : ℕ) (h : Spliced c t (k₁ ++ ⟨d, c', x, u⟩ :: k₂)) :
    Spliced c t (k₁ ++ ⟨d, c', y, u⟩ :: k₂) := by
  cases c with
  | red =>
      obtain ⟨n, ht, hctx⟩ := h
      exact ⟨n, ht, (ctxRb_relabel y).mp hctx⟩
  | black =>
      obtain ⟨n, ht, hctx⟩ := h
      exact ⟨n, ht, (ctxRb_relabel y).mp hctx⟩

theorem rbDelete_end (h : Placed s k t) (hparent : s.rnP (top s.rbtNil t) = parent s.rbtNil k)
    (hshape : Spliced c t k) (hfuel : k.length < fuel) (z : ℕ) :
    ∃ s' t', (if c = .black then (rbDeleteFixup fuel (top s.rbtNil t) s).map fun s => (z, s)
      else some (z, s)) = some (z, s') ∧ DeleteDone s s' (plug k t).toList t' := by
  cases c with
  | red =>
      obtain ⟨n, ⟨hrb, hblack⟩, hctx⟩ := hshape
      refine ⟨s, plug k t, if_neg fun hc => RbColor.noConfusion hc, placed_plug.mp h, rfl, ?_,
        SameRest.refl s⟩
      refine (redBlack_plug_iff k t).mpr ⟨n, hrb, hctx, fun hred => ?_⟩
      rw [hblack] at hred
      exact RbColor.noConfusion hred
  | black =>
      obtain ⟨n, hrb, hctx⟩ := hshape
      have hdef : Deficient s k t n := by
        refine ⟨h, fun hnil => ?_, short_of_isRb hrb, hctx⟩
        rw [hnil, top_nil] at hparent
        exact hparent
      obtain ⟨s', t', hloop, hdone⟩ := rbDeleteFixup_done hdef (Or.inl hfuel)
      rw [if_pos rfl, hloop]
      exact ⟨s', t', rfl, hdone⟩

theorem Placed.only_child (h : Placed s k (branch d c t y .nil)) :
    (if s.rnChild .left y ≠ s.rbtNil then s.rnChild .left y else s.rnChild .right y) =
      top s.rbtNil t := by
  have hnode := h.node
  cases d with
  | left =>
      rw [hnode.near, show s.rnChild .right y = s.rbtNil from hnode.far]
      by_cases ht : top s.rbtNil t = s.rbtNil
      · rw [if_neg (not_not.mpr ht), ht]
      · rw [if_pos ht]
  | right =>
      rw [show s.rnChild .left y = s.rbtNil from hnode.far, if_neg (not_not.mpr rfl)]
      exact hnode.near

theorem rbDelete_one (h : Placed s k (branch d c t z .nil))
    (hrb : (plug k (branch d c t z .nil)).RedBlack) (hfuel : k.length < fuel) :
    ∃ s' t', s.rbDelete fuel z = some (z, s') ∧ DeleteDone s s' (plug k t).toList t' := by
  have hone : s.rnChild .left z = s.rbtNil ∨ s.rnChild .right z = s.rbtNil := by
    have hfar := h.node.far
    cases d with
    | left => exact Or.inr hfar
    | right => exact Or.inl hfar
  have hcolor : (s.spliceOut z (top s.rbtNil t)).rnColor z = c := by
    rw [spliceOut_rnColor]
    exact h.node.color
  obtain ⟨hsplice, hparent⟩ := h.spliceOut
  have hrest := sameRest_spliceOut s z (top s.rbtNil t)
  have hparent' : (s.spliceOut z (top s.rbtNil t)).rnP
      (top (s.spliceOut z (top s.rbtNil t)).rbtNil t) =
        parent (s.spliceOut z (top s.rbtNil t)).rbtNil k := by
    rw [hrest.nil]
    exact hparent
  obtain ⟨s', t', hend, hdone⟩ := rbDelete_end hsplice hparent' (spliced_of_redBlack hrb) hfuel z
  refine ⟨s', t', ?_, hdone.placed, hdone.toList_eq, hdone.redBlack, hrest.trans hdone.rest⟩
  rw [hrest.nil] at hend
  rw [rbDelete, if_pos hone, Option.bind_some]
  simp only [h.only_child, hcolor, ne_eq, not_true_eq_false, if_false]
  exact hend

theorem rbDelete_two {l r : RbTree ℕ} (h : Placed s k (.node c l z r)) (hl : l ≠ .nil)
    (hr : r ≠ .nil) (hrb : (plug k (.node c l z r)).RedBlack)
    (hfuel : (plug k (.node c l z r)).toList.length < fuel) :
    ∃ s' t', s.rbDelete fuel z = some (z, s') ∧
      DeleteDone s s' (before k ++ l.toList ++ (r.toList ++ after k)) t' := by
  have hright := placed_branch (d := .right).mp h
  obtain ⟨hnodup, -, -⟩ := (nodup_plug _ _).mp h.nodup
  obtain ⟨-, hnr, -, -⟩ := (nodup_branch (d := .right)).mp hnodup
  obtain ⟨kr, cy, y, ry, hplug, hbefore⟩ := exists_leftmost hr hnr
  have hrlist : r.toList = y :: (ry.toList ++ after kr) := by
    rw [← hplug, toList_plug_node, hbefore]
    rfl
  -- the successor
  obtain ⟨hne, hcl, hcr⟩ := h.node_reads
  have hlength := (perm_plug k (.node c l z r)).length_eq
  have hk := length_le_labels k
  rw [List.length_append, length_toList_node] at hlength
  have hnext : s.treeSuccessor fuel z = some y := by
    have hnext := treeNext_eq (d := .right) (t := r) (u := l) h
      (show _ ≤ fuel by omega) (by omega)
    rw [treeSuccessor, hnext, hrlist]
    rfl
  have htwo : ¬ (s.rnChild .left z = s.rbtNil ∨ s.rnChild .right z = s.rbtNil) := by
    rw [hcl, hcr]
    exact not_or.mpr ⟨(placed_branch (d := .left).mp h).tree.top_ne hl, hright.tree.top_ne hr⟩
  -- the successor is taken out
  have hy : Placed s (kr ++ ⟨.right, c, z, l⟩ :: k) (branch .right cy ry y .nil) := by
    refine placed_append.mpr ?_
    rw [branch_right, hplug]
    exact hright
  have hcolor : (s.spliceOut y (top s.rbtNil ry)).rnColor y = cy := by
    rw [spliceOut_rnColor]
    exact hy.node.color
  have hrb' : (plug (kr ++ ⟨.right, c, z, l⟩ :: k) (branch .right cy ry y .nil)).RedBlack := by
    rw [plug_append, branch_right, hplug]
    exact hrb
  have hyz : y ≠ z := (ne_of_disjoint ((nodup_plug _ _).mp hright.nodup).2.2
    (by rw [hrlist]; exact List.mem_cons_self) List.mem_cons_self)
  have hynil := hy.node.ne_nil
  have hynew : y ∉ (plug (kr ++ ⟨.right, c, z, l⟩ :: k) ry).toList := by
    obtain ⟨hn, -, hdisj⟩ := (nodup_plug _ _).mp hy.nodup
    rw [(perm_plug _ ry).mem_iff, List.mem_append]
    rintro (hin | hin)
    · exact (nodup_branch.mp hn).1.1 hin
    · exact hdisj (mem_branch.mpr (Or.inl rfl)) hin
  obtain ⟨hsplice, hparent⟩ := hy.spliceOut
  have hrest := sameRest_spliceOut s y (top s.rbtNil ry)
  obtain ⟨s₁, hs₁⟩ : ∃ s₁, s.spliceOut y (top s.rbtNil ry) = s₁ := ⟨_, rfl⟩
  rw [hs₁] at hsplice hparent hrest hcolor
  rw [← hrest.nil] at hparent hynil
  -- the successor comes in the place of the node
  rw [plug_append] at hynew
  have hempty (hnil : plug kr ry = .nil) : kr = [] ∧ ry = .nil := by
    cases kr with
    | nil => exact ⟨rfl, hnil⟩
    | cons f kr => exact absurd hnil (plug_ne_nil (t := f.fill ry) branch_ne_nil)
  obtain ⟨hreplace, hnil₁, hnil₂⟩ :=
    (placed_branch.mpr (placed_append.mp hsplice)).replaceNode hl (fun hnil => by
      obtain ⟨rfl, rfl⟩ := hempty hnil
      exact hparent) hynil hynew
  have hrest₂ := hrest.trans (sameRest_replaceNode s₁ z y)
  have hview : Placed (s₁.replaceNode z y) (kr ++ ⟨.right, c, y, l⟩ :: k) ry :=
    placed_append.mpr (placed_branch.mp hreplace)
  have hparent₂ : (s₁.replaceNode z y).rnP (top (s₁.replaceNode z y).rbtNil ry) =
      parent (s₁.replaceNode z y).rbtNil (kr ++ ⟨.right, c, y, l⟩ :: k) := by
    by_cases hry : ry = .nil
    · subst hry
      rw [top_nil, (sameRest_replaceNode s₁ z y).nil]
      cases kr with
      | nil => exact hnil₁ rfl
      | cons f kr => exact (hnil₂ (plug_ne_nil (t := f.fill .nil) branch_ne_nil)).trans hparent
    · exact hview.parent_eq hry
  have hfull : (kr ++ ⟨.right, c, y, l⟩ :: k).length < fuel := by
    have hkr := length_le_labels kr
    have hlr := (perm_plug kr (.node cy .nil y ry)).length_eq
    rw [hplug, List.length_append] at hlr
    rw [List.length_append, List.length_cons]
    have hpos : 0 < (RbTree.node cy .nil y ry).toList.length := by
      rw [length_toList_node]
      exact Nat.succ_pos _
    omega
  obtain ⟨s', t', hend, hdone⟩ := rbDelete_end hview hparent₂
    (spliced_relabel y (spliced_of_redBlack hrb')) hfull z
  refine ⟨s', t', ?_, hdone.placed, hdone.toList_eq.trans ?_, hdone.redBlack,
    hrest₂.trans hdone.rest⟩
  · rw [hrest₂.nil] at hend
    rw [rbDelete, if_neg htwo, hnext, Option.bind_some]
    simp only [hy.only_child, hs₁, hcolor, hyz, ne_eq, not_false_eq_true, if_true]
    exact hend
  · rw [toList_plug, before_append, after_append, hbefore, List.append_nil, before, after, hrlist]
    simp only [List.append_assoc, List.cons_append, List.nil_append]

/-- `rb_delete` takes out the node and keeps the other nodes in their order. -/
theorem rbDelete_spec (h : Placed s [] t) (hrb : t.RedBlack) (hz : z ∈ t.toList)
    (hfuel : t.toList.length < fuel) : ∃ s' t' l₁ l₂, s.rbDelete fuel z = some (z, s') ∧
      t.toList = l₁ ++ z :: l₂ ∧ DeleteDone s s' (l₁ ++ l₂) t' := by
  obtain ⟨k, c, l, r, rfl⟩ := exists_plug_of_mem hz
  have hview := placed_plug.mpr h
  have hlist := toList_plug_node k c l z r
  have hk : k.length < fuel := by
    have hlength := (perm_plug k (.node c l z r)).length_eq
    have hle := length_le_labels k
    rw [List.length_append] at hlength
    omega
  by_cases hl : l = .nil
  · subst hl
    obtain ⟨s', t', hdel, hdone⟩ := rbDelete_one (d := .right) hview hrb hk
    refine ⟨s', t', _, _, hdel, hlist, hdone.placed, hdone.toList_eq.trans ?_, hdone.redBlack,
      hdone.rest⟩
    rw [toList_plug, toList_nil, List.append_nil, List.append_assoc]
  · by_cases hr : r = .nil
    · subst hr
      obtain ⟨s', t', hdel, hdone⟩ := rbDelete_one (d := .left) hview hrb hk
      refine ⟨s', t', _, _, hdel, hlist, hdone.placed, hdone.toList_eq.trans ?_, hdone.redBlack,
        hdone.rest⟩
      rw [toList_plug, toList_nil, List.nil_append]
    · obtain ⟨s', t', hdel, hdone⟩ := rbDelete_two hview hl hr hrb hfuel
      exact ⟨s', t', _, _, hdel, hlist, hdone⟩

end Rbt

end SolidDB
