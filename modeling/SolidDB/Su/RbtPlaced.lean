import SolidDB.Su.Rbt

/-!
# Trees in memory

The nodes of a tree are linked to their children and to their parent. A tree is seen from one
of its subtrees, with the nodes on the path to it, and every write to the memory is a step on
that view.
-/

namespace SolidDB

namespace Rbt

open RbTree

variable {K : Type*} {s s' : Rbt K} {d e : Side} {c c' : RbColor} {t u v : RbTree ℕ}
  {k : List (Frame ℕ)} {f : Frame ℕ} {a b x y p q hole hole' : ℕ}

/-! ## The fields after a write -/

@[simp] theorem setChild_rnP : (s.setChild d x y).rnP = s.rnP := rfl
@[simp] theorem setChild_rnColor : (s.setChild d x y).rnColor = s.rnColor := rfl
@[simp] theorem setChild_rnKey : (s.setChild d x y).rnKey = s.rnKey := rfl
@[simp] theorem setChild_rbtRoot : (s.setChild d x y).rbtRoot = s.rbtRoot := rfl
@[simp] theorem setChild_rbtNil : (s.setChild d x y).rbtNil = s.rbtNil := rfl
@[simp] theorem setP_rnChild : (s.setP x y).rnChild = s.rnChild := rfl
@[simp] theorem setP_rnColor : (s.setP x y).rnColor = s.rnColor := rfl
@[simp] theorem setP_rnKey : (s.setP x y).rnKey = s.rnKey := rfl
@[simp] theorem setP_rbtRoot : (s.setP x y).rbtRoot = s.rbtRoot := rfl
@[simp] theorem setP_rbtNil : (s.setP x y).rbtNil = s.rbtNil := rfl
@[simp] theorem setColor_rnChild : (s.setColor x c).rnChild = s.rnChild := rfl
@[simp] theorem setColor_rnP : (s.setColor x c).rnP = s.rnP := rfl
@[simp] theorem setColor_rnKey : (s.setColor x c).rnKey = s.rnKey := rfl
@[simp] theorem setColor_rbtRoot : (s.setColor x c).rbtRoot = s.rbtRoot := rfl
@[simp] theorem setColor_rbtNil : (s.setColor x c).rbtNil = s.rbtNil := rfl
@[simp] theorem setRoot_rnChild : (s.setRoot x).rnChild = s.rnChild := rfl
@[simp] theorem setRoot_rnP : (s.setRoot x).rnP = s.rnP := rfl
@[simp] theorem setRoot_rnColor : (s.setRoot x).rnColor = s.rnColor := rfl
@[simp] theorem setRoot_rnKey : (s.setRoot x).rnKey = s.rnKey := rfl
@[simp] theorem setRoot_rbtRoot : (s.setRoot x).rbtRoot = x := rfl
@[simp] theorem setRoot_rbtNil : (s.setRoot x).rbtNil = s.rbtNil := rfl

theorem setChild_rnChild : (s.setChild d x y).rnChild e a =
    if e = d ∧ a = x then y else s.rnChild e a := rfl

theorem setP_rnP : (s.setP x y).rnP a = if a = x then y else s.rnP a := rfl

theorem setColor_rnColor : (s.setColor x c).rnColor a = if a = x then c else s.rnColor a := rfl

section Adopt

@[simp] theorem adopt_rnChild : (s.adopt b x).rnChild = s.rnChild := by
  unfold adopt
  split <;> rfl

@[simp] theorem adopt_rnColor : (s.adopt b x).rnColor = s.rnColor := by
  unfold adopt
  split <;> rfl

@[simp] theorem adopt_rnKey : (s.adopt b x).rnKey = s.rnKey := by
  unfold adopt
  split <;> rfl

@[simp] theorem adopt_rbtRoot : (s.adopt b x).rbtRoot = s.rbtRoot := by
  unfold adopt
  split <;> rfl

@[simp] theorem adopt_rbtNil : (s.adopt b x).rbtNil = s.rbtNil := by
  unfold adopt
  split <;> rfl

theorem adopt_rnP : (s.adopt b x).rnP a = if b ≠ s.rbtNil ∧ a = b then x else s.rnP a := by
  unfold adopt
  by_cases hb : b = s.rbtNil
  · rw [if_neg (not_not.mpr hb), if_neg fun h => h.1 hb]
  · rw [if_pos hb, setP_rnP]
    exact if_congr ⟨fun h => ⟨hb, h⟩, And.right⟩ rfl rfl

end Adopt

section ReplaceChild

@[simp] theorem replaceChild_rnP : (s.replaceChild d p x y).rnP = s.rnP := by
  unfold replaceChild
  split_ifs <;> rfl

@[simp] theorem replaceChild_rnColor : (s.replaceChild d p x y).rnColor = s.rnColor := by
  unfold replaceChild
  split_ifs <;> rfl

@[simp] theorem replaceChild_rnKey : (s.replaceChild d p x y).rnKey = s.rnKey := by
  unfold replaceChild
  split_ifs <;> rfl

@[simp] theorem replaceChild_rbtNil : (s.replaceChild d p x y).rbtNil = s.rbtNil := by
  unfold replaceChild
  split_ifs <;> rfl

theorem replaceChild_rbtRoot : (s.replaceChild d p x y).rbtRoot =
    if p = s.rbtNil then y else s.rbtRoot := by
  unfold replaceChild
  split_ifs <;> rfl

theorem replaceChild_rnChild (hx : p ≠ s.rbtNil → s.rnChild e p = x)
    (hx' : p ≠ s.rbtNil → s.rnChild e.other p ≠ x) {e' : Side} :
    (s.replaceChild d p x y).rnChild e' a =
      if p ≠ s.rbtNil ∧ e' = e ∧ a = p then y else s.rnChild e' a := by
  unfold replaceChild
  by_cases hp : p = s.rbtNil
  · rw [if_pos hp, if_neg fun h => h.1 hp]
    rfl
  · rw [if_neg hp]
    simp only [hp, ne_eq, not_false_eq_true, true_and]
    rcases Side.eq_or_eq_other e d with rfl | rfl
    · rw [if_pos (hx hp).symm, setChild_rnChild]
    · rw [if_neg fun h => hx' hp h.symm, Side.other_other, setChild_rnChild]

end ReplaceChild

/-! ## Rotations -/

@[simp] theorem rotate_rnColor : (s.rotate d x).rnColor = s.rnColor := by
  simp only [rotate, setP_rnColor, setChild_rnColor, replaceChild_rnColor, adopt_rnColor]

@[simp] theorem rotate_rnKey : (s.rotate d x).rnKey = s.rnKey := by
  simp only [rotate, setP_rnKey, setChild_rnKey, replaceChild_rnKey, adopt_rnKey]

@[simp] theorem rotate_rbtNil : (s.rotate d x).rbtNil = s.rbtNil := by
  simp only [rotate, setP_rbtNil, setChild_rbtNil, replaceChild_rbtNil, adopt_rbtNil]

/-- What a rotation at `x` reads: the child `y`, its child `b` and the parent `q` with `x` on
the side `e`. -/
structure RotateAt (s : Rbt K) (d e : Side) (x y b q : ℕ) : Prop where
  child : s.rnChild d.other x = y
  inner : s.rnChild d y = b
  parent : s.rnP x = q
  ne : y ≠ x
  inner_ne : b ≠ x
  parent_ne : q ≠ x
  side : q ≠ s.rbtNil → s.rnChild e q = x
  side_other : q ≠ s.rbtNil → s.rnChild e.other q ≠ x

theorem RotateAt.rnP (h : RotateAt s d e x y b q) : (s.rotate d x).rnP a =
    if a = x then y else if a = y then q else if b ≠ s.rbtNil ∧ a = b then x else s.rnP a := by
  have hne := d.other_ne.symm
  have hyx := h.ne
  have hbx := h.inner_ne.symm
  simp only [rotate, h.child, h.inner, setChild_rnChild, setChild_rbtNil, setChild_rnP, hne,
    false_and, if_false, setP_rnP, replaceChild_rnP, adopt_rnP, hbx, and_false, h.parent]
  rfl

theorem RotateAt.rbtRoot (h : RotateAt s d e x y b q) : (s.rotate d x).rbtRoot =
    if q = s.rbtNil then y else s.rbtRoot := by
  have hne := d.other_ne.symm
  have hyx := h.ne.symm
  have hbx := h.inner_ne.symm
  simp only [rotate, h.child, h.inner, setChild_rnChild, setChild_rbtNil, setChild_rnP, hne,
    false_and, if_false, setP_rnP, adopt_rnP, adopt_rbtNil, hbx, and_false, hyx, h.parent,
    setP_rbtRoot, setChild_rbtRoot, replaceChild_rbtRoot, setP_rbtNil, adopt_rbtRoot]

theorem RotateAt.rnChild (h : RotateAt s d e x y b q) {e' : Side} :
    (s.rotate d x).rnChild e' a =
      if e' = d ∧ a = y then x else if q ≠ s.rbtNil ∧ e' = e ∧ a = q then y
      else if e' = d.other ∧ a = x then b else s.rnChild e' a := by
  have hne := d.other_ne.symm
  have hyx := h.ne.symm
  have hbx := h.inner_ne.symm
  have hqx := h.parent_ne
  simp only [rotate, h.child, h.inner, setChild_rnChild, setChild_rbtNil, setChild_rnP, hne,
    false_and, if_false, setP_rnP, adopt_rnP, hbx, and_false, hyx, h.parent, setP_rnChild]
  rw [replaceChild_rnChild (e := e)]
  · simp only [setP_rnChild, adopt_rnChild, setChild_rnChild, setP_rbtNil, adopt_rbtNil,
      setChild_rbtNil]
  · simp only [setP_rnChild, adopt_rnChild, setChild_rnChild, hqx, and_false, if_false,
      setP_rbtNil, adopt_rbtNil, setChild_rbtNil]
    exact h.side
  · simp only [setP_rnChild, adopt_rnChild, setChild_rnChild, hqx, and_false, if_false,
      setP_rbtNil, adopt_rbtNil, setChild_rbtNil]
    exact h.side_other

/-! ## Linked nodes -/

def top (nil : ℕ) : RbTree ℕ → ℕ
  | .nil => nil
  | .node _ _ x _ => x

@[simp] theorem top_nil (nil : ℕ) : top nil .nil = nil := rfl

@[simp] theorem top_branch (nil : ℕ) : top nil (branch d c t x u) = x := by
  cases d with
  | left => rfl
  | right => rfl

structure NodeAt (s : Rbt K) (p : ℕ) (c : RbColor) (x : ℕ) (near far : ℕ) (d : Side) : Prop where
  ne_nil : x ≠ s.rbtNil
  parent : s.rnP x = p
  color : s.rnColor x = c
  near : s.rnChild d x = near
  far : s.rnChild d.other x = far

theorem nodeAt_other : NodeAt s p c x a b d.other ↔ NodeAt s p c x b a d := by
  constructor
  · intro h
    have hfar := h.far
    rw [Side.other_other] at hfar
    exact ⟨h.ne_nil, h.parent, h.color, hfar, h.near⟩
  · intro h
    refine ⟨h.ne_nil, h.parent, h.color, h.far, ?_⟩
    rw [Side.other_other]
    exact h.near

def Linked (s : Rbt K) : ℕ → RbTree ℕ → Prop
  | _, .nil => True
  | p, .node c l x r =>
    NodeAt s p c x (top s.rbtNil l) (top s.rbtNil r) .left ∧ Linked s x l ∧ Linked s x r

theorem linked_branch : Linked s p (branch d c t x u) ↔
    NodeAt s p c x (top s.rbtNil t) (top s.rbtNil u) d ∧ Linked s x t ∧ Linked s x u := by
  cases d with
  | left => exact Iff.rfl
  | right => exact and_congr nodeAt_other.symm and_comm

theorem Linked.top_ne (h : Linked s p t) (ht : t ≠ .nil) : top s.rbtNil t ≠ s.rbtNil := by
  cases t with
  | nil => exact absurd rfl ht
  | node c l x r => exact h.1.ne_nil

theorem Linked.ne_nil (h : Linked s p t) (ha : a ∈ t.toList) : a ≠ s.rbtNil := by
  induction t generalizing p with
  | nil => exact absurd ha List.not_mem_nil
  | node c l x r ihl ihr =>
      rcases mem_branch (d := .left).mp ha with rfl | hl | hr
      · exact h.1.ne_nil
      · exact ihl h.2.1 hl
      · exact ihr h.2.2 hr

theorem top_mem (nil : ℕ) (ht : t ≠ .nil) : top nil t ∈ t.toList := by
  cases t with
  | nil => exact absurd rfl ht
  | node c l x r => exact List.mem_append_right _ List.mem_cons_self

structure SameAt (s s' : Rbt K) (a : ℕ) : Prop where
  parent : s'.rnP a = s.rnP a
  color : s'.rnColor a = s.rnColor a
  child : ∀ d, s'.rnChild d a = s.rnChild d a

theorem NodeAt.congr (hnil : s'.rbtNil = s.rbtNil) (hsame : SameAt s s' x)
    (h : NodeAt s p c x a b d) : NodeAt s' p c x a b d := by
  refine ⟨?_, hsame.parent.trans h.parent, hsame.color.trans h.color,
    (hsame.child d).trans h.near, (hsame.child d.other).trans h.far⟩
  rw [hnil]
  exact h.ne_nil

theorem Linked.congr (hnil : s'.rbtNil = s.rbtNil) (hsame : ∀ a ∈ t.toList, SameAt s s' a)
    (h : Linked s p t) : Linked s' p t := by
  induction t generalizing p with
  | nil => trivial
  | node c l x r ihl ihr =>
      refine ⟨?_, ihl (fun a ha => hsame a ?_) h.2.1, ihr (fun a ha => hsame a ?_) h.2.2⟩
      · rw [hnil]
        exact h.1.congr hnil (hsame x (mem_branch (d := .left).mpr (Or.inl rfl)))
      · exact mem_branch (d := .left).mpr (Or.inr (Or.inl ha))
      · exact mem_branch (d := .left).mpr (Or.inr (Or.inr ha))

theorem Linked.reparent (hnil : s'.rbtNil = s.rbtNil) (hnodup : t.toList.Nodup)
    (htop : t ≠ .nil → s'.rnP (top s.rbtNil t) = q)
    (hparent : ∀ a ∈ t.toList, a ≠ top s.rbtNil t → s'.rnP a = s.rnP a)
    (hcolor : ∀ a ∈ t.toList, s'.rnColor a = s.rnColor a)
    (hchild : ∀ a ∈ t.toList, ∀ d, s'.rnChild d a = s.rnChild d a)
    (h : Linked s p t) : Linked s' q t := by
  cases t with
  | nil => trivial
  | node c l x r =>
      have hx : x ∈ (RbTree.node c l x r).toList := mem_branch (d := .left).mpr (Or.inl rfl)
      obtain ⟨⟨hl, hr⟩, -⟩ := nodup_branch (d := .left).mp hnodup
      have hbelow (u : RbTree ℕ) (hu : ∀ a ∈ u.toList, a ∈ (RbTree.node c l x r).toList)
          (hxu : x ∉ u.toList) : ∀ a ∈ u.toList, SameAt s s' a := by
        intro a ha
        refine ⟨hparent a (hu a ha) fun heq => hxu ?_, hcolor a (hu a ha), hchild a (hu a ha)⟩
        rw [show x = a from heq.symm]
        exact ha
      refine ⟨⟨?_, htop (fun h => nomatch h), ?_, ?_, ?_⟩, ?_, ?_⟩
      · rw [hnil]
        exact h.1.ne_nil
      · exact (hcolor x hx).trans h.1.color
      · rw [hchild x hx, hnil]
        exact h.1.near
      · rw [hchild x hx, hnil]
        exact h.1.far
      · exact h.2.1.congr hnil (hbelow l (fun a ha =>
          mem_branch (d := .left).mpr (Or.inr (Or.inl ha))) hl)
      · exact h.2.2.congr hnil (hbelow r (fun a ha =>
          mem_branch (d := .left).mpr (Or.inr (Or.inr ha))) hr)

def parent (nil : ℕ) : List (Frame ℕ) → ℕ
  | [] => nil
  | f :: _ => f.x

/-- The nodes on the path to a subtree with its root at `hole`. -/
def CtxLinked (s : Rbt K) : ℕ → List (Frame ℕ) → Prop
  | hole, [] => s.rbtRoot = hole
  | hole, f :: k =>
    NodeAt s (parent s.rbtNil k) f.color f.x hole (top s.rbtNil f.sibling) f.side ∧
      Linked s f.x f.sibling ∧ CtxLinked s f.x k

structure Placed (s : Rbt K) (k : List (Frame ℕ)) (t : RbTree ℕ) : Prop where
  tree : Linked s (parent s.rbtNil k) t
  ctx : CtxLinked s (top s.rbtNil t) k
  nodup : (plug k t).toList.Nodup
  nilChild : ∀ d, s.rnChild d s.rbtNil = s.rbtNil
  nilColor : s.rnColor s.rbtNil = .black

theorem placed_cons : Placed s (f :: k) t ↔ Placed s k (f.fill t) := by
  constructor
  · intro h
    obtain ⟨hnode, hsib, hctx⟩ := h.ctx
    refine ⟨linked_branch.mpr ⟨hnode, h.tree, hsib⟩, ?_, h.nodup, h.nilChild, h.nilColor⟩
    rw [Frame.fill, top_branch]
    exact hctx
  · intro h
    obtain ⟨hnode, htree, hsib⟩ := linked_branch.mp h.tree
    have hctx := h.ctx
    rw [Frame.fill, top_branch] at hctx
    exact ⟨htree, ⟨hnode, hsib, hctx⟩, h.nodup, h.nilChild, h.nilColor⟩

theorem placed_branch : Placed s k (branch d c t x u) ↔ Placed s (⟨d, c, x, u⟩ :: k) t :=
  (placed_cons (f := ⟨d, c, x, u⟩)).symm

theorem placed_branch_far : Placed s k (branch d c t x u) ↔
    Placed s (⟨d.other, c, x, t⟩ :: k) u := by
  rw [← branch_other]
  exact placed_branch

theorem Placed.node (h : Placed s k (branch d c t x u)) :
    NodeAt s (parent s.rbtNil k) c x (top s.rbtNil t) (top s.rbtNil u) d :=
  (linked_branch.mp h.tree).1

/-- The path to a subtree after writes to the subtree: its root may have changed. -/
theorem CtxLinked.congr (hnil : s'.rbtNil = s.rbtNil) (hroot : s'.rbtRoot = s.rbtRoot)
    (hsame : ∀ a ∈ labels k, SameAt s s' a) (h : CtxLinked s hole k) : CtxLinked s' hole k := by
  induction k generalizing hole with
  | nil => exact hroot.trans h
  | cons f k ih =>
      refine ⟨?_, h.2.1.congr hnil fun a ha => hsame a ?_, ih (fun a ha => hsame a ?_) h.2.2⟩
      · rw [hnil]
        exact h.1.congr hnil (hsame f.x List.mem_cons_self)
      · exact List.mem_cons_of_mem _ (List.mem_append_left _ ha)
      · exact List.mem_cons_of_mem _ (List.mem_append_right _ ha)

/-- Another root of the subtree: the parent has another child on its side, or the tree another
root. -/
theorem CtxLinked.rehole (hnil : s'.rbtNil = s.rbtNil) (hnodup : (labels k).Nodup)
    (hroot : s'.rbtRoot = if parent s.rbtNil k = s.rbtNil then hole' else s.rbtRoot)
    (hparent : ∀ a ∈ labels k, s'.rnP a = s.rnP a)
    (hcolor : ∀ a ∈ labels k, s'.rnColor a = s.rnColor a)
    (hnear : ∀ f ∈ k.head?, s'.rnChild f.side f.x = hole' ∧
      s'.rnChild f.side.other f.x = s.rnChild f.side.other f.x)
    (hchild : ∀ a ∈ labels k, a ≠ parent s.rbtNil k → ∀ d, s'.rnChild d a = s.rnChild d a)
    (h : CtxLinked s hole k) : CtxLinked s' hole' k := by
  cases k with
  | nil => exact hroot.trans (if_pos rfl)
  | cons f k =>
      obtain ⟨hnode, hsib, hctx⟩ := h
      obtain ⟨hx, hrest⟩ := List.nodup_cons.mp hnodup
      have hfar := hnear f (Option.mem_some_self f)
      have hroot' := hroot.trans (if_neg hnode.ne_nil)
      have hbelow : ∀ a ∈ f.sibling.toList ++ labels k, SameAt s s' a := by
        intro a ha
        have hmem := List.mem_cons_of_mem f.x ha
        refine ⟨hparent a hmem, hcolor a hmem, hchild a hmem ?_⟩
        rintro rfl
        exact hx ha
      have hfx : f.x ∈ labels (f :: k) := List.mem_cons_self
      refine ⟨⟨?_, ?_, ?_, hfar.1, ?_⟩, hsib.congr hnil fun a ha => hbelow a ?_,
        hctx.congr hnil hroot' fun a ha => hbelow a ?_⟩
      · rw [hnil]
        exact hnode.ne_nil
      · rw [hnil, hparent f.x hfx]
        exact hnode.parent
      · exact (hcolor f.x hfx).trans hnode.color
      · rw [hnil]
        exact hfar.2.trans hnode.far
      · exact List.mem_append_left _ ha
      · exact List.mem_append_right _ ha

/-! ## A rotation of a placed tree -/

theorem RotateAt.child_of_ne (h : RotateAt s d e x y b q) {e' : Side} (hx : a ≠ x) (hy : a ≠ y)
    (hq : a ≠ q) : (s.rotate d x).rnChild e' a = s.rnChild e' a := by
  rw [h.rnChild, if_neg fun hand => hy hand.2, if_neg fun hand => hq hand.2.2,
    if_neg fun hand => hx hand.2]

theorem RotateAt.parent_of_ne (h : RotateAt s d e x y b q) (hx : a ≠ x) (hy : a ≠ y)
    (hb : b ≠ s.rbtNil → a ≠ b) : (s.rotate d x).rnP a = s.rnP a := by
  rw [h.rnP, if_neg hx, if_neg hy, if_neg fun hand => hb hand.1 hand.2]

theorem RotateAt.sameAt (h : RotateAt s d e x y b q) (hx : a ≠ x) (hy : a ≠ y)
    (hb : b ≠ s.rbtNil → a ≠ b) (hq : a ≠ q) : SameAt s (s.rotate d x) a :=
  ⟨h.parent_of_ne hx hy hb, by rw [rotate_rnColor], fun _ => h.child_of_ne hx hy hq⟩

theorem ne_of_disjoint {l m : List ℕ} (h : l.Disjoint m) (ha : a ∈ l) (hb : b ∈ m) : a ≠ b := by
  rintro rfl
  exact h ha hb

theorem Placed.parent_not_mem (h : Placed s k t) (ha : a ∈ t.toList) :
    a ≠ parent s.rbtNil k := by
  cases k with
  | nil => exact h.tree.ne_nil ha
  | cons f k =>
      have hdisj := ((nodup_plug _ _).mp h.nodup).2.2
      exact ne_of_disjoint hdisj ha List.mem_cons_self

theorem top_ne_of_not_mem {nil : ℕ} (ha : a ≠ nil) (hmem : a ∉ t.toList) : top nil t ≠ a := by
  rintro rfl
  cases t with
  | nil => exact ha rfl
  | node c l x r => exact hmem (top_mem nil fun h => nomatch h)

theorem Placed.rotateAt {cx cy : RbColor}
    (h : Placed s k (branch d cx t x (branch d cy u y v))) :
    ∃ e, RotateAt s d e x y (top s.rbtNil u) (parent s.rbtNil k) ∧ ∀ f ∈ k.head?, f.side = e := by
  obtain ⟨hnode, -, hinner⟩ := linked_branch.mp h.tree
  obtain ⟨hnode', -, -⟩ := linked_branch.mp hinner
  obtain ⟨hnodup, -, hdisj⟩ := (nodup_plug _ _).mp h.nodup
  obtain ⟨⟨-, hx⟩, -, -, -⟩ := nodup_branch.mp hnodup
  have hfar := hnode.far
  rw [top_branch] at hfar
  have hyx : y ≠ x := by
    rintro rfl
    exact hx (mem_branch.mpr (Or.inl rfl))
  have hux : x ∉ u.toList := fun hmem => hx (mem_branch.mpr (Or.inr (Or.inl hmem)))
  have hpx := (h.parent_not_mem (mem_branch.mpr (Or.inl rfl))).symm
  cases k with
  | nil =>
      refine ⟨d, ⟨hfar, hnode'.near, hnode.parent, hyx, top_ne_of_not_mem hnode.ne_nil hux, hpx,
        fun hq => absurd rfl hq, fun hq => absurd rfl hq⟩, fun f hf => nomatch hf⟩
  | cons f k =>
      obtain ⟨hpar, hsib, -⟩ := h.ctx
      rw [top_branch] at hpar
      refine ⟨f.side, ⟨hfar, hnode'.near, hnode.parent, hyx, top_ne_of_not_mem hnode.ne_nil hux,
        hpx, fun _ => hpar.near, fun _ => ?_⟩, fun g hg => ?_⟩
      · have heq : s.rnChild f.side.other (parent s.rbtNil (f :: k)) = top s.rbtNil f.sibling :=
          hpar.far
        rw [heq]
        refine top_ne_of_not_mem hnode.ne_nil fun hmem => ?_
        exact hdisj (mem_branch.mpr (Or.inl rfl))
          (List.mem_cons_of_mem _ (List.mem_append_left _ hmem))
      · rw [Option.some.inj hg]

theorem top_mem_of_ne {nil : ℕ} (h : top nil t ≠ nil) : top nil t ∈ t.toList :=
  top_mem nil fun ht => h (by rw [ht, top_nil])

theorem Placed.rotate_tree {cx cy : RbColor}
    (h : Placed s k (branch d cx t x (branch d cy u y v))) :
    Linked (s.rotate d x) (parent s.rbtNil k) (branch d cy (branch d cx t x u) y v) := by
  obtain ⟨e, hat, -⟩ := h.rotateAt
  obtain ⟨hnode, ht, hinner⟩ := linked_branch.mp h.tree
  obtain ⟨hnode', hu, hv⟩ := linked_branch.mp hinner
  obtain ⟨hnodup, -, -⟩ := (nodup_plug _ _).mp h.nodup
  obtain ⟨⟨hxt, hxi⟩, -, hni, hti⟩ := nodup_branch.mp hnodup
  obtain ⟨⟨hyu, hyv⟩, hnu, -, huv⟩ := nodup_branch.mp hni
  have hnil : (s.rotate d x).rbtNil = s.rbtNil := rotate_rbtNil
  have hyx : y ≠ x := hat.ne
  have hto := d.other_ne
  have hmemu (a : ℕ) (ha : a ∈ u.toList) : a ∈ (branch d cy u y v).toList :=
    mem_branch.mpr (Or.inr (Or.inl ha))
  have hmemv (a : ℕ) (ha : a ∈ v.toList) : a ∈ (branch d cy u y v).toList :=
    mem_branch.mpr (Or.inr (Or.inr ha))
  have hmemy : y ∈ (branch d cy u y v).toList := mem_branch.mpr (Or.inl rfl)
  have hparent (a : ℕ) (ha : a ∈ (branch d cy u y v).toList) : a ≠ parent s.rbtNil k :=
    h.parent_not_mem (mem_branch.mpr (Or.inr (Or.inr ha)))
  have hpx := h.parent_not_mem (mem_branch.mpr (Or.inl rfl))
  have hax (a : ℕ) (ha : a ∈ (branch d cy u y v).toList) : a ≠ x := by
    rintro rfl
    exact hxi ha
  have ht' : Linked (s.rotate d x) x t := by
    refine ht.congr hnil fun a ha => hat.sameAt ?_ (ne_of_disjoint hti ha hmemy)
      (fun hne => ne_of_disjoint hti ha (hmemu _ (top_mem_of_ne hne)))
      (h.parent_not_mem (mem_branch.mpr (Or.inr (Or.inl ha))))
    rintro rfl
    exact hxt ha
  have hu' : Linked (s.rotate d x) x u := by
    have hay (a : ℕ) (ha : a ∈ u.toList) : a ≠ y := by
      rintro rfl
      exact hyu ha
    refine hu.reparent hnil hnu (fun hne => ?_) (fun a ha htop => ?_) (fun a _ => ?_)
      (fun a ha e' => ?_)
    · have htop := top_mem s.rbtNil hne
      rw [hat.rnP, if_neg (hax _ (hmemu _ htop)), if_neg (hay _ htop),
        if_pos ⟨hu.top_ne hne, rfl⟩]
    · exact hat.parent_of_ne (hax a (hmemu a ha)) (hay a ha) fun _ => htop
    · rw [rotate_rnColor]
    · exact hat.child_of_ne (hax a (hmemu a ha)) (hay a ha) (hparent a (hmemu a ha))
  have hv' : Linked (s.rotate d x) y v := by
    refine hv.congr hnil fun a ha => hat.sameAt (hax a (hmemv a ha)) ?_
      (fun hne => (ne_of_disjoint huv (top_mem_of_ne hne) ha).symm) (hparent a (hmemv a ha))
    rintro rfl
    exact hyv ha
  refine linked_branch.mpr ⟨⟨?_, ?_, ?_, ?_, ?_⟩,
    linked_branch.mpr ⟨⟨?_, ?_, ?_, ?_, ?_⟩, ht', hu'⟩, hv'⟩
  · rw [hnil]
    exact hnode'.ne_nil
  · rw [hat.rnP, if_neg hyx, if_pos rfl]
  · rw [rotate_rnColor]
    exact hnode'.color
  · rw [hat.rnChild, if_pos ⟨rfl, rfl⟩, top_branch]
  · rw [hat.rnChild, if_neg fun hand => hto hand.1, if_neg fun hand => hparent y hmemy hand.2.2,
      if_neg fun hand => hyx hand.2, hnil]
    exact hnode'.far
  · rw [hnil]
    exact hnode.ne_nil
  · rw [hat.rnP, if_pos rfl]
  · rw [rotate_rnColor]
    exact hnode.color
  · rw [hat.rnChild, if_neg fun hand => hyx hand.2.symm, if_neg fun hand => hpx hand.2.2,
      if_neg fun hand => hto hand.1.symm, hnil]
    exact hnode.near
  · rw [hat.rnChild, if_neg fun hand => hto hand.1, if_neg fun hand => hpx hand.2.2,
      if_pos ⟨rfl, rfl⟩, hnil]

theorem Placed.rotate_ctx {cx cy : RbColor}
    (h : Placed s k (branch d cx t x (branch d cy u y v))) : CtxLinked (s.rotate d x) y k := by
  obtain ⟨e, hat, hside⟩ := h.rotateAt
  obtain ⟨-, hlabels, hdisj⟩ := (nodup_plug _ _).mp h.nodup
  have hctx := h.ctx
  rw [top_branch] at hctx
  have hinner (a : ℕ) (ha : a = y ∨ a ∈ u.toList) :
      a ∈ (branch d cx t x (branch d cy u y v)).toList :=
    mem_branch.mpr (Or.inr (Or.inr (mem_branch.mpr (ha.imp_right Or.inl))))
  have hx (a : ℕ) (ha : a ∈ labels k) : a ≠ x :=
    (ne_of_disjoint hdisj (mem_branch.mpr (Or.inl rfl)) ha).symm
  have hy (a : ℕ) (ha : a ∈ labels k) : a ≠ y :=
    (ne_of_disjoint hdisj (hinner y (Or.inl rfl)) ha).symm
  refine hctx.rehole rotate_rbtNil hlabels hat.rbtRoot (fun a ha => ?_) (fun a ha => ?_)
    (fun f hf => ?_) (fun a ha hap e' => hat.child_of_ne (hx a ha) (hy a ha) hap)
  · exact hat.parent_of_ne (hx a ha) (hy a ha) fun hne =>
      (ne_of_disjoint hdisj (hinner _ (Or.inr (top_mem_of_ne hne))) ha).symm
  · rw [rotate_rnColor]
  · cases k with
    | nil => exact nomatch hf
    | cons g k =>
        obtain rfl : g = f := Option.some.inj hf
        have hge := hside g hf
        have hgx := hx g.x List.mem_cons_self
        have hgy := hy g.x List.mem_cons_self
        have hgn : parent s.rbtNil (g :: k) ≠ s.rbtNil := h.ctx.1.ne_nil
        constructor
        · rw [hat.rnChild, if_neg fun hand => hgy hand.2, if_pos ⟨hgn, hge, rfl⟩]
        · rw [hat.rnChild, if_neg fun hand => hgy hand.2,
            if_neg fun hand => g.side.other_ne (hand.2.1.trans hge.symm),
            if_neg fun hand => hgx hand.2]

theorem Placed.rotate {cx cy : RbColor}
    (h : Placed s k (branch d cx t x (branch d cy u y v))) :
    Placed (s.rotate d x) k (branch d cy (branch d cx t x u) y v) := by
  obtain ⟨e, hat, -⟩ := h.rotateAt
  obtain ⟨hnode, -, hinner⟩ := linked_branch.mp h.tree
  have hnode' := (linked_branch.mp hinner).1
  have hnil : (s.rotate d x).rbtNil = s.rbtNil := rotate_rbtNil
  refine ⟨?_, ?_, ?_, ?_, ?_⟩
  · rw [hnil]
    exact h.rotate_tree
  · rw [top_branch]
    exact h.rotate_ctx
  · rw [toList_plug_congr (toList_rotate d cx cy cy cx t x u y v).symm]
    exact h.nodup
  · intro e'
    rw [hnil, hat.rnChild, if_neg fun hand => hnode'.ne_nil hand.2.symm,
      if_neg fun hand => hand.1 hand.2.2.symm, if_neg fun hand => hnode.ne_nil hand.2.symm]
    exact h.nilChild e'
  · rw [hnil, rotate_rnColor]
    exact h.nilColor

theorem Placed.rotate_nilP {cx cy : RbColor}
    (h : Placed s k (branch d cx t x (branch d cy u y v))) :
    (s.rotate d x).rnP s.rbtNil = s.rnP s.rbtNil := by
  obtain ⟨e, hat, -⟩ := h.rotateAt
  obtain ⟨hnode, -, hinner⟩ := linked_branch.mp h.tree
  exact hat.parent_of_ne hnode.ne_nil.symm (linked_branch.mp hinner).1.ne_nil.symm Ne.symm

theorem Placed.setColor (h : Placed s k (branch d c t x u)) (c' : RbColor) :
    Placed (s.setColor x c') k (branch d c' t x u) := by
  obtain ⟨hnode, ht, hu⟩ := linked_branch.mp h.tree
  obtain ⟨hnodup, hlabels, hdisj⟩ := (nodup_plug _ _).mp h.nodup
  obtain ⟨⟨hxt, hxu⟩, -, -, -⟩ := nodup_branch.mp hnodup
  have hsame (a : ℕ) (ha : a ≠ x) : SameAt s (s.setColor x c') a :=
    ⟨rfl, by rw [setColor_rnColor, if_neg ha], fun _ => rfl⟩
  have hne {l : List ℕ} (hx : x ∉ l) (a : ℕ) (ha : a ∈ l) : SameAt s (s.setColor x c') a := by
    refine hsame a ?_
    rintro rfl
    exact hx ha
  have hctx := h.ctx
  rw [top_branch] at hctx
  refine ⟨linked_branch.mpr ⟨⟨hnode.ne_nil, hnode.parent, ?_, hnode.near, hnode.far⟩,
    ht.congr setColor_rbtNil (hne hxt), hu.congr setColor_rbtNil (hne hxu)⟩, ?_, ?_,
    h.nilChild, ?_⟩
  · rw [setColor_rnColor, if_pos rfl]
  · rw [top_branch]
    exact hctx.congr setColor_rbtNil setColor_rbtRoot (hne (hdisj (mem_branch.mpr (Or.inl rfl))))
  · rw [toList_plug_congr (u := branch d c t x u) (by rw [toList_branch, toList_branch])]
    exact h.nodup
  · rw [setColor_rbtNil, setColor_rnColor, if_neg hnode.ne_nil.symm]
    exact h.nilColor

/-! ## Reading a placed tree -/

theorem placed_plug : Placed s k t ↔ Placed s [] (plug k t) := by
  induction k generalizing t with
  | nil => exact Iff.rfl
  | cons f k ih => exact placed_cons.trans ih

theorem Placed.parent_eq (h : Placed s k t) (ht : t ≠ .nil) :
    s.rnP (top s.rbtNil t) = parent s.rbtNil k := by
  cases t with
  | nil => exact absurd rfl ht
  | node c l x r => exact h.tree.1.parent

theorem Placed.color_eq (h : Placed s k t) : s.rnColor (top s.rbtNil t) = t.color := by
  cases t with
  | nil => exact h.nilColor
  | node c l x r => exact h.tree.1.color

theorem Placed.frame (h : Placed s (f :: k) t) : NodeAt s (parent s.rbtNil k) f.color f.x
    (top s.rbtNil t) (top s.rbtNil f.sibling) f.side := h.ctx.1

theorem Placed.top_ne_sibling (h : Placed s (f :: k) t) (ht : t ≠ .nil ∨ f.sibling ≠ .nil) :
    top s.rbtNil t ≠ top s.rbtNil f.sibling := by
  have hdisj := ((nodup_plug _ _).mp h.nodup).2.2
  have hsub {a : ℕ} (ha : a ∈ f.sibling.toList) : a ∈ labels (f :: k) :=
    List.mem_cons_of_mem _ (List.mem_append_left _ ha)
  rcases ht with ht | ht
  · exact (top_ne_of_not_mem (h.tree.top_ne ht) fun hmem =>
      hdisj (top_mem s.rbtNil ht) (hsub hmem)).symm
  · exact top_ne_of_not_mem (h.ctx.2.1.top_ne ht) fun hmem =>
      hdisj hmem (hsub (top_mem s.rbtNil ht))

theorem Placed.side_eq (h : Placed s (f :: k) t) (ht : t ≠ .nil ∨ f.sibling ≠ .nil) :
    (if top s.rbtNil t = s.rnChild .left f.x then Side.left else .right) = f.side := by
  have hne := h.top_ne_sibling ht
  have hnode := h.frame
  cases hside : f.side with
  | left =>
      rw [hside] at hnode
      rw [hnode.near, if_pos rfl]
  | right =>
      rw [hside] at hnode
      have hfar := hnode.far
      rw [Side.other] at hfar
      rw [hfar, if_neg hne]

theorem Placed.child_other_iff (h : Placed s (f :: k) t)
    (ht : t ≠ .nil ∨ f.sibling ≠ .nil) :
    top s.rbtNil t = s.rnChild d.other f.x ↔ f.side = d.other := by
  have hne := h.top_ne_sibling ht
  have hnode := h.frame
  rcases Side.eq_or_eq_other d f.side with hd | hd
  · have hfar := hnode.far
    rw [hd] at hfar
    rw [hfar, hd]
    exact iff_of_false hne d.other_ne.symm
  · have hnear := hnode.near
    rw [hd] at hnear
    rw [hnear, hd]
    exact iff_of_true rfl rfl

theorem CtxLinked.root_mem (h : CtxLinked s hole (f :: k)) :
    s.rbtRoot ∈ labels (f :: k) ∧ s.rbtRoot ≠ s.rbtNil := by
  induction k generalizing f hole with
  | nil =>
      rw [show s.rbtRoot = f.x from h.2.2]
      exact ⟨List.mem_cons_self, h.1.ne_nil⟩
  | cons g k ih =>
      obtain ⟨hmem, hne⟩ := ih h.2.2
      exact ⟨List.mem_cons_of_mem _ (List.mem_append_right _ hmem), hne⟩

theorem Placed.root_eq_iff (h : Placed s k t) : top s.rbtNil t = s.rbtRoot ↔ k = [] := by
  cases k with
  | nil => exact iff_of_true (Eq.symm h.ctx) rfl
  | cons f k =>
      obtain ⟨hmem, hne⟩ := h.ctx.root_mem
      have hdisj := ((nodup_plug _ _).mp h.nodup).2.2
      refine iff_of_false (fun heq => ?_) (List.cons_ne_nil _ _)
      rw [← heq] at hmem hne
      exact hdisj (top_mem_of_ne hne) hmem

structure SameRest (s s' : Rbt K) : Prop where
  key : s'.rnKey = s.rnKey
  nil : s'.rbtNil = s.rbtNil
  nelems : s'.rbtNelems = s.rbtNelems

theorem SameRest.refl (s : Rbt K) : SameRest s s := ⟨rfl, rfl, rfl⟩

theorem SameRest.trans {s'' : Rbt K} (h : SameRest s s') (h' : SameRest s' s'') :
    SameRest s s'' :=
  ⟨h'.key.trans h.key, h'.nil.trans h.nil, h'.nelems.trans h.nelems⟩

theorem sameRest_setColor (s : Rbt K) (x : ℕ) (c : RbColor) : SameRest s (s.setColor x c) :=
  ⟨rfl, rfl, rfl⟩

theorem sameRest_rotate (s : Rbt K) (d : Side) (x : ℕ) : SameRest s (s.rotate d x) := by
  refine ⟨rotate_rnKey, rotate_rbtNil, ?_⟩
  unfold rotate replaceChild adopt
  dsimp only
  split_ifs <;> rfl

end Rbt

end SolidDB
