import SolidDB.Su.RbtPlaced

/-!
# Insertion into the red-black tree

The loop of `rb_insert` moves a red node with a red parent up the tree until the parent is
black or the root is reached.
-/

namespace SolidDB

namespace Rbt

open RbTree

variable {K : Type*} {s s' : Rbt K} {d e : Side} {c : RbColor} {t u v w : RbTree ℕ}
  {k : List (Frame ℕ)} {f : Frame ℕ} {a b x y p q n : ℕ}

/-! ## The cases of a round -/

theorem Placed.uncle_red {c₁ c₂ : RbColor} {u₁ u₂ : RbTree ℕ}
    (h : Placed s (⟨e, c₁, p, w⟩ :: ⟨d, c₂, q, branch d c u₁ y u₂⟩ :: k) t) :
    Placed (((s.setColor p .black).setColor y .black).setColor q .red) k
      (branch d .red (branch e .black t p w) q (branch d .black u₁ y u₂)) := by
  have hparent := (placed_branch.mpr h).setColor .black
  have huncle := (placed_branch_far.mp (placed_branch.mpr hparent)).setColor .black
  exact (placed_branch_far.mpr huncle).setColor .red

theorem Placed.outer {c₁ c₂ : RbColor} (h : Placed s (⟨d, c₁, p, w⟩ :: ⟨d, c₂, q, u⟩ :: k) t) :
    Placed (((s.setColor p .black).setColor q .red).rotate d.other q)
      (⟨d, .black, p, branch d .red w q u⟩ :: k) t := by
  have hparent := (placed_branch.mpr h).setColor .black
  have hgrand : Placed ((s.setColor p .black).setColor q .red) k
      (branch d .red (branch d .black t p w) q u) := (placed_branch.mpr hparent).setColor .red
  rw [← branch_other d .red u q, ← branch_other d .black w p t] at hgrand
  have hrotate := hgrand.rotate
  rw [branch_other, branch_other] at hrotate
  exact placed_branch.mp hrotate

theorem Placed.inner {c₁ c₂ : RbColor}
    (h : Placed s (⟨d.other, c₁, p, w⟩ :: k) (branch d c₂ u x v)) :
    Placed (s.rotate d p) (⟨d, c₂, x, v⟩ :: k) (branch d c₁ w p u) := by
  have hup := placed_branch.mpr h
  rw [branch_other] at hup
  exact placed_branch.mp hup.rotate

/-- The parent of a red subtree is red, so there is a black grandparent. -/
theorem exists_grandparent (hctx : CtxRb (f :: k) n) (hred : f.color = .red) :
    ∃ d q u k', k = ⟨d, .black, q, u⟩ :: k' ∧ f.sibling.color = .black ∧ f.sibling.IsRb n ∧
      u.IsRb n ∧ CtxRb k' (n + 1) := by
  obtain ⟨e, c, p, w⟩ := f
  obtain rfl : c = .red := hred
  obtain ⟨⟨hw, hacc⟩, hrb, hctx⟩ := hctx
  cases k with
  | nil => exact hacc.elim
  | cons g k =>
      obtain ⟨d, c, q, u⟩ := g
      obtain rfl : c = .black := hacc
      exact ⟨d, q, u, k, rfl, hw, hrb, hctx.1, hctx.2⟩

/-- The end of the loop: a tree with the same nodes in the same order that is red-black when
its root is painted black. -/
structure InsertDone (s s' : Rbt K) (l : List ℕ) (t : RbTree ℕ) : Prop where
  placed : Placed s' [] t
  toList_eq : t.toList = l
  redBlack : (t.paint .black).RedBlack
  ne_nil : t ≠ .nil
  rest : SameRest s s'

theorem insertDone_of_black (h : Placed s k t) (ht : t ≠ .nil) (hrb : t.IsRb n)
    (hctx : CtxRb k n) (hacc : AcceptsRed k) : InsertDone s s (plug k t).toList (plug k t) := by
  have hshape : (plug k t).RedBlack := (redBlack_plug_iff k t).mpr ⟨n, hrb, hctx, fun _ => hacc⟩
  refine ⟨placed_plug.mp h, rfl, ?_, ?_, SameRest.refl s⟩
  · have hpaint := paint_color (plug k t)
    rw [hshape.1] at hpaint
    rw [hpaint]
    exact hshape
  · intro hnil
    have hmem := (perm_plug k t).mem_iff (a := top 0 t)
    rw [hnil] at hmem
    exact List.not_mem_nil (hmem.mpr (List.mem_append_left _ (top_mem 0 ht)))

theorem InsertDone.of_rest {l : List ℕ} {s'' : Rbt K} (hrest : SameRest s s')
    (h : InsertDone s' s'' l t) : InsertDone s s'' l t :=
  ⟨h.placed, h.toList_eq, h.redBlack, h.ne_nil, hrest.trans h.rest⟩

theorem rbInsertLoop_of_black {fuel : ℕ} (h : Placed s (f :: k) t) (ht : t ≠ .nil)
    (hblack : f.color = .black) : rbInsertLoop (fuel + 1) (top s.rbtNil t) s = some s := by
  have hp := h.parent_eq ht
  have hcolor := h.frame.color
  rw [rbInsertLoop, if_neg]
  rintro ⟨-, hred⟩
  rw [hp, show parent s.rbtNil (f :: k) = f.x from rfl, hcolor, hblack] at hred
  exact RbColor.noConfusion hred

structure InsertReads (s : Rbt K) (d : Side) (x p q y : ℕ) : Prop where
  again : x ≠ s.rbtRoot ∧ s.rnColor (s.rnP x) = .red
  parent : s.rnP x = p
  grand : s.rnP p = q
  side : s.parentSide x = d
  uncle : s.rnChild d.other q = y

theorem Placed.insertReads {w u : RbTree ℕ}
    (h : Placed s (⟨e, .red, p, w⟩ :: ⟨d, c, q, u⟩ :: k) t) (ht : t ≠ .nil) :
    InsertReads s d (top s.rbtNil t) p q (top s.rbtNil u) := by
  have hup := placed_cons.mp h
  have hne : Frame.fill ⟨e, .red, p, w⟩ t ≠ .nil := branch_ne_nil
  have hp : s.rnP (top s.rbtNil t) = p := h.parent_eq ht
  have htop : top s.rbtNil (Frame.fill ⟨e, .red, p, w⟩ t) = p := top_branch _
  have hq := hup.parent_eq hne
  have hside := hup.side_eq (Or.inl hne)
  rw [htop] at hq hside
  refine ⟨⟨fun hroot => ?_, ?_⟩, hp, hq, ?_, hup.frame.far⟩
  · exact List.cons_ne_nil _ _ (h.root_eq_iff.mp hroot)
  · rw [hp]
    exact h.frame.color
  · rw [parentSide, hp, hq]
    exact hside

theorem rbInsertLoop_outer (fuel : ℕ)
    (h : Placed s (⟨d, .red, p, w⟩ :: ⟨d, .black, q, u⟩ :: k) t) (ht : t ≠ .nil)
    (hrb : t.IsRb n) (hw : w.color = .black ∧ w.IsRb n) (hu : u.color = .black ∧ u.IsRb n)
    (hctx : CtxRb k (n + 1)) :
    ∃ s' t', rbInsertLoop (fuel + 1) (top s.rbtNil t)
        (((s.setColor p .black).setColor q .red).rotate d.other q) = some s' ∧
      InsertDone s s' (plug k (branch d .black (branch d .red t p w) q u)).toList t' := by
  have houter := h.outer
  have hshape : CtxRb (⟨d, .black, p, branch d .red w q u⟩ :: k) n :=
    ⟨isRb_branch_red.mpr ⟨⟨hw.1, hu.1⟩, hw.2, hu.2⟩, hctx⟩
  have hloop : rbInsertLoop (fuel + 1) _ _ = _ := rbInsertLoop_of_black houter ht rfl
  have hdone := insertDone_of_black houter ht hrb hshape rfl
  have hrest := ((sameRest_setColor s p .black).trans (sameRest_setColor _ q .red)).trans
    (sameRest_rotate _ d.other q)
  rw [hrest.nil] at hloop
  have hplug : (plug (⟨d, .black, p, branch d .red w q u⟩ :: k) t).toList =
      (plug k (branch d .black (branch d .red t p w) q u)).toList :=
    toList_plug_congr (toList_rotate d _ _ _ _ t p w q u) k
  rw [hplug] at hdone
  exact ⟨_, _, hloop, hdone.of_rest hrest⟩

/-- The rounds of `rb_insert`. -/
theorem rbInsertLoop_done {fuel : ℕ} (h : Placed s k t) (hred : t.color = .red) (hrb : t.IsRb n)
    (hctx : CtxRb k n) (hfuel : k.length + 1 < fuel) :
    ∃ s' t', rbInsertLoop fuel (top s.rbtNil t) s = some s' ∧
      InsertDone s s' (plug k t).toList t' := by
  induction fuel generalizing s k t n with
  | zero => exact absurd hfuel (Nat.not_lt_zero _)
  | succ fuel ih =>
      have ht : t ≠ .nil := by
        rintro rfl
        exact RbColor.noConfusion hred
      cases k with
      | nil =>
          have hroot := h.root_eq_iff.mpr rfl
          refine ⟨s, t, ?_, h, rfl, ⟨?_, n + 1, isRb_paint_black hrb hred⟩, ht, SameRest.refl s⟩
          · rw [rbInsertLoop, if_neg fun hand => hand.1 hroot]
          · cases t with
            | nil => exact absurd rfl ht
            | node c l x r => rfl
      | cons f k =>
          by_cases hblack : f.color = .black
          · exact ⟨s, _, rbInsertLoop_of_black h ht hblack,
              insertDone_of_black h ht hrb hctx hblack⟩
          obtain ⟨e, c, p, w⟩ := f
          obtain rfl : c = .red := by
            by_contra hne
            exact hblack ((RbColor.ne_red_iff _).mp hne)
          obtain ⟨d, q, u, k, rfl, hw, hwrb, hurb, hctx'⟩ := exists_grandparent hctx rfl
          have hreads := h.insertReads ht
          rw [List.length_cons, List.length_cons] at hfuel
          have hucolor : s.rnColor (top s.rbtNil u) = u.color :=
            (placed_branch_far.mp (placed_branch.mpr (placed_branch.mpr h))).color_eq
          rw [rbInsertLoop, if_pos hreads.again]
          simp only [hreads.parent, hreads.grand, hreads.side, hreads.uncle, hucolor]
          by_cases hu : u.color = .red
          · -- the red node moves up to the grandparent
            have hune : u ≠ .nil := by
              rintro rfl
              exact RbColor.noConfusion hu
            obtain ⟨cu, u₁, y, u₂, rfl⟩ := eq_branch d hune
            rw [color_branch] at hu
            subst hu
            have hstep := h.uncle_red
            have hblackUncle : (branch d .black u₁ y u₂).IsRb (n + 1) := by
              have hpaint := isRb_paint_black hurb color_branch
              rwa [paint_branch] at hpaint
            have hrest := ((sameRest_setColor s p .black).trans
              (sameRest_setColor _ y .black)).trans (sameRest_setColor _ q .red)
            obtain ⟨s', t', hloop, hdone⟩ := ih (n := n + 1) hstep color_branch
              (isRb_branch_red.mpr ⟨⟨color_branch, color_branch⟩,
                isRb_branch_black.mpr ⟨hrb, hwrb⟩, hblackUncle⟩) hctx' (by omega)
            refine ⟨s', t', ?_, ?_⟩
            · rw [top_branch] at hloop
              simp only [color_branch, if_true, setColor_rnP, hreads.parent, hreads.grand,
                top_branch]
              exact hloop
            · have hlist : (plug k (branch d .red (branch e .black t p w) q
                  (branch d .black u₁ y u₂))).toList =
                  (plug (⟨e, .red, p, w⟩ :: ⟨d, .black, q, branch d .red u₁ y u₂⟩ :: k)
                    t).toList := by
                refine toList_plug_congr ?_ k
                rw [Frame.fill, Frame.fill, toList_branch, toList_branch, toList_branch,
                  toList_branch, toList_branch, toList_branch]
              rw [← hlist]
              exact hdone.of_rest hrest
          · rw [if_neg hu]
            have hub := (RbColor.ne_red_iff _).mp hu
            rcases Side.eq_or_eq_other d e with rfl | rfl
            · -- an outer grandchild
              have houter := h.child_other_iff (d := e) (Or.inl ht)
              have hnot : ¬ top s.rbtNil t = s.rnChild e.other p := fun heq =>
                e.other_ne (houter.mp heq).symm
              obtain ⟨fuel, rfl⟩ : ∃ m, fuel = m + 1 := ⟨fuel - 1, by omega⟩
              obtain ⟨s', t', hloop, hdone⟩ := rbInsertLoop_outer fuel h ht hrb
                ⟨hw, hwrb⟩ ⟨hub, hurb⟩ hctx'
              refine ⟨s', t', ?_, hdone⟩
              simp only [hnot, if_false, setColor_rnP, hreads.parent, hreads.grand]
              exact hloop
            · -- an inner grandchild comes above its parent first
              have hyes : top s.rbtNil t = s.rnChild d.other p :=
                (h.child_other_iff (Or.inl ht)).mpr rfl
              obtain ⟨ct, t₁, x, t₂, rfl⟩ := eq_branch d ht
              rw [color_branch] at hred
              subst hred
              obtain ⟨⟨ht₁, ht₂⟩, hrb₁, hrb₂⟩ := isRb_branch_red.mp hrb
              have hinner := h.inner
              have hreads' := hinner.insertReads branch_ne_nil
              rw [top_branch] at hreads'
              obtain ⟨fuel, rfl⟩ : ∃ m, fuel = m + 1 := ⟨fuel - 1, by omega⟩
              obtain ⟨s', t', hloop, hdone⟩ := rbInsertLoop_outer fuel hinner
                branch_ne_nil (isRb_branch_red.mpr ⟨⟨hw, ht₁⟩, hwrb, hrb₁⟩) ⟨ht₂, hrb₂⟩
                ⟨hub, hurb⟩ hctx'
              have hrest := sameRest_rotate s d p
              rw [top_branch] at hloop hyes
              refine ⟨s', t', ?_, ?_⟩
              · simp only [top_branch, hyes.symm, if_true, setColor_rnP, hreads'.parent,
                  hreads'.grand]
                exact hloop
              · have hlist : (plug k (branch d .black
                    (branch d .red (branch d .red w p t₁) x t₂) q u)).toList =
                    (plug (⟨d.other, .red, p, w⟩ :: ⟨d, .black, q, u⟩ :: k)
                      (branch d .red t₁ x t₂)).toList := by
                  refine toList_plug_congr ?_ k
                  rw [Frame.fill, Frame.fill, branch_other, toList_branch, toList_branch d .black,
                    toList_rotate d .red .red .red .red]
                rw [← hlist]
                exact hdone.of_rest hrest

/-! ## The place of a new node -/

/-- The comparison with a key along the labels: first the keys below it, at most one equal key
and then the keys above it. -/
def Cut (cmp : ℕ → ℤ) (l : List ℕ) : Prop := l.Pairwise fun a b => cmp a ≤ 0 → cmp b < 0

structure Between (cmp : ℕ → ℤ) (k : List (Frame ℕ)) : Prop where
  before : ∀ a ∈ before k, 0 < cmp a
  after : ∀ a ∈ after k, cmp a < 0

theorem between_nil (cmp : ℕ → ℤ) : Between cmp [] :=
  ⟨fun _ h => absurd h List.not_mem_nil, fun _ h => absurd h List.not_mem_nil⟩

theorem Between.step {cmp : ℕ → ℤ} {l r : RbTree ℕ} (h : Between cmp k)
    (hcut : Cut cmp (plug k (.node c l x r)).toList) (hx : cmp x ≠ 0) :
    (sideOf (cmp x) = .left ∧ Between cmp (⟨.left, c, x, r⟩ :: k) ∧
      ∀ a ∈ r.toList, cmp a < 0) ∨
    (sideOf (cmp x) = .right ∧ Between cmp (⟨.right, c, x, l⟩ :: k) ∧
      ∀ a ∈ l.toList, 0 < cmp a) := by
  rw [Cut, toList_plug] at hcut
  have hnode := (List.pairwise_append.mp (List.pairwise_append.mp hcut).1).2.1
  obtain ⟨-, hcons, hleft⟩ := List.pairwise_append.mp hnode
  rw [sideOf]
  by_cases hneg : cmp x < 0
  · have hr (a : ℕ) (ha : a ∈ r.toList) : cmp a < 0 :=
      (List.pairwise_cons.mp hcons).1 a ha hneg.le
    refine Or.inl ⟨if_pos hneg, ⟨h.before, fun a ha => ?_⟩, hr⟩
    rcases List.mem_append.mp ha with hin | hin
    · rcases List.mem_cons.mp hin with rfl | hin
      · exact hneg
      · exact hr a hin
    · exact h.after a hin
  · have hl (a : ℕ) (ha : a ∈ l.toList) : 0 < cmp a := by
      by_contra hle
      exact hneg (hleft a ha x List.mem_cons_self (not_lt.mp hle))
    refine Or.inr ⟨if_neg hneg, ⟨fun a ha => ?_, h.after⟩, hl⟩
    rcases List.mem_append.mp ha with hin | hin
    · exact h.before a hin
    · rcases List.mem_append.mp hin with hin | hin
      · exact hl a hin
      · rw [List.mem_singleton.mp hin]
        exact lt_of_le_of_ne (not_lt.mp hneg) hx.symm

theorem Placed.node_reads {l r : RbTree ℕ} (h : Placed s k (.node c l x r)) :
    x ≠ s.rbtNil ∧ s.rnChild .left x = top s.rbtNil l ∧ s.rnChild .right x = top s.rbtNil r :=
  ⟨h.tree.1.ne_nil, h.tree.1.near, h.tree.1.far⟩

theorem length_toList_node {l r : RbTree ℕ} : (RbTree.node c l x r).toList.length =
    l.toList.length + r.toList.length + 1 := by
  rw [toList, List.length_append, List.length_cons, Nat.add_assoc]

/-- The loop of `tree_insert` finds an equal key or the place of the new node. -/
theorem treeInsertLoop_spec {cmp : K → ℤ} {fuel : ℕ} (h : Placed s k t)
    (hcut : Cut (cmp ∘ s.rnKey) (plug k t).toList) (hbetween : Between (cmp ∘ s.rnKey) k)
    (hfuel : t.toList.length < fuel) :
    (treeInsertLoop cmp s fuel (parent s.rbtNil k) (top s.rbtNil t) = some none ∧
      ∃ a ∈ t.toList, cmp (s.rnKey a) = 0) ∨
    ((∀ a ∈ t.toList, cmp (s.rnKey a) ≠ 0) ∧ ∃ k', Placed s k' .nil ∧ plug k' .nil = plug k t ∧
      treeInsertLoop cmp s fuel (parent s.rbtNil k) (top s.rbtNil t) =
        some (some (parent s.rbtNil k')) ∧ Between (cmp ∘ s.rnKey) k') := by
  induction t generalizing k fuel with
  | nil =>
      obtain ⟨fuel, rfl⟩ : ∃ m, fuel = m + 1 := ⟨fuel - 1, by omega⟩
      refine Or.inr ⟨fun a ha => absurd ha List.not_mem_nil, k, h, rfl, ?_, hbetween⟩
      rw [treeInsertLoop, top_nil, if_neg (not_not.mpr rfl)]
  | node c l x r ihl ihr =>
      obtain ⟨fuel, rfl⟩ : ∃ m, fuel = m + 1 := ⟨fuel - 1, by omega⟩
      obtain ⟨hne, hl, hr⟩ := h.node_reads
      rw [length_toList_node] at hfuel
      have hmem (a : ℕ) : a ∈ (RbTree.node c l x r).toList ↔
          a = x ∨ a ∈ l.toList ∨ a ∈ r.toList := mem_branch (d := .left)
      rw [treeInsertLoop, show top s.rbtNil (.node c l x r) = x from rfl, if_pos hne]
      by_cases hzero : cmp (s.rnKey x) = 0
      · rw [if_pos hzero]
        exact Or.inl ⟨rfl, x, (hmem x).mpr (Or.inl rfl), hzero⟩
      · rw [if_neg hzero]
        rcases hbetween.step hcut hzero with ⟨hside, hstep, hfar⟩ | ⟨hside, hstep, hfar⟩
        · rw [show sideOf (cmp (s.rnKey x)) = .left from hside, hl]
          rcases ihl (placed_branch (d := .left).mp h) hcut hstep
            (show _ < fuel by omega)
            with ⟨hloop, a, ha, heq⟩ | ⟨hall, k', hplaced, hplug, hloop, hbet⟩
          · exact Or.inl ⟨hloop, a, (hmem a).mpr (Or.inr (Or.inl ha)), heq⟩
          · refine Or.inr ⟨fun a ha => ?_, k', hplaced, hplug, hloop, hbet⟩
            rcases (hmem a).mp ha with rfl | hin | hin
            · exact hzero
            · exact hall a hin
            · exact (hfar a hin).ne
        · rw [show sideOf (cmp (s.rnKey x)) = .right from hside, hr]
          rcases ihr (placed_branch (d := .right).mp h) hcut hstep
            (show _ < fuel by omega)
            with ⟨hloop, a, ha, heq⟩ | ⟨hall, k', hplaced, hplug, hloop, hbet⟩
          · exact Or.inl ⟨hloop, a, (hmem a).mpr (Or.inr (Or.inr ha)), heq⟩
          · refine Or.inr ⟨fun a ha => ?_, k', hplaced, hplug, hloop, hbet⟩
            rcases (hmem a).mp ha with rfl | hin | hin
            · exact hzero
            · exact (hfar a hin).ne'
            · exact hall a hin

/-! ## The new node -/

theorem Placed.congr (h : Placed s k t) (hnil : s'.rbtNil = s.rbtNil)
    (hroot : s'.rbtRoot = s.rbtRoot) (hsame : ∀ a ∈ (plug k t).toList, SameAt s s' a)
    (hsent : SameAt s s' s.rbtNil) : Placed s' k t := by
  have hperm := perm_plug k t
  refine ⟨?_, ?_, h.nodup, fun d => ?_, ?_⟩
  · rw [hnil]
    exact h.tree.congr hnil fun a ha => hsame a
      (hperm.mem_iff.mpr (List.mem_append_left _ ha))
  · rw [hnil]
    exact h.ctx.congr hnil hroot fun a ha => hsame a
      (hperm.mem_iff.mpr (List.mem_append_right _ ha))
  · rw [hnil, hsent.child]
    exact h.nilChild d
  · rw [hnil, hsent.color]
    exact h.nilColor

def attach (z : ℕ) (k : List (Frame ℕ)) (s : Rbt K) : Rbt K :=
  let s := s.setP z (parent s.rbtNil k)
  match k with
  | [] => s.setRoot z
  | f :: _ => s.setChild f.side f.x z

theorem sameRest_attach (s : Rbt K) (z : ℕ) (k : List (Frame ℕ)) :
    SameRest s (s.attach z k) := by
  cases k with
  | nil => exact ⟨rfl, rfl, rfl⟩
  | cons f k => exact ⟨rfl, rfl, rfl⟩

theorem Placed.attach {z : ℕ} (h : Placed s k .nil) (hz : z ≠ s.rbtNil) (hmem : z ∉ labels k)
    (hchild : ∀ d, s.rnChild d z = s.rbtNil) :
    Placed ((s.attach z k).setColor z .red) k (branch .left .red .nil z .nil) := by
  obtain ⟨-, hlabels, -⟩ := (nodup_plug _ _).mp h.nodup
  have hne (a : ℕ) (ha : a ∈ labels k) : a ≠ z := by
    rintro rfl
    exact hmem ha
  have hsent := hz.symm
  have hnodup : (plug k (branch .left .red .nil z .nil)).toList.Nodup := by
    rw [nodup_plug]
    refine ⟨List.nodup_singleton z, hlabels, fun a ha hin => ?_⟩
    rw [List.mem_singleton.mp ha] at hin
    exact hmem hin
  cases k with
  | nil =>
      refine ⟨linked_branch.mpr ⟨⟨hz, ?_, ?_, hchild .left, hchild .right⟩, trivial, trivial⟩,
        rfl, hnodup, h.nilChild, ?_⟩
      · exact if_pos rfl
      · exact if_pos rfl
      · exact (if_neg hsent).trans h.nilColor
  | cons f k =>
      obtain ⟨hnode, hsib, hctx⟩ := h.ctx
      obtain ⟨hfx, -⟩ := List.nodup_cons.mp hlabels
      have hfz : f.x ≠ z := hne f.x List.mem_cons_self
      have hsame (a : ℕ) (ha : a ∈ f.sibling.toList ++ labels k) :
          SameAt s ((s.attach z (f :: k)).setColor z .red) a := by
        have haz := hne a (List.mem_cons_of_mem _ ha)
        have hax : a ≠ f.x := by
          rintro rfl
          exact hfx ha
        exact ⟨if_neg haz, if_neg haz, fun d => if_neg fun hand => hax hand.2⟩
      refine ⟨linked_branch.mpr ⟨⟨hz, ?_, ?_, ?_, ?_⟩, trivial, trivial⟩,
        ⟨⟨?_, ?_, ?_, ?_, ?_⟩, ?_, ?_⟩, hnodup, fun d => ?_, ?_⟩
      · exact if_pos rfl
      · exact if_pos rfl
      · exact (if_neg fun hand => hfz hand.2.symm).trans (hchild .left)
      · exact (if_neg fun hand => hfz hand.2.symm).trans (hchild .right)
      · exact hnode.ne_nil
      · exact (if_neg hfz).trans hnode.parent
      · exact (if_neg hfz).trans hnode.color
      · exact if_pos ⟨rfl, rfl⟩
      · exact (if_neg fun hand => f.side.other_ne hand.1).trans hnode.far
      · exact Linked.congr (s := s) rfl (fun a ha => hsame a (List.mem_append_left _ ha)) hsib
      · exact CtxLinked.congr (s := s) rfl rfl
          (fun a ha => hsame a (List.mem_append_right _ ha)) hctx
      · exact (if_neg fun hand => hnode.ne_nil hand.2.symm).trans (h.nilChild d)
      · exact (if_neg hsent).trans h.nilColor

/-! ## Ordered trees -/

/-- A total order of the keys; keys with the comparison 0 are equal. -/
structure TotalCompare (icompare : K → K → ℤ) : Prop where
  swap : ∀ a b, 0 < icompare a b ↔ icompare b a < 0
  trans : ∀ a b c, icompare a b ≤ 0 → icompare b c ≤ 0 → icompare a c ≤ 0

theorem TotalCompare.lt_of_le_of_lt {icompare : K → K → ℤ} (h : TotalCompare icompare) {a b c : K}
    (hab : icompare a b ≤ 0) (hbc : icompare b c < 0) : icompare a c < 0 := by
  by_contra hge
  have hca : icompare c a ≤ 0 := not_lt.mp fun hlt => hge ((h.swap c a).mp hlt)
  have hcb := h.trans c a b hca hab
  exact absurd ((h.swap c b).mpr hbc) (not_lt.mpr hcb)

structure IsTree (icompare : K → K → ℤ) (s : Rbt K) (t : RbTree ℕ) : Prop where
  placed : Placed s [] t
  redBlack : t.RedBlack
  ordered : t.toList.Pairwise fun a b => icompare (s.rnKey a) (s.rnKey b) < 0
  nelems : s.rbtNelems = t.toList.length

theorem IsTree.cut {icompare : K → K → ℤ} (hcmp : TotalCompare icompare)
    (h : IsTree icompare s t) (key : K) : Cut (icompare key ∘ s.rnKey) t.toList :=
  h.ordered.imp fun hab hle => hcmp.lt_of_le_of_lt hle hab

theorem treeInsert_spec {icompare : K → K → ℤ} {z fuel : ℕ} (h : Placed s [] t)
    (hcut : Cut (icompare (s.rnKey z) ∘ s.rnKey) t.toList) (hfuel : t.toList.length < fuel) :
    (s.treeInsert icompare fuel z = some none ∧
      ∃ a ∈ t.toList, icompare (s.rnKey z) (s.rnKey a) = 0) ∨
    ((∀ a ∈ t.toList, icompare (s.rnKey z) (s.rnKey a) ≠ 0) ∧ ∃ k, Placed s k .nil ∧
      plug k .nil = t ∧ s.treeInsert icompare fuel z = some (some (s.attach z k)) ∧
      Between (icompare (s.rnKey z) ∘ s.rnKey) k) := by
  have hroot : s.rbtRoot = top s.rbtNil t := h.ctx
  rw [treeInsert, hroot]
  rcases treeInsertLoop_spec h hcut (between_nil _)
    hfuel with ⟨hloop, heq⟩ | ⟨hall, k, hplaced, hplug, hloop, hbet⟩
  · rw [show parent s.rbtNil [] = s.rbtNil from rfl] at hloop
    rw [hloop]
    exact Or.inl ⟨rfl, heq⟩
  · rw [show parent s.rbtNil [] = s.rbtNil from rfl] at hloop
    rw [hloop]
    refine Or.inr ⟨hall, k, hplaced, hplug, ?_, hbet⟩
    cases k with
    | nil => exact if_pos rfl
    | cons f k =>
        have hne : parent s.rbtNil (f :: k) ≠ s.rbtNil := hplaced.frame.ne_nil
        have hmem : f.x ∈ t.toList := by
          rw [← show plug (f :: k) .nil = t from hplug]
          exact (perm_plug _ _).mem_iff.mpr (List.mem_append_right _ List.mem_cons_self)
        have hside : sideOf (icompare (s.rnKey z) (s.rnKey f.x)) = f.side := by
          rw [sideOf]
          cases hf : f.side with
          | left =>
              refine if_pos (hbet.after f.x ?_)
              rw [after, hf]
              exact List.mem_append_left _ List.mem_cons_self
          | right =>
              refine if_neg (not_lt.mpr (hbet.before f.x ?_).le)
              rw [before, hf]
              exact List.mem_append_right _ (List.mem_append_right _ (List.mem_singleton.mpr rfl))
        refine (if_neg hne).trans ((if_neg (hall f.x hmem)).trans ?_)
        exact congrArg (fun d => some (some ((s.setP z f.x).setChild d f.x z))) hside

theorem rbInsert_spec {icompare : K → K → ℤ} {z fuel : ℕ} (h : Placed s [] t)
    (hrb : t.RedBlack) (hcut : Cut (icompare (s.rnKey z) ∘ s.rnKey) t.toList)
    (hfuel : t.toList.length + 1 < fuel) (hz : z ∉ t.toList) (hnil : z ≠ s.rbtNil)
    (hchild : ∀ d, s.rnChild d z = s.rbtNil) :
    (s.rbInsert icompare fuel z = some none ∧
      ∃ a ∈ t.toList, icompare (s.rnKey z) (s.rnKey a) = 0) ∨
    ((∀ a ∈ t.toList, icompare (s.rnKey z) (s.rnKey a) ≠ 0) ∧ ∃ s' t' l₁ l₂,
      s.rbInsert icompare fuel z = some (some s') ∧ Placed s' [] t' ∧ t'.RedBlack ∧
      SameRest s s' ∧ t.toList = l₁ ++ l₂ ∧ t'.toList = l₁ ++ z :: l₂ ∧
      (∀ a ∈ l₁, 0 < icompare (s.rnKey z) (s.rnKey a)) ∧
      ∀ a ∈ l₂, icompare (s.rnKey z) (s.rnKey a) < 0) := by
  rw [rbInsert]
  rcases treeInsert_spec h hcut (Nat.lt_of_succ_lt hfuel) with
    ⟨hinsert, heq⟩ | ⟨hall, k, hplaced, hplug, hinsert, hbet⟩
  · rw [hinsert]
    exact Or.inl ⟨rfl, heq⟩
  · have hlist := toList_plug k .nil
    rw [hplug, toList_nil, List.append_nil] at hlist
    have hlabels := (perm_plug k .nil)
    rw [hplug, toList_nil, List.nil_append] at hlabels
    have hlength := length_le_labels k
    rw [← hlabels.length_eq] at hlength
    have hrb' := hrb
    rw [show t = plug k .nil from hplug.symm] at hrb'
    obtain ⟨n, rfl, hctx, -⟩ := (redBlack_plug_iff k .nil).mp hrb'
    have hattach := hplaced.attach hnil (fun hmem => hz (hlabels.mem_iff.mpr hmem)) hchild
    obtain ⟨s', t', hloop, hdone⟩ := rbInsertLoop_done hattach color_branch
      (isRb_branch_red.mpr ⟨⟨rfl, rfl⟩, rfl, rfl⟩) hctx (show _ < fuel by omega)
    rw [top_branch] at hloop
    have hnew : t'.toList = before k ++ z :: after k := by
      rw [hdone.toList_eq, toList_plug]
      exact List.append_assoc _ _ _
    have hroot : s'.rbtRoot = top s'.rbtNil t' := hdone.placed.ctx
    obtain ⟨c, l, x, r, rfl⟩ := eq_branch .left hdone.ne_nil
    have hfinal := hdone.placed.setColor .black
    rw [top_branch] at hroot
    refine Or.inr ⟨hall, s'.setColor x .black, branch .left .black l x r, before k, after k, ?_,
      hfinal, hdone.redBlack, ?_, hlist, hnew, hbet.before, hbet.after⟩
    · rw [hinsert, Option.bind_some]
      simp only [hloop, Option.map_some, hroot]
    · exact ((sameRest_attach s z k).trans (sameRest_setColor _ z .red)).trans
        (hdone.rest.trans (sameRest_setColor s' x .black))

def newNode (x : ℕ) (key : K) (s : Rbt K) : Rbt K :=
  let s : Rbt K := { s with rnKey := fun a => if a = x then key else s.rnKey a }
  (s.setChild .left x s.rbtNil).setChild .right x s.rbtNil

theorem newNode_child {key : K} : (s.newNode x key).rnChild d x = s.rbtNil := by
  cases d with
  | left =>
      rw [newNode, setChild_rnChild, if_neg fun h => Side.noConfusion h.1]
      exact if_pos ⟨rfl, rfl⟩
  | right => exact if_pos ⟨rfl, rfl⟩

theorem sameAt_newNode {key : K} (ha : a ≠ x) : SameAt s (s.newNode x key) a :=
  ⟨rfl, rfl, fun _ => (if_neg fun h => ha h.2).trans (if_neg fun h => ha h.2)⟩

theorem pairwise_congr_key {icompare : K → K → ℤ} {l : List ℕ}
    (hkey : ∀ a ∈ l, s'.rnKey a = s.rnKey a)
    (h : l.Pairwise fun a b => icompare (s.rnKey a) (s.rnKey b) < 0) :
    l.Pairwise fun a b => icompare (s'.rnKey a) (s'.rnKey b) < 0 := by
  refine h.imp_of_mem fun ha hb hab => ?_
  rw [hkey _ ha, hkey _ hb]
  exact hab

/-- `su_rbt_insert2` adds a node with the key unless a key compares equal to it. Other nodes
keep their keys. -/
structure Inserted (icompare : K → K → ℤ) (key : K) (x : ℕ) (s : Rbt K) (t : RbTree ℕ)
    (r : Option ℕ) (s' : Rbt K) (t' : RbTree ℕ) : Prop where
  tree : IsTree icompare s' t'
  nil : s'.rbtNil = s.rbtNil
  keys : ∀ a, a ≠ x → s'.rnKey a = s.rnKey a
  refused : r = none → t'.toList = t.toList ∧ ∃ a ∈ t.toList, icompare key (s.rnKey a) = 0
  added : ∀ y, r = some y → y = x ∧ s'.rnKey x = key ∧
    (∀ a ∈ t.toList, icompare key (s.rnKey a) ≠ 0) ∧
    ∃ l₁ l₂, t.toList = l₁ ++ l₂ ∧ t'.toList = l₁ ++ x :: l₂

theorem suRbtInsert2_spec {icompare : K → K → ℤ} (hcmp : TotalCompare icompare) {fuel : ℕ}
    (h : IsTree icompare s t) (hfuel : t.toList.length + 1 < fuel) (hx : x ∉ t.toList)
    (hnil : x ≠ s.rbtNil) (key : K) :
    ∃ r s' t', s.suRbtInsert2 icompare fuel x key = some (r, s') ∧
      Inserted icompare key x s t r s' t' := by
  have hne (a : ℕ) (ha : a ∈ t.toList) : a ≠ x := by
    rintro rfl
    exact hx ha
  have hkeyx : (s.newNode x key).rnKey x = key := if_pos rfl
  have hkey (a : ℕ) (ha : a ∈ t.toList) : (s.newNode x key).rnKey a = s.rnKey a := if_neg (hne a ha)
  have hplaced : Placed (s.newNode x key) [] t :=
    h.placed.congr rfl rfl (fun a ha => sameAt_newNode (hne a ha)) (sameAt_newNode hnil.symm)
  have hcut : Cut (icompare ((s.newNode x key).rnKey x) ∘ (s.newNode x key).rnKey) t.toList := by
    rw [hkeyx]
    refine (h.cut hcmp key).imp_of_mem fun ha hb hab hle => ?_
    rw [Function.comp_apply, hkey _ ha] at hle
    rw [Function.comp_apply, hkey _ hb]
    exact hab hle
  have hspec := rbInsert_spec hplaced h.redBlack hcut hfuel hx
    hnil fun d => newNode_child
  rw [hkeyx] at hspec
  rw [suRbtInsert2]
  rcases hspec with ⟨hinsert, a, ha, heq⟩ | ⟨hall, s', t', l₁, l₂, hinsert, hplaced', hrb', hrest,
    hl, hl', hpos, hneg⟩
  · rw [hkey a ha] at heq
    refine ⟨none, s.newNode x key, t, ?_, ⟨⟨hplaced, h.redBlack, ?_, h.nelems⟩, rfl,
      fun a ha => ?_, fun _ => ⟨rfl, a, ha, heq⟩, fun y hy => nomatch hy⟩⟩
    · exact congrArg (Option.map _) hinsert
    · exact pairwise_congr_key hkey h.ordered
    · exact if_neg ha
  · have hkeys (a : ℕ) (ha : a ≠ x) : s'.rnKey a = s.rnKey a := by
      rw [hrest.key]
      exact if_neg ha
    have hkeyx' : s'.rnKey x = key := by rw [hrest.key, hkeyx]
    refine ⟨some x, { s' with rbtNelems := s'.rbtNelems + 1 }, t', ?_, ⟨⟨?_, hrb', ?_, ?_⟩,
      hrest.nil, hkeys, fun hr => (nomatch hr), fun y hy => ?_⟩⟩
    · exact congrArg (Option.map _) hinsert
    · exact hplaced'.congr rfl rfl (fun a _ => ⟨rfl, rfl, fun _ => rfl⟩) ⟨rfl, rfl, fun _ => rfl⟩
    · -- the new key is between those below and above it
      have hold : t.toList.Pairwise fun a b => icompare (s'.rnKey a) (s'.rnKey b) < 0 :=
        pairwise_congr_key (fun a ha => hkeys a (hne a ha)) h.ordered
      have hmem₁ (a : ℕ) (ha : a ∈ l₁) : a ∈ t.toList := by
        rw [hl]
        exact List.mem_append_left _ ha
      have hmem₂ (a : ℕ) (ha : a ∈ l₂) : a ∈ t.toList := by
        rw [hl]
        exact List.mem_append_right _ ha
      rw [hl] at hold
      obtain ⟨h₁, h₂, h₁₂⟩ := List.pairwise_append.mp hold
      rw [hl']
      refine List.pairwise_append.mpr ⟨h₁, List.pairwise_cons.mpr ⟨fun b hb => ?_, h₂⟩,
        fun a ha b hb => ?_⟩
      · have hlt := hneg b hb
        rw [hkey b (hmem₂ b hb)] at hlt
        rw [show ({ s' with rbtNelems := s'.rbtNelems + 1 } : Rbt K).rnKey = s'.rnKey from rfl,
          hkeyx', hkeys b (hne b (hmem₂ b hb))]
        exact hlt
      · rcases List.mem_cons.mp hb with rfl | hb
        · have hgt := hpos a ha
          rw [hkey a (hmem₁ a ha)] at hgt
          rw [show ({ s' with rbtNelems := s'.rbtNelems + 1 } : Rbt K).rnKey = s'.rnKey from rfl,
            hkeyx', hkeys a (hne a (hmem₁ a ha))]
          exact (hcmp.swap _ _).mp hgt
        · exact h₁₂ a ha b hb
    · have hlen := congrArg List.length hl'
      have hlen' := congrArg List.length hl
      rw [List.length_append, List.length_cons] at hlen
      rw [List.length_append] at hlen'
      have hnelems : s'.rbtNelems = t.toList.length := hrest.nelems.trans h.nelems
      rw [hlen, ← Nat.add_assoc, ← hlen', ← hnelems]
    · refine ⟨(Option.some.inj hy).symm, hkeyx', fun a ha => ?_, l₁, l₂, hl, hl'⟩
      have hne' := hall a ha
      rwa [hkey a ha] at hne'

end Rbt

end SolidDB
