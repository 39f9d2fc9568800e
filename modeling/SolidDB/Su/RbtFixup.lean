import SolidDB.Su.RbtInsert

/-!
# The fixup after a deletion

`rb_delete_fixup` starts at a subtree whose paths have one black node less than those of its
sibling. A round gives the subtree a black node or moves the missing one up to the parent.
-/

namespace SolidDB

namespace RbTree

variable {α : Type*} {d : Side} {c : RbColor} {t : RbTree α} {k : List (Frame α)} {n : ℕ}

/-- A black subtree has `n` black nodes on its paths, a red one has `n + 1` when it is painted
black. -/
structure Short (t : RbTree α) (n : ℕ) : Prop where
  black : t.color = .black → t.IsRb n
  red : t.color = .red → (t.paint .black).IsRb (n + 1)

theorem short_of_isRb (h : t.IsRb n) : t.Short n := ⟨fun _ => h, isRb_paint_black h⟩

end RbTree

namespace Rbt

open RbTree

variable {K : Type*} {s s' : Rbt K} {d e : Side} {c c' : RbColor} {t u v w : RbTree ℕ}
  {k : List (Frame ℕ)} {f : Frame ℕ} {x y p q n fuel : ℕ}

/-! ## The parts of a round -/

/-- The round after the case of a red sibling. -/
def fixupBlack (d : Side) (x w : ℕ) (s : Rbt K) : ℕ × Rbt K :=
  if s.rnColor (s.rnChild d w) = .black ∧ s.rnColor (s.rnChild d.other w) = .black then
    (s.rnP x, s.setColor w .red)
  else
    let r : ℕ × Rbt K :=
      if s.rnColor (s.rnChild d.other w) = .black then
        let s := s.setColor (s.rnChild d w) .black
        let s := s.setColor w .red
        let s := s.rotate d.other w
        (s.rnChild d.other (s.rnP x), s)
      else (w, s)
    let w := r.1
    let s := r.2
    let s := s.setColor w (s.rnColor (s.rnP x))
    let s := s.setColor (s.rnP x) .black
    let s := s.setColor (s.rnChild d.other w) .black
    let s := s.rotate d (s.rnP x)
    (s.rbtRoot, s)

theorem fixupRound_of_black (h : s.rnColor (s.rnChild d.other (s.rnP x)) = .black) :
    s.fixupRound d x = s.fixupBlack d x (s.rnChild d.other (s.rnP x)) := by
  have hne : ¬ s.rnColor (s.rnChild d.other (s.rnP x)) = .red := by
    rw [h]
    exact fun hc => RbColor.noConfusion hc
  rw [fixupRound]
  simp only [hne, if_false]
  rfl

theorem fixupRound_of_red (h : s.rnColor (s.rnChild d.other (s.rnP x)) = .red) {s₁ : Rbt K}
    (hs : ((s.setColor (s.rnChild d.other (s.rnP x)) .black).setColor (s.rnP x) .red).rotate d
      (s.rnP x) = s₁) :
    s.fixupRound d x = s₁.fixupBlack d x (s₁.rnChild d.other (s₁.rnP x)) := by
  subst hs
  rw [fixupRound]
  simp only [h, if_true]
  rfl

/-- The tree with a subtree that is short of a black node. The fixup reads the parent link of
the sentinel when the subtree is empty. -/
structure Deficient (s : Rbt K) (k : List (Frame ℕ)) (t : RbTree ℕ) (n : ℕ) : Prop where
  placed : Placed s k t
  sentinel : t = .nil → s.rnP s.rbtNil = parent s.rbtNil k
  short : t.Short n
  ctx : CtxRb k (n + 1)

theorem Deficient.parent_eq (h : Deficient s k t n) :
    s.rnP (top s.rbtNil t) = parent s.rbtNil k := by
  by_cases ht : t = .nil
  · rw [ht, top_nil]
    exact h.sentinel ht
  · exact h.placed.parent_eq ht

theorem exists_sibling (h : CtxRb (f :: k) (n + 1)) :
    ∃ c w₁ w w₂, f.sibling = branch f.side c w₁ w w₂ := by
  refine eq_branch f.side (ne_nil_of_isRb_succ (n := n) ?_)
  obtain ⟨e, c, p, u⟩ := f
  cases c with
  | red => exact h.2.1
  | black => exact h.1

theorem Placed.sibling_red {w₁ w₂ : RbTree ℕ} {w : ℕ}
    (h : Placed s (⟨d, c, p, branch d c' w₁ w w₂⟩ :: k) t) :
    Placed (((s.setColor w .black).setColor p .red).rotate d p)
      (⟨d, .red, p, w₁⟩ :: ⟨d, .black, w, w₂⟩ :: k) t ∧
    (((s.setColor w .black).setColor p .red).rotate d p).rnP s.rbtNil = s.rnP s.rbtNil := by
  have hsibling := (placed_branch_far.mp (placed_branch.mpr h)).setColor .black
  have hparent := (placed_branch_far.mpr hsibling).setColor .red
  exact ⟨placed_branch.mp (placed_branch.mp hparent.rotate), hparent.rotate_nilP⟩

theorem Placed.sibling_inner {u₁ u₂ w₂ : RbTree ℕ} {u w : ℕ}
    (h : Placed s (⟨d, c, p, branch d .black (branch d c' u₁ u u₂) w w₂⟩ :: k) t) :
    Placed (((s.setColor u .black).setColor w .red).rotate d.other w)
      (⟨d, c, p, branch d .black u₁ u (branch d .red u₂ w w₂)⟩ :: k) t ∧
    (((s.setColor u .black).setColor w .red).rotate d.other w).rnP s.rbtNil =
      s.rnP s.rbtNil := by
  have hsibling := placed_branch_far.mp (placed_branch.mpr h)
  have hinner := (placed_branch.mp hsibling).setColor .black
  have hred := (placed_branch.mpr hinner).setColor .red
  rw [← branch_other d .red w₂ w, ← branch_other d .black u₂ u] at hred
  have hrotate := hred.rotate
  rw [branch_other, branch_other] at hrotate
  exact ⟨placed_branch.mp (placed_branch_far.mpr hrotate), hred.rotate_nilP⟩

theorem Placed.sibling_outer {w₁ v₁ v₂ : RbTree ℕ} {w v : ℕ}
    (h : Placed s (⟨d, c, p, branch d .black w₁ w (branch d .red v₁ v v₂)⟩ :: k) t) :
    Placed ((((s.setColor w c).setColor p .black).setColor v .black).rotate d p) k
      (branch d c (branch d .black t p w₁) w (branch d .black v₁ v v₂)) := by
  have hsibling := (placed_branch_far.mp (placed_branch.mpr h)).setColor c
  have hparent := (placed_branch_far.mpr hsibling).setColor .black
  have houter := (placed_branch_far.mp (placed_branch_far.mp hparent)).setColor .black
  exact (placed_branch_far.mpr (placed_branch_far.mpr houter)).rotate

/-! ## The rounds -/

/-- A tree with the same nodes in the same order that is deficient at the node `x`. -/
structure FixupStep (s s' : Rbt K) (l : List ℕ) (x : ℕ) (k : List (Frame ℕ)) (t : RbTree ℕ) :
    Prop where
  deficient : ∃ n, Deficient s' k t n
  node : top s'.rbtNil t = x
  toList_eq : (plug k t).toList = l
  rest : SameRest s s'

theorem FixupStep.of_rest {l : List ℕ} {s'' : Rbt K} (hrest : SameRest s s')
    (h : FixupStep s' s'' l x k t) : FixupStep s s'' l x k t :=
  ⟨h.deficient, h.node, h.toList_eq, hrest.trans h.rest⟩

theorem redBlack_of_ctxRb {m : ℕ} (h : CtxRb (⟨d, c, p, u⟩ :: k) m)
    (ht : t.IsRb m ∧ t.color = .black) (hv : v.IsRb m ∧ v.color = .black) :
    (plug k (branch e c t x v)).RedBlack := by
  rw [redBlack_plug_iff]
  cases c with
  | red => exact ⟨m, isRb_branch_red.mpr ⟨⟨ht.2, hv.2⟩, ht.1, hv.1⟩, h.2.2, fun _ => h.1.2⟩
  | black =>
      refine ⟨m + 1, isRb_branch_black.mpr ⟨ht.1, hv.1⟩, h.2, fun hred => ?_⟩
      rw [color_branch] at hred
      exact RbColor.noConfusion hred

theorem Deficient.sibling_isRb {w₁ w₂ : RbTree ℕ} {w : ℕ}
    (h : Deficient s (⟨d, c, p, branch d .black w₁ w w₂⟩ :: k) t n) : w₁.IsRb n ∧ w₂.IsRb n := by
  have hctx := h.ctx
  cases c with
  | red => exact isRb_branch_black.mp hctx.2.1
  | black => exact isRb_branch_black.mp hctx.1

theorem plug_ne_nil (ht : t ≠ .nil) : plug k t ≠ .nil := by
  induction k generalizing t with
  | nil => exact ht
  | cons f k ih => exact ih branch_ne_nil

/-- With a red outer nephew the round ends at the root. -/
theorem Deficient.outer {w₁ v₁ v₂ : RbTree ℕ} {w v : ℕ}
    (h : Deficient s (⟨d, c, p, branch d .black w₁ w (branch d .red v₁ v v₂)⟩ :: k) t n)
    (hblack : t.color = .black) {s₁ : Rbt K}
    (hs : (((s.setColor w c).setColor p .black).setColor v .black).rotate d p = s₁) :
    ∃ t', FixupStep s s₁
      (plug (⟨d, c, p, branch d .black w₁ w (branch d .red v₁ v v₂)⟩ :: k) t).toList
      s₁.rbtRoot [] t' := by
  subst hs
  have houter := h.placed.sibling_outer
  obtain ⟨hw₁, hv⟩ := h.sibling_isRb
  have hrb := redBlack_of_ctxRb (d := d) (e := d) (x := w) h.ctx
    (t := branch d .black t p w₁) (v := branch d .black v₁ v v₂)
    ⟨isRb_branch_black.mpr ⟨h.short.black hblack, hw₁⟩, color_branch⟩
    ⟨isRb_branch_black.mpr (isRb_branch_red.mp hv).2, color_branch⟩
  have hplaced := placed_plug.mp houter
  obtain ⟨hcolor, m, hm⟩ := hrb
  refine ⟨plug k (branch d c (branch d .black t p w₁) w (branch d .black v₁ v v₂)),
    ⟨m, hplaced, fun hnil => absurd hnil (plug_ne_nil branch_ne_nil), ⟨fun _ => hm, fun hred => ?_⟩,
      trivial⟩, hplaced.root_eq_iff.mpr rfl, ?_, ?_⟩
  · rw [hcolor] at hred
    exact RbColor.noConfusion hred
  · refine toList_plug_congr ?_ k
    rw [Frame.fill, ← toList_rotate d c .black c .black]
    simp only [toList_branch]
  · exact (((sameRest_setColor s w c).trans (sameRest_setColor _ p .black)).trans
      (sameRest_setColor _ v .black)).trans (sameRest_rotate _ d p)

/-- The round with a black sibling ends at the root or goes on at the parent. -/
theorem Deficient.blackSibling {w₁ w₂ : RbTree ℕ} {w : ℕ}
    (h : Deficient s (⟨d, c, p, branch d .black w₁ w w₂⟩ :: k) t n) (hblack : t.color = .black) :
    ∃ k' t', FixupStep s (s.fixupBlack d (top s.rbtNil t) w).2
        (plug (⟨d, c, p, branch d .black w₁ w w₂⟩ :: k) t).toList
        (s.fixupBlack d (top s.rbtNil t) w).1 k' t' ∧ (k' = [] ∨ t'.color = c ∧ k' = k) := by
  have hp : s.rnP (top s.rbtNil t) = p := h.parent_eq
  have hview := placed_branch_far.mp (placed_branch.mpr h.placed)
  have hnode := hview.node
  have hc₁ : s.rnColor (s.rnChild d w) = w₁.color := by
    rw [hnode.near]
    exact (placed_branch.mp hview).color_eq
  have hc₂ : s.rnColor (s.rnChild d.other w) = w₂.color := by
    rw [hnode.far]
    exact (placed_branch_far.mp hview).color_eq
  obtain ⟨hw₁, hw₂⟩ := h.sibling_isRb
  have ht := h.short.black hblack
  rw [fixupBlack, hc₁, hc₂]
  by_cases hboth : w₁.color = .black ∧ w₂.color = .black
  · -- the sibling becomes red, the parent is deficient
    have hstep := placed_branch_far.mpr (hview.setColor .red)
    have hred : (branch d .red w₁ w w₂).IsRb n := isRb_branch_red.mpr ⟨hboth, hw₁, hw₂⟩
    rw [if_pos hboth, hp]
    refine ⟨k, branch d c t p (branch d .red w₁ w w₂), ⟨?_, top_branch _, ?_,
      sameRest_setColor s w .red⟩, Or.inr ⟨color_branch, rfl⟩⟩
    · have hsentinel (hnil : branch d c t p (branch d .red w₁ w w₂) = .nil) :
          (s.setColor w .red).rnP (s.setColor w .red).rbtNil =
            parent (s.setColor w .red).rbtNil k := absurd hnil branch_ne_nil
      have hctx := h.ctx
      cases c with
      | red =>
          refine ⟨n, hstep, hsentinel, ⟨fun hc => ?_, fun _ => ?_⟩, hctx.2.2⟩
          · rw [color_branch] at hc
            exact RbColor.noConfusion hc
          · rw [paint_branch]
            exact isRb_branch_black.mpr ⟨ht, hred⟩
      | black =>
          exact ⟨n + 1, hstep, hsentinel, short_of_isRb (isRb_branch_black.mpr ⟨ht, hred⟩),
            hctx.2⟩
    · refine toList_plug_congr ?_ k
      rw [Frame.fill]
      simp only [toList_branch]
  · rw [if_neg hboth]
    by_cases hw₂b : w₂.color = .black
    · -- the inner nephew comes in the place of the sibling first
      have hw₁r : w₁.color = .red := by
        by_contra hne
        exact hboth ⟨(RbColor.ne_red_iff _).mp hne, hw₂b⟩
      obtain ⟨cu, u₁, u, u₂, rfl⟩ := eq_branch d (t := w₁) (by
        rintro rfl
        exact RbColor.noConfusion hw₁r)
      rw [color_branch] at hw₁r
      subst hw₁r
      obtain ⟨hinner, hnilP⟩ := h.placed.sibling_inner
      obtain ⟨⟨hu₁, hu₂⟩, hru₁, hru₂⟩ := isRb_branch_red.mp hw₁
      have hu : s.rnChild d w = u := by
        rw [hnode.near, top_branch]
      have hrest := ((sameRest_setColor s u .black).trans (sameRest_setColor _ w .red)).trans
        (sameRest_rotate _ d.other w)
      obtain ⟨s₁, hs₁⟩ : ∃ s₁, ((s.setColor u .black).setColor w .red).rotate d.other w = s₁ :=
        ⟨_, rfl⟩
      rw [hs₁] at hinner hnilP hrest
      have hdef : Deficient s₁ (⟨d, c, p, branch d .black u₁ u (branch d .red u₂ w w₂)⟩ :: k) t
          n := by
        refine ⟨hinner, fun hnil => ?_, h.short, ?_⟩
        · rw [hrest.nil, hnilP]
          exact h.sentinel hnil
        · have hsib : (branch d .black u₁ u (branch d .red u₂ w w₂)).IsRb (n + 1) :=
            isRb_branch_black.mpr ⟨hru₁, isRb_branch_red.mpr ⟨⟨hu₂, hw₂b⟩, hru₂, hw₂⟩⟩
          have hctx := h.ctx
          cases c with
          | red => exact ⟨⟨color_branch, hctx.1.2⟩, hsib, hctx.2.2⟩
          | black => exact ⟨hsib, hctx.2⟩
      have hp₁ : s₁.rnP (top s.rbtNil t) = p := by
        rw [← hrest.nil]
        exact hdef.parent_eq
      have hview₁ := placed_branch_far.mp (placed_branch.mpr hinner)
      have hw' : s₁.rnChild d.other p = u := by
        have hframe := (placed_branch.mpr hinner).node.far
        rw [top_branch] at hframe
        exact hframe
      have hout : s₁.rnChild d.other u = w := by
        have hfar := hview₁.node.far
        rw [top_branch] at hfar
        exact hfar
      have hcp : s₁.rnColor p = c := (placed_branch.mpr hinner).node.color
      obtain ⟨t', hstep⟩ := hdef.outer hblack rfl
      refine ⟨[], t', ?_, Or.inl rfl⟩
      have hlist : (plug (⟨d, c, p, branch d .black u₁ u (branch d .red u₂ w w₂)⟩ :: k) t).toList =
          (plug (⟨d, c, p, branch d .black (branch d .red u₁ u u₂) w w₂⟩ :: k) t).toList := by
        refine toList_plug_congr ?_ k
        rw [Frame.fill, Frame.fill, toList_branch, toList_branch d c,
          toList_rotate d .black .red .black .red]
      rw [hlist] at hstep
      simp only [hw₂b, if_true, hu, hs₁, hp₁, hw', hcp, setColor_rnP, setColor_rnChild, hout]
      exact hstep.of_rest hrest
    · -- the outer nephew is red
      have hw₂r : w₂.color = .red := by
        by_contra hne
        exact hw₂b ((RbColor.ne_red_iff _).mp hne)
      obtain ⟨cv, v₁, v, v₂, rfl⟩ := eq_branch d (t := w₂) (by
        rintro rfl
        exact RbColor.noConfusion hw₂r)
      rw [color_branch] at hw₂r
      subst hw₂r
      have hcp : s.rnColor p = c := (placed_branch.mpr h.placed).node.color
      have hv : s.rnChild d.other w = v := by
        rw [hnode.far, top_branch]
      obtain ⟨t', hstep⟩ := h.outer hblack rfl
      refine ⟨[], t', ?_, Or.inl rfl⟩
      simp only [hw₂b, if_false, hp, hcp, setColor_rnP, setColor_rnChild, hv]
      exact hstep

/-- The round goes up, or the next round is the last one. -/
theorem Deficient.round (h : Deficient s (f :: k) t n) (hblack : t.color = .black) :
    ∃ k' t', FixupStep s (s.fixupRound f.side (top s.rbtNil t)).2 (plug (f :: k) t).toList
        (s.fixupRound f.side (top s.rbtNil t)).1 k' t' ∧
      (k' = [] ∨ t'.color = .red ∨ k' = k) := by
  obtain ⟨cw, w₁, w, w₂, hsib⟩ := exists_sibling h.ctx
  obtain ⟨d, c, p, u⟩ := f
  obtain rfl : u = branch d cw w₁ w w₂ := hsib
  have hp : s.rnP (top s.rbtNil t) = p := h.parent_eq
  have hnode := (placed_branch.mpr h.placed).node
  have hw : s.rnChild d.other p = w := by
    rw [hnode.far, top_branch]
  have hcw : s.rnColor w = cw := (placed_branch_far.mp (placed_branch.mpr h.placed)).node.color
  cases cw with
  | black =>
      rw [fixupRound_of_black (by rw [hp, hw, hcw]), hp, hw]
      obtain ⟨k', t', hstep, hk⟩ := h.blackSibling hblack
      exact ⟨k', t', hstep, hk.imp_right fun hand => Or.inr hand.2⟩
  | red =>
      -- a red sibling has a black parent and black children
      have hctx := h.ctx
      cases c with
      | red =>
          have hsb := hctx.1.1
          rw [color_branch] at hsb
          exact RbColor.noConfusion hsb
      | black =>
          obtain ⟨⟨hw₁, hw₂⟩, hr₁, hr₂⟩ := isRb_branch_red.mp hctx.1
          obtain ⟨cv, v₁, v, v₂, rfl⟩ := eq_branch d (ne_nil_of_isRb_succ hr₁)
          rw [color_branch] at hw₁
          subst hw₁
          obtain ⟨hup, hnilP⟩ := h.placed.sibling_red
          have hrest := ((sameRest_setColor s w .black).trans (sameRest_setColor _ p .red)).trans
            (sameRest_rotate _ d p)
          obtain ⟨s₁, hs₁⟩ : ∃ s₁, ((s.setColor w .black).setColor p .red).rotate d p = s₁ :=
            ⟨_, rfl⟩
          rw [hs₁] at hup hnilP hrest
          have hdef : Deficient s₁
              (⟨d, .red, p, branch d .black v₁ v v₂⟩ :: ⟨d, .black, w, w₂⟩ :: k) t n := by
            refine ⟨hup, fun hnil => ?_, h.short, ⟨color_branch, rfl⟩, hr₁, hr₂, hctx.2⟩
            rw [hrest.nil, hnilP]
            exact h.sentinel hnil
          have hp₁ : s₁.rnP (top s.rbtNil t) = p := by
            rw [← hrest.nil]
            exact hdef.parent_eq
          have hv : s₁.rnChild d.other p = v := by
            have hfar := (placed_branch.mpr hup).node.far
            rw [top_branch] at hfar
            exact hfar
          obtain ⟨k', t', hstep, hk⟩ := hdef.blackSibling hblack
          have hlist : (plug (⟨d, .red, p, branch d .black v₁ v v₂⟩ ::
              ⟨d, .black, w, w₂⟩ :: k) t).toList =
              (plug (⟨d, .black, p, branch d .red (branch d .black v₁ v v₂) w w₂⟩ :: k)
                t).toList := by
            refine toList_plug_congr ?_ k
            rw [Frame.fill, Frame.fill, Frame.fill, toList_rotate d .black .red .black .red]
          rw [fixupRound_of_red (by rw [hp, hw, hcw]) (show _ = s₁ by rw [hp, hw, hs₁]), hp₁, hv]
          rw [hlist, hrest.nil] at hstep
          exact ⟨k', t', hstep.of_rest hrest, hk.imp_right fun hand => Or.inl hand.1⟩

theorem Placed.paintBlack (h : Placed s k t) :
    Placed (s.setColor (top s.rbtNil t) .black) k (t.paint .black) := by
  cases t with
  | nil =>
      refine h.congr rfl rfl (fun a ha => ⟨rfl, if_neg ?_, fun _ => rfl⟩)
        ⟨rfl, (if_pos rfl).trans h.nilColor.symm, fun _ => rfl⟩
      exact (placed_plug.mp h).tree.ne_nil ha
  | node c l x r => exact Placed.setColor (d := .left) h .black

structure DeleteDone (s s' : Rbt K) (l : List ℕ) (t : RbTree ℕ) : Prop where
  placed : Placed s' [] t
  toList_eq : t.toList = l
  redBlack : t.RedBlack
  rest : SameRest s s'

/-- `rb_delete_fixup` makes the tree red-black. -/
theorem rbDeleteFixup_done (h : Deficient s k t n)
    (hfuel : k.length < fuel ∨ 0 < fuel ∧ (k = [] ∨ t.color = .red)) :
    ∃ s' t', rbDeleteFixup fuel (top s.rbtNil t) s = some s' ∧
      DeleteDone s s' (plug k t).toList t' := by
  induction fuel generalizing s k t n with
  | zero =>
      rcases hfuel with hlt | ⟨hlt, -⟩
      · exact absurd hlt (Nat.not_lt_zero _)
      · exact absurd hlt (lt_irrefl 0)
  | succ fuel ih =>
      rw [rbDeleteFixup, h.placed.color_eq]
      by_cases hend : k = [] ∨ t.color = .red
      · -- the last node is painted black
        have hstop : ¬ (top s.rbtNil t ≠ s.rbtRoot ∧ t.color = .black) := by
          rintro ⟨hroot, hblack⟩
          rcases hend with hk | hred
          · exact hroot (h.placed.root_eq_iff.mpr hk)
          · rw [hblack] at hred
            exact RbColor.noConfusion hred
        have hcolor : (t.paint .black).color = .black := by
          cases t with
          | nil => rfl
          | node c l x r => rfl
        rw [if_neg hstop]
        refine ⟨_, plug k (t.paint .black), rfl, placed_plug.mp h.placed.paintBlack,
          toList_plug_congr toList_paint k, ?_, sameRest_setColor s _ .black⟩
        rw [redBlack_plug_iff]
        have hnot (hred : (t.paint .black).color = .red) : AcceptsRed k := by
          rw [hcolor] at hred
          exact RbColor.noConfusion hred
        by_cases hred : t.color = .red
        · exact ⟨n + 1, h.short.red hred, h.ctx, hnot⟩
        · have hblack := (RbColor.ne_red_iff _).mp hred
          obtain rfl := hend.resolve_right hred
          have hpaint := paint_color t
          rw [hblack] at hpaint
          rw [hpaint] at hnot ⊢
          exact ⟨n, h.short.black hblack, trivial, hnot⟩
      · obtain ⟨hk, hred⟩ := not_or.mp hend
        have hblack := (RbColor.ne_red_iff _).mp hred
        cases k with
        | nil => exact absurd rfl hk
        | cons f k =>
            have hlen : (f :: k).length < fuel + 1 := by
              rcases hfuel with hlt | ⟨-, hor⟩
              · exact hlt
              · exact absurd hor hend
            have hgo : top s.rbtNil t ≠ s.rbtRoot ∧ t.color = .black :=
              ⟨fun hroot => hk (h.placed.root_eq_iff.mp hroot), hblack⟩
            obtain ⟨cw, w₁, w, w₂, hsib⟩ := exists_sibling h.ctx
            have hside := h.placed.side_eq (Or.inr (by rw [hsib]; exact branch_ne_nil))
            have hp : s.rnP (top s.rbtNil t) = f.x := h.parent_eq
            obtain ⟨k', t', ⟨⟨n', hdef⟩, hnode, hlist, hrest⟩, hnext⟩ := h.round hblack
            rw [List.length_cons] at hlen
            obtain ⟨s', t'', hloop, hdone⟩ := ih hdef (by
              rcases hnext with hroot | hlast | rfl
              · exact Or.inr ⟨by omega, Or.inl hroot⟩
              · exact Or.inr ⟨by omega, Or.inr hlast⟩
              · exact Or.inl (by omega))
            rw [hnode] at hloop
            rw [if_pos hgo, hp, hside]
            refine ⟨s', t'', hloop, hdone.placed, hdone.toList_eq.trans hlist, hdone.redBlack,
              hrest.trans hdone.rest⟩

end Rbt

end SolidDB
