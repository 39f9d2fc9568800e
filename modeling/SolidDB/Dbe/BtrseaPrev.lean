import SolidDB.Dbe.BtrseaNext

/-!
# The backward scan

Each call of `dbe_btrsea_getprev` passes keys that the constraints reject and returns
at the key before them, or at the beginning of the range.
-/

namespace SolidDB

open LeafScan

variable {base : ℕ} {Q : KeyIn base → Prop} {b : Btree} {first : KeyIn base}
  {ls pre post : List (Leaf ℕ (KeyIn base))} {l : Leaf ℕ (KeyIn base)}
  {g : SearchRange base} {bs : Btrsea} {ys xs : List (KeyIn base)} {v : KrsView base}
  {checkcons : List UInt8 → DbeRet} {y : KeyIn base}

/-! ## One key of a leaf -/

theorem RseaState.At.movetoprev_getLast {s : RseaState} {ks : List (KeyIn base)}
    (h : s.At ks v ys.length) (hks : ks = ys ++ xs) :
    ∃ s', rseaMovetoprev s = some (ys.getLast?.elim .notfound v.beginRc, s') ∧
      s'.At ks v ys.dropLast.length := by
  rcases List.eq_nil_or_concat' ys with rfl | ⟨ys, y, rfl⟩
  · exact ⟨s, h.movetoprev_zero, h⟩
  · rw [List.length_append, List.length_singleton] at h
    have hy : ks[ys.length]? = some y := by
      rw [hks, List.append_assoc, List.getElem?_append_right (le_refl _), Nat.sub_self]
      rfl
    obtain ⟨s', heq, hat⟩ := h.movetoprev hy
    refine ⟨s', ?_, ?_⟩
    · rw [List.getLast?_concat]
      exact heq
    · rw [List.dropLast_concat]
      exact hat

/-- The key before the position, with the answer of the check against the range
begin. -/
theorem Btrsea.Backward.rseaPrev (h : bs.Backward Q g ls pre l post ys xs) :
    ∃ s' v, dbeBnodeRseaPrev bs.bsRsea = some (ys.getLast?.elim .notfound v.beginRc, s') ∧
      s'.At l.items v ys.dropLast.length ∧ v.Links Q l post ∧ v.range = g ∧
      v.isbegin = false := by
  obtain ⟨v, hlinks, hrange, hbegin, hstands⟩ := h.stands
  rcases hstands with ⟨hfresh, rfl⟩ | hat
  · obtain ⟨s1, hprev, hat⟩ := hfresh.prev hbegin
    have hlen : l.items.length = ys.length := by rw [h.items, List.append_nil]
    rw [hlen] at hat
    obtain ⟨s', heq, hat'⟩ := hat.movetoprev_getLast h.items
    exact ⟨s', v, hprev.trans heq, hat', hlinks, hrange, hbegin⟩
  · obtain ⟨s', heq, hat'⟩ := hat.movetoprev_getLast h.items
    exact ⟨s', v, hat.prev.trans heq, hat', hlinks, hrange, hbegin⟩

/-! ## The separators and the range begin -/

/-- The leaf before is known exactly where the separator is above the range begin. -/
theorem KrsView.Links.prev_isSome_iff (h : v.Links Q l post) :
    v.prev.isSome = true ↔ v.kb.rank < l.sep.rank := by
  have hprev := h.prev
  by_cases hlt : v.kb.rank < l.sep.rank
  · rw [if_pos hlt] at hprev
    obtain ⟨p, hp, -⟩ := Option.map_eq_some_iff.mp hprev
    rw [hp]
    exact ⟨fun _ => hlt, fun _ => rfl⟩
  · rw [if_neg hlt] at hprev
    rw [Option.map_eq_none_iff.mp hprev]
    exact ⟨fun hs => absurd hs Bool.false_ne_true, fun hs => absurd hs hlt⟩

theorem beginRc_cases (v : KrsView base) (x : KeyIn base) :
    v.beginRc x = .found ∨ v.beginRc x = .ended := by
  rw [KrsView.beginRc]
  split
  · exact Or.inl rfl
  · exact Or.inr rfl

theorem KrsView.Links.deliverBack_found (h : v.Links Q l post) (hr : v.range = g)
    (hlow : l.sep.rank ≤ y.rank) (hrc : v.beginRc y = .found) :
    g.deliverBack (ys ++ [y]) l pre = y :: g.deliverBack ys l pre := by
  subst hr
  have hle : v.kb.rank ≤ y.rank := by
    by_contra hnot
    have hprev : ¬ v.prev.isSome = true :=
      fun hs => hnot ((h.prev_isSome_iff.mp hs).le.trans hlow)
    rw [KrsView.beginRc, if_neg (by simpa [hprev] using hnot)] at hrc
    exact DbeRet.noConfusion hrc
  have htake (ys : List (KeyIn base)) :
      (y :: ys).takeWhile (fun x => decide (v.kb.rank ≤ x.rank)) =
        y :: ys.takeWhile fun x => decide (v.kb.rank ≤ x.rank) :=
    List.takeWhile_cons_of_pos (decide_eq_true hle)
  unfold SearchRange.deliverBack
  rw [List.reverse_append, List.reverse_singleton, List.singleton_append]
  cases pre.reverse with
  | nil => exact htake _
  | cons l' pre' =>
      rw [LeafScan.deliverBack, LeafScan.deliverBack]
      by_cases hlt : v.range.kb.rank < l.sep.rank
      · rw [if_pos hlt, if_pos hlt]
        rfl
      · rw [if_neg hlt, if_neg hlt]
        exact htake _

theorem KrsView.Links.deliverBack_ended (h : v.Links Q l post) (hr : v.range = g)
    (hrc : v.beginRc y = .ended) : g.deliverBack (ys ++ [y]) l pre = [] := by
  subst hr
  have hcond : ¬ (v.prev.isSome || decide (v.kb.rank ≤ y.rank)) = true := by
    intro hcond
    rw [KrsView.beginRc, if_pos hcond] at hrc
    exact DbeRet.noConfusion hrc
  rw [Bool.or_eq_true, not_or] at hcond
  obtain ⟨hprev, hle⟩ := hcond
  have htake (ys : List (KeyIn base)) :
      (y :: ys).takeWhile (fun x => decide (v.kb.rank ≤ x.rank)) = [] :=
    List.takeWhile_cons_of_neg hle
  unfold SearchRange.deliverBack
  rw [List.reverse_append, List.reverse_singleton, List.singleton_append]
  cases pre.reverse with
  | nil => exact htake _
  | cons l' pre' =>
      have hnot : ¬ v.range.kb.rank < l.sep.rank := fun hlt => hprev (h.prev_isSome_iff.mpr hlt)
      rw [LeafScan.deliverBack, if_neg hnot]
      exact htake _

/-- The beginning of a leaf without a known leaf before it is the end of the scan. -/
theorem KrsView.Links.deliverBack_nil (h : v.Links Q l post) (hr : v.range = g)
    (hprev : v.prev = none) : g.deliverBack [] l pre = [] := by
  subst hr
  have hnot : ¬ v.range.kb.rank < l.sep.rank := by
    intro hlt
    have hsome := h.prev_isSome_iff.mpr hlt
    rw [hprev] at hsome
    exact absurd hsome Bool.false_ne_true
  unfold SearchRange.deliverBack
  cases pre.reverse with
  | nil => rfl
  | cons l' pre' =>
      rw [LeafScan.deliverBack, if_neg hnot]
      rfl

theorem Btree.WellFormed.head_sep (hwf : b.WellFormed Q first ls) (hls : ls = l :: post) :
    l.sep.rank = first.rank := by
  obtain ⟨l0, t, heq, hsep⟩ := hwf.spans.head
  obtain ⟨rfl, -⟩ := List.cons.inj (hls.symm.trans heq)
  exact hsep

theorem Btree.WellFormed.exists_prev (hwf : b.WellFormed Q first ls)
    (hfirst : first.rank < g.kb.rank) (hleaves : ls = pre ++ l :: post)
    (hlt : g.kb.rank < l.sep.rank) : ∃ pre' l', pre = pre' ++ [l'] := by
  rcases List.eq_nil_or_concat' pre with rfl | h
  · have hsep := hwf.head_sep hleaves
    rw [hsep] at hlt
    exact absurd hlt hfirst.not_gt
  · exact h

theorem deliverBack_prev {pre : List (Leaf ℕ (KeyIn base))} {l' : Leaf ℕ (KeyIn base)}
    (hlt : g.kb.rank < l.sep.rank) :
    g.deliverBack [] l (pre ++ [l']) = g.deliverBack l'.items l' pre := by
  unfold SearchRange.deliverBack
  rw [List.reverse_append, List.reverse_singleton, List.singleton_append, LeafScan.deliverBack,
    if_pos hlt]
  rfl

/-! ## One call -/

/-- What a call leaves that has the keys `todo` before it, the nearest one first. -/
inductive PrevFrom (Q : KeyIn base → Prop) (g : SearchRange base)
    (ls : List (Leaf ℕ (KeyIn base))) (checkcons : List UInt8 → DbeRet)
    (todo : List (KeyIn base)) : DbeRet → Btrsea → Prop
  | ended {bs : Btrsea} (hpos : bs.bsPos = .first)
      (hrej : ∀ x ∈ todo, checkcons x.1.bytes = .notfound) :
      PrevFrom Q g ls checkcons todo .ended bs
  | key {bs : Btrsea} {pre : List (Leaf ℕ (KeyIn base))} {l : Leaf ℕ (KeyIn base)}
      {post : List (Leaf ℕ (KeyIn base))} {ys xs r : List (KeyIn base)} {x : KeyIn base}
      (hback : Btrsea.Backward Q g ls bs pre l post ys xs) (hpos : bs.bsPos = .middle)
      (hsrk : bs.bsRsea.srk = x.1.bytes)
      (htodo : todo = r ++ x :: g.deliverBack ys l pre)
      (hrej : ∀ y ∈ r, checkcons y.1.bytes = .notfound) :
      PrevFrom Q g ls checkcons todo (checkcons x.1.bytes) bs

theorem PrevFrom.reject {todo : List (KeyIn base)} {rc : DbeRet} {x : KeyIn base}
    (hx : checkcons x.1.bytes = .notfound) (h : PrevFrom Q g ls checkcons todo rc bs) :
    PrevFrom Q g ls checkcons (x :: todo) rc bs := by
  cases h with
  | ended hpos hrej => exact .ended hpos (List.forall_mem_cons.mpr ⟨hx, hrej⟩)
  | key hback hpos hsrk htodo hrej =>
      refine .key hback hpos hsrk (r := x :: _) ?_ (List.forall_mem_cons.mpr ⟨hx, hrej⟩)
      rw [htodo, List.cons_append]

theorem Btree.WellFormed.prevLeaf (hwf : b.WellFormed Q first ls)
    (hfirst : first.rank < g.kb.rank) {krs : Bkrs} {l' : Leaf ℕ (KeyIn base)}
    (hleaves : ls = pre ++ l' :: l :: post) (hlinks : v.Links Q l post)
    (hrange : v.range = g) (hbegin : v.isbegin = false) (hshows : krs.Shows v)
    {p : KeyIn base} (hprev : v.prev = some p) :
    ∃ krs1 krs2 v2, dbeBkrsStartprevstep krs = some krs1 ∧
      btrseaNextorprevnode b .prev krs1 = some (l'.addr, krs2) ∧
      (dbeBkrsFixprevstep krs2).Shows v2 ∧ v2.Links Q l' (l :: post) ∧ v2.range = g ∧
      v2.isbegin = false := by
  subst hrange
  have hlt : v.kb.rank < l.sep.rank := hlinks.prev_isSome_iff.mp (by rw [hprev]; rfl)
  have hp : p.rank = l.sep.rank := by
    have hrank := hlinks.prev
    rw [hprev, if_pos hlt] at hrank
    exact Option.some.inj hrank
  have hstart := hshows.startprevstep
  rw [hprev] at hstart
  obtain ⟨krs1, hkrs1, hshows1⟩ := hstart
  have hkbp : v.kb.rank < p.rank := hp ▸ hlt
  obtain ⟨pre2, l2, post2, m, s, krs2, hsplit, hl2, hpost2, hm, hs, hsrank, hdesc, hshows2⟩ :=
    btrseaDescend_prev hwf.spans hwf.sorted hshows1 (hlinks.prevQ p hprev)
      (hfirst.trans hkbp) (fun h hh => absurd hh.symm (Option.some_ne_none h))
      (fun _ => by
        rw [KrsView.setPrev]
        exact congrArg _ (if_neg hfirst.not_gt))
      (le_refl _)
  have hsort : Sorted KeyIn.rank (l' :: l :: post) := hwf.sorted.of_sublist (by
    rw [hleaves]
    exact List.sublist_append_right _ _)
  have hl' : l'.sep.rank < p.rank := by
    rw [hp]
    exact ((List.pairwise_cons.mp hsort.seps).1 l List.mem_cons_self).1
  have hpost : ∀ l3 ∈ l :: post, ¬ l3.sep.rank < p.rank := by
    intro l3 hl3
    rw [hp, not_lt]
    rcases List.mem_cons.mp hl3 with rfl | hl3
    · exact le_refl _
    · exact ((List.pairwise_cons.mp hsort.tail.seps).1 l3 hl3).1.le
  obtain ⟨-, rfl, rfl⟩ := split_unique (p := fun l2 => l2.sep.rank < p.rank)
    (hleaves.symm.trans hsplit) (Or.inl hl') hpost (Or.inl hl2)
    (fun l3 hl3 => not_lt.mpr (hpost2 l3 hl3))
  have hqs : v.kb.rank < s.rank → Q s := by
    intro hkbs
    rcases hs with rfl | hs
    · exact absurd hkbs hfirst.not_gt
    · exact hs
  have hlinks2 := KrsView.Links.of_descent (v := { v with
    kcb := p, next := none, prev := none }) hm rfl (fun _ => hsrank) hqs
  refine ⟨krs1, krs2, _, hkrs1, hdesc, hshows2.fixprevstep, ?_, ?_, ?_⟩
  · exact hlinks2.of_kcb _ _ _
  · change ((({ v with kcb := p, next := none, prev := none } : KrsView base).setNextOf
      m).setPrev s).range = v.range
    rw [KrsView.range_setPrev, KrsView.range_setNextOf]
    rfl
  · change ((({ v with kcb := p, next := none, prev := none } : KrsView base).setNextOf
      m).setPrev s).isbegin = false
    rw [KrsView.isbegin_setPrev, KrsView.isbegin_setNextOf]
    exact hbegin

variable (checkcons) in
theorem btrseaGetprevLoop_spec (hwf : b.WellFormed Q first ls)
    (hfirst : first.rank < g.kb.rank) {fuel : ℕ} (nloop : ℕ)
    (h : bs.Backward Q g ls pre l post ys xs)
    (hfuel : ys.length + (items pre).length + pre.length < fuel) :
    ∃ rc bs', btrseaGetprevLoop b checkcons fuel nloop bs = some (rc, bs') ∧
      PrevFrom Q g ls checkcons (g.deliverBack ys l pre) rc bs' := by
  induction fuel generalizing nloop bs pre l post ys xs with
  | zero => exact absurd hfuel (Nat.not_lt_zero _)
  | succ fuel ih =>
      obtain ⟨s', v, heq, hat, hlinks, hrange, hbegin⟩ := h.rseaPrev
      rw [btrseaGetprevLoop, heq, Option.bind_some]
      rcases List.eq_nil_or_concat' ys with rfl | ⟨ys, y, rfl⟩
      · -- the beginning of the leaf
        simp only [List.getLast?_nil, Option.elim_none]
        cases hprev : v.prev with
        | none =>
            have hstart := hat.shows.startprevstep
            rw [hprev] at hstart
            simp only [hstart]
            rw [hlinks.deliverBack_nil hrange hprev]
            exact ⟨_, _, rfl, .ended rfl (by simp)⟩
        | some p =>
            have hlt := hlinks.prev_isSome_iff.mp (by rw [hprev]; rfl)
            have hlt' : g.kb.rank < l.sep.rank := by
              rw [← hrange]
              exact hlt
            obtain ⟨pre', l', rfl⟩ := hwf.exists_prev hfirst h.leaves hlt'
            have hleaves : ls = pre' ++ l' :: l :: post := by
              rw [h.leaves, List.append_assoc]
              rfl
            obtain ⟨krs1, krs2, v2, hstart, hdesc, hshows2, hlinks2, hrange2, hbegin2⟩ :=
              hwf.prevLeaf hfirst hleaves hlinks hrange hbegin hat.shows hprev
            have hnode := hwf.leaf_node hleaves
            simp only [hstart, hdesc, Option.bind_some]
            have hback : (btrseaReadleaf b { bs with bsRsea :=
                { s' with nrs := dbeBnodeRseaDonest s'.nrs } } l'.addr
                (dbeBkrsFixprevstep krs2)).Backward Q g ls pre' l' (l :: post) l'.items [] := by
              refine ⟨hleaves, (List.append_nil _).symm, v2, hlinks2, hrange2, hbegin2,
                Or.inl ⟨⟨?_, hshows2⟩, rfl⟩⟩
              change dbeBnodeRseaInitst (b.node l'.addr).nKeys = _
              rw [hnode]
            have hfuel' : l'.items.length + (items pre').length + pre'.length < fuel := by
              rw [items_append, items_cons, items_nil] at hfuel
              simp only [List.length_append, List.length_cons, List.length_nil] at hfuel
              omega
            rw [deliverBack_prev hlt']
            exact ih (nloop + 1) hback hfuel'
      · rw [List.dropLast_concat] at hat
        have hmem : l ∈ ls := by rw [h.leaves]; simp
        have hy : l.items[ys.length]? = some y := by
          rw [h.items, List.append_assoc, List.getElem?_append_right (le_refl _), Nat.sub_self]
          rfl
        have hsrk := hat.srk y hy
        have hlow := hwf.sorted.lower l hmem y (List.mem_of_getElem? hy)
        simp only [List.getLast?_concat, Option.elim_some]
        rcases beginRc_cases v y with hrc | hrc
        · rw [hrc, hlinks.deliverBack_found hrange hlow hrc]
          have hitems : l.items = ys ++ ([y] ++ xs) := by
            rw [h.items, List.append_assoc]
          have hback : Btrsea.Backward Q g ls { bs with bsRsea := s', bsPos := .middle }
              pre l post ys ([y] ++ xs) :=
            ⟨h.leaves, hitems, v, hlinks, hrange, hbegin, Or.inr hat⟩
          simp only
          split
          · -- the key is skipped
            next hskip =>
              rw [hsrk] at hskip
              have hfuel' : ys.length + (items pre).length + pre.length < fuel := by
                rw [List.length_append, List.length_singleton] at hfuel
                omega
              obtain ⟨rc, bs', hloop, hfrom⟩ := ih (nloop + 1) hback hfuel'
              exact ⟨rc, bs', hloop, hfrom.reject hskip.1⟩
          · refine ⟨_, _, rfl, ?_⟩
            rw [hsrk]
            exact .key hback rfl hsrk (r := []) rfl (by simp)
        · rw [hrc, hlinks.deliverBack_ended hrange hrc]
          exact ⟨_, _, rfl, .ended rfl (by simp)⟩

/-! ## Repeated calls -/

/-- The keys and leaves before the cursor are not more than those of the tree. -/
theorem Btrsea.Backward.length_le (h : bs.Backward Q g ls pre l post ys xs) :
    ys.length + (LeafScan.items pre).length + pre.length <
      (LeafScan.items ls).length + ls.length := by
  rw [h.leaves, items_append, items_cons, h.items]
  simp only [List.length_append, List.length_cons]
  omega

/-- Repeated calls of `dbe_btrsea_getprev` return the accepted keys before the cursor
and then the end. -/
theorem repeatSearch_getprev (hwf : b.WellFormed Q first ls)
    (hfirst : first.rank < g.kb.rank) (hcons : ConsAnswers checkcons) {fuel : ℕ}
    (hfuel : (items ls).length + ls.length ≤ fuel) {calls : ℕ}
    (hcalls : (g.deliverBack ys l pre).length < calls)
    (h : bs.Backward Q g ls pre l post ys xs) (hpos : bs.bsPos ≠ .first) :
    ∃ bs', repeatSearch (dbeBtrseaGetprev b checkcons fuel) calls bs =
      some (accepted checkcons (g.deliverBack ys l pre), bs') := by
  induction calls generalizing bs pre l post ys xs with
  | zero => exact absurd hcalls (Nat.not_lt_zero _)
  | succ calls ih =>
      obtain ⟨rc, bs1, hloop, hfrom⟩ :=
        btrseaGetprevLoop_spec checkcons hwf hfirst 0 h
          (h.length_le.trans_le hfuel)
      rw [repeatSearch, dbeBtrseaGetprev, if_neg hpos, hloop, Option.bind_some]
      cases hfrom with
      | ended hpos1 hrej =>
          rw [accepted_rejected hrej]
          exact ⟨bs1, rfl⟩
      | key hback hpos1 hsrk htodo hrej =>
          rename_i pre1 l1 post1 ys1 xs1 rej x
          have hmid : bs1.bsPos ≠ .first := by
            rw [hpos1]
            exact BseaPos.noConfusion
          have hcalls' : (g.deliverBack ys1 l1 pre1).length < calls := by
            rw [htodo, List.length_append, List.length_cons] at hcalls
            omega
          obtain ⟨bs', hrepeat⟩ := ih hcalls' hback hmid
          refine ⟨bs', ?_⟩
          rw [htodo, accepted_append, accepted_rejected hrej, List.nil_append]
          exact repeatSearch_key hcons hsrk hrepeat

end SolidDB
