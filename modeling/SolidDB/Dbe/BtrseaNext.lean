import SolidDB.Dbe.Btrsea

/-!
# The forward scan

Each call of `dbe_btrsea_getnext` passes keys that the constraints reject and returns
at the next one, or at the end of the range. Repeated calls return the keys that a
scan over the leaves delivers.
-/

namespace SolidDB

open LeafScan

variable {base : ℕ} {Q : KeyIn base → Prop} {b : Btree} {first : KeyIn base}
  {ls pre post : List (Leaf ℕ (KeyIn base))} {l : Leaf ℕ (KeyIn base)}
  {g : SearchRange base} {bs : Btrsea} {zs xs : List (KeyIn base)}
  {checkcons : List UInt8 → DbeRet}

theorem Btree.WellFormed.leaf_node (h : b.WellFormed Q first ls)
    (hls : ls = pre ++ l :: post) : b.node l.addr = ⟨0, recordsOf l.items⟩ :=
  (h.spans.leaf hls).1

theorem Btree.WellFormed.leaf_ordered (h : b.WellFormed Q first ls)
    (hls : ls = pre ++ l :: post) : Ordered l.items := by
  obtain ⟨-, hi, hkeys, -⟩ := h.spans.leaf hls
  exact hkeys.ordered

theorem Btree.WellFormed.leaf_clear (h : b.WellFormed Q first ls)
    (hls : ls = pre ++ l :: post) {k : KeyIn base} (hq : Q k) (hk : FallsInto k l post) :
    SearchClear k l.items := by
  obtain ⟨-, hi, hkeys, hrank⟩ := h.spans.leaf hls
  refine hkeys.clear k hq ⟨hk.1, ?_⟩
  rintro h rfl
  cases post with
  | nil => exact absurd hrank (Option.some_ne_none _)
  | cons l' post =>
      rw [Option.some.inj hrank]
      exact hk.2 l' List.mem_cons_self

/-! ## One key of a leaf -/

theorem nrsSaveindex_next {s s' : RseaState} {rc : DbeRet}
    (h : dbeBnodeRseaNext s = some (rc, s')) :
    s'.nrs.nrsSaveindex = s.nrs.nrsSaveindex := by
  have hcheck {s s' : RseaState} {rc : DbeRet} (h : rseaCheckend s = (rc, s')) :
      s'.nrs.nrsSaveindex = s.nrs.nrsSaveindex := by
    unfold rseaCheckend at h
    cases hc : dbeBkrsCheckrangeend s.krs s.srk <;> rw [hc] at h <;>
      rw [← (Prod.mk.inj h).2]
  have hinit {s s' : RseaState} {c : Option ℤ} (h : bnodeRseaNextorprevinit s = some (c, s')) :
      s'.nrs.nrsSaveindex = s.nrs.nrsSaveindex := by
    unfold bnodeRseaNextorprevinit at h
    by_cases hzero : s.nrs.nrsKeys.length = 0
    · rw [if_pos hzero] at h
      rw [← (Prod.mk.inj (Option.some.inj h)).2]
    · rw [if_neg hzero] at h
      simp only at h
      split at h
      · obtain ⟨srk, -, heq⟩ := Option.map_eq_some_iff.mp h
        rw [← (Prod.mk.inj heq).2]
      · rw [← (Prod.mk.inj (Option.some.inj h)).2]
  rw [dbeBnodeRseaNext] at h
  split at h
  · simp only at h
    split at h
    · obtain ⟨⟨c, s1⟩, hs1, heq⟩ := Option.map_eq_some_iff.mp h
      have hsave := hinit hs1
      cases c with
      | none => exact (Prod.mk.inj heq).2 ▸ hsave
      | some c =>
          have hend := hcheck heq
          exact hend.trans hsave
    · split at h
      · have hend := hcheck (Option.some.inj h)
        exact hend
      · rw [← (Prod.mk.inj (Option.some.inj h)).2]
  · split at h
    · rw [← (Prod.mk.inj (Option.some.inj h)).2]
    · simp only at h
      split at h
      · obtain ⟨srk, -, heq⟩ := Option.map_eq_some_iff.mp h
        have hend := hcheck heq
        exact hend
      · rw [← (Prod.mk.inj (Option.some.inj h)).2]

theorem split_below_unique {lo hi zs xs : List (KeyIn base)} {k : KeyIn base}
    (h : lo ++ hi = zs ++ xs) (hlo : ∀ x ∈ lo, x.rank < k.rank)
    (hhi : ∀ x ∈ hi, k.rank ≤ x.rank) (hzs : ∀ x ∈ zs, x.rank < k.rank)
    (hxs : ∀ x ∈ xs, k.rank ≤ x.rank) : lo = zs ∧ hi = xs := by
  have hfront {a c : List (KeyIn base)} (ha : ∀ x ∈ a, x.rank < k.rank)
      (hc : ∀ x ∈ c, k.rank ≤ x.rank) :
      (a ++ c).filter (fun x => decide (x.rank < k.rank)) = a := by
    rw [List.filter_append, List.filter_eq_self.mpr (by simpa using ha),
      List.filter_eq_nil_iff.mpr (by simpa using hc), List.append_nil]
  have heq : lo = zs := by rw [← hfront hlo hhi, h, hfront hzs hxs]
  subst heq
  exact ⟨rfl, List.append_cancel_left h⟩

/-- The next key of the leaf, with the answer of the check against the range end. -/
theorem Btrsea.Forward.rseaNext (hwf : b.WellFormed Q first ls)
    (h : bs.Forward Q g ls pre l post zs xs) :
    ∃ s' v, dbeBnodeRseaNext bs.bsRsea = some (xs.head?.elim .notfound v.endRc, s') ∧
      s'.At l.items v zs.length ∧ v.Links Q l post ∧ v.range = g ∧
      s'.nrs.nrsSaveindex = none := by
  obtain ⟨v, hlinks, hrange, hstands⟩ := h.stands
  rcases hstands with ⟨hfresh, hbegin, hq, hfalls, hzs, hxs⟩ | ⟨i, hat, hi⟩
  · obtain ⟨lo, hi, s', hks, hlo, hhi, heq, hat⟩ :=
      dbeBnodeRseaNext_fresh hfresh hbegin (hwf.leaf_ordered h.leaves)
        (hwf.leaf_clear h.leaves hq hfalls)
    obtain ⟨rfl, rfl⟩ := split_below_unique (hks.symm.trans h.items) hlo hhi hzs hxs
    exact ⟨s', v.clearbegin, heq, hat, hlinks.clearbegin, hrange,
      (nrsSaveindex_next heq).trans h.nosave⟩
  · obtain ⟨s', heq, hat'⟩ := hat.next
    have hlen : min (i + 1) l.items.length = zs.length := by
      rw [h.items, List.length_append, ← hi]
      exact Nat.min_eq_left (Nat.le_add_right _ _)
    have hx : l.items[i + 1]? = xs.head? := by
      rw [h.items, ← hi, List.getElem?_append_right (le_refl _), Nat.sub_self,
        List.head?_eq_getElem?]
    rw [hx] at heq
    rw [hlen] at hat'
    exact ⟨s', v, heq, hat', hlinks, hrange, (nrsSaveindex_next heq).trans h.nosave⟩

/-! ## One call -/

/-- What a call leaves that has passed the keys `passed` and has the keys `todo` before
it: the rejected keys are passed, and it returns at the end or at the next key. -/
inductive NextFrom (Q : KeyIn base → Prop) (g : SearchRange base)
    (ls : List (Leaf ℕ (KeyIn base))) (checkcons : List UInt8 → DbeRet)
    (passed todo : List (KeyIn base)) (seen : List (Leaf ℕ (KeyIn base)))
    (trace : List ℕ) : DbeRet → Btrsea → Prop
  | ended {bs : Btrsea} {pre : List (Leaf ℕ (KeyIn base))} {l : Leaf ℕ (KeyIn base)}
      {post : List (Leaf ℕ (KeyIn base))} {zs xs : List (KeyIn base)}
      (hback : Btrsea.Backward Q g ls bs pre l post zs xs)
      (hpos : bs.bsPos = .last) (htrace : Traced seen trace pre l bs)
      (hpassed : items pre ++ zs = passed ++ todo)
      (hrej : ∀ x ∈ todo, checkcons x.1.bytes = .notfound) :
      NextFrom Q g ls checkcons passed todo seen trace .ended bs
  | key {bs : Btrsea} {pre : List (Leaf ℕ (KeyIn base))} {l : Leaf ℕ (KeyIn base)}
      {post : List (Leaf ℕ (KeyIn base))} {zs xs r : List (KeyIn base)} {x : KeyIn base}
      (hforward : Btrsea.Forward Q g ls bs pre l post (zs ++ [x]) xs)
      (hpos : bs.bsPos = .middle) (htrace : Traced seen trace pre l bs)
      (hsrk : bs.bsRsea.srk = x.1.bytes)
      (htodo : todo = r ++ x :: g.deliver xs post)
      (hpassed : items pre ++ zs = passed ++ r)
      (hrej : ∀ y ∈ r, checkcons y.1.bytes = .notfound) :
      NextFrom Q g ls checkcons passed todo seen trace (checkcons x.1.bytes) bs

variable {passed todo : List (KeyIn base)} {seen : List (Leaf ℕ (KeyIn base))}
  {trace : List ℕ} {rc : DbeRet}

theorem NextFrom.reject {x : KeyIn base} (hx : checkcons x.1.bytes = .notfound)
    (h : NextFrom Q g ls checkcons (passed ++ [x]) todo seen trace rc bs) :
    NextFrom Q g ls checkcons passed (x :: todo) seen trace rc bs := by
  cases h with
  | ended hback hpos htrace hpassed hrej =>
      refine .ended hback hpos htrace ?_ (List.forall_mem_cons.mpr ⟨hx, hrej⟩)
      rw [hpassed, List.append_assoc, List.singleton_append]
  | key hforward hpos htrace hsrk htodo hpassed hrej =>
      refine .key hforward hpos htrace hsrk (r := x :: _) ?_ ?_
        (List.forall_mem_cons.mpr ⟨hx, hrej⟩)
      · rw [htodo, List.cons_append]
      · rw [hpassed, List.append_assoc, List.singleton_append]

theorem NextFrom.readleaf {m : Leaf ℕ (KeyIn base)}
    (h : NextFrom Q g ls checkcons passed todo (seen ++ [m]) (m.addr :: trace) rc bs) :
    NextFrom Q g ls checkcons passed todo seen trace rc bs := by
  cases h with
  | ended hback hpos htrace hpassed hrej =>
      exact .ended hback hpos htrace.cons hpassed hrej
  | key hforward hpos htrace hsrk htodo hpassed hrej =>
      exact .key hforward hpos htrace.cons hsrk htodo hpassed hrej

theorem Btree.WellFormed.first_le_sep (h : b.WellFormed Q first ls) (hl : l ∈ ls) :
    first.rank ≤ l.sep.rank := h.spans.sep_le h.sorted hl

theorem Btree.WellFormed.nextLeaf (hwf : b.WellFormed Q first ls) {v : KrsView base}
    {krs : Bkrs} {l' : Leaf ℕ (KeyIn base)} (hleaves : ls = pre ++ l :: l' :: post)
    (hlinks : v.Links Q l (l' :: post)) (hrange : v.range = g) (hshows : krs.Shows v)
    {n : KeyIn base} (hnext : v.next = some n) (hn : n.rank = l'.sep.rank) :
    ∃ krs1 krs2 v2, dbeBkrsStartnextstep krs = some krs1 ∧
      btrseaNextorprevnode b .next krs1 = some (l'.addr, krs2) ∧ krs2.Shows v2 ∧
      v2.Links Q l' post ∧ v2.range = g ∧ v2.isbegin = true ∧ Q v2.kcb ∧
      v2.kcb.rank = l'.sep.rank ∧ FallsInto v2.kcb l' post := by
  have hstart := hshows.startnextstep
  rw [hnext] at hstart
  obtain ⟨krs1, hkrs1, hshows1⟩ := hstart
  have hqn : Q n := hlinks.nextQ n hnext
  have hlevel : (b.node b.bRootaddr).nLevel ≠ 0 := by
    intro hzero
    have hspans := hwf.spans
    rw [hzero] at hspans
    obtain ⟨ks, -, -, hone⟩ := hspans
    have hlen := congrArg List.length (hone.symm.trans hleaves)
    simp only [List.length_append, List.length_cons, List.length_nil] at hlen
    omega
  obtain ⟨pre2, l2, post2, m, krs2, hsplit, hl2, hpost2, hm, hdesc, hshows2⟩ :=
    btrseaDescend_next hwf.spans hwf.sorted hshows1 hqn
      ⟨hwf.first_le_sep (l := l') (by rw [hleaves]; simp) |>.trans hn.ge,
        fun h hh => absurd hh.symm (Option.some_ne_none h)⟩
      (fun h => absurd h hlevel) (le_refl _)
  have hpost : ∀ l2 ∈ post, ¬ l2.sep.rank ≤ n.rank := by
    intro l2 hl2
    have hs : Sorted KeyIn.rank (l' :: post) := hwf.sorted.of_sublist (by
      rw [hleaves]
      exact (List.sublist_cons_self l _).trans (List.sublist_append_right _ _))
    rw [hn, not_le]
    exact ((List.pairwise_cons.mp hs.seps).1 l2 hl2).1
  have heq : (pre ++ [l]) ++ l' :: post = pre2 ++ l2 :: post2 := by
    rw [← hsplit, hleaves, List.append_assoc]
    rfl
  obtain ⟨-, rfl, rfl⟩ := split_unique (p := fun l2 => l2.sep.rank ≤ n.rank) heq
    (Or.inl hn.ge) hpost (Or.inl hl2) (fun l3 hl3 => not_le.mpr (hpost2 l3 hl3))
  have hfalls : FallsInto n l' post :=
    ⟨hn.ge, fun l2 hl2 => (not_le.mp (hpost l2 hl2)).le⟩
  refine ⟨krs1, krs2, _, hkrs1, hdesc, hshows2, ?_, ?_, by simp, by simpa using hqn,
    by simpa using hn, by simpa using hfalls⟩
  · exact KrsView.Links.of_descent hm rfl (fun _ => hn) (fun _ => hqn)
  · rw [KrsView.range_setPrev, KrsView.range_setNextOf]
    exact hrange

theorem RseaState.At.donest {s : RseaState} {ks : List (KeyIn base)} {v : KrsView base}
    {i : ℕ} (h : s.At ks v i) (hsave : s.nrs.nrsSaveindex = none) :
    RseaState.At { s with nrs := dbeBnodeRseaDonest s.nrs } ks v i :=
  { h with saved := fun j hj => absurd (hj.symm.trans hsave) (Option.some_ne_none j) }

variable (checkcons) in
theorem btrseaGetnextLoop_spec (hwf : b.WellFormed Q first ls)
    {fuel : ℕ} (nloop : ℕ)
    (h : bs.Forward Q g ls pre l post zs xs)
    (hfuel : xs.length + (items post).length + post.length < fuel) :
    ∃ rc bs', btrseaGetnextLoop b checkcons fuel nloop bs = some (rc, bs') ∧
      NextFrom Q g ls checkcons (items pre ++ zs) (g.deliver xs post) (pre ++ [l])
        bs.bsReadleafs rc bs' := by
  induction fuel generalizing nloop bs pre l post zs xs with
  | zero => exact absurd hfuel (Nat.not_lt_zero _)
  | succ fuel ih =>
      obtain ⟨s', v, heq, hat, hlinks, hrange, hsave⟩ := h.rseaNext hwf
      rw [btrseaGetnextLoop, heq, Option.bind_some]
      cases xs with
      | nil =>
          -- the end of the leaf
          simp only [List.head?_nil, Option.elim_none]
          cases hnext : v.next with
          | none =>
              have hstart := hat.shows.startnextstep
              rw [hnext] at hstart
              simp only [hstart]
              rw [hlinks.deliver_nil hrange hnext]
              refine ⟨_, _, rfl, .ended ⟨h.leaves, h.items, v, hlinks, hrange, hat.isbegin,
                Or.inr (hat.donest hsave)⟩ rfl (Traced.refl pre l _) ?_ (by simp)⟩
              rw [List.append_nil]
          | some n =>
              obtain ⟨l', post', rfl, hn, hdel⟩ := hlinks.deliver_next hrange hnext
              obtain ⟨krs1, krs2, v2, hstart, hdesc, hshows2, hlinks2, hrange2, hbegin2, hq2,
                hkcb, hfalls⟩ := hwf.nextLeaf h.leaves hlinks hrange hat.shows hnext hn
              have hmem' : l' ∈ ls := by rw [h.leaves]; simp
              have hleaves' : ls = (pre ++ [l]) ++ l' :: post' := by
                rw [h.leaves, List.append_assoc]
                rfl
              have hnode := hwf.leaf_node hleaves'
              simp only [hstart, hdesc, Option.bind_some]
              have hlow := hwf.sorted.lower l' hmem'
              have hforward : (btrseaReadleaf b { bs with bsRsea :=
                  { s' with nrs := dbeBnodeRseaDonest s'.nrs } } l'.addr krs2).Forward Q g ls
                  (pre ++ [l]) l' post' [] l'.items := by
                refine ⟨hleaves', rfl, rfl, v2, hlinks2, hrange2, Or.inl ⟨⟨?_, hshows2⟩,
                  hbegin2, hq2, hfalls, by simp, fun x hx => hkcb ▸ hlow x hx⟩⟩
                change dbeBnodeRseaInitst (b.node l'.addr).nKeys = _
                rw [hnode]
              have hfuel' : l'.items.length + (items post').length + post'.length < fuel := by
                rw [List.length_nil, items_cons, List.length_append, List.length_cons] at hfuel
                omega
              obtain ⟨rc, bs', hloop, hfrom⟩ := ih (nloop + 1) hforward hfuel'
              refine ⟨rc, bs', hloop, ?_⟩
              rw [hdel, h.items] at *
              rw [items_append, items_cons, items_nil, h.items] at hfrom
              simp only [List.append_nil] at hfrom ⊢
              exact hfrom.readleaf
      | cons x xs =>
          have hx : l.items[zs.length]? = some x := by
            rw [h.items, List.getElem?_append_right (le_refl _), Nat.sub_self]
            rfl
          have hsrk := hat.srk x hx
          simp only [List.head?_cons, Option.elim_some]
          rcases endRc_cases v x with hrc | hrc
          · rw [hrc, hlinks.deliver_found hrange hrc]
            have hitems : l.items = (zs ++ [x]) ++ xs := by
              rw [h.items, List.append_assoc]
              rfl
            have hforward : Btrsea.Forward Q g ls { bs with bsRsea := s', bsPos := .middle }
                pre l post (zs ++ [x]) xs :=
              ⟨h.leaves, hitems, hsave, v, hlinks, hrange,
                Or.inr ⟨zs.length, hat, by rw [List.length_append, List.length_singleton]⟩⟩
            simp only
            split
            · -- the key is skipped
              next hskip =>
                rw [hsrk] at hskip
                have hfuel' : xs.length + (items post).length + post.length < fuel := by
                  rw [List.length_cons] at hfuel
                  omega
                obtain ⟨rc, bs', hloop, hfrom⟩ := ih (nloop + 1) hforward hfuel'
                rw [← List.append_assoc] at hfrom
                exact ⟨rc, bs', hloop, hfrom.reject hskip.1⟩
            · refine ⟨_, _, rfl, ?_⟩
              rw [hsrk]
              exact .key hforward rfl (Traced.refl pre l _) hsrk (r := []) rfl
                (List.append_nil _).symm (by simp)
          · rw [hrc, hlinks.deliver_ended hrange hrc]
            refine ⟨_, _, rfl, .ended ⟨h.leaves, h.items, v, hlinks, hrange, hat.isbegin,
              Or.inr hat⟩ rfl (Traced.refl pre l _) ?_ (by simp)⟩
            rw [List.append_nil]

/-! ## Repeated calls -/

def accepted (checkcons : List UInt8 → DbeRet) (ks : List (KeyIn base)) :
    List (List UInt8) :=
  (ks.map fun k => k.1.bytes).filter fun k => checkcons k != .notfound

theorem accepted_append (ks ks' : List (KeyIn base)) :
    accepted checkcons (ks ++ ks') = accepted checkcons ks ++ accepted checkcons ks' := by
  rw [accepted, List.map_append, List.filter_append]
  rfl

theorem accepted_rejected {ks : List (KeyIn base)}
    (h : ∀ x ∈ ks, checkcons x.1.bytes = .notfound) : accepted checkcons ks = [] := by
  rw [accepted, List.filter_eq_nil_iff]
  intro k hk
  obtain ⟨x, hx, rfl⟩ := List.mem_map.mp hk
  simp [h x hx]

theorem accepted_cons_of_notfound {x : KeyIn base} (ks : List (KeyIn base))
    (hx : checkcons x.1.bytes = .notfound) :
    accepted checkcons (x :: ks) = accepted checkcons ks := by
  rw [accepted, List.map_cons, List.filter_cons_of_neg (by simp [hx])]
  rfl

theorem accepted_cons_of_ne {x : KeyIn base} (ks : List (KeyIn base))
    (hx : checkcons x.1.bytes ≠ .notfound) :
    accepted checkcons (x :: ks) = x.1.bytes :: accepted checkcons ks := by
  rw [accepted, List.map_cons, List.filter_cons_of_pos (by simpa using hx)]
  rfl

theorem repeatSearch_key {get : Btrsea → Option (DbeRet × Btrsea)} {calls : ℕ}
    (hcons : ConsAnswers checkcons) {x : KeyIn base} {ks : List (KeyIn base)} {bs' : Btrsea}
    (hsrk : bs.bsRsea.srk = x.1.bytes)
    (hrest : repeatSearch get calls bs = some (accepted checkcons ks, bs')) :
    (match checkcons x.1.bytes with
      | .ended => some ([], bs)
      | .notfound => repeatSearch get calls bs
      | _ => (repeatSearch get calls bs).map fun (ks, bs') => (bs.bsRsea.srk :: ks, bs')) =
      some (accepted checkcons (x :: ks), bs') := by
  rcases hcons x.1.bytes with hc | hc | hc
  · rw [accepted_cons_of_ne ks (by rw [hc]; exact DbeRet.noConfusion), ← hsrk, hrest]
    simp only [hsrk, hc]
    rfl
  · rw [accepted_cons_of_notfound ks hc, hrest]
    simp only [hc]
  · rw [accepted_cons_of_ne ks (by rw [hc]; exact DbeRet.noConfusion), ← hsrk, hrest]
    simp only [hsrk, hc]
    rfl

theorem Traced.trans {pre' : List (Leaf ℕ (KeyIn base))} {l' : Leaf ℕ (KeyIn base)}
    {bs' : Btrsea} (h : Traced seen trace pre l bs)
    (h' : Traced (pre ++ [l]) bs.bsReadleafs pre' l' bs') : Traced seen trace pre' l' bs' := by
  obtain ⟨moved, hseen, htrace⟩ := h
  obtain ⟨moved', hseen', htrace'⟩ := h'
  refine ⟨moved ++ moved', ?_, ?_⟩
  · rw [hseen', hseen, List.append_assoc]
  · rw [htrace', htrace, List.map_append, List.reverse_append, List.append_assoc]

/-- The keys and leaves that a cursor has before it are not more than those of the
tree. -/
theorem Btrsea.Forward.length_le (h : bs.Forward Q g ls pre l post zs xs) :
    xs.length + (LeafScan.items post).length + post.length <
      (LeafScan.items ls).length + ls.length := by
  rw [h.leaves, items_append, items_cons, h.items]
  simp only [List.length_append, List.length_cons]
  omega

/-- The end of a forward scan that has passed the keys `passed`: the cursor stands
behind them and can go back. -/
def ScanEnd (Q : KeyIn base → Prop) (g : SearchRange base)
    (ls : List (Leaf ℕ (KeyIn base))) (passed : List (KeyIn base))
    (seen : List (Leaf ℕ (KeyIn base))) (trace : List ℕ) (bs : Btrsea) : Prop :=
  ∃ pre l post zs xs, bs.Backward Q g ls pre l post zs xs ∧ bs.bsPos = .last ∧
    Traced seen trace pre l bs ∧ items pre ++ zs = passed

/-- Repeated calls of `dbe_btrsea_getnext` return the accepted keys before the cursor
and then the end. -/
theorem repeatSearch_getnext (hwf : b.WellFormed Q first ls)
    (hcons : ConsAnswers checkcons) {fuel : ℕ} (hfuel : (items ls).length + ls.length ≤ fuel)
    {calls : ℕ} (hcalls : (g.deliver xs post).length < calls)
    (h : bs.Forward Q g ls pre l post zs xs) (hpos : bs.bsPos ≠ .last) :
    ∃ bs', repeatSearch (dbeBtrseaGetnext b checkcons fuel) calls bs =
        some (accepted checkcons (g.deliver xs post), bs') ∧
      ScanEnd Q g ls (items pre ++ zs ++ g.deliver xs post) (pre ++ [l]) bs.bsReadleafs
        bs' := by
  induction calls generalizing bs pre l post zs xs with
  | zero => exact absurd hcalls (Nat.not_lt_zero _)
  | succ calls ih =>
      obtain ⟨rc, bs1, hloop, hfrom⟩ :=
        btrseaGetnextLoop_spec checkcons hwf 0 h (h.length_le.trans_le hfuel)
      rw [repeatSearch, dbeBtrseaGetnext, if_neg hpos, hloop, Option.bind_some]
      cases hfrom with
      | ended hback hpos1 htrace hpassed hrej =>
          refine ⟨bs1, ?_, _, _, _, _, _, hback, hpos1, htrace, hpassed⟩
          rw [accepted_rejected hrej]
      | key hforward hpos1 htrace hsrk htodo hpassed hrej =>
          rename_i pre1 l1 post1 zs1 xs1 rej x
          have hmid : bs1.bsPos ≠ .last := by
            rw [hpos1]
            exact BseaPos.noConfusion
          have hcalls' : (g.deliver xs1 post1).length < calls := by
            rw [htodo, List.length_append, List.length_cons] at hcalls
            omega
          obtain ⟨bs', hrepeat, pre', l', post', zs', xs', hback, hpos', htrace', hpassed'⟩ :=
            ih hcalls' hforward hmid
          have hend : ScanEnd Q g ls (items pre ++ zs ++ g.deliver xs post) (pre ++ [l])
              bs.bsReadleafs bs' := by
            refine ⟨pre', l', post', zs', xs', hback, hpos', htrace.trans htrace', ?_⟩
            rw [hpassed', htodo, ← List.append_assoc, hpassed]
            simp only [List.append_assoc, List.singleton_append]
          refine ⟨bs', ?_, hend⟩
          rw [htodo, accepted_append, accepted_rejected hrej, List.nil_append]
          exact repeatSearch_key hcons hsrk hrepeat

end SolidDB
