import SolidDB.Dbe.BtrseaPrev
import SolidDB.Dbe.IndseaResetkey

/-!
# Range scans are exact

A scan forward returns the keys of the range in ascending order, a scan back from its
end returns them in descending order, and a scan goes on from any reset key, unless a
key at the closed end of the range begins a leaf of its own.
-/

namespace SolidDB

open LeafScan

variable {base : ℕ}

/-! ## Ranges -/

def KeyIn.searchmin (base : ℕ) : KeyIn base :=
  ⟨leafKey 0 0 [[1]] oneField_ne oneField_length, Or.inl rfl⟩

def KeyIn.searchmax (base : ℕ) : KeyIn base :=
  ⟨leafKey 0 0 [List.replicate 9 255] (by decide) (by decide), Or.inl rfl⟩

/-- The range between two limits of which either may be missing. -/
def SearchRange.of (kb ke : Option (KeyIn base)) (keOpen : Bool) : SearchRange base where
  kb := kb.getD (KeyIn.searchmin base)
  ke := ke.getD (KeyIn.searchmax base)
  keOpen := ke.isSome && keOpen

def SearchRange.withinEnd (g : SearchRange base) (x : KeyIn base) : Bool :=
  LeafScan.withinEnd KeyIn.rank g.ke.rank g.keOpen x

def SearchRange.keysFrom (g : SearchRange base) (ls : List (Leaf ℕ (KeyIn base)))
    (k : KeyIn base) : List (KeyIn base) :=
  (items ls).filter fun x => decide (k.rank ≤ x.rank) && g.withinEnd x

def SearchRange.keysBehind (g : SearchRange base) (ls : List (Leaf ℕ (KeyIn base)))
    (k : KeyIn base) : List (KeyIn base) :=
  (items ls).filter fun x => decide (k.rank < x.rank) && g.withinEnd x

def SearchRange.keys (g : SearchRange base) (ls : List (Leaf ℕ (KeyIn base))) :
    List (KeyIn base) := g.keysFrom ls g.kb

/-- A key at the closed end of the range begins a leaf. -/
def SearchRange.Missed (g : SearchRange base) (ls : List (Leaf ℕ (KeyIn base))) : Prop :=
  LeafScan.Missed KeyIn.rank g.ke.rank g.keOpen ls

def Btrsea.HasRange (bs : Btrsea) (g : SearchRange base) : Prop :=
  bs.bsRsea.krs.krsKb = g.kb.1.bytes ∧ bs.bsRsea.krs.krsKe = g.ke.1.bytes ∧
    bs.bsRsea.krs.krsKeOpen = g.keOpen

/-- The leaves read are a segment of the leaves of the tree with all that have keys of
the range. -/
def VisitsLeaves (g : SearchRange base) (ls : List (Leaf ℕ (KeyIn base))) (bs : Btrsea) :
    Prop :=
  ∃ visited, visited <:+: ls ∧ bs.bsReadleafs.reverse = visited.map Leaf.addr ∧
    ∀ l ∈ ls, (∃ x ∈ l.items, x ∈ g.keys ls) → l ∈ visited

structure RangeScanExact (Q : KeyIn base → Prop) (b : Btree)
    (ls : List (Leaf ℕ (KeyIn base))) (kb ke : Option (KeyIn base)) (keOpen : Bool)
    (checkcons : List UInt8 → DbeRet) (fuel calls : ℕ) : Prop where
  scan : ∃ bs bs' bs'', dbeBtrseaInit b (kb.map fun k => k.1.bytes)
        (ke.map fun k => k.1.bytes) keOpen = some bs ∧
      repeatSearch (dbeBtrseaGetnext b checkcons fuel) calls bs =
        some (accepted checkcons ((SearchRange.of kb ke keOpen).keys ls), bs') ∧
      VisitsLeaves (SearchRange.of kb ke keOpen) ls bs' ∧
      repeatSearch (dbeBtrseaGetprev b checkcons fuel) calls bs' =
        some (accepted checkcons ((SearchRange.of kb ke keOpen).keys ls).reverse, bs'')
  reset : ∀ (bs : Btrsea) (r : KeyIn base), bs.HasRange (SearchRange.of kb ke keOpen) → Q r →
    (SearchRange.of kb ke keOpen).kb.rank ≤ r.rank →
    (SearchRange.of kb ke keOpen).withinEnd r = true →
      ∃ bs' bs'', dbeBtrseaSetresetkey b bs r.1.bytes = some bs' ∧
        repeatSearch (dbeBtrseaGetnext b checkcons fuel) calls bs' =
          some (accepted checkcons ((SearchRange.of kb ke keOpen).keysFrom ls r), bs'')
  skip : ∀ (bs : Btrsea) (r : KeyIn base)
    (hlen : 11 + (encVtpl r.1.vtpl).length < bkeyMaxlen)
    (hw : (r.1.nextResetkey hlen).InWindow base),
    bs.HasRange (SearchRange.of kb ke keOpen) → Q ⟨_, hw⟩ → r.1.IsLeaf →
    r.1.header.trxid < dbeCtrMaxlimit → (∀ x ∈ items ls, TrxidsLike r.1 x.1) →
    (SearchRange.of kb ke keOpen).kb.rank ≤ r.rank →
    (SearchRange.of kb ke keOpen).withinEnd r = true →
      ∃ bs' bs'', dbeBtrseaSetresetkey b bs (indseaNextResetkey r.1.bytes) = some bs' ∧
        repeatSearch (dbeBtrseaGetnext b checkcons fuel) calls bs' =
          some (accepted checkcons ((SearchRange.of kb ke keOpen).keysBehind ls r), bs'')

/-! ## The keys before a cursor -/

variable {Q : KeyIn base → Prop} {b : Btree} {first : KeyIn base}
  {ls pre post : List (Leaf ℕ (KeyIn base))} {l : Leaf ℕ (KeyIn base)}
  {g : SearchRange base} {bs : Btrsea} {zs xs : List (KeyIn base)}
  {checkcons : List UInt8 → DbeRet} {k : KeyIn base}

structure Btrsea.Before (Q : KeyIn base → Prop) (g : SearchRange base)
    (ls : List (Leaf ℕ (KeyIn base))) (bs : Btrsea) (pre : List (Leaf ℕ (KeyIn base)))
    (l : Leaf ℕ (KeyIn base)) (post : List (Leaf ℕ (KeyIn base)))
    (zs xs : List (KeyIn base)) (k : KeyIn base) : Prop where
  forward : bs.Forward Q g ls pre l post zs xs
  pos : bs.bsPos ≠ .last
  trace : bs.bsReadleafs = [l.addr]
  behind : ∀ x ∈ items pre ++ zs, x.rank < k.rank
  before : ∀ x ∈ xs ++ items post, k.rank ≤ x.rank

theorem before_of_leaf (s : Btrsea) (hwf : b.WellFormed Q first ls) {v : KrsView base}
    (hleaves : ls = pre ++ l :: post) (hlinks : v.Links Q l post) (hrange : v.range = g)
    (hbegin : v.isbegin = true) (hq : Q v.kcb) (hl : l.sep.rank ≤ v.kcb.rank)
    (hpost : ∀ l' ∈ post, v.kcb.rank ≤ l'.sep.rank) (hfresh : s.bsRsea.Fresh l.items v)
    (hpos : s.bsPos ≠ .last) (htrace : s.bsReadleafs = [l.addr]) :
    ∃ zs xs, s.Before Q g ls pre l post zs xs v.kcb := by
  obtain ⟨zs, xs, hitems, hzs, hxs⟩ : ∃ zs xs, l.items = zs ++ xs ∧
      (∀ z ∈ zs, z.rank < v.kcb.rank) ∧ ∀ x ∈ xs, v.kcb.rank ≤ x.rank := by
    obtain ⟨lo, hi, cmp, hks, -, hstop⟩ := compareKeys_stopsAt v.kcb
      (hwf.leaf_ordered hleaves)
    exact ⟨lo, hi, hks, hstop.below, hstop.above⟩
  have hsort := hwf.sorted
  rw [hleaves] at hsort
  refine ⟨zs, xs, ⟨hleaves, hitems, by rw [hfresh.nrs]; rfl, v, hlinks, hrange,
    Or.inl ⟨hfresh, hbegin, hq, ⟨hl, hpost⟩, hzs, hxs⟩⟩, hpos, htrace, ?_, ?_⟩
  · intro x hx
    rcases List.mem_append.mp hx with hx | hx
    · exact (hsort.lt_sep hx).trans_le hl
    · exact hzs x hx
  · intro x hx
    rcases List.mem_append.mp hx with hx | hx
    · exact hxs x hx
    · obtain ⟨l', hl', hxl'⟩ := mem_items.mp hx
      exact (hpost l' hl').trans (hsort.lower l' (by simp [hl']) x hxl')

/-- A cursor before `k` delivers the keys of the range from `k` on. -/
theorem Btrsea.Before.deliver_eq (hwf : b.WellFormed Q first ls)
    (h : bs.Before Q g ls pre l post zs xs k) (hmiss : ¬ g.Missed post) :
    g.deliver xs post = g.keysFrom ls k := by
  have hforward := h.forward
  have hsort : Sorted KeyIn.rank (l :: post) := hwf.sorted.of_sublist (by
    rw [hforward.leaves]
    exact List.sublist_append_right _ _)
  have hxs : xs.Sublist l.items := by
    rw [hforward.items]
    exact List.sublist_append_right _ _
  have hsplit : LeafScan.items ls =
      (LeafScan.items pre ++ zs) ++ (xs ++ LeafScan.items post) := by
    rw [hforward.leaves, items_append, items_cons, hforward.items]
    simp only [List.append_assoc]
  have hnone : (LeafScan.items pre ++ zs).filter
      (fun x => decide (k.rank ≤ x.rank) && g.withinEnd x) = [] := by
    rw [List.filter_eq_nil_iff]
    intro x hx
    simp [h.behind x hx]
  have hall : (xs ++ LeafScan.items post).filter
      (fun x => decide (k.rank ≤ x.rank) && g.withinEnd x) =
      (xs ++ LeafScan.items post).filter g.withinEnd := by
    apply List.filter_congr
    intro x hx
    rw [decide_eq_true (h.before x hx), Bool.true_and]
  rw [SearchRange.keysFrom, hsplit, List.filter_append, hnone, hall, List.nil_append]
  exact deliver_eq_filter hsort hxs hmiss

theorem dbeBtrseaInit_before (hwf : b.WellFormed Q first ls) {kb ke : Option (KeyIn base)}
    {keOpen : Bool} (hg : SearchRange.of kb ke keOpen = g) (hfirst : first.rank < g.kb.rank)
    (hq : Q g.kb) :
    ∃ bs pre l post zs xs, dbeBtrseaInit b (kb.map fun k => k.1.bytes)
        (ke.map fun k => k.1.bytes) keOpen = some bs ∧
      bs.Before Q g ls pre l post zs xs g.kb ∧ ∀ l' ∈ post, g.kb.rank < l'.sep.rank := by
  subst hg
  have hkb : (kb.map fun k => k.1.bytes).getD dbeBkeySearchmin =
      (kb.getD (KeyIn.searchmin base)).1.bytes := by
    cases kb with
    | none => rfl
    | some k => rfl
  have hke : (ke.map fun k => k.1.bytes).getD dbeBkeySearchmax =
      (ke.getD (KeyIn.searchmax base)).1.bytes := by
    cases ke with
    | none => rfl
    | some k => rfl
  have hshows : Bkrs.Shows { dbeBkrsInit (kb.map fun k => k.1.bytes)
      (ke.map fun k => k.1.bytes) keOpen with krsInit := false, krsBegin := true }
      (⟨(SearchRange.of kb ke keOpen).kb, (SearchRange.of kb ke keOpen).ke,
        (SearchRange.of kb ke keOpen).keOpen, (SearchRange.of kb ke keOpen).kb, true, false,
        none, none⟩ : KrsView base) :=
    { init := rfl
      kb := hkb
      ke := hke
      keOpen := by
        cases ke with
        | none => rfl
        | some k => rfl
      kcb := hkb
      isbegin := rfl
      isreset := rfl
      isnext := rfl
      kn := fun n hn => absurd hn.symm (Option.some_ne_none n)
      isprev := rfl
      kp := fun p hp => absurd hp.symm (Option.some_ne_none p) }
  obtain ⟨pre, l, post, n, krs, hleaves, hl', hpost, hn, hdesc, hshows'⟩ :=
    btrseaDescend_next hwf.spans hwf.sorted hshows hq
      ⟨hfirst.le, fun h hh => absurd hh.symm (Option.some_ne_none h)⟩
      (fun _ => by
        rw [KrsView.setPrev]
        exact congrArg _ (if_neg (lt_irrefl _)))
      (le_refl _)
  have hlinks := KrsView.Links.of_descent (l := l)
    (v := ⟨(SearchRange.of kb ke keOpen).kb, (SearchRange.of kb ke keOpen).ke,
      (SearchRange.of kb ke keOpen).keOpen, (SearchRange.of kb ke keOpen).kb, true, false,
      none, none⟩) (p := (SearchRange.of kb ke keOpen).kb) hn rfl
    (fun h => absurd h (by
      rintro (h | h)
      · exact absurd h hl'.not_gt
      · exact absurd h (lt_irrefl _)))
    (fun h => absurd h (lt_irrefl _))
  obtain ⟨zs, xs, hbefore⟩ := before_of_leaf
    { bsRsea := ⟨dbeBnodeRseaInitst (b.node l.addr).nKeys, krs, krs.krsKb⟩
      bsPos := .first
      bsN := l.addr
      bsReadleafs := [l.addr] }
    hwf hleaves hlinks (g := SearchRange.of kb ke keOpen)
    (by rw [KrsView.range_setPrev, KrsView.range_setNextOf]; rfl)
    (by rw [KrsView.isbegin_setPrev, KrsView.isbegin_setNextOf])
    (by rw [KrsView.kcb_setPrev, KrsView.kcb_setNextOf]; exact hq)
    (by rw [KrsView.kcb_setPrev, KrsView.kcb_setNextOf]; exact hl')
    (by
      rw [KrsView.kcb_setPrev, KrsView.kcb_setNextOf]
      exact fun l' hl' => (hpost l' hl').le)
    ⟨by rw [hwf.leaf_node hleaves], hshows'⟩ BseaPos.noConfusion rfl
  rw [KrsView.kcb_setPrev, KrsView.kcb_setNextOf] at hbefore
  refine ⟨_, pre, l, post, zs, xs, ?_, hbefore, hpost⟩
  have hstart : dbeBkrsStartnextstep (dbeBkrsInit (kb.map fun k => k.1.bytes)
      (ke.map fun k => k.1.bytes) keOpen) =
      some { dbeBkrsInit (kb.map fun k => k.1.bytes) (ke.map fun k => k.1.bytes) keOpen with
        krsInit := false, krsBegin := true } := rfl
  rw [dbeBtrseaInit, hstart, Option.bind_some, btrseaNextorprevnode, hdesc, Option.map_some]

theorem dbeBtrseaSetresetkey_before (hwf : b.WellFormed Q first ls)
    (hfirst : first.rank < g.kb.rank) (hbs : bs.HasRange g) {r : KeyIn base} (hq : Q r)
    (hr : g.kb.rank ≤ r.rank) :
    ∃ bs' pre l post zs xs, dbeBtrseaSetresetkey b bs r.1.bytes = some bs' ∧
      bs'.Before Q g ls pre l post zs xs r ∧ l.sep.rank < r.rank := by
  obtain ⟨hkb, hke, hopen⟩ := hbs
  have hshows : Bkrs.Shows { dbeBkrsSetresetkey bs.bsRsea.krs r.1.bytes with
      krsInit := false, krsBegin := true }
      (⟨g.kb, g.ke, g.keOpen, r, true, true, none, none⟩ : KrsView base) :=
    { init := rfl
      kb := hkb
      ke := hke
      keOpen := hopen
      kcb := rfl
      isbegin := rfl
      isreset := rfl
      isnext := rfl
      kn := fun n hn => absurd hn.symm (Option.some_ne_none n)
      isprev := rfl
      kp := fun p hp => absurd hp.symm (Option.some_ne_none p) }
  obtain ⟨pre, l, post, n, s, krs, hleaves, hl, hpost, hn, hs, hsrank, hdesc, hshows'⟩ :=
    btrseaDescend_prev hwf.spans hwf.sorted hshows hq (hfirst.trans_le hr)
      (fun h hh => absurd hh.symm (Option.some_ne_none h))
      (fun _ => by
        rw [KrsView.setPrev]
        exact congrArg _ (if_neg hfirst.not_gt))
      (le_refl _)
  have hqs : g.kb.rank < s.rank → Q s := by
    intro hkbs
    rcases hs with rfl | hs
    · exact absurd hkbs hfirst.not_gt
    · exact hs
  have hlinks := KrsView.Links.of_descent (l := l)
    (v := ⟨g.kb, g.ke, g.keOpen, r, true, true, none, none⟩) hn rfl (fun _ => hsrank) hqs
  obtain ⟨zs, xs, hbefore⟩ := before_of_leaf
    (btrseaReadleaf b { bs with bsReadleafs := [] } l.addr krs) hwf hleaves hlinks
    (g := g) (by rw [KrsView.range_setPrev, KrsView.range_setNextOf]; rfl)
    (by rw [KrsView.isbegin_setPrev, KrsView.isbegin_setNextOf])
    (by rw [KrsView.kcb_setPrev, KrsView.kcb_setNextOf]; exact hq)
    (by rw [KrsView.kcb_setPrev, KrsView.kcb_setNextOf]; exact hl.le)
    (by rw [KrsView.kcb_setPrev, KrsView.kcb_setNextOf]; exact hpost)
    ⟨by
      change dbeBnodeRseaInitst (b.node l.addr).nKeys = _
      rw [hwf.leaf_node hleaves], hshows'⟩ BseaPos.noConfusion rfl
  rw [KrsView.kcb_setPrev, KrsView.kcb_setNextOf] at hbefore
  refine ⟨_, pre, l, post, zs, xs, ?_, hbefore, hl⟩
  have hstart : dbeBkrsStartnextstep (dbeBkrsSetresetkey bs.bsRsea.krs r.1.bytes) =
      some { dbeBkrsSetresetkey bs.bsRsea.krs r.1.bytes with
        krsInit := false, krsBegin := true } := rfl
  rw [dbeBtrseaSetresetkey, hstart, Option.bind_some, btrseaNextorprevnode,
    btrseaDescend_reset, hdesc, Option.map_some]

/-! ## Exactness -/

theorem SearchRange.length_keysFrom_le (g : SearchRange base)
    (ls : List (Leaf ℕ (KeyIn base))) (k : KeyIn base) :
    (g.keysFrom ls k).length ≤ (items ls).length := List.length_filter_le _ _

/-- A scan from `k` on returns the keys of the range from `k` on. -/
theorem repeatSearch_before (hwf : b.WellFormed Q first ls) (hcons : ConsAnswers checkcons)
    {fuel calls : ℕ} (hfuel : (items ls).length + ls.length ≤ fuel)
    (hcalls : (items ls).length < calls) (h : bs.Before Q g ls pre l post zs xs k)
    (hmiss : ¬ g.Missed post) :
    ∃ bs', repeatSearch (dbeBtrseaGetnext b checkcons fuel) calls bs =
        some (accepted checkcons (g.keysFrom ls k), bs') ∧
      ScanEnd Q g ls (items pre ++ zs ++ g.keysFrom ls k) (pre ++ [l]) [l.addr] bs' := by
  have hdel := h.deliver_eq hwf hmiss
  have hlen : (g.deliver xs post).length < calls := by
    rw [hdel]
    exact (g.length_keysFrom_le ls k).trans_lt hcalls
  obtain ⟨bs', hrepeat, hend⟩ := repeatSearch_getnext hwf hcons hfuel hlen h.forward h.pos
  rw [hdel] at hrepeat hend
  rw [h.trace] at hend
  exact ⟨bs', hrepeat, hend⟩

/-- At the end of a scan of the range the leaves with keys of the range are read. -/
theorem ScanEnd.visitsLeaves (hwf : b.WellFormed Q first ls)
    (h : bs.Before Q g ls pre l post zs xs g.kb) {bs' : Btrsea}
    (hend : ScanEnd Q g ls (items pre ++ zs ++ g.keys ls) (pre ++ [l]) [l.addr] bs') :
    VisitsLeaves g ls bs' := by
  obtain ⟨pre', l', post', zs', xs', hback, -, ⟨moved, hseen, htrace⟩, hpassed⟩ := hend
  have hls : ls = pre ++ (l :: moved) ++ post' := by
    rw [hback.leaves]
    have hsplit : pre' ++ l' :: post' = (pre' ++ [l']) ++ post' := by
      rw [List.append_assoc, List.singleton_append]
    rw [hsplit, hseen]
    simp only [List.append_assoc, List.nil_append, List.cons_append]
  refine ⟨l :: moved, ⟨pre, post', hls.symm⟩, ?_, ?_⟩
  · rw [htrace, List.reverse_append, List.reverse_reverse, List.reverse_singleton,
      List.map_cons, List.singleton_append]
  · rintro m hm ⟨x, hx, hxkeys⟩
    have hkb : g.kb.rank ≤ x.rank := by
      have hcond := (List.mem_filter.mp hxkeys).2
      rw [Bool.and_eq_true] at hcond
      exact of_decide_eq_true hcond.1
    rw [hls] at hm
    rcases List.mem_append.mp hm with hm | hm
    · rcases List.mem_append.mp hm with hm | hm
      · -- keys of earlier leaves are below the range
        have hbehind := h.behind x (List.mem_append_left zs (mem_items.mpr ⟨m, hm, hx⟩))
        exact absurd hkb hbehind.not_ge
      · exact hm
    · -- keys of later leaves are not passed
      have hxpost : x ∈ items post' := mem_items.mpr ⟨m, hm, hx⟩
      have hpassed' : x ∈ items pre' ++ zs' := by
        rw [hpassed]
        exact List.mem_append_right _ hxkeys
      have hsort := hwf.sorted
      rw [hback.leaves] at hsort
      have hlt : x.rank < x.rank := by
        rcases List.mem_append.mp hpassed' with hx' | hx'
        · have htail : Sorted KeyIn.rank (l' :: post') :=
            hsort.of_sublist (List.sublist_append_right _ _)
          exact (hsort.lt_sep hx').trans (htail.sep_lt hxpost)
        · have htail : Sorted KeyIn.rank (l' :: post') :=
            hsort.of_sublist (List.sublist_append_right _ _)
          have hxl : x ∈ l'.items := by
            rw [hback.items]
            exact List.mem_append_left _ hx'
          exact htail.items_lt hxl hxpost
      exact absurd hlt (lt_irrefl _)

/-- From the end of a scan of the range the keys come back in descending order. -/
theorem ScanEnd.repeatSearch_getprev (hwf : b.WellFormed Q first ls)
    (hfirst : first.rank < g.kb.rank) (hcons : ConsAnswers checkcons) {fuel calls : ℕ}
    (hfuel : (items ls).length + ls.length ≤ fuel) (hcalls : (items ls).length < calls)
    (h : bs.Before Q g ls pre l post zs xs g.kb) {bs' : Btrsea}
    (hend : ScanEnd Q g ls (items pre ++ zs ++ g.keys ls) (pre ++ [l]) [l.addr] bs') :
    ∃ bs'', repeatSearch (dbeBtrseaGetprev b checkcons fuel) calls bs' =
      some (accepted checkcons (g.keys ls).reverse, bs'') := by
  obtain ⟨pre', l', post', zs', xs', hback, hpos, -, hpassed⟩ := hend
  have hdel : g.deliverBack zs' l' pre' = (g.keys ls).reverse := by
    have hsort : Sorted KeyIn.rank (pre'.reverse.reverse ++ [l']) := hwf.sorted.of_sublist (by
      rw [List.reverse_reverse, hback.leaves]
      exact List.Sublist.append_left (by simp) pre')
    have hys : zs'.reverse.Sublist l'.items.reverse := by
      rw [hback.items, List.reverse_sublist]
      exact List.sublist_append_left _ _
    have hhead : ∀ m ∈ (pre'.reverse.reverse ++ [l']).head?, m.sep.rank ≤ g.kb.rank := by
      intro m hm
      rw [List.reverse_reverse] at hm
      have hls : ls.head? = some m := by
        rw [hback.leaves]
        cases pre' with
        | nil => exact hm
        | cons m' pre' => exact hm
      obtain ⟨t, ht⟩ : ∃ t, ls = m :: t := by
        cases hcase : ls with
        | nil => rw [hcase] at hls; exact absurd hls.symm (Option.some_ne_none m)
        | cons m' t =>
            rw [hcase] at hls
            obtain rfl := Option.some.inj hls
            exact ⟨t, rfl⟩
      exact (hwf.head_sep ht).trans_le hfirst.le
    have heq := deliverBack_eq_filter hsort hys hhead
    have hlow : (items pre ++ zs).filter (fun x => decide (g.kb.rank ≤ x.rank)) = [] := by
      rw [List.filter_eq_nil_iff]
      intro x hx
      simp [h.behind x hx]
    have hkeys : (g.keys ls).filter (fun x => decide (g.kb.rank ≤ x.rank)) = g.keys ls := by
      rw [List.filter_eq_self]
      intro x hx
      have hcond := (List.mem_filter.mp hx).2
      rw [Bool.and_eq_true] at hcond
      exact hcond.1
    rw [List.reverse_reverse, ← List.reverse_append, hpassed, List.filter_reverse,
      List.filter_append, hlow, hkeys, List.nil_append] at heq
    exact heq
  have hlen : (g.deliverBack zs' l' pre').length < calls := by
    rw [hdel, List.length_reverse]
    exact (g.length_keysFrom_le ls g.kb).trans_lt hcalls
  obtain ⟨bs'', hrepeat⟩ := SolidDB.repeatSearch_getprev hwf hfirst hcons hfuel hlen hback
    (by rw [hpos]; exact BseaPos.noConfusion)
  rw [hdel] at hrepeat
  exact ⟨bs'', hrepeat⟩

theorem SearchRange.le_of_withinEnd {x : KeyIn base} (h : g.withinEnd x = true) :
    x.rank ≤ g.ke.rank := LeafScan.le_of_withinEnd h

/-- The keys of the range from the reset key on are those behind the returned key. -/
theorem SearchRange.keysFrom_nextResetkey {r : KeyIn base}
    {hlen : 11 + (encVtpl r.1.vtpl).length < bkeyMaxlen}
    (hw : (r.1.nextResetkey hlen).InWindow base) (hr : r.1.header.trxid < dbeCtrMaxlimit)
    (hids : ∀ x ∈ items ls, TrxidsLike r.1 x.1) :
    g.keysFrom ls ⟨_, hw⟩ = g.keysBehind ls r := by
  apply List.filter_congr
  intro x hx
  have hiff := rank_nextResetkey_le_iff hw hr (hids x hx)
  rw [decide_eq_decide.mpr hiff]

/-- No leaf at the end of the range is behind a position in the range. -/
theorem not_missed_of_subset (hcond : g.kb.rank ≤ g.ke.rank → ¬ g.Missed ls)
    (hsub : post ⊆ ls) (hle : g.Missed post → g.kb.rank ≤ g.ke.rank) : ¬ g.Missed post :=
  fun hmiss => hcond (hle hmiss) (hmiss.of_subset hsub)

theorem Btrsea.Before.post_subset (h : bs.Before Q g ls pre l post zs xs k) : post ⊆ ls := by
  rw [h.forward.leaves]
  intro m hm
  simp [hm]

/-- A reset in the range whose scan is exact shows that no key at the end of the range
is missed. -/
theorem not_missed_of_reset (hwf : b.WellFormed Q first ls)
    (hfirst : first.rank < g.kb.rank) {fuel calls : ℕ}
    (hfuel : (items ls).length + ls.length ≤ fuel) (hcalls : (items ls).length < calls)
    (hbs : bs.HasRange g) (hq : Q g.kb) (hle : g.kb.rank ≤ g.ke.rank)
    (hreset : ∃ bs' bs'', dbeBtrseaSetresetkey b bs g.kb.1.bytes = some bs' ∧
      repeatSearch (dbeBtrseaGetnext b (fun _ => .found) fuel) calls bs' =
        some (accepted (fun _ => .found) (g.keysFrom ls g.kb), bs'')) :
    ¬ g.Missed ls := by
  rintro ⟨hopn, m, hm, hsep, x, hx, hxe⟩
  obtain ⟨bs', pre, l, post, zs, xs, hset, hbefore, hl⟩ :=
    dbeBtrseaSetresetkey_before hwf hfirst hbs hq (le_refl _)
  have hforward := hbefore.forward
  have hxs : xs.Sublist l.items := by
    rw [hforward.items]
    exact List.sublist_append_right _ _
  have hsort : Sorted KeyIn.rank (l :: post) := hwf.sorted.of_sublist (by
    rw [hforward.leaves]
    exact List.sublist_append_right _ _)
  -- the leaf of the missed key is behind the cursor
  have hmpost : m ∈ post := by
    have hge : l.sep.rank < m.sep.rank := by
      rw [hsep]
      exact hl.trans_le hle
    have hpair := hwf.sorted.seps
    rw [hforward.leaves] at hm hpair
    rcases List.mem_append.mp hm with hm | hm
    · have hlt := ((List.pairwise_append.mp hpair).2.2 m hm l List.mem_cons_self).1
      exact absurd (hge.trans hlt) (lt_irrefl _)
    · rcases List.mem_cons.mp hm with rfl | hm
      · exact absurd hge (lt_irrefl _)
      · exact hm
  have hbound : (g.deliver xs post).length < calls := by
    have hlen : (g.deliver xs post).length ≤ (xs ++ items post).length :=
      (deliver_sublist _ _ _ _ _).length_le
    rw [List.length_append] at hlen
    have hcount : xs.length + (LeafScan.items post).length ≤ (LeafScan.items ls).length := by
      rw [hforward.leaves, items_append, items_cons, hforward.items]
      simp only [List.length_append]
      omega
    exact (hlen.trans hcount).trans_lt hcalls
  have hcons : ConsAnswers fun _ => .found := fun _ => Or.inl rfl
  obtain ⟨bs1, hrepeat, -⟩ := repeatSearch_getnext hwf hcons hfuel hbound hforward hbefore.pos
  obtain ⟨bs2, bs3, hset2, hrepeat2⟩ := hreset
  obtain rfl := Option.some.inj (hset.symm.trans hset2)
  have hkeys := (Prod.mk.inj (Option.some.inj (hrepeat.symm.trans hrepeat2))).1
  -- the missed key is a key of the range
  have hxkeys : x.1.bytes ∈ accepted (fun _ => .found) (g.keysFrom ls g.kb) := by
    rw [accepted, List.mem_filter]
    refine ⟨List.mem_map_of_mem ?_, rfl⟩
    rw [SearchRange.keysFrom, List.mem_filter]
    refine ⟨mem_items.mpr ⟨m, hm, hx⟩, ?_⟩
    have hwithin : g.withinEnd x = true := by
      rw [SearchRange.withinEnd, LeafScan.withinEnd, hopn]
      exact decide_eq_true hxe.le
    rw [hwithin, Bool.and_true, hxe]
    exact decide_eq_true hle
  rw [← hkeys] at hxkeys
  obtain ⟨y, hy, heq⟩ := List.mem_map.mp (List.mem_filter.mp hxkeys).1
  have hlt : y.rank < g.ke.rank := lt_of_mem_deliver hsort hxs hmpost hsep hy
  have hcmp := (KeyIn.compare_neg_iff y g.ke).mpr hlt
  rw [heq] at hcmp
  have hxlt := (KeyIn.compare_neg_iff x g.ke).mp hcmp
  exact absurd hxe hxlt.ne

def indexKey (addr trxid : UInt8) (v : Fields) (hv : v ≠ [])
    (hlen : 11 + (encVtpl v).length < bkeyMaxlen) : Key where
  header := ⟨2, [addr, 0, 0, 0, trxid, 0, 0, 0], twoLongs_length addr trxid, indexInfo_ne,
    indexInfo_nlong, indexInfo_index⟩
  vtpl := v
  vtpl_ne := hv
  length_lt := hlen

def leafFirst : KeyIn 1 := ⟨indexKey 1 0 [[0]] (by decide) (by decide), by decide⟩

def leafEnd : KeyIn 1 := ⟨leafKey 1 7 [[2]] (by decide) (by decide), by decide⟩

def twoLeaves : List (Leaf ℕ (KeyIn 1)) :=
  [⟨1, leafFirst, [⟨leafKey 1 5 [[1]] oneField_ne oneField_length, by decide⟩]⟩,
    ⟨2, ⟨indexKey 2 7 [[2]] (by decide) (by decide), by decide⟩, [leafEnd]⟩]

def twoLeavesTree : Btree where
  bRootaddr := 0
  node addr := (((⟨1, recordsOf (twoLeaves.map Leaf.sep)⟩ : TreeNode) ::
    twoLeaves.map fun l => ⟨0, recordsOf l.items⟩)[addr]?).getD ⟨0, []⟩

theorem searchClear_singleton (q k : KeyIn base) : SearchClear q [k] := by
  rintro ⟨pre, p, n, post, heq, -⟩
  have hlen := congrArg List.length heq
  simp only [List.map_cons, List.map_nil, List.length_append, List.length_cons,
    List.length_nil] at hlen
  omega

theorem twoLeavesTree_wellFormed :
    twoLeavesTree.WellFormed (fun _ => True) leafFirst twoLeaves := by
  have hroot (q : KeyIn 1) : SearchClear q (twoLeaves.map Leaf.sep) := by
    rintro ⟨pre, p, n, post, heq, -, hmis⟩
    obtain ⟨rfl, rfl⟩ : p = leafFirst.1 ∧
        n = indexKey 2 7 [[2]] (by decide) (by decide) := by
      cases pre with
      | nil =>
          have hcons := List.cons.inj heq
          exact ⟨hcons.1.symm, (List.cons.inj hcons.2).1.symm⟩
      | cons a pre =>
          have hlen := congrArg List.length heq
          simp only [twoLeaves, List.map_cons, List.map_nil, List.length_append,
            List.length_cons, List.length_nil] at hlen
          omega
    rcases hmis with ⟨hk, hpre, -⟩ | ⟨hpn, -⟩
    · rw [← hk] at hpre
      exact absurd hpre (by decide)
    · exact absurd hpn (by decide)
  have hleaf (addr : ℕ) (sep k : KeyIn 1) (hi : Option (KeyIn 1))
      (hnode : twoLeavesTree.node addr = ⟨0, recordsOf [k]⟩) :
      Spans (fun _ => True) twoLeavesTree 0 addr sep hi [⟨addr, sep, [k]⟩] :=
    ⟨[k], hnode, ⟨List.pairwise_singleton _ _, fun q _ _ => searchClear_singleton q k⟩, rfl⟩
  constructor
  · have hseps : (twoLeaves.map fun l => (l.sep, [l])).map Prod.fst =
        twoLeaves.map Leaf.sep := rfl
    refine ⟨twoLeaves.map fun l => (l.sep, [l]), rfl, ?_, ?_, ?_,
      ⟨leafFirst, rfl, rfl⟩, ?_, rfl⟩
    · rw [hseps]
      exact ⟨List.pairwise_cons.mpr ⟨by decide, List.pairwise_singleton _ _⟩,
        fun q _ _ => hroot q⟩
    · decide
    · decide
    · intro clo c chi heq
      refine ⟨trivial, ?_⟩
      cases clo with
      | nil =>
          obtain ⟨rfl, rfl⟩ := List.cons.inj heq
          exact hleaf 1 _ _ _ rfl
      | cons d clo =>
          have htail := (List.cons.inj heq).2
          cases clo with
          | nil =>
              obtain ⟨rfl, rfl⟩ := List.cons.inj htail
              exact hleaf 2 _ _ _ rfl
          | cons d' clo =>
              have hnil : [] = clo ++ c :: chi := (List.cons.inj htail).2
              simp at hnil
  · refine ⟨?_, by decide, by decide⟩
    decide

def oldRow : KeyIn 1 := ⟨leafKey 1 5 [[1]] oneField_ne oneField_length, by decide⟩

def newRow : KeyIn 1 := ⟨leafKey 1 7 [[1], [2]] twoFields_ne twoFields_length, by decide⟩

def addedColumn : List (Leaf ℕ (KeyIn 1)) := [⟨0, leafFirst, [oldRow, newRow]⟩]

def addedColumnTree : Btree where
  bRootaddr := 0
  node _ := ⟨0, recordsOf [oldRow, newRow]⟩

theorem addedColumnTree_wellFormed :
    addedColumnTree.WellFormed (fun _ => False) leafFirst addedColumn where
  spans := ⟨_, rfl,
    ⟨List.pairwise_cons.mpr ⟨by decide, List.pairwise_singleton _ _⟩, fun _ hq => hq.elim⟩, rfl⟩
  sorted := ⟨by decide, by decide, by decide⟩

end SolidDB
