import SolidDB.Dbe.BnodeRseaLeaf
import SolidDB.Dbe.BnodeRseaIndex

/-!
# Going down to a leaf

A B+-tree is a root address and a node at each address. `btrsea_nextorprevnode` goes
from the root to the leaf that the begin key of a step falls into. In a well-formed
tree that leaf is found by the separators alone, and the step then knows the separator
of the leaf behind it.
-/

namespace SolidDB

open LeafScan

/-- `dbe_bnode_t`: the level and the key records in their order. -/
structure TreeNode where
  nLevel : ℕ
  nKeys : List (List UInt8)

/-- `dbe_btree_t`: the root address and the node that each address holds. -/
structure Btree where
  bRootaddr : ℕ
  node : ℕ → TreeNode

inductive BseaGetnode
  | next
  | prev
  | reset
deriving DecidableEq

/-- The child that a step goes to; `dbe_bnode_rsea_resetnode` is
`dbe_bnode_rsea_prevnode`. -/
def bseaGetnode (type : BseaGetnode) (keys : List (List UInt8)) (krs : Bkrs) :
    Option (ℕ × Bkrs) :=
  match type with
  | .next => dbeBnodeRseaNextnode keys krs
  | .prev => dbeBnodeRseaPrevnode keys krs
  | .reset => dbeBnodeRseaPrevnode keys krs

/-- The loop of `btrsea_nextorprevnode` from the node at `addr` over at most the given
number of levels. -/
def btrseaDescend (b : Btree) (type : BseaGetnode) : ℕ → ℕ → Bkrs → Option (ℕ × Bkrs)
  | level, addr, krs =>
      if (b.node addr).nLevel = 0 then some (addr, krs)
      else
        match level with
        | 0 => none
        | level + 1 => (bseaGetnode type (b.node addr).nKeys krs).bind fun (addr, krs) =>
            btrseaDescend b type level addr krs

def btrseaNextorprevnode (b : Btree) (type : BseaGetnode) (krs : Bkrs) :
    Option (ℕ × Bkrs) :=
  btrseaDescend b type (b.node b.bRootaddr).nLevel b.bRootaddr krs

/-! ## Well-formed trees -/

variable {base : ℕ}

/-- A search for `q` goes through a node with the separator `sep` before the
separator `hi`. -/
def Within (sep : KeyIn base) (hi : Option (KeyIn base)) (q : KeyIn base) : Prop :=
  sep.rank ≤ q.rank ∧ ∀ h, hi = some h → q.rank ≤ h.rank

/-- The keys of a node ascend, and none of the searches for the keys `Q` that go
through it is misled. -/
structure NodeKeys (Q : KeyIn base → Prop) (sep : KeyIn base) (hi : Option (KeyIn base))
    (ks : List (KeyIn base)) : Prop where
  ordered : Ordered ks
  clear : ∀ q, Q q → Within sep hi q → SearchClear q ks

/-- The subtree at `addr` has the given level, the separator `sep` in its parent, the
separator `hi` behind it and the leaves `ls`. The separators in it are among the
keys `Q`. -/
def Spans (Q : KeyIn base → Prop) (b : Btree) :
    ℕ → ℕ → KeyIn base → Option (KeyIn base) → List (Leaf ℕ (KeyIn base)) → Prop
  | 0, addr, sep, hi, ls => ∃ ks, b.node addr = ⟨0, recordsOf ks⟩ ∧ NodeKeys Q sep hi ks ∧
      ls = [⟨addr, sep, ks⟩]
  | level + 1, addr, sep, hi, ls =>
      ∃ cs : List (KeyIn base × List (Leaf ℕ (KeyIn base))),
        b.node addr = ⟨level + 1, recordsOf (cs.map Prod.fst)⟩ ∧
        NodeKeys Q sep hi (cs.map Prod.fst) ∧ HasAddrs (cs.map Prod.fst) ∧
        RoomToExpand (cs.map Prod.fst) ∧
        (∃ f, (cs.map Prod.fst).head? = some f ∧ f.rank = sep.rank) ∧
        (∀ clo c chi, cs = clo ++ c :: chi → Q c.1 ∧
          Spans Q b level c.1.1.addr c.1 ((chi.head?.map Prod.fst).or hi) c.2) ∧
        ls = cs.flatMap Prod.snd

variable {Q : KeyIn base → Prop} {b : Btree} {level addr : ℕ} {sep : KeyIn base}
  {hi : Option (KeyIn base)} {ls : List (Leaf ℕ (KeyIn base))} {v : KrsView base}
  {krs : Bkrs}

theorem Spans.head (h : Spans Q b level addr sep hi ls) :
    ∃ l t, ls = l :: t ∧ l.sep.rank = sep.rank := by
  induction level generalizing addr sep hi ls with
  | zero =>
      obtain ⟨ks, -, -, rfl⟩ := h
      exact ⟨_, [], rfl, rfl⟩
  | succ level ih =>
      obtain ⟨cs, -, -, -, -, ⟨f, hf, hsep⟩, hcs, rfl⟩ := h
      cases cs with
      | nil => exact absurd hf.symm (Option.some_ne_none f)
      | cons c cs =>
          obtain rfl := Option.some.inj hf
          obtain ⟨l, t, heq, hl⟩ := ih (hcs [] c cs rfl).2
          refine ⟨l, t ++ cs.flatMap Prod.snd, ?_, hl.trans hsep⟩
          rw [List.flatMap_cons, heq]
          rfl

theorem Spans.level_eq (h : Spans Q b level addr sep hi ls) : (b.node addr).nLevel = level := by
  cases level with
  | zero =>
      obtain ⟨ks, hnode, -, -⟩ := h
      rw [hnode]
  | succ level =>
      obtain ⟨cs, hnode, -⟩ := h
      rw [hnode]

theorem Spans.sep_le (h : Spans Q b level addr sep hi ls) (hs : Sorted KeyIn.rank ls)
    {l : Leaf ℕ (KeyIn base)} (hl : l ∈ ls) : sep.rank ≤ l.sep.rank := by
  obtain ⟨l0, t, rfl, hsep⟩ := h.head
  rcases List.mem_cons.mp hl with rfl | hl
  · exact hsep.ge
  · rw [← hsep]
    exact ((List.pairwise_cons.mp hs.seps).1 l hl).1.le

theorem flatMap_split {cs : List (KeyIn base × List (Leaf ℕ (KeyIn base)))}
    {lo hi : List (KeyIn base)} {k : KeyIn base} (h : cs.map Prod.fst = lo ++ k :: hi) :
    ∃ clo c chi, cs = clo ++ c :: chi ∧ clo.map Prod.fst = lo ∧ c.1 = k ∧
      chi.map Prod.fst = hi := by
  obtain ⟨clo, crest, rfl, hlo, hrest⟩ := List.map_eq_append_iff.mp h
  obtain ⟨c, chi, rfl, hc, hchi⟩ := List.map_eq_cons_iff.mp hrest
  exact ⟨clo, c, chi, rfl, hlo, hc, hchi⟩

/-- The next begin key that a descent leaves has the rank of the separator behind the
leaf; there is none behind the last leaf. -/
def NextOf (Q : KeyIn base → Prop) (n : Option (KeyIn base))
    (post : List (Leaf ℕ (KeyIn base))) : Prop :=
  n.map KeyIn.rank = post.head?.map (fun l => l.sep.rank) ∧ ∀ k, n = some k → Q k

theorem KrsView.setNextOf_setNextOf (v : KrsView base) (m : Option (KeyIn base))
    (n : KeyIn base) : (v.setNextOf m).setNextOf (some n) = v.setNextOf (some n) := by
  cases m <;> rfl

theorem KrsView.setPrev_setPrev (v : KrsView base) (k m : KeyIn base) :
    (v.setPrev k).setPrev m = v.setPrev m := rfl

@[simp] theorem KrsView.kcb_setPrev (v : KrsView base) (k : KeyIn base) :
    (v.setPrev k).kcb = v.kcb := rfl

@[simp] theorem KrsView.kcb_setNextOf (v : KrsView base) (n : Option (KeyIn base)) :
    (v.setNextOf n).kcb = v.kcb := by
  cases n <;> rfl

/-- The key behind the child and the one that the descent below the child leaves make
the key that the whole descent leaves. -/
theorem exists_nextOf {post : List (Leaf ℕ (KeyIn base))}
    {chi : List (KeyIn base × List (Leaf ℕ (KeyIn base)))} {n : Option (KeyIn base)}
    (hspans : ∀ c ∈ chi, Q c.1 ∧ ∃ hi, Spans Q b level c.1.1.addr c.1 hi c.2)
    (hn : NextOf Q n post) (v : KrsView base) (p k : KeyIn base) :
    ∃ m, NextOf Q m (post ++ chi.flatMap Prod.snd) ∧
      ((((v.setNextOf (chi.map Prod.fst).head?).setPrev p).setNextOf n).setPrev k) =
        (v.setNextOf m).setPrev k := by
  cases n with
  | some n =>
      refine ⟨some n, ⟨?_, hn.2⟩, ?_⟩
      · rw [hn.1]
        cases post with
        | nil => exact absurd hn.1 (Option.some_ne_none _)
        | cons l post => rfl
      · rw [KrsView.setNextOf_setPrev, KrsView.setNextOf_setNextOf, KrsView.setPrev_setPrev]
  | none =>
      have hpost : post = [] := by
        cases post with
        | nil => rfl
        | cons l post => exact absurd hn.1.symm (Option.some_ne_none _)
      refine ⟨(chi.map Prod.fst).head?, ⟨?_, ?_⟩, rfl⟩
      · rw [hpost, List.nil_append]
        cases chi with
        | nil => rfl
        | cons c chi =>
            obtain ⟨-, hi, hspan⟩ := hspans c List.mem_cons_self
            obtain ⟨l, t, heq, hl⟩ := hspan.head
            rw [List.flatMap_cons, heq]
            exact congrArg some hl.symm
      · intro k hk
        cases chi with
        | nil => exact absurd hk.symm (Option.some_ne_none k)
        | cons c chi =>
            obtain rfl := Option.some.inj hk
            exact (hspans c List.mem_cons_self).1

theorem le_sep_of_mem_flatMap {chi : List (KeyIn base × List (Leaf ℕ (KeyIn base)))}
    (hspans : ∀ c ∈ chi, Q c.1 ∧ ∃ hi, Spans Q b level c.1.1.addr c.1 hi c.2)
    (hsort : Sorted KeyIn.rank (chi.flatMap Prod.snd)) {l : Leaf ℕ (KeyIn base)}
    (hl : l ∈ chi.flatMap Prod.snd) : ∃ k ∈ chi.map Prod.fst, k.rank ≤ l.sep.rank := by
  obtain ⟨c, hc, hlc⟩ := List.mem_flatMap.mp hl
  have hsub : c.2.Sublist (chi.flatMap Prod.snd) := by
    obtain ⟨a, d, rfl⟩ := List.append_of_mem hc
    rw [List.flatMap_append, List.flatMap_cons]
    exact (List.sublist_append_left _ _).trans (List.sublist_append_right _ _)
  obtain ⟨-, hi, hspan⟩ := hspans c hc
  exact ⟨c.1, List.mem_map_of_mem hc, hspan.sep_le (hsort.of_sublist hsub) hlc⟩

theorem child_of_leaf {cs : List (KeyIn base × List (Leaf ℕ (KeyIn base)))}
    {pre post : List (Leaf ℕ (KeyIn base))} {l : Leaf ℕ (KeyIn base)}
    (h : cs.flatMap Prod.snd = pre ++ l :: post) :
    ∃ clo c chi pre' post', cs = clo ++ c :: chi ∧ c.2 = pre' ++ l :: post' ∧
      post = post' ++ chi.flatMap Prod.snd := by
  induction cs generalizing pre with
  | nil => simp at h
  | cons c cs ih =>
      rw [List.flatMap_cons] at h
      rcases List.append_eq_append_iff.mp h with ⟨t, rfl, ht⟩ | ⟨t, hc, ht⟩
      · obtain ⟨clo, d, chi, pre', post', rfl, hd, hpost⟩ := ih ht
        exact ⟨c :: clo, d, chi, pre', post', rfl, hd, hpost⟩
      · cases t with
        | nil =>
            obtain ⟨clo, d, chi, pre', post', rfl, hd, hpost⟩ := @ih [] ht.symm
            exact ⟨c :: clo, d, chi, pre', post', rfl, hd, hpost⟩
        | cons l' t =>
            obtain ⟨rfl, rfl⟩ := List.cons.inj ht
            exact ⟨[], c, cs, pre, t, rfl, hc, rfl⟩

/-- The node of each leaf. The separator behind it is that of the leaf behind. -/
theorem Spans.leaf (h : Spans Q b level addr sep hi ls)
    {pre post : List (Leaf ℕ (KeyIn base))} {l : Leaf ℕ (KeyIn base)}
    (hls : ls = pre ++ l :: post) :
    b.node l.addr = ⟨0, recordsOf l.items⟩ ∧ ∃ hi', NodeKeys Q l.sep hi' l.items ∧
      hi'.map KeyIn.rank =
        (post.head?.map fun l' => l'.sep.rank).or (hi.map KeyIn.rank) := by
  induction level generalizing addr sep hi ls pre post with
  | zero =>
      obtain ⟨ks, hnode, hks, rfl⟩ := h
      obtain ⟨rfl, rfl, rfl⟩ : pre = [] ∧ l = ⟨addr, sep, ks⟩ ∧ post = [] := by
        cases pre with
        | nil =>
            obtain ⟨rfl, rfl⟩ := List.cons.inj hls
            exact ⟨rfl, rfl, rfl⟩
        | cons l' pre => simp at hls
      exact ⟨hnode, hi, hks, rfl⟩
  | succ level ih =>
      obtain ⟨cs, -, -, -, -, -, hcs, rfl⟩ := h
      obtain ⟨clo, c, chi, pre', post', rfl, hc, rfl⟩ := child_of_leaf hls
      obtain ⟨hnode, hi', hkeys, hrank⟩ := ih (hcs clo c chi rfl).2 hc
      refine ⟨hnode, hi', hkeys, hrank.trans ?_⟩
      cases post' with
      | cons l' post' => rfl
      | nil =>
          cases chi with
          | nil => rfl
          | cons d chi =>
              obtain ⟨l0, t, heq, hl0⟩ := (hcs (clo ++ [c]) d chi (by simp)).2.head
              rw [List.nil_append, List.flatMap_cons, heq]
              exact congrArg some hl0.symm

theorem spans_behind {clo chi : List (KeyIn base × List (Leaf ℕ (KeyIn base)))}
    {c : KeyIn base × List (Leaf ℕ (KeyIn base))}
    (hcs : ∀ clo' c' chi', clo ++ c :: chi = clo' ++ c' :: chi' → Q c'.1 ∧
      Spans Q b level c'.1.1.addr c'.1 ((chi'.head?.map Prod.fst).or hi) c'.2) :
    ∀ d ∈ chi, Q d.1 ∧ ∃ hi, Spans Q b level d.1.1.addr d.1 hi d.2 := by
  intro d hd
  obtain ⟨a, t, rfl⟩ := List.append_of_mem hd
  obtain ⟨hq, hspan⟩ := hcs (clo ++ c :: a) d t (by simp)
  exact ⟨hq, _, hspan⟩

/-- A search that goes through a node goes through the child it falls into. -/
theorem within_child {chi : List (KeyIn base × List (Leaf ℕ (KeyIn base)))} {c q : KeyIn base}
    (hc : c.rank ≤ q.rank) (hchi : ∀ x ∈ chi.map Prod.fst, q.rank ≤ x.rank)
    (hup : ∀ h, hi = some h → q.rank ≤ h.rank) :
    Within c ((chi.head?.map Prod.fst).or hi) q := by
  refine ⟨hc, ?_⟩
  cases chi with
  | nil => exact hup
  | cons d chi =>
      intro h hh
      obtain rfl := Option.some.inj hh
      exact hchi d.1 (by simp)

theorem sorted_of_child {clo chi : List (KeyIn base × List (Leaf ℕ (KeyIn base)))}
    {c : KeyIn base × List (Leaf ℕ (KeyIn base))}
    (h : Sorted KeyIn.rank ((clo ++ c :: chi).flatMap Prod.snd)) :
    Sorted KeyIn.rank c.2 ∧ Sorted KeyIn.rank (chi.flatMap Prod.snd) := by
  rw [List.flatMap_append, List.flatMap_cons] at h
  have htail := h.of_sublist (List.sublist_append_right _ _)
  exact ⟨htail.of_sublist (List.sublist_append_left _ _),
    htail.of_sublist (List.sublist_append_right _ _)⟩

/-! ## Descents -/

theorem btrseaDescend_succ {t : BseaGetnode} {ks : List (List UInt8)} {fuel : ℕ}
    (hnode : b.node addr = ⟨level + 1, ks⟩) (hfuel : level + 1 ≤ fuel)
    {c : KeyIn base} {w : KrsView base} (h : Chooses (bseaGetnode t ks krs) c w) :
    ∃ krs' fuel', level ≤ fuel' ∧ krs'.Shows w ∧
      btrseaDescend b t fuel addr krs = btrseaDescend b t fuel' c.1.addr krs' := by
  obtain ⟨krs', hget, hshows⟩ := h
  obtain ⟨fuel, rfl⟩ : ∃ n, fuel = n + 1 := ⟨fuel - 1, by omega⟩
  refine ⟨krs', fuel, by omega, hshows, ?_⟩
  rw [btrseaDescend, hnode, if_neg (Nat.succ_ne_zero level)]
  simp only [hget, Option.bind_some]

theorem btrseaDescend_zero {type : BseaGetnode} {ks : List (List UInt8)} {fuel : ℕ}
    (hnode : b.node addr = ⟨0, ks⟩) :
    btrseaDescend b type fuel addr krs = some (addr, krs) := by
  unfold btrseaDescend
  rw [hnode, if_pos rfl]

/-- A next step arrives at the last leaf whose separator is not above the begin key. -/
theorem btrseaDescend_next (h : Spans Q b level addr sep hi ls) (hs : Sorted KeyIn.rank ls)
    (hshows : krs.Shows v) (hq : Q v.kcb) (hin : Within sep hi v.kcb)
    (hprev : level = 0 → v.setPrev v.kcb = v) {fuel : ℕ} (hfuel : level ≤ fuel) :
    ∃ pre l post n krs', ls = pre ++ l :: post ∧ l.sep.rank ≤ v.kcb.rank ∧
      (∀ l' ∈ post, v.kcb.rank < l'.sep.rank) ∧ NextOf Q n post ∧
      btrseaDescend b .next fuel addr krs = some (l.addr, krs') ∧
      krs'.Shows ((v.setNextOf n).setPrev v.kcb) := by
  induction level generalizing addr sep hi ls v krs fuel with
  | zero =>
      obtain ⟨ks, hnode, -, rfl⟩ := h
      refine ⟨[], _, [], none, krs, rfl, hin.1, by simp, ⟨rfl, by simp⟩,
        btrseaDescend_zero hnode, ?_⟩
      change krs.Shows (v.setPrev v.kcb)
      rw [hprev rfl]
      exact hshows
  | succ level ih =>
      obtain ⟨cs, hnode, hkeys, haddrs, hroom, ⟨f, hf, hfsep⟩, hcs, rfl⟩ := h
      have hne : cs.map Prod.fst ≠ [] := List.ne_nil_of_mem (List.mem_of_head? hf)
      obtain ⟨lo, c, hi', hsplit, hc, hhi, hchoose⟩ := dbeBnodeRseaNextnode_spec hne hshows
        hkeys.ordered (hkeys.clear _ hq hin) haddrs hroom
      have hle : c.rank ≤ v.kcb.rank := by
        rcases hc with hc | rfl
        · exact hc
        · rw [hsplit] at hf
          obtain rfl := Option.some.inj hf
          exact hfsep.trans_le hin.1
      obtain ⟨krs1, fuel1, hfuel1, hshows1, hdesc⟩ :=
        btrseaDescend_succ (t := .next) hnode hfuel hchoose
      obtain ⟨clo, c, chi, rfl, rfl, rfl, rfl⟩ := flatMap_split hsplit
      obtain ⟨hsc, hschi⟩ := sorted_of_child hs
      obtain ⟨-, hspan⟩ := hcs clo c chi rfl
      have hspans := spans_behind hcs
      have hin' : Within c.1 ((chi.head?.map Prod.fst).or hi) v.kcb :=
        within_child hle (fun x hx => (hhi x hx).le) hin.2
      obtain ⟨pre, l, post, n, krs2, heq, hl, hpost, hn, hrest, hshows2⟩ :=
        ih hspan hsc hshows1 (by simpa using hq) (by simpa using hin')
          (fun _ => by rw [KrsView.setPrev_setPrev]; simp) hfuel1
      obtain ⟨m, hm, hview⟩ := exists_nextOf hspans hn v v.kcb v.kcb
      simp only [KrsView.kcb_setPrev, KrsView.kcb_setNextOf] at hl hpost hshows2
      refine ⟨clo.flatMap Prod.snd ++ pre, l, post ++ chi.flatMap Prod.snd, m, krs2, ?_, hl,
        ?_, hm, hdesc.trans hrest, hview ▸ hshows2⟩
      · rw [List.flatMap_append, List.flatMap_cons, heq]
        simp
      · intro l' hl'
        rcases List.mem_append.mp hl' with hl' | hl'
        · exact hpost l' hl'
        · obtain ⟨k, hk, hle'⟩ := le_sep_of_mem_flatMap hspans hschi hl'
          exact (hhi k hk).trans_le hle'

/-- A previous step arrives at the last leaf whose separator is below the begin key. -/
theorem btrseaDescend_prev (h : Spans Q b level addr sep hi ls) (hs : Sorted KeyIn.rank ls)
    (hshows : krs.Shows v) (hq : Q v.kcb) (hlt : sep.rank < v.kcb.rank)
    (hup : ∀ h, hi = some h → v.kcb.rank ≤ h.rank) (hprev : level = 0 → v.setPrev sep = v)
    {fuel : ℕ} (hfuel : level ≤ fuel) :
    ∃ pre l post n s krs', ls = pre ++ l :: post ∧ l.sep.rank < v.kcb.rank ∧
      (∀ l' ∈ post, v.kcb.rank ≤ l'.sep.rank) ∧ NextOf Q n post ∧ (s = sep ∨ Q s) ∧
      s.rank = l.sep.rank ∧ btrseaDescend b .prev fuel addr krs = some (l.addr, krs') ∧
      krs'.Shows ((v.setNextOf n).setPrev s) := by
  induction level generalizing addr sep hi ls v krs fuel with
  | zero =>
      obtain ⟨ks, hnode, -, rfl⟩ := h
      refine ⟨[], _, [], none, sep, krs, rfl, hlt, by simp, ⟨rfl, by simp⟩, Or.inl rfl, rfl,
        btrseaDescend_zero hnode, ?_⟩
      change krs.Shows (v.setPrev sep)
      rw [hprev rfl]
      exact hshows
  | succ level ih =>
      obtain ⟨cs, hnode, hkeys, haddrs, hroom, ⟨f, hf, hfsep⟩, hcs, rfl⟩ := h
      obtain ⟨lo, c, hi', hsplit, hc, hhi, hchoose⟩ := dbeBnodeRseaPrevnode_spec hf
        (hfsep ▸ hlt) hshows hkeys.ordered (hkeys.clear _ hq ⟨hlt.le, hup⟩) haddrs hroom
      obtain ⟨krs1, fuel1, hfuel1, hshows1, hdesc⟩ :=
        btrseaDescend_succ (t := .prev) hnode hfuel hchoose
      obtain ⟨clo, c, chi, rfl, rfl, rfl, rfl⟩ := flatMap_split hsplit
      obtain ⟨hsc, hschi⟩ := sorted_of_child hs
      obtain ⟨hqc, hspan⟩ := hcs clo c chi rfl
      have hspans := spans_behind hcs
      have hin' : Within c.1 ((chi.head?.map Prod.fst).or hi) v.kcb :=
        within_child hc.le hhi hup
      obtain ⟨pre, l, post, n, s, krs2, heq, hl, hpost, hn, hqs, hs', hrest, hshows2⟩ :=
        ih hspan hsc hshows1 (by simpa using hq) (by simpa using hc) (by simpa using hin'.2)
          (fun _ => KrsView.setPrev_setPrev _ _ _) hfuel1
      obtain ⟨m, hm, hview⟩ := exists_nextOf hspans hn v c.1 s
      simp only [KrsView.kcb_setPrev, KrsView.kcb_setNextOf] at hl hpost
      refine ⟨clo.flatMap Prod.snd ++ pre, l, post ++ chi.flatMap Prod.snd, m, s, krs2, ?_,
        hl, ?_, hm, Or.inr ?_, hs', hdesc.trans hrest, hview ▸ hshows2⟩
      · rw [List.flatMap_append, List.flatMap_cons, heq]
        simp
      · intro l' hl'
        rcases List.mem_append.mp hl' with hl' | hl'
        · exact hpost l' hl'
        · obtain ⟨k, hk, hle⟩ := le_sep_of_mem_flatMap hspans hschi hl'
          exact (hhi k hk).trans hle
      · rcases hqs with rfl | hqs
        · exact hqc
        · exact hqs

/-- `dbe_bnode_rsea_resetnode` is `dbe_bnode_rsea_prevnode`. -/
theorem btrseaDescend_reset (fuel : ℕ) :
    btrseaDescend b .reset fuel addr krs = btrseaDescend b .prev fuel addr krs := by
  induction fuel generalizing addr krs with
  | zero => rfl
  | succ fuel ih =>
      rw [btrseaDescend, btrseaDescend]
      simp only [ih]
      rfl

end SolidDB
