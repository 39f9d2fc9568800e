import SolidDB.Dbe.ClstLink
import Mathlib.Data.List.Perm.Subperm

/-!
# Runs of change lists

Any number of change lists, saved chains among them, share the blocks. A run of calls
neither loses a record nor has one twice, as long as the links keep to `Clop.Safe`.
-/

namespace SolidDB

inductive Clcomp where
  | list (l : Chlist)
  | saved (start : ℕ)

/-- The lists, the records that each should have, and the addresses that the free list has
handed out. -/
structure Clsys where
  cache : Clcache
  comps : ℕ → Option Clcomp
  added : ℕ → List Clrecord
  handed : List ℕ

/-- The calls. The answers are those of the free list, where it is asked. -/
inductive Clop where
  | init (i nextCpnum : ℕ)
  | reopen (i nextCpnum : ℕ)
  | add (i : ℕ) (r : Clrecord) (answer : ℕ)
  | preparetosave (i answer answer' : ℕ)
  | save (i k nextCpnum answer : ℕ)
  | setnextcpnum (i nextCpnum : ℕ)
  | iterate (i : ℕ)
  | linktogether (i j answer answer' answer'' : ℕ)

/-- What the free list answers in the call. -/
def Clop.answers : Clop → List ℕ
  | .add _ _ a => [a]
  | .preparetosave _ a a' => [a, a']
  | .save _ _ _ a => [a]
  | .linktogether _ _ a a' a'' => [a, a', a'']
  | _ => []

namespace Clsys

def init : Clsys where
  cache := fun _ => ⟨dbeBlhInit .changelist 0, fun _ => (0, 0)⟩
  comps := fun _ => none
  added := fun _ => []
  handed := []

def Fresh (s : Clsys) (answers : List ℕ) : Prop :=
  answers.Nodup ∧ ∀ a ∈ answers, a ≠ suDaddrNull ∧ a ∉ s.handed

instance (s : Clsys) (answers : List ℕ) : Decidable (s.Fresh answers) :=
  inferInstanceAs (Decidable (_ ∧ _))

def list (s : Clsys) (i : ℕ) : Option Chlist :=
  match s.comps i with
  | some (.list l) => some l
  | _ => none

def set (s : Clsys) (i : ℕ) (cache : Clcache) (c : Clcomp) (recs : List Clrecord) : Clsys :=
  { s with
    cache := cache
    comps := Function.update s.comps i (some c)
    added := Function.update s.added i recs }

/-- The call. A saved list is put into the component `k`. -/
def call (blocksize : Idxblocksize) (s : Clsys) : Clop → Option Clsys
  | .init i nextCpnum =>
    match s.comps i with
    | none => some (s.set i s.cache (.list (dbeClInit s.cache blocksize nextCpnum suDaddrNull)) [])
    | some _ => none
  | .reopen i nextCpnum =>
    match s.comps i with
    | some (.saved start) =>
      some (s.set i s.cache (.list (dbeClInit s.cache blocksize nextCpnum start)) (s.added i))
    | _ => none
  | .add i r answer =>
    (s.list i).map fun l =>
      let w := dbeClAdd s.cache l r answer
      s.set i w.1 (.list w.2) (r :: s.added i)
  | .preparetosave i answer answer' =>
    (s.list i).map fun l =>
      let w := dbeClPreparetosave s.cache l answer answer'
      s.set i w.1 (.list w.2) (s.added i)
  | .save i k nextCpnum answer =>
    match s.comps k with
    | none => (s.list i).map fun l =>
        let w := clSave s.cache l nextCpnum answer
        (s.set k w.1 (.saved w.2.2) (s.added i)).set i w.1 (.list w.2.1) []
    | some _ => none
  | .setnextcpnum i nextCpnum =>
    (s.list i).map fun l => s.set i s.cache (.list (dbeClSetnextcpnum l nextCpnum)) (s.added i)
  | .iterate i =>
    (s.list i).bind fun l =>
      (ciIterate s.cache (s.handed.length + 1) l .firstnode).map fun res =>
        s.set i s.cache (.list res.2) (s.added i)
  | .linktogether i j answer answer' answer'' =>
    if i = j then none
    else (s.list i).bind fun head => (s.list j).bind fun tail =>
      (dbeClLinktogether (s.handed.length + 1) s.cache head tail answer answer' answer'').map
        fun res =>
          (s.set i res.1 (.list res.2.1) (s.added i ++ s.added j)).set j res.1
            (.list res.2.2) []

def step (blocksize : Idxblocksize) (s : Clsys) (op : Clop) : Option Clsys :=
  if s.Fresh op.answers then
    (s.call blocksize op).map fun s' => { s' with handed := op.answers ++ s.handed }
  else none

end Clsys

/-- A link goes behind the last node, and takes all that the tail has. -/
def Clop.Safe (s : Clsys) : Clop → Prop
  | .linktogether i j _ _ _ =>
    (∀ l ∈ s.list i, l.Linkable) ∧ ∀ l ∈ s.list j, l.Clean s.cache
  | _ => True

instance (s : Clsys) (op : Clop) : Decidable (op.Safe s) := by
  cases op with
  | linktogether i j _ _ _ =>
      exact inferInstanceAs
        (Decidable ((∀ l ∈ s.list i, l.Linkable) ∧ ∀ l ∈ s.list j, l.Clean s.cache))
  | init _ _ => exact .isTrue trivial
  | reopen _ _ => exact .isTrue trivial
  | add _ _ _ => exact .isTrue trivial
  | preparetosave _ _ _ => exact .isTrue trivial
  | save _ _ _ _ => exact .isTrue trivial
  | setnextcpnum _ _ => exact .isTrue trivial
  | iterate _ => exact .isTrue trivial

def Clsys.run (blocksize : Idxblocksize) : Clsys → List Clop → Option Clsys
  | s, [] => some s
  | s, op :: ops => (s.step blocksize op).bind fun s' => Clsys.run blocksize s' ops

def Clsys.safeRun (blocksize : Idxblocksize) : Clsys → List Clop → Option Clsys
  | s, [] => some s
  | s, op :: ops =>
    if op.Safe s then (s.step blocksize op).bind fun s' => Clsys.safeRun blocksize s' ops
    else none

def Clcomp.yields (blocksize : Idxblocksize) (cache : Clcache) (fuel nextCpnum : ℕ) :
    Clcomp → Option (List Clrecord)
  | .list l => (ciIterate cache fuel l .firstnode).map Prod.fst
  | .saved start =>
    (ciIterate cache fuel (dbeClInit cache blocksize nextCpnum start) .firstnode).map Prod.fst

def Clsys.Conserves (blocksize : Idxblocksize) (s : Clsys) : Prop :=
  ∀ i c, s.comps i = some c → ∀ nextCpnum, ∃ recs,
    c.yields blocksize s.cache (s.handed.length + 1) nextCpnum = some recs ∧
      recs.Perm (s.added i)

inductive Clsys.Reachable (blocksize : Idxblocksize) : Clsys → Prop where
  | init : Clsys.Reachable blocksize Clsys.init
  | step {s s' : Clsys} {op : Clop} (h : Clsys.Reachable blocksize s)
      (hstep : s.step blocksize op = some s') : Clsys.Reachable blocksize s'

inductive Clsys.SafelyReachable (blocksize : Idxblocksize) : Clsys → Prop where
  | init : Clsys.SafelyReachable blocksize Clsys.init
  | step {s s' : Clsys} {op : Clop} (h : Clsys.SafelyReachable blocksize s)
      (hsafe : op.Safe s) (hstep : s.step blocksize op = some s') :
      Clsys.SafelyReachable blocksize s'

variable {blocksize : Idxblocksize} {cache cache' : Clcache} {s s' : Clsys}
  {own own' : ℕ → List ℕ} {c : Clcomp} {l : Chlist} {i j : ℕ} {recs recs' : List Clrecord}
  {bs bs' answers : List ℕ}

/-! ## The invariant -/

def Clcomp.Holds (blocksize : Idxblocksize) (cache : Clcache) (recs : List Clrecord)
    (bs : List ℕ) : Clcomp → Prop
  | .list l => l.clBlocksize = blocksize ∧
      ∃ cs, l.Good cache cs ∧ (l.records cache cs).Perm recs ∧ l.addrs cs = bs
  | .saved start => ClSaved cache blocksize start bs ∧ (clContents cache bs).Perm recs

theorem Clcomp.Holds.frame (h : c.Holds blocksize cache recs bs)
    (hd : ∀ b ∈ bs, cache' b = cache b) : c.Holds blocksize cache' recs bs := by
  cases c with
  | list l =>
      obtain ⟨hsize, cs, hgood, hperm, rfl⟩ := h
      have hd' (b : ℕ) (hb : b ∈ cs) := hd b (hgood.subset_addrs hb)
      refine ⟨hsize, cs, hgood.frame hd', ?_, rfl⟩
      rw [Chlist.records, clContents_congr hd']
      exact hperm
  | saved start =>
      refine ⟨h.1.frame hd, ?_⟩
      rw [clContents_congr hd]
      exact h.2

structure ClsysInv (blocksize : Idxblocksize) (s : Clsys) (own : ℕ → List ℕ) : Prop where
  holds : ∀ i c, s.comps i = some c → c.Holds blocksize s.cache (s.added i) (own i)
  owners : BlockChain.Owners own s.handed

/-- A call changes some components, the blocks of these, and blocks from the free list. -/
theorem ClsysInv.change (h : ClsysInv blocksize s own) (hfresh : s.Fresh answers)
    (is : List ℕ) (hhanded : s'.handed = answers ++ s.handed)
    (hcomps : ∀ i ∉ is, s'.comps i = s.comps i) (hadded : ∀ i ∉ is, s'.added i = s.added i)
    (hown : ∀ i ∉ is, own' i = own i)
    (hframe : ∀ b, (∀ i ∈ is, b ∉ own i) → b ∉ answers → s'.cache b = s.cache b)
    (hholds : ∀ i ∈ is, ∀ c, s'.comps i = some c →
      c.Holds blocksize s'.cache (s'.added i) (own' i))
    (hsub : ∀ i ∈ is, ∀ b ∈ own' i, (∃ j ∈ is, b ∈ own j) ∨ b ∈ answers)
    (hdisj : ∀ i ∈ is, ∀ j ∈ is, i ≠ j → ∀ b ∈ own' i, b ∉ own' j) :
    ClsysInv blocksize s' own' := by
  refine ⟨fun i c hc => ?_, ?_⟩
  · by_cases hi : i ∈ is
    · exact hholds i hi c hc
    · rw [hcomps i hi] at hc
      rw [hadded i hi, hown i hi]
      refine (h.holds i c hc).frame fun b hb => hframe b (fun j hj => ?_) fun hans => ?_
      · exact h.owners.disjoint i j (fun e => hi (e ▸ hj)) b hb
      · exact (hfresh.2 b hans).2 (h.owners.handed i b hb)
  · rw [hhanded]
    exact h.owners.exchange (fun a ha => (hfresh.2 a ha).2) is hown hsub hdisj

theorem ClsysInv.set (h : ClsysInv blocksize s own) (hfresh : s.Fresh answers)
    (hholds : c.Holds blocksize cache' recs' bs') (hsub : ∀ b ∈ bs', b ∈ own i ∨ b ∈ answers)
    (hframe : ∀ b, b ∉ own i → b ∉ answers → cache' b = s.cache b) :
    ClsysInv blocksize { s.set i cache' c recs' with handed := answers ++ s.handed }
      (Function.update own i bs') := by
  have hne {k : ℕ} (hk : k ∉ [i]) : k ≠ i := fun e => hk (List.mem_singleton.mpr e)
  refine h.change hfresh [i] rfl (fun k hk => ?_) (fun k hk => ?_) (fun k hk => ?_)
    (fun b hb hans => ?_) (fun k hk c' hc => ?_) (fun k hk b hb => ?_)
    fun k hk m hm hkm => ?_
  · exact Function.update_of_ne (hne hk) _ _
  · exact Function.update_of_ne (hne hk) _ _
  · exact Function.update_of_ne (hne hk) _ _
  · exact hframe b (hb i List.mem_cons_self) hans
  · obtain rfl := List.mem_singleton.mp hk
    change Function.update s.comps k (some c) k = some c' at hc
    rw [Function.update_self] at hc
    obtain rfl := Option.some.inj hc
    change c.Holds blocksize cache' (Function.update s.added k recs' k) _
    rw [Function.update_self, Function.update_self]
    exact hholds
  · obtain rfl := List.mem_singleton.mp hk
    rw [Function.update_self] at hb
    exact (hsub b hb).imp_left fun hm => ⟨k, hk, hm⟩
  · exact absurd ((List.mem_singleton.mp hk).trans (List.mem_singleton.mp hm).symm) hkm

theorem Clsys.list_eq_some : s.list i = some l ↔ s.comps i = some (.list l) := by
  unfold Clsys.list
  constructor
  · intro h
    split at h
    · rename_i l' hc
      rw [hc, Option.some.inj h]
    · exact absurd h.symm (Option.some_ne_none l)
  · intro h
    rw [h]

theorem Clsys.Fresh.for (h : s.Fresh answers) (hinv : ClsysInv blocksize s own) (i : ℕ) :
    FreshFor answers (own i) where
  nodup := h.1
  ne_null a ha := (h.2 a ha).1
  notMem a ha hm := (h.2 a ha).2 (hinv.owners.handed i a hm)

theorem ClsysInv.list (h : ClsysInv blocksize s own) (hl : s.list i = some l) :
    l.clBlocksize = blocksize ∧ ∃ cs, l.Good s.cache cs ∧
      (l.records s.cache cs).Perm (s.added i) ∧ l.addrs cs = own i :=
  h.holds i _ (Clsys.list_eq_some.mp hl)

theorem ClsysInv.kept {l' : Chlist} {cs cs' : List ℕ} (h : ClsysInv blocksize s own)
    (hfresh : s.Fresh answers) (hsize : l.clBlocksize = blocksize)
    (hperm : (l.records s.cache cs).Perm (s.added i)) (haddrs : l.addrs cs = own i)
    (hkept : Kept s.cache cache' l l' cs answers recs cs') :
    ClsysInv blocksize
      { s.set i cache' (.list l') (recs ++ s.added i) with handed := answers ++ s.handed }
      (Function.update own i (l'.addrs cs')) := by
  refine h.set hfresh ⟨hkept.blocksize.trans hsize, cs', hkept.good, ?_, rfl⟩ (fun b hb => ?_)
    fun b hb hans => ?_
  · exact hkept.records.trans (hperm.append_left recs)
  · rw [← haddrs]
    exact hkept.sub b hb
  · rw [← haddrs] at hb
    exact hkept.frame b hb hans

/-- The chain of a list is not longer than the list of handed out addresses. -/
theorem ClsysInv.length_le {cs : List ℕ} (h : ClsysInv blocksize s own)
    (hnodup : cs.Nodup) (hsub : cs ⊆ own i) : cs.length ≤ s.handed.length :=
  (List.subperm_of_subset hnodup fun _ ha => h.owners.handed i _ (hsub ha)).length_le

theorem ClsysInv.init (h : ClsysInv blocksize s own) (hfresh : s.Fresh []) (i nextCpnum : ℕ) :
    ClsysInv blocksize
      { s.set i s.cache (.list (dbeClInit s.cache blocksize nextCpnum suDaddrNull)) [] with
        handed := [] ++ s.handed } (Function.update own i []) :=
  h.set hfresh ⟨rfl, [], good_dbeClInit_null s.cache blocksize nextCpnum, List.Perm.refl _, rfl⟩
    (fun _ hb => absurd hb List.not_mem_nil) fun _ _ _ => rfl

theorem ClsysInv.reopen {start : ℕ} (h : ClsysInv blocksize s own) (hfresh : s.Fresh [])
    (hc : s.comps i = some (.saved start)) (nextCpnum : ℕ) :
    ClsysInv blocksize
      { s.set i s.cache (.list (dbeClInit s.cache blocksize nextCpnum start)) (s.added i) with
        handed := [] ++ s.handed } (Function.update own i (own i)) := by
  obtain ⟨hsaved, hperm⟩ := h.holds i _ hc
  obtain ⟨b, bs, hown⟩ := List.exists_cons_of_ne_nil hsaved.nonempty
  rw [hown] at hsaved hperm
  obtain rfl : start = b := hsaved.chain.1
  obtain ⟨hgood, haddrs, hrecords⟩ := hsaved.init nextCpnum
  refine h.set hfresh ⟨rfl, bs, hgood, ?_, haddrs.trans hown.symm⟩ (fun b hb => .inl hb)
    fun _ _ _ => rfl
  rw [hrecords]
  exact hperm

theorem ClsysInv.iterate (h : ClsysInv blocksize s own) (hfresh : s.Fresh [])
    (hl : s.list i = some l) {res : List Clrecord × Chlist}
    (hiter : ciIterate s.cache (s.handed.length + 1) l .firstnode = some res) :
    ClsysInv blocksize { s.set i s.cache (.list res.2) (s.added i) with
      handed := [] ++ s.handed } (Function.update own i (own i)) := by
  obtain ⟨hsize, cs, hgood, hperm, haddrs⟩ := h.list hl
  obtain ⟨l', hiter', hgood', haddrs', hrecords, hsize', -⟩ := hgood.iterate 0
  have hlength := h.length_le hgood.nodup_chain (haddrs ▸ hgood.subset_addrs)
  have hmore := ciIterate_mono (Nat.succ_le_succ hlength) hiter'
  obtain rfl := Option.some.inj (hiter.symm.trans hmore)
  refine h.set hfresh ⟨hsize'.trans hsize, cs, hgood', ?_, haddrs'.trans haddrs⟩
    (fun b hb => .inl hb) fun _ _ _ => rfl
  rw [hrecords]
  exact hperm

theorem ClsysInv.set_set {k : ℕ} {ci ck : Clcomp} {bi bk reci reck : List _} (hik : i ≠ k)
    (h : ClsysInv blocksize s own) (hfresh : s.Fresh answers)
    (hholds : ci.Holds blocksize cache' reci bi) (hholds' : ck.Holds blocksize cache' reck bk)
    (hsub : ∀ b ∈ bi, b ∈ own i ∨ b ∈ own k ∨ b ∈ answers)
    (hsub' : ∀ b ∈ bk, b ∈ own i ∨ b ∈ own k ∨ b ∈ answers) (hdisj : ∀ b ∈ bk, b ∉ bi)
    (hframe : ∀ b, b ∉ own i → b ∉ own k → b ∉ answers → cache' b = s.cache b) :
    ClsysInv blocksize { (s.set i cache' ci reci).set k cache' ck reck with
        handed := answers ++ s.handed }
      (Function.update (Function.update own i bi) k bk) := by
  have hi : i ∈ [i, k] := List.mem_cons_self
  have hk : k ∈ [i, k] := List.mem_cons_of_mem i List.mem_cons_self
  have hoff {β : Type} (f : ℕ → β) (x y : β) {m : ℕ} (hm : m ∉ [i, k]) :
      Function.update (Function.update f i x) k y m = f m := by
    have hmk : m ≠ k := fun e => hm (e ▸ hk)
    have hmi : m ≠ i := fun e => hm (e ▸ hi)
    rw [Function.update_of_ne hmk, Function.update_of_ne hmi]
  have hati {β : Type} (f : ℕ → β) (x y : β) :
      Function.update (Function.update f i x) k y i = x := by
    rw [Function.update_of_ne hik, Function.update_self]
  have hatk {β : Type} (f : ℕ → β) (x y : β) :
      Function.update (Function.update f i x) k y k = y := Function.update_self _ _ _
  have hpair {P : ℕ → Prop} (hi : P i) (hk : P k) : ∀ m ∈ [i, k], P m := by
    intro m hm
    rcases List.mem_cons.mp hm with rfl | hm
    · exact hi
    · rw [List.mem_singleton.mp hm]
      exact hk
  have howned {b : ℕ} (hb : b ∈ own i ∨ b ∈ own k ∨ b ∈ answers) :
      (∃ j ∈ [i, k], b ∈ own j) ∨ b ∈ answers := by
    rcases hb with hb | hb | hb
    · exact .inl ⟨i, hi, hb⟩
    · exact .inl ⟨k, hk, hb⟩
    · exact .inr hb
  refine h.change hfresh [i, k] rfl (fun m hm => hoff _ _ _ hm) (fun m hm => hoff _ _ _ hm)
    (fun m hm => hoff _ _ _ hm) (fun b hb hans => hframe b (hb i hi) (hb k hk) hans)
    (hpair ?_ ?_) (hpair ?_ ?_) (hpair (hpair ?_ ?_) (hpair ?_ ?_))
  · intro c hc
    obtain rfl := Option.some.inj ((hati s.comps (some ci) (some ck)).symm.trans hc)
    change ci.Holds blocksize cache' (Function.update (Function.update s.added i reci) k reck i) _
    rw [hati, hati]
    exact hholds
  · intro c hc
    obtain rfl := Option.some.inj ((hatk s.comps (some ci) (some ck)).symm.trans hc)
    change ck.Holds blocksize cache' (Function.update (Function.update s.added i reci) k reck k) _
    rw [hatk, hatk]
    exact hholds'
  · rw [hati]
    exact fun b hb => howned (hsub b hb)
  · rw [hatk]
    exact fun b hb => howned (hsub' b hb)
  · exact fun hne => absurd rfl hne
  · rw [hati, hatk]
    exact fun _ b hb hb' => hdisj b hb' hb
  · rw [hati, hatk]
    exact fun _ => hdisj
  · exact fun hne => absurd rfl hne

theorem ClsysInv.save {k nextCpnum answer : ℕ} (h : ClsysInv blocksize s own)
    (hfresh : s.Fresh [answer]) (hl : s.list i = some l) (hk : s.comps k = none) :
    ∃ own', ClsysInv blocksize
      { (s.set k (clSave s.cache l nextCpnum answer).1
          (.saved (clSave s.cache l nextCpnum answer).2.2) (s.added i)).set i
          (clSave s.cache l nextCpnum answer).1
          (.list (clSave s.cache l nextCpnum answer).2.1) [] with
        handed := [answer] ++ s.handed } own' := by
  obtain ⟨hsize, cs, hgood, hperm, haddrs⟩ := h.list hl
  have hki : k ≠ i := by
    rintro rfl
    rw [Clsys.list_eq_some.mp hl] at hk
    exact Option.some_ne_none _ hk
  obtain ⟨bs', hsaved, hcontents, hsub, hempty, haddrs', hrecords, hsize', hframe⟩ :=
    hgood.save (by rw [haddrs]; exact hfresh.for h i) nextCpnum
  rw [hsize] at hsaved
  refine ⟨_, h.set_set hki hfresh ⟨hsaved, ?_⟩ ⟨hsize'.trans hsize, [], hempty, ?_, haddrs'⟩
    (fun b hb => ?_) (fun b hb => absurd hb List.not_mem_nil)
    (fun b hb => absurd hb List.not_mem_nil) fun b _ hb hans => ?_⟩
  · rw [hcontents]
    exact hperm
  · rw [hrecords]
  · rcases hsub b hb with hb | rfl
    · rw [haddrs] at hb
      exact .inr (.inl hb)
    · exact .inr (.inr List.mem_cons_self)
  · rw [← haddrs] at hb
    exact hframe b hb fun e => hans (e ▸ List.mem_cons_self)

theorem ClsysInv.linktogether {head tail : Chlist} {answer answer' answer'' : ℕ}
    (h : ClsysInv blocksize s own) (hfresh : s.Fresh [answer, answer', answer'']) (hij : i ≠ j)
    (hhead : s.list i = some head) (htail : s.list j = some tail) (hlink : head.Linkable)
    (hclean : tail.Clean s.cache) :
    ∃ cache' head' tail' own',
      dbeClLinktogether (s.handed.length + 1) s.cache head tail answer answer' answer'' =
        some (cache', head', tail') ∧
      ClsysInv blocksize
        { (s.set i cache' (.list head') (s.added i ++ s.added j)).set j cache' (.list tail') [] with
          handed := [answer, answer', answer''] ++ s.handed } own' := by
  obtain ⟨hsize, cs, hgood, hperm, haddrs⟩ := h.list hhead
  obtain ⟨hsize', ts, hgood', hperm', haddrs'⟩ := h.list htail
  have hdisj (b : ℕ) (hb : b ∈ tail.addrs ts) : b ∉ head.addrs cs := by
    rw [haddrs'] at hb
    rw [haddrs]
    exact h.owners.disjoint j i hij.symm b hb
  have hfresh' : FreshFor [answer, answer', answer''] (head.addrs cs ++ tail.addrs ts) := by
    rw [haddrs, haddrs']
    refine ⟨hfresh.1, fun a ha => (hfresh.2 a ha).1, fun a ha hm => ?_⟩
    exact (List.mem_append.mp hm).elim ((hfresh.for h i).notMem a ha)
      ((hfresh.for h j).notMem a ha)
  have hlength := h.length_le hgood.nodup_chain (haddrs ▸ hgood.subset_addrs)
  obtain ⟨cache', head', tail', bs', hres, hlinked⟩ := hgood.linktogether hgood'
    (hsize'.trans hsize.symm) hdisj hfresh' hlink hclean (Nat.succ_le_succ hlength)
  refine ⟨cache', head', tail', _, hres,
    h.set_set hij hfresh ⟨hlinked.head_blocksize.trans hsize, bs', hlinked.head_good,
      hlinked.head_records.trans (hperm.append hperm'), rfl⟩
    ⟨hlinked.tail_blocksize.trans hsize, [], hlinked.tail_good, ?_, rfl⟩ (fun b hb => ?_)
    (fun b hb => ?_) hlinked.disjoint fun b hb hb' hans => ?_⟩
  · rw [hlinked.tail_records]
  · rw [← haddrs, ← haddrs']
    exact hlinked.head_sub b hb
  · rw [← haddrs']
    exact .inr (.inl (hlinked.tail_sub b hb))
  · rw [← haddrs] at hb
    rw [← haddrs'] at hb'
    exact hlinked.frame b hb hb' hans

theorem ClsysInv.step {op : Clop} (h : ClsysInv blocksize s own) (hsafe : op.Safe s)
    (hstep : s.step blocksize op = some s') : ∃ own', ClsysInv blocksize s' own' := by
  rw [Clsys.step, Option.ite_none_right_eq_some] at hstep
  obtain ⟨hfresh, hmap⟩ := hstep
  obtain ⟨s₁, hcall, rfl⟩ := Option.map_eq_some_iff.mp hmap
  cases op with
  | init i nextCpnum =>
      rw [Clsys.call] at hcall
      split at hcall
      · obtain rfl := Option.some.inj hcall
        exact ⟨_, h.init hfresh i nextCpnum⟩
      · exact absurd hcall.symm (Option.some_ne_none _)
  | reopen i nextCpnum =>
      rw [Clsys.call] at hcall
      split at hcall
      · rename_i start hc
        obtain rfl := Option.some.inj hcall
        exact ⟨_, h.reopen hfresh hc nextCpnum⟩
      · exact absurd hcall.symm (Option.some_ne_none _)
  | add i r answer =>
      obtain ⟨l, hl, rfl⟩ := Option.map_eq_some_iff.mp hcall
      obtain ⟨hsize, cs, hgood, hperm, haddrs⟩ := h.list hl
      obtain ⟨bs', hkept⟩ := hgood.add (by rw [haddrs]; exact hfresh.for h i) r
      exact ⟨_, h.kept hfresh hsize hperm haddrs hkept⟩
  | preparetosave i answer answer' =>
      obtain ⟨l, hl, rfl⟩ := Option.map_eq_some_iff.mp hcall
      obtain ⟨hsize, cs, hgood, hperm, haddrs⟩ := h.list hl
      obtain ⟨bs', hkept, -⟩ := hgood.preparetosave (by rw [haddrs]; exact hfresh.for h i)
      exact ⟨_, h.kept hfresh hsize hperm haddrs hkept⟩
  | save i k nextCpnum answer =>
      rw [Clsys.call] at hcall
      split at hcall
      · rename_i hk
        obtain ⟨l, hl, rfl⟩ := Option.map_eq_some_iff.mp hcall
        exact h.save hfresh hl hk
      · exact absurd hcall.symm (Option.some_ne_none _)
  | setnextcpnum i nextCpnum =>
      obtain ⟨l, hl, rfl⟩ := Option.map_eq_some_iff.mp hcall
      obtain ⟨hsize, cs, hgood, hperm, haddrs⟩ := h.list hl
      exact ⟨_, h.kept hfresh hsize hperm haddrs (hgood.setnextcpnum nextCpnum)⟩
  | iterate i =>
      obtain ⟨l, hl, hbind⟩ := Option.bind_eq_some_iff.mp hcall
      obtain ⟨res, hiter, rfl⟩ := Option.map_eq_some_iff.mp hbind
      exact ⟨_, h.iterate hfresh hl hiter⟩
  | linktogether i j answer answer' answer'' =>
      rw [Clsys.call, Option.ite_none_left_eq_some] at hcall
      obtain ⟨hij, hcall⟩ := hcall
      obtain ⟨head, hhead, hcall⟩ := Option.bind_eq_some_iff.mp hcall
      obtain ⟨tail, htail, hcall⟩ := Option.bind_eq_some_iff.mp hcall
      obtain ⟨res, hres, rfl⟩ := Option.map_eq_some_iff.mp hcall
      obtain ⟨cache', head', tail', own', hres', hinv⟩ :=
        h.linktogether hfresh hij hhead htail (hsafe.1 head hhead) (hsafe.2 tail htail)
      obtain rfl := Option.some.inj (hres'.symm.trans hres)
      exact ⟨own', hinv⟩

theorem clsysInv_init (blocksize : Idxblocksize) :
    ClsysInv blocksize Clsys.init fun _ => [] where
  holds _ _ hc := absurd hc.symm (Option.some_ne_none _)
  owners := ⟨fun _ _ _ _ ha => absurd ha List.not_mem_nil,
    fun _ _ ha => absurd ha List.not_mem_nil⟩

theorem Clsys.SafelyReachable.inv (h : Clsys.SafelyReachable blocksize s) :
    ∃ own, ClsysInv blocksize s own := by
  induction h with
  | init => exact ⟨_, clsysInv_init blocksize⟩
  | step _ hsafe hstep ih =>
      obtain ⟨own, hinv⟩ := ih
      exact hinv.step hsafe hstep

theorem ClsysInv.yields (h : ClsysInv blocksize s own) : s.Conserves blocksize := by
  intro i c hc nextCpnum
  have hiterate {l : Chlist} {cs : List ℕ} (hgood : l.Good s.cache cs) (hsub : cs ⊆ own i) :
      (ciIterate s.cache (s.handed.length + 1) l .firstnode).map Prod.fst =
        some (l.records s.cache cs) := by
    obtain ⟨l', hiter, -⟩ := hgood.iterate 0
    rw [ciIterate_mono (Nat.succ_le_succ (h.length_le hgood.nodup_chain hsub)) hiter]
    rfl
  cases c with
  | list l =>
      obtain ⟨-, cs, hgood, hperm, haddrs⟩ := h.holds i _ hc
      exact ⟨_, hiterate hgood (haddrs ▸ hgood.subset_addrs), hperm⟩
  | saved start =>
      obtain ⟨hsaved, hperm⟩ := h.holds i _ hc
      obtain ⟨b, bs, hown⟩ := List.exists_cons_of_ne_nil hsaved.nonempty
      rw [hown] at hsaved hperm
      obtain rfl : start = b := hsaved.chain.1
      obtain ⟨hgood, -, hrecords⟩ := hsaved.init nextCpnum
      refine ⟨_, hiterate hgood ?_, ?_⟩
      · rw [hown]
        exact List.subset_cons_self start bs
      · rw [hrecords]
        exact hperm

theorem ClsysInv.linktogether_isSome {answer answer' answer'' : ℕ}
    (h : ClsysInv blocksize s own) (hfresh : s.Fresh [answer, answer', answer'']) (hij : i ≠ j)
    (hi : (s.list i).isSome) (hj : (s.list j).isSome)
    (hsafe : (Clop.linktogether i j answer answer' answer'').Safe s) :
    (s.step blocksize (.linktogether i j answer answer' answer'')).isSome := by
  obtain ⟨head, hhead⟩ := Option.isSome_iff_exists.mp hi
  obtain ⟨tail, htail⟩ := Option.isSome_iff_exists.mp hj
  obtain ⟨c, h', t, -, hres, -⟩ := h.linktogether hfresh hij hhead htail
    (hsafe.1 head hhead) (hsafe.2 tail htail)
  have hfresh' : s.Fresh (Clop.linktogether i j answer answer' answer'').answers := hfresh
  rw [Clsys.step, if_pos hfresh', Clsys.call, if_neg hij, hhead, htail, Option.bind_some,
    Option.bind_some, hres]
  rfl

theorem Clsys.Reachable.run (h : Clsys.Reachable blocksize s) {ops : List Clop}
    (hrun : s.run blocksize ops = some s') : Clsys.Reachable blocksize s' := by
  induction ops generalizing s with
  | nil => exact Option.some.inj hrun ▸ h
  | cons op ops ih =>
      obtain ⟨s₁, hstep, hrest⟩ := Option.bind_eq_some_iff.mp hrun
      exact ih (h.step hstep) hrest

theorem Clsys.SafelyReachable.safeRun (h : Clsys.SafelyReachable blocksize s) {ops : List Clop}
    (hrun : s.safeRun blocksize ops = some s') : Clsys.SafelyReachable blocksize s' := by
  induction ops generalizing s with
  | nil => exact Option.some.inj hrun ▸ h
  | cons op ops ih =>
      rw [Clsys.safeRun, Option.ite_none_right_eq_some] at hrun
      obtain ⟨hsafe, hbind⟩ := hrun
      obtain ⟨s₁, hstep, hrest⟩ := Option.bind_eq_some_iff.mp hbind
      exact ih (h.step hsafe hstep) hrest

/-- In a run with safe links, every list and every saved chain has just its records. -/
theorem Clsys.SafelyReachable.conserves (h : Clsys.SafelyReachable blocksize s) :
    s.Conserves blocksize := by
  obtain ⟨own, hinv⟩ := h.inv
  exact hinv.yields

/-- A list with one record is linked behind an empty one. -/
theorem Clsys.conserves_linked :
    ∃ s, Clsys.init.safeRun ⟨2048, by decide, by decide⟩
        [.init 0 1, .init 1 1, .add 1 (1, 100) 0, .linktogether 0 1 1 2 3] = some s ∧
      s.Conserves ⟨2048, by decide, by decide⟩ := by
  have hrun : (Clsys.init.safeRun ⟨2048, by decide, by decide⟩
      [.init 0 1, .init 1 1, .add 1 (1, 100) 0, .linktogether 0 1 1 2 3]).isSome := by
    decide +kernel
  obtain ⟨s, hs⟩ := Option.isSome_iff_exists.mp hrun
  exact ⟨s, hs, Clsys.SafelyReachable.conserves (Clsys.SafelyReachable.init.safeRun hs)⟩

/-- A second tail is linked behind the first node again, and the first tail is lost. -/
theorem Clsys.linkedTwice_not_conserves :
    ∃ s, Clsys.Reachable ⟨2048, by decide, by decide⟩ s ∧
      ¬ s.Conserves ⟨2048, by decide, by decide⟩ := by
  let ops : List Clop := [.init 0 1, .init 1 1, .add 1 (1, 100) 0, .linktogether 0 1 1 2 3,
    .add 1 (1, 200) 4, .linktogether 0 1 5 6 7]
  let run := Clsys.init.run ⟨2048, by decide, by decide⟩ ops
  have hadded : run.map (fun s => s.added 0) = some [(1, 100), (1, 200)] := by
    decide +kernel
  have hyields : run.bind (fun s => (s.comps 0).bind fun c =>
      c.yields ⟨2048, by decide, by decide⟩ s.cache (s.handed.length + 1) 0) =
        some [(1, 200)] := by
    decide +kernel
  obtain ⟨s, hs, hrecs⟩ := Option.map_eq_some_iff.mp hadded
  rw [hs, Option.bind_some] at hyields
  obtain ⟨c, hc, hyields⟩ := Option.bind_eq_some_iff.mp hyields
  refine ⟨s, Clsys.Reachable.init.run hs, fun hcons => ?_⟩
  obtain ⟨recs, hrecs', hperm⟩ := hcons 0 c hc 0
  obtain rfl := Option.some.inj (hyields.symm.trans hrecs')
  rw [hrecs] at hperm
  exact absurd hperm.length_eq (by decide)

end SolidDB
