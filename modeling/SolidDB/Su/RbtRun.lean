import SolidDB.Su.RbtDelete

/-!
# Runs of the red-black tree

The nodes of a tree are those that were inserted and not deleted since. After every operation
of a run they form a red-black tree in the order of their keys, and the queries are those of an
ordered set.
-/

namespace SolidDB

namespace Rbt

open RbTree

variable {K S : Type*} {s s' : Rbt K} {t : RbTree ℕ} {icompare : K → K → ℤ}
  {scompare : S → K → ℤ} {x z fuel : ℕ} {l l₁ l₂ : List ℕ}

/-! ## Deletions -/

/-- `su_rbt_delete` takes the node out of the list of nodes and keeps all keys. -/
theorem suRbtDelete_spec (h : IsTree icompare s t) (hz : z ∈ t.toList)
    (hfuel : t.toList.length < fuel) (hasDelete : Bool) : ∃ s' t' l₁ l₂,
      s.suRbtDelete hasDelete fuel z =
        some (if hasDelete then none else some (s.rnKey z), s') ∧
      IsTree icompare s' t' ∧ t.toList = l₁ ++ z :: l₂ ∧ t'.toList = l₁ ++ l₂ ∧
      s'.rnKey = s.rnKey ∧ s'.rbtNil = s.rbtNil := by
  obtain ⟨s', t', l₁, l₂, hdel, hlist, hdone⟩ := rbDelete_spec h.placed h.redBlack hz hfuel
  have hkey : ({ s' with rbtNelems := s'.rbtNelems - 1 } : Rbt K).rnKey = s.rnKey :=
    hdone.rest.key
  refine ⟨{ s' with rbtNelems := s'.rbtNelems - 1 }, t', l₁, l₂, ?_, ⟨?_, hdone.redBlack, ?_, ?_⟩,
    hlist, hdone.toList_eq, hkey, hdone.rest.nil⟩
  · rw [suRbtDelete, hdel]
    rfl
  · exact hdone.placed.congr rfl rfl (fun a _ => ⟨rfl, rfl, fun _ => rfl⟩)
      ⟨rfl, rfl, fun _ => rfl⟩
  · have hord := h.ordered
    rw [hlist] at hord
    rw [hkey, hdone.toList_eq]
    exact hord.sublist ((List.sublist_cons_self z l₂).append_left l₁)
  · have hlen := congrArg List.length hlist
    rw [List.length_append, List.length_cons, ← h.nelems, ← hdone.rest.nelems] at hlen
    rw [hdone.toList_eq, List.length_append]
    exact Nat.sub_eq_of_eq_add hlen

theorem suRbtDeleteall_spec (h : IsTree icompare s t) (hfuel : 2 * t.toList.length < fuel)
    (hasDelete : Bool) : ∃ s', suRbtDeleteall hasDelete fuel s = some s' ∧
      IsTree icompare s' .nil ∧ s'.rbtNil = s.rbtNil := by
  induction fuel generalizing s t with
  | zero => exact absurd hfuel (Nat.not_lt_zero _)
  | succ fuel ih =>
      rw [suRbtDeleteall, h.suRbtMin_eq (by omega)]
      cases hl : t.toList with
      | nil =>
          obtain rfl : t = .nil := by
            by_contra hne
            exact toList_ne_nil hne hl
          exact ⟨s, rfl, h, rfl⟩
      | cons a l =>
          have ha : a ∈ t.toList := by
            rw [hl]
            exact List.mem_cons_self
          rw [hl, List.length_cons] at hfuel
          obtain ⟨s₁, t₁, l₁, l₂, hdel, htree, hlist, hlist', -, hnil⟩ :=
            suRbtDelete_spec h ha (show _ < fuel by rw [hl, List.length_cons]; omega)
              hasDelete
          have hlen := congrArg List.length hlist
          rw [hl, List.length_append, List.length_cons, List.length_cons] at hlen
          obtain ⟨s', hall, hempty, hnil'⟩ := ih htree (by
            rw [hlist', List.length_append]
            omega)
          refine ⟨s', ?_, hempty, hnil'.trans hnil⟩
          rw [List.head?_cons, Option.bind_some]
          simp only [hdel, Option.bind_some]
          exact hall

theorem isTree_init (nil : ℕ) (null : K) : IsTree icompare (init nil null) .nil :=
  ⟨⟨trivial, rfl, List.nodup_nil, fun _ => rfl, rfl⟩, ⟨rfl, 0, rfl⟩, List.Pairwise.nil, rfl⟩

/-! ## Picking a node of an ordered list -/

def Picks (lt : ℕ → ℕ → Prop) (l : List ℕ) (p : ℕ → Prop) : Option ℕ → Prop
  | none => ∀ a ∈ l, ¬ p a
  | some a => a ∈ l ∧ p a ∧ ∀ b ∈ l, p b → b ≠ a → lt a b

section Picks

variable {lt : ℕ → ℕ → Prop} {p : ℕ → Prop} {r : Option ℕ}

theorem Picks.congr {q : ℕ → Prop} (h : Picks lt l p r) (hmem : ∀ a, a ∈ l ↔ a ∈ l₁)
    (hq : ∀ a, p a ↔ q a) : Picks lt l₁ q r := by
  cases r with
  | none => exact fun a ha hqa => h a ((hmem a).mpr ha) ((hq a).mpr hqa)
  | some a =>
      obtain ⟨ha, hpa, hall⟩ := h
      exact ⟨(hmem a).mp ha, (hq a).mp hpa, fun b hb hqb =>
        hall b ((hmem b).mpr hb) ((hq b).mpr hqb)⟩

theorem picks_find? [DecidablePred p] (h : l.Pairwise lt) :
    Picks lt l p (l.find? fun a => decide (p a)) := by
  induction l with
  | nil => exact fun a ha => absurd ha List.not_mem_nil
  | cons a l ih =>
      obtain ⟨hall, hl⟩ := List.pairwise_cons.mp h
      rw [List.find?_cons]
      by_cases hp : p a
      · rw [decide_eq_true hp]
        refine ⟨List.mem_cons_self, hp, fun b hb _ hne => ?_⟩
        rcases List.mem_cons.mp hb with rfl | hb
        · exact absurd rfl hne
        · exact hall b hb
      · rw [decide_eq_false hp]
        have htail := ih hl
        cases hr : l.find? fun a => decide (p a) with
        | none =>
            rw [hr] at htail
            intro b hb
            rcases List.mem_cons.mp hb with rfl | hb
            · exact hp
            · exact htail b hb
        | some c =>
            rw [hr] at htail
            obtain ⟨hc, hpc, hrest⟩ := htail
            refine ⟨List.mem_cons_of_mem _ hc, hpc, fun b hb hpb hne => ?_⟩
            rcases List.mem_cons.mp hb with rfl | hb
            · exact absurd hpb hp
            · exact hrest b hb hpb hne

theorem picks_head? (h : l.Pairwise lt) : Picks lt l (fun _ => True) l.head? := by
  have hfind := picks_find? (p := fun _ => True) h
  cases l with
  | nil => exact hfind
  | cons a l => exact hfind

theorem picks_next (h : (l₁ ++ x :: l₂).Pairwise lt) (hasymm : ∀ a b, lt a b → ¬ lt b a) :
    Picks lt (l₁ ++ x :: l₂) (fun b => lt x b) l₂.head? := by
  obtain ⟨-, hright, hcross⟩ := List.pairwise_append.mp h
  obtain ⟨hx, hl₂⟩ := List.pairwise_cons.mp hright
  have hbehind (b : ℕ) (hb : b ∈ l₁ ++ x :: l₂) (hlt : lt x b) : b ∈ l₂ := by
    rcases List.mem_append.mp hb with hb | hb
    · exact absurd (hcross b hb x List.mem_cons_self) (hasymm _ _ hlt)
    · rcases List.mem_cons.mp hb with rfl | hb
      · exact absurd hlt (hasymm _ _ hlt)
      · exact hb
  cases l₂ with
  | nil => exact fun b hb hlt => absurd (hbehind b hb hlt) List.not_mem_nil
  | cons a l₂ =>
      refine ⟨List.mem_append_right _ (List.mem_cons_of_mem _ List.mem_cons_self),
        hx a List.mem_cons_self, fun b hb hlt hne => ?_⟩
      rcases List.mem_cons.mp (hbehind b hb hlt) with rfl | hin
      · exact absurd rfl hne
      · exact (List.pairwise_cons.mp hl₂).1 b hin

end Picks

/-! ## The ordered set -/

def KeyLt (icompare : K → K → ℤ) (s : Rbt K) (a b : ℕ) : Prop :=
  icompare (s.rnKey a) (s.rnKey b) < 0

def KeyGt (icompare : K → K → ℤ) (s : Rbt K) (a b : ℕ) : Prop := KeyLt icompare s b a

theorem keyLt_asymm (hcmp : TotalCompare icompare) {a b : ℕ} (h : KeyLt icompare s a b) :
    ¬ KeyLt icompare s b a := fun hba => absurd ((hcmp.swap _ _).mpr hba) (not_lt.mpr (le_of_lt h))

structure Queries (icompare : K → K → ℤ) (scompare : S → K → ℤ) (fuel : ℕ) (s : Rbt K)
    (l : List ℕ) : Prop where
  search : ∀ key, ∃ r, s.suRbtSearch scompare fuel key = some r ∧
    Picks (KeyLt icompare s) l (fun a => scompare key (s.rnKey a) = 0) r
  atleast : ∀ key, ∃ r, s.suRbtSearchAtleast scompare fuel key = some r ∧
    Picks (KeyLt icompare s) l (fun a => scompare key (s.rnKey a) ≤ 0) r
  atmost : ∀ key, ∃ r, s.suRbtSearchAtmost scompare fuel key = some r ∧
    Picks (KeyGt icompare s) l (fun a => 0 ≤ scompare key (s.rnKey a)) r
  min : ∃ r, s.suRbtMin fuel = some r ∧ Picks (KeyLt icompare s) l (fun _ => True) r
  max : ∃ r, s.suRbtMax fuel = some r ∧ Picks (KeyGt icompare s) l (fun _ => True) r
  succ : ∀ x ∈ l, ∃ r, s.suRbtSucc fuel x = some r ∧
    Picks (KeyLt icompare s) l (KeyLt icompare s x) r
  pred : ∀ x ∈ l, ∃ r, s.suRbtPred fuel x = some r ∧
    Picks (KeyGt icompare s) l (KeyGt icompare s x) r

theorem reaches_right_iff {c : ℤ} : Reaches .right c ↔ c ≤ 0 := by
  unfold Reaches sideOf
  split_ifs with h
  · exact iff_of_true (Or.inr rfl) h.le
  · constructor
    · rintro (rfl | hside)
      · exact le_refl 0
      · exact Side.noConfusion hside
    · exact fun hle => Or.inl (le_antisymm hle (not_lt.mp h))

theorem reaches_left_iff {c : ℤ} : Reaches .left c ↔ 0 ≤ c := by
  unfold Reaches sideOf
  split_ifs with h
  · refine iff_of_false ?_ (not_le.mpr h)
    rintro (rfl | hside)
    · exact absurd h (lt_irrefl 0)
    · exact Side.noConfusion hside
  · exact iff_of_true (Or.inr rfl) (not_lt.mp h)

theorem IsTree.queries (h : IsTree icompare s t) (hcmp : TotalCompare icompare)
    (hs : SearchCompare icompare scompare) (hfuel : 2 * t.toList.length < fuel) :
    Queries icompare scompare fuel s t.toList := by
  have hord : t.toList.Pairwise (KeyLt icompare s) := h.ordered
  have hrev : t.toList.reverse.Pairwise (KeyGt icompare s) := List.pairwise_reverse.mpr hord
  have hmem (a : ℕ) : a ∈ t.toList.reverse ↔ a ∈ t.toList := List.mem_reverse
  refine ⟨fun key => ⟨_, h.suRbtSearch_eq hs key (by omega), picks_find? hord⟩,
    fun key => ⟨_, h.searchNear_eq hs key hfuel, ?_⟩,
    fun key => ⟨_, h.searchNear_eq hs key hfuel, ?_⟩,
    ⟨_, h.suRbtMin_eq (by omega), picks_head? hord⟩, ⟨_, h.suRbtMax_eq (by omega), ?_⟩,
    fun x hx => ?_, fun x hx => ?_⟩
  · exact (picks_find? (p := fun a => Reaches .right ((scompare key ∘ s.rnKey) a)) hord).congr
      (fun _ => Iff.rfl) fun a => reaches_right_iff
  · exact (picks_find? (p := fun a => Reaches .left ((scompare key ∘ s.rnKey) a)) hrev).congr
      hmem fun a => reaches_left_iff
  · rw [← List.head?_reverse]
    exact (picks_head? hrev).congr hmem fun _ => Iff.rfl
  · obtain ⟨l₁, l₂, hlist, hsucc, -⟩ := h.neighbours hx (show _ < fuel by omega)
    refine ⟨_, hsucc, ?_⟩
    rw [hlist] at hord ⊢
    exact picks_next hord fun a b => keyLt_asymm hcmp
  · obtain ⟨l₁, l₂, hlist, -, hpred⟩ := h.neighbours hx (show _ < fuel by omega)
    refine ⟨_, hpred, ?_⟩
    have hrev' : (l₂.reverse ++ x :: l₁.reverse).Pairwise (KeyGt icompare s) := by
      rw [hlist, List.reverse_append, List.reverse_cons, List.append_assoc] at hrev
      exact hrev
    rw [← List.head?_reverse, hlist]
    refine (picks_next hrev' fun a b => keyLt_asymm hcmp).congr (fun a => ?_) fun _ => Iff.rfl
    rw [List.mem_append, List.mem_append, List.mem_cons, List.mem_cons, List.mem_reverse,
      List.mem_reverse, or_left_comm, or_comm (a := a ∈ l₂), or_left_comm]

theorem Queries.congr (h : Queries icompare scompare fuel s l₁) (hmem : ∀ a, a ∈ l₁ ↔ a ∈ l) :
    Queries icompare scompare fuel s l := by
  have hpick {lt : ℕ → ℕ → Prop} {p : ℕ → Prop} {q : Option (Option ℕ)}
      (hr : ∃ r, q = some r ∧ Picks lt l₁ p r) : ∃ r, q = some r ∧ Picks lt l p r := by
    obtain ⟨r, hq, hp⟩ := hr
    exact ⟨r, hq, hp.congr hmem fun _ => Iff.rfl⟩
  exact ⟨fun key => hpick (h.search key), fun key => hpick (h.atleast key),
    fun key => hpick (h.atmost key), hpick h.min, hpick h.max,
    fun x hx => hpick (h.succ x ((hmem x).mpr hx)), fun x hx => hpick (h.pred x ((hmem x).mpr hx))⟩

/-! ## Runs -/

/-- The states of a tree that starts empty, with the nodes that are in it. A new node has an
address that no node of the tree and not the sentinel has. -/
inductive RbtRun (icompare : K → K → ℤ) : Rbt K → List ℕ → Prop
  | init (nil : ℕ) (null : K) : RbtRun icompare (init nil null) []
  | refused {s s' : Rbt K} {l : List ℕ} {x fuel : ℕ} {key : K} (h : RbtRun icompare s l)
      (hnew : x ∉ l) (hnil : x ≠ s.rbtNil) (hfuel : 2 * s.rbtNelems + 1 < fuel)
      (hstep : s.suRbtInsert2 icompare fuel x key = some (none, s')) : RbtRun icompare s' l
  | added {s s' : Rbt K} {l : List ℕ} {x fuel : ℕ} {key : K} {y : ℕ} (h : RbtRun icompare s l)
      (hnew : x ∉ l) (hnil : x ≠ s.rbtNil) (hfuel : 2 * s.rbtNelems + 1 < fuel)
      (hstep : s.suRbtInsert2 icompare fuel x key = some (some y, s')) :
      RbtRun icompare s' (y :: l)
  | delete {s s' : Rbt K} {l : List ℕ} {z fuel : ℕ} {hasDelete : Bool} {r : Option K}
      (h : RbtRun icompare s l) (hz : z ∈ l) (hfuel : 2 * s.rbtNelems + 1 < fuel)
      (hstep : s.suRbtDelete hasDelete fuel z = some (r, s')) : RbtRun icompare s' (l.erase z)
  | deleteall {s s' : Rbt K} {l : List ℕ} {fuel : ℕ} {hasDelete : Bool} (h : RbtRun icompare s l)
      (hfuel : 2 * s.rbtNelems + 1 < fuel)
      (hstep : suRbtDeleteall hasDelete fuel s = some s') : RbtRun icompare s' []

def HoldsNodes (icompare : K → K → ℤ) (s : Rbt K) (l : List ℕ) : Prop :=
  ∃ t, IsTree icompare s t ∧ t.toList.Perm l

theorem RbtRun.holdsNodes (hcmp : TotalCompare icompare) (hrun : RbtRun icompare s l) :
    HoldsNodes icompare s l := by
  induction hrun with
  | init nil null => exact ⟨.nil, isTree_init nil null, List.Perm.refl _⟩
  | @refused s s' l x fuel key _ hnew hnil hfuel hstep ih =>
      obtain ⟨t, htree, hperm⟩ := ih
      rw [htree.nelems] at hfuel
      obtain ⟨r, s₁, t', hins, hdone⟩ := suRbtInsert2_spec hcmp htree (show _ < fuel by omega)
        (fun hin => hnew (hperm.mem_iff.mp hin)) hnil key
      rw [hins] at hstep
      obtain ⟨rfl, rfl⟩ := Prod.mk.inj (Option.some.inj hstep)
      refine ⟨t', hdone.tree, ?_⟩
      rw [(hdone.refused rfl).1]
      exact hperm
  | @added s s' l x fuel key y _ hnew hnil hfuel hstep ih =>
      obtain ⟨t, htree, hperm⟩ := ih
      rw [htree.nelems] at hfuel
      obtain ⟨r, s₁, t', hins, hdone⟩ := suRbtInsert2_spec hcmp htree (show _ < fuel by omega)
        (fun hin => hnew (hperm.mem_iff.mp hin)) hnil key
      rw [hins] at hstep
      obtain ⟨rfl, rfl⟩ := Prod.mk.inj (Option.some.inj hstep)
      obtain ⟨rfl, -, -, l₁, l₂, hl, hl'⟩ := hdone.added y rfl
      refine ⟨t', hdone.tree, ?_⟩
      rw [hl']
      rw [hl] at hperm
      exact List.perm_middle.trans (hperm.cons y)
  | @delete s s' l z fuel hasDelete r _ hz hfuel hstep ih =>
      obtain ⟨t, htree, hperm⟩ := ih
      rw [htree.nelems] at hfuel
      obtain ⟨s₁, t', l₁, l₂, hdel, htree', hl, hl', -, -⟩ :=
        suRbtDelete_spec htree (hperm.mem_iff.mpr hz) (show _ < fuel by omega) hasDelete
      rw [hdel] at hstep
      obtain ⟨-, rfl⟩ := Prod.mk.inj (Option.some.inj hstep)
      refine ⟨t', htree', ?_⟩
      rw [hl] at hperm
      rw [hl']
      exact (List.cons_perm_iff_perm_erase.mp (List.perm_middle.symm.trans hperm)).2
  | @deleteall s s' l fuel hasDelete _ hfuel hstep ih =>
      obtain ⟨t, htree, -⟩ := ih
      rw [htree.nelems] at hfuel
      obtain ⟨s₁, hall, hempty, -⟩ :=
        suRbtDeleteall_spec htree (show _ < fuel by omega) hasDelete
      rw [hall] at hstep
      obtain rfl := Option.some.inj hstep
      exact ⟨.nil, hempty, List.Perm.refl _⟩

structure OrderedSet (icompare : K → K → ℤ) (scompare : S → K → ℤ) (s : Rbt K) (l : List ℕ) :
    Prop where
  holds : HoldsNodes icompare s l
  nelems : s.suRbtNelems = l.length
  insert : ∀ x key fuel, x ∉ l → x ≠ s.rbtNil → 2 * s.rbtNelems + 1 < fuel → ∃ r s',
    s.suRbtInsert2 icompare fuel x key = some (r, s') ∧
    s.suRbtInsert icompare fuel x key = some (r.isSome, s') ∧
    ((r = none ∧ ∃ a ∈ l, icompare key (s.rnKey a) = 0) ∨
      (r = some x ∧ s'.rnKey x = key ∧ ∀ a ∈ l, icompare key (s.rnKey a) ≠ 0)) ∧
    ∀ a ∈ l, s'.rnKey a = s.rnKey a
  delete : ∀ z ∈ l, ∀ hasDelete fuel, 2 * s.rbtNelems + 1 < fuel → ∃ s',
    s.suRbtDelete hasDelete fuel z =
      some (if hasDelete then none else some (s.rnKey z), s') ∧ s'.rnKey = s.rnKey
  deleteall : ∀ hasDelete fuel, 2 * s.rbtNelems + 1 < fuel → ∃ s',
    suRbtDeleteall hasDelete fuel s = some s'
  queries : ∀ fuel, 2 * s.rbtNelems + 1 < fuel → Queries icompare scompare fuel s l

/-- The red-black tree is an ordered set with stable nodes in every state of a run. -/
theorem rbtRun_orderedSet (hcmp : TotalCompare icompare) (hs : SearchCompare icompare scompare)
    (hrun : RbtRun icompare s l) : OrderedSet icompare scompare s l := by
  obtain ⟨t, htree, hperm⟩ := hrun.holdsNodes hcmp
  have hmem (a : ℕ) : a ∈ t.toList ↔ a ∈ l := hperm.mem_iff
  refine ⟨⟨t, htree, hperm⟩, htree.nelems.trans hperm.length_eq,
    fun x key fuel hnew hnil hfuel => ?_, fun z hz hasDelete fuel hfuel => ?_,
    fun hasDelete fuel hfuel => ?_, fun fuel hfuel => ?_⟩
  · rw [htree.nelems] at hfuel
    obtain ⟨r, s', t', hins, hdone⟩ := suRbtInsert2_spec hcmp htree (show _ < fuel by omega)
      (fun hin => hnew ((hmem x).mp hin)) hnil key
    refine ⟨r, s', hins, ?_, ?_, fun a ha => hdone.keys a ?_⟩
    · rw [suRbtInsert, hins]
      rfl
    · cases r with
      | none =>
          obtain ⟨-, a, ha, heq⟩ := hdone.refused rfl
          exact Or.inl ⟨rfl, a, (hmem a).mp ha, heq⟩
      | some y =>
          obtain ⟨rfl, hkey, hall, -⟩ := hdone.added y rfl
          exact Or.inr ⟨rfl, hkey, fun a ha => hall a ((hmem a).mpr ha)⟩
    · rintro rfl
      exact hnew ha
  · rw [htree.nelems] at hfuel
    obtain ⟨s', t', l₁, l₂, hdel, -, -, -, hkey, -⟩ :=
      suRbtDelete_spec htree ((hmem z).mpr hz) (show _ < fuel by omega) hasDelete
    exact ⟨s', hdel, hkey⟩
  · rw [htree.nelems] at hfuel
    obtain ⟨s', hall, -, -⟩ := suRbtDeleteall_spec htree (show _ < fuel by omega) hasDelete
    exact ⟨s', hall⟩
  · rw [htree.nelems] at hfuel
    exact (htree.queries hcmp hs (by omega)).congr hmem

/-- A tree of numbers after four insertions and the deletion of its root, which has two
children. -/
theorem rbtRun_orderedSet_deleted : ∃ s : Rbt ℤ, s.rbtNelems = 3 ∧
    OrderedSet (fun a b => a - b) (fun a b => a - b) s [4, 3, 2] := by
  have hcmp : TotalCompare fun a b : ℤ => a - b := by
    exact ⟨fun a b => by omega, fun a b c hab hbc => by omega⟩
  have hsearch : SearchCompare (fun a b : ℤ => a - b) fun a b : ℤ => a - b := by
    intro key a b hab hle
    dsimp only at hab hle ⊢
    omega
  have hrun : ((((init 0 (0 : ℤ)).suRbtInsert2 (fun a b => a - b) 12 1 7).bind fun r₁ =>
      (r₁.2.suRbtInsert2 (fun a b => a - b) 12 2 3).bind fun r₂ =>
      (r₂.2.suRbtInsert2 (fun a b => a - b) 12 3 9).bind fun r₃ =>
      (r₃.2.suRbtInsert2 (fun a b => a - b) 12 4 8).bind fun r₄ =>
      (r₄.2.suRbtDelete false 12 1).map fun r₅ =>
        ([r₁.1, r₂.1, r₃.1, r₄.1], [r₁.2.rbtNil, r₂.2.rbtNil, r₃.2.rbtNil, r₄.2.rbtRoot],
          [r₁.2, r₂.2, r₃.2, r₄.2, r₅.2].map rbtNelems))) =
      some ([some 1, some 2, some 3, some 4], [0, 0, 0, 1], [1, 2, 3, 4, 3]) := by
    decide +kernel
  obtain ⟨⟨o₁, s₁⟩, h₁, hrun⟩ := Option.bind_eq_some_iff.mp hrun
  obtain ⟨⟨o₂, s₂⟩, h₂, hrun⟩ := Option.bind_eq_some_iff.mp hrun
  obtain ⟨⟨o₃, s₃⟩, h₃, hrun⟩ := Option.bind_eq_some_iff.mp hrun
  obtain ⟨⟨o₄, s₄⟩, h₄, hrun⟩ := Option.bind_eq_some_iff.mp hrun
  obtain ⟨⟨o₅, s₅⟩, h₅, hrun⟩ := Option.map_eq_some_iff.mp hrun
  simp only [Prod.mk.injEq, List.map_cons, List.map_nil, List.cons.injEq, and_true] at hrun
  obtain ⟨⟨rfl, rfl, rfl, rfl⟩, ⟨hz₁, hz₂, hz₃, -⟩, hn₁, hn₂, hn₃, hn₄, hn₅⟩ := hrun
  have hone := RbtRun.added (.init 0 0) List.not_mem_nil (by decide) (by decide) h₁
  have htwo := RbtRun.added hone (by decide) (by rw [hz₁]; decide) (by rw [hn₁]; decide) h₂
  have hthree := RbtRun.added htwo (by decide) (by rw [hz₂]; decide) (by rw [hn₂]; decide) h₃
  have hfour := RbtRun.added hthree (by decide) (by rw [hz₃]; decide) (by rw [hn₃]; decide) h₄
  exact ⟨s₅, hn₅, rbtRun_orderedSet hcmp hsearch
    (hfour.delete (by decide) (by rw [hn₄]; decide) h₅)⟩

end Rbt

end SolidDB
