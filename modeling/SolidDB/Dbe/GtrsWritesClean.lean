import SolidDB.Dbe.GtrsWritesRun

/-!
# Released writes wait for older readers

While the list is in order, every portion waits at a transaction that its older readers
stand before, or these have the lowest level of all. So when the first transaction hands
its portions to the database object, none of their older readers is left.
-/

namespace SolidDB

open Gtrs

variable {cfg : GtrsCfg} {g g' : Gtrs} {L : Ledger} {t u v : ℕ} {n own db ended : ℤ}

/-! ## Positions in a list without repetitions -/

theorem mem_of_pair_sublist {list k l : List ℕ} (hnodup : list.Nodup) (hlist : list = k ++ t :: l)
    (h : [u, t].Sublist list) : u ∈ k := by
  subst hlist
  obtain ⟨a, b, hab, ha, hb⟩ := List.sublist_append_iff.mp h
  have hdisj := List.nodup_append.mp hnodup
  have htl : t ∉ l := (List.nodup_cons.mp hdisj.2.1).1
  have htk : t ∉ k := fun hmem => hdisj.2.2 t hmem t List.mem_cons_self rfl
  cases a with
  | nil =>
      obtain rfl : [u, t] = b := hab
      refine absurd ?_ htl
      cases hb with
      | cons _ hb => exact hb.subset (List.mem_cons_of_mem _ List.mem_cons_self)
      | cons_cons _ hb => exact hb.subset List.mem_cons_self
  | cons x a =>
      obtain ⟨rfl, hrest⟩ := List.cons.inj hab
      exact ha.subset List.mem_cons_self

theorem pair_sublist_of_mem {list k l : List ℕ} (hlist : list = k ++ t :: l) (h : u ∈ k) :
    [u, t].Sublist list := by
  subst hlist
  exact (List.singleton_sublist.mpr h).append (List.singleton_sublist.mpr List.mem_cons_self)

theorem pair_sublist_or {list : List ℕ} (ht : t ∈ list) (hu : u ∈ list) (hne : u ≠ t) :
    [u, t].Sublist list ∨ [t, u].Sublist list := by
  obtain ⟨k, l, hlist⟩ := List.append_of_mem ht
  rw [hlist] at hu
  rcases List.mem_append.mp hu with hk | hl
  · exact Or.inl (pair_sublist_of_mem hlist hk)
  · right
    rw [hlist]
    rcases List.mem_cons.mp hl with rfl | hl
    · exact absurd rfl hne
    · exact ((List.singleton_sublist.mpr hl).cons_cons t).trans (List.sublist_append_right k _)

theorem pair_sublist_erase {list : List ℕ} (h : [u, v].Sublist list) (hu : u ≠ t) (hv : v ≠ t) :
    [u, v].Sublist (list.erase t) := by
  have herase := h.erase t
  rw [List.erase_of_not_mem] at herase
  · exact herase
  · intro hmem
    rcases List.mem_cons.mp hmem with rfl | hmem
    · exact hu rfl
    · exact hv (List.mem_singleton.mp hmem).symm

/-! ## Waiting -/

def Gtrs.Ascends (g : Gtrs) : Prop :=
  g.gtrsReadlevellist.Pairwise fun t u => g.level t ≤ g.level u

theorem Gtrs.Ascends.level_le (h : g.Ascends) (huv : [u, v].Sublist g.gtrsReadlevellist) :
    g.level u ≤ g.level v := by
  have hpair : [u, v].Pairwise fun t u => g.level t ≤ g.level u := List.Pairwise.sublist huv h
  exact (List.pairwise_cons.mp hpair).1 v List.mem_cons_self

/-- The transaction `u` stands before `t`, or no level is below that of `u`. -/
def Gtrs.Precedes (g : Gtrs) (u t : ℕ) : Prop :=
  u ∈ g.gtrsReadlevellist ∧ ([u, t].Sublist g.gtrsReadlevellist ∨ u = t ∨
    ∀ v ∈ g.gtrsReadlevellist, g.level u ≤ g.level v)

def WaitsAt (g : Gtrs) (t : ℕ) (ps : List Portion) : Prop :=
  ∀ p ∈ ps, ∀ u ∈ p.older, g.Precedes u t

structure Waits (g : Gtrs) (L : Ledger) : Prop where
  ascends : g.Ascends
  held : ∀ t ∈ g.gtrsReadlevellist, WaitsAt g t (L.held t)
  released : ∀ p ∈ L.released, p.older = []

theorem mem_forget {p : Portion} (h : u ∈ (p.forget t).older) : u ∈ p.older ∧ u ≠ t := by
  obtain ⟨hmem, hne⟩ := List.mem_filter.mp h
  exact ⟨hmem, of_decide_eq_true hne⟩

section Remove

variable (hnodup : g.gtrsReadlevellist.Nodup) (hasc : g.Ascends)
  (hlist : g'.gtrsReadlevellist = g.gtrsReadlevellist.erase t)
  (hlevel : ∀ v ∈ g'.gtrsReadlevellist, g'.level v = g.level v)

include hnodup hlist in
theorem mem_removed (hu : u ∈ g.gtrsReadlevellist) (hne : u ≠ t) : u ∈ g'.gtrsReadlevellist := by
  rw [hlist, hnodup.mem_erase_iff]
  exact ⟨hne, hu⟩

include hlist hlevel in
theorem ascends_remove (hasc : g.Ascends) : g'.Ascends := by
  have hsub : g'.gtrsReadlevellist.Sublist g.gtrsReadlevellist := by
    rw [hlist]
    exact List.erase_sublist
  refine (List.Pairwise.sublist hsub hasc).imp_of_mem fun hu hv hle => ?_
  rw [hlevel _ hu, hlevel _ hv]
  exact hle

include hnodup hlist hlevel in
theorem lowest_remove (hu : u ∈ g.gtrsReadlevellist) (hne : u ≠ t)
    (hlow : ∀ v ∈ g.gtrsReadlevellist, g.level u ≤ g.level v) :
    ∀ v ∈ g'.gtrsReadlevellist, g'.level u ≤ g'.level v := by
  intro v hv
  rw [hlevel u (mem_removed hnodup hlist hu hne), hlevel v hv]
  rw [hlist] at hv
  exact hlow v (List.mem_of_mem_erase hv)

include hnodup hlist hlevel in
theorem waitsAt_stay {ps : List Portion} (hv : v ≠ t) (h : WaitsAt g v ps) :
    WaitsAt g' v (ps.map (Portion.forget t)) := by
  intro p hp u hu
  obtain ⟨p', hp', rfl⟩ := List.mem_map.mp hp
  obtain ⟨hu', hne⟩ := mem_forget hu
  obtain ⟨hmem, hplace⟩ := h p' hp' u hu'
  refine ⟨mem_removed hnodup hlist hmem hne, ?_⟩
  rcases hplace with hsub | heq | hlow
  · left
    rw [hlist]
    exact pair_sublist_erase hsub hne hv
  · exact Or.inr (Or.inl heq)
  · exact Or.inr (Or.inr (lowest_remove hnodup hlist hlevel hmem hne hlow))

include hnodup hlist hlevel in
theorem waitsAt_heir {ps : List Portion} (hheir : Heir g t (some v)) (h : WaitsAt g t ps) :
    WaitsAt g' v (ps.map (Portion.forget t)) := by
  intro p hp u hu
  obtain ⟨p', hp', rfl⟩ := List.mem_map.mp hp
  obtain ⟨hu', hne⟩ := mem_forget hu
  obtain ⟨hmem, hplace⟩ := h p' hp' u hu'
  have hvt : v ≠ t := (hnodup.mem_erase_iff.mp (hheir.mem_erase hnodup)).1
  refine ⟨mem_removed hnodup hlist hmem hne, ?_⟩
  rcases hplace with hsub | heq | hlow
  · cases hheir with
    | prev l₁ l₂ hl =>
        have hl' : g.gtrsReadlevellist = (l₁ ++ [v]) ++ t :: l₂ := by
          rw [hl, List.append_assoc]
          rfl
        rcases List.mem_append.mp (mem_of_pair_sublist hnodup hl' hsub) with hu₁ | hu₁
        · left
          rw [hlist]
          exact pair_sublist_erase (pair_sublist_of_mem hl hu₁) hne hvt
        · exact Or.inr (Or.inl (List.mem_singleton.mp hu₁))
    | next l₂ hl hle => exact absurd (mem_of_pair_sublist (k := []) hnodup hl hsub) List.not_mem_nil
  · exact absurd heq hne
  · exact Or.inr (Or.inr (lowest_remove hnodup hlist hlevel hmem hne hlow))

include hnodup hasc in
theorem older_eq_nil_of_no_heir {ps : List Portion} (hheir : Heir g t none)
    (h : WaitsAt g t ps) : ∀ p ∈ ps.map (Portion.forget t), p.older = [] := by
  intro p hp
  obtain ⟨p', hp', rfl⟩ := List.mem_map.mp hp
  rw [List.eq_nil_iff_forall_not_mem]
  intro u hu
  obtain ⟨hu', hne⟩ := mem_forget hu
  obtain ⟨hmem, hplace⟩ := h p' hp' u hu'
  cases hheir with
  | none l₂ hl hlt =>
      rcases hplace with hsub | heq | hlow
      · exact List.not_mem_nil (mem_of_pair_sublist (k := []) hnodup hl hsub)
      · exact hne heq
      · cases l₂ with
        | nil =>
            rw [hl] at hmem
            exact hne (List.mem_singleton.mp hmem)
        | cons x l₂ =>
            have hx : g.level t < g.level x := hlt x rfl
            have hux : g.level x ≤ g.level u := by
              rw [hl] at hmem
              rcases List.mem_cons.mp hmem with heq | hmem
              · exact absurd heq hne
              · rcases List.mem_cons.mp hmem with rfl | hmem
                · exact le_rfl
                · refine hasc.level_le ?_
                  rw [hl]
                  exact ((List.singleton_sublist.mpr hmem).cons_cons x).cons t
            have htu := hlow t (hl ▸ List.mem_cons_self)
            exact absurd (hx.trans_le hux) (not_lt.mpr htu)

end Remove

theorem waitsAt_append {ps qs : List Portion} (hp : WaitsAt g t ps) (hq : WaitsAt g t qs) :
    WaitsAt g t (ps ++ qs) := by
  intro p hmem
  rcases List.mem_append.mp hmem with hmem | hmem
  · exact hp p hmem
  · exact hq p hmem

theorem waitsAt_nil (g : Gtrs) (t : ℕ) : WaitsAt g t [] :=
  fun _ hp => absurd hp List.not_mem_nil

theorem map_forget_eq {ps : List Portion} (h : ∀ p ∈ ps, t ∉ p.older) :
    ps.map (Portion.forget t) = ps := by
  refine (List.map_congr_left fun p hp => ?_).trans (List.map_id ps)
  have hfilter : (p.older.filter fun u => u ≠ t) = p.older := by
    rw [List.filter_eq_self]
    intro u hu
    exact decide_eq_true fun heq => h p hp (heq ▸ hu)
  rw [Portion.forget, hfilter]
  rfl

theorem Waits.remove (h : Waits g L) (hnodup : g.gtrsReadlevellist.Nodup)
    (ht : t ∈ g.gtrsReadlevellist) {ps : List Portion} (hps : WaitsAt g t ps)
    (hself : ∀ p ∈ ps, t ∉ p.older) (commitp : Bool) (m : ℤ) :
    Waits (gtrsRemovetrxreadlevel g t commitp m).1 (L.removetrxreadlevel g t ps) := by
  have hlist := gtrsRemovetrxreadlevel_list g t commitp m
  have hrel := gtrsRemovetrxreadlevel_releases hnodup t commitp m
  have hlevel (v : ℕ) (hv : v ∈ (gtrsRemovetrxreadlevel g t commitp m).1.gtrsReadlevellist) :=
    hrel.level_eq hv
  have hasc := ascends_remove hlist hlevel h.ascends
  have hcases := writesHeir_cases ht
  have hforget := map_forget_eq hself
  have hall : WaitsAt g t (L.held t ++ ps) := waitsAt_append (h.held t ht) hps
  generalize (gtrsRemovetrxreadlevel g t commitp m).1 = g' at hlist hlevel hasc ⊢
  cases hheir : writesHeir g t with
  | some u =>
      rw [hheir] at hcases
      have hu := hcases.mem_erase hnodup
      refine ⟨hasc, fun v hv => ?_, ?_⟩
      · rw [held_remove_of_some hheir]
        rw [hlist] at hv
        have hvt := (hnodup.mem_erase_iff.mp hv)
        by_cases hvu : v = u
        · rw [if_pos hvu, hvu]
          have hheld := waitsAt_heir hnodup hlist hlevel hcases hall
          rw [List.map_append, hforget] at hheld
          refine waitsAt_append (waitsAt_stay hnodup hlist hlevel (hvu ▸ hvt.1) ?_) hheld
          exact h.held u (hvu ▸ hvt.2)
        · rw [if_neg hvu, if_neg hvt.1]
          exact waitsAt_stay hnodup hlist hlevel hvt.1 (h.held v hvt.2)
      · rw [released_remove_of_some hheir]
        exact h.released
  | none =>
      rw [hheir] at hcases
      refine ⟨hasc, fun v hv => ?_, fun p hp => ?_⟩
      · rw [held_remove_of_none hheir]
        rw [hlist] at hv
        have hvt := (hnodup.mem_erase_iff.mp hv)
        rw [if_neg hvt.1]
        exact waitsAt_stay hnodup hlist hlevel hvt.1 (h.held v hvt.2)
      · rw [released_remove_of_none hheir] at hp
        rcases List.mem_append.mp hp with hp | hp
        · exact h.released p hp
        · have hnil := older_eq_nil_of_no_heir hnodup h.ascends hcases hall
          rw [List.map_append, hforget] at hnil
          exact hnil p hp

theorem Waits.releaseLoop {fuel : ℕ} {prev : Option ℕ} (h : Waits g L)
    (hnodup : g.gtrsReadlevellist.Nodup) (m : ℤ) :
    Waits (releaseLoop fuel g prev m).1 (L.releaseLoop fuel g prev) := by
  induction fuel generalizing g L prev m with
  | zero => exact h
  | succ fuel ih =>
      rw [SolidDB.releaseLoop, Ledger.releaseLoop]
      cases hhead : g.gtrsReadlevellist.head? with
      | none => exact h
      | some t =>
          simp only
          split
          · exact h
          · split
            · exact h
            · have hremove := h.remove hnodup (List.mem_of_mem_head? hhead) (waitsAt_nil g t)
                (fun p hp => absurd hp List.not_mem_nil) false 0
              refine ih hremove ?_ _
              rw [gtrsRemovetrxreadlevel_list]
              exact hnodup.erase t

theorem Waits.releasemergewrites (h : Waits g L) (hnodup : g.gtrsReadlevellist.Nodup)
    (dbmergewrites mergelimit m : ℤ) :
    Waits (gtrsReleasemergewrites g dbmergewrites mergelimit m).1
      (L.releasemergewrites g dbmergewrites mergelimit m) := by
  rw [gtrsReleasemergewrites, Ledger.releasemergewrites]
  split
  · exact h.releaseLoop hnodup m
  · exact h

theorem Waits.release {ps : List Portion} (h : Waits g L) (hps : ∀ p ∈ ps, p.older = []) :
    Waits g (L.release ps) := by
  refine ⟨h.ascends, h.held, fun p hp => ?_⟩
  rcases List.mem_append.mp hp with hp | hp
  · exact h.released p hp
  · exact hps p hp

theorem Gtrs.Precedes.congr (h : g.Precedes u t)
    (hlist : g'.gtrsReadlevellist = g.gtrsReadlevellist)
    (hlevel : ∀ v ∈ g.gtrsReadlevellist, g'.level v = g.level v) : g'.Precedes u t := by
  obtain ⟨hmem, hplace⟩ := h
  rw [Gtrs.Precedes, hlist]
  refine ⟨hmem, hplace.imp_right (Or.imp_right fun hlow v hv => ?_)⟩
  rw [hlevel u hmem, hlevel v hv]
  exact hlow v hv

theorem Waits.congr (h : Waits g L) (hlist : g'.gtrsReadlevellist = g.gtrsReadlevellist)
    (hlevel : ∀ v ∈ g.gtrsReadlevellist, g'.level v = g.level v) : Waits g' L := by
  refine ⟨?_, fun t ht p hp u hu => ?_, h.released⟩
  · rw [Gtrs.Ascends, hlist]
    refine h.ascends.imp_of_mem fun hu hv hle => ?_
    rw [hlevel _ hu, hlevel _ hv]
    exact hle
  · rw [hlist] at ht
    exact (h.held t ht p hp u hu).congr hlist hlevel

/-! ## The end of a transaction -/

/-- No transaction behind `t` has its level, or none has a lower one. A transaction that is
not in the list has a level below all of them. -/
def Gtrs.EndsClean (g : Gtrs) (t : ℕ) : Prop :=
  (t ∈ g.gtrsReadlevellist →
    (∀ u ∈ g.gtrsReadlevellist, g.level t ≤ g.level u) ∨
      ∀ u ∈ g.gtrsReadlevellist, [t, u].Sublist g.gtrsReadlevellist → g.level t < g.level u) ∧
  (t ∉ g.gtrsReadlevellist → ∀ u ∈ g.gtrsReadlevellist, g.level t < g.level u)

theorem Gtrs.EndsClean.congr (h : g.EndsClean t)
    (hlist : g'.gtrsReadlevellist = g.gtrsReadlevellist)
    (hlevel : ∀ v, g'.level v = g.level v) : g'.EndsClean t := by
  rw [Gtrs.EndsClean, hlist]
  simp only [hlevel]
  exact h

theorem mem_olderLevels :
    u ∈ olderLevels g t ↔ u ∈ g.gtrsReadlevellist ∧ u ≠ t ∧ g.level u ≤ g.level t := by
  rw [olderLevels, List.mem_filter, decide_eq_true_iff]

theorem older_ownPortion_of_abort (g : Gtrs) {a : EndtrxArgs} (h : a.commitp = false) :
    ∀ p ∈ ownPortion g a, p.older = [] := by
  intro p hp
  rw [ownPortion] at hp
  split at hp
  · exact absurd hp List.not_mem_nil
  · rw [List.mem_singleton.mp hp, h]
    rfl

theorem not_mem_older_ownPortion (g : Gtrs) (a : EndtrxArgs) :
    ∀ p ∈ ownPortion g a, a.endedTrx ∉ p.older := by
  intro p hp
  rw [ownPortion] at hp
  split at hp
  · exact absurd hp List.not_mem_nil
  · rw [List.mem_singleton.mp hp]
    simp only
    split
    · exact fun hmem => (mem_olderLevels.mp hmem).2.1 rfl
    · exact List.not_mem_nil

/-- The own portion of a committed transaction with a read level. -/
theorem waitsAt_ownPortion {a : EndtrxArgs} (hasc : g.Ascends)
    (ht : a.endedTrx ∈ g.gtrsReadlevellist)
    (h : a.commitp = true → a.nmergewrites ≠ 0 → g.EndsClean a.endedTrx) :
    WaitsAt g a.endedTrx (ownPortion g a) := by
  intro p hp u hu
  rw [ownPortion] at hp
  split at hp
  · exact absurd hp List.not_mem_nil
  next hz =>
    rw [List.mem_singleton.mp hp] at hu
    simp only at hu
    split at hu
    next hcommit =>
      obtain ⟨hmem, hne, hle⟩ := mem_olderLevels.mp hu
      refine ⟨hmem, ?_⟩
      rcases pair_sublist_or ht hmem hne with hsub | hsub
      · exact Or.inl hsub
      · have hback := hasc.level_le hsub
        rcases (h hcommit hz).1 ht with hlow | hlt
        · refine Or.inr (Or.inr fun v hv => ?_)
          exact hle.trans (hlow v hv)
        · exact absurd (hlt u hmem hsub) (not_lt.mpr hle)
    · exact absurd hu List.not_mem_nil

theorem older_ownPortion_of_unlisted {a : EndtrxArgs} (ht : a.endedTrx ∉ g.gtrsReadlevellist)
    (h : a.commitp = true → a.nmergewrites ≠ 0 → g.EndsClean a.endedTrx) :
    ∀ p ∈ ownPortion g a, p.older = [] := by
  intro p hp
  rw [ownPortion] at hp
  split at hp
  · exact absurd hp List.not_mem_nil
  next hz =>
    rw [List.mem_singleton.mp hp]
    simp only
    split
    next hcommit =>
      rw [List.eq_nil_iff_forall_not_mem]
      intro u hu
      obtain ⟨hmem, -, hle⟩ := mem_olderLevels.mp hu
      exact absurd ((h hcommit hz).2 ht u hmem) (not_lt.mpr hle)
    · rfl

theorem Waits.removeactivetrx {a : EndtrxArgs} (h : Waits g L)
    (hnodup : g.gtrsReadlevellist.Nodup)
    (hclean : a.commitp = true → a.nmergewrites ≠ 0 → g.EndsClean a.endedTrx) :
    Waits (gtrsRemoveactivetrx g a.endedTrx a.commitp a.iswrites a.nmergewrites).1
      (L.removeactivetrx g a) := by
  have hset : Waits (g.setAt a.endedTrx { g.gtrsAt a.endedTrx with atIswrites := a.iswrites }) L :=
    h.congr rfl fun _ _ => rfl
  rw [gtrsRemoveactivetrx, Ledger.removeactivetrx]
  by_cases hmem : a.endedTrx ∈ g.gtrsReadlevellist
  · simp only [hmem, if_true]
    cases hcommit : a.commitp with
    | true =>
        have hremove := hset.remove hnodup hmem (waitsAt_ownPortion h.ascends hmem hclean)
          (not_mem_older_ownPortion g a) true a.nmergewrites
        exact hremove.congr rfl fun _ _ => rfl
    | false =>
        have hremove := (hset.release (older_ownPortion_of_abort g hcommit)).remove hnodup hmem
          (waitsAt_nil _ _) (fun p hp => absurd hp List.not_mem_nil) false a.nmergewrites
        exact hremove.congr rfl fun _ _ => rfl
  · simp only [hmem, if_false]
    exact (hset.release (older_ownPortion_of_unlisted hmem hclean)).congr rfl fun _ _ => rfl

theorem Waits.endtrx {a : EndtrxArgs} (h : Waits g L) (hnodup : g.gtrsReadlevellist.Nodup)
    (hclean : a.endedTrx ∈ g.gtrsActivetrxlist → a.commitp = true → a.nmergewrites ≠ 0 →
      g.EndsClean a.endedTrx) :
    Waits (dbeGtrsEndtrx cfg g a).1 (L.endtrx cfg g a) := by
  rw [dbeGtrsEndtrx, Ledger.endtrx]
  by_cases hact : a.endedTrx ∈ g.gtrsActivetrxlist
  · rw [if_neg (not_not.mpr hact), if_neg (not_not.mpr hact)]
    have hraise := endtrxMax_raises cfg g a
    have hmax : Waits (endtrxMax cfg g a) L :=
      h.congr hraise.levels_eq fun v _ => hraise.level_eq' v
    have hnodup' : (endtrxMax cfg g a).gtrsReadlevellist.Nodup := by
      rw [hraise.levels_eq]
      exact hnodup
    have hactive := hmax.removeactivetrx hnodup' fun hc hz =>
      (hclean hact hc hz).congr hraise.levels_eq hraise.level_eq'
    have hremove : Waits (endtrxRemove (endtrxMax cfg g a) a).1
        (if a.commitp ∧ a.iswrites then
          (L.removeactivetrx (endtrxMax cfg g a) a).releasemergewrites
            (gtrsRemoveactivetrx (endtrxMax cfg g a) a.endedTrx a.commitp a.iswrites
              a.nmergewrites).1 a.dbmergewrites a.mergelimit
            (gtrsRemoveactivetrx (endtrxMax cfg g a) a.endedTrx a.commitp a.iswrites
              a.nmergewrites).2
        else L.removeactivetrx (endtrxMax cfg g a) a) := by
      rw [endtrxRemove]
      split
      · refine hactive.releasemergewrites ?_ _ _ _
        rw [gtrsRemoveactivetrx]
        split
        · exact (gtrsRemovetrxreadlevel_list _ _ _ _) ▸ hnodup'.erase _
        · exact hnodup'
      · exact hactive
    simp only
    generalize endtrxRemove (endtrxMax cfg g a) a = r at hremove ⊢
    split
    · exact hremove.congr rfl fun _ _ => rfl
    · split
      · exact hremove.congr rfl fun _ _ => rfl
      · exact hremove.congr rfl fun _ _ => rfl
  · rw [if_pos hact, if_pos hact]
    exact h

/-! ## Runs -/

/-- A read level goes to the end of the list in order, and a committed transaction with
writes ends cleanly. -/
def GtrsOp.WritesOrdered (g : Gtrs) : GtrsOp → Prop
  | .addtrxreadlevel t => ∀ u ∈ g.gtrsReadlevellist, g.level u ≤ g.level t
  | .endtrx a => a.endedTrx ∈ g.gtrsActivetrxlist → a.commitp = true → a.nmergewrites ≠ 0 →
      g.EndsClean a.endedTrx
  | _ => True

inductive Mwsys.OrderedReachable (cfg : GtrsCfg) : Mwsys → Prop where
  | init (ctr : DbeCounter) (h : ctr.ctrMergetrxnum ≤ ctr.ctrMaxtrxnum) :
      Mwsys.OrderedReachable cfg (mwsysInit ctr)
  | step {s s' : Mwsys} {op : GtrsOp} (h : Mwsys.OrderedReachable cfg s)
      (hord : op.WritesOrdered s.gate) (hstep : s.step cfg op = some s') :
      Mwsys.OrderedReachable cfg s'

theorem Mwsys.OrderedReachable.reachable {s : Mwsys} (h : OrderedReachable cfg s) :
    Reachable cfg s := by
  induction h with
  | init ctr h => exact .init ctr h
  | step h hord hstep ih => exact ih.step hstep

theorem Mwsys.step_map {s s' : Mwsys} {op : GtrsOp} (h : s.step cfg op = some s')
    (hop : s.step cfg op = (s.gate.step cfg op).map fun g => { s with gate := g }) :
    ∃ g', s.gate.step cfg op = some g' ∧ { s with gate := g' } = s' :=
  Option.map_eq_some_iff.mp (hop.symm.trans h)

theorem Mwsys.gate_step {s s' : Mwsys} {op : GtrsOp} (h : s.step cfg op = some s') :
    s.gate.step cfg op = some s'.gate := by
  have hmap (hop : s.step cfg op = (s.gate.step cfg op).map fun g => { s with gate := g }) :
      s.gate.step cfg op = some s'.gate := by
    obtain ⟨g, hg, rfl⟩ := step_map h hop
    exact hg
  cases op with
  | endtrx a =>
      rw [Mwsys.step, Option.ite_none_right_eq_some] at h
      rw [← Option.some.inj h.2]
      rfl
  | releasereadlevels d m =>
      rw [← Option.some.inj h]
      rfl
  | begintrx => exact hmap rfl
  | getnewreadlevel t succp => exact hmap rfl
  | readmaxtrxnum t => exact hmap rfl
  | addtrxreadlevel t => exact hmap rfl
  | setcanremovereadlevel t canremove => exact hmap rfl
  | mtablecommit t => exact hmap rfl
  | beginvalidate t => exact hmap rfl

theorem Mwsys.Reachable.inv {s : Mwsys} (h : Reachable cfg s) : GtrsInv cfg s.gate := by
  induction h with
  | init ctr h => exact gtrsInv_dbeGtrsInit cfg h
  | step h hstep ih => exact ih.step (gate_step hstep)

/-- A level that comes to the list in order is not below the others. -/
def GtrsLast (g g' : Gtrs) : Prop :=
  ∀ t, g'.gtrsReadlevellist = g.gtrsReadlevellist ++ [t] →
    ∀ u ∈ g.gtrsReadlevellist, g.level u ≤ g'.level t

theorem gtrsLast_of_eq (h : g'.gtrsReadlevellist = g.gtrsReadlevellist) : GtrsLast g g' := by
  intro t ht
  have hlen := congrArg List.length (h.symm.trans ht)
  rw [List.length_append] at hlen
  exact absurd hlen (Nat.lt_succ_self _).ne

/-- What a call does to the gate: it ends a transaction, it releases read levels, or the
list can grow. -/
inductive MwsysStep (cfg : GtrsCfg) (s s' : Mwsys) : GtrsOp → Prop where
  | endtrx (a : EndtrxArgs) (ha : 0 ≤ a.nmergewrites)
      (heq : s' =
        { gate := (dbeGtrsEndtrx cfg s.gate a).1
          ledger := s.ledger.endtrx cfg s.gate a
          dbmergewrites := dbeDbAddmergewrites s.dbmergewrites (dbeGtrsEndtrx cfg s.gate a).2.1
          ended := if a.endedTrx ∈ s.gate.gtrsActivetrxlist then s.ended + a.nmergewrites
            else s.ended }) : MwsysStep cfg s s' (.endtrx a)
  | releasereadlevels (d m : ℤ)
      (heq : s' =
        { s with
          gate := gtrsReleasereadlevels s.gate d m
          ledger := s.ledger.releasemergewrites s.gate d m 0
          dbmergewrites := dbeDbAddmergewrites s.dbmergewrites
            (gtrsReleasemergewrites s.gate d m 0).2 }) : MwsysStep cfg s s' (.releasereadlevels d m)
  | grows {op : GtrsOp} {g' : Gtrs} (hg : GtrsGrows s.gate g')
      (hlast : op.WritesOrdered s.gate → GtrsLast s.gate g') (heq : s' = { s with gate := g' }) :
      MwsysStep cfg s s' op

theorem Mwsys.step_cases {s s' : Mwsys} {op : GtrsOp} (hi : GtrsInv cfg s.gate)
    (hzero : s.gate.writes (s.gate.gtrsCtr.ctrTrxid + 1) = 0) (h : s.step cfg op = some s') :
    MwsysStep cfg s s' op := by
  cases op with
  | endtrx a =>
      rw [Mwsys.step, Option.ite_none_right_eq_some] at h
      exact .endtrx a h.1 (Option.some.inj h.2).symm
  | releasereadlevels d m => exact .releasereadlevels d m (Option.some.inj h).symm
  | begintrx =>
      obtain ⟨g', hstep, rfl⟩ := step_map h rfl
      obtain rfl := Option.some.inj hstep
      refine .grows (gtrsGrows_trxInit hi hzero) (fun _ => gtrsLast_of_eq ?_) rfl
      rw [trxInit_eq]
  | getnewreadlevel t succp =>
      obtain ⟨g', hstep, rfl⟩ := step_map h rfl
      obtain ⟨⟨-, hnot, -⟩, rfl⟩ := guard_of_eq_some hstep
      refine .grows (gtrsGrows_getnewreadlevel hnot succp) (fun _ v hv u hu => ?_) rfl
      rw [dbeTrxGetnewreadlevel] at hv ⊢
      split
      next hs =>
        rw [if_pos hs] at hv
        obtain rfl := List.singleton_inj.mp (List.append_cancel_left hv)
        exact (hi.level_le u).trans_eq (level_trxReadmaxtrxnum s.gate t).symm
      next hs =>
        rw [if_neg hs] at hv
        have hlast : GtrsLast s.gate (trxReadmaxtrxnum s.gate t) := gtrsLast_of_eq rfl
        exact hlast v hv u hu
  | readmaxtrxnum t =>
      obtain ⟨g', hstep, rfl⟩ := step_map h rfl
      obtain ⟨⟨-, -, hnot, -⟩, rfl⟩ := guard_of_eq_some hstep
      exact .grows (gtrsGrows_readmaxtrxnum hnot) (fun _ => gtrsLast_of_eq rfl) rfl
  | addtrxreadlevel t =>
      obtain ⟨g', hstep, rfl⟩ := step_map h rfl
      obtain ⟨⟨-, -, hnot, -⟩, rfl⟩ := guard_of_eq_some hstep
      refine .grows (gtrsGrows_addtrxreadlevel hnot) (fun hord v hv u hu => ?_) rfl
      obtain rfl := List.singleton_inj.mp (List.append_cancel_left hv)
      exact hord u hu
  | setcanremovereadlevel t canremove =>
      obtain ⟨g', hstep, rfl⟩ := step_map h rfl
      obtain ⟨-, rfl⟩ := guard_of_eq_some hstep
      have hg : GtrsGrows s.gate (trxSetcanremovereadlevel s.gate t canremove) :=
        gtrsGrows_setTrxinfo fun _ => rfl
      exact .grows hg (fun _ => gtrsLast_of_eq rfl) rfl
  | mtablecommit t =>
      obtain ⟨g', hstep, rfl⟩ := step_map h rfl
      obtain ⟨⟨-, hnone⟩, rfl⟩ := guard_of_eq_some hstep
      exact .grows (gtrsGrows_mtablecommit hnone) (fun _ => gtrsLast_of_eq rfl) rfl
  | beginvalidate t =>
      obtain ⟨g', hstep, rfl⟩ := step_map h rfl
      obtain ⟨⟨-, hnone, -⟩, rfl⟩ := guard_of_eq_some hstep
      refine .grows (gtrsGrows_beginvalidate hnone) (fun _ => gtrsLast_of_eq ?_) rfl
      rw [trxBeginvalidate_eq]
      split
      · rfl
      · rfl

def Mwsys.Kept (s : Mwsys) : Prop := Books s.gate s.ledger 0 0 s.dbmergewrites s.ended

theorem Mwsys.Kept.writes_new {s : Mwsys} (h : s.Kept) (hi : GtrsInv cfg s.gate) :
    s.gate.writes (s.gate.gtrsCtr.ctrTrxid + 1) = 0 := by
  rw [h.held_eq, h.held_nil]
  · rfl
  · intro hmem
    exact ne_of_le_ctrTrxid (hi.active_le _ (hi.levels_active _ hmem)) rfl

theorem Mwsys.kept_init (ctr : DbeCounter) : (mwsysInit ctr).Kept where
  nodup := List.nodup_nil
  held_eq _ := rfl
  held_nil _ _ := rfl
  held_nonneg _ _ hp := absurd hp List.not_mem_nil
  released_nonneg _ hp := absurd hp List.not_mem_nil
  pending_eq := rfl
  released_eq := rfl
  nonneg := le_rfl
  ended_eq := rfl

theorem Mwsys.Kept.step {s s' : Mwsys} {op : GtrsOp} (h : s.Kept) (hi : GtrsInv cfg s.gate)
    (hstep : s.step cfg op = some s') : s'.Kept := by
  cases step_cases hi (h.writes_new hi) hstep with
  | endtrx a ha heq =>
      rw [heq]
      exact Books.endtrx h ha
  | releasereadlevels d m heq =>
      rw [heq]
      exact Books.releasereadlevels h d m
  | grows hg hlast heq =>
      rw [heq]
      exact Books.grows h hg

theorem Mwsys.Reachable.kept {s : Mwsys} (h : Reachable cfg s) : s.Kept := by
  induction h with
  | init ctr h => exact kept_init ctr
  | step h hstep ih => exact ih.step h.inv hstep

theorem Mwsys.Kept.toConserves {s : Mwsys} (h : s.Kept) : s.Conserves where
  pending_eq := by
    rw [h.pending_eq, add_zero, add_zero]
    rfl
  pending_nonneg := by
    rw [h.pending_eq, add_zero, add_zero]
    refine List.sum_nonneg fun x hx => ?_
    obtain ⟨t, -, rfl⟩ := List.mem_map.mp hx
    exact h.writes_nonneg t
  pending_empty hnil := by
    rw [h.pending_eq, add_zero, add_zero, Gtrs.listed, hnil]
    rfl
  total_eq := h.ended_eq
  held_eq := h.held_eq
  released_eq := by
    rw [h.released_eq, add_zero]

theorem Waits.grows (h : Waits g L) (hheld : ∀ t, t ∉ g.gtrsReadlevellist → L.held t = [])
    (hg : GtrsGrows g g') (hlast : GtrsLast g g') : Waits g' L := by
  rcases hg.list_eq with hlist | ⟨t, ht, hlist⟩
  · exact h.congr hlist hg.level_eq
  · have hasc : g'.Ascends := by
      rw [Gtrs.Ascends, hlist, List.pairwise_append]
      refine ⟨h.ascends.imp_of_mem fun hu hv hle => ?_, List.pairwise_singleton _ _,
        fun u hu v hv => ?_⟩
      · rw [hg.level_eq _ hu, hg.level_eq _ hv]
        exact hle
      · rw [List.mem_singleton.mp hv, hg.level_eq u hu]
        exact hlast t hlist u hu
    refine ⟨hasc, fun v hv p hp u hu => ?_, h.released⟩
    by_cases hmem : v ∈ g.gtrsReadlevellist
    · obtain ⟨humem, hplace⟩ := h.held v hmem p hp u hu
      rw [Gtrs.Precedes, hlist]
      refine ⟨List.mem_append_left _ humem, ?_⟩
      rcases hplace with hsub | heq | hlow
      · exact Or.inl (hsub.trans (List.sublist_append_left _ _))
      · exact Or.inr (Or.inl heq)
      · refine Or.inr (Or.inr fun w hw => ?_)
        rw [hg.level_eq u humem]
        rcases List.mem_append.mp hw with hw | hw
        · rw [hg.level_eq w hw]
          exact hlow w hw
        · rw [List.mem_singleton.mp hw]
          exact hlast t hlist u humem
    · rw [hheld v hmem] at hp
      exact absurd hp List.not_mem_nil

theorem Mwsys.OrderedReachable.waits {s : Mwsys} (h : OrderedReachable cfg s) :
    Waits s.gate s.ledger := by
  induction h with
  | init ctr h =>
      exact ⟨List.Pairwise.nil, fun t ht => absurd ht List.not_mem_nil,
        fun p hp => absurd hp List.not_mem_nil⟩
  | step h hord hstep ih =>
      have hi := h.reachable.inv
      have hkept := h.reachable.kept
      cases step_cases hi (hkept.writes_new hi) hstep with
      | endtrx a ha heq =>
          rw [heq]
          exact ih.endtrx hi.levels_nodup hord
      | releasereadlevels d m heq =>
          rw [heq]
          exact (ih.releasemergewrites hi.levels_nodup d m 0).congr rfl fun _ _ => rfl
      | grows hg hlast heq =>
          rw [heq]
          exact ih.grows hkept.held_nil hg (hlast hord)

/-- In every run the numbers of the gate are the writes that are not yet passed on. In
every run whose calls meet the condition, writes of a committed transaction are passed on
only when no transaction that held an older or equal read level at its end still holds it. -/
theorem mergewrites_conserved (cfg : GtrsCfg) (s : Mwsys) :
    (s.Reachable cfg → s.Conserves) ∧ (s.OrderedReachable cfg → s.Conserves ∧ s.Clean) :=
  ⟨fun h => h.kept.toConserves, fun h => ⟨h.reachable.kept.toConserves, h.waits.released⟩⟩

def Mwsys.run (cfg : GtrsCfg) : Mwsys → List GtrsOp → Option Mwsys
  | s, [] => some s
  | s, op :: ops => (s.step cfg op).bind fun s' => Mwsys.run cfg s' ops

theorem Mwsys.Reachable.run {s s' : Mwsys} {ops : List GtrsOp} (h : Reachable cfg s)
    (hrun : s.run cfg ops = some s') : Reachable cfg s' := by
  induction ops generalizing s with
  | nil =>
      obtain rfl := Option.some.inj hrun
      exact h
  | cons op ops ih =>
      obtain ⟨s₁, hstep, hrest⟩ := Option.bind_eq_some_iff.mp hrun
      exact ih (h.step hstep) hrest

instance (g : Gtrs) (t : ℕ) : Decidable (g.EndsClean t) :=
  inferInstanceAs (Decidable ((_ → _) ∧ (_ → _)))

instance (g : Gtrs) : (op : GtrsOp) → Decidable (op.WritesOrdered g)
  | .begintrx => .isTrue trivial
  | .getnewreadlevel _ _ => .isTrue trivial
  | .readmaxtrxnum _ => .isTrue trivial
  | .addtrxreadlevel t =>
    inferInstanceAs (Decidable (∀ u ∈ g.gtrsReadlevellist, g.level u ≤ g.level t))
  | .setcanremovereadlevel _ _ => .isTrue trivial
  | .mtablecommit _ => .isTrue trivial
  | .beginvalidate _ => .isTrue trivial
  | .endtrx a => inferInstanceAs (Decidable (a.endedTrx ∈ g.gtrsActivetrxlist → a.commitp = true →
      a.nmergewrites ≠ 0 → g.EndsClean a.endedTrx))
  | .releasereadlevels _ _ => .isTrue trivial

def Mwsys.orderedRun (cfg : GtrsCfg) : Mwsys → List GtrsOp → Option Mwsys
  | s, [] => some s
  | s, op :: ops =>
    if op.WritesOrdered s.gate then (s.step cfg op).bind fun s' => Mwsys.orderedRun cfg s' ops
    else none

theorem Mwsys.OrderedReachable.orderedRun {s s' : Mwsys} {ops : List GtrsOp}
    (h : OrderedReachable cfg s) (hrun : s.orderedRun cfg ops = some s') :
    OrderedReachable cfg s' := by
  induction ops generalizing s with
  | nil =>
      obtain rfl := Option.some.inj hrun
      exact h
  | cons op ops ih =>
      rw [Mwsys.orderedRun, Option.ite_none_right_eq_some] at hrun
      obtain ⟨s₁, hstep, hrest⟩ := Option.bind_eq_some_iff.mp hrun.2
      exact ih (h.step hrun.1 hstep) hrest

def commitArgs (t : ℕ) (nmergewrites : ℤ) : EndtrxArgs :=
  ⟨t, true, true, nmergewrites, true, 0, 100⟩

/-- The writes of 2 wait at the older reader 1, then at 3, which reads at the same level, and
the commit of 3 releases them with its own. Those of 5 still wait at 4. -/
theorem mergewrites_conserved_commit :
    ∃ s : Mwsys, s.Conserves ∧ s.Clean ∧ s.dbmergewrites = 7 ∧
      s.gate.gtrsPendingmergewrites = 2 ∧ s.gate.gtrsReadlevellist = [4] := by
  have hrun := @Mwsys.OrderedReachable.orderedRun ⟨false, true, false⟩ _ _
    [.begintrx, .getnewreadlevel 1 true, .begintrx, .getnewreadlevel 2 true, .beginvalidate 2,
      .begintrx, .getnewreadlevel 3 true, .endtrx (commitArgs 2 3),
      .endtrx ⟨1, false, false, 0, true, 0, 100⟩, .beginvalidate 3, .endtrx (commitArgs 3 4),
      .begintrx, .getnewreadlevel 4 true, .begintrx, .getnewreadlevel 5 true, .beginvalidate 5,
      .endtrx (commitArgs 5 2)]
    (.init dbeCounterInit (by decide)) rfl
  have h := (mergewrites_conserved ⟨false, true, false⟩ _).2 hrun
  exact ⟨_, h.1, h.2, rfl, rfl, rfl⟩

/-- The reader 5 has the level of the writer 4. The end of the older reader 1 releases the
writes of 4 while 5 still holds its level. -/
theorem not_mergewrites_clean :
    ¬ ∀ (cfg : GtrsCfg) (s : Mwsys), s.Reachable cfg → s.Conserves ∧ s.Clean := by
  intro h
  have hrun : ((mwsysInit dbeCounterInit).run ⟨false, true, false⟩
      [.begintrx, .getnewreadlevel 1 true, .begintrx, .getnewreadlevel 2 true, .beginvalidate 2,
        .endtrx (commitArgs 2 0), .begintrx, .getnewreadlevel 3 true, .beginvalidate 3,
        .endtrx (commitArgs 3 0), .begintrx, .begintrx, .getnewreadlevel 4 true,
        .getnewreadlevel 5 true, .beginvalidate 4, .endtrx (commitArgs 4 5),
        .endtrx ⟨1, false, false, 0, true, 0, 100⟩]).map
      (fun s => s.ledger.released.map Portion.older) = some [[5]] := by
    decide +kernel
  obtain ⟨s, hs, holder⟩ := Option.map_eq_some_iff.mp hrun
  have hreach := Mwsys.Reachable.run (.init dbeCounterInit (by decide)) hs
  cases hreleased : s.ledger.released with
  | nil =>
      rw [hreleased] at holder
      exact List.cons_ne_nil _ _ holder.symm
  | cons p ps =>
      have hclean := (h _ s hreach).2 p (hreleased ▸ List.mem_cons_self)
      rw [hreleased, List.map_cons, hclean] at holder
      exact List.cons_ne_nil _ _ (List.cons.inj holder).1.symm

end SolidDB
