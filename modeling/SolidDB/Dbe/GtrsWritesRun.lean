import SolidDB.Dbe.GtrsWrites

/-!
# Merge writes over runs

Every call keeps the books. The portions of committed transactions wait at a transaction
that stands behind the older readers they wait for, as long as read levels are put into
the list in order and no committed transaction ends between an older level and one equal
to its own.
-/

namespace SolidDB

open Gtrs

variable {cfg : GtrsCfg} {g g' : Gtrs} {L : Ledger} {t u : ℕ} {n own db ended : ℤ}

/-! ## The books of a call -/

theorem Books.congr (h : Books g L n own db ended)
    (hlist : g'.gtrsReadlevellist = g.gtrsReadlevellist) (hwrites : g'.writes = g.writes)
    (hpending : g'.gtrsPendingmergewrites = g.gtrsPendingmergewrites) :
    Books g' L n own db ended where
  nodup := by
    rw [hlist]
    exact h.nodup
  held_eq t := by
    rw [hwrites]
    exact h.held_eq t
  held_nil t ht := by
    rw [hlist] at ht
    exact h.held_nil t ht
  held_nonneg := h.held_nonneg
  released_nonneg := h.released_nonneg
  pending_eq := by
    rw [hpending, Gtrs.listed, hlist, hwrites]
    exact h.pending_eq
  released_eq := h.released_eq
  nonneg := h.nonneg
  ended_eq := by
    rw [hpending]
    exact h.ended_eq

theorem Books.pend (h : Books g L n 0 db ended)
    (hlist : g'.gtrsReadlevellist = g.gtrsReadlevellist) (hwrites : g'.writes = g.writes)
    (hpending : g'.gtrsPendingmergewrites = g.gtrsPendingmergewrites + own) :
    Books g' L n own db (ended + own) where
  nodup := by
    rw [hlist]
    exact h.nodup
  held_eq t := by
    rw [hwrites]
    exact h.held_eq t
  held_nil t ht := by
    rw [hlist] at ht
    exact h.held_nil t ht
  held_nonneg := h.held_nonneg
  released_nonneg := h.released_nonneg
  pending_eq := by
    rw [hpending, Gtrs.listed, hlist, hwrites, h.pending_eq, add_zero]
    rfl
  released_eq := h.released_eq
  nonneg := h.nonneg
  ended_eq := by
    rw [hpending, ← h.ended_eq, add_assoc]

theorem Books.release {ps : List Portion} (h : Books g L n (totalWrites ps) db ended)
    (hps : ∀ p ∈ ps, 0 ≤ p.writes) :
    Books g (L.release ps) (n + totalWrites ps) 0 db ended where
  nodup := h.nodup
  held_eq := h.held_eq
  held_nil := h.held_nil
  held_nonneg := h.held_nonneg
  released_nonneg p hp := by
    rcases List.mem_append.mp hp with hp | hp
    · exact h.released_nonneg p hp
    · exact hps p hp
  pending_eq := by
    rw [h.pending_eq, add_zero, add_assoc]
  released_eq := by
    rw [Ledger.release, totalWrites_append, h.released_eq, add_assoc]
  nonneg := add_nonneg h.nonneg (totalWrites_nonneg hps)
  ended_eq := h.ended_eq

/-- The writes in the hands of the call go to the database object. -/
theorem Books.pass (h : Books g L n 0 db ended)
    (hlist : g'.gtrsReadlevellist = g.gtrsReadlevellist) (hwrites : g'.writes = g.writes)
    (hpending : g'.gtrsPendingmergewrites = g.gtrsPendingmergewrites - n) :
    Books g' L 0 0 (dbeDbAddmergewrites db n) ended := by
  have hadd : dbeDbAddmergewrites db n = db + n := by
    rw [dbeDbAddmergewrites]
    split
    · rfl
    next hn => rw [le_antisymm (not_lt.mp hn) h.nonneg, add_zero]
  rw [hadd]
  refine ⟨?_, fun v => ?_, fun v hv => ?_, h.held_nonneg, h.released_nonneg, ?_, ?_, le_rfl, ?_⟩
  · rw [hlist]
    exact h.nodup
  · rw [hwrites]
    exact h.held_eq v
  · rw [hlist] at hv
    exact h.held_nil v hv
  · rw [hpending, h.pending_eq, Gtrs.listed, Gtrs.listed, hlist, hwrites]
    ring
  · rw [h.released_eq, add_zero]
  · rw [hpending, ← h.ended_eq]
    ring

theorem Books.insert (h : Books g L n own db ended) (ht : t ∉ g.gtrsReadlevellist)
    (hlist : g'.gtrsReadlevellist = g.gtrsReadlevellist ++ [t]) (hwrites : g'.writes = g.writes)
    (hpending : g'.gtrsPendingmergewrites = g.gtrsPendingmergewrites) :
    Books g' L n own db ended where
  nodup := by
    rw [hlist]
    refine List.nodup_append.mpr ⟨h.nodup, List.nodup_singleton t, fun a ha b hb hab => ?_⟩
    rw [List.mem_singleton.mp hb] at hab
    exact ht (hab ▸ ha)
  held_eq t := by
    rw [hwrites]
    exact h.held_eq t
  held_nil v hv := by
    rw [hlist] at hv
    exact h.held_nil v fun hmem => hv (List.mem_append_left _ hmem)
  held_nonneg := h.held_nonneg
  released_nonneg := h.released_nonneg
  pending_eq := by
    have hzero : g.writes t = 0 := by
      rw [h.held_eq t, h.held_nil t ht]
      rfl
    rw [hpending, Gtrs.listed, hlist, hwrites, List.map_append, List.sum_append, List.map_singleton,
      List.sum_singleton, hzero, add_zero]
    exact h.pending_eq
  released_eq := h.released_eq
  nonneg := h.nonneg
  ended_eq := by
    rw [hpending]
    exact h.ended_eq

/-- The end of a committed transaction takes its own writes along. -/
theorem Books.remove_commit {own : List Portion} (h : Books g L n (totalWrites own) db ended)
    (ht : t ∈ g.gtrsReadlevellist) (hown : ∀ p ∈ own, 0 ≤ p.writes) :
    Books (gtrsRemovetrxreadlevel g t true (totalWrites own)).1 (L.removetrxreadlevel g t own)
      (n + (gtrsRemovetrxreadlevel g t true (totalWrites own)).2) 0 db ended := by
  have hremove := h.remove ht hown (if_pos (rfl : true = true))
  rw [if_pos rfl, sub_zero] at hremove
  exact hremove

theorem Books.remove_abort (h : Books g L n 0 db ended) (ht : t ∈ g.gtrsReadlevellist) (m : ℤ) :
    Books (gtrsRemovetrxreadlevel g t false m).1 (L.removetrxreadlevel g t [])
      (n + ((gtrsRemovetrxreadlevel g t false m).2 - m)) 0 db ended := by
  have hnil : (if false = true then m else 0) = totalWrites [] := rfl
  have hremove := Books.remove h ht (fun p hp => absurd hp List.not_mem_nil) hnil
  rw [if_neg Bool.false_ne_true] at hremove
  exact hremove

theorem Books.releaseLoop {fuel : ℕ} {prev : Option ℕ} (h : Books g L n 0 db ended) :
    Books (releaseLoop fuel g prev n).1 (L.releaseLoop fuel g prev)
      (SolidDB.releaseLoop fuel g prev n).2 0 db ended := by
  induction fuel generalizing g L prev n with
  | zero => exact h
  | succ fuel ih =>
      rw [SolidDB.releaseLoop, Ledger.releaseLoop]
      cases hhead : g.gtrsReadlevellist.head? with
      | none => exact h
      | some t =>
          simp only
          split
          · exact h
          · split
            · exact h
            · have hremove := h.remove_abort (List.mem_of_mem_head? hhead) 0
              rw [sub_zero] at hremove
              exact ih hremove

theorem Books.releasemergewrites (h : Books g L n 0 db ended) (dbmergewrites mergelimit : ℤ) :
    Books (gtrsReleasemergewrites g dbmergewrites mergelimit n).1
      (L.releasemergewrites g dbmergewrites mergelimit n)
      (gtrsReleasemergewrites g dbmergewrites mergelimit n).2 0 db ended := by
  rw [gtrsReleasemergewrites, Ledger.releasemergewrites]
  split
  · exact h.releaseLoop
  · exact h

theorem totalWrites_ownPortion (g : Gtrs) (a : EndtrxArgs) :
    totalWrites (ownPortion g a) = a.nmergewrites := by
  rw [ownPortion]
  split
  next hz => exact hz.symm
  next => exact add_zero _

theorem ownPortion_nonneg {a : EndtrxArgs} (ha : 0 ≤ a.nmergewrites) (g : Gtrs) :
    ∀ p ∈ ownPortion g a, 0 ≤ p.writes := by
  intro p hp
  rw [ownPortion] at hp
  split at hp
  · exact absurd hp List.not_mem_nil
  · rw [List.mem_singleton.mp hp]
    exact ha

theorem writes_setIswrites (g : Gtrs) (t : ℕ) (b : Bool) :
    (g.setAt t { g.gtrsAt t with atIswrites := b }).writes = g.writes := by
  funext v
  rw [Gtrs.writes, Gtrs.writes]
  by_cases hv : v = t
  · rw [hv, gtrsAt_setAt_self]
  · rw [gtrsAt_setAt_of_ne g hv]

theorem Books.removeactivetrx {a : EndtrxArgs} (h : Books g L 0 a.nmergewrites db ended)
    (ha : 0 ≤ a.nmergewrites) :
    Books (gtrsRemoveactivetrx g a.endedTrx a.commitp a.iswrites a.nmergewrites).1
      (L.removeactivetrx g a)
      (gtrsRemoveactivetrx g a.endedTrx a.commitp a.iswrites a.nmergewrites).2 0 db ended := by
  have hown := ownPortion_nonneg ha g
  rw [← totalWrites_ownPortion g a] at h
  have hset : Books (g.setAt a.endedTrx { g.gtrsAt a.endedTrx with atIswrites := a.iswrites }) L 0
      (totalWrites (ownPortion g a)) db ended :=
    h.congr rfl (writes_setIswrites g _ _) rfl
  rw [gtrsRemoveactivetrx, Ledger.removeactivetrx]
  by_cases hmem : a.endedTrx ∈ g.gtrsReadlevellist
  · simp only [hmem, if_true]
    cases hcommit : a.commitp with
    | true =>
        have hremove := hset.remove_commit hmem hown
        rw [totalWrites_ownPortion, zero_add] at hremove
        exact hremove.congr rfl rfl rfl
    | false =>
        have hremove := (hset.release hown).remove_abort hmem a.nmergewrites
        rw [totalWrites_ownPortion, zero_add, add_sub_cancel] at hremove
        exact hremove.congr rfl rfl rfl
  · simp only [hmem, if_false]
    have hrelease := hset.release hown
    rw [totalWrites_ownPortion, zero_add] at hrelease
    exact hrelease.congr rfl rfl rfl

theorem pending_endtrxSettrxinfo (cfg : GtrsCfg) (g : Gtrs) (a : EndtrxArgs) :
    (endtrxSettrxinfo cfg g a).gtrsPendingmergewrites = g.gtrsPendingmergewrites := by
  simp only [endtrxSettrxinfo]
  split
  · rfl
  · split
    · rfl
    · split
      · rfl
      · rfl

theorem pending_endtrxMax (cfg : GtrsCfg) (g : Gtrs) (a : EndtrxArgs) :
    (endtrxMax cfg g a).gtrsPendingmergewrites =
      g.gtrsPendingmergewrites + a.nmergewrites := by
  have hset := pending_endtrxSettrxinfo cfg
    { g with gtrsPendingmergewrites := g.gtrsPendingmergewrites + a.nmergewrites } a
  simp only [endtrxMax]
  generalize endtrxSettrxinfo cfg
    { g with gtrsPendingmergewrites := g.gtrsPendingmergewrites + a.nmergewrites } a = g₁
    at hset ⊢
  obtain ⟨m, heq, -⟩ := endtrxSetmaxtrxnum_eq
    { g₁ with gtrsValidatetrxlist :=
      (endtrxValidatelist g₁ a.endedTrx g₁.gtrsValidatetrxlist 0).1 } a
    (endtrxValidatelist g₁ a.endedTrx g₁.gtrsValidatetrxlist 0).2
  rw [heq]
  exact hset

theorem writes_endtrxMax (cfg : GtrsCfg) (g : Gtrs) (a : EndtrxArgs) :
    (endtrxMax cfg g a).writes = g.writes := by
  funext v
  rw [Gtrs.writes, Gtrs.writes, (endtrxMax_raises cfg g a).at_eq]

theorem Books.endtrxMax {a : EndtrxArgs} (h : Books g L 0 0 db ended) :
    Books (endtrxMax cfg g a) L 0 a.nmergewrites db (ended + a.nmergewrites) :=
  h.pend (endtrxMax_raises cfg g a).levels_eq (writes_endtrxMax cfg g a)
    (pending_endtrxMax cfg g a)

theorem Books.endtrx {a : EndtrxArgs} (h : Books g L 0 0 db ended) (ha : 0 ≤ a.nmergewrites) :
    Books (dbeGtrsEndtrx cfg g a).1 (L.endtrx cfg g a) 0 0
      (dbeDbAddmergewrites db (dbeGtrsEndtrx cfg g a).2.1)
      (if a.endedTrx ∈ g.gtrsActivetrxlist then ended + a.nmergewrites else ended) := by
  rw [dbeGtrsEndtrx, Ledger.endtrx]
  by_cases hact : a.endedTrx ∈ g.gtrsActivetrxlist
  · rw [if_neg (not_not.mpr hact), if_neg (not_not.mpr hact), if_pos hact]
    have hremove : Books (endtrxRemove (SolidDB.endtrxMax cfg g a) a).1
        (if a.commitp ∧ a.iswrites then
          (L.removeactivetrx (SolidDB.endtrxMax cfg g a) a).releasemergewrites
            (gtrsRemoveactivetrx (SolidDB.endtrxMax cfg g a) a.endedTrx a.commitp a.iswrites
              a.nmergewrites).1 a.dbmergewrites a.mergelimit
            (gtrsRemoveactivetrx (SolidDB.endtrxMax cfg g a) a.endedTrx a.commitp a.iswrites
              a.nmergewrites).2
        else L.removeactivetrx (SolidDB.endtrxMax cfg g a) a)
        (endtrxRemove (SolidDB.endtrxMax cfg g a) a).2 0 db (ended + a.nmergewrites) := by
      have hmax : Books (SolidDB.endtrxMax cfg g a) L 0 a.nmergewrites db
          (ended + a.nmergewrites) := h.endtrxMax
      have hactive := hmax.removeactivetrx ha
      rw [endtrxRemove]
      split
      · exact hactive.releasemergewrites _ _
      · exact hactive
    simp only
    generalize endtrxRemove (SolidDB.endtrxMax cfg g a) a = r at hremove ⊢
    split
    · exact hremove.pass rfl rfl rfl
    · split
      · exact hremove.pass rfl rfl rfl
      · exact hremove.pass rfl rfl rfl
  · rw [if_pos hact, if_pos hact, if_neg hact]
    exact h.pass rfl rfl (sub_zero _).symm

theorem Books.releasereadlevels (h : Books g L 0 0 db ended) (dbmergewrites mergelimit : ℤ) :
    Books (gtrsReleasereadlevels g dbmergewrites mergelimit)
      (L.releasemergewrites g dbmergewrites mergelimit 0) 0 0
      (dbeDbAddmergewrites db (gtrsReleasemergewrites g dbmergewrites mergelimit 0).2) ended :=
  (h.releasemergewrites dbmergewrites mergelimit).pass rfl rfl rfl

/-! ## The other calls -/

/-- What a call that ends no transaction and releases no level does to the list. -/
structure GtrsGrows (g g' : Gtrs) : Prop where
  writes_eq : g'.writes = g.writes
  pending_eq : g'.gtrsPendingmergewrites = g.gtrsPendingmergewrites
  level_eq : ∀ v ∈ g.gtrsReadlevellist, g'.level v = g.level v
  list_eq : g'.gtrsReadlevellist = g.gtrsReadlevellist ∨
    ∃ t, t ∉ g.gtrsReadlevellist ∧ g'.gtrsReadlevellist = g.gtrsReadlevellist ++ [t]

theorem Books.grows (h : Books g L n own db ended) (hg : GtrsGrows g g') :
    Books g' L n own db ended := by
  rcases hg.list_eq with hlist | ⟨t, ht, hlist⟩
  · exact h.congr hlist hg.writes_eq hg.pending_eq
  · exact h.insert ht hlist hg.writes_eq hg.pending_eq

theorem gtrsGrows_trxInit (hi : GtrsInv cfg g)
    (hzero : g.writes (g.gtrsCtr.ctrTrxid + 1) = 0) : GtrsGrows g (trxInit g) := by
  refine ⟨?_, ?_, fun v hv => ?_, Or.inl ?_⟩
  · funext v
    by_cases hv : v = g.gtrsCtr.ctrTrxid + 1
    · rw [hv, hzero, Gtrs.writes, trxInit_eq]
      simp
    · rw [Gtrs.writes, gtrsAt_trxInit_of_ne g hv]
      rfl
  · rw [trxInit_eq]
  · have hne := ne_of_le_ctrTrxid (hi.active_le v (hi.levels_active v hv))
    rw [level, gtrsTrxinfo_trxInit_of_ne g hne, level]
  · rw [trxInit_eq]

theorem gtrsGrows_setTrxinfo {ti : Trxinfo} {b : ℕ → Bool}
    (hlevel : t ∈ g.gtrsReadlevellist → ti.tiMaxtrxnum = g.level t) :
    GtrsGrows g { g.setTrxinfo t ti with gtrsUsereadlevel := b } :=
  ⟨rfl, rfl, fun _ hv => level_setTrxinfo hlevel hv, Or.inl rfl⟩

theorem gtrsGrows_readmaxtrxnum (ht : t ∉ g.gtrsReadlevellist) :
    GtrsGrows g (trxReadmaxtrxnum g t) :=
  gtrsGrows_setTrxinfo fun hmem => absurd hmem ht

theorem gtrsGrows_addtrxreadlevel (ht : t ∉ g.gtrsReadlevellist) :
    GtrsGrows g (dbeGtrsAddtrxreadlevelNomutex g t) :=
  ⟨rfl, rfl, fun _ _ => rfl, Or.inr ⟨t, ht, rfl⟩⟩

theorem gtrsGrows_getnewreadlevel (ht : t ∉ g.gtrsReadlevellist) (succp : Bool) :
    GtrsGrows g (dbeTrxGetnewreadlevel g t succp) := by
  have hread := gtrsGrows_readmaxtrxnum ht
  rw [dbeTrxGetnewreadlevel]
  split
  · exact ⟨hread.writes_eq, hread.pending_eq, hread.level_eq, Or.inr ⟨t, ht, rfl⟩⟩
  · exact hread

theorem gtrsGrows_beginvalidate (hnone : g.committrxnum t = 0) :
    GtrsGrows g (trxBeginvalidate cfg g t) := by
  have hs := @beginvalidateNumber_sets cfg g t hnone
  have hwrites : (beginvalidateNumber cfg g t).writes = g.writes := by
    funext v
    rw [Gtrs.writes, hs.at_eq]
    rfl
  rw [trxBeginvalidate_eq]
  split
  · refine ⟨?_, rfl, fun v _ => hs.level_eq' v, Or.inl hs.levels_eq⟩
    rw [← hwrites]
    funext v
    by_cases hv : v = t
    · rw [hv, Gtrs.writes, dbeGtrsBegintrxvalidate]
      simp only [gtrsAt_setAt_self]
      rfl
    · rw [Gtrs.writes, dbeGtrsBegintrxvalidate]
      simp only [gtrsAt_setAt_of_ne _ hv]
      rfl
  · exact ⟨hwrites, rfl, fun v _ => hs.level_eq' v, Or.inl hs.levels_eq⟩

theorem gtrsGrows_mtablecommit (hnone : g.committrxnum t = 0) :
    GtrsGrows g (trxMtablecommit cfg g t) := by
  have hs := @trxMtablecommit_sets cfg g t hnone
  exact ⟨rfl, rfl, fun v _ => hs.level_eq' v, Or.inl rfl⟩

end SolidDB
