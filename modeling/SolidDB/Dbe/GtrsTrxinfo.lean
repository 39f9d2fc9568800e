import SolidDB.Dbe.GtrsStable

/-!
# What a call of the gate does to a transaction

The state, the commit number, the M-table flag and the user id of a transaction change
only while it is active, and it ends in the call that takes it off the active list.
-/

namespace SolidDB

open Gtrs

variable {cfg : GtrsCfg} {g g' : Gtrs} {t u : ℕ} {op : GtrsOp}

/-- Two infos are alike but for the read level and the flag that it may be released. -/
structure Trxinfo.SameFate (ti ti' : Trxinfo) : Prop where
  state_eq : ti'.tiState = ti.tiState
  number_eq : ti'.tiCommittrxnum = ti.tiCommittrxnum
  mtable_eq : ti'.tiMtabletrx = ti.tiMtabletrx
  user_eq : ti'.tiUsertrxid = ti.tiUsertrxid

namespace Trxinfo.SameFate

theorem refl (ti : Trxinfo) : ti.SameFate ti := ⟨rfl, rfl, rfl, rfl⟩

theorem of_eq {ti ti' : Trxinfo} (h : ti' = ti) : ti.SameFate ti' := by
  rw [h]
  exact refl ti

theorem isended_eq {ti ti' : Trxinfo} (h : ti.SameFate ti') : ti'.isended = ti.isended := by
  rw [isended, isended, h.state_eq]

end Trxinfo.SameFate

theorem ReleasesLevels.sameFate (h : ReleasesLevels g g') (u : ℕ) :
    (g.gtrsTrxinfo u).SameFate (g'.gtrsTrxinfo u) := by
  rcases h.info u with heq | heq
  · exact Trxinfo.SameFate.of_eq heq
  · rw [heq]
    exact ⟨rfl, rfl, rfl, rfl⟩

theorem sameFate_setTrxinfo (ti : Trxinfo) (h : (g.gtrsTrxinfo t).SameFate ti) (u : ℕ) :
    (g.gtrsTrxinfo u).SameFate ((g.setTrxinfo t ti).gtrsTrxinfo u) := by
  by_cases hu : u = t
  · rw [hu, gtrsTrxinfo_setTrxinfo_self]
    exact h
  · rw [gtrsTrxinfo_setTrxinfo_of_ne g hu]
    exact Trxinfo.SameFate.refl _

theorem gtrsTrxinfo_endtrxMax (cfg : GtrsCfg) (g : Gtrs) (a : EndtrxArgs) :
    (endtrxMax cfg g a).gtrsTrxinfo = (endtrxSettrxinfo cfg { g with
      gtrsPendingmergewrites := g.gtrsPendingmergewrites + a.nmergewrites } a).gtrsTrxinfo := by
  simp only [endtrxMax]
  obtain ⟨m, heq, -⟩ := endtrxSetmaxtrxnum_eq _ a _
  rw [heq]
  rfl

/-- Apart from read levels the infos are those that `endtrxSettrxinfo` leaves, and the
transaction is off the active list. -/
theorem dbeGtrsEndtrx_fate (hi : GtrsInv cfg g) (a : EndtrxArgs)
    (ht : a.endedTrx ∈ g.gtrsActivetrxlist) :
    (∀ u, ((endtrxSettrxinfo cfg { g with
        gtrsPendingmergewrites := g.gtrsPendingmergewrites + a.nmergewrites } a).gtrsTrxinfo
        u).SameFate ((dbeGtrsEndtrx cfg g a).1.gtrsTrxinfo u)) ∧
      (dbeGtrsEndtrx cfg g a).1.gtrsActivetrxlist = g.gtrsActivetrxlist.erase a.endedTrx := by
  have hraise := endtrxMax_raises cfg g a
  rw [← gtrsTrxinfo_endtrxMax, dbeGtrsEndtrx, if_neg (not_not.mpr ht)]
  generalize endtrxMax cfg g a = g₁ at hraise ⊢
  have hrel : ReleasesLevels (g₁.drop a.endedTrx) (endtrxRemove g₁ a).1 := by
    apply endtrxRemove_releases
    rw [hraise.levels_eq]
    exact hi.levels_nodup
  have hactive : (endtrxRemove g₁ a).1.gtrsActivetrxlist =
      g.gtrsActivetrxlist.erase a.endedTrx := by
    rw [hrel.active_eq, ← hraise.active_eq]
    rfl
  generalize endtrxRemove g₁ a = r at hrel hactive ⊢
  simp only []
  split
  · exact ⟨fun u => hrel.sameFate u, hactive⟩
  · split
    · exact ⟨fun u => hrel.sameFate u, hactive⟩
    · exact ⟨fun u => hrel.sameFate u, hactive⟩

inductive TrxinfoStep (op : GtrsOp) (g g' : Gtrs) (u : ℕ) : Prop where
  | kept (h : (g.gtrsTrxinfo u).SameFate (g'.gtrsTrxinfo u))
  | opened (hact : u ∈ g.gtrsActivetrxlist) (hopen : g'.isended u = false)
      (huser : (g'.gtrsTrxinfo u).tiUsertrxid = (g.gtrsTrxinfo u).tiUsertrxid)
  | committed (a : EndtrxArgs) (hop : op = .endtrx a) (ha : a.endedTrx = u)
      (hcommitp : a.commitp = true) (hact : u ∈ g.gtrsActivetrxlist)
      (h : ((g.gtrsTrxinfo u).setState .commit).SameFate (g'.gtrsTrxinfo u))
  | aborted (hact : u ∈ g.gtrsActivetrxlist) (hstate : (g'.gtrsTrxinfo u).tiState = .abort)
      (hmtable : (g'.gtrsTrxinfo u).tiMtabletrx = false)
      (huser : (g'.gtrsTrxinfo u).tiUsertrxid = (g.gtrsTrxinfo u).tiUsertrxid)

/-- The state, the number and the flags that `endtrxSettrxinfo` gives to a transaction. -/
theorem endtrxSettrxinfo_cases (cfg : GtrsCfg) (g : Gtrs) (a : EndtrxArgs) (u : ℕ) :
    (endtrxSettrxinfo cfg g a).gtrsTrxinfo u = g.gtrsTrxinfo u ∨ a.endedTrx = u ∧
      (a.commitp = true ∧ (endtrxSettrxinfo cfg g a).gtrsTrxinfo u =
          (g.gtrsTrxinfo u).setState .commit ∨
        ∃ n, (endtrxSettrxinfo cfg g a).gtrsTrxinfo u =
          { g.gtrsTrxinfo u with tiCommittrxnum := n }.setState .abort) := by
  by_cases hu : u = a.endedTrx
  · subst hu
    simp only [endtrxSettrxinfo]
    split
    · exact Or.inl rfl
    · split
      · rename_i hcommitp
        exact Or.inr ⟨trivial, Or.inl ⟨hcommitp, gtrsTrxinfo_setTrxinfo_self g _ _⟩⟩
      · split
        · exact Or.inr ⟨trivial, Or.inr ⟨_, gtrsTrxinfo_setTrxinfo_self g _ _⟩⟩
        · exact Or.inr ⟨trivial, Or.inr ⟨_, gtrsTrxinfo_setTrxinfo_self g _ _⟩⟩
  · exact Or.inl ((endtrxSettrxinfo_sets cfg g a).info_eq u hu)

theorem TrxinfoStep.endtrx (hi : GtrsInv cfg g) (a : EndtrxArgs) (u : ℕ) :
    TrxinfoStep (.endtrx a) g (dbeGtrsEndtrx cfg g a).1 u := by
  by_cases ht : a.endedTrx ∈ g.gtrsActivetrxlist
  · have hfate := (dbeGtrsEndtrx_fate hi a ht).1 u
    rcases endtrxSettrxinfo_cases cfg { g with
      gtrsPendingmergewrites := g.gtrsPendingmergewrites + a.nmergewrites } a u with
      heq | ⟨ha, ⟨hcommitp, heq⟩ | ⟨n, heq⟩⟩
    · rw [heq] at hfate
      exact TrxinfoStep.kept hfate
    · rw [heq] at hfate
      exact TrxinfoStep.committed a rfl ha hcommitp (ha ▸ ht) hfate
    · rw [heq] at hfate
      exact TrxinfoStep.aborted (ha ▸ ht) hfate.state_eq hfate.mtable_eq hfate.user_eq
  · rw [dbeGtrsEndtrx, if_pos ht]
    exact TrxinfoStep.kept (Trxinfo.SameFate.refl _)

theorem TrxinfoStep.setTrxinfo (ti : Trxinfo) (ctr : DbeCounter)
    (hact : t ∈ g.gtrsActivetrxlist) (hopen : ti.isended = false)
    (huser : ti.tiUsertrxid = (g.gtrsTrxinfo t).tiUsertrxid) (u : ℕ) :
    TrxinfoStep op g ((g.setTrxinfo t ti).setCtr ctr) u := by
  by_cases hu : u = t
  · subst hu
    have hself : ((g.setTrxinfo u ti).setCtr ctr).gtrsTrxinfo u = ti :=
      gtrsTrxinfo_setTrxinfo_self g u ti
    apply TrxinfoStep.opened hact
    · rw [Gtrs.isended, hself]
      exact hopen
    · rw [hself]
      exact huser
  · exact TrxinfoStep.kept (Trxinfo.SameFate.of_eq (gtrsTrxinfo_setTrxinfo_of_ne g hu ti))

theorem TrxinfoStep.of_trxinfo_eq {g₁ : Gtrs} (h : TrxinfoStep op g g₁ u)
    (heq : g'.gtrsTrxinfo = g₁.gtrsTrxinfo) : TrxinfoStep op g g' u := by
  cases h with
  | kept h =>
      rw [← heq] at h
      exact TrxinfoStep.kept h
  | opened hact hopen huser =>
      rw [Gtrs.isended, ← heq] at hopen
      rw [← heq] at huser
      exact TrxinfoStep.opened hact hopen huser
  | committed a hop ha hcommitp hact h =>
      rw [← heq] at h
      exact TrxinfoStep.committed a hop ha hcommitp hact h
  | aborted hact hstate hmtable huser =>
      rw [← heq] at hstate hmtable huser
      exact TrxinfoStep.aborted hact hstate hmtable huser

theorem sameFate_trxReadmaxtrxnum (g : Gtrs) (t u : ℕ) :
    (g.gtrsTrxinfo u).SameFate ((trxReadmaxtrxnum g t).gtrsTrxinfo u) :=
  sameFate_setTrxinfo { g.gtrsTrxinfo t with tiMaxtrxnum := g.gtrsCtr.ctrMaxtrxnum }
    ⟨rfl, rfl, rfl, rfl⟩ u

theorem trxinfoStep (hi : GtrsInv cfg g) (hstep : g.step cfg op = some g')
    (hu : u ≤ g.gtrsCtr.ctrTrxid) : TrxinfoStep op g g' u := by
  cases op with
  | begintrx =>
      obtain rfl := Option.some.inj hstep
      exact TrxinfoStep.kept (Trxinfo.SameFate.of_eq
        (gtrsTrxinfo_trxInit_of_ne g (ne_of_le_ctrTrxid hu)))
  | getnewreadlevel t succp =>
      obtain ⟨-, rfl⟩ := guard_of_eq_some hstep
      have hread : TrxinfoStep (.getnewreadlevel t succp) g (trxReadmaxtrxnum g t) u :=
        TrxinfoStep.kept (sameFate_trxReadmaxtrxnum g t u)
      cases succp with
      | false => exact hread
      | true => exact hread.of_trxinfo_eq rfl
  | readmaxtrxnum t =>
      obtain ⟨-, rfl⟩ := guard_of_eq_some hstep
      exact TrxinfoStep.kept (sameFate_trxReadmaxtrxnum g t u)
  | addtrxreadlevel t =>
      obtain ⟨-, rfl⟩ := guard_of_eq_some hstep
      exact TrxinfoStep.kept (Trxinfo.SameFate.refl _)
  | setcanremovereadlevel t canremove =>
      obtain ⟨-, rfl⟩ := guard_of_eq_some hstep
      exact TrxinfoStep.kept (sameFate_setTrxinfo
        { g.gtrsTrxinfo t with tiCanremovereadlevel := canremove } ⟨rfl, rfl, rfl, rfl⟩ u)
  | mtablecommit t =>
      obtain ⟨⟨hact, -⟩, rfl⟩ := guard_of_eq_some hstep
      exact TrxinfoStep.setTrxinfo { g.gtrsTrxinfo t with tiCommittrxnum := _, tiMtabletrx := true }
        _ hact (hi.active_open t hact) rfl u
  | beginvalidate t =>
      obtain ⟨⟨hact, -⟩, rfl⟩ := guard_of_eq_some hstep
      have hnumber : TrxinfoStep (.beginvalidate t) g (beginvalidateNumber cfg g t) u :=
        TrxinfoStep.setTrxinfo ({ g.gtrsTrxinfo t with tiCommittrxnum := _ }.setState .validate)
          _ hact rfl rfl u
      rw [trxBeginvalidate_eq]
      split
      · exact hnumber.of_trxinfo_eq rfl
      · exact hnumber
  | endtrx a =>
      obtain rfl := Option.some.inj hstep
      exact TrxinfoStep.endtrx hi a u
  | releasereadlevels dbmergewrites mergelimit =>
      obtain rfl := Option.some.inj hstep
      exact TrxinfoStep.kept
        ((gtrsReleasemergewrites_releases hi.levels_nodup _ _ _).sameFate u)

theorem mem_gtrsActivetrxlist_step (hi : GtrsInv cfg g) (hstep : g.step cfg op = some g')
    (hu : u ∈ g'.gtrsActivetrxlist) :
    u ∈ g.gtrsActivetrxlist ∨
      g.gtrsCtr.ctrTrxid < u ∧ (g'.gtrsTrxinfo u).tiUsertrxid = u := by
  cases op with
  | begintrx =>
      obtain rfl := Option.some.inj hstep
      rw [gtrsActivetrxlist_trxInit, List.mem_append, List.mem_singleton] at hu
      rcases hu with hu | rfl
      · exact Or.inl hu
      · rw [gtrsTrxinfo_trxInit_self]
        exact Or.inr ⟨Nat.lt_succ_self _, rfl⟩
  | getnewreadlevel t succp =>
      obtain ⟨-, rfl⟩ := guard_of_eq_some hstep
      cases succp with
      | false => exact Or.inl hu
      | true => exact Or.inl hu
  | readmaxtrxnum | addtrxreadlevel | setcanremovereadlevel | mtablecommit =>
      obtain ⟨-, rfl⟩ := guard_of_eq_some hstep
      exact Or.inl hu
  | beginvalidate t =>
      obtain ⟨-, rfl⟩ := guard_of_eq_some hstep
      rw [trxBeginvalidate_eq] at hu
      split at hu
      · exact Or.inl hu
      · exact Or.inl hu
  | endtrx a =>
      obtain rfl := Option.some.inj hstep
      by_cases ht : a.endedTrx ∈ g.gtrsActivetrxlist
      · rw [(dbeGtrsEndtrx_fate hi a ht).2] at hu
        exact Or.inl (List.mem_of_mem_erase hu)
      · rw [dbeGtrsEndtrx, if_pos ht] at hu
        exact Or.inl hu
  | releasereadlevels dbmergewrites mergelimit =>
      obtain rfl := Option.some.inj hstep
      change u ∈ (gtrsReleasemergewrites g dbmergewrites mergelimit 0).1.gtrsActivetrxlist at hu
      rw [(gtrsReleasemergewrites_releases hi.levels_nodup _ _ _).active_eq] at hu
      exact Or.inl hu

theorem ctrTrxid_le_step (hi : GtrsInv cfg g) (hstep : g.step cfg op = some g') :
    g.gtrsCtr.ctrTrxid ≤ g'.gtrsCtr.ctrTrxid := by
  cases op with
  | begintrx =>
      obtain rfl := Option.some.inj hstep
      rw [trxInit_eq]
      exact Nat.le_succ _
  | getnewreadlevel t succp =>
      obtain ⟨-, rfl⟩ := guard_of_eq_some hstep
      cases succp with
      | false => exact le_refl _
      | true => exact le_refl _
  | readmaxtrxnum | addtrxreadlevel | setcanremovereadlevel =>
      obtain ⟨-, rfl⟩ := guard_of_eq_some hstep
      exact le_refl _
  | mtablecommit t =>
      obtain ⟨-, rfl⟩ := guard_of_eq_some hstep
      exact ctrTrxid_le_getnewcommittrxnum _ _
  | beginvalidate t =>
      obtain ⟨-, rfl⟩ := guard_of_eq_some hstep
      rw [trxBeginvalidate_eq]
      split
      · exact ctrTrxid_le_getnewcommittrxnum _ _
      · exact ctrTrxid_le_getnewcommittrxnum _ _
  | endtrx a =>
      obtain rfl := Option.some.inj hstep
      have hcases := @dbeGtrsEndtrx_cases cfg g hi.levels_nodup a
      generalize dbeGtrsEndtrx cfg g a = o at hcases ⊢
      cases hcases with
      | inactive ht => exact le_refl _
      | keep ht hraise hrel p =>
          exact hraise.trxid_le.trans_eq (congrArg DbeCounter.ctrTrxid hrel.ctr_eq.symm)
      | raise ht hraise hrel p =>
          refine hraise.trxid_le.trans_eq ?_
          change _ = (dbeCounterSetmergetrxnum _ _).ctrTrxid
          rw [ctrTrxid_setmergetrxnum, hrel.ctr_eq]
          rfl
  | releasereadlevels dbmergewrites mergelimit =>
      obtain rfl := Option.some.inj hstep
      have hctr := gtrsCtr_gtrsReleasemergewrites g dbmergewrites mergelimit 0
      exact le_of_eq (congrArg DbeCounter.ctrTrxid hctr.symm)

namespace TrxinfoStep

theorem user_eq (h : TrxinfoStep op g g' u) :
    (g'.gtrsTrxinfo u).tiUsertrxid = (g.gtrsTrxinfo u).tiUsertrxid := by
  cases h with
  | kept h => exact h.user_eq
  | opened hact hopen huser => exact huser
  | committed a hop ha hcommitp hact h => exact h.user_eq
  | aborted hact hstate hmtable huser => exact huser

theorem sameFate (h : TrxinfoStep op g g' u) (hi : GtrsInv cfg g)
    (hended : g.isended u = true) : (g.gtrsTrxinfo u).SameFate (g'.gtrsTrxinfo u) := by
  have hnot : u ∉ g.gtrsActivetrxlist := by
    intro hact
    rw [hi.active_open u hact] at hended
    exact Bool.false_ne_true hended
  cases h with
  | kept h => exact h
  | opened hact hopen huser => exact absurd hact hnot
  | committed a hop ha hcommitp hact h => exact absurd hact hnot
  | aborted hact hstate hmtable huser => exact absurd hact hnot

end TrxinfoStep

end SolidDB
