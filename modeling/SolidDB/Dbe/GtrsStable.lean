import SolidDB.Dbe.GtrsInvariant

/-!
# Read levels are stable

In a run of calls the maximum readable number never decreases, stays below the commit
number of every open validation, and the merge number stays at or below every read level
that is held. The run has to keep to `GtrsOp.Ordered`, and two places of the source do
not: a new database starts with the maximum above the counter of commit numbers, and
`trx_init` takes a read level outside the gate when `dbe_cfg_relaxedreadlevel` is off.
-/

namespace SolidDB

open Gtrs

variable {cfg : GtrsCfg} {g g' : Gtrs} {t u : ℕ}

/-! ## Beginning a transaction -/

theorem gtrsInv_dbeGtrsInit (cfg : GtrsCfg) {ctr : DbeCounter}
    (h : ctr.ctrMergetrxnum ≤ ctr.ctrMaxtrxnum) : GtrsInv cfg (dbeGtrsInit ctr) where
  active_nodup := List.nodup_nil
  active_le _ ht := absurd ht List.not_mem_nil
  active_open _ ht := absurd ht List.not_mem_nil
  levels_nodup := List.nodup_nil
  levels_active _ ht := absurd ht List.not_mem_nil
  level_le _ := Nat.zero_le _
  merge_le := h
  number_le _ := Nat.zero_le _
  validate_le _ ht := absurd ht List.not_mem_nil
  validate_pos _ ht := absurd ht List.not_mem_nil
  validate_sorted := List.Pairwise.nil
  validating _ ht := absurd ht.1 List.not_mem_nil

theorem levelsInOrder_dbeGtrsInit (ctr : DbeCounter) : (dbeGtrsInit ctr).LevelsInOrder where
  sorted := List.Pairwise.nil
  merge_le _ ht := absurd ht List.not_mem_nil

theorem numbersAbove_dbeGtrsInit (ctr : DbeCounter) : (dbeGtrsInit ctr).NumbersAbove :=
  fun _ ht => absurd ht.1 List.not_mem_nil

theorem trxInit_eq (g : Gtrs) :
    trxInit g = { g with
      gtrsCtr := { g.gtrsCtr with ctrTrxid := g.gtrsCtr.ctrTrxid + 1 }
      gtrsTrxinfo := Function.update g.gtrsTrxinfo (g.gtrsCtr.ctrTrxid + 1)
        { dbeTrxinfoInitbuf with tiUsertrxid := g.gtrsCtr.ctrTrxid + 1 }
      gtrsAt := Function.update g.gtrsAt (g.gtrsCtr.ctrTrxid + 1) ⟨0, false, false⟩
      gtrsUsereadlevel :=
        Function.update g.gtrsUsereadlevel (g.gtrsCtr.ctrTrxid + 1) false
      gtrsActivetrxlist := g.gtrsActivetrxlist ++ [g.gtrsCtr.ctrTrxid + 1] } := by
  simp [trxInit, dbeGtrsBegintrx, dbeCounterGetnewtrxid, setCtr, setAt, setTrxinfo,
    dbeTrxinfoInitbuf]

@[simp] theorem gtrsTrxinfo_trxInit_self (g : Gtrs) :
    (trxInit g).gtrsTrxinfo (g.gtrsCtr.ctrTrxid + 1) =
      { dbeTrxinfoInitbuf with tiUsertrxid := g.gtrsCtr.ctrTrxid + 1 } := by
  simp [trxInit_eq]

theorem gtrsTrxinfo_trxInit_of_ne (g : Gtrs) (h : u ≠ g.gtrsCtr.ctrTrxid + 1) :
    (trxInit g).gtrsTrxinfo u = g.gtrsTrxinfo u := by
  simp [trxInit_eq, h]

theorem gtrsAt_trxInit_of_ne (g : Gtrs) (h : u ≠ g.gtrsCtr.ctrTrxid + 1) :
    (trxInit g).gtrsAt u = g.gtrsAt u := by
  simp [trxInit_eq, h]

theorem gtrsActivetrxlist_trxInit (g : Gtrs) :
    (trxInit g).gtrsActivetrxlist = g.gtrsActivetrxlist ++ [g.gtrsCtr.ctrTrxid + 1] := by
  rw [trxInit_eq]

theorem commitCounter_le_trxInit (cfg : GtrsCfg) (g : Gtrs) :
    commitCounter cfg.mergecleanup g.gtrsCtr ≤
      commitCounter cfg.mergecleanup (trxInit g).gtrsCtr := by
  rw [trxInit_eq, commitCounter, commitCounter]
  split
  · exact Nat.le_succ _
  · exact le_refl _

theorem ne_of_le_ctrTrxid (h : u ≤ g.gtrsCtr.ctrTrxid) : u ≠ g.gtrsCtr.ctrTrxid + 1 :=
  Nat.ne_of_lt (Nat.lt_succ_of_le h)

theorem GtrsInv.validating_trxInit (h : GtrsInv cfg g) (hu : (trxInit g).Validating u) :
    g.Validating u ∧ u ≤ g.gtrsCtr.ctrTrxid := by
  obtain ⟨hact, hflag⟩ := hu
  rw [gtrsActivetrxlist_trxInit, List.mem_append, List.mem_singleton] at hact
  rcases hact with hact | rfl
  · have hle := h.active_le u hact
    rw [gtrsAt_trxInit_of_ne g (ne_of_le_ctrTrxid hle)] at hflag
    exact ⟨⟨hact, hflag⟩, hle⟩
  · simp [trxInit_eq] at hflag

theorem GtrsInv.trxInit (h : GtrsInv cfg g) : GtrsInv cfg (trxInit g) := by
  have hlists : (SolidDB.trxInit g).gtrsReadlevellist = g.gtrsReadlevellist ∧
      (SolidDB.trxInit g).gtrsValidatetrxlist = g.gtrsValidatetrxlist := by
    rw [trxInit_eq]
    exact ⟨rfl, rfl⟩
  have hctr : (SolidDB.trxInit g).gtrsCtr =
      { g.gtrsCtr with ctrTrxid := g.gtrsCtr.ctrTrxid + 1 } := by
    rw [trxInit_eq]
  have hnum : ∀ u ∈ g.gtrsValidatetrxlist,
      (SolidDB.trxInit g).committrxnum u = g.committrxnum u := by
    intro u hu
    rw [committrxnum, gtrsTrxinfo_trxInit_of_ne g (ne_of_le_ctrTrxid (h.validate_le u hu)),
      committrxnum]
  constructor
  · rw [gtrsActivetrxlist_trxInit, List.nodup_append]
    refine ⟨h.active_nodup, List.nodup_singleton _, fun u hu v hv => ?_⟩
    rw [List.mem_singleton.mp hv]
    exact ne_of_le_ctrTrxid (h.active_le u hu)
  · intro u hu
    rw [gtrsActivetrxlist_trxInit, List.mem_append, List.mem_singleton] at hu
    rw [hctr]
    rcases hu with hu | rfl
    · exact (h.active_le u hu).trans (Nat.le_succ _)
    · exact le_refl _
  · intro u hu
    rw [gtrsActivetrxlist_trxInit, List.mem_append, List.mem_singleton] at hu
    rcases hu with hu | rfl
    · rw [Gtrs.isended, gtrsTrxinfo_trxInit_of_ne g (ne_of_le_ctrTrxid (h.active_le u hu))]
      exact h.active_open u hu
    · rw [Gtrs.isended, gtrsTrxinfo_trxInit_self]
      rfl
  · rw [hlists.1]
    exact h.levels_nodup
  · intro u hu
    rw [hlists.1] at hu
    rw [gtrsActivetrxlist_trxInit]
    exact List.mem_append_left _ (h.levels_active u hu)
  · intro u
    rw [hctr, level]
    by_cases hu : u = g.gtrsCtr.ctrTrxid + 1
    · rw [hu, gtrsTrxinfo_trxInit_self]
      exact Nat.zero_le _
    · rw [gtrsTrxinfo_trxInit_of_ne g hu]
      exact h.level_le u
  · rw [hctr]
    exact h.merge_le
  · intro u
    rw [committrxnum]
    by_cases hu : u = g.gtrsCtr.ctrTrxid + 1
    · rw [hu, gtrsTrxinfo_trxInit_self]
      exact Nat.zero_le _
    · rw [gtrsTrxinfo_trxInit_of_ne g hu]
      exact (h.number_le u).trans (commitCounter_le_trxInit cfg g)
  · intro u hu
    rw [hlists.2] at hu
    rw [hctr]
    exact (h.validate_le u hu).trans (Nat.le_succ _)
  · intro u hu
    rw [hlists.2] at hu
    rw [hnum u hu]
    exact h.validate_pos u hu
  · rw [hlists.2]
    apply h.validate_sorted.imp_of_mem
    intro u v hu hv hlt
    rw [hnum u hu, hnum v hv]
    exact hlt
  · intro u hu
    rw [hlists.2]
    exact h.validating u (h.validating_trxInit hu).1

theorem Gtrs.LevelsInOrder.trxInit (h : g.LevelsInOrder) (hi : GtrsInv cfg g) :
    (trxInit g).LevelsInOrder := by
  have hlist : (SolidDB.trxInit g).gtrsReadlevellist = g.gtrsReadlevellist := by
    rw [trxInit_eq]
  have hlevel : ∀ u ∈ g.gtrsReadlevellist, (SolidDB.trxInit g).level u = g.level u := by
    intro u hu
    have hle := hi.active_le u (hi.levels_active u hu)
    rw [level, gtrsTrxinfo_trxInit_of_ne g (ne_of_le_ctrTrxid hle), level]
  constructor
  · rw [hlist]
    apply h.sorted.imp_of_mem
    intro u v hu hv hle
    rw [hlevel u hu, hlevel v hv]
    exact hle
  · intro u hu
    rw [hlist] at hu
    rw [hlevel u hu, trxInit_eq]
    exact h.merge_le u hu

theorem Gtrs.NumbersAbove.trxInit (h : g.NumbersAbove) (hi : GtrsInv cfg g) :
    (trxInit g).NumbersAbove := by
  intro u hu
  obtain ⟨hv, hle⟩ := hi.validating_trxInit hu
  rw [committrxnum, gtrsTrxinfo_trxInit_of_ne g (ne_of_le_ctrTrxid hle), trxInit_eq]
  exact h u hv

/-! ## Taking a read level -/

section SetTrxinfo

variable {ti : Trxinfo} {b : ℕ → Bool}

theorem committrxnum_setTrxinfo (hnum : ti.tiCommittrxnum = g.committrxnum t) (u : ℕ) :
    (g.setTrxinfo t ti).committrxnum u = g.committrxnum u := by
  by_cases hu : u = t
  · rw [hu, committrxnum, gtrsTrxinfo_setTrxinfo_self, hnum]
  · rw [committrxnum, gtrsTrxinfo_setTrxinfo_of_ne g hu, committrxnum]

theorem level_setTrxinfo (hlevel : t ∈ g.gtrsReadlevellist → ti.tiMaxtrxnum = g.level t)
    (hu : u ∈ g.gtrsReadlevellist) : (g.setTrxinfo t ti).level u = g.level u := by
  by_cases hut : u = t
  · rw [hut] at hu ⊢
    rw [level, gtrsTrxinfo_setTrxinfo_self, hlevel hu]
  · rw [level, gtrsTrxinfo_setTrxinfo_of_ne g hut, level]

theorem GtrsInv.setTrxinfo (h : GtrsInv cfg g) (hended : ti.isended = g.isended t)
    (hnum : ti.tiCommittrxnum = g.committrxnum t)
    (hle : ti.tiMaxtrxnum ≤ g.gtrsCtr.ctrMaxtrxnum) :
    GtrsInv cfg { g.setTrxinfo t ti with gtrsUsereadlevel := b } := by
  have hself := gtrsTrxinfo_setTrxinfo_self g t ti
  have hnum' := committrxnum_setTrxinfo hnum
  refine ⟨h.active_nodup, h.active_le, fun u hu => ?_, h.levels_nodup, h.levels_active,
    fun u => ?_, h.merge_le, fun u => ?_, h.validate_le, fun u hu => ?_, ?_, h.validating⟩
  · change (g.setTrxinfo t ti).isended u = false
    have hopen := h.active_open u hu
    by_cases hut : u = t
    · rw [hut] at hopen ⊢
      rw [Gtrs.isended, hself, hended, hopen]
    · rw [Gtrs.isended, gtrsTrxinfo_setTrxinfo_of_ne g hut]
      exact hopen
  · change (g.setTrxinfo t ti).level u ≤ _
    by_cases hu : u = t
    · rw [hu, level, hself]
      exact hle
    · rw [level, gtrsTrxinfo_setTrxinfo_of_ne g hu]
      exact h.level_le u
  · exact (hnum' u).trans_le (h.number_le u)
  · exact (h.validate_pos u hu).trans_eq (hnum' u).symm
  · apply h.validate_sorted.imp
    intro u v huv
    change (g.setTrxinfo t ti).committrxnum u < (g.setTrxinfo t ti).committrxnum v
    rw [hnum', hnum']
    exact huv

theorem Gtrs.LevelsInOrder.setTrxinfo (h : g.LevelsInOrder)
    (hlevel : t ∈ g.gtrsReadlevellist → ti.tiMaxtrxnum = g.level t) :
    { g.setTrxinfo t ti with gtrsUsereadlevel := b }.LevelsInOrder where
  sorted := by
    apply h.sorted.imp_of_mem
    intro u v hu hv huv
    change (g.setTrxinfo t ti).level u ≤ (g.setTrxinfo t ti).level v
    rw [level_setTrxinfo hlevel hu, level_setTrxinfo hlevel hv]
    exact huv
  merge_le u hu := (h.merge_le u hu).trans_eq (level_setTrxinfo hlevel hu).symm

theorem Gtrs.NumbersAbove.setTrxinfo (h : g.NumbersAbove)
    (hnum : ti.tiCommittrxnum = g.committrxnum t) :
    { g.setTrxinfo t ti with gtrsUsereadlevel := b }.NumbersAbove :=
  fun u hu => (h u hu).trans_eq (committrxnum_setTrxinfo hnum u).symm

end SetTrxinfo

theorem GtrsInv.addtrxreadlevel (h : GtrsInv cfg g) (hact : t ∈ g.gtrsActivetrxlist)
    (hnot : t ∉ g.gtrsReadlevellist) : GtrsInv cfg (dbeGtrsAddtrxreadlevelNomutex g t) := by
  refine ⟨h.active_nodup, h.active_le, h.active_open, ?_, ?_, h.level_le, h.merge_le,
    h.number_le, h.validate_le, h.validate_pos, h.validate_sorted, h.validating⟩
  · change (g.gtrsReadlevellist ++ [t]).Nodup
    rw [List.nodup_append]
    refine ⟨h.levels_nodup, List.nodup_singleton t, fun u hu v hv huv => ?_⟩
    rw [List.mem_singleton.mp hv] at huv
    exact hnot (huv ▸ hu)
  · intro u hu
    change u ∈ g.gtrsReadlevellist ++ [t] at hu
    rw [List.mem_append, List.mem_singleton] at hu
    rcases hu with hu | rfl
    · exact h.levels_active u hu
    · exact hact

theorem Gtrs.LevelsInOrder.addtrxreadlevel (h : g.LevelsInOrder)
    (hmerge : g.gtrsCtr.ctrMergetrxnum ≤ g.level t)
    (hlast : ∀ u ∈ g.gtrsReadlevellist, g.level u ≤ g.level t) :
    (dbeGtrsAddtrxreadlevelNomutex g t).LevelsInOrder := by
  constructor
  · change (g.gtrsReadlevellist ++ [t]).Pairwise fun u v => g.level u ≤ g.level v
    rw [List.pairwise_append]
    refine ⟨h.sorted, List.pairwise_singleton _ _, fun u hu v hv => ?_⟩
    rw [List.mem_singleton.mp hv]
    exact hlast u hu
  · intro u hu
    change u ∈ g.gtrsReadlevellist ++ [t] at hu
    rw [List.mem_append, List.mem_singleton] at hu
    rcases hu with hu | rfl
    · exact h.merge_le u hu
    · exact hmerge

theorem GtrsInv.readmaxtrxnum (h : GtrsInv cfg g) (t : ℕ) :
    GtrsInv cfg (trxReadmaxtrxnum g t) :=
  h.setTrxinfo rfl rfl (le_refl _)

theorem Gtrs.LevelsInOrder.readmaxtrxnum (h : g.LevelsInOrder)
    (hnot : t ∉ g.gtrsReadlevellist) : (trxReadmaxtrxnum g t).LevelsInOrder :=
  h.setTrxinfo fun hmem => absurd hmem hnot

theorem Gtrs.NumbersAbove.readmaxtrxnum (h : g.NumbersAbove) (t : ℕ) :
    (trxReadmaxtrxnum g t).NumbersAbove :=
  h.setTrxinfo rfl

theorem level_trxReadmaxtrxnum (g : Gtrs) (t : ℕ) :
    (trxReadmaxtrxnum g t).level t = g.gtrsCtr.ctrMaxtrxnum := by
  simp [level, trxReadmaxtrxnum]

theorem GtrsInv.getnewreadlevel (h : GtrsInv cfg g) (hact : t ∈ g.gtrsActivetrxlist)
    (hnot : t ∉ g.gtrsReadlevellist) (succp : Bool) :
    GtrsInv cfg (dbeTrxGetnewreadlevel g t succp) := by
  rw [dbeTrxGetnewreadlevel]
  split
  · exact (h.readmaxtrxnum t).addtrxreadlevel hact hnot
  · exact h.readmaxtrxnum t

/-- Inside the gate the level that is taken is the maximum, and none is above it. -/
theorem Gtrs.LevelsInOrder.getnewreadlevel (h : g.LevelsInOrder) (hi : GtrsInv cfg g)
    (hnot : t ∉ g.gtrsReadlevellist) (succp : Bool) :
    (dbeTrxGetnewreadlevel g t succp).LevelsInOrder := by
  have hread := h.readmaxtrxnum hnot
  rw [dbeTrxGetnewreadlevel]
  split
  · apply hread.addtrxreadlevel
    · rw [level_trxReadmaxtrxnum]
      exact hi.merge_le
    · intro u hu
      rw [level_trxReadmaxtrxnum]
      exact (hi.readmaxtrxnum t).level_le u
  · exact hread

theorem Gtrs.NumbersAbove.getnewreadlevel (h : g.NumbersAbove) (t : ℕ) (succp : Bool) :
    (dbeTrxGetnewreadlevel g t succp).NumbersAbove := by
  have hread := h.readmaxtrxnum t
  rw [dbeTrxGetnewreadlevel]
  split
  · exact fun u hu => hread u hu
  · exact hread

/-! ## Commit numbers -/

theorem SetsTrxinfo.level_eq' (hs : SetsTrxinfo cfg t g g') (u : ℕ) :
    g'.level u = g.level u := by
  by_cases hu : u = t
  · rw [hu, hs.level_eq]
  · rw [level, hs.info_eq u hu, level]

theorem SetsTrxinfo.committrxnum_eq' (hs : SetsTrxinfo cfg t g g')
    (hu : g.committrxnum u ≠ 0) : g'.committrxnum u = g.committrxnum u := by
  by_cases hut : u = t
  · rw [hut] at hu ⊢
    exact hs.committrxnum_eq hu
  · rw [committrxnum, hs.info_eq u hut, committrxnum]

theorem GtrsInv.setsTrxinfo (h : GtrsInv cfg g) (hs : SetsTrxinfo cfg t g g')
    (hended : g'.isended t = g.isended t) : GtrsInv cfg g' := by
  have hval : ∀ u ∈ g.gtrsValidatetrxlist, g'.committrxnum u = g.committrxnum u :=
    fun u hu => hs.committrxnum_eq' (Nat.ne_of_gt (h.validate_pos u hu))
  constructor
  · rw [hs.active_eq]
    exact h.active_nodup
  · intro u hu
    rw [hs.active_eq] at hu
    exact (h.active_le u hu).trans hs.trxid_le
  · intro u hu
    rw [hs.active_eq] at hu
    have hopen := h.active_open u hu
    by_cases hut : u = t
    · rw [hut] at hopen ⊢
      rw [hended, hopen]
    · rw [Gtrs.isended, hs.info_eq u hut]
      exact hopen
  · rw [hs.levels_eq]
    exact h.levels_nodup
  · rw [hs.levels_eq, hs.active_eq]
    exact h.levels_active
  · intro u
    rw [hs.level_eq', hs.max_eq]
    exact h.level_le u
  · rw [hs.merge_eq, hs.max_eq]
    exact h.merge_le
  · intro u
    by_cases hu : u = t
    · rw [hu]
      rcases hs.committrxnum_le with heq | hle
      · rw [heq]
        exact (h.number_le t).trans hs.commitCounter_le
      · exact hle
    · rw [committrxnum, hs.info_eq u hu]
      exact (h.number_le u).trans hs.commitCounter_le
  · intro u hu
    rw [hs.validate_eq] at hu
    exact (h.validate_le u hu).trans hs.trxid_le
  · intro u hu
    rw [hs.validate_eq] at hu
    rw [hval u hu]
    exact h.validate_pos u hu
  · rw [hs.validate_eq]
    apply h.validate_sorted.imp_of_mem
    intro u v hu hv huv
    rw [hval u hu, hval v hv]
    exact huv
  · intro u hu
    rw [Validating, hs.active_eq, hs.at_eq] at hu
    rw [hs.validate_eq]
    exact h.validating u hu

theorem Gtrs.LevelsInOrder.setsTrxinfo (h : g.LevelsInOrder) (hs : SetsTrxinfo cfg t g g') :
    g'.LevelsInOrder := by
  constructor
  · rw [hs.levels_eq]
    apply h.sorted.imp
    intro u v huv
    rw [hs.level_eq', hs.level_eq']
    exact huv
  · intro u hu
    rw [hs.levels_eq] at hu
    rw [hs.level_eq', hs.merge_eq]
    exact h.merge_le u hu

theorem Gtrs.NumbersAbove.setsTrxinfo (h : g.NumbersAbove) (hs : SetsTrxinfo cfg t g g') :
    g'.NumbersAbove := by
  intro u hu
  rw [Validating, hs.active_eq, hs.at_eq] at hu
  have hlt := h u hu
  rw [hs.max_eq, hs.committrxnum_eq' (Nat.ne_of_gt (Nat.lt_of_le_of_lt (Nat.zero_le _) hlt))]
  exact hlt

theorem trxMtablecommit_sets (hnone : g.committrxnum t = 0) :
    SetsTrxinfo cfg t g (trxMtablecommit cfg g t) :=
  setsTrxinfo_getnewcommittrxnum rfl rfl rfl hnone

theorem isended_trxMtablecommit (cfg : GtrsCfg) (g : Gtrs) (t : ℕ) :
    (trxMtablecommit cfg g t).isended t = g.isended t := by
  simp [Gtrs.isended, trxMtablecommit, setCtr, Gtrs.setTrxinfo, Trxinfo.isended]

/-- `trx_beginvalidate` before the gate lists the transaction. -/
def beginvalidateNumber (cfg : GtrsCfg) (g : Gtrs) (t : ℕ) : Gtrs :=
  let new := dbeCounterGetnewcommittrxnum cfg.mergecleanup g.gtrsCtr
  let ti := { g.gtrsTrxinfo t with tiCommittrxnum := new.1 }
  (g.setTrxinfo t (ti.setState .validate)).setCtr new.2

theorem trxBeginvalidate_eq (cfg : GtrsCfg) (g : Gtrs) (t : ℕ) :
    trxBeginvalidate cfg g t = if g.gtrsUsereadlevel t then
      dbeGtrsBegintrxvalidate (beginvalidateNumber cfg g t) t
      else beginvalidateNumber cfg g t := rfl

theorem beginvalidateNumber_sets (hnone : g.committrxnum t = 0) :
    SetsTrxinfo cfg t g (beginvalidateNumber cfg g t) :=
  setsTrxinfo_getnewcommittrxnum rfl rfl rfl hnone

theorem committrxnum_beginvalidateNumber (cfg : GtrsCfg) (g : Gtrs) (t : ℕ) :
    (beginvalidateNumber cfg g t).committrxnum t =
      commitCounter cfg.mergecleanup g.gtrsCtr + 1 := by
  rw [← fst_dbeCounterGetnewcommittrxnum]
  simp [committrxnum, beginvalidateNumber, setCtr, Gtrs.setTrxinfo, Trxinfo.setState]

theorem isended_beginvalidateNumber (cfg : GtrsCfg) (g : Gtrs) (t : ℕ) :
    (beginvalidateNumber cfg g t).isended t = false := by
  simp [Gtrs.isended, beginvalidateNumber, setCtr, Gtrs.setTrxinfo, Trxinfo.isended,
    Trxinfo.setState]

/-- A transaction with a new commit number is listed as the last one under validation. -/
theorem GtrsInv.begintrxvalidate (h : GtrsInv cfg g) (ht : t ≤ g.gtrsCtr.ctrTrxid)
    (hpos : 0 < g.committrxnum t)
    (hlast : ∀ u ∈ g.gtrsValidatetrxlist, g.committrxnum u < g.committrxnum t) :
    GtrsInv cfg (dbeGtrsBegintrxvalidate g t) := by
  refine ⟨h.active_nodup, h.active_le, h.active_open, h.levels_nodup, h.levels_active,
    h.level_le, h.merge_le, h.number_le, ?_, ?_, ?_, ?_⟩
  · intro u hu
    change u ∈ g.gtrsValidatetrxlist ++ [t] at hu
    rw [List.mem_append, List.mem_singleton] at hu
    rcases hu with hu | rfl
    · exact h.validate_le u hu
    · exact ht
  · intro u hu
    change u ∈ g.gtrsValidatetrxlist ++ [t] at hu
    rw [List.mem_append, List.mem_singleton] at hu
    rcases hu with hu | rfl
    · exact h.validate_pos u hu
    · exact hpos
  · change (g.gtrsValidatetrxlist ++ [t]).Pairwise fun u v =>
      g.committrxnum u < g.committrxnum v
    rw [List.pairwise_append]
    refine ⟨h.validate_sorted, List.pairwise_singleton _ _, fun u hu v hv => ?_⟩
    rw [List.mem_singleton.mp hv]
    exact hlast u hu
  · rintro u ⟨hact, hflag⟩
    change u ∈ g.gtrsValidatetrxlist ++ [t]
    rw [List.mem_append, List.mem_singleton]
    by_cases hu : u = t
    · exact Or.inr hu
    · change ((g.setAt t _).gtrsAt u).atIsvalidate = true at hflag
      rw [gtrsAt_setAt_of_ne g hu] at hflag
      exact Or.inl (h.validating u ⟨hact, hflag⟩)

theorem GtrsInv.beginvalidate (h : GtrsInv cfg g) (hact : t ∈ g.gtrsActivetrxlist)
    (hnone : g.committrxnum t = 0) : GtrsInv cfg (trxBeginvalidate cfg g t) := by
  have hs := @beginvalidateNumber_sets cfg g t hnone
  have hinv : GtrsInv cfg (beginvalidateNumber cfg g t) := by
    apply h.setsTrxinfo hs
    rw [h.active_open t hact, isended_beginvalidateNumber]
  rw [trxBeginvalidate_eq]
  split
  · apply hinv.begintrxvalidate
    · exact (h.active_le t hact).trans hs.trxid_le
    · rw [committrxnum_beginvalidateNumber]
      exact Nat.succ_pos _
    · intro u hu
      rw [hs.validate_eq] at hu
      rw [committrxnum_beginvalidateNumber,
        hs.committrxnum_eq' (Nat.ne_of_gt (h.validate_pos u hu))]
      exact Nat.lt_succ_of_le (h.number_le u)
  · exact hinv

theorem Gtrs.LevelsInOrder.beginvalidate (h : g.LevelsInOrder)
    (hnone : g.committrxnum t = 0) : (trxBeginvalidate cfg g t).LevelsInOrder := by
  have hlev := h.setsTrxinfo (@beginvalidateNumber_sets cfg g t hnone)
  rw [trxBeginvalidate_eq]
  split
  · exact ⟨hlev.sorted, hlev.merge_le⟩
  · exact hlev

/-- A number taken while the counter has reached the maximum is above it. -/
theorem Gtrs.NumbersAbove.beginvalidate (h : g.NumbersAbove) (hnone : g.committrxnum t = 0)
    (hmax : g.gtrsUsereadlevel t = true →
      g.gtrsCtr.ctrMaxtrxnum ≤ commitCounter cfg.mergecleanup g.gtrsCtr) :
    (trxBeginvalidate cfg g t).NumbersAbove := by
  have hs := @beginvalidateNumber_sets cfg g t hnone
  have hnum := h.setsTrxinfo hs
  rw [trxBeginvalidate_eq]
  split
  · rename_i huse
    rintro u ⟨hact, hflag⟩
    change (beginvalidateNumber cfg g t).gtrsCtr.ctrMaxtrxnum <
      (beginvalidateNumber cfg g t).committrxnum u
    by_cases hu : u = t
    · rw [hu, committrxnum_beginvalidateNumber, hs.max_eq]
      exact Nat.lt_succ_of_le (hmax huse)
    · change (((beginvalidateNumber cfg g t).setAt t _).gtrsAt u).atIsvalidate = true at hflag
      rw [gtrsAt_setAt_of_ne _ hu] at hflag
      exact hnum u ⟨hact, hflag⟩
  · exact hnum

/-! ## Runs -/

/-- A validation begins only when the next commit number is above the maximum. -/
def GtrsOp.NumberOrdered (cfg : GtrsCfg) (g : Gtrs) : GtrsOp → Prop
  | .beginvalidate t => g.gtrsUsereadlevel t = true →
      g.gtrsCtr.ctrMaxtrxnum ≤ commitCounter cfg.mergecleanup g.gtrsCtr
  | _ => True

/-- A level that was read outside the gate is put into the list only while it is not below
the merge number and the levels in the list. -/
def GtrsOp.LevelOrdered (g : Gtrs) : GtrsOp → Prop
  | .addtrxreadlevel t => g.gtrsCtr.ctrMergetrxnum ≤ g.level t ∧
      ∀ u ∈ g.gtrsReadlevellist, g.level u ≤ g.level t
  | _ => True

def GtrsOp.Ordered (cfg : GtrsCfg) (g : Gtrs) (op : GtrsOp) : Prop :=
  op.NumberOrdered cfg g ∧ op.LevelOrdered g

instance (cfg : GtrsCfg) (g : Gtrs) (op : GtrsOp) : Decidable (op.NumberOrdered cfg g) :=
  match op with
  | .begintrx => .isTrue trivial
  | .getnewreadlevel _ _ => .isTrue trivial
  | .readmaxtrxnum _ => .isTrue trivial
  | .addtrxreadlevel _ => .isTrue trivial
  | .setcanremovereadlevel _ _ => .isTrue trivial
  | .mtablecommit _ => .isTrue trivial
  | .beginvalidate t => inferInstanceAs (Decidable (g.gtrsUsereadlevel t = true →
      g.gtrsCtr.ctrMaxtrxnum ≤ commitCounter cfg.mergecleanup g.gtrsCtr))
  | .endtrx _ => .isTrue trivial
  | .releasereadlevels _ _ => .isTrue trivial

instance (g : Gtrs) (op : GtrsOp) : Decidable (op.LevelOrdered g) :=
  match op with
  | .begintrx => .isTrue trivial
  | .getnewreadlevel _ _ => .isTrue trivial
  | .readmaxtrxnum _ => .isTrue trivial
  | .addtrxreadlevel t => inferInstanceAs (Decidable (g.gtrsCtr.ctrMergetrxnum ≤ g.level t ∧
      ∀ u ∈ g.gtrsReadlevellist, g.level u ≤ g.level t))
  | .setcanremovereadlevel _ _ => .isTrue trivial
  | .mtablecommit _ => .isTrue trivial
  | .beginvalidate _ => .isTrue trivial
  | .endtrx _ => .isTrue trivial
  | .releasereadlevels _ _ => .isTrue trivial

instance (cfg : GtrsCfg) (g : Gtrs) (op : GtrsOp) : Decidable (op.Ordered cfg g) :=
  inferInstanceAs (Decidable (op.NumberOrdered cfg g ∧ op.LevelOrdered g))

def Gtrs.orderedRun (cfg : GtrsCfg) : Gtrs → List GtrsOp → Option Gtrs
  | g, [] => some g
  | g, op :: ops =>
    if op.Ordered cfg g then (g.step cfg op).bind fun g' => Gtrs.orderedRun cfg g' ops
    else none

/-- The states of the runs, from the counters of a new database or of a start record. -/
inductive Gtrs.Reachable (cfg : GtrsCfg) : Gtrs → Prop where
  | init (ctr : DbeCounter) (h : ctr.ctrMergetrxnum ≤ ctr.ctrMaxtrxnum) :
      Gtrs.Reachable cfg (dbeGtrsInit ctr)
  | step {g g' : Gtrs} {op : GtrsOp} (h : Gtrs.Reachable cfg g)
      (hstep : g.step cfg op = some g') : Gtrs.Reachable cfg g'

inductive Gtrs.OrderedReachable (cfg : GtrsCfg) : Gtrs → Prop where
  | init (ctr : DbeCounter) (h : ctr.ctrMergetrxnum ≤ ctr.ctrMaxtrxnum) :
      Gtrs.OrderedReachable cfg (dbeGtrsInit ctr)
  | step {g g' : Gtrs} {op : GtrsOp} (h : Gtrs.OrderedReachable cfg g)
      (hord : op.Ordered cfg g) (hstep : g.step cfg op = some g') :
      Gtrs.OrderedReachable cfg g'

/-- The maximum is below the commit number of every open validation, and the merge number
is not above the read level of an unfinished transaction that holds one. Validations and
levels are those that the gate lists. -/
structure Gtrs.Stable (g : Gtrs) : Prop where
  validating : ∀ t, g.Validating t → g.gtrsCtr.ctrMaxtrxnum < g.committrxnum t
  levels : ∀ t ∈ g.gtrsReadlevellist, g.isended t = false →
    g.gtrsCtr.ctrMergetrxnum ≤ g.level t

theorem GtrsInv.step (h : GtrsInv cfg g) {op : GtrsOp} (hstep : g.step cfg op = some g') :
    GtrsInv cfg g' := by
  cases op with
  | begintrx =>
      obtain rfl := Option.some.inj hstep
      exact h.trxInit
  | getnewreadlevel t succp =>
      obtain ⟨⟨hact, hnot, -⟩, rfl⟩ := guard_of_eq_some hstep
      exact h.getnewreadlevel hact hnot succp
  | readmaxtrxnum t =>
      obtain ⟨-, rfl⟩ := guard_of_eq_some hstep
      exact h.readmaxtrxnum t
  | addtrxreadlevel t =>
      obtain ⟨⟨-, hact, hnot, -⟩, rfl⟩ := guard_of_eq_some hstep
      exact h.addtrxreadlevel hact hnot
  | setcanremovereadlevel t canremove =>
      obtain ⟨-, rfl⟩ := guard_of_eq_some hstep
      exact h.setTrxinfo (b := g.gtrsUsereadlevel) rfl rfl (h.level_le t)
  | mtablecommit t =>
      obtain ⟨⟨-, hnone⟩, rfl⟩ := guard_of_eq_some hstep
      exact h.setsTrxinfo (trxMtablecommit_sets hnone) (isended_trxMtablecommit cfg g t)
  | beginvalidate t =>
      obtain ⟨⟨hact, hnone, -⟩, rfl⟩ := guard_of_eq_some hstep
      exact h.beginvalidate hact hnone
  | endtrx a =>
      obtain rfl := Option.some.inj hstep
      exact h.endtrx a
  | releasereadlevels dbmergewrites mergelimit =>
      obtain rfl := Option.some.inj hstep
      exact (h.releases (gtrsReleasemergewrites_releases h.levels_nodup _ _ _)).setPending _

theorem Gtrs.LevelsInOrder.step (h : g.LevelsInOrder) (hi : GtrsInv cfg g) {op : GtrsOp}
    (hord : op.LevelOrdered g) (hstep : g.step cfg op = some g') : g'.LevelsInOrder := by
  cases op with
  | begintrx =>
      obtain rfl := Option.some.inj hstep
      exact h.trxInit hi
  | getnewreadlevel t succp =>
      obtain ⟨⟨-, hnot, -⟩, rfl⟩ := guard_of_eq_some hstep
      exact h.getnewreadlevel hi hnot succp
  | readmaxtrxnum t =>
      obtain ⟨⟨-, -, hnot, -⟩, rfl⟩ := guard_of_eq_some hstep
      exact h.readmaxtrxnum hnot
  | addtrxreadlevel t =>
      obtain ⟨-, rfl⟩ := guard_of_eq_some hstep
      exact h.addtrxreadlevel hord.1 hord.2
  | setcanremovereadlevel t canremove =>
      obtain ⟨-, rfl⟩ := guard_of_eq_some hstep
      exact h.setTrxinfo (b := g.gtrsUsereadlevel) fun _ => rfl
  | mtablecommit t =>
      obtain ⟨⟨-, hnone⟩, rfl⟩ := guard_of_eq_some hstep
      exact h.setsTrxinfo (@trxMtablecommit_sets cfg g t hnone)
  | beginvalidate t =>
      obtain ⟨⟨-, hnone, -⟩, rfl⟩ := guard_of_eq_some hstep
      exact h.beginvalidate hnone
  | endtrx a =>
      obtain rfl := Option.some.inj hstep
      exact h.endtrx hi a
  | releasereadlevels dbmergewrites mergelimit =>
      obtain rfl := Option.some.inj hstep
      have hlev := h.releases (gtrsReleasemergewrites_releases hi.levels_nodup
        dbmergewrites mergelimit 0)
      exact ⟨hlev.sorted, hlev.merge_le⟩

theorem Gtrs.NumbersAbove.step (h : g.NumbersAbove) (hi : GtrsInv cfg g) {op : GtrsOp}
    (hord : op.NumberOrdered cfg g) (hstep : g.step cfg op = some g') : g'.NumbersAbove := by
  cases op with
  | begintrx =>
      obtain rfl := Option.some.inj hstep
      exact h.trxInit hi
  | getnewreadlevel t succp =>
      obtain ⟨-, rfl⟩ := guard_of_eq_some hstep
      exact h.getnewreadlevel t succp
  | readmaxtrxnum t =>
      obtain ⟨-, rfl⟩ := guard_of_eq_some hstep
      exact h.readmaxtrxnum t
  | addtrxreadlevel t =>
      obtain ⟨-, rfl⟩ := guard_of_eq_some hstep
      exact fun u hu => h u hu
  | setcanremovereadlevel t canremove =>
      obtain ⟨-, rfl⟩ := guard_of_eq_some hstep
      exact h.setTrxinfo (b := g.gtrsUsereadlevel) rfl
  | mtablecommit t =>
      obtain ⟨⟨-, hnone⟩, rfl⟩ := guard_of_eq_some hstep
      exact h.setsTrxinfo (@trxMtablecommit_sets cfg g t hnone)
  | beginvalidate t =>
      obtain ⟨⟨-, hnone, -⟩, rfl⟩ := guard_of_eq_some hstep
      exact h.beginvalidate hnone hord
  | endtrx a =>
      obtain rfl := Option.some.inj hstep
      exact h.endtrx hi a
  | releasereadlevels dbmergewrites mergelimit =>
      obtain rfl := Option.some.inj hstep
      have hnum := h.releases (gtrsReleasemergewrites_releases hi.levels_nodup
        dbmergewrites mergelimit 0)
      exact fun u hu => hnum u hu

theorem Gtrs.Reachable.inv (h : Gtrs.Reachable cfg g) : GtrsInv cfg g := by
  induction h with
  | init ctr h => exact gtrsInv_dbeGtrsInit cfg h
  | step h hstep ih => exact ih.step hstep

theorem Gtrs.OrderedReachable.reachable (h : OrderedReachable cfg g) :
    Gtrs.Reachable cfg g := by
  induction h with
  | init ctr h => exact Reachable.init ctr h
  | step h hord hstep ih => exact ih.step hstep

theorem Gtrs.OrderedReachable.stable (h : OrderedReachable cfg g) :
    g.NumbersAbove ∧ g.LevelsInOrder := by
  induction h with
  | init ctr h => exact ⟨numbersAbove_dbeGtrsInit ctr, levelsInOrder_dbeGtrsInit ctr⟩
  | step h hord hstep ih =>
      have hinv := h.reachable.inv
      exact ⟨ih.1.step hinv hord.1 hstep, ih.2.step hinv hord.2 hstep⟩

/-! ## The maximum -/

@[simp] theorem gtrsCtr_gtrsRemovetrxreadlevel (g : Gtrs) (t : ℕ) (commitp : Bool) (n : ℤ) :
    (gtrsRemovetrxreadlevel g t commitp n).1.gtrsCtr = g.gtrsCtr := by
  obtain ⟨at', heq, -⟩ := removeNmergewrites_moves g t commitp n
  simp only [gtrsRemovetrxreadlevel]
  rw [heq]
  rfl

@[simp] theorem gtrsCtr_gtrsRemoveactivetrx (g : Gtrs) (t : ℕ) (commitp iswrites : Bool)
    (n : ℤ) : (gtrsRemoveactivetrx g t commitp iswrites n).1.gtrsCtr = g.gtrsCtr := by
  simp only [gtrsRemoveactivetrx]
  split
  · exact gtrsCtr_gtrsRemovetrxreadlevel _ t commitp n
  · rfl

theorem gtrsCtr_releaseLoop (fuel : ℕ) (g : Gtrs) (prev : Option ℕ) (n : ℤ) :
    (releaseLoop fuel g prev n).1.gtrsCtr = g.gtrsCtr := by
  induction fuel generalizing g prev n with
  | zero => rfl
  | succ fuel ih =>
      rw [releaseLoop]
      split
      · rfl
      · split
        · rfl
        · split
          · rfl
          · rw [ih, gtrsCtr_gtrsRemovetrxreadlevel]

@[simp] theorem gtrsCtr_gtrsReleasemergewrites (g : Gtrs) (dbmergewrites mergelimit n : ℤ) :
    (gtrsReleasemergewrites g dbmergewrites mergelimit n).1.gtrsCtr = g.gtrsCtr := by
  rw [gtrsReleasemergewrites]
  split
  · exact gtrsCtr_releaseLoop _ g none n
  · rfl

@[simp] theorem gtrsCtr_endtrxRemove (g : Gtrs) (a : EndtrxArgs) :
    (endtrxRemove g a).1.gtrsCtr = g.gtrsCtr := by
  simp only [endtrxRemove]
  split
  · rw [gtrsCtr_gtrsReleasemergewrites, gtrsCtr_gtrsRemoveactivetrx]
  · rw [gtrsCtr_gtrsRemoveactivetrx]

theorem ctrMaxtrxnum_dbeGtrsEndtrx (cfg : GtrsCfg) (g : Gtrs) (a : EndtrxArgs) :
    g.gtrsCtr.ctrMaxtrxnum ≤ (dbeGtrsEndtrx cfg g a).1.gtrsCtr.ctrMaxtrxnum := by
  have hmax := (endtrxMax_raises cfg g a).max_le
  rw [← gtrsCtr_endtrxRemove (endtrxMax cfg g a) a] at hmax
  rw [dbeGtrsEndtrx]
  split
  · exact le_refl _
  · simp only []
    split
    · exact hmax
    · split
      · exact hmax
      · change _ ≤ (dbeCounterSetmergetrxnum _ _).ctrMaxtrxnum
        rw [ctrMaxtrxnum_setmergetrxnum]
        exact hmax

theorem Gtrs.ctrMaxtrxnum_le_step {op : GtrsOp} (hstep : g.step cfg op = some g') :
    g.gtrsCtr.ctrMaxtrxnum ≤ g'.gtrsCtr.ctrMaxtrxnum := by
  cases op with
  | begintrx =>
      obtain rfl := Option.some.inj hstep
      rw [trxInit_eq]
  | getnewreadlevel t succp =>
      obtain ⟨-, rfl⟩ := guard_of_eq_some hstep
      cases succp <;> exact le_refl _
  | readmaxtrxnum | addtrxreadlevel | setcanremovereadlevel =>
      obtain ⟨-, rfl⟩ := guard_of_eq_some hstep
      exact le_refl _
  | mtablecommit t =>
      obtain ⟨-, rfl⟩ := guard_of_eq_some hstep
      exact le_of_eq (ctrMaxtrxnum_getnewcommittrxnum _ _).symm
  | beginvalidate t =>
      obtain ⟨-, rfl⟩ := guard_of_eq_some hstep
      simp only [trxBeginvalidate]
      split
      · exact le_of_eq (ctrMaxtrxnum_getnewcommittrxnum _ _).symm
      · exact le_of_eq (ctrMaxtrxnum_getnewcommittrxnum _ _).symm
  | endtrx a =>
      obtain rfl := Option.some.inj hstep
      exact ctrMaxtrxnum_dbeGtrsEndtrx cfg g a
  | releasereadlevels dbmergewrites mergelimit =>
      obtain rfl := Option.some.inj hstep
      refine le_of_eq (congrArg DbeCounter.ctrMaxtrxnum ?_)
      exact (gtrsCtr_gtrsReleasemergewrites g dbmergewrites mergelimit 0).symm

theorem Gtrs.ctrMaxtrxnum_le_run {ops : List GtrsOp} (hrun : g.run cfg ops = some g') :
    g.gtrsCtr.ctrMaxtrxnum ≤ g'.gtrsCtr.ctrMaxtrxnum := by
  induction ops generalizing g with
  | nil =>
      obtain rfl := Option.some.inj hrun
      exact le_refl _
  | cons op ops ih =>
      obtain ⟨g₁, hstep, hrest⟩ := Option.bind_eq_some_iff.mp hrun
      exact (ctrMaxtrxnum_le_step hstep).trans (ih hrest)

/-! ## The result -/

theorem Gtrs.Reachable.run {ops : List GtrsOp} (h : Reachable cfg g)
    (hrun : g.run cfg ops = some g') : Reachable cfg g' := by
  induction ops generalizing g with
  | nil =>
      obtain rfl := Option.some.inj hrun
      exact h
  | cons op ops ih =>
      obtain ⟨g₁, hstep, hrest⟩ := Option.bind_eq_some_iff.mp hrun
      exact ih (h.step hstep) hrest

theorem Gtrs.OrderedReachable.orderedRun {ops : List GtrsOp} (h : OrderedReachable cfg g)
    (hrun : g.orderedRun cfg ops = some g') : OrderedReachable cfg g' := by
  induction ops generalizing g with
  | nil =>
      obtain rfl := Option.some.inj hrun
      exact h
  | cons op ops ih =>
      rw [Gtrs.orderedRun, Option.ite_none_right_eq_some] at hrun
      obtain ⟨g₁, hstep, hrest⟩ := Option.bind_eq_some_iff.mp hrun.2
      exact ih (h.step hrun.1 hstep) hrest

/-- In a run of ordered calls the read levels are stable, and from any of its states on
the maximum never decreases. -/
theorem orderedReachable_stable (h : OrderedReachable cfg g) :
    g.Stable ∧ ∀ ops g', g.run cfg ops = some g' →
      g.gtrsCtr.ctrMaxtrxnum ≤ g'.gtrsCtr.ctrMaxtrxnum :=
  ⟨⟨h.stable.1, fun t ht _ => h.stable.2.merge_le t ht⟩,
    fun _ _ hrun => ctrMaxtrxnum_le_run hrun⟩

/-- Two transactions validate and end in the order opposite to that of their commit
numbers, while a third holds its read level. -/
theorem orderedReachable_stable_two :
    ∃ g, OrderedReachable ⟨false, true, false⟩ g ∧ g.Stable ∧ g.gtrsCtr.ctrMaxtrxnum = 9 ∧
      g.gtrsCtr.ctrMergetrxnum = 7 := by
  have hrun := @OrderedReachable.orderedRun _ _ _
    [.begintrx, .begintrx, .begintrx, .getnewreadlevel 11 true, .getnewreadlevel 12 true,
      .getnewreadlevel 13 true, .beginvalidate 11, .beginvalidate 12,
      .endtrx ⟨12, true, true, 1, true, 0, 100⟩, .endtrx ⟨11, true, true, 1, true, 0, 100⟩]
    (@OrderedReachable.init ⟨false, true, false⟩ ⟨10, 7, 7, 5⟩ (by decide)) rfl
  exact ⟨_, hrun, (orderedReachable_stable hrun).1, rfl, rfl⟩

/-- In a new database the first commit number is the maximum itself. -/
theorem not_stable_new_database :
    ∃ g, Gtrs.Reachable ⟨false, true, false⟩ g ∧ g.Validating 1 ∧
      g.committrxnum 1 = g.gtrsCtr.ctrMaxtrxnum ∧ ¬ g.Stable := by
  have hrun := @Gtrs.Reachable.run _ _ _
    [.begintrx, .getnewreadlevel 1 true, .beginvalidate 1]
    (@Gtrs.Reachable.init ⟨false, true, false⟩ dbeCounterInit (by decide)) rfl
  refine ⟨_, hrun, ⟨List.mem_singleton.mpr rfl, rfl⟩, rfl, fun h => ?_⟩
  exact absurd (h.validating 1 ⟨List.mem_singleton.mpr rfl, rfl⟩) (lt_irrefl 1)

/-! ## Where every run is ordered -/

def Gtrs.Aligned (cfg : GtrsCfg) (g : Gtrs) : Prop :=
  g.gtrsCtr.ctrMaxtrxnum ≤ commitCounter cfg.mergecleanup g.gtrsCtr

theorem Gtrs.Aligned.endtrx (h : g.Aligned cfg) (hi : GtrsInv cfg g) (a : EndtrxArgs) :
    (dbeGtrsEndtrx cfg g a).1.Aligned cfg := by
  have hraise := endtrxMax_raises cfg g a
  have hnum := (hi.raisesMax hraise).number_le
  have haligned : (endtrxMax cfg g a).Aligned cfg := by
    obtain ⟨pre, -, -, m, hmax, hm⟩ := hraise.validate_eq
    rw [Aligned, hmax]
    apply max_le (h.trans hraise.commitCounter_le)
    rcases hm with rfl | ⟨v, -, rfl⟩ | ⟨-, rfl⟩
    · exact Nat.zero_le _
    · exact hnum v
    · exact hnum a.endedTrx
  rw [Aligned, ← gtrsCtr_endtrxRemove (endtrxMax cfg g a) a] at haligned
  rw [dbeGtrsEndtrx]
  split
  · exact h
  · simp only []
    split
    · exact haligned
    · split
      · exact haligned
      · change (dbeCounterSetmergetrxnum _ _).ctrMaxtrxnum ≤
          commitCounter _ (dbeCounterSetmergetrxnum _ _)
        rw [ctrMaxtrxnum_setmergetrxnum, commitCounter_setmergetrxnum]
        exact haligned

theorem Gtrs.Aligned.getnewcommittrxnum (h : g.Aligned cfg) :
    (dbeCounterGetnewcommittrxnum cfg.mergecleanup g.gtrsCtr).2.ctrMaxtrxnum ≤
      commitCounter cfg.mergecleanup
        (dbeCounterGetnewcommittrxnum cfg.mergecleanup g.gtrsCtr).2 := by
  rw [ctrMaxtrxnum_getnewcommittrxnum, commitCounter_getnewcommittrxnum]
  exact Nat.le_succ_of_le h

/-- Once the counter of commit numbers has reached the maximum it stays ahead. -/
theorem Gtrs.Aligned.step (h : g.Aligned cfg) (hi : GtrsInv cfg g) {op : GtrsOp}
    (hstep : g.step cfg op = some g') : g'.Aligned cfg := by
  cases op with
  | begintrx =>
      obtain rfl := Option.some.inj hstep
      rw [trxInit_eq]
      refine h.trans ?_
      rw [commitCounter, commitCounter]
      split
      · exact Nat.le_succ _
      · exact le_refl _
  | getnewreadlevel t succp =>
      obtain ⟨-, rfl⟩ := guard_of_eq_some hstep
      cases succp <;> exact h
  | readmaxtrxnum | addtrxreadlevel | setcanremovereadlevel =>
      obtain ⟨-, rfl⟩ := guard_of_eq_some hstep
      exact h
  | mtablecommit t =>
      obtain ⟨-, rfl⟩ := guard_of_eq_some hstep
      exact h.getnewcommittrxnum
  | beginvalidate t =>
      obtain ⟨-, rfl⟩ := guard_of_eq_some hstep
      simp only [trxBeginvalidate]
      split
      · exact h.getnewcommittrxnum
      · exact h.getnewcommittrxnum
  | endtrx a =>
      obtain rfl := Option.some.inj hstep
      exact h.endtrx hi a
  | releasereadlevels dbmergewrites mergelimit =>
      obtain rfl := Option.some.inj hstep
      have hctr := gtrsCtr_gtrsReleasemergewrites g dbmergewrites mergelimit 0
      rw [Aligned, ← hctr] at h
      exact h

/-- Where the counter of commit numbers starts at the maximum or above it and read levels
are taken inside the gate, every run is ordered. -/
theorem orderedReachable_of_run (hrelaxed : cfg.relaxedreadlevel = true)
    (h : OrderedReachable cfg g) (haligned : g.Aligned cfg) {ops : List GtrsOp}
    (hrun : g.run cfg ops = some g') : OrderedReachable cfg g' := by
  induction ops generalizing g with
  | nil =>
      obtain rfl := Option.some.inj hrun
      exact h
  | cons op ops ih =>
      obtain ⟨g₁, hstep, hrest⟩ := Option.bind_eq_some_iff.mp hrun
      refine ih (h.step ?_ hstep) (haligned.step h.reachable.inv hstep) hrest
      cases op with
      | addtrxreadlevel t =>
          rw [Gtrs.step, hrelaxed, Option.ite_none_right_eq_some] at hstep
          exact Bool.noConfusion hstep.1.1
      | beginvalidate t => exact ⟨fun _ => haligned, trivial⟩
      | begintrx | getnewreadlevel | readmaxtrxnum | setcanremovereadlevel | mtablecommit
      | endtrx | releasereadlevels => exact ⟨trivial, trivial⟩

end SolidDB
