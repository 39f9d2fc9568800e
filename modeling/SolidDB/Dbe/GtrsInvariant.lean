import SolidDB.Dbe.Gtrs
import Mathlib.Data.List.Nodup
import Mathlib.Data.List.Pairwise

/-!
# The invariant of the transaction gate

`GtrsInv` is what every call keeps. The order of the read levels and the place of the
commit numbers above the maximum are apart from it: they depend on the order of the calls.
-/

namespace SolidDB

variable {cfg : GtrsCfg} {g g' g₁ : Gtrs} {t u : ℕ}

namespace Gtrs

def level (g : Gtrs) (t : ℕ) : ℕ := (g.gtrsTrxinfo t).tiMaxtrxnum

def committrxnum (g : Gtrs) (t : ℕ) : ℕ := (g.gtrsTrxinfo t).tiCommittrxnum

def isended (g : Gtrs) (t : ℕ) : Bool := (g.gtrsTrxinfo t).isended

/-- A validation that the gate knows of; the code begins no other one. -/
def Validating (g : Gtrs) (t : ℕ) : Prop :=
  t ∈ g.gtrsActivetrxlist ∧ (g.gtrsAt t).atIsvalidate = true

end Gtrs

open Gtrs

structure GtrsInv (cfg : GtrsCfg) (g : Gtrs) : Prop where
  active_nodup : g.gtrsActivetrxlist.Nodup
  active_le : ∀ t ∈ g.gtrsActivetrxlist, t ≤ g.gtrsCtr.ctrTrxid
  active_open : ∀ t ∈ g.gtrsActivetrxlist, g.isended t = false
  levels_nodup : g.gtrsReadlevellist.Nodup
  levels_active : ∀ t ∈ g.gtrsReadlevellist, t ∈ g.gtrsActivetrxlist
  level_le : ∀ t, g.level t ≤ g.gtrsCtr.ctrMaxtrxnum
  merge_le : g.gtrsCtr.ctrMergetrxnum ≤ g.gtrsCtr.ctrMaxtrxnum
  number_le : ∀ t, g.committrxnum t ≤ commitCounter cfg.mergecleanup g.gtrsCtr
  validate_le : ∀ t ∈ g.gtrsValidatetrxlist, t ≤ g.gtrsCtr.ctrTrxid
  validate_pos : ∀ t ∈ g.gtrsValidatetrxlist, 0 < g.committrxnum t
  validate_sorted :
    g.gtrsValidatetrxlist.Pairwise fun t u => g.committrxnum t < g.committrxnum u
  validating : ∀ t, g.Validating t → t ∈ g.gtrsValidatetrxlist

namespace Gtrs

/-- The read levels stand in ascending order, and the merge number is not above them. -/
structure LevelsInOrder (g : Gtrs) : Prop where
  sorted : g.gtrsReadlevellist.Pairwise fun t u => g.level t ≤ g.level u
  merge_le : ∀ t ∈ g.gtrsReadlevellist, g.gtrsCtr.ctrMergetrxnum ≤ g.level t

/-- The open validations have commit numbers above the maximum. -/
def NumbersAbove (g : Gtrs) : Prop :=
  ∀ t, g.Validating t → g.gtrsCtr.ctrMaxtrxnum < g.committrxnum t

end Gtrs

/-! ## Releasing read levels -/

/-- Read levels are taken from transactions, and nothing else that the invariant speaks
of changes. -/
structure ReleasesLevels (g g' : Gtrs) : Prop where
  ctr_eq : g'.gtrsCtr = g.gtrsCtr
  validate_eq : g'.gtrsValidatetrxlist = g.gtrsValidatetrxlist
  active_eq : g'.gtrsActivetrxlist = g.gtrsActivetrxlist
  usereadlevel_eq : g'.gtrsUsereadlevel = g.gtrsUsereadlevel
  isvalidate_eq : ∀ u, (g'.gtrsAt u).atIsvalidate = (g.gtrsAt u).atIsvalidate
  sublist : g'.gtrsReadlevellist.Sublist g.gtrsReadlevellist
  info : ∀ u, g'.gtrsTrxinfo u = g.gtrsTrxinfo u ∨
    g'.gtrsTrxinfo u = { g.gtrsTrxinfo u with tiMaxtrxnum := 0 }
  kept : ∀ u ∈ g'.gtrsReadlevellist, g'.gtrsTrxinfo u = g.gtrsTrxinfo u

namespace ReleasesLevels

theorem refl (g : Gtrs) : ReleasesLevels g g where
  ctr_eq := rfl
  validate_eq := rfl
  active_eq := rfl
  usereadlevel_eq := rfl
  isvalidate_eq _ := rfl
  sublist := List.Sublist.refl _
  info _ := Or.inl rfl
  kept _ _ := rfl

theorem trans {g'' : Gtrs} (h : ReleasesLevels g g') (h' : ReleasesLevels g' g'') :
    ReleasesLevels g g'' where
  ctr_eq := h'.ctr_eq.trans h.ctr_eq
  validate_eq := h'.validate_eq.trans h.validate_eq
  active_eq := h'.active_eq.trans h.active_eq
  usereadlevel_eq := h'.usereadlevel_eq.trans h.usereadlevel_eq
  isvalidate_eq u := (h'.isvalidate_eq u).trans (h.isvalidate_eq u)
  sublist := h'.sublist.trans h.sublist
  info u := by
    rcases h'.info u with h₂ | h₂
    · rcases h.info u with h₁ | h₁
      · exact Or.inl (h₂.trans h₁)
      · exact Or.inr (h₂.trans h₁)
    · rcases h.info u with h₁ | h₁
      · exact Or.inr (by rw [h₂, h₁])
      · exact Or.inr (by rw [h₂, h₁])
  kept u hu := (h'.kept u hu).trans (h.kept u (h'.sublist.subset hu))

theorem isended_eq (h : ReleasesLevels g g') (u : ℕ) : g'.isended u = g.isended u := by
  rw [Gtrs.isended, Gtrs.isended]
  rcases h.info u with h' | h'
  · rw [h']
  · rw [h']
    rfl

theorem committrxnum_eq (h : ReleasesLevels g g') (u : ℕ) :
    g'.committrxnum u = g.committrxnum u := by
  rw [Gtrs.committrxnum, Gtrs.committrxnum]
  rcases h.info u with h' | h'
  · rw [h']
  · rw [h']

theorem level_le (h : ReleasesLevels g g') (u : ℕ) : g'.level u ≤ g.level u := by
  rw [Gtrs.level, Gtrs.level]
  rcases h.info u with h' | h'
  · rw [h']
  · rw [h']
    exact Nat.zero_le _

theorem level_eq (h : ReleasesLevels g g') (hu : u ∈ g'.gtrsReadlevellist) :
    g'.level u = g.level u := by
  rw [Gtrs.level, Gtrs.level, h.kept u hu]

end ReleasesLevels

def MovesWrites (g g' : Gtrs) : Prop :=
  ∃ at', g' = { g with gtrsAt := at' } ∧
    ∀ u, (at' u).atIsvalidate = (g.gtrsAt u).atIsvalidate

theorem MovesWrites.trans {g'' : Gtrs} (h : MovesWrites g g') (h' : MovesWrites g' g'') :
    MovesWrites g g'' := by
  obtain ⟨a, rfl, ha⟩ := h
  obtain ⟨b, rfl, hb⟩ := h'
  exact ⟨b, rfl, fun u => (hb u).trans (ha u)⟩

theorem movesWrites_setAt {a : Activetrx}
    (ha : a.atIsvalidate = (g.gtrsAt t).atIsvalidate) : MovesWrites g (g.setAt t a) := by
  refine ⟨_, rfl, fun u => ?_⟩
  rw [Function.update_apply]
  split
  · rename_i hut
    rw [ha, hut]
  · rfl

theorem movesWrites_addNmergewrites (g : Gtrs) (t : ℕ) (n : ℤ) :
    MovesWrites g (g.addNmergewrites t n) :=
  movesWrites_setAt rfl

theorem movesWrites_clearNmergewrites (g : Gtrs) (t : ℕ) :
    MovesWrites g (g.clearNmergewrites t) :=
  movesWrites_setAt rfl

theorem removeNmergewrites_moves (g : Gtrs) (t : ℕ) (commitp : Bool) (n : ℤ) :
    MovesWrites g (removeNmergewrites g t commitp n).1 := by
  have hgive : ∀ v m, MovesWrites g (if commitp then
      (((g.addNmergewrites v m).clearNmergewrites t).addNmergewrites v n, (0 : ℤ))
      else ((g.addNmergewrites v m).clearNmergewrites t, n)).1 := by
    intro v m
    have hmove := (movesWrites_addNmergewrites g v m).trans (movesWrites_clearNmergewrites _ t)
    split
    · exact hmove.trans (movesWrites_addNmergewrites _ v n)
    · exact hmove
  simp only [removeNmergewrites]
  split
  · exact hgive _ _
  · split
    · exact movesWrites_clearNmergewrites g t
    · split
      · exact movesWrites_clearNmergewrites g t
      · exact hgive _ _

theorem gtrsRemovetrxreadlevel_releases (hnodup : g.gtrsReadlevellist.Nodup) (t : ℕ)
    (commitp : Bool) (n : ℤ) :
    ReleasesLevels g (gtrsRemovetrxreadlevel g t commitp n).1 := by
  obtain ⟨at', heq, hat⟩ := removeNmergewrites_moves g t commitp n
  simp only [gtrsRemovetrxreadlevel]
  rw [heq]
  refine ⟨rfl, rfl, rfl, rfl, hat, List.erase_sublist, fun u => ?_, fun u hu => ?_⟩
  · by_cases hut : u = t
    · rw [hut]
      exact Or.inr (gtrsTrxinfo_setTrxinfo_self g t _)
    · exact Or.inl (gtrsTrxinfo_setTrxinfo_of_ne g hut _)
  · exact gtrsTrxinfo_setTrxinfo_of_ne g ((List.Nodup.mem_erase_iff hnodup).mp hu).1 _

theorem gtrsRemovetrxreadlevel_list (g : Gtrs) (t : ℕ) (commitp : Bool) (n : ℤ) :
    (gtrsRemovetrxreadlevel g t commitp n).1.gtrsReadlevellist =
      g.gtrsReadlevellist.erase t := by
  obtain ⟨at', heq, hat⟩ := removeNmergewrites_moves g t commitp n
  simp only [gtrsRemovetrxreadlevel]
  rw [heq]
  rfl

theorem releaseLoop_releases (fuel : ℕ) (g : Gtrs) (prev : Option ℕ) (n : ℤ)
    (hnodup : g.gtrsReadlevellist.Nodup) : ReleasesLevels g (releaseLoop fuel g prev n).1 := by
  induction fuel generalizing g prev n with
  | zero => exact ReleasesLevels.refl g
  | succ fuel ih =>
      rw [releaseLoop]
      split
      · exact ReleasesLevels.refl g
      · rename_i t ht
        split
        · exact ReleasesLevels.refl g
        · split
          · exact ReleasesLevels.refl g
          · have hrel := gtrsRemovetrxreadlevel_releases hnodup t false 0
            exact hrel.trans (ih _ _ _ (hrel.sublist.nodup hnodup))

theorem gtrsReleasemergewrites_releases (hnodup : g.gtrsReadlevellist.Nodup)
    (dbmergewrites mergelimit n : ℤ) :
    ReleasesLevels g (gtrsReleasemergewrites g dbmergewrites mergelimit n).1 := by
  rw [gtrsReleasemergewrites]
  split
  · exact releaseLoop_releases _ g none n hnodup
  · exact ReleasesLevels.refl g

theorem GtrsInv.releases (h : GtrsInv cfg g) (hr : ReleasesLevels g g') : GtrsInv cfg g' where
  active_nodup := by
    rw [hr.active_eq]
    exact h.active_nodup
  active_le := by
    rw [hr.active_eq, hr.ctr_eq]
    exact h.active_le
  active_open t ht := by
    rw [hr.active_eq] at ht
    rw [hr.isended_eq]
    exact h.active_open t ht
  levels_nodup := hr.sublist.nodup h.levels_nodup
  levels_active t ht := by
    rw [hr.active_eq]
    exact h.levels_active t (hr.sublist.subset ht)
  level_le t := by
    rw [hr.ctr_eq]
    exact (hr.level_le t).trans (h.level_le t)
  merge_le := by
    rw [hr.ctr_eq]
    exact h.merge_le
  number_le t := by
    rw [hr.committrxnum_eq, hr.ctr_eq]
    exact h.number_le t
  validate_le := by
    rw [hr.validate_eq, hr.ctr_eq]
    exact h.validate_le
  validate_pos t ht := by
    rw [hr.validate_eq] at ht
    rw [hr.committrxnum_eq]
    exact h.validate_pos t ht
  validate_sorted := by
    rw [hr.validate_eq]
    apply h.validate_sorted.imp
    intro t u hlt
    rw [hr.committrxnum_eq, hr.committrxnum_eq]
    exact hlt
  validating t ht := by
    rw [Validating, hr.active_eq, hr.isvalidate_eq] at ht
    rw [hr.validate_eq]
    exact h.validating t ht

theorem Gtrs.LevelsInOrder.releases (h : g.LevelsInOrder) (hr : ReleasesLevels g g') :
    g'.LevelsInOrder where
  sorted := by
    apply (h.sorted.sublist hr.sublist).imp_of_mem
    intro t u ht hu hle
    rw [hr.level_eq ht, hr.level_eq hu]
    exact hle
  merge_le t ht := by
    rw [hr.level_eq ht, hr.ctr_eq]
    exact h.merge_le t (hr.sublist.subset ht)

theorem Gtrs.NumbersAbove.releases (h : g.NumbersAbove) (hr : ReleasesLevels g g') :
    g'.NumbersAbove := by
  intro t ht
  rw [Validating, hr.active_eq, hr.isvalidate_eq] at ht
  rw [hr.ctr_eq, hr.committrxnum_eq]
  exact h t ht

/-! ## Ending a transaction -/

structure SetsTrxinfo (cfg : GtrsCfg) (t : ℕ) (g g' : Gtrs) : Prop where
  validate_eq : g'.gtrsValidatetrxlist = g.gtrsValidatetrxlist
  active_eq : g'.gtrsActivetrxlist = g.gtrsActivetrxlist
  levels_eq : g'.gtrsReadlevellist = g.gtrsReadlevellist
  at_eq : g'.gtrsAt = g.gtrsAt
  max_eq : g'.gtrsCtr.ctrMaxtrxnum = g.gtrsCtr.ctrMaxtrxnum
  merge_eq : g'.gtrsCtr.ctrMergetrxnum = g.gtrsCtr.ctrMergetrxnum
  trxid_le : g.gtrsCtr.ctrTrxid ≤ g'.gtrsCtr.ctrTrxid
  commitCounter_le :
    commitCounter cfg.mergecleanup g.gtrsCtr ≤ commitCounter cfg.mergecleanup g'.gtrsCtr
  info_eq : ∀ u, u ≠ t → g'.gtrsTrxinfo u = g.gtrsTrxinfo u
  level_eq : g'.level t = g.level t
  committrxnum_eq : g.committrxnum t ≠ 0 → g'.committrxnum t = g.committrxnum t
  committrxnum_le : g'.committrxnum t = g.committrxnum t ∨
    g'.committrxnum t ≤ commitCounter cfg.mergecleanup g'.gtrsCtr

theorem setsTrxinfo_setTrxinfo (cfg : GtrsCfg) {ti : Trxinfo}
    (hlevel : ti.tiMaxtrxnum = g.level t) (hnum : ti.tiCommittrxnum = g.committrxnum t) :
    SetsTrxinfo cfg t g (g.setTrxinfo t ti) := by
  have hself := gtrsTrxinfo_setTrxinfo_self g t ti
  have hnum' : (g.setTrxinfo t ti).committrxnum t = g.committrxnum t := by
    rw [← hnum, Gtrs.committrxnum, hself]
  refine ⟨rfl, rfl, rfl, rfl, rfl, rfl, le_refl _, le_refl _, fun u hu => ?_, ?_,
    fun _ => hnum', Or.inl hnum'⟩
  · exact gtrsTrxinfo_setTrxinfo_of_ne g hu ti
  · rw [Gtrs.level, hself, hlevel]

theorem setsTrxinfo_getnewcommittrxnum {ti : Trxinfo} {new : ℕ × DbeCounter}
    (hnew : new = dbeCounterGetnewcommittrxnum cfg.mergecleanup g.gtrsCtr)
    (hlevel : ti.tiMaxtrxnum = g.level t) (hnum : ti.tiCommittrxnum = new.1)
    (hnone : g.committrxnum t = 0) :
    SetsTrxinfo cfg t g ((g.setTrxinfo t ti).setCtr new.2) := by
  have hself := gtrsTrxinfo_setTrxinfo_self g t ti
  subst hnew
  refine ⟨rfl, rfl, rfl, rfl, ctrMaxtrxnum_getnewcommittrxnum _ _,
    ctrMergetrxnum_getnewcommittrxnum _ _, ctrTrxid_le_getnewcommittrxnum _ _, ?_,
    fun u hu => gtrsTrxinfo_setTrxinfo_of_ne g hu ti, ?_, fun h => absurd hnone h, Or.inr ?_⟩
  · change _ ≤ commitCounter _ (dbeCounterGetnewcommittrxnum _ _).2
    rw [commitCounter_getnewcommittrxnum]
    exact Nat.le_succ _
  · change ((g.setTrxinfo t ti).gtrsTrxinfo t).tiMaxtrxnum = _
    rw [hself, hlevel]
  · change ((g.setTrxinfo t ti).gtrsTrxinfo t).tiCommittrxnum ≤
      commitCounter _ (dbeCounterGetnewcommittrxnum _ _).2
    rw [hself, hnum, commitCounter_getnewcommittrxnum, fst_dbeCounterGetnewcommittrxnum]

theorem endtrxSettrxinfo_sets (cfg : GtrsCfg) (g : Gtrs) (a : EndtrxArgs) :
    SetsTrxinfo cfg a.endedTrx g (endtrxSettrxinfo cfg g a) := by
  simp only [endtrxSettrxinfo]
  split
  · exact ⟨rfl, rfl, rfl, rfl, rfl, rfl, le_refl _, le_refl _, fun _ _ => rfl, rfl,
      fun _ => rfl, Or.inl rfl⟩
  · split
    · exact setsTrxinfo_setTrxinfo cfg rfl rfl
    · split
      · rename_i hwrites
        exact setsTrxinfo_getnewcommittrxnum rfl rfl rfl hwrites.2
      · exact setsTrxinfo_setTrxinfo cfg rfl rfl

/-- What the loop takes off the validate list has ended or is the transaction itself, and
its result is the commit number of one of them. -/
theorem endtrxValidatelist_spec (g : Gtrs) (t : ℕ) (list : List ℕ) (n : ℕ) :
    ∃ pre, list = pre ++ (endtrxValidatelist g t list n).1 ∧
      (∀ v ∈ pre, g.isended v = true ∨ v = t) ∧
      ((endtrxValidatelist g t list n).2 = n ∨
        ∃ v ∈ pre, (endtrxValidatelist g t list n).2 = g.committrxnum v) := by
  induction list generalizing n with
  | nil => exact ⟨[], rfl, fun v hv => absurd hv (List.not_mem_nil), Or.inl rfl⟩
  | cons v rest ih =>
      rw [endtrxValidatelist]
      split
      · rename_i hended
        obtain ⟨pre, hpre, hall, hn⟩ := ih (g.gtrsTrxinfo v).tiCommittrxnum
        refine ⟨v :: pre, by rw [List.cons_append, ← hpre], ?_, Or.inr ?_⟩
        · rw [List.forall_mem_cons]
          exact ⟨Or.inl hended, hall⟩
        · rcases hn with hn | ⟨u, hu, hn⟩
          · exact ⟨v, List.mem_cons_self, hn⟩
          · exact ⟨u, List.mem_cons_of_mem v hu, hn⟩
      · split
        · rename_i hself
          obtain ⟨pre, hpre, hall, hn⟩ := ih n
          refine ⟨v :: pre, by rw [List.cons_append, ← hpre], ?_, ?_⟩
          · rw [List.forall_mem_cons]
            exact ⟨Or.inr hself.symm, hall⟩
          · rcases hn with hn | ⟨u, hu, hn⟩
            · exact Or.inl hn
            · exact Or.inr ⟨u, List.mem_cons_of_mem v hu, hn⟩
        · exact ⟨[], rfl, fun v hv => absurd hv (List.not_mem_nil), Or.inl rfl⟩

theorem endtrxSetmaxtrxnum_eq (g : Gtrs) (a : EndtrxArgs) (n : ℕ) :
    ∃ m, endtrxSetmaxtrxnum g a n = g.setCtr (dbeCounterSetmaxtrxnum g.gtrsCtr m) ∧
      (m = n ∨ g.gtrsValidatetrxlist = [] ∧ m = g.committrxnum a.endedTrx) := by
  simp only [endtrxSetmaxtrxnum]
  split
  · rename_i hn
    split
    · rename_i hlist
      exact ⟨_, rfl, Or.inr ⟨hlist.2.2, rfl⟩⟩
    · refine ⟨0, ?_, Or.inl hn.symm⟩
      rw [dbeCounterSetmaxtrxnum, if_neg (Nat.not_lt_zero _), setCtr]
  · exact ⟨n, rfl, Or.inl rfl⟩

def Gtrs.drop (g : Gtrs) (t : ℕ) : Gtrs :=
  { g with
    gtrsActivetrxlist := g.gtrsActivetrxlist.erase t
    gtrsReadlevellist := g.gtrsReadlevellist.erase t }

/-- What `endtrxMax` does: some transactions are taken off the validate list, and the
maximum is raised to a number that none of the others has. -/
structure RaisesMax (cfg : GtrsCfg) (t : ℕ) (g g' : Gtrs) : Prop where
  validate_eq : ∃ pre, g.gtrsValidatetrxlist = pre ++ g'.gtrsValidatetrxlist ∧
    (∀ v ∈ pre, g'.isended v = true ∨ v = t) ∧
    ∃ m, g'.gtrsCtr.ctrMaxtrxnum = max g.gtrsCtr.ctrMaxtrxnum m ∧
      (m = 0 ∨ (∃ v ∈ pre, m = g'.committrxnum v) ∨
        g'.gtrsValidatetrxlist = [] ∧ m = g'.committrxnum t)
  active_eq : g'.gtrsActivetrxlist = g.gtrsActivetrxlist
  levels_eq : g'.gtrsReadlevellist = g.gtrsReadlevellist
  at_eq : g'.gtrsAt = g.gtrsAt
  merge_eq : g'.gtrsCtr.ctrMergetrxnum = g.gtrsCtr.ctrMergetrxnum
  trxid_le : g.gtrsCtr.ctrTrxid ≤ g'.gtrsCtr.ctrTrxid
  commitCounter_le :
    commitCounter cfg.mergecleanup g.gtrsCtr ≤ commitCounter cfg.mergecleanup g'.gtrsCtr
  info_eq : ∀ u, u ≠ t → g'.gtrsTrxinfo u = g.gtrsTrxinfo u
  level_eq : g'.level t = g.level t
  committrxnum_eq : g.committrxnum t ≠ 0 → g'.committrxnum t = g.committrxnum t
  committrxnum_le : g'.committrxnum t = g.committrxnum t ∨
    g'.committrxnum t ≤ commitCounter cfg.mergecleanup g'.gtrsCtr

theorem endtrxMax_raises (cfg : GtrsCfg) (g : Gtrs) (a : EndtrxArgs) :
    RaisesMax cfg a.endedTrx g (endtrxMax cfg g a) := by
  simp only [endtrxMax]
  have hset := endtrxSettrxinfo_sets cfg
    { g with gtrsPendingmergewrites := g.gtrsPendingmergewrites + a.nmergewrites } a
  generalize endtrxSettrxinfo cfg
    { g with gtrsPendingmergewrites := g.gtrsPendingmergewrites + a.nmergewrites } a = g₁
    at hset ⊢
  obtain ⟨pre, hpre, hall, hn⟩ :=
    endtrxValidatelist_spec g₁ a.endedTrx g₁.gtrsValidatetrxlist 0
  generalize endtrxValidatelist g₁ a.endedTrx g₁.gtrsValidatetrxlist 0 = r at hpre hn ⊢
  obtain ⟨m, heq, hm⟩ :=
    endtrxSetmaxtrxnum_eq { g₁ with gtrsValidatetrxlist := r.1 } a r.2
  rw [heq]
  refine ⟨⟨pre, ?_, hall, m, ?_, ?_⟩, hset.active_eq, hset.levels_eq, hset.at_eq, ?_, ?_, ?_,
    hset.info_eq, hset.level_eq, hset.committrxnum_eq, ?_⟩
  · rw [← hset.validate_eq]
    exact hpre
  · change (dbeCounterSetmaxtrxnum g₁.gtrsCtr m).ctrMaxtrxnum = _
    rw [ctrMaxtrxnum_setmaxtrxnum, hset.max_eq]
  · rcases hm with rfl | hm
    · rcases hn with hn | hn
      · exact Or.inl hn
      · exact Or.inr (Or.inl hn)
    · exact Or.inr (Or.inr hm)
  · change (dbeCounterSetmaxtrxnum g₁.gtrsCtr m).ctrMergetrxnum = _
    rw [ctrMergetrxnum_setmaxtrxnum, hset.merge_eq]
  · change _ ≤ (dbeCounterSetmaxtrxnum g₁.gtrsCtr m).ctrTrxid
    rw [ctrTrxid_setmaxtrxnum]
    exact hset.trxid_le
  · change _ ≤ commitCounter _ (dbeCounterSetmaxtrxnum g₁.gtrsCtr m)
    rw [commitCounter_setmaxtrxnum]
    exact hset.commitCounter_le
  · change _ ∨ _ ≤ commitCounter _ (dbeCounterSetmaxtrxnum g₁.gtrsCtr m)
    rw [commitCounter_setmaxtrxnum]
    exact hset.committrxnum_le

namespace RaisesMax

theorem isended_eq (h : RaisesMax cfg t g g') (hu : u ≠ t) : g'.isended u = g.isended u := by
  rw [Gtrs.isended, Gtrs.isended, h.info_eq u hu]

theorem level_eq' (h : RaisesMax cfg t g g') (u : ℕ) : g'.level u = g.level u := by
  by_cases hu : u = t
  · rw [hu, h.level_eq]
  · rw [Gtrs.level, Gtrs.level, h.info_eq u hu]

theorem committrxnum_eq' (h : RaisesMax cfg t g g') (hu : g.committrxnum u ≠ 0) :
    g'.committrxnum u = g.committrxnum u := by
  by_cases hut : u = t
  · rw [hut] at hu ⊢
    exact h.committrxnum_eq hu
  · rw [Gtrs.committrxnum, Gtrs.committrxnum, h.info_eq u hut]

theorem max_le (h : RaisesMax cfg t g g') :
    g.gtrsCtr.ctrMaxtrxnum ≤ g'.gtrsCtr.ctrMaxtrxnum := by
  obtain ⟨pre, -, -, m, hmax, -⟩ := h.validate_eq
  rw [hmax]
  exact le_max_left _ _

theorem mem_validatetrxlist (h : RaisesMax cfg t g g') (hi : GtrsInv cfg g)
    (hv : g.Validating u) (hu : u ≠ t) : u ∈ g'.gtrsValidatetrxlist := by
  obtain ⟨pre, hpre, hall, -⟩ := h.validate_eq
  have hmem := hi.validating u hv
  rw [hpre, List.mem_append] at hmem
  apply hmem.resolve_left
  intro hupre
  rcases hall u hupre with hended | hself
  · rw [h.isended_eq hu, hi.active_open u hv.1] at hended
    exact absurd hended Bool.false_ne_true
  · exact hu hself

/-- The maximum stays below the commit numbers of the other open validations. -/
theorem lt_committrxnum (h : RaisesMax cfg t g g') (hi : GtrsInv cfg g)
    (ha : g.NumbersAbove) (hv : g.Validating u) (hu : u ≠ t) :
    g'.gtrsCtr.ctrMaxtrxnum < g'.committrxnum u := by
  have hrest := h.mem_validatetrxlist hi hv hu
  have hlt := ha u hv
  obtain ⟨pre, hpre, -, m, hmax, hm⟩ := h.validate_eq
  have hnum : g'.committrxnum u = g.committrxnum u := by
    rw [Gtrs.committrxnum, Gtrs.committrxnum, h.info_eq u hu]
  rw [hmax, hnum]
  apply max_lt hlt
  rcases hm with rfl | ⟨v, hv', rfl⟩ | ⟨hnil, -⟩
  · exact Nat.lt_of_le_of_lt (Nat.zero_le _) hlt
  · have hsorted := hi.validate_sorted
    rw [hpre, List.pairwise_append] at hsorted
    have hpos := hi.validate_pos v (by rw [hpre]; exact List.mem_append_left _ hv')
    rw [h.committrxnum_eq' (Nat.ne_of_gt hpos)]
    exact hsorted.2.2 v hv' u hrest
  · rw [hnil] at hrest
    exact absurd hrest List.not_mem_nil

theorem validating_of_drop (h : RaisesMax cfg t g g') (hi : GtrsInv cfg g)
    (hu : (g'.drop t).Validating u) : g.Validating u ∧ u ≠ t := by
  obtain ⟨hact, hval⟩ := hu
  change u ∈ g'.gtrsActivetrxlist.erase t at hact
  change (g'.gtrsAt u).atIsvalidate = true at hval
  rw [h.active_eq, hi.active_nodup.mem_erase_iff] at hact
  rw [h.at_eq] at hval
  exact ⟨⟨hact.2, hval⟩, hact.1⟩

end RaisesMax

/-- Once the ended transaction is off the lists the invariant holds again. -/
theorem GtrsInv.raisesMax (h : GtrsInv cfg g) (hr : RaisesMax cfg t g g') :
    GtrsInv cfg (g'.drop t) where
  active_nodup := by
    change (g'.gtrsActivetrxlist.erase t).Nodup
    rw [hr.active_eq]
    exact h.active_nodup.erase t
  active_le u hu := by
    change u ∈ g'.gtrsActivetrxlist.erase t at hu
    rw [hr.active_eq] at hu
    exact (h.active_le u (List.mem_of_mem_erase hu)).trans hr.trxid_le
  active_open u hu := by
    change u ∈ g'.gtrsActivetrxlist.erase t at hu
    rw [hr.active_eq, h.active_nodup.mem_erase_iff] at hu
    change g'.isended u = false
    rw [hr.isended_eq hu.1]
    exact h.active_open u hu.2
  levels_nodup := by
    change (g'.gtrsReadlevellist.erase t).Nodup
    rw [hr.levels_eq]
    exact h.levels_nodup.erase t
  levels_active u hu := by
    change u ∈ g'.gtrsReadlevellist.erase t at hu
    change u ∈ g'.gtrsActivetrxlist.erase t
    rw [hr.levels_eq, h.levels_nodup.mem_erase_iff] at hu
    rw [hr.active_eq, h.active_nodup.mem_erase_iff]
    exact ⟨hu.1, h.levels_active u hu.2⟩
  level_le u := by
    change g'.level u ≤ _
    rw [hr.level_eq']
    exact (h.level_le u).trans hr.max_le
  merge_le := by
    change g'.gtrsCtr.ctrMergetrxnum ≤ _
    rw [hr.merge_eq]
    exact h.merge_le.trans hr.max_le
  number_le u := by
    change g'.committrxnum u ≤ _
    by_cases hu : u = t
    · rw [hu]
      rcases hr.committrxnum_le with heq | hle
      · rw [heq]
        exact (h.number_le t).trans hr.commitCounter_le
      · exact hle
    · rw [Gtrs.committrxnum, hr.info_eq u hu]
      exact (h.number_le u).trans hr.commitCounter_le
  validate_le u hu := by
    obtain ⟨pre, hpre, -⟩ := hr.validate_eq
    refine (h.validate_le u ?_).trans hr.trxid_le
    rw [hpre]
    exact List.mem_append_right _ hu
  validate_pos u hu := by
    obtain ⟨pre, hpre, -⟩ := hr.validate_eq
    have hpos := h.validate_pos u (by rw [hpre]; exact List.mem_append_right _ hu)
    change 0 < g'.committrxnum u
    rw [hr.committrxnum_eq' (Nat.ne_of_gt hpos)]
    exact hpos
  validate_sorted := by
    obtain ⟨pre, hpre, -⟩ := hr.validate_eq
    have hsorted := h.validate_sorted
    have hpos : ∀ u ∈ g'.gtrsValidatetrxlist, g.committrxnum u ≠ 0 := by
      intro u hu
      apply Nat.ne_of_gt
      apply h.validate_pos u
      rw [hpre]
      exact List.mem_append_right _ hu
    rw [hpre, List.pairwise_append] at hsorted
    apply hsorted.2.1.imp_of_mem
    intro u v hu hv hlt
    change g'.committrxnum u < g'.committrxnum v
    rw [hr.committrxnum_eq' (hpos u hu), hr.committrxnum_eq' (hpos v hv)]
    exact hlt
  validating u hu := by
    obtain ⟨hv, hut⟩ := hr.validating_of_drop h hu
    exact hr.mem_validatetrxlist h hv hut

theorem Gtrs.LevelsInOrder.raisesMax (h : g.LevelsInOrder) (hr : RaisesMax cfg t g g') :
    (g'.drop t).LevelsInOrder where
  sorted := by
    change (g'.gtrsReadlevellist.erase t).Pairwise fun t u => g'.level t ≤ g'.level u
    rw [hr.levels_eq]
    apply (h.sorted.sublist List.erase_sublist).imp
    intro u v hle
    rw [hr.level_eq', hr.level_eq']
    exact hle
  merge_le u hu := by
    change u ∈ g'.gtrsReadlevellist.erase t at hu
    change g'.gtrsCtr.ctrMergetrxnum ≤ g'.level u
    rw [hr.levels_eq] at hu
    rw [hr.level_eq', hr.merge_eq]
    exact h.merge_le u (List.mem_of_mem_erase hu)

theorem Gtrs.NumbersAbove.raisesMax (h : g.NumbersAbove) (hi : GtrsInv cfg g)
    (hr : RaisesMax cfg t g g') : (g'.drop t).NumbersAbove := by
  intro u hu
  obtain ⟨hv, hut⟩ := hr.validating_of_drop hi hu
  exact hr.lt_committrxnum hi h hv hut

theorem endtrxRemove_releases (hnodup : g.gtrsReadlevellist.Nodup) (a : EndtrxArgs) :
    ReleasesLevels (g.drop a.endedTrx) (endtrxRemove g a).1 := by
  have hat : ∀ b u, ((g.setAt a.endedTrx
      { g.gtrsAt a.endedTrx with atIswrites := b }).gtrsAt u).atIsvalidate =
      (g.gtrsAt u).atIsvalidate := by
    intro b u
    by_cases hu : u = a.endedTrx
    · rw [hu, gtrsAt_setAt_self]
    · rw [gtrsAt_setAt_of_ne g hu]
  have hremove : ReleasesLevels (g.drop a.endedTrx)
      (gtrsRemoveactivetrx g a.endedTrx a.commitp a.iswrites a.nmergewrites).1 := by
    simp only [gtrsRemoveactivetrx]
    split
    · have hrel := @gtrsRemovetrxreadlevel_releases
        (g.setAt a.endedTrx { g.gtrsAt a.endedTrx with atIswrites := a.iswrites }) hnodup
        a.endedTrx a.commitp a.nmergewrites
      have herase := gtrsRemovetrxreadlevel_list
        (g.setAt a.endedTrx { g.gtrsAt a.endedTrx with atIswrites := a.iswrites })
        a.endedTrx a.commitp a.nmergewrites
      refine ⟨hrel.ctr_eq, hrel.validate_eq, ?_, hrel.usereadlevel_eq,
        fun u => (hrel.isvalidate_eq u).trans (hat _ u), ?_, hrel.info, hrel.kept⟩
      · exact congrArg (List.erase · a.endedTrx) hrel.active_eq
      · exact herase ▸ List.Sublist.refl _
    · rename_i hnot
      refine ⟨rfl, rfl, rfl, rfl, hat _, ?_, fun u => Or.inl rfl, fun u _ => rfl⟩
      change g.gtrsReadlevellist.Sublist (g.gtrsReadlevellist.erase a.endedTrx)
      rw [List.erase_of_not_mem hnot]
  simp only [endtrxRemove]
  split
  · apply hremove.trans
    apply gtrsReleasemergewrites_releases
    exact hremove.sublist.nodup (hnodup.erase _)
  · exact hremove

theorem GtrsInv.isended_eq_false (h : GtrsInv cfg g) (hu : u ∈ g.gtrsReadlevellist) :
    g.isended u = false :=
  h.active_open u (h.levels_active u hu)

/-- The merge level is the level of the first that holds one, else the maximum. -/
theorem endtrxMergetrxnum_eq (hopen : ∀ u ∈ g.gtrsReadlevellist, g.isended u = false) :
    endtrxMergetrxnum g g.gtrsReadlevellist =
      (g.gtrsReadlevellist.head?.map g.level).getD g.gtrsCtr.ctrMaxtrxnum := by
  generalize g.gtrsReadlevellist = list at hopen ⊢
  cases list with
  | nil => rfl
  | cons v rest =>
      have hv := hopen v List.mem_cons_self
      rw [Gtrs.isended] at hv
      rw [endtrxMergetrxnum, hv, if_neg Bool.false_ne_true]
      rfl

theorem GtrsInv.endtrxMergetrxnum_le (h : GtrsInv cfg g) :
    endtrxMergetrxnum g g.gtrsReadlevellist ≤ g.gtrsCtr.ctrMaxtrxnum := by
  rw [endtrxMergetrxnum_eq fun u hu => h.isended_eq_false hu]
  cases g.gtrsReadlevellist with
  | nil => exact le_refl _
  | cons v rest => exact h.level_le v

theorem Gtrs.LevelsInOrder.endtrxMergetrxnum_le (h : g.LevelsInOrder)
    (hopen : ∀ u ∈ g.gtrsReadlevellist, g.isended u = false) :
    ∀ u ∈ g.gtrsReadlevellist, endtrxMergetrxnum g g.gtrsReadlevellist ≤ g.level u := by
  have hsorted := h.sorted
  rw [endtrxMergetrxnum_eq hopen]
  generalize g.gtrsReadlevellist = list at hsorted ⊢
  cases list with
  | nil => exact fun u hu => absurd hu List.not_mem_nil
  | cons v rest =>
      rw [List.forall_mem_cons]
      exact ⟨le_refl _, fun u hu => (List.pairwise_cons.mp hsorted).1 u hu⟩

theorem GtrsInv.setmergetrxnum (h : GtrsInv cfg g) {n : ℕ}
    (hmax : n ≤ g.gtrsCtr.ctrMaxtrxnum) :
    GtrsInv cfg (g.setCtr (dbeCounterSetmergetrxnum g.gtrsCtr n)) where
  active_nodup := h.active_nodup
  active_le u hu := by
    change u ≤ (dbeCounterSetmergetrxnum g.gtrsCtr n).ctrTrxid
    rw [ctrTrxid_setmergetrxnum]
    exact h.active_le u hu
  active_open := h.active_open
  levels_nodup := h.levels_nodup
  levels_active := h.levels_active
  level_le u := by
    change g.level u ≤ (dbeCounterSetmergetrxnum g.gtrsCtr n).ctrMaxtrxnum
    rw [ctrMaxtrxnum_setmergetrxnum]
    exact h.level_le u
  merge_le := by
    change (dbeCounterSetmergetrxnum g.gtrsCtr n).ctrMergetrxnum ≤
      (dbeCounterSetmergetrxnum g.gtrsCtr n).ctrMaxtrxnum
    rw [ctrMergetrxnum_setmergetrxnum, ctrMaxtrxnum_setmergetrxnum]
    exact max_le h.merge_le hmax
  number_le u := by
    change g.committrxnum u ≤ commitCounter _ (dbeCounterSetmergetrxnum g.gtrsCtr n)
    rw [commitCounter_setmergetrxnum]
    exact h.number_le u
  validate_le u hu := by
    change u ≤ (dbeCounterSetmergetrxnum g.gtrsCtr n).ctrTrxid
    rw [ctrTrxid_setmergetrxnum]
    exact h.validate_le u hu
  validate_pos := h.validate_pos
  validate_sorted := h.validate_sorted
  validating := h.validating

theorem Gtrs.LevelsInOrder.setmergetrxnum (h : g.LevelsInOrder) {n : ℕ}
    (hlevels : ∀ u ∈ g.gtrsReadlevellist, n ≤ g.level u) :
    (g.setCtr (dbeCounterSetmergetrxnum g.gtrsCtr n)).LevelsInOrder where
  sorted := h.sorted
  merge_le u hu := by
    change (dbeCounterSetmergetrxnum g.gtrsCtr n).ctrMergetrxnum ≤ g.level u
    rw [ctrMergetrxnum_setmergetrxnum]
    exact max_le (h.merge_le u hu) (hlevels u hu)

theorem Gtrs.NumbersAbove.setmergetrxnum (h : g.NumbersAbove) (n : ℕ) :
    (g.setCtr (dbeCounterSetmergetrxnum g.gtrsCtr n)).NumbersAbove := by
  intro u hu
  change (dbeCounterSetmergetrxnum g.gtrsCtr n).ctrMaxtrxnum < _
  rw [ctrMaxtrxnum_setmergetrxnum]
  exact h u hu

theorem GtrsInv.setPending (h : GtrsInv cfg g) (n : ℤ) :
    GtrsInv cfg { g with gtrsPendingmergewrites := n } :=
  ⟨h.active_nodup, h.active_le, h.active_open, h.levels_nodup, h.levels_active, h.level_le,
    h.merge_le, h.number_le, h.validate_le, h.validate_pos, h.validate_sorted, h.validating⟩

/-- The three ways in which `dbe_gtrs_endtrx` ends, after the transaction is off the
lists and read levels are released. -/
inductive Endtrx (cfg : GtrsCfg) (g : Gtrs) (t : ℕ) : Gtrs × ℤ × Option ℕ → Prop where
  | inactive (h : t ∉ g.gtrsActivetrxlist) : Endtrx cfg g t (g, 0, none)
  | keep {g₁ g₂ : Gtrs} {n : ℤ} {aborttrxid : Option ℕ} (ht : t ∈ g.gtrsActivetrxlist)
      (hraise : RaisesMax cfg t g g₁) (hrel : ReleasesLevels (g₁.drop t) g₂) (p : ℤ) :
      Endtrx cfg g t ({ g₂ with gtrsPendingmergewrites := p }, n, aborttrxid)
  | raise {g₁ g₂ : Gtrs} {n : ℤ} {aborttrxid : Option ℕ} (ht : t ∈ g.gtrsActivetrxlist)
      (hraise : RaisesMax cfg t g g₁) (hrel : ReleasesLevels (g₁.drop t) g₂) (p : ℤ) :
      Endtrx cfg g t ({ g₂ with gtrsPendingmergewrites := p }.setCtr
        (dbeCounterSetmergetrxnum g₂.gtrsCtr (endtrxMergetrxnum g₂ g₂.gtrsReadlevellist)),
        n, aborttrxid)

theorem dbeGtrsEndtrx_cases (h : g.gtrsReadlevellist.Nodup) (a : EndtrxArgs) :
    Endtrx cfg g a.endedTrx (dbeGtrsEndtrx cfg g a) := by
  rw [dbeGtrsEndtrx]
  split
  · rename_i ht
    exact Endtrx.inactive ht
  · rename_i ht
    rw [not_not] at ht
    have hraise := endtrxMax_raises cfg g a
    generalize endtrxMax cfg g a = g₁ at hraise ⊢
    have hrel : ReleasesLevels (g₁.drop a.endedTrx) (endtrxRemove g₁ a).1 := by
      apply endtrxRemove_releases
      rw [hraise.levels_eq]
      exact h
    generalize endtrxRemove g₁ a = r at hrel ⊢
    simp only []
    split
    · exact Endtrx.keep ht hraise hrel _
    · split
      · exact Endtrx.keep ht hraise hrel _
      · exact Endtrx.raise ht hraise hrel _

theorem GtrsInv.endtrx (h : GtrsInv cfg g) (a : EndtrxArgs) :
    GtrsInv cfg (dbeGtrsEndtrx cfg g a).1 := by
  have hcases := @dbeGtrsEndtrx_cases cfg g h.levels_nodup a
  generalize dbeGtrsEndtrx cfg g a = o at hcases ⊢
  cases hcases with
  | inactive ht => exact h
  | keep ht hraise hrel p => exact ((h.raisesMax hraise).releases hrel).setPending p
  | raise ht hraise hrel p =>
      have hinv := (h.raisesMax hraise).releases hrel
      exact (hinv.setPending p).setmergetrxnum hinv.endtrxMergetrxnum_le

theorem Gtrs.LevelsInOrder.endtrx (h : g.LevelsInOrder) (hi : GtrsInv cfg g)
    (a : EndtrxArgs) : (dbeGtrsEndtrx cfg g a).1.LevelsInOrder := by
  have hcases := @dbeGtrsEndtrx_cases cfg g hi.levels_nodup a
  generalize dbeGtrsEndtrx cfg g a = o at hcases ⊢
  cases hcases with
  | inactive ht => exact h
  | keep ht hraise hrel p =>
      have hlev := (h.raisesMax hraise).releases hrel
      exact ⟨hlev.sorted, hlev.merge_le⟩
  | @raise g₁ g₂ n aborttrxid ht hraise hrel p =>
      have hinv := (hi.raisesMax hraise).releases hrel
      have hlev := (h.raisesMax hraise).releases hrel
      have hle := hlev.endtrxMergetrxnum_le fun u hu => hinv.isended_eq_false hu
      have hpend : { g₂ with gtrsPendingmergewrites := p }.LevelsInOrder :=
        ⟨hlev.sorted, hlev.merge_le⟩
      exact hpend.setmergetrxnum hle

theorem Gtrs.NumbersAbove.endtrx (h : g.NumbersAbove) (hi : GtrsInv cfg g)
    (a : EndtrxArgs) : (dbeGtrsEndtrx cfg g a).1.NumbersAbove := by
  have hcases := @dbeGtrsEndtrx_cases cfg g hi.levels_nodup a
  generalize dbeGtrsEndtrx cfg g a = o at hcases ⊢
  cases hcases with
  | inactive ht => exact h
  | @keep g₁ g₂ n aborttrxid ht hraise hrel p =>
      have hnum : g₂.NumbersAbove := (h.raisesMax hi hraise).releases hrel
      exact fun u hu => hnum u hu
  | @raise g₁ g₂ n aborttrxid ht hraise hrel p =>
      have hnum : g₂.NumbersAbove := (h.raisesMax hi hraise).releases hrel
      have hpend : { g₂ with gtrsPendingmergewrites := p }.NumbersAbove :=
        fun u hu => hnum u hu
      exact hpend.setmergetrxnum _

end SolidDB
