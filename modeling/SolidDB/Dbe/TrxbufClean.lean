import SolidDB.Dbe.TrxbufFind

/-!
# Cleaning the transaction buffer keeps the fate of every key

Each step of a transaction and of a merge keeps `GobjInv` and `MergeInv`. Two places of
the source are left out by `GobjOp.Ordered`. A statement that is aborted while a merge
runs gets the current commit number as the number of its abort, which is not above the
abort id of the merge when no id has been taken since the merge started; and in the other
mode a transaction of a new database can commit at the maximum.
-/

namespace SolidDB

open Gtrs

variable {cfg : GtrsCfg} {s s' : Gobj} {m : Indmerge} {g : Gtrs} {t x y : ℕ}

/-! ## Calls of the gate -/

theorem gateTrxbuf_eq (cfg : GtrsCfg) (s : Gobj) (op : GtrsOp) :
    ∃ a, s.gateTrxbuf cfg op = { s.goTrxbuf with tbAborttrxid := a } := by
  cases op with
  | endtrx a =>
      rw [Gobj.gateTrxbuf]
      split
      · rename_i aborttrxid heq
        rw [dbeTrxbufSetaborttrxid]
        split
        · exact ⟨s.goTrxbuf.tbAborttrxid, rfl⟩
        · exact ⟨aborttrxid, rfl⟩
      · exact ⟨s.goTrxbuf.tbAborttrxid, rfl⟩
  | begintrx => exact ⟨s.goTrxbuf.tbAborttrxid, rfl⟩
  | getnewreadlevel t succp => exact ⟨s.goTrxbuf.tbAborttrxid, rfl⟩
  | readmaxtrxnum t => exact ⟨s.goTrxbuf.tbAborttrxid, rfl⟩
  | addtrxreadlevel t => exact ⟨s.goTrxbuf.tbAborttrxid, rfl⟩
  | setcanremovereadlevel t canremove => exact ⟨s.goTrxbuf.tbAborttrxid, rfl⟩
  | mtablecommit t => exact ⟨s.goTrxbuf.tbAborttrxid, rfl⟩
  | beginvalidate t => exact ⟨s.goTrxbuf.tbAborttrxid, rfl⟩
  | releasereadlevels dbmergewrites mergelimit => exact ⟨s.goTrxbuf.tbAborttrxid, rfl⟩

def Gobj.setGate (s : Gobj) (g : Gtrs) (aborttrxid : ℕ) : Gobj :=
  { s with goGtrs := g, goTrxbuf := { s.goTrxbuf with tbAborttrxid := aborttrxid } }

section Gate

variable {op : GtrsOp} {a : ℕ}

theorem GobjInv.lost_setGate (h : GobjInv cfg s) (hstep : s.goGtrs.step cfg op = some g)
    (hx : x ≤ s.goGtrs.gtrsCtr.ctrTrxid) (hlost : s.Lost cfg x) :
    (s.setGate g a).Lost cfg x := by
  have htrxinfo := trxinfoStep h.gate hstep ((h.owner_le x).trans hx)
  have hstate : s.goGtrs.isended (s.goOwner x) = true →
      (g.gtrsTrxinfo (s.goOwner x)).tiState =
        (s.goGtrs.gtrsTrxinfo (s.goOwner x)).tiState :=
    fun hended => (htrxinfo.sameFate h.gate hended).state_eq
  rw [Gobj.Lost] at hlost ⊢
  split at hlost
  · rename_i hmode
    rw [if_pos hmode]
    refine ⟨?_, hlost.2⟩
    rw [← hlost.1]
    apply hstate
    rw [Gtrs.isended, Trxinfo.isended, hlost.1]
    rfl
  · rename_i hmode
    rw [if_neg hmode]
    rcases hlost with habort | hmem
    · refine Or.inl ?_
      rw [← habort]
      apply hstate
      rw [Gtrs.isended, Trxinfo.isended, habort]
      rfl
    · exact Or.inr hmem

theorem GobjInv.setGate (h : GobjInv cfg s) (hstep : s.goGtrs.step cfg op = some g)
    (hord : cfg.mergecleanup = false → op.NumberOrdered cfg s.goGtrs) :
    GobjInv cfg (s.setGate g a) where
  gate := h.gate.step hstep
  numbers hmode := (h.numbers hmode).step h.gate (hord hmode) hstep
  mode := h.mode
  unique := h.unique
  added := h.added
  added_le x hx := (h.added_le x hx).trans (ctrTrxid_le_step h.gate hstep)
  aborted_added := h.aborted_added
  owner_le := h.owner_le
  active_user t ht := by
    change (g.gtrsTrxinfo t).tiUsertrxid = t
    rcases mem_gtrsActivetrxlist_step h.gate hstep ht with hact | ⟨-, huser⟩
    · rw [(trxinfoStep h.gate hstep (h.gate.active_le t hact)).user_eq]
      exact h.active_user t hact
    · exact huser
  entry := h.entry
  open_entry x hx hnot hact := by
    refine h.open_entry x hx hnot ?_
    rcases mem_gtrsActivetrxlist_step h.gate hstep hact with hact | ⟨hlt, -⟩
    · exact hact
    · exact absurd hlt (not_lt.mpr ((h.owner_le x).trans (h.added_le x hx)))
  key_added := h.key_added
  key_user k hk := by
    have hle := (h.owner_le k.keyTrxid).trans (h.key_le hk)
    exact (trxinfoStep h.gate hstep hle).user_eq.trans (h.key_user k hk)
  key_mtable k hk hended := by
    have hle := (h.owner_le k.keyTrxid).trans (h.key_le hk)
    change g.isended (s.goOwner k.keyTrxid) = true at hended
    change (g.gtrsTrxinfo (s.goOwner k.keyTrxid)).tiMtabletrx = false
    cases trxinfoStep h.gate hstep hle with
    | kept hfate =>
        rw [hfate.mtable_eq]
        apply h.key_mtable k hk
        rw [Gtrs.isended, ← hfate.isended_eq]
        exact hended
    | opened hact hopen huser =>
        rw [hopen] at hended
        exact absurd hended Bool.false_ne_true
    | committed a hop ha hcommitp hact hfate => exact hfate.mtable_eq
    | aborted hact hstate hmtable huser => exact hmtable
  key_lost k hk hfind := h.lost_setGate hstep (h.key_le hk) (h.key_lost k hk hfind)

theorem MergeInv.setGate (hm : MergeInv cfg s m) (h : GobjInv cfg s)
    (hcall : s.MayCall op) (hstep : s.goGtrs.step cfg op = some g) :
    MergeInv cfg (s.setGate g a) m where
  patch_le := hm.patch_le.trans (ctrMaxtrxnum_le_step hstep)
  abort_le hmode := (hm.abort_le hmode).trans (ctrTrxid_le_step h.gate hstep)
  active hmode t ht := by
    rcases mem_gtrsActivetrxlist_step h.gate hstep ht with hact | ⟨hlt, -⟩
    · exact hm.active hmode t hact
    · exact Or.inr (Nat.lt_of_le_of_lt (hm.abort_le hmode) hlt)
  met_abort hmode k hk hmet ts hts := by
    have hentry := h.entry _ ts hts
    have hold := hm.met_abort hmode k hk hmet ts hts
    generalize ts.tsTrxinfo = ref at hentry hold ⊢
    cases ref with
    | stmt ti => exact hold
    | trx t =>
        obtain ⟨rfl, -⟩ := hentry
        change (s.goGtrs.gtrsTrxinfo (s.goOwner k.keyTrxid)).tiState = .abort → _ at hold
        change (g.gtrsTrxinfo (s.goOwner k.keyTrxid)).tiState = .abort →
          dbeTrxbufIsopentrx m.imOpentrxinfo
            (g.gtrsTrxinfo (s.goOwner k.keyTrxid)).tiUsertrxid = true ∨
          m.imAborttrxid < k.keyTrxid ∨
          m.imAborttrxid < (g.gtrsTrxinfo (s.goOwner k.keyTrxid)).tiCommittrxnum
        intro habort
        have hle := (h.owner_le k.keyTrxid).trans (h.key_le hk)
        cases trxinfoStep h.gate hstep hle with
        | kept hfate =>
            rw [hfate.user_eq, hfate.number_eq]
            apply hold
            rw [← hfate.state_eq]
            exact habort
        | opened hact hopen huser =>
            rw [Gtrs.isended, Trxinfo.isended, habort] at hopen
            exact absurd hopen.symm Bool.false_ne_true
        | committed a hop ha hcommitp hact hfate =>
            rw [hfate.state_eq] at habort
            exact TrxState.noConfusion habort
        | aborted hact hstate hmtable huser =>
            rw [huser, h.active_user _ hact]
            rcases hm.active hmode _ hact with hopen | hlt
            · exact Or.inl hopen
            · exact Or.inr (Or.inl (Nat.lt_of_lt_of_le hlt (h.owner_le k.keyTrxid)))
  met_commit hmode k hk hmet ts hts := by
    have hentry := h.entry _ ts hts
    have hold := hm.met_commit hmode k hk hmet ts hts
    generalize ts.tsTrxinfo = ref at hentry hold ⊢
    cases ref with
    | stmt ti => exact hold
    | trx t =>
        obtain ⟨rfl, -⟩ := hentry
        change (s.goGtrs.gtrsTrxinfo (s.goOwner k.keyTrxid)).tiState = .commit → _ at hold
        change (g.gtrsTrxinfo (s.goOwner k.keyTrxid)).tiState = .commit →
          m.imPatchtrxnum < (g.gtrsTrxinfo (s.goOwner k.keyTrxid)).tiCommittrxnum
        intro hcommit
        have hle := (h.owner_le k.keyTrxid).trans (h.key_le hk)
        cases trxinfoStep h.gate hstep hle with
        | kept hfate =>
            rw [hfate.number_eq]
            apply hold
            rw [← hfate.state_eq]
            exact hcommit
        | opened hact hopen huser =>
            rw [Gtrs.isended, Trxinfo.isended, hcommit] at hopen
            exact absurd hopen.symm Bool.false_ne_true
        | committed a hop ha hcommitp hact hfate =>
            -- the transaction was listed under validation, above the maximum
            subst hop
            have hval := hcall hcommitp ⟨k, hk, ha.symm⟩
            rw [ha] at hval
            rw [hfate.number_eq]
            exact Nat.lt_of_le_of_lt hm.patch_le (h.numbers hmode _ hval)
        | aborted hact hstate hmtable huser =>
            rw [hstate] at hcommit
            exact TrxState.noConfusion hcommit

end Gate

/-! ## Statements -/

theorem GtrsInv.getnewtrxid (h : GtrsInv cfg g) :
    GtrsInv cfg (g.setCtr (dbeCounterGetnewtrxid g.gtrsCtr).2) where
  active_nodup := h.active_nodup
  active_le t ht := (h.active_le t ht).trans (Nat.le_succ _)
  active_open := h.active_open
  levels_nodup := h.levels_nodup
  levels_active := h.levels_active
  level_le := h.level_le
  merge_le := h.merge_le
  number_le t := by
    refine (h.number_le t).trans ?_
    rw [commitCounter, commitCounter]
    split
    · exact Nat.le_succ _
    · exact le_refl _
  validate_le t ht := (h.validate_le t ht).trans (Nat.le_succ _)
  validate_pos := h.validate_pos
  validate_sorted := h.validate_sorted
  validating := h.validating

theorem goOwner_stmtbegin (hx : x ≤ s.goGtrs.gtrsCtr.ctrTrxid) :
    (s.stmtbegin t).goOwner x = s.goOwner x := by
  have hne : x ≠ (dbeCounterGetnewtrxid s.goGtrs.gtrsCtr).1 := ne_of_le_ctrTrxid hx
  simp only [Gobj.stmtbegin]
  rw [Function.update_of_ne hne]

theorem GobjInv.find_added (h : GobjInv cfg s) {ts : Trxstmt}
    (hts : trxbufFind s.goTrxbuf x = some ts) : ts.tsStmttrxid = x ∧ x ∈ s.goAdded := by
  have hid : ts.tsStmttrxid = x := by
    simpa using List.find?_some hts
  exact ⟨hid, hid ▸ h.added _ ts (List.mem_of_find?_eq_some hts)⟩

theorem GobjInv.stmtbegin (h : GobjInv cfg s) (ht : t ∈ s.goGtrs.gtrsActivetrxlist) :
    GobjInv cfg (s.stmtbegin t) where
  gate := h.gate.getnewtrxid
  numbers := h.numbers
  mode := h.mode
  unique := h.unique
  added := h.added
  added_le x hx := (h.added_le x hx).trans (Nat.le_succ _)
  aborted_added := h.aborted_added
  owner_le x := by
    change Function.update s.goOwner (s.goGtrs.gtrsCtr.ctrTrxid + 1) t x ≤ x
    rw [Function.update_apply]
    split
    · rename_i hx
      rw [hx]
      exact (h.gate.active_le t ht).trans (Nat.le_succ _)
    · exact h.owner_le x
  active_user := h.active_user
  entry x ts hts := by
    have hentry := h.entry x ts hts
    have hle := h.added_le x (h.find_added hts).2
    generalize ts.tsTrxinfo = ref at hentry ⊢
    cases ref with
    | trx u => exact ⟨hentry.1.trans (goOwner_stmtbegin hle).symm, hentry.2⟩
    | stmt ti => exact hentry
  open_entry x hx hnot hact := by
    rw [goOwner_stmtbegin (h.added_le x hx)] at hact
    exact h.open_entry x hx hnot hact
  key_added := h.key_added
  key_user k hk := by
    rw [goOwner_stmtbegin (h.key_le hk)]
    exact h.key_user k hk
  key_mtable k hk := by
    rw [goOwner_stmtbegin (h.key_le hk)]
    exact h.key_mtable k hk
  key_lost k hk hfind := by
    rw [Gobj.Lost, Gobj.Committed, Gobj.Aborted, goOwner_stmtbegin (h.key_le hk)]
    exact h.key_lost k hk hfind

theorem MergeInv.stmtbegin (hm : MergeInv cfg s m) (t : ℕ) :
    MergeInv cfg (s.stmtbegin t) m where
  patch_le := hm.patch_le
  abort_le hmode := (hm.abort_le hmode).trans (Nat.le_succ _)
  active := hm.active
  met_abort := hm.met_abort
  met_commit := hm.met_commit

/-- `dbe_trxbuf_addstmt` for an id that has been given out. -/
def Gobj.addstmt (s : Gobj) (x : ℕ) : Gobj :=
  { s with
    goTrxbuf := dbeTrxbufAddstmt s.goTrxbuf x (.trx (s.goOwner x))
    goAdded := x :: s.goAdded }

theorem GobjInv.addstmt (h : GobjInv cfg s) (hle : x ≤ s.goGtrs.gtrsCtr.ctrTrxid)
    (hnot : x ∉ s.goAdded) : GobjInv cfg (s.addstmt x) where
  gate := h.gate
  numbers := h.numbers
  mode := h.mode
  unique i := by
    change ((Function.update s.goTrxbuf.tbTbslottable (trxbufGetbufslot s.goTrxbuf x)
      (_ :: _) i).map Trxstmt.tsStmttrxid).Nodup
    rw [Function.update_apply]
    split
    · rw [List.map_cons, List.nodup_cons]
      refine ⟨fun hmem => hnot ?_, h.unique _⟩
      obtain ⟨ts, hts, heq⟩ := List.mem_map.mp hmem
      have hid : ts.tsStmttrxid = x := heq
      exact hid ▸ h.added _ ts hts
    · exact h.unique i
  added i ts hts := by
    change ts ∈ Function.update s.goTrxbuf.tbTbslottable (trxbufGetbufslot s.goTrxbuf x)
      (_ :: _) i at hts
    rw [Function.update_apply] at hts
    split at hts
    · rcases List.mem_cons.mp hts with rfl | hts
      · exact List.mem_cons_self
      · exact List.mem_cons_of_mem _ (h.added _ ts hts)
    · exact List.mem_cons_of_mem _ (h.added i ts hts)
  added_le y hy := by
    rcases List.mem_cons.mp hy with rfl | hy
    · exact hle
    · exact h.added_le y hy
  aborted_added y hy := List.mem_cons_of_mem _ (h.aborted_added y hy)
  owner_le := h.owner_le
  active_user := h.active_user
  entry y ts hts := by
    by_cases hy : y = x
    · subst hy
      change trxbufFind (dbeTrxbufAddstmt s.goTrxbuf y _) y = some ts at hts
      rw [trxbufFind_addstmt_self] at hts
      obtain rfl := Option.some.inj hts
      exact ⟨rfl, fun hmem => hnot (h.aborted_added y hmem)⟩
    · change trxbufFind (dbeTrxbufAddstmt s.goTrxbuf x _) y = some ts at hts
      rw [trxbufFind_addstmt_of_ne hy] at hts
      exact h.entry y ts hts
  open_entry y hy hopen hact := by
    change trxbufFind (dbeTrxbufAddstmt s.goTrxbuf x _) y ≠ none
    by_cases hyx : y = x
    · subst hyx
      rw [trxbufFind_addstmt_self]
      exact Option.some_ne_none _
    · rw [trxbufFind_addstmt_of_ne hyx]
      exact h.open_entry y ((List.mem_cons.mp hy).resolve_left hyx) hopen hact
  key_added k hk := List.mem_cons_of_mem _ (h.key_added k hk)
  key_user := h.key_user
  key_mtable := h.key_mtable
  key_lost k hk hfind := by
    have hne : k.keyTrxid ≠ x := fun heq => hnot (heq ▸ h.key_added k hk)
    change trxbufFind (dbeTrxbufAddstmt s.goTrxbuf x _) k.keyTrxid = none at hfind
    rw [trxbufFind_addstmt_of_ne hne] at hfind
    exact h.key_lost k hk hfind

theorem MergeInv.addstmt (hm : MergeInv cfg s m) (h : GobjInv cfg s) (hnot : x ∉ s.goAdded) :
    MergeInv cfg (s.addstmt x) m := by
  have hfind : ∀ k ∈ s.goKeys, trxbufFind (s.addstmt x).goTrxbuf k.keyTrxid =
      trxbufFind s.goTrxbuf k.keyTrxid :=
    fun k hk => trxbufFind_addstmt_of_ne
      (fun heq : k.keyTrxid = x => hnot (heq ▸ h.key_added k hk)) _
  refine ⟨hm.patch_le, hm.abort_le, hm.active, fun hmode k hk hmet ts hts => ?_,
    fun hmode k hk hmet ts hts => ?_⟩
  · rw [hfind k hk] at hts
    exact hm.met_abort hmode k hk hmet ts hts
  · rw [hfind k hk] at hts
    exact hm.met_commit hmode k hk hmet ts hts

/-- `dbe_trxbuf_abortstmt` with the last commit number. -/
def Gobj.abortstmt (s : Gobj) (x : ℕ) : Gobj :=
  { s with
    goTrxbuf := dbeTrxbufAbortstmt s.goTrxbuf (dbeCounterGetcommittrxnum s.goGtrs.gtrsCtr) x
    goAborted := x :: s.goAborted }

theorem GobjInv.abortstmt (h : GobjInv cfg s) (hadded : x ∈ s.goAdded)
    (hact : s.goOwner x ∈ s.goGtrs.gtrsActivetrxlist) : GobjInv cfg (s.abortstmt x) where
  gate := h.gate
  numbers := h.numbers
  mode := h.mode
  unique i := by
    change ((Function.update s.goTrxbuf.tbTbslottable (trxbufGetbufslot s.goTrxbuf x)
      (trxstmtSettrxinfo _ _ _) i).map Trxstmt.tsStmttrxid).Nodup
    rw [Function.update_apply]
    split
    · rw [map_trxstmtSettrxinfo]
      exact h.unique _
    · exact h.unique i
  added i ts hts := by
    change ts ∈ Function.update s.goTrxbuf.tbTbslottable (trxbufGetbufslot s.goTrxbuf x)
      (trxstmtSettrxinfo _ _ _) i at hts
    rw [Function.update_apply] at hts
    split at hts
    · have hmem := List.mem_map_of_mem (f := Trxstmt.tsStmttrxid) hts
      rw [map_trxstmtSettrxinfo] at hmem
      obtain ⟨ts', hts', heq⟩ := List.mem_map.mp hmem
      exact heq ▸ h.added _ ts' hts'
    · exact h.added i ts hts
  added_le := h.added_le
  aborted_added y hy := by
    rcases List.mem_cons.mp hy with rfl | hy
    · exact hadded
    · exact h.aborted_added y hy
  owner_le := h.owner_le
  active_user := h.active_user
  entry y ts hts := by
    change trxbufFind (dbeTrxbufAbortstmt s.goTrxbuf _ x) y = some ts at hts
    by_cases hy : y = x
    · subst hy
      rw [trxbufFind_abortstmt_self] at hts
      obtain ⟨ts', -, rfl⟩ := Option.map_eq_some_iff.mp hts
      exact ⟨List.mem_cons_self, _, rfl⟩
    · rw [trxbufFind_abortstmt_of_ne hy] at hts
      have hentry := h.entry y ts hts
      generalize ts.tsTrxinfo = ref at hentry ⊢
      cases ref with
      | trx t =>
          refine ⟨hentry.1, fun hmem => ?_⟩
          exact hentry.2 ((List.mem_cons.mp hmem).resolve_left hy)
      | stmt ti => exact ⟨List.mem_cons_of_mem _ hentry.1, hentry.2⟩
  open_entry y hy hopen hact' := by
    change trxbufFind (dbeTrxbufAbortstmt s.goTrxbuf _ x) y ≠ none
    have hyx : y ≠ x := fun heq => hopen (heq ▸ List.mem_cons_self)
    rw [trxbufFind_abortstmt_of_ne hyx]
    exact h.open_entry y hy (fun hmem => hopen (List.mem_cons_of_mem _ hmem)) hact'
  key_added := h.key_added
  key_user := h.key_user
  key_mtable := h.key_mtable
  key_lost k hk hfind := by
    change trxbufFind (dbeTrxbufAbortstmt s.goTrxbuf _ x) k.keyTrxid = none at hfind
    have hold : trxbufFind s.goTrxbuf k.keyTrxid = none := by
      by_cases hkx : k.keyTrxid = x
      · rw [hkx, trxbufFind_abortstmt_self, Option.map_eq_none_iff] at hfind
        rw [hkx, hfind]
      · rw [trxbufFind_abortstmt_of_ne hkx] at hfind
        exact hfind
    have hlost := h.key_lost k hk hold
    rw [Gobj.Lost] at hlost ⊢
    split at hlost
    · rename_i hmode
      rw [if_pos hmode]
      refine ⟨hlost.1, fun hmem => ?_⟩
      rcases List.mem_cons.mp hmem with heq | hmem
      · -- the transaction of an aborted statement has not ended
        have hopen := h.gate.active_open _ hact
        rw [← heq, Gtrs.isended, Trxinfo.isended, hlost.1] at hopen
        exact absurd hopen.symm Bool.false_ne_true
      · exact hlost.2 hmem
    · rename_i hmode
      rw [if_neg hmode]
      exact hlost.imp id (List.mem_cons_of_mem x)

/-- While a merge runs a statement may be aborted if a commit number has been taken since the
merge started, or the merge has all keys of the statement before it. -/
def Gobj.MayAbort (s : Gobj) (m : Indmerge) (x : ℕ) : Prop :=
  m.imAborttrxid < dbeCounterGetcommittrxnum s.goGtrs.gtrsCtr ∨
    dbeTrxbufIsopentrx m.imOpentrxinfo x = true ∨
    ∀ k ∈ s.goKeys, k.keyTrxid = x → k ∈ m.imUnmet

theorem MergeInv.abortstmt (hm : MergeInv cfg s m)
    (hmay : cfg.mergecleanup = true → s.MayAbort m x) :
    MergeInv cfg (s.abortstmt x) m := by
  refine ⟨hm.patch_le, hm.abort_le, hm.active, fun hmode k hk hmet ts hts => ?_,
    fun hmode k hk hmet ts hts => ?_⟩
  · change trxbufFind (dbeTrxbufAbortstmt s.goTrxbuf _ x) k.keyTrxid = some ts at hts
    by_cases hkx : k.keyTrxid = x
    · rw [hkx, trxbufFind_abortstmt_self] at hts
      obtain ⟨ts', -, rfl⟩ := Option.map_eq_some_iff.mp hts
      intro _
      rcases hmay hmode with hlt | hopen | hunmet
      · exact Or.inr (Or.inr hlt)
      · exact Or.inl hopen
      · exact absurd (hunmet k hk hkx) hmet
    · rw [trxbufFind_abortstmt_of_ne hkx] at hts
      exact hm.met_abort hmode k hk hmet ts hts
  · change trxbufFind (dbeTrxbufAbortstmt s.goTrxbuf _ x) k.keyTrxid = some ts at hts
    by_cases hkx : k.keyTrxid = x
    · rw [hkx, trxbufFind_abortstmt_self] at hts
      obtain ⟨ts', -, rfl⟩ := Option.map_eq_some_iff.mp hts
      exact fun hcommit => TrxState.noConfusion hcommit
    · rw [trxbufFind_abortstmt_of_ne hkx] at hts
      exact hm.met_commit hmode k hk hmet ts hts

/-! ## Keys and merges -/

theorem GobjInv.insertkey (h : GobjInv cfg s) {k : IndexKey} (hadded : k.keyTrxid ∈ s.goAdded)
    (hopen : k.keyTrxid ∉ s.goAborted)
    (hact : s.goOwner k.keyTrxid ∈ s.goGtrs.gtrsActivetrxlist) :
    GobjInv cfg { s with goKeys := k :: s.goKeys } where
  gate := h.gate
  numbers := h.numbers
  mode := h.mode
  unique := h.unique
  added := h.added
  added_le := h.added_le
  aborted_added := h.aborted_added
  owner_le := h.owner_le
  active_user := h.active_user
  entry := h.entry
  open_entry := h.open_entry
  key_added := List.forall_mem_cons.mpr ⟨hadded, h.key_added⟩
  key_user := List.forall_mem_cons.mpr ⟨h.active_user _ hact, h.key_user⟩
  key_mtable := by
    refine List.forall_mem_cons.mpr ⟨fun hended => ?_, h.key_mtable⟩
    change s.goGtrs.isended (s.goOwner k.keyTrxid) = true at hended
    rw [h.gate.active_open _ hact] at hended
    exact absurd hended Bool.false_ne_true
  key_lost := List.forall_mem_cons.mpr
    ⟨fun hfind => absurd hfind (h.open_entry _ hadded hopen hact), h.key_lost⟩

theorem MergeInv.insertkey (hm : MergeInv cfg s m) (h : GobjInv cfg s) {k : IndexKey}
    (hopen : k.keyTrxid ∉ s.goAborted)
    (hact : s.goOwner k.keyTrxid ∈ s.goGtrs.gtrsActivetrxlist) :
    MergeInv cfg { s with goKeys := k :: s.goKeys } m := by
  have hended : ∀ ts, trxbufFind s.goTrxbuf k.keyTrxid = some ts →
      (ts.tsTrxinfo.deref s.goGtrs.gtrsTrxinfo).isended = false := by
    intro ts hts
    have hentry := h.entry _ ts hts
    generalize ts.tsTrxinfo = ref at hentry ⊢
    cases ref with
    | trx t =>
        obtain ⟨rfl, -⟩ := hentry
        exact h.gate.active_open _ hact
    | stmt ti => exact absurd hentry.1 hopen
  refine ⟨hm.patch_le, hm.abort_le, hm.active,
    fun hmode => List.forall_mem_cons.mpr ⟨fun _ ts hts habort => ?_, hm.met_abort hmode⟩,
    fun hmode => List.forall_mem_cons.mpr ⟨fun _ ts hts hcommit => ?_, hm.met_commit hmode⟩⟩
  · have hfalse := hended ts hts
    rw [Trxinfo.isended] at hfalse
    rw [habort] at hfalse
    exact absurd hfalse.symm Bool.false_ne_true
  · have hfalse := hended ts hts
    rw [Trxinfo.isended] at hfalse
    rw [hcommit] at hfalse
    exact absurd hfalse.symm Bool.false_ne_true

theorem GobjInv.keys_subset (h : GobjInv cfg s) {keys : List IndexKey}
    {merge : Option Indmerge} (hsub : keys ⊆ s.goKeys) :
    GobjInv cfg { s with goKeys := keys, goIndmerge := merge } where
  gate := h.gate
  numbers := h.numbers
  mode := h.mode
  unique := h.unique
  added := h.added
  added_le := h.added_le
  aborted_added := h.aborted_added
  owner_le := h.owner_le
  active_user := h.active_user
  entry := h.entry
  open_entry := h.open_entry
  key_added k hk := h.key_added k (hsub hk)
  key_user k hk := h.key_user k (hsub hk)
  key_mtable k hk := h.key_mtable k (hsub hk)
  key_lost k hk := h.key_lost k (hsub hk)

theorem goKeys_meetkey_subset (s : Gobj) (m : Indmerge) (k : IndexKey) :
    (s.meetkey m k).goKeys ⊆ s.goKeys := by
  rw [Gobj.meetkey]
  split
  · exact List.filter_subset_self s.goKeys
  · exact fun k' hk' => hk'

/-- A key that the merge leaves is open, or was committed above its level. -/
theorem trxstate_of_not_patches {k : IndexKey} {ts : Trxstmt}
    (hts : trxbufFind s.goTrxbuf k.keyTrxid = some ts) (h : s.patches m k = false) :
    (ts.tsTrxinfo.deref s.goGtrs.gtrsTrxinfo).tiState ≠ .abort ∧
      ((ts.tsTrxinfo.deref s.goGtrs.gtrsTrxinfo).tiState = .commit →
        m.imPatchtrxnum < (ts.tsTrxinfo.deref s.goGtrs.gtrsTrxinfo).tiCommittrxnum) := by
  rw [Gobj.patches, Gobj.trxstate, dbeTrxbufGettrxstate, hts] at h
  simp only [] at h
  generalize ts.tsTrxinfo.deref s.goGtrs.gtrsTrxinfo = ti at h ⊢
  cases hstate : ti.tiState with
  | begun =>
      exact ⟨fun habort => TrxState.noConfusion habort,
        fun hcommit => TrxState.noConfusion hcommit⟩
  | validate =>
      exact ⟨fun habort => TrxState.noConfusion habort,
        fun hcommit => TrxState.noConfusion hcommit⟩
  | commit =>
      rw [hstate] at h
      refine ⟨fun habort => TrxState.noConfusion habort, fun _ => ?_⟩
      exact not_le.mp (of_decide_eq_false h)
  | abort =>
      rw [hstate] at h
      exact Bool.noConfusion h

theorem MergeInv.meetkey (hm : MergeInv cfg s m) (k : IndexKey) :
    MergeInv cfg (s.meetkey m k) { m with imUnmet := m.imUnmet.filter (· ≠ k) } := by
  -- a key that is met now and was not before is `k` itself, and was left
  have hmet : ∀ k' ∈ (s.meetkey m k).goKeys, k' ∉ m.imUnmet.filter (· ≠ k) →
      k' ∈ s.goKeys ∧ (k' ∉ m.imUnmet ∨ k' = k ∧ s.patches m k = false) := by
    intro k' hk' hnot
    refine ⟨goKeys_meetkey_subset s m k hk', ?_⟩
    by_cases hkk : k' = k
    · refine Or.inr ⟨hkk, ?_⟩
      by_contra hpatch
      rw [Bool.not_eq_false] at hpatch
      rw [Gobj.meetkey, hpatch, if_pos rfl, List.mem_filter] at hk'
      exact absurd hkk (of_decide_eq_true hk'.2)
    · refine Or.inl fun hunmet => hnot ?_
      rw [List.mem_filter]
      exact ⟨hunmet, decide_eq_true hkk⟩
  refine ⟨hm.patch_le, hm.abort_le, hm.active, fun hmode k' hk' hnot ts hts => ?_,
    fun hmode k' hk' hnot ts hts => ?_⟩
  · obtain ⟨hold, hunmet | ⟨rfl, hpatch⟩⟩ := hmet k' hk' hnot
    · exact hm.met_abort hmode k' hold hunmet ts hts
    · exact fun habort => absurd habort (trxstate_of_not_patches hts hpatch).1
  · obtain ⟨hold, hunmet | ⟨rfl, hpatch⟩⟩ := hmet k' hk' hnot
    · exact hm.met_commit hmode k' hold hunmet ts hts
    · exact (trxstate_of_not_patches hts hpatch).2

theorem GobjInv.mergestart (h : GobjInv cfg s) {patchtrxnum : ℕ}
    (hle : patchtrxnum ≤ s.goGtrs.gtrsCtr.ctrMaxtrxnum) :
    MergeInv cfg { s with goIndmerge := some (s.mergestart patchtrxnum) }
      (s.mergestart patchtrxnum) := by
  have hunmet : (s.mergestart patchtrxnum).imUnmet = s.goKeys ∧
      (s.mergestart patchtrxnum).imPatchtrxnum = patchtrxnum := by
    rw [Gobj.mergestart]
    split
    · exact ⟨rfl, rfl⟩
    · exact ⟨rfl, rfl⟩
  have hopen : cfg.mergecleanup = true →
      (s.mergestart patchtrxnum).imAborttrxid = s.goGtrs.gtrsCtr.ctrTrxid ∧
      (s.mergestart patchtrxnum).imOpentrxinfo = some (dbeGtrsGetopentrxinfo s.goGtrs) := by
    intro hmode
    rw [Gobj.mergestart, h.mode, hmode]
    exact ⟨rfl, rfl⟩
  refine ⟨hunmet.2.trans_le hle, fun hmode => le_of_eq (hopen hmode).1,
    fun hmode t ht => Or.inl ?_, fun _ k hk hnot => ?_, fun _ k hk hnot => ?_⟩
  · rw [(hopen hmode).2]
    exact dbeTrxbufIsopentrx_getopentrxinfo _ ht
  · rw [hunmet.1] at hnot
    exact absurd hk hnot
  · rw [hunmet.1] at hnot
    exact absurd hk hnot

/-! ## Cleaning -/

section Cleaning

variable {cleantrxnum aborttrxid i : ℕ} {oti : Option Opentrxinfo} {merge : Option Indmerge}

theorem isended_of_trxbufRemovetrx {tb : Trxbuf} {infos : ℕ → Trxinfo} {ts : Trxstmt}
    (h : trxbufRemovetrx tb infos cleantrxnum aborttrxid oti ts = true) :
    (ts.tsTrxinfo.deref infos).isended = true := by
  by_contra hopen
  simp only [trxbufRemovetrx] at h
  rw [if_neg hopen] at h
  exact Bool.false_ne_true h

/-- The buffer after a turn of the loop of `dbe_trxbuf_clean`. -/
def Gobj.setTrxbufClean (s : Gobj) (cleantrxnum aborttrxid : ℕ) (oti : Option Opentrxinfo)
    (i : ℕ) (merge : Option Indmerge) : Gobj :=
  { s with
    goTrxbuf :=
      trxbufCleanslot s.goTrxbuf s.goGtrs.gtrsTrxinfo cleantrxnum aborttrxid oti i
    goIndmerge := merge }

/-- The invariant stays if the keys of the removed entries are known by the mode. -/
theorem GobjInv.clean (h : GobjInv cfg s)
    (hlost : ∀ k ∈ s.goKeys, ∀ ts, trxbufFind s.goTrxbuf k.keyTrxid = some ts →
      trxbufRemovetrx s.goTrxbuf s.goGtrs.gtrsTrxinfo cleantrxnum aborttrxid oti ts = true →
      s.Lost cfg k.keyTrxid) :
    GobjInv cfg (s.setTrxbufClean cleantrxnum aborttrxid oti i merge) where
  gate := h.gate
  numbers := h.numbers
  mode := h.mode
  unique j := by
    change ((Function.update s.goTrxbuf.tbTbslottable i (List.filter _ _) j).map
      Trxstmt.tsStmttrxid).Nodup
    rw [Function.update_apply]
    split
    · exact (h.unique i).sublist (List.filter_sublist.map _)
    · exact h.unique j
  added j ts hts := by
    change ts ∈ Function.update s.goTrxbuf.tbTbslottable i (List.filter _ _) j at hts
    rw [Function.update_apply] at hts
    split at hts
    · exact h.added i ts (List.mem_of_mem_filter hts)
    · exact h.added j ts hts
  added_le := h.added_le
  aborted_added := h.aborted_added
  owner_le := h.owner_le
  active_user := h.active_user
  entry x ts hts := h.entry x ts (trxbufFind_of_cleanslot h.unique hts)
  open_entry x hx hopen hact hfind := by
    rcases removed_of_cleanslot h.unique hfind with hnone | ⟨ts, hts, hremove⟩
    · exact h.open_entry x hx hopen hact hnone
    · have hended := isended_of_trxbufRemovetrx hremove
      have hentry := h.entry x ts hts
      generalize ts.tsTrxinfo = ref at hentry hended
      cases ref with
      | trx t =>
          obtain ⟨rfl, -⟩ := hentry
          have hfalse : (s.goGtrs.gtrsTrxinfo (s.goOwner x)).isended = false :=
            h.gate.active_open _ hact
          exact Bool.false_ne_true (hfalse.symm.trans hended)
      | stmt ti => exact hopen hentry.1
  key_added := h.key_added
  key_user := h.key_user
  key_mtable := h.key_mtable
  key_lost k hk hfind := by
    rcases removed_of_cleanslot h.unique hfind with hnone | ⟨ts, hts, hremove⟩
    · exact h.key_lost k hk hnone
    · exact hlost k hk ts hts hremove

theorem MergeInv.clean (hm : MergeInv cfg s m) (h : GobjInv cfg s) (slot : ℕ) :
    MergeInv cfg (s.setTrxbufClean cleantrxnum aborttrxid oti i merge)
      { m with imSlot := slot } where
  patch_le := hm.patch_le
  abort_le := hm.abort_le
  active := hm.active
  met_abort hmode k hk hmet ts hts :=
    hm.met_abort hmode k hk hmet ts (trxbufFind_of_cleanslot h.unique hts)
  met_commit hmode k hk hmet ts hts :=
    hm.met_commit hmode k hk hmet ts (trxbufFind_of_cleanslot h.unique hts)

theorem GobjInv.mtable_entry (h : GobjInv cfg s) {k : IndexKey} (hk : k ∈ s.goKeys)
    {ts : Trxstmt} (hts : trxbufFind s.goTrxbuf k.keyTrxid = some ts)
    (hended : (ts.tsTrxinfo.deref s.goGtrs.gtrsTrxinfo).isended = true) :
    (ts.tsTrxinfo.deref s.goGtrs.gtrsTrxinfo).tiMtabletrx = false := by
  have hentry := h.entry _ ts hts
  generalize ts.tsTrxinfo = ref at hentry hended ⊢
  cases ref with
  | trx t =>
      obtain ⟨rfl, -⟩ := hentry
      exact h.key_mtable k hk hended
  | stmt ti =>
      obtain ⟨-, n, rfl⟩ := hentry
      rfl

/-- The entries that the merge has removed at its end, of keys that it has met and left,
are those of committed transactions in one mode and of aborted ones in the other. -/
theorem MergeInv.lost_of_remove (hm : MergeInv cfg s m) (h : GobjInv cfg s)
    (hunmet : m.imUnmet = []) {k : IndexKey} (hk : k ∈ s.goKeys) {ts : Trxstmt}
    (hts : trxbufFind s.goTrxbuf k.keyTrxid = some ts)
    (hremove : trxbufRemovetrx s.goTrxbuf s.goGtrs.gtrsTrxinfo m.imPatchtrxnum m.imAborttrxid
      m.imOpentrxinfo ts = true) : s.Lost cfg k.keyTrxid := by
  have hmet : k ∉ m.imUnmet := by
    rw [hunmet]
    exact List.not_mem_nil
  have hmtable := h.mtable_entry hk hts (isended_of_trxbufRemovetrx hremove)
  have hstate := h.state_entry hts
  rw [Gobj.Lost]
  cases hmode : cfg.mergecleanup with
  | true =>
      rw [if_pos rfl]
      rcases trxbufRemovetrx_cases hremove hmtable with ⟨hcommit, -⟩ | ⟨habort, hlevel⟩
      · exact hstate.1 hcommit
      · obtain ⟨-, hid, hnum, hopen⟩ := hlevel (h.mode.trans hmode)
        rw [(h.find_added hts).1] at hid
        rcases hm.met_abort hmode k hk hmet ts hts habort with hopen' | hlt | hlt
        · rw [hopen] at hopen'
          exact absurd hopen' Bool.false_ne_true
        · exact absurd hlt (not_lt.mpr hid)
        · exact absurd hlt (not_lt.mpr hnum)
  | false =>
      rw [if_neg Bool.false_ne_true]
      rcases trxbufRemovetrx_cases hremove hmtable with ⟨hcommit, hle⟩ | ⟨habort, -⟩
      · exact absurd (hm.met_commit hmode k hk hmet ts hts hcommit) (not_lt.mpr hle)
      · exact hstate.2 habort

/-- `dbe_db_mergecleanup` removes no aborted transactions. -/
theorem GobjInv.lost_of_remove (h : GobjInv cfg s) (hmode : cfg.mergecleanup = true)
    {k : IndexKey} (hk : k ∈ s.goKeys) {ts : Trxstmt}
    (hts : trxbufFind s.goTrxbuf k.keyTrxid = some ts)
    (hremove : trxbufRemovetrx s.goTrxbuf s.goGtrs.gtrsTrxinfo cleantrxnum 0 none ts = true) :
    s.Lost cfg k.keyTrxid := by
  have hmtable := h.mtable_entry hk hts (isended_of_trxbufRemovetrx hremove)
  rw [Gobj.Lost, if_pos hmode]
  rcases trxbufRemovetrx_cases hremove hmtable with ⟨hcommit, -⟩ | ⟨-, hlevel⟩
  · exact (h.state_entry hts).1 hcommit
  · exact absurd rfl (hlevel (h.mode.trans hmode)).1

end Cleaning

end SolidDB
