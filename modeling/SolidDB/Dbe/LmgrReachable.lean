import SolidDB.Dbe.LmgrInvariant

/-!
# Every call keeps the invariant

The steps of the calls are `setWait`, `setRequest`, a change of one lock head, the
allocation of a request and `lmgr_unlock`. Each of them keeps `Amid`, and a call
ends with a transaction that waits for nothing or for the request just allocated.
-/

namespace SolidDB

open LockMgr

variable {lm₀ lm lm' : LockMgr} {me : ℕ} {lock : LockName}

/-! ## The steps of a call -/

theorem UnlockEffect.othersWoken {o : LockMgr × Option LockRef}
    (h : UnlockEffect lm me lock o) : lm.OthersWoken o.1 me := by
  cases h with
  | absent h => exact OthersWoken.refl lm me
  | @kept lm' pre post r hq hr hpre hrel hc =>
      apply OthersWoken.update hc.queue_eq
      rw [hq, others_append, others_append, others_cons_own hr]
      rw [others_cons_own (r := { r with lrCount := r.lrCount - 1 }) hr]
      exact forall₂_woken_refl _
  | @freed lm' pre post queue r hq hr hpre hrel hw hc =>
      apply OthersWoken.update hc.queue_eq
      rw [hq, others_append, others_cons_own hr, ← others_append]
      exact filter_of_woken hw fun t => decide (t ≠ me)

theorem LockMgr.Amid.lmgrUnlock (h : lm₀.Amid me lm) (lock : LockName) :
    lm₀.Amid me (SolidDB.lmgrUnlock lm me lock).1 := by
  have heff := lmgrUnlock_effect h.valid me lock
  refine ⟨h.valid.lmgrUnlock me lock, fun t ht ref href => ?_,
    h.woken.trans heff.othersWoken, fun t ht => by rw [ltWait_lmgrUnlock, h.ltWait_eq t ht]⟩
  rw [ltWait_lmgrUnlock] at href
  obtain ⟨hlocks, r, hr, hrid, hrt, hcnt, hst⟩ := h.waits t ht ref href
  have hmem := heff.exists_mem hr (Or.inr (by rw [hrt]; exact ht))
  obtain ⟨r', hr', hw⟩ := hmem
  refine ⟨?_, r', hr', hw.lrId_eq.trans hrid, hw.lrTran_eq.trans hrt,
    hw.lrCount_eq.trans hcnt, hw.lrStatus_ne_denied hst⟩
  generalize SolidDB.lmgrUnlock lm me lock = o at heff ⊢
  cases heff with
  | absent h => exact hlocks
  | kept hq hr hpre hrel hc =>
      rw [hc.locks_eq, if_neg ht]
      exact hlocks
  | freed hq hr hpre hrel hw hc =>
      rw [hc.locks_eq, if_neg ht]
      exact hlocks

theorem LockMgr.Amid.setHead (h : lm₀.Amid me lm) {head head' : LockHead}
    {pre post : List LockRequest} {r r' : LockRequest}
    (hf : lm.find head'.lhLock = some head) (hq : head.lhQueue = pre ++ r :: post)
    (hq' : head'.lhQueue = pre ++ r' :: post) (hid : r'.lrId = r.lrId)
    (hr : r.lrTran = me) (hr' : r'.lrTran = me) : lm₀.Amid me (lm.setHead head') := by
  refine ⟨?_, fun t ht ref href => ?_, h.woken.trans ?_, h.ltWait_eq⟩
  · apply h.valid.setHead hf
    rw [hq, hq', List.map_append, List.map_append, List.map_cons, List.map_cons, hid, hr,
      hr']
  · obtain ⟨hlocks, s, hs, hsid, hst, hcnt, hsst⟩ := h.waits t ht ref href
    refine ⟨hlocks, s, ?_, hsid, hst, hcnt, hsst⟩
    rw [queue_setHead hf, Function.update_apply]
    split
    · rename_i hl
      rw [hl, queue_of_find hf, hq, List.mem_append, List.mem_cons] at hs
      rw [hq', List.mem_append, List.mem_cons]
      rcases hs with hs | rfl | hs
      · exact Or.inl hs
      · exact absurd (hst.symm.trans hr) ht
      · exact Or.inr (Or.inr hs)
    · exact hs
  · apply OthersWoken.update (queue_setHead hf)
    rw [queue_of_find hf, hq, hq', others_append, others_append, others_cons_own hr,
      others_cons_own hr']
    exact forall₂_woken_refl _

structure LockMgr.Appends (lm lm' : LockMgr) (me : ℕ) (lock : LockName)
    (req : LockRequest) : Prop where
  changes : lm.Changes lm' me lock (lm.queue lock ++ [req])
    (⟨lm.lmNextid, lock⟩ :: (lm.lmTran me).ltLocks)
  nextid_eq : lm'.lmNextid = lm.lmNextid + 1
  ltWait_eq : ∀ t, (lm'.lmTran t).ltWait = (lm.lmTran t).ltWait
  lrId_eq : req.lrId = lm.lmNextid
  lrTran_eq : req.lrTran = me

theorem LockMgr.Valid.appends (hv : lm.Valid) {req : LockRequest}
    (ha : lm.Appends lm' me lock req) : lm'.Valid := by
  have hlt := hv.id_lt lock
  refine hv.changes ha.changes ?_ ?_ ?_ ?_ ?_
  · rw [List.map_append, List.nodup_append]
    refine ⟨hv.nodup_ids lock, by simp, ?_⟩
    intro id hid id' hid'
    obtain ⟨r, hr, rfl⟩ := List.mem_map.mp hid
    rw [List.map_singleton, List.mem_singleton, ha.lrId_eq] at hid'
    rw [hid']
    exact (hlt r hr).ne
  · intro r hr
    rw [ha.nextid_eq]
    rcases List.mem_append.mp hr with hr | hr
    · exact (hlt r hr).trans (Nat.lt_succ_self _)
    · rw [List.mem_singleton.mp hr, ha.lrId_eq]
      exact Nat.lt_succ_self _
  · rw [refsOf_cons, if_pos rfl, List.map_cons, hv.locks_eq, ownIds_append, ownIds_cons,
      if_pos ha.lrTran_eq, ha.lrId_eq, List.reverse_append]
    rfl
  · intro t ht
    rw [ownIds_append, ownIds_cons, if_neg (by rw [ha.lrTran_eq]; exact ht.symm)]
    exact List.append_nil _
  · intro lock' hl
    rw [refsOf_cons, if_neg hl.symm]

theorem LockMgr.Amid.appends (h : lm₀.Amid me lm) {req : LockRequest}
    (ha : lm.Appends lm' me lock req) : lm₀.Amid me lm' := by
  refine ⟨h.valid.appends ha, fun t ht ref href => ?_, h.woken.trans ?_,
    fun t ht => by rw [ha.ltWait_eq, h.ltWait_eq t ht]⟩
  · rw [ha.ltWait_eq] at href
    obtain ⟨hlocks, r, hr, hrest⟩ := h.waits t ht ref href
    refine ⟨?_, r, ?_, hrest⟩
    · rw [ha.changes.locks_eq, if_neg ht]
      exact hlocks
    · rw [ha.changes.queue_eq, Function.update_apply]
      split
      · rename_i hl
        rw [hl] at hr
        exact List.mem_append_left _ hr
      · exact hr
  · apply OthersWoken.update ha.changes.queue_eq
    rw [others_append, others_cons_own ha.lrTran_eq]
    exact (List.append_nil (others me (lm.queue lock))).symm ▸ forall₂_woken_refl _

theorem LockMgr.Valid.appends_alloc (hv : lm.Valid) {head head' : LockHead}
    {req : LockRequest} (hf : lm.find head'.lhLock = some head)
    (hq : head'.lhQueue = head.lhQueue ++ [req]) (hid : req.lrId = lm.lmNextid)
    (htran : req.lrTran = me) :
    lm.Appends ((lockRequestAlloc lm me head'.lhLock).setHead head') me head'.lhLock req where
  changes :=
    { queue_eq := by
        rw [queue_of_find hf, ← hq]
        exact queue_setHead hf
      locks_eq := ltLocks_setLocks _
      nodup_locks := by
        rw [map_lhLock_setHead]
        exact hv.nodup_locks
      queue_ne_nil := by
        intro h hh
        obtain ⟨h', hmem, rfl⟩ := List.mem_map.mp hh
        split
        · rw [hq]
          simp
        · exact hv.queue_ne_nil h' hmem
      nrequests_eq := by
        rw [queue_of_find hf, ← hq]
        exact sum_map_setHead hv.nodup_locks hf
      lockcnt_eq := by
        rw [List.length_append, List.length_singleton]
        change lm.lmLockcnt + 1 + _ = _
        omega
      nextid_le := Nat.le_succ _
      nmutexes_eq := rfl
      hashsize_eq := rfl }
  nextid_eq := rfl
  ltWait_eq := ltWait_setLocks _
  lrId_eq := hid
  lrTran_eq := htran

theorem LockMgr.Valid.appends_new (hv : lm.Valid) {head : LockHead} {req : LockRequest}
    (hf : lm.find head.lhLock = none) (hq : head.lhQueue = [req])
    (hid : req.lrId = lm.lmNextid) (htran : req.lrTran = me) :
    lm.Appends { lockRequestAlloc lm me head.lhLock with lmHash := head :: lm.lmHash } me
      head.lhLock req where
  changes :=
    { queue_eq := by
        funext lock
        rw [queue_of_find_none hf, List.nil_append, ← hq, Function.update_apply, queue, find,
          List.find?_cons]
        by_cases hl : lock = head.lhLock
        · rw [if_pos hl]
          simp [hl]
        · rw [if_neg hl, queue, find]
          have : (decide (head.lhLock = lock)) = false := by simpa using Ne.symm hl
          rw [this]
      locks_eq := ltLocks_setLocks _
      nodup_locks := by
        rw [List.map_cons, List.nodup_cons]
        refine ⟨?_, hv.nodup_locks⟩
        rw [find, List.find?_eq_none] at hf
        intro hmem
        obtain ⟨h, hh, heq⟩ := List.mem_map.mp hmem
        exact hf h hh (by simpa using heq)
      queue_ne_nil := by
        intro h hh
        rcases List.mem_cons.mp hh with rfl | hh
        · rw [hq]
          simp
        · exact hv.queue_ne_nil h hh
      nrequests_eq := by
        rw [queue_of_find_none hf]
        change (List.map _ (head :: lm.lmHash)).sum + 0 = _
        rw [List.map_cons, List.sum_cons, hq, nrequests]
        simp only [List.nil_append, List.length_singleton]
        omega
      lockcnt_eq := by
        rw [queue_of_find_none hf]
        change lm.lmLockcnt + 1 + ((0 : ℕ) : ℤ) = lm.lmLockcnt + ((1 : ℕ) : ℤ)
        simp
      nextid_le := Nat.le_succ _
      nmutexes_eq := rfl
      hashsize_eq := rfl }
  nextid_eq := rfl
  ltWait_eq := ltWait_setLocks _
  lrId_eq := hid
  lrTran_eq := htran

/-! ## The calls -/

/-- The transaction waits for the request just put at the end of the queue. -/
theorem LockMgr.Amid.setWait_appends (h : lm₀.Amid me lm) {req : LockRequest}
    (ha : lm.Appends lm' me lock req) (hcnt : req.lrCount = 1)
    (hst : req.lrStatus ≠ .denied) :
    lm₀.Behind me (lm'.setWait me (some ⟨req.lrId, lock⟩)) := by
  refine ((h.appends ha).setWait _).behind fun ref href => ?_
  rw [ltWait_setWait, if_pos rfl, Option.some.injEq] at href
  subst href
  rw [ltLocks_setWait, ha.changes.locks_eq, if_pos rfl, queue_setWait, ha.changes.queue_eq,
    Function.update_apply, if_pos rfl, ha.lrId_eq]
  refine ⟨⟨_, rfl⟩, req, List.mem_append_right _ (List.mem_singleton.mpr rfl), ha.lrId_eq,
    ha.lrTran_eq, hcnt, hst⟩

theorem LockMgr.Inv.lmgrLockWaiting (h : lm.Inv) {ref : LockRef}
    (href : (lm.lmTran me).ltWait = some ref) {env : LockEnv} {reply : LockReply}
    (heq : lmgrLockWaiting lm me ref env = some (lm', reply)) : lm.Behind me lm' := by
  obtain ⟨⟨rest, hlocks⟩, -⟩ := h.waits me ref href
  have hmem : ref ∈ ((lm.setWait me none).lmTran me).ltLocks := by
    rw [ltLocks_setWait, hlocks]
    exact List.mem_cons_self
  have hexc := (h.amid me).setWait none
  have htran := hexc.valid.lrTran_of_mem_locks hmem
  have hwait : ((lm.setWait me none).lmTran me).ltWait = none := by
    rw [ltWait_setWait, if_pos rfl]
  rw [SolidDB.lmgrLockWaiting, Option.map_eq_some_iff] at heq
  obtain ⟨req, -, heq⟩ := heq
  split at heq
  · rw [Prod.mk.injEq] at heq
    rw [← heq.1]
    apply Amid.behind_of_ltWait
    · exact hexc.setRequest ref (fun _ => rfl) (fun _ => rfl) htran
    · rw [lmTran_setRequest]
      exact hwait
  · split at heq
    · rw [Prod.mk.injEq] at heq
      rw [← heq.1]
      exact h.behind me
    · rw [Prod.mk.injEq] at heq
      rw [← heq.1]
      apply Amid.behind_of_ltWait
      · apply Amid.lmgrUnlock
        exact hexc.setRequest ref (fun _ => rfl) (fun _ => rfl) htran
      · rw [ltWait_lmgrUnlock, lmTran_setRequest]
        exact hwait

theorem LockMgr.Inv.lmgrLockMustWait (h : lm.Inv) {head : LockHead} {req : LockRequest}
    (hf : lm.find head.lhLock = some head) (hid : req.lrId = lm.lmNextid)
    (htran : req.lrTran = me) (hcnt : req.lrCount = 1) (hst : req.lrStatus ≠ .denied)
    (timeout : ℕ) (env : LockEnv) :
    lm.Behind me (lmgrLockMustWait lm me head req timeout env).1 := by
  rw [SolidDB.lmgrLockMustWait]
  split
  · exact @Amid.setWait_appends lm lm _ me head.lhLock (h.amid me) req
      (h.valid.appends_alloc hf rfl hid htran) hcnt hst
  · have ha := @Valid.appends_alloc lm me h.valid head
      { head with
        lhQueue := head.lhQueue ++
          [{ req with lrStatus := .denied, lrClass := .instant }] } _ hf rfl hid htran
    refine ((((h.amid me).appends ha).setWait none).lmgrUnlock _).behind_of_ltWait ?_
    rw [ltWait_lmgrUnlock, ltWait_setWait, if_pos rfl]

theorem LockMgr.Inv.lmgrLockNew (h : lm.Inv) {head : LockHead}
    (hf : lm.find head.lhLock = some head) (hwait : (lm.lmTran me).ltWait = none)
    (mode : LockMode) (lockClass : LockClass) (timeout : ℕ) (bouncep : Bool)
    (env : LockEnv) :
    lm.Behind me (lmgrLockNew lm me head mode lockClass timeout bouncep env).1 := by
  rw [SolidDB.lmgrLockNew]
  split
  · split
    · exact h.behind me
    · have ha := @Valid.appends_alloc lm me h.valid head
        { head with
          lhQueue := head.lhQueue ++
            [{ newRequest lm me mode lockClass with lrOkcount := 1 }]
          lhGrantedMode := lockMax mode head.lhGrantedMode } _ hf rfl rfl rfl
      refine ((h.amid me).appends ha).behind_of_ltWait ?_
      rw [ha.ltWait_eq]
      exact hwait
  · split
    · exact h.behind me
    · exact @Inv.lmgrLockMustWait lm me h head
        { newRequest lm me mode lockClass with lrStatus := .waiting } hf rfl rfl rfl
        (by simp) timeout env

theorem LockMgr.Inv.lmgrLockAgain (h : lm.Inv) {head : LockHead}
    {pre post : List LockRequest} {req : LockRequest}
    (hf : lm.find head.lhLock = some head) (hwait : (lm.lmTran me).ltWait = none)
    (hq : head.lhQueue = pre ++ req :: post) (hreq : req.lrTran = me) (mode : LockMode)
    (lockClass : LockClass) (timeout : ℕ) (env : LockEnv) :
    lm.Behind me (lmgrLockAgain lm me head pre req post mode lockClass timeout env).1 := by
  rw [SolidDB.lmgrLockAgain]
  simp only
  split
  · refine @Amid.behind_of_ltWait _ me lm ?_ hwait
    exact (h.amid me).setHead hf hq rfl rfl hreq hreq
  · split
    · refine @Amid.behind_of_ltWait _ me lm ?_ hwait
      exact (h.amid me).setHead hf hq rfl rfl hreq hreq
    · exact @Inv.lmgrLockMustWait lm me h head
        { newRequest lm me mode lockClass with
          lrStatus := .converting
          lrConvertMode := mode } hf rfl rfl rfl (by simp) timeout env

theorem LockMgr.Inv.lmgrLock (h : lm.Inv) {mode : LockMode} {lockClass : LockClass}
    {timeout : ℕ} {bouncep : Bool} {env : LockEnv} {reply : LockReply}
    (heq : lmgrLock lm me lock mode lockClass timeout bouncep env = some (lm', reply)) :
    lm.Behind me lm' := by
  rw [SolidDB.lmgrLock] at heq
  cases hwait : (lm.lmTran me).ltWait with
  | some ref =>
      rw [hwait] at heq
      exact h.lmgrLockWaiting hwait heq
  | none =>
      simp only [hwait] at heq
      split at heq
      · rw [Option.some.injEq, Prod.mk.injEq] at heq
        rw [← heq.1]
        exact h.behind me
      · cases hf : lm.find lock with
        | none =>
            simp only [hf] at heq
            split at heq
            · rw [Option.some.injEq, Prod.mk.injEq] at heq
              rw [← heq.1]
              exact h.behind me
            · rw [Option.some.injEq, Prod.mk.injEq] at heq
              rw [← heq.1]
              have ha := @Valid.appends_new lm me h.valid
                ⟨lock, [{ newRequest lm me mode lockClass with lrOkcount := 1 }], mode,
                  false⟩ _ hf rfl rfl rfl
              refine ((h.amid me).appends ha).behind_of_ltWait ?_
              rw [ha.ltWait_eq]
              exact hwait
        | some head =>
            simp only [hf] at heq
            have hlock := lhLock_of_find hf
            rw [← hlock] at hf
            cases hs : splitFirst me head.lhQueue with
            | none =>
                simp only [hs, Option.some.injEq] at heq
                have hinv := h.lmgrLockNew hf hwait mode lockClass timeout bouncep env
                rwa [heq] at hinv
            | some o =>
                obtain ⟨pre, req, post⟩ := o
                obtain ⟨hq, hreq, -⟩ := splitFirst_eq_some hs
                simp only [hs, Option.some.injEq] at heq
                have hinv := h.lmgrLockAgain hf hwait hq hreq mode lockClass timeout env
                rwa [heq] at hinv

theorem LockMgr.Inv.dbeLockmgrUnlock (h : lm.Inv) (me : ℕ) (lock : LockName) :
    lm.Behind me (dbeLockmgrUnlock lm me lock) := by
  rw [SolidDB.dbeLockmgrUnlock]
  cases hf : (lm.lmTran me).ltLocks.find? fun ref => ref.lock = lock with
  | none => exact h.behind me
  | some ref =>
      have hlock : ref.lock = lock := by simpa using List.find?_some hf
      have htran := h.valid.lrTran_of_mem_locks (List.mem_of_find?_eq_some hf)
      set f : LockRequest → LockRequest := fun r =>
        { r with lrClass := .instant, lrCount := 1 } with hfdef
      have hset : lm.Amid me (lm.setRequest ref f) :=
        (h.amid me).setRequest ref (fun _ => rfl) (fun _ => rfl) htran
      have hexc := hset.lmgrUnlock lock
      simp only
      split
      · exact hexc.setWait_none
      · rename_i hne
        apply hexc.behind
        intro ref' href
        rw [ltWait_lmgrUnlock, lmTran_setRequest] at href hne
        obtain ⟨⟨rest, hlocks⟩, -⟩ := h.waits me ref' href
        have hl : ref'.lock ≠ lock := by
          intro hl
          rw [hlocks, List.find?_cons] at hf
          simp only [hl, decide_true, Option.some.injEq] at hf
          rw [hf] at href
          exact hne href
        -- the awaited request is for another lock, unlocking leaves it the newest
        have hwaits : (lm.setRequest ref f).WaitsForNewest me := by
          have hid (r : LockRequest) : (f r).lrId = r.lrId := rfl
          have htran (r : LockRequest) : (f r).lrTran = r.lrTran := rfl
          apply WaitsForNewest.setRequest (h.waits me) ref hid htran
          intro r _ _ _ _ hst
          exact ⟨rfl, hst⟩
        obtain ⟨⟨rest, hlocks⟩, r, hr, hrid, hrt, hcnt, hst⟩ := hwaits ref'
          (by rw [lmTran_setRequest]; exact href)
        have heff := lmgrUnlock_effect hset.valid me lock
        obtain ⟨r', hr', hw⟩ := heff.exists_mem hr (Or.inl hl)
        refine ⟨?_, r', hr', hw.lrId_eq.trans hrid, hw.lrTran_eq.trans hrt,
          hw.lrCount_eq.trans hcnt, hw.lrStatus_ne_denied hst⟩
        generalize lmgrUnlock (lm.setRequest ref f) me lock = o at heff ⊢
        cases heff with
        | absent h => exact ⟨rest, hlocks⟩
        | kept hq hr hpre hrel hc =>
            rw [hc.locks_eq, if_pos rfl]
            exact ⟨rest, hlocks⟩
        | freed hq hr hpre hrel hw hc =>
            rw [hc.locks_eq, if_pos rfl, hlocks, List.filter_cons_of_pos]
            · exact ⟨_, rfl⟩
            · rw [decide_eq_true_eq]
              rintro rfl
              exact hl rfl

theorem LockMgr.Inv.dbeLockmgrCancelwaiting (h : lm.Inv)
    (heq : dbeLockmgrCancelwaiting lm me = some lm') : lm.Behind me lm' := by
  rw [SolidDB.dbeLockmgrCancelwaiting, Option.bind_eq_some_iff] at heq
  obtain ⟨ref, href, heq⟩ := heq
  obtain ⟨⟨rest, hlocks⟩, -⟩ := h.waits me ref href
  have hmem : ref ∈ (lm.lmTran me).ltLocks := by
    rw [hlocks]
    exact List.mem_cons_self
  have htran := h.valid.lrTran_of_mem_locks hmem
  rw [Option.map_eq_some_iff] at heq
  obtain ⟨req, -, rfl⟩ := heq
  apply Amid.setWait_none
  split
  · split
    · exact (h.amid me).setRequest ref (fun _ => rfl) (fun _ => rfl) htran
    · apply Amid.lmgrUnlock
      exact (h.amid me).setRequest ref (fun _ => rfl) (fun _ => rfl) htran
  · exact h.amid me

def PointTo (lm : LockMgr) (me : ℕ) (refs : List LockRef) : Prop :=
  ∀ ref ∈ refs, ∀ r ∈ lm.queue ref.lock, r.lrId = ref.id → r.lrTran = me

theorem PointTo.setRequest {refs : List LockRef} (h : PointTo lm me refs) (ref : LockRef)
    {f : LockRequest → LockRequest} (hid : ∀ r, (f r).lrId = r.lrId)
    (htran : ∀ r, (f r).lrTran = r.lrTran) : PointTo (lm.setRequest ref f) me refs := by
  intro ref' href r hr hri
  rw [queue_setRequest, Function.update_apply] at hr
  split at hr
  · rename_i hl
    obtain ⟨s, hs, rfl⟩ := List.mem_map.mp hr
    rw [← hl] at hs
    split at hri
    · rw [hid] at hri
      rw [if_pos ‹_›, htran]
      exact h ref' href s hs hri
    · rw [if_neg ‹_›]
      exact h ref' href s hs hri
  · exact h ref' href r hr hri

theorem UnlockEffect.mem_of_mem {o : LockMgr × Option LockRef}
    (h : UnlockEffect lm me lock o) {lock' : LockName} {r' : LockRequest}
    (hr : r' ∈ o.1.queue lock') :
    ∃ r ∈ lm.queue lock', r'.lrId = r.lrId ∧ r'.lrTran = r.lrTran ∧
      r'.lrClass = r.lrClass := by
  cases h with
  | absent h => exact ⟨r', hr, rfl, rfl, rfl⟩
  | @kept lm' pre post q hq hqt hpre hrel hc =>
      rw [hc.queue_eq, Function.update_apply] at hr
      split at hr
      · rename_i hl
        rw [hl, hq]
        rcases List.mem_append.mp hr with hr | hr
        · exact ⟨r', List.mem_append_left _ hr, rfl, rfl, rfl⟩
        · rcases List.mem_cons.mp hr with rfl | hr
          · exact ⟨q, by simp, rfl, rfl, rfl⟩
          · exact ⟨r', by simp [hr], rfl, rfl, rfl⟩
      · exact ⟨r', hr, rfl, rfl, rfl⟩
  | @freed lm' pre post queue q hq hqt hpre hrel hw hc =>
      rw [hc.queue_eq, Function.update_apply] at hr
      split at hr
      · rename_i hl
        obtain ⟨r, hmem, hwr⟩ := exists_mem_left hw hr
        rw [hl, hq]
        refine ⟨r, ?_, hwr.lrId_eq, hwr.lrTran_eq, hwr.lrClass_eq⟩
        rcases List.mem_append.mp hmem with hmem | hmem
        · exact List.mem_append_left _ hmem
        · exact List.mem_append_right _ (List.mem_cons_of_mem _ hmem)
      · exact ⟨r', hr, rfl, rfl, rfl⟩

theorem PointTo.lmgrUnlock {refs : List LockRef} (h : PointTo lm me refs) (hv : lm.Valid)
    (lock : LockName) : PointTo (SolidDB.lmgrUnlock lm me lock).1 me refs := by
  intro ref href r hr hri
  obtain ⟨s, hs, hid, htran, -⟩ := (lmgrUnlock_effect hv me lock).mem_of_mem hr
  rw [htran]
  exact h ref href s hs (hid.symm.trans hri)

theorem LockMgr.Amid.unlockClassList {lockClass : LockClass} {altLess : Bool}
    {refs : List LockRef} (h : lm₀.Amid me lm) (hrefs : PointTo lm me refs)
    (heq : unlockClassList me lockClass altLess refs lm = some lm') : lm₀.Amid me lm' := by
  induction refs generalizing lm with
  | nil =>
      rw [SolidDB.unlockClassList, Option.some.injEq] at heq
      rwa [← heq]
  | cons ref refs ih =>
      have hrest : PointTo lm me refs := fun x hx => hrefs x (List.mem_cons_of_mem ref hx)
      rw [SolidDB.unlockClassList] at heq
      split at heq
      · exact ih h hrest heq
      · simp only at heq
        split at heq
        · split at heq
          · exact absurd heq (by simp)
          · have hset : lm₀.Amid me (lm.setRequest ref fun r =>
                { r with lrClass := .instant, lrCount := 1 }) :=
              h.setRequest ref (fun _ => rfl) (fun _ => rfl) (hrefs ref List.mem_cons_self)
            refine ih (hset.lmgrUnlock _) ?_ heq
            apply PointTo.lmgrUnlock _ hset.valid
            exact hrest.setRequest ref (fun _ => rfl) fun _ => rfl
        · exact ih h hrest heq

theorem LockMgr.Amid.lmgrUnlockClass {lockClass : LockClass} {altLess : Bool}
    {n i : ℕ} (h : lm₀.Amid me lm)
    (heq : lmgrUnlockClass me lockClass altLess n i lm = some lm') : lm₀.Amid me lm' := by
  induction n generalizing i lm with
  | zero =>
      rw [SolidDB.lmgrUnlockClass, Option.some.injEq] at heq
      rwa [← heq]
  | succ n ih =>
      rw [SolidDB.lmgrUnlockClass, Option.bind_eq_some_iff] at heq
      obtain ⟨lm'', hlist, heq⟩ := heq
      refine ih (h.unlockClassList ?_ hlist) heq
      intro ref href
      exact h.valid.lrTran_of_mem_locks (List.mem_of_mem_filter href)

theorem LockMgr.Inv.dbeLockmgrUnlockall (h : lm.Inv)
    (heq : dbeLockmgrUnlockall lm me = some lm') : lm.Behind me lm' := by
  rw [SolidDB.dbeLockmgrUnlockall, Option.map_eq_some_iff] at heq
  obtain ⟨lm'', hclass, rfl⟩ := heq
  exact ((h.amid me).lmgrUnlockClass hclass).setWait_none

/-- Every call keeps the invariant, and leaves the others what they have. -/
theorem LockMgr.Inv.step_behind (h : lm.Inv) {op : LockOp} (heq : lm.step op = some lm')
    (hme : op.me = some me ∨ op.me = none) : lm.Behind me lm' := by
  cases op with
  | lock t lock mode lockClass timeout bouncep env =>
      obtain rfl : t = me := by simpa [LockOp.me] using hme
      rw [LockMgr.step, Option.map_eq_some_iff] at heq
      obtain ⟨⟨lm'', reply⟩, hlock, rfl⟩ := heq
      exact h.lmgrLock hlock
  | unlock t lock =>
      obtain rfl : t = me := by simpa [LockOp.me] using hme
      rw [LockMgr.step, Option.some.injEq] at heq
      rw [← heq]
      exact h.dbeLockmgrUnlock t lock
  | cancelwaiting t =>
      obtain rfl : t = me := by simpa [LockOp.me] using hme
      exact h.dbeLockmgrCancelwaiting heq
  | unlockall t =>
      obtain rfl : t = me := by simpa [LockOp.me] using hme
      exact h.dbeLockmgrUnlockall heq
  | setuselocks uselocks =>
      rw [LockMgr.step, Option.some.injEq] at heq
      rw [← heq]
      exact ⟨⟨⟨h.valid.nodup_locks, h.valid.queue_ne_nil, h.valid.nmutexes_pos,
        h.valid.lockcnt_eq, h.valid.nodup_ids, h.valid.id_lt, h.valid.locks_eq⟩, h.waits⟩,
        OthersWoken.refl lm me, fun _ _ => rfl⟩

theorem LockMgr.Inv.step (h : lm.Inv) {op : LockOp} (heq : lm.step op = some lm') :
    lm'.Inv := by
  cases hme : op.me with
  | none => exact (@Inv.step_behind lm lm' 0 h op heq (Or.inr hme)).inv
  | some me => exact (h.step_behind heq (Or.inl hme)).inv

theorem dbeLockmgrInit_inv (hashsize : ℕ) {nmutexes : ℕ} (h : 0 < nmutexes) :
    (dbeLockmgrInit hashsize nmutexes).Inv where
  valid :=
    { nodup_locks := List.nodup_nil
      queue_ne_nil := by simp [dbeLockmgrInit]
      nmutexes_pos := h
      lockcnt_eq := rfl
      nodup_ids := fun _ => List.nodup_nil
      id_lt := fun _ _ hr => absurd hr List.not_mem_nil
      locks_eq := fun _ _ => rfl }
  waits := fun _ _ href => absurd href (by simp [dbeLockmgrInit])

/-- The invariant holds in every state that calls lead to. -/
theorem LockMgr.Reachable.inv (h : lm.Reachable) : lm.Inv := by
  induction h with
  | init hashsize nmutexes h => exact dbeLockmgrInit_inv hashsize h
  | step op _ _ heq ih => exact ih.step heq

end SolidDB
