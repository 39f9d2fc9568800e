import SolidDB.Dbe.LmgrReachable

/-!
# Refused requests

A request is refused at once, when its time has passed, or when it is withdrawn. The
refusal calls `lmgr_unlock` with the name of the lock, which takes the transaction's
first request for it.
-/

namespace SolidDB

open LockMgr

variable {lm₀ lm lm' : LockMgr} {me : ℕ} {lock : LockName} {ref : LockRef}

def own (me : ℕ) (queue : List LockRequest) : List LockRequest :=
  queue.filter fun r => r.lrTran = me

def LockMgr.granted (lm : LockMgr) (me : ℕ) (lock : LockName) :
    List (LockMode × LockClass) :=
  ((own me (lm.queue lock)).filter fun r => r.lrStatus = .granted).map
    fun r => (r.lrMode, r.lrClass)

inductive LockMgr.Refuses (lm : LockMgr) (me : ℕ) : LockRef → LockMgr → Prop
  | refused {lock : LockName} {mode : LockMode} {lockClass : LockClass} {timeout : ℕ}
      {bouncep : Bool} {env : LockEnv} {lm' : LockMgr}
      (hwait : (lm.lmTran me).ltWait = none)
      (heq : lmgrLock lm me lock mode lockClass timeout bouncep env =
        some (lm', .timeout)) : Refuses lm me ⟨lm.lmNextid, lock⟩ lm'
  | expired {ref : LockRef} {lock : LockName} {mode : LockMode} {lockClass : LockClass}
      {timeout : ℕ} {bouncep : Bool} {env : LockEnv} {lm' : LockMgr}
      (hwait : (lm.lmTran me).ltWait = some ref)
      (heq : lmgrLock lm me lock mode lockClass timeout bouncep env =
        some (lm', .timeout)) : Refuses lm me ref lm'
  | withdrawn {ref : LockRef} {req : LockRequest} {lm' : LockMgr}
      (hwait : (lm.lmTran me).ltWait = some ref) (hreq : lm.request ref = some req)
      (hst : req.lrStatus ≠ .granted) (heq : dbeLockmgrCancelwaiting lm me = some lm') :
      Refuses lm me ref lm'

/-- The request is gone, `me` does not wait, and what is granted to `me` is what was
granted in `lm`. -/
structure LockMgr.RefusedCleanly (lm lm' : LockMgr) (me : ℕ) (ref : LockRef) : Prop where
  granted_eq : ∀ lock, lm'.granted me lock = lm.granted me lock
  not_mem : ∀ r ∈ lm'.queue ref.lock, r.lrId ≠ ref.id
  ltWait_eq : (lm'.lmTran me).ltWait = none

/-- `me` has no other request for the lock. -/
def LockMgr.OnlyRequest (lm : LockMgr) (me : ℕ) (ref : LockRef) : Prop :=
  ∀ r ∈ lm.queue ref.lock, r.lrTran = me → r.lrId = ref.id

def LockMgr.AllGranted (lm : LockMgr) (me : ℕ) : Prop :=
  ∀ lock, ∀ r ∈ lm.queue lock, r.lrTran = me → r.lrStatus = .granted

inductive LockMgr.PendsSince (lm₀ : LockMgr) (me : ℕ) : LockRef → LockMgr → Prop
  | asked {lock : LockName} {mode : LockMode} {lockClass : LockClass} {timeout : ℕ}
      {bouncep : Bool} {env : LockEnv} {lm : LockMgr}
      (hwait : (lm₀.lmTran me).ltWait = none)
      (heq : lmgrLock lm₀ me lock mode lockClass timeout bouncep env = some (lm, .wait)) :
      PendsSince lm₀ me ⟨lm₀.lmNextid, lock⟩ lm
  | polled {ref : LockRef} {lock : LockName} {mode : LockMode} {lockClass : LockClass}
      {timeout : ℕ} {bouncep : Bool} {env : LockEnv} {lm lm' : LockMgr}
      (h : PendsSince lm₀ me ref lm)
      (heq : lmgrLock lm me lock mode lockClass timeout bouncep env = some (lm', .wait)) :
      PendsSince lm₀ me ref lm'
  | other {ref : LockRef} {op : LockOp} {lm lm' : LockMgr} (h : PendsSince lm₀ me ref lm)
      (hop : op.me ≠ some me) (heq : lm.step op = some lm') : PendsSince lm₀ me ref lm'

/-! ## The requests of one transaction -/

theorem own_append (me : ℕ) (queue queue' : List LockRequest) :
    own me (queue ++ queue') = own me queue ++ own me queue' :=
  List.filter_append queue queue'

theorem mem_own {queue : List LockRequest} {r : LockRequest} :
    r ∈ own me queue ↔ r ∈ queue ∧ r.lrTran = me := by
  simp [own]

theorem own_eq_nil {queue : List LockRequest} (h : ∀ r ∈ queue, r.lrTran ≠ me) :
    own me queue = [] :=
  List.filter_eq_nil_iff.mpr fun r hr => by simpa using h r hr

theorem own_others {t : ℕ} (ht : t ≠ me) (queue : List LockRequest) :
    own me (others t queue) = own me queue := by
  rw [own, others, List.filter_filter]
  apply List.filter_congr
  intro r _
  by_cases hr : r.lrTran = me
  · simp [hr, ht.symm]
  · simp [hr]

theorem granted_eq_nil (h : ∀ r ∈ lm.queue lock, r.lrTran = me → r.lrStatus ≠ .granted) :
    lm.granted me lock = [] := by
  rw [granted, List.map_eq_nil_iff, List.filter_eq_nil_iff]
  intro r hr
  rw [mem_own] at hr
  simpa using h r hr.1 hr.2

theorem granted_congr (h : own me (lm'.queue lock) = own me (lm.queue lock)) :
    lm'.granted me lock = lm.granted me lock := by
  rw [granted, h, granted]

/-! ## Unlocking the newest request -/

def LockMgr.Newest (lm : LockMgr) (me : ℕ) (ref : LockRef) : Prop :=
  ∃ rest, refsOf ref.lock (lm.lmTran me).ltLocks = ref :: rest

/-- What `lmgr_unlock` frees is the newest request only where it is the first one. -/
theorem lmgrUnlock_not_mem_iff (hv : lm.Valid) {q : LockRequest}
    (hq : q ∈ lm.queue ref.lock) (hid : q.lrId = ref.id) (hme : q.lrTran = me)
    (hrel : q.Released) (hnew : lm.Newest me ref) :
    (∀ r ∈ (lmgrUnlock lm me ref.lock).1.queue ref.lock, r.lrId ≠ ref.id) ↔
      lm.OnlyRequest me ref := by
  obtain ⟨rest, hrest⟩ := hnew
  have hlocks := hv.locks_eq me ref.lock
  rw [hrest, List.map_cons] at hlocks
  have heff := lmgrUnlock_effect hv me ref.lock
  generalize lmgrUnlock lm me ref.lock = o at heff ⊢
  cases heff with
  | absent h => exact absurd hme (h q hq)
  | @kept lm' pre post r hqueue hr hpre hnrel hc =>
      refine iff_of_false (fun hall => ?_) fun honly => ?_
      · rw [hc.queue_eq, Function.update_apply, if_pos rfl] at hall
        rw [hqueue, List.mem_append, List.mem_cons] at hq
        rcases hq with hq | rfl | hq
        · exact hall q (List.mem_append_left _ hq) hid
        · exact hall { q with lrCount := q.lrCount - 1 } (by simp) hid
        · exact hall q (by simp [hq]) hid
      · have hmem : r ∈ lm.queue ref.lock := by
          rw [hqueue]
          simp
        have heq := hv.eq_of_lrId_eq hmem hq ((honly r hmem hr).trans hid.symm)
        rw [heq] at hnrel
        exact hnrel hrel
  | @freed lm' pre post queue r hqueue hr hpre hrrel hw hc =>
      have hmem : r ∈ lm.queue ref.lock := by
        rw [hqueue]
        simp
      have hnodup := hv.nodup_ids ref.lock
      rw [hqueue, List.map_append, List.map_cons, List.nodup_middle, List.nodup_cons,
        ← List.map_append] at hnodup
      rw [hc.queue_eq, Function.update_apply, if_pos rfl]
      have hids : (∀ x ∈ queue, x.lrId ≠ ref.id) ↔ r = q := by
        have hiff : (∀ x ∈ queue, x.lrId ≠ ref.id) ↔
            ref.id ∉ queue.map LockRequest.lrId := by
          rw [List.mem_map]
          simp
        rw [hiff, map_lrId_of_woken hw]
        constructor
        · intro hnot
          rw [hqueue, List.mem_append, List.mem_cons] at hq
          rcases hq with hq | rfl | hq
          · exact absurd (hid ▸ List.mem_map_of_mem (List.mem_append_left _ hq)) hnot
          · rfl
          · exact absurd (hid ▸ List.mem_map_of_mem (List.mem_append_right _ hq)) hnot
        · rintro rfl
          rw [← hid]
          exact hnodup.1
      rw [hids]
      constructor
      · -- the first request is the newest, so there is no other one
        rintro rfl
        have hown : ownIds me (lm.queue ref.lock) = r.lrId :: ownIds me post := by
          rw [hqueue, ownIds_append, ownIds_eq_nil hpre, ownIds_cons, if_pos hr]
          rfl
        have hpost : ownIds me post = [] := by
          rw [hown, List.reverse_cons] at hlocks
          cases hp : (ownIds me post).reverse with
          | nil => exact List.reverse_eq_nil_iff.mp hp
          | cons id ids =>
              rw [hp, List.cons_append, List.cons.injEq] at hlocks
              have hin : ref.id ∈ ownIds me post := by
                rw [← List.mem_reverse, hp, hlocks.1]
                exact List.mem_cons_self
              obtain ⟨x, hx, -, hxid⟩ := mem_ownIds_iff.mp hin
              refine absurd ?_ hnodup.1
              rw [hid, ← hxid]
              exact List.mem_map_of_mem (List.mem_append_right _ hx)
        intro x hx hxme
        have hin := mem_ownIds_iff.mpr ⟨x, hx, hxme, rfl⟩
        rw [hown, hpost, List.mem_singleton] at hin
        rw [hin, hid]
      · intro honly
        exact hv.eq_of_lrId_eq hmem hq ((honly r hmem hr).trans hid.symm)

/-- Unlocking the only request of `me` for a lock, which has not been granted, takes
nothing from `me`. -/
theorem lmgrUnlock_granted (hv : lm.Valid) (honly : lm.OnlyRequest me ref)
    (hst : ∀ r ∈ lm.queue ref.lock, r.lrTran = me → r.lrStatus ≠ .granted)
    (hnot : ∀ r ∈ (lmgrUnlock lm me ref.lock).1.queue ref.lock, r.lrId ≠ ref.id)
    (lock : LockName) :
    (lmgrUnlock lm me ref.lock).1.granted me lock = lm.granted me lock := by
  have heff := lmgrUnlock_effect hv me ref.lock
  by_cases hl : lock = ref.lock
  · rw [hl, granted_eq_nil hst]
    apply granted_eq_nil
    intro r hr hrme
    obtain ⟨s, hs, hsid, hstran, -⟩ := heff.mem_of_mem hr
    exact absurd (hsid.trans (honly s hs (hstran.symm.trans hrme))) (hnot r hr)
  · apply granted_congr
    generalize lmgrUnlock lm me ref.lock = o at heff ⊢
    cases heff with
    | absent h => rfl
    | kept hq hr hpre hrel hc =>
        rw [hc.queue_eq, Function.update_apply, if_neg hl]
    | freed hq hr hpre hrel hw hc =>
        rw [hc.queue_eq, Function.update_apply, if_neg hl]

/-! ## The calls -/

/-- A request that is not granted before and behind a change is none of the granted. -/
theorem granted_setRequest {f : LockRequest → LockRequest}
    (hf : ∀ r ∈ lm.queue ref.lock, r.lrId = ref.id →
      r.lrStatus ≠ .granted ∧ (f r).lrStatus ≠ .granted) (me : ℕ) (lock : LockName) :
    (lm.setRequest ref f).granted me lock = lm.granted me lock := by
  rw [granted, granted, queue_setRequest, Function.update_apply]
  split
  · rename_i hl
    rw [hl]
    generalize lm.queue ref.lock = queue at hf
    congr 1
    induction queue with
    | nil => rfl
    | cons r queue ih =>
        obtain ⟨hr, hqueue⟩ := List.forall_mem_cons.mp hf
        have ih := ih hqueue
        rw [own, own, List.filter_filter, List.filter_filter] at ih ⊢
        rw [List.map_cons, List.filter_cons, List.filter_cons, ih]
        by_cases hid : r.lrId = ref.id
        · rw [if_pos hid]
          simp [(hr hid).1, (hr hid).2]
        · rw [if_neg hid]
  · rfl

/-- The last step of a refusal, in the state `lm'` with the refused request `q`. -/
theorem refusedCleanly_iff (hv : lm'.Valid) {q : LockRequest}
    (hq : q ∈ lm'.queue ref.lock) (hid : q.lrId = ref.id) (hme : q.lrTran = me)
    (hrel : q.Released) (hst : q.lrStatus ≠ .granted) (hnew : lm'.Newest me ref)
    (hgr : ∀ lock, lm'.granted me lock = lm.granted me lock)
    (wait : LockMgr → LockMgr) (hqueue : ∀ l, (wait l).queue = l.queue)
    (hwait : ((wait (lmgrUnlock lm' me ref.lock).1).lmTran me).ltWait = none) :
    lm.RefusedCleanly (wait (lmgrUnlock lm' me ref.lock).1) me ref ↔
      lm'.OnlyRequest me ref := by
  have hiff := lmgrUnlock_not_mem_iff hv hq hid hme hrel hnew
  constructor
  · intro h
    rw [← hiff]
    have hnot := h.not_mem
    rwa [hqueue] at hnot
  · intro honly
    have hnot := hiff.mpr honly
    have hgranted := lmgrUnlock_granted hv honly
      (fun r hr hrme => by
        rw [hv.eq_of_lrId_eq hr hq ((honly r hr hrme).trans hid.symm)]
        exact hst) hnot
    refine ⟨fun lock => ?_, ?_, hwait⟩
    · rw [granted, hqueue, ← granted, hgranted, hgr]
    · rwa [hqueue]

theorem onlyRequest_setRequest {f : LockRequest → LockRequest}
    (hid : ∀ r, (f r).lrId = r.lrId) :
    (lm.setRequest ref f).OnlyRequest me ref ↔ lm.OnlyRequest me ref := by
  rw [OnlyRequest, OnlyRequest, queue_setRequest, Function.update_apply, if_pos rfl]
  constructor
  · intro h r hr hrme
    have := h _ (List.mem_map_of_mem hr)
    split at this
    · assumption
    · exact this hrme
  · intro h r hr hrme
    obtain ⟨s, hs, rfl⟩ := List.mem_map.mp hr
    split at hrme
    · rw [if_pos ‹_›, hid]
      assumption
    · rw [if_neg ‹_›]
      exact h s hs hrme

theorem newest_of_ltLocks {rest : List LockRef} (h : (lm.lmTran me).ltLocks = ref :: rest) :
    lm.Newest me ref := by
  rw [Newest, h, refsOf_cons, if_pos rfl]
  exact ⟨_, rfl⟩

/-- The refusal of the request that the transaction waits for. `f` is the change of the
request before `lmgr_unlock`, `wait` the change of `lt_wait` behind it. -/
theorem refusedCleanly_pending_iff (h : lm.Inv) {req : LockRequest}
    (hwait : (lm.lmTran me).ltWait = some ref) (hreq : lm.request ref = some req)
    (hst : req.lrStatus ≠ .granted) {lm' : LockMgr} (hv : lm'.Valid)
    (hqueue' : lm'.queue = lm.queue)
    (hlocks' : (lm'.lmTran me).ltLocks = (lm.lmTran me).ltLocks)
    {f : LockRequest → LockRequest} (hid : ∀ r, (f r).lrId = r.lrId)
    (htran : ∀ r, (f r).lrTran = r.lrTran)
    (hf : (f req).lrCount = req.lrCount ∧ (f req).lrClass = .instant ∧
      (f req).lrStatus ≠ .granted) (wait : LockMgr → LockMgr)
    (hqueue : ∀ l, (wait l).queue = l.queue)
    (hnone : ((wait (lmgrUnlock (lm'.setRequest ref f) me ref.lock).1).lmTran me).ltWait =
      none) :
    lm.RefusedCleanly (wait (lmgrUnlock (lm'.setRequest ref f) me ref.lock).1) me ref ↔
      lm.OnlyRequest me ref := by
  obtain ⟨⟨rest, hlocks⟩, r, hr, hrid, hrt, hcnt, -⟩ := h.waits me ref hwait
  obtain ⟨hmem, hrid'⟩ := request_eq_some hreq
  obtain rfl := h.valid.eq_of_lrId_eq hr hmem (hrid.trans hrid'.symm)
  have hrel : (f r).Released := released_of_instant hf.2.1 (hf.1.trans hcnt)
  have hmem' : f r ∈ (lm'.setRequest ref f).queue ref.lock := by
    rw [queue_setRequest, Function.update_apply, if_pos rfl, List.mem_map, hqueue']
    exact ⟨r, hmem, if_pos hrid⟩
  have hnew : (lm'.setRequest ref f).Newest me ref := by
    apply newest_of_ltLocks
    rw [lmTran_setRequest, hlocks', hlocks]
  have honly : lm'.OnlyRequest me ref ↔ lm.OnlyRequest me ref := by
    rw [OnlyRequest, OnlyRequest, hqueue']
  rw [← honly, ← onlyRequest_setRequest hid]
  refine refusedCleanly_iff (hv.setRequest ref hid htran) hmem' ((hid r).trans hrid)
    ((htran r).trans hrt) hrel hf.2.2 hnew (fun lock => ?_) wait hqueue hnone
  rw [granted_setRequest]
  · rw [granted, hqueue', ← granted]
  · intro x hx hxid
    rw [hqueue'] at hx
    rw [h.valid.eq_of_lrId_eq hx hmem (hxid.trans hrid.symm)]
    exact ⟨hst, hf.2.2⟩

theorem refusedCleanly_expired_iff (h : lm.Inv) (hwait : (lm.lmTran me).ltWait = some ref)
    {env : LockEnv} (heq : lmgrLockWaiting lm me ref env = some (lm', .timeout)) :
    lm.RefusedCleanly lm' me ref ↔ lm.OnlyRequest me ref := by
  rw [lmgrLockWaiting, Option.map_eq_some_iff] at heq
  obtain ⟨req, hreq, heq⟩ := heq
  split at heq
  · simp at heq
  · rename_i hst
    split at heq
    · simp at heq
    · rw [Prod.mk.injEq] at heq
      rw [← heq.1]
      have hdenied : (if req.lrStatus = .converting then LockStatus.denied
          else req.lrStatus) ≠ .granted := by
        split
        · simp
        · exact hst
      refine refusedCleanly_pending_iff (f := fun r =>
        { r with
          lrStatus := if r.lrStatus = .converting then .denied else r.lrStatus
          lrClass := .instant }) h hwait hreq hst (h.valid.setWait me none) rfl
        (ltLocks_setWait none me) (fun _ => rfl) (fun _ => rfl) ⟨rfl, rfl, hdenied⟩ id
        (fun _ => rfl) ?_
      rw [id, ltWait_lmgrUnlock, lmTran_setRequest, ltWait_setWait, if_pos rfl]

theorem refusedCleanly_withdrawn_iff (h : lm.Inv)
    (hwait : (lm.lmTran me).ltWait = some ref) {req : LockRequest}
    (hreq : lm.request ref = some req) (hst : req.lrStatus ≠ .granted)
    (heq : dbeLockmgrCancelwaiting lm me = some lm') :
    lm.RefusedCleanly lm' me ref ↔ lm.OnlyRequest me ref := by
  obtain ⟨-, r, hr, hrid, -, hcnt, -⟩ := h.waits me ref hwait
  obtain ⟨hmem, hid⟩ := request_eq_some hreq
  have hcount : ¬ 1 < req.lrCount := by
    rw [h.valid.eq_of_lrId_eq hmem hr (hid.trans hrid.symm), hcnt]
    decide
  rw [dbeLockmgrCancelwaiting, hwait, Option.bind_some, hreq, Option.map_some,
    Option.some.injEq] at heq
  simp only at heq
  rw [if_pos hst, if_neg hcount] at heq
  rw [← heq]
  refine refusedCleanly_pending_iff (f := fun r => { r with lrClass := .instant }) h hwait
    hreq hst h.valid rfl rfl (fun _ => rfl) (fun _ => rfl) ⟨rfl, rfl, hst⟩
    (fun l => l.setWait me none) (fun _ => rfl) ?_
  rw [ltWait_setWait, if_pos rfl]

theorem refusedCleanly_mustWait_iff (h : lm.Inv) {head : LockHead} {req : LockRequest}
    (hf : lm.find head.lhLock = some head) (hid : req.lrId = lm.lmNextid)
    (htran : req.lrTran = me) (hcnt : req.lrCount = 1) {timeout : ℕ} {env : LockEnv}
    (heq : lmgrLockMustWait lm me head req timeout env = (lm', .timeout)) :
    lm.RefusedCleanly lm' me ⟨lm.lmNextid, head.lhLock⟩ ↔
      lm.OnlyRequest me ⟨lm.lmNextid, head.lhLock⟩ := by
  rw [lmgrLockMustWait] at heq
  split at heq
  · simp at heq
  · rw [Prod.mk.injEq] at heq
    rw [← heq.1]
    set q : LockRequest := { req with lrStatus := .denied, lrClass := .instant } with hq
    have ha := @Valid.appends_alloc lm me h.valid head
      { head with lhQueue := head.lhQueue ++ [q] } q hf rfl hid htran
    generalize hset : (lockRequestAlloc lm me head.lhLock).setHead
      { head with lhQueue := head.lhQueue ++ [q] } = lm₁ at ha ⊢
    have hqueue : lm₁.queue head.lhLock = lm.queue head.lhLock ++ [q] := by
      rw [ha.changes.queue_eq, Function.update_apply, if_pos rfl]
    have hv := (h.valid.appends ha).setWait me none
    have hrel : q.Released := released_of_instant rfl hcnt
    have honly : (lm₁.setWait me none).OnlyRequest me ⟨lm.lmNextid, head.lhLock⟩ ↔
        lm.OnlyRequest me ⟨lm.lmNextid, head.lhLock⟩ := by
      rw [OnlyRequest, OnlyRequest, queue_setWait, hqueue]
      constructor
      · intro hall r hr
        exact hall r (List.mem_append_left _ hr)
      · intro hall r hr hrme
        rcases List.mem_append.mp hr with hr | hr
        · exact hall r hr hrme
        · rw [List.mem_singleton.mp hr]
          exact hid
    rw [← honly]
    refine @refusedCleanly_iff lm _ me ⟨lm.lmNextid, head.lhLock⟩ hv q ?_ hid htran hrel
      (by simp [hq]) ?_ (fun lock => ?_) id (fun _ => rfl) ?_
    · rw [queue_setWait, hqueue]
      exact List.mem_append_right _ (List.mem_singleton.mpr rfl)
    · apply newest_of_ltLocks
      rw [ltLocks_setWait, ha.changes.locks_eq, if_pos rfl]
    · rw [granted, queue_setWait, ha.changes.queue_eq, Function.update_apply]
      split
      · rename_i hl
        rw [own_append, List.filter_append, hl, granted]
        simp [own, hq]
      · rw [granted]
    · rw [id, ltWait_lmgrUnlock, ltWait_setWait, if_pos rfl]

theorem refusedCleanly_refused_iff (h : lm.Inv) (hwait : (lm.lmTran me).ltWait = none)
    {mode : LockMode} {lockClass : LockClass} {timeout : ℕ} {bouncep : Bool} {env : LockEnv}
    (heq : lmgrLock lm me lock mode lockClass timeout bouncep env = some (lm', .timeout)) :
    lm.RefusedCleanly lm' me ⟨lm.lmNextid, lock⟩ ↔
      lm.OnlyRequest me ⟨lm.lmNextid, lock⟩ := by
  rw [lmgrLock, hwait] at heq
  simp only at heq
  split at heq
  · simp at heq
  · cases hf : lm.find lock with
    | none =>
        simp only [hf] at heq
        split at heq <;> simp at heq
    | some head =>
        obtain rfl := lhLock_of_find hf
        simp only [hf] at heq
        cases hs : splitFirst me head.lhQueue with
        | some o =>
            obtain ⟨pre, req, post⟩ := o
            simp only [hs, Option.some.injEq] at heq
            rw [lmgrLockAgain] at heq
            simp only at heq
            split at heq
            · simp at heq
            · split at heq
              · simp at heq
              · exact @refusedCleanly_mustWait_iff lm lm' me h head
                  { newRequest lm me mode lockClass with
                    lrStatus := .converting
                    lrConvertMode := mode } hf rfl rfl rfl timeout env heq
        | none =>
            simp only [hs, Option.some.injEq] at heq
            rw [lmgrLockNew] at heq
            split at heq
            · split at heq <;> simp at heq
            · split at heq
              · -- a bounce request is not put into the queue
                rw [Prod.mk.injEq] at heq
                rw [← heq.1]
                refine iff_of_true ⟨fun _ => rfl, ?_, hwait⟩ ?_
                · intro r hr
                  exact (h.valid.id_lt _ r hr).ne
                · intro r hr hrme
                  rw [queue_of_find hf] at hr
                  exact absurd hrme (splitFirst_eq_none hs r hr)
              · exact @refusedCleanly_mustWait_iff lm lm' me h head
                  { newRequest lm me mode lockClass with lrStatus := .waiting } hf rfl rfl
                  rfl timeout env heq

/-- A refusal is clean exactly where `me` has no other request for the lock. -/
theorem Refuses.refusedCleanly_iff (h : lm.Inv) (hr : lm.Refuses me ref lm') :
    lm.RefusedCleanly lm' me ref ↔ lm.OnlyRequest me ref := by
  cases hr with
  | refused hwait heq => exact refusedCleanly_refused_iff h hwait heq
  | expired hwait heq =>
      rw [lmgrLock, hwait] at heq
      exact refusedCleanly_expired_iff h hwait heq
  | withdrawn hwait hreq hst heq => exact refusedCleanly_withdrawn_iff h hwait hreq hst heq

/-! ## From the request to its refusal -/

/-- The request that `me` waits for is the only one that came to those of `lm₀`. -/
structure LockMgr.Awaits (lm₀ lm : LockMgr) (me : ℕ) (ref : LockRef) : Prop where
  inv : lm.Inv
  ltWait_eq : (lm.lmTran me).ltWait = some ref
  own_eq : ∀ lock, lock ≠ ref.lock → own me (lm.queue lock) = own me (lm₀.queue lock)
  own_append : ∃ q, own me (lm.queue ref.lock) = own me (lm₀.queue ref.lock) ++ [q] ∧
    q.lrId = ref.id

theorem append_of_woken_granted {queue post queue' : List LockRequest}
    (h : List.Forall₂ Woken (queue ++ post) queue')
    (hgr : ∀ r ∈ queue, r.lrStatus = .granted) :
    ∃ post', queue' = queue ++ post' ∧ List.Forall₂ Woken post post' := by
  induction queue generalizing queue' with
  | nil => exact ⟨queue', rfl, h⟩
  | cons r queue ih =>
      obtain ⟨hst, hgr⟩ := List.forall_mem_cons.mp hgr
      cases h with
      | cons hr h =>
          obtain ⟨post', rfl, hpost⟩ := ih h hgr
          exact ⟨post', by rw [hr.eq_of_granted hst]; rfl, hpost⟩

theorem own_woken {t : ℕ} (ht : t ≠ me) (h : lm.OthersWoken lm' t) (lock : LockName) :
    List.Forall₂ Woken (own me (lm.queue lock)) (own me (lm'.queue lock)) := by
  rw [← own_others ht (lm.queue lock), ← own_others ht (lm'.queue lock)]
  exact filter_of_woken (h lock) fun t => decide (t = me)

/-- A request that has to wait is put at the end of the queue. -/
theorem appends_of_wait (h : lm.Inv) (hwait : (lm.lmTran me).ltWait = none)
    {mode : LockMode} {lockClass : LockClass} {timeout : ℕ} {bouncep : Bool} {env : LockEnv}
    (heq : lmgrLock lm me lock mode lockClass timeout bouncep env = some (lm', .wait)) :
    ∃ lm₁ req, lm.Appends lm₁ me lock req ∧
      lm' = lm₁.setWait me (some ⟨lm.lmNextid, lock⟩) := by
  have hmust {head : LockHead} {req : LockRequest} (hf : lm.find head.lhLock = some head)
      (hid : req.lrId = lm.lmNextid) (htran : req.lrTran = me)
      (heq : lmgrLockMustWait lm me head req timeout env = (lm', .wait)) :
      ∃ lm₁ req, lm.Appends lm₁ me head.lhLock req ∧
        lm' = lm₁.setWait me (some ⟨lm.lmNextid, head.lhLock⟩) := by
    rw [lmgrLockMustWait] at heq
    split at heq
    · rw [Prod.mk.injEq, hid] at heq
      exact ⟨_, req, @Valid.appends_alloc lm me h.valid head
        { head with lhQueue := head.lhQueue ++ [req], lhWaiting := true } req hf rfl hid
        htran, heq.1.symm⟩
    · simp at heq
  rw [lmgrLock, hwait] at heq
  simp only at heq
  split at heq
  · simp at heq
  · cases hf : lm.find lock with
    | none =>
        simp only [hf] at heq
        split at heq <;> simp at heq
    | some head =>
        obtain rfl := lhLock_of_find hf
        simp only [hf] at heq
        cases hs : splitFirst me head.lhQueue with
        | some o =>
            obtain ⟨pre, req, post⟩ := o
            simp only [hs, Option.some.injEq] at heq
            rw [lmgrLockAgain] at heq
            simp only at heq
            split at heq
            · simp at heq
            · split at heq
              · simp at heq
              · exact @hmust head { newRequest lm me mode lockClass with
                  lrStatus := .converting
                  lrConvertMode := mode } hf rfl rfl heq
        | none =>
            simp only [hs, Option.some.injEq] at heq
            rw [lmgrLockNew] at heq
            split at heq
            · split at heq <;> simp at heq
            · split at heq
              · simp at heq
              · exact @hmust head { newRequest lm me mode lockClass with
                  lrStatus := .waiting } hf rfl rfl heq

theorem PendsSince.awaits (h₀ : lm₀.Inv) (hgr : lm₀.AllGranted me)
    (h : lm₀.PendsSince me ref lm) : lm₀.Awaits lm me ref := by
  induction h with
  | asked hwait heq =>
      obtain ⟨lm₁, req, ha, rfl⟩ := appends_of_wait h₀ hwait heq
      refine ⟨(h₀.lmgrLock heq).inv, ?_, fun lock hl => ?_, req, ?_, ha.lrId_eq⟩
      · rw [ltWait_setWait, if_pos rfl]
      · rw [queue_setWait, ha.changes.queue_eq, Function.update_apply, if_neg hl]
      · rw [queue_setWait, ha.changes.queue_eq, Function.update_apply, if_pos rfl, own_append]
        simp [own, ha.lrTran_eq]
  | polled _ heq ih =>
      rw [lmgrLock, ih.ltWait_eq] at heq
      simp only at heq
      rw [lmgrLockWaiting, Option.map_eq_some_iff] at heq
      obtain ⟨req, hreq, heq⟩ := heq
      have hst : req.lrStatus ≠ .denied := by
        obtain ⟨-, r, hr, hrid, -, -, hst⟩ := ih.inv.waits me _ ih.ltWait_eq
        obtain ⟨hmem, hid⟩ := request_eq_some hreq
        rwa [ih.inv.valid.eq_of_lrId_eq hmem hr (hid.trans hrid.symm)]
      split at heq
      · simp at heq
      · split at heq
        · rw [Prod.mk.injEq] at heq
          rwa [← heq.1]
        · simp at heq
  | @other ref op lm lm' _ hop heq ih =>
      -- the call is made by some `t` other than `me`
      obtain ⟨t, ht, hb⟩ : ∃ t, t ≠ me ∧ lm.Behind t lm' := by
        cases hme : op.me with
        | none => exact ⟨me + 1, by omega, ih.inv.step_behind heq (Or.inr hme)⟩
        | some t =>
            refine ⟨t, ?_, ih.inv.step_behind heq (Or.inl hme)⟩
            rintro rfl
            exact hop hme
      have hown (lock : LockName) : ∀ r ∈ own me (lm₀.queue lock), r.lrStatus = .granted := by
        intro r hr
        rw [mem_own] at hr
        exact hgr lock r hr.1 hr.2
      refine ⟨hb.inv, ?_, fun lock hl => ?_, ?_⟩
      · rw [hb.ltWait_eq me ht.symm, ih.ltWait_eq]
      · have hw := own_woken ht hb.woken lock
        rw [ih.own_eq lock hl, ← List.append_nil (own me (lm₀.queue lock))] at hw
        obtain ⟨post, heq, hpost⟩ := append_of_woken_granted hw (hown lock)
        rw [heq, List.forall₂_nil_left_iff.mp hpost, List.append_nil]
      · obtain ⟨q, hq, hqid⟩ := ih.own_append
        have hw := own_woken ht hb.woken ref.lock
        rw [hq] at hw
        obtain ⟨post, heq, hpost⟩ := append_of_woken_granted hw (hown ref.lock)
        obtain ⟨q', post', hqw, hnil, rfl⟩ := List.forall₂_cons_left_iff.mp hpost
        rw [List.forall₂_nil_left_iff.mp hnil] at heq
        exact ⟨q', heq, hqw.lrId_eq.trans hqid⟩

/-- The awaited request is refused: nothing was granted to `me` since `lm₀`. -/
theorem Awaits.refusedCleanly_iff (ha : lm₀.Awaits lm me ref)
    (hr : lm.Refuses me ref lm') :
    lm₀.RefusedCleanly lm' me ref ↔ ∀ r ∈ lm₀.queue ref.lock, r.lrTran ≠ me := by
  obtain ⟨q, hq, hqid⟩ := ha.own_append
  have hqmem : q ∈ lm.queue ref.lock := by
    have hin : q ∈ own me (lm.queue ref.lock) := by
      rw [hq]
      exact List.mem_append_right _ (List.mem_singleton.mpr rfl)
    exact (mem_own.mp hin).1
  have hst : q.lrStatus ≠ .granted := by
    have hpend : ∃ req, lm.request ref = some req ∧ req.lrStatus ≠ .granted := by
      cases hr with
      | refused hwait heq =>
          rw [ha.ltWait_eq] at hwait
          simp at hwait
      | expired hwait heq =>
          rw [lmgrLock, hwait] at heq
          simp only at heq
          rw [lmgrLockWaiting, Option.map_eq_some_iff] at heq
          obtain ⟨req, hreq, heq⟩ := heq
          refine ⟨req, hreq, fun hst => ?_⟩
          rw [if_pos hst] at heq
          simp at heq
      | withdrawn hwait hreq hst heq => exact ⟨_, hreq, hst⟩
    obtain ⟨req, hreq, hst⟩ := hpend
    obtain ⟨hmem, hid⟩ := request_eq_some hreq
    rwa [ha.inv.valid.eq_of_lrId_eq hqmem hmem (hqid.trans hid.symm)]
  have hgranted (lock : LockName) : lm.granted me lock = lm₀.granted me lock := by
    by_cases hl : lock = ref.lock
    · rw [granted, granted, hl, hq, List.filter_append]
      simp [hst]
    · exact granted_congr (ha.own_eq lock hl)
  have hclean : lm₀.RefusedCleanly lm' me ref ↔ lm.RefusedCleanly lm' me ref := by
    constructor
    · exact fun h => ⟨fun lock => (h.granted_eq lock).trans (hgranted lock).symm, h.not_mem,
        h.ltWait_eq⟩
    · exact fun h => ⟨fun lock => (h.granted_eq lock).trans (hgranted lock), h.not_mem,
        h.ltWait_eq⟩
  have hnodup : ((own me (lm.queue ref.lock)).map LockRequest.lrId).Nodup :=
    List.Nodup.sublist (List.filter_sublist.map _) (ha.inv.valid.nodup_ids ref.lock)
  rw [hclean, Refuses.refusedCleanly_iff ha.inv hr]
  constructor
  · intro honly r hrmem hrme
    have hin : r ∈ own me (lm₀.queue ref.lock) := mem_own.mpr ⟨hrmem, hrme⟩
    have hin' : r ∈ own me (lm.queue ref.lock) := by
      rw [hq]
      exact List.mem_append_left _ hin
    rw [hq, List.map_append, List.nodup_append] at hnodup
    refine hnodup.2.2 r.lrId (List.mem_map_of_mem hin) q.lrId (by simp) ?_
    rw [hqid]
    exact honly r (mem_own.mp hin').1 hrme
  · intro hnone r hrmem hrme
    have hin : r ∈ own me (lm.queue ref.lock) := mem_own.mpr ⟨hrmem, hrme⟩
    rw [hq, own_eq_nil hnone, List.nil_append, List.mem_singleton] at hin
    rw [hin, hqid]

/-- A refused request changes nothing that `me` holds exactly where `me` has no other
request for the lock, compared with the state before the refusal and with the state in
which `me` asked. -/
theorem refuses_cleanly_iff (h : lm.Reachable) (hr : lm.Refuses me ref lm') :
    (lm.RefusedCleanly lm' me ref ↔ lm.OnlyRequest me ref) ∧
      ∀ lm₀ : LockMgr, lm₀.Reachable → lm₀.AllGranted me → lm₀.PendsSince me ref lm →
        (lm₀.RefusedCleanly lm' me ref ↔ ∀ r ∈ lm₀.queue ref.lock, r.lrTran ≠ me) := by
  refine ⟨Refuses.refusedCleanly_iff h.inv hr, fun lm₀ h₀ hgr hp => ?_⟩
  exact Awaits.refusedCleanly_iff (PendsSince.awaits h₀.inv hgr hp) hr

/-- A refused conversion takes the lock that is held, and the refused request stays. -/
theorem not_refusedCleanly_conversion :
    ∃ lm lm' : LockMgr, lm.Reachable ∧
      lm.Refuses 1 ⟨lm.lmNextid, ⟨0, 0⟩⟩ lm' ∧
      lm.granted 1 ⟨0, 0⟩ = [(.s, .long)] ∧ lm'.granted 1 ⟨0, 0⟩ = [] ∧
      (∃ r ∈ lm'.queue ⟨0, 0⟩, r.lrId = lm.lmNextid) ∧
      ¬ lm.RefusedCleanly lm' 1 ⟨lm.lmNextid, ⟨0, 0⟩⟩ := by
  have hrun := @Reachable.run _ _
    [.lock 1 ⟨0, 0⟩ .s .long 0 false ⟨false, false, true⟩,
      .lock 2 ⟨0, 0⟩ .s .long 0 false ⟨false, false, true⟩]
    (Reachable.init 1 1 Nat.one_pos) (by decide) rfl
  refine ⟨_, _, hrun, @Refuses.refused _ 1 ⟨0, 0⟩ .x .long 0 false ⟨false, false, true⟩ _
    rfl rfl, by decide, by decide, by decide, fun hclean => ?_⟩
  exact absurd (hclean.granted_eq ⟨0, 0⟩) (by decide)

/-- The refusal of a request for a lock that another transaction holds. -/
theorem refuses_cleanly_iff_new :
    ∃ lm lm' : LockMgr,
      lmgrLock lm 2 ⟨0, 0⟩ .x .long 0 false ⟨false, false, true⟩ = some (lm', .timeout) ∧
      (lm.RefusedCleanly lm' 2 ⟨lm.lmNextid, ⟨0, 0⟩⟩ ↔
        lm.OnlyRequest 2 ⟨lm.lmNextid, ⟨0, 0⟩⟩) := by
  have hrun := @Reachable.run _ _ [.lock 1 ⟨0, 0⟩ .s .long 0 false ⟨false, false, true⟩]
    (Reachable.init 1 1 Nat.one_pos) (by decide) rfl
  exact ⟨_, _, rfl, (refuses_cleanly_iff hrun (@Refuses.refused _ 2 ⟨0, 0⟩ .x .long 0 false
    ⟨false, false, true⟩ _ rfl rfl)).1⟩

end SolidDB
