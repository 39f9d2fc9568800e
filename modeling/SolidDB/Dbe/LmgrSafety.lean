import SolidDB.Dbe.LmgrRefuse
import SolidDB.Dbe.LmgrSound

/-!
# Safety of the lock manager

On every lock the granted requests of different transactions have compatible modes, and
`lh_granted_mode` is as great as all of them. This holds in every run whose calls leave no
denied request behind and bring no U into a group that hides IS or SIX from
`lock_compat`.
-/

namespace SolidDB

open LockMgr

variable {lm lm' : LockMgr} {me : ℕ} {lock : LockName} {ref : LockRef}

/-- `lock_max` of the modes of all granted requests. -/
def allGrantedMode (queue : List LockRequest) : LockMode :=
  groupMode (queue.filter fun r => r.lrStatus = .granted) .free

/-- The granted requests of different transactions are compatible in one order, and the
mode of the lock is the greatest of all granted modes. -/
structure LockHead.Safe (head : LockHead) : Prop where
  agree : ∀ r ∈ head.lhQueue, ∀ s ∈ head.lhQueue, r.lrStatus = .granted →
    s.lrStatus = .granted → r.lrTran ≠ s.lrTran → r.lrMode.Agree s.lrMode
  granted : lockMax (allGrantedMode head.lhQueue) head.lhGrantedMode = head.lhGrantedMode

def LockMgr.Safe (lm : LockMgr) : Prop :=
  ∀ head ∈ lm.lmHash, head.Safe

def CanWait (timeout : ℕ) (env : LockEnv) : Prop :=
  timeout ≠ 0 ∧ !env.isdeadlock ∧ env.task

/-- A new request of `me` keeps the modes of the queue tame, where it comes into the
queue. -/
def LockMgr.HarmlessNew (lm : LockMgr) (me : ℕ) (head : LockHead) (mode : LockMode)
    (timeout : ℕ) (bouncep : Bool) (env : LockEnv) : Prop :=
  lm.lmUselocks = true → bouncep = false →
    (!head.lhWaiting ∧ lockCompat mode head.lhGrantedMode) ∨ CanWait timeout env →
    TameModes (modes head.lhQueue ++ [(me, mode)])

/-- A repeated request, where it is no smaller one: the conversion in place is one of a
granted request and keeps the modes tame, and a conversion that has to wait may do so and
keeps the modes tame. -/
def LockMgr.HarmlessAgain (lm : LockMgr) (me : ℕ) (head : LockHead)
    (pre : List LockRequest) (req : LockRequest) (post : List LockRequest) (mode : LockMode)
    (timeout : ℕ) (env : LockEnv) : Prop :=
  lm.lmUselocks = true → ¬ mode.num ≤ req.lrMode.num →
    (lockCompat (lockMax mode req.lrMode) (othersGroup me head.lhQueue .free) = true →
      req.lrStatus = .granted ∧
      TameModes (modes pre ++ (me, lockMax mode req.lrMode) :: modes post) ∧
      (lockMax mode req.lrMode = .u → ¬ HidesIs me head.lhQueue)) ∧
    (lockCompat (lockMax mode req.lrMode) (othersGroup me head.lhQueue .free) ≠ true →
      CanWait timeout env ∧ TameModes (modes head.lhQueue ++ [(me, mode)]))

/-- The call leaves no denied request behind and keeps the modes of the queue tame. -/
def LockMgr.Harmless (lm : LockMgr) : LockOp → Prop
  | .lock me lock mode _ timeout bouncep env =>
      match (lm.lmTran me).ltWait with
      | some ref => ∀ req, lm.request ref = some req → req.lrStatus = .converting →
          env.expired = true → lm.OnlyRequest me ref
      | none => ∀ head, lm.find lock = some head →
          match splitFirst me head.lhQueue with
          | none => lm.HarmlessNew me head mode timeout bouncep env
          | some (pre, req, post) =>
              lm.HarmlessAgain me head pre req post mode timeout env
  | _ => True

inductive LockMgr.SafelyReachable : LockMgr → Prop
  | init (hashsize nmutexes : ℕ) (h : 0 < nmutexes) :
      SafelyReachable (dbeLockmgrInit hashsize nmutexes)
  | step {lm lm' : LockMgr} (op : LockOp) (h : SafelyReachable lm) (hop : op.Proper)
      (hharmless : lm.Harmless op) (heq : lm.step op = some lm') : SafelyReachable lm'

/-! ## Sound lock heads -/

def LockHead.Sound (head : LockHead) : Prop :=
  SoundGroup head.lhQueue head.lhGrantedMode head.lhWaiting

def LockMgr.Sound (lm : LockMgr) : Prop :=
  ∀ head ∈ lm.lmHash, head.Sound

def LockMgr.SoundExcept (lm : LockMgr) (lock : LockName) : Prop :=
  ∀ head ∈ lm.lmHash, head.lhLock ≠ lock → head.Sound

theorem LockHead.Sound.safe {head : LockHead} (h : head.Sound) : head.Safe where
  agree r hr s hs hrg hsg hne := h.sound.agree hr hs hrg hsg hne
  granted := by
    have hgr : ∀ r ∈ head.lhQueue.filter fun r => r.lrStatus = .granted,
        r.lrStatus = .granted := fun r hr => by simpa using (List.mem_filter.mp hr).2
    have htame := (h.sound.sublist List.filter_sublist).tame_of_granted hgr
    exact (htame.least fun r hr => h.below r (List.mem_of_mem_filter hr) (hgr r hr)).1

theorem LockMgr.Sound.except (h : lm.Sound) (lock : LockName) : lm.SoundExcept lock :=
  fun head hhead _ => h head hhead

theorem LockMgr.Sound.find (h : lm.Sound) {head : LockHead} (hf : lm.find lock = some head) :
    head.Sound :=
  h head (mem_of_find hf)

theorem LockMgr.SoundExcept.setHead {head : LockHead} (h : lm.SoundExcept head.lhLock)
    (hhead : head.Sound) : (lm.setHead head).Sound := by
  intro x hx
  obtain ⟨y, hy, rfl⟩ := List.mem_map.mp hx
  split
  · exact hhead
  · rename_i hne
    exact h y hy hne

theorem LockMgr.Sound.setHead (h : lm.Sound) {head : LockHead} (hhead : head.Sound) :
    (lm.setHead head).Sound :=
  (h.except head.lhLock).setHead hhead

theorem LockMgr.SoundExcept.setHead_except {head : LockHead} (h : lm.SoundExcept head.lhLock) :
    (lm.setHead head).SoundExcept head.lhLock := by
  intro x hx hne
  obtain ⟨y, hy, rfl⟩ := List.mem_map.mp hx
  split at hne
  · exact absurd rfl hne
  · rename_i hne'
    rw [if_neg hne']
    exact h y hy hne'

theorem LockMgr.SoundExcept.removeHead (h : lm.SoundExcept lock) :
    (lm.removeHead lock).Sound := by
  intro x hx
  obtain ⟨hmem, hne⟩ := List.mem_filter.mp hx
  exact h x hmem (by simpa using hne)

theorem LockMgr.Sound.setRequest (h : lm.Sound) (ref : LockRef) {f : LockRequest → LockRequest}
    (hf : ∀ r ∈ lm.queue ref.lock, r.lrId = ref.id → SameLock r (f r)) :
    (lm.setRequest ref f).Sound := by
  rw [LockMgr.setRequest]
  split
  · rename_i head hhead
    have hlock := lhLock_of_find hhead
    apply h.setHead
    apply SoundGroup.same (h.find hhead)
    rw [queue_of_find hhead] at hf
    rw [List.forall₂_map_right_iff]
    apply List.forall₂_same.mpr
    intro r hr
    split
    · rename_i hid
      exact hf r hr hid
    · exact SameLock.refl r
  · exact h

/-- What `lmgr_unlock` leaves of the queue is sound. -/
theorem LockMgr.SoundExcept.lmgrUnlock (h : lm.SoundExcept lock)
    (hown : ∃ r ∈ lm.queue lock, r.lrTran = me)
    (hrest : ∀ pre r post, lm.queue lock = pre ++ r :: post → r.lrTran = me →
      (∀ x ∈ pre, x.lrTran ≠ me) → r.Released ∧ SoundQueue (pre ++ post)) :
    (SolidDB.lmgrUnlock lm me lock).1.Sound := by
  have hu := lmgrUnlock_unlocks lm me lock
  generalize SolidDB.lmgrUnlock lm me lock = o at hu ⊢
  cases hu with
  | absent hnone =>
      obtain ⟨r, hr, hrme⟩ := hown
      exact absurd hrme (hnone r hr)
  | @kept head pre post r hf hq hr hpre hrel =>
      exact absurd (hrest pre r post ((queue_of_find hf).trans hq) hr hpre).1 hrel
  | last hf hq hr hrel => exact h.removeHead
  | @removed head pre post r hf hq hr hpre hrel hne =>
      obtain rfl := lhLock_of_find hf
      have hsound := (hrest pre r post ((queue_of_find hf).trans hq) hr hpre).2
      exact @SoundExcept.setHead lm (head.regranted (pre ++ post)) h (regrant_sound hsound)

theorem LockMgr.Sound.lmgrUnlock (h : lm.Sound) (me : ℕ) (lock : LockName) :
    (SolidDB.lmgrUnlock lm me lock).1.Sound := by
  have hu := lmgrUnlock_unlocks lm me lock
  generalize SolidDB.lmgrUnlock lm me lock = o at hu ⊢
  cases hu with
  | absent hnone => exact h
  | @kept head pre post r hf hq hr hpre hrel =>
      apply h.setHead
      apply SoundGroup.same (h.find hf)
      rw [hq]
      refine List.rel_append (List.forall₂_same.mpr fun x _ => SameLock.refl x) ?_
      exact List.Forall₂.cons ⟨rfl, rfl, rfl, rfl⟩
        (List.forall₂_same.mpr fun x _ => SameLock.refl x)
  | last hf hq hr hrel => exact (h.except lock).removeHead
  | @removed head pre post r hf hq hr hpre hrel hne =>
      obtain rfl := lhLock_of_find hf
      have hsound := (h.find hf).sound
      rw [hq] at hsound
      apply @Sound.setHead lm h (head.regranted (pre ++ post))
      apply regrant_sound
      exact hsound.sublist ((List.sublist_cons_self r post).append_left pre)

/-! ## The calls -/

theorem LockMgr.Sound.lmgrLockMustWait (h : lm.Sound) (hv : lm.Valid) {head : LockHead}
    {req : LockRequest} (hf : lm.find head.lhLock = some head) (hid : req.lrId = lm.lmNextid)
    (htran : req.lrTran = me) (hcnt : req.lrCount = 1) (hreg : req.Regular)
    (hst : req.lrStatus ≠ .granted) {timeout : ℕ} {env : LockEnv}
    (htame : CanWait timeout env → TameModes (modes head.lhQueue ++ [(me, req.lrMode)]))
    (hown : CanWait timeout env ∨ ∀ r ∈ head.lhQueue, r.lrTran ≠ me) :
    (lmgrLockMustWait lm me head req timeout env).1.Sound := by
  rw [SolidDB.lmgrLockMustWait]
  split
  · rename_i hwait
    have htame' := htame hwait
    rw [← htran] at htame'
    exact @Sound.setHead (lockRequestAlloc lm me head.lhLock) h
      { head with lhQueue := head.lhQueue ++ [req], lhWaiting := true }
      ((h.find hf).append_pending hreg hst htame')
  · rename_i hwait
    have hnone := hown.resolve_left hwait
    have hne : head.lhQueue ≠ [] := hv.queue_ne_nil head (mem_of_find hf)
    set q : LockRequest := { req with lrStatus := .denied, lrClass := .instant } with hq
    have hrel : q.Released := released_of_instant rfl hcnt
    have ha := @Valid.appends_alloc lm me hv head
      { head with lhQueue := head.lhQueue ++ [q] } q hf rfl hid htran
    have hqueue := congrFun ha.changes.queue_eq head.lhLock
    rw [Function.update_apply, if_pos rfl, queue_of_find hf] at hqueue
    refine @SoundExcept.lmgrUnlock _ me head.lhLock ?_ ⟨q, ?_, htran⟩ ?_
    · exact @SoundExcept.setHead_except (lockRequestAlloc lm me head.lhLock)
        { head with lhQueue := head.lhQueue ++ [q] } (h.except head.lhLock)
    · rw [queue_setWait, hqueue]
      exact List.mem_append_right _ (List.mem_singleton.mpr rfl)
    · -- the denied request is the only one of `me`, it leaves the queue as it was
      intro pre r post hsplit hrme hpre
      rw [queue_setWait] at hsplit
      rw [hsplit] at hqueue
      have hpost : post = [] ∧ r = q ∧ pre = head.lhQueue := by
        rcases List.append_eq_append_iff.mp hqueue with ⟨l, hl, hl'⟩ | ⟨l, hl, hl'⟩
        · cases l with
          | nil =>
              rw [List.nil_append, List.cons.injEq] at hl'
              exact ⟨hl'.2, hl'.1, by rw [hl, List.append_nil]⟩
          | cons x l =>
              rw [List.cons_append, List.cons.injEq] at hl'
              refine absurd hrme (hnone r ?_)
              rw [hl, hl'.1]
              simp
        · cases l with
          | nil =>
              rw [List.nil_append, List.cons.injEq] at hl'
              exact ⟨hl'.2.symm, hl'.1.symm, by rw [hl, List.append_nil]⟩
          | cons x l =>
              rw [List.cons_append, List.cons.injEq] at hl'
              simp at hl'
      rw [hpost.1, hpost.2.1, hpost.2.2, List.append_nil]
      exact ⟨hrel, (h.find hf).sound⟩

theorem LockMgr.Sound.lmgrLockNew (h : lm.Sound) (hv : lm.Valid) {head : LockHead}
    (hf : lm.find head.lhLock = some head) (hnone : ∀ r ∈ head.lhQueue, r.lrTran ≠ me)
    {mode : LockMode} (hmode : mode ≠ .free) (lockClass : LockClass) {timeout : ℕ}
    {bouncep : Bool} {env : LockEnv} (huse : lm.lmUselocks = true)
    (hharmless : lm.HarmlessNew me head mode timeout bouncep env) :
    (lmgrLockNew lm me head mode lockClass timeout bouncep env).1.Sound := by
  rw [SolidDB.lmgrLockNew]
  split
  · rename_i hgrant
    split
    · exact h
    · rename_i hbounce
      have htame := hharmless huse (by simpa using hbounce) (Or.inl hgrant)
      have hhead := h.find hf
      rw [LockHead.Sound] at hhead
      have hwait : head.lhWaiting = false := by simpa using hgrant.1
      rw [hwait] at hhead
      apply @Sound.setHead (lockRequestAlloc lm me head.lhLock) h
      rw [LockHead.Sound, hwait]
      exact @SoundGroup.append_granted _ _
        { newRequest lm me mode lockClass with lrOkcount := 1 } hhead
        ⟨by simp [newRequest], hmode, by simp [newRequest]⟩ rfl hgrant.2 htame
  · split
    · exact h
    · rename_i hbounce
      refine h.lmgrLockMustWait hv hf rfl rfl rfl ⟨by simp, hmode, by simp⟩ (by simp)
        (fun hwait => ?_) (Or.inr hnone)
      exact hharmless huse (by simpa using hbounce) (Or.inr hwait)

theorem LockMgr.Sound.lmgrLockAgain (h : lm.Sound) (hv : lm.Valid) {head : LockHead}
    (hf : lm.find head.lhLock = some head) {pre post : List LockRequest} {req : LockRequest}
    (hq : head.lhQueue = pre ++ req :: post) (hreq : req.lrTran = me)
    {mode : LockMode} (hmode : mode ≠ .free) (lockClass : LockClass)
    {timeout : ℕ} {env : LockEnv} (huse : lm.lmUselocks = true)
    (hharmless : lm.HarmlessAgain me head pre req post mode timeout env) :
    (lmgrLockAgain lm me head pre req post mode lockClass timeout env).1.Sound := by
  have hhead := h.find hf
  rw [LockHead.Sound, hq] at hhead
  rw [SolidDB.lmgrLockAgain]
  simp only
  split
  · apply h.setHead
    apply SoundGroup.same hhead
    refine List.rel_append (List.forall₂_same.mpr fun x _ => SameLock.refl x) ?_
    exact List.Forall₂.cons ⟨rfl, rfl, rfl, rfl⟩
      (List.forall₂_same.mpr fun x _ => SameLock.refl x)
  · rename_i hnum
    obtain ⟨hin, hout⟩ := hharmless huse hnum
    split
    · rename_i hcompat
      obtain ⟨hst, htame, hhides⟩ := hin hcompat
      apply h.setHead
      rw [hq, ← hreq] at hcompat hhides
      refine hhead.upgrade hst rfl rfl rfl hnum hcompat ?_ hhides
      rw [modes, List.map_append, List.map_cons]
      rw [← hreq] at htame
      exact htame
    · rename_i hcompat
      obtain ⟨hwait, htame⟩ := hout hcompat
      exact h.lmgrLockMustWait hv hf rfl rfl rfl ⟨by simp, hmode, by simp [newRequest]⟩
        (by simp) (fun _ => htame) (Or.inl hwait)

/-- The poll of a request that is refused: a converting request becomes denied before it
is taken out of the queue. -/
theorem LockMgr.Sound.lmgrLockWaiting (h : lm.Sound) (hinv : lm.Inv)
    (href : (lm.lmTran me).ltWait = some ref) {env : LockEnv} {reply : LockReply}
    (honly : ∀ req, lm.request ref = some req → req.lrStatus = .converting →
      env.expired = true → lm.OnlyRequest me ref)
    (heq : lmgrLockWaiting lm me ref env = some (lm', reply)) : lm'.Sound := by
  rw [SolidDB.lmgrLockWaiting, Option.map_eq_some_iff] at heq
  obtain ⟨req, hreq, heq⟩ := heq
  obtain ⟨hmem, hid⟩ := request_eq_some hreq
  obtain ⟨-, q, hqmem, hqid, hqme, hqcnt, hqst⟩ := hinv.waits me ref href
  obtain rfl := hinv.valid.eq_of_lrId_eq hqmem hmem (hqid.trans hid.symm)
  have hwait : (lm.setWait me none).Sound := h
  split at heq
  · rw [Prod.mk.injEq] at heq
    rw [← heq.1]
    exact hwait.setRequest ref fun r _ _ => ⟨rfl, rfl, rfl, rfl⟩
  · rename_i hngr
    split at heq
    · rw [Prod.mk.injEq] at heq
      rwa [← heq.1]
    · rename_i hexp
      rw [Prod.mk.injEq] at heq
      rw [← heq.1]
      set f : LockRequest → LockRequest := fun r =>
        { r with
          lrStatus := if r.lrStatus = .converting then .denied else r.lrStatus
          lrClass := .instant } with hfdef
      by_cases hconv : q.lrStatus = .converting
      · have hexpired : env.expired = true := by
          by_contra hne
          exact hexp ⟨Or.inr hconv, by simpa using hne⟩
        have hone := honly q hreq hconv hexpired
        have hrel : (f q).Released := released_of_instant rfl hqcnt
        have hqueue : ((lm.setWait me none).setRequest ref f).queue ref.lock =
            (lm.queue ref.lock).map fun r => if r.lrId = ref.id then f r else r := by
          rw [queue_setRequest, Function.update_apply, if_pos rfl]
          rfl
        have hkeep {r : LockRequest} (hr : r ∈ lm.queue ref.lock) (hne : r ≠ q) :
            (if r.lrId = ref.id then f r else r) = r := by
          rw [if_neg]
          intro hrid
          exact hne (hinv.valid.eq_of_lrId_eq hr hmem (hrid.trans hid.symm))
        apply SoundExcept.lmgrUnlock
        · intro head hhead hne
          rw [LockMgr.setRequest] at hhead
          split at hhead
          · rename_i head' hf'
            obtain ⟨y, hy, rfl⟩ := List.mem_map.mp hhead
            have hlock := lhLock_of_find hf'
            split at hne
            · exact absurd hlock hne
            · rename_i hne'
              rw [if_neg hne']
              exact h y hy
          · exact h head hhead
        · refine ⟨f q, ?_, hqme⟩
          rw [hqueue]
          exact List.mem_map.mpr ⟨q, hmem, if_pos hqid⟩
        · intro pre r post hsplit hrme hpre
          rw [hqueue] at hsplit
          obtain ⟨pre', l, hl, hpre', hl'⟩ := List.map_eq_append_iff.mp hsplit
          obtain ⟨r', post', hl'', hr', hpost'⟩ := List.map_eq_cons_iff.mp hl'
          rw [hl''] at hl
          have hnodup : (pre' ++ r' :: post').Nodup := by
            rw [← hl]
            exact List.Nodup.of_map LockRequest.lrId (hinv.valid.nodup_ids ref.lock)
          have hr'mem : r' ∈ lm.queue ref.lock := by
            rw [hl]
            simp
          have hr'q : r' = q := by
            apply hinv.valid.eq_of_lrId_eq hr'mem hmem
            have hr'me : r'.lrTran = me := by
              rw [← hr'] at hrme
              split at hrme <;> exact hrme
            rw [hone r' hr'mem hr'me, hid]
          have hne {x : LockRequest} (hx : x ∈ pre' ∨ x ∈ post') : x ≠ q := by
            rw [← hr'q]
            rintro rfl
            rw [List.nodup_middle, List.nodup_cons, List.mem_append] at hnodup
            exact hnodup.1 hx
          have hpreq : pre = pre' := by
            rw [← hpre']
            conv_rhs => rw [← List.map_id pre']
            apply List.map_congr_left
            intro x hx
            exact hkeep (hl ▸ List.mem_append_left _ hx) (hne (Or.inl hx))
          have hpostq : post = post' := by
            rw [← hpost']
            conv_rhs => rw [← List.map_id post']
            apply List.map_congr_left
            intro x hx
            refine hkeep ?_ (hne (Or.inr hx))
            rw [hl]
            exact List.mem_append_right _ (List.mem_cons_of_mem _ hx)
          have hrq : r = f q := by
            rw [← hr', hr'q, if_pos hqid]
          obtain ⟨head, hfind, hheadq⟩ :=
            exists_find_of_queue_ne_nil (List.ne_nil_of_mem hmem)
          have hsound := (h.find hfind).sound
          rw [← hheadq, hl] at hsound
          rw [hrq, hpreq, hpostq]
          exact ⟨hrel, hsound.sublist ((List.sublist_cons_self r' post').append_left pre')⟩
      · apply Sound.lmgrUnlock
        refine hwait.setRequest ref fun r hr hrid => ⟨rfl, ?_, rfl, rfl⟩
        have hrq := hinv.valid.eq_of_lrId_eq hr hmem (hrid.trans hid.symm)
        rw [hrq]
        exact if_neg hconv

theorem LockMgr.Sound.lmgrLock (h : lm.Sound) (hinv : lm.Inv) {mode : LockMode}
    (hmode : mode ≠ .free) {lockClass : LockClass} {timeout : ℕ} {bouncep : Bool}
    {env : LockEnv} {reply : LockReply}
    (hharmless : lm.Harmless (.lock me lock mode lockClass timeout bouncep env))
    (heq : lmgrLock lm me lock mode lockClass timeout bouncep env = some (lm', reply)) :
    lm'.Sound := by
  rw [SolidDB.lmgrLock] at heq
  rw [Harmless] at hharmless
  cases hwait : (lm.lmTran me).ltWait with
  | some ref =>
      rw [hwait] at heq
      simp only [hwait] at hharmless
      exact h.lmgrLockWaiting hinv hwait hharmless heq
  | none =>
      simp only [hwait] at heq hharmless
      split at heq
      · rw [Option.some.injEq, Prod.mk.injEq] at heq
        rwa [← heq.1]
      · rename_i huse
        have huse' : lm.lmUselocks = true := by simpa using huse
        cases hf : lm.find lock with
        | none =>
            simp only [hf] at heq
            split at heq
            · rw [Option.some.injEq, Prod.mk.injEq] at heq
              rwa [← heq.1]
            · rw [Option.some.injEq, Prod.mk.injEq] at heq
              rw [← heq.1]
              intro head hhead
              rcases List.mem_cons.mp hhead with rfl | hhead
              · exact @soundGroup_new { newRequest lm me mode lockClass with lrOkcount := 1 }
                  rfl hmode
              · exact h head hhead
        | some head =>
            have hharmless' := hharmless head hf
            obtain rfl := lhLock_of_find hf
            simp only [hf] at heq
            cases hs : splitFirst me head.lhQueue with
            | none =>
                simp only [hs, Option.some.injEq] at heq hharmless'
                have hsound := h.lmgrLockNew hinv.valid hf (splitFirst_eq_none hs) hmode
                  lockClass huse' hharmless'
                rwa [heq] at hsound
            | some o =>
                obtain ⟨pre, req, post⟩ := o
                obtain ⟨hq, hreq, -⟩ := splitFirst_eq_some hs
                simp only [hs, Option.some.injEq] at heq hharmless'
                have hsound := h.lmgrLockAgain hinv.valid hf hq hreq hmode lockClass huse'
                  hharmless'
                rwa [heq] at hsound

theorem LockMgr.Sound.dbeLockmgrUnlock (h : lm.Sound) (me : ℕ) (lock : LockName) :
    (dbeLockmgrUnlock lm me lock).Sound := by
  rw [SolidDB.dbeLockmgrUnlock]
  split
  · exact h
  · have hunlock {ref : LockRef} := (h.setRequest ref (f := fun r =>
      { r with lrClass := .instant, lrCount := 1 })
      fun r _ _ => ⟨rfl, rfl, rfl, rfl⟩).lmgrUnlock me lock
    simp only
    split <;> exact hunlock

theorem LockMgr.Sound.dbeLockmgrCancelwaiting (h : lm.Sound) (hinv : lm.Inv)
    (heq : dbeLockmgrCancelwaiting lm me = some lm') : lm'.Sound := by
  rw [SolidDB.dbeLockmgrCancelwaiting, Option.bind_eq_some_iff] at heq
  obtain ⟨ref, href, heq⟩ := heq
  obtain ⟨-, q, hqmem, hqid, -, hqcnt, -⟩ := hinv.waits me ref href
  rw [Option.map_eq_some_iff] at heq
  obtain ⟨req, hreq, rfl⟩ := heq
  obtain ⟨hmem, hid⟩ := request_eq_some hreq
  have hcount : ¬ 1 < req.lrCount := by
    rw [hinv.valid.eq_of_lrId_eq hmem hqmem (hid.trans hqid.symm), hqcnt]
    decide
  split
  · apply Sound.lmgrUnlock
    exact h.setRequest ref fun r _ _ => ⟨rfl, rfl, rfl, rfl⟩
  · exact h

theorem LockMgr.Sound.unlockClassList {lockClass : LockClass} {altLess : Bool}
    {refs : List LockRef} (h : lm.Sound)
    (heq : unlockClassList me lockClass altLess refs lm = some lm') : lm'.Sound := by
  induction refs generalizing lm with
  | nil =>
      rw [SolidDB.unlockClassList, Option.some.injEq] at heq
      rwa [← heq]
  | cons ref refs ih =>
      rw [SolidDB.unlockClassList] at heq
      split at heq
      · exact ih h heq
      · simp only at heq
        split at heq
        · split at heq
          · simp at heq
          · refine ih (Sound.lmgrUnlock ?_ me ref.lock) heq
            exact h.setRequest ref fun r _ _ => ⟨rfl, rfl, rfl, rfl⟩
        · exact ih h heq

theorem LockMgr.Sound.dbeLockmgrUnlockall (h : lm.Sound)
    (heq : dbeLockmgrUnlockall lm me = some lm') : lm'.Sound := by
  rw [SolidDB.dbeLockmgrUnlockall, Option.map_eq_some_iff] at heq
  obtain ⟨lm₁, hclass, rfl⟩ := heq
  have hloop (n i : ℕ) {lm : LockMgr} (h : lm.Sound)
      (hclass : lmgrUnlockClass me .long true n i lm = some lm₁) : lm₁.Sound := by
    induction n generalizing i lm with
    | zero =>
        rw [lmgrUnlockClass, Option.some.injEq] at hclass
        rwa [← hclass]
    | succ n ih =>
        rw [lmgrUnlockClass, Option.bind_eq_some_iff] at hclass
        obtain ⟨lm₂, hlist, hclass⟩ := hclass
        exact ih (i + 1) (h.unlockClassList hlist) hclass
  exact hloop _ _ h hclass

theorem LockMgr.Sound.step (h : lm.Sound) (hinv : lm.Inv) {op : LockOp} (hop : op.Proper)
    (hharmless : lm.Harmless op) (heq : lm.step op = some lm') : lm'.Sound := by
  cases op with
  | lock me lock mode lockClass timeout bouncep env =>
      rw [LockMgr.step, Option.map_eq_some_iff] at heq
      obtain ⟨⟨lm₁, reply⟩, hlock, rfl⟩ := heq
      exact h.lmgrLock hinv hop hharmless hlock
  | unlock me lock =>
      rw [LockMgr.step, Option.some.injEq] at heq
      rw [← heq]
      exact h.dbeLockmgrUnlock me lock
  | cancelwaiting me => exact h.dbeLockmgrCancelwaiting hinv heq
  | unlockall me => exact h.dbeLockmgrUnlockall heq
  | setuselocks uselocks =>
      rw [LockMgr.step, Option.some.injEq] at heq
      rw [← heq]
      exact h

theorem LockMgr.SafelyReachable.reachable (h : lm.SafelyReachable) : lm.Reachable := by
  induction h with
  | init hashsize nmutexes h => exact Reachable.init hashsize nmutexes h
  | step op _ hop _ heq ih => exact ih.step op hop heq

theorem LockMgr.SafelyReachable.sound (h : lm.SafelyReachable) : lm.Sound := by
  induction h with
  | init hashsize nmutexes h =>
      intro head hhead
      exact absurd hhead List.not_mem_nil
  | step op h hop hharmless heq ih => exact ih.step h.reachable.inv hop hharmless heq

/-- In every state of a run of harmless calls all locks are safe. -/
theorem safelyReachable_safe (h : lm.SafelyReachable) : lm.Safe :=
  fun head hhead => (h.sound head hhead).safe

/-- The safety of a lock that two transactions hold in S. -/
theorem safelyReachable_safe_two :
    ∃ lm : LockMgr, (lm.queue ⟨0, 0⟩).map LockRequest.lrTran = [1, 2] ∧ lm.Safe := by
  have h₁ := (SafelyReachable.init 1 1 Nat.one_pos).step
    (.lock 1 ⟨0, 0⟩ .s .long 0 false ⟨false, false, true⟩) (by decide)
    (fun head hf => absurd hf (by simp [dbeLockmgrInit, find])) rfl
  have h₂ := h₁.step (.lock 2 ⟨0, 0⟩ .s .long 0 false ⟨false, false, true⟩) (by decide)
    (fun head hf => by
      obtain rfl := Option.some.inj hf
      exact fun _ _ _ => tameModes_of_ne_u (by decide)) rfl
  exact ⟨_, rfl, safelyReachable_safe h₂⟩

/-! ## Runs that are not safe -/

/-- A conversion refused at once leaves its denied request in the queue, which hides the
IS behind it from the next `lmgr_unlock`: X is granted beside IS. -/
theorem not_safe_denied :
    ∃ lm : LockMgr, lm.Reachable ∧ ¬ lm.Safe ∧
      ∃ r ∈ lm.queue ⟨0, 0⟩, ∃ s ∈ lm.queue ⟨0, 0⟩, r.lrTran ≠ s.lrTran ∧
        r.lrStatus = .granted ∧ s.lrStatus = .granted ∧ r.lrMode = .is ∧ s.lrMode = .x := by
  have hrun := @Reachable.run _ _
    [.lock 1 ⟨0, 0⟩ .s .long 0 false ⟨false, false, true⟩,
      .lock 2 ⟨0, 0⟩ .s .long 0 false ⟨false, false, true⟩,
      .lock 1 ⟨0, 0⟩ .x .long 0 false ⟨false, false, true⟩,
      .lock 3 ⟨0, 0⟩ .is .long 0 false ⟨false, false, true⟩,
      .unlock 2 ⟨0, 0⟩,
      .lock 4 ⟨0, 0⟩ .x .long 0 false ⟨false, false, true⟩]
    (Reachable.init 1 1 Nat.one_pos) (by decide) rfl
  refine ⟨_, hrun, fun hsafe => ?_, by decide⟩
  have hagree := (hsafe _ List.mem_cons_self).agree
  exact absurd hagree (by decide)

/-- U is compatible with S, which has hidden IS. -/
example : ∃ lm : LockMgr, lm.Reachable ∧
    ∃ r ∈ lm.queue ⟨0, 0⟩, ∃ s ∈ lm.queue ⟨0, 0⟩, r.lrTran ≠ s.lrTran ∧
      r.lrStatus = .granted ∧ s.lrStatus = .granted ∧ ¬ r.lrMode.Agree s.lrMode := by
  have hrun := @Reachable.run _ _
    [.lock 1 ⟨0, 0⟩ .is .long 0 false ⟨false, false, true⟩,
      .lock 2 ⟨0, 0⟩ .s .long 0 false ⟨false, false, true⟩,
      .lock 3 ⟨0, 0⟩ .u .long 0 false ⟨false, false, true⟩]
    (Reachable.init 1 1 Nat.one_pos) (by decide) rfl
  exact ⟨_, hrun, by decide⟩

end SolidDB
