import SolidDB.Dbe.LmgrQueue

/-!
# The lock manager

`lmgr_lock`, `lmgr_unlock` and the operations built on them. The hash table is the list
of its lock heads; a transaction keeps the list of its requests, the newest first, and
the request it waits for. The clock and the deadlock detector are inputs: `LockEnv` has
their answers.
-/

namespace SolidDB

/-! ## The state -/

structure LockName where
  relid : ℕ
  name : ℕ
  deriving DecidableEq

structure LockHead where
  lhLock : LockName
  lhQueue : List LockRequest
  lhGrantedMode : LockMode
  lhWaiting : Bool
  deriving DecidableEq

/-- A pointer to a request: its address and the lock of its `lr_head`. -/
structure LockRef where
  id : ℕ
  lock : LockName
  deriving DecidableEq

/-- `dbe_locktran_t`. `ltLocks` are the lists of all mutexes in one, the newest request
first. -/
structure LockTran where
  ltLocks : List LockRef
  ltWait : Option LockRef

/-- `dbe_lockmgr_t` without its counters of events and its free lists. `lmNextid` is the
next address that `lock_request_alloc` gives. -/
structure LockMgr where
  lmHash : List LockHead
  lmTran : ℕ → LockTran
  lmNextid : ℕ
  lmLockcnt : ℤ
  lmUselocks : Bool
  lmHashsize : ℕ
  lmNmutexes : ℕ

inductive LockReply where
  | ok
  | timeout
  | deadlock
  | wait
  deriving DecidableEq

/-- The answers of the surroundings to one call: whether the time of a wait has passed
(`SsTimeCmp(now, lr_timeout) >= 0`), whether `lmgr_isdeadlock` is in use and finds a
cycle, and whether the client has a task that can wait. -/
structure LockEnv where
  expired : Bool
  isdeadlock : Bool
  task : Bool

def dbeLockmgrInit (hashsize nmutexes : ℕ) : LockMgr where
  lmHash := []
  lmTran := fun _ => ⟨[], none⟩
  lmNextid := 0
  lmLockcnt := 0
  lmUselocks := true
  lmHashsize := hashsize
  lmNmutexes := nmutexes

namespace LockMgr

def mutex (lm : LockMgr) (name : ℕ) : ℕ := name % lm.lmHashsize % lm.lmNmutexes

def find (lm : LockMgr) (lock : LockName) : Option LockHead :=
  lm.lmHash.find? fun h => h.lhLock = lock

def queue (lm : LockMgr) (lock : LockName) : List LockRequest :=
  match lm.find lock with
  | some h => h.lhQueue
  | none => []

def request (lm : LockMgr) (ref : LockRef) : Option LockRequest :=
  (lm.queue ref.lock).find? fun r => r.lrId = ref.id

def setHead (lm : LockMgr) (head : LockHead) : LockMgr :=
  { lm with lmHash := lm.lmHash.map fun h => if h.lhLock = head.lhLock then head else h }

def removeHead (lm : LockMgr) (lock : LockName) : LockMgr :=
  { lm with lmHash := lm.lmHash.filter fun h => h.lhLock ≠ lock }

def setRequest (lm : LockMgr) (ref : LockRef) (f : LockRequest → LockRequest) : LockMgr :=
  match lm.find ref.lock with
  | some h => lm.setHead
      { h with lhQueue := h.lhQueue.map fun r => if r.lrId = ref.id then f r else r }
  | none => lm

def setLocks (lm : LockMgr) (me : ℕ) (locks : List LockRef) : LockMgr :=
  { lm with lmTran := Function.update lm.lmTran me { lm.lmTran me with ltLocks := locks } }

def setWait (lm : LockMgr) (me : ℕ) (wait : Option LockRef) : LockMgr :=
  { lm with lmTran := Function.update lm.lmTran me { lm.lmTran me with ltWait := wait } }

end LockMgr

/-! ## The operations -/

def newRequest (lm : LockMgr) (me : ℕ) (mode : LockMode) (lockClass : LockClass) :
    LockRequest where
  lrId := lm.lmNextid
  lrTran := me
  lrStatus := .granted
  lrMode := mode
  lrConvertMode := .free
  lrCount := 1
  lrOkcount := 0
  lrClass := lockClass

/-- The bookkeeping of `lock_request_alloc` and its callers: the request is the newest
of the transaction, and there is one request more. -/
def lockRequestAlloc (lm : LockMgr) (me : ℕ) (lock : LockName) : LockMgr :=
  { lm.setLocks me (⟨lm.lmNextid, lock⟩ :: (lm.lmTran me).ltLocks) with
    lmNextid := lm.lmNextid + 1
    lmLockcnt := lm.lmLockcnt + 1 }

/-- `lock_request_free`, with the decrement of `lm_lockcnt` beside each call. -/
def lockRequestFree (lm : LockMgr) (me : ℕ) (ref : LockRef) : LockMgr :=
  { lm.setLocks me ((lm.lmTran me).ltLocks.filter (· ≠ ref)) with
    lmLockcnt := lm.lmLockcnt - 1 }

/-- `lmgr_unlock`, with the request that it freed. -/
def lmgrUnlock (lm : LockMgr) (me : ℕ) (lock : LockName) : LockMgr × Option LockRef :=
  match lm.find lock with
  | none => (lm, none)
  | some head =>
      match splitFirst me head.lhQueue with
      | none => (lm, none)
      | some (pre, req, post) =>
          if LockClass.long.num < req.lrClass.num ∨ 1 < req.lrCount then
            (lm.setHead { head with
              lhQueue := pre ++ { req with lrCount := req.lrCount - 1 } :: post }, none)
          else if pre ++ post = [] then
            (lockRequestFree (lm.removeHead lock) me ⟨req.lrId, lock⟩,
              some ⟨req.lrId, lock⟩)
          else
            let (queue, grantedMode, waiting) := regrant (pre ++ post)
            (lockRequestFree (lm.setHead { head with
                lhQueue := queue
                lhGrantedMode := grantedMode
                lhWaiting := waiting }) me ⟨req.lrId, lock⟩,
              some ⟨req.lrId, lock⟩)

/-- `lmgr_lock` where the transaction waits for a lock. It fails where the awaited
request does not exist. -/
def lmgrLockWaiting (lm : LockMgr) (me : ℕ) (ref : LockRef) (env : LockEnv) :
    Option (LockMgr × LockReply) :=
  (lm.request ref).map fun req =>
    if req.lrStatus = .granted then
      ((lm.setWait me none).setRequest ref
        fun r => { r with lrOkcount := r.lrOkcount + 1 }, .ok)
    else if (req.lrStatus = .waiting ∨ req.lrStatus = .converting) ∧ !env.expired then
      (lm, .wait)
    else
      let lm := (lm.setWait me none).setRequest ref fun r =>
        { r with
          lrStatus := if r.lrStatus = .converting then .denied else r.lrStatus
          lrClass := .instant }
      ((lmgrUnlock lm me ref.lock).1,
        -- `LOCK_DENIED` as a reply has the number of `LOCK_WAIT`
        if req.lrStatus = .denied then .wait else .timeout)

/-- The end of `lmgr_lock` where the new request `req` of `me` has to wait. -/
def lmgrLockMustWait (lm : LockMgr) (me : ℕ) (head : LockHead) (req : LockRequest)
    (timeout : ℕ) (env : LockEnv) : LockMgr × LockReply :=
  if timeout ≠ 0 ∧ !env.isdeadlock ∧ env.task then
    (((lockRequestAlloc lm me head.lhLock).setHead { head with
        lhQueue := head.lhQueue ++ [req]
        lhWaiting := true }).setWait me (some ⟨req.lrId, head.lhLock⟩), .wait)
  else
    let lm := ((lockRequestAlloc lm me head.lhLock).setHead { head with
      lhQueue := head.lhQueue ++
        [{ req with lrStatus := .denied, lrClass := .instant }] }).setWait me none
    ((lmgrUnlock lm me head.lhLock).1, .timeout)

/-- `lmgr_lock` where the transaction has no request for the lock yet. -/
def lmgrLockNew (lm : LockMgr) (me : ℕ) (head : LockHead) (mode : LockMode)
    (lockClass : LockClass) (timeout : ℕ) (bouncep : Bool) (env : LockEnv) :
    LockMgr × LockReply :=
  let req := newRequest lm me mode lockClass
  if !head.lhWaiting ∧ lockCompat mode head.lhGrantedMode then
    if bouncep then (lm, .ok)
    else
      ((lockRequestAlloc lm me head.lhLock).setHead { head with
        lhQueue := head.lhQueue ++ [{ req with lrOkcount := 1 }]
        lhGrantedMode := lockMax mode head.lhGrantedMode }, .ok)
  else if bouncep then (lm, .timeout)
  else lmgrLockMustWait lm me head { req with lrStatus := .waiting } timeout env

/-- `lmgr_lock` where `req` is the first request of the transaction for the lock; `pre`
and `post` are the requests around it. -/
def lmgrLockAgain (lm : LockMgr) (me : ℕ) (head : LockHead)
    (pre : List LockRequest) (req : LockRequest) (post : List LockRequest)
    (mode : LockMode) (lockClass : LockClass) (timeout : ℕ) (env : LockEnv) :
    LockMgr × LockReply :=
  let reqMode := lockMax mode req.lrMode
  if mode.num ≤ req.lrMode.num then
    (lm.setHead { head with
      lhQueue := pre ++ { req with
        lrClass := classMax lockClass req.lrClass
        lrCount := req.lrCount + 1
        lrOkcount := req.lrOkcount + 1 } :: post }, .ok)
  else if lockCompat reqMode (othersGroup me head.lhQueue .free) then
    (lm.setHead { head with
      lhQueue := pre ++ { req with
        lrClass := classMax lockClass req.lrClass
        lrCount := req.lrCount + 1
        lrStatus := .granted
        lrMode := reqMode
        lrOkcount := req.lrOkcount + 1 } :: post
      lhGrantedMode := lockMax reqMode head.lhGrantedMode }, .ok)
  else
    lmgrLockMustWait lm me head { newRequest lm me mode lockClass with
      lrStatus := .converting
      lrConvertMode := mode } timeout env

def lmgrLock (lm : LockMgr) (me : ℕ) (lock : LockName) (mode : LockMode)
    (lockClass : LockClass) (timeout : ℕ) (bouncep : Bool) (env : LockEnv) :
    Option (LockMgr × LockReply) :=
  match (lm.lmTran me).ltWait with
  | some ref => lmgrLockWaiting lm me ref env
  | none =>
      if !lm.lmUselocks then some (lm, .ok)
      else
        match lm.find lock with
        | none =>
            if bouncep then some (lm, .ok)
            else
              let req := { newRequest lm me mode lockClass with lrOkcount := 1 }
              some ({ lockRequestAlloc lm me lock with
                lmHash := ⟨lock, [req], mode, false⟩ :: lm.lmHash }, .ok)
        | some head =>
            match splitFirst me head.lhQueue with
            | none => some (lmgrLockNew lm me head mode lockClass timeout bouncep env)
            | some (pre, req, post) =>
                some (lmgrLockAgain lm me head pre req post mode lockClass timeout env)

def dbeLockmgrUnlock (lm : LockMgr) (me : ℕ) (lock : LockName) : LockMgr :=
  match (lm.lmTran me).ltLocks.find? fun ref => ref.lock = lock with
  | none => lm
  | some ref =>
      let lm := (lmgrUnlock (lm.setRequest ref fun r =>
        { r with lrClass := .instant, lrCount := 1 }) me lock).1
      if (lm.lmTran me).ltWait = some ref then lm.setWait me none else lm

/-- `dbe_lockmgr_cancelwaiting`. It fails where the transaction does not wait. -/
def dbeLockmgrCancelwaiting (lm : LockMgr) (me : ℕ) : Option LockMgr :=
  (lm.lmTran me).ltWait.bind fun ref =>
    (lm.request ref).map fun req =>
      let lm :=
        if req.lrStatus ≠ .granted then
          if 1 < req.lrCount then
            lm.setRequest ref fun r =>
              { r with lrStatus := .granted, lrCount := r.lrCount - 1 }
          else
            (lmgrUnlock (lm.setRequest ref fun r => { r with lrClass := .instant })
              me ref.lock).1
        else lm
      lm.setWait me none

/-- The loop of `lmgr_unlock_class` over the list of one mutex. A request that was
unlinked before it is reached is not visited; the loop fails where the request whose
address it has saved as the next one is freed, which is the check `CHK_LOCKREQ`. -/
def unlockClassList (me : ℕ) (lockClass : LockClass) (altLess : Bool) :
    List LockRef → LockMgr → Option LockMgr
  | [], lm => some lm
  | ref :: rest, lm =>
      match lm.request ref with
      | none => unlockClassList me lockClass altLess rest lm
      | some req =>
          let next := rest.find? fun r => (lm.request r).isSome
          if req.lrClass = lockClass ∨ (req.lrClass.num < lockClass.num ∧ altLess) then
            let (lm, freed) := lmgrUnlock (lm.setRequest ref fun r =>
              { r with lrClass := .instant, lrCount := 1 }) me ref.lock
            if freed.isSome ∧ freed = next then none
            else unlockClassList me lockClass altLess rest lm
          else unlockClassList me lockClass altLess rest lm

/-- `lmgr_unlock_class`: the mutexes from `i` on, `n` of them. -/
def lmgrUnlockClass (me : ℕ) (lockClass : LockClass) (altLess : Bool) :
    ℕ → ℕ → LockMgr → Option LockMgr
  | 0, _, lm => some lm
  | n + 1, i, lm =>
      (unlockClassList me lockClass altLess
        ((lm.lmTran me).ltLocks.filter fun ref => lm.mutex ref.lock.name = i) lm).bind
        (lmgrUnlockClass me lockClass altLess n (i + 1))

def dbeLockmgrUnlockall (lm : LockMgr) (me : ℕ) : Option LockMgr :=
  (lmgrUnlockClass me .long true lm.lmNmutexes 0 lm).map fun lm => lm.setWait me none

/-! ## Runs -/

inductive LockOp where
  | lock (me : ℕ) (lock : LockName) (mode : LockMode) (lockClass : LockClass)
      (timeout : ℕ) (bouncep : Bool) (env : LockEnv)
  | unlock (me : ℕ) (lock : LockName)
  | cancelwaiting (me : ℕ)
  | unlockall (me : ℕ)
  | setuselocks (uselocks : Bool)

def LockOp.me : LockOp → Option ℕ
  | .lock me _ _ _ _ _ _ => some me
  | .unlock me _ => some me
  | .cancelwaiting me => some me
  | .unlockall me => some me
  | .setuselocks _ => none

/-- `LOCK_FREE` is not a mode to ask for. -/
def LockOp.Proper : LockOp → Prop
  | .lock _ _ mode _ _ _ _ => mode ≠ .free
  | _ => True

instance : DecidablePred LockOp.Proper := fun op => by
  cases op <;> unfold LockOp.Proper <;> infer_instance

def LockMgr.step (lm : LockMgr) : LockOp → Option LockMgr
  | .lock me lock mode lockClass timeout bouncep env =>
      (lmgrLock lm me lock mode lockClass timeout bouncep env).map Prod.fst
  | .unlock me lock => some (dbeLockmgrUnlock lm me lock)
  | .cancelwaiting me => dbeLockmgrCancelwaiting lm me
  | .unlockall me => dbeLockmgrUnlockall lm me
  | .setuselocks uselocks => some { lm with lmUselocks := uselocks }

def LockMgr.run (lm : LockMgr) : List LockOp → Option LockMgr
  | [] => some lm
  | op :: ops => (lm.step op).bind fun lm => lm.run ops

inductive LockMgr.Reachable : LockMgr → Prop
  | init (hashsize nmutexes : ℕ) (h : 0 < nmutexes) :
      Reachable (dbeLockmgrInit hashsize nmutexes)
  | step {lm lm' : LockMgr} (op : LockOp) (h : Reachable lm) (hop : op.Proper)
      (heq : lm.step op = some lm') : Reachable lm'

theorem LockMgr.Reachable.run {lm lm' : LockMgr} {ops : List LockOp} (h : lm.Reachable)
    (hops : ∀ op ∈ ops, op.Proper) (heq : lm.run ops = some lm') : lm'.Reachable := by
  induction ops generalizing lm with
  | nil =>
      rw [LockMgr.run, Option.some.injEq] at heq
      rwa [← heq]
  | cons op ops ih =>
      rw [LockMgr.run, Option.bind_eq_some_iff] at heq
      obtain ⟨lm'', hstep, heq⟩ := heq
      obtain ⟨hop, hops⟩ := List.forall_mem_cons.mp hops
      exact ih (h.step op hop hstep) hops heq

end SolidDB
