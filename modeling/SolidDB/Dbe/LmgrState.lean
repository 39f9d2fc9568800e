import SolidDB.Dbe.Lmgr
import Mathlib.Algebra.BigOperators.Group.List.Basic
import Mathlib.Algebra.Order.Ring.Int

/-!
# Valid lock manager states

In every reachable state the lists of the transactions name the requests in the queues,
the newest first, no queue is empty, `lm_lockcnt` counts the requests, and the request
that a transaction waits for is its newest one. `LockMgr.Changes` says what a call does
to one queue and to the list of one transaction.
-/

namespace SolidDB

/-! ## The hash table -/

def LockMgr.nrequests (lm : LockMgr) : ℕ :=
  (lm.lmHash.map fun h => h.lhQueue.length).sum

theorem find?_map_setHead (hash : List LockHead) (head : LockHead) (lock : LockName) :
    (hash.map fun h => if h.lhLock = head.lhLock then head else h).find?
        (fun h => h.lhLock = lock) =
      (hash.find? fun h => h.lhLock = lock).map
        fun h => if h.lhLock = head.lhLock then head else h := by
  induction hash with
  | nil => rfl
  | cons h hash ih =>
      have hlock : (if h.lhLock = head.lhLock then head else h).lhLock = h.lhLock := by
        split
        · rename_i heq
          exact heq.symm
        · rfl
      rw [List.map_cons, List.find?_cons, List.find?_cons, hlock, ih]
      split <;> rfl

namespace LockMgr

variable {lm : LockMgr}

theorem lhLock_of_find {lock : LockName} {head : LockHead}
    (h : lm.find lock = some head) : head.lhLock = lock := by
  simpa using List.find?_some h

theorem mem_of_find {lock : LockName} {head : LockHead}
    (h : lm.find lock = some head) : head ∈ lm.lmHash :=
  List.mem_of_find?_eq_some h

theorem queue_of_find {lock : LockName} {head : LockHead}
    (h : lm.find lock = some head) : lm.queue lock = head.lhQueue := by
  rw [queue, h]

theorem queue_of_find_none {lock : LockName} (h : lm.find lock = none) :
    lm.queue lock = [] := by
  rw [queue, h]

/-- A lock whose queue is not empty has its head in the table. -/
theorem exists_find_of_queue_ne_nil {lock : LockName} (h : lm.queue lock ≠ []) :
    ∃ head, lm.find lock = some head ∧ lm.queue lock = head.lhQueue := by
  cases hf : lm.find lock with
  | none => exact absurd (queue_of_find_none hf) h
  | some head => exact ⟨head, rfl, queue_of_find hf⟩

theorem find_setHead {head h : LockHead} (hf : lm.find head.lhLock = some h)
    (lock : LockName) :
    (lm.setHead head).find lock = if lock = head.lhLock then some head else lm.find lock := by
  rw [find, setHead, find?_map_setHead]
  split
  · rename_i heq
    have hlock := lhLock_of_find hf
    rw [heq]
    change (lm.find head.lhLock).map _ = _
    rw [hf, Option.map_some, if_pos hlock]
  · rename_i hne
    change (lm.find lock).map _ = _
    cases hl : lm.find lock with
    | none => rfl
    | some h' =>
        have hlock := lhLock_of_find hl
        rw [Option.map_some, if_neg (by rw [hlock]; exact hne)]

theorem queue_setHead {head h : LockHead} (hf : lm.find head.lhLock = some h) :
    (lm.setHead head).queue = Function.update lm.queue head.lhLock head.lhQueue := by
  funext lock
  rw [queue, find_setHead hf, Function.update_apply]
  by_cases heq : lock = head.lhLock
  · rw [if_pos heq, if_pos heq]
  · rw [if_neg heq, if_neg heq, queue]

theorem find_removeHead (lock lock' : LockName) :
    (lm.removeHead lock).find lock' = if lock' = lock then none else lm.find lock' := by
  rw [find, removeHead, List.find?_filter]
  split
  · rename_i heq
    rw [List.find?_eq_none]
    intro h _
    simp [heq]
  · rename_i hne
    rw [find]
    congr 1
    funext h
    by_cases hl : h.lhLock = lock'
    · simp [hl, hne]
    · simp [hl]

theorem queue_removeHead (lock : LockName) :
    (lm.removeHead lock).queue = Function.update lm.queue lock [] := by
  funext lock'
  rw [queue, find_removeHead, Function.update_apply]
  by_cases heq : lock' = lock
  · rw [if_pos heq, if_pos heq]
  · rw [if_neg heq, if_neg heq, queue]

theorem map_lhLock_setHead (head : LockHead) :
    (lm.setHead head).lmHash.map LockHead.lhLock = lm.lmHash.map LockHead.lhLock := by
  rw [setHead, List.map_map]
  apply List.map_congr_left
  intro h _
  change (if h.lhLock = head.lhLock then head else h).lhLock = h.lhLock
  split
  · rename_i heq
    exact heq.symm
  · rfl

end LockMgr

/-- The sum over the heads, before and behind the change of one of them. -/
theorem sum_map_setHead {hash : List LockHead} {head h : LockHead}
    (hnodup : (hash.map LockHead.lhLock).Nodup)
    (hf : (hash.find? fun h => h.lhLock = head.lhLock) = some h) :
    ((hash.map fun h => if h.lhLock = head.lhLock then head else h).map
        fun h => h.lhQueue.length).sum + h.lhQueue.length =
      (hash.map fun h => h.lhQueue.length).sum + head.lhQueue.length := by
  induction hash with
  | nil => simp at hf
  | cons h' hash ih =>
      rw [List.map_cons, List.nodup_cons] at hnodup
      rw [List.find?_cons] at hf
      by_cases heq : h'.lhLock = head.lhLock
      · have hrest : (hash.map fun h => if h.lhLock = head.lhLock then head else h) =
            hash := by
          conv_rhs => rw [← List.map_id hash]
          apply List.map_congr_left
          intro x hx
          rw [if_neg]
          · rfl
          · intro hxl
            exact hnodup.1 (heq ▸ hxl ▸ List.mem_map_of_mem hx)
        simp only [heq, decide_true] at hf
        obtain rfl : h' = h := by simpa using hf
        rw [List.map_cons, hrest, if_pos heq, List.map_cons, List.map_cons, List.sum_cons,
          List.sum_cons]
        omega
      · simp only [heq, decide_false] at hf
        have := ih hnodup.2 hf
        rw [List.map_cons, if_neg heq, List.map_cons, List.map_cons, List.sum_cons,
          List.sum_cons]
        omega

theorem sum_filter_removeHead {hash : List LockHead} {lock : LockName} {h : LockHead}
    (hnodup : (hash.map LockHead.lhLock).Nodup)
    (hf : (hash.find? fun h => h.lhLock = lock) = some h) :
    ((hash.filter fun h => h.lhLock ≠ lock).map fun h => h.lhQueue.length).sum +
        h.lhQueue.length =
      (hash.map fun h => h.lhQueue.length).sum := by
  induction hash with
  | nil => simp at hf
  | cons h' hash ih =>
      rw [List.map_cons, List.nodup_cons] at hnodup
      rw [List.find?_cons] at hf
      by_cases heq : h'.lhLock = lock
      · have hrest : (hash.filter fun h => h.lhLock ≠ lock) = hash := by
          rw [List.filter_eq_self]
          intro x hx
          rw [decide_eq_true_eq]
          intro hxl
          exact hnodup.1 (heq ▸ hxl ▸ List.mem_map_of_mem hx)
        simp only [heq, decide_true] at hf
        obtain rfl : h' = h := by simpa using hf
        rw [List.filter_cons_of_neg (by simp [heq]), hrest, List.map_cons, List.sum_cons]
        omega
      · simp only [heq, decide_false] at hf
        have := ih hnodup.2 hf
        rw [List.filter_cons_of_pos (by simp [heq]), List.map_cons, List.map_cons,
          List.sum_cons, List.sum_cons]
        omega

/-! ## Valid states -/

def ownIds (me : ℕ) (queue : List LockRequest) : List ℕ :=
  (queue.filter fun r => r.lrTran = me).map LockRequest.lrId

def refsOf (lock : LockName) (locks : List LockRef) : List LockRef :=
  locks.filter fun ref => ref.lock = lock

structure LockMgr.Valid (lm : LockMgr) : Prop where
  nodup_locks : (lm.lmHash.map LockHead.lhLock).Nodup
  queue_ne_nil : ∀ h ∈ lm.lmHash, h.lhQueue ≠ []
  nmutexes_pos : 0 < lm.lmNmutexes
  lockcnt_eq : lm.lmLockcnt = lm.nrequests
  nodup_ids : ∀ lock, ((lm.queue lock).map LockRequest.lrId).Nodup
  id_lt : ∀ lock, ∀ r ∈ lm.queue lock, r.lrId < lm.lmNextid
  locks_eq : ∀ me lock, (refsOf lock (lm.lmTran me).ltLocks).map LockRef.id =
    (ownIds me (lm.queue lock)).reverse

/-- The request that the transaction waits for is its newest one, and it has been
asked for once. -/
def LockMgr.WaitsForNewest (lm : LockMgr) (me : ℕ) : Prop :=
  ∀ ref, (lm.lmTran me).ltWait = some ref →
    (∃ rest, (lm.lmTran me).ltLocks = ref :: rest) ∧
      ∃ r ∈ lm.queue ref.lock, r.lrId = ref.id ∧ r.lrTran = me ∧ r.lrCount = 1 ∧
        r.lrStatus ≠ .denied

/-- The call changes the queue of `lock` to `queue` and the list of `me` to `locks`. -/
structure LockMgr.Changes (lm lm' : LockMgr) (me : ℕ) (lock : LockName)
    (queue : List LockRequest) (locks : List LockRef) : Prop where
  queue_eq : lm'.queue = Function.update lm.queue lock queue
  locks_eq : ∀ t, (lm'.lmTran t).ltLocks = if t = me then locks else (lm.lmTran t).ltLocks
  nodup_locks : (lm'.lmHash.map LockHead.lhLock).Nodup
  queue_ne_nil : ∀ h ∈ lm'.lmHash, h.lhQueue ≠ []
  nrequests_eq : lm'.nrequests + (lm.queue lock).length = lm.nrequests + queue.length
  lockcnt_eq : lm'.lmLockcnt + (lm.queue lock).length = lm.lmLockcnt + queue.length
  nextid_le : lm.lmNextid ≤ lm'.lmNextid
  nmutexes_eq : lm'.lmNmutexes = lm.lmNmutexes
  hashsize_eq : lm'.lmHashsize = lm.lmHashsize

theorem LockMgr.Valid.changes {lm lm' : LockMgr} {me : ℕ} {lock : LockName}
    {queue : List LockRequest} {locks : List LockRef} (h : lm.Valid)
    (hc : lm.Changes lm' me lock queue locks)
    (hids : (queue.map LockRequest.lrId).Nodup)
    (hlt : ∀ r ∈ queue, r.lrId < lm'.lmNextid)
    (hown : (refsOf lock locks).map LockRef.id = (ownIds me queue).reverse)
    (hothers : ∀ t, t ≠ me → ownIds t queue = ownIds t (lm.queue lock))
    (hlocks : ∀ lock', lock' ≠ lock →
      refsOf lock' locks = refsOf lock' (lm.lmTran me).ltLocks) : lm'.Valid where
  nodup_locks := hc.nodup_locks
  queue_ne_nil := hc.queue_ne_nil
  nmutexes_pos := by
    rw [hc.nmutexes_eq]
    exact h.nmutexes_pos
  lockcnt_eq := by
    have h1 := hc.nrequests_eq
    have h2 := hc.lockcnt_eq
    have h3 := h.lockcnt_eq
    omega
  nodup_ids lock' := by
    rw [hc.queue_eq, Function.update_apply]
    split
    · exact hids
    · exact h.nodup_ids lock'
  id_lt lock' := by
    rw [hc.queue_eq, Function.update_apply]
    split
    · exact hlt
    · intro r hr
      exact (h.id_lt lock' r hr).trans_le hc.nextid_le
  locks_eq t lock' := by
    rw [hc.queue_eq, hc.locks_eq, Function.update_apply]
    by_cases hl : lock' = lock
    · rw [if_pos hl]
      by_cases ht : t = me
      · rw [if_pos ht, hl, ht, hown]
      · rw [if_neg ht, hothers t ht, hl, h.locks_eq]
    · rw [if_neg hl]
      by_cases ht : t = me
      · rw [if_pos ht, hlocks lock' hl, ht, h.locks_eq]
      · rw [if_neg ht, h.locks_eq]

/-! ## The parts of a call -/

namespace LockMgr

variable {lm lm' : LockMgr} {me : ℕ} {lock : LockName} {head h : LockHead}
  {queue : List LockRequest} {locks : List LockRef}

theorem Valid.changes_setHead (hv : lm.Valid) (hf : lm.find head.lhLock = some h)
    (hne : head.lhQueue ≠ []) (hlen : head.lhQueue.length = h.lhQueue.length) (me : ℕ) :
    lm.Changes (lm.setHead head) me head.lhLock head.lhQueue
      (lm.lmTran me).ltLocks where
  queue_eq := queue_setHead hf
  locks_eq t := by
    split
    · rename_i ht
      rw [ht]
      rfl
    · rfl
  nodup_locks := by
    rw [map_lhLock_setHead]
    exact hv.nodup_locks
  queue_ne_nil := by
    intro h' hh'
    rw [setHead] at hh'
    obtain ⟨h'', hmem, rfl⟩ := List.mem_map.mp hh'
    split
    · exact hne
    · exact hv.queue_ne_nil h'' hmem
  nrequests_eq := by
    rw [queue_of_find hf]
    exact sum_map_setHead hv.nodup_locks hf
  lockcnt_eq := by
    rw [queue_of_find hf, hlen]
    rfl
  nextid_le := le_refl _
  nmutexes_eq := rfl
  hashsize_eq := rfl

theorem Valid.setHead (hv : lm.Valid) (hf : lm.find head.lhLock = some h)
    (hmap : head.lhQueue.map (fun r => (r.lrId, r.lrTran)) =
      h.lhQueue.map fun r => (r.lrId, r.lrTran)) : (lm.setHead head).Valid := by
  have hlen : head.lhQueue.length = h.lhQueue.length := by
    have := congrArg List.length hmap
    rwa [List.length_map, List.length_map] at this
  have hne : head.lhQueue ≠ [] := by
    have := hv.queue_ne_nil h (mem_of_find hf)
    rw [Ne, ← List.length_eq_zero_iff, hlen, List.length_eq_zero_iff]
    exact this
  have hids : head.lhQueue.map LockRequest.lrId = h.lhQueue.map LockRequest.lrId := by
    have := congrArg (List.map Prod.fst) hmap
    rwa [List.map_map, List.map_map] at this
  have hown (t : ℕ) : ownIds t head.lhQueue = ownIds t h.lhQueue := by
    have := congrArg (fun l => (l.filter fun p => p.2 = t).map Prod.fst) hmap
    simp only [List.filter_map, List.map_map] at this
    exact this
  apply hv.changes (hv.changes_setHead hf hne hlen 0)
  · rw [hids, ← queue_of_find hf]
    exact hv.nodup_ids _
  · intro r hr
    have hmem : r.lrId ∈ h.lhQueue.map LockRequest.lrId := by
      rw [← hids]
      exact List.mem_map_of_mem hr
    obtain ⟨r', hr', heq⟩ := List.mem_map.mp hmem
    rw [← heq]
    rw [← queue_of_find hf] at hr'
    exact hv.id_lt _ r' hr'
  · rw [hown, ← queue_of_find hf]
    exact hv.locks_eq 0 _
  · intro t _
    rw [hown, queue_of_find hf]
  · intro _ _
    rfl

/-- What one request keeps makes no difference to the table. -/
theorem Valid.setRequest (hv : lm.Valid) (ref : LockRef) {f : LockRequest → LockRequest}
    (hid : ∀ r, (f r).lrId = r.lrId) (htran : ∀ r, (f r).lrTran = r.lrTran) :
    (lm.setRequest ref f).Valid := by
  rw [LockMgr.setRequest]
  split
  · rename_i h hf
    have hlock := lhLock_of_find hf
    rw [← hlock] at hf
    refine @Valid.setHead lm { h with lhQueue := _ } h hv hf ?_
    rw [List.map_map]
    apply List.map_congr_left
    intro r _
    change ((if r.lrId = ref.id then f r else r).lrId,
      (if r.lrId = ref.id then f r else r).lrTran) = _
    split
    · rw [hid, htran]
    · rfl
  · exact hv

theorem queue_setRequest (ref : LockRef) (f : LockRequest → LockRequest) :
    (lm.setRequest ref f).queue = Function.update lm.queue ref.lock
      ((lm.queue ref.lock).map fun r => if r.lrId = ref.id then f r else r) := by
  rw [LockMgr.setRequest]
  split
  · rename_i h hf
    have hlock := lhLock_of_find hf
    rw [queue_of_find hf]
    rw [← hlock] at hf ⊢
    exact @queue_setHead lm { h with lhQueue := _ } h hf
  · rename_i hf
    rw [queue_of_find_none hf, List.map_nil]
    funext lock
    rw [Function.update_apply]
    split
    · rename_i heq
      rw [heq, queue_of_find_none hf]
    · rfl

@[simp] theorem lmTran_setRequest (ref : LockRef) (f : LockRequest → LockRequest) :
    (lm.setRequest ref f).lmTran = lm.lmTran := by
  rw [LockMgr.setRequest]
  split <;> rfl

@[simp] theorem queue_setWait (wait : Option LockRef) :
    (lm.setWait me wait).queue = lm.queue := rfl

theorem ltLocks_setWait (wait : Option LockRef) (t : ℕ) :
    ((lm.setWait me wait).lmTran t).ltLocks = (lm.lmTran t).ltLocks := by
  simp only [setWait, Function.update_apply]
  split
  · rename_i ht
    rw [ht]
  · rfl

theorem ltWait_setWait (wait : Option LockRef) (t : ℕ) :
    ((lm.setWait me wait).lmTran t).ltWait = if t = me then wait else (lm.lmTran t).ltWait := by
  simp only [setWait, Function.update_apply]
  split <;> rfl

theorem ltLocks_setLocks (locks : List LockRef) (t : ℕ) :
    ((lm.setLocks me locks).lmTran t).ltLocks =
      if t = me then locks else (lm.lmTran t).ltLocks := by
  simp only [setLocks, Function.update_apply]
  split <;> rfl

theorem ltWait_setLocks (locks : List LockRef) (t : ℕ) :
    ((lm.setLocks me locks).lmTran t).ltWait = (lm.lmTran t).ltWait := by
  simp only [setLocks, Function.update_apply]
  split
  · rename_i ht
    rw [ht]
  · rfl

/-- Whom a transaction waits for makes no difference to the table. -/
theorem Valid.setWait (hv : lm.Valid) (me : ℕ) (wait : Option LockRef) :
    (lm.setWait me wait).Valid where
  nodup_locks := hv.nodup_locks
  queue_ne_nil := hv.queue_ne_nil
  nmutexes_pos := hv.nmutexes_pos
  lockcnt_eq := hv.lockcnt_eq
  nodup_ids := hv.nodup_ids
  id_lt := hv.id_lt
  locks_eq t lock := by
    rw [ltLocks_setWait]
    exact hv.locks_eq t lock

end LockMgr

/-! ## Unlocking -/

def LockRequest.Released (r : LockRequest) : Prop :=
  ¬ (LockClass.long.num < r.lrClass.num ∨ 1 < r.lrCount)

theorem released_of_instant {r : LockRequest} (hclass : r.lrClass = .instant)
    (hcount : r.lrCount = 1) : r.Released := by
  rw [LockRequest.Released, hclass, hcount]
  decide

def LockHead.regranted (head : LockHead) (queue : List LockRequest) : LockHead :=
  { head with
    lhQueue := (regrant queue).1
    lhGrantedMode := (regrant queue).2.1
    lhWaiting := (regrant queue).2.2 }

inductive LockMgr.Unlocks (lm : LockMgr) (me : ℕ) (lock : LockName) :
    LockMgr × Option LockRef → Prop
  | absent (h : ∀ r ∈ lm.queue lock, r.lrTran ≠ me) : Unlocks lm me lock (lm, none)
  | kept {head : LockHead} {pre post : List LockRequest} {r : LockRequest}
      (hf : lm.find lock = some head) (hq : head.lhQueue = pre ++ r :: post)
      (hr : r.lrTran = me) (hpre : ∀ x ∈ pre, x.lrTran ≠ me) (hrel : ¬ r.Released) :
      Unlocks lm me lock (lm.setHead { head with
        lhQueue := pre ++ { r with lrCount := r.lrCount - 1 } :: post }, none)
  | last {head : LockHead} {r : LockRequest} (hf : lm.find lock = some head)
      (hq : head.lhQueue = [r]) (hr : r.lrTran = me) (hrel : r.Released) :
      Unlocks lm me lock (lockRequestFree (lm.removeHead lock) me ⟨r.lrId, lock⟩,
        some ⟨r.lrId, lock⟩)
  | removed {head : LockHead} {pre post : List LockRequest} {r : LockRequest}
      (hf : lm.find lock = some head) (hq : head.lhQueue = pre ++ r :: post)
      (hr : r.lrTran = me) (hpre : ∀ x ∈ pre, x.lrTran ≠ me) (hrel : r.Released)
      (hne : pre ++ post ≠ []) :
      Unlocks lm me lock (lockRequestFree (lm.setHead (head.regranted (pre ++ post))) me
        ⟨r.lrId, lock⟩, some ⟨r.lrId, lock⟩)

theorem lmgrUnlock_unlocks (lm : LockMgr) (me : ℕ) (lock : LockName) :
    lm.Unlocks me lock (lmgrUnlock lm me lock) := by
  rw [lmgrUnlock]
  cases hf : lm.find lock with
  | none =>
      apply LockMgr.Unlocks.absent
      rw [LockMgr.queue_of_find_none hf]
      simp
  | some head =>
      cases hs : splitFirst me head.lhQueue with
      | none =>
          simp only [hs]
          apply LockMgr.Unlocks.absent
          rw [LockMgr.queue_of_find hf]
          exact splitFirst_eq_none hs
      | some o =>
          obtain ⟨pre, r, post⟩ := o
          obtain ⟨hq, hr, hpre⟩ := splitFirst_eq_some hs
          simp only [hs]
          split
          · rename_i hrel
            exact .kept hf hq hr hpre (not_not.mpr hrel)
          · rename_i hrel
            split
            · rename_i hnil
              rw [List.append_eq_nil_iff] at hnil
              rw [hnil.1, hnil.2] at hq
              exact .last hf hq hr hrel
            · rename_i hne
              exact .removed hf hq hr hpre hrel hne

end SolidDB
