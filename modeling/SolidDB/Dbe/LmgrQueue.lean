import Mathlib.Data.List.Forall2
import Mathlib.Data.Fintype.Basic

/-!
# Lock modes and lock queues

The lock modes with `lock_max` and `lock_compat`, the requests of a lock and what
`lmgr_unlock` does with the queue that is left: it computes the mode of the granted
group and wakes the waiters in the order of the queue.
-/

namespace SolidDB

/-! ## Modes -/

inductive LockMode where
  | free
  | is
  | ix
  | s
  | six
  | u
  | x
  deriving DecidableEq

instance : Fintype LockMode where
  elems := {.free, .is, .ix, .s, .six, .u, .x}
  complete m := by cases m <;> decide

def LockMode.num : LockMode → ℕ
  | .free => 0
  | .is => 1
  | .ix => 2
  | .s => 3
  | .six => 4
  | .u => 5
  | .x => 6

def convertMatrix : LockMode → List LockMode
  | .free => [.free, .is, .ix, .s, .six, .u, .x]
  | .is => [.is, .is, .ix, .s, .six, .u, .x]
  | .ix => [.ix, .ix, .ix, .six, .six, .x, .x]
  | .s => [.s, .s, .six, .s, .six, .u, .x]
  | .six => [.six, .six, .six, .six, .six, .six, .x]
  | .u => [.u, .u, .x, .u, .six, .u, .x]
  | .x => [.x, .x, .x, .x, .x, .x, .x]

def lockMax (reqMode grantedMode : LockMode) : LockMode :=
  (convertMatrix reqMode).getD grantedMode.num .free

def compatMatrix : LockMode → List Bool
  | .free => [false, true, true, true, true, true, true]
  | .is => [true, true, true, true, true, false, false]
  | .ix => [true, true, true, false, false, false, false]
  | .s => [true, true, false, true, false, false, false]
  | .six => [true, true, false, false, false, false, false]
  | .u => [true, false, false, true, false, false, false]
  | .x => [true, false, false, false, false, false, false]

def lockCompat (reqMode grantedMode : LockMode) : Bool :=
  (compatMatrix reqMode).getD grantedMode.num false

inductive LockClass where
  | instant
  | short
  | medium
  | long
  | veryLong
  deriving DecidableEq

def LockClass.num : LockClass → ℕ
  | .instant => 0
  | .short => 1
  | .medium => 2
  | .long => 3
  | .veryLong => 4

def classMax (newClass oldClass : LockClass) : LockClass :=
  if oldClass.num < newClass.num then newClass else oldClass

/-! ## Requests -/

inductive LockStatus where
  | granted
  | converting
  | waiting
  | denied
  deriving DecidableEq

/-- `lock_request_t`. `lrId` is the address of the record, `lrTran` that of its
transaction. The time at which the wait expires is not kept, the clock's answer is
an input of the operations. -/
structure LockRequest where
  lrId : ℕ
  lrTran : ℕ
  lrStatus : LockStatus
  lrMode : LockMode
  lrConvertMode : LockMode
  lrCount : ℤ
  lrOkcount : ℕ
  lrClass : LockClass
  deriving DecidableEq

/-- The search for the first request of `me` in a queue: what stands before it, the
request and what stands behind it. -/
def splitFirst (me : ℕ) :
    List LockRequest → Option (List LockRequest × LockRequest × List LockRequest)
  | [] => none
  | req :: queue =>
      if req.lrTran = me then some ([], req, queue)
      else (splitFirst me queue).map fun (pre, r, post) => (req :: pre, r, post)

def grantedGroup : List LockRequest → LockMode → LockMode
  | [], grantedMode => grantedMode
  | req :: queue, grantedMode =>
      if req.lrStatus = .granted then grantedGroup queue (lockMax req.lrMode grantedMode)
      else grantedMode

/-- The mode of the granted and converting requests up to the first other one. -/
def convertGroup : List LockRequest → LockMode → LockMode
  | [], grantedMode => grantedMode
  | req :: queue, grantedMode =>
      if req.lrStatus = .granted ∨ req.lrStatus = .converting then
        convertGroup queue (lockMax req.lrMode grantedMode)
      else grantedMode

/-- The mode of the granted and converting requests of others than `me` up to the
first other one of them. -/
def othersGroup (me : ℕ) : List LockRequest → LockMode → LockMode
  | [], grantedMode => grantedMode
  | req :: queue, grantedMode =>
      if req.lrTran ≠ me then
        if req.lrStatus = .granted ∨ req.lrStatus = .converting then
          othersGroup me queue (lockMax req.lrMode grantedMode)
        else grantedMode
      else othersGroup me queue grantedMode

/-- The loop of `lmgr_unlock` that wakes the waiters. `pre` are the requests passed;
the result is the queue, the granted mode and whether somebody waits. `first` is the
transaction of all requests passed, where there is one. -/
def wakeWaiters : Option ℕ → List LockRequest → List LockRequest → LockMode →
    List LockRequest × LockMode × Bool
  | _, pre, [], grantedMode => (pre, grantedMode, false)
  | first, pre, req :: queue, grantedMode =>
      let first := if some req.lrTran = first then first else none
      match req.lrStatus with
      | .waiting =>
          if some req.lrTran = first ∨ lockCompat req.lrMode grantedMode then
            wakeWaiters first (pre ++ [{ req with lrStatus := .granted }]) queue
              (lockMax req.lrMode grantedMode)
          else (pre ++ req :: queue, grantedMode, true)
      | .converting =>
          let reqMode := lockMax req.lrConvertMode req.lrMode
          if some req.lrTran = first ∨ lockCompat reqMode (convertGroup pre .free) then
            wakeWaiters first
              (pre ++ [{ req with lrStatus := .granted, lrMode := reqMode }]) queue
              (lockMax reqMode grantedMode)
          else (pre ++ req :: queue, grantedMode, true)
      | .granted | .denied => wakeWaiters first (pre ++ [req]) queue grantedMode

/-- What `lmgr_unlock` does with the queue that is left. -/
def regrant (queue : List LockRequest) : List LockRequest × LockMode × Bool :=
  wakeWaiters (queue.head?.map LockRequest.lrTran) [] queue (grantedGroup queue .free)

/-! ## The first request of a transaction -/

theorem splitFirst_eq_some {me : ℕ} {queue pre post : List LockRequest}
    {req : LockRequest} (h : splitFirst me queue = some (pre, req, post)) :
    queue = pre ++ req :: post ∧ req.lrTran = me ∧ ∀ r ∈ pre, r.lrTran ≠ me := by
  induction queue generalizing pre with
  | nil => simp [splitFirst] at h
  | cons r queue ih =>
      rw [splitFirst] at h
      split at h
      · rename_i hr
        rw [Option.some.injEq, Prod.mk.injEq, Prod.mk.injEq] at h
        obtain ⟨rfl, rfl, rfl⟩ := h
        exact ⟨rfl, hr, by simp⟩
      · rename_i hr
        rw [Option.map_eq_some_iff] at h
        obtain ⟨⟨pre', r', post'⟩, hsplit, heq⟩ := h
        rw [Prod.mk.injEq, Prod.mk.injEq] at heq
        obtain ⟨rfl, rfl, rfl⟩ := heq
        obtain ⟨rfl, hme, hpre⟩ := ih hsplit
        exact ⟨rfl, hme, List.forall_mem_cons.mpr ⟨hr, hpre⟩⟩

theorem splitFirst_eq_none {me : ℕ} {queue : List LockRequest}
    (h : splitFirst me queue = none) : ∀ r ∈ queue, r.lrTran ≠ me := by
  induction queue with
  | nil => simp
  | cons r queue ih =>
      rw [splitFirst] at h
      split at h
      · exact absurd h (by simp)
      · rename_i hr
        rw [Option.map_eq_none_iff] at h
        exact List.forall_mem_cons.mpr ⟨hr, ih h⟩

/-! ## Waking -/

/-- The request is as it was, or it was waiting and has been granted. -/
def Woken (r r' : LockRequest) : Prop :=
  r' = r ∨ (r.lrStatus = .waiting ∧ r' = { r with lrStatus := .granted }) ∨
    (r.lrStatus = .converting ∧
      r' = { r with lrStatus := .granted, lrMode := lockMax r.lrConvertMode r.lrMode })

theorem Woken.refl (r : LockRequest) : Woken r r := Or.inl rfl

theorem Woken.lrId_eq {r r' : LockRequest} (h : Woken r r') : r'.lrId = r.lrId := by
  rcases h with rfl | ⟨-, rfl⟩ | ⟨-, rfl⟩ <;> rfl

theorem Woken.lrTran_eq {r r' : LockRequest} (h : Woken r r') :
    r'.lrTran = r.lrTran := by
  rcases h with rfl | ⟨-, rfl⟩ | ⟨-, rfl⟩ <;> rfl

theorem Woken.lrCount_eq {r r' : LockRequest} (h : Woken r r') :
    r'.lrCount = r.lrCount := by
  rcases h with rfl | ⟨-, rfl⟩ | ⟨-, rfl⟩ <;> rfl

theorem Woken.lrClass_eq {r r' : LockRequest} (h : Woken r r') :
    r'.lrClass = r.lrClass := by
  rcases h with rfl | ⟨-, rfl⟩ | ⟨-, rfl⟩ <;> rfl

theorem Woken.lrStatus_ne_denied {r r' : LockRequest} (h : Woken r r')
    (hr : r.lrStatus ≠ .denied) : r'.lrStatus ≠ .denied := by
  rcases h with rfl | ⟨-, rfl⟩ | ⟨-, rfl⟩
  · exact hr
  · simp
  · simp

theorem Woken.eq_of_granted {r r' : LockRequest} (h : Woken r r')
    (hr : r.lrStatus = .granted) : r' = r := by
  rcases h with rfl | ⟨hw, -⟩ | ⟨hw, -⟩
  · rfl
  · rw [hr] at hw
    exact absurd hw (by simp)
  · rw [hr] at hw
    exact absurd hw (by simp)

theorem Woken.trans {r r' r'' : LockRequest} (h : Woken r r') (h' : Woken r' r'') :
    Woken r r'' := by
  rcases h with rfl | ⟨hw, rfl⟩ | ⟨hw, rfl⟩
  · exact h'
  · rw [h'.eq_of_granted rfl]
    exact Or.inr (Or.inl ⟨hw, rfl⟩)
  · rw [h'.eq_of_granted rfl]
    exact Or.inr (Or.inr ⟨hw, rfl⟩)

theorem forall₂_woken_refl (queue : List LockRequest) :
    List.Forall₂ Woken queue queue :=
  List.forall₂_same.mpr fun r _ => Woken.refl r

theorem forall₂_woken_trans {queue queue' queue'' : List LockRequest}
    (h : List.Forall₂ Woken queue queue') (h' : List.Forall₂ Woken queue' queue'') :
    List.Forall₂ Woken queue queue'' := by
  induction h generalizing queue'' with
  | nil => exact h'
  | cons hr _ ih =>
      cases h' with
      | cons hr' h' => exact List.Forall₂.cons (hr.trans hr') (ih h')

theorem wakeWaiters_woken (first : Option ℕ) (pre queue : List LockRequest)
    (grantedMode : LockMode) :
    ∃ queue', (wakeWaiters first pre queue grantedMode).1 = pre ++ queue' ∧
      List.Forall₂ Woken queue queue' := by
  induction queue generalizing first pre grantedMode with
  | nil => exact ⟨[], by simp [wakeWaiters], List.Forall₂.nil⟩
  | cons req queue ih =>
      have hpass (first' : Option ℕ) (r : LockRequest) (gm : LockMode)
          (hr : Woken req r) :
          ∃ queue', (wakeWaiters first' (pre ++ [r]) queue gm).1 = pre ++ queue' ∧
            List.Forall₂ Woken (req :: queue) queue' := by
        obtain ⟨queue', heq, hall⟩ := ih first' (pre ++ [r]) gm
        exact ⟨r :: queue', by rw [heq]; simp, List.Forall₂.cons hr hall⟩
      have hstop : ∃ queue', pre ++ req :: queue = pre ++ queue' ∧
          List.Forall₂ Woken (req :: queue) queue' :=
        ⟨req :: queue, rfl, forall₂_woken_refl _⟩
      rw [wakeWaiters]
      cases hst : req.lrStatus with
      | granted => exact hpass _ req _ (Woken.refl req)
      | denied => exact hpass _ req _ (Woken.refl req)
      | waiting =>
          simp only
          generalize (if some req.lrTran = first then first else none) = first'
          split
          · exact hpass _ _ _ (Or.inr (Or.inl ⟨hst, rfl⟩))
          · exact hstop
      | converting =>
          simp only
          generalize (if some req.lrTran = first then first else none) = first'
          split
          · exact hpass _ _ _ (Or.inr (Or.inr ⟨hst, rfl⟩))
          · exact hstop

theorem regrant_woken (queue : List LockRequest) :
    List.Forall₂ Woken queue (regrant queue).1 := by
  obtain ⟨queue', heq, hall⟩ := wakeWaiters_woken (queue.head?.map LockRequest.lrTran) []
    queue (grantedGroup queue .free)
  rw [regrant, heq]
  exact hall

theorem map_lrId_of_woken {queue queue' : List LockRequest}
    (h : List.Forall₂ Woken queue queue') :
    queue'.map LockRequest.lrId = queue.map LockRequest.lrId := by
  induction h with
  | nil => rfl
  | cons hr _ ih => rw [List.map_cons, List.map_cons, hr.lrId_eq, ih]

theorem filter_of_woken {queue queue' : List LockRequest}
    (h : List.Forall₂ Woken queue queue') (p : ℕ → Bool) :
    List.Forall₂ Woken (queue.filter fun r => p r.lrTran)
      (queue'.filter fun r => p r.lrTran) := by
  induction h with
  | nil => exact List.Forall₂.nil
  | @cons r r' _ _ hr _ ih =>
      by_cases hp : p r.lrTran = true
      · have hp' : p r'.lrTran = true := by rwa [hr.lrTran_eq]
        rw [List.filter_cons, List.filter_cons, if_pos hp, if_pos hp']
        exact List.Forall₂.cons hr ih
      · have hp' : ¬ p r'.lrTran = true := by rwa [hr.lrTran_eq]
        rw [List.filter_cons, List.filter_cons, if_neg hp, if_neg hp']
        exact ih

theorem exists_mem_left {R : LockRequest → LockRequest → Prop} {queue queue' : List LockRequest}
    (h : List.Forall₂ R queue queue') {r' : LockRequest} (hr : r' ∈ queue') :
    ∃ r ∈ queue, R r r' := by
  induction h with
  | nil => simp at hr
  | @cons x x' _ _ hx _ ih =>
      rcases List.mem_cons.mp hr with rfl | hr
      · exact ⟨x, List.mem_cons_self, hx⟩
      · obtain ⟨r, hmem, hw⟩ := ih hr
        exact ⟨r, List.mem_cons_of_mem x hmem, hw⟩

theorem exists_mem_right {R : LockRequest → LockRequest → Prop} {queue queue' : List LockRequest}
    (h : List.Forall₂ R queue queue') {r : LockRequest} (hr : r ∈ queue) :
    ∃ r' ∈ queue', R r r' :=
  exists_mem_left (R := flip R) h.flip hr

end SolidDB
