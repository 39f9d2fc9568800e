import SolidDB.Dbe.LmgrReachable

/-!
# What a granted answer covers

`LOCK_OK` should mean that the transaction holds a mode that covers the one it asked
for. `lmgr_lock` grants a repeated request by the number of its mode, and the modes are
not a chain.
-/

namespace SolidDB

open LockMgr

variable {lm lm' : LockMgr} {me : ℕ} {lock : LockName} {mode : LockMode}

/-- The mode that is held covers `mode`: it is the greater one for `lock_max`, and what
is compatible with it is compatible with `mode`. -/
def LockMode.Covers (held mode : LockMode) : Prop :=
  lockMax mode held = held ∧
    ∀ n, n ≠ .free → lockCompat n held = true → lockCompat n mode = true

instance (held mode : LockMode) : Decidable (held.Covers mode) :=
  inferInstanceAs (Decidable (_ ∧ _))

def LockRequest.Gives (r : LockRequest) (me : ℕ) (mode : LockMode) : Prop :=
  r.lrTran = me ∧ r.lrStatus = .granted ∧ r.lrMode.Covers mode

instance (r : LockRequest) (me : ℕ) (mode : LockMode) : Decidable (r.Gives me mode) :=
  inferInstanceAs (Decidable (_ ∧ _))

def LockMgr.HoldsCovering (lm : LockMgr) (me : ℕ) (lock : LockName) (mode : LockMode) :
    Prop :=
  ∃ r ∈ lm.queue lock, r.Gives me mode

instance (lm : LockMgr) (me : ℕ) (lock : LockName) (mode : LockMode) :
    Decidable (lm.HoldsCovering me lock mode) :=
  inferInstanceAs (Decidable (∃ r ∈ lm.queue lock, r.Gives me mode))

/-- The lock and the mode that a call of `lmgr_lock` asks for. A call that finds the
transaction waiting reads neither of its arguments, it asks for the pending request. -/
def LockMgr.asked (lm : LockMgr) (me : ℕ) (lock : LockName) (mode : LockMode) :
    LockName × LockMode :=
  match (lm.lmTran me).ltWait with
  | none => (lock, mode)
  | some ref =>
      match lm.request ref with
      | none => (lock, mode)
      | some req => (ref.lock, req.lrMode)

/-- The transaction's first request for the lock is taken for the greater one, by the
number of its mode or by `lock_max` of U and SIX, and nothing that it holds covers the
mode. -/
def LockMgr.ShortcutMisses (lm : LockMgr) (me : ℕ) (lock : LockName) (mode : LockMode) :
    Prop :=
  (lm.lmTran me).ltWait = none ∧
    (∃ req, (lm.queue lock).find? (fun r => r.lrTran = me) = some req ∧
      (mode.num ≤ req.lrMode.num ∨ (mode = .u ∧ req.lrMode = .six))) ∧
    ¬ lm.HoldsCovering me lock mode

/-! ## Modes -/

theorem LockMode.covers_self (mode : LockMode) : mode.Covers mode := by
  revert mode
  decide

/-- The greater of two modes covers the one with the greater number, but for U and
SIX. -/
theorem LockMode.covers_lockMax {mode held : LockMode} (hnum : ¬ mode.num ≤ held.num)
    (h : ¬ (mode = .u ∧ held = .six)) : (lockMax mode held).Covers mode := by
  revert mode held
  decide

/-! ## Queues -/

theorem splitFirst_find? {queue pre post : List LockRequest} {req : LockRequest}
    (h : splitFirst me queue = some (pre, req, post)) :
    queue.find? (fun r => r.lrTran = me) = some req := by
  obtain ⟨rfl, hreq, hpre⟩ := splitFirst_eq_some h
  rw [List.find?_append, List.find?_eq_none.mpr (fun r hr => by simpa using hpre r hr),
    Option.none_or, List.find?_cons]
  simp [hreq]

theorem find?_eq_none_of_splitFirst {queue : List LockRequest}
    (h : splitFirst me queue = none) : queue.find? (fun r => r.lrTran = me) = none := by
  rw [List.find?_eq_none]
  intro r hr
  simpa using splitFirst_eq_none h r hr

theorem exists_gives_middle {pre post : List LockRequest} {r r' : LockRequest}
    (h : r'.Gives me mode ↔ r.Gives me mode) :
    (∃ x ∈ pre ++ r' :: post, x.Gives me mode) ↔ ∃ x ∈ pre ++ r :: post, x.Gives me mode := by
  simp only [List.mem_append, List.mem_cons, or_and_right, exists_or, exists_eq_left, h]

/-! ## The calls -/

theorem lmgrLockWaiting_holdsCovering (h : lm.Inv) {ref : LockRef} {env : LockEnv}
    (href : (lm.lmTran me).ltWait = some ref)
    (heq : lmgrLockWaiting lm me ref env = some (lm', .ok)) :
    ∃ req, lm.request ref = some req ∧ lm'.HoldsCovering me ref.lock req.lrMode := by
  rw [lmgrLockWaiting, Option.map_eq_some_iff] at heq
  obtain ⟨req, hreq, heq⟩ := heq
  obtain ⟨hmem, hid⟩ := request_eq_some hreq
  refine ⟨req, hreq, ?_⟩
  split at heq
  · rename_i hst
    rw [Prod.mk.injEq] at heq
    obtain ⟨-, r, hr, hrid, hrt, -⟩ := h.waits me ref href
    have htran : req.lrTran = me := by
      rw [h.valid.eq_of_lrId_eq hmem hr (hid.trans hrid.symm), hrt]
    refine ⟨{ req with lrOkcount := req.lrOkcount + 1 }, ?_, htran, hst,
      LockMode.covers_self _⟩
    rw [← heq.1, queue_setRequest, Function.update_apply, if_pos rfl, List.mem_map]
    exact ⟨req, hmem, if_pos hid⟩
  · split at heq
    · simp at heq
    · split at heq <;> simp at heq

theorem lmgrLockMustWait_ne_ok (lm : LockMgr) (me : ℕ) (head : LockHead)
    (req : LockRequest) (timeout : ℕ) (env : LockEnv) :
    (lmgrLockMustWait lm me head req timeout env).2 ≠ .ok := by
  rw [lmgrLockMustWait]
  split <;> simp

theorem lmgrLockNew_holdsCovering {head : LockHead} {lockClass : LockClass} {timeout : ℕ}
    {env : LockEnv} (hf : lm.find head.lhLock = some head)
    (heq : lmgrLockNew lm me head mode lockClass timeout false env = (lm', .ok)) :
    lm'.HoldsCovering me head.lhLock mode := by
  rw [lmgrLockNew] at heq
  split at heq
  · rw [if_neg (by simp), Prod.mk.injEq] at heq
    refine ⟨{ newRequest lm me mode lockClass with lrOkcount := 1 }, ?_, rfl, rfl,
      LockMode.covers_self mode⟩
    rw [← heq.1, @queue_setHead (lockRequestAlloc lm me head.lhLock)
      { head with
        lhQueue := head.lhQueue ++
          [{ newRequest lm me mode lockClass with lrOkcount := 1 }]
        lhGrantedMode := lockMax mode head.lhGrantedMode } head hf]
    rw [Function.update_apply, if_pos rfl]
    exact List.mem_append_right _ (List.mem_singleton.mpr rfl)
  · rw [if_neg (by simp)] at heq
    have hne := lmgrLockMustWait_ne_ok lm me head
      { newRequest lm me mode lockClass with lrStatus := .waiting } timeout env
    rw [heq] at hne
    exact absurd rfl hne

/-- A repeated request covers its mode but for the shortcuts. -/
theorem lmgrLockAgain_holdsCovering_iff {head : LockHead} {pre post : List LockRequest}
    {req : LockRequest} {lockClass : LockClass} {timeout : ℕ} {env : LockEnv}
    (hf : lm.find head.lhLock = some head) (hq : head.lhQueue = pre ++ req :: post)
    (hreq : req.lrTran = me)
    (heq : lmgrLockAgain lm me head pre req post mode lockClass timeout env = (lm', .ok)) :
    lm'.HoldsCovering me head.lhLock mode ↔
      ¬ ((mode.num ≤ req.lrMode.num ∨ (mode = .u ∧ req.lrMode = .six)) ∧
        ¬ lm.HoldsCovering me head.lhLock mode) := by
  have hset (r : LockRequest) (gm : LockMode) :
      ((lm.setHead { head with lhQueue := pre ++ r :: post, lhGrantedMode := gm }).HoldsCovering
        me head.lhLock mode) ↔ ∃ x ∈ pre ++ r :: post, x.Gives me mode := by
    rw [HoldsCovering, @queue_setHead lm
      { head with lhQueue := pre ++ r :: post, lhGrantedMode := gm } head hf,
      Function.update_apply, if_pos rfl]
  have hold : lm.HoldsCovering me head.lhLock mode ↔
      ∃ x ∈ pre ++ req :: post, x.Gives me mode := by
    rw [HoldsCovering, queue_of_find hf, hq]
  have hmid (r : LockRequest) (hr : r.Gives me mode ↔ req.Gives me mode) :
      (∃ x ∈ pre ++ r :: post, x.Gives me mode) ↔ lm.HoldsCovering me head.lhLock mode := by
    rw [hold]
    exact exists_gives_middle hr
  rw [lmgrLockAgain] at heq
  simp only at heq
  split at heq
  · rename_i hnum
    rw [Prod.mk.injEq] at heq
    rw [← heq.1]
    refine (hset _ head.lhGrantedMode).trans ((hmid _ ?_).trans ?_)
    · exact Iff.rfl
    · simp [hnum]
  · rename_i hnum
    split at heq
    · rw [Prod.mk.injEq] at heq
      rw [← heq.1]
      refine (hset _ _).trans ?_
      by_cases hsix : mode = .u ∧ req.lrMode = .six
      · -- SIX stays SIX, which does not cover U
        have hgives (r : LockRequest) (hr : r.lrMode = .six) : ¬ r.Gives me mode := by
          rintro ⟨-, -, hcov⟩
          rw [hr, hsix.1] at hcov
          exact absurd hcov (by decide)
        refine (hmid _ (iff_of_false (hgives _ ?_) (hgives req hsix.2))).trans ?_
        · change lockMax mode req.lrMode = .six
          rw [hsix.1, hsix.2]
          rfl
        · simp [hsix]
      · refine iff_of_true ⟨_, List.mem_append_right _ List.mem_cons_self, hreq, rfl,
          LockMode.covers_lockMax hnum hsix⟩ ?_
        rintro ⟨hor, -⟩
        exact hor.elim hnum hsix
    · have hne := lmgrLockMustWait_ne_ok lm me head
        { newRequest lm me mode lockClass with
          lrStatus := .converting
          lrConvertMode := mode } timeout env
      rw [heq] at hne
      exact absurd rfl hne

/-- A granted answer covers what was asked for exactly where no shortcut misses it. -/
theorem lmgrLock_holdsCovering_iff (h : lm.Reachable) (huse : lm.lmUselocks = true)
    {lockClass : LockClass} {timeout : ℕ} {env : LockEnv}
    (heq : lmgrLock lm me lock mode lockClass timeout false env = some (lm', .ok)) :
    lm'.HoldsCovering me (lm.asked me lock mode).1 (lm.asked me lock mode).2 ↔
      ¬ lm.ShortcutMisses me lock mode := by
  rw [lmgrLock] at heq
  rw [asked, ShortcutMisses]
  cases hwait : (lm.lmTran me).ltWait with
  | some ref =>
      rw [hwait] at heq
      obtain ⟨req, hreq, hholds⟩ := lmgrLockWaiting_holdsCovering h.inv hwait heq
      simp only [hreq]
      exact iff_of_true hholds (by simp)
  | none =>
      simp only [hwait, huse, Bool.not_true] at heq
      rw [if_neg (by simp)] at heq
      simp only [true_and]
      cases hf : lm.find lock with
      | none =>
          simp only [hf] at heq
          rw [if_neg (by simp), Option.some.injEq, Prod.mk.injEq] at heq
          refine iff_of_true ⟨{ newRequest lm me mode lockClass with lrOkcount := 1 }, ?_,
            rfl, rfl, LockMode.covers_self mode⟩ ?_
          · have ha := @Valid.appends_new lm me h.inv.valid
              ⟨lock, [{ newRequest lm me mode lockClass with lrOkcount := 1 }], mode, false⟩
              _ hf rfl rfl rfl
            rw [← heq.1, ha.changes.queue_eq, Function.update_apply, if_pos rfl]
            exact List.mem_append_right _ (List.mem_singleton.mpr rfl)
          · rw [queue_of_find_none hf]
            simp
      | some head =>
          simp only [hf] at heq
          obtain rfl := lhLock_of_find hf
          cases hs : splitFirst me head.lhQueue with
          | none =>
              simp only [hs, Option.some.injEq] at heq
              refine iff_of_true (lmgrLockNew_holdsCovering hf heq) ?_
              rw [queue_of_find hf, find?_eq_none_of_splitFirst hs]
              simp
          | some o =>
              obtain ⟨pre, req, post⟩ := o
              obtain ⟨hq, hreq, -⟩ := splitFirst_eq_some hs
              simp only [hs, Option.some.injEq] at heq
              rw [lmgrLockAgain_holdsCovering_iff hf hq hreq heq, queue_of_find hf,
                splitFirst_find? hs]
              simp

/-- A transaction that holds S is answered `LOCK_OK` when it asks for IX. -/
theorem not_holdsCovering_ix_over_s :
    ∃ lm lm' : LockMgr, lm.Reachable ∧ lm.lmUselocks = true ∧ (lm.lmTran 1).ltWait = none ∧
      lmgrLock lm 1 ⟨0, 0⟩ .ix .long 0 false ⟨false, false, true⟩ = some (lm', .ok) ∧
      ¬ lm'.HoldsCovering 1 ⟨0, 0⟩ .ix := by
  have hrun := @Reachable.run _ _ [.lock 1 ⟨0, 0⟩ .s .long 0 false ⟨false, false, true⟩]
    (Reachable.init 1 1 Nat.one_pos) (by decide) rfl
  exact ⟨_, _, hrun, rfl, rfl, rfl, by decide⟩

/-- The answer to IX for a transaction that holds SIX. -/
theorem lmgrLock_holdsCovering_iff_ix_over_six :
    ∃ lm lm' : LockMgr,
      lmgrLock lm 1 ⟨0, 0⟩ .ix .long 0 false ⟨false, false, true⟩ = some (lm', .ok) ∧
      (lm'.HoldsCovering 1 ⟨0, 0⟩ .ix ↔ ¬ lm.ShortcutMisses 1 ⟨0, 0⟩ .ix) := by
  have hrun := @Reachable.run _ _ [.lock 1 ⟨0, 0⟩ .six .long 0 false ⟨false, false, true⟩]
    (Reachable.init 1 1 Nat.one_pos) (by decide) rfl
  exact ⟨_, _, rfl, @lmgrLock_holdsCovering_iff _ _ 1 ⟨0, 0⟩ .ix hrun rfl .long 0
    ⟨false, false, true⟩ rfl⟩

end SolidDB
