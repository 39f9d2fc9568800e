import SolidDB.Dbe.LmgrState

/-!
# The invariant of the lock manager

Every call keeps the state valid, and every transaction waits for its newest request
only.
-/

namespace SolidDB

open LockMgr

variable {lm lm' : LockMgr} {me : ℕ} {lock : LockName}

/-! ## Own requests -/

theorem ownIds_append (me : ℕ) (queue queue' : List LockRequest) :
    ownIds me (queue ++ queue') = ownIds me queue ++ ownIds me queue' := by
  rw [ownIds, List.filter_append, List.map_append]
  rfl

theorem ownIds_cons (me : ℕ) (r : LockRequest) (queue : List LockRequest) :
    ownIds me (r :: queue) =
      if r.lrTran = me then r.lrId :: ownIds me queue else ownIds me queue := by
  rw [ownIds, List.filter_cons]
  by_cases hr : r.lrTran = me
  · rw [if_pos (by simpa using hr), if_pos hr]
    rfl
  · rw [if_neg (by simpa using hr), if_neg hr]
    rfl

theorem ownIds_eq_nil {queue : List LockRequest} (h : ∀ r ∈ queue, r.lrTran ≠ me) :
    ownIds me queue = [] := by
  rw [ownIds, List.filter_eq_nil_iff.mpr (fun r hr => by simpa using h r hr)]
  rfl

theorem ownIds_woken {queue queue' : List LockRequest}
    (h : List.Forall₂ Woken queue queue') (me : ℕ) :
    ownIds me queue' = ownIds me queue :=
  map_lrId_of_woken (filter_of_woken h fun t => decide (t = me))

theorem mem_ownIds_iff {queue : List LockRequest} {id : ℕ} :
    id ∈ ownIds me queue ↔ ∃ r ∈ queue, r.lrTran = me ∧ r.lrId = id := by
  simp [ownIds, and_assoc]

theorem refsOf_cons (lock : LockName) (ref : LockRef) (locks : List LockRef) :
    refsOf lock (ref :: locks) =
      if ref.lock = lock then ref :: refsOf lock locks else refsOf lock locks := by
  rw [refsOf, List.filter_cons]
  by_cases h : ref.lock = lock
  · rw [if_pos (by simpa using h), if_pos h]
    rfl
  · rw [if_neg (by simpa using h), if_neg h]
    rfl

theorem map_id_refsOf_filter (ref : LockRef) (locks : List LockRef) :
    (refsOf ref.lock (locks.filter (· ≠ ref))).map LockRef.id =
      ((refsOf ref.lock locks).map LockRef.id).filter (· ≠ ref.id) := by
  induction locks with
  | nil => rfl
  | cons x locks ih =>
      by_cases hx : x = ref
      · rw [List.filter_cons_of_neg (by simp [hx]), ih, refsOf_cons, hx, if_pos rfl,
          List.map_cons, List.filter_cons_of_neg (by simp)]
      · rw [List.filter_cons_of_pos (by simp [hx]), refsOf_cons, refsOf_cons]
        by_cases hl : x.lock = ref.lock
        · have hid : x.id ≠ ref.id := by
            intro hid
            exact hx (by cases x; cases ref; simp_all)
          rw [if_pos hl, if_pos hl, List.map_cons, List.map_cons,
            List.filter_cons_of_pos (by simp [hid]), ih]
        · rw [if_neg hl, if_neg hl, ih]

theorem refsOf_filter_ne {ref : LockRef} {lock : LockName} (h : lock ≠ ref.lock)
    (locks : List LockRef) :
    refsOf lock (locks.filter (· ≠ ref)) = refsOf lock locks := by
  rw [refsOf, refsOf, List.filter_filter]
  apply List.filter_congr
  intro x _
  by_cases hx : x.lock = lock
  · have hne : x ≠ ref := by
      rintro rfl
      exact h hx.symm
    simp [hx, hne]
  · simp [hx]

/-! ## What unlocking changes -/

inductive UnlockEffect (lm : LockMgr) (me : ℕ) (lock : LockName) :
    LockMgr × Option LockRef → Prop
  | absent (h : ∀ r ∈ lm.queue lock, r.lrTran ≠ me) : UnlockEffect lm me lock (lm, none)
  | kept {lm' : LockMgr} {pre post : List LockRequest} {r : LockRequest}
      (hq : lm.queue lock = pre ++ r :: post) (hr : r.lrTran = me)
      (hpre : ∀ x ∈ pre, x.lrTran ≠ me) (hrel : ¬ r.Released)
      (hc : lm.Changes lm' me lock (pre ++ { r with lrCount := r.lrCount - 1 } :: post)
        (lm.lmTran me).ltLocks) : UnlockEffect lm me lock (lm', none)
  | freed {lm' : LockMgr} {pre post queue : List LockRequest} {r : LockRequest}
      (hq : lm.queue lock = pre ++ r :: post) (hr : r.lrTran = me)
      (hpre : ∀ x ∈ pre, x.lrTran ≠ me) (hrel : r.Released)
      (hw : List.Forall₂ Woken (pre ++ post) queue)
      (hc : lm.Changes lm' me lock queue
        ((lm.lmTran me).ltLocks.filter (· ≠ ⟨r.lrId, lock⟩))) :
      UnlockEffect lm me lock (lm', some ⟨r.lrId, lock⟩)

theorem lmgrUnlock_effect (hv : lm.Valid) (me : ℕ) (lock : LockName) :
    UnlockEffect lm me lock (lmgrUnlock lm me lock) := by
  have hu := lmgrUnlock_unlocks lm me lock
  generalize lmgrUnlock lm me lock = o at hu ⊢
  cases hu with
  | absent h => exact .absent h
  | @kept head pre post r hf hq hr hpre hrel =>
      obtain rfl := lhLock_of_find hf
      refine .kept (by rw [queue_of_find hf, hq]) hr hpre hrel ?_
      exact @Valid.changes_setHead lm
        { head with lhQueue := pre ++ { r with lrCount := r.lrCount - 1 } :: post } head hv
        hf (by simp) (by simp [hq]) me
  | @last head r hf hq hr hrel =>
      obtain rfl := lhLock_of_find hf
      have hqueue : lm.queue head.lhLock = [r] := by rw [queue_of_find hf, hq]
      refine @UnlockEffect.freed lm me head.lhLock _ [] [] [] r (by rw [hqueue]; rfl) hr
        (by simp) hrel List.Forall₂.nil ?_
      exact
        { queue_eq := queue_removeHead _
          locks_eq := ltLocks_setLocks _
          nodup_locks := by
            exact List.Nodup.sublist (List.filter_sublist.map _) hv.nodup_locks
          queue_ne_nil := fun h hh => hv.queue_ne_nil h (List.mem_of_mem_filter hh)
          nrequests_eq := by
            have := sum_filter_removeHead hv.nodup_locks hf
            rw [queue_of_find hf]
            exact this
          lockcnt_eq := by
            rw [hqueue]
            change lm.lmLockcnt - 1 + 1 = lm.lmLockcnt + 0
            omega
          nextid_le := le_refl _
          nmutexes_eq := rfl
          hashsize_eq := rfl }
  | @removed head pre post r hf hq hr hpre hrel hne =>
      obtain rfl := lhLock_of_find hf
      have hw := regrant_woken (pre ++ post)
      have hlen : (regrant (pre ++ post)).1.length = (pre ++ post).length := hw.length_eq.symm
      refine .freed (by rw [queue_of_find hf, hq]) hr hpre hrel hw ?_
      have hf' : lm.find (head.regranted (pre ++ post)).lhLock = some head := hf
      exact
        { queue_eq := queue_setHead hf'
          locks_eq := ltLocks_setLocks _
          nodup_locks := by
            change ((lm.setHead _).lmHash.map LockHead.lhLock).Nodup
            rw [map_lhLock_setHead]
            exact hv.nodup_locks
          queue_ne_nil := by
            intro h hh
            obtain ⟨h', hmem, rfl⟩ := List.mem_map.mp hh
            split
            · change (regrant (pre ++ post)).1 ≠ []
              rw [Ne, ← List.length_eq_zero_iff, hlen, List.length_eq_zero_iff]
              exact hne
            · exact hv.queue_ne_nil h' hmem
          nrequests_eq := by
            rw [queue_of_find hf]
            exact sum_map_setHead hv.nodup_locks hf'
          lockcnt_eq := by
            rw [queue_of_find hf, hlen, hq]
            change lm.lmLockcnt - 1 + _ = lm.lmLockcnt + _
            simp only [List.length_append, List.length_cons]
            omega
          nextid_le := le_refl _
          nmutexes_eq := rfl
          hashsize_eq := rfl }

theorem LockMgr.Valid.lmgrUnlock (hv : lm.Valid) (me : ℕ) (lock : LockName) :
    (lmgrUnlock lm me lock).1.Valid := by
  have heff := lmgrUnlock_effect hv me lock
  generalize SolidDB.lmgrUnlock lm me lock = o at heff ⊢
  cases heff with
  | absent h => exact hv
  | @kept lm' pre post r hq hr hpre hrel hc =>
      have hids := hv.nodup_ids lock
      have hlt := hv.id_lt lock
      have hlocks := hv.locks_eq me lock
      rw [hq] at hids hlt hlocks
      refine hv.changes hc ?_ ?_ ?_ ?_ fun _ _ => rfl
      · simpa using hids
      · intro x hx
        refine lt_of_lt_of_le ?_ hc.nextid_le
        simp only [List.mem_append, List.mem_cons] at hx hlt
        rcases hx with hx | rfl | hx
        · exact hlt x (Or.inl hx)
        · exact hlt r (Or.inr (Or.inl rfl))
        · exact hlt x (Or.inr (Or.inr hx))
      · rw [hlocks, ownIds_append, ownIds_append, ownIds_cons, ownIds_cons]
      · intro t _
        rw [hq, ownIds_append, ownIds_append, ownIds_cons, ownIds_cons]
  | @freed lm' pre post queue r hq hr hpre hrel hw hc =>
      have hids := hv.nodup_ids lock
      have hlt := hv.id_lt lock
      have hlocks := hv.locks_eq me lock
      rw [hq] at hids hlt hlocks
      have hmap := map_lrId_of_woken hw
      refine hv.changes hc ?_ ?_ ?_ ?_ ?_
      · rw [hmap]
        refine List.Nodup.sublist ?_ hids
        rw [List.map_append, List.map_append, List.map_cons]
        exact List.Sublist.append_left (List.sublist_cons_self _ _) _
      · intro x hx
        refine lt_of_lt_of_le ?_ hc.nextid_le
        obtain ⟨y, hy, hxy⟩ := exists_mem_left hw hx
        rw [hxy.lrId_eq]
        apply hlt
        simp only [List.mem_append, List.mem_cons] at hy ⊢
        tauto
      · have hnot : r.lrId ∉ ownIds me pre ++ ownIds me post := by
          rw [List.map_append, List.map_cons, List.nodup_middle, List.nodup_cons] at hids
          intro hmem
          apply hids.1
          rw [List.mem_append, mem_ownIds_iff, mem_ownIds_iff] at hmem
          rw [List.mem_append]
          rcases hmem with ⟨y, hy, -, heq⟩ | ⟨y, hy, -, heq⟩
          · exact Or.inl (heq ▸ List.mem_map_of_mem hy)
          · exact Or.inr (heq ▸ List.mem_map_of_mem hy)
        have hself : (ownIds me pre ++ ownIds me post).reverse.filter (· ≠ r.lrId) =
            (ownIds me pre ++ ownIds me post).reverse := by
          rw [List.filter_eq_self]
          intro id hid
          rw [decide_eq_true_eq]
          rintro rfl
          exact hnot (List.mem_reverse.mp hid)
        have href := map_id_refsOf_filter ⟨r.lrId, lock⟩ (lm.lmTran me).ltLocks
        rw [href, hlocks, ownIds_append, ownIds_cons, if_pos hr, ownIds_woken hw,
          ownIds_append, ← hself, List.reverse_append, List.reverse_cons,
          List.reverse_append, List.filter_append, List.filter_append,
          List.filter_append]
        simp
      · intro t ht
        have hrt : r.lrTran ≠ t := by
          rw [hr]
          exact ht.symm
        rw [hq, ownIds_woken hw, ownIds_append, ownIds_append, ownIds_cons, if_neg hrt]
      · intro lock' hl
        exact @refsOf_filter_ne ⟨r.lrId, lock⟩ lock' hl _

/-! ## Requests -/

theorem LockMgr.request_eq_some {ref : LockRef} {r : LockRequest}
    (h : lm.request ref = some r) : r ∈ lm.queue ref.lock ∧ r.lrId = ref.id :=
  ⟨List.mem_of_find?_eq_some h, by simpa using List.find?_some h⟩

theorem LockMgr.Valid.eq_of_lrId_eq (hv : lm.Valid) {r s : LockRequest}
    (hr : r ∈ lm.queue lock) (hs : s ∈ lm.queue lock) (hid : r.lrId = s.lrId) : r = s :=
  List.inj_on_of_nodup_map (hv.nodup_ids lock) hr hs hid

theorem LockMgr.Valid.request_eq (hv : lm.Valid) {ref : LockRef} {r : LockRequest}
    (hr : r ∈ lm.queue ref.lock) (hid : r.lrId = ref.id) : lm.request ref = some r := by
  cases hreq : lm.request ref with
  | none =>
      rw [LockMgr.request, List.find?_eq_none] at hreq
      exact absurd (by simpa using hid) (hreq r hr)
  | some s =>
      obtain ⟨hs, hsid⟩ := LockMgr.request_eq_some hreq
      rw [hv.eq_of_lrId_eq hr hs (hid.trans hsid.symm)]

theorem LockMgr.Valid.exists_of_mem_locks (hv : lm.Valid) {ref : LockRef}
    (h : ref ∈ (lm.lmTran me).ltLocks) :
    ∃ r ∈ lm.queue ref.lock, r.lrTran = me ∧ r.lrId = ref.id := by
  rw [← mem_ownIds_iff, ← List.mem_reverse, ← hv.locks_eq]
  apply List.mem_map_of_mem
  exact List.mem_filter.mpr ⟨h, by simp⟩

/-! ## Waiting -/

def others (me : ℕ) (queue : List LockRequest) : List LockRequest :=
  queue.filter fun r => r.lrTran ≠ me

def LockMgr.OthersWoken (lm lm' : LockMgr) (me : ℕ) : Prop :=
  ∀ lock, List.Forall₂ Woken (others me (lm.queue lock)) (others me (lm'.queue lock))

/-- A valid state in which everybody waits for the newest request. -/
structure LockMgr.Inv (lm : LockMgr) : Prop where
  valid : lm.Valid
  waits : ∀ t, lm.WaitsForNewest t

/-- A state in the midst of a call of `me` that began in `lm₀`: it is valid, the others
wait for their newest requests and have what they had. -/
structure LockMgr.Amid (lm₀ : LockMgr) (me : ℕ) (lm : LockMgr) : Prop where
  valid : lm.Valid
  waits : ∀ t, t ≠ me → lm.WaitsForNewest t
  woken : lm₀.OthersWoken lm me
  ltWait_eq : ∀ t, t ≠ me → (lm.lmTran t).ltWait = (lm₀.lmTran t).ltWait

structure LockMgr.Behind (lm₀ : LockMgr) (me : ℕ) (lm : LockMgr) : Prop where
  inv : lm.Inv
  woken : lm₀.OthersWoken lm me
  ltWait_eq : ∀ t, t ≠ me → (lm.lmTran t).ltWait = (lm₀.lmTran t).ltWait

variable {lm₀ : LockMgr}

theorem LockMgr.OthersWoken.refl (lm : LockMgr) (me : ℕ) : lm.OthersWoken lm me :=
  fun _ => forall₂_woken_refl _

theorem LockMgr.OthersWoken.trans {lm'' : LockMgr} (h : lm.OthersWoken lm' me)
    (h' : lm'.OthersWoken lm'' me) : lm.OthersWoken lm'' me :=
  fun lock => forall₂_woken_trans (h lock) (h' lock)

theorem others_map_own {queue : List LockRequest} {id : ℕ} {f : LockRequest → LockRequest}
    (htran : ∀ r, (f r).lrTran = r.lrTran)
    (hid : ∀ r ∈ queue, r.lrId = id → r.lrTran = me) :
    others me (queue.map fun r => if r.lrId = id then f r else r) = others me queue := by
  induction queue with
  | nil => rfl
  | cons r queue ih =>
      obtain ⟨hr, hqueue⟩ := List.forall_mem_cons.mp hid
      have ih := ih hqueue
      rw [others, others] at ih ⊢
      rw [List.map_cons, List.filter_cons, List.filter_cons, ih]
      by_cases hri : r.lrId = id
      · rw [if_pos hri, htran, hr hri]
        simp
      · rw [if_neg hri]

theorem others_append (me : ℕ) (queue queue' : List LockRequest) :
    others me (queue ++ queue') = others me queue ++ others me queue' :=
  List.filter_append queue queue'

theorem others_cons_own {r : LockRequest} (hr : r.lrTran = me)
    (queue : List LockRequest) : others me (r :: queue) = others me queue :=
  List.filter_cons_of_neg (by simp [hr])

/-- The queues of one lock, for the others, behind the change of one of them. -/
theorem LockMgr.OthersWoken.update {queue : List LockRequest}
    (hq : lm'.queue = Function.update lm.queue lock queue)
    (h : List.Forall₂ Woken (others me (lm.queue lock)) (others me queue)) :
    lm.OthersWoken lm' me := by
  intro lock'
  rw [hq, Function.update_apply]
  split
  · rename_i hl
    rw [hl]
    exact h
  · exact forall₂_woken_refl _

theorem LockMgr.Inv.amid (h : lm.Inv) (me : ℕ) : lm.Amid me lm :=
  ⟨h.valid, fun t _ => h.waits t, OthersWoken.refl lm me, fun _ _ => rfl⟩

theorem LockMgr.Inv.behind (h : lm.Inv) (me : ℕ) : lm.Behind me lm :=
  ⟨h, OthersWoken.refl lm me, fun _ _ => rfl⟩

theorem LockMgr.Amid.behind (h : lm₀.Amid me lm) (hme : lm.WaitsForNewest me) :
    lm₀.Behind me lm := by
  refine ⟨⟨h.valid, fun t => ?_⟩, h.woken, h.ltWait_eq⟩
  by_cases ht : t = me
  · rw [ht]
    exact hme
  · exact h.waits t ht

theorem LockMgr.Amid.setWait (h : lm₀.Amid me lm) (wait : Option LockRef) :
    lm₀.Amid me (lm.setWait me wait) := by
  refine ⟨h.valid.setWait me wait, fun t ht ref href => ?_, h.woken, fun t ht => ?_⟩
  · rw [ltWait_setWait, if_neg ht] at href
    rw [ltLocks_setWait]
    exact h.waits t ht ref href
  · rw [ltWait_setWait, if_neg ht, h.ltWait_eq t ht]

/-- A transaction that waits for nothing waits for its newest request only. -/
theorem LockMgr.Amid.behind_of_ltWait (h : lm₀.Amid me lm)
    (hwait : (lm.lmTran me).ltWait = none) : lm₀.Behind me lm := by
  refine h.behind fun ref href => ?_
  rw [hwait] at href
  exact absurd href (by simp)

theorem LockMgr.Amid.setWait_none (h : lm₀.Amid me lm) :
    lm₀.Behind me (lm.setWait me none) := by
  apply (h.setWait none).behind_of_ltWait
  rw [ltWait_setWait, if_pos rfl]

theorem WaitsForNewest.setRequest {t : ℕ} (h : lm.WaitsForNewest t) (ref : LockRef)
    {f : LockRequest → LockRequest} (hid : ∀ r, (f r).lrId = r.lrId)
    (htran : ∀ r, (f r).lrTran = r.lrTran)
    (hf : ∀ r ∈ lm.queue ref.lock, r.lrId = ref.id → r.lrTran = t → r.lrCount = 1 →
      r.lrStatus ≠ .denied → (f r).lrCount = 1 ∧ (f r).lrStatus ≠ .denied) :
    (lm.setRequest ref f).WaitsForNewest t := by
  intro ref' href
  rw [lmTran_setRequest] at href ⊢
  obtain ⟨hlocks, r, hr, hrid, hrt, hcnt, hst⟩ := h ref' href
  refine ⟨hlocks, ?_⟩
  rw [queue_setRequest, Function.update_apply]
  by_cases hl : ref'.lock = ref.lock
  · rw [if_pos hl]
    refine ⟨if r.lrId = ref.id then f r else r, ?_, ?_⟩
    · rw [hl] at hr
      exact List.mem_map_of_mem hr
    · by_cases hri : r.lrId = ref.id
      · rw [hl] at hr
        obtain ⟨h1, h2⟩ := hf r hr hri hrt hcnt hst
        rw [if_pos hri, hid, htran]
        exact ⟨hrid, hrt, h1, h2⟩
      · rw [if_neg hri]
        exact ⟨hrid, hrt, hcnt, hst⟩
  · rw [if_neg hl]
    exact ⟨r, hr, hrid, hrt, hcnt, hst⟩

theorem LockMgr.Amid.setRequest (h : lm₀.Amid me lm) (ref : LockRef)
    {f : LockRequest → LockRequest} (hid : ∀ r, (f r).lrId = r.lrId)
    (htran : ∀ r, (f r).lrTran = r.lrTran)
    (href : ∀ r ∈ lm.queue ref.lock, r.lrId = ref.id → r.lrTran = me) :
    lm₀.Amid me (lm.setRequest ref f) := by
  refine ⟨h.valid.setRequest ref hid htran, fun t ht => ?_, h.woken.trans ?_, ?_⟩
  · apply WaitsForNewest.setRequest (h.waits t ht) ref hid htran
    intro r hr hri hrt
    exact absurd (hrt.symm.trans (href r hr hri)) ht
  · apply OthersWoken.update (queue_setRequest ref f)
    rw [others_map_own htran href]
    exact forall₂_woken_refl _
  · rw [lmTran_setRequest]
    exact h.ltWait_eq

theorem LockMgr.Valid.lrTran_of_mem_locks (hv : lm.Valid) {ref : LockRef}
    (h : ref ∈ (lm.lmTran me).ltLocks) :
    ∀ r ∈ lm.queue ref.lock, r.lrId = ref.id → r.lrTran = me := by
  intro r hr hri
  obtain ⟨s, hs, hst, hsi⟩ := hv.exists_of_mem_locks h
  rw [hv.eq_of_lrId_eq hr hs (hri.trans hsi.symm), hst]

theorem ltWait_lmgrUnlock (lm : LockMgr) (me : ℕ) (lock : LockName) (t : ℕ) :
    ((lmgrUnlock lm me lock).1.lmTran t).ltWait = (lm.lmTran t).ltWait := by
  have hu := lmgrUnlock_unlocks lm me lock
  generalize lmgrUnlock lm me lock = o at hu ⊢
  cases hu with
  | absent h => rfl
  | kept hf hq hr hpre hrel => rfl
  | last hf hq hr hrel => exact ltWait_setLocks _ t
  | removed hf hq hr hpre hrel hne => exact ltWait_setLocks _ t

theorem UnlockEffect.exists_mem {o : LockMgr × Option LockRef}
    (h : UnlockEffect lm me lock o) {lock' : LockName} {r : LockRequest}
    (hr : r ∈ lm.queue lock') (hne : lock' ≠ lock ∨ r.lrTran ≠ me) :
    ∃ r' ∈ o.1.queue lock', Woken r r' := by
  cases h with
  | absent h => exact ⟨r, hr, Woken.refl r⟩
  | @kept lm' pre post q hq hqt hpre hrel hc =>
      rw [hc.queue_eq, Function.update_apply]
      by_cases hl : lock' = lock
      · rw [if_pos hl]
        rw [hl, hq, List.mem_append, List.mem_cons] at hr
        refine ⟨r, ?_, Woken.refl r⟩
        rw [List.mem_append, List.mem_cons]
        rcases hr with hr | rfl | hr
        · exact Or.inl hr
        · rcases hne with hne | hne
          · exact absurd hl hne
          · exact absurd hqt hne
        · exact Or.inr (Or.inr hr)
      · rw [if_neg hl]
        exact ⟨r, hr, Woken.refl r⟩
  | @freed lm' pre post queue q hq hqt hpre hrel hw hc =>
      rw [hc.queue_eq, Function.update_apply]
      by_cases hl : lock' = lock
      · rw [if_pos hl]
        have hmem : r ∈ pre ++ post := by
          rw [hl, hq, List.mem_append, List.mem_cons] at hr
          rw [List.mem_append]
          rcases hr with hr | rfl | hr
          · exact Or.inl hr
          · rcases hne with hne | hne
            · exact absurd hl hne
            · exact absurd hqt hne
          · exact Or.inr hr
        exact exists_mem_right hw hmem
      · rw [if_neg hl]
        exact ⟨r, hr, Woken.refl r⟩

end SolidDB
