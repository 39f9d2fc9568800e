import SolidDB.Dbe.LmgrRefuse

/-!
# The end of a transaction

`dbe_lockmgr_unlockall` visits the requests of the transaction, the newest first, and
calls `lmgr_unlock` with the name of the lock of each, which takes the first request of
the transaction in that queue.
-/

namespace SolidDB

open LockMgr

variable {lm₀ lm lm' : LockMgr} {me : ℕ} {lock : LockName} {ref : LockRef}
  {refs : List LockRef}

/-- The requests of `me` have no class beyond `LOCK_LONG`. -/
def LockMgr.Short (lm : LockMgr) (me : ℕ) : Prop :=
  ∀ lock, ∀ r ∈ lm.queue lock, r.lrTran = me → r.lrClass.num ≤ LockClass.long.num

/-- `me` has at most one request for each lock. -/
def LockMgr.Single (lm : LockMgr) (me : ℕ) : Prop :=
  ∀ lock, (own me (lm.queue lock)).length ≤ 1

/-- Nothing of `me` is left, the table is in order and the others have what they had. -/
structure LockMgr.ReleasedAll (lm lm' : LockMgr) (me : ℕ) : Prop where
  queue_eq : ∀ lock, ∀ r ∈ lm'.queue lock, r.lrTran ≠ me
  ltLocks_eq : (lm'.lmTran me).ltLocks = []
  queue_ne_nil : ∀ h ∈ lm'.lmHash, h.lhQueue ≠ []
  lockcnt_eq : lm'.lmLockcnt = lm'.nrequests
  woken : lm.OthersWoken lm' me

/-! ## One visit -/

/-- The request with the class `LOCK_INSTANT` and the count one. -/
def LockRequest.visited (r : LockRequest) : LockRequest :=
  { r with lrClass := .instant, lrCount := 1 }

/-- The visit of a request: its class and count are set and the lock is unlocked. -/
def visit (lm : LockMgr) (me : ℕ) (ref : LockRef) : LockMgr × Option LockRef :=
  lmgrUnlock (lm.setRequest ref LockRequest.visited) me ref.lock

theorem LockMgr.Valid.setRequest_visited (hv : lm.Valid) (ref : LockRef) :
    (lm.setRequest ref LockRequest.visited).Valid :=
  hv.setRequest ref (fun _ => rfl) fun _ => rfl

theorem unlockClassList_cons (me : ℕ) (ref : LockRef) (refs : List LockRef) (lm : LockMgr)
    (hshort : lm.Short me) (href : PointTo lm me [ref]) :
    unlockClassList me .long true (ref :: refs) lm =
      match lm.request ref with
      | none => unlockClassList me .long true refs lm
      | some _ =>
          if (visit lm me ref).2.isSome ∧
              (visit lm me ref).2 = refs.find? fun r => (lm.request r).isSome then none
          else unlockClassList me .long true refs (visit lm me ref).1 := by
  rw [unlockClassList]
  cases hreq : lm.request ref with
  | none => rfl
  | some req =>
      obtain ⟨hmem, hid⟩ := request_eq_some hreq
      have hclass := hshort _ req hmem (href ref (List.mem_singleton.mpr rfl) req hmem hid)
      have hcond : req.lrClass = .long ∨ (req.lrClass.num < LockClass.long.num ∧
          true = true) := by
        revert hclass
        cases req.lrClass <;> decide
      exact if_pos hcond

/-- A request of the transaction can be reached by its pointer as long as it is in the
list. -/
theorem request_isSome_iff (hv : lm.Valid) (href : PointTo lm me [ref]) :
    (lm.request ref).isSome ↔ ref ∈ (lm.lmTran me).ltLocks := by
  constructor
  · intro h
    obtain ⟨req, hreq⟩ := Option.isSome_iff_exists.mp h
    obtain ⟨hmem, hid⟩ := request_eq_some hreq
    have hme := href ref (List.mem_singleton.mpr rfl) req hmem hid
    have hin : ref.id ∈ ownIds me (lm.queue ref.lock) :=
      mem_ownIds_iff.mpr ⟨req, hmem, hme, hid⟩
    rw [← List.mem_reverse, ← hv.locks_eq, List.mem_map] at hin
    obtain ⟨x, hx, hxid⟩ := hin
    obtain ⟨hxmem, hxlock⟩ := List.mem_filter.mp hx
    rw [decide_eq_true_eq] at hxlock
    have hxref : x = ref := by
      cases x
      cases ref
      rw [LockRef.mk.injEq]
      exact ⟨hxid, hxlock⟩
    rwa [← hxref]
  · intro h
    obtain ⟨r, hr, -, hid⟩ := hv.exists_of_mem_locks h
    rw [hv.request_eq hr hid]
    rfl

inductive VisitEffect (lm : LockMgr) (me : ℕ) (ref : LockRef) :
    LockMgr × Option LockRef → Prop
  | kept {lm' : LockMgr} (hlocks : (lm'.lmTran me).ltLocks = (lm.lmTran me).ltLocks)
      (hne : refsOf ref.lock (lm.lmTran me).ltLocks ≠ [ref]) : VisitEffect lm me ref (lm', none)
  | freed {lm' : LockMgr} {pre : List LockRef} {last : LockRef}
      (hlast : refsOf ref.lock (lm.lmTran me).ltLocks = pre ++ [last])
      (hlocks : (lm'.lmTran me).ltLocks = (lm.lmTran me).ltLocks.filter (· ≠ last)) :
      VisitEffect lm me ref (lm', some last)

theorem released_visited {r : LockRequest} : r.visited.Released :=
  released_of_instant rfl rfl

theorem visit_effect (hv : lm.Valid) (hmem : ref ∈ (lm.lmTran me).ltLocks) :
    VisitEffect lm me ref (visit lm me ref) := by
  have hv' := hv.setRequest_visited ref
  have hlocks : ((lm.setRequest ref LockRequest.visited).lmTran me).ltLocks =
      (lm.lmTran me).ltLocks := by
    rw [lmTran_setRequest]
  have hrefs := hv'.locks_eq me ref.lock
  rw [hlocks] at hrefs
  have heff := lmgrUnlock_effect hv' me ref.lock
  rw [visit]
  generalize lmgrUnlock (lm.setRequest ref LockRequest.visited) me ref.lock = o at heff ⊢
  cases heff with
  | absent h =>
      obtain ⟨r, hr, hrme, -⟩ := hv'.exists_of_mem_locks (hlocks.symm ▸ hmem)
      exact absurd hrme (h r hr)
  | @kept lm' pre post r hq hr hpre hrel hc =>
      refine .kept (by rw [hc.locks_eq, if_pos rfl, hlocks]) fun hone => hrel ?_
      -- the only request is the one visited, which is released
      have hrid : r.lrId = ref.id := by
        rw [hone, hq, ownIds_append, ownIds_cons, if_pos hr, ownIds_eq_nil hpre,
          List.nil_append, List.reverse_cons] at hrefs
        cases hp : (ownIds me post).reverse with
        | nil =>
            rw [hp] at hrefs
            simpa using hrefs.symm
        | cons x xs =>
            rw [hp] at hrefs
            simp at hrefs
      have hin : r ∈ (lm.setRequest ref LockRequest.visited).queue ref.lock := by
        rw [hq]
        simp
      rw [queue_setRequest, Function.update_apply, if_pos rfl, List.mem_map] at hin
      obtain ⟨x, -, hx⟩ := hin
      split at hx
      · rw [← hx]
        exact released_visited
      · rename_i hne
        rw [hx] at hne
        exact absurd hrid hne
  | @freed lm' pre post queue r hq hr hpre hrel hw hc =>
      rw [hq, ownIds_append, ownIds_cons, if_pos hr, ownIds_eq_nil hpre, List.nil_append,
        List.reverse_cons] at hrefs
      obtain ⟨init, l, heq, hinit, hl⟩ := List.map_eq_append_iff.mp hrefs
      obtain ⟨last, rfl, hlast⟩ := List.map_eq_singleton_iff.mp hl
      have hlock : last.lock = ref.lock := by
        have hin : last ∈ refsOf ref.lock (lm.lmTran me).ltLocks := by
          rw [heq]
          simp
        simpa using (List.mem_filter.mp hin).2
      have heta : (⟨r.lrId, ref.lock⟩ : LockRef) = last := by
        rw [← hlast, ← hlock]
      rw [heta] at hc ⊢
      exact .freed heq (by rw [hc.locks_eq, if_pos rfl, hlocks])

/-! ## The state between the visits -/

structure Visiting (lm : LockMgr) (me : ℕ) : Prop where
  valid : lm.Valid
  short : lm.Short me

theorem Visiting.visit (h : Visiting lm me) (ref : LockRef) :
    Visiting (visit lm me ref).1 me := by
  have hv := h.valid.setRequest_visited ref
  refine ⟨hv.lmgrUnlock me ref.lock, fun lock r hr hrme => ?_⟩
  obtain ⟨s, hs, -, htran, hclass⟩ := (lmgrUnlock_effect hv me ref.lock).mem_of_mem hr
  rw [hclass]
  rw [htran] at hrme
  rw [queue_setRequest, Function.update_apply] at hs
  split at hs
  · obtain ⟨x, hx, rfl⟩ := List.mem_map.mp hs
    split at hrme
    · rw [if_pos ‹_›]
      exact Nat.zero_le _
    · rw [if_neg ‹_›]
      exact h.short _ x hx hrme
  · exact h.short lock s hs hrme

theorem PointTo.visit (h : PointTo lm me refs) (hv : lm.Valid) (ref : LockRef) :
    PointTo (visit lm me ref).1 me refs := by
  apply PointTo.lmgrUnlock _ (hv.setRequest_visited ref)
  exact h.setRequest ref (fun _ => rfl) fun _ => rfl

theorem mutex_visit (hv : lm.Valid) (ref : LockRef) :
    (visit lm me ref).1.mutex = lm.mutex := by
  have hset : (lm.setRequest ref LockRequest.visited).mutex = lm.mutex := by
    rw [LockMgr.setRequest]
    split <;> rfl
  have heff := lmgrUnlock_effect (hv.setRequest_visited ref) me ref.lock
  rw [← hset, visit]
  generalize lmgrUnlock (lm.setRequest ref LockRequest.visited) me ref.lock = o at heff ⊢
  cases heff with
  | absent h => rfl
  | kept hq hr hpre hrel hc =>
      funext name
      rw [mutex, hc.hashsize_eq, hc.nmutexes_eq, mutex]
  | freed hq hr hpre hrel hw hc =>
      funext name
      rw [mutex, hc.hashsize_eq, hc.nmutexes_eq, mutex]

theorem nodup_ltLocks (hv : lm.Valid) (me : ℕ) : (lm.lmTran me).ltLocks.Nodup := by
  have hrefs (lock : LockName) : (refsOf lock (lm.lmTran me).ltLocks).Nodup := by
    apply List.Nodup.of_map LockRef.id
    rw [hv.locks_eq, List.nodup_reverse]
    exact List.Nodup.sublist (List.filter_sublist.map _) (hv.nodup_ids lock)
  generalize (lm.lmTran me).ltLocks = locks at hrefs
  induction locks with
  | nil => exact List.nodup_nil
  | cons ref locks ih =>
      rw [List.nodup_cons]
      constructor
      · intro hmem
        have hnodup := hrefs ref.lock
        rw [refsOf_cons, if_pos rfl, List.nodup_cons] at hnodup
        exact hnodup.1 (List.mem_filter.mpr ⟨hmem, by simp⟩)
      · apply ih
        intro lock
        have hnodup := hrefs lock
        rw [refsOf_cons] at hnodup
        split at hnodup
        · exact (List.nodup_cons.mp hnodup).2
        · exact hnodup

theorem unlockClassList_dead (h : Visiting lm me) (hp : PointTo lm me (ref :: refs))
    (href : ref ∉ (lm.lmTran me).ltLocks) :
    unlockClassList me .long true (ref :: refs) lm =
      unlockClassList me .long true refs lm := by
  have hp' : PointTo lm me [ref] := fun x hx =>
    hp x (List.mem_singleton.mp hx ▸ List.mem_cons_self)
  rw [unlockClassList_cons me ref refs lm h.short hp']
  rw [← request_isSome_iff h.valid hp', Option.not_isSome_iff_eq_none] at href
  rw [href]

theorem unlockClassList_live (h : Visiting lm me) (href : ref ∈ (lm.lmTran me).ltLocks) :
    unlockClassList me .long true (ref :: refs) lm =
      if (visit lm me ref).2.isSome ∧
          (visit lm me ref).2 = refs.find? fun r => (lm.request r).isSome then none
      else unlockClassList me .long true refs (visit lm me ref).1 := by
  have hp' : PointTo lm me [ref] := by
    intro x hx
    rw [List.mem_singleton.mp hx]
    exact h.valid.lrTran_of_mem_locks href
  rw [unlockClassList_cons me ref refs lm h.short hp']
  rw [← request_isSome_iff h.valid hp', Option.isSome_iff_exists] at href
  obtain ⟨req, hreq⟩ := href
  rw [hreq]

/-! ## One request for each lock -/

theorem unlockClassList_single (h : Visiting lm me)
    (hmem : ∀ ref ∈ refs, ref ∈ (lm.lmTran me).ltLocks) (hnodup : refs.Nodup)
    (hone : ∀ lock, (refsOf lock (lm.lmTran me).ltLocks).length ≤ 1) :
    ∃ lm', unlockClassList me .long true refs lm = some lm' ∧ Visiting lm' me ∧
      lm'.mutex = lm.mutex ∧
      (lm'.lmTran me).ltLocks = (lm.lmTran me).ltLocks.filter (· ∉ refs) := by
  induction refs generalizing lm with
  | nil => exact ⟨lm, rfl, h, rfl, by simp⟩
  | cons ref refs ih =>
      obtain ⟨href, hrefs⟩ := List.forall_mem_cons.mp hmem
      obtain ⟨hnot, hnodup'⟩ := List.nodup_cons.mp hnodup
      have honly : refsOf ref.lock (lm.lmTran me).ltLocks = [ref] := by
        have hin : ref ∈ refsOf ref.lock (lm.lmTran me).ltLocks :=
          List.mem_filter.mpr ⟨href, by simp⟩
        have hlen := hone ref.lock
        generalize refsOf ref.lock (lm.lmTran me).ltLocks = l at hin hlen
        obtain ⟨x, rfl⟩ : ∃ x, l = [x] := by
          rw [← List.length_eq_one_iff]
          have := List.length_pos_of_mem hin
          omega
        rw [List.mem_singleton.mp hin]
      rw [unlockClassList_live h href]
      have hmutex := @mutex_visit lm me h.valid ref
      have hvisit := h.visit ref
      have heff := visit_effect h.valid href
      generalize visit lm me ref = o at hmutex hvisit heff ⊢
      cases heff with
      | kept hlocks hne => exact absurd honly hne
      | @freed lm₁ pre last hlast hlocks =>
          rw [honly] at hlast
          obtain rfl : last = ref := by
            cases pre with
            | nil => simpa using hlast.symm
            | cons x pre => simp at hlast
          have hnext : ¬ (((some last : Option LockRef)).isSome = true ∧
              some last = refs.find? fun r => (lm.request r).isSome) := by
            rintro ⟨-, hfind⟩
            exact hnot (List.mem_of_find?_eq_some hfind.symm)
          rw [if_neg hnext]
          have hlen (lock : LockName) : (refsOf lock (lm₁.lmTran me).ltLocks).length ≤ 1 := by
            refine le_trans (List.Sublist.length_le ?_) (hone lock)
            rw [hlocks]
            exact List.filter_sublist.filter _
          have hrefs' : ∀ r ∈ refs, r ∈ (lm₁.lmTran me).ltLocks := by
            intro r hr
            rw [hlocks, List.mem_filter, decide_eq_true_eq]
            refine ⟨hrefs r hr, ?_⟩
            rintro rfl
            exact hnot hr
          obtain ⟨lm', heq, hvisit', hmutex', hlocks'⟩ := ih hvisit hrefs' hnodup' hlen
          refine ⟨lm', heq, hvisit', hmutex'.trans hmutex, ?_⟩
          rw [hlocks', hlocks, List.filter_filter]
          apply List.filter_congr
          intro r _
          rw [Bool.eq_iff_iff]
          simp [and_comm]

theorem lmgrUnlockClass_single {n i : ℕ} (h : Visiting lm me)
    (hone : ∀ lock, (refsOf lock (lm.lmTran me).ltLocks).length ≤ 1) :
    ∃ lm', lmgrUnlockClass me .long true n i lm = some lm' ∧
      ∀ ref ∈ (lm'.lmTran me).ltLocks, ref ∈ (lm.lmTran me).ltLocks ∧
        ¬ (i ≤ lm.mutex ref.lock.name ∧ lm.mutex ref.lock.name < i + n) := by
  induction n generalizing i lm with
  | zero => exact ⟨lm, rfl, fun ref href => ⟨href, by omega⟩⟩
  | succ n ih =>
      set refs := (lm.lmTran me).ltLocks.filter fun ref => lm.mutex ref.lock.name = i
        with hrefs
      obtain ⟨lm₁, heq, hvisit, hmutex, hlocks⟩ := @unlockClassList_single lm me refs h
        (fun ref href => List.mem_of_mem_filter href)
        (List.Nodup.sublist List.filter_sublist (nodup_ltLocks h.valid me)) hone
      have hone' (lock : LockName) : (refsOf lock (lm₁.lmTran me).ltLocks).length ≤ 1 := by
        refine le_trans (List.Sublist.length_le ?_) (hone lock)
        rw [hlocks]
        exact List.filter_sublist.filter _
      obtain ⟨lm', heq', hleft⟩ := @ih lm₁ (i + 1) hvisit hone'
      refine ⟨lm', ?_, fun ref href => ?_⟩
      · rw [lmgrUnlockClass, ← hrefs, heq]
        exact heq'
      · obtain ⟨hmem, hnot⟩ := hleft ref href
        rw [hlocks, List.mem_filter, decide_eq_true_eq, hrefs, List.mem_filter] at hmem
        rw [hmutex] at hnot
        refine ⟨hmem.1, ?_⟩
        have hne : lm.mutex ref.lock.name ≠ i := by
          intro heqi
          exact hmem.2 ⟨hmem.1, by simpa using heqi⟩
        omega

/-! ## Two requests for one lock -/

def liveRefs (lm : LockMgr) (me : ℕ) (lock : LockName) (refs : List LockRef) : ℕ :=
  (refs.filter fun ref => ref.lock = lock ∧ ref ∈ (lm.lmTran me).ltLocks).length

theorem length_le_filter_ne {locks : List LockRef} (h : locks.Nodup) (ref : LockRef) :
    locks.length ≤ (locks.filter (· ≠ ref)).length + 1 := by
  induction locks with
  | nil => exact Nat.zero_le _
  | cons x locks ih =>
      obtain ⟨hx, h⟩ := List.nodup_cons.mp h
      by_cases hxr : x = ref
      · have hall : locks.filter (· ≠ ref) = locks := by
          rw [List.filter_eq_self]
          intro y hy
          rw [decide_eq_true_eq]
          rintro rfl
          exact hx (hxr ▸ hy)
        rw [List.filter_cons_of_neg (by simp [hxr]), hall, List.length_cons]
      · rw [List.filter_cons_of_pos (by simp [hxr]), List.length_cons, List.length_cons]
        exact Nat.succ_le_succ (ih h)

theorem visit_refsOf (h : Visiting lm me) (href : ref ∈ (lm.lmTran me).ltLocks)
    (lock : LockName) :
    (∀ r ∈ ((visit lm me ref).1.lmTran me).ltLocks, r ∈ (lm.lmTran me).ltLocks) ∧
      (ref.lock ≠ lock → refsOf lock ((visit lm me ref).1.lmTran me).ltLocks =
        refsOf lock (lm.lmTran me).ltLocks) ∧
      (refsOf lock (lm.lmTran me).ltLocks).length ≤
        (refsOf lock ((visit lm me ref).1.lmTran me).ltLocks).length + 1 := by
  have hnodup := nodup_ltLocks h.valid me
  have heff := visit_effect h.valid href
  generalize visit lm me ref = o at heff ⊢
  cases heff with
  | kept hlocks hne =>
      rw [hlocks]
      exact ⟨fun r hr => hr, fun _ => rfl, Nat.le_succ _⟩
  | @freed lm₁ pre last hlast hlocks =>
      rw [hlocks]
      have hlock : last.lock = ref.lock := by
        have hin : last ∈ refsOf ref.lock (lm.lmTran me).ltLocks := by
          rw [hlast]
          simp
        simpa using (List.mem_filter.mp hin).2
      refine ⟨fun r hr => List.mem_of_mem_filter hr, fun hne => ?_, ?_⟩
      · exact refsOf_filter_ne (fun heq => hne (hlock.symm.trans heq.symm)) _
      · have hcomm : refsOf lock ((lm.lmTran me).ltLocks.filter (· ≠ last)) =
            (refsOf lock (lm.lmTran me).ltLocks).filter (· ≠ last) := by
          rw [refsOf, refsOf, List.filter_filter, List.filter_filter]
          apply List.filter_congr
          intro r _
          rw [Bool.and_comm]
        rw [hcomm]
        exact length_le_filter_ne (List.Nodup.sublist List.filter_sublist hnodup) last

/-- More requests than pointers that are still to be visited: one is left. -/
theorem unlockClassList_excess (h : Visiting lm me) (hp : PointTo lm me refs)
    (hlt : liveRefs lm me lock refs < (refsOf lock (lm.lmTran me).ltLocks).length)
    (heq : unlockClassList me .long true refs lm = some lm') :
    0 < (refsOf lock (lm'.lmTran me).ltLocks).length := by
  induction refs generalizing lm with
  | nil =>
      rw [unlockClassList, Option.some.injEq] at heq
      rw [← heq]
      exact (Nat.zero_le _).trans_lt hlt
  | cons ref refs ih =>
      have hp' : PointTo lm me refs := fun x hx => hp x (List.mem_cons_of_mem ref hx)
      by_cases href : ref ∈ (lm.lmTran me).ltLocks
      · obtain ⟨hsub, hne, hle⟩ := visit_refsOf h href lock
        rw [unlockClassList_live h href] at heq
        split at heq
        · simp at heq
        · refine ih (h.visit ref) (hp'.visit h.valid ref) ?_ heq
          -- the pointers that are left to visit are no more than before
          have hrest : liveRefs (visit lm me ref).1 me lock refs ≤
              liveRefs lm me lock refs := by
            apply List.Sublist.length_le
            apply List.monotone_filter_right
            intro r hr
            rw [decide_eq_true_eq] at hr ⊢
            exact ⟨hr.1, hsub r hr.2⟩
          by_cases hl : ref.lock = lock
          · rw [liveRefs, List.filter_cons_of_pos (by simp [hl, href]), List.length_cons,
              ← liveRefs] at hlt
            omega
          · rw [liveRefs, List.filter_cons_of_neg (by simp [hl]), ← liveRefs] at hlt
            rw [hne hl]
            omega
      · rw [unlockClassList_dead h hp href] at heq
        rw [liveRefs, List.filter_cons_of_neg (by simp [href]), ← liveRefs] at hlt
        exact ih h hp' hlt heq

theorem unlockClassList_refsOf (h : Visiting lm me) (hp : PointTo lm me refs)
    (hrefs : ∀ ref ∈ refs, ref.lock ≠ lock)
    (heq : unlockClassList me .long true refs lm = some lm') :
    refsOf lock (lm'.lmTran me).ltLocks = refsOf lock (lm.lmTran me).ltLocks := by
  induction refs generalizing lm with
  | nil =>
      rw [unlockClassList, Option.some.injEq] at heq
      rw [heq]
  | cons ref refs ih =>
      have hp' : PointTo lm me refs := fun x hx => hp x (List.mem_cons_of_mem ref hx)
      obtain ⟨hl, hrefs⟩ := List.forall_mem_cons.mp hrefs
      by_cases href : ref ∈ (lm.lmTran me).ltLocks
      · obtain ⟨-, hne, -⟩ := visit_refsOf h href lock
        rw [unlockClassList_live h href] at heq
        split at heq
        · simp at heq
        · rw [ih (h.visit ref) (hp'.visit h.valid ref) hrefs heq, hne hl]
      · rw [unlockClassList_dead h hp href] at heq
        exact ih h hp' hrefs heq

/-- Two requests for one lock: the visit of the newest takes the oldest. -/
theorem unlockClassList_two (h : Visiting lm me) (hp : PointTo lm me refs)
    (hrefs : refsOf lock refs = refsOf lock (lm.lmTran me).ltLocks)
    (htwo : 2 ≤ (refsOf lock (lm.lmTran me).ltLocks).length)
    (heq : unlockClassList me .long true refs lm = some lm') :
    0 < (refsOf lock (lm'.lmTran me).ltLocks).length := by
  induction refs generalizing lm with
  | nil =>
      rw [← hrefs] at htwo
      simp [refsOf] at htwo
  | cons ref refs ih =>
      have hp' : PointTo lm me refs := fun x hx => hp x (List.mem_cons_of_mem ref hx)
      rw [refsOf_cons] at hrefs
      by_cases hl : ref.lock = lock
      · rw [if_pos hl] at hrefs
        have href : ref ∈ (lm.lmTran me).ltLocks := by
          have hin : ref ∈ refsOf lock (lm.lmTran me).ltLocks := by
            rw [← hrefs]
            exact List.mem_cons_self
          exact List.mem_of_mem_filter hin
        obtain ⟨hsub, -, hle⟩ := visit_refsOf h href lock
        rw [unlockClassList_live h href] at heq
        split at heq
        · simp at heq
        · refine unlockClassList_excess (h.visit ref) (hp'.visit h.valid ref) ?_ heq
          have hlen : (refsOf lock refs).length + 1 =
              (refsOf lock (lm.lmTran me).ltLocks).length := by
            rw [← hrefs, List.length_cons]
          have heff := visit_effect h.valid href
          generalize visit lm me ref = o at heff hle hsub ⊢
          cases heff with
          | @kept lm₁ hlocks hne =>
              have hrest : liveRefs lm₁ me lock refs ≤ (refsOf lock refs).length := by
                apply List.Sublist.length_le
                apply List.monotone_filter_right
                intro r hr
                rw [decide_eq_true_eq] at hr ⊢
                exact hr.1
              simp only [hlocks]
              omega
          | @freed lm₁ pre last hlast hlocks =>
              -- the request that is freed was still to be visited
              rw [hl, ← hrefs] at hlast
              have hin : last ∈ refsOf lock refs := by
                cases pre with
                | nil =>
                    rw [← hrefs, hlast] at htwo
                    simp at htwo
                | cons x pre =>
                    rw [List.cons_append, List.cons.injEq] at hlast
                    rw [hlast.2]
                    simp
              have hnot : last ∉ (lm₁.lmTran me).ltLocks := by
                rw [hlocks, List.mem_filter, decide_eq_true_eq]
                exact fun hmem => hmem.2 rfl
              have hrest : liveRefs lm₁ me lock refs < (refsOf lock refs).length := by
                have hsplit : (refs.filter fun r => r.lock = lock ∧
                    r ∈ (lm₁.lmTran me).ltLocks) =
                    (refsOf lock refs).filter fun r => r ∈ (lm₁.lmTran me).ltLocks := by
                  rw [refsOf, List.filter_filter]
                  apply List.filter_congr
                  intro r _
                  rw [Bool.eq_iff_iff]
                  simp [and_comm]
                rw [liveRefs, hsplit]
                apply List.length_filter_lt_length_iff_exists.mpr
                exact ⟨last, hin, by simpa using hnot⟩
              simp only at hle ⊢
              omega
      · rw [if_neg hl] at hrefs
        by_cases href : ref ∈ (lm.lmTran me).ltLocks
        · obtain ⟨-, hne, -⟩ := visit_refsOf h href lock
          rw [unlockClassList_live h href] at heq
          split at heq
          · simp at heq
          · refine ih (h.visit ref) (hp'.visit h.valid ref) ?_ ?_ heq
            · rw [hne hl, hrefs]
            · rw [hne hl]
              exact htwo
        · rw [unlockClassList_dead h hp href] at heq
          exact ih h hp' hrefs htwo heq

/-! ## All mutexes -/

theorem unlockClassList_visiting (h : Visiting lm me) (hp : PointTo lm me refs)
    (heq : unlockClassList me .long true refs lm = some lm') :
    Visiting lm' me ∧ lm'.mutex = lm.mutex := by
  induction refs generalizing lm with
  | nil =>
      rw [unlockClassList, Option.some.injEq] at heq
      rw [← heq]
      exact ⟨h, rfl⟩
  | cons ref refs ih =>
      have hp' : PointTo lm me refs := fun x hx => hp x (List.mem_cons_of_mem ref hx)
      by_cases href : ref ∈ (lm.lmTran me).ltLocks
      · rw [unlockClassList_live h href] at heq
        split at heq
        · simp at heq
        · rw [← @mutex_visit lm me h.valid ref]
          exact ih (h.visit ref) (hp'.visit h.valid ref) heq
      · rw [unlockClassList_dead h hp href] at heq
        exact ih h hp' heq

theorem pointTo_filter (hv : lm.Valid) (p : LockRef → Bool) :
    PointTo lm me ((lm.lmTran me).ltLocks.filter p) :=
  fun _ href => hv.lrTran_of_mem_locks (List.mem_of_mem_filter href)

theorem lmgrUnlockClass_refsOf {n i : ℕ} (h : Visiting lm me)
    (hi : lm.mutex lock.name < i) (heq : lmgrUnlockClass me .long true n i lm = some lm') :
    refsOf lock (lm'.lmTran me).ltLocks = refsOf lock (lm.lmTran me).ltLocks := by
  induction n generalizing i lm with
  | zero =>
      rw [lmgrUnlockClass, Option.some.injEq] at heq
      rw [heq]
  | succ n ih =>
      rw [lmgrUnlockClass, Option.bind_eq_some_iff] at heq
      obtain ⟨lm₁, hlist, heq⟩ := heq
      have hp := @pointTo_filter lm me h.valid fun ref => lm.mutex ref.lock.name = i
      obtain ⟨h', hmutex⟩ := unlockClassList_visiting h hp hlist
      rw [ih h' (by rw [hmutex]; omega) heq]
      refine unlockClassList_refsOf h hp (fun ref href hl => ?_) hlist
      have hi' : lm.mutex ref.lock.name = i := by simpa using (List.mem_filter.mp href).2
      rw [hl] at hi'
      omega

theorem lmgrUnlockClass_two {n i : ℕ} (h : Visiting lm me) (hi : i ≤ lm.mutex lock.name)
    (hn : lm.mutex lock.name < i + n)
    (htwo : 2 ≤ (refsOf lock (lm.lmTran me).ltLocks).length)
    (heq : lmgrUnlockClass me .long true n i lm = some lm') :
    0 < (refsOf lock (lm'.lmTran me).ltLocks).length := by
  induction n generalizing i lm with
  | zero => omega
  | succ n ih =>
      rw [lmgrUnlockClass, Option.bind_eq_some_iff] at heq
      obtain ⟨lm₁, hlist, heq⟩ := heq
      have hp := @pointTo_filter lm me h.valid fun ref => lm.mutex ref.lock.name = i
      obtain ⟨h', hmutex⟩ := unlockClassList_visiting h hp hlist
      by_cases hieq : lm.mutex lock.name = i
      · rw [lmgrUnlockClass_refsOf h' (by rw [hmutex]; omega) heq]
        refine unlockClassList_two h hp ?_ htwo hlist
        rw [refsOf, refsOf, List.filter_filter]
        apply List.filter_congr
        intro ref _
        by_cases hl : ref.lock = lock
        · simp [hl, hieq]
        · simp [hl]
      · refine ih h' (by rw [hmutex]; omega) (by rw [hmutex]; omega) ?_ heq
        rw [unlockClassList_refsOf h hp _ hlist]
        · exact htwo
        · intro ref href hl
          have hi' : lm.mutex ref.lock.name = i := by simpa using (List.mem_filter.mp href).2
          rw [hl] at hi'
          exact hieq hi'

/-- Everything of the transaction is released exactly where it has no two requests for
one lock. -/
theorem unlockall_releasedAll_iff (h : lm.Reachable) (hshort : lm.Short me) :
    (∃ lm', dbeLockmgrUnlockall lm me = some lm' ∧ lm.ReleasedAll lm' me) ↔
      lm.Single me := by
  have hv := h.inv.valid
  have hvisit : Visiting lm me := ⟨hv, hshort⟩
  have hlen (lock : LockName) : (refsOf lock (lm.lmTran me).ltLocks).length =
      (own me (lm.queue lock)).length := by
    have := congrArg List.length (hv.locks_eq me lock)
    rwa [List.length_map, List.length_reverse, ownIds, List.length_map] at this
  constructor
  · rintro ⟨lm', heq, hrel⟩ lock
    rw [dbeLockmgrUnlockall, Option.map_eq_some_iff] at heq
    obtain ⟨lm₁, hclass, rfl⟩ := heq
    have hnil := hrel.ltLocks_eq
    rw [ltLocks_setWait] at hnil
    by_contra htwo
    rw [← hlen] at htwo
    have hpos := @lmgrUnlockClass_two lm lm₁ me lock lm.lmNmutexes 0 hvisit (Nat.zero_le _)
      (by rw [Nat.zero_add]; exact Nat.mod_lt _ hv.nmutexes_pos) (by omega) hclass
    rw [hnil] at hpos
    exact absurd hpos (by simp [refsOf])
  · intro hone
    obtain ⟨lm₁, hclass, hleft⟩ := @lmgrUnlockClass_single lm me lm.lmNmutexes 0 hvisit
      fun lock => (hlen lock).trans_le (hone lock)
    have hnil : (lm₁.lmTran me).ltLocks = [] := by
      rw [List.eq_nil_iff_forall_not_mem]
      intro ref href
      refine (hleft ref href).2 ⟨Nat.zero_le _, ?_⟩
      rw [Nat.zero_add]
      exact Nat.mod_lt _ hv.nmutexes_pos
    have heq : dbeLockmgrUnlockall lm me = some (lm₁.setWait me none) := by
      rw [dbeLockmgrUnlockall, hclass]
      rfl
    have hb := h.inv.dbeLockmgrUnlockall heq
    refine ⟨_, heq, ?_, ?_, hb.inv.valid.queue_ne_nil, hb.inv.valid.lockcnt_eq, hb.woken⟩
    · intro lock r hr hrme
      have hids := hb.inv.valid.locks_eq me lock
      rw [ltLocks_setWait, hnil] at hids
      have hin := mem_ownIds_iff.mpr ⟨r, hr, hrme, rfl⟩
      rw [← List.mem_reverse, ← hids] at hin
      simp [refsOf] at hin
    · rw [ltLocks_setWait, hnil]

theorem short_of_lmHash
    (h : ∀ head ∈ lm.lmHash, ∀ r ∈ head.lhQueue, r.lrClass.num ≤ LockClass.long.num) :
    lm.Short me := by
  intro lock r hr _
  obtain ⟨head, hf, hq⟩ := exists_find_of_queue_ne_nil (List.ne_nil_of_mem hr)
  exact h head (mem_of_find hf) r (hq ▸ hr)

/-- A transaction that waits for the conversion of a lock and has another lock between:
the visit of the conversion frees the request that is held, and the conversion stays. -/
theorem not_releasedAll_conversion :
    ∃ lm lm' : LockMgr, lm.Reachable ∧ lm.Short 1 ∧
      dbeLockmgrUnlockall lm 1 = some lm' ∧
      (lm'.lmTran 1).ltLocks = [⟨3, ⟨0, 0⟩⟩] ∧ ¬ lm.ReleasedAll lm' 1 := by
  have hrun := @Reachable.run _ _
    [.lock 1 ⟨0, 0⟩ .s .long 0 false ⟨false, false, true⟩,
      .lock 2 ⟨0, 0⟩ .s .long 0 false ⟨false, false, true⟩,
      .lock 1 ⟨0, 1⟩ .s .long 0 false ⟨false, false, true⟩,
      .lock 1 ⟨0, 0⟩ .x .long 10 false ⟨false, false, true⟩]
    (Reachable.init 1 1 Nat.one_pos) (by decide) rfl
  refine ⟨_, _, hrun, short_of_lmHash (by decide), rfl, rfl, fun hrel => ?_⟩
  exact absurd hrel.ltLocks_eq (by decide)

/-- The end of a transaction that holds three locks under two mutexes, for one of which
another transaction waits. -/
theorem unlockall_releasedAll_iff_three :
    ∃ lm : LockMgr, (lm.lmTran 1).ltLocks = [⟨3, ⟨0, 2⟩⟩, ⟨1, ⟨0, 1⟩⟩, ⟨0, ⟨0, 0⟩⟩] ∧
      (lm.lmTran 2).ltWait = some ⟨2, ⟨0, 1⟩⟩ ∧
      ((∃ lm', dbeLockmgrUnlockall lm 1 = some lm' ∧ lm.ReleasedAll lm' 1) ↔
        lm.Single 1) := by
  have hrun := @Reachable.run _ _
    [.lock 1 ⟨0, 0⟩ .s .long 0 false ⟨false, false, true⟩,
      .lock 1 ⟨0, 1⟩ .x .long 0 false ⟨false, false, true⟩,
      .lock 2 ⟨0, 1⟩ .s .long 10 false ⟨false, false, true⟩,
      .lock 1 ⟨0, 2⟩ .ix .long 0 false ⟨false, false, true⟩]
    (Reachable.init 7 2 Nat.two_pos) (by decide) rfl
  exact ⟨_, rfl, rfl, unlockall_releasedAll_iff hrun (short_of_lmHash (by decide))⟩

end SolidDB
