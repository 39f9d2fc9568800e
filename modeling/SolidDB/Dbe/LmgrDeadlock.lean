import SolidDB.Dbe.LmgrReachable
import SolidDB.Foundation.PathSearch

/-!
# The deadlock detector

`lmgr_isdeadlock` follows the waits from a transaction that has just been made to wait,
with marks in `lt_cycle` along the path. Its edges are not those of the waits-for graph:
`lock_compat` gets its modes in the other order than in `lmgr_unlock`, and the loop ends
at the first request of the transaction that is not granted, which need not be the one it
waits for.
-/

namespace SolidDB

open LockMgr Relation

/-- What a search changes: `lt_cycle` of the transactions, and the number of locks that it
may still look at. `limited` is not in the program: a limit has stopped the search. -/
structure DeadlockSearch where
  ltCycle : ℕ → Option ℕ
  maxlocks : ℤ
  limited : Bool

namespace DeadlockSearch

def setCycle (st : DeadlockSearch) (me : ℕ) (tran : Option ℕ) : DeadlockSearch :=
  { st with ltCycle := Function.update st.ltCycle me tran }

def marks (st : DeadlockSearch) : Set ℕ := {t | st.ltCycle t ≠ none}

end DeadlockSearch

def LockRequest.Stops (r : LockRequest) (me : ℕ) (mode : LockMode) : Prop :=
  r.lrTran ≠ me ∧ (!lockCompat r.lrMode mode ∨ r.lrStatus ≠ .granted)

instance (r : LockRequest) (me : ℕ) (mode : LockMode) : Decidable (r.Stops me mode) :=
  inferInstanceAs (Decidable (_ ∧ (_ ∨ _)))

/-- The loop of `lmgr_isdeadlock` over the queue. `mode` is the mode that `me` waits for,
`next` the search from another transaction. -/
def isdeadlockQueue (next : ℕ → DeadlockSearch → Option (Bool × DeadlockSearch)) (me : ℕ)
    (mode : LockMode) : List LockRequest → DeadlockSearch → Option (Bool × DeadlockSearch)
  | [], st => some (false, st)
  | req :: queue, st =>
    if req.lrTran = me ∧ req.lrStatus ≠ .granted then some (false, st)
    else
      let st' := { st with maxlocks := st.maxlocks - 1 }
      if st.maxlocks ≤ 0 then some (false, { st' with limited := true })
      else if req.Stops me mode then
        let marked := st'.setCycle me (some req.lrTran)
        let found := if (marked.ltCycle req.lrTran).isSome then some (true, marked)
          else next req.lrTran marked
        found.bind fun res =>
          let cleared := res.2.setCycle me none
          if res.1 then some (true, cleared) else isdeadlockQueue next me mode queue cleared
      else isdeadlockQueue next me mode queue st'

/-- `lmgr_isdeadlock`, to a depth of recursion of `fuel`. -/
def isdeadlockFrom (lm : LockMgr) :
    ℕ → ℤ → ℕ → DeadlockSearch → Option (Bool × DeadlockSearch)
  | 0, _, _, _ => none
  | fuel + 1, level, me, st =>
    match (lm.lmTran me).ltWait with
    | none => some (false, st)
    | some ref =>
      if level - 1 = 0 then some (false, { st with limited := true })
      else (lm.request ref).bind fun wait =>
        isdeadlockQueue (isdeadlockFrom lm fuel (level - 1)) me wait.lrMode
          (lm.queue ref.lock) st

/-- `lmgr_isdeadlock` as `lmgr_lock` calls it. Every call but the first one takes one from
`maxlocks`, which bounds the depth. -/
def lmgrIsdeadlock (lm : LockMgr) (me : ℕ) (level maxlocks : ℤ) :
    Option (Bool × DeadlockSearch) :=
  isdeadlockFrom lm (maxlocks.toNat + 1) level me ⟨fun _ => none, maxlocks, false⟩

/-! ## The two graphs -/

def LockMgr.Awaiting (lm : LockMgr) (t : ℕ) (lock : LockName) (wait : LockRequest) : Prop :=
  ∃ ref, (lm.lmTran t).ltWait = some ref ∧ lm.request ref = some wait ∧ ref.lock = lock

/-- A waiter waits for the others who have the lock in a mode that keeps its own from
being granted, and for the others who stand in the queue before it. -/
def LockMgr.WaitsFor (lm : LockMgr) (t u : ℕ) : Prop :=
  ∃ lock wait, lm.Awaiting t lock wait ∧ wait.lrStatus ≠ .granted ∧ u ≠ t ∧
    ((∃ r ∈ lm.queue lock, r.lrTran = u ∧ r.lrStatus = .granted ∧
        !lockCompat wait.lrMode r.lrMode) ∨
      ∃ pre post, lm.queue lock = pre ++ wait :: post ∧
        ∃ r ∈ pre, r.lrTran = u ∧ r.lrStatus ≠ .granted)

def scanned (me : ℕ) (queue : List LockRequest) : List LockRequest :=
  queue.takeWhile fun r => !(r.lrTran = me ∧ r.lrStatus ≠ .granted)

def LockMgr.Searches (lm : LockMgr) (t u : ℕ) : Prop :=
  ∃ lock wait, lm.Awaiting t lock wait ∧
    ∃ r ∈ scanned t (lm.queue lock), r.Stops t wait.lrMode ∧ r.lrTran = u

variable {lm : LockMgr} {me t : ℕ} {lock : LockName} {wait req : LockRequest}
  {mode : LockMode} {queue : List LockRequest} {st st' : DeadlockSearch} {b : Bool}
  {level : ℤ} {fuel : ℕ}
  {next : ℕ → DeadlockSearch → Option (Bool × DeadlockSearch)}

theorem searches_iff (h : lm.Awaiting me lock wait) : lm.Searches me t ↔
    ∃ r ∈ scanned me (lm.queue lock), r.Stops me wait.lrMode ∧ r.lrTran = t := by
  constructor
  · rintro ⟨lock', wait', ⟨ref', href', hreq', rfl⟩, hr⟩
    obtain ⟨ref, href, hreq, rfl⟩ := h
    obtain rfl := Option.some.inj (href'.symm.trans href)
    obtain rfl := Option.some.inj (hreq'.symm.trans hreq)
    exact hr
  · exact fun hr => ⟨lock, wait, h, hr⟩

theorem not_searches_of_ltWait (h : (lm.lmTran me).ltWait = none) : ¬ lm.Searches me t := by
  rintro ⟨lock, wait, ⟨ref, href, -, -⟩, -⟩
  exact Option.some_ne_none ref (href.symm.trans h)

theorem scanned_cons_of_own (h : req.lrTran = me ∧ req.lrStatus ≠ .granted) :
    scanned me (req :: queue) = [] := by
  rw [scanned, List.takeWhile_cons_of_neg]
  simpa using h

theorem scanned_cons_of_not (h : ¬ (req.lrTran = me ∧ req.lrStatus ≠ .granted)) :
    scanned me (req :: queue) = req :: scanned me queue := by
  rw [scanned, List.takeWhile_cons_of_pos]
  · rfl
  · simpa using not_and_or.mp h

/-! ## What a search finds -/

theorem DeadlockSearch.marks_setCycle (st : DeadlockSearch) (me u : ℕ) :
    (st.setCycle me (some u)).marks = insert me st.marks := by
  ext t
  rw [Set.mem_insert_iff]
  change Function.update st.ltCycle me (some u) t ≠ none ↔ t = me ∨ st.ltCycle t ≠ none
  by_cases ht : t = me
  · rw [ht, Function.update_self]
    exact iff_of_true (Option.some_ne_none u) (.inl rfl)
  · rw [Function.update_of_ne ht]
    exact (or_iff_right ht).symm

structure SearchResult (st : DeadlockSearch) (found : Prop) (b : Bool) (st' : DeadlockSearch) :
    Prop where
  ltCycle_eq : st'.ltCycle = st.ltCycle
  limited : st.limited = true → st'.limited = true
  sound : b = true → found
  complete : st'.limited = false → found → b = true

def NextSearches (lm : LockMgr) (next : ℕ → DeadlockSearch → Option (Bool × DeadlockSearch)) :
    Prop :=
  ∀ t st b st', next t st = some (b, st') → st.ltCycle t = none →
    SearchResult st (PathSearch.Finds lm.Searches st.marks t) b st'

def LockRequest.Leads (r : LockRequest) (lm : LockMgr) (P : Set ℕ) (me : ℕ) : Prop :=
  r.lrTran ∈ insert me P ∨
    r.lrTran ∉ insert me P ∧ PathSearch.Finds lm.Searches (insert me P) r.lrTran

theorem isdeadlockQueue_result (hnext : NextSearches lm next)
    (hme : st.ltCycle me = none) (h : isdeadlockQueue next me mode queue st = some (b, st')) :
    SearchResult st
      (∃ r ∈ scanned me queue, r.Stops me mode ∧ r.Leads lm st.marks me) b st' := by
  induction queue generalizing st with
  | nil =>
      obtain ⟨rfl, rfl⟩ := Prod.mk.inj (Option.some.inj h)
      refine ⟨rfl, id, fun hb => absurd hb Bool.false_ne_true, fun _ hf => ?_⟩
      obtain ⟨r, hr, -⟩ := hf
      exact absurd hr List.not_mem_nil
  | cons req queue ih =>
      rw [isdeadlockQueue] at h
      by_cases hown : req.lrTran = me ∧ req.lrStatus ≠ .granted
      · rw [if_pos hown] at h
        obtain ⟨rfl, rfl⟩ := Prod.mk.inj (Option.some.inj h)
        rw [scanned_cons_of_own hown]
        refine ⟨rfl, id, fun hb => absurd hb Bool.false_ne_true, fun _ hf => ?_⟩
        obtain ⟨r, hr, -⟩ := hf
        exact absurd hr List.not_mem_nil
      rw [if_neg hown] at h
      rw [scanned_cons_of_not hown]
      by_cases hmax : st.maxlocks ≤ 0
      · -- the limit of the locks stops the search
        rw [if_pos hmax] at h
        obtain ⟨rfl, rfl⟩ := Prod.mk.inj (Option.some.inj h)
        exact ⟨rfl, fun _ => rfl, fun hb => absurd hb Bool.false_ne_true,
          fun hl => absurd hl.symm Bool.false_ne_true⟩
      rw [if_neg hmax] at h
      by_cases hstops : req.Stops me mode
      · rw [if_pos hstops] at h
        obtain ⟨⟨b₁, st₁⟩, hfound, hrest⟩ := Option.bind_eq_some_iff.mp h
        have hmarks : DeadlockSearch.marks (DeadlockSearch.setCycle
            { st with maxlocks := st.maxlocks - 1 } me (some req.lrTran)) =
              insert me st.marks := DeadlockSearch.marks_setCycle _ me req.lrTran
        -- the entry alone
        have hone : SearchResult (DeadlockSearch.setCycle
            { st with maxlocks := st.maxlocks - 1 } me (some req.lrTran))
              (req.Leads lm st.marks me) b₁ st₁ := by
          by_cases hmark : ((DeadlockSearch.setCycle { st with maxlocks := st.maxlocks - 1 } me
              (some req.lrTran)).ltCycle req.lrTran).isSome = true
          · rw [if_pos hmark] at hfound
            obtain ⟨rfl, rfl⟩ := Prod.mk.inj (Option.some.inj hfound)
            refine ⟨rfl, id, fun _ => .inl ?_, fun _ _ => rfl⟩
            rw [← hmarks]
            exact Option.isSome_iff_ne_none.mp hmark
          · rw [if_neg hmark] at hfound
            have hnone := Option.not_isSome_iff_eq_none.mp hmark
            have hres := hnext _ _ _ _ hfound hnone
            have hnot : req.lrTran ∉ insert me st.marks := by
              rw [← hmarks]
              exact fun hm => hm hnone
            rw [hmarks] at hres
            refine ⟨hres.ltCycle_eq, hres.limited, fun hb => .inr ⟨hnot, hres.sound hb⟩,
              fun hl hlead => hres.complete hl (hlead.resolve_left hnot).2⟩
        have hcleared : (st₁.setCycle me none).ltCycle = st.ltCycle := by
          change Function.update st₁.ltCycle me none = _
          rw [hone.ltCycle_eq]
          change Function.update (Function.update st.ltCycle me (some req.lrTran)) me none = _
          rw [Function.update_idem, ← hme, Function.update_eq_self]
        cases b₁ with
        | true =>
            rw [if_pos rfl] at hrest
            obtain ⟨rfl, rfl⟩ := Prod.mk.inj (Option.some.inj hrest)
            exact ⟨hcleared, hone.limited,
              fun _ => ⟨req, List.mem_cons_self, hstops, hone.sound rfl⟩, fun _ _ => rfl⟩
        | false =>
            rw [if_neg Bool.false_ne_true] at hrest
            have hmarks' : (st₁.setCycle me none).marks = st.marks := by
              unfold DeadlockSearch.marks
              rw [hcleared]
            have hres := ih (by rw [hcleared]; exact hme) hrest
            rw [hmarks'] at hres
            refine ⟨hres.ltCycle_eq.trans hcleared, fun hl => hres.limited (hone.limited hl),
              fun hb => ?_, fun hl hf => ?_⟩
            · obtain ⟨r, hr, hr'⟩ := hres.sound hb
              exact ⟨r, List.mem_cons_of_mem req hr, hr'⟩
            · have hl₁ : st₁.limited = false :=
                Bool.eq_false_iff.mpr fun ht =>
                  absurd (hl.symm.trans (hres.limited ht)) Bool.false_ne_true
              obtain ⟨r, hr, hr'⟩ := hf
              rcases List.mem_cons.mp hr with rfl | hr
              · exact absurd (hone.complete hl₁ hr'.2) Bool.false_ne_true
              · exact hres.complete hl ⟨r, hr, hr'⟩
      · rw [if_neg hstops] at h
        have hres := @ih { st with maxlocks := st.maxlocks - 1 } hme h
        refine ⟨hres.ltCycle_eq, hres.limited, fun hb => ?_, fun hl hf => hres.complete hl ?_⟩
        · obtain ⟨r, hr, hr'⟩ := hres.sound hb
          exact ⟨r, List.mem_cons_of_mem req hr, hr'⟩
        · obtain ⟨r, hr, hr'⟩ := hf
          rcases List.mem_cons.mp hr with rfl | hr
          · exact absurd hr'.1 hstops
          · exact ⟨r, hr, hr'⟩

/-- The search finds what a search along the paths of its graph finds. -/
theorem isdeadlockFrom_result (lm : LockMgr) (fuel : ℕ) (level : ℤ) :
    NextSearches lm (isdeadlockFrom lm fuel level) := by
  induction fuel generalizing level with
  | zero => exact fun _ _ _ _ h => absurd h.symm (Option.some_ne_none _)
  | succ fuel ih =>
      intro me st b st' h hme
      rw [isdeadlockFrom] at h
      cases hwait : (lm.lmTran me).ltWait with
      | none =>
          rw [hwait] at h
          obtain ⟨rfl, rfl⟩ := Prod.mk.inj (Option.some.inj h)
          refine ⟨rfl, id, fun hb => absurd hb Bool.false_ne_true, fun _ hf => ?_⟩
          obtain ⟨t, hedge, -⟩ := PathSearch.finds_iff.mp hf
          exact absurd hedge (not_searches_of_ltWait hwait)
      | some ref =>
          simp only [hwait] at h
          by_cases hlevel : level - 1 = 0
          · rw [if_pos hlevel] at h
            obtain ⟨rfl, rfl⟩ := Prod.mk.inj (Option.some.inj h)
            exact ⟨rfl, fun _ => rfl, fun hb => absurd hb Bool.false_ne_true,
              fun hl => absurd hl.symm Bool.false_ne_true⟩
          · rw [if_neg hlevel] at h
            obtain ⟨wait, hreq, hqueue⟩ := Option.bind_eq_some_iff.mp h
            have hedges (t : ℕ) := @searches_iff lm me t ref.lock wait ⟨ref, hwait, hreq, rfl⟩
            have hres := isdeadlockQueue_result (ih (level - 1)) hme hqueue
            have hfinds : PathSearch.Finds lm.Searches st.marks me ↔
                ∃ r ∈ scanned me (lm.queue ref.lock), r.Stops me wait.lrMode ∧
                  r.Leads lm st.marks me := by
              rw [PathSearch.finds_iff]
              constructor
              · rintro ⟨t, hedge, hlead⟩
                obtain ⟨r, hr, hstops, rfl⟩ := (hedges t).mp hedge
                exact ⟨r, hr, hstops, hlead⟩
              · rintro ⟨r, hr, hstops, hlead⟩
                exact ⟨r.lrTran, (hedges _).mpr ⟨r, hr, hstops, rfl⟩, hlead⟩
            rw [hfinds]
            exact hres

end SolidDB
