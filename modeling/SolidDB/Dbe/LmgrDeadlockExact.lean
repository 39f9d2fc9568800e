import SolidDB.Dbe.LmgrDeadlock
import Mathlib.Data.Finset.Card

/-!
# When the deadlock detector is right

The search always ends and clears its marks. With limits that are not reached it finds a
cycle just if one can be reached over the edges that it follows, and there are such limits
in every state. What it takes for waits at a transaction depends on the queue of the
awaited request: it is right where none of them is wrong, and none is missed on a cycle.
-/

namespace SolidDB

open LockMgr Relation

variable {lm : LockMgr} {me t : ℕ} {lock : LockName} {wait req : LockRequest}
  {mode : LockMode} {queue : List LockRequest} {st st' : DeadlockSearch} {b : Bool}
  {level : ℤ} {fuel : ℕ}
  {next : ℕ → DeadlockSearch → Option (Bool × DeadlockSearch)}

/-! ## The search ends -/

theorem toNat_sub_one_lt {n : ℤ} (hn : ¬ n ≤ 0) (hfuel : n.toNat ≤ fuel) :
    (n - 1).toNat < fuel := by
  omega

theorem isdeadlockQueue_returns
    (hnext : ∀ t st, st.maxlocks.toNat < fuel →
      ∃ b st', next t st = some (b, st') ∧ st'.maxlocks ≤ st.maxlocks)
    (me : ℕ) (mode : LockMode) (queue : List LockRequest) (st : DeadlockSearch)
    (hfuel : st.maxlocks.toNat ≤ fuel) :
    ∃ b st', isdeadlockQueue next me mode queue st = some (b, st') ∧
      st'.maxlocks ≤ st.maxlocks := by
  induction queue generalizing st with
  | nil => exact ⟨false, st, rfl, le_refl _⟩
  | cons req queue ih =>
      have hless : st.maxlocks - 1 ≤ st.maxlocks := Int.sub_le_self _ (by decide)
      rw [isdeadlockQueue]
      by_cases hown : req.lrTran = me ∧ req.lrStatus ≠ .granted
      · rw [if_pos hown]
        exact ⟨false, st, rfl, le_refl _⟩
      rw [if_neg hown]
      by_cases hmax : st.maxlocks ≤ 0
      · rw [if_pos hmax]
        exact ⟨false, _, rfl, hless⟩
      rw [if_neg hmax]
      have hlt := toNat_sub_one_lt hmax hfuel
      by_cases hstops : req.Stops me mode
      · rw [if_pos hstops]
        obtain ⟨b₁, st₁, hfound, hle⟩ : ∃ b₁ st₁,
            (if ((DeadlockSearch.setCycle { st with maxlocks := st.maxlocks - 1 } me
                (some req.lrTran)).ltCycle req.lrTran).isSome = true then
              some (true, DeadlockSearch.setCycle { st with maxlocks := st.maxlocks - 1 } me
                (some req.lrTran))
            else next req.lrTran (DeadlockSearch.setCycle
              { st with maxlocks := st.maxlocks - 1 } me (some req.lrTran))) =
                some (b₁, st₁) ∧ st₁.maxlocks ≤ st.maxlocks - 1 := by
          split
          · exact ⟨true, _, rfl, le_refl _⟩
          · exact hnext _ _ hlt
        simp only [hfound, Option.bind_some]
        cases b₁ with
        | true => exact ⟨true, _, rfl, hle.trans hless⟩
        | false =>
            have hle₁ : (st₁.setCycle me none).maxlocks ≤ st.maxlocks - 1 := hle
            obtain ⟨b, st', hrest, hle'⟩ := ih (st₁.setCycle me none)
              ((Int.toNat_le_toNat hle₁).trans hlt.le)
            exact ⟨b, st', hrest, hle'.trans (hle₁.trans hless)⟩
      · rw [if_neg hstops]
        obtain ⟨b, st', hrest, hle'⟩ := ih { st with maxlocks := st.maxlocks - 1 } hlt.le
        exact ⟨b, st', hrest, hle'.trans hless⟩

def LockMgr.HasAwaited (lm : LockMgr) : Prop :=
  ∀ t ref, (lm.lmTran t).ltWait = some ref → ∃ wait, lm.request ref = some wait

theorem LockMgr.Inv.hasAwaited (h : lm.Inv) : lm.HasAwaited := by
  intro t ref href
  obtain ⟨-, r, hr, hid, -⟩ := h.waits t ref href
  refine Option.isSome_iff_exists.mp (List.find?_isSome.mpr ⟨r, hr, ?_⟩)
  exact decide_eq_true hid

theorem isdeadlockFrom_returns (h : lm.HasAwaited) (fuel : ℕ) (level : ℤ) (me : ℕ)
    (st : DeadlockSearch) (hfuel : st.maxlocks.toNat < fuel) :
    ∃ b st', isdeadlockFrom lm fuel level me st = some (b, st') ∧
      st'.maxlocks ≤ st.maxlocks := by
  induction fuel generalizing level me st with
  | zero => exact absurd hfuel (Nat.not_lt_zero _)
  | succ fuel ih =>
      rw [isdeadlockFrom]
      cases hwait : (lm.lmTran me).ltWait with
      | none => exact ⟨false, st, rfl, le_refl _⟩
      | some ref =>
          simp only
          by_cases hlevel : level - 1 = 0
          · rw [if_pos hlevel]
            exact ⟨false, _, rfl, le_refl _⟩
          · rw [if_neg hlevel]
            obtain ⟨wait, hreq⟩ := h me ref hwait
            rw [hreq, Option.bind_some]
            exact isdeadlockQueue_returns (ih (level - 1)) me wait.lrMode (lm.queue ref.lock) st
              (Nat.le_of_lt_succ hfuel)

/-! ## Limits that are not reached -/

/-- With these limits the search from a transaction is not stopped. -/
def Unlimited (lm : LockMgr) (P : Set ℕ) (me L M : ℕ) : Prop :=
  ∀ fuel (level : ℤ) st b st', (L : ℤ) < level → (M : ℤ) ≤ st.maxlocks → st.marks = P →
    st.ltCycle me = none → st.limited = false →
    isdeadlockFrom lm fuel level me st = some (b, st') →
      st'.limited = false ∧ st.maxlocks - M ≤ st'.maxlocks

theorem exists_unlimited_queue {P : Set ℕ} (me : ℕ) (mode : LockMode)
    (queue : List LockRequest)
    (hnext : ∀ r ∈ queue, r.lrTran ∉ insert me P →
      ∃ L M, Unlimited lm (insert me P) r.lrTran L M) :
    ∃ L M : ℕ, ∀ fuel (level : ℤ) st b st', (L : ℤ) < level → (M : ℤ) ≤ st.maxlocks →
      st.marks = P → st.ltCycle me = none → st.limited = false →
      isdeadlockQueue (isdeadlockFrom lm fuel level) me mode queue st = some (b, st') →
        st'.limited = false ∧ st.maxlocks - M ≤ st'.maxlocks := by
  induction queue with
  | nil =>
      refine ⟨0, 0, fun fuel level st b st' _ _ _ _ hl h => ?_⟩
      obtain ⟨rfl, rfl⟩ := Prod.mk.inj (Option.some.inj h)
      exact ⟨hl, (Int.sub_zero _).le⟩
  | cons req queue ih =>
      obtain ⟨L₀, M₀, hrest⟩ := ih fun r hr => hnext r (List.mem_cons_of_mem req hr)
      obtain ⟨L₁, M₁, hreq⟩ : ∃ L M, req.lrTran ∉ insert me P →
          Unlimited lm (insert me P) req.lrTran L M := by
        by_cases hmem : req.lrTran ∈ insert me P
        · exact ⟨0, 0, fun hnot => absurd hmem hnot⟩
        · obtain ⟨L, M, hu⟩ := hnext req List.mem_cons_self hmem
          exact ⟨L, M, fun _ => hu⟩
      refine ⟨max L₀ L₁, M₀ + M₁ + 1, fun fuel level st b st' hL hM hP hme hl h => ?_⟩
      have hL₀ : (L₀ : ℤ) < level := lt_of_le_of_lt (Int.ofNat_le.mpr (le_max_left _ _)) hL
      have hL₁ : (L₁ : ℤ) < level := lt_of_le_of_lt (Int.ofNat_le.mpr (le_max_right _ _)) hL
      push_cast at hM ⊢
      rw [isdeadlockQueue] at h
      by_cases hown : req.lrTran = me ∧ req.lrStatus ≠ .granted
      · rw [if_pos hown] at h
        obtain ⟨rfl, rfl⟩ := Prod.mk.inj (Option.some.inj h)
        exact ⟨hl, by omega⟩
      rw [if_neg hown] at h
      have hmax : ¬ st.maxlocks ≤ 0 := by omega
      rw [if_neg hmax] at h
      by_cases hstops : req.Stops me mode
      · rw [if_pos hstops] at h
        obtain ⟨⟨b₁, st₁⟩, hfound, hafter⟩ := Option.bind_eq_some_iff.mp h
        have hmarks : DeadlockSearch.marks (DeadlockSearch.setCycle
            { st with maxlocks := st.maxlocks - 1 } me (some req.lrTran)) = insert me P := by
          rw [← hP]
          exact DeadlockSearch.marks_setCycle _ me req.lrTran
        have hone : st₁.limited = false ∧ st.maxlocks - 1 - M₁ ≤ st₁.maxlocks ∧
            st₁.ltCycle = Function.update st.ltCycle me (some req.lrTran) := by
          by_cases hmark : ((DeadlockSearch.setCycle { st with maxlocks := st.maxlocks - 1 } me
              (some req.lrTran)).ltCycle req.lrTran).isSome = true
          · rw [if_pos hmark] at hfound
            obtain ⟨rfl, rfl⟩ := Prod.mk.inj (Option.some.inj hfound)
            exact ⟨hl, Int.sub_le_self _ (Int.natCast_nonneg M₁), rfl⟩
          · rw [if_neg hmark] at hfound
            have hnone := Option.not_isSome_iff_eq_none.mp hmark
            have hnot : req.lrTran ∉ insert me P := by
              rw [← hmarks]
              exact fun hm => hm hnone
            have hM₁ : (M₁ : ℤ) ≤ st.maxlocks - 1 := by omega
            obtain ⟨hl₁, hle₁⟩ := hreq hnot fuel level _ b₁ st₁ hL₁ hM₁ hmarks hnone hl hfound
            exact ⟨hl₁, hle₁, (isdeadlockFrom_result lm fuel level _ _ _ _ hfound hnone).ltCycle_eq⟩
        obtain ⟨hl₁, hle₁, hcycle⟩ := hone
        cases b₁ with
        | true =>
            rw [if_pos rfl] at hafter
            obtain ⟨rfl, rfl⟩ := Prod.mk.inj (Option.some.inj hafter)
            refine ⟨hl₁, ?_⟩
            change st.maxlocks - _ ≤ st₁.maxlocks
            omega
        | false =>
            rw [if_neg Bool.false_ne_true] at hafter
            have hcleared : (st₁.setCycle me none).ltCycle = st.ltCycle := by
              change Function.update st₁.ltCycle me none = _
              rw [hcycle, Function.update_idem, ← hme, Function.update_eq_self]
            have hmarks' : (st₁.setCycle me none).marks = P := by
              rw [← hP]
              unfold DeadlockSearch.marks
              rw [hcleared]
            have hmaxlocks : (st₁.setCycle me none).maxlocks = st₁.maxlocks := rfl
            obtain ⟨hl', hle'⟩ := hrest fuel level _ b st' hL₀ (by omega) hmarks'
              (by rw [hcleared]; exact hme) hl₁ hafter
            exact ⟨hl', by omega⟩
      · rw [if_neg hstops] at h
        have hM₀ : (M₀ : ℤ) ≤ st.maxlocks - 1 := by omega
        obtain ⟨hl', hle'⟩ := hrest fuel level { st with maxlocks := st.maxlocks - 1 } b st' hL₀
          hM₀ hP hme hl h
        refine ⟨hl', ?_⟩
        change st.maxlocks - 1 - M₀ ≤ st'.maxlocks at hle'
        omega

def LockMgr.trans (lm : LockMgr) : Finset ℕ :=
  ((lm.lmHash.flatMap LockHead.lhQueue).map LockRequest.lrTran).toFinset

theorem LockMgr.lrTran_mem_trans {r : LockRequest} (hr : r ∈ lm.queue lock) :
    r.lrTran ∈ lm.trans := by
  obtain ⟨head, hhead, hqueue⟩ := exists_find_of_queue_ne_nil (List.ne_nil_of_mem hr)
  rw [hqueue] at hr
  refine List.mem_toFinset.mpr (List.mem_map_of_mem ?_)
  exact List.mem_flatMap.mpr ⟨head, mem_of_find hhead, hr⟩

/-- A search over a path meets the transactions of the path no more. -/
theorem exists_unlimited (lm : LockMgr) (P : Finset ℕ) (me : ℕ) :
    ∃ L M, Unlimited lm P me L M := by
  induction hn : (lm.trans \ insert me P).card using Nat.strong_induction_on
    generalizing P me with
  | _ n ih =>
      cases hwait : (lm.lmTran me).ltWait with
      | none =>
          refine ⟨0, 0, fun fuel level st b st' _ _ _ _ hl h => ?_⟩
          cases fuel with
          | zero => exact absurd h.symm (Option.some_ne_none _)
          | succ fuel =>
              rw [isdeadlockFrom, hwait] at h
              obtain ⟨rfl, rfl⟩ := Prod.mk.inj (Option.some.inj h)
              exact ⟨hl, (Int.sub_zero _).le⟩
      | some ref =>
          have hnext : ∀ r ∈ lm.queue ref.lock, r.lrTran ∉ insert me (P : Set ℕ) →
              ∃ L M, Unlimited lm (insert me (P : Set ℕ)) r.lrTran L M := by
            intro r hr hnot
            have hnot' : r.lrTran ∉ insert me P := by
              rw [← Finset.mem_coe, Finset.coe_insert]
              exact hnot
            have hless : (lm.trans \ insert r.lrTran (insert me P)).card < n := by
              rw [← hn]
              refine Finset.card_lt_card (Finset.ssubset_iff_of_subset ?_ |>.mpr ?_)
              · exact Finset.sdiff_subset_sdiff (le_refl _) (Finset.subset_insert _ _)
              · refine ⟨r.lrTran, Finset.mem_sdiff.mpr ⟨lrTran_mem_trans hr, hnot'⟩, ?_⟩
                exact fun hm => (Finset.mem_sdiff.mp hm).2 (Finset.mem_insert_self _ _)
            have hex := ih _ hless (insert me P) r.lrTran rfl
            rw [Finset.coe_insert] at hex
            exact hex
          cases hreq : lm.request ref with
          | none =>
              refine ⟨1, 0, fun fuel level st b st' hL _ _ _ hl h => ?_⟩
              cases fuel with
              | zero => exact absurd h.symm (Option.some_ne_none _)
              | succ fuel =>
                  have hlevel : ¬ level - 1 = 0 := by omega
                  rw [isdeadlockFrom] at h
                  simp only [hwait, if_neg hlevel, hreq, Option.bind_none] at h
                  exact absurd h.symm (Option.some_ne_none _)
          | some wait =>
              obtain ⟨L, M, hqueue⟩ :=
                exists_unlimited_queue me wait.lrMode (lm.queue ref.lock) hnext
              refine ⟨L + 1, M, fun fuel level st b st' hL hM hP hme hl h => ?_⟩
              push_cast at hL
              cases fuel with
              | zero => exact absurd h.symm (Option.some_ne_none _)
              | succ fuel =>
                  have hlevel : ¬ level - 1 = 0 := by omega
                  rw [isdeadlockFrom] at h
                  simp only [hwait, if_neg hlevel, hreq, Option.bind_some] at h
                  exact hqueue fuel (level - 1) st b st' (by omega) hM hP hme hl h

/-! ## When it is right -/

/-- The detector ends, clears its marks, reports a deadlock only if the waits-for graph has
a cycle, and reports one if the transaction is on a cycle and no limit is reached. -/
def LockMgr.DetectsDeadlock (lm : LockMgr) (me : ℕ) : Prop :=
  ∀ level maxlocks : ℤ, ∃ b st, lmgrIsdeadlock lm me level maxlocks = some (b, st) ∧
    (∀ t, st.ltCycle t = none) ∧ (b = true → ∃ t, TransGen lm.WaitsFor t t) ∧
    (st.limited = false → TransGen lm.WaitsFor me me → b = true)

theorem lmgrIsdeadlock_result (h : lm.HasAwaited) (me : ℕ) (level maxlocks : ℤ) :
    ∃ b st, lmgrIsdeadlock lm me level maxlocks = some (b, st) ∧
      (∀ t, st.ltCycle t = none) ∧ (b = true → PathSearch.ReachesCycle lm.Searches me) ∧
      (st.limited = false → PathSearch.ReachesCycle lm.Searches me → b = true) := by
  obtain ⟨b, st, hrun, -⟩ := isdeadlockFrom_returns h (maxlocks.toNat + 1) level me
    ⟨fun _ => none, maxlocks, false⟩ (Nat.lt_succ_self _)
  have hres := isdeadlockFrom_result lm _ _ _ _ _ _ hrun rfl
  have hmarks : DeadlockSearch.marks ⟨fun _ => none, maxlocks, false⟩ = ∅ :=
    Set.eq_empty_iff_forall_notMem.mpr fun _ ht => ht rfl
  rw [hmarks, PathSearch.finds_empty_iff] at hres
  exact ⟨b, st, hrun, fun t => congrFun hres.ltCycle_eq t, hres.sound, hres.complete⟩

/-- The detector is right just if its edges lead to a cycle only where there is one, and
wherever the transaction is on one. -/
theorem LockMgr.Reachable.detectsDeadlock_iff_searches (h : lm.Reachable) (me : ℕ) :
    lm.DetectsDeadlock me ↔
      (PathSearch.ReachesCycle lm.Searches me → ∃ t, TransGen lm.WaitsFor t t) ∧
      (TransGen lm.WaitsFor me me → PathSearch.ReachesCycle lm.Searches me) := by
  have hawaited := h.inv.hasAwaited
  constructor
  · intro hdetects
    obtain ⟨L, M, hunlimited⟩ := exists_unlimited lm ∅ me
    obtain ⟨b, st, hrun, -, hsound, hcomplete⟩ := hdetects (L + 1) M
    obtain ⟨b', st', hrun', -, hsound', hcomplete'⟩ :=
      lmgrIsdeadlock_result hawaited me (L + 1) M
    obtain ⟨rfl, rfl⟩ := Prod.mk.inj (Option.some.inj (hrun.symm.trans hrun'))
    have hmarks : DeadlockSearch.marks ⟨fun _ => none, (M : ℤ), false⟩ =
        ((∅ : Finset ℕ) : Set ℕ) := by
      rw [Finset.coe_empty]
      exact Set.eq_empty_iff_forall_notMem.mpr fun _ ht => ht rfl
    have hlimited : st.limited = false :=
      (hunlimited _ _ _ b st (Int.lt_succ _) (le_refl _) hmarks rfl rfl hrun).1
    exact ⟨fun hc => hsound (hcomplete' hlimited hc), fun hc => hsound' (hcomplete hlimited hc)⟩
  · rintro ⟨hto, hfrom⟩ level maxlocks
    obtain ⟨b, st, hrun, hnull, hsound, hcomplete⟩ :=
      lmgrIsdeadlock_result hawaited me level maxlocks
    exact ⟨b, st, hrun, hnull, fun hb => hto (hsound hb),
      fun hl hc => hcomplete hl (hfrom hc)⟩

/-! ## The waits at a transaction -/

/-- What the search takes for waits are waits: the awaited request is not granted, and no
granted mode before it is in the way in the order of the search only. -/
def LockMgr.SoundWait (lm : LockMgr) (t : ℕ) : Prop :=
  ∀ lock wait, lm.Awaiting t lock wait → wait.lrStatus ≠ .granted ∧
    ∃ pre post, lm.queue lock = pre ++ wait :: post ∧
      ∀ r ∈ pre, r.lrTran ≠ t → r.lrStatus = .granted →
        lockCompat wait.lrMode r.lrMode → lockCompat r.lrMode wait.lrMode

/-- The search takes all waits for waits: the awaited request is the first one of its
transaction that is not granted, no granted mode before it is in the way in the order of
`lmgr_unlock` only, and none behind it is in the way. -/
def LockMgr.CompleteWait (lm : LockMgr) (t : ℕ) : Prop :=
  ∀ lock wait, lm.Awaiting t lock wait → wait.lrStatus ≠ .granted →
    ∃ pre post, lm.queue lock = pre ++ wait :: post ∧
      (∀ r ∈ pre, r.lrTran = t → r.lrStatus = .granted) ∧
      (∀ r ∈ pre, r.lrTran ≠ t → r.lrStatus = .granted →
        lockCompat r.lrMode wait.lrMode → lockCompat wait.lrMode r.lrMode) ∧
      ∀ r ∈ post, r.lrTran ≠ t → r.lrStatus = .granted → lockCompat wait.lrMode r.lrMode

theorem LockMgr.Inv.lrTran_of_awaits (h : lm.Inv) (hw : lm.Awaiting t lock wait) :
    wait.lrTran = t ∧ (lm.queue lock).Nodup := by
  obtain ⟨ref, href, hreq, rfl⟩ := hw
  obtain ⟨-, r, hr, hid, htran, -⟩ := h.waits t ref href
  have hnodup := h.valid.nodup_ids ref.lock
  have hwait := List.find?_some hreq
  have heq := List.inj_on_of_nodup_map hnodup (List.mem_of_find?_eq_some hreq) hr
    ((of_decide_eq_true hwait).trans hid.symm)
  rw [heq]
  exact ⟨htran, hnodup.of_map⟩

theorem mem_of_mem_scanned {pre post : List LockRequest} (hwait : wait.lrTran = t)
    (hst : wait.lrStatus ≠ .granted) (hreq : req ∈ scanned t (pre ++ wait :: post)) :
    req ∈ pre := by
  induction pre with
  | nil =>
      rw [List.nil_append, scanned_cons_of_own ⟨hwait, hst⟩] at hreq
      exact hreq
  | cons r pre ih =>
      rw [List.cons_append] at hreq
      by_cases hown : r.lrTran = t ∧ r.lrStatus ≠ .granted
      · rw [scanned_cons_of_own hown] at hreq
        exact absurd hreq List.not_mem_nil
      · rw [scanned_cons_of_not hown, List.mem_cons] at hreq
        exact List.mem_cons.mpr (hreq.imp_right ih)

theorem scanned_append {pre post : List LockRequest} (hwait : wait.lrTran = t)
    (hst : wait.lrStatus ≠ .granted)
    (hpre : ∀ r ∈ pre, r.lrTran = t → r.lrStatus = .granted) :
    scanned t (pre ++ wait :: post) = pre := by
  induction pre with
  | nil => exact scanned_cons_of_own ⟨hwait, hst⟩
  | cons r pre ih =>
      obtain ⟨hr, hpre⟩ := List.forall_mem_cons.mp hpre
      rw [List.cons_append, scanned_cons_of_not fun h => h.2 (hr h.1), ih hpre]

theorem LockMgr.SoundWait.waitsFor (h : lm.SoundWait t) (hinv : lm.Inv) {u : ℕ}
    (hs : lm.Searches t u) : lm.WaitsFor t u := by
  obtain ⟨lock, wait, hw, r, hr, ⟨hne, hstops⟩, rfl⟩ := hs
  obtain ⟨hst, pre, post, hq, hmodes⟩ := h lock wait hw
  obtain ⟨htran, -⟩ := hinv.lrTran_of_awaits hw
  rw [hq] at hr
  have hpre := mem_of_mem_scanned htran hst hr
  refine ⟨lock, wait, hw, hst, hne, ?_⟩
  by_cases hgranted : r.lrStatus = .granted
  · refine .inl ⟨r, ?_, rfl, hgranted, ?_⟩
    · rw [hq]
      exact List.mem_append_left _ hpre
    · have hclash := hstops.resolve_right fun hnot => hnot hgranted
      cases hcompat : lockCompat wait.lrMode r.lrMode with
      | false => rfl
      | true =>
          rw [hmodes r hpre hne hgranted hcompat] at hclash
          exact absurd hclash Bool.false_ne_true
  · exact .inr ⟨pre, post, hq, r, hpre, rfl, hgranted⟩

theorem LockMgr.CompleteWait.searches (h : lm.CompleteWait t) (hinv : lm.Inv) {u : ℕ}
    (hwaits : lm.WaitsFor t u) : lm.Searches t u := by
  obtain ⟨lock, wait, hw, hst, hne, hblock⟩ := hwaits
  obtain ⟨pre, post, hq, hown, hmodes, hpost⟩ := h lock wait hw hst
  obtain ⟨htran, hnodup⟩ := hinv.lrTran_of_awaits hw
  have hscanned : scanned t (lm.queue lock) = pre := by
    rw [hq, scanned_append htran hst hown]
  rcases hblock with ⟨r, hr, rfl, hgranted, hcompat⟩ | ⟨pre', post', hq', r, hr, rfl, hnot⟩
  · rw [hq, List.mem_append, List.mem_cons] at hr
    rcases hr with hr | rfl | hr
    · refine ⟨lock, wait, hw, r, ?_, ⟨hne, .inl ?_⟩, rfl⟩
      · rw [hscanned]
        exact hr
      · cases hother : lockCompat r.lrMode wait.lrMode with
        | false => rfl
        | true =>
            rw [hmodes r hr hne hgranted hother] at hcompat
            exact absurd hcompat Bool.false_ne_true
    · exact absurd hgranted hst
    · rw [hpost r hr hne hgranted] at hcompat
      exact absurd hcompat Bool.false_ne_true
  · obtain rfl : pre' = pre := by
      rw [hq] at hq' hnodup
      have hmem : wait ∉ pre := fun hm =>
        (List.nodup_append.mp hnodup).2.2 wait hm wait List.mem_cons_self rfl
      have hnodup' := hnodup
      rw [hq'] at hnodup'
      have hmem' : wait ∉ pre' := fun hm =>
        (List.nodup_append.mp hnodup').2.2 wait hm wait List.mem_cons_self rfl
      have hpost : wait ∉ post :=
        (List.nodup_cons.mp (List.nodup_append.mp hnodup).2.1).1
      exact ((List.append_cons_inj_of_notMem hmem hpost).mp hq').1.symm
    refine ⟨lock, wait, hw, r, ?_, ⟨hne, .inr hnot⟩, rfl⟩
    rw [hscanned]
    exact hr

/-- A transaction that waits behind another one for a lock of two requests. -/
theorem waitsFor_of_queue {u : ℕ} {ref : LockRef} {r wait : LockRequest}
    (hwait : (lm.lmTran t).ltWait = some ref) (hqueue : lm.queue ref.lock = [r, wait])
    (hid : r.lrId ≠ ref.id ∧ wait.lrId = ref.id) (hst : wait.lrStatus ≠ .granted)
    (hr : r.lrTran = u ∧ u ≠ t ∧ r.lrStatus = .granted)
    (hcompat : !lockCompat wait.lrMode r.lrMode) :
    lm.Awaiting t ref.lock wait ∧ lm.WaitsFor t u := by
  obtain ⟨htran, hne, hgranted⟩ := hr
  have hreq : lm.request ref = some wait := by
    rw [LockMgr.request, hqueue, List.find?_cons_of_neg (by simpa using hid.1),
      List.find?_cons_of_pos (by simpa using hid.2)]
  have haw : lm.Awaiting t ref.lock wait := ⟨ref, hwait, hreq, rfl⟩
  refine ⟨haw, ref.lock, wait, haw, hst, hne, .inl ⟨r, ?_, htran, hgranted, hcompat⟩⟩
  rw [hqueue]
  exact List.mem_cons_self

/-- The calls of two transactions that come to wait for each other: each has one lock in
the mode `mode`, and asks for the other one in the mode `other`. -/
def crossedLocks (mode other : LockMode) : List LockOp :=
  [.lock 1 ⟨0, 1⟩ mode .long 1 false ⟨false, false, true⟩,
    .lock 2 ⟨0, 2⟩ mode .long 1 false ⟨false, false, true⟩,
    .lock 2 ⟨0, 1⟩ other .long 1 false ⟨false, false, true⟩,
    .lock 1 ⟨0, 2⟩ other .long 1 false ⟨false, false, true⟩]

structure Crossed (lm : LockMgr) (mode other : LockMode) : Prop where
  wait₁ : (lm.lmTran 1).ltWait = some ⟨3, ⟨0, 2⟩⟩
  wait₂ : (lm.lmTran 2).ltWait = some ⟨2, ⟨0, 1⟩⟩
  queue₁ : lm.queue ⟨0, 1⟩ = [⟨0, 1, .granted, mode, .free, 1, 1, .long⟩,
    ⟨2, 2, .waiting, other, .free, 1, 0, .long⟩]
  queue₂ : lm.queue ⟨0, 2⟩ = [⟨1, 2, .granted, mode, .free, 1, 1, .long⟩,
    ⟨3, 1, .waiting, other, .free, 1, 0, .long⟩]

instance (lm : LockMgr) (mode other : LockMode) : Decidable (Crossed lm mode other) :=
  decidable_of_iff ((lm.lmTran 1).ltWait = some ⟨3, ⟨0, 2⟩⟩ ∧
      (lm.lmTran 2).ltWait = some ⟨2, ⟨0, 1⟩⟩ ∧
      lm.queue ⟨0, 1⟩ = [⟨0, 1, .granted, mode, .free, 1, 1, .long⟩,
        ⟨2, 2, .waiting, other, .free, 1, 0, .long⟩] ∧
      lm.queue ⟨0, 2⟩ = [⟨1, 2, .granted, mode, .free, 1, 1, .long⟩,
        ⟨3, 1, .waiting, other, .free, 1, 0, .long⟩])
    ⟨fun ⟨h₁, h₂, h₃, h₄⟩ => ⟨h₁, h₂, h₃, h₄⟩, fun ⟨h₁, h₂, h₃, h₄⟩ => ⟨h₁, h₂, h₃, h₄⟩⟩

/-- The two wait for each other where the modes are not compatible. -/
theorem Crossed.waitsFor {other : LockMode} (h : Crossed lm mode other)
    (hcompat : !lockCompat other mode) :
    lm.Awaiting 1 ⟨0, 2⟩ ⟨3, 1, .waiting, other, .free, 1, 0, .long⟩ ∧
      lm.Awaiting 2 ⟨0, 1⟩ ⟨2, 2, .waiting, other, .free, 1, 0, .long⟩ ∧
      TransGen lm.WaitsFor 1 1 := by
  have hwaiting : LockStatus.waiting ≠ .granted := by decide
  have hne {m n : ℕ} (hmn : m < n) : m ≠ n := Nat.ne_of_lt hmn
  obtain ⟨haw₁, hfor₁⟩ := @waitsFor_of_queue lm 1 2 _ _ _ h.wait₁ h.queue₂
    ⟨hne (by decide : 1 < 3), rfl⟩ hwaiting ⟨rfl, by decide, rfl⟩ hcompat
  obtain ⟨haw₂, hfor₂⟩ := @waitsFor_of_queue lm 2 1 _ _ _ h.wait₂ h.queue₁
    ⟨hne (by decide : 0 < 2), rfl⟩ hwaiting ⟨rfl, by decide, rfl⟩ hcompat
  exact ⟨haw₁, haw₂, .tail (.single hfor₁) hfor₂⟩

theorem exists_crossed {other : LockMode}
    (h : ((dbeLockmgrInit 10 1).run (crossedLocks mode other)).any
      fun lm => Crossed lm mode other)
    (hops : ∀ op ∈ crossedLocks mode other, op.Proper) :
    ∃ lm, (dbeLockmgrInit 10 1).run (crossedLocks mode other) = some lm ∧ lm.Reachable ∧
      Crossed lm mode other := by
  obtain ⟨lm, hlm, hcrossed⟩ := (Option.any_eq_true _ _).mp h
  exact ⟨lm, hlm, (LockMgr.Reachable.init 10 1 (by decide)).run hops hlm,
    of_decide_eq_true hcrossed⟩

theorem LockMgr.Awaiting.unique {lock' : LockName} {wait' : LockRequest}
    (h : lm.Awaiting t lock wait) (h' : lm.Awaiting t lock' wait') :
    lock' = lock ∧ wait' = wait := by
  obtain ⟨ref, href, hreq, rfl⟩ := h
  obtain ⟨ref', href', hreq', rfl⟩ := h'
  obtain rfl := Option.some.inj (href.symm.trans href')
  exact ⟨rfl, (Option.some.inj (hreq.symm.trans hreq')).symm⟩

/-- A wait behind one granted request whose mode is in the way in both orders. -/
theorem waits_of_queue {r : LockRequest} (haw : lm.Awaiting t lock wait)
    (hqueue : lm.queue lock = [r, wait]) (hst : wait.lrStatus ≠ .granted)
    (hr : r.lrTran ≠ t ∧ lockCompat wait.lrMode r.lrMode = false) :
    lm.SoundWait t ∧ (lockCompat r.lrMode wait.lrMode = false → lm.CompleteWait t) := by
  refine ⟨fun lock' wait' haw' => ?_, fun hother lock' wait' haw' _ => ?_⟩
  · obtain ⟨rfl, rfl⟩ := haw.unique haw'
    refine ⟨hst, [r], [], hqueue, List.forall_mem_singleton.mpr fun _ _ hcompat => ?_⟩
    exact absurd (hr.2.symm.trans hcompat) Bool.false_ne_true
  · obtain ⟨rfl, rfl⟩ := haw.unique haw'
    refine ⟨[r], [], hqueue, List.forall_mem_singleton.mpr fun hown => absurd hown hr.1,
      List.forall_mem_singleton.mpr fun _ _ hcompat => ?_, List.forall_mem_nil _⟩
    exact absurd (hother.symm.trans hcompat) Bool.false_ne_true

theorem eq_of_waitsFor {r : LockRequest} {u : ℕ} (haw : lm.Awaiting t lock wait)
    (hqueue : lm.queue lock = [r, wait]) (htran : wait.lrTran = t) (hw : lm.WaitsFor t u) :
    u = r.lrTran := by
  obtain ⟨lock', wait', haw', -, hne, hblock⟩ := hw
  obtain ⟨rfl, rfl⟩ := haw.unique haw'
  obtain ⟨q, hq, rfl⟩ : ∃ q ∈ lm.queue lock', q.lrTran = u := by
    rcases hblock with ⟨q, hq, hu, -⟩ | ⟨pre, post, hsplit, q, hq, hu, -⟩
    · exact ⟨q, hq, hu⟩
    · rw [hsplit]
      exact ⟨q, List.mem_append_left _ hq, hu⟩
  rw [hqueue, List.mem_cons, List.mem_singleton] at hq
  rcases hq with rfl | rfl
  · rfl
  · exact absurd htran hne

end SolidDB
