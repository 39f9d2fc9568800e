import SolidDB.Su.GateFair

/-!
# The runs of a gate

The state of the threads agrees with the gate in every run, so that the counters, the queue
and the order of the admissions are as a fair shared and exclusive lock has them.
-/

namespace SolidDB

open BlockChain SuGate

namespace GateSys

variable {m : ℤ} {s s' : GateSys} {q : List ℕ} {t : ℕ} {shared : Bool} {a : GateAct}

def queued (s : GateSys) (q : List ℕ) : List (ℕ × Bool) :=
  q.map fun x => (x, (s.gate.tickets x).tShared)

def requests : List GateAct → List (ℕ × Bool)
  | [] => []
  | .enter t shared :: acts => (t, shared) :: requests acts
  | _ :: acts => requests acts

def exits : List GateAct → List (ℕ × Bool)
  | [] => []
  | .exit t shared :: acts => (t, shared) :: exits acts
  | _ :: acts => exits acts

structure Agrees (m : ℤ) (s : GateSys) (q : List ℕ) : Prop where
  valid : s.gate.Valid q
  max : s.gate.gMaxexclusive = m
  nshared : s.gate.gNshared = s.inside.countP fun x => x.2
  nexclusive : s.gate.gNexclusive = s.inside.countP fun x => !x.2
  waits : ∀ x ∈ q, s.waiting x = some (s.gate.tickets x).tShared ∧ (s.gate.tickets x).tMes = false
  woken : ∀ x b, s.waiting x = some b →
    x ∈ q ∨ ((x, b) ∈ s.inside ∧ (s.gate.tickets x).tMes = true)

theorem init_agrees (hm : 1 ≤ m) (tickets : ℕ → SuQticket) : (init m tickets).Agrees m [] where
  valid :=
    { nshared := Int.le_refl 0
      nexclusive := Int.le_refl 0
      apart := .inl rfl
      limit := (Int.zero_le_ofNat 1).trans hm
      max := hm
      isQueue := ⟨rfl, rfl⟩
      nwait := rfl
      blocked := by simp }
  max := rfl
  nshared := rfl
  nexclusive := rfl
  waits _ hx := absurd hx List.not_mem_nil
  woken _ _ h := absurd h (by simp [init])

theorem Agrees.notMem (h : s.Agrees m q) (ht : s.waiting t = none) : t ∉ q := by
  intro hmem
  have hwaits := (h.waits t hmem).1
  rw [ht] at hwaits
  cases hwaits

/-- One step keeps the threads and the gate in agreement, and admits from the front of the
queue, behind which a new request is put. -/
structure Keeps (m : ℤ) (s : GateSys) (q : List ℕ) (a : GateAct) (s' : GateSys)
    (admitted : List (ℕ × Bool)) (q' : List ℕ) : Prop where
  agrees : s'.Agrees m q'
  order : s.queued q ++ requests [a] = admitted ++ s'.queued q'
  inside : (s.inside ++ admitted).Perm (s'.inside ++ exits [a])

theorem step_enter (s : GateSys) (t : ℕ) (shared : Bool) :
    s.step (.enter t shared) = some (s.entered t shared (s.gate.enter t shared)) := by
  cases shared <;> rfl

/-! ## A request that waits -/

theorem queued_enqueue (hq : t ∉ q) (waiting : ℕ → Option Bool) :
    ({ s with gate := s.gate.enqueue t shared, waiting := waiting } : GateSys).queued
        (q ++ [t]) = s.queued q ++ [(t, shared)] := by
  unfold queued
  rw [List.map_append]
  congr 1
  · refine List.map_congr_left fun x hx => ?_
    have hxt : x ≠ t := fun e => hq (e ▸ hx)
    rw [enqueue_tShared, if_neg hxt]
  · simp only [List.map_cons, List.map_nil, enqueue_tShared, if_true]

theorem Agrees.enqueue (h : s.Agrees m q) (hn : t ≠ null) (ht : s.waiting t = none)
    (hwait : s.gate.Blocks shared ∨ q ≠ []) :
    s.Keeps m q (.enter t shared)
      { s with
        gate := s.gate.enqueue t shared
        waiting := Function.update s.waiting t (some shared) } [] (q ++ [t]) where
  agrees := by
    have hq := h.notMem ht
    have hlinks := s.gate.enqueue_links t shared
    refine ⟨h.valid.enqueue hq hn hwait, hlinks.gMaxexclusive.trans h.max,
      hlinks.gNshared.trans h.nshared, hlinks.gNexclusive.trans h.nexclusive, ?_, ?_⟩
    · intro x hx
      simp only [enqueue_tShared, enqueue_tMes, Function.update_apply]
      by_cases hxt : x = t
      · simp only [if_pos hxt, true_and]
      · simp only [if_neg hxt]
        have hmem : x ∈ q := by simpa [hxt] using hx
        exact h.waits x hmem
    · intro x b hx
      by_cases hxt : x = t
      · exact .inl (hxt ▸ List.mem_append_right q List.mem_cons_self)
      · simp only [Function.update_of_ne hxt] at hx
        simp only [enqueue_tMes, if_neg hxt]
        rcases h.woken x b hx with hmem | hin
        · exact .inl (List.mem_append_left [t] hmem)
        · exact .inr hin
  order := (queued_enqueue (h.notMem ht) _).symm
  inside := .refl _

/-! ## A request that is admitted at once -/

theorem Agrees.addHolder (h : s.Agrees m []) (hfree : ¬ s.gate.Blocks shared) :
    s.Keeps m [] (.enter t shared)
      { s with gate := s.gate.addHolder shared, inside := s.inside ++ [(t, shared)] }
      [(t, shared)] [] where
  agrees := by
    refine ⟨h.valid.addHolder hfree, ?_, ?_, ?_, by simp, ?_⟩
    · exact (addHolder_gMaxexclusive (g := s.gate) shared).trans h.max
    · rw [List.countP_append]
      cases shared
      · exact h.nshared.trans (Int.add_zero _).symm
      · exact congrArg (· + 1) h.nshared
    · rw [List.countP_append]
      cases shared
      · exact congrArg (· + 1) h.nexclusive
      · exact h.nexclusive.trans (Int.add_zero _).symm
    · intro x b hx
      obtain ⟨hin, hmes⟩ := (h.woken x b hx).resolve_left List.not_mem_nil
      rw [addHolder_tickets]
      exact .inr ⟨List.mem_append_left _ hin, hmes⟩
  order := rfl
  inside := by
    show (s.inside ++ [(t, shared)]).Perm (s.inside ++ [(t, shared)] ++ [])
    rw [List.append_nil]

theorem Agrees.enter (h : s.Agrees m q) (hn : t ≠ null) (ht : s.waiting t = none) :
    ∃ s' admitted q', s.step (.enter t shared) = some (s', admitted) ∧
      s.Keeps m q (.enter t shared) s' admitted q' := by
  rw [step_enter]
  by_cases hwait : s.gate.Blocks shared ∨ q ≠ []
  · rw [(enter_eq h.valid t shared).1 hwait]
    exact ⟨_, _, _, rfl, h.enqueue hn ht hwait⟩
  · obtain rfl : q = [] := by_contra fun hq => hwait (.inr hq)
    rw [(enter_eq h.valid t shared).2 hwait]
    exact ⟨_, _, _, rfl, h.addHolder fun hb => hwait (.inl hb)⟩

/-! ## A thread gets its message -/

theorem Agrees.wake (h : s.Agrees m q) (hmes : (s.gate.tickets t).tMes = true) :
    ∃ s' admitted q', s.step (.wake t) = some (s', admitted) ∧
      s.Keeps m q (.wake t) s' admitted q' := by
  have hq : t ∉ q := by
    intro hmem
    have hnone := (h.waits t hmem).2
    rw [hmes] at hnone
    cases hnone
  have hassert : ¬ (s.waiting t = some false ∧ s.gate.gNshared ≠ 0) := by
    rintro ⟨hw, hne⟩
    have hin := ((h.woken t false hw).resolve_left hq).1
    have hpos : 0 < s.inside.countP fun x => !x.2 :=
      List.countP_pos_iff.mpr ⟨(t, false), hin, rfl⟩
    have hexclusive := h.nexclusive
    have hzero := h.valid.apart.resolve_left hne
    omega
  refine ⟨_, _, q, if_neg hassert, ?_⟩
  refine ⟨⟨h.valid, h.max, h.nshared, h.nexclusive, ?_, ?_⟩, ?_, .refl _⟩
  · intro x hx
    have hxt : x ≠ t := fun e => hq (e ▸ hx)
    simp only [Function.update_of_ne hxt]
    exact h.waits x hx
  · intro x b hx
    by_cases hxt : x = t
    · simp [hxt] at hx
    · simp only [Function.update_of_ne hxt] at hx
      exact h.woken x b hx
  · exact List.append_nil _

/-! ## A thread exits -/

/-- The holders without the one that exits, and with the admitted ones. -/
theorem countP_erase_append {inside admitted : List (ℕ × Bool)} {x : ℕ × Bool}
    (hx : x ∈ inside) (f : ℕ × Bool → Bool) :
    ((inside.erase x ++ admitted).countP f : ℤ) =
      inside.countP f - (if f x then 1 else 0) + admitted.countP f := by
  have hperm := (List.perm_cons_erase hx).countP_eq f
  rw [List.countP_cons] at hperm
  rw [List.countP_append, hperm]
  split
  · push_cast
    ring
  · push_cast
    ring

theorem Agrees.exit (h : s.Agrees m q) (ht : s.waiting t = none)
    (hin : (t, shared) ∈ s.inside) :
    ∃ s' admitted q', s.step (.exit t shared) = some (s', admitted) ∧
      s.Keeps m q (.exit t shared) s' admitted q' := by
  have hs : shared = true → 0 < s.gate.gNshared := by
    rintro rfl
    rw [h.nshared, Int.natCast_pos]
    exact List.countP_pos_iff.mpr ⟨(t, true), hin, rfl⟩
  have he : shared = false → 0 < s.gate.gNexclusive := by
    rintro rfl
    rw [h.nexclusive, Int.natCast_pos]
    exact List.countP_pos_iff.mpr ⟨(t, false), hin, rfl⟩
  obtain ⟨g', batch, rest, heq, rfl, hadmits, hvalid⟩ := h.valid.exit hs he
  have htickets : (s.gate.release shared).tickets = s.gate.tickets := by
    cases shared <;> rfl
  have hshared := hadmits.gNshared
  have hexclusive := hadmits.gNexclusive
  have htShared := hadmits.tShared
  have htMes := hadmits.tMes
  rw [htickets] at hshared hexclusive htShared htMes
  have hnodup := h.valid.isQueue.linked.nodup
  have hdisj := List.disjoint_of_nodup_append hnodup
  refine ⟨_, _, rest, by rw [step, heq]; rfl, ?_⟩
  refine ⟨⟨hvalid, ?_, ?_, ?_, ?_, ?_⟩, ?_, ?_⟩
  · refine hadmits.gMaxexclusive.trans (Eq.trans ?_ h.max)
    cases shared <;> rfl
  · simp only
    rw [hshared, countP_erase_append hin, ← h.nshared, List.countP_map]
    cases shared
    · exact congrArg (· + _) (Int.sub_zero _).symm
    · rfl
  · simp only
    rw [hexclusive, countP_erase_append hin, ← h.nexclusive, List.countP_map]
    cases shared
    · rfl
    · exact congrArg (· + _) (Int.sub_zero _).symm
  · intro x hx
    have hxb : x ∉ batch := fun hb => hdisj hb hx
    simp only
    rw [htShared, htMes, if_neg hxb]
    exact h.waits x (List.mem_append_right batch hx)
  · intro x b hx
    have hxt : (x, b) ≠ (t, shared) := by
      intro e
      rw [Prod.mk.injEq] at e
      rw [e.1, ht] at hx
      cases hx
    simp only
    rw [htMes]
    rcases h.woken x b hx with hmem | ⟨hmem, hmes⟩
    · rcases List.mem_append.mp hmem with hb | hr
      · have hmode := (h.waits x hmem).1
        rw [hx, Option.some.injEq] at hmode
        rw [if_pos hb]
        refine .inr ⟨List.mem_append_right _ (List.mem_map.mpr ⟨x, hb, ?_⟩), rfl⟩
        rw [hmode]
      · exact .inl hr
    · refine .inr ⟨List.mem_append_left _ ((List.mem_erase_of_ne hxt).mpr hmem), ?_⟩
      rw [hmes, ite_self]
  · unfold queued
    simp only [List.map_append, htShared]
    exact List.append_nil _
  · have hperm := List.perm_cons_erase hin
    refine (hperm.append_right _).trans ?_
    exact (List.perm_append_singleton (t, shared) _).symm

/-! ## A run -/

theorem Agrees.step (h : s.Agrees m q) (ha : s.Enabled a) :
    ∃ s' admitted q', s.step a = some (s', admitted) ∧ s.Keeps m q a s' admitted q' := by
  cases a with
  | enter t shared => exact h.enter ha.1 ha.2
  | wake t => exact h.wake ha.2
  | exit t shared => exact h.exit ha.1 ha.2

theorem requests_cons (a : GateAct) (acts : List GateAct) :
    requests (a :: acts) = requests [a] ++ requests acts := by
  cases a <;> rfl

theorem exits_cons (a : GateAct) (acts : List GateAct) :
    exits (a :: acts) = exits [a] ++ exits acts := by
  cases a <;> rfl

theorem Agrees.run (h : s.Agrees m q) {acts : List GateAct} {admitted : List (ℕ × Bool)}
    (hrun : s.run acts = some (s', admitted)) :
    ∃ q', s'.Agrees m q' ∧ s.queued q ++ requests acts = admitted ++ s'.queued q' ∧
      (s.inside ++ admitted).Perm (s'.inside ++ exits acts) := by
  induction acts generalizing s q admitted with
  | nil =>
      rw [GateSys.run, Option.some.injEq, Prod.mk.injEq] at hrun
      obtain ⟨rfl, rfl⟩ := hrun
      exact ⟨q, h, List.append_nil _, .refl _⟩
  | cons a acts ih =>
      rw [GateSys.run] at hrun
      split at hrun
      case isFalse => cases hrun
      case isTrue ha =>
        obtain ⟨s₁, adm, q₁, heq, hkeeps⟩ := h.step ha
        rw [heq, Option.bind_some, Option.map_eq_some_iff] at hrun
        obtain ⟨⟨s₂, adm'⟩, hrest, hpair⟩ := hrun
        rw [Prod.mk.injEq] at hpair
        obtain ⟨rfl, rfl⟩ := hpair
        obtain ⟨q', hagrees, horder, hperm⟩ := ih hkeeps.agrees hrest
        refine ⟨q', hagrees, ?_, ?_⟩
        · rw [requests_cons, ← List.append_assoc, hkeeps.order, List.append_assoc, horder,
            List.append_assoc]
        · rw [exits_cons, ← List.append_assoc]
          have hstep : (s.inside ++ adm ++ adm').Perm (s₁.inside ++ adm' ++ exits [a]) := by
            refine (hkeeps.inside.append_right adm').trans ?_
            rw [List.append_assoc, List.append_assoc]
            exact List.perm_append_comm.append_left _
          refine hstep.trans ((hperm.append_right _).trans ?_)
          rw [List.append_assoc]
          exact List.perm_append_comm.append_left _

/-- The gate is a fair lock of shared and exclusive holders after a run with the given
admissions, and `q` is its queue. -/
structure IsFair (m : ℤ) (s : GateSys) (acts : List GateAct) (admitted : List (ℕ × Bool))
    (q : List ℕ) : Prop where
  apart : ¬ (0 < s.gate.gNshared ∧ 0 < s.gate.gNexclusive)
  limit : s.gate.gNexclusive ≤ m
  nshared : s.gate.gNshared = s.inside.countP fun x => x.2
  nexclusive : s.gate.gNexclusive = s.inside.countP fun x => !x.2
  /-- The threads inside are those that have been admitted and have not exited. -/
  inside : admitted.Perm (s.inside ++ exits acts)
  isQueue : s.gate.IsQueue q
  nwait : s.gate.gNwait = q.length
  /-- The requests are admitted in their order, each one once. -/
  order : requests acts = admitted ++ s.queued q
  queued : ∀ x ∈ q, s.waiting x = some (s.gate.tickets x).tShared
  /-- Who waits is in the queue, or has been admitted and has a message. -/
  waiting : ∀ x b, s.waiting x = some b →
    x ∈ q ∨ ((x, b) ∈ s.inside ∧ (s.gate.tickets x).tMes = true)
  held : q ≠ [] → s.inside ≠ []
  /-- No call fails or hangs. -/
  goesOn : ∀ a, s.Enabled a → (s.step a).isSome

theorem Agrees.inside_ne_nil (h : s.Agrees m q) (hq : q ≠ []) : s.inside ≠ [] := by
  intro hnil
  obtain ⟨x, q, rfl⟩ := List.exists_cons_of_ne_nil hq
  have hshared := h.nshared
  have hexclusive := h.nexclusive
  rw [hnil, List.countP_nil, Nat.cast_zero] at hshared hexclusive
  have hmax := h.valid.max
  have hblocked := h.valid.blocked x rfl
  cases hmode : (s.gate.tickets x).tShared with
  | true =>
      rw [hmode] at hblocked
      have hpos : 0 < s.gate.gNexclusive := hblocked
      omega
  | false =>
      rw [hmode] at hblocked
      have hor : 0 < s.gate.gNshared ∨ s.gate.gMaxexclusive ≤ s.gate.gNexclusive := hblocked
      omega

theorem suGate_fair (hm : 1 ≤ m) {tickets : ℕ → SuQticket} {acts : List GateAct}
    {admitted : List (ℕ × Bool)} (hrun : (init m tickets).run acts = some (s, admitted)) :
    ∃ q, s.IsFair m acts admitted q := by
  obtain ⟨q, hagrees, horder, hperm⟩ := (init_agrees hm tickets).run hrun
  have hapart := hagrees.valid.apart
  refine ⟨q, ?_⟩
  exact
    { apart := by omega
      limit := hagrees.max ▸ hagrees.valid.limit
      nshared := hagrees.nshared
      nexclusive := hagrees.nexclusive
      inside := hperm
      isQueue := hagrees.valid.isQueue
      nwait := hagrees.valid.nwait
      order := horder
      queued := fun x hx => (hagrees.waits x hx).1
      waiting := hagrees.woken
      held := hagrees.inside_ne_nil
      goesOn := fun a ha => by
        obtain ⟨s', adm, q', heq, -⟩ := hagrees.step ha
        rw [heq]
        rfl }

/-- Two readers wait behind a writer, and a second writer behind them. -/
theorem suGate_fair_batch :
    ∃ s, (init 1 fun _ => ⟨false, false, 0⟩).run
        [.enter 1 false, .enter 2 true, .enter 3 true, .enter 4 false, .exit 1 false, .wake 3,
          .exit 3 true] = some (s, [(1, false), (2, true), (3, true)]) ∧
      ∃ q, s.IsFair 1 [.enter 1 false, .enter 2 true, .enter 3 true, .enter 4 false,
        .exit 1 false, .wake 3, .exit 3 true] [(1, false), (2, true), (3, true)] q := by
  have hrun : ((init 1 fun _ => ⟨false, false, 0⟩).run
      [.enter 1 false, .enter 2 true, .enter 3 true, .enter 4 false, .exit 1 false, .wake 3,
        .exit 3 true]).map Prod.snd = some [(1, false), (2, true), (3, true)] := by
    decide +kernel
  obtain ⟨⟨s, admitted⟩, heq, rfl⟩ := Option.map_eq_some_iff.mp hrun
  exact ⟨s, heq, suGate_fair (by decide) heq⟩

end GateSys

end SolidDB
