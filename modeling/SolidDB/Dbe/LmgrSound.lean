import SolidDB.Dbe.LmgrGroup

/-!
# Sound queues

A queue is sound where its granted requests stand in front, agree with each other and
hide no mode from `lock_compat`. What `lmgr_unlock` makes of a sound queue is sound, and
so is what a call of `lmgr_lock` makes of it that keeps its modes tame.
-/

namespace SolidDB

/-! ## Sound queues -/

def modes (queue : List LockRequest) : List (ℕ × LockMode) :=
  queue.map fun r => (r.lrTran, r.lrMode)

/-- No transaction has U beside IX or SIX, and no U stands behind S and the IS of
another transaction. -/
structure TameModes (l : List (ℕ × LockMode)) : Prop where
  clash : ∀ t m n, (t, m) ∈ l → (t, n) ∈ l → ¬ m.Clash n
  hidden : ∀ t t' t'', t' ≠ t → ¬ List.Sublist [(t', .is), (t'', .s), (t, .u)] l ∧
    ¬ List.Sublist [(t'', .s), (t', .is), (t, .u)] l

theorem TameModes.sublist {l l' : List (ℕ × LockMode)} (h : TameModes l)
    (hsub : l'.Sublist l) : TameModes l' where
  clash t m n hm hn := h.clash t m n (hsub.subset hm) (hsub.subset hn)
  hidden t t' t'' ht :=
    ⟨fun hs => (h.hidden t t' t'' ht).1 (hs.trans hsub),
      fun hs => (h.hidden t t' t'' ht).2 (hs.trans hsub)⟩

theorem tameModes_of_ne_u {l : List (ℕ × LockMode)} (h : ∀ p ∈ l, p.2 ≠ .u) :
    TameModes l where
  clash t m _ hm _ hc := h (t, m) hm hc.1
  hidden t t' t'' _ :=
    ⟨fun hs => h (t, .u) (hs.subset (by simp)) rfl,
      fun hs => h (t, .u) (hs.subset (by simp)) rfl⟩

structure Before (r s : LockRequest) : Prop where
  granted : s.lrStatus = .granted → r.lrStatus = .granted
  agree : r.lrStatus = .granted → s.lrStatus = .granted → r.lrTran ≠ s.lrTran →
    r.lrMode.Agree s.lrMode

structure LockRequest.Regular (r : LockRequest) : Prop where
  status : r.lrStatus ≠ .denied
  mode : r.lrMode ≠ .free
  convert : r.lrStatus = .converting → r.lrConvertMode = r.lrMode

/-- The granted requests stand in front and agree, the others wait behind them. -/
structure SoundQueue (queue : List LockRequest) : Prop where
  before : queue.Pairwise Before
  regular : ∀ r ∈ queue, r.Regular
  tame : TameModes (modes queue)

theorem SoundQueue.sublist {queue queue' : List LockRequest} (h : SoundQueue queue)
    (hsub : queue'.Sublist queue) : SoundQueue queue' where
  before := h.before.sublist hsub
  regular r hr := h.regular r (hsub.subset hr)
  tame := h.tame.sublist (hsub.map _)

theorem mem_modes {queue : List LockRequest} {r : LockRequest} (h : r ∈ queue) :
    (r.lrTran, r.lrMode) ∈ modes queue :=
  List.mem_map_of_mem h

theorem SoundQueue.agree {queue : List LockRequest} (h : SoundQueue queue)
    {r s : LockRequest} (hr : r ∈ queue) (hs : s ∈ queue) (hrg : r.lrStatus = .granted)
    (hsg : s.lrStatus = .granted) (hne : r.lrTran ≠ s.lrTran) : r.lrMode.Agree s.lrMode := by
  have hall : queue.Pairwise fun r s => r.lrStatus = .granted → s.lrStatus = .granted →
      r.lrTran ≠ s.lrTran → r.lrMode.Agree s.lrMode := h.before.imp fun hb => hb.agree
  refine hall.forall_of_forall_of_flip (fun r _ _ _ hne => absurd rfl hne) ?_ hr hs hrg hsg hne
  exact hall.imp fun hb hs hr hne => (hb hr hs hne.symm).symm

theorem not_agree_of_clash {mode mode' : LockMode} (h : mode.Clash mode') :
    ¬ mode.Agree mode' := by
  revert mode mode'
  decide

theorem SoundQueue.tame_of_granted {queue : List LockRequest} (h : SoundQueue queue)
    (hgr : ∀ r ∈ queue, r.lrStatus = .granted) : Tame queue := by
  by_cases hu : ∃ r ∈ queue, r.lrMode = .u
  · obtain ⟨r, hr, hru⟩ := hu
    right
    intro s hs
    have hclash : ¬ r.lrMode.Clash s.lrMode := by
      by_cases ht : r.lrTran = s.lrTran
      · have hs' := mem_modes hs
        rw [← ht] at hs'
        exact h.tame.clash _ _ _ (mem_modes hr) hs'
      · intro hclash
        exact not_agree_of_clash hclash (h.agree hr hs (hgr r hr) (hgr s hs) ht)
    exact ⟨fun hix => hclash ⟨hru, Or.inl hix⟩, fun hsix => hclash ⟨hru, Or.inr hsix⟩⟩
  · left
    intro r hr hru
    exact hu ⟨r, hr, hru⟩

/-! ## Waking the waiters of a sound queue -/

structure SoundGroup (queue : List LockRequest) (grantedMode : LockMode) (waiting : Bool) :
    Prop where
  sound : SoundQueue queue
  pending : waiting = false → ∀ r ∈ queue, r.lrStatus = .granted
  below : ∀ r ∈ queue, r.lrStatus = .granted → r.lrMode.Below grantedMode
  shared : grantedMode = .s → ∃ r ∈ queue, r.lrStatus = .granted ∧ r.lrMode = .s
  intent : grantedMode = .ix ∨ grantedMode = .six → ∃ r ∈ queue, r.lrStatus = .granted ∧
    (r.lrMode = .ix ∨ r.lrMode = .six)

theorem pair_sublist {l : List (ℕ × LockMode)} {a b : ℕ × LockMode} (ha : a ∈ l) (hb : b ∈ l)
    (hne : a ≠ b) : List.Sublist [a, b] l ∨ List.Sublist [b, a] l := by
  induction l with
  | nil => simp at ha
  | cons c l ih =>
      rcases List.mem_cons.mp ha with hac | hal
      · rcases List.mem_cons.mp hb with hbc | hbl
        · exact absurd (hac.trans hbc.symm) hne
        · rw [hac]
          exact Or.inl ((List.singleton_sublist.mpr hbl).cons_cons c)
      · rcases List.mem_cons.mp hb with hbc | hbl
        · rw [hbc]
          exact Or.inr ((List.singleton_sublist.mpr hal).cons_cons c)
        · exact (ih hal hbl).imp (fun h => h.cons c) fun h => h.cons c

theorem TameModes.not_hidden {l l' : List (ℕ × LockMode)} {t t' t'' : ℕ}
    (h : TameModes (l ++ (t, .u) :: l')) (his : (t', .is) ∈ l) (hs : (t'', .s) ∈ l) :
    t' = t := by
  by_contra hne
  have hhidden := h.hidden t t' t'' hne
  have hend : List.Sublist [(t, LockMode.u)] ((t, .u) :: l') :=
    List.sublist_append_left [(t, LockMode.u)] l'
  rcases pair_sublist his hs (by simp) with hpair | hpair
  · exact absurd (hpair.append hend) hhidden.1
  · exact absurd (hpair.append hend) hhidden.2

/-- A request that is compatible with the group before it agrees with its requests. -/
theorem SoundQueue.agree_of_compat {pre queue : List LockRequest} {req : LockRequest}
    (h : SoundQueue (pre ++ req :: queue)) (hpre : ∀ r ∈ pre, r.lrStatus = .granted)
    (hcompat : lockCompat req.lrMode (groupMode pre .free) = true) {r : LockRequest}
    (hr : r ∈ pre) (hne : r.lrTran ≠ req.lrTran) : r.lrMode.Agree req.lrMode := by
  have hsub : pre.Sublist (pre ++ req :: queue) := List.sublist_append_left _ _
  have htame := (h.sublist hsub).tame_of_granted hpre
  have hreq := h.regular req (List.mem_append_right _ List.mem_cons_self)
  have hreg := h.regular r (List.mem_append_left _ hr)
  rcases LockMode.agree_of_below hcompat (htame.below r hr) hreg.mode hreq.mode with
    hagree | ⟨hu, his, hs⟩
  · exact hagree.symm
  · obtain ⟨x, hx, hxs⟩ := exists_s_of_groupMode hs (by simp)
    have hr' := mem_modes hr
    have hx' := mem_modes hx
    have hmodes := h.tame
    rw [his] at hr'
    rw [hxs] at hx'
    rw [modes, List.map_append, List.map_cons, hu] at hmodes
    exact absurd (hmodes.not_hidden hr' hx') hne

theorem SoundQueue.wake {pre queue : List LockRequest} {req : LockRequest}
    (h : SoundQueue (pre ++ req :: queue)) (hpre : ∀ r ∈ pre, r.lrStatus = .granted)
    (hreq : req.lrStatus ≠ .granted)
    (hagree : ∀ r ∈ pre, r.lrTran ≠ req.lrTran → r.lrMode.Agree req.lrMode) :
    SoundQueue (pre ++ { req with lrStatus := .granted } :: queue) := by
  obtain ⟨hbefore, hbefore', hcross⟩ := List.pairwise_append.mp h.before
  obtain ⟨hhead, htail⟩ := List.pairwise_cons.mp hbefore'
  refine ⟨List.pairwise_append.mpr ⟨hbefore, List.pairwise_cons.mpr ⟨?_, htail⟩, ?_⟩, ?_, ?_⟩
  · intro s hs
    exact ⟨fun _ => rfl, fun _ hsg => absurd ((hhead s hs).granted hsg) hreq⟩
  · intro r hr s hs
    rcases List.mem_cons.mp hs with rfl | hs
    · exact ⟨fun _ => hpre r hr, fun _ _ hne => hagree r hr hne⟩
    · exact hcross r hr s (List.mem_cons_of_mem _ hs)
  · intro r hr
    rcases List.mem_append.mp hr with hr | hr
    · exact h.regular r (List.mem_append_left _ hr)
    · rcases List.mem_cons.mp hr with rfl | hr
      · have hreg := h.regular req (List.mem_append_right _ List.mem_cons_self)
        exact ⟨by simp, hreg.mode, by simp⟩
      · exact h.regular r (List.mem_append_right _ (List.mem_cons_of_mem _ hr))
  · have hmodes : modes (pre ++ { req with lrStatus := .granted } :: queue) =
        modes (pre ++ req :: queue) := by
      rw [modes, modes, List.map_append, List.map_append, List.map_cons, List.map_cons]
    rw [hmodes]
    exact h.tame

theorem convertGroup_granted {queue : List LockRequest}
    (h : ∀ r ∈ queue, r.lrStatus = .granted) (mode : LockMode) :
    convertGroup queue mode = groupMode queue mode := by
  induction queue generalizing mode with
  | nil => rfl
  | cons r queue ih =>
      obtain ⟨hr, h⟩ := List.forall_mem_cons.mp h
      rw [convertGroup, if_pos (Or.inl hr), ih h]
      rfl

theorem SoundQueue.group {pre queue : List LockRequest} (h : SoundQueue (pre ++ queue))
    (hpre : ∀ r ∈ pre, r.lrStatus = .granted) (hqueue : ∀ r ∈ queue, r.lrStatus ≠ .granted)
    {waiting : Bool} (hwaiting : waiting = false → queue = []) :
    SoundGroup (pre ++ queue) (groupMode pre .free) waiting := by
  have htame := (h.sublist (List.sublist_append_left pre queue)).tame_of_granted hpre
  refine ⟨h, fun hw => ?_, fun r hr hrg => ?_, fun hs => ?_, fun hsix => ?_⟩
  · rw [hwaiting hw, List.append_nil]
    exact hpre
  · rcases List.mem_append.mp hr with hr | hr
    · exact htame.below r hr
    · exact absurd hrg (hqueue r hr)
  · obtain ⟨r, hr, hmode⟩ := exists_s_of_groupMode hs (by simp)
    exact ⟨r, List.mem_append_left _ hr, hpre r hr, hmode⟩
  · obtain ⟨r, hr, hmode⟩ := exists_six_of_groupMode hsix (by simp)
    exact ⟨r, List.mem_append_left _ hr, hpre r hr, hmode⟩

/-- The waiters behind the granted requests `pre`. -/
theorem wakeWaiters_sound {first : Option ℕ} {pre queue : List LockRequest}
    (h : SoundQueue (pre ++ queue)) (hpre : ∀ r ∈ pre, r.lrStatus = .granted)
    (hqueue : ∀ r ∈ queue, r.lrStatus ≠ .granted)
    (hfirst : ∀ t, first = some t → ∀ r ∈ pre, r.lrTran = t) :
    SoundGroup (wakeWaiters first pre queue (groupMode pre .free)).1
      (wakeWaiters first pre queue (groupMode pre .free)).2.1
      (wakeWaiters first pre queue (groupMode pre .free)).2.2 := by
  induction queue generalizing first pre with
  | nil =>
      have hgroup := h.group hpre hqueue (fun _ : false = false => rfl)
      rw [List.append_nil] at hgroup
      exact hgroup
  | cons req queue ih =>
      obtain ⟨hreq, hqueue'⟩ := List.forall_mem_cons.mp hqueue
      have hreg := h.regular req (List.mem_append_right _ List.mem_cons_self)
      have hstop := @SoundQueue.group pre (req :: queue) h hpre hqueue true (by simp)
      -- the request is granted as it is, a conversion has the mode that it asks for
      have hpass (first' : Option ℕ)
          (hfirst' : ∀ t, first' = some t → first = some t ∧ req.lrTran = t)
          (hor : some req.lrTran = first' ∨
            lockCompat req.lrMode (groupMode pre .free) = true) :
          SoundGroup
            (wakeWaiters first' (pre ++ [{ req with lrStatus := .granted }]) queue
              (lockMax req.lrMode (groupMode pre .free))).1
            (wakeWaiters first' (pre ++ [{ req with lrStatus := .granted }]) queue
              (lockMax req.lrMode (groupMode pre .free))).2.1
            (wakeWaiters first' (pre ++ [{ req with lrStatus := .granted }]) queue
              (lockMax req.lrMode (groupMode pre .free))).2.2 := by
        have hgroup : groupMode (pre ++ [{ req with lrStatus := .granted }]) .free =
            lockMax req.lrMode (groupMode pre .free) := by
          rw [groupMode_append]
          rfl
        rw [← hgroup]
        refine ih ?_ ?_ hqueue' ?_
        · rw [List.append_assoc]
          refine h.wake hpre hreq fun r hr hne => ?_
          rcases hor with hsame | hcompat
          · obtain ⟨hsome, -⟩ := hfirst' req.lrTran hsame.symm
            exact absurd (hfirst _ hsome r hr) hne
          · exact h.agree_of_compat hpre hcompat hr hne
        · intro r hr
          rcases List.mem_append.mp hr with hr | hr
          · exact hpre r hr
          · rw [List.mem_singleton.mp hr]
        · intro t ht r hr
          obtain ⟨hsome, htran⟩ := hfirst' t ht
          rcases List.mem_append.mp hr with hr | hr
          · exact hfirst t hsome r hr
          · rw [List.mem_singleton.mp hr]
            exact htran
      rw [wakeWaiters]
      have hnext : ∀ t, (if some req.lrTran = first then first else none) = some t →
          first = some t ∧ req.lrTran = t := by
        intro t ht
        split at ht
        · rename_i heq
          exact ⟨ht, Option.some.inj (heq.trans ht)⟩
        · simp at ht
      generalize (if some req.lrTran = first then first else none) = first' at hnext ⊢
      cases hst : req.lrStatus with
      | granted => exact absurd hst hreq
      | denied => exact absurd hst hreg.status
      | waiting =>
          simp only
          split
          · exact hpass first' hnext ‹_›
          · exact hstop
      | converting =>
          have hmode : lockMax req.lrConvertMode req.lrMode = req.lrMode := by
            rw [hreg.convert hst, lockMax_self]
          simp only [hmode, convertGroup_granted hpre]
          split
          · exact hpass first' hnext ‹_›
          · exact hstop

theorem wakeWaiters_granted (first : Option ℕ) (pre : List LockRequest)
    {queue : List LockRequest}
    (h : ∀ r ∈ queue, r.lrStatus = .granted) (post : List LockRequest)
    (grantedMode : LockMode) :
    ∃ first', wakeWaiters first pre (queue ++ post) grantedMode =
        wakeWaiters first' (pre ++ queue) post grantedMode ∧
      ∀ t, first' = some t → first = some t ∧ ∀ r ∈ queue, r.lrTran = t := by
  induction queue generalizing first pre with
  | nil => exact ⟨first, by rw [List.append_nil]; rfl, fun t ht => ⟨ht, by simp⟩⟩
  | cons r queue ih =>
      obtain ⟨hr, h⟩ := List.forall_mem_cons.mp h
      obtain ⟨first', heq, hfirst⟩ :=
        ih (if some r.lrTran = first then first else none) (pre ++ [r]) h
      refine ⟨first', ?_, fun t ht => ?_⟩
      · rw [List.cons_append, wakeWaiters]
        simp only [hr]
        rw [heq, List.append_assoc]
        rfl
      · obtain ⟨hsome, hall⟩ := hfirst t ht
        split at hsome
        · rename_i heq'
          refine ⟨hsome, List.forall_mem_cons.mpr ⟨?_, hall⟩⟩
          exact Option.some.inj (heq'.trans hsome)
        · simp at hsome

theorem SoundQueue.exists_append {queue : List LockRequest} (h : SoundQueue queue) :
    ∃ pre post, queue = pre ++ post ∧ (∀ r ∈ pre, r.lrStatus = .granted) ∧
      ∀ r ∈ post, r.lrStatus ≠ .granted := by
  have hbefore := h.before
  clear h
  induction queue with
  | nil => exact ⟨[], [], rfl, by simp, by simp⟩
  | cons r queue ih =>
      obtain ⟨hr, hqueue⟩ := List.pairwise_cons.mp hbefore
      by_cases hrg : r.lrStatus = .granted
      · obtain ⟨pre, post, rfl, hpre, hpost⟩ := ih hqueue
        exact ⟨r :: pre, post, rfl, List.forall_mem_cons.mpr ⟨hrg, hpre⟩, hpost⟩
      · refine ⟨[], r :: queue, rfl, by simp, List.forall_mem_cons.mpr ⟨hrg, ?_⟩⟩
        exact fun s hs hsg => hrg ((hr s hs).granted hsg)

theorem grantedGroup_append {pre post : List LockRequest}
    (hpre : ∀ r ∈ pre, r.lrStatus = .granted) (hpost : ∀ r ∈ post, r.lrStatus ≠ .granted)
    (mode : LockMode) : grantedGroup (pre ++ post) mode = groupMode pre mode := by
  induction pre generalizing mode with
  | nil =>
      cases post with
      | nil => rfl
      | cons r post =>
          rw [List.nil_append, grantedGroup, if_neg (hpost r List.mem_cons_self)]
          rfl
  | cons r pre ih =>
      obtain ⟨hr, hpre⟩ := List.forall_mem_cons.mp hpre
      rw [List.cons_append, grantedGroup, if_pos hr, ih hpre]
      rfl

/-- What `lmgr_unlock` makes of a sound queue. -/
theorem regrant_sound {queue : List LockRequest} (h : SoundQueue queue) :
    SoundGroup (regrant queue).1 (regrant queue).2.1 (regrant queue).2.2 := by
  obtain ⟨pre, post, rfl, hpre, hpost⟩ := h.exists_append
  rw [regrant, grantedGroup_append hpre hpost]
  obtain ⟨first, heq, hfirst⟩ := wakeWaiters_granted
    ((pre ++ post).head?.map LockRequest.lrTran) [] hpre post (groupMode pre .free)
  rw [heq]
  exact wakeWaiters_sound h hpre hpost fun t ht => (hfirst t ht).2

/-! ## What a call makes of a sound queue -/

theorem soundGroup_new {req : LockRequest} (hst : req.lrStatus = .granted)
    (hmode : req.lrMode ≠ .free) : SoundGroup [req] req.lrMode false where
  sound :=
    { before := List.pairwise_singleton _ _
      regular := by
        intro r hr
        rw [List.mem_singleton.mp hr]
        exact ⟨by simp [hst], hmode, by simp [hst]⟩
      tame :=
        { clash := by
            intro t m n hm hn
            have hm' := congrArg Prod.snd (List.mem_singleton.mp hm)
            have hn' := congrArg Prod.snd (List.mem_singleton.mp hn)
            change m = req.lrMode at hm'
            change n = req.lrMode at hn'
            rw [hm', hn']
            generalize req.lrMode = mode
            revert mode
            decide
          hidden := by
            intro t t' t'' _
            exact ⟨fun hs => absurd hs.length_le (by simp [modes]),
              fun hs => absurd hs.length_le (by simp [modes])⟩ } }
  pending := by
    intro _ r hr
    rw [List.mem_singleton.mp hr]
    exact hst
  below := by
    intro r hr _
    rw [List.mem_singleton.mp hr]
    generalize req.lrMode = mode
    revert mode
    decide
  shared h := ⟨req, List.mem_singleton.mpr rfl, hst, h⟩
  intent h := ⟨req, List.mem_singleton.mpr rfl, hst, h⟩

theorem SoundQueue.append {queue : List LockRequest} {req : LockRequest}
    (h : SoundQueue queue) (hreg : req.Regular)
    (htame : TameModes (modes queue ++ [(req.lrTran, req.lrMode)]))
    (hbefore : ∀ r ∈ queue, Before r req) : SoundQueue (queue ++ [req]) where
  before := by
    refine List.pairwise_append.mpr ⟨h.before, List.pairwise_singleton _ _, ?_⟩
    intro r hr s hs
    rw [List.mem_singleton.mp hs]
    exact hbefore r hr
  regular := by
    intro r hr
    rcases List.mem_append.mp hr with hr | hr
    · exact h.regular r hr
    · rw [List.mem_singleton.mp hr]
      exact hreg
  tame := by
    rw [modes, List.map_append]
    exact htame

theorem SoundGroup.append_pending {queue : List LockRequest} {grantedMode : LockMode}
    {waiting : Bool} {req : LockRequest} (h : SoundGroup queue grantedMode waiting)
    (hreg : req.Regular) (hst : req.lrStatus ≠ .granted)
    (htame : TameModes (modes queue ++ [(req.lrTran, req.lrMode)])) :
    SoundGroup (queue ++ [req]) grantedMode true where
  sound := h.sound.append hreg htame fun _ _ =>
    ⟨fun hg => absurd hg hst, fun _ hg => absurd hg hst⟩
  pending hw := absurd hw (by simp)
  below := by
    intro r hr hrg
    rcases List.mem_append.mp hr with hr | hr
    · exact h.below r hr hrg
    · rw [List.mem_singleton.mp hr] at hrg
      exact absurd hrg hst
  shared hs := by
    obtain ⟨r, hr, hmode⟩ := h.shared hs
    exact ⟨r, List.mem_append_left _ hr, hmode⟩
  intent hs := by
    obtain ⟨r, hr, hmode⟩ := h.intent hs
    exact ⟨r, List.mem_append_left _ hr, hmode⟩

theorem LockMode.below_lockMax_of_compat {mode grantedMode : LockMode}
    (h : lockCompat mode grantedMode = true) : mode.Below (lockMax mode grantedMode) := by
  revert mode grantedMode
  decide

theorem LockMode.Below.lockMax_of_compat {mode mode' grantedMode : LockMode}
    (h : mode'.Below grantedMode) (hcompat : lockCompat mode grantedMode = true) :
    mode'.Below (lockMax mode grantedMode) := by
  revert mode mode' grantedMode
  decide

theorem SoundGroup.append_granted {queue : List LockRequest} {grantedMode : LockMode}
    {req : LockRequest} (h : SoundGroup queue grantedMode false) (hreg : req.Regular)
    (hst : req.lrStatus = .granted) (hcompat : lockCompat req.lrMode grantedMode = true)
    (htame : TameModes (modes queue ++ [(req.lrTran, req.lrMode)])) :
    SoundGroup (queue ++ [req]) (lockMax req.lrMode grantedMode) false where
  sound := by
    refine h.sound.append hreg htame fun r hr => ⟨fun _ => h.pending rfl r hr, ?_⟩
    intro hrg _ hne
    rcases LockMode.agree_of_below hcompat (h.below r hr hrg) (h.sound.regular r hr).mode
      hreg.mode with hagree | ⟨hu, his, hs⟩
    · exact hagree.symm
    · obtain ⟨x, hx, -, hxs⟩ := h.shared hs
      have hr' := mem_modes hr
      have hx' := mem_modes hx
      rw [his] at hr'
      rw [hxs] at hx'
      rw [hu] at htame
      exact absurd (htame.not_hidden hr' hx') hne
  pending _ := by
    intro r hr
    rcases List.mem_append.mp hr with hr | hr
    · exact h.pending rfl r hr
    · rw [List.mem_singleton.mp hr]
      exact hst
  below := by
    intro r hr hrg
    rcases List.mem_append.mp hr with hr | hr
    · exact (h.below r hr hrg).lockMax_of_compat hcompat
    · rw [List.mem_singleton.mp hr]
      exact LockMode.below_lockMax_of_compat hcompat
  shared hs := by
    by_cases hmode : req.lrMode = .s
    · exact ⟨req, List.mem_append_right _ (List.mem_singleton.mpr rfl), hst, hmode⟩
    · by_cases hg : grantedMode = .s
      · obtain ⟨r, hr, hrs⟩ := h.shared hg
        exact ⟨r, List.mem_append_left _ hr, hrs⟩
      · exact absurd hs (lockMax_ne_s hmode hg)
  intent hs := by
    by_cases hmode : req.lrMode = .ix ∨ req.lrMode = .six
    · exact ⟨req, List.mem_append_right _ (List.mem_singleton.mpr rfl), hst, hmode⟩
    · by_cases hg : grantedMode = .ix ∨ grantedMode = .six
      · obtain ⟨r, hr, hrs⟩ := h.intent hg
        exact ⟨r, List.mem_append_left _ hr, hrs⟩
      · exact absurd hs (lockMax_ne_six hmode hg)

/-! ## Conversion in place -/

/-- The requests that the conversion of `me` is compared with. -/
def otherGroup (me : ℕ) (queue : List LockRequest) : List LockRequest :=
  (queue.filter fun r => r.lrTran ≠ me).takeWhile fun r =>
    r.lrStatus = .granted ∨ r.lrStatus = .converting

theorem othersGroup_eq (me : ℕ) (queue : List LockRequest) (mode : LockMode) :
    othersGroup me queue mode = groupMode (otherGroup me queue) mode := by
  induction queue generalizing mode with
  | nil => rfl
  | cons r queue ih =>
      rw [othersGroup, otherGroup]
      by_cases hr : r.lrTran = me
      · rw [if_neg (by simpa using hr), List.filter_cons_of_neg (by simpa using hr), ih]
        rfl
      · rw [if_pos hr, List.filter_cons_of_pos (by simpa using hr)]
        by_cases hg : r.lrStatus = .granted ∨ r.lrStatus = .converting
        · rw [if_pos hg, List.takeWhile_cons_of_pos (by simpa using hg), ih]
          rfl
        · rw [if_neg hg, List.takeWhile_cons_of_neg (by simpa using hg)]
          rfl

theorem SoundQueue.mem_otherGroup {queue : List LockRequest} (h : SoundQueue queue) {me : ℕ}
    {r : LockRequest} (hr : r ∈ queue) (hrg : r.lrStatus = .granted) (hne : r.lrTran ≠ me) :
    r ∈ otherGroup me queue := by
  have hbefore : (queue.filter fun r => r.lrTran ≠ me).Pairwise Before :=
    h.before.sublist List.filter_sublist
  have hmem : r ∈ queue.filter fun r => r.lrTran ≠ me :=
    List.mem_filter.mpr ⟨hr, by simpa using hne⟩
  rw [otherGroup]
  generalize (queue.filter fun r => r.lrTran ≠ me) = l at hbefore hmem
  induction l with
  | nil => simp at hmem
  | cons x l ih =>
      obtain ⟨hx, hl⟩ := List.pairwise_cons.mp hbefore
      have hxg : x.lrStatus = .granted := by
        rcases List.mem_cons.mp hmem with rfl | hmem
        · exact hrg
        · exact (hx r hmem).granted hrg
      rw [List.takeWhile_cons_of_pos (by simpa using Or.inl hxg)]
      rcases List.mem_cons.mp hmem with rfl | hmem
      · exact List.mem_cons_self
      · exact List.mem_cons_of_mem x (ih hl hmem)

/-- Compatible in the order of the arguments, or U over IS. -/
def LockMode.Over (mode mode' : LockMode) : Prop :=
  lockCompat mode mode' = true ∨ (mode = .u ∧ mode' = .is)

instance (mode mode' : LockMode) : Decidable (mode.Over mode') :=
  inferInstanceAs (Decidable (_ ∨ _))

theorem LockMode.over_of_lockMax {mode m g : LockMode} (his : mode ≠ .is)
    (hfree : mode ≠ .free) (h : mode.Over (lockMax m g)) : mode.Over m ∧ mode.Over g := by
  revert mode m g
  decide

theorem over_of_groupMode {mode : LockMode} (his : mode ≠ .is) (hfree : mode ≠ .free)
    {queue : List LockRequest} {grantedMode : LockMode}
    (h : mode.Over (groupMode queue grantedMode)) :
    mode.Over grantedMode ∧ ∀ r ∈ queue, mode.Over r.lrMode := by
  induction queue generalizing grantedMode with
  | nil => exact ⟨h, by simp⟩
  | cons r queue ih =>
      obtain ⟨hmax, hall⟩ := ih h
      obtain ⟨hr, hg⟩ := LockMode.over_of_lockMax his hfree hmax
      exact ⟨hg, List.forall_mem_cons.mpr ⟨hr, hall⟩⟩

theorem lockMax_ne_free {mode grantedMode : LockMode}
    (h : mode ≠ .free ∨ grantedMode ≠ .free) : lockMax mode grantedMode ≠ .free := by
  revert mode grantedMode
  decide

theorem groupMode_ne_free {queue : List LockRequest} {r : LockRequest} (hr : r ∈ queue)
    (hmode : r.lrMode ≠ .free) (grantedMode : LockMode) :
    groupMode queue grantedMode ≠ .free := by
  have hfold (l : List LockRequest) (g : LockMode) (hg : g ≠ .free) :
      groupMode l g ≠ .free := by
    induction l generalizing g with
    | nil => exact hg
    | cons x l ih => exact ih _ (lockMax_ne_free (Or.inr hg))
  obtain ⟨pre, post, rfl⟩ := List.append_of_mem hr
  rw [groupMode_append]
  exact hfold post (lockMax r.lrMode (groupMode pre grantedMode))
    (lockMax_ne_free (Or.inl hmode))

theorem LockMode.eq_s_of_compat_u {grantedMode : LockMode}
    (h : lockCompat .u grantedMode = true) (hne : grantedMode ≠ .free) :
    grantedMode = .s := by
  revert grantedMode
  decide

def HidesIs (me : ℕ) (queue : List LockRequest) : Prop :=
  (∃ r ∈ otherGroup me queue, r.lrMode = .is) ∧ ∃ r ∈ otherGroup me queue, r.lrMode = .s

/-- A mode that is compatible with the group of the others agrees with each of them. -/
theorem agree_of_othersGroup {me : ℕ} {queue : List LockRequest} {mode : LockMode}
    (his : mode ≠ .is) (hfree : mode ≠ .free)
    (hcompat : lockCompat mode (othersGroup me queue .free) = true)
    (hhides : mode = .u → ¬ HidesIs me queue) {r : LockRequest}
    (hr : r ∈ otherGroup me queue) : mode.Agree r.lrMode := by
  rw [othersGroup_eq] at hcompat
  rcases (over_of_groupMode his hfree (Or.inl hcompat)).2 r hr with hover | ⟨hu, hris⟩
  · exact Or.inl hover
  · -- the group has IS, U is compatible with it only where it has S
    have hs : groupMode (otherGroup me queue) .free = .s := by
      have hne := groupMode_ne_free hr (by simp [hris]) .free
      rw [hu] at hcompat
      exact LockMode.eq_s_of_compat_u hcompat hne
    exact absurd ⟨⟨r, hr, hris⟩, exists_s_of_groupMode hs (by simp)⟩ (hhides hu)

theorem LockMode.lockMax_ne_free_is {mode held : LockMode} (h : ¬ mode.num ≤ held.num)
    (hheld : held ≠ .free) : lockMax mode held ≠ .is ∧ lockMax mode held ≠ .free := by
  revert mode held
  decide

theorem LockMode.lockMax_s {mode grantedMode : LockMode} (h : ¬ mode.num ≤ LockMode.s.num) :
    lockMax (lockMax mode .s) grantedMode ≠ .s := by
  revert mode grantedMode
  decide

theorem LockMode.lockMax_intent {mode held : LockMode} (h : ¬ mode.num ≤ held.num)
    (hheld : held = .ix ∨ held = .six) :
    lockMax mode held = .ix ∨ lockMax mode held = .six ∨ lockMax mode held = .x := by
  revert mode held
  decide

theorem lockMax_x (mode : LockMode) : lockMax .x mode = .x := by
  revert mode
  decide

theorem mem_modes_of_own {queue : List LockRequest} {r : LockRequest} {t : ℕ}
    (h : r ∈ queue) (ht : r.lrTran = t) : (t, r.lrMode) ∈ modes queue := by
  rw [← ht]
  exact mem_modes h

/-- The first request of a transaction is converted in its place. -/
theorem SoundGroup.upgrade {pre post : List LockRequest} {req req' : LockRequest}
    {grantedMode mode : LockMode} {waiting : Bool}
    (h : SoundGroup (pre ++ req :: post) grantedMode waiting)
    (hreq : req.lrStatus = .granted) (hst : req'.lrStatus = .granted)
    (htran : req'.lrTran = req.lrTran) (hmode : req'.lrMode = lockMax mode req.lrMode)
    (hnum : ¬ mode.num ≤ req.lrMode.num)
    (hcompat : lockCompat (lockMax mode req.lrMode)
      (othersGroup req.lrTran (pre ++ req :: post) .free) = true)
    (htame : TameModes (modes (pre ++ req' :: post)))
    (hhides : lockMax mode req.lrMode = .u → ¬ HidesIs req.lrTran (pre ++ req :: post)) :
    SoundGroup (pre ++ req' :: post) (lockMax req'.lrMode grantedMode) waiting := by
  have hreqmem : req ∈ pre ++ req :: post := by simp
  have hreqmem' : req' ∈ pre ++ req' :: post := by simp
  have hreg := h.sound.regular req hreqmem
  obtain ⟨his, hfree⟩ := LockMode.lockMax_ne_free_is hnum hreg.mode
  rw [← hmode] at his hfree hcompat hhides
  -- every other request is in both queues
  have hmem {r : LockRequest} (hr : r ∈ pre ∨ r ∈ post) :
      r ∈ pre ++ req :: post ∧ r ∈ pre ++ req' :: post := by
    simp only [List.mem_append, List.mem_cons]
    tauto
  have hagree {r : LockRequest} (hr : r ∈ pre ∨ r ∈ post) (hrg : r.lrStatus = .granted)
      (hne : r.lrTran ≠ req.lrTran) : req'.lrMode.Agree r.lrMode :=
    agree_of_othersGroup his hfree hcompat hhides (h.sound.mem_otherGroup (hmem hr).1 hrg hne)
  have hclash {r : LockRequest} (hr : r ∈ pre ∨ r ∈ post) (hrg : r.lrStatus = .granted) :
      ¬ req'.lrMode.Clash r.lrMode ∧ ¬ r.lrMode.Clash req'.lrMode := by
    by_cases hne : r.lrTran = req.lrTran
    · have hr' := mem_modes_of_own (hmem hr).2 hne
      have hq' := mem_modes_of_own hreqmem' htran
      exact ⟨htame.clash _ _ _ hq' hr', htame.clash _ _ _ hr' hq'⟩
    · exact ⟨fun hc => not_agree_of_clash hc (hagree hr hrg hne),
        fun hc => not_agree_of_clash hc (hagree hr hrg hne).symm⟩
  have hcases {r : LockRequest} (hr : r ∈ pre ++ req' :: post) :
      r = req' ∨ r ∈ pre ∨ r ∈ post := by
    simp only [List.mem_append, List.mem_cons] at hr
    tauto
  obtain ⟨hbefore, hbefore', hcross⟩ := List.pairwise_append.mp h.sound.before
  obtain ⟨hhead, htail⟩ := List.pairwise_cons.mp hbefore'
  refine ⟨⟨?_, ?_, htame⟩, ?_, ?_, ?_, ?_⟩
  · refine List.pairwise_append.mpr ⟨hbefore, List.pairwise_cons.mpr ⟨?_, htail⟩, ?_⟩
    · intro s hs
      refine ⟨fun _ => hst, fun _ hsg hne => hagree (Or.inr hs) hsg ?_⟩
      rw [← htran]
      exact hne.symm
    · intro r hr s hs
      rcases List.mem_cons.mp hs with rfl | hs
      · have hb := hcross r hr req List.mem_cons_self
        refine ⟨fun _ => hb.granted hreq, fun hrg _ hne => (hagree (Or.inl hr) hrg ?_).symm⟩
        rw [← htran]
        exact hne
      · exact hcross r hr s (List.mem_cons_of_mem _ hs)
  · intro r hr
    rcases hcases hr with rfl | hr
    · exact ⟨by simp [hst], hfree, by simp [hst]⟩
    · exact h.sound.regular r (hmem hr).1
  · intro hw r hr
    rcases hcases hr with rfl | hr
    · exact hst
    · exact h.pending hw r (hmem hr).1
  · intro r hr hrg
    rcases hcases hr with rfl | hr
    · apply LockMode.below_lockMax
      rintro ⟨hu, hsix⟩
      obtain ⟨x, hx, hxg, hxm⟩ := h.intent (Or.inr hsix)
      -- the request of mode IX or SIX is not the one that becomes U
      have hx' : x ∈ pre ∨ x ∈ post := by
        rcases List.mem_append.mp hx with hx | hx
        · exact Or.inl hx
        · rcases List.mem_cons.mp hx with rfl | hx
          · have hne := LockMode.lockMax_intent hnum hxm
            rw [← hmode, hu] at hne
            simp at hne
          · exact Or.inr hx
      exact (hclash hx' hxg).1 ⟨hu, hxm⟩
    · refine (h.below r (hmem hr).1 hrg).lockMax_right ?_
      rintro ⟨hsix, -, hru⟩
      exact (hclash hr hrg).2 ⟨hru, Or.inr hsix⟩
  · intro hs
    by_cases hms : req'.lrMode = .s
    · exact ⟨req', hreqmem', hst, hms⟩
    · by_cases hgs : grantedMode = .s
      · obtain ⟨x, hx, hxg, hxm⟩ := h.shared hgs
        rcases List.mem_append.mp hx with hx | hx
        · exact ⟨x, (hmem (Or.inl hx)).2, hxg, hxm⟩
        · rcases List.mem_cons.mp hx with rfl | hx
          · rw [hmode, hxm] at hs
            rw [hxm] at hnum
            exact absurd hs (LockMode.lockMax_s hnum)
          · exact ⟨x, (hmem (Or.inr hx)).2, hxg, hxm⟩
      · exact absurd hs (lockMax_ne_s hms hgs)
  · intro hs
    by_cases hms : req'.lrMode = .ix ∨ req'.lrMode = .six
    · exact ⟨req', hreqmem', hst, hms⟩
    · by_cases hgs : grantedMode = .ix ∨ grantedMode = .six
      · obtain ⟨x, hx, hxg, hxm⟩ := h.intent hgs
        rcases List.mem_append.mp hx with hx | hx
        · exact ⟨x, (hmem (Or.inl hx)).2, hxg, hxm⟩
        · rcases List.mem_cons.mp hx with rfl | hx
          · have hor := LockMode.lockMax_intent hnum hxm
            rw [← hmode] at hor
            rcases hor with hix | hsix | hx'
            · exact absurd (Or.inl hix) hms
            · exact absurd (Or.inr hsix) hms
            · rw [hx', lockMax_x] at hs
              simp at hs
          · exact ⟨x, (hmem (Or.inr hx)).2, hxg, hxm⟩
      · exact absurd hs (lockMax_ne_six hms hgs)

/-! ## What soundness depends on -/

structure SameLock (r r' : LockRequest) : Prop where
  lrTran : r'.lrTran = r.lrTran
  lrStatus : r'.lrStatus = r.lrStatus
  lrMode : r'.lrMode = r.lrMode
  lrConvertMode : r'.lrConvertMode = r.lrConvertMode

theorem SameLock.refl (r : LockRequest) : SameLock r r := ⟨rfl, rfl, rfl, rfl⟩

theorem SameLock.before {r r' s s' : LockRequest} (hr : SameLock r r') (hs : SameLock s s')
    (h : Before r s) : Before r' s' := by
  obtain ⟨hgranted, hagree⟩ := h
  rw [← hr.lrStatus, ← hs.lrStatus] at hgranted hagree
  rw [← hr.lrTran, ← hs.lrTran, ← hr.lrMode, ← hs.lrMode] at hagree
  exact ⟨hgranted, hagree⟩

theorem SameLock.regular {r r' : LockRequest} (h : SameLock r r') (hr : r.Regular) :
    r'.Regular := by
  obtain ⟨hst, hmode, hconvert⟩ := hr
  rw [← h.lrStatus] at hst hconvert
  rw [← h.lrMode] at hmode hconvert
  rw [← h.lrConvertMode] at hconvert
  exact ⟨hst, hmode, hconvert⟩

theorem modes_same {queue queue' : List LockRequest}
    (h : List.Forall₂ SameLock queue queue') : modes queue' = modes queue := by
  induction h with
  | nil => rfl
  | cons hr _ ih =>
      rw [modes, modes] at ih ⊢
      rw [List.map_cons, List.map_cons, ih, hr.lrTran, hr.lrMode]

theorem SoundQueue.same {queue queue' : List LockRequest} (h : SoundQueue queue)
    (hs : List.Forall₂ SameLock queue queue') : SoundQueue queue' where
  before := by
    have hbefore := h.before
    clear h
    induction hs with
    | nil => exact List.Pairwise.nil
    | cons hr hs ih =>
        obtain ⟨hhead, htail⟩ := List.pairwise_cons.mp hbefore
        refine List.pairwise_cons.mpr ⟨fun s' hs' => ?_, ih htail⟩
        obtain ⟨s, hmem, hss⟩ := exists_mem_left hs hs'
        exact hr.before hss (hhead s hmem)
  regular := by
    intro r' hr'
    obtain ⟨r, hr, hrr⟩ := exists_mem_left hs hr'
    exact hrr.regular (h.regular r hr)
  tame := by
    rw [modes_same hs]
    exact h.tame

theorem SoundGroup.same {queue queue' : List LockRequest} {grantedMode : LockMode}
    {waiting : Bool} (h : SoundGroup queue grantedMode waiting)
    (hs : List.Forall₂ SameLock queue queue') : SoundGroup queue' grantedMode waiting where
  sound := h.sound.same hs
  pending hw := by
    intro r' hr'
    obtain ⟨r, hr, hrr⟩ := exists_mem_left hs hr'
    rw [hrr.lrStatus]
    exact h.pending hw r hr
  below := by
    intro r' hr' hrg
    obtain ⟨r, hr, hrr⟩ := exists_mem_left hs hr'
    rw [hrr.lrStatus] at hrg
    rw [hrr.lrMode]
    exact h.below r hr hrg
  shared hg := by
    obtain ⟨r, hr, hrg, hrm⟩ := h.shared hg
    obtain ⟨r', hr', hrr⟩ := exists_mem_right hs hr
    exact ⟨r', hr', hrr.lrStatus.trans hrg, hrr.lrMode.trans hrm⟩
  intent hg := by
    obtain ⟨r, hr, hrg, hrm⟩ := h.intent hg
    obtain ⟨r', hr', hrr⟩ := exists_mem_right hs hr
    rw [← hrr.lrMode] at hrm
    exact ⟨r', hr', hrr.lrStatus.trans hrg, hrm⟩

end SolidDB
