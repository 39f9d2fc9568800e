import SolidDB.Dbe.LmgrQueue

/-!
# The granted group of a queue

The mode of a group is the fold of `lock_max` over its requests. It is the least upper
bound of their modes where the group has no U, or neither IX nor SIX: `lock_max` of U and
SIX is SIX, which is compatible with IS.
-/

namespace SolidDB

/-! ## Modes below a mode -/

/-- `lock_max` takes the greater mode, and what is compatible with it is compatible
with `mode`, but for U over IS. `lock_max` of U and SIX is SIX, which lets IS in. -/
def LockMode.Below (mode grantedMode : LockMode) : Prop :=
  lockMax mode grantedMode = grantedMode ∧ ¬ (mode = .u ∧ grantedMode = .six)

instance (mode grantedMode : LockMode) : Decidable (mode.Below grantedMode) :=
  inferInstanceAs (Decidable (_ ∧ _))

def LockMode.Agree (mode mode' : LockMode) : Prop :=
  lockCompat mode mode' = true ∨ lockCompat mode' mode = true

instance (mode mode' : LockMode) : Decidable (mode.Agree mode') :=
  inferInstanceAs (Decidable (_ ∨ _))

theorem LockMode.Agree.symm {mode mode' : LockMode} (h : mode.Agree mode') :
    mode'.Agree mode :=
  Or.symm h

def LockMode.Clash (mode mode' : LockMode) : Prop :=
  mode = .u ∧ (mode' = .ix ∨ mode' = .six)

instance (mode mode' : LockMode) : Decidable (mode.Clash mode') :=
  inferInstanceAs (Decidable (_ ∧ _))

/-- A mode that is compatible with the mode of the group is so with a mode below it,
but for U with IS in a group of mode S. -/
theorem LockMode.agree_of_below {mode mode' grantedMode : LockMode}
    (hcompat : lockCompat mode grantedMode = true) (h : mode'.Below grantedMode)
    (hfree : mode' ≠ .free) (hfree' : mode ≠ .free) :
    mode.Agree mode' ∨ (mode = .u ∧ mode' = .is ∧ grantedMode = .s) := by
  revert mode mode' grantedMode
  decide

theorem LockMode.below_lockMax {mode grantedMode : LockMode}
    (h : ¬ (mode = .u ∧ grantedMode = .six)) : mode.Below (lockMax mode grantedMode) := by
  revert mode grantedMode
  decide

/-- What is below a mode stays below a greater one, but for U below U when SIX comes. -/
theorem LockMode.Below.lockMax_right {mode mode' grantedMode : LockMode}
    (h : mode'.Below grantedMode)
    (hsix : ¬ (mode = .six ∧ grantedMode = .u ∧ mode' = .u)) :
    mode'.Below (lockMax mode grantedMode) := by
  revert mode mode' grantedMode
  decide

theorem lockMax_ne_s {mode grantedMode : LockMode} (h : mode ≠ .s) (hg : grantedMode ≠ .s) :
    lockMax mode grantedMode ≠ .s := by
  revert mode grantedMode
  decide

theorem lockMax_ne_six {mode grantedMode : LockMode} (h : ¬ (mode = .ix ∨ mode = .six))
    (hg : ¬ (grantedMode = .ix ∨ grantedMode = .six)) :
    ¬ (lockMax mode grantedMode = .ix ∨ lockMax mode grantedMode = .six) := by
  revert mode grantedMode
  decide

theorem lockMax_self (mode : LockMode) : lockMax mode mode = mode := by
  revert mode
  decide

/-! ## The fold over a group -/

def groupMode (queue : List LockRequest) (grantedMode : LockMode) : LockMode :=
  queue.foldl (fun mode r => lockMax r.lrMode mode) grantedMode

/-- The modes of a group without U, or without IX and SIX. -/
def Tame (queue : List LockRequest) : Prop :=
  (∀ r ∈ queue, r.lrMode ≠ .u) ∨ ∀ r ∈ queue, r.lrMode ≠ .ix ∧ r.lrMode ≠ .six

structure Closed (K : LockMode → Prop) : Prop where
  free : K .free
  lockMax : ∀ m g, K m → K g → K (lockMax m g)
  below : ∀ m g, K m → K g → m.Below (SolidDB.lockMax m g)
  mono : ∀ m g o, K m → K g → K o → o.Below g → o.Below (SolidDB.lockMax m g)
  least : ∀ m g h, K m → K g → m.Below h → g.Below h → (SolidDB.lockMax m g).Below h

theorem closed_ne_u : Closed fun m => m ≠ .u := by
  constructor <;> decide

theorem closed_ne_ix_six : Closed fun m => m ≠ .ix ∧ m ≠ .six := by
  constructor <;> decide

theorem Closed.groupMode {K : LockMode → Prop} (hK : Closed K) {queue : List LockRequest}
    (h : ∀ r ∈ queue, K r.lrMode) {grantedMode : LockMode} (hg : K grantedMode) :
    K (groupMode queue grantedMode) ∧
      (∀ o, K o → o.Below grantedMode → o.Below (groupMode queue grantedMode)) ∧
      (∀ r ∈ queue, r.lrMode.Below (groupMode queue grantedMode)) ∧
      ∀ mode, grantedMode.Below mode → (∀ r ∈ queue, r.lrMode.Below mode) →
        (groupMode queue grantedMode).Below mode := by
  induction queue generalizing grantedMode with
  | nil => exact ⟨hg, fun _ _ ho => ho, by simp, fun _ hm _ => hm⟩
  | cons r queue ih =>
      obtain ⟨hr, h⟩ := List.forall_mem_cons.mp h
      obtain ⟨hmem, hmono, hbelow, hleast⟩ := ih h (hK.lockMax _ _ hr hg)
      refine ⟨hmem, fun o ho hog => ?_, List.forall_mem_cons.mpr ⟨?_, hbelow⟩, ?_⟩
      · exact hmono o ho (hK.mono _ _ _ hr hg ho hog)
      · exact hmono _ hr (hK.below _ _ hr hg)
      · intro mode hgm hall
        obtain ⟨hrm, hall⟩ := List.forall_mem_cons.mp hall
        exact hleast mode (hK.least _ _ _ hr hg hrm hgm) hall

theorem free_below (mode : LockMode) : LockMode.free.Below mode := by
  revert mode
  decide

theorem Tame.below {queue : List LockRequest} (h : Tame queue) :
    ∀ r ∈ queue, r.lrMode.Below (groupMode queue .free) := by
  rcases h with h | h
  · exact (closed_ne_u.groupMode h closed_ne_u.free).2.2.1
  · exact (closed_ne_ix_six.groupMode h closed_ne_ix_six.free).2.2.1

/-- The mode of a tame group is below every mode that its requests are below. -/
theorem Tame.least {queue : List LockRequest} (h : Tame queue) {mode : LockMode}
    (hall : ∀ r ∈ queue, r.lrMode.Below mode) : (groupMode queue .free).Below mode := by
  rcases h with h | h
  · exact (closed_ne_u.groupMode h closed_ne_u.free).2.2.2 mode (free_below mode) hall
  · exact (closed_ne_ix_six.groupMode h closed_ne_ix_six.free).2.2.2 mode (free_below mode)
      hall

theorem groupMode_append (queue queue' : List LockRequest) (mode : LockMode) :
    groupMode (queue ++ queue') mode = groupMode queue' (groupMode queue mode) :=
  List.foldl_append

theorem exists_s_of_groupMode {queue : List LockRequest} {grantedMode : LockMode}
    (h : groupMode queue grantedMode = .s) (hg : grantedMode ≠ .s) :
    ∃ r ∈ queue, r.lrMode = .s := by
  induction queue generalizing grantedMode with
  | nil => exact absurd h hg
  | cons r queue ih =>
      by_cases hr : r.lrMode = .s
      · exact ⟨r, List.mem_cons_self, hr⟩
      · obtain ⟨r', hr', hs⟩ := ih h (lockMax_ne_s hr hg)
        exact ⟨r', List.mem_cons_of_mem r hr', hs⟩

/-- A group of mode IX or SIX has a request of mode IX or SIX. -/
theorem exists_six_of_groupMode {queue : List LockRequest} {grantedMode : LockMode}
    (h : groupMode queue grantedMode = .ix ∨ groupMode queue grantedMode = .six)
    (hg : ¬ (grantedMode = .ix ∨ grantedMode = .six)) :
    ∃ r ∈ queue, r.lrMode = .ix ∨ r.lrMode = .six := by
  induction queue generalizing grantedMode with
  | nil => exact absurd h hg
  | cons r queue ih =>
      by_cases hr : r.lrMode = .ix ∨ r.lrMode = .six
      · exact ⟨r, List.mem_cons_self, hr⟩
      · obtain ⟨r', hr', hs⟩ := ih h (lockMax_ne_six hr hg)
        exact ⟨r', List.mem_cons_of_mem r hr', hs⟩

end SolidDB
