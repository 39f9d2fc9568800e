import SolidDB.Dbe.TrxbufClean

/-!
# The fate of keys over whole runs

In every run that keeps to `GobjOp.Ordered` the buffer reports of every key in the index
what became of it, in both modes. The runs at the end are the two that the condition
leaves out.
-/

namespace SolidDB

open Gtrs

variable {cfg : GtrsCfg} {s s' : Gobj}

/-- Without `tb_usevisiblealltrxid` a validation begins only when the next commit number is
above the maximum. With it a statement is aborted during a merge only if a commit number has
been taken since the merge started, or the merge has all its keys before it. -/
def GobjOp.Ordered (cfg : GtrsCfg) (s : Gobj) : GobjOp → Prop
  | .gate op => cfg.mergecleanup = false → op.NumberOrdered cfg s.goGtrs
  | .abortstmt x => cfg.mergecleanup = true → match s.goIndmerge with
    | some m => s.MayAbort m x
    | none => True
  | _ => True

instance (s : Gobj) (m : Indmerge) (x : ℕ) : Decidable (s.MayAbort m x) :=
  inferInstanceAs (Decidable (_ ∨ _ ∨ ∀ k ∈ s.goKeys, _))

instance (cfg : GtrsCfg) (s : Gobj) (op : GobjOp) : Decidable (op.Ordered cfg s) :=
  match op with
  | .gate op =>
    inferInstanceAs (Decidable (cfg.mergecleanup = false → op.NumberOrdered cfg s.goGtrs))
  | .abortstmt x => match h : s.goIndmerge with
    | some m => decidable_of_iff (cfg.mergecleanup = true → s.MayAbort m x) (by
        rw [GobjOp.Ordered, h])
    | none => .isTrue (by
        rw [GobjOp.Ordered, h]
        exact fun _ => trivial)
  | .stmtbegin _ => .isTrue trivial
  | .addstmt _ => .isTrue trivial
  | .insertkey _ => .isTrue trivial
  | .mergestart _ => .isTrue trivial
  | .meetkey _ => .isTrue trivial
  | .cleanslot => .isTrue trivial
  | .mergestop => .isTrue trivial
  | .mergecleanslot _ _ => .isTrue trivial

def Gobj.orderedRun (cfg : GtrsCfg) : Gobj → List GobjOp → Option Gobj
  | s, [] => some s
  | s, op :: ops =>
    if op.Ordered cfg s then (s.step cfg op).bind fun s' => Gobj.orderedRun cfg s' ops
    else none

inductive Gobj.Reachable (cfg : GtrsCfg) : Gobj → Prop where
  | init (ctr : DbeCounter) (tablesize : ℕ) (h : ctr.ctrMergetrxnum ≤ ctr.ctrMaxtrxnum) :
      Gobj.Reachable cfg (gobjInit cfg ctr tablesize)
  | step {s s' : Gobj} {op : GobjOp} (h : Gobj.Reachable cfg s)
      (hstep : s.step cfg op = some s') : Gobj.Reachable cfg s'

inductive Gobj.OrderedReachable (cfg : GtrsCfg) : Gobj → Prop where
  | init (ctr : DbeCounter) (tablesize : ℕ) (h : ctr.ctrMergetrxnum ≤ ctr.ctrMaxtrxnum) :
      Gobj.OrderedReachable cfg (gobjInit cfg ctr tablesize)
  | step {s s' : Gobj} {op : GobjOp} (h : Gobj.OrderedReachable cfg s)
      (hord : op.Ordered cfg s) (hstep : s.step cfg op = some s') :
      Gobj.OrderedReachable cfg s'

def GobjSafe (cfg : GtrsCfg) (s : Gobj) : Prop :=
  GobjInv cfg s ∧ ∀ m, s.goIndmerge = some m → MergeInv cfg s m

theorem gobjInv_gobjInit (cfg : GtrsCfg) {ctr : DbeCounter} (tablesize : ℕ)
    (h : ctr.ctrMergetrxnum ≤ ctr.ctrMaxtrxnum) :
    GobjInv cfg (gobjInit cfg ctr tablesize) where
  gate := gtrsInv_dbeGtrsInit cfg h
  numbers _ := numbersAbove_dbeGtrsInit ctr
  mode := rfl
  unique _ := List.nodup_nil
  added _ _ hts := absurd hts List.not_mem_nil
  added_le _ hx := absurd hx List.not_mem_nil
  aborted_added _ hx := absurd hx List.not_mem_nil
  owner_le x := le_refl x
  active_user _ ht := absurd ht List.not_mem_nil
  entry _ ts hts := absurd hts.symm (Option.some_ne_none ts)
  open_entry _ hx := absurd hx List.not_mem_nil
  key_added _ hk := absurd hk List.not_mem_nil
  key_user _ hk := absurd hk List.not_mem_nil
  key_mtable _ hk := absurd hk List.not_mem_nil
  key_lost _ hk := absurd hk List.not_mem_nil

theorem GobjSafe.step (h : GobjSafe cfg s) {op : GobjOp} (hord : op.Ordered cfg s)
    (hstep : s.step cfg op = some s') : GobjSafe cfg s' := by
  obtain ⟨hinv, hmerge⟩ := h
  cases op with
  | gate op =>
      rw [Gobj.step, Option.ite_none_right_eq_some] at hstep
      obtain ⟨hcall, hmap⟩ := hstep
      obtain ⟨g, hgate, rfl⟩ := Option.map_eq_some_iff.mp hmap
      obtain ⟨a, ha⟩ := gateTrxbuf_eq cfg s op
      rw [ha]
      exact ⟨hinv.setGate hgate hord, fun m hm => (hmerge m hm).setGate hinv hcall hgate⟩
  | stmtbegin t =>
      obtain ⟨hact, rfl⟩ := guard_of_eq_some hstep
      exact ⟨hinv.stmtbegin hact, fun m hm => (hmerge m hm).stmtbegin t⟩
  | addstmt x =>
      obtain ⟨⟨hle, hnot⟩, rfl⟩ := guard_of_eq_some hstep
      exact ⟨hinv.addstmt hle hnot, fun m hm => (hmerge m hm).addstmt hinv hnot⟩
  | abortstmt x =>
      obtain ⟨⟨hadded, -, hact⟩, rfl⟩ := guard_of_eq_some hstep
      refine ⟨hinv.abortstmt hadded hact, fun m hm => (hmerge m hm).abortstmt fun hmode => ?_⟩
      have hm' : s.goIndmerge = some m := hm
      rw [GobjOp.Ordered, hm'] at hord
      exact hord hmode
  | insertkey k =>
      obtain ⟨⟨-, hadded, hopen, hact, -⟩, rfl⟩ := guard_of_eq_some hstep
      exact ⟨hinv.insertkey hadded hopen hact,
        fun m hm => (hmerge m hm).insertkey hinv hopen hact⟩
  | mergestart patchtrxnum =>
      obtain ⟨⟨-, hle⟩, rfl⟩ := guard_of_eq_some hstep
      refine ⟨hinv.keys_subset fun k hk => hk, fun m hm => ?_⟩
      obtain rfl := Option.some.inj hm
      exact hinv.mergestart hle
  | meetkey k =>
      rw [Gobj.step] at hstep
      split at hstep
      · rename_i m hm
        obtain ⟨-, rfl⟩ := guard_of_eq_some hstep
        refine ⟨hinv.keys_subset (goKeys_meetkey_subset s m k), fun m' hm' => ?_⟩
        obtain rfl := Option.some.inj hm'
        exact (hmerge m hm).meetkey k
      · exact absurd hstep.symm (Option.some_ne_none s')
  | cleanslot =>
      rw [Gobj.step] at hstep
      split at hstep
      · rename_i m hm
        obtain ⟨⟨hunmet, -⟩, rfl⟩ := guard_of_eq_some hstep
        refine ⟨hinv.clean fun k hk ts hts => (hmerge m hm).lost_of_remove hinv hunmet hk hts,
          fun m' hm' => ?_⟩
        obtain rfl := Option.some.inj hm'
        exact (hmerge m hm).clean hinv (m.imSlot + 1)
      · exact absurd hstep.symm (Option.some_ne_none s')
  | mergestop =>
      obtain rfl := Option.some.inj hstep
      exact ⟨hinv.keys_subset fun k hk => hk, fun m hm => absurd hm.symm (Option.some_ne_none m)⟩
  | mergecleanslot cleantrxnum i =>
      obtain ⟨⟨hmode, -⟩, rfl⟩ := guard_of_eq_some hstep
      exact ⟨hinv.clean fun k hk ts hts => hinv.lost_of_remove hmode hk hts,
        fun m hm => (hmerge m hm).clean hinv m.imSlot⟩

theorem Gobj.OrderedReachable.safe (h : OrderedReachable cfg s) : GobjSafe cfg s := by
  induction h with
  | init ctr tablesize h =>
      exact ⟨gobjInv_gobjInit cfg tablesize h, fun m hm => absurd hm.symm (Option.some_ne_none m)⟩
  | step h hord hstep ih => exact ih.step hord hstep

theorem Gobj.Reachable.run {ops : List GobjOp} (h : Reachable cfg s)
    (hrun : s.run cfg ops = some s') : Reachable cfg s' := by
  induction ops generalizing s with
  | nil =>
      obtain rfl := Option.some.inj hrun
      exact h
  | cons op ops ih =>
      obtain ⟨s₁, hstep, hrest⟩ := Option.bind_eq_some_iff.mp hrun
      exact ih (h.step hstep) hrest

theorem Gobj.OrderedReachable.orderedRun {ops : List GobjOp} (h : OrderedReachable cfg s)
    (hrun : s.orderedRun cfg ops = some s') : OrderedReachable cfg s' := by
  induction ops generalizing s with
  | nil =>
      obtain rfl := Option.some.inj hrun
      exact h
  | cons op ops ih =>
      rw [Gobj.orderedRun, Option.ite_none_right_eq_some] at hrun
      obtain ⟨s₁, hstep, hrest⟩ := Option.bind_eq_some_iff.mp hrun.2
      exact ih (h.step hrun.1 hstep) hrest

/-- In every state of an ordered run the buffer reports what became of each key. -/
theorem orderedReachable_fateKept (h : Gobj.OrderedReachable cfg s) : s.FateKept :=
  h.safe.1.fateKept

/-- A statement is aborted while a merge runs, after a third transaction has begun its
validation, and the merge ends; the key of the statement stays, and is reported aborted. -/
theorem orderedReachable_fateKept_abortstmt :
    ∃ s, Gobj.OrderedReachable ⟨true, true, false⟩ s ∧ s.FateKept ∧ s.goKeys = [⟨0, 2⟩] ∧
      (s.trxstate 2).1 = .abort := by
  have hrun := @Gobj.OrderedReachable.orderedRun _ _ _
    ([.gate .begintrx, .stmtbegin 1, .addstmt 2, .insertkey ⟨0, 2⟩, .gate .begintrx,
      .gate (.getnewreadlevel 3 true), .gate (.beginvalidate 3),
      .gate (.endtrx ⟨3, true, true, 0, true, 0, 100⟩), .mergestart 4, .meetkey ⟨0, 2⟩,
      .gate .begintrx, .gate (.getnewreadlevel 5 true), .gate (.beginvalidate 5),
      .abortstmt 2] ++ List.replicate 16 .cleanslot ++ [.mergestop])
    (@Gobj.OrderedReachable.init ⟨true, true, false⟩ dbeCounterInit 1000 (by decide)) rfl
  exact ⟨_, hrun, orderedReachable_fateKept hrun, rfl, rfl⟩

/-- A statement is aborted during a merge and no commit number has been taken since its start:
the merge has its entry removed, and the key that it met before is reported committed. In a
new database of the other mode a transaction commits at the maximum during a merge, and
its key is reported aborted. -/
theorem not_fateKept :
    (∃ s, Gobj.Reachable ⟨true, true, false⟩ s ∧ ⟨0, 2⟩ ∈ s.goKeys ∧ 2 ∈ s.goAborted ∧
      (s.trxstate 2).1 = .commit ∧ ¬ s.FateKept) ∧
    ∃ s, Gobj.Reachable ⟨false, true, false⟩ s ∧ ⟨0, 1⟩ ∈ s.goKeys ∧ s.Committed 1 ∧
      (s.trxstate 1).1 = .abort ∧ ¬ s.FateKept := by
  constructor
  · have hrun := @Gobj.Reachable.run _ _ _
      ([.gate .begintrx, .stmtbegin 1, .addstmt 2, .insertkey ⟨0, 2⟩, .gate .begintrx,
        .gate (.getnewreadlevel 3 true), .gate (.beginvalidate 3),
        .gate (.endtrx ⟨3, true, true, 0, true, 0, 100⟩), .mergestart 4, .meetkey ⟨0, 2⟩,
        .abortstmt 2] ++ List.replicate 16 .cleanslot ++ [.mergestop])
      (@Gobj.Reachable.init ⟨true, true, false⟩ dbeCounterInit 1000 (by decide)) rfl
    refine ⟨_, hrun, List.mem_singleton.mpr rfl, List.mem_singleton.mpr rfl, rfl, fun h => ?_⟩
    exact ((h ⟨0, 2⟩ (List.mem_singleton.mpr rfl)).1 rfl).2 (List.mem_singleton.mpr rfl)
  · have hrun := @Gobj.Reachable.run _ _ _
      ([.gate .begintrx, .gate (.getnewreadlevel 1 true), .addstmt 1, .insertkey ⟨0, 1⟩,
        .mergestart 1, .meetkey ⟨0, 1⟩, .gate (.beginvalidate 1),
        .gate (.endtrx ⟨1, true, true, 0, true, 0, 100⟩)] ++ List.replicate 16 .cleanslot ++
        [.mergestop])
      (@Gobj.Reachable.init ⟨false, true, false⟩ dbeCounterInit 1000 (by decide)) rfl
    refine ⟨_, hrun, List.mem_singleton.mpr rfl, ⟨rfl, List.not_mem_nil⟩, rfl, fun h => ?_⟩
    rcases (h ⟨0, 1⟩ (List.mem_singleton.mpr rfl)).2 rfl with habort | hmem
    · exact TrxState.noConfusion habort
    · exact List.not_mem_nil hmem

end SolidDB
