import SolidDB.Dbe.Seq
import Mathlib.Data.List.Nodup
import Mathlib.Data.List.Sublists

/-!
# The invariant of the sequences

The open increments of a sparse sequence are the values between the one that a recovery
gives and the current one. A dense sequence belongs to the holder of its lock, and what
the holder has not committed stands between the rollback value and the current one.
-/

namespace SolidDB

variable {cfg : SeqCfg} {s s' : Seqsys} {id trx : ℕ} {f : Seqflight}

/-! ## Recovery -/

/-- The records set the values of the sequences that they name. -/
theorem svValue_foldl_update (st : Seqvalue → ℕ → Seqvalue)
    (hst : ∀ sv w, (st sv w).svValue = w) (v : ℕ → ℕ) (ids : List ℕ) (seq : ℕ → Seqvalue)
    (id : ℕ) :
    ((ids.map fun i => (i, v i)).foldl
      (fun seq p => Function.update seq p.1 (st (seq p.1) p.2)) seq id).svValue =
        if id ∈ ids then v id else (seq id).svValue := by
  induction ids generalizing seq with
  | nil => rfl
  | cons i ids ih =>
      rw [List.map_cons, List.foldl_cons, ih]
      by_cases hmem : id ∈ ids
      · rw [if_pos hmem, if_pos (List.mem_cons_of_mem i hmem)]
      · rw [if_neg hmem]
        by_cases hid : id = i
        · rw [hid, Function.update_self, hst, if_pos List.mem_cons_self]
        · rw [Function.update_of_ne hid, if_neg (List.not_mem_cons_of_ne_of_not_mem hid hmem)]

theorem svIsrollbackvalue_foldl_update (st : Seqvalue → ℕ → Seqvalue)
    (hst : ∀ sv w, sv.svIsrollbackvalue = false → (st sv w).svIsrollbackvalue = false)
    (values : List (ℕ × ℕ)) {seq : ℕ → Seqvalue}
    (hseq : ∀ id, (seq id).svIsrollbackvalue = false) (id : ℕ) :
    (values.foldl (fun seq p => Function.update seq p.1 (st (seq p.1) p.2)) seq
      id).svIsrollbackvalue = false := by
  induction values generalizing seq with
  | nil => exact hseq id
  | cons p values ih =>
      rw [List.foldl_cons]
      refine ih fun i => ?_
      by_cases hi : i = p.1
      · rw [hi, Function.update_self]
        exact hst _ _ (hseq p.1)
      · rw [Function.update_of_ne hi]
        exact hseq i

theorem svValue_dbeSeqRestore (v : ℕ → ℕ) {ids : List ℕ} (hid : id ∈ ids) :
    (dbeSeqRestore (ids.map fun i => (i, v i)) id).svValue = v id :=
  (svValue_foldl_update (fun _ w => ⟨w, 0, false⟩) (fun _ _ => rfl) v ids _ id).trans
    (if_pos hid)

theorem svIsrollbackvalue_redone (s : Seqsys) (id : ℕ) :
    (s.redone id).svIsrollbackvalue = false := by
  have hredo (log : List SeqLogrec) : ∀ (seq : ℕ → Seqvalue),
      (∀ id, (seq id).svIsrollbackvalue = false) →
        ∀ id, (log.foldl seqRedo seq id).svIsrollbackvalue = false := by
    induction log with
    | nil => exact fun _ hseq => hseq
    | cons r log ih =>
        intro seq hseq
        refine ih _ fun i => ?_
        cases r with
        | incctr j =>
            rw [seqRedo]
            by_cases hi : i = j
            · rw [hi, Function.update_self]
              exact hseq j
            · rw [Function.update_of_ne hi]
              exact hseq i
        | setseq values =>
            exact svIsrollbackvalue_foldl_update dbeSeqSetvalue (fun _ _ h => h) values hseq i
  exact hredo s.log _ (svIsrollbackvalue_foldl_update (fun _ w => ⟨w, 0, false⟩)
    (fun _ _ _ => rfl) s.seqlist fun _ => rfl) id

namespace Seqsys

def recovered (s : Seqsys) (id : ℕ) : ℕ := (s.redone id).svValue

theorem recover_eq_redone (h : s.ncommits ≠ 0 ∨ s.log = []) : s.recover = s.redone := by
  rw [recover]
  rcases h with hcommit | hlog
  · exact if_pos hcommit
  · rw [redone, hlog]
    exact ite_self _

theorem recovered_incctr (hlist : s'.seqlist = s.seqlist) {j : ℕ}
    (hlog : s'.log = s.log ++ [.incctr j]) :
    s'.recovered id = if id = j then rsTuplenumInc (s.recovered id) else s.recovered id := by
  rw [recovered, redone, hlist, hlog, List.foldl_append]
  change (Function.update s.redone j (dbeSeqInc (s.redone j)) id).svValue = _
  by_cases hid : id = j
  · rw [if_pos hid, hid, Function.update_self]
    rfl
  · rw [if_neg hid, Function.update_of_ne hid]
    rfl

theorem recovered_setseq (hlist : s'.seqlist = s.seqlist) {v : ℕ → ℕ} {ids : List ℕ}
    (hlog : s'.log = s.log ++ [.setseq (ids.map fun i => (i, v i))]) :
    s'.recovered id = if id ∈ ids then v id else s.recovered id := by
  rw [recovered, redone, hlist, hlog, List.foldl_append]
  exact svValue_foldl_update dbeSeqSetvalue (fun _ _ => rfl) v ids s.redone id

theorem recovered_checkpoint (hid : id ∈ cfg.ids) :
    Seqsys.recovered { s with seqlist := dbeSeqSave cfg.ids s.seq, log := [] } id =
      (s.seq id).saved :=
  svValue_dbeSeqRestore (fun i => (s.seq i).saved) hid

theorem mem_land {g : Seqflight} : g ∈ s.land f ↔ g ∈ s.flight ∧ g ≠ f := by
  rw [land, List.mem_filter, decide_eq_true_iff]

end Seqsys

/-! ## The invariant -/

structure SparseOk (s : Seqsys) (id : ℕ) : Prop where
  inj : ∀ f ∈ s.flight, ∀ g ∈ s.flight, f.seqId = id → g.seqId = id → f.used = g.used → f = g
  range : ∀ v, (∃ f ∈ s.flight, f.seqId = id ∧ f.used = v) ↔
    s.recovered id < v ∧ v ≤ (s.seq id).svValue
  le : s.recovered id ≤ (s.seq id).svValue
  used_eq : ∀ f ∈ s.flight, f.seqId = id → f.used = f.saved + 1
  used_lt : ∀ f ∈ s.flight, f.seqId = id → f.used < 2 ^ 64
  logged_le : ∀ v, (id, v) ∈ s.logged → v ≤ s.recovered id
  rollback : (s.seq id).svIsrollbackvalue = false

structure DenseOk (s : Seqsys) (id : ℕ) : Prop where
  recovered : s.recovered id = s.committed id
  free : s.holder id = none → ∀ f ∈ s.flight, f.seqId ≠ id
  open_oper : ∀ f ∈ s.flight, f.seqId = id → s.holder id = some f.trx ∧
    (s.seq id).svValue = f.used ∧ f.saved = s.pending id ∧ f.used = f.oper.apply f.saved
  no_oper : (∀ f ∈ s.flight, f.seqId ≠ id) → (s.seq id).svValue = s.pending id
  marked : ∀ t, id ∈ s.trxSeqrbt t → s.holder id = some t
  rollback : (s.seq id).svIsrollbackvalue = true ↔ ∃ t, id ∈ s.trxSeqrbt t
  rollbackvalue : (s.seq id).svIsrollbackvalue = true →
    (s.seq id).svRollbackvalue = s.committed id
  unmarked : (s.seq id).svIsrollbackvalue = false → s.pending id = s.committed id

structure SeqInv (cfg : SeqCfg) (s : Seqsys) : Prop where
  busy : ∀ f ∈ s.flight, ∀ g ∈ s.flight, f.trx = g.trx → f = g
  flight_ids : ∀ f ∈ s.flight, f.seqId ∈ cfg.ids
  sparse : ∀ id ∈ cfg.ids, cfg.densep id = false → SparseOk s id
  dense : ∀ id ∈ cfg.ids, cfg.densep id = true → DenseOk s id
  marked_dense : ∀ t, ∀ id ∈ s.trxSeqrbt t, cfg.densep id = true
  logged_sparse : ∀ p ∈ s.logged, p.1 ∈ cfg.ids ∧ cfg.densep p.1 = false
  logged_nodup : s.logged.Nodup
  returned_sub : s.returned.Sublist s.logged

def Seqsys.SameFlight (s s' : Seqsys) (id : ℕ) : Prop :=
  ∀ f : Seqflight, f.seqId = id → (f ∈ s'.flight ↔ f ∈ s.flight)

theorem SparseOk.congr (h : SparseOk s id) (hflight : s.SameFlight s' id)
    (hseq : s'.seq id = s.seq id) (hrec : s'.recovered id = s.recovered id)
    (hlogged : ∀ v, (id, v) ∈ s'.logged → (id, v) ∈ s.logged) : SparseOk s' id where
  inj f hf g hg hfi hgi :=
    h.inj f ((hflight f hfi).mp hf) g ((hflight g hgi).mp hg) hfi hgi
  range v := by
    rw [hseq, hrec, ← h.range v]
    constructor
    · rintro ⟨f, hf, hfi, hv⟩
      exact ⟨f, (hflight f hfi).mp hf, hfi, hv⟩
    · rintro ⟨f, hf, hfi, hv⟩
      exact ⟨f, (hflight f hfi).mpr hf, hfi, hv⟩
  le := by
    rw [hseq, hrec]
    exact h.le
  used_eq f hf hfi := h.used_eq f ((hflight f hfi).mp hf) hfi
  used_lt f hf hfi := h.used_lt f ((hflight f hfi).mp hf) hfi
  logged_le v hv := by
    rw [hrec]
    exact h.logged_le v (hlogged v hv)
  rollback := by
    rw [hseq]
    exact h.rollback

theorem Seqsys.SameFlight.none (h : s.SameFlight s' id)
    (hnone : ∀ f ∈ s'.flight, f.seqId ≠ id) : ∀ f ∈ s.flight, f.seqId ≠ id :=
  fun f hf hfi => hnone f ((h f hfi).mpr hf) hfi

theorem DenseOk.congr (h : DenseOk s id) (hflight : s.SameFlight s' id)
    (hseq : s'.seq id = s.seq id) (hrec : s'.recovered id = s.recovered id)
    (hholder : s'.holder id = s.holder id)
    (hmarked : ∀ t, id ∈ s'.trxSeqrbt t ↔ id ∈ s.trxSeqrbt t)
    (hcommitted : s'.committed id = s.committed id) (hpending : s'.pending id = s.pending id) :
    DenseOk s' id where
  recovered := by
    rw [hrec, hcommitted]
    exact h.recovered
  free hn f hf hfi := h.free (hholder.symm.trans hn) f ((hflight f hfi).mp hf) hfi
  open_oper f hf hfi := by
    rw [hholder, hseq, hpending]
    exact h.open_oper f ((hflight f hfi).mp hf) hfi
  no_oper hn := by
    rw [hseq, hpending]
    exact h.no_oper (hflight.none hn)
  marked t ht := by
    rw [hholder]
    exact h.marked t ((hmarked t).mp ht)
  rollback := by
    rw [hseq, h.rollback]
    exact exists_congr fun t => (hmarked t).symm
  rollbackvalue hr := by
    rw [hseq] at hr ⊢
    rw [hcommitted]
    exact h.rollbackvalue hr
  unmarked hr := by
    rw [hseq] at hr
    rw [hpending, hcommitted]
    exact h.unmarked hr

theorem seqInv_init (cfg : SeqCfg) (value : ℕ → ℕ) : SeqInv cfg (Seqsys.init cfg value) := by
  have hrec {id : ℕ} (hid : id ∈ cfg.ids) : (Seqsys.init cfg value).recovered id = value id :=
    svValue_dbeSeqRestore value hid
  refine ⟨fun _ hf => absurd hf List.not_mem_nil, fun _ hf => absurd hf List.not_mem_nil,
    fun id hid _ => ?_, fun id hid _ => ?_, fun _ _ hid => absurd hid List.not_mem_nil,
    fun _ hp => absurd hp List.not_mem_nil, List.nodup_nil, List.Sublist.refl _⟩
  · refine ⟨fun _ hf => absurd hf List.not_mem_nil, fun v => ?_, (hrec hid).le,
      fun _ hf => absurd hf List.not_mem_nil, fun _ hf => absurd hf List.not_mem_nil,
      fun _ hv => absurd hv List.not_mem_nil, rfl⟩
    rw [hrec hid]
    constructor
    · rintro ⟨f, hf, -⟩
      exact absurd hf List.not_mem_nil
    · rintro ⟨hlt, hle⟩
      exact absurd hle (Nat.not_le.mpr hlt)
  · refine ⟨hrec hid, fun _ _ hf => absurd hf List.not_mem_nil,
      fun _ hf => absurd hf List.not_mem_nil, fun _ => rfl,
      fun _ ht => absurd ht List.not_mem_nil, ?_, fun hr => absurd hr Bool.false_ne_true,
      fun _ => rfl⟩
    constructor
    · exact fun hr => absurd hr Bool.false_ne_true
    · rintro ⟨t, ht⟩
      exact absurd ht List.not_mem_nil

end SolidDB
