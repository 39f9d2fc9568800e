import SolidDB.Dbe.SeqInvariant

/-!
# Runs of sequence operations

Every ordered step keeps the invariant. Two increments that are logged in the other order,
an increment that is neither logged nor undone, and a dense operation that fails after its
value change are what the program does wrong.
-/

namespace SolidDB

variable {cfg : SeqCfg} {s s' : Seqsys} {id trx : ℕ} {f : Seqflight} {oper : Seqoper}

/-! ## The value change -/

theorem SeqInv.lock (h : SeqInv cfg s) (hlock : s.Lockable trx id) :
    SeqInv cfg { s with holder := Function.update s.holder id (some trx) } := by
  have howner {u : ℕ} (hu : s.holder id = some u) : u = trx := by
    rcases hlock with hn | ht
    · exact absurd (hu.symm.trans hn) (Option.some_ne_none u)
    · exact Option.some.inj (hu.symm.trans ht)
  refine ⟨h.busy, h.flight_ids,
    fun i hi hs => (h.sparse i hi hs).congr (fun _ _ => Iff.rfl) rfl rfl fun _ hv => hv,
    fun i hi hd => ?_, h.marked_dense, h.logged_sparse, h.logged_nodup, h.returned_sub⟩
  have hold := h.dense i hi hd
  by_cases hne : i = id
  · subst hne
    refine ⟨hold.recovered, fun hn => ?_, fun f hf hfi => ?_, hold.no_oper, fun t ht => ?_,
      hold.rollback, hold.rollbackvalue, hold.unmarked⟩
    · exact absurd ((Function.update_self i (some trx) s.holder).symm.trans hn)
        (Option.some_ne_none trx)
    · obtain ⟨hholder, hrest⟩ := hold.open_oper f hf hfi
      refine ⟨?_, hrest⟩
      rw [howner hholder]
      exact Function.update_self i (some trx) s.holder
    · rw [howner (hold.marked t ht)]
      exact Function.update_self i (some trx) s.holder
  · exact hold.congr (fun _ _ => Iff.rfl) rfl rfl (Function.update_of_ne hne _ _)
      (fun _ => Iff.rfl) rfl rfl

theorem sameFlight_change (hne : id ≠ f.seqId) (hflight : s'.flight = f :: s.flight) :
    s.SameFlight s' id := by
  intro g hg
  rw [hflight, List.mem_cons]
  refine or_iff_right fun e => hne ?_
  rw [← hg, e]

/-- A value change keeps all but what is said of the changed sequence. -/
theorem SeqInv.change (h : SeqInv cfg s) (hid : id ∈ cfg.ids) (hidle : s.Idle trx)
    (hsparse : cfg.densep id = false → SparseOk (s.change trx id oper) id)
    (hdense : cfg.densep id = true → DenseOk (s.change trx id oper) id) :
    SeqInv cfg (s.change trx id oper) := by
  have hother {i : ℕ} (hi : i ≠ id) : (s.change trx id oper).seq i = s.seq i :=
    Function.update_of_ne hi _ _
  refine ⟨fun f hf g hg htrx => ?_, fun f hf => ?_, fun i hi hs => ?_, fun i hi hd => ?_,
    h.marked_dense, h.logged_sparse, h.logged_nodup, h.returned_sub⟩
  · rcases List.mem_cons.mp hf with rfl | hf
    · rcases List.mem_cons.mp hg with rfl | hg
      · rfl
      · exact absurd htrx.symm (hidle g hg)
    · rcases List.mem_cons.mp hg with rfl | hg
      · exact absurd htrx (hidle f hf)
      · exact h.busy f hf g hg htrx
  · rcases List.mem_cons.mp hf with rfl | hf
    · exact hid
    · exact h.flight_ids f hf
  · by_cases hne : i = id
    · rw [hne]
      exact hsparse (hne ▸ hs)
    · exact (h.sparse i hi hs).congr (sameFlight_change hne rfl) (hother hne) rfl
        fun _ hv => hv
  · by_cases hne : i = id
    · rw [hne]
      exact hdense (hne ▸ hd)
    · exact (h.dense i hi hd).congr (sameFlight_change hne rfl) (hother hne) rfl rfl
        (fun _ => Iff.rfl) rfl rfl

theorem SparseOk.change (h : SparseOk s id) (hwrap : (s.seq id).svValue + 1 < 2 ^ 64) :
    SparseOk (s.change trx id .next) id := by
  have hused : Seqoper.next.apply (s.seq id).svValue = (s.seq id).svValue + 1 :=
    Nat.mod_eq_of_lt hwrap
  have hvalue : ((s.change trx id .next).seq id).svValue = (s.seq id).svValue + 1 := by
    rw [← hused]
    exact congrArg Seqvalue.svValue (Function.update_self id _ s.seq)
  have hold {g : Seqflight} (hg : g ∈ s.flight) (hgi : g.seqId = id) :
      g.used ≤ (s.seq id).svValue := ((h.range g.used).mp ⟨g, hg, hgi, rfl⟩).2
  refine ⟨fun f hf g hg hfi hgi hu => ?_, fun v => ?_, ?_, fun f hf hfi => ?_,
    fun f hf hfi => ?_, h.logged_le, ?_⟩
  · rcases List.mem_cons.mp hf with rfl | hf
    · rcases List.mem_cons.mp hg with rfl | hg
      · rfl
      · exact absurd (hu.symm.trans hused) (Nat.ne_of_lt (Nat.lt_succ_of_le (hold hg hgi)))
    · rcases List.mem_cons.mp hg with rfl | hg
      · exact absurd (hu.trans hused) (Nat.ne_of_lt (Nat.lt_succ_of_le (hold hf hfi)))
      · exact h.inj f hf g hg hfi hgi hu
  · rw [hvalue]
    constructor
    · rintro ⟨g, hg, hgi, rfl⟩
      rcases List.mem_cons.mp hg with rfl | hg
      · change s.recovered id < Seqoper.next.apply (s.seq id).svValue ∧
          Seqoper.next.apply (s.seq id).svValue ≤ _
        rw [hused]
        exact ⟨Nat.lt_succ_of_le h.le, le_refl _⟩
      · obtain ⟨hlt, hle⟩ := (h.range g.used).mp ⟨g, hg, hgi, rfl⟩
        exact ⟨hlt, Nat.le_succ_of_le hle⟩
    · rintro ⟨hlt, hle⟩
      rcases Nat.le_succ_iff.mp hle with hle | rfl
      · obtain ⟨g, hg, hgi, hv⟩ := (h.range v).mpr ⟨hlt, hle⟩
        exact ⟨g, List.mem_cons_of_mem _ hg, hgi, hv⟩
      · exact ⟨_, List.mem_cons_self, rfl, hused⟩
  · rw [hvalue]
    exact Nat.le_succ_of_le h.le
  · rcases List.mem_cons.mp hf with rfl | hf
    · exact hused
    · exact h.used_eq f hf hfi
  · rcases List.mem_cons.mp hf with rfl | hf
    · exact lt_of_eq_of_lt hused hwrap
    · exact h.used_lt f hf hfi
  · exact (congrArg Seqvalue.svIsrollbackvalue (Function.update_self id _ s.seq)).trans h.rollback

theorem DenseOk.change (h : DenseOk s id) (hholder : s.holder id = some trx)
    (hidle : s.Idle trx) : DenseOk (s.change trx id oper) id := by
  have hnone : ∀ f ∈ s.flight, f.seqId ≠ id := fun f hf hfi =>
    hidle f hf (Option.some.inj ((h.open_oper f hf hfi).1.symm.trans hholder))
  have hself : (s.change trx id oper).seq id =
      { s.seq id with svValue := oper.apply (s.seq id).svValue } :=
    Function.update_self id _ s.seq
  refine ⟨h.recovered, fun hn => absurd (hholder.symm.trans hn) (Option.some_ne_none trx),
    fun f hf hfi => ?_, fun hn => absurd rfl (hn _ List.mem_cons_self), h.marked, ?_,
    fun hr => ?_, fun hr => ?_⟩
  · rcases List.mem_cons.mp hf with rfl | hf
    · rw [hself]
      exact ⟨hholder, rfl, h.no_oper hnone, rfl⟩
    · exact absurd hfi (hnone f hf)
  · rw [hself]
    exact h.rollback
  · rw [hself] at hr ⊢
    exact h.rollbackvalue hr
  · rw [hself] at hr
    exact h.unmarked hr

/-! ## The end of an operation -/

theorem sameFlight_land (hne : id ≠ f.seqId) (hflight : s'.flight = s.land f) :
    s.SameFlight s' id := by
  intro g hg
  rw [hflight, Seqsys.mem_land]
  refine and_iff_left fun e => hne ?_
  rw [← hg, e]

/-- The end of an operation keeps all but what is said of its sequence. -/
theorem SeqInv.land (h : SeqInv cfg s) (hflight : s'.flight = s.land f)
    (hother : ∀ i, i ≠ f.seqId → s'.seq i = s.seq i ∧ s'.recovered i = s.recovered i ∧
      s'.pending i = s.pending i ∧ ∀ t, i ∈ s'.trxSeqrbt t ↔ i ∈ s.trxSeqrbt t)
    (hholder : s'.holder = s.holder) (hcommitted : s'.committed = s.committed)
    (hlogged : ∀ i, i ≠ f.seqId → ∀ v, (i, v) ∈ s'.logged → (i, v) ∈ s.logged)
    (hsparse : cfg.densep f.seqId = false → SparseOk s' f.seqId)
    (hdense : cfg.densep f.seqId = true → DenseOk s' f.seqId)
    (hmarked : ∀ t, ∀ i ∈ s'.trxSeqrbt t, cfg.densep i = true)
    (hlogged_sparse : ∀ p ∈ s'.logged, p.1 ∈ cfg.ids ∧ cfg.densep p.1 = false)
    (hnodup : s'.logged.Nodup) (hsub : s'.returned.Sublist s'.logged) : SeqInv cfg s' := by
  have hmem {g : Seqflight} (hg : g ∈ s'.flight) : g ∈ s.flight := by
    rw [hflight, Seqsys.mem_land] at hg
    exact hg.1
  refine ⟨fun g hg g' hg' => h.busy g (hmem hg) g' (hmem hg'),
    fun g hg => h.flight_ids g (hmem hg), fun i hi hs => ?_, fun i hi hd => ?_, hmarked,
    hlogged_sparse, hnodup, hsub⟩
  · by_cases hne : i = f.seqId
    · rw [hne]
      exact hsparse (hne ▸ hs)
    · obtain ⟨hseq, hrec, -, -⟩ := hother i hne
      exact (h.sparse i hi hs).congr (sameFlight_land hne hflight) hseq hrec (hlogged i hne)
  · by_cases hne : i = f.seqId
    · rw [hne]
      exact hdense (hne ▸ hd)
    · obtain ⟨hseq, hrec, hpending, hrbt⟩ := hother i hne
      exact (h.dense i hi hd).congr (sameFlight_land hne hflight) hseq hrec
        (congrFun hholder i) hrbt (congrFun hcommitted i) hpending

theorem SparseOk.logged (h : SparseOk s f.seqId) (hf : f ∈ s.flight)
    (hord : ∀ g ∈ s.flight, g.seqId = f.seqId → f.used ≤ g.used) (setok : Bool) :
    SparseOk (s.sparseEnd f true setok) f.seqId ∧
      (s.sparseEnd f true setok).recovered f.seqId = f.used ∧ s.recovered f.seqId < f.used := by
  obtain ⟨hlt, hle⟩ := (h.range f.used).mp ⟨f, hf, rfl, rfl⟩
  have hused : f.used = s.recovered f.seqId + 1 := by
    obtain ⟨g, hg, hgi, hv⟩ :=
      (h.range (s.recovered f.seqId + 1)).mpr ⟨Nat.lt_succ_self _, Nat.le_trans hlt hle⟩
    exact le_antisymm (hv ▸ hord g hg hgi) hlt
  have hrec : (s.sparseEnd f true setok).recovered f.seqId = f.used := by
    have hinc := @Seqsys.recovered_incctr s (s.sparseEnd f true setok) f.seqId rfl f.seqId rfl
    rw [hinc, if_pos rfl, rsTuplenumInc, ← hused]
    exact Nat.mod_eq_of_lt (h.used_lt f hf rfl)
  refine ⟨⟨fun g hg g' hg' => ?_, fun v => ?_, ?_, fun g hg => ?_, fun g hg => ?_,
    fun v hv => ?_, h.rollback⟩, hrec, hlt⟩
  · exact h.inj g (Seqsys.mem_land.mp hg).1 g' (Seqsys.mem_land.mp hg').1
  · rw [hrec]
    constructor
    · rintro ⟨g, hg, hgi, rfl⟩
      obtain ⟨hg, hne⟩ := Seqsys.mem_land.mp hg
      obtain ⟨-, hgle⟩ := (h.range g.used).mp ⟨g, hg, hgi, rfl⟩
      refine ⟨lt_of_le_of_ne (hord g hg hgi) fun e => hne ?_, hgle⟩
      exact h.inj g hg f hf hgi rfl e.symm
    · rintro ⟨hv, hvle⟩
      obtain ⟨g, hg, hgi, rfl⟩ := (h.range v).mpr ⟨hlt.trans hv, hvle⟩
      refine ⟨g, Seqsys.mem_land.mpr ⟨hg, fun e => ?_⟩, hgi, rfl⟩
      rw [e] at hv
      exact lt_irrefl _ hv
  · rw [hrec]
    exact hle
  · exact h.used_eq g (Seqsys.mem_land.mp hg).1
  · exact h.used_lt g (Seqsys.mem_land.mp hg).1
  · rw [hrec]
    rcases List.mem_cons.mp hv with heq | hv
    · exact (Prod.mk.inj heq).2.le
    · exact (h.logged_le v hv).trans hlt.le

theorem SparseOk.undone (h : SparseOk s f.seqId) (hf : f ∈ s.flight)
    (hord : (s.seq f.seqId).svValue = f.used) (setok : Bool) :
    SparseOk (s.sparseEnd f false setok) f.seqId := by
  obtain ⟨hlt, -⟩ := (h.range f.used).mp ⟨f, hf, rfl, rfl⟩
  have hused := h.used_eq f hf rfl
  have hself : (s.sparseEnd f false setok).seq f.seqId =
      { s.seq f.seqId with svValue := f.saved } := by
    refine (Function.update_self f.seqId _ s.seq).trans ?_
    rw [seqUndo, if_pos hord.symm]
  have hrec : (s.sparseEnd f false setok).recovered f.seqId = s.recovered f.seqId := rfl
  refine ⟨fun g hg g' hg' => ?_, fun v => ?_, ?_, fun g hg => ?_, fun g hg => ?_,
    h.logged_le, ?_⟩
  · exact h.inj g (Seqsys.mem_land.mp hg).1 g' (Seqsys.mem_land.mp hg').1
  · rw [hrec, hself]
    constructor
    · rintro ⟨g, hg, hgi, rfl⟩
      obtain ⟨hg, hne⟩ := Seqsys.mem_land.mp hg
      obtain ⟨hglt, hgle⟩ := (h.range g.used).mp ⟨g, hg, hgi, rfl⟩
      rw [hord] at hgle
      have hneu : g.used ≠ f.used := fun e => hne (h.inj g hg f hf hgi rfl e)
      have hgused := lt_of_le_of_ne hgle hneu
      rw [hused] at hgused
      exact ⟨hglt, Nat.le_of_lt_succ hgused⟩
    · rintro ⟨hv, hvle⟩
      have hvlt : v < f.used := by
        rw [hused]
        exact Nat.lt_succ_of_le hvle
      obtain ⟨g, hg, hgi, rfl⟩ := (h.range v).mpr ⟨hv, hvlt.le.trans hord.ge⟩
      refine ⟨g, Seqsys.mem_land.mpr ⟨hg, fun e => ?_⟩, hgi, rfl⟩
      rw [e] at hvlt
      exact lt_irrefl _ hvlt
  · rw [hused] at hlt
    rw [hrec, hself]
    exact Nat.le_of_lt_succ hlt
  · exact h.used_eq g (Seqsys.mem_land.mp hg).1
  · exact h.used_lt g (Seqsys.mem_land.mp hg).1
  · rw [hself]
    exact h.rollback

theorem SeqInv.sparseEnd (h : SeqInv cfg s) (hf : f ∈ s.flight)
    (hs : cfg.densep f.seqId = false) {logok : Bool} (setok : Bool)
    (hord : (Seqop.sparseEnd f logok setok).Ordered cfg s) :
    SeqInv cfg (s.sparseEnd f logok setok) := by
  have hold := h.sparse f.seqId (h.flight_ids f hf) hs
  have hnot : cfg.densep f.seqId = true → DenseOk (s.sparseEnd f logok setok) f.seqId :=
    fun hd => absurd (hs.symm.trans hd) Bool.false_ne_true
  cases logok with
  | true =>
      obtain ⟨hok, -, hlt⟩ := hold.logged hf hord setok
      have hnew : (f.seqId, f.used) ∉ s.logged := fun hm =>
        absurd (hold.logged_le f.used hm) (Nat.not_le.mpr hlt)
      refine h.land rfl (fun i hi => ⟨rfl, ?_, rfl, fun _ => Iff.rfl⟩) rfl rfl
        (fun i hi v hv => ?_) (fun _ => hok) hnot h.marked_dense (fun p hp => ?_)
        (List.nodup_cons.mpr ⟨hnew, h.logged_nodup⟩) ?_
      · have hinc := @Seqsys.recovered_incctr s (s.sparseEnd f true setok) i rfl f.seqId rfl
        rw [hinc, if_neg hi]
      · rcases List.mem_cons.mp hv with heq | hv
        · exact absurd (Prod.mk.inj heq).1 hi
        · exact hv
      · rcases List.mem_cons.mp hp with rfl | hp
        · exact ⟨h.flight_ids f hf, hs⟩
        · exact h.logged_sparse p hp
      · cases setok with
        | true => exact h.returned_sub.cons_cons _
        | false => exact h.returned_sub.cons _
  | false =>
      exact h.land rfl (fun i hi => ⟨Function.update_of_ne hi _ _, rfl, rfl, fun _ => Iff.rfl⟩)
        rfl rfl (fun _ _ _ hv => hv) (fun _ => hold.undone hf hord setok) hnot h.marked_dense
        h.logged_sparse h.logged_nodup h.returned_sub

theorem SeqInv.flight_unique (h : SeqInv cfg s) (hf : f ∈ s.flight)
    (hd : cfg.densep f.seqId = true) {g : Seqflight} (hg : g ∈ s.flight)
    (hgi : g.seqId = f.seqId) : g = f := by
  have hold := h.dense f.seqId (h.flight_ids f hf) hd
  have hholder := (hold.open_oper f hf rfl).1
  exact h.busy g hg f hf (Option.some.inj ((hold.open_oper g hg hgi).1.symm.trans hholder))

theorem SeqInv.denseOk_denseEnd (h : SeqInv cfg s) (hf : f ∈ s.flight)
    (hd : cfg.densep f.seqId = true) : DenseOk (s.denseEnd f true true) f.seqId := by
  have hold := h.dense f.seqId (h.flight_ids f hf) hd
  obtain ⟨hholder, hvalue, hsaved, hused⟩ := hold.open_oper f hf rfl
  have hnone : ∀ g ∈ (s.denseEnd f true true).flight, g.seqId ≠ f.seqId := by
    intro g hg hgi
    obtain ⟨hg, hne⟩ := Seqsys.mem_land.mp hg
    exact hne (h.flight_unique hf hd hg hgi)
  have hpending : (s.denseEnd f true true).pending f.seqId = f.used := by
    refine (Function.update_self f.seqId _ s.pending).trans ?_
    rw [hused, hsaved]
  have howner {t : ℕ} (ht : f.seqId ∈ s.trxSeqrbt t) : t = f.trx :=
    Option.some.inj ((hold.marked t ht).symm.trans hholder)
  by_cases hmem : f.seqId ∈ s.trxSeqrbt f.trx
  · have hseq : (s.denseEnd f true true).seq = s.seq := if_pos hmem
    have hrbt : (s.denseEnd f true true).trxSeqrbt = s.trxSeqrbt := if_pos hmem
    have hroll := hold.rollback.mpr ⟨f.trx, hmem⟩
    refine ⟨hold.recovered, fun _ => hnone, fun g hg hgi => absurd hgi (hnone g hg),
      fun _ => ?_, fun t ht => ?_, ?_, fun hr => ?_, fun hr => ?_⟩
    · rw [hseq, hpending]
      exact hvalue
    · rw [hrbt] at ht
      exact hold.marked t ht
    · rw [hseq, hrbt]
      exact hold.rollback
    · rw [hseq] at hr ⊢
      exact hold.rollbackvalue hr
    · rw [hseq] at hr
      exact absurd (hr.symm.trans hroll) Bool.false_ne_true
  · have hroll : (s.seq f.seqId).svIsrollbackvalue = false := by
      refine Bool.eq_false_iff.mpr fun hr => hmem ?_
      obtain ⟨t, ht⟩ := hold.rollback.mp hr
      exact howner ht ▸ ht
    have hseq : (s.denseEnd f true true).seq f.seqId =
        { s.seq f.seqId with svIsrollbackvalue := true, svRollbackvalue := f.saved } := by
      have heq : (s.denseEnd f true true).seq =
          Function.update s.seq f.seqId (seqSaverollback (s.seq f.seqId) f.saved) :=
        if_neg hmem
      rw [heq, Function.update_self, seqSaverollback, hroll]
      rfl
    have hrbt : (s.denseEnd f true true).trxSeqrbt =
        Function.update s.trxSeqrbt f.trx (f.seqId :: s.trxSeqrbt f.trx) := if_neg hmem
    have hself : f.seqId ∈ (s.denseEnd f true true).trxSeqrbt f.trx := by
      rw [hrbt, Function.update_self]
      exact List.mem_cons_self
    refine ⟨hold.recovered, fun _ => hnone, fun g hg hgi => absurd hgi (hnone g hg),
      fun _ => ?_, fun t ht => ?_, ?_, fun _ => ?_, fun hr => ?_⟩
    · rw [hseq, hpending]
      exact hvalue
    · rw [hrbt] at ht
      by_cases hne : t = f.trx
      · rw [hne]
        exact hholder
      · rw [Function.update_of_ne hne] at ht
        exact hold.marked t ht
    · rw [hseq]
      exact iff_of_true rfl ⟨f.trx, hself⟩
    · rw [hseq]
      exact hsaved.trans (hold.unmarked hroll)
    · rw [hseq] at hr
      exact absurd hr.symm Bool.false_ne_true

theorem SeqInv.denseEnd (h : SeqInv cfg s) (hf : f ∈ s.flight)
    (hd : cfg.densep f.seqId = true) : SeqInv cfg (s.denseEnd f true true) := by
  have hseq {i : ℕ} (hi : i ≠ f.seqId) : (s.denseEnd f true true).seq i = s.seq i := by
    change (if f.seqId ∈ s.trxSeqrbt f.trx then s.seq
      else Function.update s.seq f.seqId (seqSaverollback (s.seq f.seqId) f.saved)) i = _
    split
    · rfl
    · exact Function.update_of_ne hi _ _
  -- only the sequence of the operation gets a mark
  have hrbt (t i : ℕ) : i ∈ (s.denseEnd f true true).trxSeqrbt t →
      i = f.seqId ∨ i ∈ s.trxSeqrbt t := by
    change i ∈ (if f.seqId ∈ s.trxSeqrbt f.trx then s.trxSeqrbt
      else Function.update s.trxSeqrbt f.trx (f.seqId :: s.trxSeqrbt f.trx)) t → _
    split
    · exact .inr
    · by_cases ht : t = f.trx
      · rw [ht, Function.update_self]
        exact List.mem_cons.mp
      · rw [Function.update_of_ne ht]
        exact .inr
  have hrbt' (t i : ℕ) (hi : i ∈ s.trxSeqrbt t) : i ∈ (s.denseEnd f true true).trxSeqrbt t := by
    change i ∈ (if f.seqId ∈ s.trxSeqrbt f.trx then s.trxSeqrbt
      else Function.update s.trxSeqrbt f.trx (f.seqId :: s.trxSeqrbt f.trx)) t
    split
    · exact hi
    · by_cases ht : t = f.trx
      · rw [ht] at hi
        rw [ht, Function.update_self]
        exact List.mem_cons_of_mem _ hi
      · rw [Function.update_of_ne ht]
        exact hi
  refine h.land rfl (fun i hi => ⟨hseq hi, rfl, Function.update_of_ne hi _ _,
      fun t => ⟨fun hm => (hrbt t i hm).resolve_left hi, hrbt' t i⟩⟩) rfl rfl
    (fun _ _ _ hv => hv) (fun hs => absurd (hs.symm.trans hd) Bool.false_ne_true)
    (fun _ => h.denseOk_denseEnd hf hd) (fun t i hi => ?_) h.logged_sparse h.logged_nodup
    h.returned_sub
  rcases hrbt t i hi with rfl | hi
  · exact hd
  · exact h.marked_dense t i hi

/-! ## The end of a transaction -/

theorem recovered_transend (s : Seqsys) (trx id : ℕ) (commitp logwrites : Bool) :
    (s.transend trx commitp logwrites).recovered id =
      if commitp = true ∧ id ∈ s.trxSeqrbt trx then (s.seq id).svValue
      else s.recovered id := by
  by_cases hlog : (commitp && (logwrites || !(s.trxSeqrbt trx).isEmpty)) = true
  · have hset := @Seqsys.recovered_setseq s (s.transend trx commitp logwrites) id rfl
      (fun i => (s.seq i).svValue) (s.trxSeqrbt trx) (if_pos hlog)
    rw [hset]
    simp only [(Bool.and_eq_true_iff.mp hlog).1, true_and]
  · have hsame : (s.transend trx commitp logwrites).log = s.log := if_neg hlog
    have hnot : ¬ (commitp = true ∧ id ∈ s.trxSeqrbt trx) := by
      rintro ⟨rfl, hmem⟩
      refine hlog ?_
      rw [Bool.true_and, Bool.or_eq_true, Bool.not_eq_true', List.isEmpty_eq_false_iff]
      exact Or.inr (List.ne_nil_of_mem hmem)
    rw [if_neg hnot, Seqsys.recovered, Seqsys.redone, hsame]
    rfl

theorem SeqInv.denseOk_transend (h : SeqInv cfg s) (hid : id ∈ cfg.ids)
    (hd : cfg.densep id = true) (hidle : s.Idle trx) (commitp logwrites : Bool) :
    DenseOk (s.transend trx commitp logwrites) id := by
  have hold := h.dense id hid hd
  by_cases hholder : s.holder id = some trx
  · have hnone : ∀ f ∈ s.flight, f.seqId ≠ id := fun f hf hfi =>
      hidle f hf (Option.some.inj ((hold.open_oper f hf hfi).1.symm.trans hholder))
    have hvalue := hold.no_oper hnone
    have hunmarked (t : ℕ) : id ∉ (s.transend trx commitp logwrites).trxSeqrbt t := by
      change id ∉ Function.update s.trxSeqrbt trx [] t
      by_cases ht : t = trx
      · rw [ht, Function.update_self]
        exact List.not_mem_nil
      · rw [Function.update_of_ne ht]
        exact fun hm => ht (Option.some.inj ((hold.marked t hm).symm.trans hholder))
    have hcommitted : (s.transend trx commitp logwrites).committed id =
        if commitp = true then s.pending id else s.committed id := by
      simp only [Seqsys.transend, hholder, true_and]
    have hpending : (s.transend trx commitp logwrites).pending id =
        if commitp = true then s.pending id else s.committed id := by
      simp only [Seqsys.transend, hholder, true_and]
      cases commitp with
      | true => rfl
      | false => rfl
    -- the value is that of the committed operations
    have hresult : ((s.transend trx commitp logwrites).seq id).svIsrollbackvalue = false ∧
        ((s.transend trx commitp logwrites).seq id).svValue =
          (if commitp = true then s.pending id else s.committed id) ∧
        (s.transend trx commitp logwrites).recovered id =
          if commitp = true then s.pending id else s.committed id := by
      rw [recovered_transend]
      by_cases hmem : id ∈ s.trxSeqrbt trx
      · have hseq : (s.transend trx commitp logwrites).seq id = dbeSeqTransend (s.seq id) commitp :=
          if_pos hmem
        have hroll := hold.rollbackvalue (hold.rollback.mpr ⟨trx, hmem⟩)
        rw [hseq, ← hvalue]
        cases commitp with
        | true => exact ⟨rfl, rfl, if_pos ⟨rfl, hmem⟩⟩
        | false =>
            refine ⟨rfl, hroll, ?_⟩
            rw [if_neg fun hc => absurd hc.1 Bool.false_ne_true]
            exact hold.recovered
      · have hseq : (s.transend trx commitp logwrites).seq id = s.seq id := if_neg hmem
        have hroll : (s.seq id).svIsrollbackvalue = false := by
          refine Bool.eq_false_iff.mpr fun hr => hmem ?_
          obtain ⟨t, ht⟩ := hold.rollback.mp hr
          exact Option.some.inj ((hold.marked t ht).symm.trans hholder) ▸ ht
        have heq := hold.unmarked hroll
        have hnot : ¬ (commitp = true ∧ id ∈ s.trxSeqrbt trx) := fun hc => hmem hc.2
        rw [hseq, if_neg hnot, hvalue, heq, hold.recovered, ite_self]
        exact ⟨hroll, rfl, rfl⟩
    refine ⟨hresult.2.2.trans hcommitted.symm, fun _ => hnone,
      fun f hf hfi => absurd hfi (hnone f hf), fun _ => hresult.2.1.trans hpending.symm,
      fun t ht => absurd ht (hunmarked t), ?_, fun hr => ?_, fun _ => ?_⟩
    · rw [hresult.1]
      exact iff_of_false Bool.false_ne_true fun ⟨t, ht⟩ => hunmarked t ht
    · exact absurd (hresult.1.symm.trans hr) Bool.false_ne_true
    · rw [hpending, hcommitted]
  · have hmem : id ∉ s.trxSeqrbt trx := fun hm => hholder (hold.marked trx hm)
    refine hold.congr (fun _ _ => Iff.rfl) (if_neg hmem) ?_ (if_neg hholder) (fun t => ?_) ?_ ?_
    · rw [recovered_transend, if_neg fun hc => hmem hc.2]
    · change id ∈ Function.update s.trxSeqrbt trx [] t ↔ _
      by_cases ht : t = trx
      · rw [ht, Function.update_self]
        exact iff_of_false List.not_mem_nil hmem
      · rw [Function.update_of_ne ht]
    · exact if_neg fun hc => hholder hc.1
    · exact if_neg fun hc => hholder hc.1

theorem SeqInv.transend (h : SeqInv cfg s) (hidle : s.Idle trx) (commitp logwrites : Bool) :
    SeqInv cfg (s.transend trx commitp logwrites) := by
  refine ⟨h.busy, h.flight_ids, fun i hi hs => ?_,
    fun i hi hd => h.denseOk_transend hi hd hidle commitp logwrites, fun t i hi => ?_,
    h.logged_sparse, h.logged_nodup, h.returned_sub⟩
  · have hmem : i ∉ s.trxSeqrbt trx := fun hm =>
      absurd (hs.symm.trans (h.marked_dense trx i hm)) Bool.false_ne_true
    refine (h.sparse i hi hs).congr (fun _ _ => Iff.rfl) (if_neg hmem) ?_ fun _ hv => hv
    rw [recovered_transend, if_neg fun hc => hmem hc.2]
  · change i ∈ Function.update s.trxSeqrbt trx [] t at hi
    by_cases ht : t = trx
    · rw [ht, Function.update_self] at hi
      exact absurd hi List.not_mem_nil
    · rw [Function.update_of_ne ht] at hi
      exact h.marked_dense t i hi

/-! ## Checkpoints and crashes -/

theorem SparseOk.of_no_flight (hflight : s.flight = []) (hrec : s.recovered id = (s.seq id).svValue)
    (hlogged : ∀ v, (id, v) ∈ s.logged → v ≤ s.recovered id)
    (hroll : (s.seq id).svIsrollbackvalue = false) : SparseOk s id := by
  have hnone (f : Seqflight) : f ∉ s.flight := by
    rw [hflight]
    exact List.not_mem_nil
  refine ⟨fun f hf => absurd hf (hnone f), fun v => ?_, hrec.le, fun f hf => absurd hf (hnone f),
    fun f hf => absurd hf (hnone f), hlogged, hroll⟩
  constructor
  · rintro ⟨f, hf, -⟩
    exact absurd hf (hnone f)
  · rintro ⟨hlt, hle⟩
    rw [hrec] at hlt
    exact absurd hle (Nat.not_le.mpr hlt)

theorem DenseOk.saved (h : DenseOk s id) (hnone : ∀ f ∈ s.flight, f.seqId ≠ id) :
    (s.seq id).saved = s.committed id := by
  unfold Seqvalue.saved
  cases hr : (s.seq id).svIsrollbackvalue with
  | true => exact h.rollbackvalue hr
  | false => exact (h.no_oper hnone).trans (h.unmarked hr)

theorem SeqInv.checkpoint (h : SeqInv cfg s) (hflight : s.flight = []) :
    SeqInv cfg { s with seqlist := dbeSeqSave cfg.ids s.seq, log := [] } := by
  have hnone (f : Seqflight) : f ∉ s.flight := by
    rw [hflight]
    exact List.not_mem_nil
  refine ⟨h.busy, h.flight_ids, fun i hi hs => ?_, fun i hi hd => ?_, h.marked_dense,
    h.logged_sparse, h.logged_nodup, h.returned_sub⟩
  · have hold := h.sparse i hi hs
    have hrec : Seqsys.recovered { s with seqlist := dbeSeqSave cfg.ids s.seq, log := [] } i =
        (s.seq i).svValue := by
      rw [Seqsys.recovered_checkpoint hi, Seqvalue.saved, hold.rollback]
      rfl
    refine SparseOk.of_no_flight hflight hrec (fun v hv => ?_) hold.rollback
    rw [hrec]
    exact (hold.logged_le v hv).trans hold.le
  · have hold := h.dense i hi hd
    refine ⟨?_, hold.free, hold.open_oper, hold.no_oper, hold.marked, hold.rollback,
      hold.rollbackvalue, hold.unmarked⟩
    rw [Seqsys.recovered_checkpoint hi]
    exact hold.saved fun f hf => absurd hf (hnone f)

theorem SeqInv.crash (h : SeqInv cfg s) (hredo : s.ncommits ≠ 0 ∨ s.log = []) :
    SeqInv cfg s.crash := by
  have hrecover := Seqsys.recover_eq_redone hredo
  have hseq (i : ℕ) : s.crash.seq i = s.redone i := congrFun hrecover i
  refine ⟨fun _ hf => absurd hf List.not_mem_nil, fun _ hf => absurd hf List.not_mem_nil,
    fun i hi hs => ?_, fun i hi hd => ?_, fun _ _ hi => absurd hi List.not_mem_nil,
    h.logged_sparse, h.logged_nodup, h.returned_sub⟩
  · refine SparseOk.of_no_flight rfl ?_ (h.sparse i hi hs).logged_le ?_
    · rw [hseq]
      rfl
    · rw [hseq]
      exact svIsrollbackvalue_redone s i
  · have hrec := (h.dense i hi hd).recovered
    have hroll : (s.crash.seq i).svIsrollbackvalue = false := by
      rw [hseq]
      exact svIsrollbackvalue_redone s i
    refine ⟨hrec, fun _ _ hf => absurd hf List.not_mem_nil,
      fun _ hf => absurd hf List.not_mem_nil, fun _ => ?_,
      fun _ ht => absurd ht List.not_mem_nil, ?_, fun hr => ?_, fun _ => rfl⟩
    · rw [hseq]
      exact hrec
    · refine iff_of_false (fun hr => ?_) fun ⟨t, ht⟩ => absurd ht List.not_mem_nil
      exact absurd (hroll.symm.trans hr) Bool.false_ne_true
    · exact absurd (hroll.symm.trans hr) Bool.false_ne_true

/-! ## Runs -/

theorem SeqInv.step {op : Seqop} (h : SeqInv cfg s) (hord : op.Ordered cfg s)
    (hstep : s.step cfg op = some s') : SeqInv cfg s' := by
  cases op with
  | lock trx id =>
      rw [Seqsys.step, Option.ite_none_right_eq_some] at hstep
      obtain ⟨⟨-, -, -, hlock⟩, heq⟩ := hstep
      obtain rfl := Option.some.inj heq
      exact h.lock hlock
  | change trx id oper =>
      rw [Seqsys.step, Option.ite_none_right_eq_some] at hstep
      obtain ⟨⟨hid, hidle⟩, hstep⟩ := hstep
      cases hd : cfg.densep id with
      | true =>
          rw [hd, if_pos rfl, Option.ite_none_right_eq_some] at hstep
          obtain ⟨hlock, heq⟩ := hstep
          obtain rfl := Option.some.inj heq
          have hlocked := h.lock hlock
          refine hlocked.change hid hidle (fun hs => ?_) fun _ => ?_
          · exact absurd (hs.symm.trans hd) Bool.false_ne_true
          · exact (hlocked.dense id hid hd).change (Function.update_self id _ s.holder) hidle
      | false =>
          rw [hd, if_neg Bool.false_ne_true, Option.ite_none_right_eq_some] at hstep
          obtain ⟨hoper, heq⟩ := hstep
          obtain rfl := Option.some.inj heq
          have hwrap := hord.resolve_left fun hd' => absurd (hd.symm.trans hd') Bool.false_ne_true
          refine h.change hid hidle (fun hs => (h.sparse id hid hs).change hwrap) fun hd' => ?_
          exact absurd (hd.symm.trans hd') Bool.false_ne_true
  | sparseEnd f logok setok =>
      rw [Seqsys.step, Option.ite_none_right_eq_some] at hstep
      obtain ⟨⟨hf, hs⟩, heq⟩ := hstep
      obtain rfl := Option.some.inj heq
      exact h.sparseEnd hf (Bool.not_eq_true' _ |>.mp hs) setok hord
  | denseEnd f markok setok =>
      rw [Seqsys.step, Option.ite_none_right_eq_some] at hstep
      obtain ⟨⟨hf, hd⟩, heq⟩ := hstep
      obtain rfl := Option.some.inj heq
      obtain ⟨rfl, rfl⟩ : markok = true ∧ setok = true := hord
      exact h.denseEnd hf hd
  | transend trx commitp logwrites =>
      rw [Seqsys.step, Option.ite_none_right_eq_some] at hstep
      obtain ⟨hidle, heq⟩ := hstep
      obtain rfl := Option.some.inj heq
      exact h.transend hidle commitp logwrites
  | checkpoint =>
      rw [Seqsys.step, Option.ite_none_right_eq_some] at hstep
      obtain ⟨hflight, heq⟩ := hstep
      obtain rfl := Option.some.inj heq
      exact h.checkpoint hflight
  | crash =>
      obtain rfl := Option.some.inj hstep
      exact h.crash hord

theorem Seqsys.OrderedReachable.inv (h : Seqsys.OrderedReachable cfg s) : SeqInv cfg s := by
  induction h with
  | init value => exact seqInv_init cfg value
  | step _ hord hstep ih => exact ih.step hord hstep

end SolidDB
