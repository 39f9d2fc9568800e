import SolidDB.Dbe.TrxbufRestore

/-!
# The buffer across a checkpoint

A buffer is reached by transactions that begin, add their statements, end and are cleaned
away, by checkpoints and by restarts. The restore of a saved buffer always has the fate of
every saved statement. The save itself is without trace unless a committed transaction
info has a flag, since `dbe_trxinfo_setsaved` and `dbe_trxinfo_setcommitted` assign the
bare state.
-/

namespace SolidDB

/-! ## Reachable buffers -/

inductive TrxinfoChange where
  | setbegin
  | setvalidate
  | setcommitted
  | setaborted
  | settobeaborted
  | setunknown
  | setopenddop
  | setcanremovereadlevel
  | clearcanremovereadlevel
  | setmtabletrx
  | maxtrxnum (n : ℕ)
  | committrxnum (n : ℕ)

def TrxinfoChange.apply : TrxinfoChange → TrxinfoMem → TrxinfoMem
  | .setbegin, ti => ti.setbegin
  | .setvalidate, ti => ti.setvalidate
  | .setcommitted, ti => ti.setcommitted
  | .setaborted, ti => ti.setaborted
  | .settobeaborted, ti => ti.settobeaborted
  | .setunknown, ti => ti.setunknown
  | .setopenddop, ti => ti.setopenddop
  | .setcanremovereadlevel, ti => ti.setcanremovereadlevel
  | .clearcanremovereadlevel, ti => ti.clearcanremovereadlevel
  | .setmtabletrx, ti => ti.setmtabletrx
  | .maxtrxnum n, ti => { ti with tiMaxtrxnum := n }
  | .committrxnum n, ti => { ti with tiCommittrxnum := n }

def settrxinfo (stmttrxid i : ℕ) : List TrxstmtMem → List TrxstmtMem
  | [] => []
  | ts :: rest =>
    if ts.tsStmttrxid = stmttrxid then ⟨stmttrxid, i⟩ :: rest
    else ts :: settrxinfo stmttrxid i rest

namespace TrxbufMem

def retarget (tb : TrxbufMem) (stmttrxid i : ℕ) : TrxbufMem :=
  let index := tb.getbufslot stmttrxid
  { tb with
    tbTbslottable := Function.update tb.tbTbslottable index
      (settrxinfo stmttrxid i (tb.tbTbslottable index)) }

def abortstmt (tb : TrxbufMem) (aborttrxnum stmttrxid : ℕ) : TrxbufMem :=
  match tb.gettrxinfo stmttrxid with
  | none => tb
  | some i =>
    let tb' := if (tb.tbInfos i).istobeaborted then tb.modify i TrxinfoMem.setbegin else tb
    let ti := { TrxinfoMem.initbuf with
      tiUsertrxid := stmttrxid, tiCommittrxnum := aborttrxnum }.setaborted
    (tb'.newinfo ti).retarget stmttrxid tb'.tbNinfos

/-- `dbe_trxbuf_clean`, `dbe_trxbuf_cleanuncommitted` and `dbe_trxbuf_removemarked` take
entries out of the slots. -/
def remove (tb : TrxbufMem) (keep : TrxstmtMem → Bool) : TrxbufMem :=
  { tb with tbTbslottable := fun i => (tb.tbTbslottable i).filter keep }

def Fresh (tb : TrxbufMem) (trxid : ℕ) : Prop :=
  (∀ ts ∈ tb.entries, ts.tsStmttrxid ≠ trxid) ∧
    ∀ i < tb.tbNinfos, (tb.tbInfos i).tiUsertrxid ≠ trxid

inductive Reachable : TrxbufMem → Prop where
  | init (tablesize : ℕ) (visall : Bool) : Reachable (init tablesize visall)
  | begintrx {tb : TrxbufMem} (h : Reachable tb) (trxid : ℕ) (hfresh : tb.Fresh trxid) :
      Reachable (tb.newinfo { TrxinfoMem.initbuf with tiUsertrxid := trxid })
  | add {tb : TrxbufMem} (h : Reachable tb) (i : ℕ) (hi : i < tb.tbNinfos)
      (hnew : ∀ ts ∈ tb.entries, ts.tsStmttrxid ≠ (tb.tbInfos i).tiUsertrxid) :
      Reachable (tb.addstmt (tb.tbInfos i).tiUsertrxid i)
  | addstmt {tb : TrxbufMem} (h : Reachable tb) (stmttrxid i : ℕ) (hi : i < tb.tbNinfos)
      (hfresh : tb.Fresh stmttrxid) : Reachable (tb.addstmt stmttrxid i)
  | abortstmt {tb : TrxbufMem} (h : Reachable tb) (aborttrxnum : ℕ) (ts : TrxstmtMem)
      (hts : ts ∈ tb.entries) (hstmt : (tb.info ts).tiUsertrxid ≠ ts.tsStmttrxid) :
      Reachable (tb.abortstmt aborttrxnum ts.tsStmttrxid)
  | change {tb : TrxbufMem} (h : Reachable tb) (i : ℕ) (c : TrxinfoChange) :
      Reachable (tb.modify i c.apply)
  | remove {tb : TrxbufMem} (h : Reachable tb) (keep : TrxstmtMem → Bool) :
      Reachable (tb.remove keep)
  | setusevisiblealltrxid {tb : TrxbufMem} (h : Reachable tb) (visall : Bool) :
      Reachable { tb with tbUsevisiblealltrxid := visall }
  | save {tb : TrxbufMem} (h : Reachable tb) (fl : FlAnswers) (blocksize : Idxblocksize)
      (cpnum : ℕ) (file : TrxlFile) : Reachable (dbeTrxbufSave fl blocksize cpnum file tb).tb
  | restore {tb tb' : TrxbufMem} (h : Reachable tb) (fl : FlAnswers)
      (blocksize : Idxblocksize) (cpnum : ℕ) (file : TrxlFile) (tablesize : ℕ) (visall : Bool)
      (fuel : ℕ) (hrestore :
        let saved := dbeTrxbufSave fl blocksize cpnum file tb
        dbeTrxbufRestore fuel saved.file (TrxbufMem.init tablesize visall)
          saved.trxlistdaddr saved.stmttrxlistdaddr = some tb') : Reachable tb'

/-- A user id has one transaction info, which the entry of that id has too. -/
structure Wf (tb : TrxbufMem) : Prop where
  placed : tb.Placed
  places : ∀ ts ∈ tb.entries, ts.tsTrxinfo < tb.tbNinfos
  users : ∀ i < tb.tbNinfos, ∀ j < tb.tbNinfos,
    (tb.tbInfos i).tiUsertrxid = (tb.tbInfos j).tiUsertrxid → i = j
  own : ∀ ts ∈ tb.entries, ∀ i < tb.tbNinfos,
    ts.tsStmttrxid = (tb.tbInfos i).tiUsertrxid → ts.tsTrxinfo = i
  unsaved : ∀ i < tb.tbNinfos, (tb.tbInfos i).issaved = false

end TrxbufMem

/-! ## The invariant -/

variable {fl : FlAnswers} {tb tb' : TrxbufMem} {ts : TrxstmtMem} {ti : TrxinfoMem}

namespace TrxinfoChange

theorem user_apply (c : TrxinfoChange) (ti : TrxinfoMem) :
    (c.apply ti).tiUsertrxid = ti.tiUsertrxid := by
  cases c with
  | _ => rfl

theorem issaved_of_getstate {ti ti' : TrxinfoMem} (h : ti'.getstate = ti.getstate) :
    ti'.issaved = ti.issaved := by
  unfold TrxinfoMem.issaved
  rw [h]

theorem getstate_assign {w : BitVec 32} (h : w &&& trxstBitmask ≠ trxstSaved)
    (ti : TrxinfoMem) : (ti.assign w).issaved = false :=
  decide_eq_false h

theorem issaved_apply (c : TrxinfoChange) (h : ti.issaved = false) :
    (c.apply ti).issaved = false := by
  cases c with
  | setbegin => exact getstate_assign (by decide) ti
  | setvalidate => exact getstate_assign (by decide) ti
  | setcommitted => exact getstate_assign (by decide) ti
  | setaborted => exact getstate_assign (by decide) ti
  | settobeaborted => exact getstate_assign (by decide) ti
  | setunknown =>
      exact (issaved_of_getstate (ti.getstate_orState trxstHsbUnknown (by decide))).trans h
  | setopenddop =>
      exact (issaved_of_getstate (ti.getstate_orState trxstHsbOpenddop (by decide))).trans h
  | setcanremovereadlevel =>
      exact (issaved_of_getstate
        (ti.getstate_orState trxstCanremovereadlevel (by decide))).trans h
  | clearcanremovereadlevel =>
      refine (issaved_of_getstate ?_).trans h
      have hmask : ~~~trxstCanremovereadlevel &&& trxstBitmask = trxstBitmask := by decide
      change ti.tiState &&& ~~~trxstCanremovereadlevel &&& trxstBitmask =
        ti.tiState &&& trxstBitmask
      rw [BitVec.and_assoc, hmask]
  | setmtabletrx =>
      exact (issaved_of_getstate (ti.getstate_orState trxstMtabletrx (by decide))).trans h
  | maxtrxnum n => exact h
  | committrxnum n => exact h

end TrxinfoChange

namespace TrxbufMem

theorem Wf.of_entries_sub (h : tb.Wf) (hplaced : tb'.Placed)
    (hsub : ∀ ts ∈ tb'.entries, ts ∈ tb.entries) (hn : tb'.tbNinfos = tb.tbNinfos)
    (huser : ∀ i < tb.tbNinfos, (tb'.tbInfos i).tiUsertrxid = (tb.tbInfos i).tiUsertrxid)
    (hsaved : ∀ i < tb.tbNinfos, (tb'.tbInfos i).issaved = false) : tb'.Wf where
  placed := hplaced
  places := fun ts hts => by
    rw [hn]
    exact h.places ts (hsub ts hts)
  users := fun i hi j hj => by
    rw [hn] at hi hj
    rw [huser i hi, huser j hj]
    exact h.users i hi j hj
  own := fun ts hts i hi => by
    rw [hn] at hi
    rw [huser i hi]
    exact h.own ts (hsub ts hts) i hi
  unsaved := fun i hi => hsaved i (hn ▸ hi)

theorem Wf.modify (h : tb.Wf) (i : ℕ) {f : TrxinfoMem → TrxinfoMem}
    (huser : ∀ ti, (f ti).tiUsertrxid = ti.tiUsertrxid)
    (hsaved : ∀ ti, ti.issaved = false → (f ti).issaved = false) : (tb.modify i f).Wf := by
  refine h.of_entries_sub (h.placed.modify i f) (fun ts hts => hts) rfl (fun j hj => ?_)
    fun j hj => ?_
  · by_cases hji : j = i
    · subst hji
      simp only [TrxbufMem.modify, Function.update_self, huser]
    · simp only [TrxbufMem.modify, Function.update_of_ne hji]
  · by_cases hji : j = i
    · subst hji
      simp only [TrxbufMem.modify, Function.update_self]
      exact hsaved _ (h.unsaved j hj)
    · simp only [TrxbufMem.modify, Function.update_of_ne hji]
      exact h.unsaved j hj

theorem Wf.remove (h : tb.Wf) (keep : TrxstmtMem → Bool) : (tb.remove keep).Wf := by
  refine h.of_entries_sub ⟨fun i ts hts => ?_, fun i => ?_⟩ (fun ts hts => ?_) rfl
    (fun _ _ => rfl) h.unsaved
  · exact h.placed.slot i ts (List.mem_filter.mp hts).1
  · exact (h.placed.nodup i).sublist (List.filter_sublist.map _)
  · obtain ⟨i, hi, hts⟩ := mem_entries.mp hts
    exact mem_entries.mpr ⟨i, hi, (List.mem_filter.mp hts).1⟩

theorem Wf.newinfo (h : tb.Wf) (hfresh : tb.Fresh ti.tiUsertrxid)
    (hsaved : ti.issaved = false) : (tb.newinfo ti).Wf := by
  have hold {i : ℕ} (hi : i < tb.tbNinfos) : (tb.newinfo ti).tbInfos i = tb.tbInfos i :=
    Function.update_of_ne hi.ne _ _
  have hnew : (tb.newinfo ti).tbInfos tb.tbNinfos = ti := Function.update_self _ _ _
  refine ⟨h.placed.newinfo ti, fun ts hts => (h.places ts hts).trans (Nat.lt_succ_self _),
    fun i hi j hj huser => ?_, fun ts hts i hi hid => ?_, fun i hi => ?_⟩
  · rcases Nat.lt_succ_iff_lt_or_eq.mp hi with hi | rfl
    · rcases Nat.lt_succ_iff_lt_or_eq.mp hj with hj | rfl
      · rw [hold hi, hold hj] at huser
        exact h.users i hi j hj huser
      · rw [hold hi, hnew] at huser
        exact absurd huser (hfresh.2 i hi)
    · rcases Nat.lt_succ_iff_lt_or_eq.mp hj with hj | rfl
      · rw [hold hj, hnew] at huser
        exact absurd huser.symm (hfresh.2 j hj)
      · rfl
  · rcases Nat.lt_succ_iff_lt_or_eq.mp hi with hi | rfl
    · rw [hold hi] at hid
      exact h.own ts hts i hi hid
    · rw [hnew] at hid
      exact absurd hid (hfresh.1 ts hts)
  · rcases Nat.lt_succ_iff_lt_or_eq.mp hi with hi | rfl
    · rw [hold hi]
      exact h.unsaved i hi
    · rw [hnew]
      exact hsaved

theorem Wf.addstmt (h : tb.Wf) {s i : ℕ} (hi : i < tb.tbNinfos)
    (hnew : ∀ ts ∈ tb.entries, ts.tsStmttrxid ≠ s)
    (hown : ∀ j < tb.tbNinfos, s = (tb.tbInfos j).tiUsertrxid → i = j) :
    (tb.addstmt s i).Wf := by
  refine ⟨h.placed.addstmt hnew i, fun ts hts => ?_, h.users, fun ts hts j hj hid => ?_,
    h.unsaved⟩
  · rcases mem_entries_addstmt.mp hts with rfl | hts
    · exact hi
    · exact h.places ts hts
  · rcases mem_entries_addstmt.mp hts with rfl | hts
    · exact hown j hj hid
    · exact h.own ts hts j hj hid

theorem map_settrxinfo (s i : ℕ) (l : List TrxstmtMem) :
    (settrxinfo s i l).map TrxstmtMem.tsStmttrxid = l.map TrxstmtMem.tsStmttrxid := by
  induction l with
  | nil => rfl
  | cons ts rest ih =>
      rw [settrxinfo]
      split
      · rename_i hid
        rw [List.map_cons, List.map_cons, hid]
      · rw [List.map_cons, List.map_cons, ih]

theorem mem_settrxinfo {s i : ℕ} {l : List TrxstmtMem}
    (hnodup : (l.map TrxstmtMem.tsStmttrxid).Nodup) (h : ts ∈ settrxinfo s i l) :
    ts = ⟨s, i⟩ ∨ ts ∈ l ∧ ts.tsStmttrxid ≠ s := by
  induction l with
  | nil => exact absurd h List.not_mem_nil
  | cons e rest ih =>
      rw [List.map_cons, List.nodup_cons] at hnodup
      rw [settrxinfo] at h
      by_cases hid : e.tsStmttrxid = s
      · rw [if_pos hid] at h
        rcases List.mem_cons.mp h with rfl | hrest
        · exact .inl rfl
        · refine .inr ⟨List.mem_cons_of_mem e hrest, fun hts => hnodup.1 ?_⟩
          exact List.mem_map.mpr ⟨ts, hrest, hts.trans hid.symm⟩
      · rw [if_neg hid] at h
        rcases List.mem_cons.mp h with rfl | hrest
        · exact .inr ⟨List.mem_cons_self, hid⟩
        · exact (ih hnodup.2 hrest).imp_right fun hmem =>
            ⟨List.mem_cons_of_mem e hmem.1, hmem.2⟩

theorem Placed.retarget (h : tb.Placed) (s i : ℕ) : (tb.retarget s i).Placed where
  slot := by
    intro j e he
    change tb.getbufslot e.tsStmttrxid = j
    simp only [TrxbufMem.retarget] at he
    by_cases hslot : j = tb.getbufslot s
    · rw [hslot, Function.update_self] at he
      rw [hslot]
      rcases mem_settrxinfo (h.nodup _) he with rfl | hin
      · rfl
      · exact h.slot _ e hin.1
    · rw [Function.update_of_ne hslot] at he
      exact h.slot j e he
  nodup := by
    intro j
    simp only [TrxbufMem.retarget]
    by_cases hslot : j = tb.getbufslot s
    · rw [hslot, Function.update_self, map_settrxinfo]
      exact h.nodup _
    · rw [Function.update_of_ne hslot]
      exact h.nodup j

theorem Placed.mem_retarget (h : tb.Placed) {s i : ℕ} (hts : ts ∈ (tb.retarget s i).entries) :
    ts = ⟨s, i⟩ ∨ ts ∈ tb.entries ∧ ts.tsStmttrxid ≠ s := by
  obtain ⟨j, hj, hts⟩ := mem_entries.mp hts
  simp only [TrxbufMem.retarget] at hts
  by_cases hslot : j = tb.getbufslot s
  · rw [hslot, Function.update_self] at hts
    refine (mem_settrxinfo (h.nodup _) hts).imp_right fun hin => ⟨?_, hin.2⟩
    exact mem_entries.mpr ⟨_, tb.getbufslot_lt _, hin.1⟩
  · rw [Function.update_of_ne hslot] at hts
    refine .inr ⟨mem_entries.mpr ⟨j, hj, hts⟩, fun hid => hslot ?_⟩
    rw [← hid]
    exact (h.slot j ts hts).symm

theorem Wf.retarget (h : tb.Wf) (ti : TrxinfoMem)
    (hfresh : ∀ i < tb.tbNinfos, (tb.tbInfos i).tiUsertrxid ≠ ti.tiUsertrxid)
    (hsaved : ti.issaved = false) :
    ((tb.newinfo ti).retarget ti.tiUsertrxid tb.tbNinfos).Wf := by
  have hold {i : ℕ} (hi : i < tb.tbNinfos) : (tb.newinfo ti).tbInfos i = tb.tbInfos i :=
    Function.update_of_ne hi.ne _ _
  have hnew : (tb.newinfo ti).tbInfos tb.tbNinfos = ti := Function.update_self _ _ _
  have hmem {e : TrxstmtMem}
      (he : e ∈ ((tb.newinfo ti).retarget ti.tiUsertrxid tb.tbNinfos).entries) :
      e = ⟨ti.tiUsertrxid, tb.tbNinfos⟩ ∨ e ∈ tb.entries ∧ e.tsStmttrxid ≠ ti.tiUsertrxid :=
    (h.placed.newinfo ti).mem_retarget he
  refine ⟨(h.placed.newinfo ti).retarget _ _, fun e he => ?_, fun i hi j hj hij => ?_,
    fun e he i hi hid => ?_, fun i hi => ?_⟩
  · rcases hmem he with rfl | hin
    · exact Nat.lt_succ_self _
    · exact (h.places e hin.1).trans (Nat.lt_succ_self _)
  · change ((tb.newinfo ti).tbInfos i).tiUsertrxid = ((tb.newinfo ti).tbInfos j).tiUsertrxid at hij
    rcases Nat.lt_succ_iff_lt_or_eq.mp hi with hi | rfl
    · rcases Nat.lt_succ_iff_lt_or_eq.mp hj with hj | rfl
      · rw [hold hi, hold hj] at hij
        exact h.users i hi j hj hij
      · rw [hold hi, hnew] at hij
        exact absurd hij (hfresh i hi)
    · rcases Nat.lt_succ_iff_lt_or_eq.mp hj with hj | rfl
      · rw [hnew, hold hj] at hij
        exact absurd hij.symm (hfresh j hj)
      · rfl
  · change e.tsStmttrxid = ((tb.newinfo ti).tbInfos i).tiUsertrxid at hid
    rcases Nat.lt_succ_iff_lt_or_eq.mp hi with hi | rfl
    · rw [hold hi] at hid
      rcases hmem he with rfl | hin
      · exact absurd hid.symm (hfresh i hi)
      · exact h.own e hin.1 i hi hid
    · rw [hnew] at hid
      rcases hmem he with rfl | hin
      · rfl
      · exact absurd hid hin.2
  · change ((tb.newinfo ti).tbInfos i).issaved = false
    rcases Nat.lt_succ_iff_lt_or_eq.mp hi with hi | rfl
    · rw [hold hi]
      exact h.unsaved i hi
    · rw [hnew]
      exact hsaved

theorem Wf.abortstmt (h : tb.Wf) (aborttrxnum : ℕ) (hts : ts ∈ tb.entries)
    (hstmt : (tb.info ts).tiUsertrxid ≠ ts.tsStmttrxid) :
    (tb.abortstmt aborttrxnum ts.tsStmttrxid).Wf := by
  have hfresh : ∀ i < tb.tbNinfos, (tb.tbInfos i).tiUsertrxid ≠ ts.tsStmttrxid := by
    intro i hi hid
    have hplace := h.own ts hts i hi hid.symm
    rw [← hplace] at hid
    exact hstmt hid
  have hsaved := TrxinfoChange.getstate_assign (w := trxstAbort) (by decide)
    { TrxinfoMem.initbuf with
      tiUsertrxid := ts.tsStmttrxid, tiCommittrxnum := aborttrxnum }
  unfold TrxbufMem.abortstmt
  simp only [h.placed.gettrxinfo_of_mem hts]
  by_cases htobe : (tb.tbInfos ts.tsTrxinfo).istobeaborted = true
  · -- the old info is set back to the begin state
    rw [if_pos htobe]
    have hbegin := h.modify ts.tsTrxinfo (f := TrxinfoMem.setbegin) (fun _ => rfl)
      fun ti _ => TrxinfoChange.getstate_assign (by decide) ti
    refine hbegin.retarget (TrxinfoMem.setaborted _) (fun i hi => ?_) hsaved
    have huser : ((tb.modify ts.tsTrxinfo TrxinfoMem.setbegin).tbInfos i).tiUsertrxid =
        (tb.tbInfos i).tiUsertrxid := by
      by_cases hi : i = ts.tsTrxinfo
      · subst hi
        simp only [TrxbufMem.modify, Function.update_self]
        rfl
      · simp only [TrxbufMem.modify, Function.update_of_ne hi]
    rw [huser]
    exact hfresh i hi
  · rw [if_neg htobe]
    exact h.retarget (TrxinfoMem.setaborted _) hfresh hsaved

theorem Wf.save (h : tb.Wf) (fl : FlAnswers) (blocksize : Idxblocksize) (cpnum : ℕ)
    (file : TrxlFile) : (dbeTrxbufSave fl blocksize cpnum file tb).tb.Wf := by
  have hinfos := dbeTrxbufSave_infos (fun ts hts => h.unsaved _ (h.places ts hts))
    fl blocksize cpnum file
  refine h.of_entries_sub ⟨h.placed.slot, h.placed.nodup⟩ (fun ts hts => hts) rfl
    (fun i _ => ?_) fun i hi => ?_
  · rw [hinfos]
    split
    · rfl
    · rfl
  · rw [hinfos]
    split
    · exact issaved_setcommitted _
    · exact h.unsaved i hi

end TrxbufMem

theorem Restored.wf {trxs stmts : List (ℕ × ℕ)} {users : List ℕ}
    (h : Restored trxs stmts users tb) : tb.Wf where
  placed := h.placed
  places := h.places
  users := fun i hi j hj hij => by
    have heq := h.placed.eq_of_id (h.home i hi) (h.home j hj) hij
    exact congrArg TrxstmtMem.tsTrxinfo heq
  own := fun ts hts i hi hid => by
    have heq := h.placed.eq_of_id hts (h.home i hi) hid
    exact congrArg TrxstmtMem.tsTrxinfo heq
  unsaved := fun i hi => by
    refine decide_eq_false ?_
    by_cases hcom : ∃ n, ((tb.tbInfos i).tiUsertrxid, n) ∈ trxs
    · obtain ⟨n, hn⟩ := hcom
      rw [((h.states i hi).committed n hn).1]
      decide
    · rw [(h.states i hi).begun fun n hn => hcom ⟨n, hn⟩]
      decide

/-! ## The round trip -/

namespace TrxbufMem

def Unended (tb : TrxbufMem) (ts : TrxstmtMem) : Prop :=
  (tb.info ts).isended = false ∨
    tb.tbUsevisiblealltrxid = true ∧ (tb.info ts).isaborted = true

/-- The restored buffer has the fate of every statement that was saved, and no others. -/
structure RestoredFrom (tb tb' : TrxbufMem) : Prop where
  committed : ∀ ts ∈ tb.entries, (tb.info ts).iscommitted = true →
    ∃ ts', tb'.entries.filter (fun e => e.tsStmttrxid = ts.tsStmttrxid) = [ts'] ∧
      (tb'.info ts').tiUsertrxid = (tb.info ts).tiUsertrxid ∧
      (tb'.info ts').iscommitted = true ∧
      (tb'.info ts').tiCommittrxnum = (tb.info ts).tiCommittrxnum
  unended : ∀ ts ∈ tb.entries, tb.Unended ts →
    ∃ ts', tb'.entries.filter (fun e => e.tsStmttrxid = ts.tsStmttrxid) = [ts'] ∧
      (tb'.info ts').tiUsertrxid = (tb.info ts).tiUsertrxid ∧
      (tb'.info ts').isended = false ∧
      ∀ e ∈ tb'.entries, (tb'.info e).tiUsertrxid = (tb'.info ts').tiUsertrxid →
        e.tsTrxinfo = ts'.tsTrxinfo
  others : ∀ ts' ∈ tb'.entries, ∃ ts ∈ tb.entries,
    ((tb.info ts).iscommitted = true ∨ tb.Unended ts) ∧
      (ts'.tsStmttrxid = ts.tsStmttrxid ∨ ts'.tsStmttrxid = (tb.info ts).tiUsertrxid)

/-- The save leaves every state word, and the restore into a new buffer ends and has what
was saved. -/
def SaveRestores (tb : TrxbufMem) (fl : FlAnswers) (blocksize : Idxblocksize) (cpnum : ℕ)
    (file : TrxlFile) (tablesize : ℕ) (visall : Bool) : Prop :=
  let saved := dbeTrxbufSave fl blocksize cpnum file tb
  (∀ i, (saved.tb.tbInfos i).tiState = (tb.tbInfos i).tiState) ∧
    ∃ fuel₀ tb', (∀ fuel ≥ fuel₀, dbeTrxbufRestore fuel saved.file
        (TrxbufMem.init tablesize visall) saved.trxlistdaddr saved.stmttrxlistdaddr =
          some tb') ∧ tb.RestoredFrom tb'

theorem iscommitted_or_unended (ts : TrxstmtMem)
    (hkept : keptStmt tb.tbInfos tb.tbUsevisiblealltrxid ts = true) :
    (tb.info ts).iscommitted = true ∨ tb.Unended ts := by
  cases hcom : (tb.info ts).iscommitted with
  | true => exact .inl rfl
  | false =>
      refine .inr ?_
      cases hab : (tb.info ts).isaborted with
      | false =>
          left
          rw [TrxinfoMem.isended_eq, hcom, hab]
          rfl
      | true =>
          have hkept' : (!(tb.info ts).isaborted || tb.tbUsevisiblealltrxid) = true := hkept
          rw [hab] at hkept'
          exact .inr ⟨hkept', hab⟩

theorem kept_of_iscommitted (ts : TrxstmtMem) (h : (tb.info ts).iscommitted = true) :
    keptStmt tb.tbInfos tb.tbUsevisiblealltrxid ts = true := by
  have hab := TrxinfoMem.isaborted_of_iscommitted h
  change (!(tb.info ts).isaborted || tb.tbUsevisiblealltrxid) = true
  rw [hab]
  rfl

theorem kept_of_unended (ts : TrxstmtMem) (h : tb.Unended ts) :
    keptStmt tb.tbInfos tb.tbUsevisiblealltrxid ts = true := by
  change (!(tb.info ts).isaborted || tb.tbUsevisiblealltrxid) = true
  rcases h with h | ⟨hvis, -⟩
  · rw [TrxinfoMem.isended_eq, Bool.or_eq_false_iff] at h
    rw [h.2]
    rfl
  · rw [hvis, Bool.or_true]

theorem Unended.iscommitted_eq (h : tb.Unended ts) : (tb.info ts).iscommitted = false := by
  rcases h with h | ⟨-, hab⟩
  · rw [TrxinfoMem.isended_eq, Bool.or_eq_false_iff] at h
    exact h.1
  · cases hcom : (tb.info ts).iscommitted with
    | false => rfl
    | true =>
        rw [TrxinfoMem.isaborted_of_iscommitted hcom] at hab
        exact absurd hab Bool.false_ne_true

variable {trxs : List ℕ} {file : TrxlFile} {st : TrxbufSaving} {visall : Bool}

theorem Wf.user_unique (h : tb.Wf) {ts ts' : TrxstmtMem} (hts : ts ∈ tb.entries)
    (hts' : ts' ∈ tb.entries) (huser : (tb.info ts).tiUsertrxid = (tb.info ts').tiUsertrxid) :
    ts.tsTrxinfo = ts'.tsTrxinfo :=
  h.users _ (h.places ts hts) _ (h.places ts' hts') huser

theorem Wf.restorable (h : tb.Wf)
    (hscan : SavedUpto fl tb.tbInfos tb.tbUsevisiblealltrxid tb.entries st trxs) :
    Restorable (trxs.map (trxRecord tb.tbInfos)).reverse
      ((tb.entries.filter (keptStmt tb.tbInfos tb.tbUsevisiblealltrxid)).map
        (stmtRecord tb.tbInfos)).reverse where
  trxs_nodup := by
    rw [List.map_reverse, List.nodup_reverse, List.map_map]
    refine hscan.nodup.map_on fun i hi j hj hij => ?_
    obtain ⟨-, ts, hts, rfl⟩ := (hscan.mem_trxs i).mp hi
    obtain ⟨-, ts', hts', rfl⟩ := (hscan.mem_trxs j).mp hj
    exact h.user_unique hts hts' hij
  stmts_nodup := by
    rw [List.map_reverse, List.nodup_reverse, List.map_map]
    exact h.placed.nodup_entries.sublist (List.filter_sublist.map _)
  own := by
    intro p hp hown
    obtain ⟨ts, hts, rfl⟩ := List.mem_map.mp (List.mem_reverse.mp hp)
    have hts := (List.mem_filter.mp hts).1
    -- the user id is that of an entry, and then of this one
    obtain ⟨ts', hts', hid⟩ : ∃ ts' ∈ tb.entries,
        ts.tsStmttrxid = (tb.info ts').tiUsertrxid := by
      rcases hown with hown | hown
      · rw [List.map_reverse, List.mem_reverse, List.map_map, List.mem_map] at hown
        obtain ⟨i, hi, hid⟩ := hown
        obtain ⟨-, ts', hts', rfl⟩ := (hscan.mem_trxs i).mp hi
        exact ⟨ts', hts', hid.symm⟩
      · rw [List.map_reverse, List.mem_reverse, List.map_map, List.mem_map] at hown
        obtain ⟨ts', hts', hid⟩ := hown
        exact ⟨ts', (List.mem_filter.mp hts').1, hid.symm⟩
    have hplace := h.own ts hts _ (h.places ts' hts') hid
    change (tb.tbInfos ts.tsTrxinfo).tiUsertrxid = ts.tsStmttrxid
    rw [hplace]
    exact hid.symm

theorem Wf.restoredFrom (h : tb.Wf)
    (hscan : SavedUpto fl tb.tbInfos tb.tbUsevisiblealltrxid tb.entries st trxs)
    {T S : List (ℕ × ℕ)} (hT : T = (trxs.map (trxRecord tb.tbInfos)).reverse)
    (hS : S = ((tb.entries.filter (keptStmt tb.tbInfos tb.tbUsevisiblealltrxid)).map
      (stmtRecord tb.tbInfos)).reverse) {users : List ℕ} (hr : Restored T S users tb')
    (husers : ∀ v ∈ users, v ∈ T.map Prod.fst ∨ v ∈ S.map Prod.fst) : tb.RestoredFrom tb' := by
  have hmemT (p : ℕ × ℕ) : p ∈ T ↔ ∃ ts ∈ tb.entries, (tb.info ts).iscommitted = true ∧
      ((tb.info ts).tiUsertrxid, (tb.info ts).tiCommittrxnum) = p := by
    rw [hT, List.mem_reverse, List.mem_map]
    constructor
    · rintro ⟨i, hi, rfl⟩
      obtain ⟨hcom, ts, hts, rfl⟩ := (hscan.mem_trxs i).mp hi
      exact ⟨ts, hts, hcom, rfl⟩
    · rintro ⟨ts, hts, hcom, rfl⟩
      exact ⟨ts.tsTrxinfo, (hscan.mem_trxs _).mpr ⟨hcom, ts, hts, rfl⟩, rfl⟩
  have hmemS (p : ℕ × ℕ) : p ∈ S ↔ ∃ ts ∈ tb.entries,
      keptStmt tb.tbInfos tb.tbUsevisiblealltrxid ts = true ∧
        ((tb.info ts).tiUsertrxid, ts.tsStmttrxid) = p := by
    rw [hS, List.mem_reverse, List.mem_map]
    constructor
    · rintro ⟨ts, hts, rfl⟩
      exact ⟨ts, (List.mem_filter.mp hts).1, (List.mem_filter.mp hts).2, rfl⟩
    · rintro ⟨ts, hts, hkept, rfl⟩
      exact ⟨ts, List.mem_filter.mpr ⟨hts, hkept⟩, rfl⟩
  have hstmt (ts : TrxstmtMem) (hts : ts ∈ tb.entries)
      (hkept : keptStmt tb.tbInfos tb.tbUsevisiblealltrxid ts = true) :
      ∃ ts' ∈ tb'.entries,
        tb'.entries.filter (fun e => e.tsStmttrxid = ts.tsStmttrxid) = [ts'] ∧
          (tb'.info ts').tiUsertrxid = (tb.info ts).tiUsertrxid := by
    obtain ⟨ts', hts', hid, huser⟩ := hr.has_stmt _ ((hmemS _).mpr ⟨ts, hts, hkept, rfl⟩)
    change ts'.tsStmttrxid = ts.tsStmttrxid at hid
    refine ⟨ts', hts', ?_, huser⟩
    rw [← hid]
    exact hr.placed.filter_eq hts'
  refine ⟨fun ts hts hcom => ?_, fun ts hts hun => ?_, fun ts' hts' => ?_⟩
  · obtain ⟨ts', hts', hfilter, huser⟩ := hstmt ts hts (kept_of_iscommitted ts hcom)
    have hstate := (hr.states _ (hr.places ts' hts')).committed (tb.info ts).tiCommittrxnum
      ((hmemT _).mpr ⟨ts, hts, hcom, by rw [← huser]; rfl⟩)
    exact ⟨ts', hfilter, huser, decide_eq_true hstate.1, hstate.2⟩
  · obtain ⟨ts', hts', hfilter, huser⟩ := hstmt ts hts (kept_of_unended ts hun)
    refine ⟨ts', hfilter, huser, ?_, fun e he heq => ?_⟩
    · -- no committed transaction has the user id
      have hbegin : (tb'.info ts').getstate = trxstBegin := by
        refine (hr.states _ (hr.places ts' hts')).begun fun n hn => ?_
        obtain ⟨ts'', hts'', hcom, hp⟩ := (hmemT _).mp hn
        have huser' : (tb.info ts'').tiUsertrxid = (tb.info ts).tiUsertrxid :=
          (congrArg Prod.fst hp).trans huser
        have hplace := h.user_unique hts'' hts huser'
        have hcom' : (tb.info ts).iscommitted = true := by
          rw [info, ← hplace]
          exact hcom
        rw [hun.iscommitted_eq] at hcom'
        exact Bool.false_ne_true hcom'
      unfold TrxinfoMem.isended
      rw [hbegin]
      decide
    · exact hr.wf.user_unique he hts' heq
  · obtain ⟨huser, hid⟩ := hr.origin ts' hts'
    rcases hid with hid | hid
    · rcases husers _ huser with hin | hin
      · obtain ⟨p, hp, hpu⟩ := List.mem_map.mp hin
        obtain ⟨ts, hts, hcom, rfl⟩ := (hmemT p).mp hp
        exact ⟨ts, hts, .inl hcom, .inr (hid.trans hpu.symm)⟩
      · obtain ⟨p, hp, hpu⟩ := List.mem_map.mp hin
        obtain ⟨ts, hts, hkept, rfl⟩ := (hmemS p).mp hp
        exact ⟨ts, hts, iscommitted_or_unended ts hkept, .inr (hid.trans hpu.symm)⟩
    · obtain ⟨ts, hts, hkept, hp⟩ := (hmemS _).mp hid
      exact ⟨ts, hts, iscommitted_or_unended ts hkept, .inl (congrArg Prod.snd hp).symm⟩

theorem Wf.restore (h : tb.Wf) (fl : FlAnswers) (blocksize : Idxblocksize) (cpnum : ℕ)
    (file : TrxlFile) (tablesize : ℕ) (visall : Bool) :
    ∃ fuel₀ tb', (∀ fuel ≥ fuel₀,
        let saved := dbeTrxbufSave fl blocksize cpnum file tb
        dbeTrxbufRestore fuel saved.file (TrxbufMem.init tablesize visall)
          saved.trxlistdaddr saved.stmttrxlistdaddr = some tb') ∧
      tb.RestoredFrom tb' ∧ tb'.Wf := by
  obtain ⟨trxs, hscan⟩ := saveScan_savedUpto fl blocksize cpnum file tb
  obtain ⟨bs, bs', hsaved, hsaved', hbs, hbs'⟩ := hscan.pair.save
  rw [← List.reverse_reverse (trxs.map (trxRecord tb.tbInfos))] at hsaved
  rw [← List.reverse_reverse ((tb.entries.filter _).map _)] at hsaved'
  obtain ⟨fuel₀, users, tb', hfuel, hr, husers⟩ := restored_of_saved (h.restorable hscan)
    hsaved hbs hsaved' hbs' tablesize visall
  exact ⟨fuel₀, tb', hfuel, h.restoredFrom hscan rfl rfl hr husers, hr.wf⟩

theorem Reachable.wf (h : tb.Reachable) : tb.Wf := by
  induction h with
  | init tablesize visall => exact (restored_init tablesize visall).wf
  | begintrx h trxid hfresh ih =>
      have hbegin : trxstBegin &&& trxstBitmask ≠ trxstSaved := by decide
      exact ih.newinfo hfresh (decide_eq_false hbegin)
  | add h i hi hnew ih => exact ih.addstmt hi hnew fun j hj => ih.users i hi j hj
  | addstmt h stmttrxid i hi hfresh ih =>
      exact ih.addstmt hi hfresh.1 fun j hj hid => absurd hid.symm (hfresh.2 j hj)
  | abortstmt h aborttrxnum ts hts hstmt ih => exact ih.abortstmt aborttrxnum hts hstmt
  | change h i c ih => exact ih.modify i c.user_apply fun ti => c.issaved_apply
  | remove h keep ih => exact ih.remove keep
  | setusevisiblealltrxid h visall ih =>
      exact ih.of_entries_sub ⟨ih.placed.slot, ih.placed.nodup⟩ (fun ts hts => hts) rfl
        (fun _ _ => rfl) ih.unsaved
  | save h fl blocksize cpnum file ih => exact ih.save fl blocksize cpnum file
  | restore h fl blocksize cpnum file tablesize visall fuel hrestore ih =>
      obtain ⟨fuel₁, tb₁, hfuel, -, hwf⟩ := ih.restore fl blocksize cpnum file tablesize visall
      have h₁ := hfuel (max fuel fuel₁) (le_max_right _ _)
      have h₀ := dbeTrxbufRestore_mono (le_max_left fuel fuel₁) hrestore
      obtain rfl := Option.some.inj (h₁.symm.trans h₀)
      exact hwf

end TrxbufMem

/-- A save is without trace, and its restore complete, if and only if no committed
transaction info of the buffer has a flag. -/
theorem saveRestores_iff (h : tb.Reachable) (fl : FlAnswers) (blocksize : Idxblocksize)
    (cpnum : ℕ) (file : TrxlFile) (tablesize : ℕ) (visall : Bool) :
    tb.SaveRestores fl blocksize cpnum file tablesize visall ↔
      ∀ ts ∈ tb.entries, (tb.info ts).iscommitted = true →
        (tb.info ts).tiState = trxstCommit := by
  have hwf := h.wf
  have hinfos := dbeTrxbufSave_infos (fun ts hts => hwf.unsaved _ (hwf.places ts hts))
    fl blocksize cpnum file
  constructor
  · rintro ⟨hwords, -⟩ ts hts hcom
    have hword := hwords ts.tsTrxinfo
    rw [hinfos, if_pos ⟨hcom, ts, hts, rfl⟩] at hword
    exact hword.symm
  · intro hflags
    refine ⟨fun i => ?_, ?_⟩
    · rw [hinfos]
      split
      · rename_i hi
        obtain ⟨hcom, ts, hts, rfl⟩ := hi
        exact (hflags ts hts hcom).symm
      · rfl
    · obtain ⟨fuel₀, tb', hfuel, hfrom, -⟩ :=
        hwf.restore fl blocksize cpnum file tablesize visall
      exact ⟨fuel₀, tb', hfuel, hfrom⟩

/-! ## A committed transaction over two checkpoints -/

/-- `dbe_fl_alloc` hands out the blocks one after the other. -/
def checkpointAnswers : FlAnswers where
  daddr := fun n => if n < suDaddrNull - 1 then n + 1 else n + 2
  injective := fun m n h => by
    simp only at h
    split at h
    · split at h
      · omega
      · omega
    · split at h
      · omega
      · omega
  ne_null := fun n => by
    unfold suDaddrNull
    split
    · omega
    · omega
  ne_zero := fun n => by
    split
    · omega
    · omega

def checkpointBlocksize : Idxblocksize := ⟨8192, by decide, by decide⟩

def checkpointFile : TrxlFile := ⟨fun _ => ⟨dbeBlhInit .trxlist 0, fun _ => (0, 0)⟩, 0⟩

/-- Transaction 5 is committed with the number 7. -/
def committedTrxbuf : TrxbufMem :=
  ((((TrxbufMem.init 16 true).newinfo
    { TrxinfoMem.initbuf with tiUsertrxid := 5 }).addstmt 5 0).modify 0
      TrxinfoChange.setcommitted.apply).modify 0 (TrxinfoChange.committrxnum 7).apply

theorem committedTrxbuf_reachable : committedTrxbuf.Reachable := by
  refine .change (.change ?_ 0 .setcommitted) 0 (.committrxnum 7)
  refine .add (.begintrx (.init 16 true) 5 ⟨by decide, fun i hi => ?_⟩) 0 Nat.zero_lt_one
    (by decide)
  exact absurd hi (Nat.not_lt_zero i)

/-- Transaction 6 is active, and 8 is committed with the number 10 and the statement 9. -/
def activeTrxbuf : TrxbufMem :=
  let begun := (committedTrxbuf.newinfo { TrxinfoMem.initbuf with tiUsertrxid := 6 }).addstmt 6 1
  let stmt := ((begun.newinfo { TrxinfoMem.initbuf with tiUsertrxid := 8 }).addstmt 8 2).addstmt 9 2
  (stmt.modify 2 TrxinfoChange.setcommitted.apply).modify 2 (TrxinfoChange.committrxnum 10).apply

theorem activeTrxbuf_reachable : activeTrxbuf.Reachable := by
  refine .change (.change (.addstmt ?_ 9 2 (by decide) ?_) 2 .setcommitted) 2 (.committrxnum 10)
  · refine .add (.begintrx ?_ 8 ?_) 2 (by decide) (by decide)
    · refine .add (.begintrx committedTrxbuf_reachable 6 ?_) 1 (by decide) (by decide)
      exact ⟨by decide, by decide⟩
    · exact ⟨by decide, by decide⟩
  · exact ⟨by decide, by decide⟩

theorem saveRestores_activeTrxbuf :
    activeTrxbuf.SaveRestores checkpointAnswers checkpointBlocksize 1 checkpointFile 16 true :=
  (saveRestores_iff activeTrxbuf_reachable checkpointAnswers checkpointBlocksize 1
    checkpointFile 16 true).mpr (by decide)

def restartTrxbuf : Option TrxbufMem :=
  let saved := dbeTrxbufSave checkpointAnswers checkpointBlocksize 1 checkpointFile
    committedTrxbuf
  dbeTrxbufRestore 5 saved.file (TrxbufMem.init 16 true) saved.trxlistdaddr
    saved.stmttrxlistdaddr

theorem restartTrxbuf_isSome : restartTrxbuf.isSome = true := by
  decide +kernel

/-- The record of the statement marks the committed transaction as unknown to the other
server. -/
def restartedTrxbuf : TrxbufMem := restartTrxbuf.get restartTrxbuf_isSome

theorem restartedTrxbuf_reachable : restartedTrxbuf.Reachable :=
  .restore committedTrxbuf_reachable checkpointAnswers checkpointBlocksize 1 checkpointFile 16
    true 5 (Option.some_get restartTrxbuf_isSome).symm

/-- The next checkpoint clears the mark. -/
theorem restartedTrxbuf_not_saveRestores :
    restartedTrxbuf.Reachable ∧
      ¬ restartedTrxbuf.SaveRestores checkpointAnswers checkpointBlocksize 2 checkpointFile 16
        true := by
  refine ⟨restartedTrxbuf_reachable, fun h => ?_⟩
  have hword := h.1 0
  revert hword
  decide +kernel

end SolidDB
