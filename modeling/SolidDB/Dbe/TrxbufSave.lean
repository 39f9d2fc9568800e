import SolidDB.Dbe.Gtrs
import SolidDB.Dbe.Trxl

/-!
# Saving the transaction buffer

A checkpoint saves the buffer as two lists. While the slots are scanned, a committed
transaction is put into the state `DBE_TRXST_SAVED`, so that it is written once for all
its statements, and a second scan takes it back. The state stands in the low bits of a
word that has flags above them.
-/

namespace SolidDB

/-! ## The state word -/

def trxstBegin : BitVec 32 := 0
def trxstValidate : BitVec 32 := 1
def trxstCommit : BitVec 32 := 2
def trxstAbort : BitVec 32 := 3
def trxstSaved : BitVec 32 := 4
def trxstTobeaborted : BitVec 32 := 5

/-- `DBE_TRXST_BITMASK` and the flags above it. -/
def trxstBitmask : BitVec 32 := 7
def trxstHsbUnknown : BitVec 32 := 8
def trxstHsbOpenddop : BitVec 32 := 16
def trxstCanremovereadlevel : BitVec 32 := 32
def trxstMtabletrx : BitVec 32 := 64

structure TrxinfoMem where
  tiState : BitVec 32
  tiUsertrxid : ℕ
  tiMaxtrxnum : ℕ
  tiCommittrxnum : ℕ
  deriving DecidableEq

namespace TrxinfoMem

def initbuf : TrxinfoMem where
  tiState := trxstBegin
  tiUsertrxid := 0
  tiMaxtrxnum := 0
  tiCommittrxnum := 0

def getstate (ti : TrxinfoMem) : BitVec 32 := ti.tiState &&& trxstBitmask

/-- The assignment that the macros for the states make. The flags stand on the other side
of an `|` whose value nobody uses. -/
def assign (ti : TrxinfoMem) (state : BitVec 32) : TrxinfoMem := { ti with tiState := state }

def orState (ti : TrxinfoMem) (flag : BitVec 32) : TrxinfoMem :=
  { ti with tiState := flag ||| ti.tiState }

def setbegin (ti : TrxinfoMem) : TrxinfoMem := ti.assign trxstBegin

def setvalidate (ti : TrxinfoMem) : TrxinfoMem := ti.assign trxstValidate

def setcommitted (ti : TrxinfoMem) : TrxinfoMem := ti.assign trxstCommit

def setaborted (ti : TrxinfoMem) : TrxinfoMem := ti.assign trxstAbort

def setsaved (ti : TrxinfoMem) : TrxinfoMem := ti.assign trxstSaved

def settobeaborted (ti : TrxinfoMem) : TrxinfoMem := ti.assign trxstTobeaborted

def setunknown (ti : TrxinfoMem) : TrxinfoMem := ti.orState trxstHsbUnknown

def setopenddop (ti : TrxinfoMem) : TrxinfoMem := ti.orState trxstHsbOpenddop

def setcanremovereadlevel (ti : TrxinfoMem) : TrxinfoMem := ti.orState trxstCanremovereadlevel

def clearcanremovereadlevel (ti : TrxinfoMem) : TrxinfoMem :=
  { ti with tiState := ti.tiState &&& ~~~trxstCanremovereadlevel }

def setmtabletrx (ti : TrxinfoMem) : TrxinfoMem := ti.orState trxstMtabletrx

def iscommitted (ti : TrxinfoMem) : Bool := ti.getstate = trxstCommit

def isaborted (ti : TrxinfoMem) : Bool := ti.getstate = trxstAbort

def issaved (ti : TrxinfoMem) : Bool := ti.getstate = trxstSaved

def istobeaborted (ti : TrxinfoMem) : Bool := ti.getstate = trxstTobeaborted

def isended (ti : TrxinfoMem) : Bool :=
  ti.getstate = trxstCommit || ti.getstate = trxstAbort

theorem isended_eq (ti : TrxinfoMem) : ti.isended = (ti.iscommitted || ti.isaborted) := rfl

theorem getstate_orState (ti : TrxinfoMem) (flag : BitVec 32) (h : flag &&& trxstBitmask = 0) :
    (ti.orState flag).getstate = ti.getstate := by
  unfold getstate orState
  rw [BitVec.and_or_distrib_right, h]
  exact BitVec.zero_or

def word : TrxState → BitVec 32
  | .begun => trxstBegin
  | .validate => trxstValidate
  | .commit => trxstCommit
  | .abort => trxstAbort

structure Shows (ti : TrxinfoMem) (x : Trxinfo) : Prop where
  state : ti.getstate = word x.tiState
  usertrxid : ti.tiUsertrxid = x.tiUsertrxid
  maxtrxnum : ti.tiMaxtrxnum = x.tiMaxtrxnum
  committrxnum : ti.tiCommittrxnum = x.tiCommittrxnum
  canremovereadlevel :
    x.tiCanremovereadlevel = decide (ti.tiState &&& trxstCanremovereadlevel ≠ 0)
  mtabletrx : x.tiMtabletrx = decide (ti.tiState &&& trxstMtabletrx ≠ 0)

/-- The macros for the states do to the word what `Trxinfo.setState` does. -/
theorem Shows.assign {ti : TrxinfoMem} {x : Trxinfo} (h : ti.Shows x) (state : TrxState) :
    (ti.assign (word state)).Shows (x.setState state) where
  state := by
    change word state &&& trxstBitmask = word state
    cases state with
    | _ => decide
  usertrxid := h.usertrxid
  maxtrxnum := h.maxtrxnum
  committrxnum := h.committrxnum
  canremovereadlevel := by
    change false = decide (word state &&& trxstCanremovereadlevel ≠ 0)
    cases state with
    | _ => decide
  mtabletrx := by
    change false = decide (word state &&& trxstMtabletrx ≠ 0)
    cases state with
    | _ => decide

theorem Shows.isended_eq {ti : TrxinfoMem} {x : Trxinfo} (h : ti.Shows x) :
    ti.isended = x.isended := by
  unfold isended Trxinfo.isended
  rw [h.state]
  cases x.tiState with
  | _ => decide

end TrxinfoMem

/-! ## The buffer -/

/-- `dbe_trxstmt_t`. The transaction info is given by its place in `tbInfos`. -/
structure TrxstmtMem where
  tsStmttrxid : ℕ
  tsTrxinfo : ℕ
  deriving DecidableEq

/-- `dbe_trxbuf_t` with the transaction infos that have been allocated. -/
structure TrxbufMem where
  tbTbslottable : ℕ → List TrxstmtMem
  tbTablesize : ℕ
  tbUsevisiblealltrxid : Bool
  tbInfos : ℕ → TrxinfoMem
  tbNinfos : ℕ

def tbNbufslots : ℕ := 16

namespace TrxbufMem

def init (tablesize : ℕ) (usevisiblealltrxid : Bool) : TrxbufMem where
  tbTbslottable := fun _ => []
  tbTablesize := tablesize
  tbUsevisiblealltrxid := usevisiblealltrxid
  tbInfos := fun _ => TrxinfoMem.initbuf
  tbNinfos := 0

def getbufslot (tb : TrxbufMem) (trxid : ℕ) : ℕ := trxid % tb.tbTablesize % tbNbufslots

def entries (tb : TrxbufMem) : List TrxstmtMem :=
  (List.range tbNbufslots).flatMap tb.tbTbslottable

def info (tb : TrxbufMem) (ts : TrxstmtMem) : TrxinfoMem := tb.tbInfos ts.tsTrxinfo

theorem getbufslot_lt (tb : TrxbufMem) (trxid : ℕ) : tb.getbufslot trxid < tbNbufslots :=
  Nat.mod_lt _ (by decide)

theorem mem_entries {tb : TrxbufMem} {ts : TrxstmtMem} :
    ts ∈ tb.entries ↔ ∃ i < tbNbufslots, ts ∈ tb.tbTbslottable i := by
  simp only [entries, List.mem_flatMap, List.mem_range]

end TrxbufMem

/-! ## The save -/

structure TrxbufSaving where
  infos : ℕ → TrxinfoMem
  file : TrxlFile
  trxlist : Trxlist
  stmttrxlist : Trxlist

variable (fl : FlAnswers)

/-- The record of a committed transaction. It is saved only once. -/
def saveTrx (st : TrxbufSaving) (ts : TrxstmtMem) : TrxbufSaving :=
  let ti := st.infos ts.tsTrxinfo
  if ti.iscommitted then
    let r := trxlAddlocal fl st.file st.trxlist (ti.tiUsertrxid, ti.tiCommittrxnum)
    { st with
      infos := Function.update st.infos ts.tsTrxinfo ti.setsaved
      file := r.1
      trxlist := r.2 }
  else st

def saveStmt (usevisiblealltrxid : Bool) (st : TrxbufSaving) (ts : TrxstmtMem) :
    TrxbufSaving :=
  let ti := st.infos ts.tsTrxinfo
  if !ti.isaborted || usevisiblealltrxid then
    let r := trxlAddlocal fl st.file st.stmttrxlist (ti.tiUsertrxid, ts.tsStmttrxid)
    { st with file := r.1, stmttrxlist := r.2 }
  else st

def saveEntry (usevisiblealltrxid : Bool) (st : TrxbufSaving) (ts : TrxstmtMem) :
    TrxbufSaving :=
  saveStmt fl usevisiblealltrxid (saveTrx fl st ts) ts

def unsaveEntry (infos : ℕ → TrxinfoMem) (ts : TrxstmtMem) : ℕ → TrxinfoMem :=
  if (infos ts.tsTrxinfo).issaved then
    Function.update infos ts.tsTrxinfo (infos ts.tsTrxinfo).setcommitted
  else infos

def scanSlots {σ : Type*} (tb : TrxbufMem) (body : σ → TrxstmtMem → σ) (s : σ) : σ :=
  (List.range tbNbufslots).foldl (fun s i => (tb.tbTbslottable i).foldl body s) s

/-- What `dbe_trxbuf_save` leaves: the buffer, the file and the two start addresses. -/
structure TrxbufSaved where
  tb : TrxbufMem
  file : TrxlFile
  trxlistdaddr : ℕ
  stmttrxlistdaddr : ℕ

def saveScan (blocksize : Idxblocksize) (cpnum : ℕ) (file : TrxlFile) (tb : TrxbufMem) :
    TrxbufSaving :=
  scanSlots tb (saveEntry fl tb.tbUsevisiblealltrxid)
    ⟨tb.tbInfos, file, dbeTrxlInit blocksize cpnum .trxlist,
      dbeTrxlInit blocksize cpnum .stmttrxlist⟩

def dbeTrxbufSave (blocksize : Idxblocksize) (cpnum : ℕ) (file : TrxlFile) (tb : TrxbufMem) :
    TrxbufSaved :=
  let st := saveScan fl blocksize cpnum file tb
  let r := dbeTrxlSave st.file st.trxlist
  let r' := dbeTrxlSave r.1 st.stmttrxlist
  ⟨{ tb with tbInfos := scanSlots tb unsaveEntry st.infos }, r'.1, r.2, r'.2⟩

/-! ## What is saved -/

variable {fl} {infos : ℕ → TrxinfoMem} {visall : Bool} {pre : List TrxstmtMem}
  {st : TrxbufSaving} {trxs : List ℕ} {tb : TrxbufMem}

theorem scanSlots_eq {σ : Type*} (tb : TrxbufMem) (body : σ → TrxstmtMem → σ) (s : σ) :
    scanSlots tb body s = tb.entries.foldl body s :=
  List.foldl_flatMap.symm

def trxRecord (infos : ℕ → TrxinfoMem) (i : ℕ) : ℕ × ℕ :=
  ((infos i).tiUsertrxid, (infos i).tiCommittrxnum)

def stmtRecord (infos : ℕ → TrxinfoMem) (ts : TrxstmtMem) : ℕ × ℕ :=
  ((infos ts.tsTrxinfo).tiUsertrxid, ts.tsStmttrxid)

def keptStmt (infos : ℕ → TrxinfoMem) (visall : Bool) (ts : TrxstmtMem) : Bool :=
  !(infos ts.tsTrxinfo).isaborted || visall

/-- The first loop has passed `pre`. `trxs` are the places of the transactions that it has
saved and `infos` are the transaction infos as they were before. -/
structure SavedUpto (fl : FlAnswers) (infos : ℕ → TrxinfoMem) (visall : Bool)
    (pre : List TrxstmtMem) (st : TrxbufSaving) (trxs : List ℕ) : Prop where
  pair : TrxlPair fl st.file st.trxlist st.stmttrxlist (trxs.map (trxRecord infos))
    ((pre.filter (keptStmt infos visall)).map (stmtRecord infos))
  nodup : trxs.Nodup
  mem_trxs : ∀ i, i ∈ trxs ↔
    (infos i).iscommitted = true ∧ ∃ ts ∈ pre, ts.tsTrxinfo = i
  infos_eq : ∀ i, st.infos i = if i ∈ trxs then (infos i).setsaved else infos i

theorem iscommitted_setsaved (ti : TrxinfoMem) : ti.setsaved.iscommitted = false := by
  change decide (trxstSaved &&& trxstBitmask = trxstCommit) = false
  decide

theorem isaborted_setsaved (ti : TrxinfoMem) : ti.setsaved.isaborted = false := by
  change decide (trxstSaved &&& trxstBitmask = trxstAbort) = false
  decide

theorem issaved_setsaved (ti : TrxinfoMem) : ti.setsaved.issaved = true := by
  change decide (trxstSaved &&& trxstBitmask = trxstSaved) = true
  decide

theorem TrxinfoMem.isaborted_of_iscommitted {ti : TrxinfoMem} (h : ti.iscommitted = true) :
    ti.isaborted = false := by
  have hstate : ti.getstate = trxstCommit := of_decide_eq_true h
  unfold isaborted
  rw [hstate]
  decide

theorem SavedUpto.saveTrx (h : SavedUpto fl infos visall pre st trxs) (ts : TrxstmtMem) :
    ∃ trxs' : List ℕ, (TrxlPair fl (saveTrx fl st ts).file (saveTrx fl st ts).trxlist
        (saveTrx fl st ts).stmttrxlist (trxs'.map (trxRecord infos))
        ((pre.filter (keptStmt infos visall)).map (stmtRecord infos))) ∧ trxs'.Nodup ∧
      (∀ i, i ∈ trxs' ↔
        (infos i).iscommitted = true ∧ ∃ ts' ∈ pre ++ [ts], ts'.tsTrxinfo = i) ∧
      ∀ i, (saveTrx fl st ts).infos i = if i ∈ trxs' then (infos i).setsaved else infos i := by
  have hmem (i : ℕ) : (∃ ts' ∈ pre ++ [ts], ts'.tsTrxinfo = i) ↔
      (∃ ts' ∈ pre, ts'.tsTrxinfo = i) ∨ ts.tsTrxinfo = i := by
    simp [or_and_right, exists_or]
  have hti := h.infos_eq ts.tsTrxinfo
  unfold SolidDB.saveTrx
  by_cases hold : ts.tsTrxinfo ∈ trxs
  · -- the transaction has been saved with an earlier statement
    rw [if_pos hold] at hti
    have hnot : ¬ (st.infos ts.tsTrxinfo).iscommitted = true := by
      rw [hti, iscommitted_setsaved]
      exact Bool.false_ne_true
    simp only [if_neg hnot]
    refine ⟨trxs, h.pair, h.nodup, fun i => ?_, h.infos_eq⟩
    rw [hmem, h.mem_trxs]
    refine and_congr_right fun _ => ⟨.inl, ?_⟩
    rintro (hpre | rfl)
    · exact hpre
    · exact ((h.mem_trxs _).mp hold).2
  · rw [if_neg hold] at hti
    by_cases hcom : (infos ts.tsTrxinfo).iscommitted = true
    · have hcom' : (st.infos ts.tsTrxinfo).iscommitted = true := by
        rw [hti]
        exact hcom
      simp only [if_pos hcom']
      refine ⟨trxs ++ [ts.tsTrxinfo], ?_, ?_, fun i => ?_, fun i => ?_⟩
      · rw [List.map_append, hti]
        exact h.pair.add (trxRecord infos ts.tsTrxinfo)
      · refine h.nodup.append (List.nodup_singleton _) ?_
        intro i hi hi'
        rw [List.mem_singleton.mp hi'] at hi
        exact hold hi
      · rw [List.mem_append, List.mem_singleton, hmem, h.mem_trxs]
        constructor
        · rintro (⟨hi, hpre⟩ | rfl)
          · exact ⟨hi, .inl hpre⟩
          · exact ⟨hcom, .inr rfl⟩
        · rintro ⟨hi, hpre | rfl⟩
          · exact .inl ⟨hi, hpre⟩
          · exact .inr rfl
      · by_cases hi : i = ts.tsTrxinfo
        · subst hi
          have hin : ts.tsTrxinfo ∈ trxs ++ [ts.tsTrxinfo] :=
            List.mem_append_right trxs List.mem_cons_self
          rw [Function.update_self, if_pos hin, hti]
        · have hin : i ∈ trxs ++ [ts.tsTrxinfo] ↔ i ∈ trxs := by
            rw [List.mem_append, List.mem_singleton, or_iff_left hi]
          rw [Function.update_of_ne hi, h.infos_eq]
          simp only [hin]
    · have hcom' : ¬ (st.infos ts.tsTrxinfo).iscommitted = true := by
        rw [hti]
        exact hcom
      simp only [if_neg hcom']
      refine ⟨trxs, h.pair, h.nodup, fun i => ?_, h.infos_eq⟩
      rw [hmem, h.mem_trxs]
      constructor
      · rintro ⟨hi, hpre⟩
        exact ⟨hi, .inl hpre⟩
      · rintro ⟨hi, hpre | rfl⟩
        · exact ⟨hi, hpre⟩
        · exact absurd hi hcom

theorem SavedUpto.saveEntry (h : SavedUpto fl infos visall pre st trxs) (ts : TrxstmtMem) :
    ∃ trxs', SavedUpto fl infos visall (pre ++ [ts]) (saveEntry fl visall st ts) trxs' := by
  obtain ⟨trxs', hpair, hnodup, hmem, hinfos⟩ := h.saveTrx ts
  have hti := hinfos ts.tsTrxinfo
  -- the temporary state keeps the user id and does not look aborted
  have huser : ((SolidDB.saveTrx fl st ts).infos ts.tsTrxinfo).tiUsertrxid =
      (infos ts.tsTrxinfo).tiUsertrxid := by
    rw [hti]
    split
    · rfl
    · rfl
  have habort : ((SolidDB.saveTrx fl st ts).infos ts.tsTrxinfo).isaborted =
      (infos ts.tsTrxinfo).isaborted := by
    rw [hti]
    split
    · rename_i hin
      rw [isaborted_setsaved, TrxinfoMem.isaborted_of_iscommitted ((hmem _).mp hin).1]
    · rfl
  refine ⟨trxs', ?_⟩
  unfold SolidDB.saveEntry saveStmt
  simp only [huser, habort]
  by_cases hkept : keptStmt infos visall ts = true
  · have hcond : (!(infos ts.tsTrxinfo).isaborted || visall) = true := hkept
    simp only [if_pos hcond]
    refine ⟨?_, hnodup, hmem, hinfos⟩
    rw [List.filter_append, List.filter_cons_of_pos hkept, List.filter_nil, List.map_append]
    exact (hpair.symm.add (stmtRecord infos ts)).symm
  · have hcond : ¬ (!(infos ts.tsTrxinfo).isaborted || visall) = true := hkept
    simp only [if_neg hcond]
    refine ⟨?_, hnodup, hmem, hinfos⟩
    rw [List.filter_append, List.filter_cons_of_neg hkept, List.filter_nil, List.append_nil]
    exact hpair

theorem SavedUpto.foldl (h : SavedUpto fl infos visall pre st trxs) (es : List TrxstmtMem) :
    ∃ trxs', SavedUpto fl infos visall (pre ++ es)
      (es.foldl (SolidDB.saveEntry fl visall) st) trxs' := by
  induction es generalizing pre st trxs with
  | nil => exact ⟨trxs, by rw [List.append_nil]; exact h⟩
  | cons ts es ih =>
      obtain ⟨trxs', h'⟩ := h.saveEntry ts
      rw [List.append_cons]
      exact ih h'

theorem saveScan_savedUpto (fl : FlAnswers) (blocksize : Idxblocksize) (cpnum : ℕ) (file : TrxlFile)
    (tb : TrxbufMem) :
    ∃ trxs, SavedUpto fl tb.tbInfos tb.tbUsevisiblealltrxid tb.entries
      (saveScan fl blocksize cpnum file tb) trxs := by
  have hinit : SavedUpto fl tb.tbInfos tb.tbUsevisiblealltrxid []
      ⟨tb.tbInfos, file, dbeTrxlInit blocksize cpnum .trxlist,
        dbeTrxlInit blocksize cpnum .stmttrxlist⟩ [] := by
    refine ⟨⟨[], [], trxlHolds_init .., trxlHolds_init .., ?_⟩, List.nodup_nil, ?_, ?_⟩
    · exact List.disjoint_nil_left _
    · simp
    · simp
  have hscan := hinit.foldl tb.entries
  rw [List.nil_append] at hscan
  rw [saveScan, scanSlots_eq]
  exact hscan

theorem issaved_setcommitted (ti : TrxinfoMem) : ti.setcommitted.issaved = false := by
  change decide (trxstCommit &&& trxstBitmask = trxstSaved) = false
  decide

/-- The second loop gives the saved transactions the bare state back. -/
theorem unsave_foldl {es : List TrxstmtMem}
    (hsaved : ∀ ts ∈ es, (infos ts.tsTrxinfo).issaved = true ↔ ts.tsTrxinfo ∈ trxs) (i : ℕ) :
    es.foldl unsaveEntry infos i =
      if i ∈ trxs ∧ ∃ ts ∈ es, ts.tsTrxinfo = i then (infos i).setcommitted else infos i := by
  induction es generalizing infos trxs with
  | nil => simp
  | cons ts es ih =>
      have hts := hsaved ts List.mem_cons_self
      have hes := fun ts' hts' => hsaved ts' (List.mem_cons_of_mem ts hts')
      rw [List.foldl_cons, unsaveEntry]
      by_cases hin : ts.tsTrxinfo ∈ trxs
      · rw [if_pos (hts.mpr hin)]
        have hsaved' : ∀ ts' ∈ es, (Function.update infos ts.tsTrxinfo
            (infos ts.tsTrxinfo).setcommitted ts'.tsTrxinfo).issaved = true ↔
              ts'.tsTrxinfo ∈ trxs.filter (· ≠ ts.tsTrxinfo) := by
          intro ts' hts'
          rw [List.mem_filter]
          by_cases hj : ts'.tsTrxinfo = ts.tsTrxinfo
          · simp [hj, issaved_setcommitted]
          · rw [Function.update_of_ne hj, hes ts' hts']
            simp [hj]
        rw [ih hsaved']
        by_cases hi : i = ts.tsTrxinfo
        · subst hi
          simp [hin]
        · have hi' : ¬ ts.tsTrxinfo = i := fun e => hi e.symm
          simp [hi, hi']
      · have hnot : ¬ (infos ts.tsTrxinfo).issaved = true := fun h => hin (hts.mp h)
        rw [if_neg hnot, ih hes]
        by_cases hi : i = ts.tsTrxinfo
        · subst hi
          simp [hin]
        · have hi' : ¬ ts.tsTrxinfo = i := fun e => hi e.symm
          simp [hi']

/-- The buffer after `dbe_trxbuf_save`: the committed transactions of its entries have the
bare state. -/
theorem dbeTrxbufSave_infos (hsaved : ∀ ts ∈ tb.entries, (tb.info ts).issaved = false)
    (fl : FlAnswers) (blocksize : Idxblocksize) (cpnum : ℕ) (file : TrxlFile) (i : ℕ) :
    (dbeTrxbufSave fl blocksize cpnum file tb).tb.tbInfos i =
      if (tb.tbInfos i).iscommitted = true ∧ ∃ ts ∈ tb.entries, ts.tsTrxinfo = i then
        (tb.tbInfos i).setcommitted
      else tb.tbInfos i := by
  obtain ⟨trxs, h⟩ := saveScan_savedUpto fl blocksize cpnum file tb
  have hsaved' : ∀ ts ∈ tb.entries,
      ((saveScan fl blocksize cpnum file tb).infos ts.tsTrxinfo).issaved = true ↔
        ts.tsTrxinfo ∈ trxs := by
    intro ts hts
    rw [h.infos_eq]
    by_cases hin : ts.tsTrxinfo ∈ trxs
    · rw [if_pos hin]
      exact iff_of_true (issaved_setsaved _) hin
    · rw [if_neg hin]
      refine iff_of_false ?_ hin
      rw [show tb.tbInfos ts.tsTrxinfo = tb.info ts from rfl, hsaved ts hts]
      exact Bool.false_ne_true
  change scanSlots tb unsaveEntry (saveScan fl blocksize cpnum file tb).infos i = _
  rw [scanSlots_eq, unsave_foldl hsaved', h.infos_eq]
  by_cases hin : i ∈ trxs
  · have hmem := (h.mem_trxs i).mp hin
    rw [if_pos ⟨hin, hmem.2⟩, if_pos hin, if_pos hmem]
    rfl
  · have hmem := fun hm => hin ((h.mem_trxs i).mpr hm)
    rw [if_neg fun hm => hin hm.1, if_neg hin, if_neg hmem]

end SolidDB
