import SolidDB.Dbe.GtrsStable

/-!
# The transaction buffer

`dbe_trxbuf_t` maps the statement ids of keys to transaction infos. A slot is the list
`tbs_list` of its entries, the newest first; the hash chains hold the same entries. A
merge stamps or removes the keys it meets, and then has the buffer cleaned of the entries
that no key needs any more.
-/

namespace SolidDB

/-! ## The buffer -/

/-- The `dbe_trxinfo_t` that an entry points to: that of a transaction, which the gate
changes, or one that `dbe_trxbuf_abortstmt` has made. -/
inductive TrxinfoRef where
  | trx (t : ℕ)
  | stmt (ti : Trxinfo)

/-- The transaction info itself; `infos` has those of the transactions. -/
def TrxinfoRef.deref (infos : ℕ → Trxinfo) : TrxinfoRef → Trxinfo
  | .trx t => infos t
  | .stmt ti => ti

structure Trxstmt where
  tsStmttrxid : ℕ
  tsTrxinfo : TrxinfoRef

structure Trxbuf where
  tbTbslottable : ℕ → List Trxstmt
  tbTablesize : ℕ
  tbNbufslots : ℕ
  tbUsevisiblealltrxid : Bool
  tbVisiblealltrxid : ℕ
  tbAborttrxid : ℕ
  tbDisabletrxid : ℕ

structure Opentrxinfo where
  otiTable : List ℕ
  otiTablemin : ℕ
  otiTablemax : ℕ

def dbeTrxbufInit (tablesize aborttrxid : ℕ) (usevisiblealltrxid : Bool) : Trxbuf where
  tbTbslottable := fun _ => []
  tbTablesize := tablesize
  tbNbufslots := 16
  tbUsevisiblealltrxid := usevisiblealltrxid
  tbVisiblealltrxid := aborttrxid
  tbAborttrxid := aborttrxid
  tbDisabletrxid := 0

def trxbufGetbufslot (tb : Trxbuf) (trxid : ℕ) : ℕ :=
  trxid % tb.tbTablesize % tb.tbNbufslots

def trxbufFind (tb : Trxbuf) (stmttrxid : ℕ) : Option Trxstmt :=
  (tb.tbTbslottable (trxbufGetbufslot tb stmttrxid)).find? fun ts =>
    ts.tsStmttrxid = stmttrxid

def dbeTrxbufSetaborttrxid (tb : Trxbuf) (aborttrxid : ℕ) : Trxbuf :=
  if tb.tbUsevisiblealltrxid then tb else { tb with tbAborttrxid := aborttrxid }

/-- `dbe_trxbuf_addstmt`, `dbe_trxbuf_add` -/
def dbeTrxbufAddstmt (tb : Trxbuf) (stmttrxid : ℕ) (ti : TrxinfoRef) : Trxbuf :=
  let index := trxbufGetbufslot tb stmttrxid
  { tb with
    tbTbslottable := Function.update tb.tbTbslottable index
      (⟨stmttrxid, ti⟩ :: tb.tbTbslottable index) }

def trxstmtSettrxinfo (stmttrxid : ℕ) (ti : TrxinfoRef) : List Trxstmt → List Trxstmt
  | [] => []
  | ts :: rest =>
    if ts.tsStmttrxid = stmttrxid then { ts with tsTrxinfo := ti } :: rest
    else ts :: trxstmtSettrxinfo stmttrxid ti rest

/-- The info that `dbe_trxbuf_abortstmt` makes for the statement. -/
def abortstmtTrxinfo (aborttrxnum stmttrxid : ℕ) : Trxinfo :=
  { dbeTrxinfoInitbuf with
    tiUsertrxid := stmttrxid, tiCommittrxnum := aborttrxnum }.setState .abort

def dbeTrxbufAbortstmt (tb : Trxbuf) (aborttrxnum stmttrxid : ℕ) : Trxbuf :=
  let index := trxbufGetbufslot tb stmttrxid
  { tb with
    tbTbslottable := Function.update tb.tbTbslottable index
      (trxstmtSettrxinfo stmttrxid (.stmt (abortstmtTrxinfo aborttrxnum stmttrxid))
        (tb.tbTbslottable index)) }

def dbeGtrsGetopentrxinfo (g : Gtrs) : Opentrxinfo :=
  match g.gtrsActivetrxlist with
  | [] => ⟨[], 0, 0⟩
  | t :: rest => ⟨t :: rest, rest.foldl min t, rest.foldl max t⟩

def dbeTrxbufIsopentrx (oti : Option Opentrxinfo) (trxid : ℕ) : Bool :=
  match oti with
  | none => false
  | some oti =>
    if oti.otiTable.length = 0 then false
    else if trxid < oti.otiTablemin || oti.otiTablemax < trxid then false
    else oti.otiTable.contains trxid

/-- What `dbe_trxbuf_clean` decides about an entry. -/
def trxbufRemovetrx (tb : Trxbuf) (infos : ℕ → Trxinfo) (cleantrxnum mergestartAborttrxid : ℕ)
    (oti : Option Opentrxinfo) (ts : Trxstmt) : Bool :=
  let ti := ts.tsTrxinfo.deref infos
  if ti.isended then
    if ti.tiMtabletrx then true
    else if ti.tiState = .commit ∧ ti.tiCommittrxnum ≤ cleantrxnum then
      !dbeTrxbufIsopentrx oti ti.tiUsertrxid
    else if tb.tbUsevisiblealltrxid then
      if mergestartAborttrxid = 0 then false
      else if ti.tiState = .abort ∧ ts.tsStmttrxid ≤ mergestartAborttrxid then
        !(mergestartAborttrxid < ti.tiCommittrxnum || dbeTrxbufIsopentrx oti ti.tiUsertrxid)
      else false
    else ti.tiState = .abort ∧ ts.tsStmttrxid ≤ mergestartAborttrxid
  else false

/-- One turn of the loop of `dbe_trxbuf_clean`, which enters and leaves the slots one
after the other. -/
def trxbufCleanslot (tb : Trxbuf) (infos : ℕ → Trxinfo) (cleantrxnum mergestartAborttrxid : ℕ)
    (oti : Option Opentrxinfo) (i : ℕ) : Trxbuf :=
  let kept := (tb.tbTbslottable i).filter fun ts =>
    !trxbufRemovetrx tb infos cleantrxnum mergestartAborttrxid oti ts
  { tb with
    tbTbslottable := Function.update tb.tbTbslottable i kept
    tbVisiblealltrxid :=
      if tb.tbUsevisiblealltrxid ∧ tb.tbVisiblealltrxid < cleantrxnum then cleantrxnum
      else tb.tbVisiblealltrxid }

/-- `dbe_trxbuf_gettrxstate`: the state, the commit number and the user id. -/
def dbeTrxbufGettrxstate (tb : Trxbuf) (infos : ℕ → Trxinfo) (keytrxid : ℕ) :
    TrxState × ℕ × ℕ :=
  match trxbufFind tb keytrxid with
  | some ts =>
    let ti := ts.tsTrxinfo.deref infos
    match ti.tiState with
    | .begun => (.begun, 0, ti.tiUsertrxid)
    | .validate => (.validate, ti.tiCommittrxnum, ti.tiUsertrxid)
    | .commit => (.commit, ti.tiCommittrxnum, ti.tiUsertrxid)
    | .abort => (.abort, ti.tiCommittrxnum, ti.tiUsertrxid)
  | none =>
    if tb.tbDisabletrxid = keytrxid then (.begun, 0, keytrxid)
    else if !tb.tbUsevisiblealltrxid ∧ keytrxid ≤ tb.tbAborttrxid then (.abort, 0, 0)
    else if tb.tbUsevisiblealltrxid ∧ keytrxid ≤ tb.tbVisiblealltrxid then
      (.commit, tb.tbVisiblealltrxid, tb.tbVisiblealltrxid)
    else (.begun, 0, keytrxid)

/-! ## The index, the merge and the transactions -/

/-- A key of the index that no merge has stamped, with its statement id. -/
structure IndexKey where
  keyNo : ℕ
  keyTrxid : ℕ
  deriving DecidableEq

/-- `dbe_indmerge_t`, the keys that it has not met yet of those that were in the index at
its start, and the slot that its call of `dbe_trxbuf_clean` comes to next. -/
structure Indmerge where
  imPatchtrxnum : ℕ
  imAborttrxid : ℕ
  imOpentrxinfo : Option Opentrxinfo
  imUnmet : List IndexKey
  imSlot : ℕ

/-- The gate, the buffer, the keys of the index and the merge. What a transaction did is
kept beside them: whose a statement id is, which ids have been added to the buffer and
which statements have been aborted. -/
structure Gobj where
  goGtrs : Gtrs
  goTrxbuf : Trxbuf
  goKeys : List IndexKey
  goIndmerge : Option Indmerge
  goOwner : ℕ → ℕ
  goAdded : List ℕ
  goAborted : List ℕ

def gobjInit (cfg : GtrsCfg) (ctr : DbeCounter) (tablesize : ℕ) : Gobj where
  goGtrs := dbeGtrsInit ctr
  goTrxbuf := dbeTrxbufInit tablesize ctr.ctrTrxid cfg.mergecleanup
  goKeys := []
  goIndmerge := none
  goOwner := id
  goAdded := []
  goAborted := []

namespace Gobj

def trxstate (s : Gobj) (keytrxid : ℕ) : TrxState × ℕ × ℕ :=
  dbeTrxbufGettrxstate s.goTrxbuf s.goGtrs.gtrsTrxinfo keytrxid

/-- A transaction that has keys in the index commits through a validation that the gate
lists. -/
def MayEnd (s : Gobj) (a : EndtrxArgs) : Prop :=
  a.commitp = true → (∃ k ∈ s.goKeys, s.goOwner k.keyTrxid = a.endedTrx) →
    s.goGtrs.Validating a.endedTrx

instance (s : Gobj) (a : EndtrxArgs) : Decidable (s.MayEnd a) :=
  inferInstanceAs (Decidable (_ → _ → _ ∧ _))

/-- A statement of an active transaction gets its id from `dbe_counter_getnewtrxid`. -/
def stmtbegin (s : Gobj) (t : ℕ) : Gobj :=
  let new := dbeCounterGetnewtrxid s.goGtrs.gtrsCtr
  { s with
    goGtrs := s.goGtrs.setCtr new.2
    goOwner := Function.update s.goOwner new.1 t }

/-- `dbe_indmerge_init_ex`. `patchtrxnum` is the answer of `dbe_counter_getmaxtrxnum`. -/
def mergestart (s : Gobj) (patchtrxnum : ℕ) : Indmerge :=
  if s.goTrxbuf.tbUsevisiblealltrxid then
    ⟨patchtrxnum, s.goGtrs.gtrsCtr.ctrTrxid, some (dbeGtrsGetopentrxinfo s.goGtrs), s.goKeys, 0⟩
  else ⟨patchtrxnum, s.goTrxbuf.tbAborttrxid, none, s.goKeys, 0⟩

/-- Whether the merge stamps or removes a key that it meets now. -/
def patches (s : Gobj) (m : Indmerge) (k : IndexKey) : Bool :=
  match s.trxstate k.keyTrxid with
  | (.commit, trxnum, _) => trxnum ≤ m.imPatchtrxnum
  | (.abort, _, _) => true
  | _ => false

def meetkey (s : Gobj) (m : Indmerge) (k : IndexKey) : Gobj :=
  { s with
    goKeys := if s.patches m k then s.goKeys.filter (· ≠ k) else s.goKeys
    goIndmerge := some { m with imUnmet := m.imUnmet.filter (· ≠ k) } }

/-- One turn of the loop in the merge's call of `dbe_trxbuf_clean`. -/
def cleanslot (s : Gobj) (m : Indmerge) : Gobj :=
  { s with
    goTrxbuf := trxbufCleanslot s.goTrxbuf s.goGtrs.gtrsTrxinfo m.imPatchtrxnum m.imAborttrxid
      m.imOpentrxinfo m.imSlot
    goIndmerge := some { m with imSlot := m.imSlot + 1 } }

/-- The call of the gate, and after `dbe_gtrs_endtrx` the abort id for the buffer. -/
def gateTrxbuf (cfg : GtrsCfg) (s : Gobj) : GtrsOp → Trxbuf
  | .endtrx a => match (dbeGtrsEndtrx cfg s.goGtrs a).2.2 with
    | some aborttrxid => dbeTrxbufSetaborttrxid s.goTrxbuf aborttrxid
    | none => s.goTrxbuf
  | _ => s.goTrxbuf

end Gobj

inductive GobjOp where
  | gate (op : GtrsOp)
  | stmtbegin (t : ℕ)
  | addstmt (stmttrxid : ℕ)
  | abortstmt (stmttrxid : ℕ)
  | insertkey (k : IndexKey)
  | mergestart (patchtrxnum : ℕ)
  | meetkey (k : IndexKey)
  | cleanslot
  | mergestop
  | mergecleanslot (cleantrxnum i : ℕ)

/-- The call of the gate is one that the callers make. -/
def Gobj.MayCall (s : Gobj) : GtrsOp → Prop
  | .endtrx a => s.MayEnd a
  | _ => True

instance (s : Gobj) (op : GtrsOp) : Decidable (s.MayCall op) :=
  match op with
  | .endtrx a => inferInstanceAs (Decidable (s.MayEnd a))
  | .begintrx => .isTrue trivial
  | .getnewreadlevel _ _ => .isTrue trivial
  | .readmaxtrxnum _ => .isTrue trivial
  | .addtrxreadlevel _ => .isTrue trivial
  | .setcanremovereadlevel _ _ => .isTrue trivial
  | .mtablecommit _ => .isTrue trivial
  | .beginvalidate _ => .isTrue trivial
  | .releasereadlevels _ _ => .isTrue trivial

/-- One step. Ids are added to the buffer once and before their first key, and keys are
inserted while the transaction is open. -/
def Gobj.step (cfg : GtrsCfg) (s : Gobj) : GobjOp → Option Gobj
  | .gate op =>
    if s.MayCall op then
      (s.goGtrs.step cfg op).map fun g => { s with goGtrs := g, goTrxbuf := s.gateTrxbuf cfg op }
    else none
  | .stmtbegin t => if t ∈ s.goGtrs.gtrsActivetrxlist then some (s.stmtbegin t) else none
  | .addstmt stmttrxid =>
    if stmttrxid ≤ s.goGtrs.gtrsCtr.ctrTrxid ∧ stmttrxid ∉ s.goAdded then
      some { s with
        goTrxbuf := dbeTrxbufAddstmt s.goTrxbuf stmttrxid (.trx (s.goOwner stmttrxid))
        goAdded := stmttrxid :: s.goAdded }
    else none
  | .abortstmt stmttrxid =>
    if stmttrxid ∈ s.goAdded ∧ stmttrxid ∉ s.goAborted ∧
        s.goOwner stmttrxid ∈ s.goGtrs.gtrsActivetrxlist then
      some { s with
        goTrxbuf := dbeTrxbufAbortstmt s.goTrxbuf
          (dbeCounterGetcommittrxnum s.goGtrs.gtrsCtr) stmttrxid
        goAborted := stmttrxid :: s.goAborted }
    else none
  | .insertkey k =>
    if k ∉ s.goKeys ∧ k.keyTrxid ∈ s.goAdded ∧ k.keyTrxid ∉ s.goAborted ∧
        s.goOwner k.keyTrxid ∈ s.goGtrs.gtrsActivetrxlist ∧
        (s.goGtrs.gtrsTrxinfo (s.goOwner k.keyTrxid)).tiState = .begun then
      some { s with goKeys := k :: s.goKeys }
    else none
  | .mergestart patchtrxnum =>
    if s.goIndmerge.isNone ∧ patchtrxnum ≤ s.goGtrs.gtrsCtr.ctrMaxtrxnum then
      some { s with goIndmerge := some (s.mergestart patchtrxnum) }
    else none
  | .meetkey k => match s.goIndmerge with
    | some m => if k ∈ s.goKeys then some (s.meetkey m k) else none
    | none => none
  | .cleanslot => match s.goIndmerge with
    | some m =>
      if m.imUnmet = [] ∧ m.imSlot < s.goTrxbuf.tbNbufslots then some (s.cleanslot m) else none
    | none => none
  | .mergestop => some { s with goIndmerge := none }
  | .mergecleanslot cleantrxnum i =>
    if cfg.mergecleanup = true ∧ cleantrxnum ≤ s.goGtrs.gtrsCtr.ctrMergetrxnum then
      some { s with
        goTrxbuf := trxbufCleanslot s.goTrxbuf s.goGtrs.gtrsTrxinfo cleantrxnum 0 none i }
    else none

def Gobj.run (cfg : GtrsCfg) : Gobj → List GobjOp → Option Gobj
  | s, [] => some s
  | s, op :: ops => (s.step cfg op).bind fun s' => Gobj.run cfg s' ops

end SolidDB
