import SolidDB.Dbe.Counter
import Mathlib.Data.List.Basic
import Mathlib.Logic.Function.Basic

/-!
# The transaction gate

`dbe_gtrs_t` keeps the active transactions, those under validation and the read levels
that are held. A transaction is known by its `ti_usertrxid`, which `trx_init` takes from
the counter; `gtrsTrxinfo` and `gtrsAt` have its `dbe_trxinfo_t` and its
`gtrs_activetrx_t`.
-/

namespace SolidDB

/-! ## The state -/

inductive TrxState where
  | begun
  | validate
  | commit
  | abort
  deriving DecidableEq

/-- `dbe_trxinfo_t`, with two of the flags of `ti_state` as fields of their own. -/
structure Trxinfo where
  tiState : TrxState
  tiUsertrxid : ℕ
  tiMaxtrxnum : ℕ
  tiCommittrxnum : ℕ
  tiCanremovereadlevel : Bool
  tiMtabletrx : Bool
  deriving DecidableEq

structure Activetrx where
  atNmergewrites : ℤ
  atIswrites : Bool
  atIsvalidate : Bool
  deriving DecidableEq

/-- `dbe_gtrs_t` with its counter. `gtrsUsereadlevel` is `TRX_FLAG_USEREADLEVEL` of the
transactions. -/
structure Gtrs where
  gtrsCtr : DbeCounter
  gtrsTrxinfo : ℕ → Trxinfo
  gtrsAt : ℕ → Activetrx
  gtrsUsereadlevel : ℕ → Bool
  gtrsValidatetrxlist : List ℕ
  gtrsActivetrxlist : List ℕ
  gtrsReadlevellist : List ℕ
  gtrsPendingmergewrites : ℤ

/-- `dbe_cfg_mergecleanup`, `dbe_cfg_relaxedreadlevel` and
`dbe_gtrs_mergecleanup_recovery` -/
structure GtrsCfg where
  mergecleanup : Bool
  relaxedreadlevel : Bool
  mergecleanupRecovery : Bool

def dbeTrxinfoInitbuf : Trxinfo where
  tiState := .begun
  tiUsertrxid := 0
  tiMaxtrxnum := 0
  tiCommittrxnum := 0
  tiCanremovereadlevel := false
  tiMtabletrx := false

namespace Trxinfo

/-- `dbe_trxinfo_setvalidate`, `dbe_trxinfo_setcommitted` and `dbe_trxinfo_setaborted`.
The macros assign the bare state, so the flags are gone afterwards. -/
def setState (ti : Trxinfo) (state : TrxState) : Trxinfo :=
  { ti with tiState := state, tiCanremovereadlevel := false, tiMtabletrx := false }

def isended (ti : Trxinfo) : Bool :=
  ti.tiState = .commit || ti.tiState = .abort

end Trxinfo

def dbeGtrsInit (ctr : DbeCounter) : Gtrs where
  gtrsCtr := ctr
  gtrsTrxinfo := fun _ => dbeTrxinfoInitbuf
  gtrsAt := fun _ => ⟨0, false, false⟩
  gtrsUsereadlevel := fun _ => false
  gtrsValidatetrxlist := []
  gtrsActivetrxlist := []
  gtrsReadlevellist := []
  gtrsPendingmergewrites := 0

namespace Gtrs

def setTrxinfo (g : Gtrs) (t : ℕ) (ti : Trxinfo) : Gtrs :=
  { g with gtrsTrxinfo := Function.update g.gtrsTrxinfo t ti }

def setAt (g : Gtrs) (t : ℕ) (at' : Activetrx) : Gtrs :=
  { g with gtrsAt := Function.update g.gtrsAt t at' }

def setCtr (g : Gtrs) (ctr : DbeCounter) : Gtrs :=
  { g with gtrsCtr := ctr }

def addNmergewrites (g : Gtrs) (t : ℕ) (n : ℤ) : Gtrs :=
  g.setAt t { g.gtrsAt t with atNmergewrites := (g.gtrsAt t).atNmergewrites + n }

def clearNmergewrites (g : Gtrs) (t : ℕ) : Gtrs :=
  g.setAt t { g.gtrsAt t with atNmergewrites := 0 }

@[simp] theorem gtrsTrxinfo_setTrxinfo_self (g : Gtrs) (t : ℕ) (ti : Trxinfo) :
    (g.setTrxinfo t ti).gtrsTrxinfo t = ti := by
  simp [setTrxinfo]

theorem gtrsTrxinfo_setTrxinfo_of_ne (g : Gtrs) {t u : ℕ} (h : u ≠ t) (ti : Trxinfo) :
    (g.setTrxinfo t ti).gtrsTrxinfo u = g.gtrsTrxinfo u := by
  simp [setTrxinfo, h]

@[simp] theorem gtrsAt_setAt_self (g : Gtrs) (t : ℕ) (at' : Activetrx) :
    (g.setAt t at').gtrsAt t = at' := by
  simp [setAt]

theorem gtrsAt_setAt_of_ne (g : Gtrs) {t u : ℕ} (h : u ≠ t) (at' : Activetrx) :
    (g.setAt t at').gtrsAt u = g.gtrsAt u := by
  simp [setAt, h]

end Gtrs

/-! ## Beginning a transaction, read levels and validation -/

def dbeGtrsAddtrxreadlevelNomutex (g : Gtrs) (t : ℕ) : Gtrs :=
  { g with gtrsReadlevellist := g.gtrsReadlevellist ++ [t] }

def dbeGtrsBegintrx (g : Gtrs) (t : ℕ) : Gtrs :=
  let g' := { g.setAt t ⟨0, false, false⟩ with gtrsActivetrxlist := g.gtrsActivetrxlist ++ [t] }
  if (g.gtrsTrxinfo t).tiMaxtrxnum ≠ 0 then dbeGtrsAddtrxreadlevelNomutex g' t else g'

/-- The part of `trx_init` that concerns the gate. -/
def trxInit (g : Gtrs) : Gtrs :=
  let new := dbeCounterGetnewtrxid g.gtrsCtr
  let t := new.1
  let g' := (g.setTrxinfo t { dbeTrxinfoInitbuf with tiUsertrxid := t }).setCtr new.2
  dbeGtrsBegintrx { g' with gtrsUsereadlevel := Function.update g.gtrsUsereadlevel t false } t

/-- `dbe_trx_getnewreadlevel` up to the insertion. -/
def trxReadmaxtrxnum (g : Gtrs) (t : ℕ) : Gtrs :=
  let g' := g.setTrxinfo t { g.gtrsTrxinfo t with tiMaxtrxnum := g.gtrsCtr.ctrMaxtrxnum }
  { g' with gtrsUsereadlevel := Function.update g.gtrsUsereadlevel t true }

/-- `dbe_trx_getnewreadlevel` inside the gate. `succp` is `trx_errcode == DBE_RC_SUCC`. -/
def dbeTrxGetnewreadlevel (g : Gtrs) (t : ℕ) (succp : Bool) : Gtrs :=
  if succp then dbeGtrsAddtrxreadlevelNomutex (trxReadmaxtrxnum g t) t
  else trxReadmaxtrxnum g t

def dbeGtrsBegintrxvalidate (g : Gtrs) (t : ℕ) : Gtrs :=
  { g.setAt t { g.gtrsAt t with atIsvalidate := true } with
    gtrsValidatetrxlist := g.gtrsValidatetrxlist ++ [t] }

/-- `trx_beginvalidate`. A transaction that uses no read level gets a commit number, but
the gate does not list it. -/
def trxBeginvalidate (cfg : GtrsCfg) (g : Gtrs) (t : ℕ) : Gtrs :=
  let new := dbeCounterGetnewcommittrxnum cfg.mergecleanup g.gtrsCtr
  let ti := { g.gtrsTrxinfo t with tiCommittrxnum := new.1 }
  let g' := (g.setTrxinfo t (ti.setState .validate)).setCtr new.2
  if g.gtrsUsereadlevel t then dbeGtrsBegintrxvalidate g' t else g'

/-- The commit number that `trx_validate` gives to a transaction that wrote to M-tables
only. It is taken outside the gate and without a validation. -/
def trxMtablecommit (cfg : GtrsCfg) (g : Gtrs) (t : ℕ) : Gtrs :=
  let new := dbeCounterGetnewcommittrxnum cfg.mergecleanup g.gtrsCtr
  let ti := { g.gtrsTrxinfo t with tiCommittrxnum := new.1, tiMtabletrx := true }
  (g.setTrxinfo t ti).setCtr new.2

/-- `dbe_trx_setcanremovereadlevel`, `dbe_trx_restart` -/
def trxSetcanremovereadlevel (g : Gtrs) (t : ℕ) (canremove : Bool) : Gtrs :=
  g.setTrxinfo t { g.gtrsTrxinfo t with tiCanremovereadlevel := canremove }

/-! ## Ending a transaction -/

/-- `su_list_prev` of the node of `t`. -/
def suListPrev (t : ℕ) : List ℕ → Option ℕ
  | a :: b :: rest => if b = t then some a else suListPrev t (b :: rest)
  | _ => none

/-- What `gtrs_removetrxreadlevel` does with the merge writes of the transaction. They go
to the transaction before it, else to the one after it if that reads at no higher level,
else to the caller. -/
def removeNmergewrites (g : Gtrs) (t : ℕ) (commitp : Bool) (nmergewrites : ℤ) : Gtrs × ℤ :=
  let mine := (g.gtrsAt t).atNmergewrites
  let give (u : ℕ) : Gtrs × ℤ :=
    if commitp then (((g.addNmergewrites u mine).clearNmergewrites t).addNmergewrites u
      nmergewrites, 0)
    else ((g.addNmergewrites u mine).clearNmergewrites t, nmergewrites)
  match suListPrev t g.gtrsReadlevellist with
  | some prev => give prev
  | none =>
    let first := match g.gtrsReadlevellist with
      | f :: rest => if f = t then rest.head? else some f
      | [] => none
    match first with
    | none => (g.clearNmergewrites t, nmergewrites + mine)
    | some f =>
      if (g.gtrsTrxinfo t).tiMaxtrxnum < (g.gtrsTrxinfo f).tiMaxtrxnum then
        (g.clearNmergewrites t, nmergewrites + mine)
      else give f

def gtrsRemovetrxreadlevel (g : Gtrs) (t : ℕ) (commitp : Bool) (nmergewrites : ℤ) : Gtrs × ℤ :=
  let r := removeNmergewrites g t commitp nmergewrites
  let g' := r.1.setTrxinfo t { r.1.gtrsTrxinfo t with tiMaxtrxnum := 0 }
  ({ g' with gtrsReadlevellist := g'.gtrsReadlevellist.erase t }, r.2)

def gtrsRemoveactivetrx (g : Gtrs) (t : ℕ) (commitp iswrites : Bool) (nmergewrites : ℤ) :
    Gtrs × ℤ :=
  let g' := g.setAt t { g.gtrsAt t with atIswrites := iswrites }
  let r := if t ∈ g.gtrsReadlevellist then gtrsRemovetrxreadlevel g' t commitp nmergewrites
    else (g', nmergewrites)
  ({ r.1 with gtrsActivetrxlist := r.1.gtrsActivetrxlist.erase t }, r.2)

/-- The loop of `gtrs_releasemergewrites`; every turn takes the head off the list. -/
def releaseLoop : ℕ → Gtrs → Option ℕ → ℤ → Gtrs × ℤ
  | 0, g, _, nmergewrites => (g, nmergewrites)
  | fuel + 1, g, prev, nmergewrites =>
    match g.gtrsReadlevellist.head? with
    | none => (g, nmergewrites)
    | some t =>
      if prev = some t then (g, nmergewrites)
      else if !(g.gtrsTrxinfo t).tiCanremovereadlevel || (g.gtrsAt t).atIswrites ||
          (g.gtrsAt t).atIsvalidate then
        (g, nmergewrites)
      else
        let r := gtrsRemovetrxreadlevel g t false 0
        releaseLoop fuel r.1 (some t) (nmergewrites + r.2)

/-- `gtrs_releasemergewrites`. `dbmergewrites` and `mergelimit` are the answers of
`dbe_db_getmergewrites` and `dbe_db_getmergelimit`. -/
def gtrsReleasemergewrites (g : Gtrs) (dbmergewrites mergelimit nmergewrites : ℤ) : Gtrs × ℤ :=
  if mergelimit ≤ dbmergewrites + nmergewrites + g.gtrsPendingmergewrites then
    releaseLoop (g.gtrsReadlevellist.length + 1) g none nmergewrites
  else (g, nmergewrites)

def gtrsReleasereadlevels (g : Gtrs) (dbmergewrites mergelimit : ℤ) : Gtrs :=
  let r := gtrsReleasemergewrites g dbmergewrites mergelimit 0
  { r.1 with gtrsPendingmergewrites := r.1.gtrsPendingmergewrites - r.2 }

structure EndtrxArgs where
  endedTrx : ℕ
  commitp : Bool
  iswrites : Bool
  nmergewrites : ℤ
  updatetrxinfo : Bool
  dbmergewrites : ℤ
  mergelimit : ℤ

/-- The state of the transaction is set. An aborted writer gets a commit number. -/
def endtrxSettrxinfo (cfg : GtrsCfg) (g : Gtrs) (a : EndtrxArgs) : Gtrs :=
  let ti := g.gtrsTrxinfo a.endedTrx
  if !a.updatetrxinfo then g
  else if a.commitp then g.setTrxinfo a.endedTrx (ti.setState .commit)
  else if a.iswrites ∧ ti.tiCommittrxnum = 0 then
    let new := dbeCounterGetnewcommittrxnum cfg.mergecleanup g.gtrsCtr
    let ti' := { ti with tiCommittrxnum := new.1 }
    (g.setTrxinfo a.endedTrx (ti'.setState .abort)).setCtr new.2
  else g.setTrxinfo a.endedTrx (ti.setState .abort)

/-- The loop that takes the ended transactions off the head of the validate list, and the
commit number of the last of them. -/
def endtrxValidatelist (g : Gtrs) (ended : ℕ) : List ℕ → ℕ → List ℕ × ℕ
  | [], maxtrxnum => ([], maxtrxnum)
  | v :: rest, maxtrxnum =>
    if (g.gtrsTrxinfo v).isended then
      endtrxValidatelist g ended rest (g.gtrsTrxinfo v).tiCommittrxnum
    else if ended = v then endtrxValidatelist g ended rest maxtrxnum
    else (v :: rest, maxtrxnum)

/-- The new maximum. If nothing was taken off the list and nothing is left in it, the
transaction raises the maximum to its own commit number. -/
def endtrxSetmaxtrxnum (g : Gtrs) (a : EndtrxArgs) (maxtrxnum : ℕ) : Gtrs :=
  let committrxnum := (g.gtrsTrxinfo a.endedTrx).tiCommittrxnum
  if maxtrxnum = 0 then
    if a.commitp ∧ committrxnum ≠ 0 ∧ g.gtrsValidatetrxlist = [] then
      g.setCtr (dbeCounterSetmaxtrxnum g.gtrsCtr committrxnum)
    else g
  else g.setCtr (dbeCounterSetmaxtrxnum g.gtrsCtr maxtrxnum)

/-- The level of the first transaction in the list that is not ended, else the maximum. -/
def endtrxMergetrxnum (g : Gtrs) : List ℕ → ℕ
  | [] => g.gtrsCtr.ctrMaxtrxnum
  | v :: rest =>
    if (g.gtrsTrxinfo v).isended then endtrxMergetrxnum g rest
    else (g.gtrsTrxinfo v).tiMaxtrxnum

/-- One below the first transaction in the list that is not ended, if that writes, else
the last transaction id. -/
def endtrxAborttrxid (g : Gtrs) : List ℕ → ℕ
  | [] => g.gtrsCtr.ctrTrxid
  | v :: rest =>
    if (g.gtrsTrxinfo v).isended then endtrxAborttrxid g rest
    else if (g.gtrsAt v).atIswrites ∧ (g.gtrsTrxinfo v).tiUsertrxid - 1 ≠ 0 then
      (g.gtrsTrxinfo v).tiUsertrxid - 1
    else g.gtrsCtr.ctrTrxid

/-- `dbe_gtrs_endtrx` up to the new maximum. -/
def endtrxMax (cfg : GtrsCfg) (g : Gtrs) (a : EndtrxArgs) : Gtrs :=
  let g₁ := endtrxSettrxinfo cfg
    { g with gtrsPendingmergewrites := g.gtrsPendingmergewrites + a.nmergewrites } a
  let r := endtrxValidatelist g₁ a.endedTrx g₁.gtrsValidatetrxlist 0
  endtrxSetmaxtrxnum { g₁ with gtrsValidatetrxlist := r.1 } a r.2

/-- The removal of the ended transaction and of read levels that can be released. -/
def endtrxRemove (g : Gtrs) (a : EndtrxArgs) : Gtrs × ℤ :=
  let r := gtrsRemoveactivetrx g a.endedTrx a.commitp a.iswrites a.nmergewrites
  if a.commitp ∧ a.iswrites then
    gtrsReleasemergewrites r.1 a.dbmergewrites a.mergelimit r.2
  else r

/-- `dbe_gtrs_endtrx`: the gate, the merge writes for the database object and the new
abort id for the transaction buffer. -/
def dbeGtrsEndtrx (cfg : GtrsCfg) (g : Gtrs) (a : EndtrxArgs) : Gtrs × ℤ × Option ℕ :=
  if a.endedTrx ∉ g.gtrsActivetrxlist then (g, 0, none)
  else
    let r := endtrxRemove (endtrxMax cfg g a) a
    let mergetrxnum := endtrxMergetrxnum r.1 r.1.gtrsReadlevellist
    let g' := { r.1 with gtrsPendingmergewrites := r.1.gtrsPendingmergewrites - r.2 }
    if mergetrxnum = 0 then (g', r.2, none)
    else
      let g'' := if cfg.mergecleanupRecovery then g'
        else g'.setCtr (dbeCounterSetmergetrxnum g'.gtrsCtr mergetrxnum)
      (g'', r.2, some (endtrxAborttrxid r.1 r.1.gtrsActivetrxlist))

/-! ## Runs -/

/-- A call of the gate. `readmaxtrxnum` and `addtrxreadlevel` are the two halves of
`dbe_trx_getnewreadlevel` as `trx_init` calls it when `dbe_cfg_relaxedreadlevel` is off,
without entering the gate. -/
inductive GtrsOp where
  | begintrx
  | getnewreadlevel (t : ℕ) (succp : Bool)
  | readmaxtrxnum (t : ℕ)
  | addtrxreadlevel (t : ℕ)
  | setcanremovereadlevel (t : ℕ) (canremove : Bool)
  | mtablecommit (t : ℕ)
  | beginvalidate (t : ℕ)
  | endtrx (a : EndtrxArgs)
  | releasereadlevels (dbmergewrites mergelimit : ℤ)

/-- One call by a caller that keeps to the order of the calls of a transaction. -/
def Gtrs.step (cfg : GtrsCfg) (g : Gtrs) : GtrsOp → Option Gtrs
  | .begintrx => some (trxInit g)
  | .getnewreadlevel t succp =>
    if t ∈ g.gtrsActivetrxlist ∧ t ∉ g.gtrsReadlevellist ∧
        (g.gtrsTrxinfo t).tiMaxtrxnum = 0 then
      some (dbeTrxGetnewreadlevel g t succp)
    else none
  | .readmaxtrxnum t =>
    if cfg.relaxedreadlevel = false ∧ t ∈ g.gtrsActivetrxlist ∧ t ∉ g.gtrsReadlevellist ∧
        (g.gtrsTrxinfo t).tiMaxtrxnum = 0 then
      some (trxReadmaxtrxnum g t)
    else none
  | .addtrxreadlevel t =>
    if cfg.relaxedreadlevel = false ∧ t ∈ g.gtrsActivetrxlist ∧ t ∉ g.gtrsReadlevellist ∧
        (g.gtrsTrxinfo t).tiMaxtrxnum ≠ 0 then
      some (dbeGtrsAddtrxreadlevelNomutex g t)
    else none
  | .setcanremovereadlevel t canremove =>
    if t ∈ g.gtrsActivetrxlist then some (trxSetcanremovereadlevel g t canremove) else none
  | .mtablecommit t =>
    if t ∈ g.gtrsActivetrxlist ∧ (g.gtrsTrxinfo t).tiCommittrxnum = 0 then
      some (trxMtablecommit cfg g t)
    else none
  | .beginvalidate t =>
    -- `TRX_FLAG_DTABLE` is set, and setting it takes a read level
    if t ∈ g.gtrsActivetrxlist ∧ (g.gtrsTrxinfo t).tiCommittrxnum = 0 ∧
        g.gtrsUsereadlevel t = true then
      some (trxBeginvalidate cfg g t)
    else none
  | .endtrx a => some (dbeGtrsEndtrx cfg g a).1
  | .releasereadlevels dbmergewrites mergelimit =>
    some (gtrsReleasereadlevels g dbmergewrites mergelimit)

theorem guard_of_eq_some {α : Type*} {p : Prop} {_ : Decidable p} {a b : α}
    (h : (if p then some a else none) = some b) : p ∧ a = b := by
  obtain ⟨hp, heq⟩ := Option.ite_none_right_eq_some.mp h
  exact ⟨hp, Option.some.inj heq⟩

def Gtrs.run (cfg : GtrsCfg) : Gtrs → List GtrsOp → Option Gtrs
  | g, [] => some g
  | g, op :: ops => (g.step cfg op).bind fun g' => Gtrs.run cfg g' ops

end SolidDB
