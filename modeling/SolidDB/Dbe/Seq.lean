import Mathlib.Data.List.Basic
import Mathlib.Logic.Function.Basic
import Mathlib.Algebra.Order.Ring.Int

/-!
# Sequences

A sequence operation changes the value under the mutex of the sequences, and only then
writes the log record (a sparse sequence) or marks the transaction (a dense one). In
between other operations come, but no checkpoint: an operation holds the action gate. The
fields `logged` to `pending` of the state are not in the program. They tell what the
operations have done.
-/

namespace SolidDB

/-- `rs_tuplenum_inc`: two words of four bytes. -/
def rsTuplenumInc (v : ℕ) : ℕ := (v + 1) % 2 ^ 64

structure Seqvalue where
  svValue : ℕ
  svRollbackvalue : ℕ
  svIsrollbackvalue : Bool

inductive Seqoper where
  | next
  | set (value : ℕ)
  deriving DecidableEq

def Seqoper.apply : Seqoper → ℕ → ℕ
  | .next, v => rsTuplenumInc v
  | .set w, _ => w

/-- A failed sparse operation takes its change back, if the value is still the one it
has set. -/
def seqUndo (sv : Seqvalue) (saved used : ℕ) : Seqvalue :=
  if used = sv.svValue then { sv with svValue := saved } else sv

/-- The value before the first change of the transaction is saved. -/
def seqSaverollback (sv : Seqvalue) (saved : ℕ) : Seqvalue :=
  if sv.svIsrollbackvalue then sv
  else { sv with svIsrollbackvalue := true, svRollbackvalue := saved }

def dbeSeqTransend (sv : Seqvalue) (commitp : Bool) : Seqvalue :=
  { sv with
    svIsrollbackvalue := false
    svValue := if commitp then sv.svValue else sv.svRollbackvalue }

def Seqvalue.saved (sv : Seqvalue) : ℕ :=
  if sv.svIsrollbackvalue then sv.svRollbackvalue else sv.svValue

/-- `dbe_seq_save_nomutex`: the records of the sequence list. -/
def dbeSeqSave (ids : List ℕ) (seq : ℕ → Seqvalue) : List (ℕ × ℕ) :=
  ids.map fun id => (id, (seq id).saved)

def dbeSeqRestore (seqlist : List (ℕ × ℕ)) : ℕ → Seqvalue :=
  seqlist.foldl (fun seq p => Function.update seq p.1 ⟨p.2, 0, false⟩) fun _ => ⟨0, 0, false⟩

def dbeSeqInc (sv : Seqvalue) : Seqvalue := { sv with svValue := rsTuplenumInc sv.svValue }

def dbeSeqSetvalue (sv : Seqvalue) (value : ℕ) : Seqvalue := { sv with svValue := value }

/-- The log records of the sequences. The value records of a transaction count only with
its commit record, and stand here with it. -/
inductive SeqLogrec where
  | incctr (id : ℕ)
  | setseq (values : List (ℕ × ℕ))

/-- `dbe_rollfwd_scancommitmarks` counts the record in `rf_ncommits`. -/
def SeqLogrec.iscommit : SeqLogrec → Bool
  | .incctr _ => false
  | .setseq _ => true

def seqRedo (seq : ℕ → Seqvalue) : SeqLogrec → ℕ → Seqvalue
  | .incctr id => Function.update seq id (dbeSeqInc (seq id))
  | .setseq values =>
    values.foldl (fun seq p => Function.update seq p.1 (dbeSeqSetvalue (seq p.1) p.2)) seq

structure Seqflight where
  trx : ℕ
  seqId : ℕ
  oper : Seqoper
  saved : ℕ
  used : ℕ
  deriving DecidableEq

structure SeqCfg where
  ids : List ℕ
  densep : ℕ → Bool

structure Seqsys where
  seq : ℕ → Seqvalue
  flight : List Seqflight
  holder : ℕ → Option ℕ
  trxSeqrbt : ℕ → List ℕ
  log : List SeqLogrec
  seqlist : List (ℕ × ℕ)
  logged : List (ℕ × ℕ)
  returned : List (ℕ × ℕ)
  committed : ℕ → ℕ
  pending : ℕ → ℕ

/-- The steps. A transaction is inside one operation at a time.

`change` is the part of `seq_oper` up to the exit of the mutex. Then `sparseEnd` writes the
log record, or does not and tries to undo the change, and `denseEnd` marks the
transaction. `setok` is the answer of `rs_tuplenum_setintoaval`. `logwrites` says that the
ending transaction has log records, those of the dense sequences apart. -/
inductive Seqop where
  | lock (trx id : ℕ)
  | change (trx id : ℕ) (oper : Seqoper)
  | sparseEnd (f : Seqflight) (logok setok : Bool)
  | denseEnd (f : Seqflight) (markok setok : Bool)
  | transend (trx : ℕ) (commitp logwrites : Bool)
  | checkpoint
  | crash

namespace Seqsys

def init (cfg : SeqCfg) (value : ℕ → ℕ) : Seqsys where
  seq := fun id => ⟨value id, 0, false⟩
  flight := []
  holder := fun _ => none
  trxSeqrbt := fun _ => []
  log := []
  seqlist := cfg.ids.map fun id => (id, value id)
  logged := []
  returned := []
  committed := value
  pending := value

def ncommits (s : Seqsys) : ℕ := s.log.countP SeqLogrec.iscommit

def redone (s : Seqsys) : ℕ → Seqvalue := s.log.foldl seqRedo (dbeSeqRestore s.seqlist)

/-- `dbe_rollfwd_recover` redoes nothing where no commit record is in the log. -/
def recover (s : Seqsys) : ℕ → Seqvalue :=
  if s.ncommits ≠ 0 then s.redone else dbeSeqRestore s.seqlist

def Idle (s : Seqsys) (trx : ℕ) : Prop := ∀ f ∈ s.flight, f.trx ≠ trx

instance (s : Seqsys) (trx : ℕ) : Decidable (s.Idle trx) :=
  inferInstanceAs (Decidable (∀ f ∈ s.flight, _))

/-- The exclusive lock on the sequence is free, or the transaction has it. -/
def Lockable (s : Seqsys) (trx id : ℕ) : Prop :=
  s.holder id = none ∨ s.holder id = some trx

instance (s : Seqsys) (trx id : ℕ) : Decidable (s.Lockable trx id) :=
  inferInstanceAs (Decidable (_ ∨ _))

def land (s : Seqsys) (f : Seqflight) : List Seqflight := s.flight.filter fun g => g ≠ f

def setseq (s : Seqsys) (id : ℕ) (sv : Seqvalue) : Seqsys :=
  { s with seq := Function.update s.seq id sv }

def change (s : Seqsys) (trx id : ℕ) (oper : Seqoper) : Seqsys :=
  let saved := (s.seq id).svValue
  let used := oper.apply saved
  { s with
    seq := Function.update s.seq id { s.seq id with svValue := used }
    flight := ⟨trx, id, oper, saved, used⟩ :: s.flight }

/-- The rest of a sparse operation, with the log record. -/
def sparseEnd (s : Seqsys) (f : Seqflight) (logok setok : Bool) : Seqsys :=
  if logok then
    { s with
      flight := s.land f
      log := s.log ++ [.incctr f.seqId]
      logged := (f.seqId, f.used) :: s.logged
      returned := if setok then (f.seqId, f.used) :: s.returned else s.returned }
  else
    { s with
      flight := s.land f
      seq := Function.update s.seq f.seqId (seqUndo (s.seq f.seqId) f.saved f.used) }

/-- The rest of a dense operation, with the mark to the transaction. -/
def denseEnd (s : Seqsys) (f : Seqflight) (markok setok : Bool) : Seqsys :=
  if markok then
    { s with
      flight := s.land f
      seq := if f.seqId ∈ s.trxSeqrbt f.trx then s.seq
        else Function.update s.seq f.seqId (seqSaverollback (s.seq f.seqId) f.saved)
      trxSeqrbt := if f.seqId ∈ s.trxSeqrbt f.trx then s.trxSeqrbt
        else Function.update s.trxSeqrbt f.trx (f.seqId :: s.trxSeqrbt f.trx)
      pending := if setok then
          Function.update s.pending f.seqId (f.oper.apply (s.pending f.seqId))
        else s.pending }
  else { s with flight := s.land f }

/-- `dbe_trx_seqcommit_nomutex`, `dbe_trx_seqtransend_nomutex`, and the release of the
locks. Where the commit cannot be written to the log, the transaction is rolled back. A
transaction without log records (`trx_nlogwrites`) has no commit record. -/
def transend (s : Seqsys) (trx : ℕ) (commitp logwrites : Bool) : Seqsys :=
  { s with
    seq := fun id =>
      if id ∈ s.trxSeqrbt trx then dbeSeqTransend (s.seq id) commitp else s.seq id
    log := if commitp && (logwrites || !(s.trxSeqrbt trx).isEmpty) then
        s.log ++ [.setseq ((s.trxSeqrbt trx).map fun id => (id, (s.seq id).svValue))]
      else s.log
    trxSeqrbt := Function.update s.trxSeqrbt trx []
    holder := fun id => if s.holder id = some trx then none else s.holder id
    committed := fun id =>
      if s.holder id = some trx ∧ commitp then s.pending id else s.committed id
    pending := fun id =>
      if s.holder id = some trx ∧ !commitp then s.committed id else s.pending id }

def crash (s : Seqsys) : Seqsys :=
  { s with
    seq := s.recover
    flight := []
    holder := fun _ => none
    trxSeqrbt := fun _ => []
    pending := s.committed }

/-- A step with its conditions: a dense operation needs the lock, and a checkpoint the
action gate. -/
def step (cfg : SeqCfg) (s : Seqsys) : Seqop → Option Seqsys
  | .lock trx id =>
    if id ∈ cfg.ids ∧ cfg.densep id ∧ s.Idle trx ∧ s.Lockable trx id then
      some { s with holder := Function.update s.holder id (some trx) }
    else none
  | .change trx id oper =>
    if id ∈ cfg.ids ∧ s.Idle trx then
      if cfg.densep id then
        if s.Lockable trx id then
          some ({ s with holder := Function.update s.holder id (some trx) }.change trx id oper)
        else none
      else if oper = .next then some (s.change trx id .next) else none
    else none
  | .sparseEnd f logok setok =>
    if f ∈ s.flight ∧ !cfg.densep f.seqId then some (s.sparseEnd f logok setok) else none
  | .denseEnd f markok setok =>
    if f ∈ s.flight ∧ cfg.densep f.seqId then some (s.denseEnd f markok setok) else none
  | .transend trx commitp logwrites =>
    if s.Idle trx then some (s.transend trx commitp logwrites) else none
  | .checkpoint =>
    if s.flight = [] then some { s with seqlist := dbeSeqSave cfg.ids s.seq, log := [] }
    else none
  | .crash => some s.crash

end Seqsys

/-- The condition on a step. A value does not wrap. The log record of an increment is
written in the order of the increments, and an increment that is not logged is undone. A
dense operation does not fail after its value change. Before a crash there is a commit
record in the log, or no record. -/
def Seqop.Ordered (cfg : SeqCfg) (s : Seqsys) : Seqop → Prop
  | .change _ id _ => cfg.densep id ∨ (s.seq id).svValue + 1 < 2 ^ 64
  | .sparseEnd f logok _ =>
    if logok then ∀ g ∈ s.flight, g.seqId = f.seqId → f.used ≤ g.used
    else (s.seq f.seqId).svValue = f.used
  | .denseEnd _ markok setok => markok ∧ setok
  | .crash => s.ncommits ≠ 0 ∨ s.log = []
  | _ => True

/-- Sparse sequences hand out no value twice, and the value is not below a logged one, also
where it is the one after a recovery. Dense sequences have the value of the committed
operations, and inside a transaction that of its successful operations. -/
structure Seqsys.Correct (cfg : SeqCfg) (s : Seqsys) : Prop where
  unique : s.returned.Nodup
  logged_le : ∀ p ∈ s.logged, p.2 ≤ (s.seq p.1).svValue
  ended : ∀ id ∈ cfg.ids, cfg.densep id → s.holder id = none →
    (s.seq id).svValue = s.committed id
  working : ∀ id ∈ cfg.ids, cfg.densep id → (∀ f ∈ s.flight, f.seqId ≠ id) →
    (s.seq id).svValue = s.pending id
  checkpoint : s.flight = [] → ∀ id ∈ cfg.ids, cfg.densep id →
    (s.seq id).saved = s.committed id

inductive Seqsys.Reachable (cfg : SeqCfg) : Seqsys → Prop where
  | init (value : ℕ → ℕ) : Seqsys.Reachable cfg (Seqsys.init cfg value)
  | step {s s' : Seqsys} {op : Seqop} (h : Seqsys.Reachable cfg s)
      (hstep : s.step cfg op = some s') : Seqsys.Reachable cfg s'

inductive Seqsys.OrderedReachable (cfg : SeqCfg) : Seqsys → Prop where
  | init (value : ℕ → ℕ) : Seqsys.OrderedReachable cfg (Seqsys.init cfg value)
  | step {s s' : Seqsys} {op : Seqop} (h : Seqsys.OrderedReachable cfg s)
      (hord : op.Ordered cfg s) (hstep : s.step cfg op = some s') :
      Seqsys.OrderedReachable cfg s'

end SolidDB
