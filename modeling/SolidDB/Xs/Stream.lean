import SolidDB.Foundation.ListCursor
import SolidDB.Xs.Tfmgr
import SolidDB.Xs.Tuple

/-!
# Sort streams

A stream is a temporary file of rows and end-of-run marks, which are zero bytes. In the cursor
states of `xs2stre.c` the marks are passed over in both directions.
-/

namespace SolidDB

inductive XsStreamstatus where
  | sstaRun
  | sstaHold
  | sstaEos
  | sstaEor
  | sstaBos
  | sstaError
  deriving DecidableEq

inductive XsCursorstatus where
  | scstaNocur
  | scstaInit
  | scstaBegin
  | scstaFwd
  | scstaBkw
  | scstaEnd
  deriving DecidableEq

open XsStreamstatus XsCursorstatus

structure XsStream where
  nemptyruns : ℕ
  nruns : ℤ
  status : XsStreamstatus
  cursstat : XsCursorstatus
  tf : XsTf

namespace XsStream

/-! ## Status and marks -/

/-- `stream_readstatus`, with the status in the stream. -/
def readstatus (st : XsStream) : XsStream :=
  match st.tf.peek 1 with
  | none =>
    match st.tf.moveposrel 1 with
    | none => { st with status := sstaEos }
    | some tf => { st with tf := tf, status := sstaError }
  | some pch =>
    if pch.headD 0 = 0 then { st with status := sstaEor } else { st with status := sstaRun }

def skipeor (st : XsStream) : XsStream :=
  if st.status = sstaEos then st
  else if 0 < st.nemptyruns then
    let st := { st with nemptyruns := st.nemptyruns - 1 }
    if 0 < st.nemptyruns then { st with status := sstaHold } else st.readstatus
  else
    let st := { st with nruns := st.nruns - 1 }
    match st.tf.moveposrel 1 with
    | none => { st with status := sstaError }
    | some tf => readstatus { st with tf := tf }

/-- The loop of `stream_readandsetstatus`. -/
def skipEors : ℕ → XsStream → Option XsStream
  | 0, _ => none
  | fuel + 1, st =>
    if st.status = sstaEor ∨ st.status = sstaHold then skipEors fuel st.skipeor else some st

/-- `stream_readandsetstatus`. Every round of the loop takes an empty run or a byte. -/
def readandsetstatus (st : XsStream) : Option XsStream :=
  let st := st.readstatus
  if st.cursstat ≠ scstaNocur then
    (skipEors (st.nemptyruns + st.tf.file.data.length + 1) st).map fun st =>
      if st.status = sstaRun then { st with cursstat := scstaFwd }
      else if st.status = sstaEos then { st with cursstat := scstaEnd }
      else st
  else some st

/-! ## Rows -/

def rowForward (tf : XsTf) : Option (List UInt8 × XsTf) :=
  (tf.peek 1).bind fun pch =>
    let lenlen := vaLenLen (pch.headD 0).toNat
    (if 1 < lenlen then tf.peek lenlen else some pch).bind fun pch =>
      let len := (vaGetdata pch).2
      let grosslen : ℕ := (lenlen * 2 + len) % 2 ^ 32
      (tf.peek grosslen).bind fun pch =>
        (tf.moveposrel grosslen).map fun tf => (pch, tf)

/-- The row that ends with the byte at the position, and the position of the row. -/
def rowBackward (tf : XsTf) : Option (List UInt8 × XsTf) :=
  (tf.peek 1).bind fun pch =>
    let lenlen := vaLenLen (pch.headD 0).toNat
    (if 1 < lenlen then
      (tf.moveposrel (1 - (lenlen : ℤ))).bind fun tf => (tf.peek lenlen).map fun pch => (pch, tf)
    else some (pch, tf)).bind fun r =>
      let len := vaInvnetlen (r.1.take lenlen)
      let grosslen : ℕ := (len + lenlen) % 2 ^ 32
      (r.2.moveposrel (-(grosslen : ℤ))).bind fun tf =>
        (tf.peek ((grosslen + lenlen) % 2 ^ 32)).map fun pch => (pch, tf)

inductive BackStep where
  | bos (tf : XsTf)
  | found (tf : XsTf)
  | failed (tf : XsTf)

/-- The loop of `xs_stream_getprev` over the marks. -/
def skipBack : ℕ → XsTf → Option BackStep
  | 0, _ => none
  | fuel + 1, tf =>
    match tf.moveposrel (-1) with
    | none => some (.bos tf)
    | some tf =>
      match tf.peek 1 with
      | none => some (.failed tf)
      | some pch => if pch.headD 0 = 0 then skipBack fuel tf else some (.found tf)

/-! ## Calls -/

/-- `xs_stream_getnext` behind the change of the direction: `*p_data`, and the stream with the
returned status. -/
def getnextForward (st : XsStream) : Option (Option (List UInt8) × XsStream) :=
  st.readandsetstatus.map fun st =>
    if st.status = sstaRun then
      match rowForward st.tf with
      | some (data, tf) => (some data, { st with tf := tf })
      | none => (none, { st with status := sstaError })
    else if st.status = sstaEos ∧ st.cursstat ≠ scstaNocur then
      (none, { st with cursstat := scstaEnd })
    else (none, st)

def getnext (st : XsStream) : Option (Option (List UInt8) × XsStream) :=
  if st.cursstat = scstaBkw then
    (getnextForward { st with cursstat := scstaFwd }).bind fun r =>
      if r.2.status ≠ sstaRun then some (none, r.2) else getnextForward r.2
  else getnextForward st

/-- `xs_stream_getprev` behind the change of the direction. -/
def getprevBackward (st : XsStream) : Option (Option (List UInt8) × XsStream) :=
  (skipBack (st.tf.file.data.length + 1) st.tf).map fun
    | .bos tf => (none, { st with tf := tf, cursstat := scstaBegin, status := sstaBos })
    | .failed tf => (none, { st with tf := tf, status := sstaError })
    | .found tf =>
      match rowBackward tf with
      | some (data, tf) =>
        (some data, { st with tf := tf, status := sstaRun, cursstat := scstaBkw })
      | none => (none, { st with tf := tf, status := sstaError })

def getprev (st : XsStream) : Option (Option (List UInt8) × XsStream) :=
  if st.cursstat = scstaFwd then
    (getprevBackward { st with cursstat := scstaBkw }).bind fun r =>
      if r.2.status ≠ sstaRun then some (none, r.2) else getprevBackward r.2
  else getprevBackward st

def initfetch (st : XsStream) : Option XsStream :=
  (readandsetstatus { st with cursstat := scstaInit, tf := st.tf.opencursor }).map fun st =>
    if st.status = sstaRun ∧ st.cursstat ≠ scstaNocur then { st with cursstat := scstaBegin }
    else st

def cursortobegin (st : XsStream) : Option XsStream :=
  (readandsetstatus { st with tf := st.tf.movetobegin }).map fun st =>
    if st.status = sstaRun then { st with cursstat := scstaBegin } else st

def cursortoend (st : XsStream) : XsStream :=
  { st with tf := st.tf.movetoend, status := sstaEos, cursstat := scstaEnd }

/-! ## Writing -/

def init (blocksize : ℕ) (hpos : 0 < blocksize) : XsStream :=
  ⟨0, 0, sstaRun, scstaNocur, ⟨⟨blocksize, [], hpos, XsTf.nil_blocks_lt _⟩, 0, 0⟩⟩

def append (st : XsStream) (data : List UInt8) : Option XsStream :=
  (st.tf.append data).map fun tf => { st with tf := tf }

def seteoratend (st : XsStream) : Option XsStream :=
  (st.tf.append [0]).map fun tf => { st with tf := tf, nruns := st.nruns + 1 }

def rewrite (st : XsStream) : XsStream :=
  { st with status := sstaRun, nruns := 0, tf := st.tf.rewrite }

def rewind (st : XsStream) : Option XsStream :=
  (readandsetstatus { st with tf := st.tf.movetobegin }).map fun st =>
    if st.status = sstaRun ∧ st.cursstat ≠ scstaNocur then { st with cursstat := scstaBegin }
    else st

def addemptyruns (st : XsStream) (nemptyruns : ℕ) : Option XsStream :=
  if 0 < nemptyruns then some { st with nemptyruns := nemptyruns, status := sstaHold }
  else readandsetstatus { st with nemptyruns := nemptyruns }

/-! ## Sequences of calls -/

def call (st : XsStream) : CursorCall → Option ((XsStreamstatus × Option (List UInt8)) × XsStream)
  | .next => st.getnext.map fun r => ((r.2.status, r.1), r.2)
  | .prev => st.getprev.map fun r => ((r.2.status, r.1), r.2)
  | .toBegin => st.cursortobegin.map fun st => ((st.status, none), st)
  | .toEnd => some ((st.cursortoend.status, none), st.cursortoend)

def run : XsStream → List CursorCall →
    Option (List (XsStreamstatus × Option (List UInt8)) × XsStream)
  | st, [] => some ([], st)
  | st, c :: calls =>
    (st.call c).bind fun r => (run r.2 calls).map fun rs => (r.1 :: rs.1, rs.2)

end XsStream

end SolidDB
