import SolidDB.Xs.Streamarr

/-!
# Sorters

The rows are collected in buffers, sorted there, and written as runs to the streams of a stream
array. `xs_sorter_merge` merges the runs, step by step, and opens a cursor over the result. What
cannot go on has no result.
-/

namespace SolidDB

open XsStreamstatus

/-! ## Presorters -/

/-- `xs_presorter_t`. The position is relative to the buffer. A tuple of the array has its mirrored
length behind it. -/
structure XsPresorter where
  streamarr : XsStreamarr
  nbuf : ℕ
  bufidx : ℕ
  bufsize : ℕ
  bufpos : ℕ
  tuplearray : List (List UInt8)

namespace XsPresorter

-- `ps_comp_fp` with its conditions
variable (comp : List UInt8 → List UInt8 → ℤ)

def init (streamarr : XsStreamarr) (nbuf bufsize : ℕ) : XsPresorter :=
  ⟨streamarr, if nbuf = 0 then 1 else nbuf, 0, bufsize, 0, []⟩

/-- The sort of `xs_presorter_flush`. -/
def sortTuples (ps : XsPresorter) : Option (List (List UInt8)) :=
  if 1 < ps.tuplearray.length then xsQsort comp ps.tuplearray else some ps.tuplearray

def flush (ps : XsPresorter) : Option XsPresorter :=
  if ps.tuplearray.length = 0 then some ps
  else do
    let tuples ← ps.sortTuples comp
    let (j, sa) := ps.streamarr.nextstream
    let stream ← tuples.foldlM XsStream.append (sa.streams j)
    let stream ← stream.seteoratend
    some { ps with
      streamarr := sa.putStream j stream
      bufidx := 0
      bufpos := 0
      tuplearray := [] }

def nextbuf (ps : XsPresorter) : XsPresorter := { ps with bufidx := ps.bufidx + 1, bufpos := 0 }

/-- `xs_tuple_makevtpl` for what is left of the buffer. -/
def makevtpl (ps : XsPresorter) (vas : List (List UInt8)) : Option (List UInt8) :=
  xsTupleMakevtpl (ps.bufsize - ps.bufpos) vas

/-- The end of `xs_presorter_addtuple`. -/
def insert (ps : XsPresorter) (vtpl : List UInt8) : Option XsPresorter :=
  let ps := { ps with
    tuplearray := ps.tuplearray ++ [vtpl]
    bufpos := ps.bufpos + vtpl.length }
  if ps.bufpos = ps.bufsize then
    if ps.bufidx + 1 < ps.nbuf then some ps.nextbuf else ps.flush comp
  else some ps

/-- `xs_presorter_addtuple` for the v-attributes of a tuple value in the order of the sort. -/
def addtuple (ps : XsPresorter) (vas : List (List UInt8)) : Option XsPresorter :=
  match ps.makevtpl vas with
  | some vtpl => ps.insert comp vtpl
  | none =>
    if ps.bufidx + 1 < ps.nbuf then do
      let ps := ps.nextbuf
      let vtpl ← ps.makevtpl vas
      ps.insert comp vtpl
    else do
      let ps ← ps.flush comp
      let vtpl ← ps.makevtpl vas
      ps.insert comp vtpl

end XsPresorter

/-! ## Sorters -/

inductive XsSortstat where
  | sortstatInit
  | sortstatAdd
  | sortstatMerge
  | sortstatCursor
  deriving DecidableEq

open XsSortstat

structure XsSorter where
  status : XsSortstat
  presorter : XsPresorter
  merge : Option XsMerge
  resultstream : Option XsStream
  stepsizebytes : ℕ
  stepsizerows : ℕ

namespace XsSorter

-- `s_comp_fp` with its conditions
variable (comp : List UInt8 → List UInt8 → ℤ)

/-- `xs_sorter_init`, where a memory block and a block of a temporary file have one size. -/
def init (maxnbuf maxfiles stepsizebytes stepsizerows blocksize : ℕ) (hpos : 0 < blocksize) :
    XsSorter :=
  let maxfiles := if maxnbuf < maxfiles then maxnbuf else maxfiles
  ⟨sortstatInit,
    XsPresorter.init (XsStreamarr.init maxfiles blocksize hpos) (maxnbuf - 1) blocksize, none, none,
    stepsizebytes, stepsizerows⟩

def addtuple (s : XsSorter) (vas : List (List UInt8)) : Option XsSorter :=
  match s.status with
  | sortstatInit | sortstatAdd =>
    (s.presorter.addtuple comp vas).map fun ps =>
      { s with status := sortstatAdd, presorter := ps }
  | _ => none

/-- The end of `xs_sorter_merge` with `XS_RC_SUCC`. -/
def opencursor (s : XsSorter) (resultstream : XsStream) : Option (XsRet × Bool × XsSorter) := do
  let st ← resultstream.initfetch
  if st.status = sstaRun then
    some (.xsRcSucc, false, { s with status := sortstatCursor, resultstream := some st })
  else none

def startMerge (s : XsSorter) : Distribution → Option (XsRet × Bool × XsSorter)
  | .onerun writestream => opencursor s writestream
  | .runs writestream readstreams => do
    let mg ← XsMerge.init readstreams writestream s.stepsizebytes s.stepsizerows
    some (.xsRcCont, false,
      { s with status := sortstatMerge, merge := some mg, resultstream := none })

/-- `xs_sorter_merge`, with `*p_emptyset`. -/
def sorterMerge (s : XsSorter) : Option (XsRet × Bool × XsSorter) :=
  match s.status with
  | sortstatInit =>
      some (.xsRcSucc, true, { s with status := sortstatCursor, resultstream := none })
  | sortstatAdd => do
    let ps ← s.presorter.flush comp
    let dist ← ps.streamarr.endofdistribute
    startMerge { s with presorter := ps } dist
  | sortstatMerge => do
    let mg ← s.merge
    let (rc, mg) ← mg.step comp
    if rc = .xsRcSucc then opencursor { s with merge := some mg } mg.writestream
    else some (.xsRcCont, false, { s with merge := some mg, resultstream := none })
  | sortstatCursor => none

/-- The status where there is no result stream. -/
def emptyStatus : CursorCall → XsStreamstatus
  | .next => sstaEos
  | .prev => sstaBos
  | .toBegin => sstaEos
  | .toEnd => sstaBos

def callResult (rc : XsStreamstatus) (data : Option (List UInt8)) :
    CursorCall → Option (Bool × Option (List UInt8))
  | .next => if rc ≠ sstaRun then some (false, none) else some (true, data)
  | .prev => if rc ≠ sstaRun then some (false, none) else some (true, data)
  | .toBegin => if rc = sstaError then none else some (true, none)
  | .toEnd => if rc = sstaError then none else some (true, none)

/-- `xs_sorter_fetchnext`, `xs_sorter_fetchprev`, `xs_sorter_cursortobegin` and
`xs_sorter_cursortoend` -/
def call (s : XsSorter) (c : CursorCall) : Option ((Bool × Option (List UInt8)) × XsSorter) :=
  if s.status = sortstatCursor then
    match s.resultstream with
    | none => (callResult (emptyStatus c) none c).map fun answer => (answer, s)
    | some st =>
      (st.call c).bind fun r =>
        (callResult r.1.1 r.1.2 c).map fun answer => (answer, { s with resultstream := some r.2 })
  else none

/-! ## Sequences of calls -/

def addAll (s : XsSorter) (rows : List (List (List UInt8))) : Option XsSorter :=
  rows.foldlM (addtuple comp) s

def merges : ℕ → XsSorter → Option (Bool × XsSorter)
  | 0, _ => none
  | n + 1, s => do
    let (rc, emptyset, s) ← s.sorterMerge comp
    if rc = .xsRcSucc then some (emptyset, s) else merges n s

def run : XsSorter → List CursorCall → Option (List (Bool × Option (List UInt8)))
  | _, [] => some []
  | s, c :: calls => do
    let (answer, s) ← s.call c
    let answers ← run s calls
    some (answer :: answers)

end XsSorter

end SolidDB
