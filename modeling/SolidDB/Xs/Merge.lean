import Mathlib.Algebra.BigOperators.Group.List.Basic
import SolidDB.Su.Bsrch
import SolidDB.Xs.StreamRows

/-!
# The merge of a sort

`xs_merge_step` merges one run of every read stream into a run of the write stream, as far as the
limits of a step allow. When a read stream has no run left, it becomes the write stream. What
cannot go on has no result: an assertion, a full file, or a file that cannot be read.
-/

namespace SolidDB

open XsStreamstatus

inductive Mergestatus where
  | mgsInit
  | mgsRun
  | mgsOk
  | mgsEos
  | mgsEor
  | mgsEom
  | mgsNop
  | mgsError
  deriving DecidableEq

open Mergestatus

/-- `xs_ret_t`, without the error. -/
inductive XsRet where
  | xsRcSucc
  | xsRcCont
  deriving DecidableEq

structure Mgitem where
  streamIndex : ℕ
  data : List UInt8

/-- `xs_merge_t`. The tuple list is the part of `mgtl_array` from `mgtl_1st` on. -/
structure XsMerge where
  readstreams : List XsStream
  writestream : XsStream
  tuplelist : List Mgitem
  status : Mergestatus
  stepsizebytes : ℕ
  stepsizerows : ℕ

namespace XsMerge

-- `mg_comp_fp` with its context
variable (comp : List UInt8 → List UInt8 → ℤ)

/-- The loop of `xs_merge_init` over the read streams. -/
def rewindAll : List XsStream → Option (List XsStream)
  | [] => some []
  | st :: sts => do
    let st ← st.rewind
    if st.status = sstaError then none
    else
      let sts ← rewindAll sts
      some (st :: sts)

def init (readstreams : List XsStream) (writestream : XsStream)
    (stepsizebytes stepsizerows : ℕ) : Option XsMerge := do
  let readstreams ← rewindAll readstreams
  some ⟨readstreams, writestream, [], mgsInit, stepsizebytes, stepsizerows⟩

def selectWritestream (mg : XsMerge) : Option XsMerge :=
  match mg.readstreams.findIdx? fun st => st.status = sstaEos with
  | none => some mg
  | some i => do
    let readstream ← mg.readstreams[i]?
    let oldWritestream ← mg.writestream.rewind
    if oldWritestream.status = sstaError then none
    else
      some { mg with
        readstreams := mg.readstreams.set i oldWritestream
        writestream := readstream.rewrite }

def mgtlAdd (mg : XsMerge) (data : List UInt8) (streamIndex : ℕ) : Option XsMerge :=
  if mg.tuplelist.length < mg.readstreams.length then
    let item := ⟨streamIndex, data⟩
    if mg.tuplelist = [] then some { mg with tuplelist := [item] }
    else
      let pos := (suBsearch (fun i => compare (comp data (mg.tuplelist.getD i item).data) 0)
        mg.tuplelist.length).2
      some { mg with tuplelist := mg.tuplelist.insertIdx pos item }
  else none

def mgtlAddfromstream (mg : XsMerge) (streamIndex : ℕ) : Option XsMerge := do
  let readstream ← mg.readstreams[streamIndex]?
  let (data, readstream) ← readstream.getnext
  let mg := { mg with readstreams := mg.readstreams.set streamIndex readstream }
  match readstream.status with
  | sstaEos => some mg
  | sstaEor => some mg
  | sstaHold => some mg
  | sstaRun => mgtlAdd comp mg (data.getD []) streamIndex
  | _ => none

/-- The loop of `mgtl_initialize`. -/
def mgtlInitializeLoop (mg : XsMerge) (streamIndices : List ℕ) : Option XsMerge :=
  streamIndices.foldlM (mgtlAddfromstream comp) mg

def mgtlInitialize (mg : XsMerge) : Option XsMerge :=
  if mg.tuplelist = [] then
    mgtlInitializeLoop comp mg (List.range mg.readstreams.length)
  else none

/-- The loop of `merge_nextrun`. -/
def nextrunLoop : List XsStream → Option (List XsStream)
  | [] => some []
  | st :: sts =>
    if st.status = sstaEor ∨ st.status = sstaEos ∨ st.status = sstaHold then do
      let st := st.skipeor
      if st.status = sstaError then none
      else
        let sts ← nextrunLoop sts
        some (st :: sts)
    else none

def mergeNextrun (mg : XsMerge) : Option (Mergestatus × XsMerge) := do
  let readstreams ← nextrunLoop mg.readstreams
  let mg := { mg with readstreams := readstreams }
  let nEos := readstreams.countP fun st => st.status = sstaEos
  if nEos = readstreams.length then some (mgsEom, { mg with status := mgsEom })
  else if 0 < nEos then some (mgsEos, { mg with status := mgsEos })
  else some (mgsOk, mg)

/-- The start of `xs_merge_step`. -/
def stepStart (mg : XsMerge) : Option XsMerge :=
  match mg.status with
  | mgsInit | mgsEos => do
    let mg ← mg.selectWritestream
    let mg ← mg.mgtlInitialize comp
    some { mg with status := mgsRun }
  | mgsEor => do
    let mg ← mg.mgtlInitialize comp
    some { mg with status := mgsRun }
  | mgsRun => some mg
  | _ => none

/-- The loop of `xs_merge_step`. There are at most `mg_stepsizerows` rounds. -/
def mergeLoop : ℕ → XsMerge → ℕ → ℕ → Option (Mergestatus × XsMerge)
  | 0, _, _, _ => none
  | fuel + 1, mg, nBytesMerged, nRowsMerged =>
    match mg.tuplelist with
    | [] => some (mgsEor, mg)
    | item :: tuplelist => do
      let writestream ← mg.writestream.append item.data
      let mg := { mg with tuplelist := tuplelist, writestream := writestream }
      let mg ← mg.mgtlAddfromstream comp item.streamIndex
      let nBytesMerged := nBytesMerged + item.data.length
      let nRowsMerged := nRowsMerged + 1
      if mg.stepsizebytes ≤ nBytesMerged ∨ mg.stepsizerows ≤ nRowsMerged then some (mgsRun, mg)
      else mergeLoop fuel mg nBytesMerged nRowsMerged

/-- `xs_merge_step`. With `XS_RC_SUCC` the write stream is the result stream. -/
def step (mg : XsMerge) : Option (XsRet × XsMerge) := do
  let mg ← mg.stepStart comp
  let (rc, mg) ← mergeLoop comp (mg.stepsizerows + 1) mg 0 0
  if rc = mgsEor then
    let writestream ← mg.writestream.seteoratend
    let (rc, mg) ← mergeNextrun { mg with writestream := writestream, status := mgsEor }
    if rc = mgsEom then
      let writestream ← mg.writestream.rewind
      if writestream.status = sstaError then none
      else some (.xsRcSucc, { mg with writestream := writestream })
    else some (.xsRcCont, mg)
  else some (.xsRcCont, mg)

def steps : ℕ → XsMerge → Option XsMerge
  | 0, _ => none
  | n + 1, mg => do
    let (rc, mg) ← mg.step comp
    if rc = .xsRcSucc then some mg else steps n mg

end XsMerge

end SolidDB

/-!
## Runs in the streams of a merge

A read stream has rows of its current run left, and runs behind it. Empty runs that are only
counted come behind the first run of the file. A write stream has runs, and rows of its last one.
-/

namespace SolidDB

open XsStreamstatus XsCursorstatus

section

variable {ρ : Type} (toRow : ρ → SortRow) (blocksize : ℕ)

def rowItems (rows : List ρ) : List StreamItem := rows.map fun r => .row (toRow r)

def runItems (runs : List (List ρ)) : List StreamItem :=
  runs.flatMap fun run => rowItems toRow run ++ [.eor]

def rowsSize (rows : List ρ) : ℕ := (rows.map fun r => (toRow r).bytes.length).sum

structure Reading (st : XsStream) (cur : List ρ) (later : List (List ρ)) : Prop where
  nocur : st.cursstat = scstaNocur
  blocksize_eq : st.tf.file.blocksize = blocksize
  place : ∃ pre rest,
    Between st.tf.file pre (rowItems toRow cur ++ .eor :: runItems toRow rest) st.tf ∧
      later = List.replicate st.nemptyruns [] ++ rest

structure Ended (st : XsStream) : Prop where
  nocur : st.cursstat = scstaNocur
  blocksize_eq : st.tf.file.blocksize = blocksize
  status_eq : st.status = sstaEos
  nemptyruns_eq : st.nemptyruns = 0

structure Writing (st : XsStream) (runs : List (List ρ)) (rows : List ρ) : Prop where
  nocur : st.cursstat = scstaNocur
  blocksize_eq : st.tf.file.blocksize = blocksize
  nemptyruns_eq : st.nemptyruns = 0
  data_eq : st.tf.file.data = itemBytes (runItems toRow runs ++ rowItems toRow rows)
  tf_eq : st.tf = st.tf.file.seek st.tf.file.data.length

end

section

variable {ρ : Type} {toRow : ρ → SortRow} {blocksize : ℕ} {st st' : XsStream} {r : ρ}
  {cur rows : List ρ} {runs later : List (List ρ)}

@[simp] theorem rowItems_nil : rowItems toRow [] = [] := rfl

@[simp] theorem rowItems_cons :
    rowItems toRow (r :: rows) = .row (toRow r) :: rowItems toRow rows := rfl

@[simp] theorem rowItems_append : rowItems toRow (rows ++ cur) =
    rowItems toRow rows ++ rowItems toRow cur := List.map_append

@[simp] theorem runItems_nil : runItems toRow [] = [] := rfl

@[simp] theorem runItems_cons : runItems toRow (rows :: runs) =
    rowItems toRow rows ++ .eor :: runItems toRow runs := by
  rw [runItems, List.flatMap_cons, List.append_assoc]
  rfl

theorem runItems_concat : runItems toRow (runs ++ [rows]) =
    runItems toRow runs ++ rowItems toRow rows ++ [.eor] := by
  rw [runItems, List.flatMap_append, List.append_assoc]
  congr 1
  exact List.append_nil _

/-! ## Sizes -/

@[simp] theorem rowsSize_nil : rowsSize toRow [] = 0 := rfl

@[simp] theorem rowsSize_cons : rowsSize toRow (r :: rows) =
    (toRow r).bytes.length + rowsSize toRow rows := List.sum_cons

@[simp] theorem rowsSize_append : rowsSize toRow (rows ++ cur) =
    rowsSize toRow rows + rowsSize toRow cur := by
  rw [rowsSize, List.map_append, List.sum_append]
  rfl

theorem rowsSize_perm (toRow : ρ → SortRow) (hperm : rows.Perm cur) :
    rowsSize toRow rows = rowsSize toRow cur :=
  (hperm.map _).sum_eq

theorem length_rowItems (rows : List ρ) :
    (itemBytes (rowItems toRow rows)).length = rowsSize toRow rows := by
  induction rows with
  | nil => rfl
  | cons r rows ih =>
      rw [rowItems_cons, itemBytes_cons, List.length_append, ih, rowsSize_cons]
      rfl

theorem length_runItems (runs : List (List ρ)) :
    (itemBytes (runItems toRow runs)).length = rowsSize toRow runs.flatten + runs.length := by
  induction runs with
  | nil => rfl
  | cons rows runs ih =>
      rw [runItems_cons, itemBytes_append, itemBytes_cons, List.length_append, List.length_append,
        ih, length_rowItems, List.flatten_cons, rowsSize_append, List.length_cons]
      have heor : StreamItem.eor.bytes.length = 1 := rfl
      omega

theorem Writing.length_data (hw : Writing toRow blocksize st runs rows) :
    st.tf.file.data.length = rowsSize toRow runs.flatten + runs.length + rowsSize toRow rows := by
  rw [hw.data_eq, itemBytes_append, List.length_append, length_runItems, length_rowItems]

/-! ## Reading -/

theorem Reading.readstatus (hr : Reading toRow blocksize st cur later) :
    st.readandsetstatus =
      some { st with status := if cur = [] then sstaEor else sstaRun } := by
  obtain ⟨pre, rest, hbetween, -⟩ := hr.place
  rw [XsStream.readandsetstatus, XsStream.readstatus_between st hbetween]
  dsimp only
  rw [if_neg (not_not.mpr hr.nocur)]
  cases cur with
  | nil => rfl
  | cons r cur => rfl

theorem Reading.getnext_cons (hr : Reading toRow blocksize st (r :: cur) later) :
    ∃ st', st.getnext = some (some (toRow r).bytes, st') ∧
      Reading toRow blocksize st' cur later ∧ st'.status = sstaRun := by
  have hstatus := hr.readstatus
  obtain ⟨pre, rest, hbetween, hlater⟩ := hr.place
  rw [rowItems_cons, List.cons_append] at hbetween
  obtain ⟨-, hnext⟩ := hbetween.forward
  obtain ⟨hdata, htf⟩ := hbetween
  rw [itemBytes_cons, ← List.append_assoc] at hdata
  have hread := XsStream.rowForward_row (toRow r) hdata
  rw [← htf] at hread
  have hend : itemBytes (pre ++ [.row (toRow r)]) = itemBytes pre ++ (toRow r).bytes := by
    rw [itemBytes_append, itemBytes_cons, itemBytes_nil, List.append_nil]
    rfl
  rw [hend] at hnext
  refine ⟨{ st with
      status := sstaRun
      tf := st.tf.file.seek (itemBytes pre ++ (toRow r).bytes).length }, ?_,
    ⟨hr.nocur, hr.blocksize_eq, pre ++ [StreamItem.row (toRow r)], rest, hnext, hlater⟩, rfl⟩
  · rw [XsStream.getnext, if_neg (by rw [hr.nocur]; exact XsCursorstatus.noConfusion),
      XsStream.getnextForward, hstatus, Option.map_some]
    simp only [if_neg (List.cons_ne_nil r cur), if_true, hread]

theorem Reading.getnext_nil (hr : Reading toRow blocksize st [] later) :
    st.getnext = some (none, { st with status := sstaEor }) := by
  rw [XsStream.getnext, if_neg (by rw [hr.nocur]; exact XsCursorstatus.noConfusion),
    XsStream.getnextForward, hr.readstatus, Option.map_some]
  simp only [if_true, if_neg (show ¬ sstaEor = sstaRun by decide)]
  rw [if_neg fun h => absurd h.1 (by decide)]

theorem Reading.withStatus (hr : Reading toRow blocksize st cur later) (status : XsStreamstatus) :
    Reading toRow blocksize { st with status := status } cur later :=
  ⟨hr.nocur, hr.blocksize_eq, hr.place⟩

theorem itemStatus_run (rows : List ρ) (items : List StreamItem) :
    itemStatus (rowItems toRow rows ++ .eor :: items) ≠ sstaEos ∧
      itemStatus (rowItems toRow rows ++ .eor :: items) ≠ sstaError := by
  cases rows with
  | nil => exact ⟨by simp [itemStatus], by simp [itemStatus]⟩
  | cons r rows => exact ⟨by simp [itemStatus], by simp [itemStatus]⟩

theorem skipeor_mark {pre items : List StreamItem} (hstatus : st.status = sstaEor)
    (hempty : st.nemptyruns = 0) (hbetween : Between st.tf.file pre (.eor :: items) st.tf) :
    ∃ tf, st.skipeor = { st with nruns := st.nruns - 1, status := itemStatus items, tf := tf } ∧
      tf.file = st.tf.file ∧ Between st.tf.file (pre ++ [.eor]) items tf := by
  obtain ⟨hmove, hnext⟩ := hbetween.forward
  have hmove : st.tf.moveposrel 1 =
      some (st.tf.file.seek (itemBytes (pre ++ [.eor])).length) := hmove
  refine ⟨st.tf.file.seek (itemBytes (pre ++ [.eor])).length, ?_, rfl, hnext⟩
  have hread := XsStream.readstatus_between { st with
    nruns := st.nruns - 1
    tf := st.tf.file.seek (itemBytes (pre ++ [.eor])).length } hnext
  rw [XsStream.skipeor, if_neg (by rw [hstatus]; decide), if_neg (by omega)]
  simp only [hmove, hread]

theorem Reading.skipeor_cons (hr : Reading toRow blocksize st [] (rows :: later))
    (hstatus : st.status = sstaEor) :
    Reading toRow blocksize st.skipeor rows later ∧ st.skipeor.status ≠ sstaEos ∧
      st.skipeor.status ≠ sstaError := by
  obtain ⟨pre, rest, hbetween, hlater⟩ := hr.place
  rw [rowItems_nil, List.nil_append] at hbetween
  cases hempty : st.nemptyruns with
  | zero =>
      rw [hempty, List.replicate_zero, List.nil_append] at hlater
      subst hlater
      obtain ⟨tf, hskip, hfile, hnext⟩ := skipeor_mark hstatus hempty hbetween
      rw [runItems_cons] at hskip hnext
      rw [hskip]
      refine ⟨⟨hr.nocur, by rw [← hr.blocksize_eq, ← hfile], pre ++ [.eor], later, ?_, ?_⟩,
        itemStatus_run rows _⟩
      · rw [← hfile] at hnext
        exact hnext
      · dsimp only
        rw [hempty, List.replicate_zero, List.nil_append]
  | succ n =>
      -- a run that is only counted
      rw [hempty, List.replicate_succ, List.cons_append] at hlater
      obtain ⟨rfl, rfl⟩ := List.cons.inj hlater
      have hplace :
          Between st.tf.file pre (rowItems toRow [] ++ .eor :: runItems toRow rest) st.tf :=
        hbetween
      rw [XsStream.skipeor, if_neg (by rw [hstatus]; decide), if_pos (by omega), hempty]
      have hread := XsStream.readstatus_between { st with nemptyruns := n } hbetween
      dsimp only
      rw [Nat.add_sub_cancel]
      split
      · exact ⟨⟨hr.nocur, hr.blocksize_eq, pre, rest, hplace, rfl⟩,
          show sstaHold ≠ sstaEos by decide, show sstaHold ≠ sstaError by decide⟩
      · rw [hread]
        exact ⟨⟨hr.nocur, hr.blocksize_eq, pre, rest, hplace, rfl⟩,
          show sstaEor ≠ sstaEos by decide, show sstaEor ≠ sstaError by decide⟩

/-- Behind the mark of the last run the stream is at its end. -/
theorem Reading.skipeor_nil (hr : Reading toRow blocksize st [] [])
    (hstatus : st.status = sstaEor) : Ended blocksize st.skipeor := by
  obtain ⟨pre, rest, hbetween, hlater⟩ := hr.place
  obtain ⟨hempty, rfl⟩ := List.append_eq_nil_iff.mp hlater.symm
  rw [List.replicate_eq_nil_iff] at hempty
  obtain ⟨tf, hskip, hfile, -⟩ := skipeor_mark hstatus hempty hbetween
  rw [hskip]
  exact ⟨hr.nocur, by rw [← hr.blocksize_eq, ← hfile], rfl, hempty⟩

theorem reading_rewind {nemptyruns : ℕ} (hnocur : st.cursstat = scstaNocur)
    (hblocksize : st.tf.file.blocksize = blocksize)
    (hdata : st.tf.file.data = itemBytes (runItems toRow (rows :: runs)))
    (hempty : st.nemptyruns = nemptyruns) :
    ∃ st', st.rewind = some st' ∧
      Reading toRow blocksize st' rows (List.replicate nemptyruns [] ++ runs) ∧
      st'.status ≠ sstaEos ∧ st'.status ≠ sstaError ∧ st'.tf.file = st.tf.file := by
  have hbetween : Between st.tf.file [] (rowItems toRow rows ++ .eor :: runItems toRow runs)
      (st.tf.file.seek 0) := ⟨by rw [hdata, runItems_cons]; rfl, rfl⟩
  have hread := XsStream.readstatus_between { st with tf := st.tf.file.seek 0 } hbetween
  obtain ⟨hneos, hnerror⟩ := itemStatus_run rows (runItems toRow runs)
  refine ⟨{ st with
      status := itemStatus (rowItems toRow rows ++ .eor :: runItems toRow runs)
      tf := st.tf.file.seek 0 }, ?_,
    ⟨hnocur, hblocksize, [], runs, hbetween, by rw [← hempty]⟩, hneos, hnerror, rfl⟩
  rw [XsStream.rewind, TfFile.movetobegin_eq, XsStream.readandsetstatus, hread]
  dsimp only
  rw [if_neg (not_not.mpr hnocur), Option.map_some, if_neg fun h => h.2 hnocur]

theorem Writing.rewind (hw : Writing toRow blocksize st (rows :: runs) []) :
    ∃ st', st.rewind = some st' ∧ Reading toRow blocksize st' rows runs ∧
      st'.status ≠ sstaEos ∧ st'.status ≠ sstaError ∧ st'.tf.file = st.tf.file := by
  have hdata := hw.data_eq
  rw [rowItems_nil, List.append_nil] at hdata
  exact reading_rewind hw.nocur hw.blocksize_eq hdata hw.nemptyruns_eq

/-! ## Writing -/

theorem writing_init (hpos : 0 < blocksize) :
    Writing toRow blocksize (XsStream.init blocksize hpos) [] [] :=
  ⟨rfl, rfl, rfl, rfl, by rw [XsStream.init, TfFile.seek, List.length_nil, Nat.zero_div,
    Nat.zero_mod]⟩

theorem Ended.rewrite (he : Ended blocksize st) :
    Writing toRow blocksize st.rewrite [] [] :=
  ⟨he.nocur, he.blocksize_eq, he.nemptyruns_eq, rfl, by
    rw [XsStream.rewrite, XsTf.rewrite, TfFile.seek, List.length_nil, Nat.zero_div, Nat.zero_mod]⟩

variable {room : ℕ}

theorem Writing.append_bytes (hw : Writing toRow blocksize st runs rows)
    (hroom : room / blocksize < 2 ^ 32 - 1) {data : List UInt8}
    (hle : st.tf.file.data.length + data.length ≤ room) :
    ∃ file : TfFile, st.tf.append data = some (file.seek file.data.length) ∧
      file.data = st.tf.file.data ++ data ∧ file.blocksize = blocksize := by
  have hfits : (st.tf.file.data ++ data).length / st.tf.file.blocksize < 2 ^ 32 - 1 := by
    rw [hw.blocksize_eq, List.length_append]
    exact Nat.lt_of_le_of_lt (Nat.div_le_div_right hle) hroom
  obtain ⟨file, happend, hdata, hsize⟩ := st.tf.file.append_seek data hfits
  rw [← hw.tf_eq] at happend
  exact ⟨file, happend, hdata, hsize.trans hw.blocksize_eq⟩

theorem Writing.append (hw : Writing toRow blocksize st runs rows)
    (hroom : room / blocksize < 2 ^ 32 - 1)
    (hle : rowsSize toRow runs.flatten + runs.length + rowsSize toRow (rows ++ [r]) ≤ room) :
    ∃ st', st.append (toRow r).bytes = some st' ∧
      Writing toRow blocksize st' runs (rows ++ [r]) := by
  rw [rowsSize_append, rowsSize_cons, rowsSize_nil] at hle
  obtain ⟨file, happend, hdata, hsize⟩ := hw.append_bytes hroom
    (show st.tf.file.data.length + (toRow r).bytes.length ≤ room by
      rw [hw.length_data]
      omega)
  refine ⟨{ st with tf := file.seek file.data.length }, ?_, hw.nocur, hsize, hw.nemptyruns_eq, ?_,
    rfl⟩
  · rw [XsStream.append, happend, Option.map_some]
  · change file.data = _
    rw [hdata, hw.data_eq, rowItems_append, ← List.append_assoc,
      itemBytes_append _ (rowItems _ [r])]
    congr 1
    exact (List.append_nil _).symm

theorem Writing.seteoratend (hw : Writing toRow blocksize st runs rows)
    (hroom : room / blocksize < 2 ^ 32 - 1)
    (hle : rowsSize toRow runs.flatten + (runs.length + 1) + rowsSize toRow rows ≤ room) :
    ∃ st', st.seteoratend = some st' ∧ Writing toRow blocksize st' (runs ++ [rows]) [] := by
  obtain ⟨file, happend, hdata, hsize⟩ := hw.append_bytes hroom
    (show st.tf.file.data.length + ([0] : List UInt8).length ≤ room by
      rw [hw.length_data, List.length_singleton]
      omega)
  refine ⟨{ st with tf := file.seek file.data.length, nruns := st.nruns + 1 }, ?_, hw.nocur, hsize,
    hw.nemptyruns_eq, ?_, rfl⟩
  · rw [XsStream.seteoratend, happend, Option.map_some]
  · change file.data = _
    rw [hdata, hw.data_eq, runItems_concat, rowItems_nil, List.append_nil,
      itemBytes_append _ [.eor]]
    rfl

end

end SolidDB
