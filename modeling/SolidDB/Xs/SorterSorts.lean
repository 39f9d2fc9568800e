import SolidDB.Uti.VtplCondcompare
import SolidDB.Xs.Sorter
import SolidDB.Xs.StreamCursor

/-!
# Sorters sort

The rows that were added are in the runs of the streams, which are sorted, and in the buffers. The
merge gives one sorted run of them, and the calls of the cursor are those of a cursor over the list
of its rows.
-/

namespace SolidDB

open XsStreamstatus XsSortstat XsStreamarr

open Memory (Mem)

section

variable {ρ : Type} (toRow : ρ → SortRow) (comp : List UInt8 → List UInt8 → ℤ) (blocksize : ℕ)

/-- The counters and the files have room for the rows, in as many runs. -/
def Fits (room : ℕ) (rows : List ρ) : Prop :=
  rows.length ≤ 2 ^ 31 ∧ rowsSize toRow rows + rows.length ≤ room

/-- A presorter with the rows that were added, of which some are still in the buffers. -/
structure Presorting (maxfiles : ℕ) (ps : XsPresorter) (added pend : List ρ)
    (runs : Mem (List (List ρ))) : Prop where
  distributing : Distributing toRow comp blocksize ps.streamarr runs
  maxfiles_eq : ps.streamarr.maxfiles = maxfiles
  bufsize_eq : ps.bufsize = blocksize
  tuplearray_eq : ps.tuplearray = pend.map fun r => (toRow r).bytes
  perm : (distributedRows ps.streamarr runs ++ pend).Perm added
  count : ps.streamarr.totruns + pend.length ≤ added.length
  empty : pend = [] → ps.bufpos = 0

structure Adding (maxfiles : ℕ) (s : XsSorter) (added : List ρ) : Prop where
  status_eq : s.status = if added = [] then sortstatInit else sortstatAdd
  presorting : ∃ pend runs, Presorting toRow comp blocksize maxfiles s.presorter added pend runs

inductive Opened (s : XsSorter) : List ρ → ℕ → Prop where
  | empty {k : ℕ} (hstatus : s.status = sortstatCursor) (hnone : s.resultstream = none) :
      Opened s [] k
  | stream {sorted : List ρ} {k : ℕ} {st : XsStream} {file : TfFile} (hne : sorted ≠ [])
      (hstatus : s.status = sortstatCursor) (hst : s.resultstream = some st)
      (hplace : AtPlace file (runItems toRow [sorted]) k st) : Opened s sorted k

def sorterAnswer : CursorCall → CursorAnswer SortRow → Bool × Option (List UInt8)
  | .next, .row r => (true, some r.bytes)
  | .prev, .row r => (true, some r.bytes)
  | .next, _ => (false, none)
  | .prev, _ => (false, none)
  | .toBegin, _ => (true, none)
  | .toEnd, _ => (true, none)

end

section

variable {ρ : Type} {toRow : ρ → SortRow} {comp : List UInt8 → List UInt8 → ℤ}
  {blocksize room maxfiles : ℕ} {ps : XsPresorter} {added pend rows : List ρ}
  {runs : Mem (List (List ρ))} {file : List (List ρ)} {st : XsStream} {r : ρ} {j : ℕ}

/-! ## Writing a run -/

theorem Fits.left {rows' : List ρ} (h : Fits toRow room (rows ++ rows')) :
    Fits toRow room rows := by
  rw [Fits, rowsSize_append, List.length_append] at h
  exact ⟨by omega, by omega⟩

theorem Writing.append_all (hroom : room / blocksize < 2 ^ 32 - 1) (rows' : List ρ)
    (hw : Writing toRow blocksize st file rows)
    (hle : rowsSize toRow file.flatten + file.length + rowsSize toRow (rows ++ rows') ≤ room) :
    ∃ st', (rows'.map fun r => (toRow r).bytes).foldlM XsStream.append st = some st' ∧
      Writing toRow blocksize st' file (rows ++ rows') := by
  induction rows' generalizing st rows with
  | nil => exact ⟨st, rfl, by rw [List.append_nil]; exact hw⟩
  | cons r rows' ih =>
      have hsplit : rows ++ r :: rows' = rows ++ [r] ++ rows' := by rw [List.append_assoc]; rfl
      rw [hsplit] at hle ⊢
      obtain ⟨st₁, happend, hw₁⟩ := hw.append (r := r) hroom (by
        rw [rowsSize_append] at hle
        omega)
      obtain ⟨st', hall, hw'⟩ := ih hw₁ hle
      exact ⟨st', by rw [List.map_cons, List.foldlM_cons, happend]; exact hall, hw'⟩

theorem rowsSize_file_le (toRow : ρ → SortRow) {sa : XsStreamarr} (hj : j ∈ sa.files)
    (runs : Mem (List (List ρ))) :
    rowsSize toRow (runs j).flatten ≤ rowsSize toRow (distributedRows sa runs) := by
  obtain ⟨a, b, hsplit⟩ := List.append_of_mem hj
  rw [distributedRows, hsplit, List.map_append, List.map_cons, List.flatten_append,
    List.flatten_cons, rowsSize_append, rowsSize_append]
  omega

theorem pairwise_of_length_le_one {α : Type*} {le : α → α → Prop} {l : List α}
    (h : l.length ≤ 1) : l.Pairwise le := by
  cases l with
  | nil => exact List.Pairwise.nil
  | cons x l =>
      rw [List.length_cons] at h
      rw [List.eq_nil_of_length_eq_zero (by omega : l.length = 0)]
      exact List.pairwise_singleton _ x

theorem Presorting.sortTuples (hc : ComparesPreorder (rowComp toRow comp))
    (h : Presorting toRow comp blocksize maxfiles ps added pend runs)
    (hcount : added.length ≤ 2 ^ 31) :
    ∃ run : List ρ, ps.sortTuples comp = some (run.map fun r => (toRow r).bytes) ∧
      run.Perm pend ∧ run.Pairwise (ComparLe (rowComp toRow comp)) := by
  rw [XsPresorter.sortTuples, h.tuplearray_eq, List.length_map]
  split
  · have hle := h.count
    exact xsQsort_keys_sorts (f := fun r => (toRow r).bytes) hc pend (by omega)
  · rename_i hfew
    exact ⟨pend, rfl, List.Perm.refl _, pairwise_of_length_le_one (not_lt.mp hfew)⟩

theorem Presorting.flush (hc : ComparesPreorder (rowComp toRow comp))
    (hroom : room / blocksize < 2 ^ 32 - 1) (hfits : Fits toRow room added)
    (h : Presorting toRow comp blocksize maxfiles ps added pend runs) :
    ∃ ps' runs', ps.flush comp = some ps' ∧
      Presorting toRow comp blocksize maxfiles ps' added [] runs' := by
  obtain ⟨hcount, hfits⟩ := hfits
  by_cases hnil : pend = []
  · subst hnil
    exact ⟨ps, runs, by rw [XsPresorter.flush, h.tuplearray_eq]; rfl, h⟩
  · have hpos := List.length_pos_of_ne_nil hnil
    obtain ⟨run, hsort, hperm, hsorted⟩ := h.sortTuples hc hcount
    obtain ⟨j, maxruns, hnext, hj, hspread⟩ := h.distributing.spread.nextstream
    have hsize := rowsSize_perm toRow h.perm
    rw [rowsSize_append] at hsize
    have hrun := rowsSize_perm toRow hperm
    have hfile := rowsSize_file_le toRow hj runs
    have hlength : (runs j).length ≤ ps.streamarr.totruns := by
      rw [h.distributing.count j hj, ← h.distributing.spread.act_sum]
      exact List.le_sum_of_mem (List.mem_map_of_mem hj)
    have hle := h.count
    obtain ⟨st, happend, hw⟩ := (h.distributing.writing j).append_all hroom run (by
      rw [List.nil_append]
      omega)
    rw [List.nil_append] at hw
    obtain ⟨st', hseteor, hw'⟩ := hw.seteoratend hroom (by omega)
    refine ⟨{ ps with
        streamarr := (ps.streamarr.addrun maxruns j).putStream j st'
        bufidx := 0
        bufpos := 0
        tuplearray := [] }, Function.update runs j (runs j ++ [run]), ?_,
      h.distributing.addrun hspread hj hw' hsorted, h.maxfiles_eq, h.bufsize_eq, rfl, ?_, ?_,
      fun _ => rfl⟩
    · rw [XsPresorter.flush, h.tuplearray_eq, List.length_map, if_neg (by omega), hsort]
      dsimp only [Option.bind_eq_bind, Option.bind_some]
      rw [hnext]
      dsimp only
      have hstream : (ps.streamarr.addrun maxruns j).streams j = ps.streamarr.streams j := rfl
      rw [hstream, happend, Option.bind_some, hseteor, Option.bind_some]
    · rw [List.append_nil]
      exact ((distributedRows_update ps.streamarr hj runs run).trans
        (hperm.append_left _)).trans h.perm
    · change ps.streamarr.totruns + 1 + 0 ≤ added.length
      omega

/-! ## Adding rows -/

def rowVas (toRow : ρ → SortRow) (r : ρ) : List (List UInt8) := (toRow r).fields.map encVa

theorem makevtpl_eq (ps : XsPresorter) (r : ρ) : ps.makevtpl (rowVas toRow r) =
    if (toRow r).bytes.length ≤ ps.bufsize - ps.bufpos then some (toRow r).bytes else none :=
  xsTupleMakevtpl_eq _ (toRow r).ne_nil (toRow r).length_lt

theorem Presorting.insert (hc : ComparesPreorder (rowComp toRow comp))
    (hroom : room / blocksize < 2 ^ 32 - 1) (r : ρ) (hfits : Fits toRow room (added ++ [r]))
    (h : Presorting toRow comp blocksize maxfiles ps added pend runs) :
    ∃ ps' pend' runs', ps.insert comp (toRow r).bytes = some ps' ∧
      Presorting toRow comp blocksize maxfiles ps' (added ++ [r]) pend' runs' := by
  have hadd (bufidx bufpos : ℕ) : Presorting toRow comp blocksize maxfiles { ps with
      bufidx := bufidx
      bufpos := bufpos
      tuplearray := ps.tuplearray ++ [(toRow r).bytes] } (added ++ [r]) (pend ++ [r]) runs := by
    refine ⟨h.distributing, h.maxfiles_eq, h.bufsize_eq, ?_, ?_, ?_,
      fun hnil => absurd hnil (List.append_ne_nil_of_right_ne_nil _ (List.cons_ne_nil _ _))⟩
    · rw [List.map_append, ← h.tuplearray_eq]
      rfl
    · rw [← List.append_assoc]
      exact h.perm.append_right [r]
    · have hle := h.count
      rw [List.length_append, List.length_append, List.length_singleton]
      change ps.streamarr.totruns + _ ≤ _
      omega
  rw [XsPresorter.insert]
  dsimp only
  split
  · split
    · exact ⟨_, _, _, rfl, hadd _ _⟩
    · obtain ⟨ps', runs', hflush, h'⟩ := (hadd _ _).flush hc hroom hfits
      exact ⟨ps', [], runs', hflush, h'⟩
  · exact ⟨_, _, _, rfl, hadd _ _⟩

theorem Presorting.addtuple (hc : ComparesPreorder (rowComp toRow comp))
    (hroom : room / blocksize < 2 ^ 32 - 1) (r : ρ) (hr : (toRow r).bytes.length ≤ blocksize)
    (hfits : Fits toRow room (added ++ [r]))
    (h : Presorting toRow comp blocksize maxfiles ps added pend runs) :
    ∃ ps' pend' runs', ps.addtuple comp (rowVas toRow r) = some ps' ∧
      Presorting toRow comp blocksize maxfiles ps' (added ++ [r]) pend' runs' := by
  rw [XsPresorter.addtuple, makevtpl_eq]
  by_cases hfit : (toRow r).bytes.length ≤ ps.bufsize - ps.bufpos
  · rw [if_pos hfit]
    exact h.insert hc hroom r hfits
  · rw [if_neg hfit]
    have hne : pend ≠ [] := by
      intro hnil
      rw [h.empty hnil, h.bufsize_eq] at hfit
      exact hfit hr
    dsimp only
    split
    · -- an empty buffer takes the row
      have hnext : Presorting toRow comp blocksize maxfiles ps.nextbuf added pend runs :=
        ⟨h.distributing, h.maxfiles_eq, h.bufsize_eq, h.tuplearray_eq, h.perm, h.count,
          fun hnil => absurd hnil hne⟩
      have hmake : ps.nextbuf.makevtpl (rowVas toRow r) = some (toRow r).bytes := by
        rw [makevtpl_eq, if_pos]
        exact hr.trans_eq h.bufsize_eq.symm
      dsimp only [Option.bind_eq_bind]
      rw [hmake, Option.bind_some]
      exact hnext.insert hc hroom r hfits
    · obtain ⟨ps', runs', hflush, h'⟩ := h.flush hc hroom hfits.left
      have hmake : ps'.makevtpl (rowVas toRow r) = some (toRow r).bytes := by
        rw [makevtpl_eq, h'.empty rfl, h'.bufsize_eq, Nat.sub_zero, if_pos hr]
      rw [hflush]
      dsimp only [Option.bind_eq_bind, Option.bind_some]
      rw [hmake, Option.bind_some]
      exact h'.insert hc hroom r hfits

variable {s : XsSorter}

theorem adding_init (toRow : ρ → SortRow) (comp : List UInt8 → List UInt8 → ℤ)
    (maxnbuf stepsizebytes stepsizerows : ℕ) (hpos : 0 < blocksize)
    (hnbuf : 3 ≤ maxnbuf) (hfiles : 3 ≤ maxfiles) :
    ∃ maxfiles' ≤ maxfiles, Adding toRow comp blocksize maxfiles'
      (XsSorter.init maxnbuf maxfiles stepsizebytes stepsizerows blocksize hpos) ([] : List ρ) := by
  refine ⟨if maxnbuf < maxfiles then maxnbuf else maxfiles, ?_, rfl, [], fun _ => [],
    distributing_init hpos ?_, rfl, rfl, rfl, ?_, le_rfl, fun _ => rfl⟩
  · split <;> omega
  · split <;> omega
  · have hrows : distributedRows (XsSorter.init maxnbuf maxfiles stepsizebytes stepsizerows
        blocksize hpos).presorter.streamarr (fun _ => ([] : List (List ρ))) = [] :=
      List.flatten_eq_nil_iff.mpr fun rows hrows => by
        obtain ⟨-, -, rfl⟩ := List.mem_map.mp hrows
        rfl
    rw [hrows]
    rfl

theorem Adding.addAll (hc : ComparesPreorder (rowComp toRow comp))
    (hroom : room / blocksize < 2 ^ 32 - 1) (rows : List ρ)
    (hrows : ∀ r ∈ rows, (toRow r).bytes.length ≤ blocksize)
    (hfits : Fits toRow room (added ++ rows))
    (h : Adding toRow comp blocksize maxfiles s added) :
    ∃ s', s.addAll comp (rows.map (rowVas toRow)) = some s' ∧
      Adding toRow comp blocksize maxfiles s' (added ++ rows) := by
  induction rows generalizing s added with
  | nil => exact ⟨s, rfl, by rw [List.append_nil]; exact h⟩
  | cons r rows ih =>
      obtain ⟨pend, runs, hp⟩ := h.presorting
      have hsplit : added ++ r :: rows = added ++ [r] ++ rows := by rw [List.append_assoc]; rfl
      rw [hsplit] at hfits ⊢
      obtain ⟨ps', pend', runs', hadd, hp'⟩ := hp.addtuple hc hroom r
        (hrows r (List.mem_cons_self ..)) hfits.left
      have hstep : s.addtuple comp (rowVas toRow r) =
          some { s with status := sortstatAdd, presorter := ps' } := by
        have hstatus := h.status_eq
        rw [XsSorter.addtuple]
        split at hstatus
        · rw [hstatus, hadd]
          rfl
        · rw [hstatus, hadd]
          rfl
      obtain ⟨s', hall, h'⟩ := ih (fun r hr => hrows r (List.mem_cons_of_mem _ hr)) hfits
        (s := { s with status := sortstatAdd, presorter := ps' })
        ⟨(if_neg (List.append_ne_nil_of_right_ne_nil _ (List.cons_ne_nil _ _))).symm,
          pend', runs', hp'⟩
      refine ⟨s', ?_, h'⟩
      rw [XsSorter.addAll, List.map_cons, List.foldlM_cons, hstep]
      exact hall

/-! ## Merging -/

variable {sorted : List ρ} {mg res : XsMerge} {n : ℕ}

theorem itemRows_rowItems (rows : List ρ) : itemRows (rowItems toRow rows) = rows.map toRow := by
  induction rows with
  | nil => rfl
  | cons r rows ih => rw [rowItems_cons, itemRows_row, ih, List.map_cons]

theorem itemRows_run (rows : List ρ) : itemRows (runItems toRow [rows]) = rows.map toRow := by
  rw [runItems_cons, itemRows_append, itemRows_rowItems, itemRows_eor, runItems_nil, itemRows_nil,
    List.append_nil]

theorem opencursor_opened (toRow : ρ → SortRow) (hne : sorted ≠ [])
    (hdata : st.tf.file.data = itemBytes (runItems toRow [sorted])) (s : XsSorter) :
    ∃ s', s.opencursor st = some (.xsRcSucc, false, s') ∧ Opened toRow s' sorted 0 := by
  obtain ⟨st', hinit, hstatus, hplace⟩ := XsStream.initfetch_listCursor hdata
  rw [itemRows_run, if_neg (List.map_eq_nil_iff.not.mpr hne)] at hstatus
  refine ⟨{ s with status := sortstatCursor, resultstream := some st' }, ?_,
    .stream hne rfl rfl hplace⟩
  rw [XsSorter.opencursor, hinit]
  dsimp only [Option.bind_eq_bind, Option.bind_some]
  rw [if_pos hstatus]

theorem merges_steps (hne : sorted ≠ []) (hsteps : XsMerge.steps comp n mg = some res)
    (hdata : res.writestream.tf.file.data = itemBytes (runItems toRow [sorted])) (s : XsSorter)
    (hstatus : s.status = sortstatMerge) (hmerge : s.merge = some mg) :
    ∃ s', s.merges comp n = some (false, s') ∧ Opened toRow s' sorted 0 := by
  induction n generalizing s mg with
  | zero => cases hsteps
  | succ n ih =>
      rw [XsMerge.steps] at hsteps
      rw [XsSorter.merges, XsSorter.sorterMerge, hstatus, hmerge]
      dsimp only [Option.bind_eq_bind, Option.bind_some] at hsteps ⊢
      cases hstep : mg.step comp with
      | none =>
          rw [hstep] at hsteps
          cases hsteps
      | some r =>
          obtain ⟨rc, mg'⟩ := r
          rw [hstep] at hsteps
          dsimp only [Option.bind_some] at hsteps ⊢
          split at hsteps
          · rename_i hsucc
            cases hsteps
            obtain ⟨s', hopen, hopened⟩ :=
              opencursor_opened toRow hne hdata { s with
                status := sortstatMerge
                merge := some res }
            rw [if_pos hsucc, hopen, Option.bind_some]
            exact ⟨s', rfl, hopened⟩
          · rename_i hcont
            rw [if_neg hcont, Option.bind_some]
            dsimp only
            rw [if_neg (by decide)]
            exact ih hsteps { s with
              status := sortstatMerge
              merge := some mg'
              resultstream := none } rfl rfl

/-- The rows are merged into one run, over which a cursor is opened. -/
theorem Adding.merges (hc : ComparesPreorder (rowComp toRow comp))
    (hroom : room / blocksize < 2 ^ 32 - 1) (hcount : rows.length ≤ 2 ^ 31)
    (hfits : rowsSize toRow rows + maxfiles * rows.length ≤ room)
    (h : Adding toRow comp blocksize maxfiles s rows) :
    ∃ n sorted s', sorted.Perm rows ∧ sorted.Pairwise (ComparLe (rowComp toRow comp)) ∧
      s.merges comp n = some (rows.isEmpty, s') ∧ Opened toRow s' sorted 0 := by
  have hstatus := h.status_eq
  by_cases hnil : rows = []
  · subst hnil
    rw [if_pos rfl] at hstatus
    refine ⟨1, [], { s with status := sortstatCursor, resultstream := none }, List.Perm.refl _,
      List.Pairwise.nil, ?_, .empty rfl rfl⟩
    rw [XsSorter.merges, XsSorter.sorterMerge, hstatus]
    rfl
  rw [if_neg hnil] at hstatus
  have hempty : rows.isEmpty = false := List.isEmpty_eq_false_iff.mpr hnil
  have hpos := List.length_pos_of_ne_nil hnil
  obtain ⟨pend, runs, hp⟩ := h.presorting
  have hthree := hp.distributing.spread.three_le
  rw [hp.maxfiles_eq] at hthree
  have hlength : rows.length ≤ maxfiles * rows.length := Nat.le_mul_of_pos_left _ (by omega)
  obtain ⟨ps, runs', hflush, hp'⟩ := hp.flush hc hroom ⟨hcount, by omega⟩
  have hperm := hp'.perm
  rw [List.append_nil] at hperm
  have hd := hp'.distributing
  have htot := hp'.count
  rw [List.length_nil, Nat.add_zero] at htot
  have hcall : s.sorterMerge comp = ps.streamarr.endofdistribute.bind fun dist =>
      XsSorter.startMerge { s with presorter := ps } dist := by
    rw [XsSorter.sorterMerge, hstatus]
    dsimp only [Option.bind_eq_bind]
    rw [hflush]
    rfl
  have hsize := rowsSize_perm toRow hperm
  rcases Nat.lt_or_ge ps.streamarr.totruns 2 with hfew | hmany
  · -- there is one run
    have hone : ps.streamarr.totruns = 1 := by
      by_contra hne
      rw [hd.rows_empty (by omega)] at hperm
      exact hnil hperm.nil_eq.symm
    obtain ⟨st, run, hend, hrows, hsorted, hdata⟩ := hd.endofdistribute_one hone
    rw [hrows] at hperm
    have hne : run ≠ [] := fun h => hnil (h ▸ hperm).nil_eq.symm
    obtain ⟨s', hopen, hopened⟩ :=
      opencursor_opened toRow hne hdata { s with presorter := ps }
    refine ⟨1, run, s', hperm, hsorted, ?_, hopened⟩
    rw [XsSorter.merges, hcall, hend, hempty]
    dsimp only [Option.bind_eq_bind, Option.bind_some, XsSorter.startMerge]
    rw [hopen]
    rfl
  · obtain ⟨sts, hend, hdist, hperfect, hle⟩ := hd.endofdistribute_runs hmany
    have hmax := hd.spread.numbers.le
    rw [hp'.maxfiles_eq, max_eq_left (by omega)] at hmax
    have hruns : ps.streamarr.maxruns 0 ≤ maxfiles * rows.length :=
      hmax.trans (Nat.mul_le_mul (Nat.sub_le _ _) htot)
    have hrows : ((distributedRuns ps.streamarr runs').map fun d => d.2.flatten).flatten =
        distributedRows ps.streamarr runs' := by
      rw [distributedRuns, List.map_map]
      exact hd.flatten_filter fun i hi => hi
    have hw := hd.writing 1
    rw [hd.one] at hw
    have hne : distributedRuns ps.streamarr runs' ≠ [] := by
      intro hnone
      rw [hnone] at hrows
      rw [← hrows] at hperm
      exact hnil hperm.nil_eq.symm
    obtain ⟨mg, res, run, hinit, ⟨n, hsteps⟩, hsorted, hrun, hdata⟩ := xsMerge_sorts
      s.stepsizebytes s.stepsizerows hc hroom hdist hne hw
      (fun d hdmem run hrun => by
        obtain ⟨i, -, rfl⟩ := List.mem_map.mp hdmem
        exact hd.sorted i run hrun)
      hperfect (fun d hdmem => by
        have hcount := hle d hdmem
        rw [hrows, hsize]
        omega)
    rw [hrows] at hrun
    have hrun := hrun.trans hperm
    have hrunne : run ≠ [] := fun h => hnil (h ▸ hrun).nil_eq.symm
    obtain ⟨s', hmerges, hopened⟩ := merges_steps hrunne hsteps hdata { s with
        status := sortstatMerge
        presorter := ps
        merge := some mg
        resultstream := none } rfl rfl
    refine ⟨n + 1, run, s', hrun, hsorted, ?_, hopened⟩
    rw [XsSorter.merges, hcall, hend, hempty]
    dsimp only [Option.bind_eq_bind, Option.bind_some, XsSorter.startMerge]
    rw [hinit]
    exact hmerges

/-! ## Fetching -/

theorem callResult_streamAnswer (c : CursorCall) {l : List SortRow} (hne : l ≠ []) (k : ℕ) :
    XsSorter.callResult (streamAnswer (listCursor l k c).1).1 (streamAnswer (listCursor l k c).1).2
      c = some (sorterAnswer c (listCursor l k c).1) := by
  cases c with
  | next =>
      rw [listCursor]
      cases l[k]? with
      | none => rfl
      | some r => rfl
  | prev =>
      rcases k with _ | _ | k
      · rfl
      · rfl
      · rw [listCursor]
        cases l[k]? with
        | none => rfl
        | some r => rfl
  | toBegin =>
      rw [listCursor, if_neg hne]
      rfl
  | toEnd => rfl

theorem Opened.call {k : ℕ} (h : Opened toRow s sorted k) (c : CursorCall) :
    ∃ s', s.call c = some (sorterAnswer c (listCursor (sorted.map toRow) k c).1, s') ∧
      Opened toRow s' sorted (listCursor (sorted.map toRow) k c).2 := by
  cases h with
  | empty hstatus hnone =>
      refine ⟨s, ?_, .empty hstatus hnone⟩
      rw [XsSorter.call, if_pos hstatus, hnone]
      cases c with
      | next => rfl
      | prev =>
          rw [List.map_nil, listCursor_prev_nil]
          rfl
      | toBegin => rfl
      | toEnd => rfl
  | stream hne hstatus hst hplace =>
      obtain ⟨st', hcall, hplace'⟩ := XsStream.call_listCursor hplace c
      rw [itemRows_run] at hcall hplace'
      refine ⟨{ s with resultstream := some st' }, ?_, .stream hne hstatus rfl hplace'⟩
      rw [XsSorter.call, if_pos hstatus, hst]
      dsimp only
      rw [hcall, Option.bind_some,
        callResult_streamAnswer c (List.map_eq_nil_iff.not.mpr hne) k, Option.map_some]

theorem Opened.run {k : ℕ} (h : Opened toRow s sorted k) (calls : List CursorCall) :
    s.run calls = some (List.zipWith sorterAnswer calls
      (listCursorRun (sorted.map toRow) k calls)) := by
  induction calls generalizing s k with
  | nil => rfl
  | cons c calls ih =>
      obtain ⟨s', hcall, h'⟩ := h.call c
      rw [XsSorter.run, hcall]
      dsimp only [Option.bind_eq_bind, Option.bind_some]
      rw [ih h']
      rfl

/-- The rows that were added come back in order, in both directions. -/
theorem sorter_sorts (hc : ComparesPreorder (rowComp toRow comp))
    (maxnbuf stepsizebytes stepsizerows : ℕ) (hpos : 0 < blocksize) (hnbuf : 3 ≤ maxnbuf)
    (hfiles : 3 ≤ maxfiles) (hrows : ∀ r ∈ rows, (toRow r).bytes.length ≤ blocksize)
    (hcount : maxfiles * rows.length < 2 ^ 31)
    (hspace : rowsSize toRow rows + maxfiles * rows.length < blocksize * (2 ^ 32 - 1)) :
    ∃ s n s', ∃ sorted : List ρ,
      (XsSorter.init maxnbuf maxfiles stepsizebytes stepsizerows blocksize hpos).addAll comp
        (rows.map (rowVas toRow)) = some s ∧
      s.merges comp n = some (rows.isEmpty, s') ∧
      sorted.Perm rows ∧ sorted.Pairwise (ComparLe (rowComp toRow comp)) ∧
      ∀ calls, s'.run calls = some (List.zipWith sorterAnswer calls
        (listCursorRun (sorted.map toRow) 0 calls)) := by
  have hlength : rows.length ≤ maxfiles * rows.length := Nat.le_mul_of_pos_left _ (by omega)
  have hroom : (rowsSize toRow rows + maxfiles * rows.length) / blocksize < 2 ^ 32 - 1 :=
    Nat.div_lt_of_lt_mul hspace
  obtain ⟨maxfiles', hle, hadding⟩ := adding_init toRow comp maxnbuf
    stepsizebytes stepsizerows hpos hnbuf hfiles
  obtain ⟨s, hadd, hadded⟩ := hadding.addAll hc hroom rows hrows
    (by rw [List.nil_append]; exact ⟨by omega, by omega⟩)
  rw [List.nil_append] at hadded
  obtain ⟨n, sorted, s', hperm, hsorted, hmerges, hopened⟩ := hadded.merges hc hroom (by omega)
    (Nat.add_le_add_left (Nat.mul_le_mul_right _ hle) _)
  exact ⟨s, n, s', sorted, hadd, hmerges, hperm, hsorted, hopened.run⟩

end

/-! ## Sorting by conditions -/

section

variable {conds : List VtplCmp}

structure CondRow (conds : List VtplCmp) where
  row : SortRow
  conds_le : conds.length ≤ row.fields.length
  netlen_lt : netlen row.fields < 2 ^ 31

theorem rowComp_condcompare (x y : CondRow conds) :
    (rowComp CondRow.row (vtplCondcompare conds) x y ≤ 0 ↔
        CondLe conds x.row.fields y.row.fields) ∧
      (0 ≤ rowComp CondRow.row (vtplCondcompare conds) x y ↔
        CondLe conds y.row.fields x.row.fields) :=
  vtplCondcompare_sign x.conds_le y.conds_le x.netlen_lt y.netlen_lt _ _

theorem condcompare_preorder :
    ComparesPreorder (rowComp (CondRow.row : CondRow conds → SortRow) (vtplCondcompare conds)) where
  symm x y := by
    rw [← not_le, ← not_le, (rowComp_condcompare x y).2, (rowComp_condcompare y x).1]
  trans x y z hxy hyz := (rowComp_condcompare x z).1.mpr
    (((rowComp_condcompare x y).1.mp hxy).trans ((rowComp_condcompare y z).1.mp hyz))

theorem exists_condRows {blocksize : ℕ} (hblock : blocksize < 2 ^ 31) {rows : List SortRow}
    (hrows : ∀ r ∈ rows, conds.length ≤ r.fields.length ∧ r.bytes.length ≤ blocksize) :
    ∃ rows' : List (CondRow conds), rows = rows'.map CondRow.row := by
  have hcond : ∀ r ∈ rows, conds.length ≤ r.fields.length ∧ netlen r.fields < 2 ^ 31 := by
    intro r hr
    obtain ⟨hle, hfit⟩ := hrows r hr
    rw [SortRow.bytes, length_rowBytes] at hfit
    exact ⟨hle, by omega⟩
  refine ⟨rows.attach.map fun r => ⟨r.val, (hcond r.val r.property).1, (hcond r.val r.property).2⟩,
    ?_⟩
  rw [List.map_map]
  exact (List.attach_map_subtype_val rows).symm

/-- A sorter gives the rows in the order of its conditions: the calls of its cursor are those of a
cursor over a list that has the rows that were added, in order. -/
theorem sorter_orderby (conds : List VtplCmp) {maxnbuf maxfiles stepsizebytes stepsizerows
    blocksize : ℕ} (hpos : 0 < blocksize) (hblock : blocksize < 2 ^ 31) (hnbuf : 3 ≤ maxnbuf)
    (hfiles : 3 ≤ maxfiles) (rows : List SortRow)
    (hrows : ∀ r ∈ rows, conds.length ≤ r.fields.length ∧ r.bytes.length ≤ blocksize)
    (hcount : maxfiles * rows.length < 2 ^ 31)
    (hspace : (rows.map fun r => r.bytes.length).sum + maxfiles * rows.length <
      blocksize * (2 ^ 32 - 1)) :
    ∃ s n s', ∃ sorted : List SortRow,
      (XsSorter.init maxnbuf maxfiles stepsizebytes stepsizerows blocksize hpos).addAll
        (vtplCondcompare conds) (rows.map fun r => r.fields.map encVa) = some s ∧
      s.merges (vtplCondcompare conds) n = some (rows.isEmpty, s') ∧
      sorted.Perm rows ∧ sorted.Pairwise (fun a b => CondLe conds a.fields b.fields) ∧
      ∀ calls, s'.run calls =
        some (List.zipWith sorterAnswer calls (listCursorRun sorted 0 calls)) := by
  obtain ⟨rows, rfl⟩ := exists_condRows hblock hrows
  obtain ⟨s, n, s', sorted, hadd, hmerges, hperm, hsorted, hrun⟩ := sorter_sorts
    condcompare_preorder maxnbuf stepsizebytes stepsizerows hpos hnbuf hfiles
    (fun r hr => (hrows r.row (List.mem_map_of_mem hr)).2)
    (by rw [List.length_map] at hcount; exact hcount)
    (by rw [List.length_map, List.map_map] at hspace; exact hspace)
  refine ⟨s, n, s', sorted.map CondRow.row, ?_, ?_, hperm.map _, ?_, hrun⟩
  · rw [List.map_map]
    exact hadd
  · rw [hmerges, List.isEmpty_map]
  · exact List.pairwise_map.mpr (hsorted.imp fun h => (rowComp_condcompare _ _).1.mp h)

theorem zipWith_sorterAnswer_next (sorted : List SortRow) :
    List.zipWith sorterAnswer (List.replicate (sorted.length + 1) .next)
        (listCursorRun sorted 0 (List.replicate (sorted.length + 1) .next)) =
      sorted.map (fun r => (true, some r.bytes)) ++ [(false, none)] := by
  have hrun := listCursorRun_next [] sorted
  rw [List.nil_append, List.length_nil] at hrun
  rw [hrun]
  induction sorted with
  | nil => rfl
  | cons r sorted ih =>
      rw [List.length_cons, List.replicate_succ, List.map_cons, List.cons_append,
        List.zipWith_cons_cons, List.map_cons, List.cons_append]
      exact congrArg _ (ih (by simpa using listCursorRun_next [] sorted))

/-- Fetched to its end, a sorter has returned the rows that were added, each one not above
the next for `vtpl_condcompare`. -/
theorem sorter_fetches_orderby (conds : List VtplCmp) {maxnbuf maxfiles stepsizebytes
    stepsizerows blocksize : ℕ} (hpos : 0 < blocksize) (hblock : blocksize < 2 ^ 31)
    (hnbuf : 3 ≤ maxnbuf) (hfiles : 3 ≤ maxfiles) (rows : List SortRow)
    (hrows : ∀ r ∈ rows, conds.length ≤ r.fields.length ∧ r.bytes.length ≤ blocksize)
    (hcount : maxfiles * rows.length < 2 ^ 31)
    (hspace : (rows.map fun r => r.bytes.length).sum + maxfiles * rows.length <
      blocksize * (2 ^ 32 - 1)) :
    ∃ s n s', ∃ sorted : List SortRow,
      (XsSorter.init maxnbuf maxfiles stepsizebytes stepsizerows blocksize hpos).addAll
        (vtplCondcompare conds) (rows.map fun r => r.fields.map encVa) = some s ∧
      s.merges (vtplCondcompare conds) n = some (rows.isEmpty, s') ∧
      s'.run (List.replicate (rows.length + 1) .next) =
        some (sorted.map (fun r => (true, some r.bytes)) ++ [(false, none)]) ∧
      sorted.Perm rows ∧
      sorted.Pairwise (fun a b => vtplCondcompare conds a.bytes b.bytes ≤ 0) := by
  obtain ⟨rows, rfl⟩ := exists_condRows hblock hrows
  obtain ⟨s, n, s', sorted, hadd, hmerges, hperm, hsorted, hrun⟩ := sorter_sorts
    condcompare_preorder maxnbuf stepsizebytes stepsizerows hpos hnbuf hfiles
    (fun r hr => (hrows r.row (List.mem_map_of_mem hr)).2)
    (by rw [List.length_map] at hcount; exact hcount)
    (by rw [List.length_map, List.map_map] at hspace; exact hspace)
  refine ⟨s, n, s', sorted.map CondRow.row, ?_, ?_, ?_, hperm.map _, ?_⟩
  · rw [List.map_map]
    exact hadd
  · rw [hmerges, List.isEmpty_map]
  · rw [hrun, List.length_map, ← hperm.length_eq, ← sorted.length_map CondRow.row,
      zipWith_sorterAnswer_next]
  · exact List.pairwise_map.mpr hsorted

end

def threeRows : List SortRow := [.ofByte 1, .ofByte 3, .ofByte 2]

/-- Three rows in descending order, with files of small blocks. -/
theorem sorter_orderby_desc :
    ∃ s n s', ∃ sorted : List SortRow,
      (XsSorter.init 3 3 1 1 8 (by decide)).addAll (vtplCondcompare [.desc])
        (threeRows.map fun r => r.fields.map encVa) = some s ∧
      s.merges (vtplCondcompare [.desc]) n = some (false, s') ∧ sorted.Perm threeRows ∧
      sorted.Pairwise (fun a b => CondLe [.desc] a.fields b.fields) ∧
      ∀ calls, s'.run calls =
        some (List.zipWith sorterAnswer calls (listCursorRun sorted 0 calls)) :=
  @sorter_orderby [.desc] 3 3 1 1 8 (by decide) (by decide) le_rfl le_rfl threeRows
    (by decide) (by decide) (by decide)

theorem sorter_fetches_orderby_desc :
    ∃ s n s', ∃ sorted : List SortRow,
      (XsSorter.init 3 3 1 1 8 (by decide)).addAll (vtplCondcompare [.desc])
        (threeRows.map fun r => r.fields.map encVa) = some s ∧
      s.merges (vtplCondcompare [.desc]) n = some (false, s') ∧
      s'.run (List.replicate 4 .next) =
        some (sorted.map (fun r => (true, some r.bytes)) ++ [(false, none)]) ∧
      sorted.Perm threeRows ∧
      sorted.Pairwise (fun a b => vtplCondcompare [.desc] a.bytes b.bytes ≤ 0) :=
  @sorter_fetches_orderby [.desc] 3 3 1 1 8 (by decide) (by decide) le_rfl le_rfl threeRows
    (by decide) (by decide) (by decide)

end SolidDB
