import SolidDB.Xs.MergeRun

/-!
# The phases of a merge

Between two runs the read streams have the runs that are left, and the write stream has those that
were merged. A stream without a run becomes the write stream. The numbers of runs are perfect, so
that in every phase one stream comes to its end before the others, and in the last one all do.
-/

namespace SolidDB

open XsStreamstatus Mergestatus Polyphase

section

variable {ρ : Type} (toRow : ρ → SortRow) (comp : List UInt8 → List UInt8 → ℤ) (blocksize : ℕ)

inductive Holds (st : XsStream) : List (List ρ) → Prop where
  | ended (he : Ended blocksize st) : Holds st []
  | run {rows : List ρ} {later : List (List ρ)} (hr : Reading toRow blocksize st rows later)
      (hstatus : st.status ≠ sstaEos) : Holds st (rows :: later)

/-- A merge between two runs: the runs that are left in the read streams, and those of the write
stream. -/
structure Resting (room : ℕ) (mg : XsMerge) (files : List (List (List ρ)))
    (out : List (List ρ)) : Prop where
  tuplelist_eq : mg.tuplelist = []
  length_eq : files.length = mg.readstreams.length
  holds : ∀ (i : ℕ) st file, mg.readstreams[i]? = some st → files[i]? = some file →
    Holds toRow blocksize st file
  sorted : ∀ file ∈ files, ∀ run ∈ file, run.Pairwise (ComparLe (rowComp toRow comp))
  out_sorted : ∀ run ∈ out, run.Pairwise (ComparLe (rowComp toRow comp))
  writing : Writing toRow blocksize mg.writestream out []
  fits : ∀ file ∈ files, rowsSize toRow out.flatten + rowsSize toRow files.flatten.flatten +
    (out.length + file.length) ≤ room

/-- Some calls of `xs_merge_step` end with this merge. -/
def Finishes (mg res : XsMerge) : Prop := ∃ n, XsMerge.steps comp n mg = some res

/-- The step begins with the streams of the second merge. -/
def Starts (mg mg₀ : XsMerge) : Prop :=
  mg.stepStart comp = (mg₀.mgtlInitialize comp).map fun mg => { mg with status := mgsRun }

def MergesToOne (room : ℕ) (counts : List ℕ) : Prop :=
  ∀ (mg mg₀ : XsMerge) (files : List (List (List ρ))),
    Resting toRow comp blocksize room mg₀ files [] → Starts comp mg mg₀ → files ≠ [] →
    files.map List.length = counts →
    ∃ res run, Finishes comp mg res ∧ run.Pairwise (ComparLe (rowComp toRow comp)) ∧
      run.Perm files.flatten.flatten ∧
      res.writestream.tf.file.data = itemBytes (runItems toRow [run])

/-- A stream of the distribution: the empty runs that are only counted, and the runs. -/
structure Distributed (st : XsStream) (nemptyruns : ℕ) (runs : List (List ρ)) : Prop where
  nocur : st.cursstat = XsCursorstatus.scstaNocur
  blocksize_eq : st.tf.file.blocksize = blocksize
  nemptyruns_eq : st.nemptyruns = nemptyruns
  ne_nil : runs ≠ []
  data_eq : st.tf.file.data = itemBytes (runItems toRow runs)

structure EndsRun (mg mg' : XsMerge) (files : List (List (List ρ))) : Prop where
  last : (∀ file ∈ files, file = []) → ∃ writestream, mg'.writestream.rewind = some writestream ∧
    Finishes comp mg { mg' with writestream := writestream }
  goes_on : (∃ file ∈ files, file ≠ []) →
    mg'.status = (if files.any List.isEmpty then mgsEos else mgsEor) ∧
      ∀ res, Finishes comp mg' res → Finishes comp mg res

end

section

variable {ρ : Type} {toRow : ρ → SortRow} {comp : List UInt8 → List UInt8 → ℤ} {blocksize room : ℕ}
  {mg mg₀ mg' res : XsMerge} {files : List (List (List ρ))} {streams : List XsStream}
  {laters : List (List (List ρ))} {out pends : List (List ρ)} {file : List (List ρ)}
  {rows : List ρ} {st : XsStream} {i : ℕ}

/-! ## The ends of the streams -/

theorem Holds.eos_iff (h : Holds toRow blocksize st file) :
    decide (st.status = sstaEos) = file.isEmpty := by
  cases h with
  | ended he => rw [he.status_eq]; rfl
  | run hr hstatus => rw [decide_eq_false hstatus]; rfl

theorem map_eos (hlength : files.length = streams.length)
    (hholds : ∀ (i : ℕ) st file, streams[i]? = some st → files[i]? = some file →
      Holds toRow blocksize st file) :
    streams.map (fun st => decide (st.status = sstaEos)) = files.map List.isEmpty := by
  refine List.ext_getElem (by rw [List.length_map, List.length_map, hlength]) fun i hi hi' => ?_
  rw [List.length_map] at hi hi'
  rw [List.getElem_map, List.getElem_map]
  exact (hholds i _ _ (List.getElem?_eq_getElem hi) (List.getElem?_eq_getElem hi')).eos_iff

theorem countP_eos (hlength : files.length = streams.length)
    (hholds : ∀ (i : ℕ) st file, streams[i]? = some st → files[i]? = some file →
      Holds toRow blocksize st file) :
    (streams.countP fun st => st.status = sstaEos) = files.countP List.isEmpty := by
  have hmap := congrArg (List.countP id) (map_eos hlength hholds)
  rwa [List.countP_map, List.countP_map] at hmap

theorem nextrunLoop_eq (hfeeds : ∀ st ∈ streams, st.status = sstaEor)
    (hskip : ∀ st ∈ streams, st.skipeor.status ≠ sstaError) :
    XsMerge.nextrunLoop streams = some (streams.map XsStream.skipeor) := by
  induction streams with
  | nil => rfl
  | cons st streams ih =>
      have hst := List.mem_cons_self (a := st) (l := streams)
      rw [XsMerge.nextrunLoop, if_pos (.inl (hfeeds st hst))]
      dsimp only
      rw [if_neg (hskip st hst), ih (fun st hmem => hfeeds st (List.mem_cons_of_mem _ hmem))
        fun st hmem => hskip st (List.mem_cons_of_mem _ hmem)]
      rfl

theorem Reading.skipeor_holds (hr : Reading toRow blocksize st [] file)
    (hstatus : st.status = sstaEor) :
    Holds toRow blocksize st.skipeor file ∧ st.skipeor.status ≠ sstaError := by
  cases file with
  | nil =>
      have hended := hr.skipeor_nil hstatus
      exact ⟨.ended hended, by rw [hended.status_eq]; decide⟩
  | cons rows later =>
      obtain ⟨hr', hneos, hnerror⟩ := hr.skipeor_cons hstatus
      exact ⟨.run hr' hneos, hnerror⟩

/-! ## Calls until the merge is done -/

theorem Finishes.of_step (hstep : mg.step comp = some (.xsRcCont, mg'))
    (h : Finishes comp mg' res) : Finishes comp mg res := by
  obtain ⟨n, hn⟩ := h
  refine ⟨n + 1, ?_⟩
  rw [XsMerge.steps, hstep]
  exact hn

theorem Finishes.of_eq (hstep : mg.step comp = mg'.step comp) (h : Finishes comp mg' res) :
    Finishes comp mg res := by
  obtain ⟨n, hn⟩ := h
  cases n with
  | zero => cases hn
  | succ n => exact ⟨n + 1, by rw [XsMerge.steps, hstep]; exact hn⟩

theorem EndsRun.of_finishes (h : EndsRun comp mg₀ mg' files)
    (hmg : ∀ res, Finishes comp mg₀ res → Finishes comp mg res) : EndsRun comp mg mg' files where
  last hfiles := (h.last hfiles).imp fun _ hlast => ⟨hlast.1, hmg _ hlast.2⟩
  goes_on hfiles := ⟨(h.goes_on hfiles).1, fun res hres => hmg _ ((h.goes_on hfiles).2 res hres)⟩

/-! ## The end of a run -/

theorem Merging.nextrun (hroom : room / blocksize < 2 ^ 32 - 1)
    (h : Merging toRow comp blocksize room mg pends laters out rows) (hpends : pends.flatten = []) :
    ∃ writestream readstreams,
      mg.writestream.seteoratend = some writestream ∧
      Writing toRow blocksize writestream (out ++ [rows]) [] ∧
      laters.length = readstreams.length ∧
      (∀ (i : ℕ) st file, readstreams[i]? = some st → laters[i]? = some file →
        Holds toRow blocksize st file) ∧
      XsMerge.nextrunLoop mg.readstreams = some readstreams := by
  have hfits := h.fits
  rw [hpends, List.append_nil] at hfits
  obtain ⟨writestream, hseteor, hwriting⟩ := h.writing.seteoratend hroom hfits
  have hskip : ∀ (i : ℕ) st later, mg.readstreams[i]? = some st → laters[i]? = some later →
      st.status = sstaEor ∧ Holds toRow blocksize st.skipeor later ∧
        st.skipeor.status ≠ sstaError := by
    intro i st later hst hlater
    have hi := (List.getElem?_eq_some_iff.mp hst).1
    have hpend : pends[i]? = some [] := by
      rw [List.getElem?_eq_getElem (h.pends_length ▸ hi)]
      exact congrArg some (List.flatten_eq_nil_iff.mp hpends _ (List.getElem_mem _))
    cases h.feeds i st [] later hst hpend hlater with
    | empty hr hstatus => exact ⟨hstatus, hr.skipeor_holds hstatus⟩
  have hall : ∀ st ∈ mg.readstreams, st.status = sstaEor ∧ st.skipeor.status ≠ sstaError := by
    intro st hst
    obtain ⟨i, hi⟩ := List.getElem?_of_mem hst
    have hlt := (List.getElem?_eq_some_iff.mp hi).1
    obtain ⟨hstatus, -, hnerror⟩ :=
      hskip i st _ hi (List.getElem?_eq_getElem (h.laters_length ▸ hlt))
    exact ⟨hstatus, hnerror⟩
  refine ⟨writestream, mg.readstreams.map XsStream.skipeor, hseteor, hwriting,
    by rw [List.length_map, h.laters_length], fun i st file hst hfile => ?_,
    nextrunLoop_eq (fun st hst => (hall st hst).1) fun st hst => (hall st hst).2⟩
  rw [List.getElem?_map, Option.map_eq_some_iff] at hst
  obtain ⟨st, hst, rfl⟩ := hst
  exact (hskip i st file hst hfile).2.1

/-- `merge_nextrun` when a run of every stream has been read. -/
theorem mergeNextrun_eq (mg : XsMerge) {readstreams : List XsStream}
    (hloop : XsMerge.nextrunLoop mg.readstreams = some readstreams)
    (hlength : laters.length = readstreams.length)
    (hholds : ∀ (i : ℕ) st file, readstreams[i]? = some st → laters[i]? = some file →
      Holds toRow blocksize st file) :
    ((∀ file ∈ laters, file = []) → mg.mergeNextrun =
      some (mgsEom, { mg with readstreams := readstreams, status := mgsEom })) ∧
    ((∃ file ∈ laters, file ≠ []) → mg.mergeNextrun =
      if laters.any List.isEmpty then
        some (mgsEos, { mg with readstreams := readstreams, status := mgsEos })
      else some (mgsOk, { mg with readstreams := readstreams })) := by
  rw [XsMerge.mergeNextrun, hloop]
  dsimp only [Option.bind_eq_bind, Option.bind_some]
  rw [countP_eos hlength hholds, ← hlength]
  constructor
  · intro hall
    rw [if_pos (List.countP_eq_length.mpr fun file hfile => by rw [hall file hfile]; rfl)]
  · rintro ⟨file, hfile, hne⟩
    rw [if_neg fun heq => hne (List.isEmpty_iff.mp (List.countP_eq_length.mp heq file hfile))]
    by_cases hany : laters.any List.isEmpty
    · rw [if_pos (List.countP_pos_iff.mpr (List.any_eq_true.mp hany)), if_pos hany]
    · rw [if_neg fun hpos => hany (List.any_eq_true.mpr (List.countP_pos_iff.mp hpos)),
        if_neg hany]

theorem ListsHeads.eq_nil (hl : ListsHeads toRow comp mg.tuplelist pends)
    (hpends : pends.flatten = []) : mg.tuplelist = [] := by
  have hperm := hl.perm
  rw [List.eq_replicate_of_mem (List.flatten_eq_nil_iff.mp hpends), headItems_replicate] at hperm
  exact hperm.eq_nil

theorem Merging.endsRun (hroom : room / blocksize < 2 ^ 32 - 1)
    (h : Merging toRow comp blocksize room mg₀ pends laters out rows) (hpends : pends.flatten = [])
    (hloop : XsMerge.mergeLoop comp (mg.stepsizerows + 1) mg 0 0 = some (mgsEor, mg₀))
    (hrunning : mg.status = mgsRun) :
    ∃ mg', mg'.tuplelist = [] ∧ laters.length = mg'.readstreams.length ∧
      (∀ (i : ℕ) st file, mg'.readstreams[i]? = some st → laters[i]? = some file →
        Holds toRow blocksize st file) ∧
      Writing toRow blocksize mg'.writestream (out ++ [rows]) [] ∧
      EndsRun comp mg mg' laters := by
  obtain ⟨writestream, readstreams, hseteor, hwriting, hlength, hholds, hnextrun⟩ :=
    h.nextrun hroom hpends
  have htuplelist := h.heads.eq_nil hpends
  obtain ⟨hlast, hgoes⟩ := mergeNextrun_eq
    { mg₀ with writestream := writestream, status := mgsEor } hnextrun hlength hholds
  have hstep : mg.step comp =
      (XsMerge.mergeNextrun { mg₀ with writestream := writestream, status := mgsEor }).bind fun r =>
        if r.1 = mgsEom then
          r.2.writestream.rewind.bind fun writestream =>
            if writestream.status = sstaError then none
            else some (.xsRcSucc, { r.2 with writestream := writestream })
        else some (.xsRcCont, r.2) := by
    rw [XsMerge.step, XsMerge.stepStart, hrunning]
    dsimp only [Option.bind_eq_bind, Option.bind_some]
    rw [hloop]
    dsimp only [Option.bind_some]
    rw [if_pos rfl, hseteor]
    rfl
  by_cases hall : ∀ file ∈ laters, file = []
  · obtain ⟨run, later, hruns⟩ := List.exists_cons_of_ne_nil
      (List.append_ne_nil_of_right_ne_nil out (List.cons_ne_nil rows []))
    rw [hruns] at hwriting
    obtain ⟨result, hrewind, -, -, hnerror, -⟩ := hwriting.rewind
    rw [← hruns] at hwriting
    rw [hlast hall, Option.bind_some, if_pos rfl] at hstep
    dsimp only at hstep
    rw [hrewind, Option.bind_some, if_neg hnerror] at hstep
    refine ⟨{ mg₀ with readstreams := readstreams, writestream := writestream, status := mgsEom },
      htuplelist, hlength, hholds, hwriting, fun _ => ⟨result, hrewind, 1, ?_⟩,
      fun ⟨file, hfile, hne⟩ => absurd (hall file hfile) hne⟩
    rw [XsMerge.steps, hstep]
    rfl
  · have hsome : ∃ file ∈ laters, file ≠ [] := by
      simpa only [not_forall, exists_prop] using hall
    rw [hgoes hsome] at hstep
    by_cases hany : laters.any List.isEmpty
    · rw [if_pos hany, Option.bind_some, if_neg (show ¬ mgsEos = mgsEom by decide)] at hstep
      exact ⟨{ mg₀ with readstreams := readstreams, writestream := writestream, status := mgsEos },
        htuplelist, hlength, hholds, hwriting, fun h => absurd h hall,
        fun _ => ⟨(if_pos hany).symm, fun res hres => hres.of_step hstep⟩⟩
    · rw [if_neg hany, Option.bind_some, if_neg (show ¬ mgsOk = mgsEom by decide)] at hstep
      exact ⟨{ mg₀ with readstreams := readstreams, writestream := writestream, status := mgsEor },
        htuplelist, hlength, hholds, hwriting, fun h => absurd h hall,
        fun _ => ⟨(if_neg hany).symm, fun res hres => hres.of_step hstep⟩⟩

theorem Merging.finish (hc : ComparesPreorder (rowComp toRow comp))
    (hroom : room / blocksize < 2 ^ 32 - 1)
    (h : Merging toRow comp blocksize room mg pends laters out rows) :
    ∃ run mg', run.Pairwise (ComparLe (rowComp toRow comp)) ∧
      run.Perm (rows ++ pends.flatten) ∧
      mg'.tuplelist = [] ∧ laters.length = mg'.readstreams.length ∧
      (∀ (i : ℕ) st file, mg'.readstreams[i]? = some st → laters[i]? = some file →
        Holds toRow blocksize st file) ∧
      Writing toRow blocksize mg'.writestream (out ++ [run]) [] ∧
      EndsRun comp mg mg' laters := by
  induction hn : pends.flatten.length using Nat.strong_induction_on generalizing mg pends rows with
  | _ n ih =>
      obtain ⟨rc, mg₁, pends₁, rows₁, hloop, h₁, hperm, ⟨rfl, hpends⟩ | ⟨rfl, hlength⟩⟩ :=
        h.mergeLoop hc hroom (mg.stepsizerows + 1) 0 0 (by omega)
          (Nat.zero_le _)
      · rw [hpends, List.append_nil] at hperm
        obtain ⟨mg', hmg'⟩ := h₁.endsRun hroom hpends hloop h.running
        exact ⟨rows₁, mg', h₁.merges.taken_sorted, hperm, hmg'⟩
      · obtain ⟨run, mg', hsorted, hperm', htuplelist, hlen, hholds, hwriting, hends⟩ :=
          ih _ (hn ▸ hlength) h₁ rfl
        refine ⟨run, mg', hsorted, hperm'.trans hperm, htuplelist, hlen, hholds, hwriting,
          hends.of_finishes fun res hres => hres.of_step ?_⟩
        rw [XsMerge.step, XsMerge.stepStart, h.running]
        dsimp only [Option.bind_eq_bind, Option.bind_some]
        rw [hloop]
        rfl

/-! ## A run of all streams -/

theorem heads_perm {α : Type*} {files : List (List (List α))} (hne : ∀ file ∈ files, file ≠ []) :
    ((files.map fun file => file.headD []).flatten ++
      (files.map List.tail).flatten.flatten).Perm files.flatten.flatten := by
  induction files with
  | nil => exact List.Perm.refl _
  | cons file files ih =>
      have hrest := ih fun file hfile => hne file (List.mem_cons_of_mem _ hfile)
      obtain ⟨run, later, rfl⟩ := List.exists_cons_of_ne_nil (hne file (List.mem_cons_self ..))
      simp only [List.map_cons, List.flatten_cons, List.headD_cons, List.tail_cons,
        List.flatten_append, List.append_assoc, List.cons_append]
      refine List.Perm.append_left run (List.Perm.trans ?_ (List.Perm.append_left _ hrest))
      exact List.perm_append_comm_assoc ..

theorem step_congr (hstart : mg.stepStart comp = mg'.stepStart comp) :
    mg.step comp = mg'.step comp := by
  rw [XsMerge.step, XsMerge.step, hstart]

theorem Resting.round (hc : ComparesPreorder (rowComp toRow comp))
    (hroom : room / blocksize < 2 ^ 32 - 1)
    (h : Resting toRow comp blocksize room mg₀ files out) (hne : ∀ file ∈ files, file ≠ [])
    (hfiles : files ≠ []) (hstart : Starts comp mg mg₀) :
    ∃ run mg', Resting toRow comp blocksize room mg' (files.map List.tail) (out ++ [run]) ∧
      (run ++ (files.map List.tail).flatten.flatten).Perm files.flatten.flatten ∧
      EndsRun comp mg mg' (files.map List.tail) := by
  have hperm := heads_perm hne
  have hsize := rowsSize_perm toRow hperm
  rw [rowsSize_append] at hsize
  have hreading : ∀ (i : ℕ) st run later, mg₀.readstreams[i]? = some st →
      (files.map fun file => file.headD [])[i]? = some run →
      (files.map List.tail)[i]? = some later → Reading toRow blocksize st run later := by
    intro i st run later hst hrun hlater
    rw [List.getElem?_map, Option.map_eq_some_iff] at hrun hlater
    obtain ⟨file, hfile, rfl⟩ := hrun
    obtain ⟨file', hfile', rfl⟩ := hlater
    cases hfile.symm.trans hfile'
    cases h.holds i st file hst hfile with
    | ended he => exact absurd rfl (hne [] (List.mem_of_getElem? hfile))
    | run hr hstatus => exact hr
  have hsorted : ∀ run ∈ files.map fun file => file.headD [],
      run.Pairwise (ComparLe (rowComp toRow comp)) := by
    intro run hrun
    obtain ⟨file, hfile, rfl⟩ := List.mem_map.mp hrun
    obtain ⟨first, later, rfl⟩ := List.exists_cons_of_ne_nil (hne file hfile)
    exact h.sorted _ hfile first (List.mem_cons_self ..)
  have hfits : rowsSize toRow out.flatten + (out.length + 1) +
      rowsSize toRow (files.map fun file => file.headD []).flatten ≤ room := by
    obtain ⟨file, hfile⟩ := List.exists_mem_of_ne_nil files hfiles
    have hfits := h.fits file hfile
    have hpos := List.length_pos_of_ne_nil (hne file hfile)
    omega
  obtain ⟨mg₁, hinit, h₁⟩ := initialize_merging hc h.tuplelist_eq
    (by rw [List.length_map, h.length_eq]) (by rw [List.length_map, h.length_eq]) hreading hsorted
    h.writing hfits
  obtain ⟨run, mg', hrunsorted, hrun, htuplelist, hlength, hholds, hwriting, hends⟩ :=
    h₁.finish hc hroom
  rw [List.nil_append] at hrun
  have hperm' := (hrun.append_right _).trans hperm
  have hsize' := rowsSize_perm toRow hperm'
  rw [rowsSize_append] at hsize'
  refine ⟨run, mg', ⟨htuplelist, hlength, hholds, ?_, ?_, hwriting, ?_⟩, hperm',
    hends.of_finishes fun res hres => hres.of_eq (step_congr ?_)⟩
  · intro file hmem run' hrun'
    obtain ⟨file, hfile, rfl⟩ := List.mem_map.mp hmem
    exact h.sorted file hfile run' (List.mem_of_mem_tail hrun')
  · intro run' hrun'
    rcases List.mem_append.mp hrun' with hrun' | hrun'
    · exact h.out_sorted run' hrun'
    · rw [List.mem_singleton.mp hrun']
      exact hrunsorted
  · intro file hmem
    obtain ⟨file, hfile, rfl⟩ := List.mem_map.mp hmem
    have hfits := h.fits file hfile
    have hpos := List.length_pos_of_ne_nil (hne file hfile)
    rw [List.flatten_append, rowsSize_append, List.flatten_singleton, List.length_append,
      List.length_singleton, List.length_tail]
    omega
  · rw [hstart, hinit]
    rfl

/-! ## A phase -/

theorem not_any_isEmpty (hne : ∀ file ∈ files, file ≠ []) : ¬ files.any List.isEmpty := by
  intro hany
  obtain ⟨file, hfile, hempty⟩ := List.any_eq_true.mp hany
  exact hne file hfile (List.isEmpty_iff.mp hempty)

theorem starts_eor (hstatus : mg.status = mgsEor) : Starts comp mg mg := by
  rw [Starts, XsMerge.stepStart, hstatus]
  cases mg.mgtlInitialize comp with
  | none => rfl
  | some mg => rfl

theorem starts_select (hstatus : mg.status = mgsInit ∨ mg.status = mgsEos)
    (hselect : mg.selectWritestream = some mg₀) : Starts comp mg mg₀ := by
  rw [Starts, XsMerge.stepStart]
  rcases hstatus with hstatus | hstatus
  · rw [hstatus]
    dsimp only [Option.bind_eq_bind, Option.bind_some]
    rw [hselect, Option.bind_some]
    cases mg₀.mgtlInitialize comp with
    | none => rfl
    | some mg => rfl
  · rw [hstatus]
    dsimp only [Option.bind_eq_bind, Option.bind_some]
    rw [hselect, Option.bind_some]
    cases mg₀.mgtlInitialize comp with
    | none => rfl
    | some mg => rfl

/-- The rounds of a phase, at the end of which a stream has no run left. -/
theorem Resting.rounds (hc : ComparesPreorder (rowComp toRow comp))
    (hroom : room / blocksize < 2 ^ 32 - 1) (j : ℕ)
    (h : Resting toRow comp blocksize room mg₀ files out) (hstart : Starts comp mg mg₀)
    (hall : ∀ file ∈ files, j < file.length) (hleast : ∃ file ∈ files, file.length = j + 1)
    (hmore : ∃ file ∈ files, j + 1 < file.length) :
    ∃ mg' new, new.length = j + 1 ∧
      Resting toRow comp blocksize room mg' (files.map (List.drop (j + 1))) (out ++ new) ∧
      mg'.status = mgsEos ∧
      (new.flatten ++ (files.map (List.drop (j + 1))).flatten.flatten).Perm
        files.flatten.flatten ∧
      ∀ res, Finishes comp mg' res → Finishes comp mg res := by
  induction j generalizing mg mg₀ files out with
  | zero =>
      obtain ⟨run, mg', h', hperm, hends⟩ := h.round hc hroom
        (fun file hfile => List.ne_nil_of_length_pos (hall file hfile))
        (List.ne_nil_of_mem hleast.choose_spec.1) hstart
      obtain ⟨least, hleast, hone⟩ := hleast
      obtain ⟨more, hmore, htwo⟩ := hmore
      obtain ⟨hstatus, hfinishes⟩ := hends.goes_on
        ⟨more.tail, List.mem_map_of_mem hmore, List.ne_nil_of_length_pos (by
          rw [List.length_tail]
          omega)⟩
      have hnil : least.tail = [] := List.eq_nil_of_length_eq_zero (by
        rw [List.length_tail]
        omega)
      rw [if_pos (List.any_eq_true.mpr ⟨least.tail, List.mem_map_of_mem hleast, by rw [hnil]; rfl⟩)]
        at hstatus
      have hdrop : files.map (List.drop (0 + 1)) = files.map List.tail :=
        List.map_congr_left fun file _ => List.drop_one
      rw [hdrop]
      refine ⟨mg', [run], rfl, h', hstatus, ?_, hfinishes⟩
      rw [List.flatten_singleton]
      exact hperm
  | succ j ih =>
      obtain ⟨run, mg', h', hperm, hends⟩ := h.round hc hroom
        (fun file hfile => List.ne_nil_of_length_pos (Nat.zero_lt_of_lt (hall file hfile)))
        (List.ne_nil_of_mem hleast.choose_spec.1) hstart
      obtain ⟨least, hleast, hone⟩ := hleast
      obtain ⟨more, hmore, htwo⟩ := hmore
      have hpos : ∀ file ∈ files.map List.tail, j < file.length := by
        intro file hmem
        obtain ⟨file, hfile, rfl⟩ := List.mem_map.mp hmem
        have hlt := hall file hfile
        rw [List.length_tail]
        omega
      have hne : ∀ file ∈ files.map List.tail, file ≠ [] := fun file hfile =>
        List.ne_nil_of_length_pos (Nat.zero_lt_of_lt (hpos file hfile))
      obtain ⟨hstatus, hfinishes⟩ := hends.goes_on
        ⟨more.tail, List.mem_map_of_mem hmore, hne _ (List.mem_map_of_mem hmore)⟩
      rw [if_neg (not_any_isEmpty hne)] at hstatus
      obtain ⟨mg₂, new, hnew, h₂, hstatus₂, hperm₂, hfinishes₂⟩ := ih h' (starts_eor hstatus) hpos
        ⟨least.tail, List.mem_map_of_mem hleast, by rw [List.length_tail]; omega⟩
        ⟨more.tail, List.mem_map_of_mem hmore, by rw [List.length_tail]; omega⟩
      have hdrop : (files.map List.tail).map (List.drop (j + 1)) =
          files.map (List.drop (j + 1 + 1)) := by
        rw [List.map_map]
        refine List.map_congr_left fun file _ => ?_
        rw [Function.comp_apply, List.drop_tail]
      rw [hdrop] at h₂ hperm₂
      refine ⟨mg₂, run :: new, by rw [List.length_cons, hnew], ?_, hstatus₂, ?_,
        fun res hres => hfinishes res (hfinishes₂ res hres)⟩
      · rw [List.append_assoc] at h₂
        exact h₂
      · rw [List.flatten_cons, List.append_assoc]
        exact (hperm₂.append_left run).trans hperm

theorem Resting.select {filesA filesB : List (List (List ρ))}
    (h : Resting toRow comp blocksize room mg (filesA ++ [] :: filesB) out)
    (hne : ∀ file ∈ filesA ++ filesB, file ≠ []) (hout : out ≠ []) (hstatus : mg.status = mgsEos) :
    ∃ mg₀, Starts comp mg mg₀ ∧
      Resting toRow comp blocksize room mg₀ (filesA ++ out :: filesB) [] := by
  have hfind : (mg.readstreams.findIdx? fun st => st.status = sstaEos) = some filesA.length := by
    have hmap := congrArg (List.findIdx? id) (map_eos h.length_eq h.holds)
    have hbefore : filesA.findIdx? List.isEmpty = none := by
      refine List.findIdx?_eq_none_iff.mpr fun file hfile => ?_
      rw [List.isEmpty_eq_false_iff]
      exact hne file (List.mem_append_left _ hfile)
    rw [List.findIdx?_map, List.findIdx?_map] at hmap
    refine hmap.trans ?_
    rw [Function.id_comp, List.findIdx?_append, hbefore, List.findIdx?_cons]
    simp only [List.isEmpty_nil, if_true, Option.map_some, Option.none_or, Nat.zero_add]
  have hmiddle : (filesA ++ [] :: filesB)[filesA.length]? = some [] := by
    rw [List.getElem?_append_right le_rfl, Nat.sub_self]
    rfl
  have hlt : filesA.length < mg.readstreams.length := by
    rw [← h.length_eq]
    exact (List.getElem?_eq_some_iff.mp hmiddle).1
  have hst : mg.readstreams[filesA.length]? = some mg.readstreams[filesA.length] :=
    List.getElem?_eq_getElem hlt
  have hsize : rowsSize toRow (filesA ++ out :: filesB).flatten.flatten =
      rowsSize toRow out.flatten + rowsSize toRow (filesA ++ [] :: filesB).flatten.flatten := by
    simp only [List.flatten_append, List.flatten_cons, List.nil_append, rowsSize_append]
    omega
  obtain ⟨st', hrewind, hholds, hnerror⟩ : ∃ st', mg.writestream.rewind = some st' ∧
      Holds toRow blocksize st' out ∧ st'.status ≠ sstaError := by
    obtain ⟨run, later, rfl⟩ := List.exists_cons_of_ne_nil hout
    obtain ⟨st', hrewind, hr, hneos, hnerror, -⟩ := h.writing.rewind
    exact ⟨st', hrewind, .run hr hneos, hnerror⟩
  have hselect : mg.selectWritestream = some { mg with
      readstreams := mg.readstreams.set filesA.length st'
      writestream := mg.readstreams[filesA.length].rewrite } := by
    rw [XsMerge.selectWritestream, hfind]
    dsimp only [Option.bind_eq_bind]
    rw [hst, hrewind, Option.bind_some, Option.bind_some, if_neg hnerror]
  cases h.holds _ _ _ hst hmiddle with
  | ended he =>
      refine ⟨_, starts_select (.inr hstatus) hselect, h.tuplelist_eq, ?_, ?_, ?_, nofun,
        he.rewrite, ?_⟩
      · rw [List.length_set, ← h.length_eq, List.length_append, List.length_append]
        rfl
      · intro i st file hst' hfile
        rw [List.getElem?_set] at hst'
        split at hst'
        · rename_i heq
          subst heq
          rw [List.getElem?_append_right le_rfl, Nat.sub_self] at hfile
          cases hst'
          cases hfile
          exact hholds
        · rename_i hne'
          refine h.holds i st file hst' ?_
          have hset : filesA ++ out :: filesB =
              (filesA ++ [] :: filesB).set filesA.length out := by
            rw [List.set_append_right _ _ le_rfl, Nat.sub_self]
            rfl
          rwa [hset, List.getElem?_set_ne hne'] at hfile
      · intro file hfile run hrun
        rcases List.mem_append.mp hfile with hfile | hfile
        · exact h.sorted file (List.mem_append_left _ hfile) run hrun
        · rcases List.mem_cons.mp hfile with rfl | hfile
          · exact h.out_sorted run hrun
          · exact h.sorted file (List.mem_append_right _ (List.mem_cons_of_mem _ hfile)) run hrun
      · intro file hfile
        rw [hsize, List.flatten_nil, rowsSize_nil, List.length_nil]
        have hout' := h.fits [] (List.mem_append_right _ (List.mem_cons_self ..))
        rcases List.mem_append.mp hfile with hfile | hfile
        · have hfits := h.fits file (List.mem_append_left _ hfile)
          omega
        · rcases List.mem_cons.mp hfile with rfl | hfile
          · rw [List.length_nil] at hout'
            omega
          · have hfits := h.fits file (List.mem_append_right _ (List.mem_cons_of_mem _ hfile))
            omega

/-! ## The whole merge -/

theorem starts_init (hlength : files.length = mg.readstreams.length)
    (hholds : ∀ (i : ℕ) st file, mg.readstreams[i]? = some st → files[i]? = some file →
      Holds toRow blocksize st file) (hne : ∀ file ∈ files, file ≠ [])
    (hstatus : mg.status = mgsInit) : Starts comp mg mg := by
  refine starts_select (.inl hstatus) ?_
  have hmap := congrArg (List.findIdx? id) (map_eos hlength hholds)
  rw [List.findIdx?_map, List.findIdx?_map, Function.id_comp] at hmap
  have hnone : files.findIdx? List.isEmpty = none := by
    refine List.findIdx?_eq_none_iff.mpr fun file hfile => ?_
    rw [List.isEmpty_eq_false_iff]
    exact hne file hfile
  have hfind : (mg.readstreams.findIdx? fun st => st.status = sstaEos) = none := hmap.trans hnone
  rw [XsMerge.selectWritestream, hfind]

theorem mergesToOne_ones (hc : ComparesPreorder (rowComp toRow comp))
    (hroom : room / blocksize < 2 ^ 32 - 1) {counts : List ℕ} (hones : ∀ n ∈ counts, n = 1) :
    MergesToOne toRow comp blocksize room counts := by
  intro mg mg₀ files h hstart hfiles hcounts
  have hone : ∀ file ∈ files, file.length = 1 := fun file hfile =>
    hones _ (hcounts ▸ List.mem_map_of_mem hfile)
  obtain ⟨run, mg', h', hperm, hends⟩ := h.round hc hroom
    (fun file hfile => List.ne_nil_of_length_eq_add_one (hone file hfile)) hfiles hstart
  have hlast : ∀ file ∈ files.map List.tail, file = [] := by
    intro file hmem
    obtain ⟨file, hfile, rfl⟩ := List.mem_map.mp hmem
    refine List.eq_nil_of_length_eq_zero ?_
    rw [List.length_tail, hone file hfile]
  obtain ⟨writestream, hrewind, hfinishes⟩ := hends.last hlast
  obtain ⟨st', hrewind', -, -, -, hfile⟩ := h'.writing.rewind
  cases hrewind.symm.trans hrewind'
  refine ⟨_, run, hfinishes, h'.out_sorted run (List.mem_singleton_self run), ?_, ?_⟩
  · rw [List.flatten_eq_nil_iff.mpr hlast, List.flatten_nil, List.append_nil] at hperm
    exact hperm
  · rw [hfile, h'.writing.data_eq, rowItems_nil, List.append_nil]
    rfl

/-- A phase with as many rounds as the stream with the least number of runs has. -/
theorem mergesToOne_up (hc : ComparesPreorder (rowComp toRow comp))
    (hroom : room / blocksize < 2 ^ 32 - 1) {a b : List ℕ} {m : ℕ} (hpos : 0 < m)
    (hmore : ∀ n ∈ a ++ b, m < n)
    (ih : MergesToOne toRow comp blocksize room (a.map (· - m) ++ m :: b.map (· - m))) :
    MergesToOne toRow comp blocksize room (a ++ m :: b) := by
  intro mg mg₀ files h hstart hfiles hcounts
  obtain ⟨filesA, rest, rfl, rfl, hrest⟩ := List.map_eq_append_iff.mp hcounts
  obtain ⟨file, filesB, rfl, rfl, rfl⟩ := List.map_eq_cons_iff.mp hrest
  by_cases hnil : filesA ++ filesB = []
  · -- the numbers of runs of one stream do not change
    obtain ⟨rfl, rfl⟩ := List.append_eq_nil_iff.mp hnil
    exact ih mg mg₀ [file] h hstart hfiles rfl
  obtain ⟨other, hmem⟩ := List.exists_mem_of_ne_nil _ hnil
  have hlonger : ∀ f ∈ filesA ++ filesB, file.length < f.length := by
    intro f hf
    refine hmore _ ?_
    rw [← List.map_append]
    exact List.mem_map_of_mem hf
  have hmiddle : ∀ f, f ∈ filesA ++ file :: filesB ↔ f = file ∨ f ∈ filesA ++ filesB := by
    intro f
    rw [List.mem_append, List.mem_cons, List.mem_append]
    tauto
  obtain ⟨j, hj⟩ : ∃ j, file.length = j + 1 := Nat.exists_eq_succ_of_ne_zero hpos.ne'
  obtain ⟨mg', new, hnew, h', hstatus, hperm, hfinishes⟩ := h.rounds hc hroom j hstart
    (fun f hf => by
      rcases (hmiddle f).mp hf with rfl | hf
      · omega
      · have hlt := hlonger f hf
        omega)
    ⟨file, (hmiddle file).mpr (.inl rfl), hj⟩
    ⟨other, (hmiddle other).mpr (.inr hmem), by rw [← hj]; exact hlonger other hmem⟩
  rw [← hj] at hnew h' hperm
  rw [List.map_append, List.map_cons, List.drop_length] at h' hperm
  have hdropped : ∀ f ∈ filesA.map (List.drop file.length) ++ filesB.map (List.drop file.length),
      f ≠ [] := by
    intro f hdrop
    rw [← List.map_append] at hdrop
    obtain ⟨f, hf, rfl⟩ := List.mem_map.mp hdrop
    have hlt := hlonger f hf
    refine List.ne_nil_of_length_pos ?_
    rw [List.length_drop]
    omega
  obtain ⟨mg₁, hstart₁, h₁⟩ := h'.select hdropped
    (List.ne_nil_of_length_pos (by rw [List.nil_append, hnew]; exact hpos)) hstatus
  rw [List.nil_append] at h₁
  obtain ⟨res, run, hres, hsorted, hrun, hdata⟩ := ih mg' mg₁ _ h₁ hstart₁
    (List.append_ne_nil_of_right_ne_nil _ (List.cons_ne_nil _ _)) (by
      rw [List.map_append, List.map_cons, hnew, List.map_map, List.map_map, List.map_map,
        List.map_map]
      simp only [Function.comp_def, List.length_drop])
  refine ⟨res, run, hfinishes res hres, hsorted, hrun.trans (List.Perm.trans ?_ hperm), hdata⟩
  simp only [List.flatten_append, List.flatten_cons, List.nil_append]
  exact List.perm_append_comm_assoc ..

theorem mergesToOne (hc : ComparesPreorder (rowComp toRow comp))
    (hroom : room / blocksize < 2 ^ 32 - 1) {counts : List ℕ}
    (hperfect : Perfect (↑counts : Multiset ℕ)) :
    MergesToOne toRow comp blocksize room counts :=
  Perfect.list_induction (fun _ hones => mergesToOne_ones hc hroom hones)
    (fun _ _ _ hpos hmore ih => mergesToOne_up hc hroom hpos hmore ih) counts hperfect

/-! ## The beginning of the merge -/

def fileRuns (nemptyruns : ℕ) (runs : List (List ρ)) : List (List ρ) :=
  runs.take 1 ++ (List.replicate nemptyruns [] ++ runs.drop 1)

theorem fileRuns_flatten (nemptyruns : ℕ) (runs : List (List ρ)) :
    (fileRuns nemptyruns runs).flatten = runs.flatten := by
  have hempty : (List.replicate nemptyruns ([] : List ρ)).flatten = [] :=
    List.flatten_eq_nil_iff.mpr fun _ hl => List.eq_of_mem_replicate hl
  rw [fileRuns, List.flatten_append, List.flatten_append, hempty, List.nil_append,
    ← List.flatten_append, List.take_append_drop]

theorem fileRuns_length (nemptyruns : ℕ) (runs : List (List ρ)) :
    (fileRuns nemptyruns runs).length = nemptyruns + runs.length := by
  rw [fileRuns, List.length_append, List.length_append, List.length_take, List.length_drop,
    List.length_replicate]
  omega

theorem mem_fileRuns {nemptyruns : ℕ} {runs : List (List ρ)} {run : List ρ}
    (h : run ∈ fileRuns nemptyruns runs) : run = [] ∨ run ∈ runs := by
  rcases List.mem_append.mp h with h | h
  · exact .inr (List.mem_of_mem_take h)
  · rcases List.mem_append.mp h with h | h
    · exact .inl (List.eq_of_mem_replicate h)
    · exact .inr (List.mem_of_mem_drop h)

theorem Distributed.rewind {n : ℕ} {runs : List (List ρ)}
    (h : Distributed toRow blocksize st n runs) :
    ∃ st', st.rewind = some st' ∧ Holds toRow blocksize st' (fileRuns n runs) ∧
      st'.status ≠ sstaError := by
  obtain ⟨rows, later, rfl⟩ := List.exists_cons_of_ne_nil h.ne_nil
  obtain ⟨st', hrewind, hr, hneos, hnerror, -⟩ :=
    reading_rewind h.nocur h.blocksize_eq h.data_eq h.nemptyruns_eq
  exact ⟨st', hrewind, .run hr hneos, hnerror⟩

theorem rewindAll_holds {dist : List (ℕ × List (List ρ))}
    (h : List.Forall₂ (fun st d => Distributed toRow blocksize st d.1 d.2) streams dist) :
    ∃ streams', XsMerge.rewindAll streams = some streams' ∧
      List.Forall₂ (Holds toRow blocksize) streams' (dist.map fun d => fileRuns d.1 d.2) := by
  induction h with
  | nil => exact ⟨[], rfl, .nil⟩
  | cons hd _ ih =>
      obtain ⟨st', hrewind, hholds, hnerror⟩ := hd.rewind
      obtain ⟨streams', hall, hholds'⟩ := ih
      refine ⟨st' :: streams', ?_, .cons hholds hholds'⟩
      rw [XsMerge.rewindAll, hrewind]
      dsimp only [Option.bind_eq_bind, Option.bind_some]
      rw [if_neg hnerror, hall]
      rfl

theorem forall₂_getElem? {α β : Type*} {R : α → β → Prop} {l : List α} {l' : List β} {a : α}
    {b : β} (h : List.Forall₂ R l l') (ha : l[i]? = some a) (hb : l'[i]? = some b) : R a b := by
  induction h generalizing i with
  | nil => cases ha
  | cons hab _ ih =>
      cases i with
      | zero =>
          cases ha
          cases hb
          exact hab
      | succ i => exact ih ha hb

/-- Streams with perfect numbers of sorted runs are merged into one sorted run of all rows. -/
theorem xsMerge_sorts {dist : List (ℕ × List (List ρ))} {writestream : XsStream}
    (stepsizebytes stepsizerows : ℕ) (hc : ComparesPreorder (rowComp toRow comp))
    (hroom : room / blocksize < 2 ^ 32 - 1)
    (hdist : List.Forall₂ (fun st d => Distributed toRow blocksize st d.1 d.2) streams dist)
    (hne : dist ≠ []) (hwriting : Writing toRow blocksize writestream [] ([] : List ρ))
    (hsorted : ∀ d ∈ dist, ∀ run ∈ d.2, run.Pairwise (ComparLe (rowComp toRow comp)))
    (hperfect : Perfect (↑(dist.map fun d => d.1 + d.2.length) : Multiset ℕ))
    (hfits : ∀ d ∈ dist, rowsSize toRow (dist.map fun d => d.2.flatten).flatten +
      (d.1 + d.2.length) ≤ room) :
    ∃ mg res run, XsMerge.init streams writestream stepsizebytes stepsizerows = some mg ∧
      Finishes comp mg res ∧ run.Pairwise (ComparLe (rowComp toRow comp)) ∧
      run.Perm (dist.map fun d => d.2.flatten).flatten ∧
      res.writestream.tf.file.data = itemBytes (runItems toRow [run]) := by
  obtain ⟨streams', hrewind, hholds⟩ := rewindAll_holds hdist
  have hflatten : (dist.map fun d => fileRuns d.1 d.2).flatten.flatten =
      (dist.map fun d => d.2.flatten).flatten := by
    rw [List.flatten_flatten, List.map_map]
    exact congrArg List.flatten (List.map_congr_left fun d _ => fileRuns_flatten d.1 d.2)
  have hfull : ∀ d ∈ dist, d.2 ≠ [] := by
    intro d hd
    obtain ⟨i, hi⟩ := List.getElem?_of_mem hd
    have hlt := (List.getElem?_eq_some_iff.mp hi).1
    rw [← hdist.length_eq] at hlt
    exact (forall₂_getElem? hdist (List.getElem?_eq_getElem hlt) hi).ne_nil
  have hfiles : ∀ file ∈ dist.map fun d => fileRuns d.1 d.2, file ≠ [] := by
    intro file hfile
    obtain ⟨d, hd, rfl⟩ := List.mem_map.mp hfile
    have hpos := List.length_pos_of_ne_nil (hfull d hd)
    refine List.ne_nil_of_length_pos ?_
    rw [fileRuns_length]
    omega
  have hresting : Resting toRow comp blocksize room
      ⟨streams', writestream, [], mgsInit, stepsizebytes, stepsizerows⟩
      (dist.map fun d => fileRuns d.1 d.2) [] := by
    refine ⟨rfl, hholds.length_eq.symm,
      fun i st file hst hfile => forall₂_getElem? hholds hst hfile,
      fun file hfile run hrun => ?_, nofun, hwriting, fun file hfile => ?_⟩
    · obtain ⟨d, hd, rfl⟩ := List.mem_map.mp hfile
      rcases mem_fileRuns hrun with rfl | hrun
      · exact List.Pairwise.nil
      · exact hsorted d hd run hrun
    · obtain ⟨d, hd, rfl⟩ := List.mem_map.mp hfile
      have hd' := hfits d hd
      rw [hflatten, fileRuns_length, List.flatten_nil, rowsSize_nil, List.length_nil]
      omega
  obtain ⟨res, run, hfinishes, hrun, hperm, hdata⟩ := mergesToOne hc hroom
    hperfect _ _ _ hresting
    (starts_init hresting.length_eq hresting.holds hfiles rfl)
    (List.map_eq_nil_iff.not.mpr hne) (by
      rw [List.map_map]
      exact List.map_congr_left fun d _ => fileRuns_length d.1 d.2)
  refine ⟨_, res, run, ?_, hfinishes, hrun, hflatten ▸ hperm, hdata⟩
  rw [XsMerge.init, hrewind]
  rfl

end

end SolidDB
