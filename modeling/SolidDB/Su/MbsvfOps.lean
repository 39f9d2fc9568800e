import SolidDB.Su.MbsvfConcat

/-!
# Writing, adding files and shrinking

A file is added behind all blocks, also where its smaller blocks change the addresses. Shrinking
succeeds above the start of the last part.
-/

namespace SolidDB

open BlockArray SuSvfil SuMbsvfil

variable {β : Type*} {mb mb' : SuMbsvfil β} {p q : Sbsvf β} {pre post ps : List (Sbsvf β)}
  {arr arr' : List (Vfil β)} {nr min min' start a i d k blksz : ℕ}

/-! ## Writing -/

/-- Files with the same names and ranges have as many blocks, under the same names. -/
theorem shapes_congr (h : Fitted nr start arr) (h' : Fitted nr start arr')
    (hnames : arr'.map Vfil.vfFname = arr.map Vfil.vfFname)
    (hranges : ranges arr' = ranges arr) :
    (svfFiles blksz arr').map (fun f => (f.fname, f.blocksize, f.pages.length)) =
      (svfFiles blksz arr).map fun f => (f.fname, f.blocksize, f.pages.length) := by
  induction arr generalizing arr' start with
  | nil =>
      obtain rfl : arr' = [] := List.map_eq_nil_iff.mp hnames
      rfl
  | cons v arr ih =>
      cases arr' with
      | nil => exact absurd hnames (by simp)
      | cons w arr' =>
          rw [List.map_cons, List.map_cons, List.cons.injEq] at hnames
          rw [ranges, ranges, List.map_cons, List.map_cons, List.cons.injEq, Prod.mk.injEq]
            at hranges
          obtain ⟨hfname, hnames⟩ := hnames
          obtain ⟨⟨-, hmax⟩, hranges⟩ := hranges
          have hsz : w.vfSzblks = v.vfSzblks := by
            rw [h'.1.szblks, h.1.szblks, hmax]
          have hrest := ih h.2 (hmax ▸ h'.2) hnames hranges
          rcases Nat.eq_zero_or_pos v.vfSzblks with hv | hv
          · rw [svfFiles_cons_of_eq_zero hv, svfFiles_cons_of_eq_zero (hsz.trans hv), hrest]
          · rw [svfFiles_cons_of_pos hv, svfFiles_cons_of_pos (hsz ▸ hv), List.map_cons,
              List.map_cons, hrest, hfname, h.1.length_blocks, h'.1.length_blocks, hsz]

theorem placesFrom_congr {F G : List (SvfFile β)}
    (h : F.map (fun f => (f.fname, f.blocksize, f.pages.length)) =
      G.map fun f => (f.fname, f.blocksize, f.pages.length)) :
    placesFrom k F = placesFrom k G := by
  induction F generalizing G k with
  | nil =>
      obtain rfl : G = [] := List.map_eq_nil_iff.mp h.symm
      rfl
  | cons f F ih =>
      cases G with
      | nil => exact absurd h (by simp)
      | cons g G =>
          rw [List.map_cons, List.map_cons, List.cons.injEq, Prod.mk.injEq, Prod.mk.injEq] at h
          obtain ⟨⟨hfname, hblocksize, hlen⟩, hrest⟩ := h
          rw [placesFrom, placesFrom, ih hrest, filePlaces, filePlaces, hfname, hblocksize, hlen]

theorem overwrite_singleton {l : List β} {x : β} (h : i < l.length) :
    overwrite l i [x] = l.set i x := by
  rw [overwrite, List.set_eq_take_append_cons_drop, if_pos h, List.length_singleton,
    List.append_assoc, List.singleton_append]

/-- A part in the place of another one that is the last one or has as many blocks. -/
theorem SuMbsvfil.IsConcat.replace (h : mb.IsConcat) (harr : mb.mfSbsvfArray = pre ++ p :: post)
    (hmin : mb'.mfMinblocksize = mb.mfMinblocksize)
    (hlast : mb'.mfLastblocksize = mb.mfLastblocksize)
    (harr' : mb'.mfSbsvfArray = pre ++ q :: post)
    (hq : ∀ start, p.IsPart mb.mfMinblocksize start → q.IsPart mb.mfMinblocksize start)
    (hblocksize : q.blocksize = p.blocksize)
    (hsize : post = [] ∨ q.sfSvfil.svfNrblks = p.sfSvfil.svfNrblks)
    (hspace : partsWidth mb.mfMinblocksize (pre ++ q :: post) ≤ suDaddrMax) : mb'.IsConcat := by
  have hparts := h.parts
  rw [harr, partsFrom_append] at hparts
  refine ⟨?_, fun _ => ?_, fun hnil => ?_, ?_, ?_⟩
  · rw [hmin, harr', partsFrom_append]
    refine ⟨hparts.1, hq _ hparts.2.1, ?_⟩
    rcases hsize with rfl | hsize
    · trivial
    · rw [Sbsvf.width, hblocksize, hsize]
      exact hparts.2.2
  · rw [hmin]
    exact h.power (by rw [harr]; simp)
  · rw [harr'] at hnil
    exact absurd hnil (by simp)
  · rw [hlast, h.last, harr, harr', List.map_append, List.map_cons, ← hblocksize,
      List.map_append, List.map_cons]
  · rw [hmin, harr']
    exact hspace

/-- A write at the address of a block is to this block. -/
theorem SuMbsvfil.IsConcat.write [Zero β] (h : mb.IsConcat) (hi : i < (pagesOf mb.files).length)
    (page : β) (outcomes : List (Option ℕ)) :
    ∃ mb', mb.write (mb.address i) [page] outcomes = some (mb', .success) ∧ mb'.IsConcat ∧
      blockPlaces mb'.files = blockPlaces mb.files ∧
      pagesOf mb'.files = (pagesOf mb.files).set i page := by
  obtain ⟨pre, p, post, d, hb⟩ := h.blockIn hi
  obtain ⟨svf', hwrite, hw⟩ : ∃ svf', writelocalLoop d [page].length d [page] p.sfSvfil =
      some (svf', .success) ∧
        SuSvfil.Written p.sfSvfil svf' (overwrite p.sfSvfil.blocks d [page]) :=
    writelocalLoop_written hb.part.isFlat hb.part.cipher hb.low (Nat.le_refl _)
  have hlocal : p.sfSvfil.writelocal d [page] outcomes = some (svf', .success) := by
    have hlow := hb.low
    unfold writelocal
    dsimp only
    rw [if_neg (by rw [List.length_singleton]; omega)]
    dsimp only
    rw [if_pos rfl, hwrite]
  generalize hq : ({ p with sfSvfil := svf' } : Sbsvf β) = q
  have hqsvf : q.sfSvfil = svf' := by rw [← hq]
  have hqstart : q.sfStartpos = p.sfStartpos := by rw [← hq]
  have hqblksz : q.blocksize = p.blocksize := by rw [Sbsvf.blocksize, hqsvf, hw.blksz]; rfl
  have hrun : mb.write (mb.address i) [page] outcomes =
      some ({ mb with mfSbsvfArray := pre ++ q :: post }, .success) := by
    have hset : mb.mfSbsvfArray.set pre.length q = pre ++ q :: post := by
      rw [hb.arr, set_middle]
    simp only [SuMbsvfil.write, hb.partAt, hb.partDaddr, hlocal, Option.map_some, hq, hset]
  refine ⟨_, hrun, ?_, ?_, ?_⟩
  · have hspace := h.space
    have hqwidth : q.width mb.mfMinblocksize = p.width mb.mfMinblocksize := by
      rw [Sbsvf.width, Sbsvf.width, hqblksz, hqsvf, hw.size]
    rw [hb.arr, partsWidth_append, partsWidth_cons, ← hqwidth, ← partsWidth_cons,
      ← partsWidth_append] at hspace
    refine SuMbsvfil.IsConcat.replace h hb.arr rfl rfl rfl (fun start hp => ?_) hqblksz
      (.inr (by rw [hqsvf, hw.size])) hspace
    refine ⟨hqsvf ▸ hw.isFlat, hqsvf ▸ hw.used hp.used, ?_, ?_, ?_, hqstart.trans hp.startpos,
      ?_, ?_⟩
    · rw [hqsvf, hw.cipher, hp.cipher]
    · rw [hqblksz]
      exact hp.power
    · rw [hqblksz]
      exact hp.dvd
    · rw [hqsvf, hw.size]
      exact hp.pos
    · rw [hqsvf]
      exact hasRoom_of_ranges hp.hasRoom hw.ranges
  · have hshapes : q.files.map (fun f => (f.fname, f.blocksize, f.pages.length)) =
        p.files.map fun f => (f.fname, f.blocksize, f.pages.length) := by
      have hfitted := hw.isFlat.fitted
      rw [hw.size] at hfitted
      rw [Sbsvf.files, Sbsvf.files, hqblksz, hqsvf]
      exact shapes_congr hb.part.isFlat.fitted hfitted hw.names hw.ranges
    refine placesFrom_congr ?_
    rw [SuMbsvfil.files, SuMbsvfil.files, hb.arr, partsFiles_append, partsFiles_append,
      partsFiles_cons, partsFiles_cons, List.map_append, List.map_append, List.map_append,
      List.map_append, hshapes]
  · have hqpages : pagesOf q.files = p.sfSvfil.blocks.set d page := by
      rw [Sbsvf.files, pagesOf_svfFiles, hqsvf]
      refine hw.blocks.trans (overwrite_singleton ?_)
      rw [hb.part.isFlat.length_blocks]
      exact hb.low
    have hppages : pagesOf p.files = p.sfSvfil.blocks := pagesOf_svfFiles
    have hd : d < p.sfSvfil.blocks.length := by
      rw [hb.part.isFlat.length_blocks]
      exact hb.low
    rw [SuMbsvfil.files, SuMbsvfil.files, hb.arr, partsFiles_append, partsFiles_append,
      partsFiles_cons, partsFiles_cons, pagesOf_append, pagesOf_append, pagesOf_append,
      pagesOf_append, hqpages, hppages, hb.index, List.set_append_right _ _ (by omega),
      Nat.add_sub_cancel_left, List.set_append_left _ _ hd]

/-! ## Shrinking -/

def SuMbsvfil.BehindLast (mb : SuMbsvfil β) (newsize : ℕ) : Prop :=
  ∀ p ∈ mb.mfSbsvfArray.getLast?, p.sfStartpos < newsize

variable [Zero β]

/-- Shrinking to the end of a block succeeds above the start of the last part, and the blocks
before this end stay. Otherwise it leaves all as it is. -/
theorem SuMbsvfil.IsConcat.decreasesize (h : mb.IsConcat)
    (hi : i ≤ (pagesOf mb.files).length) :
    ((mb.decreasesize (mb.address i)).2 = .success ↔ mb.BehindLast (mb.address i)) ∧
      (mb.decreasesize (mb.address i)).1.IsConcat ∧
      (mb.decreasesize (mb.address i)).1.files =
        if (mb.decreasesize (mb.address i)).2 = .success then cutFiles i mb.files
        else mb.files := by
  rcases eq_nil_or_append mb.mfSbsvfArray with harr | ⟨ps, p, harr⟩
  · -- there are no blocks
    have hfiles : mb.files = [] := by rw [SuMbsvfil.files, harr, partsFiles_nil]
    have heq : mb.decreasesize (mb.address i) = (mb, .success) := by
      have hback : ([] : List (Sbsvf β)).reverse = mb.mfSbsvfArray := harr.symm
      rw [SuMbsvfil.decreasesize, harr, List.reverse_nil, decreaseParts]
      simp only [hback]
    rw [heq]
    refine ⟨⟨fun _ p hp => ?_, fun _ => rfl⟩, h, ?_⟩
    · rw [harr] at hp
      cases hp
    · rw [if_pos rfl, hfiles, cutFiles]
  · have hparts := h.parts
    rw [harr, partsFrom_append, Nat.zero_add] at hparts
    obtain ⟨hps, hp, -⟩ := hparts
    have hstart := hp.startpos
    have hbehind : mb.BehindLast (mb.address i) ↔ p.sfStartpos < mb.address i := by
      unfold SuMbsvfil.BehindLast
      rw [harr, List.getLast?_concat]
      simp
    have hrev : mb.mfSbsvfArray.reverse = p :: ps.reverse := by
      rw [harr, List.reverse_append, List.reverse_singleton, List.singleton_append]
    by_cases hlow : mb.address i ≤ p.sfStartpos
    · -- the last part would have to be emptied
      have heq : mb.decreasesize (mb.address i) = (mb, .fileWriteFailure) := by
        unfold SuMbsvfil.decreasesize
        rw [hrev, decreaseParts, if_pos hlow]
        have hback : (p :: ps.reverse).reverse = mb.mfSbsvfArray := by
          rw [← hrev, List.reverse_reverse]
        simp only [SuSvfil.decreasesize, if_true, ne_eq, reduceCtorEq, not_false_eq_true, hback]
      rw [heq]
      refine ⟨⟨fun hrc => SvfRet.noConfusion hrc, fun hlt => ?_⟩, h, ?_⟩
      · have hlt' := hbehind.mp hlt
        omega
      · rw [if_neg (by simp)]
    · -- the blocks of the last part up to the end
      have hbefore : (pagesOf (partsFiles ps)).length < i := by
        by_contra hle
        have hmono : mb.address i ≤ mb.address (pagesOf (partsFiles ps)).length :=
          addressOf_le (by omega)
        have hend := address_part harr hps hp (Nat.zero_le _)
        rw [Nat.add_zero, Nat.zero_mul, Nat.add_zero] at hend
        omega
      obtain ⟨d, rfl⟩ := Nat.exists_eq_add_of_le (Nat.le_of_lt hbefore)
      have hd : d ≤ p.sfSvfil.svfNrblks := by
        rw [SuMbsvfil.files, harr, partsFiles_append, partsFiles_cons, partsFiles_nil,
          List.append_nil, pagesOf_append, List.length_append, hp.pagesOf_files] at hi
        omega
      have haddr := address_part harr hps hp hd
      have hpos : d ≠ 0 := by omega
      have htmp : (mb.address ((pagesOf (partsFiles ps)).length + d) - p.sfStartpos) /
          (p.blocksize / mb.mfMinblocksize) = d := by
        rw [haddr, hstart, Nat.add_sub_cancel_left, Nat.mul_div_cancel _ hp.coeff_pos]
      obtain ⟨hrc, hshrunk⟩ := decreasesize_shrunk hp.isFlat hpos hd
      generalize hq : ({ p with sfSvfil := (p.sfSvfil.decreasesize d).1 } : Sbsvf β) = q
      have hqsvf : q.sfSvfil = (p.sfSvfil.decreasesize d).1 := by rw [← hq]
      rw [← hqsvf] at hshrunk
      have hqstart : q.sfStartpos = p.sfStartpos := by rw [← hq]
      have hqblksz : q.blocksize = p.blocksize := hshrunk.blksz
      have heq : mb.decreasesize (mb.address ((pagesOf (partsFiles ps)).length + d)) =
          ({ mb with mfSbsvfArray := ps ++ [q] }, .success) := by
        unfold SuMbsvfil.decreasesize
        rw [hrev, decreaseParts, if_neg hlow, htmp]
        simp only [hrc, hq, List.reverse_cons, List.reverse_reverse]
      rw [heq]
      refine ⟨⟨fun _ => hbehind.mpr (by omega), fun _ => rfl⟩, ?_, ?_⟩
      · have hspace := h.space
        have hqwidth : q.width mb.mfMinblocksize ≤ p.width mb.mfMinblocksize := by
          rw [Sbsvf.width, Sbsvf.width, hqblksz, hshrunk.size]
          exact Nat.mul_le_mul_right _ hd
        rw [harr, partsWidth_append, partsWidth_cons] at hspace
        refine SuMbsvfil.IsConcat.replace h harr rfl rfl rfl (fun start hp => ?_) hqblksz (.inl rfl)
          (by rw [partsWidth_append, partsWidth_cons]; omega)
        refine ⟨hshrunk.isFlat, hshrunk.used hp.used, hshrunk.cipher.trans hp.cipher, ?_, ?_,
          hqstart.trans hp.startpos, ?_, hasRoom_of_ranges hp.hasRoom hshrunk.ranges⟩
        · rw [hqblksz]
          exact hp.power
        · rw [hqblksz]
          exact hp.dvd
        · rw [hshrunk.size]
          exact Nat.pos_of_ne_zero hpos
      · have hcut : q.files = cutFiles d p.files := by
          have hfitted := hshrunk.isFlat.fitted
          rw [hshrunk.size] at hfitted
          rw [Sbsvf.files, Sbsvf.files, hqblksz]
          exact svfFiles_cut hp.isFlat.fitted hfitted hd hshrunk.names hshrunk.ranges
            hshrunk.blocks
        have hsub : (pagesOf (partsFiles ps)).length + d - (pagesOf (partsFiles ps)).length = d :=
          Nat.add_sub_cancel_left _ _
        rw [if_pos rfl, SuMbsvfil.files, SuMbsvfil.files, harr, partsFiles_append,
          partsFiles_append, partsFiles_cons, partsFiles_cons, partsFiles_nil, List.append_nil,
          List.append_nil, hcut, cutFiles_append hbefore, hsub]

end SolidDB
