import SolidDB.Su.MbsvfOps

/-!
# Adding a file

A file with smaller blocks than all before changes the unit of the addresses, and a file with
another block size than the last one starts a new part.
-/

namespace SolidDB

open BlockArray SuSvfil SuMbsvfil

variable {β : Type*} {mb mb' : SuMbsvfil β} {p q : Sbsvf β} {ps : List (Sbsvf β)}
  {min min' start blocksize : ℕ} {pages : List β} {fname : String}

/-! ## Smaller blocks -/

theorem div_mul_div_of_dvd {b : ℕ} (hmin : min ∣ b) (hmin' : min' ∣ min) (hpos : 0 < min) :
    b / min * (min / min') = b / min' := by
  obtain ⟨x, rfl⟩ := hmin
  obtain ⟨y, rfl⟩ := hmin'
  have hpos' : 0 < min' := Nat.pos_of_mul_pos_right hpos
  rw [Nat.mul_div_cancel_left _ hpos, Nat.mul_div_cancel_left _ hpos', Nat.mul_assoc,
    Nat.mul_div_cancel_left _ hpos', Nat.mul_comm]

theorem PartsFrom.patchStartpos (h : PartsFrom min start ps) (hdvd : min' ∣ min)
    (hpos : 0 < min) (hbound : start * (min / min') + partsWidth min' ps < 2 ^ 32) :
    PartsFrom min' (start * (min / min')) (SuMbsvfil.patchStartpos ps (min / min')) := by
  induction ps generalizing start with
  | nil => trivial
  | cons p ps ih =>
      rw [partsWidth_cons] at hbound
      have hwidth : p.width min * (min / min') = p.width min' := by
        rw [Sbsvf.width, Sbsvf.width, Nat.mul_assoc, div_mul_div_of_dvd h.1.dvd hdvd hpos]
      have hrest := ih h.2 (by rw [Nat.add_mul, hwidth]; omega)
      rw [Nat.add_mul, hwidth] at hrest
      refine ⟨⟨h.1.isFlat, h.1.used, h.1.cipher, h.1.power, hdvd.trans h.1.dvd, ?_, h.1.pos,
        h.1.hasRoom⟩, hrest⟩
      dsimp only
      rw [h.1.startpos, Nat.mod_eq_of_lt (by omega)]

theorem partsFiles_patchStartpos (ps : List (Sbsvf β)) (coeff : ℕ) :
    partsFiles (SuMbsvfil.patchStartpos ps coeff) = partsFiles ps := by
  induction ps with
  | nil => rfl
  | cons p ps ih =>
      rw [SuMbsvfil.patchStartpos, List.map_cons, partsFiles_cons, ← SuMbsvfil.patchStartpos, ih,
        partsFiles_cons]
      rfl

theorem partsWidth_patchStartpos (ps : List (Sbsvf β)) (coeff : ℕ) :
    partsWidth min (SuMbsvfil.patchStartpos ps coeff) = partsWidth min ps := by
  induction ps with
  | nil => rfl
  | cons p ps ih =>
      rw [SuMbsvfil.patchStartpos, List.map_cons, partsWidth_cons, ← SuMbsvfil.patchStartpos, ih,
        partsWidth_cons]
      rfl

def SuMbsvfil.minWith (mb : SuMbsvfil β) (blocksize : ℕ) : ℕ :=
  if mb.mfMinblocksize = 0 then blocksize
  else if blocksize < mb.mfMinblocksize then blocksize
  else mb.mfMinblocksize

/-- The parts in units of the smallest block size with the one of a new file. -/
def SuMbsvfil.partsWith (mb : SuMbsvfil β) (blocksize : ℕ) : List (Sbsvf β) :=
  if mb.mfMinblocksize ≠ 0 ∧ blocksize < mb.mfMinblocksize then
    SuMbsvfil.patchStartpos mb.mfSbsvfArray (mb.mfMinblocksize / blocksize)
  else mb.mfSbsvfArray

theorem SuMbsvfil.IsConcat.minWith (h : mb.IsConcat) (hpower : ∃ e, blocksize = 2 ^ e) :
    (∃ e, mb.minWith blocksize = 2 ^ e) ∧ mb.minWith blocksize ∣ blocksize := by
  unfold SuMbsvfil.minWith
  split
  · exact ⟨hpower, dvd_refl _⟩
  · rename_i hmin
    have hpower' := h.power fun hnil => hmin (h.fresh hnil)
    split
    · exact ⟨hpower, dvd_refl _⟩
    · rename_i hlt
      refine ⟨hpower', ?_⟩
      obtain ⟨e, he⟩ := hpower
      obtain ⟨e', he'⟩ := hpower'
      rw [he, he'] at hlt ⊢
      exact Nat.pow_dvd_pow 2 ((Nat.pow_le_pow_iff_right (by decide)).mp (Nat.le_of_not_lt hlt))

/-- The parts before a file is added, in units of the smallest block size with it. -/
theorem SuMbsvfil.IsConcat.partsWith (h : mb.IsConcat) (hpower : ∃ e, blocksize = 2 ^ e)
    (hspace : partsWidth (mb.minWith blocksize) mb.mfSbsvfArray ≤ suDaddrMax) :
    PartsFrom (mb.minWith blocksize) 0 (mb.partsWith blocksize) ∧
      partsFiles (mb.partsWith blocksize) = mb.files ∧
      partsWidth (mb.minWith blocksize) (mb.partsWith blocksize) =
        partsWidth (mb.minWith blocksize) mb.mfSbsvfArray := by
  by_cases hmin : mb.mfMinblocksize = 0
  · have hnil : mb.mfSbsvfArray = [] := by
      by_contra hne
      obtain ⟨e, he⟩ := h.power hne
      have hpos := Nat.two_pow_pos e
      omega
    have hparts : mb.partsWith blocksize = [] := by
      rw [SuMbsvfil.partsWith, if_neg (fun hlt => hlt.1 hmin), hnil]
    rw [hparts, SuMbsvfil.files, hnil]
    exact ⟨trivial, rfl, rfl⟩
  · have hpos := Nat.pos_of_ne_zero hmin
    by_cases hlt : blocksize < mb.mfMinblocksize
    · have hminwith : mb.minWith blocksize = blocksize := by
        rw [SuMbsvfil.minWith, if_neg hmin, if_pos hlt]
      have hparts : mb.partsWith blocksize =
          SuMbsvfil.patchStartpos mb.mfSbsvfArray (mb.mfMinblocksize / blocksize) := by
        rw [SuMbsvfil.partsWith, if_pos ⟨hmin, hlt⟩]
      obtain ⟨e, he⟩ := hpower
      obtain ⟨e', he'⟩ := h.power fun hnil => hmin (h.fresh hnil)
      have hdvd : blocksize ∣ mb.mfMinblocksize := by
        rw [he, he'] at hlt ⊢
        exact Nat.pow_dvd_pow 2 ((Nat.pow_lt_pow_iff_right (by decide)).mp hlt).le
      rw [hminwith] at hspace ⊢
      unfold suDaddrMax at hspace
      have hpatched := h.parts.patchStartpos hdvd hpos (by
        rw [Nat.zero_mul]
        omega)
      rw [Nat.zero_mul] at hpatched
      rw [hparts]
      exact ⟨hpatched, partsFiles_patchStartpos _ _, partsWidth_patchStartpos _ _⟩
    · have hminwith : mb.minWith blocksize = mb.mfMinblocksize := by
        rw [SuMbsvfil.minWith, if_neg hmin, if_neg hlt]
      have hparts : mb.partsWith blocksize = mb.mfSbsvfArray := by
        rw [SuMbsvfil.partsWith, if_neg (fun hboth => hlt hboth.2)]
      rw [hminwith, hparts]
      exact ⟨h.parts, rfl, rfl⟩

/-! ## Adding -/

/-- The names of the physical files, with those that have no blocks. -/
def SuMbsvfil.names (mb : SuMbsvfil β) : List String :=
  mb.mfSbsvfArray.flatMap fun p => p.sfSvfil.svfVfpArr.map Vfil.vfFname

def SuMbsvfil.HasSpace (mb : SuMbsvfil β) (blocksize nrblks : ℕ) : Prop :=
  ∀ p ∈ mb.mfSbsvfArray.getLast?, p.blocksize = blocksize →
    svfTotal p.sfSvfil.svfVfpArr + nrblks ≤ suDaddrMax

structure AddsFile (mb mb' : SuMbsvfil β) (rc : SvfRet) (file : SvfFile β) : Prop where
  isConcat : mb'.IsConcat
  success : file.fname ∉ mb.names → mb.HasSpace file.blocksize file.pages.length → rc = .success
  files : mb'.files = if rc = .success then mb.files ++ [file] else mb.files

def SuMbsvfil.sizedWith (mb : SuMbsvfil β) (blocksize : ℕ) (arr : List (Sbsvf β)) : SuMbsvfil β :=
  { mfMinblocksize := mb.minWith blocksize
    mfMaxblocksize := max mb.mfMaxblocksize blocksize
    mfLastblocksize := blocksize
    mfSbsvfArray := arr }

theorem addfile_of_ne (hlast : mb.mfLastblocksize ≠ blocksize) (maxsize : ℕ) :
    mb.addfile fname pages maxsize blocksize =
      (mb.sizedWith blocksize (mb.partsWith blocksize ++
        [⟨((mb.partsWith blocksize).getLast?.map fun p =>
          p.endpos (mb.minWith blocksize)).getD 0,
          ((SuSvfil.init blocksize).addfile fname pages maxsize).1⟩]),
        ((SuSvfil.init blocksize).addfile fname pages maxsize).2) :=
  if_pos hlast

theorem addfile_getLast (hlast : mb.mfLastblocksize = blocksize) (maxsize : ℕ) :
    mb.addfile fname pages maxsize blocksize =
      match (mb.partsWith blocksize).getLast? with
      | none => (mb.sizedWith blocksize (mb.partsWith blocksize), .fileWriteFailure)
      | some p => (mb.sizedWith blocksize ((mb.partsWith blocksize).dropLast ++ [{ p with
          sfSvfil := (p.sfSvfil.addfile fname pages maxsize).1 }]),
          (p.sfSvfil.addfile fname pages maxsize).2) :=
  if_neg (not_not_intro hlast)

theorem addfile_of_eq (hlast : mb.mfLastblocksize = blocksize)
    (harr : mb.partsWith blocksize = ps ++ [p]) (maxsize : ℕ) :
    mb.addfile fname pages maxsize blocksize =
      (mb.sizedWith blocksize (ps ++ [{ p with
        sfSvfil := (p.sfSvfil.addfile fname pages maxsize).1 }]),
        (p.sfSvfil.addfile fname pages maxsize).2) := by
  rw [addfile_getLast hlast, harr, List.getLast?_concat, List.dropLast_concat]

/-- A file with another block size than the last one starts a new part. -/
theorem addfile_newPart (h : mb.IsConcat) (hpages : pages ≠ []) (hpower : ∃ e, blocksize = 2 ^ e)
    (hspace : partsWidth (mb.minWith blocksize) mb.mfSbsvfArray +
      pages.length * (blocksize / mb.minWith blocksize) ≤ suDaddrMax)
    (hlast : mb.mfLastblocksize ≠ blocksize) :
    AddsFile mb (mb.addfile fname pages (pages.length * blocksize) blocksize).1
      (mb.addfile fname pages (pages.length * blocksize) blocksize).2
      ⟨fname, blocksize, pages⟩ := by
  obtain ⟨hminpower, hdvd⟩ := h.minWith hpower
  obtain ⟨hparts, hfiles, hwidthWith⟩ := h.partsWith hpower (by omega)
  have hblocksize : 0 < blocksize := by
    obtain ⟨e, he⟩ := hpower
    rw [he]
    exact Nat.two_pow_pos e
  have hcoeff : 0 < blocksize / mb.minWith blocksize :=
    Nat.div_pos (Nat.le_of_dvd hblocksize hdvd) (Nat.pos_of_dvd_of_pos hdvd hblocksize)
  have hlen : pages.length * 1 ≤ pages.length * (blocksize / mb.minWith blocksize) :=
    Nat.mul_le_mul_left _ hcoeff
  have hinit : ((SuSvfil.init blocksize).addfile fname pages (pages.length * blocksize)).2 =
        .success ∧
      FileAdded (SuSvfil.init blocksize)
        ((SuSvfil.init blocksize).addfile fname pages (pages.length * blocksize)).1 fname pages :=
    addfile_fileAdded (init_isFlat blocksize) List.not_mem_nil hpages hblocksize
      (show 0 + pages.length ≤ suDaddrMax by omega)
  obtain ⟨hrc, hadded⟩ := hinit
  generalize hsvf : ((SuSvfil.init blocksize).addfile fname pages (pages.length * blocksize)).1 =
    svf at hadded
  generalize hq : (⟨partsWidth (mb.minWith blocksize) (mb.partsWith blocksize), svf⟩ : Sbsvf β) = q
  have hqsvf : q.sfSvfil = svf := by rw [← hq]
  have hqblksz : q.blocksize = blocksize := by
    rw [Sbsvf.blocksize, hqsvf]
    exact hadded.blksz
  have hqsize : svf.svfNrblks = pages.length := hadded.size.trans (Nat.zero_add _)
  have hqwidth : q.width (mb.minWith blocksize) =
      pages.length * (blocksize / mb.minWith blocksize) := by
    rw [Sbsvf.width, hqblksz, hqsvf, hqsize]
  have hqpart : q.IsPart (mb.minWith blocksize)
      (0 + partsWidth (mb.minWith blocksize) (mb.partsWith blocksize)) := by
    rw [Nat.zero_add]
    refine ⟨hqsvf ▸ hadded.isFlat, hqsvf ▸ hadded.used (init_used blocksize), ?_, ?_, ?_, ?_,
      ?_, ?_⟩
    · rw [hqsvf, hadded.cipher]
      rfl
    · rw [hqblksz]
      exact hpower
    · rw [hqblksz]
      exact hdvd
    · rw [← hq]
    · rw [hqsvf, hqsize]
      exact List.length_pos_iff.mpr hpages
    · rw [hqsvf]
      exact hadded.hasRoom fun v hv => absurd hv List.not_mem_nil
  have heq : mb.addfile fname pages (pages.length * blocksize) blocksize =
      (mb.sizedWith blocksize (mb.partsWith blocksize ++ [q]), .success) := by
    have hstart := endpos_getLast hparts (show partsWidth (mb.minWith blocksize)
      (mb.partsWith blocksize) ≤ suDaddrMax by omega)
    rw [addfile_of_ne hlast, hstart, hsvf, hrc, hq]
  rw [heq]
  refine ⟨⟨partsFrom_append.mpr ⟨hparts, hqpart, trivial⟩, fun _ => hminpower, ?_, ?_, ?_⟩,
    fun _ _ => rfl, ?_⟩
  · intro hnil
    exact absurd hnil (by simp [SuMbsvfil.sizedWith])
  · dsimp only [SuMbsvfil.sizedWith]
    rw [List.map_append, List.map_singleton, List.getLast?_concat, hqblksz]
    rfl
  · dsimp only [SuMbsvfil.sizedWith]
    rw [partsWidth_append, partsWidth_cons, partsWidth_nil, hqwidth, hwidthWith]
    exact hspace
  · rw [if_pos rfl, SuMbsvfil.files]
    dsimp only [SuMbsvfil.sizedWith]
    rw [partsFiles_append, hfiles, partsFiles_cons, partsFiles_nil, List.append_nil, Sbsvf.files,
      hqblksz, hqsvf, hadded.files]
    rfl

theorem addfile_lastPart (h : mb.IsConcat) (hpages : pages ≠ [])
    (hpower : ∃ e, blocksize = 2 ^ e)
    (hspace : partsWidth (mb.minWith blocksize) mb.mfSbsvfArray +
      pages.length * (blocksize / mb.minWith blocksize) ≤ suDaddrMax)
    (hlast : mb.mfLastblocksize = blocksize) :
    AddsFile mb (mb.addfile fname pages (pages.length * blocksize) blocksize).1
      (mb.addfile fname pages (pages.length * blocksize) blocksize).2
      ⟨fname, blocksize, pages⟩ := by
  have hblocksize : 0 < blocksize := by
    obtain ⟨e, he⟩ := hpower
    rw [he]
    exact Nat.two_pow_pos e
  rcases eq_nil_or_append mb.mfSbsvfArray with hnil | ⟨ps, p, harr⟩
  · have hzero := h.last
    rw [hlast, hnil] at hzero
    exact absurd hzero hblocksize.ne'
  · have hparts := h.parts
    rw [harr, partsFrom_append, Nat.zero_add] at hparts
    obtain ⟨hps, hp, -⟩ := hparts
    have hpblksz : p.blocksize = blocksize := by
      rw [← hlast, h.last, harr, List.map_append, List.map_singleton, List.getLast?_concat]
      rfl
    -- the smallest block size does not change
    have hle : mb.mfMinblocksize ≤ blocksize := by
      rw [← hpblksz]
      exact Nat.le_of_dvd hp.blocksize_pos hp.dvd
    have hminpos : mb.mfMinblocksize ≠ 0 := by
      obtain ⟨e, he⟩ := h.power (by rw [harr]; simp)
      rw [he]
      exact (Nat.two_pow_pos e).ne'
    have hminwith : mb.minWith blocksize = mb.mfMinblocksize := by
      rw [SuMbsvfil.minWith, if_neg hminpos, if_neg (by omega)]
    have hwith : mb.partsWith blocksize = ps ++ [p] := by
      rw [SuMbsvfil.partsWith, if_neg (by omega), harr]
    rw [hminwith, harr, partsWidth_append, partsWidth_cons, partsWidth_nil] at hspace
    have hsame : ∀ rc, rc ≠ SvfRet.success →
        (mb.HasSpace blocksize pages.length → fname ∈ mb.names) →
        AddsFile mb (mb.sizedWith blocksize (ps ++ [p])) rc ⟨fname, blocksize, pages⟩ := by
      intro rc hrc hname
      have hall := h.space
      rw [harr] at hall
      refine ⟨SuMbsvfil.IsConcat.replace h harr hminwith hlast.symm rfl (fun _ hpart => hpart) rfl
        (.inl rfl) hall, fun hnew hroom => absurd (hname hroom) hnew, ?_⟩
      rw [if_neg hrc, SuMbsvfil.files, SuMbsvfil.files, harr]
      rfl
    by_cases hdup : fname ∈ p.sfSvfil.svfVfpArr.map Vfil.vfFname
    · -- the part has a file with the name
      have hsvf : p.sfSvfil.addfile fname pages (pages.length * blocksize) =
          (p.sfSvfil, .duplicateFilename) := if_pos hdup
      rw [addfile_of_eq hlast hwith, hsvf]
      refine hsame _ SvfRet.noConfusion fun _ => ?_
      rw [SuMbsvfil.names, harr, List.flatMap_append]
      exact List.mem_append_right _ (by rw [List.flatMap_singleton]; exact hdup)
    by_cases hfull : suDaddrMax < svfTotal p.sfSvfil.svfVfpArr + pages.length
    · -- its ranges leave no room for the blocks
      have hexceeded : (suDaddrMax - svfTotal p.sfSvfil.svfVfpArr) * p.sfSvfil.svfBlksz <
          pages.length * blocksize := by
        rw [show p.sfSvfil.svfBlksz = blocksize from hpblksz]
        have hlen := List.length_pos_iff.mpr hpages
        exact Nat.mul_lt_mul_of_pos_right (by omega) hblocksize
      have hsvf : p.sfSvfil.addfile fname pages (pages.length * blocksize) =
          (p.sfSvfil, .fileAddressSpaceExceeded) := by
        unfold SuSvfil.addfile
        rw [if_neg hdup, getLast_enddaddr hp.isFlat.fitted]
        dsimp only
        rw [if_pos hexceeded]
      rw [addfile_of_eq hlast hwith, hsvf]
      refine hsame _ SvfRet.noConfusion fun hroom => ?_
      have htotal := hroom p (by rw [harr, List.getLast?_concat]; rfl) hpblksz
      omega
    · have hblksz : p.sfSvfil.svfBlksz = blocksize := hpblksz
      have hsvf : (p.sfSvfil.addfile fname pages (pages.length * blocksize)).2 = .success ∧
          FileAdded p.sfSvfil (p.sfSvfil.addfile fname pages (pages.length * blocksize)).1 fname
            pages := by
        rw [← hblksz]
        exact addfile_fileAdded hp.isFlat hdup hpages (by omega) (by omega)
      obtain ⟨hrc, hadded⟩ := hsvf
      generalize hq : ({ p with sfSvfil :=
        (p.sfSvfil.addfile fname pages (pages.length * blocksize)).1 } : Sbsvf β) = q
      have hqsvf : q.sfSvfil = (p.sfSvfil.addfile fname pages (pages.length * blocksize)).1 := by
        rw [← hq]
      rw [← hqsvf] at hadded
      have hqstart : q.sfStartpos = p.sfStartpos := by rw [← hq]
      have hqblksz : q.blocksize = p.blocksize := hadded.blksz
      have heq : mb.addfile fname pages (pages.length * blocksize) blocksize =
          (mb.sizedWith blocksize (ps ++ [q]), .success) := by
        rw [addfile_of_eq hlast hwith, hrc, hq]
      rw [heq]
      refine ⟨SuMbsvfil.IsConcat.replace h harr hminwith hlast.symm rfl
        (fun start hpart => ?_) hqblksz
        (.inl rfl) ?_, fun _ _ => rfl, ?_⟩
      · refine ⟨hadded.isFlat, hadded.used hpart.used, hadded.cipher.trans hpart.cipher, ?_, ?_,
          hqstart.trans hpart.startpos, ?_, hadded.hasRoom hpart.hasRoom⟩
        · rw [hqblksz]
          exact hpart.power
        · rw [hqblksz]
          exact hpart.dvd
        · rw [hadded.size]
          exact Nat.add_pos_left hpart.pos _
      · have hqwidth : q.width mb.mfMinblocksize =
            p.width mb.mfMinblocksize + pages.length * (blocksize / mb.mfMinblocksize) := by
          rw [Sbsvf.width, Sbsvf.width, hqblksz, hpblksz, hadded.size, Nat.add_mul]
        rw [partsWidth_append, partsWidth_cons, partsWidth_nil]
        omega
      · have hqfiles : q.files = p.files ++ [⟨fname, blocksize, pages⟩] := by
          rw [Sbsvf.files, hadded.files, hqblksz, hpblksz, Sbsvf.files, hpblksz]
        have hfiles : (mb.sizedWith blocksize (ps ++ [q])).files =
            partsFiles (ps ++ [q]) := rfl
        rw [if_pos rfl, hfiles, SuMbsvfil.files, harr, partsFiles_append, partsFiles_append,
          partsFiles_cons, partsFiles_cons, partsFiles_nil, List.append_nil, List.append_nil,
          hqfiles, List.append_assoc]

theorem SuMbsvfil.IsConcat.addfile (h : mb.IsConcat) (hpages : pages ≠ [])
    (hpower : ∃ e, blocksize = 2 ^ e)
    (hspace : partsWidth (mb.minWith blocksize) mb.mfSbsvfArray +
      pages.length * (blocksize / mb.minWith blocksize) ≤ suDaddrMax) :
    AddsFile mb (mb.addfile fname pages (pages.length * blocksize) blocksize).1
      (mb.addfile fname pages (pages.length * blocksize) blocksize).2
      ⟨fname, blocksize, pages⟩ := by
  by_cases hlast : mb.mfLastblocksize = blocksize
  · exact addfile_lastPart h hpages hpower hspace hlast
  · exact addfile_newPart h hpages hpower hspace hlast

end SolidDB
