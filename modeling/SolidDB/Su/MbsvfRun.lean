import SolidDB.Su.MbsvfAddfile

/-!
# Runs of a split virtual file of several block sizes

After every run the addresses run through the blocks of the files in order. Shrinking to the end
of a block succeeds above the start of the last part.
-/

namespace SolidDB

open SuMbsvfil

/-- An operation: a file with its pages and its block size, or the number of blocks before the
new end. -/
inductive MbOp (β : Type*) where
  | addfile (fname : String) (pages : List β) (blocksize : ℕ)
  | decreasesize (i : ℕ)

variable {β : Type*} {mb mb' : SuMbsvfil β} {ops : List (MbOp β)} {F : List (SvfFile β)}
  {min start : ℕ}

namespace SuMbsvfil

def step [Zero β] (mb : SuMbsvfil β) : MbOp β → SuMbsvfil β × SvfRet
  | .addfile fname pages blocksize =>
      mb.addfile fname pages (pages.length * blocksize) blocksize
  | .decreasesize i => mb.decreasesize (mb.address i)

/-- A file is not empty and of blocks of a power of 2, and the addresses stay within their range.
The new end is the end of a block. -/
def Fits (mb : SuMbsvfil β) : MbOp β → Prop
  | .addfile _ pages blocksize =>
      pages ≠ [] ∧ (∃ e, blocksize = 2 ^ e) ∧
        partsWidth (mb.minWith blocksize) mb.mfSbsvfArray +
          pages.length * (blocksize / mb.minWith blocksize) ≤ suDaddrMax
  | .decreasesize i => i ≤ (pagesOf mb.files).length

def RunFits [Zero β] : List (MbOp β) → SuMbsvfil β → Prop
  | [], _ => True
  | op :: ops, mb => mb.Fits op ∧ RunFits ops (mb.step op).1

def filesStep (F : List (SvfFile β)) : MbOp β → SvfRet → List (SvfFile β)
  | .addfile fname pages blocksize, rc =>
      if rc = .success then F ++ [⟨fname, blocksize, pages⟩] else F
  | .decreasesize i, rc => if rc = .success then cutFiles i F else F

/-- Stepping over the block at each address visits the blocks of the files in order, and at the
address of a block each function is about this block. -/
structure Shows [Zero β] (mb : SuMbsvfil β) (F : List (SvfFile β)) : Prop where
  files : mb.files = F
  next : ∀ i < (pagesOf F).length, mb.address i < mb.address (i + 1) ∧
    mb.address i + mb.getblocksizeAtAddr (mb.address i) / mb.mfMinblocksize = mb.address (i + 1)
  size : mb.getsize = mb.address (pagesOf F).length
  visit : mb.visit mb.getsize 0 = (List.range (pagesOf F).length).map mb.address
  asks : ∀ i < (pagesOf F).length, ∃ pl page, Asks mb i pl page
  write : ∀ i < (pagesOf F).length, ∀ page outcomes, ∃ mb',
    mb.write (mb.address i) [page] outcomes = some (mb', .success) ∧
      blockPlaces mb'.files = blockPlaces F ∧ pagesOf mb'.files = (pagesOf F).set i page

/-- When an operation succeeds, and which blocks and which size shrinking leaves. -/
def Answers (mb mb' : SuMbsvfil β) : MbOp β → SvfRet → Prop
  | .addfile fname pages blocksize, rc =>
      fname ∉ mb.names → mb.HasSpace blocksize pages.length → rc = .success
  | .decreasesize i, rc =>
      (rc = .success ↔ mb.BehindLast (mb.address i)) ∧
        (rc = .success → mb'.getsize = mb.address i ∧
          blockPlaces mb'.files = (blockPlaces mb.files).take i ∧
          pagesOf mb'.files = (pagesOf mb.files).take i)

/-- The blocks shown in every state of a run, with the answers of its operations. -/
def Behaves [Zero β] : List (MbOp β) → SuMbsvfil β → List (SvfFile β) → Prop
  | [], mb, F => Shows mb F
  | op :: ops, mb, F =>
      Shows mb F ∧ Answers mb (mb.step op).1 op (mb.step op).2 ∧
        Behaves ops (mb.step op).1 (filesStep F op (mb.step op).2)

end SuMbsvfil

/-! ## The state -/

theorem PartsFrom.length_le {ps : List (Sbsvf β)} (h : PartsFrom min start ps) :
    (pagesOf (partsFiles ps)).length ≤ partsWidth min ps := by
  induction ps generalizing start with
  | nil => exact Nat.le_refl 0
  | cons p ps ih =>
      rw [partsFiles_cons, pagesOf_append, List.length_append, h.1.pagesOf_files, partsWidth_cons]
      exact Nat.add_le_add (Nat.le_mul_of_pos_right _ h.1.coeff_pos) (ih h.2)

theorem SuMbsvfil.IsConcat.length_le_getsize (h : mb.IsConcat) :
    (pagesOf mb.files).length ≤ mb.getsize := by
  rw [SuMbsvfil.getsize, endpos_getLast h.parts h.space]
  exact h.parts.length_le

theorem SuMbsvfil.IsConcat.shows [Zero β] (h : mb.IsConcat) : Shows mb mb.files where
  files := rfl
  next i hi := by
    obtain ⟨pl, page, hasks⟩ := h.asks hi
    obtain ⟨pre, p, post, d, hb⟩ := h.blockIn hi
    have hnext : mb.address (i + 1) = mb.address i + pl.blocksize / mb.mfMinblocksize :=
      addressOf_succ hasks.place
    have hcoeff := hb.part.coeff_pos
    have hblocksize := hasks.blocksize
    simp only [SuMbsvfil.getblocksizeAtAddr, hb.partAt] at hblocksize
    rw [hasks.blocksize, hnext, ← hblocksize]
    exact ⟨Nat.lt_add_of_pos_right hcoeff, rfl⟩
  size := h.getsize
  visit := by
    have hrounds := h.length_le_getsize
    have hall : mb.visit mb.getsize (mb.address 0) =
        (List.range' 0 ((pagesOf mb.files).length - 0)).map mb.address :=
      h.visit (by omega) (Nat.zero_le _)
    rw [Nat.sub_zero, ← List.range_eq_range'] at hall
    exact hall
  asks i hi := h.asks hi
  write i hi page outcomes := by
    obtain ⟨mb', hwrite, -, hplaces, hpages⟩ := h.write hi page outcomes
    exact ⟨mb', hwrite, hplaces, hpages⟩

variable [Zero β]

theorem step_isConcat (h : mb.IsConcat) (op : MbOp β) (hfits : mb.Fits op) :
    (mb.step op).1.IsConcat ∧ Answers mb (mb.step op).1 op (mb.step op).2 ∧
      (mb.step op).1.files = filesStep mb.files op (mb.step op).2 := by
  cases op with
  | addfile fname pages blocksize =>
      obtain ⟨hpages, hpower, hspace⟩ := hfits
      have hadds : AddsFile mb (mb.addfile fname pages (pages.length * blocksize) blocksize).1
          (mb.addfile fname pages (pages.length * blocksize) blocksize).2
          ⟨fname, blocksize, pages⟩ := h.addfile hpages hpower hspace
      exact ⟨hadds.isConcat, hadds.success, hadds.files⟩
  | decreasesize i =>
      obtain ⟨hrc, h', hfiles⟩ := h.decreasesize hfits
      refine ⟨h', ⟨hrc, fun hsuccess => ?_⟩, hfiles⟩
      replace hfiles := hfiles.trans (if_pos hsuccess)
      have hplaces : blockPlaces (mb.decreasesize (mb.address i)).1.files =
          (blockPlaces mb.files).take i := by
        rw [hfiles, blockPlaces, placesFrom_cutFiles, blockPlaces]
      have hpages : pagesOf (mb.decreasesize (mb.address i)).1.files =
          (pagesOf mb.files).take i := by
        rw [hfiles, pagesOf_cutFiles]
      refine ⟨?_, hplaces, hpages⟩
      have hlen : (pagesOf (mb.decreasesize (mb.address i)).1.files).length = i := by
        rw [hpages, List.length_take, Nat.min_eq_left hfits]
      rw [step, h'.getsize, hlen, SuMbsvfil.address, hplaces, addressOf, List.take_take,
        Nat.min_self]
      rfl

/-! ## The runs -/

theorem run_behaves (h : mb.IsConcat) (hfits : RunFits ops mb) : Behaves ops mb mb.files := by
  induction ops generalizing mb with
  | nil => exact h.shows
  | cons op ops ih =>
      obtain ⟨h', hanswers, hfiles⟩ := step_isConcat h op hfits.1
      have hrest := ih h' hfits.2
      rw [hfiles] at hrest
      exact ⟨h.shows, hanswers, hrest⟩

namespace SuMbsvfil

/-- In every run from an empty file the blocks are those of the files in order, and shrinking to
the end of a block above the start of the last part leaves the blocks before this end. -/
theorem suMbsvf_concatenation (ops : List (MbOp β)) (hfits : RunFits ops init) :
    Behaves ops init ([] : List (SvfFile β)) :=
  run_behaves init_isConcat hfits

/-- Two files of different block sizes, the second one cut after its first block. -/
theorem suMbsvf_concatenation_twoParts :
    Behaves [.addfile "a" [1, 2] 2, .addfile "b" [3, 4, 5] 1, .decreasesize 3,
      .addfile "c" [6] 2] init ([] : List (SvfFile ℕ)) := by
  refine suMbsvf_concatenation _ ⟨⟨by decide, ⟨1, rfl⟩, by decide⟩,
    ⟨by decide, ⟨0, rfl⟩, by decide +kernel⟩, ?_,
    ⟨by decide, ⟨1, rfl⟩, by decide +kernel⟩, trivial⟩
  have hlen : (pagesOf ((init.step (.addfile "a" [1, 2] 2)).1.step
      (.addfile "b" [3, 4, 5] 1)).1.files).length = 5 := by decide +kernel
  exact Nat.le_trans (by decide) hlen.ge

/-- The end of the first of two parts is the end of a block, but shrinking to it fails. -/
theorem not_suMbsvf_concatenation :
    let mb : SuMbsvfil ℕ :=
      ((init.addfile "a" [1, 2] 4 2).1.addfile "b" [3, 4, 5] 3 1).1
    mb.address 2 = 4 ∧ (mb.decreasesize 4).2 = .fileWriteFailure ∧
      (mb.decreasesize 4).1.getsize = 7 := by
  decide +kernel

end SuMbsvfil

end SolidDB
