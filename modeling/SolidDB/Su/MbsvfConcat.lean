import SolidDB.Su.MbsvfParts

/-!
# The concatenation of the parts

The addresses of a split virtual file of several block sizes run through the blocks of all its
files in order, and each operation at such an address is about that block.
-/

namespace SolidDB

open BlockArray SuSvfil

variable {β : Type*} {mb mb' : SuMbsvfil β} {p : Sbsvf β} {pre post : List (Sbsvf β)}
  {min start a i d k rounds : ℕ}

/-- The parts stand one behind the other, and the last block size is that of the last part. -/
structure SuMbsvfil.IsConcat (mb : SuMbsvfil β) : Prop where
  parts : PartsFrom mb.mfMinblocksize 0 mb.mfSbsvfArray
  power : mb.mfSbsvfArray ≠ [] → ∃ e, mb.mfMinblocksize = 2 ^ e
  fresh : mb.mfSbsvfArray = [] → mb.mfMinblocksize = 0
  last : mb.mfLastblocksize = (mb.mfSbsvfArray.map Sbsvf.blocksize).getLast?.getD 0
  space : partsWidth mb.mfMinblocksize mb.mfSbsvfArray ≤ suDaddrMax

namespace SuMbsvfil

def files (mb : SuMbsvfil β) : List (SvfFile β) := partsFiles mb.mfSbsvfArray

def address (mb : SuMbsvfil β) (i : ℕ) : ℕ :=
  addressOf mb.mfMinblocksize (blockPlaces mb.files) i

/-- The addresses that are visited by stepping over the block at each address. -/
def visit (mb : SuMbsvfil β) : ℕ → ℕ → List ℕ
  | 0, _ => []
  | rounds + 1, daddr =>
      if mb.getsize ≤ daddr then []
      else
        daddr :: visit mb rounds
          (daddr + mb.getblocksizeAtAddr daddr / mb.mfMinblocksize)

theorem init_isConcat : (init : SuMbsvfil β).IsConcat :=
  ⟨trivial, fun h => absurd rfl h, fun _ => rfl, rfl, Nat.zero_le _⟩

end SuMbsvfil

open SuMbsvfil

/-! ## Finding the part of a block -/

theorem PartsFrom.start_le {ps : List (Sbsvf β)} (h : PartsFrom min start ps) (hp : p ∈ ps) :
    start ≤ p.sfStartpos := by
  induction ps generalizing start with
  | nil => cases hp
  | cons q ps ih =>
      rcases List.mem_cons.mp hp with rfl | hmem
      · exact Nat.le_of_eq h.1.startpos.symm
      · exact (Nat.le_add_right _ _).trans (ih h.2 hmem)

theorem findPart_append {qs rs : List (Sbsvf β)} (h : ∀ q ∈ qs, a < q.sfStartpos) :
    findPart a (qs ++ rs) = findPart a rs := by
  induction qs with
  | nil => rfl
  | cons q qs ih =>
      have hq := h q List.mem_cons_self
      rw [List.cons_append, findPart, if_neg (by omega),
        ih fun q' hq' => h q' (List.mem_cons_of_mem q hq')]

theorem partAt_eq (harr : mb.mfSbsvfArray = pre ++ p :: post) (hlow : p.sfStartpos ≤ a)
    (hhigh : ∀ q ∈ post, a < q.sfStartpos) : mb.partAt a = some (pre.length, p) := by
  have hfind : findPart a mb.mfSbsvfArray.reverse = some pre.length := by
    rw [harr, List.reverse_append, List.reverse_cons, List.append_assoc,
      findPart_append fun q hq => hhigh q (List.mem_reverse.mp hq), List.singleton_append,
      findPart, if_pos hlow, List.length_reverse]
  rw [SuMbsvfil.partAt, hfind]
  simp only [harr, getElem?_middle, Option.map_some]

structure BlockIn (mb : SuMbsvfil β) (i : ℕ) (pre : List (Sbsvf β)) (p : Sbsvf β)
    (post : List (Sbsvf β)) (d : ℕ) : Prop where
  arr : mb.mfSbsvfArray = pre ++ p :: post
  index : i = (pagesOf (partsFiles pre)).length + d
  low : d < p.sfSvfil.svfNrblks
  before : PartsFrom mb.mfMinblocksize 0 pre
  part : p.IsPart mb.mfMinblocksize (partsWidth mb.mfMinblocksize pre)
  behind : PartsFrom mb.mfMinblocksize
    (partsWidth mb.mfMinblocksize pre + p.width mb.mfMinblocksize) post

theorem SuMbsvfil.IsConcat.blockIn (h : mb.IsConcat) (hi : i < (pagesOf mb.files).length) :
    ∃ pre p post d, BlockIn mb i pre p post d := by
  obtain ⟨pre, p, post, d, harr, hindex, hd⟩ := h.parts.exists_part hi
  have hparts := h.parts
  rw [harr, partsFrom_append, Nat.zero_add] at hparts
  exact ⟨pre, p, post, d, harr, hindex, hd, hparts.1, hparts.2.1, hparts.2.2⟩

theorem address_part (harr : mb.mfSbsvfArray = pre ++ p :: post)
    (hpre : PartsFrom mb.mfMinblocksize 0 pre) (hp : p.IsPart mb.mfMinblocksize start)
    (hd : d ≤ p.sfSvfil.svfNrblks) :
    mb.address ((pagesOf (partsFiles pre)).length + d) =
      partsWidth mb.mfMinblocksize pre + d * (p.blocksize / mb.mfMinblocksize) := by
  have hlen : d ≤ (placesFrom (1 + (partsFiles pre).length) p.files).length := by
    rw [length_placesFrom, hp.pagesOf_files]
    exact hd
  rw [address, files, blockPlaces, harr, partsFiles_append, partsFiles_cons, placesFrom_append,
    ← length_placesFrom (k := 1), addressOf_append, addressOf_parts hpre, placesFrom_append,
    addressOf_append_left hlen, addressOf_eq_mul (fun pl => blocksize_of_mem_places) hlen]

theorem BlockIn.address (hb : BlockIn mb i pre p post d) :
    mb.address i = partsWidth mb.mfMinblocksize pre + d * (p.blocksize / mb.mfMinblocksize) := by
  rw [hb.index, address_part hb.arr hb.before hb.part (Nat.le_of_lt hb.low)]

theorem BlockIn.partAt (hb : BlockIn mb i pre p post d) :
    mb.partAt (mb.address i) = some (pre.length, p) := by
  have hstart := hb.part.startpos
  have haddr := hb.address
  refine partAt_eq hb.arr (by omega) fun q hq => ?_
  have hq' := hb.behind.start_le hq
  have hwidth : (d + 1) * (p.blocksize / mb.mfMinblocksize) ≤ p.width mb.mfMinblocksize :=
    Nat.mul_le_mul_right _ hb.low
  have hcoeff := hb.part.coeff_pos
  rw [Nat.add_mul, Nat.one_mul] at hwidth
  omega

theorem BlockIn.partDaddr (hb : BlockIn mb i pre p post d) :
    mb.partDaddr p (mb.address i) = d := by
  rw [SuMbsvfil.partDaddr, hb.address, hb.part.startpos, Nat.add_sub_cancel_left,
    Nat.mul_div_cancel _ hb.part.coeff_pos]

theorem BlockIn.place (hb : BlockIn mb i pre p post d) :
    (blockPlaces mb.files)[i]? =
      (placesFrom (1 + (partsFiles pre).length) p.files)[d]? := by
  have hlen : (placesFrom 1 (partsFiles pre)).length = (pagesOf (partsFiles pre)).length :=
    length_placesFrom
  have hd : d < (placesFrom (1 + (partsFiles pre).length) p.files).length := by
    rw [length_placesFrom, hb.part.pagesOf_files]
    exact hb.low
  rw [files, blockPlaces, hb.arr, partsFiles_append, partsFiles_cons, placesFrom_append, hb.index,
    List.getElem?_append_right (by omega), hlen, Nat.add_sub_cancel_left, placesFrom_append,
    List.getElem?_append_left hd]

theorem BlockIn.page (hb : BlockIn mb i pre p post d) :
    (pagesOf mb.files)[i]? = p.sfSvfil.blocks[d]? := by
  have hpages : pagesOf p.files = p.sfSvfil.blocks := pagesOf_svfFiles
  have hd : d < (pagesOf p.files).length := by
    rw [hb.part.pagesOf_files]
    exact hb.low
  rw [files, hb.arr, partsFiles_append, partsFiles_cons, pagesOf_append, pagesOf_append, hb.index,
    List.getElem?_append_right (by omega), Nat.add_sub_cancel_left,
    List.getElem?_append_left hd, hpages]

/-! ## The size -/

theorem endpos_eq {start : ℕ} (hp : p.IsPart min start)
    (hspace : start + p.width min ≤ suDaddrMax) : p.endpos min = start + p.width min := by
  unfold suDaddrMax at hspace
  unfold Sbsvf.width at hspace ⊢
  unfold Sbsvf.endpos
  rw [hp.startpos, SuSvfil.getsize, Nat.mod_eq_of_lt (a := _ * _) (by omega),
    Nat.mod_eq_of_lt (by omega), Nat.add_comm]

theorem endpos_getLast {ps : List (Sbsvf β)} (h : PartsFrom min 0 ps)
    (hspace : partsWidth min ps ≤ suDaddrMax) :
    (ps.getLast?.map fun p => p.endpos min).getD 0 = partsWidth min ps := by
  rcases eq_nil_or_append ps with rfl | ⟨pre, p, rfl⟩
  · rfl
  · have hp := (partsFrom_append.mp h).2.1
    rw [Nat.zero_add] at hp
    have hsum : partsWidth min (pre ++ [p]) = partsWidth min pre + p.width min := by
      rw [partsWidth, List.map_append, List.sum_append, List.map_singleton, List.sum_singleton]
      rfl
    rw [hsum] at hspace ⊢
    rw [List.getLast?_concat, Option.map_some, Option.getD_some, endpos_eq hp hspace]

theorem SuMbsvfil.IsConcat.getsize (h : mb.IsConcat) :
    mb.getsize = mb.address (pagesOf mb.files).length := by
  rw [SuMbsvfil.getsize, endpos_getLast h.parts h.space, SuMbsvfil.address, ← length_blockPlaces,
    blockPlaces, SuMbsvfil.files, addressOf_parts h.parts]

/-! ## The functions at the address of a block -/

theorem sum_getfilespecno {ps : List (Sbsvf β)} (h : PartsFrom min start ps)
    (hspace : partsWidth min ps ≤ suDaddrMax) :
    (ps.map fun part => part.sfSvfil.getfilespecno (daddrSub part.sfSvfil.getsize 1)).sum =
      (partsFiles ps).length := by
  induction ps generalizing start with
  | nil => rfl
  | cons p ps ih =>
      rw [partsWidth_cons] at hspace
      have hpos := h.1.pos
      have hmul : p.sfSvfil.svfNrblks * 1 ≤ p.width min :=
        Nat.mul_le_mul_left _ h.1.coeff_pos
      unfold suDaddrMax at hspace
      have hsub : daddrSub p.sfSvfil.getsize 1 = p.sfSvfil.svfNrblks - 1 :=
        daddrSub_of_le hpos (show p.sfSvfil.svfNrblks < 2 ^ 32 by omega)
      have hlast : p.sfSvfil.getfilespecno (p.sfSvfil.svfNrblks - 1) = p.files.length :=
        getfilespecno_last h.1.isFlat h.1.hasRoom hpos
      rw [List.map_cons, List.sum_cons, hsub, hlast, ih h.2 (by unfold suDaddrMax; omega),
        partsFiles_cons, List.length_append, Int.natCast_add]

structure Asks (mb : SuMbsvfil β) (i : ℕ) (pl : MbPlace) (page : β) : Prop where
  place : (blockPlaces mb.files)[i]? = some pl
  content : (pagesOf mb.files)[i]? = some page
  blocksize : mb.getblocksizeAtAddr (mb.address i) = pl.blocksize
  physfilename : mb.getphysfilename (mb.address i) = some pl.fname
  filespecno : mb.getfilespecnoAndPhysdaddr (mb.address i) =
    some ((pl.filespecno : ℤ), pl.physdaddr)
  read : mb.read (mb.address i) pl.blocksize = some (.success, [page])

theorem SuMbsvfil.IsConcat.asks (h : mb.IsConcat) (hi : i < (pagesOf mb.files).length) :
    ∃ pl page, Asks mb i pl page := by
  obtain ⟨pre, p, post, d, hb⟩ := h.blockIn hi
  obtain ⟨vpre, v, vpost, hv⟩ := hb.part.isFlat.holds hb.low
  obtain ⟨hname, hspec, -⟩ := findvfil_holds hv
  have hlen := hb.part.isFlat.length_blocks
  have hd : d < p.sfSvfil.blocks.length := by
    rw [hlen]
    exact hb.low
  have hplace : (placesFrom (1 + (partsFiles pre).length) p.files)[d]? =
      some ⟨p.blocksize, v.vfFname, 1 + (partsFiles pre).length + vpre.length,
        d - v.vfStartdaddr⟩ := placesFrom_holds hb.part.isFlat hb.part.hasRoom hv
  have hspace : partsWidth mb.mfMinblocksize pre ≤ suDaddrMax := by
    have hall := h.space
    rw [hb.arr, partsWidth_append] at hall
    omega
  refine ⟨_, p.sfSvfil.blocks[d], hb.place.trans hplace, ?_, ?_, ?_, ?_, ?_⟩
  · rw [hb.page, List.getElem?_eq_getElem hd]
  · simp only [SuMbsvfil.getblocksizeAtAddr, hb.partAt]
  · simp only [SuMbsvfil.getphysfilename, hb.partAt, hb.partDaddr, hname]
  · have htake : mb.mfSbsvfArray.take pre.length = pre := by rw [hb.arr, List.take_left]
    simp only [SuMbsvfil.getfilespecnoAndPhysdaddr, hb.partAt, hb.partDaddr, hspec,
      Option.map_some, htake, sum_getfilespecno hb.before hspace, Option.some_inj, Prod.mk.injEq,
      and_true]
    push_cast
    omega
  · have hone : p.blocksize / p.blocksize = 1 := Nat.div_self hb.part.blocksize_pos
    have hslice : slice p.sfSvfil.blocks d 1 = [p.sfSvfil.blocks[d]] := by
      rw [slice, List.drop_eq_getElem_cons hd, List.take_succ_cons, List.take_zero]
    simp only [SuMbsvfil.read, hb.partAt, hb.partDaddr, hone]
    rw [readlocal_eq hb.part.isFlat hb.part.used hb.part.cipher true hb.low hb.low, hslice]

/-- Stepping over the blocks visits each of them and ends at the size. -/
theorem SuMbsvfil.IsConcat.visit (h : mb.IsConcat)
    (hrounds : (pagesOf mb.files).length ≤ i + rounds)
    (hi : i ≤ (pagesOf mb.files).length) :
    mb.visit rounds (mb.address i) =
      (List.range' i ((pagesOf mb.files).length - i)).map mb.address := by
  induction rounds generalizing i with
  | zero =>
      obtain rfl : i = (pagesOf mb.files).length := by omega
      rw [SuMbsvfil.visit, Nat.sub_self, List.range'_zero, List.map_nil]
  | succ rounds ih =>
      rw [SuMbsvfil.visit, h.getsize]
      by_cases hlt : i < (pagesOf mb.files).length
      · obtain ⟨pl, page, hasks⟩ := h.asks hlt
        obtain ⟨pre, p, post, d, hb⟩ := h.blockIn hlt
        have hnext : mb.address (i + 1) =
            mb.address i + mb.getblocksizeAtAddr (mb.address i) / mb.mfMinblocksize := by
          rw [hasks.blocksize]
          exact addressOf_succ hasks.place
        have hbehind : mb.address i < mb.address (pagesOf mb.files).length := by
          have hcoeff := hb.part.coeff_pos
          have hle : mb.address (i + 1) ≤ mb.address (pagesOf mb.files).length := addressOf_le hlt
          simp only [SuMbsvfil.getblocksizeAtAddr, hb.partAt] at hnext
          omega
        rw [if_neg (by omega), ← hnext, ih (by omega) hlt,
          show (pagesOf mb.files).length - i = (pagesOf mb.files).length - (i + 1) + 1 by omega,
          List.range'_succ, List.map_cons]
      · obtain rfl : i = (pagesOf mb.files).length := by omega
        rw [if_pos (Nat.le_refl _), Nat.sub_self, List.range'_zero, List.map_nil]

end SolidDB
