import SolidDB.Su.SvfFiles
import SolidDB.Su.Mbsvf
import SolidDB.Su.SvfTransfer

/-!
# Files one behind the other

The blocks of files of several block sizes in order, each with its place, and their addresses
counted in blocks of the smallest size.
-/

namespace SolidDB

/-- The place of a block: the size of the block, the name of its file, the number of the file
and the block in the file. -/
structure MbPlace where
  blocksize : ℕ
  fname : String
  filespecno : ℕ
  physdaddr : ℕ
  deriving DecidableEq

variable {β : Type*} {F G : List (SvfFile β)} {f : SvfFile β} {k m i n min : ℕ}
  {places places' : List MbPlace}

def filePlaces (k : ℕ) (f : SvfFile β) : List MbPlace :=
  (List.range f.pages.length).map fun j => ⟨f.blocksize, f.fname, k, j⟩

def placesFrom : ℕ → List (SvfFile β) → List MbPlace
  | _, [] => []
  | k, f :: fs => filePlaces k f ++ placesFrom (k + 1) fs

def blockPlaces (F : List (SvfFile β)) : List MbPlace := placesFrom 1 F

def pagesOf (F : List (SvfFile β)) : List β := F.flatMap SvfFile.pages

def cutFiles : ℕ → List (SvfFile β) → List (SvfFile β)
  | _, [] => []
  | m, f :: fs =>
      if m = 0 then []
      else if m ≤ f.pages.length then [{ f with pages := f.pages.take m }]
      else f :: cutFiles (m - f.pages.length) fs

def addressOf (min : ℕ) (places : List MbPlace) (i : ℕ) : ℕ :=
  ((places.take i).map fun pl => pl.blocksize / min).sum

/-! ## Places and blocks -/

@[simp] theorem length_filePlaces : (filePlaces k f).length = f.pages.length := by
  rw [filePlaces, List.length_map, List.length_range]

@[simp] theorem placesFrom_nil : placesFrom k ([] : List (SvfFile β)) = [] := rfl

theorem placesFrom_append :
    placesFrom k (F ++ G) = placesFrom k F ++ placesFrom (k + F.length) G := by
  induction F generalizing k with
  | nil => rfl
  | cons f F ih =>
      rw [List.cons_append, placesFrom, placesFrom, ih, List.length_cons, List.append_assoc,
        Nat.add_assoc, Nat.add_comm 1]

@[simp] theorem pagesOf_nil : pagesOf ([] : List (SvfFile β)) = [] := rfl

@[simp] theorem pagesOf_cons : pagesOf (f :: F) = f.pages ++ pagesOf F := by
  simp [pagesOf]

@[simp] theorem pagesOf_append : pagesOf (F ++ G) = pagesOf F ++ pagesOf G := by
  simp [pagesOf]

theorem length_placesFrom : (placesFrom k F).length = (pagesOf F).length := by
  induction F generalizing k with
  | nil => rfl
  | cons f F ih =>
      rw [placesFrom, List.length_append, length_filePlaces, ih, pagesOf_cons, List.length_append]

theorem length_blockPlaces : (blockPlaces F).length = (pagesOf F).length := length_placesFrom

/-! ## Cutting -/

theorem cutFiles_zero : cutFiles 0 F = [] := by
  cases F with
  | nil => rfl
  | cons f F => rw [cutFiles, if_pos rfl]

theorem cutFiles_append (h : (pagesOf F).length < m) :
    cutFiles m (F ++ G) = F ++ cutFiles (m - (pagesOf F).length) G := by
  induction F generalizing m with
  | nil => rfl
  | cons f F ih =>
      rw [pagesOf_cons, List.length_append] at h
      rw [List.cons_append, cutFiles, if_neg (by omega), if_neg (by omega), ih (by omega),
        pagesOf_cons, List.length_append, Nat.sub_add_eq, List.cons_append]

theorem pagesOf_cutFiles : pagesOf (cutFiles m F) = (pagesOf F).take m := by
  induction F generalizing m with
  | nil => rw [cutFiles, pagesOf_nil, List.take_nil]
  | cons f F ih =>
      rw [cutFiles, pagesOf_cons]
      split
      · rename_i hm
        rw [hm, List.take_zero, pagesOf_nil]
      · split
        · rename_i hle
          rw [pagesOf_cons, pagesOf_nil, List.append_nil, List.take_append_of_le_length hle]
        · rename_i hlt
          rw [pagesOf_cons, ih, List.take_append,
            List.take_of_length_le (show f.pages.length ≤ m by omega)]

theorem placesFrom_cutFiles : placesFrom k (cutFiles m F) = (placesFrom k F).take m := by
  induction F generalizing k m with
  | nil => rw [cutFiles, placesFrom_nil, List.take_nil]
  | cons f F ih =>
      rw [cutFiles, placesFrom]
      split
      · rename_i hm
        rw [hm, List.take_zero, placesFrom_nil]
      · split
        · rename_i hle
          rw [placesFrom, placesFrom_nil, List.append_nil,
            List.take_append_of_le_length (by rw [length_filePlaces]; exact hle), filePlaces,
            filePlaces, ← List.map_take, List.take_range, List.length_take]
        · rename_i hlt
          have hall : (filePlaces k f).length ≤ m := by
            rw [length_filePlaces]
            omega
          rw [placesFrom, ih, List.take_append, List.take_of_length_le hall, length_filePlaces]

/-! ## Addresses -/

theorem addressOf_append_left (h : i ≤ places.length) :
    addressOf min (places ++ places') i = addressOf min places i := by
  rw [addressOf, List.take_append_of_le_length h, addressOf]

theorem addressOf_append :
    addressOf min (places ++ places') (places.length + i) =
      addressOf min places places.length + addressOf min places' i := by
  rw [addressOf, addressOf, addressOf, List.take_length, List.take_append,
    List.take_of_length_le (Nat.le_add_right _ _), Nat.add_sub_cancel_left, List.map_append,
    List.sum_append]

theorem addressOf_succ {pl : MbPlace} (h : places[i]? = some pl) :
    addressOf min places (i + 1) = addressOf min places i + pl.blocksize / min := by
  rw [addressOf, List.take_add_one, h, Option.toList_some, List.map_append, List.sum_append,
    List.map_singleton, List.sum_singleton, addressOf]

theorem addressOf_le {j : ℕ} (h : i ≤ j) : addressOf min places i ≤ addressOf min places j := by
  obtain ⟨n, rfl⟩ := Nat.exists_eq_add_of_le h
  rw [addressOf, addressOf, List.take_add, List.map_append, List.sum_append]
  exact Nat.le_add_right _ _

theorem addressOf_eq_mul {b : ℕ} (h : ∀ pl ∈ places, pl.blocksize = b) (hi : i ≤ places.length) :
    addressOf min places i = i * (b / min) := by
  have hmap : (places.take i).map (fun pl => pl.blocksize / min) =
      List.replicate i (b / min) := by
    refine List.eq_replicate_iff.mpr ⟨?_, ?_⟩
    · rw [List.length_map, List.length_take, Nat.min_eq_left hi]
    · intro x hx
      obtain ⟨pl, hpl, rfl⟩ := List.mem_map.mp hx
      rw [h pl (List.mem_of_mem_take hpl)]
  rw [addressOf, hmap, List.sum_replicate_nat]

end SolidDB

/-!
## The parts of a split virtual file of several block sizes

The blocks of a part are the blocks of its files in order, and the functions of the part find
the place of each.
-/

namespace SolidDB

open BlockArray SuSvfil

variable {β : Type*} {svf svf' : SuSvfil β} {v : Vfil β} {arr arr' pre post kept : List (Vfil β)}
  {nr d k blksz start : ℕ}

/-! ## The files of a part -/

theorem pagesOf_svfFiles : pagesOf (svfFiles blksz arr) = svfBlocks arr := by
  induction arr with
  | nil => rfl
  | cons v arr ih =>
      rcases Nat.eq_zero_or_pos v.vfSzblks with h | h
      · have hnil : v.blocks = [] := by rw [Vfil.blocks, h, List.take_zero]
        rw [svfFiles_cons_of_eq_zero h, svfBlocks_cons, hnil, List.nil_append, ih]
      · rw [svfFiles_cons_of_pos h, svfBlocks_cons, pagesOf_cons, ih]

theorem length_svfFiles (h : ∀ v ∈ arr, 0 < v.vfSzblks) :
    (svfFiles blksz arr).length = arr.length := by
  have hall : ∀ v ∈ arr, decide (0 < v.vfSzblks) = true := fun v hv => decide_eq_true (h v hv)
  rw [svfFiles, List.length_map, List.filter_eq_self.mpr hall]

theorem svfFiles_eq_nil (h : ∀ v ∈ arr, v.vfSzblks = 0) : svfFiles blksz arr = [] := by
  induction arr with
  | nil => rfl
  | cons v arr ih =>
      rw [svfFiles_cons_of_eq_zero (h v List.mem_cons_self),
        ih fun u hu => h u (List.mem_cons_of_mem v hu)]

def HasRoom (svf : SuSvfil β) : Prop := ∀ v ∈ svf.svfVfpArr, 0 < v.vfMaxszblks

theorem hasRoom_of_ranges (h : HasRoom svf)
    (hranges : ranges svf'.svfVfpArr = ranges svf.svfVfpArr) : HasRoom svf' := by
  intro v hv
  have hmem : (v.vfStartdaddr, v.vfMaxszblks) ∈ ranges svf'.svfVfpArr :=
    List.mem_map.mpr ⟨v, hv, rfl⟩
  rw [hranges] at hmem
  obtain ⟨u, hu, heq⟩ := List.mem_map.mp hmem
  have hmax : u.vfMaxszblks = v.vfMaxszblks := congrArg Prod.snd heq
  rw [← hmax]
  exact h u hu

/-- The files before the one with a block are full and those behind the last block empty. -/
theorem holds_before (h : svf.IsFlat) (hmax : HasRoom svf) (hv : svf.Holds d pre v post) :
    ∀ u ∈ pre, 0 < u.vfSzblks := by
  intro u hu
  have hfitted := h.fitted
  rw [hv.arr] at hfitted
  obtain ⟨hpre, hfits, -⟩ := fitted_append.mp hfitted
  have hstart := hfits.startdaddr
  have hlow := hv.low
  have hhigh := hv.high
  have hsz := hv.szblks
  have hfull := hpre.full (by omega) hu
  have hpos := hmax u (by rw [hv.arr]; exact List.mem_append_left _ hu)
  omega

theorem holds_behind (h : svf.IsFlat) (hv : svf.Holds (svf.svfNrblks - 1) pre v post)
    (hpos : 0 < svf.svfNrblks) : ∀ u ∈ post, u.vfSzblks = 0 := by
  intro u hu
  have hfitted := h.fitted
  rw [hv.arr] at hfitted
  obtain ⟨-, hfits, hpost⟩ := fitted_append.mp hfitted
  have hstart := hfits.startdaddr
  have hhigh := hv.high
  have hsz := hv.szblks
  exact hpost.empty (by omega) hu

theorem placesFrom_holds (h : svf.IsFlat) (hmax : HasRoom svf) (hv : svf.Holds d pre v post) :
    (placesFrom k (svfFiles blksz svf.svfVfpArr))[d]? =
      some ⟨blksz, v.vfFname, k + pre.length, d - v.vfStartdaddr⟩ := by
  have hlow := hv.low
  have hhigh := hv.high
  have hlen : (placesFrom k (svfFiles blksz pre)).length = v.vfStartdaddr := by
    rw [length_placesFrom, pagesOf_svfFiles, hv.before]
  rw [hv.arr, svfFiles_append, placesFrom_append,
    svfFiles_cons_of_pos (show 0 < v.vfSzblks by omega), placesFrom,
    List.getElem?_append_right (by omega), hlen, List.getElem?_append_left
      (by rw [length_filePlaces, hv.length_blocks]; omega), filePlaces, List.getElem?_map,
    List.getElem?_range (by rw [hv.length_blocks]; omega), Option.map_some,
    length_svfFiles (holds_before h hmax hv)]

theorem findvfil_holds (hv : svf.Holds d pre v post) :
    svf.getphysfilename d = some v.vfFname ∧
      svf.getfilespecnoAndPhysdaddr d = some (pre.length + 1, d - v.vfStartdaddr) ∧
      svf.getfilespecno d = pre.length + 1 := by
  refine ⟨?_, ?_, ?_⟩
  · simp only [getphysfilename, hv.found, hv.getElem?, Option.map_some]
  · simp only [getfilespecnoAndPhysdaddr, hv.found, hv.getElem?, Option.map_some]
  · simp only [getfilespecno, hv.found]

theorem getfilespecno_last (h : svf.IsFlat) (hmax : HasRoom svf) (hpos : 0 < svf.svfNrblks) :
    svf.getfilespecno (svf.svfNrblks - 1) = (svfFiles blksz svf.svfVfpArr).length := by
  obtain ⟨pre, v, post, hv⟩ := h.holds (show svf.svfNrblks - 1 < svf.svfNrblks by omega)
  have hhigh := hv.high
  have hlow := hv.low
  rw [(findvfil_holds hv).2.2, hv.arr, svfFiles_append,
    svfFiles_cons_of_pos (show 0 < v.vfSzblks by omega), svfFiles_eq_nil (holds_behind h hv hpos),
    List.length_append, length_svfFiles (holds_before h hmax hv), List.length_singleton]
  rfl

theorem svfFiles_cut (h : Fitted nr start arr) (h' : Fitted d start arr') (hd : d ≤ nr)
    (hnames : arr'.map Vfil.vfFname = arr.map Vfil.vfFname)
    (hranges : ranges arr' = ranges arr)
    (hblocks : svfBlocks arr' = (svfBlocks arr).take (d - start)) :
    svfFiles blksz arr' = cutFiles (d - start) (svfFiles blksz arr) := by
  induction arr generalizing arr' start with
  | nil =>
      obtain rfl : arr' = [] := List.map_eq_nil_iff.mp hnames
      rfl
  | cons v arr ih =>
      cases arr' with
      | nil => exact absurd hnames (by simp)
      | cons w arr' =>
          rw [List.map_cons, List.map_cons, List.cons.injEq] at hnames
          rw [ranges, ranges, List.map_cons, List.map_cons, List.cons.injEq, Prod.mk.injEq]
            at hranges
          obtain ⟨hfname, hnames⟩ := hnames
          obtain ⟨⟨-, hmax⟩, hranges⟩ := hranges
          have hvsz := h.1.szblks
          have hwsz := h'.1.szblks
          have hvlen := h.1.length_blocks
          have hwlen := h'.1.length_blocks
          rw [svfBlocks_cons, svfBlocks_cons] at hblocks
          -- the blocks of the file and of those behind it
          have hwblocks : w.blocks = v.blocks.take (d - start) := by
            have htake := congrArg (List.take w.vfSzblks) hblocks
            rw [List.take_append_of_le_length (by omega), List.take_of_length_le (by omega),
              List.take_take, Nat.min_eq_left (by omega),
              List.take_append_of_le_length (by omega)] at htake
            rw [htake]
            by_cases hle : d - start ≤ v.vfMaxszblks
            · congr 1
              omega
            · rw [List.take_of_length_le (by omega), List.take_of_length_le (by omega)]
          have hrest : svfBlocks arr' = (svfBlocks arr).take (d - (start + v.vfMaxszblks)) := by
            rw [List.take_append, hwblocks] at hblocks
            have hcut := List.append_cancel_left hblocks
            rw [hcut]
            by_cases hle : d - start ≤ v.vfMaxszblks
            · have hzero : d - start - v.blocks.length = 0 := by omega
              have hzero' : d - (start + v.vfMaxszblks) = 0 := by omega
              rw [hzero, hzero']
            · congr 1
              omega
          have hfiles := ih h.2 (hmax ▸ h'.2) hnames hranges hrest
          rcases Nat.eq_zero_or_pos (d - start) with hzero | hpos
          · rw [svfFiles_cons_of_eq_zero (show w.vfSzblks = 0 by omega), hfiles,
              show d - (start + v.vfMaxszblks) = 0 by omega, hzero, cutFiles_zero, cutFiles_zero]
          · rcases Nat.eq_zero_or_pos v.vfSzblks with hv | hv
            · rw [svfFiles_cons_of_eq_zero (show w.vfSzblks = 0 by omega),
                svfFiles_cons_of_eq_zero hv, hfiles]
              congr 1
              omega
            · rw [svfFiles_cons_of_pos (show 0 < w.vfSzblks by omega), svfFiles_cons_of_pos hv,
                cutFiles, if_neg (by omega), hfiles, hfname, hwblocks]
              dsimp only
              split
              · rw [show d - (start + v.vfMaxszblks) = 0 by omega, cutFiles_zero]
              · rw [List.take_of_length_le (by omega)]
                congr 2
                omega

/-! ## A file added to a part -/

structure FileAdded (svf svf' : SuSvfil β) (fname : String) (pages : List β) : Prop where
  isFlat : svf'.IsFlat
  used : svf.Used → svf'.Used
  cipher : svf'.svfCipher = svf.svfCipher
  blksz : svf'.svfBlksz = svf.svfBlksz
  size : svf'.svfNrblks = svf.svfNrblks + pages.length
  total : svfTotal svf'.svfVfpArr = svf.svfNrblks + pages.length
  hasRoom : HasRoom svf → HasRoom svf'
  files : ∀ blksz, svfFiles blksz svf'.svfVfpArr =
    svfFiles blksz svf.svfVfpArr ++ [⟨fname, blksz, pages⟩]

theorem addfile_fileAdded (h : svf.IsFlat) {fname : String} {pages : List β}
    (hname : fname ∉ svf.svfVfpArr.map Vfil.vfFname) (hpages : pages ≠ [])
    (hblksz : 0 < svf.svfBlksz) (hspace : svfTotal svf.svfVfpArr + pages.length ≤ suDaddrMax) :
    (svf.addfile fname pages (pages.length * svf.svfBlksz)).2 = .success ∧
      FileAdded svf (svf.addfile fname pages (pages.length * svf.svfBlksz)).1 fname pages := by
  have hadded := addfile_added h fname pages (pages.length * svf.svfBlksz)
  have hroom : ¬(suDaddrMax - svfTotal svf.svfVfpArr) * svf.svfBlksz <
      pages.length * svf.svfBlksz :=
    Nat.not_lt.mpr (Nat.mul_le_mul_right _ (by omega))
  have hmax : pages.length * svf.svfBlksz / svf.svfBlksz = pages.length :=
    Nat.mul_div_cancel _ hblksz
  have hpos : 0 < pages.length := List.length_pos_iff.mpr hpages
  obtain ⟨kept, hrefit, hkept⟩ := refitPreceding_kept h.fitted h.size
    (Vfil.init fname pages (pages.length * svf.svfBlksz) svf.svfBlksz (svfTotal svf.svfVfpArr))
  have heq : svf.addfile fname pages (pages.length * svf.svfBlksz) =
      ({ svf with
          svfVfpArr := kept ++ [⟨fname, pages, pages.length, svf.svfNrblks, pages.length⟩]
          svfVfpArrused := svf.svfVfpArrused + 1
          svfNrblks := svf.svfNrblks + pages.length }, .success) := by
    unfold addfile
    rw [if_neg hname, getLast_enddaddr h.fitted]
    dsimp only
    rw [if_neg hroom, if_pos, hrefit, List.reverse_reverse]
    · simp only [Vfil.init, hmax, Nat.min_self]
    · simp only [Vfil.init, hmax, Nat.min_self]
      exact hpos
  rw [heq] at hadded ⊢
  refine ⟨rfl, hadded.isFlat, hadded.used, rfl, rfl, rfl, ?_, ?_, ?_⟩
  · dsimp only
    rw [svfTotal_append, svfTotal_singleton, hkept.total]
  · intro hroom u hu
    rcases List.mem_append.mp hu with hmem | hmem
    · exact hkept.max hroom u hmem
    · rw [List.mem_singleton.mp hmem]
      exact hpos
  · intro blksz
    dsimp only
    rw [svfFiles_append, hkept.files, svfFiles_cons_of_pos hpos, svfFiles_nil, Vfil.blocks]
    dsimp only
    rw [List.take_length]

/-! ## The parts in order -/

def Sbsvf.width (p : Sbsvf β) (minblocksize : ℕ) : ℕ :=
  p.sfSvfil.svfNrblks * (p.blocksize / minblocksize)

def Sbsvf.files (p : Sbsvf β) : List (SvfFile β) :=
  svfFiles p.blocksize p.sfSvfil.svfVfpArr

structure Sbsvf.IsPart (minblocksize start : ℕ) (p : Sbsvf β) : Prop where
  isFlat : p.sfSvfil.IsFlat
  used : p.sfSvfil.Used
  cipher : p.sfSvfil.svfCipher = none
  power : ∃ e, p.blocksize = 2 ^ e
  dvd : minblocksize ∣ p.blocksize
  startpos : p.sfStartpos = start
  pos : 0 < p.sfSvfil.svfNrblks
  hasRoom : HasRoom p.sfSvfil

/-- The parts from an address on stand one behind the other. -/
def PartsFrom (minblocksize : ℕ) : ℕ → List (Sbsvf β) → Prop
  | _, [] => True
  | start, p :: ps =>
      p.IsPart minblocksize start ∧ PartsFrom minblocksize (start + p.width minblocksize) ps

def partsFiles (ps : List (Sbsvf β)) : List (SvfFile β) := ps.flatMap Sbsvf.files

def partsWidth (minblocksize : ℕ) (ps : List (Sbsvf β)) : ℕ :=
  (ps.map fun p => p.width minblocksize).sum

variable {min : ℕ} {p : Sbsvf β} {ps qs : List (Sbsvf β)}

@[simp] theorem partsFiles_nil : partsFiles ([] : List (Sbsvf β)) = [] := rfl

@[simp] theorem partsFiles_cons : partsFiles (p :: ps) = p.files ++ partsFiles ps := by
  simp [partsFiles]

@[simp] theorem partsFiles_append : partsFiles (ps ++ qs) = partsFiles ps ++ partsFiles qs := by
  simp [partsFiles]

@[simp] theorem partsWidth_nil : partsWidth min ([] : List (Sbsvf β)) = 0 := rfl

@[simp] theorem partsWidth_cons :
    partsWidth min (p :: ps) = p.width min + partsWidth min ps := by
  simp [partsWidth]

@[simp] theorem partsWidth_append :
    partsWidth min (ps ++ qs) = partsWidth min ps + partsWidth min qs := by
  simp [partsWidth]

theorem partsFrom_append :
    PartsFrom min start (ps ++ qs) ↔
      PartsFrom min start ps ∧ PartsFrom min (start + partsWidth min ps) qs := by
  induction ps generalizing start with
  | nil => simp [PartsFrom]
  | cons p ps ih =>
      rw [List.cons_append, PartsFrom, PartsFrom, ih, partsWidth_cons, and_assoc, Nat.add_assoc]

/-- A block of a part is not smaller than a block of the smallest size. -/
theorem Sbsvf.IsPart.coeff_pos (h : p.IsPart min start) : 0 < p.blocksize / min := by
  obtain ⟨e, he⟩ := h.power
  have hpos : 0 < p.blocksize := by
    rw [he]
    exact Nat.two_pow_pos e
  exact Nat.div_pos (Nat.le_of_dvd hpos h.dvd) (Nat.pos_of_dvd_of_pos h.dvd hpos)

theorem Sbsvf.IsPart.blocksize_pos (h : p.IsPart min start) : 0 < p.blocksize := by
  obtain ⟨e, he⟩ := h.power
  rw [he]
  exact Nat.two_pow_pos e

theorem Sbsvf.IsPart.pagesOf_files (h : p.IsPart min start) :
    (pagesOf p.files).length = p.sfSvfil.svfNrblks := by
  rw [Sbsvf.files, pagesOf_svfFiles]
  exact h.isFlat.length_blocks

theorem blocksize_of_mem_places {pl : MbPlace} (h : pl ∈ placesFrom k p.files) :
    pl.blocksize = p.blocksize := by
  unfold Sbsvf.files svfFiles at h
  generalize p.sfSvfil.svfVfpArr.filter (fun v => decide (0 < v.vfSzblks)) = arr at h
  induction arr generalizing k with
  | nil => cases h
  | cons v arr ih =>
      rw [List.map_cons, placesFrom] at h
      rcases List.mem_append.mp h with hmem | hmem
      · obtain ⟨j, -, rfl⟩ := List.mem_map.mp hmem
        rfl
      · exact ih hmem

/-- The addresses in the blocks of the parts end behind the last part. -/
theorem addressOf_parts (h : PartsFrom min start ps) :
    addressOf min (placesFrom k (partsFiles ps)) (placesFrom k (partsFiles ps)).length =
      partsWidth min ps := by
  induction ps generalizing start k with
  | nil => rfl
  | cons p ps ih =>
      have hlen : (placesFrom k p.files).length = p.sfSvfil.svfNrblks := by
        rw [length_placesFrom, h.1.pagesOf_files]
      rw [partsFiles_cons, placesFrom_append, List.length_append, addressOf_append, ih h.2,
        addressOf_eq_mul (fun pl => blocksize_of_mem_places) (Nat.le_refl _), hlen,
        partsWidth_cons, Sbsvf.width]

theorem PartsFrom.exists_part {i : ℕ} (h : PartsFrom min start ps)
    (hi : i < (pagesOf (partsFiles ps)).length) :
    ∃ pre p post d, ps = pre ++ p :: post ∧ i = (pagesOf (partsFiles pre)).length + d ∧
      d < p.sfSvfil.svfNrblks := by
  induction ps generalizing start i with
  | nil => cases hi
  | cons p ps ih =>
      rw [partsFiles_cons, pagesOf_append, List.length_append, h.1.pagesOf_files] at hi
      by_cases hlt : i < p.sfSvfil.svfNrblks
      · exact ⟨[], p, ps, i, rfl, by simp, hlt⟩
      · obtain ⟨pre, q, post, d, hps, hsum, hd⟩ :=
          ih (i := i - p.sfSvfil.svfNrblks) h.2 (by omega)
        refine ⟨p :: pre, q, post, d, by rw [hps, List.cons_append], ?_, hd⟩
        rw [partsFiles_cons, pagesOf_append, List.length_append, h.1.pagesOf_files]
        omega

end SolidDB
