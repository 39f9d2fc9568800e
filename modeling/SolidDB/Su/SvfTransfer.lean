import SolidDB.Su.SvfExtendLoop

/-!
# Reads and writes of a split virtual file

A transfer is cut at the borders of the files. Below the size each round reads or writes the
blocks of the flat array that lie in one file.
-/

namespace SolidDB

open BlockArray

namespace SuSvfil

variable {β : Type*} {svf svf' : SuSvfil β} {v : Vfil β} {pre post : List (Vfil β)}
  {data chunk : List β} {loc loc2 n : ℕ}

theorem daddrSub_of_le {x y : ℕ} (hy : y ≤ x) (hx : x < 2 ^ 32) : daddrSub x y = x - y := by
  have hsum : x + 2 ^ 32 - y = x - y + 2 ^ 32 := by omega
  rw [daddrSub, hsum, Nat.add_mod_right, Nat.mod_eq_of_lt (by omega)]

structure Holds (svf : SuSvfil β) (loc2 : ℕ) (pre : List (Vfil β)) (v : Vfil β)
    (post : List (Vfil β)) : Prop where
  arr : svf.svfVfpArr = pre ++ v :: post
  found : svf.findvfil loc2 = .ok pre.length
  low : v.vfStartdaddr ≤ loc2
  high : loc2 < v.vfStartdaddr + v.vfSzblks
  before : (svfBlocks pre).length = v.vfStartdaddr
  szblks : v.vfSzblks = min v.vfMaxszblks (svf.svfNrblks - v.vfStartdaddr)
  pages : v.vfSzblks ≤ v.vfPages.length
  total : v.enddaddr ≤ svfTotal svf.svfVfpArr

theorem IsFlat.holds (h : svf.IsFlat) (hloc : loc2 < svf.svfNrblks) :
    ∃ pre v post, svf.Holds loc2 pre v post := by
  obtain ⟨pre, v, post, harr, hfind, hlow, hhigh⟩ := h.exists_file (hloc.trans_le h.size)
  have hfitted := h.fitted
  rw [harr] at hfitted
  obtain ⟨hpre, hfits, -⟩ := fitted_append.mp hfitted
  rw [Nat.zero_add] at hfits
  have hstart := hfits.startdaddr
  have hsz := hfits.szblks
  have hend := hfits.enddaddr
  refine ⟨pre, v, post, harr, hfind, hlow, by omega, ?_, by omega, hfits.pages, ?_⟩
  · rw [hpre.length_blocks]
    omega
  · rw [harr, svfTotal_append, svfTotal_cons]
    omega

theorem Holds.getElem? (h : svf.Holds loc2 pre v post) :
    svf.svfVfpArr[pre.length]? = some v := by
  rw [h.arr, getElem?_middle]

theorem Holds.length_blocks (h : svf.Holds loc2 pre v post) :
    v.blocks.length = v.vfSzblks := by
  rw [Vfil.blocks, List.length_take, Nat.min_eq_left h.pages]

theorem Holds.slice (h : svf.Holds loc2 pre v post) (hn : loc2 + n ≤ v.vfStartdaddr + v.vfSzblks) :
    slice v.vfPages (loc2 - v.vfStartdaddr) n = slice svf.blocks loc2 n := by
  have hlow := h.low
  have hlen := h.length_blocks
  have haddr : loc2 = (svfBlocks pre).length + (loc2 - v.vfStartdaddr) := by
    rw [h.before]
    omega
  have hblocks : svf.blocks = svfBlocks pre ++ v.blocks ++ svfBlocks post := by
    rw [blocks, h.arr, svfBlocks_append, svfBlocks_cons, List.append_assoc]
  calc BlockArray.slice v.vfPages (loc2 - v.vfStartdaddr) n
      = BlockArray.slice v.blocks (loc2 - v.vfStartdaddr) n :=
        (slice_take (by omega)).symm
    _ = BlockArray.slice svf.blocks ((svfBlocks pre).length + (loc2 - v.vfStartdaddr)) n := by
        rw [hblocks, slice_append_middle (by omega)]
    _ = BlockArray.slice svf.blocks loc2 n := by rw [← haddr]

/-! ## Reading -/

variable (loc) in
theorem readlocalLoop_round (h : svf.IsFlat) (hv : svf.Holds loc2 pre v post)
    (hn : loc2 + n ≤ svf.svfNrblks) (hpos : n ≠ 0)
    (hlast : pre.length + 1 = svf.svfVfpArrused → loc2 + n ≤ v.vfStartdaddr + v.vfSzblks)
    (crypt_enabled : Bool) (rounds : ℕ) (data : List β) :
    let room := min (v.vfStartdaddr + v.vfSzblks - loc2) n
    svf.readlocalLoop loc crypt_enabled (rounds + 1) loc2 n data =
      svf.readlocalLoop loc crypt_enabled rounds (loc2 + room) (n - room)
        (data ++ if crypt_enabled then svf.svfDecrypt loc (slice svf.blocks loc2 room)
          else slice svf.blocks loc2 room) := by
  intro room
  have hlow := hv.low
  have hhigh := hv.high
  have hsz := hv.szblks
  have hspace := h.space
  have hend := hv.total
  unfold Vfil.enddaddr at hend
  unfold suDaddrMax at hspace
  have hroom : min (daddrSub (if pre.length + 1 = svf.svfVfpArrused then v.vfSzblks
      else v.vfMaxszblks) (loc2 - v.vfStartdaddr)) n = room := by
    split
    · rw [daddrSub_of_le (by omega) (by omega)]
      omega
    · rw [daddrSub_of_le (by omega) (by omega)]
      omega
  have hslice := hv.slice (show loc2 + room ≤ v.vfStartdaddr + v.vfSzblks by omega)
  have hlen : (slice svf.blocks loc2 room).length = room :=
    length_slice (by rw [h.length_blocks]; omega)
  rw [readlocalLoop, if_neg hpos]
  simp only [hv.found, hv.getElem?, hroom, hslice, hlen, ne_eq, not_true, if_false]
  rw [if_neg]
  rintro ⟨hlt, hused⟩
  have hall := hlast hused
  omega

/-- The last file that is counted as used has the last block where it has one. -/
theorem Used.last (hused : svf.Used) (h : svf.IsFlat) (hv : svf.Holds loc2 pre v post)
    (hcount : pre.length + 1 = svf.svfVfpArrused) (hn : loc2 + n ≤ svf.svfNrblks) :
    loc2 + n ≤ v.vfStartdaddr + v.vfSzblks := by
  -- the files behind it would hold the rest of the blocks
  have hpost : svfBlocks post = [] := by
    rw [svfBlocks, List.flatMap_eq_nil_iff]
    intro u hu
    have hzero : u.vfSzblks = 0 := by
      refine hused _ ?_
      rw [hv.arr, ← List.map_drop, ← hcount, drop_middle _ _ _ (Nat.lt_add_one _),
        Nat.add_sub_cancel_left, Nat.sub_self, List.drop_zero]
      exact List.mem_map_of_mem hu
    rw [Vfil.blocks, hzero, List.take_zero]
  have hlen := h.length_blocks
  rw [blocks, hv.arr, svfBlocks_append, svfBlocks_cons, hpost, List.append_nil,
    List.length_append, hv.before, hv.length_blocks] at hlen
  omega

/-- A read below the size gives the blocks of the flat array. -/
theorem readlocalLoop_eq (h : svf.IsFlat) (hused : svf.Used) (hcipher : svf.svfCipher = none)
    (crypt_enabled : Bool) {rounds : ℕ} (hn : loc2 + n ≤ svf.svfNrblks) (hrounds : n ≤ rounds)
    (data : List β) :
    svf.readlocalLoop loc crypt_enabled rounds loc2 n data =
      some (.success, data ++ slice svf.blocks loc2 n) := by
  induction rounds generalizing loc2 n data with
  | zero =>
      obtain rfl : n = 0 := by omega
      rw [readlocalLoop, if_pos rfl, slice_zero, List.append_nil]
  | succ rounds ih =>
      by_cases hpos : n = 0
      · rw [readlocalLoop, if_pos hpos, hpos, slice_zero, List.append_nil]
      · obtain ⟨pre, v, post, hv⟩ := h.holds (show loc2 < svf.svfNrblks by omega)
        have hhigh := hv.high
        rw [readlocalLoop_round loc h hv hn hpos (fun hcount => hused.last h hv hcount hn)]
        have hplain : ∀ run : List β, (if crypt_enabled then svf.svfDecrypt loc run else run) =
            run := by
          intro run
          simp only [svfDecrypt, hcipher, ite_self]
        rw [hplain, ih (by omega) (by omega), List.append_assoc, slice_add]
        congr 4
        omega

theorem readlocal_eq (h : svf.IsFlat) (hused : svf.Used) (hcipher : svf.svfCipher = none)
    (crypt_enabled : Bool) (hloc : loc < svf.svfNrblks) (hn : loc + n ≤ svf.svfNrblks) :
    svf.readlocal loc crypt_enabled n = some (.success, slice svf.blocks loc n) := by
  rw [readlocal, if_neg (by omega),
    readlocalLoop_eq h hused hcipher crypt_enabled hn (Nat.le_refl n), List.nil_append]

/-- A read returns, also where it ends behind the last block. -/
theorem readlocalLoop_returns (h : svf.IsFlat) (crypt_enabled : Bool) {rounds : ℕ}
    (hloc : loc2 ≤ svf.svfNrblks) (hrounds : n ≤ rounds) (data : List β) :
    ∃ r, svf.readlocalLoop loc crypt_enabled rounds loc2 n data = some r := by
  induction rounds generalizing loc2 n data with
  | zero =>
      obtain rfl : n = 0 := by omega
      exact ⟨_, by rw [readlocalLoop, if_pos rfl]⟩
  | succ rounds ih =>
      rw [readlocalLoop]
      by_cases hpos : n = 0
      · exact ⟨_, by rw [if_pos hpos]⟩
      rw [if_neg hpos]
      by_cases hroom : loc2 < svfTotal svf.svfVfpArr
      · obtain ⟨pre, v, post, harr, hfind, hlow, hhigh⟩ := h.exists_file hroom
        have hfitted := h.fitted
        rw [harr] at hfitted
        have hfits := (fitted_append.mp hfitted).2.1
        have hsz := hfits.szblks
        have hexact := hfits.exact
        have hstart := hfits.startdaddr
        have hspace := h.space
        have hend : v.enddaddr ≤ svfTotal svf.svfVfpArr := by
          rw [hfits.enddaddr, harr, svfTotal_append, svfTotal_cons]
          omega
        unfold suDaddrMax at hspace
        unfold Vfil.enddaddr at hhigh hend
        have hget : svf.svfVfpArr[pre.length]? = some v := by
          rw [harr, getElem?_middle]
        simp only [hfind, hget]
        generalize hblks : (if pre.length + 1 = svf.svfVfpArrused then v.vfSzblks
          else v.vfMaxszblks) = end_blks
        have hused : pre.length + 1 = svf.svfVfpArrused → end_blks = v.vfSzblks := by
          intro hlast
          rw [← hblks, if_pos hlast]
        have hrange : end_blks = v.vfSzblks ∨ end_blks = v.vfMaxszblks := by
          rw [← hblks]
          split
          · exact .inl rfl
          · exact .inr rfl
        rw [daddrSub_of_le (by omega) (by omega)]
        generalize hmin : min (end_blks - (loc2 - v.vfStartdaddr)) n = room_blks
        by_cases hlen : (slice v.vfPages (loc2 - v.vfStartdaddr) room_blks).length = room_blks
        · rw [if_neg (not_not.mpr hlen)]
          by_cases hall : room_blks < n ∧ pre.length + 1 = svf.svfVfpArrused
          · exact ⟨_, by rw [if_pos hall]⟩
          · -- the round reads a block at least, and none behind the last one
            rw [if_neg hall]
            rw [slice, List.length_take, List.length_drop] at hlen
            have hread : loc2 + room_blks ≤ svf.svfNrblks ∧ n - room_blks ≤ rounds := by
              by_cases hlast : pre.length + 1 = svf.svfVfpArrused
              · have hend' := hused hlast
                have hall' : ¬room_blks < n := fun hlt => hall ⟨hlt, hlast⟩
                omega
              · rw [if_neg hlast] at hblks
                omega
            exact ih hread.1 hread.2 _
        · exact ⟨_, by rw [if_pos hlen]⟩
      · have hfind := findvfil_behind h.fitted (Nat.le_of_not_lt hroom)
        simp only [hfind]
        exact ⟨_, rfl⟩

theorem readlocal_returns (h : svf.IsFlat) (crypt_enabled : Bool) (loc n : ℕ) :
    ∃ r, svf.readlocal loc crypt_enabled n = some r := by
  unfold readlocal
  split
  · exact ⟨_, rfl⟩
  · rename_i hloc
    exact readlocalLoop_returns h crypt_enabled (by omega) (Nat.le_refl n) []

/-! ## Writing -/

structure Written (svf svf' : SuSvfil β) (blocks' : List β) : Prop where
  isFlat : svf'.IsFlat
  blocks : svf'.blocks = blocks'
  size : svf'.svfNrblks = svf.svfNrblks
  used : svf.Used → svf'.Used
  cipher : svf'.svfCipher = svf.svfCipher
  blksz : svf'.svfBlksz = svf.svfBlksz
  ranges : svf'.svfVfpArr.map (fun v => (v.vfStartdaddr, v.vfMaxszblks)) =
    svf.svfVfpArr.map fun v => (v.vfStartdaddr, v.vfMaxszblks)
  names : svf'.svfVfpArr.map Vfil.vfFname = svf.svfVfpArr.map Vfil.vfFname

theorem Written.refl (h : svf.IsFlat) : Written svf svf svf.blocks :=
  ⟨h, rfl, rfl, id, rfl, rfl, rfl, rfl⟩

theorem Written.trans {svf'' : SuSvfil β} {blocks' blocks'' : List β}
    (h : Written svf svf' blocks') (h' : Written svf' svf'' blocks'') :
    Written svf svf'' blocks'' :=
  ⟨h'.isFlat, h'.blocks, h'.size.trans h.size, fun hused => h'.used (h.used hused),
    h'.cipher.trans h.cipher, h'.blksz.trans h.blksz, h'.ranges.trans h.ranges,
    h'.names.trans h.names⟩

variable [Zero β]

theorem writefile_written (h : svf.IsFlat) (hv : svf.Holds loc2 pre v post)
    (hn : loc2 + chunk.length ≤ v.vfStartdaddr + v.vfSzblks) :
    Written svf (svf.writefile pre.length v (loc2 - v.vfStartdaddr) chunk)
      (overwrite svf.blocks loc2 chunk) := by
  have hlow := hv.low
  have hpages := hv.pages
  have hlen := hv.length_blocks
  generalize hw : ({ v with vfPages := overwrite v.vfPages (loc2 - v.vfStartdaddr) chunk } :
    Vfil β) = w
  have hbeyond : ssBWritePages v.vfPages (loc2 - v.vfStartdaddr) chunk =
      overwrite v.vfPages (loc2 - v.vfStartdaddr) chunk := by
    rw [ssBWritePages, Nat.sub_eq_zero_of_le (by omega), List.replicate_zero, List.append_nil]
  have hwritten : svf.writefile pre.length v (loc2 - v.vfStartdaddr) chunk =
      { svf with svfVfpArr := pre ++ w :: post } := by
    rw [writefile, hbeyond, hw, hv.arr, set_middle]
  have hwlen : w.vfPages.length = v.vfPages.length := by
    rw [← hw]
    exact length_overwrite (by omega)
  have hwblocks : w.blocks = overwrite v.blocks (loc2 - v.vfStartdaddr) chunk := by
    have hin : loc2 - v.vfStartdaddr + chunk.length ≤ v.vfSzblks := by omega
    rw [← hw, Vfil.blocks, Vfil.blocks, overwrite_take hin]
  have hfname : w.vfFname = v.vfFname := by rw [← hw]
  have hmax : w.vfMaxszblks = v.vfMaxszblks := by rw [← hw]
  have hstart : w.vfStartdaddr = v.vfStartdaddr := by rw [← hw]
  have hsz : w.vfSzblks = v.vfSzblks := by rw [← hw]
  have hfitted := h.fitted
  rw [hv.arr, fitted_append, fitted_cons] at hfitted
  obtain ⟨hpre, hfits, hpost⟩ := hfitted
  rw [hwritten]
  refine ⟨⟨?_, ?_, ?_, ?_⟩, ?_, rfl, ?_, rfl, rfl, ?_, ?_⟩
  · rw [fitted_append, fitted_cons, hmax]
    refine ⟨hpre, ⟨?_, ?_, ?_, ?_⟩, hpost⟩
    · rw [hstart, hfits.startdaddr]
    · rw [hsz, hmax, hfits.szblks]
    · rw [hsz, hwlen]
      exact hpages
    · rw [hsz, hmax, hwlen]
      exact hfits.exact
  · have hsize := h.size
    rw [hv.arr, svfTotal_append, svfTotal_cons, ← hmax] at hsize
    rw [svfTotal_append, svfTotal_cons]
    exact hsize
  · have hspace := h.space
    rw [hv.arr, svfTotal_append, svfTotal_cons, ← hmax] at hspace
    rw [svfTotal_append, svfTotal_cons]
    exact hspace
  · have hnames := h.names
    rw [hv.arr, List.map_append, List.map_cons, ← hfname] at hnames
    rw [List.map_append, List.map_cons]
    exact hnames
  · have haddr : loc2 = (svfBlocks pre).length + (loc2 - v.vfStartdaddr) := by
      rw [hv.before]
      omega
    have hsplit : svf.blocks = svfBlocks pre ++ v.blocks ++ svfBlocks post := by
      rw [blocks, hv.arr, svfBlocks_append, svfBlocks_cons, List.append_assoc]
    calc svfBlocks (pre ++ w :: post)
        = svfBlocks pre ++ overwrite v.blocks (loc2 - v.vfStartdaddr) chunk ++
            svfBlocks post := by
          rw [svfBlocks_append, svfBlocks_cons, hwblocks, List.append_assoc]
      _ = overwrite svf.blocks ((svfBlocks pre).length + (loc2 - v.vfStartdaddr)) chunk := by
          rw [hsplit, overwrite_append_middle (by omega)]
      _ = overwrite svf.blocks loc2 chunk := by rw [← haddr]
  · intro hused
    unfold Used at hused ⊢
    rw [hv.arr, List.map_append, List.map_cons, ← hsz] at hused
    rw [List.map_append, List.map_cons]
    exact hused
  · rw [hv.arr]
    simp only [List.map_append, List.map_cons, hstart, hmax]
  · rw [hv.arr]
    simp only [List.map_append, List.map_cons, hfname]

variable (loc) in
theorem writelocalLoop_round (h : svf.IsFlat) (hv : svf.Holds loc2 pre v post)
    (hpos : data.length ≠ 0) (rounds : ℕ) :
    let room := min (v.vfStartdaddr + v.vfSzblks - loc2) data.length
    writelocalLoop loc (rounds + 1) loc2 data svf =
      writelocalLoop loc rounds (loc2 + room) (data.drop room)
        (svf.writefile pre.length v (loc2 - v.vfStartdaddr)
          (svf.svfEncrypt loc (data.take room))) := by
  intro room
  have hlow := hv.low
  have hhigh := hv.high
  have hsz := hv.szblks
  have hspace := h.space
  have hend := hv.total
  unfold Vfil.enddaddr at hend
  unfold suDaddrMax at hspace
  have hroom : min (daddrSub v.vfSzblks (loc2 - v.vfStartdaddr)) data.length = room := by
    rw [daddrSub_of_le (by omega) (by omega)]
    omega
  rw [writelocalLoop, if_neg hpos]
  simp only [hv.found, hv.getElem?, hroom]

/-- Without a cipher a write below the size overwrites the blocks of the flat array. -/
theorem writelocalLoop_written (h : svf.IsFlat) (hcipher : svf.svfCipher = none) {rounds : ℕ}
    (hn : loc2 + data.length ≤ svf.svfNrblks) (hrounds : data.length ≤ rounds) :
    ∃ svf', writelocalLoop loc rounds loc2 data svf = some (svf', .success) ∧
      Written svf svf' (overwrite svf.blocks loc2 data) := by
  induction rounds generalizing svf loc2 data with
  | zero =>
      obtain rfl : data = [] := List.length_eq_zero_iff.mp (by omega)
      refine ⟨svf, by rw [writelocalLoop, if_pos List.length_nil], ?_⟩
      rw [overwrite_nil]
      exact Written.refl h
  | succ rounds ih =>
      by_cases hpos : data.length = 0
      · obtain rfl : data = [] := List.length_eq_zero_iff.mp hpos
        refine ⟨svf, by rw [writelocalLoop, if_pos List.length_nil], ?_⟩
        rw [overwrite_nil]
        exact Written.refl h
      · obtain ⟨pre, v, post, hv⟩ := h.holds (show loc2 < svf.svfNrblks by omega)
        have hhigh := hv.high
        rw [writelocalLoop_round loc h hv hpos]
        generalize hroom : min (v.vfStartdaddr + v.vfSzblks - loc2) data.length = room
        have hplain : svf.svfEncrypt loc (data.take room) = data.take room := by
          simp only [svfEncrypt, hcipher]
        have htake : (data.take room).length = room := by
          rw [List.length_take]
          omega
        rw [hplain]
        have hw := writefile_written h hv
          (show loc2 + (data.take room).length ≤ v.vfStartdaddr + v.vfSzblks by omega)
        obtain ⟨svf', hrun, hw'⟩ := ih hw.isFlat (hw.cipher.trans hcipher)
          (show loc2 + room + (data.drop room).length ≤ _ by
            rw [hw.size, List.length_drop]
            omega)
          (show (data.drop room).length ≤ rounds by
            rw [List.length_drop]
            omega)
        refine ⟨svf', hrun, ?_⟩
        have hlen := h.length_blocks
        have hjoin : overwrite (overwrite svf.blocks loc2 (data.take room)) (loc2 + room)
            (data.drop room) = overwrite svf.blocks loc2 data := by
          have hsteps : overwrite (overwrite svf.blocks loc2 (data.take room))
              (loc2 + (data.take room).length) (data.drop room) =
                overwrite svf.blocks loc2 (data.take room ++ data.drop room) :=
            overwrite_overwrite (by omega)
          rwa [htake, List.take_append_drop] at hsteps
        rw [hw.blocks, hjoin] at hw'
        exact hw.trans hw'

end SuSvfil

end SolidDB
