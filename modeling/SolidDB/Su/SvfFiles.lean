import Mathlib.Data.List.Induction
import Mathlib.Data.List.Nodup
import SolidDB.Su.SvfFlat

/-!
# The files of a split virtual file

A file with blocks is added behind the last block, which the files before it are fitted to.
Shrinking empties the files behind the new end.
-/

namespace SolidDB

open BlockArray

structure SvfFile (β : Type*) where
  fname : String
  blocksize : ℕ
  pages : List β

namespace SuSvfil

variable {β : Type*} {svf svf' : SuSvfil β} {v u : Vfil β} {arr pre post kept : List (Vfil β)}
  {nr nr' d : ℕ}

theorem eq_nil_or_append {α : Type*} (l : List α) : l = [] ∨ ∃ pre x, l = pre ++ [x] := by
  rcases List.eq_nil_or_concat l with h | ⟨pre, x, h⟩
  · exact .inl h
  · exact .inr ⟨pre, x, by rw [h, List.concat_eq_append]⟩

theorem fitted_singleton (start : ℕ) : Fitted nr start [v] ↔ v.Fits nr start := by
  rw [fitted_cons, and_iff_left (fitted_nil)]

theorem svfTotal_singleton : svfTotal [v] = v.vfMaxszblks := by
  rw [svfTotal_cons, svfTotal_nil, Nat.add_zero]

theorem svfBlocks_singleton : svfBlocks [v] = v.blocks := by
  rw [svfBlocks_cons, svfBlocks_nil, List.append_nil]

theorem getLast_enddaddr (h : Fitted nr 0 arr) :
    (arr.getLast?.map Vfil.enddaddr).getD 0 = svfTotal arr := by
  rcases eq_nil_or_append arr with rfl | ⟨pre, v, rfl⟩
  · rfl
  · have hfits := (fitted_append.mp h).2.1
    rw [List.getLast?_concat, Option.map_some, Option.getD_some, hfits.enddaddr,
      svfTotal_append, svfTotal_singleton, Nat.zero_add]

/-! ## Adding a file -/

def svfFiles (blksz : ℕ) (arr : List (Vfil β)) : List (SvfFile β) :=
  (arr.filter fun v => 0 < v.vfSzblks).map fun v => ⟨v.vfFname, blksz, v.blocks⟩

@[simp] theorem svfFiles_nil (blksz : ℕ) : svfFiles blksz ([] : List (Vfil β)) = [] := rfl

theorem svfFiles_append (blksz : ℕ) :
    svfFiles blksz (pre ++ post) = svfFiles blksz pre ++ svfFiles blksz post := by
  rw [svfFiles, List.filter_append, List.map_append]
  rfl

theorem svfFiles_cons_of_pos {blksz : ℕ} (h : 0 < v.vfSzblks) :
    svfFiles blksz (v :: arr) = ⟨v.vfFname, blksz, v.blocks⟩ :: svfFiles blksz arr := by
  have hdec : decide (0 < v.vfSzblks) = true := decide_eq_true h
  rw [svfFiles, List.filter_cons, if_pos hdec, List.map_cons]
  rfl

theorem svfFiles_cons_of_eq_zero {blksz : ℕ} (h : v.vfSzblks = 0) :
    svfFiles blksz (v :: arr) = svfFiles blksz arr := by
  have hdec : ¬decide (0 < v.vfSzblks) = true := by
    rw [h]
    decide
  rw [svfFiles, List.filter_cons, if_neg hdec]
  rfl

structure Kept (nr : ℕ) (arr kept : List (Vfil β)) : Prop where
  fitted : Fitted nr 0 kept
  total : svfTotal kept = nr
  blocks : svfBlocks kept = svfBlocks arr
  names : (kept.map Vfil.vfFname).Sublist (arr.map Vfil.vfFname)
  sizes : ∃ rest, arr.map Vfil.vfSzblks = kept.map Vfil.vfSzblks ++ rest
  last : ∀ n ∈ (kept.map Vfil.vfSzblks).getLast?, n ≠ 0
  files : ∀ blksz, svfFiles blksz kept = svfFiles blksz arr
  max : (∀ u ∈ arr, 0 < u.vfMaxszblks) → ∀ u ∈ kept, 0 < u.vfMaxszblks

/-- Preceding files without blocks are removed, and the last one with blocks ends with them. -/
theorem refitPreceding_kept (h : Fitted nr 0 arr) (hsize : nr ≤ svfTotal arr) (v : Vfil β) :
    ∃ kept, refitPreceding arr.reverse v = (kept.reverse, { v with vfStartdaddr := nr }) ∧
      Kept nr arr kept := by
  induction arr using List.reverseRecOn with
  | nil =>
      obtain rfl : nr = 0 := Nat.le_zero.mp hsize
      exact ⟨[], rfl, trivial, rfl, rfl, List.Sublist.refl _, ⟨[], rfl⟩, by simp, fun _ => rfl,
        fun h => h⟩
  | append_singleton pre u ih =>
      obtain ⟨hpre, hfits⟩ := fitted_append.mp h
      rw [fitted_singleton, Nat.zero_add] at hfits
      have hsz := hfits.szblks
      have hstart := hfits.startdaddr
      rw [svfTotal_append, svfTotal_singleton] at hsize
      rw [List.reverse_append, List.reverse_singleton, List.singleton_append, refitPreceding]
      by_cases hzero : u.vfSzblks = 0
      · rw [if_pos hzero]
        obtain ⟨kept, hrefit, hkept⟩ := ih hpre (by omega)
        refine ⟨kept, hrefit, hkept.fitted, hkept.total, ?_, ?_, ?_, hkept.last, ?_, ?_⟩
        · rw [svfBlocks_append, svfBlocks_singleton, Vfil.blocks, hzero, List.take_zero,
            List.append_nil, hkept.blocks]
        · rw [List.map_append]
          exact hkept.names.trans (List.sublist_append_left _ _)
        · obtain ⟨rest, hrest⟩ := hkept.sizes
          exact ⟨rest ++ [u].map Vfil.vfSzblks, by
            rw [List.map_append, hrest, List.append_assoc]⟩
        · intro blksz
          rw [svfFiles_append, svfFiles_cons_of_eq_zero hzero, svfFiles_nil, List.append_nil,
            hkept.files]
        · intro hmax
          exact hkept.max fun u hu => hmax u (List.mem_append_left _ hu)
      · rw [if_neg hzero]
        refine ⟨pre ++ [{ u with vfMaxszblks := u.vfSzblks }], ?_, ?_, ?_, ?_, ?_, ⟨[], ?_⟩, ?_,
          ?_, ?_⟩
        · have hend : u.vfSzblks + u.vfStartdaddr = nr := by omega
          rw [List.reverse_append, List.reverse_singleton, List.singleton_append, hend]
        · rw [fitted_append, fitted_singleton, Nat.zero_add]
          refine ⟨hpre, hstart, ?_, hfits.pages, fun hlt => absurd hlt (Nat.lt_irrefl _)⟩
          dsimp only
          omega
        · rw [svfTotal_append, svfTotal_singleton]
          dsimp only
          omega
        · rw [svfBlocks_append, svfBlocks_append, svfBlocks_singleton, svfBlocks_singleton]
          rfl
        · rw [List.map_append, List.map_append]
          exact List.Sublist.refl _
        · rw [List.map_append, List.map_append, List.append_nil]
          rfl
        · intro n hn
          rw [List.map_append, List.map_singleton, List.getLast?_concat] at hn
          obtain rfl := Option.mem_some_iff.mp hn
          exact hzero
        · intro blksz
          have hpos := Nat.pos_of_ne_zero hzero
          have hcut : svfFiles blksz [({ u with vfMaxszblks := u.vfSzblks } : Vfil β)] =
              [⟨u.vfFname, blksz, u.blocks⟩] := svfFiles_cons_of_pos hpos
          rw [svfFiles_append, svfFiles_append, svfFiles_cons_of_pos hpos, hcut]
          rfl
        · intro hmax w hw
          rcases List.mem_append.mp hw with hmem | hmem
          · exact hmax w (List.mem_append_left _ hmem)
          · rw [List.mem_singleton.mp hmem]
            exact Nat.pos_of_ne_zero hzero

theorem Kept.length_le (hkept : Kept svf.svfNrblks svf.svfVfpArr kept) (hused : svf.Used) :
    kept.length ≤ svf.svfVfpArrused := by
  by_contra hlt
  rcases eq_nil_or_append kept with rfl | ⟨pre, u, rfl⟩
  · exact hlt (Nat.zero_le _)
  · obtain ⟨rest, hrest⟩ := hkept.sizes
    rw [List.length_append, List.length_singleton] at hlt
    rw [List.map_append, List.map_singleton] at hrest
    refine hkept.last u.vfSzblks ?_ (hused _ ?_)
    · rw [List.map_append, List.map_singleton, List.getLast?_concat]
      exact rfl
    · rw [hrest, List.append_assoc, List.drop_append_of_le_length
        (by rw [List.length_map]; omega)]
      exact List.mem_append_right _ (List.mem_append_left _ List.mem_cons_self)

def addedBlocks (pages : List β) (maxsize blksz : ℕ) (rc : SvfRet) : List β :=
  if rc = .success then pages.take (maxsize / blksz) else []

/-- The blocks that can be written behind the end. A file that brings blocks ends the address
range of the file before it, so that only its own room counts; an empty file adds its room. -/
def addedRoom (room maxblks : ℕ) (new : List β) (rc : SvfRet) : ℕ :=
  if rc = .success then if new = [] then room + maxblks else maxblks - new.length else room

structure Added (svf svf' : SuSvfil β) (new : List β) (room : ℕ) : Prop where
  isFlat : svf'.IsFlat
  blocks : svf'.blocks = svf.blocks ++ new
  room : svf'.room = room
  used : svf.Used → svf'.Used
  cipher : svf'.svfCipher = svf.svfCipher
  blksz : svf'.svfBlksz = svf.svfBlksz

theorem Added.refl (h : svf.IsFlat) : Added svf svf [] svf.room :=
  ⟨h, (List.append_nil _).symm, rfl, id, rfl, rfl⟩

theorem Vfil.blocks_init (pathname : String) (pages : List β) (maxsize blksz start : ℕ) :
    (Vfil.init pathname pages maxsize blksz start).blocks = pages.take (maxsize / blksz) := by
  simp only [Vfil.blocks, Vfil.init]
  rcases Nat.le_total pages.length (maxsize / blksz) with hle | hle
  · rw [Nat.min_eq_left hle, List.take_length, List.take_of_length_le hle]
  · rw [Nat.min_eq_right hle]

theorem addfile_added (h : svf.IsFlat) (pathname : String) (pages : List β) (maxsize : ℕ) :
    let rc := (svf.addfile pathname pages maxsize).2
    let new := addedBlocks pages maxsize svf.svfBlksz rc
    Added svf (svf.addfile pathname pages maxsize).1 new
      (addedRoom svf.room (maxsize / svf.svfBlksz) new rc) := by
  intro rc new
  unfold new rc addfile
  by_cases hname : pathname ∈ svf.svfVfpArr.map Vfil.vfFname
  · rw [if_pos hname]
    exact Added.refl h
  rw [if_neg hname, getLast_enddaddr h.fitted]
  dsimp only
  by_cases hroom : (suDaddrMax - svfTotal svf.svfVfpArr) * svf.svfBlksz < maxsize
  · rw [if_pos hroom]
    exact Added.refl h
  rw [if_neg hroom]
  have hspace := h.space
  have hmax : maxsize / svf.svfBlksz ≤ suDaddrMax - svfTotal svf.svfVfpArr :=
    Nat.div_le_of_le_mul (by rw [Nat.mul_comm]; omega)
  have hblocks := Vfil.blocks_init pathname pages maxsize svf.svfBlksz (svfTotal svf.svfVfpArr)
  generalize hv : Vfil.init pathname pages maxsize svf.svfBlksz (svfTotal svf.svfVfpArr) = v
  rw [hv] at hblocks
  have hvfname : v.vfFname = pathname := by rw [← hv]; rfl
  have hvmax : v.vfMaxszblks = maxsize / svf.svfBlksz := by rw [← hv]; rfl
  have hvstart : v.vfStartdaddr = svfTotal svf.svfVfpArr := by rw [← hv]; rfl
  have hvsz : v.vfSzblks = min v.vfPages.length v.vfMaxszblks := by rw [← hv]; rfl
  by_cases hpos : 0 < v.vfSzblks
  · -- the file has blocks, which stand behind the last block
    rw [if_pos hpos]
    obtain ⟨kept, hrefit, hkept⟩ := refitPreceding_kept h.fitted h.size v
    rw [hrefit, List.reverse_reverse]
    have htotal := hkept.total
    have hsize := h.size
    have hnew : (pages.take (maxsize / svf.svfBlksz)).length = v.vfSzblks := by
      rw [← hblocks, Vfil.blocks, List.length_take]
      omega
    have hne : pages.take (maxsize / svf.svfBlksz) ≠ [] := by
      rw [ne_eq, ← List.length_eq_zero_iff]
      omega
    refine ⟨⟨?_, ?_, ?_, ?_⟩, ?_, ?_, ?_, rfl, rfl⟩
    · rw [fitted_append, fitted_singleton, Nat.zero_add]
      refine ⟨hkept.fitted.of_full (by omega) (by dsimp only; omega), htotal.symm, ?_, ?_, ?_⟩
      · dsimp only
        omega
      · dsimp only
        omega
      · dsimp only
        omega
    · rw [svfTotal_append, svfTotal_singleton]
      dsimp only
      omega
    · rw [svfTotal_append, svfTotal_singleton]
      dsimp only
      omega
    · rw [List.map_append, List.map_singleton]
      refine List.nodup_append.mpr ⟨h.names.sublist hkept.names, List.nodup_singleton _, ?_⟩
      rintro x hx y hy rfl
      rw [List.mem_singleton.mp hy, hvfname] at hx
      exact hname (hkept.names.mem hx)
    · rw [blocks, svfBlocks_append, svfBlocks_singleton, hkept.blocks, addedBlocks, if_pos rfl,
        ← hblocks]
      rfl
    · rw [addedRoom, if_pos rfl, addedBlocks, if_pos rfl, if_neg hne, hnew, room,
        svfTotal_append, svfTotal_singleton]
      dsimp only
      omega
    · intro hused
      have hlen := hkept.length_le hused
      refine used_of_append (List.append_nil _).symm (fun u hu => absurd hu List.not_mem_nil) ?_
      rw [List.length_append, List.length_singleton]
      exact Nat.succ_le_succ hlen
  · rw [if_neg hpos]
    have hsize := h.size
    have hfits : v.Fits svf.svfNrblks (svfTotal svf.svfVfpArr) :=
      ⟨hvstart, by omega, by omega, by omega⟩
    have hnil : pages.take (maxsize / svf.svfBlksz) = [] := by
      rw [← hblocks, Vfil.blocks, Nat.eq_zero_of_not_pos hpos, List.take_zero]
    refine ⟨⟨?_, ?_, ?_, ?_⟩, ?_, ?_, ?_, rfl, rfl⟩
    · rw [fitted_append, fitted_singleton, Nat.zero_add]
      exact ⟨h.fitted, hfits⟩
    · rw [svfTotal_append]
      exact Nat.le_add_right_of_le hsize
    · rw [svfTotal_append, svfTotal_singleton]
      omega
    · rw [List.map_append, List.map_singleton]
      refine List.nodup_append.mpr ⟨h.names, List.nodup_singleton _, ?_⟩
      rintro x hx y hy rfl
      rw [List.mem_singleton.mp hy, hvfname] at hx
      exact hname hx
    · rw [blocks, svfBlocks_append, svfBlocks_singleton, hblocks, addedBlocks, if_pos rfl]
      rfl
    · rw [addedRoom, if_pos rfl, addedBlocks, if_pos rfl, if_pos hnil, room, room,
        svfTotal_append, svfTotal_singleton]
      dsimp only
      omega
    · intro hused n hn
      rw [List.map_append, List.map_singleton, List.drop_append] at hn
      rcases List.mem_append.mp hn with hmem | hmem
      · exact hused n hmem
      · rw [List.mem_singleton.mp (List.mem_of_mem_drop hmem)]
        exact Nat.eq_zero_of_not_pos hpos

/-! ## Removing the last file -/

/-- The last file has no blocks, or it counts as used and stays. -/
def LastUnused (svf : SuSvfil β) : Prop :=
  svf.svfVfpArr.length < svf.svfVfpArrused →
    ∀ n ∈ (svf.svfVfpArr.map Vfil.vfSzblks).getLast?, n = 0

instance (svf : SuSvfil β) : Decidable svf.LastUnused :=
  inferInstanceAs (Decidable (svf.svfVfpArr.length < svf.svfVfpArrused →
    ∀ n ∈ (svf.svfVfpArr.map Vfil.vfSzblks).getLast?, n = 0))

theorem removelastfile_added (h : svf.IsFlat) (hused : svf.Used) (hlast : svf.LastUnused) :
    ∃ room ≤ svf.room, Added svf svf.removelastfile.1 [] room := by
  unfold removelastfile
  by_cases hzero : svf.svfVfpArr.length = 0
  · rw [if_pos hzero]
    exact ⟨svf.room, Nat.le_refl _, Added.refl h⟩
  rw [if_neg hzero]
  by_cases hall : svf.svfVfpArr.length = svf.svfVfpArrused
  · rw [if_pos hall]
    exact ⟨svf.room, Nat.le_refl _, Added.refl h⟩
  rw [if_neg hall]
  rcases eq_nil_or_append svf.svfVfpArr with hnil | ⟨pre, u, harr⟩
  · rw [hnil] at hzero
    exact absurd rfl hzero
  have hu : u.vfSzblks = 0 := by
    by_cases hlt : svf.svfVfpArr.length < svf.svfVfpArrused
    · refine hlast hlt u.vfSzblks ?_
      rw [harr, List.map_append, List.map_singleton, List.getLast?_concat]
      exact rfl
    · refine hused u.vfSzblks ?_
      rw [harr, List.length_append, List.length_singleton] at hlt hall
      rw [harr, List.map_append, List.map_singleton, List.drop_append_of_le_length
        (by rw [List.length_map]; omega)]
      exact List.mem_append_right _ List.mem_cons_self
  have hfitted := h.fitted
  have hsize := h.size
  have hspace := h.space
  have hnames := h.names
  rw [harr, fitted_append, fitted_singleton, Nat.zero_add] at hfitted
  rw [harr, svfTotal_append, svfTotal_singleton] at hsize hspace
  rw [harr, List.map_append] at hnames
  have hsz := hfitted.2.szblks
  rw [harr, List.dropLast_concat]
  refine ⟨_, ?_, ⟨hfitted.1, ?_, by dsimp only; omega, (List.nodup_append.mp hnames).1⟩, ?_,
    rfl, ?_, rfl, rfl⟩
  · rw [room, room, harr, svfTotal_append, svfTotal_singleton]
    dsimp only
    omega
  · dsimp only
    omega
  · rw [blocks, blocks, harr, svfBlocks_append, svfBlocks_singleton, Vfil.blocks, hu,
      List.take_zero]
    dsimp only
    rw [List.append_nil, List.append_nil]
  · intro _ n hn
    refine hused n ?_
    rw [harr, List.map_append, List.drop_append]
    exact List.mem_append_left _ hn

/-! ## Shrinking -/

def ranges (arr : List (Vfil β)) : List (ℕ × ℕ) :=
  arr.map fun v => (v.vfStartdaddr, v.vfMaxszblks)

theorem szblks_ranges (h : Fitted nr d arr) :
    arr.map Vfil.vfSzblks = (ranges arr).map fun r => min r.2 (nr - r.1) := by
  induction arr generalizing d with
  | nil => rfl
  | cons v arr ih =>
      have hsz := h.1.szblks
      have hstart := h.1.startdaddr
      rw [ranges, List.map_cons, List.map_cons, List.map_cons, ih h.2, ranges, hstart, hsz]

theorem svfTotal_ranges (arr : List (Vfil β)) :
    svfTotal arr = ((ranges arr).map Prod.snd).sum := by
  rw [svfTotal, ranges, List.map_map]
  rfl

variable [Zero β]

/-- The files are cut at an address that is not behind the last block. -/
theorem decreaseTail_fitted (h : Fitted nr 0 arr) (hd : d ≤ nr) (hsize : d ≤ svfTotal arr) :
    ∃ arr', decreaseTail d arr.reverse = arr'.reverse ∧ Fitted d 0 arr' ∧
      svfBlocks arr' = (svfBlocks arr).take d ∧ ranges arr' = ranges arr ∧
      arr'.map Vfil.vfFname = arr.map Vfil.vfFname := by
  induction arr using List.reverseRecOn with
  | nil => exact ⟨[], rfl, trivial, List.take_nil.symm, rfl, rfl⟩
  | append_singleton pre u ih =>
      obtain ⟨hpre, hfits⟩ := fitted_append.mp h
      rw [fitted_singleton, Nat.zero_add] at hfits
      have hsz := hfits.szblks
      have hstart := hfits.startdaddr
      have hpages := hfits.pages
      have hblocks := hpre.length_blocks
      rw [svfTotal_append, svfTotal_singleton] at hsize
      rw [List.reverse_append, List.reverse_singleton, List.singleton_append, decreaseTail]
      have hlow : pre.reverse = [] → svfTotal pre = 0 := by
        intro hnil
        rw [List.reverse_eq_nil_iff.mp hnil]
        rfl
      by_cases hlast : u.vfStartdaddr < d ∨ pre.reverse = []
      · rw [if_pos hlast]
        have hbefore : svfTotal pre ≤ d := by
          rcases hlast with hlt | hnil
          · omega
          · rw [hlow hnil]
            exact Nat.zero_le d
        have hlen : (u.setVfpSize (d - u.vfStartdaddr)).vfPages.length =
            d - u.vfStartdaddr := length_resize
        refine ⟨pre ++ [u.setVfpSize (d - u.vfStartdaddr)], ?_, ?_, ?_, ?_, ?_⟩
        · rw [List.reverse_append, List.reverse_singleton, List.singleton_append]
        · rw [fitted_append, fitted_singleton, Nat.zero_add]
          refine ⟨hpre.of_full (by omega) (by omega), hstart, ?_, Nat.le_of_eq hlen.symm,
            fun _ => hlen⟩
          simp only [Vfil.setVfpSize]
          omega
        · have hcut : (u.setVfpSize (d - u.vfStartdaddr)).blocks =
              u.blocks.take (d - u.vfStartdaddr) := by
            have hle : d - u.vfStartdaddr ≤ u.vfSzblks := by omega
            simp only [Vfil.blocks, Vfil.setVfpSize]
            rw [resize_of_le (hle.trans hpages), List.take_take, List.take_take, Nat.min_self,
              Nat.min_eq_left hle]
          have hlen' : (svfBlocks pre).length = u.vfStartdaddr := by omega
          rw [svfBlocks_append, svfBlocks_append, svfBlocks_singleton, svfBlocks_singleton, hcut,
            List.take_append, List.take_of_length_le (show (svfBlocks pre).length ≤ d by omega),
            hlen']
        · rw [ranges, ranges, List.map_append, List.map_append]
          rfl
        · rw [List.map_append, List.map_append]
          rfl
      · rw [if_neg hlast]
        have hstart' : ¬u.vfStartdaddr < d := fun hlt => hlast (.inl hlt)
        obtain ⟨pre', htail, hfitted, hblocks', hranges, hnames⟩ := ih hpre (by omega)
        have htotal : svfTotal pre' = svfTotal pre := by
          rw [svfTotal_ranges, hranges, ← svfTotal_ranges]
        have hlen : (u.setVfpSize 0).vfPages.length = 0 := length_resize
        refine ⟨pre' ++ [u.setVfpSize 0], ?_, ?_, ?_, ?_, ?_⟩
        · rw [List.reverse_append, List.reverse_singleton, List.singleton_append, htail]
        · rw [fitted_append, fitted_singleton, Nat.zero_add, htotal]
          refine ⟨hfitted, hstart, ?_, Nat.le_of_eq hlen.symm, fun _ => hlen⟩
          simp only [Vfil.setVfpSize]
          omega
        · have hnil : (u.setVfpSize 0).blocks = [] := List.take_zero
          rw [svfBlocks_append, svfBlocks_append, svfBlocks_singleton, hnil, List.append_nil,
            hblocks', List.take_append_of_le_length (by omega)]
        · rw [ranges, ranges, List.map_append, List.map_append, ← ranges, ← ranges, hranges]
          rfl
        · rw [List.map_append, List.map_append, hnames]
          rfl

structure Shrunk (svf svf' : SuSvfil β) (d : ℕ) : Prop where
  isFlat : svf'.IsFlat
  blocks : svf'.blocks = svf.blocks.take d
  size : svf'.svfNrblks = d
  used : svf.Used → svf'.Used
  cipher : svf'.svfCipher = svf.svfCipher
  blksz : svf'.svfBlksz = svf.svfBlksz
  ranges : SuSvfil.ranges svf'.svfVfpArr = SuSvfil.ranges svf.svfVfpArr
  names : svf'.svfVfpArr.map Vfil.vfFname = svf.svfVfpArr.map Vfil.vfFname

/-- Shrinking to a size above 0 succeeds and cuts the flat array. -/
theorem decreasesize_shrunk (h : svf.IsFlat) (hpos : d ≠ 0) (hd : d ≤ svf.svfNrblks) :
    (svf.decreasesize d).2 = .success ∧ Shrunk svf (svf.decreasesize d).1 d := by
  obtain ⟨arr', htail, hfitted, hblocks, hranges, hnames⟩ :=
    decreaseTail_fitted h.fitted hd (hd.trans h.size)
  unfold decreasesize
  rw [if_neg hpos, htail, List.reverse_reverse]
  have htotal : svfTotal arr' = svfTotal svf.svfVfpArr := by
    rw [svfTotal_ranges, hranges, ← svfTotal_ranges]
  refine ⟨rfl, ⟨hfitted, ?_, ?_, ?_⟩, hblocks, rfl, ?_, rfl, rfl, hranges, hnames⟩
  · rw [htotal]
    exact hd.trans h.size
  · rw [htotal]
    exact h.space
  · rw [hnames]
    exact h.names
  · intro hused n hn
    rw [szblks_ranges hfitted, hranges, ← List.map_drop] at hn
    obtain ⟨r, hr, rfl⟩ := List.mem_map.mp hn
    have hzero := hused (min r.2 (svf.svfNrblks - r.1)) (by
      rw [szblks_ranges h.fitted, ← List.map_drop]
      exact List.mem_map_of_mem hr)
    omega

end SuSvfil

end SolidDB
