import Mathlib.Algebra.BigOperators.Group.List.Basic
import Mathlib.Algebra.Order.Group.Nat
import SolidDB.Su.Svf

/-!
# The ranges of a split virtual file

The files have their ranges one behind the other and the blocks fill the files in this order,
so that `su_svf_findvfil` finds the file that has an address in its range.
-/

namespace SolidDB

section

open BlockArray

variable {β : Type*}

/-- The file starts at an address and has as many of the `nrblks` blocks as there is room. -/
structure Vfil.Fits (nrblks start : ℕ) (v : Vfil β) : Prop where
  startdaddr : v.vfStartdaddr = start
  szblks : v.vfSzblks = min v.vfMaxszblks (nrblks - start)
  pages : v.vfSzblks ≤ v.vfPages.length
  exact : v.vfSzblks < v.vfMaxszblks → v.vfPages.length = v.vfSzblks

def svfTotal (arr : List (Vfil β)) : ℕ := (arr.map Vfil.vfMaxszblks).sum

def svfBlocks (arr : List (Vfil β)) : List β := arr.flatMap Vfil.blocks

def Fitted (nrblks : ℕ) : ℕ → List (Vfil β) → Prop
  | _, [] => True
  | start, v :: rest => v.Fits nrblks start ∧ Fitted nrblks (start + v.vfMaxszblks) rest

variable {nr start addr : ℕ} {v u : Vfil β} {arr pre post : List (Vfil β)}

@[simp] theorem svfTotal_nil : svfTotal ([] : List (Vfil β)) = 0 := rfl

@[simp] theorem svfTotal_cons : svfTotal (v :: arr) = v.vfMaxszblks + svfTotal arr := by
  simp [svfTotal]

@[simp] theorem svfTotal_append : svfTotal (pre ++ post) = svfTotal pre + svfTotal post := by
  simp [svfTotal]

@[simp] theorem svfBlocks_nil : svfBlocks ([] : List (Vfil β)) = [] := rfl

@[simp] theorem svfBlocks_cons : svfBlocks (v :: arr) = v.blocks ++ svfBlocks arr := by
  simp [svfBlocks]

@[simp] theorem svfBlocks_append :
    svfBlocks (pre ++ post) = svfBlocks pre ++ svfBlocks post := by
  simp [svfBlocks]

@[simp] theorem fitted_nil : Fitted nr start ([] : List (Vfil β)) := trivial

@[simp] theorem fitted_cons :
    Fitted nr start (v :: arr) ↔ v.Fits nr start ∧ Fitted nr (start + v.vfMaxszblks) arr :=
  Iff.rfl

theorem fitted_append :
    Fitted nr start (pre ++ post) ↔
      Fitted nr start pre ∧ Fitted nr (start + svfTotal pre) post := by
  induction pre generalizing start with
  | nil => simp
  | cons v pre ih =>
      rw [List.cons_append, fitted_cons, fitted_cons, ih, svfTotal_cons, and_assoc,
        Nat.add_assoc]

theorem Vfil.Fits.enddaddr (h : v.Fits nr start) : v.enddaddr = start + v.vfMaxszblks := by
  rw [Vfil.enddaddr, h.startdaddr]

theorem Vfil.Fits.length_blocks (h : v.Fits nr start) : v.blocks.length = v.vfSzblks := by
  rw [Vfil.blocks, List.length_take, Nat.min_eq_left h.pages]

theorem Fitted.length_blocks (h : Fitted nr start arr) :
    (svfBlocks arr).length = min (svfTotal arr) (nr - start) := by
  induction arr generalizing start with
  | nil => simp
  | cons v arr ih =>
      have hsz := h.1.szblks
      rw [svfBlocks_cons, List.length_append, h.1.length_blocks, ih h.2, svfTotal_cons]
      omega

theorem Fitted.mem_range (h : Fitted nr start arr) (hv : v ∈ arr) :
    start ≤ v.vfStartdaddr ∧ v.enddaddr ≤ start + svfTotal arr := by
  obtain ⟨pre, post, rfl⟩ := List.append_of_mem hv
  have hfits := (fitted_append.mp h).2.1
  rw [hfits.startdaddr, hfits.enddaddr, svfTotal_append, svfTotal_cons]
  omega

theorem Fitted.exists_file (h : Fitted nr start arr) (hlow : start ≤ addr)
    (hhigh : addr < start + svfTotal arr) :
    ∃ pre v post, arr = pre ++ v :: post ∧ v.vfStartdaddr ≤ addr ∧ addr < v.enddaddr := by
  induction arr generalizing start with
  | nil =>
      rw [svfTotal_nil] at hhigh
      omega
  | cons v arr ih =>
      rw [svfTotal_cons] at hhigh
      by_cases hv : addr < start + v.vfMaxszblks
      · refine ⟨[], v, arr, rfl, ?_, ?_⟩
        · rw [h.1.startdaddr]
          exact hlow
        · rw [h.1.enddaddr]
          exact hv
      · obtain ⟨pre, w, post, harr, hw⟩ := ih h.2 (by omega) (by omega)
        exact ⟨v :: pre, w, post, by rw [harr, List.cons_append], hw⟩

theorem getElem?_middle {α : Type*} (pre post : List α) (x : α) :
    (pre ++ x :: post)[pre.length]? = some x := by
  rw [List.getElem?_append_right (Nat.le_refl _), Nat.sub_self, List.getElem?_cons_zero]

/-- A key before all elements behind the middle and behind all others is found there. -/
theorem suBsearch_middle {α : Type*} (cmp : α → Ordering) (pre post : List α) (x : α)
    (hx : cmp x = .eq) (hpre : ∀ y ∈ pre, cmp y = .gt) (hpost : ∀ y ∈ post, cmp y = .lt) :
    suBsearch (fun i => ((pre ++ x :: post)[i]?.map cmp).getD .lt)
      (pre ++ x :: post).length = (true, pre.length) := by
  refine suBsearch_found ?_ ?_ ?_ ?_
  · rw [List.length_append, List.length_cons]
    omega
  · rw [getElem?_middle]
    exact hx
  · intro i hi
    rw [List.getElem?_append_left hi, List.getElem?_eq_getElem hi]
    exact hpre _ (List.getElem_mem hi)
  · intro i hi hlen
    obtain ⟨j, rfl⟩ : ∃ j, i = pre.length + (j + 1) := ⟨i - pre.length - 1, by omega⟩
    have hj : j < post.length := by
      rw [List.length_append, List.length_cons] at hlen
      omega
    rw [List.getElem?_append_right (by omega), Nat.add_sub_cancel_left,
      List.getElem?_cons_succ, List.getElem?_eq_getElem hj]
    exact hpost _ (List.getElem_mem hj)

namespace SuSvfil

variable {svf : SuSvfil β}

/-- `su_svf_findvfil` finds the file that has the address in its range. -/
theorem findvfil_eq (h : Fitted nr start svf.svfVfpArr) (harr : svf.svfVfpArr = pre ++ v :: post)
    (hlow : v.vfStartdaddr ≤ addr) (hhigh : addr < v.enddaddr) :
    svf.findvfil addr = .ok pre.length := by
  rw [harr, fitted_append] at h
  obtain ⟨hpre, hfits, hpost⟩ := h
  have hfound := suBsearch_middle (Vfil.cmp addr) pre post v
    (by rw [Vfil.cmp, if_neg (by omega), if_neg (by omega)])
    (fun u hu => by
      have hrange := hpre.mem_range hu
      have hend : u.enddaddr ≤ addr := by
        rw [hfits.startdaddr] at hlow
        omega
      have hstart : u.vfStartdaddr ≤ u.enddaddr := Nat.le_add_right _ _
      rw [Vfil.cmp, if_neg (by omega), if_pos hend])
    (fun u hu => by
      have hrange := hpost.mem_range hu
      rw [hfits.enddaddr] at hhigh
      rw [Vfil.cmp, if_pos (by omega)])
  rw [findvfil, harr, hfound]
  rfl

theorem findvfil_behind (h : Fitted nr 0 svf.svfVfpArr) (haddr : svfTotal svf.svfVfpArr ≤ addr) :
    svf.findvfil addr = .error .fileWriteCfgExceeded := by
  have hend : ∀ u ∈ svf.svfVfpArr, u.enddaddr ≤ addr := fun u hu => by
    have hrange := h.mem_range hu
    omega
  have hfound : suBsearch (fun i => (svf.svfVfpArr[i]?.map (Vfil.cmp addr)).getD .lt)
      svf.svfVfpArr.length = (false, svf.svfVfpArr.length) := by
    refine suBsearch_behind fun i hi => ?_
    have hu := hend _ (List.getElem_mem hi)
    have hstart : svf.svfVfpArr[i].vfStartdaddr ≤ svf.svfVfpArr[i].enddaddr :=
      Nat.le_add_right _ _
    rw [List.getElem?_eq_getElem hi, Option.map_some, Option.getD_some, Vfil.cmp,
      if_neg (by omega), if_pos hu]
  rw [findvfil, hfound]
  simp only [Bool.false_eq_true, if_false]
  cases hlen : svf.svfVfpArr.length with
  | zero => rfl
  | succ i =>
      have hi : i < svf.svfVfpArr.length := by omega
      have hu := hend _ (List.getElem_mem hi)
      simp only [List.getElem?_eq_getElem hi, Option.map_some, Option.getD_some]
      rw [if_neg (by omega)]

end SuSvfil

end

/-!
## Flat split virtual files

The blocks of the files in order are one block array. What lies behind the last block of it
has no blocks, what lies before is full.
-/

section

open BlockArray

variable {β : Type*} {nr nr' start start' : ℕ} {v u : Vfil β} {arr pre post : List (Vfil β)}

/-! ## Full files and files without blocks -/

theorem Fitted.full (h : Fitted nr start arr) (hfull : start + svfTotal arr ≤ nr) (hv : v ∈ arr) :
    v.vfSzblks = v.vfMaxszblks := by
  obtain ⟨pre, post, rfl⟩ := List.append_of_mem hv
  have hsz := (fitted_append.mp h).2.1.szblks
  rw [svfTotal_append, svfTotal_cons] at hfull
  omega

theorem Fitted.empty (h : Fitted nr start arr) (hempty : nr ≤ start) (hv : v ∈ arr) :
    v.vfSzblks = 0 := by
  obtain ⟨pre, post, rfl⟩ := List.append_of_mem hv
  have hsz := (fitted_append.mp h).2.1.szblks
  omega

theorem Fitted.of_full (h : Fitted nr start arr) (hfull : start + svfTotal arr ≤ nr)
    (hfull' : start + svfTotal arr ≤ nr') : Fitted nr' start arr := by
  induction arr generalizing start with
  | nil => trivial
  | cons v arr ih =>
      have hsz := h.1.szblks
      rw [svfTotal_cons] at hfull hfull'
      refine ⟨⟨h.1.startdaddr, ?_, h.1.pages, h.1.exact⟩, ih h.2 (by omega) (by omega)⟩
      omega

theorem Fitted.rangesFrom (h : Fitted nr start arr) (hempty : nr ≤ start) (hempty' : nr' ≤ start') :
    Fitted nr' start' (SuSvfil.rangesFrom start' arr) := by
  induction arr generalizing start start' with
  | nil => trivial
  | cons v arr ih =>
      have hsz := h.1.szblks
      have hexact := h.1.exact
      refine ⟨⟨rfl, ?_, h.1.pages, h.1.exact⟩, ih h.2 (by omega) (by omega)⟩
      dsimp only
      omega

theorem Fitted.rangesFrom_eq (h : Fitted nr start arr) : SuSvfil.rangesFrom start arr = arr := by
  induction arr generalizing start with
  | nil => rfl
  | cons v arr ih =>
      rw [SuSvfil.rangesFrom, ih h.2, ← h.1.startdaddr]

theorem Fitted.blocks_eq_nil (h : Fitted nr start arr) (hempty : nr ≤ start) :
    svfBlocks arr = [] := by
  rw [← List.length_eq_zero_iff, h.length_blocks]
  omega

theorem map_rangesFrom {γ : Type*} (f : Vfil β → γ)
    (hf : ∀ v start, f { v with vfStartdaddr := start } = f v) (start : ℕ)
    (arr : List (Vfil β)) : (SuSvfil.rangesFrom start arr).map f = arr.map f := by
  induction arr generalizing start with
  | nil => rfl
  | cons v arr ih =>
      rw [SuSvfil.rangesFrom, List.map_cons, List.map_cons, ih, hf]

@[simp] theorem svfTotal_rangesFrom :
    svfTotal (SuSvfil.rangesFrom start arr) = svfTotal arr := by
  unfold svfTotal
  rw [map_rangesFrom Vfil.vfMaxszblks fun _ _ => rfl]

@[simp] theorem svfBlocks_rangesFrom :
    svfBlocks (SuSvfil.rangesFrom start arr) = svfBlocks arr := by
  unfold svfBlocks
  rw [List.flatMap_def, List.flatMap_def, map_rangesFrom Vfil.blocks fun _ _ => rfl]

/-! ## The file that the next block belongs to -/

structure Fitted.Ends (nr : ℕ) (pre : List (Vfil β)) (v : Vfil β) (post : List (Vfil β)) :
    Prop where
  before : Fitted nr 0 pre
  full : svfTotal pre ≤ nr
  startdaddr : v.vfStartdaddr = svfTotal pre
  szblks : v.vfSzblks = nr - v.vfStartdaddr
  room : nr < v.enddaddr
  length : v.vfPages.length = v.vfSzblks
  behind : Fitted nr v.enddaddr post

theorem Fitted.ends (h : Fitted nr 0 (pre ++ v :: post)) (hlow : v.vfStartdaddr ≤ nr)
    (hhigh : nr < v.enddaddr) : Fitted.Ends nr pre v post := by
  obtain ⟨hpre, hfits, hpost⟩ := fitted_append.mp h
  rw [Nat.zero_add] at hfits hpost
  have hend := hfits.enddaddr
  have hstart := hfits.startdaddr
  have hsz := hfits.szblks
  refine ⟨hpre, by omega, hstart, by omega, hhigh, hfits.exact (by omega), ?_⟩
  rw [hend]
  exact hpost

theorem Fitted.Ends.blocks (h : Fitted.Ends nr pre v post) : v.blocks = v.vfPages := by
  rw [Vfil.blocks, List.take_of_length_le (Nat.le_of_eq h.length)]

theorem Fitted.Ends.blocks_append (h : Fitted.Ends nr pre v post) :
    svfBlocks (pre ++ v :: post) = svfBlocks pre ++ v.vfPages := by
  have hroom := h.room
  rw [svfBlocks_append, svfBlocks_cons, h.blocks, h.behind.blocks_eq_nil (Nat.le_of_lt hroom),
    List.append_nil]

theorem Fitted.Ends.fitted (h : Fitted.Ends nr pre v post) {w : Vfil β}
    (hstart : w.vfStartdaddr = v.vfStartdaddr) (hsz : w.vfSzblks ≤ w.vfMaxszblks)
    (hpages : w.vfPages.length = w.vfSzblks) :
    Fitted (w.vfStartdaddr + w.vfSzblks) 0
      (pre ++ w :: SuSvfil.rangesFrom w.enddaddr post) := by
  have hpre := h.startdaddr
  have hroom := h.room
  rw [fitted_append, fitted_cons, Nat.zero_add]
  refine ⟨h.before.of_full (by rw [Nat.zero_add]; exact h.full) (by omega), ⟨by omega, by omega,
    Nat.le_of_eq hpages.symm, fun _ => hpages⟩, ?_⟩
  have hend : svfTotal pre + w.vfMaxszblks = w.enddaddr := by
    rw [Vfil.enddaddr]
    omega
  rw [hend]
  refine h.behind.rangesFrom (Nat.le_of_lt hroom) ?_
  rw [Vfil.enddaddr]
  omega

namespace SuSvfil

variable {svf : SuSvfil β}

def blocks (svf : SuSvfil β) : List β := svfBlocks svf.svfVfpArr

def room (svf : SuSvfil β) : ℕ := svfTotal svf.svfVfpArr - svf.svfNrblks

structure IsFlat (svf : SuSvfil β) : Prop where
  fitted : Fitted svf.svfNrblks 0 svf.svfVfpArr
  size : svf.svfNrblks ≤ svfTotal svf.svfVfpArr
  space : svfTotal svf.svfVfpArr ≤ suDaddrMax
  names : (svf.svfVfpArr.map Vfil.vfFname).Nodup

def Used (svf : SuSvfil β) : Prop :=
  ∀ n ∈ (svf.svfVfpArr.map Vfil.vfSzblks).drop svf.svfVfpArrused, n = 0

/-- Behind the used files only the last file may have no room for a block. -/
def NoSkip (svf : SuSvfil β) : Prop :=
  ∀ n ∈ ((svf.svfVfpArr.map Vfil.vfMaxszblks).drop svf.svfVfpArrused).dropLast, 0 < n

def Full (svf : SuSvfil β) : Prop := ∀ v ∈ svf.svfVfpArr, v.vfSzblks = v.vfMaxszblks

instance (svf : SuSvfil β) : Decidable svf.Used :=
  inferInstanceAs (Decidable (∀ n ∈ (svf.svfVfpArr.map Vfil.vfSzblks).drop _, n = 0))

instance (svf : SuSvfil β) : Decidable svf.NoSkip :=
  inferInstanceAs
    (Decidable (∀ n ∈ ((svf.svfVfpArr.map Vfil.vfMaxszblks).drop _).dropLast, 0 < n))

theorem init_isFlat (blksz : ℕ) : (init blksz : SuSvfil β).IsFlat where
  fitted := trivial
  size := Nat.le_refl 0
  space := Nat.zero_le _
  names := List.nodup_nil

theorem init_used (blksz : ℕ) : (init blksz : SuSvfil β).Used := by
  intro n hn
  cases hn

theorem IsFlat.length_blocks (h : svf.IsFlat) : svf.blocks.length = svf.svfNrblks := by
  have hsize := h.size
  rw [blocks, h.fitted.length_blocks]
  omega

theorem IsFlat.exists_file (h : svf.IsFlat) {addr : ℕ} (haddr : addr < svfTotal svf.svfVfpArr) :
    ∃ pre v post, svf.svfVfpArr = pre ++ v :: post ∧ svf.findvfil addr = .ok pre.length ∧
      v.vfStartdaddr ≤ addr ∧ addr < v.enddaddr := by
  obtain ⟨pre, v, post, harr, hlow, hhigh⟩ := h.fitted.exists_file (Nat.zero_le addr) (by omega)
  exact ⟨pre, v, post, harr, findvfil_eq h.fitted harr hlow hhigh, hlow, hhigh⟩

theorem IsFlat.full (h : svf.IsFlat) (hfull : svfTotal svf.svfVfpArr ≤ svf.svfNrblks) :
    svf.Full := fun _ hv => h.fitted.full (by omega) hv

theorem used_of_append (harr : svf.svfVfpArr = pre ++ post)
    (hpost : ∀ u ∈ post, u.vfSzblks = 0) (hlen : pre.length ≤ svf.svfVfpArrused) : svf.Used := by
  intro n hn
  rw [harr, List.map_append, List.drop_append, List.length_map,
    List.drop_of_length_le (by rw [List.length_map]; exact hlen), List.nil_append] at hn
  obtain ⟨u, hu, rfl⟩ := List.mem_map.mp (List.mem_of_mem_drop hn)
  exact hpost u hu

end SuSvfil

end

end SolidDB
