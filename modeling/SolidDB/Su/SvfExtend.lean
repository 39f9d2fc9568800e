import SolidDB.Su.SvfFlat

/-!
# Extending a split virtual file

A round of `su_svf_extendszlocal` gives new blocks to the file in which the last block lies.
Where the physical file cannot be extended, its range is cut to what it has, or the file is
removed, and the files behind it move.
-/

namespace SolidDB

open BlockArray

namespace SuSvfil

variable {β : Type*} {svf svf' svf'' : SuSvfil β} {v : Vfil β} {pre post : List (Vfil β)}
  {pages new new' : List β} {n sz f_idx : ℕ}

theorem updateranges_middle (pre post : List (Vfil β)) (v : Vfil β) :
    updateranges (pre ++ v :: post) (pre.length + 1) =
      pre ++ v :: rangesFrom v.enddaddr post := by
  have hsplit : pre ++ v :: post = (pre ++ [v]) ++ post := by
    rw [List.append_assoc, List.singleton_append]
  have hlen : (pre ++ [v]).length = pre.length + 1 := by
    rw [List.length_append, List.length_singleton]
  unfold updateranges
  dsimp only
  rw [if_neg (Nat.succ_ne_zero _), Nat.add_sub_cancel, getElem?_middle, Option.map_some,
    Option.getD_some, hsplit, ← hlen, List.take_left, List.drop_left, List.append_assoc,
    List.singleton_append]

theorem set_middle {α : Type*} (pre post : List α) (x y : α) :
    (pre ++ x :: post).set pre.length y = pre ++ y :: post := by
  rw [List.set_append_right _ _ (Nat.le_refl _), Nat.sub_self, List.set_cons_zero]

/-! ## What a round does to the files -/

def extended (v : Vfil β) (pages : List β) : Vfil β :=
  { v with vfPages := pages, vfSzblks := pages.length }

def cut (v : Vfil β) (pages : List β) : Vfil β :=
  { v with vfPages := pages, vfMaxszblks := pages.length, vfSzblks := pages.length }

theorem extendedFile_done (harr : svf.svfVfpArr = pre ++ v :: post) :
    svf.extendedFile pre.length v pages.length (pages, true) =
      { svf with
        svfVfpArr := pre ++ extended v pages :: post
        svfNrblks := v.vfStartdaddr + pages.length } := by
  rw [extendedFile, if_pos rfl, harr, set_middle]
  rfl

theorem extendedFile_cut (harr : svf.svfVfpArr = pre ++ v :: post) (hpages : pages.length ≠ 0) :
    svf.extendedFile pre.length v n (pages, false) =
      { svf with
        svfVfpArr := pre ++ cut v pages :: rangesFrom (cut v pages).enddaddr post
        svfNrblks := v.vfStartdaddr + pages.length } := by
  rw [extendedFile, if_neg Bool.false_ne_true]
  dsimp only
  rw [if_neg hpages, harr, set_middle, updateranges_middle]
  rfl

theorem extendedFile_removed (harr : svf.svfVfpArr = pre ++ v :: post)
    (hpages : pages.length = 0) :
    svf.extendedFile pre.length v n (pages, false) =
      { svf with
        svfVfpArr := pre ++ rangesFrom v.vfStartdaddr post
        svfVfpArrused := svf.svfVfpArrused - 1 } := by
  rw [extendedFile, if_neg Bool.false_ne_true]
  dsimp only
  rw [if_pos hpages, harr, set_middle, updateranges_middle,
    List.eraseIdx_append_of_length_le (Nat.le_refl _), Nat.sub_self, List.eraseIdx_cons_zero,
    Vfil.enddaddr]
  dsimp only
  rw [hpages, Nat.add_zero]

/-! ## Growing -/

/-- The split virtual file has new blocks behind its old ones and is otherwise as before. -/
structure Grown (svf svf' : SuSvfil β) (new : List β) : Prop where
  isFlat : svf'.IsFlat
  blocks : svf'.blocks = svf.blocks ++ new
  total : svfTotal svf'.svfVfpArr ≤ svfTotal svf.svfVfpArr
  used : svf.Used → svf.NoSkip → svf'.Used ∧ svf'.NoSkip
  cipher : svf'.svfCipher = svf.svfCipher
  blksz : svf'.svfBlksz = svf.svfBlksz

theorem Grown.refl (h : svf.IsFlat) : Grown svf svf [] :=
  ⟨h, (List.append_nil _).symm, Nat.le_refl _, fun hused hskip => ⟨hused, hskip⟩, rfl, rfl⟩

theorem Grown.trans (h : Grown svf svf' new) (h' : Grown svf' svf'' new') :
    Grown svf svf'' (new ++ new') where
  isFlat := h'.isFlat
  blocks := by rw [h'.blocks, h.blocks, List.append_assoc]
  total := h'.total.trans h.total
  used hused hskip := h'.used (h.used hused hskip).1 (h.used hused hskip).2
  cipher := h'.cipher.trans h.cipher
  blksz := h'.blksz.trans h.blksz

def filesLeft (svf : SuSvfil β) : ℕ :=
  svf.svfVfpArr.countP fun v => svf.svfNrblks < v.enddaddr

/-- Behind the used files, with the file in which the last block lies among them. -/
theorem drop_middle {α : Type*} (pre post : List α) (x : α) {k : ℕ} (hk : pre.length < k) :
    (pre ++ x :: post).drop k = post.drop (k - pre.length - 1) := by
  obtain ⟨j, rfl⟩ : ∃ j, k = pre.length + (j + 1) := ⟨k - pre.length - 1, by omega⟩
  rw [List.drop_append, List.drop_of_length_le (by omega), List.nil_append,
    Nat.add_sub_cancel_left, List.drop_succ_cons, Nat.add_sub_cancel]

theorem Used.length_le (hused : svf.Used) (hskip : svf.NoSkip)
    (harr : svf.svfVfpArr = pre ++ v :: post) (hends : Fitted.Ends svf.svfNrblks pre v post) :
    pre.length ≤ svf.svfVfpArrused := by
  by_contra hlt
  have hlt : svf.svfVfpArrused < pre.length := by omega
  -- the file at the index of the count is full and counted as without blocks
  have hdrop : (pre ++ v :: post).drop svf.svfVfpArrused =
      pre[svf.svfVfpArrused] :: (pre.drop (svf.svfVfpArrused + 1) ++ v :: post) := by
    rw [List.drop_append_of_le_length (Nat.le_of_lt hlt), List.drop_eq_getElem_cons hlt,
      List.cons_append]
  have hsz : pre[svf.svfVfpArrused].vfSzblks = 0 := by
    refine hused _ ?_
    rw [harr, ← List.map_drop, hdrop, List.map_cons]
    exact List.mem_cons_self
  have hmax : 0 < pre[svf.svfVfpArrused].vfMaxszblks := by
    refine hskip _ ?_
    rw [harr, ← List.map_drop, hdrop, List.map_cons, List.dropLast_cons_of_ne_nil (by simp)]
    exact List.mem_cons_self
  have hfull := hends.before.full (by rw [Nat.zero_add]; exact hends.full)
    (List.getElem_mem hlt)
  omega

theorem mem_dropLast_cons {α : Type*} {x y : α} {l : List α} (hx : x ∈ l.dropLast) :
    x ∈ (y :: l).dropLast := by
  cases l with
  | nil => cases hx
  | cons z l =>
      rw [List.dropLast_cons_of_ne_nil (List.cons_ne_nil z l)]
      exact List.mem_cons_of_mem y hx

/-- The files behind the one that is taken into use leave no gap either. -/
theorem NoSkip.behind (hskip : svf.NoSkip) (harr : svf.svfVfpArr = pre ++ v :: post)
    (hle : pre.length ≤ svf.svfVfpArrused) {used : ℕ}
    (hused : used = if svf.svfVfpArrused ≤ pre.length then svf.svfVfpArrused + 1
      else svf.svfVfpArrused) :
    ∀ n ∈ ((post.map Vfil.vfMaxszblks).drop (used - pre.length - 1)).dropLast, 0 < n := by
  intro n hn
  refine hskip n ?_
  rw [harr, List.map_append, List.map_cons]
  by_cases h : svf.svfVfpArrused ≤ pre.length
  · have hcount : svf.svfVfpArrused = (pre.map Vfil.vfMaxszblks).length := by
      rw [List.length_map]
      omega
    have hzero : used - pre.length - 1 = 0 := by
      rw [hused, if_pos h]
      omega
    rw [hzero, List.drop_zero] at hn
    rw [hcount, List.drop_left]
    exact mem_dropLast_cons hn
  · rw [if_neg h] at hused
    rw [drop_middle _ _ _ (by rw [List.length_map]; omega), List.length_map, ← hused]
    exact hn

def withFile (svf : SuSvfil β) (pre : List (Vfil β)) (w : Vfil β) (post : List (Vfil β))
    (used : ℕ) : SuSvfil β :=
  { svf with
    svfVfpArr := pre ++ w :: rangesFrom w.enddaddr post
    svfVfpArrused := used
    svfNrblks := w.vfStartdaddr + w.vfSzblks }

structure Takes (v w : Vfil β) (new : List β) : Prop where
  fname : w.vfFname = v.vfFname
  startdaddr : w.vfStartdaddr = v.vfStartdaddr
  pages : w.vfPages = v.vfPages ++ new
  szblks : w.vfSzblks = w.vfPages.length
  max : w.vfSzblks ≤ w.vfMaxszblks
  range : w.vfMaxszblks ≤ v.vfMaxszblks

theorem IsFlat.withFile (h : svf.IsFlat) (harr : svf.svfVfpArr = pre ++ v :: post)
    (hends : Fitted.Ends svf.svfNrblks pre v post) {w : Vfil β} (hw : Takes v w new) (used : ℕ) :
    (svf.withFile pre w post used).IsFlat where
  fitted := hends.fitted hw.startdaddr hw.max hw.szblks.symm
  size := by
    have hstart := hw.startdaddr
    have hmax := hw.max
    have hpre := hends.startdaddr
    simp only [SuSvfil.withFile, svfTotal_append, svfTotal_cons, svfTotal_rangesFrom]
    omega
  space := by
    have hspace := h.space
    have hrange := hw.range
    rw [harr, svfTotal_append, svfTotal_cons] at hspace
    simp only [SuSvfil.withFile, svfTotal_append, svfTotal_cons, svfTotal_rangesFrom]
    omega
  names := by
    have hnames := h.names
    rw [harr, List.map_append, List.map_cons] at hnames
    simp only [SuSvfil.withFile, List.map_append, List.map_cons, hw.fname,
      map_rangesFrom Vfil.vfFname fun _ _ => rfl]
    exact hnames

theorem Grown.withFile (h : svf.IsFlat) (harr : svf.svfVfpArr = pre ++ v :: post)
    (hends : Fitted.Ends svf.svfNrblks pre v post) {w : Vfil β} (hw : Takes v w new) {used : ℕ}
    (hused : used = if svf.svfVfpArrused ≤ pre.length then svf.svfVfpArrused + 1
      else svf.svfVfpArrused) :
    Grown svf (svf.withFile pre w post used) new where
  isFlat := h.withFile harr hends hw used
  blocks := by
    have hroom := hends.room
    have hblocks : w.blocks = v.vfPages ++ new := by
      rw [Vfil.blocks, hw.szblks, List.take_length, hw.pages]
    simp only [SuSvfil.blocks, SuSvfil.withFile, harr, hends.blocks_append, svfBlocks_append,
      svfBlocks_cons, svfBlocks_rangesFrom, hends.behind.blocks_eq_nil (Nat.le_of_lt hroom),
      hblocks, List.append_nil, List.append_assoc]
  total := by
    have hrange := hw.range
    simp only [SuSvfil.withFile, harr, svfTotal_append, svfTotal_cons, svfTotal_rangesFrom]
    omega
  used hu hskip := by
    have hle := hu.length_le hskip harr hends
    have hlt : pre.length < used := by
      rw [hused]
      split
      · omega
      · omega
    constructor
    · have hsplit : (svf.withFile pre w post used).svfVfpArr =
          (pre ++ [w]) ++ rangesFrom w.enddaddr post := by
        rw [List.append_assoc, List.singleton_append]
        rfl
      refine used_of_append hsplit (fun u hu => ?_) ?_
      · have hmem : u.vfSzblks ∈ (rangesFrom w.enddaddr post).map Vfil.vfSzblks :=
          List.mem_map_of_mem hu
        rw [map_rangesFrom Vfil.vfSzblks fun _ _ => rfl] at hmem
        obtain ⟨u', hu', heq⟩ := List.mem_map.mp hmem
        rw [← heq]
        exact hends.behind.empty (Nat.le_of_lt hends.room) hu'
      · rw [List.length_append, List.length_singleton]
        exact hlt
    · have hbehind := hskip.behind harr hle hused
      intro n hn
      refine hbehind n ?_
      simp only [SuSvfil.withFile, List.map_append, List.map_cons,
        map_rangesFrom Vfil.vfMaxszblks fun _ _ => rfl] at hn
      rwa [drop_middle _ _ _ (by rw [List.length_map]; exact hlt), List.length_map] at hn
  cipher := rfl
  blksz := rfl

def withoutFile (svf : SuSvfil β) (pre : List (Vfil β)) (v : Vfil β) (post : List (Vfil β))
    (used : ℕ) : SuSvfil β :=
  { svf with
    svfVfpArr := pre ++ rangesFrom v.vfStartdaddr post
    svfVfpArrused := used - 1 }

theorem IsFlat.withoutFile (h : svf.IsFlat) (harr : svf.svfVfpArr = pre ++ v :: post)
    (hends : Fitted.Ends svf.svfNrblks pre v post) (hv : v.vfSzblks = 0) (used : ℕ) :
    (svf.withoutFile pre v post used).IsFlat where
  fitted := by
    have hroom := hends.room
    have hfull := hends.full
    have hstart := hends.startdaddr
    have hsz := hends.szblks
    simp only [SuSvfil.withoutFile, fitted_append, Nat.zero_add]
    rw [hstart]
    exact ⟨hends.before, hends.behind.rangesFrom (Nat.le_of_lt hroom) (by omega)⟩
  size := by
    have hstart := hends.startdaddr
    have hsz := hends.szblks
    simp only [SuSvfil.withoutFile, svfTotal_append, svfTotal_rangesFrom]
    omega
  space := by
    have hspace := h.space
    rw [harr, svfTotal_append, svfTotal_cons] at hspace
    simp only [SuSvfil.withoutFile, svfTotal_append, svfTotal_rangesFrom]
    omega
  names := by
    have hnames := h.names
    rw [harr, List.map_append, List.map_cons] at hnames
    simp only [SuSvfil.withoutFile, List.map_append, map_rangesFrom Vfil.vfFname fun _ _ => rfl]
    exact hnames.sublist (List.Sublist.append_left (List.sublist_cons_self _ _) _)

theorem Grown.withoutFile (h : svf.IsFlat) (harr : svf.svfVfpArr = pre ++ v :: post)
    (hends : Fitted.Ends svf.svfNrblks pre v post) (hv : v.vfSzblks = 0) {used : ℕ}
    (hused : used = if svf.svfVfpArrused ≤ pre.length then svf.svfVfpArrused + 1
      else svf.svfVfpArrused) :
    Grown svf (svf.withoutFile pre v post used) [] where
  isFlat := h.withoutFile harr hends hv used
  blocks := by
    have hroom := hends.room
    have hlen := hends.length
    rw [hv, List.length_eq_zero_iff] at hlen
    simp only [SuSvfil.blocks, SuSvfil.withoutFile, harr, hends.blocks_append, svfBlocks_append,
      svfBlocks_rangesFrom, hends.behind.blocks_eq_nil (Nat.le_of_lt hroom), hlen,
      List.append_nil]
  total := by
    simp only [SuSvfil.withoutFile, harr, svfTotal_append, svfTotal_cons, svfTotal_rangesFrom]
    omega
  used hu hskip := by
    have hle := hu.length_le hskip harr hends
    have hlt : pre.length < used := by
      rw [hused]
      split
      · omega
      · omega
    constructor
    · have hsplit : (svf.withoutFile pre v post used).svfVfpArr =
          pre ++ rangesFrom v.vfStartdaddr post := rfl
      refine used_of_append hsplit (fun u hu => ?_) (Nat.le_sub_one_of_lt hlt)
      have hmem : u.vfSzblks ∈ (rangesFrom v.vfStartdaddr post).map Vfil.vfSzblks :=
        List.mem_map_of_mem hu
      rw [map_rangesFrom Vfil.vfSzblks fun _ _ => rfl] at hmem
      obtain ⟨u', hu', heq⟩ := List.mem_map.mp hmem
      rw [← heq]
      exact hends.behind.empty (Nat.le_of_lt hends.room) hu'
    · have hbehind := hskip.behind harr hle hused
      intro n hn
      refine hbehind n ?_
      simp only [SuSvfil.withoutFile, List.map_append,
        map_rangesFrom Vfil.vfMaxszblks fun _ _ => rfl] at hn
      have hcount : used - 1 - pre.length = used - pre.length - 1 := by omega
      rwa [List.drop_append, List.drop_of_length_le (by rw [List.length_map]; omega),
        List.nil_append, List.length_map, hcount] at hn
  cipher := rfl
  blksz := rfl

/-! ## The rounds -/

structure Round (sz : ℕ) (svf svf' : SuSvfil β) (new : List β) : Prop where
  grown : Grown svf svf' new
  size : svf'.svfNrblks ≤ sz
  next : sz ≤ svf'.svfNrblks ∨ svf'.filesLeft < svf.filesLeft

/-- The files left are the one in which the last block lies and those behind it. -/
theorem filesLeft_eq (harr : svf.svfVfpArr = pre ++ v :: post)
    (hends : Fitted.Ends svf.svfNrblks pre v post) : post.length < svf.filesLeft := by
  have hpost : post.countP (fun u => decide (svf.svfNrblks < u.enddaddr)) = post.length := by
    refine List.countP_eq_length.mpr fun u hu => ?_
    have hrange := (hends.behind.mem_range hu).1
    have hstart : u.vfStartdaddr ≤ u.enddaddr := Nat.le_add_right _ _
    have hroom := hends.room
    exact decide_eq_true (by omega)
  rw [filesLeft, harr, List.countP_append, List.countP_cons, hpost,
    if_pos (decide_eq_true hends.room)]
  omega

/-- Behind the last block only files behind the middle are left. -/
theorem filesLeft_le (harr : svf.svfVfpArr = pre ++ post)
    (hpre : ∀ u ∈ pre, u.enddaddr ≤ svf.svfNrblks) : svf.filesLeft ≤ post.length := by
  have hzero : pre.countP (fun u => decide (svf.svfNrblks < u.enddaddr)) = 0 := by
    refine List.countP_eq_zero.mpr fun u hu => ?_
    have hend := hpre u hu
    rw [decide_eq_true_eq]
    omega
  rw [filesLeft, harr, List.countP_append, hzero, Nat.zero_add]
  exact List.countP_le_length

theorem length_rangesFrom (start : ℕ) (arr : List (Vfil β)) :
    (rangesFrom start arr).length = arr.length := by
  rw [← List.length_map Vfil.vfFname, map_rangesFrom Vfil.vfFname fun _ _ => rfl,
    List.length_map]

theorem Round.withFile (h : svf.IsFlat) (harr : svf.svfVfpArr = pre ++ v :: post)
    (hends : Fitted.Ends svf.svfNrblks pre v post) {w : Vfil β} (hw : Takes v w new) {used : ℕ}
    (hused : used = if svf.svfVfpArrused ≤ pre.length then svf.svfVfpArrused + 1
      else svf.svfVfpArrused)
    (hsz : w.vfStartdaddr + w.vfSzblks ≤ sz)
    (hnext : w.vfStartdaddr + w.vfSzblks = sz ∨ w.vfSzblks = w.vfMaxszblks) :
    Round sz svf (svf.withFile pre w post used) new where
  grown := Grown.withFile h harr hends hw hused
  size := hsz
  next := by
    rcases hnext with hdone | hfull
    · exact .inl (Nat.le_of_eq hdone.symm)
    · refine .inr (Nat.lt_of_le_of_lt ?_ (filesLeft_eq harr hends))
      have hsplit : (svf.withFile pre w post used).svfVfpArr =
          (pre ++ [w]) ++ rangesFrom w.enddaddr post := by
        rw [List.append_assoc, List.singleton_append]
        rfl
      have hlen := filesLeft_le hsplit ?_
      · rwa [length_rangesFrom] at hlen
      · intro u hu
        have hstart := hw.startdaddr
        have hpre := hends.startdaddr
        simp only [SuSvfil.withFile]
        rcases List.mem_append.mp hu with hmem | hmem
        · have hrange := (hends.before.mem_range hmem).2
          omega
        · rw [List.mem_singleton.mp hmem, Vfil.enddaddr]
          omega

theorem Round.withoutFile (h : svf.IsFlat) (harr : svf.svfVfpArr = pre ++ v :: post)
    (hends : Fitted.Ends svf.svfNrblks pre v post) (hv : v.vfSzblks = 0) {used : ℕ}
    (hused : used = if svf.svfVfpArrused ≤ pre.length then svf.svfVfpArrused + 1
      else svf.svfVfpArrused)
    (hsz : svf.svfNrblks ≤ sz) : Round sz svf (svf.withoutFile pre v post used) [] where
  grown := Grown.withoutFile h harr hends hv hused
  size := hsz
  next := by
    refine .inr (Nat.lt_of_le_of_lt ?_ (filesLeft_eq harr hends))
    have hsplit : (svf.withoutFile pre v post used).svfVfpArr =
        pre ++ rangesFrom v.vfStartdaddr post := rfl
    have hlen := filesLeft_le hsplit ?_
    · rwa [length_rangesFrom] at hlen
    · intro u hu
      have hrange := (hends.before.mem_range hu).2
      have hfull := hends.full
      simp only [SuSvfil.withoutFile]
      omega

end SuSvfil

end SolidDB
