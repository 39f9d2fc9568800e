import SolidDB.Su.SvfFiles
import SolidDB.Su.SvfTransfer

/-!
# Split virtual files with a cipher

The cipher works page by page, with the block address of the page. A run inside one physical
file is encrypted with its own addresses. So are the new pages of the file that starts at
address 0.
-/

namespace SolidDB

open BlockArray

variable {β : Type*}

/-- The functions of the cipher work on each page with its own block address. -/
structure SvfCipher.ByPage (cipher : SvfCipher β) (enc dec : ℕ → β → β) : Prop where
  encrypt : ∀ daddr data, cipher.encrypt daddr data = mapFrom enc daddr data
  decrypt : ∀ daddr data, cipher.decrypt daddr data = mapFrom dec daddr data
  inverse : ∀ daddr page, dec daddr (enc daddr page) = page

namespace SuSvfil

variable {svf svf' : SuSvfil β} {v u : Vfil β} {pre post : List (Vfil β)} {cipher : SvfCipher β}
  {enc dec : ℕ → β → β} {plain data new : List β} {loc loc2 n sz lim : ℕ} {rc : SvfRet}

theorem svfEncrypt_eq (hc : cipher.ByPage enc dec) (hcipher : svf.svfCipher = some cipher)
    (daddr : ℕ) (data : List β) : svf.svfEncrypt daddr data = mapFrom enc daddr data := by
  simp only [svfEncrypt, hcipher, hc.encrypt]

theorem svfDecrypt_eq (hc : cipher.ByPage enc dec) (hcipher : svf.svfCipher = some cipher)
    (daddr : ℕ) (data : List β) : svf.svfDecrypt daddr data = mapFrom dec daddr data := by
  simp only [svfDecrypt, hcipher, hc.decrypt]

/-! ## Transfers inside one file -/

/-- The blocks of a transfer lie in the range of one file. -/
def InOneFile (svf : SuSvfil β) (loc n : ℕ) : Prop :=
  n = 0 ∨ ∃ r ∈ ranges svf.svfVfpArr, r.1 ≤ loc ∧ loc + n ≤ r.1 + r.2

instance (svf : SuSvfil β) (loc n : ℕ) : Decidable (svf.InOneFile loc n) :=
  inferInstanceAs
    (Decidable (n = 0 ∨ ∃ r ∈ ranges svf.svfVfpArr, r.1 ≤ loc ∧ loc + n ≤ r.1 + r.2))

/-- The file of a transfer inside one file is the one with its first block. -/
theorem InOneFile.holds (h : svf.InOneFile loc n) (hflat : svf.IsFlat) (hpos : n ≠ 0)
    (hn : loc + n ≤ svf.svfNrblks) :
    ∃ pre v post, svf.Holds loc pre v post ∧ loc + n ≤ v.vfStartdaddr + v.vfSzblks := by
  obtain ⟨r, hr, hlow, hhigh⟩ := h.resolve_left hpos
  obtain ⟨u, hu, rfl⟩ := List.mem_map.mp hr
  obtain ⟨pre, v, post, hv⟩ := hflat.holds (show loc < svf.svfNrblks by omega)
  obtain ⟨pre', post', harr⟩ := List.append_of_mem hu
  have hend : loc + n ≤ u.enddaddr := hhigh
  have hfound := findvfil_eq hflat.fitted harr hlow (show loc < u.enddaddr by omega)
  rw [hv.found, Except.ok.injEq] at hfound
  have hget := hv.getElem?
  rw [hfound, harr, getElem?_middle, Option.some_inj] at hget
  have hsz := hv.szblks
  rw [hget, Vfil.enddaddr] at hend
  exact ⟨pre, v, post, hv, by omega⟩

/-- A read inside one file decrypts each page with its own address. -/
theorem readlocal_oneFile (hc : cipher.ByPage enc dec) (hcipher : svf.svfCipher = some cipher)
    (h : svf.IsFlat) (hone : svf.InOneFile loc n) (hblocks : svf.blocks = mapFrom enc 0 plain)
    (hloc : loc < svf.svfNrblks) (hn : loc + n ≤ svf.svfNrblks) :
    svf.readlocal loc true n = some (.success, slice plain loc n) := by
  rw [readlocal, if_neg (by omega)]
  cases n with
  | zero => rw [readlocalLoop, if_pos rfl, slice_zero]
  | succ n =>
      obtain ⟨pre, v, post, hv, hend⟩ := hone.holds h (Nat.succ_ne_zero n) hn
      have hroom : min (v.vfStartdaddr + v.vfSzblks - loc) (n + 1) = n + 1 := by omega
      have hround := readlocalLoop_round loc h hv hn (Nat.succ_ne_zero n) (fun _ => hend)
        true n []
      simp only [hroom, Nat.sub_self, if_true, List.nil_append] at hround
      rw [hround, svfDecrypt_eq hc hcipher, hblocks, slice_mapFrom, mapFrom_mapFrom hc.inverse]
      cases n with
      | zero => rw [readlocalLoop, if_pos rfl]
      | succ n => rw [readlocalLoop, if_pos rfl]

variable [Zero β]

/-- A write inside one file encrypts each page with its own address. -/
theorem writelocalLoop_oneFile (hc : cipher.ByPage enc dec)
    (hcipher : svf.svfCipher = some cipher) (h : svf.IsFlat)
    (hone : svf.InOneFile loc data.length) (hn : loc + data.length ≤ svf.svfNrblks) :
    ∃ svf', writelocalLoop loc data.length loc data svf = some (svf', .success) ∧
      Written svf svf' (overwrite svf.blocks loc (mapFrom enc loc data)) := by
  cases hlen : data.length with
  | zero =>
      obtain rfl : data = [] := List.length_eq_zero_iff.mp hlen
      refine ⟨svf, by rw [writelocalLoop, if_pos hlen], ?_⟩
      rw [mapFrom_nil, overwrite_nil]
      exact Written.refl h
  | succ n =>
      obtain ⟨pre, v, post, hv, hend⟩ := hone.holds h (by omega) hn
      have hroom : min (v.vfStartdaddr + v.vfSzblks - loc) data.length = data.length := by omega
      have hround := writelocalLoop_round loc h hv (show data.length ≠ 0 by omega) n
      simp only [hroom, List.take_length, List.drop_length] at hround
      rw [svfEncrypt_eq hc hcipher] at hround
      refine ⟨_, ?_, writefile_written h hv (by rw [length_mapFrom]; exact hend)⟩
      rw [hround]
      cases n with
      | zero => rw [writelocalLoop, if_pos List.length_nil]
      | succ n => rw [writelocalLoop, if_pos List.length_nil]

/-! ## Extending -/

theorem foldl_encryptNewpage (hc : cipher.ByPage enc dec) (hcipher : svf.svfCipher = some cipher)
    {i m : ℕ} {pages : List β} (hstart : v.vfStartdaddr ≤ i)
    (hlen : i - v.vfStartdaddr + m ≤ pages.length) :
    (List.range' i m).foldl (svf.encryptNewpage v) (pages, true) =
      (overwrite pages (i - v.vfStartdaddr) (mapFrom enc i (List.replicate m 0)), true) := by
  induction m generalizing i pages with
  | zero => rw [List.range'_zero, List.foldl_nil, List.replicate_zero, mapFrom_nil, overwrite_nil]
  | succ m ih =>
      have hpage : svf.encryptNewpage v (pages, true) i =
          (overwrite pages (i - v.vfStartdaddr) [enc i 0], true) := by
        unfold encryptNewpage
        dsimp only
        rw [if_pos (by omega), svfEncrypt_eq hc hcipher, mapFrom_cons, mapFrom_nil, ssBWritePages,
          Nat.sub_eq_zero_of_le (by omega), List.replicate_zero, List.append_nil]
      have hwritten : (overwrite pages (i - v.vfStartdaddr) [enc i 0]).length = pages.length :=
        length_overwrite (by rw [List.length_singleton]; omega)
      have hnext : i + 1 - v.vfStartdaddr = i - v.vfStartdaddr + [enc i 0].length := by
        rw [List.length_singleton]
        omega
      rw [List.range'_succ, List.foldl_cons, hpage, ih (by omega) (by rw [hwritten]; omega),
        hnext, overwrite_overwrite (by omega), List.replicate_succ, mapFrom_cons,
        List.singleton_append]

/-- An extended file has its old pages and new ones, which are encrypted zero pages in the file
that starts at address 0. -/
theorem chsizeEncrypted_spec (hc : cipher.ByPage enc dec)
    (hcipher : svf.svfCipher = some cipher) (hends : Fitted.Ends svf.svfNrblks pre v post)
    (hsz : v.vfSzblks ≤ sz) :
    ∃ new, svf.chsizeEncrypted v sz none = (v.vfPages ++ new, true) ∧
      (v.vfPages ++ new).length = sz ∧
      (v.vfStartdaddr = 0 → new = mapFrom enc svf.svfNrblks (List.replicate new.length 0)) := by
  have hlen := hends.length
  have hfull := hends.full
  have hstart := hends.startdaddr
  have hszblks := hends.szblks
  have hresize : ssBChsizePages v.vfPages sz none =
      (v.vfPages ++ List.replicate (sz - v.vfPages.length) 0, true) := by
    rw [ssBChsizePages, resize_of_ge (by omega)]
  have hinit : (v.vfPages ++ List.replicate (sz - v.vfPages.length) (0 : β)).length = sz := by
    rw [List.length_append, List.length_replicate]
    omega
  generalize hrun : mapFrom enc svf.svfNrblks (List.replicate (sz - svf.svfNrblks) 0) = run
  have hrunlen : run.length = sz - svf.svfNrblks := by
    rw [← hrun, length_mapFrom, List.length_replicate]
  have hext : svf.chsizeEncrypted v sz none =
      (v.vfPages ++ overwrite (List.replicate (sz - v.vfPages.length) 0) 0 run, true) := by
    unfold chsizeEncrypted
    simp only [hcipher, hresize]
    by_cases hle : svf.svfNrblks ≤ sz
    · have hmid : overwrite (v.vfPages ++ List.replicate (sz - v.vfPages.length) 0)
          (svf.svfNrblks - v.vfStartdaddr) run =
            v.vfPages ++ overwrite (List.replicate (sz - v.vfPages.length) 0) 0 run := by
        have hfits : 0 + run.length ≤ (List.replicate (sz - v.vfPages.length) (0 : β)).length := by
          rw [List.length_replicate]
          omega
        have happend := overwrite_append_middle (a := v.vfPages) (c := []) hfits
        simp only [List.append_nil, Nat.add_zero] at happend
        rw [← happend, hlen, hszblks]
      rw [foldl_encryptNewpage hc hcipher (by omega) (by rw [hinit]; omega), hrun, hmid]
    · have hnil : run = [] := List.length_eq_zero_iff.mp (by omega)
      have hzero : sz - svf.svfNrblks = 0 := by omega
      rw [hzero, List.range'_zero, List.foldl_nil, hnil, overwrite_nil]
  have hnewlen : (overwrite (List.replicate (sz - v.vfPages.length) (0 : β)) 0 run).length =
      sz - v.vfPages.length := by
    rw [length_overwrite (by rw [List.length_replicate]; omega), List.length_replicate]
  refine ⟨_, hext, ?_, fun hzero => ?_⟩
  · rw [List.length_append, hnewlen]
    omega
  · rw [hnewlen, overwrite_all (by rw [List.length_replicate]; omega), ← hrun]
    congr 2
    omega

def ZeroStart (svf : SuSvfil β) (lim : ℕ) : Prop :=
  svf.svfNrblks < lim → ∀ r ∈ ranges svf.svfVfpArr,
    r.1 < lim → svf.svfNrblks < r.1 + r.2 → r.1 = 0

instance (svf : SuSvfil β) (lim : ℕ) : Decidable (svf.ZeroStart lim) :=
  inferInstanceAs (Decidable (svf.svfNrblks < lim → ∀ r ∈ ranges svf.svfVfpArr,
    r.1 < lim → svf.svfNrblks < r.1 + r.2 → r.1 = 0))

/-- The blocks from an address on are encrypted zero pages below the limit. -/
def ZeroPages (enc : ℕ → β → β) (lim i : ℕ) (new : List β) : Prop :=
  ∀ j < new.length, i + j < lim → new[j]? = some (enc (i + j) 0)

theorem ZeroPages.append {i : ℕ} {new' : List β} (h : ZeroPages enc lim i new)
    (h' : ZeroPages enc lim (i + new.length) new') : ZeroPages enc lim i (new ++ new') := by
  intro j hj hlim
  rw [List.length_append] at hj
  by_cases hlt : j < new.length
  · rw [List.getElem?_append_left hlt]
    exact h j hlt hlim
  · have hsum : i + new.length + (j - new.length) = i + j := by omega
    have hnext := h' (j - new.length) (by omega) (by omega)
    rw [List.getElem?_append_right (Nat.le_of_not_lt hlt), hnext, hsum]

theorem ZeroPages.eq_mapFrom {i : ℕ} (h : ZeroPages enc lim i new) (hlim : i + new.length ≤ lim) :
    new = mapFrom enc i (List.replicate new.length 0) := by
  refine List.ext_getElem? fun j => ?_
  rw [getElem?_mapFrom, List.getElem?_replicate]
  by_cases hj : j < new.length
  · rw [if_pos hj, Option.map_some]
    exact h j hj (by omega)
  · rw [if_neg hj, List.getElem?_eq_none (by omega), Option.map_none]

/-- A successful extension of a file leaves the ranges as they are. -/
theorem extendfile_ranges (harr : svf.svfVfpArr = pre ++ v :: post)
    (hext : svf.chsizeEncrypted v (newszblks v sz) none = (v.vfPages ++ new, true))
    (hlen : (v.vfPages ++ new).length = newszblks v sz) :
    ranges (svf.extendfile sz pre.length v none).svfVfpArr = ranges svf.svfVfpArr := by
  unfold extendfile
  dsimp only
  rw [hext, ← hlen]
  generalize (if svf.svfVfpArrused ≤ pre.length then svf.svfVfpArrused + 1
    else svf.svfVfpArrused) = used
  have harr' : ({ svf with svfVfpArrused := used } : SuSvfil β).svfVfpArr = pre ++ v :: post :=
    harr
  rw [extendedFile_done harr', harr]
  simp only [ranges, List.map_append, List.map_cons, extended]

structure Crypts (cipher : SvfCipher β) (lim : ℕ) (arr : List (ℕ × ℕ)) (svf : SuSvfil β) :
    Prop where
  cipher : svf.svfCipher = some cipher
  zeroStart : svf.ZeroStart lim
  ranges : SuSvfil.ranges svf.svfVfpArr = arr

/-- With a cipher an extension brings encrypted zero pages in files that start at address 0. -/
theorem extendszlocal_encrypted (hc : cipher.ByPage enc dec)
    (hcipher : svf.svfCipher = some cipher) (h : svf.IsFlat) (hzero : svf.ZeroStart lim)
    (sz : ℕ) :
    ∃ svf' rc new, svf.extendszlocal sz [] = some (svf', rc) ∧ Extends sz svf svf' rc new ∧
      ZeroPages enc lim svf.svfNrblks new ∧ Crypts cipher lim (ranges svf.svfVfpArr) svf' := by
  have hround : ∀ (s : SuSvfil β) pre v post outcome,
      Crypts cipher lim (ranges svf.svfVfpArr) s → s.IsFlat → outcome = none →
      s.svfVfpArr = pre ++ v :: post → Fitted.Ends s.svfNrblks pre v post → s.svfNrblks < sz →
      ∃ new, Round sz s (s.extendfile sz pre.length v outcome) new ∧
        ZeroPages enc lim s.svfNrblks new ∧
        Crypts cipher lim (ranges svf.svfVfpArr) (s.extendfile sz pre.length v outcome) := by
    rintro s pre v post outcome hI hs rfl harr hends hsz
    obtain ⟨hold, -, -, -⟩ := newszblks_spec hends hsz
    obtain ⟨new, hext, hlen, hnew⟩ := chsizeEncrypted_spec hc hI.cipher hends hold
    have hr := extendfile_round hs harr hends hsz hext (Nat.le_of_eq hlen) fun _ => hlen
    have hranges := extendfile_ranges harr hext hlen
    have hroom := hends.room
    have hmem : (v.vfStartdaddr, v.vfMaxszblks) ∈ ranges s.svfVfpArr := by
      rw [harr, ranges, List.map_append, List.map_cons]
      exact List.mem_append_right _ List.mem_cons_self
    refine ⟨new, hr, ?_, hr.grown.cipher.trans hI.cipher, ?_, hranges.trans hI.ranges⟩
    · intro j hj hlim
      have hfull := hends.full
      have hstart := hends.startdaddr
      have hzero := hI.zeroStart (by omega) _ hmem (by dsimp only; omega) hroom
      rw [hnew hzero, getElem?_mapFrom, List.getElem?_replicate, if_pos hj, Option.map_some]
    · intro hlim r hr' hlow hhigh
      have hgrown := congrArg List.length hr.grown.blocks
      rw [List.length_append, hr.grown.isFlat.length_blocks, hs.length_blocks] at hgrown
      rw [hranges] at hr'
      exact hI.zeroStart (by omega) r hr' hlow (by omega)
  obtain ⟨svf', rc, new, hrun, hext, hQ, hI⟩ :=
    extendszlocalLoop_extends (A := fun o => o = none) rfl
      (fun _ _ hj => absurd hj (Nat.not_lt_zero _))
      (fun _ _ _ hnew hnew' => hnew.append hnew') hround ⟨hcipher, hzero, rfl⟩ h
      (fun _ ho => absurd ho List.not_mem_nil) (Nat.lt_succ_of_le svf.filesLeft_le_length)
  exact ⟨svf', rc, new, hrun, hext, hQ, hI⟩

end SuSvfil

end SolidDB
