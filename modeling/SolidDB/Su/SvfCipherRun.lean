import SolidDB.Su.SvfCipher
import SolidDB.Su.SvfRun

/-!
# The runs of a split virtual file with a cipher

A run behaves as a flat array of the plain blocks when no transfer crosses the border of a
physical file and only the file that starts at address 0 gets blocks that are not written at
once.
-/

namespace SolidDB

open BlockArray

variable {β : Type*} [Zero β]

namespace SuSvfil

variable {svf svf' : SuSvfil β} {cipher : SvfCipher β} {enc dec : ℕ → β → β}
  {plain data new : List β} {loc n sz lim : ℕ} {rc : SvfRet} {op : SvfOp β}
  {ops : List (SvfOp β)}

/-- The split virtual file after the files are added to an empty one, each with its name, its
pages and its maximum size. -/
def addfiles (blksz : ℕ) (files : List (String × List β × ℕ)) : SuSvfil β :=
  files.foldl (fun svf file => (svf.addfile file.1 file.2.1 file.2.2).1) (init blksz)

/-- The conditions on reads, writes and extensions with a cipher. A write either lies in one
file, or ends behind the room of all files. -/
def CryptMeets (svf : SuSvfil β) : SvfOp β → Prop
  | .extendsize sz outcomes => outcomes = [] ∧ svf.ZeroStart sz
  | .write loc data outcomes =>
      outcomes = [] ∧ loc + data.length < 2 ^ 32 ∧
        (svf.InOneFile loc data.length ∧ svf.ZeroStart loc ∨
          svfTotal svf.svfVfpArr < loc + data.length ∧ svf.ZeroStart (loc + data.length))
  | .read loc n => loc + n ≤ svf.svfNrblks → svf.InOneFile loc n
  | _ => False

def RunCrypts : List (SvfOp β) → SuSvfil β → Prop
  | [], _ => True
  | op :: ops, svf => svf.CryptMeets op ∧ ∀ r ∈ svf.step op, RunCrypts ops r.1

instance (svf : SuSvfil β) (op : SvfOp β) : Decidable (svf.CryptMeets op) :=
  match op with
  | .extendsize sz outcomes => inferInstanceAs (Decidable (outcomes = [] ∧ svf.ZeroStart sz))
  | .write loc data outcomes =>
      inferInstanceAs (Decidable (outcomes = [] ∧ loc + data.length < 2 ^ 32 ∧
        (svf.InOneFile loc data.length ∧ svf.ZeroStart loc ∨
          svfTotal svf.svfVfpArr < loc + data.length ∧ svf.ZeroStart (loc + data.length))))
  | .read loc n =>
      inferInstanceAs (Decidable (loc + n ≤ svf.svfNrblks → svf.InOneFile loc n))
  | .addfile _ _ _ => inferInstanceAs (Decidable False)
  | .decreasesize _ => inferInstanceAs (Decidable False)
  | .removelastfile => inferInstanceAs (Decidable False)

instance decidableRunCrypts : (ops : List (SvfOp β)) → (svf : SuSvfil β) →
    Decidable (RunCrypts ops svf)
  | [], _ => inferInstanceAs (Decidable True)
  | op :: ops, svf =>
      have := fun r : SuSvfil β × SvfRet × List β => decidableRunCrypts ops r.1
      inferInstanceAs (Decidable (svf.CryptMeets op ∧ ∀ r ∈ svf.step op, RunCrypts ops r.1))

/-! ## The operations -/

structure Holding (cipher : SvfCipher β) (enc : ℕ → β → β) (plain : List β) (svf : SuSvfil β) :
    Prop where
  isFlat : svf.IsFlat
  cipher : svf.svfCipher = some cipher
  blocks : svf.blocks = mapFrom enc 0 plain

omit [Zero β] in
theorem Holding.length (h : svf.Holding cipher enc plain) : plain.length = svf.svfNrblks := by
  rw [← h.isFlat.length_blocks, h.blocks, length_mapFrom]

theorem Extends.plainStep (h : svf.Holding cipher enc plain)
    (hext : Extends sz svf svf' rc new) :
    ExtendStep sz ⟨plain, svf.room⟩ rc
      ⟨plain ++ List.replicate new.length 0, svf'.room⟩ := by
  have hlen := h.length
  have hlen' := hext.grown.isFlat.length_blocks
  have hold := h.isFlat.length_blocks
  have htotal := hext.grown.total
  have hsize := hext.size
  have hroom' := hext.grown.isFlat.size
  have hblocks := congrArg List.length hext.grown.blocks
  rw [List.length_append] at hblocks
  refine ⟨new.length, rfl, ?_, ?_, ?_, ?_⟩
  · simp only [room]
    omega
  · dsimp only
    omega
  · intro hrc
    have hsuccess := hext.success hrc
    dsimp only
    rw [List.length_append, List.length_replicate]
    omega
  · intro hrc
    have hfailure := hext.failure hrc
    dsimp only
    rw [List.length_append, List.length_replicate, room]
    omega

theorem Holding.extended (h : svf.Holding cipher enc plain) (hext : Extends sz svf svf' rc new)
    (hzero : ZeroPages enc lim svf.svfNrblks new) (hcrypts : svf'.svfCipher = some cipher)
    (hlim : svf.svfNrblks < sz → sz ≤ lim) :
    svf'.Holding cipher enc (plain ++ List.replicate new.length 0) where
  isFlat := hext.grown.isFlat
  cipher := hcrypts
  blocks := by
    have hblocks := congrArg List.length hext.grown.blocks
    have hsize := hext.size
    rw [List.length_append, hext.grown.isFlat.length_blocks, h.isFlat.length_blocks] at hblocks
    have hnew : new = mapFrom enc svf.svfNrblks (List.replicate new.length 0) := by
      by_cases hnil : new = []
      · rw [hnil]
        rfl
      · have hpos := List.length_pos_iff.mpr hnil
        exact hzero.eq_mapFrom (by omega)
    rw [hext.grown.blocks, h.blocks, mapFrom_append, Nat.zero_add, h.length, ← hnew]

/-- The plain blocks under a write behind which no new block is left unwritten. -/
theorem overwrite_plain (h : svf.Holding cipher enc plain)
    (hzero : ZeroPages enc loc svf.svfNrblks new)
    (hlow : loc + data.length ≤ svf.svfNrblks + new.length)
    (hhigh : svf.svfNrblks + new.length ≤ max svf.svfNrblks (loc + data.length)) :
    overwrite (mapFrom enc 0 plain ++ new) loc (mapFrom enc loc data) =
      mapFrom enc 0 (overwrite (plain ++ List.replicate new.length 0) loc data) := by
  have hlen := h.length
  have hold : loc ≤ (mapFrom enc 0 plain ++ new).length := by
    rw [List.length_append, length_mapFrom]
    omega
  have hplain : loc ≤ (plain ++ List.replicate new.length (0 : β)).length := by
    rw [List.length_append, List.length_replicate]
    omega
  refine List.ext_getElem? fun j => ?_
  have hright : (mapFrom enc 0 (overwrite (plain ++ List.replicate new.length 0) loc data))[j]? =
      ((overwrite (plain ++ List.replicate new.length 0) loc data)[j]?).map (enc j) := by
    rw [getElem?_mapFrom, Nat.zero_add]
  rw [hright, getElem?_overwrite hold, getElem?_overwrite hplain, length_mapFrom]
  -- outside of the data there are old blocks and new zero pages
  have houter : j < loc ∨ loc + data.length ≤ j →
      (mapFrom enc 0 plain ++ new)[j]? =
        ((plain ++ List.replicate new.length 0)[j]?).map (enc j) := by
    intro hj
    by_cases hlt : j < plain.length
    · rw [List.getElem?_append_left (by rw [length_mapFrom]; exact hlt),
        List.getElem?_append_left hlt, getElem?_mapFrom, Nat.zero_add]
    · rw [List.getElem?_append_right (by rw [length_mapFrom]; omega), length_mapFrom,
        List.getElem?_append_right (by omega), List.getElem?_replicate]
      by_cases hnew : j - plain.length < new.length
      · rw [if_pos hnew, Option.map_some, hzero _ hnew (by omega)]
        congr 2
        omega
      · rw [if_neg hnew, List.getElem?_eq_none (by omega), Option.map_none]
  by_cases hj : j < loc
  · rw [if_pos hj, if_pos hj]
    exact houter (.inl hj)
  · rw [if_neg hj, if_neg hj]
    by_cases hj' : j < loc + data.length
    · rw [if_pos hj', if_pos hj', getElem?_mapFrom]
      congr 2
      omega
    · rw [if_neg hj', if_neg hj']
      exact houter (.inr (by omega))

structure StepPlain (cipher : SvfCipher β) (enc : ℕ → β → β) (plain : List β)
    (svf svf' : SuSvfil β) (op : SvfOp β) (rc : SvfRet) (out : List β) (plain' : List β) :
    Prop where
  holding : svf'.Holding cipher enc plain'
  blksz : svf'.svfBlksz = svf.svfBlksz
  flat : FlatStep svf.svfBlksz ⟨plain, svf.room⟩ op rc out ⟨plain', svf'.room⟩

theorem write_plain (hc : cipher.ByPage enc dec) (h : svf.Holding cipher enc plain)
    (hmeets : svf.CryptMeets (.write loc data [])) :
    ∃ svf' rc plain', svf.writelocal loc data [] = some (svf', rc) ∧
      StepPlain cipher enc plain svf svf' (.write loc data []) rc [] plain' := by
  obtain ⟨-, hend, hcases⟩ := hmeets
  have hextended : (if svf.svfNrblks < loc + data.length then
      svf.extendszlocal ((loc + data.length) % 2 ^ 32) [] else some (svf, .success)) =
      svf.extendszlocal (loc + data.length) [] := by
    split
    · rw [Nat.mod_eq_of_lt hend]
    · rename_i hlt
      rw [extendszlocal, extendszlocalLoop, if_neg hlt]
  -- the limit below which new blocks are not written
  obtain ⟨lim, hlim, hzero⟩ : ∃ lim,
      (svf.InOneFile loc data.length ∧ loc = lim ∨
        svfTotal svf.svfVfpArr < loc + data.length ∧ lim = loc + data.length) ∧
      svf.ZeroStart lim := by
    rcases hcases with ⟨hone, hzero⟩ | ⟨hfull, hzero⟩
    · exact ⟨loc, .inl ⟨hone, rfl⟩, hzero⟩
    · exact ⟨loc + data.length, .inr ⟨hfull, rfl⟩, hzero⟩
  obtain ⟨svf₁, rc, new, hrun, hext, hpages, hcrypts⟩ :=
    extendszlocal_encrypted hc h.cipher h.isFlat hzero (loc + data.length)
  have hranges := hcrypts.ranges
  have htotal₁ : svfTotal svf₁.svfVfpArr = svfTotal svf.svfVfpArr := by
    rw [svfTotal_ranges, hranges, ← svfTotal_ranges]
  have hblksz₁ := hext.grown.blksz
  have hstep := hext.plainStep h
  unfold writelocal
  dsimp only
  rw [hextended, hrun]
  dsimp only
  by_cases hrc : rc = .success
  · have hsize := hext.success hrc
    have hflat₁ := hext.grown.isFlat.size
    rcases hlim with ⟨hone, rfl⟩ | ⟨hfull, -⟩
    · have hone₁ : svf₁.InOneFile loc data.length := by
        unfold InOneFile at hone ⊢
        rw [hranges]
        exact hone
      obtain ⟨svf', hwrite, hw⟩ :=
        writelocalLoop_oneFile hc hcrypts.cipher hext.grown.isFlat hone₁ hsize
      have hlen := congrArg List.length hext.grown.blocks
      have hle := hext.size
      rw [List.length_append, hext.grown.isFlat.length_blocks, h.isFlat.length_blocks] at hlen
      have htotal : svfTotal svf'.svfVfpArr = svfTotal svf₁.svfVfpArr := by
        rw [svfTotal_ranges, ranges, hw.ranges, ← ranges, ← svfTotal_ranges]
      rw [if_pos hrc]
      refine ⟨svf', .success, overwrite (plain ++ List.replicate new.length 0) loc data, hwrite,
        ⟨hw.isFlat, hw.cipher.trans hcrypts.cipher, ?_⟩, hw.blksz.trans hblksz₁, _, hrc ▸ hstep, ?_⟩
      · rw [hw.blocks, hext.grown.blocks, h.blocks]
        exact overwrite_plain h hpages (by omega) (by omega)
      · rw [if_pos rfl]
        simp only [room, htotal, hw.size]
    · omega
  · rw [if_neg hrc]
    have hfailure := hext.failure hrc
    have hlim' : svf.svfNrblks < loc + data.length → loc + data.length ≤ lim := by
      intro _
      rcases hlim with ⟨hone, rfl⟩ | ⟨-, rfl⟩
      · -- a write of no blocks that lies behind all files
        rcases hone with hzero | ⟨r, hr, -, hhigh⟩
        · omega
        · obtain ⟨u, hu, rfl⟩ := List.mem_map.mp hr
          have hrange := (h.isFlat.fitted.mem_range hu).2
          unfold Vfil.enddaddr at hrange
          omega
      · exact Nat.le_refl _
    refine ⟨svf₁, rc, _, rfl, h.extended hext hpages hcrypts.cipher hlim', hblksz₁, _, hstep, ?_⟩
    rw [if_neg hrc]

/-- Every operation that meets its conditions does what it does on the plain blocks. -/
theorem step_plain (hc : cipher.ByPage enc dec) (h : svf.Holding cipher enc plain)
    (op : SvfOp β) (hmeets : svf.CryptMeets op) :
    ∃ svf' rc out plain', svf.step op = some (svf', rc, out) ∧
      StepPlain cipher enc plain svf svf' op rc out plain' := by
  cases op with
  | addfile pathname pages maxsize => exact hmeets.elim
  | extendsize sz outcomes =>
      obtain ⟨rfl, hzero⟩ := hmeets
      obtain ⟨svf', rc, new, hrun, hext, hpages, hcrypts⟩ :=
        extendszlocal_encrypted hc h.cipher h.isFlat hzero sz
      refine ⟨svf', rc, [], _, ?_, h.extended hext hpages hcrypts.cipher fun _ => Nat.le_refl sz,
        hext.grown.blksz, hext.plainStep h⟩
      rw [step, hrun, Option.map_some]
  | write loc data outcomes =>
      obtain rfl := hmeets.1
      obtain ⟨svf', rc, plain', hrun, hstep⟩ := write_plain hc h hmeets
      refine ⟨svf', rc, [], plain', ?_, hstep⟩
      rw [step, hrun, Option.map_some]
  | read loc n =>
      obtain ⟨⟨rc, out⟩, hrun⟩ := readlocal_returns h.isFlat true loc n
      refine ⟨svf, rc, out, plain, ?_, h, rfl, rfl, ?_⟩
      · rw [step, hrun, Option.map_some]
      · intro hloc hn
        have hlen := h.length
        dsimp only at hloc hn
        rw [readlocal_oneFile hc h.cipher h.isFlat (hmeets (by omega)) h.blocks (by omega)
          (by omega), Option.some_inj, Prod.mk.injEq] at hrun
        exact ⟨hrun.1.symm, hrun.2.symm⟩
  | decreasesize daddr => exact hmeets.elim
  | removelastfile => exact hmeets.elim

/-! ## The runs -/

theorem run_plain (hc : cipher.ByPage enc dec) (h : svf.Holding cipher enc plain)
    (hmeets : RunCrypts ops svf) :
    ∃ svf' answers plain', run ops svf = some (svf', answers) ∧
      svf'.Holding cipher enc plain' ∧
      FlatRun svf.svfBlksz ⟨plain, svf.room⟩ ops answers ⟨plain', svf'.room⟩ := by
  induction ops generalizing svf plain with
  | nil => exact ⟨svf, [], plain, rfl, h, rfl⟩
  | cons op ops ih =>
      obtain ⟨svf₁, rc, out, plain₁, hstep, hflat⟩ := step_plain hc h op hmeets.1
      have hmeets₁ : RunCrypts ops svf₁ := hmeets.2 (svf₁, rc, out) hstep
      obtain ⟨svf', answers, plain', hrun, h', hrest⟩ := ih hflat.holding hmeets₁
      refine ⟨svf', (rc, out) :: answers, plain', ?_, h', ⟨plain₁, svf₁.room⟩, hflat.flat, ?_⟩
      · rw [run, hstep]
        simp only [hrun, Option.map_some]
      · rw [← hflat.blksz]
        exact hrest

omit [Zero β] in
theorem addfiles_isFlat (blksz : ℕ) (files : List (String × List β × ℕ)) :
    (addfiles blksz files).IsFlat ∧ (addfiles blksz files).svfBlksz = blksz := by
  induction files using List.reverseRecOn with
  | nil => exact ⟨init_isFlat blksz, rfl⟩
  | append_singleton files file ih =>
      have hadded := addfile_added ih.1 file.1 file.2.1 file.2.2
      have hsplit : addfiles blksz (files ++ [file]) =
          ((addfiles blksz files).addfile file.1 file.2.1 file.2.2).1 := by
        rw [addfiles, List.foldl_append]
        rfl
      rw [hsplit]
      exact ⟨hadded.isFlat, hadded.blksz.trans ih.2⟩

/-- A run on files that hold encrypted blocks is that of a flat array of the plain blocks. -/
theorem suSvf_plain (hc : cipher.ByPage enc dec) (blksz : ℕ)
    (files : List (String × List β × ℕ)) (plain : List β)
    (hplain : (addfiles blksz files).blocks = mapFrom enc 0 plain) (ops : List (SvfOp β))
    (hmeets : RunCrypts ops ((addfiles blksz files).setcipher cipher)) :
    ∃ svf answers plain',
      run ops ((addfiles blksz files).setcipher cipher) = some (svf, answers) ∧
      svf.blocks = mapFrom enc 0 plain' ∧
      FlatRun blksz ⟨plain, (addfiles blksz files).room⟩ ops answers ⟨plain', svf.room⟩ := by
  obtain ⟨h, hblksz⟩ := addfiles_isFlat blksz files
  have hholding : ((addfiles blksz files).setcipher cipher).Holding cipher enc plain :=
    ⟨⟨h.fitted, h.size, h.space, h.names⟩, rfl, hplain⟩
  obtain ⟨svf, answers, plain', hrun, h', hflat⟩ := run_plain hc hholding hmeets
  rw [show ((addfiles blksz files).setcipher cipher).svfBlksz = blksz from hblksz] at hflat
  exact ⟨svf, answers, plain', hrun, h'.blocks, hflat⟩

def addCipher : SvfCipher ℤ where
  encrypt daddr data := mapFrom (fun i page => page + (i + 1)) daddr data
  decrypt daddr data := mapFrom (fun i page => page - (i + 1)) daddr data

theorem addCipher_byPage :
    addCipher.ByPage (fun i page => page + (i + 1)) fun i page => page - (i + 1) where
  encrypt _ _ := rfl
  decrypt _ _ := rfl
  inverse _ _ := Int.add_sub_cancel _ _

/-- Writes and reads of several blocks in each of two files, with the first one extended. -/
theorem suSvf_plain_twoFiles :
    ∃ svf answers, run [.extendsize 2 [], .write 1 [5] [], .read 0 2, .write 2 [7, 8] [],
        .read 2 2] ((addfiles 1 [("a", [], 2), ("b", [], 3)]).setcipher addCipher) =
          some (svf, answers) ∧
      answers.map Prod.snd = [[], [], [0, 5], [], [7, 8]] := by
  obtain ⟨svf, answers, plain', hrun, -, hflat⟩ := suSvf_plain addCipher_byPage 1
    [("a", [], 2), ("b", [], 3)] [] (by decide +kernel)
    [.extendsize 2 [], .write 1 [5] [], .read 0 2, .write 2 [7, 8] [], .read 2 2]
    (by decide +kernel)
  refine ⟨svf, answers, hrun, ?_⟩
  have hread : (run [.extendsize 2 [], .write 1 [5] [], .read 0 2, .write 2 [7, 8] [],
      .read 2 2] ((addfiles 1 [("a", [], 2), ("b", [], 3)]).setcipher addCipher)).map
        (fun r => r.2.map Prod.snd) = some [[], [], [0, 5], [], [7, 8]] := by decide +kernel
  rw [hrun, Option.map_some, Option.some_inj] at hread
  exact hread

/-- A write over the border of two files is read back wrong block by block, and so is a block of
the second file that was only extended. -/
theorem not_suSvf_plain :
    (run [.write 1 [7, 8] [], .read 1 1, .read 2 1]
        ((addfiles 1 [("a", [], 2), ("b", [], 2)]).setcipher addCipher)).map Prod.snd =
      some [(.success, []), (.success, [7]), (.success, [7])] ∧
    (run [.extendsize 4 [], .read 0 1, .read 3 1]
        ((addfiles 1 [("a", [], 2), ("b", [], 2)]).setcipher addCipher)).map Prod.snd =
      some [(.success, []), (.success, [0]), (.success, [-4])] := by
  decide +kernel

end SuSvfil

end SolidDB
