import SolidDB.Su.SvfFiles
import SolidDB.Su.SvfTransfer

/-!
# The runs of a split virtual file

Every run behaves as a flat array of blocks with some room behind it, when no used file is
removed and no extension passes over a file that has no room for a block.
-/

namespace SolidDB

open BlockArray

/-- The operations on a split virtual file. An extension of the physical files is given by what
the attempts come to. -/
inductive SvfOp (β : Type*) where
  | addfile (pathname : String) (pages : List β) (maxsize : ℕ)
  | extendsize (sz : ℕ) (outcomes : List (Option ℕ))
  | write (loc : ℕ) (data : List β) (outcomes : List (Option ℕ))
  | read (loc size_blks : ℕ)
  | decreasesize (daddr : ℕ)
  | removelastfile

structure FlatArray (β : Type*) where
  blocks : List β
  room : ℕ

variable {β : Type*} [Zero β]

/-- An extension to `sz` blocks brings zero blocks. It fails only when no room is left. -/
def ExtendStep (sz : ℕ) (f : FlatArray β) (rc : SvfRet) (f' : FlatArray β) : Prop :=
  ∃ k, f'.blocks = f.blocks ++ List.replicate k 0 ∧ k + f'.room ≤ f.room ∧
    f.blocks.length + k ≤ max f.blocks.length sz ∧
    (rc = .success → sz ≤ f'.blocks.length) ∧
    (rc ≠ .success → f'.room = 0 ∧ f'.blocks.length < sz)

def FlatStep (blksz : ℕ) (f : FlatArray β) (op : SvfOp β) (rc : SvfRet) (data : List β)
    (f' : FlatArray β) : Prop :=
  match op with
  | .addfile _ pages maxsize =>
      f'.blocks = f.blocks ++ SuSvfil.addedBlocks pages maxsize blksz rc ∧
        f'.room = SuSvfil.addedRoom f.room (maxsize / blksz)
          (SuSvfil.addedBlocks pages maxsize blksz rc) rc
  | .extendsize sz _ => ExtendStep sz f rc f'
  | .write loc new _ =>
      ∃ f₁, ExtendStep (loc + new.length) f rc f₁ ∧
        f' = if rc = .success then { f₁ with blocks := overwrite f₁.blocks loc new } else f₁
  | .read loc n =>
      f' = f ∧ (loc < f.blocks.length → loc + n ≤ f.blocks.length →
        rc = .success ∧ data = slice f.blocks loc n)
  | .decreasesize d =>
      rc = .success ∧ f'.blocks = f.blocks.take d ∧ f'.room = f.room + (f.blocks.length - d)
  | .removelastfile => f'.blocks = f.blocks ∧ f'.room ≤ f.room

def FlatRun (blksz : ℕ) :
    FlatArray β → List (SvfOp β) → List (SvfRet × List β) → FlatArray β → Prop
  | f, [], [], f' => f' = f
  | f, op :: ops, (rc, data) :: answers, f' =>
      ∃ f₁, FlatStep blksz f op rc data f₁ ∧ FlatRun blksz f₁ ops answers f'
  | _, _, _, _ => False

namespace SuSvfil

variable {svf svf' : SuSvfil β} {data new : List β} {loc sz : ℕ} {rc : SvfRet} {op : SvfOp β}
  {ops : List (SvfOp β)}

/-- The split virtual file as a flat array. -/
def flatArray (svf : SuSvfil β) : FlatArray β := ⟨svf.blocks, svf.room⟩

def step (svf : SuSvfil β) : SvfOp β → Option (SuSvfil β × SvfRet × List β)
  | .addfile pathname pages maxsize =>
      let added := svf.addfile pathname pages maxsize
      some (added.1, added.2, [])
  | .extendsize sz outcomes => (svf.extendszlocal sz outcomes).map fun r => (r.1, r.2, [])
  | .write loc data outcomes => (svf.writelocal loc data outcomes).map fun r => (r.1, r.2, [])
  | .read loc n => (svf.readlocal loc true n).map fun r => (svf, r.1, r.2)
  | .decreasesize daddr =>
      let shrunk := svf.decreasesize daddr
      some (shrunk.1, shrunk.2, [])
  | .removelastfile =>
      let removed := svf.removelastfile
      some (removed.1, removed.2, [])

def run : List (SvfOp β) → SuSvfil β → Option (SuSvfil β × List (SvfRet × List β))
  | [], svf => some (svf, [])
  | op :: ops, svf =>
      match svf.step op with
      | none => none
      | some r => (run ops r.1).map fun rest => (rest.1, r.2 :: rest.2)

def Meets (svf : SuSvfil β) : SvfOp β → Prop
  | .addfile _ _ _ => True
  | .extendsize sz _ => svf.svfNrblks < sz → svf.NoSkip
  | .write loc data _ =>
      loc + data.length < 2 ^ 32 ∧ (svf.svfNrblks < loc + data.length → svf.NoSkip)
  | .read _ _ => True
  | .decreasesize daddr => daddr ≠ 0 ∧ daddr ≤ svf.svfNrblks
  | .removelastfile => svf.LastUnused

def RunMeets : List (SvfOp β) → SuSvfil β → Prop
  | [], _ => True
  | op :: ops, svf =>
      svf.Meets op ∧ ∀ r ∈ svf.step op, RunMeets ops r.1

instance (svf : SuSvfil β) (op : SvfOp β) : Decidable (svf.Meets op) :=
  match op with
  | .addfile _ _ _ => inferInstanceAs (Decidable True)
  | .extendsize sz _ => inferInstanceAs (Decidable (svf.svfNrblks < sz → svf.NoSkip))
  | .write loc data _ =>
      inferInstanceAs (Decidable (loc + data.length < 2 ^ 32 ∧
        (svf.svfNrblks < loc + data.length → svf.NoSkip)))
  | .read _ _ => inferInstanceAs (Decidable True)
  | .decreasesize daddr => inferInstanceAs (Decidable (daddr ≠ 0 ∧ daddr ≤ svf.svfNrblks))
  | .removelastfile => inferInstanceAs (Decidable svf.LastUnused)

instance decidableRunMeets : (ops : List (SvfOp β)) → (svf : SuSvfil β) →
    Decidable (RunMeets ops svf)
  | [], _ => inferInstanceAs (Decidable True)
  | op :: ops, svf =>
      have := fun r : SuSvfil β × SvfRet × List β => decidableRunMeets ops r.1
      inferInstanceAs (Decidable (svf.Meets op ∧ ∀ r ∈ svf.step op, RunMeets ops r.1))

/-! ## The operations -/

theorem Extends.extendStep (h : svf.IsFlat) {k : ℕ}
    (hext : Extends sz svf svf' rc (List.replicate k 0)) :
    ExtendStep sz svf.flatArray rc svf'.flatArray := by
  have hlen := h.length_blocks
  have hlen' := hext.grown.isFlat.length_blocks
  have htotal := hext.grown.total
  have hsize := hext.size
  have hroom' := hext.grown.isFlat.size
  have hblocks := congrArg List.length hext.grown.blocks
  rw [List.length_append, List.length_replicate] at hblocks
  refine ⟨k, hext.grown.blocks, ?_, ?_, ?_, ?_⟩
  · simp only [flatArray, room]
    omega
  · simp only [flatArray]
    omega
  · intro hrc
    have hsuccess := hext.success hrc
    simp only [flatArray]
    omega
  · intro hrc
    have hfailure := hext.failure hrc
    simp only [flatArray, room]
    omega

structure StepFlat (svf svf' : SuSvfil β) (op : SvfOp β) (rc : SvfRet) (data : List β) :
    Prop where
  isFlat : svf'.IsFlat
  used : svf'.Used
  cipher : svf'.svfCipher = none
  blksz : svf'.svfBlksz = svf.svfBlksz
  flat : FlatStep svf.svfBlksz svf.flatArray op rc data svf'.flatArray

theorem step_extendsize (h : svf.IsFlat) (hused : svf.Used) (hcipher : svf.svfCipher = none)
    (outcomes : List (Option ℕ)) (hmeets : svf.svfNrblks < sz → svf.NoSkip) :
    ∃ svf' rc, svf.extendszlocal sz outcomes = some (svf', rc) ∧
      svf'.Used ∧ ∃ k, Extends sz svf svf' rc (List.replicate k 0) := by
  by_cases hsz : svf.svfNrblks < sz
  · obtain ⟨svf', rc, k, hrun, hext⟩ := extendszlocal_extends h hcipher sz outcomes
    exact ⟨svf', rc, hrun, (hext.grown.used hused (hmeets hsz)).1, k, hext⟩
  · refine ⟨svf, .success, ?_, hused, 0, Extends.refl h (Nat.le_of_not_lt hsz)⟩
    rw [extendszlocal, extendszlocalLoop, if_neg hsz]

theorem step_write (h : svf.IsFlat) (hused : svf.Used) (hcipher : svf.svfCipher = none)
    (outcomes : List (Option ℕ)) (hmeets : svf.Meets (.write loc data outcomes)) :
    ∃ svf' rc, svf.writelocal loc data outcomes = some (svf', rc) ∧
      StepFlat svf svf' (.write loc data outcomes) rc [] := by
  obtain ⟨hend, hskip⟩ := hmeets
  have hextended : (if svf.svfNrblks < loc + data.length then
      svf.extendszlocal ((loc + data.length) % 2 ^ 32) outcomes else some (svf, .success)) =
      svf.extendszlocal (loc + data.length) outcomes := by
    split
    · rw [Nat.mod_eq_of_lt hend]
    · rename_i hlt
      rw [extendszlocal, extendszlocalLoop, if_neg hlt]
  obtain ⟨svf₁, rc, hrun, hused₁, k, hext⟩ := step_extendsize h hused hcipher outcomes hskip
  have hcipher₁ := hext.grown.cipher.trans hcipher
  have hblksz₁ := hext.grown.blksz
  have hstep := hext.extendStep h
  unfold writelocal
  dsimp only
  rw [hextended, hrun]
  dsimp only
  by_cases hrc : rc = .success
  · -- the blocks up to the end of the data are there
    have hsize := hext.success hrc
    rw [if_pos hrc]
    obtain ⟨svf', hwrite, hw⟩ : ∃ svf', writelocalLoop loc data.length loc data svf₁ =
        some (svf', .success) ∧ Written svf₁ svf' (overwrite svf₁.blocks loc data) :=
      writelocalLoop_written hext.grown.isFlat hcipher₁ hsize (Nat.le_refl _)
    refine ⟨svf', .success, hwrite, hw.isFlat, hw.used hused₁, hw.cipher.trans hcipher₁,
      hw.blksz.trans hblksz₁, svf₁.flatArray, hrc ▸ hstep, ?_⟩
    have htotal : svfTotal svf'.svfVfpArr = svfTotal svf₁.svfVfpArr := by
      rw [svfTotal_ranges, ranges, hw.ranges, ← ranges, ← svfTotal_ranges]
    rw [if_pos rfl]
    simp only [flatArray, hw.blocks, room, htotal, hw.size]
  · rw [if_neg hrc]
    refine ⟨svf₁, rc, rfl, hext.grown.isFlat, hused₁, hcipher₁, hblksz₁, svf₁.flatArray, hstep, ?_⟩
    rw [if_neg hrc]

/-- Every operation that meets its conditions does what it does on a flat array. -/
theorem step_flat (h : svf.IsFlat) (hused : svf.Used) (hcipher : svf.svfCipher = none)
    (op : SvfOp β) (hmeets : svf.Meets op) :
    ∃ svf' rc data, svf.step op = some (svf', rc, data) ∧ StepFlat svf svf' op rc data := by
  cases op with
  | addfile pathname pages maxsize =>
      have hadded := addfile_added h pathname pages maxsize
      exact ⟨_, _, _, rfl, hadded.isFlat, hadded.used hused, hadded.cipher.trans hcipher,
        hadded.blksz, hadded.blocks, hadded.room⟩
  | extendsize sz outcomes =>
      obtain ⟨svf', rc, hrun, hused', k, hext⟩ := step_extendsize h hused hcipher outcomes hmeets
      refine ⟨svf', rc, [], ?_, hext.grown.isFlat, hused', hext.grown.cipher.trans hcipher,
        hext.grown.blksz, hext.extendStep h⟩
      rw [step, hrun, Option.map_some]
  | write loc data outcomes =>
      obtain ⟨svf', rc, hrun, hstep⟩ := step_write h hused hcipher outcomes hmeets
      refine ⟨svf', rc, [], ?_, hstep⟩
      rw [step, hrun, Option.map_some]
  | read loc n =>
      obtain ⟨⟨rc, out⟩, hrun⟩ := readlocal_returns h true loc n
      refine ⟨svf, rc, out, ?_, h, hused, hcipher, rfl, rfl, ?_⟩
      · rw [step, hrun, Option.map_some]
      · intro hloc hn
        have hlen := h.length_blocks
        simp only [flatArray] at hloc hn
        rw [readlocal_eq h hused hcipher true (by omega) (by omega), Option.some_inj,
          Prod.mk.injEq] at hrun
        exact ⟨hrun.1.symm, hrun.2.symm⟩
  | decreasesize daddr =>
      obtain ⟨hpos, hd⟩ := hmeets
      obtain ⟨hrc, hshrunk⟩ := decreasesize_shrunk h hpos hd
      have htotal : svfTotal (svf.decreasesize daddr).1.svfVfpArr = svfTotal svf.svfVfpArr := by
        rw [svfTotal_ranges, hshrunk.ranges, ← svfTotal_ranges]
      have hlen := h.length_blocks
      have hsize := h.size
      refine ⟨_, _, _, rfl, hshrunk.isFlat, hshrunk.used hused, hshrunk.cipher.trans hcipher,
        hshrunk.blksz, hrc, hshrunk.blocks, ?_⟩
      simp only [flatArray, room, htotal, hshrunk.size]
      omega
  | removelastfile =>
      obtain ⟨room, hroom, hadded⟩ := removelastfile_added h hused hmeets
      refine ⟨_, _, _, rfl, hadded.isFlat, hadded.used hused, hadded.cipher.trans hcipher,
        hadded.blksz, ?_, hadded.room.trans_le hroom⟩
      exact hadded.blocks.trans (List.append_nil _)

/-! ## The runs -/

theorem run_flat (h : svf.IsFlat) (hused : svf.Used) (hcipher : svf.svfCipher = none)
    (hmeets : RunMeets ops svf) :
    ∃ svf' answers, run ops svf = some (svf', answers) ∧ svf'.IsFlat ∧
      FlatRun svf.svfBlksz svf.flatArray ops answers svf'.flatArray := by
  induction ops generalizing svf with
  | nil => exact ⟨svf, [], rfl, h, rfl⟩
  | cons op ops ih =>
      obtain ⟨svf₁, rc, data, hstep, hflat⟩ := step_flat h hused hcipher op hmeets.1
      have hmeets₁ : RunMeets ops svf₁ := hmeets.2 (svf₁, rc, data) hstep
      obtain ⟨svf', answers, hrun, h', hrest⟩ := ih hflat.isFlat hflat.used hflat.cipher hmeets₁
      refine ⟨svf', (rc, data) :: answers, ?_, h', svf₁.flatArray, hflat.flat, ?_⟩
      · rw [run, hstep]
        simp only [hrun, Option.map_some]
      · rw [← hflat.blksz]
        exact hrest

/-- Every run from an empty split virtual file without a cipher is that of a flat array, with
the blocks in adjacent files that are filled in order. The room left behind the end is what
`addedRoom` counts for the added files. -/
theorem suSvf_flat (blksz : ℕ) (ops : List (SvfOp β)) (hmeets : RunMeets ops (init blksz)) :
    ∃ svf answers, run ops (init blksz) = some (svf, answers) ∧ svf.IsFlat ∧
      svf.blocks.length = svf.getsize ∧ (svf.room = 0 → svf.Full) ∧
      FlatRun blksz ⟨[], 0⟩ ops answers svf.flatArray := by
  obtain ⟨svf, answers, hrun, h, hflat⟩ := run_flat (init_isFlat blksz) (init_used blksz) rfl hmeets
  exact ⟨svf, answers, hrun, h, h.length_blocks,
    fun hroom => h.full (Nat.sub_eq_zero_iff_le.mp hroom), hflat⟩

/-- Two files, a write over their border, a failed extension, and a file that is shrunk away. -/
theorem suSvf_flat_border :
    ∃ svf answers, run [.addfile "a" [] 2, .addfile "b" [] 3, .write 1 [7, 8, 9] [], .read 1 3,
        .extendsize 5 [some 4], .write 3 [5, 6] [], .decreasesize 2, .removelastfile]
        (init 1 : SuSvfil ℕ) = some (svf, answers) ∧ svf.blocks = [0, 7] := by
  obtain ⟨svf, answers, hrun, -, -, -, hflat⟩ := suSvf_flat 1
    ([.addfile "a" [] 2, .addfile "b" [] 3, .write 1 [7, 8, 9] [], .read 1 3,
      .extendsize 5 [some 4], .write 3 [5, 6] [], .decreasesize 2, .removelastfile] :
      List (SvfOp ℕ)) (by decide +kernel)
  refine ⟨svf, answers, hrun, ?_⟩
  have hblocks : (run [.addfile "a" [] 2, .addfile "b" [] 3, .write 1 [7, 8, 9] [], .read 1 3,
      .extendsize 5 [some 4], .write 3 [5, 6] [], .decreasesize 2, .removelastfile]
      (init 1 : SuSvfil ℕ)).map (fun r => r.1.blocks) = some [0, 7] := by decide +kernel
  rw [hrun, Option.map_some, Option.some_inj] at hblocks
  exact hblocks

/-- After a file that has no room for a block, the count of used files is too small: a read
over the border of the next two files ends early, and `su_svf_removelastfile` takes a file with
blocks. After shrinking the count is too large, with the same effect on the removal. -/
theorem not_suSvf_flat :
    (run [.addfile "a" [] 0, .addfile "b" [] 1, .addfile "c" [] 1, .write 0 [7, 8] [],
        .read 0 2, .removelastfile, .read 0 2] (init 1 : SuSvfil ℕ)).map Prod.snd =
      some [(.success, []), (.success, []), (.success, []), (.success, []),
        (.fileReadEof, [7]), (.success, []), (.fileReadEof, [7])] ∧
    (run [.addfile "a" [] 2, .addfile "b" [] 1, .write 0 [7, 8, 9] [], .decreasesize 1,
        .addfile "c" [5] 1, .removelastfile, .read 0 2] (init 1 : SuSvfil ℕ)).map Prod.snd =
      some [(.success, []), (.success, []), (.success, []), (.success, []), (.success, []),
        (.success, []), (.fileWriteCfgExceeded, [7])] := by
  decide +kernel

end SuSvfil

end SolidDB
