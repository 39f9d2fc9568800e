import Mathlib.Algebra.Notation.Defs
import SolidDB.Foundation.BlockArray
import SolidDB.Su.Bsrch
import Mathlib.Algebra.Order.Ring.Int

/-!
# The split virtual file

A split virtual file is one range of block addresses over several physical files. Each file
has the addresses from `vf_startdaddr` on, as many as its maximum size has blocks. A physical
file is the list of its blocks.
-/

namespace SolidDB

open BlockArray

def suDaddrMax : ℕ := 2 ^ 32 - 2

/-- Subtraction of `su_daddr_t`. -/
def daddrSub (x y : ℕ) : ℕ := (x + 2 ^ 32 - y) % 2 ^ 32

inductive SvfRet where
  | success
  | duplicateFilename
  | fileAddressSpaceExceeded
  | fileWriteDiskFull
  | fileWriteCfgExceeded
  | fileWriteFailure
  | fileReadEof
  | fileReadIllegalAddr
  | fileRemoveFailure
  deriving DecidableEq

/-- `svf_encrypt` and `svf_decrypt`, which get the address for a run of blocks. -/
structure SvfCipher (β : Type*) where
  encrypt : ℕ → List β → List β
  decrypt : ℕ → List β → List β

structure Vfil (β : Type*) where
  vfFname : String
  vfPages : List β
  vfMaxszblks : ℕ
  vfStartdaddr : ℕ
  vfSzblks : ℕ

structure SuSvfil (β : Type*) where
  svfBlksz : ℕ
  svfVfpArr : List (Vfil β)
  svfVfpArrused : ℕ
  svfNrblks : ℕ
  svfCipher : Option (SvfCipher β)

variable {β : Type*}

namespace Vfil

def enddaddr (v : Vfil β) : ℕ := v.vfStartdaddr + v.vfMaxszblks

def blocks (v : Vfil β) : List β := v.vfPages.take v.vfSzblks

def init (pathname : String) (pages : List β) (maxsz blksz startdaddr : ℕ) : Vfil β :=
  { vfFname := pathname
    vfPages := pages
    vfMaxszblks := maxsz / blksz
    vfStartdaddr := startdaddr
    vfSzblks := min pages.length (maxsz / blksz) }

def cmp (addr : ℕ) (v : Vfil β) : Ordering :=
  if addr < v.vfStartdaddr then .lt else if v.enddaddr ≤ addr then .gt else .eq

def setVfpSize [Zero β] (v : Vfil β) (szblks : ℕ) : Vfil β :=
  { v with vfPages := resize v.vfPages szblks, vfSzblks := szblks }

end Vfil

/-- `SsBWritePages`. Blocks between the end of the file and `pos` are zero. -/
def ssBWritePages [Zero β] (pages : List β) (pos : ℕ) (data : List β) : List β :=
  overwrite (pages ++ List.replicate (pos - pages.length) 0) pos data

/-- `SsBChsizePages` for a larger size, with the pages and whether it succeeds. When it fails,
the file has any size from its old to the new one. -/
def ssBChsizePages [Zero β] (pages : List β) (szblks : ℕ) : Option ℕ → List β × Bool
  | none => (resize pages szblks, true)
  | some reached => (resize pages (max pages.length (min reached szblks)), false)

namespace SuSvfil

def init (blksz : ℕ) : SuSvfil β :=
  { svfBlksz := blksz
    svfVfpArr := []
    svfVfpArrused := 0
    svfNrblks := 0
    svfCipher := none }

def setcipher (svf : SuSvfil β) (cipher : SvfCipher β) : SuSvfil β :=
  { svf with svfCipher := some cipher }

def getsize (svf : SuSvfil β) : ℕ := svf.svfNrblks

/-- `svf_encrypt`, where there is a cipher. -/
def svfEncrypt (svf : SuSvfil β) (daddr : ℕ) (data : List β) : List β :=
  match svf.svfCipher with
  | none => data
  | some cipher => cipher.encrypt daddr data

/-- `svf_decrypt`, where there is a cipher. -/
def svfDecrypt (svf : SuSvfil β) (daddr : ℕ) (data : List β) : List β :=
  match svf.svfCipher with
  | none => data
  | some cipher => cipher.decrypt daddr data

/-! ## Adding a file -/

/-- The preceding files, the last one first, and the new file that has blocks: the files
without blocks are removed, and the first one with blocks ends where these end. -/
def refitPreceding : List (Vfil β) → Vfil β → List (Vfil β) × Vfil β
  | [], vfp => ([], { vfp with vfStartdaddr := 0 })
  | vfp1 :: rest, vfp =>
      if vfp1.vfSzblks = 0 then refitPreceding rest vfp
      else
        ({ vfp1 with vfMaxszblks := vfp1.vfSzblks } :: rest,
          { vfp with vfStartdaddr := vfp1.vfSzblks + vfp1.vfStartdaddr })

/-- `svf_addfile2_nomutex` for a physical file that has the pages. -/
def addfile (svf : SuSvfil β) (pathname : String) (pages : List β) (maxsize : ℕ) :
    SuSvfil β × SvfRet :=
  if pathname ∈ svf.svfVfpArr.map Vfil.vfFname then (svf, .duplicateFilename)
  else
    let daddr := (svf.svfVfpArr.getLast?.map Vfil.enddaddr).getD 0
    if (suDaddrMax - daddr) * svf.svfBlksz < maxsize then (svf, .fileAddressSpaceExceeded)
    else
      let vfp := Vfil.init pathname pages maxsize svf.svfBlksz daddr
      if 0 < vfp.vfSzblks then
        let refit := refitPreceding svf.svfVfpArr.reverse vfp
        ({ svf with
            svfVfpArr := refit.1.reverse ++ [refit.2]
            svfVfpArrused := svf.svfVfpArrused + 1
            svfNrblks := refit.2.vfStartdaddr + refit.2.vfSzblks }, .success)
      else ({ svf with svfVfpArr := svf.svfVfpArr ++ [vfp] }, .success)

/-! ## Finding a file -/

def findvfil (svf : SuSvfil β) (addr : ℕ) : Except SvfRet ℕ :=
  let found := suBsearch (fun i => (svf.svfVfpArr[i]?.map (Vfil.cmp addr)).getD .lt)
    svf.svfVfpArr.length
  if found.1 then .ok found.2
  else
    match found.2 with
    | 0 => .error .fileWriteCfgExceeded
    | i + 1 =>
        if addr < (svf.svfVfpArr[i]?.map Vfil.enddaddr).getD 0 then .error .fileWriteDiskFull
        else .error .fileWriteCfgExceeded

/-! ## Extending -/

def rangesFrom (start : ℕ) : List (Vfil β) → List (Vfil β)
  | [] => []
  | vfp :: rest =>
      { vfp with vfStartdaddr := start } :: rangesFrom (start + vfp.vfMaxszblks) rest

def updateranges (arr : List (Vfil β)) (startidx : ℕ) : List (Vfil β) :=
  let first := if startidx = 0 then 1 else startidx
  arr.take first ++ rangesFrom ((arr[first - 1]?.map Vfil.enddaddr).getD 0) (arr.drop first)

/-- The encryption of a new zero page at the address, and whether it was written: a page
behind the end that the file has reached is not. -/
def encryptNewpage [Zero β] (svf : SuSvfil β) (vfp : Vfil β) (ext : List β × Bool) (i : ℕ) :
    List β × Bool :=
  let pos := i - vfp.vfStartdaddr
  if pos < ext.1.length then (ssBWritePages ext.1 pos (svf.svfEncrypt i [0]), true)
  else (ext.1, false)

def chsizeEncrypted [Zero β] (svf : SuSvfil β) (vfp : Vfil β) (newszblks : ℕ)
    (outcome : Option ℕ) : List β × Bool :=
  let ext := ssBChsizePages vfp.vfPages newszblks outcome
  match svf.svfCipher with
  | none => ext
  | some _ =>
      (List.range' svf.svfNrblks (newszblks - svf.svfNrblks)).foldl (svf.encryptNewpage vfp) ext

/-- The size that a file gets to have blocks up to the address `sz`. -/
def newszblks (vfp : Vfil β) (sz : ℕ) : ℕ :=
  if sz < vfp.enddaddr then sz - vfp.vfStartdaddr else vfp.vfMaxszblks

def extendedFile (svf : SuSvfil β) (f_idx : ℕ) (vfp : Vfil β) (newszblks : ℕ)
    (ext : List β × Bool) : SuSvfil β :=
  if ext.2 then
    { svf with
      svfVfpArr :=
        svf.svfVfpArr.set f_idx { vfp with vfPages := ext.1, vfSzblks := newszblks }
      svfNrblks := vfp.vfStartdaddr + newszblks }
  else
    let actualszblks := ext.1.length
    let vfp' := { vfp with
      vfPages := ext.1, vfMaxszblks := actualszblks, vfSzblks := actualszblks }
    let arr := updateranges (svf.svfVfpArr.set f_idx vfp') (f_idx + 1)
    if actualszblks = 0 then
      { svf with svfVfpArr := arr.eraseIdx f_idx, svfVfpArrused := svf.svfVfpArrused - 1 }
    else
      { svf with svfVfpArr := arr, svfNrblks := vfp.vfStartdaddr + actualszblks }

/-- One round of `su_svf_extendszlocal` with the file at the index. -/
def extendfile [Zero β] (svf : SuSvfil β) (sz f_idx : ℕ) (vfp : Vfil β)
    (outcome : Option ℕ) : SuSvfil β :=
  let used := if svf.svfVfpArrused ≤ f_idx then svf.svfVfpArrused + 1 else svf.svfVfpArrused
  let newsz := newszblks vfp sz
  extendedFile { svf with svfVfpArrused := used } f_idx vfp newsz
    (svf.chsizeEncrypted vfp newsz outcome)

/-- The loop of `su_svf_extendszlocal`, for at most as many rounds as the first argument. The
list has what the physical extensions come to, all later ones succeed. -/
def extendszlocalLoop [Zero β] (sz : ℕ) :
    ℕ → List (Option ℕ) → SuSvfil β → Option (SuSvfil β × SvfRet)
  | 0, _, svf => if svf.svfNrblks < sz then none else some (svf, .success)
  | rounds + 1, outcomes, svf =>
      if svf.svfNrblks < sz then
        match svf.findvfil svf.svfNrblks with
        | .error rc => some (svf, rc)
        | .ok f_idx =>
            match svf.svfVfpArr[f_idx]? with
            | none => none
            | some vfp =>
                extendszlocalLoop sz rounds outcomes.tail
                  (svf.extendfile sz f_idx vfp (outcomes.headD none))
      else some (svf, .success)

/-- `su_svf_extendszlocal`. Each round fills or removes a file, and there is one round more
where no file is found. -/
def extendszlocal [Zero β] (svf : SuSvfil β) (sz : ℕ) (outcomes : List (Option ℕ)) :
    Option (SuSvfil β × SvfRet) :=
  extendszlocalLoop sz (svf.svfVfpArr.length + 1) outcomes svf

/-! ## Reading and writing -/

/-- The loop of `su_svf_readlocal` for at most as many rounds as the first argument. The last
argument has what is read already. -/
def readlocalLoop (svf : SuSvfil β) (loc : ℕ) (crypt_enabled : Bool) :
    ℕ → ℕ → ℕ → List β → Option (SvfRet × List β)
  | 0, _, size2_blks, data => if size2_blks = 0 then some (.success, data) else none
  | rounds + 1, loc2, size2_blks, data =>
      if size2_blks = 0 then some (.success, data)
      else
        match svf.findvfil loc2 with
        | .error rc => some (rc, data)
        | .ok f_idx =>
            match svf.svfVfpArr[f_idx]? with
            | none => none
            | some vfp =>
                let lastfile := f_idx + 1 = svf.svfVfpArrused
                let loc_ofs_blks := loc2 - vfp.vfStartdaddr
                let end_blks := if lastfile then vfp.vfSzblks else vfp.vfMaxszblks
                let room_blks := min (daddrSub end_blks loc_ofs_blks) size2_blks
                let run := slice vfp.vfPages loc_ofs_blks room_blks
                if run.length ≠ room_blks then some (.fileReadEof, data ++ run)
                else if room_blks < size2_blks ∧ lastfile then some (.fileReadEof, data ++ run)
                else
                  readlocalLoop svf loc crypt_enabled rounds (loc2 + room_blks)
                    (size2_blks - room_blks)
                    (data ++ if crypt_enabled then svf.svfDecrypt loc run else run)

/-- `su_svf_readlocal`. A round that reads no block is repeated for ever. -/
def readlocal (svf : SuSvfil β) (loc : ℕ) (crypt_enabled : Bool) (size_blks : ℕ) :
    Option (SvfRet × List β) :=
  if svf.svfNrblks ≤ loc then some (.fileReadIllegalAddr, [])
  else readlocalLoop svf loc crypt_enabled size_blks loc size_blks []

def writefile [Zero β] (svf : SuSvfil β) (f_idx : ℕ) (vfp : Vfil β) (loc_ofs_blks : ℕ)
    (data : List β) : SuSvfil β :=
  { svf with
    svfVfpArr :=
      svf.svfVfpArr.set f_idx
        { vfp with vfPages := ssBWritePages vfp.vfPages loc_ofs_blks data } }

/-- The loop of `su_svf_writelocal` for at most as many rounds as the first number. -/
def writelocalLoop [Zero β] (loc : ℕ) :
    ℕ → ℕ → List β → SuSvfil β → Option (SuSvfil β × SvfRet)
  | 0, _, data2, svf => if data2.length = 0 then some (svf, .success) else none
  | rounds + 1, loc2, data2, svf =>
      if data2.length = 0 then some (svf, .success)
      else
        match svf.findvfil loc2 with
        | .error rc => some (svf, rc)
        | .ok f_idx =>
            match svf.svfVfpArr[f_idx]? with
            | none => none
            | some vfp =>
                let loc_ofs_blks := loc2 - vfp.vfStartdaddr
                let room_blks := min (daddrSub vfp.vfSzblks loc_ofs_blks) data2.length
                writelocalLoop loc rounds (loc2 + room_blks) (data2.drop room_blks)
                  (svf.writefile f_idx vfp loc_ofs_blks
                    (svf.svfEncrypt loc (data2.take room_blks)))

/-- `su_svf_writelocal`. A round that writes no block is repeated for ever. -/
def writelocal [Zero β] (svf : SuSvfil β) (loc : ℕ) (data : List β)
    (outcomes : List (Option ℕ)) : Option (SuSvfil β × SvfRet) :=
  let extended :=
    if svf.svfNrblks < loc + data.length then
      svf.extendszlocal ((loc + data.length) % 2 ^ 32) outcomes
    else some (svf, .success)
  match extended with
  | none => none
  | some (svf', rc) =>
      if rc = .success then writelocalLoop loc data.length loc data svf' else some (svf', rc)

/-! ## Shrinking -/

/-- The files, the last one first, of `svf_decreasesize_local`. The first file is not
emptied. -/
def decreaseTail [Zero β] (daddr : ℕ) : List (Vfil β) → List (Vfil β)
  | [] => []
  | vfp :: rest =>
      if vfp.vfStartdaddr < daddr ∨ rest = [] then
        vfp.setVfpSize (daddr - vfp.vfStartdaddr) :: rest
      else vfp.setVfpSize 0 :: decreaseTail daddr rest

/-- `svf_decreasesize_local` where the physical files can be truncated. -/
def decreasesize [Zero β] (svf : SuSvfil β) (daddr : ℕ) : SuSvfil β × SvfRet :=
  if daddr = 0 then (svf, .fileWriteFailure)
  else
    ({ svf with
        svfVfpArr := (decreaseTail daddr svf.svfVfpArr.reverse).reverse
        svfNrblks := daddr }, .success)

def removelastfile (svf : SuSvfil β) : SuSvfil β × SvfRet :=
  if svf.svfVfpArr.length = 0 then (svf, .fileRemoveFailure)
  else if svf.svfVfpArr.length = svf.svfVfpArrused then (svf, .fileRemoveFailure)
  else ({ svf with svfVfpArr := svf.svfVfpArr.dropLast }, .success)

/-! ## Asking for a file -/

def getphysfilename (svf : SuSvfil β) (daddr : ℕ) : Option String :=
  match svf.findvfil daddr with
  | .error _ => none
  | .ok f_idx => svf.svfVfpArr[f_idx]?.map Vfil.vfFname

def getfilespecnoAndPhysdaddr (svf : SuSvfil β) (daddr : ℕ) : Option (ℕ × ℕ) :=
  match svf.findvfil daddr with
  | .error _ => none
  | .ok f_idx =>
      svf.svfVfpArr[f_idx]?.map fun vfp => (f_idx + 1, daddr - vfp.vfStartdaddr)

end SuSvfil

end SolidDB
