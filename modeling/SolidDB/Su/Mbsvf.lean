import SolidDB.Su.Svf

/-!
# The split virtual file of several block sizes

Each part is a split virtual file of one block size. Addresses are counted in blocks of the
smallest block size, and a part starts at the address behind the part before it.
-/

namespace SolidDB

structure Sbsvf (β : Type*) where
  sfStartpos : ℕ
  sfSvfil : SuSvfil β

structure SuMbsvfil (β : Type*) where
  mfMinblocksize : ℕ
  mfMaxblocksize : ℕ
  mfLastblocksize : ℕ
  mfSbsvfArray : List (Sbsvf β)

variable {β : Type*}

def SuSvfil.getfilespecno (svf : SuSvfil β) (daddr : ℕ) : ℤ :=
  match svf.findvfil daddr with
  | .error _ => -1
  | .ok f_idx => f_idx + 1

/-- `su_svf_getblocksize` of the part. -/
def Sbsvf.blocksize (sbsvf : Sbsvf β) : ℕ := sbsvf.sfSvfil.svfBlksz

def Sbsvf.endpos (sbsvf : Sbsvf β) (minblocksize : ℕ) : ℕ :=
  (sbsvf.sfSvfil.getsize * (sbsvf.blocksize / minblocksize) % 2 ^ 32 + sbsvf.sfStartpos) % 2 ^ 32

namespace SuMbsvfil

def init : SuMbsvfil β :=
  { mfMinblocksize := 0, mfMaxblocksize := 0, mfLastblocksize := 0, mfSbsvfArray := [] }

/-- The start positions counted in blocks that are smaller by the coefficient. -/
def patchStartpos (arr : List (Sbsvf β)) (coeff : ℕ) : List (Sbsvf β) :=
  arr.map fun sbsvf => { sbsvf with sfStartpos := sbsvf.sfStartpos * coeff % 2 ^ 32 }

/-- `su_mbsvf_addfile` for a physical file that has the pages. A block size is not 0, so that
there is a part when it is the last one. -/
def addfile (mbsvfil : SuMbsvfil β) (fname : String) (pages : List β) (maxsize blocksize : ℕ) :
    SuMbsvfil β × SvfRet :=
  let minblocksize :=
    if mbsvfil.mfMinblocksize = 0 then blocksize
    else if blocksize < mbsvfil.mfMinblocksize then blocksize
    else mbsvfil.mfMinblocksize
  let arr :=
    if mbsvfil.mfMinblocksize ≠ 0 ∧ blocksize < mbsvfil.mfMinblocksize then
      patchStartpos mbsvfil.mfSbsvfArray (mbsvfil.mfMinblocksize / blocksize)
    else mbsvfil.mfSbsvfArray
  let sized : SuMbsvfil β :=
    { mfMinblocksize := minblocksize
      mfMaxblocksize := max mbsvfil.mfMaxblocksize blocksize
      mfLastblocksize := blocksize
      mfSbsvfArray := arr }
  if mbsvfil.mfLastblocksize ≠ blocksize then
    let startpos := (arr.getLast?.map fun sbsvf => sbsvf.endpos minblocksize).getD 0
    let added := (SuSvfil.init blocksize).addfile fname pages maxsize
    ({ sized with mfSbsvfArray := arr ++ [⟨startpos, added.1⟩] }, added.2)
  else
    match arr.getLast? with
    | none => (sized, .fileWriteFailure)
    | some sbsvf =>
        let added := sbsvf.sfSvfil.addfile fname pages maxsize
        ({ sized with mfSbsvfArray := arr.dropLast ++ [{ sbsvf with sfSvfil := added.1 }] },
          added.2)

/-! ## Finding a part -/

/-- The index of the last part that does not start behind the address. The parts are given from
the last one on. -/
def findPart (daddr : ℕ) : List (Sbsvf β) → Option ℕ
  | [] => none
  | sbsvf :: rest => if sbsvf.sfStartpos ≤ daddr then some rest.length else findPart daddr rest

def partAt (mbsvfil : SuMbsvfil β) (daddr : ℕ) : Option (ℕ × Sbsvf β) :=
  match findPart daddr mbsvfil.mfSbsvfArray.reverse with
  | none => none
  | some i => mbsvfil.mfSbsvfArray[i]?.map fun sbsvf => (i, sbsvf)

def partDaddr (mbsvfil : SuMbsvfil β) (sbsvf : Sbsvf β) (daddr : ℕ) : ℕ :=
  (daddr - sbsvf.sfStartpos) / (sbsvf.blocksize / mbsvfil.mfMinblocksize)

def getblocksizeAtAddr (mbsvfil : SuMbsvfil β) (daddr : ℕ) : ℕ :=
  match mbsvfil.partAt daddr with
  | none => 512
  | some (_, sbsvf) => sbsvf.blocksize

/-- `su_mbsvf_read`, with the buffer size in bytes. -/
def read (mbsvfil : SuMbsvfil β) (daddr bufsize : ℕ) : Option (SvfRet × List β) :=
  match mbsvfil.partAt daddr with
  | none => some (.success, [])
  | some (_, sbsvf) =>
      sbsvf.sfSvfil.readlocal (mbsvfil.partDaddr sbsvf daddr) true (bufsize / sbsvf.blocksize)

def write [Zero β] (mbsvfil : SuMbsvfil β) (daddr : ℕ) (data : List β)
    (outcomes : List (Option ℕ)) : Option (SuMbsvfil β × SvfRet) :=
  match mbsvfil.partAt daddr with
  | none => some (mbsvfil, .success)
  | some (i, sbsvf) =>
      (sbsvf.sfSvfil.writelocal (mbsvfil.partDaddr sbsvf daddr) data outcomes).map fun written =>
        ({ mbsvfil with
            mfSbsvfArray := mbsvfil.mfSbsvfArray.set i { sbsvf with sfSvfil := written.1 } },
          written.2)

def getphysfilename (mbsvfil : SuMbsvfil β) (daddr : ℕ) : Option String :=
  match mbsvfil.partAt daddr with
  | none => none
  | some (_, sbsvf) => sbsvf.sfSvfil.getphysfilename (mbsvfil.partDaddr sbsvf daddr)

def getfilespecnoAndPhysdaddr (mbsvfil : SuMbsvfil β) (daddr : ℕ) : Option (ℤ × ℕ) :=
  match mbsvfil.partAt daddr with
  | none => none
  | some (i, sbsvf) =>
      (sbsvf.sfSvfil.getfilespecnoAndPhysdaddr (mbsvfil.partDaddr sbsvf daddr)).map fun spec =>
        (spec.1 + ((mbsvfil.mfSbsvfArray.take i).map fun part =>
          part.sfSvfil.getfilespecno (daddrSub part.sfSvfil.getsize 1)).sum, spec.2)

def getsize (mbsvfil : SuMbsvfil β) : ℕ :=
  (mbsvfil.mfSbsvfArray.getLast?.map fun sbsvf => sbsvf.endpos mbsvfil.mfMinblocksize).getD 0

/-! ## Shrinking -/

/-- The loop of `su_mbsvf_decreasesize` over the parts, the last one first. -/
def decreaseParts [Zero β] (minblocksize newsize : ℕ) :
    List (Sbsvf β) → List (Sbsvf β) × SvfRet
  | [] => ([], .success)
  | sbsvf :: rest =>
      if newsize ≤ sbsvf.sfStartpos then
        let emptied := sbsvf.sfSvfil.decreasesize 0
        if emptied.2 ≠ .success then ({ sbsvf with sfSvfil := emptied.1 } :: rest, emptied.2)
        else if sbsvf.sfStartpos = newsize then (rest, .success)
        else decreaseParts minblocksize newsize rest
      else
        let tmp_newsize := (newsize - sbsvf.sfStartpos) / (sbsvf.blocksize / minblocksize)
        let shrunk := sbsvf.sfSvfil.decreasesize tmp_newsize
        ({ sbsvf with sfSvfil := shrunk.1 } :: rest, shrunk.2)

/-- `su_mbsvf_decreasesize` where the physical files can be truncated. -/
def decreasesize [Zero β] (mbsvfil : SuMbsvfil β) (newsize : ℕ) : SuMbsvfil β × SvfRet :=
  let shrunk :=
    decreaseParts mbsvfil.mfMinblocksize newsize mbsvfil.mfSbsvfArray.reverse
  ({ mbsvfil with mfSbsvfArray := shrunk.1.reverse }, shrunk.2)

end SuMbsvfil

end SolidDB
