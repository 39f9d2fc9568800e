import SolidDB.Foundation.Bitmap
import SolidDB.Dbe.Clst
import Mathlib.Data.List.Sort
import Mathlib.Logic.Function.Iterate

/-!
# The free list

The free list has the addresses of the free blocks. On disk it is a chain of superblocks,
and the blocks for these are taken from the list itself. In memory the list is a table
with the addresses of the first superblocks, or a bit map of the whole file.
-/

namespace SolidDB

inductive SuRet where
  | success
  | fileWriteError
  | freelistCorrupt
  deriving DecidableEq

abbrev Flcache := ℕ → Blblock ℕ

/-- `dbe_freelist_t`. The table has the `bl_nblocks` addresses in use; for a list with a
bit map it is a buffer only. -/
structure Freelist where
  flBlocksize : Idxblocksize
  flMycapacity : ℕ
  flFilesize : ℕ
  flExtendincr : ℕ
  flNextcpnum : ℕ
  flModified : Bool
  flReadfrom : ℕ
  flDeferchlist : List Clrecord
  flInmemory : Bool
  flFreeblocks : ℤ
  flFreeblocksKnown : Bool
  flMaxspareblocks : ℤ
  flRc : SuRet
  flHeader : Blheader
  flMap : ℕ → Bool
  flMapHint : ℕ
  flAddrtable : List ℕ

/-- `FL_SBCAPACITY` -/
def flSbcapacityOf (blocksize : Idxblocksize) : ℕ := (blocksize.val - dbeBlistDataoffset) / 4

theorem flSbcapacityOf_pos (blocksize : Idxblocksize) : 0 < flSbcapacityOf blocksize := by
  have hmin := blocksize.minimum
  unfold flSbcapacityOf dbeBlistDataoffset
  omega

theorem flSbcapacityOf_le (blocksize : Idxblocksize) :
    2 * flSbcapacityOf blocksize + 2 < 2 ^ 16 := by
  have hmax := blocksize.maximum
  unfold flSbcapacityOf dbeBlistDataoffset
  omega

def Freelist.flSbcapacity (s : Freelist) : ℕ := flSbcapacityOf s.flBlocksize

/-- `su_bmap_findnext` for a set bit. -/
def suBmapFindnext (map : ℕ → Bool) (bmsize startpos : ℕ) : Option ℕ :=
  Bitmap.findNext map bmsize startpos

@[irreducible] def uint2 (n : ℕ) : ℕ := n % 2 ^ 16

theorem uint2_of_lt {n : ℕ} (h : n < 2 ^ 16) : uint2 n = n := by
  rw [uint2]
  exact Nat.mod_eq_of_lt h

/-- A new value of the two-byte field `bl_nblocks`. -/
def Freelist.setNblocks (s : Freelist) (n : ℕ) : Freelist :=
  { s with flHeader := { s.flHeader with blNblocks := uint2 n } }

/-- `bl_nblocks--` -/
def Freelist.decNblocks (s : Freelist) : Freelist :=
  s.setNblocks (if s.flHeader.blNblocks = 0 then 2 ^ 16 - 1 else s.flHeader.blNblocks - 1)

def dbeFlAddtochlist (s : Freelist) (cpnum daddr : ℕ) : Freelist :=
  { s with flDeferchlist := s.flDeferchlist ++ [(cpnum, daddr)] }

/-- `dbe_fl_measurelength_nomutex` of a list with a bit map. -/
def dbeFlMeasurelengthNomutex (s : Freelist) : ℕ := Bitmap.count s.flMap s.flFilesize

/-- `dbe_fl_insert`. The program ends when the address is in the list already, and it
writes behind a table that has no space for one more address. -/
def dbeFlInsert (s : Freelist) (daddr : ℕ) : Option Freelist :=
  if s.flInmemory then
    if s.flFilesize ≤ daddr then none
    else if s.flMap daddr then none
    else
      let s' := s.setNblocks (s.flHeader.blNblocks + 1)
      some { s' with
        flMap := Function.update s.flMap daddr true
        flMapHint := min s.flMapHint daddr
        flModified := true }
  else
    let s' := if ¬ s.flModified ∧ s.flNextcpnum ≠ s.flHeader.blCpnum ∧
        0 < s.flHeader.blNblocks then
      dbeFlAddtochlist s s.flHeader.blCpnum s.flReadfrom else s
    if daddr ∈ s.flAddrtable then none
    else if s.flMycapacity ≤ s.flHeader.blNblocks then none
    else
      let s'' := s'.setNblocks (s.flHeader.blNblocks + 1)
      some { s'' with
        flAddrtable := s.flAddrtable.orderedInsert (· ≥ ·) daddr
        flModified := true }

/-- `dbe_fl_extract`: the address and the list after it. -/
def dbeFlExtract (s : Freelist) : ℕ × Freelist :=
  let s' := if ¬ s.flModified ∧ ¬ s.flInmemory ∧ s.flNextcpnum ≠ s.flHeader.blCpnum then
    dbeFlAddtochlist s s.flHeader.blCpnum s.flReadfrom else s
  if s.flInmemory then
    match suBmapFindnext s.flMap s.flFilesize s.flMapHint with
    | none => (suDaddrNull, { s' with flModified := true, flMapHint := 0 })
    | some pos =>
      (pos, { s'.decNblocks with
        flModified := true
        flMapHint := pos
        flMap := Function.update s.flMap pos false })
  else
    (s.flAddrtable.getLastD suDaddrNull,
      { s'.decNblocks with flModified := true, flAddrtable := s.flAddrtable.dropLast })

/-! ## Reading -/

def takeSuperblock (s : Freelist) (block : Blblock ℕ) : Freelist :=
  let old := s.flHeader.blNblocks
  let sum := block.header.blNblocks + old
  let read := block.records.take (uint2 sum - old)
  { s with
    flMycapacity := if s.flMycapacity < sum then sum + 1 else s.flMycapacity
    flHeader := { block.header with blNblocks := uint2 sum }
    flModified := false
    flReadfrom := s.flHeader.blNext
    flAddrtable :=
      if s.flInmemory then s.flAddrtable
      else (s.flAddrtable ++ block.records).insertionSort (· ≥ ·)
    flMap := if s.flInmemory then fun a => s.flMap a || read.contains a else s.flMap
    flMapHint := if s.flInmemory then read.foldl min s.flMapHint else s.flMapHint }

@[simp] theorem blCpnum_takeSuperblock (s : Freelist) (block : Blblock ℕ) :
    (takeSuperblock s block).flHeader.blCpnum = block.header.blCpnum := rfl

@[simp] theorem flNextcpnum_takeSuperblock (s : Freelist) (block : Blblock ℕ) :
    (takeSuperblock s block).flNextcpnum = s.flNextcpnum := rfl

@[simp] theorem flInmemory_takeSuperblock (s : Freelist) (block : Blblock ℕ) :
    (takeSuperblock s block).flInmemory = s.flInmemory := rfl

def dbeFlRead1superblock (cache : Flcache) (s : Freelist) : Option (Freelist × SuRet) :=
  let superblockDaddr := s.flHeader.blNext
  let block := cache superblockDaddr
  if block.header.blType ≠ .freelist then some (s, .freelistCorrupt)
  else
    let s' := takeSuperblock s block
    let res :=
      if s'.flHeader.blCpnum = s'.flNextcpnum then dbeFlInsert s' superblockDaddr
      -- of a list with a table the block waits for the first change
      else if s'.flInmemory ∨ s'.flHeader.blNblocks = 0 then
        some (dbeFlAddtochlist s' s'.flHeader.blCpnum superblockDaddr)
      else some s'
    res.map fun s'' => (s'', .success)

def readSuperblocks (cache : Flcache) : ℕ → Freelist → Option (Freelist × SuRet)
  | 0, _ => none
  | fuel + 1, s =>
    if s.flHeader.blNext = suDaddrNull then some (s, .success)
    else match dbeFlRead1superblock cache s with
      | some (s', .success) => readSuperblocks cache fuel s'
      | res => res

def dbeFlReadAllSuperblocks (fuel : ℕ) (cache : Flcache) (s : Freelist) :
    Option (Freelist × SuRet) :=
  match readSuperblocks cache fuel s with
  | some (s', .success) => some ({ s' with flReadfrom := s.flHeader.blNext }, .success)
  | res => res

/-- The list that `dbe_fl_init` makes before it reads anything. -/
def flEmpty (blocksize : Idxblocksize)
    (superblockDaddr filesize extendincr nextCpnum : ℕ) (globalySorted : Bool) :
    Freelist where
  flBlocksize := blocksize
  flMycapacity := 2 * flSbcapacityOf blocksize + 2
  flFilesize := filesize
  flExtendincr := extendincr
  flNextcpnum := nextCpnum
  flModified := false
  flReadfrom := suDaddrNull
  flDeferchlist := []
  flInmemory := globalySorted
  flFreeblocks := 0
  flFreeblocksKnown := false
  flMaxspareblocks := 0
  flRc := .success
  flHeader := { dbeBlhInit .freelist nextCpnum with blNext := superblockDaddr }
  flMap := fun _ => false
  flMapHint := 0
  flAddrtable := []

/-- `dbe_fl_init`. The program ends when the list cannot be read. -/
def dbeFlInit (fuel : ℕ) (cache : Flcache) (blocksize : Idxblocksize)
    (superblockDaddr filesize extendincr nextCpnum : ℕ) (globalySorted : Bool) :
    Option Freelist :=
  let s := flEmpty blocksize superblockDaddr filesize extendincr nextCpnum globalySorted
  if superblockDaddr = suDaddrNull then some s
  else
    let res := if globalySorted then dbeFlReadAllSuperblocks fuel cache s
      else dbeFlRead1superblock cache s
    match res with
    | some (s', .success) => some s'
    | _ => none

/-- `dbe_fl_setchlist`: the deferred changes are handed over to the change list. -/
def dbeFlSetchlist (s : Freelist) : Freelist × List Clrecord :=
  ({ s with flDeferchlist := [] }, s.flDeferchlist)

/-! ## Writing -/

def superblockImage (s : Freelist) (ntowrite : ℕ) : Blblock ℕ where
  header := { s.flHeader with blCpnum := s.flNextcpnum, blNblocks := ntowrite }
  data := fun i => s.flAddrtable.getD i 0

def dbeFlWrite1superblockPart (cache : Flcache) (s : Freelist) (superblockDaddr ntowrite : ℕ) :
    Flcache × Freelist :=
  (Function.update cache superblockDaddr (superblockImage s ntowrite),
    { s with flHeader :=
      { s.flHeader with blCpnum := s.flNextcpnum, blNext := superblockDaddr } })

def dbeFlWrite1superblock (cache : Flcache) (s : Freelist) : Flcache × Freelist :=
  let e := dbeFlExtract s
  let ntowrite := min e.2.flHeader.blNblocks e.2.flSbcapacity
  let w := dbeFlWrite1superblockPart cache e.2 e.1 ntowrite
  let s' := w.2.setNblocks (w.2.flHeader.blNblocks - ntowrite)
  (w.1, { s' with flAddrtable := w.2.flAddrtable.drop ntowrite, flReadfrom := suDaddrNull })

def dbeFlFreelocal (cache : Flcache) (s : Freelist) (daddr : ℕ) : Option (Flcache × Freelist) :=
  (dbeFlInsert s daddr).map fun s' =>
    if s'.flHeader.blNblocks < s'.flMycapacity ∨ s'.flInmemory then (cache, s')
    else dbeFlWrite1superblock cache s'

/-- The first loop of `dbe_fl_write_all_superblocks`, over the addresses of the
superblocks: the position behind the last of them. -/
def passSuperblocks (s : Freelist) (toWrite superblockDaddr : ℕ) : ℕ :=
  let next := match suBmapFindnext s.flMap s.flFilesize superblockDaddr with
    | none => 0
    | some pos => pos + 1
  if s.flSbcapacity + 1 < toWrite then passSuperblocks s (toWrite - (s.flSbcapacity + 1)) next
  else next
termination_by toWrite
decreasing_by omega

def leaveSuperblocks (cache : Flcache) : ℕ → Freelist → Option Freelist
  | 0, _ => none
  | fuel + 1, s =>
    if s.flHeader.blNext = suDaddrNull then some s
    else
      let superblockDaddr := s.flHeader.blNext
      let tmpHeader := (cache superblockDaddr).header
      let s' := { s with flHeader :=
        { s.flHeader with blCpnum := tmpHeader.blCpnum, blNext := tmpHeader.blNext } }
      leaveSuperblocks cache fuel (dbeFlAddtochlist s' tmpHeader.blCpnum superblockDaddr)

/-- The innermost loop: the addresses for one superblock and the hint after them. -/
def fillAddrtable (map : ℕ → Bool) (filesize : ℕ) : ℕ → ℕ → List ℕ × ℕ
  | 0, hint => ([], hint)
  | room + 1, hint =>
    match suBmapFindnext map filesize hint with
    | none => ([], hint)
    | some page =>
      let rest := fillAddrtable map filesize room (page + 1)
      (page :: rest.1, rest.2)

/-- `bl_nblocks--` and `fl_freeblocks--` at the head of the third loop. -/
def countSuperblock (s : Freelist) : Freelist :=
  { s.decNblocks with flFreeblocks := s.flFreeblocks - 1 }

def fillSuperblock (s : Freelist) (superblockDaddr : ℕ) : Freelist :=
  let map := Function.update s.flMap superblockDaddr false
  let filled := fillAddrtable map s.flFilesize s.flSbcapacity s.flMapHint
  { s with flMap := map, flAddrtable := filled.1, flMapHint := filled.2 }

theorem suBmapFindnext_bounds {map : ℕ → Bool} {bmsize startpos pos : ℕ}
    (h : suBmapFindnext map bmsize startpos = some pos) :
    startpos ≤ pos ∧ pos < bmsize ∧ map pos = true := by
  rw [suBmapFindnext, Bitmap.findNext_eq_head?] at h
  exact Bitmap.mem_ones.mp (List.mem_of_mem_head? h)

@[simp] theorem flFilesize_countSuperblock (s : Freelist) :
    (countSuperblock s).flFilesize = s.flFilesize := rfl

@[simp] theorem flFilesize_fillSuperblock (s : Freelist) (superblockDaddr : ℕ) :
    (fillSuperblock s superblockDaddr).flFilesize = s.flFilesize := rfl

@[simp] theorem flFilesize_write1superblockPart (cache : Flcache) (s : Freelist)
    (superblockDaddr ntowrite : ℕ) :
    (dbeFlWrite1superblockPart cache s superblockDaddr ntowrite).2.flFilesize =
      s.flFilesize := rfl

/-- The third loop, over the new superblocks: the address it ends with comes last. -/
def writeSuperblocks (cache : Flcache) (s : Freelist) (superblockDaddr : ℕ) :
    Flcache × Freelist × ℕ :=
  match hpos : suBmapFindnext s.flMap s.flFilesize superblockDaddr with
  | none => (cache, countSuperblock s, superblockDaddr)
  | some pos =>
    let s' := fillSuperblock (countSuperblock s) pos
    let w := dbeFlWrite1superblockPart cache s' pos s'.flAddrtable.length
    if s'.flAddrtable.length < s.flSbcapacity then (w.1, w.2, pos)
    else writeSuperblocks w.1 w.2 (pos + 1)
termination_by s.flFilesize - superblockDaddr
decreasing_by
  have hbounds := suBmapFindnext_bounds hpos
  rw [flFilesize_write1superblockPart, flFilesize_fillSuperblock, flFilesize_countSuperblock]
  exact Nat.sub_lt_sub_left (lt_of_le_of_lt hbounds.1 hbounds.2.1) (Nat.lt_succ_of_le hbounds.1)

def measureFreeblocks (s : Freelist) : Freelist :=
  if s.flFreeblocksKnown then s
  else { s with flFreeblocks := dbeFlMeasurelengthNomutex s, flFreeblocksKnown := true }

def dbeFlWriteAllSuperblocks (fuel : ℕ) (cache : Flcache) (s : Freelist) :
    Option (Flcache × Freelist) :=
  let s1 := measureFreeblocks s
  let toWrite := (s1.flFreeblocks % 2 ^ 64).toNat
  let s2 := { s1 with flMapHint := passSuperblocks s1 toWrite 0, flReadfrom := 0 }
  (leaveSuperblocks cache fuel s2).map fun s3 =>
    let w := writeSuperblocks cache s3 0
    (w.1, { w.2.1 with flMapHint := 0, flReadfrom := w.2.2 })

/-- The loop of `dbe_fl_save_deferch`: every pass takes an address at least. -/
def saveAddrtable : ℕ → Flcache → Freelist → Flcache × Freelist
  | 0, cache, s => (cache, s)
  | fuel + 1, cache, s =>
    if 0 < s.flHeader.blNblocks then
      let w := dbeFlWrite1superblock cache s
      saveAddrtable fuel w.1 w.2
    else (cache, s)

/-- What `dbe_fl_save_deferch` writes, and the start of the chain. -/
def saveSuperblocks (fuel : ℕ) (cache : Flcache) (s : Freelist) :
    Option (Flcache × Freelist × ℕ) :=
  if s.flModified ∨ s.flHeader.blNblocks = 0 then
    if s.flInmemory then
      (dbeFlWriteAllSuperblocks fuel cache s).map fun w => (w.1, w.2, w.2.flReadfrom)
    else
      let w := saveAddrtable s.flHeader.blNblocks cache s
      some (w.1, w.2, w.2.flHeader.blNext)
  else some (cache, s, s.flReadfrom)

/-- What a save leaves: `chl` are the changes that the caller adds to the change list. -/
structure FlSaved where
  cache : Flcache
  fl : Freelist
  superblockDaddr : ℕ
  filesize : ℕ
  chl : List Clrecord

def dbeFlSaveDeferch (fuel : ℕ) (cache : Flcache) (s : Freelist) (nextCpnum : ℕ) :
    Option FlSaved :=
  (saveSuperblocks fuel cache s).map fun w =>
    { cache := w.1
      fl := { w.2.1 with
        flNextcpnum := nextCpnum
        flDeferchlist := []
        flFreeblocksKnown := false }
      superblockDaddr := w.2.2
      filesize := w.2.1.flFilesize
      chl := w.2.1.flDeferchlist }

end SolidDB
