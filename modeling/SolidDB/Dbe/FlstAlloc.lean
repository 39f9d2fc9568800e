import SolidDB.Dbe.Flst

/-!
# Allocating from the free list

A block comes from the table or the bit map. An empty table is filled from the next
superblock, and after the last one the file is extended. The list keeps some spare blocks
for the time after a failed extension.
-/

namespace SolidDB

/-- The false alarm of `fl_allocate_from_memory`: a bit map has more addresses than
`bl_nblocks` can count. -/
def falseAlarm (s : Freelist) (limit : ℤ) : Freelist :=
  if s.flInmemory ∧ s.flHeader.blNblocks ≤ limit then
    let nblocks := min (2 ^ 16 - 1) s.flMycapacity
    { s.setNblocks nblocks with flFreeblocks := min s.flFreeblocks nblocks }
  else s

structure FlAllocated where
  fl : Freelist
  rc : SuRet
  daddr : ℕ
  endoflist : Bool

def flAllocateFromMemory (cache : Flcache) : ℕ → Freelist → ℕ → ℤ → Option FlAllocated
  | 0, _, _, _ => none
  | fuel + 1, s, daddr, limit =>
    let s' := falseAlarm s limit
    if limit < s'.flHeader.blNblocks then
      let e := dbeFlExtract s'
      some ⟨e.2, .success, e.1, e.1 = suDaddrNull⟩
    else if s'.flHeader.blNext ≠ suDaddrNull ∧ ¬ s'.flInmemory then
      match dbeFlRead1superblock cache s' with
      | none => none
      | some (s'', .success) => flAllocateFromMemory cache fuel s'' daddr limit
      | some (s'', rc) => some ⟨s'', rc, daddr, false⟩
    else some ⟨s', .success, daddr, true⟩

/-- What an allocation leaves: `chl` are the changes that the caller adds to the change
list. -/
structure FlAllocation where
  cache : Flcache
  fl : Freelist
  rc : SuRet
  daddr : ℕ
  chl : List Clrecord

/-- `fl_handle_disk_error`. A caller that cannot fail gets a spare block. -/
def flHandleDiskError (fuel : ℕ) (cache : Flcache) (s : Freelist) (daddr : ℕ)
    (canfail : Bool) (rc : SuRet) (chl : List Clrecord) : Option FlAllocation :=
  let s' := if s.flRc = .success then { s with flRc := rc } else s
  if canfail then some ⟨cache, s', s'.flRc, daddr, chl⟩
  else (flAllocateFromMemory cache fuel s' daddr 0).map fun a => ⟨cache, a.fl, a.rc, a.daddr, chl⟩

def extendMap (s : Freelist) (oldFilesize : ℕ) : Freelist :=
  { s with
    flMap := fun a => if oldFilesize ≤ a ∧ a < s.flFilesize then false else s.flMap a
    flFreeblocks := s.flFreeblocks + (s.flFilesize - oldFilesize : ℕ)
    flMapHint := min s.flMapHint (min oldFilesize s.flFilesize) }

def freeExtended (w : Flcache × Freelist) (blockIndex : ℕ) : Option (Flcache × Freelist) :=
  (dbeFlFreelocal w.1 w.2 blockIndex).map fun w' =>
    (w'.1, { w'.2 with flFreeblocks := w'.2.flFreeblocks + 1 })

/-- The file is extended, and the new blocks are freed from the last to the first. -/
def extendFile (cache : Flcache) (s : Freelist) : Option (Flcache × Freelist) :=
  let desired := (s.flFilesize + s.flExtendincr) % 2 ^ 32
  let s' := { s with flFilesize := desired }
  let s'' := if s.flInmemory then extendMap s' s.flFilesize else s'
  (List.range' s.flFilesize (desired - s.flFilesize)).reverse.foldlM freeExtended (cache, s'')

def allocSuccess (cache : Flcache) (s : Freelist) (daddr : ℕ) : FlAllocation where
  cache := cache
  fl := { s with flFreeblocks := s.flFreeblocks - 1, flDeferchlist := [] }
  rc := .success
  daddr := daddr
  chl := s.flDeferchlist

def allocFailure (fuel : ℕ) (cache : Flcache) (s : Freelist) (daddr : ℕ) (canfail : Bool)
    (rc : SuRet) : Option FlAllocation :=
  flHandleDiskError fuel cache { s with flDeferchlist := [] } daddr canfail rc s.flDeferchlist

/-- `dbe_fl_alloc_deferch`. `extended`: the file has the desired size, or
`su_svf_extendsize` succeeds. -/
def dbeFlAllocDeferch (fuel : ℕ) (cache : Flcache) (s : Freelist) (canfail extended : Bool) :
    Option FlAllocation :=
  if s.flRc ≠ .success then flHandleDiskError fuel cache s 0 canfail s.flRc []
  else
    (flAllocateFromMemory cache fuel s 0 s.flMaxspareblocks).bind fun a =>
      if a.endoflist then
        if extended then
          (extendFile cache a.fl).map fun w =>
            let e := dbeFlExtract w.2
            allocSuccess w.1 e.2 e.1
        else allocFailure fuel cache a.fl a.daddr canfail .fileWriteError
      else if a.rc = .success then some (allocSuccess cache a.fl a.daddr)
      else allocFailure fuel cache a.fl a.daddr canfail a.rc

/-- `dbe_fl_free_deferch`: the cache, the list and the changes for the change list. -/
def dbeFlFreeDeferch (cache : Flcache) (s : Freelist) (daddr : ℕ) :
    Option (Flcache × Freelist × List Clrecord) :=
  (dbeFlFreelocal cache { s with flFreeblocks := s.flFreeblocks + 1 } daddr).map fun w =>
    (w.1, { w.2 with flDeferchlist := [] }, w.2.flDeferchlist)

end SolidDB
