import SolidDB.Dbe.FlstTableSave

/-!
# The free list over whole runs

The list with those who use it. They allocate and free blocks, and put blocks of older
checkpoints to the change list, from where the blocks are freed later. The list is saved
in every checkpoint, and after a crash it is read from a save again.
-/

namespace SolidDB

open BlockChain

def dbeFlSetreservesize (s : Freelist) (reservesize : ℤ) : Freelist :=
  { s with flMaxspareblocks := reservesize }

def superblocksFrom (cache : Flcache) : ℕ → ℕ → List ℕ
  | 0, _ => []
  | fuel + 1, a =>
    if a = suDaddrNull then [] else a :: superblocksFrom cache fuel (cache a).next

def flBlocks (cache : Flcache) (s : Freelist) : List ℕ :=
  superblocksFrom cache s.flFilesize s.flHeader.blNext

/-- A saved list with its superblocks, and where all addresses were at that time. -/
structure Flsave where
  superblockDaddr : ℕ
  filesize : ℕ
  nextCpnum : ℕ
  blocks : List ℕ
  free : List ℕ
  allocated : List ℕ
  chl : List ℕ

/-- The list, the addresses that its users have, those in the change list, and the saves
that are held, from the newest on. -/
structure Flsys where
  cache : Flcache
  fl : Freelist
  allocated : List ℕ
  chl : List ℕ
  saves : List Flsave

inductive FlsysOp where
  | alloc (canfail extended : Bool)
  | free (daddr : ℕ)
  /-- An allocated block is put to the change list. -/
  | retire (daddr : ℕ)
  /-- A block of the change list is freed. -/
  | recycle (daddr : ℕ)
  | write (daddr : ℕ) (block : Blblock ℕ)
  | reserve (reservesize : ℤ)
  | save (nextCpnum : ℕ)
  /-- Only the newest saves are held further on. -/
  | forget (n : ℕ)
  /-- The list is read from a save that is held. -/
  | reopen (k nextCpnum extendincr : ℕ)

/-- The users free, write and retire what they have; a block of the change list is freed
when no save that is held needs it; and the checkpoints have rising numbers. -/
def Permitted (w : Flsys) : FlsysOp → Prop
  | .free daddr | .retire daddr | .write daddr _ => daddr ∈ w.allocated
  | .recycle daddr => daddr ∈ w.chl ∧ ∀ σ ∈ w.saves, daddr ∉ σ.blocks
  | .save nextCpnum => w.fl.flNextcpnum < nextCpnum
  | .reopen k nextCpnum _ => ∃ σ ∈ w.saves[k]?, σ.nextCpnum ≤ nextCpnum
  | .alloc _ _ | .reserve _ | .forget _ => True

instance (w : Flsys) : (op : FlsysOp) → Decidable (Permitted w op)
  | .free daddr | .retire daddr | .write daddr _ =>
    inferInstanceAs (Decidable (daddr ∈ w.allocated))
  | .recycle daddr =>
    inferInstanceAs (Decidable (daddr ∈ w.chl ∧ ∀ σ ∈ w.saves, daddr ∉ σ.blocks))
  | .save nextCpnum => inferInstanceAs (Decidable (w.fl.flNextcpnum < nextCpnum))
  | .reopen k nextCpnum _ =>
    inferInstanceAs (Decidable (∃ σ ∈ w.saves[k]?, σ.nextCpnum ≤ nextCpnum))
  | .alloc _ _ | .reserve _ | .forget _ => inferInstanceAs (Decidable True)

def addSave (w : Flsys) (nextCpnum : ℕ) (r : FlSaved) : Flsys :=
  let chl := w.chl ++ r.chl.map Prod.snd
  { w with
    cache := r.cache
    fl := r.fl
    chl := chl
    saves :=
      { superblockDaddr := r.superblockDaddr
        filesize := r.filesize
        nextCpnum := nextCpnum
        blocks := superblocksFrom r.cache r.filesize r.superblockDaddr
        free := freeOf r.cache r.fl (flBlocks r.cache r.fl)
        allocated := w.allocated
        chl := chl } :: w.saves }

def openSave (w : Flsys) (σ : Flsave) (older : List Flsave) (s : Freelist) : Flsys where
  cache := w.cache
  fl := (dbeFlSetchlist s).1
  allocated := σ.allocated
  chl := σ.chl ++ (dbeFlSetchlist s).2.map Prod.snd
  saves := σ :: older

def flsysOp (fuel : ℕ) (w : Flsys) : FlsysOp → Option Flsys
  | .alloc canfail extended =>
    (dbeFlAllocDeferch fuel w.cache w.fl canfail extended).map fun out =>
      { w with
        cache := out.cache
        fl := out.fl
        allocated := out.given ++ w.allocated
        chl := w.chl ++ out.chl.map Prod.snd }
  | .free daddr =>
    (dbeFlFreeDeferch w.cache w.fl daddr).map fun r =>
      { w with
        cache := r.1
        fl := r.2.1
        allocated := w.allocated.erase daddr
        chl := w.chl ++ r.2.2.map Prod.snd }
  | .retire daddr =>
    some { w with allocated := w.allocated.erase daddr, chl := daddr :: w.chl }
  | .recycle daddr =>
    (dbeFlFreeDeferch w.cache w.fl daddr).map fun r =>
      { w with
        cache := r.1
        fl := r.2.1
        chl := w.chl.erase daddr ++ r.2.2.map Prod.snd }
  | .write daddr block => some { w with cache := Function.update w.cache daddr block }
  | .reserve reservesize => some { w with fl := dbeFlSetreservesize w.fl reservesize }
  | .save nextCpnum =>
    (dbeFlSaveDeferch fuel w.cache w.fl nextCpnum).map (addSave w nextCpnum)
  | .forget n => some { w with saves := w.saves.take n }
  | .reopen k nextCpnum extendincr =>
    match w.saves.drop k with
    | [] => none
    | σ :: older =>
      (dbeFlInit fuel w.cache w.fl.flBlocksize σ.superblockDaddr σ.filesize extendincr
        nextCpnum false).map (openSave w σ older)

def Flsys.new (cache : Flcache) (blocksize : Idxblocksize)
    (filesize extendincr nextCpnum : ℕ) : Flsys where
  cache := cache
  fl := flEmpty blocksize suDaddrNull filesize extendincr nextCpnum false
  allocated := List.range filesize
  chl := []
  saves := []

/-- The states that permitted operations lead to, when every one meets a condition. -/
inductive FlsysRun (fits : Flsys → FlsysOp → Prop) (w : Flsys) : Flsys → Prop
  | init : FlsysRun fits w w
  | step {w' w'' : Flsys} {fuel : ℕ} {op : FlsysOp} : FlsysRun fits w w' → Permitted w' op →
      fits w' op → flsysOp fuel w' op = some w'' → FlsysRun fits w w''

/-- The condition on an operation: see `AllocFits`, `LimitFits` and `SaveTableFits`. -/
def FlsysOpFits (w : Flsys) : FlsysOp → Prop
  | .alloc canfail extended =>
    AllocFits w.cache w.fl (flBlocks w.cache w.fl) canfail extended
  | .reserve reservesize => LimitFits w.fl reservesize
  | .save _ => SaveTableFits w.cache w.fl
  | _ => True

instance (w : Flsys) : (op : FlsysOp) → Decidable (FlsysOpFits w op)
  | .alloc canfail extended =>
    inferInstanceAs (Decidable (AllocFits w.cache w.fl (flBlocks w.cache w.fl) canfail extended))
  | .reserve reservesize => inferInstanceAs (Decidable (LimitFits w.fl reservesize))
  | .save _ => inferInstanceAs (Decidable (SaveTableFits w.cache w.fl))
  | .free _ | .retire _ | .recycle _ | .write _ _ | .forget _ | .reopen _ _ _ =>
    inferInstanceAs (Decidable True)

/-- In how many places an address is: the free ones and the superblocks of the list, those
that its users have, and the change list. -/
def Flsys.account (w : Flsys) (a : ℕ) : ℕ :=
  placesOf w.cache w.fl (flBlocks w.cache w.fl) a + w.allocated.count a + w.chl.count a

/-- Every address below the end of the file is in exactly one place. -/
def Flsys.Conserved (w : Flsys) : Prop :=
  ∀ a, w.account a = if a < w.fl.flFilesize then 1 else 0

/-- In every later checkpoint, the free addresses of a save are read back. -/
def Flsys.ReadsBack (w : Flsys) (σ : Flsave) : Prop :=
  ∀ fuel extendincr nextCpnum, σ.nextCpnum ≤ nextCpnum →
    ∃ s, dbeFlInit fuel w.cache w.fl.flBlocksize σ.superblockDaddr σ.filesize extendincr
        nextCpnum false = some s ∧
      (freeOf w.cache s (flBlocks w.cache s)).Perm σ.free

def Flsys.Older (w : Flsys) (b : ℕ) : Prop :=
  (b ∈ superblocks w.fl (flBlocks w.cache w.fl) ∧
    (w.cache b).header.blCpnum < w.fl.flNextcpnum) ∨ ∃ σ ∈ w.saves, b ∈ σ.blocks

/-- The operation returns, it hands out nothing that a user has, and no superblock of an
older checkpoint is overwritten. -/
structure FlsysOpSafe (w : Flsys) (op : FlsysOp) : Prop where
  returns : ∀ fuel, w.fl.flFilesize < fuel → ∃ w', flsysOp fuel w op = some w'
  older : ∀ fuel w', flsysOp fuel w op = some w' → ∀ b, w.Older b → w'.cache b = w.cache b
  nodup : ∀ fuel w', flsysOp fuel w op = some w' → w'.allocated.Nodup

end SolidDB
