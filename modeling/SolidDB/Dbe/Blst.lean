import SolidDB.Foundation.BlockChain
import Mathlib.Order.Nat
import Mathlib.Algebra.Order.Ring.Int

/-!
# List blocks

A list on disk is a chain of blocks. The header of a block has the number of records in
the block and the address of the next block.
-/

namespace SolidDB

def suDaddrNull : ℕ := 2 ^ 32 - 1

inductive Blocktype where
  | freelist
  | changelist
  | trxlist
  | stmttrxlist
  | seqlist
  deriving DecidableEq

structure Blheader where
  blType : Blocktype
  blCpnum : ℕ
  blNblocks : ℕ
  blNext : ℕ
  deriving DecidableEq

def dbeBlhInit (type : Blocktype) (cpnum : ℕ) : Blheader where
  blType := type
  blCpnum := cpnum
  blNblocks := 0
  blNext := suDaddrNull

def dbeBlistDataoffset : ℕ := 12

/-- A block size that `cfg_getidxblocksize` gives, between `DBE_MINIMUM_INDEXBLOCKSIZE`
and `DBE_CFG_MAXINDEXBLOCKSIZE`. -/
structure Idxblocksize where
  val : ℕ
  minimum : 2048 ≤ val
  maximum : val ≤ 65536

def twoKilobytes : Idxblocksize := ⟨2048, by decide, by decide⟩

structure Blblock (ρ : Type*) where
  header : Blheader
  data : ℕ → ρ

abbrev Blblock.next {ρ : Type*} (b : Blblock ρ) : ℕ := b.header.blNext

variable {ρ : Type*}

def recordsUpto (data : ℕ → ρ) (n : ℕ) : List ρ := (List.range n).map data

def Blblock.records (b : Blblock ρ) : List ρ := recordsUpto b.data b.header.blNblocks

abbrev Blchain (d : ℕ → Blblock ρ) : ℕ → List ℕ → Prop :=
  BlockChain.Chain Blblock.next suDaddrNull d

@[simp] theorem recordsUpto_zero (data : ℕ → ρ) : recordsUpto data 0 = [] := rfl

@[simp] theorem length_recordsUpto (data : ℕ → ρ) (n : ℕ) :
    (recordsUpto data n).length = n := by
  simp [recordsUpto]

theorem recordsUpto_succ (data : ℕ → ρ) (n : ℕ) :
    recordsUpto data (n + 1) = recordsUpto data n ++ [data n] := by
  simp [recordsUpto, List.range_succ]

theorem recordsUpto_congr {data data' : ℕ → ρ} {n : ℕ} (h : ∀ i < n, data' i = data i) :
    recordsUpto data' n = recordsUpto data n :=
  List.map_congr_left fun i hi => h i (List.mem_range.mp hi)

theorem recordsUpto_update (data : ℕ → ρ) (n : ℕ) (r : ρ) :
    recordsUpto (Function.update data n r) (n + 1) = recordsUpto data n ++ [r] := by
  rw [recordsUpto_succ, Function.update_self, recordsUpto_congr]
  intro i hi
  exact Function.update_of_ne hi.ne r data

end SolidDB
