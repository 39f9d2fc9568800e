import Mathlib.Algebra.Order.Ring.Nat
import Mathlib.Algebra.Order.Ring.Int
import Mathlib.Data.List.Basic

/-!
# Temporary files

The file position of `xs2tfmgr.c` is a block number, which is an unsigned number of 32 bits, and
an offset in the block. The buffers of the blocks are left out.
-/

namespace SolidDB

/-- The contents of a temporary file. `SU_DADDR_NULL` is no block number. -/
structure TfFile where
  blocksize : ℕ
  data : List UInt8
  blocksize_pos : 0 < blocksize
  blocks_lt : data.length / blocksize < 2 ^ 32 - 1

structure XsTf where
  file : TfFile
  tfpBlock : ℕ
  tfpOffset : ℕ

namespace XsTf

def tfsBlock (tf : XsTf) : ℕ := tf.file.data.length / tf.file.blocksize

def tfsOffset (tf : XsTf) : ℕ := tf.file.data.length % tf.file.blocksize

/-- `xs_tf_peek`. `xs_tf_peekextend` gives the same bytes. -/
def peek (tf : XsTf) (nbytes : ℕ) : Option (List UInt8) :=
  let lastAccessedBlock :=
    (tf.tfpBlock + (tf.tfpOffset + nbytes - 1) / tf.file.blocksize) % 2 ^ 32
  let lastAccessedOffset := (tf.tfpOffset + nbytes - 1) % tf.file.blocksize
  if tf.tfsBlock < lastAccessedBlock ∨
      (tf.tfsBlock = lastAccessedBlock ∧ tf.tfsOffset ≤ lastAccessedOffset) then none
  else
    some ((tf.file.data.drop (tf.tfpBlock * tf.file.blocksize + tf.tfpOffset)).take nbytes)

def moveposrel (tf : XsTf) (diff : ℤ) : Option XsTf :=
  if diff < 0 then
    let absDiff := diff.natAbs
    let newblock := (tf.tfpBlock + (2 ^ 32 - absDiff / tf.file.blocksize % 2 ^ 32)) % 2 ^ 32
    let absDiff := absDiff % tf.file.blocksize
    let borrow := tf.tfpOffset < absDiff
    let newblock := if borrow then (newblock + (2 ^ 32 - 1)) % 2 ^ 32 else newblock
    let newoffset := (if borrow then tf.file.blocksize else 0) + tf.tfpOffset - absDiff
    if tf.tfpBlock < newblock then none else some ⟨tf.file, newblock, newoffset⟩
  else
    let absDiff := diff.toNat + tf.tfpOffset
    let newblock := (tf.tfpBlock + absDiff / tf.file.blocksize) % 2 ^ 32
    let newoffset := absDiff % tf.file.blocksize
    if tf.tfsBlock < newblock ∨ (newblock = tf.tfsBlock ∧ tf.tfsOffset < newoffset) then none
    else some ⟨tf.file, newblock, newoffset⟩

def movetobegin (tf : XsTf) : XsTf := ⟨tf.file, 0, 0⟩

def movetoend (tf : XsTf) : XsTf := ⟨tf.file, tf.tfsBlock, tf.tfsOffset⟩

/-- `xs_tf_opencursor` of an open file. -/
def opencursor (tf : XsTf) : XsTf := tf.movetobegin

theorem nil_blocks_lt (blocksize : ℕ) :
    ([] : List UInt8).length / blocksize < 2 ^ 32 - 1 := by
  rw [List.length_nil, Nat.zero_div]
  exact Nat.zero_lt_of_ne_zero (by decide)

/-- `xs_tf_append`, which is called at the end of the file. The limit of the blocks that a
directory may use is left out. -/
def append (tf : XsTf) (data : List UInt8) : Option XsTf :=
  if tf.tfpBlock = tf.tfsBlock ∧ tf.tfpOffset = tf.tfsOffset then
    if hfits : (tf.file.data ++ data).length / tf.file.blocksize < 2 ^ 32 - 1 then
      some (movetoend
        ⟨⟨tf.file.blocksize, tf.file.data ++ data, tf.file.blocksize_pos, hfits⟩, 0, 0⟩)
    else none
  else none

def rewrite (tf : XsTf) : XsTf :=
  ⟨⟨tf.file.blocksize, [], tf.file.blocksize_pos, nil_blocks_lt _⟩, 0, 0⟩

end XsTf

/-! ## Positions as numbers -/

namespace TfFile

variable (file : TfFile) {p n d : ℕ}

def seek (p : ℕ) : XsTf := ⟨file, p / file.blocksize, p % file.blocksize⟩

theorem movetobegin_eq (tf : XsTf) : tf.movetobegin = tf.file.seek 0 := by
  rw [XsTf.movetobegin, seek, Nat.zero_div, Nat.zero_mod]

theorem movetoend_eq (tf : XsTf) : tf.movetoend = tf.file.seek tf.file.data.length := rfl

theorem div_le_tfsBlock (hp : p ≤ file.data.length) : p / file.blocksize < 2 ^ 32 - 1 :=
  (Nat.div_le_div_right hp).trans_lt file.blocks_lt

theorem lt_iff_div_mod (a b : ℕ) :
    a < b ↔ a / file.blocksize < b / file.blocksize ∨
      (a / file.blocksize = b / file.blocksize ∧ a % file.blocksize < b % file.blocksize) := by
  have hpos := file.blocksize_pos
  have ha := Nat.div_add_mod a file.blocksize
  have hb := Nat.div_add_mod b file.blocksize
  constructor
  · intro hlt
    rcases (Nat.div_le_div_right (c := file.blocksize) hlt.le).lt_or_eq with h | h
    · exact Or.inl h
    · right
      refine ⟨h, ?_⟩
      rw [h] at ha
      omega
  · rintro (h | ⟨h, hmod⟩)
    · by_contra hle
      exact absurd (Nat.div_le_div_right (c := file.blocksize) (not_lt.mp hle)) (not_le.mpr h)
    · rw [h] at ha
      omega

theorem div_add_div (p d : ℕ) :
    p / file.blocksize + (p % file.blocksize + d) / file.blocksize = (p + d) / file.blocksize ∧
      (p % file.blocksize + d) % file.blocksize = (p + d) % file.blocksize := by
  have hpos := file.blocksize_pos
  have hp := Nat.div_add_mod p file.blocksize
  have hsum : p + d = p % file.blocksize + d + file.blocksize * (p / file.blocksize) := by omega
  constructor
  · rw [hsum, Nat.add_mul_div_left _ _ hpos, Nat.add_comm]
  · rw [hsum, Nat.add_mul_mod_self_left]

theorem seek_eq {block offset : ℕ} (hoffset : offset < file.blocksize) :
    (⟨file, block, offset⟩ : XsTf) = file.seek (offset + file.blocksize * block) := by
  obtain ⟨hdiv, hmod⟩ := (Nat.div_mod_unique file.blocksize_pos).mpr
    (⟨rfl, hoffset⟩ : offset + file.blocksize * block = _ ∧ _)
  rw [seek, hdiv, hmod]

theorem peek_seek (hn : 0 < n) (hle : p + n ≤ file.data.length) :
    (file.seek p).peek n = some ((file.data.drop p).take n) := by
  obtain ⟨hdiv, hmod⟩ := file.div_add_div p (n - 1)
  have hblocks := file.div_le_tfsBlock (show p + (n - 1) ≤ file.data.length by omega)
  have hlt := (file.lt_iff_div_mod (p + (n - 1)) file.data.length).mp (by omega)
  rw [← hdiv, ← hmod] at hlt
  rw [← hdiv] at hblocks
  have hsub : p % file.blocksize + n - 1 = p % file.blocksize + (n - 1) := by omega
  rw [XsTf.peek, XsTf.tfsBlock, XsTf.tfsOffset]
  simp only [seek, hsub, Nat.div_add_mod' p file.blocksize]
  rw [Nat.mod_eq_of_lt (by omega), if_neg (by omega)]

theorem peek_seek_end : (file.seek file.data.length).peek 1 = none := by
  obtain ⟨hdiv, hmod⟩ := file.div_add_div file.data.length 0
  have hblocks := file.div_le_tfsBlock le_rfl
  rw [XsTf.peek, XsTf.tfsBlock, XsTf.tfsOffset]
  simp only [seek, Nat.add_sub_cancel]
  rw [Nat.add_zero, Nat.add_zero] at hdiv hmod
  rw [hdiv, hmod, Nat.mod_eq_of_lt (by omega), if_pos (by omega)]

theorem append_seek (data : List UInt8)
    (hfits : (file.data ++ data).length / file.blocksize < 2 ^ 32 - 1) :
    ∃ file' : TfFile, (file.seek file.data.length).append data =
        some (file'.seek file'.data.length) ∧
      file'.data = file.data ++ data ∧ file'.blocksize = file.blocksize := by
  refine ⟨⟨file.blocksize, file.data ++ data, file.blocksize_pos, hfits⟩, ?_, rfl, rfl⟩
  rw [XsTf.append, if_pos ⟨rfl, rfl⟩]
  exact dif_pos hfits

theorem moveposrel_seek_add (hle : p + d ≤ file.data.length) :
    (file.seek p).moveposrel d = some (file.seek (p + d)) := by
  obtain ⟨hdiv, hmod⟩ := file.div_add_div p d
  have hblocks := file.div_le_tfsBlock hle
  have hle' := (file.lt_iff_div_mod file.data.length (p + d)).not.mp (by omega)
  have hsum : (d : ℤ).toNat + p % file.blocksize = p % file.blocksize + d := by omega
  rw [XsTf.moveposrel, if_neg (by omega), XsTf.tfsBlock, XsTf.tfsOffset]
  simp only [seek, hsum, hdiv, hmod]
  rw [Nat.mod_eq_of_lt (by omega), if_neg (by omega)]

theorem moveposrel_seek_end : (file.seek file.data.length).moveposrel 1 = none := by
  obtain ⟨hdiv, hmod⟩ := file.div_add_div file.data.length 1
  have hblocks := file.blocks_lt
  have hlt := (file.lt_iff_div_mod file.data.length (file.data.length + 1)).mp (by omega)
  have hsucc : (file.data.length + 1) / file.blocksize ≤
      file.data.length / file.blocksize + 1 := by
    rw [Nat.succ_div]
    split <;> omega
  have hsum : (1 : ℤ).toNat + file.data.length % file.blocksize =
      file.data.length % file.blocksize + 1 := by omega
  rw [XsTf.moveposrel, if_neg (by decide), XsTf.tfsBlock, XsTf.tfsOffset]
  simp only [seek, hsum, hdiv, hmod]
  rw [Nat.mod_eq_of_lt (by omega), if_pos (by omega)]

theorem moveposrel_seek_sub (hd : 0 < d) (hdp : d ≤ p) (hp : p ≤ file.data.length) :
    (file.seek p).moveposrel (-d) = some (file.seek (p - d)) := by
  have hpos := file.blocksize_pos
  have hblocks := file.div_le_tfsBlock hp
  have hle : d / file.blocksize ≤ p / file.blocksize := Nat.div_le_div_right hdp
  have hdm := Nat.div_add_mod d file.blocksize
  have hpm := Nat.div_add_mod p file.blocksize
  have hdlt := Nat.mod_lt d hpos
  have hplt := Nat.mod_lt p hpos
  rw [XsTf.moveposrel, if_pos (by omega)]
  simp only [seek, Int.natAbs_neg, Int.natAbs_natCast]
  rw [← seek]
  generalize p / file.blocksize = block at *
  generalize d / file.blocksize = blocks at *
  generalize p % file.blocksize = offset at *
  generalize d % file.blocksize = bytes at *
  rw [Nat.mod_eq_of_lt (show blocks < 2 ^ 32 by omega),
    show (block + (2 ^ 32 - blocks)) % 2 ^ 32 = block - blocks by omega]
  by_cases hborrow : offset < bytes
  · -- a block is borrowed
    have hlt : blocks < block := by
      refine lt_of_le_of_ne hle fun h => ?_
      rw [h] at hdm
      omega
    obtain ⟨k, rfl⟩ := Nat.exists_eq_add_of_lt hlt
    rw [Nat.mul_add, Nat.mul_add, Nat.mul_one] at hpm
    rw [if_pos hborrow, if_pos hborrow,
      show (blocks + k + 1 - blocks + (2 ^ 32 - 1)) % 2 ^ 32 = k by omega, if_neg (by omega),
      file.seek_eq (by omega)]
    congr 2
    omega
  · obtain ⟨k, rfl⟩ := Nat.exists_eq_add_of_le hle
    rw [Nat.mul_add] at hpm
    rw [if_neg hborrow, if_neg hborrow, Nat.add_sub_cancel_left, if_neg (by omega),
      file.seek_eq (by omega)]
    congr 2
    omega

theorem moveposrel_seek_zero : (file.seek 0).moveposrel (-1) = none := by
  have hpos := file.blocksize_pos
  rw [XsTf.moveposrel, if_pos (by decide)]
  simp only [seek, Nat.zero_div, Nat.zero_mod]
  rcases Nat.lt_or_ge 1 file.blocksize with hlt | hle
  · rw [show (-1 : ℤ).natAbs = 1 from rfl, Nat.div_eq_of_lt hlt, Nat.mod_eq_of_lt hlt,
      if_pos Nat.one_pos]
    exact if_pos (by decide)
  · have hone : file.blocksize = 1 := by omega
    rw [hone]
    rfl

end TfFile

end SolidDB
