import SolidDB.Dbe.BkeyRecompress

/-!
# B-tree nodes

The block of a `dbe_bnode_t` with its keys and its mismatch array. The keys stand
behind the header, each compressed against the one before it. A node with a mismatch
array has one entry of four bytes for each key at the end of the block, with the
truncated index, the first data byte and the offset of the key; there the keys may
stand in any physical order. `Plain` and `Arrayed` say what the two kinds of node hold.
-/

namespace SolidDB

open FrontCoding Memory

def bnodeHeaderlen : ℕ := 12

/-- The fields of `dbe_bnode_t` that the key operations use. `nP` is the block
`n_p`, pointers into it are offsets. -/
structure Bnode where
  nP : Mem UInt8
  blocksize : ℕ
  nLen : ℕ
  nCount : ℕ
  nLevel : ℕ
  nSeqinscount : ℕ
  nLastinsindex : ℤ
  /-- `BNODE_MISMATCHARRAY` in `n_info` -/
  mismatcharray : Bool
  nKeysearchinfoArray : ℕ

def keyAt (m : Mem UInt8) (blocksize keys : ℕ) : List UInt8 :=
  read m (bnodeHeaderlen + keys) (blocksize - (bnodeHeaderlen + keys))

def Bnode.key (n : Bnode) (keys : ℕ) : List UInt8 := keyAt n.nP n.blocksize keys

def bnodeGetkeyoffset (n : Bnode) (i : ℕ) : ℕ :=
  if 0 < n.nCount then uint2Load (read n.nP (n.nKeysearchinfoArray + 4 * i + 2) 2) else 0

def keysearchinfoBytes (index : ℕ) (mismatch : UInt8) (offset : ℕ) : List UInt8 :=
  UInt8.ofNat index :: mismatch :: uint2Store offset

def bnodeSetkeysearchinfo (m : Mem UInt8) (keysearchinfoArray index : ℕ)
    (mismatch : UInt8) (offset : ℕ) : Mem UInt8 :=
  write m keysearchinfoArray (keysearchinfoBytes index mismatch offset)

/-- The index and the mismatch byte of a key for the array: the index up to 255 and
the first byte of the first field, zero where the field is empty. -/
def keysearchinfo (k : List UInt8) : ℕ × UInt8 :=
  let (data, len) := vaGetdata (vtplGetdata (bkeyGetvtplptr k))
  (if 255 < bkeyLoadindex k then 255 else bkeyLoadindex k,
    if len ≠ 0 then data.headD 0 else 0)

/-! ## What a node holds -/

structure Record where
  offset : ℕ
  key : StoredKey

def Record.length (r : Record) : ℕ := (storedBytes r.key).length

def Record.entryBytes (r : Record) : List UInt8 :=
  keysearchinfoBytes (min r.key.index 255) ((r.key.rest.headD []).headD 0) r.offset

def Record.Disjoint (r s : Record) : Prop :=
  r.offset + r.length ≤ s.offset ∨ s.offset + s.length ≤ r.offset

def layOut : ℕ → List StoredKey → List Record
  | _, [] => []
  | offset, s :: ss => ⟨offset, s⟩ :: layOut (offset + (storedBytes s).length) ss

structure Bnode.Holding (n : Bnode) (rs : List Record) : Prop where
  nCount_eq : n.nCount = rs.length
  holds : ∀ r ∈ rs, Holds n.nP (bnodeHeaderlen + r.offset) (storedBytes r.key)
  fits : ∀ r ∈ rs, StoredFits r.key
  le_nLen : ∀ r ∈ rs, r.offset + r.length ≤ n.nLen
  nLen_le : bnodeHeaderlen + n.nLen ≤ n.blocksize

structure Bnode.Plain (n : Bnode) (ss : List StoredKey) : Prop extends
    n.Holding (layOut 0 ss) where
  mismatcharray_eq : n.mismatcharray = false
  nLen_eq : n.nLen = (ss.flatMap storedBytes).length

structure Bnode.Arrayed (n : Bnode) (rs : List Record) : Prop extends
    n.Holding rs where
  mismatcharray_eq : n.mismatcharray = true
  array_eq : n.nKeysearchinfoArray + 4 * rs.length = n.blocksize
  room : bnodeHeaderlen + n.nLen ≤ n.nKeysearchinfoArray
  entry : ∀ i (h : i < rs.length),
    Holds n.nP (n.nKeysearchinfoArray + 4 * i) rs[i].entryBytes
  offset_lt : ∀ r ∈ rs, r.offset < 2 ^ 16
  disjoint : rs.Pairwise Record.Disjoint

/-! ## Keys laid out one behind the other -/

@[simp] theorem layOut_nil (offset : ℕ) : layOut offset [] = [] := rfl

@[simp] theorem layOut_cons (offset : ℕ) (s : StoredKey) (ss : List StoredKey) :
    layOut offset (s :: ss) =
      ⟨offset, s⟩ :: layOut (offset + (storedBytes s).length) ss := rfl

@[simp] theorem length_layOut (offset : ℕ) (ss : List StoredKey) :
    (layOut offset ss).length = ss.length := by
  induction ss generalizing offset with
  | nil => rfl
  | cons s ss ih => rw [layOut_cons, List.length_cons, ih, List.length_cons]

@[simp] theorem map_key_layOut (offset : ℕ) (ss : List StoredKey) :
    (layOut offset ss).map Record.key = ss := by
  induction ss generalizing offset with
  | nil => rfl
  | cons s ss ih => rw [layOut_cons, List.map_cons, ih]

theorem mem_layOut_bounds {offset : ℕ} {ss : List StoredKey} {r : Record}
    (h : r ∈ layOut offset ss) :
    offset ≤ r.offset ∧
      r.offset + r.length ≤ offset + (ss.flatMap storedBytes).length := by
  induction ss generalizing offset with
  | nil => simp at h
  | cons s ss ih =>
      rw [layOut_cons, List.mem_cons] at h
      rw [List.flatMap_cons, List.length_append]
      rcases h with rfl | h
      · exact ⟨le_refl _, by change offset + (storedBytes s).length ≤ _; omega⟩
      · have := ih h
        omega

theorem layOut_disjoint (offset : ℕ) (ss : List StoredKey) :
    (layOut offset ss).Pairwise Record.Disjoint := by
  induction ss generalizing offset with
  | nil => exact List.Pairwise.nil
  | cons s ss ih =>
      rw [layOut_cons, List.pairwise_cons]
      exact ⟨fun r hr => Or.inl (mem_layOut_bounds hr).1, ih _⟩

theorem holds_layOut {m : Mem UInt8} {offset : ℕ} {ss : List StoredKey} :
    Holds m (bnodeHeaderlen + offset) (ss.flatMap storedBytes) ↔
      ∀ r ∈ layOut offset ss, Holds m (bnodeHeaderlen + r.offset) (storedBytes r.key) := by
  induction ss generalizing offset with
  | nil => simp
  | cons s ss ih =>
      rw [List.flatMap_cons, holds_append, layOut_cons, List.forall_mem_cons,
        Nat.add_assoc, ih]

theorem mem_key_of_mem_layOut {offset : ℕ} {ss : List StoredKey} {r : Record}
    (h : r ∈ layOut offset ss) : r.key ∈ ss := by
  rw [← map_key_layOut offset ss]
  exact List.mem_map_of_mem h

theorem Bnode.Plain.mk' {n : Bnode} {ss : List StoredKey}
    (hmis : n.mismatcharray = false) (hcount : n.nCount = ss.length)
    (hlen : n.nLen = (ss.flatMap storedBytes).length)
    (hroom : bnodeHeaderlen + n.nLen ≤ n.blocksize)
    (hfits : ∀ s ∈ ss, StoredFits s)
    (hholds : Holds n.nP bnodeHeaderlen (ss.flatMap storedBytes)) : n.Plain ss where
  nCount_eq := by rw [hcount, length_layOut]
  holds := holds_layOut.mp hholds
  fits := fun r hr => hfits r.key (mem_key_of_mem_layOut hr)
  le_nLen := fun r hr => by
    have := (mem_layOut_bounds hr).2
    omega
  nLen_le := hroom
  mismatcharray_eq := hmis
  nLen_eq := hlen

theorem Bnode.Plain.fits_of_mem {n : Bnode} {ss : List StoredKey} (h : n.Plain ss)
    {s : StoredKey} (hs : s ∈ ss) : StoredFits s := by
  rw [← map_key_layOut 0 ss] at hs
  obtain ⟨r, hr, rfl⟩ := List.mem_map.mp hs
  exact h.fits r hr

def plainNode (blocksize nLevel : ℕ) (ks : List Key) : Bnode where
  nP := write (fun _ => 0) bnodeHeaderlen
    ((frontCode [] (ks.map Key.entry)).flatMap storedBytes)
  blocksize := blocksize
  nLen := ((frontCode [] (ks.map Key.entry)).flatMap storedBytes).length
  nCount := ks.length
  nLevel := nLevel
  nSeqinscount := 0
  nLastinsindex := 0
  mismatcharray := false
  nKeysearchinfoArray := 0

theorem plainNode_plain {blocksize : ℕ} (nLevel : ℕ) {ks : List Key}
    (h : bnodeHeaderlen + (plainNode blocksize nLevel ks).nLen ≤ blocksize) :
    (plainNode blocksize nLevel ks).Plain (frontCode [] (ks.map Key.entry)) :=
  Bnode.Plain.mk' rfl (length_frontCode [] ks).symm rfl h
    (fun _ hs => storedFits_of_mem_frontCode hs) (holds_write _ _ _)

/-! ## Reading a held key -/

theorem keyAt_eq {m : Mem UInt8} {blocksize : ℕ} {r : Record}
    (hholds : Holds m (bnodeHeaderlen + r.offset) (storedBytes r.key))
    (hle : bnodeHeaderlen + (r.offset + r.length) ≤ blocksize) :
    ∃ t, keyAt m blocksize r.offset = storedBytes r.key ++ t := by
  have hlen : (storedBytes r.key).length = r.length := rfl
  exact ⟨_, hholds.read_add_eq (by omega)⟩

theorem Bnode.Holding.key_eq {n : Bnode} {rs : List Record} (h : n.Holding rs)
    {r : Record} (hr : r ∈ rs) : ∃ t, n.key r.offset = storedBytes r.key ++ t := by
  have hle := h.le_nLen r hr
  have hlen := h.nLen_le
  exact keyAt_eq (h.holds r hr) (by omega)

theorem Bnode.Holding.getlength {n : Bnode} {rs : List Record} (h : n.Holding rs)
    {r : Record} (hr : r ∈ rs) : dbeBkeyGetlength (n.key r.offset) = r.length := by
  obtain ⟨t, ht⟩ := h.key_eq hr
  rw [ht, dbeBkeyGetlength_storedBytes _ _ (h.fits r hr).rest_fits, Record.length]

theorem Bnode.Holding.loadindex {n : Bnode} {rs : List Record} (h : n.Holding rs)
    {r : Record} (hr : r ∈ rs) : bkeyLoadindex (n.key r.offset) = r.key.index := by
  obtain ⟨t, ht⟩ := h.key_eq hr
  rw [ht, bkeyLoadindex_storedBytes _ _ (h.fits r hr).index_lt]

theorem keysearchinfo_storedBytes {s : StoredKey} (hs : StoredFits s) (t : List UInt8) :
    keysearchinfo (storedBytes s ++ t) =
      (min s.index 255, (s.rest.headD []).headD 0) := by
  have hne := hs.rest_fits.1
  have hlt := hs.rest_fits.netlen_lt
  rw [keysearchinfo, bkeyGetvtplptr_storedBytes, vtplGetdata_encVtpl hlt,
    vaGetdata_encFields hne hlt, bkeyLoadindex_storedBytes _ _ hs.index_lt]
  have hmin : (if 255 < s.index then 255 else s.index) = min s.index 255 := by
    split <;> omega
  simp only [hmin]
  obtain ⟨f, v, hv⟩ := List.exists_cons_of_ne_nil hne
  rw [hv]
  cases f with
  | nil => rfl
  | cons x f => rfl

theorem Bnode.Arrayed.getkeyoffset {n : Bnode} {rs : List Record} (h : n.Arrayed rs)
    {i : ℕ} (hi : i < rs.length) : bnodeGetkeyoffset n i = rs[i].offset := by
  have hentry := h.entry i hi
  have hlt := h.offset_lt rs[i] (List.getElem_mem hi)
  have hcount := h.nCount_eq
  rw [Record.entryBytes, keysearchinfoBytes, ← List.singleton_append,
    ← @List.singleton_append _ _ (uint2Store _), ← List.append_assoc,
    holds_append] at hentry
  have hread := hentry.2.read_eq
  rw [bnodeGetkeyoffset, if_pos (by omega)]
  change uint2Load (read n.nP (n.nKeysearchinfoArray + 4 * i + 2) 2) = _
  change read n.nP (n.nKeysearchinfoArray + 4 * i + 2) 2 = _ at hread
  rw [hread]
  simpa using uint2Load_uint2Store hlt []

theorem Bnode.Arrayed.entry_index {n : Bnode} {rs : List Record} (h : n.Arrayed rs)
    {i : ℕ} (hi : i < rs.length) :
    (n.nP (n.nKeysearchinfoArray + 4 * i)).toNat = min rs[i].key.index 255 ∧
      n.nP (n.nKeysearchinfoArray + 4 * i + 1) = (rs[i].key.rest.headD []).headD 0 := by
  have hentry := (holds_iff _ _ _).mp (h.entry i hi)
  have hzero := hentry 0 (by simp [Record.entryBytes, keysearchinfoBytes])
  have hone := hentry 1 (by simp [Record.entryBytes, keysearchinfoBytes])
  rw [Nat.add_zero] at hzero
  refine ⟨?_, hone⟩
  rw [hzero]
  change (UInt8.ofNat (min rs[i].key.index 255)).toNat = _
  rw [UInt8.toNat_ofNat']
  omega

end SolidDB
