import SolidDB.Dbe.BkeyExpand
import SolidDB.Uti.VtplFindSplit

/-!
# Split keys

The separator of two nodes: `dbe_bkey_initsplit` turns the first key of the right node
into a key of the level above, `dbe_bkey_findsplit` keeps only as much of its v-tuple as
the key before it asks for. Both write into a key buffer that may hold an older key, so
behind the separator the pointer reads what the buffer held.
-/

namespace SolidDB

open FrontCoding

/-! ## The operations -/

/-- `SS_UINT4_STORETODISK` -/
def uint4Store (i : ℕ) : List UInt8 := uint2Store i ++ uint2Store (i / (256 * 256))

/-- The four address bytes that the buffer holds. -/
def bufferAddr (keybuf : List UInt8) : List UInt8 :=
  [keybuf.getD 3 0, keybuf.getD 4 0, keybuf.getD 5 0, keybuf.getD 6 0]

def dbeBkeySetdeletemark (k : List UInt8) : List UInt8 :=
  (k.headD 0 ||| UInt8.ofNat bkeyDeletemark) :: k.tail

def dbeBkeyEqualVtpl (k1 k2 : List UInt8) : Bool :=
  vtplEqual (bkeyGetvtplptr k1) (bkeyGetvtplptr k2)

/-- `bkey_initsplit_header`. The address stays as it is in the buffer. -/
def bkeyInitsplitHeader (keybuf sk : List UInt8) : Option (List UInt8) :=
  let header (info : ℕ) (trxid : List UInt8) : List UInt8 :=
    UInt8.ofNat info :: uint2Store 0 ++ bufferAddr keybuf ++ trxid
  let k :=
    if bkeyIsleaf sk then
      match nlongused (bkeyGetinfo sk) with
      | 0 => some (header bkey1longused [])
      -- the transaction number takes the place of the id
      | 1 => some (header bkey2longused (uint4Store (uint4Load (sk.drop 3))))
      | 2 => some (header bkey2longused (uint4Store (uint4Load (sk.drop 7))))
      | _ => none
    else
      match nlongused (bkeyGetinfo sk) with
      | 1 => some (header bkey1longused [])
      | 2 => some (header bkey2longused (uint4Store (uint4Load (sk.drop 7))))
      | _ => none
  k.map fun k => if bkeyIsdeletemark sk then dbeBkeySetdeletemark k else k

def overwrite (keybuf k : List UInt8) : List UInt8 := k ++ keybuf.drop k.length

def dbeBkeyInitsplit (keybuf splitKey : List UInt8) : Option (List UInt8) :=
  let vtpl := bkeyGetvtplptr splitKey
  (bkeyInitsplitHeader keybuf splitKey).map fun k =>
    overwrite keybuf (k ++ vtpl.take (vtplGrosslen vtpl))

def dbeBkeyFindsplit (keybuf fullKey compressedKey : List UInt8) :
    Option (List UInt8) :=
  (bkeyInitsplitHeader keybuf compressedKey).bind fun k =>
    (vtplFindSplit (bkeyGetvtplptr fullKey) (bkeyGetvtplptr compressedKey)
      (bkeyLoadindex compressedKey)).map fun vtpl => overwrite keybuf (k ++ vtpl)

/-! ## Comparing with a key in a buffer -/

theorem signOf_dbeBkeyCompare_append (k e : Key) (t : List UInt8) :
    signOf (dbeBkeyCompare k.bytes (e.bytes ++ t)) =
      fullCompare (headerTie .all k.header) k.vtpl e.entry := by
  have hk := k.netlen_lt
  have he := e.netlen_lt
  unfold bkeyMaxlen at hk he
  have hcmp := signOf_vtplCompare k.vtpl_ne e.vtpl_ne (by omega) (by omega) [] t
  rw [List.append_nil] at hcmp
  have hkptr := bkeyGetvtplptr_stored ⟨0, k.vtpl, k.header⟩
  have heptr := bkeyGetvtplptr_storedBytes ⟨0, e.vtpl, e.header⟩ t
  simp only [dbeBkeyCompare, dbeBkeyCompareMode, Key.bytes, hkptr, heptr]
  split
  · rename_i hzero
    rw [hzero, signOf_zero] at hcmp
    have hfn := fn_bytes .all k.header e.header 0 0 (encVtpl k.vtpl)
      (encVtpl e.vtpl ++ t)
    simp only [storedBytes, List.append_assoc, fullCompare, Key.entry, ← hcmp]
    rw [hfn]
    rfl
  · rename_i hne
    have hne' : tupleCompare k.vtpl e.vtpl ≠ .eq := by
      rw [← hcmp, Ne, signOf_eq_eq_iff]
      exact hne
    rw [hcmp]
    simp only [fullCompare, Key.entry]
    cases h : tupleCompare k.vtpl e.vtpl with
    | lt => rfl
    | eq => exact absurd h hne'
    | gt => rfl

/-! ## Headers -/

theorem uint4Load_lt (c : List UInt8) : uint4Load c < 2 ^ 32 := by
  have h0 := (c.getD 0 0).toNat_lt
  have h1 := (c.getD 1 0).toNat_lt
  have h2 := ((c.drop 2).getD 0 0).toNat_lt
  have h3 := ((c.drop 2).getD 1 0).toNat_lt
  unfold uint4Load uint2Load
  omega

theorem uint4Load_uint4Store {i : ℕ} (h : i < 2 ^ 32) (t : List UInt8) :
    uint4Load (uint4Store i ++ t) = i := by
  simp [uint4Load, uint4Store, uint2Load, uint2Store]
  omega

@[simp] theorem length_uint4Store (i : ℕ) : (uint4Store i).length = 4 := rfl

@[simp] theorem length_bufferAddr (keybuf : List UInt8) :
    (bufferAddr keybuf).length = 4 := rfl

def splitHeader1 (deletemark : Bool) (addr : List UInt8) (h : addr.length = 4) :
    BkeyHeader where
  info := if deletemark then 9 else 1
  longs := addr
  longs_length := by rw [h]; cases deletemark <;> rfl
  info_ne := by cases deletemark <;> decide
  nlong_ne := by cases deletemark <;> decide
  index_nlong := by cases deletemark <;> decide

def splitHeader2 (deletemark : Bool) (addr : List UInt8) (h : addr.length = 4)
    (trxid : ℕ) : BkeyHeader where
  info := if deletemark then 10 else 2
  longs := addr ++ uint4Store trxid
  longs_length := by
    rw [List.length_append, h, length_uint4Store]
    cases deletemark <;> rfl
  info_ne := by cases deletemark <;> decide
  nlong_ne := by cases deletemark <;> decide
  index_nlong := by cases deletemark <;> decide

def BkeyHeader.deletemark (h : BkeyHeader) : Bool :=
  h.info.toNat &&& bkeyDeletemark != 0

def BkeyHeader.trxid (h : BkeyHeader) : ℕ := bkeyCompareHeaderGettrxid (h.bytes 0)

theorem headerCompare_all (h1 h2 : BkeyHeader) :
    headerCompare .all h1 h2 =
      if h1.deletemark && !h2.deletemark then -1
      else if !h1.deletemark && h2.deletemark then 1
      else dbeTrxidCmp h1.trxid h2.trxid := by
  have hmark (h : BkeyHeader) : bkeyIsdeletemark (h.bytes 0) = h.deletemark := rfl
  change dbeBkeyCompareHeader (h1.bytes 0) (h2.bytes 0) = _
  simp only [dbeBkeyCompareHeader, dbeBkeyCompareDeletemark, hmark]
  cases h1.deletemark <;> cases h2.deletemark <;> simp <;> rfl

/-- The headers of a separator, with and without the delete mark, compare like that of the key it is
made from. -/
structure SplitHeaders (h : BkeyHeader) (f : Bool → BkeyHeader) : Prop where
  deletemark_eq : ∀ d, (f d).deletemark = d
  trxid_eq : ∀ d, (f d).trxid = h.trxid
  longs_le : ∀ d, (f d).longs.length ≤ 8
  setDeletemark : ∀ d r, dbeBkeySetdeletemark ((f d).bytes 0 ++ r) = (f true).bytes 0 ++ r

theorem bkeyIsleaf_bytes (h : BkeyHeader) (i : ℕ) (t : List UInt8) :
    bkeyIsleaf (h.bytes i ++ t) = (h.info.toNat &&& bkeyLeaf != 0) := rfl

theorem BkeyHeader.trxid_eq (h : BkeyHeader) :
    h.trxid = if h.info.toNat &&& bkeyLeaf != 0 then
        match nlongused h.info.toNat with
        | 1 => uint4Load h.longs
        | 2 => uint4Load (h.longs.drop 4)
        | _ => 0
      else
        match nlongused h.info.toNat with
        | 2 => uint4Load (h.longs.drop 4)
        | _ => 0 := rfl

theorem BkeyHeader.trxid_lt (h : BkeyHeader) : h.trxid < 2 ^ 32 := by
  have hlt := uint4Load_lt
  rw [h.trxid_eq]
  split <;> split <;> first | exact hlt _ | decide

theorem splitInfo1_reads : ∀ d : Bool,
    ((if d then (9 : UInt8) else 1).toNat &&& bkeyDeletemark != 0) = d ∧
      ((if d then (9 : UInt8) else 1).toNat &&& bkeyLeaf != 0) = false ∧
      nlongused (if d then (9 : UInt8) else 1).toNat = 1 ∧
      (if d then (9 : UInt8) else 1) ||| UInt8.ofNat bkeyDeletemark = 9 := by decide

theorem splitInfo2_reads : ∀ d : Bool,
    ((if d then (10 : UInt8) else 2).toNat &&& bkeyDeletemark != 0) = d ∧
      ((if d then (10 : UInt8) else 2).toNat &&& bkeyLeaf != 0) = false ∧
      nlongused (if d then (10 : UInt8) else 2).toNat = 2 ∧
      (if d then (10 : UInt8) else 2) ||| UInt8.ofNat bkeyDeletemark = 10 := by decide

theorem splitHeader1_splits {h : BkeyHeader} {addr : List UInt8} (haddr : addr.length = 4)
    (hid : h.trxid = 0) : SplitHeaders h fun d => splitHeader1 d addr haddr where
  deletemark_eq d := (splitInfo1_reads d).1
  trxid_eq d := by
    have hinfo : (splitHeader1 d addr haddr).info = if d then 9 else 1 := rfl
    obtain ⟨-, hleaf, hlong, -⟩ := splitInfo1_reads d
    rw [BkeyHeader.trxid_eq, hinfo, hleaf, hlong, hid]
    rfl
  longs_le d := by
    change addr.length ≤ 8
    omega
  setDeletemark d r := congrArg (· :: (uint2Store 0 ++ addr ++ r)) (splitInfo1_reads d).2.2.2

theorem splitHeader2_splits (h : BkeyHeader) {addr : List UInt8} (haddr : addr.length = 4) :
    SplitHeaders h fun d => splitHeader2 d addr haddr h.trxid where
  deletemark_eq d := (splitInfo2_reads d).1
  trxid_eq d := by
    have hinfo : (splitHeader2 d addr haddr h.trxid).info = if d then 10 else 2 := rfl
    have hdrop : (splitHeader2 d addr haddr h.trxid).longs.drop 4 = uint4Store h.trxid ++ [] := by
      change (addr ++ uint4Store h.trxid).drop 4 = _
      rw [← haddr, List.drop_left, List.append_nil]
    obtain ⟨-, hleaf, hlong, -⟩ := splitInfo2_reads d
    rw [BkeyHeader.trxid_eq, hinfo, hleaf, hlong]
    change uint4Load ((splitHeader2 d addr haddr h.trxid).longs.drop 4) = _
    rw [hdrop, uint4Load_uint4Store h.trxid_lt]
  longs_le d := by
    change (addr ++ uint4Store h.trxid).length ≤ 8
    rw [List.length_append, haddr, length_uint4Store]
  setDeletemark d r :=
    congrArg (· :: (uint2Store 0 ++ (addr ++ uint4Store h.trxid) ++ r)) (splitInfo2_reads d).2.2.2

/-- `bkey_initsplit_header` lays out a header that compares like the one it is given. -/
theorem bkeyInitsplitHeader_splits (keybuf : List UInt8) (h : BkeyHeader) (i : ℕ) (t : List UInt8) :
    ∃ f, bkeyInitsplitHeader keybuf (h.bytes i ++ t) = some ((f h.deletemark).bytes 0) ∧
      SplitHeaders h f := by
  have haddr := length_bufferAddr keybuf
  have hmark : bkeyIsdeletemark (h.bytes i ++ t) = h.deletemark := rfl
  have hload (n : ℕ) (hn : n + 4 ≤ h.longs.length) :
      uint4Load ((h.bytes i ++ t).drop (3 + n)) = uint4Load (h.longs.drop n) :=
    uint4Load_longs h i n t hn
  have hlen := h.longs_length
  have hid := h.trxid_eq
  have hthree := h.nlong_ne
  have hor1 : UInt8.ofNat bkey1longused ||| UInt8.ofNat bkeyDeletemark = 9 := by decide
  have hor2 : UInt8.ofNat bkey2longused ||| UInt8.ofNat bkeyDeletemark = 10 := by decide
  have hone (hid : h.trxid = 0) : ∃ f : Bool → BkeyHeader,
      some (if h.deletemark then dbeBkeySetdeletemark (UInt8.ofNat bkey1longused ::
        uint2Store 0 ++ bufferAddr keybuf ++ []) else UInt8.ofNat bkey1longused ::
        uint2Store 0 ++ bufferAddr keybuf ++ []) = some ((f h.deletemark).bytes 0) ∧
          SplitHeaders h f := by
    refine ⟨_, ?_, splitHeader1_splits haddr hid⟩
    cases h.deletemark with
    | false => rfl
    | true => exact congrArg some (congrArg (· :: (uint2Store 0 ++ bufferAddr keybuf)) hor1)
  have htwo {trxid : ℕ} (hid : h.trxid = trxid) : ∃ f : Bool → BkeyHeader,
      some (if h.deletemark then dbeBkeySetdeletemark (UInt8.ofNat bkey2longused ::
        uint2Store 0 ++ bufferAddr keybuf ++ uint4Store trxid) else
        UInt8.ofNat bkey2longused :: uint2Store 0 ++ bufferAddr keybuf ++
          uint4Store trxid) = some ((f h.deletemark).bytes 0) ∧ SplitHeaders h f := by
    refine ⟨_, ?_, splitHeader2_splits h haddr⟩
    rw [hid]
    cases h.deletemark with
    | false => rfl
    | true => exact congrArg some (congrArg
        (· :: (uint2Store 0 ++ (bufferAddr keybuf ++ uint4Store trxid))) hor2)
  have hbound : nlongused h.info.toNat < 4 := Nat.lt_succ_of_le Nat.and_le_right
  rw [bkeyInitsplitHeader, bkeyIsleaf_bytes, bkeyGetinfo_bytes, hmark]
  by_cases hleaf : (h.info.toNat &&& bkeyLeaf != 0) = true
  · rw [if_pos hleaf] at hid ⊢
    generalize nlongused h.info.toNat = n at hid hlen hthree hbound
    rcases n with _ | _ | _ | n
    · exact hone hid
    · exact htwo (hid.trans (hload 0 (by omega)).symm)
    · exact htwo (hid.trans (hload 4 (by omega)).symm)
    · omega
  · have hzero := h.index_nlong (by simpa using hleaf)
    rw [if_neg hleaf] at hid ⊢
    generalize nlongused h.info.toNat = n at hid hlen hthree hbound hzero
    rcases n with _ | _ | _ | n
    · exact absurd rfl hzero
    · exact hone hid
    · exact htwo (hid.trans (hload 4 (by omega)).symm)
    · omega

end SolidDB
