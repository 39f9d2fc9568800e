import SolidDB.Uti.VtplExpand

/-!
# B-tree keys

The physical key of `dbe6bkey.h`: an info byte, the mismatch index in two bytes,
up to two four-byte numbers and the v-tuple. The functions here read a key from
the bytes at a pointer, which may go on behind the key.

`BkeyHeader` and `Key` are the well-formed headers and uncompressed keys;
`storedBytes` lays a header and a compressed tuple out in memory.
-/

namespace SolidDB

open FrontCoding

/-! ## Key info -/

def bkey1longused : ℕ := 1
def bkey2longused : ℕ := 2
def bkeyLeaf : ℕ := 4
def bkeyDeletemark : ℕ := 8
def bkeyIllegalinfo : ℕ := bkeyLeaf ||| bkey1longused

def bkeyMaxheaderlen : ℕ := 11
def bkeyHeaderlenFixed : ℕ := 3

/-- `BKEY_MAXLEN`: half of the largest index block less `sizeof(double)`. -/
def bkeyMaxlen : ℕ := 64 * 1024 / 2 - 8

/-- `SS_UINT2_STORETODISK` -/
def uint2Store (i : ℕ) : List UInt8 := [UInt8.ofNat i, UInt8.ofNat (i / 256)]

/-- `SS_UINT2_LOADFROMDISK` -/
def uint2Load (c : List UInt8) : ℕ := (c.getD 0 0).toNat + 256 * (c.getD 1 0).toNat

/-- `SS_UINT4_LOADFROMDISK` -/
def uint4Load (c : List UInt8) : ℕ :=
  uint2Load c + 256 * 256 * uint2Load (c.drop 2)

def bkeyGetinfo (k : List UInt8) : ℕ := (k.headD 0).toNat

/-- `BKEY_NLONGUSED` of an info byte. -/
def nlongused (info : ℕ) : ℕ := info &&& (bkey1longused ||| bkey2longused)

def bkeyHeaderlen (k : List UInt8) : ℕ :=
  bkeyHeaderlenFixed + 4 * nlongused (bkeyGetinfo k)

def bkeyLoadindex (k : List UInt8) : ℕ := uint2Load (k.drop 1)

def bkeyStoreindex (k : List UInt8) (i : ℕ) : List UInt8 :=
  k.take 1 ++ uint2Store i ++ k.drop 3

def bkeyGetvtplptr (k : List UInt8) : List UInt8 := k.drop (bkeyHeaderlen k)

def dbeBkeyGetlength (k : List UInt8) : ℕ :=
  bkeyHeaderlen k + vtplGrosslen (bkeyGetvtplptr k)

def bkeyIsleaf (k : List UInt8) : Bool := bkeyGetinfo k &&& bkeyLeaf != 0

def bkeyIsdeletemark (k : List UInt8) : Bool := bkeyGetinfo k &&& bkeyDeletemark != 0

/-! ## Comparison -/

/-- `dbe_trxid_cmp`: the difference is circular, and zero precedes every
other transaction id. -/
def dbeTrxidCmp (trxid1 trxid2 : ℕ) : ℤ :=
  let diff := toInt32 ((trxid1 : ℤ) - trxid2)
  if diff = 0 then 0
  else if trxid1 = 0 then -1
  else if trxid2 = 0 then 1
  else if diff < 0 then -1
  else 1

/-- `bkey_compare_header_gettrxid`. The remaining cases are assertion failures
in the source. -/
def bkeyCompareHeaderGettrxid (k : List UInt8) : ℕ :=
  if bkeyIsleaf k then
    match nlongused (bkeyGetinfo k) with
    | 1 => uint4Load (k.drop 3)
    | 2 => uint4Load (k.drop 7)
    | _ => 0
  else
    match nlongused (bkeyGetinfo k) with
    | 2 => uint4Load (k.drop 7)
    | _ => 0

def dbeBkeyCompareDeletemark (k1 k2 : List UInt8) : ℤ :=
  if bkeyIsdeletemark k1 ∧ ¬ bkeyIsdeletemark k2 then -1
  else if ¬ bkeyIsdeletemark k1 ∧ bkeyIsdeletemark k2 then 1
  else 0

def dbeBkeyCompareHeader (k1 k2 : List UInt8) : ℤ :=
  let cmp := dbeBkeyCompareDeletemark k1 k2
  if cmp ≠ 0 then cmp
  else dbeTrxidCmp (bkeyCompareHeaderGettrxid k1) (bkeyCompareHeaderGettrxid k2)

inductive DbeBkeyCmp
  | vtpl
  | all
  | delete
deriving DecidableEq, Repr

/-- The comparison function that `dbe_bkey_search_init` sets. -/
def DbeBkeyCmp.fn : DbeBkeyCmp → Option (List UInt8 → List UInt8 → ℤ)
  | vtpl => none
  | all => some dbeBkeyCompareHeader
  | delete => some dbeBkeyCompareDeletemark

/-- `DBE_BKEY_COMPARE_VTPL`, `DBE_BKEY_COMPARE` and `DBE_BKEY_COMPARE_DELETE` -/
def dbeBkeyCompareMode (mode : DbeBkeyCmp) (k1 k2 : List UInt8) : ℤ :=
  let cmp := vtplCompare (bkeyGetvtplptr k1) (bkeyGetvtplptr k2)
  if cmp = 0 then
    match mode.fn with
    | some fn => fn k1 k2
    | none => 0
  else cmp

def dbeBkeyCompare (k1 k2 : List UInt8) : ℤ := dbeBkeyCompareMode .all k1 k2

/-! ## Well-formed keys -/

/-- A key header without the mismatch index: the info byte and the numbers
behind the index. The info byte is one that the key functions accept. -/
structure BkeyHeader where
  info : UInt8
  longs : List UInt8
  longs_length : longs.length = 4 * nlongused info.toNat
  info_ne : info.toNat ≠ bkeyIllegalinfo
  nlong_ne : nlongused info.toNat ≠ 3
  index_nlong : info.toNat &&& bkeyLeaf = 0 → nlongused info.toNat ≠ 0
deriving DecidableEq

structure Key where
  header : BkeyHeader
  vtpl : Fields
  vtpl_ne : vtpl ≠ []
  length_lt : 3 + header.longs.length + (encVtpl vtpl).length < bkeyMaxlen
deriving DecidableEq

theorem twoLongs_length (m n : UInt8) : [m, 0, 0, 0, n, 0, 0, 0].length = 8 := rfl

theorem indexInfo_ne : (2 : UInt8).toNat ≠ bkeyIllegalinfo := by decide

theorem indexInfo_nlong : nlongused (2 : UInt8).toNat ≠ 3 := by decide

theorem indexInfo_index :
    (2 : UInt8).toNat &&& bkeyLeaf = 0 → nlongused (2 : UInt8).toNat ≠ 0 := by
  decide

theorem oneField_ne : ([[1]] : Fields) ≠ [] := by decide

theorem oneField_length : 11 + (encVtpl [[1]]).length < bkeyMaxlen := by decide

theorem twoFields_ne : ([[1], [2]] : Fields) ≠ [] := by decide

theorem twoFields_length : 11 + (encVtpl [[1], [2]]).length < bkeyMaxlen := by decide

/-- The leaf key with both transaction numbers, here below 256. -/
def leafKey (trxnum trxid : UInt8) (v : Fields) (hv : v ≠ [])
    (hlen : 11 + (encVtpl v).length < bkeyMaxlen) : Key where
  header := ⟨6, [trxnum, 0, 0, 0, trxid, 0, 0, 0], rfl, by decide, by decide, by decide⟩
  vtpl := v
  vtpl_ne := hv
  length_lt := hlen

abbrev StoredKey := Stored UInt8 BkeyHeader

def BkeyHeader.bytes (h : BkeyHeader) (index : ℕ) : List UInt8 :=
  h.info :: uint2Store index ++ h.longs

def storedBytes (s : StoredKey) : List UInt8 := s.tag.bytes s.index ++ encVtpl s.rest

def Key.entry (k : Key) : Entry UInt8 BkeyHeader := ⟨k.vtpl, k.header⟩

def Key.bytes (k : Key) : List UInt8 := storedBytes ⟨0, k.vtpl, k.header⟩

structure StoredFits (s : StoredKey) : Prop where
  index_lt : s.index < 2 ^ 16
  rest_fits : VtplFits s.rest

theorem netlen_le_length_encVtpl (v : Fields) : netlen v ≤ (encVtpl v).length := by
  rw [length_encVtpl]
  omega

theorem Key.netlen_lt (k : Key) : netlen k.vtpl < bkeyMaxlen := by
  have := k.length_lt
  have := netlen_le_length_encVtpl k.vtpl
  omega

theorem Key.vtplFits (k : Key) : VtplFits k.vtpl := by
  refine ⟨k.vtpl_ne, ?_⟩
  have := k.netlen_lt
  unfold bkeyMaxlen at this
  omega

theorem Key.length_tupleSyms_lt (k : Key) :
    (tupleSyms k.vtpl).length < bkeyMaxlen :=
  lt_of_le_of_lt (length_tupleSyms_le_netlen k.vtpl) k.netlen_lt

/-! ## Reading a laid out key -/

section Reading

variable (s : StoredKey) (t : List UInt8)

theorem uint2Load_uint2Store {i : ℕ} (h : i < 2 ^ 16) (t : List UInt8) :
    uint2Load (uint2Store i ++ t) = i := by
  simp [uint2Load, uint2Store]
  omega

@[simp] theorem length_uint2Store (i : ℕ) : (uint2Store i).length = 2 := rfl

@[simp] theorem BkeyHeader.length_bytes (h : BkeyHeader) (i : ℕ) :
    (h.bytes i).length = 3 + h.longs.length := by
  simp [BkeyHeader.bytes]
  omega

theorem length_storedBytes :
    (storedBytes s).length = 3 + s.tag.longs.length + (encVtpl s.rest).length := by
  simp [storedBytes]

@[simp] theorem bkeyGetinfo_bytes (h : BkeyHeader) (i : ℕ) :
    bkeyGetinfo (h.bytes i ++ t) = h.info.toNat := rfl

@[simp] theorem bkeyHeaderlen_bytes (h : BkeyHeader) (i : ℕ) :
    bkeyHeaderlen (h.bytes i ++ t) = 3 + h.longs.length := by
  rw [bkeyHeaderlen, bkeyGetinfo_bytes, h.longs_length]
  rfl

theorem bkeyLoadindex_bytes (h : BkeyHeader) {i : ℕ} (hi : i < 2 ^ 16) :
    bkeyLoadindex (h.bytes i ++ t) = i := by
  have := uint2Load_uint2Store hi (h.longs ++ t)
  simpa [bkeyLoadindex, BkeyHeader.bytes] using this

theorem bkeyLoadindex_storedBytes (h : s.index < 2 ^ 16) :
    bkeyLoadindex (storedBytes s ++ t) = s.index := by
  rw [storedBytes, List.append_assoc, bkeyLoadindex_bytes _ _ h]

theorem bkeyStoreindex_bytes (h : BkeyHeader) (i j : ℕ) :
    bkeyStoreindex (h.bytes i ++ t) j = h.bytes j ++ t := by
  simp [bkeyStoreindex, BkeyHeader.bytes, uint2Store]

theorem bkeyGetvtplptr_storedBytes :
    bkeyGetvtplptr (storedBytes s ++ t) = encVtpl s.rest ++ t := by
  rw [bkeyGetvtplptr, storedBytes, List.append_assoc, bkeyHeaderlen_bytes,
    ← BkeyHeader.length_bytes s.tag s.index, List.drop_left]

theorem take_headerlen_storedBytes :
    (storedBytes s ++ t).take (bkeyHeaderlen (storedBytes s ++ t)) =
      s.tag.bytes s.index := by
  rw [storedBytes, List.append_assoc, bkeyHeaderlen_bytes,
    ← BkeyHeader.length_bytes s.tag s.index, List.take_left]

theorem dbeBkeyGetlength_storedBytes (h : VtplFits s.rest) :
    dbeBkeyGetlength (storedBytes s ++ t) = (storedBytes s).length := by
  rw [dbeBkeyGetlength, bkeyGetvtplptr_storedBytes, vtplGrosslen_encVtpl h.netlen_lt,
    storedBytes, List.append_assoc, bkeyHeaderlen_bytes, List.length_append,
    BkeyHeader.length_bytes]

theorem bkeyHeaderlen_storedBytes :
    bkeyHeaderlen (storedBytes s ++ t) = 3 + s.tag.longs.length := by
  rw [storedBytes, List.append_assoc, bkeyHeaderlen_bytes]

/-! The same where nothing lies behind the key. -/

theorem bkeyHeaderlen_stored :
    bkeyHeaderlen (storedBytes s) = 3 + s.tag.longs.length := by
  simpa using bkeyHeaderlen_storedBytes s []

theorem bkeyLoadindex_stored (h : s.index < 2 ^ 16) :
    bkeyLoadindex (storedBytes s) = s.index := by
  simpa using bkeyLoadindex_storedBytes s [] h

theorem bkeyGetvtplptr_stored : bkeyGetvtplptr (storedBytes s) = encVtpl s.rest := by
  simpa using bkeyGetvtplptr_storedBytes s []

theorem take_headerlen_stored :
    (storedBytes s).take (bkeyHeaderlen (storedBytes s)) = s.tag.bytes s.index := by
  simpa using take_headerlen_storedBytes s []

theorem dbeBkeyGetlength_stored (h : VtplFits s.rest) :
    dbeBkeyGetlength (storedBytes s) = (storedBytes s).length := by
  simpa using dbeBkeyGetlength_storedBytes s [] h

theorem bkeyStoreindex_header (h : BkeyHeader) (i j : ℕ) :
    bkeyStoreindex (h.bytes i) j = h.bytes j := by
  simpa using bkeyStoreindex_bytes [] h i j

end Reading

/-! ## Comparing laid out keys -/

def headerCompare (mode : DbeBkeyCmp) (h1 h2 : BkeyHeader) : ℤ :=
  match mode.fn with
  | some fn => fn (h1.bytes 0) (h2.bytes 0)
  | none => 0

theorem drop_bytes_append (h : BkeyHeader) (i n : ℕ) (t : List UInt8) :
    (h.bytes i ++ t).drop (3 + n) = (h.longs ++ t).drop n := by
  rw [← List.drop_drop]
  rfl

theorem uint4Load_append {c : List UInt8} (h : 4 ≤ c.length) (t : List UInt8) :
    uint4Load (c ++ t) = uint4Load c := by
  match c, h with
  | _ :: _ :: _ :: _ :: _, _ => rfl

theorem uint4Load_longs (h : BkeyHeader) (i n : ℕ) (t : List UInt8)
    (hn : n + 4 ≤ h.longs.length) :
    uint4Load ((h.bytes i ++ t).drop (3 + n)) = uint4Load (h.longs.drop n) := by
  rw [drop_bytes_append, List.drop_append_of_le_length (by omega),
    uint4Load_append (by rw [List.length_drop]; omega)]

theorem bkeyCompareHeaderGettrxid_bytes (h : BkeyHeader) (i : ℕ) (t : List UInt8) :
    bkeyCompareHeaderGettrxid (h.bytes i ++ t) =
      bkeyCompareHeaderGettrxid (h.bytes 0) := by
  have hlen := h.longs_length
  have hnil : h.bytes 0 = h.bytes 0 ++ [] := (List.append_nil _).symm
  have hleaf : bkeyIsleaf (h.bytes i ++ t) = bkeyIsleaf (h.bytes 0 ++ []) := rfl
  rw [hnil, bkeyCompareHeaderGettrxid, bkeyCompareHeaderGettrxid, hleaf,
    bkeyGetinfo_bytes, bkeyGetinfo_bytes]
  generalize nlongused h.info.toNat = n at hlen ⊢
  have hload (k : ℕ) (hk : k + 4 ≤ h.longs.length) :
      uint4Load ((h.bytes i ++ t).drop (3 + k)) =
        uint4Load ((h.bytes 0 ++ []).drop (3 + k)) :=
    (uint4Load_longs h i k t hk).trans (uint4Load_longs h 0 k [] hk).symm
  by_cases hl : bkeyIsleaf (h.bytes 0 ++ []) = true
  · rw [if_pos hl, if_pos hl]
    match n, hlen with
    | 0, _ => rfl
    | 1, hlen => exact hload 0 (by omega)
    | 2, hlen => exact hload 4 (by omega)
    | _ + 3, _ => rfl
  · rw [if_neg hl, if_neg hl]
    match n, hlen with
    | 0, _ => rfl
    | 1, _ => rfl
    | 2, hlen => exact hload 4 (by omega)
    | _ + 3, _ => rfl

theorem fn_bytes (mode : DbeBkeyCmp) (h1 h2 : BkeyHeader) (i j : ℕ)
    (t u : List UInt8) :
    (match mode.fn with
      | some fn => fn (h1.bytes i ++ t) (h2.bytes j ++ u)
      | none => 0) = headerCompare mode h1 h2 := by
  cases mode with
  | vtpl => rfl
  | all =>
      simp only [DbeBkeyCmp.fn, headerCompare, dbeBkeyCompareHeader,
        bkeyCompareHeaderGettrxid_bytes]
      rfl
  | delete => rfl

def headerTie (mode : DbeBkeyCmp) (h h' : BkeyHeader) : Ordering :=
  signOf (headerCompare mode h h')

theorem signOf_dbeBkeyCompareMode (mode : DbeBkeyCmp) (k e : Key) :
    signOf (dbeBkeyCompareMode mode k.bytes e.bytes) =
      fullCompare (headerTie mode k.header) k.vtpl e.entry := by
  have hk := k.netlen_lt
  have he := e.netlen_lt
  unfold bkeyMaxlen at hk he
  have hcmp := signOf_vtplCompare k.vtpl_ne e.vtpl_ne (by omega) (by omega) [] []
  rw [List.append_nil, List.append_nil] at hcmp
  have hkptr := bkeyGetvtplptr_stored ⟨0, k.vtpl, k.header⟩
  have heptr := bkeyGetvtplptr_stored ⟨0, e.vtpl, e.header⟩
  simp only [dbeBkeyCompareMode, Key.bytes, hkptr, heptr]
  split
  · rename_i hzero
    rw [hzero, signOf_zero] at hcmp
    have hfn := fn_bytes mode k.header e.header 0 0 (encVtpl k.vtpl)
      (encVtpl e.vtpl)
    simp only [storedBytes, fullCompare, Key.entry, ← hcmp]
    rw [hfn]
    rfl
  · rename_i hne
    have hne' : tupleCompare k.vtpl e.vtpl ≠ .eq := by
      rw [← hcmp, Ne, signOf_eq_eq_iff]
      exact hne
    rw [hcmp]
    simp only [fullCompare, Key.entry]
    cases h : tupleCompare k.vtpl e.vtpl with
    | lt => rfl
    | eq => exact absurd h hne'
    | gt => rfl

end SolidDB
