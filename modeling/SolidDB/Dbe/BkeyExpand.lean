import SolidDB.Dbe.Bkey

/-!
# Compressing and expanding keys

`dbe_bkey_compress` and `dbe_bkey_expand`. An expansion into the buffer of the
full key is done by `vtpl_expand` when the two headers have the same length. When
they do not, the key is first expanded into a block from the heap, whose size
`dbe_dynbkey_expand` computes from the mismatch index and the compressed length.
That size is too small for one kind of key, `AllocsizeShort`.
-/

namespace SolidDB

open FrontCoding Memory

/-! ## The operations -/

/-- `dbe_bkey_compress`; the index is stored as a two-byte number. -/
def dbeBkeyCompress (pk nk : List UInt8) : List UInt8 :=
  let (index, vtpl) := vtplCompress (bkeyGetvtplptr pk) (bkeyGetvtplptr nk)
  bkeyStoreindex (nk.take (bkeyHeaderlen nk) ++ vtpl) index

/-- `dbe_bkey_expand` with a target buffer of its own. -/
def dbeBkeyExpand (fk ck : List UInt8) : Option (List UInt8) :=
  let header := bkeyStoreindex (ck.take (bkeyHeaderlen ck)) 0
  (vtplExpand (bkeyGetvtplptr fk) (bkeyGetvtplptr ck) (bkeyLoadindex ck)).map
    fun vtpl => header ++ vtpl

/-- The size of the block that `dbe_dynbkey_expand` allocates. -/
def dynbkeyAllocsize (ck : List UInt8) : ℕ :=
  bkeyMaxheaderlen + 2 * bkeyLoadindex ck + 5 + (vaGetdata (bkeyGetvtplptr ck)).2

/-- `dbe_dynbkey_expand`. It fails where the expanded key is longer than the
block it is written to, which is the error its debug code checks for. -/
def dbeDynbkeyExpand (fk ck : List UInt8) : Option (List UInt8) :=
  (dbeBkeyExpand fk ck).bind fun dyntk =>
    if dynbkeyAllocsize ck < dyntk.length then none else some dyntk

/-- `dbe_bkey_expand` where the target is the buffer of the full key. -/
def dbeBkeyExpandSelf (fk ck : List UInt8) : Option (List UInt8) :=
  if bkeyHeaderlen fk ≠ bkeyHeaderlen ck then dbeDynbkeyExpand fk ck
  else dbeBkeyExpand fk ck

/-- The same in memory, where the buffer stands at `tk` in a memory area of `size` bytes. -/
def dbeBkeyExpandInplace (m : Mem UInt8) (tk size : ℕ) (ck : List UInt8) :
    Option (Mem UInt8) :=
  let fk := read m tk size
  if bkeyHeaderlen fk ≠ bkeyHeaderlen ck then
    (dbeDynbkeyExpand fk ck).map fun dyntk =>
      write m tk (dyntk.take (dbeBkeyGetlength dyntk))
  else
    let m := write m tk (bkeyStoreindex (ck.take (bkeyHeaderlen ck)) 0)
    vtplExpandInplace m (tk + bkeyHeaderlen ck) (size - bkeyHeaderlen ck)
      (bkeyGetvtplptr ck) (bkeyLoadindex ck)

/-! ## On well-formed keys -/

/-- A key as it is stored after the tuple `p`. -/
def Key.stored (k : Key) (p : Fields) : StoredKey := store p k.entry

theorem Key.tupleMismatch_lt (k : Key) (p : Fields) :
    tupleMismatch p k.vtpl < (tupleSyms k.vtpl).length :=
  tupleMismatch_lt_length p k.vtpl_ne

theorem Key.storedFits (k : Key) (p : Fields) : StoredFits (k.stored p) := by
  have hlt := k.tupleMismatch_lt p
  have hmax := k.length_tupleSyms_lt
  refine ⟨?_, k.vtplFits.residual hlt⟩
  change tupleMismatch p k.vtpl < 2 ^ 16
  unfold bkeyMaxlen at hmax
  omega

@[simp] theorem Key.stored_tag (k : Key) (p : Fields) :
    (k.stored p).tag = k.header := rfl

@[simp] theorem Key.stored_index (k : Key) (p : Fields) :
    (k.stored p).index = tupleMismatch p k.vtpl := rfl

theorem Key.bkeyHeaderlen (k : Key) :
    bkeyHeaderlen k.bytes = 3 + k.header.longs.length :=
  bkeyHeaderlen_stored _

theorem Key.dbeBkeyGetlength (k : Key) : dbeBkeyGetlength k.bytes = k.bytes.length :=
  dbeBkeyGetlength_stored _ k.vtplFits

theorem Key.bytes_eq (k : Key) : k.bytes = k.header.bytes 0 ++ encVtpl k.vtpl := rfl

theorem Key.bkeyGetvtplptr (k : Key) (t : List UInt8) :
    bkeyGetvtplptr (k.bytes ++ t) = encVtpl k.vtpl ++ t :=
  bkeyGetvtplptr_storedBytes _ t

theorem dbeBkeyCompress_bytes (p k : Key) (r s : List UInt8) :
    dbeBkeyCompress (p.bytes ++ r) (k.bytes ++ s) =
      storedBytes (k.stored p.vtpl) := by
  have htake := take_headerlen_storedBytes ⟨0, k.vtpl, k.header⟩ s
  rw [dbeBkeyCompress, vtplCompress, p.bkeyGetvtplptr, k.bkeyGetvtplptr,
    utiCompress_encVtpl p.vtplFits k.vtplFits]
  simp only [Key.bytes, htake]
  rw [bkeyStoreindex_bytes]
  rfl

theorem dbeBkeyExpand_storedBytes {p : Fields} {h : BkeyHeader} {s : StoredKey}
    (hp : VtplFits p) (hs : StoredFits s) (hi : s.index ≤ (tupleSyms p).length)
    (j : ℕ) (t u : List UInt8) :
    dbeBkeyExpand (storedBytes ⟨j, p, h⟩ ++ t) (storedBytes s ++ u) =
      some (storedBytes ⟨0, rejoin p s.index s.rest, s.tag⟩) := by
  have hstore := bkeyStoreindex_bytes [] s.tag s.index 0
  rw [List.append_nil, List.append_nil] at hstore
  rw [dbeBkeyExpand, bkeyGetvtplptr_storedBytes, bkeyGetvtplptr_storedBytes,
    bkeyLoadindex_storedBytes _ _ hs.index_lt, take_headerlen_storedBytes,
    vtplExpand_encVtpl hp hs.rest_fits hi, hstore]
  rfl

/-- A key is expanded back after the key it was compressed against. -/
theorem dbeBkeyExpand_stored (p k : Key) (t u : List UInt8) :
    dbeBkeyExpand (p.bytes ++ t) (storedBytes (k.stored p.vtpl) ++ u) =
      some k.bytes := by
  have hi := tupleMismatch_le_left p.vtpl k.vtpl
  have hexp := dbeBkeyExpand_storedBytes (h := p.header) (s := k.stored p.vtpl)
    p.vtplFits (k.storedFits p.vtpl) hi 0 t u
  have hre : rejoin p.vtpl (k.stored p.vtpl).index (k.stored p.vtpl).rest =
      k.vtpl := rejoin_residual k.vtpl_ne (le_refl _)
  rw [hre] at hexp
  exact hexp

/-! ## The size of the block -/

/-- The keys for which the allocated block is too short: the full header, a
mismatch within the first three symbols and a field of 254 bytes or more that
the compression leaves shorter than that. -/
def AllocsizeShort (p n : Key) : Prop :=
  bkeyHeaderlen n.bytes = bkeyMaxheaderlen ∧ tupleMismatch p.vtpl n.vtpl ≤ 3 ∧
    0xFE ≤ (fieldAt n.vtpl (tupleMismatch p.vtpl n.vtpl)).length ∧
    ((FrontCoding.residual n.vtpl (tupleMismatch p.vtpl n.vtpl)).headD []).length < 0xFE

instance (p n : Key) : Decidable (AllocsizeShort p n) :=
  inferInstanceAs (Decidable (_ ∧ _))

theorem vaLenLen_of_lt {l : ℕ} (h : l < 0xFE) : vaLenLen l = 1 := by
  rw [vaLenLen, if_pos ((byteLenTest_iff l).mpr h)]

theorem vaLenLen_of_ge {l : ℕ} (h : 0xFE ≤ l) : vaLenLen l = 5 := by
  rw [vaLenLen, if_neg]
  rw [byteLenTest_iff]
  omega

theorem netlen_residual_bounds {v : Fields} {i : ℕ}
    (hi : i < (tupleSyms v).length) :
    ((FrontCoding.residual v i).headD []).length ≤ (fieldAt v i).length ∧
      (fieldAt v i).length ≤ netlen v ∧
      netlen v + vaLenLen ((FrontCoding.residual v i).headD []).length + min i 4 ≤
        netlen (FrontCoding.residual v i) + 2 * i + vaLenLen (fieldAt v i).length ∧
      (i ≤ 3 →
        netlen v + vaLenLen ((FrontCoding.residual v i).headD []).length + i =
          netlen (FrontCoding.residual v i) + 2 * i + vaLenLen (fieldAt v i).length) := by
  induction v generalizing i with
  | nil => simp at hi
  | cons f v ih =>
      by_cases hle : i ≤ f.length
      · rw [residual_cons_of_le hle, fieldAt, if_pos hle, List.headD_cons,
          netlen_cons, netlen_cons, List.length_drop]
        omega
      · obtain ⟨j, rfl⟩ : ∃ j, i = f.length + 1 + j :=
          ⟨i - f.length - 1, by omega⟩
        have hj : j < (tupleSyms v).length := by
          rw [tupleSyms_cons, List.length_append, length_fieldSyms] at hi
          omega
        have hsub : f.length + 1 + j - f.length - 1 = j := by omega
        obtain ⟨h1, h2, h3, h4⟩ := ih hj
        rw [residual_cons_succ, fieldAt, if_neg hle, hsub, netlen_cons]
        refine ⟨h1, by omega, ?_, ?_⟩
        · rcases Nat.lt_or_ge f.length 0xFE with hf | hf
          · rw [vaLenLen_of_lt hf]
            omega
          · rw [vaLenLen_of_ge hf]
            omega
        · intro hi3
          rw [vaLenLen_of_lt (by omega : f.length < 0xFE)]
          have := h4 (by omega)
          omega

theorem headerlen_le (h : BkeyHeader) :
    h.longs.length = 0 ∨ h.longs.length = 4 ∨ h.longs.length = 8 := by
  have h1 := h.longs_length
  have h2 := h.nlong_ne
  have h3 : nlongused h.info.toNat ≤ 3 := Nat.and_le_right
  omega

theorem dynbkeyAllocsize_lt_iff (p n : Key) :
    dynbkeyAllocsize (storedBytes (n.stored p.vtpl)) < n.bytes.length ↔
      AllocsizeShort p n := by
  have hfits := n.storedFits p.vtpl
  have hlt := n.tupleMismatch_lt p.vtpl
  obtain ⟨h1, h2, h3, h4⟩ := netlen_residual_bounds hlt
  have hnet : (vaGetdata (encVtpl (n.stored p.vtpl).rest)).2 =
      netlen (FrontCoding.residual n.vtpl (tupleMismatch p.vtpl n.vtpl)) := by
    have := vaGetdata_encVa (f := encFields (n.stored p.vtpl).rest)
      hfits.rest_fits.netlen_lt []
    rw [List.append_nil] at this
    rw [encVtpl, this]
    rfl
  have hlen : n.bytes.length = 3 + n.header.longs.length +
      (vaLenLen (netlen n.vtpl) + netlen n.vtpl) := by
    rw [Key.bytes, length_storedBytes, length_encVtpl]
  rw [dynbkeyAllocsize, bkeyLoadindex_stored _ hfits.index_lt,
    bkeyGetvtplptr_stored, hnet, AllocsizeShort, n.bkeyHeaderlen, hlen,
    Key.stored_index]
  unfold bkeyMaxheaderlen
  have hlongs := headerlen_le n.header
  rcases Nat.lt_or_ge (fieldAt n.vtpl (tupleMismatch p.vtpl n.vtpl)).length 0xFE
    with hF | hF
  · rw [vaLenLen_of_lt hF, vaLenLen_of_lt (by omega)] at h3
    have := vaLenLen_le (netlen n.vtpl)
    omega
  · rw [vaLenLen_of_ge hF] at h3 h4
    rw [vaLenLen_of_ge (by omega)]
    rcases Nat.lt_or_ge
      ((FrontCoding.residual n.vtpl (tupleMismatch p.vtpl n.vtpl)).headD []).length 0xFE
      with hG | hG
    · rw [vaLenLen_of_lt hG] at h3 h4
      omega
    · rw [vaLenLen_of_ge hG] at h3
      omega

theorem dynbkeyAllocsize_append {s : StoredKey} (h : StoredFits s) (t : List UInt8) :
    dynbkeyAllocsize (storedBytes s ++ t) = dynbkeyAllocsize (storedBytes s) := by
  have hdata := vaGetdata_encVa (f := encFields s.rest) h.rest_fits.netlen_lt
  have hnil := hdata []
  rw [List.append_nil] at hnil
  rw [dynbkeyAllocsize, dynbkeyAllocsize, bkeyLoadindex_storedBytes _ _ h.index_lt,
    bkeyLoadindex_stored _ h.index_lt, bkeyGetvtplptr_storedBytes, bkeyGetvtplptr_stored,
    encVtpl, hdata, hnil]

theorem dbeDynbkeyExpand_storedBytes (p n : Key) (t : List UInt8) :
    dbeDynbkeyExpand p.bytes (storedBytes (n.stored p.vtpl) ++ t) =
      if AllocsizeShort p n then none else some n.bytes := by
  have hexp := dbeBkeyExpand_stored p n [] t
  rw [List.append_nil] at hexp
  rw [dbeDynbkeyExpand, hexp, Option.bind_some, dynbkeyAllocsize_append (n.storedFits _)]
  exact if_congr (dynbkeyAllocsize_lt_iff p n) rfl rfl

theorem dbeDynbkeyExpand_stored {p n : Key} (h : ¬ AllocsizeShort p n) :
    dbeDynbkeyExpand p.bytes (storedBytes (n.stored p.vtpl)) = some n.bytes := by
  have hexp := dbeDynbkeyExpand_storedBytes p n []
  rwa [List.append_nil, if_neg h] at hexp

/-! ## In the buffer of the full key -/

def ExpandsSelf (p n : Key) : Prop :=
  bkeyHeaderlen p.bytes = bkeyHeaderlen n.bytes ∨ ¬ AllocsizeShort p n

instance (p n : Key) : Decidable (ExpandsSelf p n) :=
  inferInstanceAs (Decidable (_ ∨ _))

theorem dbeBkeyExpandSelf_iff (p n : Key) (t : List UInt8) :
    dbeBkeyExpandSelf p.bytes (storedBytes (n.stored p.vtpl) ++ t) = some n.bytes ↔
      ExpandsSelf p n := by
  have hck : bkeyHeaderlen (storedBytes (n.stored p.vtpl) ++ t) = bkeyHeaderlen n.bytes := by
    rw [n.bkeyHeaderlen]
    exact bkeyHeaderlen_storedBytes _ _
  have hexp := dbeBkeyExpand_stored p n [] t
  rw [List.append_nil] at hexp
  rw [dbeBkeyExpandSelf, hck, ExpandsSelf]
  by_cases hlen : bkeyHeaderlen p.bytes = bkeyHeaderlen n.bytes
  · rw [if_neg (not_not.mpr hlen)]
    exact iff_of_true hexp (Or.inl hlen)
  · rw [if_pos hlen, dbeDynbkeyExpand_storedBytes]
    by_cases hshort : AllocsizeShort p n <;> simp [hlen, hshort]

theorem dbeBkeyExpandSelf_stored {p n : Key} (h : ExpandsSelf p n) :
    dbeBkeyExpandSelf p.bytes (storedBytes (n.stored p.vtpl)) = some n.bytes := by
  have hexp := (dbeBkeyExpandSelf_iff p n []).mpr h
  rwa [List.append_nil] at hexp

/-- `dbe_bkey_expand` turns the buffer that holds `p` into one that holds `n`
and leaves the memory behind it alone. -/
def ExpandsInplace (p n : Key) : Prop :=
  ∀ (m : Mem UInt8) (tk size : ℕ), Holds m tk p.bytes →
    p.bytes.length ≤ size → n.bytes.length ≤ size →
    ∃ m', dbeBkeyExpandInplace m tk size (dbeBkeyCompress p.bytes n.bytes) =
        some m' ∧
      Holds m' tk n.bytes ∧
      ∀ x, x < tk ∨ tk + n.bytes.length ≤ x → m' x = m x

/-- With headers of one length the v-tuple is expanded where it stands. -/
theorem dbeBkeyExpandInplace_of_eq {m : Mem UInt8} {tk size : ℕ} {p n : Key}
    (hm : Holds m tk p.bytes) (hp : p.bytes.length ≤ size)
    (hlen : bkeyHeaderlen p.bytes = bkeyHeaderlen n.bytes) :
    ∃ m', dbeBkeyExpandInplace m tk size (storedBytes (n.stored p.vtpl)) =
        some m' ∧
      Holds m' tk n.bytes ∧
      ∀ x, x < tk ∨ tk + n.bytes.length ≤ x → m' x = m x := by
  have hfits := n.storedFits p.vtpl
  have hread := hm.read_add_eq hp
  have hsh := bkeyHeaderlen_stored (n.stored p.vtpl)
  have hlen' := hlen
  rw [p.bkeyHeaderlen, n.bkeyHeaderlen] at hlen'
  have hpl : p.bytes.length = 3 + n.header.longs.length + (encVtpl p.vtpl).length := by
    rw [p.bytes_eq, List.length_append, BkeyHeader.length_bytes]
    omega
  have hnl : n.bytes.length = 3 + n.header.longs.length + (encVtpl n.vtpl).length := by
    rw [n.bytes_eq, List.length_append, BkeyHeader.length_bytes]
  have hfk : bkeyHeaderlen (p.bytes ++
      read m (tk + p.bytes.length) (size - p.bytes.length)) =
        bkeyHeaderlen (storedBytes (n.stored p.vtpl)) := by
    rw [hsh, Key.stored_tag, ← hlen']
    exact bkeyHeaderlen_storedBytes _ _
  rw [dbeBkeyExpandInplace, hread, hfk, if_neg (fun h => h rfl),
    take_headerlen_stored, bkeyStoreindex_header, bkeyGetvtplptr_stored,
    bkeyLoadindex_stored _ hfits.index_lt, hsh, Key.stored_tag]
  -- the v-tuple of the full key is still there behind the new header
  have hm' := hm
  rw [p.bytes_eq, holds_append, BkeyHeader.length_bytes, hlen'] at hm'
  have hv : Holds (write m tk (n.header.bytes 0))
      (tk + (3 + n.header.longs.length)) (encVtpl p.vtpl) :=
    hm'.2.write (Or.inr (by rw [BkeyHeader.length_bytes]))
  obtain ⟨m', heq, hout, hframe⟩ := vtplExpandInplace_encVtpl p.vtplFits
    hfits.rest_fits (tupleMismatch_le_left p.vtpl n.vtpl) hv
    (size - (3 + n.header.longs.length)) (by omega) []
  rw [List.append_nil] at heq
  have hre : rejoin p.vtpl (tupleMismatch p.vtpl n.vtpl) (n.stored p.vtpl).rest =
      n.vtpl := rejoin_residual n.vtpl_ne (le_refl _)
  rw [hre] at hout hframe
  refine ⟨m', heq, ?_, ?_⟩
  · rw [n.bytes_eq, holds_append, BkeyHeader.length_bytes]
    refine ⟨?_, hout⟩
    apply (holds_write m tk (n.header.bytes 0)).congr
    intro x _ hx
    rw [BkeyHeader.length_bytes] at hx
    exact hframe x (Or.inl hx)
  · intro x hx
    rw [hframe x (by omega)]
    apply write_frame (b := tk) (n := n.bytes.length) (le_refl tk) _ hx
    rw [BkeyHeader.length_bytes]
    omega

/-- With headers of different lengths the key takes the way over a block from
the heap. -/
theorem dbeBkeyExpandInplace_of_ne {m : Mem UInt8} {tk size : ℕ} {p n : Key}
    (hm : Holds m tk p.bytes) (hp : p.bytes.length ≤ size)
    (hlen : bkeyHeaderlen p.bytes ≠ bkeyHeaderlen n.bytes) :
    dbeBkeyExpandInplace m tk size (storedBytes (n.stored p.vtpl)) =
      if AllocsizeShort p n then none else some (write m tk n.bytes) := by
  have hread := hm.read_add_eq hp
  have hexp := dbeBkeyExpand_stored p n
    (read m (tk + p.bytes.length) (size - p.bytes.length)) []
  rw [List.append_nil] at hexp
  have hfk : bkeyHeaderlen (p.bytes ++
      read m (tk + p.bytes.length) (size - p.bytes.length)) =
        bkeyHeaderlen p.bytes := by
    rw [p.bkeyHeaderlen]
    exact bkeyHeaderlen_storedBytes _ _
  have hck : bkeyHeaderlen (storedBytes (n.stored p.vtpl)) = bkeyHeaderlen n.bytes := by
    rw [n.bkeyHeaderlen]
    exact bkeyHeaderlen_stored _
  rw [dbeBkeyExpandInplace, hread, hfk, hck, if_pos hlen, dbeDynbkeyExpand, hexp,
    Option.bind_some]
  by_cases hshort : AllocsizeShort p n
  · rw [if_pos ((dynbkeyAllocsize_lt_iff p n).mpr hshort), if_pos hshort]
    rfl
  · rw [if_neg (fun h => hshort ((dynbkeyAllocsize_lt_iff p n).mp h)),
      if_neg hshort, Option.map_some]
    rw [n.dbeBkeyGetlength, List.take_length]

theorem dbeBkeyCompress_eq (p n : Key) :
    dbeBkeyCompress p.bytes n.bytes = storedBytes (n.stored p.vtpl) := by
  have := dbeBkeyCompress_bytes p n [] []
  rwa [List.append_nil, List.append_nil] at this

/-- Compression is undone by expansion into another buffer for all v-tuples,
and in the buffer of the previous key unless the headers differ in length and
the block from the heap is too short. -/
theorem compress_expand_iff (p n : Key) :
    (∀ prev next : Fields, VtplFits prev → VtplFits next →
      vtplExpand (encVtpl prev) (vtplCompress (encVtpl prev) (encVtpl next)).2
        (vtplCompress (encVtpl prev) (encVtpl next)).1 = some (encVtpl next)) ∧
    (ExpandsInplace p n ↔
      bkeyHeaderlen p.bytes = bkeyHeaderlen n.bytes ∨ ¬ AllocsizeShort p n) := by
  refine ⟨fun prev next hprev hnext => ?_, ?_⟩
  · have hlt := tupleMismatch_lt_length prev hnext.1
    have hc := utiCompress_encVtpl hprev hnext [] []
    have hx := vtplExpand_encVtpl hprev (hnext.residual hlt)
      (tupleMismatch_le_left prev next) [] []
    rw [List.append_nil, List.append_nil] at hc hx
    rw [rejoin_residual hnext.1 (le_refl _)] at hx
    rw [vtplCompress, hc]
    exact hx
  · constructor
    · intro h
      by_contra hcon
      push Not at hcon
      obtain ⟨m', heq, -, -⟩ := h (write (fun _ => 0) 0 p.bytes) 0
        (max p.bytes.length n.bytes.length) (holds_write _ _ _)
        (le_max_left _ _) (le_max_right _ _)
      rw [dbeBkeyCompress_eq, dbeBkeyExpandInplace_of_ne (holds_write _ _ _)
        (le_max_left _ _) hcon.1, if_pos hcon.2] at heq
      simp at heq
    · intro h m tk size hm hp _
      rw [dbeBkeyCompress_eq]
      by_cases hlen : bkeyHeaderlen p.bytes = bkeyHeaderlen n.bytes
      · exact dbeBkeyExpandInplace_of_eq hm hp hlen
      · rw [dbeBkeyExpandInplace_of_ne hm hp hlen,
          if_neg (h.resolve_left hlen)]
        exact ⟨_, rfl, holds_write _ _ _, fun x hx =>
          write_frame (le_refl tk) (le_refl _) hx⟩

/-- A field of 254 bytes that shares its first byte with the previous key,
whose header has one number less. -/
def overflowPrev : Key where
  header := ⟨1, [0, 0, 0, 0], rfl, by decide, by decide, by decide⟩
  vtpl := [[1]]
  vtpl_ne := by decide
  length_lt := by decide

def overflowNext : Key where
  header := ⟨2, [0, 0, 0, 0, 0, 0, 0, 0], rfl, by decide, by decide, by decide⟩
  vtpl := [1 :: List.replicate 253 2]
  vtpl_ne := by decide
  length_lt := by decide +kernel

/-- The expanded key has 275 bytes, the block it is written to 272. -/
theorem compress_expand_overflow : ¬ ExpandsInplace overflowPrev overflowNext := by
  intro h
  obtain ⟨m', heq, -, -⟩ := h (write (fun _ => 0) 0 overflowPrev.bytes) 0 300
    (holds_write _ _ _) (by decide) (by decide +kernel)
  have hshort : AllocsizeShort overflowPrev overflowNext := by decide +kernel
  rw [dbeBkeyCompress_eq, dbeBkeyExpandInplace_of_ne (holds_write _ _ _)
    (by decide) (by decide), if_pos hshort] at heq
  simp at heq

end SolidDB
