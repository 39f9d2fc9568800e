import SolidDB.Dbe.BnodeStores

/-!
# The split key of a node

`bnode_split_findsplitkey` splits a node at one of its keys, the one at an absolute index or
the least of a range, and makes the separator that goes to the level above. In a leaf the
separator has only as much of the v-tuple as it needs.
-/

namespace SolidDB

open FrontCoding

/-! ## The operations -/

structure BnodeKeypos where
  kpPos : ℕ
  kpLen : ℕ

structure SplitChoice where
  splitKeyMinlen : ℕ
  splitKeyDistance : ℕ
  splitIndex : ℕ
  splitPos : ℕ

section

variable (keypos : ℕ → BnodeKeypos) (optimalSplitPos : ℕ)

/-- The key `i` as the split key. -/
def splitChoiceAt (i : ℕ) : SplitChoice where
  splitKeyMinlen := (keypos i).kpLen
  splitKeyDistance :=
    if (keypos i).kpPos < optimalSplitPos then optimalSplitPos - (keypos i).kpPos
    else (keypos i).kpPos - optimalSplitPos
  splitIndex := i
  splitPos := (keypos i).kpPos

def splitChoiceStep (c : SplitChoice) (i : ℕ) : SplitChoice :=
  let ci := splitChoiceAt keypos optimalSplitPos i
  if ci.splitKeyMinlen < c.splitKeyMinlen then ci
  else if ci.splitKeyMinlen = c.splitKeyMinlen ∧ ci.splitKeyDistance < c.splitKeyDistance then ci
  else c

def splitChoice (rangeStart rangeEnd : ℕ) : SplitChoice :=
  (List.range' (rangeStart + 1) (rangeEnd - rangeStart)).foldl
    (splitChoiceStep keypos optimalSplitPos) (splitChoiceAt keypos optimalSplitPos rangeStart)

end

/-- The next key: it is expanded against the full key `k` of the one at `keys`, into a buffer of
its own. -/
def bnodeExpandnext (n : Bnode) (k : List UInt8) (keys : ℕ) : Option (List UInt8 × ℕ) :=
  let keys := keys + dbeBkeyGetlength (n.key keys)
  (dbeBkeyExpand k (n.key keys)).map fun k => (k, keys)

/-- The loop over the keys before the split key, each expanded into the buffer of the one
before. -/
def bnodeExpandto (n : Bnode) : ℕ → List UInt8 → ℕ → Option (List UInt8 × ℕ)
  | 0, prevK, keys => some (prevK, keys)
  | i + 1, prevK, keys => do
      let keys := keys + dbeBkeyGetlength (n.key keys)
      let prevK ← dbeBkeyExpandSelf prevK (n.key keys)
      bnodeExpandto n i prevK keys

/-- The separator in a leaf, between the full key `prevK` and the one at `keys`, which is `splitK`
in full. -/
def bnodeLeafSplitkey (keybuf prevK splitK keys : List UInt8) (splitpurge : Bool) :
    Option (List UInt8) :=
  if dbeBkeyEqualVtpl prevK splitK then dbeBkeyInitsplit keybuf splitK
  else (dbeBkeyFindsplit keybuf prevK keys).map fun nsK =>
    if splitpurge then dbeBkeySetdeletemark nsK else nsK

/-- What `bnode_split_findsplitkey` gives: the separator and its level, the full split key, and
the offset, the position and the index of the split key in the node. -/
structure BnodeSplitkey where
  nsK : List UInt8
  nsLevel : ℕ
  splitK : List UInt8
  keys : ℕ
  splitPos : ℕ
  splitIndex : ℕ

/-- `bnode_split_findsplitkey`. `keybuf` is the buffer of the separator, `splitpurge` is
`dbe_cfg_splitpurge`. -/
def bnodeSplitFindsplitkey (n : Bnode) (keybuf : List UInt8) (splitpurge : Bool)
    (keypos : ℕ → BnodeKeypos) (absoluteSplit : Bool)
    (rangeStart rangeEnd optimalSplitPos splitIndex : ℕ) : Option BnodeSplitkey := do
  let c := if absoluteSplit then splitChoiceAt keypos optimalSplitPos splitIndex
    else splitChoice keypos optimalSplitPos rangeStart rangeEnd
  let (prevK, keys) ← bnodeExpandto n (c.splitIndex - 1) (dbeBkeyCopy (n.key 0)) 0
  let (splitK, keys) ← bnodeExpandnext n prevK keys
  if n.nLevel = 0 then
    if dbeBkeyEqualVtpl prevK splitK && (c.splitIndex < n.nCount - 1 && !absoluteSplit) then do
      -- the next key is tried, it becomes the split key even if it is equal, too
      let (nextK, keys) ← bnodeExpandnext n splitK keys
      let nsK ← bnodeLeafSplitkey keybuf splitK nextK (n.key keys) splitpurge
      some ⟨nsK, n.nLevel + 1, nextK, keys, keys, c.splitIndex + 1⟩
    else do
      let nsK ← bnodeLeafSplitkey keybuf prevK splitK (n.key keys) splitpurge
      some ⟨nsK, n.nLevel + 1, splitK, keys, c.splitPos, c.splitIndex⟩
  else do
    let nsK ← dbeBkeyInitsplit keybuf splitK
    some ⟨nsK, n.nLevel + 1, splitK, keys, c.splitPos, c.splitIndex⟩

/-! ## The choice of the key -/

variable {keypos : ℕ → BnodeKeypos} {optimalSplitPos rangeStart rangeEnd i : ℕ}

/-- A shorter key is better, and of those of one length the nearer. -/
def SplitChoice.cost (c : SplitChoice) : ℕ ×ₗ ℕ := toLex (c.splitKeyMinlen, c.splitKeyDistance)

def SplitChoice.Best (keypos : ℕ → BnodeKeypos) (optimalSplitPos a b : ℕ) (c : SplitChoice) :
    Prop :=
  c = splitChoiceAt keypos optimalSplitPos c.splitIndex ∧ a ≤ c.splitIndex ∧ c.splitIndex < b ∧
    ∀ i, a ≤ i → i < b → c.cost ≤ (splitChoiceAt keypos optimalSplitPos i).cost

theorem splitChoiceStep_eq (c : SplitChoice) (i : ℕ) :
    splitChoiceStep keypos optimalSplitPos c i =
      if (splitChoiceAt keypos optimalSplitPos i).cost < c.cost
      then splitChoiceAt keypos optimalSplitPos i else c := by
  simp only [splitChoiceStep, SplitChoice.cost, Prod.Lex.toLex_lt_toLex]
  split_ifs <;> tauto

theorem SplitChoice.Best.step {a b : ℕ} {c : SplitChoice}
    (h : c.Best keypos optimalSplitPos a b) :
    (splitChoiceStep keypos optimalSplitPos c b).Best keypos optimalSplitPos a (b + 1) := by
  obtain ⟨heq, hstart, hend, hbest⟩ := h
  rw [splitChoiceStep_eq]
  split
  · rename_i hlt
    refine ⟨rfl, hstart.trans hend.le, Nat.lt_succ_self b, fun i hi hib => ?_⟩
    rcases Nat.lt_succ_iff_lt_or_eq.mp hib with hlt' | rfl
    · exact hlt.le.trans (hbest i hi hlt')
    · exact le_rfl
  · rename_i hnlt
    refine ⟨heq, hstart, hend.trans (Nat.lt_succ_self b), fun i hi hib => ?_⟩
    rcases Nat.lt_succ_iff_lt_or_eq.mp hib with hlt' | rfl
    · exact hbest i hi hlt'
    · exact not_lt.mp hnlt

theorem splitChoice_best (h : rangeStart ≤ rangeEnd) :
    (splitChoice keypos optimalSplitPos rangeStart rangeEnd).Best keypos optimalSplitPos
      rangeStart (rangeEnd + 1) := by
  obtain ⟨n, rfl⟩ := Nat.exists_eq_add_of_le h
  rw [splitChoice, Nat.add_sub_cancel_left]
  induction n with
  | zero =>
      refine ⟨rfl, le_rfl, Nat.lt_succ_self _, fun i hi hib => ?_⟩
      obtain rfl : i = rangeStart := by omega
      exact le_rfl
  | succ n ih =>
      have hstep := (ih (Nat.le_add_right ..)).step
      rw [List.range'_concat, List.foldl_append]
      have hlast : rangeStart + 1 + 1 * n = rangeStart + n + 1 := by omega
      rw [hlast]
      exact hstep

/-! ## The separator and its neighbours -/

variable {base : ℕ} {g : BkeyHeader} {f : Bool → BkeyHeader} {ks : List (KeyIn base)}
  {p x : KeyIn base}

theorem SplitHeaders.rank (hf : SplitHeaders g f) (d : Bool) :
    (f d).rank base = toLex (if d then 0 else 1, trxidRank base g.trxid) := by
  rw [BkeyHeader.rank, hf.deletemark_eq, hf.trxid_eq]

theorem SplitHeaders.rank_true_le (hf : SplitHeaders g f) :
    (f true).rank base ≤ g.rank base := by
  rw [hf.rank, BkeyHeader.rank]
  cases g.deletemark with
  | false => exact (Prod.Lex.toLex_lt_toLex.mpr (Or.inl Nat.zero_lt_one)).le
  | true => exact le_rfl

theorem SplitHeaders.inWindow (hf : SplitHeaders g f) (hg : g.InWindow base) (d : Bool) :
    (f d).InWindow base := by
  rw [BkeyHeader.InWindow, hf.trxid_eq]
  exact hg

/-- What the buffer holds behind the separator is not compared. -/
theorem signOf_compare_buffer (q e : KeyIn base) (t : List UInt8) :
    signOf (dbeBkeyCompare q.1.bytes (e.1.bytes ++ t)) = cmp q.rank e.rank := by
  rw [signOf_dbeBkeyCompare_append, ← signOf_dbeBkeyCompareMode]
  exact signOf_dbeBkeyCompare q.2 e.2

def IsSeparator (p x : KeyIn base) (k : List UInt8) : Prop :=
  ∃ e : KeyIn base, ∃ t, k = e.1.bytes ++ t ∧ p.rank < e.rank ∧ e.rank ≤ x.rank

theorem SplitHeaders.isSeparator (hf : SplitHeaders x.1.header f) (d : Bool) {v : Fields}
    (hv : v ≠ []) (hlen : bkeyMaxheaderlen + (encVtpl v).length < bkeyMaxlen)
    (hlt : p.rank < toLex (v, (f d).rank base)) (hle : toLex (v, (f d).rank base) ≤ x.rank)
    (t : List UInt8) : IsSeparator p x ((f d).bytes 0 ++ encVtpl v ++ t) := by
  have hlongs := hf.longs_le d
  unfold bkeyMaxheaderlen at hlen
  exact ⟨⟨⟨f d, v, hv, by omega⟩, hf.inWindow x.2 d⟩, t, rfl, hlt, hle⟩

/-- `dbe_bkey_initsplit` gives a key that compares like the split key. -/
theorem dbeBkeyInitsplit_isSeparator (hpx : p.rank < x.rank)
    (hlen : bkeyMaxheaderlen + (encVtpl x.1.vtpl).length < bkeyMaxlen) (keybuf : List UInt8) :
    ∃ k, dbeBkeyInitsplit keybuf x.1.bytes = some k ∧ IsSeparator p x k := by
  obtain ⟨f, heq, hf⟩ := bkeyInitsplitHeader_splits keybuf x.1.header 0 (encVtpl x.1.vtpl)
  have hrank : toLex (x.1.vtpl, (f x.1.header.deletemark).rank base) = x.rank := by
    rw [hf.rank]
    rfl
  have hptr : bkeyGetvtplptr x.1.bytes = encVtpl x.1.vtpl := bkeyGetvtplptr_stored _
  have hgross := vtplGrosslen_encVtpl x.1.vtplFits.netlen_lt []
  rw [List.append_nil] at hgross
  refine ⟨overwrite keybuf ((f x.1.header.deletemark).bytes 0 ++ encVtpl x.1.vtpl), ?_,
    hf.isSeparator _ x.1.vtpl_ne hlen (hrank ▸ hpx) hrank.le _⟩
  change (bkeyInitsplitHeader keybuf (x.1.header.bytes 0 ++ encVtpl x.1.vtpl)).map _ = _
  rw [heq, hptr, hgross, List.take_length]
  rfl

/-- `dbe_bkey_findsplit` gives a key between, also with the delete mark. -/
theorem dbeBkeyFindsplit_isSeparator (hvtpl : p.1.vtpl < x.1.vtpl)
    (hlen : bkeyMaxheaderlen + (encVtpl x.1.vtpl).length < bkeyMaxlen) (keybuf t : List UInt8) :
    ∃ k, dbeBkeyFindsplit keybuf p.1.bytes (storedBytes (x.1.stored p.1.vtpl) ++ t) = some k ∧
      IsSeparator p x k ∧ IsSeparator p x (dbeBkeySetdeletemark k) := by
  have hfits := x.1.storedFits p.1.vtpl
  obtain ⟨f, heq, hf⟩ := bkeyInitsplitHeader_splits keybuf x.1.header (x.1.stored p.1.vtpl).index
    (encVtpl (x.1.stored p.1.vtpl).rest ++ t)
  have hne : tupleBetween p.1.vtpl x.1.vtpl ≠ [] := fun hnil => by
    have hlt := lt_tupleBetween hvtpl
    rw [hnil] at hlt
    exact absurd hlt (List.not_lt_nil _)
  have hbetween : (encVtpl (tupleBetween p.1.vtpl x.1.vtpl)).length ≤
      (encVtpl x.1.vtpl).length := by
    have hnet := netlen_tupleBetween_le (p := p.1.vtpl) x.1.vtpl_ne
    have hmono := vaLenLen_mono hnet
    rw [length_encVtpl, length_encVtpl]
    omega
  have hsep (d : Bool) (hd : (f d).rank base ≤ x.1.header.rank base) (r : List UInt8) :
      IsSeparator p x ((f d).bytes 0 ++ encVtpl (tupleBetween p.1.vtpl x.1.vtpl) ++ r) := by
    refine hf.isSeparator d hne (by omega) ?_ ?_ r
    · exact Prod.Lex.toLex_lt_toLex.mpr (Or.inl (lt_tupleBetween hvtpl))
    · rcases (tupleBetween_le hvtpl).lt_or_eq with hlt | heq'
      · exact (Prod.Lex.toLex_lt_toLex.mpr (Or.inl hlt)).le
      · exact Prod.Lex.toLex_le_toLex.mpr (Or.inr ⟨heq', hd⟩)
  refine ⟨overwrite keybuf ((f x.1.header.deletemark).bytes 0 ++
    encVtpl (tupleBetween p.1.vtpl x.1.vtpl)), ?_, hsep _ (hf.rank _).le _, ?_⟩
  · have hsplit := vtplFindSplit_residual p.1.vtplFits x.1.vtplFits hvtpl [] t
    rw [List.append_nil] at hsplit
    have hptr : bkeyGetvtplptr p.1.bytes = encVtpl p.1.vtpl := bkeyGetvtplptr_stored _
    rw [dbeBkeyFindsplit, hptr, bkeyGetvtplptr_storedBytes,
      bkeyLoadindex_storedBytes _ _ hfits.index_lt, storedBytes, List.append_assoc]
    change (bkeyInitsplitHeader keybuf (x.1.header.bytes _ ++ _)).bind _ = _
    rw [heq, Option.bind_some]
    change (vtplFindSplit _ (encVtpl (FrontCoding.residual x.1.vtpl
      (tupleMismatch p.1.vtpl x.1.vtpl)) ++ t) (tupleMismatch p.1.vtpl x.1.vtpl)).map _ = _
    rw [hsplit]
    rfl
  · rw [overwrite, List.append_assoc, hf.setDeletemark, ← List.append_assoc]
    exact hsep true hf.rank_true_le _

theorem dbeBkeyEqualVtpl_iff (p x : Key) :
    dbeBkeyEqualVtpl p.bytes x.bytes = true ↔ p.vtpl = x.vtpl := by
  have hequal := vtplEqual_encVtpl p.vtplFits x.vtplFits [] []
  rw [List.append_nil, List.append_nil] at hequal
  have hpptr : bkeyGetvtplptr p.bytes = encVtpl p.vtpl := bkeyGetvtplptr_stored _
  have hxptr : bkeyGetvtplptr x.bytes = encVtpl x.vtpl := bkeyGetvtplptr_stored _
  rw [dbeBkeyEqualVtpl, hpptr, hxptr, hequal]
  refine ⟨fun heq => ?_, congrArg encVtpl⟩
  have hp := p.netlen_lt
  have hx := x.netlen_lt
  unfold bkeyMaxlen at hp hx
  have hcmp := signOf_vtplCompare p.vtpl_ne x.vtpl_ne (by omega) (by omega) [] []
  rw [heq, signOf_vtplCompare x.vtpl_ne x.vtpl_ne (by omega) (by omega), tupleCompare_self] at hcmp
  rcases lt_trichotomy p.vtpl x.vtpl with hlt | heq' | hgt
  · rw [tupleCompare_of_lt hlt] at hcmp
    cases hcmp
  · exact heq'
  · rw [tupleCompare_of_gt hgt] at hcmp
    cases hcmp

theorem bnodeLeafSplitkey_isSeparator (hpx : p.rank < x.rank)
    (hlen : bkeyMaxheaderlen + (encVtpl x.1.vtpl).length < bkeyMaxlen) (keybuf t : List UInt8)
    (splitpurge : Bool) :
    ∃ k, bnodeLeafSplitkey keybuf p.1.bytes x.1.bytes (storedBytes (x.1.stored p.1.vtpl) ++ t)
      splitpurge = some k ∧ IsSeparator p x k := by
  rw [bnodeLeafSplitkey]
  by_cases heq : p.1.vtpl = x.1.vtpl
  · rw [if_pos ((dbeBkeyEqualVtpl_iff _ _).mpr heq)]
    exact dbeBkeyInitsplit_isSeparator hpx hlen keybuf
  · obtain ⟨k, hk, hsep, hmarked⟩ := dbeBkeyFindsplit_isSeparator
      (lt_of_le_of_ne (Key.vtpl_le_of_rank_le hpx.le) heq) hlen keybuf t
    rw [if_neg (mt (dbeBkeyEqualVtpl_iff _ _).mp heq), hk]
    cases splitpurge with
    | false => exact ⟨k, rfl, hsep⟩
    | true => exact ⟨_, rfl, hmarked⟩

def Separates (ks : List (KeyIn base)) (i : ℕ) (k : List UInt8) : Prop :=
  (∀ y ∈ ks.take i, dbeBkeyCompare y.1.bytes k < 0) ∧
    ∀ y ∈ ks.drop i, 0 ≤ dbeBkeyCompare y.1.bytes k

theorem IsSeparator.separates (hord : Ordered ks) (hp : ks[i]? = some p)
    (hx : ks[i + 1]? = some x) {k : List UInt8} (hk : IsSeparator p x k) :
    Separates ks (i + 1) k := by
  obtain ⟨e, t, rfl, hpe, hex⟩ := hk
  obtain ⟨hi, rfl⟩ := List.getElem?_eq_some_iff.mp hp
  obtain ⟨hi', rfl⟩ := List.getElem?_eq_some_iff.mp hx
  have hle {a b : ℕ} (ha : a < ks.length) (hb : b < ks.length) (hab : a ≤ b) :
      ks[a].rank ≤ ks[b].rank := by
    rcases hab.lt_or_eq with hlt | rfl
    · exact (List.pairwise_iff_getElem.mp hord a b ha hb hlt).le
    · exact le_rfl
  constructor
  · intro y hy
    obtain ⟨j, hj, rfl⟩ := List.mem_take_iff_getElem.mp hy
    rw [← signOf_eq_lt_iff, signOf_compare_buffer, cmp_eq_lt_iff]
    exact (hle (by omega) hi (by omega)).trans_lt hpe
  · intro y hy
    obtain ⟨j, hj, rfl⟩ := List.mem_drop_iff_getElem.mp hy
    rw [← not_lt, ← signOf_eq_lt_iff, signOf_compare_buffer, cmp_eq_lt_iff, not_lt]
    exact hex.trans (hle hi' (by omega) (Nat.le_add_right ..))

/-! ## The node -/

section

variable {n : Bnode} {r : Record}

def plainRecords (ks : List (KeyIn base)) : List Record :=
  layOut 0 (frontCode [] ((ks.map Subtype.val).map Key.entry))

/-- Each key before the one at the index `i` expands in the buffer of the one before it. -/
def ExpandsSelfTo (ks : List (KeyIn base)) (i : ℕ) : Prop :=
  (ks.take i).IsChain fun p x => ExpandsSelf p.1 x.1

instance (ks : List (KeyIn base)) (i : ℕ) : Decidable (ExpandsSelfTo ks i) :=
  inferInstanceAs (Decidable (List.IsChain _ _))

theorem ExpandsSelfTo.mono {i j : ℕ} (h : ExpandsSelfTo ks j) (hij : i ≤ j) :
    ExpandsSelfTo ks i := by
  rw [ExpandsSelfTo, ← Nat.min_eq_left hij, ← List.take_take]
  exact h.take i

theorem ExpandsSelfTo.expandsSelf {j : ℕ} (h : ExpandsSelfTo ks j) (hp : ks[i]? = some p)
    (hx : ks[i + 1]? = some x) (hj : i + 1 < j) : ExpandsSelf p.1 x.1 := by
  obtain ⟨hi, rfl⟩ := List.getElem?_eq_some_iff.mp hp
  obtain ⟨hi', rfl⟩ := List.getElem?_eq_some_iff.mp hx
  have hlen : i + 1 < (ks.take j).length := by rw [List.length_take]; omega
  have hpair := List.isChain_iff_getElem.mp h i hlen
  rwa [List.getElem_take, List.getElem_take] at hpair

/-- The node is split at one of its keys, with a separator for the level above. -/
structure SplitsAt (n : Bnode) (ks : List (KeyIn base)) (s : BnodeSplitkey) : Prop where
  index_pos : 0 < s.splitIndex
  splitK_eq : ∃ x, ks[s.splitIndex]? = some x ∧ s.splitK = x.1.bytes
  keys_eq : ∃ r, (plainRecords ks)[s.splitIndex]? = some r ∧ s.keys = r.offset ∧
    s.splitPos = r.offset
  nsLevel_eq : s.nsLevel = n.nLevel + 1
  separates : Separates ks s.splitIndex s.nsK

theorem IsSeparator.splitsAt (hord : Ordered ks) (hp : ks[i]? = some p) (hx : ks[i + 1]? = some x)
    (hr : (plainRecords ks)[i + 1]? = some r) {k : List UInt8} (hk : IsSeparator p x k)
    {splitPos splitIndex : ℕ} (hpos : splitPos = r.offset) (hindex : splitIndex = i + 1) :
    SplitsAt n ks ⟨k, n.nLevel + 1, x.1.bytes, r.offset, splitPos, splitIndex⟩ := by
  subst hpos hindex
  exact ⟨Nat.succ_pos i, ⟨x, hx, rfl⟩, ⟨r, hr, rfl, rfl⟩, rfl, hk.separates hord hp hx⟩

variable (h : n.Plain (frontCode [] ((ks.map Subtype.val).map Key.entry))) (hord : Ordered ks)

include h hord

theorem plainRecords_storesKeys :
    n.StoresKeys (plainRecords ks) (ks.map Subtype.val) where
  stores := Or.inl (by
    rw [plainRecords, map_key_layOut]
    exact ⟨h, rfl⟩)
  keys := by
    rw [plainRecords, map_key_layOut]
    exact storesAll_frontCode [] _
  ascending := hord.ascending

/-- The next key is found, and the pointer to it reads it as it is stored. -/
theorem nextkey_plain (hp : ks[i]? = some p) (hr : (plainRecords ks)[i]? = some r)
    (hx : ks[i + 1]? = some x) :
    ∃ r' t, (plainRecords ks)[i + 1]? = some r' ∧
      r.offset + dbeBkeyGetlength (n.key r.offset) = r'.offset ∧
      n.key r'.offset = storedBytes (x.1.stored p.1.vtpl) ++ t := by
  have hstores := plainRecords_storesKeys h hord
  have hx' : (ks.map Subtype.val)[i + 1]? = some x.1 := by
    rw [List.getElem?_map, hx, Option.map_some]
  obtain ⟨r', hr', -, t, ht⟩ := hstores.getElem? hx'
  have hnext := hstores.stores.nextkey hr hr'
  rw [bnodeNextkey, h.mismatcharray_eq, if_neg Bool.false_ne_true] at hnext
  have hrecord := recordsOf_succ hp hx
  rw [recordsOf, compressKeys_map, ← map_key_layOut 0 (frontCode _ _), ← plainRecords,
    List.getElem?_map, List.getElem?_map, hr', Option.map_some, Option.map_some,
    Option.some_inj] at hrecord
  exact ⟨r', t, hr', hnext, by rw [ht, hrecord]⟩

theorem bnodeExpandnext_spec (hp : ks[i]? = some p) (hr : (plainRecords ks)[i]? = some r)
    (hi : i + 1 < ks.length) :
    ∃ x r' t, ks[i + 1]? = some x ∧ (plainRecords ks)[i + 1]? = some r' ∧
      bnodeExpandnext n p.1.bytes r.offset = some (x.1.bytes, r'.offset) ∧
      n.key r'.offset = storedBytes (x.1.stored p.1.vtpl) ++ t := by
  have hx := List.getElem?_eq_getElem hi
  obtain ⟨r', t, hr', hnext, hkey⟩ := nextkey_plain h hord hp hr hx
  have hexp := dbeBkeyExpand_stored p.1 ks[i + 1].1 [] t
  rw [List.append_nil] at hexp
  refine ⟨_, r', t, hx, hr', ?_, hkey⟩
  rw [bnodeExpandnext, hnext, hkey]
  rw [hexp, Option.map_some]

theorem bnodeExpandto_spec (m : ℕ) (hp : ks[i]? = some p) (hr : (plainRecords ks)[i]? = some r)
    (hi : i + m < ks.length) (hself : ExpandsSelfTo ks (i + m + 1)) :
    ∃ x r', ks[i + m]? = some x ∧ (plainRecords ks)[i + m]? = some r' ∧
      bnodeExpandto n m p.1.bytes r.offset = some (x.1.bytes, r'.offset) := by
  induction m generalizing i p r with
  | zero => exact ⟨p, r, hp, hr, rfl⟩
  | succ m ih =>
      have hx := List.getElem?_eq_getElem (by omega : i + 1 < ks.length)
      obtain ⟨r', t, hr', hnext, hkey⟩ := nextkey_plain h hord hp hr hx
      have hexp := (dbeBkeyExpandSelf_iff p.1 _ t).mpr (hself.expandsSelf hp hx (by omega))
      have hsum : i + (m + 1) = i + 1 + m := by omega
      rw [hsum] at hself ⊢
      obtain ⟨y, r'', hy, hr'', hto⟩ := ih hx hr' (by omega) hself
      refine ⟨y, r'', hy, hr'', ?_⟩
      rw [bnodeExpandto, hnext, hkey, hexp]
      exact hto

/-- The loop finds the key before the one at an index, and the next key is the one at it. -/
theorem bnodeExpandto_first (hi : i + 1 < ks.length) (hself : ExpandsSelfTo ks (i + 1)) :
    ∃ p x keys r t, ks[i]? = some p ∧ ks[i + 1]? = some x ∧ (plainRecords ks)[i + 1]? = some r ∧
      bnodeExpandto n i (dbeBkeyCopy (n.key 0)) 0 = some (p.1.bytes, keys) ∧
      bnodeExpandnext n p.1.bytes keys = some (x.1.bytes, r.offset) ∧
      n.key r.offset = storedBytes (x.1.stored p.1.vtpl) ++ t := by
  have hstores := plainRecords_storesKeys h hord
  have hzero := (Nat.succ_pos i).trans hi
  have hfirst := List.getElem?_eq_getElem hzero
  obtain ⟨r₀, hr₀⟩ : ∃ r, (plainRecords ks)[0]? = some r := by
    refine ⟨_, List.getElem?_eq_getElem ?_⟩
    rw [hstores.length_eq, List.length_map]
    exact hzero
  have hcopy := hstores.copy_first hr₀ (by rw [List.getElem?_map, hfirst, Option.map_some])
  rw [offset_layOut_zero 0 hr₀] at hcopy
  obtain ⟨p, r, hp, hr, hto⟩ := bnodeExpandto_spec h hord i hfirst hr₀ (by omega)
    (by rwa [Nat.zero_add])
  rw [Nat.zero_add] at hp hr
  rw [offset_layOut_zero 0 hr₀, ← hcopy] at hto
  obtain ⟨x, r', t, hx, hr', hnext, hkey⟩ := bnodeExpandnext_spec h hord hp hr hi
  exact ⟨p, x, _, r', t, hp, hx, hr', hto, hnext, hkey⟩

/-- A node is split at the absolute index, or at a best key of the range, or in a leaf at the one
behind it, and the separator is behind the keys before the split key and not behind the others.
The keys before the split key have to expand in place. -/
theorem bnodeSplitFindsplitkey_separates
    (hlen : ∀ k ∈ ks, bkeyMaxheaderlen + (encVtpl k.1.vtpl).length < bkeyMaxlen)
    (hpos : ∀ (i : ℕ) r, (plainRecords ks)[i]? = some r → (keypos i).kpPos = r.offset)
    (keybuf : List UInt8) (splitpurge absoluteSplit : Bool)
    (rangeStart rangeEnd optimalSplitPos splitIndex : ℕ)
    (hrange : if absoluteSplit then 0 < splitIndex ∧ splitIndex < ks.length
      else 0 < rangeStart ∧ rangeStart ≤ rangeEnd ∧ rangeEnd < ks.length)
    (hself : ExpandsSelfTo ks (if absoluteSplit then splitIndex else rangeEnd)) :
    ∃ s, ∃ c : SplitChoice, bnodeSplitFindsplitkey n keybuf splitpurge keypos absoluteSplit
        rangeStart rangeEnd optimalSplitPos splitIndex = some s ∧ SplitsAt n ks s ∧
      (if absoluteSplit then c.splitIndex = splitIndex
        else c.Best keypos optimalSplitPos rangeStart (rangeEnd + 1)) ∧
      (s.splitIndex = c.splitIndex ∨ (absoluteSplit = false ∧ n.nLevel = 0 ∧
        (ks[c.splitIndex - 1]?.map fun k => k.1.vtpl) = ks[c.splitIndex]?.map fun k => k.1.vtpl) ∧
        s.splitIndex = c.splitIndex + 1) := by
  obtain ⟨c, hc, hat, hzero, hlt, hself', hchosen⟩ : ∃ c, (if absoluteSplit then
      splitChoiceAt keypos optimalSplitPos splitIndex
      else splitChoice keypos optimalSplitPos rangeStart rangeEnd) = c ∧
      c = splitChoiceAt keypos optimalSplitPos c.splitIndex ∧ 0 < c.splitIndex ∧
      c.splitIndex < ks.length ∧ ExpandsSelfTo ks c.splitIndex ∧
      (if absoluteSplit then c.splitIndex = splitIndex
        else c.Best keypos optimalSplitPos rangeStart (rangeEnd + 1)) := by
    cases absoluteSplit with
    | true => exact ⟨_, rfl, rfl, hrange.1, hrange.2, hself, rfl⟩
    | false =>
        have hbest := @splitChoice_best keypos optimalSplitPos _ _ hrange.2.1
        have hend := Nat.le_of_lt_succ hbest.2.2.1
        exact ⟨_, rfl, hbest.1, hrange.1.trans_le hbest.2.1, hend.trans_lt hrange.2.2,
          hself.mono hend, hbest⟩
  have hcount : n.nCount = ks.length := by
    rw [(plainRecords_storesKeys h hord).nCount_eq, List.length_map]
  have hless {i : ℕ} {p x : KeyIn base} (hp : ks[i]? = some p) (hx : ks[i + 1]? = some x) :
      p.rank < x.rank := by
    obtain ⟨hi, rfl⟩ := List.getElem?_eq_some_iff.mp hp
    obtain ⟨hi', rfl⟩ := List.getElem?_eq_some_iff.mp hx
    exact List.pairwise_iff_getElem.mp hord i (i + 1) hi hi' (Nat.lt_succ_self i)
  have hlen' {i : ℕ} {x : KeyIn base} (hx : ks[i]? = some x) := hlen x (List.mem_of_getElem? hx)
  obtain ⟨i, hi⟩ : ∃ i, c.splitIndex = i + 1 := Nat.exists_eq_succ_of_ne_zero hzero.ne'
  obtain ⟨p, x, _, r', t, hp, hx, hr', hto, hnext, hkey⟩ :=
    bnodeExpandto_first h hord (lt_of_eq_of_lt hi.symm hlt) (hi ▸ hself')
  have hsplitPos : c.splitPos = r'.offset := by
    rw [hat, ← hpos _ _ hr', ← hi]
    rfl
  rw [bnodeSplitFindsplitkey]
  simp only [hc, hi, Nat.add_sub_cancel, hto, hnext, Option.bind_eq_bind, Option.bind_some]
  by_cases hlevel : n.nLevel = 0
  · rw [if_pos hlevel]
    split
    · rename_i hmoves
      rw [Bool.and_eq_true, Bool.and_eq_true, decide_eq_true_iff, Bool.not_eq_true', hcount]
        at hmoves
      obtain ⟨hequal, hroom, habsolute⟩ := hmoves
      obtain ⟨y, r'', u, hy, hr'', hnext', hkey'⟩ := bnodeExpandnext_spec h hord hx hr' (by omega)
      obtain ⟨k, hk, hsep⟩ := bnodeLeafSplitkey_isSeparator (hless hx hy) (hlen' hy) keybuf u
        splitpurge
      rw [← hkey'] at hk
      simp only [hnext', hk, Option.bind_some]
      refine ⟨_, c, rfl, hsep.splitsAt hord hx hy hr'' rfl rfl, hchosen,
        Or.inr ⟨⟨habsolute, hlevel, ?_⟩, by rw [hi]⟩⟩
      rw [hi, Nat.add_sub_cancel, hp, hx]
      exact congrArg some ((dbeBkeyEqualVtpl_iff _ _).mp hequal)
    · obtain ⟨k, hk, hsep⟩ := bnodeLeafSplitkey_isSeparator (hless hp hx) (hlen' hx) keybuf t
        splitpurge
      rw [← hkey] at hk
      simp only [hk, Option.bind_some]
      exact ⟨_, c, rfl, hsep.splitsAt hord hp hx hr' hsplitPos rfl, hchosen, Or.inl hi.symm⟩
  · obtain ⟨k, hk, hsep⟩ := dbeBkeyInitsplit_isSeparator (hless hp hx) (hlen' hx) keybuf
    rw [if_neg hlevel]
    simp only [hk, Option.bind_some]
    exact ⟨_, c, rfl, hsep.splitsAt hord hp hx hr' hsplitPos rfl, hchosen, Or.inl hi.symm⟩

end

/-- A leaf with a column that is added, and two keys with equal v-tuples. -/
theorem bnodeSplitFindsplitkey_separates_leaf :
    ∃ n : Bnode, ∃ ks : List (KeyIn 0), ∃ keypos s, ks.length = 3 ∧
      bnodeSplitFindsplitkey n [] true keypos false 1 2 0 0 = some s ∧ SplitsAt n ks s := by
  obtain ⟨ks, hcount, hord, hlen, hself, hroom⟩ : ∃ ks : List (KeyIn 0), ks.length = 3 ∧
      Ordered ks ∧ (∀ k ∈ ks, bkeyMaxheaderlen + (encVtpl k.1.vtpl).length < bkeyMaxlen) ∧
      ExpandsSelfTo ks 2 ∧ bnodeHeaderlen + (plainNode 128 0 (ks.map Subtype.val)).nLen ≤ 128 := by
    refine ⟨[⟨leafKey 1 5 [[1]] (by decide) (by decide), by decide⟩,
      ⟨leafKey 1 5 [[1], [4]] (by decide) (by decide), by decide⟩,
      ⟨leafKey 1 6 [[1], [4]] (by decide) (by decide), by decide⟩], rfl, ?_, by decide,
      by decide, by decide⟩
    simp only [Ordered, List.pairwise_cons, List.forall_mem_cons, ← KeyIn.compare_neg_iff]
    decide
  obtain ⟨s, -, hs, hsplits, -⟩ := @bnodeSplitFindsplitkey_separates
    (fun i => ⟨((plainRecords ks)[i]?.map Record.offset).getD 0, 1⟩) 0 ks _
    (plainNode_plain 0 hroom) hord hlen (fun i r hr => by rw [hr]; rfl) [] true false 1 2 0 0
    ⟨by decide, by decide, by omega⟩ hself
  exact ⟨_, ks, _, s, hcount, hs, hsplits⟩

end SolidDB
