import SolidDB.Dbe.BkeySearch
import SolidDB.Foundation.StoredSearch

/-!
# Local recompression

`dbe_bkey_search_compress`, `dbe_bkey_recompress_insert` and
`dbe_bkey_reexpand_delete`. When a key is inserted into a compressed sequence only
it and its successor are compressed anew, the successor against the compressed
new key; when a key is deleted only its successor is expanded, by as much as the
deleted key gives.

Deletion is always exact. Insertion is exact except behind a key with the same
v-tuple and before one whose v-tuple goes on with an empty field and more
(`ExtendsByEmpty`): there the new index of the successor counts the empty field
against the end of the new key, and the successor cannot be expanded any more.
All this holds of every sequence of stored keys that expands to the keys, not only of
the one that front coding gives.
-/

namespace SolidDB

open FrontCoding

/-! ## The operations -/

def dbeBkeySearchCompress (ks : DbeBkeySearch) : List UInt8 :=
  let (index, vtpl) := vtplSearchCompress ks.ksSs
  bkeyStoreindex (ks.ksK.take (bkeyHeaderlen ks.ksK) ++ vtpl) index

def dbeBkeyCopy (sk : List UInt8) : List UInt8 := sk.take (dbeBkeyGetlength sk)

def dbeBkeyRecompressInsert (pk nk : List UInt8) : List UInt8 :=
  let pkIndex := bkeyLoadindex pk
  let nkIndex := bkeyLoadindex nk
  if pkIndex ≤ nkIndex then
    let (index, vtpl) := vtplCompress (bkeyGetvtplptr pk) (bkeyGetvtplptr nk)
    bkeyStoreindex (nk.take (bkeyHeaderlen nk) ++ vtpl) (index + nkIndex)
  else dbeBkeyCopy nk

def dbeBkeyReexpandDelete (dk nk : List UInt8) : Option (List UInt8) :=
  let dkIndex := bkeyLoadindex dk
  let nkIndex := bkeyLoadindex nk
  if dkIndex < nkIndex then
    (vtplExpand (bkeyGetvtplptr dk) (bkeyGetvtplptr nk) (nkIndex - dkIndex)).map
      fun vtpl => bkeyStoreindex (nk.take (bkeyHeaderlen nk) ++ vtpl) dkIndex
  else some (dbeBkeyCopy nk)

def expandKeys : List (List UInt8) → Option (List (List UInt8))
  | [] => some []
  | ck :: cks => (expandAfter (dbeBkeyCopy ck) cks).map (dbeBkeyCopy ck :: ·)
where
  expandAfter : List UInt8 → List (List UInt8) → Option (List (List UInt8))
    | _, [] => some []
    | fk, ck :: cks =>
        (dbeBkeyExpand fk ck).bind fun k => (expandAfter k cks).map (k :: ·)

def searchPast (ks : DbeBkeySearch) (cks : List (List UInt8)) : DbeBkeySearch :=
  cks.foldl (fun ks ck => (dbeBkeySearchStep ks ck).2) ks

def insertCompressed (cks : List (List UInt8)) (k : List UInt8) (pos : ℕ) :
    List (List UInt8) :=
  let nk := dbeBkeySearchCompress
    (searchPast (dbeBkeySearchInit k .all) (cks.take pos))
  cks.take pos ++ nk :: match cks.drop pos with
    | [] => []
    | next :: rest => dbeBkeyRecompressInsert nk next :: rest

def deleteCompressed (cks : List (List UInt8)) (pos : ℕ) :
    Option (List (List UInt8)) :=
  match cks.drop pos with
  | dk :: next :: rest =>
      (dbeBkeyReexpandDelete dk next).map fun nk => cks.take pos ++ nk :: rest
  | _ => some (cks.take pos)

/-! ## Entries that expand to a key -/

/-- The stored key expands to `k` behind the tuple `p`. -/
structure StoresAs (p : Fields) (s : StoredKey) (k : Key) : Prop where
  index_le : s.index ≤ tupleMismatch p k.vtpl
  rest_eq : s.rest = FrontCoding.residual k.vtpl s.index
  tag_eq : s.tag = k.header

theorem Key.storesAs (k : Key) (p : Fields) : StoresAs p (k.stored p) k :=
  ⟨le_refl _, rfl, rfl⟩

theorem StoresAs.storedFits {p : Fields} {s : StoredKey} {k : Key}
    (h : StoresAs p s k) : StoredFits s := by
  have hlt := k.tupleMismatch_lt p
  have hmax := k.length_tupleSyms_lt
  have hle := h.index_le
  unfold bkeyMaxlen at hmax
  refine ⟨by omega, ?_⟩
  rw [h.rest_eq]
  exact k.vtplFits.residual (by omega)

theorem StoresAs.expand {p k : Key} {s : StoredKey} (h : StoresAs p.vtpl s k) :
    dbeBkeyExpand p.bytes (storedBytes s) = some k.bytes := by
  have hle := h.index_le.trans (tupleMismatch_le_left p.vtpl k.vtpl)
  have hexp := dbeBkeyExpand_storedBytes (h := p.header) p.vtplFits h.storedFits
    hle 0 [] []
  rw [List.append_nil, List.append_nil, h.rest_eq,
    rejoin_residual k.vtpl_ne h.index_le, h.tag_eq] at hexp
  exact hexp

/-- A sequence of stored keys that expands to the keys behind `p`. -/
def StoresAll (p : Fields) : List StoredKey → List Key → Prop
  | [], [] => True
  | s :: ss, k :: ks => StoresAs p s k ∧ StoresAll k.vtpl ss ks
  | _, _ => False

theorem storesAll_frontCode (p : Fields) (ks : List Key) :
    StoresAll p (frontCode p (ks.map Key.entry)) ks := by
  induction ks generalizing p with
  | nil => exact trivial
  | cons k ks ih => exact ⟨k.storesAs p, ih k.vtpl⟩

/-- The tuple of the last key, `p` where there is none. -/
def lastVtpl : Fields → List Key → Fields
  | p, [] => p
  | _, k :: ks => lastVtpl k.vtpl ks

@[simp] theorem lastVtpl_nil (p : Fields) : lastVtpl p [] = p := rfl

@[simp] theorem lastVtpl_cons (p : Fields) (k : Key) (ks : List Key) :
    lastVtpl p (k :: ks) = lastVtpl k.vtpl ks := rfl

theorem storesAll_append {p : Fields} {ss ss' : List StoredKey} {ks ks' : List Key}
    (h : StoresAll p ss ks) (h' : StoresAll (lastVtpl p ks) ss' ks') :
    StoresAll p (ss ++ ss') (ks ++ ks') := by
  induction ss generalizing p ks with
  | nil =>
      cases ks with
      | nil => exact h'
      | cons k ks => exact h.elim
  | cons s ss ih =>
      cases ks with
      | nil => exact h.elim
      | cons k ks =>
          rw [lastVtpl_cons] at h'
          exact ⟨h.1, ih h.2 h'⟩

theorem expandAfter_storesAll {p : Key} {ss : List StoredKey} {ks : List Key}
    (h : StoresAll p.vtpl ss ks) :
    expandKeys.expandAfter p.bytes (ss.map storedBytes) =
      some (ks.map Key.bytes) := by
  induction ss generalizing p ks with
  | nil =>
      cases ks with
      | nil => rfl
      | cons k ks => exact h.elim
  | cons s ss ih =>
      cases ks with
      | nil => exact h.elim
      | cons k ks =>
          rw [List.map_cons, expandKeys.expandAfter, h.1.expand, Option.bind_some,
            ih h.2]
          rfl

theorem dbeBkeyCopy_storedBytes {s : StoredKey} (hs : StoredFits s) :
    dbeBkeyCopy (storedBytes s) = storedBytes s := by
  rw [dbeBkeyCopy, dbeBkeyGetlength_stored s hs.rest_fits, List.take_length]

theorem StoresAs.eq_of_nil {s : StoredKey} {k : Key} (h : StoresAs [] s k) :
    storedBytes s = k.bytes := by
  have hle := h.index_le
  rw [tupleMismatch_nil_left] at hle
  have hzero : s.index = 0 := by omega
  have hrest := h.rest_eq
  rw [hzero, residual_zero] at hrest
  rw [Key.bytes, storedBytes, storedBytes, hzero, hrest, h.tag_eq]

theorem expandKeys_storesAll {ss : List StoredKey} {ks : List Key}
    (h : StoresAll [] ss ks) :
    expandKeys (ss.map storedBytes) = some (ks.map Key.bytes) := by
  cases ss with
  | nil =>
      cases ks with
      | nil => rfl
      | cons k ks => exact h.elim
  | cons s ss =>
      cases ks with
      | nil => exact h.elim
      | cons k ks =>
          rw [List.map_cons, expandKeys, dbeBkeyCopy_storedBytes h.1.storedFits,
            h.1.eq_of_nil, expandAfter_storesAll h.2]
          rfl

/-! ## Insertion -/

theorem dbeBkeySearchCompress_searchAt (k : Key) (mode : DbeBkeyCmp) (p : Fields) :
    dbeBkeySearchCompress (k.searchAt mode (tupleMismatch p k.vtpl)) =
      storedBytes (k.stored p) := by
  have hne := residual_ne_nil (k.tupleMismatch_lt p)
  have htake := take_headerlen_stored ⟨0, k.vtpl, k.header⟩
  have hcomp := vtplSearchCompress_moveTo ⟨0, 0, [], mode.fn, k.bytes⟩
    (tupleMismatch p k.vtpl) hne
  change (k.bytes.take (bkeyHeaderlen k.bytes)) = k.header.bytes 0 at htake
  rw [dbeBkeySearchCompress]
  change (let (index, vtpl) := vtplSearchCompress (SearchState.moveTo _ _ _)
    bkeyStoreindex (k.bytes.take (bkeyHeaderlen k.bytes) ++ vtpl) index) = _
  rw [hcomp, htake]
  exact bkeyStoreindex_bytes _ _ _ _

/-- Where the index of a stored key leads the search past it without a look at it, the key has
the mismatch with `k` that the key before it has. -/
def SearchFollows (k : Fields) : Fields → List StoredKey → List Key → Prop
  | p, s :: ss, e :: ks =>
      (s.index < tupleMismatch p k → tupleMismatch e.vtpl k = tupleMismatch p k) ∧
        SearchFollows k e.vtpl ss ks
  | _, _, _ => True

theorem step_snd_of_storesAs (k : Key) {p : Fields} {e : Key} {s : StoredKey}
    (hpk : p ≤ k.vtpl) (hpe : p ≤ e.vtpl) (hs : StoresAs p s e)
    (hgt : fullCompare (headerTie .all k.header) k.vtpl e.entry = .gt)
    (hf : s.index < tupleMismatch p k.vtpl →
      tupleMismatch e.vtpl k.vtpl = tupleMismatch p k.vtpl) :
    (step (headerTie .all k.header) k.vtpl (tupleMismatch p k.vtpl) s).2 =
      tupleMismatch e.vtpl k.vtpl := by
  by_cases hlt : s.index < tupleMismatch p k.vtpl
  · rw [step, if_pos hlt, hf hlt]
  · have hclear : ¬ MisleadingStored (headerTie .all k.header) k.vtpl p s e.entry := by
      rintro (⟨hi, -⟩ | ⟨-, hne⟩)
      · exact hlt hi
      · exact hne hgt
    have hstep := step_of_stores k.vtpl_ne hpk hpe ⟨hs.index_le, hs.rest_eq, hs.tag_eq⟩ hclear
    rw [hstep]
    simp only [plainStep, hgt, if_true]
    rfl

/-- The search state behind smaller keys points to the mismatch with the last of them. -/
theorem searchPast_stored (k : Key) {p : Fields} {ss : List StoredKey} {ks : List Key}
    (hs : StoresAll p ss ks) (hpk : p ≤ k.vtpl)
    (hchain : (p :: (ks.map Key.entry).map Entry.value).IsChain (· ≤ ·))
    (hlt : ∀ e ∈ ks, 0 < dbeBkeyCompare k.bytes e.bytes)
    (hf : SearchFollows k.vtpl p ss ks) :
    searchPast (k.searchAt .all (tupleMismatch p k.vtpl)) (ss.map storedBytes) =
      k.searchAt .all (tupleMismatch (lastVtpl p ks) k.vtpl) := by
  induction ks generalizing p ss with
  | nil =>
      cases ss with
      | nil => rfl
      | cons s ss => exact hs.elim
  | cons e ks ih =>
      cases ss with
      | nil => exact hs.elim
      | cons s ss =>
          rw [List.map_cons, List.map_cons, List.isChain_cons_cons] at hchain
          have hcmp := signOf_dbeBkeyCompareMode .all k e
          rw [← dbeBkeyCompare, signOf_of_pos (hlt e List.mem_cons_self)] at hcmp
          have hstep := dbeBkeySearchStep_searchAt k .all (k.tupleMismatch_lt p)
            hs.1.storedFits []
          rw [List.append_nil, step_snd_of_storesAs k hpk hchain.1 hs.1 hcmp.symm hf.1] at hstep
          rw [List.map_cons, searchPast, List.foldl_cons, hstep.2, lastVtpl_cons]
          exact ih hs.2 (le_of_fullCompare_eq_gt hcmp.symm) hchain.2
            (fun x hx => hlt x (List.mem_cons_of_mem e hx)) hf.2

/-- In front coding only an entry that repeats the one before it is passed without a look. -/
theorem searchFollows_frontCode (k : Key) {p : Fields} {ks : List Key} (hpk : p ≤ k.vtpl)
    (hchain : (p :: (ks.map Key.entry).map Entry.value).IsChain (· ≤ ·))
    (hlt : ∀ e ∈ ks, 0 < dbeBkeyCompare k.bytes e.bytes) :
    SearchFollows k.vtpl p (frontCode p (ks.map Key.entry)) ks := by
  induction ks generalizing p with
  | nil => exact trivial
  | cons e ks ih =>
      rw [List.map_cons, List.map_cons, List.isChain_cons_cons] at hchain
      have hcmp := signOf_dbeBkeyCompareMode .all k e
      rw [← dbeBkeyCompare, signOf_of_pos (hlt e List.mem_cons_self)] at hcmp
      have hle : e.vtpl ≤ k.vtpl := le_of_fullCompare_eq_gt hcmp.symm
      refine ⟨fun hi => ?_, ih hle hchain.2 fun x hx => hlt x (List.mem_cons_of_mem e hx)⟩
      by_cases hmis : Misleading k.vtpl p e.vtpl
      · rcases hmis with ⟨-, hpre, hne⟩ | ⟨rfl, -, -⟩
        · exact absurd (lt_of_le_of_ne (le_of_isPrefix hpre) hne) (not_lt.mpr hle)
        · rfl
      · have heq := step_store (headerTie .all k.header) k.vtpl_ne hpk hchain.1 hmis
        change step _ _ _ (e.stored p) = _ at heq
        rw [step, if_pos (show (e.stored p).index < _ from hi)] at heq
        exact Ordering.noConfusion ((congrArg Prod.fst heq).trans hcmp.symm)

/-- Behind `p` the tuple `n` goes on with an empty field and more where `k`
repeats `p`. -/
def ExtendsByEmpty (p k n : Fields) : Prop :=
  p = k ∧ ∃ w, w ≠ [] ∧ n = k ++ [] :: w

/-- Where the new key has the smaller index, the indexes add up. -/
theorem tupleMismatch_recompress {p k n : Fields} (hk : k ≠ []) (hn : n ≠ [])
    (hpk : p ≤ k) (hkn : k ≤ n) (hle : tupleMismatch p k ≤ tupleMismatch p n)
    (hext : ¬ ExtendsByEmpty p k n) :
    tupleMismatch (FrontCoding.residual k (tupleMismatch p k))
          (FrontCoding.residual n (tupleMismatch p n)) +
      tupleMismatch p n = tupleMismatch k n := by
  rcases hle.lt_or_eq with hlt | heq
  · have hsk := (tupleSyms_le_iff p k).mpr hpk
    have hsn := (tupleSyms_le_iff p n).mpr (hpk.trans hkn)
    rcases lt_of_mismatchIndex_lt hsk hsn hlt with hnk | ⟨hpk', hpre, hne⟩
    · exact absurd ((tupleSyms_lt_iff n k).mp hnk) (not_lt.mpr hkn)
    · have hpk'' := tupleSyms_injective hpk'
      subst hpk''
      obtain ⟨u, rfl⟩ := (tupleSyms_isPrefix_iff p n).mp hpre
      have hu : u ≠ [] := by
        rintro rfl
        simp at hne
      have hne' : p ≠ p ++ u := by simpa using hu
      obtain ⟨g, w, rfl⟩ := List.exists_cons_of_ne_nil hu
      rw [tupleMismatch_self, residual_length_sub_one hk,
        tupleMismatch_of_isPrefix (List.prefix_append p _) hne', residual_append,
        tupleMismatch_cons_cons]
      by_cases hg : [] = g
      · have hw : w = [] := by
          by_contra hw
          exact hext ⟨rfl, w, hw, by rw [hg]⟩
        rw [if_pos hg, if_pos hw, List.length_nil, Nat.zero_add]
      · rw [if_neg hg, commonPrefixLen_nil_left, Nat.zero_add]
  · have hck := tupleMismatch_le_commonPrefixLen p k
    have hcn := tupleMismatch_le_commonPrefixLen p n
    have hcpl := le_commonPrefixLen_trans hck (heq ▸ hcn)
    have hlt := tupleMismatch_lt_length p hn
    rw [← heq] at hlt ⊢
    rw [tupleMismatch_eq_add hcpl hlt, Nat.add_comm]

/-- The index counts the empty field, which lies behind the end of the new key. -/
theorem tupleMismatch_recompress_of_extendsByEmpty {p k n : Fields} (hk : k ≠ [])
    (hext : ExtendsByEmpty p k n) :
    tupleMismatch p k ≤ tupleMismatch p n ∧
      tupleMismatch (FrontCoding.residual k (tupleMismatch p k))
            (FrontCoding.residual n (tupleMismatch p n)) +
        tupleMismatch p n = (tupleSyms k).length + 1 := by
  obtain ⟨rfl, w, hw, rfl⟩ := hext
  have hne : p ≠ p ++ [] :: w := by simp
  rw [tupleMismatch_self, residual_length_sub_one hk,
    tupleMismatch_of_isPrefix (List.prefix_append p _) hne, residual_append,
    tupleMismatch_cons_cons, if_pos rfl, if_neg hw, tupleMismatch_nil_left]
  exact ⟨by omega, by rw [List.length_nil]; omega⟩

/-- Where the new key has the larger index, the successor keeps its own. -/
theorem tupleMismatch_eq_of_recompress_lt {p k n : Fields} (hpk : p ≤ k) (hkn : k ≤ n)
    (hlt : tupleMismatch p n < tupleMismatch p k) :
    tupleMismatch k n = tupleMismatch p n := by
  have hsk := (tupleSyms_le_iff p k).mpr hpk
  have hsn := (tupleSyms_le_iff p n).mpr (hpk.trans hkn)
  rcases (hpk.trans hkn).lt_or_eq with hpn | rfl
  · exact mismatchIndex_eq_of_lt ((tupleSyms_lt_iff p n).mpr hpn) hlt
  · have hpk' := le_antisymm hpk hkn
    rw [← hpk'] at hlt
    exact absurd hlt (lt_irrefl _)

theorem dbeBkeyRecompressInsert_stored {p : Fields} (k : Key) {s : StoredKey}
    (hs : StoredFits s) :
    dbeBkeyRecompressInsert (storedBytes (k.stored p)) (storedBytes s) =
      if tupleMismatch p k.vtpl ≤ s.index then
        storedBytes ⟨tupleMismatch (k.stored p).rest s.rest + s.index,
          FrontCoding.residual s.rest (tupleMismatch (k.stored p).rest s.rest), s.tag⟩
      else storedBytes s := by
  have hk := k.storedFits p
  have hcomp := utiCompress_encVtpl hk.rest_fits hs.rest_fits [] []
  rw [List.append_nil, List.append_nil] at hcomp
  rw [dbeBkeyRecompressInsert, bkeyLoadindex_stored _ hk.index_lt,
    bkeyLoadindex_stored _ hs.index_lt, bkeyGetvtplptr_stored, bkeyGetvtplptr_stored,
    vtplCompress, hcomp, take_headerlen_stored, dbeBkeyCopy_storedBytes hs]
  simp only [Key.stored_index, bkeyStoreindex_bytes]
  rfl

/-- The successor is stored as if it had been compressed against the new key. -/
theorem dbeBkeyRecompressInsert_eq {p : Fields} {k n : Key} (hpk : p ≤ k.vtpl)
    (hkn : k.vtpl ≤ n.vtpl) (hext : ¬ ExtendsByEmpty p k.vtpl n.vtpl) :
    dbeBkeyRecompressInsert (storedBytes (k.stored p)) (storedBytes (n.stored p)) =
      storedBytes (n.stored k.vtpl) := by
  rw [dbeBkeyRecompressInsert_stored k (n.storedFits p), Key.stored_index]
  split
  · rename_i hle
    have hsum := tupleMismatch_recompress k.vtpl_ne n.vtpl_ne hpk hkn hle hext
    have hres := residual_residual (j := tupleMismatch (k.stored p).rest
      (n.stored p).rest) (n.tupleMismatch_lt p)
    change tupleMismatch (k.stored p).rest (n.stored p).rest + _ = _ at hsum
    change FrontCoding.residual (n.stored p).rest _ = _ at hres
    rw [hres, Nat.add_comm (tupleMismatch p n.vtpl), hsum]
    rfl
  · rename_i hlt
    have heq := tupleMismatch_eq_of_recompress_lt hpk hkn (by omega)
    rw [Key.stored, Key.stored, store, store]
    change storedBytes ⟨tupleMismatch p n.vtpl, FrontCoding.residual n.vtpl
      (tupleMismatch p n.vtpl), n.header⟩ = storedBytes ⟨tupleMismatch k.vtpl n.vtpl,
        FrontCoding.residual n.vtpl (tupleMismatch k.vtpl n.vtpl), n.header⟩
    rw [heq]

theorem le_tupleMismatch {p n : Fields} {i : ℕ}
    (hcpl : i ≤ commonPrefixLen (tupleSyms p) (tupleSyms n))
    (hlt : i < (tupleSyms n).length) : i ≤ tupleMismatch p n := by
  rw [tupleMismatch_eq_add hcpl hlt]
  exact Nat.le_add_right _ _

theorem StoresAs.eq_stored {p : Fields} {s : StoredKey} {k : Key} (h : StoresAs p s k)
    (hi : s.index = tupleMismatch p k.vtpl) : s = k.stored p := by
  have hrest := h.rest_eq
  rw [hi] at hrest
  cases s
  exact congr (congr (congrArg Stored.mk hi) hrest) h.tag_eq

/-- A successor with a smaller index than front coding gives it has no larger index than the
new key, whose index it takes or keeps its own. -/
theorem storesAs_recompress_of_lt {p : Fields} {k n : Key} {s : StoredKey}
    (hs : StoresAs p s n) (hpk : p ≤ k.vtpl) (hkn : k.vtpl ≤ n.vtpl)
    (hlt : s.index < tupleMismatch p n.vtpl) :
    ∃ s', StoresAs k.vtpl s' n ∧
      dbeBkeyRecompressInsert (storedBytes (k.stored p)) (storedBytes s) = storedBytes s' := by
  have hck := tupleMismatch_le_commonPrefixLen p k.vtpl
  have hcn := hlt.le.trans (tupleMismatch_le_commonPrefixLen p n.vtpl)
  have hlen := hlt.trans (n.tupleMismatch_lt p)
  rw [dbeBkeyRecompressInsert_stored k hs.storedFits]
  rcases lt_trichotomy (tupleMismatch p k.vtpl) s.index with hi | heq | hgt
  · -- such an index is that of front coding behind a key that the new one repeats
    have hsk := (tupleSyms_le_iff p k.vtpl).mpr hpk
    have hsn := (tupleSyms_le_iff p n.vtpl).mpr (hpk.trans hkn)
    rcases lt_of_mismatchIndex_lt hsk hsn (hi.trans hlt) with hnk | ⟨hpk', hpre, hne⟩
    · exact absurd ((tupleSyms_lt_iff n.vtpl k.vtpl).mp hnk) (not_lt.mpr hkn)
    · have hself := tupleMismatch_self k.vtpl
      have hlast : tupleMismatch p n.vtpl ≤ (tupleSyms p).length :=
        tupleMismatch_le_left p n.vtpl
      rw [tupleSyms_injective hpk'] at hi hlt hlast
      omega
  · have hres := residual_residual (v := n.vtpl) (i := s.index)
      (j := tupleMismatch (k.stored p).rest s.rest) hlen
    have hsum : tupleMismatch (k.stored p).rest s.rest + s.index =
        tupleMismatch k.vtpl n.vtpl := by
      rw [hs.rest_eq, Nat.add_comm, ← heq]
      rw [← heq] at hcn hlen
      exact (tupleMismatch_eq_add (le_commonPrefixLen_trans hck hcn) hlen).symm
    refine ⟨n.stored k.vtpl, n.storesAs k.vtpl, ?_⟩
    rw [if_pos heq.le]
    rw [← hs.rest_eq, Nat.add_comm, hsum] at hres
    rw [hres, hsum, hs.tag_eq]
    rfl
  · rw [if_neg (not_le.mpr hgt)]
    have hcpl := le_commonPrefixLen_trans (hgt.le.trans hck) hcn
    exact ⟨s, ⟨le_tupleMismatch hcpl hlen, hs.rest_eq, hs.tag_eq⟩, rfl⟩

/-- The successor still expands, behind the new key. -/
theorem storesAs_recompress {p : Fields} {k n : Key} {s : StoredKey} (hs : StoresAs p s n)
    (hpk : p ≤ k.vtpl) (hkn : k.vtpl ≤ n.vtpl)
    (hext : ¬ (ExtendsByEmpty p k.vtpl n.vtpl ∧ s.index = tupleMismatch p n.vtpl)) :
    ∃ s', StoresAs k.vtpl s' n ∧
      dbeBkeyRecompressInsert (storedBytes (k.stored p)) (storedBytes s) = storedBytes s' := by
  rcases hs.index_le.lt_or_eq with hlt | heq
  · exact storesAs_recompress_of_lt hs hpk hkn hlt
  · obtain rfl := hs.eq_stored heq
    exact ⟨n.stored k.vtpl, n.storesAs k.vtpl,
      dbeBkeyRecompressInsert_eq hpk hkn fun h => hext ⟨h, heq⟩⟩

/-- Inserting `k` between the stored keys `ss` and `ss'` of `pre` and `post` gives a sequence that
expands to the keys with `k` between them. -/
def InsertExactIn (ss ss' : List StoredKey) (pre : List Key) (k : Key) (post : List Key) : Prop :=
  expandKeys (insertCompressed ((ss ++ ss').map storedBytes) k.bytes ss.length) =
    some ((pre ++ k :: post).map Key.bytes)

/-- Deleting the first of the stored keys `ss'` behind `ss` gives a sequence that expands to the
other keys. -/
def DeleteExactIn (ss ss' : List StoredKey) (pre post : List Key) : Prop :=
  (deleteCompressed ((ss ++ ss').map storedBytes) ss.length).bind expandKeys =
    some ((pre ++ post).map Key.bytes)

def InsertExact (pre : List Key) (k : Key) (post : List Key) : Prop :=
  expandKeys (insertCompressed (compressKeys ((pre ++ post).map Key.bytes)) k.bytes
    pre.length) = some ((pre ++ k :: post).map Key.bytes)

def DeleteExact (pre : List Key) (d : Key) (post : List Key) : Prop :=
  (deleteCompressed (compressKeys ((pre ++ d :: post).map Key.bytes))
    pre.length).bind expandKeys = some ((pre ++ post).map Key.bytes)

theorem frontCode_append (p : Fields) (ks ks' : List Key) :
    frontCode p ((ks ++ ks').map Key.entry) =
      frontCode p (ks.map Key.entry) ++ frontCode (lastVtpl p ks) (ks'.map Key.entry) := by
  induction ks generalizing p with
  | nil => rfl
  | cons k ks ih =>
      rw [List.cons_append, List.map_cons, frontCode, List.map_cons, frontCode, ih,
        lastVtpl_cons]
      rfl

theorem length_frontCode (p : Fields) (ks : List Key) :
    (frontCode p (ks.map Key.entry)).length = ks.length := by
  induction ks generalizing p with
  | nil => rfl
  | cons k ks ih => simp [frontCode, ih]

theorem compressKeys_append (pre post : List Key) :
    compressKeys ((pre ++ post).map Key.bytes) =
      (frontCode [] (pre.map Key.entry)).map storedBytes ++
        (frontCode (lastVtpl [] pre) (post.map Key.entry)).map storedBytes := by
  rw [compressKeys_map, frontCode_append, List.map_append]

theorem take_compressKeys (pre post : List Key) :
    (compressKeys ((pre ++ post).map Key.bytes)).take pre.length =
      (frontCode [] (pre.map Key.entry)).map storedBytes := by
  rw [compressKeys_append]
  apply List.take_left'
  rw [List.length_map, length_frontCode]

theorem insertExact_iff_in (pre : List Key) (k : Key) (post : List Key) :
    InsertExact pre k post ↔ InsertExactIn (frontCode [] (pre.map Key.entry))
      (frontCode (lastVtpl [] pre) (post.map Key.entry)) pre k post := by
  rw [InsertExact, InsertExactIn, compressKeys_append, length_frontCode,
    List.map_append (f := storedBytes)]

/-! ## Insertion is exact -/

structure SortedAt (pre : List Key) (k : Key) (post : List Key) : Prop where
  ascending : Ascending (pre ++ post)
  pos_of_mem : ∀ e ∈ pre, 0 < dbeBkeyCompare k.bytes e.bytes
  neg_of_mem : ∀ e ∈ post, dbeBkeyCompare k.bytes e.bytes < 0

theorem lastVtpl_append (p : Fields) (ks ks' : List Key) :
    lastVtpl p (ks ++ ks') = lastVtpl (lastVtpl p ks) ks' := by
  induction ks generalizing p with
  | nil => rfl
  | cons k ks ih => exact ih k.vtpl

theorem lastVtpl_mem (p : Fields) (ks : List Key) :
    lastVtpl p ks = p ∨ ∃ k ∈ ks, lastVtpl p ks = k.vtpl := by
  induction ks generalizing p with
  | nil => exact Or.inl rfl
  | cons k ks ih =>
      rw [lastVtpl_cons]
      rcases ih k.vtpl with h | ⟨k', hk', h⟩
      · exact Or.inr ⟨k, List.mem_cons_self, h⟩
      · exact Or.inr ⟨k', List.mem_cons_of_mem k hk', h⟩

theorem vtpl_le_of_compare_pos {k e : Key} (h : 0 < dbeBkeyCompare k.bytes e.bytes) :
    e.vtpl ≤ k.vtpl := by
  have hcmp := signOf_dbeBkeyCompareMode .all k e
  rw [← dbeBkeyCompare, signOf_of_pos h] at hcmp
  exact le_of_fullCompare_eq_gt hcmp.symm

theorem SortedAt.lastVtpl_le {pre : List Key} {k : Key} {post : List Key}
    (h : SortedAt pre k post) : lastVtpl [] pre ≤ k.vtpl := by
  rcases lastVtpl_mem [] pre with heq | ⟨e, he, heq⟩
  · rw [heq]
    exact FrontCoding.nil_le _
  · rw [heq]
    exact vtpl_le_of_compare_pos (h.pos_of_mem e he)

theorem dbeBkeySearchCompress_searchPast {pre : List Key} {k : Key} {post : List Key}
    (h : SortedAt pre k post) {ss : List StoredKey} (hs : StoresAll [] ss pre)
    (hf : SearchFollows k.vtpl [] ss pre) :
    dbeBkeySearchCompress (searchPast (dbeBkeySearchInit k.bytes .all) (ss.map storedBytes)) =
      storedBytes (k.stored (lastVtpl [] pre)) := by
  have hpre : Ascending pre := h.ascending.left_of_append
  have hpast := searchPast_stored k hs (FrontCoding.nil_le k.vtpl) hpre.isChain_vtpl
    h.pos_of_mem hf
  rw [tupleMismatch_nil_left k.vtpl] at hpast
  rw [dbeBkeySearchInit_bytes, hpast, dbeBkeySearchCompress_searchAt]

theorem insertCompressed_stored {pre : List Key} {k : Key} {post : List Key}
    (h : SortedAt pre k post) {ss : List StoredKey} (hs : StoresAll [] ss pre)
    (hf : SearchFollows k.vtpl [] ss pre) (ss' : List StoredKey) :
    insertCompressed ((ss ++ ss').map storedBytes) k.bytes ss.length =
      (ss ++ [k.stored (lastVtpl [] pre)]).map storedBytes ++
        match ss'.map storedBytes with
        | [] => []
        | next :: rest =>
            dbeBkeyRecompressInsert (storedBytes (k.stored (lastVtpl [] pre))) next :: rest := by
  have hlen : (ss.map storedBytes).length = ss.length := List.length_map _
  rw [insertCompressed, List.map_append, List.take_left' hlen, List.drop_left' hlen,
    dbeBkeySearchCompress_searchPast h hs hf, List.map_append, List.append_assoc]
  rfl

theorem expandAfter_append_eq_none {p : Key} {ss : List StoredKey} {ks : List Key}
    (h : StoresAll p.vtpl ss ks) {ck : List UInt8}
    (hck : ∀ k : Key, k.vtpl = lastVtpl p.vtpl ks → dbeBkeyExpand k.bytes ck = none)
    (cks : List (List UInt8)) :
    expandKeys.expandAfter p.bytes (ss.map storedBytes ++ ck :: cks) = none := by
  induction ss generalizing p ks with
  | nil =>
      cases ks with
      | nil =>
          rw [List.map_nil, List.nil_append, expandKeys.expandAfter, hck p rfl]
          rfl
      | cons k ks => exact h.elim
  | cons s ss ih =>
      cases ks with
      | nil => exact h.elim
      | cons k ks =>
          rw [List.map_cons, List.cons_append, expandKeys.expandAfter, h.1.expand,
            Option.bind_some, ih h.2 hck]
          rfl

theorem expandKeys_append_eq_none {ss : List StoredKey} {k : Key} {ks : List Key}
    (h : StoresAll [] ss (k :: ks)) {ck : List UInt8}
    (hck : ∀ k' : Key, k'.vtpl = lastVtpl k.vtpl ks → dbeBkeyExpand k'.bytes ck = none)
    (cks : List (List UInt8)) : expandKeys (ss.map storedBytes ++ ck :: cks) = none := by
  cases ss with
  | nil => exact h.elim
  | cons s ss =>
      rw [List.map_cons, List.cons_append, expandKeys,
        dbeBkeyCopy_storedBytes h.1.storedFits, h.1.eq_of_nil,
        expandAfter_append_eq_none h.2 hck]
      rfl

/-- The successor of a key that it extends by an empty field is left with an index
behind that key. -/
theorem dbeBkeyExpand_recompress_eq_none {p : Fields} {k n : Key}
    (hext : ExtendsByEmpty p k.vtpl n.vtpl) {k' : Key} (hk' : k'.vtpl = k.vtpl) :
    dbeBkeyExpand k'.bytes (dbeBkeyRecompressInsert (storedBytes (k.stored p))
      (storedBytes (n.stored p))) = none := by
  obtain ⟨hle, hsum⟩ := tupleMismatch_recompress_of_extendsByEmpty k.vtpl_ne hext
  have hmax := k.length_tupleSyms_lt
  unfold bkeyMaxlen at hmax
  have hidx : tupleMismatch (k.stored p).rest (n.stored p).rest +
      tupleMismatch p n.vtpl = (tupleSyms k.vtpl).length + 1 := hsum
  have hptr := k'.bkeyGetvtplptr []
  rw [List.append_nil, List.append_nil] at hptr
  have hnone := vtplExpand_eq_none (p := k'.vtpl) (i := (tupleSyms k.vtpl).length + 1)
    k'.vtplFits (by rw [hk']; omega) []
  rw [dbeBkeyRecompressInsert_stored k (n.storedFits p), Key.stored_index, if_pos hle,
    dbeBkeyExpand, hptr,
    bkeyLoadindex_stored _ (by change _ + _ < _; omega), hidx]
  rw [List.append_nil] at hnone
  rw [hnone]
  rfl

/-- The new key repeats its predecessor's v-tuple, and its successor goes on with
an empty field and more. -/
def InsertsBeforeEmpty (pre : List Key) (k : Key) (post : List Key) : Prop :=
  ∃ n rest, post = n :: rest ∧ ExtendsByEmpty (lastVtpl [] pre) k.vtpl n.vtpl

/-- The same of a successor that is stored with the index that front coding gives it. -/
def InsertsBeforeEmptyIn (ss' : List StoredKey) (pre : List Key) (k : Key) (post : List Key) :
    Prop :=
  ∃ s rest n rest', ss' = s :: rest ∧ post = n :: rest' ∧
    ExtendsByEmpty (lastVtpl [] pre) k.vtpl n.vtpl ∧
    s.index = tupleMismatch (lastVtpl [] pre) n.vtpl

theorem insertsBeforeEmptyIn_frontCode (pre : List Key) (k : Key) (post : List Key) :
    InsertsBeforeEmptyIn (frontCode (lastVtpl [] pre) (post.map Key.entry)) pre k post ↔
      InsertsBeforeEmpty pre k post := by
  constructor
  · rintro ⟨s, rest, n, rest', -, hpost, hext, -⟩
    exact ⟨n, rest', hpost, hext⟩
  · rintro ⟨n, rest, rfl, hext⟩
    exact ⟨n.stored (lastVtpl [] pre), _, n, rest, rfl, rfl, hext, rfl⟩

theorem not_insertExactIn_of_beforeEmpty {pre : List Key} {k : Key} {post : List Key}
    (h : SortedAt pre k post) {ss ss' : List StoredKey} (hs : StoresAll [] ss pre)
    (hs' : StoresAll (lastVtpl [] pre) ss' post) (hf : SearchFollows k.vtpl [] ss pre)
    (hempty : InsertsBeforeEmptyIn ss' pre k post) : ¬ InsertExactIn ss ss' pre k post := by
  obtain ⟨s, rest, n, rest', rfl, rfl, hext, hi⟩ := hempty
  obtain rfl := hs'.1.eq_stored hi
  have hall : StoresAll [] (ss ++ [k.stored (lastVtpl [] pre)]) (pre ++ [k]) :=
    storesAll_append hs ⟨k.storesAs _, trivial⟩
  have hlast : lastVtpl [] (pre ++ [k]) = k.vtpl := lastVtpl_append [] pre [k]
  obtain ⟨k₀, ks, hks⟩ : ∃ k₀ ks, pre ++ [k] = k₀ :: ks :=
    List.exists_cons_of_ne_nil (List.append_ne_nil_of_right_ne_nil _ (List.cons_ne_nil k []))
  rw [hks] at hall hlast
  have hnone := expandKeys_append_eq_none hall
    (fun k' hk' => dbeBkeyExpand_recompress_eq_none hext (hk'.trans hlast)) (rest.map storedBytes)
  rw [InsertExactIn, insertCompressed_stored h hs hf]
  exact fun heq => Option.some_ne_none _ (heq.symm.trans hnone)

/-- In a sequence of stored keys behind which the search follows, insertion is exact unless the
successor of a repeated v-tuple goes on with an empty field and more. -/
theorem insertExactIn_iff {pre : List Key} {k : Key} {post : List Key}
    (h : SortedAt pre k post) {ss ss' : List StoredKey} (hs : StoresAll [] ss pre)
    (hs' : StoresAll (lastVtpl [] pre) ss' post) (hf : SearchFollows k.vtpl [] ss pre) :
    InsertExactIn ss ss' pre k post ↔ ¬ InsertsBeforeEmptyIn ss' pre k post := by
  refine ⟨fun hexact hempty => not_insertExactIn_of_beforeEmpty h hs hs' hf hempty hexact,
    fun hclear => ?_⟩
  have hall : StoresAll [] (ss ++ [k.stored (lastVtpl [] pre)]) (pre ++ [k]) :=
    storesAll_append hs ⟨k.storesAs _, trivial⟩
  rw [InsertExactIn, insertCompressed_stored h hs hf]
  cases ss' with
  | nil =>
      cases post with
      | nil =>
          rw [List.map_nil, List.append_nil]
          exact expandKeys_storesAll hall
      | cons n rest => exact hs'.elim
  | cons s rest =>
      cases post with
      | nil => exact hs'.elim
      | cons n rest' =>
          have hkn := vtpl_le_of_compare_lt (h.neg_of_mem n List.mem_cons_self)
          obtain ⟨s', hstores, heq⟩ := storesAs_recompress hs'.1 h.lastVtpl_le hkn
            fun hext => hclear ⟨s, rest, n, rest', rfl, rfl, hext⟩
          have htail : StoresAll (lastVtpl [] (pre ++ [k])) (s' :: rest) (n :: rest') := by
            rw [lastVtpl_append]
            exact ⟨hstores, hs'.2⟩
          have hexp := expandKeys_storesAll (storesAll_append hall htail)
          rw [List.map_append (f := storedBytes), List.append_assoc, List.singleton_append,
            List.map_cons] at hexp
          rw [List.map_cons]
          simp only [heq]
          exact hexp

/-! ## Deletion -/

theorem rejoin_residual_residual {d n : Fields} {i j : ℕ} (hn : n ≠ []) (hlt : i < j)
    (hj : j ≤ tupleMismatch d n) :
    rejoin (FrontCoding.residual d i) (j - i) (FrontCoding.residual n j) =
      FrontCoding.residual n i := by
  have hcpl := tupleMismatch_le_commonPrefixLen d n
  have hlen := tupleMismatch_lt_length d hn
  have hle := hlt.le.trans hj
  have hadd := tupleMismatch_eq_add (hle.trans hcpl) (lt_of_le_of_lt hle hlen)
  have hres := residual_residual (v := n) (i := i) (j := j - i) (by omega)
  rw [Nat.add_sub_cancel' hlt.le] at hres
  rw [← hres]
  exact rejoin_residual (residual_ne_nil (lt_of_le_of_lt hle hlen)) (by omega)

/-- The successor of a deleted key expands to itself behind its new predecessor. -/
theorem dbeBkeyReexpandDelete_stored {p : Fields} {d n : Key} {s s' : StoredKey}
    (hs : StoresAs p s d) (hs' : StoresAs d.vtpl s' n) :
    ∃ r, StoresAs p r n ∧
      dbeBkeyReexpandDelete (storedBytes s) (storedBytes s') = some (storedBytes r) := by
  have hd := hs.storedFits
  have hn := hs'.storedFits
  have hdp := hs.index_le.trans (tupleMismatch_le_commonPrefixLen p d.vtpl)
  rw [commonPrefixLen_comm] at hdp
  have hdn := hs'.index_le.trans (tupleMismatch_le_commonPrefixLen d.vtpl n.vtpl)
  have hnlt := lt_of_le_of_lt hs'.index_le (n.tupleMismatch_lt d.vtpl)
  rw [dbeBkeyReexpandDelete, bkeyLoadindex_stored _ hd.index_lt,
    bkeyLoadindex_stored _ hn.index_lt, bkeyGetvtplptr_stored, bkeyGetvtplptr_stored,
    take_headerlen_stored, dbeBkeyCopy_storedBytes hn]
  by_cases hlt : s.index < s'.index
  · have hle : s'.index - s.index ≤ (tupleSyms s.rest).length := by
      have hleft := hs'.index_le.trans (tupleMismatch_le_left d.vtpl n.vtpl)
      rw [hs.rest_eq, tupleSyms_residual (lt_of_le_of_lt hs.index_le (d.tupleMismatch_lt p)).le,
        List.length_drop]
      omega
    have hexp := vtplExpand_encVtpl hd.rest_fits hn.rest_fits hle [] []
    have hre : rejoin s.rest (s'.index - s.index) s'.rest =
        FrontCoding.residual n.vtpl s.index := by
      rw [hs.rest_eq, hs'.rest_eq]
      exact rejoin_residual_residual n.vtpl_ne hlt hs'.index_le
    rw [List.append_nil, List.append_nil, hre] at hexp
    have hcpl := le_commonPrefixLen_trans hdp (hlt.le.trans hdn)
    refine ⟨⟨s.index, FrontCoding.residual n.vtpl s.index, n.header⟩,
      ⟨le_tupleMismatch hcpl (hlt.trans hnlt), rfl, rfl⟩, ?_⟩
    rw [if_pos hlt, hexp, Option.map_some, hs'.tag_eq, bkeyStoreindex_bytes]
    rfl
  · rw [not_lt] at hlt
    have hcpl := le_commonPrefixLen_trans (hlt.trans hdp) hdn
    rw [if_neg (not_lt.mpr hlt)]
    exact ⟨s', ⟨le_tupleMismatch hcpl hnlt, hs'.rest_eq, hs'.tag_eq⟩, rfl⟩

theorem deleteExactIn {ss ss' : List StoredKey} {pre : List Key} {d : Key} {post : List Key}
    (hs : StoresAll [] ss pre) (hs' : StoresAll (lastVtpl [] pre) ss' (d :: post)) :
    DeleteExactIn ss ss' pre post := by
  have hlen : (ss.map storedBytes).length = ss.length := List.length_map _
  rw [DeleteExactIn, deleteCompressed, List.map_append, List.take_left' hlen,
    List.drop_left' hlen]
  cases ss' with
  | nil => exact hs'.elim
  | cons s rest =>
      cases rest with
      | nil =>
          cases post with
          | nil =>
              rw [List.append_nil]
              exact expandKeys_storesAll hs
          | cons n post => exact hs'.2.elim
      | cons s' rest =>
          cases post with
          | nil => exact hs'.2.elim
          | cons n post =>
              obtain ⟨r, hr, heq⟩ := dbeBkeyReexpandDelete_stored hs'.1 hs'.2.1
              have htail : StoresAll (lastVtpl [] pre) (r :: rest) (n :: post) := ⟨hr, hs'.2.2⟩
              have hexp := expandKeys_storesAll (storesAll_append hs htail)
              rw [List.map_append (f := storedBytes)] at hexp
              simp only [List.map_cons, heq, Option.map_some, Option.bind_some]
              exact hexp

/-! ## Both operations -/

instance (pre : List Key) (k : Key) (post : List Key) :
    Decidable (InsertExact pre k post) :=
  inferInstanceAs (Decidable (_ = _))

/-- Insertion leaves the keys with the new one at its sorted position unless it
repeats its predecessor's v-tuple and its successor goes on with an empty field and
more. Deletion leaves the other keys. The same holds of keys that are stored with smaller
indexes, for an insertion where no stored index leads the search astray. -/
theorem recompress_exact_iff {pre : List Key} {k : Key} {post : List Key}
    (h : SortedAt pre k post) :
    (InsertExact pre k post ↔ ¬ InsertsBeforeEmpty pre k post) ∧
      (∀ pre d post, DeleteExact pre d post) ∧
      (∀ ss ss', StoresAll [] ss pre → StoresAll (lastVtpl [] pre) ss' post →
        SearchFollows k.vtpl [] ss pre →
          (InsertExactIn ss ss' pre k post ↔ ¬ InsertsBeforeEmptyIn ss' pre k post)) ∧
      ∀ ss ss' pre d post, StoresAll [] ss pre →
        StoresAll (lastVtpl [] pre) ss' (d :: post) → DeleteExactIn ss ss' pre post := by
  refine ⟨?_, fun pre d post => ?_, fun ss ss' hs hs' hf => insertExactIn_iff h hs hs' hf,
    fun ss ss' pre d post hs hs' => deleteExactIn hs hs'⟩
  · have hpre : Ascending pre := h.ascending.left_of_append
    rw [insertExact_iff_in, ← insertsBeforeEmptyIn_frontCode]
    exact insertExactIn_iff h (storesAll_frontCode [] pre) (storesAll_frontCode _ post)
      (searchFollows_frontCode k (FrontCoding.nil_le k.vtpl) hpre.isChain_vtpl h.pos_of_mem)
  · rw [DeleteExact, compressKeys_append, ← List.map_append]
    have hexact := deleteExactIn (storesAll_frontCode [] pre)
      (storesAll_frontCode (lastVtpl [] pre) (d :: post))
    rw [DeleteExactIn, length_frontCode] at hexact
    exact hexact

def oneFieldKey : Key := leafKey 1 5 [[1]] oneField_ne oneField_length

def repeatedKey : Key := leafKey 1 7 [[1]] oneField_ne oneField_length

def twoFieldKey : Key := leafKey 1 5 [[1], [2]] twoFields_ne twoFields_length

/-- The first and the last key in a changed sequence, the last one with index 0. -/
def changedKeys : List StoredKey :=
  [⟨0, [[1]], oneFieldKey.header⟩, ⟨0, [[1], [2]], twoFieldKey.header⟩]

theorem recompress_exact_added_column :
    InsertExact [oneFieldKey] repeatedKey [twoFieldKey] ∧
      DeleteExact [oneFieldKey] repeatedKey [twoFieldKey] ∧
      InsertExactIn (changedKeys.take 1) (changedKeys.drop 1) [oneFieldKey] repeatedKey
        [twoFieldKey] ∧
      DeleteExactIn (changedKeys.take 1) (changedKeys.drop 1) [oneFieldKey] [] := by
  have hfirst : StoresAll [] (changedKeys.take 1) [oneFieldKey] :=
    ⟨⟨by decide, rfl, rfl⟩, trivial⟩
  have hlast : StoresAll [[1]] (changedKeys.drop 1) [twoFieldKey] :=
    ⟨⟨by decide, rfl, rfl⟩, trivial⟩
  have hext : ¬ ExtendsByEmpty [[1]] [[1]] [[1], [2]] := by
    rintro ⟨-, w, -, hw⟩
    exact absurd (List.cons.inj (List.cons.inj hw).2).1 (by decide)
  obtain ⟨hinsert, hdelete, hstored, hdeleted⟩ :=
    @recompress_exact_iff [oneFieldKey] repeatedKey [twoFieldKey]
      ⟨by decide, by decide, by decide⟩
  refine ⟨hinsert.mpr ?_, hdelete _ _ _, (hstored _ _ hfirst hlast ⟨by decide, trivial⟩).mpr ?_,
    hdeleted _ _ _ _ _ hfirst hlast⟩
  · rintro ⟨n, rest, hpost, hempty⟩
    rw [← (List.cons.inj hpost).1] at hempty
    exact hext hempty
  · rintro ⟨s, rest, n, rest', -, hpost, hempty, -⟩
    rw [← (List.cons.inj hpost).1] at hempty
    exact hext hempty

theorem not_insertExact_empty_column :
    SortedAt [oneFieldKey] repeatedKey [leafKey 1 5 [[1], [], [2]] (by decide) (by decide)] ∧
      ¬ InsertExact [oneFieldKey] repeatedKey
        [leafKey 1 5 [[1], [], [2]] (by decide) (by decide)] :=
  ⟨⟨by decide, by decide, by decide⟩, by decide⟩

end SolidDB
