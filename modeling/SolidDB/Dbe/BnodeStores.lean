import SolidDB.Foundation.StoredSearch
import SolidDB.Dbe.BnodeKeysearch
import SolidDB.Dbe.BnodeRecords

/-!
# Searching a node of either form

A node without a mismatch array is searched by stepping over its keys, a node with one by
`bnode_keysearchinfo_search`. Both stop at the same key, and this is the first key that is
not below the search key unless a stored key misleads the search.
-/

namespace SolidDB

open FrontCoding Memory

def Bnode.Stores (n : Bnode) (rs : List Record) : Prop :=
  (n.Plain (rs.map Record.key) ∧ rs = layOut 0 (rs.map Record.key)) ∨ n.Arrayed rs

structure Bnode.StoresKeys (n : Bnode) (rs : List Record) (ks : List Key) : Prop where
  stores : n.Stores rs
  keys : StoresAll [] (rs.map Record.key) ks
  ascending : Ascending ks

/-! ## The operations -/

def bnodeFirstkey (n : Bnode) : ℕ := if n.mismatcharray then bnodeGetkeyoffset n 0 else 0

/-- The offset of key `i`, when the one before it is at `keys`. -/
def bnodeNextkey (n : Bnode) (i keys : ℕ) : ℕ :=
  if n.mismatcharray then bnodeGetkeyoffset n i else keys + dbeBkeyGetlength (n.key keys)

/-- The loop that steps over the keys of a node without a mismatch array, with the number
of keys left. -/
def searchKeys (n : Bnode) : ℕ → ℕ → ℕ → ℤ → ℕ → DbeBkeySearch → Keysearch
  | 0, i, keys, cmp, klen, ks => ⟨keys, i, cmp, klen, ks⟩
  | left + 1, i, keys, _, klen, ks =>
      let (cmp, ks) := dbeBkeySearchStep ks (n.key keys)
      if cmp ≤ 0 then ⟨keys, i, cmp, klen, ks⟩
      else
        let klen := dbeBkeyGetlength (n.key keys)
        searchKeys n left (i + 1) (keys + klen) cmp klen ks

def bnodeSearch (n : Bnode) (k : List UInt8) (cmptype : DbeBkeyCmp) : Keysearch :=
  match bnodeKeysearchinfoSearch n k cmptype with
  | some r => r
  | none => searchKeys n n.nCount 0 0 1 0 (dbeBkeySearchInit k cmptype)

/-! ## Where the keys are -/

variable {n : Bnode} {rs : List Record} {ks : List Key} {k : Key} {mode : DbeBkeyCmp}

theorem Bnode.Stores.holding (h : n.Stores rs) : n.Holding rs := by
  rcases h with ⟨hplain, hrs⟩ | harr
  · have hhold := hplain.toHolding
    rw [← hrs] at hhold
    exact hhold
  · exact harr.toHolding

theorem offset_layOut_zero (offset : ℕ) {ss : List StoredKey} {r : Record}
    (hr : (layOut offset ss)[0]? = some r) : r.offset = offset := by
  cases ss with
  | nil => exact absurd hr.symm (Option.some_ne_none r)
  | cons s ss => rw [← Option.some.inj hr]

theorem offset_layOut_succ {offset i : ℕ} {ss : List StoredKey} {r r' : Record}
    (hr : (layOut offset ss)[i]? = some r) (hr' : (layOut offset ss)[i + 1]? = some r') :
    r'.offset = r.offset + r.length := by
  induction ss generalizing offset i with
  | nil => exact absurd hr.symm (Option.some_ne_none r)
  | cons s ss ih =>
      rw [layOut_cons, List.getElem?_cons_succ] at hr'
      cases i with
      | zero =>
          rw [offset_layOut_zero _ hr', ← Option.some.inj hr]
          rfl
      | succ i =>
          rw [layOut_cons, List.getElem?_cons_succ] at hr
          exact ih hr hr'

theorem offset_succ (hrs : rs = layOut 0 (rs.map Record.key)) {i : ℕ} {r r' : Record}
    (hr : rs[i]? = some r) (hr' : rs[i + 1]? = some r') : r'.offset = r.offset + r.length := by
  rw [hrs] at hr hr'
  exact offset_layOut_succ hr hr'

theorem Bnode.Stores.firstkey (h : n.Stores rs) {r : Record} (hr : rs[0]? = some r) :
    bnodeFirstkey n = r.offset := by
  rcases h with ⟨hplain, hrs⟩ | harr
  · rw [bnodeFirstkey, hplain.mismatcharray_eq, if_neg Bool.false_ne_true]
    rw [hrs] at hr
    exact (offset_layOut_zero 0 hr).symm
  · obtain ⟨hlt, rfl⟩ := List.getElem?_eq_some_iff.mp hr
    rw [bnodeFirstkey, harr.mismatcharray_eq, if_pos rfl, harr.getkeyoffset hlt]

theorem Bnode.Stores.nextkey (h : n.Stores rs) {i : ℕ} {r r' : Record}
    (hr : rs[i]? = some r) (hr' : rs[i + 1]? = some r') :
    bnodeNextkey n (i + 1) r.offset = r'.offset := by
  have hmem := List.mem_of_getElem? hr
  have hlen := h.holding.getlength hmem
  rcases h with ⟨hplain, hrs⟩ | harr
  · rw [bnodeNextkey, hplain.mismatcharray_eq, if_neg Bool.false_ne_true, hlen]
    exact (offset_succ hrs hr hr').symm
  · obtain ⟨hlt, rfl⟩ := List.getElem?_eq_some_iff.mp hr'
    rw [bnodeNextkey, harr.mismatcharray_eq, if_pos rfl, harr.getkeyoffset hlt]

/-! ## The search -/

/-- The result of a search: it is that of the scan over the records, and its pointer is to
the key at the position. -/
structure SearchedTo (n : Bnode) (rs : List Record) (k : Key) (mode : DbeBkeyCmp)
    (r : Keysearch) : Prop where
  finds : Finds k mode rs 0 0 r
  keys : ∀ x, rs[r.pos]? = some x → r.keys = x.offset

theorem searchKeys_finds (h : n.Holding rs) (hrs : rs = layOut 0 (rs.map Record.key))
    {left i j keys klen : ℕ} {cmp : ℤ} (hleft : i + left = rs.length)
    (hj : j < (tupleSyms k.vtpl).length) (hcmp : 0 < cmp) (hklen : klen = prevklenAt rs i)
    (hkeys : ∀ x, rs[i]? = some x → keys = x.offset) :
    Finds k mode rs i j (searchKeys n left i keys cmp klen (k.searchAt mode j)) ∧
      ∀ x, rs[(searchKeys n left i keys cmp klen (k.searchAt mode j)).pos]? = some x →
        (searchKeys n left i keys cmp klen (k.searchAt mode j)).keys = x.offset := by
  induction left generalizing i j keys cmp klen with
  | zero =>
      obtain rfl : i = rs.length := hleft
      rw [searchKeys, hklen]
      refine ⟨Finds.of_end hcmp, fun x hx => ?_⟩
      rw [List.getElem?_eq_none_iff.mpr le_rfl] at hx
      exact absurd hx.symm (Option.some_ne_none x)
  | succ left ih =>
      have hi : i < rs.length := by omega
      have hget : rs[i]? = some rs[i] := List.getElem?_eq_getElem hi
      obtain rfl := hkeys _ hget
      obtain ⟨hsign, hks⟩ := h.searchStep mode hi hj
      have hgt := signOf_eq_gt_iff
        (dbeBkeySearchStep (k.searchAt mode j) (n.key rs[i].offset)).1
      rw [hsign] at hgt
      rw [searchKeys]
      simp only
      have hlt := step_snd_lt (headerTie mode k.header) rs[i].key hj
      generalize hstep : step (headerTie mode k.header) k.vtpl j rs[i].key = o
      rw [hstep] at hsign hks hgt hlt
      split
      next hle =>
        rw [hks, hklen]
        refine ⟨Finds.of_ne_gt hi hstep (fun ho => not_lt.mpr hle (hgt.mp ho)) hsign,
          fun x hx => ?_⟩
        rw [Option.some.inj (hget.symm.trans hx)]
      next hpos =>
        rw [hks, h.getlength (List.getElem_mem hi)]
        have ho : o.1 = .gt := hgt.mpr (not_le.mp hpos)
        have hnext : ∀ x, rs[i + 1]? = some x → rs[i].offset + rs[i].length = x.offset :=
          fun x hx => (offset_succ hrs hget hx).symm
        obtain ⟨hfinds, hpointer⟩ := ih (by omega) hlt (not_le.mp hpos)
          (prevklenAt_succ hi).symm hnext
        exact ⟨Finds.of_gt hi (hstep.trans (Prod.ext ho rfl)) hfinds, hpointer⟩

def SkipEnd.Points (n : Bnode) : SkipEnd → Prop
  | .found r => r.keys = bnodeGetkeyoffset n r.pos
  | .leave _ _ => True

theorem skipKeys_points (n : Bnode) (left i : ℕ) (s : DbeBkeySearch) :
    (skipKeys n left i s).Points n := by
  induction left generalizing i s with
  | zero => trivial
  | succ left ih =>
      rw [skipKeys]
      dsimp only
      generalize (if (n.nP (n.nKeysearchinfoArray + 4 * i)).toNat = 255 then
        bkeyLoadindex (n.key (bnodeGetkeyoffset n i))
        else (n.nP (n.nKeysearchinfoArray + 4 * i)).toNat) = index
      split
      · trivial
      · split
        · split
          · trivial
          · split
            · split
              · rfl
              · split
                · trivial
                · exact ih _ _
            · exact ih _ _
        · exact ih _ _

theorem compareEach_points (n : Bnode) (left i keys klen : ℕ) (cmp : ℤ) (s : DbeBkeySearch)
    (hlt : (compareEach n left i keys cmp klen s).pos < i + left) :
    (compareEach n left i keys cmp klen s).keys =
      bnodeGetkeyoffset n (compareEach n left i keys cmp klen s).pos := by
  induction left generalizing i keys klen cmp s with
  | zero => exact absurd hlt (lt_irrefl i)
  | succ left ih =>
      rw [compareEach] at hlt ⊢
      dsimp only at hlt ⊢
      split
      · rfl
      next hpos =>
        rw [if_neg hpos] at hlt
        exact ih _ _ _ _ _ (by omega)

theorem searchFrom_points {e : SkipEnd} (h : e.Points n)
    (hpos : (searchFrom n e).pos < n.nCount) :
    (searchFrom n e).keys = bnodeGetkeyoffset n (searchFrom n e).pos := by
  cases e with
  | found r => exact h
  | leave i s =>
      rw [searchFrom] at hpos ⊢
      split at hpos
      next hi => exact absurd hi hpos.ne
      next hi =>
        rw [if_neg hi]
        exact compareEach_points n _ _ _ _ _ _ (lt_of_lt_of_le hpos (by omega))

theorem keysearchinfoSearch_points {r : Keysearch} {key : List UInt8}
    (hmis : n.mismatcharray = true) (hr : bnodeKeysearchinfoSearch n key mode = some r)
    (hpos : r.pos < n.nCount) : r.keys = bnodeGetkeyoffset n r.pos := by
  generalize hstep : dbeBkeySearchStep (dbeBkeySearchInit key mode)
    (n.key (bnodeGetkeyoffset n 0)) = c
  obtain ⟨cmp, s⟩ := c
  by_cases hle : cmp ≤ 0
  · rw [bnodeKeysearchinfoSearch_of_le hmis hstep hle] at hr
    rw [← Option.some.inj hr]
  · rw [bnodeKeysearchinfoSearch_of_gt hmis hstep hle] at hr
    obtain rfl := Option.some.inj hr
    refine searchFrom_points ?_ hpos
    split
    · exact skipKeys_points n _ _ _
    · trivial

theorem Bnode.Stores.searchedTo (h : n.Stores rs) (hne : rs ≠ []) (k : Key)
    (mode : DbeBkeyCmp) : SearchedTo n rs k mode (bnodeSearch n k.bytes mode) := by
  have hcount := h.holding.nCount_eq
  rcases h with ⟨hplain, hrs⟩ | harr
  · have hhold := hplain.toHolding
    rw [← hrs] at hhold
    have hnone : bnodeKeysearchinfoSearch n k.bytes mode = none := by
      rw [bnodeKeysearchinfoSearch, hplain.mismatcharray_eq]
      rfl
    have hkeys : ∀ x, rs[0]? = some x → 0 = x.offset := by
      intro x hx
      rw [hrs] at hx
      exact (offset_layOut_zero 0 hx).symm
    rw [bnodeSearch, hnone, hcount, dbeBkeySearchInit_bytes]
    obtain ⟨hfinds, hpointer⟩ := searchKeys_finds hhold hrs (Nat.zero_add _)
      (length_tupleSyms_pos k.vtpl_ne) Int.one_pos rfl hkeys
    exact ⟨hfinds, hpointer⟩
  · obtain ⟨r, hr, hfinds⟩ := harr.keysearchinfoSearch_finds hne k mode
    rw [bnodeSearch, hr]
    refine ⟨hfinds, fun x hx => ?_⟩
    obtain ⟨hlt, rfl⟩ := List.getElem?_eq_some_iff.mp hx
    rw [keysearchinfoSearch_points harr.mismatcharray_eq hr (hcount ▸ hlt), harr.getkeyoffset hlt]

/-! ## The search and the expanded keys -/

def MisledBy (mode : DbeBkeyCmp) (k : Key) (rs : List Record) (ks : List Key) : Prop :=
  MisledIn (headerTie mode k.header) k.vtpl [] (rs.map Record.key) (ks.map Key.entry)

theorem storesChain_of_storesAll {p : Fields} {ss : List StoredKey}
    (h : StoresAll p ss ks) (hchain : (p :: (ks.map Key.entry).map Entry.value).IsChain (· ≤ ·)) :
    StoresChain p ss (ks.map Key.entry) := by
  induction ss generalizing p ks with
  | nil =>
      cases ks with
      | nil => trivial
      | cons k ks => exact h.elim
  | cons s ss ih =>
      cases ks with
      | nil => exact h.elim
      | cons k ks =>
          rw [List.map_cons, List.map_cons, List.isChain_cons_cons] at hchain
          exact ⟨⟨h.1.index_le, h.1.rest_eq, h.1.tag_eq⟩, hchain.1, ih h.2 hchain.2⟩

theorem StoresAll.length_eq {p : Fields} {ss : List StoredKey} (h : StoresAll p ss ks) :
    ss.length = ks.length := by
  induction ss generalizing p ks with
  | nil =>
      cases ks with
      | nil => rfl
      | cons k ks => exact h.elim
  | cons s ss ih =>
      cases ks with
      | nil => exact h.elim
      | cons k ks => rw [List.length_cons, List.length_cons, ih h.2]

namespace Bnode.StoresKeys

theorem length_eq (h : n.StoresKeys rs ks) : rs.length = ks.length := by
  rw [← h.keys.length_eq, List.length_map]

theorem nCount_eq (h : n.StoresKeys rs ks) : n.nCount = ks.length :=
  h.stores.holding.nCount_eq.trans h.length_eq

theorem storesChain (h : n.StoresKeys rs ks) :
    StoresChain [] (rs.map Record.key) (ks.map Key.entry) :=
  storesChain_of_storesAll h.keys h.ascending.isChain_vtpl

theorem ne_nil (h : n.StoresKeys rs ks) (hne : ks ≠ []) : rs ≠ [] := by
  intro hnil
  have hlen := h.length_eq
  rw [hnil] at hlen
  exact hne (List.length_eq_zero_iff.mp hlen.symm)

theorem search_scan (h : n.StoresKeys rs ks) (hne : ks ≠ []) (k : Key) (mode : DbeBkeyCmp) :
    (bnodeSearch n k.bytes mode).pos =
        (scan (step (headerTie mode k.header) k.vtpl) 0 (rs.map Record.key)).1 ∧
      signOf (bnodeSearch n k.bytes mode).cmp =
        (scan (step (headerTie mode k.header) k.vtpl) 0 (rs.map Record.key)).2.1 := by
  have hfinds := (h.stores.searchedTo (h.ne_nil hne) k mode).finds
  have hpos := hfinds.pos_eq
  have hcmp := hfinds.cmp_eq
  rw [List.drop_zero] at hpos hcmp
  rw [Nat.zero_add] at hpos
  exact ⟨hpos, hcmp⟩

/-- The search passes all keys exactly when its answer is positive. -/
theorem search_pos (h : n.StoresKeys rs ks) (hne : ks ≠ []) (k : Key) (mode : DbeBkeyCmp) :
    (bnodeSearch n k.bytes mode).pos ≤ ks.length ∧
      (0 < (bnodeSearch n k.bytes mode).cmp ↔ (bnodeSearch n k.bytes mode).pos = ks.length) := by
  have hscan := h.search_scan hne k mode
  have hlen := scan_length (step (headerTie mode k.header) k.vtpl) 0 (rs.map Record.key)
  rw [List.length_map, h.length_eq, ← hscan.1, ← hscan.2, signOf_eq_gt_iff] at hlen
  exact hlen

/-- A search that is not misled stops where the comparison with the full keys does. -/
theorem search_eq (h : n.StoresKeys rs ks) (hne : ks ≠ []) {k : Key}
    (hclear : ¬ MisledBy mode k rs ks) :
    (bnodeSearch n k.bytes mode).pos = (compareKeys mode k.bytes (ks.map Key.bytes)).1 ∧
      signOf (bnodeSearch n k.bytes mode).cmp =
        signOf (compareKeys mode k.bytes (ks.map Key.bytes)).2 := by
  have hscan := h.search_scan hne k mode
  have hkeys := compareKeys_map mode k [] ks
  have heq := scan_of_storesChain k.vtpl_ne (FrontCoding.nil_le _) h.storesChain hclear
  rw [tupleMismatch_nil_left] at heq
  rw [hscan.1, hscan.2, heq]
  exact ⟨hkeys.1.symm, hkeys.2.symm⟩

theorem search_ne (h : n.StoresKeys rs ks) (hne : ks ≠ []) {k : Key}
    (hmis : MisledBy mode k rs ks) :
    ¬ ((bnodeSearch n k.bytes mode).pos = (compareKeys mode k.bytes (ks.map Key.bytes)).1 ∧
      signOf (bnodeSearch n k.bytes mode).cmp =
        signOf (compareKeys mode k.bytes (ks.map Key.bytes)).2) := by
  have hscan := h.search_scan hne k mode
  have hkeys := compareKeys_map mode k [] ks
  have hscanne := scan_ne_of_misledIn k.vtpl_ne (FrontCoding.nil_le _) h.storesChain hmis
  rw [tupleMismatch_nil_left] at hscanne
  rw [hscan.1, hscan.2, hkeys.1, hkeys.2]
  exact hscanne

end Bnode.StoresKeys

/-! ## Expanding a key -/

theorem StoresAll.getElem? {p : Fields} {ss : List StoredKey} (h : StoresAll p ss ks) {i : ℕ}
    {s : StoredKey} {x : Key} (hs : ss[i]? = some s) (hx : ks[i]? = some x) :
    StoresAs (lastVtpl p (ks.take i)) s x := by
  induction ss generalizing p ks i with
  | nil => exact absurd hs.symm (Option.some_ne_none s)
  | cons s' ss ih =>
      cases ks with
      | nil => exact h.elim
      | cons k ks =>
          cases i with
          | zero =>
              obtain rfl := Option.some.inj hs
              obtain rfl := Option.some.inj hx
              exact h.1
          | succ i =>
              rw [List.getElem?_cons_succ] at hs hx
              exact ih h.2 hs hx

/-- A stored key is expanded against any full key between its predecessor and its own. -/
theorem StoresAs.expand_between {p : Fields} {q x : Key} {s : StoredKey}
    (h : StoresAs p s x) (hp : p ≤ q.vtpl) (hx : q.vtpl ≤ x.vtpl) (t : List UInt8) :
    dbeBkeyExpand q.bytes (storedBytes s ++ t) = some x.bytes := by
  have hle := h.index_le.trans (tupleMismatch_le_of_le hp hx)
  have hi : s.index ≤ (tupleSyms q.vtpl).length :=
    hle.trans (tupleMismatch_le_left q.vtpl x.vtpl)
  have hexp := dbeBkeyExpand_storedBytes (h := q.header) q.vtplFits h.storedFits hi 0 [] t
  rw [List.append_nil, h.rest_eq, rejoin_residual x.vtpl_ne hle, h.tag_eq] at hexp
  exact hexp

theorem vtpl_le_of_compareMode_pos {q x : Key}
    (h : 0 < dbeBkeyCompareMode mode q.bytes x.bytes) : x.vtpl ≤ q.vtpl := by
  have hcmp := signOf_dbeBkeyCompareMode mode q x
  rw [signOf_of_pos h] at hcmp
  exact le_of_fullCompare_eq_gt hcmp.symm

theorem vtpl_le_of_compareMode_nonpos {q x : Key}
    (h : dbeBkeyCompareMode mode q.bytes x.bytes ≤ 0) : q.vtpl ≤ x.vtpl := by
  by_contra hlt
  have hcmp := signOf_dbeBkeyCompareMode mode q x
  rw [fullCompare, Key.entry, tupleCompare_of_gt (not_le.mp hlt)] at hcmp
  exact absurd (signOf_eq_gt_iff _ |>.mp hcmp) (not_lt.mpr h)

theorem compareKeys_split (mode : DbeBkeyCmp) (q : Key) (ks : List Key) :
    ∃ lo hi cmp, ks = lo ++ hi ∧
      compareKeys mode q.bytes (ks.map Key.bytes) = (lo.length, cmp) ∧
      (∀ x ∈ lo, 0 < dbeBkeyCompareMode mode q.bytes x.bytes) ∧
      (∀ x, hi.head? = some x → cmp = dbeBkeyCompareMode mode q.bytes x.bytes ∧ cmp ≤ 0) ∧
      (hi = [] → 0 < cmp) := by
  induction ks with
  | nil => exact ⟨[], [], 1, rfl, rfl, by simp, by simp, fun _ => Int.one_pos⟩
  | cons x ks ih =>
      rw [List.map_cons, compareKeys]
      by_cases hle : dbeBkeyCompareMode mode q.bytes x.bytes ≤ 0
      · refine ⟨[], x :: ks, _, rfl, by rw [if_pos hle]; rfl, by simp, fun y hy => ?_,
          fun hnil => absurd hnil (List.cons_ne_nil x ks)⟩
        obtain rfl := Option.some.inj hy
        exact ⟨rfl, hle⟩
      · obtain ⟨lo, hi, cmp, rfl, heq, hlo, hhi, hend⟩ := ih
        refine ⟨x :: lo, hi, cmp, rfl, by rw [if_neg hle, heq]; rfl, ?_, hhi, hend⟩
        exact List.forall_mem_cons.mpr ⟨not_le.mp hle, hlo⟩

theorem lastVtpl_le_of_forall {q : Key} {lo : List Key}
    (h : ∀ x ∈ lo, 0 < dbeBkeyCompareMode mode q.bytes x.bytes) :
    lastVtpl [] lo ≤ q.vtpl := by
  rcases List.eq_nil_or_concat' lo with rfl | ⟨lo', x, rfl⟩
  · exact FrontCoding.nil_le _
  · rw [lastVtpl_concat]
    exact vtpl_le_of_compareMode_pos (h x (List.mem_append_right _ List.mem_cons_self))

namespace Bnode.StoresKeys

theorem getElem? (h : n.StoresKeys rs ks) {i : ℕ} {x : Key} (hx : ks[i]? = some x) :
    ∃ r, rs[i]? = some r ∧ StoresAs (lastVtpl [] (ks.take i)) r.key x ∧
      ∃ t, n.key r.offset = storedBytes r.key ++ t := by
  have hlt : i < rs.length := by
    rw [h.length_eq]
    exact (List.getElem?_eq_some_iff.mp hx).1
  have hr : rs[i]? = some rs[i] := List.getElem?_eq_getElem hlt
  have hs : (rs.map Record.key)[i]? = some rs[i].key := by
    rw [List.getElem?_map, hr]
    rfl
  exact ⟨_, hr, h.keys.getElem? hs hx, h.stores.holding.key_eq (List.getElem_mem hlt)⟩

theorem copy_first (h : n.StoresKeys rs ks) {r : Record} {x : Key} (hr : rs[0]? = some r)
    (hx : ks[0]? = some x) : dbeBkeyCopy (n.key r.offset) = x.bytes := by
  obtain ⟨r', hr', hs, t, ht⟩ := h.getElem? hx
  obtain rfl := Option.some.inj (hr.symm.trans hr')
  rw [ht, dbeBkeyCopy, dbeBkeyGetlength_storedBytes _ _ hs.storedFits.rest_fits,
    List.take_left]
  exact hs.eq_of_nil

theorem expand_next (h : n.StoresKeys rs ks) {i : ℕ} {r : Record} {p x : Key}
    (hr : rs[i + 1]? = some r) (hp : ks[i]? = some p) (hx : ks[i + 1]? = some x) :
    dbeBkeyExpand p.bytes (n.key r.offset) = some x.bytes := by
  obtain ⟨r', hr', hs, t, ht⟩ := h.getElem? hx
  obtain rfl := Option.some.inj (hr.symm.trans hr')
  obtain ⟨hi, rfl⟩ := List.getElem?_eq_some_iff.mp hp
  obtain ⟨hi', rfl⟩ := List.getElem?_eq_some_iff.mp hx
  have hle : ks[i].vtpl ≤ ks[i + 1].vtpl :=
    vtpl_le_of_compare_lt (List.isChain_iff_getElem.mp h.ascending i hi')
  rw [List.take_succ_eq_append_getElem hi, lastVtpl_concat] at hs
  rw [ht]
  exact hs.expand_between le_rfl hle t

theorem expand_from (h : n.StoresKeys rs ks) {q x : Key} {lo hi : List Key} {r : Record}
    (hks : ks = lo ++ x :: hi) (hr : rs[lo.length]? = some r)
    (hlo : lastVtpl [] lo ≤ q.vtpl) (hq : q.vtpl ≤ x.vtpl) :
    dbeBkeyExpand q.bytes (n.key r.offset) = some x.bytes := by
  have hx : ks[lo.length]? = some x := by
    rw [hks, List.getElem?_append_right le_rfl, Nat.sub_self]
    rfl
  obtain ⟨r', hr', hs, t, ht⟩ := h.getElem? hx
  obtain rfl := Option.some.inj (hr.symm.trans hr')
  rw [hks, List.take_left] at hs
  rw [ht]
  exact hs.expand_between hlo hq t

end Bnode.StoresKeys

end SolidDB
