import SolidDB.Dbe.BnodeStores

/-!
# Finding a unique key

`dbe_bnode_getunique` expands the key that its search stops at against the search key, and not
against the key before it. This gives the full key also where a stored key misleads the search.
-/

namespace SolidDB

open FrontCoding Memory

/-- `DBE_RC_END`, or `DBE_RC_FOUND` with the position and the offset of the key and the key. -/
inductive Getunique where
  | rcEnd
  | rcFound (i keys : ℕ) (foundKey : List UInt8)

def Getunique.foundKey : Getunique → Option (List UInt8)
  | rcEnd => none
  | rcFound _ _ foundKey => some foundKey

def dbeBnodeGetunique (n : Bnode) (kb ke : List UInt8) : Option Getunique :=
  if n.nCount = 0 then some .rcEnd
  else
    let r := bnodeSearch n kb .all
    if r.pos < n.nCount then
      (dbeBkeyExpand kb (n.key r.keys)).map fun foundKey =>
        if dbeBkeyCompare foundKey ke < 0 then .rcFound r.pos r.keys foundKey else .rcEnd
    else
      some .rcEnd

/-! ## Expanding against the search key -/

variable {n : Bnode} {rs : List Record} {ks : List Key} {k kb : Key} {mode : DbeBkeyCmp}

/-- The stored key that the scan stops at expands behind the search key. -/
theorem StoresAll.expand_of_scan {ss : List StoredKey} (h : StoresAll [] ss ks)
    (hascending : Ascending ks) (k : Key) (mode : DbeBkeyCmp)
    (hstop : (scan (step (headerTie mode k.header) k.vtpl) 0 ss).2.1 ≠ .gt) :
    ∃ s e, ss[(scan (step (headerTie mode k.header) k.vtpl) 0 ss).1]? = some s ∧
      ks[(scan (step (headerTie mode k.header) k.vtpl) 0 ss).1]? = some e ∧
      ∀ t, dbeBkeyExpand k.bytes (storedBytes s ++ t) = some e.bytes := by
  have hvalues : ∀ e ∈ ks.map Key.entry, e.value ≠ [] := by
    intro e he
    obtain ⟨x, -, rfl⟩ := List.mem_map.mp he
    exact x.vtpl_ne
  obtain ⟨s, e, hs, he, htag, hindex, hrejoin⟩ := rejoin_of_scan
    (storesChain_of_storesAll h hascending.isChain_vtpl) hvalues (length_tupleSyms_pos k.vtpl_ne)
    (Nat.zero_le _) hstop
  rw [List.getElem?_map, Option.map_eq_some_iff] at he
  obtain ⟨x, hx, rfl⟩ := he
  refine ⟨s, x, hs, hx, fun t => ?_⟩
  have hexp := dbeBkeyExpand_storedBytes (h := k.header) k.vtplFits (h.getElem? hs hx).storedFits
    hindex 0 [] t
  rw [List.append_nil, hrejoin, htag] at hexp
  exact hexp

/-- The compressed key that stepping over the keys stops at is expanded to the full key. -/
def StopExpands (mode : DbeBkeyCmp) (k : Key) (ks : List Key) : Prop :=
  let pos := (dbeBkeySearchKeys (dbeBkeySearchInit k.bytes mode)
    (compressKeys (ks.map Key.bytes))).1
  ∃ e ck, ks[pos]? = some e ∧ (compressKeys (ks.map Key.bytes))[pos]? = some ck ∧
    dbeBkeyExpand k.bytes ck = some e.bytes

/-- Where stepping over compressed keys stops, the search key expands the compressed key. -/
theorem stopExpands (mode : DbeBkeyCmp) (k : Key) (h : Ascending ks)
    (hstop : (dbeBkeySearchKeys (dbeBkeySearchInit k.bytes mode)
      (compressKeys (ks.map Key.bytes))).2.1 ≤ 0) : StopExpands mode k ks := by
  obtain ⟨hpos, hcmp, -⟩ := dbeBkeySearchKeys_searchAt k mode (length_tupleSyms_pos k.vtpl_ne)
    fun s (hs : s ∈ frontCode [] (ks.map Key.entry)) => storedFits_of_mem_frontCode hs
  rw [compressKeys_map, dbeBkeySearchInit_bytes] at hstop
  have hne := mt (signOf_eq_gt_iff _).mp (not_lt.mpr hstop)
  rw [hcmp] at hne
  obtain ⟨s, e, hs, he, hexpand⟩ := (storesAll_frontCode [] ks).expand_of_scan h k mode hne
  have hself := hexpand []
  rw [List.append_nil] at hself
  rw [StopExpands, compressKeys_map, dbeBkeySearchInit_bytes, hpos]
  refine ⟨e, storedBytes s, he, ?_, hself⟩
  rw [List.getElem?_map, hs]
  rfl

/-- The key stopped at shares an empty field with the search key and is longer than it. -/
theorem stopExpands_longer :
    StopExpands .all (leafKey 1 7 [[1], [], [2]] (by decide) (by decide))
      [leafKey 1 5 [[1]] (by decide) (by decide),
        leafKey 1 5 [[1], [], [2, 5]] (by decide) (by decide)] :=
  stopExpands .all (leafKey 1 7 [[1], [], [2]] (by decide) (by decide)) (by decide) (by decide)

/-! ## The keys of a node -/

namespace Bnode.StoresKeys

/-- The key that the search of a node stops at, expanded against the search key. -/
theorem expand_search (h : n.StoresKeys rs ks) (hne : ks ≠ []) (k : Key) (mode : DbeBkeyCmp)
    (hstop : (bnodeSearch n k.bytes mode).pos < ks.length) :
    ∃ x, ks[(bnodeSearch n k.bytes mode).pos]? = some x ∧
      dbeBkeyExpand k.bytes (n.key (bnodeSearch n k.bytes mode).keys) = some x.bytes := by
  have hscan := h.search_scan hne k mode
  have hend := h.search_pos hne k mode
  have hgt : (scan (step (headerTie mode k.header) k.vtpl) 0 (rs.map Record.key)).2.1 ≠ .gt := by
    rw [← hscan.2, Ne, signOf_eq_gt_iff, hend.2]
    exact hstop.ne
  obtain ⟨s, x, hs, hx, hexpand⟩ := h.keys.expand_of_scan h.ascending k mode hgt
  rw [← hscan.1] at hs hx
  obtain ⟨r, hr, -, t, ht⟩ := h.getElem? hx
  rw [List.getElem?_map, hr] at hs
  obtain rfl : r.key = s := Option.some.inj hs
  refine ⟨x, hx, ?_⟩
  rw [(h.stores.searchedTo (h.ne_nil hne) k mode).keys r hr, ht, hexpand]

/-- The node has the unique key at the position of the search if it is below `ke`. -/
theorem getunique_eq (h : n.StoresKeys rs ks) (kb ke : Key) :
    ∃ g, dbeBnodeGetunique n kb.bytes ke.bytes = some g ∧
      g.foundKey = (ks[(bnodeSearch n kb.bytes .all).pos]?.filter
        fun x => dbeBkeyCompare x.bytes ke.bytes < 0).map Key.bytes := by
  have hcount := h.nCount_eq
  by_cases hne : ks = []
  · subst hne
    exact ⟨.rcEnd, if_pos hcount, rfl⟩
  rw [dbeBnodeGetunique, if_neg (by rw [hcount, List.length_eq_zero_iff]; exact hne)]
  by_cases hstop : (bnodeSearch n kb.bytes .all).pos < ks.length
  · obtain ⟨x, hx, hexpand⟩ := h.expand_search hne kb .all hstop
    dsimp only
    rw [hcount, if_pos hstop, hexpand, hx]
    by_cases hke : dbeBkeyCompare x.bytes ke.bytes < 0
    · refine ⟨_, congrArg some (if_pos hke), ?_⟩
      rw [Option.filter_some_pos (by rwa [decide_eq_true_iff])]
      rfl
    · refine ⟨_, congrArg some (if_neg hke), ?_⟩
      rw [Option.filter_some_neg (by rw [decide_eq_false hke])]
      rfl
  · dsimp only
    rw [hcount, if_neg hstop, List.getElem?_eq_none (not_lt.mp hstop)]
    exact ⟨.rcEnd, rfl, rfl⟩

/-- A search that is not misled finds the first key of the node that is not below `kb`, if it is
below `ke`. -/
theorem getunique (h : n.StoresKeys rs ks) (kb ke : Key) (hclear : ¬ MisledBy .all kb rs ks) :
    ∃ g, dbeBnodeGetunique n kb.bytes ke.bytes = some g ∧
      g.foundKey = ((ks.find? fun x => dbeBkeyCompare kb.bytes x.bytes ≤ 0).filter
        fun x => dbeBkeyCompare x.bytes ke.bytes < 0).map Key.bytes := by
  obtain ⟨g, hg, hkey⟩ := h.getunique_eq kb ke
  refine ⟨g, hg, ?_⟩
  rw [hkey]
  congr 2
  by_cases hne : ks = []
  · subst hne
    rfl
  obtain ⟨lo, hi, cmp, rfl, hscan, hlo, hhi, -⟩ := compareKeys_split .all kb ks
  rw [(h.search_eq hne hclear).1, hscan, List.getElem?_append_right le_rfl, Nat.sub_self,
    List.find?_append]
  have hnone : lo.find? (fun x => dbeBkeyCompare kb.bytes x.bytes ≤ 0) = none := by
    rw [List.find?_eq_none]
    intro x hx
    rw [decide_eq_true_iff]
    exact not_le.mpr (hlo x hx)
  rw [hnone, Option.none_or]
  cases hi with
  | nil => rfl
  | cons x hi =>
      obtain ⟨hcmp, hle⟩ := hhi x rfl
      rw [hcmp] at hle
      exact (List.find?_cons_of_pos (by rw [decide_eq_true_iff]; exact hle)).symm

end Bnode.StoresKeys

end SolidDB
