import SolidDB.Dbe.BkeyExpand
import Mathlib.Data.List.Chain

/-!
# Searching compressed keys

`dbe_bkey_search_init` and `dbe_bkey_search_step` over the compressed keys of a
node, compared with a scan over the expanded keys. The two agree except where an
entry misleads the search: it extends the search key while the entry before it
has the same v-tuple as the search key, or it has the v-tuple of the entry
before it while the search key extends both.
-/

namespace SolidDB

open FrontCoding

structure DbeBkeySearch where
  ksSs : SearchState
  ksK : List UInt8

def dbeBkeySearchInit (sk : List UInt8) (bkeyCmp : DbeBkeyCmp) : DbeBkeySearch :=
  { ksSs := { vtplSearchStateInit (bkeyGetvtplptr sk) sk with cmpFn := bkeyCmp.fn }
    ksK := sk }

def dbeBkeySearchStep (ks : DbeBkeySearch) (ck : List UInt8) : ℤ × DbeBkeySearch :=
  let (ret, ss) := vtplDbeSearchStep ks.ksSs (bkeyLoadindex ck) (bkeyGetvtplptr ck) ck
  (ret, { ks with ksSs := ss })

/-- The search over a sequence of keys: the number of keys passed, the last
result and the search state. -/
def dbeBkeySearchKeys : DbeBkeySearch → List (List UInt8) → ℕ × ℤ × DbeBkeySearch
  | ks, [] => (0, 1, ks)
  | ks, ck :: cks =>
      let (cmp, ks) := dbeBkeySearchStep ks ck
      if cmp ≤ 0 then (0, cmp, ks)
      else
        let (pos, r) := dbeBkeySearchKeys ks cks
        (pos + 1, r)

def compareKeys (mode : DbeBkeyCmp) (k : List UInt8) : List (List UInt8) → ℕ × ℤ
  | [] => (0, 1)
  | e :: es =>
      let cmp := dbeBkeyCompareMode mode k e
      if cmp ≤ 0 then (0, cmp)
      else
        let (pos, r) := compareKeys mode k es
        (pos + 1, r)

/-- Keys in compressed form: the first one uncompressed, every other one
compressed against its predecessor. -/
def compressKeys : List (List UInt8) → List (List UInt8)
  | [] => []
  | k :: ks => k :: compressAfter k ks
where
  compressAfter : List UInt8 → List (List UInt8) → List (List UInt8)
    | _, [] => []
    | pk, nk :: ks => dbeBkeyCompress pk nk :: compressAfter nk ks

/-- Neighbours ascend in `dbe_bkey_compare`. -/
def Ascending (ks : List Key) : Prop :=
  ks.IsChain fun p n => dbeBkeyCompare p.bytes n.bytes < 0

instance (ks : List Key) : Decidable (Ascending ks) :=
  inferInstanceAs (Decidable (List.IsChain _ _))

/-- The search for `k` over the compressed keys and the scan over the expanded
ones stop at one position with results of one sign. -/
def SearchAgrees (mode : DbeBkeyCmp) (k : Key) (ks : List Key) : Prop :=
  let search := dbeBkeySearchKeys (dbeBkeySearchInit k.bytes mode)
    (compressKeys (ks.map Key.bytes))
  let scan := compareKeys mode k.bytes (ks.map Key.bytes)
  search.1 = scan.1 ∧ search.2.1.sign = scan.2.sign

instance (mode : DbeBkeyCmp) (k : Key) (ks : List Key) :
    Decidable (SearchAgrees mode k ks) :=
  inferInstanceAs (Decidable (_ ∧ _))

/-- The scan for `k` passes `p` and all keys before it, and the next key
misleads the search. -/
def MisleadingAt (mode : DbeBkeyCmp) (k : Key) (ks : List Key) : Prop :=
  ∃ pre p n post, ks = pre ++ p :: n :: post ∧
    (∀ e ∈ pre ++ [p], 0 < dbeBkeyCompareMode mode k.bytes e.bytes) ∧
    Misleading k.vtpl p.vtpl n.vtpl

/-! ## One step -/

def Key.searchAt (k : Key) (mode : DbeBkeyCmp) (i : ℕ) : DbeBkeySearch :=
  { ksSs := SearchState.moveTo ⟨0, 0, [], mode.fn, k.bytes⟩ i (FrontCoding.residual k.vtpl i)
    ksK := k.bytes }

theorem dbeBkeySearchInit_bytes (k : Key) (mode : DbeBkeyCmp) :
    dbeBkeySearchInit k.bytes mode = k.searchAt mode 0 := by
  have hinit := vtplSearchStateInit_encVtpl k.vtplFits [] k.bytes
  rw [List.append_nil] at hinit
  rw [dbeBkeySearchInit, Key.bytes, bkeyGetvtplptr_stored]
  change DbeBkeySearch.mk
    { vtplSearchStateInit (encVtpl k.vtpl) k.bytes with cmpFn := mode.fn } k.bytes = _
  rw [hinit, Key.searchAt, residual_zero]
  rfl

theorem fnCmp_searchAt (k : Key) (mode : DbeBkeyCmp) (i : ℕ) (s : StoredKey)
    (t : List UInt8) :
    (k.searchAt mode i).ksSs.fnCmp (storedBytes s ++ t) =
      headerCompare mode k.header s.tag := by
  have hfn := fn_bytes mode k.header s.tag 0 s.index (encVtpl k.vtpl)
    (encVtpl s.rest ++ t)
  rw [← hfn, storedBytes, List.append_assoc]
  rfl

theorem dbeBkeySearchStep_fst (ks : DbeBkeySearch) (ck : List UInt8) :
    (dbeBkeySearchStep ks ck).1 =
      (vtplDbeSearchStep ks.ksSs (bkeyLoadindex ck) (bkeyGetvtplptr ck) ck).1 := rfl

theorem dbeBkeySearchStep_snd (ks : DbeBkeySearch) (ck : List UInt8) :
    (dbeBkeySearchStep ks ck).2 = { ks with ksSs :=
      (vtplDbeSearchStep ks.ksSs (bkeyLoadindex ck) (bkeyGetvtplptr ck) ck).2 } := rfl

/-- A search step over a stored key is a step of the abstract search. -/
theorem dbeBkeySearchStep_searchAt (k : Key) (mode : DbeBkeyCmp) {i : ℕ}
    {s : StoredKey} (hi : i < (tupleSyms k.vtpl).length) (hs : StoredFits s)
    (t : List UInt8) :
    signOf (dbeBkeySearchStep (k.searchAt mode i) (storedBytes s ++ t)).1 =
        (step (headerTie mode k.header) k.vtpl i s).1 ∧
      (dbeBkeySearchStep (k.searchAt mode i) (storedBytes s ++ t)).2 =
        k.searchAt mode (step (headerTie mode k.header) k.vtpl i s).2 := by
  have hmax := k.length_tupleSyms_lt
  have hindex := hs.index_lt
  unfold bkeyMaxlen at hmax
  have hstate : (k.searchAt mode i).ksSs.iMismatch = i := rfl
  rw [dbeBkeySearchStep_fst, dbeBkeySearchStep_snd,
    bkeyLoadindex_storedBytes _ _ hindex, bkeyGetvtplptr_storedBytes]
  by_cases heq : s.index = i
  · have hspec := vtplDbeSearchStep_of_eq ⟨0, 0, [], mode.fn, k.bytes⟩ i
      (k.vtplFits.residual hi) hs.rest_fits t (storedBytes s ++ t)
    change StepAnswers (k.searchAt mode i).ksSs (storedBytes s ++ t) i
      (FrontCoding.residual k.vtpl i) s.rest (vtplDbeSearchStep (k.searchAt mode i).ksSs i
        (encVtpl s.rest ++ t) (storedBytes s ++ t)) at hspec
    rw [heq]
    generalize vtplDbeSearchStep (k.searchAt mode i).ksSs i
      (encVtpl s.rest ++ t) (storedBytes s ++ t) = o at hspec ⊢
    rw [StepAnswers, fnCmp_searchAt] at hspec
    have hsign : signOf o.1 = (step (headerTie mode k.header) k.vtpl i s).1 := by
      rw [hspec.1]
      simp [step, heq, headerTie]
    have hgt : 0 < o.1 ↔ (step (headerTie mode k.header) k.vtpl i s).1 = .gt := by
      rw [← signOf_eq_gt_iff, hsign]
    refine ⟨hsign, ?_⟩
    rw [hspec.2]
    simp only [step, heq, lt_irrefl, if_false] at hgt ⊢
    by_cases hpos : 0 < o.1
    · rw [if_pos hpos, if_pos (hgt.mp hpos), residual_residual hi]
      rfl
    · rw [if_neg hpos, if_neg (fun h => hpos (hgt.mpr h))]
  · have hspec := vtplDbeSearchStep_of_ne (k.searchAt mode i).ksSs
      (by omega) (by omega) heq (encVtpl s.rest ++ t)
      (storedBytes s ++ t)
    rw [hstate] at hspec
    refine ⟨?_, ?_⟩
    · rw [hspec.1, step]
      rcases Nat.lt_or_gt_of_ne heq with hlt | hgt
      · rw [if_pos hlt, if_pos hlt]
      · rw [if_neg (by omega), if_neg (by omega), if_pos hgt]
    · rw [hspec.2, step]
      rcases Nat.lt_or_gt_of_ne heq with hlt | hgt
      · rw [if_pos hlt]
      · rw [if_neg (by omega), if_pos hgt]

/-! ## Whole searches -/

theorem compressAfter_map (p : Key) (ks : List Key) :
    compressKeys.compressAfter p.bytes (ks.map Key.bytes) =
      (frontCode p.vtpl (ks.map Key.entry)).map storedBytes := by
  induction ks generalizing p with
  | nil => rfl
  | cons k ks ih =>
      rw [List.map_cons, compressKeys.compressAfter, dbeBkeyCompress_eq, ih k]
      rfl

theorem Key.stored_nil (k : Key) : k.stored [] = ⟨0, k.vtpl, k.header⟩ := by
  simp [Key.stored, store, Key.entry, tupleMismatch_nil_left]

theorem compressKeys_map (ks : List Key) :
    compressKeys (ks.map Key.bytes) =
      (frontCode [] (ks.map Key.entry)).map storedBytes := by
  cases ks with
  | nil => rfl
  | cons k ks =>
      have hk : k.bytes = storedBytes (store [] k.entry) := by
        rw [Key.bytes, ← k.stored_nil]
        rfl
      rw [List.map_cons, compressKeys, compressAfter_map, hk]
      rfl

theorem storedFits_of_mem_frontCode {p : Fields} {ks : List Key} {s : StoredKey}
    (h : s ∈ frontCode p (ks.map Key.entry)) : StoredFits s := by
  induction ks generalizing p with
  | nil => simp [frontCode] at h
  | cons k ks ih =>
      rw [List.map_cons, frontCode, List.mem_cons] at h
      rcases h with rfl | h
      · exact k.storedFits p
      · exact ih h

theorem step_snd_lt (tie : BkeyHeader → Ordering) {k : Fields} {i : ℕ}
    (s : StoredKey) (hi : i < (tupleSyms k).length) :
    (step tie k i s).2 < (tupleSyms k).length := by
  unfold step
  split
  · exact hi
  · split
    · exact hi
    · simp only
      split
      · have hne := residual_ne_nil hi
        have hlt := tupleMismatch_lt_length s.rest hne
        rw [tupleSyms_residual hi.le, List.length_drop] at hlt
        omega
      · exact hi

theorem dbeBkeySearchKeys_cons (ks : DbeBkeySearch) (ck : List UInt8)
    (cks : List (List UInt8)) :
    dbeBkeySearchKeys ks (ck :: cks) =
      if (dbeBkeySearchStep ks ck).1 ≤ 0 then (0, dbeBkeySearchStep ks ck)
      else ((dbeBkeySearchKeys (dbeBkeySearchStep ks ck).2 cks).1 + 1,
        (dbeBkeySearchKeys (dbeBkeySearchStep ks ck).2 cks).2) := rfl

theorem dbeBkeySearchKeys_searchAt (k : Key) (mode : DbeBkeyCmp) {i : ℕ}
    {ss : List StoredKey} (hi : i < (tupleSyms k.vtpl).length)
    (hss : ∀ s ∈ ss, StoredFits s) :
    let r := dbeBkeySearchKeys (k.searchAt mode i) (ss.map storedBytes)
    let o := scan (step (headerTie mode k.header) k.vtpl) i ss
    r.1 = o.1 ∧ signOf r.2.1 = o.2.1 ∧ r.2.2 = k.searchAt mode o.2.2 := by
  intro r o
  induction ss generalizing i with
  | nil => exact ⟨rfl, rfl, rfl⟩
  | cons s ss ih =>
      have hstep := dbeBkeySearchStep_searchAt k mode hi
        (hss s List.mem_cons_self) []
      rw [List.append_nil] at hstep
      have hrec := ih (step_snd_lt (headerTie mode k.header) s hi)
        fun s' hs' => hss s' (List.mem_cons_of_mem s hs')
      have hpos := signOf_eq_gt_iff
        (dbeBkeySearchStep (k.searchAt mode i) (storedBytes s)).1
      rw [hstep.1] at hpos
      have hr : r = dbeBkeySearchKeys (k.searchAt mode i)
        ((s :: ss).map storedBytes) := rfl
      have ho : o = scan (step (headerTie mode k.header) k.vtpl) i (s :: ss) := rfl
      rw [List.map_cons, dbeBkeySearchKeys_cons] at hr
      by_cases hgt : (step (headerTie mode k.header) k.vtpl i s).1 = .gt
      · rw [if_neg (by have := hpos.mp hgt; omega), hstep.2] at hr
        rw [scan_cons_of_gt hgt] at ho
        rw [hr, ho]
        exact ⟨by rw [hrec.1], hrec.2.1, hrec.2.2⟩
      · rw [if_pos (by have := mt hpos.mpr hgt; omega)] at hr
        rw [scan_cons_of_ne_gt hgt] at ho
        rw [hr, ho]
        exact ⟨rfl, hstep.1, hstep.2⟩

theorem compareKeys_map (mode : DbeBkeyCmp) (k : Key) (p : Fields) (ks : List Key) :
    let r := compareKeys mode k.bytes (ks.map Key.bytes)
    let o := scan (plainStep (headerTie mode k.header) k.vtpl) p (ks.map Key.entry)
    r.1 = o.1 ∧ signOf r.2 = o.2.1 := by
  intro r o
  induction ks generalizing p with
  | nil => exact ⟨rfl, rfl⟩
  | cons e ks ih =>
      have hcmp := signOf_dbeBkeyCompareMode mode k e
      have hr : r = if dbeBkeyCompareMode mode k.bytes e.bytes ≤ 0 then
          (0, dbeBkeyCompareMode mode k.bytes e.bytes)
        else ((compareKeys mode k.bytes (ks.map Key.bytes)).1 + 1,
          (compareKeys mode k.bytes (ks.map Key.bytes)).2) := rfl
      have ho : o = scan (plainStep (headerTie mode k.header) k.vtpl) p
        (e.entry :: ks.map Key.entry) := rfl
      have hpos := signOf_eq_gt_iff (dbeBkeyCompareMode mode k.bytes e.bytes)
      rw [hcmp] at hpos
      by_cases hgt : fullCompare (headerTie mode k.header) k.vtpl e.entry = .gt
      · have hgt' : (plainStep (headerTie mode k.header) k.vtpl p e.entry).1 = .gt :=
          hgt
        rw [if_neg (by have := hpos.mp hgt; omega)] at hr
        rw [scan_cons_of_gt hgt'] at ho
        rw [hr, ho]
        obtain ⟨h1, h2⟩ := ih
          (plainStep (headerTie mode k.header) k.vtpl p e.entry).2
        exact ⟨by rw [h1], h2⟩
      · have hgt' : (plainStep (headerTie mode k.header) k.vtpl p e.entry).1 ≠ .gt :=
          hgt
        rw [if_pos (by have := mt hpos.mpr hgt; omega)] at hr
        rw [scan_cons_of_ne_gt hgt'] at ho
        rw [hr, ho]
        exact ⟨rfl, hcmp⟩

/-! ## The two scans compared -/

theorem vtpl_le_of_compare_lt {p n : Key} (h : dbeBkeyCompare p.bytes n.bytes < 0) :
    p.vtpl ≤ n.vtpl := by
  have hcmp := signOf_dbeBkeyCompareMode .all p n
  rw [← dbeBkeyCompare, signOf_of_neg h] at hcmp
  by_contra hlt
  rw [not_le] at hlt
  rw [fullCompare, Key.entry, tupleCompare_of_gt hlt] at hcmp
  exact Ordering.noConfusion hcmp

theorem Ascending.isChain_vtpl {ks : List Key} (h : Ascending ks) :
    ([] :: (ks.map Key.entry).map Entry.value).IsChain (· ≤ ·) := by
  rw [List.map_map]
  cases ks with
  | nil => simp
  | cons k ks =>
      have hchain : ((k :: ks).map (Entry.value ∘ Key.entry)).IsChain (· ≤ ·) := by
        rw [List.isChain_map]
        exact h.imp fun _ _ hab => vtpl_le_of_compare_lt hab
      rw [List.map_cons] at hchain ⊢
      exact List.isChain_cons_cons.mpr ⟨FrontCoding.nil_le _, hchain⟩

theorem misleadingAt_cons (mode : DbeBkeyCmp) (k n : Key) (ks : List Key) :
    MisleadingAt mode k (n :: ks) ↔
      0 < dbeBkeyCompareMode mode k.bytes n.bytes ∧
        ((∃ n' post, ks = n' :: post ∧ Misleading k.vtpl n.vtpl n'.vtpl) ∨
          MisleadingAt mode k ks) := by
  constructor
  · rintro ⟨pre, p, n', post, heq, hgt, hmis⟩
    cases pre with
    | nil =>
        rw [List.nil_append, List.cons.injEq] at heq
        obtain ⟨rfl, rfl⟩ := heq
        exact ⟨hgt n (by simp), Or.inl ⟨n', post, rfl, hmis⟩⟩
    | cons x pre =>
        rw [List.cons_append, List.cons.injEq] at heq
        obtain ⟨rfl, rfl⟩ := heq
        exact ⟨hgt n (by simp), Or.inr ⟨pre, p, n', post, rfl,
          fun e he => hgt e (by simp at he ⊢; tauto), hmis⟩⟩
  · rintro ⟨hgt, ⟨n', post, rfl, hmis⟩ | ⟨pre, p, n', post, rfl, hpre, hmis⟩⟩
    · exact ⟨[], n, n', post, rfl, by simpa using hgt, hmis⟩
    · refine ⟨n :: pre, p, n', post, rfl, ?_, hmis⟩
      intro e he
      rw [List.cons_append, List.mem_cons] at he
      rcases he with rfl | he
      · exact hgt
      · exact hpre e he

theorem misleadingIn_iff_exists (mode : DbeBkeyCmp) (k : Key) (p : Fields)
    (ks : List Key) :
    MisleadingIn (headerTie mode k.header) k.vtpl p (ks.map Key.entry) ↔
      (∃ n post, ks = n :: post ∧ Misleading k.vtpl p n.vtpl) ∨
        MisleadingAt mode k ks := by
  induction ks generalizing p with
  | nil =>
      constructor
      · exact False.elim
      · rintro (⟨n, post, heq, -⟩ | ⟨pre, q, n, post, heq, -⟩)
        · exact absurd heq.symm (List.cons_ne_nil _ _)
        · simp at heq
  | cons n ks ih =>
      have hgt : fullCompare (headerTie mode k.header) k.vtpl n.entry = .gt ↔
          0 < dbeBkeyCompareMode mode k.bytes n.bytes := by
        rw [← signOf_dbeBkeyCompareMode, signOf_eq_gt_iff]
      rw [List.map_cons, MisleadingIn, misleadingAt_cons, hgt]
      have hrec := ih n.vtpl
      simp only [List.cons.injEq]
      constructor
      · rintro (hmis | ⟨hpos, hrest⟩)
        · exact Or.inl ⟨n, ks, ⟨rfl, rfl⟩, hmis⟩
        · exact Or.inr ⟨hpos, hrec.mp hrest⟩
      · rintro (⟨n', post, ⟨rfl, rfl⟩, hmis⟩ | ⟨hpos, hrest⟩)
        · exact Or.inl hmis
        · exact Or.inr ⟨hpos, hrec.mpr hrest⟩

theorem misleadingIn_iff (mode : DbeBkeyCmp) (k : Key) (ks : List Key) :
    MisleadingIn (headerTie mode k.header) k.vtpl [] (ks.map Key.entry) ↔
      MisleadingAt mode k ks := by
  rw [misleadingIn_iff_exists]
  constructor
  · rintro (⟨n, post, -, ⟨hk, -⟩ | ⟨hn, -⟩⟩ | h)
    · exact absurd hk.symm k.vtpl_ne
    · exact absurd hn.symm n.vtpl_ne
    · exact h
  · exact Or.inr

theorem sign_eq_sign_iff (x y : ℤ) : x.sign = y.sign ↔ signOf x = signOf y := by
  rcases lt_trichotomy x 0 with hx | hx | hx <;>
    rcases lt_trichotomy y 0 with hy | hy | hy <;>
    simp_all [Int.sign_eq_neg_one_of_neg, Int.sign_eq_one_of_pos, signOf_of_neg,
      signOf_of_pos]

/-- The search over the compressed keys agrees with the scan over the expanded
ones exactly when no entry that is reached misleads it. -/
theorem searchAgrees_iff (mode : DbeBkeyCmp) (k : Key) {ks : List Key}
    (h : Ascending ks) : SearchAgrees mode k ks ↔ ¬ MisleadingAt mode k ks := by
  have hpos := length_tupleSyms_pos k.vtpl_ne
  have hfits (s : StoredKey) (hs : s ∈ frontCode [] (ks.map Key.entry)) :
      StoredFits s := storedFits_of_mem_frontCode hs
  have hsearch := dbeBkeySearchKeys_searchAt k mode hpos hfits
  have hscan := compareKeys_map mode k [] ks
  have hinit := dbeBkeySearchInit_bytes k mode
  rw [← misleadingIn_iff, SearchAgrees, hinit, compressKeys_map, sign_eq_sign_iff,
    hsearch.1, hsearch.2.1, hscan.1, hscan.2]
  have hchain := h.isChain_vtpl
  have hzero := tupleMismatch_nil_left k.vtpl
  constructor
  · intro hagree hmis
    have hne := scan_frontCode_ne k.vtpl_ne (FrontCoding.nil_le _) (by
      intro e he
      obtain ⟨e', -, rfl⟩ := List.mem_map.mp he
      exact e'.vtpl_ne) hchain hmis
    rw [hzero] at hne
    exact hne hagree
  · intro hmis
    have heq := scan_frontCode k.vtpl_ne (FrontCoding.nil_le _) hchain hmis
    rw [hzero] at heq
    rw [heq]
    exact ⟨rfl, rfl⟩

theorem searchAgrees_iff_two_columns :
    SearchAgrees .all (leafKey 1 7 [[1], [3]] (by decide) (by decide))
        [leafKey 1 5 [[1]] (by decide) (by decide),
          leafKey 1 5 [[1], [4]] (by decide) (by decide)] ↔
      ¬ MisleadingAt .all (leafKey 1 7 [[1], [3]] (by decide) (by decide))
        [leafKey 1 5 [[1]] (by decide) (by decide),
          leafKey 1 5 [[1], [4]] (by decide) (by decide)] :=
  searchAgrees_iff .all _ (by decide)

/-- A key between a key with its v-tuple and an older transaction id and one
with a column more is placed behind both. -/
theorem not_searchAgrees_added_column :
    ¬ SearchAgrees .all (leafKey 1 7 [[1]] (by decide) (by decide))
      [leafKey 1 5 [[1]] (by decide) (by decide),
        leafKey 1 5 [[1], [2]] (by decide) (by decide)] := by
  decide

end SolidDB
