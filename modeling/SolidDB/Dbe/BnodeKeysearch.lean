import SolidDB.Dbe.Bnode

/-!
# Searching with the mismatch array

`bnode_keysearchinfo_init` and `bnode_keysearchinfo_search`. The search skips keys by
their truncated index and their first byte without looking at them. A skipped key
neither stops the scan over all keys nor changes its state, so that wherever the skip
loop is left the scan over the rest of the keys ends as the scan over all of them.
-/

namespace SolidDB

open FrontCoding Memory

/-! ## The operations -/

/-- The loop of `bnode_keysearchinfo_init` over the keys from the offset `keys` on;
it fails at an offset that two bytes do not hold, which is the assertion there. -/
def buildKeysearchinfo (blocksize : ℕ) :
    ℕ → Mem UInt8 → ℕ → ℕ → Option (Mem UInt8)
  | 0, m, _, _ => some m
  | count + 1, m, keys, keysearchinfoArray =>
      let k := keyAt m blocksize keys
      if 64 * 1024 ≤ keys then none
      else
        let (index, mismatch) := keysearchinfo k
        buildKeysearchinfo blocksize count
          (bnodeSetkeysearchinfo m keysearchinfoArray index mismatch keys)
          (keys + dbeBkeyGetlength k) (keysearchinfoArray + 4)

def bnodeKeysearchinfoInit (usemismatcharray : Bool) (n : Bnode) :
    Option (Bool × Bnode) :=
  if !usemismatcharray || n.blocksize < bnodeHeaderlen + n.nLen + n.nCount * 4 then
    some (false, n)
  else
    let keysearchinfoArray := n.blocksize - n.nCount * 4
    (buildKeysearchinfo n.blocksize n.nCount n.nP 0 keysearchinfoArray).map fun m =>
      (true, { n with
        nP := m
        nKeysearchinfoArray := keysearchinfoArray
        mismatcharray := true })

structure Keysearch where
  keys : ℕ
  pos : ℕ
  cmp : ℤ
  prevklen : ℕ
  ks : DbeBkeySearch

/-- How the skip loop ends: with a key found, or at a position and with a state
from which every key is compared. -/
inductive SkipEnd where
  | found (r : Keysearch)
  | leave (i : ℕ) (ks : DbeBkeySearch)

/-- The skip loop of `bnode_keysearchinfo_search`, with the number of keys left. -/
def skipKeys (n : Bnode) : ℕ → ℕ → DbeBkeySearch → SkipEnd
  | 0, i, ks => .leave i ks
  | left + 1, i, ks =>
      let keysearchinfoArray := n.nKeysearchinfoArray + 4 * i
      let index := (n.nP keysearchinfoArray).toNat
      let index :=
        if index = 255 then bkeyLoadindex (n.key (bnodeGetkeyoffset n i)) else index
      if index < ks.ksSs.iMismatch then .leave i ks
      else if ks.ksSs.iMismatch = index then
        let mismatch := n.nP (keysearchinfoArray + 1)
        let byte := ks.ksSs.pMismatch.headD 0
        if byte < mismatch then .leave i ks
        else if byte = mismatch then
          let keys := bnodeGetkeyoffset n i
          let (cmp, ks) := dbeBkeySearchStep ks (n.key keys)
          if cmp ≤ 0 then
            .found ⟨keys, i, cmp,
              dbeBkeyGetlength (n.key (bnodeGetkeyoffset n (i - 1))), ks⟩
          else if ks.ksSs.lField = 0 then .leave (i + 1) ks
          else skipKeys n left (i + 1) ks
        else skipKeys n left (i + 1) ks
      else skipKeys n left (i + 1) ks

/-- The loop that compares every key, with the number of keys left. -/
def compareEach (n : Bnode) : ℕ → ℕ → ℕ → ℤ → ℕ → DbeBkeySearch → Keysearch
  | 0, i, keys, cmp, prevklen, ks => ⟨keys, i, cmp, prevklen, ks⟩
  | left + 1, i, _, _, prevklen, ks =>
      let keys := bnodeGetkeyoffset n i
      let (cmp, ks) := dbeBkeySearchStep ks (n.key keys)
      if cmp ≤ 0 then ⟨keys, i, cmp, prevklen, ks⟩
      else compareEach n left (i + 1) keys cmp (dbeBkeyGetlength (n.key keys)) ks

def bnodeKeysearchinfoSearch (n : Bnode) (k : List UInt8) (cmptype : DbeBkeyCmp) :
    Option Keysearch :=
  if !n.mismatcharray then none
  else
    let (cmp, ks) := dbeBkeySearchStep (dbeBkeySearchInit k cmptype)
      (n.key (bnodeGetkeyoffset n 0))
    if cmp ≤ 0 then some ⟨bnodeGetkeyoffset n 0, 0, cmp, 0, ks⟩
    else
      match if ks.ksSs.lField ≠ 0 then skipKeys n (n.nCount - 1) 1 ks else .leave 1 ks with
      | .found r => some r
      | .leave i ks =>
          let prevklen := dbeBkeyGetlength (n.key (bnodeGetkeyoffset n (i - 1)))
          if i = n.nCount then some ⟨n.nLen, i, 1, prevklen, ks⟩
          else some (compareEach n (n.nCount - i) i (bnodeGetkeyoffset n i) 1 prevklen ks)

/-! ## Building the array -/

/-- What building the array does: the entries of the keys are written one behind the
other, and nothing else changes. -/
theorem buildKeysearchinfo_eq {m m' : Mem UInt8} {blocksize offset array : ℕ}
    {ss : List StoredKey}
    (hholds : ∀ r ∈ layOut offset ss,
      Holds m (bnodeHeaderlen + r.offset) (storedBytes r.key))
    (hfits : ∀ s ∈ ss, StoredFits s)
    (hroom : bnodeHeaderlen + (offset + (ss.flatMap storedBytes).length) ≤ array)
    (hblock : array + 4 * ss.length ≤ blocksize)
    (heq : buildKeysearchinfo blocksize ss.length m offset array = some m') :
    m' = write m array ((layOut offset ss).flatMap Record.entryBytes) ∧
      ∀ r ∈ layOut offset ss, r.offset < 2 ^ 16 := by
  induction ss generalizing m offset array with
  | nil =>
      rw [List.length_nil, buildKeysearchinfo, Option.some.injEq] at heq
      rw [← heq, layOut_nil, List.flatMap_nil, write_nil]
      exact ⟨rfl, by simp⟩
  | cons s ss ih =>
      have hs := hfits s List.mem_cons_self
      rw [layOut_cons, List.forall_mem_cons] at hholds
      rw [List.flatMap_cons, List.length_append] at hroom
      rw [List.length_cons] at hblock
      have hle : bnodeHeaderlen + (offset + (storedBytes s).length) ≤ blocksize := by
        omega
      obtain ⟨t, ht⟩ := @keyAt_eq m blocksize ⟨offset, s⟩ hholds.1 hle
      have hlen := dbeBkeyGetlength_storedBytes s t hs.rest_fits
      rw [List.length_cons, buildKeysearchinfo] at heq
      simp only [ht, hlen, keysearchinfo_storedBytes hs] at heq
      split at heq
      · exact absurd heq (by simp)
      · rename_i hlt
        set e := (⟨offset, s⟩ : Record).entryBytes
        have helen : e.length = 4 := rfl
        have hw : bnodeSetkeysearchinfo m array (min s.index 255)
            ((s.rest.headD []).headD 0) offset = write m array e := rfl
        rw [hw] at heq
        have hrest : ∀ r ∈ layOut (offset + (storedBytes s).length) ss,
            Holds (write m array e) (bnodeHeaderlen + r.offset) (storedBytes r.key) := by
          intro r hr
          have hb := (mem_layOut_bounds hr).2
          have hrlen : (storedBytes r.key).length = r.length := rfl
          exact (hholds.2 r hr).write (Or.inl (by omega))
        obtain ⟨hm', hoff⟩ := ih hrest (fun x hx => hfits x (List.mem_cons_of_mem s hx))
          (by omega) (by omega) heq
        rw [hm', layOut_cons, List.flatMap_cons, write_append, helen,
          List.forall_mem_cons]
        exact ⟨rfl, by change offset < _; omega, hoff⟩

theorem holds_entries {m : Mem UInt8} {array : ℕ} {rs : List Record}
    (h : Holds m array (rs.flatMap Record.entryBytes)) (i : ℕ) (hi : i < rs.length) :
    Holds m (array + 4 * i) rs[i].entryBytes := by
  induction rs generalizing array i with
  | nil => simp at hi
  | cons r rs ih =>
      rw [List.flatMap_cons, holds_append] at h
      cases i with
      | zero => exact h.1
      | succ i =>
          have hi' : i < rs.length := by simpa using hi
          have hrest := ih h.2 i hi'
          have hlen : r.entryBytes.length = 4 := rfl
          rw [hlen, Nat.add_assoc, Nat.add_comm 4] at hrest
          exact hrest

/-- Where `bnode_keysearchinfo_init` builds the array, the node holds the same
keys with it. -/
theorem Bnode.Plain.keysearchinfoInit {n n' : Bnode} {ss : List StoredKey}
    (h : n.Plain ss) (heq : bnodeKeysearchinfoInit true n = some (true, n')) :
    n'.Arrayed (layOut 0 ss) := by
  have hcount : n.nCount = ss.length := by rw [h.nCount_eq, length_layOut]
  have hnlen := h.nLen_eq
  have hbounds (r : Record) (hr : r ∈ layOut 0 ss) := mem_layOut_bounds hr
  rw [bnodeKeysearchinfoInit] at heq
  simp only [Bool.not_true, Bool.false_or, decide_eq_true_eq] at heq
  split at heq
  · simp at heq
  · rename_i hroom
    rw [Option.map_eq_some_iff] at heq
    obtain ⟨m, hm, heq⟩ := heq
    rw [Prod.mk.injEq] at heq
    obtain ⟨-, rfl⟩ := heq
    rw [hcount] at hm
    obtain ⟨rfl, hoff⟩ := buildKeysearchinfo_eq h.holds
      (fun s hs => h.fits_of_mem hs) (by omega) (by omega) hm
    exact
      { nCount_eq := h.nCount_eq
        holds := fun r hr => by
          have hb := (hbounds r hr).2
          have hrlen : (storedBytes r.key).length = r.length := rfl
          exact (h.holds r hr).write (Or.inl (by omega))
        fits := h.fits
        le_nLen := h.le_nLen
        nLen_le := h.nLen_le
        mismatcharray_eq := rfl
        array_eq := by
          rw [length_layOut]
          change n.blocksize - n.nCount * 4 + _ = n.blocksize
          omega
        room := by
          change bnodeHeaderlen + n.nLen ≤ n.blocksize - n.nCount * 4
          omega
        entry := fun i hi => by
          have hw := holds_write n.nP (n.blocksize - ss.length * 4)
            ((layOut 0 ss).flatMap Record.entryBytes)
          rw [← hcount] at hw ⊢
          exact holds_entries hw i hi
        offset_lt := hoff
        disjoint := layOut_disjoint 0 ss }

/-! ## A skipped key -/

theorem step_of_index_gt (tie : BkeyHeader → Ordering) {k : Fields} {j : ℕ}
    {s : StoredKey} (h : j < s.index) : step tie k j s = (.gt, j) := by
  rw [step, if_neg (by omega), if_pos h]

/-- A key with a smaller first byte, or with an empty first field, is passed without
a change of the state. -/
theorem step_of_byte_lt (tie : BkeyHeader → Ordering) {k : Fields} {s : StoredKey}
    {x : UInt8} {f : List UInt8} {v : Fields}
    (hres : FrontCoding.residual k s.index = (x :: f) :: v)
    (hrest : s.rest ≠ []) (hlt : (s.rest.headD []).headD 0 < x) :
    step tie k s.index s = (.gt, s.index) := by
  obtain ⟨g, w, hs⟩ := List.exists_cons_of_ne_nil hrest
  rw [hs, List.headD_cons] at hlt
  have hgx : g < x :: f ∧ commonPrefixLen g (x :: f) = 0 := by
    cases g with
    | nil => exact ⟨List.nil_lt_cons x f, rfl⟩
    | cons y g =>
        rw [List.headD_cons] at hlt
        exact ⟨List.cons_lt_cons_iff.mpr (Or.inl hlt), by
          rw [commonPrefixLen_cons_cons, if_neg hlt.ne]⟩
  have hcmp : tupleCompare ((x :: f) :: v) (g :: w) = .gt :=
    tupleCompare_of_gt (List.cons_lt_cons_iff.mpr (Or.inl hgx.1))
  have hmis : tupleMismatch (g :: w) ((x :: f) :: v) = 0 := by
    rw [tupleMismatch_cons_cons, if_neg hgx.1.ne, hgx.2]
  rw [step, if_neg (lt_irrefl _), if_neg (lt_irrefl _), hres, hs, hcmp, hmis]
  rfl

/-! ## The scan from a position on -/

def prevklenAt (rs : List Record) : ℕ → ℕ
  | 0 => 0
  | pos + 1 => (rs[pos]?.map Record.length).getD 0

theorem prevklenAt_succ {rs : List Record} {i : ℕ} (hi : i < rs.length) :
    prevklenAt rs (i + 1) = rs[i].length := by
  rw [prevklenAt, List.getElem?_eq_getElem hi]
  rfl

/-- The result is that of the scan over the records from position `i` on, started
with the state at index `j` of the key. -/
structure Finds (k : Key) (mode : DbeBkeyCmp) (rs : List Record) (i j : ℕ)
    (r : Keysearch) : Prop where
  pos_eq : r.pos = i + (scan (step (headerTie mode k.header) k.vtpl) j
    ((rs.drop i).map Record.key)).1
  cmp_eq : signOf r.cmp = (scan (step (headerTie mode k.header) k.vtpl) j
    ((rs.drop i).map Record.key)).2.1
  ks_eq : r.ks = k.searchAt mode (scan (step (headerTie mode k.header) k.vtpl) j
    ((rs.drop i).map Record.key)).2.2
  prevklen_eq : r.prevklen = prevklenAt rs r.pos

section Scan

variable {n : Bnode} {rs : List Record} {k : Key} {mode : DbeBkeyCmp} {i j j' : ℕ}

theorem map_drop_eq_cons (hi : i < rs.length) :
    (rs.drop i).map Record.key = rs[i].key :: (rs.drop (i + 1)).map Record.key := by
  rw [List.drop_eq_getElem_cons hi, List.map_cons]

theorem Finds.of_gt {r : Keysearch} (hi : i < rs.length)
    (hgt : step (headerTie mode k.header) k.vtpl j rs[i].key = (.gt, j'))
    (h : Finds k mode rs (i + 1) j' r) : Finds k mode rs i j r := by
  have hscan : scan (step (headerTie mode k.header) k.vtpl) j
      ((rs.drop i).map Record.key) =
        ((scan (step (headerTie mode k.header) k.vtpl) j'
            ((rs.drop (i + 1)).map Record.key)).1 + 1,
          (scan (step (headerTie mode k.header) k.vtpl) j'
            ((rs.drop (i + 1)).map Record.key)).2) := by
    rw [map_drop_eq_cons hi, scan_cons_of_gt (by rw [hgt]), hgt]
  obtain ⟨hpos, hcmp, hks, hprev⟩ := h
  refine ⟨?_, ?_, ?_, hprev⟩
  · rw [hscan, hpos]
    omega
  · rw [hscan, hcmp]
  · rw [hscan, hks]

theorem Finds.of_ne_gt {keys : ℕ} {cmp : ℤ} (hi : i < rs.length) {o : Ordering}
    (hstep : step (headerTie mode k.header) k.vtpl j rs[i].key = (o, j'))
    (ho : o ≠ .gt) (hcmp : signOf cmp = o) :
    Finds k mode rs i j ⟨keys, i, cmp, prevklenAt rs i, k.searchAt mode j'⟩ := by
  have hscan : scan (step (headerTie mode k.header) k.vtpl) j
      ((rs.drop i).map Record.key) = (0, o, j') := by
    rw [map_drop_eq_cons hi, scan_cons_of_ne_gt (by rw [hstep]; exact ho), hstep]
  refine ⟨?_, ?_, ?_, rfl⟩
  · rw [hscan]
    rfl
  · rw [hscan, hcmp]
  · rw [hscan]

theorem Finds.of_end {keys : ℕ} {cmp : ℤ} (hcmp : 0 < cmp) :
    Finds k mode rs rs.length j
      ⟨keys, rs.length, cmp, prevklenAt rs rs.length, k.searchAt mode j⟩ := by
  have hscan : scan (step (headerTie mode k.header) k.vtpl) j
      ((rs.drop rs.length).map Record.key) = (0, .gt, j) := by
    rw [List.drop_length, List.map_nil, scan_nil]
  refine ⟨?_, ?_, ?_, rfl⟩
  · rw [hscan]
    rfl
  · rw [hscan, signOf_of_pos hcmp]
  · rw [hscan]

theorem Bnode.Holding.searchStep (h : n.Holding rs) (mode : DbeBkeyCmp) (hi : i < rs.length)
    (hj : j < (tupleSyms k.vtpl).length) :
    signOf (dbeBkeySearchStep (k.searchAt mode j) (n.key rs[i].offset)).1 =
        (step (headerTie mode k.header) k.vtpl j rs[i].key).1 ∧
      (dbeBkeySearchStep (k.searchAt mode j) (n.key rs[i].offset)).2 =
        k.searchAt mode (step (headerTie mode k.header) k.vtpl j rs[i].key).2 := by
  have hr := List.getElem_mem hi
  obtain ⟨t, ht⟩ := h.key_eq hr
  rw [ht]
  exact dbeBkeySearchStep_searchAt k mode hj (h.fits _ hr) t

theorem Bnode.Arrayed.compareEach_finds (h : n.Arrayed rs) {left keys prevklen : ℕ}
    {cmp : ℤ} (hleft : i + left = rs.length) (hj : j < (tupleSyms k.vtpl).length)
    (hcmp : 0 < cmp) (hprev : prevklen = prevklenAt rs i) :
    Finds k mode rs i j
      (compareEach n left i keys cmp prevklen (k.searchAt mode j)) := by
  induction left generalizing i j keys cmp prevklen with
  | zero =>
      obtain rfl : i = rs.length := hleft
      rw [compareEach, hprev]
      exact Finds.of_end hcmp
  | succ left ih =>
      have hi : i < rs.length := by omega
      obtain ⟨hsign, hks⟩ := h.toHolding.searchStep mode hi hj
      have hgt := signOf_eq_gt_iff
        (dbeBkeySearchStep (k.searchAt mode j) (n.key rs[i].offset)).1
      rw [hsign] at hgt
      rw [compareEach, h.getkeyoffset hi]
      simp only
      generalize hstep : step (headerTie mode k.header) k.vtpl j rs[i].key = o
      rw [hstep] at hsign hks hgt
      split
      · rename_i hle
        rw [hks, hprev]
        exact Finds.of_ne_gt hi hstep (fun ho => by have := hgt.mp ho; omega) hsign
      · rename_i hpos
        rw [hks, h.toHolding.getlength (List.getElem_mem hi)]
        have ho : o.1 = .gt := hgt.mpr (by omega)
        have hlt := step_snd_lt (headerTie mode k.header) rs[i].key hj
        rw [hstep] at hlt
        exact Finds.of_gt hi (hstep.trans (Prod.ext ho rfl))
          (ih (by omega) hlt (by omega) (prevklenAt_succ hi).symm)

/-- What the skip loop hands over: the result of the scan, or a place from which the
scan ends as it does from where the loop began. -/
def SkipFinds (k : Key) (mode : DbeBkeyCmp) (rs : List Record) (i j : ℕ) :
    SkipEnd → Prop
  | .found r => Finds k mode rs i j r
  | .leave i' ks => ∃ j', ks = k.searchAt mode j' ∧ j' < (tupleSyms k.vtpl).length ∧
      0 < i' ∧ i' ≤ rs.length ∧ ∀ r, Finds k mode rs i' j' r → Finds k mode rs i j r

theorem SkipFinds.of_gt {e : SkipEnd} (hi : i < rs.length)
    (hgt : step (headerTie mode k.header) k.vtpl j rs[i].key = (.gt, j'))
    (h : SkipFinds k mode rs (i + 1) j' e) : SkipFinds k mode rs i j e := by
  cases e with
  | found r => exact Finds.of_gt hi hgt h
  | leave i' ks =>
      obtain ⟨j'', hks, hlt, hpos, hle, hall⟩ := h
      exact ⟨j'', hks, hlt, hpos, hle, fun r hr => Finds.of_gt hi hgt (hall r hr)⟩

theorem SkipFinds.leave_self (hpos : 0 < i) (hle : i ≤ rs.length)
    (hj : j < (tupleSyms k.vtpl).length) :
    SkipFinds k mode rs i j (.leave i (k.searchAt mode j)) :=
  ⟨j, rfl, hj, hpos, hle, fun _ hr => hr⟩

theorem Bnode.Arrayed.skip_index (h : n.Arrayed rs) (hi : i < rs.length) :
    (if (n.nP (n.nKeysearchinfoArray + 4 * i)).toNat = 255 then
      bkeyLoadindex (n.key (bnodeGetkeyoffset n i))
    else (n.nP (n.nKeysearchinfoArray + 4 * i)).toNat) = rs[i].key.index := by
  rw [h.getkeyoffset hi, h.toHolding.loadindex (List.getElem_mem hi),
    (h.entry_index hi).1]
  split <;> omega

theorem lField_searchAt (k : Key) (mode : DbeBkeyCmp) (j : ℕ) :
    (k.searchAt mode j).ksSs.lField = ((FrontCoding.residual k.vtpl j).headD []).length := rfl

theorem Bnode.Arrayed.skipKeys_finds (h : n.Arrayed rs) {left : ℕ}
    (hleft : i + left = rs.length) (hpos : 0 < i) (hj : j < (tupleSyms k.vtpl).length)
    (hfield : (k.searchAt mode j).ksSs.lField ≠ 0) :
    SkipFinds k mode rs i j (skipKeys n left i (k.searchAt mode j)) := by
  induction left generalizing i j with
  | zero => exact SkipFinds.leave_self hpos (by omega) hj
  | succ left ih =>
      have hi : i < rs.length := by omega
      have hmem := List.getElem_mem hi
      have hidx := h.skip_index hi
      obtain ⟨hsign, hks⟩ := h.toHolding.searchStep mode hi hj
      have hstay := @SkipFinds.leave_self rs k mode i j hpos hi.le hj
      have hstate : (k.searchAt mode j).ksSs.iMismatch = j := rfl
      rw [skipKeys]
      simp only [hidx, hstate]
      by_cases hgt : rs[i].key.index < j
      · -- the key has a smaller index, and the scan stops there
        rw [if_pos hgt]
        exact hstay
      rw [if_neg hgt]
      by_cases heq : j = rs[i].key.index
      · -- the first bytes decide
        rw [if_pos heq]
        rw [lField_searchAt] at hfield
        obtain ⟨x, f, v, hres⟩ : ∃ x f v, FrontCoding.residual k.vtpl j = (x :: f) :: v := by
          cases hr : FrontCoding.residual k.vtpl j with
          | nil => rw [hr] at hfield; exact absurd rfl hfield
          | cons g v =>
              cases g with
              | nil => rw [hr] at hfield; exact absurd rfl hfield
              | cons x f => exact ⟨x, f, v, rfl⟩
        have hbyte : (k.searchAt mode j).ksSs.pMismatch.headD 0 = x := by
          change (fieldsPtr (FrontCoding.residual k.vtpl j)).headD 0 = x
          rw [hres]
          rfl
        rw [hbyte, (h.entry_index hi).2]
        by_cases hlt : x < (rs[i].key.rest.headD []).headD 0
        · rw [if_pos hlt]
          exact hstay
        rw [if_neg hlt]
        by_cases hxeq : x = (rs[i].key.rest.headD []).headD 0
        · rw [if_pos hxeq, h.getkeyoffset hi, h.getkeyoffset (by omega : i - 1 < _),
            h.toHolding.getlength (List.getElem_mem _)]
          have hsgt := signOf_eq_gt_iff
            (dbeBkeySearchStep (k.searchAt mode j) (n.key rs[i].offset)).1
          rw [hsign] at hsgt
          have hnext := step_snd_lt (headerTie mode k.header) rs[i].key hj
          generalize hstep : step (headerTie mode k.header) k.vtpl j rs[i].key = o
          rw [hstep] at hsign hks hsgt hnext
          have hprev : rs[i - 1].length = prevklenAt rs i := by
            obtain ⟨i', rfl⟩ : ∃ i', i = i' + 1 := ⟨i - 1, by omega⟩
            exact (prevklenAt_succ (by omega)).symm
          by_cases hle : (dbeBkeySearchStep (k.searchAt mode j)
              (n.key rs[i].offset)).1 ≤ 0
          · rw [if_pos hle, hks, hprev]
            exact Finds.of_ne_gt hi hstep (fun ho => by have := hsgt.mp ho; omega) hsign
          · rw [if_neg hle, hks]
            have ho : o.1 = .gt := hsgt.mpr (by omega)
            apply SkipFinds.of_gt hi (hstep.trans (Prod.ext ho rfl))
            split
            · exact SkipFinds.leave_self (by omega) (by omega) hnext
            · rename_i hne
              exact ih (by omega) (by omega) hnext hne
        · rw [if_neg hxeq]
          have hrest := (h.fits _ hmem).rest_fits.1
          rw [heq] at hres
          have hstep := step_of_byte_lt (headerTie mode k.header) hres hrest
            (lt_of_le_of_ne (not_lt.mp hlt) fun hx => hxeq hx.symm)
          rw [← heq] at hstep
          exact SkipFinds.of_gt hi hstep (ih (by omega) (by omega) hj
            (by rw [lField_searchAt]; exact hfield))
      · -- the key has a larger index and is passed
        rw [if_neg heq]
        exact SkipFinds.of_gt hi (step_of_index_gt _ (by omega))
          (ih (by omega) (by omega) hj hfield)

/-- The search where the skip loop has ended. -/
def searchFrom (n : Bnode) : SkipEnd → Keysearch
  | .found r => r
  | .leave i ks =>
      let prevklen := dbeBkeyGetlength (n.key (bnodeGetkeyoffset n (i - 1)))
      if i = n.nCount then ⟨n.nLen, i, 1, prevklen, ks⟩
      else compareEach n (n.nCount - i) i (bnodeGetkeyoffset n i) 1 prevklen ks

theorem Bnode.Arrayed.searchFrom_finds (h : n.Arrayed rs) {e : SkipEnd}
    (he : SkipFinds k mode rs i j e) : Finds k mode rs i j (searchFrom n e) := by
  have hcount := h.nCount_eq
  cases e with
  | found r => exact he
  | leave i' ks =>
      obtain ⟨j', rfl, hlt, hpos, hle, hfinds⟩ := he
      apply hfinds
      obtain ⟨i'', rfl⟩ : ∃ i'', i' = i'' + 1 := ⟨i' - 1, by omega⟩
      have hprev := prevklenAt_succ hle
      rw [searchFrom, Nat.add_sub_cancel, h.getkeyoffset hle,
        h.toHolding.getlength (List.getElem_mem hle), ← hprev]
      split
      · rename_i hend
        rw [hcount] at hend
        rw [hend]
        exact Finds.of_end Int.one_pos
      · exact h.compareEach_finds (by omega) hlt Int.one_pos rfl

theorem bnodeKeysearchinfoSearch_of_gt {n : Bnode} {k : List UInt8} {mode : DbeBkeyCmp}
    (hmis : n.mismatcharray = true) {ks : DbeBkeySearch} {cmp : ℤ}
    (hstep : dbeBkeySearchStep (dbeBkeySearchInit k mode)
      (n.key (bnodeGetkeyoffset n 0)) = (cmp, ks)) (hcmp : ¬ cmp ≤ 0) :
    bnodeKeysearchinfoSearch n k mode = some (searchFrom n
      (if ks.ksSs.lField ≠ 0 then skipKeys n (n.nCount - 1) 1 ks else .leave 1 ks)) := by
  rw [bnodeKeysearchinfoSearch, if_neg (by simp [hmis]), hstep]
  dsimp only
  rw [if_neg hcmp]
  generalize (if ks.ksSs.lField ≠ 0 then skipKeys n (n.nCount - 1) 1 ks
    else SkipEnd.leave 1 ks) = e
  cases e with
  | found r => rfl
  | leave i ks =>
      simp only [searchFrom]
      split <;> rfl

theorem bnodeKeysearchinfoSearch_of_le {n : Bnode} {k : List UInt8} {mode : DbeBkeyCmp}
    (hmis : n.mismatcharray = true) {ks : DbeBkeySearch} {cmp : ℤ}
    (hstep : dbeBkeySearchStep (dbeBkeySearchInit k mode)
      (n.key (bnodeGetkeyoffset n 0)) = (cmp, ks)) (hcmp : cmp ≤ 0) :
    bnodeKeysearchinfoSearch n k mode = some ⟨bnodeGetkeyoffset n 0, 0, cmp, 0, ks⟩ := by
  rw [bnodeKeysearchinfoSearch, if_neg (by simp [hmis]), hstep]
  dsimp only
  rw [if_pos hcmp]

/-- `bnode_keysearchinfo_search` finds what the scan over all keys finds. -/
theorem Bnode.Arrayed.keysearchinfoSearch_finds (h : n.Arrayed rs) (hne : rs ≠ [])
    (k : Key) (mode : DbeBkeyCmp) :
    ∃ r, bnodeKeysearchinfoSearch n k.bytes mode = some r ∧ Finds k mode rs 0 0 r := by
  have hi : 0 < rs.length := List.length_pos_iff.mpr hne
  have hj := length_tupleSyms_pos k.vtpl_ne
  have hcount := h.nCount_eq
  obtain ⟨hsign, hks⟩ := h.toHolding.searchStep mode hi hj
  rw [← h.getkeyoffset hi, ← dbeBkeySearchInit_bytes] at hsign hks
  have hnext := step_snd_lt (headerTie mode k.header) rs[0].key hj
  generalize hstep : step (headerTie mode k.header) k.vtpl 0 rs[0].key = o at hsign hks hnext
  generalize hs : dbeBkeySearchStep (dbeBkeySearchInit k.bytes mode)
    (n.key (bnodeGetkeyoffset n 0)) = c at hsign hks
  obtain ⟨cmp, ks⟩ := c
  change ks = _ at hks
  change signOf cmp = _ at hsign
  have hsgt := signOf_eq_gt_iff cmp
  rw [hsign] at hsgt
  subst hks
  by_cases hle : cmp ≤ 0
  · refine ⟨_, bnodeKeysearchinfoSearch_of_le h.mismatcharray_eq hs hle, ?_⟩
    exact Finds.of_ne_gt hi hstep (fun ho => by have := hsgt.mp ho; omega) hsign
  · refine ⟨_, bnodeKeysearchinfoSearch_of_gt h.mismatcharray_eq hs hle, ?_⟩
    have ho : o.1 = .gt := hsgt.mpr (by omega)
    apply h.searchFrom_finds
    apply SkipFinds.of_gt hi (hstep.trans (Prod.ext ho rfl))
    split
    · rename_i hfield
      exact h.skipKeys_finds (by omega) Nat.one_pos hnext hfield
    · exact SkipFinds.leave_self Nat.one_pos hi hnext

end Scan

/-! ## The search and the plain scan -/

def prevklen (cks : List (List UInt8)) : ℕ → ℕ
  | 0 => 0
  | pos + 1 => (cks[pos]?.map List.length).getD 0

/-- The search of the node gives the position, the sign, the length of the previous
key and the search state of the scan over all its compressed keys. -/
def SearchesAsScan (n : Bnode) (cks : List (List UInt8)) (k : Key) (mode : DbeBkeyCmp) :
    Prop :=
  ∃ r, bnodeKeysearchinfoSearch n k.bytes mode = some r ∧
    let scan := dbeBkeySearchKeys (dbeBkeySearchInit k.bytes mode) cks
    r.pos = scan.1 ∧ r.cmp.sign = scan.2.1.sign ∧ r.prevklen = prevklen cks scan.1 ∧
      r.ks = scan.2.2

theorem prevklenAt_layOut (offset : ℕ) (ss : List StoredKey) (pos : ℕ) :
    prevklenAt (layOut offset ss) pos = prevklen (ss.map storedBytes) pos := by
  cases pos with
  | zero => rfl
  | succ pos =>
      have hmap : (layOut offset ss).map Record.length =
          (ss.map storedBytes).map List.length := by
        conv_rhs => rw [← map_key_layOut offset ss, List.map_map, List.map_map]
        rfl
      rw [prevklenAt, prevklen, ← List.getElem?_map, ← List.getElem?_map, hmap]

/-- The search with the mismatch array is the scan over all keys, whatever keys the
node held when the array was built. -/
theorem keysearchinfoSearch_eq_scan {n n' : Bnode} {ss : List StoredKey} (hss : ss ≠ [])
    (h : n.Plain ss) (hinit : bnodeKeysearchinfoInit true n = some (true, n')) (k : Key)
    (mode : DbeBkeyCmp) : SearchesAsScan n' (ss.map storedBytes) k mode := by
  have hne : layOut 0 ss ≠ [] := by
    intro hnil
    apply hss
    rw [← map_key_layOut 0 ss, hnil, List.map_nil]
  obtain ⟨r, hr, hfinds⟩ := (h.keysearchinfoInit hinit).keysearchinfoSearch_finds hne k mode
  have hscan := dbeBkeySearchKeys_searchAt k mode (length_tupleSyms_pos k.vtpl_ne)
    fun s hs => h.fits_of_mem hs
  rw [← dbeBkeySearchInit_bytes] at hscan
  obtain ⟨hpos, hcmp, hks, hprev⟩ := hfinds
  rw [List.drop_zero, map_key_layOut] at hpos hcmp hks
  rw [Nat.zero_add] at hpos
  refine ⟨r, hr, ?_⟩
  simp only
  rw [hscan.1, hscan.2.2, sign_eq_sign_iff, hscan.2.1, ← hpos,
    ← prevklenAt_layOut 0 ss]
  exact ⟨rfl, hcmp, hprev, hks⟩

def longField : List UInt8 := List.replicate 253 1

/-- The last two keys share 255 symbols. -/
def longKeys : List Key :=
  [oneFieldKey, leafKey 1 5 [longField, [2]] (List.cons_ne_nil _ _) (by decide +kernel),
    leafKey 1 5 [longField, [2, 3]] (List.cons_ne_nil _ _) (by decide +kernel)]

/-- The array has 255 for the last key, so its index is read from the key. -/
theorem keysearchinfoSearch_eq_scan_long :
    ∃ n, bnodeKeysearchinfoInit true (plainNode 1024 0 longKeys) = some (true, n) ∧
      n.nP (n.nKeysearchinfoArray + 8) = 255 ∧
      SearchesAsScan n ((frontCode [] (longKeys.map Key.entry)).map storedBytes)
        (leafKey 1 5 [longField, [2, 2]] (List.cons_ne_nil _ _) (by decide +kernel)) .all := by
  have hinit : (bnodeKeysearchinfoInit true (plainNode 1024 0 longKeys)).map
      (fun r => (r.1, r.2.nP (r.2.nKeysearchinfoArray + 8))) = some (true, 255) := by
    decide +kernel
  obtain ⟨⟨built, n⟩, hn, heq⟩ := Option.map_eq_some_iff.mp hinit
  obtain ⟨rfl, hindex⟩ := Prod.mk.inj heq
  have hplain := @plainNode_plain 1024 0 longKeys (by decide +kernel)
  have hne : frontCode [] (longKeys.map Key.entry) ≠ [] := List.cons_ne_nil _ _
  exact ⟨n, hn, hindex, keysearchinfoSearch_eq_scan hne hplain hn _ .all⟩

end SolidDB
