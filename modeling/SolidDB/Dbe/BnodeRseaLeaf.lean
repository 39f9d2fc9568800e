import SolidDB.Dbe.BnodeGetunique
import SolidDB.Dbe.BnodeRseaExact
import SolidDB.Foundation.LeafScan

/-!
# Moving over the keys of a leaf

What `dbe_bnode_rsea_next` and `dbe_bnode_rsea_prev` return in a leaf with the keys
`ks`: the key behind, respectively before, the position, with the answer of the range
check. Over the records of a leaf the calls do what they do over its block.
-/

namespace SolidDB

open LeafScan

variable {base : ℕ} {ks : List (KeyIn base)} {v : KrsView base} {s : RseaState}

structure RseaState.Fresh (s : RseaState) (ks : List (KeyIn base)) (v : KrsView base) :
    Prop where
  nrs : s.nrs = dbeBnodeRseaInitst (recordsOf ks)
  shows : s.krs.Shows v

/-- The search in a leaf stands at position `i`, with the key there as the current one. -/
structure RseaState.At (s : RseaState) (ks : List (KeyIn base)) (v : KrsView base) (i : ℕ) :
    Prop where
  keys : s.nrs.nrsKeys = recordsOf ks
  initialized : s.nrs.nrsInitialized = true
  index : s.nrs.nrsIndex = i
  index_le : i ≤ ks.length
  shows : s.krs.Shows v
  isbegin : v.isbegin = false
  srk : ∀ x, ks[i]? = some x → s.srk = x.1.bytes
  saved : ∀ j, s.nrs.nrsSaveindex = some j →
    ∃ x, ks[j]? = some x ∧ s.nrs.nrsSavekey = some x.1.bytes

def KrsView.endRc (v : KrsView base) (x : KeyIn base) : DbeRet :=
  if v.next.isSome || withinEnd KeyIn.rank v.ke.rank v.keOpen x then .found else .ended

def KrsView.beginRc (v : KrsView base) (x : KeyIn base) : DbeRet :=
  if v.prev.isSome || decide (v.kb.rank ≤ x.rank) then .found else .ended

theorem rseaCheckend_eq (h : s.krs.Shows v) {x : KeyIn base} (hx : s.srk = x.1.bytes) :
    rseaCheckend s = (v.endRc x, s) := by
  have hcheck := h.checkrangeend x
  rw [rseaCheckend, hx, KrsView.endRc]
  cases hrc : dbeBkrsCheckrangeend s.krs x.1.bytes with
  | cont =>
      have hor := hcheck.mp hrc
      rw [if_pos]
      rw [withinEnd, Bool.or_eq_true]
      cases hopn : v.keOpen <;> simpa [hopn] using hor
  | stop =>
      have hor := mt hcheck.mpr (by rw [hrc]; exact BkrsRc.noConfusion)
      rw [if_neg]
      rw [withinEnd, Bool.or_eq_true]
      cases hopn : v.keOpen <;> simpa [hopn] using hor

theorem rseaCheckbegin_eq (h : s.krs.Shows v) {x : KeyIn base} (hx : s.srk = x.1.bytes) :
    rseaCheckbegin s = (v.beginRc x, s) := by
  have hcheck := h.checkrangebegin x
  rw [rseaCheckbegin, hx, KrsView.beginRc]
  cases hrc : dbeBkrsCheckrangebegin s.krs x.1.bytes with
  | cont =>
      rw [if_pos]
      simpa using hcheck.mp hrc
  | stop =>
      rw [if_neg]
      simpa using mt hcheck.mpr (by rw [hrc]; exact BkrsRc.noConfusion)

/-! ## The first position -/

/-- `bnode_rsea_nextorprevinit` stops at the first key that is not below the begin key
of the step. -/
theorem bnodeRseaNextorprevinit_spec (hkeys : s.nrs.nrsKeys = recordsOf ks)
    (hinit : s.nrs.nrsInitialized = true) (hindex : s.nrs.nrsIndex = 0)
    (hsave : s.nrs.nrsSaveindex = none) (hshows : s.krs.Shows v) (hsort : Ordered ks)
    (hclear : SearchClear v.kcb ks) :
    ∃ lo hi c s', ks = lo ++ hi ∧ (∀ x ∈ lo, x.rank < v.kcb.rank) ∧
      (∀ x ∈ hi, v.kcb.rank ≤ x.rank) ∧ bnodeRseaNextorprevinit s = some (c, s') ∧
      s'.At ks v.clearbegin lo.length ∧
      (hi = [] → c = none) ∧
      ∀ x, hi.head? = some x → ∃ cmp, c = some cmp ∧ cmp ≤ 0 ∧
        (cmp = 0 ↔ x.rank = v.kcb.rank) := by
  obtain ⟨lo, hi, cmp, st, hks, hsearch, hstop⟩ := searchKeys_stopsAt hsort hclear
  have hlen : s.nrs.nrsKeys.length = ks.length := by rw [hkeys, length_recordsOf]
  have hend : lo.length ≤ ks.length := by rw [hks, List.length_append]; exact Nat.le_add_right _ _
  unfold bnodeRseaNextorprevinit
  by_cases hzero : s.nrs.nrsKeys.length = 0
  · have hnil : ks = [] := List.length_eq_zero_iff.mp (hlen.symm.trans hzero)
    rw [hnil] at hks
    obtain ⟨rfl, rfl⟩ := List.append_eq_nil_iff.mp hks.symm
    refine ⟨[], [], none, { s with krs := dbeBkrsClearbegin s.krs }, hks ▸ hnil, hstop.below,
      hstop.above, if_pos hzero, ?_, fun _ => rfl, by simp⟩
    exact ⟨hkeys, hinit, hindex, Nat.zero_le _, hshows.clearbegin, rfl,
      fun x hx => by rw [hnil] at hx; exact absurd hx.symm (Option.some_ne_none x),
      fun j hj => absurd (hj.symm.trans hsave) (Option.some_ne_none j)⟩
  · rw [if_neg hzero, hshows.kcb, hkeys, hsearch]
    cases hi with
    | nil =>
        have hnone : (recordsOf ks)[lo.length]? = none := by
          apply getElem?_recordsOf_of_le
          rw [hks, List.append_nil]
        simp only [hkeys, hnone]
        refine ⟨lo, [], none, _, hks, hstop.below, hstop.above, rfl, ?_, fun _ => rfl,
          by simp⟩
        refine ⟨rfl, hinit, rfl, hend, hshows.clearbegin, rfl, fun x hx => ?_,
          fun j hj => absurd (hj.symm.trans hsave) (Option.some_ne_none j)⟩
        rw [List.append_nil] at hks
        rw [hks, List.getElem?_eq_none_iff.mpr (le_refl _)] at hx
        exact absurd hx.symm (Option.some_ne_none x)
    | cons x hi =>
        obtain ⟨ck, hck, hexp⟩ := expand_record (t := hi)
          (fun y hy => (hstop.below y hy).le) (hstop.above x List.mem_cons_self)
        rw [← hks] at hck
        simp only [hkeys, hck, hexp, Option.map_some]
        refine ⟨lo, x :: hi, some cmp, _, hks, hstop.below, hstop.above, rfl, ?_,
          fun h => absurd h (List.cons_ne_nil x hi), ?_⟩
        · refine ⟨rfl, hinit, rfl, hend, hshows.clearbegin, rfl, fun y hy => ?_,
            fun j hj => absurd (hj.symm.trans hsave) (Option.some_ne_none j)⟩
          have hxi : ks[lo.length]? = some x := by
            rw [hks, List.getElem?_append_right (le_refl _), Nat.sub_self]
            rfl
          rw [Option.some.inj (hxi.symm.trans hy)]
        · intro y hy
          obtain rfl := Option.some.inj hy
          exact ⟨cmp, rfl, hstop.nonpos (List.cons_ne_nil _ _), hstop.zero _ rfl⟩

/-! ## Forward -/

/-- The first call in a leaf gives the first key that is not below the begin key. -/
theorem dbeBnodeRseaNext_fresh (h : s.Fresh ks v) (hbegin : v.isbegin = true)
    (hsort : Ordered ks) (hclear : SearchClear v.kcb ks) :
    ∃ lo hi s', ks = lo ++ hi ∧ (∀ x ∈ lo, x.rank < v.kcb.rank) ∧
      (∀ x ∈ hi, v.kcb.rank ≤ x.rank) ∧
      dbeBnodeRseaNext s = some (hi.head?.elim .notfound v.clearbegin.endRc, s') ∧
      s'.At ks v.clearbegin lo.length := by
  have hisbegin : s.krs.krsBegin = true := h.shows.isbegin.trans hbegin
  have hninit : s.nrs.nrsInitialized = false := by rw [h.nrs]; rfl
  obtain ⟨lo, hi, c, s', hks, hlo, hhi, heq, hat, hnone, hsome⟩ :=
    bnodeRseaNextorprevinit_spec
      (s := { s with nrs := { s.nrs with nrsInitialized := true, nrsIndex := 0 } })
      (by rw [h.nrs]; rfl) rfl rfl (by rw [h.nrs]; rfl) h.shows hsort hclear
  refine ⟨lo, hi, s', hks, hlo, hhi, ?_, hat⟩
  rw [dbeBnodeRseaNext, hninit, Bool.not_false, if_pos rfl, if_pos hisbegin, heq]
  cases hi with
  | nil =>
      obtain rfl := hnone rfl
      rfl
  | cons x hi =>
      obtain ⟨cmp, rfl, -, -⟩ := hsome x rfl
      have hxi : ks[lo.length]? = some x := by
        rw [hks, List.getElem?_append_right (le_refl _), Nat.sub_self]
        rfl
      exact congrArg some (rseaCheckend_eq hat.shows (hat.srk x hxi))

theorem RseaState.At.next {i : ℕ} (h : s.At ks v i) :
    ∃ s', dbeBnodeRseaNext s = some (ks[i + 1]?.elim .notfound v.endRc, s') ∧
      s'.At ks v (min (i + 1) ks.length) := by
  have hlen : s.nrs.nrsKeys.length = ks.length := by rw [h.keys, length_recordsOf]
  rw [dbeBnodeRseaNext, h.initialized, Bool.not_true, if_neg Bool.false_ne_true, h.index, hlen]
  by_cases hend : i = ks.length
  · have hnone : ks[i + 1]? = none :=
      List.getElem?_eq_none_iff.mpr (hend ▸ Nat.le_succ _)
    have hmin : min (i + 1) ks.length = i := by omega
    rw [if_pos hend, hnone, hmin]
    exact ⟨s, rfl, h⟩
  · have hlt : i < ks.length := lt_of_le_of_ne h.index_le hend
    have hmin : min (i + 1) ks.length = i + 1 := by omega
    rw [if_neg hend, hmin]
    simp only [h.keys]
    cases hx : ks[i + 1]? with
    | none =>
        have hrec := getElem?_recordsOf_of_le (List.getElem?_eq_none_iff.mp hx)
        simp only [hrec]
        exact ⟨_, rfl, { h with
          keys := rfl
          index := rfl
          index_le := hlt
          srk := fun x hx' => absurd (hx'.symm.trans hx) (Option.some_ne_none x) }⟩
    | some x =>
        have hp := List.getElem?_eq_getElem hlt
        obtain ⟨ck, hck, hexp⟩ := expand_next_record hp hx
        rw [← h.srk _ hp] at hexp
        simp only [hck, hexp, Option.map_some]
        have hat : RseaState.At { s with
            nrs := { s.nrs with nrsKeys := recordsOf ks, nrsIndex := i + 1 }
            srk := x.1.bytes } ks v (i + 1) :=
          { h with
            keys := rfl
            index := rfl
            index_le := hlt
            srk := fun y hy => by rw [Option.some.inj (hx.symm.trans hy)] }
        exact ⟨_, congrArg some (rseaCheckend_eq hat.shows rfl), hat⟩

/-! ## Backward -/

def SavedIn (r : BnodeRsea) (ks : List (KeyIn base)) : Prop :=
  ∀ j, r.nrsSaveindex = some j → ∃ x, ks[j]? = some x ∧ r.nrsSavekey = some x.1.bytes

structure Walked (r r' : BnodeRsea) (ks : List (KeyIn base)) : Prop where
  keys : r'.nrsKeys = r.nrsKeys
  index : r'.nrsIndex = r.nrsIndex
  initialized : r'.nrsInitialized = r.nrsInitialized
  saved : SavedIn r' ks

theorem rseaWalk_spec (new : Option ℕ) {n i : ℕ} {r : BnodeRsea} {x y : KeyIn base}
    (hkeys : r.nrsKeys = recordsOf ks) (hsaved : SavedIn r ks) (hx : ks[i]? = some x)
    (hy : ks[i + n]? = some y) :
    ∃ r', rseaWalk new n i r x.1.bytes = some (r', y.1.bytes) ∧ Walked r r' ks := by
  induction n generalizing i r x with
  | zero =>
      obtain rfl := Option.some.inj (hx.symm.trans hy)
      exact ⟨r, rfl, rfl, rfl, rfl, hsaved⟩
  | succ n ih =>
      have hlt : i + (n + 1) < ks.length := (List.getElem?_eq_some_iff.mp hy).1
      have hx' : ks[i + 1]? = some ks[i + 1] := List.getElem?_eq_getElem (by omega)
      have hy' : ks[i + 1 + n]? = some y := by
        rw [Nat.add_assoc, Nat.add_comm 1 n]
        exact hy
      obtain ⟨ck, hck, hexp⟩ := expand_next_record hx hx'
      rw [← hkeys] at hck
      rw [rseaWalk]
      by_cases hnew : new = some i
      · have hsaved' : SavedIn { r with
            nrsSaveindex := some i, nrsSavekey := some x.1.bytes } ks := by
          intro j hj
          obtain rfl := Option.some.inj hj
          exact ⟨x, hx, rfl⟩
        obtain ⟨r', hw, hwalked⟩ := ih (r := { r with
          nrsSaveindex := some i, nrsSavekey := some x.1.bytes }) hkeys hsaved' hx' hy'
        refine ⟨r', ?_, hwalked.keys, hwalked.index, hwalked.initialized, hwalked.saved⟩
        rw [if_pos hnew]
        rw [hck, Option.bind_some, hexp, Option.bind_some]
        exact hw
      · obtain ⟨r', hw, hwalked⟩ := ih hkeys hsaved hx' hy'
        refine ⟨r', ?_, hwalked⟩
        rw [if_neg hnew]
        rw [hck, Option.bind_some, hexp, Option.bind_some]
        exact hw

/-- From the saved key or from the first one the walk leads to the position. -/
theorem rseaWalkToIndex_spec {r : BnodeRsea} {x : KeyIn base}
    (hkeys : r.nrsKeys = recordsOf ks) (hsaved : SavedIn r ks)
    (hx : ks[r.nrsIndex]? = some x) :
    ∃ r', rseaWalkToIndex r = some (r', x.1.bytes) ∧ Walked r r' ks := by
  have hfirst (new : Option ℕ) : ∃ r',
      r.nrsKeys[0]?.bind (rseaWalk new r.nrsIndex 0 r) = some (r', x.1.bytes) ∧
        Walked r r' ks := by
    cases ks with
    | nil => exact absurd hx.symm (Option.some_ne_none x)
    | cons k ks =>
        rw [hkeys, recordsOf_zero, Option.bind_some]
        exact rseaWalk_spec new (i := 0) hkeys hsaved rfl (by rw [Nat.zero_add]; exact hx)
  unfold rseaWalkToIndex
  cases hsave : r.nrsSaveindex with
  | none => exact hfirst _
  | some j =>
      by_cases hle : j ≤ r.nrsIndex
      · obtain ⟨y, hy, hkey⟩ := hsaved j hsave
        simp only [if_pos hle, hkey, Option.bind_some]
        exact rseaWalk_spec none hkeys hsaved hy (by
          rw [Nat.add_sub_cancel' hle]
          exact hx)
      · simp only [if_neg hle]
        exact hfirst _

theorem RseaState.At.movetoprev_zero (h : s.At ks v 0) :
    rseaMovetoprev s = some (.notfound, s) := by
  rw [rseaMovetoprev, h.index, if_pos rfl]

theorem RseaState.At.movetoprev {i : ℕ} (h : s.At ks v (i + 1)) {x : KeyIn base}
    (hx : ks[i]? = some x) :
    ∃ s', rseaMovetoprev s = some (v.beginRc x, s') ∧ s'.At ks v i := by
  obtain ⟨r', hw, hwalked⟩ := rseaWalkToIndex_spec (r := { s.nrs with nrsIndex := i })
    h.keys h.saved hx
  have hat : RseaState.At { s with nrs := r', srk := x.1.bytes } ks v i :=
    { keys := hwalked.keys.trans h.keys
      initialized := hwalked.initialized.trans h.initialized
      index := hwalked.index
      index_le := (List.getElem?_eq_some_iff.mp hx).1.le
      shows := h.shows
      isbegin := h.isbegin
      srk := fun y hy => by rw [Option.some.inj (hx.symm.trans hy)]
      saved := hwalked.saved }
  refine ⟨_, ?_, hat⟩
  rw [rseaMovetoprev, h.index, if_neg (Nat.succ_ne_zero i), Nat.add_sub_cancel, hw,
    Option.map_some]
  exact congrArg some (rseaCheckbegin_eq hat.shows rfl)

theorem RseaState.At.prev {i : ℕ} (h : s.At ks v i) :
    dbeBnodeRseaPrev s = rseaMovetoprev s := by
  rw [dbeBnodeRseaPrev, h.initialized]
  rfl

/-- The first call in a leaf that is entered backward starts behind its last key. -/
theorem RseaState.Fresh.prev (h : s.Fresh ks v) (hbegin : v.isbegin = false) :
    ∃ s', dbeBnodeRseaPrev s = rseaMovetoprev s' ∧ s'.At ks v ks.length := by
  have hisbegin : s.krs.krsBegin = false := h.shows.isbegin.trans hbegin
  have hninit : s.nrs.nrsInitialized = false := by rw [h.nrs]; rfl
  refine ⟨{ s with nrs := { s.nrs with
    nrsInitialized := true, nrsIndex := s.nrs.nrsKeys.length } }, ?_, ?_⟩
  · rw [dbeBnodeRseaPrev, hninit, hisbegin]
    rfl
  · have hkeys : s.nrs.nrsKeys = recordsOf ks := by rw [h.nrs]; rfl
    exact
      { keys := hkeys
        initialized := rfl
        index := by rw [hkeys, length_recordsOf]
        index_le := le_refl _
        shows := h.shows
        isbegin := hbegin
        srk := fun x hx => by
          rw [List.getElem?_eq_none_iff.mpr (le_refl _)] at hx
          exact absurd hx.symm (Option.some_ne_none x)
        saved := fun j hj => by
          rw [h.nrs] at hj
          exact absurd hj.symm (Option.some_ne_none j) }

/-!
## Over the block of the leaf

The calls over the records of a leaf are those over its block, without the pointers.
-/

namespace NodeSearch

open FrontCoding

variable {n : Bnode} {rs : List Record} {ks : List Key} {krs : Bkrs} {s : NodeSearch}
  {i : ℕ} {q : Key}

def recordBytes (rs : List Record) : List (List UInt8) := (rs.map Record.key).map storedBytes

def overRecords (rs : List Record) (s : NodeSearch) : RseaState where
  nrs := ⟨recordBytes rs, s.nrs.nrsIndex, s.nrs.nrsInitialized, s.nrs.nrsSaveindex,
    s.nrs.nrsSavekey⟩
  krs := s.nrs.nrsKrs
  srk := s.srk

/-- The result of a call, with the search over the records. -/
def resultOver (rs : List Record) (r : DbeRet × NodeSearch) : DbeRet × RseaState :=
  (r.1, r.2.overRecords rs)

theorem getElem?_recordBytes {r : Record} (hr : rs[i]? = some r) :
    (recordBytes rs)[i]? = some (storedBytes r.key) := by
  rw [recordBytes, List.getElem?_map, List.getElem?_map, hr]
  rfl

theorem length_recordBytes (h : n.StoresKeys rs ks) : (recordBytes rs).length = ks.length := by
  rw [recordBytes, List.length_map, List.length_map, h.length_eq]

theorem expand_recordBytes (h : n.StoresKeys rs ks) {r : Record} {p x : Key}
    (hr : rs[i + 1]? = some r) (hp : ks[i]? = some p) (hx : ks[i + 1]? = some x) :
    dbeBkeyExpand p.bytes (storedBytes r.key) = some x.bytes := by
  obtain ⟨r', hr', hs, -⟩ := h.getElem? hx
  obtain rfl := Option.some.inj (hr.symm.trans hr')
  obtain ⟨hi, rfl⟩ := List.getElem?_eq_some_iff.mp hp
  obtain ⟨hi', rfl⟩ := List.getElem?_eq_some_iff.mp hx
  have hle : ks[i].vtpl ≤ ks[i + 1].vtpl :=
    vtpl_le_of_compare_lt (List.isChain_iff_getElem.mp h.ascending i hi')
  rw [List.take_succ_eq_append_getElem hi, lastVtpl_concat] at hs
  have hexp := hs.expand_between le_rfl hle []
  rw [List.append_nil] at hexp
  exact hexp

theorem checkend_overRecords (rs : List Record) (s : NodeSearch) :
    rseaCheckend (s.overRecords rs) = resultOver rs (nodeCheckend s) := by
  rw [rseaCheckend, nodeCheckend, overRecords]
  cases dbeBkrsCheckrangeend s.nrs.nrsKrs s.srk <;> rfl

theorem checkbegin_overRecords (rs : List Record) (s : NodeSearch) :
    rseaCheckbegin (s.overRecords rs) = resultOver rs (nodeCheckbegin s) := by
  rw [rseaCheckbegin, nodeCheckbegin, overRecords]
  cases dbeBkrsCheckrangebegin s.nrs.nrsKrs s.srk <;> rfl

theorem walk_overRecords (h : n.StoresKeys rs ks) (new : Option ℕ) (left : ℕ) {j : ℕ}
    (hc : s.Cursor n rs ks krs i) (hp : s.Points rs ks j) (hlt : j + left < ks.length) :
    rseaWalk new left j (s.overRecords rs).nrs s.srk =
      (nodeWalk new left j s).map fun s' => ((s'.overRecords rs).nrs, s'.srk) := by
  induction left generalizing j s with
  | zero => rfl
  | succ left ih =>
      have hc' := hc.save new hp
      obtain ⟨r, x, hr, hx, hkeys, hsrk⟩ := hp.save new
      have hx' : ks[j + 1]? = some ks[j + 1] := List.getElem?_eq_getElem (by omega)
      obtain ⟨r', hr', -⟩ := h.getElem? hx'
      have hnext : bnodeNextkey (nodeSave new j s).nrs.nrsN (j + 1)
          (nodeSave new j s).nrs.nrsKeys = r'.offset := by
        rw [hc'.node, hkeys]
        exact h.stores.nextkey hr hr'
      have hexp : dbeBkeyExpand (nodeSave new j s).srk
          ((nodeSave new j s).nrs.nrsN.key r'.offset) = some ks[j + 1].bytes := by
        rw [hc'.node, hsrk]
        exact h.expand_next hr' hx hx'
      have hsave : (if new = some j then
          { (s.overRecords rs).nrs with nrsSaveindex := some j, nrsSavekey := some s.srk }
          else (s.overRecords rs).nrs) = ((nodeSave new j s).overRecords rs).nrs := by
        rw [nodeSave]
        split <;> rfl
      have hsame : (nodeSave new j s).srk = s.srk := by
        rw [nodeSave]
        split <;> rfl
      have hrec : ((nodeSave new j s).overRecords rs).nrs.nrsKeys[j + 1]? =
          some (storedBytes r'.key) := getElem?_recordBytes hr'
      have hexp' : dbeBkeyExpand s.srk (storedBytes r'.key) = some ks[j + 1].bytes := by
        rw [← hsame, hsrk]
        exact expand_recordBytes h hr' hx hx'
      have hrest := ih (j := j + 1)
        (s := ⟨{ (nodeSave new j s).nrs with nrsKeys := r'.offset }, ks[j + 1].bytes⟩)
        ⟨hc'.node, hc'.count, hc'.initialized, hc'.index, hc'.range, hc'.saved⟩
        ⟨r', _, hr', hx', rfl, rfl⟩ (by omega)
      rw [rseaWalk, nodeWalk]
      simp only
      rw [hsave, hrec, Option.bind_some, hexp', Option.bind_some, hnext, hexp, Option.bind_some]
      exact hrest

theorem walkToIndex_overRecords (h : n.StoresKeys rs ks) (hc : s.Cursor n rs ks krs i)
    (hlt : i < ks.length) :
    rseaWalkToIndex (s.overRecords rs).nrs =
      (nodeWalkToIndex s).map fun s' => ((s'.overRecords rs).nrs, s'.srk) := by
  have hx : ks[0]? = some ks[0] := List.getElem?_eq_getElem (by omega)
  obtain ⟨r, hr, hs, -⟩ := h.getElem? hx
  have hfirst : (s.overRecords rs).nrs.nrsKeys[0]?.bind
        (rseaWalk (if i / 10 * 10 = 0 then none else some (i / 10 * 10)) i 0
          (s.overRecords rs).nrs) =
      (nodeWalkFromFirst s).map fun s' => ((s'.overRecords rs).nrs, s'.srk) := by
    have hwalk := walk_overRecords h (if i / 10 * 10 = 0 then none else some (i / 10 * 10)) i
      (j := 0) (s := ⟨{ s.nrs with nrsKeys := r.offset }, ks[0].bytes⟩)
      ⟨hc.node, hc.count, hc.initialized, hc.index, hc.range, hc.saved⟩
      ⟨r, _, hr, hx, rfl, rfl⟩ (by omega)
    have hrec : (s.overRecords rs).nrs.nrsKeys[0]? = some ks[0].bytes := by
      rw [← hs.eq_of_nil]
      exact getElem?_recordBytes hr
    rw [hrec, Option.bind_some, nodeWalkFromFirst, hc.index, hc.node, h.stores.firstkey hr,
      h.copy_first hr hx]
    exact hwalk
  obtain rfl := hc.index
  have hsaved : (s.overRecords rs).nrs.nrsSaveindex = s.nrs.nrsSaveindex := rfl
  have hindex : (s.overRecords rs).nrs.nrsIndex = s.nrs.nrsIndex := rfl
  rw [rseaWalkToIndex, nodeWalkToIndex]
  simp only [hsaved, hindex]
  split
  next j hsave =>
    by_cases hle : j ≤ s.nrs.nrsIndex
    · rw [if_pos hle, if_pos hle]
      obtain ⟨r', x, hr', hx', hpos, hkey⟩ := hc.saved j hsave
      have hblock (f : List UInt8 → Option NodeSearch) : s.nrs.nrsSavekey.bind f = f x.bytes := by
        rw [hkey, Option.bind_some]
      have hlist (f : List UInt8 → Option (BnodeRsea × List UInt8)) :
          (s.overRecords rs).nrs.nrsSavekey.bind f = f x.bytes :=
        (congrArg (Option.bind · f) hkey).trans (Option.bind_some x.bytes f)
      rw [hblock, hlist]
      exact walk_overRecords h none (s.nrs.nrsIndex - j) (j := j)
        (s := ⟨{ s.nrs with nrsKeys := s.nrs.nrsSavepos }, x.bytes⟩)
        ⟨hc.node, hc.count, hc.initialized, hc.index, hc.range, hc.saved⟩
        ⟨r', x, hr', hx', hpos, rfl⟩ (by omega)
    · rw [if_neg hle, if_neg hle]
      exact hfirst
  next => exact hfirst

theorem krs_nodeWalk {new : Option ℕ} {left j : ℕ} {s' : NodeSearch}
    (hwalk : nodeWalk new left j s = some s') : s'.nrs.nrsKrs = s.nrs.nrsKrs := by
  induction left generalizing j s with
  | zero =>
      obtain rfl := Option.some.inj hwalk
      rfl
  | succ left ih =>
      rw [nodeWalk] at hwalk
      obtain ⟨srk, -, hrest⟩ := Option.bind_eq_some_iff.mp hwalk
      have hkrs : (nodeSave new j s).nrs.nrsKrs = s.nrs.nrsKrs := by
        rw [nodeSave]
        split <;> rfl
      exact (ih hrest).trans hkrs

theorem krs_nodeWalkToIndex {s' : NodeSearch} (hwalk : nodeWalkToIndex s = some s') :
    s'.nrs.nrsKrs = s.nrs.nrsKrs := by
  rw [nodeWalkToIndex] at hwalk
  split at hwalk
  · split at hwalk
    · obtain ⟨k, -, hrest⟩ := Option.bind_eq_some_iff.mp hwalk
      have hkrs := krs_nodeWalk hrest
      exact hkrs
    · rw [nodeWalkFromFirst] at hwalk
      have hkrs := krs_nodeWalk hwalk
      exact hkrs
  · rw [nodeWalkFromFirst] at hwalk
    have hkrs := krs_nodeWalk hwalk
    exact hkrs

theorem movetoprev_overRecords (h : n.StoresKeys rs ks) (hc : s.Cursor n rs ks krs i)
    (hle : i ≤ ks.length) :
    rseaMovetoprev (s.overRecords rs) = (nodeMovetoprev s).map (resultOver rs) := by
  have hindex : (s.overRecords rs).nrs.nrsIndex = i := hc.index
  rw [rseaMovetoprev, nodeMovetoprev, hindex, hc.index]
  by_cases hi : i = 0
  · rw [if_pos hi, if_pos hi]
    rfl
  · have hc' : NodeSearch.Cursor n rs ks krs (i - 1)
        { s with nrs := { s.nrs with nrsIndex := i - 1 } } :=
      ⟨hc.node, hc.count, hc.initialized, rfl, hc.range, hc.saved⟩
    have hwalk := walkToIndex_overRecords h hc' (by omega)
    obtain ⟨s', hs', -⟩ := walkToIndex_spec h hc' (by omega)
    have hkrs := krs_nodeWalkToIndex hs'
    change s'.nrs.nrsKrs = s.nrs.nrsKrs at hkrs
    have hstate : RseaState.mk (s'.overRecords rs).nrs s.nrs.nrsKrs s'.srk = s'.overRecords rs := by
      rw [← hkrs]
      rfl
    rw [hs', Option.map_some] at hwalk
    rw [if_neg hi, if_neg hi, hs']
    change (rseaWalkToIndex (overRecords rs
      { s with nrs := { s.nrs with nrsIndex := i - 1 } }).nrs).map _ = _
    rw [hwalk, Option.map_some, Option.map_some, Option.map_some, ← checkbegin_overRecords,
      ← hstate]
    rfl

/-! ### Calls -/

theorem At.next_overRecords (h : n.StoresKeys rs ks) (hat : s.At n rs ks krs i) :
    dbeBnodeRseaNext (s.overRecords rs) = (nodeRseaNext s).map (resultOver rs) := by
  obtain ⟨r, x, hr, hx, hkeys, hsrk⟩ := hat.points
  have hinit : (s.overRecords rs).nrs.nrsInitialized = true := hat.initialized
  have hindex : (s.overRecords rs).nrs.nrsIndex = i := hat.index
  have hlen : (s.overRecords rs).nrs.nrsKeys.length = ks.length := length_recordBytes h
  have hlt : i < ks.length := (List.getElem?_eq_some_iff.mp hx).1
  rw [dbeBnodeRseaNext, nodeRseaNext, hinit, hindex, hlen, hat.initialized, hat.index, hat.count,
    hat.node]
  simp only [Bool.not_true, Bool.false_eq_true, if_false]
  rw [if_neg hlt.ne, if_neg hlt.ne]
  by_cases hend : i + 1 = ks.length
  · have hnone : (s.overRecords rs).nrs.nrsKeys[i + 1]? = none :=
      List.getElem?_eq_none_iff.mpr (hlen.trans hend.symm).le
    rw [if_pos hend, hnone]
    rfl
  · have hx' : ks[i + 1]? = some ks[i + 1] := List.getElem?_eq_getElem (by omega)
    obtain ⟨r', hr', -⟩ := h.getElem? hx'
    have hrec : (s.overRecords rs).nrs.nrsKeys[i + 1]? = some (storedBytes r'.key) :=
      getElem?_recordBytes hr'
    have hsrk' : (s.overRecords rs).srk = x.bytes := hsrk
    rw [if_neg hend, hrec, hkeys, h.stores.nextkey hr hr', hsrk, h.expand_next hr' hx hx']
    simp only
    rw [hsrk', expand_recordBytes h hr' hx hx', Option.map_some, Option.map_some, Option.map_some,
      ← checkend_overRecords]
    rfl

theorem At.prev_overRecords (h : n.StoresKeys rs ks) (hat : s.At n rs ks krs i) :
    dbeBnodeRseaPrev (s.overRecords rs) = (nodeRseaPrev s).map (resultOver rs) := by
  obtain ⟨x, hx⟩ := hat.getElem?
  have hinit : (s.overRecords rs).nrs.nrsInitialized = true := hat.initialized
  rw [hat.toCursor.prev_eq, dbeBnodeRseaPrev, hinit]
  exact movetoprev_overRecords h hat.toCursor (List.getElem?_eq_some_iff.mp hx).1.le

theorem search_recordBytes (h : n.StoresKeys rs ks) (hne : ks ≠ []) (q : Key) :
    let r := dbeBkeySearchKeys (dbeBkeySearchInit q.bytes .all) (recordBytes rs)
    r.1 = (bnodeSearch n q.bytes .all).pos ∧
      signOf r.2.1 = signOf (bnodeSearch n q.bytes .all).cmp ∧
      (r.1 < ks.length → ∃ r' x, rs[r.1]? = some r' ∧ ks[r.1]? = some x ∧
        dbeBkeyExpand q.bytes (storedBytes r'.key) = some x.bytes ∧
        dbeBkeyExpand q.bytes (n.key r'.offset) = some x.bytes) := by
  intro r
  have hfits : ∀ s ∈ rs.map Record.key, StoredFits s := by
    intro s hs
    obtain ⟨r', hr', rfl⟩ := List.mem_map.mp hs
    exact h.stores.holding.fits r' hr'
  have hkeys := dbeBkeySearchKeys_searchAt q .all (length_tupleSyms_pos q.vtpl_ne) hfits
  rw [← dbeBkeySearchInit_bytes] at hkeys
  obtain ⟨hpos, hsign, -⟩ := hkeys
  have hscan := h.search_scan hne q .all
  have hend := h.search_pos hne q .all
  refine ⟨hpos.trans hscan.1.symm, hsign.trans hscan.2.symm, fun hlt => ?_⟩
  have hgt : (scan (step (headerTie .all q.header) q.vtpl) 0 (rs.map Record.key)).2.1 ≠ .gt := by
    rw [← hscan.2, Ne, signOf_eq_gt_iff, hend.2, hscan.1, ← hpos]
    exact hlt.ne
  obtain ⟨s, x, hs, hx, hexpand⟩ := h.keys.expand_of_scan h.ascending q .all hgt
  rw [← hpos] at hs hx
  obtain ⟨r', hr', -, t, ht⟩ := h.getElem? hx
  rw [List.getElem?_map, hr'] at hs
  obtain rfl : r'.key = s := Option.some.inj hs
  have hself := hexpand []
  rw [List.append_nil] at hself
  exact ⟨r', x, hr', hx, hself, by rw [ht, hexpand]⟩

/-- What `bnode_rsea_nextorprevinit` finds over the records and over the block. -/
theorem init_overRecords (h : n.StoresKeys rs ks) (hq : krs.krsKcb = q.bytes) (srk : List UInt8) :
    ∃ c c' s', nodeRseaNextorprevinit (entered n krs srk) = some (c, s') ∧
      bnodeRseaNextorprevinit ((entered n krs srk).overRecords rs) =
        some (c', s'.overRecords rs) ∧
      c'.map signOf = c.map signOf ∧ ∃ i ≤ ks.length, s'.Cursor n rs ks krs i := by
  have hlen : (recordBytes rs).length = ks.length := length_recordBytes h
  have hkcb : ((entered n krs srk).overRecords rs).krs.krsKcb = q.bytes := hq
  have hkeys : ((entered n krs srk).overRecords rs).nrs.nrsKeys = recordBytes rs := rfl
  rcases eq_or_ne ks [] with rfl | hne
  · obtain ⟨s', hinit, hcur⟩ := init_nil krs h srk
    have hcount : n.nCount = 0 := h.nCount_eq
    refine ⟨none, none, s', hinit, ?_, rfl, 0, le_rfl, hcur⟩
    have hs' : nodeRseaNextorprevinit (entered n krs srk) = some (none, _) := if_pos hcount
    obtain rfl := (Prod.mk.inj (Option.some.inj (hs'.symm.trans hinit))).2
    rw [bnodeRseaNextorprevinit, if_pos (hkeys ▸ hlen)]
    rfl
  · obtain ⟨hpos, hsign, hexp⟩ := search_recordBytes h hne q
    have hlen0 : ks.length ≠ 0 := fun hz => hne (List.length_eq_zero_iff.mp hz)
    have hnot : ¬ ((entered n krs srk).overRecords rs).nrs.nrsKeys.length = 0 := by
      rw [hkeys, hlen]
      exact hlen0
    rw [bnodeRseaNextorprevinit, if_neg hnot, hkcb, hkeys]
    rcases lt_or_ge (bnodeSearch n q.bytes .all).pos ks.length with hlt | hge
    · obtain ⟨r, x, hr, hx, hself, hblock⟩ := hexp (hpos ▸ hlt)
      rw [hpos] at hr hx
      obtain ⟨s', hinit, hat⟩ := init_at h hne hq srk hr hx hblock
      have hptr := (h.stores.searchedTo (h.ne_nil hne) q .all).keys r hr
      have hs' := init_of_lt h hq srk hlt
      rw [hptr, hblock, Option.map_some] at hs'
      obtain rfl := (Prod.mk.inj (Option.some.inj (hs'.symm.trans hinit))).2
      refine ⟨_, some (dbeBkeySearchKeys (dbeBkeySearchInit q.bytes .all) (recordBytes rs)).2.1, _,
        hinit, ?_, congrArg some hsign, _, hlt.le, hat.toCursor⟩
      have hrec :
          ((entered n krs srk).overRecords rs).nrs.nrsKeys[(bnodeSearch n q.bytes .all).pos]? =
            some (storedBytes r.key) := getElem?_recordBytes hr
      simp only [hpos, hrec, hself, Option.map_some]
      rfl
    · have hend : (bnodeSearch n q.bytes .all).pos = ks.length :=
        le_antisymm (h.search_pos hne q .all).1 hge
      obtain ⟨s', hinit, hcur⟩ := init_end h hne hq srk hend
      refine ⟨none, none, s', hinit, ?_, rfl, _, le_rfl, hcur⟩
      have hcount := h.nCount_eq
      have hs' : nodeRseaNextorprevinit (entered n krs srk) = some (none,
          ⟨{ nodeRseaInitst n (dbeBkrsClearbegin krs) with
            nrsInitialized := true
            nrsIndex := (bnodeSearch n q.bytes .all).pos
            nrsKeys := (bnodeSearch n q.bytes .all).keys }, srk⟩) := by
        rw [nodeRseaNextorprevinit]
        simp only [entered, nodeRseaInitst, hq]
        rw [if_neg (by omega), if_neg (by omega)]
      obtain rfl := (Prod.mk.inj (Option.some.inj (hs'.symm.trans hinit))).2
      have hnone :
          ((entered n krs srk).overRecords rs).nrs.nrsKeys[(bnodeSearch n q.bytes .all).pos]? =
            none := List.getElem?_eq_none_iff.mpr (hlen.trans hend.symm).le
      simp only [hpos, hnone]
      rfl

end NodeSearch

/-- `dbe_bnode_rsea_next` or `dbe_bnode_rsea_prev` over the records. -/
def RseaState.call (s : RseaState) : RseaCall → Option (DbeRet × RseaState)
  | .next => dbeBnodeRseaNext s
  | .prev => dbeBnodeRseaPrev s

def RseaState.foundRun : RseaState → List RseaCall → Option RseaState
  | s, [] => some s
  | s, c :: cs =>
      match s.call c with
      | some (.found, s') => s'.foundRun cs
      | _ => none

namespace NodeSearch

open FrontCoding

variable {n : Bnode} {rs : List Record} {ks : List Key} {krs : Bkrs} {s : NodeSearch}
  {i : ℕ} {q : Key}

theorem At.call_overRecords (h : n.StoresKeys rs ks) (hat : s.At n rs ks krs i) (c : RseaCall) :
    (s.overRecords rs).call c = (s.call c).map (resultOver rs) := by
  cases c with
  | next => exact hat.next_overRecords h
  | prev => exact hat.prev_overRecords h

theorem next_overRecords_of_begin (rs : List Record) (hb : krs.krsBegin = true)
    (srk : List UInt8) :
    dbeBnodeRseaNext (overRecords rs ⟨nodeRseaInitst n krs, srk⟩) =
      (bnodeRseaNextorprevinit ((entered n krs srk).overRecords rs)).map fun (cmp, s) =>
        match cmp with
        | some _ => rseaCheckend s
        | none => (.notfound, s) := by
  rw [dbeBnodeRseaNext]
  simp only [overRecords, nodeRseaInitst, Bool.not_false, if_true, hb]
  rfl

theorem prev_overRecords_of_begin (rs : List Record) (hb : krs.krsBegin = true)
    (srk : List UInt8) :
    dbeBnodeRseaPrev (overRecords rs ⟨nodeRseaInitst n krs, srk⟩) =
      (bnodeRseaNextorprevinit ((entered n krs srk).overRecords rs)).bind fun (cmp, s) =>
        match cmp with
        | some cmp => if cmp < 0 then rseaMovetoprev s else some (rseaCheckbegin s)
        | none =>
            if s.nrs.nrsIndex = s.nrs.nrsKeys.length then rseaMovetoprev s
            else some (.ended, s) := by
  rw [dbeBnodeRseaPrev]
  simp only [overRecords, nodeRseaInitst, Bool.not_false, Bool.true_and, hb, if_true]
  rfl

theorem first_next_overRecords (h : n.StoresKeys rs ks) (hb : krs.krsBegin = false)
    (srk : List UInt8) :
    dbeBnodeRseaNext (overRecords rs ⟨nodeRseaInitst n krs, srk⟩) =
      (nodeRseaNext ⟨nodeRseaInitst n krs, srk⟩).map (resultOver rs) := by
  have hcount := h.nCount_eq
  rw [dbeBnodeRseaNext, nodeRseaNext]
  simp only [overRecords, nodeRseaInitst, Bool.not_false, if_true, hb, Bool.false_eq_true, if_false]
  by_cases hz : 0 = n.nCount
  · have hnone : (recordBytes rs)[0]? = none :=
      List.getElem?_eq_none_iff.mpr (by rw [length_recordBytes h]; omega)
    simp only [← hz, if_true, hnone]
    rfl
  · have hx : ks[0]? = some ks[0] := List.getElem?_eq_getElem (by omega)
    obtain ⟨r, hr, hs, -⟩ := h.getElem? hx
    have hrec : (recordBytes rs)[0]? = some ks[0].bytes := by
      rw [← hs.eq_of_nil]
      exact getElem?_recordBytes hr
    simp only [hz, if_false, hrec, h.stores.firstkey hr, h.copy_first hr hx]
    rw [Option.map_some, ← checkend_overRecords]
    rfl

theorem first_prev_overRecords (h : n.StoresKeys rs ks) (hb : krs.krsBegin = false)
    (srk : List UInt8) :
    dbeBnodeRseaPrev (overRecords rs ⟨nodeRseaInitst n krs, srk⟩) =
      (nodeRseaPrev ⟨nodeRseaInitst n krs, srk⟩).map (resultOver rs) := by
  have hlast : NodeSearch.Cursor n rs ks krs ks.length
      ⟨{ nodeRseaInitst n krs with nrsInitialized := true, nrsIndex := n.nCount }, srk⟩ :=
    ⟨rfl, h.nCount_eq, rfl, h.nCount_eq, SameRange.refl krs,
      fun j hj => absurd hj.symm (Option.some_ne_none j)⟩
  have hmove := movetoprev_overRecords h hlast le_rfl
  have hlen : (recordBytes rs).length = n.nCount := (length_recordBytes h).trans h.nCount_eq.symm
  rw [dbeBnodeRseaPrev, nodeRseaPrev]
  simp only [overRecords, nodeRseaInitst, hb, Bool.and_false, Bool.false_eq_true, if_false, hlen]
  exact hmove

theorem first_overRecords (h : n.StoresKeys rs ks) (hq : krs.krsKcb = q.bytes)
    (srk : List UInt8) (c : RseaCall) :
    (overRecords rs ⟨nodeRseaInitst n krs, srk⟩).call c =
      ((NodeSearch.mk (nodeRseaInitst n krs) srk).call c).map (resultOver rs) := by
  cases hb : krs.krsBegin with
  | false =>
      cases c with
      | next => exact first_next_overRecords h hb srk
      | prev => exact first_prev_overRecords h hb srk
  | true =>
      obtain ⟨o, o', s', hinit, hinit', hsign, i, hle, hcur⟩ := init_overRecords h hq srk
      have hlen : (s'.overRecords rs).nrs.nrsKeys.length = s'.nrs.nrsCount :=
        (length_recordBytes h).trans hcur.count.symm
      have hindex : (s'.overRecords rs).nrs.nrsIndex = s'.nrs.nrsIndex := rfl
      have hmove := movetoprev_overRecords h hcur hle
      cases c with
      | next =>
          rw [call, RseaState.call, next_of_begin hb, next_overRecords_of_begin rs hb, hinit,
            hinit', Option.map_some, Option.map_some, Option.map_some]
          cases o with
          | none =>
              obtain rfl := Option.map_eq_none_iff.mp hsign
              rfl
          | some cmp =>
              obtain ⟨cmp', rfl, -⟩ := Option.map_eq_some_iff.mp hsign
              exact congrArg some (checkend_overRecords rs s')
      | prev =>
          rw [call, RseaState.call, prev_of_begin hb, prev_overRecords_of_begin rs hb, hinit,
            hinit', Option.bind_some, Option.bind_some]
          cases o with
          | none =>
              obtain rfl := Option.map_eq_none_iff.mp hsign
              simp only [hlen, hindex]
              split
              · exact hmove
              · rfl
          | some cmp =>
              obtain ⟨cmp', rfl, hcmp⟩ := Option.map_eq_some_iff.mp hsign
              have hlt : cmp' < 0 ↔ cmp < 0 := by
                rw [← signOf_eq_lt_iff, ← signOf_eq_lt_iff, hcmp]
              simp only [hlt]
              split
              · exact hmove
              · exact congrArg some (checkbegin_overRecords rs s')

theorem exists_first_lands (h : n.StoresKeys rs ks) (hq : krs.krsKcb = q.bytes)
    (srk : List UInt8) (c : RseaCall) :
    ∃ pos, Lands n rs ks krs c pos ((NodeSearch.mk (nodeRseaInitst n krs) srk).call c) := by
  cases hb : krs.krsBegin with
  | false =>
      cases c with
      | next => exact ⟨_, first_next_lands h hb srk⟩
      | prev => exact ⟨_, first_prev_lands h hb srk⟩
  | true =>
      rcases eq_or_ne ks [] with rfl | hne
      · obtain ⟨s', hinit, hcur⟩ := init_nil krs h srk
        exact ⟨_, first_lands_of_end h hb srk Int.one_pos hinit hcur c⟩
      · have hend := h.search_pos hne q .all
        rcases lt_or_ge (bnodeSearch n q.bytes .all).pos ks.length with hlt | hge
        · obtain ⟨x, hx, hexp⟩ := h.expand_search hne q .all hlt
          obtain ⟨r, hr, -⟩ := h.getElem? hx
          rw [(h.stores.searchedTo (h.ne_nil hne) q .all).keys r hr] at hexp
          obtain ⟨s', hinit, hat⟩ := init_at h hne hq srk hr hx hexp
          have hcmp : (bnodeSearch n q.bytes .all).cmp ≤ 0 :=
            not_lt.mp fun hpos => hlt.ne (hend.2.mp hpos)
          exact ⟨_, first_lands_of_at h hb srk hcmp hinit hat c⟩
        · have hlast := le_antisymm hend.1 hge
          obtain ⟨s', hinit, hcur⟩ := init_end h hne hq srk hlast
          exact ⟨_, first_lands_of_end h hb srk (hend.2.mpr hlast) hinit hcur c⟩

theorem foundRun_cons_overRecords {c : RseaCall} {cs : List RseaCall}
    (hcall : (s.overRecords rs).call c = (s.call c).map (resultOver rs))
    (hrest : ∀ s', s.call c = some (.found, s') →
      (s'.overRecords rs).foundRun cs = (s'.foundRun cs).map (overRecords rs)) :
    (s.overRecords rs).foundRun (c :: cs) = (s.foundRun (c :: cs)).map (overRecords rs) := by
  rw [RseaState.foundRun, foundRun, hcall]
  cases hresult : s.call c with
  | none => rfl
  | some r =>
      obtain ⟨rc, s'⟩ := r
      cases rc with
      | found => exact hrest s' hresult
      | succ => rfl
      | notfound => rfl
      | ended => rfl
      | locktuple => rfl

theorem At.foundRun_overRecords (h : n.StoresKeys rs ks) (hat : s.At n rs ks krs i)
    (calls : List RseaCall) :
    (s.overRecords rs).foundRun calls = (s.foundRun calls).map (overRecords rs) := by
  induction calls generalizing s i with
  | nil => rfl
  | cons c cs ih =>
      refine foundRun_cons_overRecords (hat.call_overRecords h c) fun s' hcall => ?_
      obtain ⟨j, hat'⟩ := at_of_lands (hat.lands h c) hcall
      exact ih hat'

/-- Calls over the records of a leaf do what they do over its block. -/
theorem foundRun_overRecords (h : n.StoresKeys rs ks) (hq : krs.krsKcb = q.bytes)
    (srk : List UInt8) (calls : List RseaCall) :
    RseaState.foundRun ⟨dbeBnodeRseaInitst (recordBytes rs), krs, srk⟩ calls =
      ((NodeSearch.mk (nodeRseaInitst n krs) srk).foundRun calls).map (overRecords rs) := by
  cases calls with
  | nil => rfl
  | cons c cs =>
      refine foundRun_cons_overRecords (first_overRecords h hq srk c) fun s' hcall => ?_
      obtain ⟨pos, hlands⟩ := exists_first_lands h hq srk c
      obtain ⟨j, hat⟩ := at_of_lands hlands hcall
      exact hat.foundRun_overRecords h cs

/-- The records of a plain node are those of a node of the tree. -/
theorem recordBytes_plainNode (ks : List (KeyIn base)) :
    recordBytes (layOut 0 (frontCode [] ((ks.map Subtype.val).map Key.entry))) = recordsOf ks := by
  rw [recordBytes, map_key_layOut, recordsOf, compressKeys_map]

end NodeSearch

end SolidDB
