import SolidDB.Dbe.BnodeRsea

/-!
# Exact range search in the block of a leaf

The cursor of a search stands on a key of the node, its search return key is that key, and
its saved position is a key of the node. Every call keeps this. Only the first call of a
step with a begin key depends on the node search, so it is exact for all steps that begin
at a key unless the search for that key is misled.
-/

namespace SolidDB

open FrontCoding

variable {n : Bnode} {rs : List Record} {ks : List Key} {krs : Bkrs} {s : NodeSearch}
  {i : ℕ} {q : Key}

/-! ## The cursor -/

structure SameRange (krs krs' : Bkrs) : Prop where
  checkend : ∀ k, dbeBkrsCheckrangeend krs' k = dbeBkrsCheckrangeend krs k
  checkbegin : ∀ k, dbeBkrsCheckrangebegin krs' k = dbeBkrsCheckrangebegin krs k

theorem SameRange.refl (krs : Bkrs) : SameRange krs krs := ⟨fun _ => rfl, fun _ => rfl⟩

theorem SameRange.clearbegin (krs : Bkrs) : SameRange krs (dbeBkrsClearbegin krs) := by
  constructor
  · intro k
    rw [dbeBkrsClearbegin]
    cases krs.krsReset <;> rfl
  · intro k
    rw [dbeBkrsClearbegin]
    cases krs.krsReset <;> rfl

namespace NodeSearch

def SavedIn (rs : List Record) (ks : List Key) (s : NodeSearch) : Prop :=
  ∀ j, s.nrs.nrsSaveindex = some j → ∃ r x, rs[j]? = some r ∧ ks[j]? = some x ∧
    s.nrs.nrsSavepos = r.offset ∧ s.nrs.nrsSavekey = some x.bytes

structure Cursor (n : Bnode) (rs : List Record) (ks : List Key) (krs : Bkrs) (i : ℕ)
    (s : NodeSearch) : Prop where
  node : s.nrs.nrsN = n
  count : s.nrs.nrsCount = ks.length
  initialized : s.nrs.nrsInitialized = true
  index : s.nrs.nrsIndex = i
  range : SameRange krs s.nrs.nrsKrs
  saved : s.SavedIn rs ks

def Points (rs : List Record) (ks : List Key) (i : ℕ) (s : NodeSearch) : Prop :=
  ∃ r x, rs[i]? = some r ∧ ks[i]? = some x ∧ s.nrs.nrsKeys = r.offset ∧ s.srk = x.bytes

structure At (n : Bnode) (rs : List Record) (ks : List Key) (krs : Bkrs) (i : ℕ)
    (s : NodeSearch) : Prop extends s.Cursor n rs ks krs i where
  points : s.Points rs ks i

theorem At.forget (h : s.At n rs ks krs i) : s.forget.At n rs ks krs i where
  node := h.node
  count := h.count
  initialized := h.initialized
  index := h.index
  range := h.range
  saved := fun j hj => absurd hj.symm (Option.some_ne_none j)
  points := h.points

/-! ## What a call answers -/

def retOf (krs : Bkrs) (k : List UInt8) : RseaCall → DbeRet
  | .next => if dbeBkrsCheckrangeend krs k = .cont then .found else .ended
  | .prev => if dbeBkrsCheckrangebegin krs k = .cont then .found else .ended

theorem retOf_eq_found_iff (krs : Bkrs) (k : List UInt8) (c : RseaCall) :
    retOf krs k c = .found ↔ krsAccepts krs k c := by
  cases c with
  | next =>
      rw [retOf, krsAccepts]
      split
      next hc => exact ⟨fun _ => hc, fun _ => rfl⟩
      next hc => exact ⟨fun h => DbeRet.noConfusion h, fun h => absurd h hc⟩
  | prev =>
      rw [retOf, krsAccepts]
      split
      next hc => exact ⟨fun _ => hc, fun _ => rfl⟩
      next hc => exact ⟨fun h => DbeRet.noConfusion h, fun h => absurd h hc⟩

def keyOf (ks : List Key) (pos : Option ℕ) : Option (ℕ × Key) :=
  pos.bind fun i => ks[i]?.map fun x => (i, x)

theorem keyOf_some {x : Key} (hx : ks[i]? = some x) : keyOf ks (some i) = some (i, x) := by
  rw [keyOf, Option.bind_some, hx]
  rfl

theorem getElem?_of_keyOf {pos : Option ℕ} {x : Key} (h : keyOf ks pos = some (i, x)) :
    pos = some i ∧ ks[i]? = some x := by
  obtain ⟨j, rfl, hj⟩ := Option.bind_eq_some_iff.mp h
  obtain ⟨y, hy, heq⟩ := Option.map_eq_some_iff.mp hj
  obtain ⟨rfl, rfl⟩ := Prod.mk.inj heq
  exact ⟨rfl, hy⟩

theorem keyOf_length (ks : List Key) : keyOf ks (some ks.length) = none := by
  rw [keyOf, Option.bind_some, List.getElem?_eq_none_iff.mpr le_rfl]
  rfl

/-- The call moves the search to a position of the node, or finds no key where there is
none. -/
def Lands (n : Bnode) (rs : List Record) (ks : List Key) (krs : Bkrs) (c : RseaCall)
    (pos : Option ℕ) (out : Option (DbeRet × NodeSearch)) : Prop :=
  (∃ i x s', keyOf ks pos = some (i, x) ∧ out = some (retOf krs x.bytes c, s') ∧
      s'.At n rs ks krs i) ∨
    (keyOf ks pos = none ∧ ∃ rc s', out = some (rc, s') ∧ rc ≠ .found)

theorem At.checkend (h : s.At n rs ks krs i) {x : Key} (hx : ks[i]? = some x) :
    nodeCheckend s = (retOf krs x.bytes .next, s) := by
  obtain ⟨r, y, -, hy, -, hsrk⟩ := h.points
  obtain rfl := Option.some.inj (hx.symm.trans hy)
  rw [nodeCheckend, h.range.checkend, hsrk, retOf]
  cases dbeBkrsCheckrangeend krs x.bytes <;> rfl

theorem At.checkbegin (h : s.At n rs ks krs i) {x : Key} (hx : ks[i]? = some x) :
    nodeCheckbegin s = (retOf krs x.bytes .prev, s) := by
  obtain ⟨r, y, -, hy, -, hsrk⟩ := h.points
  obtain rfl := Option.some.inj (hx.symm.trans hy)
  rw [nodeCheckbegin, h.range.checkbegin, hsrk, retOf]
  cases dbeBkrsCheckrangebegin krs x.bytes <;> rfl

theorem At.getElem? (h : s.At n rs ks krs i) : ∃ x, ks[i]? = some x := by
  obtain ⟨r, x, -, hx, -, -⟩ := h.points
  exact ⟨x, hx⟩

theorem At.lands_next (h : s.At n rs ks krs i) :
    Lands n rs ks krs .next (some i) (some (nodeCheckend s)) := by
  obtain ⟨x, hx⟩ := h.getElem?
  exact Or.inl ⟨i, x, s, keyOf_some hx, by rw [h.checkend hx], h⟩

theorem At.lands_prev (h : s.At n rs ks krs i) :
    Lands n rs ks krs .prev (some i) (some (nodeCheckbegin s)) := by
  obtain ⟨x, hx⟩ := h.getElem?
  exact Or.inl ⟨i, x, s, keyOf_some hx, by rw [h.checkbegin hx], h⟩

/-! ## Walks -/

theorem Cursor.save (new : Option ℕ) (h : s.Cursor n rs ks krs i) {j : ℕ}
    (hp : s.Points rs ks j) : (nodeSave new j s).Cursor n rs ks krs i := by
  rw [nodeSave]
  split
  · obtain ⟨r, x, hr, hx, hkeys, hsrk⟩ := hp
    exact
      { node := h.node
        count := h.count
        initialized := h.initialized
        index := h.index
        range := h.range
        saved := fun l hl => by
          obtain rfl := Option.some.inj hl
          exact ⟨r, x, hr, hx, hkeys, congrArg some hsrk⟩ }
  · exact h

theorem Points.save (new : Option ℕ) {j : ℕ} (hp : s.Points rs ks j) :
    (nodeSave new j s).Points rs ks j := by
  rw [nodeSave]
  split
  · exact hp
  · exact hp

theorem walk_spec (h : n.StoresKeys rs ks) (new : Option ℕ) (left : ℕ) {j : ℕ}
    (hc : s.Cursor n rs ks krs i) (hp : s.Points rs ks j) (hlt : j + left < ks.length) :
    ∃ s', nodeWalk new left j s = some s' ∧ s'.Cursor n rs ks krs i ∧
      s'.Points rs ks (j + left) := by
  induction left generalizing j s with
  | zero => exact ⟨s, rfl, hc, hp⟩
  | succ left ih =>
      have hc' := hc.save new hp
      obtain ⟨r, x, hr, hx, hkeys, hsrk⟩ := hp.save new
      have hj : j + 1 < ks.length := by omega
      have hx' : ks[j + 1]? = some ks[j + 1] := List.getElem?_eq_getElem hj
      obtain ⟨r', hr', -⟩ := h.getElem? hx'
      have hnext : bnodeNextkey (nodeSave new j s).nrs.nrsN (j + 1)
          (nodeSave new j s).nrs.nrsKeys = r'.offset := by
        rw [hc'.node, hkeys]
        exact h.stores.nextkey hr hr'
      have hexp : dbeBkeyExpand (nodeSave new j s).srk
          ((nodeSave new j s).nrs.nrsN.key r'.offset) = some ks[j + 1].bytes := by
        rw [hc'.node, hsrk]
        exact h.expand_next hr' hx hx'
      obtain ⟨s', hw, hcur, hpoints⟩ := ih (j := j + 1)
        (s := ⟨{ (nodeSave new j s).nrs with nrsKeys := r'.offset }, ks[j + 1].bytes⟩)
        ⟨hc'.node, hc'.count, hc'.initialized, hc'.index, hc'.range, hc'.saved⟩
        ⟨r', _, hr', hx', rfl, rfl⟩ (by omega)
      refine ⟨s', ?_, hcur, ?_⟩
      · rw [nodeWalk]
        simp only
        rw [hnext, hexp, Option.bind_some]
        exact hw
      · rw [Nat.add_right_comm] at hpoints
        exact hpoints

theorem walkToIndex_spec (h : n.StoresKeys rs ks) (hc : s.Cursor n rs ks krs i)
    (hlt : i < ks.length) : ∃ s', nodeWalkToIndex s = some s' ∧ s'.At n rs ks krs i := by
  have hfirst : ∃ s', nodeWalkFromFirst s = some s' ∧ s'.At n rs ks krs i := by
    have hx : ks[0]? = some ks[0] := List.getElem?_eq_getElem (by omega)
    obtain ⟨r, hr, -⟩ := h.getElem? hx
    have hcopy := h.copy_first hr hx
    obtain ⟨s', hw, hcur, hpoints⟩ := walk_spec h
      (if i / 10 * 10 = 0 then none else some (i / 10 * 10)) i (j := 0)
      (s := ⟨{ s.nrs with nrsKeys := r.offset }, ks[0].bytes⟩)
      ⟨hc.node, hc.count, hc.initialized, hc.index, hc.range, hc.saved⟩
      ⟨r, _, hr, hx, rfl, rfl⟩ (by omega)
    rw [Nat.zero_add] at hpoints
    refine ⟨s', ?_, hcur, hpoints⟩
    rw [nodeWalkFromFirst, hc.index, hc.node, h.stores.firstkey hr, hcopy]
    exact hw
  rw [nodeWalkToIndex]
  cases hsave : s.nrs.nrsSaveindex with
  | none => exact hfirst
  | some j =>
      simp only
      split
      next hle =>
        obtain rfl := hc.index
        obtain ⟨r, x, hr, hx, hpos, hkey⟩ := hc.saved j hsave
        obtain ⟨s', hw, hcur, hpoints⟩ := walk_spec h none (s.nrs.nrsIndex - j) (j := j)
          (s := ⟨{ s.nrs with nrsKeys := s.nrs.nrsSavepos }, x.bytes⟩)
          ⟨hc.node, hc.count, hc.initialized, hc.index, hc.range, hc.saved⟩
          ⟨r, x, hr, hx, hpos, rfl⟩ (by omega)
        rw [Nat.add_sub_cancel' hle] at hpoints
        exact ⟨s', Option.bind_eq_some_iff.mpr ⟨x.bytes, hkey, hw⟩, hcur, hpoints⟩
      next => exact hfirst

theorem movetoprev_lands (h : n.StoresKeys rs ks) (hc : s.Cursor n rs ks krs i)
    (hle : i ≤ ks.length) :
    Lands n rs ks krs .prev (if i = 0 then none else some (i - 1)) (nodeMovetoprev s) := by
  rw [nodeMovetoprev, hc.index]
  by_cases hi : i = 0
  · rw [if_pos hi, if_pos hi]
    exact Or.inr ⟨rfl, .notfound, s, rfl, DbeRet.noConfusion⟩
  · rw [if_neg hi, if_neg hi]
    obtain ⟨s', hw, hat⟩ := walkToIndex_spec h
      (s := { s with nrs := { s.nrs with nrsIndex := i - 1 } }) (i := i - 1)
      ⟨hc.node, hc.count, hc.initialized, rfl, hc.range, hc.saved⟩ (by omega)
    rw [hw, Option.map_some]
    exact hat.lands_prev

/-! ## Calls on a key -/

theorem At.next_lands (h : n.StoresKeys rs ks) (hat : s.At n rs ks krs i) :
    Lands n rs ks krs .next (some (i + 1)) (nodeRseaNext s) := by
  obtain ⟨r, x, hr, hx, hkeys, hsrk⟩ := hat.points
  have hlt : i < ks.length := (List.getElem?_eq_some_iff.mp hx).1
  rw [nodeRseaNext, hat.initialized, hat.index, hat.count, hat.node]
  simp only [Bool.not_true, Bool.false_eq_true, if_false]
  rw [if_neg hlt.ne]
  by_cases hend : i + 1 = ks.length
  · rw [if_pos hend, hend]
    exact Or.inr ⟨keyOf_length ks, .notfound, _, rfl, DbeRet.noConfusion⟩
  · rw [if_neg hend]
    have hx' : ks[i + 1]? = some ks[i + 1] := List.getElem?_eq_getElem (by omega)
    obtain ⟨r', hr', -⟩ := h.getElem? hx'
    rw [hkeys, h.stores.nextkey hr hr', hsrk, h.expand_next hr' hx hx', Option.map_some]
    refine At.lands_next ⟨⟨hat.node, hat.count, hat.initialized, rfl, hat.range,
      hat.saved⟩, ?_⟩
    exact ⟨r', _, hr', hx', rfl, rfl⟩

theorem Cursor.prev_eq (hc : s.Cursor n rs ks krs i) : nodeRseaPrev s = nodeMovetoprev s := by
  rw [nodeRseaPrev, hc.initialized]
  rfl

theorem At.lands (h : n.StoresKeys rs ks) (hat : s.At n rs ks krs i) (c : RseaCall) :
    Lands n rs ks krs c (cursorMove ks krs (some i) c) (s.call c) := by
  cases c with
  | next => exact hat.next_lands h
  | prev =>
      obtain ⟨x, hx⟩ := hat.getElem?
      rw [call, hat.toCursor.prev_eq]
      exact movetoprev_lands h hat.toCursor (List.getElem?_eq_some_iff.mp hx).1.le

theorem At.answer_of_lands (hat : s.At n rs ks krs i) {x : Key} {c : RseaCall}
    {out : NodeSearch} (hx : ks[i]? = some x)
    (h : out.call c = some (retOf krs x.bytes c, s)) :
    out.answer c = some (retOf krs x.bytes c, i, x.bytes) := by
  obtain ⟨r, y, -, hy, -, hsrk⟩ := hat.points
  obtain rfl := Option.some.inj (hx.symm.trans hy)
  rw [answer, h, Option.map_some, hat.index, hsrk]

theorem At.answer_next_end (hat : s.At n rs ks krs i) (hend : i + 1 = ks.length) :
    s.answer .next = some (.notfound, i + 1, s.srk) := by
  rw [answer, call, nodeRseaNext, hat.initialized, hat.index, hat.count]
  simp only [Bool.not_true, Bool.false_eq_true, if_false]
  rw [if_neg (by omega), if_pos hend]
  rfl

theorem At.answer_prev_begin (hat : s.At n rs ks krs 0) :
    s.answer .prev = some (.notfound, 0, s.srk) := by
  rw [answer, call, hat.toCursor.prev_eq, nodeMovetoprev, hat.index, if_pos rfl,
    Option.map_some, hat.index]

theorem At.answer_forget (h : n.StoresKeys rs ks) (hat : s.At n rs ks krs i) (c : RseaCall) :
    s.answer c = s.forget.answer c := by
  obtain ⟨y, hy⟩ := hat.getElem?
  rcases hat.lands h c with ⟨j, x, s', hkey, hcall, hat'⟩ | ⟨hkey, -⟩
  · rcases hat.forget.lands h c with ⟨j', x', s'', hkey', hcall', hat''⟩ | ⟨hkey', -⟩
    · obtain ⟨rfl, rfl⟩ := Prod.mk.inj (Option.some.inj (hkey.symm.trans hkey'))
      obtain ⟨-, hx⟩ := getElem?_of_keyOf hkey
      rw [hat'.answer_of_lands hx hcall, hat''.answer_of_lands hx hcall']
    · rw [hkey] at hkey'
      exact absurd hkey' (Option.some_ne_none _)
  · have hlt : i < ks.length := (List.getElem?_eq_some_iff.mp hy).1
    cases c with
    | next =>
        have hend : i + 1 = ks.length := by
          by_contra hne
          have hx : ks[i + 1]? = some ks[i + 1] := List.getElem?_eq_getElem (by omega)
          rw [cursorMove, keyOf_some hx] at hkey
          exact absurd hkey (Option.some_ne_none _)
        rw [hat.answer_next_end hend, hat.forget.answer_next_end hend]
        rfl
    | prev =>
        have hzero : i = 0 := by
          by_contra hne
          have hx : ks[i - 1]? = some ks[i - 1] := List.getElem?_eq_getElem (by omega)
          rw [cursorMove, if_neg hne, keyOf_some hx] at hkey
          exact absurd hkey (Option.some_ne_none _)
        subst hzero
        rw [hat.answer_prev_begin, hat.forget.answer_prev_begin]
        rfl

/-! ## Runs -/

theorem exact_of_lands {pos : Option ℕ} {c : RseaCall}
    (h : Lands n rs ks krs c (cursorMove ks krs pos c) (s.call c)) :
    ∃ rc s', s.call c = some (rc, s') ∧
      (rc = .found ↔ ∃ x, cursorKey ks krs pos c = some x ∧ krsAccepts krs x.2.bytes c) ∧
      (rc = .found → ∀ x, cursorKey ks krs pos c = some x →
        s'.nrs.nrsIndex = x.1 ∧ s'.srk = x.2.bytes) := by
  rcases h with ⟨j, x, s', hkey, hcall, hat⟩ | ⟨hkey, rc, s', hcall, hrc⟩
  · have hcursor : cursorKey ks krs pos c = some (j, x) := hkey
    refine ⟨_, s', hcall, ?_, fun _ y hy => ?_⟩
    · rw [retOf_eq_found_iff]
      refine ⟨fun hacc => ⟨_, hcursor, hacc⟩, fun ⟨y, hy, hacc⟩ => ?_⟩
      rw [← Option.some.inj (hcursor.symm.trans hy)] at hacc
      exact hacc
    · obtain ⟨r, z, -, hz, -, hsrk⟩ := hat.points
      rw [← Option.some.inj (hcursor.symm.trans hy), hat.index, hsrk]
      obtain ⟨-, hx⟩ := getElem?_of_keyOf hkey
      rw [Option.some.inj (hz.symm.trans hx)]
      exact ⟨rfl, rfl⟩
  · have hcursor : cursorKey ks krs pos c = none := hkey
    refine ⟨rc, s', hcall, ⟨fun hf => absurd hf hrc, fun ⟨y, hy, _⟩ => ?_⟩, fun _ y hy => ?_⟩
    · rw [hcursor] at hy
      exact absurd hy.symm (Option.some_ne_none y)
    · rw [hcursor] at hy
      exact absurd hy.symm (Option.some_ne_none y)

theorem at_of_lands {pos : Option ℕ} {c : RseaCall} {s' : NodeSearch}
    (h : Lands n rs ks krs c pos (s.call c)) (hcall : s.call c = some (.found, s')) :
    ∃ i, s'.At n rs ks krs i := by
  rcases h with ⟨i, x, s'', -, hcall', hat⟩ | ⟨-, rc, s'', hcall', hrc⟩
  · rw [hcall] at hcall'
    obtain ⟨-, rfl⟩ := Prod.mk.inj (Option.some.inj hcall')
    exact ⟨i, hat⟩
  · rw [hcall] at hcall'
    obtain ⟨rfl, -⟩ := Prod.mk.inj (Option.some.inj hcall')
    exact absurd rfl hrc

theorem foundRun_cons {c : RseaCall} {cs : List RseaCall} {s' : NodeSearch}
    (h : s.foundRun (c :: cs) = some s') :
    ∃ t, s.call c = some (.found, t) ∧ t.foundRun cs = some s' := by
  rw [foundRun] at h
  split at h
  next t hcall => exact ⟨t, hcall, h⟩
  next => exact absurd h.symm (Option.some_ne_none s')

theorem At.foundRun (h : n.StoresKeys rs ks) {cs : List RseaCall} {s' : NodeSearch}
    (hat : s.At n rs ks krs i) (hrun : s.foundRun cs = some s') :
    ∃ j, s'.At n rs ks krs j := by
  induction cs generalizing s i with
  | nil =>
      obtain rfl := Option.some.inj hrun
      exact ⟨i, hat⟩
  | cons c cs ih =>
      obtain ⟨t, hcall, hrest⟩ := foundRun_cons hrun
      obtain ⟨j, hat'⟩ := at_of_lands (hat.lands h c) hcall
      exact ih hat' hrest

theorem rseaExact_of_first (h : n.StoresKeys rs ks)
    (hfirst : ∀ srk c, Lands n rs ks krs c (cursorMove ks krs none c)
      ((NodeSearch.mk (nodeRseaInitst n krs) srk).call c)) : RseaExact n ks krs := by
  intro srk calls s hrun c
  cases calls with
  | nil =>
      obtain rfl := Option.some.inj hrun
      exact ⟨exact_of_lands (hfirst srk c), rfl⟩
  | cons c' cs =>
      obtain ⟨t, hcall, hrest⟩ := foundRun_cons hrun
      obtain ⟨j, hat⟩ := at_of_lands (hfirst srk c') hcall
      obtain ⟨i, hat'⟩ := hat.foundRun h hrest
      rw [if_neg (List.cons_ne_nil c' cs), hat'.index]
      exact ⟨exact_of_lands (hat'.lands h c), hat'.answer_forget h c⟩

/-! ## The first call -/

theorem first_next_lands (h : n.StoresKeys rs ks) (hb : krs.krsBegin = false)
    (srk : List UInt8) :
    Lands n rs ks krs .next (some 0) (nodeRseaNext ⟨nodeRseaInitst n krs, srk⟩) := by
  have hcount := h.nCount_eq
  rw [nodeRseaNext]
  simp only [nodeRseaInitst, Bool.not_false, if_true, hb, Bool.false_eq_true, if_false]
  by_cases hz : 0 = n.nCount
  · obtain rfl : ks = [] := List.length_eq_zero_iff.mp (hcount.symm.trans hz.symm)
    simp only [← hz, if_true]
    exact Or.inr ⟨rfl, .notfound, _, rfl, DbeRet.noConfusion⟩
  · simp only [hz, if_false]
    have hx : ks[0]? = some ks[0] := List.getElem?_eq_getElem (by omega)
    obtain ⟨r, hr, -⟩ := h.getElem? hx
    refine At.lands_next ⟨⟨rfl, hcount, rfl, rfl, SameRange.refl krs, ?_⟩, ?_⟩
    · exact fun j hj => absurd hj.symm (Option.some_ne_none j)
    · refine ⟨r, _, hr, hx, h.stores.firstkey hr, ?_⟩
      rw [h.stores.firstkey hr]
      exact h.copy_first hr hx

/-- Without a begin key the first call backwards starts behind the last key. -/
theorem first_prev_lands (h : n.StoresKeys rs ks) (hb : krs.krsBegin = false)
    (srk : List UInt8) :
    Lands n rs ks krs .prev (if ks.length = 0 then none else some (ks.length - 1))
      (nodeRseaPrev ⟨nodeRseaInitst n krs, srk⟩) := by
  rw [nodeRseaPrev]
  simp only [nodeRseaInitst, hb, Bool.and_false, Bool.false_eq_true, if_false]
  refine movetoprev_lands h ⟨rfl, h.nCount_eq, rfl, h.nCount_eq, SameRange.refl krs, ?_⟩ le_rfl
  exact fun j hj => absurd hj.symm (Option.some_ne_none j)

def entered (n : Bnode) (krs : Bkrs) (srk : List UInt8) : NodeSearch :=
  ⟨{ nodeRseaInitst n krs with nrsInitialized := true, nrsIndex := 0 }, srk⟩

def startMove (start : ℕ × ℤ) : RseaCall → Option ℕ
  | .next => some start.1
  | .prev => if start.2 = 0 then some start.1 else if start.1 = 0 then none else some (start.1 - 1)

theorem init_of_lt (h : n.StoresKeys rs ks) (hq : krs.krsKcb = q.bytes) (srk : List UInt8)
    (hlt : (bnodeSearch n q.bytes .all).pos < ks.length) :
    nodeRseaNextorprevinit (entered n krs srk) =
      (dbeBkeyExpand q.bytes (n.key (bnodeSearch n q.bytes .all).keys)).map fun srk =>
        (some (bnodeSearch n q.bytes .all).cmp,
          ⟨{ nodeRseaInitst n (dbeBkrsClearbegin krs) with
            nrsInitialized := true
            nrsIndex := (bnodeSearch n q.bytes .all).pos
            nrsKeys := (bnodeSearch n q.bytes .all).keys }, srk⟩) := by
  have hcount := h.nCount_eq
  rw [nodeRseaNextorprevinit]
  simp only [entered, nodeRseaInitst, hq]
  rw [if_neg (by omega), if_pos (by omega)]

theorem init_at (h : n.StoresKeys rs ks) (hne : ks ≠ []) (hq : krs.krsKcb = q.bytes)
    (srk : List UInt8) {r : Record} {x : Key}
    (hr : rs[(bnodeSearch n q.bytes .all).pos]? = some r)
    (hx : ks[(bnodeSearch n q.bytes .all).pos]? = some x)
    (hexp : dbeBkeyExpand q.bytes (n.key r.offset) = some x.bytes) :
    ∃ s', nodeRseaNextorprevinit (entered n krs srk) =
        some (some (bnodeSearch n q.bytes .all).cmp, s') ∧
      s'.At n rs ks krs (bnodeSearch n q.bytes .all).pos := by
  have hkeys := (h.stores.searchedTo (h.ne_nil hne) q .all).keys r hr
  have hlt := (List.getElem?_eq_some_iff.mp hx).1
  rw [init_of_lt h hq srk hlt, hkeys, hexp, Option.map_some]
  refine ⟨_, rfl, ⟨rfl, h.nCount_eq, rfl, rfl, SameRange.clearbegin krs, ?_⟩, ?_⟩
  · exact fun j hj => absurd hj.symm (Option.some_ne_none j)
  · exact ⟨r, x, hr, hx, rfl, rfl⟩

theorem init_end (h : n.StoresKeys rs ks) (hne : ks ≠ []) (hq : krs.krsKcb = q.bytes)
    (srk : List UInt8) (hend : (bnodeSearch n q.bytes .all).pos = ks.length) :
    ∃ s', nodeRseaNextorprevinit (entered n krs srk) = some (none, s') ∧
      s'.Cursor n rs ks krs ks.length := by
  have hcount := h.nCount_eq
  have hlen : ks.length ≠ 0 := fun hz => hne (List.length_eq_zero_iff.mp hz)
  rw [nodeRseaNextorprevinit]
  simp only [entered, nodeRseaInitst, hq]
  rw [if_neg (by omega), if_neg (by omega)]
  refine ⟨_, rfl, rfl, h.nCount_eq, rfl, hend, SameRange.clearbegin krs, ?_⟩
  exact fun j hj => absurd hj.symm (Option.some_ne_none j)

theorem init_nil (krs : Bkrs) (h : n.StoresKeys rs []) (srk : List UInt8) :
    ∃ s', nodeRseaNextorprevinit (entered n krs srk) = some (none, s') ∧
      s'.Cursor n rs [] krs 0 := by
  rw [nodeRseaNextorprevinit]
  simp only [entered, nodeRseaInitst]
  have hcount : n.nCount = 0 := h.nCount_eq
  simp only [hcount, if_true]
  refine ⟨_, rfl, rfl, rfl, rfl, rfl, SameRange.clearbegin krs, ?_⟩
  exact fun j hj => absurd hj.symm (Option.some_ne_none j)

theorem next_of_begin (hb : krs.krsBegin = true) (srk : List UInt8) :
    nodeRseaNext ⟨nodeRseaInitst n krs, srk⟩ =
      (nodeRseaNextorprevinit (entered n krs srk)).map fun (cmp, s) =>
        match cmp with
        | some _ => nodeCheckend s
        | none => (.notfound, s) := by
  rw [nodeRseaNext]
  simp only [nodeRseaInitst, Bool.not_false, if_true, hb]
  rfl

theorem prev_of_begin (hb : krs.krsBegin = true) (srk : List UInt8) :
    nodeRseaPrev ⟨nodeRseaInitst n krs, srk⟩ =
      (nodeRseaNextorprevinit (entered n krs srk)).bind fun (cmp, s) =>
        match cmp with
        | some cmp => if cmp < 0 then nodeMovetoprev s else some (nodeCheckbegin s)
        | none =>
            if s.nrs.nrsIndex = s.nrs.nrsCount then nodeMovetoprev s else some (.ended, s) := by
  rw [nodeRseaPrev]
  simp only [nodeRseaInitst, Bool.not_false, Bool.true_and, hb, if_true]
  rfl

theorem first_lands_of_at (h : n.StoresKeys rs ks) (hb : krs.krsBegin = true)
    (srk : List UInt8) {cmp : ℤ} {s' : NodeSearch} (hcmp : cmp ≤ 0)
    (hinit : nodeRseaNextorprevinit (entered n krs srk) = some (some cmp, s'))
    (hat : s'.At n rs ks krs i) (c : RseaCall) :
    Lands n rs ks krs c (startMove (i, cmp) c)
      ((NodeSearch.mk (nodeRseaInitst n krs) srk).call c) := by
  cases c with
  | next =>
      rw [call, next_of_begin hb, hinit, Option.map_some]
      exact hat.lands_next
  | prev =>
      rw [call, prev_of_begin hb, hinit, Option.bind_some, startMove]
      simp only
      by_cases hlt : cmp < 0
      · obtain ⟨x, hx⟩ := hat.getElem?
        rw [if_pos hlt, if_neg hlt.ne]
        exact movetoprev_lands h hat.toCursor (List.getElem?_eq_some_iff.mp hx).1.le
      · rw [if_neg hlt, if_pos (le_antisymm hcmp (not_lt.mp hlt))]
        exact hat.lands_prev

theorem first_lands_of_end (h : n.StoresKeys rs ks) (hb : krs.krsBegin = true)
    (srk : List UInt8) {cmp : ℤ} {s' : NodeSearch} (hcmp : 0 < cmp)
    (hinit : nodeRseaNextorprevinit (entered n krs srk) = some (none, s'))
    (hcur : s'.Cursor n rs ks krs ks.length) (c : RseaCall) :
    Lands n rs ks krs c (startMove (ks.length, cmp) c)
      ((NodeSearch.mk (nodeRseaInitst n krs) srk).call c) := by
  cases c with
  | next =>
      rw [call, next_of_begin hb, hinit, Option.map_some]
      exact Or.inr ⟨keyOf_length ks, .notfound, s', rfl, DbeRet.noConfusion⟩
  | prev =>
      rw [call, prev_of_begin hb, hinit, Option.bind_some, startMove]
      simp only
      rw [if_pos (hcur.index.trans hcur.count.symm), if_neg hcmp.ne']
      exact movetoprev_lands h hcur le_rfl

end NodeSearch

/-! ## Exact searches -/

open NodeSearch

theorem cursorMove_of_begin (hb : krs.krsBegin = true) (hq : krs.krsKcb = q.bytes)
    (c : RseaCall) :
    cursorMove ks krs none c = startMove (compareKeys .all q.bytes (ks.map Key.bytes)) c := by
  cases c with
  | next => rw [cursorMove, if_pos hb, hq, startMove]
  | prev => rw [cursorMove, if_pos hb, hq, startMove]

/-- The first call is decided by the sign of the comparison only. -/
theorem startMove_congr {i : ℕ} {cmp cmp' : ℤ} (h : signOf cmp = signOf cmp') (c : RseaCall) :
    startMove (i, cmp) c = startMove (i, cmp') c := by
  cases c with
  | next => rfl
  | prev =>
      have hz : cmp = 0 ↔ cmp' = 0 := by
        rw [← signOf_eq_eq_iff, ← signOf_eq_eq_iff, h]
      rw [startMove, startMove]
      simp only [hz]

theorem rseaExact_of_no_begin (h : n.StoresKeys rs ks) (hb : krs.krsBegin = false) :
    RseaExact n ks krs := by
  refine rseaExact_of_first h fun srk c => ?_
  cases c with
  | next =>
      rw [cursorMove, hb, if_neg Bool.false_ne_true]
      exact first_next_lands h hb srk
  | prev =>
      have hmove : cursorMove ks krs none .prev =
          if ks.length = 0 then none else some (ks.length - 1) := by
        rw [cursorMove, hb, if_neg Bool.false_ne_true]
        rfl
      rw [hmove]
      exact first_prev_lands h hb srk

theorem first_lands_of_search (h : n.StoresKeys rs ks) (hne : ks ≠ [])
    (hb : krs.krsBegin = true) (hq : krs.krsKcb = q.bytes)
    (hpos : (bnodeSearch n q.bytes .all).pos = (compareKeys .all q.bytes (ks.map Key.bytes)).1)
    (srk : List UInt8) (c : RseaCall) :
    Lands n rs ks krs c
      (startMove ((bnodeSearch n q.bytes .all).pos, (bnodeSearch n q.bytes .all).cmp) c)
      ((NodeSearch.mk (nodeRseaInitst n krs) srk).call c) := by
  obtain ⟨lo, hi, cmp, hks, heq, hlo, hhi, -⟩ := compareKeys_split .all q ks
  have hsearch := h.search_pos hne q .all
  have hlen : (bnodeSearch n q.bytes .all).pos = lo.length := by rw [hpos, heq]
  cases hi with
  | nil =>
      rw [List.append_nil] at hks
      have hend : (bnodeSearch n q.bytes .all).pos = ks.length := by rw [hlen, hks]
      obtain ⟨s', hinit, hcur⟩ := init_end h hne hq srk hend
      rw [hend]
      exact first_lands_of_end h hb srk (hsearch.2.mpr hend) hinit hcur c
  | cons x hi =>
      have hx : ks[lo.length]? = some x := by
        rw [hks, List.getElem?_append_right le_rfl, Nat.sub_self]
        rfl
      have hlt := (List.getElem?_eq_some_iff.mp hx).1
      obtain ⟨r, hr, -⟩ := h.getElem? hx
      obtain ⟨hcmp, hle⟩ := hhi x rfl
      have hexp := h.expand_from hks hr (lastVtpl_le_of_forall hlo)
        (vtpl_le_of_compareMode_nonpos (hcmp ▸ hle))
      obtain ⟨s', hinit, hat⟩ := init_at h hne hq srk (by rw [hlen]; exact hr)
        (by rw [hlen]; exact hx) hexp
      have hsign : (bnodeSearch n q.bytes .all).cmp ≤ 0 := by
        rw [← not_lt, hsearch.2]
        omega
      exact first_lands_of_at h hb srk hsign hinit hat c

theorem rseaExact_of_not_misledBy (h : n.StoresKeys rs ks) (hq : krs.krsKcb = q.bytes)
    (hclear : ¬ MisledBy .all q rs ks) : RseaExact n ks krs := by
  cases hb : krs.krsBegin with
  | false => exact rseaExact_of_no_begin h hb
  | true =>
      refine rseaExact_of_first h fun srk c => ?_
      rw [cursorMove_of_begin hb hq]
      rcases eq_or_ne ks [] with rfl | hne
      · obtain ⟨s', hinit, hcur⟩ := init_nil krs h srk
        exact first_lands_of_end h hb srk Int.one_pos hinit hcur c
      · obtain ⟨hpos, hsign⟩ := h.search_eq hne hclear
        have hlands := first_lands_of_search h hne hb hq hpos srk c
        rw [startMove_congr hsign, hpos] at hlands
        exact hlands

/-- A step that begins at `q` and takes every key. -/
def openKrs (q : Key) : Bkrs where
  krsInit := false
  krsBegin := true
  krsIsnext := true
  krsIsprev := true
  krsReset := false
  krsKb := q.bytes
  krsKe := q.bytes
  krsKcb := q.bytes
  krsKp := q.bytes
  krsKn := q.bytes
  krsKeOpen := false

theorem openKrs_krsBegin (q : Key) : (openKrs q).krsBegin = true := rfl

theorem openKrs_krsKcb (q : Key) : (openKrs q).krsKcb = q.bytes := rfl

theorem openKrs_accepts (q : Key) (k : List UInt8) (c : RseaCall) : krsAccepts (openKrs q) k c := by
  cases c with
  | next => rfl
  | prev => exact if_pos (Or.inl rfl)

theorem openKrs_checkend (q : Key) (s : NodeSearch)
    (hs : s.nrs.nrsKrs = dbeBkrsClearbegin (openKrs q)) : nodeCheckend s = (.found, s) := by
  rw [nodeCheckend, hs]
  rfl

/-- The position of the first call back tells which answer the search had. -/
theorem keyOf_startMove_inj {i : ℕ} {cmp cmp' : ℤ} (hi : i < ks.length)
    (h : keyOf ks (startMove (i, cmp) .prev) = keyOf ks (startMove (i, cmp') .prev)) :
    cmp = 0 ↔ cmp' = 0 := by
  have hx : ks[i]? = some ks[i] := List.getElem?_eq_getElem hi
  have hback {x : ℕ × Key}
      (hkey : keyOf ks (if i = 0 then none else some (i - 1)) = some x) : x.1 < i := by
    obtain ⟨j, y⟩ := x
    obtain ⟨hpos, -⟩ := getElem?_of_keyOf hkey
    split at hpos
    · exact absurd hpos.symm (Option.some_ne_none j)
    next hz =>
      obtain rfl := Option.some.inj hpos
      exact Nat.sub_lt (Nat.pos_of_ne_zero hz) Nat.one_pos
  rw [startMove, startMove] at h
  simp only at h
  constructor
  · intro hz
    by_contra hz'
    rw [if_pos hz, if_neg hz', keyOf_some hx] at h
    exact absurd (hback h.symm) (lt_irrefl i)
  · intro hz'
    by_contra hz
    rw [if_neg hz, if_pos hz', keyOf_some hx] at h
    exact absurd (hback h) (lt_irrefl i)

theorem keyOf_eq_of_exact {pos : Option ℕ} {c : RseaCall} (hacc : ∀ k, krsAccepts krs k c)
    (h : Lands n rs ks krs c pos (s.call c)) (hexact : CallExact ks krs none s c) :
    keyOf ks pos = keyOf ks (cursorMove ks krs none c) := by
  obtain ⟨rc, t, hcall, hiff, hfound⟩ := hexact.found
  rcases h with ⟨j, x, s', hkey, hcall', hat⟩ | ⟨hkey, rc', s', hcall', hrc⟩
  · obtain ⟨hret, rfl⟩ := Prod.mk.inj (Option.some.inj (hcall.symm.trans hcall'))
    have hrc : rc = .found := hret.trans ((retOf_eq_found_iff krs x.bytes c).mpr (hacc x.bytes))
    obtain ⟨⟨j', x'⟩, hcursor, -⟩ := hiff.mp hrc
    obtain ⟨hindex, -⟩ := hfound hrc _ hcursor
    obtain ⟨-, hx⟩ := getElem?_of_keyOf hkey
    have hcursor' : keyOf ks (cursorMove ks krs none c) = some (j', x') := hcursor
    obtain ⟨-, hx'⟩ := getElem?_of_keyOf hcursor'
    rw [hat.index] at hindex
    obtain rfl : j = j' := hindex
    rw [hkey, Option.some.inj (hx.symm.trans hx')]
    exact hcursor.symm
  · obtain ⟨rfl, -⟩ := Prod.mk.inj (Option.some.inj (hcall.symm.trans hcall'))
    cases hcursor : keyOf ks (cursorMove ks krs none c) with
    | none => exact hkey
    | some x => exact absurd (hiff.mpr ⟨x, hcursor, hacc x.2.bytes⟩) hrc

/-- An exact first call forward starts where the search for the begin key stops. -/
theorem search_pos_of_exact (h : n.StoresKeys rs ks) (hne : ks ≠ [])
    (hexact : CallExact ks (openKrs q) none ⟨nodeRseaInitst n (openKrs q), []⟩ .next) :
    (bnodeSearch n q.bytes .all).pos = (compareKeys .all q.bytes (ks.map Key.bytes)).1 := by
  have hmove : cursorMove ks (openKrs q) none .next =
      some (compareKeys .all q.bytes (ks.map Key.bytes)).1 := rfl
  obtain ⟨lo, hi, cmp, hks, heq, -, -, -⟩ := compareKeys_split .all q ks
  obtain ⟨rc, t, hcall, hiff, hfound⟩ := hexact.found
  have hsearch := h.search_pos hne q .all
  rw [NodeSearch.call, next_of_begin rfl] at hcall
  rcases hsearch.1.lt_or_eq with hlt | hend
  · rw [init_of_lt h rfl [] hlt] at hcall
    cases hexp : dbeBkeyExpand q.bytes (n.key (bnodeSearch n q.bytes .all).keys) with
    | none =>
        rw [hexp] at hcall
        exact absurd hcall.symm (Option.some_ne_none _)
    | some srk =>
        rw [hexp, Option.map_some, Option.map_some] at hcall
        have hret := Option.some.inj hcall
        simp only at hret
        rw [openKrs_checkend q _ rfl] at hret
        obtain ⟨rfl, rfl⟩ := Prod.mk.inj hret
        obtain ⟨⟨j, x⟩, hcursor, -⟩ := hiff.mp rfl
        obtain ⟨hindex, -⟩ := hfound rfl _ hcursor
        have hcursor' : keyOf ks (cursorMove ks (openKrs q) none .next) = some (j, x) := hcursor
        obtain ⟨hpos, -⟩ := getElem?_of_keyOf hcursor'
        rw [hmove] at hpos
        exact hindex.trans (Option.some.inj hpos).symm
  · obtain ⟨s', hinit, -⟩ := init_end h hne (openKrs_krsKcb q) [] hend
    rw [hinit, Option.map_some] at hcall
    obtain ⟨rfl, -⟩ := Prod.mk.inj (Option.some.inj hcall)
    have hlen : lo.length = ks.length := by
      by_contra hlt
      have hle : lo.length < ks.length := by
        rw [hks, List.length_append] at hlt ⊢
        omega
      have hx : ks[lo.length]? = some ks[lo.length] := List.getElem?_eq_getElem hle
      have hcursor : cursorKey ks (openKrs q) none .next = some (lo.length, ks[lo.length]) := by
        rw [cursorKey, hmove, heq]
        exact keyOf_some hx
      exact DbeRet.noConfusion (hiff.mpr ⟨_, hcursor, openKrs_accepts q _ .next⟩)
    rw [hend, heq, hlen]

theorem not_rseaExact_of_misledBy (h : n.StoresKeys rs ks) (hmis : MisledBy .all q rs ks) :
    ¬ RseaExact n ks (openKrs q) := by
  intro hexact
  have hfirst (c : RseaCall) := hexact [] [] _ rfl c
  have hne : ks ≠ [] := by
    rintro rfl
    cases rs with
    | nil => exact hmis
    | cons r rs => exact hmis
  obtain ⟨lo, hi, cmp, hks, heq, -, hhi, hend⟩ := compareKeys_split .all q ks
  have hpos := search_pos_of_exact h hne (hfirst .next)
  have hsearch := h.search_pos hne q .all
  refine h.search_ne hne hmis ⟨hpos, ?_⟩
  have hlen : (bnodeSearch n q.bytes .all).pos = lo.length := by rw [hpos, heq]
  rw [heq]
  cases hi with
  | nil =>
      rw [List.append_nil] at hks
      rw [signOf_of_pos (hend rfl), signOf_of_pos (hsearch.2.mpr (by rw [hlen, hks]))]
  | cons x hi =>
      have hlt : lo.length < ks.length := by
        rw [hks, List.length_append, List.length_cons]
        omega
      have hle : (bnodeSearch n q.bytes .all).cmp ≤ 0 := by
        rw [← not_lt, hsearch.2]
        omega
      have hlands := first_lands_of_search h hne (openKrs_krsBegin q) (openKrs_krsKcb q)
        hpos [] .prev
      have hkey := keyOf_eq_of_exact (openKrs_accepts q · .prev) hlands (hfirst .prev)
      rw [cursorMove_of_begin (q := q) rfl rfl, heq, hlen] at hkey
      have hz := keyOf_startMove_inj hlt hkey
      by_cases hcmp : cmp = 0
      · rw [hcmp, hz.mpr hcmp]
      · rw [signOf_of_neg (lt_of_le_of_ne hle fun h0 => hcmp (hz.mp h0)),
          signOf_of_neg (lt_of_le_of_ne (hhi x rfl).2 hcmp)]

/-- A search in a leaf is exact in every direction if it has no begin key. With the begin
key `q` it is, for every range, if and only if no stored key misleads the search for `q`. -/
theorem rsea_exact_iff (h : n.StoresKeys rs ks) :
    (∀ krs : Bkrs, krs.krsBegin = false → RseaExact n ks krs) ∧
      ∀ q : Key,
        (∀ krs : Bkrs, krs.krsBegin = true → krs.krsKcb = q.bytes → RseaExact n ks krs) ↔
          ¬ MisledBy .all q rs ks := by
  refine ⟨fun krs hb => rseaExact_of_no_begin h hb, fun q => ⟨fun hexact hmis => ?_, ?_⟩⟩
  · exact not_rseaExact_of_misledBy h hmis (hexact (openKrs q) rfl rfl)
  · exact fun hclear krs _ hq => rseaExact_of_not_misledBy h hq hclear

theorem plainNode_storesKeys {blocksize : ℕ} (nLevel : ℕ) {ks : List Key} (hasc : Ascending ks)
    (h : bnodeHeaderlen + (plainNode blocksize nLevel ks).nLen ≤ blocksize) :
    (plainNode blocksize nLevel ks).StoresKeys (layOut 0 (frontCode [] (ks.map Key.entry))) ks where
  stores := Or.inl (by
    rw [map_key_layOut]
    exact ⟨plainNode_plain nLevel h, rfl⟩)
  keys := by
    rw [map_key_layOut]
    exact storesAll_frontCode [] ks
  ascending := hasc

def twoRows : List Key := [oneFieldKey, twoFieldKey]

theorem twoRows_storesKeys :
    (plainNode 64 0 twoRows).StoresKeys (layOut 0 (frontCode [] (twoRows.map Key.entry)))
      twoRows :=
  plainNode_storesKeys 0 (by decide) (by decide)

theorem rsea_exact_iff_two_columns :
    (∀ krs : Bkrs, krs.krsBegin = false → RseaExact (plainNode 64 0 twoRows) twoRows krs) ∧
      RseaExact (plainNode 64 0 twoRows) twoRows
        (openKrs (leafKey 1 3 [[1], [2]] twoFields_ne twoFields_length)) := by
  have h := rsea_exact_iff twoRows_storesKeys
  refine ⟨h.1, (h.2 _).mpr ?_ _ rfl rfl⟩
  rintro (hmis | ⟨-, hmis | ⟨-, hmis⟩⟩)
  · exact absurd hmis (by decide)
  · exact absurd hmis (by decide)
  · exact hmis

/-- A step that begins between a key and one with a column more misses the second key. -/
theorem not_rseaExact_added_column :
    (plainNode 64 0 twoRows).nLevel = 0 ∧
      (plainNode 64 0 twoRows).StoresKeys (layOut 0 (frontCode [] (twoRows.map Key.entry)))
        twoRows ∧
      ¬ RseaExact (plainNode 64 0 twoRows) twoRows (openKrs repeatedKey) :=
  ⟨rfl, twoRows_storesKeys, not_rseaExact_of_misledBy twoRows_storesKeys
    (Or.inr ⟨by decide, Or.inl (by decide)⟩)⟩

end SolidDB
