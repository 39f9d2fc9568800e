import SolidDB.Uti.VtplCompare

/-!
# Searching with v-tuples

The search state of `uti0vcmp.h` and one step of the search. The state keeps a
pointer into the key: the rest of the key from the mismatch index against the
last smaller entry on. `vtplDbeSearchStep_of_eq` says that on canonically encoded
tuples a step is `FrontCoding.step`.
-/

namespace SolidDB

open FrontCoding

/-- `search_state` without the fields of the off-by-one mismatch, which this
search does not use. `pMismatch` runs up to `p_key_end`. -/
structure SearchState where
  iMismatch : ℕ
  lField : ℕ
  pMismatch : List UInt8
  cmpFn : Option (List UInt8 → List UInt8 → ℤ)
  keyData : List UInt8

def vtplSearchStateInit (key keyData : List UInt8) : SearchState :=
  let firstField := vtplGetdata key
  let (pMismatch, lField) := vaGetdata firstField
  { iMismatch := 0, lField, pMismatch, cmpFn := none, keyData }

/-- The byte loop inside one field; the count is `l_cmp - i_cmp`. The result
is the difference that ended it, `i_cmp` and the two pointers. -/
def searchBytes :
    ℕ → ℕ → List UInt8 → List UInt8 → ℤ × ℕ × List UInt8 × List UInt8
  | 0, iCmp, pMismatch, pIeData => (0, iCmp, pMismatch, pIeData)
  | n + 1, iCmp, pMismatch, pIeData =>
      let compRes : ℤ := ((pMismatch.headD 0).toNat : ℤ) - (pIeData.headD 0).toNat
      if compRes ≠ 0 then (compRes, iCmp, pMismatch, pIeData)
      else searchBytes n (iCmp + 1) pMismatch.tail pIeData.tail

def SearchState.fnCmp (state : SearchState) (indexData : List UInt8) : ℤ :=
  match state.cmpFn with
  | some fn => fn state.keyData indexData
  | none => 0

/-- The loop over the fields in `vtpl_dbe_search_step`. `state` is the state
to be returned, `ss` the working copy. -/
def searchFields (state : SearchState) (indexData : List UInt8) :
    ℕ → SearchState → List UInt8 → ℕ → ℕ → ℤ × SearchState
  | 0, _, _, _, _ => (0, state)
  | fuel + 1, ss, pIeData, lIeField, iCmp =>
      let lCmp := min ss.lField lIeField
      let (compRes, iCmp, pMismatch, pIeData) :=
        searchBytes (lCmp - iCmp) iCmp ss.pMismatch pIeData
      if 0 < compRes then
        (1, { state with
          iMismatch := ss.iMismatch + iCmp
          lField := ss.lField - iCmp
          pMismatch })
      else if compRes < 0 then (-1, state)
      else if iCmp < ss.lField then
        (1, { ss with
          iMismatch := ss.iMismatch + iCmp
          lField := ss.lField - iCmp
          pMismatch })
      else if iCmp = lIeField then
        if pMismatch = [] then
          -- the key ended
          if pIeData = [] then
            let fnCmp := state.fnCmp indexData
            (fnCmp, if 0 < fnCmp then
              { state with
                iMismatch := ss.iMismatch + iCmp
                lField := ss.lField - iCmp
                pMismatch }
            else state)
          else (-1, state)
        else
          let (pMismatch, lField) := vaGetdata pMismatch
          let ss := { ss with
            iMismatch := ss.iMismatch + (iCmp + 1)
            lField
            pMismatch }
          if pIeData = [] then (1, ss)
          else
            let (pIeData, lIeField) := vaGetdata pIeData
            searchFields state indexData fuel ss pIeData lIeField 0
      else (-1, state)

/-- `vtpl_dbe_search_step`: the result in `var` and the new state. -/
def vtplDbeSearchStep (state : SearchState) (ieIMismatch : ℕ)
    (indexEntry indexData : List UInt8) : ℤ × SearchState :=
  let var := toInt32 ((ieIMismatch : ℤ) - state.iMismatch)
  if var ≠ 0 then (var, state)
  else
    let pIeStart := vtplGetdata indexEntry
    let (pIeData, lIeField) := vaGetdata pIeStart
    let lCmp := min state.lField lIeField
    if lCmp ≠ 0 then
      let compRes : ℤ :=
        ((state.pMismatch.headD 0).toNat : ℤ) - (pIeData.headD 0).toNat
      if compRes ≠ 0 then (compRes, state)
      else
        searchFields state indexData (pIeStart.length + 1)
          { state with pMismatch := state.pMismatch.tail } pIeData.tail lIeField 1
    else
      searchFields state indexData (pIeStart.length + 1) state pIeData lIeField 0

/-! ## States that point into a tuple -/

/-- The data of the first field of `r` and everything behind it. -/
def fieldsPtr : Fields → List UInt8
  | [] => []
  | g :: w => g ++ encFields w

@[simp] theorem fieldsPtr_cons (g : List UInt8) (w : Fields) :
    fieldsPtr (g :: w) = g ++ encFields w := rfl

def SearchState.moveTo (state : SearchState) (i : ℕ) (r : Fields) :
    SearchState :=
  { state with
    iMismatch := i
    lField := (r.headD []).length
    pMismatch := fieldsPtr r }

@[simp] theorem SearchState.moveTo_iMismatch (state : SearchState) (i : ℕ)
    (r : Fields) : (state.moveTo i r).iMismatch = i := rfl

@[simp] theorem SearchState.moveTo_moveTo (state : SearchState) (i j : ℕ)
    (r s : Fields) : (state.moveTo i r).moveTo j s = state.moveTo j s := rfl

@[simp] theorem SearchState.fnCmp_moveTo (state : SearchState) (i : ℕ)
    (r : Fields) (indexData : List UInt8) :
    (state.moveTo i r).fnCmp indexData = state.fnCmp indexData := rfl

theorem vaGetdata_encFields {v : Fields} (hv : v ≠ []) (h : netlen v < 2 ^ 32) :
    vaGetdata (encFields v) = (fieldsPtr v, (v.headD []).length) := by
  obtain ⟨f, v, rfl⟩ := List.exists_cons_of_ne_nil hv
  have hf : f.length ≤ netlen (f :: v) := length_le_of_mem_netlen
  rw [encFields_cons, vaGetdata_encVa (by omega)]
  rfl

theorem vtplSearchStateInit_encVtpl {v : Fields} (h : VtplFits v)
    (rest keyData : List UInt8) :
    vtplSearchStateInit (encVtpl v ++ rest) keyData =
      SearchState.moveTo ⟨0, 0, [], none, keyData⟩ 0 v := by
  rw [vtplSearchStateInit, vtplGetdata_encVtpl h.netlen_lt,
    vaGetdata_encFields h.1 h.netlen_lt]
  rfl

/-! ## One field -/

theorem searchBytes_succ (n i : ℕ) (x y : UInt8) (p q : List UInt8) :
    searchBytes (n + 1) i (x :: p) (y :: q) =
      if (x.toNat : ℤ) - y.toNat ≠ 0 then
        ((x.toNat : ℤ) - y.toNat, i, x :: p, y :: q)
      else searchBytes n (i + 1) p q := rfl

theorem searchBytes_append (a b r s : List UInt8) (i : ℕ) :
    ∃ d, searchBytes (min a.length b.length) i (a ++ r) (b ++ s) =
        (d, i + commonPrefixLen a b, a.drop (commonPrefixLen a b) ++ r,
          b.drop (commonPrefixLen a b) ++ s) ∧
      ((d < 0 ∧ a < b) ∨ (0 < d ∧ b < a) ∨
        (d = 0 ∧ commonPrefixLen a b = min a.length b.length)) := by
  induction a generalizing b i with
  | nil => exact ⟨0, by simp [searchBytes], by simp⟩
  | cons x a ih =>
      cases b with
      | nil => exact ⟨0, by simp [searchBytes], by simp⟩
      | cons y b =>
          simp only [List.length_cons, Nat.add_min_add_right, List.cons_append,
            searchBytes_succ, commonPrefixLen_cons_cons]
          rcases lt_trichotomy x y with hlt | rfl | hgt
          · have hneg := (toNat_sub_neg_iff x y).mpr hlt
            refine ⟨(x.toNat : ℤ) - y.toNat, ?_, Or.inl ⟨hneg, ?_⟩⟩
            · rw [if_pos hneg.ne, if_neg hlt.ne]
              rfl
            · exact List.cons_lt_cons_iff.mpr (Or.inl hlt)
          · obtain ⟨d, heq, hd⟩ := ih b (i + 1)
            refine ⟨d, ?_, ?_⟩
            · rw [if_neg (by simp), if_pos rfl, heq,
                Nat.add_right_comm i 1, Nat.add_assoc]
              rfl
            · rw [if_pos rfl]
              rcases hd with ⟨hd, hab⟩ | ⟨hd, hab⟩ | ⟨hd, hab⟩
              · exact Or.inl
                  ⟨hd, List.cons_lt_cons_iff.mpr (Or.inr ⟨rfl, hab⟩)⟩
              · exact Or.inr (Or.inl
                  ⟨hd, List.cons_lt_cons_iff.mpr (Or.inr ⟨rfl, hab⟩)⟩)
              · exact Or.inr (Or.inr ⟨hd, by omega⟩)
          · have hpos := (toNat_sub_pos_iff x y).mpr hgt
            refine ⟨(x.toNat : ℤ) - y.toNat, ?_, Or.inr (Or.inl ⟨hpos, ?_⟩)⟩
            · rw [if_pos hpos.ne', if_neg hgt.ne']
              rfl
            · exact List.cons_lt_cons_iff.mpr (Or.inl hgt)

theorem searchBytes_drop {g h : List UInt8} {c : ℕ}
    (hc : c ≤ commonPrefixLen g h) (r s : List UInt8) :
    ∃ d, searchBytes (min g.length h.length - c) c (g.drop c ++ r)
          (h.drop c ++ s) =
        (d, commonPrefixLen g h, g.drop (commonPrefixLen g h) ++ r,
          h.drop (commonPrefixLen g h) ++ s) ∧
      ((d < 0 ∧ g < h) ∨ (0 < d ∧ h < g) ∨
        (d = 0 ∧ commonPrefixLen g h = min g.length h.length)) := by
  obtain ⟨d, heq, hd⟩ := searchBytes_append (g.drop c) (h.drop c) r s c
  have hadd := commonPrefixLen_drop hc
  have hc' := hc
  rw [commonPrefixLen_comm] at hc'
  rw [List.length_drop, List.length_drop, Nat.sub_min_sub_right, ← hadd,
    List.drop_drop, List.drop_drop, ← hadd] at heq
  refine ⟨d, heq, ?_⟩
  rw [drop_lt_drop_iff hc, drop_lt_drop_iff hc', List.length_drop,
    List.length_drop] at hd
  have := commonPrefixLen_le_left g h
  have := commonPrefixLen_le_right g h
  rcases hd with h1 | h2 | h3
  · exact Or.inl h1
  · exact Or.inr (Or.inl h2)
  · exact Or.inr (Or.inr ⟨h3.1, by omega⟩)

/-! ## One step -/

theorem tupleMismatch_cons_of_ne {f g : List UInt8} (p n : Fields)
    (h : f ≠ g) : tupleMismatch (f :: p) (g :: n) = commonPrefixLen f g := by
  rw [tupleMismatch_cons_cons, if_neg h]

/-- A field that decides the comparison leaves the state inside the field. -/
theorem moveTo_of_ne (state : SearchState) (j : ℕ) {g h : List UInt8}
    (w u : Fields) (hne : h ≠ g) :
    state.moveTo (j + tupleMismatch (h :: u) (g :: w))
        (FrontCoding.residual (g :: w) (tupleMismatch (h :: u) (g :: w))) =
      { state with
        iMismatch := j + commonPrefixLen g h
        lField := g.length - commonPrefixLen g h
        pMismatch := g.drop (commonPrefixLen g h) ++ encFields w } := by
  rw [tupleMismatch_cons_of_ne u w hne, commonPrefixLen_comm,
    residual_cons_of_le (commonPrefixLen_le_left g h)]
  simp [SearchState.moveTo, fieldsPtr]

def StepAnswers (state : SearchState) (indexData : List UInt8) (j : ℕ)
    (r e : Fields) (o : ℤ × SearchState) : Prop :=
  signOf o.1 = (tupleCompare r e).then (signOf (state.fnCmp indexData)) ∧
    o.2 = if 0 < o.1 then
        state.moveTo (j + tupleMismatch e r) (FrontCoding.residual r (tupleMismatch e r))
      else state

theorem stepAnswers_of_lt (state : SearchState) (indexData : List UInt8) (j : ℕ)
    {r e : Fields} (h : tupleCompare r e = .lt) :
    StepAnswers state indexData j r e (-1, state) :=
  ⟨by rw [h]; rfl, by simp⟩

theorem stepAnswers_of_gt (state : SearchState) (indexData : List UInt8) (j : ℕ)
    {r e : Fields} (h : tupleCompare r e = .gt) :
    StepAnswers state indexData j r e
      (1, state.moveTo (j + tupleMismatch e r)
        (FrontCoding.residual r (tupleMismatch e r))) :=
  ⟨by rw [h]; rfl, by rw [if_pos Int.zero_lt_one]⟩

theorem searchFields_spec (state : SearchState) (indexData : List UInt8)
    {w u : Fields} {g h : List UInt8} {c j fuel : ℕ} {ss : SearchState}
    (hss : ss = { state with
      iMismatch := j
      lField := g.length
      pMismatch := g.drop c ++ encFields w })
    (hg : netlen (g :: w) < 2 ^ 32) (hh : netlen (h :: u) < 2 ^ 32)
    (hc : c ≤ commonPrefixLen g h) (hfuel : u.length < fuel) :
    StepAnswers state indexData j (g :: w) (h :: u)
      (searchFields state indexData fuel ss (h.drop c ++ encFields u)
        h.length c) := by
  induction fuel generalizing w u g h c j ss with
  | zero => omega
  | succ fuel ih =>
      have hleft := commonPrefixLen_le_left g h
      have hright := commonPrefixLen_le_right g h
      obtain ⟨d, heq, hd⟩ := searchBytes_drop hc (encFields w) (encFields u)
      subst hss
      unfold searchFields
      simp only [heq]
      rcases hd with ⟨hneg, hlt⟩ | ⟨hpos, hgt⟩ | ⟨rfl, hmin⟩
      · rw [if_neg (by omega), if_pos hneg]
        exact stepAnswers_of_lt state indexData j (tupleCompare_cons_of_lt w u hlt)
      · rw [if_pos hpos]
        refine ⟨?_, ?_⟩
        · rw [tupleCompare_cons_of_gt w u hgt]
          rfl
        · rw [if_pos Int.zero_lt_one, moveTo_of_ne state j w u hgt.ne]
      · rw [if_neg (by omega), if_neg (by omega)]
        have hpre : g <+: h ∨ h <+: g := by
          rcases Nat.le_total g.length h.length with hle | hle
          · exact Or.inl ((commonPrefixLen_eq_left_iff g h).mp (by omega))
          · refine Or.inr ((commonPrefixLen_eq_left_iff h g).mp ?_)
            rw [commonPrefixLen_comm]
            omega
        rcases lt_trichotomy g.length h.length with hlt | hlen | hgt
        · rw [if_neg (by omega), if_neg (by omega)]
          exact stepAnswers_of_lt state indexData j
            (tupleCompare_cons_of_lt w u (lt_of_isPrefix_of_length_lt hpre hlt))
        · obtain rfl := eq_of_isPrefix_of_length_eq hpre hlen
          rw [commonPrefixLen_self, if_neg (lt_irrefl _), if_pos rfl]
          simp only [List.drop_length, List.nil_append, encFields_eq_nil_iff]
          by_cases hw : w = []
          · subst hw
            rw [if_pos rfl]
            by_cases hu : u = []
            · subst hu
              rw [if_pos rfl]
              refine ⟨by simp, ?_⟩
              simp [tupleMismatch_cons_cons, FrontCoding.residual, SearchState.moveTo,
                fieldsPtr]
            · rw [if_neg hu]
              apply stepAnswers_of_lt state indexData j
              rw [tupleCompare_cons_self]
              obtain ⟨h', u, rfl⟩ := List.exists_cons_of_ne_nil hu
              exact tupleCompare_of_lt (List.nil_lt_cons h' u)
          · rw [if_neg hw]
            rw [netlen_cons] at hg hh
            have hmis : tupleMismatch (g :: u) (g :: w) =
                g.length + 1 + tupleMismatch u w := by
              rw [tupleMismatch_cons_cons, if_pos rfl, if_neg hw]
            obtain ⟨g', w, rfl⟩ := List.exists_cons_of_ne_nil hw
            rw [vaGetdata_encFields (List.cons_ne_nil g' w) (by omega)]
            by_cases hu : u = []
            · subst hu
              rw [if_pos rfl]
              have := stepAnswers_of_gt state indexData j
                (r := g :: g' :: w) (e := [g]) (by
                  rw [tupleCompare_cons_self]
                  exact tupleCompare_of_gt (List.nil_lt_cons g' w))
              rw [hmis, residual_cons_succ, tupleMismatch_nil_left,
                residual_zero] at this
              exact this
            · rw [if_neg hu]
              obtain ⟨h', u, rfl⟩ := List.exists_cons_of_ne_nil hu
              rw [vaGetdata_encFields (List.cons_ne_nil h' u) (by omega)]
              have hrec := ih (w := w) (u := u) (g := g') (h := h') (c := 0)
                (j := j + (g.length + 1)) rfl (by omega) (by omega)
                (Nat.zero_le _) (by simpa using hfuel)
              rw [StepAnswers, Nat.add_assoc] at hrec
              rw [StepAnswers, tupleCompare_cons_self, hmis, residual_cons_succ]
              exact hrec
        · have hlt := lt_of_isPrefix_of_length_lt hpre.symm hgt
          rw [if_pos (by omega)]
          have := stepAnswers_of_gt state indexData j
            (tupleCompare_cons_of_gt w u hlt)
          rw [moveTo_of_ne state j w u hlt.ne] at this
          exact this

/-- An entry with another index is decided by the indexes alone. -/
theorem vtplDbeSearchStep_of_ne (state : SearchState) {ie : ℕ}
    (hi : state.iMismatch < 2 ^ 31) (hie : ie < 2 ^ 31) (hne : ie ≠ state.iMismatch)
    (indexEntry indexData : List UInt8) :
    signOf (vtplDbeSearchStep state ie indexEntry indexData).1 =
        (if ie < state.iMismatch then .lt else .gt) ∧
      (vtplDbeSearchStep state ie indexEntry indexData).2 = state := by
  rw [vtplDbeSearchStep, toInt32_of_abs_lt (by omega) (by omega),
    if_pos (by omega)]
  refine ⟨?_, rfl⟩
  rcases Nat.lt_or_gt_of_ne hne with hlt | hgt
  · rw [if_pos hlt]
    exact signOf_of_neg (by omega)
  · rw [if_neg (by omega)]
    exact signOf_of_pos (by omega)

/-- An entry at the index of the state is compared with the rest of the key. -/
theorem vtplDbeSearchStep_of_eq (state : SearchState) {r e : Fields} (i : ℕ)
    (hr : VtplFits r) (he : VtplFits e) (rest indexData : List UInt8) :
    StepAnswers (state.moveTo i r) indexData i r e
      (vtplDbeSearchStep (state.moveTo i r) i (encVtpl e ++ rest) indexData) := by
  have hzero : toInt32 ((i : ℤ) - (state.moveTo i r).iMismatch) = 0 := by
    rw [SearchState.moveTo_iMismatch, Int.sub_self]
    rfl
  generalize ho : vtplDbeSearchStep (state.moveTo i r) i (encVtpl e ++ rest)
    indexData = o
  rw [vtplDbeSearchStep, hzero, if_neg (by simp), vtplGetdata_encVtpl he.netlen_lt] at ho
  obtain ⟨g, w, rfl⟩ := List.exists_cons_of_ne_nil hr.1
  obtain ⟨h, u, rfl⟩ := List.exists_cons_of_ne_nil he.1
  have hfuel : u.length < (encFields (h :: u)).length + 1 := by
    have := length_le_netlen (h :: u)
    rw [length_encFields]
    rw [List.length_cons] at this
    omega
  simp only [vaGetdata_encFields he.1 he.netlen_lt, SearchState.moveTo, fieldsPtr,
    List.headD_cons] at ho
  split at ho
  · rename_i hlen
    cases g with
    | nil => simp at hlen
    | cons x g =>
        cases h with
        | nil => simp at hlen
        | cons y h =>
            rcases lt_trichotomy x y with hxy | rfl | hxy
            · have hneg := (toNat_sub_neg_iff x y).mpr hxy
              rw [if_pos (by exact hneg.ne)] at ho
              subst ho
              refine ⟨?_, ?_⟩
              · rw [tupleCompare_cons_of_lt _ _
                  (List.cons_lt_cons_iff.mpr (Or.inl hxy))]
                exact signOf_of_neg hneg
              · rw [if_neg (by exact not_lt.mpr hneg.le)]
                rfl
            · rw [if_neg (by simp)] at ho
              subst ho
              exact searchFields_spec _ indexData (c := 1) rfl hr.netlen_lt he.netlen_lt
                (by simp) hfuel
            · have hpos := (toNat_sub_pos_iff x y).mpr hxy
              rw [if_pos (by exact hpos.ne')] at ho
              subst ho
              refine ⟨?_, ?_⟩
              · rw [tupleCompare_cons_of_gt _ _
                  (List.cons_lt_cons_iff.mpr (Or.inl hxy))]
                exact signOf_of_pos hpos
              · rw [if_pos (by exact hpos), tupleMismatch_cons_of_ne u w (by
                  simp [hxy.ne])]
                simp [hxy.ne, SearchState.moveTo, fieldsPtr]
  · subst ho
    exact searchFields_spec _ indexData (c := 0) rfl hr.netlen_lt he.netlen_lt
      (Nat.zero_le _) hfuel

end SolidDB
