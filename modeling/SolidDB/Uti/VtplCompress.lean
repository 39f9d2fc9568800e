import SolidDB.Uti.VtplSearch

/-!
# Compressing v-tuples

`uti_compress` and `make_compressed` of `uti0vcmp.c`. A v-tuple is compressed
against the one before it: the common part is dropped and the length bytes of
the field it ends in and of the whole tuple are rebuilt. `utiCompress_encVtpl`
says that the index is the mismatch index of the field lists and that the bytes
encode the residual.
-/

namespace SolidDB

open FrontCoding

/-- The byte loop of `uti_compress`: how many bytes agree, and the pointers
behind them. -/
def compressBytes :
    ℕ → ℕ → List UInt8 → List UInt8 → ℕ × List UInt8 × List UInt8
  | 0, i, pPrevData, pNextData => (i, pPrevData, pNextData)
  | n + 1, i, pPrevData, pNextData =>
      if pPrevData.headD 0 ≠ pNextData.headD 0 then (i, pPrevData, pNextData)
      else compressBytes n (i + 1) pPrevData.tail pNextData.tail

/-- The loop over the fields in `uti_compress`. The result is `i_mismatch`,
`l_next_field - i` and `p_next_data`. -/
def compressFields :
    ℕ → ℕ → List UInt8 → List UInt8 → ℕ → ℕ × ℕ × List UInt8
  | 0, iMismatch, _, pNextData, lNextField => (iMismatch, lNextField, pNextData)
  | fuel + 1, iMismatch, pPrevData, pNextData, lNextField =>
      let (pPrevData, lPrevField) := vaGetdata pPrevData
      let len := min lPrevField lNextField
      let (i, pPrevData, pNextData) := compressBytes len 0 pPrevData pNextData
      let iMismatch := iMismatch + i
      if i < len ∨ lPrevField ≠ lNextField ∨ pNextData = [] then
        (iMismatch, lNextField - i, pNextData)
      else
        -- step to next field
        let (pNextData, lNextField) := vaGetdata pNextData
        if pPrevData = [] then (iMismatch + 1, lNextField, pNextData)
        else compressFields fuel (iMismatch + 1) pPrevData pNextData lNextField

def makeCompressed (lMismatch : ℕ) (pNextData : List UInt8) : List UInt8 :=
  let lTarget := vaLenLen lMismatch + pNextData.length
  if byteLenTest lTarget then
    [UInt8.ofNat lTarget, UInt8.ofNat lMismatch] ++ pNextData
  else if byteLenTest lMismatch then
    setFourByteLen lTarget ++ [UInt8.ofNat lMismatch] ++ pNextData
  else
    setFourByteLen lTarget ++ setFourByteLen lMismatch ++ pNextData

/-- `uti_compress`: the mismatch index and the compressed v-tuple. -/
def utiCompress (prevVtpl nextVtpl : List UInt8) : ℕ × List UInt8 :=
  let pPrevData := vtplGetdata prevVtpl
  let (pNextData, lNextField) := vaGetdata (vtplGetdata nextVtpl)
  let (iMismatch, lMismatch, pNextData) :=
    compressFields (pPrevData.length + 1) 0 pPrevData pNextData lNextField
  (iMismatch, makeCompressed lMismatch pNextData)

def vtplCompress (prevVtpl nextVtpl : List UInt8) : ℕ × List UInt8 :=
  utiCompress prevVtpl nextVtpl

def vtplSearchCompress (cs : SearchState) : ℕ × List UInt8 :=
  (cs.iMismatch, makeCompressed cs.lField cs.pMismatch)

/-! ## What the loops find -/

theorem compressBytes_append (a b r s : List UInt8) (i : ℕ) :
    compressBytes (min a.length b.length) i (a ++ r) (b ++ s) =
      (i + commonPrefixLen a b, a.drop (commonPrefixLen a b) ++ r,
        b.drop (commonPrefixLen a b) ++ s) := by
  induction a generalizing b i with
  | nil => simp [compressBytes]
  | cons x a ih =>
      cases b with
      | nil => simp [compressBytes]
      | cons y b =>
          simp only [List.length_cons, Nat.add_min_add_right, List.cons_append,
            commonPrefixLen_cons_cons]
          rw [compressBytes]
          by_cases hxy : x = y
          · rw [if_neg (by simpa using hxy), if_pos hxy]
            have := ih b (i + 1)
            rw [List.tail_cons, List.tail_cons, this, Nat.add_right_comm i 1,
              Nat.add_assoc]
            rfl
          · rw [if_pos (by simpa using hxy), if_neg hxy]
            rfl

theorem compressFields_spec {u w : Fields} {h g : List UInt8} {fuel j : ℕ}
    (hh : netlen (h :: u) < 2 ^ 32) (hg : netlen (g :: w) < 2 ^ 32)
    (hfuel : u.length < fuel) :
    compressFields fuel j (encFields (h :: u)) (g ++ encFields w) g.length =
      (j + tupleMismatch (h :: u) (g :: w),
        ((FrontCoding.residual (g :: w) (tupleMismatch (h :: u) (g :: w))).headD []).length,
        fieldsPtr (FrontCoding.residual (g :: w) (tupleMismatch (h :: u) (g :: w)))) := by
  induction fuel generalizing u w h g j with
  | zero => omega
  | succ fuel ih =>
      have hleft := commonPrefixLen_le_left h g
      have hright := commonPrefixLen_le_right h g
      rw [compressFields, vaGetdata_encFields (List.cons_ne_nil h u) hh]
      have hbytes := compressBytes_append h g (encFields u) (encFields w) 0
      rw [Nat.zero_add] at hbytes
      simp only [fieldsPtr_cons, List.headD_cons, hbytes]
      by_cases hne : h = g
      · subst hne
        rw [commonPrefixLen_self, Nat.min_self, List.drop_length,
          List.nil_append, List.nil_append, tupleMismatch_cons_cons,
          if_pos rfl]
        by_cases hw : w = []
        · subst hw
          rw [if_pos (by simp), if_pos rfl, residual_cons_of_le (le_refl _)]
          simp
        · rw [netlen_cons] at hh hg
          rw [if_neg (by simp [encFields_eq_nil_iff, hw]), if_neg hw,
            vaGetdata_encFields hw (by omega), residual_cons_succ]
          by_cases hu : u = []
          · subst hu
            rw [encFields_nil, if_pos rfl, tupleMismatch_nil_left,
              residual_zero]
            rfl
          · obtain ⟨g', w, rfl⟩ := List.exists_cons_of_ne_nil hw
            obtain ⟨h', u, rfl⟩ := List.exists_cons_of_ne_nil hu
            have hrec := ih (u := u) (w := w) (h := h') (g := g')
              (j := j + h.length + 1) (by omega) (by omega)
              (by simpa using hfuel)
            have hnil : encFields (h' :: u) ≠ [] := by
              rw [Ne, encFields_eq_nil_iff]
              exact hu
            rw [if_neg hnil]
            refine hrec.trans ?_
            rw [Nat.add_assoc j, Nat.add_assoc j]
      · have hstop : commonPrefixLen h g < min h.length g.length ∨
            h.length ≠ g.length ∨
              g.drop (commonPrefixLen h g) ++ encFields w = [] := by
          by_contra hcon
          push Not at hcon
          have hlen : commonPrefixLen h g = h.length := by omega
          have hpre := (commonPrefixLen_eq_left_iff h g).mp hlen
          exact hne (hpre.eq_of_length hcon.2.1)
        rw [if_pos hstop, tupleMismatch_cons_of_ne u w hne,
          residual_cons_of_le hright]
        simp

/-! ## What is built -/

/-- The compressed tuple is the canonical encoding of its fields. -/
theorem makeCompressed_fieldsPtr {r : Fields} (hr : r ≠ []) :
    makeCompressed (r.headD []).length (fieldsPtr r) = encVtpl r := by
  obtain ⟨g, w, rfl⟩ := List.exists_cons_of_ne_nil hr
  have htarget : vaLenLen g.length + (g ++ encFields w).length =
      netlen (g :: w) := by
    rw [netlen_cons, List.length_append, length_encFields]
    omega
  rw [makeCompressed, List.headD_cons, fieldsPtr_cons, htarget, encVtpl, encVa,
    encFields_cons, ← encFields_cons, length_encFields, encFields_cons, encVa]
  by_cases hshort : byteLenTest (netlen (g :: w)) = true
  · have hg : byteLenTest g.length = true := by
      rw [byteLenTest_iff] at hshort ⊢
      exact lt_of_le_of_lt length_le_of_mem_netlen hshort
    simp [-netlen_cons, vaSetLen, hshort, hg]
  · by_cases hg : byteLenTest g.length = true
    · simp [-netlen_cons, vaSetLen, hshort, hg]
    · simp [-netlen_cons, vaSetLen, hshort, hg]

/-- Compression finds the mismatch index and encodes the residual. -/
theorem utiCompress_encVtpl {p n : Fields} (hp : VtplFits p) (hn : VtplFits n)
    (r s : List UInt8) :
    utiCompress (encVtpl p ++ r) (encVtpl n ++ s) =
      (tupleMismatch p n, encVtpl (FrontCoding.residual n (tupleMismatch p n))) := by
  obtain ⟨h, u, rfl⟩ := List.exists_cons_of_ne_nil hp.1
  obtain ⟨g, w, rfl⟩ := List.exists_cons_of_ne_nil hn.1
  have hfuel : u.length < (encFields (h :: u)).length + 1 := by
    have := length_le_netlen (h :: u)
    rw [List.length_cons] at this
    rw [length_encFields]
    omega
  have hspec := compressFields_spec (j := 0) hp.netlen_lt hn.netlen_lt hfuel
  have hres := residual_ne_nil (tupleMismatch_lt_length (h :: u) hn.1)
  rw [utiCompress, vtplGetdata_encVtpl hp.netlen_lt, vtplGetdata_encVtpl hn.netlen_lt,
    vaGetdata_encFields hn.1 hn.netlen_lt]
  simp only [fieldsPtr_cons, List.headD_cons, hspec, Nat.zero_add]
  rw [makeCompressed_fieldsPtr hres]

/-- A search state is compressed to the residual it points to. -/
theorem vtplSearchCompress_moveTo (state : SearchState) (i : ℕ) {r : Fields}
    (hr : r ≠ []) :
    vtplSearchCompress (state.moveTo i r) = (i, encVtpl r) := by
  rw [vtplSearchCompress]
  exact congrArg (Prod.mk i) (makeCompressed_fieldsPtr hr)

end SolidDB
