import SolidDB.Foundation.KeptFields
import SolidDB.Uti.VtplExpand

/-!
# Expanding a sequence of v-tuples

`vtpl_save_expand` keeps the symbols that the next compressed tuple shares with the one before
it, and `vtpl_copy_expand` puts the tuple together. The prefix buffer holds the data of the kept
fields from its start up, and from its end down the positions in the data at which fields begin;
here these are listed from the end down. A write outside of the space between the two ends the
run.
-/

namespace SolidDB

open FrontCoding

/-- `vtpl_expand_state`; `pfxSize` is the size of the prefix buffer in bytes. -/
structure VtplExpandState where
  pVtpl : Option (List UInt8)
  iMismatch : ℕ
  pfxData : List UInt8
  pfxArr : List ℕ
  pfxSize : ℕ
  deriving DecidableEq

namespace VtplExpandState

def init : VtplExpandState := ⟨none, 0, [], [], 200⟩

def freeSpace (es : VtplExpandState) : ℕ := es.pfxSize - (es.pfxData.length + 4 * es.pfxArr.length)

/-- `expand_grow`: the new free space is 80 bytes more than what the old one lacks, rounded
down with the whole buffer. -/
def grow (es : VtplExpandState) (lNeeded : ℕ) : VtplExpandState :=
  let lNewFree := 80 + (lNeeded - es.freeSpace)
  { es with
    pfxSize := (es.pfxData.length + lNewFree + 4 * es.pfxArr.length) / 4 * 4 }

def growIf (es : VtplExpandState) (lNeeded lGrow : ℕ) : VtplExpandState :=
  if es.freeSpace < lNeeded then es.grow lGrow else es

def appendData (es : VtplExpandState) (data : List UInt8) : Option VtplExpandState :=
  if data.length ≤ es.freeSpace then some { es with pfxData := es.pfxData ++ data } else none

def pushField (es : VtplExpandState) : Option VtplExpandState :=
  if 4 ≤ es.freeSpace then some { es with pfxArr := es.pfxArr ++ [es.pfxData.length] } else none

/-- The loop that drops the fields behind the new mismatch index. -/
def shrinkFields : List ℕ → ℕ → ℕ × List ℕ
  | [], iNextMismatch => (iNextMismatch, [])
  | offset :: offsets, iNextMismatch =>
      if offset < iNextMismatch then
        let r := shrinkFields offsets (iNextMismatch - 1)
        (r.1, offset :: r.2)
      else (iNextMismatch, [])

/-- The loop that copies more fields of the current tuple. -/
def growFields : ℕ → VtplExpandState → List UInt8 → ℕ → Option VtplExpandState
  | 0, es, _, _ => some es
  | fuel + 1, es, pVtplField, iNextMismatch =>
      if iNextMismatch = 0 then some es
      else
        let iNextMismatch := iNextMismatch - 1
        ((es.growIf (iNextMismatch + 4) (iNextMismatch + 4)).pushField).bind fun es =>
          if 0 < iNextMismatch ∧ pVtplField ≠ [] then
            let (pVtplFieldData, lVtplFieldData) := vaGetdata pVtplField
            let lWantSpace := min iNextMismatch lVtplFieldData
            (es.appendData (pVtplFieldData.take lWantSpace)).bind fun es =>
              growFields fuel es (pVtplFieldData.drop lVtplFieldData) (iNextMismatch - lWantSpace)
          else growFields fuel es pVtplField iNextMismatch

end VtplExpandState

open VtplExpandState

def vtplSaveExpand (es : VtplExpandState) (iNextMismatch : ℕ) (nextVtpl : List UInt8) :
    Option VtplExpandState :=
  let pVtpl := es.pVtpl
  let iMismatch := es.iMismatch
  let es := { es with pVtpl := some nextVtpl }
  if iMismatch = iNextMismatch then some es
  else
    let es := { es with iMismatch := iNextMismatch }
    if iNextMismatch < iMismatch then
      let r := shrinkFields es.pfxArr iNextMismatch
      some { es with pfxData := es.pfxData.take r.1, pfxArr := r.2 }
    else
      let iNextMismatch := iNextMismatch - iMismatch
      pVtpl.bind fun pVtpl =>
        let pVtplField := vtplGetdata pVtpl
        if 0 < pVtplField.length then
          let (pVtplFieldData, lVtplFieldData) := vaGetdata pVtplField
          let lWantSpace := min iNextMismatch lVtplFieldData
          ((es.growIf lWantSpace iNextMismatch).appendData
              (pVtplFieldData.take lWantSpace)).bind fun es =>
            growFields iNextMismatch es (pVtplFieldData.drop lVtplFieldData)
              (iNextMismatch - lWantSpace)
        else growFields iNextMismatch es pVtplField iNextMismatch

/-- The v-attributes of the whole fields in the prefix buffer, with the start of the last one. -/
def copyFields (pfxData : List UInt8) : ℕ → List ℕ → List UInt8 × ℕ
  | off, [] => ([], off)
  | off, offset :: offsets =>
      let field := (pfxData.drop off).take (offset - off)
      let r := copyFields pfxData offset offsets
      (vaSetLen (offset - off) ++ field ++ r.1, r.2)

/-- `vtpl_copy_expand`: the size of the tuple, and what is written if the target has that size. -/
def vtplCopyExpand (es : VtplExpandState) (lTargetVtpl : ℕ) : ℕ × Option (List UInt8) :=
  let pVtplField := vtplGetdata (es.pVtpl.getD [])
  let (pVtplMismatch, lVtplMismatch) :=
    if pVtplField.length = 0 then ([], 0) else vaGetdata pVtplField
  let (fields, off) := copyFields es.pfxData 0 es.pfxArr
  let lPfxMismatch := es.pfxData.length - off
  let lFullVtpl := fields.length + vaLenLen (lPfxMismatch + lVtplMismatch) + lPfxMismatch +
    pVtplMismatch.length
  let lFullVtpl := lFullVtpl + vaLenLen lFullVtpl
  (lFullVtpl,
    if lFullVtpl ≤ lTargetVtpl then
      some (vaSetLen lFullVtpl ++ (fields ++ (vaSetLen (lPfxMismatch + lVtplMismatch) ++
        ((es.pfxData.drop off).take lPfxMismatch ++ pVtplMismatch))))
    else none)

/-! ## The prefix buffer -/

namespace VtplExpandState

variable {es es' : VtplExpandState} {v w : Fields} {i j fuel : ℕ}

/-- The buffer has the data and the offsets, and the rest of the state is as before. -/
structure Holds (es es' : VtplExpandState) (pfxData : List UInt8) (pfxArr : List ℕ) : Prop where
  pVtpl : es'.pVtpl = es.pVtpl
  iMismatch : es'.iMismatch = es.iMismatch
  pfxData : es'.pfxData = pfxData
  pfxArr : es'.pfxArr = pfxArr

theorem holds_growIf (es : VtplExpandState) (lNeeded lGrow : ℕ) :
    Holds es (es.growIf lNeeded lGrow) es.pfxData es.pfxArr := by
  rw [growIf]
  split
  · exact ⟨rfl, rfl, rfl, rfl⟩
  · exact ⟨rfl, rfl, rfl, rfl⟩

theorem holds_of_appendData {data : List UInt8} (h : es.appendData data = some es') :
    Holds es es' (es.pfxData ++ data) es.pfxArr := by
  rw [appendData] at h
  split at h
  · rw [← Option.some.inj h]
    exact ⟨rfl, rfl, rfl, rfl⟩
  · cases h

theorem holds_of_pushField (h : es.pushField = some es') :
    Holds es es' es.pfxData (es.pfxArr ++ [es.pfxData.length]) := by
  rw [pushField] at h
  split at h
  · rw [← Option.some.inj h]
    exact ⟨rfl, rfl, rfl, rfl⟩
  · cases h

theorem Holds.trans {es₁ es₂ : VtplExpandState} {data data' : List UInt8} {arr arr' : List ℕ}
    (h : Holds es es₁ data arr) (h' : Holds es₁ es₂ data' arr') : Holds es es₂ data' arr' :=
  ⟨h'.pVtpl.trans h.pVtpl, h'.iMismatch.trans h.iMismatch, h'.pfxData, h'.pfxArr⟩

theorem growFields_zero (fuel : ℕ) (es : VtplExpandState) (pVtplField : List UInt8) :
    growFields fuel es pVtplField 0 = some es := by
  cases fuel with
  | zero => rfl
  | succ fuel => rw [growFields, if_pos rfl]

/-- A field is begun for every boundary, and filled as far as the index goes. -/
theorem growFields_spec (hw : netlen w < 2 ^ 32) (hj : j ≤ (tupleSyms w).length) (hfuel : j < fuel)
    (h : growFields fuel es (encFields w) (j + 1) = some es') :
    Holds es es' (es.pfxData ++ ((keptFields w j).1.flatten ++ (keptFields w j).2))
      (es.pfxArr ++ es.pfxData.length :: fieldEnds es.pfxData.length (keptFields w j).1) := by
  induction fuel generalizing es w j with
  | zero => exact absurd hfuel (Nat.not_lt_zero j)
  | succ fuel ih =>
      rw [growFields, if_neg (Nat.succ_ne_zero j), Option.bind_eq_some_iff] at h
      obtain ⟨es₁, hpush, h⟩ := h
      have hgrow := holds_growIf es (j + 1 - 1 + 4) (j + 1 - 1 + 4)
      have hpushed := holds_of_pushField hpush
      rw [hgrow.pfxData, hgrow.pfxArr] at hpushed
      have hfirst := hgrow.trans hpushed
      rw [Nat.add_sub_cancel] at h
      cases w with
      | nil =>
          rw [tupleSyms_nil, List.length_nil] at hj
          obtain rfl := Nat.le_zero.mp hj
          rw [if_neg (fun hand => absurd hand.1 (lt_irrefl 0)), growFields_zero] at h
          rw [← Option.some.inj h]
          simpa [fieldEnds] using hfirst
      | cons f w =>
          rw [netlen_cons] at hw
          rcases Nat.eq_zero_or_pos j with rfl | hpos
          · rw [if_neg (fun hand => absurd hand.1 (lt_irrefl 0)), growFields_zero] at h
            rw [← Option.some.inj h]
            simpa [fieldEnds] using hfirst
          · have hne : encFields (f :: w) ≠ [] := by
              rw [Ne, encFields_eq_nil_iff]
              exact List.cons_ne_nil f w
            rw [if_pos ⟨hpos, hne⟩, encFields_cons, vaGetdata_encVa (by omega)] at h
            simp only [Option.bind_eq_some_iff, List.drop_left] at h
            obtain ⟨es₂, happend, h⟩ := h
            have happended := hfirst.trans (holds_of_appendData happend)
            rw [hfirst.pfxData, hfirst.pfxArr] at happended
            rcases le_or_eq_add f j with hle | ⟨k, rfl⟩
            · rw [Nat.min_eq_left hle, Nat.sub_self, growFields_zero] at h
              rw [Nat.min_eq_left hle, List.take_append_of_le_length hle] at happended
              rw [← Option.some.inj h, keptFields_cons_of_le w hle]
              exact happended
            · rw [tupleSyms_cons, List.length_append, length_fieldSyms] at hj
              have hmin : min (f.length + 1 + k) f.length = f.length := by omega
              have hsub : f.length + 1 + k - f.length = k + 1 := by omega
              rw [hmin, hsub] at h
              rw [hmin, List.take_left] at happended
              have hrest := ih (by omega) (by omega) (by omega) h
              have hall := happended.trans hrest
              rw [happended.pfxData, happended.pfxArr, List.length_append] at hall
              rw [keptFields_cons_succ]
              simpa [fieldEnds] using hall

/-- The offsets of the fields that are kept stay, and the index without them is the length of
the data. -/
theorem shrinkFields_spec (off : ℕ) (hi : i ≤ (tupleSyms v).length) (hj : j ≤ i) :
    shrinkFields (fieldEnds off (keptFields v i).1) (off + j) =
      (off + ((keptFields v j).1.flatten ++ (keptFields v j).2).length,
        fieldEnds off (keptFields v j).1) := by
  induction v generalizing i j off with
  | nil =>
      rw [tupleSyms_nil, List.length_nil] at hi
      obtain rfl : j = 0 := by omega
      rw [Nat.le_zero.mp hi, keptFields_zero]
      rfl
  | cons f v ih =>
      rcases le_or_eq_add f i with hle | ⟨k, rfl⟩
      · rw [keptFields_cons_of_le v hle, keptFields_cons_of_le v (hj.trans hle)]
        simp [fieldEnds, shrinkFields, hj.trans hle]
      · rw [keptFields_cons_succ, fieldEnds, shrinkFields]
        rcases le_or_eq_add f j with hle | ⟨l, rfl⟩
        · rw [if_neg (by omega), keptFields_cons_of_le v hle]
          simp [fieldEnds, hle]
        · rw [tupleSyms_cons, List.length_append, length_fieldSyms] at hi
          have hsub : off + (f.length + 1 + l) - 1 = off + f.length + l := by omega
          rw [if_pos (by omega), hsub, ih _ (by omega) (show l ≤ k by omega),
            keptFields_cons_succ, fieldEnds, List.flatten_cons]
          simp only [List.length_append, Prod.mk.injEq, and_true]
          omega

structure Keeps (es : VtplExpandState) (v : Fields) (i : ℕ) : Prop where
  pfxData : es.pfxData = (keptFields v i).1.flatten ++ (keptFields v i).2
  pfxArr : es.pfxArr = fieldEnds 0 (keptFields v i).1

/-- The state after a tuple was given: the symbols it shares are kept, and it is compressed to
the residual. -/
structure Saved (es : VtplExpandState) (v : Fields) (i : ℕ) : Prop where
  index_lt : i < (tupleSyms v).length
  iMismatch : es.iMismatch = i
  pVtpl : es.pVtpl = some (encVtpl (FrontCoding.residual v i))
  keeps : es.Keeps v i

end VtplExpandState

/-- Behind the first field of the current tuple the buffer keeps `j` symbols more. -/
theorem keeps_of_growFields {es es' es'' : VtplExpandState} {v w : Fields} {g : List UInt8}
    {i j : ℕ} (hnet : netlen (g :: w) < 2 ^ 32) (hi : i < (tupleSyms v).length)
    (hres : FrontCoding.residual v i = g :: w) (hj : i + j ≤ (tupleSyms v).length)
    (hkeeps : es.Keeps v i) (hdata : es'.pfxData = es.pfxData ++ g.take (min j g.length))
    (harr : es'.pfxArr = es.pfxArr)
    (h : growFields j es' (encFields w) (j - min j g.length) = some es'') :
    es''.iMismatch = es'.iMismatch ∧ es''.pVtpl = es'.pVtpl ∧ es''.Keeps v (i + j) := by
  have hadd := keptFields_add (j := j) hi hres
  rw [netlen_cons] at hnet
  rcases le_or_eq_add g j with hle | ⟨k, rfl⟩
  · rw [if_pos hle] at hadd
    rw [Nat.min_eq_left hle, Nat.sub_self, growFields_zero] at h
    rw [Nat.min_eq_left hle] at hdata
    rw [← Option.some.inj h]
    refine ⟨rfl, rfl, ?_, ?_⟩
    · rw [hdata, hkeeps.pfxData, hadd, List.append_assoc]
    · rw [harr, hkeeps.pfxArr, hadd]
  · have hmin : min (g.length + 1 + k) g.length = g.length := by omega
    have hsub : g.length + 1 + k - g.length = k + 1 := by omega
    have hsub' : g.length + 1 + k - g.length - 1 = k := by omega
    have hlen := congrArg List.length (tupleSyms_residual hi.le)
    rw [hres, tupleSyms_cons, List.length_append, length_fieldSyms, List.length_drop] at hlen
    rw [if_neg (by omega), hsub'] at hadd
    rw [hmin, hsub] at h
    rw [hmin, List.take_length] at hdata
    have hgrown := growFields_spec (by omega) (by omega) (by omega) h
    rw [hdata, harr, hkeeps.pfxData, hkeeps.pfxArr] at hgrown
    refine ⟨hgrown.iMismatch, hgrown.pVtpl, ?_, ?_⟩
    · rw [hgrown.pfxData, hadd]
      simp only [List.flatten_append, List.flatten_cons, List.append_assoc]
    · rw [hgrown.pfxArr, hadd, fieldEnds_append, fieldEnds, Nat.zero_add, List.append_assoc]
      simp only [List.length_append]

/-- The next tuple shares its first symbols with the current one. -/
theorem saved_of_vtplSaveExpand {es es' : VtplExpandState} {v w : Fields} {i j : ℕ}
    (hfits : VtplFits v) (hs : es.Saved v i) (hj : j ≤ (tupleSyms v).length)
    (hjw : j < (tupleSyms w).length) (hsame : keptFields w j = keptFields v j)
    (h : vtplSaveExpand es j (encVtpl (FrontCoding.residual w j)) = some es') :
    es'.Saved w j := by
  have hnext : es'.iMismatch = j ∧ es'.pVtpl = some (encVtpl (FrontCoding.residual w j)) ∧
      es'.Keeps v j := by
    rw [vtplSaveExpand, hs.iMismatch, hs.pVtpl] at h
    simp only at h
    split at h
    next heq =>
      rw [← Option.some.inj h, ← heq]
      exact ⟨rfl, rfl, hs.keeps.pfxData, hs.keeps.pfxArr⟩
    next hne =>
      split at h
      next hless =>
        have hshrink := VtplExpandState.shrinkFields_spec 0 hs.index_lt.le hless.le
        rw [Nat.zero_add, Nat.zero_add] at hshrink
        rw [hs.keeps.pfxArr, hs.keeps.pfxData, hshrink] at h
        rw [← Option.some.inj h]
        exact ⟨rfl, rfl, List.prefix_iff_eq_take.mp (isPrefix_keptFields v hless.le) ▸ rfl, rfl⟩
      next hmore =>
        have hresfits := hfits.residual hs.index_lt
        obtain ⟨g, u, hres⟩ := List.exists_cons_of_ne_nil hresfits.1
        rw [hres] at hresfits h
        have hget := vtplGetdata_encVtpl hresfits.netlen_lt []
        rw [List.append_nil] at hget
        have hfirst := hresfits.netlen_lt
        rw [netlen_cons] at hfirst
        have hpos : 0 < (encFields (g :: u)).length := netlen_pos (List.cons_ne_nil g u)
        rw [Option.bind_some, hget, if_pos hpos, encFields_cons, vaGetdata_encVa (by omega)] at h
        simp only [Option.bind_eq_some_iff, List.drop_left] at h
        obtain ⟨es₁, happend, hgrow⟩ := h
        have hgrowIf := VtplExpandState.holds_growIf
          { es with pVtpl := some (encVtpl (FrontCoding.residual w j)), iMismatch := j }
          (min (j - i) g.length) (j - i)
        have happended := VtplExpandState.holds_of_appendData happend
        rw [hgrowIf.pfxData, hgrowIf.pfxArr,
          List.take_append_of_le_length (Nat.min_le_right _ _)] at happended
        have hall := hgrowIf.trans happended
        obtain ⟨hindex, hvtpl, hkeeps⟩ := keeps_of_growFields hresfits.netlen_lt hs.index_lt hres
          (show i + (j - i) ≤ (tupleSyms v).length by omega) hs.keeps hall.pfxData hall.pfxArr hgrow
        have hsum : i + (j - i) = j := by omega
        rw [hsum] at hkeeps
        exact ⟨hindex.trans hall.iMismatch, hvtpl.trans hall.pVtpl, hkeeps⟩
  exact ⟨hjw, hnext.1, hnext.2.1, by rw [hsame]; exact hnext.2.2.pfxData,
    by rw [hsame]; exact hnext.2.2.pfxArr⟩

end SolidDB
