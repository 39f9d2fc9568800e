import SolidDB.Foundation.Memory
import SolidDB.Uti.VtplCompress

/-!
# Expanding v-tuples

`uti_expand` of `uti0vcmp.h`. It finds the field of the previous tuple that the
mismatch index falls into and puts together the fields before it, the first
bytes of that field and the compressed tuple.

The target is either a buffer of its own (`utiExpand`) or the buffer of the
previous tuple (`utiExpandInplace`). In the second case the bytes are moved from
right to left when a length grows from one byte to five and copied from left to
right otherwise; `memcpy` is taken to copy from the lowest address up, which is
what its use at the label `copy_from_left_to_right` rests on.
-/

namespace SolidDB

open FrontCoding Memory

/-- Where the mismatch index falls: the rest of the index, `p_prev_field`,
`p_prev_data` and `l_prev_field`. -/
structure ExpandPoint where
  iMismatch : ℕ
  pPrevField : List UInt8
  pPrevData : List UInt8
  lPrevField : ℕ
deriving DecidableEq, Repr

/-- The loop of `uti_expand` that finds the point of mismatch. It fails where
the index runs over the end of the previous tuple. -/
def expandFindMismatch : ℕ → ℕ → List UInt8 → Option ExpandPoint
  | 0, _, _ => none
  | fuel + 1, iMismatch, pPrevField =>
      let (pPrevData, lPrevField) := vaGetdata pPrevField
      if iMismatch ≤ lPrevField then
        some ⟨iMismatch, pPrevField, pPrevData, lPrevField⟩
      else
        let iMismatch := iMismatch - (lPrevField + 1)
        let pPrevField := pPrevData.drop lPrevField
        if iMismatch = 0 then some ⟨0, pPrevField, pPrevData, lPrevField⟩
        else if pPrevField = [] then none
        else expandFindMismatch fuel iMismatch pPrevField

structure ExpandLengths where
  lCommonPortion : ℕ
  lMismatchField : ℕ
  lTarget : ℕ
  newPortion : List UInt8
deriving DecidableEq, Repr

def expandLengths (fSplit : Bool) (pPrevStart : List UInt8) (pt : ExpandPoint)
    (compressedVtpl : List UInt8) : ExpandLengths :=
  let (pCompData, lCompField) := vaGetdata (vtplGetdata compressedVtpl)
  let lCommonPortion := pPrevStart.length - pt.pPrevField.length
  let lNewPortion :=
    if fSplit then min 1 pt.pPrevField.length else pCompData.length
  let lMismatchField :=
    pt.iMismatch + if fSplit then min lCompField lNewPortion else lCompField
  let lTarget :=
    lCommonPortion + vaLenLen lMismatchField + pt.iMismatch + lNewPortion
  { lCommonPortion, lMismatchField, lTarget
    newPortion :=
      if fSplit then
        -- the byte is read behind the compressed tuple where its field is empty
        (if lNewPortion ≠ 0 then [(vaGetdata (vaGetdata compressedVtpl).1).1.headD 0] else [])
      else pCompData }

/-- `uti_expand` with a target buffer of its own. -/
def utiExpand (fSplit : Bool) (prevVtpl compressedVtpl : List UInt8)
    (iMismatch : ℕ) : Option (List UInt8) :=
  let pPrevStart := vtplGetdata prevVtpl
  (expandFindMismatch (pPrevStart.length + 1) iMismatch pPrevStart).map fun pt =>
    let l := expandLengths fSplit pPrevStart pt compressedVtpl
    vaSetLen l.lTarget ++ pPrevStart.take l.lCommonPortion ++
      vaSetLen l.lMismatchField ++ pt.pPrevData.take pt.iMismatch ++ l.newPortion

/-- `vtpl_expand` with a target buffer of its own. -/
def vtplExpand (prevVtpl compressedVtpl : List UInt8) (iMismatch : ℕ) :
    Option (List UInt8) :=
  if iMismatch = 0 then
    some (compressedVtpl.take (vtplGrosslen compressedVtpl))
  else utiExpand false prevVtpl compressedVtpl iMismatch

def vaDataOffset (c : List UInt8) : ℕ :=
  if byteLenTest (c.headD 0).toNat then 1 else 5

/-- `uti_expand` where the target is the buffer of the previous tuple, which
stands at `target` in a memory area of `size` bytes. -/
def utiExpandInplace (m : Mem UInt8) (target size : ℕ)
    (compressedVtpl : List UInt8) (iMismatch : ℕ) : Option (Mem UInt8) :=
  let prevVtpl := read m target size
  let lFull := (vaGetdata prevVtpl).2
  let pPrevStart := vtplGetdata prevVtpl
  (expandFindMismatch (pPrevStart.length + 1) iMismatch pPrevStart).map fun pt =>
    let l := expandLengths false pPrevStart pt compressedVtpl
    let prevStart := target + vaDataOffset prevVtpl
    let prevData := prevStart + (pPrevStart.length - pt.pPrevData.length)
    let targetData := target + vaLenLen l.lTarget
    let mismatchFieldLen := targetData + l.lCommonPortion
    let mismatchFieldData := mismatchFieldLen + vaLenLen l.lMismatchField
    let lenlenDiff : ℤ :=
      (byteLenTest lFull).toInt - (byteLenTest l.lTarget).toInt
    let fieldLenlenDiff : ℤ :=
      (byteLenTest pt.lPrevField).toInt - (byteLenTest l.lMismatchField).toInt
    let m :=
      if lenlenDiff < 0 ∨ lenlenDiff = 0 ∧ fieldLenlenDiff ≤ 0 then
        -- copy_from_left_to_right
        let m := write m target (vaSetLen l.lTarget)
        let m := copyUp m targetData prevStart l.lCommonPortion
        let m := write m mismatchFieldLen (vaSetLen l.lMismatchField)
        copyUp m mismatchFieldData prevData pt.iMismatch
      else
        -- copy_from_right_to_left
        let m := move m mismatchFieldData prevData pt.iMismatch
        let m := move m targetData prevStart l.lCommonPortion
        let m := write m mismatchFieldLen (vaSetLen l.lMismatchField)
        write m target (vaSetLen l.lTarget)
    write m (mismatchFieldData + pt.iMismatch) l.newPortion

/-- `vtpl_expand` where the target is the buffer of the previous tuple. -/
def vtplExpandInplace (m : Mem UInt8) (target size : ℕ)
    (compressedVtpl : List UInt8) (iMismatch : ℕ) : Option (Mem UInt8) :=
  if iMismatch = 0 then
    some (write m target (compressedVtpl.take (vtplGrosslen compressedVtpl)))
  else utiExpandInplace m target size compressedVtpl iMismatch

/-! ## The point of mismatch -/

/-- What the search for the point of mismatch finds in the tuple `p`: the
fields `d` lie before it and the bytes `t` of the next field are kept. -/
structure ExpandPoint.Splits (pt : ExpandPoint) (p : Fields) (i : ℕ)
    (d : Fields) (t : List UInt8) : Prop where
  prefix_eq : encFields p = encFields d ++ pt.pPrevField
  length_eq : t.length = pt.iMismatch
  take_eq : pt.pPrevData.take pt.iMismatch = t
  inside : pt.iMismatch ≠ 0 →
    pt.pPrevField = vaSetLen pt.lPrevField ++ pt.pPrevData
  rejoin_eq : ∀ c : Fields, c ≠ [] →
    rejoin p i c = d ++ (t ++ c.headD []) :: c.tail

theorem cons_headD_tail {c : Fields} (hc : c ≠ []) :
    c.headD [] :: c.tail = c := by
  obtain ⟨g, w, rfl⟩ := List.exists_cons_of_ne_nil hc
  rfl

theorem expandFindMismatch_spec {p : Fields} {i fuel : ℕ} (hp : VtplFits p)
    (hi : i ≤ (tupleSyms p).length) (hfuel : p.length ≤ fuel) :
    ∃ pt d t, expandFindMismatch fuel i (encFields p) = some pt ∧
      pt.Splits p i d t := by
  induction p generalizing i fuel with
  | nil => exact absurd rfl hp.1
  | cons f p ih =>
      obtain ⟨fuel, rfl⟩ : ∃ n, fuel = n + 1 :=
        ⟨fuel - 1, by rw [List.length_cons] at hfuel; omega⟩
      rw [expandFindMismatch, vaGetdata_encFields hp.1 hp.netlen_lt]
      simp only [fieldsPtr_cons, List.headD_cons, List.drop_left]
      by_cases hle : i ≤ f.length
      · rw [if_pos hle]
        refine ⟨_, [], f.take i, rfl, ?_⟩
        refine ⟨rfl, by simp [hle], by simp [List.take_append_of_le_length, hle],
          ?_, ?_⟩
        · intro _
          simp [encVa]
        · intro c _
          simp [rejoin, hle]
      · rw [if_neg hle]
        by_cases hzero : i - (f.length + 1) = 0
        · rw [if_pos hzero]
          refine ⟨_, [f], [], rfl, ?_⟩
          refine ⟨by simp, rfl, rfl, fun h => absurd rfl h, ?_⟩
          intro c hc
          have hi0 : i - f.length - 1 = 0 := by omega
          rw [rejoin, if_neg hle, hi0]
          cases p with
          | nil =>
              rw [rejoin, List.nil_append, cons_headD_tail hc]
              rfl
          | cons g p => simp [rejoin]
        · have hlen : i - (f.length + 1) ≤ (tupleSyms p).length := by
            rw [tupleSyms_cons, List.length_append, length_fieldSyms] at hi
            omega
          have hpne : p ≠ [] := by
            rintro rfl
            simp at hlen
            omega
          have hpfits : VtplFits p := by
            refine ⟨hpne, ?_⟩
            have := hp.2
            rw [netlen_cons] at this
            omega
          rw [if_neg hzero, if_neg (by rwa [encFields_eq_nil_iff])]
          obtain ⟨pt, d, t, heq, hs⟩ := ih hpfits hlen
            (by simpa using hfuel)
          refine ⟨pt, f :: d, t, heq, ?_, hs.length_eq, hs.take_eq, hs.inside, ?_⟩
          · rw [encFields_cons, encFields_cons, hs.prefix_eq, List.append_assoc]
          · intro c hc
            rw [rejoin, if_neg hle, Nat.sub_sub, hs.rejoin_eq c hc]
            rfl

theorem expandFindMismatch_eq_none {p : Fields} {i : ℕ} (hp : VtplFits p)
    (hi : (tupleSyms p).length < i) (fuel : ℕ) :
    expandFindMismatch fuel i (encFields p) = none := by
  induction p generalizing i fuel with
  | nil => exact absurd rfl hp.1
  | cons f p ih =>
      cases fuel with
      | zero => rfl
      | succ fuel =>
          rw [tupleSyms_cons, List.length_append, length_fieldSyms] at hi
          rw [expandFindMismatch, vaGetdata_encFields hp.1 hp.netlen_lt]
          simp only [fieldsPtr_cons, List.headD_cons, List.drop_left]
          rw [if_neg (by omega), if_neg (by omega)]
          by_cases hnil : p = []
          · rw [if_pos ((encFields_eq_nil_iff p).mpr hnil)]
          · rw [if_neg (by rwa [encFields_eq_nil_iff])]
            have hpfits : VtplFits p := by
              refine ⟨hnil, ?_⟩
              have := hp.2
              rw [netlen_cons] at this
              omega
            exact ih hpfits (by omega) fuel

theorem expandLengths_spec {p d c : Fields} {t : List UInt8} {i : ℕ}
    {pt : ExpandPoint} (hs : pt.Splits p i d t) (hc : VtplFits c)
    (rest : List UInt8) :
    expandLengths false (encFields p) pt (encVtpl c ++ rest) =
      { lCommonPortion := netlen d
        lMismatchField := (t ++ c.headD []).length
        lTarget := netlen (rejoin p i c)
        newPortion := fieldsPtr c } := by
  obtain ⟨g, w, rfl⟩ := List.exists_cons_of_ne_nil hc.1
  have hcommon : (encFields p).length - pt.pPrevField.length = netlen d := by
    rw [hs.prefix_eq, List.length_append, length_encFields]
    omega
  rw [expandLengths, vtplGetdata_encVtpl hc.netlen_lt, vaGetdata_encFields hc.1 hc.netlen_lt,
    hcommon, hs.rejoin_eq _ hc.1, ← hs.length_eq]
  simp only [Bool.false_eq_true, if_false, List.headD_cons, fieldsPtr_cons,
    List.tail_cons, List.length_append, length_encFields]
  congr 1
  simp [netlen]
  omega

theorem encVtpl_rejoin {p d c : Fields} {t : List UInt8} {i : ℕ}
    {pt : ExpandPoint} (hs : pt.Splits p i d t) (hc : c ≠ []) :
    encVtpl (rejoin p i c) =
      vaSetLen (netlen (rejoin p i c)) ++ encFields d ++
        vaSetLen (t ++ c.headD []).length ++ t ++ fieldsPtr c := by
  obtain ⟨g, w, rfl⟩ := List.exists_cons_of_ne_nil hc
  rw [encVtpl, encVa, length_encFields, hs.rejoin_eq _ hc]
  simp [encVa]

/-! ## Round trips -/

/-- Expansion puts the compressed tuple behind the first symbols of the
previous one. -/
theorem utiExpand_encVtpl {p c : Fields} {i : ℕ} (hp : VtplFits p)
    (hc : VtplFits c) (hi : i ≤ (tupleSyms p).length) (r s : List UInt8) :
    utiExpand false (encVtpl p ++ r) (encVtpl c ++ s) i =
      some (encVtpl (rejoin p i c)) := by
  have hfuel : p.length ≤ (encFields p).length + 1 := by
    have := length_le_netlen p
    rw [length_encFields]
    omega
  obtain ⟨pt, d, t, heq, hs⟩ := expandFindMismatch_spec hp hi hfuel
  have htake : (encFields p).take (netlen d) = encFields d := by
    rw [hs.prefix_eq, ← length_encFields d, List.take_left]
  rw [utiExpand, vtplGetdata_encVtpl hp.netlen_lt, heq, encVtpl_rejoin hs hc.1]
  simp only [Option.map_some, expandLengths_spec hs hc, htake, hs.take_eq]

theorem vtplExpand_eq_none {p : Fields} {i : ℕ} (hp : VtplFits p)
    (hi : (tupleSyms p).length < i) (r c : List UInt8) :
    vtplExpand (encVtpl p ++ r) c i = none := by
  rw [vtplExpand, if_neg (by omega), utiExpand, vtplGetdata_encVtpl hp.netlen_lt,
    expandFindMismatch_eq_none hp hi]
  rfl

theorem rejoin_zero (p : Fields) {c : Fields} (hc : c ≠ []) :
    rejoin p 0 c = c := by
  cases p with
  | nil => rfl
  | cons f p =>
      rw [rejoin, if_pos (Nat.zero_le _), List.take_zero, List.nil_append,
        cons_headD_tail hc]

theorem vtplExpand_encVtpl {p c : Fields} {i : ℕ} (hp : VtplFits p)
    (hc : VtplFits c) (hi : i ≤ (tupleSyms p).length) (r s : List UInt8) :
    vtplExpand (encVtpl p ++ r) (encVtpl c ++ s) i =
      some (encVtpl (rejoin p i c)) := by
  unfold vtplExpand
  split
  · rename_i hzero
    rw [hzero, rejoin_zero p hc.1, vtplGrosslen_encVtpl hc.netlen_lt, List.take_left]
  · exact utiExpand_encVtpl hp hc hi r s

/-! ## In place -/

theorem vaDataOffset_encVtpl {v : Fields} (h : netlen v < 2 ^ 32)
    (rest : List UInt8) :
    vaDataOffset (encVtpl v ++ rest) = vaLenLen (netlen v) := by
  by_cases hv : byteLenTest (netlen v) = true
  · have hlt := (byteLenTest_iff _).mp hv
    have hmod : netlen v % 256 = netlen v := Nat.mod_eq_of_lt (by omega)
    simp [vaDataOffset, vaLenLen, encVtpl, encVa, vaSetLen, length_encFields,
      hv, hmod]
  · have htest : byteLenTest 254 = false := rfl
    simp [vaDataOffset, vaLenLen, encVtpl, encVa, vaSetLen, length_encFields,
      hv, setFourByteLen, htest]

theorem write_frame {m : Mem UInt8} {a b n x : ℕ} {bs : List UInt8}
    (ha : b ≤ a) (hb : a + bs.length ≤ b + n) (hx : x < b ∨ b + n ≤ x) :
    write m a bs x = m x := by
  rcases hx with hx | hx
  · exact write_of_lt (by omega)
  · exact write_of_ge (by omega)

section Inplace

variable {m : Mem UInt8} {a l1 l1' l2 l2' : ℕ} {A T F H1 H2 : List UInt8}

/-- Copying from left to right where no length grows. The area at `a` holds
`l1` length bytes, `A`, `l2` length bytes and `T`; it ends up with the length
bytes `H1` and `H2` and with `F` appended. -/
theorem copyFromLeftToRight (hA : Holds m (a + l1) A)
    (hT : T ≠ [] → Holds m (a + l1 + A.length + l2) T)
    (h1 : H1.length ≤ l1) (h2 : T ≠ [] → H2.length ≤ l2) :
    ∀ m', m' = write (copyUp (write (copyUp (write m a H1) (a + H1.length)
        (a + l1) A.length) (a + H1.length + A.length) H2)
        (a + H1.length + A.length + H2.length) (a + l1 + A.length + l2)
        T.length)
      (a + H1.length + A.length + H2.length + T.length) F →
    Holds m' a (H1 ++ A ++ H2 ++ T ++ F) ∧
      ∀ x, x < a ∨ a + (H1 ++ A ++ H2 ++ T ++ F).length ≤ x → m' x = m x := by
  rintro _ rfl
  have hA1 : Holds (write m a H1) (a + l1) A := hA.write (Or.inr (by omega))
  rw [copyUp_of_holds hA1 (Or.inl (by omega))]
  have hT1 : copyUp (write (write (write m a H1) (a + H1.length) A)
        (a + H1.length + A.length) H2) (a + H1.length + A.length + H2.length)
        (a + l1 + A.length + l2) T.length =
      write (write (write (write m a H1) (a + H1.length) A)
        (a + H1.length + A.length) H2)
        (a + H1.length + A.length + H2.length) T := by
    by_cases hnil : T = []
    · subst hnil
      rw [write_nil]
      rfl
    · have h2' := h2 hnil
      have hTa : Holds (write m a H1) (a + l1 + A.length + l2) T :=
        (hT hnil).write (Or.inr (by omega))
      have hTb : Holds (write (write m a H1) (a + H1.length) A)
          (a + l1 + A.length + l2) T := hTa.write (Or.inr (by omega))
      have hTm : Holds (write (write (write m a H1) (a + H1.length) A)
          (a + H1.length + A.length) H2) (a + l1 + A.length + l2) T :=
        hTb.write (Or.inr (by omega))
      exact copyUp_of_holds hTm (Or.inl (by omega))
  rw [hT1]
  refine ⟨?_, ?_⟩
  · simp only [holds_append, List.length_append, ← Nat.add_assoc]
    refine ⟨⟨⟨⟨?_, ?_⟩, ?_⟩, ?_⟩, holds_write _ _ _⟩
    · exact ((((holds_write m a H1).write (Or.inl (by omega))).write
        (Or.inl (by omega))).write (Or.inl (by omega))).write (Or.inl (by omega))
    · exact (((holds_write _ _ A).write (Or.inl (by omega))).write
        (Or.inl (by omega))).write (Or.inl (by omega))
    · exact ((holds_write _ _ H2).write (Or.inl (by omega))).write
        (Or.inl (by omega))
    · exact (holds_write _ _ T).write (Or.inl (by omega))
  · intro x hx
    simp only [List.length_append] at hx
    have hframe {m : Mem UInt8} {c : ℕ} {bs : List UInt8} (hc : a ≤ c) (hend : c + bs.length ≤
        a + (H1.length + A.length + H2.length + T.length + F.length)) : write m c bs x = m x :=
      write_frame hc hend hx
    rw [hframe (by omega) (by omega), hframe (by omega) (by omega), hframe (by omega) (by omega),
      hframe (by omega) (by omega), hframe (by omega) (by omega)]

theorem copyFromRightToLeft (hA : Holds m (a + l1) A)
    (hT : T ≠ [] → Holds m (a + l1 + A.length + l2) T)
    (h1 : l1 ≤ H1.length) :
    ∀ m', m' = write (write (write (move (move m
          (a + H1.length + A.length + H2.length) (a + l1 + A.length + l2)
          T.length) (a + H1.length) (a + l1) A.length)
        (a + H1.length + A.length) H2) a H1)
      (a + H1.length + A.length + H2.length + T.length) F →
    Holds m' a (H1 ++ A ++ H2 ++ T ++ F) ∧
      ∀ x, x < a ∨ a + (H1 ++ A ++ H2 ++ T ++ F).length ≤ x → m' x = m x := by
  rintro _ rfl
  have hT1 : move m (a + H1.length + A.length + H2.length)
        (a + l1 + A.length + l2) T.length =
      write m (a + H1.length + A.length + H2.length) T := by
    by_cases hnil : T = []
    · subst hnil
      rw [write_nil, move, List.length_nil, read_zero, write_nil]
    · exact move_of_holds (hT hnil)
  have hA1 : Holds (write m (a + H1.length + A.length + H2.length) T) (a + l1) A :=
    hA.write (Or.inl (by omega))
  rw [hT1, move_of_holds hA1]
  refine ⟨?_, ?_⟩
  · simp only [holds_append, List.length_append, ← Nat.add_assoc]
    refine ⟨⟨⟨⟨?_, ?_⟩, ?_⟩, ?_⟩, holds_write _ _ _⟩
    · exact (holds_write _ a H1).write (Or.inl (by omega))
    · exact (((holds_write _ _ A).write (Or.inl (by omega))).write
        (Or.inr (by omega))).write (Or.inl (by omega))
    · exact ((holds_write _ _ H2).write (Or.inr (by omega))).write
        (Or.inl (by omega))
    · exact ((((holds_write _ _ T).write (Or.inr (by omega))).write
        (Or.inr (by omega))).write (Or.inr (by omega))).write (Or.inl (by omega))
  · intro x hx
    simp only [List.length_append] at hx
    have hframe {m : Mem UInt8} {c : ℕ} {bs : List UInt8} (hc : a ≤ c) (hend : c + bs.length ≤
        a + (H1.length + A.length + H2.length + T.length + F.length)) : write m c bs x = m x :=
      write_frame hc hend hx
    rw [hframe (by omega) (by omega), hframe (by omega) (by omega), hframe (by omega) (by omega),
      hframe (by omega) (by omega), hframe (by omega) (by omega)]

end Inplace

theorem vaLenLen_le_of_toInt_le {l l' : ℕ}
    (h : (byteLenTest l).toInt - (byteLenTest l').toInt ≤ 0) :
    vaLenLen l' ≤ vaLenLen l := by
  unfold vaLenLen
  cases hl : byteLenTest l <;> cases hl' : byteLenTest l' <;>
    simp_all [Bool.toInt]

theorem vaLenLen_le_of_le_toInt {l l' : ℕ}
    (h : 0 ≤ (byteLenTest l).toInt - (byteLenTest l').toInt) :
    vaLenLen l ≤ vaLenLen l' := by
  unfold vaLenLen
  cases hl : byteLenTest l <;> cases hl' : byteLenTest l' <;>
    simp_all [Bool.toInt]

theorem vaLenLen_eq_one_of_toInt_neg {l l' : ℕ}
    (h : (byteLenTest l).toInt - (byteLenTest l').toInt < 0) :
    vaLenLen l' = 1 := by
  unfold vaLenLen
  cases hl : byteLenTest l <;> cases hl' : byteLenTest l' <;>
    simp_all [Bool.toInt]

/-- The copy direction is chosen so that no byte is overwritten before it is
read: in its own buffer the previous tuple becomes the expanded one, and nothing
behind that changes. -/
theorem utiExpandInplace_encVtpl {m : Mem UInt8} {a size i : ℕ} {p c : Fields}
    (hp : VtplFits p) (hc : VtplFits c) (hi : i ≤ (tupleSyms p).length)
    (hm : Holds m a (encVtpl p)) (hsize : (encVtpl p).length ≤ size)
    (s : List UInt8) :
    ∃ m', utiExpandInplace m a size (encVtpl c ++ s) i = some m' ∧
      Holds m' a (encVtpl (rejoin p i c)) ∧
      ∀ x, x < a ∨ a + (encVtpl (rejoin p i c)).length ≤ x → m' x = m x := by
  have hfuel : p.length ≤ (encFields p).length + 1 := by
    have := length_le_netlen p
    rw [length_encFields]
    omega
  obtain ⟨pt, d, t, heq, hs⟩ := expandFindMismatch_spec hp hi hfuel
  have hprev := hm.read_add_eq hsize
  have hlfull : (vaGetdata (read m a size)).2 = netlen p := by
    rw [hprev, encVtpl, vaGetdata_encVa hp.netlen_lt]
    rfl
  have hmis : (t ++ c.headD []).length ≤ netlen (rejoin p i c) := by
    have hmem : (t ++ c.headD []).length ≤
        netlen ((t ++ c.headD []) :: c.tail) := length_le_of_mem_netlen
    rw [hs.rejoin_eq c hc.1]
    simp only [netlen, encFields_append, List.length_append] at hmem ⊢
    omega
  -- where the kept bytes stand before anything is written
  have henc : encVtpl p = vaSetLen (netlen p) ++ (encFields d ++ pt.pPrevField) := by
    rw [encVtpl, encVa, length_encFields, hs.prefix_eq]
  have hm' := hm
  rw [henc, holds_append, holds_append, length_vaSetLen] at hm'
  have hA : Holds m (a + vaLenLen (netlen p)) (encFields d) := hm'.2.1
  have hT : t ≠ [] → Holds m (a + vaLenLen (netlen p) + (encFields d).length +
      vaLenLen pt.lPrevField) t := by
    intro ht
    have hne : pt.iMismatch ≠ 0 := by
      rw [← hs.length_eq]
      exact fun h => ht (List.length_eq_zero_iff.mp h)
    have h2 := hm'.2.2
    rw [hs.inside hne, ← List.take_append_drop pt.iMismatch pt.pPrevData,
      hs.take_eq, holds_append, holds_append, length_vaSetLen] at h2
    exact h2.2.1
  have hdata : t ≠ [] → (encFields p).length - pt.pPrevData.length =
      (encFields d).length + vaLenLen pt.lPrevField := by
    intro ht
    have hne : pt.iMismatch ≠ 0 := by
      rw [← hs.length_eq]
      exact fun h => ht (List.length_eq_zero_iff.mp h)
    rw [hs.prefix_eq, hs.inside hne]
    simp only [List.length_append, length_vaSetLen]
    omega
  rw [utiExpandInplace, hlfull, hprev, vtplGetdata_encVtpl hp.netlen_lt, heq,
    vaDataOffset_encVtpl hp.netlen_lt]
  simp only [Option.map_some, expandLengths_spec hs hc, ← hs.length_eq,
    ← length_encFields d]
  refine ⟨_, rfl, ?_⟩
  have hsrc : ∀ {γ : Type} (g : ℕ → ℕ → γ),
      (t = [] → ∀ x y, g x 0 = g y 0) →
      g (a + vaLenLen (netlen p) +
        ((encFields p).length - pt.pPrevData.length)) t.length =
      g (a + vaLenLen (netlen p) + (encFields d).length +
        vaLenLen pt.lPrevField) t.length := by
    intro γ g hg
    by_cases ht : t = []
    · subst ht
      exact hg rfl _ _
    · rw [hdata ht, ← Nat.add_assoc]
  have hres := encVtpl_rejoin hs hc.1
  rw [hres]
  split
  · rename_i hdir
    have h1 : vaLenLen (netlen (rejoin p i c)) ≤ vaLenLen (netlen p) :=
      vaLenLen_le_of_toInt_le (by omega)
    have h2 : vaLenLen (t ++ c.headD []).length ≤ vaLenLen pt.lPrevField := by
      rcases hdir with hneg | ⟨-, hle⟩
      · have hone := vaLenLen_eq_one_of_toInt_neg hneg
        have hmono := vaLenLen_mono hmis
        have hpos := vaLenLen_pos pt.lPrevField
        omega
      · exact vaLenLen_le_of_toInt_le hle
    refine copyFromLeftToRight (F := fieldsPtr c) hA hT
      (by rw [length_vaSetLen]; exact h1)
      (fun _ => by rw [length_vaSetLen]; exact h2) _ ?_
    simp only [length_vaSetLen]
    congr 1
    exact hsrc (fun x n => copyUp _ _ x n) (fun _ _ _ => rfl)
  · rename_i hdir
    have h1 : vaLenLen (netlen p) ≤ vaLenLen (netlen (rejoin p i c)) := by
      apply vaLenLen_le_of_le_toInt
      omega
    refine copyFromRightToLeft (F := fieldsPtr c) hA hT
      (by rw [length_vaSetLen]; exact h1) _ ?_
    simp only [length_vaSetLen]
    congr 4
    exact hsrc (fun x n => move _ _ x n) (fun _ x y => by simp [move])

theorem vtplExpandInplace_encVtpl {m : Mem UInt8} {a i : ℕ} {p c : Fields}
    (hp : VtplFits p) (hc : VtplFits c) (hi : i ≤ (tupleSyms p).length)
    (hm : Holds m a (encVtpl p)) (size : ℕ) (hsize : (encVtpl p).length ≤ size)
    (s : List UInt8) :
    ∃ m', vtplExpandInplace m a size (encVtpl c ++ s) i = some m' ∧
      Holds m' a (encVtpl (rejoin p i c)) ∧
      ∀ x, x < a ∨ a + (encVtpl (rejoin p i c)).length ≤ x → m' x = m x := by
  unfold vtplExpandInplace
  split
  · rename_i hzero
    rw [hzero, rejoin_zero p hc.1, vtplGrosslen_encVtpl hc.netlen_lt, List.take_left]
    exact ⟨_, rfl, holds_write _ _ _, fun x hx =>
      write_frame (le_refl a) (le_refl _) hx⟩
  · exact utiExpandInplace_encVtpl hp hc hi hm hsize s

end SolidDB
