import SolidDB.Uti.VtplSaveExpand

/-!
# Copying expanded v-tuples

`vtpl_copy_expand` returns the size of the expanded tuple, but it writes that size, which counts
the length bytes too, as the length of the tuple. So it never gives the bytes of `vtpl_expand`.
-/

namespace SolidDB

open FrontCoding VtplExpandState

variable {es es' : VtplExpandState} {v w : Fields} {i : ℕ}

theorem copyFields_spec (d : Fields) (before behind : List UInt8) :
    copyFields (before ++ (d.flatten ++ behind)) before.length (fieldEnds before.length d) =
      (encFields d, before.length + d.flatten.length) := by
  induction d generalizing before with
  | nil => rfl
  | cons f d ih =>
      have hfield : (List.drop before.length (before ++ ((f :: d).flatten ++ behind))).take
          (before.length + f.length - before.length) = f := by
        rw [List.drop_left, Nat.add_sub_cancel_left, List.flatten_cons, List.append_assoc,
          List.take_left]
      have hrest := ih (before ++ f)
      have hsame : before ++ f ++ (d.flatten ++ behind) =
          before ++ ((f :: d).flatten ++ behind) := by
        rw [List.flatten_cons, List.append_assoc, List.append_assoc]
      rw [hsame, List.length_append] at hrest
      rw [fieldEnds, copyFields, hfield, hrest, Nat.add_sub_cancel_left, encFields_cons, encVa,
        List.flatten_cons, List.length_append, Nat.add_assoc]

theorem eq_keptFields_residual {g : List UInt8} {u : Fields} (hi : i < (tupleSyms v).length)
    (hres : FrontCoding.residual v i = g :: u) :
    v = (keptFields v i).1 ++ ((keptFields v i).2 ++ g) :: u := by
  have hrejoin := rejoin_eq_keptFields hi.le (residual_ne_nil hi)
  have hwhole : rejoin v i (FrontCoding.residual v i) = v := by
    apply tupleSyms_injective
    rw [tupleSyms_rejoin hi.le (residual_ne_nil hi), tupleSyms_residual hi.le,
      List.take_append_drop]
  rw [hwhole, hres] at hrejoin
  exact hrejoin

/-- The size is the gross length, which is also written as the length. -/
theorem vtplCopyExpand_eq (hfits : VtplFits v) (hs : es.Saved v i) (lTargetVtpl : ℕ) :
    vtplCopyExpand es lTargetVtpl =
      (netlen v + vaLenLen (netlen v),
        if netlen v + vaLenLen (netlen v) ≤ lTargetVtpl then
          some (vaSetLen (netlen v + vaLenLen (netlen v)) ++ encFields v)
        else none) := by
  have hresfits := hfits.residual hs.index_lt
  obtain ⟨g, u, hres⟩ := List.exists_cons_of_ne_nil hresfits.1
  rw [hres] at hresfits
  have hget := vtplGetdata_encVtpl hresfits.netlen_lt []
  rw [List.append_nil] at hget
  have hlt := hresfits.netlen_lt
  rw [netlen_cons] at hlt
  have hpos : (encFields (g :: u)).length ≠ 0 := (netlen_pos (List.cons_ne_nil g u)).ne'
  have hwhole := eq_keptFields_residual hs.index_lt hres
  have hcopy := copyFields_spec (keptFields v i).1 [] (keptFields v i).2
  rw [List.nil_append, List.length_nil, Nat.zero_add] at hcopy
  rw [vtplCopyExpand, hs.pVtpl, hres, Option.getD_some, hget, hs.keeps.pfxData, hs.keeps.pfxArr]
  simp only [if_neg hpos, hcopy]
  generalize (keptFields v i).1 = d at *
  generalize (keptFields v i).2 = t at *
  have hmismatch : (d.flatten ++ t).length - d.flatten.length = t.length := by
    rw [List.length_append, Nat.add_sub_cancel_left]
  have htake : ((d.flatten ++ t).drop d.flatten.length).take t.length = t := by
    rw [List.drop_left, List.take_length]
  have hnet : (encFields d).length + vaLenLen (t.length + g.length) + t.length +
      (g ++ encFields u).length = netlen v := by
    rw [hwhole, netlen, encFields_append, encFields_cons, encVa]
    simp only [List.length_append, length_vaSetLen]
    omega
  have hbytes : encFields v =
      encFields d ++ (vaSetLen (t.length + g.length) ++ (t ++ (g ++ encFields u))) := by
    rw [hwhole, encFields_append, encFields_cons, encVa, List.length_append, List.append_assoc,
      List.append_assoc]
  rw [encFields_cons, vaGetdata_encVa (by omega)]
  simp only [hmismatch, htake, hnet, hbytes]

/-! ## Sequences -/

def compressFrom : List UInt8 → List (List UInt8) → List (ℕ × List UInt8)
  | _, [] => []
  | prevVtpl, nextVtpl :: vtpls => vtplCompress prevVtpl nextVtpl :: compressFrom nextVtpl vtpls

def compressSequence : List (List UInt8) → List (ℕ × List UInt8)
  | [] => []
  | vtpl :: vtpls => (0, vtpl) :: compressFrom vtpl vtpls

/-- `vtpl_save_expand` on each tuple of a sequence. -/
def saveSequence : VtplExpandState → List (ℕ × List UInt8) → Option VtplExpandState
  | es, [] => some es
  | es, vtpl :: vtpls =>
      (vtplSaveExpand es vtpl.1 vtpl.2).bind fun es => saveSequence es vtpls

/-- `vtpl_expand` on each tuple of a sequence. -/
def expandSequence : List UInt8 → List (ℕ × List UInt8) → Option (List UInt8)
  | prevVtpl, [] => some prevVtpl
  | prevVtpl, vtpl :: vtpls =>
      (vtplExpand prevVtpl vtpl.2 vtpl.1).bind fun vtpl => expandSequence vtpl vtpls

/-- The last tuple of the sequence is copied as it is expanded, with its size, into every target
that is large enough. -/
def CopiesLast (vtpls : List (ℕ × List UInt8)) : Prop :=
  ∃ es vtpl, saveSequence .init vtpls = some es ∧ expandSequence [] vtpls = some vtpl ∧
    ∃ lEnough, ∀ lTargetVtpl, lEnough ≤ lTargetVtpl →
      vtplCopyExpand es lTargetVtpl = (vtplGrosslen vtpl, some vtpl)

def CopiesSequence (vtpls : List (List UInt8)) : Prop :=
  ∀ us, us <+: vtpls → us ≠ [] → CopiesLast (compressSequence us)

/-- The next tuple of a sequence is saved and expanded. -/
theorem saved_next (hv : VtplFits v) (hw : VtplFits w) (hs : es.Saved v i)
    (h : vtplSaveExpand es (vtplCompress (encVtpl v) (encVtpl w)).1
      (vtplCompress (encVtpl v) (encVtpl w)).2 = some es') :
    es'.Saved w (tupleMismatch v w) ∧
      vtplExpand (encVtpl v) (vtplCompress (encVtpl v) (encVtpl w)).2
        (vtplCompress (encVtpl v) (encVtpl w)).1 = some (encVtpl w) := by
  have hle := tupleMismatch_le_left v w
  have hlt := tupleMismatch_lt_length v hw.1
  have hrejoin := rejoin_residual hw.1 (le_refl (tupleMismatch v w))
  have hcompress := utiCompress_encVtpl hv hw [] []
  have hexpand := vtplExpand_encVtpl hv (hw.residual hlt) hle [] []
  rw [List.append_nil, List.append_nil] at hcompress hexpand
  rw [hrejoin] at hexpand
  rw [vtplCompress, hcompress] at h ⊢
  simp only at h ⊢
  have hsame : keptFields w (tupleMismatch v w) = keptFields v (tupleMismatch v w) := by
    have hkept := keptFields_rejoin hle (FrontCoding.residual w (tupleMismatch v w))
    rw [hrejoin] at hkept
    exact hkept
  have hnext : es'.Saved w (tupleMismatch v w) := saved_of_vtplSaveExpand hv hs hle hlt hsame h
  exact ⟨hnext, hexpand⟩

theorem saved_sequence {vs : List Fields} (hv : VtplFits v) (hvs : ∀ w ∈ vs, VtplFits w)
    (hs : es.Saved v i)
    (h : saveSequence es (compressFrom (encVtpl v) (vs.map encVtpl)) = some es') :
    ∃ w j, VtplFits w ∧ es'.Saved w j ∧
      expandSequence (encVtpl v) (compressFrom (encVtpl v) (vs.map encVtpl)) =
        some (encVtpl w) := by
  induction vs generalizing v es i with
  | nil =>
      rw [← Option.some.inj h]
      exact ⟨v, i, hv, hs, rfl⟩
  | cons w vs ih =>
      rw [List.map_cons, compressFrom, saveSequence] at h
      obtain ⟨es₁, hsave, hrest⟩ := Option.bind_eq_some_iff.mp h
      have hw := hvs w (List.mem_cons_self ..)
      obtain ⟨hnext, hexpand⟩ := saved_next hv hw hs hsave
      rw [List.map_cons, compressFrom, expandSequence, hexpand, Option.bind_some]
      exact ih hw (fun u hu => hvs u (List.mem_cons_of_mem _ hu)) hnext hrest

theorem saved_init (hv : VtplFits v) :
    ∃ es, vtplSaveExpand .init 0 (encVtpl v) = some es ∧ es.Saved v 0 :=
  ⟨_, rfl, length_tupleSyms_pos hv.1, rfl, by rw [residual_zero],
    by rw [keptFields_zero]; rfl, by rw [keptFields_zero]; rfl⟩

/-- Where a sequence is saved, the last tuple is the one that is expanded. -/
theorem saved_compressSequence {vs : List Fields} (hne : vs ≠ []) (hvs : ∀ v ∈ vs, VtplFits v)
    (h : saveSequence .init (compressSequence (vs.map encVtpl)) = some es) :
    ∃ w j, VtplFits w ∧ es.Saved w j ∧
      expandSequence [] (compressSequence (vs.map encVtpl)) = some (encVtpl w) := by
  obtain ⟨v, vs, rfl⟩ := List.exists_cons_of_ne_nil hne
  have hv := hvs v (List.mem_cons_self ..)
  obtain ⟨es₁, hsave, hs⟩ := saved_init hv
  have hgross := vtplGrosslen_encVtpl hv.netlen_lt []
  rw [List.append_nil] at hgross
  rw [List.map_cons, compressSequence, saveSequence, hsave, Option.bind_some] at h
  rw [List.map_cons, compressSequence, expandSequence, vtplExpand, if_pos rfl, hgross,
    List.take_length, Option.bind_some]
  exact saved_sequence hv (fun u hu => hvs u (List.mem_cons_of_mem _ hu)) hs h

theorem fourByteLen_setFourByteLen_mod (len : ℕ) :
    fourByteLen (setFourByteLen len) = len % 2 ^ 32 := by
  simp [fourByteLen, setFourByteLen]
  omega

/-- A length with its own bytes is not written as the length. -/
theorem vaSetLen_ne (len : ℕ) : vaSetLen (len + vaLenLen len) ≠ vaSetLen len := by
  intro hsame
  have hpos := vaLenLen_pos len
  have hle := vaLenLen_le len
  generalize vaLenLen len = n at hpos hle hsame
  rw [vaSetLen, vaSetLen] at hsame
  split at hsame
  next hlong =>
    split at hsame
    next hlen =>
      rw [byteLenTest_iff] at hlong
      have hbyte := congrArg UInt8.toNat (List.cons.inj hsame).1
      rw [UInt8.toNat_ofNat', UInt8.toNat_ofNat'] at hbyte
      omega
    next => exact absurd (congrArg List.length hsame) (show ¬ (1 : ℕ) = 5 by decide)
  next hlong =>
    split at hsame
    next => exact absurd (congrArg List.length hsame) (show ¬ (5 : ℕ) = 1 by decide)
    next =>
      have hfour := congrArg fourByteLen hsame
      rw [fourByteLen_setFourByteLen_mod, fourByteLen_setFourByteLen_mod] at hfour
      omega

/-- At every position that is reached the size of the copy is right, and its bytes are wrong. -/
theorem vtplCopyExpand_wrong {vs : List Fields} (hne : vs ≠ []) (hvs : ∀ v ∈ vs, VtplFits v)
    (h : saveSequence .init (compressSequence (vs.map encVtpl)) = some es) :
    ∃ vtpl, expandSequence [] (compressSequence (vs.map encVtpl)) = some vtpl ∧
      ∀ lTargetVtpl, (vtplCopyExpand es lTargetVtpl).1 = vtplGrosslen vtpl ∧
        (vtplCopyExpand es lTargetVtpl).2 ≠ some vtpl := by
  obtain ⟨w, j, hw, hs, hexpand⟩ := saved_compressSequence hne hvs h
  refine ⟨encVtpl w, hexpand, fun lTargetVtpl => ?_⟩
  have hgross := vtplGrosslen_encVtpl hw.netlen_lt []
  rw [List.append_nil, length_encVtpl] at hgross
  rw [vtplCopyExpand_eq hw hs, hgross]
  refine ⟨Nat.add_comm _ _, ?_⟩
  split
  next =>
    intro hsame
    have hbytes := Option.some.inj hsame
    rw [encVtpl, encVa, length_encFields] at hbytes
    exact vaSetLen_ne (netlen w) (List.append_cancel_right hbytes)
  next => exact (Option.some_ne_none _).symm

/-! ## The first tuple -/

theorem vaGetdata_vaSetLen_mod (len : ℕ) (rest : List UInt8) :
    vaGetdata (vaSetLen len ++ rest) = (rest, len % 2 ^ 32) := by
  by_cases hlen : byteLenTest len = true
  · have hlt := (byteLenTest_iff len).mp hlen
    rw [vaGetdata_vaSetLen (by omega), Nat.mod_eq_of_lt (by omega)]
  · have hset : vaSetLen len = setFourByteLen len := if_neg hlen
    have hfirst : ((setFourByteLen len ++ rest).headD 0).toNat = 0xFE := rfl
    have hfour : fourByteLen (setFourByteLen len ++ rest) = len % 2 ^ 32 :=
      fourByteLen_setFourByteLen_mod len
    rw [hset, vaGetdata, hfirst, hfour]
    rfl

/-- The first tuple is not copied right either, in whatever format its lengths are. -/
theorem not_copiesLast_first {t : List UInt8} (ht : VtplCode t v) : ¬ CopiesLast [(0, t)] := by
  rintro ⟨es, vtpl, hsave, hexpand, lEnough, hcopy⟩
  obtain ⟨h, b, r, rfl, hlen, hfields⟩ := ht.code
  have hget : vtplGetdata (h ++ (b ++ r)) = b := by
    rw [vtplGetdata, hlen.vaGetdata, List.take_left]
  have hvtpl : vtpl = h ++ b := by
    rw [expandSequence, vtplExpand, if_pos rfl, hlen.grosslen, ← List.append_assoc,
      ← List.length_append, List.take_left] at hexpand
    exact (Option.some.inj hexpand).symm
  obtain rfl : es = ⟨some (h ++ (b ++ r)), 0, [], [], 200⟩ := (Option.some.inj hsave).symm
  have hlt := hlen.lt
  cases hfields with
  | nil => exact absurd rfl ht.ne_nil
  | @cons l f b v hlen' hrest =>
      have hpos : (l ++ (f ++ b)).length ≠ 0 := by
        have hl := hlen'.length_pos
        rw [List.length_append]
        omega
      have hdrop : (List.drop 0 ([] : List UInt8)).take 0 = [] := rfl
      generalize hfull : vaLenLen f.length + (f ++ b).length = lFull at *
      have hcopied := congrArg Prod.snd (hcopy (max lEnough (lFull + vaLenLen lFull))
        (le_max_left ..))
      rw [vtplCopyExpand] at hcopied
      simp only [Option.getD_some, hget, if_neg hpos, hlen'.vaGetdata, copyFields, List.length_nil,
        Nat.zero_add, Nat.add_zero, Nat.sub_zero, hfull, if_pos (le_max_right ..), hdrop, hvtpl,
        List.nil_append, Option.some.injEq] at hcopied
      have hread := congrArg vaGetdata hcopied
      rw [vaGetdata_vaSetLen_mod, hlen.vaGetdata] at hread
      obtain ⟨hdata, hlength⟩ := Prod.mk.inj hread
      have hsize := congrArg List.length hdata
      rw [List.length_append, length_vaSetLen, hfull] at hsize
      have hle := vaLenLen_le lFull
      have hmore := vaLenLen_pos lFull
      omega

/-- At no position of any sequence the copy has the bytes of the expanded tuple. -/
theorem vtplCopyExpand_never {vtpls : List (List UInt8)} (hne : vtpls ≠ [])
    (hcode : ∀ t ∈ vtpls, ∃ v, VtplCode t v) :
    ¬ CopiesSequence vtpls ∧
      ∀ vs : List Fields, vtpls = vs.map encVtpl → (∀ v ∈ vs, VtplFits v) →
        ∀ es, saveSequence .init (compressSequence vtpls) = some es →
          ∃ vtpl, expandSequence [] (compressSequence vtpls) = some vtpl ∧
            ∀ lTargetVtpl, (vtplCopyExpand es lTargetVtpl).1 = vtplGrosslen vtpl ∧
              (vtplCopyExpand es lTargetVtpl).2 ≠ some vtpl := by
  constructor
  · intro hcopies
    obtain ⟨t, ts, rfl⟩ := List.exists_cons_of_ne_nil hne
    obtain ⟨v, hv⟩ := hcode t (List.mem_cons_self ..)
    exact not_copiesLast_first hv (hcopies [t] ⟨ts, rfl⟩ (List.cons_ne_nil t []))
  · rintro vs rfl hvs es hsave
    exact vtplCopyExpand_wrong (fun hnil => hne (congrArg (List.map encVtpl) hnil)) hvs hsave

theorem vtplCopyExpand_never_columns :
    ([encVtpl [[1]], encVtpl [[1], [2]]] ≠ [] ∧
        ∀ t ∈ [encVtpl [[1]], encVtpl [[1], [2]]], ∃ v, VtplCode t v) ∧
      ¬ CopiesSequence [encVtpl [[1]], encVtpl [[1], [2]]] := by
  have hcode : ∀ t ∈ [encVtpl [[1]], encVtpl [[1], [2]]], ∃ v, VtplCode t v := by
    intro t ht
    have hone := VtplFits.vtplCode (v := [[1]]) (by decide) []
    have htwo := VtplFits.vtplCode (v := [[1], [2]]) (by decide) []
    rw [List.append_nil] at hone htwo
    simp only [List.mem_cons, List.not_mem_nil, or_false] at ht
    rcases ht with rfl | rfl
    · exact ⟨_, hone⟩
    · exact ⟨_, htwo⟩
  exact ⟨⟨List.cons_ne_nil _ _, hcode⟩, (vtplCopyExpand_never (List.cons_ne_nil _ _) hcode).1⟩

/-- The copy of a tuple with one byte of data has the length three. -/
theorem not_copiesSequence_single :
    (saveSequence .init (compressSequence [[2, 1, 7]])).map (vtplCopyExpand · 3) =
        some (3, some [3, 1, 7]) ∧
      ¬ CopiesSequence [[2, 1, 7]] := by
  refine ⟨by decide, fun hcopies => ?_⟩
  have hcode : VtplCode [2, 1, 7] [[7]] :=
    ⟨List.cons_ne_nil _ _, [2], [1, 7], [], rfl, .byte (show 2 < 0xFE by decide),
      .cons (h := [1]) (f := [7]) (.byte (show 1 < 0xFE by decide)) .nil⟩
  exact not_copiesLast_first hcode (hcopies _ List.prefix_rfl (List.cons_ne_nil _ _))

end SolidDB
