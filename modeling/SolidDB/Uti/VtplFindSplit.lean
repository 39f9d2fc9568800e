import SolidDB.Foundation.TupleBetween
import SolidDB.Uti.VtplExpand
import SolidDB.Uti.VtplOrder

/-!
# Split tuples

`vtpl_find_split`: `uti_expand` with `f_split` set makes a tuple between a tuple and
the compressed one behind it. It takes one byte of the compressed tuple, or adds an
empty attribute where the previous tuple ends at the mismatch.

`uti_compress` and `uti_expand` read the fields through their lengths, so that the separator of
two neighbouring tuples has the fields of the tuple between them whatever their formats are. The
fields that are copied keep their format.
-/

namespace SolidDB

open FrontCoding

def vtplFindSplit (prevVtpl compressedVtpl : List UInt8) (iMismatch : ℕ) :
    Option (List UInt8) :=
  utiExpand true prevVtpl compressedVtpl iMismatch

def vtplEqual (vtpl1 vtpl2 : List UInt8) : Bool :=
  vtpl1.take (vtplGrosslen vtpl1) == vtpl2.take (vtplGrosslen vtpl2)

theorem vtplEqual_encVtpl {v w : Fields} (hv : VtplFits v) (hw : VtplFits w)
    (r s : List UInt8) :
    vtplEqual (encVtpl v ++ r) (encVtpl w ++ s) = true ↔ encVtpl v = encVtpl w := by
  rw [vtplEqual, vtplGrosslen_encVtpl hv.netlen_lt, vtplGrosslen_encVtpl hw.netlen_lt,
    List.take_left, List.take_left, beq_iff_eq]

variable {b c h g t : List UInt8} {u v w p n : Fields} {fuel i len : ℕ}

/-! ## Compressing -/

theorem LenCode.lenLen_le {l : List UInt8} {len' : ℕ} (hlen : LenCode l len) (hle : len' ≤ len) :
    vaLenLen len' ≤ l.length := by
  cases hlen with
  | byte hlt =>
      rw [vaLenLen, if_pos ((byteLenTest_iff len').mpr (by omega))]
      exact le_rfl
  | fourByte => exact vaLenLen_le len'

theorem compressFields_code {j : ℕ} (hb : FieldsCode b (h :: u)) (hc : FieldsCode c w)
    (hfuel : u.length < fuel) :
    ∃ f v rest, FrontCoding.residual (g :: w) (tupleMismatch (h :: u) (g :: w)) = f :: v ∧
      FieldsCode rest v ∧
      (∀ l, LenCode l g.length →
        vaLenLen f.length + f.length + rest.length ≤ l.length + g.length + c.length) ∧
      compressFields fuel j b (g ++ c) g.length =
        (j + tupleMismatch (h :: u) (g :: w), f.length, f ++ rest) := by
  induction fuel generalizing u w h g b c j with
  | zero => omega
  | succ fuel ih =>
      have hright := commonPrefixLen_le_right h g
      have hinside {k : ℕ} (hk : k ≤ g.length) (l : List UInt8) (hl : LenCode l g.length) :
          vaLenLen (g.drop k).length + (g.drop k).length + c.length ≤
            l.length + g.length + c.length := by
        have hdrop := hl.lenLen_le ((List.length_drop ..).le.trans (Nat.sub_le g.length k))
        rw [List.length_drop] at hdrop ⊢
        omega
      cases hb with
      | @cons l h d u hlen hrest =>
          have hbytes := compressBytes_append h g d c 0
          rw [Nat.zero_add] at hbytes
          rw [compressFields, hlen.vaGetdata]
          simp only [hbytes]
          by_cases hne : h = g
          · subst hne
            rw [commonPrefixLen_self, Nat.min_self, List.drop_length, List.nil_append,
              List.nil_append, tupleMismatch_cons_cons, if_pos rfl]
            cases hc with
            | nil =>
                rw [if_pos rfl, if_pos (by simp), residual_cons_of_le (le_refl _)]
                exact ⟨h.drop h.length, [], [], rfl, .nil, hinside le_rfl, by simp⟩
            | @cons l' g' c w hlen' hrest' =>
                rw [if_neg (List.cons_ne_nil _ _), if_neg (by simp [hlen'.ne_nil]),
                  hlen'.vaGetdata, residual_cons_succ]
                cases u with
                | nil =>
                    rw [hrest.eq_nil_iff.mpr rfl, if_pos rfl, tupleMismatch_nil_left, residual_zero]
                    refine ⟨g', w, c, rfl, hrest', fun l'' hl => ?_, rfl⟩
                    have hle := hlen'.lenLen_le le_rfl
                    simp only [List.length_append]
                    omega
                | cons h' u =>
                    have hnil : ¬ d = [] := by
                      rw [hrest.eq_nil_iff]
                      exact List.cons_ne_nil _ _
                    obtain ⟨f, v, rest, hres, hcode, hbound, heq⟩ := ih (g := g')
                      (j := j + h.length + 1) hrest hrest' (by simpa using hfuel)
                    rw [if_neg hnil]
                    refine ⟨f, v, rest, hres, hcode, fun l'' hl => ?_, heq.trans ?_⟩
                    · have hle := hbound l' hlen'
                      simp only [List.length_append]
                      omega
                    · rw [Nat.add_assoc j, Nat.add_assoc j]
          · have hstop : commonPrefixLen h g < min h.length g.length ∨
                h.length ≠ g.length ∨ g.drop (commonPrefixLen h g) ++ c = [] := by
              by_contra hcon
              push Not at hcon
              have hleft := commonPrefixLen_le_left h g
              have hall : commonPrefixLen h g = h.length := by omega
              have hpre := (commonPrefixLen_eq_left_iff h g).mp hall
              exact hne (hpre.eq_of_length hcon.2.1)
            rw [if_pos hstop, tupleMismatch_cons_of_ne u w hne, residual_cons_of_le hright]
            exact ⟨_, w, c, rfl, hc, hinside hright, by simp⟩

theorem makeCompressed_eq (f rest : List UInt8) :
    makeCompressed f.length (f ++ rest) =
      vaSetLen (vaLenLen f.length + (f ++ rest).length) ++ (vaSetLen f.length ++ (f ++ rest)) := by
  have hle : f.length ≤ vaLenLen f.length + (f ++ rest).length := by
    rw [List.length_append]
    omega
  rw [makeCompressed]
  generalize vaLenLen f.length + (f ++ rest).length = lTarget at hle ⊢
  by_cases hshort : byteLenTest lTarget = true
  · have hf : byteLenTest f.length = true := by
      rw [byteLenTest_iff] at hshort ⊢
      omega
    simp [vaSetLen, hshort, hf]
  · by_cases hf : byteLenTest f.length = true
    · simp [vaSetLen, hshort, hf]
    · simp [vaSetLen, hshort, hf]

/-- Compression finds the mismatch index of the fields and keeps what is left of them, with a
length for the field at it. -/
theorem vtplCompress_eq {s : List UInt8} (hs : VtplCode s p) (ht : VtplCode t n) :
    ∃ f v rest, FrontCoding.residual n (tupleMismatch p n) = f :: v ∧ FieldsCode rest v ∧
      vaLenLen f.length + (f ++ rest).length < 2 ^ 32 ∧
      vtplCompress s t = (tupleMismatch p n,
        vaSetLen (vaLenLen f.length + (f ++ rest).length) ++
          (vaSetLen f.length ++ (f ++ rest))) := by
  have hne := residual_ne_nil (tupleMismatch_lt_length p ht.ne_nil)
  have hfuel := hs.getdata.1.length_le
  have hlt := ht.netlen_lt
  obtain ⟨hcode, hnet⟩ := ht.getdata
  obtain ⟨h, u, rfl⟩ := List.exists_cons_of_ne_nil hs.ne_nil
  rw [hnet] at hlt
  rw [vtplCompress, utiCompress]
  generalize hc : vtplGetdata t = c at hcode hlt
  cases hcode with
  | nil => exact absurd rfl ht.ne_nil
  | @cons l g c w hlen hrest =>
      obtain ⟨f, v, rest, hres, hcode', hbound, heq⟩ := compressFields_code (g := g) (j := 0)
        hs.getdata.1 hrest (show u.length < (vtplGetdata s).length + 1 by
          rw [List.length_cons] at hfuel
          omega)
      have htotal := hbound l hlen
      simp only [List.length_append] at hlt
      rw [hlen.vaGetdata]
      simp only
      rw [heq, Nat.zero_add, makeCompressed_eq]
      refine ⟨f, v, rest, hres, hcode', ?_, rfl⟩
      rw [List.length_append]
      omega

theorem vtplCompress_code {s : List UInt8} (hs : VtplCode s p) (ht : VtplCode t n)
    (r : List UInt8) :
    (vtplCompress s t).1 = tupleMismatch p n ∧
      VtplCode ((vtplCompress s t).2 ++ r) (FrontCoding.residual n (tupleMismatch p n)) := by
  obtain ⟨f, v, rest, hres, hcode, hlt, heq⟩ := vtplCompress_eq hs ht
  rw [heq, hres]
  have hnet : (vaSetLen f.length ++ (f ++ rest)).length =
      vaLenLen f.length + (f ++ rest).length := by
    rw [List.length_append, length_vaSetLen]
  have hf : f.length ≤ (f ++ rest).length := by
    rw [List.length_append]
    exact Nat.le_add_right ..
  refine ⟨rfl, List.cons_ne_nil _ _, _, vaSetLen f.length ++ (f ++ rest), r,
    List.append_assoc .., ?_, .cons (lenCode_vaSetLen (by omega)) hcode⟩
  rw [hnet]
  exact lenCode_vaSetLen hlt

/-! ## Splitting -/

/-- What `uti_expand` appends behind the shared bytes of the split tuple. -/
def splitField (p : Fields) (i : ℕ) (c : Fields) : List UInt8 :=
  if i < (tupleSyms p).length then (c.headD []).take 1 else []

/-- What the search for the point of mismatch finds in the bytes `b` of the fields `p`: the bytes
`bd` of the fields `d` lie before it and the bytes `t` of the next field are kept. -/
structure ExpandPoint.SplitsCode (pt : ExpandPoint) (b bd : List UInt8) (p d : Fields) (i : ℕ)
    (t : List UInt8) : Prop where
  prefix_eq : b = bd ++ pt.pPrevField
  code : FieldsCode bd d
  length_eq : t.length = pt.iMismatch
  take_eq : pt.pPrevData.take pt.iMismatch = t
  length_le : t.length ≤ pt.pPrevField.length - 1
  ends_iff : pt.pPrevField = [] ↔ (tupleSyms p).length ≤ i
  rejoin_eq : ∀ c : Fields, c ≠ [] → rejoin p i c = d ++ (t ++ c.headD []) :: c.tail

theorem expandFindMismatch_code (hb : FieldsCode b p) (hp : p ≠ [])
    (hi : i ≤ (tupleSyms p).length) (hfuel : p.length ≤ fuel) :
    ∃ pt bd d t, expandFindMismatch fuel i b = some pt ∧ pt.SplitsCode b bd p d i t := by
  induction hb generalizing i fuel with
  | nil => exact absurd rfl hp
  | @cons l f b p hlen hrest ih =>
      obtain ⟨fuel, rfl⟩ : ∃ n, fuel = n + 1 :=
        ⟨fuel - 1, by rw [List.length_cons] at hfuel; omega⟩
      have hpos := hlen.length_pos
      rw [expandFindMismatch, hlen.vaGetdata]
      simp only [List.drop_left]
      rw [tupleSyms_cons, List.length_append, length_fieldSyms] at hi
      by_cases hle : i ≤ f.length
      · rw [if_pos hle]
        refine ⟨_, [], [], f.take i, rfl, rfl, .nil, by simp [hle],
          by simp [List.take_append_of_le_length, hle], ?_, ?_, ?_⟩
        · simp only [List.length_take, List.length_append]
          omega
        · rw [tupleSyms_cons, List.length_append, length_fieldSyms]
          refine iff_of_false (fun hnil => ?_) (by omega)
          exact hlen.ne_nil (List.append_eq_nil_iff.mp hnil).1
        · intro c _
          simp [rejoin, hle]
      · rw [if_neg hle]
        have hone : FieldsCode (l ++ (f ++ [])) [f] := .cons hlen .nil
        by_cases hzero : i - (f.length + 1) = 0
        · rw [if_pos hzero]
          refine ⟨_, l ++ (f ++ []), [f], [], rfl, by simp, hone, rfl, rfl, Nat.zero_le _, ?_, ?_⟩
          · rw [hrest.eq_nil_iff, tupleSyms_cons, List.length_append, length_fieldSyms,
              ← tupleSyms_eq_nil_iff, ← List.length_eq_zero_iff]
            omega
          · intro c hc
            have hi0 : i - f.length - 1 = 0 := by omega
            rw [rejoin, if_neg hle, hi0]
            cases p with
            | nil =>
                rw [rejoin, List.nil_append, cons_headD_tail hc]
                rfl
            | cons g p => simp [rejoin]
        · have hlen' : i - (f.length + 1) ≤ (tupleSyms p).length := by omega
          have hpne : p ≠ [] := by
            rintro rfl
            rw [tupleSyms_nil, List.length_nil] at hlen'
            omega
          rw [if_neg hzero, if_neg (by rwa [hrest.eq_nil_iff])]
          obtain ⟨pt, bd, d, t, heq, hs⟩ := ih hpne hlen' (by simpa using hfuel)
          refine ⟨pt, l ++ (f ++ bd), f :: d, t, heq, ?_, .cons hlen hs.code, hs.length_eq,
            hs.take_eq, hs.length_le, ?_, ?_⟩
          · simp only [hs.prefix_eq, List.append_assoc]
          · rw [hs.ends_iff, tupleSyms_cons, List.length_append, length_fieldSyms]
            omega
          · intro c hc
            rw [rejoin, if_neg hle, Nat.sub_sub, hs.rejoin_eq c hc]
            rfl

theorem expandLengths_split_code {s bd : List UInt8} {d : Fields} {pt : ExpandPoint}
    (hpt : pt.SplitsCode b bd p d i t) (hs : VtplCode s w)
    (hne : i < (tupleSyms p).length → w.headD [] ≠ []) :
    expandLengths true b pt s =
      { lCommonPortion := bd.length
        lMismatchField := (t ++ splitField p i w).length
        lTarget := bd.length + (vaLenLen (t ++ splitField p i w).length +
          (t ++ splitField p i w).length)
        newPortion := splitField p i w } := by
  have hcommon : b.length - pt.pPrevField.length = bd.length := by
    rw [hpt.prefix_eq, List.length_append]
    omega
  obtain ⟨hsnil, h, b', r, rfl, hlen', hcode⟩ := hs
  rw [expandLengths, hcommon, ← hpt.length_eq, splitField, vtplGetdata, hlen'.vaGetdata,
    List.take_left]
  cases hcode with
  | nil => exact absurd rfl hsnil
  | @cons l g b' w hlen hrest =>
      have htail : l ++ (g ++ b') ++ r = l ++ (g ++ (b' ++ r)) := by
        rw [List.append_assoc, List.append_assoc]
      rw [hlen.vaGetdata, htail, hlen.vaGetdata]
      simp only [if_true, List.headD_cons, List.length_append] at hne ⊢
      by_cases hi : i < (tupleSyms p).length
      · have hprev : 0 < pt.pPrevField.length := by
          rw [List.length_pos_iff, Ne, hpt.ends_iff]
          omega
        obtain ⟨x, g, rfl⟩ := List.exists_cons_of_ne_nil (hne hi)
        have hmin : min 1 pt.pPrevField.length = 1 := min_eq_left hprev
        simp [hmin, hi]
        omega
      · have hprev : pt.pPrevField = [] := hpt.ends_iff.mpr (by omega)
        simp [hi, hprev]
        omega

/-- `vtpl_find_split` on tuples in any length format. -/
theorem vtplFindSplit_code {s s' : List UInt8} (hs : VtplCode s p) (hs' : VtplCode s' w)
    (hi : i ≤ (tupleSyms p).length) (hne : i < (tupleSyms p).length → w.headD [] ≠ [])
    (hlt : (vaGetdata s).2 + 5 < 2 ^ 32) :
    ∃ r, vtplFindSplit s s' i = some r ∧ VtplCode r (rejoin p i [splitField p i w]) ∧
      (vaGetdata r).2 ≤ (vaGetdata s).2 + 5 := by
  obtain ⟨hcode, hnet⟩ := hs.getdata
  have hfuel := hcode.length_le
  obtain ⟨pt, bd, d, t, heq, hpt⟩ := expandFindMismatch_code hcode hs.ne_nil hi
    (show p.length ≤ (vtplGetdata s).length + 1 by omega)
  have htake : (vtplGetdata s).take bd.length = bd := by
    rw [hpt.prefix_eq, List.take_left]
  have hlength := congrArg List.length hpt.prefix_eq
  rw [List.length_append, ← hnet] at hlength
  have hsplit : t.length + (splitField p i w).length ≤ pt.pPrevField.length := by
    have hle := hpt.length_le
    have hends := hpt.ends_iff
    rw [← List.length_eq_zero_iff] at hends
    rw [splitField]
    split
    · have hone : ((w.headD []).take 1).length ≤ 1 := List.length_take_le _ _
      omega
    · rw [List.length_nil]
      omega
  generalize hx : splitField p i w = x at hsplit
  have hshort : bd.length + (vaLenLen (t ++ x).length + (t ++ x).length) ≤
      (vaGetdata s).2 + 5 := by
    have hle := vaLenLen_le (t ++ x).length
    rw [List.length_append] at hle ⊢
    omega
  have hfields : FieldsCode (bd ++ (vaSetLen (t ++ x).length ++ (t ++ x))) (d ++ [t ++ x]) := by
    have hone : FieldsCode (vaSetLen (t ++ x).length ++ ((t ++ x) ++ [])) [t ++ x] :=
      .cons (lenCode_vaSetLen (by omega)) .nil
    rw [List.append_nil] at hone
    exact hpt.code.append hone
  have hdata : (bd ++ (vaSetLen (t ++ x).length ++ (t ++ x))).length =
      bd.length + (vaLenLen (t ++ x).length + (t ++ x).length) := by
    simp only [List.length_append, length_vaSetLen]
  have hlen : LenCode (vaSetLen (bd.length + (vaLenLen (t ++ x).length + (t ++ x).length)))
      (bd.length + (vaLenLen (t ++ x).length + (t ++ x).length)) := lenCode_vaSetLen (by omega)
  refine ⟨vaSetLen (bd.length + (vaLenLen (t ++ x).length + (t ++ x).length)) ++
    (bd ++ (vaSetLen (t ++ x).length ++ (t ++ x)) ++ []), ?_, ?_, ?_⟩
  · rw [vtplFindSplit, utiExpand, heq]
    simp only [Option.map_some, expandLengths_split_code hpt hs' hne, hx, htake, hpt.take_eq,
      List.append_assoc, List.append_nil]
  · rw [hpt.rejoin_eq _ (List.cons_ne_nil _ _)]
    refine ⟨List.append_ne_nil_of_right_ne_nil _ (List.cons_ne_nil _ _), _, _, _, rfl, ?_, hfields⟩
    rw [hdata]
    exact hlen
  · rw [hlen.vaGetdata]
    exact hshort

theorem vtplFindSplit_encVtpl (hp : VtplFits p) (hw : VtplFits w) (hi : i ≤ (tupleSyms p).length)
    (hne : i < (tupleSyms p).length → w.headD [] ≠ []) (r s : List UInt8) :
    vtplFindSplit (encVtpl p ++ r) (encVtpl w ++ s) i =
      some (encVtpl (rejoin p i [splitField p i w])) := by
  have hfuel : p.length ≤ (encFields p).length + 1 := by
    have := length_le_netlen p
    rw [length_encFields]
    omega
  obtain ⟨pt, d, t, heq, hs⟩ := expandFindMismatch_spec hp hi hfuel
  obtain ⟨pt', bd, d', t', heq', hpt⟩ :=
    expandFindMismatch_code (fieldsCode_encFields hp.netlen_lt) hp.1 hi hfuel
  obtain rfl := Option.some_inj.mp (heq.symm.trans heq')
  obtain rfl := List.append_cancel_right (hpt.prefix_eq.symm.trans hs.prefix_eq)
  obtain rfl := hs.take_eq.symm.trans hpt.take_eq
  have htake : (encFields p).take (encFields d).length = encFields d := by
    rw [hs.prefix_eq, List.take_left]
  have hnet : netlen (rejoin p i [splitField p i w]) = (encFields d).length +
      (vaLenLen (t ++ splitField p i w).length + (t ++ splitField p i w).length) := by
    rw [hs.rejoin_eq _ (List.cons_ne_nil _ _), netlen, encFields_append, List.length_append,
      List.headD_cons, List.tail_cons, encFields_cons, encFields_nil, List.append_nil, length_encVa]
  rw [vtplFindSplit, utiExpand, vtplGetdata_encVtpl hp.netlen_lt, heq,
    encVtpl_rejoin hs (List.cons_ne_nil _ _)]
  simp only [Option.map_some, expandLengths_split_code hpt (hw.vtplCode s) hne, htake,
    hpt.take_eq, hnet, List.headD_cons, fieldsPtr_cons, encFields_nil, List.append_nil]

/-! ## Between two tuples -/

theorem netlen_tupleBetween_le (hn : n ≠ []) : netlen (tupleBetween p n) ≤ netlen n := by
  have hrejoin (c : Fields) (hc : c ≠ []) := rejoin_eq_keptFields (tupleMismatch_le_left p n) hc
  generalize (keptFields p (tupleMismatch p n)).1 = d at hrejoin
  generalize (keptFields p (tupleMismatch p n)).2 = t at hrejoin
  have hres := residual_ne_nil (tupleMismatch_lt_length p hn)
  have hwhole := rejoin_residual hn (le_refl (tupleMismatch p n))
  rw [hrejoin _ hres] at hwhole
  have hle : (t ++ splitField p (tupleMismatch p n)
      (FrontCoding.residual n (tupleMismatch p n))).length ≤
        (t ++ (FrontCoding.residual n (tupleMismatch p n)).headD []).length := by
    rw [List.length_append, List.length_append, splitField]
    split
    · exact Nat.add_le_add_left (List.length_take_le' _ _) _
    · exact Nat.add_le_add_left (Nat.zero_le _) _
  have hmono := vaLenLen_mono hle
  have hnet := congrArg netlen hwhole
  change netlen (rejoin p _ [splitField p _ _]) ≤ _
  rw [← hnet, hrejoin _ (List.cons_ne_nil _ _)]
  simp only [netlen, encFields_append, encFields_cons, encFields_nil, List.length_append,
    length_encVa, List.headD_cons, List.tail_cons, List.length_nil] at hle hmono ⊢
  omega

/-- The separator of two neighbouring tuples as they are written. -/
theorem vtplFindSplit_residual (hp : VtplFits p) (hn : VtplFits n) (h : p < n)
    (r s : List UInt8) :
    vtplFindSplit (encVtpl p ++ r) (encVtpl (FrontCoding.residual n (tupleMismatch p n)) ++ s)
      (tupleMismatch p n) = some (encVtpl (tupleBetween p n)) := by
  refine vtplFindSplit_encVtpl hp (hn.residual (tupleMismatch_lt_length p hn.1))
    (tupleMismatch_le_left p n) (fun hi => ?_) r s
  obtain ⟨b, g, w, hres, -⟩ := residual_eq_cons_cons h hi
  rw [hres]
  exact List.cons_ne_nil b g

/-- A v-tuple of an index; its bytes can be counted in an `int`. -/
structure IndexVtpl extends Vtpl where
  netlen_lt : (vaGetdata bytes).2 + 5 < 2 ^ 31

/-- The order of tuples is that of their fields, but among those with a single empty field. -/
theorem IndexVtpl.fields_le (x y : IndexVtpl) :
    (vtplCompare x.bytes y.bytes ≤ 0 → x.fields ≤ y.fields) ∧
      (0 ≤ vtplCompare x.bytes y.bytes → y.fields ≤ x.fields) := by
  have hnull {z : IndexVtpl} (w : IndexVtpl) (hone : (vaGetdata z.bytes).2 = 1) :
      z.fields ≤ w.fields := by
    rw [z.code.eq_of_netlen hone]
    by_cases hw : w.fields = [[]]
    · exact hw.ge
    · exact (singleton_nil_lt w.code.ne_nil hw).le
  by_cases hone : (vaGetdata x.bytes).2 = 1 ∨ (vaGetdata y.bytes).2 = 1
  · have hx := x.code.netlen_pos
    have hy := y.code.netlen_pos
    have hxlt := x.netlen_lt
    have hylt := y.netlen_lt
    have hcmp : vtplCompare x.bytes y.bytes =
        ((vaGetdata x.bytes).2 : ℤ) - (vaGetdata y.bytes).2 := by
      rw [vtplCompare, if_pos (by omega), toInt32_of_abs_lt (by omega) (by omega)]
    rw [hcmp]
    refine ⟨fun hle => hnull y ?_, fun hge => hnull x ?_⟩ <;> omega
  · obtain ⟨hx, hy⟩ := not_or.mp hone
    have hcmp := signOf_vtplCompare_code x.code y.code x.length_lt y.length_lt hx hy
    refine ⟨(vtplCompare_le_zero_iff hcmp).mp, fun hge => ?_⟩
    rwa [← not_lt, ← signOf_eq_lt_iff, hcmp, tupleCompare_eq_lt_iff, not_lt] at hge

/-- A tuple below another one has smaller fields, or both have a single empty field, the first one
with a length of one byte and the second one with five. -/
theorem IndexVtpl.lt_or_null {p n : IndexVtpl} (h : vtplCompare p.bytes n.bytes < 0) :
    (p.fields < n.fields ∧ n.fields ≠ [[]]) ∨
      (n.fields = [[]] ∧ (vaGetdata p.bytes).2 = 1 ∧ (vaGetdata n.bytes).2 ≠ 1) := by
  have hle := (p.fields_le n).1 h.le
  by_cases hone : (vaGetdata p.bytes).2 = 1 ∨ (vaGetdata n.bytes).2 = 1
  · have hp := p.code.netlen_pos
    have hn := n.code.netlen_pos
    have hplt := p.netlen_lt
    have hnlt := n.netlen_lt
    rw [vtplCompare, if_pos (by omega), toInt32_of_abs_lt (by omega) (by omega)] at h
    have hpone : (vaGetdata p.bytes).2 = 1 := by omega
    by_cases hnull : n.fields = [[]]
    · exact Or.inr ⟨hnull, hpone, by omega⟩
    · rw [p.code.eq_of_netlen hpone]
      exact Or.inl ⟨singleton_nil_lt n.code.ne_nil hnull, hnull⟩
  · obtain ⟨hp, hn⟩ := not_or.mp hone
    have hcmp := signOf_vtplCompare_code p.code n.code p.length_lt n.length_lt hp hn
    rw [← signOf_eq_lt_iff, hcmp, tupleCompare_eq_lt_iff] at h
    refine Or.inl ⟨h, fun hnull => ?_⟩
    rw [hnull] at h
    by_cases hp' : p.fields = [[]]
    · exact absurd h (hp' ▸ lt_irrefl _)
    · exact absurd h (singleton_nil_lt p.code.ne_nil hp').asymm

/-- A tuple above another one is not `VTPL_NULL`. -/
theorem VtplCode.netlen_ne_one {s : List UInt8} (hs : VtplCode s w) (hp : p ≠ []) (hlt : p < w) :
    (vaGetdata s).2 ≠ 1 := by
  intro hone
  obtain rfl := hs.eq_of_netlen hone
  by_cases hnull : p = [[]]
  · exact absurd hlt (hnull ▸ lt_irrefl _)
  · exact absurd hlt (singleton_nil_lt hp hnull).asymm

theorem IndexVtpl.signOf_compare_above {s : Vtpl} {p : Fields} (k : IndexVtpl) (hp : p ≠ [])
    (hlt : p < s.fields) (hle : (vaGetdata s.bytes).2 < 2 ^ 31) :
    signOf (vtplCompare k.bytes s.bytes) = tupleCompare k.fields s.fields ∧
      signOf (vtplCompare s.bytes k.bytes) = tupleCompare s.fields k.fields := by
  have hone := s.code.netlen_ne_one hp hlt
  refine (vtplCompare_iff k.code s.code k.length_lt s.length_lt).mpr ⟨fun _ => ⟨hle.le, ?_⟩, ?_⟩
  · intro hnull
    rw [hnull] at hlt
    by_cases hp' : p = [[]]
    · exact absurd hlt (hp' ▸ lt_irrefl _)
    · exact absurd hlt (singleton_nil_lt hp hp').asymm
  · exact fun hnull => absurd hnull hone

/-- The separator of two tuples is above the first one and all before it, and not above the second
one and all behind it, whatever stands behind the compressed tuple. -/
def SplitSeparates (p n : IndexVtpl) (r : List UInt8) : Prop :=
  ∃ s : Vtpl, vtplFindSplit p.bytes ((vtplCompress p.bytes n.bytes).2 ++ r)
      (vtplCompress p.bytes n.bytes).1 = some s.bytes ∧
    vtplCompare p.bytes s.bytes < 0 ∧ vtplCompare s.bytes n.bytes ≤ 0 ∧
    ∀ k : IndexVtpl, (vtplCompare k.bytes p.bytes ≤ 0 → vtplCompare k.bytes s.bytes < 0) ∧
      (0 ≤ vtplCompare k.bytes n.bytes → 0 ≤ vtplCompare k.bytes s.bytes)

variable {r : List UInt8}

theorem splitSeparates_of_lt {p n : IndexVtpl} (hless : p.fields < n.fields) :
    SplitSeparates p n r := by
  obtain ⟨hindex, hcompressed⟩ := vtplCompress_code p.code n.code r
  have hne (hi : tupleMismatch p.fields n.fields < (tupleSyms p.fields).length) :
      (FrontCoding.residual n.fields (tupleMismatch p.fields n.fields)).headD [] ≠ [] := by
    obtain ⟨b, g, w, hres, -⟩ := residual_eq_cons_cons hless hi
    rw [hres]
    exact List.cons_ne_nil b g
  have hnet := p.netlen_lt
  obtain ⟨s, hsplit, hcode, hshort⟩ := vtplFindSplit_code p.code hcompressed
    (tupleMismatch_le_left p.fields n.fields) hne (by omega)
  have hcode' : VtplCode s (tupleBetween p.fields n.fields) := hcode
  have hlength (f : List UInt8) (hf : f ∈ tupleBetween p.fields n.fields) : f.length < 2 ^ 31 := by
    obtain ⟨g, hg, hprefix⟩ := exists_isPrefix_of_mem_tupleBetween n.code.ne_nil hf
    exact hprefix.length_le.trans_lt (n.length_lt g hg)
  have habove := lt_tupleBetween hless
  have hbelow := tupleBetween_le hless
  have hcmp (k : IndexVtpl) := k.signOf_compare_above
    (s := ⟨s, tupleBetween p.fields n.fields, hcode', hlength⟩) p.code.ne_nil habove
    (by simp only; omega)
  refine ⟨⟨s, _, hcode', hlength⟩, ?_, ?_, ?_, fun k => ⟨fun hk => ?_, fun hk => ?_⟩⟩
  · rw [hindex]
    exact hsplit
  · rw [← signOf_eq_lt_iff, (hcmp p).1, tupleCompare_eq_lt_iff]
    exact habove
  · rw [vtplCompare_le_zero_iff (hcmp n).2]
    exact hbelow
  · rw [← signOf_eq_lt_iff, (hcmp k).1, tupleCompare_eq_lt_iff]
    exact lt_of_le_of_lt ((k.fields_le p).1 hk) habove
  · rw [← not_lt, ← signOf_eq_lt_iff, (hcmp k).1, tupleCompare_eq_lt_iff, not_lt]
    exact le_trans hbelow ((k.fields_le n).2 hk)

/-! ## A single empty field in both tuples -/

theorem vtplCompress_null {s : List UInt8} (hs : VtplCode s [[]]) (ht : VtplCode t [[]]) :
    vtplCompress s t = (0, [1, 0]) := by
  obtain ⟨f, v, rest, hres, hcode, -, heq⟩ := vtplCompress_eq hs ht
  have hnull : tupleMismatch ([[]] : Fields) [[]] = 0 := by decide
  rw [hnull, FrontCoding.residual_zero, List.cons.injEq] at hres
  obtain ⟨rfl, rfl⟩ := hres
  rw [hcode.eq_nil_iff.mpr rfl, hnull] at heq
  exact heq

theorem vtplGetdata_null {s : List UInt8} (hs : VtplCode s [[]]) (hone : (vaGetdata s).2 = 1) :
    vtplGetdata s = [0] := by
  obtain ⟨hcode, hlen⟩ := hs.getdata
  rw [hone] at hlen
  generalize vtplGetdata s = b at hcode hlen
  cases hcode with
  | @cons l f b v hcode hrest =>
      cases hrest
      cases hcode with
      | byte => rfl
      | fourByte => cases hlen

/-- The separator gets a second field, from the byte behind the compressed tuple. -/
theorem vtplFindSplit_null {s : List UInt8} (hs : VtplCode s [[]]) (hone : (vaGetdata s).2 = 1) :
    vtplFindSplit s ([1, 0] ++ r) 0 = some [2, 0, r.headD 0] := by
  rw [vtplFindSplit, utiExpand, vtplGetdata_null hs hone]
  rfl

theorem vtplCompare_null_split {x : UInt8} (ht : VtplCode t [[]]) (hone : (vaGetdata t).2 ≠ 1) :
    vtplCompare [2, 0, x] t = 1 := by
  obtain ⟨hcode, hlen⟩ := ht.getdata
  have hpos := ht.netlen_pos
  have htwo : vaGetdata [2, 0, x] = ([0, x], 2) := rfl
  rw [vtplCompare, htwo, if_neg (by omega), vtplGetdata, htwo]
  generalize vtplGetdata t = b at hcode
  cases hcode with
  | @cons l f b v hcode hrest =>
      cases hrest
      have hget := hcode.vaGetdata []
      have hfirst : vaGetdata [0, x] = ([x], 0) := rfl
      change vtplCompareFields 3 [0, x] (l ++ []) = 1
      rw [vtplCompareFields, if_pos ⟨List.cons_ne_nil _ _, by simp [hcode.ne_nil]⟩, hget, hfirst]
      rfl

theorem not_splitSeparates_null {p n : IndexVtpl} (hp : (vaGetdata p.bytes).2 = 1)
    (hn : n.fields = [[]]) (hlong : (vaGetdata n.bytes).2 ≠ 1) : ¬ SplitSeparates p n r := by
  have hpcode := p.code
  have hncode := n.code
  rw [p.code.eq_of_netlen hp] at hpcode
  rw [hn] at hncode
  rintro ⟨s, hsplit, -, hle, -⟩
  rw [vtplCompress_null hpcode hncode, vtplFindSplit_null hpcode hp, Option.some_inj] at hsplit
  rw [← hsplit, vtplCompare_null_split hncode hlong] at hle
  exact absurd hle (by decide)

/-- The separator of two tuples is right exactly if the second one is not a single empty field,
whose length then has the long format. -/
theorem splitSeparates_iff (p n : IndexVtpl) (r : List UInt8)
    (h : vtplCompare p.bytes n.bytes < 0) : SplitSeparates p n r ↔ n.fields ≠ [[]] := by
  rcases IndexVtpl.lt_or_null h with ⟨hlt, hne⟩ | ⟨hn, hp, hlong⟩
  · exact iff_of_true (splitSeparates_of_lt hlt) hne
  · exact iff_of_false (not_splitSeparates_null hp hn hlong) (not_not.mpr hn)

theorem vaGetdata_encVtpl_nil {v : Fields} (hlen : netlen v + 5 < 2 ^ 31) :
    (vaGetdata (encVtpl v ++ [])).2 = netlen v := by
  rw [encVtpl, vaGetdata_encVa (by rw [length_encFields]; omega)]
  rfl

def IndexVtpl.ofFields (v : Fields) (hv : v ≠ []) (hlen : netlen v + 5 < 2 ^ 31) : IndexVtpl :=
  { Vtpl.ofFields v ⟨hv, by omega⟩ (length_lt_of_mem (by omega)) with
    netlen_lt := by
      change (vaGetdata (encVtpl v ++ [])).2 + 5 < 2 ^ 31
      rw [vaGetdata_encVtpl_nil hlen]
      exact hlen }

/-- A column that is added gives an empty field to the separator. -/
theorem splitSeparates_added_column :
    vtplCompare (encVtpl [[1]] ++ []) (encVtpl [[1], [2]] ++ []) < 0 ∧
      SplitSeparates (.ofFields [[1]] (by decide) (by decide))
        (.ofFields [[1], [2]] (by decide) (by decide)) [] := by
  have hless : vtplCompare (encVtpl [[1]] ++ []) (encVtpl [[1], [2]] ++ []) < 0 := by decide
  exact ⟨hless, (splitSeparates_iff (.ofFields [[1]] (by decide) (by decide))
    (.ofFields [[1], [2]] (by decide) (by decide)) [] hless).mpr (by decide)⟩

/-- An empty field behind a length of one byte, and one behind a length of five: the separator has
two empty fields, or is not a v-tuple. -/
theorem not_splitSeparates_long_null :
    ∃ p n : IndexVtpl, p.bytes = [1, 0] ∧ n.bytes = [5, 0xFE, 0, 0, 0, 0] ∧
      vtplCompare p.bytes n.bytes < 0 ∧ vtplCompress p.bytes n.bytes = (0, [1, 0]) ∧
      vtplFindSplit p.bytes [1, 0] 0 = some [2, 0, 0] ∧ vtplCompare [2, 0, 0] n.bytes = 1 ∧
      ∀ r, ¬ SplitSeparates p n r := by
  refine ⟨⟨vtplNull, by decide⟩, ⟨vtplLongNull, by decide⟩, by decide, rfl, by decide, by decide,
    by decide, by decide, fun r => not_splitSeparates_null (by decide) rfl (by decide)⟩

end SolidDB
