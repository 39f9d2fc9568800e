import SolidDB.Uti.VtplCoded
import Mathlib.Data.List.DropRight

/-!
# Removing trailing empty fields

`vtpl_normalize` of `uti0vtpb.c` changes the v-tuple in place: behind the new v-tuple some bytes of
the old one are left.
-/

namespace SolidDB.VtplNormalize

open BlockHeap

/-- The loop of `uti_normalize` that counts the trailing empty fields; every round passes at least
one byte. -/
def countEmpties (vtpl : List UInt8) (vtplLen : ℕ) : ℕ → ℕ → ℕ → ℕ
  | 0, _, nEmpties => nEmpties
  | fuel + 1, iField, nEmpties =>
    if iField ≤ vtplLen then
      let fieldLen := vtplGrosslen (vtpl.drop iField)
      countEmpties vtpl vtplLen fuel (iField + fieldLen) (if fieldLen = 1 then nEmpties + 1 else 0)
    else
      nEmpties

/-- `uti_normalize`: the new gross length, or 0 if it did not change, and the v-tuple. -/
def utiNormalize (vtpl : List UInt8) : Option (ℕ × List UInt8) :=
  let c0 := (vtpl.headD 0).toNat
  let vtplLen := if byteLenTest c0 then c0 else fourByteLen vtpl + 4
  let iField := if byteLenTest c0 then 1 else 5
  let netLen := if byteLenTest c0 then vtplLen else vtplLen - 4
  let nEmpties := countEmpties vtpl vtplLen (vtplLen + 1) iField 0
  if nEmpties ≠ 0 then
    let netLen := netLen - nEmpties
    if byteLenTest netLen then do
      let vtpl ← if !byteLenTest vtplLen then memmove vtpl 1 5 netLen else some vtpl
      let vtpl ← store vtpl 0 [UInt8.ofNat netLen]
      some (netLen + 1, vtpl)
    else do
      let vtpl ← store vtpl 0 (setFourByteLen netLen)
      some (netLen + 5, vtpl)
  else
    some (0, vtpl)

def vtplNormalize (vtpl : List UInt8) : Option (List UInt8) := (utiNormalize vtpl).map Prod.snd

/-! ## What is asked for -/

/-- The result is a well-formed v-tuple with the fields up to the last one that is not empty, and a
second call leaves it alone. -/
def Normalizes (t : CodedTuple) (r : List UInt8) : Prop :=
  ∃ (t' : CodedTuple) (r' : List UInt8),
    vtplNormalize (t.bytes ++ r) = some (t'.bytes ++ r') ∧
      t'.values = t.values.rdropWhile (fun f => f = []) ∧
      vtplNormalize (t'.bytes ++ r') = some (t'.bytes ++ r')

def keptFields (cs : List CodedField) : List CodedField := cs.rdropWhile fun c => c.data = []

/-- Every empty field at the end has a length of one byte. -/
def EmptiesShort (cs : List CodedField) : Prop :=
  ∀ c ∈ cs.rtakeWhile fun c => c.data = [], c.code.length = 1

instance (cs : List CodedField) : Decidable (EmptiesShort cs) :=
  inferInstanceAs (Decidable (∀ c ∈ List.rtakeWhile _ cs, _))

/-- The net length tells the format of the own length, or there is nothing to remove, or nothing is
left. -/
def LengthTells (t : CodedTuple) : Prop :=
  t.code.length = 1 ∨ 250 ≤ (codedBytes t.fields).length ∨ keptFields t.fields = t.fields ∨
    keptFields t.fields = []

/-! ## Trailing empty fields -/

def strippedFields (cs : List CodedField) : List CodedField := cs.rdropWhile fun c => c.gross = 1

/-- The number that the loop has counted behind fields. -/
def trailing (n : ℕ) (cs : List CodedField) : ℕ :=
  cs.foldl (fun n c => if c.gross = 1 then n + 1 else 0) n

variable {cs : List CodedField} {c : CodedField} {r : List UInt8}

theorem strippedFields_concat_of_one (hc : c.gross = 1) :
    strippedFields (cs ++ [c]) = strippedFields cs :=
  List.rdropWhile_concat_pos _ cs c (decide_eq_true hc)

theorem strippedFields_concat_of_ne (hc : c.gross ≠ 1) : strippedFields (cs ++ [c]) = cs ++ [c] :=
  List.rdropWhile_concat_neg _ cs c (by rw [decide_eq_true_iff]; exact hc)

theorem keptFields_concat_of_empty (hc : c.data = []) : keptFields (cs ++ [c]) = keptFields cs :=
  List.rdropWhile_concat_pos _ cs c (decide_eq_true hc)

theorem keptFields_concat_of_ne (hc : c.data ≠ []) : keptFields (cs ++ [c]) = cs ++ [c] :=
  List.rdropWhile_concat_neg _ cs c (by rw [decide_eq_true_iff]; exact hc)

theorem map_data_keptFields (cs : List CodedField) :
    (keptFields cs).map CodedField.data = (cs.map CodedField.data).rdropWhile fun f => f = [] := by
  induction cs using List.reverseRecOn with
  | nil => rfl
  | append_singleton cs c ih =>
      rw [List.map_append, List.map_singleton]
      by_cases hc : c.data = []
      · rw [keptFields_concat_of_empty hc, ih, List.rdropWhile_concat_pos _ _ _ (by rw [hc]; rfl)]
      · rw [keptFields_concat_of_ne hc, List.rdropWhile_concat_neg _ _ _
          (by rw [decide_eq_true_iff]; exact hc), List.map_append, List.map_singleton]

theorem keptFields_isPrefix (cs : List CodedField) : keptFields cs <+: strippedFields cs := by
  induction cs using List.reverseRecOn with
  | nil => exact List.prefix_rfl
  | append_singleton cs c ih =>
      by_cases hone : c.gross = 1
      · rw [strippedFields_concat_of_one hone,
          keptFields_concat_of_empty (c.gross_eq_one_iff.mp hone).1]
        exact ih
      · rw [strippedFields_concat_of_ne hone]
        exact List.rdropWhile_prefix _ _

/-- The loop counts all empty fields at the end exactly if their lengths are short. -/
theorem emptiesShort_iff (cs : List CodedField) :
    EmptiesShort cs ↔ strippedFields cs = keptFields cs := by
  induction cs using List.reverseRecOn with
  | nil => exact iff_of_true (by simp [EmptiesShort]) rfl
  | append_singleton cs c ih =>
      rw [EmptiesShort]
      by_cases hc : c.data = []
      · rw [List.rtakeWhile_concat_pos (fun c : CodedField => decide (c.data = [])) cs c
          (decide_eq_true hc), keptFields_concat_of_empty hc]
        simp only [List.forall_mem_append, List.forall_mem_singleton]
        by_cases hone : c.code.length = 1
        · rw [strippedFields_concat_of_one (c.gross_eq_one_iff.mpr ⟨hc, hone⟩), ← ih,
            and_iff_left hone]
          rfl
        · have hlonger := ((keptFields_isPrefix cs).trans (List.rdropWhile_prefix _ cs)).length_le
          rw [strippedFields_concat_of_ne fun h => hone (c.gross_eq_one_iff.mp h).2]
          refine iff_of_false (fun h => hone h.2) fun heq => ?_
          rw [← heq, List.length_append, List.length_singleton] at hlonger
          omega
      · rw [List.rtakeWhile_concat_neg _ _ _ (by rw [decide_eq_true_iff]; exact hc),
          keptFields_concat_of_ne hc,
          strippedFields_concat_of_ne fun h => hc (c.gross_eq_one_iff.mp h).1]
        exact iff_of_true (fun _ hmem => absurd hmem List.not_mem_nil) rfl

/-- The bytes of the fields that are removed are zeros, as many as are counted. -/
theorem codedBytes_eq (cs : List CodedField) :
    codedBytes cs = codedBytes (strippedFields cs) ++ List.replicate (trailing 0 cs) 0 := by
  induction cs using List.reverseRecOn with
  | nil => rfl
  | append_singleton cs c ih =>
      rw [trailing, List.foldl_concat]
      by_cases hone : c.gross = 1
      · rw [if_pos hone, strippedFields_concat_of_one hone, List.replicate_succ',
          ← List.append_assoc, ← trailing, ← ih, codedBytes_append, codedBytes_cons,
          c.bytes_of_gross hone]
        rfl
      · rw [if_neg hone, strippedFields_concat_of_ne hone, List.replicate_zero, List.append_nil]

theorem length_codedBytes (cs : List CodedField) :
    (codedBytes cs).length = (codedBytes (strippedFields cs)).length + trailing 0 cs := by
  have hlen := congrArg List.length (codedBytes_eq cs)
  rwa [List.length_append, List.length_replicate] at hlen

theorem strippedFields_eq_iff (cs : List CodedField) :
    strippedFields cs = cs ↔ trailing 0 cs = 0 := by
  constructor
  · intro heq
    have hlen := length_codedBytes cs
    rw [heq] at hlen
    omega
  · intro hzero
    induction cs using List.reverseRecOn with
    | nil => rfl
    | append_singleton cs c ih =>
        rw [trailing, List.foldl_concat] at hzero
        by_cases hone : c.gross = 1
        · rw [if_pos hone] at hzero
          exact absurd hzero (Nat.succ_ne_zero _)
        · exact strippedFields_concat_of_ne hone

theorem trailing_strippedFields (cs : List CodedField) : trailing 0 (strippedFields cs) = 0 :=
  (strippedFields_eq_iff _).mp (List.rdropWhile_idempotent _ cs)

theorem strippedFields_eq_nil_iff (cs : List CodedField) :
    strippedFields cs = [] ↔ (codedBytes (strippedFields cs)).length = 0 := by
  rw [List.length_eq_zero_iff, (fieldsCode_codedBytes _).eq_nil_iff, List.map_eq_nil_iff]

theorem countEmpties_eq {vtplLen fuel n : ℕ} {pre : List UInt8}
    (hlen : vtplLen + 1 = pre.length + (codedBytes cs).length)
    (hfuel : (codedBytes cs).length < fuel) :
    countEmpties (pre ++ (codedBytes cs ++ r)) vtplLen fuel pre.length n = trailing n cs := by
  induction cs generalizing pre n fuel with
  | nil =>
      obtain ⟨fuel, rfl⟩ : ∃ k, fuel = k + 1 := Nat.exists_eq_add_one.mpr (by omega)
      rw [codedBytes_nil, List.length_nil] at hlen
      rw [countEmpties, if_neg (by omega)]
      rfl
  | cons c cs ih =>
      have hpos := c.gross_pos
      obtain ⟨fuel, rfl⟩ : ∃ k, fuel = k + 1 := Nat.exists_eq_add_one.mpr (by omega)
      rw [codedBytes_cons, List.length_append, c.length_bytes] at hlen hfuel
      have hrest := ih (n := if c.gross = 1 then n + 1 else 0)
        (show vtplLen + 1 = (pre ++ c.bytes).length + (codedBytes cs).length by
          rw [List.length_append, c.length_bytes]
          omega)
        (show (codedBytes cs).length < fuel by omega)
      rw [List.length_append, c.length_bytes, List.append_assoc] at hrest
      rw [countEmpties, if_pos (by omega), codedBytes_cons, List.append_assoc, List.drop_left,
        c.grosslen, hrest]
      rfl

/-! ## The function -/

def stripped (t : CodedTuple) : CodedTuple :=
  .ofFields (strippedFields t.fields) (by
    have hlen := length_codedBytes t.fields
    have hfits := t.fits
    omega)

theorem utiNormalize_eq (t : CodedTuple) :
    utiNormalize (t.bytes ++ r) =
      if trailing 0 t.fields ≠ 0 then
        if byteLenTest (codedBytes (strippedFields t.fields)).length then do
          let vtpl ←
            if !byteLenTest (t.code.length + (codedBytes t.fields).length - 1) then
              memmove (t.bytes ++ r) 1 5 (codedBytes (strippedFields t.fields)).length
            else some (t.bytes ++ r)
          let vtpl ← store vtpl 0
            [UInt8.ofNat (codedBytes (strippedFields t.fields)).length]
          some ((codedBytes (strippedFields t.fields)).length + 1, vtpl)
        else do
          let vtpl ← store (t.bytes ++ r) 0
            (setFourByteLen (codedBytes (strippedFields t.fields)).length)
          some ((codedBytes (strippedFields t.fields)).length + 5, vtpl)
      else some (0, t.bytes ++ r) := by
  have hpos := t.lenCode.length_pos
  have hcount := countEmpties_eq (r := r) (n := 0)
    (show t.code.length + (codedBytes t.fields).length - 1 + 1 =
        t.code.length + (codedBytes t.fields).length by omega)
    (show (codedBytes t.fields).length <
        t.code.length + (codedBytes t.fields).length - 1 + 1 by omega)
  have hnet : (codedBytes t.fields).length - trailing 0 t.fields =
      (codedBytes (strippedFields t.fields)).length := by
    rw [length_codedBytes t.fields, Nat.add_sub_cancel]
  rw [← List.append_assoc, ← CodedTuple.bytes] at hcount
  rw [utiNormalize]
  rcases t.lenCode.byte_or_fourByte (codedBytes t.fields ++ r) with
    ⟨hcode, hlt⟩ | ⟨hfive, htest, hfour⟩
  · have hhead : ((t.bytes ++ r).headD 0).toNat = (codedBytes t.fields).length := by
      rw [CodedTuple.bytes, hcode]
      exact Nat.mod_eq_of_lt (by omega)
    have hbyte := (byteLenTest_iff _).mpr hlt
    have hone : t.code.length = 1 := by rw [hcode]; rfl
    rw [hone, Nat.add_sub_cancel_left] at hcount ⊢
    simp only [hhead, hbyte, if_true, hcount, hnet]
  · rw [← List.append_assoc, ← CodedTuple.bytes] at htest hfour
    rw [hfive, show 5 + (codedBytes t.fields).length - 1 = (codedBytes t.fields).length + 4 by
      omega] at hcount ⊢
    simp only [htest, hfour, Bool.false_eq_true, if_false, hcount, Nat.add_sub_cancel, hnet]

theorem vtplNormalize_of_trailing (t : CodedTuple) (hzero : trailing 0 t.fields = 0) :
    vtplNormalize (t.bytes ++ r) = some (t.bytes ++ r) := by
  rw [vtplNormalize, utiNormalize_eq, if_neg (not_not.mpr hzero)]
  rfl

/-- A tuple whose length tells its format gets the new length and, where the format changes, the
data moved to it. -/
theorem vtplNormalize_of_length (t : CodedTuple) (hpos : 0 < trailing 0 t.fields)
    (hcode : t.code.length = 1 ∨ 250 ≤ (codedBytes t.fields).length) :
    ∃ r', vtplNormalize (t.bytes ++ r) = some ((stripped t).bytes ++ r') := by
  have hbytes := codedBytes_eq t.fields
  have hlen := length_codedBytes t.fields
  have hkept : (stripped t).bytes = encVa (codedBytes (strippedFields t.fields)) := rfl
  have ht : t.bytes = t.code ++ codedBytes t.fields := rfl
  rw [vtplNormalize, utiNormalize_eq, if_pos hpos.ne', hkept, ht]
  generalize List.replicate (trailing 0 t.fields) (0 : UInt8) = z at hbytes
  generalize codedBytes (strippedFields t.fields) = b at hbytes hlen ⊢
  by_cases hshort : byteLenTest b.length = true
  · have hb : encVa b = UInt8.ofNat b.length :: b := by
      rw [encVa, vaSetLen, if_pos hshort]
      rfl
    rw [if_pos hshort, hb]
    rcases t.lenCode.byte_or_fourByte [] with ⟨hone, hlt⟩ | ⟨hfive, -, -⟩
    · -- both formats are short
      have hbyte : byteLenTest (codedBytes t.fields).length = true := (byteLenTest_iff _).mpr hlt
      have hstore := store_start (b := t.code) (c := codedBytes t.fields ++ r)
        (d := [UInt8.ofNat b.length]) (by rw [hone]; rfl)
      refine ⟨z ++ r, ?_⟩
      rw [show t.code.length = 1 by rw [hone]; rfl, Nat.add_sub_cancel_left, hbyte,
        List.append_assoc]
      simp only [Bool.not_true, Bool.false_eq_true, if_false, Option.bind_eq_bind,
        Option.bind_some, hstore, Option.map_some]
      rw [hbytes, List.append_assoc b]
      rfl
    · -- the data moves over four bytes of the old length
      have hlong : byteLenTest (5 + (codedBytes t.fields).length - 1) = false := by
        rw [← Bool.not_eq_true, byteLenTest_iff]
        omega
      obtain ⟨m, e, hme⟩ := List.exists_cons_of_length_pos (show 0 < t.code.length by omega)
      rw [hme, List.length_cons] at hfive
      obtain ⟨y, hmove, -⟩ := memmove_back (a := [m]) (e := e) (b := b) (c := z ++ r)
      have hobject : [m] ++ e ++ b ++ (z ++ r) = t.code ++ codedBytes t.fields ++ r := by
        rw [hme, hbytes]
        simp only [List.append_assoc, List.cons_append, List.nil_append]
      have hfirst := store_start (b := [m]) (c := b ++ y) (d := [UInt8.ofNat b.length]) rfl
      rw [hobject, List.length_singleton, show 1 + e.length = 5 by omega] at hmove
      refine ⟨y, ?_⟩
      rw [show t.code.length = 5 by rw [hme, List.length_cons]; exact hfive, hlong]
      simp only [Bool.not_false, if_true, hmove, Option.bind_eq_bind, Option.bind_some]
      rw [List.append_assoc [m], hfirst]
      rfl
  · have hge : ¬ b.length < 0xFE := fun h => hshort ((byteLenTest_iff _).mpr h)
    have hb : encVa b = setFourByteLen b.length ++ b := by rw [encVa, vaSetLen, if_neg hshort]
    rcases t.lenCode.byte_or_fourByte [] with ⟨-, hlt⟩ | ⟨hfive, -, -⟩
    · omega
    · have hstore := store_start (b := t.code) (c := codedBytes t.fields ++ r)
        (d := setFourByteLen b.length) (by rw [hfive]; rfl)
      refine ⟨z ++ r, ?_⟩
      rw [if_neg hshort, hb, List.append_assoc t.code, hstore, hbytes]
      simp only [Option.bind_eq_bind, Option.bind_some, Option.map_some, List.append_assoc]

/-- A length in the long format that does not ask for it: the data is not moved. -/
theorem vtplNormalize_of_long (t : CodedTuple) (hpos : 0 < trailing 0 t.fields)
    (hcode : t.code.length ≠ 1) (hlt : (codedBytes t.fields).length < 250) :
    vtplNormalize (t.bytes ++ r) =
      some (UInt8.ofNat (codedBytes (strippedFields t.fields)).length ::
        UInt8.ofNat (codedBytes t.fields).length :: ([0, 0, 0] ++ codedBytes t.fields ++ r)) := by
  have hlen := length_codedBytes t.fields
  have hshort := (byteLenTest_iff (codedBytes (strippedFields t.fields)).length).mpr (by omega)
  obtain ⟨m, hm⟩ : ∃ m, t.code = m :: UInt8.ofNat (codedBytes t.fields).length :: [0, 0, 0] := by
    have hlenCode := t.lenCode
    generalize t.code = h at hcode hlenCode
    generalize (codedBytes t.fields).length = n at hlt hlenCode
    cases hlenCode with
    | byte => exact absurd rfl hcode
    | fourByte mark =>
        refine ⟨mark, congrArg (mark :: ·) ?_⟩
        have hhigh : n / 256 = 0 := Nat.div_eq_of_lt (by omega)
        simp [setFourByteLen, hhigh]
  have hfive : t.code.length = 5 := by rw [hm]; rfl
  have hold : byteLenTest (5 + (codedBytes t.fields).length - 1) = true := by
    rw [byteLenTest_iff]
    omega
  have hstore := store_start (b := [m])
    (c := UInt8.ofNat (codedBytes t.fields).length :: ([0, 0, 0] ++ codedBytes t.fields ++ r))
    (d := [UInt8.ofNat (codedBytes (strippedFields t.fields)).length]) rfl
  have hobject : t.bytes ++ r = [m] ++
      UInt8.ofNat (codedBytes t.fields).length :: ([0, 0, 0] ++ codedBytes t.fields ++ r) := by
    rw [CodedTuple.bytes, hm]
    rfl
  rw [vtplNormalize, utiNormalize_eq, if_pos hpos.ne', if_pos hshort, hfive, hold, hobject]
  simp only [Bool.not_true, Bool.false_eq_true, if_false, Option.bind_eq_bind, Option.bind_some,
    hstore, Option.map_some]
  rfl

/-! ## Where the code does it -/

/-- A result without fields to count is the right one where it has no empty field at its end. -/
theorem normalizes_iff_of_eq {t u : CodedTuple} {s : List UInt8}
    (heq : vtplNormalize (t.bytes ++ r) = some (u.bytes ++ s))
    (hfields : u.fields = strippedFields t.fields) :
    Normalizes t r ↔ EmptiesShort t.fields := by
  have hvalues : u.values = t.values.rdropWhile (fun f => f = []) ↔
      strippedFields t.fields = keptFields t.fields := by
    rw [CodedTuple.values, CodedTuple.values, hfields, ← map_data_keptFields]
    refine ⟨fun hmap => ?_, fun h => by rw [h]⟩
    have hlen := congrArg List.length hmap
    rw [List.length_map, List.length_map] at hlen
    exact ((keptFields_isPrefix t.fields).eq_of_length hlen.symm).symm
  rw [emptiesShort_iff, ← hvalues]
  constructor
  · rintro ⟨t', r', hrun, hdropped, -⟩
    rw [heq, Option.some_inj] at hrun
    rw [← CodedTuple.values_inj hrun, hdropped]
  · intro hdropped
    have hzero : trailing 0 u.fields = 0 := by
      rw [hfields]
      exact trailing_strippedFields t.fields
    exact ⟨u, s, heq, hdropped, vtplNormalize_of_trailing u hzero⟩

/-- Where the data is not moved, the length of the first field is read from the old length. -/
theorem normalizes_iff_of_long {t : CodedTuple} (hpos : 0 < trailing 0 t.fields)
    (hcode : t.code.length ≠ 1) (hlt : (codedBytes t.fields).length < 250) :
    Normalizes t r ↔ strippedFields t.fields = [] := by
  have hrun := vtplNormalize_of_long (r := r) t hpos hcode hlt
  have hlen := length_codedBytes t.fields
  rw [strippedFields_eq_nil_iff]
  generalize hm : (codedBytes (strippedFields t.fields)).length = m at hrun hlen
  generalize hrest : [0, 0, 0] ++ codedBytes t.fields ++ r = rest at hrun
  constructor
  · rintro ⟨t', r', heq, -, -⟩
    by_contra hne
    rw [hrun, Option.some_inj, CodedTuple.bytes, List.append_assoc] at heq
    obtain ⟨hnet, htail⟩ := (LenCode.byte (show m < 0xFE by omega)).append_inj t'.lenCode
      (r := UInt8.ofNat (codedBytes t.fields).length :: rest) heq
    obtain ⟨d, e, rfl, hd⟩ := exists_append rest
      (show (codedBytes t.fields).length ≤ rest.length by
        rw [← hrest]
        simp only [List.length_append]
        omega)
    have hfirst : LenCode [UInt8.ofNat (codedBytes t.fields).length] d.length := by
      rw [hd]
      exact .byte (by omega)
    refine FieldsCode.not_incomplete (c := ⟨_, d, hfirst⟩) (r := e) (htail.symm) ?_ ?_
      (fieldsCode_codedBytes t'.fields)
    · exact List.ne_nil_of_length_pos (by omega)
    · rw [CodedField.gross, hd, List.length_singleton]
      omega
  · rintro rfl
    have hnil : strippedFields t.fields = [] := (strippedFields_eq_nil_iff _).mpr hm
    have hempty : (stripped t).bytes = [0] := by
      rw [stripped, CodedTuple.bytes_ofFields, hnil]
      rfl
    have hkept : keptFields t.fields = [] := by
      have hpre := keptFields_isPrefix t.fields
      rw [hnil] at hpre
      exact List.prefix_nil.mp hpre
    refine (normalizes_iff_of_eq (u := stripped t)
      (s := UInt8.ofNat (codedBytes t.fields).length :: rest) ?_ rfl).mpr
      ((emptiesShort_iff _).mpr (by rw [hnil, hkept]))
    rw [hrun, hempty]
    rfl

/-- `vtpl_normalize` removes exactly the trailing empty fields, and changes nothing the second
time, where these fields have lengths of one byte and the own length tells its format. -/
theorem normalizes_iff (t : CodedTuple) (r : List UInt8) :
    Normalizes t r ↔ EmptiesShort t.fields ∧ LengthTells t := by
  rcases Nat.eq_zero_or_pos (trailing 0 t.fields) with hzero | hpos
  · have hsame := (strippedFields_eq_iff _).mpr hzero
    rw [normalizes_iff_of_eq (vtplNormalize_of_trailing t hzero) hsame.symm]
    refine (and_iff_left_of_imp fun hshort => ?_).symm
    rw [emptiesShort_iff, hsame] at hshort
    exact Or.inr (Or.inr (Or.inl hshort.symm))
  by_cases hcode : t.code.length = 1 ∨ 250 ≤ (codedBytes t.fields).length
  · obtain ⟨r', hrun⟩ := vtplNormalize_of_length (r := r) t hpos hcode
    rw [normalizes_iff_of_eq hrun rfl]
    exact (and_iff_left (hcode.imp_right Or.inl)).symm
  · obtain ⟨hone, hlt⟩ := not_or.mp hcode
    rw [normalizes_iff_of_long hpos hone (Nat.lt_of_not_le hlt), LengthTells, ← or_assoc,
      or_iff_right hcode]
    constructor
    · intro hnil
      have hpre := keptFields_isPrefix t.fields
      rw [hnil] at hpre
      have hkept := List.prefix_nil.mp hpre
      exact ⟨(emptiesShort_iff _).mpr (by rw [hnil, hkept]), Or.inr hkept⟩
    · rintro ⟨hshort, hall | hnil⟩
      · rw [← (emptiesShort_iff _).mp hshort, strippedFields_eq_iff] at hall
        omega
      · rw [(emptiesShort_iff _).mp hshort, hnil]

/-! ## Lengths in the long format -/

/-- A single empty field whose length has the long format. -/
def longEmptyTuple : CodedTuple where
  code := [5]
  fields := [⟨[0xFE, 0, 0, 0, 0], [], .fourByte 0xFE (by decide) (by decide)⟩]
  lenCode := .byte (by decide)
  fits := by decide

def longLengthTuple : CodedTuple where
  code := [0xFE, 3, 0, 0, 0]
  fields := [⟨[1], [0x41], .byte (by decide)⟩, ⟨[0], [], .byte (by decide)⟩]
  lenCode := .fourByte 0xFE (by decide) (by decide)
  fits := by decide

/-- The empty field stays, and the field `A` is lost. -/
theorem not_normalizes_long :
    longEmptyTuple.bytes = [5, 0xFE, 0, 0, 0, 0] ∧
      longLengthTuple.bytes = [0xFE, 3, 0, 0, 0, 1, 0x41, 0] ∧
      vtplNormalize longEmptyTuple.bytes = some [5, 0xFE, 0, 0, 0, 0] ∧
      vtplNormalize longLengthTuple.bytes = some [2, 3, 0, 0, 0, 1, 0x41, 0] ∧
      ¬ (∀ t r, Normalizes t r) ∧ ¬ Normalizes longEmptyTuple [] ∧
      ¬ Normalizes longLengthTuple [] := by
  have hempty : ¬ Normalizes longEmptyTuple [] := by
    rw [normalizes_iff_of_eq (vtplNormalize_of_trailing longEmptyTuple (by decide)) rfl]
    decide
  have hlength : ¬ Normalizes longLengthTuple [] := by
    rw [normalizes_iff_of_long (by decide) (by decide) (by decide)]
    decide
  exact ⟨by decide, by decide, by decide, by decide, fun h => hempty (h _ _), hempty, hlength⟩

end SolidDB.VtplNormalize
