import SolidDB.Uti.VtplCoded

/-!
# Cutting a v-tuple

`vtpl_truncate` of `uti0vtpb.c`. The differences of lengths are unsigned, so that a field longer
than the limit is passed over, and the gross length of a field decides whether its data is moved.
-/

namespace SolidDB.VtplTruncate

open BlockHeap

def indexSub (a b : ℕ) : ℕ := (a + 2 ^ 32 - b) % 2 ^ 32

/-- The loop of `vtpl_truncate` for the last field to include: `i_field` and `l_field` behind it.
Every round passes at least one byte. -/
def lastField (vtpl : List UInt8) (vtplLen maxLen : ℕ) : ℕ → ℕ → ℕ → ℕ × ℕ
  | 0, iField, lField => (iField, lField)
  | fuel + 1, iField, lField =>
    if iField ≤ vtplLen then
      let lField := vtplGrosslen (vtpl.drop iField)
      if iField > indexSub maxLen lField then (iField, lField)
      else lastField vtpl vtplLen maxLen fuel ((iField + lField) % 2 ^ 32) lField
    else
      (iField, lField)

/-- The net and the gross length of what is left of a field in the given space. -/
def newFieldLens (newLField : ℕ) : ℕ × ℕ :=
  if byteLenTest (indexSub newLField 1) then (indexSub newLField 1, newLField)
  else if byteLenTest (indexSub newLField 5) then (vaLongvalimit - 1, vaLongvalimit)
  else (indexSub newLField 5, newLField)

def cutField (vtpl : List UInt8) (maxLen iField lField : ℕ) : Option (List UInt8) :=
  let newLField := indexSub maxLen iField
  if newLField = 0 then
    store vtpl 0 (vaSetLen (indexSub maxLen 5))
  else do
    let (newNetLField, newLField) := newFieldLens newLField
    let vtpl ← store vtpl iField (vaSetLen newNetLField)
    let pData := iField + vaLenLen newNetLField
    let vtpl ←
      if byteLenTest newNetLField && !byteLenTest lField then
        memmove vtpl pData (pData + 4) newNetLField
      else some vtpl
    store vtpl 0 (vaSetLen (indexSub ((iField + newLField) % 2 ^ 32) 5))

def vtplTruncate (vtpl : List UInt8) (maxLen : ℕ) : Option (List UInt8) :=
  if byteLenTest (vtpl.headD 0).toNat then some vtpl
  else
    let vtplLen := fourByteLen vtpl + 4
    if vtplLen < maxLen then some vtpl
    else
      let (iField, lField) := lastField vtpl vtplLen maxLen (vtplLen + 1) 5 0
      cutField vtpl maxLen iField lField

/-! ## What is asked for -/

def Truncated (v w : Fields) : Prop :=
  w <+: v ∨ ∃ (u x : Fields) (f g : List UInt8), v = u ++ g :: x ∧ w = u ++ [f] ∧ f <+: g

/-- The result is a well-formed v-tuple within the limit that a v-tuple is cut to. -/
def CutMeets (t : CodedTuple) (maxLen : ℕ) (result : Option (List UInt8)) : Prop :=
  ∃ (t' : CodedTuple) (r : List UInt8), result = some (t'.bytes ++ r) ∧
    t'.bytes.length ≤ maxLen ∧ Truncated t.values t'.values

/-- `vtpl_truncate` cuts the v-tuple, and leaves it as it is if it is within the limit. -/
def TruncateMeets (t : CodedTuple) (maxLen : ℕ) : Prop :=
  CutMeets t maxLen (vtplTruncate t.bytes maxLen) ∧
    (t.bytes.length ≤ maxLen → vtplTruncate t.bytes maxLen = some t.bytes)

/-! ## Where the code does it -/

def GrossTells (c : CodedField) : Prop := c.code.length = if byteLenTest c.gross then 1 else 5

/-- The bytes behind the length of a field, where its gross length tells how long that is. -/
def takenData (c : CodedField) (cs : List CodedField) : List UInt8 :=
  (codedBytes (c :: cs)).drop (if byteLenTest c.gross then 1 else 5)

def keptLen (space : ℕ) : ℕ := min (space - 1) (vaLongvalimit - 1)

/-- In the space that is left for a field, its data is cut from its own data. Where its gross length
does not tell the format, other bytes of the v-tuple have to be equal to that data. -/
def KeepsData (space : ℕ) (c : CodedField) (cs : List CodedField) : Prop :=
  space ≤ 1 ∨ 259 ≤ space ∨ GrossTells c ∧ keptLen space ≤ c.data.length ∨
    ¬ GrossTells c ∧ keptLen space ≤ (takenData c cs).length ∧
      (takenData c cs).take (keptLen space) <+: c.data

def RoomBehind (maxLen : ℕ) : List CodedField → Prop
  | [] => False
  | c :: cs =>
    if c.gross ≤ maxLen then 5 ≤ (codedBytes (c :: cs)).length else RoomBehind maxLen cs

/-- From a position on, either the field that does not fit any more is cut right, or a field longer
than the limit begins exactly at it. -/
def CutsRight (maxLen : ℕ) : ℕ → List CodedField → Prop
  | _, [] => True
  | iField, c :: cs =>
    if c.gross ≤ maxLen then
      if iField + c.gross ≤ maxLen then CutsRight maxLen (iField + c.gross) cs
      else KeepsData (maxLen - iField) c cs
    else iField = maxLen ∧ RoomBehind maxLen cs

instance (c : CodedField) : Decidable (GrossTells c) := inferInstanceAs (Decidable (_ = _))

instance (space : ℕ) (c : CodedField) (cs : List CodedField) : Decidable (KeepsData space c cs) :=
  inferInstanceAs (Decidable (_ ∨ _ ∨ _ ∧ _ ∨ _ ∧ _ ∧ _))

/-! ## Results -/

/-- Behind common fields a last field is one that is cut. -/
theorem truncated_concat_iff {u x : Fields} {f g : List UInt8} :
    Truncated (u ++ g :: x) (u ++ [f]) ↔ f <+: g := by
  constructor
  · rintro (hpre | ⟨u', x', f', g', hv, hw, hpre⟩)
    · rw [List.prefix_append_right_inj, List.cons_prefix_cons] at hpre
      obtain ⟨rfl, -⟩ := hpre
      exact List.prefix_rfl
    · obtain ⟨rfl, hf⟩ := List.append_inj' hw rfl
      obtain ⟨rfl, -⟩ := List.cons.inj (List.append_cancel_left hv)
      obtain ⟨rfl, -⟩ := List.cons.inj hf
      exact hpre
  · exact fun hpre => Or.inr ⟨u, x, f, g, rfl, rfl, hpre⟩

variable {t : CodedTuple} {ds cs : List CodedField} {c : CodedField} {maxLen : ℕ}
  {g r : List UInt8}

theorem not_cutMeets_none : ¬ CutMeets t maxLen none := by
  rintro ⟨t', r, hsome, -⟩
  cases hsome

theorem exists_tuple (ds : List CodedField) (hlen : (codedBytes ds).length + 5 < 2 ^ 32) :
    ∃ t' : CodedTuple, t'.values = ds.map CodedField.data ∧ t'.bytes = encVa (codedBytes ds) ∧
      t'.bytes.length ≤ (codedBytes ds).length + 5 := by
  have hle := vaLenLen_le (codedBytes ds).length
  refine ⟨.ofFields ds hlen, rfl, rfl, ?_⟩
  rw [CodedTuple.bytes_ofFields, length_encVa]
  omega

theorem cutMeets_fields (hfields : t.fields = ds ++ cs) (hlen : (codedBytes ds).length + 5 ≤ maxLen)
    (hmax : maxLen < 2 ^ 32) : CutMeets t maxLen (some (encVa (codedBytes ds) ++ r)) := by
  obtain ⟨t', hvalues, ht', hle⟩ := exists_tuple ds (by omega)
  refine ⟨t', r, by rw [ht'], by omega, Or.inl ?_⟩
  rw [hvalues, CodedTuple.values, hfields, List.map_append]
  exact List.prefix_append ..

theorem cutMeets_cut (hfields : t.fields = ds ++ c :: cs)
    (hlen : (codedBytes ds).length + (encVa g).length + 5 ≤ maxLen) (hmax : maxLen < 2 ^ 32) :
    CutMeets t maxLen (some (encVa (codedBytes ds ++ encVa g) ++ r)) ↔ g <+: c.data := by
  have hglen := length_encVa g
  have hbytes : codedBytes (ds ++ [.ofData g (by omega)]) = codedBytes ds ++ encVa g := by
    rw [codedBytes_append, codedBytes_cons, codedBytes_nil, List.append_nil]
    rfl
  have hsum := congrArg List.length hbytes
  rw [List.length_append] at hsum
  obtain ⟨t₁, hw, hb₁, hle⟩ := exists_tuple (ds ++ [.ofData g (by omega)]) (by omega)
  rw [List.map_append, List.map_singleton] at hw
  change t₁.values = ds.map CodedField.data ++ [g] at hw
  rw [hbytes] at hb₁
  have hvalues : t.values = ds.map CodedField.data ++ c.data :: cs.map CodedField.data := by
    rw [CodedTuple.values, hfields, List.map_append, List.map_cons]
  rw [← truncated_concat_iff (u := ds.map CodedField.data) (x := cs.map CodedField.data),
    ← hvalues, ← hw, ← hb₁]
  constructor
  · rintro ⟨t', r', hsome, -, hcut⟩
    rwa [CodedTuple.values_inj (Option.some_inj.mp hsome).symm]
  · exact fun hcut => ⟨t₁, r, rfl, by omega, hcut⟩

theorem not_cutMeets_incomplete {s e r' : List UInt8} (heq : s ++ e = c.bytes ++ r') (hne : s ≠ [])
    (hlt : s.length < c.gross) (hfits : (codedBytes ds ++ s).length < 2 ^ 32) :
    ¬ CutMeets t maxLen (some (encVa (codedBytes ds ++ s) ++ r)) := by
  rintro ⟨t', r'', hsome, -⟩
  have hget := vaGetdata_encVa hfits r
  have hget' := t'.lenCode.vaGetdata (codedBytes t'.fields ++ r'')
  rw [Option.some_inj, CodedTuple.bytes, List.append_assoc] at hsome
  rw [hsome, hget', Prod.mk.injEq] at hget
  have hdata := (List.append_inj hget.1 hget.2).1
  have hcode := fieldsCode_codedBytes t'.fields
  rw [hdata] at hcode
  obtain ⟨w, -, hs⟩ := (fieldsCode_codedBytes ds).append_left hcode
  exact FieldsCode.not_incomplete heq hne hlt hs

/-! ## The steps behind the loop -/

section Cut

variable {H a d e z : List UInt8} {i l : ℕ}

theorem indexSub_of_le {i j : ℕ} (hle : j ≤ i) (hlt : i < 2 ^ 32) : indexSub i j = i - j := by
  rw [indexSub, Nat.sub_add_comm hle, Nat.add_mod_right, Nat.mod_eq_of_lt (by omega)]

theorem store_length (hH : H.length = 5) (ha : 0xFE ≤ a.length) :
    store (H ++ (a ++ r)) 0 (vaSetLen a.length) = some (encVa a ++ r) := by
  have hbyte : ¬ byteLenTest a.length = true := by
    rw [byteLenTest_iff]
    omega
  rw [store_start (by rw [length_vaSetLen, vaLenLen, if_neg hbyte, hH]), encVa, List.append_assoc]

theorem cutField_whole (hH : H.length = 5) (ha : a.length + 5 = maxLen) (hmin : 259 ≤ maxLen)
    (hmax : maxLen < 2 ^ 32) :
    cutField (H ++ (a ++ r)) maxLen maxLen l = some (encVa a ++ r) := by
  have hlen : indexSub maxLen 5 = a.length := by
    rw [indexSub_of_le (by omega) hmax]
    omega
  rw [cutField, indexSub_of_le le_rfl hmax, Nat.sub_self, if_pos rfl, hlen]
  exact store_length hH (by omega)

theorem not_byteLenTest {n : ℕ} (hn : 0xFE ≤ n) : byteLenTest n = false := by
  rw [← Bool.not_eq_true, byteLenTest_iff]
  exact Nat.not_lt.mpr hn

theorem newFieldLens_of_long {n : ℕ} (hn : 0xFE ≤ n) (hlt : n + 5 < 2 ^ 32) :
    newFieldLens (n + 5) = (n, n + 5) := by
  have hone : indexSub (n + 5) 1 = n + 4 := indexSub_of_le (by omega) hlt
  have hfive : indexSub (n + 5) 5 = n := indexSub_of_le (Nat.le_add_left ..) hlt
  have htest : byteLenTest (n + 4) = false := not_byteLenTest (by omega)
  rw [newFieldLens, hone, hfive, htest, not_byteLenTest hn, if_neg Bool.false_ne_true,
    if_neg Bool.false_ne_true]

theorem cutField_of_long {n k : ℕ} {mem : List UInt8} (hspace : indexSub maxLen i = n + 5)
    (hn : 0xFE ≤ n) (hlt : n + 5 < 2 ^ 32) (hk : indexSub ((i + (n + 5)) % 2 ^ 32) 5 = k) :
    cutField mem maxLen i l =
      (store mem i (vaSetLen n)).bind fun vtpl => store vtpl 0 (vaSetLen k) := by
  rw [cutField, hspace, if_neg (by omega), newFieldLens_of_long hn hlt]
  simp only [not_byteLenTest hn, Bool.false_and, Bool.false_eq_true, if_false, Option.bind_eq_bind,
    Option.bind_some, hk]

theorem cutField_long (hH : H.length = 5) (hi : a.length + 5 = i) (he : e.length = 5)
    (hd : i + 5 + d.length = maxLen) (hlong : 0xFE ≤ d.length) (hmax : maxLen < 2 ^ 32) :
    cutField (H ++ (a ++ (e ++ (d ++ r)))) maxLen i l = some (encVa (a ++ encVa d) ++ r) := by
  have hlen : vaLenLen d.length = 5 := by
    rw [vaLenLen, not_byteLenTest hlong, if_neg Bool.false_ne_true]
  have hspace : indexSub maxLen i = d.length + 5 := by
    rw [indexSub_of_le (by omega) hmax]
    omega
  have hstore : store (H ++ (a ++ (e ++ (d ++ r)))) i (vaSetLen d.length) =
      some (H ++ ((a ++ encVa d) ++ r)) := by
    have hmiddle := store_middle (a := H ++ a) (b := e) (c := d ++ r) (d := vaSetLen d.length)
      (by rw [length_vaSetLen, hlen, he])
    rw [List.length_append, hH, Nat.add_comm, hi] at hmiddle
    simp only [encVa, List.append_assoc] at hmiddle ⊢
    exact hmiddle
  have hnew : indexSub ((i + (d.length + 5)) % 2 ^ 32) 5 = (a ++ encVa d).length := by
    rw [Nat.mod_eq_of_lt (by omega), indexSub_of_le (by omega) (by omega), List.length_append,
      length_encVa, hlen]
    omega
  rw [cutField_of_long hspace hlong (by omega) hnew, hstore, Option.bind_some]
  refine store_length hH ?_
  rw [List.length_append, length_encVa]
  omega

theorem past_lens (hi : maxLen < i) (hlt : i < 2 ^ 32) (hmin : 259 ≤ maxLen) :
    indexSub maxLen i = maxLen + 2 ^ 32 - i - 5 + 5 ∧ 0xFE ≤ maxLen + 2 ^ 32 - i - 5 ∧
      maxLen + 2 ^ 32 - i - 5 + 5 < 2 ^ 32 ∧
      indexSub ((i + (maxLen + 2 ^ 32 - i - 5 + 5)) % 2 ^ 32) 5 = maxLen - 5 := by
  have hsum : (i + (maxLen + 2 ^ 32 - i - 5 + 5)) % 2 ^ 32 = maxLen := by
    rw [show i + (maxLen + 2 ^ 32 - i - 5 + 5) = maxLen + 2 ^ 32 by omega, Nat.add_mod_right,
      Nat.mod_eq_of_lt (by omega)]
  refine ⟨?_, by omega, by omega, ?_⟩
  · rw [indexSub, Nat.mod_eq_of_lt (by omega)]
    omega
  · rw [hsum, indexSub_of_le (by omega) (by omega)]

/-- Behind the limit the space wraps around, and only the length of the v-tuple is cut. -/
theorem cutField_past {b : List UInt8} (hH : H.length = 5) (hi : maxLen < i)
    (hroom : i ≤ b.length) (hlt : b.length + 5 < 2 ^ 32) (hmin : 259 ≤ maxLen) :
    ∃ r', cutField (H ++ b) maxLen i l = some (encVa (b.take (maxLen - 5)) ++ r') := by
  obtain ⟨y, z, rfl, hy⟩ := exists_append b (show maxLen - 5 ≤ b.length by omega)
  rw [List.length_append] at hroom hlt
  obtain ⟨x, z, rfl, hx⟩ := exists_append z (show i - maxLen ≤ z.length by omega)
  rw [List.length_append] at hroom hlt
  obtain ⟨e, z, rfl, he⟩ := exists_append z (show 5 ≤ z.length by omega)
  obtain ⟨hspace, hlong, hfits, hlen⟩ := past_lens hi (by omega) hmin
  generalize maxLen + 2 ^ 32 - i - 5 = n at hspace hlong hfits hlen
  have hmiddle := store_middle (a := H ++ (y ++ x)) (b := e) (c := z) (d := vaSetLen n)
    (by rw [length_vaSetLen, vaLenLen, not_byteLenTest hlong, if_neg Bool.false_ne_true, he])
  have hat : (H ++ (y ++ x)).length = i := by
    simp only [List.length_append]
    omega
  rw [hat] at hmiddle
  simp only [List.append_assoc] at hmiddle
  have hstore := store_length (a := y) (r := x ++ (vaSetLen n ++ z)) hH (by omega)
  rw [hy] at hstore
  refine ⟨x ++ (vaSetLen n ++ z), ?_⟩
  rw [cutField_of_long hspace hlong hfits hlen, hmiddle, Option.bind_some, hstore, ← hy,
    List.take_left]

theorem cutField_past_none {b : List UInt8} (hH : H.length = 5) (hi : maxLen < i)
    (hroom : b.length < i) (hlt : i < 2 ^ 32) (hmin : 259 ≤ maxLen) :
    cutField (H ++ b) maxLen i l = none := by
  obtain ⟨hspace, hlong, hfits, hlen⟩ := past_lens hi hlt hmin
  generalize maxLen + 2 ^ 32 - i - 5 = n at hspace hlong hfits hlen
  have hset : (vaSetLen n).length = 5 := by
    rw [length_vaSetLen, vaLenLen, not_byteLenTest hlong, if_neg Bool.false_ne_true]
  rw [cutField_of_long hspace hlong hfits hlen, store_none]
  · rfl
  · rw [List.length_append, hH, hset]
    omega

theorem keptLen_eq (space : ℕ) : keptLen space = min (space - 1) 253 := rfl

theorem newFieldLens_of_le {space : ℕ} (hpos : 0 < space) (hle : space ≤ 258) :
    newFieldLens space =
      (keptLen space, keptLen space + 1) := by
  have hkept := keptLen_eq space
  have hlimit : vaLongvalimit = 254 := rfl
  rw [newFieldLens, indexSub_of_le (by omega) (by omega), hlimit, hkept]
  by_cases hbyte : byteLenTest (space - 1) = true
  · have hlt := (byteLenTest_iff _).mp hbyte
    rw [if_pos hbyte, Nat.min_eq_left (by omega), Nat.sub_add_cancel hpos]
  · have hge : ¬ space - 1 < 0xFE := fun h => hbyte ((byteLenTest_iff _).mpr h)
    have hfive : byteLenTest (indexSub space 5) = true := by
      rw [indexSub_of_le (by omega) (by omega), byteLenTest_iff]
      omega
    rw [if_neg hbyte, if_pos hfive, Nat.min_eq_right (by omega)]

theorem cutField_byte {x : UInt8} {space m : ℕ} (hH : H.length = 5) (hi : a.length + 5 = i)
    (hspace : i + space = maxLen) (hpos : 0 < space) (hle : space ≤ 258)
    (hm : keptLen space = m) (hmin : 259 ≤ maxLen) (hmax : maxLen < 2 ^ 32) :
    cutField (H ++ (a ++ x :: z)) maxLen i l =
      (if byteLenTest l then some (H ++ (a ++ UInt8.ofNat m :: z))
        else memmove (H ++ (a ++ UInt8.ofNat m :: z)) (i + 1) (i + 5) m).bind
        fun vtpl => store vtpl 0 (vaSetLen (a.length + 1 + m)) := by
  have hkept := keptLen_eq space
  have hbyte : byteLenTest m = true := by
    rw [byteLenTest_iff]
    omega
  have hlen : vaLenLen m = 1 := if_pos hbyte
  have hsub : indexSub maxLen i = space := by
    rw [indexSub_of_le (by omega) hmax]
    omega
  have hset : vaSetLen m = [UInt8.ofNat m] := if_pos hbyte
  have hstore : store (H ++ (a ++ x :: z)) i (vaSetLen m) =
      some (H ++ (a ++ UInt8.ofNat m :: z)) := by
    have hmiddle := store_middle (a := H ++ a) (b := [x]) (c := z) (d := [UInt8.ofNat m]) rfl
    rw [List.length_append, hH, Nat.add_comm, hi] at hmiddle
    simp only [List.append_assoc, List.singleton_append] at hmiddle
    rw [hset, hmiddle]
  have hnew : indexSub ((i + (m + 1)) % 2 ^ 32) 5 = a.length + 1 + m := by
    rw [Nat.mod_eq_of_lt (by omega), indexSub_of_le (by omega) (by omega)]
    omega
  rw [cutField, hsub, if_neg (by omega), newFieldLens_of_le hpos hle, hm]
  simp only [hstore, hbyte, hlen, hnew, Option.bind_eq_bind, Option.bind_some, Bool.true_and]
  cases byteLenTest l <;> rfl

theorem store_byte (hH : H.length = 5) (hd : d.length < 0xFE)
    (ha : 0xFE ≤ a.length + 1 + d.length) :
    store (H ++ (a ++ UInt8.ofNat d.length :: (d ++ r))) 0 (vaSetLen (a.length + 1 + d.length)) =
      some (encVa (a ++ encVa d) ++ r) := by
  have henc : encVa d = UInt8.ofNat d.length :: d := by
    rw [encVa, vaSetLen, if_pos ((byteLenTest_iff _).mpr hd)]
    rfl
  have hlen : (a ++ encVa d).length = a.length + 1 + d.length := by
    rw [henc, List.length_append, List.length_cons]
    omega
  have hstore := store_length (a := a ++ encVa d) (r := r) hH (by omega)
  rw [hlen, henc, List.append_assoc, List.cons_append] at hstore
  rw [hstore, henc]

theorem cutField_short {x : UInt8} {space : ℕ} (hH : H.length = 5) (hi : a.length + 5 = i)
    (hspace : i + space = maxLen) (hpos : 0 < space) (hle : space ≤ 258) (hmin : 259 ≤ maxLen)
    (hmax : maxLen < 2 ^ 32) (hl : byteLenTest l = true)
    (hd : keptLen space = d.length) :
    cutField (H ++ (a ++ x :: (d ++ r))) maxLen i l = some (encVa (a ++ encVa d) ++ r) := by
  have hkept := keptLen_eq space
  rw [cutField_byte hH hi hspace hpos hle hd hmin hmax, if_pos hl, Option.bind_some,
    store_byte hH (by omega) (by omega)]

theorem cutField_moved {x : UInt8} {space : ℕ} (hH : H.length = 5) (hi : a.length + 5 = i)
    (he : e.length = 4) (hspace : i + space = maxLen) (hpos : 0 < space) (hle : space ≤ 258)
    (hmin : 259 ≤ maxLen) (hmax : maxLen < 2 ^ 32) (hl : ¬ byteLenTest l = true)
    (hd : keptLen space = d.length) :
    ∃ r', cutField (H ++ (a ++ x :: (e ++ (d ++ r)))) maxLen i l =
      some (encVa (a ++ encVa d) ++ r') := by
  have hkept := keptLen_eq space
  obtain ⟨y, hmove, -⟩ := memmove_back (a := H ++ (a ++ [UInt8.ofNat d.length])) (e := e) (b := d)
    (c := r)
  have hlen : (H ++ (a ++ [UInt8.ofNat d.length])).length = i + 1 := by
    simp only [List.length_append, List.length_singleton]
    omega
  rw [hlen, he] at hmove
  simp only [List.append_assoc, List.cons_append, List.nil_append, Nat.add_assoc,
    Nat.reduceAdd] at hmove
  refine ⟨y, ?_⟩
  rw [cutField_byte hH hi hspace hpos hle hd hmin hmax, if_neg hl, hmove, Option.bind_some,
    store_byte hH (by omega) (by omega)]

theorem cutField_none {x : UInt8} {space m : ℕ} (hH : H.length = 5) (hi : a.length + 5 = i)
    (hspace : i + space = maxLen) (hpos : 0 < space) (hle : space ≤ 258) (hmin : 259 ≤ maxLen)
    (hmax : maxLen < 2 ^ 32) (hl : ¬ byteLenTest l = true)
    (hm : keptLen space = m) (hz : z.length < 4 + m) :
    cutField (H ++ (a ++ x :: z)) maxLen i l = none := by
  rw [cutField_byte hH hi hspace hpos hle hm hmin hmax, if_neg hl, memmove, load, if_neg]
  · rfl
  · simp only [List.length_append, List.length_cons]
    omega

end Cut

/-! ## The field that is cut -/

theorem length_of_long {h : List UInt8} {n : ℕ} (hcode : LenCode h n) (hlong : 259 ≤ h.length + n) :
    h.length = 5 := by
  cases hcode with
  | byte hlt =>
      rw [List.length_singleton] at hlong
      omega
  | fourByte mark hmark hlt => rfl

/-- The bytes that are taken are the data of the field. -/
theorem keepsData_iff {space : ℕ} (hlong : ¬ 259 ≤ space) :
    KeepsData space c cs ↔ keptLen space ≤ (takenData c cs).length ∧
      (takenData c cs).take (keptLen space) <+: c.data := by
  rw [KeepsData, or_iff_right hlong]
  by_cases hone : space ≤ 1
  · have hzero : keptLen space = 0 := by
      have hkept := keptLen_eq space
      omega
    rw [hzero]
    exact iff_of_true (Or.inl hone) ⟨Nat.zero_le _, List.nil_prefix⟩
  rw [or_iff_right hone]
  by_cases htells : GrossTells c
  · have htaken : takenData c cs = c.data ++ codedBytes cs := by
      rw [takenData, ← htells, codedBytes_cons, CodedField.bytes, List.append_assoc, List.drop_left]
    rw [htaken]
    constructor
    · rintro (⟨-, hle⟩ | ⟨hnot, -⟩)
      · rw [List.length_append, List.take_append_of_le_length hle]
        exact ⟨by omega, List.take_prefix _ _⟩
      · exact absurd htells hnot
    · rintro ⟨hle, hpre⟩
      have hlen := hpre.length_le
      rw [List.length_take, Nat.min_eq_left hle] at hlen
      exact Or.inl ⟨htells, hlen⟩
  · rw [or_iff_right fun h => htells h.1, and_iff_right htells]

/-- The last field is cut right where its data is taken from its own data. -/
theorem cutField_keeps {H : List UInt8} {i : ℕ} (hfields : t.fields = ds ++ c :: cs)
    (hH : H.length = 5) (hi : (codedBytes ds).length + 5 = i) (hle : i ≤ maxLen)
    (hover : maxLen < i + c.gross) (hmin : 259 ≤ maxLen) (hmax : maxLen < 2 ^ 32) :
    CutMeets t maxLen (cutField (H ++ codedBytes t.fields) maxLen i c.gross) ↔
      KeepsData (maxLen - i) c cs := by
  obtain ⟨space, hspace⟩ := Nat.exists_eq_add_of_le hle
  have hkept := keptLen_eq space
  have hbytes : codedBytes t.fields = codedBytes ds ++ codedBytes (c :: cs) := by
    rw [hfields, codedBytes_append]
  have hrest : c.gross ≤ (codedBytes (c :: cs)).length := by
    rw [codedBytes_cons, List.length_append, c.length_bytes]
    exact Nat.le_add_right ..
  have hsub : maxLen - i = space := by omega
  rw [hbytes, hsub]
  by_cases hzero : space = 0
  · subst hzero
    have hwhole := cutField_whole (a := codedBytes ds) (r := codedBytes (c :: cs)) (l := c.gross) hH
      (show (codedBytes ds).length + 5 = maxLen by omega) hmin hmax
    refine iff_of_true ?_ (Or.inl (Nat.zero_le _))
    rw [show i = maxLen by omega, hwhole]
    exact cutMeets_fields hfields (by omega) hmax
  by_cases hlong : 259 ≤ space
  · have hcode := length_of_long c.lenCode (by rw [← CodedField.gross]; omega)
    have hgross : c.gross = c.code.length + c.data.length := rfl
    obtain ⟨d, d', hdata, hd⟩ := exists_append c.data (show space - 5 ≤ c.data.length by omega)
    have hcut := cutField_long (a := codedBytes ds) (e := c.code) (d := d)
      (r := d' ++ codedBytes cs) (l := c.gross) hH hi hcode
      (show i + 5 + d.length = maxLen by omega) (by omega) hmax
    have hlenlen := vaLenLen_le d.length
    refine iff_of_true ?_ (Or.inr (Or.inl hlong))
    rw [codedBytes_cons, CodedField.bytes, hdata, List.append_assoc, List.append_assoc, hcut,
      cutMeets_cut hfields (by rw [length_encVa]; omega) hmax]
    exact ⟨d', hdata.symm⟩
  rw [keepsData_iff hlong, takenData]
  generalize hm : keptLen space = m at hkept
  generalize hrest' : codedBytes (c :: cs) = b at hrest
  obtain ⟨x, z, rfl⟩ : ∃ x z, b = x :: z := List.exists_cons_of_length_pos (by omega)
  rw [List.length_cons] at hrest
  have hfits (d : List UInt8) (hd : d.length = m) :
      (codedBytes ds).length + (encVa d).length + 5 ≤ maxLen := by
    rw [length_encVa, vaLenLen, if_pos ((byteLenTest_iff _).mpr (show d.length < 0xFE by omega))]
    omega
  by_cases hl : byteLenTest c.gross = true
  · obtain ⟨d, r, rfl, hd⟩ := exists_append z (show m ≤ z.length by omega)
    have hcut := cutField_short (x := x) (r := r) (d := d) hH hi hspace.symm
      (Nat.pos_of_ne_zero hzero) (by omega) hmin hmax hl (by omega)
    rw [if_pos hl, List.drop_one, List.tail_cons, ← hd, List.take_left, hcut,
      cutMeets_cut hfields (hfits d hd) hmax, List.length_append]
    exact (and_iff_right (Nat.le_add_right ..)).symm
  · have hge : ¬ c.gross < 0xFE := fun h => hl ((byteLenTest_iff _).mpr h)
    obtain ⟨e, z, rfl, he⟩ := exists_append z (show 4 ≤ z.length by omega)
    have hdrop : (x :: (e ++ z)).drop 5 = z := by
      rw [List.drop_succ_cons, ← he, List.drop_left]
    rw [if_neg hl, hdrop]
    by_cases hz : m ≤ z.length
    · obtain ⟨d, r, rfl, hd⟩ := exists_append z hz
      obtain ⟨r', hcut⟩ := cutField_moved (x := x) (r := r) (d := d) hH hi he hspace.symm
        (Nat.pos_of_ne_zero hzero) (by omega) hmin hmax hl (by omega)
      rw [← hd, List.take_left, hcut, cutMeets_cut hfields (hfits d hd) hmax, List.length_append]
      exact (and_iff_right (Nat.le_add_right ..)).symm
    · have hcut := cutField_none (x := x) (z := e ++ z) hH hi hspace.symm
        (Nat.pos_of_ne_zero hzero) (by omega) hmin hmax hl hm
        (by rw [List.length_append]; omega)
      rw [hcut]
      exact iff_of_false not_cutMeets_none fun hkeeps => hz hkeeps.1

/-! ## The loop -/

section Loop

variable {H : List UInt8} {i l fuel : ℕ}

theorem next_field (hfields : t.fields = ds ++ c :: cs) (hi : (codedBytes ds).length + 5 = i) :
    t.fields = ds ++ [c] ++ cs ∧ (codedBytes (ds ++ [c])).length + 5 = i + c.gross := by
  rw [codedBytes_append, codedBytes_cons, codedBytes_nil, List.append_nil, List.length_append,
    c.length_bytes, hfields, List.append_assoc, List.singleton_append]
  exact ⟨rfl, by omega⟩

theorem lastField_cons (hfields : t.fields = ds ++ c :: cs) (hH : H.length = 5)
    (hi : (codedBytes ds).length + 5 = i) :
    lastField (H ++ codedBytes t.fields) ((codedBytes t.fields).length + 4) maxLen (fuel + 1) i l =
      if i > indexSub maxLen c.gross then (i, c.gross)
      else lastField (H ++ codedBytes t.fields) ((codedBytes t.fields).length + 4) maxLen fuel
        (i + c.gross) c.gross := by
  have hfits := t.fits
  have hpos := c.gross_pos
  have hbytes : codedBytes t.fields = codedBytes ds ++ (c.bytes ++ codedBytes cs) := by
    rw [hfields, codedBytes_append, codedBytes_cons]
  have hlen := congrArg List.length hbytes
  rw [List.length_append, List.length_append, c.length_bytes] at hlen
  have hdrop : (H ++ codedBytes t.fields).drop i = c.bytes ++ codedBytes cs := by
    have hat : (H ++ codedBytes ds).length = i := by
      rw [List.length_append]
      omega
    rw [hbytes, ← List.append_assoc, ← hat, List.drop_left]
  rw [lastField, if_pos (by omega), hdrop, c.grosslen]
  dsimp only
  rw [Nat.mod_eq_of_lt (by omega)]

theorem lastField_nil (hi : (codedBytes t.fields).length + 5 = i) :
    lastField (H ++ codedBytes t.fields) ((codedBytes t.fields).length + 4) maxLen (fuel + 1) i l =
      (i, l) := by
  rw [lastField, if_neg (by omega)]

/-- Behind the limit the loop passes the fields that are longer than the limit. -/
theorem lastField_past (hfields : t.fields = ds ++ cs) (hH : H.length = 5)
    (hi : (codedBytes ds).length + 5 = i) (hpast : maxLen < i)
    (hfuel : (codedBytes cs).length < fuel) :
    ∃ i' l', lastField (H ++ codedBytes t.fields) ((codedBytes t.fields).length + 4) maxLen fuel
        i l = (i', l') ∧ maxLen < i' ∧ i' < 2 ^ 32 ∧
      (RoomBehind maxLen cs ↔ i' ≤ (codedBytes t.fields).length) := by
  have hfits := t.fits
  induction cs generalizing ds i l fuel with
  | nil =>
      obtain ⟨fuel, rfl⟩ : ∃ k, fuel = k + 1 := Nat.exists_eq_add_one.mpr (by omega)
      rw [List.append_nil] at hfields
      rw [← hfields] at hi
      exact ⟨i, l, lastField_nil hi, hpast, by omega, iff_of_false id (by omega)⟩
  | cons c cs ih =>
      obtain ⟨fuel, rfl⟩ : ∃ k, fuel = k + 1 := Nat.exists_eq_add_one.mpr (by omega)
      have hpos := c.gross_pos
      have hlen := congrArg (fun fs => (codedBytes fs).length) hfields
      simp only [codedBytes_append, codedBytes_cons, List.length_append,
        c.length_bytes] at hlen hfuel
      rw [lastField_cons hfields hH hi, RoomBehind]
      by_cases hgross : c.gross ≤ maxLen
      · rw [indexSub_of_le hgross (by omega), if_pos (by omega), if_pos hgross]
        refine ⟨i, c.gross, rfl, hpast, by omega, ?_⟩
        rw [codedBytes_cons, List.length_append, c.length_bytes]
        omega
      · have hwraps : ¬ i > indexSub maxLen c.gross := by
          rw [indexSub, Nat.mod_eq_of_lt (by omega)]
          omega
        rw [if_neg hwraps, if_neg hgross]
        obtain ⟨hfields', hi'⟩ := next_field hfields hi
        exact ih hfields' hi' (by omega) (by omega)

theorem cutMeets_take {k : ℕ} (hfields : t.fields = ds ++ c :: cs)
    (hk : (codedBytes ds).length + k + 5 = maxLen) (hlt : k < c.gross) (hmax : maxLen < 2 ^ 32) :
    CutMeets t maxLen (some (encVa ((codedBytes t.fields).take (maxLen - 5)) ++ r)) ↔ k = 0 := by
  have hbytes : codedBytes t.fields = codedBytes ds ++ (c.bytes ++ codedBytes cs) := by
    rw [hfields, codedBytes_append, codedBytes_cons]
  obtain ⟨s, e, hse, hs⟩ := exists_append c.bytes (n := k) (by rw [c.length_bytes]; omega)
  have htake : (codedBytes t.fields).take (maxLen - 5) = codedBytes ds ++ s := by
    have hlen : (codedBytes ds ++ s).length = maxLen - 5 := by
      rw [List.length_append]
      omega
    rw [hbytes, hse, List.append_assoc, ← List.append_assoc, ← hlen, List.take_left]
  rw [htake]
  constructor
  · intro hmeets
    by_contra hne
    refine not_cutMeets_incomplete (show s ++ e = c.bytes ++ [] by rw [List.append_nil, hse])
      (List.ne_nil_of_length_pos (by omega)) (by omega) ?_ hmeets
    · rw [List.length_append]
      omega
  · rintro rfl
    rw [List.length_eq_zero_iff.mp hs, List.append_nil]
    exact cutMeets_fields hfields (by omega) hmax

/-- From a position within the limit on, the fields decide what the code does. -/
theorem cutMeets_lastField (hfields : t.fields = ds ++ cs) (hH : H.length = 5)
    (hi : (codedBytes ds).length + 5 = i) (hle : i ≤ maxLen) (hmin : 259 ≤ maxLen)
    (hmax : maxLen < 2 ^ 32) (hover : maxLen < (codedBytes t.fields).length + 5)
    (hfuel : (codedBytes cs).length < fuel) :
    CutMeets t maxLen (cutField (H ++ codedBytes t.fields) maxLen
      (lastField (H ++ codedBytes t.fields) ((codedBytes t.fields).length + 4) maxLen fuel i l).1
      (lastField (H ++ codedBytes t.fields) ((codedBytes t.fields).length + 4) maxLen fuel i l).2) ↔
        CutsRight maxLen i cs := by
  have hfits := t.fits
  induction cs generalizing ds i l fuel with
  | nil =>
      rw [List.append_nil] at hfields
      rw [hfields] at hover
      omega
  | cons c cs ih =>
      obtain ⟨fuel, rfl⟩ : ∃ k, fuel = k + 1 := Nat.exists_eq_add_one.mpr (by omega)
      obtain ⟨hfields', hi'⟩ := next_field hfields hi
      have hpos := c.gross_pos
      rw [codedBytes_cons, List.length_append, c.length_bytes] at hfuel
      rw [lastField_cons hfields hH hi, CutsRight]
      by_cases hgross : c.gross ≤ maxLen
      · rw [indexSub_of_le hgross hmax, if_pos hgross]
        by_cases hin : i + c.gross ≤ maxLen
        · rw [if_neg (by omega), if_pos hin]
          exact ih hfields' hi' hin (by omega)
        · rw [if_pos (by omega), if_neg hin]
          exact cutField_keeps hfields hH hi hle (by omega) hmin hmax
      · have hlen := congrArg (fun fs => (codedBytes fs).length) hfields
        simp only [codedBytes_append, codedBytes_cons, List.length_append, c.length_bytes] at hlen
        have hwraps : ¬ i > indexSub maxLen c.gross := by
          rw [indexSub, Nat.mod_eq_of_lt (by omega)]
          omega
        rw [if_neg hwraps, if_neg hgross]
        obtain ⟨i', l', hlast, hpast, hlt, hroom⟩ := lastField_past (l := c.gross) hfields' hH hi'
          (show maxLen < i + c.gross by omega) (show (codedBytes cs).length < fuel by omega)
        rw [hlast, hroom]
        by_cases hin : i' ≤ (codedBytes t.fields).length
        · obtain ⟨r', hcut⟩ := cutField_past (l := l') hH hpast hin hfits hmin
          rw [hcut, cutMeets_take (k := maxLen - i) hfields (by omega) (by omega) hmax,
            and_iff_left hin]
          omega
        · rw [cutField_past_none hH hpast (by omega) hlt hmin]
          exact iff_of_false not_cutMeets_none fun hright => hin hright.2

end Loop

/-! ## The function -/

/-- `vtpl_truncate` cuts a v-tuple right exactly if it is within the limit or the lengths of its
fields and of what is cut have the formats that the code takes them to have. -/
theorem truncateMeets_iff (t : CodedTuple) (maxLen : ℕ) (hmin : 259 ≤ maxLen)
    (hmax : maxLen < 2 ^ 32) :
    TruncateMeets t maxLen ↔ t.bytes.length ≤ maxLen ∨ CutsRight maxLen 5 t.fields := by
  have hfits := t.fits
  have hgross := t.length_bytes
  have hlast : t.code ++ codedBytes t.fields = t.bytes := rfl
  by_cases hover : t.bytes.length ≤ maxLen
  · have hsame : vtplTruncate t.bytes maxLen = some t.bytes := by
      rw [vtplTruncate]
      rcases t.lenCode.byte_or_fourByte (codedBytes t.fields) with
        ⟨hcode, hlt⟩ | ⟨hfive, htest, hnet⟩
      · have hhead : byteLenTest (t.bytes.headD 0).toNat = true := by
          rw [CodedTuple.bytes, hcode, byteLenTest_iff]
          change (codedBytes t.fields).length % 256 < 0xFE
          omega
        rw [if_pos hhead]
      · rw [hlast] at htest hnet
        dsimp only
        rw [htest, hnet, if_neg Bool.false_ne_true, if_pos (by omega)]
    refine iff_of_true ⟨⟨t, [], ?_, hover, Or.inl List.prefix_rfl⟩, fun _ => hsame⟩ (Or.inl hover)
    rw [hsame, List.append_nil]
  · have hfive := length_of_long t.lenCode (by omega)
    obtain ⟨-, htest, hnet⟩ : t.code.length = 5 ∧ _ :=
      (t.lenCode.byte_or_fourByte (codedBytes t.fields)).resolve_left (fun hbyte => by
        rw [hbyte.1] at hfive
        cases hfive)
    rw [hlast] at htest hnet
    have hcut := cutMeets_lastField (l := 0) (show t.fields = [] ++ t.fields from rfl) hfive
      (show (codedBytes []).length + 5 = 5 from rfl) (by omega) hmin hmax (by omega)
      (show (codedBytes t.fields).length < (codedBytes t.fields).length + 4 + 1 by omega)
    rw [hlast] at hcut
    have hrun : vtplTruncate t.bytes maxLen = cutField t.bytes maxLen
        (lastField t.bytes ((codedBytes t.fields).length + 4) maxLen
          ((codedBytes t.fields).length + 4 + 1) 5 0).1
        (lastField t.bytes ((codedBytes t.fields).length + 4) maxLen
          ((codedBytes t.fields).length + 4 + 1) 5 0).2 := by
      rw [vtplTruncate]
      dsimp only
      rw [htest, hnet, if_neg Bool.false_ne_true, if_neg (by omega)]
    rw [or_iff_right hover, ← hcut, ← hrun]
    exact and_iff_left fun hle => absurd hle hover

/-! ## A field at the edge of its formats -/

def countingBytes (n : ℕ) : List UInt8 := (List.range n).map UInt8.ofNat

theorem length_countingBytes (n : ℕ) : (countingBytes n).length = n := by
  rw [countingBytes, List.length_map, List.length_range]

/-- A field of three bytes and a field of `n` bytes. -/
def countingFields (n : ℕ) (hn : n ≤ 300) : List CodedField :=
  [.ofData (countingBytes 3) (by decide),
    .ofData (countingBytes n) (by rw [length_countingBytes]; omega)]

def countingTuple (n : ℕ) (hn : n ≤ 300) : CodedTuple :=
  .ofFields (countingFields n hn) (by
    have hle := vaLenLen_le n
    simp only [countingFields, codedBytes_cons, codedBytes_nil, List.append_nil, List.length_append,
      CodedField.length_bytes, CodedField.gross, CodedField.ofData, length_vaSetLen,
      length_countingBytes]
    have hle' := vaLenLen_le 3
    omega)

/-- A field of 250 bytes is cut by one byte. -/
theorem truncateMeets_250 : TruncateMeets (countingTuple 250 (by decide)) 259 :=
  (truncateMeets_iff (countingTuple 250 (by decide)) 259 le_rfl (by decide)).mpr
    (Or.inr (by
      change CutsRight 259 5 (countingFields 250 (by decide))
      rw [countingFields, CutsRight, if_pos (by decide +kernel), if_pos (by decide +kernel),
        CutsRight, if_pos (by decide +kernel), if_neg (by decide +kernel)]
      decide +kernel))

/-- Of a field of 253 bytes, its gross length 254, four bytes are lost in front. -/
theorem not_truncateMeets_253 :
    ¬ ∀ (t : CodedTuple) (maxLen : ℕ), 259 ≤ maxLen → maxLen < 2 ^ 32 → TruncateMeets t maxLen := by
  intro hmeets
  have hcut := (hmeets (countingTuple 253 (by decide)) 259 le_rfl (by decide)).1
  have hrun : vtplTruncate (countingTuple 253 (by decide)).bytes 259 =
      some (encVa (codedBytes [.ofData (countingBytes 3) (by decide)] ++
        encVa ((countingBytes 253).drop 4)) ++ [249, 250, 251, 252]) := by decide +kernel
  have hfields : (countingTuple 253 (by decide)).fields =
      [.ofData (countingBytes 3) (by decide)] ++
        [.ofData (countingBytes 253) (by rw [length_countingBytes]; decide)] := rfl
  rw [hrun, cutMeets_cut hfields (by decide +kernel) (by decide)] at hcut
  revert hcut
  decide +kernel

end SolidDB.VtplTruncate
