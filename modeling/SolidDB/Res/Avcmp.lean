import Mathlib.Data.List.DropRight
import SolidDB.Ss.UtfConvert
import SolidDB.Uti.VtplCompare
import SolidDB.Foundation.LexDecision

/-!
# Comparing character values

The comparison of character values in `rs1avcmp.c`: 8-bit and Unicode values, of fixed and
varying types, complete or as a blob reference behind a beginning of the content. Values
are not NULL and have no collation.
-/

namespace SolidDB

section

inductive RsSqldatatype where
  | char | varchar | longvarchar | wchar | wvarchar | wlongvarchar
  deriving DecidableEq, Repr

inductive RsDatatype where
  | char | unicode
  deriving DecidableEq, Repr

def RsSqldatatype.datatype : RsSqldatatype → RsDatatype
  | .char | .varchar | .longvarchar => .char
  | .wchar | .wvarchar | .wlongvarchar => .unicode

/-- `E_CMPFAILEDDUETOBLOB`, the error with which these comparisons fail. -/
inductive RsErr where
  | cmpfailedduetoblob
  deriving DecidableEq, Repr

def rsVablobrefSize : ℕ := 4 + 4 + 4 + 1

/-- `RS_VABLOBG2REF_SIZE`, the size of the references of the newer blobs. -/
def rsVablobg2refSize : ℕ := 8 + 8 + 1

def vaTestblob (va : List UInt8) : Bool := va.headD 0 = 0xFF

def ssChar2Load (p : List UInt8) : ℕ := ssChar2LoadMsb1st (p.headD 0, p.tail.headD 0)

def trimLen1 (p : List UInt8) : ℕ → ℕ
  | 0 => 0
  | len + 1 => if (p.getD len 0).toNat = 32 then trimLen1 p len else len + 1

def trimLen2 (p : List UInt8) : ℕ → ℕ
  | 0 => 0
  | len + 1 => if ssChar2Load (p.drop (2 * len)) = 32 then trimLen2 p len else len + 1

/-- `aval_cmp_char1v2_vabuf`, and the same loop in `chr_v_uni` and `va_compare_char1v2`. -/
def avalCmpChar1v2Vabuf : List UInt8 → List UInt8 → ℕ → ℤ
  | _, _, 0 => 0
  | buf1, buf2, n + 1 =>
      let diff : ℤ := ((buf1.headD 0).toNat : ℤ) - ssChar2Load buf2
      if diff ≠ 0 then diff else avalCmpChar1v2Vabuf buf1.tail (buf2.drop 2) n

def vaCompareChar1v2 (va1 va2 : List UInt8) : ℤ :=
  let (data1, len1) := vaGetdata va1
  let (data2, len2) := vaGetdata va2
  if len1 = 0 ∨ len2 = 0 then
    toInt32 ((len1 : ℤ) - len2)
  else
    let len2 := len2 / 2
    let len1 := len1 - 1
    let comp := avalCmpChar1v2Vabuf data1 data2 (min len1 len2)
    if comp ≠ 0 then comp else toInt32 ((len1 : ℤ) - len2)

def avalVacmpBlob (v1 v2 : List UInt8) (v1Isblob v2Isblob : Bool) : Except RsErr ℤ :=
  let (p1, len1) := vaGetdata v1
  let (p2, len2) := vaGetdata v2
  if v1Isblob then
    let len1 := len1 - rsVablobrefSize
    let len2 := if v2Isblob then len2 - rsVablobrefSize else len2 - 1
    let cmplen := min len1 len2
    let comp := ssMemcmp p1 p2 cmplen
    if comp ≠ 0 then .ok comp
    else if !v2Isblob ∧ cmplen = len2 then .ok 1
    else .error .cmpfailedduetoblob
  else
    let len2 := len2 - rsVablobrefSize
    let len1 := len1 - 1
    let cmplen := min len1 len2
    let comp := ssMemcmp p1 p2 cmplen
    if comp ≠ 0 then .ok comp
    else if cmplen = len1 then .ok (-1)
    else .error .cmpfailedduetoblob

def chrVChr (sqldt1 : RsSqldatatype) (v1 : List UInt8) (sqldt2 : RsSqldatatype)
    (v2 : List UInt8) : Except RsErr ℤ :=
  if vaTestblob v1 || vaTestblob v2 then
    avalVacmpBlob v1 v2 (vaTestblob v1) (vaTestblob v2)
  else if sqldt1 = .char ∨ sqldt2 = .char then
    let (p1, len1) := vaGetdata v1
    let (p2, len2) := vaGetdata v2
    let len1 := trimLen1 p1 (len1 - 1)
    let len2 := trimLen1 p2 (len2 - 1)
    let cmplen := min len1 len2
    let comp := if cmplen ≠ 0 then ssMemcmp p1 p2 cmplen else 0
    .ok (if comp = 0 then toInt32 ((len1 : ℤ) - len2) else comp)
  else
    .ok (vaCompare v1 v2)

/-- `aval_vacmp_blob_chr_v_uni`; where the 8-bit value is complete, the length of the Unicode
value stays a number of bytes. -/
def avalVacmpBlobChrVUni (v1 v2 : List UInt8) (v1Isblob v2Isblob : Bool) : Except RsErr ℤ :=
  let (p1, len1) := vaGetdata v1
  let (p2, len2) := vaGetdata v2
  if v1Isblob then
    let len1 := len1 - rsVablobrefSize
    let len2 := if v2Isblob then len2 - rsVablobrefSize else len2
    let len2 := len2 / 2
    let cmplen := min len1 len2
    let comp := avalCmpChar1v2Vabuf p1 p2 cmplen
    if comp ≠ 0 then .ok comp
    else if !v2Isblob ∧ cmplen = len2 then .ok 1
    else .error .cmpfailedduetoblob
  else
    let len2 := len2 - rsVablobrefSize
    let len1 := len1 - 1
    let cmplen := min len1 len2
    let comp := avalCmpChar1v2Vabuf p1 p2 cmplen
    if comp ≠ 0 then .ok comp
    else if cmplen = len1 then .ok (-1)
    else .error .cmpfailedduetoblob

def chrVUni (sqldt1 : RsSqldatatype) (v1 : List UInt8) (sqldt2 : RsSqldatatype)
    (v2 : List UInt8) : Except RsErr ℤ :=
  if vaTestblob v1 || vaTestblob v2 then
    avalVacmpBlobChrVUni v1 v2 (vaTestblob v1) (vaTestblob v2)
  else if sqldt1 = .char ∨ sqldt2 = .wchar then
    let (p1, len1) := vaGetdata v1
    let (p2, len2) := vaGetdata v2
    let len1 := trimLen1 p1 (len1 - 1)
    let len2 := trimLen2 p2 (len2 / 2)
    let comp := avalCmpChar1v2Vabuf p1 p2 (min len1 len2)
    .ok (if comp ≠ 0 then comp else toInt32 ((len1 : ℤ) - len2))
  else
    .ok (vaCompareChar1v2 v1 v2)

def uniVUni (sqldt1 : RsSqldatatype) (v1 : List UInt8) (sqldt2 : RsSqldatatype)
    (v2 : List UInt8) : Except RsErr ℤ :=
  if vaTestblob v1 || vaTestblob v2 then
    avalVacmpBlob v1 v2 (vaTestblob v1) (vaTestblob v2)
  else if sqldt1 = .wchar ∨ sqldt2 = .wchar then
    let (p1, len1) := vaGetdata v1
    let (p2, len2) := vaGetdata v2
    let len1 := trimLen2 p1 (len1 / 2)
    let len2 := trimLen2 p2 (len2 / 2)
    let comp := ssMemcmp p1 p2 (min len1 len2 * 2)
    .ok (if comp = 0 then toInt32 ((len1 : ℤ) - len2) else comp)
  else
    .ok (vaCompare v1 v2)

/-- `rs_aval_cmp3` of two character values. -/
def rsAvalCmp3 (sqldt1 : RsSqldatatype) (v1 : List UInt8) (sqldt2 : RsSqldatatype)
    (v2 : List UInt8) : Except RsErr ℤ :=
  match sqldt1.datatype, sqldt2.datatype with
  | .char, .char => chrVChr sqldt1 v1 sqldt2 v2
  | .char, .unicode => chrVUni sqldt1 v1 sqldt2 v2
  | .unicode, .char => (chrVUni sqldt2 v2 sqldt1 v1).map fun comp => toInt32 (-comp)
  | .unicode, .unicode => uniVUni sqldt1 v1 sqldt2 v2

end

/-!
## What is compared of two character values

A character value is its complete content, and how it is stored: with the whole content, or
with a beginning of it and a blob reference. The loops of `rs1avcmp.c` look for the first
difference of two strings of character codes or bytes.
-/

section

open LexDecision

/-! ## Character values -/

/-- How a content is stored: complete, or as a beginning of it and a reference. -/
inductive CharStore (full : List UInt8) where
  | complete (len : List UInt8) (hlen : LenCode len (full.length + 1))
      (hmark : len.headD 0 ≠ 0xFF)
  | blobref (carried ref : List UInt8) (hcarried : carried <+: full)
      (hlt : carried.length < full.length)
      (href : ref.length = rsVablobrefSize ∨ ref.length = rsVablobg2refSize)
      (hfit : carried.length + ref.length < 2 ^ 32)

/-- A character value that is not NULL, with the bytes of its content and what stands behind
it in memory. -/
structure CharValue where
  sqldt : RsSqldatatype
  full : List UInt8
  even : sqldt.datatype = .unicode → full.length % 2 = 0
  store : CharStore full
  behind : List UInt8

def byteCodes (b : List UInt8) : List ℕ := b.map UInt8.toNat

def charsAt : List UInt8 → ℕ → List ℕ
  | _, 0 => []
  | p, n + 1 => ssChar2Load p :: charsAt (p.drop 2) n

namespace CharValue

variable (v w : CharValue)

def va : List UInt8 :=
  match v.store with
  | .complete len _ _ => len ++ (v.full ++ 0 :: v.behind)
  | .blobref carried ref _ _ _ _ =>
      0xFF :: (setFourByteLen (carried.length + ref.length)).tail ++ (carried ++ (ref ++ v.behind))

def isWhole : Bool :=
  match v.store with
  | .complete .. => true
  | .blobref .. => false

def data : List UInt8 :=
  match v.store with
  | .complete .. => v.full ++ 0 :: v.behind
  | .blobref carried ref _ _ _ _ => carried ++ (ref ++ v.behind)

def shownLen : ℕ :=
  match v.store with
  | .complete .. => v.full.length
  | .blobref carried ref _ _ _ _ => carried.length + ref.length - rsVablobrefSize

def shown : List UInt8 := v.data.take v.shownLen

def content : List ℕ :=
  match v.sqldt.datatype with
  | .char => byteCodes v.full
  | .unicode => charsAt v.full (v.full.length / 2)

def fixed : Bool :=
  v.sqldt = .char ∨ v.sqldt = .wchar ∨ w.sqldt = .char ∨ w.sqldt = .wchar

/-- The content without the trailing spaces, where one of the types is fixed. -/
def compared : List ℕ :=
  if v.fixed w then v.content.rdropWhile (· = 32) else v.content

def refOrder : Ordering := lexOrder (v.compared w) (w.compared v)

end CharValue

/-! ## Strings of codes -/

@[simp] theorem length_byteCodes (b : List UInt8) : (byteCodes b).length = b.length :=
  List.length_map _

theorem byteCodes_append (b c : List UInt8) : byteCodes (b ++ c) = byteCodes b ++ byteCodes c :=
  List.map_append

theorem byteCodes_take (b : List UInt8) (n : ℕ) : byteCodes (b.take n) = (byteCodes b).take n :=
  List.map_take

@[simp] theorem length_charsAt (p : List UInt8) (n : ℕ) : (charsAt p n).length = n := by
  induction n generalizing p with
  | zero => rfl
  | succ n ih => rw [charsAt, List.length_cons, ih]

theorem charsAt_add (p : List UInt8) (m n : ℕ) :
    charsAt p (m + n) = charsAt p m ++ charsAt (p.drop (2 * m)) n := by
  induction m generalizing p with
  | zero => rw [Nat.zero_add, Nat.mul_zero, List.drop_zero, charsAt, List.nil_append]
  | succ m ih =>
      rw [Nat.add_right_comm, charsAt, ih, charsAt, List.cons_append, List.drop_drop,
        Nat.mul_succ, Nat.add_comm 2]

theorem charsAt_take (p : List UInt8) (m n : ℕ) :
    (charsAt p n).take m = charsAt p (min m n) := by
  rcases Nat.le_total m n with h | h
  · obtain ⟨k, rfl⟩ := Nat.exists_eq_add_of_le h
    rw [charsAt_add, List.take_left' (length_charsAt p m), Nat.min_eq_left h]
  · rw [List.take_of_length_le (by rwa [length_charsAt]), Nat.min_eq_right h]

theorem charsAt_append (b r : List UInt8) {n : ℕ} (h : 2 * n ≤ b.length) :
    charsAt (b ++ r) n = charsAt b n := by
  induction n generalizing b with
  | zero => rfl
  | succ n ih =>
      match b, h with
      | x :: y :: b, h =>
          have hn : 2 * n ≤ b.length := by
            simp only [List.length_cons] at h
            omega
          have hdrop : (x :: y :: b ++ r).drop 2 = b ++ r := rfl
          rw [charsAt, charsAt, hdrop, ih b hn]
          rfl

theorem ssChar2Load_eq (p : List UInt8) :
    ssChar2Load p = (p.headD 0).toNat * 256 + (p.tail.headD 0).toNat := by
  rw [ssChar2Load, ssChar2LoadMsb1st_eq]

theorem lexOrder_charsAt (b c : List UInt8) (hb : b.length % 2 = 0) (hc : c.length % 2 = 0) :
    lexOrder (charsAt b (b.length / 2)) (charsAt c (c.length / 2)) =
      lexOrder (byteCodes b) (byteCodes c) := by
  induction hn : b.length / 2 generalizing b c with
  | zero =>
      have hnil : b = [] := List.length_eq_zero_iff.mp (by omega)
      subst hnil
      match c, hc with
      | [], _ => rfl
      | x :: y :: c, _ =>
          have hlen : (x :: y :: c).length / 2 = c.length / 2 + 1 := by
            simp only [List.length_cons]
            omega
          rw [hlen]
          rfl
  | succ n ih =>
      match b, hb, hn with
      | x :: y :: b, hb, hn =>
          simp only [List.length_cons] at hb hn
          match c, hc with
          | [], _ => rfl
          | x' :: y' :: c, hc =>
              simp only [List.length_cons] at hc
              have hlen : (x' :: y' :: c).length / 2 = c.length / 2 + 1 := by
                simp only [List.length_cons]
                omega
              have hrest := ih b c (by omega) (by omega) (by omega)
              have hx := x.toNat_lt
              have hy := y.toNat_lt
              have hx' := x'.toNat_lt
              have hy' := y'.toNat_lt
              have hload : ssChar2Load (x :: y :: b) = x.toNat * 256 + y.toNat := ssChar2Load_eq _
              have hload' : ssChar2Load (x' :: y' :: c) = x'.toNat * 256 + y'.toNat :=
                ssChar2Load_eq _
              have hcodes : byteCodes (x :: y :: b) = x.toNat :: y.toNat :: byteCodes b := rfl
              have hcodes' : byteCodes (x' :: y' :: c) = x'.toNat :: y'.toNat :: byteCodes c := rfl
              rw [hlen, charsAt, charsAt, lexOrder_cons_cons, hload, hload', List.drop_succ_cons,
                List.drop_succ_cons, List.drop_zero, List.drop_succ_cons, List.drop_succ_cons,
                List.drop_zero, hrest, hcodes, hcodes', lexOrder_cons_cons, lexOrder_cons_cons,
                ← Ordering.then_assoc]
              congr 1
              rcases lt_trichotomy x.toNat x'.toNat with h | h | h
              · rw [(cmp_eq_lt_iff _ _).mpr h, (cmp_eq_lt_iff _ _).mpr (by omega)]
                rfl
              · rw [h, cmp_self_eq_eq]
                rcases lt_trichotomy y.toNat y'.toNat with h | h | h
                · rw [(cmp_eq_lt_iff _ _).mpr h, (cmp_eq_lt_iff _ _).mpr (by omega)]
                  rfl
                · rw [h, cmp_self_eq_eq, cmp_self_eq_eq]
                  rfl
                · rw [(cmp_eq_gt_iff _ _).mpr h, (cmp_eq_gt_iff _ _).mpr (by omega)]
                  rfl
              · rw [(cmp_eq_gt_iff _ _).mpr h, (cmp_eq_gt_iff _ _).mpr (by omega)]
                rfl

/-! ## The loops -/

theorem ssMemcmp_eq (b c : List UInt8) {n : ℕ} (hb : n ≤ b.length) (hc : n ≤ c.length) :
    ssMemcmp b c n = firstDiff (byteCodes (b.take n)) (byteCodes (c.take n)) := by
  induction n generalizing b c with
  | zero => rfl
  | succ n ih =>
      match b, c, hb, hc with
      | x :: b, y :: c, hb, hc =>
          rw [ssMemcmp_cons_cons, ih b c (Nat.le_of_succ_le_succ hb) (Nat.le_of_succ_le_succ hc)]
          rfl

theorem avalCmpChar1v2Vabuf_eq (b c : List UInt8) {n : ℕ} (hb : n ≤ b.length) :
    avalCmpChar1v2Vabuf b c n = firstDiff (byteCodes (b.take n)) (charsAt c n) := by
  induction n generalizing b c with
  | zero => rfl
  | succ n ih =>
      match b, hb with
      | x :: b, hb =>
          have hrest := ih b (c.drop 2) (Nat.le_of_succ_le_succ hb)
          rw [avalCmpChar1v2Vabuf, List.tail_cons, hrest]
          rfl

theorem charsAt_succ (p : List UInt8) (n : ℕ) :
    charsAt p (n + 1) = charsAt p n ++ [ssChar2Load (p.drop (2 * n))] := charsAt_add p n 1

theorem trimLen1_spec (p : List UInt8) {n : ℕ} (h : n ≤ p.length) :
    trimLen1 p n ≤ n ∧
      byteCodes (p.take (trimLen1 p n)) = (byteCodes (p.take n)).rdropWhile (· = 32) := by
  induction n with
  | zero => exact ⟨le_rfl, rfl⟩
  | succ n ih =>
      obtain ⟨hle, heq⟩ := ih (by omega)
      have hget : p.getD n 0 = p[n] := List.getD_eq_getElem _ _ (by omega)
      have hsucc : byteCodes (p.take (n + 1)) = byteCodes (p.take n) ++ [p[n].toNat] := by
        rw [← List.take_concat_get' p n (by omega), byteCodes_append]
        rfl
      rw [trimLen1, hget, hsucc]
      by_cases hsp : p[n].toNat = 32
      · rw [if_pos hsp, List.rdropWhile_concat_pos _ _ _ (by simpa using hsp)]
        exact ⟨by omega, heq⟩
      · rw [if_neg hsp, List.rdropWhile_concat_neg _ _ _ (by simpa using hsp), hsucc]
        exact ⟨le_rfl, rfl⟩

theorem trimLen2_spec (p : List UInt8) (n : ℕ) :
    trimLen2 p n ≤ n ∧ charsAt p (trimLen2 p n) = (charsAt p n).rdropWhile (· = 32) := by
  induction n with
  | zero => exact ⟨le_rfl, rfl⟩
  | succ n ih =>
      obtain ⟨hle, heq⟩ := ih
      rw [trimLen2, charsAt_succ]
      by_cases hsp : ssChar2Load (p.drop (2 * n)) = 32
      · rw [if_pos hsp, List.rdropWhile_concat_pos _ _ _ (by simpa using hsp)]
        exact ⟨by omega, heq⟩
      · rw [if_neg hsp, List.rdropWhile_concat_neg _ _ _ (by simpa using hsp), charsAt_succ]
        exact ⟨le_rfl, rfl⟩

end

end SolidDB
