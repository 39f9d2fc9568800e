import SolidDB.Foundation.BlockHeap
import SolidDB.Uti.VaCode

/-!
# Well-formed v-tuples

The fields of a v-tuple tile its data. Its own length and the lengths of its fields have one byte or
five: a short one may have the long format, as in fields that refer to blobs.
-/

namespace SolidDB

structure CodedField where
  code : List UInt8
  data : List UInt8
  lenCode : LenCode code data.length

namespace CodedField

def bytes (c : CodedField) : List UInt8 := c.code ++ c.data

/-- `VA_GROSS_LEN` of the field. -/
def gross (c : CodedField) : ℕ := c.code.length + c.data.length

/-- The field in the format that its length asks for. -/
def ofData (f : List UInt8) (hlt : f.length < 2 ^ 32) : CodedField :=
  ⟨vaSetLen f.length, f, lenCode_vaSetLen hlt⟩

end CodedField

def codedBytes (cs : List CodedField) : List UInt8 := cs.flatMap CodedField.bytes

structure CodedTuple where
  code : List UInt8
  fields : List CodedField
  lenCode : LenCode code (codedBytes fields).length
  fits : (codedBytes fields).length + 5 < 2 ^ 32

namespace CodedTuple

def bytes (t : CodedTuple) : List UInt8 := t.code ++ codedBytes t.fields

def values (t : CodedTuple) : Fields := t.fields.map CodedField.data

def ofFields (cs : List CodedField) (hfits : (codedBytes cs).length + 5 < 2 ^ 32) : CodedTuple :=
  ⟨vaSetLen (codedBytes cs).length, cs, lenCode_vaSetLen (by omega), hfits⟩

end CodedTuple

variable {c : CodedField} {cs ds : List CodedField} {b r s : List UInt8} {v w : Fields}

@[simp] theorem CodedField.length_bytes (c : CodedField) : c.bytes.length = c.gross :=
  List.length_append

@[simp] theorem codedBytes_nil : codedBytes [] = [] := rfl

@[simp] theorem codedBytes_cons (c : CodedField) (cs : List CodedField) :
    codedBytes (c :: cs) = c.bytes ++ codedBytes cs := rfl

@[simp] theorem codedBytes_append : codedBytes (cs ++ ds) = codedBytes cs ++ codedBytes ds :=
  List.flatMap_append

theorem CodedField.gross_pos (c : CodedField) : 0 < c.gross := by
  have hpos := c.lenCode.length_pos
  rw [gross]
  omega

theorem CodedField.grosslen (c : CodedField) (r : List UInt8) :
    vtplGrosslen (c.bytes ++ r) = c.gross := by
  rw [bytes, List.append_assoc, c.lenCode.grosslen, gross]

/-- Only an empty field has one byte, and there are empty fields that have five. -/
theorem CodedField.gross_eq_one_iff (c : CodedField) :
    c.gross = 1 ↔ c.data = [] ∧ c.code.length = 1 := by
  have hpos := c.lenCode.length_pos
  rw [gross, ← List.length_eq_zero_iff]
  omega

theorem CodedField.bytes_of_gross (hone : c.gross = 1) : c.bytes = [0] := by
  obtain ⟨code, data, hlen⟩ := c
  obtain ⟨rfl, hcode⟩ := (CodedField.gross_eq_one_iff _).mp hone
  cases hlen with
  | byte => rfl
  | fourByte => cases hcode

theorem CodedTuple.bytes_ofFields (hfits : (codedBytes cs).length + 5 < 2 ^ 32) :
    (CodedTuple.ofFields cs hfits).bytes = encVa (codedBytes cs) := rfl

theorem CodedTuple.length_bytes (t : CodedTuple) :
    t.bytes.length = t.code.length + (codedBytes t.fields).length := List.length_append

theorem fieldsCode_codedBytes (cs : List CodedField) :
    FieldsCode (codedBytes cs) (cs.map CodedField.data) := by
  induction cs with
  | nil => exact .nil
  | cons c cs ih =>
      rw [codedBytes_cons, CodedField.bytes, List.append_assoc]
      exact .cons c.lenCode ih

/-! ## Reading fields -/

theorem LenCode.byte_or_fourByte {h : List UInt8} {n : ℕ} (hlen : LenCode h n) (r : List UInt8) :
    (h = [UInt8.ofNat n] ∧ n < 0xFE) ∨
      (h.length = 5 ∧ byteLenTest ((h ++ r).headD 0).toNat = false ∧ fourByteLen (h ++ r) = n) := by
  cases hlen with
  | byte hlt => exact Or.inl ⟨rfl, hlt⟩
  | fourByte mark hmark hlt =>
      refine Or.inr ⟨rfl, ?_, fourByteLen_setFourByteLen hlt r⟩
      change byteLenTest mark.toNat = false
      rw [← Bool.not_eq_true, byteLenTest_iff]
      omega

theorem FieldsCode.cons_inv (hcode : FieldsCode b v) (hb : b ≠ []) :
    ∃ h f c u, b = h ++ (f ++ c) ∧ v = f :: u ∧ LenCode h f.length ∧ FieldsCode c u := by
  cases hcode with
  | nil => exact absurd rfl hb
  | @cons h f c u hlen hrest => exact ⟨h, f, c, u, rfl, rfl, hlen, hrest⟩

theorem LenCode.append_inj {h h' : List UInt8} {n m : ℕ} (hn : LenCode h n) (hm : LenCode h' m)
    (heq : h ++ r = h' ++ s) : n = m ∧ r = s := by
  have hget := hn.vaGetdata r
  rw [heq, hm.vaGetdata s, Prod.mk.injEq] at hget
  exact ⟨hget.2.symm, hget.1.symm⟩

theorem FieldsCode.append_left {a : List UInt8} {u : Fields} (ha : FieldsCode a u)
    (hw : FieldsCode (a ++ s) w) : ∃ w', w = u ++ w' ∧ FieldsCode s w' := by
  induction ha generalizing w with
  | nil => exact ⟨w, rfl, hw⟩
  | @cons h f b u hlen hrest ih =>
      have hne : h ++ (f ++ b) ++ s ≠ [] := by
        rw [List.append_assoc]
        exact fun hnil => hlen.ne_nil (List.append_eq_nil_iff.mp hnil).1
      obtain ⟨h', f', b', w', heq, rfl, hlen', hrest'⟩ := hw.cons_inv hne
      rw [List.append_assoc, List.append_assoc] at heq
      obtain ⟨hflen, htail⟩ := hlen.append_inj hlen' heq
      obtain ⟨rfl, rfl⟩ := List.append_inj htail hflen
      obtain ⟨w'', rfl, hs⟩ := ih hrest'
      exact ⟨w'', rfl, hs⟩

theorem FieldsCode.unique (hv : FieldsCode b v) (hw : FieldsCode b w) : w = v := by
  rw [← List.append_nil b] at hw
  obtain ⟨w', rfl, hnil⟩ := hv.append_left hw
  rw [hnil.eq_nil_iff.mp rfl, List.append_nil]

theorem FieldsCode.not_incomplete {e : List UInt8} (heq : s ++ e = c.bytes ++ r) (hne : s ≠ [])
    (hlt : s.length < c.gross) : ¬ FieldsCode s w := by
  intro hw
  obtain ⟨h, f, b, u, rfl, -, hlen, -⟩ := hw.cons_inv hne
  simp only [CodedField.bytes, List.append_assoc] at heq
  obtain ⟨hflen, htail⟩ := hlen.append_inj c.lenCode heq
  have hsum := congrArg List.length heq
  have hsum' := congrArg List.length htail
  rw [CodedField.gross] at hlt
  simp only [List.length_append] at hsum hsum' hlt
  omega

theorem CodedTuple.bytes_inj {t t' : CodedTuple} (heq : t.bytes ++ r = t'.bytes ++ s) :
    codedBytes t.fields = codedBytes t'.fields := by
  rw [CodedTuple.bytes, CodedTuple.bytes, List.append_assoc, List.append_assoc] at heq
  obtain ⟨hlen, htail⟩ := t.lenCode.append_inj t'.lenCode heq
  exact (List.append_inj htail hlen).1

theorem CodedTuple.values_inj {t t' : CodedTuple} (heq : t.bytes ++ r = t'.bytes ++ s) :
    t'.values = t.values := by
  have hcode := fieldsCode_codedBytes t'.fields
  rw [← CodedTuple.bytes_inj heq] at hcode
  exact (fieldsCode_codedBytes t.fields).unique hcode

end SolidDB
