import SolidDB.Uti.Va

/-!
# Length formats

A length below `0xFE` takes one byte, and every length can be written in five, so that several
byte strings hold the same fields. The mark of the long format is `0xFE`, and `0xFF` where the
attribute refers to a blob.
-/

namespace SolidDB

open FrontCoding

inductive LenCode : List UInt8 → ℕ → Prop where
  | byte {len : ℕ} (h : len < 0xFE) : LenCode [UInt8.ofNat len] len
  | fourByte (mark : UInt8) {len : ℕ} (hmark : 0xFE ≤ mark.toNat) (h : len < 2 ^ 32) :
      LenCode (mark :: (setFourByteLen len).tail) len

inductive FieldsCode : List UInt8 → Fields → Prop where
  | nil : FieldsCode [] []
  | cons {h f b : List UInt8} {v : Fields} (len : LenCode h f.length) (rest : FieldsCode b v) :
      FieldsCode (h ++ (f ++ b)) (f :: v)

structure VtplCode (t : List UInt8) (v : Fields) : Prop where
  ne_nil : v ≠ []
  code : ∃ h b r, t = h ++ (b ++ r) ∧ LenCode h b.length ∧ FieldsCode b v

variable {h t b : List UInt8} {v w : Fields} {len : ℕ}

theorem LenCode.vaGetdata (hlen : LenCode h len) (rest : List UInt8) :
    vaGetdata (h ++ rest) = (rest, len) := by
  cases hlen with
  | byte hlt =>
      have hmod : len % 256 = len := Nat.mod_eq_of_lt (by omega)
      have hbyte := (byteLenTest_iff len).mpr hlt
      simp [SolidDB.vaGetdata, hmod, hbyte]
  | fourByte mark hmark hlt =>
      have hfour := fourByteLen_setFourByteLen hlt rest
      have htest : byteLenTest mark.toNat = false := by
        rw [← Bool.not_eq_true, byteLenTest_iff]
        omega
      have hsame : fourByteLen (mark :: (setFourByteLen len).tail ++ rest) = len := hfour
      simp only [SolidDB.vaGetdata, List.cons_append, List.headD_cons, htest] at hsame ⊢
      rw [hsame]
      rfl

theorem LenCode.grosslen (hlen : LenCode h len) (rest : List UInt8) :
    vtplGrosslen (h ++ rest) = h.length + len := by
  have hget := hlen.vaGetdata rest
  cases hlen with
  | byte hlt =>
      have hmod : len % 256 = len := Nat.mod_eq_of_lt (by omega)
      have hbyte := (byteLenTest_iff len).mpr hlt
      simp [vtplGrosslen, hmod, hbyte]
      omega
  | fourByte mark hmark hlt =>
      have htest : byteLenTest mark.toNat = false := by
        rw [← Bool.not_eq_true, byteLenTest_iff]
        omega
      simp only [SolidDB.vaGetdata, vtplGrosslen, List.cons_append, List.headD_cons, htest,
        Bool.false_eq_true, if_false, Prod.mk.injEq] at hget ⊢
      rw [hget.2, Nat.add_comm]
      rfl

theorem LenCode.length_pos (hlen : LenCode h len) : 0 < h.length := by
  cases hlen with
  | byte => exact Nat.zero_lt_one
  | fourByte => exact Nat.succ_pos _

theorem LenCode.ne_nil (hlen : LenCode h len) : h ≠ [] := List.ne_nil_of_length_pos hlen.length_pos

theorem FieldsCode.eq_nil_iff (hcode : FieldsCode b v) : b = [] ↔ v = [] := by
  cases hcode with
  | nil => exact iff_of_true rfl rfl
  | cons hlen hrest =>
      refine iff_of_false (fun hnil => ?_) (List.cons_ne_nil _ _)
      exact hlen.ne_nil (List.append_eq_nil_iff.mp hnil).1

theorem FieldsCode.length_le (hcode : FieldsCode b v) : v.length ≤ b.length := by
  induction hcode with
  | nil => exact le_rfl
  | cons hlen hrest ih =>
      have hpos := hlen.length_pos
      simp only [List.length_cons, List.length_append]
      omega

theorem FieldsCode.append {c : List UInt8} (hb : FieldsCode b v) (hc : FieldsCode c w) :
    FieldsCode (b ++ c) (v ++ w) := by
  induction hb with
  | nil => exact hc
  | cons hlen hrest ih =>
      simp only [List.append_assoc, List.cons_append]
      exact .cons hlen ih

/-! ## The formats that are written -/

theorem lenCode_vaSetLen (hlt : len < 2 ^ 32) : LenCode (vaSetLen len) len := by
  rw [vaSetLen]
  by_cases hbyte : byteLenTest len = true
  · rw [if_pos hbyte]
    exact .byte ((byteLenTest_iff len).mp hbyte)
  · rw [if_neg hbyte]
    exact .fourByte 0xFE (by decide) hlt

theorem fieldsCode_encFields (hlt : netlen v < 2 ^ 32) : FieldsCode (encFields v) v := by
  induction v with
  | nil => exact .nil
  | cons f v ih =>
      rw [netlen_cons] at hlt
      rw [encFields_cons, encVa, List.append_assoc]
      exact .cons (lenCode_vaSetLen (by omega)) (ih (by omega))

theorem VtplFits.vtplCode (hfits : VtplFits v) (r : List UInt8) : VtplCode (encVtpl v ++ r) v :=
  ⟨hfits.1, vaSetLen (netlen v), encFields v, r, List.append_assoc _ _ _,
    lenCode_vaSetLen hfits.netlen_lt, fieldsCode_encFields hfits.netlen_lt⟩

/-! ## Reading a tuple -/

theorem VtplCode.getdata (hcode : VtplCode t v) :
    FieldsCode (vtplGetdata t) v ∧ (vaGetdata t).2 = (vtplGetdata t).length := by
  obtain ⟨h, b, r, rfl, hlen, hfields⟩ := hcode.code
  rw [vtplGetdata, hlen.vaGetdata, List.take_left]
  exact ⟨hfields, rfl⟩

theorem LenCode.lt (hlen : LenCode h len) : len < 2 ^ 32 := by
  cases hlen with
  | byte hlt => omega
  | fourByte mark hmark hlt => exact hlt

theorem VtplCode.netlen_pos (hcode : VtplCode t v) : 0 < (vaGetdata t).2 := by
  obtain ⟨hfields, hlen⟩ := hcode.getdata
  rw [hlen, List.length_pos_iff, Ne, hfields.eq_nil_iff]
  exact hcode.ne_nil

theorem VtplCode.netlen_lt (hcode : VtplCode t v) : (vaGetdata t).2 < 2 ^ 32 := by
  obtain ⟨h, b, r, rfl, hlen, -⟩ := hcode.code
  rw [hlen.vaGetdata]
  exact hlen.lt

theorem FieldsCode.eq_of_length_le_one (hcode : FieldsCode b v) (hv : v ≠ [])
    (hle : b.length ≤ 1) : v = [[]] := by
  cases hcode with
  | nil => exact absurd rfl hv
  | @cons h f b v hlen hrest =>
      have hpos := hlen.length_pos
      simp only [List.length_append] at hle
      have hf : f = [] := List.length_eq_zero_iff.mp (by omega)
      have hb : b = [] := List.length_eq_zero_iff.mp (by omega)
      rw [hf, hrest.eq_nil_iff.mp hb]

end SolidDB
