import SolidDB.Foundation.FieldTuple
import Mathlib.Data.Nat.Bits
import Mathlib.Algebra.Order.Ring.Int

/-!
# V-attributes and v-tuples

The byte format of `uti0va.h` and `uti0vtpl.h`. A v-attribute is a length
followed by that many data bytes; the length takes one byte below `0xFE` and
five bytes from there on. A v-tuple is a v-attribute whose data is the
concatenation of the v-attributes of its fields.

A pointer is the list of bytes from it on. Inside a v-tuple the list runs to
the end of the tuple, so a pointer has reached the end exactly when its list is
empty.
-/

instance byteLinearOrder : LinearOrder UInt8 where
  le_refl a := UInt8.le_refl a
  le_trans _ _ _ := UInt8.le_trans
  le_antisymm _ _ := UInt8.le_antisymm
  le_total := UInt8.le_total
  lt_iff_le_not_ge a b := by
    rw [UInt8.lt_iff_toNat_lt, UInt8.le_iff_toNat_le, UInt8.le_iff_toNat_le]
    omega
  toDecidableLE := inferInstance
  toDecidableEq := inferInstance
  toDecidableLT := inferInstance

namespace SolidDB

abbrev Fields := List (List UInt8)

def vaLongvalimit : ℕ := 0xFE

def byteLenTest (len : ℕ) : Bool := len < vaLongvalimit

theorem byteLenTest_iff (len : ℕ) : byteLenTest len = true ↔ len < 0xFE :=
  decide_eq_true_iff

/-- `VA_LEN_LEN`, `VTPL_LEN_LEN` -/
def vaLenLen (len : ℕ) : ℕ := if byteLenTest len then 1 else 5

/-- `FOUR_BYTE_LEN`: bytes 1 to 4, the low one first. -/
def fourByteLen (c : List UInt8) : ℕ :=
  ((((c.getD 4 0).toNat * 256 + (c.getD 3 0).toNat) * 256 +
    (c.getD 2 0).toNat) * 256) + (c.getD 1 0).toNat

/-- The bytes written by `SET_FOUR_BYTE_LEN`. -/
def setFourByteLen (len : ℕ) : List UInt8 :=
  [0xFE, UInt8.ofNat len, UInt8.ofNat (len / 256), UInt8.ofNat (len / 256 / 256),
    UInt8.ofNat (len / 256 / 256 / 256)]

/-- The bytes written by `VA_SET_LEN` and `VA_SET_LEN_ONLY`. -/
def vaSetLen (len : ℕ) : List UInt8 :=
  if byteLenTest len then [UInt8.ofNat len] else setFourByteLen len

/-- `va_getdata`, `VA_GETDATA`: the data pointer and the length. -/
def vaGetdata (c : List UInt8) : List UInt8 × ℕ :=
  let firstByte := (c.headD 0).toNat
  if byteLenTest firstByte then (c.drop 1, firstByte)
  else (c.drop 5, fourByteLen c)

/-- The data area of a v-tuple, from its first field to its end. -/
def vtplGetdata (c : List UInt8) : List UInt8 :=
  (vaGetdata c).1.take (vaGetdata c).2

/-- `VA_GROSS_LEN`, `VTPL_GROSSLEN` -/
def vtplGrosslen (c : List UInt8) : ℕ :=
  let firstByte := (c.headD 0).toNat
  if byteLenTest firstByte then firstByte + 1 else fourByteLen c + 5

/-! ## Encodings -/

def encVa (f : List UInt8) : List UInt8 := vaSetLen f.length ++ f

def encFields (v : Fields) : List UInt8 := v.flatMap encVa

def encVtpl (v : Fields) : List UInt8 := encVa (encFields v)

/-- `vtpl_netlen` of the v-tuple. -/
def netlen (v : Fields) : ℕ := (encFields v).length

/-- The v-tuple with its length is shorter than `2 ^ 32`, the range of `vtpl_index_t`. -/
def VtplFits (v : Fields) : Prop := v ≠ [] ∧ netlen v + 5 < 2 ^ 32

instance (v : Fields) : Decidable (VtplFits v) :=
  inferInstanceAs (Decidable (_ ∧ _))

theorem VtplFits.netlen_lt {v : Fields} (h : VtplFits v) : netlen v < 2 ^ 32 :=
  (Nat.le_add_right _ 5).trans_lt h.2

@[simp] theorem length_vaSetLen (len : ℕ) :
    (vaSetLen len).length = vaLenLen len := by
  unfold vaSetLen vaLenLen
  split <;> rfl

theorem vaLenLen_pos (len : ℕ) : 0 < vaLenLen len := by
  unfold vaLenLen
  split <;> omega

theorem vaLenLen_le (len : ℕ) : vaLenLen len ≤ 5 := by
  unfold vaLenLen
  split <;> omega

theorem vaLenLen_mono {m n : ℕ} (h : m ≤ n) : vaLenLen m ≤ vaLenLen n := by
  simp only [vaLenLen, byteLenTest_iff]
  split <;> split <;> omega

@[simp] theorem length_encVa (f : List UInt8) :
    (encVa f).length = vaLenLen f.length + f.length := by
  simp [encVa]

@[simp] theorem encFields_nil : encFields [] = [] := rfl

@[simp] theorem encFields_cons (f : List UInt8) (v : Fields) :
    encFields (f :: v) = encVa f ++ encFields v := rfl

@[simp] theorem encFields_append (v w : Fields) :
    encFields (v ++ w) = encFields v ++ encFields w := by
  simp [encFields]

@[simp] theorem netlen_nil : netlen [] = 0 := rfl

@[simp] theorem netlen_cons (f : List UInt8) (v : Fields) :
    netlen (f :: v) = vaLenLen f.length + f.length + netlen v := by
  simp [netlen]

theorem length_encFields (v : Fields) : (encFields v).length = netlen v := rfl

theorem length_encVtpl (v : Fields) :
    (encVtpl v).length = vaLenLen (netlen v) + netlen v := by
  simp [encVtpl, length_encFields]

theorem netlen_pos {v : Fields} (hv : v ≠ []) : 0 < netlen v := by
  cases v with
  | nil => exact absurd rfl hv
  | cons f v =>
      have := vaLenLen_pos f.length
      rw [netlen_cons]
      omega

theorem encFields_eq_nil_iff (v : Fields) : encFields v = [] ↔ v = [] := by
  constructor
  · intro h
    by_contra hv
    have := netlen_pos hv
    rw [netlen, h] at this
    simp at this
  · rintro rfl
    rfl

/-- The symbols of a tuple are never more than its bytes. -/
theorem length_tupleSyms_le_netlen (v : Fields) :
    (FrontCoding.tupleSyms v).length ≤ netlen v := by
  induction v with
  | nil => simp
  | cons f v ih =>
      have := vaLenLen_pos f.length
      simp only [FrontCoding.tupleSyms_cons, List.length_append,
        FrontCoding.length_fieldSyms, netlen_cons]
      omega

theorem netlen_residual_le (v : Fields) (i : ℕ) :
    netlen (FrontCoding.residual v i) ≤ netlen v := by
  induction v generalizing i with
  | nil => simp [FrontCoding.residual]
  | cons f v ih =>
      unfold FrontCoding.residual
      split
      · have hmono : vaLenLen (f.drop i).length ≤ vaLenLen f.length :=
          vaLenLen_mono (by simp)
        rw [netlen_cons, netlen_cons]
        rw [List.length_drop] at hmono ⊢
        omega
      · have := ih (i - f.length - 1)
        rw [netlen_cons]
        omega

theorem VtplFits.residual {v : Fields} {i : ℕ} (h : VtplFits v)
    (hi : i < (FrontCoding.tupleSyms v).length) :
    VtplFits (FrontCoding.residual v i) :=
  ⟨FrontCoding.residual_ne_nil hi,
    lt_of_le_of_lt (Nat.add_le_add_right (netlen_residual_le v i) 5) h.2⟩

/-! ## Reading back -/

theorem fourByteLen_setFourByteLen {len : ℕ} (h : len < 2 ^ 32)
    (rest : List UInt8) : fourByteLen (setFourByteLen len ++ rest) = len := by
  simp [fourByteLen, setFourByteLen]
  omega

/-- Reading a length back gives the length and the bytes behind it. -/
theorem vaGetdata_vaSetLen {len : ℕ} (h : len < 2 ^ 32) (rest : List UInt8) :
    vaGetdata (vaSetLen len ++ rest) = (rest, len) := by
  by_cases hlen : byteLenTest len = true
  · have hlt : len < 0xFE := (byteLenTest_iff len).mp hlen
    have hmod : len % 256 = len := Nat.mod_eq_of_lt (by omega)
    simp [vaGetdata, vaSetLen, hlen, hmod]
  · have hset : vaSetLen len = setFourByteLen len := by
      simp [vaSetLen, hlen]
    have hfirst : ((setFourByteLen len ++ rest).headD 0).toNat = 0xFE := rfl
    rw [hset, vaGetdata, hfirst, fourByteLen_setFourByteLen h]
    rfl

theorem vaGetdata_encVa {f : List UInt8} (h : f.length < 2 ^ 32)
    (rest : List UInt8) :
    vaGetdata (encVa f ++ rest) = (f ++ rest, f.length) := by
  rw [encVa, List.append_assoc, vaGetdata_vaSetLen h]

theorem vtplGetdata_encVtpl {v : Fields} (h : netlen v < 2 ^ 32)
    (rest : List UInt8) : vtplGetdata (encVtpl v ++ rest) = encFields v := by
  rw [vtplGetdata, encVtpl, vaGetdata_encVa h]
  simp

theorem headD_encVa (f rest : List UInt8) :
    ((encVa f ++ rest).headD 0).toNat = if f.length < 0xFE then f.length else 0xFE := by
  rw [encVa, vaSetLen]
  by_cases hlen : f.length < 0xFE
  · have hmod : f.length % 256 = f.length := Nat.mod_eq_of_lt (by omega)
    rw [if_pos hlen, if_pos ((byteLenTest_iff _).mpr hlen)]
    simp [hmod]
  · rw [if_neg hlen, if_neg (by rwa [byteLenTest_iff])]
    rfl

theorem byteLenTest_headD_encVa (f rest : List UInt8) :
    byteLenTest ((encVa f ++ rest).headD 0).toNat = byteLenTest f.length := by
  rw [headD_encVa, Bool.eq_iff_iff, byteLenTest_iff, byteLenTest_iff]
  split <;> omega

theorem vtplGrosslen_encVa {f : List UInt8} (h : f.length < 2 ^ 32) (rest : List UInt8) :
    vtplGrosslen (encVa f ++ rest) = vaLenLen f.length + f.length := by
  have hget := vaGetdata_encVa h rest
  have htest := byteLenTest_headD_encVa f rest
  rw [vaGetdata] at hget
  rw [vtplGrosslen, vaLenLen]
  simp only [htest] at hget ⊢
  by_cases hlen : byteLenTest f.length = true
  · rw [if_pos hlen] at hget ⊢
    rw [if_pos hlen, (Prod.mk.inj hget).2, Nat.add_comm]
  · rw [if_neg hlen] at hget ⊢
    rw [if_neg hlen, (Prod.mk.inj hget).2, Nat.add_comm]

theorem vtplGrosslen_encVtpl {v : Fields} (h : netlen v < 2 ^ 32)
    (rest : List UInt8) :
    vtplGrosslen (encVtpl v ++ rest) = (encVtpl v).length := by
  rw [length_encVtpl]
  exact vtplGrosslen_encVa h rest

end SolidDB
