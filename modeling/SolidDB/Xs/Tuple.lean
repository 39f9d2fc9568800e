import SolidDB.Uti.Va

/-!
# Rows of a sort

`xs_tuple_makevtpl` builds a v-tuple in a buffer and appends its length once more, mirrored, so
that a file of rows can be read backwards.
-/

namespace SolidDB

/-- `va_appdata`, `vtpl_appva` -/
def vaAppdata (targetVa data : List UInt8) : List UInt8 :=
  let (dataTarget, lenTarget) := vaGetdata targetVa
  vaSetLen (lenTarget + data.length) ++ dataTarget.take lenTarget ++ data

/-- `va_appinvlen`: the bytes of the length behind the v-attribute, the first byte last. -/
def vaAppinvlen (va : List UInt8) : List UInt8 :=
  if byteLenTest (va.headD 0).toNat then va ++ [va.headD 0]
  else va ++ (va.drop 1).take 4 ++ [va.headD 0]

/-- `va_invnetlen`, where `invlen` ends with the last byte of the mirrored length. The four
bytes are taken as bytes 1 to 4 of a v-attribute that begins five bytes before the last one. -/
def vaInvnetlen (invlen : List UInt8) : ℕ :=
  let lastByte := (invlen.getLastD 0).toNat
  if byteLenTest lastByte then lastByte
  else fourByteLen (0 :: invlen.drop (invlen.length - 5))

/-- The loop of `xs_tuple_makevtpl` over the v-attributes. -/
def makevtplLoop (bufsize : ℕ) : List UInt8 → List (List UInt8) → Option (List UInt8)
  | targetVtpl, [] => some targetVtpl
  | targetVtpl, va :: vas =>
    let vtplGlen := vtplGrosslen targetVtpl
    let vaGlen := vtplGrosslen va
    let s := (vtplGlen + vaGlen) % 2 ^ 32
    let vtplLlen := vaLenLen (targetVtpl.headD 0).toNat
    let vtplNlen := vtplGlen - vtplLlen
    if bufsize < s + (5 * 2 - 1) ∧
        (bufsize < s + vtplLlen ∨
          (vtplLlen = 1 ∧ vaLongvalimit ≤ (vtplNlen + vaGlen) % 2 ^ 32)) then none
    else makevtplLoop bufsize (vaAppdata targetVtpl va) vas

def xsTupleMakevtpl (bufsize : ℕ) (vas : List (List UInt8)) : Option (List UInt8) :=
  if bufsize < 1 then none else (makevtplLoop bufsize (vaSetLen 0) vas).map vaAppinvlen

/-! ## The stored row -/

def invLen (len : ℕ) : List UInt8 :=
  if byteLenTest len then [UInt8.ofNat len] else (setFourByteLen len).drop 1 ++ [0xFE]

def rowBytes (v : Fields) : List UInt8 := encVtpl v ++ invLen (netlen v)

theorem length_invLen (len : ℕ) : (invLen len).length = vaLenLen len := by
  rw [invLen, vaLenLen]
  split <;> rfl

theorem length_rowBytes (v : Fields) :
    (rowBytes v).length = vaLenLen (netlen v) * 2 + netlen v := by
  rw [rowBytes, List.length_append, length_invLen, length_encVtpl]
  omega

theorem vaAppdata_encVa {d : List UInt8} (hd : d.length < 2 ^ 32) (data : List UInt8) :
    vaAppdata (encVa d) data = encVa (d ++ data) := by
  have hget := vaGetdata_encVa hd []
  rw [List.append_nil, List.append_nil] at hget
  rw [vaAppdata, hget]
  simp only [List.take_length]
  rw [encVa, List.length_append, List.append_assoc]

theorem vaAppinvlen_encVa (d : List UInt8) :
    vaAppinvlen (encVa d) = encVa d ++ invLen d.length := by
  have htest := byteLenTest_headD_encVa d []
  rw [List.append_nil] at htest
  rw [vaAppinvlen, htest, invLen]
  by_cases hlen : byteLenTest d.length = true
  · rw [if_pos hlen, if_pos hlen, encVa, vaSetLen, if_pos hlen]
    rfl
  · rw [if_neg hlen, if_neg hlen, encVa, vaSetLen, if_neg hlen, List.append_assoc _ _ [_]]
    rfl

/-- The loop stops at the first v-attribute with which the row and its lengths do not fit. -/
theorem makevtplLoop_spec (bufsize : ℕ) (v : Fields) :
    ∀ d : List UInt8, d.length + netlen v + 10 < 2 ^ 32 →
      d.length + vaLenLen d.length * 2 ≤ bufsize ∨ v ≠ [] →
      makevtplLoop bufsize (encVa d) (v.map encVa) =
        if (d ++ encFields v).length + vaLenLen (d ++ encFields v).length * 2 ≤ bufsize then
          some (encVa (d ++ encFields v)) else none := by
  induction v with
  | nil =>
      intro d _ hfit
      rw [encFields_nil, List.append_nil, if_pos (hfit.resolve_right fun h => h rfl)]
      rfl
  | cons f v ih =>
      intro d hlen _
      rw [netlen_cons] at hlen
      have hd : d.length < 2 ^ 32 := by omega
      have hgd := vtplGrosslen_encVa hd []
      have hgf := vtplGrosslen_encVa (show f.length < 2 ^ 32 by omega) []
      have hhead := byteLenTest_headD_encVa d []
      rw [List.append_nil] at hgd hgf hhead
      have hllen : vaLenLen ((encVa d).headD 0).toNat = vaLenLen d.length := by
        rw [vaLenLen, vaLenLen, hhead]
      have hcond (n g L : ℕ) (hL : L = vaLenLen n) (hng : n + g + 10 < 2 ^ 32) :
          (bufsize < (L + n + g) % 2 ^ 32 + (5 * 2 - 1) ∧ (bufsize < (L + n + g) % 2 ^ 32 + L ∨
            (L = 1 ∧ vaLongvalimit ≤ (L + n - L + g) % 2 ^ 32))) ↔
          ¬ n + g + vaLenLen (n + g) * 2 ≤ bufsize := by
        have hle := vaLenLen_le n
        rw [Nat.mod_eq_of_lt (by omega), Nat.mod_eq_of_lt (by omega), vaLongvalimit]
        rw [hL]
        simp only [vaLenLen, byteLenTest_iff]
        split <;> split <;> omega
      have hstep := hcond d.length (encVa f).length _ rfl (by rw [length_encVa]; omega)
      rw [List.map_cons, makevtplLoop, hgd, hgf, hllen, vaAppdata_encVa hd, encFields_cons,
        ← List.append_assoc, ← length_encVa f]
      simp only [hstep]
      by_cases hfit : d.length + (encVa f).length +
          vaLenLen (d.length + (encVa f).length) * 2 ≤ bufsize
      · rw [if_neg (not_not.mpr hfit)]
        apply ih
        · rw [List.length_append, length_encVa]
          omega
        · left
          rw [List.length_append]
          exact hfit
      · rw [if_pos hfit, if_neg]
        have hmono := vaLenLen_mono (Nat.le_add_right (d.length + (encVa f).length)
          (encFields v).length)
        rw [List.length_append, List.length_append]
        omega

/-- A row is built when it fits into the buffer with both of its lengths. -/
theorem xsTupleMakevtpl_eq (bufsize : ℕ) {v : Fields} (hv : v ≠ [])
    (hlen : netlen v + 10 < 2 ^ 32) :
    xsTupleMakevtpl bufsize (v.map encVa) =
      if (rowBytes v).length ≤ bufsize then some (rowBytes v) else none := by
  have hloop := makevtplLoop_spec bufsize v [] (by rwa [List.length_nil, Nat.zero_add])
    (Or.inr hv)
  rw [List.nil_append, length_encFields, Nat.add_comm (netlen v), ← length_rowBytes] at hloop
  have hempty : vaSetLen 0 = encVa [] := rfl
  have hpos := vaLenLen_pos (netlen v)
  rw [xsTupleMakevtpl, hempty, hloop]
  by_cases hfit : (rowBytes v).length ≤ bufsize
  · rw [if_pos hfit, if_pos hfit, if_neg, Option.map_some, vaAppinvlen_encVa]
    · rfl
    · rw [length_rowBytes] at hfit
      omega
  · rw [if_neg hfit, if_neg hfit]
    split <;> rfl

/-! ## Finding a row from either side -/

theorem getLastD_invLen (len : ℕ) :
    ((invLen len).getLastD 0).toNat = if len < 0xFE then len else 0xFE := by
  rw [invLen]
  by_cases hlen : len < 0xFE
  · rw [if_pos ((byteLenTest_iff _).mpr hlen), if_pos hlen]
    exact Nat.mod_eq_of_lt (by omega)
  · rw [if_neg (by rwa [byteLenTest_iff]), if_neg hlen]
    rfl

theorem byteLenTest_getLastD_invLen (len : ℕ) :
    byteLenTest ((invLen len).getLastD 0).toNat = byteLenTest len := by
  rw [getLastD_invLen, Bool.eq_iff_iff, byteLenTest_iff, byteLenTest_iff]
  split <;> omega

theorem vaInvnetlen_invLen {len : ℕ} (h : len < 2 ^ 32) : vaInvnetlen (invLen len) = len := by
  have hget := fourByteLen_setFourByteLen h []
  rw [vaInvnetlen, byteLenTest_getLastD_invLen]
  by_cases hlen : byteLenTest len = true
  · rw [if_pos hlen, getLastD_invLen, if_pos ((byteLenTest_iff _).mp hlen)]
  · rw [if_neg hlen, invLen, if_neg hlen]
    exact hget

/-- Neither end of a row looks like an end-of-run mark. -/
theorem headD_rowBytes_ne_zero {v : Fields} (hv : v ≠ []) (rest : List UInt8) :
    (rowBytes v ++ rest).headD 0 ≠ 0 := by
  have hpos := netlen_pos hv
  have hhead := headD_encVa (encFields v) (invLen (netlen v) ++ rest)
  rw [length_encFields] at hhead
  rw [rowBytes, List.append_assoc, encVtpl]
  intro hzero
  rw [hzero, UInt8.toNat_zero] at hhead
  split at hhead <;> omega

theorem getLastD_invLen_ne_zero {len : ℕ} (h : 0 < len) : (invLen len).getLastD 0 ≠ 0 := by
  have hlast := getLastD_invLen len
  intro hzero
  rw [hzero, UInt8.toNat_zero] at hlast
  split at hlast <;> omega

end SolidDB
