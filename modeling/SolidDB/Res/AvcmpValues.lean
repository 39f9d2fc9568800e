import SolidDB.Res.AvcmpDecision

/-!
# The comparison functions on character values

Each function of `rs1avcmp.c` compares two strings of codes: of complete values those of
`wholeParts`, otherwise those of `parts`.
-/

namespace SolidDB

open LexDecision

namespace CharValue

variable (v w : CharValue)

/-- The number of Unicode characters of `w` that an 8-bit value is compared with; it is the
number of bytes where the 8-bit value is complete and `w` a blob reference. -/
def uniCount : ℕ :=
  if v.isWhole ∧ !w.isWhole then w.shownLen else w.shownLen / 2

def parts : List ℕ × List ℕ :=
  match v.sqldt.datatype, w.sqldt.datatype with
  | .char, .unicode => (byteCodes v.shown, charsAt w.data (v.uniCount w))
  | .unicode, .char => (charsAt v.data (w.uniCount v), byteCodes w.shown)
  | _, _ => (byteCodes v.shown, byteCodes w.shown)

def wholeParts : List ℕ × List ℕ :=
  if v.fixed w then (v.compared w, w.compared v)
  else if v.sqldt.datatype = w.sqldt.datatype then
    (byteCodes v.full ++ [0], byteCodes w.full ++ [0])
  else (v.content, w.content)

variable {v w}

/-! ## Blob references -/

theorem dataLen_sub (v : CharValue) :
    (if (!v.isWhole) = true then v.dataLen - rsVablobrefSize else v.dataLen - 1) = v.shownLen := by
  cases h : v.isWhole with
  | true => rw [if_neg (by decide), v.dataLen_of_whole h, v.shownLen_of_whole h]; rfl
  | false => rw [if_pos (by decide), v.shownLen_of_blob h]

theorem ssMemcmp_shown (v w : CharValue) :
    ssMemcmp v.data w.data (min v.shownLen w.shownLen) =
      firstDiff (byteCodes v.shown) (byteCodes w.shown) := by
  have hv := v.shownLen_le
  have hw := w.shownLen_le
  have hfirst := firstDiff_take (byteCodes v.shown) (byteCodes w.shown)
  rw [length_byteCodes, length_byteCodes, length_shown, length_shown, ← byteCodes_take,
    ← byteCodes_take, shown, shown, List.take_take, List.take_take,
    Nat.min_eq_left (Nat.min_le_left _ _), Nat.min_eq_left (Nat.min_le_right _ _)] at hfirst
  rw [ssMemcmp_eq _ _ (by omega) (by omega), hfirst]
  rfl

theorem avalVacmpBlob_eq (v w : CharValue) (h : (!v.isWhole || !w.isWhole) = true) :
    avalVacmpBlob v.va w.va (!v.isWhole) (!w.isWhole) =
      blobResult (!v.isWhole) (!w.isWhole) (firstDiff (byteCodes v.shown) (byteCodes w.shown))
        v.shownLen w.shownLen := by
  have hv := dataLen_sub v
  have hw := dataLen_sub w
  rw [avalVacmpBlob, vaGetdata_va, vaGetdata_va, blobResult]
  cases hv' : v.isWhole with
  | false =>
      rw [hv'] at hv
      simp only [Bool.not_false, if_true] at hv ⊢
      rw [hv, hw, ssMemcmp_shown]
  | true =>
      obtain hw' : w.isWhole = false := by simpa [hv'] using h
      rw [hv'] at hv
      rw [hw'] at hw ⊢
      simp only [Bool.not_true, Bool.not_false, if_true, Bool.false_eq_true, if_false] at hv hw ⊢
      rw [hv, hw, ssMemcmp_shown]

theorem avalVacmpBlob_reports (v w : CharValue) (h : (!v.isWhole || !w.isWhole) = true) :
    Reports v.isWhole w.isWhole (byteCodes v.shown) (byteCodes w.shown)
      (avalVacmpBlob v.va w.va (!v.isWhole) (!w.isWhole)) := by
  have hrep := blobResult_reports h (byteCodes_lt v.shown) (byteCodes_lt w.shown)
  rw [length_byteCodes, length_byteCodes, length_shown, length_shown, Bool.not_not,
    Bool.not_not] at hrep
  rw [avalVacmpBlob_eq v w h]
  exact hrep

theorem avalCmp_shown (v : CharValue) (c : List UInt8) (n : ℕ) :
    avalCmpChar1v2Vabuf v.data c (min v.shownLen n) =
      firstDiff (byteCodes v.shown) (charsAt c n) := by
  have hv := v.shownLen_le
  have hfirst := firstDiff_take (byteCodes v.shown) (charsAt c n)
  rw [length_byteCodes, length_shown, length_charsAt, ← byteCodes_take, shown, List.take_take,
    Nat.min_eq_left (Nat.min_le_left _ _), charsAt_take,
    Nat.min_eq_left (Nat.min_le_right _ _)] at hfirst
  rw [avalCmpChar1v2Vabuf_eq _ _ (by omega), hfirst]
  rfl

theorem dataLen_half (w : CharValue) (hw : w.sqldt.datatype = .unicode) :
    (if (!w.isWhole) = true then w.dataLen - rsVablobrefSize else w.dataLen) / 2 =
      w.shownLen / 2 := by
  have heven := w.even hw
  cases h : w.isWhole with
  | true =>
      rw [if_neg (by decide), w.dataLen_of_whole h, w.shownLen_of_whole h]
      omega
  | false => rw [if_pos (by decide), w.shownLen_of_blob h]

theorem avalVacmpBlobChrVUni_eq (v w : CharValue) (h : (!v.isWhole || !w.isWhole) = true)
    (hdt : w.sqldt.datatype = .unicode) :
    avalVacmpBlobChrVUni v.va w.va (!v.isWhole) (!w.isWhole) =
      blobResult (!v.isWhole) (!w.isWhole)
        (firstDiff (byteCodes v.shown) (charsAt w.data (v.uniCount w)))
        v.shownLen (v.uniCount w) := by
  have hv := dataLen_sub v
  have hhalf := dataLen_half w hdt
  rw [avalVacmpBlobChrVUni, vaGetdata_va, vaGetdata_va, blobResult, uniCount]
  cases hv' : v.isWhole with
  | false =>
      rw [hv'] at hv
      simp only [Bool.not_false, if_true, Bool.false_eq_true, false_and, if_false] at hv ⊢
      rw [hv, hhalf, avalCmp_shown]
  | true =>
      obtain hw' : w.isWhole = false := by simpa [hv'] using h
      have hw := dataLen_sub w
      rw [hv'] at hv
      rw [hw'] at hw ⊢
      simp only [Bool.not_true, Bool.not_false, if_true, Bool.false_eq_true, if_false,
        and_self] at hv hw ⊢
      rw [hv, hw, avalCmp_shown]

theorem avalVacmpBlobChrVUni_reports (v w : CharValue) (h : (!v.isWhole || !w.isWhole) = true)
    (hdt : w.sqldt.datatype = .unicode) :
    Reports v.isWhole w.isWhole (byteCodes v.shown) (charsAt w.data (v.uniCount w))
      (avalVacmpBlobChrVUni v.va w.va (!v.isWhole) (!w.isWhole)) := by
  have hrep := blobResult_reports h (byteCodes_lt v.shown) (charsAt_lt w.data (v.uniCount w))
  rw [length_byteCodes, length_shown, length_charsAt, Bool.not_not, Bool.not_not] at hrep
  rw [avalVacmpBlobChrVUni_eq v w h hdt]
  exact hrep

theorem rsAvalCmp3_reports (v w : CharValue) (h : (!v.isWhole || !w.isWhole) = true) :
    Reports v.isWhole w.isWhole (v.parts w).1 (v.parts w).2
      (rsAvalCmp3 v.sqldt v.va w.sqldt w.va) := by
  have h' : (!w.isWhole || !v.isWhole) = true := by rwa [Bool.or_comm]
  have hblob : (vaTestblob v.va || vaTestblob w.va) = true := by
    rwa [vaTestblob_va, vaTestblob_va]
  have hblob' : (vaTestblob w.va || vaTestblob v.va) = true := by rwa [Bool.or_comm]
  unfold parts rsAvalCmp3
  cases hv : v.sqldt.datatype with
  | char =>
      cases hw : w.sqldt.datatype with
      | char =>
          simp only
          rw [chrVChr, if_pos hblob, vaTestblob_va, vaTestblob_va]
          exact avalVacmpBlob_reports v w h
      | unicode =>
          simp only
          rw [chrVUni, if_pos hblob, vaTestblob_va, vaTestblob_va]
          exact avalVacmpBlobChrVUni_reports v w h hw
  | unicode =>
      cases hw : w.sqldt.datatype with
      | char =>
          simp only
          rw [chrVUni, if_pos hblob', vaTestblob_va, vaTestblob_va]
          exact (avalVacmpBlobChrVUni_reports w v h' hv).neg
      | unicode =>
          simp only
          rw [uniVUni, if_pos hblob, vaTestblob_va, vaTestblob_va]
          exact avalVacmpBlob_reports v w h

/-! ## Complete values -/

theorem byLoop_ssMemcmp (b c : List UInt8) {m n : ℕ} (hb : m ≤ b.length) (hc : n ≤ c.length) :
    ByLoop (byteCodes (b.take m)) (byteCodes (c.take n))
      (if ssMemcmp b c (min m n) = 0 then toInt32 ((m : ℤ) - n)
        else ssMemcmp b c (min m n)) := by
  have hfirst := firstDiff_take (byteCodes (b.take m)) (byteCodes (c.take n))
  rw [length_byteCodes, length_byteCodes, List.length_take_of_le hb, List.length_take_of_le hc,
    ← byteCodes_take, ← byteCodes_take, List.take_take, List.take_take,
    Nat.min_eq_left (Nat.min_le_left _ _), Nat.min_eq_left (Nat.min_le_right _ _)] at hfirst
  have hloop := byLoop_firstDiff (byteCodes_lt (b.take m)) (byteCodes_lt (c.take n))
  rw [length_byteCodes, length_byteCodes, List.length_take_of_le hb,
    List.length_take_of_le hc, ← hfirst] at hloop
  rw [ssMemcmp_eq b c (by omega) (by omega)]
  exact hloop

theorem byLoop_avalCmp (b c : List UInt8) {m : ℕ} (n : ℕ) (hb : m ≤ b.length) :
    ByLoop (byteCodes (b.take m)) (charsAt c n)
      (if avalCmpChar1v2Vabuf b c (min m n) = 0 then toInt32 ((m : ℤ) - n)
        else avalCmpChar1v2Vabuf b c (min m n)) := by
  have hfirst := firstDiff_take (byteCodes (b.take m)) (charsAt c n)
  rw [length_byteCodes, length_charsAt, List.length_take_of_le hb, ← byteCodes_take,
    List.take_take, Nat.min_eq_left (Nat.min_le_left _ _), charsAt_take,
    Nat.min_eq_left (Nat.min_le_right _ _)] at hfirst
  have hloop := byLoop_firstDiff (byteCodes_lt (b.take m)) (charsAt_lt c n)
  rw [length_byteCodes, length_charsAt, List.length_take_of_le hb, ← hfirst] at hloop
  rw [avalCmpChar1v2Vabuf_eq b c (by omega)]
  exact hloop

/-- The comparison of the bytes of as many characters as the shorter string has. -/
theorem byLoop_ssMemcmp_charsAt (b c : List UInt8) {m n : ℕ} (hb : 2 * m ≤ b.length)
    (hc : 2 * n ≤ c.length) :
    ByLoop (charsAt b m) (charsAt c n)
      (if ssMemcmp b c (min m n * 2) = 0 then toInt32 ((m : ℤ) - n)
        else ssMemcmp b c (min m n * 2)) := by
  have hk : ∀ d : List UInt8, min m n * 2 ≤ d.length →
      charsAt (d.take (min m n * 2)) ((d.take (min m n * 2)).length / 2) = charsAt d (min m n) := by
    intro d hd
    rw [List.length_take_of_le hd, Nat.mul_div_cancel _ (by decide)]
    have happ := charsAt_append (d.take (min m n * 2)) (d.drop (min m n * 2)) (n := min m n)
      (by rw [List.length_take_of_le hd]; omega)
    rw [List.take_append_drop] at happ
    exact happ.symm
  have hbk : min m n * 2 ≤ b.length := by omega
  have hck : min m n * 2 ≤ c.length := by omega
  have horder := lexOrder_charsAt (b.take (min m n * 2)) (c.take (min m n * 2))
    (by rw [List.length_take_of_le hbk]; omega) (by rw [List.length_take_of_le hck]; omega)
  rw [hk b hbk, hk c hck] at horder
  have hlen : (charsAt b (min m n)).length = (charsAt c (min m n)).length := by
    rw [length_charsAt, length_charsAt]
  have hbyte : (byteCodes (b.take (min m n * 2))).length =
      (byteCodes (c.take (min m n * 2))).length := by
    rw [length_byteCodes, length_byteCodes, List.length_take_of_le hbk,
      List.length_take_of_le hck]
  have hm : charsAt b m = charsAt b (min m n) ++ charsAt (b.drop (2 * min m n)) (m - min m n) := by
    rw [← charsAt_add]
    congr 1
    omega
  have hn : charsAt c n = charsAt c (min m n) ++ charsAt (c.drop (2 * min m n)) (n - min m n) := by
    rw [← charsAt_add]
    congr 1
    omega
  rw [ssMemcmp_eq b c hbk hck]
  by_cases hzero : firstDiff (byteCodes (b.take (min m n * 2)))
      (byteCodes (c.take (min m n * 2))) = 0
  · rw [if_pos hzero]
    rw [firstDiff_eq_zero_iff, apart_iff_ne hbyte, not_not] at hzero
    rw [hzero, lexOrder_self, lexOrder_eq_eq_iff] at horder
    refine .inr ⟨?_, by rw [length_charsAt, length_charsAt]⟩
    rw [not_apart_iff, hm, hn, horder]
    rcases Nat.le_total m n with hle | hle
    · rw [Nat.min_eq_left hle, Nat.sub_self, charsAt, List.append_nil]
      exact .inl (List.prefix_append _ _)
    · rw [Nat.min_eq_right hle, Nat.sub_self, charsAt, List.append_nil]
      exact .inr (List.prefix_append _ _)
  · rw [if_neg hzero]
    have hsign := signOf_firstDiff hzero
    rw [firstDiff_eq_zero_iff, apart_iff_ne hbyte, not_not, ne_eq, ← lexOrder_eq_eq_iff,
      ← horder, lexOrder_eq_eq_iff, ← ne_eq, ← apart_iff_ne hlen] at hzero
    have hsmall := natAbs_firstDiff_lt (byteCodes_lt (b.take (min m n * 2)))
      (byteCodes_lt (c.take (min m n * 2)))
    refine .inl ⟨?_, ?_, hsmall⟩
    · rw [hm, hn]
      exact hzero.append _ _
    · rw [hsign, ← horder, hm, hn, hzero.lexOrder_append]

theorem take_data (h : v.isWhole = true) : v.data.take v.full.length = v.full := by
  rw [data_of_whole v h, List.take_left]

theorem length_le_data (h : v.isWhole = true) : v.full.length + 1 ≤ v.data.length := by
  rw [data_of_whole v h, List.length_append, List.length_cons]
  omega

theorem content_of_char (hdt : v.sqldt.datatype = .char) : v.content = byteCodes v.full := by
  unfold content
  rw [hdt]

theorem content_of_unicode (h : v.isWhole = true) (hdt : v.sqldt.datatype = .unicode) :
    v.content = charsAt v.data (v.full.length / 2) := by
  unfold content
  rw [hdt, data_of_whole v h, charsAt_append _ _ (by omega)]

theorem trimLen1_data (h : v.isWhole = true) (hdt : v.sqldt.datatype = .char)
    (hfix : v.fixed w = true) :
    trimLen1 v.data v.full.length ≤ v.full.length ∧
      byteCodes (v.data.take (trimLen1 v.data v.full.length)) = v.compared w := by
  have hle := length_le_data h
  have hspec := trimLen1_spec v.data (n := v.full.length) (by omega)
  rw [take_data h] at hspec
  rw [compared, if_pos hfix, content_of_char hdt]
  exact hspec

theorem trimLen2_data (h : v.isWhole = true) (hdt : v.sqldt.datatype = .unicode)
    (hfix : v.fixed w = true) :
    trimLen2 v.data (v.full.length / 2) ≤ v.full.length / 2 ∧
      charsAt v.data (trimLen2 v.data (v.full.length / 2)) = v.compared w := by
  have hspec := trimLen2_spec v.data (v.full.length / 2)
  rw [compared, if_pos hfix, content_of_unicode h hdt]
  exact hspec

theorem fixed_comm (v w : CharValue) : v.fixed w = w.fixed v := by
  unfold fixed
  rw [Bool.eq_iff_iff, decide_eq_true_iff, decide_eq_true_iff]
  tauto

theorem vaCompare_byLoop (hv : v.isWhole = true) (hw : w.isWhole = true) :
    ByLoop (byteCodes v.full ++ [0]) (byteCodes w.full ++ [0]) (vaCompare v.va w.va) := by
  have htake : ∀ u : CharValue, u.isWhole = true →
      byteCodes (u.data.take (u.full.length + 1)) = byteCodes u.full ++ [0] := by
    intro u hu
    have happ : u.full ++ 0 :: u.behind = (u.full ++ [0]) ++ u.behind := by
      rw [List.append_assoc]
      rfl
    rw [data_of_whole u hu, happ, List.take_left' (by simp), byteCodes_append]
    rfl
  have hloop := byLoop_ssMemcmp v.data w.data (length_le_data hv) (length_le_data hw)
  rw [htake v hv, htake w hw] at hloop
  rw [vaCompare, vaGetdata_va, vaGetdata_va, dataLen_of_whole v hv, dataLen_of_whole w hw]
  exact hloop

theorem chrVChr_byLoop (hv : v.isWhole = true) (hw : w.isWhole = true)
    (hdtv : v.sqldt.datatype = .char) (hdtw : w.sqldt.datatype = .char) :
    ∃ r, chrVChr v.sqldt v.va w.sqldt w.va = .ok r ∧
      ByLoop (v.wholeParts w).1 (v.wholeParts w).2 r := by
  have hfix : v.sqldt = .char ∨ w.sqldt = .char ↔ v.fixed w = true := by
    unfold fixed
    rw [decide_eq_true_iff]
    have hnv : v.sqldt ≠ .wchar := fun e => by rw [e] at hdtv; cases hdtv
    have hnw : w.sqldt ≠ .wchar := fun e => by rw [e] at hdtw; cases hdtw
    tauto
  rw [chrVChr, vaTestblob_va, vaTestblob_va, hv, hw, if_neg (by decide), wholeParts]
  simp only [hfix]
  by_cases h : v.fixed w = true
  · have htv := trimLen1_data hv hdtv h
    have htw := trimLen1_data hw hdtw (w := v) (by rwa [fixed_comm])
    have hlv := length_le_data hv
    have hlw := length_le_data hw
    have hloop := byLoop_ssMemcmp v.data w.data (htv.1.trans (by omega)) (htw.1.trans (by omega))
    rw [htv.2, htw.2] at hloop
    rw [if_pos h, if_pos h]
    simp only [vaGetdata_va, dataLen_of_whole v hv, dataLen_of_whole w hw, Nat.add_sub_cancel]
    refine ⟨_, rfl, ?_⟩
    have hzero : (if min (trimLen1 v.data v.full.length) (trimLen1 w.data w.full.length) ≠ 0 then
          ssMemcmp v.data w.data
            (min (trimLen1 v.data v.full.length) (trimLen1 w.data w.full.length))
        else 0) = ssMemcmp v.data w.data
          (min (trimLen1 v.data v.full.length) (trimLen1 w.data w.full.length)) := by
      split
      · rfl
      · rename_i hmin
        rw [not_not.mp hmin]
        rfl
    rw [hzero]
    exact hloop
  · rw [if_neg h, if_neg h, hdtv, hdtw, if_pos rfl]
    exact ⟨_, rfl, vaCompare_byLoop hv hw⟩

theorem chrVUni_byLoop (hv : v.isWhole = true) (hw : w.isWhole = true)
    (hdtv : v.sqldt.datatype = .char) (hdtw : w.sqldt.datatype = .unicode) :
    ∃ r, chrVUni v.sqldt v.va w.sqldt w.va = .ok r ∧
      ByLoop (v.wholeParts w).1 (v.wholeParts w).2 r := by
  have hfix : v.sqldt = .char ∨ w.sqldt = .wchar ↔ v.fixed w = true := by
    unfold fixed
    rw [decide_eq_true_iff]
    have hnv : v.sqldt ≠ .wchar := fun e => by rw [e] at hdtv; cases hdtv
    have hnw : w.sqldt ≠ .char := fun e => by rw [e] at hdtw; cases hdtw
    tauto
  have heven := w.even hdtw
  have hhalf : (w.full.length + 1) / 2 = w.full.length / 2 := by omega
  have hlv := length_le_data hv
  rw [chrVUni, vaTestblob_va, vaTestblob_va, hv, hw, if_neg (by decide), wholeParts]
  simp only [hfix]
  by_cases h : v.fixed w = true
  · have htv := trimLen1_data hv hdtv h
    have htw := trimLen2_data hw hdtw (w := v) (by rwa [fixed_comm])
    have hloop := byLoop_avalCmp v.data w.data (trimLen2 w.data (w.full.length / 2))
      (htv.1.trans (by omega))
    rw [htv.2, htw.2] at hloop
    rw [if_pos h, if_pos h]
    simp only [vaGetdata_va, dataLen_of_whole v hv, dataLen_of_whole w hw, Nat.add_sub_cancel,
      hhalf]
    refine ⟨_, rfl, ?_⟩
    rw [ite_not]
    exact hloop
  · have hloop := byLoop_avalCmp v.data w.data (w.full.length / 2) (m := v.full.length) (by omega)
    rw [take_data hv, ← content_of_char hdtv, ← content_of_unicode hw hdtw] at hloop
    rw [if_neg h, if_neg h, hdtv, hdtw, if_neg (by decide)]
    refine ⟨_, rfl, ?_⟩
    rw [vaCompareChar1v2, vaGetdata_va, vaGetdata_va, dataLen_of_whole v hv,
      dataLen_of_whole w hw]
    simp only [Nat.add_sub_cancel, hhalf]
    rw [if_neg (by omega), ite_not]
    exact hloop

theorem uniVUni_byLoop (hv : v.isWhole = true) (hw : w.isWhole = true)
    (hdtv : v.sqldt.datatype = .unicode) (hdtw : w.sqldt.datatype = .unicode) :
    ∃ r, uniVUni v.sqldt v.va w.sqldt w.va = .ok r ∧
      ByLoop (v.wholeParts w).1 (v.wholeParts w).2 r := by
  have hfix : v.sqldt = .wchar ∨ w.sqldt = .wchar ↔ v.fixed w = true := by
    unfold fixed
    rw [decide_eq_true_iff]
    have hnv : v.sqldt ≠ .char := fun e => by rw [e] at hdtv; cases hdtv
    have hnw : w.sqldt ≠ .char := fun e => by rw [e] at hdtw; cases hdtw
    tauto
  have hev := v.even hdtv
  have hew := w.even hdtw
  have hhv : (v.full.length + 1) / 2 = v.full.length / 2 := by omega
  have hhw : (w.full.length + 1) / 2 = w.full.length / 2 := by omega
  have hlv := length_le_data hv
  have hlw := length_le_data hw
  rw [uniVUni, vaTestblob_va, vaTestblob_va, hv, hw, if_neg (by decide), wholeParts]
  simp only [hfix]
  by_cases h : v.fixed w = true
  · have htv := trimLen2_data hv hdtv h
    have htw := trimLen2_data hw hdtw (w := v) (by rwa [fixed_comm])
    have hloop := byLoop_ssMemcmp_charsAt v.data w.data
      (show 2 * trimLen2 v.data (v.full.length / 2) ≤ v.data.length by omega)
      (show 2 * trimLen2 w.data (w.full.length / 2) ≤ w.data.length by omega)
    rw [htv.2, htw.2] at hloop
    rw [if_pos h, if_pos h]
    simp only [vaGetdata_va, dataLen_of_whole v hv, dataLen_of_whole w hw, hhv, hhw]
    exact ⟨_, rfl, hloop⟩
  · rw [if_neg h, if_neg h, hdtv, hdtw, if_pos rfl]
    exact ⟨_, rfl, vaCompare_byLoop hv hw⟩

theorem wholeParts_swap (v w : CharValue) :
    v.wholeParts w = ((w.wholeParts v).2, (w.wholeParts v).1) := by
  unfold wholeParts
  rw [fixed_comm v w]
  by_cases h : w.fixed v = true
  · rw [if_pos h, if_pos h]
  · rw [if_neg h, if_neg h]
    by_cases hdt : v.sqldt.datatype = w.sqldt.datatype
    · rw [if_pos hdt, if_pos hdt.symm]
    · rw [if_neg hdt, if_neg (Ne.symm hdt)]

theorem rsAvalCmp3_byLoop (hv : v.isWhole = true) (hw : w.isWhole = true) :
    ∃ r, rsAvalCmp3 v.sqldt v.va w.sqldt w.va = .ok r ∧
      ByLoop (v.wholeParts w).1 (v.wholeParts w).2 r := by
  unfold rsAvalCmp3
  cases hdtv : v.sqldt.datatype with
  | char =>
      cases hdtw : w.sqldt.datatype with
      | char => exact chrVChr_byLoop hv hw hdtv hdtw
      | unicode => exact chrVUni_byLoop hv hw hdtv hdtw
  | unicode =>
      cases hdtw : w.sqldt.datatype with
      | char =>
          obtain ⟨r, heq, hloop⟩ := chrVUni_byLoop hw hv hdtw hdtv
          simp only
          rw [heq, wholeParts_swap]
          exact ⟨_, rfl, hloop.neg⟩
      | unicode => exact uniVUni_byLoop hv hw hdtv hdtw

end CharValue

end SolidDB
