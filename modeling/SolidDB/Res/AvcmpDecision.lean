import SolidDB.Res.Avcmp

/-!
# What the comparison of character values decides

Two complete values are told apart by the first difference of what is compared, or by the
difference of its lengths. With a blob reference among them the comparison is a decision by
the parts that are taken for content.
-/

namespace SolidDB

open LexDecision

/-! ## Results -/

/-- The result of a comparison of complete strings: the first difference, or the difference
of the lengths as it is returned. -/
def ByLoop (x y : List ℕ) (r : ℤ) : Prop :=
  (Apart x y ∧ signOf r = lexOrder x y ∧ r.natAbs < 65536) ∨
    (¬ Apart x y ∧ r = toInt32 ((x.length : ℤ) - y.length))

/-- The result of a comparison of parts: a decision, or the error. -/
def Reports (whole₁ whole₂ : Bool) (x y : List ℕ) (res : Except RsErr ℤ) : Prop :=
  (∃ r, res = .ok r ∧ LexDecision.Decides whole₁ whole₂ x y (signOf r) ∧ r.natAbs < 65536) ∨
    (res = .error .cmpfailedduetoblob ∧ ∀ o, ¬ LexDecision.Decides whole₁ whole₂ x y o)

/-- The length difference is one of an `int`. -/
def LengthsTold (x y : List ℕ) : Prop :=
  ¬ Apart x y → -2 ^ 31 ≤ (x.length : ℤ) - y.length ∧ (x.length : ℤ) - y.length < 2 ^ 31

variable {x y : List ℕ} {r : ℤ} {whole₁ whole₂ : Bool} {res : Except RsErr ℤ}

theorem signOf_neg (r : ℤ) : signOf (-r) = (signOf r).swap := by
  rcases lt_trichotomy r 0 with h | h | h
  · rw [signOf_of_neg h, signOf_of_pos (by omega)]
    rfl
  · rw [h]
    rfl
  · rw [signOf_of_pos h, signOf_of_neg (by omega)]
    rfl

theorem toInt32_neg_of_small (h : r.natAbs < 65536) : toInt32 (-r) = -r :=
  toInt32_of_abs_lt (by omega) (by omega)

theorem toInt32_neg_toInt32 (d : ℤ) : toInt32 (-(toInt32 d)) = toInt32 (-d) := by
  unfold toInt32
  rw [← Int.zero_sub, Int.sub_bmod_bmod, Int.zero_sub]

/-- The sign of a length difference is right exactly where it is one of an `int`. -/
theorem signOf_toInt32_iff {m n : ℕ} (hm : m < 2 ^ 32) (hn : n < 2 ^ 32) :
    signOf (toInt32 ((m : ℤ) - n)) = cmp m n ↔
      -2 ^ 31 ≤ (m : ℤ) - n ∧ (m : ℤ) - n < 2 ^ 31 := by
  constructor
  · intro h
    by_contra hrange
    rcases Int.lt_or_le ((m : ℤ) - n) (-2 ^ 31) with hlow | hlow
    · have hval : toInt32 ((m : ℤ) - n) = (m : ℤ) - n + 2 ^ 32 := by
        unfold toInt32
        rw [Int.bmod_def]
        omega
      rw [hval, signOf_of_pos (by omega), (cmp_eq_lt_iff m n).mpr (by omega)] at h
      cases h
    · have hval : toInt32 ((m : ℤ) - n) = (m : ℤ) - n - 2 ^ 32 := by
        unfold toInt32
        rw [Int.bmod_def]
        omega
      rw [hval, signOf_of_neg (by omega), (cmp_eq_gt_iff m n).mpr (by omega)] at h
      cases h
  · rintro ⟨hlow, hhigh⟩
    rw [toInt32_of_abs_lt hlow hhigh]
    rcases lt_trichotomy m n with h | h | h
    · rw [(cmp_eq_lt_iff m n).mpr h, signOf_of_neg (by omega)]
    · rw [h, cmp_self_eq_eq, Int.sub_self, signOf_zero]
    · rw [(cmp_eq_gt_iff m n).mpr h, signOf_of_pos (by omega)]

theorem ByLoop.signOf_iff (h : ByLoop x y r) (hx : x.length < 2 ^ 32) (hy : y.length < 2 ^ 32) :
    signOf r = lexOrder x y ↔ LengthsTold x y := by
  rcases h with ⟨hapart, hsign, -⟩ | ⟨hapart, rfl⟩
  · exact iff_of_true hsign fun hn => absurd hapart hn
  · rw [lexOrder_of_not_apart hapart, signOf_toInt32_iff hx hy]
    exact ⟨fun hr _ => hr, fun hr => hr hapart⟩

theorem ByLoop.neg (h : ByLoop x y r) : ByLoop y x (toInt32 (-r)) := by
  rcases h with ⟨hapart, hsign, hsmall⟩ | ⟨hapart, rfl⟩
  · rw [toInt32_neg_of_small hsmall]
    exact .inl ⟨hapart.symm, by rw [signOf_neg, hsign, swap_lexOrder], by omega⟩
  · refine .inr ⟨fun hc => hapart hc.symm, ?_⟩
    rw [toInt32_neg_toInt32, Int.neg_sub]

theorem decides_swap_iff {o : Ordering} :
    LexDecision.Decides whole₁ whole₂ x y o ↔ LexDecision.Decides whole₂ whole₁ y x o.swap := by
  refine ⟨LexDecision.Decides.swap, fun h => ?_⟩
  have hswap := h.swap
  rwa [Ordering.swap_swap] at hswap

theorem Reports.neg (h : Reports whole₁ whole₂ x y res) :
    Reports whole₂ whole₁ y x (res.map fun r => toInt32 (-r)) := by
  rcases h with ⟨r, rfl, hdec, hsmall⟩ | ⟨rfl, hnone⟩
  · refine .inl ⟨-r, ?_, ?_, by omega⟩
    · rw [Except.map, toInt32_neg_of_small hsmall]
    · rw [signOf_neg]
      exact hdec.swap
  · exact .inr ⟨rfl, fun o ho => hnone _ (decides_swap_iff.mp ho)⟩

/-! ## First differences -/

theorem natAbs_firstDiff_lt (hx : ∀ a ∈ x, a < 65536) (hy : ∀ b ∈ y, b < 65536) :
    (firstDiff x y).natAbs < 65536 := by
  induction x generalizing y with
  | nil => cases y <;> exact Nat.zero_lt_succ _
  | cons a x ih =>
      cases y with
      | nil => exact Nat.zero_lt_succ _
      | cons b y =>
          rw [firstDiff]
          have ha := hx a List.mem_cons_self
          have hb := hy b List.mem_cons_self
          split
          · omega
          · exact ih (fun a h => hx a (List.mem_cons_of_mem _ h))
              fun b h => hy b (List.mem_cons_of_mem _ h)

theorem byteCodes_lt (b : List UInt8) : ∀ a ∈ byteCodes b, a < 65536 := by
  intro a ha
  obtain ⟨c, -, rfl⟩ := List.mem_map.mp ha
  exact c.toNat_lt.trans (by decide)

theorem charsAt_lt (p : List UInt8) (n : ℕ) : ∀ a ∈ charsAt p n, a < 65536 := by
  induction n generalizing p with
  | zero => exact fun a h => absurd h List.not_mem_nil
  | succ n ih =>
      intro a ha
      rcases List.mem_cons.mp ha with rfl | ha
      · exact ssChar2LoadMsb1st_lt _
      · exact ih _ a ha

theorem signOf_firstDiff (h : firstDiff x y ≠ 0) : signOf (firstDiff x y) = lexOrder x y := by
  rcases lexOrder_of_firstDiff h with ⟨hneg, heq⟩ | ⟨hpos, heq⟩
  · rw [signOf_of_neg hneg, heq]
  · rw [signOf_of_pos hpos, heq]

/-- The first difference, or the difference of the lengths where there is none. -/
theorem byLoop_firstDiff (hx : ∀ a ∈ x, a < 65536) (hy : ∀ b ∈ y, b < 65536) :
    ByLoop x y (if firstDiff x y = 0 then toInt32 ((x.length : ℤ) - y.length)
      else firstDiff x y) := by
  by_cases h : firstDiff x y = 0
  · rw [if_pos h]
    exact .inr ⟨(firstDiff_eq_zero_iff x y).mp h, rfl⟩
  · rw [if_neg h]
    have hapart : Apart x y := by
      by_contra hn
      exact h ((firstDiff_eq_zero_iff x y).mpr hn)
    exact .inl ⟨hapart, signOf_firstDiff h, natAbs_firstDiff_lt hx hy⟩

def blobResult (v1Isblob v2Isblob : Bool) (comp : ℤ) (len1 len2 : ℕ) : Except RsErr ℤ :=
  if comp ≠ 0 then .ok comp
  else if v1Isblob then
    if !v2Isblob ∧ min len1 len2 = len2 then .ok 1 else .error .cmpfailedduetoblob
  else
    if min len1 len2 = len1 then .ok (-1) else .error .cmpfailedduetoblob

theorem blobResult_reports {v1Isblob v2Isblob : Bool} (hblob : (v1Isblob || v2Isblob) = true)
    (hx : ∀ a ∈ x, a < 65536) (hy : ∀ b ∈ y, b < 65536) :
    Reports (!v1Isblob) (!v2Isblob) x y
      (blobResult v1Isblob v2Isblob (firstDiff x y) x.length y.length) := by
  unfold blobResult
  by_cases h : firstDiff x y = 0
  case neg =>
    rw [if_pos h]
    have hapart : Apart x y := by
      by_contra hn
      exact h ((firstDiff_eq_zero_iff x y).mpr hn)
    exact .inl ⟨_, rfl, .inl ⟨hapart, (signOf_firstDiff h).symm⟩, natAbs_firstDiff_lt hx hy⟩
  case pos =>
    rw [if_neg (not_not_intro h)]
    have hapart := (firstDiff_eq_zero_iff x y).mp h
    have hpre := not_apart_iff.mp hapart
    -- without a difference only the end of a whole string decides
    cases v1Isblob with
    | true =>
        rw [if_pos rfl]
        by_cases hend : !v2Isblob ∧ min x.length y.length = y.length
        · have hle : y.length ≤ x.length := by omega
          have hyx : y <+: x := by
            rcases hpre with hxy | hyx
            · rw [hxy.eq_of_length_le hle]
            · exact hyx
          rw [if_pos hend]
          exact .inl ⟨1, rfl, .inr (.inr ⟨rfl, hend.1, hyx, rfl⟩), by decide⟩
        · rw [if_neg hend]
          refine .inr ⟨rfl, fun o ho => ?_⟩
          rcases ho with ⟨ha, -⟩ | ⟨hf, -⟩ | ⟨-, hw, hyx, -⟩
          · exact hapart ha
          · exact absurd hf (by decide)
          · exact hend ⟨hw, Nat.min_eq_right hyx.length_le⟩
    | false =>
        obtain rfl : v2Isblob = true := by simpa using hblob
        rw [if_neg (by decide)]
        by_cases hend : min x.length y.length = x.length
        · have hle : x.length ≤ y.length := by omega
          have hxy : x <+: y := by
            rcases hpre with hxy | hyx
            · exact hxy
            · rw [hyx.eq_of_length_le hle]
          rw [if_pos hend]
          exact .inl ⟨-1, rfl, .inr (.inl ⟨rfl, rfl, hxy, rfl⟩), by decide⟩
        · rw [if_neg hend]
          refine .inr ⟨rfl, fun o ho => ?_⟩
          rcases ho with ⟨ha, -⟩ | ⟨-, -, hxy, -⟩ | ⟨hf, -⟩
          · exact hapart ha
          · exact hend (Nat.min_eq_left hxy.length_le)
          · exact absurd hf (by decide)

/-! ## The attributes of values -/

namespace CharValue

variable (v w : CharValue)

def dataLen : ℕ :=
  match v.store with
  | .complete .. => v.full.length + 1
  | .blobref carried ref _ _ _ _ => carried.length + ref.length

theorem vaGetdata_va : vaGetdata v.va = (v.data, v.dataLen) := by
  unfold va data dataLen
  cases v.store with
  | complete len hlen hmark => exact hlen.vaGetdata _
  | blobref carried ref hcarried hlt href hfit =>
      exact (LenCode.fourByte 0xFF (by decide) hfit).vaGetdata _

theorem vaTestblob_va : vaTestblob v.va = !v.isWhole := by
  unfold va isWhole
  cases v.store with
  | complete len hlen hmark =>
      obtain ⟨c, len, rfl⟩ := List.exists_cons_of_ne_nil hlen.ne_nil
      exact decide_eq_false hmark
  | blobref carried ref hcarried hlt href hfit => rfl

theorem dataLen_lt : v.dataLen < 2 ^ 32 := by
  unfold dataLen
  cases v.store with
  | complete len hlen hmark => exact hlen.lt
  | blobref carried ref hcarried hlt href hfit => exact hfit

variable {v} in
theorem exists_complete (h : v.isWhole = true) :
    ∃ len hlen hmark, v.store = .complete len hlen hmark := by
  unfold isWhole at h
  split at h
  · rename_i len hlen hmark heq
    exact ⟨len, hlen, hmark, heq⟩
  · cases h

variable {v} in
theorem exists_blobref (h : v.isWhole = false) :
    ∃ carried ref hcarried hlt href hfit,
      v.store = .blobref carried ref hcarried hlt href hfit := by
  unfold isWhole at h
  split at h
  · cases h
  · rename_i carried ref hcarried hlt href hfit heq
    exact ⟨carried, ref, hcarried, hlt, href, hfit, heq⟩

theorem dataLen_of_whole (h : v.isWhole = true) : v.dataLen = v.full.length + 1 := by
  obtain ⟨len, hlen, hmark, heq⟩ := exists_complete h
  simp only [dataLen, heq]

theorem shownLen_of_whole (h : v.isWhole = true) : v.shownLen = v.full.length := by
  obtain ⟨len, hlen, hmark, heq⟩ := exists_complete h
  simp only [shownLen, heq]

theorem shownLen_of_blob (h : v.isWhole = false) : v.shownLen = v.dataLen - rsVablobrefSize := by
  obtain ⟨carried, ref, hcarried, hlt, href, hfit, heq⟩ := exists_blobref h
  simp only [shownLen, dataLen, heq]

theorem data_of_whole (h : v.isWhole = true) : v.data = v.full ++ 0 :: v.behind := by
  obtain ⟨len, hlen, hmark, heq⟩ := exists_complete h
  simp only [data, heq]

theorem shown_of_whole (h : v.isWhole = true) : v.shown = v.full := by
  rw [shown, shownLen_of_whole v h, data_of_whole v h, List.take_left]

theorem dataLen_le : v.dataLen ≤ v.data.length := by
  unfold dataLen data
  cases v.store with
  | complete len hlen hmark =>
      simp only [List.length_append, List.length_cons]
      omega
  | blobref carried ref hcarried hlt href hfit =>
      simp only [List.length_append]
      omega

theorem shownLen_le : v.shownLen ≤ v.data.length := by
  have hle := v.dataLen_le
  cases h : v.isWhole with
  | true =>
      have hd := v.dataLen_of_whole h
      rw [v.shownLen_of_whole h]
      omega
  | false =>
      rw [v.shownLen_of_blob h]
      omega

@[simp] theorem length_shown : v.shown.length = v.shownLen :=
  List.length_take_of_le v.shownLen_le

end CharValue

end SolidDB
