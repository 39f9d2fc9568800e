import SolidDB.Res.AvcmpValues

/-!
# When character values are compared right

The reference comparison looks at the complete contents, without their trailing spaces where
one of the types is CHAR or WCHAR. Complete values are compared so; with a blob reference
among them the spaces are kept, and where the carried parts leave the order open, bytes
behind them are sometimes taken for content.
-/

namespace SolidDB

open LexDecision

namespace CharValue

variable {v w : CharValue} {o : Ordering}

/-- The beginning of the content that is stored with the value. -/
def carried (v : CharValue) : List UInt8 :=
  match v.store with
  | .complete .. => v.full
  | .blobref carried .. => carried

def carriedParts (v w : CharValue) : List ℕ × List ℕ :=
  match v.sqldt.datatype, w.sqldt.datatype with
  | .char, .unicode => (byteCodes v.carried, charsAt w.carried (w.carried.length / 2))
  | .unicode, .char => (charsAt v.carried (v.carried.length / 2), byteCodes w.carried)
  | _, _ => (byteCodes v.carried, byteCodes w.carried)

/-- The carried parts leave the order open, and the bytes behind one of them decide it. -/
def DecidedBehind (v w : CharValue) : Prop :=
  (v.isWhole && w.isWhole) = false ∧
    (∀ o, ¬ LexDecision.Decides v.isWhole w.isWhole (v.carriedParts w).1 (v.carriedParts w).2 o) ∧
      ∃ o, LexDecision.Decides v.isWhole w.isWhole (v.parts w).1 (v.parts w).2 o

/-- Complete values whose lengths do not tell them apart wrongly; or carried parts that
leave the order open, or tell it of contents whose trailing spaces do not matter. -/
def TellsRight (v w : CharValue) : Prop :=
  if v.isWhole && w.isWhole then
    LengthsTold (v.wholeParts w).1 (v.wholeParts w).2
  else
    ∀ o, LexDecision.Decides v.isWhole w.isWhole (v.carriedParts w).1 (v.carriedParts w).2 o →
      lexOrder v.content w.content = v.refOrder w

def RightWhen (v w : CharValue) : Prop := ¬ v.DecidedBehind w ∧ v.TellsRight w

/-- `rs_aval_cmp3` on two values. -/
def cmp3 (v w : CharValue) : Except RsErr ℤ := rsAvalCmp3 v.sqldt v.va w.sqldt w.va

/-- Where the comparison succeeds it is that of the contents, also for the exchanged values. -/
structure ComparesRight (v w : CharValue) : Prop where
  order : ∀ r, v.cmp3 w = .ok r → signOf r = v.refOrder w
  exchanged : ∀ r, w.cmp3 v = .ok r → signOf r = w.refOrder v
  antisymm : ∀ r, v.cmp3 w = .ok r → ∃ r', w.cmp3 v = .ok r' ∧ signOf r' = (signOf r).swap

/-- The Unicode value has the characters of the 8-bit value, in a type of the same kind. -/
structure SameCharacters (v v' : CharValue) : Prop where
  char : v.sqldt.datatype = .char
  unicode : v'.sqldt.datatype = .unicode
  content : v'.content = v.content
  kind : v'.sqldt = .wchar ↔ v.sqldt = .char

/-! ## Complete values -/

theorem length_full_lt (h : v.isWhole = true) : v.full.length + 1 < 2 ^ 32 := by
  rw [← dataLen_of_whole v h]
  exact v.dataLen_lt

theorem length_content_le (v : CharValue) : v.content.length ≤ v.full.length := by
  unfold content
  split
  · rw [length_byteCodes]
  · rw [length_charsAt]
    omega

theorem length_compared_le (v w : CharValue) : (v.compared w).length ≤ v.full.length := by
  unfold compared
  split
  · exact (List.rdropWhile_prefix _ _).length_le.trans v.length_content_le
  · exact v.length_content_le

theorem refOrder_of_not_fixed (h : v.fixed w = false) :
    v.refOrder w = lexOrder v.content w.content := by
  have h' : w.fixed v = false := by rwa [fixed_comm]
  unfold refOrder compared
  rw [h, h']
  rfl

theorem lexOrder_content (hdt : v.sqldt.datatype = w.sqldt.datatype) :
    lexOrder v.content w.content = lexOrder (byteCodes v.full) (byteCodes w.full) := by
  cases hv : v.sqldt.datatype with
  | char => rw [content_of_char hv, content_of_char (hdt ▸ hv)]
  | unicode =>
      have hw : w.sqldt.datatype = .unicode := hdt ▸ hv
      unfold content
      rw [hv, hw]
      exact lexOrder_charsAt v.full w.full (v.even hv) (w.even hw)

theorem lexOrder_wholeParts (v w : CharValue) :
    lexOrder (v.wholeParts w).1 (v.wholeParts w).2 = v.refOrder w := by
  unfold wholeParts
  by_cases hfix : v.fixed w = true
  · rw [if_pos hfix]
    rfl
  · rw [if_neg hfix, refOrder_of_not_fixed (by simpa using hfix)]
    by_cases hdt : v.sqldt.datatype = w.sqldt.datatype
    · rw [if_pos hdt, lexOrder_content hdt]
      exact lexOrder_append_zero _ _
    · rw [if_neg hdt]

theorem length_wholeParts_lt (hv : v.isWhole = true) (hw : w.isWhole = true) :
    (v.wholeParts w).1.length < 2 ^ 32 ∧ (v.wholeParts w).2.length < 2 ^ 32 := by
  have hlv := length_full_lt hv
  have hlw := length_full_lt hw
  unfold wholeParts
  by_cases hfix : v.fixed w = true
  · have hcv := v.length_compared_le w
    have hcw := w.length_compared_le v
    rw [if_pos hfix]
    exact ⟨by simp only; omega, by simp only; omega⟩
  · rw [if_neg hfix]
    by_cases hdt : v.sqldt.datatype = w.sqldt.datatype
    · rw [if_pos hdt]
      simp only [List.length_append, length_byteCodes, List.length_singleton]
      exact ⟨hlv, hlw⟩
    · have hcv := v.length_content_le
      have hcw := w.length_content_le
      rw [if_neg hdt]
      exact ⟨by simp only; omega, by simp only; omega⟩

/-! ## Carried parts -/

theorem carried_of_whole (h : v.isWhole = true) : v.carried = v.full := by
  obtain ⟨len, hlen, hmark, heq⟩ := exists_complete h
  simp only [carried, heq]

theorem exists_behind (h : v.isWhole = false) :
    ∃ rest, v.data = v.carried ++ rest ∧ v.carried.length ≤ v.shownLen ∧
      v.carried <+: v.full ∧ v.carried.length < v.full.length := by
  obtain ⟨carried, ref, hcarried, hlt, href, hfit, heq⟩ := exists_blobref h
  have hsize : rsVablobrefSize ≤ ref.length := by
    rcases href with href | href <;> rw [href]
    decide
  refine ⟨ref ++ v.behind, ?_, ?_, ?_, ?_⟩
  · simp only [data, CharValue.carried, heq]
  · simp only [shownLen, CharValue.carried, heq]
    omega
  · simpa only [CharValue.carried, heq] using hcarried
  · simpa only [CharValue.carried, heq] using hlt

theorem isBeginning_carried (v : CharValue) :
    IsBeginning v.isWhole (byteCodes v.carried) (byteCodes v.full) := by
  cases h : v.isWhole with
  | true =>
      rw [carried_of_whole h]
      exact ⟨List.prefix_rfl, by simp⟩
  | false =>
      obtain ⟨rest, -, -, hcarried, hlt⟩ := exists_behind h
      refine ⟨hcarried.map UInt8.toNat, by simp, fun he => ?_⟩
      have hl := congrArg List.length he
      rw [length_byteCodes, length_byteCodes] at hl
      omega

theorem isBeginning_charsAt (hdt : v.sqldt.datatype = .unicode) :
    IsBeginning v.isWhole (charsAt v.carried (v.carried.length / 2)) v.content := by
  have hfull : v.content = charsAt v.full (v.full.length / 2) := by
    unfold content
    rw [hdt]
  rw [hfull]
  cases h : v.isWhole with
  | true =>
      rw [carried_of_whole h]
      exact ⟨List.prefix_rfl, by simp⟩
  | false =>
      obtain ⟨-, -, -, hcarried, hlt⟩ := exists_behind h
      have heven := v.even hdt
      obtain ⟨rest, hrest⟩ := hcarried
      have hsplit : charsAt v.full (v.full.length / 2) =
          charsAt v.carried (v.carried.length / 2) ++
            charsAt (v.full.drop (2 * (v.carried.length / 2)))
              (v.full.length / 2 - v.carried.length / 2) := by
        have hread : charsAt v.full (v.carried.length / 2) =
            charsAt v.carried (v.carried.length / 2) := by
          rw [← hrest, charsAt_append _ _ (by omega)]
        rw [← hread, ← charsAt_add]
        congr 1
        omega
      refine ⟨⟨_, hsplit.symm⟩, by simp, fun he => ?_⟩
      have hl := congrArg List.length (he.trans hsplit)
      rw [List.length_append, length_charsAt, length_charsAt] at hl
      omega

/-- The carried parts tell the order of the contents. -/
theorem lexOrder_content_of_decides
    (hdec : LexDecision.Decides v.isWhole w.isWhole (v.carriedParts w).1 (v.carriedParts w).2 o) :
    lexOrder v.content w.content = o := by
  unfold carriedParts at hdec
  cases hdtv : v.sqldt.datatype with
  | char =>
      cases hdtw : w.sqldt.datatype with
      | char =>
          simp only [hdtv, hdtw] at hdec
          rw [lexOrder_content (hdtv.trans hdtw.symm)]
          exact hdec.lexOrder_eq v.isBeginning_carried w.isBeginning_carried
      | unicode =>
          simp only [hdtv, hdtw] at hdec
          rw [content_of_char hdtv]
          exact hdec.lexOrder_eq v.isBeginning_carried (isBeginning_charsAt hdtw)
  | unicode =>
      cases hdtw : w.sqldt.datatype with
      | char =>
          simp only [hdtv, hdtw] at hdec
          rw [content_of_char hdtw]
          exact hdec.lexOrder_eq (isBeginning_charsAt hdtv) w.isBeginning_carried
      | unicode =>
          simp only [hdtv, hdtw] at hdec
          rw [lexOrder_content (hdtv.trans hdtw.symm)]
          exact hdec.lexOrder_eq v.isBeginning_carried w.isBeginning_carried

/-! ## What is read -/

theorem carried_isPrefix_shown (v : CharValue) :
    Extends v.isWhole (byteCodes v.carried) (byteCodes v.shown) := by
  cases h : v.isWhole with
  | true =>
      rw [carried_of_whole h, shown_of_whole v h]
      exact ⟨List.prefix_rfl, fun _ => rfl⟩
  | false =>
      obtain ⟨rest, hdata, hle, -, -⟩ := exists_behind h
      refine ⟨List.IsPrefix.map UInt8.toNat ?_, fun hf => by cases hf⟩
      have hpre : v.carried <+: v.data := hdata ▸ List.prefix_append _ _
      rw [shown, List.prefix_iff_eq_take.mp hpre]
      exact List.take_isPrefix_take.mpr (.inl hle)

theorem charsAt_isPrefix_charsAt (hdt : w.sqldt.datatype = .unicode) :
    Extends w.isWhole (charsAt w.carried (w.carried.length / 2))
      (charsAt w.data (v.uniCount w)) := by
  cases h : w.isWhole with
  | true =>
      have hcount : v.uniCount w = w.full.length / 2 := by
        rw [uniCount, if_neg (by simp [h]), w.shownLen_of_whole h]
      rw [carried_of_whole h, hcount, ← content_of_unicode h hdt]
      unfold content
      rw [hdt]
      exact ⟨List.prefix_rfl, fun _ => rfl⟩
  | false =>
      obtain ⟨rest, hdata, hle, -, -⟩ := exists_behind h
      have hcount : w.carried.length / 2 ≤ v.uniCount w := by
        unfold uniCount
        split <;> omega
      refine ⟨?_, fun hf => by cases hf⟩
      rw [← charsAt_append w.carried rest (by omega), ← hdata, ← Nat.add_sub_cancel' hcount,
        charsAt_add]
      exact List.prefix_append _ _

/-- What the carried parts decide is decided by what is read. -/
theorem decides_parts
    (hdec : LexDecision.Decides v.isWhole w.isWhole (v.carriedParts w).1 (v.carriedParts w).2 o) :
    LexDecision.Decides v.isWhole w.isWhole (v.parts w).1 (v.parts w).2 o := by
  unfold carriedParts at hdec
  unfold parts
  cases hdtv : v.sqldt.datatype with
  | char =>
      cases hdtw : w.sqldt.datatype with
      | char =>
          simp only [hdtv, hdtw] at hdec ⊢
          exact hdec.extends v.carried_isPrefix_shown w.carried_isPrefix_shown
      | unicode =>
          simp only [hdtv, hdtw] at hdec ⊢
          exact hdec.extends v.carried_isPrefix_shown (charsAt_isPrefix_charsAt hdtw)
  | unicode =>
      cases hdtw : w.sqldt.datatype with
      | char =>
          simp only [hdtv, hdtw] at hdec ⊢
          exact hdec.extends (charsAt_isPrefix_charsAt hdtv) w.carried_isPrefix_shown
      | unicode =>
          simp only [hdtv, hdtw] at hdec ⊢
          exact hdec.extends v.carried_isPrefix_shown w.carried_isPrefix_shown

/-! ## When the comparison is right -/

theorem order_iff (h : ¬ v.DecidedBehind w) :
    (∀ r, v.cmp3 w = .ok r → signOf r = v.refOrder w) ↔ v.TellsRight w := by
  unfold TellsRight cmp3
  by_cases hwhole : (v.isWhole && w.isWhole) = true
  · obtain ⟨hv, hw⟩ := Bool.and_eq_true_iff.mp hwhole
    obtain ⟨r, heq, hloop⟩ := rsAvalCmp3_byLoop hv hw
    obtain ⟨hlv, hlw⟩ := length_wholeParts_lt hv hw
    rw [if_pos hwhole, ← hloop.signOf_iff hlv hlw, lexOrder_wholeParts, heq]
    constructor
    · exact fun h => h r rfl
    · rintro h r' hr'
      cases hr'
      exact h
  · have hblob : (!v.isWhole || !w.isWhole) = true := by
      rw [← Bool.not_and, Bool.not_eq_true']
      simpa using hwhole
    rw [if_neg hwhole]
    rcases rsAvalCmp3_reports v w hblob with ⟨r, heq, hdec, -⟩ | ⟨heq, hnone⟩
    · -- the result is decided by the carried parts, which tell the order of the contents
      obtain ⟨o, hcarried⟩ : ∃ o, LexDecision.Decides v.isWhole w.isWhole
          (v.carriedParts w).1 (v.carriedParts w).2 o := by
        by_contra hnone
        push Not at hnone
        exact h ⟨by simpa using hwhole, hnone, _, hdec⟩
      obtain rfl := (decides_parts hcarried).unique hdec
      have hcontent := lexOrder_content_of_decides hcarried
      rw [heq]
      constructor
      · exact fun hr o' _ => hcontent.trans (hr r rfl)
      · rintro hr r' hr'
        cases hr'
        exact hcontent.symm.trans (hr _ hcarried)
    · rw [heq]
      exact iff_of_true (fun r hr => by cases hr)
        fun o ho => absurd (decides_parts ho) (hnone o)

theorem parts_swap (v w : CharValue) : w.parts v = ((v.parts w).2, (v.parts w).1) := by
  unfold parts
  cases v.sqldt.datatype <;> cases w.sqldt.datatype <;> rfl

theorem carriedParts_swap (v w : CharValue) :
    w.carriedParts v = ((v.carriedParts w).2, (v.carriedParts w).1) := by
  unfold carriedParts
  cases v.sqldt.datatype <;> cases w.sqldt.datatype <;> rfl

theorem DecidedBehind.swap (h : v.DecidedBehind w) : w.DecidedBehind v := by
  obtain ⟨hwhole, hnone, o, ho⟩ := h
  refine ⟨by rwa [Bool.and_comm], fun o' ho' => ?_, o.swap, ?_⟩
  · rw [carriedParts_swap] at ho'
    exact hnone _ ho'.swap
  · rw [parts_swap]
    exact ho.swap

theorem swap_refOrder (v w : CharValue) : (v.refOrder w).swap = w.refOrder v :=
  swap_lexOrder _ _

theorem cmp3_exchange {r : ℤ} (h : v.cmp3 w = .ok r) : ∃ r', w.cmp3 v = .ok r' := by
  by_cases hwhole : (v.isWhole && w.isWhole) = true
  · obtain ⟨hv, hw⟩ := Bool.and_eq_true_iff.mp hwhole
    obtain ⟨r', heq, -⟩ := rsAvalCmp3_byLoop hw hv
    exact ⟨r', heq⟩
  · have hblob : (!v.isWhole || !w.isWhole) = true := by
      rw [← Bool.not_and, Bool.not_eq_true']
      simpa using hwhole
    have hblob' : (!w.isWhole || !v.isWhole) = true := by rwa [Bool.or_comm]
    have hdec : LexDecision.Decides v.isWhole w.isWhole (v.parts w).1 (v.parts w).2 (signOf r) := by
      unfold cmp3 at h
      rcases rsAvalCmp3_reports v w hblob with ⟨r', heq, hdec, -⟩ | ⟨heq, -⟩
      · rw [heq] at h
        cases h
        exact hdec
      · rw [heq] at h
        cases h
    rcases rsAvalCmp3_reports w v hblob' with ⟨r', heq, -⟩ | ⟨-, hnone⟩
    · exact ⟨r', heq⟩
    · rw [parts_swap] at hnone
      exact absurd hdec.swap (hnone _)

theorem comparesRight_iff (h : ¬ v.DecidedBehind w) :
    ComparesRight v w ↔ v.TellsRight w ∧ w.TellsRight v := by
  have h' : ¬ w.DecidedBehind v := fun hw => h hw.swap
  constructor
  · exact fun hright => ⟨(order_iff h).mp hright.order, (order_iff h').mp hright.exchanged⟩
  · rintro ⟨hvw, hwv⟩
    have horder := (order_iff h).mpr hvw
    have hexchanged := (order_iff h').mpr hwv
    refine ⟨horder, hexchanged, fun r hr => ?_⟩
    obtain ⟨r', hr'⟩ := cmp3_exchange hr
    exact ⟨r', hr', by rw [hexchanged r' hr', horder r hr, swap_refOrder]⟩

theorem SameCharacters.refOrder_eq {v' : CharValue} (h : SameCharacters v v') (w : CharValue) :
    v'.refOrder w = v.refOrder w := by
  have hv : v.sqldt ≠ .wchar := fun e => by
    have hdt := h.char
    rw [e] at hdt
    cases hdt
  have hv' : v'.sqldt ≠ .char := fun e => by
    have hdt := h.unicode
    rw [e] at hdt
    cases hdt
  have hkind := h.kind
  have hfix : v'.fixed w = v.fixed w := by
    unfold fixed
    rw [Bool.eq_iff_iff, decide_eq_true_iff, decide_eq_true_iff]
    tauto
  have hfix' : w.fixed v' = w.fixed v := by rw [fixed_comm w v', hfix, fixed_comm]
  unfold refOrder compared
  rw [hfix, hfix', h.content]

/-- Where the bytes behind the carried parts do not decide, exactly when two values are
compared right; and an 8-bit value then compares like the same characters held as Unicode. -/
theorem rsAvalCmp3_iff (v w : CharValue) :
    (¬ v.DecidedBehind w → (ComparesRight v w ↔ v.TellsRight w ∧ w.TellsRight v)) ∧
      ∀ v', SameCharacters v v' → v.RightWhen w → v'.RightWhen w →
        ∀ r r', v.cmp3 w = .ok r → v'.cmp3 w = .ok r' → signOf r' = signOf r := by
  refine ⟨comparesRight_iff, fun v' hsame hv hv' r r' hr hr' => ?_⟩
  rw [(order_iff hv.1).mpr hv.2 r hr, (order_iff hv'.1).mpr hv'.2 r' hr', hsame.refOrder_eq]

/-- Carried parts that differ somewhere, of contents whose trailing spaces do not matter. -/
theorem rightWhen_of_apart (hapart : Apart (v.carriedParts w).1 (v.carriedParts w).2)
    (hwhole : (v.isWhole && w.isWhole) = false)
    (horder : lexOrder v.content w.content = v.refOrder w) :
    v.RightWhen w ∧ w.TellsRight v := by
  have hwhole' : (w.isWhole && v.isWhole) = false := by rwa [Bool.and_comm]
  refine ⟨⟨fun h => h.2.1 _ (.inl ⟨hapart, rfl⟩), ?_⟩, ?_⟩
  · rw [TellsRight, if_neg (by rw [hwhole]; decide)]
    exact fun _ _ => horder
  · rw [TellsRight, if_neg (by rw [hwhole']; decide), ← swap_lexOrder, horder, swap_refOrder]
    exact fun _ _ => rfl

def charA : CharValue where
  sqldt := .char
  full := [0x61]
  even h := by cases h
  store := .complete [2] (.byte (show 2 < 0xFE by decide)) (by decide)
  behind := []

def charB : CharValue where
  sqldt := .char
  full := [0x62]
  even h := by cases h
  store := .complete [2] (.byte (show 2 < 0xFE by decide)) (by decide)
  behind := []

def wcharB : CharValue where
  sqldt := .wchar
  full := [0, 0x62]
  even _ := rfl
  store := .complete [3] (.byte (show 3 < 0xFE by decide)) (by decide)
  behind := []

def blobA : CharValue where
  sqldt := .varchar
  full := 0x61 :: List.replicate 400 0x20
  even h := by cases h
  store := .blobref (0x61 :: List.replicate 253 0x20) (List.replicate 17 1)
    ⟨List.replicate 147 0x20, by decide +kernel⟩ (by decide +kernel) (by decide +kernel)
    (by decide +kernel)
  behind := []

/-- A WVARCHAR blob with 200 times the character U+2020, of which 127 are carried. -/
def wblobDaggers : CharValue where
  sqldt := .wvarchar
  full := List.replicate 400 0x20
  even _ := by decide +kernel
  store := .blobref (List.replicate 254 0x20) (List.replicate 13 1)
    ⟨List.replicate 146 0x20, by decide +kernel⟩ (by decide +kernel) (by decide +kernel)
    (by decide +kernel)
  behind := []

/-- A complete CHAR value against a VARCHAR blob with a reference of 17 bytes, and against a
WVARCHAR blob; and the WCHAR value of the same characters. -/
theorem rsAvalCmp3_iff_blobs :
    ComparesRight charB blobA ∧ ComparesRight charB wblobDaggers ∧
      ∀ r', wcharB.cmp3 blobA = .ok r' → signOf r' = .gt := by
  have hdiff {a b : ℕ} {x y : List ℕ} (h : a ≠ b) : Apart (a :: x) (b :: y) :=
    (apart_cons_cons a b x y).mpr (.inl h)
  obtain ⟨hblob, hblob'⟩ : charB.RightWhen blobA ∧ blobA.TellsRight charB :=
    rightWhen_of_apart (hdiff (by decide)) rfl (by decide +kernel)
  have hparts : charB.carriedParts wblobDaggers =
      ([0x62], 0x2020 :: charsAt (List.replicate 252 0x20) 126) := by decide +kernel
  have hfirst : Apart (charB.carriedParts wblobDaggers).1 (charB.carriedParts wblobDaggers).2 := by
    rw [hparts]
    exact hdiff (by decide)
  obtain ⟨hwblob, hwblob'⟩ := rightWhen_of_apart hfirst rfl (by decide +kernel)
  obtain ⟨hwchar, -⟩ : wcharB.RightWhen blobA ∧ blobA.TellsRight wcharB :=
    rightWhen_of_apart (hdiff (by decide)) rfl (by decide +kernel)
  have hsame : SameCharacters charB wcharB := ⟨rfl, rfl, rfl, by decide⟩
  have hiff := rsAvalCmp3_iff charB blobA
  exact ⟨(hiff.1 hblob.1).mpr ⟨hblob.2, hblob'⟩,
    ((rsAvalCmp3_iff charB wblobDaggers).1 hwblob.1).mpr ⟨hwblob.2, hwblob'⟩,
    fun r' hr' => hiff.2 wcharB hsame hblob hwchar 1 r' (by decide +kernel) hr'⟩

/-- Trailing spaces of a blob count although the other type is CHAR. -/
theorem not_comparesRight_spaces :
    charA.cmp3 blobA = .ok (-1) ∧ charA.refOrder blobA = .eq ∧ ¬ ComparesRight charA blobA := by
  have hcmp : charA.cmp3 blobA = .ok (-1) := by decide +kernel
  have href : charA.refOrder blobA = .eq := by decide +kernel
  refine ⟨hcmp, href, fun h => ?_⟩
  have horder := h.order (-1) hcmp
  rw [href] at horder
  exact absurd horder (by decide)

end CharValue

end SolidDB
