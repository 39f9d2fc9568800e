import SolidDB.Su.ParsWords

/-!
# Hints and keywords

The loops that search for the end of a hint or for a keyword do not stop at the NUL.
-/

namespace SolidDB

open SuParsMatch

variable {s buf ds const_str end_str : List UInt8} {m m' saved : SuParsMatch}
  {cap bufsize rounds : ℕ}

/-! ## Constants -/

/-- The text starts with the constant. An empty constant stands for the end of the text. -/
def StartsConst (const_str t : List UInt8) : Prop :=
  if const_str = [] then t = [] else const_str <+: t

theorem matchConst_eq (m : SuParsMatch) (const_str : List UInt8)
    [Decidable (StartsConst const_str (checkComment m.mPos))] :
    m.matchConst const_str =
      if StartsConst const_str (checkComment m.mPos) then
        (true, { m with mPos := (checkComment m.mPos).drop const_str.length })
      else (false, m.checkComment) := by
  unfold SuParsMatch.matchConst
  dsimp only
  by_cases hnil : const_str = []
  · rw [if_pos hnil]
    have hiff : StartsConst const_str (checkComment m.mPos) ↔ checkComment m.mPos = [] := by
      rw [StartsConst, if_pos hnil]
    by_cases ht : checkComment m.mPos = []
    · rw [if_pos (hiff.mpr ht), hnil, List.length_nil, List.drop_zero]
      simp [SuParsMatch.checkComment, ht]
    · rw [if_neg (fun h => ht (hiff.mp h))]
      simp [SuParsMatch.checkComment, ht]
  · rw [if_neg hnil]
    have hiff : StartsConst const_str (checkComment m.mPos) ↔
        const_str <+: checkComment m.mPos := by
      rw [StartsConst, if_neg hnil]
    by_cases hstart : const_str <+: checkComment m.mPos
    · rw [if_pos (hiff.mpr hstart)]
      exact if_pos hstart
    · rw [if_neg (fun h => hstart (hiff.mp h))]
      exact if_neg hstart

/-! ## The words of a hint -/

def isNonspace (c : UInt8) : Bool := !chIsspace c

/-- A word is taken when it ends at a space before the buffer is full. A word that ends with the
text is read on behind the NUL. -/
theorem getNonspaceLoop_eq (hbuf : buf.length < bufsize - 1) (hcap : bufsize - 1 ≤ cap) :
    getNonspaceLoop saved cap bufsize s buf =
      if bufsize - 1 ≤ buf.length + (s.takeWhile isNonspace).length then .no saved
      else if s.dropWhile isNonspace = [] then
        if buf.length + (s.takeWhile isNonspace).length + 1 = bufsize - 1 then .no saved
        else .outside
      else .yes (buf ++ s.takeWhile isNonspace) { saved with mPos := s.dropWhile isNonspace } := by
  induction s generalizing buf with
  | nil =>
      rw [getNonspaceLoop, if_neg (show ¬cap ≤ buf.length by omega), List.takeWhile_nil,
        List.dropWhile_nil, List.length_nil,
        if_neg (show ¬bufsize - 1 ≤ buf.length + 0 by omega), if_pos rfl, Nat.add_zero]
  | cons c s ih =>
      rw [getNonspaceLoop]
      by_cases hc : chIsspace c = true
      · have hword : ¬isNonspace c = true := by simp [isNonspace, hc]
        rw [if_pos hc, List.takeWhile_cons_of_neg hword, List.dropWhile_cons_of_neg hword,
          List.length_nil, Nat.add_zero, if_neg (by omega), if_neg (by simp), List.append_nil]
      · have hword : isNonspace c = true := by simp [isNonspace, hc]
        rw [if_neg hc, if_neg (by omega), List.takeWhile_cons_of_pos hword,
          List.dropWhile_cons_of_pos hword, List.length_cons]
        by_cases hfull : buf.length + 1 = bufsize - 1
        · rw [if_pos hfull, if_pos (by omega)]
        · have hlen : (buf ++ [c]).length = buf.length + 1 := by
            rw [List.length_append, List.length_singleton]
          rw [if_neg hfull, ih (by omega), hlen, List.append_assoc, List.singleton_append,
            Nat.add_assoc, Nat.add_comm 1]

/-- The text from a position in a hint on has the closing keyword, or a word that is too long,
before the text ends. -/
inductive HintEnds : List UInt8 → Prop
  | hint {s : List UInt8} (h : StartsConst (bytesOf "HINT") (checkComment s)) : HintEnds s
  | long {s : List UInt8}
      (h : suMaxnamelen - 1 ≤ ((checkComment s).takeWhile isNonspace).length) : HintEnds s
  | last {s : List UInt8} (h : (checkComment s).dropWhile isNonspace = [])
      (hlen : ((checkComment s).takeWhile isNonspace).length + 1 = suMaxnamelen - 1) : HintEnds s
  | word {s : List UInt8} (h : (checkComment s).dropWhile isNonspace ≠ [])
      (hrest : HintEnds ((checkComment s).dropWhile isNonspace)) : HintEnds s

/-- A text that starts with the keyword is a hint with an end, and another one has nothing to
skip. -/
def HintMeets (s : List UInt8) : Prop :=
  if bytesOf "HINT" <+: checkComment s then HintEnds ((checkComment s).drop 4)
  else checkComment s = s

theorem ssStrTrimLeft_checkComment (s : List UInt8) :
    ssStrTrimLeft (checkComment s) = checkComment s := by
  cases ht : checkComment s with
  | nil => rfl
  | cons c t =>
      have hc := head_checkComment ht
      rw [ssStrTrimLeft, List.dropWhile_cons_of_neg (by simp [hc])]

theorem suParsGetNonspace_eq (hnul : 0 ∉ m.mPos) :
    suParsGetNonspace m.checkComment (suMaxnamelen + 1) suMaxnamelen =
      if suMaxnamelen - 1 ≤ ((checkComment m.mPos).takeWhile isNonspace).length then
        .no m.checkComment
      else if (checkComment m.mPos).dropWhile isNonspace = [] then
        if ((checkComment m.mPos).takeWhile isNonspace).length + 1 = suMaxnamelen - 1 then
          .no m.checkComment
        else .outside
      else .yes ((checkComment m.mPos).takeWhile isNonspace ++ [0])
        { m with mPos := (checkComment m.mPos).dropWhile isNonspace } := by
  have hpos : m.checkComment.mPos = checkComment m.mPos := rfl
  have hnul' : 0 ∉ (checkComment m.mPos).takeWhile isNonspace := fun h =>
    hnul ((checkComment_suffix _).subset ((List.takeWhile_prefix _).subset h))
  unfold suParsGetNonspace
  rw [hpos, ssStrTrimLeft_checkComment, getNonspaceLoop_eq (by decide) (by decide),
    List.length_nil, Nat.zero_add, List.nil_append]
  split
  · rfl
  · rename_i hlen
    split
    · split
      · rfl
      · rfl
    · rename_i hrest
      dsimp only [ParsRet.bind]
      unfold suMaxnamelen at hlen ⊢
      rw [putNul, if_neg (by omega)]
      dsimp only
      rw [cString_append_nul hnul', if_neg]
      · rfl
      · -- the word is not empty
        intro hempty
        have hsplit := List.takeWhile_append_dropWhile (p := isNonspace) (l := checkComment m.mPos)
        rw [List.length_eq_zero_iff.mp hempty, List.nil_append] at hsplit
        cases ht : checkComment m.mPos with
        | nil =>
            rw [ht] at hrest
            exact hrest rfl
        | cons c t =>
            have hc := head_checkComment ht
            have hword : isNonspace c = true := by simp [isNonspace, hc]
            rw [ht, List.dropWhile_cons_of_pos hword] at hsplit
            have hlen := congrArg List.length hsplit
            have hle := (List.dropWhile_suffix isNonspace (l := t)).length_le
            rw [List.length_cons] at hlen
            omega

theorem length_dropWhile_lt (ht : checkComment s ≠ []) :
    ((checkComment s).dropWhile isNonspace).length < (checkComment s).length := by
  cases hs : checkComment s with
  | nil => exact absurd hs ht
  | cons c t =>
      have hword : isNonspace c = true := by simp [isNonspace, head_checkComment hs]
      rw [List.dropWhile_cons_of_pos hword, List.length_cons]
      exact Nat.lt_succ_of_le (List.dropWhile_suffix _).length_le

/-- The search for the closing keyword stays within the text when the hint has an end. -/
theorem giveHintLoop_restores (hnul : 0 ∉ m.mPos) (hstart : m.mStart = saved.mStart)
    (hpos : m.mPos <:+ saved.mPos) (hrounds : m.mPos.length < rounds) :
    (HintEnds m.mPos →
        ((giveHintLoop rounds m ds).restore saved).Restores saved fun _ => True) ∧
      (¬HintEnds m.mPos → giveHintLoop rounds m ds = .outside) := by
  classical
  induction rounds generalizing m ds with
  | zero => exact absurd hrounds (Nat.not_lt_zero _)
  | succ rounds ih =>
      have hskip := checkComment_suffix m.mPos
      rw [giveHintLoop]
      rw [matchConst_eq]
      by_cases hhint : StartsConst (bytesOf "HINT") (checkComment m.mPos)
      · rw [if_pos hhint, if_pos rfl]
        refine ⟨fun _ => ⟨trivial, hstart, ?_⟩, fun hends => absurd (.hint hhint) hends⟩
        exact ((List.drop_suffix _ _).trans hskip).trans hpos
      · rw [if_neg hhint, if_neg Bool.false_ne_true, suParsGetNonspace_eq hnul]
        by_cases hlong : suMaxnamelen - 1 ≤ ((checkComment m.mPos).takeWhile isNonspace).length
        · rw [if_pos hlong]
          exact ⟨fun _ => rfl, fun hends => absurd (.long hlong) hends⟩
        · rw [if_neg hlong]
          by_cases hrest : (checkComment m.mPos).dropWhile isNonspace = []
          · rw [if_pos hrest]
            by_cases hlast : ((checkComment m.mPos).takeWhile isNonspace).length + 1 =
                suMaxnamelen - 1
            · rw [if_pos hlast]
              exact ⟨fun _ => rfl, fun hends => absurd (.last hrest hlast) hends⟩
            · rw [if_neg hlast]
              refine ⟨fun hends => ?_, fun _ => rfl⟩
              cases hends with
              | hint h => exact absurd h hhint
              | long h => exact absurd h hlong
              | last h hlen => exact absurd hlen hlast
              | word h _ => exact absurd hrest h
          · rw [if_neg hrest]
            have hne : checkComment m.mPos ≠ [] := fun hnil => hrest (by rw [hnil]; rfl)
            have hlt := length_dropWhile_lt hne
            have hle := hskip.length_le
            have hsuffix := (List.dropWhile_suffix isNonspace).trans hskip
            have hiff : HintEnds m.mPos ↔
                HintEnds ((checkComment m.mPos).dropWhile isNonspace) := by
              refine ⟨fun hends => ?_, fun hends => .word hrest hends⟩
              cases hends with
              | hint h => exact absurd h hhint
              | long h => exact absurd h hlong
              | last h _ => exact absurd h hrest
              | word _ h => exact h
            dsimp only [ParsRet.bind]
            rw [hiff]
            generalize hbehind : ({ m with mPos := (checkComment m.mPos).dropWhile isNonspace } :
              SuParsMatch) = behind
            have hbpos : behind.mPos = (checkComment m.mPos).dropWhile isNonspace := by
              rw [← hbehind]
            have hbstart : behind.mStart = m.mStart := by rw [← hbehind]
            rw [← hbpos] at hsuffix hlt ⊢
            exact ih (fun h => hnul (hsuffix.subset h)) (hbstart.trans hstart)
              (hsuffix.trans hpos) (by omega)

theorem suParsGiveHint_obeys (hnul : 0 ∉ m.mStart) (hm : m.mPos <:+ m.mStart) :
    (suParsGiveHint m).Obeys m True (fun _ => True) ↔ HintMeets m.mPos := by
  classical
  have hnul' : 0 ∉ m.mPos := fun h => hnul (hm.subset h)
  have hstart : StartsConst (bytesOf "HINT") (checkComment m.mPos) ↔
      bytesOf "HINT" <+: checkComment m.mPos := by
    rw [StartsConst, if_neg (by decide)]
  have hlen : (bytesOf "HINT").length = 4 := by decide
  unfold suParsGiveHint HintMeets
  dsimp only
  rw [matchConst_eq]
  by_cases hhint : bytesOf "HINT" <+: checkComment m.mPos
  · rw [if_pos (hstart.mpr hhint), if_pos hhint, if_pos rfl, hlen]
    generalize hbehind : ({ m with mPos := (checkComment m.mPos).drop 4 } : SuParsMatch) = behind
    have hbpos : behind.mPos = (checkComment m.mPos).drop 4 := by rw [← hbehind]
    have hbstart : behind.mStart = m.mStart := by rw [← hbehind]
    have hsuffix : behind.mPos <:+ m.mPos := by
      rw [hbpos]
      exact (List.drop_suffix _ _).trans (checkComment_suffix _)
    rw [← hbpos]
    obtain ⟨hends, hnot⟩ : (HintEnds behind.mPos →
          ((giveHintLoop (behind.mPos.length + 1) behind (bytesOf " HINT ")).restore m).Restores m
            fun _ => True) ∧
        (¬HintEnds behind.mPos →
          giveHintLoop (behind.mPos.length + 1) behind (bytesOf " HINT ") = .outside) :=
      giveHintLoop_restores (fun h => hnul' (hsuffix.subset h)) hbstart hsuffix
        (Nat.lt_succ_self _)
    by_cases h : HintEnds behind.mPos
    · refine iff_of_true ?_ h
      have hrestores := hends h
      generalize giveHintLoop (behind.mPos.length + 1) behind (bytesOf " HINT ") = r
        at hrestores ⊢
      cases r with
      | outside => exact hrestores
      | no m' => exact ⟨rfl, hm, fun _ => rfl⟩
      | yes ds m' =>
          obtain ⟨-, hstart', hpos'⟩ := hrestores
          dsimp only [ParsRet.bind]
          rw [matchConst_eq]
          split
          · refine ⟨trivial, hstart', ?_⟩
            exact (((List.drop_suffix _ _).trans (checkComment_suffix _)).trans hpos').trans hm
          · exact ⟨rfl, hm, fun _ => rfl⟩
    · rw [hnot h]
      exact iff_of_false id h
  · rw [if_neg (fun h => hhint (hstart.mp h)), if_neg hhint, if_neg Bool.false_ne_true]
    exact obeys_no_checkComment hm

/-! ## Keywords -/

/-- The text from a position on has the keyword or the end string, or a single last character,
before it ends behind spaces and comments. -/
inductive SkipEnds (const_str end_str : List UInt8) : List UInt8 → Prop
  | keyword {s : List UInt8} (h : ssStrnicmpEq const_str (checkComment s) = true) :
      SkipEnds const_str end_str s
  | ended {s : List UInt8} (h : StartsConst end_str (checkComment s)) :
      SkipEnds const_str end_str s
  | last {s : List UInt8} {c : UInt8} (h : checkComment s = [c]) : SkipEnds const_str end_str s
  | step {s : List UInt8} {c d : UInt8} {t : List UInt8} (h : checkComment s = c :: d :: t)
      (hrest : SkipEnds const_str end_str (d :: t)) : SkipEnds const_str end_str s

def SkipMeets (const_str end_str s : List UInt8) : Prop :=
  const_str = [] ∨ SkipEnds const_str end_str (checkComment s)

theorem skiptoKeywordLoop_obeys (hstart : m.mStart = saved.mStart)
    (hpos : m.mPos <:+ saved.mStart) (hrounds : m.mPos.length < rounds) :
    (skiptoKeywordLoop const_str end_str rounds m).Obeys saved False (fun _ => True) ↔
      SkipEnds const_str end_str m.mPos := by
  classical
  induction rounds generalizing m with
  | zero => exact absurd hrounds (Nat.not_lt_zero _)
  | succ rounds ih =>
      have hskip := checkComment_suffix m.mPos
      have hcheck : m.checkComment.mPos = checkComment m.mPos := rfl
      rw [skiptoKeywordLoop]
      dsimp only
      rw [hcheck]
      by_cases hkey : ssStrnicmpEq const_str (checkComment m.mPos) = true
      · rw [if_pos hkey]
        refine iff_of_true ⟨trivial, hstart, ?_⟩ (.keyword hkey)
        exact ((List.drop_suffix _ _).trans hskip).trans hpos
      · rw [if_neg hkey, matchConst_eq, hcheck, checkComment_checkComment]
        by_cases hend : StartsConst end_str (checkComment m.mPos)
        · rw [if_pos hend, if_pos rfl]
          exact iff_of_true ⟨hstart, hstart ▸ List.drop_suffix _ _, False.elim⟩ (.ended hend)
        · rw [if_neg hend, if_neg Bool.false_ne_true]
          have hpos' : m.checkComment.checkComment.mPos = checkComment m.mPos :=
            checkComment_checkComment m.mPos
          rw [hpos']
          have hle := hskip.length_le
          match ht : checkComment m.mPos with
          | [] =>
              refine iff_of_false id fun hends => ?_
              cases hends with
              | keyword h => exact hkey h
              | ended h => exact hend h
              | last h => simp [ht] at h
              | step h _ => simp [ht] at h
          | [c] => exact iff_of_true ⟨hstart, List.nil_suffix, False.elim⟩ (.last ht)
          | c :: d :: t =>
              rw [ht] at hskip hle
              have hsuffix : d :: t <:+ m.mPos := (List.suffix_cons c _).trans hskip
              dsimp only
              rw [ih]
              · refine ⟨fun hends => .step ht hends, fun hends => ?_⟩
                cases hends with
                | keyword h => exact absurd h hkey
                | ended h => exact absurd h hend
                | last h => simp [ht] at h
                | step h hrest =>
                    rw [ht, List.cons.injEq, List.cons.injEq] at h
                    obtain ⟨-, rfl, rfl⟩ := h
                    exact hrest
              · exact hstart
              · exact hsuffix.trans hpos
              · simp only [List.length_cons] at hle ⊢
                omega

theorem suParsSkiptoKeyword_obeys (hm : m.mPos <:+ m.mStart) :
    (suParsSkiptoKeyword m const_str end_str).Obeys m False (fun _ => True) ↔
      SkipMeets const_str end_str m.mPos := by
  have hpos := (checkComment_pos m).trans hm
  unfold suParsSkiptoKeyword SkipMeets
  dsimp only
  by_cases hnil : const_str = []
  · rw [if_pos hnil]
    refine iff_of_true ?_ (.inl hnil)
    split
    · exact ⟨trivial, rfl, hpos⟩
    · exact ⟨rfl, hpos, False.elim⟩
  · rw [if_neg hnil, or_iff_right hnil]
    exact skiptoKeywordLoop_obeys rfl hpos (Nat.lt_succ_self _)

end SolidDB
