import Mathlib.Data.List.DropRight
import SolidDB.Su.Pars

/-!
# The texts that are parsed

What the functions take from the text and where they leave it, apart from the buffers.
-/

namespace SolidDB

open SuParsMatch

variable {α β : Type*} {s buf : List UInt8} {m saved : SuParsMatch} {p : UInt8 → Bool}
  {quote : UInt8} {cap size : ℕ}

/-! ## Spaces and comments -/

theorem skipComments_of_ne (h : ∀ s', s ≠ 45 :: 45 :: s') : skipComments s = s := by
  unfold skipComments
  split
  · rename_i s'
    exact absurd rfl (h s')
  · rfl

theorem skipComments_suffix (s : List UInt8) : skipComments s <:+ s := by
  induction s using skipComments.induct with
  | case1 s ih =>
      rw [skipComments]
      have hline : ssStrTrimLeft (s.dropWhile fun c => c ≠ 10) <:+ s :=
        (List.dropWhile_suffix _).trans (List.dropWhile_suffix _)
      exact (ih.trans hline).trans ((List.suffix_cons 45 s).trans (List.suffix_cons 45 _))
  | case2 s h =>
      rw [skipComments_of_ne fun s' heq => h s' heq]

theorem checkComment_suffix (s : List UInt8) : checkComment s <:+ s :=
  (skipComments_suffix _).trans (List.dropWhile_suffix _)

/-- Behind spaces and comments there is nothing more to skip. -/
theorem checkComment_skipComments (h : ssStrTrimLeft s = s) :
    checkComment (skipComments s) = skipComments s := by
  induction s using skipComments.induct with
  | case1 s ih =>
      rw [skipComments]
      exact ih (List.dropWhile_idempotent _ _)
  | case2 s hne =>
      have hs : skipComments s = s := skipComments_of_ne fun s' heq => hne s' heq
      rw [hs, checkComment, h, hs]

@[simp] theorem checkComment_checkComment (s : List UInt8) :
    checkComment (checkComment s) = checkComment s :=
  checkComment_skipComments (List.dropWhile_idempotent _ _)

/-- The text behind spaces and comments does not start with a space. -/
theorem head_checkComment {c : UInt8} {s' : List UInt8} (h : checkComment s = c :: s') :
    chIsspace c = false := by
  have hidem := checkComment_checkComment s
  rw [h] at hidem
  by_contra hc
  rw [Bool.not_eq_false] at hc
  have hlen := (checkComment_suffix s').length_le
  have htail : checkComment (c :: s') = checkComment s' := by
    rw [checkComment, ssStrTrimLeft, List.dropWhile_cons_of_pos hc, checkComment, ssStrTrimLeft]
  rw [htail] at hidem
  rw [hidem, List.length_cons] at hlen
  omega

/-! ## Words -/

/-- A byte and `n` more are written when they are fewer than the buffer has left. -/
theorem putCounted_eq {c : UInt8} {next : List UInt8 → ℕ → ParsRet α} {r : ParsRet α} {n : ℕ}
    (h : buf.length + size = cap) (hsize : 0 < size)
    (hnext : (buf ++ [c]).length + (size - 1) = cap → 0 < size - 1 →
      next (buf ++ [c]) (size - 1) = if n < size - 1 then r else .no saved) :
    putCounted saved cap buf size c next = if n + 1 < size then r else .no saved := by
  rw [putCounted, if_neg (by omega)]
  by_cases hone : size ≤ 1
  · rw [if_pos hone, if_neg (by omega)]
  · have hiff : n < size - 1 ↔ n + 1 < size := by omega
    rw [if_neg hone, hnext (by rw [List.length_append, List.length_singleton]; omega) (by omega)]
    simp only [hiff]

theorem getWhile_eq (h : buf.length + size = cap) (hsize : 0 < size) :
    getWhile p saved cap s buf size =
      if (s.takeWhile p).length < size then
        .yes (buf ++ s.takeWhile p) { saved with mPos := s.dropWhile p }
      else .no saved := by
  induction s generalizing buf size with
  | nil =>
      rw [getWhile, List.takeWhile_nil, List.length_nil, if_pos hsize, List.append_nil,
        List.dropWhile_nil]
  | cons c s ih =>
      rw [getWhile]
      by_cases hc : p c = true
      · rw [if_pos hc, List.takeWhile_cons_of_pos hc, List.dropWhile_cons_of_pos hc,
          List.length_cons]
        refine putCounted_eq h hsize fun h' hsize' => ?_
        rw [ih h' hsize', List.append_assoc, List.singleton_append]
      · rw [if_neg hc, List.takeWhile_cons_of_neg hc, List.dropWhile_cons_of_neg hc,
          List.length_nil, if_pos hsize, List.append_nil]

/-- Without a count the characters are written also behind the buffer. -/
theorem getUncounted_eq (h : buf.length ≤ cap) :
    getUncounted p saved cap s buf =
      if buf.length + (s.takeWhile p).length ≤ cap then
        .yes (buf ++ s.takeWhile p) { saved with mPos := s.dropWhile p }
      else .outside := by
  induction s generalizing buf with
  | nil =>
      rw [getUncounted, List.takeWhile_nil, List.length_nil, if_pos (by omega), List.append_nil,
        List.dropWhile_nil]
  | cons c s ih =>
      rw [getUncounted]
      by_cases hc : p c = true
      · rw [if_pos hc, List.takeWhile_cons_of_pos hc, List.dropWhile_cons_of_pos hc,
          List.length_cons]
        by_cases hfull : cap ≤ buf.length
        · rw [if_pos hfull, if_neg (by omega)]
        · rw [if_neg hfull, ih (by rw [List.length_append]; simp; omega), List.length_append,
            List.length_singleton, List.append_assoc, List.singleton_append, Nat.add_assoc,
            Nat.add_comm 1]
      · rw [if_neg hc, List.takeWhile_cons_of_neg hc, List.dropWhile_cons_of_neg hc,
          List.length_nil, if_pos (by omega), List.append_nil]

/-! ## Quoted texts -/

/-- The characters up to a single quote, where a doubled quote counts as one character, and the
text from this quote on. -/
def quotedText (quote : UInt8) : List UInt8 → List UInt8 × List UInt8
  | [] => ([], [])
  | [c] => if c = quote then ([], [c]) else ([c], [])
  | c :: c' :: s =>
      if c = quote then
        if c' = quote then (c :: (quotedText quote s).1, (quotedText quote s).2)
        else ([], c :: c' :: s)
      else (c :: (quotedText quote (c' :: s)).1, (quotedText quote (c' :: s)).2)

def doubleQuotes (quote : UInt8) (s : List UInt8) : List UInt8 :=
  s.flatMap fun c => if c = quote then [c, c] else [c]

def writtenQuoted (quote : UInt8) (keep_quotes : Bool) (s : List UInt8) : List UInt8 :=
  if keep_quotes then doubleQuotes quote s else s

theorem quotedText_suffix (s : List UInt8) : (quotedText quote s).2 <:+ s := by
  induction s using quotedText.induct quote with
  | case1 => exact List.suffix_rfl
  | case2 =>
      rw [quotedText, if_pos rfl]
  | case3 c hc =>
      rw [quotedText, if_neg hc]
      exact List.nil_suffix
  | case4 s ih =>
      rw [quotedText, if_pos rfl, if_pos rfl]
      exact ih.trans ((List.suffix_cons quote s).trans (List.suffix_cons quote _))
  | case5 c' s hc' =>
      rw [quotedText, if_pos rfl, if_neg hc']
  | case6 c c' s hc ih =>
      rw [quotedText, if_neg hc]
      exact ih.trans (List.suffix_cons c _)

@[simp] theorem writtenQuoted_nil {keep_quotes : Bool} :
    writtenQuoted quote keep_quotes [] = [] := by
  cases keep_quotes <;> rfl

theorem writtenQuoted_false : writtenQuoted quote false s = s := rfl

theorem writtenQuoted_cons_of_ne {keep_quotes : Bool} {c : UInt8} (hc : c ≠ quote) :
    writtenQuoted quote keep_quotes (c :: s) = c :: writtenQuoted quote keep_quotes s := by
  cases keep_quotes with
  | false => rfl
  | true => simp [writtenQuoted, doubleQuotes, hc]

theorem writtenQuoted_true_cons :
    writtenQuoted quote true (quote :: s) = quote :: quote :: writtenQuoted quote true s := by
  simp [writtenQuoted, doubleQuotes]

/-- A quoted text is taken when what is written of it is shorter than the buffer. -/
theorem getQuotedLoop_eq {keep_quotes : Bool} (h : buf.length + size = cap) (hsize : 0 < size) :
    getQuotedLoop saved cap quote keep_quotes s buf size =
      if (writtenQuoted quote keep_quotes (quotedText quote s).1).length < size then
        .yes (buf ++ writtenQuoted quote keep_quotes (quotedText quote s).1,
          size - (writtenQuoted quote keep_quotes (quotedText quote s).1).length)
          { saved with mPos := (quotedText quote s).2 }
      else .no saved := by
  induction s using quotedText.induct quote generalizing buf size with
  | case1 =>
      rw [getQuotedLoop, quotedText, writtenQuoted_nil, List.length_nil, if_pos hsize,
        List.append_nil, Nat.sub_zero]
  | case2 =>
      rw [getQuotedLoop, quotedText, if_pos rfl, if_pos rfl, writtenQuoted_nil, List.length_nil,
        if_pos hsize, List.append_nil, Nat.sub_zero]
  | case3 c hc =>
      rw [getQuotedLoop, quotedText, if_neg hc, if_neg hc, writtenQuoted_cons_of_ne hc,
        writtenQuoted_nil, List.length_singleton]
      refine putCounted_eq h hsize fun h' hsize' => ?_
      rw [if_pos hsize']
  | case4 s ih =>
      rw [getQuotedLoop, quotedText, if_pos rfl, if_pos rfl, if_pos rfl, if_pos rfl]
      cases keep_quotes with
      | false =>
          rw [if_neg Bool.false_ne_true, writtenQuoted_false, List.length_cons]
          refine putCounted_eq h hsize fun h' hsize' => ?_
          rw [ih h' hsize', writtenQuoted_false, List.append_assoc, List.singleton_append,
            Nat.sub_sub, Nat.add_comm 1]
      | true =>
          rw [if_pos rfl, writtenQuoted_true_cons, List.length_cons, List.length_cons]
          refine putCounted_eq h hsize fun h' hsize' => ?_
          refine putCounted_eq h' hsize' fun h'' hsize'' => ?_
          rw [ih h'' hsize'', List.append_assoc, List.append_assoc, List.singleton_append,
            List.singleton_append, Nat.sub_sub, Nat.sub_sub]
          congr 3
          omega
  | case5 c' s hc' =>
      rw [getQuotedLoop, quotedText, if_pos rfl, if_pos rfl, if_neg hc', if_neg hc',
        writtenQuoted_nil, List.length_nil, if_pos hsize, List.append_nil, Nat.sub_zero]
  | case6 c c' s hc ih =>
      rw [getQuotedLoop, quotedText, if_neg hc, if_neg hc, writtenQuoted_cons_of_ne hc,
        List.length_cons]
      refine putCounted_eq h hsize fun h' hsize' => ?_
      rw [ih h' hsize', List.append_assoc, List.singleton_append, Nat.sub_sub, Nat.add_comm 1]

theorem quotedText_rest (quote : UInt8) (s : List UInt8) :
    (quotedText quote s).2 = [] ∨
      ∃ rest, (quotedText quote s).2 = quote :: rest ∧ rest.head? ≠ some quote := by
  induction s using quotedText.induct quote with
  | case1 => exact .inl rfl
  | case2 =>
      rw [quotedText, if_pos rfl]
      exact .inr ⟨[], rfl, by simp⟩
  | case3 c hc =>
      rw [quotedText, if_neg hc]
      exact .inl rfl
  | case4 s ih =>
      rw [quotedText, if_pos rfl, if_pos rfl]
      exact ih
  | case5 c' s hc' =>
      rw [quotedText, if_pos rfl, if_neg hc']
      exact .inr ⟨c' :: s, rfl, by simp [hc']⟩
  | case6 c c' s hc ih =>
      rw [quotedText, if_neg hc]
      exact ih

/-- A text in quotes, with each quote in it doubled, is read back. -/
theorem quotedText_doubleQuotes (name : List UInt8) {rest : List UInt8}
    (hrest : rest.head? ≠ some quote) :
    quotedText quote (doubleQuotes quote name ++ quote :: rest) = (name, quote :: rest) := by
  induction name with
  | nil =>
      cases rest with
      | nil => simp [doubleQuotes, quotedText]
      | cons c rest =>
          have hc : c ≠ quote := fun heq => hrest (by rw [heq]; rfl)
          simp [doubleQuotes, quotedText, hc]
  | cons c name ih =>
      by_cases hc : c = quote
      · have hcons : doubleQuotes quote (c :: name) = c :: c :: doubleQuotes quote name := by
          simp [doubleQuotes, hc]
        rw [hcons, List.cons_append, List.cons_append, quotedText, if_pos hc, if_pos hc, ih]
      · have hcons : doubleQuotes quote (c :: name) = c :: doubleQuotes quote name := by
          simp [doubleQuotes, hc]
        -- a character is left behind the first one
        obtain ⟨d, s, hds⟩ : ∃ d s, doubleQuotes quote name ++ quote :: rest = d :: s := by
          cases hdouble : doubleQuotes quote name with
          | nil => exact ⟨quote, rest, rfl⟩
          | cons d s => exact ⟨d, s ++ quote :: rest, rfl⟩
        rw [hcons, List.cons_append, hds, quotedText, if_neg hc, ← hds, ih]

/-! ## What the functions return -/

def FitsBuf (size : ℕ) (buf : List UInt8) : Prop := buf.length ≤ size ∧ 0 ∈ buf

/-- The function takes text behind the position and its results fit, or it returns `FALSE` and
the position is what it was. -/
def ParsRet.Restores (m : SuParsMatch) (fits : α → Prop) : ParsRet α → Prop
  | .outside => False
  | .no m' => m' = m
  | .yes a m' => fits a ∧ m'.mStart = m.mStart ∧ m'.mPos <:+ m.mPos

theorem putNul_fits {m' : SuParsMatch} (h : buf.length < cap) (hstart : m'.mStart = m.mStart)
    (hpos : m'.mPos <:+ m.mPos) : (putNul cap buf m').Restores m (FitsBuf cap) := by
  rw [putNul, if_neg (by omega)]
  refine ⟨⟨?_, List.mem_append_right _ (List.mem_singleton_self _)⟩, hstart, hpos⟩
  rw [List.length_append, List.length_singleton]
  omega

theorem parsGetQuoted_restores (keep_quotes : Bool) (hcap : 3 ≤ cap) (hpos : m.mPos ≠ []) :
    (parsGetQuoted m cap keep_quotes).Restores m (FitsBuf cap) := by
  unfold parsGetQuoted
  cases hm : m.mPos with
  | nil => exact absurd hm hpos
  | cons quote s =>
      obtain ⟨buf, size, hopened, hsum, hsize⟩ : ∃ buf size,
          (if keep_quotes then ([quote], cap - 1) else ([], cap)) = (buf, size) ∧
            buf.length + size = cap ∧ 0 < size := by
        cases keep_quotes with
        | false => exact ⟨[], cap, rfl, Nat.zero_add cap, by omega⟩
        | true => exact ⟨[quote], cap - 1, rfl, by rw [List.length_singleton]; omega, by omega⟩
      dsimp only
      rw [hopened]
      dsimp only
      rw [getQuotedLoop_eq hsum hsize]
      generalize hw : writtenQuoted quote keep_quotes (quotedText quote s).1 = w
      by_cases hfits : w.length < size
      · rw [if_pos hfits]
        dsimp only [ParsRet.bind]
        rcases quotedText_rest quote s with hrest | ⟨rest, hrest, -⟩
        · rw [hrest]
          rfl
        · have hsuffix : rest <:+ m.mPos := by
            rw [hm]
            exact (hrest ▸ List.suffix_cons quote rest).trans
              ((quotedText_suffix s).trans (List.suffix_cons quote s))
          have hlen : (buf ++ w).length < cap := by
            rw [List.length_append]
            omega
          rw [hrest]
          dsimp only
          rw [if_neg (not_not_intro rfl)]
          split
          · unfold putCounted
            rw [if_neg (by omega)]
            split
            · rfl
            · refine putNul_fits ?_ rfl hsuffix
              rw [List.length_append, List.length_append, List.length_singleton]
              omega
          · exact putNul_fits hlen rfl hsuffix
      · rw [if_neg hfits]
        rfl

theorem parsGetQuoted_eq {s : List UInt8} (hm : m.mPos = quote :: s) (hcap : 0 < cap) :
    parsGetQuoted m cap false =
      if (quotedText quote s).1.length < cap ∧ (quotedText quote s).2 ≠ [] then
        .yes ((quotedText quote s).1 ++ [0]) { m with mPos := (quotedText quote s).2.tail }
      else .no m := by
  unfold parsGetQuoted
  rw [hm]
  dsimp only
  rw [if_neg Bool.false_ne_true, getQuotedLoop_eq (Nat.zero_add cap) hcap, writtenQuoted_false,
    List.nil_append]
  by_cases hfits : (quotedText quote s).1.length < cap
  · rw [if_pos hfits]
    dsimp only [ParsRet.bind]
    rcases quotedText_rest quote s with hrest | ⟨rest, hrest, -⟩
    · rw [hrest, if_neg (fun h => h.2 rfl)]
    · rw [hrest, if_pos ⟨hfits, by simp⟩]
      dsimp only
      rw [if_neg (not_not_intro rfl), if_neg Bool.false_ne_true, putNul, if_neg (by omega)]
      rfl
  · rw [if_neg hfits, if_neg fun h => hfits h.1]
    rfl

/-! ## Names -/

def nameAt : List UInt8 → Option (List UInt8 × List UInt8)
  | [] => none
  | c :: s =>
      if isIdQuote c then
        match (quotedText c s).2 with
        | [] => none
        | _ :: rest => some ((quotedText c s).1, rest)
      else some ((c :: s).takeWhile isIdChar, (c :: s).dropWhile isIdChar)

/-- The name behind spaces and comments, when it is not empty and shorter than the buffer, and
the text behind it. -/
def fittingName (size : ℕ) (s : List UInt8) : Option (List UInt8 × List UInt8) :=
  (nameAt (checkComment s)).filter fun n => n.1 ≠ [] ∧ n.1.length < size

theorem nameAt_suffix {name rest : List UInt8} (h : nameAt s = some (name, rest)) :
    rest <:+ s := by
  cases s with
  | nil => cases h
  | cons c s =>
      rw [nameAt] at h
      split at h
      · cases hq : (quotedText c s).2 with
        | nil => simp [hq] at h
        | cons d rest' =>
            simp only [hq, Option.some_inj, Prod.mk.injEq] at h
            rw [← h.2]
            exact (List.suffix_cons d rest').trans
              ((hq ▸ quotedText_suffix s).trans (List.suffix_cons c s))
      · rw [Option.some_inj, Prod.mk.injEq] at h
        rw [← h.2]
        exact List.dropWhile_suffix _

theorem quotedText_subset (s : List UInt8) : (quotedText quote s).1 ⊆ s := by
  induction s using quotedText.induct quote with
  | case1 => exact List.nil_subset _
  | case2 =>
      rw [quotedText, if_pos rfl]
      exact List.nil_subset _
  | case3 c hc =>
      rw [quotedText, if_neg hc]
      exact List.Subset.refl _
  | case4 s ih =>
      rw [quotedText, if_pos rfl, if_pos rfl]
      exact List.cons_subset_cons _ (List.Subset.trans ih (List.subset_cons_self _ _))
  | case5 c' s hc' =>
      rw [quotedText, if_pos rfl, if_neg hc']
      exact List.nil_subset _
  | case6 c c' s hc ih =>
      rw [quotedText, if_neg hc]
      exact List.cons_subset_cons _ ih

theorem cString_append_nul (h : 0 ∉ s) : cString (s ++ [0]) = s := by
  have hne : ∀ c ∈ s, decide (c ≠ 0) = true := by
    intro c hc
    refine decide_eq_true fun heq => h ?_
    rw [← heq]
    exact hc
  unfold cString
  rw [List.takeWhile_append_of_pos hne, List.takeWhile_cons_of_neg (by simp), List.append_nil]

theorem fittingName_of_nameAt {name rest : List UInt8}
    (h : nameAt (checkComment s) = some (name, rest)) :
    fittingName size s = if name ≠ [] ∧ name.length < size then some (name, rest) else none := by
  rw [fittingName, h, Option.filter_some]
  simp only [decide_eq_true_eq]

theorem restore_name {name rest : List UInt8} {m' : SuParsMatch} (hnul : 0 ∉ name) :
    ((if name.length < size then ParsRet.yes (name ++ [0]) { m with mPos := rest }
        else .no m').bind fun buf m'' =>
      if 0 < (cString buf).length then .yes buf m'' else .no m).restore m =
    match (if name ≠ [] ∧ name.length < size then some (name, rest) else none) with
    | none => .no m
    | some (name, rest) => .yes (name ++ [0]) { m with mPos := rest } := by
  by_cases hlen : name.length < size
  · rw [if_pos hlen]
    dsimp only [ParsRet.bind]
    rw [cString_append_nul hnul]
    by_cases hempty : name = []
    · rw [hempty, if_neg (by simp), if_neg (fun h => h.1 rfl)]
      rfl
    · rw [if_pos (List.length_pos_iff.mpr hempty), if_pos ⟨hempty, hlen⟩]
      rfl
  · rw [if_neg hlen, if_neg fun h => hlen h.2]
    rfl

theorem suParsGetId_eq (hsize : 3 ≤ size) (hnul : 0 ∉ m.mPos) :
    suParsGetId m size =
      match fittingName size m.mPos with
      | none => .no m
      | some (name, rest) => .yes (name ++ [0]) { m with mPos := rest } := by
  have hnul' : 0 ∉ checkComment m.mPos := fun h => hnul ((checkComment_suffix _).subset h)
  unfold suParsGetId SuParsMatch.checkComment
  cases ht : checkComment m.mPos with
  | nil =>
      have hname : fittingName size m.mPos = none := by
        rw [fittingName, ht]
        rfl
      rw [hname]
      simp only [List.head?_nil, Option.any_none, Bool.false_eq_true, if_false, getWhile,
        ParsRet.bind, putNul, List.length_nil]
      rw [if_neg (by omega)]
      rfl
  | cons c s =>
      rw [ht] at hnul'
      by_cases hc : isIdQuote c = true
      · have hsubset : 0 ∉ (quotedText c s).1 := fun h =>
          hnul' (List.mem_cons_of_mem c (quotedText_subset s h))
        simp only [List.head?_cons, Option.any_some, hc, if_true]
        rw [parsGetQuoted_eq rfl (by omega)]
        cases hrest : (quotedText c s).2 with
        | nil =>
            have hname : fittingName size m.mPos = none := by
              rw [fittingName, ht, nameAt, if_pos hc, hrest]
              rfl
            rw [hname, if_neg (fun h => h.2 rfl)]
            rfl
        | cons d rest =>
            have hname : nameAt (checkComment m.mPos) = some ((quotedText c s).1, rest) := by
              rw [ht, nameAt, if_pos hc, hrest]
            simp only [ne_eq, reduceCtorEq, not_false_eq_true, and_true, List.tail_cons]
            rw [fittingName_of_nameAt hname]
            exact restore_name hsubset
      · have hsubset : 0 ∉ (c :: s).takeWhile isIdChar := fun h =>
          hnul' ((List.takeWhile_prefix _).subset h)
        have hname : nameAt (checkComment m.mPos) =
            some ((c :: s).takeWhile isIdChar, (c :: s).dropWhile isIdChar) := by
          rw [ht, nameAt, if_neg hc]
        simp only [List.head?_cons, Option.any_some, hc, Bool.false_eq_true, if_false]
        rw [fittingName_of_nameAt hname, ← restore_name hsubset,
          getWhile_eq (Nat.zero_add size) (by omega), List.nil_append]
        by_cases hlen : ((c :: s).takeWhile isIdChar).length < size
        · rw [if_pos hlen, if_pos hlen]
          dsimp only [ParsRet.bind]
          rw [putNul, if_neg (by omega)]
        · rw [if_neg hlen, if_neg hlen]
          rfl

theorem fittingName_checkComment (s : List UInt8) :
    fittingName size (checkComment s) = fittingName size s := by
  rw [fittingName, checkComment_checkComment, fittingName]

theorem fittingName_suffix {name rest : List UInt8}
    (h : fittingName size s = some (name, rest)) :
    name.length < size ∧ rest <:+ s := by
  rw [fittingName, Option.filter_eq_some_iff] at h
  obtain ⟨hname, hfits⟩ := h
  exact ⟨(of_decide_eq_true hfits).2, (nameAt_suffix hname).trans (checkComment_suffix s)⟩

/-- A name in double quotes, with each quote in it doubled, is a name. -/
theorem nameAt_doubleQuotes (name : List UInt8) {rest : List UInt8}
    (hrest : rest.head? ≠ some 34) :
    nameAt (34 :: (doubleQuotes 34 name ++ 34 :: rest)) = some (name, rest) := by
  rw [nameAt, if_pos (by decide), quotedText_doubleQuotes name hrest]

end SolidDB
