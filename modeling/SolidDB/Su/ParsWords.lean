import SolidDB.Su.ParsText

/-!
# Words, numbers and object names

What each function needs of the text so that it keeps within its buffers and returns `FALSE` only
at the position where it started.
-/

namespace SolidDB

open SuParsMatch

variable {α β : Type*} {s : List UInt8} {m m' saved : SuParsMatch} {r : ParsRet α}
  {fits : α → Prop} {cap size n : ℕ}

/-- The function keeps within the text and its results fit. Where it returns `FALSE`, it may
have to restore the position. -/
def ParsRet.Obeys (m : SuParsMatch) (restores : Prop) (fits : α → Prop) : ParsRet α → Prop
  | .outside => False
  | .no m' => m'.mStart = m.mStart ∧ m'.mPos <:+ m.mStart ∧ (restores → m' = m)
  | .yes a m' => fits a ∧ m'.mStart = m.mStart ∧ m'.mPos <:+ m.mStart

theorem ParsRet.Restores.obeys (h : r.Restores m fits) (hm : m.mPos <:+ m.mStart) :
    r.Obeys m True fits := by
  cases r with
  | outside => exact h
  | no m' =>
      obtain rfl : m' = m := h
      exact ⟨rfl, hm, fun _ => rfl⟩
  | yes a m' =>
      obtain ⟨hfits, hstart, hpos⟩ := h
      exact ⟨hfits, hstart, hpos.trans hm⟩

theorem ParsRet.Restores.restore (h : r.Restores saved fits) (hstart : saved.mStart = m.mStart)
    (hpos : saved.mPos <:+ m.mPos) : (r.restore m).Restores m fits := by
  cases r with
  | outside => exact h
  | no m' => rfl
  | yes a m' =>
      obtain ⟨hfits, hstart', hpos'⟩ := h
      exact ⟨hfits, hstart'.trans hstart, hpos'.trans hpos⟩

theorem ParsRet.Restores.map {fits' : β → Prop} {f : α → β} (h : r.Restores m fits)
    (hf : ∀ a, fits a → fits' (f a)) : (r.map f).Restores m fits' := by
  cases r with
  | outside => exact h
  | no m' => exact h
  | yes a m' => exact ⟨hf a h.1, h.2⟩

theorem ParsRet.obeys_map {f : α → β} :
    (r.map f).Obeys m True (fun _ => True) ↔ r.Obeys m True (fun _ => True) := by
  cases r with
  | outside => rfl
  | no m' => rfl
  | yes a m' => rfl

/-! ## Words -/

theorem checkComment_pos (m : SuParsMatch) : m.checkComment.mPos <:+ m.mPos :=
  checkComment_suffix m.mPos

theorem putNul_word {p : UInt8 → Bool} (h : (m.checkComment.mPos.takeWhile p).length < size) :
    (putNul size (m.checkComment.mPos.takeWhile p)
      { m.checkComment with mPos := m.checkComment.mPos.dropWhile p }).Restores m (FitsBuf size) :=
  putNul_fits h rfl ((List.dropWhile_suffix p).trans (checkComment_pos m))

theorem suParsGetPwd_restores (hsize : 3 ≤ size) :
    (suParsGetPwd m size).Restores m (FitsBuf size) := by
  unfold suParsGetPwd
  dsimp only
  rw [getWhile_eq (Nat.zero_add size) (by omega), List.nil_append]
  split
  · rename_i hlen
    dsimp only [ParsRet.bind]
    split
    · rfl
    · exact (putNul_word hlen).restore rfl List.suffix_rfl
  · rfl

theorem suParsGetFilename_restores (hsize : 3 ≤ size) :
    (suParsGetFilename m size).Restores m (FitsBuf size) := by
  unfold suParsGetFilename
  dsimp only
  split
  · rename_i hquote
    have hne : m.checkComment.mPos ≠ [] := fun hnil => by simp [hnil] at hquote
    exact (parsGetQuoted_restores false hsize hne).restore rfl (checkComment_pos m)
  · rw [getWhile_eq (Nat.zero_add size) (by omega), List.nil_append]
    split
    · rename_i hlen
      have hput := putNul_word hlen
      dsimp only [ParsRet.bind]
      rw [putNul, if_neg (by omega)] at hput ⊢
      dsimp only
      split
      · exact hput
      · rfl
    · rfl

theorem suParsGetStringliteral_restores (hsize : 3 ≤ size) (keep_quotes : Bool) :
    (suParsGetStringliteral m size keep_quotes).Restores m (FitsBuf size) := by
  unfold suParsGetStringliteral
  dsimp only
  split
  · rename_i hquote
    have hne : m.checkComment.mPos ≠ [] := fun hnil => by simp [hnil] at hquote
    exact (parsGetQuoted_restores keep_quotes hsize hne).restore rfl (checkComment_pos m)
  · rfl

theorem suParsGetId_restores (hsize : 3 ≤ size) (hnul : 0 ∉ m.mPos) :
    (suParsGetId m size).Restores m (FitsBuf size) := by
  rw [suParsGetId_eq hsize hnul]
  cases hname : fittingName size m.mPos with
  | none => rfl
  | some name =>
      obtain ⟨hlen, hsuffix⟩ := fittingName_suffix hname
      refine ⟨⟨?_, List.mem_append_right _ (List.mem_singleton_self _)⟩, rfl, hsuffix⟩
      rw [List.length_append, List.length_singleton]
      omega

/-! ## Numbers and special characters -/

theorem checkComment_eq_iff : m.checkComment = m ↔ checkComment m.mPos = m.mPos := by
  rw [SuParsMatch.ext_iff]
  exact ⟨fun h => h.2, fun h => ⟨rfl, h⟩⟩

theorem obeys_no_checkComment (hm : m.mPos <:+ m.mStart) :
    (ParsRet.no m.checkComment : ParsRet α).Obeys m True fits ↔
      checkComment m.mPos = m.mPos := by
  rw [← checkComment_eq_iff]
  exact ⟨fun h => h.2.2 trivial, fun h => ⟨rfl, (checkComment_pos m).trans hm, fun _ => h⟩⟩

theorem getLongLoop_yes (saved : SuParsMatch) (s : List UInt8) (num : ℤ) :
    ∃ value, getLongLoop saved s num =
      .yes value { saved with mPos := s.dropWhile chIsdigit } := by
  induction s generalizing num with
  | nil => exact ⟨num, rfl⟩
  | cons c s ih =>
      rw [getLongLoop]
      by_cases hc : chIsdigit c = true
      · rw [if_pos hc, List.dropWhile_cons_of_pos hc]
        exact ih _
      · rw [if_neg hc, List.dropWhile_cons_of_neg hc]
        exact ⟨num, rfl⟩

def LongMeets (s : List UInt8) : Prop :=
  (checkComment s).head?.any chIsdigit = true ∨ checkComment s = s

theorem suParsGetLong_obeys (hm : m.mPos <:+ m.mStart) :
    (suParsGetLong m).Obeys m True (fun _ => True) ↔ LongMeets m.mPos := by
  unfold suParsGetLong LongMeets
  dsimp only
  split
  · rename_i hdigit
    obtain ⟨value, heq⟩ := getLongLoop_yes m.checkComment m.checkComment.mPos 0
    rw [heq]
    refine iff_of_true ⟨trivial, rfl, ?_⟩ (.inl hdigit)
    exact ((List.dropWhile_suffix _).trans (checkComment_pos m)).trans hm
  · rename_i hdigit
    rw [obeys_no_checkComment hm]
    exact (or_iff_right hdigit).symm

def RunMeetsBuf (first p : UInt8 → Bool) (cap : ℕ) (s : List UInt8) : Prop :=
  match checkComment s with
  | [] => s = []
  | c :: s' => if first c then (s'.takeWhile p).length + 1 < cap else c :: s' = s

theorem getFirstAnd_obeys {first p : UInt8 → Bool} (hm : m.mPos <:+ m.mStart) (hcap : 3 ≤ cap) :
    (getFirstAnd first p m cap).Obeys m True (FitsBuf cap) ↔ RunMeetsBuf first p cap m.mPos := by
  unfold getFirstAnd RunMeetsBuf
  have hpos : m.checkComment.mPos = checkComment m.mPos := rfl
  dsimp only
  rw [hpos]
  cases ht : checkComment m.mPos with
  | nil =>
      dsimp only
      rw [obeys_no_checkComment hm, ht, eq_comm]
  | cons c s =>
      dsimp only
      split
      · rw [if_neg (by omega), getUncounted_eq (by rw [List.length_singleton]; omega),
          List.length_singleton]
        have hsuffix : s.dropWhile p <:+ m.mStart :=
          ((List.dropWhile_suffix p).trans (List.suffix_cons c s)).trans
            ((ht ▸ checkComment_suffix m.mPos).trans hm)
        by_cases hle : 1 + (s.takeWhile p).length ≤ cap
        · rw [if_pos hle]
          dsimp only [ParsRet.bind]
          rw [putNul, List.length_append, List.length_singleton]
          by_cases hlt : (s.takeWhile p).length + 1 < cap
          · rw [if_neg (by omega)]
            refine iff_of_true ⟨⟨?_, List.mem_append_right _ (List.mem_singleton_self _)⟩, rfl,
              hsuffix⟩ hlt
            rw [List.length_append, List.length_append, List.length_singleton,
              List.length_singleton]
            omega
          · rw [if_pos (by omega)]
            exact iff_of_false id hlt
        · rw [if_neg hle]
          exact iff_of_false id (by omega)
      · rw [obeys_no_checkComment hm, ht]

/-! ## Object names -/

def DotsMeet (size : ℕ) : ℕ → List UInt8 → Prop
  | 0, _ => True
  | n + 1, s =>
      (checkComment s).head? = some 46 →
        ∃ name, fittingName size (checkComment s).tail = some name ∧ DotsMeet size n name.2

/-- A dot at the start or behind the first name is followed by a name that fits, and without a
name there is nothing to skip. -/
def TablenameMeets (authid_size tabname_size : ℕ) (s : List UInt8) : Prop :=
  if (checkComment s).head? = some 46 then
    ∃ name, fittingName tabname_size (checkComment s).tail = some name
  else
    match fittingName authid_size s with
    | none => checkComment s = s
    | some name => DotsMeet tabname_size 1 name.2

def Objname3Meets (s : List UInt8) : Prop :=
  match fittingName (suMaxnamelen + 1) s with
  | none => True
  | some name => DotsMeet (suMaxnamelen + 1) 2 name.2

theorem matchConst_dot (m : SuParsMatch) :
    m.matchConst (bytesOf ".") =
      if (checkComment m.mPos).head? = some 46 then
        (true, { m with mPos := (checkComment m.mPos).tail })
      else (false, m.checkComment) := by
  have hdot : bytesOf "." = [46] := by decide
  unfold SuParsMatch.matchConst
  rw [hdot]
  dsimp only
  rw [if_neg (by simp)]
  cases ht : checkComment m.mPos with
  | nil => simp [SuParsMatch.checkComment, ht]
  | cons c s =>
      by_cases hc : c = 46
      · simp [SuParsMatch.checkComment, ht, hc]
      · simp [SuParsMatch.checkComment, ht, hc, Ne.symm hc]

theorem fitsBuf_name {name : List UInt8} (h : name.length < size) : FitsBuf size (name ++ [0]) := by
  refine ⟨?_, List.mem_append_right _ (List.mem_singleton_self _)⟩
  rw [List.length_append, List.length_singleton]
  omega

theorem length_tail_lt {c : UInt8} (h : s.head? = some c) : s.tail.length < s.length := by
  cases s with
  | nil => cases h
  | cons d s => exact Nat.lt_succ_self _

theorem getId_behind_obeys {f : List UInt8 → β} {fits : β → Prop} (hsize : 3 ≤ size)
    (hnul : 0 ∉ m.mStart) (hm : m.mPos <:+ m.mStart) (hstart : m'.mStart = m.mStart)
    (hpos : m'.mPos <:+ m.mPos) (hlt : m'.mPos.length < m.mPos.length)
    (hfits : ∀ buf, FitsBuf size buf → fits (f buf)) :
    ((suParsGetId m' size).map f).Obeys m True fits ↔
      ∃ name, fittingName size m'.mPos = some name := by
  have hnul' : 0 ∉ m'.mPos := fun h => hnul ((hpos.trans hm).subset h)
  rw [suParsGetId_eq hsize hnul']
  cases hname : fittingName size m'.mPos with
  | none =>
      refine iff_of_false (fun h => ?_) (by simp)
      have heq : m' = m := h.2.2 trivial
      rw [heq] at hlt
      exact Nat.lt_irrefl _ hlt
  | some name =>
      obtain ⟨hlen, hsuffix⟩ := fittingName_suffix hname
      refine iff_of_true ⟨hfits _ (fitsBuf_name hlen), hstart, ?_⟩ ⟨name, rfl⟩
      exact (hsuffix.trans hpos).trans hm

theorem suParsGetTablename_obeys {authid_size tabname_size : ℕ}
    {fits : List UInt8 × List UInt8 → Prop} (hauthid : 3 ≤ authid_size)
    (htabname : 3 ≤ tabname_size) (hnul : 0 ∉ m.mStart) (hm : m.mPos <:+ m.mStart)
    (hfits : ∀ authid tabname, FitsBuf authid_size authid → FitsBuf tabname_size tabname →
      fits (authid, tabname)) :
    (suParsGetTablename m authid_size tabname_size).Obeys m True fits ↔
      TablenameMeets authid_size tabname_size m.mPos := by
  have hnul' : 0 ∉ m.mPos := fun h => hnul (hm.subset h)
  have hskip := (checkComment_suffix m.mPos).length_le
  unfold suParsGetTablename TablenameMeets
  dsimp only
  rw [matchConst_dot]
  by_cases hdot : (checkComment m.mPos).head? = some 46
  · -- an empty schema
    have hlt := length_tail_lt hdot
    rw [if_pos hdot, if_pos hdot]
    exact getId_behind_obeys htabname hnul hm rfl
      ((List.tail_suffix _).trans (checkComment_suffix _)) (by dsimp only; omega)
      fun buf hbuf => hfits _ _ ⟨by rw [List.length_singleton]; omega, by simp⟩ hbuf
  · rw [if_neg hdot, if_neg hdot]
    dsimp only
    rw [if_neg Bool.false_ne_true, suParsGetId_eq hauthid
      (fun h => hnul' ((checkComment_pos m).subset h))]
    have hname : fittingName authid_size m.checkComment.mPos = fittingName authid_size m.mPos :=
      fittingName_checkComment m.mPos
    rw [hname]
    cases hfirst : fittingName authid_size m.mPos with
    | none => exact obeys_no_checkComment hm
    | some name =>
        obtain ⟨hlen, hsuffix⟩ := fittingName_suffix hfirst
        have hskip' := (checkComment_suffix name.2).length_le
        have hle := hsuffix.length_le
        dsimp only [ParsRet.bind]
        rw [matchConst_dot]
        by_cases hdot' : (checkComment name.2).head? = some 46
        · have hlt := length_tail_lt hdot'
          rw [if_pos hdot', if_pos rfl]
          have hget : ((suParsGetId { m with mPos := (checkComment name.2).tail }
              tabname_size).map fun tabname => (name.1 ++ [0], tabname)).Obeys m True fits ↔
                ∃ next, fittingName tabname_size (checkComment name.2).tail = some next :=
            getId_behind_obeys htabname hnul hm rfl
              (((List.tail_suffix _).trans (checkComment_suffix _)).trans hsuffix)
              (by dsimp only; omega) fun buf hbuf => hfits _ _ (fitsBuf_name hlen) hbuf
          refine hget.trans ⟨fun ⟨next, hnext⟩ _ => ⟨next, hnext, trivial⟩, fun h => ?_⟩
          obtain ⟨next, hnext, -⟩ := h hdot'
          exact ⟨next, hnext⟩
        · -- the only name is that of the table
          rw [if_neg hdot', if_neg Bool.false_ne_true]
          refine iff_of_true ?_ fun hdot'' => absurd hdot'' hdot'
          have hauthidbuf : FitsBuf authid_size (0 :: (name.1 ++ [0]).tail) := by
            refine ⟨?_, List.mem_cons_self⟩
            rw [List.length_cons, List.length_tail, List.length_append, List.length_singleton]
            omega
          have hget := suParsGetId_restores htabname hnul'
          exact (hget.map fun tabname htab => hfits _ _ hauthidbuf htab).obeys hm

theorem suParsGiveObjname_obeys (hnul : 0 ∉ m.mStart) (hm : m.mPos <:+ m.mStart) :
    (suParsGiveObjname m).Obeys m True (fun _ => True) ↔
      TablenameMeets (suMaxnamelen + 1) (suMaxnamelen + 1) m.mPos := by
  rw [suParsGiveObjname, ParsRet.obeys_map]
  exact suParsGetTablename_obeys (by decide) (by decide) hnul hm fun _ _ _ _ => trivial

theorem giveObjname3Loop_obeys {strarr : List (List UInt8)} (hnul : 0 ∉ m.mStart)
    (hm : m.mPos <:+ m.mStart) (hstart : m'.mStart = m.mStart) (hpos : m'.mPos <:+ m.mPos)
    (hlt : m'.mPos.length < m.mPos.length) :
    (giveObjname3Loop (n + 1) m' strarr).Obeys m True (fun _ => True) ↔
      ∃ name, fittingName (suMaxnamelen + 1) m'.mPos = some name ∧
        DotsMeet (suMaxnamelen + 1) n name.2 := by
  induction n generalizing m' strarr with
  | zero =>
      have hnul' : 0 ∉ m'.mPos := fun h => hnul ((hpos.trans hm).subset h)
      rw [giveObjname3Loop, suParsGetId_eq (by decide) hnul']
      cases hname : fittingName (suMaxnamelen + 1) m'.mPos with
      | none =>
          refine iff_of_false (fun h => ?_) (by simp)
          rw [h.2.2 trivial] at hlt
          exact Nat.lt_irrefl _ hlt
      | some name =>
          have hsuffix := (fittingName_suffix hname).2
          exact iff_of_true ⟨trivial, hstart, (hsuffix.trans hpos).trans hm⟩ ⟨name, rfl, trivial⟩
  | succ n ih =>
      have hnul' : 0 ∉ m'.mPos := fun h => hnul ((hpos.trans hm).subset h)
      rw [giveObjname3Loop, suParsGetId_eq (by decide) hnul']
      cases hname : fittingName (suMaxnamelen + 1) m'.mPos with
      | none =>
          refine iff_of_false (fun h => ?_) (by simp)
          rw [h.2.2 trivial] at hlt
          exact Nat.lt_irrefl _ hlt
      | some name =>
          have hsuffix := (fittingName_suffix hname).2
          have hskip := checkComment_suffix name.2
          have hle := (hskip.trans (hsuffix.trans hpos)).length_le
          dsimp only [ParsRet.bind]
          rw [if_neg (Nat.succ_ne_zero n), matchConst_dot]
          by_cases hdot : (checkComment name.2).head? = some 46
          · have hlt' := length_tail_lt hdot
            rw [if_pos hdot, if_pos rfl, ih]
            · constructor
              · rintro ⟨next, hnext, hdots⟩
                exact ⟨name, rfl, fun _ => ⟨next, hnext, hdots⟩⟩
              · rintro ⟨name', hname', hdots⟩
                obtain rfl : name = name' := Option.some_inj.mp hname'
                exact hdots hdot
            · exact hstart
            · exact ((List.tail_suffix _).trans hskip).trans (hsuffix.trans hpos)
            · dsimp only
              omega
          · rw [if_neg hdot, if_neg Bool.false_ne_true]
            refine iff_of_true ⟨trivial, hstart, ?_⟩
              ⟨name, rfl, fun hdot' => absurd hdot' hdot⟩
            exact (hskip.trans (hsuffix.trans hpos)).trans hm

theorem suParsGiveObjname3_obeys (hnul : 0 ∉ m.mStart) (hm : m.mPos <:+ m.mStart) :
    (suParsGiveObjname3 m).Obeys m True (fun _ => True) ↔ Objname3Meets m.mPos := by
  have hnul' : 0 ∉ m.mPos := fun h => hnul (hm.subset h)
  rw [suParsGiveObjname3, ParsRet.obeys_map, giveObjname3Loop,
    suParsGetId_eq (by decide) hnul', Objname3Meets]
  cases hname : fittingName (suMaxnamelen + 1) m.mPos with
  | none => exact iff_of_true ⟨rfl, hm, fun _ => rfl⟩ trivial
  | some name =>
      have hsuffix := (fittingName_suffix hname).2
      have hskip := checkComment_suffix name.2
      have hle := (hskip.trans hsuffix).length_le
      dsimp only [ParsRet.bind]
      rw [if_neg (by decide), matchConst_dot]
      by_cases hdot : (checkComment name.2).head? = some 46
      · have hlt := length_tail_lt hdot
        rw [if_pos hdot, if_pos rfl, giveObjname3Loop_obeys hnul hm]
        · exact ⟨fun h _ => h, fun h => h hdot⟩
        · rfl
        · exact ((List.tail_suffix _).trans hskip).trans hsuffix
        · dsimp only
          omega
      · rw [if_neg hdot, if_neg Bool.false_ne_true]
        exact iff_of_true ⟨trivial, rfl, (hskip.trans hsuffix).trans hm⟩
          fun hdot' => absurd hdot' hdot

end SolidDB
