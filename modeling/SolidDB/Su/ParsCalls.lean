import SolidDB.Su.ParsHint

/-!
# Calls of the parser

Every function keeps within the text and its buffers, and returns `FALSE` only at the position
where it started, exactly on the texts that meet its condition.
-/

namespace SolidDB

open SuParsMatch

variable {α β : Type*} {m : SuParsMatch} {r : ParsRet α} {restores : Prop} {fits : α → Prop}
  {s : List UInt8} {size : ℕ}

inductive ParsCall where
  | getId (id_size : ℕ)
  | getTablename (authid_size tabname_size : ℕ)
  | getPwd (pwd_size : ℕ)
  | getFilename (fname_size : ℕ)
  | getStringliteral (string_size : ℕ)
  | getStringliteralWithquotes (string_size : ℕ)
  | getLong
  | getSpecial (buf_size : ℕ)
  | getNumeric (buf_size : ℕ)
  | giveObjname
  | giveObjname3
  | giveHint
  | skiptoKeyword (const_str end_str : List UInt8)

namespace ParsCall

def sizes : ParsCall → List ℕ
  | getId n | getPwd n | getFilename n | getStringliteral n | getStringliteralWithquotes n
  | getSpecial n | getNumeric n => [n]
  | getTablename n n' => [n, n']
  | getLong | giveObjname | giveObjname3 | giveHint | skiptoKeyword _ _ => []

def run (m : SuParsMatch) : ParsCall → ParsRet (List (List UInt8))
  | getId n => (suParsGetId m n).map fun buf => [buf]
  | getTablename n n' => (suParsGetTablename m n n').map fun bufs => [bufs.1, bufs.2]
  | getPwd n => (suParsGetPwd m n).map fun buf => [buf]
  | getFilename n => (suParsGetFilename m n).map fun buf => [buf]
  | getStringliteral n => (suParsGetStringliteral m n false).map fun buf => [buf]
  | getStringliteralWithquotes n => (suParsGetStringliteral m n true).map fun buf => [buf]
  | getLong => (suParsGetLong m).map fun _ => []
  | getSpecial n => (suParsGetSpecial m n).map fun buf => [buf]
  | getNumeric n => (suParsGetNumeric m n).map fun buf => [buf]
  | giveObjname => (suParsGiveObjname m).map fun _ => []
  | giveObjname3 => (suParsGiveObjname3 m).map fun _ => []
  | giveHint => (suParsGiveHint m).map fun _ => []
  | skiptoKeyword const_str end_str => (suParsSkiptoKeyword m const_str end_str).map fun _ => []

/-- Only the search for a keyword may return `FALSE` at another position. -/
def Restoring : ParsCall → Prop
  | skiptoKeyword _ _ => False
  | _ => True

/-- The call returns, it keeps within the text and its buffers, and it restores the position. -/
def Obeys (c : ParsCall) (m : SuParsMatch) : Prop :=
  (c.run m).Obeys m c.Restoring (List.Forall₂ FitsBuf c.sizes)

def Meets (s : List UInt8) : ParsCall → Prop
  | getId _ | getPwd _ | getFilename _ | getStringliteral _ | getStringliteralWithquotes _ => True
  | getTablename n n' => TablenameMeets n n' s
  | getLong => LongMeets s
  | getSpecial n => RunMeetsBuf parsIsspecial parsIsspecial n s
  | getNumeric n => RunMeetsBuf chIsdigit isNumericChar n s
  | giveObjname => TablenameMeets (suMaxnamelen + 1) (suMaxnamelen + 1) s
  | giveObjname3 => Objname3Meets s
  | giveHint => HintMeets s
  | skiptoKeyword const_str end_str => SkipMeets const_str end_str s

end ParsCall

theorem ParsRet.obeys_map_iff {fits' : β → Prop} {f : α → β}
    (hf : ∀ a, fits' (f a) ↔ fits a) :
    (r.map f).Obeys m restores fits' ↔ r.Obeys m restores fits := by
  cases r with
  | outside => rfl
  | no m' => rfl
  | yes a m' => exact and_congr_left' (hf a)

theorem forall₂_fitsBuf_singleton (buf : List UInt8) :
    List.Forall₂ FitsBuf [size] [buf] ↔ FitsBuf size buf := by
  rw [List.forall₂_cons, and_iff_left List.Forall₂.nil]

/-- A call with one buffer that always restores the position. -/
theorem obeys_of_restores {r : ParsRet (List UInt8)} (h : r.Restores m (FitsBuf size))
    (hm : m.mPos <:+ m.mStart) :
    (r.map fun buf => [buf]).Obeys m True (List.Forall₂ FitsBuf [size]) :=
  (ParsRet.obeys_map_iff forall₂_fitsBuf_singleton).mpr (h.obeys hm)

theorem obeys_map_nil :
    (r.map fun _ => ([] : List (List UInt8))).Obeys m restores (List.Forall₂ FitsBuf []) ↔
      r.Obeys m restores fun _ => True :=
  ParsRet.obeys_map_iff fun _ => iff_of_true List.Forall₂.nil trivial

/-- A text that starts with a double quote has nothing to skip. -/
theorem checkComment_quote (s : List UInt8) : checkComment (34 :: s) = 34 :: s := by
  have hspace : ¬chIsspace 34 = true := by decide
  rw [checkComment, ssStrTrimLeft, List.dropWhile_cons_of_neg hspace, skipComments_of_ne]
  intro s' heq
  exact absurd (List.cons.inj heq).1 (by decide)

/-- Every call obeys on exactly the texts that meet its condition. A name in double quotes is
read back when it is not empty. -/
theorem suPars_obeys (c : ParsCall) (m : SuParsMatch) (hnul : 0 ∉ m.mStart)
    (hm : m.mPos <:+ m.mStart) :
    ((∀ n ∈ c.sizes, 3 ≤ n) → (c.Obeys m ↔ c.Meets m.mPos)) ∧
    ∀ (name rest : List UInt8) (size : ℕ),
      m.mPos = 34 :: (doubleQuotes 34 name ++ 34 :: rest) → rest.head? ≠ some 34 →
      3 ≤ size → name.length < size →
      (suParsGetId m size = .yes (name ++ [0]) { m with mPos := rest } ↔ name ≠ []) := by
  have hnul' : 0 ∉ m.mPos := fun h => hnul (hm.subset h)
  refine ⟨fun hsizes => ?_, fun name rest size hpos hrest hsize hlen => ?_⟩
  · cases c with
    | getId n =>
        have hn := hsizes n (List.mem_singleton_self n)
        exact iff_of_true (obeys_of_restores (suParsGetId_restores hn hnul') hm) trivial
    | getTablename n n' =>
        have hn := hsizes n List.mem_cons_self
        have hn' := hsizes n' (List.mem_cons_of_mem n (List.mem_singleton_self n'))
        have hbufs : ∀ bufs : List UInt8 × List UInt8,
            List.Forall₂ FitsBuf [n, n'] [bufs.1, bufs.2] ↔
              FitsBuf n bufs.1 ∧ FitsBuf n' bufs.2 := fun bufs => by
          rw [List.forall₂_cons, forall₂_fitsBuf_singleton]
        exact (ParsRet.obeys_map_iff hbufs).trans
          (suParsGetTablename_obeys hn hn' hnul hm fun _ _ hauthid htabname =>
            ⟨hauthid, htabname⟩)
    | getPwd n =>
        have hn := hsizes n (List.mem_singleton_self n)
        exact iff_of_true (obeys_of_restores (suParsGetPwd_restores hn) hm) trivial
    | getFilename n =>
        have hn := hsizes n (List.mem_singleton_self n)
        exact iff_of_true (obeys_of_restores (suParsGetFilename_restores hn) hm) trivial
    | getStringliteral n =>
        have hn := hsizes n (List.mem_singleton_self n)
        exact iff_of_true (obeys_of_restores (suParsGetStringliteral_restores hn false) hm) trivial
    | getStringliteralWithquotes n =>
        have hn := hsizes n (List.mem_singleton_self n)
        exact iff_of_true (obeys_of_restores (suParsGetStringliteral_restores hn true) hm) trivial
    | getLong => exact obeys_map_nil.trans (suParsGetLong_obeys hm)
    | getSpecial n =>
        have hn := hsizes n (List.mem_singleton_self n)
        exact (ParsRet.obeys_map_iff forall₂_fitsBuf_singleton).trans (getFirstAnd_obeys hm hn)
    | getNumeric n =>
        have hn := hsizes n (List.mem_singleton_self n)
        exact (ParsRet.obeys_map_iff forall₂_fitsBuf_singleton).trans (getFirstAnd_obeys hm hn)
    | giveObjname => exact obeys_map_nil.trans (suParsGiveObjname_obeys hnul hm)
    | giveObjname3 => exact obeys_map_nil.trans (suParsGiveObjname3_obeys hnul hm)
    | giveHint => exact obeys_map_nil.trans (suParsGiveHint_obeys hnul hm)
    | skiptoKeyword const_str end_str =>
        exact obeys_map_nil.trans (suParsSkiptoKeyword_obeys hm)
  · have hname : nameAt (checkComment m.mPos) = some (name, rest) := by
      rw [hpos, checkComment_quote, nameAt_doubleQuotes name hrest]
    rw [suParsGetId_eq hsize hnul', fittingName_of_nameAt hname]
    by_cases hempty : name = []
    · rw [if_neg fun h => h.1 hempty]
      exact iff_of_false (by simp) (not_not_intro hempty)
    · rw [if_pos ⟨hempty, hlen⟩]
      exact iff_of_true rfl hempty

/-- A name with a quote in it, and a hint that ends with the text. -/
theorem suPars_obeys_quoted :
    suParsGetId ⟨bytesOf "\"a\"\"b\" c", bytesOf "\"a\"\"b\" c"⟩ 4 =
        .yes (bytesOf "a\"b" ++ [0]) ⟨bytesOf "\"a\"\"b\" c", bytesOf " c"⟩ ∧
      (ParsCall.getLong.Obeys ⟨bytesOf " 7", bytesOf " 7"⟩ ↔
        ParsCall.getLong.Meets (bytesOf " 7")) :=
  ⟨((suPars_obeys (.getId 4) ⟨bytesOf "\"a\"\"b\" c", bytesOf "\"a\"\"b\" c"⟩ (by decide)
      (List.suffix_refl _)).2 (bytesOf "a\"b") (bytesOf " c") 4 (by decide) (by decide)
      (by decide) (by decide)).mpr (by decide),
    (suPars_obeys .getLong ⟨bytesOf " 7", bytesOf " 7"⟩ (by decide) (List.suffix_refl _)).1
      (by decide)⟩

/-- Positions that are not restored, a buffer that is too small, and texts that end in a hint or
before the keyword. -/
theorem not_suPars_obeys :
    suParsGetLong ⟨bytesOf " x", bytesOf " x"⟩ = .no ⟨bytesOf " x", bytesOf "x"⟩ ∧
      suParsGetTablename ⟨bytesOf "a.", bytesOf "a."⟩ 9 9 = .no ⟨bytesOf "a.", []⟩ ∧
      suParsGetSpecial ⟨bytesOf "+++", bytesOf "+++"⟩ 3 = .outside ∧
      suParsGiveHint ⟨bytesOf "HINT a", bytesOf "HINT a"⟩ = .outside ∧
      suParsSkiptoKeyword ⟨bytesOf "a ", bytesOf "a "⟩ (bytesOf "B") (bytesOf ")") = .outside := by
  decide +kernel

end SolidDB
