import Mathlib.Data.List.TakeWhile
import Mathlib.Data.List.Lemmas
import SolidDB.Foundation.Wildcard

/-!
# The LIKE operator

`su1tlike.h`: the matcher, the check of a pattern and the functions that tell about its fixed
prefix. Characters are their unsigned values; the escape character is `none` for
`SU_SLIKE_NOESCCHAR`. A read behind the end of the pattern gives `none`.
-/

namespace SolidDB

section

/-! ## The matcher -/

/-- The first loop: of several percent signs in front only the last one stays. -/
def skipPercents : List ℕ → List ℕ
  | p :: q :: patt => if p = 37 ∧ q = 37 then skipPercents (q :: patt) else p :: q :: patt
  | patt => patt

/-- The tries at a percent sign, from the string and from each of its rests. -/
def anySuffix (f : List ℕ → Option Bool) : List ℕ → Option Bool
  | [] => f []
  | c :: s => (f (c :: s)).bind fun b => if b then some true else anySuffix f s

/-- The start of the tries: an ordinary character behind the percent sign is searched. -/
def searchNext (esc : Option ℕ) (pchar : ℕ) (s : List ℕ) : List ℕ :=
  if esc ≠ some pchar ∧ pchar ≠ 37 ∧ pchar ≠ 95 then s.dropWhile (· ≠ pchar) else s

/-- The second loop, with the recursive call `like`. -/
def slikeLoop (like : List ℕ → List ℕ → Option Bool) (esc : Option ℕ) :
    List ℕ → List ℕ → Option Bool
  | [], patt => some (patt.all (· = 37))
  | _ :: _, [] => some false
  | c :: s, p :: patt =>
    if esc = some p then
      match patt with
      | [] => none
      | q :: patt => if c = q then slikeLoop like esc s patt else some false
    else if p = 37 then
      match patt with
      | [] => some true
      | q :: patt => anySuffix (like · (q :: patt)) (searchNext esc q (c :: s))
    else if p = 95 ∨ p = c then slikeLoop like esc s patt
    else some false

/-- `SU_SLIKE`, each recursive call with less fuel. -/
def suSlikeFuel (esc : Option ℕ) : ℕ → List ℕ → List ℕ → Option Bool
  | 0, _, _ => none
  | fuel + 1, s, patt => slikeLoop (suSlikeFuel esc fuel) esc s (skipPercents patt)

/-- `SU_SLIKE`. A recursive call has a shorter pattern. -/
def suSlike (s patt : List ℕ) (esc : Option ℕ) : Option Bool :=
  suSlikeFuel esc (patt.length + 1) s patt

/-! ## The pattern -/

/-- The loop of `SU_SLIKE_LEGALPATTERN`. -/
def legalLoop (esc : ℕ) : List ℕ → Bool
  | [] => true
  | p :: patt =>
    if p = esc then
      match patt with
      | [] => false
      | q :: patt => if q = 37 ∨ q = 95 ∨ q = esc then legalLoop esc patt else false
    else legalLoop esc patt

def suSlikeLegalpattern (patt : List ℕ) (esc : Option ℕ) : Bool :=
  match esc with
  | none => true
  | some esc => legalLoop esc patt

/-- `SU_SLIKE_FIXEDPREFIX`; the source has `NULL` for the empty prefix. -/
def suSlikeFixedprefix (esc : Option ℕ) : List ℕ → Option (List ℕ)
  | [] => some []
  | c :: patt =>
    if esc = some c then
      match patt with
      | [] => none
      | c :: patt => ( suSlikeFixedprefix esc patt).map (c :: ·)
    else if c = 37 ∨ c = 95 then some []
    else ( suSlikeFixedprefix esc patt).map (c :: ·)

structure SlikePrefixinfo where
  prefixlen : ℕ
  numfixedchars : ℕ
  numwildcards : ℕ
  deriving DecidableEq

/-- The loop of `SU_SLIKE_PREFIXINFO` with its counters. -/
def prefixinfoLoop (esc : Option ℕ) (isPrefix : ℕ) (i : SlikePrefixinfo) :
    List ℕ → Option SlikePrefixinfo
  | [] => some i
  | c :: patt =>
    if esc = some c then
      match patt with
      | [] => none
      | _ :: patt =>
        prefixinfoLoop esc isPrefix
          ⟨i.prefixlen + isPrefix, i.numfixedchars + 1, i.numwildcards⟩ patt
    else if c = 37 ∨ c = 95 then
      prefixinfoLoop esc 0 ⟨i.prefixlen, i.numfixedchars, i.numwildcards + 1⟩ patt
    else
      prefixinfoLoop esc isPrefix
        ⟨i.prefixlen + isPrefix, i.numfixedchars + 1, i.numwildcards⟩ patt

def suSlikePrefixinfo (patt : List ℕ) (esc : Option ℕ) : Option SlikePrefixinfo :=
  prefixinfoLoop esc 1 ⟨0, 0, 0⟩ patt

/-! ## The language of a pattern -/

/-- The token of a character that is not the escape character. -/
def plainToken (c : ℕ) : Wildcard ℕ := if c = 37 then .any else if c = 95 then .one else .char c

/-- The tokens of a pattern under the definition of SQL. -/
def slikeTokens (esc : Option ℕ) : List ℕ → List (Wildcard ℕ)
  | [] => []
  | [c] => if esc = some c then [] else [plainToken c]
  | c :: d :: patt =>
    if esc = some c then .char d :: slikeTokens esc patt
    else plainToken c :: slikeTokens esc (d :: patt)

def SlikeLanguage (patt : List ℕ) (esc : Option ℕ) (s : List ℕ) : Prop :=
  Wildcard.Matches (slikeTokens esc patt) s

/-- The prefix information tells that the fixed characters are followed by wildcards only. -/
def IsPrefixSearch (i : SlikePrefixinfo) : Prop :=
  i.prefixlen = i.numfixedchars ∧ i.numwildcards ≠ 0

end

/-!
## Matcher and language

For an escape character other than the percent sign the matcher decides the language of every
legal pattern. With the percent sign as escape character the loop over the percent signs in
front and the one behind the string take escaped percent signs for wildcards.
-/

section

open Wildcard

def Decides (r : Option Bool) (P : Prop) : Prop := ∃ b, r = some b ∧ (b = true ↔ P)

theorem Decides.congr {r : Option Bool} {P Q : Prop} (h : Decides r P) (hPQ : P ↔ Q) :
    Decides r Q := by
  obtain ⟨b, hr, hb⟩ := h
  exact ⟨b, hr, hb.trans hPQ⟩

theorem Decides.eq_true_iff {r : Option Bool} {P : Prop} (h : Decides r P) :
    r = some true ↔ P := by
  obtain ⟨b, hr, hb⟩ := h
  rw [hr, Option.some.injEq]
  exact hb

theorem decides_true {P : Prop} (h : P) : Decides (some true) P := ⟨true, rfl, by simp [h]⟩

theorem decides_false {P : Prop} (h : ¬ P) : Decides (some false) P := ⟨false, rfl, by simp [h]⟩

variable {esc : Option ℕ}

/-! ## Legal patterns -/

/-- A legal pattern is a list of escaped characters and other ones. -/
theorem legal_induction {motive : List ℕ → Prop} (nil : motive [])
    (escaped : ∀ e q patt, esc = some e → q = 37 ∨ q = 95 ∨ q = e →
      suSlikeLegalpattern patt esc = true → motive patt → motive (e :: q :: patt))
    (plain : ∀ p patt, esc ≠ some p → suSlikeLegalpattern patt esc = true → motive patt →
      motive (p :: patt)) :
    ∀ patt, suSlikeLegalpattern patt esc = true → motive patt := by
  intro patt hlegal
  cases esc with
  | none =>
      induction patt with
      | nil => exact nil
      | cons p patt ih => exact plain p patt (by simp) rfl (ih rfl)
  | some e =>
      change legalLoop e patt = true at hlegal
      induction patt using legalLoop.induct e with
      | case1 => exact nil
      | case2 => simp [legalLoop] at hlegal
      | case3 q patt hq ih =>
          rw [legalLoop.eq_def] at hlegal
          simp only [hq, if_true] at hlegal
          exact escaped e q patt rfl hq hlegal (ih hlegal)
      | case4 q patt hq =>
          rw [legalLoop.eq_def] at hlegal
          simp [hq] at hlegal
      | case5 p patt hp ih =>
          rw [legalLoop.eq_def] at hlegal
          simp only [hp, if_false] at hlegal
          exact plain p patt (fun h => hp (Option.some.inj h).symm) hlegal (ih hlegal)

theorem slikeTokens_escaped {e : ℕ} (he : esc = some e) (q : ℕ) (patt : List ℕ) :
    slikeTokens esc (e :: q :: patt) = .char q :: slikeTokens esc patt := by
  rw [slikeTokens, if_pos he]

theorem slikeTokens_plain {p : ℕ} (hp : esc ≠ some p) (patt : List ℕ) :
    slikeTokens esc (p :: patt) = plainToken p :: slikeTokens esc patt := by
  cases patt with
  | nil => exact if_neg hp
  | cons q patt => exact if_neg hp

theorem legal_plain_cons {p : ℕ} (hp : esc ≠ some p) (patt : List ℕ) :
    suSlikeLegalpattern (p :: patt) esc = suSlikeLegalpattern patt esc := by
  cases esc with
  | none => rfl
  | some e =>
      have hne : p ≠ e := fun h => hp (by rw [h])
      rw [suSlikeLegalpattern, suSlikeLegalpattern, legalLoop.eq_def]
      simp only [hne, if_false]

theorem legal_escaped_cons {e q : ℕ} (he : esc = some e) (hq : q = 37 ∨ q = 95 ∨ q = e)
    (patt : List ℕ) :
    suSlikeLegalpattern (e :: q :: patt) esc = suSlikeLegalpattern patt esc := by
  rw [he, suSlikeLegalpattern, suSlikeLegalpattern, legalLoop.eq_def]
  simp only [hq, if_true]

/-! ## The parts of the matcher -/

theorem anySuffix_decides {f : List ℕ → Option Bool} {P : List ℕ → Prop} :
    ∀ s, (∀ u, Decides (f u) (P u)) → Decides (anySuffix f s) (∃ u, u <:+ s ∧ P u)
  | [], h => (h []).congr (by simp [List.suffix_nil])
  | c :: s, h => by
    obtain ⟨b, hb, hP⟩ := h (c :: s)
    rw [anySuffix, hb, Option.bind_some]
    cases b with
    | true => exact decides_true ⟨c :: s, List.suffix_rfl, hP.mp rfl⟩
    | false =>
      refine (anySuffix_decides s h).congr ⟨?_, ?_⟩
      · rintro ⟨u, hu, hPu⟩
        exact ⟨u, hu.trans (List.suffix_cons c s), hPu⟩
      · rintro ⟨u, hu, hPu⟩
        rcases List.suffix_cons_iff.mp hu with rfl | hu
        · exact absurd (hP.mpr hPu) (by simp)
        · exact ⟨u, hu, hPu⟩

theorem searchNext_matches (q : ℕ) (patt s : List ℕ) :
    Matches (.any :: slikeTokens esc (q :: patt)) (searchNext esc q s) ↔
      Matches (.any :: slikeTokens esc (q :: patt)) s := by
  rw [searchNext]
  split
  · next h =>
    rw [slikeTokens_plain h.1, plainToken, if_neg h.2.1, if_neg h.2.2]
    exact matches_any_char_dropWhile
  · rfl

/-- With several percent signs in front, all but the last are wildcards for any word. -/
theorem skipPercents_language (hesc : esc ≠ some 37) (patt s : List ℕ) :
    SlikeLanguage (skipPercents patt) esc s ↔ SlikeLanguage patt esc s := by
  induction patt using skipPercents.induct with
  | case1 p q patt h ih =>
      obtain ⟨rfl, rfl⟩ := h
      rw [skipPercents, if_pos ⟨rfl, rfl⟩, ih]
      simp only [SlikeLanguage, slikeTokens_plain hesc, plainToken, if_true]
      exact matches_any_any_iff.symm
  | case2 p q patt h => rw [skipPercents, if_neg h]
  | case3 patt h =>
      rw [skipPercents]
      exact h

theorem skipPercents_legal (hesc : esc ≠ some 37) {patt : List ℕ}
    (h : suSlikeLegalpattern patt esc = true) :
    suSlikeLegalpattern (skipPercents patt) esc = true := by
  induction patt using skipPercents.induct with
  | case1 p q patt hpq ih =>
      obtain ⟨rfl, rfl⟩ := hpq
      rw [skipPercents, if_pos ⟨rfl, rfl⟩]
      exact ih ((legal_plain_cons hesc _).symm.trans h)
  | case2 p q patt hpq =>
      rw [skipPercents, if_neg hpq]
      exact h
  | case3 patt hpatt =>
      rw [skipPercents]
      · exact h
      · exact hpatt

theorem skipPercents_length_le (patt : List ℕ) : (skipPercents patt).length ≤ patt.length := by
  induction patt using skipPercents.induct with
  | case1 p q patt h ih =>
      rw [skipPercents, if_pos h]
      exact ih.trans (Nat.le_succ _)
  | case2 p q patt h => rw [skipPercents, if_neg h]
  | case3 patt h =>
      rw [skipPercents]
      exact h

/-! ## The loop -/

/-- Behind the string only wildcards for any word may be left. -/
theorem all_percent_iff (hesc : esc ≠ some 37) :
    ∀ patt, suSlikeLegalpattern patt esc = true →
      (patt.all (· = 37) = true ↔ SlikeLanguage patt esc []) := by
  refine legal_induction (by simp [SlikeLanguage, slikeTokens]) ?_ ?_
  · intro e q patt he _ _ _
    have hne : e ≠ 37 := fun h => hesc (by rw [he, h])
    rw [SlikeLanguage, slikeTokens_escaped he, matches_nil_word_iff]
    simp [hne]
  · intro p patt hp _ ih
    rw [SlikeLanguage, matches_nil_word_iff] at ih
    rw [SlikeLanguage, slikeTokens_plain hp, matches_nil_word_iff, List.forall_mem_cons, ← ih,
      plainToken]
    split
    · next h => simp [h]
    · next h => split <;> simp [h]

theorem slikeLoop_decides (hesc : esc ≠ some 37) {like : List ℕ → List ℕ → Option Bool}
    {n : ℕ} (hlike : ∀ patt, suSlikeLegalpattern patt esc = true → patt.length < n →
      ∀ s, Decides (like s patt) (SlikeLanguage patt esc s)) :
    ∀ patt, suSlikeLegalpattern patt esc = true → patt.length ≤ n → ∀ s,
      Decides (slikeLoop like esc s patt) (SlikeLanguage patt esc s) := by
  refine legal_induction ?_ ?_ ?_
  · intro _ s
    cases s with
    | nil => exact decides_true .nil
    | cons c s => exact decides_false (by simp [SlikeLanguage, slikeTokens])
  · intro e q patt he _ hlegal ih hn s
    have hall := all_percent_iff hesc (e :: q :: patt)
    have hne : e ≠ 37 := fun h => hesc (by rw [he, h])
    rw [SlikeLanguage, slikeTokens_escaped he]
    cases s with
    | nil =>
        refine ⟨_, rfl, ?_⟩
        rw [matches_nil_word_iff]
        simp [hne]
    | cons c s =>
        rw [slikeLoop, if_pos he, matches_char_cons_iff]
        by_cases hc : c = q
        · simp only [hc, if_true, true_and]
          exact ih (by simp only [List.length_cons] at hn; omega) s
        · simp only [hc, if_false]
          exact decides_false fun h => hc h.1.symm
  · intro p patt hp hlegal ih hn s
    cases s with
    | nil =>
        exact ⟨_, by rw [slikeLoop],
          all_percent_iff hesc _ ((legal_plain_cons hp patt).trans hlegal)⟩
    | cons c s =>
        rw [slikeLoop.eq_def, SlikeLanguage, slikeTokens_plain hp, plainToken]
        simp only [hp, if_false]
        by_cases h37 : p = 37
        · simp only [h37, if_true]
          cases patt with
          | nil => exact decides_true (matches_any_self _)
          | cons q patt =>
              refine (anySuffix_decides _ (hlike (q :: patt) hlegal hn)).congr ?_
              rw [← searchNext_matches, matches_any_iff]
              rfl
        · simp only [h37, if_false]
          by_cases h95 : p = 95
          · simp only [h95, if_true, true_or, matches_one_cons_iff]
            exact ih (Nat.le_of_succ_le hn) s
          · simp only [h95, if_false, false_or, matches_char_cons_iff]
            by_cases hc : p = c
            · simp only [hc, if_true, true_and]
              exact ih (Nat.le_of_succ_le hn) s
            · simp only [hc, if_false]
              exact decides_false fun h => h.1

theorem suSlikeFuel_decides (hesc : esc ≠ some 37) :
    ∀ fuel patt, suSlikeLegalpattern patt esc = true → patt.length < fuel →
      ∀ s, Decides (suSlikeFuel esc fuel s patt) (SlikeLanguage patt esc s)
  | 0, _, _, hn => absurd hn (Nat.not_lt_zero _)
  | fuel + 1, patt, hlegal, hn => by
    intro s
    rw [suSlikeFuel]
    refine (slikeLoop_decides hesc (suSlikeFuel_decides hesc fuel) (skipPercents patt)
      (skipPercents_legal hesc hlegal) ?_ s).congr (skipPercents_language hesc patt s)
    exact (skipPercents_length_le patt).trans (Nat.le_of_lt_succ hn)

end

end SolidDB
