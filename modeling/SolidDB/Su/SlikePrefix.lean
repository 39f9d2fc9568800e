import SolidDB.Su.SlikePercent
import Mathlib.Algebra.Order.Group.Nat

/-!
# The fixed prefix

The fixed prefix of a pattern is its characters before the first wildcard. The prefix
information counts the characters and the wildcards, those for one character like the others.
-/

namespace SolidDB

open Wildcard

variable {esc : Option ℕ}

def isChar : Wildcard ℕ → Bool
  | .char _ => true
  | _ => false

theorem isChar_plainToken (p : ℕ) : isChar (plainToken p) = true ↔ ¬ (p = 37 ∨ p = 95) := by
  rw [plainToken]
  split
  · simp [isChar, *]
  · split <;> simp [isChar, *]

theorem plainToken_of_char {p : ℕ} (hp : ¬ (p = 37 ∨ p = 95)) : plainToken p = .char p := by
  obtain ⟨h37, h95⟩ := not_or.mp hp
  rw [plainToken, if_neg h37, if_neg h95]

/-! ## The prefix -/

theorem fixedprefix_plain {p : ℕ} (hp : esc ≠ some p) (patt : List ℕ) :
    suSlikeFixedprefix esc (p :: patt) =
      if p = 37 ∨ p = 95 then some [] else ( suSlikeFixedprefix esc patt).map (p :: ·) := by
  cases patt with
  | nil => exact if_neg hp
  | cons q patt => exact if_neg hp

/-- The fixed prefix is the characters in front of the first wildcard. -/
theorem fixedprefix_tokens : ∀ patt, suSlikeLegalpattern patt esc = true →
    ∃ p, suSlikeFixedprefix esc patt = some p ∧
      p.map .char = (slikeTokens esc patt).takeWhile isChar := by
  refine legal_induction ⟨[], rfl, rfl⟩ ?_ ?_
  · intro e q patt he _ _ ih
    obtain ⟨p, hp, htokens⟩ := ih
    refine ⟨q :: p, ?_, ?_⟩
    · have hstep : suSlikeFixedprefix esc (e :: q :: patt) =
          ( suSlikeFixedprefix esc patt).map (q :: ·) := if_pos he
      rw [hstep, hp, Option.map_some]
    · rw [slikeTokens_escaped he, List.takeWhile_cons_of_pos rfl, ← htokens, List.map_cons]
  · intro c patt hc _ ih
    obtain ⟨p, hp, htokens⟩ := ih
    rw [fixedprefix_plain hc, slikeTokens_plain hc]
    by_cases hw : c = 37 ∨ c = 95
    · refine ⟨[], if_pos hw, ?_⟩
      rw [List.takeWhile_cons_of_neg fun h => (isChar_plainToken c).mp h hw, List.map_nil]
    · refine ⟨c :: p, by rw [if_neg hw, hp, Option.map_some], ?_⟩
      rw [List.takeWhile_cons_of_pos ((isChar_plainToken c).mpr hw), ← htokens,
        plainToken_of_char hw, List.map_cons]

/-! ## The prefix information -/

theorem prefixinfoLoop_tokens : ∀ patt, suSlikeLegalpattern patt esc = true → ∀ k i,
    prefixinfoLoop esc k i patt = some
      ⟨i.prefixlen + k * ((slikeTokens esc patt).takeWhile isChar).length,
        i.numfixedchars + (slikeTokens esc patt).countP isChar,
        i.numwildcards + (slikeTokens esc patt).countP (! isChar ·)⟩ := by
  refine legal_induction ?_ ?_ ?_
  · intro k i
    rw [prefixinfoLoop]
    simp [slikeTokens]
  · intro e q patt he _ _ ih k i
    rw [prefixinfoLoop.eq_def]
    simp only [he, if_true]
    rw [← he, ih, slikeTokens_escaped he, List.takeWhile_cons_of_pos rfl,
      List.countP_cons_of_pos rfl, List.countP_cons_of_neg (by simp [isChar])]
    simp only [List.length_cons, Option.some.injEq, SlikePrefixinfo.mk.injEq, and_true]
    exact ⟨by rw [Nat.mul_succ]; omega, by omega⟩
  · intro c patt hc _ ih k i
    rw [prefixinfoLoop.eq_def, slikeTokens_plain hc]
    simp only [hc, if_false]
    by_cases hw : c = 37 ∨ c = 95
    · have hchar : isChar (plainToken c) = false := by
        rw [← Bool.not_eq_true, isChar_plainToken, not_not]
        exact hw
      simp only [hw, if_true, ih, List.takeWhile_cons, List.countP_cons, hchar]
      simp only [List.length_nil, Nat.mul_zero, Nat.zero_mul, Nat.add_zero, Bool.not_false,
        if_true, Option.some.injEq, SlikePrefixinfo.mk.injEq, true_and, Bool.false_eq_true,
        if_false]
      omega
    · have hchar : isChar (plainToken c) = true := (isChar_plainToken c).mpr hw
      simp only [hw, if_false, ih, List.takeWhile_cons, List.countP_cons, hchar]
      simp only [List.length_cons, Nat.mul_succ, Bool.not_true, Bool.false_eq_true, if_false,
        if_true, Option.some.injEq, SlikePrefixinfo.mk.injEq, and_true, Nat.add_zero]
      omega

/-- Prefix information of a pattern whose wildcards all stand behind its characters. -/
theorem isPrefixSearch_iff {patt : List ℕ} (hlegal : suSlikeLegalpattern patt esc = true) :
    ∃ i, suSlikePrefixinfo patt esc = some i ∧
      (IsPrefixSearch i ↔ (slikeTokens esc patt).dropWhile isChar ≠ [] ∧
        ∀ t ∈ (slikeTokens esc patt).dropWhile isChar, isChar t = false) := by
  refine ⟨_, prefixinfoLoop_tokens patt hlegal 1 ⟨0, 0, 0⟩, ?_⟩
  simp only [IsPrefixSearch, Nat.zero_add, Nat.one_mul]
  generalize slikeTokens esc patt = ts
  have htake : ∀ t ∈ ts.takeWhile isChar, isChar t = true := fun t ht =>
    List.mem_takeWhile_imp ht
  have hfixed : ts.countP isChar =
      (ts.takeWhile isChar).length + (ts.dropWhile isChar).countP isChar := by
    conv_lhs => rw [← List.takeWhile_append_dropWhile (p := isChar) (l := ts)]
    rw [List.countP_append, List.countP_eq_length.mpr htake]
  have hwild : ts.countP (! isChar ·) = (ts.dropWhile isChar).countP (! isChar ·) := by
    conv_lhs => rw [← List.takeWhile_append_dropWhile (p := isChar) (l := ts)]
    rw [List.countP_append, List.countP_eq_zero.mpr fun t ht => by simp [htake t ht],
      Nat.zero_add]
  rw [hfixed, hwild]
  constructor
  · rintro ⟨h0, hne⟩
    have hzero : (ts.dropWhile isChar).countP isChar = 0 := by omega
    refine ⟨fun h => hne (by rw [h]; rfl), fun t ht => ?_⟩
    simpa using List.countP_eq_zero.mp hzero t ht
  · rintro ⟨hne, hall⟩
    have hzero : (ts.dropWhile isChar).countP isChar = 0 :=
      List.countP_eq_zero.mpr fun t ht => by simp [hall t ht]
    refine ⟨by omega, ?_⟩
    rw [List.countP_eq_length.mpr fun t ht => by simp [hall t ht]]
    exact fun h => hne (List.length_eq_zero_iff.mp h)

/-! ## Pattern by pattern -/

/-- For all strings the matcher decides the language, a string that matches starts with the
fixed prefix, and all strings with the prefix match if the pattern is a prefix search. -/
def SlikeAgrees (patt : List ℕ) (esc : Option ℕ) : Prop :=
  (∀ s, Decides (suSlike s patt esc) (SlikeLanguage patt esc s)) ∧
    ∃ p i, suSlikeFixedprefix esc patt = some p ∧ suSlikePrefixinfo patt esc = some i ∧
      (∀ s, suSlike s patt esc = some true → p <+: s) ∧
      (IsPrefixSearch i → ∀ s, p <+: s → suSlike s patt esc = some true)

def PrefixAndOne (patt : List ℕ) (esc : Option ℕ) : Prop :=
  (∀ t ∈ (slikeTokens esc patt).dropWhile isChar, isChar t = false) ∧
    .one ∈ slikeTokens esc patt

theorem slikeAgrees_iff (patt : List ℕ) (esc : Option ℕ)
    (hlegal : suSlikeLegalpattern patt esc = true) :
    SlikeAgrees patt esc ↔
      (esc = some 37 → ¬ EscapedPercentAtEnd patt) ∧ ¬ PrefixAndOne patt esc := by
  obtain ⟨p, hp, htake⟩ := fixedprefix_tokens patt hlegal
  obtain ⟨i, hi, hsearch⟩ := isPrefixSearch_iff hlegal
  have hsplit : slikeTokens esc patt =
      p.map .char ++ (slikeTokens esc patt).dropWhile isChar := by
    rw [htake, List.takeWhile_append_dropWhile]
  have hmem : .one ∈ slikeTokens esc patt ↔
      .one ∈ (slikeTokens esc patt).dropWhile isChar := by
    conv_lhs => rw [hsplit, List.mem_append]
    simp
  rw [SlikeAgrees, suSlike_decides_iff hlegal, PrefixAndOne, hmem]
  refine and_congr_right fun hpercent => ?_
  have hdecides := (suSlike_decides_iff hlegal).mpr hpercent
  have hlang : ∀ s, suSlike s patt esc = some true ↔
      ∃ u, s = p ++ u ∧ Matches ((slikeTokens esc patt).dropWhile isChar) u := by
    intro s
    rw [(hdecides s).eq_true_iff, SlikeLanguage, hsplit, matches_chars_append_iff, ← hsplit]
  constructor
  · rintro ⟨p', i', hp', hi', -, hall⟩ ⟨hwild, hone⟩
    obtain rfl : p = p' := Option.some.inj (hp.symm.trans hp')
    obtain rfl : i = i' := Option.some.inj (hi.symm.trans hi')
    have hsome := hsearch.mpr ⟨List.ne_nil_of_mem hone, hwild⟩
    obtain ⟨u, hu, hmatch⟩ := (hlang p).mp (hall hsome p List.prefix_rfl)
    have hnil : u = [] := by simpa using hu
    rw [hnil, matches_nil_word_iff] at hmatch
    exact absurd (hmatch _ hone) (by simp)
  · intro hone
    refine ⟨p, i, hp, hi, ?_, ?_⟩
    · intro s hs
      obtain ⟨u, rfl, -⟩ := (hlang s).mp hs
      exact List.prefix_append p u
    · rintro hs s ⟨u, rfl⟩
      obtain ⟨hne, hwild⟩ := hsearch.mp hs
      refine (hlang _).mpr ⟨u, rfl, matches_of_forall_any hne (fun t ht => ?_) u⟩
      cases t with
      | any => rfl
      | one => exact absurd ⟨hwild, ht⟩ hone
      | char c => exact absurd (hwild _ ht) (by simp [isChar])

/-- The pattern `a%%` with the escape character `%` matches `a`, which is not in its language. -/
theorem slikeAgrees_fails : ¬ SlikeAgrees [97, 37, 37] (some 37) := by
  intro h
  have hlang : SlikeLanguage [97, 37, 37] (some 37) [97] :=
    (h.1 [97]).eq_true_iff.mp (by decide)
  have hlen := hlang.length_eq (any_notMem_slikeTokens [97, 37, 37] (by decide))
  exact absurd hlen (by decide)

/-- The pattern `a\%b%` with the escape character `\`. -/
theorem slikeAgrees_escaped_percent : SlikeAgrees [97, 92, 37, 98, 37] (some 92) := by
  refine (slikeAgrees_iff [97, 92, 37, 98, 37] (some 92) (by decide)).mpr ⟨?_, fun h => ?_⟩
  · intro hesc
    exact absurd hesc (by decide)
  · exact absurd h.2 (by decide)

end SolidDB
