import SolidDB.Su.Slike

/-!
# The percent sign as escape character

No token stands for any word then, and a word has one character for each token. The matcher
is wrong when the pattern starts or ends with an escaped percent sign, and only then.
-/

namespace SolidDB

open Wildcard

def EscapedPercentAtEnd (patt : List ℕ) : Prop :=
  (slikeTokens (some 37) patt).head? = some (.char 37) ∨
    (slikeTokens (some 37) patt).getLast? = some (.char 37)

instance (patt : List ℕ) : Decidable (EscapedPercentAtEnd patt) :=
  inferInstanceAs (Decidable (_ ∨ _))

theorem plainToken_ne_any {p : ℕ} (hp : some 37 ≠ some p) : plainToken p ≠ .any := by
  rw [plainToken, if_neg fun h => hp (by rw [h])]
  split <;> simp

theorem any_notMem_slikeTokens (patt : List ℕ)
    (hlegal : suSlikeLegalpattern patt (some 37) = true) : .any ∉ slikeTokens (some 37) patt := by
  revert patt
  refine legal_induction (by simp [slikeTokens]) ?_ ?_
  · intro e q patt he _ _ ih
    rw [slikeTokens_escaped he]
    simpa using ih
  · intro p patt hp _ ih
    rw [slikeTokens_plain hp, List.mem_cons, not_or]
    exact ⟨(plainToken_ne_any hp).symm, ih⟩

/-! ## The length of what the loop accepts -/

theorem slikeTokens_length_le (c : ℕ) : ∀ patt : List ℕ,
    (slikeTokens (some 37) patt).length ≤ (slikeTokens (some 37) (c :: patt)).length
  | [] => Nat.zero_le _
  | q :: patt => by
    by_cases hc : some 37 = some c
    · rw [slikeTokens_escaped hc, List.length_cons]
      by_cases hq : some 37 = some q
      · cases patt with
        | nil =>
            have h0 : slikeTokens (some 37) [q] = [] := if_pos hq
            rw [h0]
            exact Nat.zero_le _
        | cons r patt =>
            rw [slikeTokens_escaped hq, List.length_cons]
            exact Nat.succ_le_succ (slikeTokens_length_le r patt)
      · rw [slikeTokens_plain hq, List.length_cons]
    · rw [slikeTokens_plain hc, List.length_cons]
      exact Nat.le_succ _

theorem skipPercents_tokens_length_le (patt : List ℕ) :
    (slikeTokens (some 37) (skipPercents (37 :: patt))).length ≤
      (slikeTokens (some 37) patt).length := by
  induction patt with
  | nil => exact Nat.zero_le _
  | cons q patt ih =>
      by_cases hq : q = 37
      · rw [hq, skipPercents, if_pos ⟨rfl, rfl⟩]
        exact ih.trans (slikeTokens_length_le 37 patt)
      · rw [skipPercents, if_neg fun h => hq h.2, slikeTokens_escaped rfl,
          slikeTokens_plain fun h => hq (Option.some.inj h).symm]
        exact le_rfl

theorem slikeLoop_length_le {like : List ℕ → List ℕ → Option Bool} :
    ∀ (s patt : List ℕ), slikeLoop like (some 37) s patt = some true →
      s.length ≤ (slikeTokens (some 37) patt).length
  | [], _, _ => Nat.zero_le _
  | _ :: _, [], h => by simp [slikeLoop] at h
  | c :: s, p :: patt, h => by
    rw [slikeLoop.eq_def] at h
    by_cases hp : some 37 = some p
    · simp only [hp, if_true] at h
      cases patt with
      | nil => cases h
      | cons q patt =>
          rw [slikeTokens_escaped hp, List.length_cons, List.length_cons]
          by_cases hc : c = q
          · simp only [hc, if_true, ← hp] at h
            exact Nat.succ_le_succ (slikeLoop_length_le s patt h)
          · simp [hc] at h
    · have h37 : p ≠ 37 := fun h => hp (by rw [h])
      simp only [hp, if_false, h37] at h
      rw [slikeTokens_plain hp, List.length_cons, List.length_cons]
      split at h
      · exact Nat.succ_le_succ (slikeLoop_length_le s patt h)
      · cases h

/-- A pattern that starts with an escaped percent sign is not matched by its own words. -/
theorem not_matched_of_head {patt : List ℕ}
    (hlegal : suSlikeLegalpattern patt (some 37) = true)
    (hhead : (slikeTokens (some 37) patt).head? = some (.char 37)) :
    ∃ s, SlikeLanguage patt (some 37) s ∧ suSlike s patt (some 37) ≠ some true := by
  obtain ⟨s, hs⟩ := exists_matches (slikeTokens (some 37) patt)
  refine ⟨s, hs, fun h => ?_⟩
  have hlen := hs.length_eq (any_notMem_slikeTokens patt hlegal)
  rw [suSlike, suSlikeFuel] at h
  have hle := slikeLoop_length_le s _ h
  cases patt with
  | nil => cases hhead
  | cons p patt =>
      by_cases hp : some 37 = some p
      · cases patt with
        | nil => simp [suSlikeLegalpattern, legalLoop, ← Option.some.inj hp] at hlegal
        | cons q patt =>
            rw [slikeTokens_escaped hp, List.head?_cons] at hhead
            have hq : q = 37 := by simpa using hhead
            rw [slikeTokens_escaped hp, List.length_cons] at hlen
            rw [← Option.some.inj hp, hq, skipPercents, if_pos ⟨rfl, rfl⟩] at hle
            have hskip := skipPercents_tokens_length_le patt
            omega
      · rw [slikeTokens_plain hp, List.head?_cons, plainToken] at hhead
        have h37 : p ≠ 37 := fun h => hp (by rw [h])
        rw [if_neg h37] at hhead
        split at hhead
        · cases hhead
        · exact absurd (by simpa using hhead) h37

/-! ## Patterns that do not start with an escaped percent sign -/

theorem skipPercents_eq_self {patt : List ℕ}
    (hhead : (slikeTokens (some 37) patt).head? ≠ some (.char 37)) :
    skipPercents patt = patt := by
  match patt with
  | [] => rfl
  | [_] => rfl
  | p :: q :: patt =>
    rw [skipPercents, if_neg]
    rintro ⟨rfl, rfl⟩
    exact hhead rfl

/-- On a word of a part of the pattern the loop comes to the rest of the pattern. -/
theorem slikeLoop_append {like : List ℕ → List ℕ → Option Bool} (rest : List ℕ) :
    ∀ patt, suSlikeLegalpattern patt (some 37) = true → ∀ s,
      SlikeLanguage patt (some 37) s →
        slikeLoop like (some 37) s (patt ++ rest) = slikeLoop like (some 37) [] rest := by
  refine legal_induction ?_ ?_ ?_
  · intro s hs
    rw [SlikeLanguage, slikeTokens, matches_nil_iff] at hs
    rw [hs]
    rfl
  · intro e q patt he _ _ ih s hs
    rw [SlikeLanguage, slikeTokens_escaped he] at hs
    obtain ⟨u, rfl, hu⟩ := matches_char_iff.mp hs
    rw [List.cons_append, List.cons_append, slikeLoop.eq_def]
    simp only [he, if_true]
    rw [← he]
    exact ih u hu
  · intro p patt hp _ ih s hs
    have h37 : p ≠ 37 := fun h => hp (by rw [h])
    rw [SlikeLanguage, slikeTokens_plain hp, plainToken, if_neg h37] at hs
    have hstep : ∃ c u, s = c :: u ∧ (p = 95 ∨ p = c) ∧ SlikeLanguage patt (some 37) u := by
      by_cases h95 : p = 95
      · rw [if_pos h95] at hs
        cases hs with
        | one c h => exact ⟨c, _, rfl, Or.inl h95, h⟩
      · rw [if_neg h95] at hs
        obtain ⟨u, hu, h⟩ := matches_char_iff.mp hs
        exact ⟨p, u, hu, Or.inr rfl, h⟩
    obtain ⟨c, u, rfl, hpc, hu⟩ := hstep
    rw [List.cons_append, slikeLoop.eq_def, ← ih u hu]
    simp only [hp, h37, hpc, if_false, if_true]

theorem slikeTokens_append (rest : List ℕ) : ∀ patt, suSlikeLegalpattern patt esc = true →
    slikeTokens esc (patt ++ rest) = slikeTokens esc patt ++ slikeTokens esc rest := by
  refine legal_induction (by rfl) ?_ ?_
  · intro e q patt he _ _ ih
    rw [List.cons_append, List.cons_append, slikeTokens_escaped he, slikeTokens_escaped he, ih,
      List.cons_append]
  · intro p patt hp _ ih
    rw [List.cons_append, slikeTokens_plain hp, slikeTokens_plain hp, ih, List.cons_append]

theorem slikeTokens_ne_nil : ∀ patt, suSlikeLegalpattern patt esc = true → patt ≠ [] →
    slikeTokens esc patt ≠ [] := by
  refine legal_induction (fun h => absurd rfl h) ?_ ?_
  · intro e q patt he _ _ _ _
    rw [slikeTokens_escaped he]
    exact List.cons_ne_nil _ _
  · intro p patt hp _ _ _
    rw [slikeTokens_plain hp]
    exact List.cons_ne_nil _ _

/-- The last token is an escaped percent sign: the pattern ends with two percent signs. -/
theorem exists_part_of_getLast : ∀ patt, suSlikeLegalpattern patt (some 37) = true →
    (slikeTokens (some 37) patt).getLast? = some (.char 37) →
    ∃ part, suSlikeLegalpattern part (some 37) = true ∧ patt = part ++ [37, 37] := by
  refine legal_induction (by simp [slikeTokens]) ?_ ?_
  · intro e q patt he hqe hlegal ih hlast
    rw [slikeTokens_escaped he] at hlast
    by_cases hpatt : patt = []
    · rw [hpatt, slikeTokens] at hlast
      have hq : q = 37 := by simpa using hlast
      exact ⟨[], rfl, by rw [hpatt, hq, ← Option.some.inj he]; rfl⟩
    · rw [List.getLast?_cons_of_ne_nil (slikeTokens_ne_nil patt hlegal hpatt)] at hlast
      obtain ⟨part, hpart, rfl⟩ := ih hlast
      exact ⟨e :: q :: part, (legal_escaped_cons he hqe part).trans hpart, rfl⟩
  · intro p patt hp hlegal ih hlast
    rw [slikeTokens_plain hp] at hlast
    by_cases hpatt : patt = []
    · have h37 : p ≠ 37 := fun h => hp (by rw [h])
      rw [hpatt, slikeTokens, plainToken, if_neg h37] at hlast
      split at hlast
      · simp at hlast
      · exact absurd (by simpa using hlast) h37
    · rw [List.getLast?_cons_of_ne_nil (slikeTokens_ne_nil patt hlegal hpatt)] at hlast
      obtain ⟨part, hpart, rfl⟩ := ih hlast
      exact ⟨p :: part, (legal_plain_cons hp part).trans hpart, rfl⟩

/-- A pattern with an escaped percent sign at its end is matched without that character. -/
theorem matched_of_getLast {patt : List ℕ}
    (hlegal : suSlikeLegalpattern patt (some 37) = true)
    (hhead : (slikeTokens (some 37) patt).head? ≠ some (.char 37))
    (hlast : (slikeTokens (some 37) patt).getLast? = some (.char 37)) :
    ∃ s, ¬ SlikeLanguage patt (some 37) s ∧ suSlike s patt (some 37) = some true := by
  obtain ⟨part, hpart, hpatt⟩ := exists_part_of_getLast patt hlegal hlast
  obtain ⟨s, hs⟩ := exists_matches (slikeTokens (some 37) part)
  refine ⟨s, fun h => ?_, ?_⟩
  · have hlen := h.length_eq (any_notMem_slikeTokens patt hlegal)
    rw [hs.length_eq (any_notMem_slikeTokens part hpart), hpatt,
      slikeTokens_append [37, 37] part hpart, List.length_append] at hlen
    exact absurd hlen (by simp [slikeTokens])
  · rw [suSlike, suSlikeFuel, skipPercents_eq_self hhead, hpatt,
      slikeLoop_append [37, 37] part hpart s hs]
    rfl

/-! ## The other patterns -/

/-- All characters are percent signs, so that all tokens are escaped ones. -/
theorem getLast_of_all_percent : ∀ patt, suSlikeLegalpattern patt (some 37) = true →
    patt.all (· = 37) = true → patt ≠ [] →
    (slikeTokens (some 37) patt).getLast? = some (.char 37) := by
  refine legal_induction (fun _ h => absurd rfl h) ?_ ?_
  · intro e q patt he _ hlegal ih hall _
    rw [slikeTokens_escaped he]
    simp only [List.all_cons, Bool.and_eq_true, decide_eq_true_eq] at hall
    by_cases hpatt : patt = []
    · rw [hpatt, slikeTokens, hall.2.1]
      rfl
    · rw [List.getLast?_cons_of_ne_nil (slikeTokens_ne_nil patt hlegal hpatt)]
      exact ih hall.2.2 hpatt
  · intro p patt hp _ _ hall
    simp only [List.all_cons, Bool.and_eq_true, decide_eq_true_eq] at hall
    exact absurd (congrArg some hall.1.symm) hp

theorem all_percent_iff_nil {patt : List ℕ} (hlegal : suSlikeLegalpattern patt (some 37) = true)
    (hlast : (slikeTokens (some 37) patt).getLast? ≠ some (.char 37)) :
    patt.all (· = 37) = true ↔ SlikeLanguage patt (some 37) [] := by
  by_cases hpatt : patt = []
  · rw [hpatt]
    exact ⟨fun _ => .nil, fun _ => rfl⟩
  · constructor
    · intro hall
      exact absurd (getLast_of_all_percent patt hlegal hall hpatt) hlast
    · intro h
      have hlen := h.length_eq (any_notMem_slikeTokens patt hlegal)
      exact absurd (List.length_eq_zero_iff.mp hlen.symm) (slikeTokens_ne_nil patt hlegal hpatt)

theorem getLast?_ne_of_cons {t u : Wildcard ℕ} {ts : List (Wildcard ℕ)}
    (h : (t :: ts).getLast? ≠ some u) (hts : ts ≠ []) : ts.getLast? ≠ some u := by
  rwa [List.getLast?_cons_of_ne_nil hts] at h

theorem slikeLoop_decides_percent {like : List ℕ → List ℕ → Option Bool} :
    ∀ patt, suSlikeLegalpattern patt (some 37) = true →
      (slikeTokens (some 37) patt).getLast? ≠ some (.char 37) → ∀ s,
      Decides (slikeLoop like (some 37) s patt) (SlikeLanguage patt (some 37) s) := by
  refine legal_induction ?_ ?_ ?_
  · intro _ s
    cases s with
    | nil => exact decides_true .nil
    | cons c s => exact decides_false (by simp [SlikeLanguage, slikeTokens])
  · intro e q patt he hqe hlegal ih hlast s
    cases s with
    | nil =>
        have hcons := (legal_escaped_cons he hqe patt).trans hlegal
        exact ⟨_, by rw [slikeLoop], all_percent_iff_nil hcons hlast⟩
    | cons c s =>
        rw [slikeTokens_escaped he] at hlast
        rw [slikeLoop.eq_def, SlikeLanguage, slikeTokens_escaped he, matches_char_cons_iff]
        simp only [he, if_true]
        rw [← he]
        by_cases hc : c = q
        · simp only [hc, if_true, true_and]
          refine ih ?_ s
          by_cases hpatt : patt = []
          · simp [hpatt, slikeTokens]
          · exact getLast?_ne_of_cons hlast (slikeTokens_ne_nil patt hlegal hpatt)
        · simp only [hc, if_false]
          exact decides_false fun h => hc h.1.symm
  · intro p patt hp hlegal ih hlast s
    have h37 : p ≠ 37 := fun h => hp (by rw [h])
    have hlast' : (slikeTokens (some 37) patt).getLast? ≠ some (.char 37) := by
      rw [slikeTokens_plain hp] at hlast
      by_cases hpatt : patt = []
      · simp [hpatt, slikeTokens]
      · exact getLast?_ne_of_cons hlast (slikeTokens_ne_nil patt hlegal hpatt)
    cases s with
    | nil =>
        exact ⟨_, by rw [slikeLoop],
          all_percent_iff_nil ((legal_plain_cons hp patt).trans hlegal) hlast⟩
    | cons c s =>
        rw [slikeLoop.eq_def, SlikeLanguage, slikeTokens_plain hp, plainToken, if_neg h37]
        simp only [hp, h37, if_false]
        by_cases h95 : p = 95
        · simp only [h95, if_true, true_or, matches_one_cons_iff]
          exact ih hlast' s
        · simp only [h95, if_false, false_or, matches_char_cons_iff]
          by_cases hc : p = c
          · simp only [hc, if_true, true_and]
            exact ih hlast' s
          · simp only [hc, if_false]
            exact decides_false fun h => h.1

/-! ## All escape characters -/

/-- The matcher decides the language of a legal pattern exactly when no escaped percent sign at
an end of the pattern is taken for a wildcard. -/
theorem suSlike_decides_iff {patt : List ℕ} (hlegal : suSlikeLegalpattern patt esc = true) :
    (∀ s, Decides (suSlike s patt esc) (SlikeLanguage patt esc s)) ↔
      (esc = some 37 → ¬ EscapedPercentAtEnd patt) := by
  constructor
  · rintro h rfl hend
    by_cases hhead : (slikeTokens (some 37) patt).head? = some (.char 37)
    · obtain ⟨s, hs, hne⟩ := not_matched_of_head hlegal hhead
      exact hne ((h s).eq_true_iff.mpr hs)
    · obtain ⟨s, hs, heq⟩ := matched_of_getLast hlegal hhead (hend.resolve_left hhead)
      exact hs ((h s).eq_true_iff.mp heq)
  · intro h s
    by_cases hesc : esc = some 37
    · have hend := not_or.mp (h hesc)
      subst hesc
      rw [suSlike, suSlikeFuel, skipPercents_eq_self hend.1]
      exact slikeLoop_decides_percent patt hlegal hend.2 s
    · exact suSlikeFuel_decides hesc _ patt hlegal (Nat.lt_succ_self _) s

end SolidDB
