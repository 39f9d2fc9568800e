import Mathlib.Data.List.Basic
import Mathlib.Tactic.Common

/-!
# Words that match a list of wildcards

A pattern is a list of tokens: a wildcard for any word, a wildcard for one letter, or a letter
for itself.
-/

namespace SolidDB

inductive Wildcard (α : Type*) where
  | any
  | one
  | char (c : α)
  deriving DecidableEq

namespace Wildcard

variable {α : Type*} {ts : List (Wildcard α)} {s : List α}

inductive Matches {α : Type*} : List (Wildcard α) → List α → Prop
  | nil : Matches [] []
  | any {ts : List (Wildcard α)} {s : List α} (t : List α) :
      Matches ts s → Matches (.any :: ts) (t ++ s)
  | one {ts : List (Wildcard α)} {s : List α} (c : α) :
      Matches ts s → Matches (.one :: ts) (c :: s)
  | char {ts : List (Wildcard α)} {s : List α} (c : α) :
      Matches ts s → Matches (.char c :: ts) (c :: s)

/-! ## The rules, read backwards -/

@[simp] theorem matches_nil_iff : Matches [] s ↔ s = [] := by
  constructor
  · intro h
    cases h
    rfl
  · rintro rfl
    exact .nil

@[simp] theorem matches_one_cons_iff {c : α} : Matches (.one :: ts) (c :: s) ↔ Matches ts s := by
  constructor
  · intro h
    cases h
    assumption
  · exact .one c

@[simp] theorem matches_char_cons_iff {c d : α} :
    Matches (.char c :: ts) (d :: s) ↔ c = d ∧ Matches ts s := by
  constructor
  · intro h
    cases h
    exact ⟨rfl, by assumption⟩
  · rintro ⟨rfl, h⟩
    exact .char c h

theorem matches_any_iff : Matches (.any :: ts) s ↔ ∃ u, u <:+ s ∧ Matches ts u := by
  constructor
  · intro h
    cases h with
    | any t h => exact ⟨_, List.suffix_append t _, h⟩
  · rintro ⟨u, ⟨t, rfl⟩, h⟩
    exact .any t h

theorem Matches.of_suffix {u : List α} (h : Matches (.any :: ts) u) (hu : u <:+ s) :
    Matches (.any :: ts) s := by
  obtain ⟨v, hv, h⟩ := matches_any_iff.mp h
  exact matches_any_iff.mpr ⟨v, hv.trans hu, h⟩

theorem matches_any_self (s : List α) : Matches [.any] s := by
  rw [← List.append_nil s]
  exact .any s .nil

theorem matches_any_any_iff : Matches (.any :: .any :: ts) s ↔ Matches (.any :: ts) s := by
  constructor
  · intro h
    obtain ⟨u, hu, h⟩ := matches_any_iff.mp h
    exact h.of_suffix hu
  · intro h
    exact matches_any_iff.mpr ⟨s, List.suffix_rfl, h⟩

/-! ## The empty word -/

theorem matches_nil_word_iff : Matches ts ([] : List α) ↔ ∀ t ∈ ts, t = .any := by
  induction ts with
  | nil => simp
  | cons t ts ih =>
      rw [List.forall_mem_cons, ← ih]
      constructor
      · intro h
        generalize hs : ([] : List α) = s at h
        cases h with
        | any t h =>
          obtain ⟨rfl, rfl⟩ := List.append_eq_nil_iff.mp hs.symm
          exact ⟨rfl, h⟩
        | one c h => cases hs
        | char c h => cases hs
      · rintro ⟨rfl, h⟩
        exact .any [] h

theorem matches_of_forall_any (hne : ts ≠ []) (h : ∀ t ∈ ts, t = .any) (s : List α) :
    Matches ts s := by
  cases ts with
  | nil => exact absurd rfl hne
  | cons t ts =>
      rw [List.forall_mem_cons] at h
      rw [h.1]
      exact matches_any_iff.mpr ⟨[], List.nil_suffix, matches_nil_word_iff.mpr h.2⟩

/-! ## A letter behind a wildcard -/

/-- The word of a pattern that starts with a letter starts with it. -/
theorem matches_char_iff {c : α} :
    Matches (.char c :: ts) s ↔ ∃ u, s = c :: u ∧ Matches ts u := by
  cases s with
  | nil => simp [matches_nil_word_iff]
  | cons d s =>
      rw [matches_char_cons_iff]
      constructor
      · rintro ⟨rfl, h⟩
        exact ⟨s, rfl, h⟩
      · rintro ⟨u, hu, h⟩
        cases hu
        exact ⟨rfl, h⟩

/-- The letters before the first one that may follow can be passed at once. -/
theorem matches_any_char_dropWhile [DecidableEq α] {c : α} :
    Matches (.any :: .char c :: ts) (s.dropWhile (· ≠ c)) ↔ Matches (.any :: .char c :: ts) s := by
  induction s with
  | nil => rfl
  | cons d s ih =>
      by_cases hd : d = c
      · rw [List.dropWhile_cons_of_neg (by simp [hd])]
      · rw [List.dropWhile_cons_of_pos (by simp [hd]), ih]
        refine ⟨fun h => h.of_suffix (List.suffix_cons d s), fun h => ?_⟩
        obtain ⟨u, hu, h⟩ := matches_any_iff.mp h
        rcases List.suffix_cons_iff.mp hu with rfl | hu
        · exact absurd (matches_char_cons_iff.mp h).1.symm hd
        · exact matches_any_iff.mpr ⟨u, hu, h⟩

/-! ## Patterns that start with letters -/

theorem matches_chars_append_iff {p : List α} :
    Matches (p.map .char ++ ts) s ↔ ∃ u, s = p ++ u ∧ Matches ts u := by
  induction p generalizing s with
  | nil => simp
  | cons c p ih =>
      rw [List.map_cons, List.cons_append, matches_char_iff]
      constructor
      · rintro ⟨u, rfl, h⟩
        obtain ⟨v, rfl, hv⟩ := ih.mp h
        exact ⟨v, rfl, hv⟩
      · rintro ⟨u, rfl, h⟩
        exact ⟨p ++ u, rfl, ih.mpr ⟨u, rfl, h⟩⟩

/-! ## Patterns of fixed length -/

/-- Without a wildcard for any word the words have one letter for each token. -/
theorem Matches.length_eq (h : Matches ts s) (hts : .any ∉ ts) : s.length = ts.length := by
  induction h with
  | nil => rfl
  | any t _ _ => exact absurd List.mem_cons_self hts
  | one c _ ih => rw [List.length_cons, List.length_cons, ih (List.not_mem_of_not_mem_cons hts)]
  | char c _ ih => rw [List.length_cons, List.length_cons, ih (List.not_mem_of_not_mem_cons hts)]

theorem exists_matches [Nonempty α] (ts : List (Wildcard α)) : ∃ s, Matches ts s := by
  induction ts with
  | nil => exact ⟨[], .nil⟩
  | cons t ts ih =>
      obtain ⟨s, h⟩ := ih
      cases t with
      | any => exact ⟨[] ++ s, .any [] h⟩
      | one => exact ⟨Classical.arbitrary α :: s, .one _ h⟩
      | char c => exact ⟨c :: s, .char c h⟩

end Wildcard

end SolidDB
