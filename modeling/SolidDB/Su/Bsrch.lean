import Mathlib.Data.Nat.Basic

/-!
# Binary search of `su0bsrch.c`

The comparison of the key with the element at an index is a function of the index: `.lt` for
a negative result, the key is before the element, and `.gt` for a positive one.
-/

namespace SolidDB

/-- The loop of `su_bsearch` for at most as many rounds as the first argument says. -/
def suBsearchLoop (cmp : ℕ → Ordering) : ℕ → ℕ → ℕ → Bool × ℕ
  | 0, base, _ => (false, base)
  | rounds + 1, base, n =>
      if n = 0 then (false, base)
      else
        match cmp (base + n / 2) with
        | .lt => suBsearchLoop cmp rounds base (n / 2)
        | .gt => suBsearchLoop cmp rounds (base + n / 2 + 1) (n - (n / 2 + 1))
        | .eq => (true, base + n / 2)

/-- `su_bsearch`: whether an element is found, and where it is or belongs. -/
def suBsearch (cmp : ℕ → Ordering) (n : ℕ) : Bool × ℕ := suBsearchLoop cmp n 0 n

variable {cmp : ℕ → Ordering} {rounds base n k : ℕ}

theorem suBsearchLoop_found (hr : n ≤ rounds) (hlow : base ≤ k) (hhigh : k < base + n)
    (hk : cmp k = .eq) (hbefore : ∀ i < k, cmp i = .gt)
    (hbehind : ∀ i, k < i → i < base + n → cmp i = .lt) :
    suBsearchLoop cmp rounds base n = (true, k) := by
  induction rounds generalizing base n with
  | zero => omega
  | succ rounds ih =>
      rw [suBsearchLoop, if_neg (by omega)]
      rcases lt_trichotomy (base + n / 2) k with h | h | h
      · rw [hbefore _ h]
        exact ih (by omega) (by omega) (by omega) fun i hi hlt => hbehind i hi (by omega)
      · rw [h, hk]
      · rw [hbehind _ h (by omega)]
        exact ih (by omega) hlow (by omega) fun i hi hlt => hbehind i hi (by omega)

theorem suBsearchLoop_behind (hr : n ≤ rounds) (h : ∀ i < base + n, cmp i = .gt) :
    suBsearchLoop cmp rounds base n = (false, base + n) := by
  induction rounds generalizing base n with
  | zero =>
      obtain rfl : n = 0 := by omega
      rfl
  | succ rounds ih =>
      rw [suBsearchLoop]
      split
      · rename_i hn
        rw [hn, Nat.add_zero]
      · rw [h _ (by omega)]
        have hsum : base + n / 2 + 1 + (n - (n / 2 + 1)) = base + n := by omega
        have hrest : suBsearchLoop cmp rounds (base + n / 2 + 1) (n - (n / 2 + 1)) =
            (false, base + n / 2 + 1 + (n - (n / 2 + 1))) :=
          ih (by omega) fun i hi => h i (by omega)
        exact hrest.trans (by rw [hsum])

theorem suBsearch_found (hk : k < n) (heq : cmp k = .eq) (hbefore : ∀ i < k, cmp i = .gt)
    (hbehind : ∀ i, k < i → i < n → cmp i = .lt) : suBsearch cmp n = (true, k) := by
  refine suBsearchLoop_found le_rfl (Nat.zero_le k) (by omega) heq hbefore fun i hi hlt => ?_
  exact hbehind i hi (by omega)

theorem suBsearch_behind (h : ∀ i < n, cmp i = .gt) : suBsearch cmp n = (false, n) := by
  have hrest := suBsearchLoop_behind (le_refl n) (show ∀ i < 0 + n, cmp i = .gt by simpa using h)
  rwa [Nat.zero_add] at hrest

theorem suBsearchLoop_between {m : ℕ} (hr : n ≤ rounds) (hm : base + n ≤ m)
    (hgt : ∀ i j, i ≤ j → j < m → cmp j = .gt → cmp i = .gt)
    (hlt : ∀ i j, i ≤ j → j < m → cmp i = .lt → cmp j = .lt)
    (hbefore : ∀ i < base, cmp i ≠ .lt) (hbehind : ∀ i, base + n ≤ i → i < m → cmp i ≠ .gt) :
    (suBsearchLoop cmp rounds base n).2 ≤ m ∧
      (∀ i < (suBsearchLoop cmp rounds base n).2, cmp i ≠ .lt) ∧
      ∀ i, (suBsearchLoop cmp rounds base n).2 ≤ i → i < m → cmp i ≠ .gt := by
  induction rounds generalizing base n with
  | zero =>
      obtain rfl : n = 0 := by omega
      exact ⟨hm, hbefore, hbehind⟩
  | succ rounds ih =>
      rw [suBsearchLoop]
      split
      · rename_i hn
        subst hn
        exact ⟨hm, hbefore, hbehind⟩
      · cases hk : cmp (base + n / 2) with
        | lt =>
            refine ih (by omega) (by omega) hbefore fun i hi hlt' heq => ?_
            rw [hlt _ i hi hlt' hk] at heq
            cases heq
        | gt =>
            refine ih (by omega) (by omega) (fun i hi heq => ?_) fun i hi => hbehind i (by omega)
            rw [hgt i _ (by omega) (by omega) hk] at heq
            cases heq
        | eq =>
            dsimp only
            refine ⟨by omega, fun i hi heq => ?_, fun i hi hlt' heq => ?_⟩
            · rw [hlt i _ (Nat.le_of_lt hi) (by omega) heq] at hk
              cases hk
            · rw [hgt _ i hi hlt' heq] at hk
              cases hk

theorem suBsearch_between (cmp : ℕ → Ordering) (n : ℕ)
    (hgt : ∀ i j, i ≤ j → j < n → cmp j = .gt → cmp i = .gt)
    (hlt : ∀ i j, i ≤ j → j < n → cmp i = .lt → cmp j = .lt) :
    (suBsearch cmp n).2 ≤ n ∧ (∀ i < (suBsearch cmp n).2, cmp i ≠ .lt) ∧
      ∀ i, (suBsearch cmp n).2 ≤ i → i < n → cmp i ≠ .gt :=
  suBsearchLoop_between le_rfl (by omega) hgt hlt nofun fun i hi hlt' => absurd hlt' (by omega)

end SolidDB
