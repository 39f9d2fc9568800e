import Mathlib.Data.List.Lex
import Mathlib.Order.Lattice
import Mathlib.Tactic.Common

/-!
# Common prefixes of lists

`commonPrefixLen a b` is the number of leading entries on which `a` and `b`
agree. Under the lexicographic order of `List α` it decides comparisons: two
lists compare as their first differing entries do, and a list precedes its
proper extensions. The main results are the ultrametric identity for three
sorted lists and the two rules by which a third list is placed from the common
prefixes alone.
-/

namespace FrontCoding

variable {α : Type*}

section Decidable

variable [DecidableEq α]

def commonPrefixLen : List α → List α → ℕ
  | x :: a, y :: b => if x = y then commonPrefixLen a b + 1 else 0
  | _, _ => 0

@[simp] theorem commonPrefixLen_nil_left (b : List α) :
    commonPrefixLen [] b = 0 := rfl

@[simp] theorem commonPrefixLen_nil_right (a : List α) :
    commonPrefixLen a [] = 0 := by
  cases a <;> rfl

@[simp] theorem commonPrefixLen_cons_cons (x y : α) (a b : List α) :
    commonPrefixLen (x :: a) (y :: b) =
      if x = y then commonPrefixLen a b + 1 else 0 := rfl

theorem commonPrefixLen_comm (a b : List α) :
    commonPrefixLen a b = commonPrefixLen b a := by
  induction a generalizing b with
  | nil => simp
  | cons x a ih =>
      cases b with
      | nil => simp
      | cons y b =>
          simp only [commonPrefixLen_cons_cons, eq_comm (a := x), ih b]

theorem commonPrefixLen_le_left (a b : List α) :
    commonPrefixLen a b ≤ a.length := by
  induction a generalizing b with
  | nil => simp
  | cons x a ih =>
      cases b with
      | nil => simp
      | cons y b =>
          rw [commonPrefixLen_cons_cons]
          split
          · simpa using ih b
          · exact Nat.zero_le _

theorem commonPrefixLen_le_right (a b : List α) :
    commonPrefixLen a b ≤ b.length := by
  rw [commonPrefixLen_comm]
  exact commonPrefixLen_le_left b a

@[simp] theorem commonPrefixLen_self (a : List α) :
    commonPrefixLen a a = a.length := by
  induction a with
  | nil => rfl
  | cons x a ih => simp [ih]

theorem commonPrefixLen_append (c a b : List α) :
    commonPrefixLen (c ++ a) (c ++ b) = c.length + commonPrefixLen a b := by
  induction c with
  | nil => simp
  | cons x c ih =>
      simp only [List.cons_append, commonPrefixLen_cons_cons, if_true, ih,
        List.length_cons]
      omega

/-- `n` entries agree exactly when both lists have them and they are equal. -/
theorem le_commonPrefixLen_iff (a b : List α) (n : ℕ) :
    n ≤ commonPrefixLen a b ↔
      n ≤ a.length ∧ n ≤ b.length ∧ a.take n = b.take n := by
  induction a generalizing b n with
  | nil =>
      constructor
      · intro h
        obtain rfl : n = 0 := by simpa using h
        simp
      · rintro ⟨h, -, -⟩
        simpa using h
  | cons x a ih =>
      cases b with
      | nil =>
          constructor
          · intro h
            obtain rfl : n = 0 := by simpa using h
            simp
          · rintro ⟨-, h, -⟩
            simpa using h
      | cons y b =>
          cases n with
          | zero => simp
          | succ n =>
              rw [commonPrefixLen_cons_cons]
              by_cases hxy : x = y
              · subst hxy
                simp [ih b n]
              · simp [hxy]

theorem take_eq_take_of_le {a b : List α} {n : ℕ}
    (h : n ≤ commonPrefixLen a b) : a.take n = b.take n :=
  ((le_commonPrefixLen_iff a b n).mp h).2.2

theorem exists_split_of_le {a b : List α} {n : ℕ}
    (h : n ≤ commonPrefixLen a b) :
    ∃ c, c.length = n ∧ a = c ++ a.drop n ∧ b = c ++ b.drop n := by
  obtain ⟨ha, -, hab⟩ := (le_commonPrefixLen_iff a b n).mp h
  refine ⟨a.take n, by simp [ha], (List.take_append_drop n a).symm, ?_⟩
  rw [hab]
  exact (List.take_append_drop n b).symm

theorem commonPrefixLen_drop {a b : List α} {n : ℕ}
    (h : n ≤ commonPrefixLen a b) :
    commonPrefixLen a b = n + commonPrefixLen (a.drop n) (b.drop n) := by
  obtain ⟨c, hc, ha, hb⟩ := exists_split_of_le h
  conv_lhs => rw [ha, hb, commonPrefixLen_append, hc]

theorem commonPrefixLen_eq_left_iff (a b : List α) :
    commonPrefixLen a b = a.length ↔ a <+: b := by
  constructor
  · intro h
    have htake := (le_commonPrefixLen_iff a b a.length).mp h.ge
    rw [List.prefix_iff_eq_take]
    simpa using htake.2.2
  · rintro ⟨c, rfl⟩
    have := commonPrefixLen_append a [] c
    simpa using this

/-- Past a shared prefix of two lists, the third list shares with one what it
shares with the other. -/
theorem commonPrefixLen_eq_of_lt {a b c : List α}
    (h : commonPrefixLen a b < commonPrefixLen a c) :
    commonPrefixLen c b = commonPrefixLen a b := by
  induction a generalizing b c with
  | nil => simp at h
  | cons x a ih =>
      cases c with
      | nil => simp at h
      | cons z c =>
          rw [commonPrefixLen_cons_cons x z] at h
          split at h
          · rename_i hxz
            subst hxz
            cases b with
            | nil => simp
            | cons y b =>
                rw [commonPrefixLen_cons_cons] at h
                rw [commonPrefixLen_cons_cons, commonPrefixLen_cons_cons]
                split at h
                · rename_i hxy
                  rw [if_pos hxy, if_pos hxy, ih (by omega)]
                · rename_i hxy
                  rw [if_neg hxy, if_neg hxy]
          · exact absurd h (Nat.not_lt_zero _)

end Decidable

section Order

variable [LinearOrder α]

theorem append_lt_append_iff (c a b : List α) :
    c ++ a < c ++ b ↔ a < b := by
  induction c with
  | nil => rfl
  | cons x c ih => simpa [List.cons_lt_cons_iff] using ih

theorem drop_lt_drop_iff {a b : List α} {n : ℕ}
    (h : n ≤ commonPrefixLen a b) : a.drop n < b.drop n ↔ a < b := by
  obtain ⟨c, -, ha, hb⟩ := exists_split_of_le h
  conv_rhs => rw [ha, hb, append_lt_append_iff]

theorem lt_append_of_ne_nil {a c : List α} (h : c ≠ []) : a < a ++ c := by
  cases c with
  | nil => exact absurd rfl h
  | cons x c =>
      have := (append_lt_append_iff a [] (x :: c)).mpr (List.nil_lt_cons x c)
      simpa using this

theorem le_of_isPrefix {a b : List α} (h : a <+: b) : a ≤ b := by
  obtain ⟨c, rfl⟩ := h
  cases c with
  | nil => simp
  | cons x c => exact (lt_append_of_ne_nil (List.cons_ne_nil x c)).le

theorem nil_le (a : List α) : [] ≤ a := le_of_isPrefix List.nil_prefix

/-- Of two lists the smaller one does not contain the larger as a prefix. -/
theorem commonPrefixLen_lt_right {a b : List α} (h : a < b) :
    commonPrefixLen a b < b.length := by
  refine lt_of_le_of_ne (commonPrefixLen_le_right a b) fun heq => ?_
  rw [commonPrefixLen_comm, commonPrefixLen_eq_left_iff] at heq
  exact absurd h (not_lt.mpr (le_of_isPrefix heq))

/-- If `c` follows `a` further than `b` does, then `b` compares with `c` as it
does with `a`. -/
theorem lt_of_commonPrefixLen_lt {a b c : List α} (hab : a < b)
    (h : commonPrefixLen a b < commonPrefixLen a c) : c < b := by
  induction a generalizing b c with
  | nil => simp at h
  | cons x a ih =>
      cases c with
      | nil => simp at h
      | cons z c =>
          rw [commonPrefixLen_cons_cons x z] at h
          split at h
          · rename_i hxz
            subst hxz
            cases b with
            | nil => simp at hab
            | cons y b =>
                rw [commonPrefixLen_cons_cons] at h
                rw [List.cons_lt_cons_iff] at hab ⊢
                split at h
                · rename_i hxy
                  subst hxy
                  have hab' : a < b := by simpa using hab
                  exact Or.inr ⟨rfl, ih hab' (by omega)⟩
                · rename_i hxy
                  rcases hab with hlt | ⟨heq, -⟩
                  · exact Or.inl hlt
                  · exact absurd heq hxy
          · exact absurd h (Nat.not_lt_zero _)

/-- The ultrametric identity: the outer two of three sorted lists share what
the worse of the two adjacent pairs shares. -/
theorem commonPrefixLen_eq_min {a b c : List α} (hab : a ≤ b) (hbc : b ≤ c) :
    commonPrefixLen a c =
      min (commonPrefixLen a b) (commonPrefixLen b c) := by
  rcases lt_trichotomy (commonPrefixLen a b) (commonPrefixLen b c) with h | h | h
  · rw [commonPrefixLen_comm a b] at h ⊢
    rw [min_eq_left h.le, commonPrefixLen_comm a c]
    exact commonPrefixLen_eq_of_lt h
  · rw [h, min_self]
    apply le_antisymm
    · by_contra hlt
      push Not at hlt
      have hlt' : commonPrefixLen a b < commonPrefixLen a c := by omega
      rcases hab.lt_or_eq with hab | rfl
      · exact absurd (lt_of_commonPrefixLen_lt hab hlt') (not_lt.mpr hbc)
      · simp only [commonPrefixLen_self] at hlt'
        exact absurd hlt' (not_lt.mpr (commonPrefixLen_le_left a c))
    · rw [le_commonPrefixLen_iff]
      have h1 := (le_commonPrefixLen_iff a b _).mp h.ge
      have h2 := (le_commonPrefixLen_iff b c _).mp le_rfl
      exact ⟨h1.1, h2.2.1, h1.2.2.trans h2.2.2⟩
  · rw [min_eq_right h.le]
    rw [commonPrefixLen_comm a b] at h
    exact commonPrefixLen_eq_of_lt h

end Order

end FrontCoding

/-!
## Mismatch indexes

A front-coded sequence stores an entry `n` after its predecessor `p` as the
index from which the two differ together with the rest of `n`. The index used
here is the length of the common prefix, except that an entry never gives up
its last symbol: the rest that is stored is not empty, also when `n` repeats
`p`.

A search carries the mismatch index of its key against the last smaller entry.
`lt_of_mismatchIndex_lt` and `lt_of_lt_mismatchIndex` place the key against the
next entry from the two indexes alone. Both have an exception, and the two
exceptions are the same configuration: two of the three lists are equal and the
third extends them.
-/

namespace FrontCoding

variable {α : Type*} [LinearOrder α]

/-- The index from which `n` is stored after `p`. -/
def mismatchIndex (p n : List α) : ℕ :=
  min (commonPrefixLen p n) (n.length - 1)

theorem mismatchIndex_le_commonPrefixLen (p n : List α) :
    mismatchIndex p n ≤ commonPrefixLen p n := min_le_left _ _

theorem mismatchIndex_lt_length (p : List α) {n : List α} (hn : n ≠ []) :
    mismatchIndex p n < n.length := by
  have := List.length_pos_iff.mpr hn
  have := min_le_right (commonPrefixLen p n) (n.length - 1)
  unfold mismatchIndex
  omega

@[simp] theorem mismatchIndex_self (a : List α) :
    mismatchIndex a a = a.length - 1 := by
  simp [mismatchIndex]

theorem mismatchIndex_of_lt {p n : List α} (h : p < n) :
    mismatchIndex p n = commonPrefixLen p n := by
  have := commonPrefixLen_lt_right h
  unfold mismatchIndex
  omega

theorem mismatchIndex_append (c p n : List α) (hn : n ≠ []) :
    mismatchIndex (c ++ p) (c ++ n) = c.length + mismatchIndex p n := by
  have := List.length_pos_iff.mpr hn
  unfold mismatchIndex
  rw [commonPrefixLen_append, List.length_append]
  omega

theorem mismatchIndex_drop {p n : List α} {i : ℕ}
    (hi : i ≤ commonPrefixLen p n) (hn : n.drop i ≠ []) :
    mismatchIndex p n = i + mismatchIndex (p.drop i) (n.drop i) := by
  obtain ⟨c, hc, hp, hn'⟩ := exists_split_of_le hi
  conv_lhs => rw [hp, hn', mismatchIndex_append c _ _ hn, hc]

/-- The next entry keeps more of the last one than the key does: the key is
still ahead, unless it equals the last entry and the next one extends it. -/
theorem lt_of_mismatchIndex_lt {e n k : List α} (hek : e ≤ k) (hen : e ≤ n)
    (h : mismatchIndex e k < mismatchIndex e n) :
    n < k ∨ (e = k ∧ e <+: n ∧ e ≠ n) := by
  have hle := mismatchIndex_le_commonPrefixLen e n
  rcases hek.lt_or_eq with hlt | heq
  · rw [mismatchIndex_of_lt hlt] at h
    exact Or.inl (lt_of_commonPrefixLen_lt hlt (lt_of_lt_of_le h hle))
  · subst heq
    rw [mismatchIndex_self] at h
    have hlen := commonPrefixLen_le_left e n
    have hpre : e <+: n := (commonPrefixLen_eq_left_iff e n).mp (by omega)
    refine Or.inr ⟨rfl, hpre, ?_⟩
    rintro rfl
    rw [mismatchIndex_self] at h
    omega

/-- The next entry keeps less of the last one than the key does: the key is
behind it, unless the next entry equals the last one and the key extends both. -/
theorem lt_of_lt_mismatchIndex {e n k : List α} (hek : e ≤ k) (hen : e ≤ n)
    (h : mismatchIndex e n < mismatchIndex e k) :
    k < n ∨ (e = n ∧ e <+: k ∧ e ≠ k) :=
  lt_of_mismatchIndex_lt hen hek h

/-- A skipped entry leaves the mismatch index of the key as it was. -/
theorem mismatchIndex_eq_of_lt {e n k : List α} (hek : e < k)
    (h : mismatchIndex e k < mismatchIndex e n) :
    mismatchIndex n k = mismatchIndex e k := by
  have hle := mismatchIndex_le_commonPrefixLen e n
  rw [mismatchIndex_of_lt hek] at h ⊢
  have hlt := lt_of_lt_of_le h hle
  rw [mismatchIndex_of_lt (lt_of_commonPrefixLen_lt hek hlt)]
  exact commonPrefixLen_eq_of_lt hlt

/-- Closer to `n` the index does not get smaller. -/
theorem mismatchIndex_le_of_le {p q n : List α} (hpq : p ≤ q) (hqn : q ≤ n) :
    mismatchIndex p n ≤ mismatchIndex q n := by
  unfold mismatchIndex
  rw [commonPrefixLen_eq_min hpq hqn]
  exact le_min ((min_le_left _ _).trans (min_le_right _ _)) (min_le_right _ _)

end FrontCoding
