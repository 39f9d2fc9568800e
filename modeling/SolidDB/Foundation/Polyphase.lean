import Mathlib.Algebra.Order.Ring.Int
import Mathlib.Data.Multiset.Replicate
import Mathlib.Data.Multiset.MapFold

/-!
# Polyphase merging

Sorted runs are merged by taking a least head until all of them are empty. The numbers of runs of
the inputs are perfect if one input after the other runs out first, and all have one run in the
end.
-/

namespace Polyphase

/-! ## Merging sorted runs -/

section Merging

variable {α : Type*} {le : α → α → Prop} {pends : List (List α)} {taken cur : List α} {x : α}
  {i : ℕ}

/-- Sorted runs, and a sorted list of what was taken from them, which goes before what is left. -/
structure Merges (le : α → α → Prop) (pends : List (List α)) (taken : List α) : Prop where
  sorted : ∀ p ∈ pends, p.Pairwise le
  taken_sorted : taken.Pairwise le
  before : ∀ x ∈ taken, ∀ p ∈ pends, ∀ y ∈ p, le x y

theorem Merges.start (hsorted : ∀ p ∈ pends, p.Pairwise le) : Merges le pends [] where
  sorted := hsorted
  taken_sorted := List.Pairwise.nil
  before := nofun

theorem mem_set {p q : List α} (hp : p ∈ pends.set i q) : p = q ∨ p ∈ pends :=
  (List.mem_or_eq_of_mem_set hp).symm

theorem Merges.take (htrans : ∀ x y z, le x y → le y z → le x z) (hm : Merges le pends taken)
    (hi : pends[i]? = some (x :: cur))
    (hleast : ∀ p ∈ pends, ∀ y, p.head? = some y → le x y) :
    Merges le (pends.set i cur) (taken ++ [x]) := by
  have hmem : x :: cur ∈ pends := List.mem_of_getElem? hi
  have hall : ∀ p ∈ pends, ∀ y ∈ p, le x y := by
    intro p hp y hy
    cases p with
    | nil => cases hy
    | cons z p =>
        have hz := hleast _ hp z rfl
        rcases List.mem_cons.mp hy with rfl | hy
        · exact hz
        · exact htrans _ _ _ hz ((List.pairwise_cons.mp (hm.sorted _ hp)).1 y hy)
  have hleft : ∀ p ∈ pends.set i cur, ∀ y ∈ p, ∃ q ∈ pends, y ∈ q := by
    intro p hp y hy
    rcases mem_set hp with rfl | hp
    · exact ⟨_, hmem, List.mem_cons_of_mem _ hy⟩
    · exact ⟨p, hp, hy⟩
  refine ⟨fun p hp => ?_, ?_, fun z hz p hp y hy => ?_⟩
  · rcases mem_set hp with rfl | hp
    · exact (List.pairwise_cons.mp (hm.sorted _ hmem)).2
    · exact hm.sorted p hp
  · refine List.pairwise_append.mpr ⟨hm.taken_sorted, List.pairwise_singleton _ _, ?_⟩
    intro z hz y hy
    rw [List.mem_singleton.mp hy]
    exact hm.before z hz _ hmem x (List.mem_cons_self ..)
  · obtain ⟨q, hq, hy⟩ := hleft p hp y hy
    rcases List.mem_append.mp hz with hz | hz
    · exact hm.before z hz q hq y hy
    · rw [List.mem_singleton.mp hz]
      exact hall q hq y hy

/-- What is taken and what is left stay the same together. -/
theorem taken_perm (taken : List α) (hi : pends[i]? = some (x :: cur)) :
    (taken ++ [x] ++ (pends.set i cur).flatten).Perm (taken ++ pends.flatten) := by
  obtain ⟨hlt, hget⟩ := List.getElem?_eq_some_iff.mp hi
  have hsplit := List.take_append_drop i pends
  rw [List.drop_eq_getElem_cons hlt, hget] at hsplit
  have hset : pends.set i cur = pends.take i ++ cur :: pends.drop (i + 1) :=
    List.set_eq_take_append_cons_drop.trans (if_pos hlt)
  rw [hset]
  conv_rhs => rw [← hsplit]
  simp only [List.flatten_append, List.flatten_cons, List.append_assoc, List.singleton_append]
  refine List.Perm.append_left _ ?_
  simp only [List.cons_append]
  exact List.perm_middle.symm

end Merging

/-! ## Perfect distributions -/

/-- The numbers of runs of the inputs. All have one run, or the input with the least number is
emptied, and its place is taken by the merged runs. -/
inductive Perfect : Multiset ℕ → Prop where
  | ones (k : ℕ) : Perfect (Multiset.replicate k 1)
  | up (m : ℕ) (s : Multiset ℕ) (hperfect : Perfect (m ::ₘ s)) :
      Perfect (m ::ₘ s.map (· + m))

theorem Perfect.pos {s : Multiset ℕ} (hs : Perfect s) : ∀ x ∈ s, 0 < x := by
  induction hs with
  | ones k =>
      intro x hx
      rw [Multiset.eq_of_mem_replicate hx]
      exact Nat.one_pos
  | up m s _ ih =>
      have hm := ih m (Multiset.mem_cons_self m s)
      intro x hx
      rcases Multiset.mem_cons.mp hx with rfl | hx
      · exact hm
      · obtain ⟨y, -, rfl⟩ := Multiset.mem_map.mp hx
        exact Nat.lt_of_lt_of_le hm (Nat.le_add_left m y)

/-- The next perfect distribution, where the last number becomes the least one. -/
theorem Perfect.next {a : List ℕ} {m : ℕ} (h : Perfect (↑(a ++ [m]) : Multiset ℕ)) :
    Perfect (↑(m :: a.map (· + m)) : Multiset ℕ) := by
  have hcons : (↑(a ++ [m]) : Multiset ℕ) = m ::ₘ (a : Multiset ℕ) := by
    rw [Multiset.cons_coe, Multiset.coe_eq_coe]
    exact List.perm_append_comm
  rw [hcons] at h
  have hup := Perfect.up m _ h
  rwa [Multiset.map_coe, Multiset.cons_coe] at hup

theorem Perfect.list_induction {motive : List ℕ → Prop}
    (ones : ∀ l : List ℕ, (∀ x ∈ l, x = 1) → motive l)
    (up : ∀ (a b : List ℕ) (m : ℕ), 0 < m → (∀ x ∈ a ++ b, m < x) →
      motive (a.map (· - m) ++ m :: b.map (· - m)) → motive (a ++ m :: b))
    (l : List ℕ) (hl : Perfect (l : Multiset ℕ)) : motive l := by
  suffices ∀ s : Multiset ℕ, Perfect s → ∀ l : List ℕ, (l : Multiset ℕ) = s → motive l from
    this _ hl l rfl
  intro s hs
  induction hs with
  | ones k =>
      intro l hl
      refine ones l fun x hx => Multiset.eq_of_mem_replicate (n := k) ?_
      rw [← hl]
      exact Multiset.mem_coe.mpr hx
  | up m s hperfect ih =>
      intro l hl
      have hm : m ∈ l := by
        rw [← Multiset.mem_coe, hl]
        exact Multiset.mem_cons_self ..
      obtain ⟨a, b, rfl⟩ := List.append_of_mem hm
      have hmiddle : (↑(a ++ m :: b) : Multiset ℕ) = m ::ₘ (↑(a ++ b) : Multiset ℕ) := by
        rw [Multiset.cons_coe, Multiset.coe_eq_coe]
        exact List.perm_middle
      rw [hmiddle, Multiset.cons_inj_right] at hl
      have hpos := hperfect.pos
      refine up a b m (hpos m (Multiset.mem_cons_self ..)) (fun x hx => ?_) (ih _ ?_)
      · rw [← Multiset.mem_coe, hl] at hx
        obtain ⟨y, hy, rfl⟩ := Multiset.mem_map.mp hx
        have hypos := hpos y (Multiset.mem_cons_of_mem hy)
        omega
      · have hback : (↑((a ++ b).map (· - m)) : Multiset ℕ) = s := by
          rw [← Multiset.map_coe, hl, Multiset.map_map]
          simp
        rw [← hback, List.map_append, Multiset.cons_coe, Multiset.coe_eq_coe]
        exact List.perm_middle

end Polyphase
