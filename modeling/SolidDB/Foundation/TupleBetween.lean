import SolidDB.Foundation.KeptFields

/-!
# A short tuple between two tuples

A separator of two neighbouring tuples need not be the second one. The symbols
the two share and one symbol of the second are enough; where the first tuple is
used up at that point, an empty field behind it is.
-/

namespace FrontCoding

variable {α : Type*} [LinearOrder α]

def tupleBetween (p n : List (List α)) : List (List α) :=
  let i := tupleMismatch p n
  let f := (residual n i).headD []
  rejoin p i [if i < (tupleSyms p).length then f.take 1 else []]

theorem singleton_bot_le {s : List (WithBot α)} (hs : s ≠ []) : [⊥] ≤ s := by
  obtain ⟨x, s, rfl⟩ := List.exists_cons_of_ne_nil hs
  rcases (bot_le : (⊥ : WithBot α) ≤ x).eq_or_lt with rfl | hlt
  · exact le_of_isPrefix ⟨s, rfl⟩
  · exact (List.cons_lt_cons_iff.mpr (Or.inl hlt)).le

/-- The symbols of a larger tuple behind those it shares with a smaller one
start with a data symbol, unless the smaller one is used up. -/
theorem residual_eq_cons_cons {p n : List (List α)} (h : p < n)
    (hi : tupleMismatch p n < (tupleSyms p).length) :
    ∃ b g w, residual n (tupleMismatch p n) = (b :: g) :: w ∧
      (tupleSyms p).drop (tupleMismatch p n) < [WithBot.some b] ++ [⊥] := by
  have hlt : tupleSyms p < tupleSyms n := (tupleSyms_lt_iff p n).mpr h
  have hcpl : tupleMismatch p n = commonPrefixLen (tupleSyms p) (tupleSyms n) :=
    mismatchIndex_of_lt hlt
  have hn : n ≠ [] := by
    rintro rfl
    exact absurd h (List.not_lt_nil p)
  have hilt := tupleMismatch_lt_length p hn
  have hdrop : (tupleSyms p).drop (tupleMismatch p n) <
      tupleSyms (residual n (tupleMismatch p n)) := by
    rw [tupleSyms_residual hilt.le]
    exact (drop_lt_drop_iff hcpl.le).mpr hlt
  have hzero : commonPrefixLen ((tupleSyms p).drop (tupleMismatch p n))
      (tupleSyms (residual n (tupleMismatch p n))) = 0 := by
    have hdrops := commonPrefixLen_drop hcpl.le
    rw [tupleSyms_residual hilt.le]
    omega
  obtain ⟨y, s, hs⟩ := List.exists_cons_of_ne_nil
    (l := (tupleSyms p).drop (tupleMismatch p n)) (by simpa using hi)
  obtain ⟨f, w, hf⟩ := List.exists_cons_of_ne_nil (residual_ne_nil hilt)
  rw [hs, hf] at hdrop hzero
  rw [hs]
  cases f with
  | nil =>
      rw [tupleSyms_cons, fieldSyms, List.map_nil, List.nil_append,
        List.cons_append, List.cons_lt_cons_iff] at hdrop
      rw [tupleSyms_cons, fieldSyms, List.map_nil, List.nil_append,
        List.cons_append, commonPrefixLen_cons_cons] at hzero
      rcases hdrop with hbot | ⟨heq, -⟩
      · exact absurd hbot not_lt_bot
      · rw [if_pos heq] at hzero
        omega
  | cons b g =>
      refine ⟨b, g, w, hf, ?_⟩
      rw [tupleSyms_cons, fieldSyms, List.map_cons, List.cons_append,
        List.cons_append, List.cons_lt_cons_iff] at hdrop
      rw [tupleSyms_cons, fieldSyms, List.map_cons, List.cons_append,
        List.cons_append, commonPrefixLen_cons_cons] at hzero
      rcases hdrop with hyb | ⟨heq, -⟩
      · exact List.cons_lt_cons_iff.mpr (Or.inl hyb)
      · rw [if_pos heq] at hzero
        omega

theorem tupleBetween_of_eq {p n : List (List α)}
    (hi : tupleMismatch p n = (tupleSyms p).length) :
    tupleSyms (tupleBetween p n) = tupleSyms p ++ [⊥] := by
  rw [tupleBetween]
  simp only [hi, lt_irrefl, if_false]
  rw [tupleSyms_rejoin (le_refl _) (List.cons_ne_nil _ _), List.take_length]
  rfl

theorem tupleBetween_of_lt {p n : List (List α)} {b : α} {g : List α}
    {w : List (List α)} (hi : tupleMismatch p n < (tupleSyms p).length)
    (hres : residual n (tupleMismatch p n) = (b :: g) :: w) :
    tupleSyms (tupleBetween p n) =
      (tupleSyms p).take (tupleMismatch p n) ++ ([WithBot.some b] ++ [⊥]) := by
  rw [tupleBetween]
  simp only [hi, if_true, hres, List.headD_cons, List.take_succ_cons, List.take_zero]
  rw [tupleSyms_rejoin hi.le (List.cons_ne_nil _ _)]
  rfl

theorem lt_tupleBetween {p n : List (List α)} (h : p < n) : p < tupleBetween p n := by
  rw [← tupleSyms_lt_iff]
  rcases (tupleMismatch_le_left p n).lt_or_eq with hi | hi
  · obtain ⟨b, g, w, hres, hlt⟩ := residual_eq_cons_cons h hi
    rw [tupleBetween_of_lt hi hres]
    conv_lhs => rw [← List.take_append_drop (tupleMismatch p n) (tupleSyms p)]
    exact (append_lt_append_iff _ _ _).mpr hlt
  · rw [tupleBetween_of_eq hi]
    exact lt_append_of_ne_nil (List.cons_ne_nil _ _)

theorem tupleBetween_le {p n : List (List α)} (h : p < n) : tupleBetween p n ≤ n := by
  have hlt : tupleSyms p < tupleSyms n := (tupleSyms_lt_iff p n).mpr h
  have hcpl : tupleMismatch p n = commonPrefixLen (tupleSyms p) (tupleSyms n) :=
    mismatchIndex_of_lt hlt
  have hn : n ≠ [] := by
    rintro rfl
    exact absurd h (List.not_lt_nil p)
  have hilt := tupleMismatch_lt_length p hn
  have hsplit : tupleSyms n = (tupleSyms p).take (tupleMismatch p n) ++
      tupleSyms (residual n (tupleMismatch p n)) := by
    rw [tupleSyms_residual hilt.le, take_eq_take_of_le hcpl.le, List.take_append_drop]
  rw [← tupleSyms_le_iff, hsplit]
  rcases (tupleMismatch_le_left p n).lt_or_eq with hi | hi
  · obtain ⟨b, g, w, hres, -⟩ := residual_eq_cons_cons h hi
    have hcons : tupleSyms ((b :: g) :: w) =
        [WithBot.some b] ++ (fieldSyms g ++ tupleSyms w) := rfl
    rw [tupleBetween_of_lt hi hres, hres, hcons, ← not_lt, append_lt_append_iff,
      append_lt_append_iff, not_lt]
    exact singleton_bot_le (by simp [fieldSyms])
  · rw [tupleBetween_of_eq hi, hi, List.take_length, ← not_lt, append_lt_append_iff,
      not_lt]
    exact singleton_bot_le (by
      rw [Ne, tupleSyms_eq_nil_iff]
      exact residual_ne_nil (hi ▸ hilt))

/-- The fields of the tuple are beginnings of fields of the second one. -/
theorem exists_isPrefix_of_mem_tupleBetween {p n : List (List α)} (hn : n ≠ []) {f : List α}
    (hf : f ∈ tupleBetween p n) : ∃ g ∈ n, f <+: g := by
  have hi := tupleMismatch_le_left p n
  have hrejoin (c : List (List α)) (hc : c ≠ []) := rejoin_eq_keptFields hi hc
  generalize (keptFields p (tupleMismatch p n)).1 = d at hrejoin
  generalize (keptFields p (tupleMismatch p n)).2 = t at hrejoin
  have hres := residual_ne_nil (tupleMismatch_lt_length p hn)
  have hwhole := rejoin_residual hn (le_refl (tupleMismatch p n))
  rw [hrejoin _ hres] at hwhole
  rw [tupleBetween] at hf
  simp only [hrejoin _ (List.cons_ne_nil _ _), List.headD_cons, List.tail_cons, List.mem_append,
    List.mem_singleton] at hf
  rcases hf with hmem | rfl
  · refine ⟨f, ?_, List.prefix_rfl⟩
    rw [← hwhole]
    exact List.mem_append_left _ hmem
  · have hmem : t ++ (residual n (tupleMismatch p n)).headD [] ∈
        d ++ (t ++ (residual n (tupleMismatch p n)).headD []) ::
          (residual n (tupleMismatch p n)).tail :=
      List.mem_append_right _ (List.mem_cons_self ..)
    rw [hwhole] at hmem
    refine ⟨_, hmem, ?_⟩
    rw [List.prefix_append_right_inj]
    split
    · exact List.take_prefix _ _
    · exact List.nil_prefix

end FrontCoding
