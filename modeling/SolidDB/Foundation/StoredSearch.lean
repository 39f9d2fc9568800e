import SolidDB.Foundation.FrontSearch

/-!
# Searching a sequence that was changed in place

In a sequence that has been changed, an entry may be stored with a smaller index than
front coding gives, as long as it still expands behind its predecessor. A step of the
search over such an entry is the comparison with the expanded one, unless the index leads
to another answer.
-/

namespace FrontCoding

variable {α τ : Type*} [LinearOrder α]

structure Stores (p : List (List α)) (s : Stored α τ) (n : Entry α τ) : Prop where
  index_le : s.index ≤ tupleMismatch p n.value
  rest_eq : s.rest = residual n.value s.index
  tag_eq : s.tag = n.tag

/-- The index leads a search for `k` behind `p` to another answer: it is smaller than that
of the key although the key is not below the entry, or larger although the key is not
above it. -/
def MisleadingStored (tie : τ → Ordering) (k p : List (List α)) (s : Stored α τ)
    (n : Entry α τ) : Prop :=
  (s.index < tupleMismatch p k ∧ fullCompare tie k n ≠ .lt) ∨
    (tupleMismatch p k < s.index ∧ fullCompare tie k n ≠ .gt)

instance (tie : τ → Ordering) (k p : List (List α)) (s : Stored α τ) (n : Entry α τ) :
    Decidable (MisleadingStored tie k p s n) :=
  inferInstanceAs (Decidable (_ ∨ _))

def StoresChain (p : List (List α)) : List (Stored α τ) → List (Entry α τ) → Prop
  | [], [] => True
  | s :: ss, n :: es => Stores p s n ∧ p ≤ n.value ∧ StoresChain n.value ss es
  | _, _ => False

def MisledIn (tie : τ → Ordering) (k : List (List α)) :
    List (List α) → List (Stored α τ) → List (Entry α τ) → Prop
  | p, s :: ss, n :: es =>
      MisleadingStored tie k p s n ∨
        (fullCompare tie k n = .gt ∧ MisledIn tie k n.value ss es)
  | _, _, _ => False

/-- A scan passes all entries exactly when its answer is `.gt`. -/
theorem scan_length {σ β : Type*} (f : σ → β → Ordering × σ) (s : σ) (bs : List β) :
    (scan f s bs).1 ≤ bs.length ∧
      ((scan f s bs).2.1 = .gt ↔ (scan f s bs).1 = bs.length) := by
  induction bs generalizing s with
  | nil => exact ⟨le_rfl, fun _ => rfl, fun _ => rfl⟩
  | cons b bs ih =>
      by_cases h : (f s b).1 = .gt
      · rw [scan_cons_of_gt h, List.length_cons]
        exact ⟨Nat.succ_le_succ (ih _).1, by rw [(ih _).2, Nat.add_right_cancel_iff]⟩
      · rw [scan_cons_of_ne_gt h, List.length_cons]
        exact ⟨Nat.zero_le _, fun hgt => absurd hgt h,
          fun hz => absurd hz.symm (Nat.succ_ne_zero _)⟩

variable {tie : τ → Ordering} {k p : List (List α)} {s : Stored α τ} {n : Entry α τ}

theorem step_ne_of_misleadingStored (h : MisleadingStored tie k p s n) :
    (step tie k (tupleMismatch p k) s).1 ≠ fullCompare tie k n := by
  rcases h with ⟨hlt, hne⟩ | ⟨hgt, hne⟩
  · rw [step, if_pos hlt]
    exact hne.symm
  · rw [step, if_neg hgt.not_gt, if_pos hgt]
    exact hne.symm

theorem step_of_stores (hk : k ≠ []) (hpk : p ≤ k) (hpn : p ≤ n.value) (hs : Stores p s n)
    (h : ¬ MisleadingStored tie k p s n) :
    step tie k (tupleMismatch p k) s =
      ((plainStep tie k p n).1, tupleMismatch (plainStep tie k p n).2 k) := by
  rw [MisleadingStored, not_or, not_and_not_right, not_and_not_right] at h
  rcases lt_trichotomy s.index (tupleMismatch p k) with hlt | heq | hgt
  · rw [step, if_pos hlt, plainStep, h.1 hlt]
    rfl
  · have hk' := tupleMismatch_le_commonPrefixLen p k
    have hn := hs.index_le.trans (tupleMismatch_le_commonPrefixLen p n.value)
    have hcpl : tupleMismatch p k ≤ commonPrefixLen (tupleSyms k) (tupleSyms n.value) :=
      le_commonPrefixLen_trans hk' (heq ▸ hn)
    have hcmp := tupleCompare_residual hcpl
    rw [commonPrefixLen_comm] at hcpl
    have hadd := tupleMismatch_eq_add hcpl (tupleMismatch_lt_length p hk)
    simp only [step, hs.rest_eq, hs.tag_eq, heq, lt_irrefl, if_false, hcmp, plainStep,
      fullCompare, ← hadd]
    by_cases hgt : (tupleCompare k n.value).then (tie n.tag) = .gt
    · simp [hgt]
    · simp [hgt]
  · have hfull := h.2 hgt
    have hlt := lt_of_lt_of_le hgt hs.index_le
    have hne : p ≠ k := by
      rintro rfl
      have hpn' := le_antisymm hpn (le_of_fullCompare_eq_gt hfull)
      rw [← hpn'] at hlt
      exact lt_irrefl _ hlt
    have hidx : tupleMismatch n.value k = tupleMismatch p k :=
      mismatchIndex_eq_of_lt ((tupleSyms_lt_iff p k).mpr (lt_of_le_of_ne hpk hne)) hlt
    rw [step, if_neg hgt.not_gt, if_pos hgt, plainStep, hfull, if_pos rfl, hidx]

/-- A search that is not misled stops where the scan over the expanded entries does. -/
theorem scan_of_storesChain (hk : k ≠ []) (hpk : p ≤ k) {ss : List (Stored α τ)}
    {es : List (Entry α τ)} (hs : StoresChain p ss es) (h : ¬ MisledIn tie k p ss es) :
    scan (step tie k) (tupleMismatch p k) ss =
      ((scan (plainStep tie k) p es).1, (scan (plainStep tie k) p es).2.1,
        tupleMismatch (scan (plainStep tie k) p es).2.2 k) := by
  induction ss generalizing p es with
  | nil =>
      cases es with
      | nil => rfl
      | cons n es => exact hs.elim
  | cons s ss ih =>
      cases es with
      | nil => exact hs.elim
      | cons n es =>
          obtain ⟨hsn, hpn, hrest⟩ := hs
          rw [MisledIn, not_or, not_and] at h
          have hstep := step_of_stores hk hpk hpn hsn h.1
          by_cases hgt : fullCompare tie k n = .gt
          · have hgt' : (plainStep tie k p n).1 = .gt := hgt
            have hvalue : (plainStep tie k p n).2 = n.value := if_pos hgt
            rw [scan_cons_of_gt (by rw [hstep]; exact hgt'), scan_cons_of_gt hgt', hstep,
              hvalue, ih (le_of_fullCompare_eq_gt hgt) hrest (h.2 hgt)]
          · have hne : (plainStep tie k p n).1 ≠ .gt := hgt
            rw [scan_cons_of_ne_gt (by rw [hstep]; exact hne), scan_cons_of_ne_gt hne, hstep]

/-- A misled search stops elsewhere or with another answer. -/
theorem scan_ne_of_misledIn (hk : k ≠ []) (hpk : p ≤ k) {ss : List (Stored α τ)}
    {es : List (Entry α τ)} (hs : StoresChain p ss es) (h : MisledIn tie k p ss es) :
    ¬ ((scan (step tie k) (tupleMismatch p k) ss).1 = (scan (plainStep tie k) p es).1 ∧
      (scan (step tie k) (tupleMismatch p k) ss).2.1 = (scan (plainStep tie k) p es).2.1) := by
  induction ss generalizing p es with
  | nil =>
      cases es with
      | nil => exact h.elim
      | cons n es => exact hs.elim
  | cons s ss ih =>
      cases es with
      | nil => exact hs.elim
      | cons n es =>
          obtain ⟨hsn, hpn, hrest⟩ := hs
          by_cases hmis : MisleadingStored tie k p s n
          · have hstep := step_ne_of_misleadingStored hmis
            by_cases hgt : fullCompare tie k n = .gt
            · have hgt' : (plainStep tie k p n).1 = .gt := hgt
              rw [hgt] at hstep
              rw [scan_cons_of_ne_gt hstep, scan_cons_of_gt hgt']
              rintro ⟨hpos, -⟩
              exact absurd hpos.symm (Nat.succ_ne_zero _)
            · have hgt' : (plainStep tie k p n).1 ≠ .gt := hgt
              rw [scan_cons_of_ne_gt hgt']
              by_cases hs : (step tie k (tupleMismatch p k) s).1 = .gt
              · rw [scan_cons_of_gt hs]
                rintro ⟨hpos, -⟩
                exact absurd hpos (Nat.succ_ne_zero _)
              · rw [scan_cons_of_ne_gt hs]
                rintro ⟨-, hres⟩
                exact hstep hres
          · obtain ⟨hgt, hmisled⟩ := h.resolve_left hmis
            have hstep := step_of_stores hk hpk hpn hsn hmis
            have hgt' : (plainStep tie k p n).1 = .gt := hgt
            have hvalue : (plainStep tie k p n).2 = n.value := if_pos hgt
            rw [scan_cons_of_gt (by rw [hstep]; exact hgt'), scan_cons_of_gt hgt', hstep, hvalue]
            rintro ⟨hpos, hres⟩
            exact ih (le_of_fullCompare_eq_gt hgt) hrest hmisled
              ⟨Nat.succ_injective hpos, hres⟩

/-! ## Expanding where the search stops -/

/-- An entry expands behind every tuple that shares its prefix, as its predecessor does. -/
theorem Stores.rejoin (hs : Stores p s n) (hn : n.value ≠ [])
    (hk : s.index ≤ commonPrefixLen (tupleSyms p) (tupleSyms k)) :
    rejoin k s.index s.rest = n.value := by
  have hpn := hs.index_le.trans (tupleMismatch_le_commonPrefixLen p n.value)
  rw [hs.rest_eq]
  exact rejoin_residual_of_le (lt_of_le_of_lt hs.index_le (tupleMismatch_lt_length p hn))
    (le_commonPrefixLen_trans hk hpn)

/-- A step that stops does not need more of the key than its state says is shared. -/
theorem index_le_of_step {i : ℕ} (hstop : (step tie k i s).1 ≠ .gt) : s.index ≤ i := by
  by_contra hlt
  rw [step, if_neg (not_lt.mpr (not_le.mp hlt).le), if_pos (not_le.mp hlt)] at hstop
  exact hstop rfl

/-- A step that goes on leaves an index that the key shares with the entry passed. -/
theorem step_agrees {i : ℕ} (hs : Stores p s n) (hi : i < (tupleSyms k).length)
    (hk : i ≤ commonPrefixLen (tupleSyms p) (tupleSyms k)) (hgt : (step tie k i s).1 = .gt) :
    (step tie k i s).2 < (tupleSyms k).length ∧
      (step tie k i s).2 ≤ commonPrefixLen (tupleSyms n.value) (tupleSyms k) := by
  have hpn := hs.index_le.trans (tupleMismatch_le_commonPrefixLen p n.value)
  rcases lt_trichotomy s.index i with hlt | rfl | hlt
  · rw [step, if_pos hlt] at hgt
    exact Ordering.noConfusion hgt
  · have hnk := le_commonPrefixLen_trans hpn hk
    have hne : k ≠ [] := by
      rintro rfl
      exact absurd hi (Nat.not_lt_zero _)
    have hadd := tupleMismatch_eq_add hnk hi
    have hstate : (step tie k s.index s).2 = tupleMismatch n.value k := by
      rw [hadd]
      simp only [step, lt_irrefl, if_false, ← hs.rest_eq] at hgt ⊢
      rw [if_pos hgt]
    rw [hstate]
    exact ⟨tupleMismatch_lt_length _ hne, tupleMismatch_le_commonPrefixLen _ _⟩
  · have hstate : (step tie k i s).2 = i := by
      rw [step, if_neg (not_lt.mpr hlt.le), if_pos hlt]
    rw [hstate]
    exact ⟨hi, le_commonPrefixLen_trans (hlt.le.trans hpn) hk⟩

/-- The entry that a search stops at expands behind the key itself, misled or not. -/
theorem rejoin_of_scan {i : ℕ} {ss : List (Stored α τ)} {es : List (Entry α τ)}
    (hs : StoresChain p ss es) (hes : ∀ e ∈ es, e.value ≠ []) (hi : i < (tupleSyms k).length)
    (hk : i ≤ commonPrefixLen (tupleSyms p) (tupleSyms k))
    (hstop : (scan (step tie k) i ss).2.1 ≠ .gt) :
    ∃ s e, ss[(scan (step tie k) i ss).1]? = some s ∧
      es[(scan (step tie k) i ss).1]? = some e ∧ s.tag = e.tag ∧
      s.index ≤ (tupleSyms k).length ∧ rejoin k s.index s.rest = e.value := by
  induction ss generalizing p es i with
  | nil => exact absurd rfl hstop
  | cons s ss ih =>
      cases es with
      | nil => exact hs.elim
      | cons n es =>
          obtain ⟨hsn, -, hrest⟩ := hs
          rw [List.forall_mem_cons] at hes
          by_cases hgt : (step tie k i s).1 = .gt
          · obtain ⟨hlt, hagrees⟩ := step_agrees hsn hi hk hgt
            rw [scan_cons_of_gt hgt] at hstop ⊢
            exact ih hrest hes.2 hlt hagrees hstop
          · have hle := index_le_of_step hgt
            rw [scan_cons_of_ne_gt hgt]
            exact ⟨s, n, rfl, rfl, hsn.tag_eq, hle.trans hi.le,
              hsn.rejoin hes.1 (hle.trans hk)⟩

end FrontCoding
