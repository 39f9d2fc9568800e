import SolidDB.Foundation.FieldTuple
import Mathlib.Order.Defs.LinearOrder

/-!
# Searching a front-coded sequence

A sorted sequence of tagged tuples is stored front-coded: every tuple as its
mismatch index against its predecessor and the residual from there on. A search
steps through the stored entries without ever expanding one. Its state is the
mismatch index of the key against the last entry passed; the tags are compared
only where two tuples are equal.

`step_store` says what one step computes: the comparison of the key with the
expanded entry, unless the entry is `Misleading`. `scan_frontCode` carries this
over a whole sequence.
-/

namespace FrontCoding

variable {α β σ τ : Type*}

/-! ## Scans -/

/-- Step through a list while the key is larger. The result is the number of
entries passed, the last comparison and the last state. -/
def scan (f : σ → β → Ordering × σ) : σ → List β → ℕ × Ordering × σ
  | s, [] => (0, .gt, s)
  | s, b :: bs =>
      if (f s b).1 = .gt then
        ((scan f (f s b).2 bs).1 + 1, (scan f (f s b).2 bs).2)
      else (0, f s b)

@[simp] theorem scan_nil (f : σ → β → Ordering × σ) (s : σ) :
    scan f s [] = (0, .gt, s) := rfl

theorem scan_cons_of_gt {f : σ → β → Ordering × σ} {s : σ} {b : β}
    {bs : List β} (h : (f s b).1 = .gt) :
    scan f s (b :: bs) =
      ((scan f (f s b).2 bs).1 + 1, (scan f (f s b).2 bs).2) := by
  simp [scan, h]

theorem scan_cons_of_ne_gt {f : σ → β → Ordering × σ} {s : σ} {b : β}
    {bs : List β} (h : (f s b).1 ≠ .gt) :
    scan f s (b :: bs) = (0, f s b) := by
  simp [scan, h]

/-! ## Entries -/

structure Entry (α τ : Type*) where
  value : List (List α)
  tag : τ

structure Stored (α τ : Type*) where
  index : ℕ
  rest : List (List α)
  tag : τ

variable [LinearOrder α]

def store (p : List (List α)) (e : Entry α τ) : Stored α τ :=
  ⟨tupleMismatch p e.value, residual e.value (tupleMismatch p e.value), e.tag⟩

/-- Every entry stored after the one before it, the first one after `p`. -/
def frontCode (p : List (List α)) : List (Entry α τ) → List (Stored α τ)
  | [] => []
  | e :: es => store p e :: frontCode e.value es

def tupleCompare (v w : List (List α)) : Ordering :=
  if v < w then .lt else if w < v then .gt else .eq

theorem tupleCompare_of_lt {v w : List (List α)} (h : v < w) :
    tupleCompare v w = .lt := if_pos h

theorem tupleCompare_of_gt {v w : List (List α)} (h : w < v) :
    tupleCompare v w = .gt := by
  rw [tupleCompare, if_neg (not_lt.mpr h.le), if_pos h]

@[simp] theorem tupleCompare_self (v : List (List α)) :
    tupleCompare v v = .eq := by
  simp [tupleCompare]

def fullCompare (tie : τ → Ordering) (k : List (List α)) (e : Entry α τ) :
    Ordering :=
  (tupleCompare k e.value).then (tie e.tag)

/-- One step over the expanded entries, which remembers the entry passed. -/
def plainStep (tie : τ → Ordering) (k p : List (List α)) (e : Entry α τ) :
    Ordering × List (List α) :=
  (fullCompare tie k e, if fullCompare tie k e = .gt then e.value else p)

def step (tie : τ → Ordering) (k : List (List α)) (i : ℕ) (s : Stored α τ) :
    Ordering × ℕ :=
  if s.index < i then (.lt, i)
  else if i < s.index then (.gt, i)
  else
    let o := (tupleCompare (residual k i) s.rest).then (tie s.tag)
    (o, if o = .gt then i + tupleMismatch s.rest (residual k i) else i)

/-- The entries that mislead a search for `k`: `n` extends the key while the
entry before it equals the key, or `n` repeats the entry before it while the
key extends both. -/
def Misleading (k p n : List (List α)) : Prop :=
  (p = k ∧ k <+: n ∧ k ≠ n) ∨ (p = n ∧ n <+: k ∧ n ≠ k)

instance (k p n : List (List α)) : Decidable (Misleading k p n) :=
  inferInstanceAs (Decidable (_ ∨ _))

/-! ## One step -/

theorem tupleSyms_isPrefix_iff (v w : List (List α)) :
    tupleSyms v <+: tupleSyms w ↔ v <+: w := by
  constructor
  · intro h
    induction v generalizing w with
    | nil => exact List.nil_prefix
    | cons f v ih =>
        cases w with
        | nil => simp [fieldSyms] at h
        | cons g w =>
            rw [← commonPrefixLen_eq_left_iff, tupleSyms_cons, tupleSyms_cons,
              commonPrefixLen_fieldSyms, List.length_append,
              length_fieldSyms] at h
            split at h
            · rename_i hfg
              subst hfg
              have hv : tupleSyms v <+: tupleSyms w := by
                rw [← commonPrefixLen_eq_left_iff]
                omega
              exact List.cons_prefix_cons.mpr ⟨rfl, ih w hv⟩
            · have := commonPrefixLen_le_left f g
              omega
  · rintro ⟨u, rfl⟩
    exact ⟨tupleSyms u, (tupleSyms_append v u).symm⟩

theorem tupleMismatch_self (v : List (List α)) :
    tupleMismatch v v = (tupleSyms v).length - 1 :=
  mismatchIndex_self _

theorem tupleMismatch_nil_left (v : List (List α)) : tupleMismatch [] v = 0 := by
  simp [tupleMismatch, mismatchIndex]

/-- A proper extension is stored from where its prefix ends. -/
theorem tupleMismatch_of_isPrefix {v w : List (List α)} (h : v <+: w)
    (hne : v ≠ w) : tupleMismatch v w = (tupleSyms v).length := by
  have hlt : v < w := lt_of_le_of_ne (le_of_isPrefix h) hne
  unfold tupleMismatch
  rw [mismatchIndex_of_lt ((tupleSyms_lt_iff v w).mpr hlt)]
  exact (commonPrefixLen_eq_left_iff _ _).mpr
    ((tupleSyms_isPrefix_iff v w).mpr h)

theorem le_commonPrefixLen_trans {a b c : List (WithBot α)} {i : ℕ}
    (hb : i ≤ commonPrefixLen a b) (hc : i ≤ commonPrefixLen a c) :
    i ≤ commonPrefixLen b c := by
  have h1 := (le_commonPrefixLen_iff a b i).mp hb
  have h2 := (le_commonPrefixLen_iff a c i).mp hc
  exact (le_commonPrefixLen_iff b c i).mpr
    ⟨h1.2.1, h2.2.1, h1.2.2.symm.trans h2.2.2⟩

/-- Residuals taken inside the common prefix compare as the tuples do. -/
theorem residual_lt_residual_iff {v w : List (List α)} {i : ℕ}
    (h : i ≤ commonPrefixLen (tupleSyms v) (tupleSyms w)) :
    residual v i < residual w i ↔ v < w := by
  have hv := h.trans (commonPrefixLen_le_left _ _)
  have hw := h.trans (commonPrefixLen_le_right _ _)
  rw [← tupleSyms_lt_iff, tupleSyms_residual hv, tupleSyms_residual hw,
    drop_lt_drop_iff h, tupleSyms_lt_iff]

theorem tupleCompare_residual {v w : List (List α)} {i : ℕ}
    (h : i ≤ commonPrefixLen (tupleSyms v) (tupleSyms w)) :
    tupleCompare (residual v i) (residual w i) = tupleCompare v w := by
  have h' := h
  rw [commonPrefixLen_comm] at h'
  rcases lt_trichotomy v w with hlt | heq | hgt
  · rw [tupleCompare_of_lt hlt,
      tupleCompare_of_lt ((residual_lt_residual_iff h).mpr hlt)]
  · subst heq
    simp
  · rw [tupleCompare_of_gt hgt,
      tupleCompare_of_gt ((residual_lt_residual_iff h').mpr hgt)]

theorem tupleMismatch_eq_add {v w : List (List α)} {i : ℕ}
    (h : i ≤ commonPrefixLen (tupleSyms v) (tupleSyms w))
    (hi : i < (tupleSyms w).length) :
    tupleMismatch v w =
      i + tupleMismatch (residual v i) (residual w i) := by
  have hv := h.trans (commonPrefixLen_le_left _ _)
  unfold tupleMismatch
  rw [tupleSyms_residual hv, tupleSyms_residual hi.le]
  apply mismatchIndex_drop h
  rw [Ne, List.drop_eq_nil_iff]
  omega

theorem tupleMismatch_le_commonPrefixLen (p n : List (List α)) :
    tupleMismatch p n ≤ commonPrefixLen (tupleSyms p) (tupleSyms n) :=
  mismatchIndex_le_commonPrefixLen _ _

section Step

variable (tie : τ → Ordering) {k p : List (List α)} {n : Entry α τ}

/-- Where the entry misleads, the step answers the opposite. -/
theorem step_store_of_misleading (h : Misleading k p n.value) (hp : p ≠ []) :
    (step tie k (tupleMismatch p k) (store p n)).1 ≠ fullCompare tie k n := by
  rcases h with ⟨rfl, hpre, hne⟩ | ⟨rfl, hpre, hne⟩
  · have hlt : p < n.value := lt_of_le_of_ne (le_of_isPrefix hpre) hne
    have hpos := length_tupleSyms_pos hp
    have hfull : fullCompare tie p n = .lt := by
      simp [fullCompare, tupleCompare_of_lt hlt]
    rw [hfull]
    simp only [step, store, tupleMismatch_self,
      tupleMismatch_of_isPrefix hpre hne]
    rw [if_neg (by omega), if_pos (by omega)]
    exact Ordering.noConfusion
  · have hlt : n.value < k := lt_of_le_of_ne (le_of_isPrefix hpre) hne
    have hpos := length_tupleSyms_pos hp
    have hfull : fullCompare tie k n = .gt := by
      simp [fullCompare, tupleCompare_of_gt hlt]
    rw [hfull]
    simp only [step, store, tupleMismatch_self,
      tupleMismatch_of_isPrefix hpre hne]
    rw [if_pos (by omega)]
    exact Ordering.noConfusion

/-- A step over a stored entry is the comparison with the expanded one, and
its state stays the index against the last entry passed. -/
theorem step_store (hk : k ≠ []) (hpk : p ≤ k) (hpn : p ≤ n.value)
    (h : ¬ Misleading k p n.value) :
    step tie k (tupleMismatch p k) (store p n) =
      ((plainStep tie k p n).1, tupleMismatch (plainStep tie k p n).2 k) := by
  have hsk := (tupleSyms_le_iff p k).mpr hpk
  have hsn := (tupleSyms_le_iff p n.value).mpr hpn
  rcases lt_trichotomy (tupleMismatch p n.value) (tupleMismatch p k)
    with hlt | heq | hgt
  · have hkn : k < n.value := by
      rcases lt_of_lt_mismatchIndex hsk hsn hlt with hkn | ⟨heq, hpre, hne⟩
      · exact (tupleSyms_lt_iff k n.value).mp hkn
      · have heq' := tupleSyms_injective heq
        subst heq'
        have hpre' := (tupleSyms_isPrefix_iff n.value k).mp hpre
        exact absurd (Or.inr ⟨rfl, hpre', fun hnk => hne (by rw [hnk])⟩) h
    have hfull : fullCompare tie k n = .lt := by
      simp [fullCompare, tupleCompare_of_lt hkn]
    simp [step, store, plainStep, hlt, hfull]
  · have hn := tupleMismatch_le_commonPrefixLen p n.value
    have hk' := tupleMismatch_le_commonPrefixLen p k
    have hcpl : tupleMismatch p k ≤
        commonPrefixLen (tupleSyms k) (tupleSyms n.value) :=
      le_commonPrefixLen_trans hk' (heq ▸ hn)
    have hlen := tupleMismatch_lt_length p hk
    have hcmp := tupleCompare_residual hcpl
    rw [commonPrefixLen_comm] at hcpl
    have hadd := tupleMismatch_eq_add hcpl hlen
    simp only [step, store, heq, lt_irrefl, if_false, hcmp, plainStep,
      fullCompare, ← hadd]
    by_cases hgt : (tupleCompare k n.value).then (tie n.tag) = .gt
    · simp [hgt]
    · simp [hgt]
  · have hnk : n.value < k := by
      rcases lt_of_mismatchIndex_lt hsk hsn hgt with hnk | ⟨heq, hpre, hne⟩
      · exact (tupleSyms_lt_iff n.value k).mp hnk
      · have heq' := tupleSyms_injective heq
        subst heq'
        have hpre' := (tupleSyms_isPrefix_iff p n.value).mp hpre
        exact absurd (Or.inl ⟨rfl, hpre', fun hpn => hne (by rw [← hpn])⟩) h
    have hfull : fullCompare tie k n = .gt := by
      simp [fullCompare, tupleCompare_of_gt hnk]
    have hidx : tupleMismatch n.value k = tupleMismatch p k :=
      mismatchIndex_eq_of_lt
        ((tupleSyms_lt_iff p k).mpr (lt_of_le_of_lt hpn hnk)) hgt
    have hge : ¬ tupleMismatch p n.value < tupleMismatch p k := by omega
    simp [step, store, plainStep, hge, hgt, hfull, hidx]

end Step

/-! ## Whole sequences -/

/-- A search for `k` over `es` that starts behind `p` meets a misleading
entry before it ends. -/
def MisleadingIn (tie : τ → Ordering) (k : List (List α)) :
    List (List α) → List (Entry α τ) → Prop
  | _, [] => False
  | p, n :: es =>
      Misleading k p n.value ∨
        (fullCompare tie k n = .gt ∧ MisleadingIn tie k n.value es)

theorem le_of_fullCompare_eq_gt {tie : τ → Ordering} {k : List (List α)}
    {e : Entry α τ} (h : fullCompare tie k e = .gt) : e.value ≤ k := by
  by_contra hlt
  rw [not_le] at hlt
  simp [fullCompare, tupleCompare_of_lt hlt] at h

variable {tie : τ → Ordering} {k : List (List α)}

/-- Without misleading entries the search over the stored entries stops where
the scan over the expanded ones does, with the same result, and its state is the
mismatch index against the last entry passed. -/
theorem scan_frontCode (hk : k ≠ []) {p : List (List α)}
    {es : List (Entry α τ)} (hpk : p ≤ k)
    (hes : (p :: es.map Entry.value).IsChain (· ≤ ·))
    (h : ¬ MisleadingIn tie k p es) :
    scan (step tie k) (tupleMismatch p k) (frontCode p es) =
      ((scan (plainStep tie k) p es).1, (scan (plainStep tie k) p es).2.1,
        tupleMismatch (scan (plainStep tie k) p es).2.2 k) := by
  induction es generalizing p with
  | nil => rfl
  | cons n es ih =>
      rw [List.map_cons, List.isChain_cons_cons] at hes
      simp only [MisleadingIn, not_or, not_and] at h
      have hstep := step_store tie hk hpk hes.1 h.1
      rw [frontCode]
      by_cases hgt : fullCompare tie k n = .gt
      · have hgt' : (plainStep tie k p n).1 = .gt := hgt
        have hvalue : (plainStep tie k p n).2 = n.value := if_pos hgt
        rw [scan_cons_of_gt (by rw [hstep]; exact hgt'), scan_cons_of_gt hgt',
          hstep, hvalue,
          ih (le_of_fullCompare_eq_gt hgt) hes.2 (h.2 hgt)]
      · have hne : (plainStep tie k p n).1 ≠ .gt := hgt
        rw [scan_cons_of_ne_gt (by rw [hstep]; exact hne),
          scan_cons_of_ne_gt hne, hstep]

/-- A misleading entry that is reached spoils the search. -/
theorem scan_frontCode_ne (hk : k ≠ []) {p : List (List α)}
    {es : List (Entry α τ)} (hpk : p ≤ k)
    (hne : ∀ e ∈ es, e.value ≠ [])
    (hes : (p :: es.map Entry.value).IsChain (· ≤ ·))
    (h : MisleadingIn tie k p es) :
    ¬ ((scan (step tie k) (tupleMismatch p k) (frontCode p es)).1 =
        (scan (plainStep tie k) p es).1 ∧
      (scan (step tie k) (tupleMismatch p k) (frontCode p es)).2.1 =
        (scan (plainStep tie k) p es).2.1) := by
  induction es generalizing p with
  | nil => exact h.elim
  | cons n es ih =>
      rw [List.map_cons, List.isChain_cons_cons] at hes
      rw [frontCode]
      by_cases hmis : Misleading k p n.value
      · have hp : p ≠ [] := by
          rcases hmis with ⟨rfl, -⟩ | ⟨rfl, -⟩
          · exact hk
          · exact hne n List.mem_cons_self
        have hstep := step_store_of_misleading tie hmis hp
        by_cases hgt : fullCompare tie k n = .gt
        · have hgt' : (plainStep tie k p n).1 = .gt := hgt
          rw [hgt] at hstep
          rw [scan_cons_of_ne_gt hstep, scan_cons_of_gt hgt']
          rintro ⟨hpos, -⟩
          exact absurd hpos.symm (Nat.succ_ne_zero _)
        · have hgt' : (plainStep tie k p n).1 ≠ .gt := hgt
          rw [scan_cons_of_ne_gt hgt']
          by_cases hs : (step tie k (tupleMismatch p k) (store p n)).1 = .gt
          · rw [scan_cons_of_gt hs]
            rintro ⟨hpos, -⟩
            exact absurd hpos (Nat.succ_ne_zero _)
          · rw [scan_cons_of_ne_gt hs]
            rintro ⟨-, hres⟩
            exact hstep hres
      · simp only [MisleadingIn, hmis, false_or] at h
        obtain ⟨hgt, hrest⟩ := h
        have hstep := step_store tie hk hpk hes.1 hmis
        have hgt' : (plainStep tie k p n).1 = .gt := hgt
        have hvalue : (plainStep tie k p n).2 = n.value := if_pos hgt
        rw [scan_cons_of_gt (by rw [hstep]; exact hgt'), scan_cons_of_gt hgt',
          hstep, hvalue]
        rintro ⟨hpos, hres⟩
        exact ih (le_of_fullCompare_eq_gt hgt)
          (fun e he => hne e (List.mem_cons_of_mem n he)) hes.2 hrest
          ⟨Nat.succ_injective hpos, hres⟩

end FrontCoding
