import SolidDB.Foundation.Memory
import Mathlib.Algebra.Order.Group.Nat
import Mathlib.Logic.Equiv.Basic
import Mathlib.Data.List.Perm.Basic
import Mathlib.Data.List.Nodup

/-!
# Rearranging a part of a memory

A memory is rearranged between two positions when its cells there are moved by a permutation
and all others stay. What holds of all cells of the part holds of them afterwards.
-/

namespace Memory

variable {β : Type*} {lo mid hi : ℕ} {m m' m'' : Mem β}

def Rearranges (lo hi : ℕ) (m m' : Mem β) : Prop :=
  ∃ σ : Equiv.Perm ℕ, (∀ i, i < lo ∨ hi ≤ i → σ i = i) ∧ m' = m ∘ σ

def OrderedOn (r : β → β → Prop) (m : Mem β) (lo hi : ℕ) : Prop :=
  ∀ i j, lo ≤ i → i < j → j < hi → r (m i) (m j)

def swap (m : Mem β) (i j : ℕ) : Mem β := m ∘ Equiv.swap i j

theorem swap_apply (m : Mem β) (i j k : ℕ) :
    swap m i j k = if k = i then m j else if k = j then m i else m k := by
  rw [swap, Function.comp_apply, Equiv.swap_apply_def]
  split
  · rfl
  · split <;> rfl

namespace Rearranges

theorem refl (lo hi : ℕ) (m : Mem β) : Rearranges lo hi m m :=
  ⟨Equiv.refl ℕ, fun _ _ => rfl, rfl⟩

theorem trans (h : Rearranges lo hi m m') (h' : Rearranges lo hi m' m'') :
    Rearranges lo hi m m'' := by
  obtain ⟨σ, hσ, rfl⟩ := h
  obtain ⟨τ, hτ, rfl⟩ := h'
  refine ⟨τ.trans σ, fun i hi => ?_, rfl⟩
  rw [Equiv.trans_apply, hτ i hi, hσ i hi]

theorem symm (h : Rearranges lo hi m m') : Rearranges lo hi m' m := by
  obtain ⟨σ, hσ, rfl⟩ := h
  refine ⟨σ.symm, fun i hi => ?_, ?_⟩
  · rw [Equiv.symm_apply_eq, hσ i hi]
  · rw [Function.comp_assoc, Equiv.self_comp_symm, Function.comp_id]

theorem mono {lo' hi' : ℕ} (h : Rearranges lo hi m m') (hlo : lo' ≤ lo) (hhi : hi ≤ hi') :
    Rearranges lo' hi' m m' := by
  obtain ⟨σ, hσ, rfl⟩ := h
  refine ⟨σ, fun i hi => hσ i ?_, rfl⟩
  omega

theorem swap {i j : ℕ} (hi₁ : lo ≤ i) (hi₂ : i < hi) (hj₁ : lo ≤ j) (hj₂ : j < hi) (m : Mem β) :
    Rearranges lo hi m (Memory.swap m i j) := by
  refine ⟨Equiv.swap i j, fun k hk => ?_, rfl⟩
  rw [Equiv.swap_apply_of_ne_of_ne]
  · omega
  · omega

theorem apply_of_outside (h : Rearranges lo hi m m') {i : ℕ} (hi : i < lo ∨ hi ≤ i) :
    m' i = m i := by
  obtain ⟨σ, hσ, rfl⟩ := h
  rw [Function.comp_apply, hσ i hi]

theorem exists_apply (h : Rearranges lo hi m m') {i : ℕ} (hlo : lo ≤ i) (hhi : i < hi) :
    ∃ j, lo ≤ j ∧ j < hi ∧ m' i = m j := by
  obtain ⟨σ, hσ, rfl⟩ := h
  refine ⟨σ i, ?_, ?_, rfl⟩
  · by_contra hlt
    have hfix := σ.injective (hσ (σ i) (Or.inl (not_le.mp hlt)))
    omega
  · by_contra hge
    have hfix := σ.injective (hσ (σ i) (Or.inr (not_lt.mp hge)))
    omega

theorem forall_apply {P : β → Prop} {lo' hi' : ℕ} (h : Rearranges lo hi m m')
    (hlo : lo' ≤ lo) (hhi : hi ≤ hi') (hm : ∀ i, lo' ≤ i → i < hi' → P (m i)) :
    ∀ i, lo' ≤ i → i < hi' → P (m' i) := by
  intro i hi₁ hi₂
  by_cases hin : lo ≤ i ∧ i < hi
  · obtain ⟨j, hj₁, hj₂, hj⟩ := h.exists_apply hin.1 hin.2
    rw [hj]
    exact hm j (hlo.trans hj₁) (hj₂.trans_le hhi)
  · rw [h.apply_of_outside (by omega)]
    exact hm i hi₁ hi₂

theorem perm {n : ℕ} (h : Rearranges 0 n m m') :
    ((List.range n).map m').Perm ((List.range n).map m) := by
  have hin := h
  obtain ⟨σ, hσ, rfl⟩ := h
  have hrange : ((List.range n).map σ).Perm (List.range n) := by
    refine (List.perm_ext_iff_of_nodup (List.nodup_range.map σ.injective) List.nodup_range).mpr
      fun k => ?_
    have hlt : ∀ i, σ i < n ↔ i < n := by
      intro i
      constructor
      · intro h
        by_contra hge
        rw [hσ i (Or.inr (not_lt.mp hge))] at h
        exact hge h
      · intro h
        by_contra hge
        have hfix := σ.injective (hσ (σ i) (Or.inr (not_lt.mp hge)))
        omega
    rw [List.mem_map, List.mem_range]
    constructor
    · rintro ⟨i, hi, rfl⟩
      exact (hlt i).mpr (List.mem_range.mp hi)
    · intro hk
      refine ⟨σ.symm k, ?_, σ.apply_symm_apply k⟩
      rw [List.mem_range, ← hlt, σ.apply_symm_apply]
      exact hk
  rw [← List.map_map]
  exact hrange.map m

end Rearranges

namespace OrderedOn

variable {r : β → β → Prop}

theorem of_le_one (h : hi ≤ lo + 1) (m : Mem β) : OrderedOn r m lo hi := by
  intro i j hi hij hj
  omega

/-- Order of a part is not changed by what happens elsewhere. -/
theorem of_outside {lo' hi' : ℕ} (ho : OrderedOn r m lo hi) (h : Rearranges lo' hi' m m')
    (hout : hi ≤ lo' ∨ hi' ≤ lo) : OrderedOn r m' lo hi := by
  intro i j hi hij hj
  rw [h.apply_of_outside (by omega), h.apply_of_outside (by omega)]
  exact ho i j hi hij hj

/-- Two ordered parts with a cell between them that is not below the first and not above the
second. -/
theorem join (htrans : ∀ x y z, r x y → r y z → r x z) (hlower : OrderedOn r m lo mid)
    (hupper : OrderedOn r m (mid + 1) hi) (hle : ∀ i, lo ≤ i → i < mid → r (m i) (m mid))
    (hge : ∀ i, mid + 1 ≤ i → i < hi → r (m mid) (m i)) : OrderedOn r m lo hi := by
  intro i j hi hij hj
  rcases lt_trichotomy j mid with hjm | rfl | hjm
  · exact hlower i j hi hij hjm
  · exact hle i hi hij
  · rcases lt_trichotomy i mid with him | rfl | him
    · exact htrans _ _ _ (hle i hi him) (hge j hjm hj)
    · exact hge j hjm hj
    · exact hupper i j him hij hj

theorem pairwise {n : ℕ} (h : OrderedOn r m 0 n) : ((List.range n).map m).Pairwise r := by
  rw [List.pairwise_map, List.pairwise_iff_getElem]
  intro i j hi hj hij
  rw [List.getElem_range, List.getElem_range]
  rw [List.length_range] at hj
  exact h i j (Nat.zero_le i) hij hj

end OrderedOn

end Memory
