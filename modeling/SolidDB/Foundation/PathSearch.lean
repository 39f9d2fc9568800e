import Mathlib.Logic.Relation
import Mathlib.Data.List.Chain
import Mathlib.Data.List.Nodup
import Mathlib.Data.Set.Insert

/-!
# Searching for a cycle along paths

A depth first search that marks only the vertices of its current path finds a marked
vertex just if a cycle can be reached. `Finds E P v` says that the search from `v` with
the marks `P` comes to a marked vertex.
-/

namespace PathSearch

open Relation

variable {V : Type*} {E E' : V → V → Prop} {P : Set V} {v t u : V}

inductive Finds (E : V → V → Prop) : Set V → V → Prop where
  | mark {P : Set V} {v t : V} (h : E v t) (ht : t ∈ insert v P) : Finds E P v
  | deeper {P : Set V} {v t : V} (h : E v t) (ht : t ∉ insert v P)
      (hf : Finds E (insert v P) t) : Finds E P v

def ReachesCycle (E : V → V → Prop) (v : V) : Prop :=
  ∃ u, ReflTransGen E v u ∧ TransGen E u u

theorem finds_iff : Finds E P v ↔
    ∃ t, E v t ∧ (t ∈ insert v P ∨ t ∉ insert v P ∧ Finds E (insert v P) t) := by
  constructor
  · intro h
    cases h with
    | mark h ht => exact ⟨_, h, .inl ht⟩
    | deeper h ht hf => exact ⟨_, h, .inr ⟨ht, hf⟩⟩
  · rintro ⟨t, h, ht | ⟨ht, hf⟩⟩
    · exact .mark h ht
    · exact .deeper h ht hf

theorem ReachesCycle.head (h : E v t) (ht : ReachesCycle E t) : ReachesCycle E v := by
  obtain ⟨u, hreach, hcycle⟩ := ht
  exact ⟨u, .head h hreach, hcycle⟩

/-- Every mark is on the path to the current vertex, so a marked vertex closes a cycle. -/
theorem Finds.reachesCycle (h : Finds E P v) (hP : ∀ p ∈ P, TransGen E p v) :
    ReachesCycle E v := by
  induction h with
  | @mark P v t h ht =>
      refine ⟨v, .refl, ?_⟩
      rcases ht with rfl | ht
      · exact .single h
      · exact .head h (hP t ht)
  | @deeper P v t h ht _ ih =>
      refine ReachesCycle.head h (ih ?_)
      rintro p (rfl | hp)
      · exact .single h
      · exact .tail (hP p hp) h

/-- The search follows every walk until a vertex comes again. -/
theorem finds_of_walk {ws : List V} (hwalk : List.IsChain E (v :: ws)) (hv : v ∉ P)
    (hrep : ¬ ((v :: ws).Nodup ∧ ∀ w ∈ v :: ws, w ∉ P)) : Finds E P v := by
  induction ws generalizing P v with
  | nil =>
      refine absurd ⟨List.nodup_singleton v, fun w hw => ?_⟩ hrep
      rw [List.mem_singleton.mp hw]
      exact hv
  | cons t ws ih =>
      obtain ⟨hedge, htail⟩ := List.isChain_cons_cons.mp hwalk
      by_cases ht : t ∈ insert v P
      · exact .mark hedge ht
      · refine .deeper hedge ht (ih htail ht fun hnew => hrep ?_)
        obtain ⟨hnodup, hfresh⟩ := hnew
        refine ⟨List.nodup_cons.mpr ⟨fun hm => hfresh v hm (Set.mem_insert v P), hnodup⟩, ?_⟩
        intro w hw
        rcases List.mem_cons.mp hw with rfl | hw
        · exact hv
        · exact fun hp => hfresh w hw (Set.mem_insert_of_mem v hp)

theorem exists_walk (h : ReflTransGen E v u) :
    ∃ ws, List.IsChain E (v :: ws) ∧ u ∈ v :: ws := by
  induction h using ReflTransGen.head_induction_on with
  | refl => exact ⟨[], List.isChain_singleton u, List.mem_singleton_self u⟩
  | @head a c hedge _ ih =>
      obtain ⟨ws, hchain, hmem⟩ := ih
      exact ⟨c :: ws, List.isChain_cons_cons.mpr ⟨hedge, hchain⟩, List.mem_cons_of_mem a hmem⟩

theorem ReachesCycle.exists_walk (h : ReachesCycle E v) :
    ∃ ws, List.IsChain E (v :: ws) ∧ ¬ (v :: ws).Nodup := by
  obtain ⟨u, hreach, hcycle⟩ := h
  induction hreach using ReflTransGen.head_induction_on with
  | refl =>
      obtain ⟨x, hedge, hback⟩ := TransGen.head'_iff.mp hcycle
      obtain ⟨ws, hchain, hmem⟩ := PathSearch.exists_walk hback
      exact ⟨x :: ws, List.isChain_cons_cons.mpr ⟨hedge, hchain⟩,
        fun hnodup => (List.nodup_cons.mp hnodup).1 hmem⟩
  | @head a c hedge _ ih =>
      obtain ⟨ws, hchain, hrep⟩ := ih
      exact ⟨c :: ws, List.isChain_cons_cons.mpr ⟨hedge, hchain⟩,
        fun hnodup => hrep (List.nodup_cons.mp hnodup).2⟩

/-- Without marks the search finds a cycle just if there is one to reach. -/
theorem finds_empty_iff : Finds E ∅ v ↔ ReachesCycle E v := by
  constructor
  · exact fun h => h.reachesCycle fun p hp => absurd hp (Set.notMem_empty p)
  · intro h
    obtain ⟨ws, hchain, hrep⟩ := h.exists_walk
    exact finds_of_walk hchain (Set.notMem_empty v) fun hnew => hrep hnew.1

/-- Two graphs with the same edges at every vertex that can be reached. -/
theorem ReachesCycle.congr (hedges : ∀ w, ReflTransGen E v w → ∀ t, E w t → E' w t)
    (h : ReachesCycle E v) : ReachesCycle E' v := by
  obtain ⟨u, hreach, hcycle⟩ := h
  have hmono {a b : V} (ha : ReflTransGen E v a) (hab : ReflTransGen E a b) :
      ReflTransGen E' a b := by
    induction hab with
    | refl => exact .refl
    | tail hab hedge ih => exact .tail ih (hedges _ (ha.trans hab) _ hedge)
  obtain ⟨x, hedge, hback⟩ := TransGen.head'_iff.mp hcycle
  exact ⟨u, hmono .refl hreach,
    .head' (hedges u hreach x hedge) (hmono (hreach.tail hedge) hback)⟩

/-- A cycle whose edges are edges of the other graph. -/
theorem cycle_congr
    (hedges : ∀ w, ReflTransGen E v w → ReflTransGen E w v → ∀ t, E w t → E' w t)
    (h : TransGen E v v) : TransGen E' v v := by
  have hfrom {a : V} (hto : TransGen E a v) : ReflTransGen E v a → TransGen E' a v := by
    induction hto using TransGen.head_induction_on with
    | single hedge => exact fun ha => .single (hedges _ ha (.single hedge) _ hedge)
    | head hedge hto ih =>
        intro ha
        exact .head (hedges _ ha (.head hedge hto.to_reflTransGen) _ hedge) (ih (ha.tail hedge))
  exact hfrom h .refl

end PathSearch
