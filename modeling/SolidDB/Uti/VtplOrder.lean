import SolidDB.Uti.VtplCompare

/-!
# The order of v-tuples

`vtpl_compare` is the lexicographic order of the fields on v-tuples in any length format, but
for the shortcut that compares the lengths of the tuples where one of them has a single byte.
-/

namespace SolidDB

open FrontCoding

structure Vtpl where
  bytes : List UInt8
  fields : Fields
  code : VtplCode bytes fields
  length_lt : ∀ f ∈ fields, f.length < 2 ^ 31

namespace Vtpl

def ofFields (v : Fields) (hv : VtplFits v) (hlen : ∀ f ∈ v, f.length < 2 ^ 31) : Vtpl :=
  ⟨encVtpl v ++ [], v, hv.vtplCode [], hlen⟩

end Vtpl

theorem swap_tupleCompare (v w : Fields) : (tupleCompare v w).swap = tupleCompare w v := by
  rcases lt_trichotomy v w with hlt | rfl | hgt
  · rw [tupleCompare_of_lt hlt, tupleCompare_of_gt hlt]
    rfl
  · rw [tupleCompare_self]
    rfl
  · rw [tupleCompare_of_gt hgt, tupleCompare_of_lt hgt]
    rfl

theorem tupleCompare_eq_eq_iff {v w : Fields} : tupleCompare v w = .eq ↔ v = w := by
  rcases lt_trichotomy v w with hlt | rfl | hgt
  · rw [tupleCompare_of_lt hlt]
    exact iff_of_false Ordering.noConfusion hlt.ne
  · exact iff_of_true (tupleCompare_self v) rfl
  · rw [tupleCompare_of_gt hgt]
    exact iff_of_false Ordering.noConfusion hgt.ne'

theorem tupleCompare_eq_lt_iff {v w : Fields} : tupleCompare v w = .lt ↔ v < w := by
  rcases lt_trichotomy v w with hlt | rfl | hgt
  · exact iff_of_true (tupleCompare_of_lt hlt) hlt
  · rw [tupleCompare_self]
    exact iff_of_false Ordering.noConfusion (lt_irrefl v)
  · rw [tupleCompare_of_gt hgt]
    exact iff_of_false Ordering.noConfusion hgt.asymm

theorem tupleCompare_eq_gt_iff {v w : Fields} : tupleCompare v w = .gt ↔ w < v := by
  rcases lt_trichotomy v w with hlt | rfl | hgt
  · rw [tupleCompare_of_lt hlt]
    exact iff_of_false Ordering.noConfusion hlt.asymm
  · rw [tupleCompare_self]
    exact iff_of_false Ordering.noConfusion (lt_irrefl v)
  · exact iff_of_true (tupleCompare_of_gt hgt) hgt

structure OrdersTuples (x y z : Vtpl) : Prop where
  lexicographic : ∀ a ∈ [x, y, z], ∀ b ∈ [x, y, z],
    signOf (vtplCompare a.bytes b.bytes) = tupleCompare a.fields b.fields
  antisymm : ∀ a ∈ [x, y, z], ∀ b ∈ [x, y, z],
    signOf (vtplCompare a.bytes b.bytes) = (signOf (vtplCompare b.bytes a.bytes)).swap
  trans : vtplCompare x.bytes y.bytes ≤ 0 → vtplCompare y.bytes z.bytes ≤ 0 →
    vtplCompare x.bytes z.bytes ≤ 0
  zero_iff : ∀ a ∈ [x, y, z], ∀ b ∈ [x, y, z],
    vtplCompare a.bytes b.bytes = 0 ↔ a.fields = b.fields

theorem vtplCompare_le_zero_iff {a b : Vtpl}
    (h : signOf (vtplCompare a.bytes b.bytes) = tupleCompare a.fields b.fields) :
    vtplCompare a.bytes b.bytes ≤ 0 ↔ a.fields ≤ b.fields := by
  rw [← not_lt, ← signOf_eq_gt_iff, h, tupleCompare_eq_gt_iff, not_lt]

/-- Three tuples are ordered exactly when the shortcut agrees for all of them. -/
theorem ordersTuples_iff (x y z : Vtpl) :
    OrdersTuples x y z ↔
      ∀ a ∈ [x, y, z], ∀ b ∈ [x, y, z], NullAgrees a.bytes b.bytes b.fields := by
  have hpair (a b : Vtpl) := vtplCompare_iff a.code b.code a.length_lt b.length_lt
  constructor
  · intro h a ha b hb
    exact ((hpair a b).mp ⟨h.lexicographic a ha b hb, h.lexicographic b hb a ha⟩).1
  · intro h
    have hlex : ∀ a ∈ [x, y, z], ∀ b ∈ [x, y, z],
        signOf (vtplCompare a.bytes b.bytes) = tupleCompare a.fields b.fields :=
      fun a ha b hb => ((hpair a b).mpr ⟨h a ha b hb, h b hb a ha⟩).1
    refine ⟨hlex, fun a ha b hb => ?_, fun hxy hyz => ?_, fun a ha b hb => ?_⟩
    · rw [hlex a ha b hb, hlex b hb a ha, swap_tupleCompare]
    · have hx : x ∈ [x, y, z] := List.mem_cons_self ..
      have hy : y ∈ [x, y, z] := List.mem_cons_of_mem _ (List.mem_cons_self ..)
      have hz : z ∈ [x, y, z] :=
        List.mem_cons_of_mem _ (List.mem_cons_of_mem _ (List.mem_cons_self ..))
      rw [vtplCompare_le_zero_iff (hlex x hx y hy)] at hxy
      rw [vtplCompare_le_zero_iff (hlex y hy z hz)] at hyz
      rw [vtplCompare_le_zero_iff (hlex x hx z hz)]
      exact hxy.trans hyz
    · rw [← signOf_eq_eq_iff, hlex a ha b hb, tupleCompare_eq_eq_iff]

theorem netlen_replicate_nil (n : ℕ) : netlen (List.replicate n []) = n := by
  induction n with
  | zero => rfl
  | succ n ih =>
      rw [List.replicate_succ, netlen_cons, ih]
      exact Nat.add_comm 1 n

def vtplNull : Vtpl := .ofFields [[]] (by decide) (by decide)

/-- The empty field behind a length of five bytes. -/
def vtplLongNull : Vtpl where
  bytes := [5, 0xFE, 0, 0, 0, 0]
  fields := [[]]
  code :=
    ⟨List.cons_ne_nil _ _, [5], [0xFE, 0, 0, 0, 0], [], rfl, .byte (show 5 < 0xFE by decide),
      .cons (h := [0xFE, 0, 0, 0, 0]) (f := []) (.fourByte 0xFE (by decide) (by decide)) .nil⟩
  length_lt := by decide

/-- Empty fields, more than an `int` can count. -/
def vtplManyNulls : Vtpl :=
  .ofFields (List.replicate (2 ^ 31 + 1) [])
    ⟨by rw [List.replicate_succ]; exact List.cons_ne_nil _ _,
      by rw [netlen_replicate_nil]; decide⟩
    (fun f hf => by rw [List.eq_of_mem_replicate hf]; decide)

theorem not_ordersTuples_null :
    ¬ OrdersTuples vtplNull vtplNull vtplLongNull ∧
      ¬ OrdersTuples vtplNull vtplNull vtplManyNulls := by
  constructor
  · intro h
    have hzero := h.zero_iff vtplNull (by simp) vtplLongNull (by simp)
    exact absurd (hzero.mpr rfl) (by decide)
  · intro h
    have hnull : vtplNull ∈ [vtplNull, vtplNull, vtplManyNulls] := List.mem_cons_self ..
    have hmany : vtplManyNulls ∈ [vtplNull, vtplNull, vtplManyNulls] :=
      List.mem_cons_of_mem _ (List.mem_cons_of_mem _ (List.mem_cons_self ..))
    have hagree := ((vtplCompare_iff vtplNull.code vtplManyNulls.code vtplNull.length_lt
      vtplManyNulls.length_lt).mp ⟨h.lexicographic _ hnull _ hmany,
        h.lexicographic _ hmany _ hnull⟩).1 rfl
    have hlen : (vaGetdata vtplManyNulls.bytes).2 = 2 ^ 31 + 1 :=
      (congrArg Prod.snd (vaGetdata_encVa (by
        rw [length_encFields, netlen_replicate_nil]
        decide) [])).trans (netlen_replicate_nil _)
    omega

end SolidDB
