import SolidDB.Dbe.BkeySplit
import Mathlib.Data.Prod.Lex

/-!
# The order of keys

`dbe_trxid_cmp` is a circular difference, so `dbe_bkey_compare` is an order only
among keys whose transaction ids lie in one half of the id space. There it is the
lexicographic order by v-tuple, delete mark and transaction id.
-/

namespace SolidDB

open FrontCoding

/-- The id is zero, the smallest one, or less than half a round after `base`. -/
def BkeyHeader.InWindow (base : ℕ) (h : BkeyHeader) : Prop :=
  h.trxid = 0 ∨ (h.trxid + (2 ^ 32 - base)) % 2 ^ 32 < 2 ^ 31

instance (base : ℕ) (h : BkeyHeader) : Decidable (h.InWindow base) :=
  inferInstanceAs (Decidable (_ ∨ _))

/-- The distance of an id from `base`, with zero below all others. -/
def trxidRank (base trxid : ℕ) : ℕ :=
  if trxid = 0 then 0 else (trxid + (2 ^ 32 - base)) % 2 ^ 32 + 1

/-- Delete marks precede the keys that they may delete. -/
def BkeyHeader.rank (base : ℕ) (h : BkeyHeader) : ℕ ×ₗ ℕ :=
  toLex (if h.deletemark then 0 else 1, trxidRank base h.trxid)

def Key.rank (base : ℕ) (k : Key) : Fields ×ₗ ℕ ×ₗ ℕ := toLex (k.vtpl, k.header.rank base)

theorem toInt32_eq_zero_iff {t u : ℕ} (ht : t < 2 ^ 32) (hu : u < 2 ^ 32) :
    toInt32 ((t : ℤ) - u) = 0 ↔ t = u := by
  unfold toInt32
  rw [Int.bmod_def]
  split <;> omega

theorem toInt32_sub_of_window {base t u : ℕ} (htw : (t + (2 ^ 32 - base)) % 2 ^ 32 < 2 ^ 31)
    (huw : (u + (2 ^ 32 - base)) % 2 ^ 32 < 2 ^ 31) :
    toInt32 ((t : ℤ) - u) =
      ((t + (2 ^ 32 - base)) % 2 ^ 32 : ℕ) - ((u + (2 ^ 32 - base)) % 2 ^ 32 : ℕ) := by
  unfold toInt32
  rw [Int.bmod_def]
  split <;> omega

/-- Among ids of one window the circular difference is the distance from `base`. -/
theorem signOf_dbeTrxidCmp {base t u : ℕ} (ht : t < 2 ^ 32)
    (hu : u < 2 ^ 32) (htw : t = 0 ∨ (t + (2 ^ 32 - base)) % 2 ^ 32 < 2 ^ 31)
    (huw : u = 0 ∨ (u + (2 ^ 32 - base)) % 2 ^ 32 < 2 ^ 31) :
    signOf (dbeTrxidCmp t u) = cmp (trxidRank base t) (trxidRank base u) := by
  have hzero := toInt32_eq_zero_iff ht hu
  have hcmp : dbeTrxidCmp t u = if t = u then 0 else if t = 0 then -1 else if u = 0 then 1
      else if toInt32 ((t : ℤ) - u) < 0 then -1 else 1 := by
    simp only [dbeTrxidCmp, hzero]
  rw [hcmp]
  by_cases htu : t = u
  · subst htu
    rw [if_pos rfl, cmp_self_eq_eq]
    rfl
  · rw [if_neg htu]
    by_cases ht0 : t = 0
    · have hlt : trxidRank base t < trxidRank base u := by
        rw [trxidRank, if_pos ht0, trxidRank, if_neg (fun hu0 => htu (ht0.trans hu0.symm))]
        exact Nat.succ_pos _
      rw [if_pos ht0, (cmp_eq_lt_iff _ _).mpr hlt]
      rfl
    · rw [if_neg ht0]
      by_cases hu0 : u = 0
      · have hlt : trxidRank base u < trxidRank base t := by
          rw [trxidRank, if_pos hu0, trxidRank, if_neg ht0]
          exact Nat.succ_pos _
        rw [if_pos hu0, (cmp_eq_gt_iff _ _).mpr hlt]
        rfl
      · have hsub := toInt32_sub_of_window (htw.resolve_left ht0)
          (huw.resolve_left hu0)
        rw [if_neg hu0, hsub, trxidRank, if_neg ht0, trxidRank, if_neg hu0]
        rw [hsub] at hzero
        by_cases hlt : (t + (2 ^ 32 - base)) % 2 ^ 32 < (u + (2 ^ 32 - base)) % 2 ^ 32
        · rw [if_pos (by omega), (cmp_eq_lt_iff _ _).mpr (by omega)]
          rfl
        · rw [if_neg (by omega), (cmp_eq_gt_iff _ _).mpr (by omega)]
          rfl

section Lex

variable {α β : Type*} [LinearOrder α] [LinearOrder β]

theorem cmp_toLex_of_lt {a b : α} (h : a < b) (x y : β) :
    cmp (toLex (a, x)) (toLex (b, y)) = .lt :=
  (cmp_eq_lt_iff _ _).mpr (Prod.Lex.toLex_lt_toLex.mpr (Or.inl h))

theorem cmp_toLex_of_gt {a b : α} (h : b < a) (x y : β) :
    cmp (toLex (a, x)) (toLex (b, y)) = .gt :=
  (cmp_eq_gt_iff _ _).mpr (Prod.Lex.toLex_lt_toLex.mpr (Or.inl h))

theorem cmp_toLex_self (a : α) (x y : β) :
    cmp (toLex (a, x)) (toLex (a, y)) = cmp x y := by
  rcases lt_trichotomy x y with h | h | h
  · rw [(cmp_eq_lt_iff _ _).mpr h]
    exact (cmp_eq_lt_iff _ _).mpr (Prod.Lex.toLex_lt_toLex.mpr (Or.inr ⟨rfl, h⟩))
  · rw [h, cmp_self_eq_eq, cmp_self_eq_eq]
  · rw [(cmp_eq_gt_iff _ _).mpr h]
    exact (cmp_eq_gt_iff _ _).mpr (Prod.Lex.toLex_lt_toLex.mpr (Or.inr ⟨rfl, h⟩))

end Lex

variable {base : ℕ}

theorem headerTie_all {g h : BkeyHeader} (hg : g.InWindow base) (hh : h.InWindow base) :
    headerTie .all g h = cmp (g.rank base) (h.rank base) := by
  have hid := signOf_dbeTrxidCmp g.trxid_lt h.trxid_lt hg hh
  rw [headerTie, headerCompare_all]
  rw [BkeyHeader.rank, BkeyHeader.rank]
  cases g.deletemark with
  | false =>
      cases h.deletemark with
      | false => exact hid.trans (cmp_toLex_self 1 _ _).symm
      | true => exact (cmp_toLex_of_gt Nat.zero_lt_one _ _).symm
  | true =>
      cases h.deletemark with
      | false => exact (cmp_toLex_of_lt Nat.zero_lt_one _ _).symm
      | true => exact hid.trans (cmp_toLex_self 0 _ _).symm

def Key.InWindow (base : ℕ) (k : Key) : Prop := k.header.InWindow base

instance (k : Key) : Decidable (k.InWindow base) :=
  inferInstanceAs (Decidable (k.header.InWindow base))

theorem signOf_dbeBkeyCompare {k e : Key} (hk : k.InWindow base) (he : e.InWindow base) :
    signOf (dbeBkeyCompare k.bytes e.bytes) = cmp (k.rank base) (e.rank base) := by
  rw [dbeBkeyCompare, signOf_dbeBkeyCompareMode, fullCompare, Key.entry, Key.rank, Key.rank]
  rcases lt_trichotomy k.vtpl e.vtpl with h | h | h
  · rw [tupleCompare_of_lt h, cmp_toLex_of_lt h]
    rfl
  · rw [h, tupleCompare_self, cmp_toLex_self]
    exact headerTie_all hk he
  · rw [tupleCompare_of_gt h, cmp_toLex_of_gt h]
    rfl

theorem dbeBkeyCompare_neg_iff {k e : Key} (hk : k.InWindow base) (he : e.InWindow base) :
    dbeBkeyCompare k.bytes e.bytes < 0 ↔ k.rank base < e.rank base := by
  rw [← signOf_eq_lt_iff, signOf_dbeBkeyCompare hk he, cmp_eq_lt_iff]

theorem dbeBkeyCompare_pos_iff {k e : Key} (hk : k.InWindow base) (he : e.InWindow base) :
    0 < dbeBkeyCompare k.bytes e.bytes ↔ e.rank base < k.rank base := by
  rw [← signOf_eq_gt_iff, signOf_dbeBkeyCompare hk he, cmp_eq_gt_iff]

theorem dbeBkeyCompare_nonpos_iff {k e : Key} (hk : k.InWindow base)
    (he : e.InWindow base) :
    dbeBkeyCompare k.bytes e.bytes ≤ 0 ↔ k.rank base ≤ e.rank base := by
  rw [← not_lt, dbeBkeyCompare_pos_iff hk he, not_lt]

theorem dbeBkeyCompare_nonneg_iff {k e : Key} (hk : k.InWindow base)
    (he : e.InWindow base) :
    0 ≤ dbeBkeyCompare k.bytes e.bytes ↔ e.rank base ≤ k.rank base := by
  rw [← not_lt, dbeBkeyCompare_neg_iff hk he, not_lt]

theorem Key.vtpl_le_of_rank_le {k e : Key} (h : k.rank base ≤ e.rank base) :
    k.vtpl ≤ e.vtpl := by
  rcases Prod.Lex.toLex_le_toLex.mp h with hlt | ⟨heq, -⟩
  · exact hlt.le
  · exact heq.le

end SolidDB
