import SolidDB.Xs.Qsort

/-!
# Partition

What lies below `bot` is not above the dividing element at `mid`, and what lies above `top` is
not below it. A round moves `bot` and `top` towards `mid` and swaps what stands on the wrong
side.
-/

namespace SolidDB

open Memory (Mem Rearranges OrderedOn)

variable {α : Type} {compar : α → α → ℤ} {n lo hi : ℕ} {a : Mem α}

structure Divided (compar : α → α → ℤ) (lo hi : ℕ) (a : Mem α) (mid : ℕ) : Prop where
  lo_le : lo ≤ mid
  lt_hi : mid < hi
  lower : ∀ i, lo ≤ i → i < mid → ComparLe compar (a i) (a mid)
  upper : ∀ i, mid + 1 ≤ i → i < hi → ComparLe compar (a mid) (a i)

structure PartitionInvariant (compar : α → α → ℤ) (lo hi : ℕ) (a : Mem α) (bot mid top : ℕ) :
    Prop where
  lo_le : lo ≤ bot
  bot_le : bot ≤ mid
  mid_le : mid ≤ top
  lt_hi : top < hi
  lower : ∀ i, lo ≤ i → i < bot → ComparLe compar (a i) (a mid)
  upper : ∀ i, top < i → i < hi → ComparLe compar (a mid) (a i)

/-! ## The scans -/

theorem scanBot_spec (compar : α → α → ℤ) {mid : ℕ} (hmid : mid < n) :
    ∀ (k bot : ℕ), bot + k = mid →
    ∃ b, scanBot compar n a mid k bot = some b ∧ bot ≤ b ∧ b ≤ mid ∧
      (∀ i, bot ≤ i → i < b → ComparLe compar (a i) (a mid)) ∧
      (b < mid → ¬ ComparLe compar (a b) (a mid))
  | 0, bot, h => ⟨bot, rfl, le_rfl, by omega, fun i hi₁ hi₂ => by omega, fun hlt => by omega⟩
  | k + 1, bot, h => by
    rw [scanBot, comparAt_eq (by omega) hmid, Option.bind_some]
    by_cases hle : compar (a bot) (a mid) ≤ 0
    · rw [if_pos hle]
      obtain ⟨b, hb, hbot, hmid', hall, hstop⟩ := scanBot_spec compar hmid k (bot + 1) (by omega)
      refine ⟨b, hb, by omega, hmid', fun i hi₁ hi₂ => ?_, hstop⟩
      rcases Nat.eq_or_lt_of_le hi₁ with rfl | hlt
      · exact hle
      · exact hall i hlt hi₂
    · rw [if_neg hle]
      exact ⟨bot, rfl, le_rfl, by omega, fun i hi₁ hi₂ => by omega, fun _ => hle⟩

theorem scanTop_spec {mid : ℕ} : ∀ (k top : ℕ), mid + k = top → top < n →
    ∃ t, scanTop compar n a mid k top = some t ∧ mid ≤ t ∧ t ≤ top ∧
      (∀ i, t < i → i ≤ top → ComparLe compar (a mid) (a i)) ∧
      (mid < t → ¬ ComparLe compar (a mid) (a t))
  | 0, top, h, _ => ⟨top, rfl, by omega, le_rfl, fun i hi₁ hi₂ => by omega, fun hlt => by omega⟩
  | k + 1, top, h, hn => by
    rw [scanTop, comparAt_eq (by omega) hn, Option.bind_some]
    by_cases hle : compar (a mid) (a top) ≤ 0
    · rw [if_pos hle]
      obtain ⟨t, ht, hmid, htop, hall, hstop⟩ := scanTop_spec k (top - 1)
        (show mid + k = top - 1 by omega) (by omega)
      refine ⟨t, ht, hmid, by omega, fun i hi₁ hi₂ => ?_, hstop⟩
      rcases Nat.eq_or_lt_of_le hi₂ with rfl | hlt
      · exact hle
      · exact hall i hi₁ (by omega)
    · rw [if_neg hle]
      exact ⟨top, rfl, by omega, le_rfl, fun i hi₁ hi₂ => by omega, fun _ => hle⟩

/-! ## The swaps -/

theorem ComparesPreorder.le_of_not_le (hc : ComparesPreorder compar) {x y : α}
    (h : ¬ ComparLe compar x y) : ComparLe compar y x :=
  ((hc.symm y x).mpr (not_le.mp h)).le

namespace PartitionInvariant

variable {bot mid top : ℕ}

theorem swap_mid_top (hc : ComparesPreorder compar)
    (h : PartitionInvariant compar lo hi a mid mid top) (hlt : mid < top)
    (htop : ¬ ComparLe compar (a mid) (a top)) :
    PartitionInvariant compar lo hi (Memory.swap a mid top) (mid + 1) top top := by
  have hpivot : Memory.swap a mid top top = a mid := by
    rw [Memory.swap_apply, if_neg (by omega), if_pos rfl]
  refine ⟨by have := h.lo_le; omega, hlt, le_rfl, h.lt_hi, fun i hi₁ hi₂ => ?_,
    fun i hi₁ hi₂ => ?_⟩
  · rw [hpivot, Memory.swap_apply]
    by_cases hi : i = mid
    · rw [if_pos hi]
      exact hc.le_of_not_le htop
    · rw [if_neg hi, if_neg (by omega)]
      exact h.lower i hi₁ (by omega)
  · rw [hpivot, Memory.swap_apply, if_neg (by omega), if_neg (by omega)]
    exact h.upper i hi₁ hi₂

theorem swap_bot_top (hc : ComparesPreorder compar)
    (h : PartitionInvariant compar lo hi a bot mid top) (hbot : bot < mid) (hlt : mid < top)
    (hb : ¬ ComparLe compar (a bot) (a mid)) (ht : ¬ ComparLe compar (a mid) (a top)) :
    PartitionInvariant compar lo hi (Memory.swap a bot top) (bot + 1) mid (top - 1) := by
  have hpivot : Memory.swap a bot top mid = a mid := by
    rw [Memory.swap_apply, if_neg (by omega), if_neg (by omega)]
  have hlo := h.lo_le
  have hhi := h.lt_hi
  refine ⟨by omega, hbot, by omega, by omega, fun i hi₁ hi₂ => ?_, fun i hi₁ hi₂ => ?_⟩
  · rw [hpivot, Memory.swap_apply]
    by_cases hi : i = bot
    · rw [if_pos hi]
      exact hc.le_of_not_le ht
    · rw [if_neg hi, if_neg (by omega)]
      exact h.lower i hi₁ (by omega)
  · rw [hpivot, Memory.swap_apply, if_neg (by omega)]
    by_cases hi : i = top
    · rw [if_pos hi]
      exact hc.le_of_not_le hb
    · rw [if_neg hi]
      exact h.upper i (by omega) hi₂

theorem swap_bot_mid (hc : ComparesPreorder compar)
    (h : PartitionInvariant compar lo hi a bot mid mid) (hbot : bot < mid)
    (hb : ¬ ComparLe compar (a bot) (a mid)) :
    PartitionInvariant compar lo hi (Memory.swap a bot mid) bot bot (mid - 1) := by
  have hpivot : Memory.swap a bot mid bot = a mid := by
    rw [Memory.swap_apply, if_pos rfl]
  have hlo := h.lo_le
  have hhi := h.lt_hi
  refine ⟨hlo, le_rfl, by omega, by omega, fun i hi₁ hi₂ => ?_, fun i hi₁ hi₂ => ?_⟩
  · rw [hpivot, Memory.swap_apply, if_neg (by omega), if_neg (by omega)]
    exact h.lower i hi₁ hi₂
  · rw [hpivot, Memory.swap_apply, if_neg (by omega)]
    by_cases hi : i = mid
    · rw [if_pos hi]
      exact hc.le_of_not_le hb
    · rw [if_neg hi]
      exact h.upper i (by omega) hi₂

end PartitionInvariant

/-! ## The loop -/

theorem partitionLoop_spec (hc : ComparesPreorder compar) (hn : hi ≤ n) :
    ∀ (fuel : ℕ) (a : Mem α) (bot mid top : ℕ) (didswap : Bool),
      PartitionInvariant compar lo hi a bot mid top → top - bot < fuel →
      ∃ p, partitionLoop compar n fuel a bot mid top didswap = some p ∧
        Rearranges lo hi a p.a ∧ Divided compar lo hi p.a p.mid
  | 0, _, _, _, _, _, _, hfuel => absurd hfuel (Nat.not_lt_zero _)
  | fuel + 1, a, bot, mid, top, didswap, h, hfuel => by
    have hlo := h.lo_le
    have hbm := h.bot_le
    have hmt := h.mid_le
    have hhi := h.lt_hi
    obtain ⟨b, hb, hbot, hbmid, hball, hbstop⟩ := scanBot_spec compar (a := a)
      (show mid < n by omega) (mid - bot) bot (by omega)
    obtain ⟨t, ht, htmid, htop, htall, htstop⟩ := scanTop_spec (n := n)
      (a := a) (top - mid) top (show mid + (top - mid) = top by omega) (by omega)
    -- the invariant with the scans done
    have hscan : PartitionInvariant compar lo hi a b mid t := by
      refine ⟨by omega, hbmid, htmid, by omega, fun i hi₁ hi₂ => ?_, fun i hi₁ hi₂ => ?_⟩
      · rcases Nat.lt_or_ge i bot with hlt | hge
        · exact h.lower i hi₁ hlt
        · exact hball i hge hi₂
      · rcases Nat.lt_or_ge top i with hgt | hle
        · exact h.upper i hgt hi₂
        · exact htall i hi₁ hle
    rw [partitionLoop, hb, Option.bind_some, ht, Option.bind_some]
    by_cases hlt : mid < t
    · rw [if_pos hlt, swapAt_eq (by omega) (by omega)]
      by_cases heq : b = mid
      · rw [heq] at hscan
        rw [if_pos heq, Option.bind_some, heq]
        obtain ⟨p, hp, hre, hdiv⟩ := partitionLoop_spec hc hn fuel _ (mid + 1) t t true
          (hscan.swap_mid_top hc hlt (htstop hlt)) (by omega)
        exact ⟨p, hp, (Rearranges.swap (by omega) (by omega) (by omega) (by omega) a).trans hre,
          hdiv⟩
      · rw [if_neg heq, Option.bind_some]
        obtain ⟨p, hp, hre, hdiv⟩ := partitionLoop_spec hc hn fuel _ (b + 1) mid (t - 1) true
          (hscan.swap_bot_top hc (by omega) hlt (hbstop (by omega)) (htstop hlt)) (by omega)
        exact ⟨p, hp, (Rearranges.swap (by omega) (by omega) (by omega) (by omega) a).trans hre,
          hdiv⟩
    · have htm : t = mid := by omega
      rw [htm] at hscan
      rw [if_neg hlt]
      by_cases heq : b = mid
      · rw [if_pos heq]
        rw [heq] at hscan
        exact ⟨_, rfl, .refl _ _ a, hscan.lo_le, hmt.trans_lt hhi, hscan.lower,
          fun i hi₁ hi₂ => hscan.upper i hi₁ hi₂⟩
      · rw [if_neg heq, swapAt_eq (by omega) (by omega), Option.bind_some, htm]
        obtain ⟨p, hp, hre, hdiv⟩ := partitionLoop_spec hc hn fuel _ b b (mid - 1) true
          (hscan.swap_bot_mid hc (by omega) (hbstop (by omega))) (by omega)
        exact ⟨p, hp, (Rearranges.swap (by omega) (by omega) (by omega) (by omega) a).trans hre,
          hdiv⟩

/-! ## The median -/

theorem medianAt_spec (compar : α → α → ℤ) {bot mid top : ℕ} (hmid : bot ≤ mid)
    (htop : mid ≤ top) (hn : top < n) :
    ∃ t1, medianAt compar n a bot mid top = some t1 ∧ bot ≤ t1 ∧ t1 ≤ top := by
  rw [medianAt, comparAt_eq (by omega) (by omega), Option.bind_some,
    comparAt_eq (by omega) (by omega), Option.bind_some, comparAt_eq (by omega) hn,
    Option.map_some, Option.map_some]
  split
  · split
    · exact ⟨top, rfl, by omega, le_rfl⟩
    · exact ⟨bot, rfl, le_rfl, by omega⟩
  · split
    · split
      · exact ⟨top, rfl, by omega, le_rfl⟩
      · exact ⟨bot, rfl, le_rfl, by omega⟩
    · exact ⟨mid, rfl, hmid, htop⟩

theorem selectMedian_spec (compar : α → α → ℤ) {bot mid top : ℕ} (hmid : bot ≤ mid)
    (htop : mid ≤ top) (hn : top < n) (nmemb : ℕ) :
    ∃ a', selectMedian compar n a bot mid top nmemb = some a' ∧
      Rearranges bot (top + 1) a a' := by
  obtain ⟨t1, ht1, hbot, ht⟩ := medianAt_spec (a := a) compar hmid htop hn
  rw [selectMedian]
  split
  · rw [ht1, Option.bind_some]
    split
    · rw [swapAt_eq (by omega) (by omega)]
      exact ⟨_, rfl, .swap (by omega) (by omega) (by omega) (by omega) a⟩
    · exact ⟨a, rfl, .refl _ _ a⟩
  · exact ⟨a, rfl, .refl _ _ a⟩

end SolidDB
