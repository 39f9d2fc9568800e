import Mathlib.Data.List.GetD
import SolidDB.Xs.QsortPartition

/-!
# Quicksort

The parts on both sides of the dividing element are sorted one after the other. Their sizes are
of type `int`, which is wide enough for arrays of at most `2 ^ 31` elements.
-/

namespace SolidDB

section

open Memory (Mem Rearranges OrderedOn)

variable {α : Type} {compar : α → α → ℤ} {n lo hi mid : ℕ} {a a₁ a₂ : Mem α}

theorem comparLe_trans (hc : ComparesPreorder compar) (x y z : α) (hxy : ComparLe compar x y)
    (hyz : ComparLe compar y z) : ComparLe compar x z := hc.trans x y z hxy hyz

/-! ## Joining the parts -/

/-- A divided part stays so when its sides are rearranged. -/
theorem Divided.of_rearranges (h : Divided compar lo hi a mid) {lo' hi' : ℕ}
    (hre : Rearranges lo' hi' a a₁)
    (hside : lo' = lo ∧ hi' = mid ∨ lo' = mid + 1 ∧ hi' = hi) :
    Divided compar lo hi a₁ mid := by
  have hlo := h.lo_le
  have hhi := h.lt_hi
  have hmid : a₁ mid = a mid := hre.apply_of_outside (by omega)
  refine ⟨hlo, hhi, ?_, ?_⟩
  · rw [hmid]
    rcases hside with ⟨rfl, rfl⟩ | ⟨rfl, rfl⟩
    · exact hre.forall_apply (P := fun x => ComparLe compar x (a hi')) le_rfl le_rfl h.lower
    · intro i hi₁ hi₂
      rw [hre.apply_of_outside (by omega)]
      exact h.lower i hi₁ hi₂
  · rw [hmid]
    rcases hside with ⟨rfl, rfl⟩ | ⟨rfl, rfl⟩
    · intro i hi₁ hi₂
      rw [hre.apply_of_outside (by omega)]
      exact h.upper i hi₁ hi₂
    · exact hre.forall_apply (P := fun x => ComparLe compar (a mid) x) le_rfl le_rfl h.upper

theorem Divided.sorts (hc : ComparesPreorder compar) (h : Divided compar lo hi a₁ mid)
    (hlower : OrderedOn (ComparLe compar) a₁ lo mid)
    (hupper : OrderedOn (ComparLe compar) a₁ (mid + 1) hi) (hre : Rearranges lo hi a a₁) :
    Sorts compar lo hi a a₁ :=
  ⟨hre, hlower.join (comparLe_trans hc) hupper h.lower h.upper⟩

theorem Divided.sorts_upper_lower (hc : ComparesPreorder compar) (h : Divided compar lo hi a mid)
    (hupper : Sorts compar (mid + 1) hi a a₁) (hlower : Sorts compar lo mid a₁ a₂) :
    Sorts compar lo hi a a₂ := by
  have hlo := h.lo_le
  have hhi := h.lt_hi
  have h₁ := h.of_rearranges hupper.rearranges (Or.inr ⟨rfl, rfl⟩)
  have h₂ := h₁.of_rearranges hlower.rearranges (Or.inl ⟨rfl, rfl⟩)
  refine h₂.sorts hc hlower.ordered (hupper.ordered.of_outside hlower.rearranges ?_)
    ((hupper.rearranges.mono (by omega) le_rfl).trans (hlower.rearranges.mono le_rfl hhi.le))
  exact Or.inr (Nat.le_succ mid)

theorem Divided.sorts_lower_upper (hc : ComparesPreorder compar) (h : Divided compar lo hi a mid)
    (hlower : Sorts compar lo mid a a₁) (hupper : Sorts compar (mid + 1) hi a₁ a₂) :
    Sorts compar lo hi a a₂ := by
  have hlo := h.lo_le
  have hhi := h.lt_hi
  have h₁ := h.of_rearranges hlower.rearranges (Or.inl ⟨rfl, rfl⟩)
  have h₂ := h₁.of_rearranges hupper.rearranges (Or.inr ⟨rfl, rfl⟩)
  refine h₂.sorts hc (hlower.ordered.of_outside hupper.rearranges ?_) hupper.ordered
    ((hlower.rearranges.mono le_rfl hhi.le).trans (hupper.rearranges.mono (by omega) le_rfl))
  exact Or.inl (Nat.le_succ mid)

theorem Sorts.of_rearranges (hre : Rearranges lo hi a a₁) (h : Sorts compar lo hi a₁ a₂) :
    Sorts compar lo hi a a₂ :=
  ⟨hre.trans h.rearranges, h.ordered⟩

/-! ## The sizes of the parts -/

theorem sizeToInt_of_lt {k : ℤ} (h0 : 0 ≤ k) (h : k < 2 ^ 31) : sizeToInt k = k := by
  rw [sizeToInt]
  exact Int.bmod_eq_of_le (by omega) (by omega)

/-- For a part of at most `2 ^ 31` elements the sizes of both sides are right. -/
theorem part_sizes {nmemb bot : ℕ} (hmid : bot ≤ mid) (hlt : mid < bot + nmemb)
    (hnmemb : nmemb ≤ 2 ^ 31) :
    sizeToInt ((mid : ℤ) - bot) = ((mid - bot : ℕ) : ℤ) ∧
      sizeToInt ((nmemb : ℤ) - sizeToInt ((mid : ℤ) - bot) - 1) =
        ((bot + nmemb - (mid + 1) : ℕ) : ℤ) := by
  have hlower : sizeToInt ((mid : ℤ) - bot) = ((mid - bot : ℕ) : ℤ) := by
    rw [sizeToInt_of_lt (by omega) (by omega)]
    omega
  refine ⟨hlower, ?_⟩
  rw [hlower, sizeToInt_of_lt (by omega) (by omega)]
  omega

/-! ## The recursion -/

/-- A side of the dividing element: sorted by recursion, or directly if it is short. -/
theorem quickSort_spec (hc : ComparesPreorder compar) :
    ∀ (fuel : ℕ) (a : Mem α) (bot nmemb : ℕ), 1 ≤ nmemb → nmemb ≤ 2 ^ 31 → bot + nmemb ≤ n →
      nmemb ≤ fuel →
      ∃ a', quickSort compar n fuel a bot nmemb = some a' ∧
        Sorts compar bot (bot + nmemb) a a'
  | 0, _, _, _, h1, _, _, hfuel => absurd (h1.trans hfuel) (by decide)
  | fuel + 1, a, bot, nmemb, h1, hmax, hn, hfuel => by
    have hhalf : nmemb / 2 ≤ nmemb - 1 := by omega
    obtain ⟨a₀, ha₀, hre₀⟩ := selectMedian_spec (a := a) (n := n) compar
      (show bot ≤ bot + nmemb / 2 by omega) (show bot + nmemb / 2 ≤ bot + (nmemb - 1) by omega)
      (by omega) nmemb
    have hend : bot + (nmemb - 1) + 1 = bot + nmemb := by omega
    rw [hend] at hre₀
    have hstart : PartitionInvariant compar bot (bot + nmemb) a₀ bot (bot + nmemb / 2)
        (bot + (nmemb - 1)) :=
      ⟨le_rfl, by omega, by omega, by omega, fun i hi₁ hi₂ => by omega,
        fun i hi₁ hi₂ => by omega⟩
    obtain ⟨p, hp, hre, hdiv⟩ := partitionLoop_spec hc hn nmemb a₀ bot (bot + nmemb / 2)
      (bot + (nmemb - 1)) false hstart (by omega)
    have hlo := hdiv.lo_le
    have hhi := hdiv.lt_hi
    obtain ⟨hlower, hupper⟩ := part_sizes hlo hhi hmax
    rw [hlower] at hupper
    have hbot : bot + (p.mid - bot) = p.mid := by omega
    have htop : p.mid + 1 + (bot + nmemb - (p.mid + 1)) = bot + nmemb := by omega
    rw [quickSort]
    simp only [ha₀, hp, Option.bind_some, hlower, hupper, Int.toNat_natCast]
    -- what the calls for the two sides do, in whatever order they are made
    have hrec {k b : ℕ} (hk : 4 ≤ k) (hlt : k < nmemb) (hb : b + k ≤ bot + nmemb) (c : Mem α) :=
      quickSort_spec hc fuel c b k (by omega) (by omega) (by omega) (by omega)
    have hfew {k b : ℕ} (hb : b + k ≤ bot + nmemb) (c : Mem α) :=
      sortFew_spec (n := n) hc c b (k : ℤ) (by rw [Int.toNat_natCast]; omega)
    simp only [Int.toNat_natCast] at hfew
    have hside {k b : ℕ} (hlt : k < nmemb) (hb : b + k ≤ bot + nmemb) (c : Mem α) :
        ∃ c', (if (k : ℤ) < 4 then sortFew compar n c b (k : ℤ)
          else quickSort compar n fuel c b k) = some c' ∧ Sorts compar b (b + k) c c' := by
      split
      · exact hfew hb c
      · exact hrec (by omega) hlt hb c
    have hall : Rearranges bot (bot + nmemb) a p.a := hre₀.trans hre
    split
    · obtain ⟨a', ha', hsorts⟩ := insertionSort_spec (n := n) hc p.a bot nmemb hn
      exact ⟨a', ha', hsorts.of_rearranges hall⟩
    · split
      · -- the lower part is larger
        split
        · obtain ⟨a₁, ha₁, hs₁⟩ := hrec (b := p.mid + 1) (k := bot + nmemb - (p.mid + 1))
            (by omega) (by omega) (by omega) p.a
          obtain ⟨a₂, ha₂, hs₂⟩ := hrec (b := bot) (k := p.mid - bot) (by omega) (by omega)
            (by omega) a₁
          rw [htop] at hs₁
          rw [hbot] at hs₂
          rw [ha₁, Option.bind_some, ha₂]
          exact ⟨a₂, rfl, (hdiv.sorts_upper_lower hc hs₁ hs₂).of_rearranges hall⟩
        · obtain ⟨a₁, ha₁, hs₁⟩ := hfew (b := p.mid + 1) (k := bot + nmemb - (p.mid + 1))
            (by omega) p.a
          obtain ⟨a₂, ha₂, hs₂⟩ := hside (b := bot) (k := p.mid - bot) (by omega) (by omega) a₁
          rw [htop] at hs₁
          rw [hbot] at hs₂
          rw [ha₁, Option.bind_some, ha₂]
          exact ⟨a₂, rfl, (hdiv.sorts_upper_lower hc hs₁ hs₂).of_rearranges hall⟩
      · split
        · obtain ⟨a₁, ha₁, hs₁⟩ := hrec (b := bot) (k := p.mid - bot) (by omega) (by omega)
            (by omega) p.a
          obtain ⟨a₂, ha₂, hs₂⟩ := hrec (b := p.mid + 1) (k := bot + nmemb - (p.mid + 1))
            (by omega) (by omega) (by omega) a₁
          rw [hbot] at hs₁
          rw [htop] at hs₂
          rw [ha₁, Option.bind_some, ha₂]
          exact ⟨a₂, rfl, (hdiv.sorts_lower_upper hc hs₁ hs₂).of_rearranges hall⟩
        · obtain ⟨a₁, ha₁, hs₁⟩ := hfew (b := bot) (k := p.mid - bot) (by omega) p.a
          obtain ⟨a₂, ha₂, hs₂⟩ := hside (b := p.mid + 1) (k := bot + nmemb - (p.mid + 1))
            (by omega) (by omega) a₁
          rw [hbot] at hs₁
          rw [htop] at hs₂
          rw [ha₁, Option.bind_some, ha₂]
          exact ⟨a₂, rfl, (hdiv.sorts_lower_upper hc hs₁ hs₂).of_rearranges hall⟩

/-- An array of at most `2 ^ 31` elements is sorted. -/
theorem qsortMem_spec (hc : ComparesPreorder compar) (hn : n ≤ 2 ^ 31) (a : Mem α) :
    ∃ a', qsortMem compar n a = some a' ∧ Sorts compar 0 n a a' := by
  rw [qsortMem]
  split
  · exact ⟨a, rfl, .refl _ _ a, .of_le_one (by omega) a⟩
  · have hzero : 0 + n = n := Nat.zero_add n
    split
    · have h := quickSort_spec (n := n) hc n a 0 n (by omega) hn hzero.le le_rfl
      rwa [hzero] at h
    · have h := insertionSort_spec (n := n) hc a 0 n hzero.le
      rwa [hzero] at h

/-! ## Lists -/

theorem map_getD_range (l : List α) (x : α) :
    (List.range l.length).map (fun i => l.getD i x) = l := by
  refine List.ext_getElem (by simp) fun i h₁ h₂ => ?_
  simp [h₂]

/-- The array is sorted: all accesses are inside it, the result is a permutation of it, and in
order. -/
def SortsArray (compar : α → α → ℤ) (l : List α) : Prop :=
  ∃ l', xsQsort compar l = some l' ∧ l'.Perm l ∧ l'.Pairwise (ComparLe compar)

theorem xsQsort_sorts (hc : ComparesPreorder compar) (l : List α) (hl : l.length ≤ 2 ^ 31) :
    SortsArray compar l := by
  cases l with
  | nil => exact ⟨[], rfl, .refl _, .nil⟩
  | cons x xs =>
      obtain ⟨a', ha', hsorts⟩ := qsortMem_spec hc hl fun i => (x :: xs).getD i x
      refine ⟨_, by rw [xsQsort, ha', Option.map_some], ?_, hsorts.ordered.pairwise⟩
      have hperm := hsorts.rearranges.perm
      rwa [map_getD_range] at hperm

end

/-!
## Arrays with more elements than an `int` counts

The array is a one in front, a one in the middle and zeros. The dividing element is the one in
the middle, all others stand below it, and their number is taken for another one.
-/

section

open Memory (Mem Rearranges OrderedOn)

def comparNat (x y : ℕ) : ℤ := (x : ℤ) - y

theorem comparNat_preorder : ComparesPreorder comparNat := by
  refine ⟨fun x y => ?_, fun x y z => ?_⟩
  · rw [comparNat, comparNat]
    omega
  · rw [comparNat, comparNat, comparNat]
    omega

theorem comparLe_comparNat {x y : ℕ} : ComparLe comparNat x y ↔ x ≤ y := by
  rw [ComparLe, comparNat]
  omega

structure TwoOnes (n i j : ℕ) (a : Mem ℕ) : Prop where
  first : a i = 1
  second : a j = 1
  zero : ∀ k, k < n → k ≠ i → k ≠ j → a k = 0

variable {n : ℕ} {a : Mem ℕ}

theorem TwoOnes.le_one {i j : ℕ} (h : TwoOnes n i j a) {k : ℕ} (hk : k < n) : a k ≤ 1 := by
  by_cases hi : k = i
  · rw [hi, h.first]
  · by_cases hj : k = j
    · rw [hj, h.second]
    · rw [h.zero k hk hi hj]
      exact Nat.zero_le 1

/-! ## The partition -/

theorem selectMedian_twoOnes (h : TwoOnes n 0 (n / 2) a) (hn : 6 ≤ n) :
    selectMedian comparNat n a 0 (0 + n / 2) (0 + (n - 1)) n = some a := by
  have htop : a (n - 1) = 0 := h.zero _ (by omega) (by omega) (by omega)
  rw [zero_add, zero_add, selectMedian, if_pos hn, medianAt, comparAt_eq (by omega) (by omega),
    Option.bind_some, comparAt_eq (by omega) (by omega), Option.bind_some, h.first, h.second, htop,
    if_neg (by decide), if_neg (by decide), Option.bind_some, if_neg (not_not.mpr rfl)]

/-- A scan from below passes everything when the dividing element is a one. -/
theorem scanBot_twoOnes {i j mid bot : ℕ} (h : TwoOnes n i j a) (hmid : mid < n)
    (hone : a mid = 1) (hbot : bot ≤ mid) :
    scanBot comparNat n a mid (mid - bot) bot = some mid := by
  obtain ⟨b, hb, -, hle, -, hstop⟩ := scanBot_spec comparNat (a := a) hmid (mid - bot) bot
    (by omega)
  have heq : b = mid := by
    by_contra hne
    refine hstop (by omega) (comparLe_comparNat.mpr ?_)
    rw [hone]
    exact h.le_one (by omega)
  rw [hb, heq]

theorem partitionLoop_twoOnes (h : TwoOnes n 0 (n / 2) a) (hn : 6 ≤ n) :
    ∃ a', partitionLoop comparNat n n a 0 (0 + n / 2) (0 + (n - 1)) false =
        some ⟨a', n - 1, true⟩ ∧ TwoOnes n 0 (n - 1) a' := by
  obtain ⟨fuel, rfl⟩ : ∃ fuel, n = fuel + 2 := ⟨n - 2, by omega⟩
  generalize hm : (fuel + 2) / 2 = mid at h
  have hmid : mid < fuel + 1 := by omega
  have hpos : 0 < mid := by omega
  have htop : a (fuel + 1) = 0 := h.zero _ (by omega) (by omega) (by omega)
  have hscan := scanBot_twoOnes h (show mid < fuel + 2 by omega) h.second (Nat.zero_le mid)
  -- the top element is smaller than the dividing element
  have hscanTop : scanTop comparNat (fuel + 2) a mid (fuel + 1 - mid) (fuel + 1) =
      some (fuel + 1) := by
    obtain ⟨k, hk⟩ : ∃ k, fuel + 1 - mid = k + 1 := ⟨fuel - mid, by omega⟩
    rw [hk, scanTop, comparAt_eq (by omega) (by omega), Option.bind_some, h.second, htop]
    rfl
  have hones : TwoOnes (fuel + 2) 0 (fuel + 1) (Memory.swap a mid (fuel + 1)) := by
    refine ⟨?_, ?_, fun k hk h0 ht => ?_⟩
    · rw [Memory.swap_apply, if_neg (by omega), if_neg (by omega)]
      exact h.first
    · rw [Memory.swap_apply, if_neg (by omega), if_pos rfl]
      exact h.second
    · rw [Memory.swap_apply]
      by_cases hkm : k = mid
      · rw [if_pos hkm]
        exact htop
      · rw [if_neg hkm, if_neg ht]
        exact h.zero k hk h0 hkm
  have hscan₂ := scanBot_twoOnes hones (show fuel + 1 < fuel + 2 by omega) hones.second
    (show mid + 1 ≤ fuel + 1 by omega)
  refine ⟨Memory.swap a mid (fuel + 1), ?_, hones⟩
  have hsub : fuel + 2 - 1 = fuel + 1 := rfl
  rw [zero_add, zero_add, hsub, partitionLoop, hscan, Option.bind_some, hscanTop, Option.bind_some,
    if_pos hmid, if_pos rfl, swapAt_eq (by omega) (by omega), Option.bind_some, partitionLoop,
    hscan₂, Option.bind_some, Nat.sub_self, scanTop, Option.bind_some, if_neg (lt_irrefl _),
    if_pos rfl]

/-! ## The sizes -/

theorem sizeToInt_sub_sizeToInt (k : ℤ) : sizeToInt (k - sizeToInt k) = 0 := by
  rw [sizeToInt, sizeToInt, Int.sub_bmod_bmod, sub_self, Int.zero_bmod]

theorem sizeToInt_lt (k : ℤ) : sizeToInt k < 2 ^ 31 := by
  rw [sizeToInt]
  exact Int.bmod_lt (by decide)

theorem sortFew_of_le_one {k : ℤ} (hk : k ≤ 1) (bot : ℕ) : sortFew comparNat n a bot k = some a :=
  if_neg (not_lt.mpr hk)

/-- What the sort leaves of such an array is not in order. -/
theorem quickSort_twoOnes (h : TwoOnes n 0 (n / 2) a) (hn : 2 ^ 31 < n) :
    ∃ a', quickSort comparNat n n a 0 n = some a' ∧
      ¬ OrderedOn (ComparLe comparNat) a' 0 n := by
  obtain ⟨a₁, hpart, hones⟩ := partitionLoop_twoOnes h (by omega)
  obtain ⟨fuel, hfuel⟩ : ∃ fuel, n = fuel + 1 := ⟨n - 1, by omega⟩
  have hlower : ((n - 1 : ℕ) : ℤ) - (0 : ℕ) = (n : ℤ) - 1 := by omega
  have hupper : sizeToInt ((n : ℤ) - sizeToInt ((n : ℤ) - 1) - 1) = 0 := by
    rw [sub_right_comm, sizeToInt_sub_sizeToInt]
  have hlt := sizeToInt_lt ((n : ℤ) - 1)
  have hrun : quickSort comparNat n n a 0 n =
      if 0 < sizeToInt ((n : ℤ) - 1) then
        if sizeToInt ((n : ℤ) - 1) < 4 then sortFew comparNat n a₁ 0 (sizeToInt ((n : ℤ) - 1))
        else quickSort comparNat n fuel a₁ 0 (sizeToInt ((n : ℤ) - 1)).toNat
      else some a₁ := by
    conv_lhs => rw [quickSort.eq_def]
    rw [hfuel]
    simp only []
    rw [← hfuel, selectMedian_twoOnes h (by omega), Option.bind_some, hpart, Option.bind_some]
    simp only [Bool.not_true, Bool.false_eq_true, if_false, hlower, hupper]
    rw [sortFew_of_le_one (by decide), Option.bind_some]
    split
    · rw [if_neg (by decide)]
    · next hneg =>
      rw [if_neg (by omega), sortFew_of_le_one (by omega), Option.bind_some, if_pos (by decide),
        sortFew_of_le_one (by decide)]
  rw [hrun]
  by_cases hpos : 0 < sizeToInt ((n : ℤ) - 1)
  · rw [if_pos hpos]
    obtain ⟨k, hk⟩ := Int.eq_ofNat_of_zero_le hpos.le
    rw [hk] at hpos hlt ⊢
    have hsorts : ∃ a', (if (k : ℤ) < 4 then sortFew comparNat n a₁ 0 (k : ℤ)
        else quickSort comparNat n fuel a₁ 0 (k : ℤ).toNat) = some a' ∧
        Sorts comparNat 0 (0 + k) a₁ a' := by
      split
      · have hfew := sortFew_spec (n := n) comparNat_preorder a₁ 0 (k : ℤ)
          (by rw [Int.toNat_natCast]; omega)
        rwa [Int.toNat_natCast] at hfew
      · rw [Int.toNat_natCast]
        exact quickSort_spec comparNat_preorder fuel a₁ 0 k (by omega) (by omega) (by omega)
          (by omega)
    obtain ⟨a', ha', hs⟩ := hsorts
    rw [zero_add] at hs
    refine ⟨a', ha', fun ho => ?_⟩
    -- the one in front is still among the first elements, and a zero follows them
    obtain ⟨i, -, hi, hone⟩ := hs.rearranges.symm.exists_apply (Nat.zero_le 0)
      (show 0 < k by omega)
    have hle := comparLe_comparNat.mp (ho i k (Nat.zero_le i) hi (by omega))
    rw [← hone, hones.first, hs.rearranges.apply_of_outside (Or.inr le_rfl),
      hones.zero k (by omega) (by omega) (by omega)] at hle
    exact absurd hle (by decide)
  · rw [if_neg hpos]
    refine ⟨a₁, rfl, fun ho => ?_⟩
    have hle := comparLe_comparNat.mp (ho 0 1 le_rfl Nat.zero_lt_one (by omega))
    rw [hones.first, hones.zero 1 (by omega) (by decide) (by omega)] at hle
    exact absurd hle (by decide)

/-! ## Lists -/

/-- The array with a one in front, a one in the middle and zeros. -/
def longArray (n : ℕ) : List ℕ :=
  (List.range n).map fun i => if i = 0 ∨ i = n / 2 then 1 else 0

theorem longArray_twoOnes (hn : 6 ≤ n) (x : ℕ) :
    TwoOnes n 0 (n / 2) fun i => (longArray n).getD i x := by
  have hget : ∀ i, i < n → (longArray n).getD i x = if i = 0 ∨ i = n / 2 then 1 else 0 := by
    intro i hi
    simp [longArray, hi]
  refine ⟨?_, ?_, fun k hk h0 hm => ?_⟩
  · rw [hget 0 (by omega), if_pos (Or.inl rfl)]
  · rw [hget (n / 2) (by omega), if_pos (Or.inr rfl)]
  · rw [hget k hk, if_neg (not_or.mpr ⟨h0, hm⟩)]

theorem not_sortsArray_longArray (hn : 2 ^ 31 < n) : ¬ SortsArray comparNat (longArray n) := by
  rintro ⟨l', hl', -, hpair⟩
  have hlen : (longArray n).length = n := by simp [longArray]
  cases hl : longArray n with
  | nil =>
      rw [hl, List.length_nil] at hlen
      omega
  | cons x xs =>
      have hones := longArray_twoOnes (n := n) (by omega) x
      rw [hl] at hones hlen hl'
      obtain ⟨a', ha', hord⟩ := quickSort_twoOnes hones hn
      rw [xsQsort, hlen, qsortMem, if_neg (by omega), if_pos (by omega), ha', Option.map_some,
        Option.some.injEq] at hl'
      rw [← hl', List.pairwise_map, List.pairwise_iff_getElem] at hpair
      refine hord fun i j _ hij hj => ?_
      have h := hpair i j (by rw [List.length_range]; omega) (by rw [List.length_range]; omega) hij
      rwa [List.getElem_range, List.getElem_range] at h

/-- The arrays of a length are all sorted, for every comparison function of a total preorder,
exactly when an `int` can count the elements of their parts. -/
theorem xsQsort_sorts_iff (n : ℕ) :
    (∀ (α : Type) (compar : α → α → ℤ) (l : List α), ComparesPreorder compar → l.length = n →
      SortsArray compar l) ↔ n ≤ 2 ^ 31 := by
  constructor
  · intro h
    by_contra hn
    refine not_sortsArray_longArray (not_le.mp hn) (h ℕ comparNat _ comparNat_preorder ?_)
    simp [longArray]
  · intro hn α compar l hc hl
    exact xsQsort_sorts hc l (by rw [hl]; exact hn)

/-- An array of `2 ^ 31 + 1` elements. -/
theorem xsQsort_long_array_fails : ¬ SortsArray comparNat (longArray (2 ^ 31 + 1)) :=
  not_sortsArray_longArray (Nat.lt_succ_self _)

end

/-!
## Arrays of keys

Only results of comparisons decide what is moved. An array of keys is sorted like the array of
elements they belong to.
-/

section

open Memory (Mem)

variable {α β : Type} {compar : α → α → ℤ} {f : β → α} {n : ℕ} {a : Mem β} {bot mid : ℕ}

def comparOn (compar : α → α → ℤ) (f : β → α) (x y : β) : ℤ := compar (f x) (f y)

theorem bind_keys {x : Option (Mem α)} {y : Option (Mem β)} {g : Mem α → Option (Mem α)}
    {h : Mem β → Option (Mem β)} (hxy : x = y.map (f ∘ ·))
    (hgh : ∀ a, g (f ∘ a) = (h a).map (f ∘ ·)) : x.bind g = (y.bind h).map (f ∘ ·) := by
  rw [hxy, Option.bind_map, Option.map_bind]
  exact congrArg _ (funext hgh)

theorem comparAt_keys (i j : ℕ) :
    comparAt compar n (f ∘ a) i j = comparAt (comparOn compar f) n a i j := rfl

theorem storeAt_keys (i : ℕ) (x : β) :
    storeAt n (f ∘ a) i (f x) = (storeAt n a i x).map (f ∘ ·) := by
  rw [storeAt, storeAt]
  split
  · rw [Option.map_some, Function.comp_update]
  · rfl

theorem swapAt_keys (i j : ℕ) : swapAt n (f ∘ a) i j = (swapAt n a i j).map (f ∘ ·) := by
  rw [swapAt, swapAt]
  split
  · rw [Option.map_some, Function.comp_update, Function.comp_update]
    rfl
  · rfl

theorem findPlace_keys (t1 k : ℕ) :
    findPlace compar n (f ∘ a) bot t1 k = findPlace (comparOn compar f) n a bot t1 k := by
  induction k with
  | zero => rfl
  | succ k ih => rw [findPlace, findPlace, comparAt_keys, ih]

theorem bubble_keys (ch : β) (t2 k : ℕ) (a : Mem β) :
    bubble n (f ch) t2 k (f ∘ a) = (bubble n ch t2 k a).map (f ∘ ·) := by
  induction k generalizing a with
  | zero => exact storeAt_keys t2 ch
  | succ k ih =>
      rw [bubble, bubble]
      exact bind_keys (storeAt_keys _ _) ih

theorem insertionLoop_keys (k t1 : ℕ) (a : Mem β) :
    insertionLoop compar n bot k t1 (f ∘ a) =
      (insertionLoop (comparOn compar f) n bot k t1 a).map (f ∘ ·) := by
  induction k generalizing t1 a with
  | zero => rfl
  | succ k ih =>
      rw [insertionLoop, insertionLoop, findPlace_keys, Option.map_bind]
      refine congrArg _ (funext fun t2 => ?_)
      by_cases hmoves : t1 ≠ t2
      · rw [Function.comp_apply, Function.comp_apply, if_pos hmoves, if_pos hmoves]
        exact bind_keys (bubble_keys _ _ _ a) (ih _)
      · rw [Function.comp_apply, Function.comp_apply, if_neg hmoves, if_neg hmoves]
        exact ih _ a

theorem insertionSort_keys (bot nmemb : ℕ) (a : Mem β) :
    insertionSort compar n (f ∘ a) bot nmemb =
      (insertionSort (comparOn compar f) n a bot nmemb).map (f ∘ ·) :=
  insertionLoop_keys _ _ a

theorem sortFew_keys (bot : ℕ) (k : ℤ) (a : Mem β) :
    sortFew compar n (f ∘ a) bot k = (sortFew (comparOn compar f) n a bot k).map (f ∘ ·) := by
  rw [sortFew, sortFew, comparAt_keys]
  split
  · split
    · rw [Option.map_bind]
      refine congrArg _ (funext fun c => ?_)
      rw [Function.comp_apply]
      split
      · exact swapAt_keys _ _
      · rfl
    · exact insertionSort_keys _ _ a
  · rfl

theorem selectMedian_keys (mid top nmemb : ℕ) (a : Mem β) :
    selectMedian compar n (f ∘ a) bot mid top nmemb =
      (selectMedian (comparOn compar f) n a bot mid top nmemb).map (f ∘ ·) := by
  have hmedian : medianAt compar n (f ∘ a) bot mid top =
      medianAt (comparOn compar f) n a bot mid top := rfl
  rw [selectMedian, selectMedian, hmedian]
  split
  · rw [Option.map_bind]
    refine congrArg _ (funext fun t1 => ?_)
    rw [Function.comp_apply]
    split
    · exact swapAt_keys _ _
    · rfl
  · rfl

theorem scanBot_keys (k bot : ℕ) :
    scanBot compar n (f ∘ a) mid k bot = scanBot (comparOn compar f) n a mid k bot := by
  induction k generalizing bot with
  | zero => rfl
  | succ k ih => simp only [scanBot, comparAt_keys, ih]

theorem scanTop_keys (k top : ℕ) :
    scanTop compar n (f ∘ a) mid k top = scanTop (comparOn compar f) n a mid k top := by
  induction k generalizing top with
  | zero => rfl
  | succ k ih => simp only [scanTop, comparAt_keys, ih]

def Partition.keys (f : β → α) (p : Partition β) : Partition α := ⟨f ∘ p.a, p.mid, p.didswap⟩

theorem partitionLoop_keys (fuel bot mid top : ℕ) (didswap : Bool) (a : Mem β) :
    partitionLoop compar n fuel (f ∘ a) bot mid top didswap =
      (partitionLoop (comparOn compar f) n fuel a bot mid top didswap).map (Partition.keys f) := by
  induction fuel generalizing a bot mid top didswap with
  | zero => rfl
  | succ fuel ih =>
      rw [partitionLoop, partitionLoop, scanBot_keys, Option.map_bind]
      refine congrArg _ (funext fun bot => ?_)
      rw [Function.comp_apply, scanTop_keys, Option.map_bind]
      refine congrArg _ (funext fun top => ?_)
      rw [Function.comp_apply]
      split
      · split
        · rw [swapAt_keys, Option.bind_map, Option.map_bind]
          exact congrArg _ (funext fun a => ih ..)
        · rw [swapAt_keys, Option.bind_map, Option.map_bind]
          exact congrArg _ (funext fun a => ih ..)
      · split
        · rfl
        · rw [swapAt_keys, Option.bind_map, Option.map_bind]
          exact congrArg _ (funext fun a => ih ..)

theorem quickSort_keys (fuel bot nmemb : ℕ) (a : Mem β) :
    quickSort compar n fuel (f ∘ a) bot nmemb =
      (quickSort (comparOn compar f) n fuel a bot nmemb).map (f ∘ ·) := by
  induction fuel generalizing a bot nmemb with
  | zero => rfl
  | succ fuel ih =>
      rw [quickSort, quickSort]
      dsimp only
      rw [selectMedian_keys, Option.bind_map, Option.map_bind]
      refine congrArg _ (funext fun a => ?_)
      rw [Function.comp_apply, Function.comp_apply, partitionLoop_keys, Option.bind_map,
        Option.map_bind]
      refine congrArg _ (funext fun p => ?_)
      rw [Function.comp_apply, Function.comp_apply, Partition.keys]
      dsimp only
      split
      · exact insertionSort_keys _ _ _
      · split
        · split
          · exact bind_keys (ih _ _ _) fun a => ih _ _ a
          · refine bind_keys (sortFew_keys _ _ _) fun a => ?_
            split
            · exact sortFew_keys _ _ a
            · exact ih _ _ a
        · split
          · exact bind_keys (ih _ _ _) fun a => ih _ _ a
          · refine bind_keys (sortFew_keys _ _ _) fun a => ?_
            split
            · exact sortFew_keys _ _ a
            · exact ih _ _ a

theorem qsortMem_keys (a : Mem β) :
    qsortMem compar n (f ∘ a) = (qsortMem (comparOn compar f) n a).map (f ∘ ·) := by
  rw [qsortMem, qsortMem]
  split
  · rfl
  · split
    · exact quickSort_keys _ _ _ a
    · exact insertionSort_keys _ _ a

theorem xsQsort_keys (l : List β) :
    xsQsort compar (l.map f) = (xsQsort (comparOn compar f) l).map (List.map f) := by
  cases l with
  | nil => rfl
  | cons x xs =>
      have hmem : (fun i => ((x :: xs).map f).getD i (f x)) = f ∘ fun i => (x :: xs).getD i x :=
        funext fun i => List.getD_map ..
      rw [List.map_cons, xsQsort, xsQsort, ← List.map_cons, hmem, qsortMem_keys, List.length_map,
        Option.map_map, Option.map_map]
      refine congrArg (fun g => Option.map g _) (funext fun a => ?_)
      rw [Function.comp_apply, Function.comp_apply, List.map_map]

/-- An array of keys is sorted when the elements are compared in an order. -/
theorem xsQsort_keys_sorts (hc : ComparesPreorder (comparOn compar f)) (l : List β)
    (hl : l.length ≤ 2 ^ 31) :
    ∃ l' : List β, xsQsort compar (l.map f) = some (l'.map f) ∧ l'.Perm l ∧
      l'.Pairwise (ComparLe (comparOn compar f)) := by
  obtain ⟨l', hsort, hperm, hsorted⟩ := xsQsort_sorts hc l hl
  exact ⟨l', by rw [xsQsort_keys, hsort, Option.map_some], hperm, hsorted⟩

end

end SolidDB
