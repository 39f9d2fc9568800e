import Mathlib.Algebra.Order.Group.Int
import Mathlib.Data.Int.Init
import SolidDB.Foundation.Rearrange

/-!
# Sorting of an array

`xs0qsort.c`: quicksort with the median of three as dividing element, insertion sort for short
parts and for those that were divided without a swap. Positions count elements. An access
behind the end of the array gives `none`.
-/

namespace SolidDB

section

open Memory (Mem)

variable {α : Type} (compar : α → α → ℤ) (n : ℕ)

/-! ## Accesses -/

def comparAt (a : Mem α) (i j : ℕ) : Option ℤ :=
  if i < n ∧ j < n then some (compar (a i) (a j)) else none

def storeAt (a : Mem α) (i : ℕ) (x : α) : Option (Mem α) :=
  if i < n then some (Function.update a i x) else none

/-- `SWAP` -/
def swapAt (a : Mem α) (i j : ℕ) : Option (Mem α) :=
  if i < n ∧ j < n then some (Function.update (Function.update a i (a j)) j (a i)) else none

/-! ## Insertion sort -/

/-- The inner loop of `insertion_sort`, with `t2` at `bot + k`: the place of the element. -/
def findPlace (a : Mem α) (bot t1 : ℕ) : ℕ → Option ℕ
  | 0 => some bot
  | k + 1 =>
    (comparAt compar n a t1 (bot + k)).bind fun c =>
      if c < 0 then findPlace a bot t1 k else some (bot + k + 1)

def bubble (ch : α) (t2 : ℕ) : ℕ → Mem α → Option (Mem α)
  | 0, a => storeAt n a t2 ch
  | k + 1, a => (storeAt n a (t2 + k + 1) (a (t2 + k))).bind (bubble ch t2 k)

/-- The outer loop of `insertion_sort`. -/
def insertionLoop (bot : ℕ) : ℕ → ℕ → Mem α → Option (Mem α)
  | 0, _, a => some a
  | k + 1, t1, a =>
    (findPlace compar n a bot t1 (t1 - bot)).bind fun t2 =>
      if t1 ≠ t2 then (bubble n (a t1) t2 (t1 - t2) a).bind (insertionLoop bot k (t1 + 1))
      else insertionLoop bot k (t1 + 1) a

def insertionSort (a : Mem α) (bot nmemb : ℕ) : Option (Mem α) :=
  insertionLoop compar n bot (nmemb - 1) (bot + 1) a

/-- `SORT` -/
def sortFew (a : Mem α) (bot : ℕ) (k : ℤ) : Option (Mem α) :=
  if 1 < k then
    if k = 2 then
      (comparAt compar n a (bot + 1) bot).bind fun c =>
        if c < 0 then swapAt n a (bot + 1) bot else some a
    else insertionSort compar n a bot k.toNat
  else some a

/-! ## Quicksort -/

/-- The median of the first, the last and the middle element, from 6 elements on. -/
def medianAt (a : Mem α) (bot mid top : ℕ) : Option ℕ :=
  (comparAt compar n a bot mid).bind fun n1 =>
    (comparAt compar n a mid top).bind fun n2 =>
      if n1 < 0 ∧ 0 < n2 then
        (comparAt compar n a bot top).map fun c => if c < 0 then top else bot
      else if 0 < n1 ∧ n2 < 0 then
        (comparAt compar n a bot top).map fun c => if 0 < c then top else bot
      else some mid

def selectMedian (a : Mem α) (bot mid top nmemb : ℕ) : Option (Mem α) :=
  if 6 ≤ nmemb then
    (medianAt compar n a bot mid top).bind fun t1 =>
      if t1 ≠ mid then swapAt n a t1 mid else some a
  else some a

/-- The loop of `bot` towards `mid`, which is `k` elements away. -/
def scanBot (a : Mem α) (mid : ℕ) : ℕ → ℕ → Option ℕ
  | 0, bot => some bot
  | k + 1, bot =>
    (comparAt compar n a bot mid).bind fun c =>
      if c ≤ 0 then scanBot a mid k (bot + 1) else some bot

/-- The loop of `top` towards `mid`, which is `k` elements away. -/
def scanTop (a : Mem α) (mid : ℕ) : ℕ → ℕ → Option ℕ
  | 0, top => some top
  | k + 1, top =>
    (comparAt compar n a mid top).bind fun c =>
      if c ≤ 0 then scanTop a mid k (top - 1) else some top

/-- What the partition loop leaves: the array, the place of the dividing element, and whether
elements were swapped. -/
structure Partition (α : Type) where
  a : Mem α
  mid : ℕ
  didswap : Bool

/-- The partition loop. Each round moves `bot` or `top`. -/
def partitionLoop : ℕ → Mem α → ℕ → ℕ → ℕ → Bool → Option (Partition α)
  | 0, _, _, _, _, _ => none
  | fuel + 1, a, bot, mid, top, didswap =>
    (scanBot compar n a mid (mid - bot) bot).bind fun bot =>
      (scanTop compar n a mid (top - mid) top).bind fun top =>
        if mid < top then
          if bot = mid then
            (swapAt n a bot top).bind fun a => partitionLoop fuel a (bot + 1) top top true
          else
            (swapAt n a bot top).bind fun a =>
              partitionLoop fuel a (bot + 1) mid (top - 1) true
        else if bot = mid then some ⟨a, mid, didswap⟩
        else
          (swapAt n a bot mid).bind fun a => partitionLoop fuel a bot bot (top - 1) true

/-- The conversion of a size to `int`. -/
def sizeToInt (k : ℤ) : ℤ := k.bmod (2 ^ 32)

/-- `quick_sort`. The calls and the iterations are for parts without the dividing element. -/
def quickSort : ℕ → Mem α → ℕ → ℕ → Option (Mem α)
  | 0, _, _, _ => none
  | fuel + 1, a, bot, nmemb =>
    let mid := bot + nmemb / 2
    let top := bot + (nmemb - 1)
    (selectMedian compar n a bot mid top nmemb).bind fun a =>
      (partitionLoop compar n nmemb a bot mid top false).bind fun p =>
        if !p.didswap then insertionSort compar n p.a bot nmemb
        else
          let nlower := sizeToInt (p.mid - bot)
          let mid := p.mid + 1
          let nupper := sizeToInt (nmemb - nlower - 1)
          if nupper < nlower then
            if 4 ≤ nupper then
              (quickSort fuel p.a mid nupper.toNat).bind fun a => quickSort fuel a bot nlower.toNat
            else
              (sortFew compar n p.a mid nupper).bind fun a =>
                if nlower < 4 then sortFew compar n a bot nlower
                else quickSort fuel a bot nlower.toNat
          else
            if 4 ≤ nlower then
              (quickSort fuel p.a bot nlower.toNat).bind fun a => quickSort fuel a mid nupper.toNat
            else
              (sortFew compar n p.a bot nlower).bind fun a =>
                if nupper < 4 then sortFew compar n a mid nupper
                else quickSort fuel a mid nupper.toNat

/-- `xs_qsort` for the memory of an array. -/
def qsortMem (a : Mem α) : Option (Mem α) :=
  if n ≤ 1 then some a
  else if 4 ≤ n then quickSort compar n n a 0 n
  else insertionSort compar n a 0 n

/-- `xs_qsort`. What stands behind the end of the array is never read. -/
def xsQsort : List α → Option (List α)
  | [] => some []
  | x :: xs =>
    (qsortMem compar (x :: xs).length fun i => (x :: xs).getD i x).map fun a =>
      (List.range (x :: xs).length).map a

end

/-!
## Insertion sort

An element moves down past all elements above it that are greater, and the part in front of
the next element stays in order.
-/

section

open Memory (Mem Rearranges OrderedOn)

variable {α : Type} {compar : α → α → ℤ} {n : ℕ} {a : Mem α}

structure ComparesPreorder (compar : α → α → ℤ) : Prop where
  symm : ∀ x y, compar x y < 0 ↔ 0 < compar y x
  trans : ∀ x y z, compar x y ≤ 0 → compar y z ≤ 0 → compar x z ≤ 0

def ComparLe (compar : α → α → ℤ) (x y : α) : Prop := compar x y ≤ 0

structure Sorts (compar : α → α → ℤ) (lo hi : ℕ) (a a' : Mem α) : Prop where
  rearranges : Rearranges lo hi a a'
  ordered : OrderedOn (ComparLe compar) a' lo hi

theorem comparAt_eq {i j : ℕ} (hi : i < n) (hj : j < n) :
    comparAt compar n a i j = some (compar (a i) (a j)) := if_pos ⟨hi, hj⟩

theorem swapAt_eq {i j : ℕ} (hi : i < n) (hj : j < n) :
    swapAt n a i j = some (Memory.swap a i j) := by
  rw [swapAt, if_pos ⟨hi, hj⟩, Option.some.injEq]
  funext k
  rw [Memory.swap_apply, Function.update_apply, Function.update_apply]
  by_cases hki : k = i
  · by_cases hkj : k = j
    · rw [if_pos hkj, if_pos hki, ← hki, hkj]
    · rw [if_neg hkj, if_pos hki, if_pos hki]
  · rw [if_neg hki, if_neg hki]

/-! ## The place of an element -/

theorem findPlace_spec (hc : ComparesPreorder compar) {bot t1 : ℕ} (ht1 : t1 < n) :
    ∀ k, bot + k ≤ t1 → (∀ i, bot + k ≤ i → i < t1 → ComparLe compar (a t1) (a i)) →
      ∃ t2, findPlace compar n a bot t1 k = some t2 ∧ bot ≤ t2 ∧ t2 ≤ t1 ∧
        (∀ i, t2 ≤ i → i < t1 → ComparLe compar (a t1) (a i)) ∧
        (bot < t2 → ComparLe compar (a (t2 - 1)) (a t1))
  | 0, hk, h => ⟨bot, rfl, le_rfl, hk, h, fun hlt => absurd hlt (lt_irrefl bot)⟩
  | k + 1, hk, h => by
    rw [findPlace, comparAt_eq ht1 (by omega), Option.bind_some]
    by_cases hneg : compar (a t1) (a (bot + k)) < 0
    · rw [if_pos hneg]
      refine findPlace_spec hc ht1 k (by omega) fun i hi₁ hi₂ => ?_
      rcases Nat.eq_or_lt_of_le hi₁ with rfl | hlt
      · exact hneg.le
      · exact h i hlt hi₂
    · rw [if_neg hneg]
      refine ⟨bot + k + 1, rfl, by omega, hk, h, fun _ => ?_⟩
      rw [Nat.add_sub_cancel]
      exact not_lt.mp fun hpos => hneg ((hc.symm _ _).mpr hpos)

/-! ## Moving an element down -/

theorem bubble_congr (ch : α) (t2 : ℕ) : ∀ (k : ℕ) (a b : Mem α),
    (∀ i, i ≠ t2 + k → a i = b i) → bubble n ch t2 k a = bubble n ch t2 k b
  | 0, a, b, h => by
    have heq : Function.update a t2 ch = Function.update b t2 ch := by
      funext i
      rw [Function.update_apply, Function.update_apply]
      split
      · rfl
      · next hi => exact h i hi
    rw [bubble, bubble, storeAt, storeAt, heq]
  | k + 1, a, b, h => by
    have heq : Function.update a (t2 + k + 1) (a (t2 + k)) =
        Function.update b (t2 + k + 1) (b (t2 + k)) := by
      funext i
      rw [Function.update_apply, Function.update_apply, h (t2 + k) (by omega)]
      split
      · rfl
      · next hi => exact h i hi
    rw [bubble, bubble, storeAt, storeAt, heq]

/-- The element at `t2 + k` gets the place `t2`, the elements between move up. -/
theorem bubble_spec (t2 : ℕ) : ∀ (k : ℕ) (a : Mem α), t2 + k < n →
    ∃ a', bubble n (a (t2 + k)) t2 k a = some a' ∧ Rearranges t2 (t2 + k + 1) a a' ∧
      a' t2 = a (t2 + k) ∧ ∀ i, t2 < i → i ≤ t2 + k → a' i = a (i - 1)
  | 0, a, h => by
    refine ⟨a, ?_, .refl _ _ a, rfl, fun i hi₁ hi₂ => by omega⟩
    rw [bubble, Nat.add_zero, storeAt, if_pos (by omega), Function.update_eq_self]
  | k + 1, a, h => by
    have hstore : storeAt n a (t2 + k + 1) (a (t2 + k)) =
        some (Function.update a (t2 + k + 1) (a (t2 + k))) := if_pos h
    have hcongr := bubble_congr (n := n) (a (t2 + k + 1)) t2 k
      (Function.update a (t2 + k + 1) (a (t2 + k))) (Memory.swap a (t2 + k) (t2 + k + 1))
      fun i hi => by
        rw [Function.update_apply, Memory.swap_apply, if_neg hi]
    have hlow : Memory.swap a (t2 + k) (t2 + k + 1) (t2 + k) = a (t2 + k + 1) := by
      rw [Memory.swap_apply, if_pos rfl]
    obtain ⟨a', ha', hre, hfirst, hmoved⟩ :=
      bubble_spec t2 k (Memory.swap a (t2 + k) (t2 + k + 1)) (by omega)
    rw [hlow] at ha' hfirst
    have hswap := Rearranges.swap (show t2 ≤ t2 + k by omega) (show t2 + k < t2 + k + 2 by omega)
      (show t2 ≤ t2 + k + 1 by omega) (show t2 + k + 1 < t2 + k + 2 by omega) a
    refine ⟨a', ?_, hswap.trans (hre.mono le_rfl (by omega)), hfirst, fun i hi₁ hi₂ => ?_⟩
    · rw [bubble]
      change (storeAt n a (t2 + k + 1) (a (t2 + k))).bind (bubble n (a (t2 + k + 1)) t2 k) = some a'
      rw [hstore, Option.bind_some, hcongr]
      exact ha'
    · rcases Nat.lt_or_ge (t2 + k) i with hgt | hle
      · have hi : i = t2 + k + 1 := by omega
        rw [hre.apply_of_outside (by omega), hi, Memory.swap_apply, if_neg (by omega), if_pos rfl]
        rfl
      · rw [hmoved i hi₁ hle, Memory.swap_apply, if_neg (by omega), if_neg (by omega)]

/-! ## The loop -/

/-- With an element moved to its place one more element is in order. -/
theorem orderedOn_insert {bot t1 t2 : ℕ} {a' : Mem α} (hc : ComparesPreorder compar)
    (ho : OrderedOn (ComparLe compar) a bot t1) (ht2 : bot ≤ t2) (ht : t2 ≤ t1)
    (hgt : ∀ i, t2 ≤ i → i < t1 → ComparLe compar (a t1) (a i))
    (hle : bot < t2 → ComparLe compar (a (t2 - 1)) (a t1))
    (hre : Rearranges t2 (t1 + 1) a a') (hfirst : a' t2 = a t1)
    (hmoved : ∀ i, t2 < i → i ≤ t1 → a' i = a (i - 1)) :
    OrderedOn (ComparLe compar) a' bot (t1 + 1) := by
  have hbelow : ∀ i, bot ≤ i → i < t2 → ComparLe compar (a i) (a t1) := by
    intro i hi₁ hi₂
    rcases Nat.lt_or_ge i (t2 - 1) with hlt | hge
    · exact hc.trans _ _ _ (ho i (t2 - 1) hi₁ hlt (by omega)) (hle (by omega))
    · have hi : i = t2 - 1 := by omega
      rw [hi]
      exact hle (by omega)
  intro i j hi hij hj
  rcases lt_trichotomy j t2 with hjt | rfl | hjt
  · rw [hre.apply_of_outside (Or.inl hjt), hre.apply_of_outside (Or.inl (hij.trans hjt))]
    exact ho i j hi hij (by omega)
  · rw [hfirst, hre.apply_of_outside (Or.inl hij)]
    exact hbelow i hi hij
  · rw [hmoved j hjt (by omega)]
    rcases lt_trichotomy i t2 with hit | rfl | hit
    · rw [hre.apply_of_outside (Or.inl hit)]
      exact ho i (j - 1) hi (by omega) (by omega)
    · rw [hfirst]
      exact hgt (j - 1) (by omega) (by omega)
    · rw [hmoved i hit (by omega)]
      exact ho (i - 1) (j - 1) (by omega) (by omega) (by omega)

theorem insertionLoop_spec (hc : ComparesPreorder compar) (bot : ℕ) :
    ∀ (k t1 : ℕ) (a : Mem α), bot ≤ t1 → t1 + k ≤ n → OrderedOn (ComparLe compar) a bot t1 →
      ∃ a', insertionLoop compar n bot k t1 a = some a' ∧ Sorts compar bot (t1 + k) a a'
  | 0, t1, a, _, _, ho => ⟨a, rfl, .refl _ _ a, ho⟩
  | k + 1, t1, a, hbot, hn, ho => by
    obtain ⟨t2, hfind, ht2, ht, hgt, hle⟩ := findPlace_spec (n := n) (a := a) hc
      (show t1 < n by omega) (t1 - bot) (show bot + (t1 - bot) ≤ t1 by omega)
      fun i hi₁ hi₂ => by omega
    rw [insertionLoop, hfind, Option.bind_some]
    have hstep : ∃ a₁, (if t1 ≠ t2 then
          (bubble n (a t1) t2 (t1 - t2) a).bind (insertionLoop compar n bot k (t1 + 1))
        else insertionLoop compar n bot k (t1 + 1) a) =
          insertionLoop compar n bot k (t1 + 1) a₁ ∧ Rearranges t2 (t1 + 1) a a₁ ∧
        a₁ t2 = a t1 ∧ ∀ i, t2 < i → i ≤ t1 → a₁ i = a (i - 1) := by
      by_cases hne : t1 ≠ t2
      · obtain ⟨a₁, hbubble, hre, hfirst, hmoved⟩ := bubble_spec (n := n) t2 (t1 - t2) a (by omega)
        rw [Nat.add_sub_cancel' ht] at hbubble hre hfirst hmoved
        rw [if_pos hne, hbubble]
        exact ⟨a₁, rfl, hre, hfirst, hmoved⟩
      · rw [if_neg hne]
        have heq : t1 = t2 := not_not.mp hne
        exact ⟨a, rfl, .refl _ _ a, by rw [heq], fun i hi₁ hi₂ => by omega⟩
    obtain ⟨a₁, heq, hre, hfirst, hmoved⟩ := hstep
    obtain ⟨a', ha', hsorts⟩ := insertionLoop_spec hc bot k (t1 + 1) a₁ (by omega) (by omega)
      (orderedOn_insert hc ho ht2 ht hgt hle hre hfirst hmoved)
    rw [heq, ha']
    have hend : t1 + 1 + k = t1 + (k + 1) := by omega
    rw [hend] at hsorts
    exact ⟨a', rfl, (hre.mono ht2 (by omega)).trans hsorts.rearranges, hsorts.ordered⟩

theorem insertionSort_spec (hc : ComparesPreorder compar) (a : Mem α) (bot nmemb : ℕ)
    (hn : bot + nmemb ≤ n) :
    ∃ a', insertionSort compar n a bot nmemb = some a' ∧
      Sorts compar bot (bot + nmemb) a a' := by
  cases nmemb with
  | zero => exact ⟨a, rfl, .refl _ _ a, .of_le_one (by omega) a⟩
  | succ k =>
      obtain ⟨a', ha', hsorts⟩ := insertionLoop_spec (n := n) hc bot k (bot + 1) a (by omega)
        (by omega) (.of_le_one (by omega) a)
      have hend : bot + 1 + k = bot + (k + 1) := by omega
      rw [hend] at hsorts
      exact ⟨a', ha', hsorts⟩

/-- Parts of fewer than two elements are left as they are. -/
theorem sortFew_spec (hc : ComparesPreorder compar) (a : Mem α) (bot : ℕ) (k : ℤ)
    (hn : bot + k.toNat ≤ n) :
    ∃ a', sortFew compar n a bot k = some a' ∧ Sorts compar bot (bot + k.toNat) a a' := by
  rw [sortFew]
  by_cases h1 : 1 < k
  · rw [if_pos h1]
    by_cases h2 : k = 2
    · subst h2
      have htwo : (2 : ℤ).toNat = 2 := rfl
      rw [htwo] at hn ⊢
      rw [if_pos rfl, comparAt_eq (by omega) (by omega), Option.bind_some]
      have hpair {a' : Mem α} (h : ComparLe compar (a' bot) (a' (bot + 1))) :
          OrderedOn (ComparLe compar) a' bot (bot + 2) := by
        intro i j hi hij hj
        have hi' : i = bot := by omega
        have hj' : j = bot + 1 := by omega
        rw [hi', hj']
        exact h
      by_cases hneg : compar (a (bot + 1)) (a bot) < 0
      · rw [if_pos hneg, swapAt_eq (by omega) (by omega)]
        refine ⟨_, rfl, .swap (by omega) (by omega) (by omega) (by omega) a, hpair ?_⟩
        rw [Memory.swap_apply, Memory.swap_apply, if_neg (by omega), if_pos rfl, if_pos rfl]
        exact hneg.le
      · rw [if_neg hneg]
        refine ⟨a, rfl, .refl _ _ a, hpair ?_⟩
        exact not_lt.mp fun hpos => hneg ((hc.symm _ _).mpr hpos)
    · rw [if_neg h2]
      exact insertionSort_spec hc a bot k.toNat hn
  · rw [if_neg h1]
    exact ⟨a, rfl, .refl _ _ a, .of_le_one (by omega) a⟩

end

end SolidDB
