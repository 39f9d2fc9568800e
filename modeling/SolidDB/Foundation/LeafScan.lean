import Mathlib.Data.List.Basic
import Mathlib.Order.Basic
import Mathlib.Algebra.Order.Ring.Int

/-!
# Scanning a list that is cut into leaves

An ordered list of items is cut into leaves. Each leaf has a separator that is not
above its own items and above the items of the leaves before it. A scan that knows
a leaf only by its separator goes on to the next leaf while that separator is below
the end of the range, and checks the items one by one in the last leaf it visits.
-/

namespace LeafScan

variable {α β γ : Type*} [LinearOrder α]

structure Leaf (γ β : Type*) where
  addr : γ
  sep : β
  items : List β

def items (ls : List (Leaf γ β)) : List β := ls.flatMap Leaf.items

@[simp] theorem items_nil : items ([] : List (Leaf γ β)) = [] := rfl

@[simp] theorem items_cons (l : Leaf γ β) (ls : List (Leaf γ β)) :
    items (l :: ls) = l.items ++ items ls := rfl

@[simp] theorem items_append (ls ms : List (Leaf γ β)) :
    items (ls ++ ms) = items ls ++ items ms := List.flatMap_append

theorem mem_items {ls : List (Leaf γ β)} {x : β} :
    x ∈ items ls ↔ ∃ l ∈ ls, x ∈ l.items := List.mem_flatMap

structure Sorted (f : β → α) (ls : List (Leaf γ β)) : Prop where
  seps : ls.Pairwise fun a b => f a.sep < f b.sep ∧ ∀ x ∈ a.items, f x < f b.sep
  lower : ∀ l ∈ ls, ∀ x ∈ l.items, f l.sep ≤ f x
  asc : ∀ l ∈ ls, l.items.Pairwise fun x y => f x < f y

variable {f : β → α} {l : Leaf γ β} {pre post : List (Leaf γ β)} {xs ys : List β}
  {q b e : α} {opn : Bool}

theorem Sorted.of_sublist {ls ms : List (Leaf γ β)} (h : Sorted f ls)
    (hsub : ms.Sublist ls) : Sorted f ms where
  seps := h.seps.sublist hsub
  lower := fun l hl => h.lower l (hsub.subset hl)
  asc := fun l hl => h.asc l (hsub.subset hl)

theorem Sorted.tail (h : Sorted f (l :: post)) : Sorted f post :=
  h.of_sublist (List.sublist_cons_self l post)

theorem Sorted.lt_sep (h : Sorted f (pre ++ l :: post)) {x : β} (hx : x ∈ items pre) :
    f x < f l.sep := by
  obtain ⟨a, ha, hxa⟩ := mem_items.mp hx
  have hpair := List.pairwise_append.mp h.seps
  exact (hpair.2.2 a ha l List.mem_cons_self).2 x hxa

theorem Sorted.sep_lt (h : Sorted f (l :: post)) {x : β} (hx : x ∈ items post) :
    f l.sep < f x := by
  obtain ⟨a, ha, hxa⟩ := mem_items.mp hx
  have hlt := ((List.pairwise_cons.mp h.seps).1 a ha).1
  exact hlt.trans_le (h.lower a (List.mem_cons_of_mem l ha) x hxa)

theorem Sorted.items_lt (h : Sorted f (l :: post)) {x y : β} (hx : x ∈ l.items)
    (hy : y ∈ items post) : f x < f y := by
  obtain ⟨a, ha, hya⟩ := mem_items.mp hy
  have hlt := ((List.pairwise_cons.mp h.seps).1 a ha).2 x hx
  exact hlt.trans_le (h.lower a (List.mem_cons_of_mem l ha) y hya)

/-- A part that is closed towards the front is an initial segment. -/
theorem filter_eq_takeWhile {p : β → Bool}
    (h : xs.Pairwise fun x y => p y = true → p x = true) :
    xs.filter p = xs.takeWhile p := by
  induction xs with
  | nil => rfl
  | cons x xs ih =>
      obtain ⟨hx, hxs⟩ := List.pairwise_cons.mp h
      cases hpx : p x with
      | true =>
          rw [List.filter_cons_of_pos hpx, List.takeWhile_cons_of_pos hpx, ih hxs]
      | false =>
          rw [List.takeWhile_cons_of_neg (by simp [hpx]),
            List.filter_cons_of_neg (by simp [hpx]), List.filter_eq_nil_iff]
          intro y hy hpy
          exact absurd (hx y hy hpy) (by simp [hpx])

/-- A list is split in one way before the elements that do not have a property, where
the one before them has it or is the first. -/
theorem split_unique {δ : Type*} {p : δ → Prop} {lo hi lo' hi' : List δ} {x x' : δ}
    (heq : lo ++ x :: hi = lo' ++ x' :: hi') (hx : p x ∨ lo = [])
    (hhi : ∀ y ∈ hi, ¬ p y) (hx' : p x' ∨ lo' = []) (hhi' : ∀ y ∈ hi', ¬ p y) :
    lo = lo' ∧ x = x' ∧ hi = hi' := by
  have hmid {lo hi hi' t : List δ} {x x' : δ} (ht : x :: hi = t ++ x' :: hi')
      (hhi : ∀ y ∈ hi, ¬ p y) (hx' : p x' ∨ lo ++ t = []) : t = [] := by
    cases t with
    | nil => rfl
    | cons y t =>
        obtain ⟨-, rfl⟩ := List.cons.inj ht
        rcases hx' with hx' | hnil
        · exact absurd hx' (hhi x' (by simp))
        · simp at hnil
  rcases List.append_eq_append_iff.mp heq with ⟨t, rfl, ht⟩ | ⟨t, rfl, ht⟩
  · obtain rfl := hmid ht hhi hx'
    obtain ⟨rfl, rfl⟩ := List.cons.inj ht
    exact ⟨(List.append_nil lo).symm, rfl, rfl⟩
  · obtain rfl := hmid ht hhi' hx
    obtain ⟨rfl, rfl⟩ := List.cons.inj ht
    exact ⟨List.append_nil lo', rfl, rfl⟩

/-! ## Forward -/

def withinEnd (f : β → α) (e : α) (opn : Bool) (x : β) : Bool :=
  if opn then decide (f x < e) else decide (f x ≤ e)

theorem withinEnd_of_lt {x : β} (h : f x < e) : withinEnd f e opn x = true := by
  cases opn with
  | false => exact decide_eq_true h.le
  | true => exact decide_eq_true h

theorem le_of_withinEnd {x : β} (h : withinEnd f e opn x = true) : f x ≤ e := by
  cases opn with
  | false => exact of_decide_eq_true h
  | true => exact (of_decide_eq_true h : f x < e).le

theorem withinEnd_down {x y : β} (hxy : f x < f y) (h : withinEnd f e opn y = true) :
    withinEnd f e opn x = true :=
  withinEnd_of_lt (hxy.trans_le (le_of_withinEnd h))

def deliver (f : β → α) (e : α) (opn : Bool) : List β → List (Leaf γ β) → List β
  | xs, [] => xs.takeWhile (withinEnd f e opn)
  | xs, l :: ls =>
      if f l.sep < e then xs ++ deliver f e opn l.items ls
      else xs.takeWhile (withinEnd f e opn)

/-- The scan returns no other items than those before it. -/
theorem deliver_sublist (f : β → α) (e : α) (opn : Bool) (xs : List β)
    (ls : List (Leaf γ β)) : (deliver f e opn xs ls).Sublist (xs ++ items ls) := by
  induction ls generalizing xs with
  | nil =>
      rw [deliver, items_nil, List.append_nil]
      exact List.takeWhile_sublist _
  | cons l ls ih =>
      rw [deliver, items_cons]
      split
      · exact (ih l.items).append_left xs
      · exact (List.takeWhile_sublist _).trans (List.sublist_append_left _ _)

/-- An item at the closed end of the range that begins a leaf of its own. -/
def Missed (f : β → α) (e : α) (opn : Bool) (ls : List (Leaf γ β)) : Prop :=
  opn = false ∧ ∃ l ∈ ls, f l.sep = e ∧ ∃ x ∈ l.items, f x = e

omit [LinearOrder α] in
theorem Missed.of_subset {ls ms : List (Leaf γ β)} (hsub : ms ⊆ ls)
    (h : Missed f e opn ms) : Missed f e opn ls := by
  obtain ⟨hopn, l, hl, hitem⟩ := h
  exact ⟨hopn, l, hsub hl, hitem⟩

/-- Without a missed item nothing of a leaf at the end of the range is within it. -/
theorem not_withinEnd_of_sep_ge (h : Sorted f (l :: post))
    (hmiss : ¬ Missed f e opn (l :: post)) (hle : e ≤ f l.sep) {x : β}
    (hx : x ∈ items (l :: post)) : withinEnd f e opn x = false := by
  rw [Bool.eq_false_iff]
  intro hwithin
  have hxe := le_of_withinEnd hwithin
  rw [items_cons, List.mem_append] at hx
  rcases hx with hx | hx
  · have hsep := h.lower l List.mem_cons_self x hx
    have heq : f x = e := le_antisymm hxe (hle.trans hsep)
    have hopn : opn = false := by
      cases opn with
      | false => rfl
      | true => exact absurd heq (of_decide_eq_true hwithin : f x < e).ne
    exact hmiss ⟨hopn, l, List.mem_cons_self,
      le_antisymm (hsep.trans heq.le) hle, x, hx, heq⟩
  · exact absurd (hle.trans_lt (h.sep_lt hx)) (not_lt.mpr hxe)

theorem deliver_eq_filter (h : Sorted f (l :: post)) (hxs : xs.Sublist l.items)
    (hmiss : ¬ Missed f e opn post) :
    deliver f e opn xs post = (xs ++ items post).filter (withinEnd f e opn) := by
  have htake {l : Leaf γ β} (hl : l.items.Pairwise fun x y => f x < f y) {xs : List β}
      (hxs : xs.Sublist l.items) :
      xs.filter (withinEnd f e opn) = xs.takeWhile (withinEnd f e opn) :=
    filter_eq_takeWhile ((hl.sublist hxs).imp fun hxy => withinEnd_down hxy)
  induction post generalizing l xs with
  | nil =>
      rw [deliver, items_nil, List.append_nil, htake (h.asc l List.mem_cons_self) hxs]
  | cons l' post ih =>
      rw [deliver, List.filter_append]
      by_cases hlt : f l'.sep < e
      · have hall : xs.filter (withinEnd f e opn) = xs := by
          rw [List.filter_eq_self]
          intro x hx
          have hxsep := ((List.pairwise_cons.mp h.seps).1 l' List.mem_cons_self).2 x
            (hxs.subset hx)
          exact withinEnd_of_lt (hxsep.trans hlt)
        rw [if_pos hlt, hall, items_cons, ih h.tail (List.Sublist.refl _)
          (fun hm => hmiss (hm.of_subset (List.subset_cons_self l' post)))]
      · have hnone : (items (l' :: post)).filter (withinEnd f e opn) = [] := by
          rw [List.filter_eq_nil_iff]
          intro x hx
          simp [not_withinEnd_of_sep_ge h.tail hmiss (not_lt.mp hlt) hx]
        rw [if_neg hlt, hnone, List.append_nil, htake (h.asc l List.mem_cons_self) hxs]

/-- Behind a separator at the end of the range nothing is returned. -/
theorem lt_of_mem_deliver (h : Sorted f (l :: post)) (hxs : xs.Sublist l.items)
    {l' : Leaf γ β} (hl' : l' ∈ post) (hsep : f l'.sep = e) {x : β}
    (hx : x ∈ deliver f e opn xs post) : f x < e := by
  induction post generalizing l xs with
  | nil => exact absurd hl' List.not_mem_nil
  | cons l'' post ih =>
      have hxlt {y : β} (hy : y ∈ xs) : f y < e := by
        rw [← hsep]
        exact ((List.pairwise_cons.mp h.seps).1 l' hl').2 y (hxs.subset hy)
      rw [deliver] at hx
      by_cases hlt : f l''.sep < e
      · rw [if_pos hlt, List.mem_append] at hx
        rcases hx with hx | hx
        · exact hxlt hx
        · have hne : l' ≠ l'' := by
            rintro rfl
            exact absurd hsep hlt.ne
          exact ih h.tail (List.Sublist.refl _)
            ((List.mem_cons.mp hl').resolve_left hne) hx
      · rw [if_neg hlt] at hx
        exact hxlt (List.takeWhile_sublist _ |>.subset hx)

/-! ## Backward -/

/-- What the backward scan returns: the items before the position in the leaf, the
last one first, and those of the leaves before it, the nearest leaf first. -/
def deliverBack (f : β → α) (b : α) : List β → β → List (Leaf γ β) → List β
  | ys, _, [] => ys.takeWhile fun x => decide (b ≤ f x)
  | ys, s, l :: pre =>
      if b < f s then ys ++ deliverBack f b l.items.reverse l.sep pre
      else ys.takeWhile fun x => decide (b ≤ f x)

/-- The backward scan returns the items of the range in descending order. -/
theorem deliverBack_eq_filter (h : Sorted f (pre.reverse ++ [l]))
    (hys : ys.Sublist l.items.reverse)
    (hfirst : ∀ l' ∈ (pre.reverse ++ [l]).head?, f l'.sep ≤ b) :
    deliverBack f b ys l.sep pre =
      (ys ++ (items pre.reverse).reverse).filter fun x => decide (b ≤ f x) := by
  have htake {l : Leaf γ β} (hl : l.items.Pairwise fun x y => f x < f y) {ys : List β}
      (hys : ys.Sublist l.items.reverse) :
      ys.filter (fun x => decide (b ≤ f x)) = ys.takeWhile fun x => decide (b ≤ f x) := by
    refine filter_eq_takeWhile (((List.pairwise_reverse.mpr hl).sublist hys).imp ?_)
    intro x y hxy hy
    exact decide_eq_true ((of_decide_eq_true hy).trans hxy.le)
  have hl := h.asc l (by simp)
  induction pre generalizing l ys with
  | nil =>
      rw [deliverBack, List.reverse_nil, items_nil, List.reverse_nil, List.append_nil,
        htake hl hys]
  | cons l' pre ih =>
      have hsort : Sorted f (pre.reverse ++ [l']) :=
        h.of_sublist (by simp)
      rw [deliverBack, List.filter_append]
      by_cases hlt : b < f l.sep
      · have hall : ys.filter (fun x => decide (b ≤ f x)) = ys := by
          rw [List.filter_eq_self]
          intro x hx
          have hlow := h.lower l (by simp) x (List.mem_reverse.mp (hys.subset hx))
          exact decide_eq_true (hlt.le.trans hlow)
        have hfirst' : ∀ m ∈ (pre.reverse ++ [l']).head?, f m.sep ≤ b := by
          intro m hm
          apply hfirst
          rw [List.reverse_cons]
          cases hr : pre.reverse with
          | nil => rw [hr] at hm; exact hm
          | cons m' ms => rw [hr] at hm; exact hm
        rw [if_pos hlt, hall, ih hsort (List.Sublist.refl _) hfirst'
          (hsort.asc l' (by simp)), List.reverse_cons, items_append, List.reverse_append,
          items_cons, items_nil, List.append_nil]
      · have hnone : ((items (l' :: pre).reverse).reverse).filter
            (fun x => decide (b ≤ f x)) = [] := by
          rw [List.filter_eq_nil_iff]
          intro x hx
          have hxlt := h.lt_sep (List.mem_reverse.mp hx)
          simpa using hxlt.trans_le (not_lt.mp hlt)
        rw [if_neg hlt, hnone, List.append_nil, htake hl hys]

end LeafScan
