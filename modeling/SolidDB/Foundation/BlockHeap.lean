import Mathlib.Logic.Function.Basic
import SolidDB.Foundation.BlockArray

/-!
# Heaps of blocks

An object in memory is a list of cells. A cell is not written yet, or it is a byte, or a part of a
pointer. A heap has blocks under pointers that are not used again. Access outside an object or to
a block that is not allocated has no result.
-/

namespace BlockHeap

open BlockArray

inductive Cell where
  | undef
  | byte (b : UInt8)
  | ptr (p k : ℕ)
  deriving DecidableEq

def bytes (l : List UInt8) : List Cell := l.map Cell.byte

def pointer (p : ℕ) : List Cell := (List.range 8).map (Cell.ptr p)

/-! ## Objects -/

def load {β : Type*} (mem : List β) (off n : ℕ) : Option (List β) :=
  if off + n ≤ mem.length then some (slice mem off n) else none

def store {β : Type*} (mem : List β) (off : ℕ) (cells : List β) : Option (List β) :=
  if off + cells.length ≤ mem.length then some (overwrite mem off cells) else none

def memmove {β : Type*} (mem : List β) (dest src n : ℕ) : Option (List β) :=
  (load mem src n).bind (store mem dest)

def loadByte (mem : List Cell) (off : ℕ) : Option UInt8 :=
  match mem[off]? with
  | some (.byte b) => some b
  | _ => none

def Cell.toByte : Cell → Option UInt8
  | .byte b => some b
  | _ => none

def loadBytes (mem : List Cell) (off n : ℕ) : Option (List UInt8) :=
  (load mem off n).bind fun cells => cells.mapM Cell.toByte

def loadPointer (mem : List Cell) (off : ℕ) : Option ℕ :=
  match mem[off]? with
  | some (.ptr p _) => if load mem off 8 = some (pointer p) then some p else none
  | _ => none

/-! ## Heaps -/

structure Heap where
  blocks : ℕ → Option (List Cell)
  next : ℕ

namespace Heap

def empty : Heap := ⟨fun _ => none, 1⟩

def add (h : Heap) (mem : List Cell) : ℕ × Heap :=
  (h.next, ⟨Function.update h.blocks h.next (some mem), h.next + 1⟩)

def alloc (h : Heap) (n : ℕ) : ℕ × Heap := h.add (List.replicate n .undef)

def free (h : Heap) (p : ℕ) : Option Heap :=
  if (h.blocks p).isSome then some ⟨Function.update h.blocks p none, h.next⟩ else none

def realloc (h : Heap) (p n : ℕ) : Option (ℕ × Heap) :=
  (h.blocks p).bind fun mem =>
    (h.free p).map fun h => h.add (mem.take n ++ List.replicate (n - mem.length) .undef)

def modify (h : Heap) (p : ℕ) (f : List Cell → Option (List Cell)) : Option Heap :=
  (h.blocks p).bind fun mem =>
    (f mem).map fun mem => ⟨Function.update h.blocks p (some mem), h.next⟩

end Heap

variable {mem a b c d : List Cell} {l l' : List UInt8} {h h' h'' : Heap} {p q n : ℕ}
  {r r' r'' : Option ℕ}

@[simp] theorem length_bytes : (bytes l).length = l.length := List.length_map ..

@[simp] theorem bytes_append : bytes (l ++ l') = bytes l ++ bytes l' := List.map_append ..

@[simp] theorem bytes_cons (x : UInt8) : bytes (x :: l) = Cell.byte x :: bytes l := rfl

@[simp] theorem length_pointer : (pointer p).length = 8 := rfl

/-! ## Reading and writing -/

section Objects

variable {β : Type*} {mem a b c d : List β} {n : ℕ}

theorem load_middle : load (a ++ b ++ c) a.length b.length = some b := by
  rw [load, if_pos (by simp only [List.length_append]; omega)]
  have hslice := slice_append_middle (a := a) (c := c) (show 0 + b.length ≤ b.length by omega)
  rw [Nat.add_zero] at hslice
  rw [hslice, slice, List.drop_zero, List.take_length]

theorem store_middle (hlen : d.length = b.length) :
    store (a ++ b ++ c) a.length d = some (a ++ d ++ c) := by
  rw [store, if_pos (by simp only [List.length_append]; omega)]
  have hover := overwrite_append_middle (a := a) (c := c) (show 0 + d.length ≤ b.length by omega)
  rw [Nat.add_zero] at hover
  rw [hover, overwrite_all hlen]

theorem load_start : load (b ++ c) 0 b.length = some b := load_middle (a := [])

theorem store_start (hlen : d.length = b.length) : store (b ++ c) 0 d = some (d ++ c) :=
  store_middle (a := []) hlen

theorem store_drop {off : ℕ} (hoff : a.length = off) (hlen : d.length = n)
    (hroom : n ≤ b.length) : store (a ++ b) off d = some (a ++ d ++ b.drop n) := by
  subst hoff hlen
  have hstore := store_middle (a := a) (b := b.take d.length) (c := b.drop d.length) (d := d)
    (by rw [List.length_take, Nat.min_eq_left hroom])
  rwa [List.append_assoc, List.take_append_drop] at hstore

theorem exists_append (mem : List β) (hn : n ≤ mem.length) :
    ∃ a b, mem = a ++ b ∧ a.length = n :=
  ⟨mem.take n, mem.drop n, (List.take_append_drop n mem).symm, by
    rw [List.length_take, Nat.min_eq_left hn]⟩

theorem memmove_back {e : List β} :
    ∃ y, memmove (a ++ e ++ b ++ c) a.length (a.length + e.length) b.length = some (a ++ b ++ y) ∧
      y.length = e.length + c.length := by
  obtain ⟨x, y, hxy, hx⟩ := exists_append (e ++ b ++ c)
    (show b.length ≤ _ by simp only [List.length_append]; omega)
  have hload := load_middle (a := a ++ e) (b := b) (c := c)
  have hstore := store_middle (a := a) (b := x) (c := y) (d := b) hx.symm
  have hlen := congrArg List.length hxy
  simp only [List.length_append] at hlen
  refine ⟨y, ?_, by omega⟩
  rw [List.length_append] at hload
  rw [memmove, hload, Option.bind_some, ← hstore, List.append_assoc a x y, ← hxy]
  simp only [List.append_assoc]

/-- A write that is not within the object has no result. -/
theorem store_none {i : ℕ} (hlt : mem.length < i + d.length) : store mem i d = none :=
  if_neg (Nat.not_le_of_lt hlt)

end Objects

theorem load_bytes : load (bytes l ++ c) 0 l.length = some (bytes l) := by
  have hprefix := load_start (b := bytes l) (c := c)
  rw [length_bytes] at hprefix
  exact hprefix

theorem mapM_toByte (l : List UInt8) : (bytes l).mapM Cell.toByte = some l := by
  induction l with
  | nil => rfl
  | cons x l ih =>
      rw [bytes_cons, List.mapM_cons, ih]
      rfl

theorem loadBytes_start : loadBytes (bytes l ++ c) 0 l.length = some l := by
  rw [loadBytes, load_bytes, Option.bind_some, mapM_toByte]

theorem loadPointer_middle (hlen : a.length = n) :
    loadPointer (a ++ pointer p ++ c) n = some p := by
  subst hlen
  have hload : load (a ++ pointer p ++ c) a.length 8 = some (pointer p) :=
    load_middle (b := pointer p)
  have hhead : (a ++ pointer p ++ c)[a.length]? = some (.ptr p 0) := by
    rw [List.append_assoc, List.getElem?_append_right (Nat.le_refl _), Nat.sub_self]
    rfl
  rw [loadPointer, hhead]
  simp only [hload, if_true]

/-! ## Owners -/

/-- The heap where an owner gives up the block `r` for the block `r'`. Other blocks stay. -/
structure Heap.Changes (h h' : Heap) (r r' : Option ℕ) : Prop where
  other : ∀ q, r ≠ some q → r' ≠ some q → h'.blocks q = h.blocks q
  gone : ∀ p, r = some p → r' ≠ some p → h'.blocks p = none
  unused : ∀ p, r' = some p → r ≠ some p → h.blocks p = none
  present : ∀ p, r' = some p → (h'.blocks p).isSome
  next : h.next ≤ h'.next
  bound : ∀ p, r' = some p → p < h'.next

structure Heap.Owned (h : Heap) (refs : List (Option ℕ)) : Prop where
  allocated : ∀ {i p : ℕ}, refs[i]? = some (some p) → (h.blocks p).isSome
  owner : ∀ {p : ℕ}, (h.blocks p).isSome → ∃ i : ℕ, refs[i]? = some (some p)
  unique : ∀ {i j p : ℕ}, refs[i]? = some (some p) → refs[j]? = some (some p) → i = j
  bound : ∀ {p : ℕ}, (h.blocks p).isSome → p < h.next

def Heap.Bounded (h : Heap) : Prop := ∀ p, (h.blocks p).isSome → p < h.next

theorem Heap.Owned.bounded {refs : List (Option ℕ)} (ho : h.Owned refs) : h.Bounded :=
  fun _ => ho.bound

theorem Heap.Bounded.next_none (hb : h.Bounded) : h.blocks h.next = none := by
  by_contra hne
  exact Nat.lt_irrefl _ (hb _ (Option.isSome_iff_ne_none.mpr hne))

theorem Heap.Changes.refl (hr : ∀ p, r = some p → (h.blocks p).isSome) (hb : h.Bounded) :
    h.Changes h r r where
  other _ _ _ := rfl
  gone _ hp hp' := absurd hp hp'
  unused _ hp hp' := absurd hp hp'
  present := hr
  next := Nat.le_refl _
  bound p hp := hb p (hr p hp)

theorem Heap.Changes.bounded (hc : h.Changes h' r r') (hb : h.Bounded) : h'.Bounded := by
  intro p hp
  by_cases hr' : r' = some p
  · exact hc.bound p hr'
  · by_cases hr : r = some p
    · rw [hc.gone p hr hr'] at hp
      cases hp
    · rw [hc.other p hr hr'] at hp
      exact Nat.lt_of_lt_of_le (hb p hp) hc.next

theorem Heap.Changes.trans (hc : h.Changes h' r r') (hc' : h'.Changes h'' r' r'') :
    h.Changes h'' r r'' where
  other q hq hq'' := by
    by_cases hq' : r' = some q
    · rw [hc'.gone q hq' hq'', hc.unused q hq' hq]
    · rw [hc'.other q hq' hq'', hc.other q hq hq']
  gone p hp hp'' := by
    by_cases hp' : r' = some p
    · exact hc'.gone p hp' hp''
    · rw [hc'.other p hp' hp'', hc.gone p hp hp']
  unused p hp'' hp := by
    by_cases hp' : r' = some p
    · exact hc.unused p hp' hp
    · rw [← hc.other p hp hp', hc'.unused p hp'' hp']
  present := hc'.present
  next := Nat.le_trans hc.next hc'.next
  bound := hc'.bound

/-! ## The operations -/

theorem update_ne {f : ℕ → Option (List Cell)} {x : Option (List Cell)} (hne : some p ≠ some q) :
    Function.update f p x q = f q :=
  Function.update_of_ne (fun heq => hne (congrArg some heq.symm)) _ _

theorem Heap.add_changes (hb : h.Bounded) (mem : List Cell) :
    h.Changes (h.add mem).2 none (some (h.add mem).1) ∧
      (h.add mem).2.blocks (h.add mem).1 = some mem := by
  have hat : (h.add mem).2.blocks (h.add mem).1 = some mem := Function.update_self ..
  refine ⟨⟨fun q _ hq => update_ne hq, fun p hp => absurd hp (by simp), fun p hp _ => ?_,
    fun p hp => ?_, Nat.le_succ _, fun p hp => ?_⟩, hat⟩
  · obtain rfl : h.next = p := Option.some_inj.mp hp
    exact hb.next_none
  · rw [← Option.some_inj.mp hp, hat]
    rfl
  · obtain rfl : h.next = p := Option.some_inj.mp hp
    exact Nat.lt_succ_self _

theorem Heap.free_changes (hp : h.blocks p = some mem) :
    ∃ h', h.free p = some h' ∧ h.Changes h' (some p) none := by
  refine ⟨⟨Function.update h.blocks p none, h.next⟩, if_pos (by rw [hp]; rfl),
    fun q hq _ => update_ne hq, fun q hq _ => ?_, fun q hq => absurd hq (by simp),
    fun q hq => absurd hq (by simp), Nat.le_refl _, fun q hq => absurd hq (by simp)⟩
  obtain rfl : p = q := Option.some_inj.mp hq
  exact Function.update_self ..

theorem Heap.modify_changes {f : List Cell → Option (List Cell)} {mem' : List Cell}
    (hp : h.blocks p = some mem) (hf : f mem = some mem') (hb : h.Bounded) :
    ∃ h', h.modify p f = some h' ∧ h.Changes h' (some p) (some p) ∧
      h'.blocks p = some mem' := by
  have hat : Function.update h.blocks p (some mem') p = some mem' := Function.update_self ..
  refine ⟨⟨Function.update h.blocks p (some mem'), h.next⟩, ?_,
    ⟨fun q hq _ => update_ne hq, fun q hq hq' => absurd hq hq', fun q hq hq' => absurd hq hq',
      fun q hq => ?_, Nat.le_refl _, fun q hq => ?_⟩, hat⟩
  · rw [modify, hp, Option.bind_some, hf]
    rfl
  · obtain rfl : p = q := Option.some_inj.mp hq
    exact Option.isSome_iff_exists.mpr ⟨mem', hat⟩
  · obtain rfl : p = q := Option.some_inj.mp hq
    exact hb p (by rw [hp]; rfl)

theorem Heap.realloc_changes (hp : h.blocks p = some mem) (hb : h.Bounded) (n : ℕ) :
    ∃ q h', h.realloc p n = some (q, h') ∧ h.Changes h' (some p) (some q) ∧
      h'.blocks q = some (mem.take n ++ List.replicate (n - mem.length) .undef) := by
  obtain ⟨h₁, hfree, hc₁⟩ := Heap.free_changes hp
  obtain ⟨hc₂, hat⟩ := Heap.add_changes (hc₁.bounded hb)
    (mem.take n ++ List.replicate (n - mem.length) .undef)
  refine ⟨_, _, ?_, hc₁.trans hc₂, hat⟩
  rw [realloc, hp, Option.bind_some, hfree]
  rfl

theorem Heap.realloc_none (hp : h.blocks p = none) (n : ℕ) : h.realloc p n = none := by
  rw [realloc, hp]
  rfl

/-! ## Owners of a changed heap -/

variable {refs : List (Option ℕ)} {i j : ℕ}

/-- A change of one owner's block leaves the block of another owner. -/
theorem Heap.Owned.untouched (ho : h.Owned refs) (hi : refs[i]? = some r)
    (hc : h.Changes h' r r') (hji : j ≠ i) (hj : refs[j]? = some (some p)) :
    h'.blocks p = h.blocks p := by
  refine hc.other p (fun heq => hji (ho.unique hj (heq ▸ hi))) fun heq => ?_
  have hnone := hc.unused p heq fun heq' => hji (ho.unique hj (heq' ▸ hi))
  have hsome := ho.allocated hj
  rw [hnone] at hsome
  cases hsome

theorem Heap.Owned.set (ho : h.Owned refs) (hi : refs[i]? = some r) (hc : h.Changes h' r r') :
    h'.Owned (refs.set i r') := by
  have hilt : i < refs.length := (List.getElem?_eq_some_iff.mp hi).1
  have hself : (refs.set i r')[i]? = some r' := List.getElem?_set_self hilt
  -- the block of another owner is not touched
  have hother : ∀ {j p : ℕ}, j ≠ i → refs[j]? = some (some p) → r ≠ some p ∧ r' ≠ some p := by
    intro j p hj hp
    have hr : r ≠ some p := fun heq => hj (ho.unique hp (heq ▸ hi))
    refine ⟨hr, fun heq => ?_⟩
    have hnone := hc.unused p heq hr
    have hsome := ho.allocated hp
    rw [hnone] at hsome
    cases hsome
  have hset : ∀ {j : ℕ}, j ≠ i → (refs.set i r')[j]? = refs[j]? := fun hj =>
    List.getElem?_set_ne (Ne.symm hj)
  refine ⟨fun {j p} hp => ?_, fun {p} hp => ?_, fun {j k p} hj hk => ?_, fun {p} hp => ?_⟩
  · by_cases hj : j = i
    · rw [hj, hself, Option.some_inj] at hp
      exact hc.present p hp
    · rw [hset hj] at hp
      obtain ⟨hr, hr'⟩ := hother hj hp
      rw [hc.other p hr hr']
      exact ho.allocated hp
  · by_cases hr' : r' = some p
    · exact ⟨i, by rw [hself, hr']⟩
    · have hr : r ≠ some p := fun hr => by
        rw [hc.gone p hr hr'] at hp
        cases hp
      rw [hc.other p hr hr'] at hp
      obtain ⟨j, hj⟩ := ho.owner hp
      have hji : j ≠ i := fun heq => by
        rw [heq, hi, Option.some_inj] at hj
        exact hr hj
      exact ⟨j, by rw [hset hji, hj]⟩
  · by_cases hji : j = i
    · by_cases hki : k = i
      · rw [hji, hki]
      · rw [hji, hself, Option.some_inj] at hj
        rw [hset hki] at hk
        exact absurd hj (hother hki hk).2
    · rw [hset hji] at hj
      by_cases hki : k = i
      · rw [hki, hself, Option.some_inj] at hk
        exact absurd hk (hother hji hj).2
      · rw [hset hki] at hk
        exact ho.unique hj hk
  · exact hc.bounded ho.bounded p hp

theorem Heap.Owned.transfer (ho : h.Owned refs) (hij : i ≠ j) (hi : refs[i]? = some none)
    (hj : refs[j]? = some r) : h.Owned ((refs.set i r).set j none) := by
  have hilt : i < refs.length := (List.getElem?_eq_some_iff.mp hi).1
  have hjlt : j < (refs.set i r).length := by
    rw [List.length_set]
    exact (List.getElem?_eq_some_iff.mp hj).1
  have hati : ((refs.set i r).set j none)[i]? = some r := by
    rw [List.getElem?_set_ne hij.symm, List.getElem?_set_self hilt]
  have hatj : ((refs.set i r).set j none)[j]? = some none := List.getElem?_set_self hjlt
  have hat : ∀ {k : ℕ}, k ≠ i → k ≠ j → ((refs.set i r).set j none)[k]? = refs[k]? :=
    fun hki hkj => by rw [List.getElem?_set_ne hkj.symm, List.getElem?_set_ne hki.symm]
  -- the owner of a block, before and after
  have hback : ∀ {k p : ℕ}, ((refs.set i r).set j none)[k]? = some (some p) →
      (k = i ∧ refs[j]? = some (some p)) ∨ (k ≠ i ∧ k ≠ j ∧ refs[k]? = some (some p)) := by
    intro k p hk
    by_cases hki : k = i
    · rw [hki, hati, Option.some_inj] at hk
      exact Or.inl ⟨hki, by rw [hj, hk]⟩
    · by_cases hkj : k = j
      · rw [hkj, hatj, Option.some_inj] at hk
        cases hk
      · rw [hat hki hkj] at hk
        exact Or.inr ⟨hki, hkj, hk⟩
  refine ⟨fun {k p} hk => ?_, fun {p} hp => ?_, fun {k l p} hk hl => ?_, ho.bound⟩
  · rcases hback hk with ⟨-, hown⟩ | ⟨-, -, hown⟩ <;> exact ho.allocated hown
  · obtain ⟨k, hk⟩ := ho.owner hp
    by_cases hkj : k = j
    · rw [hkj, hj, Option.some_inj] at hk
      exact ⟨i, by rw [hati, hk]⟩
    · have hki : k ≠ i := fun heq => by
        rw [heq, hi, Option.some_inj] at hk
        cases hk
      exact ⟨k, by rw [hat hki hkj, hk]⟩
  · rcases hback hk with ⟨hki, hown⟩ | ⟨-, hkj, hown⟩ <;>
      rcases hback hl with ⟨hli, hown'⟩ | ⟨-, hlj, hown'⟩
    · rw [hki, hli]
    · exact absurd (ho.unique hown' hown) hlj
    · exact absurd (ho.unique hown hown') hkj
    · exact ho.unique hown hown'

theorem Heap.Owned.append_none (ho : h.Owned refs) : h.Owned (refs ++ [none]) := by
  have hback : ∀ {k p : ℕ}, (refs ++ [none])[k]? = some (some p) → refs[k]? = some (some p) := by
    intro k p hk
    by_cases hlt : k < refs.length
    · rwa [List.getElem?_append_left hlt] at hk
    · rw [List.getElem?_append_right (Nat.le_of_not_lt hlt)] at hk
      have hmem := List.mem_of_getElem? hk
      simp at hmem
  refine ⟨fun hk => ho.allocated (hback hk), fun {p} hp => ?_,
    fun hk hl => ho.unique (hback hk) (hback hl), ho.bound⟩
  obtain ⟨k, hk⟩ := ho.owner hp
  exact ⟨k, by rw [List.getElem?_append_left (List.getElem?_eq_some_iff.mp hk).1, hk]⟩

theorem Heap.Changes.temporary {h₁ h₂ h₃ : Heap} (hnew : h.Changes h₁ none (some p))
    (hc : h₁.Changes h₂ r r') (hfree : h₂.Changes h₃ (some p) none) (hr : r ≠ some p) :
    h.Changes h₃ r r' ∧ r' ≠ some p := by
  have hr' : r' ≠ some p := fun heq => by
    have hnone := hc.unused p heq hr
    have hsome := hnew.present p rfl
    rw [hnone] at hsome
    cases hsome
  have hafter : ∀ {q : ℕ}, q ≠ p → h₃.blocks q = h₂.blocks q := fun hq =>
    hfree.other _ (fun heq => hq (Option.some_inj.mp heq).symm) nofun
  have hbefore : ∀ {q : ℕ}, q ≠ p → h₁.blocks q = h.blocks q := fun hq =>
    hnew.other _ nofun (fun heq => hq (Option.some_inj.mp heq).symm)
  refine ⟨⟨fun q hq hq' => ?_, fun q hq hq' => ?_, fun q hq hq' => ?_, fun q hq => ?_,
    Nat.le_trans hnew.next (Nat.le_trans hc.next hfree.next),
    fun q hq => Nat.lt_of_lt_of_le (hc.bound q hq) hfree.next⟩, hr'⟩
  · by_cases hqp : q = p
    · rw [hqp, hfree.gone p rfl nofun, hnew.unused p rfl nofun]
    · rw [hafter hqp, hc.other q hq hq', hbefore hqp]
  · have hqp : q ≠ p := fun heq => hr (heq ▸ hq)
    rw [hafter hqp, hc.gone q hq hq']
  · have hqp : q ≠ p := fun heq => hr' (heq ▸ hq)
    rw [← hbefore hqp, hc.unused q hq hq']
  · have hqp : q ≠ p := fun heq => hr' (heq ▸ hq)
    rw [hafter hqp]
    exact hc.present q hq

end BlockHeap
