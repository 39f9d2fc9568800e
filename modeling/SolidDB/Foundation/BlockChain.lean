import Mathlib.Data.List.Basic
import Mathlib.Data.List.Nodup
import Mathlib.Logic.Function.Basic

/-!
# Chains of blocks

A store has a block at every address, and every block has the address of the next one;
the last block of a chain has the null address there. A list kept in a chain grows at its
front, by a block that is written where no block of the chain stands, and two chains are
joined by writing the last block of the first one anew.
-/

namespace BlockChain

variable {β : Type*} (next : β → ℕ) (null : ℕ)

/-- The blocks from the address on are those at the addresses of the list. -/
def Chain (d : ℕ → β) : ℕ → List ℕ → Prop
  | a, [] => a = null
  | a, b :: bs => a = b ∧ b ≠ null ∧ Chain d (next (d b)) bs

variable {next null} {d d' : ℕ → β} {a b c : ℕ} {as bs cs : List ℕ} {x : β}

@[simp] theorem chain_nil : Chain next null d a [] ↔ a = null := Iff.rfl

theorem Chain.ne_null (h : Chain next null d a bs) (hb : b ∈ bs) : b ≠ null := by
  induction bs generalizing a with
  | nil => exact absurd hb List.not_mem_nil
  | cons c bs ih =>
      rcases List.mem_cons.mp hb with rfl | hb
      · exact h.2.1
      · exact ih h.2.2 hb

theorem Chain.null_notMem (h : Chain next null d a bs) : null ∉ bs :=
  fun hn => h.ne_null hn rfl

theorem Chain.eq_nil_iff (h : Chain next null d a bs) : bs = [] ↔ a = null := by
  cases bs with
  | nil => exact iff_of_true rfl h
  | cons b bs =>
      refine iff_of_false (List.cons_ne_nil b bs) ?_
      rw [h.1]
      exact h.2.1

theorem Chain.unique (h : Chain next null d a as) (h' : Chain next null d a bs) : as = bs := by
  induction as generalizing a bs with
  | nil => exact (h'.eq_nil_iff.mpr h).symm
  | cons b as ih =>
      cases bs with
      | nil => exact absurd (h.1.symm.trans h') h.2.1
      | cons c bs =>
          obtain rfl : b = c := h.1.symm.trans h'.1
          rw [ih h.2.2 h'.2.2]

theorem Chain.congr (h : Chain next null d a bs) (hd : ∀ b ∈ bs, next (d' b) = next (d b)) :
    Chain next null d' a bs := by
  induction bs generalizing a with
  | nil => exact h
  | cons b bs ih =>
      refine ⟨h.1, h.2.1, ?_⟩
      rw [hd b List.mem_cons_self]
      exact ih h.2.2 fun c hc => hd c (List.mem_cons_of_mem b hc)

theorem Chain.update (h : Chain next null d a bs) (hb : b ∉ bs) (x : β) :
    Chain next null (Function.update d b x) a bs := by
  refine h.congr fun c hc => ?_
  have hne : c ≠ b := fun e => hb (e ▸ hc)
  rw [Function.update_of_ne hne]

theorem Chain.push (h : Chain next null d (next x) bs) (hb : b ∉ bs) (hn : b ≠ null) :
    Chain next null (Function.update d b x) b (b :: bs) := by
  refine ⟨rfl, hn, ?_⟩
  rw [Function.update_self]
  exact h.update hb x

theorem Chain.suffix (h : Chain next null d a (as ++ b :: bs)) :
    Chain next null d b (b :: bs) := by
  induction as generalizing a with
  | nil => exact ⟨rfl, h.2.1, h.2.2⟩
  | cons c as ih => exact ih h.2.2

theorem Chain.next_suffix (h : Chain next null d a (as ++ b :: bs)) :
    Chain next null d (next (d b)) bs := h.suffix.2.2

theorem Chain.nodup (h : Chain next null d a bs) : bs.Nodup := by
  induction bs generalizing a with
  | nil => exact List.nodup_nil
  | cons b bs ih =>
      refine List.nodup_cons.mpr ⟨fun hb => ?_, ih h.2.2⟩
      obtain ⟨as, cs, rfl⟩ := List.append_of_mem hb
      have hb : Chain next null d b (b :: (as ++ b :: cs)) := ⟨rfl, h.2.1, h.2.2⟩
      have heq := hb.unique h.2.2.suffix
      have hlen := congrArg List.length heq
      simp only [List.length_cons, List.length_append] at hlen
      omega

/-- The chain that ends in `b` is joined to another one by a new next address in `b`. -/
theorem Chain.join (h : Chain next null d a (as ++ [b])) (h' : Chain next null d (next x) cs)
    (hdisj : ∀ c ∈ cs, c ∉ as ++ [b]) :
    Chain next null (Function.update d b x) a (as ++ b :: cs) := by
  have hb : b ∉ cs := fun hc => hdisj b hc (List.mem_append_right as List.mem_cons_self)
  have hnodup := h.nodup
  induction as generalizing a with
  | nil =>
      refine ⟨h.1, h.2.1, ?_⟩
      rw [Function.update_self]
      exact h'.update hb x
  | cons c as ih =>
      have hne : c ≠ b := by
        rintro rfl
        exact (List.nodup_cons.mp hnodup).1 (List.mem_append_right as List.mem_cons_self)
      refine ⟨h.1, h.2.1, ?_⟩
      rw [Function.update_of_ne hne]
      refine ih h.2.2 (fun e he hmem => ?_) (List.nodup_cons.mp hnodup).2
      exact hdisj e he (List.mem_cons_of_mem c hmem)

/-! ## The items of a chain -/

variable {α : Type*} {items : β → List α}

def contents (items : β → List α) (d : ℕ → β) (bs : List ℕ) : List α :=
  bs.flatMap fun b => items (d b)

@[simp] theorem contents_nil : contents items d [] = [] := rfl

@[simp] theorem contents_cons :
    contents items d (b :: bs) = items (d b) ++ contents items d bs := rfl

@[simp] theorem contents_append :
    contents items d (as ++ bs) = contents items d as ++ contents items d bs :=
  List.flatMap_append

theorem contents_congr (h : ∀ b ∈ bs, items (d' b) = items (d b)) :
    contents items d' bs = contents items d bs := by
  induction bs with
  | nil => rfl
  | cons b bs ih =>
      rw [contents_cons, contents_cons, h b List.mem_cons_self,
        ih fun c hc => h c (List.mem_cons_of_mem b hc)]

theorem contents_update (hb : b ∉ bs) (x : β) :
    contents items (Function.update d b x) bs = contents items d bs := by
  refine contents_congr fun c hc => ?_
  have hne : c ≠ b := fun e => hb (e ▸ hc)
  rw [Function.update_of_ne hne]

theorem contents_push (hb : b ∉ bs) (x : β) :
    contents items (Function.update d b x) (b :: bs) = items x ++ contents items d bs := by
  rw [contents_cons, Function.update_self, contents_update hb]

/-- A block that is written with the items that it has leaves the items of the chain. -/
theorem contents_rewrite (hx : items x = items (d b)) (bs : List ℕ) :
    contents items (Function.update d b x) bs = contents items d bs := by
  refine contents_congr fun c _ => ?_
  by_cases hc : c = b
  · rw [hc, Function.update_self, hx]
  · rw [Function.update_of_ne hc]

/-! ## Owners of blocks -/

structure Owners {ι : Type*} (own : ι → List ℕ) (handed : List ℕ) : Prop where
  disjoint : ∀ i j, i ≠ j → ∀ a ∈ own i, a ∉ own j
  handed : ∀ i, ∀ a ∈ own i, a ∈ handed

/-- Some owners exchange blocks and take blocks that have not been handed out. -/
theorem Owners.exchange {ι : Type*} {own own' : ι → List ℕ} {handed fresh : List ℕ}
    (h : Owners own handed) (hfresh : ∀ a ∈ fresh, a ∉ handed) (is : List ι)
    (hsame : ∀ i ∉ is, own' i = own i)
    (hsub : ∀ i ∈ is, ∀ a ∈ own' i, (∃ j ∈ is, a ∈ own j) ∨ a ∈ fresh)
    (hdisj : ∀ i ∈ is, ∀ j ∈ is, i ≠ j → ∀ a ∈ own' i, a ∉ own' j) :
    Owners own' (fresh ++ handed) := by
  -- what an exchanging owner gets, another one does not have
  have hoff {i j : ι} (hi : i ∈ is) (hj : j ∉ is) {a : ℕ} (ha : a ∈ own' i) : a ∉ own j := by
    rcases hsub i hi a ha with ⟨k, hk, hak⟩ | hans
    · exact h.disjoint k j (fun e => hj (e ▸ hk)) a hak
    · exact fun hm => hfresh a hans (h.handed j a hm)
  refine ⟨fun i j hij a ha hm => ?_, fun i a ha => ?_⟩
  · by_cases hi : i ∈ is
    · by_cases hj : j ∈ is
      · exact hdisj i hi j hj hij a ha hm
      · rw [hsame j hj] at hm
        exact hoff hi hj ha hm
    · rw [hsame i hi] at ha
      by_cases hj : j ∈ is
      · exact hoff hj hi hm ha
      · rw [hsame j hj] at hm
        exact h.disjoint i j hij a ha hm
  · by_cases hi : i ∈ is
    · rcases hsub i hi a ha with ⟨k, -, hak⟩ | hans
      · exact List.mem_append_right fresh (h.handed k a hak)
      · exact List.mem_append_left handed hans
    · rw [hsame i hi] at ha
      exact List.mem_append_right fresh (h.handed i a ha)

end BlockChain
