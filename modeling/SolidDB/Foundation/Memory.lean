import Mathlib.Data.List.Basic
import Mathlib.Tactic.Common

/-!
# Byte memories

A memory is a function from addresses. `Holds m a bs` says that the bytes `bs`
stand at `a`. Statements about writes are reduced to it: what is written is
held, and what lies outside the written area stays held.

`copyUp` copies from the lowest address up, one byte after the other. Where the
target does not start inside the source it moves the bytes as if they had been
read at once.
-/

namespace Memory

variable {β : Type*}

abbrev Mem (β : Type*) := ℕ → β

def read (m : Mem β) (a n : ℕ) : List β := (List.range n).map fun i => m (a + i)

def write (m : Mem β) (a : ℕ) (bs : List β) : Mem β :=
  fun x => if a ≤ x then bs.getD (x - a) (m x) else m x

def move (m : Mem β) (dst src n : ℕ) : Mem β := write m dst (read m src n)

def copyUp (m : Mem β) (dst src : ℕ) : ℕ → Mem β
  | 0 => m
  | n + 1 => copyUp (write m dst [m src]) (dst + 1) (src + 1) n

def Holds (m : Mem β) (a : ℕ) (bs : List β) : Prop := read m a bs.length = bs

instance [DecidableEq β] (m : Mem β) (a : ℕ) (bs : List β) :
    Decidable (Holds m a bs) :=
  inferInstanceAs (Decidable (_ = _))

@[simp] theorem length_read (m : Mem β) (a n : ℕ) : (read m a n).length = n := by
  simp [read]

@[simp] theorem getElem_read (m : Mem β) (a n i : ℕ)
    (h : i < (read m a n).length) : (read m a n)[i] = m (a + i) := by
  simp [read]

@[simp] theorem read_zero (m : Mem β) (a : ℕ) : read m a 0 = [] := rfl

theorem read_add (m : Mem β) (a n k : ℕ) :
    read m a (n + k) = read m a n ++ read m (a + n) k := by
  simp [read, List.range_add, Nat.add_assoc, Function.comp_def]

theorem read_congr {m m' : Mem β} {a n : ℕ}
    (h : ∀ x, a ≤ x → x < a + n → m x = m' x) : read m a n = read m' a n := by
  apply List.ext_getElem (by simp)
  intro i hi _
  simp only [length_read] at hi
  rw [getElem_read, getElem_read]
  exact h _ (Nat.le_add_right a i) (by omega)

/-! ## Writes -/

theorem write_of_lt {m : Mem β} {a x : ℕ} {bs : List β} (h : x < a) :
    write m a bs x = m x := by
  simp [write, Nat.not_le.mpr h]

theorem write_of_ge {m : Mem β} {a x : ℕ} {bs : List β}
    (h : a + bs.length ≤ x) : write m a bs x = m x := by
  unfold write
  split
  · have hlen : bs.length ≤ x - a := by omega
    simp [hlen]
  · rfl

theorem write_of_mem {m : Mem β} {a i : ℕ} {bs : List β} (h : i < bs.length) :
    write m a bs (a + i) = bs[i] := by
  simp [write, h]

theorem write_nil (m : Mem β) (a : ℕ) : write m a [] = m := by
  funext x
  simp [write]

theorem write_append (m : Mem β) (a : ℕ) (bs cs : List β) :
    write m a (bs ++ cs) = write (write m a bs) (a + bs.length) cs := by
  funext x
  rcases Nat.lt_or_ge x a with h | h
  · rw [write_of_lt h, write_of_lt (by omega), write_of_lt h]
  · rcases Nat.lt_or_ge x (a + bs.length) with h' | h'
    · obtain ⟨i, rfl⟩ := Nat.exists_eq_add_of_le h
      have hi : i < bs.length := by omega
      rw [write_of_lt h', write_of_mem hi,
        write_of_mem (by rw [List.length_append]; omega),
        List.getElem_append_left hi]
    · rcases Nat.lt_or_ge x (a + bs.length + cs.length) with h'' | h''
      · obtain ⟨i, rfl⟩ := Nat.exists_eq_add_of_le h'
        have hi : i < cs.length := by omega
        rw [write_of_mem hi, Nat.add_assoc,
          write_of_mem (by rw [List.length_append]; omega),
          List.getElem_append_right (by omega)]
        simp
      · rw [write_of_ge (by simp; omega), write_of_ge h'', write_of_ge h']

/-! ## What is held -/

theorem holds_iff (m : Mem β) (a : ℕ) (bs : List β) :
    Holds m a bs ↔ ∀ i, (h : i < bs.length) → m (a + i) = bs[i] := by
  constructor
  · intro h i hi
    have := getElem_read m a bs.length i (by simpa using hi)
    rw [← this]
    exact List.getElem_of_eq h _
  · intro h
    apply List.ext_getElem (by simp)
    intro i hi hi'
    rw [getElem_read]
    exact h i hi'

@[simp] theorem holds_nil (m : Mem β) (a : ℕ) : Holds m a [] := rfl

theorem holds_append (m : Mem β) (a : ℕ) (bs cs : List β) :
    Holds m a (bs ++ cs) ↔ Holds m a bs ∧ Holds m (a + bs.length) cs := by
  unfold Holds
  rw [List.length_append, read_add]
  constructor
  · intro h
    exact List.append_inj h (by simp)
  · rintro ⟨h1, h2⟩
    rw [h1, h2]

theorem holds_write (m : Mem β) (a : ℕ) (bs : List β) :
    Holds (write m a bs) a bs := by
  rw [holds_iff]
  exact fun i hi => write_of_mem hi

/-- The frame rule: a write elsewhere leaves what is held. -/
theorem Holds.write {m : Mem β} {a b : ℕ} {bs cs : List β} (h : Holds m b cs)
    (hdisj : b + cs.length ≤ a ∨ a + bs.length ≤ b) :
    Holds (write m a bs) b cs := by
  rw [holds_iff] at h ⊢
  intro i hi
  rw [← h i hi]
  rcases hdisj with hd | hd
  · exact write_of_lt (by omega)
  · exact write_of_ge (by omega)

theorem Holds.congr {m m' : Mem β} {a : ℕ} {bs : List β} (h : Holds m a bs)
    (hm : ∀ x, a ≤ x → x < a + bs.length → m' x = m x) : Holds m' a bs := by
  unfold Holds at h ⊢
  rw [read_congr hm, h]

theorem Holds.read_eq {m : Mem β} {a : ℕ} {bs : List β} (h : Holds m a bs) :
    read m a bs.length = bs := h

/-- Reading past what is held starts with what is held. -/
theorem Holds.read_add_eq {m : Mem β} {a n : ℕ} {bs : List β}
    (h : Holds m a bs) (hn : bs.length ≤ n) :
    read m a n = bs ++ read m (a + bs.length) (n - bs.length) := by
  obtain ⟨k, rfl⟩ := Nat.exists_eq_add_of_le hn
  rw [read_add, h.read_eq, Nat.add_sub_cancel_left]

theorem read_write_of_disjoint {m : Mem β} {a b n : ℕ} {bs : List β}
    (h : b + n ≤ a ∨ a + bs.length ≤ b) :
    read (write m a bs) b n = read m b n := by
  apply read_congr
  intro x hx hx'
  rcases h with hd | hd
  · exact write_of_lt (by omega)
  · exact write_of_ge (by omega)

/-! ## Moves and copies -/

theorem move_of_holds {m : Mem β} {dst src : ℕ} {bs : List β}
    (h : Holds m src bs) : move m dst src bs.length = write m dst bs := by
  rw [move, h.read_eq]

/-- A copy upwards moves the bytes, unless its target starts inside the
source. -/
theorem copyUp_eq_move {m : Mem β} {dst src n : ℕ}
    (h : dst ≤ src ∨ src + n ≤ dst) :
    copyUp m dst src n = move m dst src n := by
  induction n generalizing m dst src with
  | zero => rw [copyUp, move, read_zero, write_nil]
  | succ n ih =>
      have hread : read (write m dst [m src]) (src + 1) n = read m (src + 1) n :=
        read_write_of_disjoint (by simp; omega)
      have hone : read m src 1 = [m src] := rfl
      rw [copyUp, ih (by omega), move, move, hread, Nat.add_comm n 1, read_add,
        hone, write_append]
      rfl

theorem copyUp_of_holds {m : Mem β} {dst src : ℕ} {bs : List β}
    (h : Holds m src bs) (hd : dst ≤ src ∨ src + bs.length ≤ dst) :
    copyUp m dst src bs.length = write m dst bs := by
  rw [copyUp_eq_move hd, move_of_holds h]

end Memory
