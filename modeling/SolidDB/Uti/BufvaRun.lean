import SolidDB.Uti.BufvaHolds

/-!
# Programs on buffers

A program keeps buffers on one heap and calls the operations in any order. The plain state has for
each buffer its size, its data, and whether a block holds the data.
-/

namespace SolidDB.Bufva

open BlockHeap

inductive BufOp where
  | init (size : ℕ)
  | done (i : ℕ)
  | setva (i : ℕ) (w : Option (List UInt8))
  | setdata (i : ℕ) (d : List UInt8)
  | appdata (i : ℕ) (d : List UInt8)
  | appva (i : ℕ) (w : List UInt8)
  | vtplAppva (i : ℕ) (w : List UInt8)
  | vtplAppdataAsVa (i : ℕ) (d : List UInt8)
  | vtplAppvawithincrement (i : ℕ) (w : List UInt8)
  | move (i j : ℕ)

/-- `vas` are the v-attributes of the callers that `bufvtpl_appvawithincrement` has written to, as
it leaves them. -/
structure BufState where
  bufs : List (List Cell)
  heap : Heap
  vas : List (List Cell)

namespace BufState

def empty : BufState := ⟨[], Heap.empty, []⟩

def update (s : BufState) (i : ℕ)
    (f : List Cell → ℕ → Heap → Option (List Cell × Heap)) : Option BufState := do
  let buf ← s.bufs[i]?
  let (buf, h) ← f buf buf.length s.heap
  some ⟨s.bufs.set i buf, h, s.vas⟩

def step (s : BufState) : BufOp → Option BufState
  | .init size => do
      let buf ← bufvaInit (List.replicate size .undef)
      some ⟨s.bufs ++ [buf], s.heap, s.vas⟩
  | .done i => s.update i bufvaDone
  | .setva i w => s.update i fun buf size =>
      bufvaSetva buf size (w.map fun w => bytes (encVa w))
  | .setdata i d => s.update i fun buf size => bufvaSetdata buf size (bytes d) d.length
  | .appdata i d => s.update i fun buf size => bufvaAppdata buf size (bytes d) d.length
  | .appva i w => s.update i fun buf size => bufvaAppva buf size (bytes (encVa w))
  | .vtplAppva i w => s.update i fun buf size => bufvtplAppva buf size (bytes (encVa w))
  | .vtplAppdataAsVa i d => s.update i fun buf size =>
      bufvtplAppdataAsVa buf size (bytes d) d.length
  | .vtplAppvawithincrement i w => do
      let buf ← s.bufs[i]?
      let (buf, va, h) ← bufvtplAppvawithincrement buf buf.length (bytes (encVa w)) s.heap
      some ⟨s.bufs.set i buf, h, s.vas ++ [va]⟩
  | .move i j => do
      let dest ← s.bufs[i]?
      let src ← s.bufs[j]?
      let (dest, src, h) ← bufvaMove dest dest.length src src.length s.heap
      some ⟨(s.bufs.set i dest).set j src, h, s.vas⟩

def run (s : BufState) (ops : List BufOp) : Option BufState := ops.foldlM step s

end BufState

/-! ## The plain state -/

structure Slot where
  size : ℕ
  data : List UInt8
  block : Bool

namespace Slot

def init (size : ℕ) : Slot := ⟨size, [], false⟩

def set (s : Slot) (d : List UInt8) : Slot := ⟨s.size, d, decide (s.size ≤ d.length)⟩

/-- A block that holds the data is kept for longer data. -/
def append (s : Slot) (d : List UInt8) : Slot :=
  ⟨s.size, s.data ++ d, s.block || decide (s.size ≤ s.data.length + d.length)⟩

def clear (s : Slot) : Slot := ⟨s.size, [], false⟩

def moveFrom (dest src : Slot) : Slot :=
  ⟨dest.size, src.data, src.block || decide (dest.size ≤ src.data.length)⟩

end Slot

namespace BufOp

def apply (slots : List Slot) : BufOp → List Slot
  | .init size => slots ++ [Slot.init size]
  | .done i => slots.modify i Slot.clear
  | .setva i w => slots.modify i fun s => s.set (w.getD [])
  | .setdata i d => slots.modify i fun s => s.set d
  | .appdata i d => slots.modify i fun s => s.append d
  | .appva i w => slots.modify i fun s => s.append w
  | .vtplAppva i w => slots.modify i fun s => s.append (encVa w)
  | .vtplAppdataAsVa i d => slots.modify i fun s => s.append (encVa d)
  | .vtplAppvawithincrement i w => slots.modify i fun s => s.append (encVa (w ++ [0]))
  | .move i j =>
      match slots[i]?, slots[j]? with
      | some dest, some src => (slots.set i (dest.moveFrom src)).set j src.clear
      | _, _ => slots

def lent : BufOp → List (List Cell)
  | .vtplAppvawithincrement _ w => [bytes (encVa w)]
  | _ => []

def Room (slots : List Slot) (i n : ℕ) : Prop :=
  ∃ slot, slots[i]? = some slot ∧ slot.data.length + n < 2 ^ 32

/-- What the callers promise: a buffer of a legal size, data that a v-attribute can have, and two
buffers for a move. -/
def Legal (slots : List Slot) : BufOp → Prop
  | .init size => bufvaMinbufsize ≤ size ∧ size ≤ bufvaMaxbufsize
  | .done i => i < slots.length
  | .setva i w => i < slots.length ∧ (encVa (w.getD [])).length < 2 ^ 32
  | .setdata i d => i < slots.length ∧ (encVa d).length < 2 ^ 32
  | .appdata i d => Room slots i d.length
  | .appva i w => Room slots i w.length
  | .vtplAppva i w => Room slots i (encVa w).length
  | .vtplAppdataAsVa i d => Room slots i (encVa d).length
  | .vtplAppvawithincrement i w => Room slots i (encVa (w ++ [0])).length
  | .move i j => i < slots.length ∧ j < slots.length ∧ i ≠ j

/-- A move to a buffer with a block, of data that the source holds itself and the destination
cannot. -/
def Fails (slots : List Slot) : BufOp → Prop
  | .move i j => ∃ dest src, slots[i]? = some dest ∧ slots[j]? = some src ∧
      dest.block = true ∧ src.block = false ∧ dest.size ≤ src.data.length
  | _ => False

end BufOp

def LegalRun : List Slot → List BufOp → Prop
  | _, [] => True
  | slots, op :: ops => op.Legal slots ∧ LegalRun (op.apply slots) ops

def Sound : List Slot → List BufOp → Prop
  | _, [] => True
  | slots, op :: ops => ¬ op.Fails slots ∧ Sound (op.apply slots) ops

/-! ## What the code keeps -/

/-- The buffers hold the data of the plain state, and each block of the heap belongs to one of
them. -/
structure Represents (s : BufState) (slots : List Slot) (refs : List (Option ℕ)) : Prop where
  owned : s.heap.Owned refs
  length_bufs : s.bufs.length = slots.length
  length_refs : refs.length = slots.length
  holds : ∀ {i : ℕ} {slot : Slot} {buf : List Cell} {r : Option ℕ}, slots[i]? = some slot →
    s.bufs[i]? = some buf → refs[i]? = some r →
      buf.length = slot.size ∧ BufSize buf ∧ BufHolds s.heap slot.data buf r ∧
        (r.isSome ↔ slot.block = true)

variable {s s' : BufState} {slots : List Slot} {refs : List (Option ℕ)} {slot slot' : Slot}
  {i j : ℕ} {ops : List BufOp} {op : BufOp}

theorem Represents.get (hrep : Represents s slots refs) (hi : slots[i]? = some slot) :
    ∃ buf r, s.bufs[i]? = some buf ∧ refs[i]? = some r := by
  have hlt := (List.getElem?_eq_some_iff.mp hi).1
  exact ⟨_, _, List.getElem?_eq_getElem (hrep.length_bufs ▸ hlt),
    List.getElem?_eq_getElem (hrep.length_refs ▸ hlt)⟩

theorem eq_of_getElem?_set {β : Type*} {l : List β} {x y : β} (h : (l.set i x)[i]? = some y) :
    y = x := by
  have hlt := (List.getElem?_eq_some_iff.mp h).1
  rw [List.length_set] at hlt
  rw [List.getElem?_set_self hlt, Option.some_inj] at h
  exact h.symm

def SlotHolds (h : Heap) (slot : Slot) (buf : List Cell) (r : Option ℕ) : Prop :=
  buf.length = slot.size ∧ BufSize buf ∧ BufHolds h slot.data buf r ∧
    (r.isSome ↔ slot.block = true)

/-- Where one buffer is set, each holds its data if that one and the others do. -/
theorem holds_set {h : Heap} {bufs : List (List Cell)} {buf' : List Cell} {r' : Option ℕ}
    (hnew : SlotHolds h slot' buf' r')
    (hrest : ∀ {k slot buf r}, k ≠ i → slots[k]? = some slot → bufs[k]? = some buf →
      refs[k]? = some r → SlotHolds h slot buf r) {k : ℕ} {buf : List Cell} {r : Option ℕ}
    (hslot : (slots.set i slot')[k]? = some slot) (hbuf : (bufs.set i buf')[k]? = some buf)
    (hr : (refs.set i r')[k]? = some r) : SlotHolds h slot buf r := by
  by_cases hki : k = i
  · subst hki
    rw [eq_of_getElem?_set hslot, eq_of_getElem?_set hbuf, eq_of_getElem?_set hr]
    exact hnew
  · rw [List.getElem?_set_ne (Ne.symm hki)] at hslot hbuf hr
    exact hrest hki hslot hbuf hr

theorem Represents.update (hrep : Represents s slots refs) (hi : slots[i]? = some slot)
    {f : List Cell → ℕ → Heap → Option (List Cell × Heap)} (hsize : slot'.size = slot.size)
    (hf : ∀ buf r, buf.length = slot.size → BufSize buf → BufHolds s.heap slot.data buf r →
      (r.isSome ↔ slot.block = true) →
      Leaves s.heap buf r slot'.data (slot'.block = true) (f buf buf.length s.heap)) :
    ∃ s' refs', s.update i f = some s' ∧ Represents s' (slots.set i slot') refs' := by
  obtain ⟨buf, r, hbuf, hr⟩ := hrep.get hi
  obtain ⟨hlen, hlegal, hold, hblock⟩ := hrep.holds hi hbuf hr
  obtain ⟨buf', h', r', hrun, hlen', hold', hc, hblock'⟩ := hf buf r hlen hlegal hold hblock
  have hilt := (List.getElem?_eq_some_iff.mp hi).1
  refine ⟨⟨s.bufs.set i buf', h', s.vas⟩, refs.set i r', ?_, hrep.owned.set hr hc, ?_, ?_, ?_⟩
  · simp only [BufState.update, hbuf, hrun, Option.bind_eq_bind, Option.bind_some]
  · rw [List.length_set, List.length_set, hrep.length_bufs]
  · rw [List.length_set, List.length_set, hrep.length_refs]
  · intro k slotk bufk rk
    refine holds_set ?_ fun hki hslot hbufk hrk => ?_
    · exact ⟨hlen'.trans (hlen.trans hsize.symm),
        ⟨hlen' ▸ hlegal.minimum, hlen' ▸ hlegal.maximum⟩, hold', hblock'⟩
    · obtain ⟨hlenk, hlegalk, holdk, hblockk⟩ := hrep.holds hslot hbufk hrk
      exact ⟨hlenk, hlegalk, holdk.frame fun p hp => hrep.owned.untouched hr hc hki (hp ▸ hrk),
        hblockk⟩

/-- A move keeps the other buffers, and the block of the source goes to the destination. -/
theorem Represents.move (hrep : Represents s slots refs) {dest src : Slot} (hij : i ≠ j)
    (hi : slots[i]? = some dest) (hj : slots[j]? = some src)
    (hfine : ¬ BufOp.Fails slots (.move i j)) :
    ∃ s' refs', s.step (.move i j) = some s' ∧
      Represents s' ((slots.set i (dest.moveFrom src)).set j src.clear) refs' := by
  obtain ⟨buf, r, hbuf, hr⟩ := hrep.get hi
  obtain ⟨bufj, rj, hbufj, hrj⟩ := hrep.get hj
  obtain ⟨hlen, hlegal, hold, hblock⟩ := hrep.holds hi hbuf hr
  obtain ⟨hlenj, hlegalj, holdj, hblockj⟩ := hrep.holds hj hbufj hrj
  have hother : ∀ p, r = some p → rj ≠ some p := fun p hp hpj =>
    hij (hrep.owned.unique (hp ▸ hr) (hpj ▸ hrj))
  obtain ⟨buf', bufj', h', rd, hrun, hlen', hlenj', hold', holdj', hc, hblock'⟩ :=
    bufvaMove_leaves hlegal hlegalj hrep.owned.bounded hold holdj hother fun hfails =>
      hfine ⟨dest, src, hi, hj, hblock.mp hfails.1, by
        rw [← Bool.not_eq_true, ← hblockj, hfails.2.1]
        exact nofun, hlen ▸ hfails.2.2⟩
  have hilt := (List.getElem?_eq_some_iff.mp hi).1
  have hjlt := (List.getElem?_eq_some_iff.mp hj).1
  have howned : h'.Owned ((refs.set i rd).set j none) := by
    rcases hc with ⟨rfl, hc⟩ | ⟨rfl, hc⟩
    · have hnone : (refs.set i rd)[j]? = some none := by rw [List.getElem?_set_ne hij, hrj]
      obtain ⟨hlt, hget⟩ := List.getElem?_eq_some_iff.mp hnone
      have hsame := List.set_getElem_self hlt
      rw [hget] at hsame
      rw [hsame]
      exact hrep.owned.set hr hc
    · have hfreed := (hrep.owned.set hr hc).transfer hij
        (List.getElem?_set_self (hrep.length_refs ▸ hilt))
        (by rw [List.getElem?_set_ne hij, hrj])
      rwa [List.set_set] at hfreed
  have huntouched : ∀ {k p : ℕ}, k ≠ i → refs[k]? = some (some p) →
      h'.blocks p = s.heap.blocks p := by
    intro k p hk hp
    rcases hc with ⟨-, hc⟩ | ⟨-, hc⟩
    · exact hrep.owned.untouched hr hc hk hp
    · exact hrep.owned.untouched hr hc hk hp
  refine ⟨⟨(s.bufs.set i buf').set j bufj', h', s.vas⟩, _, ?_, howned, ?_, ?_, ?_⟩
  · simp only [BufState.step, hbuf, hbufj, hrun, Option.bind_eq_bind, Option.bind_some]
  · simp only [List.length_set, hrep.length_bufs]
  · simp only [List.length_set, hrep.length_refs]
  · intro k slotk bufk rk
    refine holds_set ?_ fun _ => holds_set ?_ fun hki hslot hbufk hrk => ?_
    · exact ⟨hlenj'.trans hlenj, ⟨hlenj' ▸ hlegalj.minimum, hlenj' ▸ hlegalj.maximum⟩,
        holdj', iff_of_false nofun nofun⟩
    · refine ⟨hlen'.trans hlen, ⟨hlen' ▸ hlegal.minimum, hlen' ▸ hlegal.maximum⟩, hold', ?_⟩
      rw [hblock', hblockj, Slot.moveFrom, Bool.or_eq_true, decide_eq_true_iff, hlen]
    · obtain ⟨hlenk, hlegalk, holdk, hblockk⟩ := hrep.holds hslot hbufk hrk
      exact ⟨hlenk, hlegalk, holdk.frame fun p hp => huntouched hki (hp ▸ hrk), hblockk⟩

theorem Represents.move_freed (hrep : Represents s slots refs)
    (hfails : BufOp.Fails slots (.move i j)) : s.step (.move i j) = none := by
  obtain ⟨dest, src, hi, hj, hdest, hsrc, hlong⟩ := hfails
  obtain ⟨buf, r, hbuf, hr⟩ := hrep.get hi
  obtain ⟨bufj, rj, hbufj, hrj⟩ := hrep.get hj
  obtain ⟨hlen, hlegal, hold, hblock⟩ := hrep.holds hi hbuf hr
  obtain ⟨-, hlegalj, holdj, hblockj⟩ := hrep.holds hj hbufj hrj
  have hrj' : rj = none := by
    rw [← Option.not_isSome_iff_eq_none, hblockj, hsrc]
    exact Bool.false_ne_true
  have hmove := bufvaMove_freed hlegal hlegalj hrep.owned.bounded hold holdj
    ⟨hblock.mpr hdest, hrj', hlen ▸ hlong⟩
  simp only [BufState.step, hbuf, hbufj, hmove, Option.bind_eq_bind, Option.bind_some,
    Option.bind_none]

theorem Represents.init (hrep : Represents s slots refs) {size : ℕ}
    (hlegal : BufOp.Legal slots (.init size)) :
    ∃ s' refs', s.step (.init size) = some s' ∧
      Represents s' (slots ++ [Slot.init size]) refs' := by
  have hsize : BufSize (List.replicate size Cell.undef) :=
    ⟨by rw [List.length_replicate]; exact hlegal.1, by rw [List.length_replicate]; exact hlegal.2⟩
  obtain ⟨buf, hinit, hlen, hold⟩ := bufvaInit_holds hsize s.heap
  refine ⟨⟨s.bufs ++ [buf], s.heap, s.vas⟩, refs ++ [none], ?_, hrep.owned.append_none, ?_, ?_,
    ?_⟩
  · simp only [BufState.step, hinit, Option.bind_eq_bind, Option.bind_some]
  · rw [List.length_append, List.length_append, hrep.length_bufs]
    rfl
  · rw [List.length_append, List.length_append, hrep.length_refs]
    rfl
  · intro k slotk bufk rk hslot hbufk hrk
    by_cases hk : k < slots.length
    · rw [List.getElem?_append_left hk] at hslot
      rw [List.getElem?_append_left (hrep.length_bufs ▸ hk)] at hbufk
      rw [List.getElem?_append_left (hrep.length_refs ▸ hk)] at hrk
      exact hrep.holds hslot hbufk hrk
    · have hlast : k = slots.length := by
        have hlt := (List.getElem?_eq_some_iff.mp hslot).1
        rw [List.length_append, List.length_singleton] at hlt
        omega
      subst hlast
      rw [List.getElem?_concat_length, Option.some_inj] at hslot
      rw [← hrep.length_bufs, List.getElem?_concat_length, Option.some_inj] at hbufk
      rw [← hrep.length_refs, List.getElem?_concat_length, Option.some_inj] at hrk
      subst hslot hbufk hrk
      refine ⟨hlen.trans List.length_replicate, ⟨hlen ▸ hsize.minimum, hlen ▸ hsize.maximum⟩,
        hold, iff_of_false nofun nofun⟩

/-! ## Runs -/

theorem modify_of_getElem? {β : Type*} {l : List β} {x : β} (g : β → β) (hi : l[i]? = some x) :
    l.modify i g = l.set i (g x) := by
  rw [List.modify_eq_set_getElem?, hi]
  rfl

theorem Represents.update_set (hrep : Represents s slots refs) (hi : i < slots.length)
    {d : List UInt8} {f : List Cell → ℕ → Heap → Option (List Cell × Heap)}
    (hf : ∀ slot buf r, slots[i]? = some slot → BufSize buf → BufHolds s.heap slot.data buf r →
      Leaves s.heap buf r d (buf.length ≤ d.length) (f buf buf.length s.heap)) :
    ∃ s' refs', s.update i f = some s' ∧ Represents s' (slots.modify i fun s => s.set d) refs' := by
  have hget := List.getElem?_eq_getElem hi
  rw [modify_of_getElem? _ hget]
  refine hrep.update hget rfl fun buf r hlen hsize hold hblock => ?_
  obtain ⟨buf', h', r', hrun, hlen', hold', hc, hblock'⟩ := hf _ buf r hget hsize hold
  refine ⟨buf', h', r', hrun, hlen', hold', hc, ?_⟩
  rw [hblock', Slot.set, decide_eq_true_iff, hlen]

theorem Represents.update_append (hrep : Represents s slots refs) {d : List UInt8}
    (hroom : BufOp.Room slots i d.length) {f : List Cell → ℕ → Heap → Option (List Cell × Heap)}
    (hf : ∀ slot buf r, slots[i]? = some slot → slot.data.length + d.length < 2 ^ 32 →
      BufSize buf → BufHolds s.heap slot.data buf r →
      Leaves s.heap buf r (slot.data ++ d) (r.isSome ∨ buf.length ≤ slot.data.length + d.length)
        (f buf buf.length s.heap)) :
    ∃ s' refs', s.update i f = some s' ∧
      Represents s' (slots.modify i fun s => s.append d) refs' := by
  obtain ⟨slot, hget, hlt⟩ := hroom
  rw [modify_of_getElem? _ hget]
  refine hrep.update hget rfl fun buf r hlen hsize hold hblock => ?_
  obtain ⟨buf', h', r', hrun, hlen', hold', hc, hblock'⟩ := hf _ buf r hget hlt hsize hold
  refine ⟨buf', h', r', hrun, hlen', hold', hc, ?_⟩
  rw [hblock', hblock, Slot.append, Bool.or_eq_true, decide_eq_true_iff, hlen]

theorem hasVa_bytes (w : List UInt8) : HasVa (bytes (encVa w)) w := ⟨[], (List.append_nil _).symm⟩

theorem bytes_append_nil (d : List UInt8) : bytes d = bytes d ++ [] := (List.append_nil _).symm

theorem Represents.with_vas (hrep : Represents s slots refs) (vas : List (List Cell)) :
    Represents { s with vas := vas } slots refs :=
  ⟨hrep.owned, hrep.length_bufs, hrep.length_refs, hrep.holds⟩

theorem Represents.appvawithincrement (hrep : Represents s slots refs) {w : List UInt8}
    (hlegal : BufOp.Legal slots (.vtplAppvawithincrement i w)) :
    ∃ s' refs', s.step (.vtplAppvawithincrement i w) =
        some { s' with vas := s.vas ++ [bytes (encVa w)] } ∧
      Represents s' (BufOp.apply slots (.vtplAppvawithincrement i w)) refs' := by
  have hleaves (slot : Slot) (buf : List Cell) (r : Option ℕ)
      (hlt : slot.data.length + (encVa (w ++ [0])).length < 2 ^ 32) (hsize : BufSize buf)
      (hold : BufHolds s.heap slot.data buf r) :=
    bufvtplAppvawithincrement_leaves hsize hrep.owned.bounded hold (fun p hp => by
      obtain ⟨mem, hat, -⟩ := (hp ▸ hold).block
      rw [hat]
      rfl) (hasVa_bytes w) hlt
  obtain ⟨s', refs', hrun, hrep'⟩ := hrep.update_append hlegal
    (f := fun buf size h => (bufvtplAppvawithincrement buf size (bytes (encVa w)) h).map
      fun res => (res.1, res.2.2))
    fun slot buf r _ hlt hsize hold => by
      obtain ⟨buf', h', r', hrun, hkept⟩ := hleaves slot buf r hlt hsize hold
      exact ⟨buf', h', r', by rw [hrun]; rfl, hkept⟩
  obtain ⟨slot, hget, hlt⟩ := hlegal
  obtain ⟨buf, r, hbuf, hr⟩ := hrep.get hget
  obtain ⟨-, hsize, hold, -⟩ := hrep.holds hget hbuf hr
  obtain ⟨buf', h', r', happ, -⟩ := hleaves slot buf r hlt hsize hold
  refine ⟨s', refs', ?_, hrep'⟩
  simp only [BufState.update, hbuf, happ, Option.map_some, Option.bind_eq_bind,
    Option.bind_some, Option.some_inj] at hrun
  simp only [BufState.step, hbuf, happ, Option.bind_eq_bind, Option.bind_some, ← hrun]

/-- A legal call that does not fail leaves the plain state after the call. -/
theorem Represents.step (hrep : Represents s slots refs) (hlegal : op.Legal slots)
    (hfine : ¬ op.Fails slots) :
    ∃ s' refs', s.step op = some s' ∧ Represents s' (op.apply slots) refs' := by
  have hb := hrep.owned.bounded
  cases op with
  | init size => exact hrep.init hlegal
  | done i =>
      have hget := List.getElem?_eq_getElem (show i < slots.length from hlegal)
      rw [BufOp.apply, modify_of_getElem? _ hget]
      refine hrep.update hget rfl fun buf r hlen hsize hold hblock => ?_
      obtain ⟨buf', h', hrun, hlen', hold', hc⟩ := bufvaDone_leaves hsize hb hold
      exact ⟨buf', h', none, hrun, hlen', hold', hc, iff_of_false nofun nofun⟩
  | setva i w =>
      rw [BufState.step, BufOp.apply]
      refine hrep.update_set hlegal.1 fun slot buf r _ hsize hold => ?_
      refine bufvaSetva_leaves hsize hb hold ?_ hlegal.2
      cases w with
      | none => exact hasVa_null
      | some w => exact hasVa_bytes w
  | setdata i d =>
      rw [BufState.step, BufOp.apply]
      exact hrep.update_set hlegal.1 fun slot buf r _ hsize hold =>
        bufvaSetdata_leaves hsize hb hold (bytes_append_nil d) hlegal.2
  | appdata i d =>
      rw [BufState.step, BufOp.apply]
      exact hrep.update_append hlegal fun slot buf r _ hlt hsize hold =>
        bufvaAppdata_leaves hsize hb hold (bytes_append_nil d) hlt
  | appva i w =>
      rw [BufState.step, BufOp.apply]
      exact hrep.update_append hlegal fun slot buf r _ hlt hsize hold =>
        bufvaAppva_leaves hsize hb hold (hasVa_bytes w) hlt
  | vtplAppva i w =>
      rw [BufState.step, BufOp.apply]
      exact hrep.update_append hlegal fun slot buf r _ hlt hsize hold =>
        bufvtplAppva_leaves hsize hb hold (hasVa_bytes w) hlt
  | vtplAppdataAsVa i d =>
      rw [BufState.step, BufOp.apply]
      exact hrep.update_append hlegal fun slot buf r _ hlt hsize hold =>
        bufvtplAppdataAsVa_leaves hsize hb hold (bytes_append_nil d) hlt
  | vtplAppvawithincrement i w =>
      obtain ⟨s', refs', hrun, hrep'⟩ := hrep.appvawithincrement hlegal
      exact ⟨_, refs', hrun, hrep'.with_vas _⟩
  | move i j =>
      have hi := List.getElem?_eq_getElem hlegal.1
      have hj := List.getElem?_eq_getElem hlegal.2.1
      obtain ⟨s', refs', hstep, hrep'⟩ := hrep.move hlegal.2.2 hi hj hfine
      refine ⟨s', refs', hstep, ?_⟩
      rw [BufOp.apply, hi, hj]
      exact hrep'

theorem Represents.step_none (hrep : Represents s slots refs) (hfails : op.Fails slots) :
    s.step op = none := by
  cases op with
  | move i j => exact hrep.move_freed hfails
  | _ => exact absurd hfails id

theorem BufState.vas_update {f : List Cell → ℕ → Heap → Option (List Cell × Heap)}
    (h : s.update i f = some s') : s'.vas = s.vas := by
  obtain ⟨buf, -, h⟩ := Option.bind_eq_some_iff.mp h
  obtain ⟨res, -, h⟩ := Option.bind_eq_some_iff.mp h
  obtain rfl := Option.some_inj.mp h
  rfl

/-- A legal call leaves the v-attributes of the callers as they were. -/
theorem Represents.vas_step (hrep : Represents s slots refs) (hlegal : op.Legal slots)
    (hstep : s.step op = some s') : s'.vas = s.vas ++ op.lent := by
  cases op with
  | init size =>
      obtain ⟨buf, -, hstep⟩ := Option.bind_eq_some_iff.mp hstep
      obtain rfl := Option.some_inj.mp hstep
      exact (List.append_nil _).symm
  | vtplAppvawithincrement i w =>
      obtain ⟨s₁, refs₁, hrun, -⟩ := hrep.appvawithincrement hlegal
      obtain rfl := Option.some_inj.mp (hrun.symm.trans hstep)
      rfl
  | move i j =>
      obtain ⟨dest, -, hstep⟩ := Option.bind_eq_some_iff.mp hstep
      obtain ⟨src, -, hstep⟩ := Option.bind_eq_some_iff.mp hstep
      obtain ⟨res, -, hstep⟩ := Option.bind_eq_some_iff.mp hstep
      obtain rfl := Option.some_inj.mp hstep
      exact (List.append_nil _).symm
  | _ =>
      rw [BufState.step] at hstep
      exact (BufState.vas_update hstep).trans (List.append_nil _).symm

/-- A run keeps the plain state, unless it stops at a call that fails. -/
theorem Represents.run (hrep : Represents s slots refs) (hlegal : LegalRun slots ops) :
    (Sound slots ops → ∃ s' refs', s.run ops = some s' ∧
      Represents s' (ops.foldl BufOp.apply slots) refs' ∧
      s'.vas = s.vas ++ ops.flatMap BufOp.lent) ∧
    (¬ Sound slots ops → s.run ops = none) := by
  induction ops generalizing s slots refs with
  | nil =>
      exact ⟨fun _ => ⟨s, refs, rfl, hrep, (List.append_nil _).symm⟩,
        fun hsound => absurd trivial hsound⟩
  | cons op ops ih =>
      have hcons : s.run (op :: ops) = (s.step op).bind fun s => s.run ops := List.foldlM_cons
      by_cases hfails : op.Fails slots
      · rw [hcons, hrep.step_none hfails]
        exact ⟨fun hsound => absurd hfails hsound.1, fun _ => rfl⟩
      · obtain ⟨s', refs', hstep, hrep'⟩ := hrep.step hlegal.1 hfails
        obtain ⟨hrun, hnone⟩ := ih hrep' hlegal.2
        rw [hcons, hstep]
        refine ⟨fun hsound => ?_, fun hsound => hnone fun hrest => hsound ⟨hfails, hrest⟩⟩
        obtain ⟨s₂, refs₂, hrun₂, hrep₂, hvas⟩ := hrun hsound.2
        refine ⟨s₂, refs₂, hrun₂, hrep₂, ?_⟩
        rw [hvas, hrep.vas_step hlegal.1 hstep, List.append_assoc, List.flatMap_cons]

theorem represents_empty : Represents BufState.empty [] [] where
  owned := ⟨nofun, nofun, nofun, nofun⟩
  length_bufs := rfl
  length_refs := rfl
  holds := nofun

def BufState.Reads (s : BufState) (slots : List Slot) : Prop :=
  ∀ (i : ℕ) (slot : Slot), slots[i]? = some slot → ∃ buf va, s.bufs[i]? = some buf ∧
    bufvaGetva buf buf.length s.heap = some va ∧ HasVa va slot.data

theorem Represents.reads (hrep : Represents s slots refs) : s.Reads slots := by
  intro i slot hi
  obtain ⟨buf, r, hbuf, hr⟩ := hrep.get hi
  obtain ⟨-, hsize, hold, -⟩ := hrep.holds hi hbuf hr
  obtain ⟨va, hget, hva⟩ := bufvaGetva_spec hsize hold
  exact ⟨buf, va, hbuf, hget, hva⟩

/-- A block of twenty bytes goes to a buffer of the same size, and the buffer it came from gets a
v-attribute with an increment. -/
def movesBlock : List BufOp :=
  [.init 16, .init 16, .appdata 0 (List.replicate 20 1), .move 1 0, .vtplAppvawithincrement 0 [5]]

def movesToShorter : List BufOp :=
  [.init 16, .appdata 0 (List.replicate 20 1), .init 40, .setdata 1 (List.replicate 20 2),
    .move 0 1]

end SolidDB.Bufva
