import SolidDB.Dbe.BkeyOrder

/-!
# Key range search

The range search structure `dbe_bkrs_t`: the range, the begin key of the current
step, and the keys from which the search goes on to the next and to the previous
leaf. Every key is a full key.
-/

namespace SolidDB

section

/-- `dbe_bkrs_t`. The state bits are one field each; `KRS_END` is never set. -/
structure Bkrs where
  krsInit : Bool
  krsBegin : Bool
  krsIsnext : Bool
  krsIsprev : Bool
  krsReset : Bool
  krsKb : List UInt8
  krsKe : List UInt8
  krsKcb : List UInt8
  krsKp : List UInt8
  krsKn : List UInt8
  krsKeOpen : Bool

inductive BkrsRc
  | cont
  | stop
deriving DecidableEq

/-- `dbe_bkey_init`: a leaf key with both numbers and the index zero. -/
def dbeBkeyInit (vtpl : Fields) : List UInt8 :=
  UInt8.ofNat (bkeyLeaf + bkey2longused) :: uint2Store 0 ++ uint4Store 0 ++ uint4Store 0 ++
    encVtpl vtpl

/-- `dbe_bkey_setsearchminvtpl` on a new key: the v-tuple of `va_minint`. -/
def dbeBkeySearchmin : List UInt8 := dbeBkeyInit [[1]]

/-- `dbe_bkey_setsearchmaxvtpl` on a new key: the v-tuple of `va_maxint`. -/
def dbeBkeySearchmax : List UInt8 := dbeBkeyInit [List.replicate 9 255]

/-- `dbe_bkrs_init`. A missing limit is replaced by the least and the greatest
key that a search may use, and a missing end is not open. -/
def dbeBkrsInit (kb ke : Option (List UInt8)) (keOpen : Bool) : Bkrs where
  krsInit := true
  krsBegin := false
  krsIsnext := false
  krsIsprev := false
  krsReset := false
  krsKb := kb.getD dbeBkeySearchmin
  krsKe := ke.getD dbeBkeySearchmax
  krsKcb := kb.getD dbeBkeySearchmin
  krsKp := []
  krsKn := []
  krsKeOpen := ke.isSome && keOpen

def dbeBkrsSetresetkey (krs : Bkrs) (nk : List UInt8) : Bkrs :=
  { krs with
    krsKcb := nk
    krsInit := true
    krsBegin := false
    krsIsnext := false
    krsIsprev := false
    krsReset := true }

def dbeBkrsFixprevstep (krs : Bkrs) : Bkrs :=
  { krs with krsKcb := if krs.krsIsprev then krs.krsKp else krs.krsKb }

/-- `dbe_bkrs_startnextstep`; `none` at the end of the search. -/
def dbeBkrsStartnextstep (krs : Bkrs) : Option Bkrs :=
  if krs.krsInit then some { krs with krsInit := false, krsBegin := true }
  else if krs.krsIsnext then
    some { krs with
      krsKcb := krs.krsKn
      krsIsnext := false
      krsIsprev := false
      -- `DBE_NEXTNODEBUG`
      krsBegin := true }
  else none

/-- `dbe_bkrs_startprevstep`; `none` at the end of the search. -/
def dbeBkrsStartprevstep (krs : Bkrs) : Option Bkrs :=
  if krs.krsInit then some { krs with krsInit := false, krsBegin := true }
  else if krs.krsIsprev then
    some { krs with krsKcb := krs.krsKp, krsIsnext := false, krsIsprev := false }
  else none

/-- `dbe_bkrs_setnextstepbegin`: the key `nk` follows the begin key of the step in
the node and is expanded against it. -/
def dbeBkrsSetnextstepbegin (krs : Bkrs) (nk : List UInt8) : Option Bkrs :=
  (dbeBkeyExpand krs.krsKcb nk).map fun kn =>
    { krs with krsKn := kn, krsIsnext := decide (dbeBkeyCompare kn krs.krsKe < 0) }

def dbeBkrsSetnextstepbeginFk (krs : Bkrs) (fk : List UInt8) : Bkrs :=
  if dbeBkeyCompare fk krs.krsKe < 0 then { krs with krsKn := fk, krsIsnext := true }
  else { krs with krsIsnext := false }

def dbeBkrsSetprevstepbegin (krs : Bkrs) (fk : List UInt8) : Bkrs :=
  if dbeBkeyCompare krs.krsKb fk < 0 then { krs with krsKp := fk, krsIsprev := true }
  else { krs with krsIsprev := false }

def dbeBkrsClearbegin (krs : Bkrs) : Bkrs :=
  let krs := { krs with krsBegin := false }
  if krs.krsReset then dbeBkrsFixprevstep { krs with krsReset := false } else krs

def dbeBkrsCheckrangebegin (krs : Bkrs) (k : List UInt8) : BkrsRc :=
  if krs.krsIsprev ∨ 0 ≤ dbeBkeyCompare k krs.krsKb then .cont else .stop

def dbeBkrsCheckrangeend (krs : Bkrs) (k : List UInt8) : BkrsRc :=
  if krs.krsIsnext then .cont
  else
    let cmp := dbeBkeyCompare k krs.krsKe
    if krs.krsKeOpen ∧ cmp < 0 ∨ ¬ krs.krsKeOpen ∧ cmp ≤ 0 then .cont else .stop

end

/-!
## What a range search step knows

The fields of `dbe_bkrs_t` that count in a state: the next and the previous begin key
only where their state bits are set. Each operation is given by what it does to this
view.
-/

section

abbrev KeyIn (base : ℕ) := { k : Key // k.InWindow base }

variable {base : ℕ}

def KeyIn.rank (k : KeyIn base) : Fields ×ₗ ℕ ×ₗ ℕ := k.1.rank base

theorem KeyIn.compare_neg_iff (k e : KeyIn base) :
    dbeBkeyCompare k.1.bytes e.1.bytes < 0 ↔ k.rank < e.rank :=
  dbeBkeyCompare_neg_iff k.2 e.2

theorem KeyIn.compare_nonpos_iff (k e : KeyIn base) :
    dbeBkeyCompare k.1.bytes e.1.bytes ≤ 0 ↔ k.rank ≤ e.rank :=
  dbeBkeyCompare_nonpos_iff k.2 e.2

theorem KeyIn.compare_nonneg_iff (k e : KeyIn base) :
    0 ≤ dbeBkeyCompare k.1.bytes e.1.bytes ↔ e.rank ≤ k.rank :=
  dbeBkeyCompare_nonneg_iff k.2 e.2

/-- The part of a range search that its state bits make valid. -/
structure KrsView (base : ℕ) where
  kb : KeyIn base
  ke : KeyIn base
  keOpen : Bool
  kcb : KeyIn base
  isbegin : Bool
  isreset : Bool
  next : Option (KeyIn base)
  prev : Option (KeyIn base)

/-- The range search is past its initialization and has the view `v`. -/
structure Bkrs.Shows (krs : Bkrs) (v : KrsView base) : Prop where
  init : krs.krsInit = false
  kb : krs.krsKb = v.kb.1.bytes
  ke : krs.krsKe = v.ke.1.bytes
  keOpen : krs.krsKeOpen = v.keOpen
  kcb : krs.krsKcb = v.kcb.1.bytes
  isbegin : krs.krsBegin = v.isbegin
  isreset : krs.krsReset = v.isreset
  isnext : krs.krsIsnext = v.next.isSome
  kn : ∀ n, v.next = some n → krs.krsKn = n.1.bytes
  isprev : krs.krsIsprev = v.prev.isSome
  kp : ∀ p, v.prev = some p → krs.krsKp = p.1.bytes

def KrsView.setNext (v : KrsView base) (n : KeyIn base) : KrsView base :=
  { v with next := if n.rank < v.ke.rank then some n else none }

def KrsView.setPrev (v : KrsView base) (k : KeyIn base) : KrsView base :=
  { v with prev := if v.kb.rank < k.rank then some k else none }

def KrsView.clearbegin (v : KrsView base) : KrsView base :=
  { v with
    isbegin := false
    isreset := false
    kcb := if v.isreset then v.prev.getD v.kb else v.kcb }

variable {krs : Bkrs} {v : KrsView base}

theorem Bkrs.Shows.setnextstepbeginFk (h : krs.Shows v) (n : KeyIn base) :
    (dbeBkrsSetnextstepbeginFk krs n.1.bytes).Shows (v.setNext n) := by
  have hcmp := KeyIn.compare_neg_iff n v.ke
  rw [← h.ke] at hcmp
  unfold dbeBkrsSetnextstepbeginFk KrsView.setNext
  by_cases hlt : n.rank < v.ke.rank
  · rw [if_pos (hcmp.mpr hlt), if_pos hlt]
    exact { h with
      isnext := rfl
      kn := fun m hm => by
        obtain rfl := Option.some.inj hm
        rfl }
  · rw [if_neg (mt hcmp.mp hlt), if_neg hlt]
    exact { h with
      isnext := rfl
      kn := fun m hm => absurd hm.symm (Option.some_ne_none m) }

theorem Bkrs.Shows.setnextstepbegin (h : krs.Shows v) {n : KeyIn base} {nk : List UInt8}
    (hexp : dbeBkeyExpand v.kcb.1.bytes nk = some n.1.bytes) :
    ∃ krs', dbeBkrsSetnextstepbegin krs nk = some krs' ∧ krs'.Shows (v.setNext n) := by
  have hcmp := KeyIn.compare_neg_iff n v.ke
  rw [← h.ke] at hcmp
  refine ⟨_, by rw [dbeBkrsSetnextstepbegin, h.kcb, hexp, Option.map_some], ?_⟩
  unfold KrsView.setNext
  by_cases hlt : n.rank < v.ke.rank
  · rw [if_pos hlt]
    exact { h with
      kcb := rfl
      isnext := decide_eq_true (hcmp.mpr hlt)
      kn := fun m hm => by
        obtain rfl := Option.some.inj hm
        rfl }
  · rw [if_neg hlt]
    exact { h with
      kcb := rfl
      isnext := decide_eq_false (mt hcmp.mp hlt)
      kn := fun m hm => absurd hm.symm (Option.some_ne_none m) }

theorem Bkrs.Shows.setprevstepbegin (h : krs.Shows v) (k : KeyIn base) :
    (dbeBkrsSetprevstepbegin krs k.1.bytes).Shows (v.setPrev k) := by
  have hcmp := KeyIn.compare_neg_iff v.kb k
  rw [← h.kb] at hcmp
  unfold dbeBkrsSetprevstepbegin KrsView.setPrev
  by_cases hlt : v.kb.rank < k.rank
  · rw [if_pos (hcmp.mpr hlt), if_pos hlt]
    exact { h with
      isprev := rfl
      kp := fun m hm => by
        obtain rfl := Option.some.inj hm
        rfl }
  · rw [if_neg (mt hcmp.mp hlt), if_neg hlt]
    exact { h with
      isprev := rfl
      kp := fun m hm => absurd hm.symm (Option.some_ne_none m) }

theorem Bkrs.Shows.fixprevstep (h : krs.Shows v) :
    (dbeBkrsFixprevstep krs).Shows { v with kcb := v.prev.getD v.kb } :=
  { h with
    kcb := by
      rw [dbeBkrsFixprevstep, h.isprev]
      cases hp : v.prev with
      | none => exact h.kb
      | some p => exact h.kp p hp }

theorem Bkrs.Shows.clearbegin (h : krs.Shows v) :
    (dbeBkrsClearbegin krs).Shows v.clearbegin := by
  unfold dbeBkrsClearbegin KrsView.clearbegin
  have hreset := h.isreset
  cases hr : v.isreset with
  | false =>
      rw [hr] at hreset
      rw [hreset, if_neg Bool.false_ne_true]
      exact { h with isbegin := rfl, isreset := rfl }
  | true =>
      rw [hr] at hreset
      rw [hreset, if_pos rfl]
      have hb : Bkrs.Shows { krs with krsBegin := false, krsReset := false }
          { v with isbegin := false, isreset := false } :=
        { h with isbegin := rfl, isreset := rfl }
      exact hb.fixprevstep

theorem Bkrs.Shows.startnextstep (h : krs.Shows v) :
    match v.next with
    | some n => ∃ krs', dbeBkrsStartnextstep krs = some krs' ∧
        krs'.Shows { v with kcb := n, isbegin := true, next := none, prev := none }
    | none => dbeBkrsStartnextstep krs = none := by
  have hnext := h.isnext
  unfold dbeBkrsStartnextstep
  rw [h.init, if_neg Bool.false_ne_true]
  cases hn : v.next with
  | none =>
      rw [hn] at hnext
      rw [hnext]
      rfl
  | some n =>
      rw [hn] at hnext
      rw [hnext]
      refine ⟨_, rfl, ?_⟩
      exact { h with
        init := rfl
        kcb := h.kn n hn
        isbegin := rfl
        isnext := rfl
        isprev := rfl
        kn := fun m hm => absurd hm.symm (Option.some_ne_none m)
        kp := fun m hm => absurd hm.symm (Option.some_ne_none m) }

theorem Bkrs.Shows.startprevstep (h : krs.Shows v) :
    match v.prev with
    | some p => ∃ krs', dbeBkrsStartprevstep krs = some krs' ∧
        krs'.Shows { v with kcb := p, next := none, prev := none }
    | none => dbeBkrsStartprevstep krs = none := by
  have hprev := h.isprev
  unfold dbeBkrsStartprevstep
  rw [h.init, if_neg Bool.false_ne_true]
  cases hp : v.prev with
  | none =>
      rw [hp] at hprev
      rw [hprev]
      rfl
  | some p =>
      rw [hp] at hprev
      rw [hprev]
      refine ⟨_, rfl, ?_⟩
      exact { h with
        init := rfl
        kcb := h.kp p hp
        isnext := rfl
        isprev := rfl
        kn := fun m hm => absurd hm.symm (Option.some_ne_none m)
        kp := fun m hm => absurd hm.symm (Option.some_ne_none m) }

theorem Bkrs.Shows.checkrangeend (h : krs.Shows v) (k : KeyIn base) :
    dbeBkrsCheckrangeend krs k.1.bytes = .cont ↔
      v.next.isSome = true ∨ if v.keOpen then k.rank < v.ke.rank else k.rank ≤ v.ke.rank := by
  rw [dbeBkrsCheckrangeend, h.isnext, h.ke, h.keOpen]
  have hlt := KeyIn.compare_neg_iff k v.ke
  have hle := KeyIn.compare_nonpos_iff k v.ke
  cases v.next.isSome <;> cases v.keOpen <;> simp [hlt, hle]

theorem Bkrs.Shows.checkrangebegin (h : krs.Shows v) (k : KeyIn base) :
    dbeBkrsCheckrangebegin krs k.1.bytes = .cont ↔
      v.prev.isSome = true ∨ v.kb.rank ≤ k.rank := by
  rw [dbeBkrsCheckrangebegin, h.isprev, h.kb]
  have hle := KeyIn.compare_nonneg_iff k v.kb
  cases v.prev.isSome <;> simp [hle]

end

end SolidDB
