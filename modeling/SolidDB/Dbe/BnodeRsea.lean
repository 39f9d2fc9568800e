import SolidDB.Dbe.BnodeStores

/-!
# Range search in a node

`dbe_bnode_rsea_next` and `dbe_bnode_rsea_prev` move over the keys of a leaf,
`dbe_bnode_rsea_nextnode` and `dbe_bnode_rsea_prevnode` choose the child of an index
node. A node is given by its key records in order, each compressed against the one
before it.
-/

namespace SolidDB

section

/-- `dbe_ret_t`, the values that searches return. -/
inductive DbeRet
  | succ
  | found
  | notfound
  | ended
  | locktuple
deriving DecidableEq

def dbeBkeyGetaddr (k : List UInt8) : ℕ := uint4Load (k.drop 3)

/-! ## In a leaf -/

/-- `dbe_bnode_rsea_t`. The position `nrs_keys` is that of `nrsIndex`. -/
structure BnodeRsea where
  nrsKeys : List (List UInt8)
  nrsIndex : ℕ
  nrsInitialized : Bool
  nrsSaveindex : Option ℕ
  nrsSavekey : Option (List UInt8)

def dbeBnodeRseaInitst (keys : List (List UInt8)) : BnodeRsea where
  nrsKeys := keys
  nrsIndex := 0
  nrsInitialized := false
  nrsSaveindex := none
  nrsSavekey := none

def dbeBnodeRseaDonest (nrs : BnodeRsea) : BnodeRsea := { nrs with nrsSavekey := none }

structure RseaState where
  nrs : BnodeRsea
  krs : Bkrs
  srk : List UInt8

/-- `bnode_rsea_nextorprevinit`; the comparison is missing where no key is found. -/
def bnodeRseaNextorprevinit (s : RseaState) : Option (Option ℤ × RseaState) :=
  let kcb := s.krs.krsKcb
  let krs := dbeBkrsClearbegin s.krs
  if s.nrs.nrsKeys.length = 0 then some (none, { s with krs := krs })
  else
    let (i, cmp, _) := dbeBkeySearchKeys (dbeBkeySearchInit kcb .all) s.nrs.nrsKeys
    let nrs := { s.nrs with nrsIndex := i }
    match nrs.nrsKeys[i]? with
    | some ck =>
        (dbeBkeyExpand kcb ck).map fun srk => (some cmp, { nrs := nrs, krs := krs, srk := srk })
    | none => some (none, { s with nrs := nrs, krs := krs })

/-- The end of `dbe_bnode_rsea_next`: the key is checked against the range end. -/
def rseaCheckend (s : RseaState) : DbeRet × RseaState :=
  match dbeBkrsCheckrangeend s.krs s.srk with
  | .stop => (.ended, s)
  | .cont => (.found, s)

def dbeBnodeRseaNext (s : RseaState) : Option (DbeRet × RseaState) :=
  if !s.nrs.nrsInitialized then
    let s := { s with nrs := { s.nrs with nrsInitialized := true, nrsIndex := 0 } }
    if s.krs.krsBegin then
      (bnodeRseaNextorprevinit s).map fun (cmp, s) =>
        match cmp with
        | some _ => rseaCheckend s
        | none => (.notfound, s)
    else
      -- the first key of a node is not compressed
      match s.nrs.nrsKeys[0]? with
      | some k => some (rseaCheckend { s with srk := k })
      | none => some (.notfound, s)
  else if s.nrs.nrsIndex = s.nrs.nrsKeys.length then some (.notfound, s)
  else
    let s := { s with nrs := { s.nrs with nrsIndex := s.nrs.nrsIndex + 1 } }
    match s.nrs.nrsKeys[s.nrs.nrsIndex]? with
    | some ck => (dbeBkeyExpand s.srk ck).map fun srk => rseaCheckend { s with srk := srk }
    | none => some (.notfound, s)

/-- The walk of `dbe_bnode_rsea_prev` from key `i` over the next `n` keys. The key at
`newSaveindex` is saved as a start for later calls. -/
def rseaWalk (newSaveindex : Option ℕ) : ℕ → ℕ → BnodeRsea → List UInt8 →
    Option (BnodeRsea × List UInt8)
  | 0, _, nrs, srk => some (nrs, srk)
  | n + 1, i, nrs, srk =>
      let nrs :=
        if newSaveindex = some i then
          { nrs with nrsSaveindex := some i, nrsSavekey := some srk }
        else nrs
      nrs.nrsKeys[i + 1]?.bind fun ck =>
        (dbeBkeyExpand srk ck).bind fun srk => rseaWalk newSaveindex n (i + 1) nrs srk

def rseaCheckbegin (s : RseaState) : DbeRet × RseaState :=
  match dbeBkrsCheckrangebegin s.krs s.srk with
  | .stop => (.ended, s)
  | .cont => (.found, s)

/-- The key at the position, reached from the saved key if that is not behind it, else
from the first key of the leaf. -/
def rseaWalkToIndex (nrs : BnodeRsea) : Option (BnodeRsea × List UInt8) :=
  let index := nrs.nrsIndex
  let newSaveindex := if index / 10 * 10 = 0 then none else some (index / 10 * 10)
  let fromFirst := nrs.nrsKeys[0]?.bind (rseaWalk newSaveindex index 0 nrs)
  match nrs.nrsSaveindex with
  | some i =>
      if i ≤ index then nrs.nrsSavekey.bind (rseaWalk none (index - i) i nrs) else fromFirst
  | none => fromFirst

/-- The part of `dbe_bnode_rsea_prev` that moves to the key before the position. -/
def rseaMovetoprev (s : RseaState) : Option (DbeRet × RseaState) :=
  if s.nrs.nrsIndex = 0 then some (.notfound, s)
  else
    (rseaWalkToIndex { s.nrs with nrsIndex := s.nrs.nrsIndex - 1 }).map fun (nrs, srk) =>
      rseaCheckbegin { s with nrs := nrs, srk := srk }

def dbeBnodeRseaPrev (s : RseaState) : Option (DbeRet × RseaState) :=
  if !s.nrs.nrsInitialized && s.krs.krsBegin then
    let s := { s with nrs := { s.nrs with nrsInitialized := true, nrsIndex := 0 } }
    (bnodeRseaNextorprevinit s).bind fun (cmp, s) =>
      match cmp with
      | some cmp => if cmp < 0 then rseaMovetoprev s else some (rseaCheckbegin s)
      | none =>
          if s.nrs.nrsIndex = s.nrs.nrsKeys.length then rseaMovetoprev s
          else some (.ended, s)
  else
    rseaMovetoprev
      (if s.nrs.nrsInitialized then s
        else { s with nrs := { s.nrs with
          nrsInitialized := true, nrsIndex := s.nrs.nrsKeys.length } })

/-! ## In an index node -/

/-- `dbe_bnode_rsea_nextnode`: the address of the child that the begin key of the step
falls into. The key behind it becomes the begin key of the next step. -/
def dbeBnodeRseaNextnode (keys : List (List UInt8)) (krs : Bkrs) : Option (ℕ × Bkrs) :=
  let (pos, cmp, _) := dbeBkeySearchKeys (dbeBkeySearchInit krs.krsKcb .all) keys
  let isFirstKey := pos = 0
  let krs? :=
    if pos + 1 < keys.length ∨ pos + 1 = keys.length ∧ cmp < 0 then
      if isFirstKey then
        if 1 < keys.length then
          keys[0]?.bind fun k => keys[1]?.bind fun nextKey =>
            (dbeDynbkeyExpand k nextKey).map (dbeBkrsSetnextstepbeginFk krs)
        else some krs
      else if cmp = 0 then keys[pos + 1]?.bind (dbeBkrsSetnextstepbegin krs)
      else keys[pos]?.bind (dbeBkrsSetnextstepbegin krs)
    else some krs
  -- the position moves back to the last key that is not above the begin key
  let pos := if ¬ isFirstKey ∧ (cmp < 0 ∨ pos = keys.length) then pos - 1 else pos
  krs?.bind fun krs => keys[pos]?.map fun k =>
    (dbeBkeyGetaddr k, dbeBkrsSetprevstepbegin krs krs.krsKcb)

/-- The loop of `dbe_bnode_rsea_prevnode`: the last key below the begin key, expanded,
and the record behind it. -/
def rseaPrevnodeLoop : DbeBkeySearch → List UInt8 → List (List UInt8) →
    Option (List UInt8 × Option (List UInt8))
  | _, k, [] => some (k, none)
  | ks, k, ck :: cks =>
      let (cmp, ks) := dbeBkeySearchStep ks ck
      if cmp ≤ 0 then some (k, some ck)
      else (dbeBkeyExpandSelf k ck).bind fun k => rseaPrevnodeLoop ks k cks

/-- `dbe_bnode_rsea_prevnode`: the address of the child whose key is the last one below
the begin key of the step. -/
def dbeBnodeRseaPrevnode (keys : List (List UInt8)) (krs : Bkrs) : Option (ℕ × Bkrs) :=
  keys[0]?.bind fun firstKey =>
    (rseaPrevnodeLoop (dbeBkeySearchInit krs.krsKcb .all) firstKey keys).bind
      fun (k, nextKey) =>
        let krs := dbeBkrsSetprevstepbegin krs k
        match nextKey with
        | some ck => (dbeBkeyExpandSelf k ck).map fun fk =>
            (dbeBkeyGetaddr k, dbeBkrsSetnextstepbeginFk krs fk)
        | none => some (dbeBkeyGetaddr k, krs)

end

/-!
## Range search in the block of a leaf

`dbe_bnode_rsea_next` and `dbe_bnode_rsea_prev` over the block of a leaf, with or without
a mismatch array. The cursor has a pointer to the current key, which can be expanded only
forwards; a walk back starts at the first key or at a saved one.
-/

section

open FrontCoding

/-- `dbe_bnode_rsea_t` over a block. Key pointers are offsets from `n_keys`. -/
structure NodeRsea where
  nrsN : Bnode
  nrsKrs : Bkrs
  nrsKeys : ℕ
  nrsIndex : ℕ
  nrsCount : ℕ
  nrsInitialized : Bool
  nrsSaveindex : Option ℕ
  nrsSavepos : ℕ
  nrsSavekey : Option (List UInt8)

structure NodeSearch where
  nrs : NodeRsea
  srk : List UInt8

def nodeRseaInitst (n : Bnode) (krs : Bkrs) : NodeRsea where
  nrsN := n
  nrsKrs := krs
  nrsKeys := bnodeFirstkey n
  nrsIndex := 0
  nrsCount := n.nCount
  nrsInitialized := false
  nrsSaveindex := none
  nrsSavepos := 0
  nrsSavekey := none

/-- `bnode_rsea_nextorprevinit`; the comparison is missing where no key is found. -/
def nodeRseaNextorprevinit (s : NodeSearch) : Option (Option ℤ × NodeSearch) :=
  let kcb := s.nrs.nrsKrs.krsKcb
  let krs := dbeBkrsClearbegin s.nrs.nrsKrs
  if s.nrs.nrsCount = 0 then some (none, { s with nrs := { s.nrs with nrsKrs := krs } })
  else
    let r := bnodeSearch s.nrs.nrsN kcb .all
    let nrs := { s.nrs with nrsIndex := r.pos, nrsKeys := r.keys, nrsKrs := krs }
    if r.pos < nrs.nrsCount then
      (dbeBkeyExpand kcb (nrs.nrsN.key r.keys)).map fun srk => (some r.cmp, ⟨nrs, srk⟩)
    else some (none, { s with nrs := nrs })

/-- The end of `dbe_bnode_rsea_next`: the key is checked against the range end. -/
def nodeCheckend (s : NodeSearch) : DbeRet × NodeSearch :=
  match dbeBkrsCheckrangeend s.nrs.nrsKrs s.srk with
  | .stop => (.ended, s)
  | .cont => (.found, s)

def nodeRseaNext (s : NodeSearch) : Option (DbeRet × NodeSearch) :=
  if !s.nrs.nrsInitialized then
    let s := { s with nrs := { s.nrs with nrsInitialized := true, nrsIndex := 0 } }
    if s.nrs.nrsKrs.krsBegin then
      (nodeRseaNextorprevinit s).map fun (cmp, s) =>
        match cmp with
        | some _ => nodeCheckend s
        | none => (.notfound, s)
    else if s.nrs.nrsIndex = s.nrs.nrsCount then some (.notfound, s)
    else some (nodeCheckend { s with srk := dbeBkeyCopy (s.nrs.nrsN.key s.nrs.nrsKeys) })
  else if s.nrs.nrsIndex = s.nrs.nrsCount then some (.notfound, s)
  else
    let index := s.nrs.nrsIndex + 1
    if index = s.nrs.nrsCount then
      some (.notfound, { s with nrs := { s.nrs with nrsIndex := index } })
    else
      let keys := bnodeNextkey s.nrs.nrsN index s.nrs.nrsKeys
      (dbeBkeyExpand s.srk (s.nrs.nrsN.key keys)).map fun srk =>
        nodeCheckend ⟨{ s.nrs with nrsIndex := index, nrsKeys := keys }, srk⟩

def nodeSave (new : Option ℕ) (i : ℕ) (s : NodeSearch) : NodeSearch :=
  if new = some i then
    { s with nrs :=
      { s.nrs with
        nrsSaveindex := some i
        nrsSavepos := s.nrs.nrsKeys
        nrsSavekey := some s.srk } }
  else s

/-- The walk of `dbe_bnode_rsea_prev` from key `i`, with the number of keys left. -/
def nodeWalk (new : Option ℕ) : ℕ → ℕ → NodeSearch → Option NodeSearch
  | 0, _, s => some s
  | left + 1, i, s =>
      let s := nodeSave new i s
      let keys := bnodeNextkey s.nrs.nrsN (i + 1) s.nrs.nrsKeys
      (dbeBkeyExpand s.srk (s.nrs.nrsN.key keys)).bind fun srk =>
        nodeWalk new left (i + 1) ⟨{ s.nrs with nrsKeys := keys }, srk⟩

def nodeWalkFromFirst (s : NodeSearch) : Option NodeSearch :=
  let index := s.nrs.nrsIndex
  let keys := bnodeFirstkey s.nrs.nrsN
  let new := if index / 10 * 10 = 0 then none else some (index / 10 * 10)
  nodeWalk new index 0 ⟨{ s.nrs with nrsKeys := keys }, dbeBkeyCopy (s.nrs.nrsN.key keys)⟩

def nodeWalkToIndex (s : NodeSearch) : Option NodeSearch :=
  match s.nrs.nrsSaveindex with
  | some i =>
      if i ≤ s.nrs.nrsIndex then
        s.nrs.nrsSavekey.bind fun k =>
          nodeWalk none (s.nrs.nrsIndex - i) i ⟨{ s.nrs with nrsKeys := s.nrs.nrsSavepos }, k⟩
      else nodeWalkFromFirst s
  | none => nodeWalkFromFirst s

/-- The end of `dbe_bnode_rsea_prev`: the key is checked against the range begin. -/
def nodeCheckbegin (s : NodeSearch) : DbeRet × NodeSearch :=
  match dbeBkrsCheckrangebegin s.nrs.nrsKrs s.srk with
  | .stop => (.ended, s)
  | .cont => (.found, s)

/-- The part of `dbe_bnode_rsea_prev` that moves to the key before the position. -/
def nodeMovetoprev (s : NodeSearch) : Option (DbeRet × NodeSearch) :=
  if s.nrs.nrsIndex = 0 then some (.notfound, s)
  else
    (nodeWalkToIndex { s with nrs := { s.nrs with nrsIndex := s.nrs.nrsIndex - 1 } }).map
      nodeCheckbegin

def nodeRseaPrev (s : NodeSearch) : Option (DbeRet × NodeSearch) :=
  if !s.nrs.nrsInitialized && s.nrs.nrsKrs.krsBegin then
    let s := { s with nrs := { s.nrs with nrsInitialized := true, nrsIndex := 0 } }
    (nodeRseaNextorprevinit s).bind fun (cmp, s) =>
      match cmp with
      | some cmp => if cmp < 0 then nodeMovetoprev s else some (nodeCheckbegin s)
      | none =>
          if s.nrs.nrsIndex = s.nrs.nrsCount then nodeMovetoprev s else some (.ended, s)
  else
    nodeMovetoprev
      (if s.nrs.nrsInitialized then s
        else { s with nrs :=
          { s.nrs with nrsInitialized := true, nrsIndex := s.nrs.nrsCount } })

/-! ## What the calls should do -/

inductive RseaCall where
  | next
  | prev
  deriving DecidableEq

def NodeSearch.call (s : NodeSearch) : RseaCall → Option (DbeRet × NodeSearch)
  | .next => nodeRseaNext s
  | .prev => nodeRseaPrev s

def NodeSearch.answer (s : NodeSearch) (c : RseaCall) : Option (DbeRet × ℕ × List UInt8) :=
  (s.call c).map fun r => (r.1, r.2.nrs.nrsIndex, r.2.srk)

def NodeSearch.forget (s : NodeSearch) : NodeSearch :=
  { s with nrs := { s.nrs with nrsSaveindex := none, nrsSavepos := 0, nrsSavekey := none } }

/-- Calls one after the other, as long as they find a key. -/
def NodeSearch.foundRun : NodeSearch → List RseaCall → Option NodeSearch
  | s, [] => some s
  | s, c :: cs =>
      match s.call c with
      | some (.found, s') => s'.foundRun cs
      | _ => none

/-- Where a call should move the cursor over the keys `ks`. The first call begins at the
begin key of the step, if that is set, else at the first or the last key. -/
def cursorMove (ks : List Key) (krs : Bkrs) : Option ℕ → RseaCall → Option ℕ
  | some i, .next => some (i + 1)
  | some i, .prev => if i = 0 then none else some (i - 1)
  | none, .next =>
      if krs.krsBegin then some (compareKeys .all krs.krsKcb (ks.map Key.bytes)).1 else some 0
  | none, .prev =>
      let (i, cmp) :=
        if krs.krsBegin then compareKeys .all krs.krsKcb (ks.map Key.bytes) else (ks.length, 1)
      if cmp = 0 then some i else if i = 0 then none else some (i - 1)

def cursorKey (ks : List Key) (krs : Bkrs) (pos : Option ℕ) (c : RseaCall) :
    Option (ℕ × Key) :=
  (cursorMove ks krs pos c).bind fun i => ks[i]?.map fun x => (i, x)

def krsAccepts (krs : Bkrs) (k : List UInt8) : RseaCall → Prop
  | .next => dbeBkrsCheckrangeend krs k = .cont
  | .prev => dbeBkrsCheckrangebegin krs k = .cont

/-- The call finds a key exactly when there is one within the range, and then stands on it
and returns it; a saved position changes nothing. -/
structure CallExact (ks : List Key) (krs : Bkrs) (pos : Option ℕ) (s : NodeSearch)
    (c : RseaCall) : Prop where
  found : ∃ rc s', s.call c = some (rc, s') ∧
    (rc = .found ↔ ∃ x, cursorKey ks krs pos c = some x ∧ krsAccepts krs x.2.bytes c) ∧
    (rc = .found → ∀ x, cursorKey ks krs pos c = some x →
      s'.nrs.nrsIndex = x.1 ∧ s'.srk = x.2.bytes)
  saved : s.answer c = s.forget.answer c

def RseaExact (n : Bnode) (ks : List Key) (krs : Bkrs) : Prop :=
  ∀ srk calls s, (NodeSearch.mk (nodeRseaInitst n krs) srk).foundRun calls = some s →
    ∀ c, CallExact ks krs (if calls = [] then none else some s.nrs.nrsIndex) s c

end

end SolidDB
