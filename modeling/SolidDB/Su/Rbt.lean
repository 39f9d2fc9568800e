import SolidDB.Foundation.RedBlack
import Mathlib.Algebra.Order.Group.Int

/-!
# The red-black tree

`su0rbtr.c`: nodes with links to both children and to the parent, and a sentinel in place of
missing nodes. The mirrored branches of the source are written once with the side as a
parameter. The loops get a bound for the number of rounds and give `none` when it is reached.
-/

namespace SolidDB

variable {K S : Type*}

/-- `su_rbt_t` with the nodes at all addresses. `rnChild` is `rn_left` and `rn_right`. -/
structure Rbt (K : Type*) where
  rnChild : Side → ℕ → ℕ
  rnP : ℕ → ℕ
  rnColor : ℕ → RbColor
  rnKey : ℕ → K
  rbtRoot : ℕ
  rbtNil : ℕ
  rbtNelems : ℕ

namespace Rbt

def setChild (d : Side) (x v : ℕ) (s : Rbt K) : Rbt K :=
  { s with rnChild := fun e a => if e = d ∧ a = x then v else s.rnChild e a }

def setP (x v : ℕ) (s : Rbt K) : Rbt K :=
  { s with rnP := fun a => if a = x then v else s.rnP a }

def setColor (x : ℕ) (c : RbColor) (s : Rbt K) : Rbt K :=
  { s with rnColor := fun a => if a = x then c else s.rnColor a }

def setRoot (x : ℕ) (s : Rbt K) : Rbt K := { s with rbtRoot := x }

/-- `su_rbt_inittwocmp`: the sentinel is at the given address. -/
def init (nil : ℕ) (null : K) : Rbt K where
  rnChild _ _ := nil
  rnP _ := nil
  rnColor _ := .black
  rnKey _ := null
  rbtRoot := nil
  rbtNil := nil
  rbtNelems := 0

/-! ## Walks -/

/-- `tree_minimum` to the left, `tree_maximum` to the right. -/
def treeEnd (d : Side) (s : Rbt K) : ℕ → ℕ → Option ℕ
  | 0, _ => none
  | fuel + 1, x =>
    if s.rnChild d x ≠ s.rbtNil then treeEnd d s fuel (s.rnChild d x) else some x

def treeMinimum (s : Rbt K) (fuel x : ℕ) : Option ℕ := treeEnd .left s fuel x

def treeMaximum (s : Rbt K) (fuel x : ℕ) : Option ℕ := treeEnd .right s fuel x

/-- The loop that climbs from the children on the side `d`. -/
def climb (d : Side) (s : Rbt K) : ℕ → ℕ → ℕ → Option ℕ
  | 0, _, _ => none
  | fuel + 1, x, y =>
    if y ≠ s.rbtNil ∧ x = s.rnChild d y then climb d s fuel y (s.rnP y) else some y

/-- `tree_successor` to the right, `tree_predecessor` to the left. -/
def treeNext (d : Side) (s : Rbt K) (fuel x : ℕ) : Option ℕ :=
  if s.rnChild d x ≠ s.rbtNil then treeEnd d.other s fuel (s.rnChild d x)
  else climb d s fuel x (s.rnP x)

def treeSuccessor (s : Rbt K) (fuel x : ℕ) : Option ℕ := treeNext .right s fuel x

def treePredecessor (s : Rbt K) (fuel x : ℕ) : Option ℕ := treeNext .left s fuel x

def sideOf (cmp : ℤ) : Side := if cmp < 0 then .left else .right

/-- `iterative_tree_search`, with the comparison of the search key with a key. -/
def iterativeTreeSearch (cmp : K → ℤ) (s : Rbt K) : ℕ → ℕ → Option ℕ
  | 0, _ => none
  | fuel + 1, x =>
    if x ≠ s.rbtNil ∧ cmp (s.rnKey x) ≠ 0 then
      iterativeTreeSearch cmp s fuel (s.rnChild (sideOf (cmp (s.rnKey x))) x)
    else some x

/-- `iterative_tree_search_atleast` to the right, `iterative_tree_search_atmost` to the left. -/
def iterativeTreeSearchNear (d : Side) (cmp : K → ℤ) (s : Rbt K) : ℕ → ℕ → Option ℕ
  | 0, _ => none
  | fuel + 1, x =>
    if x ≠ s.rbtNil ∧ cmp (s.rnKey x) ≠ 0 then
      let y := s.rnChild (sideOf (cmp (s.rnKey x))) x
      if y = s.rbtNil then
        if sideOf (cmp (s.rnKey x)) = d then treeNext d s fuel x else some x
      else iterativeTreeSearchNear d cmp s fuel y
    else some x

/-! ## Rotations -/

def adopt (b x : ℕ) (s : Rbt K) : Rbt K := if b ≠ s.rbtNil then s.setP b x else s

def replaceChild (d : Side) (p x y : ℕ) (s : Rbt K) : Rbt K :=
  if p = s.rbtNil then s.setRoot y
  else if x = s.rnChild d p then s.setChild d p y
  else s.setChild d.other p y

/-- `left_rotate` to the left, `right_rotate` to the right. -/
def rotate (d : Side) (x : ℕ) (s : Rbt K) : Rbt K :=
  let y := s.rnChild d.other x
  let s := s.setChild d.other x (s.rnChild d y)
  let s := s.adopt (s.rnChild d y) x
  let s := s.setP y (s.rnP x)
  let s := s.replaceChild d (s.rnP x) x y
  let s := s.setChild d y x
  s.setP x y

/-! ## Insertion -/

/-- The loop of `tree_insert`: the parent of the new node, `some none` for an equal key. -/
def treeInsertLoop (cmp : K → ℤ) (s : Rbt K) : ℕ → ℕ → ℕ → Option (Option ℕ)
  | 0, _, _ => none
  | fuel + 1, y, x =>
    if x ≠ s.rbtNil then
      if cmp (s.rnKey x) = 0 then some none
      else treeInsertLoop cmp s fuel x (s.rnChild (sideOf (cmp (s.rnKey x))) x)
    else some (some y)

/-- `tree_insert`: `some none` when it returns `FALSE`, `none` also for the failed assertion. -/
def treeInsert (icompare : K → K → ℤ) (fuel z : ℕ) (s : Rbt K) : Option (Option (Rbt K)) :=
  (treeInsertLoop (icompare (s.rnKey z)) s fuel s.rbtNil s.rbtRoot).bind fun r =>
    match r with
    | none => some none
    | some y =>
      let s := s.setP z y
      if y = s.rbtNil then some (some (s.setRoot z))
      else if icompare (s.rnKey z) (s.rnKey y) = 0 then none
      else some (some (s.setChild (sideOf (icompare (s.rnKey z) (s.rnKey y))) y z))

/-- The side on which the parent of `x` is below the grandparent. -/
def parentSide (s : Rbt K) (x : ℕ) : Side :=
  if s.rnP x = s.rnChild .left (s.rnP (s.rnP x)) then .left else .right

/-- The loop of `rb_insert`. -/
def rbInsertLoop : ℕ → ℕ → Rbt K → Option (Rbt K)
  | 0, _, _ => none
  | fuel + 1, x, s =>
    if x ≠ s.rbtRoot ∧ s.rnColor (s.rnP x) = .red then
      let d := s.parentSide x
      let y := s.rnChild d.other (s.rnP (s.rnP x))
      if s.rnColor y = .red then
        let s := s.setColor (s.rnP x) .black
        let s := s.setColor y .black
        let s := s.setColor (s.rnP (s.rnP x)) .red
        rbInsertLoop fuel (s.rnP (s.rnP x)) s
      else
        let r := if x = s.rnChild d.other (s.rnP x) then (s.rnP x, s.rotate d (s.rnP x)) else (x, s)
        let x := r.1
        let s := r.2.setColor (r.2.rnP x) .black
        let s := s.setColor (s.rnP (s.rnP x)) .red
        rbInsertLoop fuel x (s.rotate d.other (s.rnP (s.rnP x)))
    else some s

/-- `rb_insert`: `some none` when it returns `FALSE`. -/
def rbInsert (icompare : K → K → ℤ) (fuel x : ℕ) (s : Rbt K) : Option (Option (Rbt K)) :=
  (s.treeInsert icompare fuel x).bind fun r =>
    match r with
    | none => some none
    | some s =>
      (rbInsertLoop fuel x (s.setColor x .red)).map fun s => some (s.setColor s.rbtRoot .black)

/-- `su_rbt_insert2` with a new node at the address `x`: the node, `none` for `NULL`. -/
def suRbtInsert2 (icompare : K → K → ℤ) (fuel x : ℕ) (key : K) (s : Rbt K) :
    Option (Option ℕ × Rbt K) :=
  let s : Rbt K := { s with rnKey := fun a => if a = x then key else s.rnKey a }
  let s := s.setChild .left x s.rbtNil
  let s := s.setChild .right x s.rbtNil
  (s.rbInsert icompare fuel x).map fun r =>
    match r with
    | none => (none, s)
    | some s => (some x, { s with rbtNelems := s.rbtNelems + 1 })

def suRbtInsert (icompare : K → K → ℤ) (fuel x : ℕ) (key : K) (s : Rbt K) :
    Option (Bool × Rbt K) :=
  (s.suRbtInsert2 icompare fuel x key).map fun r => (r.1.isSome, r.2)

/-! ## Deletion -/

/-- The round of `rb_delete_fixup` for a node that is the child on the side `d`: the next node
and the tree. -/
def fixupRound (d : Side) (x : ℕ) (s : Rbt K) : ℕ × Rbt K :=
  let w := s.rnChild d.other (s.rnP x)
  let r : ℕ × Rbt K :=
    if s.rnColor w = .red then
      let s := s.setColor w .black
      let s := s.setColor (s.rnP x) .red
      let s := s.rotate d (s.rnP x)
      (s.rnChild d.other (s.rnP x), s)
    else (w, s)
  let w := r.1
  let s := r.2
  if s.rnColor (s.rnChild d w) = .black ∧ s.rnColor (s.rnChild d.other w) = .black then
    (s.rnP x, s.setColor w .red)
  else
    let r : ℕ × Rbt K :=
      if s.rnColor (s.rnChild d.other w) = .black then
        let s := s.setColor (s.rnChild d w) .black
        let s := s.setColor w .red
        let s := s.rotate d.other w
        (s.rnChild d.other (s.rnP x), s)
      else (w, s)
    let w := r.1
    let s := r.2
    let s := s.setColor w (s.rnColor (s.rnP x))
    let s := s.setColor (s.rnP x) .black
    let s := s.setColor (s.rnChild d.other w) .black
    let s := s.rotate d (s.rnP x)
    (s.rbtRoot, s)

def rbDeleteFixup : ℕ → ℕ → Rbt K → Option (Rbt K)
  | 0, _, _ => none
  | fuel + 1, x, s =>
    if x ≠ s.rbtRoot ∧ s.rnColor x = .black then
      let d := if x = s.rnChild .left (s.rnP x) then Side.left else .right
      rbDeleteFixup fuel (s.fixupRound d x).1 (s.fixupRound d x).2
    else some (s.setColor x .black)

def replaceNode (z y : ℕ) (s : Rbt K) : Rbt K :=
  let s := if s.rnChild .left (s.rnP z) = z then s.setChild .left (s.rnP z) y else s
  let s := if s.rnChild .right (s.rnP z) = z then s.setChild .right (s.rnP z) y else s
  let s := if s.rnP (s.rnChild .left z) = z then s.setP (s.rnChild .left z) y else s
  let s := if s.rnP (s.rnChild .right z) = z then s.setP (s.rnChild .right z) y else s
  let s := s.setChild .left y (s.rnChild .left z)
  let s := s.setChild .right y (s.rnChild .right z)
  let s := s.setP y (s.rnP z)
  let s := s.setColor y (s.rnColor z)
  if s.rbtRoot = z then s.setRoot y else s

/-- The node `y` is taken out, its child `x` comes in its place. -/
def spliceOut (y x : ℕ) (s : Rbt K) : Rbt K :=
  let s := s.setP x (s.rnP y)
  s.replaceChild .left (s.rnP y) y x

/-- `rb_delete`: the node that is removed and the tree. -/
def rbDelete (fuel z : ℕ) (s : Rbt K) : Option (ℕ × Rbt K) :=
  (if s.rnChild .left z = s.rbtNil ∨ s.rnChild .right z = s.rbtNil then some z
    else s.treeSuccessor fuel z).bind fun y =>
    let x := if s.rnChild .left y ≠ s.rbtNil then s.rnChild .left y else s.rnChild .right y
    let s := s.spliceOut y x
    let yColor := s.rnColor y
    let s := if y ≠ z then s.replaceNode z y else s
    if yColor = .black then (rbDeleteFixup fuel x s).map fun s => (z, s) else some (z, s)

/-- `su_rbt_delete`: the key, `none` for `NULL` when the tree has a function to delete keys. -/
def suRbtDelete (hasDelete : Bool) (fuel z : ℕ) (s : Rbt K) : Option (Option K × Rbt K) :=
  let key := if hasDelete then none else some (s.rnKey z)
  (s.rbDelete fuel z).map fun r => (key, { r.2 with rbtNelems := r.2.rbtNelems - 1 })

/-! ## Functions of the interface -/

/-- The sentinel is `NULL` outside. -/
def notNil (s : Rbt K) (x : ℕ) : Option ℕ := if x = s.rbtNil then none else some x

def suRbtSearch (scompare : S → K → ℤ) (fuel : ℕ) (key : S) (s : Rbt K) : Option (Option ℕ) :=
  (s.iterativeTreeSearch (scompare key) fuel s.rbtRoot).map s.notNil

def suRbtSearchAtleast (scompare : S → K → ℤ) (fuel : ℕ) (key : S) (s : Rbt K) :
    Option (Option ℕ) :=
  (s.iterativeTreeSearchNear .right (scompare key) fuel s.rbtRoot).map s.notNil

def suRbtSearchAtmost (scompare : S → K → ℤ) (fuel : ℕ) (key : S) (s : Rbt K) :
    Option (Option ℕ) :=
  (s.iterativeTreeSearchNear .left (scompare key) fuel s.rbtRoot).map s.notNil

/-- `su_rbt_min` without a node. -/
def suRbtMin (fuel : ℕ) (s : Rbt K) : Option (Option ℕ) :=
  if s.rbtRoot = s.rbtNil then some none else (s.treeMinimum fuel s.rbtRoot).map some

/-- `su_rbt_max` without a node. -/
def suRbtMax (fuel : ℕ) (s : Rbt K) : Option (Option ℕ) :=
  if s.rbtRoot = s.rbtNil then some none else (s.treeMaximum fuel s.rbtRoot).map some

def suRbtSucc (fuel x : ℕ) (s : Rbt K) : Option (Option ℕ) :=
  (s.treeSuccessor fuel x).map s.notNil

def suRbtPred (fuel x : ℕ) (s : Rbt K) : Option (Option ℕ) :=
  (s.treePredecessor fuel x).map s.notNil

def suRbtNelems (s : Rbt K) : ℕ := s.rbtNelems

def suRbtDeleteall (hasDelete : Bool) : ℕ → Rbt K → Option (Rbt K)
  | 0, _ => none
  | fuel + 1, s =>
    (s.suRbtMin fuel).bind fun n =>
      match n with
      | none => some s
      | some n => (s.suRbtDelete hasDelete fuel n).bind fun r => suRbtDeleteall hasDelete fuel r.2

end Rbt

end SolidDB
