import SolidDB.Dbe.Blst

/-!
# The change list

A change list has its first node in memory, more nodes in a chain of blocks, and perhaps
a copy of the last node. Records go to the first node; a full one is written before the
chain. A list is saved as a chain, and a second list is linked behind the last node.
-/

namespace SolidDB

/-- `dbe_clrecord_t`: the checkpoint number and the address of a replaced block. -/
abbrev Clrecord := ℕ × ℕ

abbrev Clcache := ℕ → Blblock Clrecord

structure Clnode where
  clnDaddr : ℕ
  clnHeader : Blheader
  clnData : ℕ → Clrecord

inductive Lastnode where
  | null
  | firstnode
  | own (n : Clnode)

structure Chlist where
  clBlocksize : Idxblocksize
  clSpareblock : ℕ
  clNextcpnum : ℕ
  clFirstnode : Clnode
  clLastnode : Lastnode

def dbeClnodeCapacity (blocksize : Idxblocksize) : ℕ :=
  (blocksize.val - dbeBlistDataoffset) / 8

theorem dbeClnodeCapacity_pos (blocksize : Idxblocksize) :
    0 < dbeClnodeCapacity blocksize := by
  have hmin := blocksize.minimum
  unfold dbeClnodeCapacity dbeBlistDataoffset
  omega

theorem dbeClnodeCapacity_lt (blocksize : Idxblocksize) :
    dbeClnodeCapacity blocksize < 2 ^ 16 := by
  have hmax := blocksize.maximum
  unfold dbeClnodeCapacity dbeBlistDataoffset
  omega

/-- The image of a node, from `dbe_blh_put` and `dbe_cln_putdata`. -/
def Clnode.block (n : Clnode) : Blblock Clrecord := ⟨n.clnHeader, n.clnData⟩

def clnodeInit (nextcpnum : ℕ) : Clnode where
  clnDaddr := suDaddrNull
  clnHeader := dbeBlhInit .changelist nextcpnum
  clnData := fun _ => (0, 0)

def dbeClRead1node (cache : Clcache) (daddr : ℕ) : Clnode where
  clnDaddr := daddr
  clnHeader := (cache daddr).header
  clnData := (cache daddr).data

def dbeClInit (cache : Clcache) (blocksize : Idxblocksize) (nextCpnum listStart : ℕ) :
    Chlist :=
  let first :=
    if listStart = suDaddrNull then clnodeInit nextCpnum else dbeClRead1node cache listStart
  { clBlocksize := blocksize
    clSpareblock := suDaddrNull
    clNextcpnum := nextCpnum
    clFirstnode := first
    clLastnode := if first.clnHeader.blNext = suDaddrNull then .firstnode else .null }

def Chlist.InPlace (l : Chlist) : Prop :=
  l.clFirstnode.clnDaddr ≠ suDaddrNull ∧ l.clFirstnode.clnHeader.blCpnum = l.clNextcpnum

instance (l : Chlist) : Decidable l.InPlace := inferInstanceAs (Decidable (_ ∧ _))

/-- The first node as `dbe_cl_write1node` writes it. `answer` is the address from
`dbe_fl_alloc_deferch`, whose deferred changes the caller adds later. -/
def write1nodeImage (l : Chlist) (saveDaddr answer : ℕ) : Clnode :=
  if l.InPlace then l.clFirstnode
  else if saveDaddr = suDaddrNull then
    { l.clFirstnode with
      clnDaddr := answer
      clnHeader := { l.clFirstnode.clnHeader with blCpnum := l.clNextcpnum } }
  else { l.clFirstnode with clnDaddr := saveDaddr }

/-- `dbe_cl_write1node`. The written node may become the last node, and then there is a
new first node. -/
def dbeClWrite1node (cache : Clcache) (l : Chlist) (saveDaddr answer : ℕ) :
    Clcache × Chlist :=
  let written := write1nodeImage l saveDaddr answer
  let isLast := match l.clLastnode with
    | .firstnode => true
    | .null => written.clnHeader.blNext = suDaddrNull
    | .own _ => false
  let first := if isLast then clnodeInit l.clNextcpnum else written
  (Function.update cache written.clnDaddr written.block,
    { l with
      clLastnode := if isLast then .own written else l.clLastnode
      clFirstnode := { first with
        clnHeader :=
          { dbeBlhInit .changelist l.clNextcpnum with blNext := written.clnDaddr }
        clnDaddr := suDaddrNull } })

def writeFull (cache : Clcache) (l : Chlist) (answer : ℕ) : Clcache × Chlist :=
  if l.clFirstnode.clnHeader.blNblocks = dbeClnodeCapacity l.clBlocksize then
    dbeClWrite1node cache l suDaddrNull answer
  else (cache, l)

def putRecord (l : Chlist) (r : Clrecord) : Chlist :=
  let n := l.clFirstnode
  { l with clFirstnode := { n with
      clnHeader := { n.clnHeader with blNblocks := (n.clnHeader.blNblocks + 1) % 2 ^ 16 }
      clnData := Function.update n.clnData n.clnHeader.blNblocks r } }

def dbeClAdd (cache : Clcache) (l : Chlist) (r : Clrecord) (answer : ℕ) : Clcache × Chlist :=
  let w := writeFull cache l answer
  (w.1, putRecord w.2 r)

/-- The block of the first node becomes the spare block, else one is allocated. -/
def reserveSpare (l : Chlist) (answer : ℕ) : Chlist :=
  let l' := if l.InPlace ∧ l.clSpareblock = suDaddrNull then
    { l with
      clSpareblock := l.clFirstnode.clnDaddr
      clFirstnode := { l.clFirstnode with clnDaddr := suDaddrNull } }
    else l
  if l'.clSpareblock = suDaddrNull then { l' with clSpareblock := answer } else l'

def dbeClPreparetosave (cache : Clcache) (l : Chlist) (answer answer' : ℕ) :
    Clcache × Chlist :=
  let w := writeFull cache l answer
  (w.1, reserveSpare w.2 answer')

/-- `cl_save_nomutex`: the list, which is empty now, and the start of the chain. -/
def clSave (cache : Clcache) (l : Chlist) (nextCpnum answer : ℕ) : Clcache × Chlist × ℕ :=
  let w := dbeClWrite1node cache l l.clSpareblock answer
  let n := w.2.clFirstnode
  (w.1,
    { w.2 with
      clSpareblock := suDaddrNull
      clNextcpnum := nextCpnum
      clFirstnode := { n with
        clnHeader := { n.clnHeader with blCpnum := nextCpnum, blNext := suDaddrNull } }
      clLastnode := .firstnode },
    n.clnHeader.blNext)

def dbeClSetnextcpnum (l : Chlist) (nextCpnum : ℕ) : Chlist :=
  let n := l.clFirstnode
  { l with
    clNextcpnum := nextCpnum
    clFirstnode := if n.clnDaddr = suDaddrNull then
      { n with clnHeader := { n.clnHeader with blCpnum := nextCpnum } } else n }

/-! ## The iterator -/

inductive CiNode where
  | firstnode
  | lastnode
  | own (n : Clnode)

def ciNode (l : Chlist) : CiNode → Clnode
  | .firstnode => l.clFirstnode
  | .lastnode => match l.clLastnode with
    | .own n => n
    | _ => l.clFirstnode
  | .own n => n

/-- `cl_lastnode` is the node at the address. -/
def lastnodeAt (l : Chlist) (daddr : ℕ) : Bool :=
  match l.clLastnode with
  | .null => false
  | .firstnode => l.clFirstnode.clnDaddr = daddr
  | .own n => n.clnDaddr = daddr

/-- `dbe_ci_nextnode`. A node that is read is the iterator's own, or it is the last node,
which the iterator has moved on; the last block of the chain becomes the last node. The
records are read with the header. -/
def dbeCiNextnode (cache : Clcache) (l : Chlist) (node : CiNode) : Option (Chlist × CiNode) :=
  let nextDaddr := (ciNode l node).clnHeader.blNext
  if nextDaddr = suDaddrNull then none
  else if lastnodeAt l nextDaddr then some (l, .lastnode)
  else
    let read := dbeClRead1node cache nextDaddr
    if read.clnHeader.blNext = suDaddrNull then
      some ({ l with clLastnode := .own read }, .lastnode)
    else match node, l.clLastnode with
      | .lastnode, .own _ => some ({ l with clLastnode := .own read }, .lastnode)
      | _, _ => some (l, .own read)

def dbeCiGetnext (n : Clnode) (pos : ℕ) : Option (Clrecord × ℕ) :=
  if n.clnHeader.blNblocks ≤ pos then none else some (n.clnData pos, pos + 1)

/-- The calls of `dbe_ci_getnext` on one node. -/
def ciGetrest (n : Clnode) : ℕ → ℕ → List Clrecord
  | 0, _ => []
  | k + 1, pos =>
    match dbeCiGetnext n pos with
    | none => []
    | some (r, pos') => r :: ciGetrest n k pos'

/-- An iteration over the nodes from one node on, and the list after it. -/
def ciIterate (cache : Clcache) : ℕ → Chlist → CiNode → Option (List Clrecord × Chlist)
  | 0, _, _ => none
  | fuel + 1, l, node =>
    let n := ciNode l node
    let recs := ciGetrest n n.clnHeader.blNblocks 0
    match dbeCiNextnode cache l node with
    | none => some (recs, l)
    | some (l', node') =>
      (ciIterate cache fuel l' node').map fun res => (recs ++ res.1, res.2)

/-! ## Linking -/

def findLastnode (fuel : ℕ) (cache : Clcache) (l : Chlist) : Option Chlist :=
  match l.clLastnode with
  | .null => (ciIterate cache fuel l .firstnode).map Prod.snd
  | _ => some l

/-- The next address of the last node is set. Without a last node the program fails. -/
def setLastNext (cache : Clcache) (l : Chlist) (tailDaddr : ℕ) : Option (Clcache × Chlist) :=
  match l.clLastnode with
  | .null => none
  | .firstnode =>
    let n := l.clFirstnode
    some (cache, { l with clFirstnode :=
      { n with clnHeader := { n.clnHeader with blNext := tailDaddr } } })
  | .own n =>
    let n' := { n with clnHeader := { n.clnHeader with blNext := tailDaddr } }
    some (Function.update cache n.clnDaddr n'.block, { l with clLastnode := .null })

def dbeClLinktoend (fuel : ℕ) (cache : Clcache) (l : Chlist) (tailDaddr : ℕ) :
    Option (Clcache × Chlist) :=
  if tailDaddr = suDaddrNull then some (cache, l)
  else (findLastnode fuel cache l).bind fun l' => setLastNext cache l' tailDaddr

/-- The tail as `dbe_cl_linktogether` links it: it is saved unless its first node has a
block. -/
def saveTail (cache : Clcache) (tail : Chlist) (answer answer' answer'' : ℕ) :
    Clcache × Chlist × ℕ :=
  if tail.clFirstnode.clnDaddr = suDaddrNull then
    let w := dbeClPreparetosave cache tail answer answer'
    clSave w.1 w.2 w.2.clNextcpnum answer''
  else (cache, tail, tail.clFirstnode.clnDaddr)

def emptyTail (tail : Chlist) : Chlist :=
  { tail with
    clLastnode := .firstnode
    clFirstnode := { tail.clFirstnode with
      clnHeader := dbeBlhInit .changelist tail.clNextcpnum
      clnDaddr := suDaddrNull } }

def takeLastnode (head tail : Chlist) : Chlist :=
  match tail.clLastnode with
  | .own n => { head with clLastnode := .own n }
  | _ => head

/-- `dbe_cl_linktogether`: the head and the tail. -/
def dbeClLinktogether (fuel : ℕ) (cache : Clcache) (head tail : Chlist)
    (answer answer' answer'' : ℕ) : Option (Clcache × Chlist × Chlist) :=
  let w := saveTail cache tail answer answer' answer''
  (dbeClLinktoend fuel w.1 head w.2.2).map fun res =>
    (res.1, takeLastnode res.2 w.2.1, emptyTail w.2.1)

end SolidDB
