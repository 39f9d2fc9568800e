import SolidDB.Dbe.Blst

/-!
# The transaction list

A checkpoint writes pairs of transaction numbers to a list of blocks. A block is filled
from its start and released when it is full, and the next block is linked before it. The
iterator reads the blocks from the last written to the first, and each from its end.
-/

namespace SolidDB

structure FlAnswers where
  daddr : ℕ → ℕ
  injective : Function.Injective daddr
  ne_null : ∀ n, daddr n ≠ suDaddrNull
  ne_zero : ∀ n, daddr n ≠ 0

/-- The blocks as the cache shows them, and how often `dbe_fl_alloc` was called. -/
structure TrxlFile where
  cache : ℕ → Blblock (ℕ × ℕ)
  nalloc : ℕ

/-- `dbe_trxlist_t`. The buffer is that of the reached cache slot. -/
structure Trxlist where
  trxlBlocksize : Idxblocksize
  trxlDaddr : ℕ
  trxlHeader : Blheader
  trxlDiskbuf : Option (ℕ → ℕ × ℕ)

structure TrxlistIter where
  trxlHeader : Blheader
  trxlDiskbuf : ℕ → ℕ × ℕ
  trxlPos : ℕ

def dbeTrxlnodeCapacity (blocksize : Idxblocksize) : ℕ :=
  (blocksize.val - dbeBlistDataoffset) / 8

theorem dbeTrxlnodeCapacity_pos (blocksize : Idxblocksize) :
    0 < dbeTrxlnodeCapacity blocksize := by
  have hmin := blocksize.minimum
  unfold dbeTrxlnodeCapacity dbeBlistDataoffset
  omega

/-- `bl_nblocks` can count the records of a block. -/
theorem dbeTrxlnodeCapacity_lt (blocksize : Idxblocksize) :
    dbeTrxlnodeCapacity blocksize < 2 ^ 16 := by
  have hmax := blocksize.maximum
  unfold dbeTrxlnodeCapacity dbeBlistDataoffset
  omega

def dbeTrxlInit (blocksize : Idxblocksize) (cpnum : ℕ) (type : Blocktype) : Trxlist where
  trxlBlocksize := blocksize
  trxlDaddr := suDaddrNull
  trxlHeader := dbeBlhInit type cpnum
  trxlDiskbuf := none

/-- The first part of `trxl_addlocal`: a block is allocated if none is reached. -/
def trxlReach (fl : FlAnswers) (f : TrxlFile) (l : Trxlist) :
    TrxlFile × Trxlist × (ℕ → ℕ × ℕ) :=
  match l.trxlDiskbuf with
  | some buf => (f, l, buf)
  | none =>
    let daddr := fl.daddr f.nalloc
    ({ f with nalloc := f.nalloc + 1 }, { l with trxlDaddr := daddr }, (f.cache daddr).data)

/-- The block is released with its header, and the next one will be linked to it. -/
def trxlRelease (f : TrxlFile) (l : Trxlist) (buf : ℕ → ℕ × ℕ) : TrxlFile × Trxlist :=
  ({ f with cache := Function.update f.cache l.trxlDaddr ⟨l.trxlHeader, buf⟩ },
    { l with
      trxlHeader := { l.trxlHeader with blNblocks := 0, blNext := l.trxlDaddr }
      trxlDiskbuf := none
      trxlDaddr := suDaddrNull })

/-- The second part of `trxl_addlocal`. -/
def trxlPut (f : TrxlFile) (l : Trxlist) (buf : ℕ → ℕ × ℕ) (r : ℕ × ℕ) :
    TrxlFile × Trxlist :=
  let buf' := Function.update buf l.trxlHeader.blNblocks r
  let nblocks := (l.trxlHeader.blNblocks + 1) % 2 ^ 16
  let l' := { l with
    trxlHeader := { l.trxlHeader with blNblocks := nblocks }, trxlDiskbuf := some buf' }
  if nblocks = dbeTrxlnodeCapacity l.trxlBlocksize then trxlRelease f l' buf' else (f, l')

def trxlAddlocal (fl : FlAnswers) (f : TrxlFile) (l : Trxlist) (r : ℕ × ℕ) :
    TrxlFile × Trxlist :=
  let reached := trxlReach fl f l
  trxlPut reached.1 reached.2.1 reached.2.2 r

/-- `dbe_trxl_save`: the list and its start address. -/
def dbeTrxlSave (f : TrxlFile) (l : Trxlist) : TrxlFile × ℕ :=
  match l.trxlDiskbuf with
  | some buf =>
    if 0 < l.trxlHeader.blNblocks then
      let r := trxlRelease f l buf
      (r.1, r.2.trxlHeader.blNext)
    else (f, l.trxlHeader.blNext)
  | none => (f, l.trxlHeader.blNext)

def trxliReach (f : TrxlFile) (daddr : ℕ) : TrxlistIter where
  trxlHeader := (f.cache daddr).header
  trxlDiskbuf := (f.cache daddr).data
  trxlPos := (f.cache daddr).header.blNblocks

def dbeTrxliInit (f : TrxlFile) (daddr : ℕ) : Option TrxlistIter :=
  if daddr = suDaddrNull ∨ daddr = 0 then none else some (trxliReach f daddr)

/-- `trxli_getnextlocal`. The outer option is for the fuel, the inner one is the
`FALSE` of the end. -/
def trxliGetnextlocal (f : TrxlFile) :
    ℕ → TrxlistIter → Option (Option ((ℕ × ℕ) × TrxlistIter))
  | 0, _ => none
  | fuel + 1, it =>
    if it.trxlPos = 0 then
      if it.trxlHeader.blNext = suDaddrNull then some none
      else trxliGetnextlocal f fuel (trxliReach f it.trxlHeader.blNext)
    else some (some (it.trxlDiskbuf (it.trxlPos - 1), { it with trxlPos := it.trxlPos - 1 }))

/-- `while (dbe_trxli_getnext(...)) body` -/
def trxliForeach {σ : Type*} (f : TrxlFile) (body : σ → ℕ × ℕ → σ) :
    ℕ → Option TrxlistIter → σ → Option σ
  | 0, _, _ => none
  | _ + 1, none, s => some s
  | fuel + 1, some it, s =>
    match trxliGetnextlocal f (fuel + 1) it with
    | none => none
    | some none => some s
    | some (some (r, it')) => trxliForeach f body fuel (some it') (body s r)

/-! ## What a list holds -/

/-- The records of a block in the order of the iterator. -/
def readBack (b : Blblock (ℕ × ℕ)) : List (ℕ × ℕ) := b.records.reverse

namespace Trxlist

def current (l : Trxlist) : List (ℕ × ℕ) :=
  match l.trxlDiskbuf with
  | some buf => recordsUpto buf l.trxlHeader.blNblocks
  | none => []

def blocks (l : Trxlist) (bs : List ℕ) : List ℕ :=
  match l.trxlDiskbuf with
  | some _ => l.trxlDaddr :: bs
  | none => bs

end Trxlist

structure TrxlSaved (f : TrxlFile) (daddr : ℕ) (recs : List (ℕ × ℕ)) (bs : List ℕ) :
    Prop where
  chain : Blchain f.cache daddr bs
  nonempty : ∀ b ∈ bs, 0 < (f.cache b).header.blNblocks
  recs_eq : recs.reverse = BlockChain.contents readBack f.cache bs

structure TrxlHolds (fl : FlAnswers) (f : TrxlFile) (l : Trxlist) (recs : List (ℕ × ℕ))
    (bs : List ℕ) : Prop where
  chain : Blchain f.cache l.trxlHeader.blNext bs
  nonempty : ∀ b ∈ bs, 0 < (f.cache b).header.blNblocks
  recs_eq : recs.reverse = l.current.reverse ++ BlockChain.contents readBack f.cache bs
  none_iff : l.trxlDiskbuf = none ↔ l.trxlHeader.blNblocks = 0
  room : l.trxlHeader.blNblocks < dbeTrxlnodeCapacity l.trxlBlocksize
  nodup : (l.blocks bs).Nodup
  allocated : ∀ b ∈ l.blocks bs, ∃ i < f.nalloc, b = fl.daddr i

variable {fl : FlAnswers} {f f' : TrxlFile} {l : Trxlist} {recs : List (ℕ × ℕ)}
  {bs : List ℕ} {r : ℕ × ℕ} {buf : ℕ → ℕ × ℕ}

theorem trxlHolds_init (blocksize : Idxblocksize) (cpnum : ℕ) (type : Blocktype) :
    TrxlHolds fl f (dbeTrxlInit blocksize cpnum type) [] [] where
  chain := rfl
  nonempty := by simp
  recs_eq := rfl
  none_iff := iff_of_true rfl rfl
  room := dbeTrxlnodeCapacity_pos blocksize
  nodup := List.nodup_nil
  allocated := by simp [Trxlist.blocks, dbeTrxlInit]

theorem TrxlHolds.frame (h : TrxlHolds fl f l recs bs) (hn : f.nalloc ≤ f'.nalloc)
    (hd : ∀ b ∈ bs, f'.cache b = f.cache b) : TrxlHolds fl f' l recs bs where
  chain := h.chain.congr fun b hb => by rw [hd b hb]
  nonempty := fun b hb => by
    rw [hd b hb]
    exact h.nonempty b hb
  recs_eq := by
    rw [h.recs_eq]
    congr 1
    exact (BlockChain.contents_congr fun b hb => by rw [hd b hb]).symm
  none_iff := h.none_iff
  room := h.room
  nodup := h.nodup
  allocated := fun b hb => by
    obtain ⟨i, hi, rfl⟩ := h.allocated b hb
    exact ⟨i, hi.trans_le hn, rfl⟩

theorem TrxlSaved.frame {daddr : ℕ} (h : TrxlSaved f daddr recs bs)
    (hd : ∀ b ∈ bs, f'.cache b = f.cache b) : TrxlSaved f' daddr recs bs where
  chain := h.chain.congr fun b hb => by rw [hd b hb]
  nonempty := fun b hb => by
    rw [hd b hb]
    exact h.nonempty b hb
  recs_eq := by
    rw [h.recs_eq]
    exact (BlockChain.contents_congr fun b hb => by rw [hd b hb]).symm

/-- The state of a list after its block is reached: the buffer is there, the header is
that of the list. -/
structure TrxlReached (fl : FlAnswers) (f : TrxlFile) (l : Trxlist) (buf : ℕ → ℕ × ℕ)
    (recs : List (ℕ × ℕ)) (bs : List ℕ) : Prop where
  chain : Blchain f.cache l.trxlHeader.blNext bs
  nonempty : ∀ b ∈ bs, 0 < (f.cache b).header.blNblocks
  recs_eq : recs.reverse = (recordsUpto buf l.trxlHeader.blNblocks).reverse ++
    BlockChain.contents readBack f.cache bs
  nodup : (l.trxlDaddr :: bs).Nodup
  allocated : ∀ b ∈ l.trxlDaddr :: bs, ∃ i < f.nalloc, b = fl.daddr i

theorem TrxlHolds.blocks_sub (_ : TrxlHolds fl f l recs bs) : bs ⊆ l.blocks bs := by
  intro b hb
  unfold Trxlist.blocks
  split
  · exact List.mem_cons_of_mem _ hb
  · exact hb

theorem TrxlHolds.reach (h : TrxlHolds fl f l recs bs) :
    TrxlReached fl (trxlReach fl f l).1 (trxlReach fl f l).2.1 (trxlReach fl f l).2.2 recs bs ∧
      (trxlReach fl f l).1.cache = f.cache ∧ f.nalloc ≤ (trxlReach fl f l).1.nalloc ∧
      (∀ b ∈ (trxlReach fl f l).2.1.trxlDaddr :: bs,
        b ∈ l.blocks bs ∨ ∃ i, f.nalloc ≤ i ∧ b = fl.daddr i) := by
  cases hbuf : l.trxlDiskbuf with
  | some buf =>
      have hblocks : l.blocks bs = l.trxlDaddr :: bs := by
        unfold Trxlist.blocks
        rw [hbuf]
      have hcurrent : l.current = recordsUpto buf l.trxlHeader.blNblocks := by
        unfold Trxlist.current
        rw [hbuf]
      unfold trxlReach
      rw [hbuf]
      refine ⟨⟨h.chain, h.nonempty, ?_, ?_, ?_⟩, rfl, le_rfl, fun b hb => ?_⟩
      · rw [h.recs_eq, hcurrent]
      · rw [← hblocks]
        exact h.nodup
      · rw [← hblocks]
        exact h.allocated
      · left
        rw [hblocks]
        exact hb
  | none =>
      have hblocks : l.blocks bs = bs := by
        unfold Trxlist.blocks
        rw [hbuf]
      have hcurrent : l.current = [] := by
        unfold Trxlist.current
        rw [hbuf]
      have hzero := h.none_iff.mp hbuf
      have hfresh : fl.daddr f.nalloc ∉ bs := by
        intro hmem
        rw [← hblocks] at hmem
        obtain ⟨i, hi, heq⟩ := h.allocated _ hmem
        exact hi.ne (fl.injective heq).symm
      unfold trxlReach
      rw [hbuf]
      refine ⟨⟨h.chain, h.nonempty, ?_, ?_, ?_⟩, rfl, Nat.le_succ _, fun b hb => ?_⟩
      · rw [h.recs_eq, hcurrent]
        simp [hzero]
      · refine List.nodup_cons.mpr ⟨hfresh, ?_⟩
        rw [← hblocks]
        exact h.nodup
      · intro b hb
        rcases List.mem_cons.mp hb with rfl | hb
        · exact ⟨f.nalloc, Nat.lt_succ_self _, rfl⟩
        · rw [← hblocks] at hb
          obtain ⟨i, hi, rfl⟩ := h.allocated b hb
          exact ⟨i, hi.trans (Nat.lt_succ_self _), rfl⟩
      · rcases List.mem_cons.mp hb with rfl | hb
        · exact .inr ⟨f.nalloc, le_rfl, rfl⟩
        · exact .inl (h.blocks_sub hb)

theorem TrxlReached.release (h : TrxlReached fl f l buf recs bs)
    (hpos : 0 < l.trxlHeader.blNblocks) :
    TrxlHolds fl (trxlRelease f l buf).1 (trxlRelease f l buf).2 recs (l.trxlDaddr :: bs) := by
  have hnotin := (List.nodup_cons.mp h.nodup).1
  obtain ⟨i, hi, hdaddr⟩ := h.allocated l.trxlDaddr List.mem_cons_self
  refine ⟨?_, fun b hb => ?_, ?_, iff_of_true rfl rfl, ?_, ?_, ?_⟩
  · refine BlockChain.Chain.push h.chain hnotin ?_
    rw [hdaddr]
    exact fl.ne_null i
  · rcases List.mem_cons.mp hb with rfl | hb
    · simp only [trxlRelease, Function.update_self]
      exact hpos
    · have hne : b ≠ l.trxlDaddr := fun e => hnotin (e ▸ hb)
      simp only [trxlRelease, Function.update_of_ne hne]
      exact h.nonempty b hb
  · rw [h.recs_eq]
    simp only [trxlRelease, Trxlist.current, List.reverse_nil, List.nil_append]
    rw [BlockChain.contents_push hnotin]
    rfl
  · exact dbeTrxlnodeCapacity_pos l.trxlBlocksize
  · exact h.nodup
  · exact h.allocated

theorem TrxlReached.put (h : TrxlReached fl f l buf recs bs)
    (hroom : l.trxlHeader.blNblocks < dbeTrxlnodeCapacity l.trxlBlocksize) (r : ℕ × ℕ) :
    ∃ bs', TrxlHolds fl (trxlPut f l buf r).1 (trxlPut f l buf r).2 (recs ++ [r]) bs' ∧
      (trxlPut f l buf r).2.blocks bs' = l.trxlDaddr :: bs ∧
      (trxlPut f l buf r).1.nalloc = f.nalloc ∧
      ∀ b, b ≠ l.trxlDaddr → (trxlPut f l buf r).1.cache b = f.cache b := by
  have hcap := dbeTrxlnodeCapacity_lt l.trxlBlocksize
  have hmod : (l.trxlHeader.blNblocks + 1) % 2 ^ 16 = l.trxlHeader.blNblocks + 1 :=
    Nat.mod_eq_of_lt (Nat.lt_of_le_of_lt hroom hcap)
  have hrecs : (recs ++ [r]).reverse =
      (recordsUpto (Function.update buf l.trxlHeader.blNblocks r)
        (l.trxlHeader.blNblocks + 1)).reverse ++ BlockChain.contents readBack f.cache bs := by
    rw [recordsUpto_update, List.reverse_append, List.reverse_append, h.recs_eq]
    rfl
  unfold trxlPut
  simp only [hmod]
  by_cases hfull : l.trxlHeader.blNblocks + 1 = dbeTrxlnodeCapacity l.trxlBlocksize
  · rw [if_pos hfull]
    refine ⟨l.trxlDaddr :: bs, ?_, rfl, rfl, fun b hb => Function.update_of_ne hb _ _⟩
    exact TrxlReached.release ⟨h.chain, h.nonempty, hrecs, h.nodup, h.allocated⟩
      (Nat.succ_pos _)
  · rw [if_neg hfull]
    refine ⟨bs, ⟨h.chain, h.nonempty, hrecs, ?_, ?_, h.nodup, h.allocated⟩, rfl, rfl,
      fun b _ => rfl⟩
    · exact iff_of_false (Option.some_ne_none _) (Nat.succ_ne_zero _)
    · exact lt_of_le_of_ne hroom hfull

/-- `trxl_addlocal` adds the record and writes to no block but those of the list. -/
theorem TrxlHolds.addlocal (h : TrxlHolds fl f l recs bs) (r : ℕ × ℕ) :
    ∃ bs', TrxlHolds fl (trxlAddlocal fl f l r).1 (trxlAddlocal fl f l r).2 (recs ++ [r]) bs' ∧
      f.nalloc ≤ (trxlAddlocal fl f l r).1.nalloc ∧
      (∀ b ∈ (trxlAddlocal fl f l r).2.blocks bs',
        b ∈ l.blocks bs ∨ ∃ i, f.nalloc ≤ i ∧ b = fl.daddr i) ∧
      ∀ b ∉ (trxlAddlocal fl f l r).2.blocks bs',
        (trxlAddlocal fl f l r).1.cache b = f.cache b := by
  obtain ⟨hreach, hcache, hnalloc, hnew⟩ := h.reach
  have hroom : (trxlReach fl f l).2.1.trxlHeader.blNblocks <
      dbeTrxlnodeCapacity (trxlReach fl f l).2.1.trxlBlocksize := by
    have hroom := h.room
    unfold trxlReach
    cases l.trxlDiskbuf with
    | some buf => exact hroom
    | none => exact hroom
  obtain ⟨bs', hholds, hblocks, hsame, hframe⟩ := hreach.put hroom r
  refine ⟨bs', hholds, ?_, fun b hb => ?_, fun b hb => ?_⟩
  · rw [trxlAddlocal, hsame]
    exact hnalloc
  · exact hnew b (hblocks ▸ hb)
  · have hne : b ≠ (trxlReach fl f l).2.1.trxlDaddr := by
      rintro rfl
      exact hb (hblocks ▸ List.mem_cons_self)
    rw [trxlAddlocal, hframe b hne, hcache]

/-- `dbe_trxl_save` puts the last block out and gives the start of the chain. -/
theorem TrxlHolds.save (h : TrxlHolds fl f l recs bs) :
    ∃ bs', TrxlSaved (dbeTrxlSave f l).1 (dbeTrxlSave f l).2 recs bs' ∧
      (∀ b ∈ bs', b ∈ l.blocks bs) ∧
      ∀ b ∉ l.blocks bs, (dbeTrxlSave f l).1.cache b = f.cache b := by
  cases hbuf : l.trxlDiskbuf with
  | some buf =>
      have hblocks : l.blocks bs = l.trxlDaddr :: bs := by
        unfold Trxlist.blocks
        rw [hbuf]
      have hpos : 0 < l.trxlHeader.blNblocks := by
        refine Nat.pos_of_ne_zero fun h0 => ?_
        rw [h.none_iff.mpr h0] at hbuf
        exact Option.some_ne_none buf hbuf.symm
      have hrecs : recs.reverse = (recordsUpto buf l.trxlHeader.blNblocks).reverse ++
          BlockChain.contents readBack f.cache bs := by
        rw [h.recs_eq]
        unfold Trxlist.current
        rw [hbuf]
      have hreached : TrxlReached fl f l buf recs bs :=
        ⟨h.chain, h.nonempty, hrecs, hblocks ▸ h.nodup, hblocks ▸ h.allocated⟩
      have hrel := hreached.release hpos
      unfold dbeTrxlSave
      simp only [hbuf, if_pos hpos]
      refine ⟨l.trxlDaddr :: bs, ⟨hrel.chain, hrel.nonempty, hrel.recs_eq⟩, fun b hb => ?_,
        fun b hb => ?_⟩
      · rw [hblocks]
        exact hb
      · have hne : b ≠ l.trxlDaddr := by
          rintro rfl
          exact hb (hblocks ▸ List.mem_cons_self)
        exact Function.update_of_ne hne _ _
  | none =>
      have hcurrent : l.current = [] := by
        unfold Trxlist.current
        rw [hbuf]
      unfold dbeTrxlSave
      simp only [hbuf]
      refine ⟨bs, ⟨h.chain, h.nonempty, ?_⟩, fun b hb => h.blocks_sub hb, fun _ _ => trivial⟩
      rw [h.recs_eq, hcurrent]
      rfl

/-! ## Two lists in one file -/

def TrxlPair (fl : FlAnswers) (f : TrxlFile) (l m : Trxlist) (recs recs' : List (ℕ × ℕ)) :
    Prop :=
  ∃ bs bs', TrxlHolds fl f l recs bs ∧ TrxlHolds fl f m recs' bs' ∧
    List.Disjoint (l.blocks bs) (m.blocks bs')

variable {m : Trxlist} {recs' : List (ℕ × ℕ)}

theorem TrxlPair.symm (h : TrxlPair fl f l m recs recs') : TrxlPair fl f m l recs' recs := by
  obtain ⟨bs, bs', hl, hm, hdisj⟩ := h
  exact ⟨bs', bs, hm, hl, fun b hb hb' => hdisj hb' hb⟩

theorem TrxlPair.add (h : TrxlPair fl f l m recs recs') (r : ℕ × ℕ) :
    TrxlPair fl (trxlAddlocal fl f l r).1 (trxlAddlocal fl f l r).2 m (recs ++ [r]) recs' := by
  obtain ⟨bs, bs', hl, hm, hdisj⟩ := h
  obtain ⟨cs, hl', hnalloc, hnew, hframe⟩ := hl.addlocal r
  have hdisj' : List.Disjoint ((trxlAddlocal fl f l r).2.blocks cs) (m.blocks bs') := by
    intro b hb hb'
    rcases hnew b hb with hold | ⟨i, hi, rfl⟩
    · exact hdisj hold hb'
    · obtain ⟨j, hj, heq⟩ := hm.allocated _ hb'
      exact absurd (fl.injective heq) (hj.trans_le hi).ne'
  refine ⟨cs, bs', hl', hm.frame hnalloc fun b hb => ?_, hdisj'⟩
  exact hframe b fun hmem => hdisj' hmem (hm.blocks_sub hb)

theorem TrxlPair.save (h : TrxlPair fl f l m recs recs') :
    ∃ bs bs', TrxlSaved (dbeTrxlSave (dbeTrxlSave f l).1 m).1 (dbeTrxlSave f l).2 recs bs ∧
      TrxlSaved (dbeTrxlSave (dbeTrxlSave f l).1 m).1 (dbeTrxlSave (dbeTrxlSave f l).1 m).2
        recs' bs' ∧
      (∀ b ∈ bs, b ≠ 0) ∧ ∀ b ∈ bs', b ≠ 0 := by
  obtain ⟨bs, bs', hl, hm, hdisj⟩ := h
  obtain ⟨cs, hsaved, hcs, hframe⟩ := hl.save
  have hnalloc : (dbeTrxlSave f l).1.nalloc = f.nalloc := by
    unfold dbeTrxlSave
    split
    · split
      · rfl
      · rfl
    · rfl
  have hm' : TrxlHolds fl (dbeTrxlSave f l).1 m recs' bs' :=
    hm.frame hnalloc.ge fun b hb => hframe b fun hmem => hdisj hmem (hm.blocks_sub hb)
  obtain ⟨cs', hsaved', hcs', hframe'⟩ := hm'.save
  refine ⟨cs, cs', hsaved.frame fun b hb => ?_, hsaved', fun b hb => ?_, fun b hb => ?_⟩
  · exact hframe' b fun hmem => hdisj (hcs b hb) hmem
  · obtain ⟨i, _, rfl⟩ := hl.allocated b (hcs b hb)
    exact fl.ne_zero i
  · obtain ⟨i, _, rfl⟩ := hm.allocated b (hcs' b hb)
    exact fl.ne_zero i

/-! ## Reading the list -/

structure TrxlAhead (f : TrxlFile) (it : TrxlistIter) (recs : List (ℕ × ℕ)) (bs : List ℕ) :
    Prop where
  chain : Blchain f.cache it.trxlHeader.blNext bs
  nonempty : ∀ b ∈ bs, 0 < (f.cache b).header.blNblocks
  recs_eq : recs = (recordsUpto it.trxlDiskbuf it.trxlPos).reverse ++
    BlockChain.contents readBack f.cache bs

variable {it : TrxlistIter} {σ : Type*} {body : σ → ℕ × ℕ → σ}

theorem TrxlAhead.reach {b : ℕ} (h : Blchain f.cache b (b :: bs))
    (hne : ∀ c ∈ b :: bs, 0 < (f.cache c).header.blNblocks) :
    TrxlAhead f (trxliReach f b) (BlockChain.contents readBack f.cache (b :: bs)) bs where
  chain := h.2.2
  nonempty := fun c hc => hne c (List.mem_cons_of_mem b hc)
  recs_eq := rfl

theorem recordsUpto_eq_concat {data : ℕ → ℕ × ℕ} {n : ℕ} (hn : n ≠ 0) :
    recordsUpto data n = recordsUpto data (n - 1) ++ [data (n - 1)] := by
  obtain ⟨m, rfl⟩ := Nat.exists_eq_succ_of_ne_zero hn
  exact recordsUpto_succ data m

/-- The next record is that before the position, or the last one of the next block. -/
theorem TrxlAhead.getnext (h : TrxlAhead f it recs bs) (fuel : ℕ) :
    match recs with
    | [] => trxliGetnextlocal f (fuel + 2) it = some none
    | r :: rest => ∃ it' bs', trxliGetnextlocal f (fuel + 2) it = some (some (r, it')) ∧
        TrxlAhead f it' rest bs' := by
  have hstep {it : TrxlistIter} {recs : List (ℕ × ℕ)} {bs : List ℕ} (fuel : ℕ)
      (h : TrxlAhead f it recs bs) (hpos : it.trxlPos ≠ 0) :
      ∃ r rest it', recs = r :: rest ∧
        trxliGetnextlocal f (fuel + 1) it = some (some (r, it')) ∧ TrxlAhead f it' rest bs := by
    have hrecs := h.recs_eq
    rw [recordsUpto_eq_concat hpos, List.reverse_append] at hrecs
    refine ⟨it.trxlDiskbuf (it.trxlPos - 1), _, { it with trxlPos := it.trxlPos - 1 }, hrecs, ?_,
      ⟨h.chain, h.nonempty, rfl⟩⟩
    rw [trxliGetnextlocal, if_neg hpos]
  by_cases hpos : it.trxlPos = 0
  · cases bs with
    | nil =>
        have hrecs : recs = [] := by
          rw [h.recs_eq, hpos]
          rfl
        subst hrecs
        have hnull : it.trxlHeader.blNext = suDaddrNull := h.chain
        change trxliGetnextlocal f (fuel + 2) it = some none
        rw [trxliGetnextlocal, if_pos hpos, if_pos hnull]
    | cons b bs =>
        have hnext : it.trxlHeader.blNext = b := h.chain.1
        have hnull : it.trxlHeader.blNext ≠ suDaddrNull := by
          rw [hnext]
          exact h.chain.2.1
        have hrecs : recs = BlockChain.contents readBack f.cache (b :: bs) := by
          rw [h.recs_eq, hpos]
          rfl
        have hb : Blchain f.cache b (b :: bs) := ⟨rfl, h.chain.2.1, h.chain.2.2⟩
        have hahead := TrxlAhead.reach hb h.nonempty
        rw [← hrecs] at hahead
        have hpos' : (trxliReach f b).trxlPos ≠ 0 :=
          (h.nonempty b List.mem_cons_self).ne'
        obtain ⟨r, rest, it', rfl, hget, hrest⟩ := hstep fuel hahead hpos'
        refine ⟨it', bs, ?_, hrest⟩
        rw [trxliGetnextlocal, if_pos hpos, if_neg hnull, hnext]
        exact hget
  · obtain ⟨r, rest, it', rfl, hget, hrest⟩ := hstep (fuel + 1) h hpos
    exact ⟨it', bs, hget, hrest⟩

theorem TrxlAhead.foreach (h : TrxlAhead f it recs bs) (fuel : ℕ) (s : σ) :
    trxliForeach f body (recs.length + 2 + fuel) (some it) s = some (recs.foldl body s) := by
  induction recs generalizing it bs s with
  | nil =>
      have hget := h.getnext fuel
      have hfuel : ([] : List (ℕ × ℕ)).length + 2 + fuel = (fuel + 1) + 1 := by
        rw [List.length_nil]
        omega
      rw [hfuel, trxliForeach, hget]
      rfl
  | cons r rest ih =>
      obtain ⟨it', bs', hget, hrest⟩ := h.getnext (rest.length + 1 + fuel)
      have hfuel : (r :: rest).length + 2 + fuel = (rest.length + 2 + fuel) + 1 := by
        rw [List.length_cons]
        omega
      have hfuel' : rest.length + 2 + fuel + 1 = rest.length + 1 + fuel + 2 := by omega
      rw [hfuel, trxliForeach, hfuel', hget]
      exact ih hrest (body s r)

theorem trxliGetnextlocal_mono {res : Option ((ℕ × ℕ) × TrxlistIter)} {fuel : ℕ}
    (h : trxliGetnextlocal f fuel it = some res) :
    trxliGetnextlocal f (fuel + 1) it = some res := by
  induction fuel generalizing it with
  | zero => exact absurd h.symm (Option.some_ne_none res)
  | succ fuel ih =>
      rw [trxliGetnextlocal] at h ⊢
      split
      · rename_i hpos
        rw [if_pos hpos] at h
        split
        · rename_i hnull
          rw [if_pos hnull] at h
          exact h
        · rename_i hnull
          rw [if_neg hnull] at h
          exact ih h
      · rename_i hpos
        rw [if_neg hpos] at h
        exact h

theorem trxliForeach_mono {oit : Option TrxlistIter} {s s' : σ} {fuel fuel' : ℕ}
    (hle : fuel ≤ fuel') (h : trxliForeach f body fuel oit s = some s') :
    trxliForeach f body fuel' oit s = some s' := by
  have hsucc : ∀ (fuel : ℕ) (oit : Option TrxlistIter) (s : σ),
      trxliForeach f body fuel oit s = some s' →
        trxliForeach f body (fuel + 1) oit s = some s' := by
    intro fuel
    induction fuel with
    | zero => exact fun _ _ h => absurd h.symm (Option.some_ne_none s')
    | succ fuel ih =>
        intro oit s h
        cases oit with
        | none => exact h
        | some it =>
            rw [trxliForeach] at h ⊢
            cases hget : trxliGetnextlocal f (fuel + 1) it with
            | none =>
                rw [hget] at h
                exact absurd h.symm (Option.some_ne_none s')
            | some res =>
                rw [hget] at h
                rw [trxliGetnextlocal_mono hget]
                cases res with
                | none => exact h
                | some p => exact ih (some p.2) (body s p.1) h
  induction hle with
  | refl => exact h
  | step _ ih => exact hsucc _ _ _ ih

/-- The loop over a saved list passes the records, the last one first. -/
theorem TrxlSaved.foreach {daddr : ℕ} (h : TrxlSaved f daddr recs bs)
    (hzero : ∀ b ∈ bs, b ≠ 0) (fuel : ℕ) (s : σ) :
    trxliForeach f body (recs.length + 2 + fuel) (dbeTrxliInit f daddr) s =
      some (recs.reverse.foldl body s) := by
  cases bs with
  | nil =>
      have hnull : daddr = suDaddrNull := h.chain
      have hrecs : recs = [] := List.reverse_eq_nil_iff.mp h.recs_eq
      rw [dbeTrxliInit, if_pos (.inl hnull), hrecs]
      have hfuel : ([] : List (ℕ × ℕ)).length + 2 + fuel = (fuel + 1) + 1 := by
        rw [List.length_nil]
        omega
      rw [hfuel]
      rfl
  | cons b bs =>
      obtain ⟨rfl, hnull, hrest⟩ := h.chain
      have hahead := TrxlAhead.reach h.chain h.nonempty
      rw [← h.recs_eq] at hahead
      have hdaddr := hzero daddr List.mem_cons_self
      rw [dbeTrxliInit, if_neg (not_or.mpr ⟨hnull, hdaddr⟩), ← recs.length_reverse]
      exact hahead.foreach fuel s

end SolidDB
