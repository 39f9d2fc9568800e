import SolidDB.Dbe.FlstTableAlloc

/-!
# Saving the table and reading it back

A save writes the table before the superblocks, unless the table is as it was read. From
the start of the saved chain the list has the same free addresses.
-/

namespace SolidDB

open BlockChain

variable {cache : Flcache} {s : Freelist} {bs : List ℕ}

/-! ## The save -/

theorem saveAddrtable_spec {fuel : ℕ} (h : TableWf cache s bs)
    (hfuel : s.flAddrtable.length ≤ fuel) :
    ∃ bs', FlStep [] [] cache s bs (saveAddrtable fuel cache s).1 (saveAddrtable fuel cache s).2
        bs' ∧ (saveAddrtable fuel cache s).2.flAddrtable = [] := by
  induction fuel generalizing cache s bs with
  | zero => exact ⟨bs, .refl h, List.length_eq_zero_iff.mp (Nat.eq_zero_of_le_zero hfuel)⟩
  | succ fuel ih =>
      rw [saveAddrtable, h.nblocks]
      by_cases hpos : 0 < s.flAddrtable.length
      · rw [if_pos hpos]
        obtain ⟨a, hw⟩ := tableWritten h hpos
        have hlen := hw.length
        obtain ⟨bs', hstep, hnil⟩ := ih hw.step.wf (by omega)
        exact ⟨bs', hw.step.trans hstep, hnil⟩
      · rw [if_neg hpos]
        exact ⟨bs, .refl h, List.length_eq_zero_iff.mp (Nat.eq_zero_of_not_pos hpos)⟩

/-- The condition on a save: a table that is not modified has the addresses of the
superblock it was read from. -/
def SaveTableFits (cache : Flcache) (s : Freelist) : Prop :=
  s.flModified = false → 0 < s.flAddrtable.length →
    (cache s.flReadfrom).records.Perm s.flAddrtable

instance (cache : Flcache) (s : Freelist) : Decidable (SaveTableFits cache s) :=
  inferInstanceAs (Decidable (_ → _ → _))

/-- What `dbe_fl_save_deferch` writes: the superblocks hold the free addresses. -/
structure TableSaved (cache : Flcache) (s : Freelist) (bs : List ℕ)
    (w : Flcache × Freelist × ℕ) (bs' : List ℕ) : Prop where
  step : FlStep [] [] cache s bs w.1 w.2.1 bs'
  ready : TableReady w.2.1
  room : w.2.1.flAddrtable.length < w.2.1.flMycapacity
  chain : Blchain w.1 w.2.2 (superblocks w.2.1 bs')
  free : (freeOf w.1 w.2.1 bs').Perm
    (contents Blblock.records w.1 (superblocks w.2.1 bs'))

theorem saveSuperblocks_spec (fuel : ℕ) (h : TableWf cache s bs) (hready : TableReady s)
    (hroom : s.flAddrtable.length < s.flMycapacity) (hfits : SaveTableFits cache s) :
    ∃ w bs', saveSuperblocks fuel cache s = some w ∧ TableSaved cache s bs w bs' := by
  rw [saveSuperblocks]
  by_cases hwrite : s.flModified = true ∨ s.flHeader.blNblocks = 0
  · rw [if_pos hwrite, if_neg (h.inmemory ▸ Bool.false_ne_true)]
    obtain ⟨bs', hstep, hnil⟩ := saveAddrtable_spec h h.nblocks.ge
    refine ⟨_, bs', rfl, hstep, fun _ => .inl ?_, ?_, ?_, ?_⟩
    · rw [hstep.wf.nblocks, hnil]
      rfl
    · show (saveAddrtable _ cache s).2.flAddrtable.length < _
      rw [hnil]
      exact hstep.wf.mycapacity_pos
    · rw [superblocks, pendingBlock_nil_of_addrtable hstep.wf hnil]
      exact hstep.wf.chain
    · rw [superblocks, pendingBlock_nil_of_addrtable hstep.wf hnil, freeOf]
      show ((saveAddrtable _ cache s).2.flAddrtable ++ _).Perm _
      rw [hnil]
      exact .refl _
  · rw [not_or, Bool.not_eq_true] at hwrite
    rw [if_neg fun hor => hor.elim (hwrite.1 ▸ Bool.false_ne_true) hwrite.2]
    have hcpnum := (hready hwrite.1).resolve_left hwrite.2
    have hpos := Nat.pos_of_ne_zero hwrite.2
    have hpending : pendingBlock s = [s.flReadfrom] :=
      if_pos ⟨hwrite.1 ▸ Bool.false_ne_true, hcpnum, hpos⟩
    refine ⟨_, bs, rfl, .refl h, hready, hroom, ?_, ?_⟩
    · rw [superblocks, hpending]
      exact (h.pending _ (hpending ▸ List.mem_singleton_self _)).1
    · rw [superblocks, hpending, freeOf]
      exact ((hfits hwrite.1 (h.nblocks ▸ hpos)).append_right _).symm

def withCpnum (s : Freelist) (nextCpnum : ℕ) : Freelist :=
  { s with flNextcpnum := nextCpnum, flFreeblocksKnown := false }

variable {nextCpnum : ℕ}

theorem pendingBlock_withCpnum (h : TableWf cache s bs) (hready : TableReady s)
    (hlt : s.flNextcpnum < nextCpnum) :
    pendingBlock (withCpnum s nextCpnum) = pendingBlock s := by
  by_cases hwaits : ¬ s.flModified ∧ 0 < s.flHeader.blNblocks
  · have hne : s.flNextcpnum ≠ s.flHeader.blCpnum :=
      (hready (Bool.eq_false_iff.mpr hwaits.1)).resolve_left hwaits.2.ne'
    have hpending : pendingBlock s = [s.flReadfrom] := if_pos ⟨hwaits.1, hne, hwaits.2⟩
    have hblock := h.pending _ (hpending ▸ List.mem_singleton_self _)
    have hle := hblock.2.1.cpnum
    rw [hblock.2.2] at hle
    rw [hpending]
    exact if_pos ⟨hwaits.1, (lt_of_le_of_lt hle hlt).ne', hwaits.2⟩
  · have hnil : pendingBlock s = [] := if_neg fun hp => hwaits ⟨hp.1, hp.2.2⟩
    rw [hnil]
    exact if_neg fun hp => hwaits ⟨hp.1, hp.2.2⟩

structure NextCheckpoint (cache : Flcache) (s s' : Freelist) (bs : List ℕ) : Prop where
  wf : TableWf cache s' bs
  ready : TableReady s'
  pending : pendingBlock s' = pendingBlock s
  older : ∀ b ∈ superblocks s' bs, SuperblockWf cache s' b ∧
    (cache b).header.blCpnum < s'.flNextcpnum
  places : ∀ a, placesOf cache s' bs a = placesOf cache s bs a
  guarded : ∀ a, Guarded cache s bs a → Guarded cache s' bs a

theorem nextCheckpoint (h : TableWf cache s bs) (hready : TableReady s)
    (hlt : s.flNextcpnum < nextCpnum) : NextCheckpoint cache s (withCpnum s nextCpnum) bs := by
  have hpending := pendingBlock_withCpnum h hready hlt
  have hblock {b : ℕ} (hb : SuperblockWf cache s b) :
      SuperblockWf cache (withCpnum s nextCpnum) b :=
    ⟨hb.type, hb.capacity, hb.cpnum.trans hlt.le⟩
  have hplaces (a : ℕ) :
      placesOf cache (withCpnum s nextCpnum) bs a = placesOf cache s bs a := by
    rw [placesOf_eq, placesOf_eq, hpending]
    rfl
  refine ⟨?_, fun hm => ?_, hpending, fun b hb => ?_, hplaces, ?_⟩
  · exact {
      inmemory := h.inmemory
      type := h.type
      chain := h.chain
      blocks := fun b hb => hblock (h.blocks b hb)
      nblocks := h.nblocks
      sorted := h.sorted
      filled := h.filled
      mycapacity := h.mycapacity
      mycapacityLt := h.mycapacityLt
      pending := fun b hb =>
        have hb' := h.pending b (hpending ▸ hb)
        ⟨hb'.1, hblock hb'.2.1, hb'.2.2⟩
      once := fun a => (hplaces a).symm ▸ h.once a
      null := (hplaces suDaddrNull).trans h.null }
  · rcases hready hm with hzero | hne
    · exact .inl hzero
    · by_cases hnb : s.flHeader.blNblocks = 0
      · exact .inl hnb
      · have hwaits : s.flReadfrom ∈ pendingBlock s := by
          rw [pendingBlock, if_pos ⟨hm ▸ Bool.false_ne_true, hne, Nat.pos_of_ne_zero hnb⟩]
          exact List.mem_singleton_self _
        have hb := h.pending _ hwaits
        have hle := hb.2.1.cpnum
        rw [hb.2.2] at hle
        exact .inr (lt_of_le_of_lt hle hlt).ne'
  · rw [superblocks, hpending] at hb
    rcases List.mem_append.mp hb with hb | hb
    · have hb' := (h.pending b hb).2.1
      exact ⟨hblock hb', lt_of_le_of_lt hb'.cpnum hlt⟩
    · have hb' := h.blocks b hb
      exact ⟨hblock hb', lt_of_le_of_lt hb'.cpnum hlt⟩
  · rintro a (ha | ha | ha)
    · exact .inl ⟨ha.1, ha.2.trans hlt⟩
    · exact .inr (.inl (hpending.symm ▸ ha))
    · exact .inr (.inr ha)

structure TableSaveDone (cache : Flcache) (s : Freelist) (bs : List ℕ) (nextCpnum : ℕ)
    (r : FlSaved) (bs' : List ℕ) : Prop where
  done : OpDone cache s bs [] [] r.cache r.fl bs' r.chl
  chain : Blchain r.cache r.superblockDaddr (superblocks r.fl bs')
  free : (freeOf r.cache r.fl bs').Perm (contents Blblock.records r.cache (superblocks r.fl bs'))
  older : ∀ b ∈ superblocks r.fl bs', SuperblockWf r.cache r.fl b ∧
    (r.cache b).header.blCpnum < nextCpnum
  nextcpnum : r.fl.flNextcpnum = nextCpnum
  blocksize : r.fl.flBlocksize = s.flBlocksize
  maxspareblocks : r.fl.flMaxspareblocks = s.flMaxspareblocks
  extendincr : r.fl.flExtendincr = s.flExtendincr
  filesize : r.fl.flFilesize = s.flFilesize
  saved : r.filesize = s.flFilesize

theorem tableSave (fuel : ℕ) (h : TableWf cache s bs) (hready : TableReady s)
    (hroom : s.flAddrtable.length < s.flMycapacity) (hfits : SaveTableFits cache s)
    (hlt : s.flNextcpnum < nextCpnum) :
    ∃ r bs', dbeFlSaveDeferch fuel cache s nextCpnum = some r ∧
      TableSaveDone cache s bs nextCpnum r bs' := by
  obtain ⟨w, bs', hw, hsaved⟩ := saveSuperblocks_spec fuel h hready hroom hfits
  have hconfig := hsaved.step.config
  have hlt' : w.2.1.flNextcpnum < nextCpnum := hconfig.nextcpnum ▸ hlt
  have hnext := nextCheckpoint hsaved.step.wf hsaved.ready hlt'
  have hstep : OpDone cache s bs [] [] w.1 (withCpnum w.2.1 nextCpnum) bs' [] := by
    refine ⟨hnext.wf, hnext.ready, hsaved.room, fun a => ?_, hsaved.step.outside,
      fun a ha => ?_⟩
    · rw [hnext.places]
      exact hsaved.step.places a
    · obtain ⟨hsame, hguarded⟩ := hsaved.step.guarded a ha
      exact ⟨hsame, .inl (hnext.guarded a hguarded)⟩
  have hover := FlStep.handOver (.refl hnext.wf) hnext.ready hsaved.room
  have hsuper : superblocks (withCpnum w.2.1 nextCpnum) bs' = superblocks w.2.1 bs' := by
    rw [superblocks, superblocks, hnext.pending]
  refine ⟨_, bs', by rw [dbeFlSaveDeferch, hw]; rfl, ?_⟩
  refine ⟨⟨hover.wf, hover.ready, hover.room, fun a => ?_, hstep.outside, fun a ha => ?_⟩,
    ?_, ?_, ?_, rfl, hconfig.blocksize, hconfig.maxspareblocks, hconfig.extendincr,
    hconfig.filesize, hconfig.filesize⟩
  · have hfirst := hstep.places a
    have hthen := hover.places a
    rw [List.map_nil, List.count_nil] at hfirst
    rw [List.count_nil] at hthen ⊢
    exact hthen.trans hfirst
  · obtain ⟨hsame, hguarded | hnil⟩ := hstep.guarded a ha
    · exact ⟨hsame, (hover.guarded a hguarded).2⟩
    · exact absurd hnil List.not_mem_nil
  · exact hsuper ▸ hsaved.chain
  · exact hsuper ▸ hsaved.free
  · intro b hb
    have hb' := hnext.older b hb
    exact ⟨⟨hb'.1.type, hb'.1.capacity, hb'.1.cpnum⟩, hb'.2⟩

/-! ## Reading a saved list back -/

structure SavedChain (cache : Flcache) (blocksize : Idxblocksize) (nextCpnum start : ℕ)
    (blocks : List ℕ) : Prop where
  chain : Blchain cache start blocks
  type : ∀ b ∈ blocks, (cache b).header.blType = .freelist
  capacity : ∀ b ∈ blocks, (cache b).header.blNblocks ≤ flSbcapacityOf blocksize
  cpnum : ∀ b ∈ blocks, (cache b).header.blCpnum < nextCpnum
  once : ∀ a, (contents Blblock.records cache blocks).count a + blocks.count a ≤ 1
  null : (contents Blblock.records cache blocks).count suDaddrNull = 0

variable {blocksize : Idxblocksize} {start filesize extendincr : ℕ} {blocks : List ℕ}

structure ReadBack (cache : Flcache) (blocksize : Idxblocksize)
    (filesize extendincr nextCpnum : ℕ) (blocks : List ℕ) (s : Freelist) (bs : List ℕ) :
    Prop where
  wf : TableWf cache s bs
  ready : TableReady s
  room : s.flAddrtable.length < s.flMycapacity
  places : ∀ a, placesOf cache s bs a =
    (contents Blblock.records cache blocks).count a + blocks.count a
  guarded : ∀ b ∈ blocks, Guarded cache s bs b
  free : (freeOf cache s bs).Perm (contents Blblock.records cache blocks)
  blocksize : s.flBlocksize = blocksize
  filesize : s.flFilesize = filesize
  extendincr : s.flExtendincr = extendincr
  nextcpnum : s.flNextcpnum = nextCpnum
  maxspareblocks : s.flMaxspareblocks = 0

theorem pendingBlock_flEmpty (blocksize : Idxblocksize)
    (start filesize extendincr nextCpnum : ℕ) :
    pendingBlock (flEmpty blocksize start filesize extendincr nextCpnum false) = [] :=
  if_neg fun hp => Nat.lt_irrefl 0 hp.2.2

theorem SavedChain.tableWf (filesize extendincr : ℕ)
    (h : SavedChain cache blocksize nextCpnum start blocks) :
    TableWf cache (flEmpty blocksize start filesize extendincr nextCpnum false) blocks ∧
      ∀ a, placesOf cache (flEmpty blocksize start filesize extendincr nextCpnum false) blocks a =
        (contents Blblock.records cache blocks).count a + blocks.count a := by
  have hplaces (a : ℕ) :
      placesOf cache (flEmpty blocksize start filesize extendincr nextCpnum false) blocks a =
        (contents Blblock.records cache blocks).count a + blocks.count a := by
    rw [placesOf_eq, pendingBlock_flEmpty]
    show [].count a + _ + ([].count a + _) + [].count a = _
    rw [List.count_nil]
    omega
  have hle := flSbcapacityOf_le blocksize
  refine ⟨?_, hplaces⟩
  exact {
    inmemory := rfl
    type := rfl
    chain := h.chain
    blocks := fun b hb => ⟨h.type b hb, h.capacity b hb, (h.cpnum b hb).le⟩
    nblocks := rfl
    sorted := List.Pairwise.nil
    filled := Nat.zero_le _
    mycapacity := le_rfl
    mycapacityLt := hle
    pending := by
      intro b hb
      rw [pendingBlock_flEmpty] at hb
      exact absurd hb List.not_mem_nil
    once := fun a => (hplaces a).symm ▸ h.once a
    null := by
      rw [hplaces, h.null, List.count_eq_zero.mpr h.chain.null_notMem] }

theorem tableReadBack (h : SavedChain cache blocksize nextCpnum start blocks) (fuel : ℕ) :
    ∃ s bs, dbeFlInit fuel cache blocksize start filesize extendincr nextCpnum false = some s ∧
      ReadBack cache blocksize filesize extendincr nextCpnum blocks s bs := by
  obtain ⟨hwf, hplaces⟩ := h.tableWf filesize extendincr
  have hready : TableReady (flEmpty blocksize start filesize extendincr nextCpnum false) :=
    fun _ => .inl rfl
  have hle := flSbcapacityOf_le blocksize
  cases blocks with
  | nil =>
      refine ⟨_, [], if_pos (chain_nil.mp h.chain), ?_⟩
      exact ⟨hwf, hready, hwf.mycapacity_pos, hplaces, List.forall_mem_nil _, .refl _, rfl, rfl,
        rfl, rfl, rfl⟩
  | cons b bs =>
      have hcap := h.capacity b List.mem_cons_self
      have hstart : start ≠ suDaddrNull := h.chain.1.symm ▸ h.chain.2.1
      have hne : (cache b).header.blCpnum ≠ nextCpnum := (h.cpnum b List.mem_cons_self).ne
      have hroom : 0 + (cache b).header.blNblocks + 2 < 2 ^ 16 := by omega
      obtain ⟨s, hs, hread⟩ := tableRead hwf (pendingBlock_flEmpty _ _ _ _ _) hroom
        fun hcp => absurd hcp hne
      have hlen : s.flAddrtable.length = 0 + (cache b).header.blNblocks + 0 := by
        rw [hread.length]
        exact congrArg _ (if_neg hne)
      have hconfig := hread.step.config
      have hsize : s.flBlocksize = blocksize := hconfig.blocksize
      have hlow : 2 * flSbcapacityOf s.flBlocksize + 2 ≤ s.flMycapacity :=
        hread.step.wf.mycapacity
      rw [hsize] at hlow
      refine ⟨s, bs, ?_, hread.step.wf, hread.ready, ?_, fun a => ?_, fun a ha => ?_, ?_,
        hconfig.blocksize, hconfig.filesize, hconfig.extendincr, hconfig.nextcpnum,
        hconfig.maxspareblocks⟩
      · rw [dbeFlInit]
        dsimp only
        rw [if_neg hstart, if_neg Bool.false_ne_true, hs]
      · rw [hlen]
        exact lt_of_lt_of_le (by omega) hlow
      · exact (Nat.add_right_cancel (hread.step.places a)).trans (hplaces a)
      · exact (hread.step.guarded a (.inl ⟨ha, h.cpnum a ha⟩)).2
      · rw [freeOf, hread.older hne, flAddrtable_taken hwf.inmemory, contents_cons]
        refine ((List.perm_insertionSort _ _).append_right _).trans ?_
        rw [hwf.chain.1]
        exact .refl _

end SolidDB
