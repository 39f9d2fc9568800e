import SolidDB.Dbe.FlstAlloc
import SolidDB.Dbe.FlstTableRead

/-!
# Allocating from the table

An allocation reads superblocks until the table has more than the spare blocks. It may
read one into a table that is not empty, and then the superblock that waits there must
not be lost.
-/

namespace SolidDB

open BlockChain

variable {cache : Flcache} {s : Freelist} {bs : List ℕ} {fuel daddr : ℕ} {limit : ℤ}

/-! ## Lists that agree on the table -/

structure SameTable (s s' : Freelist) : Prop where
  inmemory : s'.flInmemory = s.flInmemory
  blocksize : s'.flBlocksize = s.flBlocksize
  mycapacity : s'.flMycapacity = s.flMycapacity
  nextcpnum : s'.flNextcpnum = s.flNextcpnum
  modified : s'.flModified = s.flModified
  readfrom : s'.flReadfrom = s.flReadfrom
  deferchlist : s'.flDeferchlist = s.flDeferchlist
  header : s'.flHeader = s.flHeader
  addrtable : s'.flAddrtable = s.flAddrtable

variable {s' : Freelist}

theorem SameTable.pendingBlock (e : SameTable s s') : pendingBlock s' = pendingBlock s := by
  rw [SolidDB.pendingBlock, SolidDB.pendingBlock, e.modified, e.nextcpnum, e.header, e.readfrom]

theorem SameTable.deferredOf (e : SameTable s s') : deferredOf s' = deferredOf s := by
  rw [SolidDB.deferredOf, SolidDB.deferredOf, e.deferchlist]

theorem SameTable.placesOf (e : SameTable s s') (a : ℕ) :
    placesOf cache s' bs a = placesOf cache s bs a := by
  rw [placesOf_eq, placesOf_eq, e.addrtable, e.pendingBlock, e.deferredOf]

theorem SameTable.guarded (e : SameTable s s') {a : ℕ} :
    Guarded cache s' bs a ↔ Guarded cache s bs a := by
  rw [Guarded, Guarded, e.nextcpnum, e.pendingBlock, e.deferredOf]

theorem SameTable.ready (e : SameTable s s') (h : TableReady s) : TableReady s' := by
  rw [TableReady, e.modified, e.header, e.nextcpnum]
  exact h

theorem SameTable.room (e : SameTable s s') (h : s.flAddrtable.length < s.flMycapacity) :
    s'.flAddrtable.length < s'.flMycapacity := by
  rw [e.addrtable, e.mycapacity]
  exact h

theorem SameTable.wf (e : SameTable s s') (h : TableWf cache s bs) : TableWf cache s' bs := by
  have hcap : s'.flSbcapacity = s.flSbcapacity := congrArg flSbcapacityOf e.blocksize
  have hblock {b : ℕ} (hb : SuperblockWf cache s b) : SuperblockWf cache s' b :=
    ⟨hb.type, hcap.symm ▸ hb.capacity, e.nextcpnum.symm ▸ hb.cpnum⟩
  exact {
    inmemory := e.inmemory.trans h.inmemory
    type := e.header.symm ▸ h.type
    chain := e.header.symm ▸ h.chain
    blocks := fun b hb => hblock (h.blocks b hb)
    nblocks := by
      rw [e.header, e.addrtable]
      exact h.nblocks
    sorted := e.addrtable.symm ▸ h.sorted
    filled := by
      rw [e.addrtable, e.mycapacity]
      exact h.filled
    mycapacity := by
      rw [hcap, e.mycapacity]
      exact h.mycapacity
    mycapacityLt := e.mycapacity.symm ▸ h.mycapacityLt
    pending := by
      intro b hb
      rw [e.pendingBlock] at hb
      have hb' := h.pending b hb
      rw [e.header]
      exact ⟨hb'.1, hblock hb'.2.1, hb'.2.2⟩
    once := fun a => (e.placesOf a).symm ▸ h.once a
    null := (e.placesOf suDaddrNull).trans h.null }

theorem FlStep.same {take give : List ℕ} {cache' : Flcache} {s'' : Freelist} {bs' : List ℕ}
    (h : FlStep take give cache s bs cache' s' bs') (e : SameTable s' s'')
    (hconfig : SameConfig s' s'') : FlStep take give cache s bs cache' s'' bs' where
  wf := e.wf h.wf
  config := h.config.trans hconfig
  places := fun a => (e.placesOf a).symm ▸ h.places a
  outside := h.outside
  guarded := fun a ha => ⟨(h.guarded a ha).1, e.guarded.mpr (h.guarded a ha).2⟩

/-! ## Reading until there is more than the spare blocks -/

/-- The number of addresses that a superblock brings: its own is one of them when it is of
the current checkpoint. -/
def broughtBy (cache : Flcache) (nextcpnum b : ℕ) : ℕ :=
  (cache b).header.blNblocks + if (cache b).header.blCpnum = nextcpnum then 1 else 0

/-- From a table of `n` addresses in `mycapacity` entries, no superblock is read while an
older one waits, each leaves an entry for its own address, and so do all of them in the
end for a block that is freed. -/
def ReadsClean (cache : Flcache) (nextcpnum : ℕ) (limit : ℤ) : Prop → ℕ → ℕ → List ℕ → Prop
  | _, mycapacity, n, [] => n ≤ limit → n < mycapacity
  | waits, mycapacity, n, b :: bs => n ≤ limit → ¬ waits ∧
      LeavesEntry cache nextcpnum mycapacity n b ∧
      ReadsClean cache nextcpnum limit
        ((cache b).header.blCpnum ≠ nextcpnum ∧ 0 < n + broughtBy cache nextcpnum b)
        (capacityFor mycapacity ((cache b).header.blNblocks + n))
        (n + broughtBy cache nextcpnum b) bs

instance decidableReadsClean (cache : Flcache) (nextcpnum : ℕ) (limit : ℤ) (waits : Prop)
    [Decidable waits] (mycapacity n : ℕ) :
    (bs : List ℕ) → Decidable (ReadsClean cache nextcpnum limit waits mycapacity n bs)
  | [] => inferInstanceAs (Decidable (n ≤ limit → n < mycapacity))
  | b :: bs =>
    haveI := decidableReadsClean cache nextcpnum limit
      ((cache b).header.blCpnum ≠ nextcpnum ∧ 0 < n + broughtBy cache nextcpnum b)
      (capacityFor mycapacity ((cache b).header.blNblocks + n))
      (n + broughtBy cache nextcpnum b) bs
    inferInstanceAs (Decidable (n ≤ limit → ¬ waits ∧
      ((cache b).header.blCpnum = nextcpnum → (cache b).header.blNblocks + n ≠ mycapacity) ∧ _))

theorem ReadsClean.mono {nextcpnum mycapacity n : ℕ} {waits waits' : Prop}
    (h : ReadsClean cache nextcpnum limit waits mycapacity n bs) (hw : waits' → waits) :
    ReadsClean cache nextcpnum limit waits' mycapacity n bs := by
  cases bs with
  | nil => exact h
  | cons b bs => exact fun hle => ⟨mt hw (h hle).1, (h hle).2⟩

/-- Without spare blocks only an empty table is read into, and no superblock fills it. -/
theorem readsClean_zero {nextcpnum mycapacity n : ℕ} {waits : Prop} (hw : waits → 0 < n)
    (hpos : 0 < mycapacity) (hblocks : ∀ b ∈ bs, (cache b).header.blNblocks < mycapacity) :
    ReadsClean cache nextcpnum 0 waits mycapacity n bs := by
  induction bs generalizing mycapacity n waits with
  | nil => exact fun hle => lt_of_le_of_lt (Int.ofNat_le.mp hle) hpos
  | cons b bs ih =>
      intro hle
      obtain rfl : n = 0 := Nat.eq_zero_of_le_zero (Int.ofNat_le.mp hle)
      obtain ⟨hb, hbs⟩ := List.forall_mem_cons.mp hblocks
      have hsame : capacityFor mycapacity ((cache b).header.blNblocks + 0) = mycapacity :=
        if_neg (Nat.not_lt.mpr hb.le)
      rw [hsame]
      exact ⟨fun hwaits => absurd rfl (hw hwaits).ne', fun _ => hb.ne, ih And.right hpos hbs⟩

/-- The list has no address to give, not even that of a superblock. -/
def Exhausted (cache : Flcache) (s : Freelist) (bs : List ℕ) : Prop :=
  s.flAddrtable = [] ∧ ∀ b ∈ bs, broughtBy cache s.flNextcpnum b = 0

structure LimitFits (s : Freelist) (limit : ℤ) : Prop where
  nonneg : 0 ≤ limit
  room : limit + s.flSbcapacity + 2 < 2 ^ 16

instance (cache : Flcache) (s : Freelist) (bs : List ℕ) : Decidable (Exhausted cache s bs) :=
  inferInstanceAs (Decidable (_ ∧ _))

instance (s : Freelist) (limit : ℤ) : Decidable (LimitFits s limit) :=
  decidable_of_iff (0 ≤ limit ∧ limit + s.flSbcapacity + 2 < 2 ^ 16)
    ⟨fun h => ⟨h.1, h.2⟩, fun h => ⟨h.nonneg, h.room⟩⟩

structure TableAllocated (cache : Flcache) (s : Freelist) (bs : List ℕ) (daddr : ℕ)
    (limit : ℤ) (a : FlAllocated) : Prop where
  rc : a.rc = .success
  got : a.endoflist = false → ∃ bs', FlStep [] [a.daddr] cache s bs cache a.fl bs' ∧
    a.fl.flModified = true ∧ a.fl.flAddrtable.length < a.fl.flMycapacity
  endoflist : a.endoflist = true → FlStep [] [] cache s bs cache a.fl [] ∧
    a.daddr = daddr ∧ TableReady a.fl ∧ a.fl.flAddrtable.length ≤ limit ∧
    a.fl.flAddrtable.length < a.fl.flMycapacity ∧
    (a.fl.flAddrtable = [] → Exhausted cache s bs)

theorem falseAlarm_table (h : TableWf cache s bs) : falseAlarm s limit = s :=
  if_neg fun hmem => Bool.noConfusion (h.inmemory.symm.trans hmem.1)

theorem flAllocateFromMemory_table (h : TableWf cache s bs) :
    flAllocateFromMemory cache (fuel + 1) s daddr limit =
      if limit < s.flAddrtable.length then
        some ⟨(dbeFlExtract s).2, .success, (dbeFlExtract s).1,
          (dbeFlExtract s).1 = suDaddrNull⟩
      else if s.flHeader.blNext ≠ suDaddrNull then
        match dbeFlRead1superblock cache s with
        | none => none
        | some (s'', .success) => flAllocateFromMemory cache fuel s'' daddr limit
        | some (s'', rc) => some ⟨s'', rc, daddr, false⟩
      else some ⟨s, .success, daddr, true⟩ := by
  rw [flAllocateFromMemory, falseAlarm_table h, h.nblocks]
  refine if_congr Iff.rfl rfl (if_congr (and_iff_left ?_) rfl rfl)
  exact fun hmem => Bool.noConfusion (h.inmemory.symm.trans hmem)

theorem tableAllocated (fuel daddr : ℕ) (h : TableWf cache s bs) (hready : TableReady s)
    (hlimit : LimitFits s limit)
    (hclean : ReadsClean cache s.flNextcpnum limit (pendingBlock s ≠ []) s.flMycapacity
      s.flAddrtable.length bs) :
    (∀ a, flAllocateFromMemory cache fuel s daddr limit = some a →
      TableAllocated cache s bs daddr limit a) ∧
    (bs.length < fuel → ∃ a, flAllocateFromMemory cache fuel s daddr limit = some a) := by
  induction fuel generalizing s bs with
  | zero => exact ⟨fun a ha => (Option.some_ne_none a ha.symm).elim,
      fun hlt => absurd hlt (Nat.not_lt_zero _)⟩
  | succ fuel ih =>
      rw [flAllocateFromMemory_table h]
      by_cases hmore : limit < s.flAddrtable.length
      · rw [if_pos hmore]
        refine ⟨fun a ha => ?_, fun _ => ⟨_, rfl⟩⟩
        obtain rfl := Option.some.inj ha
        have hpos : 0 < s.flAddrtable.length :=
          Int.ofNat_lt.mp (lt_of_le_of_lt hlimit.nonneg hmore)
        have hext := tableExtracted h hpos
        have hnull := h.ne_null hext.mem
        refine ⟨rfl, fun _ => ⟨bs, hext.step, hext.modified, hext.room h⟩, fun hend => ?_⟩
        exact absurd (of_decide_eq_true hend) hnull
      · rw [if_neg hmore]
        cases bs with
        | nil =>
            rw [if_neg (not_not_intro (chain_nil.mp h.chain))]
            refine ⟨fun a ha => ?_, fun _ => ⟨_, rfl⟩⟩
            obtain rfl := Option.some.inj ha
            exact ⟨rfl, fun hgot => Bool.noConfusion hgot, fun _ => ⟨.refl h, rfl, hready,
              Int.not_lt.mp hmore, hclean (Int.not_lt.mp hmore),
              fun hnil => ⟨hnil, List.forall_mem_nil _⟩⟩⟩
        | cons b bs =>
            obtain ⟨hwaits, hentry, hclean⟩ := hclean (Int.not_lt.mp hmore)
            have hcap := (h.blocks b List.mem_cons_self).capacity
            have hroom := hlimit.room
            obtain ⟨s1, hs1, hread⟩ := tableRead h (not_not.mp hwaits) (by omega) hentry
            have hnext : s.flHeader.blNext ≠ suDaddrNull := h.chain.1.symm ▸ h.chain.2.1
            rw [if_pos hnext, hs1]
            dsimp only
            have hlen : s1.flAddrtable.length =
                s.flAddrtable.length + broughtBy cache s.flNextcpnum b := by
              rw [hread.length, broughtBy, Nat.add_assoc]
            have hconfig := hread.step.config
            have hlimit1 : LimitFits s1 limit := ⟨hlimit.nonneg, by
              rw [hconfig.sbcapacity]
              exact hroom⟩
            have hclean1 : ReadsClean cache s1.flNextcpnum limit (pendingBlock s1 ≠ [])
                s1.flMycapacity s1.flAddrtable.length bs := by
              rw [hconfig.nextcpnum, hread.mycapacity, hlen]
              refine hclean.mono fun hp => ?_
              obtain ⟨hcp, hpos⟩ := hread.pending.resolve_left hp
              exact ⟨hcp, hlen ▸ hpos⟩
            obtain ⟨hspec, hsome⟩ := ih hread.step.wf hread.ready hlimit1 hclean1
            refine ⟨fun a ha => ?_, fun hlt => hsome (Nat.lt_of_succ_lt_succ hlt)⟩
            have ha := hspec a ha
            refine ⟨ha.rc, fun hgot => ?_, fun hend => ?_⟩
            · obtain ⟨bs', hstep, hrest⟩ := ha.got hgot
              exact ⟨bs', hread.step.trans hstep, hrest⟩
            · obtain ⟨hstep, hdaddr, hready', hle, hroom', hempty⟩ := ha.endoflist hend
              refine ⟨hread.step.trans hstep, hdaddr, hready', hle, hroom', fun hnil => ?_⟩
              obtain ⟨hnil1, hall⟩ := hempty hnil
              rw [hconfig.nextcpnum] at hall
              have hzero := congrArg List.length hnil1
              rw [hlen, List.length_nil, Nat.add_eq_zero_iff] at hzero
              exact ⟨List.length_eq_zero_iff.mp hzero.1,
                List.forall_mem_cons.mpr ⟨hzero.2, hall⟩⟩

/-! ## Freeing -/

structure TableFreed (cache : Flcache) (s : Freelist) (bs : List ℕ) (take : List ℕ)
    (w : Flcache × Freelist) (bs' : List ℕ) : Prop where
  step : FlStep take [] cache s bs w.1 w.2 bs'
  room : w.2.flAddrtable.length < w.2.flMycapacity

theorem tableFreelocal (h : TableWf cache s bs) (hroom : s.flAddrtable.length < s.flMycapacity)
    (hzero : placesOf cache s bs daddr = 0) (hnull : daddr ≠ suDaddrNull) :
    ∃ w bs', dbeFlFreelocal cache s daddr = some w ∧ TableFreed cache s bs [daddr] w bs' ∧
      w.2.flModified = true ∧ 0 < w.2.flAddrtable.length := by
  obtain ⟨s1, hs1, hstep, hlen, hcap, hmod, -⟩ := flStep_insert h hzero hnull hroom
  have hlow := h.mycapacity
  have hmem : ¬ s1.flInmemory = true := hstep.wf.inmemory ▸ Bool.false_ne_true
  rw [dbeFlFreelocal, hs1, Option.map_some, hstep.wf.nblocks, hcap]
  by_cases hfull : s1.flAddrtable.length < s.flMycapacity
  · rw [if_pos (.inl hfull)]
    refine ⟨_, bs, rfl, ⟨hstep, ?_⟩, hmod, ?_⟩
    · show s1.flAddrtable.length < s1.flMycapacity
      exact hcap ▸ hfull
    · show 0 < s1.flAddrtable.length
      omega
  · rw [if_neg fun hor => hor.elim hfull hmem]
    obtain ⟨a, hw⟩ := tableWritten hstep.wf (by omega)
    have hwlen := hw.length
    rw [hstep.config.sbcapacity] at hwlen
    have hfilled := hstep.wf.filled
    refine ⟨_, a :: bs, rfl, ⟨hstep.trans hw.step, ?_⟩, hw.modified, ?_⟩
    · rw [hw.mycapacity]
      omega
    · omega

theorem tableFreeExtended {as : List ℕ} (h : TableWf cache s bs)
    (hroom : s.flAddrtable.length < s.flMycapacity) (hnodup : as.Nodup)
    (has : ∀ a ∈ as, placesOf cache s bs a = 0 ∧ a ≠ suDaddrNull) :
    ∃ w bs', as.foldlM freeExtended (cache, s) = some w ∧ TableFreed cache s bs as w bs' ∧
      (as ≠ [] → 0 < w.2.flAddrtable.length) := by
  induction as generalizing cache s bs with
  | nil => exact ⟨(cache, s), bs, rfl, ⟨.refl h, hroom⟩, fun hne => absurd rfl hne⟩
  | cons a as ih =>
      obtain ⟨ha, has⟩ := List.forall_mem_cons.mp has
      obtain ⟨hnot, hnodup⟩ := List.nodup_cons.mp hnodup
      obtain ⟨w1, bs1, hw1, hfreed, -, hpos⟩ := tableFreelocal h hroom ha.1 ha.2
      let s1 := { w1.2 with flFreeblocks := w1.2.flFreeblocks + 1 }
      have hstep : FlStep [a] [] cache s bs w1.1 s1 bs1 :=
        hfreed.step.same ⟨rfl, rfl, rfl, rfl, rfl, rfl, rfl, rfl, rfl⟩
          ⟨rfl, rfl, rfl, rfl, rfl⟩
      have has1 : ∀ b ∈ as, placesOf w1.1 s1 bs1 b = 0 ∧ b ≠ suDaddrNull := by
        intro b hb
        have hplaces := hstep.places b
        have hne : b ≠ a := ne_of_mem_of_not_mem hb hnot
        rw [(has b hb).1, List.count_eq_zero.mpr (mt List.mem_singleton.mp hne)] at hplaces
        exact ⟨Nat.eq_zero_of_add_eq_zero_right hplaces, (has b hb).2⟩
      obtain ⟨w, bs', hw, hrest, hrestpos⟩ := ih hstep.wf hfreed.room hnodup has1
      refine ⟨w, bs', ?_, ⟨hstep.trans hrest.step, hrest.room⟩, fun _ => ?_⟩
      · rw [List.foldlM_cons, freeExtended, hw1]
        exact hw
      · by_cases hnil : as = []
        · subst hnil
          obtain rfl := Option.some.inj hw
          exact hpos
        · exact hrestpos hnil

/-! ## The operations -/

/-- What an operation of the list leaves, after its deferred changes have been handed
over: `take` and `give` are the addresses that came and went otherwise. -/
structure OpDone (cache : Flcache) (s : Freelist) (bs : List ℕ) (take give : List ℕ)
    (cache' : Flcache) (s' : Freelist) (bs' : List ℕ) (chl : List Clrecord) : Prop where
  wf : TableWf cache' s' bs'
  ready : TableReady s'
  room : s'.flAddrtable.length < s'.flMycapacity
  places : ∀ a, placesOf cache' s' bs' a + (chl.map Prod.snd).count a + give.count a =
    placesOf cache s bs a + take.count a
  outside : ∀ a, placesOf cache s bs a = 0 → a ∉ take → cache' a = cache a
  guarded : ∀ a, Guarded cache s bs a →
    cache' a = cache a ∧ (Guarded cache' s' bs' a ∨ a ∈ chl.map Prod.snd)

def handOver (s : Freelist) : Freelist := { s with flDeferchlist := [] }

theorem placesOf_handOver (cache : Flcache) (s : Freelist) (bs : List ℕ) (a : ℕ) :
    placesOf cache (handOver s) bs a + (deferredOf s).count a = placesOf cache s bs a := by
  rw [placesOf_eq, placesOf_eq]
  show _ + _ + ((pendingBlock s).count a + _) + [].count a + _ = _
  rw [List.count_nil, Nat.add_zero]
  rfl

theorem TableWf.handOver (h : TableWf cache s bs) : TableWf cache (handOver s) bs where
  inmemory := h.inmemory
  type := h.type
  chain := h.chain
  blocks := fun b hb => ⟨(h.blocks b hb).type, (h.blocks b hb).capacity, (h.blocks b hb).cpnum⟩
  nblocks := h.nblocks
  sorted := h.sorted
  filled := h.filled
  mycapacity := h.mycapacity
  mycapacityLt := h.mycapacityLt
  pending := fun b hb =>
    have hb' := h.pending b hb
    ⟨hb'.1, ⟨hb'.2.1.type, hb'.2.1.capacity, hb'.2.1.cpnum⟩, hb'.2.2⟩
  once := fun a =>
    (Nat.le_add_right _ _).trans ((placesOf_handOver cache s bs a).trans_le (h.once a))
  null := Nat.eq_zero_of_add_eq_zero_right
    ((placesOf_handOver cache s bs suDaddrNull).trans h.null)

theorem FlStep.handOver {take give bs' : List ℕ} {cache' : Flcache}
    (h : FlStep take give cache s bs cache' s' bs') (hready : TableReady s')
    (hroom : s'.flAddrtable.length < s'.flMycapacity) :
    OpDone cache s bs take give cache' (handOver s') bs' s'.flDeferchlist where
  wf := h.wf.handOver
  ready := hready
  room := hroom
  places := by
    intro a
    have hplaces := h.places a
    have hover := placesOf_handOver cache' s' bs' a
    unfold deferredOf at hover
    omega
  outside := h.outside
  guarded := by
    intro a ha
    obtain ⟨hsame, hb | hp | hd⟩ := h.guarded a ha
    · exact ⟨hsame, .inl (.inl hb)⟩
    · exact ⟨hsame, .inl (.inr (.inl hp))⟩
    · exact ⟨hsame, .inr hd⟩

theorem OpDone.same {take give bs' : List ℕ} {cache' : Flcache} {s'' : Freelist}
    {chl : List Clrecord} (h : OpDone cache s bs take give cache' s' bs' chl)
    (e : SameTable s' s'') : OpDone cache s bs take give cache' s'' bs' chl where
  wf := e.wf h.wf
  ready := e.ready h.ready
  room := e.room h.room
  places := fun a => (e.placesOf a).symm ▸ h.places a
  outside := h.outside
  guarded := fun a ha => ⟨(h.guarded a ha).1, (h.guarded a ha).2.imp_left e.guarded.mpr⟩

theorem FlStep.done {take give bs' : List ℕ} {cache' : Flcache}
    (h : FlStep take give cache s bs cache' s' bs') (hready : TableReady s')
    (hroom : s'.flAddrtable.length < s'.flMycapacity) :
    OpDone cache s bs take give cache' s' bs' [] where
  wf := h.wf
  ready := hready
  room := hroom
  places := h.places
  outside := h.outside
  guarded := fun a ha => ⟨(h.guarded a ha).1, .inl (h.guarded a ha).2⟩

/-- An operation goes on after the deferred changes have been handed over, without a
write. -/
theorem OpDone.trans {give bs' bs'' : List ℕ} {s'' : Freelist} {chl : List Clrecord}
    (h : OpDone cache s bs [] [] cache s' bs' chl)
    (h' : FlStep [] give cache s' bs' cache s'' bs'') (hready : TableReady s'')
    (hroom : s''.flAddrtable.length < s''.flMycapacity) :
    OpDone cache s bs [] give cache s'' bs'' chl where
  wf := h'.wf
  ready := hready
  room := hroom
  places := by
    intro a
    have hfirst := h.places a
    have hthen := h'.places a
    rw [List.count_nil] at hfirst hthen
    rw [List.count_nil]
    omega
  outside := fun _ _ _ => rfl
  guarded := by
    intro a ha
    obtain ⟨-, hguarded | hchl⟩ := h.guarded a ha
    · exact ⟨rfl, .inl (h'.guarded a hguarded).2⟩
    · exact ⟨rfl, .inr hchl⟩

/-! ## The allocation -/

def FlAllocation.given (out : FlAllocation) : List ℕ :=
  if out.rc = .success then [out.daddr] else []

structure TableAllocDone (cache : Flcache) (s : Freelist) (bs : List ℕ) (out : FlAllocation)
    (news bs' : List ℕ) : Prop where
  done : OpDone cache s bs news out.given out.cache out.fl bs' out.chl
  blocksize : out.fl.flBlocksize = s.flBlocksize
  nextcpnum : out.fl.flNextcpnum = s.flNextcpnum
  maxspareblocks : out.fl.flMaxspareblocks = s.flMaxspareblocks
  extendincr : out.fl.flExtendincr = s.flExtendincr
  fresh : news = List.range' s.flFilesize news.length
  filesize : out.fl.flFilesize = s.flFilesize + news.length
  bounded : news = [] ∨ s.flFilesize + news.length ≤ suDaddrNull

/-- The condition on an allocation: see `ReadsClean`; an extension adds blocks that have an
address; and a caller that cannot fail finds a block when the file cannot be extended. -/
def AllocFits (cache : Flcache) (s : Freelist) (bs : List ℕ) (canfail extended : Bool) : Prop :=
  if s.flRc = .success then
    ReadsClean cache s.flNextcpnum s.flMaxspareblocks (pendingBlock s ≠ []) s.flMycapacity
        s.flAddrtable.length bs ∧
      (extended = true → 0 < s.flExtendincr ∧ s.flFilesize + s.flExtendincr ≤ suDaddrNull) ∧
      (extended = false → canfail = true ∨ ¬ Exhausted cache s bs)
  else canfail = true ∨ ¬ Exhausted cache s bs

instance (cache : Flcache) (s : Freelist) (bs : List ℕ) (canfail extended : Bool) :
    Decidable (AllocFits cache s bs canfail extended) :=
  inferInstanceAs (Decidable (ite _ _ _))

theorem length_pos_of_pendingBlock (h : TableWf cache s bs) (hp : pendingBlock s ≠ []) :
    0 < s.flAddrtable.length := by
  rw [← h.nblocks]
  by_contra hzero
  exact hp (if_neg fun hcond => hzero hcond.2.2)

theorem TableWf.readsClean (h : TableWf cache s bs) :
    ReadsClean cache s.flNextcpnum 0 (pendingBlock s ≠ []) s.flMycapacity s.flAddrtable.length
      bs := by
  have hcap := h.mycapacity
  refine readsClean_zero (length_pos_of_pendingBlock h) h.mycapacity_pos fun b hb => ?_
  have hb' := (h.blocks b hb).capacity
  omega

/-- After a disk error a caller that cannot fail gets a spare block. -/
theorem tableDiskError (fuel daddr : ℕ) (chl : List Clrecord) (h : TableWf cache s bs)
    (hready : TableReady s) (hroom : s.flAddrtable.length < s.flMycapacity)
    (hlimit : LimitFits s 0) {canfail : Bool} {rc : SuRet} (hrc : rc ≠ .success)
    (hfits : canfail = true ∨ ¬ Exhausted cache s bs) :
    (∀ out, flHandleDiskError fuel cache s daddr canfail rc chl = some out →
      out.cache = cache ∧ out.chl = chl ∧ ∃ bs', FlStep [] out.given cache s bs cache out.fl bs' ∧
        TableReady out.fl ∧ out.fl.flAddrtable.length < out.fl.flMycapacity) ∧
    (bs.length < fuel → ∃ out, flHandleDiskError fuel cache s daddr canfail rc chl = some out) := by
  rw [flHandleDiskError]
  generalize hs1 : (if s.flRc = .success then { s with flRc := rc } else s) = s1
  have hsame : SameTable s s1 ∧ SameConfig s s1 ∧ s1.flRc ≠ .success := by
    subst hs1
    split
    next => exact ⟨⟨rfl, rfl, rfl, rfl, rfl, rfl, rfl, rfl, rfl⟩, ⟨rfl, rfl, rfl, rfl, rfl⟩, hrc⟩
    next hfailed =>
      exact ⟨⟨rfl, rfl, rfl, rfl, rfl, rfl, rfl, rfl, rfl⟩, .refl s, hfailed⟩
  obtain ⟨e, hconfig, hrc1⟩ := hsame
  have hstep : FlStep [] [] cache s bs cache s1 bs := (FlStep.refl h).same e hconfig
  cases canfail with
  | true =>
      refine ⟨fun out hout => ?_, fun _ => ⟨_, rfl⟩⟩
      obtain rfl := Option.some.inj hout
      refine ⟨rfl, rfl, bs, ?_, e.ready hready, e.room hroom⟩
      rw [FlAllocation.given, if_neg hrc1]
      exact hstep
  | false =>
      have hspare : ¬ Exhausted cache s bs := hfits.resolve_left Bool.false_ne_true
      have hlimit1 : LimitFits s1 0 := ⟨le_rfl, by
        rw [hconfig.sbcapacity]
        exact hlimit.room⟩
      obtain ⟨hspec, hsome⟩ := tableAllocated fuel daddr hstep.wf
        (e.ready hready) hlimit1 hstep.wf.readsClean
      refine ⟨fun out hout => ?_, fun hfuel => ?_⟩
      · obtain ⟨a, ha, rfl⟩ := Option.map_eq_some_iff.mp hout
        have ha := hspec a ha
        cases hend : a.endoflist with
        | true =>
            obtain ⟨-, -, -, hle, -, hempty⟩ := ha.endoflist hend
            have hnil := List.length_eq_zero_iff.mp
              (Nat.eq_zero_of_le_zero (Int.ofNat_le.mp hle))
            have hex := hempty hnil
            rw [Exhausted, e.addrtable, e.nextcpnum] at hex
            exact absurd hex hspare
        | false =>
            obtain ⟨bs', hgot, hmod, hroom'⟩ := ha.got hend
            refine ⟨rfl, rfl, bs', ?_, .of_modified hmod, hroom'⟩
            rw [FlAllocation.given, if_pos ha.rc]
            exact hstep.trans hgot
      · obtain ⟨a, ha⟩ := hsome hfuel
        exact ⟨_, Option.map_eq_some_iff.mpr ⟨a, ha, rfl⟩⟩

/-- The extension of a list with a table: its blocks are freed, and one is taken. -/
theorem tableExtend (h : TableWf cache s bs) (hroom : s.flAddrtable.length < s.flMycapacity)
    (hincr : 0 < s.flExtendincr) (hsize : s.flFilesize + s.flExtendincr ≤ suDaddrNull)
    (hfresh : ∀ a, s.flFilesize ≤ a → placesOf cache s bs a = 0) :
    ∃ w bs', extendFile cache s = some w ∧
      TableAllocDone cache s bs (allocSuccess w.1 (dbeFlExtract w.2).2 (dbeFlExtract w.2).1)
        (List.range' s.flFilesize s.flExtendincr) bs' := by
  let s1 := { s with flFilesize := s.flFilesize + s.flExtendincr }
  have e : SameTable s s1 := ⟨rfl, rfl, rfl, rfl, rfl, rfl, rfl, rfl, rfl⟩
  have hnew : ∀ a ∈ (List.range' s.flFilesize s.flExtendincr).reverse,
      placesOf cache s1 bs a = 0 ∧ a ≠ suDaddrNull := by
    intro a ha
    have hbounds := List.mem_range'_1.mp (List.mem_reverse.mp ha)
    refine ⟨(e.placesOf a).trans (hfresh a hbounds.1), ?_⟩
    exact (lt_of_lt_of_le hbounds.2 hsize).ne
  obtain ⟨w, bs', hw, hfreed, hpos⟩ := tableFreeExtended (e.wf h) hroom
    (List.nodup_reverse.mpr List.nodup_range') hnew
  have hmod : (s.flFilesize + s.flExtendincr) % 2 ^ 32 = s.flFilesize + s.flExtendincr :=
    Nat.mod_eq_of_lt (lt_of_le_of_lt hsize (by decide))
  have hw : extendFile cache s = some w := by
    rw [extendFile, hmod, if_neg (h.inmemory ▸ Bool.false_ne_true), Nat.add_sub_cancel_left]
    exact hw
  have hne : (List.range' s.flFilesize s.flExtendincr).reverse ≠ [] := by
    intro hnil
    have hlen := congrArg List.length hnil
    rw [List.length_reverse, List.length_range'] at hlen
    exact hincr.ne' hlen
  have hext := tableExtracted hfreed.step.wf (hpos hne)
  have hroom' := hext.room hfreed.step.wf
  have hstep := hfreed.step.trans hext.step
  have hdone := hstep.handOver (.of_modified hext.modified) hroom'
  have hconfig := hstep.config
  have hlen : (List.range' s.flFilesize s.flExtendincr).length = s.flExtendincr :=
    List.length_range'
  refine ⟨w, bs', hw, ?_, hconfig.blocksize, hconfig.nextcpnum, hconfig.maxspareblocks,
    hconfig.extendincr, by rw [hlen], hlen.symm ▸ hconfig.filesize, .inr (hlen.symm ▸ hsize)⟩
  -- the account does not depend on the order, nor on the size of the file
  have hlast : SameTable (handOver (dbeFlExtract w.2).2)
      (allocSuccess w.1 (dbeFlExtract w.2).2 (dbeFlExtract w.2).1).fl :=
    ⟨rfl, rfl, rfl, rfl, rfl, rfl, rfl, rfl, rfl⟩
  have hdone := hdone.same hlast
  refine ⟨hdone.wf, hdone.ready, hdone.room, fun a => ?_, fun a ha hnot => ?_, fun a ha => ?_⟩
  · have hplaces := hdone.places a
    rw [e.placesOf, List.append_nil, List.nil_append, List.count_reverse] at hplaces
    exact hplaces
  · refine hdone.outside a ((e.placesOf a).trans ha) ?_
    rw [List.append_nil, List.mem_reverse]
    exact hnot
  · exact hdone.guarded a (e.guarded.mpr ha)

theorem LimitFits.zero (h : LimitFits s limit) : LimitFits s 0 :=
  ⟨le_rfl, by
    have hnonneg := h.nonneg
    have hroom := h.room
    omega⟩

theorem TableAllocDone.after {s1 : Freelist} {bs1 news bs' : List ℕ} {out : FlAllocation}
    (hstep : FlStep [] [] cache s bs cache s1 bs1)
    (h : TableAllocDone cache s1 bs1 out news bs') : TableAllocDone cache s bs out news bs' := by
  have hconfig := hstep.config
  have hplaces (a : ℕ) : placesOf cache s1 bs1 a = placesOf cache s bs a :=
    Nat.add_right_cancel (hstep.places a)
  refine ⟨⟨h.done.wf, h.done.ready, h.done.room, fun a => ?_, fun a ha hnot => ?_,
    fun a ha => ?_⟩, h.blocksize.trans hconfig.blocksize, h.nextcpnum.trans hconfig.nextcpnum,
    h.maxspareblocks.trans hconfig.maxspareblocks, h.extendincr.trans hconfig.extendincr,
    hconfig.filesize ▸ h.fresh, hconfig.filesize ▸ h.filesize, hconfig.filesize ▸ h.bounded⟩
  · rw [← hplaces]
    exact h.done.places a
  · exact h.done.outside a ((hplaces a).trans ha) hnot
  · exact h.done.guarded a (hstep.guarded a ha).2

/-- `dbe_fl_alloc_deferch` after the search in memory. -/
def allocRest (fuel : ℕ) (cache : Flcache) (canfail extended : Bool) (a : FlAllocated) :
    Option FlAllocation :=
  if a.endoflist then
    if extended then
      (extendFile cache a.fl).map fun w =>
        allocSuccess w.1 (dbeFlExtract w.2).2 (dbeFlExtract w.2).1
    else allocFailure fuel cache a.fl a.daddr canfail .fileWriteError
  else if a.rc = .success then some (allocSuccess cache a.fl a.daddr)
  else allocFailure fuel cache a.fl a.daddr canfail a.rc

theorem allocRest_got (fuel : ℕ) (canfail extended : Bool) {a : FlAllocated}
    (ha : TableAllocated cache s bs daddr limit a) (hend : a.endoflist = false) :
    ∃ out, allocRest fuel cache canfail extended a = some out ∧
      ∃ bs', TableAllocDone cache s bs out [] bs' := by
  obtain ⟨bs', hstep, hmod, hroom⟩ := ha.got hend
  have hconfig := hstep.config
  refine ⟨allocSuccess cache a.fl a.daddr, ?_, bs', ?_, hconfig.blocksize, hconfig.nextcpnum,
    hconfig.maxspareblocks, hconfig.extendincr, rfl, hconfig.filesize, .inl rfl⟩
  · rw [allocRest, hend, if_neg Bool.false_ne_true, if_pos ha.rc]
  · exact (hstep.handOver (.of_modified hmod) hroom).same
      ⟨rfl, rfl, rfl, rfl, rfl, rfl, rfl, rfl, rfl⟩

theorem allocRest_extended (fuel : ℕ) (canfail : Bool) (hincr : 0 < s.flExtendincr)
    (hsize : s.flFilesize + s.flExtendincr ≤ suDaddrNull)
    (hfresh : ∀ a, s.flFilesize ≤ a → placesOf cache s bs a = 0)
    {a : FlAllocated} (ha : TableAllocated cache s bs daddr limit a) (hend : a.endoflist = true) :
    ∃ out, allocRest fuel cache canfail true a = some out ∧
      ∃ news bs', TableAllocDone cache s bs out news bs' := by
  obtain ⟨hstep, -, -, -, hroom, -⟩ := ha.endoflist hend
  have hconfig := hstep.config
  have hfresh' : ∀ x, a.fl.flFilesize ≤ x → placesOf cache a.fl [] x = 0 := by
    intro x hx
    rw [hconfig.filesize] at hx
    exact (Nat.add_right_cancel (hstep.places x)).trans (hfresh x hx)
  rw [← hconfig.extendincr] at hincr hsize
  rw [← hconfig.filesize] at hsize
  obtain ⟨w, bs', hw, hdone⟩ := tableExtend hstep.wf hroom hincr hsize hfresh'
  refine ⟨_, ?_, _, bs', hdone.after hstep⟩
  rw [allocRest, hend, if_pos rfl, if_pos rfl, hw]
  rfl

theorem allocRest_failed (fuel : ℕ) (hlimit : LimitFits s limit) {canfail : Bool}
    (hfits : canfail = true ∨ ¬ Exhausted cache s bs) {a : FlAllocated}
    (ha : TableAllocated cache s bs daddr limit a) (hend : a.endoflist = true) :
    (∀ out, allocRest fuel cache canfail false a = some out →
      ∃ bs', TableAllocDone cache s bs out [] bs') ∧
    (0 < fuel → ∃ out, allocRest fuel cache canfail false a = some out) := by
  obtain ⟨hstep, -, hready, -, hroom, hempty⟩ := ha.endoflist hend
  have hconfig := hstep.config
  have hover := hstep.handOver hready hroom
  have hlimit' : LimitFits (handOver a.fl) 0 := ⟨le_rfl, by
    show 0 + (a.fl.flSbcapacity : ℤ) + 2 < _
    rw [hconfig.sbcapacity]
    exact hlimit.zero.room⟩
  have hrc : SuRet.fileWriteError ≠ .success := SuRet.noConfusion
  have hfits' : canfail = true ∨ ¬ Exhausted cache (handOver a.fl) [] :=
    hfits.imp_right fun hnot hex => hnot (hempty hex.1)
  obtain ⟨hspec, hsome⟩ := tableDiskError fuel a.daddr a.fl.flDeferchlist hover.wf hready hroom
    hlimit' hrc hfits'
  rw [allocRest, hend, if_pos rfl, if_neg Bool.false_ne_true]
  refine ⟨fun out hout => ?_, hsome⟩
  obtain ⟨hcache, hchl, bs', hdone, hready', hroom'⟩ := hspec out hout
  have hconfig' := hdone.config
  refine ⟨bs', ?_, hconfig'.blocksize.trans hconfig.blocksize,
    hconfig'.nextcpnum.trans hconfig.nextcpnum,
    hconfig'.maxspareblocks.trans hconfig.maxspareblocks,
    hconfig'.extendincr.trans hconfig.extendincr, rfl,
    hconfig'.filesize.trans hconfig.filesize, .inl rfl⟩
  rw [hcache, hchl]
  exact hover.trans hdone hready' hroom'

theorem tableAlloc (fuel : ℕ) (h : TableWf cache s bs) (hready : TableReady s)
    (hroom : s.flAddrtable.length < s.flMycapacity) (hlimit : LimitFits s s.flMaxspareblocks)
    (hfresh : ∀ a, s.flFilesize ≤ a → placesOf cache s bs a = 0) {canfail extended : Bool}
    (hfits : AllocFits cache s bs canfail extended) :
    (∀ out, dbeFlAllocDeferch fuel cache s canfail extended = some out →
      ∃ news bs', TableAllocDone cache s bs out news bs') ∧
    (bs.length < fuel → ∃ out, dbeFlAllocDeferch fuel cache s canfail extended = some out) := by
  rw [dbeFlAllocDeferch]
  rw [AllocFits] at hfits
  by_cases hrc : s.flRc = .success
  · rw [if_pos hrc] at hfits
    rw [if_neg (not_not_intro hrc)]
    obtain ⟨hclean, hextend, hfail⟩ := hfits
    obtain ⟨hspec, hsome⟩ := tableAllocated fuel 0 h hready hlimit hclean
    have hrest (a : FlAllocated) (ha : TableAllocated cache s bs 0 s.flMaxspareblocks a) :
        (∀ out, allocRest fuel cache canfail extended a = some out →
          ∃ news bs', TableAllocDone cache s bs out news bs') ∧
        (0 < fuel → ∃ out, allocRest fuel cache canfail extended a = some out) := by
      cases hend : a.endoflist with
      | false =>
          obtain ⟨out, hout, bs', hdone⟩ := allocRest_got fuel canfail extended ha hend
          refine ⟨fun out' hout' => ?_, fun _ => ⟨out, hout⟩⟩
          obtain rfl := Option.some.inj (hout.symm.trans hout')
          exact ⟨[], bs', hdone⟩
      | true =>
          cases extended with
          | true =>
              obtain ⟨hincr, hsize⟩ := hextend rfl
              obtain ⟨out, hout, hdone⟩ :=
                allocRest_extended fuel canfail hincr hsize hfresh ha hend
              refine ⟨fun out' hout' => ?_, fun _ => ⟨out, hout⟩⟩
              obtain rfl := Option.some.inj (hout.symm.trans hout')
              exact hdone
          | false =>
              obtain ⟨hspec', hsome'⟩ := allocRest_failed fuel hlimit (hfail rfl) ha hend
              exact ⟨fun out hout => ⟨[], hspec' out hout⟩, hsome'⟩
    refine ⟨fun out hout => ?_, fun hfuel => ?_⟩
    · obtain ⟨a, ha, hout⟩ := Option.bind_eq_some_iff.mp hout
      exact (hrest a (hspec a ha)).1 out hout
    · obtain ⟨a, ha⟩ := hsome hfuel
      obtain ⟨out, hout⟩ := (hrest a (hspec a ha)).2 (Nat.zero_lt_of_lt hfuel)
      exact ⟨out, Option.bind_eq_some_iff.mpr ⟨a, ha, hout⟩⟩
  · rw [if_neg hrc] at hfits
    rw [if_pos hrc]
    obtain ⟨hspec, hsome⟩ := tableDiskError fuel 0 [] h hready hroom hlimit.zero hrc hfits
    refine ⟨fun out hout => ?_, hsome⟩
    obtain ⟨hcache, hchl, bs', hstep, hready', hroom'⟩ := hspec out hout
    have hconfig := hstep.config
    refine ⟨[], bs', ?_, hconfig.blocksize, hconfig.nextcpnum, hconfig.maxspareblocks,
      hconfig.extendincr, rfl, hconfig.filesize, .inl rfl⟩
    rw [hcache, hchl]
    exact hstep.done hready' hroom'

theorem tableFree (h : TableWf cache s bs) (hroom : s.flAddrtable.length < s.flMycapacity)
    (hzero : placesOf cache s bs daddr = 0) (hnull : daddr ≠ suDaddrNull) :
    ∃ r bs', dbeFlFreeDeferch cache s daddr = some r ∧
      OpDone cache s bs [daddr] [] r.1 r.2.1 bs' r.2.2 ∧ SameConfig s r.2.1 := by
  let s1 := { s with flFreeblocks := s.flFreeblocks + 1 }
  have e : SameTable s s1 := ⟨rfl, rfl, rfl, rfl, rfl, rfl, rfl, rfl, rfl⟩
  obtain ⟨w, bs', hw, hfreed, hmod, -⟩ := tableFreelocal (e.wf h) hroom
    ((e.placesOf daddr).trans hzero) hnull
  have hdone := hfreed.step.handOver (.of_modified hmod) hfreed.room
  refine ⟨(w.1, handOver w.2, w.2.flDeferchlist), bs', ?_, ⟨hdone.wf, hdone.ready, hdone.room,
    fun a => ?_, fun a ha hnot => ?_, fun a ha => ?_⟩, ?_⟩
  · rw [dbeFlFreeDeferch, hw]
    rfl
  · rw [← e.placesOf]
    exact hdone.places a
  · exact hdone.outside a ((e.placesOf a).trans ha) hnot
  · exact hdone.guarded a (e.guarded.mpr ha)
  · have hconfig := hfreed.step.config
    exact ⟨hconfig.blocksize, hconfig.filesize, hconfig.extendincr, hconfig.nextcpnum,
      hconfig.maxspareblocks⟩

end SolidDB
