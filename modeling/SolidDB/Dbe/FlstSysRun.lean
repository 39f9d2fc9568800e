import SolidDB.Dbe.FlstSys

/-!
# What the runs of the free list keep

The invariant of the list with its users: the account of the addresses is right, and the
superblocks of every save that is held stand in the list or in the change list.
-/

namespace SolidDB

open BlockChain

variable {cache : Flcache} {s : Freelist} {bs : List ℕ} {blocksize : Idxblocksize}

/-! ## Superblocks of a chain -/

theorem superblocksFrom_eq {fuel a : ℕ} (h : Blchain cache a bs) (hfuel : bs.length ≤ fuel) :
    superblocksFrom cache fuel a = bs := by
  induction fuel generalizing a bs with
  | zero =>
      rw [List.length_eq_zero_iff.mp (Nat.eq_zero_of_le_zero hfuel)]
      rfl
  | succ fuel ih =>
      rw [superblocksFrom]
      cases bs with
      | nil => exact if_pos (chain_nil.mp h)
      | cons b bs =>
          obtain ⟨rfl, hnull, hrest⟩ := h
          rw [if_neg hnull, ih hrest (Nat.le_of_succ_le_succ hfuel)]

theorem length_le_of_chain {a filesize : ℕ} (h : Blchain cache a bs)
    (hlt : ∀ b ∈ bs, b < filesize) : bs.length ≤ filesize := by
  have hsub : bs ⊆ List.range filesize := fun b hb => List.mem_range.mpr (hlt b hb)
  have hle := (List.subperm_of_subset h.nodup hsub).length_le
  rwa [List.length_range] at hle

/-! ## The invariant -/

structure SaveHeld (blocksize : Idxblocksize) (cache : Flcache) (σ : Flsave) : Prop where
  chain : SavedChain cache blocksize σ.nextCpnum σ.superblockDaddr σ.blocks
  free : (contents Blblock.records cache σ.blocks).Perm σ.free
  account : ∀ a, σ.free.count a + σ.blocks.count a + σ.allocated.count a + σ.chl.count a =
    if a < σ.filesize then 1 else 0
  filesize : σ.filesize ≤ suDaddrNull

structure FlsysInv (blocksize : Idxblocksize) (w : Flsys) (bs : List ℕ) : Prop where
  wf : TableWf w.cache w.fl bs
  ready : TableReady w.fl
  room : w.fl.flAddrtable.length < w.fl.flMycapacity
  size : w.fl.flBlocksize = blocksize
  limit : LimitFits w.fl w.fl.flMaxspareblocks
  filesize : w.fl.flFilesize ≤ suDaddrNull
  account : ∀ a, placesOf w.cache w.fl bs a + w.allocated.count a + w.chl.count a =
    if a < w.fl.flFilesize then 1 else 0
  saves : ∀ σ ∈ w.saves, SaveHeld blocksize w.cache σ
  kept : ∀ σ ∈ w.saves, ∀ b ∈ σ.blocks, Guarded w.cache w.fl bs b ∨ b ∈ w.chl
  older : w.saves.Pairwise fun σ τ => ∀ b ∈ τ.blocks, b ∈ σ.blocks ∨ b ∈ σ.chl

variable {w : Flsys}

theorem SavedChain.congr {cache' : Flcache} {nextCpnum start : ℕ} {blocks : List ℕ}
    (h : SavedChain cache blocksize nextCpnum start blocks)
    (hsame : ∀ b ∈ blocks, cache' b = cache b) :
    SavedChain cache' blocksize nextCpnum start blocks := by
  have hcontents : contents Blblock.records cache' blocks =
      contents Blblock.records cache blocks :=
    contents_congr fun b hb => congrArg Blblock.records (hsame b hb)
  exact {
    chain := h.chain.congr fun b hb => congrArg Blblock.next (hsame b hb)
    type := fun b hb => (hsame b hb).symm ▸ h.type b hb
    capacity := fun b hb => (hsame b hb).symm ▸ h.capacity b hb
    cpnum := fun b hb => (hsame b hb).symm ▸ h.cpnum b hb
    once := hcontents.symm ▸ h.once
    null := hcontents.symm ▸ h.null }

theorem SaveHeld.congr {cache' : Flcache} {σ : Flsave} (h : SaveHeld blocksize cache σ)
    (hsame : ∀ b ∈ σ.blocks, cache' b = cache b) : SaveHeld blocksize cache' σ where
  chain := h.chain.congr hsame
  free := by
    rw [contents_congr fun b hb => congrArg Blblock.records (hsame b hb)]
    exact h.free
  account := h.account
  filesize := h.filesize

theorem SaveHeld.readBack {σ : Flsave} (h : SaveHeld blocksize cache σ) {nextCpnum : ℕ}
    (hle : σ.nextCpnum ≤ nextCpnum) (fuel extendincr : ℕ) :
    ∃ s bs, dbeFlInit fuel cache blocksize σ.superblockDaddr σ.filesize extendincr nextCpnum
        false = some s ∧
      ReadBack cache blocksize σ.filesize extendincr nextCpnum σ.blocks s bs := by
  have hchain := h.chain
  have hlater : SavedChain cache blocksize nextCpnum σ.superblockDaddr σ.blocks :=
    ⟨hchain.chain, hchain.type, hchain.capacity,
      fun b hb => (hchain.cpnum b hb).trans_le hle, hchain.once, hchain.null⟩
  exact tableReadBack hlater fuel

theorem placesOf_pos_of_guarded {b : ℕ} (h : Guarded cache s bs b) :
    0 < placesOf cache s bs b := by
  rw [Nat.pos_iff_ne_zero, Ne, placesOf_eq_zero_iff, superblocks]
  rintro ⟨-, hsuper, hdeferred⟩
  rw [List.mem_append, not_or] at hsuper
  rcases h with hb | hp | hd
  · exact hsuper.2 hb.1
  · exact hsuper.1 hp
  · exact hdeferred hd

theorem placesOf_pos_of_mem_superblocks {b : ℕ} (hb : b ∈ superblocks s bs) :
    0 < placesOf cache s bs b := by
  rw [Nat.pos_iff_ne_zero, Ne, placesOf_eq_zero_iff]
  exact fun hnot => hnot.2.1 hb

theorem placesOf_congr {cache' : Flcache} (hsame : ∀ b ∈ bs, cache' b = cache b) (a : ℕ) :
    placesOf cache' s bs a = placesOf cache s bs a := by
  rw [placesOf_eq, placesOf_eq,
    contents_congr fun b hb => congrArg Blblock.records (hsame b hb)]

theorem TableWf.congr {cache' : Flcache} (h : TableWf cache s bs)
    (hsame : ∀ b ∈ superblocks s bs, cache' b = cache b) : TableWf cache' s bs := by
  have hblocks : ∀ b ∈ bs, cache' b = cache b := fun b hb =>
    hsame b (List.mem_append_right _ hb)
  have hwf {b : ℕ} (hb : b ∈ superblocks s bs) (hwf : SuperblockWf cache s b) :
      SuperblockWf cache' s b := by
    have e := hsame b hb
    exact ⟨e.symm ▸ hwf.type, e.symm ▸ hwf.capacity, e.symm ▸ hwf.cpnum⟩
  have hchain {c : ℕ} {cs : List ℕ} (hc : Blchain cache c cs)
      (hcs : ∀ b ∈ cs, b ∈ superblocks s bs) : Blchain cache' c cs :=
    Chain.congr hc fun b hb => congrArg Blblock.next (hsame b (hcs b hb))
  exact {
    inmemory := h.inmemory
    type := h.type
    chain := hchain h.chain fun b hb => List.mem_append_right _ hb
    blocks := fun b hb => hwf (List.mem_append_right _ hb) (h.blocks b hb)
    nblocks := h.nblocks
    sorted := h.sorted
    filled := h.filled
    mycapacity := h.mycapacity
    mycapacityLt := h.mycapacityLt
    pending := by
      intro b hb
      have hmem : b ∈ superblocks s bs := List.mem_append_left _ hb
      obtain ⟨hc, hblock, hcpnum⟩ := h.pending b hb
      refine ⟨hchain hc fun c hc => ?_, hwf hmem hblock, (hsame b hmem).symm ▸ hcpnum⟩
      rcases List.mem_cons.mp hc with rfl | hc
      · exact hmem
      · exact List.mem_append_right _ hc
    once := fun a => (placesOf_congr hblocks a).symm ▸ h.once a
    null := (placesOf_congr hblocks suDaddrNull).trans h.null }

namespace FlsysInv

theorem lt_filesize (h : FlsysInv blocksize w bs) {a : ℕ}
    (ha : 0 < placesOf w.cache w.fl bs a ∨ a ∈ w.allocated ∨ a ∈ w.chl) :
    a < w.fl.flFilesize := by
  by_contra hge
  have haccount := h.account a
  rw [if_neg hge] at haccount
  rcases ha with hpos | hmem | hmem
  · omega
  · have hpos := List.count_pos_iff.mpr hmem
    omega
  · have hpos := List.count_pos_iff.mpr hmem
    omega

theorem ne_null (h : FlsysInv blocksize w bs) {a : ℕ} (ha : a ∈ w.allocated ∨ a ∈ w.chl) :
    a ≠ suDaddrNull :=
  (lt_of_lt_of_le (h.lt_filesize (.inr ha)) h.filesize).ne

theorem placesOf_eq_zero (h : FlsysInv blocksize w bs) {a : ℕ}
    (ha : a ∈ w.allocated ∨ a ∈ w.chl) : placesOf w.cache w.fl bs a = 0 := by
  have haccount := h.account a
  rw [if_pos (h.lt_filesize (.inr ha))] at haccount
  rcases ha with hmem | hmem
  · have hpos := List.count_pos_iff.mpr hmem
    omega
  · have hpos := List.count_pos_iff.mpr hmem
    omega

theorem notMem_allocated (h : FlsysInv blocksize w bs) {a : ℕ} (ha : a ∈ w.chl) :
    a ∉ w.allocated := by
  intro hmem
  have haccount := h.account a
  rw [if_pos (h.lt_filesize (.inr (.inr ha)))] at haccount
  have hchl := List.count_pos_iff.mpr ha
  have hallocated := List.count_pos_iff.mpr hmem
  omega

theorem length_le (h : FlsysInv blocksize w bs) : bs.length ≤ w.fl.flFilesize :=
  length_le_of_chain h.wf.chain fun _ hb =>
    h.lt_filesize (.inl (placesOf_pos_of_mem_superblocks (List.mem_append_right _ hb)))

theorem flBlocks_eq (h : FlsysInv blocksize w bs) : flBlocks w.cache w.fl = bs :=
  superblocksFrom_eq h.wf.chain h.length_le

theorem conserved (h : FlsysInv blocksize w bs) : w.Conserved := by
  intro a
  rw [Flsys.account, h.flBlocks_eq]
  exact h.account a

theorem nodup_allocated (h : FlsysInv blocksize w bs) : w.allocated.Nodup := by
  rw [List.nodup_iff_count_le_one]
  intro a
  have haccount := h.account a
  split at haccount <;> omega

/-- A superblock of an older checkpoint stands in the list or in the change list. -/
theorem older_held (h : FlsysInv blocksize w bs) {b : ℕ} (hb : w.Older b) :
    Guarded w.cache w.fl bs b ∨ b ∈ w.chl := by
  rcases hb with ⟨hmem, hlt⟩ | ⟨σ, hσ, hb⟩
  · rw [h.flBlocks_eq] at hmem
    rcases List.mem_append.mp hmem with hp | hb
    · exact .inl (.inr (.inl hp))
    · exact .inl (.inl ⟨hb, hlt⟩)
  · exact h.kept σ hσ b hb

theorem notMem_allocated_of_older (h : FlsysInv blocksize w bs) {b : ℕ} (hb : w.Older b) :
    b ∉ w.allocated := by
  rcases h.older_held hb with hguarded | hchl
  · intro hmem
    exact (placesOf_pos_of_guarded hguarded).ne' (h.placesOf_eq_zero (.inl hmem))
  · exact h.notMem_allocated hchl

theorem readsBack (h : FlsysInv blocksize w bs) {σ : Flsave} (hσ : σ ∈ w.saves) :
    w.ReadsBack σ := by
  intro fuel extendincr nextCpnum hle
  have hheld := h.saves σ hσ
  obtain ⟨s, bs', hs, hread⟩ := hheld.readBack hle fuel extendincr
  have hlt : ∀ b ∈ bs', b < s.flFilesize := by
    intro b hb
    have hpos : 0 < placesOf w.cache s bs' b :=
      placesOf_pos_of_mem_superblocks (List.mem_append_right _ hb)
    rw [hread.places, hheld.free.count_eq] at hpos
    rw [hread.filesize]
    by_contra hge
    have haccount := hheld.account b
    rw [if_neg hge] at haccount
    omega
  refine ⟨s, h.size ▸ hs, ?_⟩
  rw [flBlocks, superblocksFrom_eq hread.wf.chain (length_le_of_chain hread.wf.chain hlt)]
  exact hread.free.trans hheld.free

/-! ## The operations -/

/-- A block that is held keeps its image, when the operation does not take it. -/
theorem held_done (h : FlsysInv blocksize w bs) {take give bs' : List ℕ} {cache' : Flcache}
    {s' : Freelist} {chl : List Clrecord}
    (hdone : OpDone w.cache w.fl bs take give cache' s' bs' chl) {b : ℕ}
    (hb : Guarded w.cache w.fl bs b ∨ b ∈ w.chl) (hnot : b ∉ take) :
    cache' b = w.cache b ∧
      (Guarded cache' s' bs' b ∨ b ∈ w.chl ∨ b ∈ chl.map Prod.snd) := by
  rcases hb with hguarded | hchl
  · obtain ⟨hsame, hguarded' | hnew⟩ := hdone.guarded b hguarded
    · exact ⟨hsame, .inl hguarded'⟩
    · exact ⟨hsame, .inr (.inr hnew)⟩
  · exact ⟨hdone.outside b (h.placesOf_eq_zero (.inr hchl)) hnot, .inr (.inl hchl)⟩

/-- An operation of the list keeps the invariant, when it takes no superblock of an older
checkpoint and the account of the addresses is right. -/
theorem done (h : FlsysInv blocksize w bs) {take give bs' : List ℕ} {w' : Flsys}
    {chl : List Clrecord}
    (hdone : OpDone w.cache w.fl bs take give w'.cache w'.fl bs' chl)
    (hsaves : w'.saves = w.saves) (hsize : w'.fl.flBlocksize = w.fl.flBlocksize)
    (hspare : w'.fl.flMaxspareblocks = w.fl.flMaxspareblocks)
    (hfilesize : w'.fl.flFilesize ≤ suDaddrNull)
    (htake : ∀ b, w.Older b → b ∉ take)
    (hchl : ∀ b, b ∉ take → b ∈ w.chl ∨ b ∈ chl.map Prod.snd → b ∈ w'.chl)
    (haccount : ∀ a, placesOf w'.cache w'.fl bs' a + w'.allocated.count a + w'.chl.count a =
      if a < w'.fl.flFilesize then 1 else 0) : FlsysInv blocksize w' bs' where
  wf := hdone.wf
  ready := hdone.ready
  room := hdone.room
  size := hsize.trans h.size
  limit := by
    have hcap : w'.fl.flSbcapacity = w.fl.flSbcapacity := congrArg flSbcapacityOf hsize
    exact ⟨hspare ▸ h.limit.nonneg, by
      rw [hspare, hcap]
      exact h.limit.room⟩
  filesize := hfilesize
  account := haccount
  saves := by
    intro σ hσ
    rw [hsaves] at hσ
    exact (h.saves σ hσ).congr fun b hb =>
      (h.held_done hdone (h.kept σ hσ b hb) (htake b (.inr ⟨σ, hσ, hb⟩))).1
  kept := by
    intro σ hσ b hb
    rw [hsaves] at hσ
    have hnot := htake b (.inr ⟨σ, hσ, hb⟩)
    exact (h.held_done hdone (h.kept σ hσ b hb) hnot).2.imp_right (hchl b hnot)
  older := hsaves.symm ▸ h.older

structure Kept (blocksize : Idxblocksize) (w w' : Flsys) : Prop where
  inv : ∃ bs, FlsysInv blocksize w' bs
  older : ∀ b, w.Older b → w'.cache b = w.cache b

theorem alloc (h : FlsysInv blocksize w bs) {canfail extended : Bool}
    (hfits : AllocFits w.cache w.fl (flBlocks w.cache w.fl) canfail extended) (fuel : ℕ) :
    (∀ w', flsysOp fuel w (.alloc canfail extended) = some w' → Kept blocksize w w') ∧
      (w.fl.flFilesize < fuel → ∃ w', flsysOp fuel w (.alloc canfail extended) = some w') := by
  rw [h.flBlocks_eq] at hfits
  have hfresh : ∀ a, w.fl.flFilesize ≤ a → placesOf w.cache w.fl bs a = 0 := by
    intro a ha
    have haccount := h.account a
    rw [if_neg (Nat.not_lt.mpr ha)] at haccount
    omega
  obtain ⟨hspec, hsome⟩ := tableAlloc fuel h.wf h.ready h.room h.limit hfresh hfits
  refine ⟨fun w' hw' => ?_, fun hfuel => ?_⟩
  · obtain ⟨out, hout, rfl⟩ := Option.map_eq_some_iff.mp hw'
    obtain ⟨news, bs', halloc⟩ := hspec out hout
    have htake : ∀ b, w.Older b → b ∉ news := by
      intro b hb hmem
      rw [halloc.fresh] at hmem
      have hge := (List.mem_range'_1.mp hmem).1
      refine absurd (h.lt_filesize ?_) (Nat.not_lt.mpr hge)
      exact (h.older_held hb).imp placesOf_pos_of_guarded .inr
    refine ⟨⟨bs', h.done halloc.done rfl halloc.blocksize halloc.maxspareblocks ?_ htake ?_ ?_⟩,
      fun b hb => (h.held_done halloc.done (h.older_held hb) (htake b hb)).1⟩
    · show out.fl.flFilesize ≤ suDaddrNull
      rw [halloc.filesize]
      rcases halloc.bounded with hnil | hle
      · rw [hnil]
        exact h.filesize
      · exact hle
    · exact fun b _ hb => List.mem_append.mpr hb
    · intro a
      have hplaces := halloc.done.places a
      have haccount := h.account a
      have hnews : news.count a =
          if w.fl.flFilesize ≤ a ∧ a < w.fl.flFilesize + news.length then 1 else 0 := by
        rw [halloc.fresh, List.length_range']
        exact List.count_range_1'
      show placesOf out.cache out.fl bs' a + (out.given ++ w.allocated).count a +
        (w.chl ++ out.chl.map Prod.snd).count a = if a < out.fl.flFilesize then 1 else 0
      rw [List.count_append, List.count_append, halloc.filesize]
      rw [hnews] at hplaces
      split_ifs at hplaces haccount ⊢ <;> omega
  · obtain ⟨out, hout⟩ := hsome (lt_of_le_of_lt h.length_le hfuel)
    exact ⟨_, Option.map_eq_some_iff.mpr ⟨out, hout, rfl⟩⟩

theorem freed (h : FlsysInv blocksize w bs) {d : ℕ} (hd : d ∈ w.allocated ∨ d ∈ w.chl) :
    ∃ r bs', dbeFlFreeDeferch w.cache w.fl d = some r ∧
      OpDone w.cache w.fl bs [d] [] r.1 r.2.1 bs' r.2.2 ∧ SameConfig w.fl r.2.1 :=
  tableFree h.wf h.room (h.placesOf_eq_zero hd) (h.ne_null hd)

theorem count_erase_add {l : List ℕ} {d : ℕ} (hd : d ∈ l) (a : ℕ) :
    (l.erase d).count a + [d].count a = l.count a := by
  rw [← List.count_append, (List.perm_append_singleton d (l.erase d)).count_eq]
  exact ((List.perm_cons_erase hd).count_eq a).symm

theorem free (h : FlsysInv blocksize w bs) {d : ℕ} (hd : d ∈ w.allocated) (fuel : ℕ) :
    ∃ w', flsysOp fuel w (.free d) = some w' ∧ Kept blocksize w w' := by
  obtain ⟨r, bs', hr, hdone, hconfig⟩ := h.freed (.inl hd)
  have htake : ∀ b, w.Older b → b ∉ [d] := fun b hb hmem =>
    h.notMem_allocated_of_older hb (List.mem_singleton.mp hmem ▸ hd)
  refine ⟨_, Option.map_eq_some_iff.mpr ⟨r, hr, rfl⟩,
    ⟨bs', h.done hdone rfl hconfig.blocksize hconfig.maxspareblocks ?_ htake ?_ ?_⟩,
    fun b hb => (h.held_done hdone (h.older_held hb) (htake b hb)).1⟩
  · exact hconfig.filesize.trans_le h.filesize
  · exact fun b _ hb => List.mem_append.mpr hb
  · intro a
    have hplaces := hdone.places a
    have haccount := h.account a
    have herase := count_erase_add hd a
    show placesOf r.1 r.2.1 bs' a + (w.allocated.erase d).count a +
      (w.chl ++ r.2.2.map Prod.snd).count a = if a < r.2.1.flFilesize then 1 else 0
    rw [List.count_append, hconfig.filesize, ← haccount]
    rw [List.count_nil] at hplaces
    omega

theorem recycle (h : FlsysInv blocksize w bs) {d : ℕ}
    (hd : Permitted w (.recycle d)) (fuel : ℕ) :
    ∃ w', flsysOp fuel w (.recycle d) = some w' ∧ Kept blocksize w w' := by
  obtain ⟨hd, hsaves⟩ := hd
  obtain ⟨r, bs', hr, hdone, hconfig⟩ := h.freed (.inr hd)
  have htake : ∀ b, w.Older b → b ∉ [d] := by
    rintro b (⟨hmem, -⟩ | ⟨σ, hσ, hb⟩) hbd
    · rw [h.flBlocks_eq] at hmem
      obtain rfl := List.mem_singleton.mp hbd
      exact (placesOf_pos_of_mem_superblocks hmem).ne' (h.placesOf_eq_zero (.inr hd))
    · exact hsaves σ hσ (List.mem_singleton.mp hbd ▸ hb)
  refine ⟨_, Option.map_eq_some_iff.mpr ⟨r, hr, rfl⟩,
    ⟨bs', h.done hdone rfl hconfig.blocksize hconfig.maxspareblocks ?_ htake ?_ ?_⟩,
    fun b hb => (h.held_done hdone (h.older_held hb) (htake b hb)).1⟩
  · exact hconfig.filesize.trans_le h.filesize
  · rintro b hnot (hb | hb)
    · have hne : b ≠ d := mt List.mem_singleton.mpr hnot
      exact List.mem_append_left _ ((List.mem_erase_of_ne hne).mpr hb)
    · exact List.mem_append_right _ hb
  · intro a
    have hplaces := hdone.places a
    have haccount := h.account a
    have herase := count_erase_add hd a
    show placesOf r.1 r.2.1 bs' a + w.allocated.count a +
      (w.chl.erase d ++ r.2.2.map Prod.snd).count a = if a < r.2.1.flFilesize then 1 else 0
    rw [List.count_append, hconfig.filesize, ← haccount]
    rw [List.count_nil] at hplaces
    omega

theorem retire (h : FlsysInv blocksize w bs) {d : ℕ} (hd : d ∈ w.allocated) :
    FlsysInv blocksize { w with allocated := w.allocated.erase d, chl := d :: w.chl } bs where
  wf := h.wf
  ready := h.ready
  room := h.room
  size := h.size
  limit := h.limit
  filesize := h.filesize
  account := by
    intro a
    have haccount := h.account a
    have herase := count_erase_add hd a
    show placesOf w.cache w.fl bs a + (w.allocated.erase d).count a + (d :: w.chl).count a =
      if a < w.fl.flFilesize then 1 else 0
    rw [← List.singleton_append, List.count_append, ← haccount]
    omega
  saves := h.saves
  kept := fun σ hσ b hb => (h.kept σ hσ b hb).imp_right (List.mem_cons_of_mem d)
  older := h.older

theorem reserve (h : FlsysInv blocksize w bs) {reservesize : ℤ}
    (hfits : LimitFits w.fl reservesize) :
    FlsysInv blocksize { w with fl := dbeFlSetreservesize w.fl reservesize } bs := by
  have e : SameTable w.fl (dbeFlSetreservesize w.fl reservesize) :=
    ⟨rfl, rfl, rfl, rfl, rfl, rfl, rfl, rfl, rfl⟩
  exact {
    wf := e.wf h.wf
    ready := h.ready
    room := h.room
    size := h.size
    limit := ⟨hfits.nonneg, hfits.room⟩
    filesize := h.filesize
    account := fun a => (congrArg (· + _ + _) (e.placesOf a)).trans (h.account a)
    saves := h.saves
    kept := fun σ hσ b hb => (h.kept σ hσ b hb).imp_left e.guarded.mpr
    older := h.older }

theorem write (h : FlsysInv blocksize w bs) {d : ℕ} (hd : d ∈ w.allocated) (x : Blblock ℕ) :
    Kept blocksize w { w with cache := Function.update w.cache d x } := by
  have hzero := h.placesOf_eq_zero (.inl hd)
  have holder : ∀ b, w.Older b → Function.update w.cache d x b = w.cache b := fun b hb =>
    Function.update_of_ne (ne_of_mem_of_not_mem hd (h.notMem_allocated_of_older hb)).symm _ _
  have hsuper : ∀ b ∈ superblocks w.fl bs, Function.update w.cache d x b = w.cache b :=
    fun b hb => Function.update_of_ne
      (fun e => (placesOf_pos_of_mem_superblocks hb).ne' (e ▸ hzero)) _ _
  have hblocks : ∀ b ∈ bs, Function.update w.cache d x b = w.cache b :=
    fun b hb => hsuper b (List.mem_append_right _ hb)
  refine ⟨⟨bs, ?_⟩, holder⟩
  exact {
    wf := h.wf.congr hsuper
    ready := h.ready
    room := h.room
    size := h.size
    limit := h.limit
    filesize := h.filesize
    account := fun a => (congrArg (· + _ + _) (placesOf_congr hblocks a)).trans (h.account a)
    saves := fun σ hσ => (h.saves σ hσ).congr fun b hb => holder b (.inr ⟨σ, hσ, hb⟩)
    kept := by
      intro σ hσ b hb
      refine (h.kept σ hσ b hb).imp_left fun hguarded => ?_
      rcases hguarded with hmem | hrest
      · refine .inl ⟨hmem.1, ?_⟩
        show (Function.update w.cache d x b).header.blCpnum < w.fl.flNextcpnum
        rw [hblocks b hmem.1]
        exact hmem.2
      · exact .inr hrest
    older := h.older }

theorem forget (h : FlsysInv blocksize w bs) (n : ℕ) :
    FlsysInv blocksize { w with saves := w.saves.take n } bs where
  wf := h.wf
  ready := h.ready
  room := h.room
  size := h.size
  limit := h.limit
  filesize := h.filesize
  account := h.account
  saves := fun σ hσ => h.saves σ (List.mem_of_mem_take hσ)
  kept := fun σ hσ => h.kept σ (List.mem_of_mem_take hσ)
  older := h.older.sublist (List.take_sublist n w.saves)

theorem deferredOf_saved {fuel nextCpnum : ℕ} {r : FlSaved}
    (hr : dbeFlSaveDeferch fuel cache s nextCpnum = some r) : deferredOf r.fl = [] := by
  obtain ⟨v, -, rfl⟩ := Option.map_eq_some_iff.mp hr
  rfl

/-- The new save can be read back, and the older ones stand in it or in the change list. -/
theorem inv_addSave {nextCpnum : ℕ} {r : FlSaved} {bs' : List ℕ}
    (hsave : TableSaveDone w.cache w.fl bs nextCpnum r bs') (hdeferred : deferredOf r.fl = [])
    (h' : FlsysInv blocksize
      { w with cache := r.cache, fl := r.fl, chl := w.chl ++ r.chl.map Prod.snd } bs') :
    FlsysInv blocksize (addSave w nextCpnum r) bs' := by
  have hsize : r.filesize = r.fl.flFilesize := hsave.saved.trans hsave.filesize.symm
  have hblocks : superblocksFrom r.cache r.filesize r.superblockDaddr =
      superblocks r.fl bs' := by
    refine superblocksFrom_eq hsave.chain (length_le_of_chain hsave.chain fun b hb => ?_)
    rw [hsize]
    exact h'.lt_filesize (.inl (placesOf_pos_of_mem_superblocks hb))
  have hfree : freeOf r.cache r.fl (flBlocks r.cache r.fl) = freeOf r.cache r.fl bs' :=
    congrArg _ h'.flBlocks_eq
  have hplaces (a : ℕ) : (freeOf r.cache r.fl bs').count a + (superblocks r.fl bs').count a =
      placesOf r.cache r.fl bs' a := by
    rw [placesOf, hdeferred]
    rfl
  have hheld : SaveHeld blocksize r.cache
      { superblockDaddr := r.superblockDaddr, filesize := r.filesize, nextCpnum := nextCpnum,
        blocks := superblocks r.fl bs', free := freeOf r.cache r.fl bs',
        allocated := w.allocated, chl := w.chl ++ r.chl.map Prod.snd } := by
    refine ⟨⟨hsave.chain, fun b hb => (hsave.older b hb).1.type, fun b hb => ?_,
      fun b hb => (hsave.older b hb).2, fun a => ?_, ?_⟩, hsave.free.symm, fun a => ?_, ?_⟩
    · rw [← h'.size]
      exact (hsave.older b hb).1.capacity
    · rw [← hsave.free.count_eq, hplaces]
      exact h'.wf.once a
    · rw [← hsave.free.count_eq]
      have hnull := h'.wf.null
      rw [← hplaces] at hnull
      exact Nat.eq_zero_of_add_eq_zero_right hnull
    · show (freeOf r.cache r.fl bs').count a + (superblocks r.fl bs').count a + _ + _ = _
      rw [hplaces, hsize]
      exact h'.account a
    · exact hsize.trans_le h'.filesize
  rw [addSave, hblocks, hfree]
  exact {
    wf := h'.wf
    ready := h'.ready
    room := h'.room
    size := h'.size
    limit := h'.limit
    filesize := h'.filesize
    account := h'.account
    saves := List.forall_mem_cons.mpr ⟨hheld, h'.saves⟩
    kept := by
      refine List.forall_mem_cons.mpr ⟨fun b hb => .inl ?_, h'.kept⟩
      rcases List.mem_append.mp hb with hp | hmem
      · exact .inr (.inl hp)
      · refine .inl ⟨hmem, ?_⟩
        rw [hsave.nextcpnum]
        exact (hsave.older b hb).2
    older := by
      refine List.pairwise_cons.mpr ⟨fun τ hτ b hb => ?_, h'.older⟩
      refine (h'.kept τ hτ b hb).imp_left fun hguarded => ?_
      rcases hguarded with hmem | hp | hd
      · exact List.mem_append_right _ hmem.1
      · exact List.mem_append_left _ hp
      · exact absurd (hdeferred ▸ hd) List.not_mem_nil }

theorem save (h : FlsysInv blocksize w bs) {nextCpnum : ℕ}
    (hlt : w.fl.flNextcpnum < nextCpnum) (hfits : SaveTableFits w.cache w.fl) (fuel : ℕ) :
    ∃ w', flsysOp fuel w (.save nextCpnum) = some w' ∧ Kept blocksize w w' := by
  obtain ⟨r, bs', hr, hsave⟩ := tableSave fuel h.wf h.ready h.room hfits hlt
  have hnone : ∀ b, w.Older b → b ∉ ([] : List ℕ) := fun _ _ => List.not_mem_nil
  have h' : FlsysInv blocksize
      { w with cache := r.cache, fl := r.fl, chl := w.chl ++ r.chl.map Prod.snd } bs' := by
    refine h.done hsave.done rfl hsave.blocksize hsave.maxspareblocks
      (hsave.filesize.trans_le h.filesize) hnone (fun b _ hb => List.mem_append.mpr hb)
      fun a => ?_
    have hplaces := hsave.done.places a
    have haccount := h.account a
    show placesOf r.cache r.fl bs' a + w.allocated.count a +
      (w.chl ++ r.chl.map Prod.snd).count a = if a < r.fl.flFilesize then 1 else 0
    rw [List.count_append, hsave.filesize, ← haccount]
    rw [List.count_nil] at hplaces
    omega
  exact ⟨_, Option.map_eq_some_iff.mpr ⟨r, hr, rfl⟩,
    ⟨bs', inv_addSave hsave (deferredOf_saved hr) h'⟩,
    fun b hb => (h.held_done hsave.done (h.older_held hb) (hnone b hb)).1⟩

theorem account_openSave {σ : Flsave} (hheld : SaveHeld blocksize cache σ)
    {extendincr nextCpnum : ℕ}
    (hread : ReadBack cache blocksize σ.filesize extendincr nextCpnum σ.blocks s bs) (a : ℕ) :
    placesOf cache (handOver s) bs a + σ.allocated.count a +
      (σ.chl ++ s.flDeferchlist.map Prod.snd).count a = if a < s.flFilesize then 1 else 0 := by
  have hover : placesOf cache (handOver s) bs a + (s.flDeferchlist.map Prod.snd).count a =
      placesOf cache s bs a := placesOf_handOver cache s bs a
  have hplaces := hread.places a
  have haccount := hheld.account a
  rw [hheld.free.count_eq] at hplaces
  rw [List.count_append, hread.filesize, ← haccount]
  omega

theorem reopen (h : FlsysInv blocksize w bs) {k nextCpnum extendincr : ℕ}
    (hk : Permitted w (.reopen k nextCpnum extendincr)) (fuel : ℕ) :
    ∃ w', flsysOp fuel w (.reopen k nextCpnum extendincr) = some w' ∧ Kept blocksize w w' := by
  obtain ⟨σ, hσ, hle⟩ := hk
  obtain ⟨hlt, rfl⟩ := List.getElem?_eq_some_iff.mp hσ
  have hdrop : w.saves.drop k = w.saves[k] :: w.saves.drop (k + 1) :=
    List.drop_eq_getElem_cons hlt
  have hmem : ∀ τ ∈ w.saves[k] :: w.saves.drop (k + 1), τ ∈ w.saves :=
    fun τ hτ => List.mem_of_mem_drop (hdrop.symm ▸ hτ)
  have hpairs := h.older.sublist (List.drop_sublist k w.saves)
  rw [hdrop] at hpairs
  generalize w.saves[k] = σ at hdrop hmem hpairs hle
  have hheld := h.saves σ (hmem σ List.mem_cons_self)
  obtain ⟨s, bs', hs, hread⟩ := hheld.readBack hle fuel extendincr
  have hop : flsysOp fuel w (.reopen k nextCpnum extendincr) =
      some (openSave w σ (w.saves.drop (k + 1)) s) := by
    rw [flsysOp, hdrop]
    dsimp only
    rw [h.size, hs]
    rfl
  have hbehind {b : ℕ} (hb : b ∈ σ.blocks ∨ b ∈ σ.chl) :
      Guarded w.cache (handOver s) bs' b ∨ b ∈ σ.chl ++ s.flDeferchlist.map Prod.snd := by
    rcases hb with hb | hb
    · rcases hread.guarded b hb with hmem | hp | hd
      · exact .inl (.inl hmem)
      · exact .inl (.inr (.inl hp))
      · exact .inr (List.mem_append_right _ hd)
    · exact .inr (List.mem_append_left _ hb)
  refine ⟨_, hop, ⟨bs', ?_⟩, fun _ _ => rfl⟩
  exact {
    wf := hread.wf.handOver
    ready := hread.ready
    room := hread.room
    size := hread.blocksize
    limit := by
      have hcap := flSbcapacityOf_le s.flBlocksize
      have hspare : (handOver s).flMaxspareblocks = 0 := hread.maxspareblocks
      refine ⟨hspare.ge, ?_⟩
      show (handOver s).flMaxspareblocks + flSbcapacityOf s.flBlocksize + 2 < _
      rw [hspare]
      omega
    filesize := hread.filesize.trans_le hheld.filesize
    account := account_openSave hheld hread
    saves := fun τ hτ => h.saves τ (hmem τ hτ)
    kept := List.forall_mem_cons.mpr ⟨fun b hb => hbehind (.inl hb),
      fun τ hτ b hb => hbehind ((List.pairwise_cons.mp hpairs).1 τ hτ b hb)⟩
    older := hpairs }

theorem op (h : FlsysInv blocksize w bs) {op : FlsysOp} (hp : Permitted w op)
    (hfits : FlsysOpFits w op) (fuel : ℕ) :
    (∀ w', flsysOp fuel w op = some w' → Kept blocksize w w') ∧
      (w.fl.flFilesize < fuel → ∃ w', flsysOp fuel w op = some w') := by
  have hsome {w' : Flsys} (hw' : flsysOp fuel w op = some w') (hkept : Kept blocksize w w') :
      (∀ w', flsysOp fuel w op = some w' → Kept blocksize w w') ∧
        (w.fl.flFilesize < fuel → ∃ w', flsysOp fuel w op = some w') := by
    refine ⟨fun w'' hw'' => ?_, fun _ => ⟨w', hw'⟩⟩
    obtain rfl := Option.some.inj (hw'.symm.trans hw'')
    exact hkept
  cases op with
  | alloc canfail extended => exact h.alloc hfits fuel
  | free daddr =>
      obtain ⟨w', hw', hkept⟩ := h.free hp fuel
      exact hsome hw' hkept
  | retire daddr => exact hsome rfl ⟨⟨bs, h.retire hp⟩, fun _ _ => rfl⟩
  | recycle daddr =>
      obtain ⟨w', hw', hkept⟩ := h.recycle hp fuel
      exact hsome hw' hkept
  | write daddr block => exact hsome rfl (h.write hp block)
  | reserve reservesize => exact hsome rfl ⟨⟨bs, h.reserve hfits⟩, fun _ _ => rfl⟩
  | save nextCpnum =>
      obtain ⟨w', hw', hkept⟩ := h.save hp hfits fuel
      exact hsome hw' hkept
  | forget n => exact hsome rfl ⟨⟨bs, h.forget n⟩, fun _ _ => rfl⟩
  | reopen k nextCpnum extendincr =>
      obtain ⟨w', hw', hkept⟩ := h.reopen hp fuel
      exact hsome hw' hkept

theorem new (cache : Flcache) (blocksize : Idxblocksize) {filesize : ℕ}
    (hsize : filesize ≤ suDaddrNull) (extendincr nextCpnum : ℕ) :
    FlsysInv blocksize (Flsys.new cache blocksize filesize extendincr nextCpnum) [] := by
  have hchain : SavedChain cache blocksize nextCpnum suDaddrNull [] :=
    ⟨rfl, List.forall_mem_nil _, List.forall_mem_nil _, List.forall_mem_nil _,
      fun _ => Nat.zero_le 1, rfl⟩
  obtain ⟨hwf, hplaces⟩ := hchain.tableWf filesize extendincr
  have hcap := flSbcapacityOf_le blocksize
  refine ⟨hwf, fun _ => .inl rfl, hwf.mycapacity_pos, rfl, ⟨le_rfl, ?_⟩, hsize,
    fun a => ?_, List.forall_mem_nil _, List.forall_mem_nil _, .nil⟩
  · show 0 + (flSbcapacityOf blocksize : ℤ) + 2 < _
    omega
  · have hrange : (List.range filesize).count a = if a < filesize then 1 else 0 :=
      List.count_range
    exact (congrArg (· + _ + 0) (hplaces a)).trans ((Nat.zero_add _).trans hrange)

theorem run {w0 : Flsys} (h : FlsysInv blocksize w0 bs) (hrun : FlsysRun FlsysOpFits w0 w) :
    ∃ bs', FlsysInv blocksize w bs' := by
  induction hrun with
  | init => exact ⟨bs, h⟩
  | step _ hp hop hw ih =>
      obtain ⟨bs', h'⟩ := ih
      exact ((h'.op hp hop _).1 _ hw).inv

end FlsysInv

/-! ## Every run -/

/-- In a run whose operations meet the condition, every address below the end of the file
is in exactly one place at every point, every save that is held reads back the free
addresses that it had, and the next operation returns, hands out no address twice and
overwrites no superblock of an older checkpoint. -/
theorem conserved_of_flsysRun (cache : Flcache) (blocksize : Idxblocksize)
    {filesize : ℕ} (extendincr nextCpnum : ℕ) (hsize : filesize ≤ suDaddrNull) {w : Flsys}
    (hrun : FlsysRun FlsysOpFits (Flsys.new cache blocksize filesize extendincr nextCpnum) w) :
    w.Conserved ∧ (∀ σ ∈ w.saves, w.ReadsBack σ) ∧
      ∀ op, Permitted w op → FlsysOpFits w op → FlsysOpSafe w op := by
  obtain ⟨bs, h⟩ := (FlsysInv.new cache blocksize hsize extendincr nextCpnum).run hrun
  refine ⟨h.conserved, fun σ hσ => h.readsBack hσ, fun op hp hfits => ?_⟩
  refine ⟨fun fuel => (h.op hp hfits fuel).2, fun fuel w' hw' => ?_, fun fuel w' hw' => ?_⟩
  · exact ((h.op hp hfits fuel).1 w' hw').older
  · obtain ⟨bs', h'⟩ := ((h.op hp hfits fuel).1 w' hw').inv
    exact h'.nodup_allocated

/-! ## Runs of given operations -/

section GivenOperations

variable (fits : Flsys → FlsysOp → Prop) [∀ w op, Decidable (fits w op)]

def flsysOps (fuel : ℕ) : Flsys → List FlsysOp → Option Flsys
  | w, [] => some w
  | w, op :: ops =>
    if Permitted w op ∧ fits w op then (flsysOp fuel w op).bind fun w' => flsysOps fuel w' ops
    else none

variable {fits}

theorem FlsysRun.of_flsysOps {fuel : ℕ} {w0 w w' : Flsys} {ops : List FlsysOp}
    (hrun : FlsysRun fits w0 w) (h : flsysOps fits fuel w ops = some w') :
    FlsysRun fits w0 w' := by
  induction ops generalizing w with
  | nil =>
      obtain rfl := Option.some.inj h
      exact hrun
  | cons op ops ih =>
      rw [flsysOps] at h
      obtain ⟨hp, h⟩ := Option.ite_none_right_eq_some.mp h
      obtain ⟨w1, hw1, h⟩ := Option.bind_eq_some_iff.mp h
      exact ih (hrun.step hp.1 hp.2 hw1) h

end GivenOperations

def newFlsys : Flsys :=
  Flsys.new (fun _ => ⟨dbeBlhInit .freelist 0, fun _ => 0⟩) twoKilobytes 1 8 1

/-- Blocks are allocated, freed and saved, a superblock is read for an allocation, and the
first save is read again: every address of the file is in one place. -/
theorem conserved_save_and_reopen :
    ∃ w, flsysOps FlsysOpFits 12 newFlsys [.alloc false true, .alloc false true, .save 2,
        .free 1, .save 3, .alloc false true, .alloc true false, .reopen 1 4 8] = some w ∧
      w.allocated = [2, 1, 0] ∧ w.Conserved := by
  have hops : (flsysOps FlsysOpFits 12 newFlsys [.alloc false true, .alloc false true, .save 2,
      .free 1, .save 3, .alloc false true, .alloc true false, .reopen 1 4 8]).map
        Flsys.allocated = some [2, 1, 0] := by
    decide +kernel
  obtain ⟨w, hw, hallocated⟩ := Option.map_eq_some_iff.mp hops
  have hrun : FlsysRun FlsysOpFits newFlsys w := FlsysRun.init.of_flsysOps hw
  exact ⟨w, hw, hallocated,
    (conserved_of_flsysRun _ _ 8 1 (by decide : 1 ≤ suDaddrNull) hrun).1⟩

/-- Two superblocks are read one after the other, and the address of the first one is
lost. -/
theorem not_conserved_of_reserve :
    ¬ ∀ w, FlsysRun (fun _ _ => True) newFlsys w → w.Conserved := by
  intro hall
  have hlost : (flsysOps (fun _ _ => True) 5 newFlsys
      [.reserve 100, .alloc false true, .alloc false true, .save 2, .free 1, .free 2, .save 3,
        .alloc false true]).map
        (fun w => (w.account 1, w.fl.flFilesize)) = some (0, 25) := by
    decide +kernel
  obtain ⟨w, hw, hplaces⟩ := Option.map_eq_some_iff.mp hlost
  have hone := hall w (.of_flsysOps .init hw) 1
  rw [(Prod.mk.inj hplaces).1, (Prod.mk.inj hplaces).2] at hone
  exact Nat.zero_ne_one hone

end SolidDB
