import SolidDB.Dbe.FlstTable

/-!
# Reading a superblock into the table

The addresses of the superblock come into the table. Its own address becomes free when it
is of the current checkpoint; otherwise it waits for the first change, or goes to the
change list at once when the table stays empty.
-/

namespace SolidDB

open BlockChain

variable {cache : Flcache} {s : Freelist} {b : ℕ} {bs : List ℕ}

/-- An unmodified table was read from an older superblock. -/
def TableReady (s : Freelist) : Prop :=
  s.flModified = false → s.flHeader.blNblocks = 0 ∨ s.flNextcpnum ≠ s.flHeader.blCpnum

theorem TableReady.of_modified (h : s.flModified = true) : TableReady s :=
  fun hm => Bool.noConfusion (h.symm.trans hm)

def taken (cache : Flcache) (s : Freelist) : Freelist :=
  takeSuperblock s (cache s.flHeader.blNext)

theorem flAddrtable_taken (hmem : s.flInmemory = false) :
    (taken cache s).flAddrtable =
      (s.flAddrtable ++ (cache s.flHeader.blNext).records).insertionSort (· ≥ ·) :=
  if_neg (hmem ▸ Bool.false_ne_true)

theorem length_taken (cache : Flcache) (hmem : s.flInmemory = false) :
    (taken cache s).flAddrtable.length =
      s.flAddrtable.length + (cache s.flHeader.blNext).header.blNblocks := by
  rw [flAddrtable_taken hmem, List.length_insertionSort, List.length_append, Blblock.records,
    length_recordsUpto]

theorem count_taken (hmem : s.flInmemory = false) (x : ℕ) :
    (taken cache s).flAddrtable.count x =
      s.flAddrtable.count x + (cache s.flHeader.blNext).records.count x := by
  rw [flAddrtable_taken hmem, (List.perm_insertionSort _ _).count_eq, List.count_append]

/-- The entries of the table after `sum` addresses are in it. -/
def capacityFor (mycapacity sum : ℕ) : ℕ := if mycapacity < sum then sum + 1 else mycapacity

theorem le_capacityFor (mycapacity sum : ℕ) : sum ≤ capacityFor mycapacity sum := by
  unfold capacityFor
  split
  · exact Nat.le_succ sum
  · omega

theorem lt_capacityFor {mycapacity sum : ℕ} (h : sum ≠ mycapacity) :
    sum < capacityFor mycapacity sum := by
  unfold capacityFor
  split
  · exact Nat.lt_succ_self sum
  · omega

theorem flMycapacity_taken (cache : Flcache) (s : Freelist) :
    (taken cache s).flMycapacity = capacityFor s.flMycapacity
      ((cache s.flHeader.blNext).header.blNblocks + s.flHeader.blNblocks) := rfl

theorem placesOf_taken (h : TableWf cache s (b :: bs)) (hp : pendingBlock s = []) (x : ℕ) :
    placesOf cache (taken cache s) bs x + [b].count x =
      placesOf cache s (b :: bs) x + (pendingBlock (taken cache s)).count x := by
  have hb : s.flHeader.blNext = b := h.chain.1
  rw [placesOf_eq, placesOf_eq, hp, count_taken h.inmemory, hb, contents_cons,
    List.count_append, List.count_cons, List.count_cons, List.count_nil]
  show _ + _ + (deferredOf s).count x + _ = _
  omega

theorem pendingBlock_taken_sub (cache : Flcache) (hb : s.flHeader.blNext = b) (x : ℕ) :
    (pendingBlock (taken cache s)).count x ≤ [b].count x := by
  unfold pendingBlock
  split
  · show [s.flHeader.blNext].count x ≤ _
    rw [hb]
  · exact Nat.zero_le _

theorem tableWf_taken (h : TableWf cache s (b :: bs)) (hp : pendingBlock s = [])
    (hroom : s.flAddrtable.length + (cache b).header.blNblocks + 2 < 2 ^ 16) :
    TableWf cache (taken cache s) bs := by
  have hb : s.flHeader.blNext = b := h.chain.1
  have hblock := h.blocks b List.mem_cons_self
  have hle (x : ℕ) : placesOf cache (taken cache s) bs x ≤ placesOf cache s (b :: bs) x := by
    have hplaces := placesOf_taken h hp x
    have hsub := pendingBlock_taken_sub cache hb x
    omega
  have hlen := length_taken cache h.inmemory
  rw [hb] at hlen
  have hsum : (cache s.flHeader.blNext).header.blNblocks + s.flHeader.blNblocks < 2 ^ 16 := by
    rw [hb, h.nblocks]
    omega
  exact {
    inmemory := h.inmemory
    type := by
      show (cache s.flHeader.blNext).header.blType = .freelist
      rw [hb]
      exact hblock.type
    chain := by
      show Blchain cache (cache s.flHeader.blNext).next bs
      rw [hb]
      exact h.chain.2.2
    blocks := fun c hc =>
      have hc' := h.blocks c (List.mem_cons_of_mem b hc)
      ⟨hc'.type, hc'.capacity, hc'.cpnum⟩
    nblocks := by
      show uint2 _ = _
      rw [uint2_of_lt hsum, length_taken cache h.inmemory, h.nblocks, Nat.add_comm]
    sorted := by
      rw [flAddrtable_taken h.inmemory]
      exact List.pairwise_insertionSort _ _
    filled := by
      rw [hlen, flMycapacity_taken, hb, h.nblocks, Nat.add_comm]
      exact le_capacityFor _ _
    mycapacity := by
      have hcap := h.mycapacity
      rw [flMycapacity_taken, capacityFor]
      show 2 * s.flSbcapacity + 2 ≤ _
      split
      · omega
      · exact hcap
    mycapacityLt := by
      have hcap := h.mycapacityLt
      rw [flMycapacity_taken, hb, h.nblocks, capacityFor]
      split
      · omega
      · exact hcap
    pending := by
      intro a ha
      have hab : a = b := by
        unfold pendingBlock at ha
        split at ha
        · rw [List.mem_singleton] at ha
          exact ha.trans hb
        · exact absurd ha List.not_mem_nil
      subst hab
      refine ⟨⟨rfl, h.chain.2.1, h.chain.2.2⟩, ⟨hblock.type, hblock.capacity, hblock.cpnum⟩, ?_⟩
      show _ = (cache s.flHeader.blNext).header.blCpnum
      rw [hb]
    once := fun x => (hle x).trans (h.once x)
    null := Nat.eq_zero_of_le_zero ((hle _).trans_eq h.null) }

theorem sameConfig_taken (cache : Flcache) (s : Freelist) : SameConfig s (taken cache s) :=
  ⟨rfl, rfl, rfl, rfl, rfl⟩

theorem flStep_addtochlist (h : TableWf cache s bs) {a : ℕ} (cpnum : ℕ)
    (hzero : placesOf cache s bs a = 0) (hnull : a ≠ suDaddrNull) :
    FlStep [a] [] cache s bs cache (dbeFlAddtochlist s cpnum a) bs := by
  have hdefer : deferredOf (dbeFlAddtochlist s cpnum a) = deferredOf s ++ [a] :=
    List.map_append
  have hplaces (x : ℕ) : placesOf cache (dbeFlAddtochlist s cpnum a) bs x + [].count x =
      placesOf cache s bs x + [a].count x := by
    rw [placesOf_eq, placesOf_eq, hdefer, List.count_append, List.count_nil]
    show s.flAddrtable.count x + _ + ((pendingBlock s).count x + _) + _ + 0 = _
    omega
  have hone (x : ℕ) : placesOf cache s bs x + [a].count x ≤ 1 := by
    by_cases hx : x = a
    · rw [hx, hzero, List.count_singleton_self]
    · rw [List.count_eq_zero.mpr (mt List.mem_singleton.mp hx)]
      exact h.once x
  refine ⟨?_, ⟨rfl, rfl, rfl, rfl, rfl⟩, hplaces, fun _ _ _ => rfl, ?_⟩
  · exact {
      inmemory := h.inmemory
      type := h.type
      chain := h.chain
      blocks := fun b hb =>
        ⟨(h.blocks b hb).type, (h.blocks b hb).capacity, (h.blocks b hb).cpnum⟩
      nblocks := h.nblocks
      sorted := h.sorted
      filled := h.filled
      mycapacity := h.mycapacity
      mycapacityLt := h.mycapacityLt
      pending := fun b hb =>
        have hb' := h.pending b hb
        ⟨hb'.1, ⟨hb'.2.1.type, hb'.2.1.capacity, hb'.2.1.cpnum⟩, hb'.2.2⟩
      once := fun x => (Nat.le_add_right _ _).trans ((hplaces x).trans_le (hone x))
      null := by
        have hnullx := hplaces suDaddrNull
        rw [h.null, List.count_eq_zero.mpr (mt List.mem_singleton.mp hnull.symm)] at hnullx
        exact Nat.eq_zero_of_add_eq_zero_right hnullx }
  · rintro x (hb | hp | hd)
    · exact ⟨rfl, .inl hb⟩
    · exact ⟨rfl, .inr (.inl hp)⟩
    · refine ⟨rfl, .inr (.inr ?_)⟩
      rw [hdefer]
      exact List.mem_append_left _ hd

theorem pendingBlock_taken (h : TableWf cache s (b :: bs)) :
    pendingBlock (taken cache s) =
      if s.flNextcpnum ≠ (cache b).header.blCpnum ∧ 0 < (taken cache s).flHeader.blNblocks then
        [b] else [] := by
  have hb : s.flHeader.blNext = b := h.chain.1
  have hmod : ¬ (taken cache s).flModified = true := Bool.false_ne_true
  have hcpnum : (taken cache s).flHeader.blCpnum = (cache b).header.blCpnum := by
    rw [← hb]
    rfl
  have hread : (taken cache s).flReadfrom = b := hb
  rw [pendingBlock, hread, hcpnum]
  exact if_congr (and_iff_right hmod) rfl rfl

/-- The superblock leaves an entry of the table for its own address, which comes into the
table when it is of the current checkpoint. -/
def LeavesEntry (cache : Flcache) (nextcpnum mycapacity n b : ℕ) : Prop :=
  (cache b).header.blCpnum = nextcpnum → (cache b).header.blNblocks + n ≠ mycapacity

structure TableRead (cache : Flcache) (s : Freelist) (b : ℕ) (bs : List ℕ) (s' : Freelist) :
    Prop where
  step : FlStep [] [] cache s (b :: bs) cache s' bs
  length : s'.flAddrtable.length = s.flAddrtable.length + (cache b).header.blNblocks +
    if (cache b).header.blCpnum = s.flNextcpnum then 1 else 0
  mycapacity : s'.flMycapacity =
    capacityFor s.flMycapacity ((cache b).header.blNblocks + s.flAddrtable.length)
  pending : pendingBlock s' = [] ∨
    ((cache b).header.blCpnum ≠ s.flNextcpnum ∧ 0 < s'.flAddrtable.length)
  ready : TableReady s'
  older : (cache b).header.blCpnum ≠ s.flNextcpnum →
    s'.flAddrtable = (taken cache s).flAddrtable

theorem dbeFlRead1superblock_table (h : TableWf cache s (b :: bs)) :
    dbeFlRead1superblock cache s =
      (if (cache b).header.blCpnum = s.flNextcpnum then dbeFlInsert (taken cache s) b
        else if (taken cache s).flHeader.blNblocks = 0 then
          some (dbeFlAddtochlist (taken cache s) (cache b).header.blCpnum b)
        else some (taken cache s)).map fun s' => (s', .success) := by
  have hb : s.flHeader.blNext = b := h.chain.1
  have hblock := h.blocks b List.mem_cons_self
  have hmem : ¬ s.flInmemory = true := h.inmemory ▸ Bool.false_ne_true
  rw [dbeFlRead1superblock, taken, hb]
  dsimp only
  rw [if_neg (not_not_intro hblock.type), blCpnum_takeSuperblock, flNextcpnum_takeSuperblock,
    flInmemory_takeSuperblock]
  refine congrArg _ (if_congr Iff.rfl rfl (if_congr (or_iff_right hmem) rfl rfl))

/-- The read superblock apart, what is guarded stays so behind it. -/
theorem Guarded.taken {x : ℕ} (hp : pendingBlock s = []) (hx : Guarded cache s (b :: bs) x) :
    (x = b ∧ (cache b).header.blCpnum < s.flNextcpnum) ∨
      Guarded cache (taken cache s) bs x := by
  rcases hx with ⟨hx, hlt⟩ | hx | hx
  · rcases List.mem_cons.mp hx with rfl | hx
    · exact .inl ⟨rfl, hlt⟩
    · exact .inr (.inl ⟨hx, hlt⟩)
  · exact absurd (hp ▸ hx) List.not_mem_nil
  · exact .inr (.inr (.inr hx))

theorem tableRead (h : TableWf cache s (b :: bs)) (hp : pendingBlock s = [])
    (hroom : s.flAddrtable.length + (cache b).header.blNblocks + 2 < 2 ^ 16)
    (hentry : LeavesEntry cache s.flNextcpnum s.flMycapacity s.flAddrtable.length b) :
    ∃ s', dbeFlRead1superblock cache s = some (s', .success) ∧ TableRead cache s b bs s' := by
  have hwf := tableWf_taken h hp hroom
  have hb : s.flHeader.blNext = b := h.chain.1
  have hlen := length_taken cache h.inmemory
  rw [hb] at hlen
  have hplaces := placesOf_taken h hp
  have hwait := pendingBlock_taken h
  have hcapacity : (taken cache s).flMycapacity =
      capacityFor s.flMycapacity ((cache b).header.blNblocks + s.flAddrtable.length) := by
    rw [flMycapacity_taken, hb, h.nblocks]
  -- without a waiting superblock the address is not in the list
  have hzero (hnone : pendingBlock (taken cache s) = []) :
      placesOf cache (taken cache s) bs b = 0 := by
    have hb1 := hplaces b
    have honce := h.once b
    rw [hnone, List.count_singleton_self, List.count_nil] at hb1
    omega
  rw [dbeFlRead1superblock_table h]
  by_cases hcp : (cache b).header.blCpnum = s.flNextcpnum
  · -- the superblock becomes free
    rw [if_neg fun hne => hne.1 hcp.symm] at hwait
    have hfree : (taken cache s).flAddrtable.length < (taken cache s).flMycapacity := by
      rw [hlen, hcapacity, Nat.add_comm]
      exact lt_capacityFor (hentry hcp)
    obtain ⟨s', hs', hstep, hlen', hcap', hmod, -⟩ :=
      flStep_insert hwf (hzero hwait) h.chain.2.1 hfree
    refine ⟨s', by rw [if_pos hcp, hs']; rfl, ⟨⟨hstep.wf, ?_, fun x => ?_, fun x hx _ => rfl, ?_⟩,
      ?_, hcap'.trans hcapacity, .inl (pendingBlock_of_modified hmod), .of_modified hmod,
      fun hne => absurd hcp hne⟩⟩
    · exact (sameConfig_taken cache s).trans hstep.config
    · have hx := hstep.places x
      have hx' := hplaces x
      rw [hwait] at hx'
      omega
    · intro x hx
      rcases hx.taken hp with ⟨rfl, hlt⟩ | hguarded
      · exact absurd hcp hlt.ne
      · exact hstep.guarded x hguarded
    · rw [hlen', hlen, if_pos hcp]
  · rw [if_neg hcp]
    by_cases hempty : (taken cache s).flHeader.blNblocks = 0
    · -- the superblock goes to the change list
      rw [if_neg fun hne => hne.2.ne' hempty] at hwait
      rw [if_pos hempty]
      have hstep := flStep_addtochlist hwf (cache b).header.blCpnum (hzero hwait) h.chain.2.1
      refine ⟨_, rfl, ⟨⟨hstep.wf, (sameConfig_taken cache s).trans hstep.config, fun x => ?_,
        fun _ _ _ => rfl, ?_⟩, ?_, hcapacity, .inl hwait, fun _ => .inl hempty, fun _ => rfl⟩⟩
      · have hx := hstep.places x
        have hx' := hplaces x
        rw [hwait] at hx'
        omega
      · intro x hx
        rcases hx.taken hp with ⟨rfl, -⟩ | hguarded
        · refine ⟨rfl, .inr (.inr ?_)⟩
          exact List.mem_map.mpr ⟨_, List.mem_append_right _ (List.mem_singleton_self _), rfl⟩
        · exact hstep.guarded x hguarded
      · rw [if_neg hcp]
        exact hlen
    · -- the superblock waits
      rw [if_pos ⟨Ne.symm hcp, Nat.pos_of_ne_zero hempty⟩] at hwait
      rw [if_neg hempty]
      refine ⟨taken cache s, rfl, ⟨⟨hwf, ⟨rfl, rfl, rfl, rfl, rfl⟩, fun x => ?_,
        fun _ _ _ => rfl, ?_⟩, ?_, hcapacity, .inr ⟨hcp, ?_⟩, fun _ => .inr ?_, fun _ => rfl⟩⟩
      · have hx := hplaces x
        rw [hwait] at hx
        rw [List.count_nil]
        omega
      · intro x hx
        rcases hx.taken hp with ⟨rfl, -⟩ | hguarded
        · refine ⟨rfl, .inr (.inl ?_)⟩
          rw [hwait]
          exact List.mem_singleton_self x
        · exact ⟨rfl, hguarded⟩
      · rw [hlen, if_neg hcp]
        rfl
      · rw [← hwf.nblocks]
        exact Nat.pos_of_ne_zero hempty
      · show s.flNextcpnum ≠ (cache s.flHeader.blNext).header.blCpnum
        rw [hb]
        exact Ne.symm hcp

end SolidDB
