import SolidDB.Dbe.FlstMapSave
import Mathlib.Data.Nat.Basic

/-!
# Reading the bit map back

The superblocks are read from the one that was written last. Their addresses are counted
in `bl_nblocks`, which has two bytes, and only those that are counted come into the map.
-/

namespace SolidDB

open BlockChain Bitmap

/-! ## The addresses that are taken over -/

/-- The addresses that come into the bit map from superblocks with these records, when
`bl_nblocks` is `nblocks` before. -/
def acceptedAddrs (nblocks : ℕ) : List (List ℕ) → List ℕ
  | [] => []
  | r :: rs =>
    r.take (uint2 (r.length + nblocks) - nblocks) ++
      acceptedAddrs (uint2 (r.length + nblocks)) rs

variable {nblocks : ℕ} {rs : List (List ℕ)}

theorem acceptedAddrs_eq_flatten (h : nblocks + rs.flatten.length < 2 ^ 16) :
    acceptedAddrs nblocks rs = rs.flatten := by
  induction rs generalizing nblocks with
  | nil => rfl
  | cons r rs ih =>
      rw [List.flatten_cons, List.length_append] at h
      have hmod : uint2 (r.length + nblocks) = r.length + nblocks := uint2_of_lt (by omega)
      rw [acceptedAddrs, hmod, Nat.add_sub_cancel, List.take_length, List.flatten_cons,
        ih (by omega)]

theorem acceptedAddrs_sublist (nblocks : ℕ) (rs : List (List ℕ)) :
    (acceptedAddrs nblocks rs).Sublist rs.flatten := by
  induction rs generalizing nblocks with
  | nil => exact List.Sublist.refl _
  | cons r rs ih => exact (List.take_sublist _ r).append (ih _)

theorem length_acceptedAddrs_lt (hr : ∀ r ∈ rs, r.length < 2 ^ 16) (hn : nblocks < 2 ^ 16)
    (h : 2 ^ 16 ≤ nblocks + rs.flatten.length) :
    (acceptedAddrs nblocks rs).length < rs.flatten.length := by
  induction rs generalizing nblocks with
  | nil => exact absurd h (Nat.not_le.mpr hn)
  | cons r rs ih =>
      rw [List.forall_mem_cons] at hr
      rw [List.flatten_cons, List.length_append] at h
      rw [acceptedAddrs, List.flatten_cons, List.length_append, List.length_append]
      rcases Nat.lt_or_ge (r.length + nblocks) (2 ^ 16) with hlt | hge
      · have hmod : uint2 (r.length + nblocks) = r.length + nblocks := uint2_of_lt hlt
        have hrest := ih hr.2 hlt (by omega)
        rw [hmod, Nat.add_sub_cancel, List.take_length]
        exact Nat.add_lt_add_left hrest _
      · -- the sum is smaller than before, and the block is passed over
        have hmod : uint2 (r.length + nblocks) - nblocks = 0 := by
          have hr1 := hr.1
          rw [uint2]
          omega
        have hrest := (acceptedAddrs_sublist (uint2 (r.length + nblocks)) rs).length_le
        rw [hmod, List.take_zero, List.length_nil, Nat.zero_add]
        omega

theorem mem_acceptedAddrs_iff (nblocks : ℕ) (hnodup : rs.flatten.Nodup)
    (hr : ∀ r ∈ rs, r.length < 2 ^ 16) (hn : nblocks < 2 ^ 16) :
    (∀ a, a ∈ acceptedAddrs nblocks rs ↔ a ∈ rs.flatten) ↔
      nblocks + rs.flatten.length < 2 ^ 16 := by
  constructor
  · intro h
    by_contra hge
    have hlt := length_acceptedAddrs_lt hr hn (Nat.le_of_not_lt hge)
    have hle := (List.subperm_of_subset hnodup fun a ha => (h a).mpr ha).length_le
    exact absurd hlt (Nat.not_lt.mpr hle)
  · intro h a
    rw [acceptedAddrs_eq_flatten h]

/-! ## The loop -/

variable {cache : Flcache} {s : Freelist} {bs : List ℕ}

def readPass (cache : Flcache) (s : Freelist) (b : ℕ) : Freelist :=
  dbeFlAddtochlist (takeSuperblock s (cache b)) (cache b).header.blCpnum b

theorem flMap_readPass (hmem : s.flInmemory = true) (b a : ℕ) :
    (readPass cache s b).flMap a =
      (s.flMap a || ((cache b).records.take
        (uint2 ((cache b).header.blNblocks + s.flHeader.blNblocks) -
          s.flHeader.blNblocks)).contains a) := by
  rw [readPass, dbeFlAddtochlist, takeSuperblock]
  dsimp only
  rw [if_pos hmem]

theorem blNblocks_readPass (b : ℕ) :
    (readPass cache s b).flHeader.blNblocks =
      uint2 ((cache b).header.blNblocks + s.flHeader.blNblocks) := rfl

theorem flMap_readPasses (cache : Flcache) (bs : List ℕ) (hmem : s.flInmemory = true) (a : ℕ) :
    (bs.foldl (readPass cache) s).flMap a =
      (s.flMap a ||
        (acceptedAddrs s.flHeader.blNblocks (bs.map fun b => (cache b).records)).contains a) := by
  induction bs generalizing s with
  | nil =>
      rw [List.foldl_nil, List.map_nil, acceptedAddrs, List.contains_nil, Bool.or_false]
  | cons b bs ih =>
      have hlen : (cache b).header.blNblocks = (cache b).records.length :=
        (length_recordsUpto _ _).symm
      rw [List.foldl_cons, ih (show (readPass cache s b).flInmemory = true from hmem),
        flMap_readPass hmem, blNblocks_readPass, List.map_cons, acceptedAddrs, hlen,
        List.contains_append, Bool.or_assoc]

def OldSuperblocks (cache : Flcache) (s : Freelist) (bs : List ℕ) : Prop :=
  ∀ b ∈ bs, (cache b).header.blType = .freelist ∧ (cache b).header.blCpnum ≠ s.flNextcpnum

theorem dbeFlRead1superblock_readPass {b : ℕ} (hmem : s.flInmemory = true)
    (hold : (cache b).header.blType = .freelist ∧ (cache b).header.blCpnum ≠ s.flNextcpnum)
    (hb : s.flHeader.blNext = b) :
    dbeFlRead1superblock cache s = some (readPass cache s b, .success) := by
  subst hb
  rw [dbeFlRead1superblock]
  dsimp only
  rw [if_neg (not_not_intro hold.1), blCpnum_takeSuperblock, flNextcpnum_takeSuperblock,
    if_neg hold.2, flInmemory_takeSuperblock, if_pos (Or.inl hmem)]
  rfl

theorem readSuperblocks_eq (hmem : s.flInmemory = true)
    (hchain : Blchain cache s.flHeader.blNext bs) (hold : OldSuperblocks cache s bs)
    (fuel : ℕ) :
    readSuperblocks cache fuel s =
      if bs.length < fuel then some (bs.foldl (readPass cache) s, .success) else none := by
  induction fuel generalizing s bs with
  | zero => rfl
  | succ fuel ih =>
      rw [readSuperblocks]
      cases bs with
      | nil =>
          rw [if_pos (chain_nil.mp hchain), List.length_nil, if_pos fuel.succ_pos,
            List.foldl_nil]
      | cons b bs =>
          have hold' := List.forall_mem_cons.mp hold
          have hnext : s.flHeader.blNext ≠ suDaddrNull := hchain.1.symm ▸ hchain.2.1
          rw [if_neg hnext, dbeFlRead1superblock_readPass hmem hold'.1 hchain.1]
          dsimp only
          rw [ih (s := readPass cache s b) hmem hchain.2.2 hold'.2, List.length_cons,
            List.foldl_cons]
          exact if_congr Nat.succ_lt_succ_iff.symm rfl rfl

/-! ## The list that is read back -/

theorem dbeFlInit_eq {blocksize : Idxblocksize} {start filesize extendincr cpnum : ℕ}
    (hstart : start ≠ suDaddrNull) (hchain : Blchain cache start bs)
    (hold : ∀ b ∈ bs, (cache b).header.blType = .freelist ∧ (cache b).header.blCpnum ≠ cpnum)
    (fuel : ℕ) :
    dbeFlInit fuel cache blocksize start filesize extendincr cpnum true =
      if bs.length < fuel then
        some { bs.foldl (readPass cache)
          (flEmpty blocksize start filesize extendincr cpnum true) with flReadfrom := start }
      else none := by
  have hread := readSuperblocks_eq
    (s := flEmpty blocksize start filesize extendincr cpnum true) rfl hchain hold fuel
  rw [dbeFlInit]
  dsimp only
  rw [if_neg hstart, if_pos rfl, dbeFlReadAllSuperblocks, hread]
  split_ifs
  · rfl
  · rfl

theorem dbeFlInit_map (blocksize : Idxblocksize) (filesize extendincr : ℕ) {start cpnum : ℕ}
    (hstart : start ≠ suDaddrNull) (hchain : Blchain cache start bs)
    (hold : ∀ b ∈ bs, (cache b).header.blType = .freelist ∧ (cache b).header.blCpnum ≠ cpnum)
    (P : (ℕ → Bool) → Prop) :
    (∃ fuel r, dbeFlInit fuel cache blocksize start filesize extendincr cpnum true = some r ∧
        P r.flMap) ↔
      P fun a => (acceptedAddrs 0 (bs.map fun b => (cache b).records)).contains a := by
  have hmap : (bs.foldl (readPass cache)
      (flEmpty blocksize start filesize extendincr cpnum true)).flMap =
      fun a => (acceptedAddrs 0 (bs.map fun b => (cache b).records)).contains a := by
    funext a
    have hread := @flMap_readPasses
      (flEmpty blocksize start filesize extendincr cpnum true) cache bs rfl a
    rw [hread]
    exact Bool.false_or _
  constructor
  · rintro ⟨fuel, r, hr, hP⟩
    rw [dbeFlInit_eq hstart hchain hold] at hr
    obtain ⟨-, hr⟩ := Option.ite_none_right_eq_some.mp hr
    rw [← Option.some.inj hr] at hP
    rw [← hmap]
    exact hP
  · intro hP
    refine ⟨bs.length + 1, { bs.foldl (readPass cache)
      (flEmpty blocksize start filesize extendincr cpnum true) with flReadfrom := start },
      ?_, ?_⟩
    · rw [dbeFlInit_eq hstart hchain hold, if_pos (Nat.lt_succ_self _)]
    · show P (bs.foldl (readPass cache) _).flMap
      rw [hmap]
      exact hP

/-! ## The round trip -/

/-- The save can be read back: in every later checkpoint the superblocks give the free
addresses but their own. -/
def ReadsBack (s : Freelist) (w : Flcache × Freelist) (bs : List ℕ) : Prop :=
  ∀ cpnum, cpnum ≠ s.flNextcpnum →
    ∃ fuel r, dbeFlInit fuel w.1 s.flBlocksize w.2.flReadfrom w.2.flFilesize s.flExtendincr
        cpnum true = some r ∧
      ∀ a, a < s.flFilesize → (r.flMap a = true ↔ s.flMap a = true ∧ a ∉ bs)

def NotRecorded (cache : Flcache) (bs : List ℕ) : Prop :=
  ∀ a ∈ bs, a ∉ contents Blblock.records cache bs

/-- `dbe_fl_write_all_superblocks` does what it is for. -/
def SavesExactly (cache : Flcache) (s : Freelist) : Prop :=
  CountKnown s ∧ ∃ fuel w bs, dbeFlWriteAllSuperblocks fuel cache s = some w ∧
    Blchain w.1 w.2.flReadfrom bs ∧ NotRecorded w.1 bs ∧ ReadsBack s w bs ∧
    w.2.flFreeblocks = dbeFlMeasurelengthNomutex w.2

theorem length_saveLayout (hn : 0 < (freeAddrs s).length) :
    (saveLayout s).length =
      superblockCount s.flSbcapacity (freeAddrs s).length +
        if s.flSbcapacity + 1 ∣ (freeAddrs s).length then 1 else 0 := by
  have hc : 0 < s.flSbcapacity := flSbcapacityOf_pos s.flBlocksize
  rw [saveLayout, length_superblockLayout hc (length_drop_superblockCount_lt hn),
    List.length_drop]
  generalize s.flSbcapacity = c at hc ⊢
  obtain ⟨n, hn'⟩ := Nat.exists_eq_succ_of_ne_zero hn.ne'
  rw [hn']
  -- the addresses in groups of one superblock each
  have hgroup : n.succ - superblockCount c n.succ = n % (c + 1) + c * (n / (c + 1)) := by
    have hdiv := Nat.mod_add_div n (c + 1)
    have hmul : (c + 1) * (n / (c + 1)) = c * (n / (c + 1)) + n / (c + 1) :=
      Nat.succ_mul c _
    unfold superblockCount
    rw [Nat.succ_sub_one]
    omega
  rw [hgroup, Nat.add_mul_div_left _ _ hc, superblockCount, Nat.succ_sub_one]
  have hle : n % (c + 1) ≤ c := Nat.le_of_lt_succ (Nat.mod_lt n (Nat.succ_pos c))
  have hlast : n % (c + 1) / c = if c + 1 ∣ n.succ then 1 else 0 := by
    have hdvd : c + 1 ∣ n.succ ↔ n % (c + 1) = c := by
      rw [Nat.dvd_iff_mod_eq_zero, Nat.succ_mod_succ_eq_zero_iff]
    split
    next h => rw [hdvd.mp h, Nat.div_self hc]
    next h => exact Nat.div_eq_of_lt (lt_of_le_of_ne hle (mt hdvd.mpr h))
  rw [hlast]
  omega

theorem map_fst_saveLayout (hn : 0 < (freeAddrs s).length) :
    (saveLayout s).map Prod.fst = (freeAddrs s).take (saveLayout s).length := by
  have hc : 0 < s.flSbcapacity := flSbcapacityOf_pos s.flBlocksize
  have hlt := length_drop_superblockCount_lt (n := s.flSbcapacity) hn
  rw [saveLayout, map_fst_superblockLayout hc hlt, length_superblockLayout hc hlt]

theorem flatMap_snd_saveLayout (hn : 0 < (freeAddrs s).length) :
    (saveLayout s).flatMap Prod.snd =
      (freeAddrs s).drop (superblockCount s.flSbcapacity (freeAddrs s).length) :=
  flatMap_snd_superblockLayout (flSbcapacityOf_pos s.flBlocksize)
    (length_drop_superblockCount_lt hn)

/-- A superblock is recorded when the superblocks would all be full. -/
theorem notRecorded_saveLayout_iff (hn : 0 < (freeAddrs s).length) :
    (∀ a ∈ (saveLayout s).map Prod.fst, a ∉ (saveLayout s).flatMap Prod.snd) ↔
      ¬ s.flSbcapacity + 1 ∣ (freeAddrs s).length := by
  have hnodup : (freeAddrs s).Nodup := nodup_ones _ _ _
  have hcount := superblockCount_le (c := s.flSbcapacity) hn
  rw [map_fst_saveLayout hn, flatMap_snd_saveLayout hn, length_saveLayout hn]
  generalize hk : superblockCount s.flSbcapacity (freeAddrs s).length = k at hcount ⊢
  constructor
  · intro h hdvd
    rw [if_pos hdvd] at h
    -- the address behind the counted ones is both
    have hlt : k < (freeAddrs s).length := by
      refine lt_of_le_of_ne hcount fun heq => ?_
      have hc : 0 < s.flSbcapacity := flSbcapacityOf_pos s.flBlocksize
      have hle := Nat.le_of_dvd hn hdvd
      have hdiv : ((freeAddrs s).length - 1) / (s.flSbcapacity + 1) <
          (freeAddrs s).length - 1 :=
        Nat.div_lt_self (by omega) (by omega)
      unfold superblockCount at hk
      omega
    have hget : (freeAddrs s).get ⟨k, hlt⟩ ∈ (freeAddrs s).take (k + 1) := by
      refine List.mem_iff_getElem.mpr ⟨k, ?_, List.getElem_take⟩
      rw [List.length_take]
      exact lt_min (Nat.lt_succ_self k) hlt
    refine h _ hget (List.mem_iff_getElem.mpr ⟨0, ?_, List.getElem_drop⟩)
    rw [List.length_drop]
    exact Nat.sub_pos_of_lt hlt
  · intro hdvd
    rw [if_neg hdvd]
    exact fun a ha hd => List.disjoint_take_drop hnodup le_rfl ha hd

variable {w : Flcache × Freelist}

theorem MapSaved.map_records (hm : MapSaved s w) :
    (((saveLayout s).map Prod.fst).reverse.map fun b => (w.1 b).records) =
      ((saveLayout s).reverse).map Prod.snd := by
  rw [List.map_reverse, List.map_reverse, List.map_map]
  exact congrArg List.reverse (List.map_congr_left hm.records)

theorem MapSaved.records_perm (hm : MapSaved s w) (hn : 0 < (freeAddrs s).length) :
    (((saveLayout s).map Prod.fst).reverse.map fun b => (w.1 b).records).flatten.Perm
      ((freeAddrs s).drop (superblockCount s.flSbcapacity (freeAddrs s).length)) := by
  rw [hm.map_records, ← List.flatMap_def, ← flatMap_snd_saveLayout hn]
  exact (List.reverse_perm _).flatMap_right _

/-- The superblocks of a save are read back if their addresses can be counted. -/
theorem MapSaved.readsBack_iff (hm : MapSaved s w) (hn : 0 < (freeAddrs s).length)
    (hdvd : ¬ s.flSbcapacity + 1 ∣ (freeAddrs s).length) :
    ReadsBack s w ((saveLayout s).map Prod.fst).reverse ↔
      (freeAddrs s).length - superblockCount s.flSbcapacity (freeAddrs s).length < 2 ^ 16 := by
  let bs := ((saveLayout s).map Prod.fst).reverse
  have hnodup : (freeAddrs s).Nodup := nodup_ones _ _ _
  have hperm := hm.records_perm hn
  -- the addresses that should be read
  have hrest (a : ℕ) : a ∈ freeAddrs s ∧ a ∉ bs ↔
      a ∈ (bs.map fun b => (w.1 b).records).flatten := by
    rw [List.mem_reverse, hperm.mem_iff, map_fst_saveLayout hn, length_saveLayout hn,
      if_neg hdvd]
    constructor
    · rintro ⟨hfree, hnot⟩
      rw [← List.take_append_drop (superblockCount s.flSbcapacity (freeAddrs s).length)
        (freeAddrs s)] at hfree
      exact (List.mem_append.mp hfree).resolve_left hnot
    · intro hdrop
      refine ⟨List.mem_of_mem_drop hdrop, fun htake => ?_⟩
      exact List.disjoint_take_drop hnodup le_rfl htake hdrop
  have hlen : ∀ r ∈ bs.map fun b => (w.1 b).records, r.length < 2 ^ 16 := by
    intro r hr
    rw [hm.map_records] at hr
    obtain ⟨b, hb, rfl⟩ := List.mem_map.mp hr
    have hcap := flSbcapacityOf_le s.flBlocksize
    have hle := length_le_of_mem_superblockLayout (List.mem_reverse.mp hb)
    unfold Freelist.flSbcapacity at hle
    omega
  have haccepted := mem_acceptedAddrs_iff 0
    (hperm.nodup_iff.mpr (hnodup.sublist (List.drop_sublist _ _))) hlen (Nat.two_pow_pos 16)
  rw [Nat.zero_add, hperm.length_eq, List.length_drop] at haccepted
  rw [← haccepted]
  have hstart : w.2.flReadfrom ≠ suDaddrNull := by
    refine (hm.chain.eq_nil_iff).not.mp fun hnil => ?_
    have hzero := congrArg List.length hnil
    rw [List.length_reverse, List.length_map, length_saveLayout hn] at hzero
    exact absurd hzero (Nat.ne_of_gt (Nat.add_pos_left (Nat.succ_pos _) _))
  have hold (cpnum : ℕ) (hcp : cpnum ≠ s.flNextcpnum) : ∀ b ∈ bs,
      (w.1 b).header.blType = .freelist ∧ (w.1 b).header.blCpnum ≠ cpnum := by
    intro a ha
    obtain ⟨b, hb, rfl⟩ := List.mem_map.mp (List.mem_reverse.mp ha)
    rw [hm.cpnum b hb]
    exact ⟨hm.type b hb, hcp.symm⟩
  have hread (cpnum : ℕ) (hcp : cpnum ≠ s.flNextcpnum) :=
    dbeFlInit_map s.flBlocksize w.2.flFilesize s.flExtendincr hstart hm.chain (hold cpnum hcp)
      fun map => ∀ a, a < s.flFilesize → (map a = true ↔ s.flMap a = true ∧ a ∉ bs)
  have hmem (a : ℕ) : a ∈ freeAddrs s ↔ a < s.flFilesize ∧ s.flMap a = true :=
    mem_ones.trans (and_iff_right a.zero_le)
  constructor
  · intro h a
    have hback := (hread _ (Nat.succ_ne_self s.flNextcpnum)).mp (h _ (Nat.succ_ne_self _))
    rw [← hrest, hmem]
    constructor
    · intro ha
      have hfree := ((hrest a).mpr ((acceptedAddrs_sublist _ _).subset ha)).1
      have hlt := ((hmem a).mp hfree).1
      have hmap := (hback a hlt).mp (List.contains_iff_mem.mpr ha)
      exact ⟨⟨hlt, hmap.1⟩, hmap.2⟩
    · rintro ⟨⟨hlt, hmap⟩, hnot⟩
      exact List.contains_iff_mem.mp ((hback a hlt).mpr ⟨hmap, hnot⟩)
  · intro h cpnum hcp
    refine (hread cpnum hcp).mpr fun a hlt => ?_
    rw [List.contains_iff_mem, h a, ← hrest, hmem, and_iff_right hlt]

structure SaveFits (s : Freelist) : Prop where
  known : CountKnown s
  notDvd : ¬ s.flSbcapacity + 1 ∣ (freeAddrs s).length
  counted : (freeAddrs s).length - superblockCount s.flSbcapacity (freeAddrs s).length < 2 ^ 16

theorem saveFits_iff (h : FlSaving cache s) : SavesExactly cache s ↔ SaveFits s := by
  have hpos (hdvd : ¬ s.flSbcapacity + 1 ∣ (freeAddrs s).length) : 0 < (freeAddrs s).length :=
    Nat.pos_of_ne_zero fun hzero => hdvd (hzero ▸ Nat.dvd_zero _)
  constructor
  · rintro ⟨hk, fuel, w, bs, hw, hchain, hnot, hback, hcount⟩
    have hn : 0 < (freeAddrs s).length := by
      refine List.length_pos_iff.mpr fun hnil => ?_
      exact freeblocks_of_freeAddrs_nil hk hnil hw hcount
    have hm := mapSaved h hk hn hw
    obtain rfl := hchain.unique hm.chain
    have hdvd : ¬ s.flSbcapacity + 1 ∣ (freeAddrs s).length := by
      rw [← notRecorded_saveLayout_iff hn]
      intro a ha hrec
      refine hnot a (List.mem_reverse.mpr ha) ?_
      rw [contents, List.flatMap_def, (hm.records_perm hn).mem_iff,
        ← flatMap_snd_saveLayout hn]
      exact hrec
    exact ⟨hk, hdvd, (hm.readsBack_iff hn hdvd).mp hback⟩
  · intro hfits
    have hn := hpos hfits.notDvd
    obtain ⟨fuel, w, hw⟩ := exists_dbeFlWriteAllSuperblocks h
    have hm := mapSaved h hfits.known hn hw
    refine ⟨hfits.known, fuel, w, _, hw, hm.chain, fun a ha hrec => ?_,
      (hm.readsBack_iff hn hfits.notDvd).mpr hfits.counted, hm.freeblocks⟩
    rw [contents, List.flatMap_def, (hm.records_perm hn).mem_iff,
      ← flatMap_snd_saveLayout hn] at hrec
    exact (notRecorded_saveLayout_iff hn).mpr hfits.notDvd a (List.mem_reverse.mp ha) hrec

end SolidDB
