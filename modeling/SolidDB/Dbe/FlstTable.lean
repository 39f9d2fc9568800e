import SolidDB.Dbe.Flst
import Mathlib.Data.List.Perm.Basic

/-!
# The table of the free list

A list with a table has its addresses in the table and in the superblocks that follow.
Every operation on the table keeps the account of the addresses: what it takes and what
it gives away is all that changes, and it writes no superblock of an older checkpoint.
-/

namespace SolidDB

open BlockChain

/-- The superblock that the table was read from, while it waits for the change list. -/
def pendingBlock (s : Freelist) : List ℕ :=
  if ¬ s.flModified ∧ s.flNextcpnum ≠ s.flHeader.blCpnum ∧ 0 < s.flHeader.blNblocks then
    [s.flReadfrom] else []

def superblocks (s : Freelist) (bs : List ℕ) : List ℕ := pendingBlock s ++ bs

def freeOf (cache : Flcache) (s : Freelist) (bs : List ℕ) : List ℕ :=
  s.flAddrtable ++ contents Blblock.records cache bs

/-- The addresses on the way to the change list. -/
def deferredOf (s : Freelist) : List ℕ := s.flDeferchlist.map Prod.snd

/-- How often an address is in the list: free, a superblock, or deferred. -/
def placesOf (cache : Flcache) (s : Freelist) (bs : List ℕ) (a : ℕ) : ℕ :=
  (freeOf cache s bs).count a + (superblocks s bs).count a + (deferredOf s).count a

structure SuperblockWf (cache : Flcache) (s : Freelist) (b : ℕ) : Prop where
  type : (cache b).header.blType = .freelist
  capacity : (cache b).header.blNblocks ≤ s.flSbcapacity
  cpnum : (cache b).header.blCpnum ≤ s.flNextcpnum

/-- A list with a table, and the addresses of the superblocks that follow. -/
structure TableWf (cache : Flcache) (s : Freelist) (bs : List ℕ) : Prop where
  inmemory : s.flInmemory = false
  type : s.flHeader.blType = .freelist
  chain : Blchain cache s.flHeader.blNext bs
  blocks : ∀ b ∈ bs, SuperblockWf cache s b
  nblocks : s.flHeader.blNblocks = s.flAddrtable.length
  sorted : s.flAddrtable.Pairwise (· ≥ ·)
  filled : s.flAddrtable.length ≤ s.flMycapacity
  mycapacity : 2 * s.flSbcapacity + 2 ≤ s.flMycapacity
  mycapacityLt : s.flMycapacity < 2 ^ 16
  pending : ∀ b ∈ pendingBlock s, Blchain cache b (b :: bs) ∧ SuperblockWf cache s b ∧
    (cache b).header.blCpnum = s.flHeader.blCpnum
  once : ∀ a, placesOf cache s bs a ≤ 1
  null : placesOf cache s bs suDaddrNull = 0

/-- A superblock of an older checkpoint, also on the way to the change list. -/
def Guarded (cache : Flcache) (s : Freelist) (bs : List ℕ) (a : ℕ) : Prop :=
  (a ∈ bs ∧ (cache a).header.blCpnum < s.flNextcpnum) ∨ a ∈ pendingBlock s ∨
    a ∈ deferredOf s

structure SameConfig (s s' : Freelist) : Prop where
  blocksize : s'.flBlocksize = s.flBlocksize
  filesize : s'.flFilesize = s.flFilesize
  extendincr : s'.flExtendincr = s.flExtendincr
  nextcpnum : s'.flNextcpnum = s.flNextcpnum
  maxspareblocks : s'.flMaxspareblocks = s.flMaxspareblocks

theorem SameConfig.refl (s : Freelist) : SameConfig s s := ⟨rfl, rfl, rfl, rfl, rfl⟩

theorem SameConfig.trans {s s' s'' : Freelist} (h : SameConfig s s') (h' : SameConfig s' s'') :
    SameConfig s s'' where
  blocksize := h'.blocksize.trans h.blocksize
  filesize := h'.filesize.trans h.filesize
  extendincr := h'.extendincr.trans h.extendincr
  nextcpnum := h'.nextcpnum.trans h.nextcpnum
  maxspareblocks := h'.maxspareblocks.trans h.maxspareblocks

theorem SameConfig.sbcapacity {s s' : Freelist} (h : SameConfig s s') :
    s'.flSbcapacity = s.flSbcapacity := congrArg flSbcapacityOf h.blocksize

structure FlStep (take give : List ℕ) (cache : Flcache) (s : Freelist) (bs : List ℕ)
    (cache' : Flcache) (s' : Freelist) (bs' : List ℕ) : Prop where
  wf : TableWf cache' s' bs'
  config : SameConfig s s'
  places : ∀ a, placesOf cache' s' bs' a + give.count a = placesOf cache s bs a + take.count a
  outside : ∀ a, placesOf cache s bs a = 0 → a ∉ take → cache' a = cache a
  guarded : ∀ a, Guarded cache s bs a → cache' a = cache a ∧ Guarded cache' s' bs' a

theorem FlStep.refl {cache : Flcache} {s : Freelist} {bs : List ℕ} (h : TableWf cache s bs) :
    FlStep [] [] cache s bs cache s bs :=
  ⟨h, .refl s, fun _ => rfl, fun _ _ _ => rfl, fun _ ha => ⟨rfl, ha⟩⟩

theorem FlStep.trans {take give take' give' : List ℕ} {cache cache' cache'' : Flcache}
    {s s' s'' : Freelist} {bs bs' bs'' : List ℕ}
    (h : FlStep take give cache s bs cache' s' bs')
    (h' : FlStep take' give' cache' s' bs' cache'' s'' bs'') :
    FlStep (take ++ take') (give ++ give') cache s bs cache'' s'' bs'' where
  wf := h'.wf
  config := h.config.trans h'.config
  places := by
    intro a
    have hfirst := h.places a
    have hthen := h'.places a
    rw [List.count_append, List.count_append]
    omega
  outside := by
    intro a ha hnot
    rw [List.mem_append, not_or] at hnot
    have hplaces := h.places a
    rw [ha, List.count_eq_zero.mpr hnot.1] at hplaces
    have hzero : placesOf cache' s' bs' a = 0 := by omega
    rw [h'.outside a hzero hnot.2, h.outside a ha hnot.1]
  guarded := by
    intro a ha
    obtain ⟨hsame, hguarded⟩ := h.guarded a ha
    obtain ⟨hsame', hguarded'⟩ := h'.guarded a hguarded
    exact ⟨hsame'.trans hsame, hguarded'⟩

variable {cache : Flcache} {s : Freelist} {bs : List ℕ}

/-! ## Addresses in the list -/

theorem placesOf_eq (cache : Flcache) (s : Freelist) (bs : List ℕ) (a : ℕ) :
    placesOf cache s bs a =
      s.flAddrtable.count a + (contents Blblock.records cache bs).count a +
        ((pendingBlock s).count a + bs.count a) + (deferredOf s).count a := by
  rw [placesOf, freeOf, superblocks, List.count_append, List.count_append]

theorem placesOf_eq_zero_iff {a : ℕ} :
    placesOf cache s bs a = 0 ↔
      a ∉ freeOf cache s bs ∧ a ∉ superblocks s bs ∧ a ∉ deferredOf s := by
  rw [placesOf, Nat.add_eq_zero_iff, Nat.add_eq_zero_iff, List.count_eq_zero,
    List.count_eq_zero, List.count_eq_zero, and_assoc]

theorem TableWf.mycapacity_pos (h : TableWf cache s bs) : 0 < s.flMycapacity :=
  lt_of_lt_of_le (Nat.succ_pos _) h.mycapacity

theorem TableWf.counted (h : TableWf cache s bs) : s.flAddrtable.length < 2 ^ 16 :=
  lt_of_le_of_lt h.filled h.mycapacityLt

theorem TableWf.ne_null (h : TableWf cache s bs) {a : ℕ} (ha : a ∈ s.flAddrtable) :
    a ≠ suDaddrNull := by
  rintro rfl
  exact (placesOf_eq_zero_iff.mp h.null).1 (List.mem_append_left _ ha)

theorem pendingBlock_of_modified (h : s.flModified = true) : pendingBlock s = [] :=
  if_neg fun hp => hp.1 h

theorem pendingBlock_nil_of_addrtable (h : TableWf cache s bs) (hnil : s.flAddrtable = []) :
    pendingBlock s = [] := by
  refine if_neg fun hp => ?_
  rw [h.nblocks, hnil] at hp
  exact Nat.lt_irrefl 0 hp.2.2

/-- The list after the superblock it was read from has been put to the deferred changes. -/
def settled (s : Freelist) : Freelist :=
  { s with
    flDeferchlist := s.flDeferchlist ++ (pendingBlock s).map fun b => (s.flHeader.blCpnum, b)
    flModified := true }

theorem deferredOf_settled (s : Freelist) :
    deferredOf (settled s) = deferredOf s ++ pendingBlock s := by
  rw [deferredOf, settled, List.map_append, List.map_map]
  exact congrArg (deferredOf s ++ ·) (List.map_id _)

theorem addtochlist_eq_settled (s : Freelist) :
    { (if ¬ s.flModified ∧ s.flNextcpnum ≠ s.flHeader.blCpnum ∧ 0 < s.flHeader.blNblocks then
        dbeFlAddtochlist s s.flHeader.blCpnum s.flReadfrom else s) with flModified := true } =
      settled s := by
  rw [settled, pendingBlock]
  split
  · rfl
  · rw [List.map_nil, List.append_nil]

theorem placesOf_settled (cache : Flcache) (s : Freelist) (bs : List ℕ) (a : ℕ) :
    placesOf cache (settled s) bs a = placesOf cache s bs a := by
  have hpending : superblocks (settled s) bs = bs := by
    rw [superblocks, pendingBlock_of_modified rfl]
    rfl
  have hfree : freeOf cache (settled s) bs = freeOf cache s bs := rfl
  rw [placesOf, placesOf, hpending, deferredOf_settled, hfree, superblocks, List.count_append,
    List.count_append]
  omega

theorem TableWf.settled (h : TableWf cache s bs) : TableWf cache (settled s) bs where
  inmemory := h.inmemory
  type := h.type
  chain := h.chain
  blocks := fun b hb => ⟨(h.blocks b hb).type, (h.blocks b hb).capacity, (h.blocks b hb).cpnum⟩
  nblocks := h.nblocks
  sorted := h.sorted
  filled := h.filled
  mycapacity := h.mycapacity
  mycapacityLt := h.mycapacityLt
  pending := by
    intro b hb
    rw [pendingBlock_of_modified rfl] at hb
    exact absurd hb List.not_mem_nil
  once := fun a => (placesOf_settled cache s bs a).symm ▸ h.once a
  null := (placesOf_settled cache s bs suDaddrNull).trans h.null

theorem flStep_settled (h : TableWf cache s bs) :
    FlStep [] [] cache s bs cache (settled s) bs where
  wf := h.settled
  config := ⟨rfl, rfl, rfl, rfl, rfl⟩
  places := fun a => congrArg (· + 0) (placesOf_settled cache s bs a)
  outside := fun _ _ _ => rfl
  guarded := by
    rintro a (hb | hp | hd)
    · exact ⟨rfl, .inl hb⟩
    · refine ⟨rfl, .inr (.inr ?_)⟩
      rw [deferredOf_settled]
      exact List.mem_append_right _ hp
    · refine ⟨rfl, .inr (.inr ?_)⟩
      rw [deferredOf_settled]
      exact List.mem_append_left _ hd

/-! ## The table changes -/

def withTable (s : Freelist) (table : List ℕ) : Freelist :=
  { s with flHeader := { s.flHeader with blNblocks := table.length }, flAddrtable := table }

theorem flStep_withTable (h : TableWf cache s bs) (hm : s.flModified = true)
    (table take give : List ℕ) (hsorted : table.Pairwise (· ≥ ·))
    (hlen : table.length ≤ s.flMycapacity)
    (hcount : ∀ a, table.count a + give.count a = s.flAddrtable.count a + take.count a)
    (htake : ∀ a ∈ take, placesOf cache s bs a = 0 ∧ a ≠ suDaddrNull) (hnodup : take.Nodup) :
    FlStep take give cache s bs cache (withTable s table) bs := by
  have hpending : pendingBlock (withTable s table) = [] := pendingBlock_of_modified hm
  have hplaces (a : ℕ) : placesOf cache (withTable s table) bs a + give.count a =
      placesOf cache s bs a + take.count a := by
    have hcounta := hcount a
    rw [placesOf_eq, placesOf_eq, hpending, pendingBlock_of_modified hm]
    show table.count a + _ + _ + (deferredOf s).count a + _ = _
    omega
  have hone (a : ℕ) : placesOf cache s bs a + take.count a ≤ 1 := by
    by_cases ha : a ∈ take
    · rw [(htake a ha).1, List.count_eq_one_of_mem hnodup ha]
    · rw [List.count_eq_zero.mpr ha]
      exact h.once a
  have hnull : suDaddrNull ∉ take := fun hmem => (htake _ hmem).2 rfl
  refine ⟨?_, ⟨rfl, rfl, rfl, rfl, rfl⟩, hplaces, fun _ _ _ => rfl, ?_⟩
  · exact {
      inmemory := h.inmemory
      type := h.type
      chain := h.chain
      blocks := fun b hb =>
        ⟨(h.blocks b hb).type, (h.blocks b hb).capacity, (h.blocks b hb).cpnum⟩
      nblocks := rfl
      sorted := hsorted
      filled := hlen
      mycapacity := h.mycapacity
      mycapacityLt := h.mycapacityLt
      pending := fun b hb => absurd (hpending ▸ hb) List.not_mem_nil
      once := fun a => (Nat.le_add_right _ _).trans ((hplaces a).trans_le (hone a))
      null := by
        have hn := hplaces suDaddrNull
        rw [h.null, List.count_eq_zero.mpr hnull] at hn
        exact Nat.eq_zero_of_add_eq_zero_right hn }
  · rintro a (hb | hp | hd)
    · exact ⟨rfl, .inl hb⟩
    · rw [pendingBlock_of_modified hm] at hp
      exact absurd hp List.not_mem_nil
    · exact ⟨rfl, .inr (.inr hd)⟩

theorem dbeFlInsert_table (h : TableWf cache s bs) {daddr : ℕ} (hnot : daddr ∉ s.flAddrtable)
    (hroom : s.flAddrtable.length < s.flMycapacity) :
    dbeFlInsert s daddr =
      some (withTable (settled s) (s.flAddrtable.orderedInsert (· ≥ ·) daddr)) := by
  have hlen : uint2 (s.flHeader.blNblocks + 1) =
      (s.flAddrtable.orderedInsert (· ≥ ·) daddr).length := by
    rw [h.nblocks, List.orderedInsert_length]
    exact uint2_of_lt (lt_of_le_of_lt hroom h.mycapacityLt)
  rw [dbeFlInsert, if_neg (h.inmemory ▸ Bool.false_ne_true), if_neg hnot,
    if_neg (Nat.not_le.mpr (h.nblocks.trans_lt hroom)), withTable, ← hlen,
    ← addtochlist_eq_settled]
  refine congrArg some ?_
  split
  · rfl
  · rfl

theorem flStep_insert (h : TableWf cache s bs) {daddr : ℕ}
    (hzero : placesOf cache s bs daddr = 0) (hnull : daddr ≠ suDaddrNull)
    (hroom : s.flAddrtable.length < s.flMycapacity) :
    ∃ s', dbeFlInsert s daddr = some s' ∧ FlStep [daddr] [] cache s bs cache s' bs ∧
      s'.flAddrtable.length = s.flAddrtable.length + 1 ∧
      s'.flMycapacity = s.flMycapacity ∧ s'.flModified = true ∧
      s'.flHeader.blNext = s.flHeader.blNext := by
  have hnot : daddr ∉ s.flAddrtable := fun hmem =>
    (placesOf_eq_zero_iff.mp hzero).1 (List.mem_append_left _ hmem)
  have hsort : (s.flAddrtable.orderedInsert (· ≥ ·) daddr).Pairwise (· ≥ ·) :=
    h.sorted.orderedInsert daddr _
  have hlen := List.orderedInsert_length (r := (· ≥ ·)) s.flAddrtable daddr
  have htable := flStep_withTable h.settled rfl _ [daddr] [] hsort (hlen.trans_le hroom)
    (fun a => ?_) (fun a ha => ?_) (List.nodup_singleton daddr)
  · exact ⟨_, dbeFlInsert_table h hnot hroom, (flStep_settled h).trans htable, hlen, rfl, rfl,
      rfl⟩
  · rw [(List.perm_orderedInsert (· ≥ ·) daddr s.flAddrtable).count_eq, List.count_nil,
      Nat.add_zero, List.count_cons, List.count_singleton]
    rfl
  · obtain rfl := List.mem_singleton.mp ha
    exact ⟨(placesOf_settled cache s bs a).trans hzero, hnull⟩

theorem dbeFlExtract_table (h : TableWf cache s bs) (hpos : 0 < s.flAddrtable.length) :
    dbeFlExtract s =
      (s.flAddrtable.getLastD suDaddrNull, withTable (settled s) s.flAddrtable.dropLast) := by
  have hnb : 0 < s.flHeader.blNblocks := h.nblocks.symm ▸ hpos
  have hcond : (¬ s.flModified ∧ ¬ s.flInmemory ∧ s.flNextcpnum ≠ s.flHeader.blCpnum) ↔
      (¬ s.flModified ∧ s.flNextcpnum ≠ s.flHeader.blCpnum ∧ 0 < s.flHeader.blNblocks) := by
    rw [h.inmemory, and_iff_left hnb]
    exact and_congr_right fun _ => and_iff_right Bool.false_ne_true
  have hlen : uint2 (if s.flHeader.blNblocks = 0 then 2 ^ 16 - 1 else s.flHeader.blNblocks - 1) =
      s.flAddrtable.dropLast.length := by
    rw [if_neg hnb.ne', List.length_dropLast, h.nblocks]
    exact uint2_of_lt (lt_of_le_of_lt (Nat.sub_le _ _) h.counted)
  rw [dbeFlExtract, if_neg (h.inmemory ▸ Bool.false_ne_true), withTable, ← hlen,
    ← addtochlist_eq_settled]
  refine Prod.ext rfl ?_
  by_cases hp : ¬ s.flModified ∧ s.flNextcpnum ≠ s.flHeader.blCpnum ∧ 0 < s.flHeader.blNblocks
  · rw [if_pos (hcond.mpr hp), if_pos hp]
    rfl
  · rw [if_neg (mt hcond.mp hp), if_neg hp]
    rfl

structure TableExtracted (cache : Flcache) (s : Freelist) (bs : List ℕ) (e : ℕ × Freelist) :
    Prop where
  mem : e.1 ∈ s.flAddrtable
  step : FlStep [] [e.1] cache s bs cache e.2 bs
  length : e.2.flAddrtable.length + 1 = s.flAddrtable.length
  mycapacity : e.2.flMycapacity = s.flMycapacity
  modified : e.2.flModified = true
  next : e.2.flHeader.blNext = s.flHeader.blNext

theorem TableExtracted.room {e : ℕ × Freelist} (h : TableExtracted cache s bs e)
    (hwf : TableWf cache s bs) : e.2.flAddrtable.length < e.2.flMycapacity := by
  rw [h.mycapacity]
  exact lt_of_lt_of_le (Nat.lt_of_succ_le h.length.le) hwf.filled

theorem tableExtracted (h : TableWf cache s bs) (hpos : 0 < s.flAddrtable.length) :
    TableExtracted cache s bs (dbeFlExtract s) := by
  rw [dbeFlExtract_table h hpos]
  obtain ⟨as, a, has⟩ : ∃ as a, s.flAddrtable = as ++ [a] := by
    obtain hnil | hsplit := List.eq_nil_or_concat' s.flAddrtable
    · rw [hnil] at hpos
      exact absurd hpos (Nat.not_lt_zero 0)
    · exact hsplit
  have hdrop : s.flAddrtable.dropLast = as := by
    rw [has, List.dropLast_concat]
  have hlast : s.flAddrtable.getLastD suDaddrNull = a := by
    rw [has, List.getLastD_concat]
  have hlen : as.length + 1 = s.flAddrtable.length := by
    rw [has, List.length_append]
    rfl
  rw [hdrop, hlast]
  have hsorted : as.Pairwise (· ≥ ·) := (has ▸ h.sorted).sublist (List.sublist_append_left _ _)
  have hle : as.length ≤ s.flMycapacity := (Nat.le_succ _).trans (hlen.trans_le h.filled)
  refine ⟨?_, (flStep_settled h).trans (flStep_withTable h.settled rfl as [] [a] hsorted hle
    (fun x => ?_) (fun x hx => absurd hx List.not_mem_nil) List.nodup_nil), hlen, rfl, rfl, rfl⟩
  · rw [has]
    exact List.mem_append_right _ (List.mem_singleton_self a)
  · show as.count x + [a].count x = s.flAddrtable.count x + [].count x
    rw [has, List.count_append, List.count_nil, Nat.add_zero]

/-! ## Writing a superblock -/

theorem records_superblockImage {n : ℕ} (hn : n ≤ s.flAddrtable.length) :
    (superblockImage s n).records = s.flAddrtable.take n := by
  refine List.ext_getElem ?_ fun i hi hi' => ?_
  · rw [Blblock.records, length_recordsUpto, List.length_take, min_eq_left hn]
    rfl
  · have hlt : i < s.flAddrtable.length := by
      rw [List.length_take] at hi'
      exact lt_of_lt_of_le hi' (min_le_right _ _)
    simp [Blblock.records, recordsUpto, superblockImage, hlt]

def afterWrite (s : Freelist) (a n : ℕ) : Freelist :=
  { s with
    flHeader := { s.flHeader with
      blCpnum := s.flNextcpnum
      blNext := a
      blNblocks := (s.flAddrtable.drop n).length }
    flReadfrom := suDaddrNull
    flAddrtable := s.flAddrtable.drop n }

/-- A superblock is written before the others, at an address that is not in the list. -/
theorem flStep_afterWrite (h : TableWf cache s bs) (hm : s.flModified = true) {a n : ℕ}
    (hzero : placesOf cache s bs a = 0) (hnull : a ≠ suDaddrNull)
    (hn : n ≤ s.flAddrtable.length) (hcap : n ≤ s.flSbcapacity) :
    FlStep [a] [] cache s bs (Function.update cache a (superblockImage s n)) (afterWrite s a n)
      (a :: bs) := by
  have hout := placesOf_eq_zero_iff.mp hzero
  have hbs : a ∉ bs := fun hmem => hout.2.1 (List.mem_append_right _ hmem)
  have hpending : pendingBlock (afterWrite s a n) = [] := pendingBlock_of_modified hm
  have hother (b : ℕ) (hb : b ∈ bs) :
      Function.update cache a (superblockImage s n) b = cache b :=
    Function.update_of_ne (ne_of_mem_of_not_mem hb hbs) _ _
  have hplaces (x : ℕ) : placesOf (Function.update cache a (superblockImage s n))
      (afterWrite s a n) (a :: bs) x + [].count x = placesOf cache s bs x + [a].count x := by
    have hsplit : (s.flAddrtable.take n).count x + (s.flAddrtable.drop n).count x =
        s.flAddrtable.count x := by
      rw [← List.count_append, List.take_append_drop]
    rw [placesOf_eq, placesOf_eq, hpending, pendingBlock_of_modified hm, contents_push hbs,
      records_superblockImage hn, List.count_append, List.count_cons, List.count_singleton]
    show (s.flAddrtable.drop n).count x + _ + _ + (deferredOf s).count x + _ = _
    rw [List.count_nil]
    omega
  have hone (x : ℕ) : placesOf cache s bs x + [a].count x ≤ 1 := by
    by_cases hx : x = a
    · rw [hx, hzero, List.count_singleton_self]
    · rw [List.count_eq_zero.mpr (mt List.mem_singleton.mp hx)]
      exact h.once x
  refine ⟨?_, ⟨rfl, rfl, rfl, rfl, rfl⟩, hplaces, fun x _ hx => ?_, ?_⟩
  · exact {
      inmemory := h.inmemory
      type := h.type
      chain := h.chain.push hbs hnull
      blocks := by
        refine List.forall_mem_cons.mpr ⟨?_, fun b hb => ?_⟩
        · refine ⟨?_, ?_, ?_⟩
          · rw [Function.update_self]
            exact h.type
          · rw [Function.update_self]
            exact hcap
          · rw [Function.update_self]
            exact le_rfl
        · have hb' := h.blocks b hb
          refine ⟨?_, ?_, ?_⟩
          · rw [hother b hb]
            exact hb'.type
          · rw [hother b hb]
            exact hb'.capacity
          · rw [hother b hb]
            exact hb'.cpnum
      nblocks := rfl
      sorted := h.sorted.sublist (List.drop_sublist n _)
      filled := (List.length_drop ▸ Nat.sub_le _ _).trans h.filled
      mycapacity := h.mycapacity
      mycapacityLt := h.mycapacityLt
      pending := fun b hb => absurd (hpending ▸ hb) List.not_mem_nil
      once := fun x => (Nat.le_add_right _ _).trans ((hplaces x).trans_le (hone x))
      null := by
        have hnullx := hplaces suDaddrNull
        rw [h.null, List.count_eq_zero.mpr (mt List.mem_singleton.mp hnull.symm)] at hnullx
        exact Nat.eq_zero_of_add_eq_zero_right hnullx }
  · exact Function.update_of_ne (mt List.mem_singleton.mpr hx) _ _
  · rintro x (hb | hp | hd)
    · rw [hother x hb.1]
      refine ⟨rfl, .inl ⟨List.mem_cons_of_mem a hb.1, ?_⟩⟩
      rw [hother x hb.1]
      exact hb.2
    · rw [pendingBlock_of_modified hm] at hp
      exact absurd hp List.not_mem_nil
    · refine ⟨Function.update_of_ne (ne_of_mem_of_not_mem hd hout.2.2) _ _, .inr (.inr hd)⟩

structure TableWritten (cache : Flcache) (s : Freelist) (bs : List ℕ)
    (w : Flcache × Freelist) (a : ℕ) : Prop where
  step : FlStep [] [] cache s bs w.1 w.2 (a :: bs)
  length : w.2.flAddrtable.length + 1 + min (s.flAddrtable.length - 1) s.flSbcapacity =
    s.flAddrtable.length
  mycapacity : w.2.flMycapacity = s.flMycapacity
  modified : w.2.flModified = true

theorem dbeFlWrite1superblock_eq (cache : Flcache) (s : Freelist) {n : ℕ}
    (hn : n = min (dbeFlExtract s).2.flHeader.blNblocks (dbeFlExtract s).2.flSbcapacity)
    (hlen : uint2 ((dbeFlExtract s).2.flHeader.blNblocks - n) =
      ((dbeFlExtract s).2.flAddrtable.drop n).length) :
    dbeFlWrite1superblock cache s =
      (Function.update cache (dbeFlExtract s).1 (superblockImage (dbeFlExtract s).2 n),
        afterWrite (dbeFlExtract s).2 (dbeFlExtract s).1 n) := by
  rw [dbeFlWrite1superblock, ← hn, afterWrite, ← hlen]
  rfl

theorem tableWritten (h : TableWf cache s bs) (hpos : 0 < s.flAddrtable.length) :
    ∃ a, TableWritten cache s bs (dbeFlWrite1superblock cache s) a := by
  have hext := tableExtracted h hpos
  generalize he : dbeFlExtract s = e at hext
  have hwf := hext.step.wf
  have hzero : placesOf cache e.2 bs e.1 = 0 := by
    have hplaces := hext.step.places e.1
    rw [List.count_singleton_self, List.count_nil] at hplaces
    have honce := h.once e.1
    omega
  have hnull : e.1 ≠ suDaddrNull := h.ne_null hext.mem
  have hlen := hext.length
  let n := min e.2.flAddrtable.length e.2.flSbcapacity
  have hstep := flStep_afterWrite hwf hext.modified hzero hnull
    (min_le_left e.2.flAddrtable.length e.2.flSbcapacity) (min_le_right _ _)
  have heq : dbeFlWrite1superblock cache s =
      (Function.update cache e.1 (superblockImage e.2 n), afterWrite e.2 e.1 n) := by
    have hdrop : uint2 (e.2.flHeader.blNblocks - n) = (e.2.flAddrtable.drop n).length := by
      rw [hwf.nblocks, List.length_drop]
      exact uint2_of_lt (lt_of_le_of_lt (Nat.sub_le _ _) hwf.counted)
    have heq := dbeFlWrite1superblock_eq cache s (n := n)
    rw [he, hwf.nblocks] at heq
    rw [hwf.nblocks] at hdrop
    exact heq rfl hdrop
  rw [heq]
  have htotal := hext.step.trans hstep
  refine ⟨e.1, ⟨htotal.wf, htotal.config, fun x => ?_, fun x hx _ => ?_, htotal.guarded⟩, ?_,
    hext.mycapacity, hext.modified⟩
  · have hplaces := htotal.places x
    rw [List.nil_append, List.append_nil] at hplaces
    exact Nat.add_right_cancel hplaces
  · refine htotal.outside x hx ?_
    rw [List.nil_append, List.mem_singleton]
    rintro rfl
    exact (placesOf_eq_zero_iff.mp hx).1 (List.mem_append_left _ hext.mem)
  · have hcap : e.2.flSbcapacity = s.flSbcapacity := hext.step.config.sbcapacity
    have hn : n = min e.2.flAddrtable.length s.flSbcapacity := by rw [← hcap]
    show (e.2.flAddrtable.drop n).length + 1 + _ = _
    rw [List.length_drop, hn, ← hlen, Nat.add_sub_cancel]
    omega

end SolidDB
