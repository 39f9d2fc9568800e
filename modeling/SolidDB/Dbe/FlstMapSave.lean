import SolidDB.Dbe.Flst
import Mathlib.Data.List.Perm.Subperm

/-!
# Writing the bit map

The save takes the first free addresses for the superblocks and writes the other ones
into them. The first loop counts the superblocks from the number of free addresses, and
the third one goes on until a superblock is not full.
-/

namespace SolidDB

open BlockChain Bitmap

/-! ## The superblocks -/

/-- The superblocks that the third loop writes, when `as` are the addresses it meets and
`ds` those it records. -/
def superblockLayout (c : ℕ) : List ℕ → List ℕ → List (ℕ × List ℕ)
  | [], _ => []
  | a :: as, ds =>
    (a, ds.take c) :: if ds.length < c then [] else superblockLayout c as (ds.drop c)

variable {c : ℕ} {as ds : List ℕ}

theorem superblockLayout_cons (a : ℕ) (h : ds.length < c) :
    superblockLayout c (a :: as) ds = [(a, ds.take c)] := by
  rw [superblockLayout, if_pos h]

theorem superblockLayout_cons_full (a : ℕ) (h : c ≤ ds.length) :
    superblockLayout c (a :: as) ds =
      (a, ds.take c) :: superblockLayout c as (ds.drop c) := by
  rw [superblockLayout, if_neg (Nat.not_lt.mpr h)]

/-- Every full superblock takes one address for itself and at least one to record. -/
theorem length_drop_lt (hc : 0 < c) {a : ℕ} (hlt : ds.length < (a :: as).length)
    (hfull : c ≤ ds.length) : (ds.drop c).length < as.length := by
  rw [List.length_cons] at hlt
  rw [List.length_drop]
  omega

theorem length_superblockLayout (hc : 0 < c) (hlt : ds.length < as.length) :
    (superblockLayout c as ds).length = ds.length / c + 1 := by
  induction as generalizing ds with
  | nil => exact absurd hlt (Nat.not_lt_zero _)
  | cons a as ih =>
      rcases Nat.lt_or_ge ds.length c with hshort | hfull
      · rw [superblockLayout_cons a hshort, Nat.div_eq_of_lt hshort]
        rfl
      · rw [superblockLayout_cons_full a hfull, List.length_cons,
          ih (length_drop_lt hc hlt hfull), List.length_drop,
          ← Nat.div_eq_sub_div hc hfull]

theorem map_fst_superblockLayout (hc : 0 < c) (hlt : ds.length < as.length) :
    (superblockLayout c as ds).map Prod.fst = as.take (ds.length / c + 1) := by
  induction as generalizing ds with
  | nil => exact absurd hlt (Nat.not_lt_zero _)
  | cons a as ih =>
      rcases Nat.lt_or_ge ds.length c with hshort | hfull
      · rw [superblockLayout_cons a hshort, Nat.div_eq_of_lt hshort]
        rfl
      · rw [superblockLayout_cons_full a hfull, List.map_cons,
          ih (length_drop_lt hc hlt hfull), List.length_drop,
          ← Nat.div_eq_sub_div hc hfull, List.take_succ_cons]

theorem flatMap_snd_superblockLayout (hc : 0 < c) (hlt : ds.length < as.length) :
    (superblockLayout c as ds).flatMap Prod.snd = ds := by
  induction as generalizing ds with
  | nil => exact absurd hlt (Nat.not_lt_zero _)
  | cons a as ih =>
      rcases Nat.lt_or_ge ds.length c with hshort | hfull
      · rw [superblockLayout_cons a hshort, List.flatMap_cons, List.flatMap_nil,
          List.append_nil]
        exact List.take_of_length_le hshort.le
      · rw [superblockLayout_cons_full a hfull, List.flatMap_cons,
          ih (length_drop_lt hc hlt hfull)]
        exact List.take_append_drop c ds

theorem length_le_of_mem_superblockLayout {b : ℕ × List ℕ}
    (hb : b ∈ superblockLayout c as ds) : b.2.length ≤ c := by
  induction as generalizing ds with
  | nil => exact absurd hb List.not_mem_nil
  | cons a as ih =>
      rw [superblockLayout] at hb
      rcases List.mem_cons.mp hb with rfl | hb
      · exact List.length_take_le c ds
      · rcases Nat.lt_or_ge ds.length c with hshort | hfull
        · rw [if_pos hshort] at hb
          exact absurd hb List.not_mem_nil
        · rw [if_neg (Nat.not_lt.mpr hfull)] at hb
          exact ih hb

/-! ## The first loop -/

def superblockCount (c n : ℕ) : ℕ := (n - 1) / (c + 1) + 1

theorem superblockCount_le {n : ℕ} (hn : 0 < n) : superblockCount c n ≤ n := by
  have hdiv := Nat.div_le_self (n - 1) (c + 1)
  unfold superblockCount
  omega

variable {cache : Flcache} {s : Freelist} {daddr : ℕ}

theorem findnext_of_ones_nil (h : ones s.flMap s.flFilesize daddr = []) :
    suBmapFindnext s.flMap s.flFilesize daddr = none := by
  rw [suBmapFindnext, findNext_eq_head?, h]
  rfl

theorem findnext_of_ones_cons {a : ℕ} (h : ones s.flMap s.flFilesize daddr = a :: as) :
    suBmapFindnext s.flMap s.flFilesize daddr = some a := by
  rw [suBmapFindnext, findNext_eq_head?, h]
  rfl

/-- The position behind the superblocks is behind the first free addresses. -/
theorem ones_passSuperblocks {toWrite : ℕ} (h : ones s.flMap s.flFilesize daddr = as)
    (hle : superblockCount s.flSbcapacity toWrite ≤ as.length) :
    ones s.flMap s.flFilesize (passSuperblocks s toWrite daddr) =
        as.drop (superblockCount s.flSbcapacity toWrite) ∧
      daddr < passSuperblocks s toWrite daddr := by
  induction toWrite using Nat.strongRecOn generalizing daddr as with
  | ind toWrite ih =>
      obtain ⟨a, as, rfl⟩ : ∃ a as', as = a :: as' := by
        refine List.exists_cons_of_ne_nil ?_
        rintro rfl
        exact absurd hle (Nat.not_succ_le_zero _)
      have hbounds := suBmapFindnext_bounds (findnext_of_ones_cons h)
      rw [passSuperblocks, findnext_of_ones_cons h]
      dsimp only
      split
      next hmore =>
        have hcount : superblockCount s.flSbcapacity toWrite =
            superblockCount s.flSbcapacity (toWrite - (s.flSbcapacity + 1)) + 1 := by
          have hdiv := Nat.div_eq_sub_div (Nat.succ_pos s.flSbcapacity)
            (show s.flSbcapacity + 1 ≤ toWrite - 1 by omega)
          unfold superblockCount
          rw [hdiv, Nat.sub_right_comm]
        rw [hcount] at hle ⊢
        have hrest := ih _ (by omega) (ones_succ_of_cons h) (Nat.le_of_succ_le_succ hle)
        refine ⟨hrest.1, ?_⟩
        exact lt_of_le_of_lt (Nat.le_succ_of_le hbounds.1) hrest.2
      next hlast =>
        have hcount : superblockCount s.flSbcapacity toWrite = 1 := by
          unfold superblockCount
          rw [Nat.div_eq_of_lt (by omega)]
        rw [hcount]
        exact ⟨ones_succ_of_cons h, Nat.lt_succ_of_le hbounds.1⟩

/-! ## The third loop -/

theorem fillAddrtable_spec {map : ℕ → Bool} {filesize hint : ℕ} (room : ℕ)
    (h : ones map filesize hint = ds) :
    (fillAddrtable map filesize room hint).1 = ds.take room ∧
      ones map filesize (fillAddrtable map filesize room hint).2 = ds.drop room ∧
      hint ≤ (fillAddrtable map filesize room hint).2 := by
  induction room generalizing hint ds with
  | zero => exact ⟨rfl, h, le_rfl⟩
  | succ room ih =>
      have hfind : suBmapFindnext map filesize hint = ds.head? := by
        rw [suBmapFindnext, findNext_eq_head?, h]
      cases ds with
      | nil =>
          rw [fillAddrtable, hfind]
          exact ⟨rfl, h, le_rfl⟩
      | cons page ds =>
          have hrest := ih (ones_succ_of_cons h)
          have hle := (suBmapFindnext_bounds hfind).1
          rw [fillAddrtable, hfind]
          dsimp only [List.head?_cons]
          refine ⟨?_, hrest.2.1, hle.trans ((Nat.le_succ page).trans hrest.2.2)⟩
          rw [hrest.1, List.take_succ_cons]

/-- The superblocks are written and chained, each before the last one, and nothing else
is. -/
structure SuperblocksWritten (cache cache' : Flcache) (s : Freelist)
    (blocks : List (ℕ × List ℕ)) (last : ℕ) : Prop where
  other : ∀ a, a ∉ blocks.map Prod.fst → cache' a = cache a
  chain : ∀ bs, Blchain cache s.flHeader.blNext bs → (∀ a ∈ blocks.map Prod.fst, a ∉ bs) →
    Blchain cache' last ((blocks.map Prod.fst).reverse ++ bs)
  records : ∀ b ∈ blocks, (cache' b.1).records = b.2
  type : ∀ b ∈ blocks, (cache' b.1).header.blType = .freelist
  cpnum : ∀ b ∈ blocks, (cache' b.1).header.blCpnum = s.flNextcpnum

structure SuperblocksTaken (s s' : Freelist) (blocks : List (ℕ × List ℕ)) : Prop where
  inmemory : s'.flInmemory = s.flInmemory
  filesize : s'.flFilesize = s.flFilesize
  freeblocks : s'.flFreeblocks = s.flFreeblocks - blocks.length
  count : dbeFlMeasurelengthNomutex s' + blocks.length = dbeFlMeasurelengthNomutex s

theorem recordsUpto_getD (l : List ℕ) : recordsUpto (fun i => l.getD i 0) l.length = l := by
  refine List.ext_getElem (length_recordsUpto _ _) fun i hi _ => ?_
  rw [length_recordsUpto] at hi
  simp [recordsUpto, hi]

def superblockPass (s : Freelist) (superblockDaddr : ℕ) : Freelist :=
  let s' := fillSuperblock (countSuperblock s) superblockDaddr
  { s' with flHeader :=
    { s'.flHeader with blCpnum := s'.flNextcpnum, blNext := superblockDaddr } }

def passImage (s : Freelist) (superblockDaddr : ℕ) : Blblock ℕ :=
  let s' := fillSuperblock (countSuperblock s) superblockDaddr
  superblockImage s' s'.flAddrtable.length

theorem records_passImage (s : Freelist) (a : ℕ) :
    (passImage s a).records = (superblockPass s a).flAddrtable :=
  recordsUpto_getD _

theorem next_passImage (s : Freelist) (a : ℕ) : (passImage s a).next = s.flHeader.blNext := rfl

theorem writeSuperblocks_cons {a : ℕ} (h : ones s.flMap s.flFilesize daddr = a :: as) :
    writeSuperblocks cache s daddr =
      if (superblockPass s a).flAddrtable.length < s.flSbcapacity then
        (Function.update cache a (passImage s a), superblockPass s a, a)
      else writeSuperblocks (Function.update cache a (passImage s a)) (superblockPass s a)
        (a + 1) := by
  rw [writeSuperblocks]
  split
  next hnone =>
    rw [findnext_of_ones_cons h] at hnone
    cases hnone
  next pos hpos =>
    rw [findnext_of_ones_cons h] at hpos
    cases hpos
    rfl

/-- The address of a superblock stands before those it records. -/
theorem lt_hint_of_length_lt {a : ℕ} (has : ones s.flMap s.flFilesize daddr = a :: as)
    (hds : ones s.flMap s.flFilesize s.flMapHint = ds) (hlt : ds.length < (a :: as).length) :
    a < s.flMapHint := by
  by_contra hge
  have hsub : a :: as ⊆ ds := by
    intro x hx
    have hfirst := le_of_mem_of_cons has hx
    rw [← has, mem_ones] at hx
    rw [← hds, mem_ones]
    exact ⟨(Nat.le_of_not_lt hge).trans hfirst, hx.2⟩
  have hnodup : (a :: as).Nodup := has ▸ nodup_ones _ _ _
  exact absurd (List.subperm_of_subset hnodup hsub).length_le (Nat.not_le.mpr hlt)

structure PassDone (s s' : Freelist) (a : ℕ) (as ds : List ℕ) : Prop where
  addrtable : s'.flAddrtable = ds.take s.flSbcapacity
  addresses : ones s'.flMap s'.flFilesize (a + 1) = as
  recorded : ones s'.flMap s'.flFilesize s'.flMapHint = ds.drop s.flSbcapacity
  count : dbeFlMeasurelengthNomutex s' + 1 = dbeFlMeasurelengthNomutex s

theorem passDone {a : ℕ} (has : ones s.flMap s.flFilesize daddr = a :: as)
    (hds : ones s.flMap s.flFilesize s.flMapHint = ds) (hlt : ds.length < (a :: as).length) :
    PassDone s (superblockPass s a) a as ds := by
  have hbounds := suBmapFindnext_bounds (findnext_of_ones_cons has)
  have hhint := lt_hint_of_length_lt has hds hlt
  have hds' : ones (Function.update s.flMap a false) s.flFilesize s.flMapHint = ds :=
    (ones_update_of_lt hhint false).trans hds
  have hfill := fillAddrtable_spec s.flSbcapacity hds'
  exact {
    addrtable := hfill.1
    addresses := (ones_update_of_lt a.lt_succ_self false).trans (ones_succ_of_cons has)
    recorded := hfill.2.1
    count := count_clear hbounds.2.1 hbounds.2.2 }

theorem SuperblocksWritten.cons {a last : ℕ} {r : List ℕ} {image : Blblock ℕ}
    {cache' : Flcache} {s' : Freelist} {rest : List (ℕ × List ℕ)}
    (h : SuperblocksWritten (Function.update cache a image) cache' s' rest last)
    (ha : a ∉ rest.map Prod.fst) (hnull : a ≠ suDaddrNull)
    (himage : image.next = s.flHeader.blNext) (hr : image.records = r)
    (htype : image.header.blType = .freelist) (hcpnum : image.header.blCpnum = s.flNextcpnum)
    (hnext : s'.flHeader.blNext = a) (hcpnum' : s'.flNextcpnum = s.flNextcpnum) :
    SuperblocksWritten cache cache' s ((a, r) :: rest) last := by
  have hat : cache' a = image := by
    rw [h.other a ha, Function.update_self]
  refine ⟨fun b hb => ?_, fun bs hbs hdisj => ?_, ?_, ?_, ?_⟩
  · rw [List.map_cons, List.mem_cons, not_or] at hb
    rw [h.other b hb.2, Function.update_of_ne hb.1]
  · rw [List.map_cons, List.forall_mem_cons] at hdisj
    rw [← himage] at hbs
    have hpush : Blchain (Function.update cache a image) s'.flHeader.blNext (a :: bs) := by
      rw [hnext]
      exact hbs.push hdisj.1 hnull
    have hchain := h.chain (a :: bs) hpush fun b hb => ?_
    · rw [List.map_cons, List.reverse_cons, List.append_assoc]
      exact hchain
    · rw [List.mem_cons, not_or]
      refine ⟨?_, hdisj.2 b hb⟩
      rintro rfl
      exact ha hb
  · refine List.forall_mem_cons.mpr ⟨?_, h.records⟩
    rw [hat, hr]
  · refine List.forall_mem_cons.mpr ⟨?_, h.type⟩
    rw [hat, htype]
  · refine List.forall_mem_cons.mpr ⟨?_, fun b hb => (h.cpnum b hb).trans hcpnum'⟩
    rw [hat, hcpnum]

theorem writeSuperblocks_spec (cache : Flcache) (htype : s.flHeader.blType = .freelist)
    (hsize : s.flFilesize ≤ suDaddrNull) (has : ones s.flMap s.flFilesize daddr = as)
    (hds : ones s.flMap s.flFilesize s.flMapHint = ds) (hlt : ds.length < as.length) :
    SuperblocksWritten cache (writeSuperblocks cache s daddr).1 s
        (superblockLayout s.flSbcapacity as ds) (writeSuperblocks cache s daddr).2.2 ∧
      SuperblocksTaken s (writeSuperblocks cache s daddr).2.1
        (superblockLayout s.flSbcapacity as ds) := by
  have hc : 0 < s.flSbcapacity := flSbcapacityOf_pos s.flBlocksize
  induction as generalizing cache s daddr ds with
  | nil => exact absurd hlt (Nat.not_lt_zero _)
  | cons a as ih =>
      have hpass := passDone has hds hlt
      have hbounds := suBmapFindnext_bounds (findnext_of_ones_cons has)
      have hnull : a ≠ suDaddrNull := (lt_of_lt_of_le hbounds.2.1 hsize).ne
      have hrecords : (passImage s a).records = ds.take s.flSbcapacity :=
        (records_passImage s a).trans hpass.addrtable
      have hlen : (superblockPass s a).flAddrtable.length < s.flSbcapacity ↔
          ds.length < s.flSbcapacity := by
        rw [hpass.addrtable, List.length_take]
        omega
      rw [writeSuperblocks_cons has]
      rcases Nat.lt_or_ge ds.length s.flSbcapacity with hshort | hfull
      · rw [if_pos (hlen.mpr hshort), superblockLayout_cons a hshort]
        refine ⟨?_, rfl, rfl, rfl, hpass.count⟩
        have hdone : SuperblocksWritten (Function.update cache a (passImage s a))
            (Function.update cache a (passImage s a)) (superblockPass s a) [] a :=
          { other := fun _ _ => rfl
            chain := fun _ h _ => h
            records := List.forall_mem_nil _
            type := List.forall_mem_nil _
            cpnum := List.forall_mem_nil _ }
        exact hdone.cons List.not_mem_nil hnull (next_passImage s a) hrecords htype rfl rfl rfl
      · rw [if_neg (mt hlen.mp (Nat.not_lt.mpr hfull)), superblockLayout_cons_full a hfull]
        have hrest := @ih _ (superblockPass s a) _ (Function.update cache a (passImage s a))
          htype hsize hpass.addresses hpass.recorded (length_drop_lt hc hlt hfull) hc
        refine ⟨hrest.1.cons ?_ hnull (next_passImage s a) hrecords htype rfl rfl rfl, ?_⟩
        · intro hmem
          change a ∈
            (superblockLayout s.flSbcapacity as (ds.drop s.flSbcapacity)).map Prod.fst at hmem
          rw [map_fst_superblockLayout hc (length_drop_lt hc hlt hfull)] at hmem
          have hin := List.mem_of_mem_take hmem
          rw [← ones_succ_of_cons has, mem_ones] at hin
          exact absurd hin.1 a.not_succ_le_self
        · have htaken := hrest.2
          refine ⟨htaken.inmemory, htaken.filesize, ?_, ?_⟩
          · rw [htaken.freeblocks]
            show s.flFreeblocks - 1 -
              ((superblockLayout s.flSbcapacity as (ds.drop s.flSbcapacity)).length : ℤ) = _
            rw [List.length_cons, Nat.cast_succ, sub_sub, add_comm (1 : ℤ)]
          · rw [List.length_cons, ← hpass.count, ← htaken.count]
            rfl

/-! ## The second loop -/

structure SuperblocksLeft (s s' : Freelist) : Prop where
  inmemory : s'.flInmemory = s.flInmemory
  blocksize : s'.flBlocksize = s.flBlocksize
  filesize : s'.flFilesize = s.flFilesize
  nextcpnum : s'.flNextcpnum = s.flNextcpnum
  freeblocks : s'.flFreeblocks = s.flFreeblocks
  map : s'.flMap = s.flMap
  hint : s'.flMapHint = s.flMapHint
  type : s'.flHeader.blType = s.flHeader.blType
  next : s'.flHeader.blNext = suDaddrNull

theorem leaveSuperblocks_left {fuel : ℕ} {s' : Freelist}
    (h : leaveSuperblocks cache fuel s = some s') : SuperblocksLeft s s' := by
  induction fuel generalizing s with
  | zero => cases h
  | succ fuel ih =>
      rw [leaveSuperblocks] at h
      split at h
      next hnull =>
        obtain rfl := Option.some.inj h
        exact ⟨rfl, rfl, rfl, rfl, rfl, rfl, rfl, rfl, hnull⟩
      next =>
        have hrest := ih h
        exact {
          inmemory := hrest.inmemory
          blocksize := hrest.blocksize
          filesize := hrest.filesize
          nextcpnum := hrest.nextcpnum
          freeblocks := hrest.freeblocks
          map := hrest.map
          hint := hrest.hint
          type := hrest.type
          next := hrest.next }

theorem exists_leaveSuperblocks {bs : List ℕ} (h : Blchain cache s.flHeader.blNext bs) :
    ∃ fuel s', leaveSuperblocks cache fuel s = some s' := by
  induction bs generalizing s with
  | nil =>
      refine ⟨1, s, ?_⟩
      rw [leaveSuperblocks, if_pos (chain_nil.mp h)]
  | cons b bs ih =>
      let tmpHeader := (cache b).header
      let s1 := { s with flHeader :=
        { s.flHeader with blCpnum := tmpHeader.blCpnum, blNext := tmpHeader.blNext } }
      obtain ⟨fuel, s', hs'⟩ := @ih (dbeFlAddtochlist s1 tmpHeader.blCpnum b) h.2.2
      refine ⟨fuel + 1, s', ?_⟩
      rw [leaveSuperblocks, if_neg (h.1.symm ▸ h.2.1)]
      dsimp only
      rw [h.1]
      exact hs'

/-! ## The save -/

/-- A list with a bit map as a save meets it: its superblocks on disk form a chain. -/
structure FlSaving (cache : Flcache) (s : Freelist) : Prop where
  inmemory : s.flInmemory = true
  type : s.flHeader.blType = .freelist
  filesize : s.flFilesize ≤ suDaddrNull
  chain : ∃ bs, Blchain cache s.flHeader.blNext bs

def freeAddrs (s : Freelist) : List ℕ := ones s.flMap s.flFilesize 0

theorem length_freeAddrs (s : Freelist) :
    (freeAddrs s).length = dbeFlMeasurelengthNomutex s := rfl

def saveLayout (s : Freelist) : List (ℕ × List ℕ) :=
  superblockLayout s.flSbcapacity (freeAddrs s)
    ((freeAddrs s).drop (superblockCount s.flSbcapacity (freeAddrs s).length))

def CountKnown (s : Freelist) : Prop :=
  s.flFreeblocksKnown = true → s.flFreeblocks = dbeFlMeasurelengthNomutex s

theorem flFreeblocks_measureFreeblocks (h : CountKnown s) :
    (measureFreeblocks s).flFreeblocks = dbeFlMeasurelengthNomutex s := by
  unfold measureFreeblocks
  split
  next hknown => exact h hknown
  next => rfl

structure MapSaved (s : Freelist) (w : Flcache × Freelist) : Prop where
  chain : Blchain w.1 w.2.flReadfrom ((saveLayout s).map Prod.fst).reverse
  records : ∀ b ∈ saveLayout s, (w.1 b.1).records = b.2
  type : ∀ b ∈ saveLayout s, (w.1 b.1).header.blType = .freelist
  cpnum : ∀ b ∈ saveLayout s, (w.1 b.1).header.blCpnum = s.flNextcpnum
  inmemory : w.2.flInmemory = true
  filesize : w.2.flFilesize = s.flFilesize
  hint : w.2.flMapHint = 0
  freeblocks : w.2.flFreeblocks = dbeFlMeasurelengthNomutex w.2

theorem length_drop_superblockCount_lt {n : ℕ} (hn : 0 < (freeAddrs s).length) :
    ((freeAddrs s).drop (superblockCount n (freeAddrs s).length)).length <
      (freeAddrs s).length := by
  rw [List.length_drop]
  exact Nat.sub_lt hn (Nat.succ_pos _)

theorem measureFreeblocks_eq (s : Freelist) :
    measureFreeblocks s = { s with
      flFreeblocks := (measureFreeblocks s).flFreeblocks, flFreeblocksKnown := true } := by
  unfold measureFreeblocks
  split
  next hknown => rw [← hknown]
  next => rfl

theorem flMap_measureFreeblocks (s : Freelist) : (measureFreeblocks s).flMap = s.flMap := by
  rw [measureFreeblocks_eq]

theorem flFilesize_measureFreeblocks (s : Freelist) :
    (measureFreeblocks s).flFilesize = s.flFilesize := by
  rw [measureFreeblocks_eq]

theorem flBlocksize_measureFreeblocks (s : Freelist) :
    (measureFreeblocks s).flBlocksize = s.flBlocksize := by
  rw [measureFreeblocks_eq]

theorem flHeader_measureFreeblocks (s : Freelist) :
    (measureFreeblocks s).flHeader = s.flHeader := by
  rw [measureFreeblocks_eq]

theorem flInmemory_measureFreeblocks (s : Freelist) :
    (measureFreeblocks s).flInmemory = s.flInmemory := by
  rw [measureFreeblocks_eq]

theorem flNextcpnum_measureFreeblocks (s : Freelist) :
    (measureFreeblocks s).flNextcpnum = s.flNextcpnum := by
  rw [measureFreeblocks_eq]

def savePassed (s : Freelist) : Freelist :=
  let s1 := measureFreeblocks s
  { s1 with
    flMapHint := passSuperblocks s1 ((s1.flFreeblocks % 2 ^ 64).toNat) 0
    flReadfrom := 0 }

structure SaveReady (s s3 : Freelist) : Prop where
  left : SuperblocksLeft (savePassed s) s3
  capacity : s3.flSbcapacity = s.flSbcapacity
  freeblocks : s3.flFreeblocks = dbeFlMeasurelengthNomutex s
  free : ones s3.flMap s3.flFilesize 0 = freeAddrs s
  count : dbeFlMeasurelengthNomutex s3 = dbeFlMeasurelengthNomutex s

theorem saveReady {fuel : ℕ} {s3 : Freelist} (hk : CountKnown s)
    (h : leaveSuperblocks cache fuel (savePassed s) = some s3) : SaveReady s s3 := by
  have hleft := leaveSuperblocks_left h
  have hmap : s3.flMap = s.flMap := hleft.map.trans (flMap_measureFreeblocks s)
  have hsize : s3.flFilesize = s.flFilesize :=
    hleft.filesize.trans (flFilesize_measureFreeblocks s)
  refine ⟨hleft, ?_, hleft.freeblocks.trans (flFreeblocks_measureFreeblocks hk), ?_, ?_⟩
  · exact congrArg flSbcapacityOf
      (hleft.blocksize.trans (flBlocksize_measureFreeblocks s))
  · rw [hmap, hsize]
    rfl
  · rw [dbeFlMeasurelengthNomutex, hmap, hsize]
    rfl

theorem SaveReady.recorded {s3 : Freelist} (h : SaveReady s s3) (hk : CountKnown s)
    (hsize : s.flFilesize ≤ suDaddrNull) (hn : 0 < (freeAddrs s).length) :
    ones s3.flMap s3.flFilesize s3.flMapHint =
      (freeAddrs s).drop (superblockCount s.flSbcapacity (freeAddrs s).length) := by
  have hcount : ((measureFreeblocks s).flFreeblocks % 2 ^ 64).toNat = (freeAddrs s).length := by
    have hle : (freeAddrs s).length ≤ s.flFilesize := count_le s.flMap s.flFilesize
    rw [flFreeblocks_measureFreeblocks hk, ← length_freeAddrs]
    unfold suDaddrNull at hsize
    omega
  have hcap : (measureFreeblocks s).flSbcapacity = s.flSbcapacity :=
    congrArg flSbcapacityOf (flBlocksize_measureFreeblocks s)
  have hfree : ones (measureFreeblocks s).flMap (measureFreeblocks s).flFilesize 0 =
      freeAddrs s := by
    rw [flMap_measureFreeblocks, flFilesize_measureFreeblocks]
    rfl
  have hpass := (ones_passSuperblocks hfree (superblockCount_le hn)).1
  rw [hcap] at hpass
  rw [h.left.map, h.left.filesize, h.left.hint]
  show ones (measureFreeblocks s).flMap (measureFreeblocks s).flFilesize
    (passSuperblocks (measureFreeblocks s)
      ((measureFreeblocks s).flFreeblocks % 2 ^ 64).toNat 0) = _
  rw [hcount]
  exact hpass

theorem dbeFlWriteAllSuperblocks_eq (fuel : ℕ) (cache : Flcache) (s : Freelist) :
    dbeFlWriteAllSuperblocks fuel cache s =
      (leaveSuperblocks cache fuel (savePassed s)).map fun s3 =>
        ((writeSuperblocks cache s3 0).1,
          { (writeSuperblocks cache s3 0).2.1 with
            flMapHint := 0, flReadfrom := (writeSuperblocks cache s3 0).2.2 }) := rfl

theorem exists_dbeFlWriteAllSuperblocks (h : FlSaving cache s) :
    ∃ fuel w, dbeFlWriteAllSuperblocks fuel cache s = some w := by
  obtain ⟨bs, hbs⟩ := h.chain
  have hbs' : Blchain cache (savePassed s).flHeader.blNext bs := by
    have hheader : (savePassed s).flHeader = s.flHeader := flHeader_measureFreeblocks s
    rw [hheader]
    exact hbs
  obtain ⟨fuel, s3, hs3⟩ := exists_leaveSuperblocks hbs'
  refine ⟨fuel, ?_⟩
  rw [dbeFlWriteAllSuperblocks_eq, hs3]
  exact ⟨_, rfl⟩

/-- A save with free addresses writes the superblocks of its layout. -/
theorem mapSaved {fuel : ℕ} {w : Flcache × Freelist} (h : FlSaving cache s)
    (hk : CountKnown s) (hn : 0 < (freeAddrs s).length)
    (hw : dbeFlWriteAllSuperblocks fuel cache s = some w) : MapSaved s w := by
  rw [dbeFlWriteAllSuperblocks_eq] at hw
  obtain ⟨s3, hs3, rfl⟩ := Option.map_eq_some_iff.mp hw
  have hready := saveReady hk hs3
  have htype : s3.flHeader.blType = .freelist := by
    rw [hready.left.type]
    exact (congrArg Blheader.blType (flHeader_measureFreeblocks s)).trans h.type
  have hfilesize : s3.flFilesize = s.flFilesize :=
    hready.left.filesize.trans (flFilesize_measureFreeblocks s)
  have hspec := writeSuperblocks_spec cache htype (hfilesize ▸ h.filesize) hready.free
    (hready.recorded hk h.filesize hn) (length_drop_superblockCount_lt hn)
  rw [hready.capacity] at hspec
  obtain ⟨hwritten, htaken⟩ := hspec
  have hchain := hwritten.chain [] (by rw [hready.left.next]; rfl) fun _ _ => List.not_mem_nil
  rw [List.append_nil] at hchain
  have hcpnum : s3.flNextcpnum = s.flNextcpnum :=
    hready.left.nextcpnum.trans (flNextcpnum_measureFreeblocks s)
  exact {
    chain := hchain
    records := hwritten.records
    type := hwritten.type
    cpnum := fun b hb => (hwritten.cpnum b hb).trans hcpnum
    inmemory := by
      have hmem := (htaken.inmemory.trans hready.left.inmemory).trans
        (flInmemory_measureFreeblocks s)
      exact hmem.trans h.inmemory
    filesize := htaken.filesize.trans hfilesize
    hint := rfl
    freeblocks := by
      have hcount := htaken.count
      rw [hready.count, ← Nat.cast_inj (R := ℤ), Nat.cast_add] at hcount
      have hfreeblocks := htaken.freeblocks
      rw [hready.freeblocks] at hfreeblocks
      exact hfreeblocks.trans (sub_eq_of_eq_add hcount.symm) }

/-- A save without free addresses writes nothing and leaves a wrong counter. -/
theorem freeblocks_of_freeAddrs_nil {fuel : ℕ} {w : Flcache × Freelist} (hk : CountKnown s)
    (hn : freeAddrs s = []) (hw : dbeFlWriteAllSuperblocks fuel cache s = some w) :
    w.2.flFreeblocks ≠ dbeFlMeasurelengthNomutex w.2 := by
  rw [dbeFlWriteAllSuperblocks_eq] at hw
  obtain ⟨s3, hs3, rfl⟩ := Option.map_eq_some_iff.mp hw
  have hready := saveReady hk hs3
  have hnone := findnext_of_ones_nil (hready.free.trans hn)
  have hcount : dbeFlMeasurelengthNomutex s = 0 := congrArg List.length hn
  have hlist : writeSuperblocks cache s3 0 = (cache, countSuperblock s3, 0) := by
    rw [writeSuperblocks]
    split
    next => rfl
    next pos hpos =>
      rw [hnone] at hpos
      cases hpos
  rw [hlist]
  show s3.flFreeblocks - 1 ≠ (dbeFlMeasurelengthNomutex s3 : ℤ)
  rw [hready.freeblocks, hready.count, hcount]
  decide

end SolidDB
