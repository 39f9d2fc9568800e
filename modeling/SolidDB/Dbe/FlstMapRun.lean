import SolidDB.Dbe.FlstAlloc
import SolidDB.Dbe.FlstMapRead

/-!
# The counter of the bit map

`fl_freeblocks` counts the set bits. An extension of the file counts every new block
twice, a false alarm cuts the counter down, and a spare block is not counted. In the runs
without these the counter stays right.
-/

namespace SolidDB

open BlockChain Bitmap

structure MapCounted (s : Freelist) : Prop where
  inmemory : s.flInmemory = true
  filesize : s.flFilesize ≤ suDaddrNull
  below : ∀ a < s.flMapHint, s.flMap a = false
  counted : s.flFreeblocks = dbeFlMeasurelengthNomutex s

/-- `bl_nblocks` as an allocation compares it with the limit. -/
def alarmNblocks (s : Freelist) (limit : ℤ) : ℕ :=
  if s.flHeader.blNblocks ≤ limit then min (2 ^ 16 - 1) s.flMycapacity
  else s.flHeader.blNblocks

def AlarmHarmless (s : Freelist) (limit : ℤ) : Prop :=
  s.flHeader.blNblocks ≤ limit →
    dbeFlMeasurelengthNomutex s ≤ min (2 ^ 16 - 1) s.flMycapacity

variable {cache : Flcache} {s : Freelist} {limit : ℤ} {fuel daddr : ℕ}

theorem blNblocks_falseAlarm (hmem : s.flInmemory = true) :
    (falseAlarm s limit).flHeader.blNblocks = alarmNblocks s limit := by
  unfold falseAlarm alarmNblocks
  split
  next h =>
    rw [if_pos h.2]
    exact uint2_of_lt (lt_of_le_of_lt (min_le_left _ _) (by decide))
  next h => rw [if_neg fun hle => h ⟨hmem, hle⟩]

theorem MapCounted.alarm (h : MapCounted s) (halarm : AlarmHarmless s limit) :
    MapCounted (falseAlarm s limit) ∧
      dbeFlMeasurelengthNomutex (falseAlarm s limit) = dbeFlMeasurelengthNomutex s := by
  unfold falseAlarm
  split
  next hlow =>
    refine ⟨⟨h.inmemory, h.filesize, h.below, ?_⟩, rfl⟩
    have hle : s.flFreeblocks ≤ (min (2 ^ 16 - 1) s.flMycapacity : ℕ) := by
      rw [h.counted]
      exact Int.ofNat_le.mpr (halarm hlow.2)
    show min s.flFreeblocks _ = _
    rw [min_eq_left hle, h.counted]
    rfl
  next => exact ⟨h, rfl⟩

structure MapExtracted (s : Freelist) (e : ℕ × Freelist) : Prop where
  inmemory : e.2.flInmemory = true
  filesize : e.2.flFilesize = s.flFilesize
  below : ∀ a < e.2.flMapHint, e.2.flMap a = false
  freeblocks : e.2.flFreeblocks = s.flFreeblocks
  count : (e.1 = suDaddrNull ∧ dbeFlMeasurelengthNomutex s = 0 ∧
      dbeFlMeasurelengthNomutex e.2 = 0) ∨
    (e.1 ≠ suDaddrNull ∧ dbeFlMeasurelengthNomutex e.2 + 1 = dbeFlMeasurelengthNomutex s)

theorem mapExtracted (hmem : s.flInmemory = true) (hsize : s.flFilesize ≤ suDaddrNull)
    (hbelow : ∀ a < s.flMapHint, s.flMap a = false) : MapExtracted s (dbeFlExtract s) := by
  have hones := ones_of_below s.flFilesize hbelow
  rw [dbeFlExtract]
  dsimp only
  rw [if_pos hmem, if_neg fun h => h.2.1 hmem]
  cases hfind : ones s.flMap s.flFilesize s.flMapHint with
  | nil =>
      rw [findnext_of_ones_nil hfind]
      have hzero : dbeFlMeasurelengthNomutex s = 0 := by
        rw [dbeFlMeasurelengthNomutex, count, ← hones, hfind]
        rfl
      exact ⟨hmem, rfl, fun a ha => absurd ha (Nat.not_lt_zero a), rfl, .inl ⟨rfl, hzero, hzero⟩⟩
  | cons pos rest =>
      rw [findnext_of_ones_cons hfind]
      have hbounds := suBmapFindnext_bounds (findnext_of_ones_cons hfind)
      refine ⟨hmem, rfl, fun a ha => ?_, rfl, .inr ⟨?_, count_clear hbounds.2.1 hbounds.2.2⟩⟩
      · have hne : a ≠ pos := ne_of_lt ha
        show Function.update s.flMap pos false a = false
        rw [Function.update_of_ne hne]
        -- no bit is set before the first one
        by_contra hset
        have hmem : a ∈ ones s.flMap s.flFilesize s.flMapHint := by
          rw [hones, mem_ones]
          exact ⟨a.zero_le, lt_trans ha hbounds.2.1, Bool.not_eq_false _ ▸ hset⟩
        rw [hfind] at hmem
        exact absurd (le_of_mem_of_cons hfind hmem) (Nat.not_le.mpr ha)
      · exact ne_of_lt (lt_of_lt_of_le hbounds.2.1 hsize)

theorem flAllocateFromMemory_eq (hmem : s.flInmemory = true) :
    flAllocateFromMemory cache (fuel + 1) s daddr limit =
      if limit < alarmNblocks s limit then
        some ⟨(dbeFlExtract (falseAlarm s limit)).2, .success,
          (dbeFlExtract (falseAlarm s limit)).1,
          (dbeFlExtract (falseAlarm s limit)).1 = suDaddrNull⟩
      else some ⟨falseAlarm s limit, .success, daddr, true⟩ := by
  have hmem' : (falseAlarm s limit).flInmemory = true := by
    unfold falseAlarm
    split
    · exact hmem
    · exact hmem
  rw [flAllocateFromMemory]
  dsimp only
  rw [blNblocks_falseAlarm hmem]
  split
  · rfl
  · rw [if_neg fun h => h.2 hmem']

structure MapAllocated (s : Freelist) (limit : ℤ) (a : FlAllocated) : Prop where
  rc : a.rc = .success
  got : a.endoflist = false → limit < alarmNblocks s limit ∧ 0 < dbeFlMeasurelengthNomutex s ∧
    MapCounted { a.fl with flFreeblocks := a.fl.flFreeblocks - 1 }
  endoflist : a.endoflist = true →
    (limit < alarmNblocks s limit → dbeFlMeasurelengthNomutex s = 0) ∧ MapCounted a.fl ∧
      dbeFlMeasurelengthNomutex a.fl = dbeFlMeasurelengthNomutex s

theorem MapCounted.allocated (h : MapCounted s) (halarm : AlarmHarmless s limit)
    {a : FlAllocated} (ha : flAllocateFromMemory cache fuel s daddr limit = some a) :
    MapAllocated s limit a := by
  cases fuel with
  | zero => cases ha
  | succ fuel =>
      rw [flAllocateFromMemory_eq h.inmemory] at ha
      obtain ⟨hfalse, hsame⟩ := h.alarm halarm
      have hext := mapExtracted hfalse.inmemory hfalse.filesize hfalse.below
      have hsize : (dbeFlExtract (falseAlarm s limit)).2.flFilesize ≤ suDaddrNull :=
        hext.filesize.symm ▸ hfalse.filesize
      split at ha
      next hlow =>
        obtain rfl := Option.some.inj ha
        rcases hext.count with ⟨hnull, hzero, hzero'⟩ | ⟨hne, hcount⟩
        · rw [hsame] at hzero
          refine ⟨rfl, fun hgot => absurd hgot (by simp [hnull]), fun _ => ⟨fun _ => hzero, ?_, ?_⟩⟩
          · refine ⟨hext.inmemory, hsize, hext.below, ?_⟩
            rw [hext.freeblocks, hfalse.counted, hsame, hzero, hzero']
          · rw [hzero, hzero']
        · rw [hsame] at hcount
          refine ⟨rfl, fun _ => ⟨hlow, ?_, ⟨hext.inmemory, hsize, hext.below, ?_⟩⟩,
            fun hend => absurd hend (by simp [hne])⟩
          · rw [← hcount]
            exact Nat.succ_pos _
          · show (dbeFlExtract (falseAlarm s limit)).2.flFreeblocks - 1 =
              (dbeFlMeasurelengthNomutex (dbeFlExtract (falseAlarm s limit)).2 : ℤ)
            rw [hext.freeblocks, hfalse.counted, hsame, ← hcount, Nat.cast_succ,
              add_sub_cancel_right]
      next hlow =>
        obtain rfl := Option.some.inj ha
        exact ⟨rfl, fun hgot => absurd hgot Bool.true_eq_false_eq_False,
          fun _ => ⟨fun hl => absurd hl hlow, hfalse, hsame⟩⟩

/-! ## The operations -/

/-- An operation after a save. `canfail` and `extended` are those of
`dbeFlAllocDeferch`. -/
inductive FlOp where
  | alloc (canfail extended : Bool)
  | free (daddr : ℕ)

def flOp (fuel : ℕ) (w : Flcache × Freelist) : FlOp → Option (Flcache × Freelist)
  | .alloc canfail extended =>
    (dbeFlAllocDeferch fuel w.1 w.2 canfail extended).map fun a => (a.cache, a.fl)
  | .free daddr => (dbeFlFreeDeferch w.1 w.2 daddr).map fun r => (r.1, r.2.1)

/-- An allocation before which the counter is kept: it finds a free address, or it fails
without an extension; after a failed extension it takes no spare block; and a false alarm
leaves the counter. -/
def OpCounted (s : Freelist) : FlOp → Prop
  | .alloc canfail extended =>
    if s.flRc = .success then
      AlarmHarmless s s.flMaxspareblocks ∧
        (0 < dbeFlMeasurelengthNomutex s ∧
            s.flMaxspareblocks < alarmNblocks s s.flMaxspareblocks ∨
          extended = false ∧ (canfail = true ∨ dbeFlMeasurelengthNomutex s = 0))
    else canfail = true ∨ dbeFlMeasurelengthNomutex s = 0
  | .free _ => True

theorem MapCounted.diskError (h : MapCounted s) {canfail : Bool} {rc : SuRet}
    {chl : List Clrecord} (hclean : canfail = true ∨ dbeFlMeasurelengthNomutex s = 0)
    {a : FlAllocation} (ha : flHandleDiskError fuel cache s daddr canfail rc chl = some a) :
    MapCounted a.fl := by
  rw [flHandleDiskError] at ha
  generalize hs' : (if s.flRc = .success then { s with flRc := rc } else s) = s' at ha
  have h' : MapCounted s' ∧ dbeFlMeasurelengthNomutex s' = dbeFlMeasurelengthNomutex s := by
    subst hs'
    split
    · exact ⟨⟨h.inmemory, h.filesize, h.below, h.counted⟩, rfl⟩
    · exact ⟨h, rfl⟩
  rw [← h'.2] at hclean
  split at ha
  next =>
    obtain rfl := Option.some.inj ha
    exact h'.1
  next hfail =>
    have hzero := hclean.resolve_left hfail
    obtain ⟨b, hb, rfl⟩ := Option.map_eq_some_iff.mp ha
    have halarm : AlarmHarmless s' 0 := fun _ => hzero ▸ Nat.zero_le _
    have hall := h'.1.allocated halarm hb
    cases hend : b.endoflist with
    | true => exact (hall.endoflist hend).2.1
    | false => exact absurd hzero (hall.got hend).2.1.ne'

theorem MapCounted.alloc (h : MapCounted s) {canfail extended : Bool}
    (hclean : OpCounted s (.alloc canfail extended)) {a : FlAllocation}
    (ha : dbeFlAllocDeferch fuel cache s canfail extended = some a) : MapCounted a.fl := by
  rw [dbeFlAllocDeferch] at ha
  rw [OpCounted] at hclean
  split at ha
  next hrc =>
    rw [if_neg hrc] at hclean
    exact h.diskError hclean ha
  next hrc =>
    rw [if_pos (not_not.mp hrc)] at hclean
    obtain ⟨b, hb, ha⟩ := Option.bind_eq_some_iff.mp ha
    have hall := h.allocated hclean.1 hb
    cases hend : b.endoflist with
    | true =>
        obtain ⟨hzero, hcounted, hsame⟩ := hall.endoflist hend
        obtain ⟨rfl, hfail⟩ := hclean.2.resolve_left fun hfree =>
          hfree.1.ne' (hzero hfree.2)
        rw [hend, if_pos rfl, if_neg Bool.false_ne_true, allocFailure] at ha
        rw [← hsame] at hfail
        have hcounted' : MapCounted { b.fl with flDeferchlist := [] } :=
          ⟨hcounted.inmemory, hcounted.filesize, hcounted.below, hcounted.counted⟩
        exact hcounted'.diskError hfail ha
    | false =>
        rw [hend, if_neg Bool.false_ne_true, if_pos hall.rc] at ha
        obtain rfl := Option.some.inj ha
        have hgot := (hall.got hend).2.2
        exact ⟨hgot.inmemory, hgot.filesize, hgot.below, hgot.counted⟩

structure MapInserted (s s' : Freelist) (daddr : ℕ) : Prop where
  lt : daddr < s.flFilesize
  clear : s.flMap daddr = false
  inmemory : s'.flInmemory = true
  filesize : s'.flFilesize = s.flFilesize
  map : s'.flMap = Function.update s.flMap daddr true
  hint : s'.flMapHint = min s.flMapHint daddr
  freeblocks : s'.flFreeblocks = s.flFreeblocks

theorem mapInserted {s' : Freelist} (hmem : s.flInmemory = true)
    (h : dbeFlInsert s daddr = some s') : MapInserted s s' daddr := by
  rw [dbeFlInsert, if_pos hmem] at h
  obtain ⟨hsize, h⟩ := Option.ite_none_left_eq_some.mp h
  obtain ⟨hclear, h⟩ := Option.ite_none_left_eq_some.mp h
  obtain rfl := Option.some.inj h
  exact ⟨Nat.lt_of_not_le hsize, Bool.eq_false_iff.mpr hclear, hmem, rfl, rfl, rfl, rfl⟩

theorem MapCounted.free (h : MapCounted s) {r : Flcache × Freelist × List Clrecord}
    (hr : dbeFlFreeDeferch cache s daddr = some r) : MapCounted r.2.1 := by
  rw [dbeFlFreeDeferch] at hr
  obtain ⟨w, hw, rfl⟩ := Option.map_eq_some_iff.mp hr
  rw [dbeFlFreelocal] at hw
  obtain ⟨s', hs', hw⟩ := Option.map_eq_some_iff.mp hw
  have hmem : ({ s with flFreeblocks := s.flFreeblocks + 1 } : Freelist).flInmemory = true :=
    h.inmemory
  have hins := mapInserted hmem hs'
  rw [if_pos (Or.inr hins.inmemory)] at hw
  subst hw
  refine ⟨hins.inmemory, le_of_eq_of_le hins.filesize h.filesize, fun a ha => ?_, ?_⟩
  · have hlt := lt_min_iff.mp (lt_of_lt_of_eq ha hins.hint)
    show s'.flMap a = false
    rw [hins.map, Function.update_of_ne (ne_of_lt hlt.2)]
    exact h.below a hlt.1
  · have hset := count_set hins.lt hins.clear
    show s'.flFreeblocks = (count s'.flMap s'.flFilesize : ℤ)
    rw [hins.freeblocks, hins.map, hins.filesize, hset, Nat.cast_succ]
    exact congrArg (· + 1) h.counted

/-! ## Runs -/

inductive CountedRun (w : Flcache × Freelist) : Flcache × Freelist → Prop
  | refl : CountedRun w w
  | step {w' w'' : Flcache × Freelist} {fuel : ℕ} {op : FlOp} :
      CountedRun w w' → OpCounted w'.2 op → flOp fuel w' op = some w'' → CountedRun w w''

theorem MapCounted.op {w w' : Flcache × Freelist} {op : FlOp} (h : MapCounted w.2)
    (hclean : OpCounted w.2 op) (hw : flOp fuel w op = some w') : MapCounted w'.2 := by
  cases op with
  | alloc canfail extended =>
      obtain ⟨a, ha, rfl⟩ := Option.map_eq_some_iff.mp hw
      exact h.alloc hclean ha
  | free daddr =>
      obtain ⟨r, hr, rfl⟩ := Option.map_eq_some_iff.mp hw
      exact h.free hr

theorem MapCounted.run {w w' : Flcache × Freelist} (h : MapCounted w.2)
    (hrun : CountedRun w w') : MapCounted w'.2 := by
  induction hrun with
  | refl => exact h
  | step _ hclean hop ih => exact ih.op hclean hop

/-! ## Extending the file -/

theorem freeExtended_map (cache : Flcache) (hmem : s.flInmemory = true) (hlt : daddr < s.flFilesize)
    (hclear : s.flMap daddr = false) :
    ∃ s', freeExtended (cache, s) daddr = some (cache, s') ∧ s'.flInmemory = true ∧
      s'.flFilesize = s.flFilesize ∧ s'.flMap = Function.update s.flMap daddr true ∧
      s'.flMapHint = min s.flMapHint daddr ∧ s'.flFreeblocks = s.flFreeblocks + 1 := by
  obtain ⟨s', hs'⟩ : ∃ s', dbeFlInsert s daddr = some s' := by
    rw [dbeFlInsert, if_pos hmem, if_neg (Nat.not_le.mpr hlt),
      if_neg (Bool.eq_false_iff.mp hclear)]
    exact ⟨_, rfl⟩
  have hins := mapInserted hmem hs'
  refine ⟨{ s' with flFreeblocks := s'.flFreeblocks + 1 }, ?_, hins.inmemory, hins.filesize,
    hins.map, hins.hint, congrArg (· + 1) hins.freeblocks⟩
  rw [freeExtended, dbeFlFreelocal, hs', Option.map_some, Option.map_some,
    if_pos (Or.inr hins.inmemory)]

theorem foldlM_freeExtended (cache : Flcache) {as : List ℕ} (hmem : s.flInmemory = true)
    (hnodup : as.Nodup) (hbelow : ∀ a < s.flMapHint, s.flMap a = false)
    (has : ∀ a ∈ as, a < s.flFilesize ∧ s.flMap a = false) :
    ∃ s', as.foldlM freeExtended (cache, s) = some (cache, s') ∧ s'.flInmemory = true ∧
      s'.flFilesize = s.flFilesize ∧ (∀ a < s'.flMapHint, s'.flMap a = false) ∧
      s'.flFreeblocks = s.flFreeblocks + as.length ∧
      dbeFlMeasurelengthNomutex s' = dbeFlMeasurelengthNomutex s + as.length := by
  induction as generalizing s with
  | nil => exact ⟨s, rfl, hmem, rfl, hbelow, (add_zero _).symm, rfl⟩
  | cons a as ih =>
      obtain ⟨hnot, hnodup⟩ := List.nodup_cons.mp hnodup
      obtain ⟨ha, has⟩ := List.forall_mem_cons.mp has
      obtain ⟨s1, hs1, hmem1, hsize1, hmap1, hhint1, hfree1⟩ :=
        freeExtended_map cache hmem ha.1 ha.2
      have hbelow1 : ∀ b < s1.flMapHint, s1.flMap b = false := by
        intro b hb
        have hlt := lt_min_iff.mp (lt_of_lt_of_eq hb hhint1)
        rw [hmap1, Function.update_of_ne (ne_of_lt hlt.2)]
        exact hbelow b hlt.1
      have has1 : ∀ b ∈ as, b < s1.flFilesize ∧ s1.flMap b = false := by
        intro b hb
        have hne : b ≠ a := fun e => hnot (e ▸ hb)
        rw [hsize1, hmap1, Function.update_of_ne hne]
        exact has b hb
      have hcount1 : dbeFlMeasurelengthNomutex s1 = dbeFlMeasurelengthNomutex s + 1 := by
        rw [dbeFlMeasurelengthNomutex, hmap1, hsize1]
        exact count_set ha.1 ha.2
      obtain ⟨s', hs', hmem', hsize', hbelow', hfree', hcount'⟩ := ih hmem1 hnodup hbelow1 has1
      refine ⟨s', ?_, hmem', hsize'.trans hsize1, hbelow', ?_, ?_⟩
      · rw [List.foldlM_cons, hs1]
        exact hs'
      · rw [hfree', hfree1, List.length_cons, Nat.cast_succ, add_assoc, add_comm (1 : ℤ)]
      · rw [hcount', hcount1, List.length_cons, Nat.add_assoc, Nat.add_comm 1]

/-- An extension of the file counts every new block twice. -/
theorem MapCounted.extendFile (h : MapCounted s)
    (hsize : s.flFilesize + s.flExtendincr ≤ suDaddrNull) {w : Flcache × Freelist}
    (hw : extendFile cache s = some w) :
    w.2.flFreeblocks = dbeFlMeasurelengthNomutex w.2 + s.flExtendincr := by
  have hmod : (s.flFilesize + s.flExtendincr) % 2 ^ 32 = s.flFilesize + s.flExtendincr :=
    Nat.mod_eq_of_lt (lt_of_le_of_lt hsize (by decide))
  let s1 : Freelist := { s with flFilesize := s.flFilesize + s.flExtendincr }
  have hw : (List.range' s.flFilesize s.flExtendincr).reverse.foldlM freeExtended
      (cache, extendMap s1 s.flFilesize) = some w := by
    rw [← hw, SolidDB.extendFile, hmod, if_pos h.inmemory, Nat.add_sub_cancel_left]
  have hle : s.flFilesize ≤ s.flFilesize + s.flExtendincr := Nat.le_add_right _ _
  have hbelow : ∀ a < (extendMap s1 s.flFilesize).flMapHint,
      (extendMap s1 s.flFilesize).flMap a = false := by
    intro a ha
    have hlt := (lt_min_iff.mp ha).1
    show (if _ then false else s.flMap a) = false
    rw [h.below a hlt, ite_self]
  have has : ∀ a ∈ (List.range' s.flFilesize s.flExtendincr).reverse,
      a < (extendMap s1 s.flFilesize).flFilesize ∧
        (extendMap s1 s.flFilesize).flMap a = false := by
    intro a ha
    have hbounds := List.mem_range'_1.mp (List.mem_reverse.mp ha)
    exact ⟨hbounds.2, if_pos hbounds⟩
  obtain ⟨s', hs', -, -, -, hfree, hcount⟩ := @foldlM_freeExtended
    (extendMap s1 s.flFilesize) cache _ h.inmemory
    (List.nodup_reverse.mpr List.nodup_range') hbelow has
  obtain rfl := Option.some.inj (hs'.symm.trans hw)
  have hold : dbeFlMeasurelengthNomutex (extendMap s1 s.flFilesize) =
      dbeFlMeasurelengthNomutex s := count_extend s.flMap hle
  have hfree1 : (extendMap s1 s.flFilesize).flFreeblocks =
      dbeFlMeasurelengthNomutex s + s.flExtendincr := by
    rw [← h.counted]
    exact congrArg (fun n : ℕ => s.flFreeblocks + n) (Nat.add_sub_cancel_left _ _)
  rw [hfree, hcount, hold, hfree1, List.length_reverse, List.length_range', Nat.cast_add]

/-! ## The save and what follows -/

/-- A save is exact when the counter is known to be right or unknown, the superblocks are
not all full and the recorded addresses can be counted; and after it the counter stays
right in the runs of the counted kinds. -/
theorem savesExactly_iff (h : FlSaving cache s) :
    (SavesExactly cache s ↔ SaveFits s) ∧
      ∀ fuel w w', SaveFits s → dbeFlWriteAllSuperblocks fuel cache s = some w →
        CountedRun w w' → w'.2.flFreeblocks = dbeFlMeasurelengthNomutex w'.2 := by
  refine ⟨saveFits_iff h, fun fuel w w' hfits hw hrun => ?_⟩
  have hn : 0 < (freeAddrs s).length :=
    Nat.pos_of_ne_zero fun hzero => hfits.notDvd (hzero ▸ Nat.dvd_zero _)
  have hm := mapSaved h hfits.known hn hw
  have hcounted : MapCounted w.2 := by
    refine ⟨hm.inmemory, le_of_eq_of_le hm.filesize h.filesize, fun a ha => ?_, hm.freeblocks⟩
    rw [hm.hint] at ha
    exact absurd ha (Nat.not_lt_zero a)
  exact (hcounted.run hrun).counted

def freshMap (n : ℕ) : Freelist :=
  { flEmpty twoKilobytes suDaddrNull 1024 50 1 true with
    flMap := fun a => decide (1 ≤ a ∧ a ≤ n) }

def blankSuperblocks : Flcache := fun _ => ⟨dbeBlhInit .freelist 0, fun _ => 0⟩

theorem flSaving_freshMap (n : ℕ) : FlSaving blankSuperblocks (freshMap n) :=
  ⟨rfl, rfl, (by decide : 1024 ≤ suDaddrNull), [], rfl⟩

def savedThree : Flcache × Freelist :=
  (dbeFlWriteAllSuperblocks 1 blankSuperblocks (freshMap 3)).get rfl

def allocatedThree : Flcache × Freelist :=
  (flOp 1 savedThree (.alloc false false)).get (by decide +kernel)

/-- Of three free addresses one is taken for the superblock and one by the allocation after
the save, and then a block is freed. -/
theorem savesExactly_three :
    SavesExactly blankSuperblocks (freshMap 3) ∧
      dbeFlWriteAllSuperblocks 1 blankSuperblocks (freshMap 3) = some savedThree ∧
      flOp 1 savedThree (.alloc false false) = some allocatedThree ∧
      ∃ w, flOp 1 allocatedThree (.free 9) = some w ∧
        allocatedThree.2.flFreeblocks = 1 ∧ w.2.flFreeblocks = 2 ∧
        w.2.flFreeblocks = dbeFlMeasurelengthNomutex w.2 := by
  have hlen : (freeAddrs (freshMap 3)).length = 3 := by decide +kernel
  have hfits : SaveFits (freshMap 3) := by
    refine ⟨fun hknown => absurd hknown Bool.false_ne_true, ?_, ?_⟩
    · rw [hlen]
      decide
    · rw [hlen]
      decide
  have hsaving := flSaving_freshMap 3
  have hsaved : dbeFlWriteAllSuperblocks 1 blankSuperblocks (freshMap 3) = some savedThree :=
    (Option.some_get _).symm
  have hcounted : OpCounted savedThree.2 (.alloc false false) := by
    have hrc : savedThree.2.flRc = .success := by decide +kernel
    rw [OpCounted, if_pos hrc]
    exact ⟨fun _ => by decide +kernel, Or.inl ⟨by decide +kernel, by decide +kernel⟩⟩
  have halloc : flOp 1 savedThree (.alloc false false) = some allocatedThree :=
    (Option.some_get _).symm
  have hfree : (flOp 1 allocatedThree (.free 9)).map (fun w => w.2.flFreeblocks) = some 2 := by
    decide +kernel
  obtain ⟨w, hw, hcount⟩ := Option.map_eq_some_iff.mp hfree
  have hfreed : OpCounted allocatedThree.2 (.free 9) := trivial
  have hrun : CountedRun savedThree w := (CountedRun.refl.step hcounted halloc).step hfreed hw
  exact ⟨(savesExactly_iff hsaving).1.mpr hfits, hsaved, halloc, w, hw, by decide +kernel,
    hcount, (savesExactly_iff hsaving).2 1 savedThree w hfits hsaved hrun⟩

/-- Of 510 free addresses one is recorded in the first superblock and becomes the second
one. -/
theorem fullSuperblocks_not_savesExactly :
    ¬ SavesExactly blankSuperblocks (freshMap 510) := by
  have hlen : (freeAddrs (freshMap 510)).length = 510 := by decide +kernel
  intro hsaves
  refine ((saveFits_iff (flSaving_freshMap 510)).mp hsaves).notDvd ?_
  rw [hlen]
  decide

end SolidDB
