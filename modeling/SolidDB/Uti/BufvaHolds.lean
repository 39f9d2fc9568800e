import SolidDB.Uti.Bufva

/-!
# What a buffer holds

A buffer holds the data of a v-attribute itself, or refers to a block of the heap that does. Each
operation leaves the data that the operation on a plain v-attribute gives, and changes at most the
block that the buffer refers to.
-/

namespace SolidDB.Bufva

open BlockHeap BlockArray

variable {h : Heap} {buf mem va src a b c : List Cell} {v w d tail : List UInt8} {r : Option ℕ}
  {n off p : ℕ}

def HasVa (mem : List Cell) (v : List UInt8) : Prop := ∃ rest, mem = bytes (encVa v) ++ rest

structure BufSize (buf : List Cell) : Prop where
  minimum : bufvaMinbufsize ≤ buf.length
  maximum : buf.length ≤ bufvaMaxbufsize

inductive BufHolds (h : Heap) (v : List UInt8) (buf : List Cell) : Option ℕ → Prop where
  | inBuffer (hfits : v.length < buf.length) (hva : HasVa buf v) : BufHolds h v buf none
  | onHeap {p : ℕ} {a c mem : List Cell} (ha : a.length = 8)
      (hfirst : loadByte a 0 = some 253) (hbuf : buf = a ++ pointer p ++ c)
      (hp : h.blocks p = some mem) (hva : HasVa mem v) : BufHolds h v buf (some p)

/-- An operation on the buffer that refers to `r`: the buffer and the heap behind it, where a block
is used exactly as told. -/
def Leaves (h : Heap) (buf : List Cell) (r : Option ℕ) (v : List UInt8) (block : Prop)
    (res : Option (List Cell × Heap)) : Prop :=
  ∃ buf' h' r', res = some (buf', h') ∧ buf'.length = buf.length ∧ BufHolds h' v buf' r' ∧
    h.Changes h' r r' ∧ (r'.isSome ↔ block)

/-! ## V-attributes in memory -/

theorem vaSetLen_cases (n : ℕ) :
    (byteLenTest n = true ∧ vaSetLen n = [UInt8.ofNat n]) ∨
      (byteLenTest n = false ∧ vaSetLen n = setFourByteLen n) := by
  rw [vaSetLen]
  cases byteLenTest n with
  | true => exact Or.inl ⟨rfl, rfl⟩
  | false => exact Or.inr ⟨rfl, rfl⟩

/-- The first byte of a length and, in the long format, the number behind it. -/
theorem loadByte_vaSetLen (hn : n < 2 ^ 32) (c : List Cell) :
    (byteLenTest n = true ∧ loadByte (bytes (vaSetLen n) ++ c) 0 = some (UInt8.ofNat n) ∧
      (UInt8.ofNat n).toNat = n) ∨
    (byteLenTest n = false ∧ loadByte (bytes (vaSetLen n) ++ c) 0 = some 0xFE ∧
      loadBytes (bytes (vaSetLen n) ++ c) 0 5 = some (setFourByteLen n) ∧
      fourByteLen (setFourByteLen n) = n) := by
  rcases vaSetLen_cases n with ⟨hlen, henc⟩ | ⟨hlen, henc⟩
  · refine Or.inl ⟨hlen, by rw [henc]; rfl, ?_⟩
    have hlt := (byteLenTest_iff _).mp hlen
    rw [UInt8.toNat_ofNat']
    omega
  · have hfour := fourByteLen_setFourByteLen hn []
    rw [List.append_nil] at hfour
    refine Or.inr ⟨hlen, by rw [henc]; rfl, ?_, hfour⟩
    rw [henc]
    exact loadBytes_start

theorem HasVa.first (hva : HasVa mem v) (hv : v.length < 2 ^ 32) :
    (byteLenTest v.length = true ∧ loadByte mem 0 = some (UInt8.ofNat v.length) ∧
      (UInt8.ofNat v.length).toNat = v.length) ∨
    (byteLenTest v.length = false ∧ loadByte mem 0 = some 0xFE ∧
      loadBytes mem 0 5 = some (setFourByteLen v.length) ∧
      fourByteLen (setFourByteLen v.length) = v.length) := by
  obtain ⟨rest, rfl⟩ := hva
  rw [encVa, bytes_append, List.append_assoc]
  exact loadByte_vaSetLen hv _

theorem byteLenTest_limit : byteLenTest (0xFE : UInt8).toNat = false := by decide

theorem HasVa.vaGetdata (hva : HasVa mem v) (hv : v.length < 2 ^ 32) :
    vaGetdata mem = some (vaLenLen v.length, v.length) := by
  rw [Bufva.vaGetdata, vaLenLen]
  rcases hva.first hv with ⟨hlen, hfirst, hvalue⟩ | ⟨hlen, hfirst, hfive, hvalue⟩
  · simp only [hfirst, hvalue, hlen, if_true, Option.bind_eq_bind, Option.bind_some]
  · simp only [hfirst, byteLenTest_limit, hfive, hvalue, hlen, Option.bind_eq_bind,
      Option.bind_some, Bool.false_eq_true, if_false]

theorem HasVa.vaNetlen (hva : HasVa mem v) (hv : v.length < 2 ^ 32) :
    vaNetlen mem = some v.length := by
  rw [Bufva.vaNetlen]
  rcases hva.first hv with ⟨hlen, hfirst, hvalue⟩ | ⟨hlen, hfirst, hfive, hvalue⟩
  · simp only [hfirst, hvalue, hlen, if_true, Option.bind_eq_bind, Option.bind_some]
  · simp only [hfirst, byteLenTest_limit, hfive, hvalue, Option.bind_eq_bind,
      Option.bind_some, Bool.false_eq_true, if_false]

theorem vaGrosslen_vaSetLen (hn : vaLenLen n + n < 2 ^ 32) (c : List Cell) :
    vaGrosslen (bytes (vaSetLen n) ++ c) = some (vaLenLen n + n) := by
  have hnet : n < 2 ^ 32 := by omega
  rw [vaLenLen] at hn
  rw [Bufva.vaGrosslen, vaLenLen]
  rcases loadByte_vaSetLen hnet c with ⟨hlen, hfirst, hvalue⟩ | ⟨hlen, hfirst, hfive, hvalue⟩
  · simp only [hfirst, hvalue, hlen, if_true, Option.bind_eq_bind, Option.bind_some]
    rw [Nat.add_comm]
  · rw [hlen, if_neg Bool.false_ne_true] at hn
    simp only [hfirst, byteLenTest_limit, hfive, hvalue, hlen, Option.bind_eq_bind,
      Option.bind_some, Bool.false_eq_true, if_false]
    rw [Nat.add_comm, vaIndex_of_lt hn]

theorem HasVa.vaGrosslen (hva : HasVa mem v) (hv : (encVa v).length < 2 ^ 32) :
    vaGrosslen mem = some (encVa v).length := by
  obtain ⟨rest, rfl⟩ := hva
  rw [length_encVa] at hv
  rw [length_encVa, encVa, bytes_append, List.append_assoc]
  exact vaGrosslen_vaSetLen hv _

/-! ## Writing -/

theorem memcpy_bytes (hsrc : src = bytes d ++ c) (hoff : a.length = off)
    (hroom : d.length ≤ b.length) :
    memcpy (a ++ b) off src d.length = some (a ++ bytes d ++ b.drop d.length) := by
  subst hsrc
  rw [memcpy, load_bytes]
  exact store_drop hoff length_bytes hroom

theorem memcpy_va (hva : HasVa src v) (hroom : (encVa v).length ≤ mem.length) :
    ∃ mem', memcpy mem 0 src (encVa v).length = some mem' ∧ HasVa mem' v ∧
      mem'.length = mem.length := by
  obtain ⟨rest, rfl⟩ := hva
  refine ⟨_, memcpy_bytes (a := []) rfl rfl hroom, ⟨_, rfl⟩, ?_⟩
  rw [List.nil_append, List.length_append, length_bytes, List.length_drop]
  omega

theorem vaSetdata_none (hoff : a.length = off) (hroom : vaLenLen n ≤ b.length) :
    vaSetdata (a ++ b) off none n =
      some (a ++ bytes (vaSetLen n) ++ b.drop (vaLenLen n)) := by
  have hstore := store_drop (d := bytes (vaSetLen n)) hoff
    (by rw [length_bytes, length_vaSetLen]) hroom
  rw [vaSetdata]
  simp only [hstore, Option.bind_eq_bind, Option.bind_some]

theorem vaSetdata_bytes (hsrc : src = bytes d ++ c) (hoff : a.length = off)
    (hroom : (encVa d).length ≤ b.length) :
    vaSetdata (a ++ b) off (some src) d.length =
      some (a ++ bytes (encVa d) ++ b.drop (encVa d).length) := by
  rw [length_encVa] at hroom
  have hnone := vaSetdata_none (a := a) (b := b) (n := d.length) hoff (by omega)
  have hcopy := memcpy_bytes (a := a ++ bytes (vaSetLen d.length))
    (b := b.drop (vaLenLen d.length)) hsrc
    (show _ = off + vaLenLen d.length by
      rw [List.length_append, length_bytes, length_vaSetLen, hoff])
    (by rw [List.length_drop]; omega)
  rw [vaSetdata] at hnone ⊢
  simp only [Option.bind_eq_bind] at hnone ⊢
  cases hstore : store (a ++ b) off (bytes (vaSetLen d.length)) with
  | none =>
      rw [hstore] at hnone
      cases hnone
  | some mem =>
      rw [hstore, Option.bind_some, Option.some_inj] at hnone
      rw [Option.bind_some, hnone]
      change memcpy _ _ _ _ = _
      rw [hcopy]
      simp only [encVa, bytes_append, List.drop_drop, List.append_assoc, List.length_append,
        length_vaSetLen]

/-! ## The buffer -/

theorem loadByte_append (ha : 0 < a.length) : loadByte (a ++ b) 0 = loadByte a 0 := by
  rw [loadByte, loadByte, List.getElem?_append_left ha]

/-- The first byte tells whether the buffer refers to a block. -/
theorem BufHolds.first (hold : BufHolds h v buf r) (hsize : BufSize buf) :
    (r = none ∧ bufva1bytenetlen buf = some v.length ∧ v.length < buf.length) ∨
      ∃ p, r = some p ∧ bufva1bytenetlen buf = some 253 ∧ bufvaGetDynamicVa buf = some p := by
  have hmax := hsize.maximum
  cases hold with
  | inBuffer hfits hva =>
      have hlimit : bufvaMaxbufsize = 253 := rfl
      refine Or.inl ⟨rfl, ?_, hfits⟩
      rcases hva.first (by omega) with ⟨hlen, hfirst, hvalue⟩ | ⟨hlen, -⟩
      · rw [bufva1bytenetlen, hfirst, Option.map_some, hvalue]
      · have hshort := (byteLenTest_iff v.length).mpr (by omega)
        rw [hlen] at hshort
        cases hshort
  | onHeap ha hfirst hbuf hp hva =>
      refine Or.inr ⟨_, rfl, ?_, ?_⟩
      · rw [bufva1bytenetlen, hbuf, List.append_assoc, loadByte_append (by omega), hfirst]
        rfl
      · rw [bufvaGetDynamicVa, hbuf, loadPointer_middle ha]

theorem BufHolds.grosslen (hold : BufHolds h v buf r) (hsize : BufSize buf) :
    (r = none ∧ ∃ n, bufva1bytegrosslen buf = some n ∧ ¬ n > buf.length) ∨
      ∃ p, r = some p ∧ bufva1bytegrosslen buf = some 254 ∧ 254 > buf.length ∧
        bufvaGetDynamicVa buf = some p := by
  have hmax := hsize.maximum
  have hlimit : bufvaMaxbufsize = 253 := rfl
  rcases hold.first hsize with ⟨hr, hlen, hlt⟩ | ⟨p, hr, hlen, hp⟩
  · refine Or.inl ⟨hr, v.length + 1, ?_, by omega⟩
    rw [bufva1bytegrosslen, hlen, Option.map_some]
  · refine Or.inr ⟨p, hr, ?_, by omega, hp⟩
    rw [bufva1bytegrosslen, hlen, Option.map_some]

theorem BufHolds.block (hold : BufHolds h v buf (some p)) :
    ∃ mem, h.blocks p = some mem ∧ HasVa mem v := by
  cases hold with
  | onHeap _ _ _ hp hva => exact ⟨_, hp, hva⟩

theorem bufvaSetDynamicVa_holds (hsize : BufSize buf) (hp : h.blocks p = some mem)
    (hva : HasVa mem v) :
    ∃ buf', bufvaSetDynamicVa buf p = some buf' ∧ buf'.length = buf.length ∧
      BufHolds h v buf' (some p) := by
  have hmin : 16 ≤ buf.length := hsize.minimum
  have hbyte := store_drop (a := []) (b := buf) (d := [.byte (UInt8.ofNat (vaLongvalimit - 1))])
    (n := 1) rfl rfl (by omega)
  obtain ⟨s, t, hst, hs⟩ := exists_append (buf.drop 1) (n := 7) (by
    rw [List.length_drop]
    omega)
  have hlen := congrArg List.length hst
  rw [List.length_drop, List.length_append] at hlen
  have hoff : ([.byte (UInt8.ofNat (vaLongvalimit - 1))] ++ s : List Cell).length = 8 := by
    rw [List.length_append, hs]
    rfl
  have hpointer := store_drop (b := t) hoff (length_pointer (p := p)) (by omega)
  rw [List.append_assoc, ← hst] at hpointer
  refine ⟨[.byte (UInt8.ofNat (vaLongvalimit - 1))] ++ s ++ pointer p ++ t.drop 8, ?_, ?_,
    .onHeap hoff rfl rfl hp hva⟩
  · rw [List.nil_append, List.length_nil] at hbyte
    rw [bufvaSetDynamicVa, hbyte]
    exact hpointer
  · simp only [List.length_append, List.length_singleton, length_pointer, List.length_drop]
    omega

theorem inBuffer_of_va (hva : HasVa mem v) (hfits : ¬ (encVa v).length > mem.length) :
    BufHolds h v mem none := by
  rw [length_encVa] at hfits
  have hpos := vaLenLen_pos v.length
  exact .inBuffer (by omega) hva

/-! ## Blocks -/

theorem alloc_modify (hb : h.Bounded) {f : List Cell → Option (List Cell)}
    (hf : ∃ mem', f (List.replicate n .undef) = some mem' ∧ HasVa mem' v) :
    ∃ h' mem', (h.alloc n).2.modify (h.alloc n).1 f = some h' ∧
      h.Changes h' none (some (h.alloc n).1) ∧ h'.blocks (h.alloc n).1 = some mem' ∧
      HasVa mem' v := by
  obtain ⟨mem', hrun, hva⟩ := hf
  obtain ⟨hc₁, hat₁⟩ := Heap.add_changes hb (List.replicate n .undef)
  obtain ⟨h', hmod, hc₂, hat₂⟩ := Heap.modify_changes hat₁ hrun (hc₁.bounded hb)
  exact ⟨h', mem', hmod, hc₁.trans hc₂, hat₂, hva⟩

theorem realloc_modify (hb : h.Bounded) (hp : h.blocks p = some mem)
    {f : List Cell → Option (List Cell)}
    (hf : ∃ mem', f (mem.take n ++ List.replicate (n - mem.length) .undef) = some mem' ∧
      HasVa mem' v) :
    ∃ q h₁ h' mem', h.realloc p n = some (q, h₁) ∧ h₁.modify q f = some h' ∧
      h.Changes h' (some p) (some q) ∧ h'.blocks q = some mem' ∧ HasVa mem' v := by
  obtain ⟨mem', hrun, hva⟩ := hf
  obtain ⟨q, h₁, hre, hc₁, hat₁⟩ := Heap.realloc_changes hp hb n
  obtain ⟨h', hmod, hc₂, hat₂⟩ := Heap.modify_changes hat₁ hrun (hc₁.bounded hb)
  exact ⟨q, h₁, h', mem', hre, hmod, hc₁.trans hc₂, hat₂, hva⟩

/-! ## Setting -/

variable {block : Prop}

theorem leaves_onHeap (hsize : BufSize buf) {h' : Heap} (hc : h.Changes h' r (some p))
    (hp : h'.blocks p = some mem) (hva : HasVa mem w) (hblock : block) :
    Leaves h buf r w block ((bufvaSetDynamicVa buf p).bind fun buf => some (buf, h')) := by
  obtain ⟨buf', hset, hlen, hholds⟩ := bufvaSetDynamicVa_holds hsize hp hva
  exact ⟨buf', h', some p, by rw [hset, Option.bind_some], hlen, hholds, hc,
    iff_of_true rfl hblock⟩

theorem leaves_inBuffer (hb : h.Bounded) {res : Option (List Cell)}
    (hres : ∃ buf', res = some buf' ∧ HasVa buf' w ∧ buf'.length = buf.length)
    (hfits : ¬ (encVa w).length > buf.length) (hblock : ¬ block) :
    Leaves h buf none w block (res.bind fun buf => some (buf, h)) := by
  obtain ⟨buf', rfl, hva, hlen⟩ := hres
  exact ⟨buf', h, none, rfl, hlen, inBuffer_of_va hva (by omega), .refl nofun hb,
    iff_of_false nofun hblock⟩

theorem leaves_freed (hp : h.blocks p = some mem) {res : Option (List Cell)}
    (hres : ∃ buf', res = some buf' ∧ HasVa buf' w ∧ buf'.length = buf.length)
    (hfits : ¬ (encVa w).length > buf.length) (hblock : ¬ block) :
    Leaves h buf (some p) w block
      ((h.free p).bind fun h => res.bind fun buf => some (buf, h)) := by
  obtain ⟨h', hfree, hc⟩ := Heap.free_changes hp
  obtain ⟨buf', rfl, hva, hlen⟩ := hres
  exact ⟨buf', h', none, by rw [hfree]; rfl, hlen, inBuffer_of_va hva (by omega), hc,
    iff_of_false nofun hblock⟩

/-- A v-attribute is too long for a buffer exactly if its data is as long as the buffer. -/
theorem encVa_gt_iff (hsize : BufSize buf) : (encVa w).length > buf.length ↔
    buf.length ≤ w.length := by
  have hmax : buf.length ≤ 253 := hsize.maximum
  rw [length_encVa, vaLenLen]
  split
  next => omega
  next hlong =>
    rw [byteLenTest_iff] at hlong
    omega

theorem hasVa_null : HasVa vaNull [] := ⟨[], rfl⟩

theorem bufvaSetva_leaves (hsize : BufSize buf) (hb : h.Bounded) (hold : BufHolds h v buf r)
    {va : Option (List Cell)} (hva : HasVa (va.getD vaNull) w) (hw : (encVa w).length < 2 ^ 32) :
    Leaves h buf r w (buf.length ≤ w.length) (bufvaSetva buf buf.length va h) := by
  generalize hsrc : va.getD vaNull = src at hva
  have hblock (l : List Cell) (hl : l.length = (encVa w).length) :
      ∃ mem', memcpy l 0 src (encVa w).length = some mem' ∧ HasVa mem' w := by
    obtain ⟨mem', hrun, hmem, -⟩ := memcpy_va hva (show (encVa w).length ≤ l.length by omega)
    exact ⟨mem', hrun, hmem⟩
  have hneeds := encVa_gt_iff (w := w) hsize
  rw [bufvaSetva]
  simp only [hsrc, hva.vaGrosslen hw, Option.bind_eq_bind, Option.bind_some]
  rcases hold.grosslen hsize with ⟨rfl, n, hgross, hn⟩ | ⟨p, rfl, hgross, hn, hp⟩
  · simp only [hgross, hn, Option.bind_some, if_false]
    by_cases hlong : (encVa w).length > buf.length
    · obtain ⟨h', mem', hmod, hc, hat, hmem⟩ :=
        alloc_modify hb (n := (encVa w).length)
          (f := fun mem => memcpy mem 0 src (encVa w).length) (hblock _ List.length_replicate)
      simp only [if_pos hlong, hmod, Option.bind_some]
      exact leaves_onHeap hsize hc hat hmem (hneeds.mp hlong)
    · simp only [if_neg hlong]
      exact leaves_inBuffer hb (memcpy_va hva (by omega)) hlong (mt hneeds.mpr hlong)
  · obtain ⟨mem, hat, -⟩ := hold.block
    simp only [hgross, hn, hp, Option.bind_some, if_true]
    by_cases hlong : (encVa w).length > buf.length
    · obtain ⟨q, h₁, h', mem', hre, hmod, hc, hat', hmem⟩ :=
        realloc_modify hb hat (n := (encVa w).length)
          (f := fun mem => memcpy mem 0 src (encVa w).length) (hblock _ (by
            rw [List.length_append, List.length_take, List.length_replicate]
            omega))
      simp only [if_pos hlong, hre, hmod, Option.bind_some]
      exact leaves_onHeap hsize hc hat' hmem (hneeds.mp hlong)
    · simp only [if_neg hlong]
      exact leaves_freed hat (memcpy_va hva (by omega)) hlong (mt hneeds.mpr hlong)

theorem setdata_source (hsrc : src = bytes d ++ c) :
    ∃ rest, (if d.length = 0 then vaNull else src) = bytes d ++ rest := by
  split
  next hzero =>
    rw [List.eq_nil_of_length_eq_zero hzero]
    exact ⟨vaNull, rfl⟩
  next => exact ⟨c, hsrc⟩

theorem dynvaSetdata_spec (hb : h.Bounded) (hr : ∀ p, r = some p → (h.blocks p).isSome)
    (hsrc : src = bytes d ++ c) (hd : (encVa d).length < 2 ^ 32) :
    ∃ q h' mem', dynvaSetdata r src d.length h = some (q, h') ∧ h.Changes h' r (some q) ∧
      h'.blocks q = some mem' ∧ HasVa mem' d := by
  have hset (l : List Cell) (hl : l.length = max dynvaMinlen (vaLenLen d.length + d.length)) :
      ∃ mem', vaSetdata l 0 (some src) d.length = some mem' ∧ HasVa mem' d := by
    refine ⟨_, vaSetdata_bytes (a := []) hsrc rfl ?_, ⟨_, rfl⟩⟩
    rw [length_encVa, hl]
    exact le_max_right _ _
  rw [length_encVa] at hd
  have hle : d.length ≤ vaMaxindex := by
    have hmax : vaMaxindex = 2 ^ 32 - 5 := rfl
    rw [vaLenLen] at hd
    split at hd
    next hshort =>
      have hlt := (byteLenTest_iff _).mp hshort
      omega
    next => omega
  rw [dynvaSetdata, if_pos hle, vaIndex_of_lt hd]
  cases r with
  | none =>
      obtain ⟨h', mem', hmod, hc, hat, hmem⟩ := alloc_modify hb
        (f := fun mem => vaSetdata mem 0 (some src) d.length) (hset _ List.length_replicate)
      refine ⟨_, h', mem', ?_, hc, hat, hmem⟩
      simp only [dynvaAlloc, Option.bind_eq_bind, Option.bind_some, hmod]
  | some p =>
      obtain ⟨mem, hat⟩ := Option.isSome_iff_exists.mp (hr p rfl)
      obtain ⟨q, h₁, h', mem', hre, hmod, hc, hat', hmem⟩ := realloc_modify hb hat
        (f := fun mem => vaSetdata mem 0 (some src) d.length)
        (n := max dynvaMinlen (vaLenLen d.length + d.length)) (hset _ (by
          rw [List.length_append, List.length_take, List.length_replicate]
          omega))
      refine ⟨q, h', mem', ?_, hc, hat', hmem⟩
      simp only [dynvaAlloc, hre, Option.bind_eq_bind, Option.bind_some, hmod]

theorem bufvaSetdata_leaves (hsize : BufSize buf) (hb : h.Bounded) (hold : BufHolds h v buf r)
    (hsrc : src = bytes d ++ c) (hd : (encVa d).length < 2 ^ 32) :
    Leaves h buf r d (buf.length ≤ d.length) (bufvaSetdata buf buf.length src d.length h) := by
  have hmax := hsize.maximum
  have hlimit : bufvaMaxbufsize = 253 := rfl
  obtain ⟨rest, hrest⟩ := setdata_source hsrc
  generalize hsrc' : (if d.length = 0 then vaNull else src) = src' at hrest
  have hshort (hfits : ¬ d.length + 1 > buf.length) : (encVa d).length = d.length + 1 := by
    rw [length_encVa, vaLenLen, if_pos ((byteLenTest_iff _).mpr (by omega)), Nat.add_comm]
  have hset (hfits : ¬ d.length + 1 > buf.length) :
      ∃ buf', vaSetdata buf 0 (some src') d.length = some buf' ∧ HasVa buf' d ∧
        buf'.length = buf.length := by
    have hlen := hshort hfits
    refine ⟨_, vaSetdata_bytes (a := []) hrest rfl (by omega), ⟨_, rfl⟩, ?_⟩
    rw [List.nil_append, List.length_append, length_bytes, List.length_drop]
    omega
  rw [bufvaSetdata]
  simp only [hsrc', Option.bind_eq_bind]
  rcases hold.grosslen hsize with ⟨rfl, n, hgross, hn⟩ | ⟨p, rfl, hgross, hn, hp⟩
  · simp only [hgross, hn, Option.bind_some, if_false]
    by_cases hlong : d.length + 1 > buf.length
    · obtain ⟨q, h', mem', hdyn, hc, hat, hmem⟩ := dynvaSetdata_spec (r := none) hb
        (fun _ heq => absurd heq (Option.some_ne_none _).symm) hrest hd
      simp only [if_pos hlong, hdyn, Option.bind_some]
      exact leaves_onHeap hsize hc hat hmem (by omega)
    · simp only [if_neg hlong]
      exact leaves_inBuffer hb (hset hlong) (by rw [hshort hlong]; exact hlong) (by omega)
  · obtain ⟨mem, hat, -⟩ := hold.block
    simp only [hgross, hn, hp, Option.bind_some, if_true]
    by_cases hlong : d.length + 1 > buf.length
    · obtain ⟨q, h', mem', hdyn, hc, hat', hmem⟩ := dynvaSetdata_spec (r := some p) hb
        (fun p' hp' => by rw [← Option.some_inj.mp hp', hat]; rfl) hrest hd
      simp only [if_pos hlong, hdyn, Option.bind_some]
      exact leaves_onHeap hsize hc hat' hmem (by omega)
    · simp only [if_neg hlong]
      exact leaves_freed hat (hset hlong) (by rw [hshort hlong]; exact hlong) (by omega)

theorem store_zero (hsize : BufSize buf) :
    ∃ buf', store buf 0 [.byte 0] = some buf' ∧ HasVa buf' [] ∧ buf'.length = buf.length := by
  have hmin : 16 ≤ buf.length := hsize.minimum
  obtain ⟨x, y, rfl, hx⟩ := exists_append buf (show 1 ≤ buf.length by omega)
  refine ⟨_, store_start (d := [.byte 0]) hx.symm, ⟨y, rfl⟩, ?_⟩
  rw [List.length_append, List.length_append, hx]
  rfl

theorem bufvaInit_holds (hsize : BufSize buf) (h : Heap) :
    ∃ buf', bufvaInit buf = some buf' ∧ buf'.length = buf.length ∧ BufHolds h [] buf' none := by
  have hmin : 16 ≤ buf.length := hsize.minimum
  obtain ⟨buf', hstore, hva, hlen⟩ := store_zero hsize
  refine ⟨buf', hstore, hlen, .inBuffer ?_ hva⟩
  rw [hlen, List.length_nil]
  omega

theorem bufvaFree_spec (hsize : BufSize buf) (hb : h.Bounded) (hold : BufHolds h v buf r) :
    ∃ h', bufvaFree buf buf.length h = some h' ∧ h.Changes h' r none := by
  rw [bufvaFree]
  rcases hold.grosslen hsize with ⟨rfl, n, hgross, hn⟩ | ⟨p, rfl, hgross, hn, hp⟩
  · refine ⟨h, ?_, .refl nofun hb⟩
    simp only [hgross, hn, Option.bind_eq_bind, Option.bind_some, if_false]
  · obtain ⟨mem, hat, -⟩ := hold.block
    obtain ⟨h', hfree, hc⟩ := Heap.free_changes hat
    refine ⟨h', ?_, hc⟩
    simp only [hgross, hn, hp, hfree, Option.bind_eq_bind, Option.bind_some, if_true]

theorem bufvaDone_leaves (hsize : BufSize buf) (hb : h.Bounded) (hold : BufHolds h v buf r) :
    ∃ buf' h', bufvaDone buf buf.length h = some (buf', h') ∧ buf'.length = buf.length ∧
      BufHolds h' [] buf' none ∧ h.Changes h' r none := by
  obtain ⟨h', hfree, hc⟩ := bufvaFree_spec hsize hb hold
  obtain ⟨buf', hinit, hlen, hholds⟩ := bufvaInit_holds hsize h'
  rw [bufvaInit] at hinit
  refine ⟨buf', h', ?_, hlen, hholds, hc⟩
  simp only [bufvaDone, hfree, hinit, Option.bind_eq_bind, Option.bind_some]

/-- `bufva_getva` finds the v-attribute. -/
theorem bufvaGetva_spec (hsize : BufSize buf) (hold : BufHolds h v buf r) :
    ∃ mem, bufvaGetva buf buf.length h = some mem ∧ HasVa mem v := by
  rw [bufvaGetva]
  rcases hold.grosslen hsize with ⟨rfl, n, hgross, hn⟩ | ⟨p, rfl, hgross, hn, hp⟩
  · simp only [hgross, hn, Option.bind_eq_bind, Option.bind_some, if_false]
    cases hold with
    | inBuffer _ hva => exact ⟨buf, rfl, hva⟩
  · obtain ⟨mem, hat, hva⟩ := hold.block
    simp only [hgross, hn, hp, hat, Option.bind_eq_bind, Option.bind_some, if_true]
    exact ⟨mem, rfl, hva⟩

/-! ## Appending -/

def Appends (app : List Cell → ℕ → Option (List Cell)) (tail : List UInt8) : Prop :=
  ∀ a b : List Cell, tail.length ≤ b.length →
    app (a ++ b) a.length = some (a ++ bytes tail ++ b.drop tail.length)

theorem encVa_append_data (v tail : List UInt8) :
    bytes (encVa (v ++ tail)) = bytes (vaSetLen (v.length + tail.length)) ++ bytes v ++
      bytes tail := by
  rw [encVa, List.length_append, bytes_append, bytes_append, List.append_assoc]

/-- What is appended behind the length and the old data makes the new v-attribute. -/
theorem Appends.hasVa {app : List Cell → ℕ → Option (List Cell)} (happ : Appends app tail)
    (hroom : tail.length ≤ b.length) :
    ∃ mem', app (bytes (vaSetLen (v.length + tail.length)) ++ bytes v ++ b)
        (vaLenLen (v.length + tail.length) + v.length) = some mem' ∧ HasVa mem' (v ++ tail) := by
  have hrun := happ (bytes (vaSetLen (v.length + tail.length)) ++ bytes v) b hroom
  rw [List.length_append, length_bytes, length_bytes, length_vaSetLen] at hrun
  exact ⟨_, hrun, ⟨b.drop tail.length, by rw [encVa_append_data]⟩⟩

/-- The length of a v-attribute is changed for more data, and the old data is moved to make room
for a longer format. -/
theorem vaGrow_spec {m : ℕ} (hle : v.length ≤ m)
    (hroom : vaLenLen m + m = (encVa v).length + b.length) :
    ∃ rest, vaGrow (bytes (encVa v) ++ b) v.length m =
        some (bytes (vaSetLen m) ++ bytes v ++ rest) ∧ rest.length = m - v.length := by
  have hmono := vaLenLen_mono hle
  rw [length_encVa] at hroom
  rw [vaGrow]
  simp only [Option.bind_eq_bind]
  split
  next hlonger =>
    -- the data goes from the offset of the short format to that of the long one
    obtain ⟨x, y, hxy, hx⟩ := exists_append (bytes (encVa v) ++ b)
      (show vaLenLen m ≤ _ by
        rw [List.length_append, length_bytes, length_encVa]
        omega)
    have hlen := congrArg List.length hxy
    simp only [List.length_append, length_bytes, length_encVa] at hlen
    have hload : load (bytes (encVa v) ++ b) (vaLenLen v.length) v.length = some (bytes v) := by
      have hmiddle := load_middle (a := bytes (vaSetLen v.length)) (b := bytes v) (c := b)
      rw [length_bytes, length_bytes, length_vaSetLen, ← bytes_append] at hmiddle
      exact hmiddle
    have hstore := store_drop (b := y) hx (length_bytes (l := v)) (by omega)
    rw [← hxy] at hstore
    generalize ht : y.drop v.length = t at hstore
    have hlent := congrArg List.length ht
    rw [List.length_drop] at hlent
    have hset := vaSetdata_none (a := []) (b := x ++ bytes v ++ t) (n := m) rfl (by
      rw [List.length_append, List.length_append, hx]
      omega)
    have hdrop : (x ++ bytes v ++ t).drop (vaLenLen m) = bytes v ++ t := by
      rw [← hx, List.append_assoc, List.drop_left]
    rw [hdrop, List.nil_append, List.nil_append, List.length_nil] at hset
    refine ⟨t, ?_, by omega⟩
    rw [memmove, hload, Option.bind_some, hstore, Option.bind_some, hset, List.append_assoc]
  next hsame =>
    have heq : vaLenLen v.length = vaLenLen m := by omega
    have hset := vaSetdata_none (a := []) (b := bytes (encVa v) ++ b) (n := m) rfl (by
      rw [List.length_append, length_bytes, length_encVa]
      omega)
    have hdrop : (bytes (encVa v) ++ b).drop (vaLenLen m) = bytes v ++ b := by
      rw [encVa, bytes_append, List.append_assoc, ← heq, ← length_vaSetLen, ← length_bytes,
        List.drop_left]
    rw [hdrop, List.nil_append, List.nil_append, List.length_nil] at hset
    refine ⟨b, ?_, by omega⟩
    rw [Option.bind_some, hset, List.append_assoc]

/-- A new block gets the length, the old data from the buffer, and what is appended. -/
theorem appends_newBlock {app : List Cell → ℕ → Option (List Cell)} (happ : Appends app tail)
    (hsrc : src = bytes v ++ c) {u : List Cell}
    (hu : u.length = v.length + tail.length + vaLenLen (v.length + tail.length)) :
    ∃ mem', ((vaSetdata u 0 none (v.length + tail.length)).bind fun mem =>
        (memcpy mem (vaLenLen (v.length + tail.length)) src v.length).bind fun mem =>
          app mem (vaLenLen (v.length + tail.length) + v.length)) = some mem' ∧
      HasVa mem' (v ++ tail) := by
  have hset := vaSetdata_none (a := []) (b := u) (n := v.length + tail.length) rfl (by omega)
  have hcopy := memcpy_bytes (a := bytes (vaSetLen (v.length + tail.length)))
    (b := u.drop (vaLenLen (v.length + tail.length))) hsrc rfl (by
      rw [List.length_drop]
      omega)
  rw [length_bytes, length_vaSetLen] at hcopy
  obtain ⟨mem', hrun, hmem⟩ := happ.hasVa (v := v)
    (b := (u.drop (vaLenLen (v.length + tail.length))).drop v.length) (by
      rw [List.length_drop, List.length_drop]
      omega)
  refine ⟨mem', ?_, hmem⟩
  rw [List.nil_append, List.nil_append, List.length_nil] at hset
  rw [hset, Option.bind_some, hcopy, Option.bind_some, hrun]

/-- A block of the new size gets what is appended behind the data that it has. -/
theorem appends_block {app : List Cell → ℕ → Option (List Cell)} (happ : Appends app tail)
    (hva : HasVa mem v) (hn : n = vaLenLen (v.length + tail.length) + (v.length + tail.length)) :
    ∃ mem', ((vaGrow (mem.take n ++ List.replicate (n - mem.length) .undef) v.length
        (v.length + tail.length)).bind fun mem =>
          app mem (vaLenLen (v.length + tail.length) + v.length)) = some mem' ∧
      HasVa mem' (v ++ tail) := by
  have hmono := vaLenLen_mono (Nat.le_add_right v.length tail.length)
  obtain ⟨rest, rfl⟩ := hva
  generalize hundef : List.replicate (n - (bytes (encVa v) ++ rest).length) Cell.undef = u
  have hu := congrArg List.length hundef
  rw [List.length_replicate, List.length_append, length_bytes, length_encVa] at hu
  have htake : (bytes (encVa v) ++ rest).take n =
      bytes (encVa v) ++ rest.take (n - (bytes (encVa v)).length) := by
    rw [List.take_append, List.take_of_length_le]
    rw [length_bytes, length_encVa]
    omega
  obtain ⟨rest', hgrow, hrest'⟩ := vaGrow_spec (v := v) (m := v.length + tail.length)
    (b := rest.take (n - (bytes (encVa v)).length) ++ u) (Nat.le_add_right ..) (by
      rw [List.length_append, List.length_take, length_bytes, length_encVa]
      omega)
  obtain ⟨mem', hrun, hmem⟩ := happ.hasVa (v := v) (b := rest') (by omega)
  refine ⟨mem', ?_, hmem⟩
  rw [htake, List.append_assoc, hgrow, Option.bind_some, hrun]

/-- What is appended in the buffer, with the new length in its first byte. -/
theorem appends_buffer {app : List Cell → ℕ → Option (List Cell)} (happ : Appends app tail)
    (hva : HasVa buf v) (hlong : ¬ buf.length ≤ v.length + tail.length)
    (hmax : buf.length ≤ 253) :
    ∃ mem buf', app buf (1 + v.length) = some mem ∧
      store mem 0 [.byte (UInt8.ofNat (v.length + tail.length))] = some buf' ∧
      HasVa buf' (v ++ tail) ∧ buf'.length = buf.length := by
  obtain ⟨rest, hrest⟩ := hva
  have hcells : buf = bytes [UInt8.ofNat v.length] ++ bytes v ++ rest := by
    rw [hrest, encVa, vaSetLen, if_pos ((byteLenTest_iff _).mpr (by omega)), bytes_append]
  have hlenbuf := congrArg List.length hcells
  simp only [List.length_append, length_bytes, List.length_singleton] at hlenbuf
  have hrun := happ (bytes [UInt8.ofNat v.length] ++ bytes v) rest (by omega)
  rw [← hcells, List.length_append, length_bytes, length_bytes, List.length_singleton] at hrun
  have hshort : byteLenTest (v ++ tail).length = true :=
    (byteLenTest_iff _).mpr (by rw [List.length_append]; omega)
  have hstore := store_start (b := bytes [UInt8.ofNat v.length])
    (c := bytes v ++ bytes tail ++ rest.drop tail.length)
    (d := [Cell.byte (UInt8.ofNat (v.length + tail.length))]) rfl
  simp only [← List.append_assoc] at hstore
  have hnew : bytes (encVa (v ++ tail)) =
      [Cell.byte (UInt8.ofNat (v.length + tail.length))] ++ bytes v ++ bytes tail := by
    rw [encVa, vaSetLen, if_pos hshort, List.length_append, bytes_append, bytes_append,
      List.append_assoc]
    rfl
  rw [← hnew] at hstore
  refine ⟨_, _, hrun, hstore, ⟨_, rfl⟩, ?_⟩
  rw [hnew]
  simp only [List.length_append, length_bytes, List.length_singleton, List.length_drop]
  omega

theorem bufvaApp_leaves (hsize : BufSize buf) (hb : h.Bounded) (hold : BufHolds h v buf r)
    {app : List Cell → ℕ → Option (List Cell)} (happ : Appends app tail)
    (hlt : v.length + tail.length < 2 ^ 32) :
    Leaves h buf r (v ++ tail) (r.isSome ∨ buf.length ≤ v.length + tail.length)
      (bufvaApp buf buf.length tail.length app h) := by
  have hmax : buf.length ≤ 253 := hsize.maximum
  rw [bufvaApp]
  simp only [Option.bind_eq_bind]
  rcases hold.first hsize with ⟨rfl, hlen, hfits⟩ | ⟨p, rfl, hlen, hp⟩
  · cases hold with
    | inBuffer _ hva =>
        simp only [hlen, Option.bind_some, ge_iff_le, if_neg (not_le.mpr hfits),
          Nat.add_comm tail.length v.length]
        by_cases hlong : buf.length ≤ v.length + tail.length
        · obtain ⟨rest, hrest⟩ := hva
          have hdata : buf.drop 1 = bytes v ++ rest := by
            rw [hrest, encVa, vaSetLen, if_pos ((byteLenTest_iff _).mpr (by omega))]
            rfl
          obtain ⟨h', mem', hmod, hc, hat, hmem⟩ := alloc_modify hb
            (f := fun mem => (vaSetdata mem 0 none (v.length + tail.length)).bind fun mem =>
              (memcpy mem (vaLenLen (v.length + tail.length)) (buf.drop 1) v.length).bind fun mem =>
                app mem (vaLenLen (v.length + tail.length) + v.length))
            (appends_newBlock happ hdata List.length_replicate)
          simp only [if_pos hlong, hmod, Option.bind_some]
          exact leaves_onHeap hsize hc hat hmem (Or.inr hlong)
        · obtain ⟨mem, buf', hrun, hstore, hmem, hlength⟩ := appends_buffer happ hva hlong hmax
          simp only [if_neg hlong, hrun, hstore, Option.bind_some]
          refine leaves_inBuffer hb ⟨buf', rfl, hmem, hlength⟩ ?_
            (not_or.mpr ⟨Bool.false_ne_true, hlong⟩)
          rwa [encVa_gt_iff hsize, List.length_append]
  · obtain ⟨mem, hat, hva⟩ := hold.block
    have hnet : (h.blocks p).bind vaNetlen = some v.length := by
      rw [hat, Option.bind_some, hva.vaNetlen (by omega)]
    obtain ⟨q, h₁, h', mem', hre, hmod, hc, hat', hmem⟩ := realloc_modify hb hat
      (f := fun mem => (vaGrow mem v.length (v.length + tail.length)).bind fun mem =>
        app mem (vaLenLen (v.length + tail.length) + v.length)) (appends_block happ hva rfl)
    simp only [hlen, Option.bind_some, ge_iff_le, if_pos hmax, hp, hnet,
      Nat.add_comm tail.length v.length, hre, hmod]
    exact leaves_onHeap hsize hc hat' hmem (Or.inl rfl)

theorem appends_memcpy (hsrc : src = bytes d ++ c) :
    Appends (fun mem off => memcpy mem off src d.length) d :=
  fun _ _ hroom => memcpy_bytes hsrc rfl hroom

theorem bufvaAppdata_leaves (hsize : BufSize buf) (hb : h.Bounded) (hold : BufHolds h v buf r)
    (hsrc : src = bytes d ++ c) (hlt : v.length + d.length < 2 ^ 32) :
    Leaves h buf r (v ++ d) (r.isSome ∨ buf.length ≤ v.length + d.length)
      (bufvaAppdata buf buf.length src d.length h) :=
  bufvaApp_leaves hsize hb hold (appends_memcpy hsrc) hlt

theorem drop_hasVa (hva : HasVa va w) : ∃ rest, va.drop (vaLenLen w.length) = bytes w ++ rest := by
  obtain ⟨rest, rfl⟩ := hva
  refine ⟨rest, ?_⟩
  rw [encVa, bytes_append, List.append_assoc, ← length_vaSetLen, ← length_bytes, List.drop_left]

theorem bufvaAppva_leaves (hsize : BufSize buf) (hb : h.Bounded) (hold : BufHolds h v buf r)
    (hva : HasVa va w) (hlt : v.length + w.length < 2 ^ 32) :
    Leaves h buf r (v ++ w) (r.isSome ∨ buf.length ≤ v.length + w.length)
      (bufvaAppva buf buf.length va h) := by
  obtain ⟨rest, hrest⟩ := drop_hasVa hva
  rw [bufvaAppva]
  simp only [hva.vaGetdata (by omega), Option.bind_eq_bind, Option.bind_some]
  exact bufvaAppdata_leaves hsize hb hold hrest hlt

theorem bufvtplAppva_leaves (hsize : BufSize buf) (hb : h.Bounded) (hold : BufHolds h v buf r)
    (hva : HasVa va w) (hlt : v.length + (encVa w).length < 2 ^ 32) :
    Leaves h buf r (v ++ encVa w) (r.isSome ∨ buf.length ≤ v.length + (encVa w).length)
      (bufvtplAppva buf buf.length va h) := by
  rw [bufvtplAppva]
  simp only [hva.vaGrosslen (by omega), Option.bind_eq_bind, Option.bind_some]
  obtain ⟨rest, hrest⟩ := hva
  exact bufvaApp_leaves hsize hb hold (appends_memcpy hrest) hlt

theorem bufvtplAppdataAsVa_leaves (hsize : BufSize buf) (hb : h.Bounded)
    (hold : BufHolds h v buf r) (hsrc : src = bytes d ++ c)
    (hlt : v.length + (encVa d).length < 2 ^ 32) :
    Leaves h buf r (v ++ encVa d) (r.isSome ∨ buf.length ≤ v.length + (encVa d).length)
      (bufvtplAppdataAsVa buf buf.length src d.length h) := by
  have happ : Appends (fun mem off => vaSetdata mem off (some src) d.length) (encVa d) :=
    fun _ _ hroom => vaSetdata_bytes hsrc rfl hroom
  have hlen : d.length + (if byteLenTest d.length = true then 1 else 5) = (encVa d).length := by
    rw [length_encVa, vaLenLen, Nat.add_comm]
  rw [bufvtplAppdataAsVa, hlen]
  exact bufvaApp_leaves hsize hb hold happ hlt

/-! ## Appending with an increment -/

theorem BufHolds.frame {h' : Heap} (hold : BufHolds h v buf r)
    (hsame : ∀ p, r = some p → h'.blocks p = h.blocks p) : BufHolds h' v buf r := by
  cases hold with
  | inBuffer hfits hva => exact .inBuffer hfits hva
  | onHeap ha hfirst hbuf hp hva =>
      exact .onHeap ha hfirst hbuf ((hsame _ rfl).trans hp) hva

theorem encVa_incremented (w : List UInt8) :
    encVa (w ++ [0]) = vaSetLen (w.length + 1) ++ w ++ [0] := by
  rw [encVa, List.length_append, List.append_assoc]
  rfl

theorem length_encVa_incremented (w : List UInt8) :
    (encVa (w ++ [0])).length = vaLenLen (w.length + 1) + (w.length + 1) := by
  rw [length_encVa, List.length_append]
  rfl

/-- The v-attribute with the new length and a zero byte at its end is appended. -/
theorem appends_incremented {dynva : List Cell}
    (hdynva : dynva = bytes (vaSetLen (w.length + 1) ++ w) ++ c) :
    Appends (appIncremented dynva (encVa (w ++ [0])).length) (encVa (w ++ [0])) := by
  intro a b hroom
  have hlen : (encVa (w ++ [0])).length - 1 = (vaSetLen (w.length + 1) ++ w).length := by
    rw [encVa_incremented, List.length_append]
    rfl
  have hwhole : (encVa (w ++ [0])).length = (vaSetLen (w.length + 1) ++ w).length + 1 := by
    rw [encVa_incremented, List.length_append]
    rfl
  rw [hwhole] at hroom
  have hcopy := memcpy_bytes (b := b) hdynva (rfl : a.length = a.length) (by omega)
  have hend : (a ++ bytes (vaSetLen (w.length + 1) ++ w)).length =
      a.length + (vaSetLen (w.length + 1) ++ w).length := by
    rw [List.length_append, length_bytes]
  have hstore := store_drop (b := b.drop (vaSetLen (w.length + 1) ++ w).length)
    (d := [.byte 0]) (n := 1) hend rfl (by rw [List.length_drop]; omega)
  rw [appIncremented, hlen]
  simp only [hcopy, hstore, Option.bind_eq_bind, Option.bind_some]
  rw [hwhole, encVa_incremented, List.drop_drop]
  simp only [bytes_append, List.append_assoc]
  rfl

/-- The copy of the v-attribute that is made where the format of its length changes. -/
theorem dynvaSetdataandnull_spec (hb : h.Bounded) (hsrc : src = bytes w ++ c)
    (hw : vaLenLen (w.length + 1) + (w.length + 1) < 2 ^ 32) (hmax : w.length + 1 ≤ vaMaxindex) :
    ∃ p h' mem', dynvaSetdataandnull none src w.length h = some (p, h') ∧
      h.Changes h' none (some p) ∧ h'.blocks p = some mem' ∧ HasVa mem' (w ++ [0]) := by
  have hset (u : List Cell)
      (hu : u.length = max dynvaMinlen (vaLenLen (w.length + 1) + (w.length + 1))) :
      ∃ mem', ((store u 0 (bytes (vaSetLen (w.length + 1)))).bind fun mem =>
        (memcpy mem (vaLenLen (w.length + 1)) src w.length).bind fun mem =>
          store mem (vaLenLen (w.length + 1) + w.length) [.byte 0]) = some mem' ∧
        HasVa mem' (w ++ [0]) := by
    have hge : vaLenLen (w.length + 1) + (w.length + 1) ≤ u.length := by
      rw [hu]
      exact le_max_right _ _
    have hlength := store_drop (a := []) (b := u) (d := bytes (vaSetLen (w.length + 1))) rfl
      (by rw [length_bytes, length_vaSetLen]) (show vaLenLen (w.length + 1) ≤ _ by omega)
    have hcopy := memcpy_bytes (a := bytes (vaSetLen (w.length + 1)))
      (b := u.drop (vaLenLen (w.length + 1))) hsrc (by rw [length_bytes, length_vaSetLen])
      (by rw [List.length_drop]; omega)
    have hzero := store_drop (a := bytes (vaSetLen (w.length + 1)) ++ bytes w)
      (b := (u.drop (vaLenLen (w.length + 1))).drop w.length) (d := [.byte 0]) (n := 1)
      (by rw [List.length_append, length_bytes, length_bytes, length_vaSetLen]) rfl
      (by rw [List.length_drop, List.length_drop]; omega)
    refine ⟨bytes (vaSetLen (w.length + 1)) ++ bytes w ++ [.byte 0] ++
      ((u.drop (vaLenLen (w.length + 1))).drop w.length).drop 1, ?_, ?_⟩
    · rw [List.nil_append, List.nil_append, List.length_nil] at hlength
      rw [hlength, Option.bind_some, hcopy, Option.bind_some, hzero]
    · refine ⟨((u.drop (vaLenLen (w.length + 1))).drop w.length).drop 1, ?_⟩
      rw [encVa_incremented, bytes_append, bytes_append]
      rfl
  have hnet : vaIndex (w.length + 1) = w.length + 1 := vaIndex_of_lt (by omega)
  rw [dynvaSetdataandnull]
  simp only [hnet, vaIndex_of_lt hw, if_pos hmax]
  obtain ⟨h', mem', hmod, hc, hat, hmem⟩ := alloc_modify hb
    (f := fun mem => (store mem 0 (bytes (vaSetLen (w.length + 1)))).bind fun mem =>
      (memcpy mem (vaLenLen (w.length + 1)) src w.length).bind fun mem =>
        store mem (vaLenLen (w.length + 1) + w.length) [.byte 0])
    (hset (.replicate _ .undef) List.length_replicate)
  refine ⟨_, h', mem', ?_, hc, hat, hmem⟩
  simp only [dynvaAlloc, Option.bind_eq_bind, Option.bind_some]
  rw [hmod]
  rfl

/-- `bufvtpl_appvawithincrement` appends the v-attribute with a zero byte behind its data, and
gives the v-attribute back as it was. -/
theorem bufvtplAppvawithincrement_leaves (hsize : BufSize buf) (hb : h.Bounded)
    (hold : BufHolds h v buf r) (hallocated : ∀ p, r = some p → (h.blocks p).isSome)
    (hva : HasVa va w) (hlt : v.length + (encVa (w ++ [0])).length < 2 ^ 32) :
    ∃ buf' h' r', bufvtplAppvawithincrement buf buf.length va h = some (buf', va, h') ∧
      buf'.length = buf.length ∧ BufHolds h' (v ++ encVa (w ++ [0])) buf' r' ∧
      h.Changes h' r r' ∧
      (r'.isSome ↔ r.isSome ∨ buf.length ≤ v.length + (encVa (w ++ [0])).length) := by
  rw [length_encVa_incremented] at hlt
  have hlong := vaLenLen_pos (w.length + 1)
  have hlenlen : vaLenLen (w.length + 1) + (w.length + 1) < 2 ^ 32 := by omega
  rw [bufvtplAppvawithincrement]
  simp only [hva.vaGetdata (by omega), Option.bind_eq_bind, Option.bind_some]
  by_cases hformat : (byteLenTest w.length && !byteLenTest (w.length + 1)) = true
  · obtain ⟨rest, hrest⟩ := drop_hasVa hva
    have hshort := (byteLenTest_iff _).mp (Bool.and_eq_true_iff.mp hformat).1
    obtain ⟨p, h₁, dynva, hdyn, hnew, hat, hmem⟩ := dynvaSetdataandnull_spec hb hrest hlenlen (by
      have hmax : vaMaxindex = 2 ^ 32 - 5 := rfl
      omega)
    have hr : r ≠ some p := fun heq => by
      have hsome := hallocated p heq
      rw [hnew.unused p rfl nofun] at hsome
      cases hsome
    have hold₁ : BufHolds h₁ v buf r := hold.frame fun q hq =>
      hnew.other q nofun fun heq => hr (by rw [hq, heq])
    have hgross := hmem.vaGrosslen (by
      rw [length_encVa_incremented]
      exact hlenlen)
    obtain ⟨rest', hrest'⟩ := hmem
    have hcells : dynva = bytes (vaSetLen (w.length + 1) ++ w) ++ ([.byte 0] ++ rest') := by
      rw [hrest', encVa_incremented, bytes_append, ← List.append_assoc]
      rfl
    obtain ⟨buf', h₂, r', hrun, hlen, hholds, hc, hblock⟩ :=
      bufvaApp_leaves hsize (hnew.bounded hb) hold₁
        (appends_incremented hcells) (by
          rw [length_encVa_incremented]
          exact hlt)
    have hkept : h₂.blocks p = some dynva := by
      rw [hc.other p hr fun heq => ?_, hat]
      have hnone := hc.unused p heq hr
      rw [hat] at hnone
      cases hnone
    obtain ⟨h₃, hfree, hgone⟩ := Heap.free_changes hkept
    obtain ⟨hchanges, hr'⟩ := hnew.temporary hc hgone hr
    refine ⟨buf', h₃, r', ?_, hlen,
      hholds.frame fun q hq => hgone.other q (fun heq => hr' ?_) nofun, hchanges, hblock⟩
    · simp only [hformat, if_true, hdyn, hat, hgross, hrun, hfree, Option.bind_some]
    · rw [hq, heq]
  · have hsame : vaLenLen (w.length + 1) = vaLenLen w.length := by
      simp only [vaLenLen]
      rw [Bool.and_eq_true, Bool.not_eq_true'] at hformat
      cases hw : byteLenTest w.length with
      | true =>
          have hw' : byteLenTest (w.length + 1) = true := by
            by_contra hne
            exact hformat ⟨hw, Bool.eq_false_of_not_eq_true hne⟩
          rw [hw']
      | false =>
          have hw' : byteLenTest (w.length + 1) = false := by
            rw [← Bool.not_eq_true, byteLenTest_iff] at hw ⊢
            omega
          rw [hw']
    obtain ⟨rest, rfl⟩ := hva
    have hset (m n : ℕ) (hmn : vaLenLen m = vaLenLen n) :
        vaSetdata (bytes (vaSetLen m) ++ (bytes w ++ rest)) 0 none n =
          some (bytes (vaSetLen n) ++ (bytes w ++ rest)) := by
      have hrun := vaSetdata_none (a := []) (b := bytes (vaSetLen m) ++ (bytes w ++ rest)) (n := n)
        rfl (by
          rw [List.length_append, length_bytes, length_vaSetLen]
          omega)
      rw [← hmn, ← length_vaSetLen m, ← length_bytes, List.drop_left] at hrun
      exact hrun
    have hgross := vaGrosslen_vaSetLen (n := w.length + 1) hlenlen (bytes w ++ rest)
    rw [← length_encVa_incremented] at hgross
    obtain ⟨buf', h', r', hrun, hlen, hholds, hc, hblock⟩ := bufvaApp_leaves hsize hb hold
      (appends_incremented (w := w) (c := rest) rfl) (by
        rw [length_encVa_incremented]
        exact hlt)
    refine ⟨buf', h', r', ?_, hlen, hholds, hc, hblock⟩
    have hcells : bytes (encVa w) ++ rest = bytes (vaSetLen w.length) ++ (bytes w ++ rest) := by
      rw [encVa, bytes_append, List.append_assoc]
    rw [bytes_append, List.append_assoc] at hrun
    simp only [hformat, Bool.false_eq_true, if_false, hcells, hset _ _ hsame.symm,
      Option.bind_some, hgross, hrun, hset _ _ hsame]

/-! ## Moving -/

/-- A v-attribute that a buffer holds itself has the short format. -/
theorem BufHolds.length_encVa (hold : BufHolds h w src none) (hsize : BufSize src) :
    HasVa src w ∧ bufva1bytegrosslen src = some (encVa w).length ∧
      (encVa w).length = w.length + 1 ∧ w.length < src.length := by
  have hmax : src.length ≤ 253 := hsize.maximum
  cases hold with
  | inBuffer hfits hva =>
      have hlen : (encVa w).length = w.length + 1 := by
        rw [SolidDB.length_encVa, vaLenLen, if_pos ((byteLenTest_iff _).mpr (by omega)),
          Nat.add_comm]
      refine ⟨hva, ?_, hlen, hfits⟩
      rcases (BufHolds.inBuffer hfits hva : BufHolds h w src none).first hsize with
        ⟨-, hfirst, -⟩ | ⟨p, hp, -⟩
      · rw [bufva1bytegrosslen, hfirst, Option.map_some, hlen]
      · cases hp

/-- The destination has a block that is freed, and would need it for the data of the source. -/
def MoveFails (destsize : ℕ) (r : Option ℕ) (w : List UInt8) (r' : Option ℕ) : Prop :=
  r.isSome ∧ r' = none ∧ destsize ≤ w.length

/-- `bufva_move` gives the destination the data and the block of the source, if the destination
does not need the block that is freed. -/
theorem bufvaMove_leaves {dest : List Cell} {r' : Option ℕ} (hsize : BufSize dest)
    (hsize' : BufSize src) (hb : h.Bounded) (hold : BufHolds h v dest r)
    (hold' : BufHolds h w src r') (hother : ∀ p, r = some p → r' ≠ some p)
    (hfine : ¬ MoveFails dest.length r w r') :
    ∃ dest' src' h' rd, bufvaMove dest dest.length src src.length h = some (dest', src', h') ∧
      dest'.length = dest.length ∧ src'.length = src.length ∧ BufHolds h' w dest' rd ∧
      BufHolds h' [] src' none ∧
      ((r' = none ∧ h.Changes h' r rd) ∨ (rd = r' ∧ h.Changes h' r none)) ∧
      (rd.isSome ↔ r'.isSome ∨ dest.length ≤ w.length) := by
  obtain ⟨h₁, hfree, hc⟩ := bufvaFree_spec hsize hb hold
  rw [bufvaMove]
  simp only [hfree, Option.bind_eq_bind, Option.bind_some]
  cases r' with
  | some p =>
      have hold₁ := hold'.frame fun q hq => hc.other q (fun heq => hother q heq hq) nofun
      obtain ⟨mem, hat, hva⟩ := hold₁.block
      obtain ⟨dest', hset, hlen, hholds⟩ := bufvaSetDynamicVa_holds hsize hat hva
      obtain ⟨src', hinit, hlen', hholds'⟩ := bufvaInit_holds hsize' h₁
      rw [bufvaInit] at hinit
      rcases hold'.grosslen hsize' with ⟨hnone, -⟩ | ⟨q, hq, hgross, hn, hp⟩
      · cases hnone
      · obtain rfl : p = q := Option.some_inj.mp hq
        refine ⟨dest', src', h₁, some p, ?_, hlen, hlen', hholds, hholds', Or.inr ⟨rfl, hc⟩,
          iff_of_true rfl (Or.inl rfl)⟩
        simp only [hgross, Option.bind_some, if_pos hn, hp, hset, hinit]
  | none =>
      obtain ⟨hva, hgross, hshort, hfits⟩ := hold'.length_encVa hsize'
      have hn : ¬ (encVa w).length > src.length := by omega
      -- the source is cleared in any heap
      have hclear (h' : Heap) : ∃ src', store src 0 [.byte 0] = some src' ∧
          src'.length = src.length ∧ BufHolds h' [] src' none := bufvaInit_holds hsize' h'
      by_cases hlong : (encVa w).length > dest.length
      · have hr : r = none := by
          cases r with
          | none => rfl
          | some p => exact absurd ⟨rfl, rfl, by omega⟩ hfine
        subst hr
        have hold₁ : BufHolds h₁ v dest none := hold.frame nofun
        have hsrc : HasVa ((some src).getD vaNull) w := hva
        obtain ⟨dest', h', rd, hset, hlen, hholds, hc', hblock⟩ :=
          bufvaSetva_leaves hsize (hc.bounded hb) hold₁ hsrc (by
            have hmax : src.length ≤ 253 := hsize'.maximum
            omega)
        obtain ⟨src', hinit, hlen', hholds'⟩ := hclear h'
        refine ⟨dest', src', h', rd, ?_, hlen, hlen', hholds, hholds',
          Or.inl ⟨rfl, hc.trans hc'⟩, hblock.trans (or_iff_right nofun).symm⟩
        simp only [hgross, Option.bind_some, if_neg hn, if_pos hlong, hset, hinit]
      · obtain ⟨dest', hcopy, hmem, hlen⟩ :=
          memcpy_va hva (show (encVa w).length ≤ dest.length by omega)
        obtain ⟨src', hinit, hlen', hholds'⟩ := hclear h₁
        refine ⟨dest', src', h₁, none, ?_, hlen, hlen', inBuffer_of_va hmem (by omega), hholds',
          Or.inl ⟨rfl, hc⟩, iff_of_false nofun (not_or.mpr ⟨nofun, by omega⟩)⟩
        simp only [hgross, Option.bind_some, if_neg hn, if_neg hlong, hcopy, hinit]

/-- Otherwise `bufva_move` reallocates the block that it has freed. -/
theorem bufvaMove_freed {dest : List Cell} {r' : Option ℕ} (hsize : BufSize dest)
    (hsize' : BufSize src) (hb : h.Bounded) (hold : BufHolds h v dest r)
    (hold' : BufHolds h w src r') (hfails : MoveFails dest.length r w r') :
    bufvaMove dest dest.length src src.length h = none := by
  obtain ⟨hsome, rfl, hlong⟩ := hfails
  obtain ⟨p, rfl⟩ := Option.isSome_iff_exists.mp hsome
  obtain ⟨h₁, hfree, hc⟩ := bufvaFree_spec hsize hb hold
  obtain ⟨hva, hgross, hshort, hfits⟩ := hold'.length_encVa hsize'
  have hmax : src.length ≤ 253 := hsize'.maximum
  have hn : ¬ (encVa w).length > src.length := by omega
  have hneeded : (encVa w).length > dest.length := by omega
  have hset : bufvaSetva dest dest.length (some src) h₁ = none := by
    rcases hold.grosslen hsize with ⟨hnone, -⟩ | ⟨q, hq, hgross', hn', hp⟩
    · cases hnone
    · obtain rfl : p = q := Option.some_inj.mp hq
      rw [bufvaSetva]
      simp only [Option.getD_some, hva.vaGrosslen (by omega), Option.bind_eq_bind,
        Option.bind_some, hgross', if_pos hn', hp, if_pos hneeded,
        Heap.realloc_none (hc.gone p rfl nofun), Option.bind_none]
  rw [bufvaMove]
  simp only [hfree, hgross, Option.bind_eq_bind, Option.bind_some, if_neg hn, if_pos hneeded,
    hset, Option.bind_none]

end SolidDB.Bufva
