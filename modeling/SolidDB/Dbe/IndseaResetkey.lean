import SolidDB.Dbe.Bkrs
import SolidDB.Dbe.Counter

/-!
# Reset keys

`indsea_reset` goes on behind the last returned key. The key with the next
transaction id is the immediate successor, since the ids in the gap that
`dbe_trxid_sum` skips are never used.
-/

namespace SolidDB

/-! ## The operations -/

def bkeyClustering : ℕ := 32
def bkeyBlob : ℕ := 64
def bkeyUpdate : ℕ := 128

def dbeTypeSkipgap (curval : ℕ) (direction : ℤ) : ℕ :=
  if dbeCtrMaxlimit - 1 ≤ (curval + (2 ^ 32 - 1)) % 2 ^ 32 then
    if direction < 0 then dbeCtrMaxlimit - 1 else 1
  else curval

def dbeTrxidSum (trxid : ℕ) (n : ℤ) : ℕ :=
  dbeTypeSkipgap ((trxid + n) % 2 ^ 32).toNat n

def dbeBkeyIstrxid (k : List UInt8) : Bool := bkeyGetinfo k &&& bkey2longused != 0

def dbeBkeyGettrxid (k : List UInt8) : ℕ := uint4Load (k.drop 7)

def dbeBkeySettrxid (k : List UInt8) (trxid : ℕ) : List UInt8 :=
  k.take 7 ++ uint4Store trxid ++ k.drop 11

/-- The info byte that `dbe_bkey_setbkey` leaves in `tk`. -/
def setbkeyInfo (tk sk : ℕ) : UInt8 :=
  UInt8.ofNat (tk &&& (255 ^^^ (bkeyBlob ||| bkeyClustering)) |||
    sk &&& (bkeyDeletemark ||| bkeyUpdate ||| bkeyBlob ||| bkeyClustering))

/-- `dbe_bkey_setbkey`: the v-tuple, the transaction id and some bits of the info byte
are taken from `sk`. -/
def dbeBkeySetbkey (tk sk : List UInt8) : List UInt8 :=
  let vtpl := bkeyGetvtplptr sk
  let k := setbkeyInfo (bkeyGetinfo tk) (bkeyGetinfo sk) :: uint2Store 0 ++
    (tk.drop 3).take (4 * nlongused (bkeyGetinfo tk)) ++ vtpl.take (vtplGrosslen vtpl)
  if dbeBkeyIstrxid tk && dbeBkeyIstrxid sk then dbeBkeySettrxid k (dbeBkeyGettrxid sk)
  else k

/-- The reset key of `indsea_reset` for the next key, where the last returned key is
neither a delete mark nor the begin of a value reset. -/
def indseaNextResetkey (lastRetKey : List UInt8) : List UInt8 :=
  let resetKey := dbeBkeySetbkey (dbeBkeyInit []) lastRetKey
  dbeBkeySettrxid resetKey (dbeTrxidSum (dbeBkeyGettrxid resetKey) 1)

/-! ## The header of a reset key -/

def Key.IsLeaf (k : Key) : Prop :=
  k.header.info.toNat &&& bkeyLeaf ≠ 0 ∧ nlongused k.header.info.toNat ≠ 1

instance (k : Key) : Decidable k.IsLeaf := inferInstanceAs (Decidable (_ ∧ _))

theorem setbkeyInfo_nlongused (i : UInt8) :
    nlongused (setbkeyInfo (bkeyLeaf + bkey2longused) i.toNat).toNat = 2 ∧
      (setbkeyInfo (bkeyLeaf + bkey2longused) i.toNat).toNat ≠ bkeyIllegalinfo ∧
      (setbkeyInfo (bkeyLeaf + bkey2longused) i.toNat).toNat &&& bkeyLeaf ≠ 0 ∧
      ((setbkeyInfo (bkeyLeaf + bkey2longused) i.toNat).toNat &&& bkeyDeletemark != 0) =
        (i.toNat &&& bkeyDeletemark != 0) := by
  have hall : ∀ n < 256,
      nlongused (setbkeyInfo (bkeyLeaf + bkey2longused) n).toNat = 2 ∧
        (setbkeyInfo (bkeyLeaf + bkey2longused) n).toNat ≠ bkeyIllegalinfo ∧
        (setbkeyInfo (bkeyLeaf + bkey2longused) n).toNat &&& bkeyLeaf ≠ 0 ∧
        ((setbkeyInfo (bkeyLeaf + bkey2longused) n).toNat &&& bkeyDeletemark != 0) =
          (n &&& bkeyDeletemark != 0) := by
    decide +kernel
  exact hall i.toNat i.toNat_lt

def resetHeader (h : BkeyHeader) (trxid : ℕ) : BkeyHeader where
  info := setbkeyInfo (bkeyLeaf + bkey2longused) h.info.toNat
  longs := uint4Store 0 ++ uint4Store trxid
  longs_length := by rw [(setbkeyInfo_nlongused h.info).1]; rfl
  info_ne := (setbkeyInfo_nlongused h.info).2.1
  nlong_ne := by rw [(setbkeyInfo_nlongused h.info).1]; decide
  index_nlong := fun hleaf => absurd hleaf (setbkeyInfo_nlongused h.info).2.2.1

theorem resetHeader_deletemark (h : BkeyHeader) (t : ℕ) :
    (resetHeader h t).deletemark = h.deletemark := (setbkeyInfo_nlongused h.info).2.2.2

theorem resetHeader_trxid (h : BkeyHeader) {t : ℕ} (ht : t < 2 ^ 32) :
    (resetHeader h t).trxid = t := by
  obtain ⟨hlong, -, hleaf, -⟩ := setbkeyInfo_nlongused h.info
  have hdrop : (resetHeader h t).longs.drop 4 = uint4Store t := rfl
  have hload := uint4Load_uint4Store ht []
  rw [List.append_nil] at hload
  have hinfo : (resetHeader h t).info = setbkeyInfo (bkeyLeaf + bkey2longused) h.info.toNat := rfl
  rw [BkeyHeader.trxid_eq, hinfo]
  rw [if_pos (by simpa using hleaf), hlong, hdrop]
  exact hload

/-- The key behind `k` with the next transaction id. -/
def Key.nextResetkey (k : Key) (h : 11 + (encVtpl k.vtpl).length < bkeyMaxlen) : Key where
  header := resetHeader k.header (dbeTrxidSum k.header.trxid 1)
  vtpl := k.vtpl
  vtpl_ne := k.vtpl_ne
  length_lt := h

/-- A leaf key with a transaction id has it behind the transaction number, and one
without has none. -/
theorem Key.IsLeaf.trxid {k : Key} (h : k.IsLeaf) :
    if dbeBkeyIstrxid k.bytes then dbeBkeyGettrxid k.bytes = k.header.trxid
    else k.header.trxid = 0 := by
  have hleaf : (k.header.info.toNat &&& bkeyLeaf != 0) = true := by simpa using h.1
  have hinfo : bkeyGetinfo k.bytes = k.header.info.toNat := rfl
  have hcases : ∀ n < 256, nlongused n ≠ 3 → nlongused n ≠ 1 →
      nlongused n = 0 ∧ n &&& bkey2longused = 0 ∨ nlongused n = 2 ∧ n &&& bkey2longused = 2 := by
    decide +kernel
  rw [dbeBkeyIstrxid, hinfo, BkeyHeader.trxid_eq, if_pos hleaf]
  rcases hcases _ k.header.info.toNat_lt k.header.nlong_ne h.2 with ⟨hn, h2⟩ | ⟨hn, h2⟩
  · rw [h2, if_neg (by decide), hn]
    rfl
  · rw [h2, if_pos (by decide), hn]
    have hlen : k.header.longs.length = 8 := by rw [k.header.longs_length, hn]
    have hdrop : k.bytes.drop 7 = k.header.longs.drop 4 ++ encVtpl k.vtpl := by
      have hshort : ((k.header.info :: uint2Store 0 ++ k.header.longs) ++
          encVtpl k.vtpl).drop 7 = (k.header.longs ++ encVtpl k.vtpl).drop 4 := rfl
      change ((k.header.info :: uint2Store 0 ++ k.header.longs) ++ encVtpl k.vtpl).drop 7 = _
      rw [hshort, List.drop_append_of_le_length (by rw [hlen]; decide)]
    rw [dbeBkeyGettrxid, hdrop]
    exact uint4Load_append (by rw [List.length_drop, hlen]) _

theorem dbeBkeyGettrxid_header (info : UInt8) (a : List UInt8) {t : ℕ} (ht : t < 2 ^ 32)
    (ha : a.length = 4) (e : List UInt8) :
    dbeBkeyGettrxid (info :: uint2Store 0 ++ (a ++ uint4Store t) ++ e) = t := by
  have hdrop : (info :: uint2Store 0 ++ (a ++ uint4Store t) ++ e).drop 7 =
      uint4Store t ++ e := by
    have hshort : (info :: uint2Store 0 ++ (a ++ uint4Store t) ++ e).drop 7 =
        ((a ++ uint4Store t) ++ e).drop 4 := rfl
    rw [hshort, List.append_assoc]
    exact List.drop_left' ha
  rw [dbeBkeyGettrxid, hdrop]
  exact uint4Load_uint4Store ht e

theorem dbeBkeySettrxid_header (info : UInt8) (a c : List UInt8) (t : ℕ)
    (ha : a.length = 4) (hc : c.length = 4) (e : List UInt8) :
    dbeBkeySettrxid (info :: uint2Store 0 ++ (a ++ c) ++ e) t =
      info :: uint2Store 0 ++ (a ++ uint4Store t) ++ e := by
  have htake : (info :: uint2Store 0 ++ (a ++ c) ++ e).take 7 = info :: uint2Store 0 ++ a := by
    have hsplit : info :: uint2Store 0 ++ (a ++ c) ++ e =
        (info :: uint2Store 0 ++ a) ++ (c ++ e) := by
      simp only [List.append_assoc, List.cons_append]
    rw [hsplit]
    exact List.take_left' (by rw [List.length_append, ha]; rfl)
  have hdrop : (info :: uint2Store 0 ++ (a ++ c) ++ e).drop 11 = e :=
    List.drop_left' (by rw [List.length_append, List.length_append, ha, hc]; rfl)
  rw [dbeBkeySettrxid, htake, hdrop]
  simp only [List.append_assoc, List.cons_append]

theorem indseaNextResetkey_bytes {k : Key} (hk : k.IsLeaf)
    (h : 11 + (encVtpl k.vtpl).length < bkeyMaxlen) :
    indseaNextResetkey k.bytes = (k.nextResetkey h).bytes := by
  have hvtpl : bkeyGetvtplptr k.bytes = encVtpl k.vtpl := by
    have hptr := bkeyGetvtplptr_storedBytes ⟨0, k.vtpl, k.header⟩ []
    rw [List.append_nil, List.append_nil] at hptr
    exact hptr
  have hgross : (encVtpl k.vtpl).take (vtplGrosslen (encVtpl k.vtpl)) = encVtpl k.vtpl := by
    have hlen := vtplGrosslen_encVtpl k.vtplFits.netlen_lt []
    rw [List.append_nil] at hlen
    rw [hlen, List.take_length]
  have hfresh : dbeBkeySetbkey (dbeBkeyInit []) k.bytes =
      setbkeyInfo (bkeyLeaf + bkey2longused) k.header.info.toNat :: uint2Store 0 ++
        (uint4Store 0 ++ uint4Store k.header.trxid) ++ encVtpl k.vtpl := by
    have hinfo : bkeyGetinfo k.bytes = k.header.info.toNat := rfl
    have hinit : bkeyGetinfo (dbeBkeyInit []) = bkeyLeaf + bkey2longused := rfl
    have hlongs : ((dbeBkeyInit []).drop 3).take
        (4 * nlongused (bkeyLeaf + bkey2longused)) = uint4Store 0 ++ uint4Store 0 := rfl
    have hist : dbeBkeyIstrxid (dbeBkeyInit []) = true := rfl
    have hid := hk.trxid
    rw [dbeBkeySetbkey, hvtpl, hgross, hinfo, hinit, hlongs, hist, Bool.true_and]
    by_cases hto : dbeBkeyIstrxid k.bytes = true
    · rw [if_pos hto] at hid
      simp only [hto, if_true]
      rw [hid]
      exact dbeBkeySettrxid_header _ _ _ _ rfl rfl _
    · rw [if_neg hto] at hid
      simp only [hto, hid]
      rfl
  rw [indseaNextResetkey, hfresh, dbeBkeyGettrxid_header _ _ k.header.trxid_lt rfl,
    dbeBkeySettrxid_header _ _ _ _ rfl rfl]
  rfl

/-! ## The next transaction id -/

/-- An id in use: not zero and not in the gap. -/
def TrxidInUse (trxid : ℕ) : Prop := 0 < trxid ∧ trxid < dbeCtrMaxlimit

instance (t : ℕ) : Decidable (TrxidInUse t) := inferInstanceAs (Decidable (_ ∧ _))

/-- The id that follows is either the next number or the first one behind the gap. -/
theorem dbeTrxidSum_one {t : ℕ} (hlt : t < dbeCtrMaxlimit) :
    dbeTrxidSum t 1 = if t + 1 = dbeCtrMaxlimit then 1 else t + 1 := by
  unfold dbeCtrMaxlimit at hlt ⊢
  have hmod : (((t : ℤ) + 1) % 2 ^ 32).toNat = t + 1 := by omega
  rw [dbeTrxidSum, hmod, dbeTypeSkipgap]
  unfold dbeCtrMaxlimit
  by_cases heq : t + 1 = 4294967295 - 11000
  · rw [if_pos (by omega), if_neg (by decide), if_pos heq]
  · rw [if_neg (by omega), if_neg heq]

theorem dbeTrxidSum_one_inUse {t : ℕ} (hlt : t < dbeCtrMaxlimit) :
    TrxidInUse (dbeTrxidSum t 1) := by
  rw [dbeTrxidSum_one hlt]
  unfold TrxidInUse
  unfold dbeCtrMaxlimit at *
  split <;> omega

/-- No id in use lies between an id and the one that follows it. -/
theorem trxidRank_sum_le_iff {base t u : ℕ} (ht : TrxidInUse t) (hu : TrxidInUse u)
    (htw : (t + (2 ^ 32 - base)) % 2 ^ 32 < 2 ^ 31)
    (huw : (u + (2 ^ 32 - base)) % 2 ^ 32 < 2 ^ 31)
    (hsw : (dbeTrxidSum t 1 + (2 ^ 32 - base)) % 2 ^ 32 < 2 ^ 31) :
    trxidRank base (dbeTrxidSum t 1) ≤ trxidRank base u ↔
      trxidRank base t < trxidRank base u := by
  obtain ⟨ht, htlt⟩ := ht
  obtain ⟨hu, hult⟩ := hu
  rw [dbeTrxidSum_one htlt] at hsw ⊢
  unfold trxidRank
  rw [if_neg hu.ne', if_neg ht.ne']
  unfold dbeCtrMaxlimit at *
  split at hsw
  · rename_i heq
    rw [if_pos heq, if_neg Nat.one_ne_zero]
    omega
  · rename_i hne
    rw [if_neg hne, if_neg (Nat.succ_ne_zero t)]
    omega

theorem trxidRank_lt_sum {base t : ℕ} (hlt : t < dbeCtrMaxlimit)
    (htw : t = 0 ∨ (t + (2 ^ 32 - base)) % 2 ^ 32 < 2 ^ 31) :
    trxidRank base t < trxidRank base (dbeTrxidSum t 1) := by
  have hpos := (dbeTrxidSum_one_inUse hlt).1
  rw [dbeTrxidSum_one hlt] at hpos ⊢
  unfold trxidRank
  rw [if_neg hpos.ne']
  unfold dbeCtrMaxlimit at *
  rcases htw with rfl | htw
  · rw [if_pos rfl]
    exact Nat.succ_pos _
  · split <;> split <;> omega

variable {base : ℕ}

/-- Keys with the v-tuple and the delete mark of `r` have ids in use like `r`, or none
like `r`. -/
def TrxidsLike (r x : Key) : Prop :=
  x.vtpl = r.vtpl → x.header.deletemark = r.header.deletemark →
    TrxidInUse r.header.trxid ∧ TrxidInUse x.header.trxid ∨
      r.header.trxid = 0 ∧ x.header.trxid = 0

/-- A key is at or behind the reset key exactly where it is behind the last returned
key. -/
theorem rank_nextResetkey_le_iff {r x : KeyIn base}
    {h : 11 + (encVtpl r.1.vtpl).length < bkeyMaxlen}
    (hw : (r.1.nextResetkey h).InWindow base) (hr : r.1.header.trxid < dbeCtrMaxlimit)
    (hx : TrxidsLike r.1 x.1) :
    KeyIn.rank (⟨_, hw⟩ : KeyIn base) ≤ x.rank ↔ r.rank < x.rank := by
  obtain ⟨hpos, hslt⟩ := dbeTrxidSum_one_inUse hr
  have hlt : dbeTrxidSum r.1.header.trxid 1 < 2 ^ 32 := by
    unfold dbeCtrMaxlimit at hslt
    omega
  have hid : (r.1.nextResetkey h).header.trxid = dbeTrxidSum r.1.header.trxid 1 :=
    resetHeader_trxid _ hlt
  have hmark : (r.1.nextResetkey h).header.deletemark = r.1.header.deletemark :=
    resetHeader_deletemark _ _
  have hwin := hw
  rw [Key.InWindow, BkeyHeader.InWindow, hid] at hwin
  change toLex (r.1.vtpl, (r.1.nextResetkey h).header.rank base) ≤
    toLex (x.1.vtpl, x.1.header.rank base) ↔
      toLex (r.1.vtpl, r.1.header.rank base) < toLex (x.1.vtpl, x.1.header.rank base)
  unfold BkeyHeader.rank
  rw [hmark, hid]
  simp only [Prod.Lex.toLex_le_toLex, Prod.Lex.toLex_lt_toLex]
  by_cases hv : x.1.vtpl = r.1.vtpl
  · by_cases hm : x.1.header.deletemark = r.1.header.deletemark
    · rw [hv, hm]
      simp only [lt_irrefl, true_and, false_or]
      rcases hx hv hm with ⟨hru, hxu⟩ | ⟨hr0, hx0⟩
      · exact trxidRank_sum_le_iff hru hxu (r.2.resolve_left hru.1.ne')
          (x.2.resolve_left hxu.1.ne') (hwin.resolve_left hpos.ne')
      · rw [hr0, hx0]
        have hone : dbeTrxidSum 0 1 = 1 := by decide
        rw [hone, trxidRank, if_neg Nat.one_ne_zero, trxidRank, if_pos rfl]
        omega
    · have hne : (if r.1.header.deletemark then 0 else 1) ≠
          (if x.1.header.deletemark then 0 else 1) := by
        intro heq
        cases hrm : r.1.header.deletemark <;> cases hxm : x.1.header.deletemark <;>
          simp_all
      simp only [hne, false_and, or_false]
  · simp only [Ne.symm hv, false_and, or_false]

theorem rank_lt_nextResetkey {r : KeyIn base}
    {h : 11 + (encVtpl r.1.vtpl).length < bkeyMaxlen}
    (hw : (r.1.nextResetkey h).InWindow base) (hr : r.1.header.trxid < dbeCtrMaxlimit) :
    r.rank < KeyIn.rank (⟨_, hw⟩ : KeyIn base) := by
  have hslt := (dbeTrxidSum_one_inUse hr).2
  have hlt : dbeTrxidSum r.1.header.trxid 1 < 2 ^ 32 := by
    unfold dbeCtrMaxlimit at hslt
    omega
  have hid : (r.1.nextResetkey h).header.trxid = dbeTrxidSum r.1.header.trxid 1 :=
    resetHeader_trxid _ hlt
  have hmark : (r.1.nextResetkey h).header.deletemark = r.1.header.deletemark :=
    resetHeader_deletemark _ _
  change toLex (r.1.vtpl, r.1.header.rank base) <
    toLex (r.1.vtpl, (r.1.nextResetkey h).header.rank base)
  unfold BkeyHeader.rank
  rw [hmark, hid]
  simp only [Prod.Lex.toLex_lt_toLex, lt_irrefl, true_and, false_or]
  exact trxidRank_lt_sum hr r.2

end SolidDB
