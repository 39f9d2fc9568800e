import Mathlib.Data.Int.Basic
import Mathlib.Tactic.Linarith

/-!
# Transaction numbers and the database counters

A transaction number is kept in four bytes, and its counter has four more (`trxctr_t`).
Numbers are compared by the sign of their wrapped difference. As long as the numbers in
use are less than half a round apart this is the order of the eight-byte counters, so
the counters of `dbe_counter_t` are natural numbers here and `0` is the null number.
-/

namespace SolidDB

/-! ## Four-byte numbers and their counters -/

def dbeCtrMaxlimit : ℕ := 4294967295 - 11000

structure TrxCtr where
  tcHi : ℕ
  tcLo : ℕ

structure TrxCtr.Valid (ctr : TrxCtr) : Prop where
  pos : 0 < ctr.tcLo
  lt : ctr.tcLo < dbeCtrMaxlimit

/-- How many times the counter has been incremented. -/
def TrxCtr.value (ctr : TrxCtr) : ℕ := ctr.tcHi * (dbeCtrMaxlimit - 1) + ctr.tcLo

def int4Diff (a b : ℕ) : ℤ := Int.bmod ((a : ℤ) - b) (2 ^ 32)

/-- `trxctr_inc` by one -/
def trxctrInc (ctr : TrxCtr) : TrxCtr :=
  let nv := (ctr.tcLo + 1) % 2 ^ 32
  if dbeCtrMaxlimit - 1 ≤ (nv + (2 ^ 32 - 1)) % 2 ^ 32 then
    { tcHi := ctr.tcHi + 1, tcLo := 1 }
  else
    { ctr with tcLo := nv }

/-- `dbe_trxnum_cmp`, `dbe_trxid_cmp` -/
def dbeTrxnumCmp (trxnum1 trxnum2 : ℕ) : ℤ :=
  let diff := int4Diff trxnum1 trxnum2
  if diff = 0 then 0
  else if trxnum1 = 0 then -1
  else if trxnum2 = 0 then 1
  else if diff < 0 then -1 else 1

def trxctrCalculatehigh4bytes (ctr : TrxCtr) (low4bytes : ℕ) : ℕ :=
  let diff := int4Diff ctr.tcLo low4bytes
  if diff < 0 ∧ low4bytes < ctr.tcLo then ctr.tcHi + 1
  else if 0 < diff ∧ ctr.tcLo < low4bytes then ctr.tcHi - 1
  else ctr.tcHi

def trxctrSetlow4bytes (ctr : TrxCtr) (low4bytes : ℕ) : TrxCtr where
  tcHi := trxctrCalculatehigh4bytes ctr low4bytes
  tcLo := low4bytes

theorem TrxCtr.Valid.inc {ctr : TrxCtr} (h : ctr.Valid) : (trxctrInc ctr).Valid := by
  have hlt := h.lt
  have hpos := h.pos
  unfold dbeCtrMaxlimit at hlt
  simp only [trxctrInc]
  split
  · exact ⟨Nat.one_pos, show 1 < dbeCtrMaxlimit by decide⟩
  · rename_i hnv
    constructor
    · change 0 < (ctr.tcLo + 1) % 2 ^ 32
      omega
    · unfold dbeCtrMaxlimit at hnv ⊢
      change (ctr.tcLo + 1) % 2 ^ 32 < 4294967295 - 11000
      omega

theorem TrxCtr.Valid.value_inc {ctr : TrxCtr} (h : ctr.Valid) :
    (trxctrInc ctr).value = ctr.value + 1 := by
  have hlt := h.lt
  have hpos := h.pos
  unfold dbeCtrMaxlimit at hlt
  simp only [trxctrInc]
  split
  · rename_i hnv
    unfold dbeCtrMaxlimit at hnv
    simp only [TrxCtr.value, dbeCtrMaxlimit]
    omega
  · rename_i hnv
    unfold dbeCtrMaxlimit at hnv
    simp only [TrxCtr.value, dbeCtrMaxlimit]
    omega

/-- The four-byte numbers of two counters less than half a round apart compare as the
counters do. -/
theorem dbeTrxnumCmp_tcLo {a b : TrxCtr} (ha : a.Valid) (hb : b.Valid)
    (hab : a.value < b.value + (2 ^ 31 - 11002)) (hba : b.value < a.value + (2 ^ 31 - 11002)) :
    dbeTrxnumCmp a.tcLo b.tcLo = ((a.value : ℤ) - b.value).sign := by
  have ha1 := ha.pos
  have hb1 := hb.pos
  have ha2 := ha.lt
  have hb2 := hb.lt
  unfold dbeCtrMaxlimit at ha2 hb2
  simp only [TrxCtr.value, dbeCtrMaxlimit] at hab hba
  have hhi : a.tcHi = b.tcHi ∨ a.tcHi = b.tcHi + 1 ∨ b.tcHi = a.tcHi + 1 := by omega
  simp only [dbeTrxnumCmp]
  rw [if_neg (Nat.ne_of_gt ha1), if_neg (Nat.ne_of_gt hb1)]
  have hdiff : int4Diff a.tcLo b.tcLo < 0 ∧ a.value < b.value ∨
      int4Diff a.tcLo b.tcLo = 0 ∧ a.value = b.value ∨
      0 < int4Diff a.tcLo b.tcLo ∧ b.value < a.value := by
    simp only [TrxCtr.value, dbeCtrMaxlimit, int4Diff, Int.bmod_def]
    rcases hhi with h | h | h
    · rw [h] at hab hba ⊢
      split_ifs <;> omega
    · rw [h] at hab hba ⊢
      split_ifs <;> omega
    · rw [h] at hab hba ⊢
      split_ifs <;> omega
  rcases hdiff with ⟨hd, hv⟩ | ⟨hd, hv⟩ | ⟨hd, hv⟩
  · rw [if_neg (ne_of_lt hd), if_pos hd, Int.sign_eq_neg_one_of_neg (by omega)]
  · rw [if_pos hd, hv, sub_self, Int.sign_zero]
  · rw [if_neg (ne_of_gt hd), if_neg (not_lt_of_gt hd), Int.sign_eq_one_of_pos (by omega)]

/-- Setting the low bytes to those of a number less than half a round away sets the
counter to that number. -/
theorem value_trxctrSetlow4bytes {ctr a : TrxCtr} (hctr : ctr.Valid) (ha : a.Valid)
    (hlt : ctr.value < a.value + (2 ^ 31 - 11002)) (hgt : a.value < ctr.value + (2 ^ 31 - 11002)) :
    (trxctrSetlow4bytes ctr a.tcLo).value = a.value := by
  have ha1 := ha.pos
  have hc1 := hctr.pos
  have ha2 := ha.lt
  have hc2 := hctr.lt
  unfold dbeCtrMaxlimit at ha2 hc2
  simp only [TrxCtr.value, dbeCtrMaxlimit] at hlt hgt ⊢
  simp only [trxctrSetlow4bytes, trxctrCalculatehigh4bytes, int4Diff, Int.bmod_def]
  split_ifs <;> omega

/-! ## The counters of the database -/

structure DbeCounter where
  ctrTrxid : ℕ
  ctrMaxtrxnum : ℕ
  ctrCommittrxnum : ℕ
  ctrMergetrxnum : ℕ
  deriving DecidableEq

def dbeCounterInit : DbeCounter where
  ctrTrxid := 0
  ctrMaxtrxnum := 1
  ctrCommittrxnum := 0
  ctrMergetrxnum := 0

def dbeCounterGetnewtrxid (ctr : DbeCounter) : ℕ × DbeCounter :=
  (ctr.ctrTrxid + 1, { ctr with ctrTrxid := ctr.ctrTrxid + 1 })

/-- The counter that commit numbers are taken from. `mergecleanup` is
`dbe_cfg_mergecleanup`. -/
def commitCounter (mergecleanup : Bool) (ctr : DbeCounter) : ℕ :=
  if mergecleanup then ctr.ctrTrxid else ctr.ctrCommittrxnum

def dbeCounterGetnewcommittrxnum (mergecleanup : Bool) (ctr : DbeCounter) : ℕ × DbeCounter :=
  if mergecleanup then
    (ctr.ctrTrxid + 1,
      { ctr with ctrTrxid := ctr.ctrTrxid + 1, ctrCommittrxnum := ctr.ctrTrxid + 1 })
  else
    (ctr.ctrCommittrxnum + 1, { ctr with ctrCommittrxnum := ctr.ctrCommittrxnum + 1 })

def dbeCounterGetcommittrxnum (ctr : DbeCounter) : ℕ := ctr.ctrCommittrxnum

def dbeCounterSetmaxtrxnum (ctr : DbeCounter) (maxtrxnum : ℕ) : DbeCounter :=
  if ctr.ctrMaxtrxnum < maxtrxnum then { ctr with ctrMaxtrxnum := maxtrxnum } else ctr

def dbeCounterSetmergetrxnum (ctr : DbeCounter) (mergetrxnum : ℕ) : DbeCounter :=
  if ctr.ctrMergetrxnum < mergetrxnum then { ctr with ctrMergetrxnum := mergetrxnum } else ctr

section

variable (mergecleanup : Bool) (ctr : DbeCounter) (n : ℕ)

@[simp] theorem fst_dbeCounterGetnewcommittrxnum :
    (dbeCounterGetnewcommittrxnum mergecleanup ctr).1 =
      commitCounter mergecleanup ctr + 1 := by
  cases mergecleanup <;> rfl

@[simp] theorem commitCounter_getnewcommittrxnum :
    commitCounter mergecleanup (dbeCounterGetnewcommittrxnum mergecleanup ctr).2 =
      commitCounter mergecleanup ctr + 1 := by
  cases mergecleanup <;> rfl

@[simp] theorem ctrMaxtrxnum_getnewcommittrxnum :
    (dbeCounterGetnewcommittrxnum mergecleanup ctr).2.ctrMaxtrxnum = ctr.ctrMaxtrxnum := by
  cases mergecleanup <;> rfl

@[simp] theorem ctrMergetrxnum_getnewcommittrxnum :
    (dbeCounterGetnewcommittrxnum mergecleanup ctr).2.ctrMergetrxnum =
      ctr.ctrMergetrxnum := by
  cases mergecleanup <;> rfl

theorem ctrTrxid_le_getnewcommittrxnum :
    ctr.ctrTrxid ≤ (dbeCounterGetnewcommittrxnum mergecleanup ctr).2.ctrTrxid := by
  cases mergecleanup
  · exact le_refl _
  · exact Nat.le_succ _

@[simp] theorem ctrMaxtrxnum_setmaxtrxnum :
    (dbeCounterSetmaxtrxnum ctr n).ctrMaxtrxnum = max ctr.ctrMaxtrxnum n := by
  rw [dbeCounterSetmaxtrxnum]
  split
  · rename_i h
    exact (max_eq_right (le_of_lt h)).symm
  · rename_i h
    exact (max_eq_left (not_lt.mp h)).symm

@[simp] theorem ctrTrxid_setmaxtrxnum :
    (dbeCounterSetmaxtrxnum ctr n).ctrTrxid = ctr.ctrTrxid := by
  rw [dbeCounterSetmaxtrxnum]
  split <;> rfl

@[simp] theorem ctrMergetrxnum_setmaxtrxnum :
    (dbeCounterSetmaxtrxnum ctr n).ctrMergetrxnum = ctr.ctrMergetrxnum := by
  rw [dbeCounterSetmaxtrxnum]
  split <;> rfl

@[simp] theorem commitCounter_setmaxtrxnum :
    commitCounter mergecleanup (dbeCounterSetmaxtrxnum ctr n) =
      commitCounter mergecleanup ctr := by
  rw [dbeCounterSetmaxtrxnum]
  split <;> rfl

@[simp] theorem ctrMergetrxnum_setmergetrxnum :
    (dbeCounterSetmergetrxnum ctr n).ctrMergetrxnum = max ctr.ctrMergetrxnum n := by
  rw [dbeCounterSetmergetrxnum]
  split
  · rename_i h
    exact (max_eq_right (le_of_lt h)).symm
  · rename_i h
    exact (max_eq_left (not_lt.mp h)).symm

@[simp] theorem ctrMaxtrxnum_setmergetrxnum :
    (dbeCounterSetmergetrxnum ctr n).ctrMaxtrxnum = ctr.ctrMaxtrxnum := by
  rw [dbeCounterSetmergetrxnum]
  split <;> rfl

@[simp] theorem ctrTrxid_setmergetrxnum :
    (dbeCounterSetmergetrxnum ctr n).ctrTrxid = ctr.ctrTrxid := by
  rw [dbeCounterSetmergetrxnum]
  split <;> rfl

@[simp] theorem commitCounter_setmergetrxnum :
    commitCounter mergecleanup (dbeCounterSetmergetrxnum ctr n) =
      commitCounter mergecleanup ctr := by
  rw [dbeCounterSetmergetrxnum]
  split <;> rfl

end

end SolidDB
