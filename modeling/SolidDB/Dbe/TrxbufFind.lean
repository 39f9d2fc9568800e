import SolidDB.Dbe.Trxbuf
import SolidDB.Dbe.GtrsTrxinfo

/-!
# Looking up entries of the transaction buffer

What `dbe_trxbuf_addstmt`, `dbe_trxbuf_abortstmt` and a turn of `dbe_trxbuf_clean` do to
the entry that a statement id finds.
-/

namespace SolidDB

section

variable {tb : Trxbuf} {t x y : ℕ}

/-! ## The entries of the buffer -/

theorem trxbufFind_addstmt_self (tb : Trxbuf) (x : ℕ) (ti : TrxinfoRef) :
    trxbufFind (dbeTrxbufAddstmt tb x ti) x = some ⟨x, ti⟩ := by
  simp [trxbufFind, dbeTrxbufAddstmt, trxbufGetbufslot]

theorem trxbufFind_addstmt_of_ne (h : x ≠ y) (ti : TrxinfoRef) :
    trxbufFind (dbeTrxbufAddstmt tb y ti) x = trxbufFind tb x := by
  have hslot : trxbufGetbufslot (dbeTrxbufAddstmt tb y ti) x = trxbufGetbufslot tb x := rfl
  rw [trxbufFind, hslot, trxbufFind]
  simp only [dbeTrxbufAddstmt]
  rw [Function.update_apply]
  split
  · rename_i heq
    rw [List.find?_cons_of_neg, heq]
    simpa using Ne.symm h
  · rfl

theorem find?_trxstmtSettrxinfo_self (x : ℕ) (ti : TrxinfoRef) (list : List Trxstmt) :
    (trxstmtSettrxinfo x ti list).find? (fun ts => ts.tsStmttrxid = x) =
      (list.find? fun ts => ts.tsStmttrxid = x).map fun ts => { ts with tsTrxinfo := ti } := by
  induction list with
  | nil => rfl
  | cons ts rest ih =>
      rw [trxstmtSettrxinfo]
      by_cases h : ts.tsStmttrxid = x
      · simp [h]
      · simp [h, ih]

theorem find?_trxstmtSettrxinfo_of_ne (h : x ≠ y) (ti : TrxinfoRef) (list : List Trxstmt) :
    (trxstmtSettrxinfo y ti list).find? (fun ts => ts.tsStmttrxid = x) =
      list.find? fun ts => ts.tsStmttrxid = x := by
  induction list with
  | nil => rfl
  | cons ts rest ih =>
      rw [trxstmtSettrxinfo]
      by_cases hy : ts.tsStmttrxid = y
      · simp [hy, Ne.symm h]
      · simp [hy, List.find?_cons, ih]

theorem map_trxstmtSettrxinfo (x : ℕ) (ti : TrxinfoRef) (list : List Trxstmt) :
    (trxstmtSettrxinfo x ti list).map Trxstmt.tsStmttrxid =
      list.map Trxstmt.tsStmttrxid := by
  induction list with
  | nil => rfl
  | cons ts rest ih =>
      rw [trxstmtSettrxinfo]
      split
      · rfl
      · rw [List.map_cons, ih, List.map_cons]

theorem trxbufFind_abortstmt_self (tb : Trxbuf) (n x : ℕ) :
    trxbufFind (dbeTrxbufAbortstmt tb n x) x = (trxbufFind tb x).map fun ts =>
      { ts with tsTrxinfo := .stmt (abortstmtTrxinfo n x) } := by
  have hslot : trxbufGetbufslot (dbeTrxbufAbortstmt tb n x) x = trxbufGetbufslot tb x := rfl
  rw [trxbufFind, hslot, trxbufFind, ← find?_trxstmtSettrxinfo_self]
  simp [dbeTrxbufAbortstmt]

theorem trxbufFind_abortstmt_of_ne (h : x ≠ y) (n : ℕ) :
    trxbufFind (dbeTrxbufAbortstmt tb n y) x = trxbufFind tb x := by
  have hslot : trxbufGetbufslot (dbeTrxbufAbortstmt tb n y) x = trxbufGetbufslot tb x := rfl
  rw [trxbufFind, hslot, trxbufFind]
  simp only [dbeTrxbufAbortstmt]
  rw [Function.update_apply]
  split
  · rename_i heq
    rw [find?_trxstmtSettrxinfo_of_ne h, heq]
  · rfl

/-- Among entries with different ids the search after a filter is the filtered search. -/
theorem find?_filter_of_nodup (q : Trxstmt → Bool) {list : List Trxstmt}
    (h : (list.map Trxstmt.tsStmttrxid).Nodup) :
    (list.filter q).find? (fun ts => ts.tsStmttrxid = x) =
      (list.find? fun ts => ts.tsStmttrxid = x).filter q := by
  induction list with
  | nil => rfl
  | cons ts rest ih =>
      rw [List.map_cons, List.nodup_cons] at h
      by_cases hx : ts.tsStmttrxid = x
      · have hrest : (rest.filter q).find? (fun ts => ts.tsStmttrxid = x) = none := by
          rw [List.find?_eq_none]
          intro ts' hts'
          have hne : ts'.tsStmttrxid ≠ x := by
            rintro rfl
            exact h.1 (hx ▸ List.mem_map_of_mem (List.mem_of_mem_filter hts'))
          simpa using hne
        by_cases hq : q ts = true
        · simp [hq, hx, Option.filter]
        · simp [hq, hx, hrest, Option.filter]
      · by_cases hq : q ts = true
        · simp [hq, hx, ih h.2]
        · simp [hq, hx, ih h.2]

section Cleanslot

variable {infos : ℕ → Trxinfo} {cleantrxnum aborttrxid : ℕ} {oti : Option Opentrxinfo}
  {i : ℕ} {ts : Trxstmt}

theorem trxbufFind_cleanslot
    (h : ∀ i, ((tb.tbTbslottable i).map Trxstmt.tsStmttrxid).Nodup) (x : ℕ) :
    trxbufFind (trxbufCleanslot tb infos cleantrxnum aborttrxid oti i) x =
      if trxbufGetbufslot tb x = i then (trxbufFind tb x).filter fun ts =>
        !trxbufRemovetrx tb infos cleantrxnum aborttrxid oti ts
      else trxbufFind tb x := by
  have hslot : trxbufGetbufslot (trxbufCleanslot tb infos cleantrxnum aborttrxid oti i) x =
      trxbufGetbufslot tb x := rfl
  rw [trxbufFind, hslot, trxbufFind]
  simp only [trxbufCleanslot]
  rw [Function.update_apply]
  split
  · rename_i heq
    rw [find?_filter_of_nodup _ (h i), heq]
  · rfl

theorem trxbufFind_of_cleanslot
    (h : ∀ i, ((tb.tbTbslottable i).map Trxstmt.tsStmttrxid).Nodup)
    (hfind : trxbufFind (trxbufCleanslot tb infos cleantrxnum aborttrxid oti i) x = some ts) :
    trxbufFind tb x = some ts := by
  rw [trxbufFind_cleanslot h] at hfind
  split at hfind
  · exact (Option.filter_eq_some_iff.mp hfind).1
  · exact hfind

/-- An entry that is not there after the cleaning was removed or was not there before. -/
theorem removed_of_cleanslot
    (h : ∀ i, ((tb.tbTbslottable i).map Trxstmt.tsStmttrxid).Nodup)
    (hfind : trxbufFind (trxbufCleanslot tb infos cleantrxnum aborttrxid oti i) x = none) :
    trxbufFind tb x = none ∨ ∃ ts, trxbufFind tb x = some ts ∧
      trxbufRemovetrx tb infos cleantrxnum aborttrxid oti ts = true := by
  rw [trxbufFind_cleanslot h] at hfind
  split at hfind
  · cases hts : trxbufFind tb x with
    | none => exact Or.inl rfl
    | some ts =>
        refine Or.inr ⟨ts, rfl, ?_⟩
        rw [hts, Option.filter_eq_none_iff] at hfind
        simpa using hfind
  · exact Or.inl hfind

/-- Only ended transactions and statements are removed. In the mode with
`tb_visiblealltrxid` an aborted one was neither open nor started or given its number after
the merge started; in the other mode a committed one is at or below the clean level. -/
theorem trxbufRemovetrx_cases
    (h : trxbufRemovetrx tb infos cleantrxnum aborttrxid oti ts = true)
    (hmtable : (ts.tsTrxinfo.deref infos).tiMtabletrx = false) :
    ((ts.tsTrxinfo.deref infos).tiState = .commit ∧
        (ts.tsTrxinfo.deref infos).tiCommittrxnum ≤ cleantrxnum) ∨
      ((ts.tsTrxinfo.deref infos).tiState = .abort ∧ (tb.tbUsevisiblealltrxid = true →
        aborttrxid ≠ 0 ∧ ts.tsStmttrxid ≤ aborttrxid ∧
          (ts.tsTrxinfo.deref infos).tiCommittrxnum ≤ aborttrxid ∧
          dbeTrxbufIsopentrx oti (ts.tsTrxinfo.deref infos).tiUsertrxid = false)) := by
  simp only [trxbufRemovetrx] at h
  generalize ts.tsTrxinfo.deref infos = ti at h hmtable ⊢
  split at h
  · rw [hmtable, if_neg Bool.false_ne_true] at h
    split at h
    · rename_i hcommit
      exact Or.inl hcommit
    · split at h
      · split at h
        · exact absurd h Bool.false_ne_true
        · rename_i hnull
          split at h
          · rename_i habort
            rw [Bool.not_eq_true', Bool.or_eq_false_iff, decide_eq_false_iff_not, not_lt] at h
            exact Or.inr ⟨habort.1, fun _ => ⟨hnull, habort.2, h.1, h.2⟩⟩
          · exact absurd h Bool.false_ne_true
      · rename_i huse
        rw [decide_eq_true_iff] at h
        exact Or.inr ⟨h.1, fun huse' => absurd huse' huse⟩
  · exact absurd h Bool.false_ne_true

end Cleanslot

/-! ## Open transactions -/

theorem foldl_min_le (list : List ℕ) (a : ℕ) : ∀ u ∈ a :: list, list.foldl min a ≤ u := by
  induction list generalizing a with
  | nil =>
      intro u hu
      rw [List.mem_singleton.mp hu, List.foldl_nil]
  | cons b rest ih =>
      rw [List.foldl_cons]
      have hle := ih (min a b) (min a b) List.mem_cons_self
      rw [List.forall_mem_cons, List.forall_mem_cons]
      exact ⟨hle.trans (min_le_left a b), hle.trans (min_le_right a b),
        fun u hu => ih (min a b) u (List.mem_cons_of_mem _ hu)⟩

theorem le_foldl_max (list : List ℕ) (a : ℕ) : ∀ u ∈ a :: list, u ≤ list.foldl max a := by
  induction list generalizing a with
  | nil =>
      intro u hu
      rw [List.mem_singleton.mp hu, List.foldl_nil]
  | cons b rest ih =>
      rw [List.foldl_cons]
      have hle := ih (max a b) (max a b) List.mem_cons_self
      rw [List.forall_mem_cons, List.forall_mem_cons]
      exact ⟨(le_max_left a b).trans hle, (le_max_right a b).trans hle,
        fun u hu => ih (max a b) u (List.mem_cons_of_mem _ hu)⟩

/-- The table of a merge has the transactions that are active at its start. -/
theorem dbeTrxbufIsopentrx_getopentrxinfo (g : Gtrs) (ht : t ∈ g.gtrsActivetrxlist) :
    dbeTrxbufIsopentrx (some (dbeGtrsGetopentrxinfo g)) t = true := by
  rw [dbeTrxbufIsopentrx, dbeGtrsGetopentrxinfo]
  generalize g.gtrsActivetrxlist = list at ht
  cases list with
  | nil => exact absurd ht List.not_mem_nil
  | cons a rest =>
      have hlow := foldl_min_le rest a t ht
      have hhigh := le_foldl_max rest a t ht
      simp only [List.length_cons, Nat.add_one_ne_zero, if_false]
      rw [if_neg]
      · exact List.contains_iff_mem.mpr ht
      · simpa using ⟨hlow, hhigh⟩

end

/-!
## What cleaning the transaction buffer must not change

`Gobj.FateKept` says that what the buffer reports for the keys in the index is what became
of their transactions and statements. `GobjInv` is the invariant behind it, and `MergeInv`
what a running merge relies on: the entries that the cleaning at its end removes belong to
no key that it could not stamp or remove.
-/

section

open Gtrs

variable {cfg : GtrsCfg} {s s' : Gobj} {m : Indmerge} {x : ℕ}

namespace Gobj

def Committed (s : Gobj) (x : ℕ) : Prop :=
  (s.goGtrs.gtrsTrxinfo (s.goOwner x)).tiState = .commit ∧ x ∉ s.goAborted

def Aborted (s : Gobj) (x : ℕ) : Prop :=
  (s.goGtrs.gtrsTrxinfo (s.goOwner x)).tiState = .abort ∨ x ∈ s.goAborted

/-- A key is reported committed only if its transaction has committed and its statement
was not aborted, and aborted only if one of them was. -/
def FateKept (s : Gobj) : Prop :=
  ∀ k ∈ s.goKeys, ((s.trxstate k.keyTrxid).1 = .commit → s.Committed k.keyTrxid) ∧
    ((s.trxstate k.keyTrxid).1 = .abort → s.Aborted k.keyTrxid)

/-- What the entry of `x` points to. -/
def EntryOf (s : Gobj) (x : ℕ) : TrxinfoRef → Prop
  | .trx t => t = s.goOwner x ∧ x ∉ s.goAborted
  | .stmt ti => x ∈ s.goAborted ∧ ∃ n, ti = abortstmtTrxinfo n x

/-- What an id without an entry says about its keys. -/
def Lost (cfg : GtrsCfg) (s : Gobj) (x : ℕ) : Prop :=
  if cfg.mergecleanup then s.Committed x else s.Aborted x

end Gobj

structure GobjInv (cfg : GtrsCfg) (s : Gobj) : Prop where
  gate : GtrsInv cfg s.goGtrs
  numbers : cfg.mergecleanup = false → s.goGtrs.NumbersAbove
  mode : s.goTrxbuf.tbUsevisiblealltrxid = cfg.mergecleanup
  unique : ∀ i, ((s.goTrxbuf.tbTbslottable i).map Trxstmt.tsStmttrxid).Nodup
  added : ∀ i, ∀ ts ∈ s.goTrxbuf.tbTbslottable i, ts.tsStmttrxid ∈ s.goAdded
  added_le : ∀ x ∈ s.goAdded, x ≤ s.goGtrs.gtrsCtr.ctrTrxid
  aborted_added : ∀ x ∈ s.goAborted, x ∈ s.goAdded
  owner_le : ∀ x, s.goOwner x ≤ x
  active_user : ∀ t ∈ s.goGtrs.gtrsActivetrxlist, (s.goGtrs.gtrsTrxinfo t).tiUsertrxid = t
  entry : ∀ x ts, trxbufFind s.goTrxbuf x = some ts → s.EntryOf x ts.tsTrxinfo
  open_entry : ∀ x ∈ s.goAdded, x ∉ s.goAborted →
    s.goOwner x ∈ s.goGtrs.gtrsActivetrxlist → trxbufFind s.goTrxbuf x ≠ none
  key_added : ∀ k ∈ s.goKeys, k.keyTrxid ∈ s.goAdded
  key_user : ∀ k ∈ s.goKeys, (s.goGtrs.gtrsTrxinfo (s.goOwner k.keyTrxid)).tiUsertrxid =
    s.goOwner k.keyTrxid
  key_mtable : ∀ k ∈ s.goKeys, s.goGtrs.isended (s.goOwner k.keyTrxid) = true →
    (s.goGtrs.gtrsTrxinfo (s.goOwner k.keyTrxid)).tiMtabletrx = false
  key_lost : ∀ k ∈ s.goKeys, trxbufFind s.goTrxbuf k.keyTrxid = none →
    s.Lost cfg k.keyTrxid

/-- The transactions that were active at the start of the merge are in its table, and the
entries of the keys that it has met and left are not removed at its end. -/
structure MergeInv (cfg : GtrsCfg) (s : Gobj) (m : Indmerge) : Prop where
  patch_le : m.imPatchtrxnum ≤ s.goGtrs.gtrsCtr.ctrMaxtrxnum
  abort_le : cfg.mergecleanup = true → m.imAborttrxid ≤ s.goGtrs.gtrsCtr.ctrTrxid
  active : cfg.mergecleanup = true → ∀ t ∈ s.goGtrs.gtrsActivetrxlist,
    dbeTrxbufIsopentrx m.imOpentrxinfo t = true ∨ m.imAborttrxid < t
  met_abort : cfg.mergecleanup = true → ∀ k ∈ s.goKeys, k ∉ m.imUnmet → ∀ ts,
    trxbufFind s.goTrxbuf k.keyTrxid = some ts →
    (ts.tsTrxinfo.deref s.goGtrs.gtrsTrxinfo).tiState = .abort →
    dbeTrxbufIsopentrx m.imOpentrxinfo
        (ts.tsTrxinfo.deref s.goGtrs.gtrsTrxinfo).tiUsertrxid = true ∨
      m.imAborttrxid < k.keyTrxid ∨
      m.imAborttrxid < (ts.tsTrxinfo.deref s.goGtrs.gtrsTrxinfo).tiCommittrxnum
  met_commit : cfg.mergecleanup = false → ∀ k ∈ s.goKeys, k ∉ m.imUnmet → ∀ ts,
    trxbufFind s.goTrxbuf k.keyTrxid = some ts →
    (ts.tsTrxinfo.deref s.goGtrs.gtrsTrxinfo).tiState = .commit →
    m.imPatchtrxnum < (ts.tsTrxinfo.deref s.goGtrs.gtrsTrxinfo).tiCommittrxnum

/-! ## What the buffer reports -/

theorem trxstate_of_find {ts : Trxstmt} (h : trxbufFind s.goTrxbuf x = some ts) :
    (s.trxstate x).1 = (ts.tsTrxinfo.deref s.goGtrs.gtrsTrxinfo).tiState := by
  rw [Gobj.trxstate, dbeTrxbufGettrxstate, h]
  simp only []
  split
  · rename_i heq
    exact heq.symm
  · rename_i heq
    exact heq.symm
  · rename_i heq
    exact heq.symm
  · rename_i heq
    exact heq.symm

/-- Without an entry one mode reports aborted and the other committed, or neither. -/
theorem trxstate_of_find_none (h : trxbufFind s.goTrxbuf x = none) :
    (s.trxstate x).1 = .begun ∨
      (s.trxstate x).1 = if s.goTrxbuf.tbUsevisiblealltrxid then .commit else .abort := by
  rw [Gobj.trxstate, dbeTrxbufGettrxstate, h]
  simp only []
  split
  · exact Or.inl rfl
  · split
    · rename_i habort
      have huse : s.goTrxbuf.tbUsevisiblealltrxid = false := by
        simpa using habort.1
      rw [huse]
      exact Or.inr rfl
    · split
      · rename_i hvisible
        rw [if_pos hvisible.1]
        exact Or.inr rfl
      · exact Or.inl rfl

namespace GobjInv

theorem key_le (h : GobjInv cfg s) {k : IndexKey} (hk : k ∈ s.goKeys) :
    k.keyTrxid ≤ s.goGtrs.gtrsCtr.ctrTrxid :=
  h.added_le _ (h.key_added k hk)

theorem state_entry (h : GobjInv cfg s) {ts : Trxstmt}
    (hts : trxbufFind s.goTrxbuf x = some ts) :
    ((ts.tsTrxinfo.deref s.goGtrs.gtrsTrxinfo).tiState = .commit → s.Committed x) ∧
      ((ts.tsTrxinfo.deref s.goGtrs.gtrsTrxinfo).tiState = .abort → s.Aborted x) := by
  have hentry := h.entry x ts hts
  generalize ts.tsTrxinfo = ref at hentry ⊢
  cases ref with
  | trx t =>
      obtain ⟨rfl, hnot⟩ := hentry
      exact ⟨fun hcommit => ⟨hcommit, hnot⟩, fun habort => Or.inl habort⟩
  | stmt ti =>
      obtain ⟨hmem, n, rfl⟩ := hentry
      exact ⟨fun hcommit => TrxState.noConfusion hcommit, fun _ => Or.inr hmem⟩

theorem fateKept (h : GobjInv cfg s) : s.FateKept := by
  intro k hk
  cases hts : trxbufFind s.goTrxbuf k.keyTrxid with
  | some ts =>
      rw [trxstate_of_find hts]
      exact h.state_entry hts
  | none =>
      have hlost := h.key_lost k hk hts
      rw [Gobj.Lost, ← h.mode] at hlost
      rcases trxstate_of_find_none hts with hstate | hstate
      · rw [hstate]
        exact ⟨fun hcommit => TrxState.noConfusion hcommit,
          fun habort => TrxState.noConfusion habort⟩
      · rw [hstate]
        cases huse : s.goTrxbuf.tbUsevisiblealltrxid with
        | true =>
            rw [huse, if_pos rfl] at hlost
            exact ⟨fun _ => hlost, fun habort => TrxState.noConfusion habort⟩
        | false =>
            rw [huse, if_neg Bool.false_ne_true] at hlost
            exact ⟨fun hcommit => TrxState.noConfusion hcommit, fun _ => hlost⟩

end GobjInv

end

end SolidDB
