import SolidDB.Foundation.Polyphase
import SolidDB.Xs.Merge
import SolidDB.Xs.QsortSorts

/-!
# Merging one run of every stream

The tuple list has the first row that is left of every run, in order. A step takes rows from it as
far as its limits allow, so that the rows taken are sorted, and go before all that are left.
-/

namespace SolidDB

open XsStreamstatus Mergestatus Polyphase

section

variable {ρ : Type} (toRow : ρ → SortRow) (comp : List UInt8 → List UInt8 → ℤ) (blocksize : ℕ)

def rowComp (x y : ρ) : ℤ := comp (toRow x).bytes (toRow y).bytes

def headItems : ℕ → List (List ρ) → List Mgitem
  | _, [] => []
  | i, [] :: pends => headItems (i + 1) pends
  | i, (r :: _) :: pends => ⟨i, (toRow r).bytes⟩ :: headItems (i + 1) pends

inductive Feeds (st : XsStream) : List ρ → List (List ρ) → Prop where
  | empty {later : List (List ρ)} (hr : Reading toRow blocksize st [] later)
      (hstatus : st.status = sstaEor) : Feeds st [] later
  | row {r : ρ} {cur : List ρ} {later : List (List ρ)}
      (hr : Reading toRow blocksize st cur later) : Feeds st (r :: cur) later

structure ListsHeads (tuplelist : List Mgitem) (pends : List (List ρ)) : Prop where
  perm : tuplelist.Perm (headItems toRow 0 pends)
  sorted : tuplelist.Pairwise fun a b => comp a.data b.data ≤ 0

/-- A merge in a run: the rows that are left of every run, the runs behind them, the runs that have
been written, and the rows of the run that is written. The write stream has room for them. -/
structure Merging (room : ℕ) (mg : XsMerge) (pends : List (List ρ))
    (laters : List (List (List ρ))) (out : List (List ρ)) (rows : List ρ) : Prop where
  running : mg.status = mgsRun
  pends_length : pends.length = mg.readstreams.length
  laters_length : laters.length = mg.readstreams.length
  feeds : ∀ (i : ℕ) st pend later, mg.readstreams[i]? = some st → pends[i]? = some pend →
    laters[i]? = some later → Feeds toRow blocksize st pend later
  heads : ListsHeads toRow comp mg.tuplelist pends
  writing : Writing toRow blocksize mg.writestream out rows
  merges : Merges (ComparLe (rowComp toRow comp)) pends rows
  fits : rowsSize toRow out.flatten + (out.length + 1) + rowsSize toRow (rows ++ pends.flatten) ≤
    room

end

section

variable {ρ : Type} {toRow : ρ → SortRow} {comp : List UInt8 → List UInt8 → ℤ} {blocksize : ℕ}
  {pends : List (List ρ)} {r : ρ} {cur : List ρ} {later : List (List ρ)} {item : Mgitem}
  {tuplelist : List Mgitem} {mg : XsMerge} {st : XsStream} {i k : ℕ}

/-! ## The first rows -/

theorem headItems_length (i : ℕ) (pends : List (List ρ)) :
    (headItems toRow i pends).length ≤ pends.length := by
  induction pends generalizing i with
  | nil => exact le_rfl
  | cons p pends ih =>
      cases p with
      | nil => exact (ih (i + 1)).trans (Nat.le_succ _)
      | cons r cur => exact Nat.succ_le_succ (ih (i + 1))

theorem headItems_length_lt (i : ℕ) (hk : pends[k]? = some []) :
    (headItems toRow i pends).length < pends.length := by
  induction pends generalizing i k with
  | nil => cases hk
  | cons p pends ih =>
      cases p with
      | nil => exact Nat.lt_succ_of_le (headItems_length (i + 1) pends)
      | cons r cur =>
          cases k with
          | zero => cases hk
          | succ k => exact Nat.succ_lt_succ (ih (i + 1) hk)

theorem headItems_set (toRow : ρ → SortRow) (r : ρ) (cur : List ρ) (i : ℕ)
    (hk : pends[k]? = some []) :
    (headItems toRow i (pends.set k (r :: cur))).Perm
      (⟨i + k, (toRow r).bytes⟩ :: headItems toRow i pends) := by
  induction pends generalizing i k with
  | nil => cases hk
  | cons p pends ih =>
      cases k with
      | zero =>
          cases hk
          exact List.Perm.refl _
      | succ k =>
          have hrest := ih (i + 1) hk
          have hplace : i + 1 + k = i + (k + 1) := by omega
          rw [hplace] at hrest
          cases p with
          | nil => exact hrest
          | cons r' cur' => exact (hrest.cons _).trans (List.Perm.swap ..)

theorem mem_headItems (i : ℕ) (h : item ∈ headItems toRow i pends) :
    ∃ k r cur, pends[k]? = some (r :: cur) ∧ item = ⟨i + k, (toRow r).bytes⟩ := by
  induction pends generalizing i with
  | nil => cases h
  | cons p pends ih =>
      cases p with
      | nil =>
          obtain ⟨k, r, cur, hk, hitem⟩ := ih (i + 1) h
          exact ⟨k + 1, r, cur, hk, by rw [hitem, Nat.add_right_comm, Nat.add_assoc]⟩
      | cons r cur =>
          rcases List.mem_cons.mp h with rfl | h
          · exact ⟨0, r, cur, rfl, rfl⟩
          · obtain ⟨k, r', cur', hk, hitem⟩ := ih (i + 1) h
            exact ⟨k + 1, r', cur', hk, by rw [hitem, Nat.add_right_comm, Nat.add_assoc]⟩

theorem headItems_mem (toRow : ρ → SortRow) (i : ℕ) (hk : pends[k]? = some (r :: cur)) :
    (⟨i + k, (toRow r).bytes⟩ : Mgitem) ∈ headItems toRow i pends := by
  induction pends generalizing i k with
  | nil => cases hk
  | cons p pends ih =>
      cases k with
      | zero =>
          cases hk
          exact List.mem_cons_self ..
      | succ k =>
          have hrest := ih (i + 1) hk
          have hplace : i + 1 + k = i + (k + 1) := by omega
          rw [hplace] at hrest
          cases p with
          | nil => exact hrest
          | cons r' cur' => exact List.mem_cons_of_mem _ hrest

theorem headItems_eq_nil (i : ℕ) (h : headItems toRow i pends = []) : pends.flatten = [] := by
  induction pends generalizing i with
  | nil => rfl
  | cons p pends ih =>
      cases p with
      | nil => exact ih (i + 1) h
      | cons r cur => cases h

/-! ## The tuple list -/

theorem set_same {α : Type*} {l : List α} {x : α} (hi : l[i]? = some x) : l.set i x = l := by
  obtain ⟨hlt, rfl⟩ := List.getElem?_eq_some_iff.mp hi
  exact List.set_getElem_self hlt

theorem insertIdx_eq {α : Type*} (l : List α) (x : α) (hk : k ≤ l.length) :
    l.insertIdx k x = l.take k ++ x :: l.drop k := by
  induction k generalizing l with
  | zero => rfl
  | succ k ih =>
      cases l with
      | nil => exact absurd hk (Nat.not_succ_le_zero k)
      | cons y l =>
          rw [List.insertIdx_succ_cons, ih l (Nat.le_of_succ_le_succ hk)]
          rfl

def OfRows (toRow : ρ → SortRow) (tuplelist : List Mgitem) : Prop :=
  ∀ item ∈ tuplelist, ∃ r, item.data = (toRow r).bytes

theorem ListsHeads.ofRows (hl : ListsHeads toRow comp tuplelist pends) :
    OfRows toRow tuplelist := by
  intro item hitem
  obtain ⟨k, r, cur, -, rfl⟩ := mem_headItems 0 (hl.perm.mem_iff.mp hitem)
  exact ⟨r, rfl⟩

theorem ComparesPreorder.refl_le (hc : ComparesPreorder (rowComp toRow comp)) (r : ρ) :
    comp (toRow r).bytes (toRow r).bytes ≤ 0 := by
  have h := hc.symm r r
  unfold rowComp at h
  omega

theorem ComparesPreorder.nonneg_iff (hc : ComparesPreorder (rowComp toRow comp)) (r s : ρ) :
    0 ≤ comp (toRow r).bytes (toRow s).bytes ↔ comp (toRow s).bytes (toRow r).bytes ≤ 0 := by
  rw [← not_lt, ← not_lt]
  exact not_congr (hc.symm r s)

theorem insertIdx_sorted {α : Type*} {le : α → α → Prop} {l : List α} {x : α} (hk : k ≤ l.length)
    (hsorted : l.Pairwise le) (hbefore : ∀ y ∈ l.take k, le y x)
    (hbehind : ∀ y ∈ l.drop k, le x y) : (l.insertIdx k x).Pairwise le := by
  rw [← List.take_append_drop k l] at hsorted
  obtain ⟨htake, hdrop, hacross⟩ := List.pairwise_append.mp hsorted
  rw [insertIdx_eq l x hk]
  refine List.pairwise_append.mpr ⟨htake, List.pairwise_cons.mpr ⟨hbehind, hdrop⟩, ?_⟩
  intro y hy z hz
  rcases List.mem_cons.mp hz with rfl | hz
  · exact hbefore y hy
  · exact hacross y hy z hz

theorem suBsearch_sorted (hc : ComparesPreorder (rowComp toRow comp))
    (hrows : OfRows toRow tuplelist)
    (hsorted : tuplelist.Pairwise fun a b => comp a.data b.data ≤ 0) (r : ρ) (item : Mgitem)
    (hitem : item.data = (toRow r).bytes)
    (hk : k = (suBsearch (fun j => compare (comp item.data (tuplelist.getD j item).data) 0)
      tuplelist.length).2) :
    k ≤ tuplelist.length ∧
      (tuplelist.insertIdx k item).Pairwise fun a b => comp a.data b.data ≤ 0 := by
  have hget : ∀ j < tuplelist.length, ∃ s, (tuplelist.getD j item).data = (toRow s).bytes := by
    intro j hj
    rw [List.getD_eq_getElem tuplelist item hj]
    exact hrows _ (List.getElem_mem hj)
  have horder : ∀ i j, i ≤ j → j < tuplelist.length →
      comp (tuplelist.getD i item).data (tuplelist.getD j item).data ≤ 0 := by
    intro i j hij hj
    rcases Nat.lt_or_eq_of_le hij with hlt | rfl
    · rw [List.getD_eq_getElem tuplelist item (hlt.trans hj), List.getD_eq_getElem _ _ hj]
      exact List.pairwise_iff_getElem.mp hsorted i j (hlt.trans hj) hj hlt
    · obtain ⟨s, hs⟩ := hget i hj
      rw [hs]
      exact hc.refl_le s
  have hbetween := suBsearch_between
    (fun j => compare (comp item.data (tuplelist.getD j item).data) 0) tuplelist.length
    (fun i j hij hj hgt => ?_) fun i j hij hj hlt => ?_
  · rw [← hk] at hbetween
    obtain ⟨hle, hbefore, hbehind⟩ := hbetween
    refine ⟨hle, insertIdx_sorted hle hsorted (fun y hy => ?_) fun y hy => ?_⟩
    · obtain ⟨j, hj, rfl⟩ := List.mem_take_iff_getElem.mp hy
      have hlow := hbefore j (by omega)
      rw [List.getD_eq_getElem tuplelist item (by omega), Ne, compare_lt_iff_lt, not_lt] at hlow
      obtain ⟨s, hs⟩ := hrows tuplelist[j] (List.getElem_mem _)
      rw [hitem, hs] at hlow ⊢
      exact (hc.nonneg_iff r s).mp hlow
    · obtain ⟨j, hj, rfl⟩ := List.mem_drop_iff_getElem.mp hy
      have hhigh := hbehind (k + j) (Nat.le_add_right k j) (by omega)
      rw [List.getD_eq_getElem tuplelist item (by omega), Ne, compare_gt_iff_gt, not_lt] at hhigh
      exact hhigh
  · -- what is less than the key stays so to the left
    rw [compare_gt_iff_gt, ← not_le] at hgt ⊢
    obtain ⟨s, hs⟩ := hget i (hij.trans_lt hj)
    obtain ⟨t, ht⟩ := hget j hj
    have hle := horder i j hij hj
    rw [hs, ht] at hle
    rw [hitem, ht] at hgt
    rw [hitem, hs]
    exact fun h => hgt (hc.trans r s t h hle)
  · rw [compare_lt_iff_lt, ← not_le] at hlt ⊢
    obtain ⟨s, hs⟩ := hget i (hij.trans_lt hj)
    obtain ⟨t, ht⟩ := hget j hj
    have hle := horder i j hij hj
    rw [hs, ht] at hle
    rw [hitem, hs, hc.nonneg_iff] at hlt
    rw [hitem, ht, hc.nonneg_iff]
    exact fun h => hlt (hc.trans s t r hle h)

theorem ListsHeads.mgtlAdd (mg : XsMerge) (hc : ComparesPreorder (rowComp toRow comp))
    (hl : ListsHeads toRow comp mg.tuplelist pends) (hlen : pends.length = mg.readstreams.length)
    (hi : pends[i]? = some []) (r : ρ) (cur : List ρ) :
    ∃ l, mg.mgtlAdd comp (toRow r).bytes i = some { mg with tuplelist := l } ∧
      ListsHeads toRow comp l (pends.set i (r :: cur)) := by
  have hroom : mg.tuplelist.length < mg.readstreams.length := by
    rw [hl.perm.length_eq, ← hlen]
    exact headItems_length_lt 0 hi
  have hset := headItems_set toRow r cur 0 hi
  rw [Nat.zero_add] at hset
  rw [XsMerge.mgtlAdd, if_pos hroom]
  dsimp only
  split
  · rename_i hnil
    refine ⟨_, rfl, ?_, List.pairwise_singleton _ _⟩
    have hperm := hl.perm
    rw [hnil] at hperm
    exact (hperm.cons _).trans hset.symm
  · obtain ⟨hle, hsorted⟩ := suBsearch_sorted hc hl.ofRows hl.sorted r ⟨i, (toRow r).bytes⟩ rfl rfl
    exact ⟨_, rfl, (List.perm_insertIdx _ _ hle).trans ((hl.perm.cons _).trans hset.symm), hsorted⟩

theorem ListsHeads.addfromstream (mg : XsMerge) (hc : ComparesPreorder (rowComp toRow comp))
    (hl : ListsHeads toRow comp mg.tuplelist pends) (hlen : pends.length = mg.readstreams.length)
    (hi : pends[i]? = some []) (hst : mg.readstreams[i]? = some st)
    (hr : Reading toRow blocksize st cur later) :
    ∃ st' l, mg.mgtlAddfromstream comp i =
        some { mg with readstreams := mg.readstreams.set i st', tuplelist := l } ∧
      Feeds toRow blocksize st' cur later ∧ ListsHeads toRow comp l (pends.set i cur) := by
  rw [XsMerge.mgtlAddfromstream, hst]
  dsimp only [Option.bind_eq_bind, Option.bind_some]
  cases cur with
  | nil =>
      rw [hr.getnext_nil]
      refine ⟨{ st with status := sstaEor }, mg.tuplelist, rfl, .empty (hr.withStatus sstaEor) rfl,
        ?_⟩
      rw [set_same hi]
      exact hl
  | cons r cur =>
      obtain ⟨st', hnext, hr', hstatus⟩ := hr.getnext_cons
      rw [hnext]
      dsimp only [Option.bind_some]
      rw [hstatus]
      obtain ⟨l, hadd, hl'⟩ := ListsHeads.mgtlAdd { mg with
          readstreams := mg.readstreams.set i st' } hc hl (by rw [hlen, List.length_set]) hi r cur
      exact ⟨st', l, hadd, .row hr', hl'⟩

/-! ## Steps -/

variable {room : ℕ} {laters : List (List (List ρ))} {out : List (List ρ)} {rows : List ρ}

/-- The first item of the tuple list is a least one of the first rows. -/
theorem ListsHeads.least (hc : ComparesPreorder (rowComp toRow comp))
    (hl : ListsHeads toRow comp (item :: tuplelist) pends) :
    ∃ r cur, pends[item.streamIndex]? = some (r :: cur) ∧ item.data = (toRow r).bytes ∧
      (∀ p ∈ pends, ∀ s, p.head? = some s → ComparLe (rowComp toRow comp) r s) ∧
      ListsHeads toRow comp tuplelist (pends.set item.streamIndex []) := by
  obtain ⟨k, r, cur, hk, hitem⟩ := mem_headItems 0 (hl.perm.mem_iff.mp (List.mem_cons_self ..))
  rw [Nat.zero_add] at hitem
  subst hitem
  obtain ⟨hfirst, hrest⟩ := List.pairwise_cons.mp hl.sorted
  refine ⟨r, cur, hk, rfl, fun p hp s hs => ?_, ?_, hrest⟩
  · obtain ⟨j, hj⟩ := List.getElem?_of_mem hp
    cases p with
    | nil => cases hs
    | cons t p =>
        cases hs
        have hmem := hl.perm.mem_iff.mpr (headItems_mem toRow 0 hj)
        rcases List.mem_cons.mp hmem with heq | hmem
        · have hdata : (toRow s).bytes = (toRow r).bytes := (Mgitem.mk.inj heq).2
          rw [ComparLe, rowComp, hdata]
          exact hc.refl_le r
        · exact hfirst _ hmem
  · have hlt := (List.getElem?_eq_some_iff.mp hk).1
    have hset := headItems_set toRow r cur 0
      (List.getElem?_set_self (a := []) hlt)
    rw [List.set_set, set_same hk, Nat.zero_add] at hset
    exact (hl.perm.trans hset).cons_inv

theorem Merging.take (hc : ComparesPreorder (rowComp toRow comp))
    (hroom : room / blocksize < 2 ^ 32 - 1)
    (h : Merging toRow comp blocksize room mg pends laters out rows)
    (htuplelist : mg.tuplelist = item :: tuplelist) :
    ∃ writestream mg' pends' rows', mg.writestream.append item.data = some writestream ∧
      XsMerge.mgtlAddfromstream comp { mg with tuplelist := tuplelist, writestream := writestream }
        item.streamIndex = some mg' ∧
      mg'.stepsizerows = mg.stepsizerows ∧
      Merging toRow comp blocksize room mg' pends' laters out rows' ∧
      (rows' ++ pends'.flatten).Perm (rows ++ pends.flatten) ∧
      pends'.flatten.length < pends.flatten.length := by
  have hheads := h.heads
  rw [htuplelist] at hheads
  obtain ⟨r, cur, hpend, hdata, hleast, hrest⟩ := hheads.least hc
  have hlt := (List.getElem?_eq_some_iff.mp hpend).1
  obtain ⟨st, hst⟩ : ∃ st, mg.readstreams[item.streamIndex]? = some st :=
    ⟨_, List.getElem?_eq_getElem (h.pends_length ▸ hlt)⟩
  obtain ⟨later, hlater⟩ : ∃ later, laters[item.streamIndex]? = some later :=
    ⟨_, List.getElem?_eq_getElem (by rw [h.laters_length, ← h.pends_length]; exact hlt)⟩
  cases h.feeds _ _ _ _ hst hpend hlater with
  | row hr =>
      have hperm := taken_perm rows hpend
      have hsize := rowsSize_perm toRow hperm
      have hfits := h.fits
      rw [← hsize, rowsSize_append] at hfits
      obtain ⟨writestream, happend, hwriting⟩ := h.writing.append hroom
        (show _ + rowsSize toRow (rows ++ [r]) ≤ room by omega)
      obtain ⟨st', l, hadd, hfeeds, hl⟩ := ListsHeads.addfromstream
        { mg with tuplelist := tuplelist, writestream := writestream } hc hrest
        (by rw [List.length_set, h.pends_length]) (List.getElem?_set_self hlt) hst hr
      rw [List.set_set] at hl
      refine ⟨writestream, _, pends.set item.streamIndex cur, rows ++ [r], by rw [hdata, happend],
        hadd, rfl, ⟨h.running, ?_, ?_, ?_, hl, hwriting, ?_, ?_⟩, hperm, ?_⟩
      · rw [List.length_set, List.length_set, h.pends_length]
      · rw [List.length_set, h.laters_length]
      · intro j st₁ pend₁ later₁ hst₁ hpend₁ hlater₁
        rw [List.getElem?_set] at hst₁ hpend₁
        split at hst₁
        · rename_i heq
          subst heq
          rw [if_pos (h.pends_length ▸ hlt)] at hst₁
          rw [if_pos rfl, if_pos hlt] at hpend₁
          cases hst₁
          cases hpend₁
          cases hlater.symm.trans hlater₁
          exact hfeeds
        · rename_i hne
          rw [if_neg hne] at hpend₁
          exact h.feeds j st₁ pend₁ later₁ hst₁ hpend₁ hlater₁
      · exact h.merges.take (comparLe_trans hc) hpend hleast
      · rw [rowsSize_append]
        exact hfits
      · have hlength := hperm.length_eq
        rw [List.length_append, List.length_append, List.length_append, List.length_singleton]
          at hlength
        omega

theorem Merging.mergeLoop (hc : ComparesPreorder (rowComp toRow comp))
    (hroom : room / blocksize < 2 ^ 32 - 1)
    (h : Merging toRow comp blocksize room mg pends laters out rows) (fuel nBytes nRows : ℕ)
    (hfuel : mg.stepsizerows < fuel + nRows) (hrows : nRows ≤ mg.stepsizerows) :
    ∃ rc mg' pends' rows', XsMerge.mergeLoop comp fuel mg nBytes nRows = some (rc, mg') ∧
      Merging toRow comp blocksize room mg' pends' laters out rows' ∧
      (rows' ++ pends'.flatten).Perm (rows ++ pends.flatten) ∧
      (rc = mgsEor ∧ pends'.flatten = [] ∨
        rc = mgsRun ∧ pends'.flatten.length < pends.flatten.length) := by
  induction fuel generalizing mg pends rows nBytes nRows with
  | zero => omega
  | succ fuel ih =>
      rw [XsMerge.mergeLoop]
      cases htuplelist : mg.tuplelist with
      | nil =>
          have hperm := h.heads.perm
          rw [htuplelist] at hperm
          exact ⟨mgsEor, mg, pends, rows, rfl, h, List.Perm.refl _, .inl ⟨rfl, headItems_eq_nil 0
            hperm.nil_eq.symm⟩⟩
      | cons item tuplelist =>
          obtain ⟨writestream, mg', pends', rows', happend, hadd, hsize, h', hperm, hlength⟩ :=
            h.take hc hroom htuplelist
          dsimp only
          rw [happend]
          dsimp only [Option.bind_eq_bind, Option.bind_some]
          rw [hadd]
          dsimp only [Option.bind_some]
          split
          · exact ⟨mgsRun, mg', pends', rows', rfl, h', hperm, .inr ⟨rfl, hlength⟩⟩
          · rename_i hlimit
            rw [not_or, hsize] at hlimit
            obtain ⟨rc, mg₂, pends₂, rows₂, hloop, h₂, hperm₂, hcases⟩ :=
              ih h' (nBytes + item.data.length) (nRows + 1) (by omega) (by omega)
            refine ⟨rc, mg₂, pends₂, rows₂, hloop, h₂, hperm₂.trans hperm, ?_⟩
            exact hcases.imp_right fun hrun => ⟨hrun.1, hrun.2.trans hlength⟩

/-! ## The beginning of the runs -/

theorem headItems_replicate (i n : ℕ) : headItems toRow i (List.replicate n []) = [] := by
  induction n generalizing i with
  | zero => rfl
  | succ n ih => exact ih (i + 1)

def begun (runs : List (List ρ)) (k : ℕ) : List (List ρ) :=
  runs.take k ++ List.replicate (runs.length - k) []

theorem begun_length {runs : List (List ρ)} (hk : k ≤ runs.length) :
    (begun runs k).length = runs.length := by
  rw [begun, List.length_append, List.length_take, List.length_replicate]
  omega

theorem begun_succ {runs : List (List ρ)} (hk : k < runs.length) :
    (begun runs k)[k]? = some [] ∧ (begun runs k).set k runs[k] = begun runs (k + 1) := by
  have htake : (runs.take k).length = k := by
    rw [List.length_take]
    omega
  have hleft : runs.length - k = runs.length - (k + 1) + 1 := by omega
  rw [begun, begun, hleft, List.replicate_succ]
  constructor
  · rw [List.getElem?_append_right htake.le, htake, Nat.sub_self]
    rfl
  · rw [List.set_append_right _ _ htake.le, htake, Nat.sub_self, List.take_add_one,
      List.getElem?_eq_getElem hk, List.append_assoc]
    rfl

theorem initializeLoop_spec (hc : ComparesPreorder (rowComp toRow comp)) {runs : List (List ρ)}
    (htuplelist : mg.tuplelist = []) (hruns : runs.length = mg.readstreams.length)
    (hlaters : laters.length = mg.readstreams.length)
    (hreading : ∀ (i : ℕ) st run later, mg.readstreams[i]? = some st → runs[i]? = some run →
      laters[i]? = some later → Reading toRow blocksize st run later) (hk : k ≤ runs.length) :
    ∃ readstreams l, XsMerge.mgtlInitializeLoop comp mg (List.range k) =
        some { mg with readstreams := readstreams, tuplelist := l } ∧
      readstreams.length = mg.readstreams.length ∧
      (∀ i, k ≤ i → readstreams[i]? = mg.readstreams[i]?) ∧
      (∀ (i : ℕ) st run later, i < k → readstreams[i]? = some st → runs[i]? = some run →
        laters[i]? = some later → Feeds toRow blocksize st run later) ∧
      ListsHeads toRow comp l (begun runs k) := by
  induction k with
  | zero =>
      refine ⟨mg.readstreams, [], ?_, rfl, fun i _ => rfl, fun i _ _ _ hi => absurd hi (by omega),
        ?_, List.Pairwise.nil⟩
      · rw [← htuplelist]
        rfl
      · rw [begun, List.take_zero, List.nil_append, headItems_replicate]
  | succ k ih =>
      obtain ⟨readstreams, l, hloop, hlength, hsame, hfeeds, hl⟩ := ih (by omega)
      have hlt : k < mg.readstreams.length := by omega
      have hrun : runs[k]? = some runs[k] := List.getElem?_eq_getElem hk
      have hlater : laters[k]? = some (laters.get ⟨k, by omega⟩) := List.getElem?_eq_getElem _
      have hst : mg.readstreams[k]? = some mg.readstreams[k] := List.getElem?_eq_getElem hlt
      have hr := hreading k _ _ _ hst hrun hlater
      obtain ⟨hempty, hset⟩ := begun_succ hk
      obtain ⟨st', l', hadd, hfeeds', hl'⟩ := ListsHeads.addfromstream
        { mg with readstreams := readstreams, tuplelist := l } hc hl
        (by rw [begun_length (by omega), hruns, hlength]) hempty (by rw [hsame k le_rfl, hst]) hr
      rw [hset] at hl'
      refine ⟨readstreams.set k st', l', ?_, by rw [List.length_set, hlength], fun i hi => ?_,
        fun i st run later hi hst' hrun' hlater' => ?_, hl'⟩
      · rw [XsMerge.mgtlInitializeLoop, List.range_succ, List.foldlM_append,
          ← XsMerge.mgtlInitializeLoop, hloop]
        dsimp only [Option.bind_eq_bind, Option.bind_some]
        rw [List.foldlM_cons, hadd]
        rfl
      · rw [List.getElem?_set_ne (by omega), hsame i (by omega)]
      · rw [List.getElem?_set] at hst'
        split at hst'
        · rename_i heq
          subst heq
          rw [if_pos (by omega)] at hst'
          cases hst'
          cases hrun.symm.trans hrun'
          cases hlater.symm.trans hlater'
          exact hfeeds'
        · exact hfeeds i st run later (by omega) hst' hrun' hlater'

theorem initialize_merging (hc : ComparesPreorder (rowComp toRow comp)) {runs : List (List ρ)}
    (htuplelist : mg.tuplelist = []) (hruns : runs.length = mg.readstreams.length)
    (hlaters : laters.length = mg.readstreams.length)
    (hreading : ∀ (i : ℕ) st run later, mg.readstreams[i]? = some st → runs[i]? = some run →
      laters[i]? = some later → Reading toRow blocksize st run later)
    (hsorted : ∀ run ∈ runs, run.Pairwise (ComparLe (rowComp toRow comp)))
    (hwriting : Writing toRow blocksize mg.writestream out [])
    (hfits : rowsSize toRow out.flatten + (out.length + 1) + rowsSize toRow runs.flatten ≤ room) :
    ∃ mg', mg.mgtlInitialize comp = some mg' ∧
      Merging toRow comp blocksize room { mg' with status := mgsRun } runs laters out [] := by
  obtain ⟨readstreams, l, hloop, hlength, -, hfeeds, hl⟩ :=
    initializeLoop_spec hc htuplelist hruns hlaters hreading le_rfl
  rw [XsMerge.mgtlInitialize, if_pos htuplelist, ← hruns, hloop]
  refine ⟨_, rfl, rfl, ?_, ?_, fun i st run later hst hrun hlater => ?_, ?_, hwriting,
    Merges.start hsorted, hfits⟩
  · rw [hlength, hruns]
  · rw [hlength, hlaters]
  · exact hfeeds i st run later (List.getElem?_eq_some_iff.mp hrun).1 hst hrun hlater
  · rw [begun, List.take_length, Nat.sub_self, List.replicate_zero, List.append_nil] at hl
    exact hl

end

end SolidDB
