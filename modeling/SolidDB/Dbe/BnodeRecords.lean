import SolidDB.Dbe.Bkrs
import SolidDB.Dbe.BkeyRecompress

/-!
# The key records of a node

A node holds its keys in ascending order, each compressed against the one before it.
A record is expanded against any key between the one it was compressed against and
its own, and a search that is not misled stops at the first key that is not below the
one it looks for.
-/

namespace SolidDB

open FrontCoding

variable {base : ℕ}

/-- The records of a node that holds the keys `ks`. -/
def recordsOf (ks : List (KeyIn base)) : List (List UInt8) :=
  compressKeys ((ks.map Subtype.val).map Key.bytes)

def Ordered (ks : List (KeyIn base)) : Prop := ks.Pairwise fun x y => x.rank < y.rank

/-- No neighbouring keys of the node mislead a search for `q`. -/
def SearchClear (q : KeyIn base) (ks : List (KeyIn base)) : Prop :=
  ¬ MisleadingAt .all q.1 (ks.map Subtype.val)

/-! ## Records -/

@[simp] theorem length_recordsOf (ks : List (KeyIn base)) :
    (recordsOf ks).length = ks.length := by
  rw [recordsOf, compressKeys_map, List.length_map, length_frontCode, List.length_map]

theorem recordsOf_append_cons (lo : List (KeyIn base)) (x : KeyIn base)
    (hi : List (KeyIn base)) :
    (recordsOf (lo ++ x :: hi))[lo.length]? =
      some (storedBytes (x.1.stored (lastVtpl [] (lo.map Subtype.val)))) := by
  have hlen : ((frontCode [] ((lo.map Subtype.val).map Key.entry)).map storedBytes).length =
      lo.length := by
    rw [List.length_map, length_frontCode, List.length_map]
  rw [recordsOf, List.map_append, compressKeys_append, List.getElem?_append_right hlen.le,
    hlen, Nat.sub_self]
  rfl

theorem getElem?_recordsOf_of_le {ks : List (KeyIn base)} {i : ℕ} (h : ks.length ≤ i) :
    (recordsOf ks)[i]? = none := by
  rw [List.getElem?_eq_none_iff, length_recordsOf]
  exact h

theorem lastVtpl_concat (p : Fields) (ks : List Key) (k : Key) :
    lastVtpl p (ks ++ [k]) = k.vtpl := by
  induction ks generalizing p with
  | nil => rfl
  | cons k' ks ih => exact ih k'.vtpl

theorem lastVtpl_le {lo : List (KeyIn base)} {q : KeyIn base}
    (h : ∀ x ∈ lo, x.rank ≤ q.rank) : lastVtpl [] (lo.map Subtype.val) ≤ q.1.vtpl := by
  rcases List.eq_nil_or_concat' lo with rfl | ⟨lo', x, rfl⟩
  · exact FrontCoding.nil_le _
  · rw [List.map_append, List.map_singleton, lastVtpl_concat]
    exact Key.vtpl_le_of_rank_le (h x (by simp))

/-- A record is expanded against any full key between its predecessor and its own. -/
theorem dbeBkeyExpand_between {p : Fields} {q x : Key} (hp : p ≤ q.vtpl)
    (hx : q.vtpl ≤ x.vtpl) :
    dbeBkeyExpand q.bytes (storedBytes (x.stored p)) = some x.bytes := by
  have hle := tupleMismatch_le_of_le hp hx
  have hi : (x.stored p).index ≤ (tupleSyms q.vtpl).length :=
    hle.trans (tupleMismatch_le_left q.vtpl x.vtpl)
  have hexp := dbeBkeyExpand_storedBytes (h := q.header) (s := x.stored p) q.vtplFits
    (x.storedFits p) hi 0 [] []
  have hre : rejoin q.vtpl (x.stored p).index (x.stored p).rest = x.vtpl :=
    rejoin_residual x.vtpl_ne hle
  rw [hre, List.append_nil, List.append_nil] at hexp
  exact hexp

theorem expand_record {lo t : List (KeyIn base)} {q x : KeyIn base}
    (hlo : ∀ y ∈ lo, y.rank ≤ q.rank) (hx : q.rank ≤ x.rank) :
    ∃ ck, (recordsOf (lo ++ x :: t))[lo.length]? = some ck ∧
      dbeBkeyExpand q.1.bytes ck = some x.1.bytes :=
  ⟨_, recordsOf_append_cons lo x t,
    dbeBkeyExpand_between (lastVtpl_le hlo) (Key.vtpl_le_of_rank_le hx)⟩

theorem recordsOf_succ {ks : List (KeyIn base)} {i : ℕ} {p x : KeyIn base}
    (hp : ks[i]? = some p) (hx : ks[i + 1]? = some x) :
    (recordsOf ks)[i + 1]? = some (storedBytes (x.1.stored p.1.vtpl)) := by
  obtain ⟨hi, rfl⟩ := List.getElem?_eq_some_iff.mp hp
  obtain ⟨hi', rfl⟩ := List.getElem?_eq_some_iff.mp hx
  have hsplit : ks = (ks.take i ++ [ks[i]]) ++ ks[i + 1] :: ks.drop (i + 1 + 1) := by
    rw [← List.take_succ_eq_append_getElem hi, ← List.drop_eq_getElem_cons hi',
      List.take_append_drop]
  have hlen : (ks.take i ++ [ks[i]]).length = i + 1 := by
    rw [← List.take_succ_eq_append_getElem hi, List.length_take]
    omega
  have hlast : lastVtpl [] ((ks.take i ++ [ks[i]]).map Subtype.val) = ks[i].1.vtpl := by
    rw [List.map_append, List.map_singleton, lastVtpl_concat]
  have hrec := recordsOf_append_cons (ks.take i ++ [ks[i]]) ks[i + 1] (ks.drop (i + 1 + 1))
  rwa [← hsplit, hlen, hlast] at hrec

theorem expand_next_record {ks : List (KeyIn base)} {i : ℕ} {p x : KeyIn base}
    (hp : ks[i]? = some p) (hx : ks[i + 1]? = some x) :
    ∃ ck, (recordsOf ks)[i + 1]? = some ck ∧
      dbeBkeyExpand p.1.bytes ck = some x.1.bytes := by
  have hexp := dbeBkeyExpand_stored p.1 x.1 [] []
  rw [List.append_nil, List.append_nil] at hexp
  exact ⟨_, recordsOf_succ hp hx, hexp⟩

theorem recordsOf_zero (x : KeyIn base) (ks : List (KeyIn base)) :
    (recordsOf (x :: ks))[0]? = some x.1.bytes := by
  have hrec := recordsOf_append_cons [] x ks
  rw [List.length_nil, List.nil_append, List.map_nil, lastVtpl_nil, Key.stored_nil] at hrec
  exact hrec

/-! ## Searches -/

structure StopsAt (q : KeyIn base) (lo hi : List (KeyIn base)) (cmp : ℤ) : Prop where
  below : ∀ x ∈ lo, x.rank < q.rank
  above : ∀ x ∈ hi, q.rank ≤ x.rank
  pos : hi = [] → 0 < cmp
  nonpos : hi ≠ [] → cmp ≤ 0
  zero : ∀ x, hi.head? = some x → (cmp = 0 ↔ x.rank = q.rank)

theorem KeyIn.compare_zero_iff (k e : KeyIn base) :
    dbeBkeyCompare k.1.bytes e.1.bytes = 0 ↔ e.rank = k.rank := by
  rw [← signOf_eq_eq_iff, signOf_dbeBkeyCompare k.2 e.2, cmp_eq_eq_iff]
  exact eq_comm

theorem compareKeys_stopsAt (q : KeyIn base) {ks : List (KeyIn base)} (h : Ordered ks) :
    ∃ lo hi cmp, ks = lo ++ hi ∧
      compareKeys .all q.1.bytes ((ks.map Subtype.val).map Key.bytes) = (lo.length, cmp) ∧
      StopsAt q lo hi cmp := by
  induction ks with
  | nil =>
      refine ⟨[], [], 1, rfl, rfl, ?_⟩
      exact ⟨by simp, by simp, fun _ => Int.one_pos, fun h => absurd rfl h, by simp⟩
  | cons x ks ih =>
      obtain ⟨hx, hks⟩ := List.pairwise_cons.mp h
      have hle := KeyIn.compare_nonpos_iff q x
      have hzero := KeyIn.compare_zero_iff q x
      rw [dbeBkeyCompare] at hle hzero
      rw [List.map_cons, List.map_cons, compareKeys]
      by_cases hqx : q.rank ≤ x.rank
      · refine ⟨[], x :: ks, _, rfl, by rw [if_pos (hle.mpr hqx)]; rfl, ?_⟩
        refine ⟨by simp, ?_, fun h => absurd h (List.cons_ne_nil x ks),
          fun _ => hle.mpr hqx, ?_⟩
        · intro y hy
          rcases List.mem_cons.mp hy with rfl | hy
          · exact hqx
          · exact hqx.trans (hx y hy).le
        · intro y hy
          obtain rfl := Option.some.inj hy
          exact hzero
      · obtain ⟨lo, hi, cmp, rfl, heq, hstop⟩ := ih hks
        refine ⟨x :: lo, hi, cmp, rfl, by rw [if_neg (mt hle.mp hqx), heq]; rfl, ?_⟩
        exact { hstop with
          below := fun y hy => by
            rcases List.mem_cons.mp hy with rfl | hy
            · exact not_le.mp hqx
            · exact hstop.below y hy }

theorem Ordered.ascending {ks : List (KeyIn base)} (h : Ordered ks) :
    Ascending (ks.map Subtype.val) := by
  rw [Ascending, List.isChain_map]
  exact (h.imp fun hxy => (KeyIn.compare_neg_iff _ _).mpr hxy).isChain

/-- A search that is not misled stops where the scan does. -/
theorem searchKeys_stopsAt {q : KeyIn base} {ks : List (KeyIn base)} (h : Ordered ks)
    (hclear : SearchClear q ks) :
    ∃ lo hi cmp s, ks = lo ++ hi ∧
      dbeBkeySearchKeys (dbeBkeySearchInit q.1.bytes .all) (recordsOf ks) =
        (lo.length, cmp, s) ∧ StopsAt q lo hi cmp := by
  obtain ⟨lo, hi, cmp, hks, heq, hstop⟩ := compareKeys_stopsAt q h
  obtain ⟨hpos, hsign⟩ := (searchAgrees_iff .all q.1 h.ascending).mpr hclear
  rw [heq] at hpos hsign
  rw [← recordsOf] at hpos hsign
  rw [sign_eq_sign_iff] at hsign
  generalize dbeBkeySearchKeys (dbeBkeySearchInit q.1.bytes .all) (recordsOf ks) = r
    at hpos hsign
  obtain ⟨pos, c, s⟩ := r
  change pos = lo.length at hpos
  change signOf c = signOf cmp at hsign
  refine ⟨lo, hi, c, s, hks, by rw [hpos], ?_⟩
  refine ⟨hstop.below, hstop.above, ?_, ?_, ?_⟩
  · intro hnil
    rw [← signOf_eq_gt_iff, hsign, signOf_eq_gt_iff]
    exact hstop.pos hnil
  · intro hne
    rw [← not_lt, ← signOf_eq_gt_iff, hsign, signOf_eq_gt_iff, not_lt]
    exact hstop.nonpos hne
  · intro x hx
    rw [← hstop.zero x hx, ← signOf_eq_eq_iff, hsign, signOf_eq_eq_iff]

end SolidDB
