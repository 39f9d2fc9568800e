import SolidDB.Dbe.BnodeRsea

/-!
# Choosing the child of an index node

`dbe_bnode_rsea_nextnode` goes to the last child whose key is not above the begin key
of the step, `dbe_bnode_rsea_prevnode` to the last one whose key is below it. Both
leave the key behind the chosen one as the begin key of the next step.
-/

namespace SolidDB

variable {base : ℕ} {ks : List (KeyIn base)} {v : KrsView base} {krs : Bkrs}

def Key.addr (k : Key) : ℕ := uint4Load k.header.longs

def HasAddrs (ks : List (KeyIn base)) : Prop := ∀ x ∈ ks, 4 ≤ x.1.header.longs.length

/-- `dbe_dynbkey_expand` has room for every key expanded against the one before it. -/
def RoomToExpand (ks : List (KeyIn base)) : Prop :=
  ks.IsChain fun p n => ¬ AllocsizeShort p.1 n.1

instance (ks : List (KeyIn base)) : Decidable (HasAddrs ks) :=
  inferInstanceAs (Decidable (∀ x ∈ ks, _))

instance (ks : List (KeyIn base)) : Decidable (RoomToExpand ks) :=
  inferInstanceAs (Decidable (List.IsChain _ _))

def KrsView.setNextOf (v : KrsView base) : Option (KeyIn base) → KrsView base
  | some n => v.setNext n
  | none => v

theorem dbeBkeyGetaddr_storedBytes {s : StoredKey} (h : 4 ≤ s.tag.longs.length) :
    dbeBkeyGetaddr (storedBytes s) = uint4Load s.tag.longs := by
  change uint4Load (s.tag.longs ++ encVtpl s.rest) = _
  exact uint4Load_append h _

theorem dbeBkeyGetaddr_bytes {k : Key} (h : 4 ≤ k.header.longs.length) :
    dbeBkeyGetaddr k.bytes = k.addr := dbeBkeyGetaddr_storedBytes h

theorem getaddr_record (lo hi : List (KeyIn base)) {c : KeyIn base}
    (h : 4 ≤ c.1.header.longs.length) :
    ∃ ck, (recordsOf (lo ++ c :: hi))[lo.length]? = some ck ∧
      dbeBkeyGetaddr ck = c.1.addr :=
  ⟨_, recordsOf_append_cons lo c hi, dbeBkeyGetaddr_storedBytes h⟩

/-! ## The next node -/

/-- The child is chosen, and the step is left with the view `w`. -/
def Chooses (r : Option (ℕ × Bkrs)) (c : KeyIn base) (w : KrsView base) : Prop :=
  ∃ krs', r = some (c.1.addr, krs') ∧ krs'.Shows w

/-- The end of `dbe_bnode_rsea_nextnode`, after the next begin key is set. -/
theorem chooses_of_position (lo : List (KeyIn base)) {c : KeyIn base}
    (hi : List (KeyIn base)) {krs? : Option Bkrs} (haddr : 4 ≤ c.1.header.longs.length)
    (hkrs : ∃ krs', krs? = some krs' ∧ krs'.Shows v) :
    Chooses (krs?.bind fun krs => (recordsOf (lo ++ c :: hi))[lo.length]?.map fun k =>
      (dbeBkeyGetaddr k, dbeBkrsSetprevstepbegin krs krs.krsKcb)) c (v.setPrev v.kcb) := by
  obtain ⟨krs', rfl, hshows⟩ := hkrs
  obtain ⟨ck, hck, hget⟩ := getaddr_record lo hi haddr
  refine ⟨dbeBkrsSetprevstepbegin krs' krs'.krsKcb, ?_, ?_⟩
  · rw [Option.bind_some, hck, Option.map_some, hget]
  · rw [hshows.kcb]
    exact hshows.setprevstepbegin v.kcb

theorem KrsView.setPrev_setNextOf (v : KrsView base) (n : Option (KeyIn base)) :
    (v.setNextOf n).setPrev v.kcb = (v.setNextOf n).setPrev (v.setNextOf n).kcb := by
  cases n <;> rfl

theorem setnext_second {c : KeyIn base} {hi : List (KeyIn base)} (hshows : krs.Shows v)
    (hroom : RoomToExpand (c :: hi)) :
    ∃ krs', (if 1 < hi.length + 1 then
        (recordsOf (c :: hi))[0]?.bind fun k => (recordsOf (c :: hi))[1]?.bind fun nextKey =>
          (dbeDynbkeyExpand k nextKey).map (dbeBkrsSetnextstepbeginFk krs)
      else some krs) = some krs' ∧ krs'.Shows (v.setNextOf hi.head?) := by
  cases hi with
  | nil => exact ⟨krs, rfl, hshows⟩
  | cons n hi =>
      have hrec := recordsOf_append_cons [c] n hi
      have hroom' := (List.isChain_cons_cons.mp hroom).1
      have hexp := dbeDynbkeyExpand_stored hroom'
      rw [if_pos (by simp), recordsOf_zero, Option.bind_some]
      change (recordsOf (c :: n :: hi))[1]? = _ at hrec
      rw [hrec, Option.bind_some]
      change ∃ krs', (dbeDynbkeyExpand c.1.bytes (storedBytes (n.1.stored c.1.vtpl))).map _ =
        some krs' ∧ _
      rw [hexp, Option.map_some]
      exact ⟨_, rfl, hshows.setnextstepbeginFk n⟩

/-- `dbe_bnode_rsea_nextnode` chooses the last child whose key is not above the begin
key, or the first child where there is none. -/
theorem dbeBnodeRseaNextnode_spec (hne : ks ≠ []) (hshows : krs.Shows v)
    (hsort : Ordered ks) (hclear : SearchClear v.kcb ks) (haddrs : HasAddrs ks)
    (hroom : RoomToExpand ks) :
    ∃ lo c hi, ks = lo ++ c :: hi ∧ (c.rank ≤ v.kcb.rank ∨ lo = []) ∧
      (∀ x ∈ hi, v.kcb.rank < x.rank) ∧
      Chooses (dbeBnodeRseaNextnode (recordsOf ks) krs) c
        ((v.setNextOf hi.head?).setPrev v.kcb) := by
  obtain ⟨lo, hi, cmp, st, hks, hsearch, hstop⟩ := searchKeys_stopsAt hsort hclear
  have hlen : (recordsOf ks).length = lo.length + hi.length := by
    rw [length_recordsOf, hks, List.length_append]
  have hlt {x : KeyIn base} (hx : x ∈ lo) : x.rank ≤ v.kcb.rank := (hstop.below x hx).le
  unfold dbeBnodeRseaNextnode
  rw [hshows.kcb, hsearch]
  simp only [hlen]
  rcases List.eq_nil_or_concat' lo with rfl | ⟨lo', c, rfl⟩
  · -- the begin key is not above the first key
    cases hi with
    | nil => exact absurd hks hne
    | cons c hi =>
        rw [List.nil_append] at hks
        subst hks
        refine ⟨[], c, hi, rfl, Or.inr rfl, ?_, ?_⟩
        · intro x hx
          exact (hstop.above c List.mem_cons_self).trans_lt
            ((List.pairwise_cons.mp hsort).1 x hx)
        · simp only [List.length_nil, List.length_cons, Nat.zero_add, not_true_eq_false,
            false_and, if_false, if_true]
          have hsecond := setnext_second hshows hroom
          rw [KrsView.setPrev_setNextOf]
          apply chooses_of_position [] hi (haddrs c List.mem_cons_self)
          by_cases hmore : 1 < hi.length + 1 ∨ 1 = hi.length + 1 ∧ cmp < 0
          · rw [if_pos hmore]
            exact hsecond
          · have hnil : hi = [] := List.length_eq_zero_iff.mp (by omega)
            rw [if_neg hmore, hnil]
            exact ⟨krs, rfl, hshows⟩
  · have hpos : ¬ (lo' ++ [c]).length = 0 := by simp
    have hc : c.rank ≤ v.kcb.rank := hlt (by simp)
    have haddr : 4 ≤ c.1.header.longs.length := haddrs c (by rw [hks]; simp)
    have hprev : (lo' ++ [c]).length - 1 = lo'.length := by simp
    rw [List.append_assoc, List.singleton_append] at hks
    cases hi with
    | nil =>
        -- the begin key is above all keys
        refine ⟨lo', c, [], hks, Or.inl hc, by simp, ?_⟩
        have hback : ¬ (lo' ++ [c]).length = 0 ∧
            (cmp < 0 ∨ (lo' ++ [c]).length =
              (lo' ++ [c]).length + ([] : List (KeyIn base)).length) :=
          ⟨hpos, Or.inr rfl⟩
        rw [if_neg (by simp), if_pos hback, hprev, KrsView.setPrev_setNextOf, hks]
        exact chooses_of_position lo' [] haddr ⟨krs, rfl, hshows⟩
    | cons x hi =>
        have hxhi : ∀ y ∈ hi, x.rank < y.rank := by
          rw [hks] at hsort
          have htail := (List.pairwise_append.mp hsort).2.1
          exact (List.pairwise_cons.mp (List.pairwise_cons.mp htail).2).1
        by_cases hzero : cmp = 0
        · have hx := (hstop.zero x rfl).mp hzero
          have hks' : ks = (lo' ++ [c]) ++ x :: hi := by rw [hks, List.append_assoc]; rfl
          refine ⟨lo' ++ [c], x, hi, hks', Or.inl hx.le, fun y hy => hx ▸ hxhi y hy, ?_⟩
          have hback : ¬ (¬ (lo' ++ [c]).length = 0 ∧ (cmp < 0 ∨ (lo' ++ [c]).length =
              (lo' ++ [c]).length + (x :: hi).length)) := by
            rintro ⟨-, hlt0 | hlen0⟩
            · exact absurd hzero hlt0.ne
            · rw [List.length_cons] at hlen0
              omega
          rw [if_neg hback, if_neg hpos, if_pos hzero, KrsView.setPrev_setNextOf, hks']
          apply chooses_of_position (lo' ++ [c]) hi (haddrs x (by rw [hks]; simp))
          cases hi with
          | nil =>
              rw [if_neg (by simp [hzero])]
              exact ⟨krs, rfl, hshows⟩
          | cons y hi =>
              have hle : ∀ z ∈ (lo' ++ [c]) ++ [x], z.rank ≤ v.kcb.rank := by
                intro z hz
                rcases List.mem_append.mp hz with hz | hz
                · exact hlt hz
                · exact (List.mem_singleton.mp hz ▸ hx).le
              obtain ⟨ck, hck, hexp⟩ := expand_record (t := hi) hle
                (hstop.above y (by simp))
              rw [List.length_append, List.append_assoc, List.singleton_append] at hck
              rw [if_pos (by simp)]
              change ∃ krs', ((recordsOf (lo' ++ [c] ++ x :: y :: hi))[
                (lo' ++ [c]).length + [x].length]?.bind _) = some krs' ∧ _
              rw [hck, Option.bind_some]
              exact hshows.setnextstepbegin hexp
        · have hneg : cmp < 0 := lt_of_le_of_ne (hstop.nonpos (List.cons_ne_nil x hi)) hzero
          have hx := (hstop.above x List.mem_cons_self).lt_of_ne
            fun heq => hzero ((hstop.zero x rfl).mpr heq.symm)
          refine ⟨lo', c, x :: hi, hks, Or.inl hc, ?_, ?_⟩
          · intro y hy
            rcases List.mem_cons.mp hy with rfl | hy
            · exact hx
            · exact hx.trans (hxhi y hy)
          · have hmore : (lo' ++ [c]).length + 1 < (lo' ++ [c]).length + (x :: hi).length ∨
                (lo' ++ [c]).length + 1 = (lo' ++ [c]).length + (x :: hi).length ∧ cmp < 0 := by
              rw [List.length_cons]
              omega
            rw [if_pos hmore, if_neg hpos, if_neg hzero, if_pos ⟨hpos, Or.inl hneg⟩,
              hprev, KrsView.setPrev_setNextOf]
            obtain ⟨ck, hck, hexp⟩ := expand_record (t := hi) (fun z hz => hlt hz) hx.le
            rw [List.append_assoc, List.singleton_append, ← hks] at hck
            rw [hck, Option.bind_some, hks]
            exact chooses_of_position lo' (x :: hi) haddr (hshows.setnextstepbegin hexp)

/-! ## The previous node -/

theorem dbeBkeyExpandSelf_bytes (k : Key) : dbeBkeyExpandSelf k.bytes k.bytes = some k.bytes := by
  have hexp := dbeBkeyExpand_between (FrontCoding.nil_le k.vtpl) (le_refl k.vtpl)
  rw [Key.stored_nil] at hexp
  rw [dbeBkeyExpandSelf, if_neg (fun h => h rfl)]
  exact hexp

def expandAll : List UInt8 → List (List UInt8) → Option (List UInt8)
  | k, [] => some k
  | k, ck :: cks => (dbeBkeyExpandSelf k ck).bind fun k => expandAll k cks

/-- The loop expands the records that the search passes. -/
theorem rseaPrevnodeLoop_eq (st : DbeBkeySearch) (k : List UInt8) (cks : List (List UInt8)) :
    rseaPrevnodeLoop st k cks =
      (expandAll k (cks.take (dbeBkeySearchKeys st cks).1)).map fun k =>
        (k, cks[(dbeBkeySearchKeys st cks).1]?) := by
  induction cks generalizing st k with
  | nil => rfl
  | cons ck cks ih =>
      rw [dbeBkeySearchKeys_cons, rseaPrevnodeLoop]
      by_cases hle : (dbeBkeySearchStep st ck).1 ≤ 0
      · rw [if_pos hle]
        simp only [hle, if_true]
        rfl
      · rw [if_neg hle]
        simp only [hle, if_false, List.take_succ_cons, expandAll, List.getElem?_cons_succ, ih]
        cases dbeBkeyExpandSelf k ck with
        | none => rfl
        | some k' => rfl

theorem expandAll_frontCode {p : Key} {ks : List Key}
    (h : (p :: ks).IsChain fun p n => ¬ AllocsizeShort p n) :
    expandAll p.bytes ((FrontCoding.frontCode p.vtpl (ks.map Key.entry)).map storedBytes) =
      some ((p :: ks).getLast (List.cons_ne_nil p ks)).bytes := by
  induction ks generalizing p with
  | nil => rfl
  | cons n ks ih =>
      obtain ⟨hpn, htail⟩ := List.isChain_cons_cons.mp h
      rw [List.map_cons, FrontCoding.frontCode, List.map_cons, expandAll]
      change (dbeBkeyExpandSelf p.bytes (storedBytes (n.stored p.vtpl))).bind _ = _
      rw [dbeBkeyExpandSelf_stored (Or.inr hpn), Option.bind_some, List.getLast_cons_cons]
      exact ih htail

theorem expandAll_records {lo hi : List (KeyIn base)} {f c : KeyIn base}
    (hfirst : (lo ++ [c]).head? = some f) (hroom : RoomToExpand (lo ++ c :: hi)) :
    expandAll f.1.bytes ((recordsOf (lo ++ c :: hi)).take (lo.length + 1)) =
      some c.1.bytes := by
  obtain ⟨t, ht⟩ : ∃ t, lo ++ [c] = f :: t := by
    cases hlo : lo ++ [c] with
    | nil => simp at hlo
    | cons f' t =>
        rw [hlo] at hfirst
        obtain rfl := Option.some.inj hfirst
        exact ⟨t, rfl⟩
  have hsplit : lo ++ c :: hi = (lo ++ [c]) ++ hi := by rw [List.append_assoc]; rfl
  have htake := take_compressKeys ((lo ++ [c]).map Subtype.val) (hi.map Subtype.val)
  rw [← List.map_append, ← hsplit, ← recordsOf, List.length_map, List.length_append,
    List.length_singleton] at htake
  rw [htake, ht]
  have hchain : ((f :: t).map Subtype.val).IsChain fun p n => ¬ AllocsizeShort p n := by
    rw [List.isChain_map, ← ht]
    rw [hsplit] at hroom
    exact hroom.left_of_append
  have hstored : storedBytes (FrontCoding.store [] f.1.entry) = f.1.bytes := by
    change storedBytes (f.1.stored []) = _
    rw [Key.stored_nil]
    rfl
  rw [List.map_cons, List.map_cons, FrontCoding.frontCode, List.map_cons, hstored, expandAll,
    dbeBkeyExpandSelf_bytes, Option.bind_some]
  change expandAll f.1.bytes ((FrontCoding.frontCode f.1.vtpl _).map storedBytes) = _
  rw [expandAll_frontCode hchain]
  have hlast : ((f :: t).map Subtype.val).getLast? = some c.1 := by
    rw [← ht, List.map_append, List.map_singleton, List.getLast?_concat]
  rw [List.getLast?_eq_some_getLast (by simp)] at hlast
  rw [← Option.some.inj hlast]
  rfl

theorem KrsView.setNextOf_setPrev (v : KrsView base) (n : Option (KeyIn base))
    (k : KeyIn base) : (v.setPrev k).setNextOf n = (v.setNextOf n).setPrev k := by
  cases n <;> rfl

/-- `dbe_bnode_rsea_prevnode` chooses the last child whose key is below the begin key. -/
theorem dbeBnodeRseaPrevnode_spec {f : KeyIn base} (hfirst : ks.head? = some f)
    (hf : f.rank < v.kcb.rank) (hshows : krs.Shows v) (hsort : Ordered ks)
    (hclear : SearchClear v.kcb ks) (haddrs : HasAddrs ks) (hroom : RoomToExpand ks) :
    ∃ lo c hi, ks = lo ++ c :: hi ∧ c.rank < v.kcb.rank ∧
      (∀ x ∈ hi, v.kcb.rank ≤ x.rank) ∧
      Chooses (dbeBnodeRseaPrevnode (recordsOf ks) krs) c
        ((v.setNextOf hi.head?).setPrev c) := by
  obtain ⟨lo, hi, cmp, st, hks, hsearch, hstop⟩ := searchKeys_stopsAt hsort hclear
  rcases List.eq_nil_or_concat' lo with rfl | ⟨lo', c, rfl⟩
  · -- the first key is passed
    rw [List.nil_append] at hks
    rw [hks] at hfirst
    have hmem : f ∈ hi := List.mem_of_head? hfirst
    exact absurd (hstop.above f hmem) (not_le.mpr hf)
  · have hsplit : lo' ++ [c] ++ hi = lo' ++ c :: hi := by rw [List.append_assoc]; rfl
    have hfirst' : (lo' ++ [c]).head? = some f := by
      rw [hks] at hfirst
      cases lo' <;> exact hfirst
    rw [hsplit] at hks
    have haddr : 4 ≤ c.1.header.longs.length := haddrs c (by rw [hks]; simp)
    refine ⟨lo', c, hi, hks, hstop.below c (by simp), hstop.above, ?_⟩
    have hzero : (recordsOf ks)[0]? = some f.1.bytes := by
      obtain ⟨t, rfl⟩ : ∃ t, ks = f :: t := by
        cases ks with
        | nil => exact absurd hfirst.symm (Option.some_ne_none f)
        | cons f' t =>
            obtain rfl := Option.some.inj hfirst
            exact ⟨t, rfl⟩
      exact recordsOf_zero f t
    have hloop := rseaPrevnodeLoop_eq (dbeBkeySearchInit v.kcb.1.bytes .all) f.1.bytes
      (recordsOf ks)
    rw [hsearch, List.length_append, List.length_singleton] at hloop
    have hall := expandAll_records hfirst' (hks ▸ hroom)
    rw [← hks] at hall
    rw [hall, Option.map_some] at hloop
    have hprev := hshows.setprevstepbegin c
    unfold dbeBnodeRseaPrevnode
    rw [hzero, Option.bind_some, hshows.kcb, hloop, Option.bind_some]
    simp only [dbeBkeyGetaddr_bytes haddr]
    rw [← KrsView.setNextOf_setPrev]
    cases hi with
    | nil =>
        have hnone : (recordsOf ks)[lo'.length + 1]? = none := by
          apply getElem?_recordsOf_of_le
          rw [hks, List.length_append, List.length_singleton]
        simp only [hnone]
        exact ⟨_, rfl, hprev⟩
    | cons n hi =>
        have hc : (ks)[lo'.length]? = some c := by
          rw [hks, List.getElem?_append_right (le_refl _), Nat.sub_self]
          rfl
        have hrec := recordsOf_append_cons (lo' ++ [c]) n hi
        rw [List.append_assoc, List.singleton_append, ← hks, List.length_append,
          List.length_singleton, List.map_append, List.map_singleton, lastVtpl_concat] at hrec
        have hcn : ¬ AllocsizeShort c.1 n.1 := by
          rw [hks] at hroom
          exact (List.isChain_cons_cons.mp hroom.right_of_append).1
        simp only [hrec, dbeBkeyExpandSelf_stored (Or.inr hcn), Option.map_some]
        exact ⟨_, rfl, hprev.setnextstepbeginFk n⟩

end SolidDB
