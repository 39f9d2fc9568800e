import SolidDB.Dbe.TrxbufSave

/-!
# Restoring the transaction buffer

At a restart the two lists are read. A record of the first list gives a transaction info
and the entry of its user id; a record of the second one gives the entry of a statement,
and a transaction info if its user id has none. What the buffer then has is determined by
the records, since no statement id is the user id of another transaction.
-/

namespace SolidDB

/-! ## The operations of the buffer -/

namespace TrxbufMem

def addstmt (tb : TrxbufMem) (stmttrxid i : ℕ) : TrxbufMem :=
  let index := tb.getbufslot stmttrxid
  { tb with
    tbTbslottable := Function.update tb.tbTbslottable index
      (⟨stmttrxid, i⟩ :: tb.tbTbslottable index) }

/-- `dbe_trxinfo_init` and the assignments after it. -/
def newinfo (tb : TrxbufMem) (ti : TrxinfoMem) : TrxbufMem :=
  { tb with
    tbInfos := Function.update tb.tbInfos tb.tbNinfos ti
    tbNinfos := tb.tbNinfos + 1 }

def modify (tb : TrxbufMem) (i : ℕ) (f : TrxinfoMem → TrxinfoMem) : TrxbufMem :=
  { tb with tbInfos := Function.update tb.tbInfos i (f (tb.tbInfos i)) }

def gettrxinfo (tb : TrxbufMem) (trxid : ℕ) : Option ℕ :=
  ((tb.tbTbslottable (tb.getbufslot trxid)).find? fun ts => ts.tsStmttrxid = trxid).map
    TrxstmtMem.tsTrxinfo

end TrxbufMem

def restoreTrx (tb : TrxbufMem) (r : ℕ × ℕ) : TrxbufMem :=
  let ti := { TrxinfoMem.initbuf.setcommitted with tiUsertrxid := r.1, tiCommittrxnum := r.2 }
  (tb.newinfo ti).addstmt r.1 tb.tbNinfos

def restoreStmt (tb : TrxbufMem) (r : ℕ × ℕ) : TrxbufMem :=
  match tb.gettrxinfo r.1 with
  | none =>
    let ti := { TrxinfoMem.initbuf with tiUsertrxid := r.1 }
    let tb' := (tb.newinfo ti.setunknown).addstmt r.1 tb.tbNinfos
    if r.1 ≠ r.2 then tb'.addstmt r.2 tb.tbNinfos else tb'
  | some i =>
    let tb' := tb.modify i TrxinfoMem.setunknown
    if r.1 ≠ r.2 then tb'.addstmt r.2 i else tb'

def dbeTrxbufRestore (fuel : ℕ) (file : TrxlFile) (tb : TrxbufMem)
    (trxlistdaddr stmttrxlistdaddr : ℕ) : Option TrxbufMem :=
  (trxliForeach file restoreTrx fuel (dbeTrxliInit file trxlistdaddr) tb).bind fun tb' =>
    trxliForeach file restoreStmt fuel (dbeTrxliInit file stmttrxlistdaddr) tb'

theorem dbeTrxbufRestore_mono {fuel fuel' : ℕ} {file : TrxlFile} {tb tb' : TrxbufMem}
    {trxlistdaddr stmttrxlistdaddr : ℕ} (hle : fuel ≤ fuel')
    (h : dbeTrxbufRestore fuel file tb trxlistdaddr stmttrxlistdaddr = some tb') :
    dbeTrxbufRestore fuel' file tb trxlistdaddr stmttrxlistdaddr = some tb' := by
  obtain ⟨tb₁, h₁, h₂⟩ := Option.bind_eq_some_iff.mp h
  refine Option.bind_eq_some_iff.mpr ⟨tb₁, ?_, ?_⟩
  · exact trxliForeach_mono hle h₁
  · exact trxliForeach_mono hle h₂

/-! ## The entries -/

namespace TrxbufMem

variable {tb : TrxbufMem} {ts ts' : TrxstmtMem} {s i trxid : ℕ} {f : TrxinfoMem → TrxinfoMem}
  {ti : TrxinfoMem}

/-- Every entry stands in the slot of its statement id, which has no other entry of it. -/
structure Placed (tb : TrxbufMem) : Prop where
  slot : ∀ i, ∀ ts ∈ tb.tbTbslottable i, tb.getbufslot ts.tsStmttrxid = i
  nodup : ∀ i, ((tb.tbTbslottable i).map TrxstmtMem.tsStmttrxid).Nodup

theorem Placed.mem_slot (h : tb.Placed) (hts : ts ∈ tb.entries) :
    ts ∈ tb.tbTbslottable (tb.getbufslot ts.tsStmttrxid) := by
  obtain ⟨i, _, hi⟩ := mem_entries.mp hts
  rw [h.slot i ts hi]
  exact hi

theorem Placed.eq_of_id (h : tb.Placed) (hts : ts ∈ tb.entries) (hts' : ts' ∈ tb.entries)
    (hid : ts.tsStmttrxid = ts'.tsStmttrxid) : ts = ts' := by
  have hslot := h.mem_slot hts
  rw [hid] at hslot
  exact List.inj_on_of_nodup_map (h.nodup _) hslot (h.mem_slot hts') hid

theorem Placed.nodup_entries (h : tb.Placed) :
    (tb.entries.map TrxstmtMem.tsStmttrxid).Nodup := by
  have hentries : tb.entries.Nodup := by
    rw [entries, List.nodup_flatMap]
    refine ⟨fun i _ => (h.nodup i).of_map _, ?_⟩
    refine List.nodup_range.imp fun {i j} hij => ?_
    intro ts hi hj
    exact hij ((h.slot i ts hi).symm.trans (h.slot j ts hj))
  exact hentries.map_on fun ts hts ts' hts' hid => h.eq_of_id hts hts' hid

theorem Placed.filter_eq (h : tb.Placed) (hts : ts ∈ tb.entries) :
    tb.entries.filter (fun ts' => ts'.tsStmttrxid = ts.tsStmttrxid) = [ts] := by
  have hnodup := h.nodup_entries
  generalize tb.entries = es at hnodup hts
  induction es with
  | nil => exact absurd hts List.not_mem_nil
  | cons e es ih =>
      have hcons := List.nodup_cons.mp (List.map_cons ▸ hnodup)
      rcases List.mem_cons.mp hts with rfl | hmem
      · rw [List.filter_cons_of_pos (by simp)]
        congr 1
        rw [List.filter_eq_nil_iff]
        intro e he hid
        exact hcons.1 (List.mem_map.mpr ⟨e, he, of_decide_eq_true hid⟩)
      · have hne : ¬ e.tsStmttrxid = ts.tsStmttrxid := fun hid =>
          hcons.1 (List.mem_map.mpr ⟨ts, hmem, hid.symm⟩)
        rw [List.filter_cons_of_neg (by simpa using hne)]
        exact ih hcons.2 hmem

theorem placed_init (tablesize : ℕ) (visall : Bool) : (init tablesize visall).Placed where
  slot := fun _ _ h => absurd h List.not_mem_nil
  nodup := fun _ => List.nodup_nil

theorem Placed.newinfo (h : tb.Placed) (ti : TrxinfoMem) : (tb.newinfo ti).Placed :=
  ⟨h.slot, h.nodup⟩

theorem Placed.modify (h : tb.Placed) (i : ℕ) (f : TrxinfoMem → TrxinfoMem) :
    (tb.modify i f).Placed :=
  ⟨h.slot, h.nodup⟩

theorem mem_entries_addstmt :
    ts ∈ (tb.addstmt s i).entries ↔ ts = ⟨s, i⟩ ∨ ts ∈ tb.entries := by
  simp only [mem_entries, addstmt]
  constructor
  · rintro ⟨j, hj, hts⟩
    by_cases hslot : j = tb.getbufslot s
    · rw [hslot, Function.update_self, List.mem_cons] at hts
      exact hts.imp_right fun h => ⟨_, tb.getbufslot_lt s, h⟩
    · rw [Function.update_of_ne hslot] at hts
      exact .inr ⟨j, hj, hts⟩
  · rintro (rfl | ⟨j, hj, hts⟩)
    · refine ⟨_, tb.getbufslot_lt s, ?_⟩
      rw [Function.update_self]
      exact List.mem_cons_self
    · refine ⟨j, hj, ?_⟩
      by_cases hslot : j = tb.getbufslot s
      · rw [hslot, Function.update_self]
        exact List.mem_cons_of_mem _ (hslot ▸ hts)
      · rw [Function.update_of_ne hslot]
        exact hts

theorem Placed.addstmt (h : tb.Placed) (hs : ∀ ts ∈ tb.entries, ts.tsStmttrxid ≠ s) (i : ℕ) :
    (tb.addstmt s i).Placed where
  slot := by
    intro j ts hts
    change tb.getbufslot ts.tsStmttrxid = j
    simp only [TrxbufMem.addstmt] at hts
    by_cases hslot : j = tb.getbufslot s
    · rw [hslot, Function.update_self] at hts
      rcases List.mem_cons.mp hts with rfl | hts
      · exact hslot.symm
      · rw [hslot]
        exact h.slot _ ts hts
    · rw [Function.update_of_ne hslot] at hts
      exact h.slot j ts hts
  nodup := by
    intro j
    simp only [TrxbufMem.addstmt]
    by_cases hslot : j = tb.getbufslot s
    · rw [hslot, Function.update_self, List.map_cons, List.nodup_cons]
      refine ⟨fun hmem => ?_, h.nodup _⟩
      obtain ⟨ts, hts, hid⟩ := List.mem_map.mp hmem
      exact hs ts (mem_entries.mpr ⟨_, tb.getbufslot_lt s, hts⟩) hid
    · rw [Function.update_of_ne hslot]
      exact h.nodup j

theorem Placed.gettrxinfo_of_mem (h : tb.Placed) (hts : ts ∈ tb.entries) :
    tb.gettrxinfo ts.tsStmttrxid = some ts.tsTrxinfo := by
  have hslot := h.mem_slot hts
  unfold gettrxinfo
  cases hfind : (tb.tbTbslottable (tb.getbufslot ts.tsStmttrxid)).find?
      (fun ts' => ts'.tsStmttrxid = ts.tsStmttrxid) with
  | none => exact absurd (decide_eq_true rfl) (List.find?_eq_none.mp hfind ts hslot)
  | some ts' =>
      have hid : ts'.tsStmttrxid = ts.tsStmttrxid := by simpa using List.find?_some hfind
      have hmem := List.mem_of_find?_eq_some hfind
      have heq : ts' = ts := List.inj_on_of_nodup_map (h.nodup _) hmem hslot hid
      rw [heq]
      rfl

theorem gettrxinfo_eq_none (h : ∀ ts ∈ tb.entries, ts.tsStmttrxid ≠ trxid) :
    tb.gettrxinfo trxid = none := by
  unfold gettrxinfo
  rw [Option.map_eq_none_iff, List.find?_eq_none]
  intro ts hts hid
  exact h ts (mem_entries.mpr ⟨_, tb.getbufslot_lt trxid, hts⟩) (of_decide_eq_true hid)

theorem info_newinfo_of_lt (h : ts.tsTrxinfo < tb.tbNinfos) (ti : TrxinfoMem) :
    (tb.newinfo ti).info ts = tb.info ts :=
  Function.update_of_ne h.ne _ _

end TrxbufMem

/-! ## What the records give -/

/-- The state of a restored transaction info: `trxs` has the committed transactions. -/
structure StateOf (trxs : List (ℕ × ℕ)) (ti : TrxinfoMem) : Prop where
  committed : ∀ n, (ti.tiUsertrxid, n) ∈ trxs →
    ti.getstate = trxstCommit ∧ ti.tiCommittrxnum = n
  begun : (∀ n, (ti.tiUsertrxid, n) ∉ trxs) → ti.getstate = trxstBegin

/-- The buffer is what the records `trxs` and `stmts` give, with entries for the user ids
`users`. -/
structure Restored (trxs stmts : List (ℕ × ℕ)) (users : List ℕ) (tb : TrxbufMem) : Prop where
  placed : tb.Placed
  places : ∀ ts ∈ tb.entries, ts.tsTrxinfo < tb.tbNinfos
  home : ∀ i < tb.tbNinfos, ⟨(tb.tbInfos i).tiUsertrxid, i⟩ ∈ tb.entries
  origin : ∀ ts ∈ tb.entries, (tb.info ts).tiUsertrxid ∈ users ∧
    (ts.tsStmttrxid = (tb.info ts).tiUsertrxid ∨
      ((tb.info ts).tiUsertrxid, ts.tsStmttrxid) ∈ stmts)
  states : ∀ i < tb.tbNinfos, StateOf trxs (tb.tbInfos i)
  has_user : ∀ u ∈ users, ∃ ts ∈ tb.entries, ts.tsStmttrxid = u
  has_stmt : ∀ p ∈ stmts, ∃ ts ∈ tb.entries, ts.tsStmttrxid = p.2 ∧
    (tb.info ts).tiUsertrxid = p.1

variable {trxs trxs' stmts : List (ℕ × ℕ)} {users : List ℕ} {tb : TrxbufMem} {u s i : ℕ}
  {ti : TrxinfoMem}

theorem restored_init (tablesize : ℕ) (visall : Bool) :
    Restored [] [] [] (TrxbufMem.init tablesize visall) where
  placed := TrxbufMem.placed_init tablesize visall
  places := by simp [TrxbufMem.entries, TrxbufMem.init]
  home := fun i hi => absurd hi (Nat.not_lt_zero i)
  origin := by simp [TrxbufMem.entries, TrxbufMem.init]
  states := fun i hi => absurd hi (Nat.not_lt_zero i)
  has_user := by simp
  has_stmt := by simp

theorem Restored.adduser (h : Restored trxs stmts users tb) (ti : TrxinfoMem)
    (hu : ∀ ts ∈ tb.entries, ts.tsStmttrxid ≠ ti.tiUsertrxid) (hstate : StateOf trxs' ti)
    (hsame : ∀ v, v ≠ ti.tiUsertrxid → ∀ n, (v, n) ∈ trxs' ↔ (v, n) ∈ trxs) :
    Restored trxs' stmts (users ++ [ti.tiUsertrxid])
      ((tb.newinfo ti).addstmt ti.tiUsertrxid tb.tbNinfos) := by
  have hinfo {ts : TrxstmtMem} (hts : ts ∈ tb.entries) :
      ((tb.newinfo ti).addstmt ti.tiUsertrxid tb.tbNinfos).info ts = tb.info ts :=
    TrxbufMem.info_newinfo_of_lt (h.places ts hts) ti
  have hnew : ((tb.newinfo ti).addstmt ti.tiUsertrxid tb.tbNinfos).info
      ⟨ti.tiUsertrxid, tb.tbNinfos⟩ = ti := Function.update_self _ _ _
  have hold {j : ℕ} (hj : j < tb.tbNinfos) :
      ((tb.newinfo ti).addstmt ti.tiUsertrxid tb.tbNinfos).tbInfos j = tb.tbInfos j :=
    Function.update_of_ne hj.ne _ _
  refine ⟨(h.placed.newinfo ti).addstmt hu _, fun ts hts => ?_, fun j hj => ?_, fun ts hts => ?_,
    fun j hj => ?_, fun v hv => ?_, fun p hp => ?_⟩
  · rcases TrxbufMem.mem_entries_addstmt.mp hts with rfl | hts
    · exact Nat.lt_succ_self _
    · exact (h.places ts hts).trans (Nat.lt_succ_self _)
  · rcases Nat.lt_succ_iff_lt_or_eq.mp hj with hj | rfl
    · rw [hold hj]
      exact TrxbufMem.mem_entries_addstmt.mpr (.inr (h.home j hj))
    · refine TrxbufMem.mem_entries_addstmt.mpr (.inl ?_)
      exact congrArg (fun x : TrxinfoMem => (⟨x.tiUsertrxid, tb.tbNinfos⟩ : TrxstmtMem)) hnew
  · rcases TrxbufMem.mem_entries_addstmt.mp hts with rfl | hts
    · rw [hnew]
      exact ⟨List.mem_append_right users List.mem_cons_self, .inl rfl⟩
    · rw [hinfo hts]
      exact ⟨List.mem_append_left _ (h.origin ts hts).1, (h.origin ts hts).2⟩
  · rcases Nat.lt_succ_iff_lt_or_eq.mp hj with hj | rfl
    · have hne : (tb.tbInfos j).tiUsertrxid ≠ ti.tiUsertrxid := hu _ (h.home j hj)
      rw [hold hj]
      refine ⟨fun n hn => (h.states j hj).committed n ((hsame _ hne n).mp hn), fun hn => ?_⟩
      exact (h.states j hj).begun fun n hmem => hn n ((hsame _ hne n).mpr hmem)
    · have heq : ((tb.newinfo ti).addstmt ti.tiUsertrxid tb.tbNinfos).tbInfos tb.tbNinfos = ti :=
        hnew
      rw [heq]
      exact hstate
  · rcases List.mem_append.mp hv with hv | hv
    · obtain ⟨ts, hts, hid⟩ := h.has_user v hv
      exact ⟨ts, TrxbufMem.mem_entries_addstmt.mpr (.inr hts), hid⟩
    · refine ⟨_, TrxbufMem.mem_entries_addstmt.mpr (.inl rfl), ?_⟩
      exact (List.mem_singleton.mp hv).symm
  · obtain ⟨ts, hts, hid, huser⟩ := h.has_stmt p hp
    refine ⟨ts, TrxbufMem.mem_entries_addstmt.mpr (.inr hts), hid, ?_⟩
    rw [hinfo hts]
    exact huser

theorem Restored.addstmt (h : Restored trxs stmts users tb) (hi : i < tb.tbNinfos)
    (hu : (tb.tbInfos i).tiUsertrxid = u) (hs : ∀ ts ∈ tb.entries, ts.tsStmttrxid ≠ s) :
    Restored trxs (stmts ++ [(u, s)]) users (tb.addstmt s i) := by
  refine ⟨h.placed.addstmt hs i, fun ts hts => ?_, fun j hj => ?_, fun ts hts => ?_,
    h.states, fun v hv => ?_, fun p hp => ?_⟩
  · rcases TrxbufMem.mem_entries_addstmt.mp hts with rfl | hts
    · exact hi
    · exact h.places ts hts
  · exact TrxbufMem.mem_entries_addstmt.mpr (.inr (h.home j hj))
  · rcases TrxbufMem.mem_entries_addstmt.mp hts with rfl | hts
    · refine ⟨(h.origin _ (h.home i hi)).1, .inr (List.mem_append_right stmts ?_)⟩
      change ((tb.tbInfos i).tiUsertrxid, s) ∈ [(u, s)]
      rw [hu]
      exact List.mem_cons_self
    · exact ⟨(h.origin ts hts).1, (h.origin ts hts).2.imp_right (List.mem_append_left _)⟩
  · obtain ⟨ts, hts, hid⟩ := h.has_user v hv
    exact ⟨ts, TrxbufMem.mem_entries_addstmt.mpr (.inr hts), hid⟩
  · rcases List.mem_append.mp hp with hp | hp
    · obtain ⟨ts, hts, hid, huser⟩ := h.has_stmt p hp
      exact ⟨ts, TrxbufMem.mem_entries_addstmt.mpr (.inr hts), hid, huser⟩
    · obtain rfl := List.mem_singleton.mp hp
      exact ⟨_, TrxbufMem.mem_entries_addstmt.mpr (.inl rfl), rfl, hu⟩

theorem Restored.addown (h : Restored trxs stmts users tb) (hi : i < tb.tbNinfos)
    (hu : (tb.tbInfos i).tiUsertrxid = u) : Restored trxs (stmts ++ [(u, u)]) users tb where
  placed := h.placed
  places := h.places
  home := h.home
  origin := fun ts hts =>
    ⟨(h.origin ts hts).1, (h.origin ts hts).2.imp_right (List.mem_append_left _)⟩
  states := h.states
  has_user := h.has_user
  has_stmt := fun p hp => by
    rcases List.mem_append.mp hp with hp | hp
    · exact h.has_stmt p hp
    · obtain rfl := List.mem_singleton.mp hp
      exact ⟨_, h.home i hi, hu, hu⟩

theorem Restored.setunknown (h : Restored trxs stmts users tb) (i : ℕ) :
    Restored trxs stmts users (tb.modify i TrxinfoMem.setunknown) := by
  have hsame (j : ℕ) :
      ((tb.modify i TrxinfoMem.setunknown).tbInfos j).tiUsertrxid = (tb.tbInfos j).tiUsertrxid ∧
      ((tb.modify i TrxinfoMem.setunknown).tbInfos j).getstate = (tb.tbInfos j).getstate ∧
      ((tb.modify i TrxinfoMem.setunknown).tbInfos j).tiCommittrxnum =
        (tb.tbInfos j).tiCommittrxnum := by
    by_cases hj : j = i
    · subst hj
      simp only [TrxbufMem.modify, Function.update_self]
      exact ⟨rfl, TrxinfoMem.getstate_orState _ _ rfl, rfl⟩
    · simp only [TrxbufMem.modify, Function.update_of_ne hj, and_self]
  have huser (j : ℕ) := (hsame j).1
  refine ⟨h.placed.modify i _, h.places, fun j hj => ?_, fun ts hts => ?_, fun j hj => ?_,
    h.has_user, fun p hp => ?_⟩
  · rw [huser]
    exact h.home j hj
  · change ((tb.modify i _).tbInfos ts.tsTrxinfo).tiUsertrxid ∈ users ∧
      (ts.tsStmttrxid = ((tb.modify i _).tbInfos ts.tsTrxinfo).tiUsertrxid ∨
        (((tb.modify i _).tbInfos ts.tsTrxinfo).tiUsertrxid, ts.tsStmttrxid) ∈ stmts)
    rw [huser]
    exact h.origin ts hts
  · refine ⟨fun n hn => ?_, fun hn => ?_⟩
    · rw [huser] at hn
      rw [(hsame j).2.1, (hsame j).2.2]
      exact (h.states j hj).committed n hn
    · rw [(hsame j).2.1]
      refine (h.states j hj).begun fun n hmem => hn n ?_
      rw [huser]
      exact hmem
  · obtain ⟨ts, hts, hid, hp⟩ := h.has_stmt p hp
    exact ⟨ts, hts, hid, (huser ts.tsTrxinfo).trans hp⟩

/-- Lists of records as a save leaves them: a transaction has one record, a statement
too, and no statement id is the user id of another transaction. -/
structure Restorable (trxs stmts : List (ℕ × ℕ)) : Prop where
  trxs_nodup : (trxs.map Prod.fst).Nodup
  stmts_nodup : (stmts.map Prod.snd).Nodup
  own : ∀ p ∈ stmts, p.2 ∈ trxs.map Prod.fst ∨ p.2 ∈ stmts.map Prod.fst → p.1 = p.2

theorem Restored.restoreTrx {r : ℕ × ℕ} (h : Restored trxs [] (trxs.map Prod.fst) tb)
    (hr : r.1 ∉ trxs.map Prod.fst) :
    Restored (trxs ++ [r]) [] ((trxs ++ [r]).map Prod.fst) (restoreTrx tb r) := by
  have hstate : trxstCommit &&& trxstBitmask = trxstCommit := by decide
  rw [List.map_append]
  refine h.adduser
    { TrxinfoMem.initbuf.setcommitted with tiUsertrxid := r.1, tiCommittrxnum := r.2 }
    (fun ts hts hid => ?_) ⟨fun n hn => ⟨hstate, ?_⟩, fun hn => ?_⟩ fun v hv n => ?_
  · change ts.tsStmttrxid = r.1 at hid
    rcases (h.origin ts hts).2 with heq | hmem
    · rw [← hid, heq] at hr
      exact hr (h.origin ts hts).1
    · exact absurd hmem List.not_mem_nil
  · rcases List.mem_append.mp hn with hn | hn
    · exact absurd (List.mem_map.mpr ⟨_, hn, rfl⟩) hr
    · exact (congrArg Prod.snd (List.mem_singleton.mp hn)).symm
  · exact absurd (List.mem_append_right trxs List.mem_cons_self) (hn r.2)
  · rw [List.mem_append, List.mem_singleton]
    refine or_iff_left fun e => hv ?_
    exact congrArg Prod.fst e

theorem Restored.foldl_restoreTrx (h : Restored trxs [] (trxs.map Prod.fst) tb)
    (rs : List (ℕ × ℕ)) (hnodup : ((trxs ++ rs).map Prod.fst).Nodup) :
    Restored (trxs ++ rs) [] ((trxs ++ rs).map Prod.fst) (rs.foldl SolidDB.restoreTrx tb) := by
  induction rs generalizing trxs tb with
  | nil =>
      rw [List.append_nil]
      exact h
  | cons r rs ih =>
      have hr : r.1 ∉ trxs.map Prod.fst := by
        rw [List.map_append, List.map_cons] at hnodup
        intro hmem
        exact (List.nodup_append.mp hnodup).2.2 _ hmem _ List.mem_cons_self rfl
      rw [List.append_cons] at hnodup ⊢
      exact ih (h.restoreTrx hr) hnodup

theorem Restored.stmt_fresh {r : ℕ × ℕ} (h : Restored trxs stmts users tb)
    (husers : ∀ v ∈ users, v ∈ trxs.map Prod.fst ∨ v ∈ stmts.map Prod.fst)
    (hr : Restorable trxs (stmts ++ [r])) (hne : r.1 ≠ r.2) :
    ∀ ts ∈ tb.entries, ts.tsStmttrxid ≠ r.2 := by
  intro ts hts hid
  have hrmem : r ∈ stmts ++ [r] := List.mem_append_right stmts List.mem_cons_self
  obtain ⟨huser, heq | hmem⟩ := h.origin ts hts
  · refine hne (hr.own r hrmem ?_)
    rw [← hid, heq]
    refine (husers _ huser).imp_right fun hin => ?_
    rw [List.map_append]
    exact List.mem_append_left _ hin
  · have hnodup := hr.stmts_nodup
    rw [List.map_append] at hnodup
    have hin : r.2 ∈ stmts.map Prod.snd := List.mem_map.mpr ⟨_, hmem, hid⟩
    exact (List.nodup_append.mp hnodup).2.2 _ hin _ List.mem_cons_self rfl

/-- The entry of a user id has the transaction info of the user. -/
theorem Restored.user_of_id {r : ℕ × ℕ} (h : Restored trxs stmts users tb)
    (hr : Restorable trxs (stmts ++ [r])) {ts : TrxstmtMem} (hts : ts ∈ tb.entries)
    (hid : ts.tsStmttrxid = r.1) : (tb.info ts).tiUsertrxid = r.1 := by
  rcases (h.origin ts hts).2 with heq | hmem
  · exact heq.symm.trans hid
  · have hown := hr.own _ (List.mem_append_left [r] hmem)
    refine (hown (.inr ?_)).trans hid
    refine List.mem_map.mpr ⟨r, List.mem_append_right stmts List.mem_cons_self, hid.symm⟩

theorem Restored.restoreStmt {r : ℕ × ℕ} (h : Restored trxs stmts users tb)
    (husers : ∀ v ∈ users, v ∈ trxs.map Prod.fst ∨ v ∈ stmts.map Prod.fst)
    (htrxs : trxs.map Prod.fst ⊆ users) (hr : Restorable trxs (stmts ++ [r])) :
    ∃ users', Restored trxs (stmts ++ [r]) users' (restoreStmt tb r) ∧
      (∀ v ∈ users', v ∈ trxs.map Prod.fst ∨ v ∈ (stmts ++ [r]).map Prod.fst) ∧
      trxs.map Prod.fst ⊆ users' := by
  have husers' : ∀ v ∈ users, v ∈ trxs.map Prod.fst ∨ v ∈ (stmts ++ [r]).map Prod.fst := by
    intro v hv
    refine (husers v hv).imp_right fun hin => ?_
    rw [List.map_append]
    exact List.mem_append_left _ hin
  by_cases hfind : ∃ ts ∈ tb.entries, ts.tsStmttrxid = r.1
  · -- the transaction info is there
    obtain ⟨ts, hts, hid⟩ := hfind
    have hget : tb.gettrxinfo r.1 = some ts.tsTrxinfo := by
      rw [← hid]
      exact h.placed.gettrxinfo_of_mem hts
    have h' := h.setunknown ts.tsTrxinfo
    have huser : ((tb.modify ts.tsTrxinfo TrxinfoMem.setunknown).tbInfos
        ts.tsTrxinfo).tiUsertrxid = r.1 := by
      simp only [TrxbufMem.modify, Function.update_self]
      exact h.user_of_id hr hts hid
    refine ⟨users, ?_, husers', htrxs⟩
    unfold SolidDB.restoreStmt
    simp only [hget]
    by_cases hne : r.1 ≠ r.2
    · rw [if_pos hne]
      exact h'.addstmt (h.places ts hts) huser (h.stmt_fresh husers hr hne)
    · rw [if_neg hne]
      have hr' : r = (r.1, r.1) := Prod.ext rfl (not_not.mp hne).symm
      rw [hr']
      exact h'.addown (h.places ts hts) huser
  · have hnone : ∀ ts ∈ tb.entries, ts.tsStmttrxid ≠ r.1 := fun ts hts hid =>
      hfind ⟨ts, hts, hid⟩
    have hnot : ∀ n, (r.1, n) ∉ trxs := by
      intro n hn
      obtain ⟨ts, hts, hid⟩ := h.has_user r.1 (htrxs (List.mem_map.mpr ⟨_, hn, rfl⟩))
      exact hnone ts hts hid
    have hstate : (trxstHsbUnknown ||| trxstBegin) &&& trxstBitmask = trxstBegin := by decide
    have h' := h.adduser
      (TrxinfoMem.setunknown { TrxinfoMem.initbuf with tiUsertrxid := r.1 }) hnone
      ⟨fun n hn => absurd hn (hnot n), fun _ => hstate⟩ fun v _ n => Iff.rfl
    have huser : (((tb.newinfo (TrxinfoMem.setunknown
        { TrxinfoMem.initbuf with tiUsertrxid := r.1 })).addstmt r.1 tb.tbNinfos).tbInfos
        tb.tbNinfos).tiUsertrxid = r.1 := by
      simp only [TrxbufMem.addstmt, TrxbufMem.newinfo, Function.update_self]
      rfl
    refine ⟨users ++ [r.1], ?_, fun v hv => ?_, fun v hv => List.mem_append_left _ (htrxs hv)⟩
    · unfold SolidDB.restoreStmt
      simp only [TrxbufMem.gettrxinfo_eq_none hnone]
      by_cases hne : r.1 ≠ r.2
      · rw [if_pos hne]
        refine h'.addstmt (Nat.lt_succ_self _) huser fun ts hts => ?_
        rcases TrxbufMem.mem_entries_addstmt.mp hts with rfl | hts
        · exact hne
        · exact h.stmt_fresh husers hr hne ts hts
      · rw [if_neg hne]
        have hr' : r = (r.1, r.1) := Prod.ext rfl (not_not.mp hne).symm
        rw [hr']
        exact h'.addown (Nat.lt_succ_self _) huser
    · rcases List.mem_append.mp hv with hv | hv
      · exact husers' v hv
      · rw [List.mem_singleton.mp hv, List.map_append]
        exact .inr (List.mem_append_right _ List.mem_cons_self)

theorem Restorable.of_append {rs : List (ℕ × ℕ)} (h : Restorable trxs (stmts ++ rs)) :
    Restorable trxs stmts where
  trxs_nodup := h.trxs_nodup
  stmts_nodup := by
    have hnodup := h.stmts_nodup
    rw [List.map_append] at hnodup
    exact (List.nodup_append.mp hnodup).1
  own := fun p hp hin => by
    refine h.own p (List.mem_append_left rs hp) (hin.imp_right fun hmem => ?_)
    rw [List.map_append]
    exact List.mem_append_left _ hmem

theorem Restored.foldl_restoreStmt (h : Restored trxs stmts users tb)
    (husers : ∀ v ∈ users, v ∈ trxs.map Prod.fst ∨ v ∈ stmts.map Prod.fst)
    (htrxs : trxs.map Prod.fst ⊆ users) (rs : List (ℕ × ℕ))
    (hr : Restorable trxs (stmts ++ rs)) :
    ∃ users', Restored trxs (stmts ++ rs) users' (rs.foldl SolidDB.restoreStmt tb) ∧
      (∀ v ∈ users', v ∈ trxs.map Prod.fst ∨ v ∈ (stmts ++ rs).map Prod.fst) ∧
      trxs.map Prod.fst ⊆ users' := by
  induction rs generalizing stmts users tb with
  | nil =>
      rw [List.append_nil]
      exact ⟨users, h, husers, htrxs⟩
  | cons r rs ih =>
      rw [List.append_cons] at hr ⊢
      obtain ⟨users', h', husers', htrxs'⟩ := h.restoreStmt husers htrxs hr.of_append
      exact ih h' husers' htrxs' hr

theorem restored_of_saved {file : TrxlFile} {daddr daddr' : ℕ} {bs bs' : List ℕ}
    (hr : Restorable trxs stmts) (htrxs : TrxlSaved file daddr trxs.reverse bs)
    (hbs : ∀ b ∈ bs, b ≠ 0) (hstmts : TrxlSaved file daddr' stmts.reverse bs')
    (hbs' : ∀ b ∈ bs', b ≠ 0) (tablesize : ℕ) (visall : Bool) :
    ∃ fuel₀ users tb, (∀ fuel ≥ fuel₀, dbeTrxbufRestore fuel file
        (TrxbufMem.init tablesize visall) daddr daddr' = some tb) ∧
      Restored trxs stmts users tb ∧
      ∀ v ∈ users, v ∈ trxs.map Prod.fst ∨ v ∈ stmts.map Prod.fst := by
  have h₁ := (restored_init tablesize visall).foldl_restoreTrx trxs
    (by rw [List.nil_append]; exact hr.trxs_nodup)
  rw [List.nil_append] at h₁
  obtain ⟨users, h₂, husers, -⟩ := h₁.foldl_restoreStmt (fun v hv => .inl hv) (fun v hv => hv)
    stmts (by rw [List.nil_append]; exact hr)
  rw [List.nil_append] at h₂ husers
  refine ⟨trxs.length + stmts.length + 2, users, _, fun fuel hfuel => ?_, h₂, husers⟩
  obtain ⟨k, hk⟩ := Nat.exists_eq_add_of_le hfuel
  have hfuel₁ : fuel = trxs.reverse.length + 2 + (stmts.length + k) := by
    rw [List.length_reverse]
    omega
  have hfuel₂ : fuel = stmts.reverse.length + 2 + (trxs.length + k) := by
    rw [List.length_reverse]
    omega
  unfold dbeTrxbufRestore
  rw [hfuel₁, htrxs.foreach hbs, Option.bind_some, ← hfuel₁, hfuel₂, hstmts.foreach hbs',
    List.reverse_reverse, List.reverse_reverse]

end SolidDB
