import SolidDB.Xs.StreamRows

/-!
# Scrolling is a list cursor

In each cursor state the position of the file stands for a place in the list of rows. Where the
direction changes, the row that was read last is read once more.
-/

namespace SolidDB

open XsStreamstatus XsCursorstatus

variable {file : TfFile} {pre post : List StreamItem} {st : XsStream} {k : ℕ}

def streamAnswer : CursorAnswer SortRow → XsStreamstatus × Option (List UInt8)
  | .row r => (sstaRun, some r.bytes)
  | .beforeFirst => (sstaBos, none)
  | .afterLast => (sstaEos, none)
  | .ready => (sstaRun, none)

def CursorPlace (pre post : List StreamItem) (k : ℕ) : XsCursorstatus → Prop
  | scstaBegin => itemRows pre = [] ∧ k = 0
  | scstaFwd => k = (itemRows pre).length ∧ ∃ pre' r, pre = pre' ++ [.row r]
  | scstaBkw => k = (itemRows pre).length + 1 ∧ ∃ r post', post = .row r :: post'
  | scstaEnd => post = [] ∧ (itemRows pre = [] ∨ k = (itemRows pre).length + 1)
  | _ => False

def AtPlace (file : TfFile) (items : List StreamItem) (k : ℕ) (st : XsStream) : Prop :=
  ∃ pre post, items = pre ++ post ∧ Between file pre post st.tf ∧
    CursorPlace pre post k st.cursstat

namespace XsStream

/-! ## Forward -/

def StepsToEnd (file : TfFile) (pre post : List StreamItem) (st : XsStream) : Prop :=
  itemRows post = [] ∧ ∃ st', st.getnextForward = some (none, st') ∧ st'.status = sstaEos ∧
    st'.cursstat = scstaEnd ∧ Between file (pre ++ post) [] st'.tf

def StepsToRow (file : TfFile) (pre post : List StreamItem) (st : XsStream) : Prop :=
  ∃ r rows st' pre' post', itemRows post = r :: rows ∧
    st.getnextForward = some (some r.bytes, st') ∧ st'.status = sstaRun ∧
    st'.cursstat = scstaFwd ∧ pre' ++ .row r :: post' = pre ++ post ∧
    itemRows pre' = itemRows pre ∧ Between file (pre' ++ [.row r]) post' st'.tf

theorem getnextForward_between (st : XsStream) (h : Between file pre post st.tf)
    (hcurs : st.cursstat ≠ scstaNocur) :
    StepsToEnd file pre post st ∨ StepsToRow file pre post st := by
  obtain ⟨st', pre', post', heq, h', hpre, hitems, hcase⟩ := readandsetstatus_between st h hcurs
  have hrows := congrArg itemRows hitems
  rw [itemRows_append, itemRows_append, hpre] at hrows
  have hpost := List.append_cancel_left hrows
  rcases hcase with ⟨rfl, hst, hc⟩ | ⟨r, post'', rfl, hst, hc⟩
  · left
    rw [List.append_nil] at hitems
    refine ⟨hpost.symm, { st' with cursstat := scstaEnd }, ?_, hst, rfl, hitems ▸ h'⟩
    rw [getnextForward, heq, Option.map_some, hst, if_neg (by decide),
      if_pos ⟨rfl, by rw [hc]; decide⟩]
  · right
    obtain ⟨hdata, htf⟩ := h'
    rw [itemBytes_cons, ← List.append_assoc] at hdata
    have hread := rowForward_row r hdata
    rw [← htf] at hread
    refine ⟨r, itemRows post'', { st' with tf := file.seek (itemBytes pre' ++ r.bytes).length },
      pre', post'', hpost.symm, ?_, hst, hc, hitems, hpre, ?_⟩
    · rw [getnextForward, heq, Option.map_some, hst, if_pos rfl, hread]
    · have happend : itemBytes (pre' ++ [.row r]) = itemBytes pre' ++ r.bytes := by
        rw [itemBytes_append, itemBytes_cons, itemBytes_nil, List.append_nil]
        rfl
      exact ⟨by rw [happend]; exact hdata, by rw [happend]⟩

/-- A forward step moves the list cursor from the rows before the position. -/
theorem getnextForward_listCursor {items : List StreamItem} (hitems : items = pre ++ post)
    (h : Between file pre post st.tf) (hcurs : st.cursstat ≠ scstaNocur) :
    ∃ data st', st.getnextForward = some (data, st') ∧
      (st'.status, data) =
        streamAnswer (listCursor (itemRows items) (itemRows pre).length .next).1 ∧
      AtPlace file items (listCursor (itemRows items) (itemRows pre).length .next).2 st' := by
  have hrows : itemRows items = itemRows pre ++ itemRows post := by rw [hitems, itemRows_append]
  rcases getnextForward_between st h hcurs with
    ⟨hpost, st', heq, hst, hc, h'⟩ |
    ⟨r, rows, st', pre', post', hpost, heq, hst, hc, hsplit, hpre, h'⟩
  · rw [hpost, List.append_nil] at hrows
    rw [listCursor_next_of_le (by rw [hrows])]
    refine ⟨none, st', heq, by rw [hst]; rfl, pre ++ post, [], by rw [hitems, List.append_nil],
      h', ?_⟩
    rw [hc]
    exact ⟨rfl, Or.inr (by rw [hitems])⟩
  · rw [hrows, hpost, listCursor_next_mid]
    refine ⟨some r.bytes, st', heq, by rw [hst]; rfl, pre' ++ [.row r], post', ?_, h', ?_⟩
    · rw [hitems, ← hsplit, List.append_assoc]
      rfl
    · rw [hc]
      refine ⟨?_, pre', r, rfl⟩
      rw [itemRows_append, hpre, List.length_append]
      rfl

theorem getnext_listCursor {items : List StreamItem} (h : AtPlace file items k st) :
    ∃ data st', st.getnext = some (data, st') ∧
      (st'.status, data) = streamAnswer (listCursor (itemRows items) k .next).1 ∧
      AtPlace file items (listCursor (itemRows items) k .next).2 st' := by
  obtain ⟨pre, post, hitems, hbetween, hplace⟩ := h
  rw [getnext]
  cases hc : st.cursstat with
  | scstaNocur => rw [hc] at hplace; exact hplace.elim
  | scstaInit => rw [hc] at hplace; exact hplace.elim
  | scstaBegin =>
      rw [hc] at hplace
      obtain ⟨hpre, rfl⟩ := hplace
      rw [if_neg (by decide)]
      have hstep := getnextForward_listCursor hitems hbetween (by rw [hc]; decide)
      rw [hpre] at hstep
      exact hstep
  | scstaFwd =>
      rw [hc] at hplace
      obtain ⟨rfl, -⟩ := hplace
      rw [if_neg (by decide)]
      exact getnextForward_listCursor hitems hbetween (by rw [hc]; decide)
  | scstaBkw =>
      rw [hc] at hplace
      obtain ⟨rfl, r, post', rfl⟩ := hplace
      -- the row that was read last is read once more
      rcases getnextForward_between { st with cursstat := scstaFwd } hbetween
          XsCursorstatus.noConfusion with
        ⟨hrows, -⟩ | ⟨r₁, rows, st₁, pre₁, post₁, -, heq, hst, hcurs, hsplit, hpre, h₁⟩
      · cases hrows
      · have hlen : (itemRows (pre₁ ++ [.row r₁])).length = (itemRows pre).length + 1 := by
          rw [itemRows_append, hpre, List.length_append]
          rfl
        have hitems₁ : items = pre₁ ++ [.row r₁] ++ post₁ := by
          rw [hitems, ← hsplit, List.append_assoc]
          rfl
        have hstep := getnextForward_listCursor hitems₁ h₁ (by rw [hcurs]; decide)
        rw [hlen] at hstep
        rw [if_pos rfl, heq, Option.bind_some, if_neg (by rw [hst]; decide)]
        exact hstep
  | scstaEnd =>
      rw [hc] at hplace
      obtain ⟨rfl, hk⟩ := hplace
      rw [if_neg (by decide)]
      have hstep := getnextForward_listCursor hitems hbetween (by rw [hc]; decide)
      rw [List.append_nil] at hitems
      have hle : (itemRows items).length ≤ k := by
        rw [hitems]
        rcases hk with hk | rfl
        · rw [hk]
          exact Nat.zero_le k
        · exact Nat.le_succ _
      rw [listCursor_next_of_le (by rw [hitems])] at hstep
      rw [listCursor_next_of_le hle]
      exact hstep

/-! ## Backward -/

def StepsToBegin (file : TfFile) (pre post : List StreamItem) (st : XsStream) : Prop :=
  itemRows pre = [] ∧ ∃ st', st.getprevBackward = some (none, st') ∧ st'.status = sstaBos ∧
    st'.cursstat = scstaBegin ∧ Between file [] (pre ++ post) st'.tf

def StepsToPrev (file : TfFile) (pre post : List StreamItem) (st : XsStream) : Prop :=
  ∃ r rows st' pre' post', itemRows pre = rows ++ [r] ∧
    st.getprevBackward = some (some r.bytes, st') ∧ st'.status = sstaRun ∧
    st'.cursstat = scstaBkw ∧ pre' ++ .row r :: post' = pre ++ post ∧
    itemRows pre' = rows ∧ Between file pre' (.row r :: post') st'.tf

theorem getprevBackward_between (st : XsStream) (h : Between file pre post st.tf) :
    StepsToBegin file pre post st ∨ StepsToPrev file pre post st := by
  have hlen := length_le_itemBytes pre
  have hdata := congrArg List.length h.data_eq
  rw [List.length_append] at hdata
  have hfile : st.tf.file = file := by
    rw [h.tf_eq]
    rfl
  rcases skipBack_between pre (st.tf.file.data.length + 1) post st.tf h
      (by rw [hfile]; omega) with ⟨hpre, hskip⟩ | ⟨pre', r, marks, rfl, hmarks, hskip⟩
  · left
    refine ⟨hpre, { st with tf := file.seek 0, cursstat := scstaBegin, status := sstaBos }, ?_,
      rfl, rfl, ?_, rfl⟩
    · rw [getprevBackward, hskip]
      rfl
    · rw [itemBytes_append]
      exact h.data_eq
  · right
    have hitem : file.data = itemBytes pre' ++ r.bytes ++ itemBytes (marks ++ post) := by
      rw [h.data_eq]
      simp [StreamItem.bytes]
    have hread := rowBackward_row r hitem
    refine ⟨r, itemRows pre',
      { st with tf := file.seek (itemBytes pre').length, status := sstaRun, cursstat := scstaBkw },
      pre', marks ++ post, ?_, ?_, rfl, rfl, ?_, rfl, ?_, rfl⟩
    · rw [itemRows_append, itemRows_row, hmarks]
    · rw [getprevBackward, hskip, Option.map_some]
      simp only [hread]
    · simp
    · rw [hitem, itemBytes_cons, List.append_assoc]
      rfl

/-- A backward step moves the list cursor from the row behind the position. -/
theorem getprevBackward_listCursor {items : List StreamItem} (hitems : items = pre ++ post)
    (h : Between file pre post st.tf) :
    ∃ data st', st.getprevBackward = some (data, st') ∧
      (st'.status, data) =
        streamAnswer (listCursor (itemRows items) ((itemRows pre).length + 1) .prev).1 ∧
      AtPlace file items (listCursor (itemRows items) ((itemRows pre).length + 1) .prev).2 st' := by
  rcases getprevBackward_between st h with
    ⟨hpre, st', heq, hst, hc, h'⟩ |
    ⟨r, rows, st', pre', post', hpre, heq, hst, hc, hsplit, hrows, h'⟩
  · rw [hpre, List.length_nil, listCursor]
    refine ⟨none, st', heq, by rw [hst]; rfl, [], pre ++ post, hitems, h', ?_⟩
    rw [hc]
    exact ⟨rfl, rfl⟩
  · have hitemrows : itemRows items = rows ++ r :: itemRows post' := by
      rw [hitems, ← hsplit, itemRows_append, hrows, itemRows_row]
    rw [hitemrows, hpre, List.length_append, List.length_singleton, listCursor_prev_mid]
    refine ⟨some r.bytes, st', heq, by rw [hst]; rfl, pre', .row r :: post',
      hitems.trans hsplit.symm, h', ?_⟩
    rw [hc]
    exact ⟨by rw [hrows], r, post', rfl⟩

theorem getprev_listCursor {items : List StreamItem} (h : AtPlace file items k st) :
    ∃ data st', st.getprev = some (data, st') ∧
      (st'.status, data) = streamAnswer (listCursor (itemRows items) k .prev).1 ∧
      AtPlace file items (listCursor (itemRows items) k .prev).2 st' := by
  obtain ⟨pre, post, hitems, hbetween, hplace⟩ := h
  rw [getprev]
  cases hc : st.cursstat with
  | scstaNocur => rw [hc] at hplace; exact hplace.elim
  | scstaInit => rw [hc] at hplace; exact hplace.elim
  | scstaBegin =>
      rw [hc] at hplace
      obtain ⟨hpre, rfl⟩ := hplace
      rw [if_neg (by decide)]
      have hstep := getprevBackward_listCursor hitems hbetween
      rw [hpre] at hstep
      exact hstep
  | scstaFwd =>
      rw [hc] at hplace
      obtain ⟨rfl, pre', r, rfl⟩ := hplace
      -- the row that was read last is read once more
      rcases getprevBackward_between { st with cursstat := scstaBkw } hbetween with
        ⟨hrows, -⟩ | ⟨r₁, rows, st₁, pre₁, post₁, hrows, heq, hst, hcurs, hsplit, hpre, h₁⟩
      · rw [itemRows_append, itemRows_row] at hrows
        exact absurd hrows (List.append_ne_nil_of_right_ne_nil _ (List.cons_ne_nil _ _))
      · have hlen : (itemRows (pre' ++ [.row r])).length = (itemRows pre₁).length + 1 := by
          rw [hrows, hpre, List.length_append, List.length_singleton]
        have hstep := getprevBackward_listCursor (hitems.trans hsplit.symm) h₁
        rw [← hlen] at hstep
        rw [if_pos rfl, heq, Option.bind_some, if_neg (by rw [hst]; decide)]
        exact hstep
  | scstaBkw =>
      rw [hc] at hplace
      obtain ⟨rfl, -⟩ := hplace
      rw [if_neg (by decide)]
      exact getprevBackward_listCursor hitems hbetween
  | scstaEnd =>
      rw [hc] at hplace
      obtain ⟨rfl, hk⟩ := hplace
      rw [if_neg (by decide)]
      have hstep := getprevBackward_listCursor hitems hbetween
      rcases hk with hk | rfl
      · have hnil : itemRows items = [] := by rw [hitems, List.append_nil, hk]
        rw [hnil, listCursor_prev_nil] at hstep ⊢
        exact hstep
      · exact hstep

/-! ## Going to an end -/

/-- At the first byte the stream goes on to the first row or to the end. -/
theorem readandsetstatus_begin (st : XsStream) {items : List StreamItem}
    (hdata : file.data = itemBytes items) (htf : st.tf = file.seek 0)
    (hcurs : st.cursstat ≠ scstaNocur) :
    ∃ st', st.readandsetstatus = some st' ∧
      ((itemRows items = [] ∧ st'.status = sstaEos ∧ ∀ k, AtPlace file items k st') ∨
        (itemRows items ≠ [] ∧ st'.status = sstaRun ∧ st'.cursstat = scstaFwd ∧
          AtPlace file items 0 { st' with cursstat := scstaBegin })) := by
  have hbetween : Between file [] items st.tf := ⟨hdata, htf⟩
  obtain ⟨st', pre', post', heq, h', hpre, hitems, hcase⟩ :=
    readandsetstatus_between st hbetween hcurs
  rw [List.nil_append] at hitems
  refine ⟨st', heq, ?_⟩
  rcases hcase with ⟨rfl, hst, hc⟩ | ⟨r, post'', rfl, hst, hc⟩
  · left
    rw [List.append_nil] at hitems
    refine ⟨by rw [← hitems, hpre]; rfl, hst, fun k => ?_⟩
    refine ⟨pre', [], by rw [List.append_nil, hitems], h', ?_⟩
    rw [hc]
    exact ⟨rfl, Or.inl hpre⟩
  · right
    refine ⟨?_, hst, hc, pre', .row r :: post'', hitems.symm, h', hpre, rfl⟩
    rw [← hitems, itemRows_append, itemRows_row]
    exact List.append_ne_nil_of_right_ne_nil _ (List.cons_ne_nil _ _)

theorem cursstat_ne_nocur {items : List StreamItem} (h : AtPlace file items k st) :
    st.cursstat ≠ scstaNocur := by
  obtain ⟨pre, post, -, -, hplace⟩ := h
  intro hc
  rw [hc] at hplace
  exact hplace

theorem file_eq_items {items : List StreamItem} (h : AtPlace file items k st) :
    st.tf.file = file ∧ file.data = itemBytes items := by
  obtain ⟨pre, post, hitems, ⟨hdata, htf⟩, -⟩ := h
  rw [hitems, itemBytes_append, htf]
  exact ⟨rfl, hdata⟩

theorem call_listCursor {items : List StreamItem} (h : AtPlace file items k st) (c : CursorCall) :
    ∃ st', st.call c = some (streamAnswer (listCursor (itemRows items) k c).1, st') ∧
      AtPlace file items (listCursor (itemRows items) k c).2 st' := by
  obtain ⟨hfile, hdata⟩ := file_eq_items h
  have hcurs := cursstat_ne_nocur h
  cases c with
  | next =>
      obtain ⟨data, st', heq, hanswer, hplace⟩ := getnext_listCursor h
      exact ⟨st', by rw [call, heq, Option.map_some, ← hanswer], hplace⟩
  | prev =>
      obtain ⟨data, st', heq, hanswer, hplace⟩ := getprev_listCursor h
      exact ⟨st', by rw [call, heq, Option.map_some, ← hanswer], hplace⟩
  | toBegin =>
      obtain ⟨st', heq, hcase⟩ := readandsetstatus_begin
        { st with tf := st.tf.movetobegin } hdata
        (by rw [TfFile.movetobegin_eq, hfile]) hcurs
      rw [call, cursortobegin, heq, Option.map_some, Option.map_some, listCursor]
      rcases hcase with ⟨hrows, hst, hplace⟩ | ⟨hrows, hst, -, hplace⟩
      · rw [if_pos hrows, hst, if_neg (by decide), hst]
        exact ⟨st', rfl, hplace 0⟩
      · rw [if_neg hrows, hst, if_pos rfl]
        refine ⟨_, ?_, hplace⟩
        dsimp only
        rw [hst]
        rfl
  | toEnd =>
      refine ⟨st.cursortoend, rfl, items, [], (List.append_nil _).symm, ⟨?_, ?_⟩, ?_⟩
      · rw [itemBytes_nil, List.append_nil, hdata]
      · rw [cursortoend, TfFile.movetoend_eq, hfile, hdata]
      · exact ⟨rfl, Or.inr rfl⟩

theorem run_listCursor {items : List StreamItem} (calls : List CursorCall) :
    ∀ (k : ℕ) (st : XsStream), AtPlace file items k st →
      ∃ k' st', st.run calls =
          some ((listCursorRun (itemRows items) k calls).map streamAnswer, st') ∧
        AtPlace file items k' st' := by
  induction calls with
  | nil => exact fun k st h => ⟨k, st, rfl, h⟩
  | cons c calls ih =>
      intro k st h
      obtain ⟨st₁, hcall, h₁⟩ := call_listCursor h c
      obtain ⟨k', st', hrun, h'⟩ := ih _ st₁ h₁
      refine ⟨k', st', ?_, h'⟩
      rw [run, hcall, Option.bind_some, hrun]
      rfl

/-- After `xs_stream_initfetch` the list cursor stands before the first row. -/
theorem initfetch_listCursor {items : List StreamItem} (hdata : st.tf.file.data = itemBytes items) :
    ∃ st', st.initfetch = some st' ∧
      st'.status = (if itemRows items = [] then sstaEos else sstaRun) ∧
      AtPlace st.tf.file items 0 st' := by
  obtain ⟨st', heq, hcase⟩ := readandsetstatus_begin
    { st with cursstat := scstaInit, tf := st.tf.opencursor } hdata
    (TfFile.movetobegin_eq st.tf) XsCursorstatus.noConfusion
  rw [initfetch, heq, Option.map_some]
  rcases hcase with ⟨hrows, hst, hplace⟩ | ⟨hrows, hst, hc, hplace⟩
  · rw [if_pos hrows, if_neg fun h => by rw [hst] at h; exact absurd h.1 (by decide)]
    exact ⟨st', rfl, hst, hplace 0⟩
  · rw [if_neg hrows, if_pos ⟨hst, by rw [hc]; decide⟩]
    exact ⟨_, rfl, hst, hplace⟩

end XsStream

structure ResultStream where
  items : List StreamItem
  stream : XsStream
  data_eq : stream.tf.file.data = itemBytes items

/-- After `xs_stream_initfetch` every sequence of calls returns what a cursor over the list of
rows returns, and the file position is always in front of a row or a mark or at the end; the
rows are those that `xs_tuple_makevtpl` builds. -/
theorem resultStream_listCursor :
    (∀ (row : SortRow) (bufsize : ℕ), xsTupleMakevtpl bufsize (row.fields.map encVa) =
      if row.bytes.length ≤ bufsize then some row.bytes else none) ∧
    ∀ (result : ResultStream) (calls : List CursorCall),
      ∃ st, result.stream.initfetch = some st ∧
        st.status = (if itemRows result.items = [] then sstaEos else sstaRun) ∧
        ∃ st', st.run calls =
            some ((listCursorRun (itemRows result.items) 0 calls).map streamAnswer, st') ∧
          ∃ pre post, result.items = pre ++ post ∧
            st'.tf = result.stream.tf.file.seek (itemBytes pre).length := by
  refine ⟨fun row bufsize => xsTupleMakevtpl_eq bufsize row.ne_nil row.length_lt,
    fun result calls => ?_⟩
  obtain ⟨st, hinit, hstatus, hplace⟩ := XsStream.initfetch_listCursor result.data_eq
  obtain ⟨k, st', hrun, pre, post, hitems, hbetween, -⟩ := XsStream.run_listCursor calls 0 st hplace
  exact ⟨st, hinit, hstatus, st', hrun, pre, post, hitems, hbetween.tf_eq⟩

def twoRunItems : List StreamItem :=
  [.row (.ofByte 1), .row ⟨[[2, 3], []], List.cons_ne_nil _ _, by decide⟩, .eor,
    .row (.ofByte 4), .eor]

/-- Three rows in two runs, in a file of blocks of eight bytes. -/
def twoRunStream : ResultStream where
  items := twoRunItems
  stream := ⟨0, 2, sstaBos, scstaNocur, ⟨⟨8, itemBytes twoRunItems, by decide, by decide⟩, 0, 0⟩⟩
  data_eq := rfl

theorem resultStream_listCursor_twoRuns :
    ∃ st st', twoRunStream.stream.initfetch = some st ∧
      st.run [.next, .next, .next, .next, .prev, .prev] =
        some ([(sstaRun, some [2, 1, 1, 2]), (sstaRun, some [4, 2, 2, 3, 0, 4]),
          (sstaRun, some [2, 1, 4, 2]), (sstaEos, none), (sstaRun, some [2, 1, 4, 2]),
          (sstaRun, some [4, 2, 2, 3, 0, 4])], st') := by
  obtain ⟨st, hinit, -, st', hrun, -⟩ := resultStream_listCursor.2 twoRunStream
    [.next, .next, .next, .next, .prev, .prev]
  exact ⟨st, st', hinit, hrun⟩

end SolidDB
