import SolidDB.Xs.Stream
import Mathlib.Data.List.Induction

/-!
# Rows and marks of a stream

The file of a stream as a list of rows and marks. A row is read from either side, and marks are
passed over until a row or an end of the file.
-/

namespace SolidDB

open XsStreamstatus XsCursorstatus

structure SortRow where
  fields : Fields
  ne_nil : fields ≠ []
  length_lt : netlen fields + 10 < 2 ^ 32

def SortRow.ofByte (b : UInt8) : SortRow where
  fields := [[b]]
  ne_nil := List.cons_ne_nil _ _
  length_lt := by
    rw [netlen_cons, netlen_nil, List.length_singleton]
    decide

def SortRow.bytes (row : SortRow) : List UInt8 := rowBytes row.fields

inductive StreamItem where
  | eor
  | row (row : SortRow)

namespace StreamItem

def bytes : StreamItem → List UInt8
  | eor => [0]
  | row r => r.bytes

def row? : StreamItem → Option SortRow
  | eor => none
  | row r => some r

end StreamItem

def itemBytes (items : List StreamItem) : List UInt8 := items.flatMap StreamItem.bytes

def itemRows (items : List StreamItem) : List SortRow := items.filterMap StreamItem.row?

@[simp] theorem itemBytes_nil : itemBytes [] = [] := rfl

@[simp] theorem itemBytes_cons (item : StreamItem) (items : List StreamItem) :
    itemBytes (item :: items) = item.bytes ++ itemBytes items := rfl

@[simp] theorem itemBytes_append (items items' : List StreamItem) :
    itemBytes (items ++ items') = itemBytes items ++ itemBytes items' := List.flatMap_append

@[simp] theorem itemRows_nil : itemRows [] = [] := rfl

@[simp] theorem itemRows_eor (items : List StreamItem) :
    itemRows (.eor :: items) = itemRows items := rfl

@[simp] theorem itemRows_row (r : SortRow) (items : List StreamItem) :
    itemRows (.row r :: items) = r :: itemRows items := rfl

@[simp] theorem itemRows_append (items items' : List StreamItem) :
    itemRows (items ++ items') = itemRows items ++ itemRows items' := List.filterMap_append

theorem SortRow.length_bytes (row : SortRow) :
    row.bytes.length = vaLenLen (netlen row.fields) * 2 + netlen row.fields :=
  length_rowBytes row.fields

theorem StreamItem.length_bytes_pos (item : StreamItem) : 0 < item.bytes.length := by
  cases item with
  | eor => exact Nat.one_pos
  | row r =>
      have hpos := netlen_pos r.ne_nil
      rw [bytes, r.length_bytes]
      omega

theorem length_le_itemBytes (items : List StreamItem) :
    items.length ≤ (itemBytes items).length := by
  induction items with
  | nil => exact le_rfl
  | cons item items ih =>
      have hpos := item.length_bytes_pos
      rw [itemBytes_cons, List.length_cons, List.length_append]
      omega

/-! ## Reading a row -/

section Read

variable {file : TfFile} {a b c : List UInt8}

theorem TfFile.peek_mid (hdata : file.data = a ++ b ++ c) (hb : b ≠ []) :
    (file.seek a.length).peek b.length = some b := by
  have hpos := List.length_pos_of_ne_nil hb
  have hle : a.length + b.length ≤ file.data.length := by
    rw [hdata, List.length_append, List.length_append]
    omega
  rw [file.peek_seek hpos hle, hdata,
    List.append_assoc, List.drop_left, List.take_left]

theorem TfFile.peek_one (hdata : file.data = a ++ b ++ c) (hb : b ≠ []) :
    (file.seek a.length).peek 1 = some [b.headD 0] := by
  cases b with
  | nil => exact absurd rfl hb
  | cons x b =>
      have hmid : file.data = a ++ [x] ++ (b ++ c) := by
        rw [hdata, List.append_assoc, List.append_assoc]
        rfl
      exact TfFile.peek_mid hmid (List.cons_ne_nil x [])

theorem TfFile.move_mid (hdata : file.data = a ++ b ++ c) :
    (file.seek a.length).moveposrel b.length = some (file.seek (a ++ b).length) := by
  rw [file.moveposrel_seek_add (by rw [hdata, List.length_append, List.length_append]; omega),
    List.length_append]

theorem TfFile.move_back (hdata : file.data = a ++ b ++ c) (hb : b ≠ []) :
    (file.seek (a ++ b).length).moveposrel (-(b.length : ℤ)) = some (file.seek a.length) := by
  have hpos := List.length_pos_of_ne_nil hb
  rw [file.moveposrel_seek_sub hpos (by rw [List.length_append]; omega)
    (by simp only [hdata, List.length_append]; omega), List.length_append, Nat.add_sub_cancel]

theorem XsStream.rowForward_row (r : SortRow) (hdata : file.data = a ++ r.bytes ++ c) :
    rowForward (file.seek a.length) = some (r.bytes, file.seek (a ++ r.bytes).length) := by
  have hne : r.bytes ≠ [] := List.ne_nil_of_length_pos (StreamItem.row r).length_bytes_pos
  have hlen := r.length_bytes
  have hlt := r.length_lt
  have hle := vaLenLen_le (netlen r.fields)
  have hpos := vaLenLen_pos (netlen r.fields)
  have hhead : vaLenLen (r.bytes.headD 0).toNat = vaLenLen (netlen r.fields) := by
    have htest := byteLenTest_headD_encVa (encFields r.fields) (invLen (netlen r.fields))
    rw [vaLenLen, vaLenLen, SortRow.bytes, rowBytes, encVtpl, htest]
    rfl
  -- the bytes of the length are read, be they one or five
  have hset : vaSetLen (netlen r.fields) ≠ [] :=
    List.ne_nil_of_length_pos (by rw [length_vaSetLen]; exact hpos)
  have hpeek : (file.seek a.length).peek (vaLenLen (netlen r.fields)) =
      some (vaSetLen (netlen r.fields)) := by
    have hmid : file.data = a ++ vaSetLen (netlen r.fields) ++
        (encFields r.fields ++ invLen (netlen r.fields) ++ c) := by
      rw [hdata, SortRow.bytes, rowBytes, encVtpl, encVa]
      simp only [List.append_assoc]
      rfl
    have := TfFile.peek_mid hmid hset
    rwa [length_vaSetLen] at this
  have hbranch : (if 1 < vaLenLen (netlen r.fields) then
      (file.seek a.length).peek (vaLenLen (netlen r.fields)) else some [r.bytes.headD 0]) =
        some (vaSetLen (netlen r.fields)) := by
    split
    · exact hpeek
    next h =>
      have hone : vaLenLen (netlen r.fields) = 1 := by omega
      rw [hone, TfFile.peek_one hdata hne] at hpeek
      exact hpeek
  have hget := vaGetdata_vaSetLen (show netlen r.fields < 2 ^ 32 by omega) []
  rw [List.append_nil] at hget
  rw [rowForward, TfFile.peek_one hdata hne, Option.bind_some]
  simp only [List.headD_cons, hhead, hbranch, Option.bind_some, hget]
  rw [Nat.mod_eq_of_lt (by omega), ← hlen, TfFile.peek_mid hdata hne, Option.bind_some,
    TfFile.move_mid hdata, Option.map_some]

/-- The last byte of a row is that of its mirrored length. -/
theorem TfFile.peek_last (r : SortRow) (hdata : file.data = a ++ r.bytes ++ c) :
    (file.seek ((a ++ r.bytes).length - 1)).peek 1 =
      some [(invLen (netlen r.fields)).getLastD 0] := by
  have hpos := vaLenLen_pos (netlen r.fields)
  have hbytes : r.bytes = encVtpl r.fields ++ invLen (netlen r.fields) := rfl
  have hinvne : invLen (netlen r.fields) ≠ [] :=
    List.ne_nil_of_length_pos (by rw [length_invLen]; exact hpos)
  have hinvpos := List.length_pos_of_ne_nil hinvne
  have hsplit := List.dropLast_append_getLast hinvne
  have hdrop : (a ++ r.bytes).length - 1 =
      (a ++ encVtpl r.fields ++ (invLen (netlen r.fields)).dropLast).length := by
    rw [hbytes]
    simp only [List.length_append, List.length_dropLast]
    omega
  have hmid : file.data = a ++ encVtpl r.fields ++ (invLen (netlen r.fields)).dropLast ++
      [(invLen (netlen r.fields)).getLast hinvne] ++ c := by
    rw [hdata, hbytes]
    simp only [List.append_assoc]
    rw [← List.append_assoc _ [_] c, hsplit]
  rw [hdrop, TfFile.peek_one hmid (List.cons_ne_nil _ []), List.headD_cons,
    List.getLastD_eq_getLast?, List.getLast?_eq_getLast_of_ne_nil hinvne, Option.getD_some]

theorem XsStream.rowBackward_row (r : SortRow) (hdata : file.data = a ++ r.bytes ++ c) :
    rowBackward (file.seek ((a ++ r.bytes).length - 1)) =
      some (r.bytes, file.seek a.length) := by
  have hlen := r.length_bytes
  have hlt := r.length_lt
  have hle := vaLenLen_le (netlen r.fields)
  have hpos := vaLenLen_pos (netlen r.fields)
  have hinvlen := length_invLen (netlen r.fields)
  have hinvne : invLen (netlen r.fields) ≠ [] :=
    List.ne_nil_of_length_pos (by rw [hinvlen]; exact hpos)
  have hne : r.bytes ≠ [] := List.ne_nil_of_length_pos (StreamItem.row r).length_bytes_pos
  have hbytes : r.bytes = encVtpl r.fields ++ invLen (netlen r.fields) := rfl
  have hencne : encVtpl r.fields ≠ [] :=
    List.ne_nil_of_length_pos (by rw [length_encVtpl]; omega)
  -- the file around the mirrored length
  have hinv : file.data = a ++ encVtpl r.fields ++ invLen (netlen r.fields) ++ c := by
    rw [hdata, hbytes, ← List.append_assoc]
  have henc : file.data = a ++ encVtpl r.fields ++ (invLen (netlen r.fields) ++ c) := by
    rw [hinv, List.append_assoc]
  -- the last byte tells how many bytes the length has
  have hlast := TfFile.peek_last r hdata
  have hlenlen : vaLenLen ((invLen (netlen r.fields)).getLastD 0).toNat =
      vaLenLen (netlen r.fields) := by
    rw [vaLenLen, vaLenLen, byteLenTest_getLastD_invLen]
  have hpeek := TfFile.peek_mid hinv hinvne
  rw [hinvlen] at hpeek
  -- the position goes to the first byte of the mirrored length
  have hbranch : (if 1 < vaLenLen (netlen r.fields) then
      ((file.seek ((a ++ r.bytes).length - 1)).moveposrel
        (1 - (vaLenLen (netlen r.fields) : ℤ))).bind fun tf =>
          (tf.peek (vaLenLen (netlen r.fields))).map fun pch => (pch, tf)
      else some ([(invLen (netlen r.fields)).getLastD 0],
        file.seek ((a ++ r.bytes).length - 1))) =
      some (invLen (netlen r.fields), file.seek (a ++ encVtpl r.fields).length) := by
    have hlength : (a ++ r.bytes).length - 1 - (vaLenLen (netlen r.fields) - 1) =
        (a ++ encVtpl r.fields).length := by
      rw [hbytes]
      simp only [List.length_append, hinvlen]
      omega
    split
    next h =>
      have hmove := file.moveposrel_seek_sub (d := vaLenLen (netlen r.fields) - 1)
        (p := (a ++ r.bytes).length - 1) (by omega)
        (by rw [List.length_append, hlen]; omega)
        (by simp only [hdata, List.length_append]; omega)
      rw [hlength, Nat.cast_sub hpos, Nat.cast_one, neg_sub] at hmove
      rw [hmove, Option.bind_some, hpeek, Option.map_some]
    next h =>
      have hone : vaLenLen (netlen r.fields) = 1 := by omega
      rw [hone, Nat.sub_self, Nat.sub_zero] at hlength
      rw [hone, ← hlength, hlast] at hpeek
      rw [← hlength, Option.some.inj hpeek]
  have htake : (invLen (netlen r.fields)).take (vaLenLen (netlen r.fields)) =
      invLen (netlen r.fields) := by rw [← hinvlen, List.take_length]
  have hback := TfFile.move_back henc hencne
  rw [length_encVtpl] at hback
  rw [rowBackward, hlast, Option.bind_some]
  simp only [List.headD_cons, hlenlen, hbranch, Option.bind_some, htake,
    vaInvnetlen_invLen (show netlen r.fields < 2 ^ 32 by omega)]
  rw [Nat.mod_eq_of_lt (by omega), Nat.add_comm (netlen r.fields), hback, Option.bind_some,
    Nat.mod_eq_of_lt (by omega),
    show vaLenLen (netlen r.fields) + netlen r.fields + vaLenLen (netlen r.fields) =
      r.bytes.length by omega, TfFile.peek_mid hdata hne, Option.map_some]

end Read

/-! ## Passing over marks -/

section Marks

variable {file : TfFile} {pre post : List StreamItem}

def itemStatus : List StreamItem → XsStreamstatus
  | [] => sstaEos
  | .eor :: _ => sstaEor
  | .row _ :: _ => sstaRun

structure Between (file : TfFile) (pre post : List StreamItem) (tf : XsTf) : Prop where
  data_eq : file.data = itemBytes pre ++ itemBytes post
  tf_eq : tf = file.seek (itemBytes pre).length

theorem Between.forward {item : StreamItem} {tf : XsTf} (h : Between file pre (item :: post) tf) :
    tf.moveposrel item.bytes.length = some (file.seek (itemBytes (pre ++ [item])).length) ∧
      Between file (pre ++ [item]) post (file.seek (itemBytes (pre ++ [item])).length) := by
  obtain ⟨hdata, rfl⟩ := h
  have happend : itemBytes (pre ++ [item]) = itemBytes pre ++ item.bytes := by
    rw [itemBytes_append, itemBytes_cons, itemBytes_nil, List.append_nil]
  rw [itemBytes_cons, ← List.append_assoc] at hdata
  refine ⟨?_, ?_, rfl⟩
  · rw [TfFile.move_mid hdata, happend]
  · rw [hdata, happend]

namespace XsStream

variable {st : XsStream}

theorem readstatus_between (st : XsStream) (h : Between file pre post st.tf) :
    st.readstatus = { st with status := itemStatus post } := by
  obtain ⟨hdata, htf⟩ := h
  rw [readstatus, htf]
  cases post with
  | nil =>
      rw [itemBytes_nil, List.append_nil] at hdata
      rw [← hdata, file.peek_seek_end, file.moveposrel_seek_end]
      rfl
  | cons item post =>
      rw [itemBytes_cons, ← List.append_assoc] at hdata
      have hne : item.bytes ≠ [] := List.ne_nil_of_length_pos item.length_bytes_pos
      rw [TfFile.peek_one hdata hne]
      cases item with
      | eor => rfl
      | row r =>
          have hhead := headD_rowBytes_ne_zero r.ne_nil []
          rw [List.append_nil] at hhead
          exact if_neg hhead

/-- An empty run or a mark is taken, and the status is that of the items that follow unless
empty runs are left. -/
theorem skipeor_between (h : Between file pre post st.tf)
    (hstatus : st.status = itemStatus post ∨ st.status = sstaHold ∧ 0 < st.nemptyruns)
    (hskip : st.status = sstaEor ∨ st.status = sstaHold) :
    ∃ pre' post', Between file pre' post' st.skipeor.tf ∧ itemRows pre' = itemRows pre ∧
      pre' ++ post' = pre ++ post ∧
      (st.skipeor.status = itemStatus post' ∨
        st.skipeor.status = sstaHold ∧ 0 < st.skipeor.nemptyruns) ∧
      st.skipeor.nemptyruns + post'.length < st.nemptyruns + post.length ∧
      st.skipeor.cursstat = st.cursstat := by
  have hneos : st.status ≠ sstaEos := by
    rcases hskip with hskip | hskip
    · rw [hskip]
      decide
    · rw [hskip]
      decide
  rw [skipeor, if_neg hneos]
  by_cases hempty : 0 < st.nemptyruns
  · rw [if_pos hempty]
    have hlt : st.nemptyruns - 1 + post.length < st.nemptyruns + post.length := by omega
    dsimp only
    by_cases hleft : 0 < st.nemptyruns - 1
    · rw [if_pos hleft]
      exact ⟨pre, post, h, rfl, rfl, Or.inr ⟨rfl, hleft⟩, hlt, rfl⟩
    · rw [if_neg hleft, readstatus_between { st with nemptyruns := st.nemptyruns - 1 } h]
      exact ⟨pre, post, h, rfl, rfl, Or.inl rfl, hlt, rfl⟩
  · rw [if_neg hempty]
    have heq := hstatus.resolve_right fun h => hempty h.2
    rw [heq] at hskip
    cases post with
    | nil => exact absurd hskip (by decide)
    | cons item post =>
        cases item with
        | row r => exact absurd hskip (by simp [itemStatus])
        | eor =>
            obtain ⟨hmove, hbetween⟩ := h.forward
            have hmove : st.tf.moveposrel 1 =
                some (file.seek (itemBytes (pre ++ [.eor])).length) := hmove
            have hlt : st.nemptyruns + post.length < st.nemptyruns + (.eor :: post).length :=
              Nat.add_lt_add_left (Nat.lt_succ_self _) _
            simp only [hmove]
            rw [readstatus_between _ hbetween]
            exact ⟨pre ++ [.eor], post, hbetween, by simp, by simp, Or.inl rfl, hlt, rfl⟩

/-- What `stream_readandsetstatus` leaves: a row behind the position, or the end. -/
theorem skipEors_between :
    ∀ (fuel : ℕ) (pre post : List StreamItem) (st : XsStream), Between file pre post st.tf →
      (st.status = itemStatus post ∨ st.status = sstaHold ∧ 0 < st.nemptyruns) →
      st.nemptyruns + post.length < fuel →
      ∃ st' pre' post', skipEors fuel st = some st' ∧ Between file pre' post' st'.tf ∧
        itemRows pre' = itemRows pre ∧ pre' ++ post' = pre ++ post ∧
        st'.cursstat = st.cursstat ∧ st'.status = itemStatus post' ∧ st'.status ≠ sstaEor
  | 0, _, _, _, _, _, hfuel => absurd hfuel (Nat.not_lt_zero _)
  | fuel + 1, pre, post, st, h, hstatus, hfuel => by
    rw [skipEors]
    by_cases hskip : st.status = sstaEor ∨ st.status = sstaHold
    · obtain ⟨pre₁, post₁, h₁, hpre, hpost, hstatus₁, hlt, hcurs⟩ :=
        skipeor_between h hstatus hskip
      obtain ⟨st', pre', post', heq, h', hpre', hpost', hcurs', hst', hne⟩ :=
        skipEors_between fuel pre₁ post₁ st.skipeor h₁ hstatus₁ (by omega)
      rw [if_pos hskip]
      exact ⟨st', pre', post', heq, h', hpre'.trans hpre, hpost'.trans hpost,
        hcurs'.trans hcurs, hst', hne⟩
    · rw [if_neg hskip]
      rw [not_or] at hskip
      exact ⟨st, pre, post, rfl, h, rfl, rfl, rfl,
        hstatus.resolve_right fun h => hskip.2 h.1, hskip.1⟩

theorem readandsetstatus_between (st : XsStream) (h : Between file pre post st.tf)
    (hcurs : st.cursstat ≠ scstaNocur) :
    ∃ st' pre' post', st.readandsetstatus = some st' ∧ Between file pre' post' st'.tf ∧
      itemRows pre' = itemRows pre ∧ pre' ++ post' = pre ++ post ∧
      ((post' = [] ∧ st'.status = sstaEos ∧ st'.cursstat = scstaEnd) ∨
        ∃ r post'', post' = .row r :: post'' ∧ st'.status = sstaRun ∧
          st'.cursstat = scstaFwd) := by
  have hlen := length_le_itemBytes post
  have hdata := congrArg List.length h.data_eq
  rw [List.length_append] at hdata
  have hfile : st.tf.file = file := by
    rw [h.tf_eq]
    rfl
  obtain ⟨st', pre', post', heq, h', hpre, hpost, -, hst, hne⟩ :=
    skipEors_between (st.nemptyruns + st.tf.file.data.length + 1) pre post
      { st with status := itemStatus post } h (Or.inl rfl)
      (by rw [hfile]; exact Nat.lt_succ_of_le (Nat.add_le_add_left (by omega) _))
  rw [readandsetstatus, readstatus_between st h]
  dsimp only
  rw [if_pos hcurs, heq, Option.map_some, hst]
  refine ⟨_, pre', post', rfl, ?_⟩
  cases post' with
  | nil => exact ⟨h', hpre, hpost, Or.inl ⟨rfl, rfl, rfl⟩⟩
  | cons item post'' =>
      cases item with
      | eor => exact absurd hst hne
      | row r => exact ⟨h', hpre, hpost, Or.inr ⟨r, post'', rfl, rfl, rfl⟩⟩

theorem skipBack_step {p fuel : ℕ} {b : UInt8} (hp : 0 < p) (hle : p ≤ file.data.length)
    (hpeek : (file.seek (p - 1)).peek 1 = some [b]) :
    skipBack (fuel + 1) (file.seek p) =
      if b = 0 then skipBack fuel (file.seek (p - 1))
      else some (.found (file.seek (p - 1))) := by
  rw [skipBack, show (-1 : ℤ) = -((1 : ℕ) : ℤ) from rfl,
    file.moveposrel_seek_sub Nat.one_pos hp hle]
  dsimp only
  rw [hpeek]
  rfl

/-- Backwards the marks are passed over to the last byte of a row or to the beginning. -/
theorem skipBack_between (pre : List StreamItem) :
    ∀ (fuel : ℕ) (post : List StreamItem) (tf : XsTf), Between file pre post tf →
      pre.length < fuel →
      (itemRows pre = [] ∧ skipBack fuel tf = some (.bos (file.seek 0))) ∨
        ∃ pre' r marks, pre = pre' ++ .row r :: marks ∧ itemRows marks = [] ∧
          skipBack fuel tf =
            some (.found (file.seek ((itemBytes pre' ++ r.bytes).length - 1))) := by
  induction pre using List.reverseRecOn with
  | nil =>
      intro fuel post tf h hfuel
      obtain ⟨fuel, rfl⟩ := Nat.exists_eq_succ_of_ne_zero (Nat.ne_of_gt hfuel)
      obtain ⟨-, rfl⟩ := h
      left
      rw [skipBack, itemBytes_nil, List.length_nil, file.moveposrel_seek_zero]
      exact ⟨rfl, rfl⟩
  | append_singleton pre item ih =>
      intro fuel post tf h hfuel
      obtain ⟨fuel, rfl⟩ := Nat.exists_eq_succ_of_ne_zero (Nat.ne_of_gt (Nat.zero_lt_of_lt hfuel))
      rw [List.length_append, List.length_singleton] at hfuel
      obtain ⟨hdata, rfl⟩ := h
      rw [itemBytes_append, itemBytes_cons, itemBytes_nil, List.append_nil] at hdata ⊢
      have hle : (itemBytes pre ++ item.bytes).length ≤ file.data.length := by
        rw [hdata]
        simp only [List.length_append]
        omega
      have hpos : 0 < (itemBytes pre ++ item.bytes).length := by
        rw [List.length_append]
        exact Nat.add_pos_right _ item.length_bytes_pos
      cases item with
      | eor =>
          have hback : (itemBytes pre ++ StreamItem.eor.bytes).length - 1 =
              (itemBytes pre).length := by
            rw [List.length_append]
            rfl
          have hpeek := TfFile.peek_one hdata (List.cons_ne_nil _ _)
          have hbetween : Between file pre (.eor :: post) (file.seek (itemBytes pre).length) :=
            ⟨by rw [hdata, List.append_assoc]; rfl, rfl⟩
          rw [← hback] at hpeek
          rw [skipBack_step hpos hle hpeek,
            if_pos (show StreamItem.eor.bytes.headD 0 = 0 from rfl), hback]
          rcases ih fuel _ _ hbetween (by omega) with
            ⟨hrows, hskip⟩ | ⟨pre', r, marks, rfl, hmarks, hskip⟩
          · exact Or.inl ⟨by simpa using hrows, hskip⟩
          · exact Or.inr ⟨pre', r, marks ++ [.eor], by simp, by simp [hmarks], hskip⟩
      | row r =>
          right
          refine ⟨pre, r, [], rfl, rfl, ?_⟩
          rw [skipBack_step hpos hle (TfFile.peek_last r hdata),
            if_neg (getLastD_invLen_ne_zero (netlen_pos r.ne_nil))]
          rfl

end XsStream

end Marks

end SolidDB
