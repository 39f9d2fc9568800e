import SolidDB.Dbe.ClstChain

/-!
# Iterating and linking change lists

An iteration passes the first node and every block of the chain once, and leaves the last
block as the last node. A link behind a last node that is not stale joins the two chains.
-/

namespace SolidDB

variable {cache cache' : Clcache} {l head tail : Chlist} {bs ts cs : List ℕ}
  {answer answer' answer'' a : ℕ} {n : Clnode} {node : CiNode}

/-! ## The iteration -/

theorem ciGetrest_eq (n : Clnode) {k pos : ℕ} (h : pos + k = n.clnHeader.blNblocks) :
    ciGetrest n k pos = (recordsUpto n.clnData n.clnHeader.blNblocks).drop pos := by
  induction k generalizing pos with
  | zero =>
      have hlen : (recordsUpto n.clnData n.clnHeader.blNblocks).length ≤ pos := by
        rw [length_recordsUpto, ← h]
        exact le_rfl
      rw [List.drop_of_length_le hlen]
      rfl
  | succ k ih =>
      have hlt : pos < n.clnHeader.blNblocks := by
        rw [← h]
        exact Nat.lt_add_of_pos_right k.succ_pos
      have hlen : pos < (recordsUpto n.clnData n.clnHeader.blNblocks).length := by
        rw [length_recordsUpto]
        exact hlt
      have hget : (recordsUpto n.clnData n.clnHeader.blNblocks)[pos] = n.clnData pos := by
        simp [recordsUpto]
      rw [List.drop_eq_getElem_cons hlen, hget, ciGetrest, dbeCiGetnext,
        if_neg (Nat.not_le.mpr hlt)]
      exact congrArg (n.clnData pos :: ·) (ih ((Nat.succ_add_eq_add_succ pos k).trans h))

theorem ciGetrest_zero (n : Clnode) :
    ciGetrest n n.clnHeader.blNblocks 0 = n.block.records :=
  ciGetrest_eq n (Nat.zero_add _)

theorem dbeCiNextnode_of_next {b : ℕ} (hnext : (ciNode l node).clnHeader.blNext = b)
    (hb : b ≠ suDaddrNull) :
    dbeCiNextnode cache l node =
      if lastnodeAt l b then some (l, .lastnode)
      else
        let read := dbeClRead1node cache b
        if read.clnHeader.blNext = suDaddrNull then
          some ({ l with clLastnode := .own read }, .lastnode)
        else match node, l.clLastnode with
          | .lastnode, .own _ => some ({ l with clLastnode := .own read }, .lastnode)
          | _, _ => some (l, .own read) := by
  rw [dbeCiNextnode, hnext]
  exact if_neg hb

structure Iterated (cache : Clcache) (l l' : Chlist) (bs rest : List ℕ) : Prop where
  first : l'.clFirstnode = l.clFirstnode
  spare : l'.clSpareblock = l.clSpareblock
  blocksize : l'.clBlocksize = l.clBlocksize
  last : l'.LastOk cache bs
  not_null : l'.clLastnode = .null → l.clLastnode = .null
  stays : rest = [] → l' = l
  ends : rest ≠ [] → ∃ n, l'.clLastnode = .own n ∧ n.clnHeader.blNext = suDaddrNull

theorem lastnodeAt_iff (hlast : l.LastOk cache bs) (hfirst : l.clFirstnode.clnDaddr ∉ bs)
    (ha : a ∈ bs) (hat : lastnodeAt l a = true) :
    ∃ n, l.clLastnode = .own n ∧ n.clnDaddr = a ∧ n.block = cache a := by
  unfold lastnodeAt at hat
  unfold Chlist.LastOk at hlast
  cases hl : l.clLastnode with
  | null =>
      rw [hl] at hat
      exact absurd hat Bool.false_ne_true
  | firstnode =>
      rw [hl] at hat
      have heq : l.clFirstnode.clnDaddr = a := of_decide_eq_true hat
      exact absurd (heq ▸ ha) hfirst
  | own n =>
      rw [hl] at hat hlast
      have heq : n.clnDaddr = a := of_decide_eq_true hat
      exact ⟨n, rfl, heq, heq ▸ hlast.2⟩

theorem ciIterate_spec {rest : List ℕ}
    (hchain : Blchain cache (ciNode l node).clnHeader.blNext rest)
    (hsub : ∀ b ∈ rest, b ∈ bs) (hlast : l.LastOk cache bs)
    (hfirst : l.clFirstnode.clnDaddr ∉ bs)
    (hnode : node = .lastnode → ∃ n, l.clLastnode = .own n) (k : ℕ) :
    ∃ l', ciIterate cache (rest.length + 1 + k) l node =
        some ((ciNode l node).block.records ++ clContents cache rest, l') ∧
      Iterated cache l l' bs rest := by
  induction rest generalizing l node with
  | nil =>
      have hnull : (ciNode l node).clnHeader.blNext = suDaddrNull := hchain
      have hfuel : ([] : List ℕ).length + 1 + k = k + 1 := by
        rw [List.length_nil, Nat.zero_add, Nat.add_comm]
      refine ⟨l, ?_, rfl, rfl, rfl, hlast, id, fun _ => rfl, fun h => absurd rfl h⟩
      rw [hfuel, ciIterate, dbeCiNextnode]
      simp only [if_pos hnull]
      rw [ciGetrest_zero]
      simp [clContents]
  | cons b rest ih =>
      obtain ⟨hnext, hbnull, hrest⟩ := hchain
      have hnnull : ¬ (ciNode l node).clnHeader.blNext = suDaddrNull := by
        rw [hnext]
        exact hbnull
      have hb := hsub b List.mem_cons_self
      have hsub' := fun c hc => hsub c (List.mem_cons_of_mem b hc)
      have hfuel : (b :: rest).length + 1 + k = (rest.length + 1 + k) + 1 := by
        rw [List.length_cons, Nat.add_right_comm _ 1 k, Nat.add_right_comm _ 1 k]
      -- the next node has the block at `b`, and the rest is iterated from it
      have hgo {l₁ : Chlist} {node₁ : CiNode}
          (hstep : dbeCiNextnode cache l node = some (l₁, node₁))
          (hblock : (ciNode l₁ node₁).block = cache b)
          (hsame : l₁.clFirstnode = l.clFirstnode ∧ l₁.clSpareblock = l.clSpareblock ∧
            l₁.clBlocksize = l.clBlocksize) (hlast₁ : l₁.LastOk cache bs)
          (hnull₁ : l₁.clLastnode = .null → l.clLastnode = .null)
          (hnode₁ : node₁ = .lastnode → ∃ n, l₁.clLastnode = .own n)
          (hend : rest = [] → ∃ n, l₁.clLastnode = .own n ∧ n.clnHeader.blNext = suDaddrNull) :
          ∃ l', ciIterate cache ((b :: rest).length + 1 + k) l node =
              some ((ciNode l node).block.records ++ clContents cache (b :: rest), l') ∧
            Iterated cache l l' bs (b :: rest) := by
        have hheader : (ciNode l₁ node₁).clnHeader = (cache b).header :=
          congrArg Blblock.header hblock
        have hchain₁ : Blchain cache (ciNode l₁ node₁).clnHeader.blNext rest := by
          rw [hheader]
          exact hrest
        obtain ⟨l', hiter, hit⟩ := ih hchain₁ hsub' hlast₁ (by rw [hsame.1]; exact hfirst) hnode₁
        refine ⟨l', ?_, hit.first.trans hsame.1, hit.spare.trans hsame.2.1,
          hit.blocksize.trans hsame.2.2, hit.last, fun h => hnull₁ (hit.not_null h),
          fun h => absurd h (List.cons_ne_nil b rest), fun _ => ?_⟩
        · rw [hfuel, ciIterate, hstep]
          simp only [hiter, Option.map_some]
          rw [ciGetrest_zero, hblock]
          rfl
        · by_cases hnil : rest = []
          · rw [hit.stays hnil]
            exact hend hnil
          · exact hit.ends hnil
      have hstep : dbeCiNextnode cache l node = _ := dbeCiNextnode_of_next hnext hbnull
      have hown : Chlist.LastOk cache { l with clLastnode := .own (dbeClRead1node cache b) } bs :=
        ⟨hb, rfl⟩
      by_cases hat : lastnodeAt l b = true
      · -- the last node of the list has the next block
        obtain ⟨n, hl, -, hblock⟩ := lastnodeAt_iff hlast hfirst hb hat
        have hn : ciNode l .lastnode = n := by
          simp only [ciNode, hl]
        rw [if_pos hat] at hstep
        refine hgo hstep (by rw [hn]; exact hblock) ⟨rfl, rfl, rfl⟩ hlast id
          (fun _ => ⟨n, hl⟩) fun hnil => ⟨n, hl, ?_⟩
        subst hnil
        have hheader : n.clnHeader = (cache b).header := congrArg Blblock.header hblock
        rw [hheader]
        exact hrest
      · rw [if_neg hat] at hstep
        by_cases hend : (dbeClRead1node cache b).clnHeader.blNext = suDaddrNull
        · simp only [if_pos hend] at hstep
          exact hgo hstep rfl ⟨rfl, rfl, rfl⟩ hown (fun h => Lastnode.noConfusion h)
            (fun _ => ⟨_, rfl⟩) fun _ => ⟨_, rfl, hend⟩
        · simp only [if_neg hend] at hstep
          have hcons : rest ≠ [] := by
            rintro rfl
            exact hend hrest
          cases node with
          | firstnode =>
              exact hgo hstep rfl ⟨rfl, rfl, rfl⟩ hlast id (fun h => CiNode.noConfusion h)
                fun h => absurd h hcons
          | own m =>
              exact hgo hstep rfl ⟨rfl, rfl, rfl⟩ hlast id (fun h => CiNode.noConfusion h)
                fun h => absurd h hcons
          | lastnode =>
              obtain ⟨n, hl⟩ := hnode rfl
              rw [hl] at hstep
              exact hgo hstep rfl ⟨rfl, rfl, rfl⟩ hown (fun h => Lastnode.noConfusion h)
                (fun _ => ⟨_, rfl⟩) fun h => absurd h hcons

/-- A full iteration gives the records of the list and leaves the list as it is, up to
its last node. -/
theorem Chlist.Good.iterate (h : l.Good cache bs) (k : ℕ) :
    ∃ l', ciIterate cache (bs.length + 1 + k) l .firstnode = some (l.records cache bs, l') ∧
      l'.Good cache bs ∧ l'.addrs bs = l.addrs bs ∧
      l'.records cache bs = l.records cache bs ∧ l'.clBlocksize = l.clBlocksize ∧
      (bs ≠ [] → ∃ n, l'.clLastnode = .own n ∧ n.clnHeader.blNext = suDaddrNull) := by
  obtain ⟨l', hiter, hit⟩ := @ciIterate_spec cache l bs .firstnode bs h.chain (fun b hb => hb)
    h.last h.daddr_notMem (fun e => CiNode.noConfusion e) k
  have haddrs : l'.addrs bs = l.addrs bs := by
    rw [Chlist.addrs, Chlist.addrs, hit.first, hit.spare]
  refine ⟨l', hiter, ⟨?_, hit.last, fun hn => h.null (hit.not_null hn), ?_, ?_, ?_⟩, haddrs, ?_,
    hit.blocksize, hit.ends⟩
  · rw [hit.first]
    exact h.chain
  · rw [hit.first, hit.blocksize]
    exact h.room
  · rw [hit.blocksize]
    exact h.blocks_room
  · rw [haddrs]
    exact h.nodup
  · rw [Chlist.records, Chlist.records, hit.first]

theorem ciIterate_mono {fuel fuel' : ℕ} {res : List Clrecord × Chlist} (hle : fuel ≤ fuel')
    (h : ciIterate cache fuel l node = some res) : ciIterate cache fuel' l node = some res := by
  have hsucc : ∀ (fuel : ℕ) (l : Chlist) (node : CiNode) (res : List Clrecord × Chlist),
      ciIterate cache fuel l node = some res →
        ciIterate cache (fuel + 1) l node = some res := by
    intro fuel
    induction fuel with
    | zero => exact fun _ _ res h => absurd h.symm (Option.some_ne_none res)
    | succ fuel ih =>
        intro l node res h
        rw [ciIterate] at h ⊢
        cases hnext : dbeCiNextnode cache l node with
        | none =>
            rw [hnext] at h
            exact h
        | some p =>
            rw [hnext] at h
            obtain ⟨res', hres, heq⟩ := Option.map_eq_some_iff.mp h
            exact Option.map_eq_some_iff.mpr ⟨res', ih _ _ _ hres, heq⟩
  induction hle with
  | refl => exact h
  | step _ ih => exact hsucc _ _ _ _ ih

/-! ## Linking -/

/-- The last-node pointer is not stale: what it points to has no next block. -/
def Chlist.Linkable (l : Chlist) : Prop :=
  match l.clLastnode with
  | .null => True
  | .firstnode => l.clFirstnode.clnHeader.blNext = suDaddrNull
  | .own n => n.clnHeader.blNext = suDaddrNull

instance (l : Chlist) : Decidable l.Linkable := by
  unfold Chlist.Linkable
  cases l.clLastnode with
  | null => exact .isTrue trivial
  | firstnode => exact inferInstanceAs (Decidable (_ = _))
  | own n => exact inferInstanceAs (Decidable (_ = _))

/-- The first node is only in memory, or its block has all that it has. -/
def Chlist.Clean (cache : Clcache) (l : Chlist) : Prop :=
  let n := l.clFirstnode
  n.clnDaddr = suDaddrNull ∨
    (cache n.clnDaddr).header.blNext = n.clnHeader.blNext ∧
      (cache n.clnDaddr).records = recordsUpto n.clnData n.clnHeader.blNblocks

instance (cache : Clcache) (l : Chlist) : Decidable (l.Clean cache) :=
  inferInstanceAs (Decidable (_ ∨ _ ∧ _))

structure Linked (cache cache' : Clcache) (l l' : Chlist) (bs ts : List ℕ) : Prop where
  good : l'.Good cache' (bs ++ ts)
  blocksize : l'.clBlocksize = l.clBlocksize
  addrs : l'.addrs bs = l.addrs bs
  records : l'.records cache' (bs ++ ts) = l.records cache bs ++ clContents cache ts
  frame : ∀ b ∉ bs, cache' b = cache b

theorem Chlist.addrs_append (l : Chlist) (bs ts : List ℕ) :
    l.addrs (bs ++ ts) = l.addrs bs ++ ts := by
  simp only [Chlist.addrs, List.append_assoc]

theorem nodup_addrs_append (h : l.Good cache bs) (hts : ts.Nodup)
    (hdisj : ∀ t ∈ ts, t ∉ l.addrs bs) : (l.addrs (bs ++ ts)).Nodup := by
  rw [Chlist.addrs_append, List.nodup_append]
  exact ⟨h.nodup, hts, fun a ha b hb e => hdisj b hb (e ▸ ha)⟩

theorem Chlist.Good.setLastNext (h : l.Good cache bs) (hlink : l.Linkable)
    (hnull : l.clLastnode ≠ .null) (htail : ClSaved cache l.clBlocksize a ts)
    (hdisj : ∀ t ∈ ts, t ∉ l.addrs bs) :
    ∃ cache' l', setLastNext cache l a = some (cache', l') ∧
      Linked cache cache' l l' bs ts := by
  have hnodup := nodup_addrs_append h htail.chain.nodup hdisj
  cases hl : l.clLastnode with
  | null => exact absurd hl hnull
  | firstnode =>
      have hend : l.clFirstnode.clnHeader.blNext = suDaddrNull := by
        unfold Chlist.Linkable at hlink
        rw [hl] at hlink
        exact hlink
      obtain rfl : bs = [] := h.chain.eq_nil_iff.mpr hend
      refine ⟨cache, { l with clFirstnode := { l.clFirstnode with
        clnHeader := { l.clFirstnode.clnHeader with blNext := a } } }, ?_,
        ⟨htail.chain, ?_, fun hn => ?_, h.room, htail.room, hnodup⟩, rfl, rfl, ?_,
        fun _ _ => rfl⟩
      · unfold SolidDB.setLastNext
        rw [hl]
      · unfold Chlist.LastOk
        simp only [hl]
      · exact absurd (hl.symm.trans hn) (fun e => Lastnode.noConfusion e)
      · simp only [Chlist.records, List.nil_append, clContents, BlockChain.contents_nil,
          List.append_nil]
  | own n =>
      have hlast := h.last
      unfold Chlist.LastOk at hlast
      rw [hl] at hlast
      have hend : n.clnHeader.blNext = suDaddrNull := by
        unfold Chlist.Linkable at hlink
        rw [hl] at hlink
        exact hlink
      -- the block of the last node ends the chain
      obtain ⟨as, rest, rfl⟩ := List.append_of_mem hlast.1
      have hrest : rest = [] := by
        refine (h.chain.next_suffix.eq_nil_iff).mpr ?_
        rw [← hlast.2]
        exact hend
      subst hrest
      have hnotin : n.clnDaddr ∉ ts := fun hm => hdisj _ hm (h.subset_addrs hlast.1)
      have hsame : (Blblock.records (⟨{ n.clnHeader with blNext := a }, n.clnData⟩ :
          Blblock Clrecord)) = (cache n.clnDaddr).records := by
        rw [← hlast.2]
        rfl
      have hjoin := h.chain.join
        (x := (⟨{ n.clnHeader with blNext := a }, n.clnData⟩ : Blblock Clrecord)) htail.chain
        fun c hc hm => hdisj c hc (h.subset_addrs hm)
      refine ⟨Function.update cache n.clnDaddr
        (⟨{ n.clnHeader with blNext := a }, n.clnData⟩ : Blblock Clrecord),
        { l with clLastnode := .null }, ?_,
        ⟨?_, trivial, fun _ => ?_, h.room, fun b hb => ?_, hnodup⟩, rfl, rfl, ?_, fun b hb => ?_⟩
      · unfold SolidDB.setLastNext
        rw [hl]
        rfl
      · rw [List.append_assoc, List.singleton_append]
        exact hjoin
      · exact fun e => htail.nonempty (List.append_eq_nil_iff.mp e).2
      · by_cases hbn : b = n.clnDaddr
        · have hroom := h.blocks_room n.clnDaddr hlast.1
          rw [← hlast.2] at hroom
          rw [hbn, Function.update_self]
          exact hroom
        · rw [Function.update_of_ne hbn]
          exact (List.mem_append.mp hb).elim (h.blocks_room b) (htail.room b)
      · have hcont (cs : List ℕ) : clContents (Function.update cache n.clnDaddr
            (⟨{ n.clnHeader with blNext := a }, n.clnData⟩ : Blblock Clrecord)) cs =
            clContents cache cs := BlockChain.contents_rewrite hsame cs
        change recordsUpto l.clFirstnode.clnData l.clFirstnode.clnHeader.blNblocks ++
          clContents (Function.update cache n.clnDaddr
            (⟨{ n.clnHeader with blNext := a }, n.clnData⟩ : Blblock Clrecord)) _ = _
        rw [hcont, Chlist.records, clContents, clContents, clContents,
          BlockChain.contents_append, List.append_assoc]
      · refine Function.update_of_ne (fun e => hb ?_) _ _
        rw [e]
        exact hlast.1

theorem Chlist.Good.linktoend (h : l.Good cache bs) (hlink : l.Linkable)
    (htail : ClSaved cache l.clBlocksize a ts) (hdisj : ∀ t ∈ ts, t ∉ l.addrs bs) {fuel : ℕ}
    (hfuel : bs.length + 1 ≤ fuel) :
    ∃ cache' l', dbeClLinktoend fuel cache l a = some (cache', l') ∧
      Linked cache cache' l l' bs ts := by
  have hnull : a ≠ suDaddrNull := fun e => htail.nonempty (htail.chain.eq_nil_iff.mpr e)
  unfold dbeClLinktoend findLastnode
  rw [if_neg hnull]
  cases hl : l.clLastnode with
  | null =>
      obtain ⟨k, rfl⟩ := Nat.exists_eq_add_of_le hfuel
      obtain ⟨l₁, hiter, hgood, haddrs, hrecords, hsize, hends⟩ := h.iterate k
      obtain ⟨n, hown, hend⟩ := hends (h.null hl)
      have hlink₁ : l₁.Linkable := by
        unfold Chlist.Linkable
        rw [hown]
        exact hend
      have hnull₁ : l₁.clLastnode ≠ .null := by
        rw [hown]
        exact fun e => Lastnode.noConfusion e
      obtain ⟨cache', l', hset, hlinked⟩ := hgood.setLastNext hlink₁ hnull₁
        (by rw [hsize]; exact htail) (by rw [haddrs]; exact hdisj)
      refine ⟨cache', l', ?_, hlinked.good, hlinked.blocksize.trans hsize,
        hlinked.addrs.trans haddrs, ?_, hlinked.frame⟩
      · simp only [hiter, Option.map_some, Option.bind_some]
        exact hset
      · rw [hlinked.records, hrecords]
  | firstnode =>
      have hnull' : l.clLastnode ≠ .null := fun e => Lastnode.noConfusion (hl.symm.trans e)
      exact h.setLastNext hlink hnull' htail hdisj
  | own n =>
      have hnull' : l.clLastnode ≠ .null := fun e => Lastnode.noConfusion (hl.symm.trans e)
      exact h.setLastNext hlink hnull' htail hdisj

/-! ## Saving the tail -/

/-- The tail stands in a chain, and what it keeps apart from it is a spare block. -/
structure TailSaved (cache cache' : Clcache) (tail tail' : Chlist) (ts : List ℕ)
    (answers : List ℕ) (start : ℕ) (ts' : List ℕ) : Prop where
  blocksize : tail'.clBlocksize = tail.clBlocksize
  saved : ClSaved cache' tail.clBlocksize start ts'
  contents : (clContents cache' ts').Perm (tail.records cache ts)
  sub : ∀ b ∈ ts', b ∈ tail.addrs ts ∨ b ∈ answers
  last : ∀ n, tail'.clLastnode = .own n → n.clnDaddr ∈ ts' ∧ n.block = cache' n.clnDaddr
  spare : ∀ b ∈ daddrList tail'.clSpareblock, b ∈ tail.addrs ts ∧ b ∉ ts'
  frame : ∀ b, b ∉ tail.addrs ts → b ∉ answers → cache' b = cache b

theorem Chlist.Good.saveTail {answer'' : ℕ} (h : tail.Good cache ts) (hclean : tail.Clean cache)
    (hfresh : FreshFor [answer, answer', answer''] (tail.addrs ts)) :
    ∃ ts', TailSaved cache (saveTail cache tail answer answer' answer'').1 tail
      (saveTail cache tail answer answer' answer'').2.1 ts [answer, answer', answer'']
      (saveTail cache tail answer answer' answer'').2.2 ts' := by
  unfold SolidDB.saveTail
  by_cases hnull : tail.clFirstnode.clnDaddr = suDaddrNull
  · rw [if_pos hnull]
    have hnodup := hfresh.nodup
    simp only [List.nodup_cons, List.mem_cons, List.not_mem_nil, or_false, not_or] at hnodup
    obtain ⟨⟨haa', haa''⟩, ha'a'', -⟩ := hnodup
    have hprep : FreshFor [answer, answer'] (tail.addrs ts) := by
      refine ⟨?_, fun a ha => hfresh.ne_null a ?_, fun a ha => hfresh.notMem a ?_⟩
      · exact List.nodup_cons.mpr ⟨fun e => haa' (List.mem_singleton.mp e), List.nodup_singleton _⟩
      · exact List.mem_append_left [answer''] ha
      · exact List.mem_append_left [answer''] ha
    obtain ⟨bs', hkept, -⟩ := h.preparetosave hprep
    have hmem : answer'' ∈ [answer, answer', answer''] := by simp
    have hsave : FreshFor [answer'']
        ((dbeClPreparetosave cache tail answer answer').2.addrs bs') := by
      refine ⟨List.nodup_singleton _, fun a ha => ?_, fun a ha hm => ?_⟩
      · rw [List.mem_singleton.mp ha]
        exact hfresh.ne_null answer'' hmem
      · rw [List.mem_singleton.mp ha] at hm
        rcases hkept.sub answer'' hm with hold | hans
        · exact hfresh.notMem answer'' hmem hold
        · rcases List.mem_cons.mp hans with e | hans
          · exact haa'' e.symm
          · exact ha'a'' (List.mem_singleton.mp hans).symm
    obtain ⟨ts', hsaved, hcontents, hsub, -, -, -, -, hframe⟩ := hkept.good.save hsave
      (dbeClPreparetosave cache tail answer answer').2.clNextcpnum
    have hanswers {b : ℕ} (hb : b ∈ [answer, answer']) : b ∈ [answer, answer', answer''] :=
      List.mem_append_left [answer''] hb
    refine ⟨ts', hkept.blocksize, ?_, ?_, fun b hb => ?_, fun n hn => ?_, fun b hb => ?_,
      fun b hb hans => ?_⟩
    · rw [← hkept.blocksize]
      exact hsaved
    · rw [hcontents]
      exact hkept.records
    · rcases hsub b hb with hb | rfl
      · exact (hkept.sub b hb).imp_right hanswers
      · exact .inr hmem
    · exact Lastnode.noConfusion hn
    · change b ∈ daddrList suDaddrNull at hb
      rw [daddrList_null] at hb
      exact absurd hb List.not_mem_nil
    · have hb' : b ∉ [answer, answer'] := fun hm => hans (hanswers hm)
      have hne : b ≠ answer'' := fun e => hans (e ▸ hmem)
      refine (hframe b (fun hm => ?_) hne).trans (hkept.frame b hb hb')
      exact (hkept.sub b hm).elim hb hb'
  · -- the chain begins with the block of the first node
    rw [if_neg hnull]
    obtain ⟨hnext, hrecords⟩ := hclean.resolve_left hnull
    have hfirst : tail.clFirstnode.clnDaddr ∈ tail.addrs ts :=
      Chlist.mem_addrs.mpr (.inl ⟨rfl, hnull⟩)
    refine ⟨tail.clFirstnode.clnDaddr :: ts, rfl, ⟨⟨rfl, hnull, ?_⟩, List.cons_ne_nil _ _,
      fun b hb => ?_⟩, ?_, fun b hb => ?_, fun n hn => ?_, fun b hb => ?_, fun _ _ _ => rfl⟩
    · change Blchain cache (cache tail.clFirstnode.clnDaddr).header.blNext ts
      rw [hnext]
      exact h.chain
    · rcases List.mem_cons.mp hb with rfl | hb
      · have hlength := congrArg List.length hrecords
        rw [Blblock.records, length_recordsUpto, length_recordsUpto] at hlength
        rw [hlength]
        exact h.room
      · exact h.blocks_room b hb
    · refine List.Perm.of_eq ?_
      rw [Chlist.records, ← hrecords]
      rfl
    · rcases List.mem_cons.mp hb with rfl | hb
      · exact .inl hfirst
      · exact .inl (h.subset_addrs hb)
    · have hlast := h.last
      change tail.clLastnode = .own n at hn
      unfold Chlist.LastOk at hlast
      rw [hn] at hlast
      exact ⟨List.mem_cons_of_mem _ hlast.1, hlast.2⟩
    · have hrest : b ∈ daddrList tail.clSpareblock ++ ts := List.mem_append_left ts hb
      refine ⟨List.mem_append_right _ hrest, fun hm => ?_⟩
      rcases List.mem_cons.mp hm with rfl | hm
      · exact h.daddr_notMem_rest hnull hrest
      · exact (List.nodup_append.mp (List.nodup_append.mp h.nodup).2.1).2.2 b hb b hm rfl

structure LinkedTogether (cache cache' : Clcache) (head tail head' tail' : Chlist)
    (bs ts answers bs' : List ℕ) : Prop where
  head_good : head'.Good cache' bs'
  tail_good : tail'.Good cache' []
  head_blocksize : head'.clBlocksize = head.clBlocksize
  tail_blocksize : tail'.clBlocksize = head.clBlocksize
  head_records : (head'.records cache' bs').Perm (head.records cache bs ++ tail.records cache ts)
  tail_records : tail'.records cache' [] = []
  head_sub : ∀ b ∈ head'.addrs bs', b ∈ head.addrs bs ∨ b ∈ tail.addrs ts ∨ b ∈ answers
  tail_sub : ∀ b ∈ tail'.addrs [], b ∈ tail.addrs ts
  disjoint : ∀ b ∈ tail'.addrs [], b ∉ head'.addrs bs'
  frame : ∀ b, b ∉ head.addrs bs → b ∉ tail.addrs ts → b ∉ answers → cache' b = cache b

theorem addrs_emptyTail (tail : Chlist) :
    (emptyTail tail).addrs [] = daddrList tail.clSpareblock := by
  change daddrList suDaddrNull ++ (daddrList tail.clSpareblock ++ []) = _
  rw [daddrList_null, List.nil_append, List.append_nil]

theorem Chlist.Good.takeLastnode (h : head.Good cache bs)
    (hlast : ∀ n, tail.clLastnode = .own n → n.clnDaddr ∈ bs ∧ n.block = cache n.clnDaddr) :
    (takeLastnode head tail).Good cache bs ∧ (takeLastnode head tail).addrs bs = head.addrs bs ∧
      (takeLastnode head tail).records cache bs = head.records cache bs ∧
      (takeLastnode head tail).clBlocksize = head.clBlocksize := by
  unfold SolidDB.takeLastnode
  cases hl : tail.clLastnode with
  | null => exact ⟨h, rfl, rfl, rfl⟩
  | firstnode => exact ⟨h, rfl, rfl, rfl⟩
  | own n =>
      exact ⟨⟨h.chain, hlast n hl, fun e => Lastnode.noConfusion e, h.room, h.blocks_room,
        h.nodup⟩, rfl, rfl, rfl⟩

theorem Chlist.Good.linktogether {answer'' fuel : ℕ} (hhead : head.Good cache bs)
    (htail : tail.Good cache ts) (hsize : tail.clBlocksize = head.clBlocksize)
    (hdisj : ∀ b ∈ tail.addrs ts, b ∉ head.addrs bs)
    (hfresh : FreshFor [answer, answer', answer''] (head.addrs bs ++ tail.addrs ts))
    (hlink : head.Linkable) (hclean : tail.Clean cache) (hfuel : bs.length + 1 ≤ fuel) :
    ∃ cache' head' tail' bs',
      dbeClLinktogether fuel cache head tail answer answer' answer'' =
        some (cache', head', tail') ∧
      LinkedTogether cache cache' head tail head' tail' bs ts [answer, answer', answer''] bs' := by
  obtain ⟨ts', hsaved⟩ := htail.saveTail hclean
    (hfresh.mono fun a ha => List.mem_append_right _ ha)
  have hkeeps (b : ℕ) (hb : b ∈ head.addrs bs) :
      (SolidDB.saveTail cache tail answer answer' answer'').1 b = cache b :=
    hsaved.frame b (fun hm => hdisj b hm hb)
      fun hm => hfresh.notMem b hm (List.mem_append_left _ hb)
  have hkeeps' (b : ℕ) (hb : b ∈ bs) := hkeeps b (hhead.subset_addrs hb)
  have hoff (b : ℕ) (hb : b ∈ ts') : b ∉ head.addrs bs := by
    rcases hsaved.sub b hb with hb | hb
    · exact hdisj b hb
    · exact fun hm => hfresh.notMem b hb (List.mem_append_left _ hm)
  obtain ⟨cache', head', hlinktoend, hlinked⟩ := (hhead.frame hkeeps').linktoend hlink
    (by rw [← hsize]; exact hsaved.saved) hoff hfuel
  have hlast (n : Clnode)
      (hn : (SolidDB.saveTail cache tail answer answer' answer'').2.1.clLastnode = .own n) :
      n.clnDaddr ∈ bs ++ ts' ∧ n.block = cache' n.clnDaddr := by
    obtain ⟨hmem, hblock⟩ := hsaved.last n hn
    refine ⟨List.mem_append_right bs hmem, ?_⟩
    rw [hblock]
    exact (hlinked.frame _ fun hm => hoff _ hmem (hhead.subset_addrs hm)).symm
  obtain ⟨hgood, haddrs, hrecords, hblocksize⟩ := hlinked.good.takeLastnode hlast
  have hsame : head'.addrs (bs ++ ts') = head.addrs bs ++ ts' := by
    rw [Chlist.addrs_append, hlinked.addrs]
  have hcontents : clContents (SolidDB.saveTail cache tail answer answer' answer'').1 bs =
      clContents cache bs := clContents_congr hkeeps'
  have hspare := addrs_emptyTail (SolidDB.saveTail cache tail answer answer' answer'').2.1
  refine ⟨cache', _, emptyTail (SolidDB.saveTail cache tail answer answer' answer'').2.1,
    bs ++ ts', ?_, hgood, ⟨rfl, trivial, fun e => Lastnode.noConfusion e,
    Nat.zero_le _, fun b hb => absurd hb List.not_mem_nil, ?_⟩, hblocksize.trans hlinked.blocksize,
    ?_, ?_, rfl, fun b hb => ?_, fun b hb => ?_, fun b hb => ?_, fun b hb hb' hb'' => ?_⟩
  · unfold dbeClLinktogether
    simp only [hlinktoend, Option.map_some]
  · rw [hspare]
    unfold daddrList
    split
    · exact List.nodup_nil
    · exact List.nodup_singleton _
  · exact hsaved.blocksize.trans hsize
  · rw [hrecords, hlinked.records, Chlist.records, hcontents]
    exact hsaved.contents.append_left _
  · rw [haddrs, hsame] at hb
    exact (List.mem_append.mp hb).imp_right (hsaved.sub b)
  · rw [hspare] at hb
    exact (hsaved.spare b hb).1
  · rw [hspare] at hb
    rw [haddrs, hsame, List.mem_append]
    exact not_or.mpr ⟨hdisj b (hsaved.spare b hb).1, (hsaved.spare b hb).2⟩
  · rw [hlinked.frame b fun hm => hb (hhead.subset_addrs hm), hsaved.frame b hb' hb'']

end SolidDB
