import SolidDB.Dbe.Clst
import Mathlib.Data.List.Perm.Basic

/-!
# What a change list holds

The records of a list are those of its first node and of its chain. The copy of the last
node, where there is one, has what its block has. The last-node pointer may be stale: it
may be the first node of a list that has a chain, or a node before the last one. Only a
link behind a stale node goes wrong.
-/

namespace SolidDB

def daddrList (a : ℕ) : List ℕ := if a = suDaddrNull then [] else [a]

@[simp] theorem daddrList_null : daddrList suDaddrNull = [] := if_pos rfl

theorem daddrList_of_ne {a : ℕ} (h : a ≠ suDaddrNull) : daddrList a = [a] := if_neg h

def clContents (cache : Clcache) (bs : List ℕ) : List Clrecord :=
  BlockChain.contents Blblock.records cache bs

namespace Chlist

def addrs (l : Chlist) (bs : List ℕ) : List ℕ :=
  daddrList l.clFirstnode.clnDaddr ++ (daddrList l.clSpareblock ++ bs)

def records (cache : Clcache) (l : Chlist) (bs : List ℕ) : List Clrecord :=
  recordsUpto l.clFirstnode.clnData l.clFirstnode.clnHeader.blNblocks ++ clContents cache bs

/-- A copy of the last node is that of a block of the chain. -/
def LastOk (cache : Clcache) (l : Chlist) (bs : List ℕ) : Prop :=
  match l.clLastnode with
  | .own n => n.clnDaddr ∈ bs ∧ n.block = cache n.clnDaddr
  | _ => True

structure Good (cache : Clcache) (l : Chlist) (bs : List ℕ) : Prop where
  chain : Blchain cache l.clFirstnode.clnHeader.blNext bs
  last : l.LastOk cache bs
  null : l.clLastnode = .null → bs ≠ []
  room : l.clFirstnode.clnHeader.blNblocks ≤ dbeClnodeCapacity l.clBlocksize
  blocks_room : ∀ b ∈ bs, (cache b).header.blNblocks ≤ dbeClnodeCapacity l.clBlocksize
  nodup : (l.addrs bs).Nodup

end Chlist

variable {cache cache' : Clcache} {l head tail : Chlist} {bs ts : List ℕ} {r : Clrecord}
  {saveDaddr answer answer' nextCpnum a : ℕ} {n : Clnode}

theorem Chlist.mem_addrs : a ∈ l.addrs bs ↔
    (a = l.clFirstnode.clnDaddr ∧ a ≠ suDaddrNull) ∨
      (a = l.clSpareblock ∧ a ≠ suDaddrNull) ∨ a ∈ bs := by
  have hlist (b : ℕ) : a ∈ daddrList b ↔ a = b ∧ a ≠ suDaddrNull := by
    unfold daddrList
    by_cases hb : b = suDaddrNull
    · rw [if_pos hb, hb]
      simp
    · rw [if_neg hb, List.mem_singleton]
      exact ⟨fun h => ⟨h, h ▸ hb⟩, fun h => h.1⟩
  rw [Chlist.addrs, List.mem_append, List.mem_append, hlist, hlist]

namespace Chlist.Good

theorem subset_addrs (_ : l.Good cache bs) : bs ⊆ l.addrs bs :=
  fun _ ha => Chlist.mem_addrs.mpr (.inr (.inr ha))

theorem nodup_chain (h : l.Good cache bs) : bs.Nodup := h.chain.nodup

theorem daddr_notMem_rest (h : l.Good cache bs) (hne : l.clFirstnode.clnDaddr ≠ suDaddrNull) :
    l.clFirstnode.clnDaddr ∉ daddrList l.clSpareblock ++ bs := by
  have hnodup := h.nodup
  rw [Chlist.addrs, daddrList_of_ne hne, List.singleton_append] at hnodup
  exact (List.nodup_cons.mp hnodup).1

theorem daddr_notMem (h : l.Good cache bs) : l.clFirstnode.clnDaddr ∉ bs := by
  intro hmem
  exact h.daddr_notMem_rest (h.chain.ne_null hmem) (List.mem_append_right _ hmem)

theorem spare_notMem (h : l.Good cache bs) : l.clSpareblock ∉ bs := by
  intro hmem
  have hne := h.chain.ne_null hmem
  have hnodup := (List.nodup_append.mp h.nodup).2.1
  rw [daddrList_of_ne hne, List.singleton_append] at hnodup
  exact (List.nodup_cons.mp hnodup).1 hmem

theorem frame (h : l.Good cache bs) (hd : ∀ b ∈ bs, cache' b = cache b) :
    l.Good cache' bs := by
  refine ⟨h.chain.congr fun b hb => by rw [hd b hb], ?_, h.null, h.room, fun b hb => ?_,
    h.nodup⟩
  · have hlast := h.last
    unfold Chlist.LastOk at hlast ⊢
    cases hl : l.clLastnode with
    | null => trivial
    | firstnode => trivial
    | own n =>
        rw [hl] at hlast
        exact ⟨hlast.1, by rw [hd _ hlast.1]; exact hlast.2⟩
  · rw [hd b hb]
    exact h.blocks_room b hb

end Chlist.Good

theorem clContents_congr (h : ∀ b ∈ bs, cache' b = cache b) :
    clContents cache' bs = clContents cache bs :=
  BlockChain.contents_congr fun b hb => by rw [h b hb]

/-! ## Writing the first node -/

theorem write1nodeImage_daddr (l : Chlist) (saveDaddr answer : ℕ) :
    (write1nodeImage l saveDaddr answer).clnDaddr =
      if l.InPlace then l.clFirstnode.clnDaddr
      else if saveDaddr = suDaddrNull then answer else saveDaddr := by
  unfold write1nodeImage
  by_cases hin : l.InPlace
  · rw [if_pos hin, if_pos hin]
  · rw [if_neg hin, if_neg hin]
    by_cases hnull : saveDaddr = suDaddrNull
    · rw [if_pos hnull, if_pos hnull]
    · rw [if_neg hnull, if_neg hnull]

theorem write1nodeImage_eq (l : Chlist) (saveDaddr answer : ℕ) :
    (write1nodeImage l saveDaddr answer).clnHeader.blNext = l.clFirstnode.clnHeader.blNext ∧
      (write1nodeImage l saveDaddr answer).clnHeader.blNblocks =
        l.clFirstnode.clnHeader.blNblocks ∧
      (write1nodeImage l saveDaddr answer).clnData = l.clFirstnode.clnData := by
  unfold write1nodeImage
  split
  · exact ⟨rfl, rfl, rfl⟩
  · split
    · exact ⟨rfl, rfl, rfl⟩
    · exact ⟨rfl, rfl, rfl⟩

structure Written (cache cache' : Clcache) (l l' : Chlist) (bs : List ℕ) (w : ℕ) : Prop where
  first_next : l'.clFirstnode.clnHeader.blNext = w
  first_daddr : l'.clFirstnode.clnDaddr = suDaddrNull
  first_nblocks : l'.clFirstnode.clnHeader.blNblocks = 0
  blocksize : l'.clBlocksize = l.clBlocksize
  spare : l'.clSpareblock = l.clSpareblock
  nextcpnum : l'.clNextcpnum = l.clNextcpnum
  chain : Blchain cache' w (w :: bs)
  last : l'.LastOk cache' (w :: bs)
  blocks_room : ∀ b ∈ w :: bs, (cache' b).header.blNblocks ≤ dbeClnodeCapacity l.clBlocksize
  contents : clContents cache' (w :: bs) = l.records cache bs
  frame : ∀ b, b ≠ w → cache' b = cache b

theorem Chlist.Good.write1node (h : l.Good cache bs) {w : ℕ}
    (hw : (write1nodeImage l saveDaddr answer).clnDaddr = w) (hbs : w ∉ bs)
    (hnull : w ≠ suDaddrNull) :
    Written cache (dbeClWrite1node cache l saveDaddr answer).1 l
      (dbeClWrite1node cache l saveDaddr answer).2 bs w := by
  obtain ⟨hnext, hnblocks, hdata⟩ := write1nodeImage_eq l saveDaddr answer
  have hchain : Blchain cache
      (Blblock.next (write1nodeImage l saveDaddr answer).block) bs := by
    change Blchain cache (write1nodeImage l saveDaddr answer).clnHeader.blNext bs
    rw [hnext]
    exact h.chain
  have hcache : (dbeClWrite1node cache l saveDaddr answer).1 =
      Function.update cache w (write1nodeImage l saveDaddr answer).block := by
    rw [← hw]
    rfl
  refine ⟨hw, rfl, ?_, rfl, rfl, rfl, ?_, ?_, fun b hb => ?_, ?_, fun b hb => ?_⟩
  · unfold dbeClWrite1node
    rfl
  · rw [hcache]
    exact hchain.push hbs hnull
  · rw [hcache]
    unfold Chlist.LastOk dbeClWrite1node
    have hlast := h.last
    have hself : (write1nodeImage l saveDaddr answer).clnDaddr ∈ w :: bs ∧
        (write1nodeImage l saveDaddr answer).block =
          Function.update cache w (write1nodeImage l saveDaddr answer).block
            (write1nodeImage l saveDaddr answer).clnDaddr := by
      rw [hw, Function.update_self]
      exact ⟨List.mem_cons_self, rfl⟩
    unfold Chlist.LastOk at hlast
    cases hl : l.clLastnode with
    | firstnode => exact hself
    | null =>
        by_cases hend : (write1nodeImage l saveDaddr answer).clnHeader.blNext = suDaddrNull
        · simp only [hend, decide_true, if_true]
          exact hself
        · simp only [hend, decide_false, Bool.false_eq_true, if_false]
    | own n =>
        rw [hl] at hlast
        simp only [Bool.false_eq_true, if_false]
        have hne : n.clnDaddr ≠ w := fun e => hbs (e ▸ hlast.1)
        rw [Function.update_of_ne hne]
        exact ⟨List.mem_cons_of_mem w hlast.1, hlast.2⟩
  · rw [hcache]
    rcases List.mem_cons.mp hb with rfl | hb
    · rw [Function.update_self]
      change (write1nodeImage l saveDaddr answer).clnHeader.blNblocks ≤ _
      rw [hnblocks]
      exact h.room
    · have hne : b ≠ w := fun e => hbs (e ▸ hb)
      rw [Function.update_of_ne hne]
      exact h.blocks_room b hb
  · rw [hcache, clContents, BlockChain.contents_push hbs]
    change recordsUpto (write1nodeImage l saveDaddr answer).clnData
      (write1nodeImage l saveDaddr answer).clnHeader.blNblocks ++ _ = _
    rw [hnblocks, hdata]
    rfl
  · rw [hcache]
    exact Function.update_of_ne hb _ _

/-- A list operation that writes to no block but those of the list and the given ones. -/
structure Kept (cache cache' : Clcache) (l l' : Chlist) (bs : List ℕ) (answers : List ℕ)
    (added : List Clrecord) (bs' : List ℕ) : Prop where
  good : l'.Good cache' bs'
  blocksize : l'.clBlocksize = l.clBlocksize
  records : (l'.records cache' bs').Perm (added ++ l.records cache bs)
  sub : ∀ b ∈ l'.addrs bs', b ∈ l.addrs bs ∨ b ∈ answers
  frame : ∀ b, b ∉ l.addrs bs → b ∉ answers → cache' b = cache b

theorem Chlist.Good.kept_self (h : l.Good cache bs) (answers : List ℕ) :
    Kept cache cache l l bs answers [] bs :=
  ⟨h, rfl, List.Perm.refl _, fun _ hb => .inl hb, fun _ _ _ => rfl⟩

structure FreshFor (answers : List ℕ) (owned : List ℕ) : Prop where
  nodup : answers.Nodup
  ne_null : ∀ a ∈ answers, a ≠ suDaddrNull
  notMem : ∀ a ∈ answers, a ∉ owned

theorem Chlist.Good.writeFull (h : l.Good cache bs) (hfresh : FreshFor [answer] (l.addrs bs)) :
    ∃ bs', Kept cache (writeFull cache l answer).1 l (writeFull cache l answer).2 bs [answer]
        [] bs' ∧
      (writeFull cache l answer).2.clFirstnode.clnHeader.blNblocks <
        dbeClnodeCapacity l.clBlocksize := by
  unfold SolidDB.writeFull
  by_cases hfull : l.clFirstnode.clnHeader.blNblocks = dbeClnodeCapacity l.clBlocksize
  · rw [if_pos hfull]
    have hanswer := hfresh.notMem answer List.mem_cons_self
    obtain ⟨w, hw, hbs, hnull, hspare, hown⟩ : ∃ w,
        (write1nodeImage l suDaddrNull answer).clnDaddr = w ∧ w ∉ bs ∧ w ≠ suDaddrNull ∧
          w ∉ daddrList l.clSpareblock ∧ (w ∈ l.addrs bs ∨ w = answer) := by
      refine ⟨_, rfl, ?_⟩
      rw [write1nodeImage_daddr, if_pos rfl]
      by_cases hin : l.InPlace
      · rw [if_pos hin]
        refine ⟨h.daddr_notMem, hin.1, fun hmem => ?_,
          .inl (Chlist.mem_addrs.mpr (.inl ⟨rfl, hin.1⟩))⟩
        exact h.daddr_notMem_rest hin.1 (List.mem_append_left _ hmem)
      · rw [if_neg hin]
        have hne := hfresh.ne_null answer List.mem_cons_self
        refine ⟨fun hmem => hanswer (h.subset_addrs hmem), hne, fun hmem => hanswer ?_, .inr rfl⟩
        exact List.mem_append_right _ (List.mem_append_left _ hmem)
    have hwr := h.write1node hw hbs hnull
    refine ⟨w :: bs, ⟨⟨?_, hwr.last, fun _ => List.cons_ne_nil w bs, ?_, ?_, ?_⟩, rfl, ?_,
      fun b hb => ?_, fun b hb hb' => hwr.frame b ?_⟩, ?_⟩
    · rw [hwr.first_next]
      exact hwr.chain
    · rw [hwr.first_nblocks]
      exact Nat.zero_le _
    · rw [hwr.blocksize]
      exact hwr.blocks_room
    · rw [Chlist.addrs, hwr.first_daddr, hwr.spare, daddrList_null, List.nil_append]
      refine List.nodup_append.mpr ⟨?_, List.nodup_cons.mpr ⟨hbs, h.nodup_chain⟩, ?_⟩
      · exact (List.nodup_append.mp (List.nodup_append.mp h.nodup).2.1).1
      · intro b hb c hc
        rcases List.mem_cons.mp hc with rfl | hc
        · exact fun e => hspare (e ▸ hb)
        · exact (List.nodup_append.mp (List.nodup_append.mp h.nodup).2.1).2.2 b hb c hc
    · rw [Chlist.records, hwr.first_nblocks, recordsUpto_zero, hwr.contents]
    · rcases Chlist.mem_addrs.mp hb with ⟨he, hne⟩ | ⟨he, hne⟩ | hb
      · exact absurd (he.trans hwr.first_daddr) hne
      · rw [hwr.spare] at he
        exact .inl (Chlist.mem_addrs.mpr (.inr (.inl ⟨he, hne⟩)))
      · rcases List.mem_cons.mp hb with rfl | hb
        · exact hown.imp_right fun e => List.mem_singleton.mpr e
        · exact .inl (h.subset_addrs hb)
    · rintro rfl
      rcases hown with hown | rfl
      · exact hb hown
      · exact hb' List.mem_cons_self
    · rw [hwr.first_nblocks]
      exact dbeClnodeCapacity_pos _
  · rw [if_neg hfull]
    exact ⟨bs, h.kept_self [answer], lt_of_le_of_ne h.room hfull⟩

/-! ## The operations on one list -/

theorem Kept.trans {cache₂ : Clcache} {l' l₂ : Chlist} {bs' bs₂ : List ℕ}
    {answers answers₂ : List ℕ} {added added₂ : List Clrecord}
    (h : Kept cache cache' l l' bs answers added bs')
    (h₂ : Kept cache' cache₂ l' l₂ bs' answers₂ added₂ bs₂) :
    Kept cache cache₂ l l₂ bs (answers ++ answers₂) (added₂ ++ added) bs₂ where
  good := h₂.good
  blocksize := h₂.blocksize.trans h.blocksize
  records := by
    rw [List.append_assoc]
    exact h₂.records.trans (h.records.append_left added₂)
  sub := fun b hb => by
    rcases h₂.sub b hb with hb | hb
    · exact (h.sub b hb).imp_right (List.mem_append_left answers₂)
    · exact .inr (List.mem_append_right answers hb)
  frame := fun b hb hans => by
    have hans' := not_or.mp (fun hm => hans (List.mem_append.mpr hm))
    rw [h₂.frame b (fun hm => (h.sub b hm).elim hb hans'.1) hans'.2, h.frame b hb hans'.1]

theorem Chlist.Good.memory {l' : Chlist} (h : l.Good cache bs)
    (hnext : l'.clFirstnode.clnHeader.blNext = l.clFirstnode.clnHeader.blNext)
    (hlast : l'.clLastnode = l.clLastnode) (hsize : l'.clBlocksize = l.clBlocksize)
    (hroom : l'.clFirstnode.clnHeader.blNblocks ≤ dbeClnodeCapacity l.clBlocksize)
    (hnodup : (l'.addrs bs).Nodup) : l'.Good cache bs where
  chain := by
    rw [hnext]
    exact h.chain
  last := by
    have hl := h.last
    unfold Chlist.LastOk at hl ⊢
    rw [hlast]
    exact hl
  null := fun hnull => h.null (hlast.symm.trans hnull)
  room := by
    rw [hsize]
    exact hroom
  blocks_room := by
    rw [hsize]
    exact h.blocks_room
  nodup := hnodup

theorem Chlist.Good.putRecord (h : l.Good cache bs)
    (hroom : l.clFirstnode.clnHeader.blNblocks < dbeClnodeCapacity l.clBlocksize)
    (r : Clrecord) : Kept cache cache l (putRecord l r) bs [] [r] bs := by
  have hmod : (l.clFirstnode.clnHeader.blNblocks + 1) % 2 ^ 16 =
      l.clFirstnode.clnHeader.blNblocks + 1 :=
    Nat.mod_eq_of_lt (Nat.lt_of_le_of_lt hroom (dbeClnodeCapacity_lt _))
  have hn : (SolidDB.putRecord l r).clFirstnode.clnHeader.blNblocks =
      l.clFirstnode.clnHeader.blNblocks + 1 := hmod
  refine ⟨h.memory rfl rfl rfl ?_ h.nodup, rfl, ?_, fun b hb => .inl hb, fun _ _ _ => rfl⟩
  · rw [hn]
    exact hroom
  · have hdata : (SolidDB.putRecord l r).clFirstnode.clnData =
        Function.update l.clFirstnode.clnData l.clFirstnode.clnHeader.blNblocks r := rfl
    rw [Chlist.records, hn, hdata, recordsUpto_update, Chlist.records, List.append_assoc]
    exact List.perm_middle

theorem FreshFor.mono {answers owned owned' : List ℕ} (h : FreshFor answers owned)
    (hsub : ∀ a ∈ owned', a ∈ owned) : FreshFor answers owned' :=
  ⟨h.nodup, h.ne_null, fun a ha hmem => h.notMem a ha (hsub a hmem)⟩

theorem Chlist.Good.add (h : l.Good cache bs) (hfresh : FreshFor [answer] (l.addrs bs))
    (r : Clrecord) :
    ∃ bs', Kept cache (dbeClAdd cache l r answer).1 l (dbeClAdd cache l r answer).2 bs [answer]
      [r] bs' := by
  obtain ⟨bs', hkept, hroom⟩ := h.writeFull hfresh
  rw [← hkept.blocksize] at hroom
  exact ⟨bs', hkept.trans (hkept.good.putRecord hroom r)⟩

theorem Chlist.Good.reserveSpare (h : l.Good cache bs)
    (hfresh : FreshFor [answer] (l.addrs bs)) :
    Kept cache cache l (reserveSpare l answer) bs [answer] [] bs ∧
      (reserveSpare l answer).clNextcpnum = l.clNextcpnum ∧
      (l.clFirstnode.clnDaddr = suDaddrNull →
        (reserveSpare l answer).clFirstnode.clnDaddr = suDaddrNull) := by
  have hne := hfresh.ne_null answer List.mem_cons_self
  have hanswer := hfresh.notMem answer List.mem_cons_self
  unfold SolidDB.reserveSpare
  by_cases hmove : l.InPlace ∧ l.clSpareblock = suDaddrNull
  · -- the block of the first node becomes the spare block
    obtain ⟨hin, hspare⟩ := hmove
    simp only [if_pos (And.intro hin hspare), if_neg hin.1]
    have haddrs : Chlist.addrs { l with
        clSpareblock := l.clFirstnode.clnDaddr
        clFirstnode := { l.clFirstnode with clnDaddr := suDaddrNull } } bs = l.addrs bs := by
      simp [Chlist.addrs, hspare]
    refine ⟨⟨h.memory rfl rfl rfl h.room ?_, rfl, List.Perm.refl _, fun b hb => .inl ?_,
      fun _ _ _ => rfl⟩,
      trivial, fun _ => trivial⟩
    · rw [haddrs]
      exact h.nodup
    · rw [haddrs] at hb
      exact hb
  · simp only [if_neg hmove]
    by_cases hspare : l.clSpareblock = suDaddrNull
    · simp only [if_pos hspare]
      refine ⟨⟨h.memory rfl rfl rfl h.room ?_, rfl, List.Perm.refl _, fun b hb => ?_,
        fun _ _ _ => rfl⟩,
        trivial, fun he => he⟩
      · have hperm : (Chlist.addrs { l with clSpareblock := answer } bs).Perm
            (answer :: l.addrs bs) := by
          rw [Chlist.addrs, daddrList_of_ne hne, Chlist.addrs, hspare, daddrList_null,
            List.nil_append, List.singleton_append]
          exact List.perm_middle
        exact hperm.nodup_iff.mpr (List.nodup_cons.mpr ⟨hanswer, h.nodup⟩)
      · rcases Chlist.mem_addrs.mp hb with hb | ⟨rfl, -⟩ | hb
        · exact .inl (Chlist.mem_addrs.mpr (.inl hb))
        · exact .inr List.mem_cons_self
        · exact .inl (h.subset_addrs hb)
    · simp only [if_neg hspare]
      exact ⟨h.kept_self [answer], trivial, fun he => he⟩

theorem Chlist.Good.preparetosave (h : l.Good cache bs)
    (hfresh : FreshFor [answer, answer'] (l.addrs bs)) :
    ∃ bs', Kept cache (dbeClPreparetosave cache l answer answer').1 l
      (dbeClPreparetosave cache l answer answer').2 bs [answer, answer'] [] bs' ∧
      (l.clFirstnode.clnDaddr = suDaddrNull →
        (dbeClPreparetosave cache l answer answer').2.clFirstnode.clnDaddr = suDaddrNull) := by
  have hfirst : FreshFor [answer] (l.addrs bs) :=
    ⟨List.nodup_singleton _, fun a ha => hfresh.ne_null a (by simp_all),
      fun a ha => hfresh.notMem a (by simp_all)⟩
  obtain ⟨bs', hkept, -⟩ := h.writeFull hfirst
  have hsecond : FreshFor [answer'] ((SolidDB.writeFull cache l answer).2.addrs bs') := by
    refine ⟨List.nodup_singleton _, fun a ha => hfresh.ne_null a (by simp_all), ?_⟩
    intro a ha hmem
    obtain rfl := List.mem_singleton.mp ha
    rcases hkept.sub a hmem with hold | hans
    · exact hfresh.notMem a (by simp) hold
    · have hpair := (List.nodup_cons.mp hfresh.nodup).1
      rw [List.mem_singleton.mp hans] at hpair
      exact hpair List.mem_cons_self
  obtain ⟨hkept', -, hnull⟩ := hkept.good.reserveSpare hsecond
  refine ⟨bs', hkept.trans hkept', fun hn => hnull ?_⟩
  unfold SolidDB.writeFull
  split
  · rfl
  · exact hn

structure ClSaved (cache : Clcache) (blocksize : Idxblocksize) (start : ℕ) (bs : List ℕ) :
    Prop where
  chain : Blchain cache start bs
  nonempty : bs ≠ []
  room : ∀ b ∈ bs, (cache b).header.blNblocks ≤ dbeClnodeCapacity blocksize

theorem ClSaved.frame {blocksize : Idxblocksize} {start : ℕ}
    (h : ClSaved cache blocksize start bs) (hd : ∀ b ∈ bs, cache' b = cache b) :
    ClSaved cache' blocksize start bs where
  chain := h.chain.congr fun b hb => by rw [hd b hb]
  nonempty := h.nonempty
  room := fun b hb => by
    rw [hd b hb]
    exact h.room b hb

/-- `cl_save_nomutex` makes a chain of all records. The list is empty after it. -/
theorem Chlist.Good.save (h : l.Good cache bs) (hfresh : FreshFor [answer] (l.addrs bs))
    (nextCpnum : ℕ) :
    ∃ bs', ClSaved (clSave cache l nextCpnum answer).1 l.clBlocksize
        (clSave cache l nextCpnum answer).2.2 bs' ∧
      clContents (clSave cache l nextCpnum answer).1 bs' = l.records cache bs ∧
      (∀ b ∈ bs', b ∈ l.addrs bs ∨ b = answer) ∧
      (clSave cache l nextCpnum answer).2.1.Good (clSave cache l nextCpnum answer).1 [] ∧
      (clSave cache l nextCpnum answer).2.1.addrs [] = [] ∧
      (clSave cache l nextCpnum answer).2.1.records (clSave cache l nextCpnum answer).1 [] = [] ∧
      (clSave cache l nextCpnum answer).2.1.clBlocksize = l.clBlocksize ∧
      ∀ b, b ∉ l.addrs bs → b ≠ answer → (clSave cache l nextCpnum answer).1 b = cache b := by
  have hne := hfresh.ne_null answer List.mem_cons_self
  have hanswer := hfresh.notMem answer List.mem_cons_self
  obtain ⟨w, hw, hbs, hnull, hown⟩ : ∃ w,
      (write1nodeImage l l.clSpareblock answer).clnDaddr = w ∧ w ∉ bs ∧ w ≠ suDaddrNull ∧
        (w ∈ l.addrs bs ∨ w = answer) := by
    refine ⟨_, rfl, ?_⟩
    rw [write1nodeImage_daddr]
    by_cases hin : l.InPlace
    · rw [if_pos hin]
      exact ⟨h.daddr_notMem, hin.1, .inl (Chlist.mem_addrs.mpr (.inl ⟨rfl, hin.1⟩))⟩
    · rw [if_neg hin]
      by_cases hspare : l.clSpareblock = suDaddrNull
      · rw [if_pos hspare]
        exact ⟨fun hmem => hanswer (h.subset_addrs hmem), hne, .inr rfl⟩
      · rw [if_neg hspare]
        exact ⟨h.spare_notMem, hspare,
          .inl (Chlist.mem_addrs.mpr (.inr (.inl ⟨rfl, hspare⟩)))⟩
  have hwr := h.write1node hw hbs hnull
  have haddrs : (clSave cache l nextCpnum answer).2.1.addrs [] = [] := by
    simp [Chlist.addrs, clSave, hwr.first_daddr]
  have hzero : (clSave cache l nextCpnum answer).2.1.clFirstnode.clnHeader.blNblocks = 0 :=
    hwr.first_nblocks
  refine ⟨w :: bs, ⟨?_, List.cons_ne_nil w bs, hwr.blocks_room⟩, hwr.contents, fun b hb => ?_,
    ⟨rfl, trivial, fun hn => ?_, ?_, fun b hb => absurd hb List.not_mem_nil, ?_⟩, haddrs, ?_,
    rfl, fun b hb hb' => hwr.frame b ?_⟩
  · have hstart : (clSave cache l nextCpnum answer).2.2 = w := hwr.first_next
    rw [hstart]
    exact hwr.chain
  · rcases List.mem_cons.mp hb with rfl | hb
    · exact hown
    · exact .inl (h.subset_addrs hb)
  · exact absurd hn (by simp [clSave])
  · rw [hzero]
    exact Nat.zero_le _
  · rw [haddrs]
    exact List.nodup_nil
  · rw [Chlist.records, hzero]
    rfl
  · rintro rfl
    exact hown.elim hb hb'

theorem ClSaved.init {blocksize : Idxblocksize} {b : ℕ}
    (h : ClSaved cache blocksize b (b :: bs)) (nextCpnum : ℕ) :
    (dbeClInit cache blocksize nextCpnum b).Good cache bs ∧
      (dbeClInit cache blocksize nextCpnum b).addrs bs = b :: bs ∧
      (dbeClInit cache blocksize nextCpnum b).records cache bs = clContents cache (b :: bs) := by
  have hnull := h.chain.2.1
  have hfirst : (dbeClInit cache blocksize nextCpnum b).clFirstnode = dbeClRead1node cache b :=
    if_neg hnull
  have hlast : (dbeClInit cache blocksize nextCpnum b).clLastnode =
      if (cache b).header.blNext = suDaddrNull then .firstnode else .null := by
    change (if (dbeClInit cache blocksize nextCpnum b).clFirstnode.clnHeader.blNext =
      suDaddrNull then Lastnode.firstnode else .null) = _
    rw [hfirst]
    rfl
  have haddrs : (dbeClInit cache blocksize nextCpnum b).addrs bs = b :: bs := by
    rw [Chlist.addrs, hfirst]
    change daddrList b ++ (daddrList suDaddrNull ++ bs) = b :: bs
    rw [daddrList_of_ne hnull, daddrList_null]
    rfl
  refine ⟨⟨?_, ?_, fun hn hnil => ?_, ?_, fun c hc => h.room c (List.mem_cons_of_mem b hc), ?_⟩,
    haddrs, ?_⟩
  · rw [hfirst]
    exact h.chain.2.2
  · unfold Chlist.LastOk
    rw [hlast]
    split
    · rename_i n hn
      split at hn
      · exact absurd hn (by simp)
      · exact absurd hn (by simp)
    · trivial
  · subst hnil
    have hend : (cache b).header.blNext = suDaddrNull := h.chain.2.2
    rw [hlast, if_pos hend] at hn
    exact Lastnode.noConfusion hn
  · rw [hfirst]
    exact h.room b List.mem_cons_self
  · rw [haddrs]
    exact h.chain.nodup
  · rw [Chlist.records, hfirst]
    rfl

theorem good_dbeClInit_null (cache : Clcache) (blocksize : Idxblocksize) (nextCpnum : ℕ) :
    (dbeClInit cache blocksize nextCpnum suDaddrNull).Good cache [] where
  chain := rfl
  last := trivial
  null := fun e => Lastnode.noConfusion e
  room := Nat.zero_le _
  blocks_room := fun _ hb => absurd hb List.not_mem_nil
  nodup := List.nodup_nil

theorem Chlist.Good.setnextcpnum (h : l.Good cache bs) (nextCpnum : ℕ) :
    Kept cache cache l (dbeClSetnextcpnum l nextCpnum) bs [] [] bs := by
  unfold dbeClSetnextcpnum
  by_cases hnull : l.clFirstnode.clnDaddr = suDaddrNull
  · simp only [if_pos hnull]
    exact ⟨h.memory rfl rfl rfl h.room h.nodup, rfl, List.Perm.refl _, fun _ hb => .inl hb,
      fun _ _ _ => rfl⟩
  · simp only [if_neg hnull]
    exact ⟨h.memory rfl rfl rfl h.room h.nodup, rfl, List.Perm.refl _, fun _ hb => .inl hb,
      fun _ _ _ => rfl⟩

end SolidDB
