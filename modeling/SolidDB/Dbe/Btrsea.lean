import SolidDB.Dbe.BtreeLeaves

/-!
# B-tree range search

The cursor `dbe_btrsea_t` of a normal search: `dbe_btrsea_getnext` and
`dbe_btrsea_getprev` move over the keys of a leaf and go down the tree again at its
end, `dbe_btrsea_setresetkey` puts the cursor before a key.
-/

namespace SolidDB

section

inductive BseaPos
  | first
  | middle
  | last
deriving DecidableEq

/-- `dbe_btrsea_t`. The fields `bs_nrs`, `bs_krs` and `bs_srk` are in `bsRsea`. The
leaves that `bs_nreadleafs` counts are kept, the last one first. -/
structure Btrsea where
  bsRsea : RseaState
  bsPos : BseaPos
  bsN : ℕ
  bsReadleafs : List ℕ

def dbeMaxloop : ℕ := 5

/-- `dbe_bnode_rsea_getkeypos` gives `DBE_KEYPOS_MIDDLE`. -/
def rseaKeyposMiddle (nrs : BnodeRsea) : Bool :=
  nrs.nrsIndex != 0 && decide (nrs.nrsIndex + 1 < nrs.nrsKeys.length)

def btrseaReadleaf (b : Btree) (bs : Btrsea) (addr : ℕ) (krs : Bkrs) : Btrsea where
  bsRsea := ⟨dbeBnodeRseaInitst (b.node addr).nKeys, krs, bs.bsRsea.srk⟩
  bsPos := .middle
  bsN := addr
  bsReadleafs := addr :: bs.bsReadleafs

/-- `dbe_btrsea_initbufvalidate` without merge search. -/
def dbeBtrseaInit (b : Btree) (kb ke : Option (List UInt8)) (keOpen : Bool) :
    Option Btrsea :=
  let krs := dbeBkrsInit kb ke keOpen
  (dbeBkrsStartnextstep krs).bind fun krs =>
    (btrseaNextorprevnode b .next krs).map fun (addr, krs) =>
      { bsRsea := ⟨dbeBnodeRseaInitst (b.node addr).nKeys, krs, krs.krsKb⟩
        bsPos := .first
        bsN := addr
        bsReadleafs := [addr] }

def dbeBtrseaSetresetkey (b : Btree) (bs : Btrsea) (k : List UInt8) : Option Btrsea :=
  (dbeBkrsStartnextstep (dbeBkrsSetresetkey bs.bsRsea.krs k)).bind fun krs =>
    (btrseaNextorprevnode b .reset krs).map fun (addr, krs) =>
      btrseaReadleaf b { bs with bsReadleafs := [] } addr krs

/-- The loop of `dbe_btrsea_getnext`. The key constraints and time constraints of the
search are those of `checkcons`, which stands for `btrsea_checkcons`. -/
def btrseaGetnextLoop (b : Btree) (checkcons : List UInt8 → DbeRet) :
    ℕ → ℕ → Btrsea → Option (DbeRet × Btrsea)
  | 0, _, _ => none
  | fuel + 1, nloop, bs =>
      (dbeBnodeRseaNext bs.bsRsea).bind fun (rc, s) =>
        match rc with
        | .found =>
            let consRc := checkcons s.srk
            let bs := { bs with bsRsea := s, bsPos := .middle }
            if consRc = .notfound ∧ rseaKeyposMiddle s.nrs ∧ nloop < dbeMaxloop then
              btrseaGetnextLoop b checkcons fuel (nloop + 1) bs
            else some (consRc, bs)
        | .notfound =>
            -- the end of the leaf
            let s := { s with nrs := dbeBnodeRseaDonest s.nrs }
            match dbeBkrsStartnextstep s.krs with
            | none => some (.ended, { bs with bsRsea := s, bsPos := .last })
            | some krs => (btrseaNextorprevnode b .next krs).bind fun (addr, krs) =>
                btrseaGetnextLoop b checkcons fuel (nloop + 1)
                  (btrseaReadleaf b { bs with bsRsea := s } addr krs)
        | _ => some (.ended, { bs with bsRsea := s, bsPos := .last })

def dbeBtrseaGetnext (b : Btree) (checkcons : List UInt8 → DbeRet) (fuel : ℕ)
    (bs : Btrsea) : Option (DbeRet × Btrsea) :=
  if bs.bsPos = .last then some (.ended, bs)
  else btrseaGetnextLoop b checkcons fuel 0 bs

/-- The loop of `dbe_btrsea_getprev`. -/
def btrseaGetprevLoop (b : Btree) (checkcons : List UInt8 → DbeRet) :
    ℕ → ℕ → Btrsea → Option (DbeRet × Btrsea)
  | 0, _, _ => none
  | fuel + 1, nloop, bs =>
      (dbeBnodeRseaPrev bs.bsRsea).bind fun (rc, s) =>
        match rc with
        | .found =>
            let consRc := checkcons s.srk
            let bs := { bs with bsRsea := s, bsPos := .middle }
            if consRc = .notfound ∧ rseaKeyposMiddle s.nrs ∧ nloop < dbeMaxloop then
              btrseaGetprevLoop b checkcons fuel (nloop + 1) bs
            else some (consRc, bs)
        | .notfound =>
            -- the beginning of the leaf
            let s := { s with nrs := dbeBnodeRseaDonest s.nrs }
            match dbeBkrsStartprevstep s.krs with
            | none => some (.ended, { bs with bsRsea := s, bsPos := .first })
            | some krs => (btrseaNextorprevnode b .prev krs).bind fun (addr, krs) =>
                btrseaGetprevLoop b checkcons fuel (nloop + 1)
                  (btrseaReadleaf b { bs with bsRsea := s } addr (dbeBkrsFixprevstep krs))
        | _ => some (.ended, { bs with bsRsea := s, bsPos := .first })

def dbeBtrseaGetprev (b : Btree) (checkcons : List UInt8 → DbeRet) (fuel : ℕ)
    (bs : Btrsea) : Option (DbeRet × Btrsea) :=
  if bs.bsPos = .first then some (.ended, bs)
  else btrseaGetprevLoop b checkcons fuel 0 bs

/-- A caller repeats a call until the end of the search and keeps the keys that it
returns. With `DBE_RC_NOTFOUND` it gets none and calls again. -/
def repeatSearch (get : Btrsea → Option (DbeRet × Btrsea)) :
    ℕ → Btrsea → Option (List (List UInt8) × Btrsea)
  | 0, _ => none
  | calls + 1, bs =>
      (get bs).bind fun (rc, bs) =>
        match rc with
        | .ended => some ([], bs)
        | .notfound => repeatSearch get calls bs
        | _ => (repeatSearch get calls bs).map fun (ks, bs') => (bs.bsRsea.srk :: ks, bs')

end

/-!
## Where a cursor stands

In a well-formed tree a cursor stands in one leaf, between the leaves before it and
the leaves behind it. Its range search knows the separator of the leaf behind if that
is below the range end, and that of its own leaf if it is above the range begin.
-/

section

open LeafScan

variable {base : ℕ}

/-- The tree has the leaves `ls`. Their keys and separators ascend, and the searches for
the keys `Q` that go through a node are not misled in it. -/
structure Btree.WellFormed (Q : KeyIn base → Prop) (b : Btree) (first : KeyIn base)
    (ls : List (Leaf ℕ (KeyIn base))) : Prop where
  spans : Spans Q b (b.node b.bRootaddr).nLevel b.bRootaddr first none ls
  sorted : Sorted KeyIn.rank ls

variable {Q : KeyIn base → Prop} {b : Btree} {first : KeyIn base}
  {ls pre post : List (Leaf ℕ (KeyIn base))} {l : Leaf ℕ (KeyIn base)} {v : KrsView base}
  {krs : Bkrs}

/-- What a range search knows in the leaf `l` before the leaves `post`. -/
structure KrsView.Links (Q : KeyIn base → Prop) (v : KrsView base)
    (l : Leaf ℕ (KeyIn base)) (post : List (Leaf ℕ (KeyIn base))) : Prop where
  next : v.next.map KeyIn.rank =
    (post.head?.map fun l' => l'.sep.rank).filter fun s => decide (s < v.ke.rank)
  nextQ : ∀ n, v.next = some n → Q n
  prev : v.prev.map KeyIn.rank = if v.kb.rank < l.sep.rank then some l.sep.rank else none
  prevQ : ∀ p, v.prev = some p → Q p

theorem KrsView.Links.of_kcb (h : v.Links Q l post) (kcb : KeyIn base)
    (isbegin isreset : Bool) :
    KrsView.Links Q { v with kcb := kcb, isbegin := isbegin, isreset := isreset } l post :=
  ⟨h.next, h.nextQ, h.prev, h.prevQ⟩

theorem KrsView.Links.clearbegin (h : v.Links Q l post) : v.clearbegin.Links Q l post :=
  h.of_kcb _ _ _

theorem KrsView.Links.setnext_link {n : Option (KeyIn base)} (hn : NextOf Q n post)
    (hv : v.next = none) :
    (v.setNextOf n).next.map KeyIn.rank =
        (post.head?.map fun l' => l'.sep.rank).filter (fun s => decide (s < v.ke.rank)) ∧
      ∀ m, (v.setNextOf n).next = some m → Q m := by
  obtain ⟨hrank, hq⟩ := hn
  rw [← hrank]
  cases n with
  | none =>
      rw [KrsView.setNextOf, hv]
      exact ⟨rfl, fun m hm => absurd hm.symm (Option.some_ne_none m)⟩
  | some n =>
      rw [KrsView.setNextOf, KrsView.setNext, Option.map_some, Option.filter_some]
      by_cases hlt : n.rank < v.ke.rank
      · rw [if_pos hlt, if_pos (decide_eq_true hlt)]
        exact ⟨rfl, fun m hm => Option.some.inj hm ▸ hq n rfl⟩
      · rw [if_neg hlt, if_neg (by simpa using hlt)]
        exact ⟨rfl, fun m hm => absurd hm.symm (Option.some_ne_none m)⟩

@[simp] theorem KrsView.ke_setNextOf (v : KrsView base) (n : Option (KeyIn base)) :
    (v.setNextOf n).ke = v.ke := by
  cases n <;> rfl

@[simp] theorem KrsView.kb_setNextOf (v : KrsView base) (n : Option (KeyIn base)) :
    (v.setNextOf n).kb = v.kb := by
  cases n <;> rfl

theorem KrsView.Links.of_descent {n : Option (KeyIn base)} {p : KeyIn base}
    (hn : NextOf Q n post) (hv : v.next = none)
    (hp : v.kb.rank < l.sep.rank ∨ v.kb.rank < p.rank → p.rank = l.sep.rank)
    (hpq : v.kb.rank < p.rank → Q p) :
    KrsView.Links Q ((v.setNextOf n).setPrev p) l post := by
  obtain ⟨hnext, hnextQ⟩ := KrsView.Links.setnext_link hn hv
  refine ⟨?_, hnextQ, ?_, ?_⟩
  · rw [KrsView.setPrev, KrsView.ke_setNextOf]
    exact hnext
  · rw [KrsView.setPrev, KrsView.kb_setNextOf]
    by_cases hlt : v.kb.rank < p.rank
    · have heq := hp (Or.inr hlt)
      rw [if_pos hlt, if_pos (heq ▸ hlt), Option.map_some, heq]
    · have hnot : ¬ v.kb.rank < l.sep.rank := fun h => hlt (hp (Or.inl h) ▸ h)
      rw [if_neg hlt, if_neg hnot]
      rfl
  · intro q hq
    rw [KrsView.setPrev, KrsView.kb_setNextOf] at hq
    by_cases hlt : v.kb.rank < p.rank
    · rw [if_pos hlt] at hq
      exact Option.some.inj hq ▸ hpq hlt
    · rw [if_neg hlt] at hq
      exact absurd hq.symm (Option.some_ne_none q)

/-! ## Cursor states -/

structure SearchRange (base : ℕ) where
  kb : KeyIn base
  ke : KeyIn base
  keOpen : Bool

def KrsView.range (v : KrsView base) : SearchRange base := ⟨v.kb, v.ke, v.keOpen⟩

@[simp] theorem KrsView.range_setNextOf (v : KrsView base) (n : Option (KeyIn base)) :
    (v.setNextOf n).range = v.range := by
  cases n <;> rfl

@[simp] theorem KrsView.range_setPrev (v : KrsView base) (p : KeyIn base) :
    (v.setPrev p).range = v.range := rfl

@[simp] theorem KrsView.range_clearbegin (v : KrsView base) : v.clearbegin.range = v.range := rfl

@[simp] theorem KrsView.isbegin_setNextOf (v : KrsView base) (n : Option (KeyIn base)) :
    (v.setNextOf n).isbegin = v.isbegin := by
  cases n <;> rfl

@[simp] theorem KrsView.isbegin_setPrev (v : KrsView base) (p : KeyIn base) :
    (v.setPrev p).isbegin = v.isbegin := rfl

/-- A search for `k` ends in the leaf `l` before the leaves `post`. -/
def FallsInto (k : KeyIn base) (l : Leaf ℕ (KeyIn base))
    (post : List (Leaf ℕ (KeyIn base))) : Prop :=
  l.sep.rank ≤ k.rank ∧ ∀ l' ∈ post, k.rank ≤ l'.sep.rank

/-- The cursor stands in the leaf `l` behind the keys `zs` and before the keys `xs`,
on the last one of `zs` or before the first call in the leaf. -/
structure Btrsea.Forward (Q : KeyIn base → Prop) (g : SearchRange base)
    (ls : List (Leaf ℕ (KeyIn base))) (bs : Btrsea) (pre : List (Leaf ℕ (KeyIn base)))
    (l : Leaf ℕ (KeyIn base)) (post : List (Leaf ℕ (KeyIn base)))
    (zs xs : List (KeyIn base)) : Prop where
  leaves : ls = pre ++ l :: post
  items : l.items = zs ++ xs
  nosave : bs.bsRsea.nrs.nrsSaveindex = none
  stands : ∃ v, v.Links Q l post ∧ v.range = g ∧
    ((bs.bsRsea.Fresh l.items v ∧ v.isbegin = true ∧ Q v.kcb ∧ FallsInto v.kcb l post ∧
        (∀ z ∈ zs, z.rank < v.kcb.rank) ∧ ∀ x ∈ xs, v.kcb.rank ≤ x.rank) ∨
      ∃ i, bs.bsRsea.At l.items v i ∧ zs.length = i + 1)

/-- The cursor stands in the leaf `l` behind the keys `ys` and before the keys `xs`,
on the first one of `xs` or before the first call in the leaf. -/
structure Btrsea.Backward (Q : KeyIn base → Prop) (g : SearchRange base)
    (ls : List (Leaf ℕ (KeyIn base))) (bs : Btrsea) (pre : List (Leaf ℕ (KeyIn base)))
    (l : Leaf ℕ (KeyIn base)) (post : List (Leaf ℕ (KeyIn base)))
    (ys xs : List (KeyIn base)) : Prop where
  leaves : ls = pre ++ l :: post
  items : l.items = ys ++ xs
  stands : ∃ v, v.Links Q l post ∧ v.range = g ∧ v.isbegin = false ∧
    ((bs.bsRsea.Fresh l.items v ∧ xs = []) ∨ bs.bsRsea.At l.items v ys.length)

/-- The constraints of a search accept a key, reject it or ask for a lock on it. -/
def ConsAnswers (checkcons : List UInt8 → DbeRet) : Prop :=
  ∀ k, checkcons k = .found ∨ checkcons k = .notfound ∨ checkcons k = .locktuple

def Traced (seen : List (Leaf ℕ (KeyIn base))) (trace : List ℕ)
    (pre : List (Leaf ℕ (KeyIn base))) (l : Leaf ℕ (KeyIn base)) (bs : Btrsea) : Prop :=
  ∃ moved : List (Leaf ℕ (KeyIn base)), pre ++ [l] = seen ++ moved ∧
    bs.bsReadleafs = (moved.map Leaf.addr).reverse ++ trace

theorem Traced.refl (pre : List (Leaf ℕ (KeyIn base))) (l : Leaf ℕ (KeyIn base))
    (bs : Btrsea) : Traced (pre ++ [l]) bs.bsReadleafs pre l bs :=
  ⟨[], (List.append_nil _).symm, rfl⟩

theorem Traced.cons {seen : List (Leaf ℕ (KeyIn base))} {trace : List ℕ} {bs : Btrsea}
    {m : Leaf ℕ (KeyIn base)} (h : Traced (seen ++ [m]) (m.addr :: trace) pre l bs) :
    Traced seen trace pre l bs := by
  obtain ⟨moved, hseen, htrace⟩ := h
  refine ⟨m :: moved, ?_, ?_⟩
  · rw [hseen, List.append_assoc, List.singleton_append]
  · rw [htrace, List.map_cons, List.reverse_cons, List.append_assoc, List.singleton_append]

/-! ## The separators and the range end -/

def SearchRange.deliver (g : SearchRange base) (xs : List (KeyIn base))
    (post : List (Leaf ℕ (KeyIn base))) : List (KeyIn base) :=
  LeafScan.deliver KeyIn.rank g.ke.rank g.keOpen xs post

def SearchRange.deliverBack (g : SearchRange base) (ys : List (KeyIn base))
    (l : Leaf ℕ (KeyIn base)) (pre : List (Leaf ℕ (KeyIn base))) : List (KeyIn base) :=
  LeafScan.deliverBack KeyIn.rank g.kb.rank ys.reverse l.sep pre.reverse

variable {g : SearchRange base} {x : KeyIn base} {xs ys : List (KeyIn base)}

/-- A leaf behind is known exactly where its separator is below the range end. -/
theorem KrsView.Links.next_isSome_iff (h : v.Links Q l post) :
    v.next.isSome = true ↔ ∃ l' post', post = l' :: post' ∧ l'.sep.rank < v.ke.rank := by
  have hnext := h.next
  cases post with
  | nil =>
      cases hv : v.next with
      | none => simp
      | some n =>
          rw [hv] at hnext
          exact absurd hnext (Option.some_ne_none _)
  | cons l' post =>
      rw [List.head?_cons, Option.map_some, Option.filter_some] at hnext
      by_cases hlt : l'.sep.rank < v.ke.rank
      · rw [if_pos (decide_eq_true hlt)] at hnext
        obtain ⟨n, hn, -⟩ := Option.map_eq_some_iff.mp hnext
        rw [hn]
        exact ⟨fun _ => ⟨l', post, rfl, hlt⟩, fun _ => rfl⟩
      · rw [if_neg (by simpa using hlt)] at hnext
        rw [Option.map_eq_none_iff.mp hnext]
        constructor
        · intro hsome
          exact absurd hsome Bool.false_ne_true
        · rintro ⟨l'', post', heq, hlt'⟩
          obtain ⟨rfl, -⟩ := List.cons.inj heq
          exact absurd hlt' hlt

/-- The end of a leaf without a known leaf behind it is the end of the scan. -/
theorem KrsView.Links.deliver_nil (h : v.Links Q l post) (hr : v.range = g)
    (hnext : v.next = none) : g.deliver [] post = [] := by
  subst hr
  cases post with
  | nil => rfl
  | cons l' post =>
      have hnot : ¬ l'.sep.rank < v.ke.rank := by
        intro hlt
        have hsome := h.next_isSome_iff.mpr ⟨l', post, rfl, hlt⟩
        rw [hnext] at hsome
        exact absurd hsome Bool.false_ne_true
      exact if_neg hnot

theorem KrsView.Links.deliver_next (h : v.Links Q l post) (hr : v.range = g)
    {n : KeyIn base} (hnext : v.next = some n) :
    ∃ l' post', post = l' :: post' ∧ n.rank = l'.sep.rank ∧
      g.deliver [] post = g.deliver l'.items post' := by
  subst hr
  obtain ⟨l', post', rfl, hlt⟩ := h.next_isSome_iff.mp (by rw [hnext]; rfl)
  have hrank := h.next
  rw [hnext, List.head?_cons, Option.map_some, Option.map_some, Option.filter_some,
    if_pos (decide_eq_true hlt)] at hrank
  exact ⟨l', post', rfl, Option.some.inj hrank, if_pos hlt⟩

theorem endRc_cases (v : KrsView base) (x : KeyIn base) :
    v.endRc x = .found ∨ v.endRc x = .ended := by
  rw [KrsView.endRc]
  split
  · exact Or.inl rfl
  · exact Or.inr rfl

theorem KrsView.Links.deliver_found (h : v.Links Q l post) (hr : v.range = g)
    (hrc : v.endRc x = .found) : g.deliver (x :: xs) post = x :: g.deliver xs post := by
  subst hr
  have hcond : (v.next.isSome || withinEnd KeyIn.rank v.ke.rank v.keOpen x) = true := by
    by_contra hnot
    rw [KrsView.endRc, if_neg hnot] at hrc
    exact DbeRet.noConfusion hrc
  cases post with
  | nil =>
      have hnone : v.next.isSome = false := by
        rw [Bool.eq_false_iff]
        intro hsome
        obtain ⟨_, _, hnil, -⟩ := h.next_isSome_iff.mp hsome
        exact absurd hnil.symm (List.cons_ne_nil _ _)
      rw [hnone, Bool.false_or] at hcond
      exact List.takeWhile_cons_of_pos hcond
  | cons l' post =>
      unfold SearchRange.deliver
      rw [LeafScan.deliver, LeafScan.deliver]
      by_cases hlt : l'.sep.rank < v.ke.rank
      · exact (if_pos hlt).trans (congrArg (x :: ·) (if_pos hlt).symm)
      · have hnone : v.next.isSome = false := by
          rw [Bool.eq_false_iff]
          intro hsome
          obtain ⟨_, _, heq, hlt'⟩ := h.next_isSome_iff.mp hsome
          obtain ⟨rfl, -⟩ := List.cons.inj heq
          exact hlt hlt'
        rw [hnone, Bool.false_or] at hcond
        rw [if_neg (c := l'.sep.rank < v.range.ke.rank) hlt,
          if_neg (c := l'.sep.rank < v.range.ke.rank) hlt]
        exact List.takeWhile_cons_of_pos hcond

theorem KrsView.Links.deliver_ended (h : v.Links Q l post) (hr : v.range = g)
    (hrc : v.endRc x = .ended) : g.deliver (x :: xs) post = [] := by
  subst hr
  have hcond : ¬ (v.next.isSome || withinEnd KeyIn.rank v.ke.rank v.keOpen x) = true := by
    intro hcond
    rw [KrsView.endRc, if_pos hcond] at hrc
    exact DbeRet.noConfusion hrc
  rw [Bool.or_eq_true, not_or] at hcond
  obtain ⟨hnext, hwithin⟩ := hcond
  cases post with
  | nil => exact List.takeWhile_cons_of_neg hwithin
  | cons l' post =>
      have hnot : ¬ l'.sep.rank < v.ke.rank :=
        fun hlt => hnext (h.next_isSome_iff.mpr ⟨l', post, rfl, hlt⟩)
      exact (if_neg hnot).trans (List.takeWhile_cons_of_neg hwithin)

end

end SolidDB
