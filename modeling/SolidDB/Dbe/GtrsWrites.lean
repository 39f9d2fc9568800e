import SolidDB.Dbe.GtrsStable
import Mathlib.Algebra.Order.BigOperators.Group.List
import Mathlib.Tactic.Ring

/-!
# The merge writes of ended transactions

The gate adds up merge writes as numbers. The ledger beside it says whose they are: the
writes of one ended transaction are a portion, and portions go where the gate moves the
numbers. A portion knows the transactions that held an older or equal read level when its
transaction ended and still hold it.
-/

namespace SolidDB

open Gtrs

structure Portion where
  writes : ℤ
  older : List ℕ

/-- The portions in `at_nmergewrites` of the transactions, and those that have been passed
on to the database object. -/
structure Ledger where
  held : ℕ → List Portion
  released : List Portion

def totalWrites (ps : List Portion) : ℤ := (ps.map Portion.writes).sum

def Portion.forget (t : ℕ) (p : Portion) : Portion :=
  { p with older := p.older.filter fun u => u ≠ t }

/-- The transaction to which `gtrs_removetrxreadlevel` gives the writes of `t`. Without
one they go to the database object. -/
def writesHeir (g : Gtrs) (t : ℕ) : Option ℕ :=
  match suListPrev t g.gtrsReadlevellist with
  | some prev => some prev
  | none =>
    let first := match g.gtrsReadlevellist with
      | f :: rest => if f = t then rest.head? else some f
      | [] => none
    match first with
    | none => none
    | some f =>
      if (g.gtrsTrxinfo t).tiMaxtrxnum < (g.gtrsTrxinfo f).tiMaxtrxnum then none else some f

namespace Ledger

def forget (t : ℕ) (L : Ledger) : Ledger where
  held u := (L.held u).map (Portion.forget t)
  released := L.released

def release (ps : List Portion) (L : Ledger) : Ledger :=
  { L with released := L.released ++ ps }

/-- `gtrs_removetrxreadlevel`, with the portion of the transaction if it commits. -/
def removetrxreadlevel (g : Gtrs) (t : ℕ) (own : List Portion) (L : Ledger) : Ledger :=
  let L := L.forget t
  match writesHeir g t with
  | some u =>
    { L with
      held := Function.update (Function.update L.held t []) u (L.held u ++ (L.held t ++ own)) }
  | none =>
    { held := Function.update L.held t []
      released := L.released ++ (L.held t ++ own) }

/-- The loop of `gtrs_releasemergewrites`. -/
def releaseLoop : ℕ → Gtrs → Option ℕ → Ledger → Ledger
  | 0, _, _, L => L
  | fuel + 1, g, prev, L =>
    match g.gtrsReadlevellist.head? with
    | none => L
    | some t =>
      if prev = some t then L
      else if !(g.gtrsTrxinfo t).tiCanremovereadlevel || (g.gtrsAt t).atIswrites ||
          (g.gtrsAt t).atIsvalidate then
        L
      else
        releaseLoop fuel (gtrsRemovetrxreadlevel g t false 0).1 (some t)
          (L.removetrxreadlevel g t [])

def releasemergewrites (g : Gtrs) (dbmergewrites mergelimit nmergewrites : ℤ) (L : Ledger) :
    Ledger :=
  if mergelimit ≤ dbmergewrites + nmergewrites + g.gtrsPendingmergewrites then
    releaseLoop (g.gtrsReadlevellist.length + 1) g none L
  else L

end Ledger

def olderLevels (g : Gtrs) (t : ℕ) : List ℕ :=
  g.gtrsReadlevellist.filter fun u => u ≠ t ∧ g.level u ≤ g.level t

/-- The portion of the ended transaction. Only the writes of a committed one have to wait. -/
def ownPortion (g : Gtrs) (a : EndtrxArgs) : List Portion :=
  if a.nmergewrites = 0 then []
  else [⟨a.nmergewrites, if a.commitp then olderLevels g a.endedTrx else []⟩]

namespace Ledger

def removeactivetrx (g : Gtrs) (a : EndtrxArgs) (L : Ledger) : Ledger :=
  if a.endedTrx ∈ g.gtrsReadlevellist then
    if a.commitp then L.removetrxreadlevel g a.endedTrx (ownPortion g a)
    else (L.release (ownPortion g a)).removetrxreadlevel g a.endedTrx []
  else L.release (ownPortion g a)

def endtrx (cfg : GtrsCfg) (g : Gtrs) (a : EndtrxArgs) (L : Ledger) : Ledger :=
  if a.endedTrx ∉ g.gtrsActivetrxlist then L
  else
    let g₁ := endtrxMax cfg g a
    let L₁ := L.removeactivetrx g₁ a
    if a.commitp ∧ a.iswrites then
      let r := gtrsRemoveactivetrx g₁ a.endedTrx a.commitp a.iswrites a.nmergewrites
      L₁.releasemergewrites r.1 a.dbmergewrites a.mergelimit r.2
    else L₁

end Ledger

/-! ## The gate with its ledger -/

/-- The gate, the writes that have been passed to `dbe_db_addmergewrites` and those of all
ended transactions. -/
structure Mwsys where
  gate : Gtrs
  ledger : Ledger
  dbmergewrites : ℤ
  ended : ℤ

/-- `dbe_db_addmergewrites`, which is called for a positive number only. -/
def dbeDbAddmergewrites (dbmergewrites nmergewrites : ℤ) : ℤ :=
  if 0 < nmergewrites then dbmergewrites + nmergewrites else dbmergewrites

def mwsysInit (ctr : DbeCounter) : Mwsys where
  gate := dbeGtrsInit ctr
  ledger := ⟨fun _ => [], []⟩
  dbmergewrites := 0
  ended := 0

/-- One call. The number of writes of an ended transaction is not negative. -/
def Mwsys.step (cfg : GtrsCfg) (s : Mwsys) : GtrsOp → Option Mwsys
  | .endtrx a =>
    if 0 ≤ a.nmergewrites then
      let r := dbeGtrsEndtrx cfg s.gate a
      some
        { gate := r.1
          ledger := s.ledger.endtrx cfg s.gate a
          dbmergewrites := dbeDbAddmergewrites s.dbmergewrites r.2.1
          ended := if a.endedTrx ∈ s.gate.gtrsActivetrxlist then s.ended + a.nmergewrites
            else s.ended }
    else none
  | .releasereadlevels dbmergewrites mergelimit =>
    let r := gtrsReleasemergewrites s.gate dbmergewrites mergelimit 0
    some
      { s with
        gate := gtrsReleasereadlevels s.gate dbmergewrites mergelimit
        ledger := s.ledger.releasemergewrites s.gate dbmergewrites mergelimit 0
        dbmergewrites := dbeDbAddmergewrites s.dbmergewrites r.2 }
  | op => (s.gate.step cfg op).map fun g => { s with gate := g }

inductive Mwsys.Reachable (cfg : GtrsCfg) : Mwsys → Prop where
  | init (ctr : DbeCounter) (h : ctr.ctrMergetrxnum ≤ ctr.ctrMaxtrxnum) :
      Mwsys.Reachable cfg (mwsysInit ctr)
  | step {s s' : Mwsys} {op : GtrsOp} (h : Mwsys.Reachable cfg s)
      (hstep : s.step cfg op = some s') : Mwsys.Reachable cfg s'

structure Mwsys.Conserves (s : Mwsys) : Prop where
  pending_eq : s.gate.gtrsPendingmergewrites =
    (s.gate.gtrsReadlevellist.map fun t => (s.gate.gtrsAt t).atNmergewrites).sum
  pending_nonneg : 0 ≤ s.gate.gtrsPendingmergewrites
  pending_empty : s.gate.gtrsReadlevellist = [] → s.gate.gtrsPendingmergewrites = 0
  total_eq : s.dbmergewrites + s.gate.gtrsPendingmergewrites = s.ended
  held_eq : ∀ t, (s.gate.gtrsAt t).atNmergewrites = totalWrites (s.ledger.held t)
  released_eq : s.dbmergewrites = totalWrites s.ledger.released

/-- Writes have been released only when no transaction that held an older or equal read
level at the end of theirs still held it. -/
def Mwsys.Clean (s : Mwsys) : Prop := ∀ p ∈ s.ledger.released, p.older = []

/-! ## Heirs -/

variable {cfg : GtrsCfg} {g g' : Gtrs} {L : Ledger} {t u : ℕ} {n db ended : ℤ}

theorem suListPrev_eq_some {list : List ℕ} {a : ℕ} (h : suListPrev t list = some a) :
    ∃ l₁ l₂, list = l₁ ++ a :: t :: l₂ := by
  induction list with
  | nil => exact absurd h.symm (Option.some_ne_none a)
  | cons x rest ih =>
      cases rest with
      | nil => exact absurd h.symm (Option.some_ne_none a)
      | cons y rest =>
          rw [suListPrev] at h
          by_cases hy : y = t
          · rw [if_pos hy] at h
            obtain rfl := Option.some.inj h
            exact ⟨[], rest, by rw [hy]; rfl⟩
          · rw [if_neg hy] at h
            obtain ⟨l₁, l₂, hl⟩ := ih h
            exact ⟨x :: l₁, l₂, by rw [hl]; rfl⟩

theorem suListPrev_eq_none {list : List ℕ} (h : suListPrev t list = none) (ht : t ∈ list) :
    ∃ l₂, list = t :: l₂ := by
  induction list with
  | nil => exact absurd ht List.not_mem_nil
  | cons x rest ih =>
      rcases List.mem_cons.mp ht with rfl | ht
      · exact ⟨rest, rfl⟩
      · cases rest with
        | nil => exact absurd ht List.not_mem_nil
        | cons y rest =>
            rw [suListPrev] at h
            by_cases hy : y = t
            · rw [if_pos hy] at h
              exact absurd h (Option.some_ne_none x)
            · rw [if_neg hy] at h
              obtain ⟨l₂, hl⟩ := ih h ht
              exact absurd (List.cons.inj hl).1 hy

/-- The heir is the transaction before, or for the first one the next of the same level or
a lower one. -/
inductive Heir (g : Gtrs) (t : ℕ) : Option ℕ → Prop where
  | prev {u : ℕ} (l₁ l₂ : List ℕ) (h : g.gtrsReadlevellist = l₁ ++ u :: t :: l₂) :
      Heir g t (some u)
  | next {u : ℕ} (l₂ : List ℕ) (h : g.gtrsReadlevellist = t :: u :: l₂)
      (hle : g.level u ≤ g.level t) : Heir g t (some u)
  | none (l₂ : List ℕ) (h : g.gtrsReadlevellist = t :: l₂)
      (hlt : ∀ u, l₂.head? = some u → g.level t < g.level u) : Heir g t Option.none

theorem writesHeir_cases (ht : t ∈ g.gtrsReadlevellist) : Heir g t (writesHeir g t) := by
  rw [writesHeir]
  cases hprev : suListPrev t g.gtrsReadlevellist with
  | some u =>
      obtain ⟨l₁, l₂, hl⟩ := suListPrev_eq_some hprev
      exact .prev l₁ l₂ hl
  | none =>
      obtain ⟨l₂, hl⟩ := suListPrev_eq_none hprev ht
      simp only [hl, if_true]
      cases l₂ with
      | nil => exact .none [] hl fun u hu => absurd hu.symm (Option.some_ne_none u)
      | cons u l₂ =>
          simp only [List.head?_cons]
          split
          next hlt =>
            refine .none (u :: l₂) hl fun v hv => ?_
            rw [← Option.some.inj hv]
            exact hlt
          next hle => exact .next l₂ hl (not_lt.mp hle)

theorem Heir.mem_erase (h : Heir g t (some u)) (hnodup : g.gtrsReadlevellist.Nodup) :
    u ∈ g.gtrsReadlevellist.erase t := by
  rw [hnodup.mem_erase_iff]
  cases h with
  | prev l₁ l₂ hl =>
      rw [hl] at hnodup ⊢
      have hcons := (List.nodup_append.mp hnodup).2.1
      refine ⟨?_, List.mem_append_right _ List.mem_cons_self⟩
      rintro rfl
      exact (List.nodup_cons.mp hcons).1 List.mem_cons_self
  | next l₂ hl hle =>
      rw [hl] at hnodup ⊢
      refine ⟨?_, List.mem_cons_of_mem _ List.mem_cons_self⟩
      rintro rfl
      exact (List.nodup_cons.mp hnodup).1 List.mem_cons_self

/-! ## The numbers -/

def Gtrs.writes (g : Gtrs) (t : ℕ) : ℤ := (g.gtrsAt t).atNmergewrites

/-- The writes go to the heir, with the new ones of a committed transaction. -/
theorem removeNmergewrites_of_some (hheir : writesHeir g t = some u) (commitp : Bool) (n : ℤ) :
    removeNmergewrites g t commitp n =
      if commitp then (((g.addNmergewrites u (g.writes t)).clearNmergewrites t).addNmergewrites u
        n, 0)
      else ((g.addNmergewrites u (g.writes t)).clearNmergewrites t, n) := by
  rw [writesHeir] at hheir
  rw [removeNmergewrites]
  cases hprev : suListPrev t g.gtrsReadlevellist with
  | some v =>
      rw [hprev] at hheir
      obtain rfl := Option.some.inj hheir
      rfl
  | none =>
      have hfirst (f : ℕ) (hf : (if (g.gtrsTrxinfo t).tiMaxtrxnum < (g.gtrsTrxinfo f).tiMaxtrxnum
          then none else some f) = some u) :
          ¬ (g.gtrsTrxinfo t).tiMaxtrxnum < (g.gtrsTrxinfo f).tiMaxtrxnum ∧ f = u := by
        rw [Option.ite_none_left_eq_some, Option.some_inj] at hf
        exact hf
      cases hlist : g.gtrsReadlevellist with
      | nil =>
          simp only [hlist, suListPrev] at hheir
          exact absurd hheir.symm (Option.some_ne_none u)
      | cons f rest =>
          rw [hlist] at hprev
          simp only [hlist, hprev] at hheir ⊢
          by_cases hft : f = t
          · rw [if_pos hft] at hheir ⊢
            cases rest with
            | nil => exact absurd hheir.symm (Option.some_ne_none u)
            | cons f' rest =>
                obtain ⟨hle, rfl⟩ := hfirst f' hheir
                exact if_neg hle
          · rw [if_neg hft] at hheir ⊢
            obtain ⟨hle, rfl⟩ := hfirst f hheir
            exact if_neg hle

theorem removeNmergewrites_of_none (hheir : writesHeir g t = none) (commitp : Bool) (n : ℤ) :
    removeNmergewrites g t commitp n = (g.clearNmergewrites t, n + g.writes t) := by
  rw [writesHeir] at hheir
  rw [removeNmergewrites]
  cases hprev : suListPrev t g.gtrsReadlevellist with
  | some v =>
      rw [hprev] at hheir
      exact absurd hheir (Option.some_ne_none v)
  | none =>
      have hfirst (f : ℕ) (hf : (if (g.gtrsTrxinfo t).tiMaxtrxnum < (g.gtrsTrxinfo f).tiMaxtrxnum
          then none else some f) = none) :
          (g.gtrsTrxinfo t).tiMaxtrxnum < (g.gtrsTrxinfo f).tiMaxtrxnum := by
        by_contra hle
        rw [if_neg hle] at hf
        exact absurd hf (Option.some_ne_none f)
      cases hlist : g.gtrsReadlevellist with
      | nil => rfl
      | cons f rest =>
          rw [hlist] at hprev
          simp only [hlist, hprev] at hheir ⊢
          by_cases hft : f = t
          · rw [if_pos hft] at hheir ⊢
            cases rest with
            | nil => rfl
            | cons f' rest => exact if_pos (hfirst f' hheir)
          · rw [if_neg hft] at hheir ⊢
            exact if_pos (hfirst f hheir)

theorem gtrsAt_gtrsRemovetrxreadlevel (g : Gtrs) (t : ℕ) (commitp : Bool) (n : ℤ) :
    (gtrsRemovetrxreadlevel g t commitp n).1.gtrsAt =
      (removeNmergewrites g t commitp n).1.gtrsAt := rfl

theorem writes_addNmergewrites (g : Gtrs) (t v : ℕ) (n : ℤ) :
    (g.addNmergewrites t n).writes v = if v = t then g.writes t + n else g.writes v := by
  rw [Gtrs.writes, addNmergewrites]
  by_cases hv : v = t
  · rw [if_pos hv, hv, gtrsAt_setAt_self]
    rfl
  · rw [if_neg hv, gtrsAt_setAt_of_ne g hv]
    rfl

theorem writes_clearNmergewrites (g : Gtrs) (t v : ℕ) :
    (g.clearNmergewrites t).writes v = if v = t then 0 else g.writes v := by
  rw [Gtrs.writes, clearNmergewrites]
  by_cases hv : v = t
  · rw [if_pos hv, hv, gtrsAt_setAt_self]
  · rw [if_neg hv, gtrsAt_setAt_of_ne g hv]
    rfl

theorem writes_remove_of_some (hheir : writesHeir g t = some u) (hut : u ≠ t) (commitp : Bool)
    (n : ℤ) (v : ℕ) :
    (gtrsRemovetrxreadlevel g t commitp n).1.writes v =
      if v = u then g.writes u + (g.writes t + if commitp then n else 0)
      else if v = t then 0 else g.writes v := by
  rw [Gtrs.writes, gtrsAt_gtrsRemovetrxreadlevel, removeNmergewrites_of_some hheir]
  cases commitp with
  | true =>
      change (((g.addNmergewrites u (g.writes t)).clearNmergewrites t).addNmergewrites u n).writes v
        = _
      rw [writes_addNmergewrites, writes_clearNmergewrites, writes_clearNmergewrites,
        writes_addNmergewrites, writes_addNmergewrites, if_neg hut, if_pos rfl, if_pos rfl,
        add_assoc]
      by_cases hv : v = u
      · rw [if_pos hv, if_pos hv]
      · rw [if_neg hv, if_neg hv, if_neg hv]
  | false =>
      change ((g.addNmergewrites u (g.writes t)).clearNmergewrites t).writes v = _
      rw [writes_clearNmergewrites, writes_addNmergewrites, if_neg Bool.false_ne_true, add_zero]
      by_cases hv : v = u
      · rw [if_pos hv, if_pos hv, hv, if_neg hut]
      · rw [if_neg hv, if_neg hv]

theorem writes_remove_of_none (hheir : writesHeir g t = none) (commitp : Bool) (n : ℤ) (v : ℕ) :
    (gtrsRemovetrxreadlevel g t commitp n).1.writes v = if v = t then 0 else g.writes v := by
  rw [Gtrs.writes, gtrsAt_gtrsRemovetrxreadlevel, removeNmergewrites_of_none hheir]
  exact writes_clearNmergewrites g t v

theorem snd_remove_of_some (hheir : writesHeir g t = some u) (commitp : Bool) (n : ℤ) :
    (gtrsRemovetrxreadlevel g t commitp n).2 = if commitp then 0 else n := by
  change (removeNmergewrites g t commitp n).2 = _
  rw [removeNmergewrites_of_some hheir]
  cases commitp with
  | true => rfl
  | false => rfl

theorem snd_remove_of_none (hheir : writesHeir g t = none) (commitp : Bool) (n : ℤ) :
    (gtrsRemovetrxreadlevel g t commitp n).2 = n + g.writes t := by
  change (removeNmergewrites g t commitp n).2 = _
  rw [removeNmergewrites_of_none hheir]

theorem pending_remove (g : Gtrs) (t : ℕ) (commitp : Bool) (n : ℤ) :
    (gtrsRemovetrxreadlevel g t commitp n).1.gtrsPendingmergewrites =
      g.gtrsPendingmergewrites := by
  obtain ⟨at', heq, -⟩ := removeNmergewrites_moves g t commitp n
  simp only [gtrsRemovetrxreadlevel]
  rw [heq]
  rfl

/-! ## The books -/

theorem totalWrites_append (ps qs : List Portion) :
    totalWrites (ps ++ qs) = totalWrites ps + totalWrites qs := by
  rw [totalWrites, List.map_append, List.sum_append]
  rfl

theorem totalWrites_forget (t : ℕ) (ps : List Portion) :
    totalWrites (ps.map (Portion.forget t)) = totalWrites ps := by
  rw [totalWrites, List.map_map]
  rfl

theorem totalWrites_nonneg {ps : List Portion} (h : ∀ p ∈ ps, 0 ≤ p.writes) :
    0 ≤ totalWrites ps := by
  refine List.sum_nonneg fun x hx => ?_
  obtain ⟨p, hp, rfl⟩ := List.mem_map.mp hx
  exact h p hp

def Gtrs.listed (g : Gtrs) : ℤ := (g.gtrsReadlevellist.map g.writes).sum

/-- The state inside a call. `n` writes are in the hands of the call and will be passed
on, `own` are those of the ending transaction that are in no account yet. -/
structure Books (g : Gtrs) (L : Ledger) (n own db ended : ℤ) : Prop where
  nodup : g.gtrsReadlevellist.Nodup
  held_eq : ∀ t, g.writes t = totalWrites (L.held t)
  held_nil : ∀ t, t ∉ g.gtrsReadlevellist → L.held t = []
  held_nonneg : ∀ t, ∀ p ∈ L.held t, 0 ≤ p.writes
  released_nonneg : ∀ p ∈ L.released, 0 ≤ p.writes
  pending_eq : g.gtrsPendingmergewrites = g.listed + n + own
  released_eq : totalWrites L.released = db + n
  nonneg : 0 ≤ n
  ended_eq : db + g.gtrsPendingmergewrites = ended

theorem Books.writes_nonneg (h : Books g L n own db ended) (t : ℕ) : 0 ≤ g.writes t := by
  rw [h.held_eq t]
  exact totalWrites_nonneg (h.held_nonneg t)

theorem sum_of_heir {list : List ℕ} {f f' : ℕ → ℤ} {x : ℤ} (ht : t ∈ list) (hnodup : list.Nodup)
    (hu : u ∈ list.erase t)
    (hf : ∀ v, f' v = if v = u then f u + x else if v = t then 0 else f v) :
    ((list.erase t).map f').sum + f t = (list.map f).sum + x := by
  have hnodup' := hnodup.erase t
  have hrest : ((list.erase t).erase u).map f' = ((list.erase t).erase u).map f := by
    refine List.map_congr_left fun v hv => ?_
    obtain ⟨hvu, hv'⟩ := hnodup'.mem_erase_iff.mp hv
    rw [hf, if_neg hvu, if_neg (hnodup.mem_erase_iff.mp hv').1]
  rw [← List.sum_map_erase f' hu, ← List.sum_map_erase f ht, ← List.sum_map_erase f hu, hrest, hf u,
    if_pos rfl]
  ring

theorem sum_of_no_heir {list : List ℕ} {f f' : ℕ → ℤ} (ht : t ∈ list) (hnodup : list.Nodup)
    (hf : ∀ v, f' v = if v = t then 0 else f v) :
    ((list.erase t).map f').sum + f t = (list.map f).sum := by
  have hrest : (list.erase t).map f' = (list.erase t).map f := by
    refine List.map_congr_left fun v hv => ?_
    rw [hf, if_neg (hnodup.mem_erase_iff.mp hv).1]
  rw [← List.sum_map_erase f ht, hrest, add_comm]

theorem forget_writes_nonneg {ps : List Portion} (h : ∀ p ∈ ps, 0 ≤ p.writes) :
    ∀ p ∈ ps.map (Portion.forget t), 0 ≤ p.writes := by
  intro p hp
  obtain ⟨p', hp', rfl⟩ := List.mem_map.mp hp
  exact h p' hp'

theorem held_remove_of_some (hheir : writesHeir g t = some u) (own : List Portion) (v : ℕ) :
    (L.removetrxreadlevel g t own).held v =
      if v = u then (L.held u).map (Portion.forget t) ++
        ((L.held t).map (Portion.forget t) ++ own)
      else if v = t then [] else (L.held v).map (Portion.forget t) := by
  rw [Ledger.removetrxreadlevel, hheir]
  simp only [Function.update_apply]
  rfl

theorem released_remove_of_some (hheir : writesHeir g t = some u) (own : List Portion) :
    (L.removetrxreadlevel g t own).released = L.released := by
  rw [Ledger.removetrxreadlevel, hheir]
  rfl

theorem held_remove_of_none (hheir : writesHeir g t = none) (own : List Portion) (v : ℕ) :
    (L.removetrxreadlevel g t own).held v =
      if v = t then [] else (L.held v).map (Portion.forget t) := by
  rw [Ledger.removetrxreadlevel, hheir]
  simp only [Function.update_apply]
  rfl

theorem released_remove_of_none (hheir : writesHeir g t = none) (own : List Portion) :
    (L.removetrxreadlevel g t own).released =
      L.released ++ ((L.held t).map (Portion.forget t) ++ own) := by
  rw [Ledger.removetrxreadlevel, hheir]
  rfl

theorem listed_remove (g : Gtrs) (t : ℕ) (commitp : Bool) (n : ℤ) :
    (gtrsRemovetrxreadlevel g t commitp n).1.listed =
      ((g.gtrsReadlevellist.erase t).map (gtrsRemovetrxreadlevel g t commitp n).1.writes).sum := by
  rw [Gtrs.listed, gtrsRemovetrxreadlevel_list]

/-- A removal keeps the books. What comes back from it, apart from a number that an aborted
transaction brought, is in the hands of the call. -/
theorem Books.remove {own : List Portion} {m : ℤ} {commitp : Bool}
    (h : Books g L n (totalWrites own) db ended) (ht : t ∈ g.gtrsReadlevellist)
    (hown : ∀ p ∈ own, 0 ≤ p.writes) (hm : (if commitp then m else 0) = totalWrites own) :
    Books (gtrsRemovetrxreadlevel g t commitp m).1 (L.removetrxreadlevel g t own)
      (n + ((gtrsRemovetrxreadlevel g t commitp m).2 - if commitp then 0 else m)) 0 db ended := by
  have hnodup := h.nodup
  have hcases := writesHeir_cases ht
  have hlist := gtrsRemovetrxreadlevel_list g t commitp m
  have hpending := pending_remove g t commitp m
  have hlisted := listed_remove g t commitp m
  have hsplit : (if commitp then m else 0) + (if commitp then 0 else m) = m := by
    cases commitp with
    | true => exact add_zero m
    | false => exact zero_add m
  cases hheir : writesHeir g t with
  | some u =>
      rw [hheir] at hcases
      have hu := hcases.mem_erase hnodup
      have hut : u ≠ t := (hnodup.mem_erase_iff.mp hu).1
      have hwrites := writes_remove_of_some hheir hut commitp m
      have hheld := held_remove_of_some (L := L) hheir own
      have hreleased := released_remove_of_some (L := L) hheir own
      have hsum : _ = g.listed + _ := sum_of_heir ht hnodup hu hwrites
      have hsnd := snd_remove_of_some hheir commitp m
      rw [hm] at hsum hwrites
      rw [← hlisted] at hsum
      have hzero : (gtrsRemovetrxreadlevel g t commitp m).2 - (if commitp then 0 else m) = 0 := by
        rw [hsnd]
        exact sub_self _
      rw [hzero, add_zero]
      refine ⟨?_, fun v => ?_, fun v hv => ?_, fun v => ?_, ?_, ?_, ?_, h.nonneg, ?_⟩
      · rw [hlist]
        exact hnodup.erase t
      · rw [hwrites, hheld]
        by_cases hvu : v = u
        · rw [if_pos hvu, if_pos hvu, totalWrites_append, totalWrites_append, totalWrites_forget,
            totalWrites_forget, ← h.held_eq, ← h.held_eq]
        · rw [if_neg hvu, if_neg hvu]
          by_cases hvt : v = t
          · rw [if_pos hvt, if_pos hvt]
            rfl
          · rw [if_neg hvt, if_neg hvt, totalWrites_forget, h.held_eq]
      · rw [hlist] at hv
        have hvu : v ≠ u := fun heq => hv (heq ▸ hu)
        rw [hheld, if_neg hvu]
        by_cases hvt : v = t
        · rw [if_pos hvt]
        · rw [if_neg hvt, h.held_nil v fun hmem => hv (hnodup.mem_erase_iff.mpr ⟨hvt, hmem⟩)]
          rfl
      · rw [hheld]
        split
        · intro p hp
          rcases List.mem_append.mp hp with hp | hp
          · exact forget_writes_nonneg (h.held_nonneg u) p hp
          · rcases List.mem_append.mp hp with hp | hp
            · exact forget_writes_nonneg (h.held_nonneg t) p hp
            · exact hown p hp
        · split
          · exact fun p hp => absurd hp List.not_mem_nil
          · exact forget_writes_nonneg (h.held_nonneg v)
      · rw [hreleased]
        exact h.released_nonneg
      · rw [hpending, h.pending_eq]
        linarith
      · rw [hreleased]
        exact h.released_eq
      · rw [hpending]
        exact h.ended_eq
  | none =>
      have hwrites := writes_remove_of_none hheir commitp m
      have hheld := held_remove_of_none (L := L) hheir own
      have hreleased := released_remove_of_none (L := L) hheir own
      have hsum : _ = g.listed := sum_of_no_heir ht hnodup hwrites
      have hsnd := snd_remove_of_none hheir commitp m
      rw [← hlisted] at hsum
      have hback : (gtrsRemovetrxreadlevel g t commitp m).2 - (if commitp then 0 else m) =
          totalWrites own + g.writes t := by
        rw [hsnd, ← hm]
        linarith
      rw [hback]
      refine ⟨?_, fun v => ?_, fun v hv => ?_, fun v => ?_, ?_, ?_, ?_, ?_, ?_⟩
      · rw [hlist]
        exact hnodup.erase t
      · rw [hwrites, hheld]
        by_cases hvt : v = t
        · rw [if_pos hvt, if_pos hvt]
          rfl
        · rw [if_neg hvt, if_neg hvt, totalWrites_forget, h.held_eq]
      · rw [hlist] at hv
        rw [hheld]
        by_cases hvt : v = t
        · rw [if_pos hvt]
        · rw [if_neg hvt, h.held_nil v fun hmem => hv (hnodup.mem_erase_iff.mpr ⟨hvt, hmem⟩)]
          rfl
      · rw [hheld]
        split
        · exact fun p hp => absurd hp List.not_mem_nil
        · exact forget_writes_nonneg (h.held_nonneg v)
      · rw [hreleased]
        intro p hp
        rcases List.mem_append.mp hp with hp | hp
        · exact h.released_nonneg p hp
        · rcases List.mem_append.mp hp with hp | hp
          · exact forget_writes_nonneg (h.held_nonneg t) p hp
          · exact hown p hp
      · rw [hpending, h.pending_eq]
        linarith
      · rw [hreleased, totalWrites_append, totalWrites_append, totalWrites_forget, ← h.held_eq,
          h.released_eq]
        ring
      · have hnonneg := h.nonneg
        have hheldt := h.writes_nonneg t
        have hownt := totalWrites_nonneg hown
        linarith
      · rw [hpending]
        exact h.ended_eq

end SolidDB
