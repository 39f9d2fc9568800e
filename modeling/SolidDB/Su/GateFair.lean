import Mathlib.Data.List.Count
import SolidDB.Su.Gate

/-!
# The gate is a fair lock

The counters of a gate are the numbers of the threads inside, who waits is in the queue or
has a message, and whoever is first in the queue cannot enter. So every run admits the
requests in the order in which they were made.
-/

namespace SolidDB

open BlockChain SuGate

namespace SuGate

variable {g g' : SuGate} {p : ℕ} {q : List ℕ} {shared : Bool}

def Blocks (g : SuGate) : Bool → Prop
  | true => 0 < g.gNexclusive
  | false => 0 < g.gNshared ∨ g.gMaxexclusive ≤ g.gNexclusive

structure Holders (g : SuGate) : Prop where
  nshared : 0 ≤ g.gNshared
  nexclusive : 0 ≤ g.gNexclusive
  apart : g.gNshared = 0 ∨ g.gNexclusive = 0
  limit : g.gNexclusive ≤ g.gMaxexclusive
  max : 1 ≤ g.gMaxexclusive

structure Valid (g : SuGate) (q : List ℕ) : Prop extends g.Holders where
  isQueue : g.IsQueue q
  nwait : g.gNwait = q.length
  blocked : ∀ x ∈ q.head?, g.Blocks (g.tickets x).tShared

/-! ## A thread comes -/

def enter (g : SuGate) (p : ℕ) : Bool → SuGate × Bool
  | true => suGateEnterShared g p
  | false => suGateEnterExclusive g p

theorem IsQueue.first_ne_null_iff (h : g.IsQueue q) : g.gQueueFirst ≠ null ↔ q ≠ [] :=
  not_congr h.linked.eq_nil_iff.symm

/-- A request waits if one of its mode has to, or others wait. -/
theorem enter_eq (h : g.Valid q) (p : ℕ) (shared : Bool) :
    (g.Blocks shared ∨ q ≠ [] → g.enter p shared = (g.enqueue p shared, true)) ∧
      (¬ (g.Blocks shared ∨ q ≠ []) → g.enter p shared = (g.addHolder shared, false)) := by
  have hfirst := h.isQueue.first_ne_null_iff
  have hshared := h.nshared
  have hexclusive := h.nexclusive
  cases shared
  · have hcond : g.gNshared ≠ 0 ∨ g.gNexclusive ≥ g.gMaxexclusive ∨ g.gQueueFirst ≠ null ↔
        g.Blocks false ∨ q ≠ [] := by
      rw [hfirst, ← or_assoc]
      refine or_congr (or_congr ?_ Iff.rfl) Iff.rfl
      omega
    exact ⟨fun hc => if_pos (hcond.mpr hc), fun hc => if_neg fun h => hc (hcond.mp h)⟩
  · have hcond : g.gNexclusive ≠ 0 ∨ g.gQueueFirst ≠ null ↔ g.Blocks true ∨ q ≠ [] := by
      rw [hfirst]
      refine or_congr ?_ Iff.rfl
      show g.gNexclusive ≠ 0 ↔ 0 < g.gNexclusive
      omega
    exact ⟨fun hc => if_pos (hcond.mpr hc), fun hc => if_neg fun h => hc (hcond.mp h)⟩

theorem enqueue_tShared (g : SuGate) (p : ℕ) (shared : Bool) (x : ℕ) :
    ((g.enqueue p shared).tickets x).tShared =
      if x = p then shared else (g.tickets x).tShared := by
  rw [(g.enqueue_links p shared).tShared, setTicket_tickets, Function.update_apply]
  split
  · rfl
  · rfl

theorem enqueue_tMes (g : SuGate) (p : ℕ) (shared : Bool) (x : ℕ) :
    ((g.enqueue p shared).tickets x).tMes = if x = p then false else (g.tickets x).tMes := by
  rw [(g.enqueue_links p shared).tMes, setTicket_tickets, Function.update_apply]
  split
  · rfl
  · rfl

theorem Holders.enqueue (h : g.Holders) (p : ℕ) (shared : Bool) :
    (g.enqueue p shared).Holders := by
  have hlinks := g.enqueue_links p shared
  constructor
  · rw [hlinks.gNshared]
    exact h.nshared
  · rw [hlinks.gNexclusive]
    exact h.nexclusive
  · rw [hlinks.gNshared, hlinks.gNexclusive]
    exact h.apart
  · rw [hlinks.gNexclusive, hlinks.gMaxexclusive]
    exact h.limit
  · rw [hlinks.gMaxexclusive]
    exact h.max

theorem blocks_enqueue (g : SuGate) (p : ℕ) (shared b : Bool) :
    (g.enqueue p shared).Blocks b ↔ g.Blocks b := by
  have hlinks := g.enqueue_links p shared
  cases b
  · unfold Blocks
    rw [hlinks.gNshared, hlinks.gNexclusive, hlinks.gMaxexclusive]
    rfl
  · unfold Blocks
    rw [hlinks.gNexclusive]
    rfl

theorem Valid.enqueue (h : g.Valid q) (hp : p ∉ q) (hn : p ≠ null)
    (hwait : g.Blocks shared ∨ q ≠ []) : (g.enqueue p shared).Valid (q ++ [p]) where
  toHolders := h.toHolders.enqueue p shared
  isQueue := h.isQueue.enqueue hp hn shared
  nwait := by
    have hset : (g.setTicket p { g.tickets p with tShared := shared, tMes := false }).gNwait =
        q.length := h.nwait
    rw [(g.enqueue_links p shared).gNwait, hset, List.length_append, List.length_singleton,
      Nat.cast_add, Nat.cast_one]
  blocked := by
    intro x hx
    rw [blocks_enqueue, enqueue_tShared]
    cases q with
    | nil =>
        obtain rfl : p = x := by simpa using hx
        rw [if_pos rfl]
        exact hwait.resolve_right fun hq => hq rfl
    | cons y q =>
        obtain rfl : y = x := by simpa using hx
        have hyp : y ≠ p := fun e => hp (e ▸ List.mem_cons_self)
        rw [if_neg hyp]
        exact h.blocked y rfl

theorem Valid.addHolder (h : g.Valid []) (hfree : ¬ g.Blocks shared) :
    (g.addHolder shared).Valid [] := by
  have hshared := h.nshared
  have hexclusive := h.nexclusive
  have hmax := h.max
  have hqueue : (g.addHolder shared).IsQueue [] := by
    cases shared <;> exact ⟨h.isQueue.linked, h.isQueue.last⟩
  cases shared
  · unfold Blocks at hfree
    rw [not_or] at hfree
    refine ⟨⟨h.nshared, ?_, .inl ?_, ?_, h.max⟩, hqueue, h.nwait, by simp⟩
    · show 0 ≤ g.gNexclusive + 1
      omega
    · show g.gNshared = 0
      omega
    · show g.gNexclusive + 1 ≤ g.gMaxexclusive
      omega
  · have hzero : g.gNexclusive = 0 := by
      unfold Blocks at hfree
      omega
    refine ⟨⟨?_, h.nexclusive, .inr hzero, h.limit, h.max⟩, hqueue, h.nwait, by simp⟩
    show 0 ≤ g.gNshared + 1
    omega

/-! ## A thread goes -/

def release (g : SuGate) : Bool → SuGate
  | true => { g with gNshared := g.gNshared - 1 }
  | false => { g with gNexclusive := g.gNexclusive - 1 }

theorem Holders.leave (h : g.Holders) (hs : shared = true → 0 < g.gNshared)
    (he : shared = false → 0 < g.gNexclusive) :
    g.leave = some (g.release shared) ∧ (g.release shared).Holders := by
  have hshared := h.nshared
  have hexclusive := h.nexclusive
  have hlimit := h.limit
  cases shared
  · have hpos := he rfl
    have hzero : g.gNshared = 0 := h.apart.resolve_right (by omega)
    refine ⟨?_, ⟨h.nshared, ?_, .inl hzero, ?_, h.max⟩⟩
    · rw [SuGate.leave, if_pos (by omega), if_pos hzero]
      rfl
    · show 0 ≤ g.gNexclusive - 1
      omega
    · show g.gNexclusive - 1 ≤ g.gMaxexclusive
      omega
  · have hpos := hs rfl
    have hzero : g.gNexclusive = 0 := h.apart.resolve_left (by omega)
    refine ⟨?_, ⟨?_, h.nexclusive, .inr hzero, h.limit, h.max⟩⟩
    · rw [SuGate.leave, if_neg (by omega), if_pos hpos]
      rfl
    · show 0 ≤ g.gNshared - 1
      omega

theorem release_lt (h : g.Holders) (he : shared = false → 0 < g.gNexclusive)
    (hs : shared = true → 0 < g.gNshared) :
    (g.release shared).gNexclusive < (g.release shared).gMaxexclusive := by
  have hlimit := h.limit
  have hmax := h.max
  cases shared
  · show g.gNexclusive - 1 < g.gMaxexclusive
    omega
  · have hpos := hs rfl
    have hzero : g.gNexclusive = 0 := h.apart.resolve_left (by omega)
    show g.gNexclusive < g.gMaxexclusive
    omega

structure Admits (g g' : SuGate) (batch : List ℕ) : Prop where
  gNshared : g'.gNshared = g.gNshared + batch.countP fun x => (g.tickets x).tShared
  gNexclusive : g'.gNexclusive = g.gNexclusive + batch.countP fun x => !(g.tickets x).tShared
  gMaxexclusive : g'.gMaxexclusive = g.gMaxexclusive
  tShared : ∀ x, (g'.tickets x).tShared = (g.tickets x).tShared
  tMes : ∀ x, (g'.tickets x).tMes = if x ∈ batch then true else (g.tickets x).tMes

theorem Admits.refl (g : SuGate) : g.Admits g [] where
  gNshared := (Int.add_zero _).symm
  gNexclusive := (Int.add_zero _).symm
  gMaxexclusive := rfl
  tShared _ := rfl
  tMes _ := (if_neg List.not_mem_nil).symm

theorem countP_mode {batch : List ℕ} {f : ℕ → Bool} (h : ∀ x ∈ batch, f x = shared) :
    batch.countP f = (if shared then batch.length else 0) ∧
      batch.countP (fun x => !f x) = (if shared then 0 else batch.length) := by
  cases shared
  · exact ⟨List.countP_eq_zero.mpr fun x hx => by simp [h x hx],
      List.countP_eq_length.mpr fun x hx => by simp [h x hx]⟩
  · exact ⟨List.countP_eq_length.mpr h, List.countP_eq_zero.mpr fun x hx => by simp [h x hx]⟩

variable {batch rest : List ℕ}

theorem Batch.admits (h : g.Batch g' shared batch rest) : g.Admits g' batch where
  gNshared := by
    rw [h.handsOver.gNshared, (countP_mode h.mode).1]
    cases shared <;> rfl
  gNexclusive := by
    rw [h.handsOver.gNexclusive, (countP_mode h.mode).2]
    cases shared <;> rfl
  gMaxexclusive := h.handsOver.gMaxexclusive
  tShared := h.handsOver.tShared
  tMes := h.handsOver.tMes

theorem getLastD_append_of_ne_nil (batch : List ℕ) (h : rest ≠ []) :
    (batch ++ rest).getLastD null = rest.getLastD null := by
  obtain ⟨as, b, rfl⟩ := (List.eq_nil_or_concat rest).resolve_left h
  rw [List.concat_eq_append, ← List.append_assoc, List.getLastD_concat, List.getLastD_concat]

/-- `g_queue_last` when the messages have been sent. -/
def resetLast (g : SuGate) : SuGate :=
  if g.gQueueFirst = null then { g with gQueueLast := null } else g

theorem Linked.resetLast (h : g.Linked g.gQueueFirst rest)
    (hlast : g.gQueueLast = (batch ++ rest).getLastD null) : g.resetLast.IsQueue rest := by
  by_cases hn : g.gQueueFirst = null
  · have hnil := h.eq_nil_iff.mpr hn
    subst hnil
    rw [SuGate.resetLast, if_pos hn]
    exact ⟨h, rfl⟩
  · have hne : rest ≠ [] := fun e => hn (h.eq_nil_iff.mp e)
    rw [SuGate.resetLast, if_neg hn]
    exact ⟨h, hlast.trans (getLastD_append_of_ne_nil batch hne)⟩

theorem Admits.resetLast (h : g.Admits g' batch) : g.Admits g'.resetLast batch := by
  unfold SuGate.resetLast
  split
  · exact ⟨h.gNshared, h.gNexclusive, h.gMaxexclusive, h.tShared, h.tMes⟩
  · exact h

theorem Holders.resetLast (h : g.Holders) : g.resetLast.Holders := by
  unfold SuGate.resetLast
  split
  · exact ⟨h.nshared, h.nexclusive, h.apart, h.limit, h.max⟩
  · exact h

theorem blocks_resetLast (g : SuGate) (b : Bool) : g.resetLast.Blocks b ↔ g.Blocks b := by
  unfold SuGate.resetLast
  split
  · cases b <;> exact Iff.rfl
  · exact Iff.rfl

theorem Batch.holders (h : g.Batch g' shared batch rest) (hg : g.Holders)
    (hs : shared = true → g.gNexclusive = 0) (he : shared = false → g.gNshared = 0) :
    g'.Holders := by
  have hshared := h.handsOver.gNshared
  have hexclusive := h.handsOver.gNexclusive
  have hmax := h.handsOver.gMaxexclusive
  have hnn := hg.nshared
  have hne := hg.nexclusive
  have hm := hg.max
  cases shared
  · have hzero := he rfl
    have hlimit := h.limit rfl
    simp only [Bool.false_eq_true, if_false] at hshared hexclusive
    exact ⟨by omega, by omega, .inl (by omega), hlimit, by omega⟩
  · have hzero := hs rfl
    simp only [if_true] at hshared hexclusive
    exact ⟨by omega, by omega, .inr (by omega), by omega, by omega⟩

theorem Batch.blocked (h : g.Batch g' shared batch rest) (hg : g.Holders) :
    ∀ x ∈ rest.head?, g'.Blocks (g.tickets x).tShared := by
  intro x hx
  have hpos : (0 : ℤ) < batch.length := by
    have := List.length_pos_of_ne_nil h.ne_nil
    omega
  have hshared := h.handsOver.gNshared
  have hexclusive := h.handsOver.gNexclusive
  have hnn := hg.nshared
  have hne := hg.nexclusive
  have hstops := h.stops x hx
  cases hx : (g.tickets x).tShared with
  | true =>
      cases shared with
      | true => exact absurd (hstops hx).1 (by decide)
      | false =>
          simp only [Bool.false_eq_true, if_false] at hexclusive
          show 0 < g'.gNexclusive
          omega
  | false =>
      cases shared with
      | true =>
          simp only [if_true] at hshared
          exact .inl (show 0 < g'.gNshared by omega)
      | false => exact .inr (hstops hx).2

/-- The loop of `su_gate_exit` for the mode of the first ticket. -/
theorem handOver_valid (hg : g.Holders) (hqueue : g.IsQueue (p :: q))
    (hnwait : g.gNwait = (p :: q).length) (hmode : (g.tickets p).tShared = shared)
    (hs : shared = true → g.gNexclusive = 0) (he : shared = false → g.gNshared = 0)
    (hlt : g.gNexclusive < g.gMaxexclusive) :
    ∃ g' batch rest, g.handOver shared g.gNwait.toNat p = some (g', batch) ∧
      p :: q = batch ++ rest ∧ g.Admits g'.resetLast batch ∧ g'.resetLast.Valid rest := by
  have hfirst : g.gQueueFirst = p := hqueue.linked.1
  have hlinked := hqueue.linked
  rw [hfirst] at hlinked
  obtain ⟨g', batch, rest, heq, hsplit, hbatch⟩ :=
    handOver_batch hlinked (show (p :: q).length ≤ g.gNwait.toNat by omega) hmode fun _ => hlt
  have hlast : g'.gQueueLast = (batch ++ rest).getLastD null := by
    rw [hbatch.handsOver.gQueueLast, hqueue.last, hsplit]
  refine ⟨g', batch, rest, heq, hsplit, hbatch.admits.resetLast, ?_⟩
  refine ⟨(hbatch.holders hg hs he).resetLast, hbatch.linked.resetLast hlast, ?_, ?_⟩
  · have hlen := congrArg List.length hsplit
    have hnw : g'.resetLast.gNwait = g'.gNwait := by
      unfold SuGate.resetLast
      split <;> rfl
    rw [List.length_append] at hlen
    rw [hnw, hbatch.handsOver.gNwait, hnwait]
    omega
  · intro x hx
    rw [blocks_resetLast, hbatch.admits.resetLast.tShared]
    exact hbatch.blocked hg x hx

/-- The messages of `su_gate_exit` go to the front of the queue, and whoever is first then
has to wait. -/
theorem Holders.wakeup (h : g.Holders) (hqueue : g.IsQueue q) (hnwait : g.gNwait = q.length)
    (hlt : g.gNexclusive < g.gMaxexclusive) :
    ∃ g' batch rest, g.wakeup = some (g', batch) ∧ q = batch ++ rest ∧
      g.Admits g' batch ∧ g'.Valid rest := by
  unfold SuGate.wakeup
  cases q with
  | nil =>
      have hfirst : g.gQueueFirst = null := hqueue.linked
      simp only [hfirst, ne_eq, not_true_eq_false, if_false]
      exact ⟨g, [], [], rfl, rfl, .refl g, h, hqueue, hnwait, by simp⟩
  | cons p q =>
      have hfirst : g.gQueueFirst = p := hqueue.linked.1
      have hn : p ≠ null := hqueue.linked.2.1
      have hshared := h.nshared
      have hexclusive := h.nexclusive
      have hstay : g.Blocks (g.tickets p).tShared →
          g.resetLast = g ∧ g.Valid (p :: q) := by
        intro hb
        refine ⟨if_neg (hfirst ▸ hn), h, hqueue, hnwait, ?_⟩
        intro x hx
        obtain rfl : p = x := by simpa using hx
        exact hb
      simp only [hfirst, ne_eq, hn, not_false_eq_true, if_true]
      cases hmode : (g.tickets p).tShared with
      | false =>
          simp only [Bool.not_false, if_true]
          by_cases hz : g.gNshared = 0
          · obtain ⟨g', batch, rest, heq, hsplit, hadmits, hvalid⟩ :=
              handOver_valid h hqueue hnwait hmode (by simp) (fun _ => hz) hlt
            rw [if_pos hz, heq]
            exact ⟨_, batch, rest, rfl, hsplit, hadmits, hvalid⟩
          · have hb : g.Blocks (g.tickets p).tShared := by
              rw [hmode]
              exact .inl (show 0 < g.gNshared by omega)
            rw [if_neg hz]
            exact ⟨g, [], p :: q, congrArg (fun x => some (x, [])) (hstay hb).1, rfl, .refl g,
              (hstay hb).2⟩
      | true =>
          simp only [Bool.not_true, Bool.false_eq_true, if_false]
          by_cases hz : g.gNexclusive = 0
          · obtain ⟨g', batch, rest, heq, hsplit, hadmits, hvalid⟩ :=
              handOver_valid h hqueue hnwait hmode (fun _ => hz) (by simp) hlt
            rw [if_pos hz, heq]
            exact ⟨_, batch, rest, rfl, hsplit, hadmits, hvalid⟩
          · have hb : g.Blocks (g.tickets p).tShared := by
              rw [hmode]
              show 0 < g.gNexclusive
              omega
            rw [if_neg hz]
            exact ⟨g, [], p :: q, congrArg (fun x => some (x, [])) (hstay hb).1, rfl, .refl g,
              (hstay hb).2⟩

theorem Valid.exit (h : g.Valid q) (hs : shared = true → 0 < g.gNshared)
    (he : shared = false → 0 < g.gNexclusive) :
    ∃ g' batch rest, suGateExit g = some (g', batch) ∧ q = batch ++ rest ∧
      (g.release shared).Admits g' batch ∧ g'.Valid rest := by
  obtain ⟨hleave, hholders⟩ := h.toHolders.leave hs he
  have hqueue : (g.release shared).IsQueue q := by
    cases shared <;> exact ⟨h.isQueue.linked, h.isQueue.last⟩
  have hnwait : (g.release shared).gNwait = q.length := by
    cases shared <;> exact h.nwait
  obtain ⟨g', batch, rest, heq, hrest⟩ :=
    hholders.wakeup hqueue hnwait (release_lt h.toHolders he hs)
  refine ⟨g', batch, rest, ?_, hrest⟩
  rw [suGateExit, hleave]
  exact heq

end SuGate

end SolidDB
