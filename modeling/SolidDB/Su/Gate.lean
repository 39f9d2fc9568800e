import Mathlib.Data.Int.Basic
import Mathlib.Data.List.Perm.Basic
import Mathlib.Tactic.Ring
import SolidDB.Foundation.BlockChain

/-!
# The gate of `su0gate.c`

A gate is entered in shared or in exclusive mode. Who cannot enter at once links its
ticket to the end of the queue and waits for a message; `su_gate_exit` takes tickets from
the front of the queue and sends the messages.

Everything between `SsFlatMutexLock` and `SsFlatMutexUnlock` is one step here. A ticket is
a local variable of the waiting thread, so a thread is named by the address of its ticket.
-/

namespace SolidDB

structure SuQticket where
  tShared : Bool
  tMes : Bool
  tNext : ℕ

namespace SuGate

abbrev null : ℕ := 0

end SuGate

structure SuGate where
  gNwait : ℤ
  gNshared : ℤ
  gNexclusive : ℤ
  gMaxexclusive : ℤ
  gQueueFirst : ℕ
  gQueueLast : ℕ
  tickets : ℕ → SuQticket

namespace SuGate

variable (g : SuGate) (p : ℕ)

def setTicket (ticket : SuQticket) : SuGate :=
  { g with tickets := Function.update g.tickets p ticket }

def setNext (next : ℕ) : SuGate :=
  g.setTicket p { g.tickets p with tNext := next }

def linktoqueue : SuGate :=
  let g := { g with gNwait := g.gNwait + 1 }
  let g :=
    if g.gQueueLast = null then
      { g with gQueueLast := p, gQueueFirst := p }
    else
      { g.setNext g.gQueueLast p with gQueueLast := p }
  g.setNext p null

def enqueue (shared : Bool) : SuGate :=
  (g.setTicket p { g.tickets p with tShared := shared, tMes := false }).linktoqueue p

def addHolder : Bool → SuGate
  | true => { g with gNshared := g.gNshared + 1 }
  | false => { g with gNexclusive := g.gNexclusive + 1 }

/-- The condition of the loops of `su_gate_exit` on the next ticket. -/
def more : Bool → SuQticket → Bool
  | true, ticket => ticket.tShared
  | false, ticket => !ticket.tShared && g.gNexclusive < g.gMaxexclusive

def sendFirst (shared : Bool) : SuGate :=
  let next := (g.tickets p).tNext
  let g := g.addHolder shared
  let g := { g with gNwait := g.gNwait - 1 }
  let g := g.setTicket p { g.tickets p with tMes := true }
  ({ g with gQueueFirst := next }).setNext p null

end SuGate

open SuGate

/-- The two loops of `su_gate_exit`, for at most as many rounds as the first argument says;
with the tickets to which messages are sent. -/
def SuGate.handOver (shared : Bool) : ℕ → SuGate → ℕ → Option (SuGate × List ℕ)
  | 0, _, _ => none
  | rounds + 1, g, p =>
      let g := g.sendFirst p shared
      let next := g.gQueueFirst
      if next ≠ null ∧ g.more shared (g.tickets next) = true then
        (handOver shared rounds g next).map fun r => (r.1, p :: r.2)
      else
        some (g, [p])

/-- `su_gate_enter_shared` up to `su_mes_wait`, with whether the thread waits. -/
def suGateEnterShared (g : SuGate) (p : ℕ) : SuGate × Bool :=
  if g.gNexclusive ≠ 0 ∨ g.gQueueFirst ≠ null then
    (g.enqueue p true, true)
  else
    (g.addHolder true, false)

/-- `su_gate_enter_exclusive` up to `su_mes_wait`, with whether the thread waits. -/
def suGateEnterExclusive (g : SuGate) (p : ℕ) : SuGate × Bool :=
  if g.gNshared ≠ 0 ∨ g.gNexclusive ≥ g.gMaxexclusive ∨ g.gQueueFirst ≠ null then
    (g.enqueue p false, true)
  else
    (g.addHolder false, false)

/-- The first part of `su_gate_exit`: which kind of holder leaves. An `ss_assert` that does
not hold ends the program. -/
def SuGate.leave (g : SuGate) : Option SuGate :=
  if g.gNexclusive ≠ 0 then
    if g.gNshared = 0 then some { g with gNexclusive := g.gNexclusive - 1 } else none
  else
    if g.gNshared > 0 then some { g with gNshared := g.gNshared - 1 } else none

/-- The second part of `su_gate_exit`: the messages for the front of the queue. A loop over
the queue makes at most `g_nwait` rounds. -/
def SuGate.wakeup (g : SuGate) : Option (SuGate × List ℕ) :=
  let p := g.gQueueFirst
  if p ≠ null then
    let sent :=
      if !(g.tickets p).tShared then
        if g.gNshared = 0 then g.handOver false g.gNwait.toNat p else some (g, [])
      else
        if g.gNexclusive = 0 then g.handOver true g.gNwait.toNat p else some (g, [])
    sent.map fun r =>
      (if r.1.gQueueFirst = null then { r.1 with gQueueLast := null } else r.1, r.2)
  else
    some (g, [])

/-- `su_gate_exit`, with the tickets to which messages are sent. -/
def suGateExit (g : SuGate) : Option (SuGate × List ℕ) :=
  g.leave.bind SuGate.wakeup

/-- `gate_init` and `su_gate_setmaxexclusive`. -/
def suGateInit (maxexclusive : ℤ) (tickets : ℕ → SuQticket) : SuGate where
  gNwait := 0
  gNshared := 0
  gNexclusive := 0
  gMaxexclusive := maxexclusive
  gQueueFirst := null
  gQueueLast := null
  tickets := tickets

/-! ## The threads -/

structure GateSys where
  gate : SuGate
  /-- The mode for which a thread is in `su_mes_wait`. -/
  waiting : ℕ → Option Bool
  /-- The admitted threads that have not exited, with `true` for the shared mode. -/
  inside : List (ℕ × Bool)

/-- What a thread does; `wake` is the return from `su_mes_wait` and what comes after it. -/
inductive GateAct where
  | enter (thread : ℕ) (shared : Bool)
  | wake (thread : ℕ)
  | exit (thread : ℕ) (shared : Bool)

namespace GateSys

def init (maxexclusive : ℤ) (tickets : ℕ → SuQticket) : GateSys where
  gate := suGateInit maxexclusive tickets
  waiting _ := none
  inside := []

variable (s : GateSys)

def Enabled : GateAct → Prop
  | .enter t _ => t ≠ null ∧ s.waiting t = none
  | .wake t => s.waiting t ≠ none ∧ (s.gate.tickets t).tMes = true
  | .exit t shared => s.waiting t = none ∧ (t, shared) ∈ s.inside

instance (a : GateAct) : Decidable (s.Enabled a) :=
  match a with
  | .enter t _ => inferInstanceAs (Decidable (t ≠ null ∧ s.waiting t = none))
  | .wake t =>
      inferInstanceAs (Decidable (s.waiting t ≠ none ∧ (s.gate.tickets t).tMes = true))
  | .exit t shared =>
      inferInstanceAs (Decidable (s.waiting t = none ∧ (t, shared) ∈ s.inside))

def entered (t : ℕ) (shared : Bool) (r : SuGate × Bool) : GateSys × List (ℕ × Bool) :=
  if r.2 then
    ({ s with gate := r.1, waiting := Function.update s.waiting t (some shared) }, [])
  else
    ({ s with gate := r.1, inside := s.inside ++ [(t, shared)] }, [(t, shared)])

def step : GateAct → Option (GateSys × List (ℕ × Bool))
  | .enter t true => some (s.entered t true (suGateEnterShared s.gate t))
  | .enter t false => some (s.entered t false (suGateEnterExclusive s.gate t))
  | .wake t =>
      -- `su_gate_enter_exclusive` asserts that nobody is inside in shared mode.
      if s.waiting t = some false ∧ s.gate.gNshared ≠ 0 then none
      else some ({ s with waiting := Function.update s.waiting t none }, [])
  | .exit t shared =>
      (suGateExit s.gate).map fun r =>
        let admitted := r.2.map fun p => (p, (s.gate.tickets p).tShared)
        ({ s with gate := r.1, inside := s.inside.erase (t, shared) ++ admitted }, admitted)

def run : GateSys → List GateAct → Option (GateSys × List (ℕ × Bool))
  | s, [] => some (s, [])
  | s, a :: acts =>
      if s.Enabled a then
        (s.step a).bind fun r => (run r.1 acts).map fun r' => (r'.1, r.2 ++ r'.2)
      else none

end GateSys

end SolidDB

/-!
## The queue of a gate

The tickets of the queue are chained from `g_queue_first` to `g_queue_last`. A ticket is
linked behind them, and `su_gate_exit` takes a batch of tickets of one kind from the front.
-/

namespace SolidDB

open BlockChain SuGate

namespace SuGate

variable {g : SuGate} {p : ℕ} {q : List ℕ} {shared : Bool}

abbrev Linked (g : SuGate) (first : ℕ) (q : List ℕ) : Prop :=
  Chain SuQticket.tNext null g.tickets first q

structure IsQueue (g : SuGate) (q : List ℕ) : Prop where
  linked : g.Linked g.gQueueFirst q
  last : g.gQueueLast = q.getLastD null

@[simp] theorem setTicket_tickets (p : ℕ) (t : SuQticket) :
    (g.setTicket p t).tickets = Function.update g.tickets p t := rfl

@[simp] theorem setNext_tickets (p next : ℕ) :
    (g.setNext p next).tickets =
      Function.update g.tickets p { g.tickets p with tNext := next } := rfl

@[simp] theorem addHolder_tickets (shared : Bool) :
    (g.addHolder shared).tickets = g.tickets := by
  cases shared <;> rfl

@[simp] theorem addHolder_gMaxexclusive (shared : Bool) :
    (g.addHolder shared).gMaxexclusive = g.gMaxexclusive := by
  cases shared <;> rfl

theorem setNext_tShared (p next x : ℕ) :
    ((g.setNext p next).tickets x).tShared = (g.tickets x).tShared := by
  rw [setNext_tickets, Function.update_apply]
  split
  · rename_i h
    rw [h]
  · rfl

theorem setNext_tMes (p next x : ℕ) :
    ((g.setNext p next).tickets x).tMes = (g.tickets x).tMes := by
  rw [setNext_tickets, Function.update_apply]
  split
  · rename_i h
    rw [h]
  · rfl

/-! ## A new ticket -/

structure Links (g g' : SuGate) (p : ℕ) : Prop where
  gNwait : g'.gNwait = g.gNwait + 1
  gNshared : g'.gNshared = g.gNshared
  gNexclusive : g'.gNexclusive = g.gNexclusive
  gMaxexclusive : g'.gMaxexclusive = g.gMaxexclusive
  tShared : ∀ x, (g'.tickets x).tShared = (g.tickets x).tShared
  tMes : ∀ x, (g'.tickets x).tMes = (g.tickets x).tMes

theorem linktoqueue_links (g : SuGate) (p : ℕ) : g.Links (g.linktoqueue p) p := by
  unfold linktoqueue
  by_cases h : g.gQueueLast = null
  · simp only [if_pos h]
    exact ⟨rfl, rfl, rfl, rfl, setNext_tShared p null, setNext_tMes p null⟩
  · simp only [if_neg h]
    refine ⟨rfl, rfl, rfl, rfl, fun x => ?_, fun x => ?_⟩
    · rw [setNext_tShared]
      exact setNext_tShared (g := { g with gNwait := g.gNwait + 1 }) g.gQueueLast p x
    · rw [setNext_tMes]
      exact setNext_tMes (g := { g with gNwait := g.gNwait + 1 }) g.gQueueLast p x

theorem IsQueue.linktoqueue (h : g.IsQueue q) (hp : p ∉ q) (hn : p ≠ null) :
    (g.linktoqueue p).IsQueue (q ++ [p]) := by
  rcases List.eq_nil_or_concat q with rfl | ⟨as, b, rfl⟩
  · have hlast : g.gQueueLast = null := h.last
    unfold SuGate.linktoqueue
    simp only [if_pos hlast]
    refine ⟨⟨rfl, hn, ?_⟩, rfl⟩
    rw [setNext_tickets, Function.update_self]
    rfl
  · have hlast : g.gQueueLast = b := by
      rw [h.last, List.concat_eq_append, List.getLastD_concat]
    rw [List.concat_eq_append] at h hp ⊢
    have hb : b ≠ null := h.linked.ne_null (List.mem_append_right as List.mem_cons_self)
    have hpb : p ≠ b := fun e => hp (e ▸ List.mem_append_right as List.mem_cons_self)
    unfold SuGate.linktoqueue
    simp only [hlast, if_neg hb]
    refine ⟨?_, by rw [List.getLastD_concat]; rfl⟩
    -- the chain as it is when `p` gets the null pointer first
    have hpnext : Chain SuQticket.tNext null
        (Function.update g.tickets p { g.tickets p with tNext := null }) p [p] := by
      refine ⟨rfl, hn, ?_⟩
      rw [Function.update_self]
      rfl
    have hdisj : ∀ c ∈ [p], c ∉ as ++ [b] := by
      intro c hc
      rw [List.mem_singleton.mp hc]
      exact hp
    have hjoin := (h.linked.update hp { g.tickets p with tNext := null }).join
      (x := { g.tickets b with tNext := p }) hpnext hdisj
    rw [List.append_assoc]
    refine hjoin.congr fun c _ => ?_
    simp only [setNext_tickets, Function.update_of_ne hpb]
    by_cases hcp : c = p
    · rw [hcp, Function.update_self, Function.update_of_ne hpb, Function.update_self]
    · rw [Function.update_of_ne hcp]
      by_cases hcb : c = b
      · rw [hcb, Function.update_self, Function.update_self]
      · rw [Function.update_of_ne hcb, Function.update_of_ne hcb, Function.update_of_ne hcp]

theorem enqueue_links (g : SuGate) (p : ℕ) (shared : Bool) :
    (g.setTicket p { g.tickets p with tShared := shared, tMes := false }).Links
      (g.enqueue p shared) p :=
  linktoqueue_links _ p

theorem IsQueue.enqueue (h : g.IsQueue q) (hp : p ∉ q) (hn : p ≠ null) (shared : Bool) :
    (g.enqueue p shared).IsQueue (q ++ [p]) := by
  have hset : (g.setTicket p { g.tickets p with tShared := shared, tMes := false }).IsQueue q :=
    ⟨h.linked.update hp _, h.last⟩
  exact hset.linktoqueue hp hn

/-! ## A batch from the front -/

theorem more_eq (g : SuGate) (shared : Bool) (ticket : SuQticket) :
    g.more shared ticket = true ↔
      ticket.tShared = shared ∧ (shared = false → g.gNexclusive < g.gMaxexclusive) := by
  cases shared
  · simp [more]
  · simp [more]

/-- The tickets of the batch have left the queue, with a message for each. -/
structure HandsOver (g g' : SuGate) (shared : Bool) (batch : List ℕ) : Prop where
  gNwait : g'.gNwait = g.gNwait - batch.length
  gNshared : g'.gNshared = g.gNshared + if shared then (batch.length : ℤ) else 0
  gNexclusive : g'.gNexclusive = g.gNexclusive + if shared then 0 else (batch.length : ℤ)
  gMaxexclusive : g'.gMaxexclusive = g.gMaxexclusive
  gQueueLast : g'.gQueueLast = g.gQueueLast
  tShared : ∀ x, (g'.tickets x).tShared = (g.tickets x).tShared
  tMes : ∀ x, (g'.tickets x).tMes = if x ∈ batch then true else (g.tickets x).tMes

theorem sendFirst_handsOver (g : SuGate) (p : ℕ) (shared : Bool) :
    g.HandsOver (g.sendFirst p shared) shared [p] := by
  have hshared : ∀ x, ((g.sendFirst p shared).tickets x).tShared = (g.tickets x).tShared := by
    intro x
    unfold sendFirst
    rw [setNext_tShared]
    simp only [setTicket_tickets, addHolder_tickets, Function.update_apply]
    split
    · rename_i h
      rw [h]
    · rfl
  have hmes : ∀ x, ((g.sendFirst p shared).tickets x).tMes =
      if x ∈ [p] then true else (g.tickets x).tMes := by
    intro x
    unfold sendFirst
    rw [setNext_tMes]
    simp only [setTicket_tickets, addHolder_tickets, Function.update_apply, List.mem_singleton]
    split
    · rfl
    · rfl
  cases shared
  · exact ⟨rfl, (add_zero g.gNshared).symm, rfl, rfl, rfl, hshared, hmes⟩
  · exact ⟨rfl, rfl, (add_zero g.gNexclusive).symm, rfl, rfl, hshared, hmes⟩

theorem Linked.sendFirst (h : g.Linked p (p :: q)) (shared : Bool) :
    (g.sendFirst p shared).Linked (g.sendFirst p shared).gQueueFirst q := by
  have hp : p ∉ q := (List.nodup_cons.mp h.nodup).1
  have hfirst : (g.sendFirst p shared).gQueueFirst = (g.tickets p).tNext := rfl
  rw [hfirst]
  refine h.2.2.congr fun c hc => ?_
  have hcp : c ≠ p := fun e => hp (e ▸ hc)
  unfold SuGate.sendFirst
  simp only [setNext_tickets, setTicket_tickets, addHolder_tickets, Function.update_of_ne hcp]

theorem HandsOver.cons {g₁ g₂ : SuGate} {batch : List ℕ}
    (h₁ : g.HandsOver g₁ shared [p]) (h₂ : g₁.HandsOver g₂ shared batch) :
    g.HandsOver g₂ shared (p :: batch) where
  gNwait := by
    rw [h₂.gNwait, h₁.gNwait, List.length_singleton, List.length_cons]
    push_cast
    ring
  gNshared := by
    rw [h₂.gNshared, h₁.gNshared, List.length_singleton, List.length_cons]
    split
    · push_cast
      ring
    · ring
  gNexclusive := by
    rw [h₂.gNexclusive, h₁.gNexclusive, List.length_singleton, List.length_cons]
    split
    · ring
    · push_cast
      ring
  gMaxexclusive := h₂.gMaxexclusive.trans h₁.gMaxexclusive
  gQueueLast := h₂.gQueueLast.trans h₁.gQueueLast
  tShared x := (h₂.tShared x).trans (h₁.tShared x)
  tMes x := by
    rw [h₂.tMes, h₁.tMes]
    by_cases hb : x ∈ batch
    · rw [if_pos hb, if_pos (List.mem_cons_of_mem p hb)]
    · rw [if_neg hb]
      by_cases hx : x = p
      · rw [if_pos (List.mem_singleton.mpr hx), if_pos (hx ▸ List.mem_cons_self)]
      · rw [if_neg (by simpa using hx), if_neg (by simp [hx, hb])]

/-- A batch of the mode: it is not empty, keeps to the limit, and ends before a ticket of
the other mode, at the limit or with the queue. -/
structure Batch (g g' : SuGate) (shared : Bool) (batch rest : List ℕ) : Prop where
  handsOver : g.HandsOver g' shared batch
  linked : g'.Linked g'.gQueueFirst rest
  ne_nil : batch ≠ []
  mode : ∀ x ∈ batch, (g.tickets x).tShared = shared
  limit : shared = false → g'.gNexclusive ≤ g'.gMaxexclusive
  stops : ∀ x ∈ rest.head?, (g.tickets x).tShared = shared →
    shared = false ∧ g'.gMaxexclusive ≤ g'.gNexclusive

theorem handOver_batch {rounds : ℕ} (h : g.Linked p (p :: q)) (hr : (p :: q).length ≤ rounds)
    (hmode : (g.tickets p).tShared = shared)
    (hlimit : shared = false → g.gNexclusive < g.gMaxexclusive) :
    ∃ g' batch rest, g.handOver shared rounds p = some (g', batch) ∧
      p :: q = batch ++ rest ∧ g.Batch g' shared batch rest := by
  induction rounds generalizing g p q with
  | zero => exact absurd hr (Nat.not_succ_le_zero _)
  | succ rounds ih =>
      have hsend := g.sendFirst_handsOver p shared
      have hrest := h.sendFirst shared
      have hlimit' : shared = false →
          (g.sendFirst p shared).gNexclusive ≤ (g.sendFirst p shared).gMaxexclusive := by
        intro hf
        rw [hsend.gNexclusive, hsend.gMaxexclusive, hf]
        exact hlimit hf
      have hone : ∀ x ∈ [p], (g.tickets x).tShared = shared := by
        intro x hx
        rw [List.mem_singleton.mp hx]
        exact hmode
      rw [handOver]
      cases q with
      | nil =>
          have hnil : (g.sendFirst p shared).gQueueFirst = null := hrest
          rw [if_neg fun hc => hc.1 hnil]
          exact ⟨_, [p], [], rfl, rfl, hsend, hrest, List.cons_ne_nil p [], hone, hlimit', by simp⟩
      | cons n q =>
          have hfirst : (g.sendFirst p shared).gQueueFirst = n := hrest.1
          have hn : n ≠ null := hrest.2.1
          rw [hfirst] at hrest ⊢
          by_cases hmore : (g.sendFirst p shared).more shared
              ((g.sendFirst p shared).tickets n) = true
          · have hgo := (more_eq _ _ _).mp hmore
            obtain ⟨g', batch, rest, heq, hsplit, hbatch⟩ :=
              ih hrest (Nat.le_of_succ_le_succ hr) hgo.1 hgo.2
            rw [if_pos ⟨hn, hmore⟩, heq]
            refine ⟨g', p :: batch, rest, rfl, by rw [hsplit]; rfl, ?_⟩
            exact
              { handsOver := hsend.cons hbatch.handsOver
                linked := hbatch.linked
                ne_nil := List.cons_ne_nil p batch
                mode := fun x hx => by
                  rcases List.mem_cons.mp hx with rfl | hx
                  · exact hmode
                  · rw [← hsend.tShared]
                    exact hbatch.mode x hx
                limit := hbatch.limit
                stops := fun x hx hs => hbatch.stops x hx (by rw [hsend.tShared]; exact hs) }
          · rw [if_neg fun hc => hmore hc.2]
            refine ⟨_, [p], n :: q, rfl, rfl, ?_⟩
            refine ⟨hsend, hfirst ▸ hrest, List.cons_ne_nil p [], hone, hlimit', ?_⟩
            intro x hx hs
            obtain rfl : n = x := by simpa using hx
            rw [more_eq, hsend.tShared] at hmore
            have hstop : ¬ (shared = false → (g.sendFirst p shared).gNexclusive <
                (g.sendFirst p shared).gMaxexclusive) := fun hc => hmore ⟨hs, hc⟩
            rw [Classical.not_imp, not_lt] at hstop
            exact hstop

end SuGate

end SolidDB
