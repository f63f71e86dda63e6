/-
# Plexus.Shm.RingMachine — producers and subscribers at work on one ring (`shm/slot_publisher.h`,
`shm/slot_subscriber.h`, `shm/taken_message.h`, `shm/shm_slot_owner.h`).

`subscriberStep` is the consumer's side, access by access: registration, `take` with its probe, pin
and recheck, the cursor's publication, the destructor. `step` interleaves any number of producers
and subscribers with the payload writes and the views that outlive a `take`; a call that a thread
cannot make in its place does nothing.
-/
import Mathlib.Data.Fintype.Basic
import Plexus.Io.Qos
import Plexus.Lib.Run
import Plexus.Shm.BroadcastRing

namespace Plexus.Shm

open Lib Function

/-! ## Subscribers -/

/-- The next access of a subscriber. `spun` counts the empty looks of the running `take`. -/
inductive TakePc where
  | absent
  /-- registered nowhere: every `take` is empty -/
  | unregistered
  | tryActive (i : Nat)
  | storeIdle
  | loadHigh
  | raiseHigh (hw : Nat)
  | loadTail
  | publishTail
  | ready
  | loadSequence (spun : Nat)
  | loadLagTail (spun : Nat)
  | loadLength (spun : Nat)
  | fetchAdd (spun len : Nat)
  | recheck (spun len : Nat)
  | fetchSub (spun len : Nat)
  | publish (spun : Nat) (settled : Bool)
  | retireIdle
  | retireActive
  deriving DecidableEq

/-- A subscriber: its place in the code and its own variables. -/
structure Subscriber where
  pc : TakePc := .absent
  spinBudget : Nat := 256
  index : Nat := 0
  cursor : Nat := 0
  /-- the tail its constructor read -/
  tail : Nat := 0
  /-- the positions its takes have returned, in order -/
  taken : List Nat := []
  deriving DecidableEq

/-- What a subscriber's access writes. -/
inductive ConsumerWrite where
  | keep
  | active (i : Nat) (value : Bool)
  | position (i : Nat) (value : Option Nat)
  | highWater (value : Nat)
  /-- `take_refcount` counts one more, the pin announced -/
  | pin (p : Pin)
  /-- the announced pin is handed to a `taken_message` -/
  | adopt (p : Pin)
  | unpin (p : Pin)
  deriving DecidableEq

def addPin (g : Geometry) (m : Shared) (p : Pin) : Shared :=
  { m with
    takeRefcount := update m.takeRefcount (g.cellAt p.position)
      (m.takeRefcount (g.cellAt p.position) + 1)
    pins := p :: m.pins }

def dropPin (g : Geometry) (m : Shared) (p : Pin) : Shared :=
  { m with
    takeRefcount := update m.takeRefcount (g.cellAt p.position)
      (m.takeRefcount (g.cellAt p.position) - 1)
    pins := m.pins.erase p }

def Shared.consumerWrite (g : Geometry) (m : Shared) : ConsumerWrite → Shared
  | .keep => m
  | .active i value => { m with active := update m.active i value }
  | .position i value => { m with position := update m.position i value }
  | .highWater value => { m with highWater := value }
  | .pin p => addPin g m p
  | .adopt p => { m with pins := { p with holder := none } :: m.pins.erase p }
  | .unpin p => dropPin g m p

namespace Subscriber

/-- `register_cursor` at index `i`. -/
def tryFrom (g : Geometry) (i : Nat) : TakePc :=
  if i < g.consumerCapacity then .tryActive i else .unregistered

/-- `raise_high_water` with `hw` last seen. -/
def raise (sub : Subscriber) (hw : Nat) : TakePc :=
  if hw < sub.index + 1 then .raiseHigh hw else .loadTail

/-- Step forward without delivering. -/
def advance (sub : Subscriber) (spun : Nat) : Subscriber :=
  { sub with pc := .publish spun false, cursor := sub.cursor + 1 }

/-- The pin subscriber `j` announces at its cursor. -/
def pinAt (sub : Subscriber) (j len : Nat) : Pin :=
  { position := sub.cursor, length := len, holder := some j }

/-- One access of subscriber `j`. -/
def step (g : Geometry) (m : Shared) (spurious : Bool) (j : Nat) (sub : Subscriber) :
    Subscriber × ConsumerWrite :=
  match sub.pc with
  | .absent | .unregistered | .ready => (sub, .keep)
  | .tryActive i =>
    if m.active i then ({ sub with pc := tryFrom g (i + 1) }, .keep)
    else ({ sub with pc := .storeIdle, index := i }, .active i true)
  | .storeIdle => ({ sub with pc := .loadHigh }, .position sub.index none)
  | .loadHigh => ({ sub with pc := sub.raise m.highWater }, .keep)
  | .raiseHigh hw =>
    if m.highWater = hw ∧ spurious = false then
      ({ sub with pc := .loadTail }, .highWater (sub.index + 1))
    else ({ sub with pc := sub.raise m.highWater }, .keep)
  | .loadTail =>
    ({ sub with pc := .publishTail, cursor := m.enqueuePos, tail := m.enqueuePos, taken := [] },
      .keep)
  | .publishTail => ({ sub with pc := .ready }, .position sub.index (some sub.cursor))
  | .loadSequence spun =>
    let seq := m.sequence (g.cellAt sub.cursor)
    if seq < sub.cursor + 1 then
      ({ sub with pc := if sub.spinBudget ≤ spun then .ready else .loadSequence (spun + 1) }, .keep)
    else if sub.cursor + 1 + g.cellCount ≤ seq then ({ sub with pc := .loadLagTail spun }, .keep)
    else if sub.cursor + 1 < seq then (sub.advance spun, .keep)
    else ({ sub with pc := .loadLength spun }, .keep)
  | .loadLagTail spun => ({ sub with pc := .publish spun false, cursor := m.enqueuePos }, .keep)
  | .loadLength spun =>
    let len := m.payloadLen (g.cellAt sub.cursor)
    if len = kSkipLen then (sub.advance spun, .keep)
    else ({ sub with pc := .fetchAdd spun (min len g.slotCapacity) }, .keep)
  | .fetchAdd spun len => ({ sub with pc := .recheck spun len }, .pin (sub.pinAt j len))
  | .recheck spun len =>
    if m.sequence (g.cellAt sub.cursor) = sub.cursor + 1 then
      ({ sub with
          pc := .publish spun true, cursor := sub.cursor + 1, taken := sub.taken ++ [sub.cursor] },
        .adopt (sub.pinAt j len))
    else ({ sub with pc := .fetchSub spun len }, .keep)
  | .fetchSub spun len => (sub.advance spun, .unpin (sub.pinAt j len))
  | .publish spun settled =>
    ({ sub with pc := if settled then .ready else .loadSequence spun },
      .position sub.index (some sub.cursor))
  | .retireIdle => ({ sub with pc := .retireActive }, .position sub.index none)
  | .retireActive => ({ sub with pc := .absent }, .active sub.index false)

end Subscriber

/-! ## The whole system -/

/-- The two branches of `claim_with_policy`. -/
def Policy.of : Io.Reliability → Policy
  | .reliable => .reliable
  | .bestEffort => .bestEffort 0

/-- The shared memory and the threads at work on it. -/
structure Sys (P S : Nat) where
  mem : Shared := {}
  claims : Fin P → ClaimPc := fun _ => .idle
  subs : Fin S → Subscriber := fun _ => {}

inductive Event (P S : Nat) where
  /-- `claim_with_policy` is called, and loads `enqueue_pos` -/
  | beginClaim (k : Fin P) (rel : Io.Reliability) (size : Nat)
  | claim (k : Fin P) (spurious : Bool)
  | writeByte (k : Fin P) (i : Nat) (value : UInt8)
  | beginCommit (k : Fin P) (len : Nat)
  | beginSubscribe (j : Fin S) (spinBudget : Nat)
  | beginTake (j : Fin S)
  | beginDestroy (j : Fin S)
  | subscriber (j : Fin S) (spurious : Bool)
  /-- `as_wire_bytes` on a live view, and a view's destructor -/
  | share (p : Pin)
  | release (p : Pin)
  deriving DecidableEq

namespace Sys

variable {P S : Nat}

def setClaim (s : Sys P S) (k : Fin P) (pc : ClaimPc) : Sys P S :=
  { s with claims := update s.claims k pc }

def setSub (s : Sys P S) (j : Fin S) (sub : Subscriber) : Sys P S :=
  { s with subs := update s.subs j sub }

def setMem (s : Sys P S) (m : Shared) : Sys P S := { s with mem := m }

def step (g : Geometry) (s : Sys P S) : Event P S → Sys P S
  | .beginClaim k rel size =>
    if s.claims k = .idle ∧ size ≤ g.slotCapacity then
      s.setClaim k (enter g s.mem.enqueuePos (Policy.of rel))
    else s
  | .claim k spurious =>
    let next := claimStep g s.mem spurious (s.claims k)
    (s.setClaim k next.1).setMem (s.mem.write g next.2)
  | .writeByte k i value =>
    match s.claims k with
    | .holding pos =>
      if i < g.stride then
        s.setMem { s.mem with
          slab := update s.mem.slab (g.cellAt pos) (update (s.mem.slab (g.cellAt pos)) i value) }
      else s
    | _ => s
  | .beginCommit k len =>
    match s.claims k with
    | .holding pos => if len ≤ g.slotCapacity then s.setClaim k (.commitLen pos len) else s
    | _ => s
  | .beginSubscribe j spinBudget =>
    if (s.subs j).pc = .absent then s.setSub j { pc := Subscriber.tryFrom g 0, spinBudget } else s
  | .beginTake j =>
    if (s.subs j).pc = .ready then s.setSub j { s.subs j with pc := .loadSequence 0 } else s
  | .beginDestroy j =>
    if (s.subs j).pc = .ready then s.setSub j { s.subs j with pc := .retireIdle }
    else if (s.subs j).pc = .unregistered then s.setSub j { s.subs j with pc := .absent }
    else s
  | .subscriber j spurious =>
    let next := (s.subs j).step g s.mem spurious j
    (s.setSub j next.1).setMem (s.mem.consumerWrite g next.2)
  | .share p => if p ∈ s.mem.pins ∧ p.holder = none then s.setMem (addPin g s.mem p) else s
  | .release p => if p ∈ s.mem.pins ∧ p.holder = none then s.setMem (dropPin g s.mem p) else s

def run (g : Geometry) (s : Sys P S) (events : List (Event P S)) : Sys P S := events.foldl (step g) s

/-! ## What an event comes to -/

/-- One constructor for each thing that can happen. -/
inductive Moves (g : Geometry) (s : Sys P S) : Event P S → Sys P S → Prop where
  | refused {e} : Moves g s e s
  | producer {k spurious} : Moves g s (.claim k spurious)
      ((s.setClaim k (claimStep g s.mem spurious (s.claims k)).1).setMem
        (s.mem.write g (claimStep g s.mem spurious (s.claims k)).2))
  | subscriber {j spurious} : Moves g s (.subscriber j spurious)
      ((s.setSub j ((s.subs j).step g s.mem spurious j).1).setMem
        (s.mem.consumerWrite g ((s.subs j).step g s.mem spurious j).2))
  | claim {k rel size} : s.claims k = .idle →
      Moves g s (.beginClaim k rel size) (s.setClaim k (enter g s.mem.enqueuePos (Policy.of rel)))
  | commit {k pos len} : s.claims k = .holding pos → len ≤ g.slotCapacity →
      Moves g s (.beginCommit k len) (s.setClaim k (.commitLen pos len))
  | write {k pos i value} : s.claims k = .holding pos →
      Moves g s (.writeByte k i value) (s.setMem { s.mem with
        slab := update s.mem.slab (g.cellAt pos) (update (s.mem.slab (g.cellAt pos)) i value) })
  | subscribe {j spinBudget} : (s.subs j).pc = .absent →
      Moves g s (.beginSubscribe j spinBudget)
        (s.setSub j { pc := Subscriber.tryFrom g 0, spinBudget })
  | take {j} : (s.subs j).pc = .ready →
      Moves g s (.beginTake j) (s.setSub j { s.subs j with pc := .loadSequence 0 })
  | destroy {j} : (s.subs j).pc = .ready →
      Moves g s (.beginDestroy j) (s.setSub j { s.subs j with pc := .retireIdle })
  | forget {j} : (s.subs j).pc = .unregistered →
      Moves g s (.beginDestroy j) (s.setSub j { s.subs j with pc := .absent })
  | share {v} : v ∈ s.mem.pins → v.holder = none →
      Moves g s (.share v) (s.setMem (addPin g s.mem v))
  | release {v} : v ∈ s.mem.pins → v.holder = none →
      Moves g s (.release v) (s.setMem (dropPin g s.mem v))

theorem step_moves (g : Geometry) (s : Sys P S) (e : Event P S) : Moves g s e (s.step g e) := by
  cases e with
  | claim k spurious => exact .producer
  | subscriber j spurious => exact .subscriber
  | beginClaim k rel size =>
    simp only [step]
    split
    · rename_i h
      exact .claim h.1
    · exact .refused
  | writeByte k i value =>
    simp only [step]
    split
    · rename_i hpos
      split
      · exact .write hpos
      · exact .refused
    · exact .refused
  | beginCommit k len =>
    simp only [step]
    split
    · rename_i hpos
      split
      · rename_i hlen
        exact .commit hpos hlen
      · exact .refused
    · exact .refused
  | beginSubscribe j spinBudget =>
    simp only [step]
    split
    · rename_i h
      exact .subscribe h
    · exact .refused
  | beginTake j =>
    simp only [step]
    split
    · rename_i h
      exact .take h
    · exact .refused
  | beginDestroy j =>
    simp only [step]
    split
    · rename_i h
      exact .destroy h
    split
    · rename_i h
      exact .forget h
    · exact .refused
  | share v =>
    simp only [step]
    split
    · rename_i h
      exact .share h.1 h.2
    · exact .refused
  | release v =>
    simp only [step]
    split
    · rename_i h
      exact .release h.1 h.2
    · exact .refused

end Sys

variable {P S : Nat}

def Event.isClaim : Event P S → Bool
  | .claim _ _ => true
  | _ => false

def Event.isSubscriber : Event P S → Bool
  | .subscriber _ _ => true
  | _ => false

theorem Event.claim_cases (e : Event P S) :
    e.isClaim = false ∨ ∃ k spurious, e = .claim k spurious := by
  cases e with
  | claim k spurious => exact .inr ⟨k, spurious, rfl⟩
  | _ => exact .inl rfl

theorem Event.subscriber_cases (e : Event P S) :
    e.isSubscriber = false ∨ ∃ j spurious, e = .subscriber j spurious := by
  cases e with
  | subscriber j spurious => exact .inr ⟨j, spurious, rfl⟩
  | _ => exact .inl rfl

end Plexus.Shm
