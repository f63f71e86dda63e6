/-
# Plexus.Shm.BroadcastRing — the shared-memory ring, one atomic access at a time
(`shm/ring_layout.h`, `shm/ring_geometry.h`, `shm/broadcast_ring.h`).

Producers and consumers work on one region of atomics without a lock: a thread's program counter
says which access comes next, and `claimStep` what it reads, writes and leads to. Accesses are
sequentially consistent. Positions are natural numbers: the 64-bit counters do not come round.
Lengths and pin counts are read at their 32 bits.
-/
import Mathlib.Algebra.Ring.Nat
import Mathlib.Data.Nat.Bits
import Mathlib.Logic.Function.Basic

namespace Plexus.Shm

def kMaxConsumers : Nat := 16
def kSkipLen : Nat := 0xFFFFFFFF
def kPinClearSpinBudget : Nat := 256

def roundUp8 (bytes : Nat) : Nat := (bytes + 7) / 8 * 8

/-! ## Geometry -/

def isPowerOfTwo (v : Nat) : Bool := v ≠ 0 && v &&& (v - 1) = 0

/-- A ring as `create` makes it: the cell count is a power of two, no bound is zero. -/
structure Geometry where
  cellCount : Nat
  slotCapacity : Nat
  consumerCapacity : Nat
  pow2 : isPowerOfTwo cellCount = true
  slot_ne_zero : slotCapacity ≠ 0
  consumers_ne_zero : consumerCapacity ≠ 0
  consumers_le : consumerCapacity ≤ kMaxConsumers

/-- `create`, its regions sized for the geometry; nothing when it is rejected. -/
def create (cellCount slotCapacity : Nat) (consumerCapacity : Nat := kMaxConsumers) :
    Option Geometry :=
  if h : isPowerOfTwo cellCount = true ∧ slotCapacity ≠ 0 ∧ consumerCapacity ≠ 0 ∧
      consumerCapacity ≤ kMaxConsumers then
    some { cellCount, slotCapacity, consumerCapacity, pow2 := h.1, slot_ne_zero := h.2.1,
           consumers_ne_zero := h.2.2.1, consumers_le := h.2.2.2 }
  else none

inductive RingGeometryMode where
  | reliablePreserving
  | bestEffortLarge
  | wireFallback
  deriving DecidableEq

/-- The least power of two above `v`, or from `v` on: `fuel` doublings from `p`. -/
def nextPow2 (stop : Nat → Bool) : Nat → Nat → Nat
  | 0, p => p
  | fuel + 1, p => if stop p then p else nextPow2 stop fuel (2 * p)

def nextPow2StrictlyAbove (v : Nat) : Nat := nextPow2 (fun p => v < p) (v + 1) 1
def nextPow2AtLeast (v : Nat) : Nat := nextPow2 (fun p => v ≤ p) (v + 1) 1

def ringGeometryTier (want slot : Nat) (mode : RingGeometryMode) (capacity : Nat) : Nat × Nat :=
  if 131072 < want then
    (if mode = .bestEffortLarge then nextPow2AtLeast capacity else nextPow2StrictlyAbove capacity,
      slot)
  else if 65536 < want then (64, slot)
  else if 32768 < want then (128, slot)
  else if 4096 < want then (256, slot)
  else (256, 4096)

/-- Cell count and slot capacity for a topic's declared payload, mode and consumers. -/
def ringGeometryFor (maxPayload : Option UInt32) (mode : RingGeometryMode)
    (consumerCapacity : UInt32) : Nat × Nat :=
  let capacity := if consumerCapacity = 0 then kMaxConsumers else consumerCapacity.toNat
  let want := (maxPayload.map UInt32.toNat).getD 0
  let tier := ringGeometryTier want (roundUp8 want) mode capacity
  (tier.1, roundUp8 tier.2)

namespace Geometry

variable (g : Geometry)

/-- The cell that serves `position`. -/
def cellAt (position : Nat) : Nat := position &&& (g.cellCount - 1)

def stride : Nat := roundUp8 g.slotCapacity

theorem cellCount_eq : ∃ n, g.cellCount = 2 ^ n := by
  have h := g.pow2
  simp only [isPowerOfTwo, Bool.and_eq_true, decide_eq_true_eq] at h
  exact (Nat.and_sub_one_eq_zero_iff_isPowerOfTwo h.1).mp h.2

theorem cellCount_pos : 1 ≤ g.cellCount := by
  obtain ⟨n, hn⟩ := g.cellCount_eq
  rw [hn]
  exact Nat.one_le_two_pow

theorem cellAt_eq_mod (position : Nat) : g.cellAt position = position % g.cellCount := by
  obtain ⟨n, hn⟩ := g.cellCount_eq
  rw [cellAt, hn, Nat.and_two_pow_sub_one_eq_mod]

/-- Within one lap a cell serves one position. -/
theorem cellAt_inj_of_lap (low : Nat) {p q : Nat} (hp : low ≤ p) (hp' : p < low + g.cellCount)
    (hq : low ≤ q) (hq' : q < low + g.cellCount) (h : g.cellAt p = g.cellAt q) : p = q := by
  rw [cellAt_eq_mod, cellAt_eq_mod] at h
  have hpmod := Nat.div_add_mod p g.cellCount
  have hqmod := Nat.div_add_mod q g.cellCount
  rcases Nat.lt_trichotomy (p / g.cellCount) (q / g.cellCount) with hlt | heq | hgt
  · have hstep : g.cellCount * (p / g.cellCount + 1) ≤ g.cellCount * (q / g.cellCount) :=
      Nat.mul_le_mul_left _ hlt
    rw [Nat.mul_add] at hstep
    omega
  · rw [heq] at hpmod
    omega
  · have hstep : g.cellCount * (q / g.cellCount + 1) ≤ g.cellCount * (p / g.cellCount) :=
      Nat.mul_le_mul_left _ hgt
    rw [Nat.mul_add] at hstep
    omega

theorem cellAt_add_cellCount (p : Nat) : g.cellAt (p + g.cellCount) = g.cellAt p := by
  rw [cellAt_eq_mod, cellAt_eq_mod, Nat.add_mod_right]

/-- Neighbouring positions share a cell only in a ring of one. -/
theorem cellAt_succ_ne (hg : 2 ≤ g.cellCount) (p : Nat) : g.cellAt (p + 1) ≠ g.cellAt p := by
  intro h
  have := g.cellAt_inj_of_lap p (by omega) (by omega) (by omega) (by omega) h
  omega

end Geometry

/-! ## The region -/

/-- How a won position was settled. -/
inductive Fate where
  | committed (len : Nat) (bytes : List UInt8)
  | skipped
  deriving DecidableEq

/-- One count on a cell's `take_refcount`: a consumer's announced pin, or a live `taken_message` or
`wire_bytes`. -/
structure Pin where
  position : Nat
  length : Nat
  holder : Option Nat
  deriving DecidableEq

/-- The atomics and the payload slab; `fate` and `pins` record what has happened. -/
structure Shared where
  enqueuePos : Nat := 0
  sequence : Nat → Nat := id
  payloadLen : Nat → Nat := fun _ => 0
  takeRefcount : Nat → Nat := fun _ => 0
  slab : Nat → Nat → UInt8 := fun _ _ => 0
  active : Nat → Bool := fun _ => false
  position : Nat → Option Nat := fun _ => none
  highWater : Nat := 0
  fate : Nat → Option Fate := fun _ => none
  pins : List Pin := []

variable (g : Geometry)

/-- `occupant_committed`: the cell is fresh, or its last occupant is settled. -/
def occupantCommitted (m : Shared) (position : Nat) : Bool :=
  m.sequence (g.cellAt position) = position ∨
    m.sequence (g.cellAt position) + g.cellCount = position + 1

/-! ## `slowest_consumer_position` -/

/-- Where the gate's scan of the cursors stands. -/
inductive Scan where
  | highWater
  | active (scan i : Nat) (slowest : Option Nat)
  | position (scan i : Nat) (slowest : Option Nat)
  deriving DecidableEq

/-- The slower of the slowest so far and a cursor; an idle one does not count. -/
def slower : Option Nat → Option Nat → Option Nat
  | slowest, none => slowest
  | none, some cur => some cur
  | some slowest, some cur => if cur < slowest then some cur else some slowest

def Scan.next (scan i : Nat) (slowest : Option Nat) : Scan ⊕ Option Nat :=
  if i < scan then .inl (.active scan i slowest) else .inr slowest

def Scan.step (m : Shared) : Scan → Scan ⊕ Option Nat
  | .highWater => next m.highWater 0 none
  | .active scan i slowest =>
    if m.active i then .inl (.position scan i slowest) else next scan (i + 1) slowest
  | .position scan i slowest => next scan (i + 1) (slower slowest (m.position i))

/-! ## Claiming and committing -/

/-- The policy of a claim, with the best-effort path's count of donated positions. -/
inductive Policy where
  | reliable
  | bestEffort (skipped : Nat)
  deriving DecidableEq

/-- A won claim; a reliable one also remembers what its pin wait has seen. -/
inductive Mode where
  | reliable (lastSeen : Option Nat) (stalled : Nat)
  | bestEffort (skipped : Nat)
  deriving DecidableEq

/-- The next access of a producer. `holding` is a loan between `claim` and `commit`. -/
inductive ClaimPc where
  | idle
  | loadHighWater (pos : Nat)
  | loadActive (pos scan i : Nat)
  | loadPosition (pos scan i : Nat)
  | loadSequence (pos skipped : Nat)
  | reload (skipped : Nat)
  | exchange (pos : Nat) (policy : Policy)
  | slowest (pos : Nat) (turn : Option (Option Nat × Nat)) (scan : Scan)
  | announce (pos : Nat) (mode : Mode)
  | checkPin (pos : Nat) (mode : Mode)
  | stampLen (pos : Nat) (mode : Mode)
  | stampSeq (pos : Nat) (mode : Mode)
  | holding (pos : Nat)
  | commitLen (pos len : Nat)
  | commitSeq (pos len : Nat)
  deriving DecidableEq

/-- What a producer's access writes. -/
inductive Write where
  | keep
  /-- `enqueue_pos` moves on by one -/
  | win
  /-- the claiming marker -/
  | announce (pos : Nat)
  | length (pos len : Nat)
  /-- the final sequence: with a length for a commit, without for a skip tombstone -/
  | settle (pos : Nat) (len : Option Nat)
  deriving DecidableEq

def Shared.write (m : Shared) : Write → Shared
  | .keep => m
  | .win => { m with enqueuePos := m.enqueuePos + 1 }
  | .announce pos => { m with sequence := Function.update m.sequence (g.cellAt pos) pos }
  | .length pos len => { m with payloadLen := Function.update m.payloadLen (g.cellAt pos) len }
  | .settle pos none =>
    { m with
      sequence := Function.update m.sequence (g.cellAt pos) (pos + 1)
      fate := Function.update m.fate pos (some .skipped) }
  | .settle pos (some len) =>
    { m with
      sequence := Function.update m.sequence (g.cellAt pos) (pos + 1)
      fate := Function.update m.fate pos
        (some (.committed len ((List.range len).map (m.slab (g.cellAt pos))))) }

/-- The head of the claim loop at `pos`: the consumer gate (which a first-lap position skips), or
the look at the occupant. -/
def enter (pos : Nat) : Policy → ClaimPc
  | .reliable => if pos < g.cellCount then .exchange pos .reliable else .loadHighWater pos
  | .bestEffort skipped => .loadSequence pos skipped

/-- The gate's loop over the cursors: past the last one it has passed. -/
def gateNext (pos scan i : Nat) : ClaimPc :=
  if i < scan then .loadActive pos scan i else .exchange pos .reliable

/-- After the exchange has won `pos`. -/
def won (pos : Nat) : Policy → ClaimPc
  | .reliable => .slowest pos none .highWater
  | .bestEffort skipped => .announce pos (.bestEffort skipped)

/-- The pin wait, once the slowest position is known. -/
def afterSlowest (pos : Nat) (now : Option Nat) : Option (Option Nat × Nat) → ClaimPc
  | none => .announce pos (.reliable now 0)
  | some (lastSeen, stalled) =>
    if now ≠ lastSeen then .announce pos (.reliable now 1)
    else if kPinClearSpinBudget ≤ stalled then .stampLen pos (.reliable lastSeen stalled)
    else .announce pos (.reliable lastSeen (stalled + 1))

/-- The cell is pinned: wait, or donate the position. -/
def whenPinned (pos : Nat) : Mode → ClaimPc
  | .reliable lastSeen stalled => .slowest pos (some (lastSeen, stalled)) .highWater
  | .bestEffort skipped => .stampLen pos (.bestEffort skipped)

/-- After a tombstone: congested, or the next position. -/
def afterSkip : Mode → ClaimPc
  | .reliable _ _ => .idle
  | .bestEffort skipped => if g.cellCount ≤ skipped + 1 then .idle else .reload (skipped + 1)

/-- One access of a producer. `spurious` is the weak exchange failing without a reason. -/
def claimStep (m : Shared) (spurious : Bool) : ClaimPc → ClaimPc × Write
  | .idle => (.idle, .keep)
  | .loadHighWater pos => (gateNext pos m.highWater 0, .keep)
  | .loadActive pos scan i =>
    (if m.active i then .loadPosition pos scan i else gateNext pos scan (i + 1), .keep)
  | .loadPosition pos scan i =>
    match m.position i with
    | none => (gateNext pos scan (i + 1), .keep)
    | some cur =>
      -- a registered consumer has not consumed the occupant yet: congested
      (if cur ≤ pos - g.cellCount then .idle else gateNext pos scan (i + 1), .keep)
  | .loadSequence pos skipped =>
    (if occupantCommitted g m pos then .exchange pos (.bestEffort skipped) else .reload skipped,
      .keep)
  | .reload skipped => (.loadSequence m.enqueuePos skipped, .keep)
  | .exchange pos policy =>
    if m.enqueuePos = pos ∧ spurious = false then (won pos policy, .win)
    else (enter g m.enqueuePos policy, .keep)
  | .slowest pos turn scan =>
    match scan.step m with
    | .inl scan => (.slowest pos turn scan, .keep)
    | .inr now => (afterSlowest pos now turn, .keep)
  | .announce pos mode => (.checkPin pos mode, .announce pos)
  | .checkPin pos mode =>
    (if m.takeRefcount (g.cellAt pos) % 2 ^ 32 = 0 then .holding pos else whenPinned pos mode, .keep)
  | .stampLen pos mode => (.stampSeq pos mode, .length pos kSkipLen)
  | .stampSeq pos mode => (afterSkip g mode, .settle pos none)
  | .holding pos => (.holding pos, .keep)
  | .commitLen pos len => (.commitSeq pos len, .length pos (len % 2 ^ 32))
  | .commitSeq pos len => (.idle, .settle pos (some len))

end Plexus.Shm
