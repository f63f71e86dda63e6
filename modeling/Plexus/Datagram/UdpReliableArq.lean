/-
# Plexus.Datagram.UdpReliableArq — the selective-repeat sender and its receiver half
(`datagram/detail/udp_reliable_arq.h`).

One slot per window place, indexed by `seq % W`, and one timer per slot. `timer = some seq` is an
`async_wait` whose handler has captured `seq`; re-arming replaces it and cancelling drops it. The
handler of an expired wait is queued, cannot be taken back and runs later with the captured `seq`
(`waitCompletion`), whatever the slot holds by then.

How long a wait lasts is left open (the RTO estimator and `sent_at` only choose durations), so every
statement holds for all timings.
-/
import Plexus.Datagram.UdpReorderBuffer
import Plexus.Wire.UdpAck

namespace Plexus.Datagram

open Lib Wire

structure UdpArqConfig where
  window : Nat := 512
  maxRetransmit : UInt8 := 6
  deriving DecidableEq

/-- `m_window`: zero means the default, and half the sequence space is the ceiling. -/
def UdpArqConfig.effectiveWindow (cfg : UdpArqConfig) : Nat :=
  if cfg.window = 0 then 512 else min cfg.window 32768

theorem UdpArqConfig.effectiveWindow_pos (cfg : UdpArqConfig) : 0 < cfg.effectiveWindow := by
  unfold effectiveWindow
  split <;> omega

theorem UdpArqConfig.effectiveWindow_le (cfg : UdpArqConfig) : cfg.effectiveWindow ≤ 32768 := by
  unfold effectiveWindow
  split <;> omega

instance (cfg : UdpArqConfig) : NeZero cfg.effectiveWindow := ⟨cfg.effectiveWindow_pos.ne'⟩

/-- The arguments of one `on_transmit` call. -/
structure Segment where
  seq : UInt16
  message : Message
  deriving DecidableEq

/-- A segment in flight. -/
structure ArqSlot where
  bytes : List UInt8 := []
  timer : Option UInt16 := none
  retransmits : UInt8 := 0
  outstanding : Bool := false
  retransmitted : Bool := false
  fragmented : Bool := false
  deriving DecidableEq

def ArqSlot.message (s : ArqSlot) : Message := ⟨s.bytes, s.fragmented⟩

/-- The sending window. -/
structure UdpReliableArq (W : Nat) where
  maxRetransmit : UInt8
  slots : Fin W → ArqSlot
  recv : UdpReorderBuffer W
  next : UInt16
  base : UInt16
  dead : Bool

variable {W : Nat} [NeZero W]

/-- `seq % m_window`. -/
def slotOf (W : Nat) [NeZero W] (seq : UInt16) : Fin W := Fin.ofNat W seq.toNat

namespace UdpReliableArq

def make (cfg : UdpArqConfig) (initialSeq : UInt16) : UdpReliableArq cfg.effectiveWindow where
  maxRetransmit := cfg.maxRetransmit
  slots _ := {}
  recv := .make _ initialSeq
  next := initialSeq
  base := initialSeq
  dead := false

variable (a : UdpReliableArq W)

def inFlight : Nat := (a.next - a.base).toNat

def windowHasRoom : Bool := a.inFlight < W

def setSlot (i : Fin W) (s : ArqSlot) : UdpReliableArq W :=
  { a with slots := Function.update a.slots i s }

/-- The state after an admitted submit: every field of the slot is overwritten and its timer armed
for the new number. -/
def accept (m : Message) : UdpReliableArq W :=
  { a with next := a.next + 1 }.setSlot (slotOf W a.next)
    { bytes := m.bytes, fragmented := m.fragmented, outstanding := true, timer := some a.next }

/-- `submit`: `none` is `window_full`, a segment is what an admitted call transmits. -/
def submit (m : Message) : UdpReliableArq W × Option Segment :=
  if W ≤ a.inFlight then (a, none) else (a.accept m, some ⟨a.next, m⟩)

/-- The submits an `on_window_advance` callback makes, one after the other: what they transmit. -/
def submitAll (a : UdpReliableArq W) : List Message → UdpReliableArq W × List Segment
  | [] => (a, [])
  | m :: ms =>
    let (a', sent) := a.submit m
    let (a'', rest) := a'.submitAll ms
    (a'', sent.toList ++ rest)

def exhausted : UdpReliableArq W := { a with dead := true }

def onRto (seq : UInt16) : UdpReliableArq W × List Segment :=
  let s := a.slots (slotOf W seq)
  if !s.outstanding then (a, [])
  else if a.maxRetransmit ≤ s.retransmits then (a.exhausted, [])
  else
    (a.setSlot (slotOf W seq)
        { s with retransmits := s.retransmits + 1, retransmitted := true, timer := some seq },
      [⟨seq, s.message⟩])

/-- The wait on slot `i` expires: its handler leaves the timer for the queue. -/
def expire (i : Fin W) : UdpReliableArq W × Option UInt16 :=
  (a.setSlot i { a.slots i with timer := none }, (a.slots i).timer)

/-- The handler of a wait that expired, when it is run. -/
def waitCompletion (seq : UInt16) : UdpReliableArq W × List Segment :=
  if a.dead then (a, []) else a.onRto seq

def freeSegment (seq : UInt16) : UdpReliableArq W :=
  if !(a.slots (slotOf W seq)).outstanding then a
  else a.setSlot (slotOf W seq)
    { a.slots (slotOf W seq) with timer := none, outstanding := false }

/-- The guard of the `while` in `slide_to`. -/
def canSlide (newBase : UInt16) : Bool :=
  (newBase - a.base).toNat ≠ 0 && (newBase - a.base).toNat < halfSpace && a.base != a.next

def advanceBase : UdpReliableArq W :=
  { a.freeSegment a.base with base := a.base + 1 }

/-- The `while` of `slide_to`. Each turn closes the distance by one, so it is fuel enough
(`slideLoop_done`). -/
def slideLoop : Nat → UInt16 → UdpReliableArq W → UdpReliableArq W
  | 0, _, a => a
  | fuel + 1, newBase, a =>
    if a.canSlide newBase then slideLoop fuel newBase a.advanceBase else a

/-- `slide_to`, with the submits `refill` that `on_window_advance` makes if the base moved. -/
def slideTo (newBase : UInt16) (refill : List Message) : UdpReliableArq W × List Segment :=
  let a' := a.slideLoop (newBase - a.base).toNat newBase
  if a'.base ≠ a.base then a'.submitAll refill else (a', [])

def ackHole (seq : UInt16) : UdpReliableArq W :=
  let rel := (seq - a.base).toNat
  if halfSpace ≤ rel ∨ W ≤ rel then a else a.freeSegment seq

/-- The bitmap loop of `on_ack`, over the first `n` offsets. -/
def ackHoles (ack : UdpAck) (n : Nat) : UdpReliableArq W :=
  (List.range n).foldl
    (fun a i => if ack.holeReceived i then a.ackHole (ack.cumulative + 2 + UInt16.ofNat i) else a) a

def onAck (ack : UdpAck) (refill : List Message) : UdpReliableArq W × List Segment :=
  let (a', sent) := a.slideTo (ack.cumulative + 1) refill
  (a'.ackHoles ack UdpAck.bitmapBits, sent)

def sendAck : UdpAck :=
  (List.range UdpAck.bitmapBits).foldl
    (fun ack i => if a.recv.bufferedAt (i + 1) then ack.markHole i else ack)
    { cumulative := a.recv.cumulative }

/-- `on_segment`: the `on_deliver` calls it makes, and the ack it sends. -/
def onSegment (seg : Segment) : UdpReliableArq W × List Message × UdpAck :=
  let (_, recv, delivered) := a.recv.feed seg.seq seg.message.fragmented seg.message.bytes
  let a' := { a with recv }
  (a', delivered, a'.sendAck)

def cancel : UdpReliableArq W :=
  { a with dead := true, slots := fun i => { a.slots i with timer := none } }

variable {a : UdpReliableArq W}

theorem submit_of_full (h : W ≤ a.inFlight) (m : Message) : a.submit m = (a, none) := if_pos h

theorem submit_of_room (h : ¬ W ≤ a.inFlight) (m : Message) :
    a.submit m = (a.accept m, some ⟨a.next, m⟩) := if_neg h

theorem submitAll_cons_of_full (h : W ≤ a.inFlight) (m : Message) (ms : List Message) :
    a.submitAll (m :: ms) = a.submitAll ms := by
  simp [submitAll, submit_of_full h]

theorem submitAll_cons_of_room (h : ¬ W ≤ a.inFlight) (m : Message) (ms : List Message) :
    a.submitAll (m :: ms) =
      (((a.accept m).submitAll ms).1, ⟨a.next, m⟩ :: ((a.accept m).submitAll ms).2) := by
  simp [submitAll, submit_of_room h]

theorem slots_accept_of_ne (a : UdpReliableArq W) (m : Message) {k : Fin W} (h : k ≠ slotOf W a.next) :
    (a.accept m).slots k = a.slots k :=
  Function.update_of_ne h _ _

theorem slots_accept_self (a : UdpReliableArq W) (m : Message) :
    (a.accept m).slots (slotOf W a.next) =
      { bytes := m.bytes, fragmented := m.fragmented, outstanding := true, timer := some a.next } :=
  Function.update_self _ _ _

theorem canSlide_slideLoop {fuel : Nat} {newBase : UInt16} (h : (newBase - a.base).toNat ≤ fuel) :
    (a.slideLoop fuel newBase).canSlide newBase = false := by
  induction fuel generalizing a with
  | zero =>
    have hzero : (newBase - a.base).toNat = 0 := by omega
    simp [slideLoop, canSlide, hzero]
  | succ fuel ih =>
    unfold slideLoop
    split
    · rename_i hcan
      simp only [canSlide, Bool.and_eq_true, decide_eq_true_eq] at hcan
      refine ih ?_
      -- the guard saw a non-zero distance, so one step closes it by one
      have hstep : (newBase - a.advanceBase.base).toNat = (newBase - a.base).toNat - 1 := by
        have h1 := hcan.1.1
        have hbase := a.base.toNat_lt
        simp only [advanceBase, UInt16.toNat_sub, UInt16.toNat_add, UInt16.toNat_one] at h1 ⊢
        omega
      omega
    · rename_i hcan
      simpa using hcan

/-- The distance to the new base is fuel enough: the loop ends because its guard fails. -/
theorem slideLoop_done (a : UdpReliableArq W) (newBase : UInt16) :
    (a.slideLoop (newBase - a.base).toNat newBase).canSlide newBase = false :=
  canSlide_slideLoop le_rfl

end UdpReliableArq

end Plexus.Datagram
