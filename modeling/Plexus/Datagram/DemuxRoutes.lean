/-
# Plexus.Datagram.DemuxRoutes — whose datagrams an endpoint's entry leads to.

Several channels of one transport may share a destination. A later one overwrites the entry of an
earlier one. A destroyed channel takes the entry away only if it is its own; a failed dial
(`fail_dial`) takes whatever stands there; neither puts an older channel back. The demultiplexer is
thus a slot table, and `operation` says which of its operations an event comes to.
-/
import Plexus.Datagram.UdpTransport
import Plexus.Lib.SlotTable

namespace Plexus.Datagram

open Lib

inductive TransportEvent (E : Type)
  | dial (dest : E) (terms : SessionTerms)
  | datagram (sender : E) (bytes : Bytes)
  /-- The wait of a half-open dial ends; the last one fails the dial. -/
  | timer (channel : Nat)
  /-- The owner destroys a channel, or the deferred destruction of a failed one runs. -/
  | destroy (channel : Nat)

namespace UdpTransport

variable {E : Type} [DecidableEq E]

def after (t : UdpTransport E) : TransportEvent E → UdpTransport E
  | .dial dest terms => (t.dial dest terms).1
  | .datagram sender bytes => (t.onDatagram sender bytes).1
  | .timer channel => (t.handshakeTimer channel).1
  | .destroy channel => t.destroy channel

/-- What becomes of the channels: one is made and entered, a dial fails, a channel is destroyed. -/
def operation (t : UdpTransport E) : TransportEvent E → SlotOp E Nat
  | .dial dest _ =>
    if (t.demux.insert dest t.channels.length).isSome then .enter dest t.channels.length else .keep
  | .datagram sender bytes =>
    if (t.onDatagram sender bytes).1.channels.length = t.channels.length then .keep
    else .enter sender t.channels.length
  | .timer channel =>
    match t.pending.find? (fun p => p.channel = channel), t.channels[channel]? with
    | some p, some ch => if handshakeAttempts ≤ p.attempt then .evict ch.dest channel else .keep
    | _, _ => .keep
  | .destroy channel =>
    if t.pending.any (fun p => p.channel = channel) then .keep
    else match t.channels[channel]? with
      | none => .keep
      | some ch => .release ch.dest channel

/-- **The demultiplexer is a slot table.** -/
theorem lookup_after (t : UdpTransport E) (ev : TransportEvent E) :
    (t.after ev).demux.lookup = (t.operation ev).look t.demux.lookup := by
  funext x
  cases ev with
  | dial dest terms =>
    unfold after dial operation
    dsimp only
    cases hinsert : t.demux.insert dest t.channels.length with
    | none => rfl
    | some demux => exact InboundDemux.lookup_insert hinsert x
  | datagram sender bytes =>
    have hreceived := t.received_onDatagram sender bytes
    unfold after operation
    dsimp only
    generalize t.onDatagram sender bytes = r at hreceived ⊢
    obtain ⟨t', out⟩ := r
    cases hreceived with
    | accepted _ _ hentered =>
      rw [if_neg (by simp)]
      exact InboundDemux.lookup_insert hentered x
    | _ =>
      rw [if_pos rfl]
      rfl
  | timer channel =>
    unfold after handshakeTimer operation
    dsimp only
    cases t.pending.find? (fun p => p.channel = channel) with
    | none => rfl
    | some p =>
      cases t.channels[channel]? with
      | none => rfl
      | some ch =>
        dsimp only
        split
        · exact InboundDemux.lookup_erase _ _ x
        · rfl
  | destroy channel =>
    unfold after destroy operation
    dsimp only
    split
    · rfl
    · cases t.channels[channel]? with
      | none => rfl
      | some ch => exact InboundDemux.lookup_eraseIfMatches _ _ x _

end UdpTransport

/-- A transport, and the channels that were entered and have neither failed nor been destroyed, each
with its endpoint, newest first. -/
structure Routing (E : Type) [DecidableEq E] where
  transport : UdpTransport E
  standing : List (E × Nat) := []

namespace Routing

variable {E : Type} [DecidableEq E]

def step (r : Routing E) (ev : TransportEvent E) : Routing E where
  transport := r.transport.after ev
  standing := (r.transport.operation ev).holders r.standing

def init (maxPeers : Nat) : Routing E where
  transport := { demux := { maxPeers } }

def run (maxPeers : Nat) (es : List (TransportEvent E)) : Routing E := es.foldl step (init maxPeers)

/-- Every entry is the newest standing channel's of its endpoint. -/
def Routed (r : Routing E) : Prop := ∀ e, r.transport.demux.lookup e = newest r.standing e

/-- A channel that fails, or is destroyed while it has the entry, is the last of its endpoint. -/
def Lone (r : Routing E) (ev : TransportEvent E) : Prop :=
  (r.transport.operation ev).Last r.transport.demux.lookup r.standing

instance (r : Routing E) (ev : TransportEvent E) : Decidable (r.Lone ev) :=
  inferInstanceAs (Decidable (SlotOp.Last _ _ _))

theorem routed_step_iff {r : Routing E} (h : r.Routed) (ev : TransportEvent E) :
    (r.step ev).Routed ↔ r.Lone ev := by
  unfold Routed step
  rw [UdpTransport.lookup_after]
  exact SlotOp.newest_iff h (r.transport.operation ev)

/-- **When a failing dial unroutes nobody else.** At every moment of a run the entry of each endpoint
is the newest standing channel's exactly when every channel that fails, or is destroyed with the entry,
is the last of its endpoint. And no entry ever leads to a channel that has failed or been destroyed. -/
theorem routed_iff_lone (maxPeers : Nat) (es : List (TransportEvent E)) :
    ((∀ n, (run maxPeers (es.take n)).Routed) ↔ Guarded step Lone (init maxPeers) es) ∧
      ∀ e c, (run maxPeers es).transport.demux.lookup e = some c →
        (e, c) ∈ (run maxPeers es).standing := by
  constructor
  · exact (guarded_iff_forall_take (fun _ => True) Routed (fun _ _ _ => trivial)
      (fun _ ev _ h => routed_step_iff h ev) trivial (fun _ => rfl) es).symm
  refine run_invariant (fun r : Routing E => ∀ e c, r.transport.demux.lookup e = some c →
    (e, c) ∈ r.standing) ?_ ?_ es
  · intro r ev h e c hlook
    apply SlotOp.mem_holders h
    rwa [← UdpTransport.lookup_after]
  · intro e c hlook
    cases (AList.lookup_empty e).symm.trans hlook

/-- Two dials to one endpoint, the second after the first has failed. -/
def redialed : List (TransportEvent Bool) :=
  [.dial true ⟨.bestEffort, 0⟩, .timer 0, .timer 0, .timer 0, .dial true ⟨.bestEffort, 0⟩,
    .datagram true (encodeHandshake .response ⟨.bestEffort, 0⟩), .destroy 0]

theorem routed_redialed :
    (∀ n, (run 4 (redialed.take n)).Routed) ∧ (true, 1) ∈ (run 4 redialed).standing :=
  ⟨(routed_iff_lone 4 redialed).1.mpr (by decide +kernel),
    (routed_iff_lone 4 redialed).2 true 1 (by decide +kernel)⟩

/-- Two dials to one endpoint, the second answered; when the first runs out of attempts, the
second's entry goes. -/
theorem failed_dial_unroutes_other :
    let r := run 4 [.dial true ⟨.bestEffort, 0⟩, .dial true ⟨.bestEffort, 0⟩,
      .datagram true (encodeHandshake .response ⟨.bestEffort, 0⟩), .timer 0, .timer 0, .timer 0]
    r.transport.dialed = [1] ∧ r.standing = [(true, 1)] ∧ r.transport.demux.lookup true = none ∧
      ¬ r.Routed := by
  refine ⟨by decide +kernel, by decide +kernel, by decide +kernel, fun h => ?_⟩
  have hentry := h true
  revert hentry
  decide +kernel

end Routing

end Plexus.Datagram
