/-
# Plexus.Datagram.UdpTransport — dialing and accepting over one socket.

`asio/udp_transport.h` and `asio/detail/udp_transport_setup.h`, with the handshake frame
(`datagram/detail/udp_handshake_frame.h`), the demultiplexer (`datagram/detail/inbound_demux.h`),
the half-open dials (`io/pending_dial_registry.h`) and the ladder
(`datagram/detail/udp_handshake_arq.h`).

A dial makes a channel, enters it under the destination and sends a request until a response comes.
A request without an entry makes a channel here; one with an entry is answered with its own terms,
whatever the channel has. A channel is its number in the order they are made.
-/
import Plexus.Datagram.DatagramBudget
import Mathlib.Data.List.AList

namespace Plexus.Datagram

open Io Wire

/-! ## The handshake frame -/

inductive UdpHsType
  | request | response
  deriving DecidableEq

def UdpHsType.byte : UdpHsType → UInt8
  | .request => 0
  | .response => 1

def UdpHsType.ofByte (b : UInt8) : Option UdpHsType :=
  if b = UdpHsType.request.byte then some .request
  else if b = UdpHsType.response.byte then some .response
  else none

def UdpChannelMode.byte : UdpChannelMode → UInt8
  | .bestEffort => 0
  | .reliableDatagram => 1

def UdpChannelMode.ofByte (b : UInt8) : Option UdpChannelMode :=
  if b = UdpChannelMode.bestEffort.byte then some .bestEffort
  else if b = UdpChannelMode.reliableDatagram.byte then some .reliableDatagram
  else none

/-- What a dialer chooses for its session: the delivery mode and the initial sequence number. -/
structure SessionTerms where
  mode : UdpChannelMode
  initialSeq : UInt16
  deriving DecidableEq

structure UdpHandshake where
  type : UdpHsType
  terms : SessionTerms
  deriving DecidableEq

/-- The inner frame is `[hs_type, channel_mode, isn_lo, isn_hi]`. -/
def encodeHandshake (type : UdpHsType) (terms : SessionTerms) : Bytes :=
  wrapUdp .reliableArq 0
    [type.byte, terms.mode.byte, terms.initialSeq.toUInt8, (terms.initialSeq >>> 8).toUInt8]

/-- An absent mode byte is `best_effort`, absent sequence bytes are zero; other lengths are no
handshake. -/
def decodeHandshakeFrame : Bytes → Option UdpHandshake
  | [type] => do
    let type ← UdpHsType.ofByte type
    some ⟨type, .bestEffort, 0⟩
  | [type, mode] => do
    let type ← UdpHsType.ofByte type
    let mode ← UdpChannelMode.ofByte mode
    some ⟨type, mode, 0⟩
  | [type, mode, lo, hi] => do
    let type ← UdpHsType.ofByte type
    let mode ← UdpChannelMode.ofByte mode
    some ⟨type, mode, lo.toUInt16 ||| (hi.toUInt16 <<< 8)⟩
  | _ => none

def decodeHandshake (datagram : Bytes) : Option UdpHandshake :=
  match unwrapUdp datagram with
  | none => none
  | some dec =>
    if dec.kind ≠ UdpEnvelopeKind.reliableArq.byte then none else decodeHandshakeFrame dec.frame

theorem join_bytes (x : UInt16) : x.toUInt8.toUInt16 ||| ((x >>> 8).toUInt8.toUInt16 <<< 8) = x := by
  have hlt := x.toNat_lt
  have height : (8 : UInt16).toNat % 16 = 8 := rfl
  have hhigh : x.toNat / 2 ^ 8 % 2 ^ 8 = x.toNat / 2 ^ 8 := Nat.mod_eq_of_lt (by omega)
  have hshift : (x.toNat / 2 ^ 8) <<< 8 % 2 ^ 16 = (x.toNat / 2 ^ 8) <<< 8 := by
    exact Nat.mod_eq_of_lt (by omega)
  apply UInt16.toNat_inj.mp
  simp only [UInt16.toNat_or, UInt8.toNat_toUInt16, UInt16.toNat_toUInt8, UInt16.toNat_shiftLeft,
    UInt16.toNat_shiftRight]
  rw [height, Nat.shiftRight_eq_div_pow, hhigh, hshift, Nat.or_comm,
    ← Nat.shiftLeft_add_eq_or_of_lt (Nat.mod_lt _ (by decide))]
  omega

/-- **The other side reads the terms the dialer chose.** -/
theorem decodeHandshake_encodeHandshake (type : UdpHsType) (terms : SessionTerms) :
    decodeHandshake (encodeHandshake type terms) = some ⟨type, terms⟩ := by
  have htype : UdpHsType.ofByte type.byte = some type := by cases type <;> rfl
  have hmode : UdpChannelMode.ofByte terms.mode.byte = some terms.mode := by cases terms.mode <;> rfl
  unfold decodeHandshake encodeHandshake
  rw [unwrapUdp_wrapUdp]
  dsimp only
  rw [decodeHandshakeFrame, htype, hmode, join_bytes]
  rfl

/-! ## What channels send -/

/-- The datagrams of a channel: whole frames, fragments, segments and acks. -/
inductive ChannelDatagram : Bytes → Prop
  | whole (seq : UInt16) (frame : Bytes) : ChannelDatagram (wrapUdp .bestEffort seq frame)
  | fragment (seq msgId : UInt16) (f : Fragment) :
      ChannelDatagram (wrapUdpFragment .bestEffort seq msgId f)
  | segment (seg : Segment) : ChannelDatagram (transmitted seg)
  | ack (ack : UdpAck) : ChannelDatagram (wrapUdp .reliableArq 0 (encodeUdpAck ack))

theorem decodeHandshake_bestEffort (seq : UInt16) (frame : Bytes) (fragmented : Bool) :
    decodeHandshake (wrapUdp .bestEffort seq frame fragmented) = none := by
  have hkind : UdpEnvelopeKind.bestEffort.byte ≠ UdpEnvelopeKind.reliableArq.byte := by decide
  unfold decodeHandshake
  rw [unwrapUdp_wrapUdp]
  exact if_pos hkind

theorem decodeHandshake_marked {marker : UInt8} (h : UdpHsType.ofByte marker = none) (seq : UInt16)
    (rest : Bytes) (fragmented : Bool) :
    decodeHandshake (wrapUdp .reliableArq seq (marker :: rest) fragmented) = none := by
  unfold decodeHandshake
  rw [unwrapUdp_wrapUdp]
  dsimp only
  rw [if_neg (not_not.mpr rfl)]
  unfold decodeHandshakeFrame
  split
  rotate_right
  · rfl
  all_goals
    rename_i heq
    obtain ⟨rfl, -⟩ := List.cons.inj heq
    rw [h]
    rfl

/-- **No datagram of a channel is taken for a handshake.** -/
theorem ChannelDatagram.decodeHandshake {datagram : Bytes} (h : ChannelDatagram datagram) :
    decodeHandshake datagram = none := by
  cases h with
  | whole seq frame => exact decodeHandshake_bestEffort seq frame false
  | fragment seq msgId f => exact decodeHandshake_bestEffort seq (encodeUdpFragmentPayload msgId f) true
  | segment seg => exact decodeHandshake_marked (by decide) seg.seq seg.message.bytes seg.message.fragmented
  | ack ack => exact decodeHandshake_marked (by decide) 0 _ false

/-! ## The demultiplexer -/

/-- From a sender's endpoint to the channel that its datagrams go to. -/
structure InboundDemux (E : Type) [DecidableEq E] (C : Type) where
  maxPeers : Nat
  peers : AList (fun _ : E => C) := ∅

namespace InboundDemux

variable {E C : Type} [DecidableEq E]

def lookup (d : InboundDemux E C) (sender : E) : Option C := d.peers.lookup sender

/-- A new sender beyond the cap is refused; one that is there is overwritten. -/
def insert (d : InboundDemux E C) (sender : E) (channel : C) : Option (InboundDemux E C) :=
  if d.maxPeers ≤ d.peers.entries.length ∧ (d.lookup sender).isNone = true then none
  else some { d with peers := d.peers.insert sender channel }

def erase (d : InboundDemux E C) (sender : E) : InboundDemux E C :=
  { d with peers := d.peers.erase sender }

def eraseIfMatches [DecidableEq C] (d : InboundDemux E C) (sender : E) (channel : C) :
    InboundDemux E C :=
  if d.lookup sender = some channel then d.erase sender else d

theorem lookup_insert {d d' : InboundDemux E C} {sender : E} {channel : C}
    (h : d.insert sender channel = some d') (other : E) :
    d'.lookup other = if other = sender then some channel else d.lookup other := by
  unfold insert at h
  split at h
  · cases h
  obtain rfl := Option.some.inj h
  split
  · rename_i heq
    rw [heq]
    exact AList.lookup_insert d.peers
  · rename_i hne
    exact AList.lookup_insert_ne hne

theorem lookup_erase (d : InboundDemux E C) (sender other : E) :
    (d.erase sender).lookup other = if other = sender then none else d.lookup other := by
  split
  · rename_i heq
    rw [heq]
    exact AList.lookup_erase sender d.peers
  · rename_i hne
    exact AList.lookup_erase_ne hne

theorem lookup_eraseIfMatches [DecidableEq C] (d : InboundDemux E C) (sender other : E) (channel : C) :
    (d.eraseIfMatches sender channel).lookup other =
      if other = sender ∧ d.lookup sender = some channel then none else d.lookup other := by
  unfold eraseIfMatches
  split
  · rename_i hmatch
    rw [lookup_erase]
    simp only [hmatch, and_true]
  · rename_i hother
    rw [if_neg fun h => hother h.2]

end InboundDemux

/-! ## The transport -/

structure TransportChannel (E : Type) where
  dest : E
  terms : SessionTerms
  deriving DecidableEq

/-- A half-open dial: its channel, and how many requests it has sent. -/
structure PendingDial where
  channel : Nat
  attempt : Nat
  deriving DecidableEq

structure UdpTransport (E : Type) [DecidableEq E] where
  demux : InboundDemux E Nat
  /-- Every channel ever made, by its number. -/
  channels : List (TransportChannel E) := []
  pending : List PendingDial := []
  /-- The channels `on_dialed` and `on_accepted` were handed. -/
  dialed : List Nat := []
  accepted : List Nat := []

/-- The rungs of the ladder. -/
def handshakeAttempts : Nat := 3

namespace UdpTransport

variable {E : Type} [DecidableEq E]

/-- What goes to the socket: destination and datagram. -/
abbrev Outbox (E : Type) := List (E × Bytes)

variable (t : UdpTransport E) (channel : Nat)

def termsOf : Option SessionTerms :=
  (t.channels[channel]?).map TransportChannel.terms

/-- The terms of the channel an endpoint is mapped to. -/
def termsAt (sender : E) : Option SessionTerms :=
  (t.demux.lookup sender).bind t.termsOf

/-- Whether the entry was made is not looked at. -/
def dial (dest : E) (terms : SessionTerms) : UdpTransport E × Outbox E :=
  let channel := t.channels.length
  ({ t with
      demux := (t.demux.insert dest channel).getD t.demux
      channels := t.channels ++ [⟨dest, terms⟩]
      pending := t.pending ++ [⟨channel, 1⟩] },
    [(dest, encodeHandshake .request terms)])

def withoutPending : List PendingDial :=
  t.pending.filter (fun p => p.channel ≠ channel)

/-- `fail_dial`: the entry of the destination goes, whichever channel it holds. -/
def failDial (dest : E) : UdpTransport E :=
  { t with demux := t.demux.erase dest, pending := t.withoutPending channel }

/-- The wait of a half-open dial ends: another request, or `surrender`. -/
def handshakeTimer : UdpTransport E × Outbox E :=
  match t.pending.find? (fun p => p.channel = channel), t.channels[channel]? with
  | some p, some ch =>
    if handshakeAttempts ≤ p.attempt then (t.failDial channel ch.dest, [])
    else
      ({ t with pending := t.pending.map fun q =>
          if q.channel = channel then { q with attempt := q.attempt + 1 } else q },
        [(ch.dest, encodeHandshake .request ch.terms)])
  | _, _ => (t, [])

/-- `resolve_paired` and `resolve_dial`. -/
def resolvePaired : UdpTransport E :=
  if t.pending.any (fun p => p.channel = channel) then
    { t with pending := t.withoutPending channel, dialed := t.dialed ++ [channel] }
  else t

def acceptNewPeer (sender : E) (bytes : Bytes) : UdpTransport E × Outbox E :=
  match decodeHandshake bytes with
  | none => (t, [])
  | some hs =>
    if hs.type ≠ .request then (t, [])
    else
      match t.demux.insert sender t.channels.length with
      | none => (t, [])
      | some demux =>
        ({ t with
            demux
            channels := t.channels ++ [⟨sender, hs.terms⟩]
            accepted := t.accepted ++ [t.channels.length] },
          [(sender, encodeHandshake .response hs.terms)])

/-- A request is answered with its own terms; what is no handshake goes to the channel. -/
def routeToPeer (sender : E) (channel : Nat) (bytes : Bytes) : UdpTransport E × Outbox E :=
  match decodeHandshake bytes with
  | none => (t, [])
  | some hs =>
    if hs.type = .response then (t.resolvePaired channel, [])
    else (t, [(sender, encodeHandshake .response hs.terms)])

def onDatagram (sender : E) (bytes : Bytes) : UdpTransport E × Outbox E :=
  match t.demux.lookup sender with
  | some channel => t.routeToPeer sender channel bytes
  | none => t.acceptNewPeer sender bytes

/-- The owner of a channel destroys it (`wire_teardown`); a half-open one is the transport's. -/
def destroy : UdpTransport E :=
  if t.pending.any (fun p => p.channel = channel) then t
  else
    match t.channels[channel]? with
    | none => t
    | some ch => { t with demux := t.demux.eraseIfMatches ch.dest channel }

/-! ## What a datagram can do -/

/-- The four things that come of a received datagram. -/
inductive Received (t : UdpTransport E) (sender : E) (bytes : Bytes) :
    UdpTransport E → Outbox E → Prop
  | ignored : Received t sender bytes t []
  | answered {channel : Nat} {terms : SessionTerms} (entry : t.demux.lookup sender = some channel)
      (request : decodeHandshake bytes = some ⟨.request, terms⟩) :
      Received t sender bytes t [(sender, encodeHandshake .response terms)]
  | accepted {terms : SessionTerms} {demux : InboundDemux E Nat}
      (none : t.demux.lookup sender = none)
      (request : decodeHandshake bytes = some ⟨.request, terms⟩)
      (entered : t.demux.insert sender t.channels.length = some demux) :
      Received t sender bytes
        { t with
          demux
          channels := t.channels ++ [⟨sender, terms⟩]
          accepted := t.accepted ++ [t.channels.length] }
        [(sender, encodeHandshake .response terms)]
  | resolved {channel : Nat} {terms : SessionTerms} (entry : t.demux.lookup sender = some channel)
      (response : decodeHandshake bytes = some ⟨.response, terms⟩)
      (dialing : ∃ p ∈ t.pending, p.channel = channel) :
      Received t sender bytes
        { t with pending := t.withoutPending channel, dialed := t.dialed ++ [channel] } []

theorem received_onDatagram (sender : E) (bytes : Bytes) :
    Received t sender bytes (t.onDatagram sender bytes).1 (t.onDatagram sender bytes).2 := by
  unfold onDatagram
  cases hentry : t.demux.lookup sender with
  | none =>
    unfold acceptNewPeer
    cases hhs : decodeHandshake bytes with
    | none => exact .ignored
    | some hs =>
      obtain ⟨type, terms⟩ := hs
      cases type with
      | response => exact .ignored
      | request =>
        cases hinsert : t.demux.insert sender t.channels.length with
        | none => exact .ignored
        | some demux => exact .accepted hentry hhs hinsert
  | some channel =>
    unfold routeToPeer
    cases hhs : decodeHandshake bytes with
    | none => exact .ignored
    | some hs =>
      obtain ⟨type, terms⟩ := hs
      cases type with
      | request => exact .answered hentry hhs
      | response =>
        show Received t sender bytes (t.resolvePaired channel) []
        unfold resolvePaired
        split
        · rename_i hany
          exact .resolved hentry hhs (by simpa using hany)
        · exact .ignored

end UdpTransport

end Plexus.Datagram
