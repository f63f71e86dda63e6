/-
# Plexus.Api.Node — a node's demand on its peers.

`node.h` (the subscriber seams, the discovery callbacks, `peer_watch`), `io/routing_engine.h`
(`subscribe`, `unsubscribe`), `io/detail/peer_session_complete.h` (`on_complete`,
`resubscribe_all`), `io/peer_session.h` (`subscribe`, `unsubscribe`, `tear_down`) and
`io/node_name.h`. A local subscription becomes a demand on every known peer; towards a complete
session the message forwarder counts it and puts it on the wire.

A session is its channel once the handshake has completed. Left out, as nothing here reads them:
`reach`, the handshake, the capture policy, the same-host ring, the upgrade hints and the observer
events. The subscribes *received* from a peer belong to `Plexus.Io.PeerSession`.
-/
import Plexus.Api.SubscriptionTable
import Plexus.Io.MessageForwarder

namespace Plexus.Api

open Wire Io

/-! ## `node_id.h`, `io/node_name.h` -/

abbrev NodeId := Vector UInt8 16

/-- The text `0123456789abcdef`. -/
def kHex : Bytes :=
  [0x30, 0x31, 0x32, 0x33, 0x34, 0x35, 0x36, 0x37, 0x38, 0x39, 0x61, 0x62, 0x63, 0x64, 0x65, 0x66]

def hexOf (b : UInt8) : Bytes :=
  [kHex.getD (b.toNat / 16) 0, kHex.getD (b.toNat % 16) 0]

/-- `node_name_of`: the text `peer-` and the whole id in hex. -/
def nodeNameOf (id : NodeId) : Text :=
  [0x70, 0x65, 0x65, 0x72, 0x2d] ++ id.toList.flatMap hexOf

theorem kHex_injective : ∀ m < 16, ∀ n < 16, kHex.getD m 0 = kHex.getD n 0 → m = n := by
  decide

theorem hexOf_injective {b c : UInt8} (h : hexOf b = hexOf c) : b = c := by
  have hb := b.toNat_lt
  have hc := c.toNat_lt
  obtain ⟨hhigh, hlow, _⟩ := List.cons.inj h |>.imp_right List.cons.inj
  have hdiv := kHex_injective (b.toNat / 16) (by omega) (c.toNat / 16) (by omega) hhigh
  have hmod := kHex_injective (b.toNat % 16) (by omega) (c.toNat % 16) (by omega) hlow
  exact UInt8.toNat_inj.mp (by omega)

theorem flatMap_hexOf_injective {bs cs : Bytes} (h : bs.flatMap hexOf = cs.flatMap hexOf) :
    bs = cs := by
  induction bs generalizing cs with
  | nil =>
    cases cs with
    | nil => rfl
    | cons c cs => cases h
  | cons b bs ih =>
    cases cs with
    | nil => cases h
    | cons c cs =>
      obtain ⟨hhead, htail⟩ := List.append_inj h rfl
      rw [hexOf_injective hhead, ih htail]

/-- **Two ids that differ in any byte have distinct names**, so their demand never collides. -/
theorem nodeNameOf_injective {a b : NodeId} (h : nodeNameOf a = nodeNameOf b) : a = b :=
  Vector.toList_inj.mp (flatMap_hexOf_injective (List.append_cancel_left h))

/-! ## The node -/

/-- A node: its own registrations, its peers and their sessions. -/
structure Node where
  id : NodeId
  table : SubscriptionTable := {}
  knownPeers : List NodeId := []
  messages : MessageForwarder := {}
  /-- The channel of a peer's session, once complete. -/
  sessions : NodeId → Option Channel := fun _ => none
  /-- The loopback channel, on a node that has one. -/
  selfRoute : Option Channel := none
  serviceName : Text := []
  world : World := World.quiet

namespace Node

/-! ### `peer_session` and `routing_engine` -/

variable (n : Node) (id : NodeId)

/-- `peer_session::subscribe`, on a session that is complete. -/
def sessionSubscribe (sub : Subscription) : Node :=
  match n.sessions id with
  | none => n
  | some channel =>
    let (_, messages, world) :=
      n.messages.attach n.world { channel, nodeName := nodeNameOf id } sub.fqn sub.qos sub.typeId
    { n with messages, world }

/-- `peer_session::unsubscribe`, on a session that is complete. -/
def sessionUnsubscribe (fqn : Text) : Node :=
  match n.sessions id with
  | none => n
  | some channel =>
    let (_, messages, world) :=
      n.messages.detach n.world { channel, nodeName := nodeNameOf id } fqn
    { n with messages, world }

def rememberDemand (sub : Subscription) : Node :=
  { n with
    messages := n.messages.recordRemoteTopic (nodeNameOf id) sub.fqn sub.qos sub.typeId }

def forgetRememberedDemand (fqn : Text) : Node :=
  { n with messages := n.messages.forgetRemoteTopic (nodeNameOf id) fqn }

/-- `routing_engine::subscribe`; the scope masks are `any` here, so the demand is always in
scope. -/
def engineSubscribe (sub : Subscription) : Node :=
  (n.rememberDemand id sub).sessionSubscribe id sub

/-- `routing_engine::unsubscribe`. -/
def engineUnsubscribe (fqn : Text) : Node :=
  (n.forgetRememberedDemand id fqn).sessionUnsubscribe id fqn

/-- A row of subscribe calls. -/
def subscribeAll (calls : List (NodeId × Subscription)) : Node :=
  calls.foldl (fun n c => n.engineSubscribe c.1 c.2) n

/-- `on_complete`: install once, then `resubscribe_all`. -/
def onComplete (channel : Channel) : Node :=
  match n.sessions id with
  | some _ => n
  | none =>
    (n.messages.remoteTopics (nodeNameOf id)).foldl
      (fun n d => n.sessionSubscribe id { fqn := d.fqn, qos := d.qos, typeId := d.typeId })
      { n with sessions := Function.update n.sessions id (some channel) }

/-- `tear_down`; a session that is not complete has nothing attached. -/
def tearDown : Node :=
  match n.sessions id with
  | none => n
  | some channel =>
    { n with
      messages := n.messages.detachAll { channel, nodeName := nodeNameOf id }
      sessions := Function.update n.sessions id none }

/-! ### `basic_node` -/

def selfAttach (sub : Subscription) : Node :=
  match n.selfRoute with
  | none => n
  | some channel =>
    let (messages, world) :=
      n.messages.attachLocal n.world sub.fqn channel n.serviceName sub.qos sub.typeId
    { n with messages, world }

def selfDetach (fqn : Text) : Node :=
  match n.selfRoute with
  | none => n
  | some channel => { n with messages := n.messages.detachLocal fqn channel }

def registerSubscriberSeam (sub : Subscription) : Node :=
  let firstForFqn := !n.table.anySubscriberFor sub.fqn
  let n := { n with table := n.table.enroll sub }
  let n := if firstForFqn then n.selfAttach sub else n
  n.subscribeAll (n.knownPeers.map fun peer => (peer, sub))

def retireFqnDemand (fqn : Text) : Node :=
  let n := n.selfDetach fqn
  n.knownPeers.foldl (fun n peer => n.engineUnsubscribe peer fqn) n

def retireSubscriberSeam (rid : Nat) : Node :=
  match n.table.withdraw rid with
  | none => n
  | some (fqn, table) =>
    let n := { n with table }
    if table.anySubscriberFor fqn then n else n.retireFqnDemand fqn

def noteKnownPeer : Node :=
  if n.knownPeers.contains id then n else { n with knownPeers := n.knownPeers ++ [id] }

def fanDemandsTo : Node :=
  n.subscribeAll (n.table.subscriptions.map fun e => (id, e.2))

/-- `note_from_card`, for a card with a usable endpoint; a node ignores its own. -/
def noteFromCard : Node :=
  if id = n.id then n else (n.noteKnownPeer id).fanDemandsTo id

/-- `peer_watch::on_peer_ready`. -/
def onPeerReady : Node := (n.noteKnownPeer id).fanDemandsTo id

end Node

inductive NodeEvent
  | register (sub : Subscription)
  | retire (rid : Nat)
  | card (id : NodeId)
  | ready (id : NodeId)
  | complete (id : NodeId) (channel : Channel)
  | tearDown (id : NodeId)
  | beginDispatch
  | endDispatch
  deriving DecidableEq

namespace Node

def step (n : Node) : NodeEvent → Node
  | .register sub => n.registerSubscriberSeam sub
  | .retire rid => n.retireSubscriberSeam rid
  | .card id => n.noteFromCard id
  | .ready id => n.onPeerReady id
  | .complete id channel => n.onComplete id channel
  | .tearDown id => n.tearDown id
  | .beginDispatch => { n with table := n.table.beginDispatch }
  | .endDispatch => { n with table := n.table.endDispatch }

end Node

end Plexus.Api
