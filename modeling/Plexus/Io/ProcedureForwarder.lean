/-
# Plexus.Io.ProcedureForwarder — request/response calls and served procedures.

`io/procedure_forwarder.h`, `io/detail/procedure_fanout.h`. A call mints a correlation id, sends its
request and waits in the peer's outstanding table until a response, its deadline or the loss of the
peer resolves it. `m_outstanding` is the list of its entries, each with its node.

The operations say which `on_response` is due and with what; running it is the machine of
`Plexus.Io.RpcMachine`. `call` comes in two parts, since the channel and the observer hook run
between the send and the `emplace`. Left out are the hooks of the serving side and of a reply, and
the staged reply context of a request being served.
-/
import Plexus.Io.MessageForwarder

namespace Plexus.Io

open Wire

/-- `pending_rpc` with the two keys it is filed under. `call` stands for its `on_response`. -/
structure PendingRpc where
  node : Text
  corr : UInt64
  fqn : Text
  call : Nat
  deriving DecidableEq

def kDefaultMaxOutstanding : Nat := 1024

/-- The forwarder's members; `hashToFqn` has the served procedures. -/
structure ProcedureForwarder where
  registry : SubscriberRegistry := {}
  nextSequence : UInt64 := 0
  nextCorrelationId : UInt64 := 1
  maxOutstanding : Nat := kDefaultMaxOutstanding
  outstanding : List PendingRpc := []
  hashToFqn : UInt64 → Option Text := fun _ => none

namespace ProcedureForwarder

/-- `send_data`. -/
def sendData (w : World) (ch : Channel) (type : MsgType) (inner : Bytes) (sessionId : UInt64) :
    World :=
  let (timestampNs, w) := w.nowTimestampNs
  w.send ch (encodeFrame { type, flags := 0, sessionId, timestampNs, payloadLen := 0 } inner)

/-! ## Serving -/

variable (f : ProcedureForwarder)

def serve (fqn : Text) : ProcedureForwarder :=
  { f with hashToFqn := Function.update f.hashToFqn (fqnTopicHash fqn) (some fqn) }

/-- `reply_status`. -/
def replyStatus (w : World) (ch : Channel) (reqHdr : BidirectionalHeader) (status : RpcStatus)
    (returnData : Bytes) (sessionId : UInt64) : ProcedureForwarder × World :=
  let respHdr : BidirectionalHeader :=
    { source := EndpointSourceType.procedure, sequence := f.nextSequence,
      topicHash := reqHdr.topicHash, typeHash1 := 0, typeHash2 := 0,
      correlationId := reqHdr.correlationId }
  ({ f with nextSequence := f.nextSequence + 1 },
    sendData w ch MsgType.rpcResponse (encodeRpcResponse respHdr status returnData) sessionId)

/-- `deliver_request`: the provider's name and its parameters, if one is called; an unserved hash is
answered at once. -/
def deliverRequest (w : World) (p : Peer) (inner : Bytes) (sessionId : UInt64) :
    Option (Text × Bytes) × ProcedureForwarder × World :=
  match decodeRpcRequest inner with
  | none => (none, f, w)
  | some decoded =>
    match f.hashToFqn decoded.header.topicHash with
    | none =>
      let status :=
        if (f.registry.fqnFor decoded.header.topicHash).isEmpty then RpcStatus.noHandler
        else RpcStatus.topicNotFound
      (none, f.replyStatus w p.channel decoded.header status [] sessionId)
    | some fqn => (some (fqn, decoded.data), f, w)

/-! ## Calling -/

/-- A peer's table. -/
def perPeer (node : Text) : List PendingRpc :=
  f.outstanding.filter (fun e => e.node = node)

/-- `call` up to its send: the entry that is to be filed under the id just minted, or nothing when the
peer's table is full and the callback is due at once with `error`. -/
def call (w : World) (p : Peer) (fqn : Text) (param : Bytes) (sessionId : UInt64)
    (callId : Nat) : Option PendingRpc × ProcedureForwarder × World :=
  if (f.perPeer p.nodeName).length ≥ f.maxOutstanding then (none, f, w)
  else
    let corr := f.nextCorrelationId
    let hdr : BidirectionalHeader :=
      { source := EndpointSourceType.caller, sequence := f.nextSequence,
        topicHash := fqnTopicHash fqn, typeHash1 := 0, typeHash2 := 0, correlationId := corr }
    (some { node := p.nodeName, corr, fqn, call := callId },
      { f with nextCorrelationId := corr + 1, nextSequence := f.nextSequence + 1 },
      sendData w p.channel MsgType.rpcRequest (encodeRpcRequest hdr param) sessionId)

/-- An entry of these two keys. -/
def hasEntry (node : Text) (corr : UInt64) : Bool :=
  f.outstanding.any fun e => e.node = node ∧ e.corr = corr

/-- The end of `call`, where the peer's table is still there: `per_peer.emplace`, which does nothing
if the id is taken. -/
def emplace (e : PendingRpc) : Option ProcedureForwarder :=
  if f.hasEntry e.node e.corr then none else some { f with outstanding := f.outstanding ++ [e] }

/-- Find an entry by its two keys, take it out, and only then fire it. -/
def resolve (node : Text) (corr : UInt64) : Option PendingRpc × ProcedureForwarder :=
  match f.outstanding.find? (fun e => e.node = node ∧ e.corr = corr) with
  | none => (none, f)
  | some e => (some e, { f with outstanding := f.outstanding.erase e })

/-- `deliver_response`: an undecodable payload and an orphan are dropped. -/
def deliverResponse (p : Peer) (inner : Bytes) :
    Option (PendingRpc × RpcResponseDecodeResult) × ProcedureForwarder :=
  match decodeRpcResponse inner with
  | none => (none, f)
  | some decoded =>
    match f.resolve p.nodeName decoded.header.correlationId with
    | (none, f) => (none, f)
    | (some e, f) => (some (e, decoded), f)

/-- `fire_timeout`: nothing is due when the entry has been resolved already. -/
def fireTimeout (node : Text) (corr : UInt64) : Option PendingRpc × ProcedureForwarder :=
  f.resolve node corr

/-- The first half of `detach_all`: the peer's table is moved out before any callback runs. -/
def takePeer (p : Peer) : List PendingRpc × ProcedureForwarder :=
  (f.perPeer p.nodeName,
    { f with
      registry := f.registry.removePeer p.nodeName p.channel
      outstanding := f.outstanding.filter (fun e => e.node ≠ p.nodeName) })

/-! ## What the operations do to the outstanding entries -/

theorem resolve_none {f f' : ProcedureForwarder} {node : Text} {corr : UInt64}
    (h : f.resolve node corr = (none, f')) : f' = f := by
  unfold resolve at h
  split at h
  · exact (Prod.mk.inj h).2.symm
  · cases (Prod.mk.inj h).1

theorem resolve_some {f f' : ProcedureForwarder} {node : Text} {corr : UInt64} {e : PendingRpc}
    (h : f.resolve node corr = (some e, f')) :
    e ∈ f.outstanding ∧ e.node = node ∧ e.corr = corr ∧
      f' = { f with outstanding := f.outstanding.erase e } := by
  unfold resolve at h
  split at h
  · cases (Prod.mk.inj h).1
  rename_i e' hfind
  obtain ⟨he, hf⟩ := Prod.mk.inj h
  obtain rfl : e' = e := Option.some.inj he
  have hkeys := List.find?_some hfind
  simp only [decide_eq_true_eq] at hkeys
  exact ⟨List.mem_of_find?_eq_some hfind, hkeys.1, hkeys.2, hf.symm⟩

theorem deliverResponse_none {f f' : ProcedureForwarder} {p : Peer} {inner : Bytes}
    (h : f.deliverResponse p inner = (none, f')) : f' = f := by
  unfold deliverResponse at h
  split at h
  · exact (Prod.mk.inj h).2.symm
  split at h
  · rename_i hresolve
    obtain rfl := (Prod.mk.inj h).2
    exact resolve_none hresolve
  · cases (Prod.mk.inj h).1

theorem deliverResponse_some {f f' : ProcedureForwarder} {p : Peer} {inner : Bytes}
    {e : PendingRpc} {resp : RpcResponseDecodeResult}
    (h : f.deliverResponse p inner = (some (e, resp), f')) :
    f.resolve p.nodeName resp.header.correlationId = (some e, f') := by
  unfold deliverResponse at h
  split at h
  · cases (Prod.mk.inj h).1
  split at h
  · cases (Prod.mk.inj h).1
  rename_i hresolve
  obtain ⟨hsome, rfl⟩ := Prod.mk.inj h
  obtain ⟨rfl, rfl⟩ := Prod.mk.inj (Option.some.inj hsome)
  exact hresolve

end ProcedureForwarder

end Plexus.Io
