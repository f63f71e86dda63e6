/-
# Plexus.Io.PeerSession — what a session does with a received frame.

`io/peer_session.h`, `io/frame_router.h`, `io/detail/peer_session_consumers.h`,
`io/detail/peer_session_deliver.h`, `io/detail/peer_session_complete.h`. The session decodes the
header, drops stragglers of an earlier session id and routes the payload by its type to the
consumers that `start()` registered. `unsubscribe`, `bidirectional` and `fetch_metadata` have none;
and no consumer looks at `m_forwarders_installed`.

A `SessionState` holds the session, the node's two forwarders and the world, and logs what reached
the application. What the handshake frames do is a parameter, so every result holds for every
handshake machine and attach policy.
-/
import Plexus.Io.ProcedureForwarder

namespace Plexus.Io

open Wire

/-- The callbacks a message may be handed to, in order of precedence. -/
inductive MessageSeam
  | withInfo | plain | route
  deriving DecidableEq

structure PeerSession where
  /-- `m_msg_peer` and `m_rpc_peer`. -/
  peer : Peer
  onMessageWithInfo : Bool := false
  onMessage : Bool := false
  onMessageRoute : Bool := false
  tornDown : Bool := false
  closedForProtocolError : Bool := false
  forwardersInstalled : Bool := false
  sessionId : UInt64 := 0
  peerSessionId : UInt64 := 0
  outstandingSubscribes : UInt16 := 0
  readyLatchedThisCycle : Bool := false
  deriving DecidableEq

/-- The callback `deliver_session_data` picks. -/
def PeerSession.seam (s : PeerSession) : Option MessageSeam :=
  if s.onMessageWithInfo then some .withInfo
  else if s.onMessage then some .plain
  else if s.onMessageRoute then some .route
  else none

/-- A session with the forwarders it feeds and the world it acts on. -/
structure SessionState where
  session : PeerSession
  messages : MessageForwarder := {}
  procedures : ProcedureForwarder := {}
  world : World
  /-- Retained frames sent to the session's channel. -/
  replayed : List Bytes := []
  /-- Calls of served procedures: the name and the parameters. -/
  handled : List (Text × Bytes) := []
  /-- Calls of message callbacks: which one, the topic and the data. -/
  delivered : List (MessageSeam × Text × Bytes) := []

/-- What the handshake consumers do with a request or a response. -/
abbrev HandshakeHandler := SessionState → MsgType → Bytes → SessionState

namespace SessionState

def peer (s : SessionState) : Peer := s.session.peer

/-! ## Closing -/

variable (s : SessionState)

/-- `tear_down`. -/
def tearDown : SessionState :=
  { s with
    messages := s.messages.detachAll s.peer
    procedures := (s.procedures.takePeer s.peer).2
    session := { s.session with
      tornDown := true
      peerSessionId := 0
      forwardersInstalled := false
      outstandingSubscribes := 0
      readyLatchedThisCycle := false } }

def closeForProtocolError : SessionState :=
  if s.session.tornDown then s
  else tearDown { s with session := { s.session with closedForProtocolError := true } }

/-! ## The consumers -/

/-- The type id of a request: zero on the wire is "undeclared". -/
def requestTypeId (req : SubscribeRequest) : Option UInt64 :=
  if req.typeHash ≠ 0 then some req.typeHash else none

/-- The QoS of a request: an absent region is the default. -/
def requestQos (req : SubscribeRequest) : SubscriberQos :=
  match req.qos with
  | none => {}
  | some region => fromWireRegion region

/-- The retained frames `attach_for_fanout` replays to the subscriber it has just registered. -/
def replayOnAttach (f : MessageForwarder) (p : Peer) (hash : UInt64) : List Bytes :=
  if !(f.registry.qosFor hash).latch then []
  else
    match f.history hash with
    | none => []
    | some ring => MessageForwarder.replayFor ring (f.registry.qosForSubscriber hash p.channel)

variable (inner : Bytes)

def onSubscribe : SessionState :=
  match decodeSubscribeRequest inner with
  | none => s
  | some req =>
    match s.messages.attachForFanout s.world s.peer req.fqn (requestTypeId req) (requestQos req) with
    | (attached, messages, world) =>
      { s with
        messages, world
        replayed := s.replayed ++
          if attached then replayOnAttach messages s.peer (fqnTopicHash req.fqn) else [] }

/-- The retained frames `fetch_latched` sends. -/
def fetched (f : MessageForwarder) (hash : UInt64) (maxSamples : UInt32) : List Bytes :=
  match f.history hash with
  | none => []
  | some ring =>
    MessageForwarder.replayWindow ring (min (min maxSamples.toNat ring.count) kFetchCap)

def onFetchLatched : SessionState :=
  match decodeFetchLatchedRequest inner with
  | none => s
  | some req =>
    { s with
      world := s.messages.fetchLatched s.world s.peer req.topicHash req.maxSamples
      replayed := s.replayed ++ fetched s.messages req.topicHash req.maxSamples }

/-- `on_subscribe_response_received`, without the two observer callbacks. -/
def onSubscribeResponse : SessionState :=
  match decodeSubscribeResponse inner with
  | none => s
  | some _ =>
    if s.session.outstandingSubscribes = 0 then s
    else
      let left := s.session.outstandingSubscribes - 1
      { s with session := { s.session with
          outstandingSubscribes := left
          readyLatchedThisCycle := s.session.readyLatchedThisCycle || left = 0 } }

/-- `deliver_session_data`; with no callback set the decoded message goes nowhere. -/
def onUnidirectional (hdr : FrameHeader) (inner : Bytes) : SessionState :=
  match s.session.seam, s.messages.deliver inner (hdr.flags &&& kFlagSourceIdentity ≠ 0) with
  | some seam, some (fqn, decoded) =>
    { s with delivered := s.delivered ++ [(seam, fqn, decoded.data)] }
  | _, _ => s

def onRpcRequest : SessionState :=
  match s.procedures.deliverRequest s.world s.peer inner s.session.sessionId with
  | (call, procedures, world) => { s with procedures, world, handled := s.handled ++ call.toList }

/-- The callback of the resolved call is the business of `Plexus.Io.RpcMachine`. -/
def onRpcResponse : SessionState :=
  { s with procedures := (s.procedures.deliverResponse s.peer inner).2 }

/-! ## Receiving -/

section Receive

variable (onHandshake : HandshakeHandler)

def isHandshake (type : MsgType) : Bool :=
  type = MsgType.handshakeReq || type = MsgType.handshakeResp

variable (s : SessionState)

/-- `frame_router::dispatch` over the consumers of `register_session_consumers`. A heartbeat only
stamps the peer as seen. -/
def dispatch (hdr : FrameHeader) (inner : Bytes) : SessionState :=
  if isHandshake hdr.type then onHandshake s hdr.type inner
  else if hdr.type = MsgType.unidirectional then s.onUnidirectional hdr inner
  else if hdr.type = MsgType.subscribe then s.onSubscribe inner
  else if hdr.type = MsgType.fetchLatched then s.onFetchLatched inner
  else if hdr.type = MsgType.subscribeResponse then s.onSubscribeResponse inner
  else if hdr.type = MsgType.rpcRequest then s.onRpcRequest inner
  else if hdr.type = MsgType.rpcResponse then s.onRpcResponse inner
  else s

/-- A frame of an earlier session of the peer. -/
def stale (hdr : FrameHeader) : Bool :=
  hdr.sessionId ≠ 0 && s.session.peerSessionId ≠ 0 && hdr.sessionId ≠ s.session.peerSessionId

/-- The first non-zero session id latches the peer's epoch. -/
def latchEpoch (hdr : FrameHeader) : SessionState :=
  if hdr.sessionId ≠ 0 ∧ s.session.peerSessionId = 0 then
    { s with session := { s.session with peerSessionId := hdr.sessionId } }
  else s

def onReceive (frame : Bytes) : SessionState :=
  if s.session.tornDown then s
  else
    match decodeHeader frame with
    | none => s.closeForProtocolError
    | some hdr =>
      if s.stale hdr then s
      else dispatch onHandshake (s.latchEpoch hdr) hdr (frame.drop headerSize)

end Receive

end SessionState

end Plexus.Io
