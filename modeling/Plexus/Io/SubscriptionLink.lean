/-
# Plexus.Io.SubscriptionLink — two nodes, one session, and the demand between them.

The subscriber's forwarder writes a `subscribe` for its first handle and an `unsubscribe` after its
last; the frames travel in order and without loss to the publisher's session. A run is any
interleaving of attaches, detaches and deliveries.

`subscriptions_converge`: once nothing is in flight, what the subscriber wants *and the publisher's
gate accepts* is served, and for a topic none of whose names has lost its last handle nothing else
is. Topics that did lose one are left out: the publisher's session has no consumer for
`unsubscribe`.
-/
import Plexus.Io.PeerSession
import Plexus.Lib.Run

namespace Plexus.Io

open Wire Lib MessageForwarder KeyedRefcount SessionState List

/-- The channel is the log of what the subscriber has sent and a cursor into it. -/
structure SubscriptionLink where
  subscriber : MessageForwarder
  world : World
  /-- The publisher as the subscriber's session knows it. -/
  peer : Peer
  taken : Nat
  publisher : SessionState

inductive LinkEvent
  | attach (fqn : Text) (qos : SubscriberQos) (typeId : Option UInt64)
  | detach (fqn : Text)
  | deliver
  deriving DecidableEq

namespace SubscriptionLink

variable (l : SubscriptionLink)

def inFlight : List Bytes :=
  (l.world.sentTo l.peer.channel).drop l.taken

section Step

variable (onHandshake : HandshakeHandler)

def step (l : SubscriptionLink) : LinkEvent → SubscriptionLink
  | .attach fqn qos typeId =>
    let (_, subscriber, world) := l.subscriber.attach l.world l.peer fqn qos typeId
    { l with subscriber, world }
  | .detach fqn =>
    let (_, subscriber, world) := l.subscriber.detach l.world l.peer fqn
    { l with subscriber, world }
  | .deliver =>
    match l.inFlight with
    | [] => l
    | frame :: _ =>
      { l with taken := l.taken + 1, publisher := l.publisher.onReceive onHandshake frame }

end Step

/-! ## What the two sides hold -/

/-- The refcount of (publisher, name) at the subscriber. -/
def subscriberCount (fqn : Text) : Option UInt32 :=
  l.subscriber.registry.refcount.counts l.peer.nodeName fqn

/-- The refcount of (subscriber, name) at the publisher. -/
def publisherCount (fqn : Text) : Option UInt32 :=
  l.publisher.messages.registry.refcount.counts l.publisher.peer.nodeName fqn

/-- The subscriber's channel stands in the fan-out list of the topic. -/
def entered (hash : UInt64) : Bool :=
  (l.publisher.messages.registry.entryAt hash).subscribed l.publisher.peer.channel

/-- What the subscriber remembers, with QoS and type of the attach that opened the gate. -/
def demands : List RememberedDemand :=
  l.subscriber.remoteTopics l.peer.nodeName

end SubscriptionLink

/-- The request a demand puts on the wire. -/
def RememberedDemand.request (d : RememberedDemand) : SubscribeRequest :=
  subscribeRequest d.fqn d.typeId d.qos

/-- The publisher's gate lets a request pass. -/
def MessageForwarder.Accepts (f : MessageForwarder) (req : SubscribeRequest) : Prop :=
  ∃ resp, f.fanoutVerdict (fqnTopicHash req.fqn) (requestTypeId req) (requestQos req) = .ok resp

namespace SubscriptionLink

/-- The subscriber has a handle on the name, and the publisher's gate accepts its demand. -/
def Wanted (l : SubscriptionLink) (fqn : Text) : Prop :=
  (l.subscriberCount fqn).getD 0 ≠ 0 ∧
    ∃ d ∈ l.demands, d.fqn = fqn ∧ l.publisher.messages.Accepts d.request

/-- The publisher counts the subscriber and fans the topic out to it. -/
def Served (l : SubscriptionLink) (fqn : Text) : Prop :=
  (l.publisherCount fqn).getD 0 ≠ 0 ∧ l.entered (fqnTopicHash fqn) = true

/-! ## What a frame in flight says -/

/-- The subscribe request in a frame. -/
def subscribeIn (frame : Bytes) : Option SubscribeRequest :=
  match decodeHeader frame with
  | none => none
  | some hdr =>
    if hdr.type = MsgType.subscribe then decodeSubscribeRequest (frame.drop headerSize) else none

/-- One of the two frames a subscriber sends. -/
def Control (frame : Bytes) : Prop :=
  ∃ hdr, decodeHeader frame = some hdr ∧ hdr.sessionId = 0 ∧
    (hdr.type = MsgType.subscribe ∨ hdr.type = MsgType.unsubscribe)

/-- What is in flight, as the publisher will read it; an `unsubscribe` says nothing to it. -/
def pending (l : SubscriptionLink) : List (Option SubscribeRequest) := l.inFlight.map subscribeIn

theorem subscribeIn_subscribe {d : RememberedDemand} (hname : d.fqn.length ≤ kMaxFqn)
    (timestampNs : UInt64) :
    subscribeIn (controlFrame MsgType.subscribe timestampNs
      (encodeSubscribeRequest d.request)) = some d.request := by
  have htype : d.request.typeName.length ≤ kMaxTypeName := Nat.zero_le _
  simp only [subscribeIn, decodeHeader_controlFrame, drop_controlFrame, if_true]
  exact decodeSubscribeRequest_encode hname htype

theorem subscribeIn_unsubscribe (timestampNs : UInt64) (inner : Bytes) :
    subscribeIn (controlFrame MsgType.unsubscribe timestampNs inner) = none := by
  have htype : MsgType.unsubscribe ≠ .subscribe := by decide
  simp only [subscribeIn, decodeHeader_controlFrame, if_neg htype]

theorem control_controlFrame {type : MsgType}
    (htype : type = MsgType.subscribe ∨ type = MsgType.unsubscribe) (timestampNs : UInt64)
    (inner : Bytes) : Control (controlFrame type timestampNs inner) :=
  ⟨_, decodeHeader_controlFrame type timestampNs inner, rfl, htype⟩

/-! ## What the publisher does with it -/

variable {frame : Bytes} {l l' : SubscriptionLink} {o : Option SubscribeRequest}
  {sent : List Bytes} {e : LinkEvent} {hash : UInt64}

/-- A control frame carries no session id, so it is never stale; only a decodable subscribe has a
consumer. -/
theorem onReceive_control_eq (onHandshake : HandshakeHandler)
    {s : SessionState} (hframe : Control frame) (hopen : s.session.tornDown = false) :
    (subscribeIn frame = none → s.onReceive onHandshake frame = s) ∧
      ∀ req, subscribeIn frame = some req →
        decodeSubscribeRequest (frame.drop headerSize) = some req ∧
          s.onReceive onHandshake frame = s.onSubscribe (frame.drop headerSize) := by
  obtain ⟨hdr, hdec, hsession, htype⟩ := hframe
  have hstale : s.stale hdr = false := by simp [stale, hsession]
  have hlatch : s.latchEpoch hdr = s := by simp [latchEpoch, hsession]
  simp only [onReceive, hopen, hdec, hstale, hlatch, subscribeIn, Bool.false_eq_true, if_false]
  rcases htype with hsub | hunsub
  · have hdispatch : dispatch onHandshake s hdr (frame.drop headerSize) =
        s.onSubscribe (frame.drop headerSize) := by
      simp only [dispatch, hsub]
      rfl
    rw [hdispatch, if_pos hsub]
    refine ⟨?_, fun req hreq => ⟨hreq, rfl⟩⟩
    intro hnone
    simp only [onSubscribe, hnone]
  have hdispatch : dispatch onHandshake s hdr (frame.drop headerSize) = s := by
    simp only [dispatch, hunsub]
    rfl
  have hother : hdr.type ≠ .subscribe := by
    rw [hunsub]
    decide
  rw [hdispatch, if_neg hother]
  exact ⟨fun _ => rfl, fun _ hreq => nomatch hreq⟩

theorem onReceive_control (onHandshake : HandshakeHandler)
    {s : SessionState} (hframe : Control frame) (hopen : s.session.tornDown = false) :
    (s.onReceive onHandshake frame).session = s.session ∧
      (s.onReceive onHandshake frame).messages =
        match subscribeIn frame with
        | none => s.messages
        | some req => (s.messages.attachForFanout s.world s.peer req.fqn
            (requestTypeId req) (requestQos req)).2.1 := by
  obtain ⟨hnone, hsome⟩ := onReceive_control_eq onHandshake hframe hopen
  cases hreq : subscribeIn frame with
  | none =>
    rw [hnone hreq]
    exact ⟨rfl, rfl⟩
  | some req =>
    obtain ⟨hdecodes, heq⟩ := hsome req hreq
    rw [heq, onSubscribe, hdecodes]
    exact ⟨rfl, rfl⟩

/-- The publisher's tables after it has read `o`: what an accepted request adds, and nothing
else. -/
structure Arrival (o : Option SubscribeRequest) (l l' : SubscriptionLink) : Prop where
  verdict : l'.publisher.messages.fanoutVerdict = l.publisher.messages.fanoutVerdict
  counted : ∀ fqn, l'.publisherCount fqn ≠ none ↔
    l.publisherCount fqn ≠ none ∨
      ∃ req, o = some req ∧ req.fqn = fqn ∧ l.publisher.messages.Accepts req
  positive : ∀ fqn, l'.publisherCount fqn ≠ some 0
  entered : ∀ hash, l'.entered hash = true ↔
    l.entered hash = true ∨
      ∃ req, o = some req ∧ fqnTopicHash req.fqn = hash ∧ l.publisher.messages.Accepts req

/-- The publisher's half of the invariant: every name it counts is fanned out, and no entry stands
at zero. -/
structure Held (l : SubscriptionLink) : Prop where
  entered : ∀ fqn, l.publisherCount fqn ≠ none → l.entered (fqnTopicHash fqn) = true
  positive : ∀ fqn, l.publisherCount fqn ≠ some 0

theorem Held.arrival_nothing (h : Held l)
    (hnone : ∀ req, o = some req → ¬ l.publisher.messages.Accepts req)
    (hmessages : l'.publisher.messages = l.publisher.messages)
    (hsession : l'.publisher.session = l.publisher.session) : Arrival o l l' := by
  have hcount : ∀ fqn, l'.publisherCount fqn = l.publisherCount fqn := fun fqn => by
    simp only [publisherCount, SessionState.peer, hmessages, hsession]
  have hentered : ∀ hash, l'.entered hash = l.entered hash := fun hash => by
    simp only [SubscriptionLink.entered, SessionState.peer, hmessages, hsession]
  refine ⟨by rw [hmessages], fun fqn => ?_, fun fqn => ?_, fun hash => ?_⟩
  · rw [hcount]
    refine ⟨.inl, ?_⟩
    rintro (hold | ⟨req, hreq, _, hok⟩)
    · exact hold
    · exact absurd hok (hnone req hreq)
  · rw [hcount]
    exact h.positive fqn
  · rw [hentered]
    refine ⟨.inl, ?_⟩
    rintro (hold | ⟨req, hreq, _, hok⟩)
    · exact hold
    · exact absurd hok (hnone req hreq)

theorem Held.counts_bumped (h : Held l) {req : SubscribeRequest}
    (hok : l.publisher.messages.Accepts req)
    (hroom : l.publisherCount req.fqn ≠ some 0xFFFFFFFF)
    (hcount : ∀ fqn, l'.publisherCount fqn =
      (l.publisher.messages.registry.refcount.bump l.publisher.peer.nodeName req.fqn).2.counts
        l.publisher.peer.nodeName fqn) (fqn : Text) :
    (l'.publisherCount fqn ≠ none ↔ l.publisherCount fqn ≠ none ∨
      ∃ r, some req = some r ∧ r.fqn = fqn ∧ l.publisher.messages.Accepts r) ∧
      l'.publisherCount fqn ≠ some 0 := by
  rw [hcount]
  refine ⟨?_, counts_bump_ne_zero h.positive hroom fqn⟩
  rw [counts_bump]
  split
  case isTrue heq =>
    exact ⟨fun _ => .inr ⟨req, rfl, heq.symm, hok⟩, fun _ => Option.some_ne_none _⟩
  case isFalse hne =>
    refine ⟨.inl, ?_⟩
    rintro (hold | ⟨r, hr, hfqn, _⟩)
    · exact hold
    · obtain rfl := Option.some.inj hr
      exact absurd hfqn.symm hne

theorem Held.arrival_accepted (h : Held l) {req : SubscribeRequest}
    (hok : l.publisher.messages.Accepts req)
    (hroom : l.publisherCount req.fqn ≠ some 0xFFFFFFFF)
    (hmessages : l'.publisher.messages =
      (l.publisher.messages.attachForFanout l.publisher.world l.publisher.peer req.fqn
        (requestTypeId req) (requestQos req)).2.1)
    (hsession : l'.publisher.session = l.publisher.session) : Arrival (some req) l l' := by
  have hpeer : l'.publisher.peer = l.publisher.peer := by
    rw [SessionState.peer, hsession, SessionState.peer]
  obtain ⟨resp, hresp⟩ := id hok
  have hcounts : ∀ fqn, l'.publisherCount fqn =
      (l.publisher.messages.registry.refcount.bump l.publisher.peer.nodeName req.fqn).2.counts
        l.publisher.peer.nodeName fqn := by
    intro fqn
    rw [publisherCount, hpeer, hmessages, refcount_attachForFanout hresp]
  have hbumped := h.counts_bumped hok hroom hcounts
  cases hcount : l.publisherCount req.fqn with
  | none =>
    -- the first request of the name enters the channel
    rw [attachForFanout_of_first hresp hcount] at hmessages
    refine ⟨?_, fun fqn => (hbumped fqn).1, fun fqn => (hbumped fqn).2, fun hash => ?_⟩
    · rw [hmessages]
      exact fanoutVerdict_addSubscriber _ _ _ _ rfl
    simp only [SubscriptionLink.entered, hmessages, hpeer, SubscriberRegistry.entryAt_addSubscriber]
    constructor
    · split
      case isTrue heq => exact fun _ => .inr ⟨req, rfl, heq.symm, hok⟩
      case isFalse => exact .inl
    rintro (hold | ⟨r, hr, rfl, _⟩)
    · split
      case isTrue heq =>
        rw [TopicEntry.subscribed_addSubscriber]
        simp
      case isFalse => exact hold
    · obtain rfl := Option.some.inj hr
      rw [if_pos rfl, TopicEntry.subscribed_addSubscriber]
      simp
  | some v =>
    -- a repeated request finds the channel entered already
    have hv : v ≠ 0 := by
      rintro rfl
      exact h.positive req.fqn hcount
    rw [attachForFanout_of_counted hresp hcount hv] at hmessages
    have hthere : l.entered (fqnTopicHash req.fqn) :=
      h.entered req.fqn (by rw [hcount]; exact Option.some_ne_none v)
    have hsame : ∀ hash, l'.entered hash = l.entered hash := fun hash => by
      simp only [SubscriptionLink.entered, hmessages, hpeer]
      rfl
    refine ⟨?_, fun fqn => (hbumped fqn).1, fun fqn => (hbumped fqn).2, fun hash => ?_⟩
    · rw [hmessages]
      exact fanoutVerdict_congr rfl (fun _ => rfl) (fun _ => rfl) (fun _ => rfl)
    rw [hsame]
    refine ⟨.inl, ?_⟩
    rintro (hold | ⟨r, hr, rfl, _⟩)
    · exact hold
    · obtain rfl := Option.some.inj hr
      exact hthere

/-! ## What the subscriber does -/

/-- The publisher's count of the request that arrives next is not at the top of its 32 bits. -/
def HasRoom (l : SubscriptionLink) : List (Option SubscribeRequest) → Prop
  | some req :: _ => l.publisherCount req.fqn ≠ some 0xFFFFFFFF
  | _ => True

instance (l : SubscriptionLink) : (rs : List (Option SubscribeRequest)) → Decidable (HasRoom l rs)
  | some req :: _ => inferInstanceAs (Decidable (l.publisherCount req.fqn ≠ some 0xFFFFFFFF))
  | none :: _ => isTrue trivial
  | [] => isTrue trivial

/-- No name beyond the wire's limit, and no refcount of either side at the top of its 32 bits. -/
def WithinLimits (l : SubscriptionLink) : LinkEvent → Prop
  | .attach fqn _ _ => fqn.length ≤ kMaxFqn ∧ l.subscriberCount fqn ≠ some 0xFFFFFFFF
  | .detach _ => True
  | .deliver => HasRoom l l.pending

instance (l : SubscriptionLink) : (e : LinkEvent) → Decidable (WithinLimits l e)
  | .attach fqn _ _ =>
    inferInstanceAs (Decidable (fqn.length ≤ kMaxFqn ∧ l.subscriberCount fqn ≠ some 0xFFFFFFFF))
  | .detach _ => isTrue trivial
  | .deliver => inferInstanceAs (Decidable (HasRoom l l.pending))

/-- The subscriber's call has put `sent` on the channel and left the rest of the link alone. -/
structure Appends (sent : List Bytes) (l l' : SubscriptionLink) : Prop where
  publisher : l'.publisher = l.publisher
  peer : l'.peer = l.peer
  taken : l'.taken = l.taken
  log : l'.world.sentTo l.peer.channel = l.world.sentTo l.peer.channel ++ sent

theorem Appends.publisherCount (h : Appends sent l l') : l'.publisherCount = l.publisherCount := by
  funext fqn
  rw [SubscriptionLink.publisherCount, h.publisher, SubscriptionLink.publisherCount]

theorem Appends.entered (h : Appends sent l l') : l'.entered = l.entered := by
  funext hash
  rw [SubscriptionLink.entered, h.publisher, SubscriptionLink.entered]

/-- The link's two tables and its channel, and what keeps them together. -/
structure Inv (l : SubscriptionLink) : Prop where
  cursor : l.taken ≤ (l.world.sentTo l.peer.channel).length
  isOpen : l.publisher.session.tornDown = false
  control : ∀ frame ∈ l.inFlight, Control frame
  counted : ∀ fqn, l.subscriberCount fqn ≠ none ↔ ∃ d ∈ l.demands, d.fqn = fqn
  positive : ∀ fqn, l.subscriberCount fqn ≠ some 0
  held : Held l
  -- the request of a demand is on its way until the publisher counts it
  conveyed : ∀ d ∈ l.demands, l.publisher.messages.Accepts d.request →
    l.publisherCount d.fqn ≠ none ∨ some d.request ∈ l.pending

/-- What one event can do. -/
inductive Edge (l : SubscriptionLink) : LinkEvent → SubscriptionLink → Prop
  | recount {e : LinkEvent} {l' : SubscriptionLink} (appends : Appends [] l l')
      (demands : l'.demands = l.demands)
      (counted : ∀ fqn, l'.subscriberCount fqn ≠ none ↔ l.subscriberCount fqn ≠ none)
      (positive : ∀ fqn, l'.subscriberCount fqn ≠ some 0) : Edge l e l'
  | up {l' : SubscriptionLink} (d : RememberedDemand) (frame : Bytes)
      (appends : Appends [frame] l l') (control : Control frame)
      (content : subscribeIn frame = some d.request) (demands : l'.demands = l.demands ++ [d])
      (counted : ∀ fqn, l'.subscriberCount fqn ≠ none ↔ l.subscriberCount fqn ≠ none ∨ d.fqn = fqn)
      (positive : ∀ fqn, l'.subscriberCount fqn ≠ some 0) :
      Edge l (.attach d.fqn d.qos d.typeId) l'
  | down {l' : SubscriptionLink} (fqn : Text) (frame : Bytes)
      (last : l.subscriberCount fqn = some 1) (appends : Appends [frame] l l')
      (control : Control frame) (content : subscribeIn frame = none)
      (demands : l'.demands = l.demands.filter (fun d => d.fqn ≠ fqn))
      (counted : ∀ name, l'.subscriberCount name ≠ none ↔
        l.subscriberCount name ≠ none ∧ name ≠ fqn)
      (positive : ∀ name, l'.subscriberCount name ≠ some 0) : Edge l (.detach fqn) l'
  | arrive {l' : SubscriptionLink} (frame : Bytes) (rest : List Bytes)
      (flight : l.inFlight = frame :: rest) (flight' : l'.inFlight = rest)
      (subscriber : l'.subscriber = l.subscriber) (world : l'.world = l.world)
      (peer : l'.peer = l.peer) (taken : l'.taken = l.taken + 1)
      (isOpen : l'.publisher.session.tornDown = false)
      (arrival : Arrival (subscribeIn frame) l l') : Edge l .deliver l'

theorem Inv.inFlight_appends (h : Inv l) (happ : Appends sent l l') :
    l'.inFlight = l.inFlight ++ sent := by
  rw [inFlight, happ.peer, happ.taken, happ.log, drop_append_of_le_length h.cursor]
  rfl

theorem sentTo_sendControl (w : World) (ch : Channel) (type : MsgType) (inner : Bytes) :
    (sendControl w ch type inner).sentTo ch =
      w.sentTo ch ++ [controlFrame type (w.clock 0) inner] := by
  simp [sendControl, World.sentTo, World.nowTimestampNs]

section Events

variable (onHandshake : HandshakeHandler)

theorem Inv.edge_attach (h : Inv l) (d : RememberedDemand)
    (hlim : WithinLimits l (.attach d.fqn d.qos d.typeId)) :
    Edge l (.attach d.fqn d.qos d.typeId)
      (step onHandshake l (.attach d.fqn d.qos d.typeId)) := by
  have hstep : step onHandshake l (.attach d.fqn d.qos d.typeId) =
      { l with
        subscriber := (l.subscriber.attach l.world l.peer d.fqn d.qos d.typeId).2.1
        world := (l.subscriber.attach l.world l.peer d.fqn d.qos d.typeId).2.2 } := rfl
  have hpositive : ∀ name, (l.subscriber.registry.refcount.bump l.peer.nodeName d.fqn).2.counts
      l.peer.nodeName name ≠ some 0 := counts_bump_ne_zero h.positive hlim.2
  cases hcount : l.subscriberCount d.fqn with
  | none =>
    -- nothing is counted, so nothing is remembered and the demand is appended
    have hfresh : (l.demands.any fun e => e.fqn = d.fqn) = false := by
      have := (h.counted d.fqn).not.mp (by simp [hcount])
      simpa using this
    rw [hstep, attach_of_first hcount l.world d.qos d.typeId]
    refine .up d _ ⟨rfl, rfl, rfl, sentTo_sendControl _ _ _ _⟩
      (control_controlFrame (.inl rfl) _ _) (subscribeIn_subscribe hlim.1 _) ?_ (fun name => ?_) ?_
    · simp only [SubscriptionLink.demands] at hfresh ⊢
      simp only [recordRemoteTopic, hfresh, Bool.false_eq_true, if_false, Function.update_self]
    · simp only [subscriberCount, registry_recordRemoteTopic,
        SubscriberRegistry.refcount_addSubscriber, SubscriberRegistry.refcount_bumpRefcount,
        counts_bump]
      split
      case isTrue heq => simp [heq]
      case isFalse hne => simp [Ne.symm hne]
    · simpa only [subscriberCount, registry_recordRemoteTopic]
  | some v =>
    have hv : v ≠ 0 := by
      rintro rfl
      exact h.positive d.fqn hcount
    rw [hstep, attach_of_counted hcount hv l.world d.qos d.typeId]
    refine .recount ⟨rfl, rfl, rfl, (append_nil _).symm⟩ rfl (fun name => ?_) hpositive
    simp only [subscriberCount, SubscriberRegistry.refcount_bumpRefcount, counts_bump]
    split
    case isTrue heq =>
      have hthere : l.subscriber.registry.refcount.counts l.peer.nodeName d.fqn = some v := hcount
      simp [heq, hthere]
    case isFalse => exact .rfl

theorem Inv.edge_detach (h : Inv l) (fqn : Text) :
    Edge l (.detach fqn) (step onHandshake l (.detach fqn)) := by
  have hstep : step onHandshake l (.detach fqn) =
      { l with
        subscriber := (l.subscriber.detach l.world l.peer fqn).2.1
        world := (l.subscriber.detach l.world l.peer fqn).2.2 } := rfl
  have hpositive : ∀ name, (l.subscriber.registry.refcount.drop l.peer.nodeName fqn).2.counts
      l.peer.nodeName name ≠ some 0 := counts_drop_ne_zero h.positive fqn
  by_cases hlast : l.subscriberCount fqn = some 1
  · have hcount : l.subscriber.registry.refcount.counts l.peer.nodeName fqn = some 1 := hlast
    rw [hstep, detach_of_last hcount l.world]
    refine .down fqn _ hlast ⟨rfl, rfl, rfl, sentTo_sendControl _ _ _ _⟩
      (control_controlFrame (.inr rfl) _ _) (subscribeIn_unsubscribe _ _) ?_ (fun name => ?_) ?_
    · simp only [SubscriptionLink.demands, forgetRemoteTopic, Function.update_self]
    · simp only [subscriberCount, forgetRemoteTopic,
        SubscriberRegistry.refcount_removeSubscriber, SubscriberRegistry.refcount_dropRefcount,
        counts_drop]
      split
      case isTrue heq => simp [heq, hcount]
      case isFalse hne => simp [hne]
    · simpa only [subscriberCount, forgetRemoteTopic, SubscriberRegistry.refcount_removeSubscriber]
  · rw [hstep, detach_of_not_last hlast l.world]
    refine .recount ⟨rfl, rfl, rfl, (append_nil _).symm⟩ rfl (fun name => ?_) hpositive
    simp only [subscriberCount, SubscriberRegistry.refcount_dropRefcount, counts_drop]
    split
    case isTrue heq =>
      rw [heq]
      exact (dropped_eq_none_iff hlast).not
    case isFalse => exact .rfl

theorem Inv.arrival (h : Inv l) {rest : List Bytes} (hflight : l.inFlight = frame :: rest)
    (hlim : WithinLimits l .deliver) (l' : SubscriptionLink)
    (hpublisher : l'.publisher = l.publisher.onReceive onHandshake frame) :
    l'.publisher.session.tornDown = false ∧ Arrival (subscribeIn frame) l l' := by
  have hcontrol : Control frame := h.control frame (by simp [hflight])
  obtain ⟨hsession, hmessages⟩ := onReceive_control onHandshake hcontrol h.isOpen
  rw [← hpublisher] at hsession hmessages
  refine ⟨by rw [hsession]; exact h.isOpen, ?_⟩
  cases hreq : subscribeIn frame with
  | none =>
    rw [hreq] at hmessages
    exact h.held.arrival_nothing (fun _ hsome => nomatch hsome) hmessages hsession
  | some req =>
    simp only [hreq] at hmessages
    by_cases hok : l.publisher.messages.Accepts req
    · refine h.held.arrival_accepted hok ?_ hmessages hsession
      have hpending : l.pending = some req :: rest.map subscribeIn := by
        rw [pending, hflight, map_cons, hreq]
      rwa [WithinLimits, hpending] at hlim
    -- refused: an answer goes back and nothing else happens
    cases hverdict : l.publisher.messages.fanoutVerdict (fqnTopicHash req.fqn)
      (requestTypeId req) (requestQos req) with
    | ok resp => exact absurd ⟨resp, hverdict⟩ hok
    | error status =>
      rw [attachForFanout_of_refused hverdict] at hmessages
      refine h.held.arrival_nothing (fun r hr => ?_) hmessages hsession
      obtain rfl := Option.some.inj hr
      exact hok

theorem Inv.edge_deliver (h : Inv l) (hlim : WithinLimits l .deliver) :
    Edge l .deliver (step onHandshake l .deliver) := by
  cases hflight : l.inFlight with
  | nil =>
    have hstep : step onHandshake l .deliver = l := by simp only [step, hflight]
    rw [hstep]
    exact .recount ⟨rfl, rfl, rfl, (append_nil _).symm⟩ rfl (fun _ => .rfl) h.positive
  | cons frame rest =>
    have hstep : step onHandshake l .deliver =
        { l with taken := l.taken + 1, publisher := l.publisher.onReceive onHandshake frame } := by
      simp only [step, hflight]
    rw [hstep]
    obtain ⟨hopen, harrival⟩ := h.arrival onHandshake hflight hlim
      { l with taken := l.taken + 1, publisher := l.publisher.onReceive onHandshake frame } rfl
    refine .arrive frame rest hflight ?_ rfl rfl rfl rfl hopen harrival
    have htail := congrArg tail hflight
    rwa [inFlight, tail_drop] at htail

theorem Inv.edge (h : Inv l) (hlim : WithinLimits l e) : Edge l e (step onHandshake l e) := by
  cases e with
  | attach fqn qos typeId => exact h.edge_attach onHandshake ⟨fqn, qos, typeId⟩ hlim
  | detach fqn => exact h.edge_detach onHandshake fqn
  | deliver => exact h.edge_deliver onHandshake hlim

end Events

/-! ## The invariant along a run -/

theorem Arrival.accepts_iff (h : Arrival o l l') (req : SubscribeRequest) :
    l'.publisher.messages.Accepts req ↔ l.publisher.messages.Accepts req := by
  simp only [MessageForwarder.Accepts, h.verdict]

theorem Held.of_arrival (h : Held l) (harrival : Arrival o l l') : Held l' := by
  refine ⟨fun fqn hcount => ?_, harrival.positive⟩
  rcases (harrival.counted fqn).mp hcount with hold | ⟨req, hreq, rfl, hok⟩
  · exact (harrival.entered _).mpr (.inl (h.entered fqn hold))
  · exact (harrival.entered _).mpr (.inr ⟨req, hreq, rfl, hok⟩)

section

variable (h : Inv l) (happ : Appends sent l l') (hsent : ∀ frame ∈ sent, Control frame)
include h happ hsent

theorem Inv.appends :
    l'.taken ≤ (l'.world.sentTo l'.peer.channel).length ∧
      (∀ frame ∈ l'.inFlight, Control frame) ∧
      l'.pending = l.pending ++ sent.map subscribeIn := by
  have hflight := h.inFlight_appends happ
  refine ⟨?_, fun frame hframe => ?_, ?_⟩
  · rw [happ.taken, happ.peer, happ.log, length_append]
    exact Nat.le_add_right_of_le h.cursor
  · rw [hflight, mem_append] at hframe
    rcases hframe with hold | hnew
    · exact h.control frame hold
    · exact hsent frame hnew
  · rw [pending, hflight, map_append]
    rfl

/-- A call of the subscriber keeps the invariant when its table and its remembered demand still
agree and every demand it has added is on the channel. -/
theorem Inv.of_appends
    (hcounted : ∀ fqn, l'.subscriberCount fqn ≠ none ↔ ∃ d ∈ l'.demands, d.fqn = fqn)
    (hpositive : ∀ fqn, l'.subscriberCount fqn ≠ some 0)
    (hdemands : ∀ d ∈ l'.demands, d ∈ l.demands ∨ some d.request ∈ sent.map subscribeIn) :
    Inv l' := by
  obtain ⟨hcursor, hcontrol, hpending⟩ := h.appends happ hsent
  refine ⟨hcursor, by rw [happ.publisher]; exact h.isOpen, hcontrol, hcounted, hpositive, ?_, ?_⟩
  · constructor
    · rw [happ.publisherCount, happ.entered]
      exact h.held.entered
    · rw [happ.publisherCount]
      exact h.held.positive
  intro d hd hok
  rw [happ.publisher] at hok
  rw [happ.publisherCount, hpending, mem_append]
  rcases hdemands d hd with hold | hnew
  · exact (h.conveyed d hold hok).imp_right .inl
  · exact .inr (.inr hnew)

end

theorem Inv.of_edge (h : Inv l) (hedge : Edge l e l') : Inv l' := by
  cases hedge with
  | recount appends demands counted positive =>
    refine h.of_appends appends (by simp) (fun fqn => ?_) positive (fun d hd => .inl (demands ▸ hd))
    rw [counted, demands]
    exact h.counted fqn
  | up d frame appends control content demands counted positive =>
    refine h.of_appends appends (by simpa using control) (fun fqn => ?_) positive (fun e he => ?_)
    · rw [counted, demands, h.counted]
      simp
    rw [demands, mem_append, mem_singleton] at he
    rcases he with hold | rfl
    · exact .inl hold
    · exact .inr (by simp [content])
  | down fqn frame last appends control content demands counted positive =>
    refine h.of_appends appends (by simpa using control) (fun name => ?_) positive (fun e he => ?_)
    · rw [counted, demands, h.counted]
      constructor
      · rintro ⟨⟨d, hd, rfl⟩, hne⟩
        exact ⟨d, mem_filter.mpr ⟨hd, by simpa using hne⟩, rfl⟩
      · rintro ⟨d, hd, rfl⟩
        obtain ⟨hmem, hne⟩ := mem_filter.mp hd
        exact ⟨⟨d, hmem, rfl⟩, by simpa using hne⟩
    · rw [demands] at he
      exact .inl (mem_filter.mp he).1
  | arrive frame rest flight flight' subscriber world peer taken isOpen arrival =>
    have hdemands : l'.demands = l.demands := by
      simp only [SubscriptionLink.demands, subscriber, peer]
    have hcount : l'.subscriberCount = l.subscriberCount := by
      funext fqn
      simp only [subscriberCount, subscriber, peer]
    have hcursor : l.taken < (l.world.sentTo l.peer.channel).length := by
      have hlen := congrArg length flight
      rw [inFlight, length_drop, length_cons] at hlen
      omega
    refine ⟨by rw [taken, world, peer]; exact hcursor, isOpen, ?_, ?_, ?_,
      h.held.of_arrival arrival, ?_⟩
    · intro f hf
      exact h.control f (by rw [flight, ← flight']; exact mem_cons_of_mem _ hf)
    · rw [hcount, hdemands]
      exact h.counted
    · rw [hcount]
      exact h.positive
    -- a request that leaves the channel is counted on arrival
    intro d hd hok
    rw [hdemands] at hd
    rw [arrival.accepts_iff] at hok
    rcases h.conveyed d hd hok with hold | hflight
    · exact .inl ((arrival.counted d.fqn).mpr (.inl hold))
    rw [pending, flight, map_cons, mem_cons] at hflight
    rcases hflight with hhead | htail
    · exact .inl ((arrival.counted d.fqn).mpr (.inr ⟨d.request, hhead.symm, rfl, hok⟩))
    · right
      rw [pending, flight']
      exact htail

/-! ## Topics that keep their handles -/

/-- The event does not take the last handle of a name of the topic. -/
def KeepsDemand (hash : UInt64) (l : SubscriptionLink) : LinkEvent → Prop
  | .detach fqn => fqnTopicHash fqn = hash → l.subscriberCount fqn ≠ some 1
  | _ => True

instance (hash : UInt64) (l : SubscriptionLink) : (e : LinkEvent) → Decidable (KeepsDemand hash l e)
  | .attach _ _ _ => isTrue trivial
  | .detach fqn =>
    inferInstanceAs (Decidable (fqnTopicHash fqn = hash → l.subscriberCount fqn ≠ some 1))
  | .deliver => isTrue trivial

/-- What the publisher holds for the topic, or is about to be asked for, is demanded. -/
structure Kept (hash : UInt64) (l : SubscriptionLink) : Prop where
  pending : ∀ req, some req ∈ l.pending → fqnTopicHash req.fqn = hash →
    ∃ d ∈ l.demands, d.request = req
  counted : ∀ fqn, fqnTopicHash fqn = hash → l.publisherCount fqn ≠ none →
    ∃ d ∈ l.demands, d.fqn = fqn ∧ l.publisher.messages.Accepts d.request
  entered : l.entered hash = true → ∃ fqn, fqnTopicHash fqn = hash ∧ l.publisherCount fqn ≠ none

theorem Kept.of_appends (h : Kept hash l) (hinv : Inv l) (happ : Appends sent l l')
    (hsent : ∀ frame ∈ sent, Control frame)
    (hdemands : ∀ d ∈ l.demands, fqnTopicHash d.fqn = hash → d ∈ l'.demands)
    (hnew : ∀ req, some req ∈ sent.map subscribeIn → ∃ d ∈ l'.demands, d.request = req) :
    Kept hash l' := by
  obtain ⟨_, _, hpending⟩ := hinv.appends happ hsent
  refine ⟨?_, ?_, ?_⟩
  · intro req hreq htopic
    rw [hpending, mem_append] at hreq
    rcases hreq with hold | hsays
    · obtain ⟨d, hd, rfl⟩ := h.pending req hold htopic
      exact ⟨d, hdemands d hd htopic, rfl⟩
    · exact hnew req hsays
  · intro fqn htopic hheld
    rw [happ.publisherCount] at hheld
    obtain ⟨d, hd, rfl, hok⟩ := h.counted fqn htopic hheld
    exact ⟨d, hdemands d hd htopic, rfl, by rw [happ.publisher]; exact hok⟩
  · rw [happ.publisherCount, happ.entered]
    exact h.entered

theorem Kept.of_edge (h : Kept hash l) (hinv : Inv l) (hkeeps : KeepsDemand hash l e)
    (hedge : Edge l e l') : Kept hash l' := by
  cases hedge with
  | recount appends demands counted positive =>
    refine h.of_appends hinv appends (by simp) (fun d hd _ => demands ▸ hd) (fun req hreq => ?_)
    simp at hreq
  | up d frame appends control content demands counted positive =>
    refine h.of_appends hinv appends (by simpa using control) (fun e he _ => ?_) (fun req hreq => ?_)
    · rw [demands]
      exact mem_append_left _ he
    · rw [map_singleton, content, mem_singleton] at hreq
      exact ⟨d, by simp [demands], (Option.some.inj hreq).symm⟩
  | down fqn frame last appends control content demands counted positive =>
    refine h.of_appends hinv appends (by simpa using control) (fun d hd htopic => ?_)
      (fun req hreq => ?_)
    · -- the name that goes is of another topic
      have hne : d.fqn ≠ fqn := by
        rintro rfl
        exact hkeeps htopic last
      rw [demands]
      exact mem_filter.mpr ⟨hd, by simpa using hne⟩
    · rw [map_singleton, content, mem_singleton] at hreq
      cases hreq
  | arrive frame rest flight flight' subscriber world peer taken isOpen arrival =>
    have hdemands : l'.demands = l.demands := by
      simp only [SubscriptionLink.demands, subscriber, peer]
    have hpending : l.pending = subscribeIn frame :: l'.pending := by
      rw [SubscriptionLink.pending, flight, map_cons, SubscriptionLink.pending, flight']
    refine ⟨fun req hreq htopic => ?_, fun fqn htopic hheld => ?_, fun hentered => ?_⟩
    · rw [hdemands]
      exact h.pending req (by rw [hpending]; exact mem_cons_of_mem _ hreq) htopic
    · rw [hdemands]
      simp only [arrival.accepts_iff]
      rcases (arrival.counted fqn).mp hheld with hold | ⟨req, hreq, rfl, hok⟩
      · exact h.counted fqn htopic hold
      · obtain ⟨d, hd, rfl⟩ := h.pending req (by rw [hpending, hreq]; exact mem_cons_self) htopic
        exact ⟨d, hd, rfl, hok⟩
    · rcases (arrival.entered hash).mp hentered with hold | ⟨req, hreq, htopic, hok⟩
      · obtain ⟨fqn, htopic, hheld⟩ := h.entered hold
        exact ⟨fqn, htopic, (arrival.counted fqn).mpr (.inl hheld)⟩
      · exact ⟨req.fqn, htopic, (arrival.counted req.fqn).mpr (.inr ⟨req, hreq, rfl, hok⟩)⟩

/-! ## Convergence -/

/-- A session that has just been joined: nothing in flight and nothing counted on either side. -/
structure Fresh (l : SubscriptionLink) : Prop where
  cursor : l.taken = (l.world.sentTo l.peer.channel).length
  isOpen : l.publisher.session.tornDown = false
  subscriberCount : ∀ fqn, l.subscriberCount fqn = none
  demands : l.demands = []
  publisherCount : ∀ fqn, l.publisherCount fqn = none
  entered : ∀ hash, l.entered hash = false

theorem Fresh.inFlight (h : Fresh l) : l.inFlight = [] := by
  rw [SubscriptionLink.inFlight, h.cursor, drop_length]

theorem Fresh.inv (h : Fresh l) : Inv l where
  cursor := h.cursor.le
  isOpen := h.isOpen
  control := by simp [h.inFlight]
  counted := by simp [h.subscriberCount, h.demands]
  positive := by simp [h.subscriberCount]
  held := ⟨by simp [h.publisherCount], by simp [h.publisherCount]⟩
  conveyed := by simp [h.demands]

theorem Fresh.kept (h : Fresh l) (hash : UInt64) : Kept hash l where
  pending := by simp [SubscriptionLink.pending, h.inFlight]
  counted := by simp [h.publisherCount]
  entered := by simp [h.entered]

theorem getD_ne_zero_iff {c : Option UInt32} (h : c ≠ some 0) : c.getD 0 ≠ 0 ↔ c ≠ none := by
  cases c with
  | none => simp
  | some v => simpa using h

theorem Inv.wanted_iff (h : Inv l) (fqn : Text) :
    l.Wanted fqn ↔ ∃ d ∈ l.demands, d.fqn = fqn ∧ l.publisher.messages.Accepts d.request := by
  refine ⟨And.right, fun hdemand => ⟨?_, hdemand⟩⟩
  obtain ⟨d, hd, hfqn, _⟩ := hdemand
  exact (getD_ne_zero_iff (h.positive fqn)).mpr ((h.counted fqn).mpr ⟨d, hd, hfqn⟩)

theorem Inv.served_iff (h : Inv l) (fqn : Text) : l.Served fqn ↔ l.publisherCount fqn ≠ none := by
  have hcount := getD_ne_zero_iff (h.held.positive fqn)
  exact ⟨fun hserved => hcount.mp hserved.1, fun hne => ⟨hcount.mpr hne, h.held.entered fqn hne⟩⟩

theorem Inv.served_of_wanted (h : Inv l) (hquiet : l.inFlight = []) {fqn : Text}
    (hwanted : l.Wanted fqn) : l.Served fqn := by
  obtain ⟨d, hd, rfl, hok⟩ := hwanted.2
  rcases h.conveyed d hd hok with hcount | hflight
  · exact (h.served_iff d.fqn).mpr hcount
  · simp [SubscriptionLink.pending, hquiet] at hflight

theorem sent_of_not_entered {fqn : Text} (h : l.entered (fqnTopicHash fqn) = false) {w w' : World}
    {f' : MessageForwarder} {payload : Bytes} {sessionId : UInt64}
    (hpublish : l.publisher.messages.publish w fqn payload sessionId = some (f', w')) :
    ∀ e ∈ w'.sent, e ∈ w.sent ∨ ∃ sub : RegistrySubscriber,
      sub.channel.key ≠ l.publisher.peer.channel.key ∧
        l.publisher.messages.Routed fqn sub e.1 := by
  intro e he
  rcases sent_publish hpublish e he with hold | ⟨sub, hsub, hrouted⟩
  · exact .inl hold
  refine .inr ⟨sub, ?_, hrouted⟩
  have hnone : ∀ s ∈ l.publisher.messages.registry.subscribersOf (fqnTopicHash fqn),
      s.channel.key ≠ l.publisher.peer.channel.key := by
    simpa [SubscriptionLink.entered, TopicEntry.subscribed, SubscriberRegistry.subscribersOf]
      using h
  exact hnone sub hsub

/-- **What the two nodes agree on**: the publisher counts exactly the names that are wanted, the
peer is entered exactly when one is, and without one no publish is sent to it. -/
structure Agreed (hash : UInt64) (l : SubscriptionLink) : Prop where
  served_iff : ∀ fqn, fqnTopicHash fqn = hash → (l.Served fqn ↔ l.Wanted fqn)
  entered_iff : l.entered hash = true ↔ ∃ fqn, fqnTopicHash fqn = hash ∧ l.Wanted fqn
  unsent : ∀ fqn w payload sessionId f' w', fqnTopicHash fqn = hash →
    (∀ name, fqnTopicHash name = hash → ¬ l.Wanted name) →
    l.publisher.messages.publish w fqn payload sessionId = some (f', w') →
    ∀ e ∈ w'.sent, e ∈ w.sent ∨ ∃ sub : RegistrySubscriber,
      sub.channel.key ≠ l.publisher.peer.channel.key ∧ l.publisher.messages.Routed fqn sub e.1

theorem Inv.agreed (h : Inv l) (hkept : Kept hash l) (hquiet : l.inFlight = []) :
    Agreed hash l := by
  have hwanted : ∀ fqn, fqnTopicHash fqn = hash → l.publisherCount fqn ≠ none → l.Wanted fqn :=
    fun fqn htopic hcount => (h.wanted_iff fqn).mpr (hkept.counted fqn htopic hcount)
  have hentered : l.entered hash = true ↔ ∃ fqn, fqnTopicHash fqn = hash ∧ l.Wanted fqn := by
    constructor
    · intro hthere
      obtain ⟨fqn, htopic, hcount⟩ := hkept.entered hthere
      exact ⟨fqn, htopic, hwanted fqn htopic hcount⟩
    · rintro ⟨fqn, rfl, hw⟩
      exact (h.served_of_wanted hquiet hw).2
  refine ⟨fun fqn htopic => ⟨fun hserved => ?_, h.served_of_wanted hquiet⟩, hentered, ?_⟩
  · exact hwanted fqn htopic ((h.served_iff fqn).mp hserved)
  intro fqn w payload sessionId f' w' htopic hnone hpublish
  have hout : l.entered (fqnTopicHash fqn) = false := by
    rw [htopic]
    refine Bool.eq_false_iff.mpr fun hthere => ?_
    obtain ⟨name, hname, hw⟩ := hentered.mp hthere
    exact hnone name hname hw
  exact sent_of_not_entered hout hpublish

section Runs

variable (onHandshake : HandshakeHandler)

/-- **Subscription convergence.** Take any interleaving of attaches, detaches and deliveries that
stays within the limits and ends with nothing in flight. Every name the subscriber holds and the
publisher's gate accepts is counted and fanned out; and the two nodes agree on every topic that has
kept its handles. -/
theorem subscriptions_converge {l : SubscriptionLink} (hfresh : Fresh l) {es : List LinkEvent}
    (hlim : Guarded (step onHandshake) WithinLimits l es)
    (hquiet : (es.foldl (step onHandshake) l).inFlight = []) :
    let l' := es.foldl (step onHandshake) l
    (∀ fqn, l'.Wanted fqn → l'.Served fqn) ∧
    ∀ hash, Guarded (step onHandshake) (KeepsDemand hash) l es → Agreed hash l' := by
  have hinv : Inv (es.foldl (step onHandshake) l) :=
    hlim.invariant Inv (fun l e h hok => h.of_edge (h.edge onHandshake hok)) hfresh.inv
  refine ⟨fun fqn => hinv.served_of_wanted hquiet, fun hash hkeeps => ?_⟩
  -- the second invariant needs the first at every step, so the two run together
  have hboth := (hlim.and hkeeps).invariant (fun l => Inv l ∧ Kept hash l)
    (fun l e h hok =>
      ⟨h.1.of_edge (h.1.edge onHandshake hok.1),
        h.2.of_edge h.1 hok.2 (h.1.edge onHandshake hok.1)⟩)
    ⟨hfresh.inv, hfresh.kept hash⟩
  exact hinv.agreed hboth.2 hquiet

end Runs

/-- A publisher that has declared topic `a` with type 6, and a subscriber that knows nothing
yet. -/
def typedLink : SubscriptionLink where
  subscriber := {}
  world := World.quiet
  peer := { channel := { key := 1, scheme := [0x74, 0x63, 0x70], polls := true, lowWater := 0 }
            nodeName := [0x70] }
  taken := 0
  publisher :=
    { session :=
        { peer :=
            { channel := { key := 2, scheme := [0x74, 0x63, 0x70], polls := true, lowWater := 0 }
              nodeName := [0x73] } }
      messages := declare {} [0x61] {} (some 6) false
      world := World.quiet }

theorem fresh_typedLink : Fresh typedLink where
  cursor := rfl
  isOpen := rfl
  subscriberCount := fun _ => rfl
  demands := rfl
  publisherCount := fun _ => rfl
  entered := fun hash => by
    have hnone : typedLink.publisher.messages.registry.subscribersOf hash = [] := by
      simp only [typedLink, declare, SubscriberRegistry.subscribersOf_declare]
      rfl
    rw [SubscriberRegistry.subscribersOf] at hnone
    rw [SubscriptionLink.entered, TopicEntry.subscribed, hnone]
    rfl

/-- No handshake frame comes. -/
def idleHandshake (s : SessionState) (_ : MsgType) (_ : Bytes) : SessionState := s

/-- Two handles on `a` with the right type, one on `b`, one of `a` given back, all delivered. -/
def handleRun : List LinkEvent :=
  [.attach [0x61] {} (some 6), .attach [0x62] {} none, .deliver, .attach [0x61] {} (some 6),
    .detach [0x61], .deliver]

theorem subscriptions_converge_typed :
    (handleRun.foldl (step idleHandshake) typedLink).Served [0x61] ∧
      Agreed (fqnTopicHash [0x61]) (handleRun.foldl (step idleHandshake) typedLink) := by
  have hlim : Guarded (step idleHandshake) WithinLimits typedLink handleRun := by decide +kernel
  have hkeeps : Guarded (step idleHandshake) (KeepsDemand (fqnTopicHash [0x61])) typedLink
      handleRun := by decide +kernel
  obtain ⟨hserved, hagreed⟩ :=
    subscriptions_converge idleHandshake fresh_typedLink hlim (by decide +kernel)
  refine ⟨hserved [0x61] ⟨by decide +kernel, ⟨[0x61], {}, some 6⟩, ?_, rfl, ?_⟩, hagreed _ hkeeps⟩
  · decide +kernel
  · exact ⟨_, rfl⟩

/-! ## Where the two tables part -/

/-- Further handles on a counted name move its count and nothing else, until it overflows. -/
theorem attaches_of_counted (onHandshake : HandshakeHandler)
    (l : SubscriptionLink) {fqn : Text} (hcount : l.subscriberCount fqn = some 1) (k : Nat)
    (hk : k < 2 ^ 32) :
    ∃ subscriber, (replicate k (LinkEvent.attach fqn {} none)).foldl (step onHandshake) l =
        { l with subscriber } ∧
      subscriber.registry.refcount.counts l.peer.nodeName fqn = some (UInt32.ofNat (k + 1)) := by
  induction k with
  | zero => exact ⟨l.subscriber, rfl, hcount⟩
  | succ k ih =>
    obtain ⟨subscriber, hrun, hcounts⟩ := ih (by omega)
    have hnonzero : UInt32.ofNat (k + 1) ≠ 0 := by
      intro hzero
      have htoNat := congrArg UInt32.toNat hzero
      rw [UInt32.toNat_ofNat_of_lt' hk] at htoNat
      exact absurd htoNat (Nat.succ_ne_zero k)
    refine ⟨{ subscriber with
      registry := (subscriber.registry.bumpRefcount l.peer.nodeName fqn).2 }, ?_, ?_⟩
    · rw [replicate_succ', foldl_append, hrun]
      simp only [foldl_cons, foldl_nil, step, attach_of_counted hcounts hnonzero]
    · show (subscriber.registry.refcount.bump l.peer.nodeName fqn).2.counts _ _ = _
      rw [counts_bump, if_pos rfl, hcounts, UInt32.ofNat_add (k + 1) 1]
      rfl

/-- One delivery after as many handles on `b` as the count has values. -/
def overflowRun : List LinkEvent :=
  .attach [0x62] {} none :: (replicate (2 ^ 32 - 1) (.attach [0x62] {} none) ++ [.deliver])

/-- The subscriber's count is back at zero, and the publisher serves what the first handle asked
for. -/
theorem overflowRun_parts :
    let l := overflowRun.foldl (step idleHandshake) typedLink
    l.inFlight = [] ∧ l.subscriberCount [0x62] = some 0 ∧ l.Served [0x62] := by
  dsimp only
  obtain ⟨first, hfirst⟩ : ∃ l, step idleHandshake typedLink (.attach [0x62] {} none) = l :=
    ⟨_, rfl⟩
  have hcount : first.subscriberCount [0x62] = some 1 := by
    rw [← hfirst]
    decide +kernel
  have hserved : (step idleHandshake first .deliver).inFlight = [] ∧
      (step idleHandshake first .deliver).Served [0x62] := by
    rw [← hfirst]
    unfold Served
    decide +kernel
  obtain ⟨frame, hflight⟩ : ∃ frame, first.inFlight = [frame] := by
    rw [← hfirst]
    exact ⟨_, rfl⟩
  obtain ⟨subscriber, hrun, hcounts⟩ := attaches_of_counted idleHandshake first hcount
    (2 ^ 32 - 1) (by omega)
  -- what is delivered was sent by the first handle, so the later ones change nothing there
  have hend : overflowRun.foldl (step idleHandshake) typedLink =
      { step idleHandshake first .deliver with subscriber } := by
    have hflight' : ({ first with subscriber } : SubscriptionLink).inFlight = [frame] := hflight
    rw [overflowRun, foldl_cons, hfirst, foldl_append, hrun]
    simp only [foldl_cons, foldl_nil, step, hflight, hflight']
  have hpeer : (step idleHandshake first .deliver).peer = first.peer := by
    simp only [step, hflight]
  rw [hend]
  refine ⟨hserved.1, ?_, hserved.2⟩
  show subscriber.registry.refcount.counts (step idleHandshake first .deliver).peer.nodeName _ = _
  rw [hpeer, hcounts]
  rfl

/-- A refused type, a name beyond the wire's limit, a handle given back and a count that overflows:
each run ends with nothing in flight, and with tables that differ. -/
theorem link_tables_part :
    (∃ l, [LinkEvent.attach [0x61] {} (some 5), .deliver].foldl (step idleHandshake) typedLink = l ∧
      l.inFlight = [] ∧ l.subscriberCount [0x61] = some 1 ∧ ¬ l.Served [0x61] ∧
      l.entered (fqnTopicHash [0x61]) = false) ∧
    (∃ l, [LinkEvent.attach (List.replicate 1025 0x63) {} none, .deliver].foldl
        (step idleHandshake) typedLink = l ∧
      l.inFlight = [] ∧ l.subscriberCount (List.replicate 1025 0x63) = some 1 ∧
      ¬ l.Served (List.replicate 1025 0x63)) ∧
    (∃ l, [LinkEvent.attach [0x61] {} (some 6), .deliver, .detach [0x61], .deliver].foldl
        (step idleHandshake) typedLink = l ∧
      l.inFlight = [] ∧ l.subscriberCount [0x61] = none ∧ l.Served [0x61] ∧
      (l.publisher.messages.publish World.quiet [0x61] [7] 0).map
        (fun fw => (fw.2.sentTo l.publisher.peer.channel).length) = some 1) ∧
    ∃ l, overflowRun.foldl (step idleHandshake) typedLink = l ∧
      l.inFlight = [] ∧ l.subscriberCount [0x62] = some 0 ∧ l.Served [0x62] := by
  refine ⟨⟨_, rfl, ?_, ?_, ?_, ?_⟩, ⟨_, rfl, ?_, ?_, ?_⟩, ⟨_, rfl, ?_, ?_, ?_, ?_⟩,
    ⟨_, rfl, overflowRun_parts⟩⟩
  all_goals first | decide +kernel | (unfold Served; decide +kernel)

end SubscriptionLink

end Plexus.Io
