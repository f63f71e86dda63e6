/-
# Plexus.Io.MessageForwarder — the publish/subscribe forwarder of a node.

`io/message_forwarder.h`, `io/subscription_endpoint.h`, `io/detail/forwarder_fanout.h`. The
forwarder owns the subscriber registry, the egress bands, the history of latched topics and the
demand it remembers towards each peer. A call takes the forwarder and the world and returns both;
`publish` returns nothing where the source writes outside the slots of a history ring.

Left out: the observer hooks, which nothing here reads back, and `publish_object`, which retains
through the same `retainIfLatched`.
-/
import Plexus.Io.HistoryRing
import Plexus.Io.SubscriberRegistry
import Plexus.Wire.DataFrame

namespace Plexus.Io

open Wire Function SubscriberRegistry

/-- `subscription_endpoint::peer`. -/
structure Peer where
  channel : Channel
  nodeName : Text
  deriving DecidableEq

/-- A subscription to make again in the next session. -/
structure RememberedDemand where
  fqn : Text
  qos : SubscriberQos
  typeId : Option UInt64
  deriving DecidableEq

def kHistoryDepthCap : Nat := 1024
def kFetchCap : Nat := 1024

structure MessageForwarder where
  registry : SubscriberRegistry := {}
  nextSequence : UInt64 := 0
  egress : EgressScheduler := {}
  retained : UInt64 → Option (HistoryRing Bytes) := fun _ => none
  remoteTopics : Text → List RememberedDemand := fun _ => []
  globalDefault : Nat := globalDefaultMaxMessageBytes
  /-- `m_companion_route_cb`: the same-host companion a frame of this size is routed to. -/
  companionRoute : Text → Text → Nat → Option Channel := fun _ _ _ => none

/-- A type id on the wire; zero is "undeclared". -/
def typeHashOf (typeId : Option UInt64) : UInt64 := typeId.getD 0

namespace MessageForwarder

/-! ## Control frames -/

/-- `send_control`: every control frame carries session id zero. -/
def controlFrame (type : MsgType) (timestampNs : UInt64) (inner : Bytes) : Bytes :=
  encodeFrame { type, flags := 0, sessionId := 0, timestampNs, payloadLen := 0 } inner

def sendControl (w : World) (ch : Channel) (type : MsgType) (inner : Bytes) : World :=
  let (timestampNs, w) := w.nowTimestampNs
  w.send ch (controlFrame type timestampNs inner)

theorem decodeHeader_controlFrame (type : MsgType) (timestampNs : UInt64) (inner : Bytes) :
    decodeHeader (controlFrame type timestampNs inner) =
      some { type, flags := 0, sessionId := 0, timestampNs,
             payloadLen := UInt64.ofNat inner.length } := by
  rw [controlFrame, encodeFrame, decodeHeader_encodeHeader]

theorem drop_controlFrame (type : MsgType) (timestampNs : UInt64) (inner : Bytes) :
    (controlFrame type timestampNs inner).drop headerSize = inner := by
  exact List.drop_left' (by simp)

/-- The request `send_subscribe` writes; a default QoS is not encoded. -/
def subscribeRequest (fqn : Text) (typeId : Option UInt64) (qos : SubscriberQos) :
    SubscribeRequest where
  fqn := fqn
  typeName := []
  topicHash := fqnTopicHash fqn
  typeHash := typeHashOf typeId
  source := EndpointSourceType.publisher
  qos := if qos = {} then none else some (toWireRegion qos)

/-! ## Remembered demand -/

variable (f : MessageForwarder)

/-- `record_remote_topic`: the first QoS and type stored for a name stay. -/
def recordRemoteTopic (nodeName fqn : Text) (qos : SubscriberQos) (typeId : Option UInt64) :
    MessageForwarder :=
  if (f.remoteTopics nodeName).any (fun d => d.fqn = fqn) then f
  else
    { f with
      remoteTopics := update f.remoteTopics nodeName
        (f.remoteTopics nodeName ++ [{ fqn, qos, typeId }]) }

def forgetRemoteTopic (nodeName fqn : Text) : MessageForwarder :=
  { f with
    remoteTopics := update f.remoteTopics nodeName
      ((f.remoteTopics nodeName).filter (fun d => d.fqn ≠ fqn)) }

@[simp] theorem registry_recordRemoteTopic (nodeName fqn : Text) (qos : SubscriberQos)
    (typeId : Option UInt64) :
    (f.recordRemoteTopic nodeName fqn qos typeId).registry = f.registry := by
  unfold recordRemoteTopic
  split <;> rfl

theorem recordRemoteTopic_of_mem {f : MessageForwarder} {nodeName fqn : Text}
    (h : ∃ d ∈ f.remoteTopics nodeName, d.fqn = fqn) (qos : SubscriberQos)
    (typeId : Option UInt64) : f.recordRemoteTopic nodeName fqn qos typeId = f := by
  have hany : ((f.remoteTopics nodeName).any fun d => d.fqn = fqn) := by simpa using h
  simp only [recordRemoteTopic, hany, if_true]

theorem remoteTopics_recordRemoteTopic (nodeName fqn other : Text) (qos : SubscriberQos)
    (typeId : Option UInt64) :
    (f.recordRemoteTopic nodeName fqn qos typeId).remoteTopics other =
      if other = nodeName ∧ ∀ d ∈ f.remoteTopics nodeName, d.fqn ≠ fqn then
        f.remoteTopics other ++ [⟨fqn, qos, typeId⟩]
      else f.remoteTopics other := by
  unfold recordRemoteTopic
  split
  case isTrue hany =>
    obtain ⟨d, hd, hname⟩ := List.any_eq_true.mp hany
    rw [if_neg fun h => h.2 d hd (by simpa using hname)]
  case isFalse hany =>
    have hnone : ∀ d ∈ f.remoteTopics nodeName, d.fqn ≠ fqn := by simpa using hany
    rcases eq_or_ne other nodeName with rfl | hne
    · rw [if_pos ⟨rfl, hnone⟩]
      exact update_self _ _ _
    · rw [if_neg fun h => hne h.1]
      exact update_of_ne hne _ _

theorem remoteTopics_forgetRemoteTopic (nodeName fqn other : Text) :
    (f.forgetRemoteTopic nodeName fqn).remoteTopics other =
      if other = nodeName then (f.remoteTopics other).filter (fun d => d.fqn ≠ fqn)
      else f.remoteTopics other := by
  rcases eq_or_ne other nodeName with rfl | hne
  · rw [if_pos rfl]
    exact update_self _ _ _
  · rw [if_neg hne]
    exact update_of_ne hne _ _

/-! ## Retained history -/

/-- `clamp(depth, 1, k_history_depth_cap)`. -/
def retainedBound (qos : TopicQos) : Nat := min (max qos.depth.toNat 1) kHistoryDepthCap

def retainIfLatched (hash : UInt64) (qos : TopicQos) (framed : Bytes) :
    Option MessageForwarder :=
  if !qos.latch then some f
  else
    match ((f.retained hash).getD {}).retain (retainedBound qos) framed with
    | none => none
    | some ring => some { f with retained := update f.retained hash (some ring) }

/-- `replay_window`: the last `limit` frames, oldest first; the index is taken modulo the number of
slots. -/
def replayWindow (ring : HistoryRing Bytes) (limit : Nat) : List Bytes :=
  (List.range' (ring.count - limit) limit).map (fun i => (ring.oldestToNewest i).getD [])

def sendAll (w : World) (ch : Channel) (frames : List Bytes) : World :=
  frames.foldl (fun w frame => w.send ch frame) w

/-- What `replay_if_latched` sends a subscriber with this QoS. -/
def replayFor (ring : HistoryRing Bytes) (sub : SubscriberQos) : List Bytes :=
  if sub.durabilityMode = Durability.latest then [ring.newest.getD []]
  else if sub.durabilityMode = Durability.all then
    replayWindow ring
      (if sub.replayDepth ≠ 0 then min ring.count sub.replayDepth.toNat else ring.count)
  else []

/-- The ring behind a hash, when it holds anything. -/
def history (hash : UInt64) : Option (HistoryRing Bytes) :=
  (f.retained hash).filter (fun ring => !ring.empty)

def replayIfLatched (w : World) (p : Peer) (hash : UInt64) : World :=
  if !(f.registry.qosFor hash).latch then w
  else
    match f.history hash with
    | none => w
    | some ring => sendAll w p.channel (replayFor ring (f.registry.qosForSubscriber hash p.channel))

def fetchLatched (w : World) (p : Peer) (hash : UInt64) (maxSamples : UInt32) : World :=
  match f.history hash with
  | none => w
  | some ring =>
    sendAll w p.channel (replayWindow ring (min (min maxSamples.toNat ring.count) kFetchCap))

/-! ## Publishing -/

def declare (f : MessageForwarder) (fqn : Text) (qos : TopicQos) (producerTypeId : Option UInt64)
    (emitSourceIdentity : Bool) : MessageForwarder :=
  { f with
    registry := f.registry.declare (fqnTopicHash fqn) fqn qos producerTypeId emitSourceIdentity }

def framePublish (w : World) (hash : UInt64) (payload : Bytes) (counter : Option UInt64)
    (sessionId : UInt64) : Bytes × MessageForwarder × World :=
  let (timestampNs, w) := w.nowTimestampNs
  let framed := encodeUnidirectionalFrame
    { type := MsgType.unidirectional, flags := if counter.isSome then kFlagSourceIdentity else 0,
      sessionId, timestampNs, payloadLen := 0 }
    { source := EndpointSourceType.publisher, sequence := f.nextSequence, topicHash := hash }
    payload counter
  (framed, { f with nextSequence := f.nextSequence + 1 }, w)

/-- One round of `fan_published`. -/
def fanOne (hash : UInt64) (fqn : Text) (qos : TopicQos) (framed : Bytes)
    (fw : MessageForwarder × World) (sub : RegistrySubscriber) : MessageForwarder × World :=
  if !Locality.anySet qos.reach sub.tier then fw
  else
    let route := (fw.1.companionRoute sub.nodeName fqn framed.length).getD sub.channel
    let band := bandOf qos.priority
    let (cause, egress, w) := fw.1.egress.enqueue fw.2 route band qos.congestion framed
    ({ fw.1 with egress, registry := fw.1.registry.recordDrop hash band cause }, w)

def fanPublished (w : World) (subs : List RegistrySubscriber) (hash : UInt64) (fqn : Text)
    (qos : TopicQos) (framed : Bytes) : MessageForwarder × World :=
  subs.foldl (fanOne hash fqn qos framed) (f, w)

/-- The frame the next publish on a topic puts together. -/
def nextFrame (f : MessageForwarder) (w : World) (fqn : Text) (payload : Bytes)
    (sessionId : UInt64) : Bytes :=
  let topic := f.registry.entryAt (fqnTopicHash fqn)
  let counter := if topic.emitSourceIdentity then topic.endpointCounter else none
  (f.framePublish w (fqnTopicHash fqn) payload counter sessionId).1

/-- `publish`; `none` is a write outside the slots of the topic's history ring. -/
def publish (w : World) (fqn : Text) (payload : Bytes) (sessionId : UInt64) :
    Option (MessageForwarder × World) :=
  let hash := fqnTopicHash fqn
  match f.registry.topics hash with
  | none => some (f, w)
  | some topic =>
    if topic.subscribers.isEmpty && !topic.qos.latch then some (f, w)
    else
      let counter := if topic.emitSourceIdentity then topic.endpointCounter else none
      let (framed, f, w) := f.framePublish w hash payload counter sessionId
      let (f, w) := f.fanPublished w topic.subscribers hash fqn topic.qos framed
      (f.retainIfLatched hash topic.qos framed).map (fun f => (f, w))

/-- Where a frame of `fqn` goes on its way to a subscriber. -/
def Routed (fqn : Text) (sub : RegistrySubscriber) (ch : Channel) : Prop :=
  ∃ size, ch = (f.companionRoute sub.nodeName fqn size).getD sub.channel

theorem sent_fanOne (hash : UInt64) (fqn : Text) (qos : TopicQos) (framed : Bytes)
    (fw : MessageForwarder × World) (sub : RegistrySubscriber) :
    (fanOne hash fqn qos framed fw sub).1.companionRoute = fw.1.companionRoute ∧
      ∀ e ∈ (fanOne hash fqn qos framed fw sub).2.sent,
        e ∈ fw.2.sent ∨ fw.1.Routed fqn sub e.1 := by
  unfold fanOne
  split
  · exact ⟨rfl, fun e he => .inl he⟩
  refine ⟨rfl, fun e he => ?_⟩
  obtain ⟨frames, hsent⟩ := EgressScheduler.sent_enqueue fw.1.egress fw.2
    ((fw.1.companionRoute sub.nodeName fqn framed.length).getD sub.channel) (bandOf qos.priority)
    qos.congestion framed
  simp only [hsent, List.mem_append, List.mem_map] at he
  rcases he with hold | ⟨frame, _, rfl⟩
  · exact .inl hold
  · exact .inr ⟨framed.length, rfl⟩

theorem sent_fanPublished (hash : UInt64) (fqn : Text) (qos : TopicQos) (framed : Bytes)
    (subs : List RegistrySubscriber) (f : MessageForwarder) (w : World) :
    ∀ e ∈ (f.fanPublished w subs hash fqn qos framed).2.sent,
      e ∈ w.sent ∨ ∃ sub ∈ subs, f.Routed fqn sub e.1 := by
  induction subs generalizing f w with
  | nil => exact fun e he => .inl he
  | cons sub subs ih =>
    intro e he
    obtain ⟨hroute, hone⟩ := sent_fanOne hash fqn qos framed (f, w) sub
    rcases ih (fanOne hash fqn qos framed (f, w) sub).1 (fanOne hash fqn qos framed (f, w) sub).2 e he
      with hearlier | ⟨other, hother, hrouted⟩
    · rcases hone e hearlier with hold | hrouted
      · exact .inl hold
      · exact .inr ⟨sub, List.mem_cons_self, hrouted⟩
    · refine .inr ⟨other, List.mem_cons_of_mem _ hother, ?_⟩
      rwa [Routed, hroute] at hrouted

/-- **A publish reaches the subscribers of its topic only.** -/
theorem sent_publish {f f' : MessageForwarder} {w w' : World} {fqn : Text} {payload : Bytes}
    {sessionId : UInt64} (h : f.publish w fqn payload sessionId = some (f', w')) :
    ∀ e ∈ w'.sent, e ∈ w.sent ∨
      ∃ sub ∈ f.registry.subscribersOf (fqnTopicHash fqn), f.Routed fqn sub e.1 := by
  unfold publish at h
  cases htopic : f.registry.topics (fqnTopicHash fqn) with
  | none =>
    simp only [htopic] at h
    obtain ⟨_, rfl⟩ := h
    exact fun e he => .inl he
  | some topic =>
    have hsubs : f.registry.subscribersOf (fqnTopicHash fqn) = topic.subscribers := by
      simp only [subscribersOf, entryAt, htopic, Option.getD_some]
    simp only [htopic] at h
    split at h
    · obtain ⟨_, rfl⟩ := h
      exact fun e he => .inl he
    obtain ⟨g, _, hg⟩ := Option.map_eq_some_iff.mp h
    obtain ⟨_, rfl⟩ := Prod.mk.inj hg
    rw [hsubs]
    exact sent_fanPublished _ fqn topic.qos _ topic.subscribers _ _

/-! ## Attach and detach -/

def attach (w : World) (p : Peer) (fqn : Text) (qos : SubscriberQos) (typeId : Option UInt64) :
    Bool × MessageForwarder × World :=
  let (count, registry) := f.registry.bumpRefcount p.nodeName fqn
  let f := { f with registry }
  if count ≠ 1 then (false, f, w)
  else
    let hash := fqnTopicHash fqn
    let f := { f with
      registry := f.registry.addSubscriber hash fqn p.channel p.nodeName qos typeId }
    let f := f.recordRemoteTopic p.nodeName fqn qos typeId
    let w := sendControl w p.channel MsgType.subscribe
      (encodeSubscribeRequest (subscribeRequest fqn typeId qos))
    (true, f, w)

def detach (f : MessageForwarder) (w : World) (p : Peer) (fqn : Text) :
    Bool × MessageForwarder × World :=
  let (count, registry) := f.registry.dropRefcount p.nodeName fqn
  let f := { f with registry }
  if count ≠ 0 then (false, f, w)
  else
    let hash := fqnTopicHash fqn
    let f := { f with registry := f.registry.removeSubscriber hash p.channel }
    let f := { f with egress := f.egress.remove p.channel }
    let f := f.forgetRemoteTopic p.nodeName fqn
    let w := sendControl w p.channel MsgType.unsubscribe (encodeUnsubscribeRequest ⟨hash⟩)
    (true, f, w)

/-! ## The branches of attach and detach

Every caller's argument starts from the count it finds, so there is one equation for each. -/

section Branches

variable {f : MessageForwarder} {p : Peer} {fqn : Text}

theorem attach_of_first (h : f.registry.refcount.counts p.nodeName fqn = none) (w : World)
    (qos : SubscriberQos) (typeId : Option UInt64) :
    f.attach w p fqn qos typeId =
      (true,
        MessageForwarder.recordRemoteTopic
          { f with
            registry := (f.registry.bumpRefcount p.nodeName fqn).2.addSubscriber (fqnTopicHash fqn)
              fqn p.channel p.nodeName qos typeId } p.nodeName fqn qos typeId,
        sendControl w p.channel MsgType.subscribe
          (encodeSubscribeRequest (subscribeRequest fqn typeId qos))) := by
  have hgate : ¬ (f.registry.bumpRefcount p.nodeName fqn).1 ≠ 1 :=
    not_not.mpr ((KeyedRefcount.bump_eq_one_iff _ _ _).mpr (by rw [h]; rfl))
  simp only [attach, if_neg hgate]

theorem attach_of_counted {v : UInt32} (h : f.registry.refcount.counts p.nodeName fqn = some v)
    (hv : v ≠ 0) (w : World) (qos : SubscriberQos) (typeId : Option UInt64) :
    f.attach w p fqn qos typeId =
      (false, { f with registry := (f.registry.bumpRefcount p.nodeName fqn).2 }, w) := by
  have hgate : (f.registry.bumpRefcount p.nodeName fqn).1 ≠ 1 := by
    intro hone
    have hzero := (KeyedRefcount.bump_eq_one_iff _ _ _).mp hone
    rw [h] at hzero
    exact hv hzero
  simp only [attach, if_pos hgate]

theorem detach_of_not_last (h : f.registry.refcount.counts p.nodeName fqn ≠ some 1) (w : World) :
    f.detach w p fqn =
      (false, { f with registry := (f.registry.dropRefcount p.nodeName fqn).2 }, w) := by
  have hgate : (f.registry.dropRefcount p.nodeName fqn).1 ≠ 0 :=
    fun hzero => h ((KeyedRefcount.drop_eq_zero_iff _ _ _).mp hzero)
  simp only [detach, if_pos hgate]

theorem detach_of_last (h : f.registry.refcount.counts p.nodeName fqn = some 1) (w : World) :
    f.detach w p fqn =
      (true,
        MessageForwarder.forgetRemoteTopic
          { f with
            registry := (f.registry.dropRefcount p.nodeName fqn).2.removeSubscriber
              (fqnTopicHash fqn) p.channel
            egress := f.egress.remove p.channel } p.nodeName fqn,
        sendControl w p.channel MsgType.unsubscribe
          (encodeUnsubscribeRequest ⟨fqnTopicHash fqn⟩)) := by
  have hgate : ¬ (f.registry.dropRefcount p.nodeName fqn).1 ≠ 0 :=
    not_not.mpr ((KeyedRefcount.drop_eq_zero_iff _ _ _).mpr h)
  simp only [detach, if_neg hgate]

@[simp] theorem refcount_attach (f : MessageForwarder) (w : World) (p : Peer) (fqn : Text)
    (qos : SubscriberQos) (typeId : Option UInt64) :
    (f.attach w p fqn qos typeId).2.1.registry.refcount =
      (f.registry.refcount.bump p.nodeName fqn).2 := by
  unfold attach
  dsimp only
  split
  · rfl
  · rw [registry_recordRemoteTopic]
    rfl

@[simp] theorem refcount_detach (f : MessageForwarder) (w : World) (p : Peer) (fqn : Text) :
    (f.detach w p fqn).2.1.registry.refcount = (f.registry.refcount.drop p.nodeName fqn).2 := by
  unfold detach
  dsimp only
  split
  · rfl
  · exact refcount_removeSubscriber _ _ _

theorem remoteTopics_attach_of_mem (h : ∃ d ∈ f.remoteTopics p.nodeName, d.fqn = fqn) (w : World)
    (qos : SubscriberQos) (typeId : Option UInt64) :
    (f.attach w p fqn qos typeId).2.1.remoteTopics = f.remoteTopics := by
  unfold attach
  dsimp only
  split
  · rfl
  · have hany : ((f.remoteTopics p.nodeName).any fun d => d.fqn = fqn) := by simpa using h
    simp only [recordRemoteTopic, hany, if_true]

theorem remoteTopics_detach_of_not_mem (h : ∀ d ∈ f.remoteTopics p.nodeName, d.fqn ≠ fqn)
    (w : World) : (f.detach w p fqn).2.1.remoteTopics = f.remoteTopics := by
  unfold detach
  dsimp only
  split
  · rfl
  funext other
  rw [remoteTopics_forgetRemoteTopic]
  split
  case isTrue heq =>
    subst heq
    exact List.filter_eq_self.mpr fun d hd => by simpa using h d hd
  case isFalse => rfl

end Branches

def attachLocal (w : World) (fqn : Text) (ch : Channel) (selfName : Text) (qos : SubscriberQos)
    (typeId : Option UInt64) : MessageForwarder × World :=
  let hash := fqnTopicHash fqn
  let f := { f with registry := f.registry.addSubscriber hash fqn ch selfName qos typeId }
  (f, f.replayIfLatched w ⟨ch, selfName⟩ hash)

def detachLocal (fqn : Text) (ch : Channel) : MessageForwarder :=
  { f with
    registry := f.registry.removeSubscriber (fqnTopicHash fqn) ch
    egress := f.egress.remove ch }

def detachAll (p : Peer) : MessageForwarder :=
  { f with
    registry := f.registry.removePeer p.nodeName p.channel
    egress := f.egress.remove p.channel }

/-! ## `io/detail/forwarder_fanout.h` -/

def typeIdMismatch (hash : UInt64) (subscriberTypeId : Option UInt64) : Bool :=
  match f.registry.producerTypeId hash, subscriberTypeId with
  | some produced, some requested => produced ≠ requested
  | _, _ => false

def statusOf : RxoVerdict → SubscribeStatus
  | .sourceIdentityIncompatible => SubscribeStatus.sourceIdentityIncompatible
  | _ => SubscribeStatus.incompatibleQos

/-- What the publisher's gate says to a subscribe: a refusal with its status, or the answer an
accept carries. -/
def fanoutVerdict (hash : UInt64) (subscriberTypeId : Option UInt64) (subQos : SubscriberQos) :
    Except SubscribeStatus SubscribeResponse :=
  if f.typeIdMismatch hash subscriberTypeId then .error SubscribeStatus.typeMismatch
  else if subQos.posture = .strict ∧ subscriberTypeId.isSome ∧
      (f.registry.producerTypeId hash).isNone then .error SubscribeStatus.typeUndeclared
  else
    let rxo := rxoCheck (f.registry.qosFor hash) (f.registry.offersSourceIdentity hash)
      f.globalDefault subQos
    match rxo.verdict with
    | .incompatibleQos => .error (statusOf .incompatibleQos)
    | .sourceIdentityIncompatible => .error (statusOf .sourceIdentityIncompatible)
    | .degraded => .ok { topicHash := hash, status := SubscribeStatus.subscribedDegraded,
                         degradedFlags := some rxo.degradedFields }
    | .compatible => .ok { topicHash := hash, status := SubscribeStatus.subscribed }

/-- `attach_for_fanout`: a refusal is answered and changes nothing; a repeated subscribe only bumps
the refcount and is not answered. -/
def attachForFanout (w : World) (p : Peer) (fqn : Text) (subscriberTypeId : Option UInt64)
    (subQos : SubscriberQos) : Bool × MessageForwarder × World :=
  let hash := fqnTopicHash fqn
  match f.fanoutVerdict hash subscriberTypeId subQos with
  | .error status =>
    (false, f, sendControl w p.channel MsgType.subscribeResponse
      (encodeSubscribeResponse { topicHash := hash, status }))
  | .ok resp =>
    let (count, registry) := f.registry.bumpRefcount p.nodeName fqn
    let f := { f with registry }
    if count ≠ 1 then (false, f, w)
    else
      let f := { f with
        registry := f.registry.addSubscriber hash fqn p.channel p.nodeName subQos subscriberTypeId }
      let w := sendControl w p.channel MsgType.subscribeResponse (encodeSubscribeResponse resp)
      (true, f, f.replayIfLatched w p hash)

section FanoutBranches

variable {f : MessageForwarder} {p : Peer} {fqn : Text} {typeId : Option UInt64}
  {qos : SubscriberQos}

theorem attachForFanout_of_refused {status : SubscribeStatus}
    (h : f.fanoutVerdict (fqnTopicHash fqn) typeId qos = .error status) (w : World) :
    (f.attachForFanout w p fqn typeId qos).2.1 = f := by
  simp only [attachForFanout, h]

theorem attachForFanout_of_first {resp : SubscribeResponse}
    (h : f.fanoutVerdict (fqnTopicHash fqn) typeId qos = .ok resp)
    (hcount : f.registry.refcount.counts p.nodeName fqn = none) (w : World) :
    (f.attachForFanout w p fqn typeId qos).2.1 =
      { f with
        registry := (f.registry.bumpRefcount p.nodeName fqn).2.addSubscriber (fqnTopicHash fqn)
          fqn p.channel p.nodeName qos typeId } := by
  have hgate : ¬ (f.registry.bumpRefcount p.nodeName fqn).1 ≠ 1 :=
    not_not.mpr ((KeyedRefcount.bump_eq_one_iff _ _ _).mpr (by rw [hcount]; rfl))
  simp only [attachForFanout, h, if_neg hgate]

theorem attachForFanout_of_counted {resp : SubscribeResponse} {v : UInt32}
    (h : f.fanoutVerdict (fqnTopicHash fqn) typeId qos = .ok resp)
    (hcount : f.registry.refcount.counts p.nodeName fqn = some v) (hv : v ≠ 0) (w : World) :
    (f.attachForFanout w p fqn typeId qos).2.1 =
      { f with registry := (f.registry.bumpRefcount p.nodeName fqn).2 } := by
  have hgate : (f.registry.bumpRefcount p.nodeName fqn).1 ≠ 1 := by
    intro hone
    have hzero := (KeyedRefcount.bump_eq_one_iff _ _ _).mp hone
    rw [hcount] at hzero
    exact hv hzero
  simp only [attachForFanout, h, if_pos hgate]

theorem refcount_attachForFanout {resp : SubscribeResponse}
    (h : f.fanoutVerdict (fqnTopicHash fqn) typeId qos = .ok resp) (w : World) :
    (f.attachForFanout w p fqn typeId qos).2.1.registry.refcount =
      (f.registry.refcount.bump p.nodeName fqn).2 := by
  simp only [attachForFanout, h]
  split
  · rfl
  · exact refcount_addSubscriber _ _ _ _ _ _ _

/-- The gate reads what the topics offer and nothing else of the registry. -/
theorem fanoutVerdict_congr {g : MessageForwarder} (hdefault : g.globalDefault = f.globalDefault)
    (hqos : ∀ hash, g.registry.qosFor hash = f.registry.qosFor hash)
    (htype : ∀ hash, g.registry.producerTypeId hash = f.registry.producerTypeId hash)
    (hsource : ∀ hash, g.registry.offersSourceIdentity hash = f.registry.offersSourceIdentity hash) :
    g.fanoutVerdict = f.fanoutVerdict := by
  funext hash requested sub
  simp only [fanoutVerdict, typeIdMismatch, hdefault, hqos, htype, hsource]

theorem fanoutVerdict_addSubscriber (r : SubscriberRegistry) (hash : UInt64) (ch : Channel)
    (nodeName : Text) (hr : r.topics = f.registry.topics) :
    MessageForwarder.fanoutVerdict
        { f with registry := r.addSubscriber hash fqn ch nodeName qos typeId } =
      f.fanoutVerdict := by
  have hentry : ∀ other, r.entryAt other = f.registry.entryAt other := fun other => by
    simp only [entryAt, hr]
  have hoffer := TopicEntry.offer_addSubscriber (f.registry.entryAt hash) fqn ch nodeName qos typeId
  refine fanoutVerdict_congr rfl ?_ ?_ ?_ <;> intro other
  · rw [qosFor_eq, qosFor_eq, entryAt_addSubscriber, hentry, hentry]
    split
    case isTrue h => rw [hoffer.1, h]
    case isFalse => rfl
  · rw [producerTypeId_eq, producerTypeId_eq, entryAt_addSubscriber, hentry, hentry]
    split
    case isTrue h => rw [hoffer.2.1, h]
    case isFalse => rfl
  · rw [offersSourceIdentity_eq, offersSourceIdentity_eq, entryAt_addSubscriber, hentry, hentry]
    split
    case isTrue h => rw [hoffer.2.2, h]
    case isFalse => rfl

end FanoutBranches

/-! ## The receive tail -/

/-- `deliver`: the name and the data the message callback is handed, when there is a call. -/
def deliver (inner : Bytes) (hasSourceIdentity : Bool) :
    Option (Text × UnidirectionalDecodeResult) :=
  match decodeUnidirectional inner hasSourceIdentity with
  | none => none
  | some decoded =>
    let fqn := f.registry.fqnFor decoded.header.topicHash
    if fqn.isEmpty then none else some (fqn, decoded)

end MessageForwarder

end Plexus.Io
