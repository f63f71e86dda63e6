/-
# Plexus.Io.SubscribeAnswers — which subscribes are answered, and what the asking side makes of it.

`io/detail/forwarder_fanout.h` (`attach_for_fanout`), `io/detail/peer_session_complete.h`
(`on_subscribe_response_received`) and `io/peer_session.h` (the outstanding count and the ready
edge). A refusal and a first reference are answered; a request that finds its name counted is not.
The count is per node and name, shared with the node's own demand on the peer, and never taken down
while the session lives: there is no consumer for `unsubscribe`.

Each request of a row has exactly one response if and only if each is refused or the first of its
name. With requests of that kind only and fewer than 65536 answers missing, the asking side's count
is zero and its ready edge has fired once everything is delivered and answered.
-/
import Plexus.Io.LatchedHistory
import Plexus.Io.SubscriptionLink
import Plexus.Io.SessionDemand

namespace Plexus.Io

open Wire Lib DemandRun MessageForwarder List
open SubscriptionLink (subscribeIn Control)
open DemandRun (controlOf)

/-! ## Responses on the wire -/

/-- The subscribe response in a frame. -/
def responseIn (frame : Bytes) : Option SubscribeResponse :=
  match controlOf frame with
  | none => none
  | some (type, inner) =>
    if type = MsgType.subscribeResponse then decodeSubscribeResponse inner else none

/-- The responses in a row of frames. -/
def responsesIn (frames : List Bytes) : List SubscribeResponse := frames.filterMap responseIn

theorem responsesIn_append (frames frames' : List Bytes) :
    responsesIn (frames ++ frames') = responsesIn frames ++ responsesIn frames' :=
  filterMap_append

theorem decodeSubscribeResponse_encode (resp : SubscribeResponse) :
    decodeSubscribeResponse (encodeSubscribeResponse resp) = some resp := by
  obtain ⟨topicHash, status, degradedFlags⟩ := resp
  cases degradedFlags <;>
    simp [decodeSubscribeResponse, encodeSubscribeResponse, subscribeResponseSize, writeU8, readU8]

theorem responseIn_response (timestampNs : UInt64) (resp : SubscribeResponse) :
    responseIn (controlFrame MsgType.subscribeResponse timestampNs
      (encodeSubscribeResponse resp)) = some resp := by
  simp only [responseIn, controlOf_controlFrame, if_true, decodeSubscribeResponse_encode]

namespace MessageForwarder

variable {f : MessageForwarder}

/-- What is retained are messages: none of the frames is a response. -/
def RetainsData (f : MessageForwarder) : Prop :=
  ∀ hash ring, f.retained hash = some ring → ∀ frame ∈ ring.slots, responseIn frame = none

theorem responseIn_getD {ring : HistoryRing Bytes} {frame? : Option Bytes}
    (h : ∀ frame ∈ ring.slots, responseIn frame = none) (hslot : ∀ x ∈ frame?, x ∈ ring.slots) :
    responseIn (frame?.getD []) = none := by
  cases frame? with
  | none => rfl
  | some frame => exact h frame (hslot frame rfl)

/-- Nothing that is replayed from such a ring is a response. -/
theorem responsesIn_replayFor {ring : HistoryRing Bytes}
    (h : ∀ frame ∈ ring.slots, responseIn frame = none) (sub : SubscriberQos) :
    responsesIn (replayFor ring sub) = [] := by
  refine filterMap_eq_nil_iff.mpr ?_
  intro frame hmem
  unfold replayFor at hmem
  split at hmem
  · rw [mem_singleton.mp hmem]
    exact responseIn_getD h fun x hx => mem_of_getElem? hx
  split at hmem
  · obtain ⟨i, -, rfl⟩ := mem_map.mp hmem
    exact responseIn_getD h fun x hx => mem_of_getElem? hx
  · exact absurd hmem not_mem_nil

theorem RetainsData.replayIfLatched (h : RetainsData f) (w : World) (p : Peer) (hash : UInt64) :
    ∃ frames : List Bytes, (f.replayIfLatched w p hash).sent =
      w.sent ++ frames.map (Prod.mk p.channel) ∧ responsesIn frames = [] := by
  unfold MessageForwarder.replayIfLatched
  split
  · exact ⟨[], (append_nil _).symm, rfl⟩
  cases hring : f.history hash with
  | none => exact ⟨[], (append_nil _).symm, rfl⟩
  | some ring =>
    refine ⟨_, sent_sendAll w p.channel _, responsesIn_replayFor ?_ _⟩
    exact h hash ring (Option.filter_eq_some_iff.mp hring).1

end MessageForwarder

variable {frames : List Bytes}

theorem World.sentTo_of_sent {w w' : World} {ch : Channel}
    (h : w'.sent = w.sent ++ frames.map (Prod.mk ch)) : w'.sentTo ch = w.sentTo ch ++ frames := by
  unfold World.sentTo
  rw [h]
  simp [filter_map]

/-! ## The responder -/

namespace SessionState

/-- The request is refused, or it is the first of its name. -/
def AnswerableRequest (s : SessionState) (req : SubscribeRequest) : Prop :=
  match s.messages.fanoutVerdict (fqnTopicHash req.fqn) (requestTypeId req) (requestQos req) with
  | .error _ => True
  | .ok _ => (s.messages.registry.refcount.counts s.peer.nodeName req.fqn).getD 0 = 0

instance (s : SessionState) (req : SubscribeRequest) : Decidable (s.AnswerableRequest req) := by
  unfold AnswerableRequest
  split <;> infer_instance

def Answerable (s : SessionState) (frame : Bytes) : Prop :=
  ∀ req ∈ subscribeIn frame, s.AnswerableRequest req

instance (s : SessionState) (frame : Bytes) : Decidable (s.Answerable frame) :=
  inferInstanceAs (Decidable (∀ req ∈ subscribeIn frame, s.AnswerableRequest req))

section Receive

variable (onHandshake : HandshakeHandler)

/-- What a received frame makes the session send on its channel. -/
def reply (s : SessionState) (frame : Bytes) : List Bytes :=
  ((s.onReceive onHandshake frame).world.sentTo s.peer.channel).drop
    (s.world.sentTo s.peer.channel).length

/-- A request has exactly one response, for its topic; other frames have none. -/
def Answered (s : SessionState) (frame : Bytes) : Prop :=
  match subscribeIn frame with
  | none => responsesIn (s.reply onHandshake frame) = []
  | some req => ∃ resp : SubscribeResponse,
      responsesIn (s.reply onHandshake frame) = [resp] ∧ resp.topicHash = fqnTopicHash req.fqn

end Receive

/-- A session that is up, with messages in its history. -/
structure Responds (s : SessionState) : Prop where
  isOpen : s.session.tornDown = false
  data : s.messages.RetainsData

/-- What is said to a request: one response for its topic and then retained messages, or nothing. -/
structure Said (s s' : SessionState) (req : SubscribeRequest) (frames : List Bytes) : Prop where
  log : s'.world.sent = s.world.sent ++ frames.map (Prod.mk s.peer.channel)
  answered : s.AnswerableRequest req →
    ∃ resp : SubscribeResponse, responsesIn frames = [resp] ∧ resp.topicHash = fqnTopicHash req.fqn
  silent : ¬ s.AnswerableRequest req → frames = []

theorem topicHash_of_verdict {f : MessageForwarder} {hash : UInt64} {typeId : Option UInt64}
    {qos : SubscriberQos} {resp : SubscribeResponse}
    (h : f.fanoutVerdict hash typeId qos = .ok resp) : resp.topicHash = hash := by
  unfold fanoutVerdict at h
  split at h
  · cases h
  split at h
  · cases h
  · dsimp only at h
    split at h <;> cases h <;> rfl

theorem said_first {s s' : SessionState} {f : MessageForwarder} {req : SubscribeRequest}
    (resp : SubscribeResponse) (hash : UInt64)
    (hworld : s'.world = f.replayIfLatched (sendControl s.world s.peer.channel
      MsgType.subscribeResponse (encodeSubscribeResponse resp)) s.peer hash)
    (hdata : f.RetainsData) (htopic : resp.topicHash = fqnTopicHash req.fqn)
    (hanswerable : s.AnswerableRequest req) : ∃ frames, Said s s' req frames := by
  obtain ⟨frames, hsent, hnone⟩ := hdata.replayIfLatched (sendControl s.world
    s.peer.channel .subscribeResponse (encodeSubscribeResponse resp)) s.peer hash
  refine ⟨controlFrame .subscribeResponse (s.world.clock 0)
    (encodeSubscribeResponse resp) :: frames, ?_, fun _ => ⟨resp, ?_, htopic⟩,
    fun h => absurd hanswerable h⟩
  · rw [hworld, hsent]
    exact append_assoc _ _ _
  · rw [responsesIn, filterMap_cons, responseIn_response]
    exact congrArg (resp :: ·) hnone

/-- The branches of `attach_for_fanout`. -/
theorem said_onSubscribe {s : SessionState} (hs : s.Responds) {inner : Bytes}
    {req : SubscribeRequest} (hreq : decodeSubscribeRequest inner = some req) :
    (∃ frames, Said s (s.onSubscribe inner) req frames) ∧ (s.onSubscribe inner).Responds ∧
      (s.onSubscribe inner).session = s.session := by
  unfold onSubscribe
  rw [hreq]
  dsimp only
  cases hverdict : s.messages.fanoutVerdict (fqnTopicHash req.fqn) (requestTypeId req)
    (requestQos req) with
  | error status =>
    have hanswerable : s.AnswerableRequest req := by
      rw [AnswerableRequest, hverdict]
      trivial
    simp only [attachForFanout, hverdict]
    refine ⟨⟨[_], rfl, fun _ => ⟨⟨fqnTopicHash req.fqn, status, none⟩, ?_, rfl⟩,
      fun h => absurd hanswerable h⟩, ⟨hs.isOpen, hs.data⟩, trivial⟩
    rw [responsesIn, filterMap_cons, responseIn_response]
    rfl
  | ok resp =>
    have hiff : s.AnswerableRequest req ↔
        (s.messages.registry.bumpRefcount s.peer.nodeName req.fqn).1 = 1 := by
      rw [AnswerableRequest, hverdict]
      exact (KeyedRefcount.bump_eq_one_iff _ _ _).symm
    simp only [attachForFanout, hverdict]
    split
    · -- counted already: not a word
      rename_i hcounted
      exact ⟨⟨[], (append_nil _).symm, fun h => absurd (hiff.mp h) hcounted, fun _ => rfl⟩,
        ⟨hs.isOpen, hs.data⟩, trivial⟩
    rename_i hfirst
    refine ⟨?_, ⟨hs.isOpen, hs.data⟩, trivial⟩
    exact said_first resp (fqnTopicHash req.fqn) rfl hs.data (topicHash_of_verdict hverdict)
      (hiff.mpr (not_not.mp hfirst))

section Rows

variable (onHandshake : HandshakeHandler) {s : SessionState}
  {frame : Bytes}

theorem reply_control (hs : s.Responds) (hframe : Control frame) :
    (s.onReceive onHandshake frame).Responds ∧
      (s.onReceive onHandshake frame).peer = s.peer ∧
      (s.onReceive onHandshake frame).world.sentTo s.peer.channel =
        s.world.sentTo s.peer.channel ++ s.reply onHandshake frame ∧
      (s.Answered onHandshake frame ↔ s.Answerable frame) := by
  obtain ⟨hnone, hsome⟩ := SubscriptionLink.onReceive_control_eq onHandshake hframe hs.isOpen
  unfold Answered Answerable reply
  cases hreq : subscribeIn frame with
  | none =>
    rw [hnone hreq, drop_length]
    refine ⟨hs, rfl, (append_nil _).symm, ⟨fun _ req hmem => ?_, fun _ => rfl⟩⟩
    cases hmem
  | some req =>
    obtain ⟨hdecodes, heq⟩ := hsome req hreq
    obtain ⟨⟨frames, hsaid⟩, hresponds, hsession⟩ := said_onSubscribe hs hdecodes
    rw [heq, World.sentTo_of_sent hsaid.log, drop_left]
    refine ⟨hresponds, ?_, rfl, ?_, ?_⟩
    · rw [peer, hsession, peer]
    · rintro ⟨resp, hone, -⟩ req' hmem
      obtain rfl : req = req' := Option.some.inj hmem
      by_contra hnot
      rw [hsaid.silent hnot] at hone
      exact cons_ne_nil _ _ hone.symm
    · intro hanswerable
      exact hsaid.answered (hanswerable req rfl)

/-- Over any row of frames: the requests are answered, each exactly once, if and only if each of them
is refused or the first of its name. -/
theorem answered_iff_answerable (hs : s.Responds) (hframes : ∀ frame ∈ frames, Control frame) :
    Guarded (onReceive onHandshake) (Answered onHandshake) s frames ↔
      Guarded (onReceive onHandshake) Answerable s frames := by
  have hcontrol : Guarded (onReceive onHandshake) (fun _ frame => Control frame) s frames :=
    guarded_of_mem hframes s
  constructor <;> intro hall <;> refine (hall.and hcontrol).of_invariant Responds ?_ hs <;>
    intro s frame hs h <;> obtain ⟨hresponds, -, -, hiff⟩ := reply_control onHandshake hs h.2
  · exact ⟨hresponds, hiff.mp h.1⟩
  · exact ⟨hresponds, hiff.mpr h.1⟩

end Rows

end SessionState

/-! ## Both sides -/

/-- A frame from the responder; only the responses among them move the count. -/
def DemandRun.onReply (r : DemandRun) (frame : Bytes) : DemandRun :=
  match controlOf frame with
  | none => r
  | some (type, inner) =>
    if type = MsgType.subscribeResponse then r.onAnswer r.answered.length inner else r

/-- One cycle of a session: each channel is the log of what was sent on it and a cursor into it. -/
structure AnswerLink where
  requester : DemandRun
  /-- How far the responder has read. -/
  taken : Nat
  responder : SessionState
  /-- How far the requester has read. -/
  heard : Nat

inductive AnswerEvent
  | subscribe (d : RememberedDemand)
  | unsubscribe (fqn : Text)
  /-- The responder reads the next frame. -/
  | deliver
  /-- The requester reads the next frame. -/
  | reply

namespace AnswerLink

def channel (l : AnswerLink) : Channel := l.requester.state.session.peer.channel

def requests (l : AnswerLink) : List Bytes :=
  (l.requester.state.world.sentTo l.channel).drop l.taken

def replies (l : AnswerLink) : List Bytes :=
  (l.responder.world.sentTo l.responder.peer.channel).drop l.heard

/-- The handshake completes with what is remembered; nothing of an earlier cycle is on its way. -/
def start (r : DemandRun) (ch : Channel) (responder : SessionState) : AnswerLink where
  requester := r.onComplete ch
  taken := (r.state.world.sentTo ch).length
  responder := responder
  heard := (responder.world.sentTo responder.peer.channel).length

section Step

variable (onHandshake : HandshakeHandler)

def step (l : AnswerLink) : AnswerEvent → AnswerLink
  | .subscribe d => { l with requester := l.requester.engineSubscribe d }
  | .unsubscribe fqn => { l with requester := l.requester.engineUnsubscribe fqn }
  | .deliver =>
    match l.requests with
    | [] => l
    | frame :: _ =>
      { l with taken := l.taken + 1, responder := l.responder.onReceive onHandshake frame }
  | .reply =>
    match l.replies with
    | [] => l
    | frame :: _ => { l with heard := l.heard + 1, requester := l.requester.onReply frame }

end Step

/-- Names the wire takes and room in the counter; and the request that is delivered is refused or the
first of its name. -/
def Answerable (l : AnswerLink) : AnswerEvent → Prop
  | .subscribe d =>
    d.fqn.length ≤ kMaxFqn ∧ l.requester.sent + 1 < l.requester.answered.length + 65536
  | .deliver => ∀ frame ∈ l.requests.head?, l.responder.Answerable frame
  | _ => True

instance (l : AnswerLink) : (e : AnswerEvent) → Decidable (l.Answerable e)
  | .subscribe d => inferInstanceAs (Decidable (d.fqn.length ≤ kMaxFqn ∧
      l.requester.sent + 1 < l.requester.answered.length + 65536))
  | .deliver => inferInstanceAs (Decidable (∀ frame ∈ l.requests.head?, l.responder.Answerable frame))
  | .unsubscribe _ => isTrue trivial
  | .reply => isTrue trivial

/-! ## The account -/

/-- The requests in a row of frames. -/
def asks (frames : List Bytes) : Nat := (frames.filterMap subscribeIn).length

theorem asks_append (frames frames' : List Bytes) :
    asks (frames ++ frames') = asks frames + asks frames' := by
  rw [asks, filterMap_append, length_append]
  rfl

/-- Every subscribe of the cycle is on its way, or its answer is, or it is answered. -/
structure Account (l : AnswerLink) : Prop where
  complete : l.requester.state.session.forwardersInstalled = true
  live : l.requester.state.session.tornDown = false
  balanced : DemandRun.Balanced l.requester
  -- the answers are numbered as they come
  numbered : ∀ i ∈ l.requester.answered, i < l.requester.answered.length
  control : ∀ frame ∈ l.requests, Control frame
  taken_le : l.taken ≤ (l.requester.state.world.sentTo l.channel).length
  heard_le : l.heard ≤ (l.responder.world.sentTo l.responder.peer.channel).length
  responds : l.responder.Responds
  account : asks l.requests + (responsesIn l.replies).length + l.requester.answered.length =
    l.requester.sent

/-- A count of zero has fired the ready edge. -/
structure Fired (r : DemandRun) : Prop where
  latch : r.state.session.outstandingSubscribes = 0 → r.state.session.readyLatchedThisCycle = true
  fired : r.state.session.readyLatchedThisCycle = true →
    Pending DemandMark.IsReady DemandMark.IsCompleted r.marks

variable {r : DemandRun} {frame : Bytes} {cs : List (MsgType × Bytes)}

theorem fired_maybeFireReady (h : r.state.session.readyLatchedThisCycle = true →
    Pending DemandMark.IsReady DemandMark.IsCompleted r.marks) : Fired r.maybeFireReady := by
  unfold maybeFireReady
  split
  · exact ⟨fun _ => rfl, fun _ => pending_concat.mpr (.inl trivial)⟩
  rename_i hquiet
  refine ⟨?_, h⟩
  intro hzero
  by_contra hopen
  exact hquiet ⟨hzero, by simpa using hopen⟩

/-- A message the wire takes: the subscribe of a name within its limit, or an unsubscribe. -/
def Sendable (c : MsgType × Bytes) : Prop :=
  (∃ d : RememberedDemand, d.fqn.length ≤ kMaxFqn ∧ c = subscribeOf d) ∨
    ∃ fqn, c = unsubscribeOf fqn

theorem controlOf_eq_some {c : MsgType × Bytes} (h : controlOf frame = some c) :
    ∃ hdr, decodeHeader frame = some hdr ∧ hdr.sessionId = 0 ∧ hdr.type = c.1 ∧
      frame.drop headerSize = c.2 := by
  unfold controlOf at h
  cases hdec : decodeHeader frame with
  | none =>
    rw [hdec] at h
    cases h
  | some hdr =>
    rw [hdec] at h
    dsimp only at h
    split at h
    · rename_i hsession
      obtain rfl := Option.some.inj h
      exact ⟨hdr, rfl, hsession, rfl, rfl⟩
    · cases h

/-- Such a message is a control frame, and one request if it is a subscribe. -/
theorem asks_of_sendable {c : MsgType × Bytes} (h : controlOf frame = some c)
    (hc : Sendable c) : Control frame ∧ asks [frame] = subscribes [c] := by
  obtain ⟨hdr, hdec, hsession, htype, hinner⟩ := controlOf_eq_some h
  rcases hc with ⟨d, hname, rfl⟩ | ⟨fqn, rfl⟩
  · have hsubscribe : hdr.type = .subscribe := htype
    refine ⟨⟨hdr, hdec, hsession, .inl hsubscribe⟩, ?_⟩
    have hreq : subscribeIn frame = some d.request := by
      unfold SubscriptionLink.subscribeIn
      rw [hdec]
      dsimp only
      rw [if_pos hsubscribe, hinner]
      exact decodeSubscribeRequest_encode hname (Nat.zero_le _)
    rw [asks, filterMap_cons, hreq]
    rfl
  have hunsubscribe : hdr.type = .unsubscribe := htype
  refine ⟨⟨hdr, hdec, hsession, .inr hunsubscribe⟩, ?_⟩
  have hreq : subscribeIn frame = none := by
    have hother : hdr.type ≠ .subscribe := by
      rw [hunsubscribe]
      decide
    unfold SubscriptionLink.subscribeIn
    rw [hdec]
    exact if_neg hother
  rw [asks, filterMap_cons, hreq]
  rfl

theorem asks_of_sendables (h : frames.map controlOf = cs.map some) (hcs : ∀ c ∈ cs, Sendable c) :
    (∀ frame ∈ frames, Control frame) ∧ asks frames = subscribes cs := by
  induction frames generalizing cs with
  | nil =>
    obtain rfl : cs = [] := by simpa using h.symm
    exact ⟨forall_mem_nil _, rfl⟩
  | cons frame frames ih =>
    cases cs with
    | nil => cases h
    | cons c cs =>
      obtain ⟨hfirst, hrest⟩ := cons.inj h
      obtain ⟨hc, hcs⟩ := forall_mem_cons.mp hcs
      obtain ⟨hcontrol, hone⟩ := asks_of_sendable hfirst hc
      obtain ⟨hcontrols, hasks⟩ := ih hrest hcs
      refine ⟨forall_mem_cons.mpr ⟨hcontrol, hcontrols⟩, ?_⟩
      have happend := asks_append [frame] frames
      have hsubscribes := subscribes_append [c] cs
      rw [singleton_append] at happend hsubscribes
      rw [happend, hsubscribes, hone, hasks]

variable {l : AnswerLink}

theorem Account.spoke (h : Account l) (hspoke : DemandRun.Spoke cs l.requester r)
    (hcs : ∀ c ∈ cs, Sendable c)
    (hroom : l.requester.sent + subscribes cs < l.requester.answered.length + 65536) :
    Account { l with requester := r } := by
  obtain ⟨frames, hlog, hframes⟩ := hspoke.log
  obtain ⟨hcontrol, hasks⟩ := asks_of_sendables hframes hcs
  have hchannel : AnswerLink.channel { l with requester := r } = l.channel :=
    congrArg Peer.channel hspoke.peer
  have hsent : r.state.world.sentTo l.channel = l.requester.state.world.sentTo l.channel ++ frames :=
    World.sentTo_of_sent hlog
  have hrequests : AnswerLink.requests { l with requester := r } = l.requests ++ frames := by
    unfold AnswerLink.requests
    rw [hchannel]
    show (r.state.world.sentTo l.channel).drop l.taken = _
    rw [hsent, drop_append_of_le_length h.taken_le]
  refine ⟨hspoke.complete.trans h.complete, hspoke.tornDown.trans h.live,
    hspoke.balanced h.balanced hroom, ?_, ?_, ?_, h.heard_le, h.responds, ?_⟩
  · show ∀ i ∈ r.answered, i < r.answered.length
    rw [hspoke.answered]
    exact h.numbered
  · rw [hrequests]
    intro frame hmem
    rcases mem_append.mp hmem with hold | hnew
    · exact h.control frame hold
    · exact hcontrol frame hnew
  · rw [hchannel]
    show l.taken ≤ (r.state.world.sentTo l.channel).length
    rw [hsent, length_append]
    exact Nat.le_add_right_of_le h.taken_le
  · rw [hrequests, asks_append, hasks]
    show _ + (responsesIn l.replies).length + r.answered.length = r.sent
    rw [hspoke.answered, hspoke.sent, ← h.account]
    omega

theorem Fired.spoke {r' : DemandRun} (hr : Fired r) (hspoke : DemandRun.Spoke cs r r')
    (hbalanced : DemandRun.Balanced r) (hbalanced' : DemandRun.Balanced r') : Fired r' := by
  refine ⟨?_, ?_⟩
  · intro hzero
    rw [hspoke.latched]
    apply hr.latch
    -- the count does not fall by asking for more
    have hbefore := hbalanced.balance
    have hafter := hbalanced'.balance
    rw [hspoke.answered, hspoke.sent, hzero] at hafter
    have hnone : (0 : UInt16).toNat = 0 := rfl
    apply UInt16.toNat_inj.mp
    omega
  · rw [hspoke.latched, hspoke.marks]
    exact hr.fired

/-- The responder reads a frame: a request on its way becomes an answer on its way. -/
theorem Account.deliver (onHandshake : HandshakeHandler)
    (h : Account l) (hok : l.Answerable .deliver) : Account (step onHandshake l .deliver) := by
  cases hrequests : l.requests with
  | nil =>
    have hstep : step onHandshake l .deliver = l := by simp only [step, hrequests]
    rw [hstep]
    exact h
  | cons frame rest =>
    set responder := l.responder.onReceive onHandshake frame with hresponder
    have hstep : step onHandshake l .deliver =
        { l with taken := l.taken + 1, responder := responder } := by
      simp only [step, hrequests, hresponder]
    have hcontrol : Control frame := h.control frame (by rw [hrequests]; exact mem_cons_self)
    obtain ⟨hresponds, hpeer, hlog, hiff⟩ := SessionState.reply_control onHandshake h.responds hcontrol
    have hanswered := hiff.mpr (hok frame (by rw [hrequests]; rfl))
    have hrest : (l.requester.state.world.sentTo l.channel).drop (l.taken + 1) = rest := by
      have htail := congrArg tail hrequests
      rwa [requests, tail_drop] at htail
    have hreplies : (responder.world.sentTo responder.peer.channel).drop l.heard =
        l.replies ++ l.responder.reply onHandshake frame := by
      rw [hpeer, hlog, drop_append_of_le_length h.heard_le]
      rfl
    have hone : asks [frame] = (responsesIn (l.responder.reply onHandshake frame)).length := by
      unfold SessionState.Answered at hanswered
      rw [asks, filterMap_cons]
      cases hreq : subscribeIn frame with
      | none =>
        rw [hreq] at hanswered
        exact (congrArg length hanswered).symm
      | some req =>
        rw [hreq] at hanswered
        obtain ⟨resp, hresp, -⟩ := hanswered
        rw [hresp]
        rfl
    have haccount := h.account
    rw [hrequests, ← singleton_append, asks_append] at haccount
    rw [hstep]
    refine ⟨h.complete, h.live, h.balanced, h.numbered, ?_, ?_, ?_, hresponds, ?_⟩
    · intro other hmem
      refine h.control other ?_
      rw [hrequests]
      exact mem_cons_of_mem frame (hrest ▸ hmem)
    · by_contra hle
      have hnil : l.requests = [] := drop_eq_nil_of_le (by
        show (l.requester.state.world.sentTo l.channel).length ≤ l.taken
        exact Nat.le_of_lt_succ (Nat.lt_of_not_le hle))
      rw [hrequests] at hnil
      exact cons_ne_nil frame rest hnil
    · show l.heard ≤ (responder.world.sentTo responder.peer.channel).length
      rw [hpeer, hlog, length_append]
      exact Nat.le_add_right_of_le h.heard_le
    · show asks ((l.requester.state.world.sentTo l.channel).drop (l.taken + 1)) +
        (responsesIn ((responder.world.sentTo responder.peer.channel).drop l.heard)).length +
        l.requester.answered.length = l.requester.sent
      rw [hrest, hreplies, responsesIn_append, length_append]
      omega

/-- Firing the ready edge touches the latch and the marks. -/
theorem maybeFireReady_eq (r : DemandRun) : ∃ latched marks, r.maybeFireReady =
    { r with
      state := { r.state with session := { r.state.session with readyLatchedThisCycle := latched } }
      marks := marks } := by
  unfold maybeFireReady
  split
  · exact ⟨_, _, rfl⟩
  · exact ⟨r.state.session.readyLatchedThisCycle, r.marks, rfl⟩

theorem Account.maybeFireReady (h : Account l) :
    Account { l with requester := l.requester.maybeFireReady } := by
  obtain ⟨latched, marks, heq⟩ := maybeFireReady_eq l.requester
  rw [heq]
  exact { h with balanced := { h.balanced with } }

theorem onReply_of_none (h : responseIn frame = none) (r : DemandRun) : r.onReply frame = r := by
  unfold responseIn at h
  unfold onReply
  cases hcontrol : controlOf frame with
  | none => rfl
  | some c =>
    rw [hcontrol] at h
    dsimp only at h ⊢
    split at h
    · rename_i htype
      rw [if_pos htype]
      unfold onAnswer
      rw [h]
      split <;> rfl
    · rename_i htype
      rw [if_neg htype]

theorem onReply_of_response {resp : SubscribeResponse} (h : responseIn frame = some resp)
    (hlive : r.state.session.tornDown = false)
    (hmissing : r.state.session.outstandingSubscribes ≠ 0) :
    r.onReply frame = (r.settle r.answered.length).maybeFireReady := by
  unfold responseIn at h
  unfold onReply
  cases hcontrol : controlOf frame with
  | none =>
    rw [hcontrol] at h
    cases h
  | some c =>
    rw [hcontrol] at h
    dsimp only at h ⊢
    split at h
    · rename_i htype
      rw [if_pos htype]
      exact onAnswer_of_outstanding hlive (by rw [h]; rfl) hmissing
    · cases h

section

variable (onHandshake : HandshakeHandler) (h : Account l)
  (hfired : Fired l.requester)
include h hfired

theorem Account.reply :
    Account (step onHandshake l .reply) ∧ Fired (step onHandshake l .reply).requester := by
  cases hreplies : l.replies with
  | nil =>
    have hstep : step onHandshake l .reply = l := by simp only [step, hreplies]
    rw [hstep]
    exact ⟨h, hfired⟩
  | cons frame rest =>
    have hstep : step onHandshake l .reply =
        { l with heard := l.heard + 1, requester := l.requester.onReply frame } := by
      simp only [step, hreplies]
    have hrest : (l.responder.world.sentTo l.responder.peer.channel).drop (l.heard + 1) = rest := by
      have htail := congrArg tail hreplies
      rwa [replies, tail_drop] at htail
    have hheard : l.heard + 1 ≤ (l.responder.world.sentTo l.responder.peer.channel).length := by
      by_contra hle
      have hnil : l.replies = [] := drop_eq_nil_of_le (Nat.le_of_lt_succ (Nat.lt_of_not_le hle))
      rw [hreplies] at hnil
      exact cons_ne_nil frame rest hnil
    have haccount := h.account
    rw [hreplies, responsesIn, filterMap_cons] at haccount
    rw [hstep]
    cases hresp : responseIn frame with
    | none =>
      rw [hresp] at haccount
      rw [onReply_of_none hresp]
      refine ⟨{ h with heard_le := hheard, account := ?_ }, hfired⟩
      show asks l.requests +
        (responsesIn ((l.responder.world.sentTo l.responder.peer.channel).drop (l.heard + 1))).length +
        l.requester.answered.length = l.requester.sent
      rw [hrest]
      exact haccount
    | some resp =>
      rw [hresp] at haccount
      rw [length_cons] at haccount
      have hi : l.requester.answered.length < l.requester.sent := by omega
      have hnew : l.requester.answered.length ∉ l.requester.answered :=
        fun hmem => lt_irrefl _ (h.numbered _ hmem)
      obtain ⟨hmissing, hsettled⟩ := h.balanced.settle hi hnew
      rw [onReply_of_response hresp h.live hmissing]
      refine ⟨?_, fired_maybeFireReady hfired.fired⟩
      have hsettledLink : Account { l with
          heard := l.heard + 1
          requester := l.requester.settle l.requester.answered.length } := by
        refine { h with balanced := hsettled, numbered := ?_, heard_le := hheard, account := ?_ }
        · show ∀ i ∈ l.requester.answered ++ [l.requester.answered.length],
            i < (l.requester.answered ++ [l.requester.answered.length]).length
          intro i hmem
          rw [length_append]
          rcases mem_append.mp hmem with hold | hlast
          · exact Nat.lt_succ_of_lt (h.numbered i hold)
          · rw [mem_singleton.mp hlast]
            exact Nat.lt_succ_self _
        · show asks l.requests +
            (responsesIn ((l.responder.world.sentTo l.responder.peer.channel).drop
              (l.heard + 1))).length +
            (l.requester.answered ++ [l.requester.answered.length]).length = l.requester.sent
          rw [hrest, length_append, length_singleton, responsesIn]
          omega
      exact hsettledLink.maybeFireReady

theorem account_step {e : AnswerEvent} (hok : l.Answerable e) :
    Account (step onHandshake l e) ∧ Fired (step onHandshake l e).requester := by
  cases e with
  | subscribe d =>
    obtain ⟨hname, hroom⟩ := hok
    obtain ⟨cs, hcs, hasked, -⟩ := asked_engineSubscribe l.requester d
    have hremember : DemandRun.Spoke [] l.requester (l.requester.rememberDemand d) :=
      .silent rfl rfl rfl rfl rfl
    have hspoke : DemandRun.Spoke cs l.requester (l.requester.engineSubscribe d) :=
      hremember.trans hasked.toSpoke
    have hsendable : ∀ c ∈ cs, Sendable c := by
      intro c hmem
      rcases hcs with rfl | rfl
      · exact absurd hmem not_mem_nil
      · exact .inl ⟨d, hname, mem_singleton.mp hmem⟩
    have hone : subscribes cs ≤ 1 := by
      rcases hcs with rfl | rfl
      · exact Nat.zero_le 1
      · exact (subscribes_map_subscribeOf [d]).le
    have hafter := h.spoke hspoke hsendable (by omega)
    exact ⟨hafter, hfired.spoke hspoke h.balanced hafter.balanced⟩
  | unsubscribe fqn =>
    obtain ⟨cs, hcs, hasked⟩ := asked_engineUnsubscribe l.requester fqn
    have hforget : DemandRun.Spoke [] l.requester (l.requester.forgetRememberedDemand fqn) :=
      .silent rfl rfl rfl rfl rfl
    have hspoke : DemandRun.Spoke cs l.requester (l.requester.engineUnsubscribe fqn) :=
      hforget.trans hasked.toSpoke
    have hsendable : ∀ c ∈ cs, Sendable c := by
      intro c hmem
      rcases hcs with rfl | rfl
      · exact absurd hmem not_mem_nil
      · exact .inr ⟨fqn, mem_singleton.mp hmem⟩
    have hnone : subscribes cs = 0 := by
      rcases hcs with rfl | rfl
      · rfl
      · exact subscribes_unsubscribeOf fqn
    have hafter := h.spoke hspoke hsendable (by rw [hnone]; exact h.balanced.room)
    exact ⟨hafter, hfired.spoke hspoke h.balanced hafter.balanced⟩
  | deliver =>
    refine ⟨h.deliver onHandshake hok, ?_⟩
    unfold step
    dsimp only
    split
    · exact hfired
    · exact hfired
  | reply => exact h.reply onHandshake hfired

end

theorem account_start (hinv : DemandRun.Inv r)
    (hopen : r.state.session.forwardersInstalled = false) (ch : Channel)
    {responder : SessionState} (hresponds : responder.Responds)
    (hnames : ∀ d ∈ r.demands, d.fqn.length ≤ kMaxFqn) (htopics : r.demands.length < 65536) :
    Account (start r ch responder) ∧ Fired (start r ch responder).requester := by
  have hinstalled : Account { start r ch responder with requester := r.installed ch } := by
    refine ⟨rfl, rfl, ⟨rfl, nodup_nil, ?_⟩, ?_, ?_, le_rfl, le_rfl, hresponds, ?_⟩
    · exact forall_mem_nil _
    · exact forall_mem_nil _
    · intro frame hmem
      have hnone : frame ∈ (r.state.world.sentTo ch).drop (r.state.world.sentTo ch).length := hmem
      rw [drop_length] at hnone
      exact absurd hnone not_mem_nil
    · show asks ((r.state.world.sentTo ch).drop (r.state.world.sentTo ch).length) +
        (responsesIn ((responder.world.sentTo responder.peer.channel).drop
          (responder.world.sentTo responder.peer.channel).length)).length + 0 = 0
      rw [drop_length, drop_length]
      rfl
  have hasked := asked_resubscribeAll hinv hopen ch
  have hsendable : ∀ c ∈ r.demands.map subscribeOf, Sendable c := by
    intro c hmem
    obtain ⟨d, hd, rfl⟩ := mem_map.mp hmem
    exact .inl ⟨d, hnames d hd, rfl⟩
  have hafter := hinstalled.spoke hasked.toSpoke hsendable (by
    rw [subscribes_map_subscribeOf]
    show 0 + r.demands.length < 0 + 65536
    omega)
  have hstart : start r ch responder =
      { start r ch responder with requester := (r.installed ch).resubscribeAll.maybeFireReady } := by
    unfold start onComplete
    rw [if_neg (by rw [hopen]; exact Bool.false_ne_true)]
  rw [hstart]
  refine ⟨hafter.maybeFireReady, fired_maybeFireReady ?_⟩
  intro hlatched
  exact absurd (hasked.latched.symm.trans hlatched) Bool.false_ne_true

/-- **Which subscribes are answered.** A session that receives any row of subscribe and unsubscribe
frames answers every request with exactly one response for its topic if and only if each of them is
refused or finds its name uncounted. And where the requests of a cycle are of that kind, with fewer
than 65536 answers missing at any time, the requester's count is zero and its ready edge has fired
once everything that was sent has been delivered and answered. -/
theorem subscribes_answered (onHandshake : HandshakeHandler) :
    (∀ (s : SessionState) (frames : List Bytes), s.Responds → (∀ frame ∈ frames, Control frame) →
      (Guarded (SessionState.onReceive onHandshake) (SessionState.Answered onHandshake) s frames ↔
        Guarded (SessionState.onReceive onHandshake) SessionState.Answerable s frames)) ∧
      ∀ (s : SessionState) (history : List DemandEvent) (ch : Channel) (responder : SessionState)
        (es : List AnswerEvent),
        let r := DemandRun.run s history
        let l := es.foldl (step onHandshake) (start r ch responder)
        DemandRun.Fresh s → r.state.session.forwardersInstalled = false →
        (∀ d ∈ r.demands, d.fqn.length ≤ kMaxFqn) → r.demands.length < 65536 →
        responder.Responds → Guarded (step onHandshake) Answerable (start r ch responder) es →
        l.requests = [] → l.replies = [] →
        l.requester.state.session.outstandingSubscribes = 0 ∧
          Pending DemandMark.IsReady DemandMark.IsCompleted l.requester.marks := by
  refine ⟨fun s frames hs hframes => SessionState.answered_iff_answerable onHandshake hs hframes, ?_⟩
  intro s history ch responder es r l hfresh hopen hnames htopics hresponds hes hrequests hreplies
  have hrun := hes.invariant (fun l => Account l ∧ Fired l.requester)
    (fun l e h hok => account_step onHandshake h.1 h.2 hok)
    (account_start (DemandRun.inv_run hfresh history) hopen ch hresponds hnames htopics)
  obtain ⟨haccount, hfired⟩ : Account l ∧ Fired l.requester := hrun
  -- nothing is on its way, so what is answered is what was sent
  have hall := haccount.account
  rw [hrequests, hreplies] at hall
  have hanswered : l.requester.answered.length = l.requester.sent := (zero_add _).symm.trans hall
  have hbalance := haccount.balanced.balance
  have hzero : l.requester.state.session.outstandingSubscribes = 0 := by
    apply UInt16.toNat_inj.mp
    show l.requester.state.session.outstandingSubscribes.toNat = 0
    omega
  exact ⟨hzero, hfired.fired (hfired.latch hzero)⟩

/-! ## Three cycles -/

/-- A handshake with topic B remembered. -/
def askingB (responder : SessionState) : AnswerLink :=
  start (run strangerPeer [.subscribe topicB]) (tcpChannel 1) responder

def noHandshake (s : SessionState) (_ : MsgType) (_ : Bytes) : SessionState := s

theorem responds_strangerPeer : strangerPeer.Responds := ⟨rfl, fun _ _ h => nomatch h⟩

theorem subscribes_answered_stranger :
    ([AnswerEvent.deliver, .deliver, .reply, .reply].foldl (step noHandshake)
      (start (run strangerPeer [.subscribe topicA, .subscribe topicB]) (tcpChannel 1)
        strangerPeer)).requester.state.session.outstandingSubscribes = 0 :=
  ((subscribes_answered noHandshake).2 strangerPeer [.subscribe topicA, .subscribe topicB]
    (tcpChannel 1) strangerPeer [.deliver, .deliver, .reply, .reply] fresh_strangerPeer
    (by decide +kernel) (by decide +kernel) (by decide +kernel) responds_strangerPeer
    (by decide +kernel) (by decide +kernel) (by decide +kernel)).1

/-- Topic B is dropped and asked for again. -/
def askedTwice : AnswerLink :=
  [AnswerEvent.unsubscribe topicB.fqn, .subscribe topicB, .deliver, .deliver,
    .deliver, .reply].foldl (step noHandshake) (askingB strangerPeer)

/-- A responder that has asked for topic B itself, at this requester. -/
def mutualPeer : SessionState :=
  { strangerPeer with
    messages := (strangerPeer.messages.attach strangerPeer.world
      strangerPeer.peer topicB.fqn {} none).2.1 }

def askedMutually : AnswerLink := [AnswerEvent.deliver].foldl (step noHandshake) (askingB mutualPeer)

/-- Of two subscribes for one topic one has an answer; the only subscribe of a requester that is
itself asked for the same topic has none. Neither is ever ready. -/
theorem counted_subscribe_unanswered :
    (askedTwice.requests = [] ∧ askedTwice.replies = [] ∧ askedTwice.requester.sent = 2 ∧
        askedTwice.requester.answered = [0] ∧
        askedTwice.requester.state.session.outstandingSubscribes = 1 ∧
        askedTwice.requester.marks = [.completed]) ∧
      askedMutually.requests = [] ∧ askedMutually.replies = [] ∧ askedMutually.requester.sent = 1 ∧
        askedMutually.requester.answered = [] ∧ askedMutually.requester.marks = [.completed] := by
  decide +kernel

end AnswerLink

end Plexus.Io
