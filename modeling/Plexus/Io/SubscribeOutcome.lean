/-
# Plexus.Io.SubscribeOutcome — does the subscriber hear of a refusal?

The publisher's gate (`io/detail/forwarder_fanout.h`) refuses a subscribe for one of four reasons
and says which. The subscriber's session (`io/detail/peer_session_complete.h`) has its own list of
refusals, and `type_undeclared` is not on it. So the two agree on every request but a strict, typed
one for a topic without a declared type: it is refused, and nothing is surfaced.
-/
import Plexus.Io.SubscribeAnswers

namespace Plexus.Io

open Wire MessageForwarder List

/-- What the subscriber's application is told. -/
inductive SubscribeOutcome where
  | refused (topicHash : UInt64) (status : SubscribeStatus)
  | degraded (topicHash : UInt64) (flags : UInt8)
  deriving DecidableEq

/-- `is_refusal`: the statuses the subscriber takes for a refusal. -/
def isRefusal (status : SubscribeStatus) : Bool :=
  status = .typeMismatch || status = .incompatibleQos || status = .sourceIdentityIncompatible

/-- `surface_subscribe_outcome`, with both callbacks set. -/
def surfaceSubscribeOutcome (resp : SubscribeResponse) : Option SubscribeOutcome :=
  if isRefusal resp.status then some (.refused resp.topicHash resp.status)
  else if resp.status = .subscribedDegraded then
    some (.degraded resp.topicHash (resp.degradedFlags.getD 0))
  else none

namespace SessionState

/-- The callback that `on_subscribe_response_received` makes. -/
def outcomeOf (s : SessionState) (inner : Bytes) : Option SubscribeOutcome :=
  match decodeSubscribeResponse inner with
  | none => none
  | some resp =>
    if s.session.outstandingSubscribes = 0 then none else surfaceSubscribeOutcome resp

/-- The gate's verdict on a subscriber's request, by the type and the QoS it was made with. -/
def verdictOn (pub : SessionState) (fqn : Text) (typeId : Option UInt64) (qos : SubscriberQos) :
    Except SubscribeStatus SubscribeResponse :=
  pub.messages.fanoutVerdict (fqnTopicHash fqn) (requestTypeId (subscribeRequest fqn typeId qos)) qos

/-- The publisher when the request has come. -/
def answering (pub : SessionState) (fqn : Text) (typeId : Option UInt64) (qos : SubscriberQos) :
    SessionState :=
  pub.onSubscribe (encodeSubscribeRequest (subscribeRequest fqn typeId qos))

variable {pub : SessionState} {fqn : Text} {typeId : Option UInt64} {qos : SubscriberQos}

/-- A default QoS is not sent, and an absent one is read as the default. -/
theorem requestQos_subscribeRequest :
    requestQos (subscribeRequest fqn typeId qos) = qos.received := by
  unfold requestQos subscribeRequest
  by_cases hdefault : qos = {}
  · rw [if_pos hdefault, hdefault]
    rfl
  · rw [if_neg hdefault]
    exact fromWireRegion_toWireRegion qos

section

variable (f : MessageForwarder) (hash : UInt64) (id : Option UInt64)
include hash

/-- Nothing the gate reads is lost on the way. -/
theorem fanoutVerdict_requestQos :
    f.fanoutVerdict hash id (requestQos (subscribeRequest fqn typeId qos)) =
      f.fanoutVerdict hash id qos := by
  rw [requestQos_subscribeRequest]
  rfl

/-- The gate's four reasons, and its two ways to accept. -/
theorem verdict_cases (qos : SubscriberQos) : match f.fanoutVerdict hash id qos with
    | .error status => isRefusal status = true ∨ status = .typeUndeclared
    | .ok resp => resp = ⟨hash, .subscribed, none⟩ ∨
        ∃ flags, resp = ⟨hash, .subscribedDegraded, some flags⟩ := by
  unfold fanoutVerdict
  split_ifs
  · exact .inl rfl
  · exact .inr rfl
  dsimp only
  cases (rxoCheck _ _ _ qos).verdict with
  | compatible | incompatibleQos | sourceIdentityIncompatible => exact .inl rfl
  | degraded => exact .inr ⟨_, rfl⟩

end

/-- The refusal that is on the publisher's list only: a strict request with a type, for a topic
without one. -/
theorem verdictOn_undeclared_iff :
    pub.verdictOn fqn typeId qos = .error .typeUndeclared ↔
      qos.posture = .strict ∧ typeHashOf typeId ≠ 0 ∧
        pub.messages.registry.producerTypeId (fqnTopicHash fqn) = none := by
  have htyped : (requestTypeId (subscribeRequest fqn typeId qos)).isSome = true ↔
      typeHashOf typeId ≠ 0 := by
    by_cases hzero : typeHashOf typeId = 0 <;> simp [requestTypeId, subscribeRequest, hzero]
  rw [← htyped, ← Option.isNone_iff_eq_none]
  unfold verdictOn fanoutVerdict
  split_ifs with hmismatch hundeclared
  · refine iff_of_false (by decide) fun hrhs => ?_
    simp [typeIdMismatch, Option.isNone_iff_eq_none.mp hrhs.2.2] at hmismatch
  · exact iff_of_true rfl hundeclared
  · refine iff_of_false ?_ hundeclared
    dsimp only
    split <;> simp [statusOf, SubscribeStatus.incompatibleQos, SubscribeStatus.typeUndeclared,
      SubscribeStatus.sourceIdentityIncompatible]

theorem sent_replayIfLatched (f : MessageForwarder) (w : World) (p : Peer) (hash : UInt64) :
    w.sent <+: (f.replayIfLatched w p hash).sent := by
  unfold replayIfLatched
  split
  · exact prefix_rfl
  split
  · exact prefix_rfl
  · rw [sent_sendAll]
    exact prefix_append _ _

/-- The first frame in return is a refusal, and nothing has changed, or an accept, and the
subscriber is entered. -/
theorem answering_cases (hname : fqn.length ≤ kMaxFqn) {frame : Bytes}
    {rest : List (Channel × Bytes)}
    (hsent : (pub.answering fqn typeId qos).world.sent =
      pub.world.sent ++ (pub.peer.channel, frame) :: rest) :
    ∃ resp stamp, frame = controlFrame .subscribeResponse stamp (encodeSubscribeResponse resp) ∧
      ((∃ status, pub.verdictOn fqn typeId qos = .error status ∧
          resp = ⟨fqnTopicHash fqn, status, none⟩ ∧
          (pub.answering fqn typeId qos).messages = pub.messages) ∨
        pub.verdictOn fqn typeId qos = .ok resp ∧
          ((pub.answering fqn typeId qos).messages.registry.entryAt (fqnTopicHash fqn)).subscribed
            pub.peer.channel = true) := by
  have hread : decodeSubscribeRequest (encodeSubscribeRequest (subscribeRequest fqn typeId qos)) =
      some (subscribeRequest fqn typeId qos) := decodeSubscribeRequest_encode hname (Nat.zero_le _)
  have hfqn : (subscribeRequest fqn typeId qos).fqn = fqn := rfl
  unfold answering onSubscribe attachForFanout at hsent ⊢
  unfold verdictOn
  simp only [hread, hfqn, fanoutVerdict_requestQos] at hsent ⊢
  cases hverdict : pub.messages.fanoutVerdict (fqnTopicHash fqn)
    (requestTypeId (subscribeRequest fqn typeId qos)) qos with
  | error status =>
    simp only [hverdict] at hsent ⊢
    have hfirst := head_eq_of_cons_eq (append_cancel_left hsent)
    exact ⟨_, _, (Prod.mk.inj hfirst).2.symm, .inl ⟨status, rfl, rfl, trivial⟩⟩
  | ok resp =>
    simp only [hverdict] at hsent ⊢
    split at hsent
    · -- counted already: nothing is sent
      exact absurd (append_right_eq_self.mp hsent.symm) (cons_ne_nil _ _)
    rename_i hfirst
    obtain ⟨more, hmore⟩ := sent_replayIfLatched _ (sendControl pub.world pub.peer.channel
      .subscribeResponse (encodeSubscribeResponse resp)) pub.peer (fqnTopicHash fqn)
    rw [← hmore] at hsent
    have hframe := head_eq_of_cons_eq (append_cancel_left ((append_assoc _ _ _).symm.trans hsent))
    refine ⟨resp, _, (Prod.mk.inj hframe).2.symm, .inr ⟨rfl, ?_⟩⟩
    rw [if_neg hfirst]
    show ((SubscriberRegistry.addSubscriber _ _ _ _ _ _ _).entryAt _).subscribed _ = true
    rw [SubscriberRegistry.entryAt_addSubscriber, if_pos rfl, TopicEntry.subscribed_addSubscriber]
    simp

/-- **When subscriber and publisher agree.** A request has come to the publisher, and the first frame
it sent in return to the subscriber that waits for it. The subscriber hears of a degraded accept exactly
when it was entered with one. It hears of a refusal, with the reason, exactly when it was refused and
not entered, unless it asks strictly for a type and the publisher has declared none. The name is one
the decoder takes: the length of a longer one may wrap, and another name be read. -/
theorem outcome_agrees_iff (pub sub : SessionState) (fqn : Text) (typeId : Option UInt64)
    (qos : SubscriberQos) (frame : Bytes) (rest : List (Channel × Bytes))
    (hname : fqn.length ≤ kMaxFqn)
    (hsent : (pub.answering fqn typeId qos).world.sent =
      pub.world.sent ++ (pub.peer.channel, frame) :: rest)
    (hwaits : sub.session.outstandingSubscribes ≠ 0) :
    ((∀ hash status, sub.outcomeOf (frame.drop headerSize) = some (.refused hash status) ↔
        hash = fqnTopicHash fqn ∧ pub.verdictOn fqn typeId qos = .error status ∧
          (pub.answering fqn typeId qos).messages = pub.messages) ↔
      ¬ (qos.posture = .strict ∧ typeHashOf typeId ≠ 0 ∧
        pub.messages.registry.producerTypeId (fqnTopicHash fqn) = none)) ∧
    ∀ hash flags, sub.outcomeOf (frame.drop headerSize) = some (.degraded hash flags) ↔
      hash = fqnTopicHash fqn ∧
        pub.verdictOn fqn typeId qos = .ok ⟨hash, .subscribedDegraded, some flags⟩ ∧
        ((pub.answering fqn typeId qos).messages.registry.entryAt hash).subscribed
          pub.peer.channel = true := by
  rw [← verdictOn_undeclared_iff]
  obtain ⟨resp, stamp, rfl, hanswer⟩ := answering_cases hname hsent
  have hheard : sub.outcomeOf ((controlFrame .subscribeResponse stamp
      (encodeSubscribeResponse resp)).drop headerSize) = surfaceSubscribeOutcome resp := by
    rw [drop_controlFrame, outcomeOf, decodeSubscribeResponse_encode]
    exact if_neg hwaits
  have hcases := verdict_cases pub.messages (fqnTopicHash fqn)
    (requestTypeId (subscribeRequest fqn typeId qos)) qos
  rw [← verdictOn] at hcases
  rw [hheard]
  rcases hanswer with ⟨status, hverdict, rfl, hsame⟩ | ⟨hverdict, hentered⟩
  · rw [hverdict] at hcases ⊢
    rcases hcases with hrefusal | rfl
    · have hother : status ≠ .typeUndeclared := by
        rintro rfl
        cases hrefusal
      refine ⟨iff_of_true (fun hash other => ?_) (by simpa using hother), fun hash flags => ?_⟩
      · simp only [surfaceSubscribeOutcome]
        grind
      · simp [surfaceSubscribeOutcome, hrefusal]
    · -- refused, and not on the subscriber's list
      have hnone : surfaceSubscribeOutcome ⟨fqnTopicHash fqn, .typeUndeclared, none⟩ = none := rfl
      rw [hnone]
      refine ⟨iff_of_false (fun hagree => ?_) (fun hne => hne rfl), fun hash flags => by simp⟩
      cases (hagree (fqnTopicHash fqn) .typeUndeclared).mpr ⟨rfl, rfl, hsame⟩
  · rw [hverdict] at hcases ⊢
    rcases hcases with rfl | ⟨flags, rfl⟩
    · have hnone : surfaceSubscribeOutcome ⟨fqnTopicHash fqn, .subscribed, none⟩ = none := rfl
      rw [hnone]
      simp [SubscribeStatus.subscribed]
    · have hsome : surfaceSubscribeOutcome ⟨fqnTopicHash fqn, .subscribedDegraded, some flags⟩ =
          some (.degraded (fqnTopicHash fqn) flags) := rfl
      grind

/-- A publisher that has declared nothing, and a subscriber that waits for one response. -/
def bare : SessionState where
  session :=
    { peer := { channel := { key := 1, scheme := [], polls := true, lowWater := 0 }, nodeName := [] }
      outstandingSubscribes := 1 }
  world := World.quiet

/-- What `bare` answers on the topic `a`. -/
def bareAnswer (resp : SubscribeResponse) : Bytes :=
  controlFrame .subscribeResponse 0 (encodeSubscribeResponse resp)

/-- A reliable subscriber of a best-effort topic is entered, and told. -/
theorem outcome_agrees_degraded :
    let hash := fqnTopicHash [97]
    bare.outcomeOf ((bareAnswer ⟨hash, .subscribedDegraded, some 1⟩).drop headerSize) =
      some (.degraded hash 1) := by
  refine ((outcome_agrees_iff bare bare [97] none { requestedReliabilityReliable := true } _ []
    (by decide) ?_ (by decide)).2 _ 1).mpr ?_
  · decide +kernel
  · decide +kernel

/-- A strict subscriber with a type is refused by a publisher that has declared none, and hears
nothing. -/
theorem undeclared_refusal_unheard :
    let resp : SubscribeResponse := ⟨fqnTopicHash [97], .typeUndeclared, none⟩
    bare.verdictOn [97] (some 5) { posture := .strict } = .error .typeUndeclared ∧
      (bare.answering [97] (some 5) { posture := .strict }).world.sent =
        [(bare.peer.channel, bareAnswer resp)] ∧
      bare.outcomeOf ((bareAnswer resp).drop headerSize) = none := by
  refine ⟨rfl, ?_, ?_⟩
  · decide +kernel
  · decide +kernel

/-! ## What the publisher reads -/

/-- The fields of a request stand in the payload, a region of the QoS with its whole size. -/
structure ReadInside (payload : Bytes) (req : SubscribeRequest) : Prop where
  head : subscribeRequestMinSize ≤ payload.length ∧ req.topicHash = readU64 payload ∧
    req.typeHash = readU64 (payload.drop 8) ∧ req.source.byte = readU8 (payload.drop 16)
  fqn : req.fqn <:+: payload ∧ req.fqn.length ≤ kMaxFqn
  typeName : req.typeName <:+: payload
  qos : ∀ q, req.qos = some q →
    ∃ region, region <:+: payload ∧ region.length = kQosRegionSize ∧ q = qosRegionAt region

theorem infix_of_readLengthPrefixedU16 {data s : Bytes} {consumed next : Nat}
    (h : readLengthPrefixedU16 data consumed = some (s, next)) : s <:+: data := by
  simp only [readLengthPrefixedU16] at h
  split_ifs at h
  obtain ⟨rfl, -⟩ := Prod.mk.inj (Option.some.inj h)
  exact take_prefix _ _ |>.isInfix.trans (drop_suffix _ _).isInfix

theorem readInside_of_decode {payload : Bytes} {req : SubscribeRequest}
    (h : decodeSubscribeRequest payload = some req) : ReadInside payload req := by
  unfold decodeSubscribeRequest at h
  split at h
  · cases h
  rename_i hmin
  split at h
  · cases h
  rename_i fqn consumed hfqn
  split at h
  · cases h
  rename_i hlid
  split at h
  · cases h
  rename_i typeName next htype
  dsimp only at h
  have hhead := not_lt.mp hmin
  have hname : fqn <:+: payload ∧ fqn.length ≤ kMaxFqn :=
    ⟨infix_of_readLengthPrefixedU16 hfqn, not_lt.mp hlid⟩
  have htypeName := infix_of_readLengthPrefixedU16 htype
  split_ifs at h
  · cases hqos : readSubscribeQos payload next with
    | none => rw [hqos] at h; cases h
    | some q =>
      rw [hqos] at h
      obtain rfl := Option.some.inj h
      refine ⟨⟨hhead, rfl, rfl, rfl⟩, hname, htypeName, ?_⟩
      rintro _ ⟨⟩
      unfold readSubscribeQos at hqos
      split at hqos
      · cases hqos
      rename_i region _ hregion
      split_ifs at hqos with hsize
      refine ⟨region, infix_of_readLengthPrefixedU16 hregion, ?_, (Option.some.inj hqos).symm⟩
      by_contra hne
      exact hsize (.inl hne)
  · obtain rfl := Option.some.inj h
    exact ⟨⟨hhead, rfl, rfl, rfl⟩, hname, htypeName, nofun⟩

end SessionState

end Plexus.Io
