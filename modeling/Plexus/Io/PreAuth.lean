/-
# Plexus.Io.PreAuth — what a frame can do before the handshake has completed.

`m_forwarders_installed` says that a session has passed its handshake and its attach policy. The
consumers are registered at `start()`, long before, and none of them asks for it.
`no_effect_before_completion_iff`: a run shows no application effect before completion exactly when
every frame received until then cannot be decoded, is refused, or finds nothing on the node.
-/
import Plexus.Io.PeerSession
import Plexus.Lib.Run

namespace Plexus.Io

open Wire Lib MessageForwarder

namespace SessionState

/-- **No application effect**: registries and refcounts are what they were, nothing retained was
sent to the channel, no provider and no message callback was called. -/
structure Quiet (s s' : SessionState) : Prop where
  messages : s'.messages.registry = s.messages.registry
  procedures : s'.procedures.registry = s.procedures.registry
  replayed : s'.replayed = s.replayed
  handled : s'.handled = s.handled
  delivered : s'.delivered = s.delivered

variable (s : SessionState)

theorem Quiet.refl : Quiet s s := ⟨rfl, rfl, rfl, rfl, rfl⟩

/-- A message nobody is bound to, or of a topic the registry does not know. -/
def Unheard (s : SessionState) (hdr : FrameHeader) (inner : Bytes) : Prop :=
  s.session.seam = none ∨
    ∀ d, decodeUnidirectional inner (hdr.flags &&& kFlagSourceIdentity ≠ 0) = some d →
      s.messages.registry.fqnFor d.header.topicHash = []

/-- A request the fan-out refuses, or none at all. -/
def Refuses (s : SessionState) (inner : Bytes) : Prop :=
  ∀ req, decodeSubscribeRequest inner = some req →
    ∃ status, s.messages.fanoutVerdict (fqnTopicHash req.fqn) (requestTypeId req)
      (requestQos req) = .error status

/-- The payloads that have no effect on a session that routes them. -/
def Ineffective (s : SessionState) (hdr : FrameHeader) (inner : Bytes) : Prop :=
  if hdr.type = MsgType.unidirectional then s.Unheard hdr inner
  else if hdr.type = MsgType.subscribe then s.Refuses inner
  else if hdr.type = MsgType.fetchLatched then
    ∀ req, decodeFetchLatchedRequest inner = some req →
      s.messages.history req.topicHash = none ∨ req.maxSamples = 0
  else if hdr.type = MsgType.rpcRequest then
    ∀ d, decodeRpcRequest inner = some d → s.procedures.hashToFqn d.header.topicHash = none
  else True

/-! ## One consumer after the other -/

variable (hdr : FrameHeader)

theorem quiet_onUnidirectional_iff (inner : Bytes) :
    Quiet s (s.onUnidirectional hdr inner) ↔ s.Unheard hdr inner := by
  unfold onUnidirectional deliver Unheard
  cases hseam : s.session.seam with
  | none => exact ⟨fun _ => .inl rfl, fun _ => Quiet.refl s⟩
  | some seam =>
    cases hdec : decodeUnidirectional inner (decide (hdr.flags &&& kFlagSourceIdentity ≠ 0)) with
    | none => exact ⟨fun _ => .inr fun _ hd => (nomatch hd), fun _ => Quiet.refl s⟩
    | some d =>
      by_cases hfqn : s.messages.registry.fqnFor d.header.topicHash = []
      · simp only [hfqn, List.isEmpty_nil, if_true]
        refine ⟨fun _ => .inr fun d' hd' => ?_, fun _ => Quiet.refl s⟩
        obtain rfl := Option.some.inj hd'
        exact hfqn
      have hempty : (s.messages.registry.fqnFor d.header.topicHash).isEmpty = false := by
        simpa using hfqn
      simp only [hempty]
      constructor
      · intro h
        exact absurd h.delivered (by simp)
      · rintro (hnone | hunknown)
        · cases hnone
        · exact absurd (hunknown d rfl) hfqn

theorem registry_attachForFanout_ne {f : MessageForwarder} {p : Peer} {fqn : Text}
    {typeId : Option UInt64} {qos : SubscriberQos} {resp : SubscribeResponse}
    (h : f.fanoutVerdict (fqnTopicHash fqn) typeId qos = .ok resp) (w : World) :
    (f.attachForFanout w p fqn typeId qos).2.1.registry ≠ f.registry := by
  intro heq
  have hcount : (f.attachForFanout w p fqn typeId qos).2.1.registry.refcount.counts p.nodeName fqn =
      some ((f.registry.refcount.counts p.nodeName fqn).getD 0 + 1) := by
    rw [refcount_attachForFanout h, KeyedRefcount.counts_bump, if_pos rfl]
  rw [heq] at hcount
  cases hold : f.registry.refcount.counts p.nodeName fqn with
  | none | some v => simp [hold] at hcount

variable (inner : Bytes)

theorem quiet_onSubscribe_iff : Quiet s (s.onSubscribe inner) ↔ s.Refuses inner := by
  unfold onSubscribe Refuses
  cases hdec : decodeSubscribeRequest inner with
  | none => exact ⟨fun _ _ hreq => (nomatch hreq), fun _ => Quiet.refl s⟩
  | some req =>
    cases hverdict : s.messages.fanoutVerdict (fqnTopicHash req.fqn) (requestTypeId req)
      (requestQos req) with
    | error status =>
      simp only [attachForFanout, hverdict]
      refine ⟨fun _ req' hreq' => ?_, fun _ => ⟨rfl, rfl, by simp, rfl, rfl⟩⟩
      obtain rfl := Option.some.inj hreq'
      exact ⟨status, hverdict⟩
    | ok resp =>
      constructor
      · intro h
        exact absurd h.messages (registry_attachForFanout_ne hverdict s.world)
      intro h
      obtain ⟨status, herror⟩ := h req rfl
      rw [hverdict] at herror
      cases herror

theorem fetched_eq_nil_iff (f : MessageForwarder) (hash : UInt64) (maxSamples : UInt32) :
    fetched f hash maxSamples = [] ↔ f.history hash = none ∨ maxSamples = 0 := by
  unfold fetched
  cases hring : f.history hash with
  | none => simp
  | some ring =>
    -- a ring that `history` returns is not empty
    have hcount : ring.count ≠ 0 := by
      have := (Option.filter_eq_some_iff.mp hring).2
      simpa [HistoryRing.empty] using this
    simp only [replayWindow, List.map_eq_nil_iff, List.range'_eq_nil_iff,
      reduceCtorEq, false_or, kFetchCap]
    constructor
    · intro hzero
      have : maxSamples.toNat = 0 := by omega
      exact UInt32.toNat_inj.mp (by simpa using this)
    · rintro rfl
      simp

theorem quiet_onFetchLatched_iff :
    Quiet s (s.onFetchLatched inner) ↔
      ∀ req, decodeFetchLatchedRequest inner = some req →
        s.messages.history req.topicHash = none ∨ req.maxSamples = 0 := by
  unfold onFetchLatched
  cases hdec : decodeFetchLatchedRequest inner with
  | none => exact ⟨fun _ _ hreq => (nomatch hreq), fun _ => Quiet.refl s⟩
  | some req =>
    have hiff := fetched_eq_nil_iff s.messages req.topicHash req.maxSamples
    constructor
    · intro h req' hreq'
      obtain rfl := Option.some.inj hreq'
      exact hiff.mp (by simpa using h.replayed)
    · intro h
      have hnil := hiff.mpr (h req rfl)
      exact ⟨rfl, rfl, by simp [hnil], rfl, rfl⟩

theorem quiet_onRpcRequest_iff :
    Quiet s (s.onRpcRequest inner) ↔
      ∀ d, decodeRpcRequest inner = some d →
        s.procedures.hashToFqn d.header.topicHash = none := by
  unfold onRpcRequest ProcedureForwarder.deliverRequest
  cases hdec : decodeRpcRequest inner with
  | none => exact ⟨fun _ _ hd => (nomatch hd), fun _ => ⟨rfl, rfl, rfl, by simp, rfl⟩⟩
  | some d =>
    cases hserved : s.procedures.hashToFqn d.header.topicHash with
    | none =>
      simp only [hserved]
      refine ⟨fun _ d' hd' => ?_, fun _ => ⟨rfl, rfl, rfl, by simp, rfl⟩⟩
      obtain rfl := Option.some.inj hd'
      exact hserved
    | some fqn =>
      simp only [hserved]
      constructor
      · intro h
        exact absurd h.handled (by simp)
      intro h
      have hnone := h d rfl
      rw [hserved] at hnone
      cases hnone

/-! ## One frame -/

@[simp] theorem seam_latchEpoch : (s.latchEpoch hdr).session.seam = s.session.seam := by
  unfold latchEpoch
  split <;> rfl

theorem quiet_latchEpoch : Quiet s (s.latchEpoch hdr) := by
  unfold latchEpoch
  split
  · exact ⟨rfl, rfl, rfl, rfl, rfl⟩
  · exact Quiet.refl s

theorem quiet_latchEpoch_iff (s' : SessionState) : Quiet (s.latchEpoch hdr) s' ↔ Quiet s s' := by
  have h := quiet_latchEpoch s hdr
  constructor
  · rintro ⟨hm, hp, hr, hh, hd⟩
    exact ⟨hm.trans h.messages, hp.trans h.procedures, hr.trans h.replayed, hh.trans h.handled,
      hd.trans h.delivered⟩
  · rintro ⟨hm, hp, hr, hh, hd⟩
    exact ⟨hm.trans h.messages.symm, hp.trans h.procedures.symm, hr.trans h.replayed.symm,
      hh.trans h.handled.symm, hd.trans h.delivered.symm⟩

theorem ineffective_latchEpoch (inner : Bytes) :
    (s.latchEpoch hdr).Ineffective hdr inner ↔ s.Ineffective hdr inner := by
  have hmessages : (s.latchEpoch hdr).messages = s.messages := by
    unfold latchEpoch
    split <;> rfl
  have hprocedures : (s.latchEpoch hdr).procedures = s.procedures := by
    unfold latchEpoch
    split <;> rfl
  simp only [Ineffective, Unheard, Refuses, seam_latchEpoch, hmessages, hprocedures]

theorem quiet_onSubscribeResponse : Quiet s (s.onSubscribeResponse inner) := by
  unfold onSubscribeResponse
  split
  · exact Quiet.refl s
  · split
    · exact Quiet.refl s
    · exact ⟨rfl, rfl, rfl, rfl, rfl⟩

theorem quiet_onRpcResponse : Quiet s (s.onRpcResponse inner) := by
  have hregistry : (s.procedures.deliverResponse s.peer inner).2.registry =
      s.procedures.registry := by
    unfold ProcedureForwarder.deliverResponse ProcedureForwarder.resolve
    split
    · rfl
    · split <;> rename_i hresolve <;> split at hresolve <;> cases hresolve <;> rfl
  exact ⟨rfl, hregistry, rfl, rfl, rfl⟩

section Receive

variable (onHandshake : HandshakeHandler)

theorem quiet_dispatch_iff {hdr : FrameHeader} (happ : isHandshake hdr.type = false)
    (inner : Bytes) :
    Quiet s (dispatch onHandshake s hdr inner) ↔ s.Ineffective hdr inner := by
  -- the two sides branch on the types in the same order, with the two responses in between
  unfold dispatch Ineffective
  rw [happ, if_neg Bool.false_ne_true]
  by_cases huni : hdr.type = .unidirectional
  · simp only [if_pos huni]
    exact quiet_onUnidirectional_iff s hdr inner
  by_cases hsub : hdr.type = .subscribe
  · simp only [if_neg huni, if_pos hsub]
    exact quiet_onSubscribe_iff s inner
  by_cases hfetch : hdr.type = .fetchLatched
  · simp only [if_neg huni, if_neg hsub, if_pos hfetch]
    exact quiet_onFetchLatched_iff s inner
  simp only [if_neg huni, if_neg hsub, if_neg hfetch]
  by_cases hresp : hdr.type = .subscribeResponse
  · have hreq : hdr.type ≠ .rpcRequest := by
      rw [hresp]
      decide
    simp only [if_pos hresp, if_neg hreq, iff_true]
    exact quiet_onSubscribeResponse s inner
  by_cases hreq : hdr.type = .rpcRequest
  · simp only [if_neg hresp, if_pos hreq]
    exact quiet_onRpcRequest_iff s inner
  simp only [if_neg hresp, if_neg hreq, iff_true]
  split
  · exact quiet_onRpcResponse s inner
  · exact Quiet.refl s

/-- A frame before completion that can be decoded and is not one of the two handshake frames. -/
def Premature (s : SessionState) (frame : Bytes) (hdr : FrameHeader) : Prop :=
  s.session.forwardersInstalled = false ∧ decodeHeader frame = some hdr ∧
    isHandshake hdr.type = false

/-- The gate the flag suggests: a premature frame has no application effect. -/
def Gated (s : SessionState) (frame : Bytes) : Prop :=
  ∀ hdr, Premature s frame hdr → Quiet s (onReceive onHandshake s frame)

/-- A premature frame is dropped by the session or ignored by its consumer. -/
def Harmless (s : SessionState) (frame : Bytes) : Prop :=
  ∀ hdr, Premature s frame hdr →
    s.session.tornDown = true ∨ s.stale hdr = true ∨ s.Ineffective hdr (frame.drop headerSize)

theorem gated_iff_harmless (frame : Bytes) : Gated onHandshake s frame ↔ Harmless s frame := by
  refine forall_congr' fun hdr => forall_congr' fun hpre => ?_
  obtain ⟨_, hdec, happ⟩ := hpre
  unfold onReceive
  cases htorn : s.session.tornDown with
  | true => exact ⟨fun _ => .inl rfl, fun _ => Quiet.refl s⟩
  | false =>
    simp only [hdec, Bool.false_eq_true, false_or]
    cases hstale : s.stale hdr with
    | true => exact ⟨fun _ => .inl rfl, fun _ => Quiet.refl s⟩
    | false =>
      simp only [Bool.false_eq_true, if_false, false_or]
      rw [← quiet_latchEpoch_iff s hdr, quiet_dispatch_iff _ onHandshake happ,
        ineffective_latchEpoch]

/-! ## Runs -/

/-- **No application effect before completion**, over every sequence of frames, from every state
and for every handshake machine: exactly the runs whose premature frames are all harmless show
none. -/
theorem no_effect_before_completion_iff (s : SessionState) (frames : List Bytes) :
    Guarded (onReceive onHandshake) (Gated onHandshake) s frames ↔
      Guarded (onReceive onHandshake) Harmless s frames := by
  constructor
  · intro h
    exact h.mono fun s frame => (gated_iff_harmless s onHandshake frame).mp
  · intro h
    exact h.mono fun s frame => (gated_iff_harmless s onHandshake frame).mpr

end Receive

/-! ## A stranger on the channel -/

/-- A node that latches topic `a` and serves procedure `b`, and an inbound session nobody has shown
a handshake to. -/
def strangerState : Option SessionState := do
  let channel : Channel := { key := 1, scheme := [0x74, 0x63, 0x70], polls := true, lowWater := 1 }
  let world : World := { readings := fun _ => 0, clock := fun _ => 0, sent := [] }
  let declared := declare {} [0x61] { latch := true } none false
  let (messages, world) ← declared.publish world [0x61] [7] 0
  return {
    session := { peer := { channel, nodeName := [] }, onMessageRoute := true }
    messages, world
    procedures := ProcedureForwarder.serve {} [0x62] }

/-- What the stranger sends: a subscribe to `a`, a request to `b`, and a message on `a`. -/
def strangerFrames : List Bytes :=
  [ controlFrame MsgType.subscribe 0 (encodeSubscribeRequest
      (subscribeRequest [0x61] none { durabilityMode := Durability.all })),
    controlFrame MsgType.rpcRequest 0 (encodeRpcRequest
      { source := EndpointSourceType.caller, sequence := 0, topicHash := fqnTopicHash [0x62],
        typeHash1 := 0, typeHash2 := 0, correlationId := 1 } [8]),
    controlFrame MsgType.unidirectional 0 (encodeUnidirectional
      { source := EndpointSourceType.publisher, sequence := 0, topicHash := fqnTopicHash [0x61] }
      [9] none) ]

/-- Without a handshake frame the retained value of `a` goes out, and the callbacks of `a` and `b`
are called. -/
theorem stranger_reaches_application :
    ∃ s, strangerState = some s ∧
      ¬ Guarded (onReceive fun s _ _ => s) (Gated fun s _ _ => s) s strangerFrames ∧
      ∃ s', strangerFrames.foldl (onReceive fun s _ _ => s) s = s' ∧
        s'.session.forwardersInstalled = false ∧ s'.replayed.length = 1 ∧
        s'.handled = [([0x62], [8])] ∧ s'.delivered = [(.route, [0x61], [9])] := by
  refine ⟨_, rfl, ?_, _, rfl, by decide +kernel, by decide +kernel, by decide +kernel,
    by decide +kernel⟩
  rintro ⟨hgated, _⟩
  -- the subscribe alone replays
  have hquiet := hgated _ ⟨by decide +kernel, rfl, by decide +kernel⟩
  exact absurd hquiet.replayed (by decide +kernel)

end SessionState

end Plexus.Io
