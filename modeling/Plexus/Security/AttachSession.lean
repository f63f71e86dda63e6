/-
# Plexus.Security.AttachSession — the handshake machine of a session and what it does with an
attach.

`io/handshake_fsm.h`, `io/handshake_protocol.h`, the two handshake consumers of
`io/detail/peer_session_consumers.h`, `io/detail/peer_session_complete.h` and
`io/detail/peer_session_handshake.h`. A handshake frame, decoded, fills the pending attach, passes
the posture check and goes through the machine, whose verdict is executed: send, complete or abort.

A session also keeps three logs: the inputs it has made proofs over, the transcripts it has hashed,
and its completions, each with the frame the pending attach was assembled from.
-/
import Plexus.Security.Attach

namespace Plexus.Security

open List

/-! ## `io/handshake_protocol.h` -/

inductive PeerFsmState
  | notConnected | dialing | handshaking | handshakeResolved
  deriving DecidableEq

inductive FsmAction
  | none | sendRequest | sendResponse | complete | retry | abort
  deriving DecidableEq

inductive HandshakeOutcome
  | none | acceptOutbound | acceptInbound | rejectVersion | rejectIdentity | rejectUnauthorized
  deriving DecidableEq

inductive DedupDecision
  | none | keepOutbound | keepInbound
  deriving DecidableEq

structure FsmStepResult where
  action : FsmAction := .none
  outcome : HandshakeOutcome := .none
  dedup : DedupDecision := .none
  deriving DecidableEq

/-! ## `io/handshake_fsm.h` -/

/-- The state machine of one handshake. -/
structure HandshakeFsm where
  peerId : NodeId := zeroed 16
  inboundPending : Bool := false
  state : PeerFsmState := .notConnected
  completeEmitted : Bool := false
  peerFingerprint : UInt64 := 0
  lastSeenTheirProtocolVersion : UInt8 := 0
  handshakeRetryRemaining : Nat := 0
  deriving DecidableEq

namespace HandshakeFsm

variable {π : Type} (cfg : AttachConfig π) (m : HandshakeFsm)

def onDialStarted : HandshakeFsm × FsmStepResult :=
  if m.state = .notConnected ∨ m.state = .dialing then ({ m with state := .dialing }, {}) else (m, {})

def onOutboundConnected : HandshakeFsm × FsmStepResult :=
  if m.state = .handshaking ∨ m.state = .handshakeResolved then (m, {})
  else ({ m with state := .handshaking }, { action := .sendRequest })

def abortResult (reason : HandshakeOutcome) : HandshakeFsm × FsmStepResult :=
  ({ m with state := .notConnected }, { action := .abort, outcome := reason })

/-- `validate`: the machine with the peer noted, and the reason to refuse if there is one. -/
def validate (frame : HandshakeRequest π) (facts : AttachFacts π) :
    HandshakeFsm × Option HandshakeOutcome :=
  let m := { m with peerId := frame.id, peerFingerprint := frame.fingerprint }
  if frame.protocolVersion ≠ kProtocolVersion then (m, some .rejectVersion)
  else if frame.id = cfg.selfId then (m, some .rejectIdentity)
  else
    match cfg.attachPolicy with
    | none => (m, none)
    | some policy => (m, if policy facts then none else some .rejectUnauthorized)

def isVersionCompatible (peerMajor peerMinor : UInt8) : Bool :=
  peerMajor > cfg.compatibleVersionMajor ||
    (peerMajor = cfg.compatibleVersionMajor && peerMinor ≥ cfg.compatibleVersionMinor)

/-- Greater node id keeps its outbound; ids compare byte by byte. -/
def arbitrateDedup : DedupDecision :=
  if m.peerId.toList < cfg.selfId.toList then .keepOutbound else .keepInbound

def racingOutbound : Bool :=
  m.state = .handshaking || m.state = .handshakeResolved

def completeInbound (dedup : DedupDecision) : HandshakeFsm × FsmStepResult :=
  ({ m with state := .handshakeResolved, completeEmitted := true },
    { action := .complete, outcome := .acceptInbound, dedup })

def resolveInbound : HandshakeFsm × FsmStepResult :=
  let m := { m with inboundPending := true }
  if m.racingOutbound then
    if m.completeEmitted then (m, { action := .sendResponse, outcome := .acceptInbound })
    else m.completeInbound (m.arbitrateDedup cfg)
  else if cfg.isInboundBootstrap then m.completeInbound .none
  else
    ({ m with state := .handshakeResolved }, { action := .sendResponse, outcome := .acceptInbound })

def resolveOutbound : HandshakeFsm × FsmStepResult :=
  if m.state ≠ .handshaking ∧ m.state ≠ .handshakeResolved then (m, {})
  else if m.completeEmitted then (m, {})
  else
    ({ m with state := .handshakeResolved, completeEmitted := true },
      { action := .complete, outcome := .acceptOutbound
        dedup := if m.inboundPending then m.arbitrateDedup cfg else .none })

def onRequest (req : HandshakeRequest π) (facts : AttachFacts π) : HandshakeFsm × FsmStepResult :=
  let m := { m with lastSeenTheirProtocolVersion := req.protocolVersion }
  match m.validate cfg req facts with
  | (m, some reason) => m.abortResult reason
  | (m, none) =>
    if !isVersionCompatible cfg req.versionMajor req.versionMinor then m.abortResult .rejectVersion
    else m.resolveInbound cfg

def onResponse (resp : HandshakeResponse π) (facts : AttachFacts π) :
    HandshakeFsm × FsmStepResult :=
  let m := { m with lastSeenTheirProtocolVersion := resp.protocolVersion }
  match m.validate cfg resp.toHandshakeRequest facts with
  | (m, some reason) => m.abortResult reason
  | (m, none) =>
    if resp.status = .identityConflict then m.abortResult .rejectIdentity
    else if resp.status ≠ .accepted then m.abortResult .rejectVersion
    else if !isVersionCompatible cfg resp.versionMajor resp.versionMinor then
      m.abortResult .rejectVersion
    else m.resolveOutbound cfg

def onTimeout : HandshakeFsm × FsmStepResult :=
  match m.state with
  | .handshaking =>
    if 0 < m.handshakeRetryRemaining then
      ({ m with handshakeRetryRemaining := m.handshakeRetryRemaining - 1 }, { action := .sendRequest })
    else ({ m with state := .notConnected }, { action := .abort })
  | .dialing => (m, { action := .retry })
  | _ => (m, {})

def onTornDown : HandshakeFsm :=
  { m with
    state := .notConnected, inboundPending := false, completeEmitted := false
    handshakeRetryRemaining := cfg.handshakeRetry }

end HandshakeFsm

/-! ## The session -/

/-- A completion of the machine: the frame and the attach assembled from it. -/
structure Completion (π : Type) where
  frame : HandshakeRequest π
  pending : PendingAttach π
  deriving DecidableEq

/-- A session: its handshake, and every message and completion of it. -/
structure AttachSession (π : Type) where
  fsm : HandshakeFsm
  pending : PendingAttach π
  identity : Option NodeId := none
  forwardersInstalled : Bool := false
  tornDown : Bool := false
  /-- What the install hook was called with. -/
  installed : List SecurityNegotiation := []
  requests : List (HandshakeRequest π) := []
  responses : List (HandshakeResponse π) := []
  completions : List (Completion π) := []
  proved : List Bytes := []
  hashed : List Bytes := []

/-- The verdict as the peer is told. -/
def statusFor : HandshakeOutcome → HandshakeStatus
  | .rejectVersion => .versionIncompatible
  | .rejectIdentity => .identityConflict
  | .rejectUnauthorized => .unauthorized
  | _ => .accepted

/-- The authenticated peer is the end that is not the local one. -/
def authenticatedPeerId {π : Type} (facts : AttachFacts π) : NodeId :=
  if facts.role = .initiator then facts.responderId else facts.initiatorId

namespace AttachSession

variable {π : Type} (K : Crypto π) (cfg : AttachConfig π)

/-- A session before `start`. -/
def make : AttachSession π where
  fsm := { handshakeRetryRemaining := cfg.handshakeRetry }
  pending := { facts := { proof := K.noProof } }

variable (s : AttachSession π)

def tearDown : AttachSession π :=
  { s with tornDown := true, forwardersInstalled := false, fsm := s.fsm.onTornDown cfg }

/-- `close_for_protocol_error`, with which an abort and a refused posture end. -/
def closeForProtocolError : AttachSession π :=
  if s.tornDown then s else s.tearDown cfg

def refusePosture : AttachSession π :=
  closeForProtocolError cfg { s with identity := none }

def sendHandshakeRequest : AttachSession π :=
  { s with requests := s.requests ++ [cfg.selfRequest K] }

def sendHandshakeResponse (outcome : HandshakeOutcome) : AttachSession π :=
  { s with
    responses := s.responses ++ [cfg.response K s.pending.facts (statusFor outcome)]
    proved := s.proved ++
      if cfg.prover.isSome then [attachProofInput s.pending.facts.dialerView] else [] }

/-- `install_on_accept`; `none` is the fail-closed refusal. -/
def installOnAccept : Option (AttachSession π) :=
  if !s.pending.engaged then some s
  else
    let s := { s with identity := some (authenticatedPeerId s.pending.facts) }
    if cfg.channelIsSelfSecuring then some s
    else if !cfg.hasInstallHook then none
    else some { s with installed := s.installed ++ [s.pending.negotiation] }

/-- The end of `on_complete`: install, or refuse the posture. -/
def installOrRefuse : AttachSession π :=
  match s.installOnAccept cfg with
  | none => s.refusePosture cfg
  | some s => { s with forwardersInstalled := true }

def onComplete : AttachSession π :=
  if s.forwardersInstalled then s
  else
    let s := if cfg.isInboundBootstrap then s.sendHandshakeResponse K cfg .acceptInbound else s
    s.installOrRefuse cfg

def execute (frame : HandshakeRequest π) (step : FsmStepResult) : AttachSession π :=
  match step.action with
  | .sendRequest => s.sendHandshakeRequest K cfg
  | .sendResponse => s.sendHandshakeResponse K cfg step.outcome
  | .complete =>
    onComplete K cfg { s with completions := s.completions ++ [⟨frame, s.pending⟩] }
  | .abort => s.closeForProtocolError cfg
  | .retry => s
  | .none => s

/-- The transcript a session hashes for a frame it has in a role. -/
def transcriptFor (frame : HandshakeRequest π) (role : AttachRole) : Bytes :=
  transcriptOf frame.cipherOffer frame.chosenCipher
    (if role = .initiator then cfg.ownNonce else frame.ownNonce)
    (if role = .initiator then frame.ownNonce else cfg.ownNonce)

/-- `assemble` and `latch_peer_proof` on a frame. -/
def take (frame : HandshakeRequest π) (role : AttachRole) : AttachSession π :=
  { s with
    pending := cfg.assemble K frame role
    hashed := s.hashed ++ if cfg.engaged then [transcriptFor cfg frame role] else [] }

/-- The consumer of `handshake_req`. -/
def onHandshakeReq (req : HandshakeRequest π) : AttachSession π :=
  if s.tornDown then s
  else
    let s := s.take K cfg req .responder
    if cfg.postureMismatched req then s.refusePosture cfg
    else
      let (fsm, step) := s.fsm.onRequest cfg req s.pending.facts
      execute K cfg { s with fsm } req step

/-- The consumer of `handshake_resp`. -/
def onHandshakeResp (resp : HandshakeResponse π) : AttachSession π :=
  if s.tornDown then s
  else
    let s := s.take K cfg resp.toHandshakeRequest .initiator
    if cfg.postureMismatched resp.toHandshakeRequest then s.refusePosture cfg
    else
      let (fsm, step) := s.fsm.onResponse cfg resp s.pending.facts
      execute K cfg { s with fsm } resp.toHandshakeRequest step

/-- The handshake timer fires; no frame is involved. -/
def onTimeout (s : AttachSession π) : AttachSession π :=
  if s.tornDown then s
  else
    let (fsm, step) := s.fsm.onTimeout
    execute K cfg { s with fsm } (cfg.selfRequest K) step

/-- `start`: a dialing session sends its request at once. -/
def start : AttachSession π :=
  let s := make K cfg
  if cfg.isInboundBootstrap then s
  else
    let (fsm, step) := s.fsm.onDialStarted
    let s := execute K cfg { s with fsm } (cfg.selfRequest K) step
    let (fsm, step) := s.fsm.onOutboundConnected
    execute K cfg { s with fsm } (cfg.selfRequest K) step

end AttachSession

/-! ## What the machine can answer -/

/-- The attach policy, if there is one, admits these facts. -/
def HandshakeFsm.Admitted {π : Type} (cfg : AttachConfig π) (facts : AttachFacts π) : Prop :=
  ∀ policy, cfg.attachPolicy = some policy → policy facts = true

/-- The checks a frame has to pass: this protocol version, another node's id, facts that the policy
accepts, an application version that is compatible. -/
structure Passed {π : Type} (cfg : AttachConfig π) (frame : HandshakeRequest π)
    (facts : AttachFacts π) : Prop where
  protocolVersion : frame.protocolVersion = kProtocolVersion
  otherId : frame.id ≠ cfg.selfId
  admitted : HandshakeFsm.Admitted cfg facts
  compatible : HandshakeFsm.isVersionCompatible cfg frame.versionMajor frame.versionMinor = true

namespace HandshakeFsm

variable {π : Type} {cfg : AttachConfig π} {m : HandshakeFsm}

/-- `validate` moves nothing but the note of the peer, and lets through what passes its checks. -/
theorem validate_spec {m m' : HandshakeFsm} {frame : HandshakeRequest π} {facts : AttachFacts π}
    (h : m.validate cfg frame facts = (m', none)) :
    m'.state = m.state ∧ m'.completeEmitted = m.completeEmitted ∧
      frame.protocolVersion = kProtocolVersion ∧ frame.id ≠ cfg.selfId ∧ Admitted cfg facts := by
  unfold validate at h
  split at h
  · cases h
  rename_i hversion
  split at h
  · cases h
  rename_i hid
  split at h
  · rename_i hnone
    cases h
    refine ⟨rfl, rfl, not_not.mp hversion, hid, fun policy hpolicy => ?_⟩
    rw [hnone] at hpolicy
    cases hpolicy
  rename_i policy hsome
  obtain ⟨rfl, hadmits⟩ := Prod.mk.inj h
  refine ⟨rfl, rfl, not_not.mp hversion, hid, fun policy' hpolicy => ?_⟩
  rw [hsome] at hpolicy
  obtain rfl := Option.some.inj hpolicy
  by_contra hrefused
  rw [if_neg hrefused] at hadmits
  cases hadmits

theorem onRequest_cases (cfg : AttachConfig π) (m : HandshakeFsm) (req : HandshakeRequest π)
    (facts : AttachFacts π) :
    (∃ m' reason, m.onRequest cfg req facts = abortResult m' reason) ∨
      Passed cfg req facts ∧ ∃ m' : HandshakeFsm, m'.state = m.state ∧
        m'.completeEmitted = m.completeEmitted ∧ m.onRequest cfg req facts = m'.resolveInbound cfg := by
  unfold onRequest
  dsimp only
  split
  · exact .inl ⟨_, _, rfl⟩
  rename_i m' hv
  obtain ⟨hstate, hemitted, hversion, hid, hadmitted⟩ := validate_spec hv
  split
  · exact .inl ⟨_, _, rfl⟩
  · rename_i hcompatible
    exact .inr ⟨⟨hversion, hid, hadmitted, by simpa using hcompatible⟩, m', hstate, hemitted, rfl⟩

theorem onResponse_cases (cfg : AttachConfig π) (m : HandshakeFsm) (resp : HandshakeResponse π)
    (facts : AttachFacts π) :
    (∃ m' reason, m.onResponse cfg resp facts = abortResult m' reason) ∨
      Passed cfg resp.toHandshakeRequest facts ∧ ∃ m' : HandshakeFsm, m'.state = m.state ∧
        m'.completeEmitted = m.completeEmitted ∧ m.onResponse cfg resp facts = m'.resolveOutbound cfg := by
  unfold onResponse
  dsimp only
  split
  · exact .inl ⟨_, _, rfl⟩
  rename_i m' hv
  obtain ⟨hstate, hemitted, hversion, hid, hadmitted⟩ := validate_spec hv
  split
  · exact .inl ⟨_, _, rfl⟩
  split
  · exact .inl ⟨_, _, rfl⟩
  split
  · exact .inl ⟨_, _, rfl⟩
  · rename_i hcompatible
    exact .inr ⟨⟨hversion, hid, hadmitted, by simpa using hcompatible⟩, m', hstate, hemitted, rfl⟩

theorem action_resolveOutbound (m : HandshakeFsm) :
    (m.resolveOutbound cfg).2.action ≠ .sendResponse := by
  unfold resolveOutbound
  split
  · simp
  · split <;> simp

theorem passed_of_onRequest {req : HandshakeRequest π} {facts : AttachFacts π}
    (h : (m.onRequest cfg req facts).2.action = .sendResponse ∨
      (m.onRequest cfg req facts).2.action = .complete) : Passed cfg req facts := by
  rcases onRequest_cases cfg m req facts with ⟨m', reason, habort⟩ | ⟨hpassed, -⟩
  · rw [habort] at h
    rcases h with h | h <;> cases h
  · exact hpassed

/-- A response completes the session only if it passes, and is never answered. -/
theorem onResponse_spec (resp : HandshakeResponse π) (facts : AttachFacts π) :
    ((m.onResponse cfg resp facts).2.action = .complete → Passed cfg resp.toHandshakeRequest facts) ∧
      (m.onResponse cfg resp facts).2.action ≠ .sendResponse := by
  rcases onResponse_cases cfg m resp facts with
    ⟨m', reason, habort⟩ | ⟨hpassed, m', -, -, hresolve⟩
  · rw [habort]
    exact ⟨fun h => (nomatch h), fun h => (nomatch h)⟩
  · rw [hresolve]
    exact ⟨fun _ => hpassed, m'.action_resolveOutbound⟩

theorem action_onTimeout (m : HandshakeFsm) :
    m.onTimeout.2.action ≠ .sendResponse ∧ m.onTimeout.2.action ≠ .complete := by
  unfold onTimeout
  split
  · split <;> simp
  · simp
  · simp

/-- The machine of an accepted session between two frames: nothing under way, or completed. -/
def Settled (m : HandshakeFsm) : Prop :=
  m.state = .notConnected ∨ m.state = .handshakeResolved ∧ m.completeEmitted = true

theorem settled_onRequest (hboot : cfg.isInboundBootstrap) (h : m.Settled)
    (req : HandshakeRequest π) (facts : AttachFacts π) : (m.onRequest cfg req facts).1.Settled := by
  rcases onRequest_cases cfg m req facts with
    ⟨m', reason, habort⟩ | ⟨-, m', hs, he, hresolve⟩
  · rw [habort]
    exact .inl rfl
  rw [hresolve]
  rcases h with h | ⟨h, hemitted⟩
  · -- a fresh session: the bootstrap completes it
    simp [resolveInbound, racingOutbound, hs, h, hboot, completeInbound, Settled]
  · simp [resolveInbound, racingOutbound, hs, he, h, hemitted, Settled]

theorem settled_onResponse (h : m.Settled) (resp : HandshakeResponse π) (facts : AttachFacts π) :
    (m.onResponse cfg resp facts).1.Settled ∧
      (m.onResponse cfg resp facts).2.action ≠ .complete := by
  rcases onResponse_cases cfg m resp facts with
    ⟨m', reason, habort⟩ | ⟨-, m', hs, he, hresolve⟩
  · rw [habort]
    exact ⟨.inl rfl, fun h => (nomatch h)⟩
  rw [hresolve]
  rcases h with h | ⟨h, hemitted⟩
  · simp [resolveOutbound, hs, h, Settled]
  · simp [resolveOutbound, hs, he, h, hemitted, Settled]

theorem settled_onTimeout (h : m.Settled) : m.onTimeout.1.Settled := by
  unfold onTimeout
  rcases h with h | h
  · simp only [h]
    exact .inl h
  · simp only [h.1]
    exact .inr h

end HandshakeFsm

/-! ## What a session leaves in its logs -/

namespace AttachSession

variable {π : Type} {K : Crypto π} {cfg : AttachConfig π}

/-- The verdicts on which a response goes out, and with it a proof. -/
def Proves (cfg : AttachConfig π) (action : FsmAction) : Prop :=
  action = .sendResponse ∨ action = .complete ∧ cfg.isInboundBootstrap = true

/-- Executing a verdict: a proof is made when a response goes out, a completion is logged and the
hook is called when the machine completed. -/
structure Executed (cfg : AttachConfig π) (s s' : AttachSession π) (frame : HandshakeRequest π)
    (action : FsmAction) : Prop where
  hashed : s'.hashed = s.hashed
  proved : s'.proved = s.proved ∨
    s'.proved = s.proved ++ [attachProofInput s.pending.facts.dialerView] ∧ Proves cfg action
  completions : s'.completions = s.completions ∨
    s'.completions = s.completions ++ [⟨frame, s.pending⟩] ∧ action = .complete
  installed : s'.installed = s.installed ∨
    s'.installed = s.installed ++ [s.pending.negotiation] ∧ s.pending.engaged = true ∧
      ⟨frame, s.pending⟩ ∈ s'.completions
  fsm : s'.fsm = s.fsm ∨ s'.fsm.state = .notConnected

theorem Executed.refl (s : AttachSession π) (frame : HandshakeRequest π) (action : FsmAction) :
    Executed cfg s s frame action :=
  ⟨rfl, .inl rfl, .inl rfl, .inl rfl, .inl rfl⟩

section

variable {s s' : AttachSession π} {frame : HandshakeRequest π} {action : FsmAction}

section

variable (h : Executed cfg s s' frame action)
include h

theorem Executed.close : Executed cfg s (s'.closeForProtocolError cfg) frame action := by
  unfold closeForProtocolError
  split
  · exact h
  · exact { h with fsm := .inr rfl }

theorem Executed.refuse : Executed cfg s (s'.refusePosture cfg) frame action :=
  Executed.close { h with }

theorem Executed.respond (hproved : s'.proved = s.proved) (hpending : s'.pending = s.pending)
    (hproves : Proves cfg action) (outcome : HandshakeOutcome) :
    Executed cfg s (s'.sendHandshakeResponse K cfg outcome) frame action := by
  refine { h with proved := ?_ }
  unfold sendHandshakeResponse
  rw [← hproved, ← hpending]
  cases cfg.prover.isSome
  · exact .inl (append_nil _)
  · exact .inr ⟨rfl, hproves⟩

/-- The install of a logged completion calls the hook only for a secured attach. -/
theorem Executed.install (hinstalled : s'.installed = s.installed)
    (hpending : s'.pending = s.pending) (hlogged : ⟨frame, s.pending⟩ ∈ s'.completions) :
    Executed cfg s (s'.installOrRefuse cfg) frame action := by
  unfold installOrRefuse installOnAccept
  by_cases hengaged : s'.pending.engaged = true
  · rw [if_neg (by simp [hengaged])]
    split
    · exact h.refuse
    rename_i t ht
    split at ht
    · cases ht
      exact { h with }
    split at ht
    · cases ht
    · cases ht
      refine { h with installed := .inr ⟨?_, hpending ▸ hengaged, hlogged⟩ }
      rw [← hinstalled, ← hpending]
  · rw [if_pos (by simpa using hengaged)]
    exact { h with }

end

end

theorem executed_execute (K : Crypto π) (cfg : AttachConfig π) (s : AttachSession π)
    (frame : HandshakeRequest π) (step : FsmStepResult) :
    Executed cfg s (s.execute K cfg frame step) frame step.action := by
  have hrefl : Executed cfg s s frame step.action := Executed.refl s frame step.action
  unfold execute
  split
  · exact ⟨rfl, .inl rfl, .inl rfl, .inl rfl, .inl rfl⟩
  · rename_i haction
    exact hrefl.respond rfl rfl (.inl haction) step.outcome
  · rename_i haction
    have hlogged : Executed cfg s { s with completions := s.completions ++ [⟨frame, s.pending⟩] } frame
        step.action := ⟨rfl, .inl rfl, .inr ⟨rfl, haction⟩, .inl rfl, .inl rfl⟩
    have hmem : ⟨frame, s.pending⟩ ∈ s.completions ++ [⟨frame, s.pending⟩] :=
      mem_append_right _ (mem_singleton_self _)
    unfold onComplete
    split
    · exact hlogged
    split
    · rename_i hboot
      have hresponded := hlogged.respond (K := K) rfl rfl (.inr ⟨haction, hboot⟩) .acceptInbound
      exact hresponded.install rfl rfl hmem
    · exact hlogged.install rfl rfl hmem
  · exact hrefl.close
  · exact hrefl
  · exact hrefl

/-! ## What an input leaves in the logs -/

/-- A frame adds at most one proof and one completion, both over the attach assembled from it; a
secured session has hashed its transcript. -/
structure Took (K : Crypto π) (cfg : AttachConfig π) (s s' : AttachSession π)
    (frame : HandshakeRequest π) (role : AttachRole) (verdict : HandshakeFsm × FsmStepResult) :
    Prop where
  hashed : s.hashed ⊆ s'.hashed
  proved : ∀ x ∈ s'.proved, x ∈ s.proved ∨
    x = attachProofInput (cfg.assemble K frame role).facts.dialerView ∧ Proves cfg verdict.2.action ∧
      (cfg.engaged = true → transcriptFor cfg frame role ∈ s'.hashed)
  completions : ∀ c ∈ s'.completions, c ∈ s.completions ∨
    c = ⟨frame, cfg.assemble K frame role⟩ ∧ verdict.2.action = .complete ∧
      (cfg.engaged = true → transcriptFor cfg frame role ∈ s'.hashed)
  kept : s.proved ⊆ s'.proved ∧ s.completions ⊆ s'.completions
  installed : ∀ n ∈ s'.installed, n ∈ s.installed ∨
    ∃ c ∈ s'.completions, c.pending.engaged = true ∧ n = c.pending.negotiation
  fsm : s'.fsm = s.fsm ∨ s'.fsm.state = .notConnected ∨ s'.fsm = verdict.1

theorem Executed.took {s s₁ s' : AttachSession π} {frame : HandshakeRequest π} {role : AttachRole}
    {verdict : HandshakeFsm × FsmStepResult} {action : FsmAction}
    (h : Executed cfg s₁ s' frame action) (haction : action = .abort ∨ action = verdict.2.action)
    (htaken : Proves cfg action ∨ action = .complete → s₁.pending = cfg.assemble K frame role ∧
      (cfg.engaged = true → transcriptFor cfg frame role ∈ s₁.hashed))
    (hhashed : s.hashed ⊆ s₁.hashed) (hproved : s₁.proved = s.proved)
    (hcompletions : s₁.completions = s.completions) (hinstalled : s₁.installed = s.installed)
    (hfsm : s₁.fsm = s.fsm ∨ s₁.fsm = verdict.1) : Took K cfg s s' frame role verdict := by
  have hproves : Proves cfg action → Proves cfg verdict.2.action := by
    rcases haction with rfl | rfl
    · rintro (h | ⟨h, -⟩) <;> cases h
    · exact id
  have hcompletes : action = .complete → verdict.2.action = .complete := by
    rcases haction with rfl | rfl
    · exact fun h => nomatch h
    · exact id
  refine ⟨h.hashed ▸ hhashed, ?_, ?_, ⟨?_, ?_⟩, ?_, ?_⟩
  · intro x hx
    rcases h.proved with hp | ⟨hp, hact⟩
    · exact .inl (hproved ▸ hp ▸ hx)
    · obtain ⟨hpending, htranscript⟩ := htaken (.inl hact)
      rw [hp, hproved, hpending, mem_append, mem_singleton] at hx
      exact hx.imp id fun hnew => ⟨hnew, hproves hact, h.hashed ▸ htranscript⟩
  · intro c hmem
    rcases h.completions with hc | ⟨hc, hact⟩
    · exact .inl (hcompletions ▸ hc ▸ hmem)
    · obtain ⟨hpending, htranscript⟩ := htaken (.inr hact)
      rw [hc, hcompletions, hpending, mem_append, mem_singleton] at hmem
      exact hmem.imp id fun hnew => ⟨hnew, hcompletes hact, h.hashed ▸ htranscript⟩
  · rcases h.proved with hp | ⟨hp, -⟩
    · exact hp ▸ hproved ▸ List.Subset.refl _
    · exact hp ▸ hproved ▸ subset_append_left _ _
  · rcases h.completions with hc | ⟨hc, -⟩
    · exact hc ▸ hcompletions ▸ List.Subset.refl _
    · exact hc ▸ hcompletions ▸ subset_append_left _ _
  · intro n hn
    rcases h.installed with hi | ⟨hi, hengaged, hlogged⟩
    · exact .inl (hinstalled ▸ hi ▸ hn)
    · rw [hi, hinstalled, mem_append, mem_singleton] at hn
      exact hn.imp id fun hnew => ⟨_, hlogged, hengaged, hnew⟩
  · rcases h.fsm with hf | hf
    · exact hf ▸ hfsm.imp id .inr
    · exact .inr (.inl hf)

/-- The consumer of either frame, over what the machine makes of it. -/
def consume (K : Crypto π) (cfg : AttachConfig π) (s : AttachSession π) (frame : HandshakeRequest π)
    (role : AttachRole) (verdict : HandshakeFsm × FsmStepResult) : AttachSession π :=
  if s.tornDown then s
  else if cfg.postureMismatched frame then (s.take K cfg frame role).refusePosture cfg
  else execute K cfg { s.take K cfg frame role with fsm := verdict.1 } frame verdict.2

theorem took_consume (s : AttachSession π) (frame : HandshakeRequest π) (role : AttachRole)
    (verdict : HandshakeFsm × FsmStepResult) :
    Took K cfg s (s.consume K cfg frame role verdict) frame role verdict := by
  have htranscript : cfg.engaged = true →
      transcriptFor cfg frame role ∈ (s.take K cfg frame role).hashed := by
    intro hengaged
    simp [take, hengaged]
  unfold consume
  split
  · refine (Executed.refl s frame .abort).took (.inl rfl) ?_ (List.Subset.refl _) rfl rfl rfl
      (.inl rfl)
    rintro ((h | ⟨h, -⟩) | h) <;> cases h
  split
  · exact (Executed.refl _ frame .abort).refuse.took (.inl rfl) (fun _ => ⟨rfl, htranscript⟩)
      (subset_append_left _ _) rfl rfl rfl (.inl rfl)
  · exact (executed_execute K cfg _ frame _).took (.inr rfl) (fun _ => ⟨rfl, htranscript⟩)
      (subset_append_left _ _) rfl rfl rfl (.inr rfl)

section

variable (K : Crypto π) (cfg : AttachConfig π) (s : AttachSession π)

theorem took_onHandshakeReq (req : HandshakeRequest π) :
    Took K cfg s (s.onHandshakeReq K cfg req) req .responder
      (s.fsm.onRequest cfg req (cfg.assemble K req .responder).facts) :=
  took_consume s req .responder _

theorem took_onHandshakeResp (resp : HandshakeResponse π) :
    Took K cfg s (s.onHandshakeResp K cfg resp) resp.toHandshakeRequest .initiator
      (s.fsm.onResponse cfg resp (cfg.assemble K resp.toHandshakeRequest .initiator).facts) :=
  took_consume s resp.toHandshakeRequest .initiator _

theorem took_onTimeout :
    Took K cfg s (s.onTimeout K cfg) (cfg.selfRequest K) .initiator s.fsm.onTimeout := by
  have hnone : ¬ (Proves cfg s.fsm.onTimeout.2.action ∨ s.fsm.onTimeout.2.action = .complete) := by
    rintro ((h | ⟨h, -⟩) | h)
    · exact s.fsm.action_onTimeout.1 h
    · exact s.fsm.action_onTimeout.2 h
    · exact s.fsm.action_onTimeout.2 h
  unfold onTimeout
  split
  · exact (Executed.refl s _ _).took (.inr rfl) (fun h => absurd h hnone) (List.Subset.refl _) rfl
      rfl rfl (.inl rfl)
  · exact (executed_execute K cfg _ _ _).took (.inr rfl) (fun h => absurd h hnone)
      (List.Subset.refl _) rfl rfl rfl (.inr rfl)

end

theorem Took.settled {s s' : AttachSession π} {frame : HandshakeRequest π} {role : AttachRole}
    {verdict : HandshakeFsm × FsmStepResult} (h : Took K cfg s s' frame role verdict)
    (hs : s.fsm.Settled) (hverdict : verdict.1.Settled) : s'.fsm.Settled := by
  rcases h.fsm with hf | hf | hf
  · exact hf ▸ hs
  · exact .inl hf
  · exact hf ▸ hverdict

end AttachSession

end Plexus.Security
