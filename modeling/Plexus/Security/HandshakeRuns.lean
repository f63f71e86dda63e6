/-
# Plexus.Security.HandshakeRuns — a session over its whole life: starts, frames, timers, teardowns.

`io/peer_session.h` (`start`, `tear_down`, `arm_handshake_timer`),
`io/detail/peer_session_complete.h` and `io/handshake_fsm.h`. The session of
`Plexus.Security.AttachSession` is started, torn down and started again, and its handshake timer
fires. A run logs what the outside can see: installs with the frame that caused them, connect edges,
rejections, teardowns. (`on_external_complete` of the machine is not an event: the session keeps its
machine to itself and never calls it.)

Between two teardowns the forwarders are installed and the connect edge fires at most once, by a
frame that was checked, and nothing is installed between a rejection and the next start. A *dialed*
session whose timer has run out of retries is closed; an accepted one is not, its machine ignoring
timeouts.
-/
import Plexus.Security.AttachSession
import Plexus.Lib.Run
import Plexus.Lib.Separated

namespace Plexus.Security

open Lib HandshakeFsm List

/-! ## The run -/

/-- What a session does that is seen from outside. -/
inductive SessionMark (π : Type)
  | started
  /-- The forwarders are installed; with the frame that completed the handshake, if one did. -/
  | installed (cause : Option (HandshakeRequest π)) (pending : PendingAttach π)
  /-- `fire_connect_edge`: connected the first time, reconnected later. -/
  | connectEdge (first : Bool)
  | rejected (reason : HandshakeOutcome)
  | tornDown
  | disconnected
  deriving DecidableEq

namespace SessionMark

variable {π : Type}

@[simp] def IsStarted : SessionMark π → Prop
  | started => True
  | _ => False

@[simp] def IsInstalled : SessionMark π → Prop
  | installed _ _ => True
  | _ => False

@[simp] def IsConnectEdge : SessionMark π → Prop
  | connectEdge _ => True
  | _ => False

@[simp] def IsRejected : SessionMark π → Prop
  | rejected _ => True
  | _ => False

@[simp] def IsTornDown : SessionMark π → Prop
  | tornDown => True
  | _ => False

end SessionMark

/-- A session with its timer, its channel and the edges it has raised. -/
structure SessionRun (π : Type) where
  session : AttachSession π
  /-- The nonce of the last `prime`. -/
  ownNonce : Nonce
  timerArmed : Bool := false
  channelOpen : Bool := true
  hasEverConnected : Bool := false
  marks : List (SessionMark π) := []

inductive SessionEvent (π : Type)
  /-- `start` on an open channel; the nonce is what the entropy source gave. -/
  | start (nonce : Nonce)
  | request (req : HandshakeRequest π)
  | response (resp : HandshakeResponse π)
  /-- A frame of another type, of an earlier session, or with a payload that does not decode. -/
  | otherFrame
  /-- A frame whose header does not decode, or a protocol close of the channel. -/
  | protocolClose
  /-- The wait the timer is armed with completes. -/
  | timeout
  /-- A wait that was cancelled had already completed, and its handler runs now. -/
  | lateTimeout
  | tearDown

namespace SessionEvent

variable {π : Type}

def isStart : SessionEvent π → Bool
  | start _ => true
  | _ => false

def isTimeout : SessionEvent π → Bool
  | timeout => true
  | lateTimeout => true
  | _ => false

end SessionEvent

namespace SessionRun

variable {π : Type} (K : Crypto π) (cfg : AttachConfig π) (r : SessionRun π)

/-- The configuration with the nonce the session was last primed with. -/
def primed : AttachConfig π := { cfg with ownNonce := r.ownNonce }

def mark (m : SessionMark π) : SessionRun π := { r with marks := r.marks ++ [m] }

/-- `tear_down`: the timer is cancelled and the channel closed. -/
def tearDown (r : SessionRun π) : SessionRun π :=
  let down := { r with
    session := r.session.tearDown (r.primed cfg), timerArmed := false, channelOpen := false }.mark .tornDown
  if r.session.forwardersInstalled then down.mark .disconnected else down

def closeForProtocolError : SessionRun π :=
  if r.session.tornDown then r else r.tearDown cfg

def refusePosture : SessionRun π :=
  ({ r with session := { r.session with identity := none } }.mark
    (.rejected .rejectUnauthorized)).closeForProtocolError cfg

def onAbort (reason : HandshakeOutcome) : SessionRun π :=
  (r.mark (.rejected reason)).closeForProtocolError cfg

/-- `on_complete`, up to the resubscription. -/
def onComplete (cause : Option (HandshakeRequest π)) : SessionRun π :=
  if r.session.forwardersInstalled then r
  else
    let session :=
      if cfg.isInboundBootstrap then r.session.sendHandshakeResponse K (r.primed cfg) .acceptInbound
      else r.session
    let r := { r with session, timerArmed := false }
    match session.installOnAccept (r.primed cfg) with
    | none => r.refusePosture cfg
    | some s =>
      ({ r with session := { s with forwardersInstalled := true }, hasEverConnected := true }.mark
        (.installed cause s.pending)).mark (.connectEdge (!r.hasEverConnected))

/-- `execute`; a verdict that no frame led to has no cause. -/
def execute (cause : Option (HandshakeRequest π)) (step : FsmStepResult) : SessionRun π :=
  match step.action with
  | .sendRequest => { r with session := r.session.sendHandshakeRequest K (r.primed cfg) }
  | .sendResponse => { r with session := r.session.sendHandshakeResponse K (r.primed cfg) step.outcome }
  | .complete =>
    onComplete K cfg { r with session := { r.session with
      completions := r.session.completions ++
        [⟨cause.getD ((r.primed cfg).selfRequest K), r.session.pending⟩] } } cause
  | .abort => r.onAbort cfg step.outcome
  | .retry => r
  | .none => r

/-- The machine's answer to an event, executed. -/
def advance (cause : Option (HandshakeRequest π)) (answer : HandshakeFsm × FsmStepResult) :
    SessionRun π :=
  execute K cfg { r with session := { r.session with fsm := answer.1 } } cause answer.2

/-- `assemble` and `latch_peer_proof` on a frame. -/
def take (r : SessionRun π) (frame : HandshakeRequest π) (role : AttachRole) : SessionRun π :=
  { r with session := r.session.take K (r.primed cfg) frame role }

/-- The consumer of `handshake_req`, behind the gate of `on_receive`. -/
def onHandshakeReq (req : HandshakeRequest π) : SessionRun π :=
  if r.session.tornDown then r
  else
    let r := r.take K cfg req .responder
    if cfg.postureMismatched req then r.refusePosture cfg
    else r.advance K cfg (some req) (r.session.fsm.onRequest cfg req r.session.pending.facts)

/-- The consumer of `handshake_resp`, behind the gate of `on_receive`. -/
def onHandshakeResp (resp : HandshakeResponse π) : SessionRun π :=
  if r.session.tornDown then r
  else
    let r := r.take K cfg resp.toHandshakeRequest .initiator
    if cfg.postureMismatched resp.toHandshakeRequest then r.refusePosture cfg
    else
      r.advance K cfg (some resp.toHandshakeRequest)
        (r.session.fsm.onResponse cfg resp r.session.pending.facts)

/-- The handler of `arm_handshake_timer`: only a re-sent request arms the timer again. -/
def onTimer : SessionRun π :=
  let answer := r.session.fsm.onTimeout
  let after := r.advance K cfg none answer
  if answer.2.action = .sendRequest then { after with timerArmed := true } else after

/-- `start` up to the machine: the latch is reset, the nonce drawn and the timer armed. -/
def reopen (nonce : Nonce) : SessionRun π :=
  { r with
    session := { r.session with tornDown := false }, ownNonce := nonce
    timerArmed := true, channelOpen := true }.mark .started

/-- `start`. -/
def start (nonce : Nonce) : SessionRun π :=
  let r := r.reopen nonce
  if cfg.isInboundBootstrap then r
  else
    let r := r.advance K cfg none r.session.fsm.onDialStarted
    r.advance K cfg none r.session.fsm.onOutboundConnected

def step : SessionEvent π → SessionRun π
  | .start nonce => r.start K cfg nonce
  | .request req => r.onHandshakeReq K cfg req
  | .response resp => r.onHandshakeResp K cfg resp
  | .otherFrame => r
  | .protocolClose => r.closeForProtocolError cfg
  | .timeout => if r.timerArmed then onTimer K cfg { r with timerArmed := false } else r
  | .lateTimeout => r.onTimer K cfg
  | .tearDown => r.tearDown cfg

/-- A session as it is made, and then started. -/
def init (nonce : Nonce) : SessionRun π :=
  start K cfg { session := .make K cfg, ownNonce := cfg.ownNonce } nonce

def run (nonce : Nonce) (es : List (SessionEvent π)) : SessionRun π :=
  es.foldl (step K cfg) (init K cfg nonce)

/-- The consumer of either frame, over what the machine makes of it. -/
def receive (K : Crypto π) (cfg : AttachConfig π) (r : SessionRun π) (frame : HandshakeRequest π)
    (role : AttachRole) (answer : HandshakeFsm × FsmStepResult) : SessionRun π :=
  if r.session.tornDown then r
  else if cfg.postureMismatched frame then (r.take K cfg frame role).refusePosture cfg
  else (r.take K cfg frame role).advance K cfg (some frame) answer

end SessionRun

/-! ## What one event does -/

/-- What the marks are about: the log and the session's two latches. -/
structure SessionFace (π : Type) where
  marks : List (SessionMark π)
  tornDown : Bool
  installed : Bool

/-- The frame passed the checks, with the facts assembled from it in one of the roles. -/
def Checked {π : Type} (K : Crypto π) (cfg : AttachConfig π) (frame : HandshakeRequest π)
    (pending : PendingAttach π) : Prop :=
  (∃ nonce role, pending = { cfg with ownNonce := nonce }.assemble K frame role) ∧
    Passed cfg frame pending.facts

/-- The moves of a session. -/
inductive Moved {π : Type} (K : Crypto π) (cfg : AttachConfig π) (f : SessionFace π) :
    SessionFace π → Prop
  | quiet : Moved K cfg f f
  | started : Moved K cfg f ⟨f.marks ++ [.started], false, f.installed⟩
  | installed (cause : Option (HandshakeRequest π)) (pending : PendingAttach π) (first : Bool)
      (hfree : f.installed = false) (hlive : f.tornDown = false)
      (hchecked : ∀ frame, cause = some frame → Checked K cfg frame pending) :
      Moved K cfg f
        ⟨f.marks ++ [.installed cause pending] ++ [.connectEdge first], f.tornDown, true⟩
  /-- A rejection on a session that is already torn down closes nothing. -/
  | refused (reason : HandshakeOutcome) (hdown : f.tornDown = true) :
      Moved K cfg f ⟨f.marks ++ [.rejected reason], true, f.installed⟩
  /-- A teardown, after a rejection or without one. -/
  | closed (why : Option HandshakeOutcome) :
      Moved K cfg f
        ⟨f.marks ++ why.toList.map .rejected ++ [.tornDown] ++
          (if f.installed then [.disconnected] else []), true, false⟩

namespace SessionRun

variable {π : Type} (K : Crypto π) (cfg : AttachConfig π) (r : SessionRun π)

def face : SessionFace π :=
  ⟨r.marks, r.session.tornDown, r.session.forwardersInstalled⟩

theorem face_tearDown :
    (r.tearDown cfg).face = ⟨r.marks ++ [.tornDown] ++
      (if r.session.forwardersInstalled then [.disconnected] else []), true, false⟩ := by
  unfold tearDown
  split
  · rfl
  · exact congrArg (SessionFace.mk · true false) (append_nil _).symm

theorem moved_tearDown : Moved K cfg r.face (r.tearDown cfg).face := by
  rw [face_tearDown]
  have hclosed : Moved K cfg r.face _ := .closed none
  rw [Option.toList_none, map_nil, append_nil] at hclosed
  exact hclosed

theorem moved_onAbort (reason : HandshakeOutcome) :
    Moved K cfg r.face (r.onAbort cfg reason).face := by
  unfold onAbort closeForProtocolError
  split
  · rename_i hdown
    have hface : (r.mark (.rejected reason)).face =
        ⟨r.marks ++ [.rejected reason], true, r.session.forwardersInstalled⟩ := by
      rw [← hdown]
      rfl
    rw [hface]
    exact .refused reason hdown
  · rw [face_tearDown]
    exact .closed (some reason)

theorem moved_refusePosture : Moved K cfg r.face (r.refusePosture cfg).face :=
  moved_onAbort K cfg { r with session := { r.session with identity := none } } .rejectUnauthorized

section

variable (cause : Option (HandshakeRequest π))

/-- A session that completes is installed, unless the posture is refused; pending attach, teardown
latch and machine stay. -/
theorem onComplete_cases (hfree : r.session.forwardersInstalled = false) :
    ∃ s : AttachSession π, s.pending = r.session.pending ∧ s.tornDown = r.session.tornDown ∧
      s.fsm = r.session.fsm ∧
      (s.forwardersInstalled = false ∧
          r.onComplete K cfg cause = { r with session := s, timerArmed := false }.refusePosture cfg ∨
        s.forwardersInstalled = true ∧ r.onComplete K cfg cause =
          ({ r with session := s, timerArmed := false, hasEverConnected := true }.mark
            (.installed cause s.pending)).mark (.connectEdge (!r.hasEverConnected))) := by
  unfold onComplete
  rw [if_neg (Bool.eq_false_iff.mp hfree)]
  generalize hs : (if cfg.isInboundBootstrap then
    r.session.sendHandshakeResponse K (r.primed cfg) .acceptInbound else r.session) = s
  have hsame : s.pending = r.session.pending ∧ s.tornDown = r.session.tornDown ∧
      s.fsm = r.session.fsm ∧ s.forwardersInstalled = r.session.forwardersInstalled := by
    rw [← hs]
    split <;> exact ⟨rfl, rfl, rfl, rfl⟩
  obtain ⟨hpending, hdown, hfsm, hfree'⟩ := hsame
  dsimp only
  split
  · exact ⟨s, hpending, hdown, hfsm, .inl ⟨hfree'.trans hfree, rfl⟩⟩
  rename_i s' hinstall
  have hkept : s'.pending = s.pending ∧ s'.tornDown = s.tornDown ∧ s'.fsm = s.fsm := by
    unfold AttachSession.installOnAccept at hinstall
    dsimp only at hinstall
    split at hinstall
    · cases hinstall
      exact ⟨rfl, rfl, rfl⟩
    split at hinstall
    · cases hinstall
      exact ⟨rfl, rfl, rfl⟩
    split at hinstall
    · cases hinstall
    · cases hinstall
      exact ⟨rfl, rfl, rfl⟩
  exact ⟨{ s' with forwardersInstalled := true }, hkept.1.trans hpending, hkept.2.1.trans hdown,
    hkept.2.2.trans hfsm, .inr ⟨rfl, rfl⟩⟩

theorem moved_onComplete (hlive : r.session.tornDown = false)
    (hchecked : ∀ frame, cause = some frame → Checked K cfg frame r.session.pending) :
    Moved K cfg r.face (r.onComplete K cfg cause).face := by
  by_cases hfree : r.session.forwardersInstalled = false
  · obtain ⟨s, hpending, hdown, -, ⟨hs, hafter⟩ | ⟨hs, hafter⟩⟩ :=
      onComplete_cases K cfg r cause hfree
    · have hface : face { r with session := s, timerArmed := false } = r.face := by
        unfold face
        rw [hdown, hs, hfree]
      rw [hafter, ← hface]
      exact moved_refusePosture K cfg _
    · have hface : (r.onComplete K cfg cause).face =
          ⟨r.marks ++ [.installed cause s.pending] ++ [.connectEdge (!r.hasEverConnected)],
            r.session.tornDown, true⟩ := by
        rw [hafter, ← hdown, ← hs]
        rfl
      rw [hface, hpending]
      exact .installed cause _ (!r.hasEverConnected) hfree hlive hchecked
  · rw [onComplete, if_pos (by simpa using hfree)]
    exact .quiet

theorem moved_advance
    (answer : HandshakeFsm × FsmStepResult)
    (hcomplete : answer.2.action = .complete → r.session.tornDown = false ∧
      ∀ frame, cause = some frame → Checked K cfg frame r.session.pending) :
    Moved K cfg r.face (r.advance K cfg cause answer).face := by
  unfold advance execute
  split
  · exact .quiet
  · exact .quiet
  · rename_i haction
    obtain ⟨hlive, hchecked⟩ := hcomplete haction
    exact moved_onComplete K cfg { r with session := { r.session with
      fsm := answer.1
      completions := r.session.completions ++
        [⟨cause.getD ((r.primed cfg).selfRequest K), r.session.pending⟩] } } cause hlive hchecked
  · exact moved_onAbort K cfg { r with session := { r.session with fsm := answer.1 } } _
  · exact .quiet
  · exact .quiet

end

theorem moved_receive (frame : HandshakeRequest π) (role : AttachRole)
    (answer : HandshakeFsm × FsmStepResult) (hpassed : answer.2.action = .complete →
      Passed cfg frame ((r.primed cfg).assemble K frame role).facts) :
    Moved K cfg r.face (r.receive K cfg frame role answer).face := by
  unfold receive
  split
  · exact .quiet
  rename_i hlive
  split
  · exact moved_refusePosture K cfg (r.take K cfg frame role)
  apply moved_advance K cfg (r.take K cfg frame role)
  intro haction
  refine ⟨Bool.eq_false_iff.mpr hlive, ?_⟩
  rintro frame ⟨rfl⟩
  exact ⟨⟨r.ownNonce, role, rfl⟩, hpassed haction⟩

theorem moved_onTimer : Moved K cfg r.face (r.onTimer K cfg).face := by
  have hmoved : Moved K cfg r.face (r.advance K cfg none r.session.fsm.onTimeout).face := by
    apply moved_advance
    intro haction
    exact absurd haction r.session.fsm.action_onTimeout.2
  unfold onTimer
  dsimp only
  split
  · exact hmoved
  · exact hmoved

theorem face_start (nonce : Nonce) :
    (r.start K cfg nonce).face =
      ⟨r.marks ++ [.started], false, r.session.forwardersInstalled⟩ := by
  unfold start
  dsimp only
  split
  · rfl
  · unfold onDialStarted onOutboundConnected
    split <;> split <;> rfl

theorem moved_step (e : SessionEvent π) :
    Moved K cfg r.face (r.step K cfg e).face := by
  cases e with
  | start nonce =>
    show Moved _ _ _ (r.start K cfg nonce).face
    rw [face_start]
    exact .started
  | request req =>
    exact moved_receive K cfg r req .responder _ fun h => passed_of_onRequest (.inr h)
  | response resp =>
    exact moved_receive K cfg r resp.toHandshakeRequest .initiator _ fun h =>
      (onResponse_spec resp _).1 h
  | otherFrame => exact .quiet
  | protocolClose =>
    show Moved K cfg r.face (r.closeForProtocolError cfg).face
    unfold closeForProtocolError
    split
    · exact .quiet
    · exact r.moved_tearDown K cfg
  | timeout =>
    show Moved _ _ _ (if r.timerArmed then onTimer K cfg { r with timerArmed := false } else r).face
    split
    · exact moved_onTimer K cfg { r with timerArmed := false }
    · exact .quiet
  | lateTimeout => exact moved_onTimer K cfg r
  | tearDown => exact moved_tearDown K cfg r

end SessionRun

/-! ## Once between two teardowns, and only for a checked peer -/

/-- What holds of the log of every run. -/
structure Latched {π : Type} (K : Crypto π) (cfg : AttachConfig π) (f : SessionFace π) : Prop where
  installedOnce : Separated SessionMark.IsInstalled SessionMark.IsInstalled SessionMark.IsTornDown f.marks
  connectedOnce :
    Separated SessionMark.IsConnectEdge SessionMark.IsConnectEdge SessionMark.IsTornDown f.marks
  installedLatch : Pending SessionMark.IsInstalled SessionMark.IsTornDown f.marks → f.installed = true
  connectedLatch : Pending SessionMark.IsConnectEdge SessionMark.IsTornDown f.marks → f.installed = true
  checked : ∀ frame pending, SessionMark.installed (some frame) pending ∈ f.marks →
    Checked K cfg frame pending
  rejectedFinal : Separated SessionMark.IsRejected SessionMark.IsInstalled SessionMark.IsStarted f.marks
  rejectedLatch : Pending SessionMark.IsRejected SessionMark.IsStarted f.marks → f.tornDown = true

theorem Latched.moved {π : Type} {K : Crypto π} {cfg : AttachConfig π} {f f' : SessionFace π}
    (h : Latched K cfg f) (hmove : Moved K cfg f f') : Latched K cfg f' := by
  obtain ⟨hio, hco, hil, hcl, hch, hfinal, hlatch⟩ := h
  cases hmove with
  | quiet => exact ⟨hio, hco, hil, hcl, hch, hfinal, hlatch⟩
  | started | refused reason hdown =>
    exact ⟨by simpa using hio, by simpa using hco, by simpa using hil, by simpa using hcl,
      by simpa using hch, by simpa using hfinal, by simp⟩
  | installed cause pending first hfree hlive hchecked =>
    have hnot : ¬ f.installed = true := by
      rw [hfree]
      exact Bool.false_ne_true
    have hbarred : ¬ Pending SessionMark.IsRejected SessionMark.IsStarted f.marks := by
      intro hp
      rw [hlatch hp] at hlive
      cases hlive
    refine ⟨?_, ?_, fun _ => rfl, fun _ => rfl, ?_, ?_, ?_⟩
    · simpa [-append_assoc] using ⟨hio, fun hp => hnot (hil hp)⟩
    · simpa [-append_assoc] using ⟨hco, fun hp => hnot (hcl hp)⟩
    · intro frame p hmem
      simp only [mem_append, mem_singleton, SessionMark.installed.injEq, reduceCtorEq,
        or_false] at hmem
      rcases hmem with hmem | ⟨hcause, rfl⟩
      · exact hch frame p hmem
      · exact hchecked frame hcause.symm
    · simpa [-append_assoc] using ⟨hfinal, hbarred⟩
    · simpa [-append_assoc] using hlatch
  | closed why =>
    -- the teardown is the reset both latches wait for
    refine ⟨?_, ?_, ?_, ?_, ?_, ?_, fun _ => rfl⟩
    · cases why <;> cases f.installed <;> simpa [-append_assoc] using hio
    · cases why <;> cases f.installed <;> simpa [-append_assoc] using hco
    · cases why <;> cases f.installed <;> simp [-append_assoc]
    · cases why <;> cases f.installed <;> simp [-append_assoc]
    · cases why <;> cases f.installed <;> simpa using hch
    · cases why <;> cases f.installed <;> simpa [-append_assoc] using hfinal

namespace SessionRun

variable {π : Type} (K : Crypto π) (cfg : AttachConfig π)
  {e : SessionEvent π} {s r' : SessionRun π} {answer : HandshakeFsm × FsmStepResult}

theorem latched_run (nonce : Nonce) (es : List (SessionEvent π)) :
    Latched K cfg (run K cfg nonce es).face := by
  refine run_invariant (fun r : SessionRun π => Latched K cfg r.face) ?_ ?_ es
  · intro r e h
    exact h.moved (moved_step K cfg r e)
  have hinit : Moved K cfg ⟨[], false, false⟩ (init K cfg nonce).face := by
    rw [init, face_start]
    exact .started
  apply Latched.moved _ hinit
  exact ⟨separated_nil, separated_nil, fun h => absurd h not_pending_nil,
    fun h => absurd h not_pending_nil, fun _ _ h => absurd h not_mem_nil, separated_nil,
    fun h => absurd h not_pending_nil⟩

/-- **The handshake completes once and only for a checked peer.** Over every run: no two installs and
no two connect edges without a teardown between them; a frame that caused an install was checked; and
no install between a rejection and the next start. -/
theorem handshake_completes_once (nonce : Nonce) (es : List (SessionEvent π)) :
    Separated SessionMark.IsInstalled SessionMark.IsInstalled SessionMark.IsTornDown
        (run K cfg nonce es).marks ∧
      Separated SessionMark.IsConnectEdge SessionMark.IsConnectEdge SessionMark.IsTornDown
        (run K cfg nonce es).marks ∧
      (∀ frame pending, SessionMark.installed (some frame) pending ∈ (run K cfg nonce es).marks →
        Checked K cfg frame pending) ∧
      Separated SessionMark.IsRejected SessionMark.IsInstalled SessionMark.IsStarted
        (run K cfg nonce es).marks := by
  have hlatched := latched_run K cfg nonce es
  exact ⟨hlatched.installedOnce, hlatched.connectedOnce, hlatched.checked, hlatched.rejectedFinal⟩

/-! ## The handshake timer -/

/-- Neither complete nor torn down. -/
def HalfOpen (r : SessionRun π) : Prop :=
  r.session.tornDown = false ∧ r.session.forwardersInstalled = false

/-- The half-open phase of a dialed session. -/
structure Handshaking (r : SessionRun π) : Prop where
  halfOpen : r.HalfOpen
  state : r.session.fsm.state = .handshaking
  pending : r.session.fsm.completeEmitted = false
  armed : r.timerArmed = true

structure Completed (r : SessionRun π) : Prop where
  live : r.session.tornDown = false
  installed : r.session.forwardersInstalled = true
  state : r.session.fsm.state = .handshakeResolved
  emitted : r.session.fsm.completeEmitted = true

/-- Torn down, with the channel closed and the machine reset. -/
structure Down (r : SessionRun π) : Prop where
  down : r.session.tornDown = true
  free : r.session.forwardersInstalled = false
  closed : r.channelOpen = false
  state : r.session.fsm.state = .notConnected
  pending : r.session.fsm.completeEmitted = false
  retries : r.session.fsm.handshakeRetryRemaining = cfg.handshakeRetry

/-- The session leaves the half-open phase, or has used up `n` more retries in it. -/
inductive Settles (n : Nat) (r r' : SessionRun π) : Prop
  | handshaking (h : r.Handshaking) (h' : r'.Handshaking)
      (hused : r'.session.fsm.handshakeRetryRemaining + n = r.session.fsm.handshakeRetryRemaining)
  | completed (h' : r'.Completed)
  | down (h' : r'.Down cfg)

variable {K cfg} {r : SessionRun π}

theorem HalfOpen.not_completed (h : r.HalfOpen) : ¬ r.Completed := fun hc =>
  absurd (h.2.symm.trans hc.installed) Bool.false_ne_true

theorem HalfOpen.not_down (h : r.HalfOpen) : ¬ r.Down cfg := fun hd =>
  absurd (h.1.symm.trans hd.down) Bool.false_ne_true

theorem down_tearDown (r : SessionRun π) : (r.tearDown cfg).Down cfg := by
  unfold tearDown
  split <;> exact ⟨rfl, rfl, rfl, rfl, rfl, rfl⟩

theorem down_closeForProtocolError (h : r.session.tornDown = false) :
    (r.closeForProtocolError cfg).Down cfg := by
  unfold closeForProtocolError
  rw [if_neg (Bool.eq_false_iff.mp h)]
  exact r.down_tearDown

/-- A racing machine refuses, completes, or has completed before and stays as it is. -/
inductive Answered (m : HandshakeFsm) (answer : HandshakeFsm × FsmStepResult) : Prop
  | refused (haction : answer.2.action = .abort)
  | completes (hfirst : m.completeEmitted = false) (hstate : answer.1.state = .handshakeResolved)
      (hemitted : answer.1.completeEmitted = true) (haction : answer.2.action = .complete)
  | kept (hbefore : m.completeEmitted = true) (hstate : answer.1.state = m.state)
      (hemitted : answer.1.completeEmitted = true)
      (haction : answer.2.action = .sendResponse ∨ answer.2.action = .none)

theorem answered_onRequest {m : HandshakeFsm} (hracing : m.racingOutbound)
    (req : HandshakeRequest π) (facts : AttachFacts π) : Answered m (m.onRequest cfg req facts) := by
  rcases onRequest_cases cfg m req facts with
    ⟨m', reason, habort⟩ | ⟨-, m', hs, he, hresolve⟩
  · rw [habort]
    exact .refused rfl
  have hracing' : { m' with inboundPending := true }.racingOutbound = true := by
    simpa [racingOutbound, hs] using hracing
  rw [hresolve, resolveInbound]
  rw [if_pos hracing']
  cases hemitted : m.completeEmitted
  · rw [if_neg (Bool.eq_false_iff.mp (he.trans hemitted))]
    exact .completes hemitted rfl rfl rfl
  · rw [if_pos (he.trans hemitted)]
    exact .kept hemitted hs (he.trans hemitted) (.inl rfl)

theorem answered_onResponse {m : HandshakeFsm} (hracing : m.racingOutbound)
    (resp : HandshakeResponse π) (facts : AttachFacts π) : Answered m (m.onResponse cfg resp facts) := by
  rcases onResponse_cases cfg m resp facts with
    ⟨m', reason, habort⟩ | ⟨-, m', hs, he, hresolve⟩
  · rw [habort]
    exact .refused rfl
  have hracing' : ¬ (m'.state ≠ .handshaking ∧ m'.state ≠ .handshakeResolved) := by
    rw [hs]
    simpa [racingOutbound, or_iff_not_imp_left] using hracing
  rw [hresolve, resolveOutbound, if_neg hracing']
  cases hemitted : m.completeEmitted
  · rw [if_neg (Bool.eq_false_iff.mp (he.trans hemitted))]
    exact .completes hemitted rfl rfl rfl
  · rw [if_pos (he.trans hemitted)]
    exact .kept hemitted hs (he.trans hemitted) (.inr rfl)

theorem settles_onComplete (n : Nat) (cause : Option (HandshakeRequest π)) (hopen : r.HalfOpen)
    (hstate : r.session.fsm.state = .handshakeResolved)
    (hemitted : r.session.fsm.completeEmitted) :
    Settles cfg n s (r.onComplete K cfg cause) := by
  obtain ⟨t, -, hdown, hfsm, ⟨-, hafter⟩ | ⟨ht, hafter⟩⟩ := onComplete_cases K cfg r cause hopen.2
  · rw [hafter]
    exact .down (down_closeForProtocolError (hdown.trans hopen.1))
  · rw [hafter]
    exact .completed ⟨hdown.trans hopen.1, ht, (congrArg state hfsm).trans hstate,
      (congrArg completeEmitted hfsm).trans hemitted⟩

theorem settles_advance_abort (n : Nat) (r : SessionRun π) (cause : Option (HandshakeRequest π))
    (hlive : r.session.tornDown = false) (haction : answer.2.action = .abort) :
    Settles cfg n s (r.advance K cfg cause answer) := by
  apply Settles.down
  unfold advance execute
  rw [haction]
  exact down_closeForProtocolError hlive

section

variable (h : r.Handshaking ∨ r.Completed) (hanswer : Answered r.session.fsm answer)
include h hanswer

theorem settles_advance {t : SessionRun π} (cause : Option (HandshakeRequest π))
    (hdown : t.session.tornDown = r.session.tornDown)
    (hinstalled : t.session.forwardersInstalled = r.session.forwardersInstalled) :
    Settles cfg 0 r (t.advance K cfg cause answer) := by
  cases hanswer with
  | refused haction =>
    exact settles_advance_abort 0 t cause (hdown.trans (h.elim (·.halfOpen.1) (·.live))) haction
  | completes hfirst hstate hemitted haction =>
    rcases h with h | h
    · unfold advance execute
      rw [haction]
      exact settles_onComplete 0 cause ⟨hdown.trans h.halfOpen.1, hinstalled.trans h.halfOpen.2⟩ hstate
        hemitted
    · exact absurd (hfirst.symm.trans h.emitted) Bool.false_ne_true
  | kept hbefore hstate hemitted haction =>
    rcases h with h | h
    · exact absurd (h.pending.symm.trans hbefore) Bool.false_ne_true
    have hcompleted : Completed { t with session := { t.session with fsm := answer.1 } } :=
      ⟨hdown.trans h.live, hinstalled.trans h.installed, hstate.trans h.state, hemitted⟩
    unfold advance execute
    rcases haction with haction | haction
    · rw [haction]
      exact .completed { hcompleted with }
    · rw [haction]
      exact .completed hcompleted

theorem settles_receive (frame : HandshakeRequest π) (role : AttachRole) :
    Settles cfg 0 r (r.receive K cfg frame role answer) := by
  have hlive : r.session.tornDown = false := h.elim (·.halfOpen.1) (·.live)
  unfold receive
  rw [if_neg (Bool.eq_false_iff.mp hlive)]
  split
  · exact .down (down_closeForProtocolError hlive)
  · exact settles_advance h hanswer _ rfl rfl

end

/-- In the two other phases the timer does nothing. -/
theorem onTimer_idle (h : r.session.fsm.state = .notConnected ∨ r.session.fsm.state = .handshakeResolved) :
    r.onTimer K cfg = r := by
  unfold onTimer onTimeout
  rcases h with h | h
  · rw [h]
    rfl
  · rw [h]
    rfl

/-- Where a dialed session is: handshaking with retries left, complete, or down. -/
def InPhase (cfg : AttachConfig π) (r : SessionRun π) : Prop :=
  (r.Handshaking ∧ r.session.fsm.handshakeRetryRemaining ≤ cfg.handshakeRetry) ∨ r.Completed ∨ r.Down cfg

theorem Settles.refl (h : InPhase cfg r) : Settles cfg 0 r r := by
  rcases h with ⟨h, -⟩ | h | h
  · exact .handshaking h h rfl
  · exact .completed h
  · exact .down h

theorem Settles.still {n : Nat} (hd : r.Down cfg) (h : r' = r) : Settles cfg n r r' := by
  subst h
  exact .down hd

theorem Settles.trans {n k : Nat} {r r'' : SessionRun π} (h : Settles cfg n r r')
    (h' : Settles cfg k r' r'') : Settles cfg (k + n) r r'' := by
  cases h' with
  | completed h'' => exact .completed h''
  | down h'' => exact .down h''
  | handshaking hmid h'' hused =>
    cases h with
    | handshaking hr _ hused' =>
      apply Settles.handshaking hr h''
      omega
    | completed hc => exact absurd hc hmid.halfOpen.not_completed
    | down hd => exact absurd hd hmid.halfOpen.not_down

theorem Settles.inPhase {n : Nat} {r : SessionRun π} (h : Settles cfg n r r') (hr : InPhase cfg r) :
    InPhase cfg r' := by
  cases h with
  | completed h' => exact .inr (.inl h')
  | down h' => exact .inr (.inr h')
  | handshaking h h' hused =>
    rcases hr with ⟨-, hretries⟩ | hc | hd
    · refine .inl ⟨h', ?_⟩
      omega
    · exact absurd hc h.halfOpen.not_completed
    · exact absurd hd h.halfOpen.not_down

theorem settles_onTimer (h : InPhase cfg r) (armed : Bool) :
    Settles cfg 1 r (onTimer K cfg { r with timerArmed := armed }) := by
  rcases h with ⟨h, -⟩ | h | h
  · -- the request is sent again, or the session is closed
    unfold onTimer onTimeout
    rw [h.state]
    by_cases hleft : 0 < r.session.fsm.handshakeRetryRemaining
    · rw [if_pos hleft]
      refine .handshaking h ⟨h.halfOpen, rfl, h.pending, rfl⟩ ?_
      show r.session.fsm.handshakeRetryRemaining - 1 + 1 = _
      omega
    · rw [if_neg hleft]
      exact settles_advance_abort 1 { r with timerArmed := armed } none h.halfOpen.1 rfl
  · rw [onTimer_idle (r := { r with timerArmed := armed }) (.inr h.state)]
    exact .completed { h with }
  · rw [onTimer_idle (r := { r with timerArmed := armed }) (.inl h.state)]
    exact .down { h with }

theorem settles_step (h : InPhase cfg r) (hstart : e.isStart = false) :
    Settles cfg e.isTimeout.toNat r (r.step K cfg e) := by
  -- a session that is down takes no frame; in the two live phases the machine is racing
  have hcases : (r.Handshaking ∨ r.Completed) ∧ r.session.fsm.racingOutbound = true ∨ r.Down cfg := by
    rcases h with ⟨h, -⟩ | h | h
    · exact .inl ⟨.inl h, by simp [racingOutbound, h.state]⟩
    · exact .inl ⟨.inr h, by simp [racingOutbound, h.state]⟩
    · exact .inr h
  cases e with
  | start nonce => cases hstart
  | request req =>
    rcases hcases with ⟨hl, hracing⟩ | hd
    · exact settles_receive hl (answered_onRequest hracing req _) req .responder
    · exact .still hd (if_pos hd.down)
  | response resp =>
    rcases hcases with ⟨hl, hracing⟩ | hd
    · exact settles_receive hl (answered_onResponse hracing resp _) resp.toHandshakeRequest .initiator
    · exact .still hd (if_pos hd.down)
  | otherFrame => exact .refl h
  | protocolClose =>
    rcases hcases with ⟨hl, -⟩ | hd
    · exact .down (down_closeForProtocolError (hl.elim (·.halfOpen.1) (·.live)))
    · exact .still hd (if_pos hd.down)
  | timeout =>
    show Settles cfg 1 r (if r.timerArmed then onTimer K cfg { r with timerArmed := false } else r)
    split
    · exact settles_onTimer h false
    rename_i hidle
    -- a handshaking session has its timer armed
    rcases h with ⟨h, -⟩ | h | h
    · exact absurd h.armed hidle
    · exact .completed h
    · exact .down h
  | lateTimeout => exact settles_onTimer h r.timerArmed
  | tearDown => exact .down r.down_tearDown

section

variable (hdial : cfg.isInboundBootstrap = false)
include hdial

theorem handshaking_start (nonce : Nonce) (hfree : r.session.forwardersInstalled = false)
    (hstate : r.session.fsm.state = .notConnected)
    (hpending : r.session.fsm.completeEmitted = false) :
    (r.start K cfg nonce).Handshaking ∧
      (r.start K cfg nonce).session.fsm.handshakeRetryRemaining =
        r.session.fsm.handshakeRetryRemaining := by
  unfold start
  rw [if_neg (Bool.eq_false_iff.mp hdial)]
  have hdialing : (r.reopen nonce).session.fsm.onDialStarted =
      ({ r.session.fsm with state := .dialing }, {}) := if_pos (.inl hstate)
  rw [hdialing]
  exact ⟨⟨⟨rfl, hfree⟩, rfl, hpending, rfl⟩, rfl⟩

theorem start_live (nonce : Nonce)
    (hstate : r.session.fsm.state = .handshaking ∨ r.session.fsm.state = .handshakeResolved) :
    r.start K cfg nonce = r.reopen nonce := by
  unfold start
  rw [if_neg (Bool.eq_false_iff.mp hdial)]
  have hdialing : (r.reopen nonce).session.fsm.onDialStarted = (r.session.fsm, {}) := by
    apply if_neg
    show ¬ (r.session.fsm.state = .notConnected ∨ r.session.fsm.state = .dialing)
    rcases hstate with h | h <;> simp [h]
  have hconnected : r.session.fsm.onOutboundConnected = (r.session.fsm, {}) := if_pos hstate
  rw [hdialing]
  show advance K cfg (r.reopen nonce) none r.session.fsm.onOutboundConnected = _
  rw [hconnected]
  rfl

theorem inPhase_step (h : InPhase cfg r) : InPhase cfg (r.step K cfg e) := by
  cases hstart : e.isStart with
  | false => exact (settles_step h hstart).inPhase h
  | true =>
    cases e with
    | start nonce =>
      rw [step]
      rcases h with ⟨h, hretries⟩ | h | h
      · rw [start_live hdial nonce (.inl h.state)]
        exact .inl ⟨⟨⟨rfl, h.halfOpen.2⟩, h.state, h.pending, rfl⟩, hretries⟩
      · rw [start_live hdial nonce (.inr h.state)]
        exact .inr (.inl { h with live := rfl })
      · obtain ⟨hs, hretries⟩ := handshaking_start hdial nonce h.free h.state h.pending
        exact .inl ⟨hs, (hretries.trans h.retries).le⟩
    | _ => cases hstart

theorem inPhase_init (nonce : Nonce) : InPhase cfg (init K cfg nonce) := by
  obtain ⟨h, hretries⟩ := handshaking_start
    (r := { session := .make K cfg, ownNonce := cfg.ownNonce }) hdial nonce rfl rfl rfl
  exact .inl ⟨h, hretries.le⟩

end

/-- A stretch of a run without a start uses up a retry with each timeout. -/
theorem settles_foldl {es : List (SessionEvent π)} (h : InPhase cfg r)
    (hstart : ∀ e ∈ es, e.isStart = false) :
    Settles cfg (es.countP SessionEvent.isTimeout) r (es.foldl (step K cfg) r) := by
  induction es generalizing r with
  | nil => exact .refl h
  | cons e es ih =>
    obtain ⟨he, hes⟩ := forall_mem_cons.mp hstart
    have hstep := settles_step (K := K) h he
    have hrest := hstep.trans (ih (hstep.inPhase h) hes)
    rw [countP_cons]
    cases htimeout : e.isTimeout <;> rw [htimeout] at hrest <;> exact hrest

/-! ## An accepted session -/

/-- An accepted session to which nothing has come yet. -/
structure Waiting (r : SessionRun π) : Prop where
  halfOpen : r.HalfOpen
  state : r.session.fsm.state = .notConnected

theorem Waiting.timeout (h : r.Waiting) : (r.step K cfg .timeout).Waiting := by
  show Waiting (if r.timerArmed then onTimer K cfg { r with timerArmed := false } else r)
  split
  · rw [onTimer_idle (r := { r with timerArmed := false }) (.inl h.state)]
    exact ⟨h.halfOpen, h.state⟩
  · exact h

theorem waiting_init (hboot : cfg.isInboundBootstrap) (nonce : Nonce) :
    (init K cfg nonce).Waiting := by
  unfold init start
  rw [if_pos hboot]
  exact ⟨⟨rfl, rfl⟩, rfl⟩

theorem waiting_timeouts (h : r.Waiting) (n : Nat) :
    ((replicate n SessionEvent.timeout).foldl (step K cfg) r).Waiting := by
  induction n generalizing r with
  | zero => exact h
  | succ n ih => exact ih h.timeout

/-- **No dialed session stays half-open.** For a dialed session, and for no accepted one: as long as
it is half-open its timer is armed, and after more timeouts than it has retries it is complete, or
torn down with its channel closed. -/
theorem half_open_bounded_iff_dialed (K : Crypto π) (cfg : AttachConfig π) (nonce : Nonce) :
    (∀ before after : List (SessionEvent π), (∀ e ∈ after, e.isStart = false) →
      let r := run K cfg nonce (before ++ after)
      (r.HalfOpen → r.timerArmed = true) ∧
      (cfg.handshakeRetry < after.countP SessionEvent.isTimeout →
        r.session.forwardersInstalled = true ∨
          r.session.tornDown = true ∧ r.channelOpen = false)) ↔
      cfg.isInboundBootstrap = false := by
  constructor
  · intro h
    by_contra hboot
    rw [Bool.not_eq_false] at hboot
    -- a silent peer: the timer fires and nothing happens
    obtain ⟨-, hclosed⟩ := h [] (List.replicate (cfg.handshakeRetry + 1) .timeout)
      (fun e he => by rw [List.eq_of_mem_replicate he]; rfl)
    have hwaiting : (run K cfg nonce (List.replicate (cfg.handshakeRetry + 1) .timeout)).Waiting :=
      waiting_timeouts (waiting_init hboot nonce) (cfg.handshakeRetry + 1)
    have hcount : (List.replicate (cfg.handshakeRetry + 1) (SessionEvent.timeout (π := π))).countP
        SessionEvent.isTimeout = cfg.handshakeRetry + 1 := by
      simp [List.countP_replicate, SessionEvent.isTimeout]
    rcases hclosed (by omega) with hinstalled | ⟨hdown, -⟩
    · exact absurd (hwaiting.halfOpen.2.symm.trans hinstalled) Bool.false_ne_true
    · exact absurd (hwaiting.halfOpen.1.symm.trans hdown) Bool.false_ne_true
  intro hdial before after hstart
  have hphase : InPhase cfg (run K cfg nonce before) :=
    run_invariant (InPhase cfg) (fun _ _ h => inPhase_step hdial h) (inPhase_init hdial nonce) before
  have hsettles := settles_foldl (K := K) hphase hstart
  rw [run, List.foldl_append]
  cases hsettles with
  | completed h' => exact ⟨fun hopen => absurd h' hopen.not_completed, fun _ => .inl h'.installed⟩
  | down h' =>
    exact ⟨fun hopen => absurd h' hopen.not_down, fun _ => .inr ⟨h'.down, h'.closed⟩⟩
  | handshaking h h' hused =>
    refine ⟨fun _ => h'.armed, fun htimeouts => ?_⟩
    rcases hphase with ⟨-, hretries⟩ | hc | hd
    · omega
    · exact absurd hc h.halfOpen.not_completed
    · exact absurd hd h.halfOpen.not_down

/-- The dialing node with one retry. -/
def retryingNode : AttachConfig Bytes := { dialingNode with handshakeRetry := 1 }

/-- A peer that stays silent, for the dialing node: after two timeouts the channel is closed. -/
theorem half_open_bounded_silent :
    let r := run transparent retryingNode (zeroed 16) [.timeout, .timeout]
    r.session.forwardersInstalled = true ∨ r.session.tornDown = true ∧ r.channelOpen = false :=
  ((half_open_bounded_iff_dialed transparent retryingNode (zeroed 16)).2 rfl [] [.timeout, .timeout]
    (by decide)).2 (by decide)

/-- A peer that stays silent, or sends frames that do not decode: the timer is not armed again, and
the session stays open. -/
theorem accepted_session_stays_open :
    let r := run transparent acceptingNode (zeroed 16) [.otherFrame, .timeout, .otherFrame, .timeout]
    r.HalfOpen ∧ r.channelOpen = true ∧ r.timerArmed = false ∧ acceptingNode.handshakeRetry = 0 :=
  ⟨⟨rfl, rfl⟩, rfl, rfl, rfl⟩

end SessionRun

end Plexus.Security
