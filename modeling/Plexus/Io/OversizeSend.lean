/-
# Plexus.Io.OversizeSend — what becomes of a session when its channel refuses a message as too
large.

`asio/udp_channel.h` in both modes, `crypto/src/dtls_channel.cpp` and `shm/shm_byte_channel.h`
refuse a frame above their ceiling with `message_too_large` and are left as they were. The refusal
goes to `on_error`: `peer_session::start` lets `would_block` pass and hands every other error to the
transport-drop callback, which redials a dialed slot (`wire_drop`, `reconnect.h`) and tears an
accepted one down (`wire_inbound_drop`).

So an oversize send costs only itself exactly when nobody listens for the drop. A frame above the
ceiling that fits one datagram or one record is not measured and goes out.
-/
import Plexus.Datagram.DatagramBudget
import Plexus.Io.PeerSession
import Plexus.Io.Reconnect

namespace Plexus.Io

open Wire Datagram List

/-! ## The channels -/

theorem advance_of_wire {cfg : UdpChannelConfig} {p : UdpPort cfg} {channel : UdpChannel cfg}
    (h : channel.wire = p.channel.wire) : p.advance channel = { p with channel := channel } := by
  unfold UdpPort.advance
  rw [h, drop_length, map_nil, append_nil]

/-- A UDP channel whose errors have all been handed to `on_error`. -/
structure QuietPort (cfg : UdpChannelConfig) where
  port : UdpPort cfg
  quiet : port.channel.errors = []

namespace QuietPort

variable {cfg : UdpChannelConfig}

def send (mode : UdpChannelMode) (p : QuietPort cfg) (frame : Bytes) :
    QuietPort cfg × List IoError :=
  let sent := p.port.send mode frame
  (⟨{ sent with channel := { sent.channel with errors := [] } }, rfl⟩, sent.channel.errors)

def close (p : QuietPort cfg) : QuietPort cfg :=
  ⟨{ p.port with channel := p.port.channel.close }, p.quiet⟩

theorem send_of_reports {mode : UdpChannelMode} {p : QuietPort cfg} {frame : Bytes}
    {errors : List IoError} (h : p.port.send mode frame =
      { p.port with channel := { p.port.channel with errors := p.port.channel.errors ++ errors } }) :
    p.send mode frame = (p, errors) := by
  obtain ⟨port, quiet⟩ := p
  have hlog : (port.send mode frame).channel.errors = errors := by
    rw [h]
    show port.channel.errors ++ errors = errors
    rw [quiet, nil_append]
  have hport : { port.send mode frame with
      channel := { (port.send mode frame).channel with errors := [] } } = port := by
    rw [h, ← quiet]
  unfold QuietPort.send
  simp only [hlog, hport]

end QuietPort

/-- What an `SSL_write` comes to. -/
inductive SslOutcome
  | written
  /-- `SSL_ERROR_WANT_READ` or `SSL_ERROR_WANT_WRITE`. -/
  | wants
  | failed
  deriving DecidableEq

structure DtlsChannel where
  maxPayload : Nat
  /-- `DTLS_get_data_mtu`. -/
  dataMtu : Int
  maxMessageBytes : Nat
  isOpen : Bool := true
  /-- The handshake gate is ready. -/
  ready : Bool := true
  outMsgId : UInt16 := 0
  records : List Bytes := []
  /-- The outcomes of the writes to come. -/
  outcomes : Nat → SslOutcome := fun _ => .written

namespace DtlsChannel

variable (c : DtlsChannel)

def recordBudget : Nat :=
  if c.dataMtu > 0 then min c.maxPayload c.dataMtu.toNat else c.maxPayload

def secureSend (bytes : Bytes) : DtlsChannel × List IoError :=
  if !c.isOpen then (c, [])
  else
    let rest := { c with outcomes := fun n => c.outcomes (n + 1) }
    match c.outcomes 0 with
    | .written => ({ rest with records := c.records ++ [bytes] }, [])
    | .wants => (rest, [])
    | .failed => ({ rest with isOpen := false }, [.brokenPipe])

def sendFragment (msgId : UInt16) (r : DtlsChannel × List IoError) (f : Fragment) :
    DtlsChannel × List IoError :=
  let (c, errors) := r.1.secureSend (wrapUdpFragment .bestEffort 0 msgId f)
  (c, r.2 ++ errors)

def sendLarge (bytes : Bytes) : DtlsChannel × List IoError :=
  if bytes.length > c.maxMessageBytes then (c, [.messageTooLarge])
  else
    (split bytes c.recordBudget).foldl (sendFragment c.outMsgId)
      ({ c with outMsgId := c.outMsgId + 1 }, [])

def send (bytes : Bytes) : DtlsChannel × List IoError :=
  if !c.isOpen || !c.ready then (c, [])
  else if bytes.length + udpEnvelopeOverhead > c.recordBudget then c.sendLarge bytes
  else c.secureSend (wrapUdp .bestEffort 0 bytes)

/-- The limits a channel was made with. -/
structure SameLimits (c c' : DtlsChannel) : Prop where
  maxPayload : c'.maxPayload = c.maxPayload
  dataMtu : c'.dataMtu = c.dataMtu
  maxMessageBytes : c'.maxMessageBytes = c.maxMessageBytes

theorem SameLimits.recordBudget {c c' : DtlsChannel} (h : SameLimits c c') :
    c'.recordBudget = c.recordBudget := by
  unfold DtlsChannel.recordBudget
  rw [h.maxPayload, h.dataMtu]

theorem SameLimits.secureSend {c c' : DtlsChannel} (h : SameLimits c c') (bytes : Bytes) :
    SameLimits c (c'.secureSend bytes).1 := by
  unfold DtlsChannel.secureSend
  split
  · exact h
  · split <;> exact { h with }

theorem sameLimits_send (bytes : Bytes) : SameLimits c (c.send bytes).1 := by
  have hself : SameLimits c c := ⟨rfl, rfl, rfl⟩
  unfold send
  split
  · exact hself
  split
  · unfold sendLarge
    split
    · exact hself
    apply Plexus.Lib.run_invariant (fun r : DtlsChannel × List IoError => SameLimits c r.1)
    · intro r f hr
      exact hr.secureSend _
    · exact ⟨rfl, rfl, rfl⟩
  · exact hself.secureSend _

end DtlsChannel

/-- `shm/loan_status.h`. -/
inductive LoanStatus
  | ok | congested | rejected | empty | lagged | unknown
  deriving DecidableEq

/-- A channel over a ring; what happens to a payload that fits a slot is the ring's business. -/
structure ShmByteChannel (ρ : Type) where
  slotCapacity : Nat
  ring : ρ
  /-- Claim, copy, commit and signal. -/
  transfer : ρ → Bytes → LoanStatus × ρ
  released : Bool := false

namespace ShmByteChannel

variable {ρ : Type}

/-- `shm_channel::send`; `claim_with_policy` looks at the size before it looks at the ring. -/
def channelSend (c : ShmByteChannel ρ) (payload : Bytes) : LoanStatus × ρ :=
  if payload.length > c.slotCapacity then (.rejected, c.ring) else c.transfer c.ring payload

def send (c : ShmByteChannel ρ) (payload : Bytes) : ShmByteChannel ρ × List IoError :=
  match c.channelSend payload with
  | (.rejected, ring) => ({ c with ring }, [.messageTooLarge])
  | (.congested, ring) => ({ c with ring }, [.wouldBlock])
  | (_, ring) => ({ c with ring }, [])

end ShmByteChannel

inductive CappedChannel (ρ : Type)
  | udp (cfg : UdpChannelConfig) (mode : UdpChannelMode) (port : QuietPort cfg)
  | dtls (c : DtlsChannel)
  | shm (c : ShmByteChannel ρ)

namespace CappedChannel

variable {ρ : Type} {c : CappedChannel ρ} {frame : Bytes}

/-- The channel afterwards, and what `on_error` was told. -/
def send (c : CappedChannel ρ) (frame : Bytes) : CappedChannel ρ × List IoError :=
  match c with
  | .udp cfg mode port => (.udp cfg mode (port.send mode frame).1, (port.send mode frame).2)
  | .dtls c => (.dtls (c.send frame).1, (c.send frame).2)
  | .shm c => (.shm (c.send frame).1, (c.send frame).2)

def close : CappedChannel ρ → CappedChannel ρ
  | .udp cfg mode port => .udp cfg mode port.close
  | .dtls c => .dtls { c with isOpen := false }
  | .shm c => .shm { c with released := true }

def isOpen : CappedChannel ρ → Bool
  | .udp _ _ port => port.port.channel.isOpen
  | .dtls c => c.isOpen
  | .shm c => !c.released

/-- A send is not dropped at the door. -/
def takes : CappedChannel ρ → Bool
  | .udp _ _ port => port.port.channel.isOpen
  | .dtls c => c.isOpen && c.ready
  | .shm _ => true

/-- The largest message. -/
def ceiling : CappedChannel ρ → Nat
  | .udp cfg _ _ => cfg.maxMessageBytes
  | .dtls c => c.maxMessageBytes
  | .shm c => c.slotCapacity

/-- A frame of this size comes past the ceiling's check: it does not fit one datagram or record. -/
def measures (size : Nat) : CappedChannel ρ → Bool
  | .udp cfg .bestEffort _ => size + udpEnvelopeOverhead > cfg.maxPayload
  | .udp cfg .reliableDatagram _ => cfg.isLarge size
  | .dtls c => size + udpEnvelopeOverhead > c.recordBudget
  | .shm _ => true

theorem isOpen_close (c : CappedChannel ρ) : c.close.isOpen = false := by
  cases c <;> rfl

/-- **A channel refuses what is above its ceiling, and is left as it was.** -/
theorem send_oversize (htakes : c.takes) (hover : c.ceiling < frame.length)
    (hmeasured : c.measures frame.length) : c.send frame = (c, [.messageTooLarge]) := by
  cases c with
  | udp cfg mode port =>
    have hopen : port.port.channel.isOpen := htakes
    have hsend : port.send mode frame = (port, [.messageTooLarge]) := by
      apply QuietPort.send_of_reports
      cases mode with
      | bestEffort =>
        have hlarge : frame.length + udpEnvelopeOverhead > cfg.maxPayload := of_decide_eq_true hmeasured
        have hsent : port.port.send .bestEffort frame = port.port.sendBestEffortLarge frame := by
          simp only [UdpPort.send, hopen, Bool.not_true, Bool.false_eq_true, if_false, if_pos hlarge]
        rw [hsent]
        exact if_pos hover
      | reliableDatagram =>
        have hrefused : port.port.channel.send frame = port.port.channel.rejectOversize :=
          congrArg Prod.fst (UdpChannel.sendReliable_oversize hmeasured hover hopen)
        show port.port.advance (port.port.channel.send frame) = _
        rw [hrefused]
        exact advance_of_wire rfl
    simp only [send, hsend]
  | dtls c =>
    have hready : (!c.isOpen || !c.ready) = false := by
      have hboth : (c.isOpen && c.ready) := htakes
      rw [← Bool.not_and, hboth]
      rfl
    have hlarge : c.send frame = c.sendLarge frame := by
      rw [DtlsChannel.send, if_neg (by rw [hready]; exact Bool.false_ne_true)]
      exact if_pos (of_decide_eq_true hmeasured)
    have hrefused : c.sendLarge frame = (c, [.messageTooLarge]) := if_pos hover
    simp only [send, hlarge, hrefused]
  | shm c =>
    have hrejected : c.channelSend frame = (.rejected, c.ring) := if_pos hover
    simp only [send, ShmByteChannel.send, hrejected]

theorem send_of_not_takes (htakes : c.takes = false) : c.send frame = (c, []) := by
  cases c with
  | udp cfg mode port =>
    have hclosed : port.port.channel.isOpen = false := htakes
    have hsend : port.send mode frame = (port, []) := by
      apply QuietPort.send_of_reports
      rw [append_nil]
      cases mode with
      | bestEffort =>
        have hsame : port.port.send .bestEffort frame = port.port := by
          simp only [UdpPort.send, hclosed, Bool.not_false, if_true]
        exact hsame
      | reliableDatagram =>
        have hkept : port.port.channel.send frame = port.port.channel :=
          congrArg Prod.fst (UdpChannel.sendReliable_closed (by rw [hclosed]; exact Bool.false_ne_true))
        show port.port.advance (port.port.channel.send frame) = _
        rw [hkept]
        exact advance_of_wire rfl
    simp only [send, hsend]
  | dtls c =>
    have hunready : (!c.isOpen || !c.ready) := by
      have hboth : (c.isOpen && c.ready) = false := htakes
      rw [← Bool.not_and, hboth]
      rfl
    have hsame : c.send frame = (c, []) := if_pos hunready
    simp only [send, hsame]
  | shm c => cases htakes

theorem not_tooLarge_of_not_measured (hmeasured : c.measures frame.length = false) :
    IoError.messageTooLarge ∉ (c.send frame).2 := by
  cases c with
  | udp cfg mode port =>
    obtain ⟨p, quiet⟩ := port
    show .messageTooLarge ∉ (p.send mode frame).channel.errors
    cases mode with
    | bestEffort =>
      have hsmall : ¬ frame.length + udpEnvelopeOverhead > cfg.maxPayload := of_decide_eq_false hmeasured
      have hsame : (p.send .bestEffort frame).channel = p.channel := by
        unfold UdpPort.send
        dsimp only
        split <;> rfl
      rw [hsame, quiet]
      exact not_mem_nil
    | reliableDatagram =>
      show .messageTooLarge ∉ (p.channel.sendReliable frame).1.errors
      have hsmall : ¬ cfg.isLarge frame.length = true := by
        rw [show cfg.isLarge frame.length = false from hmeasured]
        exact Bool.false_ne_true
      unfold UdpChannel.sendReliable
      split
      · rw [quiet]
        exact not_mem_nil
      unfold UdpChannel.submit
      split
      · rw [quiet]
        exact not_mem_nil
      unfold UdpChannel.onWindowFull
      split
      · rw [quiet]
        exact not_mem_nil
      split
      · rw [quiet]
        exact fun h => nomatch mem_singleton.mp h
      · rw [quiet]
        exact not_mem_nil
  | dtls c =>
    show .messageTooLarge ∉ (c.send frame).2
    have hsmall : ¬ frame.length + udpEnvelopeOverhead > c.recordBudget := of_decide_eq_false hmeasured
    unfold DtlsChannel.send
    split
    · exact not_mem_nil
    unfold DtlsChannel.secureSend
    split
    · exact not_mem_nil
    split
    · exact not_mem_nil
    · exact not_mem_nil
    · exact fun h => nomatch mem_singleton.mp h
  | shm c => cases hmeasured

end CappedChannel

/-! ## The slot -/

/-- A slot of the registry: the session, its channel, and the driver that dials for it. -/
structure SessionSlot (ρ : Type) where
  /-- A slot that was accepted owns no redial. -/
  dialed : Bool
  /-- The session's transport-drop callback is set. -/
  dropWired : Bool := true
  state : SessionState
  driver : Reconnect
  channel : CappedChannel ρ
  /-- Ghost: how often `transport.dial` was called. -/
  dials : Nat := 0

namespace SessionSlot

variable {ρ : Type} {s : SessionSlot ρ} {frame : Bytes}

/-- `tear_down`, which closes the channel as well. -/
def tearDown (s : SessionSlot ρ) : SessionSlot ρ :=
  { s with state := s.state.tearDown, channel := s.channel.close }

/-- The callbacks of `wire_drop` and `wire_inbound_drop`. -/
def onTransportDrop (s : SessionSlot ρ) (now : Nat) : SessionSlot ρ :=
  if s.dialed then { s with driver := s.driver.onChannelDropped now } else s.tearDown

/-- The `on_error` callback of `peer_session::start`. -/
def onError (now : Nat) (s : SessionSlot ρ) (e : IoError) : SessionSlot ρ :=
  if e = .wouldBlock then s
  else if s.dropWired && !s.state.session.tornDown && !s.state.session.closedForProtocolError then
    s.onTransportDrop now
  else s

/-- A frame is put on the session's channel. -/
def put (now : Nat) (s : SessionSlot ρ) (frame : Bytes) : SessionSlot ρ :=
  match s.channel.send frame with
  | (channel, errors) => errors.foldl (onError now) { s with channel }

/-- The backoff wait reaches its end. -/
def expire (s : SessionSlot ρ) : SessionSlot ρ := { s with driver := s.driver.expire }

/-- Its completion runs: `dial()`, which tears the session down first. -/
def backoff (s : SessionSlot ρ) : SessionSlot ρ :=
  if s.driver.queued = 0 then s
  else
    { s.tearDown with
      driver := { s.driver with queued := s.driver.queued - 1 }.dial
      dials := s.dials + 1 }

/-- Somebody hears of a broken channel. -/
def Listening (s : SessionSlot ρ) : Prop :=
  s.dropWired = true ∧ s.state.session.tornDown = false ∧ s.state.session.closedForProtocolError = false

/-- The frame is refused with `message_too_large`, and that is all. -/
def CostsOnlyItself (s : SessionSlot ρ) (now : Nat) (frame : Bytes) : Prop :=
  (s.channel.send frame).2 = [.messageTooLarge] ∧ s.put now frame = s

theorem onError_of_listening (h : s.Listening) (now : Nat) :
    s.onError now .messageTooLarge = s.onTransportDrop now := by
  obtain ⟨hwired, hlive, hclean⟩ := h
  rw [onError, hwired, hlive, hclean]
  rfl

theorem onError_of_not_listening (h : ¬ s.Listening) (now : Nat) (e : IoError) :
    s.onError now e = s := by
  unfold onError
  split
  · rfl
  split
  · rename_i hheard
    refine absurd ?_ h
    simpa [Listening, and_assoc] using hheard
  · rfl

theorem attempt_onChannelDropped (d : Reconnect) (now : Nat) :
    (d.onChannelDropped now).attempt = d.attempt + 1 := by
  unfold Reconnect.onChannelDropped Reconnect.scheduleRedial
  dsimp only
  split <;> rfl

/-- A drop is never without effect: the driver counts an attempt, or the session is torn down. -/
theorem onTransportDrop_ne (h : s.Listening) (now : Nat) : s.onTransportDrop now ≠ s := by
  intro heq
  unfold onTransportDrop at heq
  split at heq
  · have hattempt := congrArg (fun s : SessionSlot ρ => s.driver.attempt) heq
    have hcounted := attempt_onChannelDropped s.driver now
    rw [show (s.driver.onChannelDropped now).attempt = s.driver.attempt from hattempt] at hcounted
    have hnat := congrArg UInt32.toNat hcounted
    rw [UInt32.toNat_add] at hnat
    have hone : (1 : UInt32).toNat = 1 := rfl
    omega
  · have htorn := congrArg (fun s : SessionSlot ρ => s.state.session.tornDown) heq
    exact absurd (h.2.1.symm.trans htorn.symm) Bool.false_ne_true

theorem put_oversize_of_not_listening (h : ¬ s.Listening)
    (hover : s.channel.ceiling < frame.length) (hmeasured : s.channel.measures frame.length)
    (now : Nat) : s.put now frame = s := by
  unfold put
  cases htakes : s.channel.takes with
  | true =>
    rw [CappedChannel.send_oversize htakes hover hmeasured]
    exact onError_of_not_listening h now .messageTooLarge
  | false =>
    rw [CappedChannel.send_of_not_takes htakes]
    rfl

theorem put_oversize_of_listening (h : s.Listening) (htakes : s.channel.takes)
    (hover : s.channel.ceiling < frame.length) (hmeasured : s.channel.measures frame.length)
    (now : Nat) : s.put now frame = s.onTransportDrop now := by
  unfold put
  rw [CappedChannel.send_oversize htakes hover hmeasured]
  exact onError_of_listening h now

theorem put_of_not_listening (h : ¬ s.Listening) (now : Nat) (frame : Bytes) :
    s.put now frame = { s with channel := (s.channel.send frame).1 } := by
  unfold put
  generalize s.channel.send frame = sent
  obtain ⟨channel, errors⟩ := sent
  have hquiet : ¬ SessionSlot.Listening { s with channel := channel } := h
  show errors.foldl (onError now) { s with channel := channel } = { s with channel := channel }
  induction errors with
  | nil => rfl
  | cons e errors ih =>
    rw [foldl_cons, onError_of_not_listening hquiet]
    exact ih

end SessionSlot

theorem CappedChannel.limits_send {ρ : Type} (c : CappedChannel ρ) (frame : Bytes) :
    (c.send frame).1.ceiling = c.ceiling ∧
      ∀ size, (c.send frame).1.measures size = c.measures size := by
  cases c with
  | udp cfg mode port => exact ⟨rfl, fun size => by cases mode <;> rfl⟩
  | dtls c =>
    have hsame := c.sameLimits_send frame
    refine ⟨hsame.maxMessageBytes, fun size => ?_⟩
    show decide (size + udpEnvelopeOverhead > (c.send frame).1.recordBudget) = _
    rw [hsame.recordBudget]
    rfl
  | shm c =>
    refine ⟨?_, fun size => rfl⟩
    show (c.send frame).1.slotCapacity = c.slotCapacity
    unfold ShmByteChannel.send
    split <;> rfl

namespace SessionSlot

variable {ρ : Type} {s : SessionSlot ρ} {frame : Bytes}

/-- The frames that are not above the ceiling. -/
def within (ceiling : Nat) (frames : List Bytes) : List Bytes :=
  frames.filter (fun frame => frame.length ≤ ceiling)

theorem foldl_put_within (h : ¬ s.Listening) (now : Nat) (frames : List Bytes)
    (hmeasured : ∀ frame ∈ frames, s.channel.ceiling < frame.length →
      s.channel.measures frame.length = true) :
    frames.foldl (put now) s = (within s.channel.ceiling frames).foldl (put now) s := by
  induction frames generalizing s with
  | nil => rfl
  | cons frame frames ih =>
    obtain ⟨hfirst, hrest⟩ := forall_mem_cons.mp hmeasured
    by_cases hover : s.channel.ceiling < frame.length
    · have hskip : within s.channel.ceiling (frame :: frames) = within s.channel.ceiling frames :=
        filter_cons_of_neg (by simpa using hover)
      rw [hskip, foldl_cons, put_oversize_of_not_listening h hover (hfirst hover)]
      exact ih h hrest
    have hkeep : within s.channel.ceiling (frame :: frames) =
        frame :: within s.channel.ceiling frames :=
      filter_cons_of_pos (by simpa using hover)
    obtain ⟨hceiling, hmeasures⟩ := s.channel.limits_send frame
    have hput := put_of_not_listening h now frame
    rw [hkeep, foldl_cons, foldl_cons, hput]
    have hnext := ih (s := { s with channel := (s.channel.send frame).1 }) h (by
      intro other hmem hother
      have hother' : s.channel.ceiling < other.length := hceiling ▸ hother
      rw [hmeasures]
      exact hrest other hmem hother')
    rw [show CappedChannel.ceiling (s.channel.send frame).1 = _ from hceiling] at hnext
    exact hnext

/-- **When an oversize send costs only itself.** A frame above the ceiling is refused, with the
channel, the session and the driver left as they were, if and only if it is measured and nobody
listens for a drop; in any row of sends such frames then leave no trace. Where somebody listens, the
refusal of one message is the drop of the transport: the driver of a dialed slot counts an attempt
and arms its redial or surrenders, the session of an accepted slot is torn down and its channel
closed. -/
theorem oversize_costs_only_itself_iff (s : SessionSlot ρ) (now : Nat) :
    (∀ frame, s.channel.takes = true → s.channel.ceiling < frame.length →
        (s.CostsOnlyItself now frame ↔ s.channel.measures frame.length = true ∧ ¬ s.Listening)) ∧
      (¬ s.Listening → ∀ frames, (∀ frame ∈ frames, s.channel.ceiling < frame.length →
          s.channel.measures frame.length = true) →
        frames.foldl (put now) s = (within s.channel.ceiling frames).foldl (put now) s) ∧
      ∀ frame, s.channel.takes = true → s.channel.ceiling < frame.length →
        s.channel.measures frame.length = true → s.Listening →
        if s.dialed = true then
          (s.put now frame).driver.attempt = s.driver.attempt + 1 ∧
            ((s.put now frame).driver.armed = true ∨ (s.put now frame).driver.surrendered = true)
        else (s.put now frame).state.session.tornDown = true ∧ (s.put now frame).channel.isOpen = false := by
  refine ⟨?_, fun h frames hmeasured => foldl_put_within h now frames hmeasured, ?_⟩
  · intro frame htakes hover
    constructor
    · rintro ⟨hrefused, hsame⟩
      have hmeasured : s.channel.measures frame.length := by
        by_contra hnot
        apply CappedChannel.not_tooLarge_of_not_measured (Bool.eq_false_of_not_eq_true hnot)
        rw [hrefused]
        exact List.mem_singleton_self _
      refine ⟨hmeasured, ?_⟩
      intro hlistens
      rw [put_oversize_of_listening hlistens htakes hover hmeasured] at hsame
      exact onTransportDrop_ne hlistens now hsame
    · rintro ⟨hmeasured, hdeaf⟩
      refine ⟨?_, put_oversize_of_not_listening hdeaf hover hmeasured now⟩
      rw [CappedChannel.send_oversize htakes hover hmeasured]
  · intro frame htakes hover hmeasured hlistens
    rw [put_oversize_of_listening hlistens htakes hover hmeasured, onTransportDrop]
    split
    · refine ⟨attempt_onChannelDropped s.driver now, ?_⟩
      show (s.driver.onChannelDropped now).armed = true ∨ (s.driver.onChannelDropped now).surrendered = true
      unfold Reconnect.onChannelDropped Reconnect.scheduleRedial
      dsimp only
      split
      · exact .inr rfl
      · exact .inl rfl
    · exact ⟨rfl, CappedChannel.isOpen_close s.channel⟩

/-! ## A dialed slot and an accepted one -/

/-- The default limits of a UDP channel. -/
def defaultUdp : UdpChannelConfig where
  maxPayload := 1200
  backpressureBytes := 8 * 1024 * 1024
  maxMessageBytes := 8 * 1024 * 1024

/-- One byte more than the channel takes. -/
def tooLarge : Bytes := replicate (8 * 1024 * 1024 + 1) 0

theorem length_tooLarge : tooLarge.length = 8 * 1024 * 1024 + 1 := length_replicate

/-- A session that is up, over a UDP channel of this mode. -/
def upSlot (dialed dropWired : Bool) (mode : UdpChannelMode) : SessionSlot Unit where
  dialed := dialed
  dropWired := dropWired
  state :=
    { session :=
        { peer := ⟨{ key := 1, scheme := [0x75, 0x64, 0x70], polls := true, lowWater := 0 }, [0x70]⟩
          forwardersInstalled := true }
      world := World.quiet }
  driver := { cfg := {} }
  channel := .udp defaultUdp mode ⟨{}, rfl⟩

section

variable (dialed dropWired : Bool) (mode : UdpChannelMode)

theorem measures_tooLarge : (upSlot dialed dropWired mode).channel.measures tooLarge.length := by
  rw [length_tooLarge]
  cases mode with
  | bestEffort =>
    show decide (8 * 1024 * 1024 + 1 + udpEnvelopeOverhead > defaultUdp.maxPayload) = true
    decide
  | reliableDatagram =>
    show defaultUdp.isLarge (8 * 1024 * 1024 + 1) = true
    decide

theorem ceiling_lt_tooLarge : (upSlot dialed dropWired mode).channel.ceiling < tooLarge.length := by
  rw [length_tooLarge]
  show 8 * 1024 * 1024 < 8 * 1024 * 1024 + 1
  decide

end

theorem oversize_costs_only_itself_unwired :
    (upSlot true false .bestEffort).CostsOnlyItself 0 tooLarge := by
  apply ((oversize_costs_only_itself_iff (upSlot true false .bestEffort) 0).1 tooLarge rfl
    (ceiling_lt_tooLarge true false .bestEffort)).mpr
  exact ⟨measures_tooLarge true false .bestEffort, fun h => nomatch h.1⟩

/-- Two complete sessions over open channels, and a message of 8 MiB and a byte. The dialed one arms
its redial and later dials again; the accepted one is torn down at once. -/
theorem oversize_send_drops_session :
    let dialed := (upSlot true true .reliableDatagram).put 0 tooLarge
    let accepted := (upSlot false true .bestEffort).put 0 tooLarge
    ((upSlot true true .reliableDatagram).state.session.forwardersInstalled = true ∧
        dialed.driver.armed = true ∧ dialed.expire.backoff.dials = 1 ∧
        dialed.expire.backoff.channel.isOpen = false ∧
        dialed.expire.backoff.state.session.tornDown = true) ∧
      accepted.channel.isOpen = false ∧ accepted.state.session.forwardersInstalled = false := by
  have hdrops : ∀ dialed mode, (upSlot dialed true mode).put 0 tooLarge =
      (upSlot dialed true mode).onTransportDrop 0 := fun dialed mode =>
    put_oversize_of_listening ⟨rfl, rfl, rfl⟩ rfl (ceiling_lt_tooLarge dialed true mode)
      (measures_tooLarge dialed true mode) 0
  rw [hdrops, hdrops]
  exact ⟨⟨rfl, rfl, rfl, rfl, rfl⟩, rfl, rfl⟩

end SessionSlot

end Plexus.Io
