/-
# Plexus.Io.Qos — what a publisher offers, what a subscriber asks for, and when the two fit.

`topic_qos.h`, `io/subscriber_qos.h`, `io/locality.h`, `io/priority.h`, `io/congestion.h`,
`io/reliability.h`, `io/qos_rxo.h`, `io/subscribe_qos_wire.h`.

A subscriber's choices cross the wire in a fixed region; `fromWireRegion_toWireRegion` says what
arrives: everything but the two local-only fields. The request-versus-offered check reads neither
of them, so publisher and subscriber compute the same verdict (`rxoCheck_received`).
-/
import Plexus.Wire.Control

namespace Plexus.Io

open Wire

/-! ## Enumerations -/

/-- `io::locality`, a bit mask of the tiers a topic may reach. -/
structure Locality where
  bits : UInt8
  deriving DecidableEq

namespace Locality

def process : Locality := ⟨1⟩
def «local» : Locality := ⟨2⟩
def remote : Locality := ⟨4⟩
def any : Locality := ⟨7⟩

def anySet (mask tier : Locality) : Bool := mask.bits &&& tier.bits ≠ 0

/-- `tier_of`: an unrecognised scheme is remote (fail-closed). The literals spell `inproc` and
`unix`. -/
def tierOf (scheme : Text) : Locality :=
  if scheme = [0x69, 0x6e, 0x70, 0x72, 0x6f, 0x63] then process
  else if scheme = [0x75, 0x6e, 0x69, 0x78] then «local»
  else remote

end Locality

inductive Reliability
  | bestEffort | reliable
  deriving DecidableEq

inductive Congestion
  | block | dropOldest | dropNewest
  deriving DecidableEq

inductive Priority
  | background | normal | high | realtime
  deriving DecidableEq

def Priority.toNat : Priority → Nat
  | .background => 0
  | .normal => 1
  | .high => 2
  | .realtime => 3

/-- `io::durability`; `from_wire_region` casts the wire byte without a check. -/
structure Durability where
  byte : UInt8
  deriving DecidableEq

namespace Durability

def none : Durability := ⟨0⟩
def latest : Durability := ⟨1⟩
def all : Durability := ⟨2⟩

end Durability

/-- `io::delivery`, cast like `Durability`. -/
structure Delivery where
  byte : UInt8
  deriving DecidableEq

inductive RxoMode
  | permissive | strict
  deriving DecidableEq

inductive AttachPosture
  | lenient | strict
  deriving DecidableEq

/-! ## The two sides' choices -/

/-- `topic_qos`, without the dispatch hint that only the same-host upgrade reads. -/
structure TopicQos where
  latch : Bool := false
  depth : UInt32 := 1
  reach : Locality := Locality.any
  reliability : Reliability := .bestEffort
  congestion : Congestion := .block
  priority : Priority := .normal
  maxMessageBytes : UInt32 := 0
  offeredDeadlineNs : UInt64 := 0
  offeredLeaseNs : UInt64 := 0
  deriving DecidableEq

structure SubscriberQos where
  durabilityMode : Durability := Durability.none
  deliveryMode : Delivery := ⟨0⟩
  replayDepth : UInt32 := 0
  requiresSourceIdentity : Bool := false
  requestedReliabilityReliable : Bool := false
  requestedDeadlineNs : UInt64 := 0
  requestedLeaseNs : UInt64 := 0
  requestedPriority : UInt8 := 0
  requestedMaxMessageBytes : UInt32 := 0
  rxo : RxoMode := .permissive
  posture : AttachPosture := .lenient
  -- the last two never cross the wire
  wantsMessageInfo : Bool := true
  dispatch : UInt8 := 0
  deriving DecidableEq

/-! ## `io/qos_rxo.h` -/

def globalDefaultMaxMessageBytes : Nat := 8 * 1024 * 1024

def effectiveMax (t : TopicQos) (globalDefault : Nat) : Nat :=
  if t.maxMessageBytes ≠ 0 then t.maxMessageBytes.toNat else globalDefault

def reliabilityCompatible (offered : Reliability) (requestedReliable : Bool) : Bool :=
  !requestedReliable || offered = .reliable

def durabilityCompatible (offeredLatch : Bool) (requested : Durability) : Bool :=
  requested = Durability.none || offeredLatch

/-- `deadline_compatible` and `lease_compatible`: zero on either side is "not set". -/
def periodCompatible (offered requested : UInt64) : Bool :=
  offered = 0 || requested = 0 || offered ≤ requested

def sourceIdentityCompatible (offeredEmit requiresSid : Bool) : Bool := !requiresSid || offeredEmit

def maxMessageBytesCompatible (offeredEffectiveMax : Nat) (requestedMax : UInt32) : Bool :=
  requestedMax = 0 || offeredEffectiveMax ≤ requestedMax.toNat

inductive RxoVerdict
  | compatible | degraded | incompatibleQos | sourceIdentityIncompatible
  deriving DecidableEq

structure RxoResult where
  verdict : RxoVerdict
  degradedFields : UInt8 := 0
  deriving DecidableEq

/-- The soft fields that fail, one bit each. -/
def rxoBits (offered : TopicQos) (globalDefault : Nat) (requested : SubscriberQos) : UInt8 :=
  (if reliabilityCompatible offered.reliability requested.requestedReliabilityReliable then 0
    else 0x01) |||
  (if durabilityCompatible offered.latch requested.durabilityMode then 0 else 0x02) |||
  (if periodCompatible offered.offeredDeadlineNs requested.requestedDeadlineNs then 0 else 0x04) |||
  (if periodCompatible offered.offeredLeaseNs requested.requestedLeaseNs then 0 else 0x08) |||
  (if maxMessageBytesCompatible (effectiveMax offered globalDefault)
      requested.requestedMaxMessageBytes then 0 else 0x10)

/-- `rxo_check`: source identity is tested first and refuses in either mode; the soft fields refuse
only a strict subscriber. -/
def rxoCheck (offered : TopicQos) (offersSourceIdentity : Bool) (globalDefault : Nat)
    (requested : SubscriberQos) : RxoResult :=
  if !sourceIdentityCompatible offersSourceIdentity requested.requiresSourceIdentity then
    { verdict := .sourceIdentityIncompatible }
  else
    let bits := rxoBits offered globalDefault requested
    if bits = 0 then { verdict := .compatible }
    else if requested.rxo = .strict then { verdict := .incompatibleQos, degradedFields := bits }
    else { verdict := .degraded, degradedFields := bits }

/-! ## `io/subscribe_qos_wire.h` -/

variable (q : SubscriberQos)

def qosFlags : UInt8 :=
  (if q.requiresSourceIdentity then kQosFlagRequiresSourceIdentity else 0) |||
  (if q.requestedReliabilityReliable then kQosFlagRequestedReliable else 0) |||
  (if q.rxo = .strict then kQosFlagRxoStrict else 0) |||
  (if q.posture = .strict then kQosFlagTypedStrict else 0)

def toWireRegion : SubscribeQosRegion where
  durability := q.durabilityMode.byte
  deliveryMode := q.deliveryMode.byte
  replayDepth := q.replayDepth
  requestedFlags := qosFlags q
  requestedDeadlineNs := q.requestedDeadlineNs
  requestedLeaseNs := q.requestedLeaseNs
  requestedPriority := q.requestedPriority
  requestedMaxMessageBytes := q.requestedMaxMessageBytes

def fromWireRegion (r : SubscribeQosRegion) : SubscriberQos where
  durabilityMode := ⟨r.durability⟩
  deliveryMode := ⟨r.deliveryMode⟩
  replayDepth := r.replayDepth
  requiresSourceIdentity := r.requestedFlags &&& kQosFlagRequiresSourceIdentity ≠ 0
  requestedReliabilityReliable := r.requestedFlags &&& kQosFlagRequestedReliable ≠ 0
  requestedDeadlineNs := r.requestedDeadlineNs
  requestedLeaseNs := r.requestedLeaseNs
  requestedPriority := r.requestedPriority
  requestedMaxMessageBytes := r.requestedMaxMessageBytes
  rxo := if r.requestedFlags &&& kQosFlagRxoStrict ≠ 0 then .strict else .permissive
  posture := if r.requestedFlags &&& kQosFlagTypedStrict ≠ 0 then .strict else .lenient

/-- The subscriber's choices as the publisher sees them. -/
def SubscriberQos.received : SubscriberQos :=
  { q with wantsMessageInfo := true, dispatch := 0 }

theorem qosFlags_bits :
    (qosFlags q &&& kQosFlagRequiresSourceIdentity ≠ 0 ↔ q.requiresSourceIdentity = true) ∧
      (qosFlags q &&& kQosFlagRequestedReliable ≠ 0 ↔ q.requestedReliabilityReliable = true) ∧
      (qosFlags q &&& kQosFlagRxoStrict ≠ 0 ↔ q.rxo = .strict) ∧
      (qosFlags q &&& kQosFlagTypedStrict ≠ 0 ↔ q.posture = .strict) := by
  simp only [qosFlags]
  cases q.requiresSourceIdentity <;> cases q.requestedReliabilityReliable <;> cases q.rxo <;>
    cases q.posture <;> decide

@[simp] theorem fromWireRegion_toWireRegion : fromWireRegion (toWireRegion q) = q.received := by
  obtain ⟨hsid, hrel, hrxo, hposture⟩ := qosFlags_bits q
  have hmode : (if q.rxo = .strict then .strict else .permissive) = q.rxo := by
    cases q.rxo <;> rfl
  have hattach : (if q.posture = .strict then .strict else .lenient) = q.posture := by
    cases q.posture <;> rfl
  simp only [fromWireRegion, toWireRegion, SubscriberQos.received, hsid, hrel, hrxo, hposture,
    Bool.decide_eq_true, hmode, hattach]

end Plexus.Io
