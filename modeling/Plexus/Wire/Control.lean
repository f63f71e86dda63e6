/-
# Plexus.Wire.Control — the control frames of the subscription protocol.

`wire/topic_hash.h`, `wire/length_prefixed.h`, `wire/subscribe.h` with
`wire/detail/subscribe_codec.h` and `wire/fetch_latched.h`. A `std::string` is a string of bytes:
nothing on either side checks an encoding. Enumerations that a decoder casts from an unchecked byte
keep every byte as a value.

The round trip of the subscribe request (`decodeSubscribeRequest_encode`) holds for every name the
decoder's lids let through.
-/
import Plexus.Wire.Cursor

namespace Plexus.Wire

open Lib List

/-- `std::string`: bytes, with no promise about their encoding. -/
abbrev Text := Bytes

/-! ## `wire/topic_hash.h` -/

/-- `fqn_topic_hash`: 64-bit FNV-1a over the bytes of the name. -/
def fqnTopicHash (fqn : Text) : UInt64 :=
  fqn.foldl (fun h c => (h ^^^ c.toUInt64) * 1099511628211) 1469598103934665603

/-! ## `wire/length_prefixed.h` -/

/-- `read_length_prefixed<uint16_t>`: the payload and the offset behind it. `element_size` is one at
every call, so the source's pre-multiply overflow test never fires. -/
def readLengthPrefixedU16 (data : Bytes) (consumed : Nat) : Option (Bytes × Nat) :=
  if consumed > data.length then none
  else if data.length - consumed < 2 then none
  else
    let length := (readU16 (data.drop consumed)).toNat
    if length > data.length - consumed - 2 then none
    else some ((data.drop (consumed + 2)).take length, consumed + 2 + length)

/-- A prefixed string is read back wherever it stands, whatever follows it. -/
theorem readLengthPrefixedU16_write {s data : Bytes} {consumed : Nat} (hs : s.length < 2 ^ 16)
    (pre rest : Bytes) (hconsumed : pre.length = consumed)
    (hdata : pre ++ (writeU16 (UInt16.ofNat s.length) ++ (s ++ rest)) = data) :
    readLengthPrefixedU16 data consumed = some (s, consumed + 2 + s.length) := by
  subst hconsumed hdata
  have hlen : (UInt16.ofNat s.length).toNat = s.length := UInt16.toNat_ofNat_of_lt' hs
  have hdrop : (pre ++ (writeU16 (UInt16.ofNat s.length) ++ (s ++ rest))).drop (pre.length + 2) =
      s ++ rest := by
    rw [← drop_drop, drop_left, drop_left' (length_writeU16 _)]
  have htotal : (pre ++ (writeU16 (UInt16.ofNat s.length) ++ (s ++ rest))).length =
      pre.length + (2 + (s.length + rest.length)) := by
    simp
  rw [readLengthPrefixedU16, if_neg (by omega), if_neg (by omega), hdrop, drop_left,
    readU16_writeU16, hlen]
  simp only [take_left]
  rw [if_neg (by omega)]

/-! ## `wire/subscribe.h` -/

/-- `endpoint_source_type`; the decoders cast the wire byte without a check. Only the values the
forwarders write are named. -/
structure EndpointSourceType where
  byte : UInt8
  deriving DecidableEq

namespace EndpointSourceType

def publisher : EndpointSourceType := ⟨0x01⟩
def caller : EndpointSourceType := ⟨0x06⟩
def procedure : EndpointSourceType := ⟨0x07⟩

end EndpointSourceType

/-- `subscribe_status`; `decode_subscribe_response` casts the wire byte without a check. -/
structure SubscribeStatus where
  byte : UInt8
  deriving DecidableEq

namespace SubscribeStatus

def subscribed : SubscribeStatus := ⟨0x01⟩
def typeMismatch : SubscribeStatus := ⟨0x03⟩
def incompatibleQos : SubscribeStatus := ⟨0x05⟩
def sourceIdentityIncompatible : SubscribeStatus := ⟨0x06⟩
def subscribedDegraded : SubscribeStatus := ⟨0x07⟩
def typeUndeclared : SubscribeStatus := ⟨0x08⟩

end SubscribeStatus

structure SubscribeQosRegion where
  durability : UInt8
  deliveryMode : UInt8
  replayDepth : UInt32
  requestedFlags : UInt8
  requestedDeadlineNs : UInt64
  requestedLeaseNs : UInt64
  requestedPriority : UInt8
  requestedMaxMessageBytes : UInt32
  deriving DecidableEq

/-- `subscribe_request`. `qos = none` is `has_qos = false`: the region is then neither written nor
read. -/
structure SubscribeRequest where
  fqn : Text
  typeName : Text
  topicHash : UInt64
  typeHash : UInt64
  source : EndpointSourceType
  qos : Option SubscribeQosRegion := none
  deriving DecidableEq

/-- `subscribe_response`. `degradedFlags = none` is `has_degraded = false`. -/
structure SubscribeResponse where
  topicHash : UInt64
  status : SubscribeStatus
  degradedFlags : Option UInt8 := none
  deriving DecidableEq

structure UnsubscribeRequest where
  topicHash : UInt64
  deriving DecidableEq

structure FetchLatchedRequest where
  topicHash : UInt64
  maxSamples : UInt32
  deriving DecidableEq

def subscribeRequestFixedPrefix : Nat := 17
def subscribeRequestMinSize : Nat := 21
def subscribeResponseSize : Nat := 9
def unsubscribeRequestSize : Nat := 8
def fetchLatchedRequestSize : Nat := 12
def kMaxFqn : Nat := 1024
def kMaxTypeName : Nat := 512
def kQosRegionSize : Nat := 30
def kMaxQosRegion : Nat := 64

def kQosFlagRequiresSourceIdentity : UInt8 := 0x01
def kQosFlagRequestedReliable : UInt8 := 0x02
def kQosFlagRxoStrict : UInt8 := 0x04
def kQosFlagTypedStrict : UInt8 := 0x08

/-! ## `wire/detail/subscribe_codec.h` -/

def writeQosRegion (qos : SubscribeQosRegion) : Bytes :=
  writeU8 qos.durability ++ (writeU8 qos.deliveryMode ++ (writeU32 qos.replayDepth ++
    (writeU8 qos.requestedFlags ++ (writeU64 qos.requestedDeadlineNs ++
      (writeU64 qos.requestedLeaseNs ++ (writeU8 qos.requestedPriority ++
        (writeU32 qos.requestedMaxMessageBytes ++ (writeU8 0 ++ writeU8 0))))))))

variable (req : SubscribeRequest)

def writeSubscribeHead : Bytes :=
  writeU64 req.topicHash ++ (writeU64 req.typeHash ++ (writeU8 req.source.byte ++
    (writeU16 (UInt16.ofNat req.fqn.length) ++ (req.fqn ++
      (writeU16 (UInt16.ofNat req.typeName.length) ++ req.typeName)))))

def encodeSubscribeRequest : Bytes :=
  writeSubscribeHead req ++
    match req.qos with
    | none => []
    | some qos => writeU16 (UInt16.ofNat kQosRegionSize) ++ writeQosRegion qos

/-- The region's fields at their fixed offsets; the caller has checked the size. -/
def qosRegionAt (q : Bytes) : SubscribeQosRegion where
  durability := readU8 q
  deliveryMode := readU8 (q.drop 1)
  replayDepth := readU32 (q.drop 2)
  requestedFlags := readU8 (q.drop 6)
  requestedDeadlineNs := readU64 (q.drop 7)
  requestedLeaseNs := readU64 (q.drop 15)
  requestedPriority := readU8 (q.drop 23)
  requestedMaxMessageBytes := readU32 (q.drop 24)

variable (payload : Bytes)

/-- `read_subscribe_qos`: a region that is present must have the fixed size exactly. -/
def readSubscribeQos (consumed : Nat) : Option SubscribeQosRegion :=
  match readLengthPrefixedU16 payload consumed with
  | none => none
  | some (region, _) =>
    if region.length ≠ kQosRegionSize ∨ region.length > kMaxQosRegion then none
    else some (qosRegionAt region)

def decodeSubscribeRequest : Option SubscribeRequest :=
  if payload.length < subscribeRequestMinSize then none
  else
    match readLengthPrefixedU16 payload subscribeRequestFixedPrefix with
    | none => none
    | some (fqn, consumed) =>
      if fqn.length > kMaxFqn then none
      else
        match readLengthPrefixedU16 payload consumed with
        | none => none
        | some (typeName, consumed) =>
          if typeName.length > kMaxTypeName then none
          else
            let req : SubscribeRequest :=
              { fqn, typeName, topicHash := readU64 payload, typeHash := readU64 (payload.drop 8),
                source := ⟨readU8 (payload.drop 16)⟩ }
            if consumed < payload.length then
              match readSubscribeQos payload consumed with
              | none => none
              | some qos => some { req with qos := some qos }
            else some req

def encodeSubscribeResponse (resp : SubscribeResponse) : Bytes :=
  writeU64 resp.topicHash ++ (writeU8 resp.status.byte ++
    match resp.degradedFlags with
    | none => []
    | some flags => writeU8 flags)

def decodeSubscribeResponse : Option SubscribeResponse :=
  if payload.length < subscribeResponseSize then none
  else
    some
      { topicHash := readU64 payload
        status := ⟨readU8 (payload.drop 8)⟩
        degradedFlags :=
          if payload.length > subscribeResponseSize then some (readU8 (payload.drop 9)) else none }

def encodeUnsubscribeRequest (req : UnsubscribeRequest) : Bytes := writeU64 req.topicHash

def decodeUnsubscribeRequest : Option UnsubscribeRequest :=
  if payload.length < unsubscribeRequestSize then none else some ⟨readU64 payload⟩

def decodeFetchLatchedRequest : Option FetchLatchedRequest :=
  if payload.length < fetchLatchedRequestSize then none
  else some ⟨readU64 payload, readU32 (payload.drop 8)⟩

/-! ## The round trip of the subscribe request -/

@[simp] theorem length_writeQosRegion (qos : SubscribeQosRegion) :
    (writeQosRegion qos).length = kQosRegionSize := by
  simp [writeQosRegion, writeU8, kQosRegionSize]

theorem drop_writeU8 (v : UInt8) (rest : Bytes) (n : Nat) :
    (writeU8 v ++ rest).drop (n + 1) = rest.drop n := rfl

theorem drop_writeU32 (v : UInt32) (rest : Bytes) (n : Nat) :
    (writeU32 v ++ rest).drop (n + 4) = rest.drop n := by
  rw [add_comm, ← drop_drop, drop_left' (length_writeU32 v)]

theorem drop_writeU64 (v : UInt64) (rest : Bytes) (n : Nat) :
    (writeU64 v ++ rest).drop (n + 8) = rest.drop n := by
  rw [add_comm, ← drop_drop, drop_left' (length_writeU64 v)]

@[simp] theorem qosRegionAt_writeQosRegion (qos : SubscribeQosRegion) :
    qosRegionAt (writeQosRegion qos) = qos := by
  -- each offset is the sum of the widths before it
  have h1 := drop_writeU8 qos.durability
  have h2 := drop_writeU8 qos.deliveryMode
  have h6 := drop_writeU32 qos.replayDepth
  have h7 := drop_writeU8 qos.requestedFlags
  have h15 := drop_writeU64 qos.requestedDeadlineNs
  have h23 := drop_writeU64 qos.requestedLeaseNs
  have h24 := drop_writeU8 qos.requestedPriority
  simp only [qosRegionAt, writeQosRegion, h1 _ 0, h1 _ 1, h2 _ 0, h1 _ 5, h2 _ 4, h6 _ 0, h1 _ 6,
    h2 _ 5, h6 _ 1, h7 _ 0, h1 _ 14, h2 _ 13, h6 _ 9, h7 _ 8, h15 _ 0, h1 _ 22, h2 _ 21, h6 _ 17,
    h7 _ 16, h15 _ 8, h23 _ 0, h1 _ 23, h2 _ 22, h6 _ 18, h7 _ 17, h15 _ 9, h23 _ 1, h24 _ 0,
    drop_zero, readU8_writeU8, readU32_writeU32, readU64_writeU64]

/-- The encoding with its three parts named, so that each reader finds its own prefix. -/
theorem encodeSubscribeRequest_eq :
    encodeSubscribeRequest req =
      (writeU64 req.topicHash ++ (writeU64 req.typeHash ++ writeU8 req.source.byte)) ++
        (writeU16 (UInt16.ofNat req.fqn.length) ++ (req.fqn ++
          (writeU16 (UInt16.ofNat req.typeName.length) ++ (req.typeName ++
            match req.qos with
            | none => []
            | some qos => writeU16 (UInt16.ofNat kQosRegionSize) ++ writeQosRegion qos)))) := by
  simp [encodeSubscribeRequest, writeSubscribeHead]

theorem head_encodeSubscribeRequest :
    readU64 (encodeSubscribeRequest req) = req.topicHash ∧
      readU64 ((encodeSubscribeRequest req).drop 8) = req.typeHash ∧
        readU8 ((encodeSubscribeRequest req).drop 16) = req.source.byte := by
  rw [encodeSubscribeRequest_eq]
  simp only [append_assoc]
  refine ⟨readU64_writeU64 _ _, ?_, ?_⟩
  · rw [drop_writeU64 req.topicHash _ 0, drop_zero, readU64_writeU64]
  · rw [drop_writeU64 req.topicHash _ 8, drop_writeU64 req.typeHash _ 0, drop_zero, readU8_writeU8]

theorem readSubscribeQos_write {consumed : Nat} (pre : Bytes) (qos : SubscribeQosRegion)
    (hconsumed : pre.length = consumed)
    (hdata : pre ++ (writeU16 (UInt16.ofNat kQosRegionSize) ++ writeQosRegion qos) = payload) :
    readSubscribeQos payload consumed = some qos := by
  have hread := readLengthPrefixedU16_write (s := writeQosRegion qos) (by simp [kQosRegionSize])
    pre [] hconsumed (show _ = payload by rwa [length_writeQosRegion, append_nil])
  simp only [readSubscribeQos, hread, length_writeQosRegion, qosRegionAt_writeQosRegion]
  rfl

/-- **The publisher reads the request the subscriber wrote**, for every name within the lids. -/
theorem decodeSubscribeRequest_encode {req : SubscribeRequest} (hfqn : req.fqn.length ≤ kMaxFqn)
    (htype : req.typeName.length ≤ kMaxTypeName) :
    decodeSubscribeRequest (encodeSubscribeRequest req) = some req := by
  obtain ⟨hhash, htypeHash, hsource⟩ := head_encodeSubscribeRequest req
  have henc := encodeSubscribeRequest_eq req
  obtain ⟨fqn, typeName, topicHash, typeHash, source, qos⟩ := req
  simp only at hfqn htype hhash htypeHash hsource henc
  have hfqn' : fqn.length ≤ 1024 := hfqn
  have htype' : typeName.length ≤ 512 := htype
  generalize encodeSubscribeRequest ⟨fqn, typeName, topicHash, typeHash, source, qos⟩ = payload
    at henc hhash htypeHash hsource ⊢
  generalize hfixed : writeU64 topicHash ++ (writeU64 typeHash ++ writeU8 source.byte) = fixed at henc
  have hfixedLen : fixed.length = 17 := by simp [← hfixed, writeU8]
  generalize htail : (match qos with
    | none => []
    | some qos => writeU16 (UInt16.ofNat kQosRegionSize) ++ writeQosRegion qos) = tail at henc
  have hlen : payload.length = 17 + (2 + (fqn.length + (2 + (typeName.length + tail.length)))) := by
    simp [henc, hfixedLen]
  -- the two names, each read behind what stands before it
  have hreadFqn := readLengthPrefixedU16_write (s := fqn) (by omega) fixed
    (writeU16 (UInt16.ofNat typeName.length) ++ (typeName ++ tail)) hfixedLen henc.symm
  have hreadType := readLengthPrefixedU16_write (s := typeName) (by omega)
    (fixed ++ (writeU16 (UInt16.ofNat fqn.length) ++ fqn)) tail
    (show _ = 17 + 2 + fqn.length by simp; omega) (show _ = payload by simp [henc])
  have hmin : ¬ payload.length < subscribeRequestMinSize := by
    simp only [subscribeRequestMinSize]; omega
  simp only [decodeSubscribeRequest, if_neg hmin, subscribeRequestFixedPrefix, hreadFqn,
    if_neg (show ¬ fqn.length > kMaxFqn by omega), hreadType,
    if_neg (show ¬ typeName.length > kMaxTypeName by omega), hhash, htypeHash, hsource]
  cases qos with
  | none =>
    have hnil : tail.length = 0 := by simp [← htail]
    rw [if_neg (by omega)]
  | some qos =>
    have hregion : tail.length = 32 := by simp [← htail, kQosRegionSize]
    have hreadQos := readSubscribeQos_write payload
      (fixed ++ (writeU16 (UInt16.ofNat fqn.length) ++ (fqn ++
        (writeU16 (UInt16.ofNat typeName.length) ++ typeName)))) qos
      (show _ = 17 + 2 + fqn.length + 2 + typeName.length by simp; omega) (by simp [henc, ← htail])
    rw [if_pos (by omega), hreadQos]

end Plexus.Wire
