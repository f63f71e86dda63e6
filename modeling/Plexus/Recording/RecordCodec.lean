/-
# Plexus.Recording.RecordCodec — the records of a recording and their bytes
(`io/recording/record_stream_writer.h`, `record_decode.h`, `record_format.h`, `record_envelope.h`,
`detail/record_frame.h`, `read_definitions` of `record_stream_reader.h`).

A recording starts with its definitions; behind them come records. The payload of a record is a
category, its fields and a CRC-32C over both. The writer fills a scratch it takes to be large
enough; here it returns the bytes, and who uses it compares their number with the scratch.

`decodeRecordBody_body` is the round trip of the eight layouts. The decoder has a field for all that
is written but the `band` of a drop and the `bytes` of a dropout; `rewrite_decoded` says so by
writing a decoded record again.
-/
import Plexus.Stream.StreamChannel
import Plexus.Wire.FieldReader

namespace Plexus.Recording

abbrev NodeId := Vector UInt8 16

open Io Wire Plexus.Stream Reads List

/-! ## `record_format.h`, `record_envelope.h` and what is recorded

An enumeration is written as its ordinal. The decoder takes any byte for one, so that what it
returns is the byte. -/

def kStreamMagic : UInt32 := 0x504C5852
def kFormatVersion : UInt16 := 3
def kSyncMarker : UInt32 := 0x9E37C5A1
def kSyncInterval : UInt32 := 64

inductive RecordCategory
  | sample | drop | qosChange | participant | endpoint | rpcCall | rpcServe | rpcReply | security
  | peerLiveness | dropout | wireFrame
  deriving DecidableEq

inductive CaptureCryptoPosition
  | cleartext | ciphertext
  deriving DecidableEq

inductive CaptureFidelity
  | off | metadata | payload | wire
  deriving DecidableEq

inductive DecimationMode
  | countN | timeWindow
  deriving DecidableEq

inductive DropCause
  | none | dropOldest | dropNewest | blocked | replay | tooOld | tamper | reassemblyEvicted
  | reassemblyCap | malformed | demuxRefused | arqShed | unroutable | closedUnsent
  deriving DecidableEq

inductive QosEdge
  | accepted | degraded | refused | unsubscribed
  deriving DecidableEq

inductive ParticipantEdge
  | created | destroyed
  deriving DecidableEq

inductive EndpointEdge
  | publisherDeclared | publisherDropped | subscriberRegistered | subscriberRetired
  deriving DecidableEq

inductive SecurityKind
  | unauthorizedAttach | downgradeRefused | postureMismatch | streamTamperTeardown | rekey
  deriving DecidableEq

inductive SecurityCause
  | none | tagVerifyFailed | unknownKeyEpoch | malformedFrame
  deriving DecidableEq

inductive WireDirection
  | out | in_
  deriving DecidableEq

def RecordCategory.byte (c : RecordCategory) : UInt8 := .ofNat c.ctorIdx
def CaptureCryptoPosition.byte (c : CaptureCryptoPosition) : UInt8 := .ofNat c.ctorIdx
def CaptureFidelity.byte (f : CaptureFidelity) : UInt8 := .ofNat f.ctorIdx
def DecimationMode.byte (m : DecimationMode) : UInt8 := .ofNat m.ctorIdx
def DropCause.byte (c : DropCause) : UInt8 := .ofNat c.ctorIdx
def QosEdge.byte (e : QosEdge) : UInt8 := .ofNat e.ctorIdx
def ParticipantEdge.byte (e : ParticipantEdge) : UInt8 := .ofNat e.ctorIdx
def EndpointEdge.byte (e : EndpointEdge) : UInt8 := .ofNat e.ctorIdx
def SecurityKind.byte (k : SecurityKind) : UInt8 := .ofNat k.ctorIdx
def SecurityCause.byte (c : SecurityCause) : UInt8 := .ofNat c.ctorIdx
def WireDirection.byte (d : WireDirection) : UInt8 := .ofNat d.ctorIdx
def verdictByte (v : RxoVerdict) : UInt8 := .ofNat v.ctorIdx

structure MessageInfo where
  publicationSequence : UInt64 := 0
  sourceTimestamp : UInt64 := 0
  receptionTimestamp : UInt64 := 0
  deriving DecidableEq

structure DropEvent where
  cause : DropCause := .none
  band : UInt8 := 0
  topicHash : UInt64 := 0
  count : UInt64 := 1
  deriving DecidableEq

structure QosChangeEvent where
  edge : QosEdge := .accepted
  topicHash : UInt64 := 0
  verdict : RxoVerdict := .compatible
  typeId : Option UInt64 := none
  deriving DecidableEq

structure ParticipantEvent where
  edge : ParticipantEdge := .created
  self : NodeId
  deriving DecidableEq

structure EndpointEvent where
  edge : EndpointEdge := .publisherDeclared
  topicHash : UInt64 := 0
  typeId : Option UInt64 := none
  typeName : Text := []
  schemaHint : UInt64 := 0
  deriving DecidableEq

structure SecurityEvent where
  kind : SecurityKind
  peer : NodeId
  cause : SecurityCause
  deriving DecidableEq

/-- The recorder's account of its own loss. -/
structure DropoutRecord where
  ts : UInt64 := 0
  count : UInt32 := 0
  bytes : UInt64 := 0
  maxFidelity : CaptureFidelity := .off
  deriving DecidableEq

/-- The arguments of the `record_*` calls. -/
inductive RecordCall
  | sample (topicHash : UInt64) (info : MessageInfo) (typeId : UInt64) (typeIdPresent : Bool)
      (fidelity : CaptureFidelity) (payload : Bytes)
  | drop (e : DropEvent)
  | qosChange (e : QosChangeEvent)
  | participant (e : ParticipantEvent)
  | endpoint (fqn : Text) (e : EndpointEvent)
  | security (e : SecurityEvent)
  | wireFrame (dir : WireDirection) (seq : UInt64) (peer : NodeId) (bytes : Bytes)
  deriving DecidableEq

/-! ## `record_stream_writer.h` -/

def blob (b : Bytes) : Bytes := writeVarint (.ofNat b.length) ++ b

def sample (captureTs topicHash : UInt64) (info : MessageInfo) (typeId : UInt64)
    (typeIdPresent : Bool) (fidelity : CaptureFidelity) (payload : Bytes) : Bytes :=
  writeU8 RecordCategory.sample.byte ++ (writeU64 captureTs ++ (writeU64 topicHash ++
    (writeU64 info.publicationSequence ++ (writeU64 info.sourceTimestamp ++
    (writeU64 info.receptionTimestamp ++ (writeU8 (if typeIdPresent then 1 else 0) ++
    (writeVarint (if typeIdPresent then typeId else 0) ++ (writeU8 fidelity.byte ++
    blob payload))))))))

def drop (captureTs : UInt64) (e : DropEvent) : Bytes :=
  writeU8 RecordCategory.drop.byte ++ (writeU64 captureTs ++ (writeU8 e.cause.byte ++
    (writeU8 e.band ++ (writeU64 e.topicHash ++ writeU64 e.count))))

def qosChange (captureTs : UInt64) (e : QosChangeEvent) : Bytes :=
  writeU8 RecordCategory.qosChange.byte ++ (writeU64 captureTs ++ (writeU8 e.edge.byte ++
    (writeU64 e.topicHash ++ (writeU8 (verdictByte e.verdict) ++
    (writeU8 (if e.typeId.isSome then 1 else 0) ++ writeVarint (e.typeId.getD 0))))))

def participant (captureTs : UInt64) (e : ParticipantEvent) : Bytes :=
  writeU8 RecordCategory.participant.byte ++ (writeU64 captureTs ++ (writeU8 e.edge.byte ++
    e.self.toList))

def endpoint (captureTs : UInt64) (fqn : Text) (e : EndpointEvent) : Bytes :=
  writeU8 RecordCategory.endpoint.byte ++ (writeU64 captureTs ++ (writeU8 e.edge.byte ++
    (writeU64 e.topicHash ++ (writeU8 (if e.typeId.isSome then 1 else 0) ++
    (writeVarint (e.typeId.getD 0) ++ (blob fqn ++ (blob e.typeName ++
    writeVarint e.schemaHint)))))))

def security (captureTs : UInt64) (e : SecurityEvent) : Bytes :=
  writeU8 RecordCategory.security.byte ++ (writeU64 captureTs ++ (writeU8 e.kind.byte ++
    (writeU8 e.cause.byte ++ e.peer.toList)))

def wireFrame (captureTs : UInt64) (dir : WireDirection) (seq : UInt64) (peer : NodeId)
    (bytes : Bytes) : Bytes :=
  writeU8 RecordCategory.wireFrame.byte ++ (writeU64 captureTs ++ (writeU8 dir.byte ++
    (writeU64 seq ++ (peer.toList ++ blob bytes))))

def dropout (r : DropoutRecord) : Bytes :=
  writeU8 RecordCategory.dropout.byte ++ (writeU64 r.ts ++ (writeVarint r.count.toUInt64 ++
    (writeVarint r.bytes ++ writeU8 r.maxFidelity.byte)))

/-- The body a `record_*` call encodes. -/
def RecordCall.body (captureTs : UInt64) : RecordCall → Bytes
  | .sample topicHash info typeId present fidelity payload =>
    Recording.sample captureTs topicHash info typeId present fidelity payload
  | .drop e => Recording.drop captureTs e
  | .qosChange e => Recording.qosChange captureTs e
  | .participant e => Recording.participant captureTs e
  | .endpoint fqn e => Recording.endpoint captureTs fqn e
  | .security e => Recording.security captureTs e
  | .wireFrame dir seq peer bytes => Recording.wireFrame captureTs dir seq peer bytes

/-- `seal_in`: the body and its CRC. -/
def sealIn (body : Bytes) : Bytes := body ++ writeU32 (crc32c body)

/-! ## `record_decode.h` -/

structure DecodedRecord where
  category : UInt8 := RecordCategory.sample.byte
  captureTs : UInt64 := 0
  topicHash : UInt64 := 0
  publicationSequence : UInt64 := 0
  sourceTimestamp : UInt64 := 0
  receptionTimestamp : UInt64 := 0
  typeId : Option UInt64 := none
  fidelity : UInt8 := CaptureFidelity.off.byte
  edge : UInt8 := 0
  verdict : UInt8 := 0
  count : UInt64 := 0
  schemaHint : UInt64 := 0
  peer : NodeId := Vector.replicate 16 0
  fqn : Text := []
  typeName : Text := []
  payload : Bytes := []
  wireDir : UInt8 := WireDirection.out.byte
  wireSeq : UInt64 := 0
  deriving DecidableEq

variable (category : UInt8)

def decodeSample : Decode DecodedRecord := do
  let captureTs ← Decode.u64
  let topicHash ← Decode.u64
  let publicationSequence ← Decode.u64
  let sourceTimestamp ← Decode.u64
  let receptionTimestamp ← Decode.u64
  let present ← Decode.u8
  let id ← Decode.varint
  let fidelity ← Decode.u8
  let payload ← Decode.blob
  pure { category, captureTs, topicHash, publicationSequence, sourceTimestamp, receptionTimestamp,
         typeId := if present ≠ 0 then some id else none, fidelity, payload }

def decodeDrop : Decode DecodedRecord := do
  let captureTs ← Decode.u64
  let edge ← Decode.u8
  -- the band is read and not kept
  let _ ← Decode.u8
  let topicHash ← Decode.u64
  let count ← Decode.u64
  pure { category, captureTs, edge, topicHash, count }

def decodeQos : Decode DecodedRecord := do
  let captureTs ← Decode.u64
  let edge ← Decode.u8
  let topicHash ← Decode.u64
  let verdict ← Decode.u8
  let present ← Decode.u8
  let id ← Decode.varint
  pure { category, captureTs, edge, topicHash, verdict,
         typeId := if present ≠ 0 then some id else none }

def decodeParticipant : Decode DecodedRecord := do
  let captureTs ← Decode.u64
  let edge ← Decode.u8
  let peer ← Decode.u8s 16
  pure { category, captureTs, edge, peer }

def decodeEndpoint : Decode DecodedRecord := do
  let captureTs ← Decode.u64
  let edge ← Decode.u8
  let topicHash ← Decode.u64
  let present ← Decode.u8
  let id ← Decode.varint
  let fqn ← Decode.blob
  let typeName ← Decode.blob
  let schemaHint ← Decode.varint
  pure { category, captureTs, edge, topicHash, typeId := if present ≠ 0 then some id else none,
         fqn, typeName, schemaHint }

def decodeSecurity : Decode DecodedRecord := do
  let captureTs ← Decode.u64
  let edge ← Decode.u8
  let verdict ← Decode.u8
  let peer ← Decode.u8s 16
  pure { category, captureTs, edge, verdict, peer }

def decodeDropout : Decode DecodedRecord := do
  let captureTs ← Decode.u64
  let count ← Decode.varint
  -- the byte total is read and not kept
  let _ ← Decode.varint
  let fidelity ← Decode.u8
  pure { category, captureTs, count, fidelity }

def decodeWire : Decode DecodedRecord := do
  let captureTs ← Decode.u64
  let wireDir ← Decode.u8
  let wireSeq ← Decode.u64
  let peer ← Decode.u8s 16
  let payload ← Decode.blob
  pure { category, captureTs, wireDir, wireSeq, peer, payload }

/-- The `switch` of `decode_record_body`. -/
def decodeFields : Decode DecodedRecord :=
  if category = RecordCategory.sample.byte then decodeSample category
  else if category = RecordCategory.drop.byte then decodeDrop category
  else if category = RecordCategory.qosChange.byte then decodeQos category
  else if category = RecordCategory.participant.byte then decodeParticipant category
  else if category = RecordCategory.endpoint.byte then decodeEndpoint category
  else if category = RecordCategory.security.byte then decodeSecurity category
  else if category = RecordCategory.dropout.byte then decodeDropout category
  else if category = RecordCategory.wireFrame.byte then decodeWire category
  else pure { category }

def decodeRecordBody (body : Bytes) : Option DecodedRecord :=
  let (rec, r) := (Decode.u8 >>= decodeFields) ⟨body, 0, true⟩
  if r.ok then some rec else none

theorem decodeRecordBody_of_reads {body : Bytes} {rec : DecodedRecord}
    (h : Reads (Decode.u8 >>= decodeFields) body rec) : decodeRecordBody body = some rec := by
  have hrun := h [] []
  rw [append_nil, nil_append] at hrun
  rw [decodeRecordBody, show (⟨body, 0, true⟩ : Reader) = ⟨body, ([] : Bytes).length, true⟩ from rfl,
    hrun]
  rfl

/-! ## Round trip of the records -/

/-- What a record decodes to. -/
def RecordCall.decoded (captureTs : UInt64) : RecordCall → DecodedRecord
  | .sample topicHash info typeId present fidelity payload =>
    { category := RecordCategory.sample.byte, captureTs, topicHash,
      publicationSequence := info.publicationSequence, sourceTimestamp := info.sourceTimestamp,
      receptionTimestamp := info.receptionTimestamp,
      typeId := if present then some typeId else none, fidelity := fidelity.byte, payload }
  | .drop e =>
    { category := RecordCategory.drop.byte, captureTs, edge := e.cause.byte,
      topicHash := e.topicHash, count := e.count }
  | .qosChange e =>
    { category := RecordCategory.qosChange.byte, captureTs, edge := e.edge.byte,
      topicHash := e.topicHash, verdict := verdictByte e.verdict, typeId := e.typeId }
  | .participant e =>
    { category := RecordCategory.participant.byte, captureTs, edge := e.edge.byte, peer := e.self }
  | .endpoint fqn e =>
    { category := RecordCategory.endpoint.byte, captureTs, edge := e.edge.byte,
      topicHash := e.topicHash, typeId := e.typeId, fqn, typeName := e.typeName,
      schemaHint := e.schemaHint }
  | .security e =>
    { category := RecordCategory.security.byte, captureTs, edge := e.kind.byte,
      verdict := e.cause.byte, peer := e.peer }
  | .wireFrame dir seq peer bytes =>
    { category := RecordCategory.wireFrame.byte, captureTs, wireDir := dir.byte, wireSeq := seq,
      peer, payload := bytes }

def DropoutRecord.decoded (r : DropoutRecord) : DecodedRecord :=
  { category := RecordCategory.dropout.byte, captureTs := r.ts, count := r.count.toUInt64,
    fidelity := r.maxFidelity.byte }

theorem reads_blob {b : Bytes} (h : b.length < 2 ^ 64) : Reads Decode.blob (blob b) b :=
  .blob h

/-- The optional identifier: a flag and the counter, zero when there is none. -/
theorem present_typeId (typeId : Option UInt64) :
    (if (if typeId.isSome then 1 else 0 : UInt8) ≠ 0 then some (typeId.getD 0) else none) = typeId := by
  cases typeId <;> simp

theorem present_sample (present : Bool) (typeId : UInt64) :
    (if (if present then 1 else 0 : UInt8) ≠ 0 then some (if present then typeId else 0) else none) =
      if present then some typeId else none := by
  cases present <;> rfl

variable (captureTs : UInt64)

theorem reads_dropout (r : DropoutRecord) :
    Reads (Decode.u8 >>= decodeFields) (dropout r) r.decoded :=
  (u8 _).bind ((u64 _).bind ((varint _).bind ((varint _).bind ((u8 _).map _))))

theorem length_blob (b : Bytes) : b.length ≤ (blob b).length := by
  rw [blob, length_append]
  exact Nat.le_add_left _ _

/-- A body that has a size at all is read back, field by field. -/
theorem reads_body {call : RecordCall} (h : (call.body captureTs).length < 2 ^ 64) :
    Reads (Decode.u8 >>= decodeFields) (call.body captureTs) (call.decoded captureTs) := by
  cases call with
  | sample topicHash info typeId present fidelity payload =>
    have hpayload := length_blob payload
    simp only [RecordCall.body, sample, length_append] at h
    rw [RecordCall.decoded, ← present_sample]
    exact (u8 _).bind ((u64 _).bind ((u64 _).bind ((u64 _).bind
      ((u64 _).bind ((u64 _).bind ((u8 _).bind ((varint _).bind
      ((u8 _).bind ((reads_blob (by omega)).map _)))))))))
  | drop e =>
    exact (u8 _).bind ((u64 _).bind ((u8 _).bind ((u8 _).bind ((u64 _).bind ((u64 _).map _)))))
  | qosChange e =>
    rw [RecordCall.decoded, ← present_typeId e.typeId]
    exact (u8 _).bind ((u64 _).bind ((u8 _).bind ((u64 _).bind
      ((u8 _).bind ((u8 _).bind ((varint _).map _))))))
  | participant e => exact (u8 _).bind ((u64 _).bind ((u8 _).bind ((u8s _).map _)))
  | endpoint fqn e =>
    have hfqn := length_blob fqn
    have hname := length_blob e.typeName
    simp only [RecordCall.body, endpoint, length_append] at h
    rw [RecordCall.decoded, ← present_typeId e.typeId]
    exact (u8 _).bind ((u64 _).bind ((u8 _).bind ((u64 _).bind
      ((u8 _).bind ((varint _).bind ((reads_blob (by omega)).bind ((reads_blob (by omega)).bind
      ((varint _).map _))))))))
  | security e => exact (u8 _).bind ((u64 _).bind ((u8 _).bind ((u8 _).bind ((u8s _).map _))))
  | wireFrame dir seq peer bytes =>
    have hbytes := length_blob bytes
    simp only [RecordCall.body, wireFrame, length_append] at h
    exact (u8 _).bind ((u64 _).bind ((u8 _).bind ((u64 _).bind
      ((u8s _).bind ((reads_blob (by omega)).map _)))))

/-- A decoded record written again, a band and a byte total as zero. -/
def DecodedRecord.rewrite (r : DecodedRecord) : Bytes :=
  let head := writeU8 r.category ++ writeU64 r.captureTs
  let id := writeU8 (if r.typeId.isSome then 1 else 0) ++ writeVarint (r.typeId.getD 0)
  if r.category = RecordCategory.sample.byte then
    head ++ (writeU64 r.topicHash ++ (writeU64 r.publicationSequence ++
      (writeU64 r.sourceTimestamp ++ (writeU64 r.receptionTimestamp ++ (id ++
      (writeU8 r.fidelity ++ blob r.payload))))))
  else if r.category = RecordCategory.drop.byte then
    head ++ (writeU8 r.edge ++ (writeU8 0 ++ (writeU64 r.topicHash ++ writeU64 r.count)))
  else if r.category = RecordCategory.qosChange.byte then
    head ++ (writeU8 r.edge ++ (writeU64 r.topicHash ++ (writeU8 r.verdict ++ id)))
  else if r.category = RecordCategory.participant.byte then
    head ++ (writeU8 r.edge ++ r.peer.toList)
  else if r.category = RecordCategory.endpoint.byte then
    head ++ (writeU8 r.edge ++ (writeU64 r.topicHash ++ (id ++ (blob r.fqn ++
      (blob r.typeName ++ writeVarint r.schemaHint)))))
  else if r.category = RecordCategory.security.byte then
    head ++ (writeU8 r.edge ++ (writeU8 r.verdict ++ r.peer.toList))
  else if r.category = RecordCategory.dropout.byte then
    head ++ (writeVarint r.count ++ (writeVarint 0 ++ writeU8 r.fidelity))
  else head ++ (writeU8 r.wireDir ++ (writeU64 r.wireSeq ++ (r.peer.toList ++ blob r.payload)))

/-- **Nothing that was written is missing** from the decoded record, a drop's band excepted. -/
theorem rewrite_decoded {call : RecordCall} (h : ∀ e, call = .drop e → e.band = 0) :
    (call.decoded captureTs).rewrite = call.body captureTs := by
  cases call with
  | sample topicHash info typeId present fidelity payload =>
    cases present <;>
      simp only [DecodedRecord.rewrite, RecordCall.body, sample, if_true, append_assoc] <;> rfl
  | drop e =>
    have hband := h e rfl
    simp only [RecordCall.decoded, DecodedRecord.rewrite, RecordCall.body, drop, hband,
      append_assoc]
    rfl
  | qosChange e =>
    simp only [RecordCall.decoded, DecodedRecord.rewrite, RecordCall.body, append_assoc]
    rfl
  | participant e =>
    simp only [DecodedRecord.rewrite, RecordCall.body, append_assoc]
    rfl
  | endpoint fqn e =>
    simp only [DecodedRecord.rewrite, RecordCall.body, endpoint, append_assoc]
    rfl
  | security e =>
    simp only [RecordCall.decoded, DecodedRecord.rewrite, RecordCall.body, security, append_assoc]
    rfl
  | wireFrame dir seq peer bytes =>
    simp only [RecordCall.decoded]
    rfl

theorem rewrite_decoded_iff {call : RecordCall} :
    (call.decoded captureTs).rewrite = call.body captureTs ↔ ∀ e, call = .drop e → e.band = 0 := by
  refine ⟨?_, rewrite_decoded captureTs⟩
  rintro h e rfl
  -- the bodies agree up to the byte that is not read back
  have hband : writeU8 0 ++ (writeU64 e.topicHash ++ writeU64 e.count) =
      writeU8 e.band ++ (writeU64 e.topicHash ++ writeU64 e.count) := by
    simp only [RecordCall.body, drop] at h
    rw [← append_assoc (writeU8 RecordCategory.drop.byte)] at h
    exact append_cancel_left (append_cancel_left h)
  exact (cons.inj hband).1.symm

/-! ## The definitions at the head of a recording -/

structure TopicCaptureRule where
  fidelity : CaptureFidelity := .off
  mode : DecimationMode := .timeWindow
  decimation : UInt32 := 1
  windowNs : UInt64 := 0
  deriving DecidableEq

/-- `type_schema_entry`, and `schema_definition` on the way back. -/
structure TypeSchemaEntry where
  typeId : UInt64 := 0
  typeName : Text := []
  messageEncoding : Text := []
  schemaName : Text := []
  schemaEncoding : Text := []
  schemaData : Bytes := []
  deriving DecidableEq

def TypeSchemaEntry.bytes (e : TypeSchemaEntry) : Bytes :=
  writeVarint e.typeId ++ (blob e.typeName ++ (blob e.messageEncoding ++ (blob e.schemaName ++
    (blob e.schemaEncoding ++ blob e.schemaData))))

def beginStream (clockEpoch : UInt64) (node : NodeId) (rule : TopicCaptureRule)
    (schema : List TypeSchemaEntry) (crypto : CaptureCryptoPosition) : Bytes :=
  writeU32 kStreamMagic ++ (writeU16 kFormatVersion ++ (writeU64 clockEpoch ++ (node.toList ++
    (writeU8 rule.fidelity.byte ++ (writeU8 rule.mode.byte ++ (writeVarint rule.decimation.toUInt64 ++
    (writeVarint rule.windowNs ++ (writeVarint (.ofNat schema.length) ++
    (schema.flatMap TypeSchemaEntry.bytes ++ writeU8 crypto.byte)))))))))

structure StreamDefinitions where
  clockEpoch : UInt64
  node : NodeId
  fidelity : UInt8
  mode : UInt8
  decimation : UInt32
  windowNs : UInt64
  schema : List TypeSchemaEntry
  cryptoPosition : UInt8
  deriving DecidableEq

def schemaEntry : Decode TypeSchemaEntry := do
  let typeId ← Decode.varint
  let typeName ← Decode.blob
  let messageEncoding ← Decode.blob
  let schemaName ← Decode.blob
  let schemaEncoding ← Decode.blob
  let schemaData ← Decode.blob
  pure { typeId, typeName, messageEncoding, schemaName, schemaEncoding, schemaData }

/-- The loop over the entries, which ends when a read has failed. -/
def schemaEntries : Nat → Decode (List TypeSchemaEntry)
  | 0 => pure []
  | n + 1 => fun r =>
    if r.ok then
      (do
        let e ← schemaEntry
        let es ← schemaEntries n
        pure (e :: es) : Decode (List TypeSchemaEntry)) r
    else ([], r)

def definitions : Decode (Option StreamDefinitions) := do
  let magic ← Decode.u32
  if magic ≠ kStreamMagic then pure none
  else
    let version ← Decode.u16
    if version ≠ kFormatVersion then pure none
    else
      let clockEpoch ← Decode.u64
      let node ← Decode.u8s 16
      let fidelity ← Decode.u8
      let mode ← Decode.u8
      let decimation ← Decode.varint
      let windowNs ← Decode.varint
      let entries ← Decode.varint
      let schema ← schemaEntries entries.toNat
      let cryptoPosition ← Decode.u8
      pure (some { clockEpoch, node, fidelity, mode, decimation := decimation.toUInt32, windowNs,
                   schema, cryptoPosition })

/-- `read_definitions`: the definitions, and the cursor behind them. -/
def readDefinitions (stream : Bytes) : Option (StreamDefinitions × Nat) :=
  match definitions ⟨stream, 0, true⟩ with
  | (some defs, r) => if r.ok then some (defs, r.offset) else none
  | (none, _) => none

theorem reads_schemaEntry {e : TypeSchemaEntry} (h : e.bytes.length < 2 ^ 64) :
    Reads schemaEntry e.bytes e := by
  have h1 := length_blob e.typeName
  have h2 := length_blob e.messageEncoding
  have h3 := length_blob e.schemaName
  have h4 := length_blob e.schemaEncoding
  have h5 := length_blob e.schemaData
  simp only [TypeSchemaEntry.bytes, length_append] at h
  exact (varint _).bind ((reads_blob (by omega)).bind ((reads_blob (by omega)).bind
    ((reads_blob (by omega)).bind ((reads_blob (by omega)).bind ((reads_blob (by omega)).map _)))))

theorem reads_schemaEntries {schema : List TypeSchemaEntry}
    (h : (schema.flatMap TypeSchemaEntry.bytes).length < 2 ^ 64) :
    Reads (schemaEntries schema.length) (schema.flatMap TypeSchemaEntry.bytes) schema := by
  induction schema with
  | nil => exact pure []
  | cons e es ih =>
    rw [flatMap_cons, length_append] at h
    have hentries : Reads (do
        let e ← schemaEntry
        let es ← schemaEntries es.length
        pure (e :: es)) (e.bytes ++ es.flatMap TypeSchemaEntry.bytes) (e :: es) :=
      (reads_schemaEntry (by omega)).bind ((ih (by omega)).map _)
    intro pre rest
    exact hentries pre rest

/-- What the definitions of a stream are read as. -/
def definitionsOf (clockEpoch : UInt64) (node : NodeId) (rule : TopicCaptureRule)
    (schema : List TypeSchemaEntry) (crypto : CaptureCryptoPosition) : StreamDefinitions :=
  { clockEpoch, node, fidelity := rule.fidelity.byte, mode := rule.mode.byte,
    decimation := rule.decimation, windowNs := rule.windowNs, schema,
    cryptoPosition := crypto.byte }

theorem length_schema_le (schema : List TypeSchemaEntry) :
    schema.length ≤ (schema.flatMap TypeSchemaEntry.bytes).length := by
  induction schema with
  | nil => exact le_rfl
  | cons e es ih =>
    have hpos : 0 < e.bytes.length := by
      rw [TypeSchemaEntry.bytes, length_append]
      exact Nat.add_pos_left (length_writeVarint_pos _) _
    rw [flatMap_cons, length_append, length_cons]
    omega

/-- **The definitions are read back**, whatever follows them. -/
theorem readDefinitions_beginStream (clockEpoch : UInt64) (node : NodeId) (rule : TopicCaptureRule)
    (schema : List TypeSchemaEntry) (crypto : CaptureCryptoPosition) (rest : Bytes)
    (h : (beginStream clockEpoch node rule schema crypto).length < 2 ^ 64) :
    readDefinitions (beginStream clockEpoch node rule schema crypto ++ rest) =
      some (definitionsOf clockEpoch node rule schema crypto,
        (beginStream clockEpoch node rule schema crypto).length) := by
  have hschema : (schema.flatMap TypeSchemaEntry.bytes).length < 2 ^ 64 := by
    simp only [beginStream, length_append] at h
    omega
  have hcount : (UInt64.ofNat schema.length).toNat = schema.length :=
    UInt64.toNat_ofNat_of_lt' (lt_of_le_of_lt (length_schema_le schema) hschema)
  have hdecimation : rule.decimation.toUInt64.toUInt32 = rule.decimation := by simp
  have hreads : Reads definitions (beginStream clockEpoch node rule schema crypto)
      (some (definitionsOf clockEpoch node rule schema crypto)) := by
    rw [definitionsOf, ← hdecimation]
    refine (u32 _).bind ((u16 _).bind ((u64 _).bind ((u8s _).bind
      ((u8 _).bind ((u8 _).bind ((varint _).bind ((varint _).bind
      ((varint _).bind ?_))))))))
    rw [hcount]
    exact (reads_schemaEntries hschema).bind ((u8 _).map _)
  have hrun := hreads [] rest
  rw [nil_append, length_nil, zero_add] at hrun
  simp only [readDefinitions, hrun, if_true]

end Plexus.Recording
