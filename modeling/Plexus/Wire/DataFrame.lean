/-
# Plexus.Wire.DataFrame — data and procedure-call payloads.

`wire/varint.h`, `wire/data_frame.h` with `wire/detail/data_frame_codec.h`, `wire/rpc_frame.h` and
`wire/rpc_status.h`. A unidirectional payload is a 17-byte header, an endpoint counter when the
frame's source-identity flag is set, and the data; a bidirectional payload is a 41-byte header and
the data, whose first byte is the status in a response.
-/
import Plexus.Wire.Control
import Plexus.Wire.Frame

namespace Plexus.Wire

open Lib

/-! ## `wire/varint.h` -/

def kMaxVarintBytes : Nat := 10

/-- The loop of `read_varint` from byte `i` on: `value` is what the bytes before it carried. -/
def readVarintLoop : Nat → Bytes → Nat → UInt64 → Nat → Option (UInt64 × Nat)
  | 0, _, _, _, _ => none
  | fuel + 1, data, i, value, offset =>
    match data with
    | [] => none
    | byte :: rest =>
      let payload := byte.toUInt64 &&& 0x7F
      -- on the tenth byte only bit 63 may still be set
      if i = kMaxVarintBytes - 1 ∧ payload > 0x01 then none
      else
        let value := value ||| (payload <<< (UInt64.ofNat (7 * i)))
        if byte &&& 0x80 = 0 then some (value, offset + 1)
        else readVarintLoop fuel rest (i + 1) value (offset + 1)

/-- `read_varint`: the value and the offset behind it. -/
def readVarint (data : Bytes) (consumed : Nat) : Option (UInt64 × Nat) :=
  if consumed > data.length then none
  else readVarintLoop kMaxVarintBytes (data.drop consumed) 0 0 consumed

/-- The `do … while` of `write_varint`; a 64-bit value takes at most ten rounds. -/
def writeVarintLoop : Nat → UInt64 → Bytes
  | 0, _ => []
  | fuel + 1, value =>
    let byte := (value &&& 0x7F).toUInt8
    let rest := value >>> 7
    if rest = 0 then [byte] else (byte ||| 0x80) :: writeVarintLoop fuel rest

def writeVarint (value : UInt64) : Bytes := writeVarintLoop kMaxVarintBytes value

/-! ## `wire/data_frame.h` -/

def unidirectionalHeaderSize : Nat := 17
def bidirectionalHeaderSize : Nat := 41

structure UnidirectionalHeader where
  source : EndpointSourceType
  sequence : UInt64
  topicHash : UInt64
  deriving DecidableEq

structure BidirectionalHeader where
  source : EndpointSourceType
  sequence : UInt64
  topicHash : UInt64
  typeHash1 : UInt64
  typeHash2 : UInt64
  correlationId : UInt64
  deriving DecidableEq

structure UnidirectionalDecodeResult where
  header : UnidirectionalHeader
  endpointCounter : Option UInt64
  data : Bytes
  deriving DecidableEq

structure BidirectionalDecodeResult where
  header : BidirectionalHeader
  data : Bytes
  deriving DecidableEq

def writeUnidirectionalHeader (hdr : UnidirectionalHeader) : Bytes :=
  writeU8 hdr.source.byte ++ (writeU64 hdr.sequence ++ writeU64 hdr.topicHash)

variable (hdr : BidirectionalHeader)

def writeBidirectionalHeader : Bytes :=
  writeU8 hdr.source.byte ++ (writeU64 hdr.sequence ++ (writeU64 hdr.topicHash ++
    (writeU64 hdr.typeHash1 ++ (writeU64 hdr.typeHash2 ++ writeU64 hdr.correlationId))))

def encodeUnidirectional (hdr : UnidirectionalHeader) (data : Bytes)
    (endpointCounter : Option UInt64) : Bytes :=
  writeUnidirectionalHeader hdr ++ ((endpointCounter.map writeVarint).getD [] ++ data)

/-- `encode_unidirectional_frame_into`: the one-pass framing of a publish; the buffer is resized to
the exact total and filled. -/
def encodeUnidirectionalFrame (fhdr : FrameHeader) (uhdr : UnidirectionalHeader)
    (payload : Bytes) (endpointCounter : Option UInt64) : Bytes :=
  let counter := (endpointCounter.map writeVarint).getD []
  let payloadLen := unidirectionalHeaderSize + counter.length + payload.length
  encodeHeader { fhdr with payloadLen := UInt64.ofNat payloadLen } ++
    (writeUnidirectionalHeader uhdr ++ (counter ++ payload))

variable (payload : Bytes)

def decodeUnidirectional (hasSourceIdentity : Bool) : Option UnidirectionalDecodeResult :=
  if payload.length < unidirectionalHeaderSize then none
  else
    let header : UnidirectionalHeader :=
      { source := ⟨readU8 payload⟩, sequence := readU64 (payload.drop 1),
        topicHash := readU64 (payload.drop 9) }
    if !hasSourceIdentity then
      some { header, endpointCounter := none, data := payload.drop unidirectionalHeaderSize }
    else
      match readVarint payload unidirectionalHeaderSize with
      | none => none
      | some (counter, consumed) =>
        some { header, endpointCounter := some counter, data := payload.drop consumed }

def encodeBidirectional (data : Bytes) : Bytes :=
  writeBidirectionalHeader hdr ++ data

def decodeBidirectional : Option BidirectionalDecodeResult :=
  if payload.length < bidirectionalHeaderSize then none
  else
    some
      { header :=
          { source := ⟨readU8 payload⟩, sequence := readU64 (payload.drop 1),
            topicHash := readU64 (payload.drop 9), typeHash1 := readU64 (payload.drop 17),
            typeHash2 := readU64 (payload.drop 25), correlationId := readU64 (payload.drop 33) }
        data := payload.drop bidirectionalHeaderSize }

/-! ## `wire/rpc_status.h`, `wire/rpc_frame.h` -/

/-- `rpc_status`. Unlike the other enumerations it is checked at the decoder
(`is_defined_rpc_status`), so only the defined values exist. -/
inductive RpcStatus
  | success | error | timeout | cancelled | noHandler | deserializeFailed | topicNotFound
  | peerDisconnected | rpcResponseOrphan
  deriving DecidableEq

namespace RpcStatus

def byte : RpcStatus → UInt8
  | success => 0
  | error => 1
  | timeout => 2
  | cancelled => 3
  | noHandler => 4
  | deserializeFailed => 5
  | topicNotFound => 8
  | peerDisconnected => 18
  | rpcResponseOrphan => 20

/-- `is_defined_rpc_status` and the cast behind it. -/
def ofByte (b : UInt8) : Option RpcStatus :=
  if b = 0 then some success
  else if b = 1 then some error
  else if b = 2 then some timeout
  else if b = 3 then some cancelled
  else if b = 4 then some noHandler
  else if b = 5 then some deserializeFailed
  else if b = 8 then some topicNotFound
  else if b = 18 then some peerDisconnected
  else if b = 20 then some rpcResponseOrphan
  else none

@[simp] theorem ofByte_byte (s : RpcStatus) : ofByte s.byte = some s := by
  cases s <;> rfl

end RpcStatus

structure RpcResponseDecodeResult where
  header : BidirectionalHeader
  status : RpcStatus
  returnData : Bytes
  deriving DecidableEq

def encodeRpcRequest (paramData : Bytes) : Bytes :=
  encodeBidirectional hdr paramData

def decodeRpcRequest : Option BidirectionalDecodeResult :=
  decodeBidirectional payload

def encodeRpcResponse (status : RpcStatus) (returnData : Bytes) : Bytes :=
  encodeBidirectional hdr (status.byte :: returnData)

def decodeRpcResponse : Option RpcResponseDecodeResult :=
  match decodeBidirectional payload with
  | none => none
  | some decoded =>
    match decoded.data with
    | [] => none
    | statusByte :: returnData =>
      match RpcStatus.ofByte statusByte with
      | none => none
      | some status => some { header := decoded.header, status, returnData }

/-! ## What the decoders accept -/

theorem writeU64_readU64 {src : Bytes} (h : 8 ≤ src.length) :
    writeU64 (readU64 src) = src.take 8 := by
  have hlen : (src.take 8).length = 8 := by simp [h]
  have hlt := ofBE_lt (src.take 8)
  have hround := toBE_ofBE (src.take 8)
  rw [hlen] at hlt hround
  rw [writeU64, readU64, UInt64.toNat_ofNat_of_lt' hlt, hround]

theorem decodeBidirectional_eq_some_iff (payload : Bytes) (r : BidirectionalDecodeResult) :
    decodeBidirectional payload = some r ↔ payload = encodeBidirectional r.header r.data := by
  constructor
  · intro h
    unfold decodeBidirectional bidirectionalHeaderSize at h
    split_ifs at h with hlen
    obtain rfl := Option.some.inj h
    obtain ⟨b, rest, rfl⟩ := List.exists_cons_of_length_pos (by omega : 0 < payload.length)
    rw [List.length_cons] at hlen
    have hfield (k : Nat) (hk : k + 8 ≤ rest.length) (tail : Bytes)
        (htail : tail = rest.drop (k + 8)) :
        writeU64 (readU64 (rest.drop k)) ++ tail = rest.drop k := by
      rw [writeU64_readU64 (by rw [List.length_drop]; omega), htail, ← List.drop_drop,
        List.take_append_drop]
    simp only [encodeBidirectional, writeBidirectionalHeader, List.append_assoc, writeU8,
      List.drop_succ_cons]
    refine (congrArg (b :: ·) ?_).symm
    exact hfield 0 (by omega) _ (hfield 8 (by omega) _ (hfield 16 (by omega) _
      (hfield 24 (by omega) _ (hfield 32 (by omega) _ rfl))))
  · rintro rfl
    simp [decodeBidirectional, encodeBidirectional, writeBidirectionalHeader, writeU8, readU8,
      bidirectionalHeaderSize, drop_writeU64]
    omega

theorem RpcStatus.ofByte_eq_some_iff {b : UInt8} {s : RpcStatus} :
    RpcStatus.ofByte b = some s ↔ b = s.byte := by
  refine ⟨fun h => ?_, fun h => h ▸ ofByte_byte s⟩
  unfold ofByte at h
  split_ifs at h with h0 h1 h2 h3 h4 h5 h8 h18 h20 <;> cases h <;> assumption

/-- **A procedure-call payload is accepted exactly if it is the encoding of what it decodes to**: a
request or response comes back as it was sent, and no two payloads mean the same. -/
theorem rpc_codec_exact (payload : Bytes) :
    (∀ r, decodeRpcRequest payload = some r ↔ payload = encodeRpcRequest r.header r.data) ∧
    ∀ r, decodeRpcResponse payload = some r ↔
      payload = encodeRpcResponse r.header r.status r.returnData := by
  refine ⟨decodeBidirectional_eq_some_iff payload, fun r => ?_⟩
  constructor
  · intro h
    unfold decodeRpcResponse at h
    split at h
    · cases h
    rename_i decoded hdecoded
    split at h
    · cases h
    rename_i b rest hdata
    split at h
    · cases h
    rename_i status hstatus
    cases h
    rw [(decodeBidirectional_eq_some_iff ..).mp hdecoded, hdata,
      RpcStatus.ofByte_eq_some_iff.mp hstatus, encodeRpcResponse]
  · intro h
    have hdecoded : decodeBidirectional payload =
        some ⟨r.header, r.status.byte :: r.returnData⟩ := (decodeBidirectional_eq_some_iff ..).mpr h
    simp [decodeRpcResponse, hdecoded]

end Plexus.Wire
