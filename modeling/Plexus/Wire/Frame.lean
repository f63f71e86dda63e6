/-
# Plexus.Wire.Frame — the 28-byte frame header and its codec (`wire/frame.h`, `wire/frame_codec.h`).

`decodeHeader_encodeHeader` recovers every header; nothing validates the type byte, so it holds for
undefined types too.
-/
import Plexus.Wire.Cursor

namespace Plexus.Wire

open Lib

def headerSize : Nat := 28

def kMaxReassemblerPayloadBytes : Nat := 16 * 1024 * 1024

def magicByte0 : UInt8 := 0x56
def magicByte1 : UInt8 := 0x50

/-- `msg_type`, an `enum class : uint8_t`. `decode_header` casts the wire byte without a check, so
every byte is a value of the type. -/
structure MsgType where
  byte : UInt8
  deriving DecidableEq

namespace MsgType

def unidirectional : MsgType := ⟨0x01⟩
def handshakeReq : MsgType := ⟨0x03⟩
def handshakeResp : MsgType := ⟨0x04⟩
def subscribe : MsgType := ⟨0x05⟩
def unsubscribe : MsgType := ⟨0x06⟩
def fetchLatched : MsgType := ⟨0x07⟩
def rpcRequest : MsgType := ⟨0x09⟩
def rpcResponse : MsgType := ⟨0x0A⟩
def subscribeResponse : MsgType := ⟨0x0B⟩

end MsgType

def kFlagSourceIdentity : UInt8 := 0x01

structure FrameHeader where
  type : MsgType
  flags : UInt8
  sessionId : UInt64
  timestampNs : UInt64
  payloadLen : UInt64
  deriving DecidableEq

/-- `frame_header{}`: every field zeroed. -/
instance : Inhabited FrameHeader := ⟨⟨⟨0⟩, 0, 0, 0, 0⟩⟩

variable (hdr : FrameHeader)

def encodeHeader : Bytes :=
  writeU8 magicByte0 ++ writeU8 magicByte1 ++ writeU8 hdr.type.byte ++ writeU8 hdr.flags ++
    writeU64 hdr.sessionId ++ writeU64 hdr.timestampNs ++ writeU64 hdr.payloadLen

def decodeHeader (data : Bytes) : Option FrameHeader :=
  if data.length < headerSize then none
  else if data[0]? ≠ some magicByte0 ∨ data[1]? ≠ some magicByte1 then none
  else
    let (_, r) := Reader.u8 { data }
    let (_, r) := r.u8
    let (type, r) := r.u8
    let (flags, r) := r.u8
    let (sessionId, r) := r.u64
    let (timestampNs, r) := r.u64
    let (payloadLen, _) := r.u64
    some { type := ⟨type⟩, flags, sessionId, timestampNs, payloadLen }

def encodeFrame (payload : Bytes) : Bytes :=
  encodeHeader { hdr with payloadLen := UInt64.ofNat payload.length } ++ payload

@[simp] theorem length_encodeHeader : (encodeHeader hdr).length = headerSize := by
  simp [encodeHeader, writeU8, headerSize]

theorem length_encodeFrame (payload : Bytes) :
    (encodeFrame hdr payload).length = headerSize + payload.length := by
  simp [encodeFrame]

/-! ## What the decoder reads

The size test makes every read of the cursor land, so the decoder is a fixed set of field offsets. -/

/-- The header at fixed offsets of a string that is long enough. -/
def headerAt (data : Bytes) : FrameHeader where
  type := ⟨readU8 (data.drop 2)⟩
  flags := readU8 (data.drop 3)
  sessionId := readU64 (data.drop 4)
  timestampNs := readU64 (data.drop 12)
  payloadLen := readU64 (data.drop 20)

def MagicAt (data : Bytes) : Prop :=
  data[0]? = some magicByte0 ∧ data[1]? = some magicByte1

instance (data : Bytes) : Decidable (MagicAt data) := by unfold MagicAt; infer_instance

theorem decodeHeader_eq {data : Bytes} (h : headerSize ≤ data.length) :
    decodeHeader data = if MagicAt data then some (headerAt data) else none := by
  have hlen : 28 ≤ data.length := h
  have hshort : ¬ data.length < headerSize := by omega
  unfold decodeHeader
  rw [if_neg hshort]
  by_cases hm : MagicAt data
  · have hmagic : ¬ (data[0]? ≠ some magicByte0 ∨ data[1]? ≠ some magicByte1) := by
      simp [hm.1, hm.2]
    rw [if_pos hm, if_neg hmagic]
    simp (disch := omega) only [Reader.u8_of_le, Reader.u64_of_le, zero_add, Nat.reduceAdd,
      headerAt]
  · have hmagic : data[0]? ≠ some magicByte0 ∨ data[1]? ≠ some magicByte1 := by
      simpa only [MagicAt, not_and_or] using hm
    rw [if_neg hm, if_pos hmagic]

/-- The decoder reads the first 28 bytes only. -/
theorem decodeHeader_append {data : Bytes} (h : headerSize ≤ data.length) (rest : Bytes) :
    decodeHeader (data ++ rest) = decodeHeader data := by
  have hlen : 28 ≤ data.length := h
  have hmagic : MagicAt (data ++ rest) ↔ MagicAt data := by
    simp [MagicAt, List.getElem?_append_left (show 0 < data.length by omega),
      List.getElem?_append_left (show 1 < data.length by omega)]
  have hheader : headerAt (data ++ rest) = headerAt data := by
    have hu8 : ∀ k, k < data.length → readU8 ((data ++ rest).drop k) = readU8 (data.drop k) := by
      intro k hk
      rw [List.drop_append_of_le_length (by omega)]
      cases hd : data.drop k with
      | nil => simp at hd; omega
      | cons b bs => rfl
    have hu64 : ∀ k, k + 8 ≤ data.length → readU64 ((data ++ rest).drop k) = readU64 (data.drop k) := by
      intro k hk
      rw [List.drop_append_of_le_length (by omega), readU64_append (by simp; omega)]
    simp only [headerAt, hu8 2 (by omega), hu8 3 (by omega), hu64 4 (by omega), hu64 12 (by omega),
      hu64 20 (by omega)]
  rw [decodeHeader_eq h, decodeHeader_eq (by simp; omega), hheader]
  simp only [hmagic]

/-! ## The two round trips -/

@[simp] theorem decodeHeader_encodeHeader (rest : Bytes) :
    decodeHeader (encodeHeader hdr ++ rest) = some hdr := by
  have hm : MagicAt (encodeHeader hdr) := by simp [MagicAt, encodeHeader, writeU8]
  rw [decodeHeader_append (by simp), decodeHeader_eq (by simp), if_pos hm]
  have h4 : (encodeHeader hdr).drop 4 =
      writeU64 hdr.sessionId ++ (writeU64 hdr.timestampNs ++ writeU64 hdr.payloadLen) := by
    simp [encodeHeader, writeU8]
  have h12 : (encodeHeader hdr).drop 12 = writeU64 hdr.timestampNs ++ writeU64 hdr.payloadLen := by
    rw [show 12 = 4 + 8 from rfl, ← List.drop_drop, h4, List.drop_left' (length_writeU64 _)]
  have h20 : (encodeHeader hdr).drop 20 = writeU64 hdr.payloadLen ++ [] := by
    rw [show 20 = 12 + 8 from rfl, ← List.drop_drop, h12, List.drop_left' (length_writeU64 _),
      List.append_nil]
  rw [headerAt, h20]
  simp only [readU64_writeU64]
  simp [encodeHeader, writeU8, readU8]

end Plexus.Wire
