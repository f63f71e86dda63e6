/-
# Plexus.Wire.UdpEnvelope — the datagram around a frame (`wire/udp_envelope.h`,
`wire/detail/udp_envelope_codec.h`) and the two frames the reliable path puts into it
(`wire/udp_ack.h`).

A datagram is `[ver_flags:1][seq:2][frame]`. The frame of a best-effort fragment starts with the
fragment sub-header; a reliable frame starts with a marker that tells a segment from an ack.
-/
import Plexus.Io.Fragmentation
import Plexus.Wire.UdpAck

namespace Plexus.Wire

open Io

inductive UdpEnvelopeKind
  | bestEffort | reliableArq
  deriving DecidableEq

def UdpEnvelopeKind.byte : UdpEnvelopeKind → UInt8
  | .bestEffort => 0
  | .reliableArq => 1

def udpKindShift : UInt8 := 6
def udpKindMask : UInt8 := 0b11000000
def udpFragmentedBit : UInt8 := 0b00000001

variable (kind : UdpEnvelopeKind)

def packVerFlags (fragmented : Bool := false) : UInt8 :=
  let bits := kind.byte <<< udpKindShift
  if fragmented then bits ||| udpFragmentedBit else bits

/-- `wrap_udp_into`, and `wrap_udp_into_fragmented` with the flag set. -/
def wrapUdp (seq : UInt16) (frame : Bytes) (fragmented : Bool := false) : Bytes :=
  writeU8 (packVerFlags kind fragmented) ++ writeU16 seq ++ frame

def wrapUdpFragment (seq msgId : UInt16) (f : Fragment) : Bytes :=
  writeU8 (packVerFlags kind true) ++ writeU16 seq ++ encodeUdpFragmentPayload msgId f

/-- The kind is the two bits as they came. -/
structure UdpDecodeResult where
  kind : UInt8
  seq : UInt16
  frame : Bytes
  fragmented : Bool
  deriving DecidableEq

def unwrapUdp (datagram : Bytes) : Option UdpDecodeResult :=
  if datagram.length < udpEnvelopeOverhead then none
  else
    let verFlags := readU8 datagram
    some
      { kind := (verFlags &&& udpKindMask) >>> udpKindShift
        seq := readU16 (datagram.drop 1)
        frame := datagram.drop udpEnvelopeOverhead
        fragmented := verFlags &&& udpFragmentedBit != 0 }

/-! ## `wire/udp_ack.h` -/

inductive UdpArqKind
  | segment | ack
  deriving DecidableEq

def UdpArqKind.byte : UdpArqKind → UInt8
  | .segment => 2
  | .ack => 3

def udpAckFrameSize : Nat := 1 + 2 + UdpAck.bitmapBytes

def encodeUdpAck (ack : UdpAck) : Bytes :=
  writeU8 UdpArqKind.ack.byte ++ writeU16 ack.cumulative ++ ack.selective.toList

def decodeUdpAck (frame : Bytes) : Option UdpAck :=
  if frame.length ≠ udpAckFrameSize then none
  else if readU8 frame ≠ UdpArqKind.ack.byte then none
  else some
    { cumulative := readU16 (frame.drop 1)
      selective := Vector.ofFn fun i => (frame.drop 3).getD i 0 }

def encodeUdpSegment (payload : Bytes) : Bytes := writeU8 UdpArqKind.segment.byte ++ payload

def decodeUdpSegment (frame : Bytes) : Option Bytes :=
  if readU8 frame ≠ UdpArqKind.segment.byte then none else some (frame.drop 1)

def peekUdpArqKind (frame : Bytes) : Option UdpArqKind :=
  match frame with
  | [] => none
  | marker :: _ =>
    if marker = UdpArqKind.segment.byte then some .segment
    else if marker = UdpArqKind.ack.byte then some .ack
    else none

/-! ## Sizes and round trips -/

@[simp] theorem length_wrapUdp (seq : UInt16) (frame : Bytes) (fragmented : Bool) :
    (wrapUdp kind seq frame fragmented).length = frame.length + udpEnvelopeOverhead := by
  simp only [wrapUdp, writeU8, List.length_append, length_writeU16, List.length_singleton,
    udpEnvelopeOverhead]
  omega

@[simp] theorem length_wrapUdpFragment (seq msgId : UInt16) (f : Fragment) :
    (wrapUdpFragment kind seq msgId f).length = f.slice.length + udpFragmentHeaderOverhead := by
  simp only [wrapUdpFragment, writeU8, List.length_append, length_writeU16, List.length_singleton,
    length_encodeUdpFragmentPayload, udpFragmentHeaderOverhead, udpEnvelopeOverhead]
  omega

@[simp] theorem length_encodeUdpSegment (payload : Bytes) :
    (encodeUdpSegment payload).length = payload.length + 1 := rfl

@[simp] theorem length_encodeUdpAck (ack : UdpAck) : (encodeUdpAck ack).length = udpAckFrameSize := by
  simp [encodeUdpAck, writeU8, udpAckFrameSize, UdpAck.bitmapBytes]

theorem unwrapUdp_wrapUdp (seq : UInt16) (frame : Bytes) (fragmented : Bool) :
    unwrapUdp (wrapUdp kind seq frame fragmented) = some ⟨kind.byte, seq, frame, fragmented⟩ := by
  have hlen : ¬ (wrapUdp kind seq frame fragmented).length < udpEnvelopeOverhead := by
    rw [length_wrapUdp]
    omega
  have hflags : (packVerFlags kind fragmented &&& udpKindMask) >>> udpKindShift = kind.byte ∧
      (packVerFlags kind fragmented &&& udpFragmentedBit != 0) = fragmented := by
    cases kind <;> cases fragmented <;> decide
  have hframe : (wrapUdp kind seq frame fragmented).drop udpEnvelopeOverhead = frame := by
    rw [wrapUdp]
    simp [writeU8, udpEnvelopeOverhead]
  rw [unwrapUdp, if_neg hlen, hframe]
  simp only [Option.some.injEq, UdpDecodeResult.mk.injEq]
  refine ⟨hflags.1, ?_, trivial, hflags.2⟩
  exact readU16_writeU16 seq frame

end Plexus.Wire
