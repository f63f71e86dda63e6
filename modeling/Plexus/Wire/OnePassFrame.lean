/-
# Plexus.Wire.OnePassFrame — framing a publish in one pass (`wire/detail/data_frame_codec.h`).

`encode_unidirectional_frame_into` sizes a reused buffer and fills it through a cursor. The counter is
sized by `varint_size`, written by `writer::varint`, skipped by `bare_of` with `varint_size` and read by
`read_varint`; `onePass_composed` says that the four agree.
-/
import Plexus.Wire.Varint

namespace Plexus.Wire

open List

/-- `wire/writer.h`: a region and a place in it. -/
structure Writer where
  region : Bytes
  offset : Nat := 0

namespace Writer

variable (w : Writer)

/-- Copies over what the region holds at the cursor. -/
def bytes (blob : Bytes) : Writer :=
  { region := w.region.take w.offset ++ (blob ++ w.region.drop (w.offset + blob.length))
    offset := w.offset + blob.length }

/-- The `do … while` of `writer::varint`. -/
def varintLoop : Nat → UInt64 → Writer → Writer
  | 0, _, w => w
  | fuel + 1, value, w =>
    let byte := (value &&& 0x7F).toUInt8
    let rest := value >>> 7
    if rest = 0 then w.bytes [byte] else varintLoop fuel rest (w.bytes [byte ||| 0x80])

/-- The counter, if there is one. -/
def counter : Option UInt64 → Writer
  | some value => varintLoop kMaxVarintBytes value w
  | none => w

variable {w : Writer}

theorem bytes_bytes (h : w.offset ≤ w.region.length) (a b : Bytes) :
    (w.bytes a).bytes b = w.bytes (a ++ b) ∧ (w.bytes a).offset ≤ (w.bytes a).region.length := by
  have hdone : (w.region.take w.offset ++ a).length = w.offset + a.length := by simp [h]
  simp only [bytes, ← append_assoc]
  constructor
  · rw [take_left' hdone, ← drop_drop, drop_left' hdone]
    simp [Nat.add_assoc]
  · rw [length_append, hdone]
    exact Nat.le_add_right ..

/-- Byte by byte, it writes what `write_varint` appends. -/
theorem varintLoop_eq (fuel : Nat) (value : UInt64) (h : w.offset ≤ w.region.length) :
    varintLoop fuel value w = w.bytes (writeVarintLoop fuel value) := by
  induction fuel generalizing value w with
  | zero => simp [varintLoop, writeVarintLoop, bytes]
  | succ fuel ih =>
    simp only [varintLoop, writeVarintLoop]
    split
    · rfl
    · have hnext := bytes_bytes h [(value &&& 0x7F).toUInt8 ||| 0x80] (writeVarintLoop fuel (value >>> 7))
      rw [ih _ hnext.2, hnext.1]
      rfl

theorem counter_eq (c : Option UInt64) (h : w.offset ≤ w.region.length) :
    w.counter c = w.bytes ((c.map writeVarint).getD []) := by
  cases c with
  | none => simp [counter, bytes]
  | some v => exact varintLoop_eq _ v h

end Writer

/-- `out.resize`: cut off, or filled up with zeros. -/
def resize (out : Bytes) (n : Nat) : Bytes := out.take n ++ .replicate (n - out.length) 0

variable (out : Bytes) (fhdr : FrameHeader) (uhdr : UnidirectionalHeader) (payload : Bytes)
  (counter : Option UInt64)

def counterLen : Nat := (counter.map varintSize).getD 0

def encodeUnidirectionalFrameInto : Bytes :=
  let payloadLen := unidirectionalHeaderSize + counterLen counter + payload.length
  let w : Writer := { region := resize out (headerSize + payloadLen) }
  let w := w.bytes (encodeHeader { fhdr with payloadLen := UInt64.ofNat payloadLen })
  let w := w.bytes (writeU8 uhdr.source.byte)
  let w := w.bytes (writeU64 uhdr.sequence)
  let w := w.bytes (writeU64 uhdr.topicHash)
  ((w.counter counter).bytes payload).region

/-- `bare_of`: the frame without what stands before its payload. -/
def bareOf (framed : Bytes) : Bytes :=
  framed.drop (headerSize + unidirectionalHeaderSize + counterLen counter)

/-! ## The frame -/

theorem counterLen_eq : counterLen counter = ((counter.map writeVarint).getD []).length := by
  cases counter with
  | none => rfl
  | some v => exact varintSize_eq v

theorem length_writeUnidirectionalHeader :
    (writeUnidirectionalHeader uhdr).length = unidirectionalHeaderSize := by
  simp [writeUnidirectionalHeader, writeU8, unidirectionalHeaderSize]

/-- The cursor has gone over the whole buffer, so nothing of what it held is left. -/
theorem encodeUnidirectionalFrameInto_eq :
    encodeUnidirectionalFrameInto out fhdr uhdr payload counter =
      encodeFrame fhdr (encodeUnidirectional uhdr payload counter) := by
  have hlen := length_writeUnidirectionalHeader uhdr
  have hcounter := counterLen_eq counter
  unfold encodeUnidirectionalFrameInto
  dsimp only
  generalize hn : unidirectionalHeaderSize + counterLen counter + payload.length = n
  have hw := Writer.bytes_bytes (w := { region := resize out (headerSize + n) }) (Nat.zero_le _)
  rw [(hw _ _).1, (hw _ _).1, (hw _ _).1, Writer.counter_eq counter (hw _ []).2, (hw _ _).1, (hw _ _).1]
  have hinner : (encodeUnidirectional uhdr payload counter).length = n := by
    rw [← hn, hcounter, encodeUnidirectional, length_append, length_append, hlen, Nat.add_assoc]
  have hframe := length_encodeFrame fhdr (encodeUnidirectional uhdr payload counter)
  have hwritten : encodeHeader { fhdr with payloadLen := UInt64.ofNat n } ++ writeU8 uhdr.source.byte ++
      writeU64 uhdr.sequence ++ writeU64 uhdr.topicHash ++ (counter.map writeVarint).getD [] ++ payload =
        encodeFrame fhdr (encodeUnidirectional uhdr payload counter) := by
    rw [encodeFrame, hinner, encodeUnidirectional, writeUnidirectionalHeader]
    simp only [append_assoc]
  -- the frame is as long as the region
  have hover : (resize out (headerSize + n)).length ≤ headerSize + n := by
    simp only [resize, length_append, length_take, length_replicate]
    omega
  rw [hinner] at hframe
  rw [hwritten, Writer.bytes, hframe, Nat.zero_add, drop_eq_nil_of_le hover]
  exact append_nil _

theorem decodeUnidirectional_encode :
    decodeUnidirectional (encodeUnidirectional uhdr payload counter) counter.isSome =
      some ⟨uhdr, counter, payload⟩ := by
  have hlen := length_writeUnidirectionalHeader uhdr
  set inner := encodeUnidirectional uhdr payload counter with hinner
  have hsize : ¬ inner.length < unidirectionalHeaderSize := by
    rw [hinner, encodeUnidirectional, length_append, hlen]
    omega
  have hheader : readU8 inner = uhdr.source.byte ∧
      readU64 (inner.drop 1) = uhdr.sequence ∧
      readU64 (inner.drop 9) = uhdr.topicHash := by
    have hnine : (9 : Nat) = 1 + 8 := rfl
    refine ⟨rfl, ?_, ?_⟩
    · simp [hinner, encodeUnidirectional, writeUnidirectionalHeader, writeU8]
    · rw [hnine, ← drop_drop]
      simp [hinner, encodeUnidirectional, writeUnidirectionalHeader, writeU8]
  rw [decodeUnidirectional, if_neg hsize]
  simp only [hheader]
  cases counter with
  | none => simp [hinner, encodeUnidirectional, ← hlen]
  | some v =>
    have hread := readVarint_writeVarint (writeUnidirectionalHeader uhdr) payload v
    rw [hlen] at hread
    simp only [hinner, encodeUnidirectional, Option.map_some, Option.getD_some, Option.isSome_some, hread]
    rw [← drop_drop, drop_left' hlen, drop_left]
    rfl

/-- **The one-pass encoder is the composed one**, whatever the buffer held; the bare view of its frame
is the payload, and the receiver decodes what was given. -/
theorem onePass_composed :
    ∃ frame, encodeUnidirectionalFrameInto out fhdr uhdr payload counter = frame ∧
      frame = encodeFrame fhdr (encodeUnidirectional uhdr payload counter) ∧
      bareOf counter frame = payload ∧
      ∃ hdr, decodeHeader frame = some hdr ∧
        hdr = { fhdr with payloadLen := .ofNat (frame.drop headerSize).length } ∧
        ((hdr.flags &&& kFlagSourceIdentity ≠ 0 ↔ counter.isSome) →
          decodeUnidirectional (frame.drop headerSize) (hdr.flags &&& kFlagSourceIdentity ≠ 0) =
            some ⟨uhdr, counter, payload⟩) := by
  have hlen := length_writeUnidirectionalHeader uhdr
  have hdrop (inner) : (encodeFrame fhdr inner).drop headerSize = inner :=
    drop_left' (length_encodeHeader _)
  refine ⟨_, encodeUnidirectionalFrameInto_eq .., rfl, ?_, _, decodeHeader_encodeHeader .., ?_, ?_⟩
  · rw [bareOf, Nat.add_assoc, ← drop_drop, hdrop, ← drop_drop, counterLen_eq]
    simp [encodeUnidirectional, ← hlen]
  · rw [hdrop]
  intro hflag
  have hset := (Bool.decide_congr hflag).trans Bool.decide_eq_true
  rw [hdrop, hset]
  exact decodeUnidirectional_encode ..

end Plexus.Wire
