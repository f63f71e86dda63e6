/-
# Plexus.Wire.FrameReassembler — cutting a byte stream back into frames
(`wire/frame_reassembler.h`).

`feed` appends a chunk to a buffer whose read part is reclaimed lazily, refuses the chunk when the
unread bytes exceed a cap, and otherwise parses header after payload until it runs out of bytes.

What it is *for* is a greedy decoder over the unread bytes (`frameDecoder`, an instance of
`Plexus.Lib.Greedy`). The loop computes the decoder (`view_parse`), so chunking independence is
inherited from the library.
-/
import Plexus.Lib.Greedy
import Plexus.Wire.Frame

namespace Plexus.Wire

open Lib List

/-- `complete_frame`: the payload is the whole frame, header bytes included. -/
structure CompleteFrame where
  header : FrameHeader
  payload : Bytes
  deriving DecidableEq

inductive FeedError where
  | none
  | invalidMagic
  | payloadTooLarge
  | bufferOverflow
  | noProgress
  deriving DecidableEq

structure FeedResult where
  frames : List CompleteFrame := []
  error : FeedError := .none
  deriving DecidableEq

inductive ReassemblerState where
  | readingHeader
  | readingPayload
  deriving DecidableEq

/-- The read offset stays inside the buffer, so `live_bytes()` is a true difference and every
`subspan(m_consumed)` is in range. -/
structure FrameReassembler where
  state : ReassemblerState := .readingHeader
  maxPayloadSize : Nat := kMaxReassemblerPayloadBytes
  bufferedBytesCap : Nat := kMaxReassemblerPayloadBytes + headerSize
  consumed : Nat := 0
  pendingHeader : FrameHeader := default
  buffer : Bytes := []
  consumed_le : consumed ≤ buffer.length := by simp

variable (r : FrameReassembler)

namespace FrameReassembler

def liveBytes (r : FrameReassembler) : Nat := r.buffer.length - r.consumed

def remaining (r : FrameReassembler) : Bytes := r.buffer.drop r.consumed

@[simp] theorem length_remaining : r.remaining.length = r.liveBytes := by
  simp [remaining, liveBytes]

def reset (r : FrameReassembler) : FrameReassembler :=
  { maxPayloadSize := r.maxPayloadSize, bufferedBytesCap := r.bufferedBytesCap }

def bufferedBytes (r : FrameReassembler) : Nat := r.liveBytes

def frameInProgress (r : FrameReassembler) : Bool :=
  r.state == .readingPayload || r.liveBytes != 0

def pendingPayloadLen (r : FrameReassembler) : Option Nat :=
  match r.state with
  | .readingPayload => some r.pendingHeader.payloadLen.toNat
  | .readingHeader => none

/-- Reclaim the read prefix once it is at least as long as what is still unread. -/
def compact (r : FrameReassembler) : FrameReassembler :=
  if r.consumed ≠ 0 ∧ r.buffer.length - r.consumed ≤ r.consumed then
    { r with consumed := 0, buffer := r.buffer.drop r.consumed, consumed_le := Nat.zero_le _ }
  else r

def insert (r : FrameReassembler) (data : Bytes) : FrameReassembler :=
  { r with
    buffer := r.buffer ++ data
    consumed_le := by have := r.consumed_le; simp; omega }

/-- The header is read: keep it and wait for its payload. -/
def enterPayload (r : FrameReassembler) (hdr : FrameHeader) (h : headerSize ≤ r.liveBytes) :
    FrameReassembler :=
  { r with
    state := .readingPayload
    consumed := r.consumed + headerSize
    pendingHeader := hdr
    consumed_le := by have := r.consumed_le; unfold liveBytes at h; omega }

/-- The payload is read: back to waiting for a header. -/
def leavePayload (r : FrameReassembler) (h : r.pendingHeader.payloadLen.toNat ≤ r.liveBytes) :
    FrameReassembler :=
  { r with
    state := .readingHeader
    consumed := r.consumed + r.pendingHeader.payloadLen.toNat
    consumed_le := by have := r.consumed_le; unfold liveBytes at h; omega }

theorem headerSize_pos : 0 < headerSize := by decide

/-! ## The parsing loop -/

/-- How one pass of `for(;;)` ends: by leaving `feed` (a `break` reports no error), or with a frame
and another pass. -/
inductive Pass where
  | leave (r : FrameReassembler) (error : FeedError)
  | again (r : FrameReassembler) (frame : CompleteFrame)

/-- The `reading_payload` half of a pass. -/
def readPayload (r : FrameReassembler) : Pass :=
  if r.maxPayloadSize < r.pendingHeader.payloadLen.toNat then .leave r.reset .payloadTooLarge
  else if h : r.liveBytes < r.pendingHeader.payloadLen.toNat then .leave r .none
  else
    .again (r.leavePayload (Nat.le_of_not_lt h))
      { header := r.pendingHeader
        payload := encodeHeader r.pendingHeader ++
          r.remaining.take r.pendingHeader.payloadLen.toNat }

/-- The `reading_header` half of a pass; it falls through into the payload half. -/
def readHeader (r : FrameReassembler) : Pass :=
  if h : r.liveBytes < headerSize then .leave r .none
  else
    match decodeHeader r.remaining with
    | none => .leave r.reset .invalidMagic
    | some hdr => (r.enterPayload hdr (Nat.le_of_not_lt h)).readPayload

def pass (r : FrameReassembler) : Pass :=
  match r.state with
  | .readingHeader => r.readHeader
  | .readingPayload => r.readPayload

/-- The `for(;;)` loop. A pass that goes round has read a whole frame, so the unread bytes are fuel
enough (`view_parse`). -/
def parse : Nat → FrameReassembler → FrameReassembler × FeedResult
  | 0, r => (r, {})
  | fuel + 1, r =>
    match r.pass with
    | .leave r' error => (r', { error })
    | .again r' frame =>
      let (r'', result) := parse fuel r'
      (r'', { result with frames := frame :: result.frames })

def feed (r : FrameReassembler) (data : Bytes) : FrameReassembler × FeedResult :=
  let r := r.compact.insert data
  if r.bufferedBytesCap < r.liveBytes then (r.reset, { error := .bufferOverflow })
  else r.parse (r.liveBytes + 2)

/-- Feed chunk after chunk and collect what each call returned. -/
def feedAll (r : FrameReassembler) : List Bytes → FrameReassembler × List FeedResult
  | [] => (r, [])
  | chunk :: chunks =>
    let (r', result) := r.feed chunk
    let (r'', results) := feedAll r' chunks
    (r'', result :: results)

end FrameReassembler

/-- The frames returned up to and including the first call that reported an error. -/
def framesToFirstError : List FeedResult → List CompleteFrame
  | [] => []
  | r :: rs => if r.error = .none then r.frames ++ framesToFirstError rs else r.frames

/-- The first error a sequence of calls reported, `none` when every call went well. -/
def firstError : List FeedResult → FeedError
  | [] => .none
  | r :: rs => if r.error = .none then firstError rs else r.error

/-! ## The decoder the loop computes -/

variable (maxPayloadSize : Nat)

/-- What the reassembler does with the unread bytes: `none` waits for a header, `some hdr` for the
payload of `hdr`. -/
def frameTake : Option FrameHeader → Bytes → Take (Option FrameHeader) CompleteFrame FeedError
  | none, xs =>
    if xs.length < headerSize then .more
    else
      match decodeHeader xs with
      | none => .fail .invalidMagic
      | some hdr => .advance headerSize (some hdr) []
  | some hdr, xs =>
    if maxPayloadSize < hdr.payloadLen.toNat then .fail .payloadTooLarge
    else if xs.length < hdr.payloadLen.toNat then .more
    else .advance hdr.payloadLen.toNat none
      [{ header := hdr, payload := encodeHeader hdr ++ xs.take hdr.payloadLen.toNat }]

theorem frameTake_none_cases (xs : Bytes) :
    (xs.length < headerSize ∧ frameTake maxPayloadSize none xs = .more) ∨
    (headerSize ≤ xs.length ∧ decodeHeader xs = none ∧
      frameTake maxPayloadSize none xs = .fail .invalidMagic) ∨
    (headerSize ≤ xs.length ∧ ∃ hdr, decodeHeader xs = some hdr ∧
      frameTake maxPayloadSize none xs = .advance headerSize (some hdr) []) := by
  by_cases hlen : xs.length < headerSize
  · exact .inl ⟨hlen, by simp [frameTake, hlen]⟩
  have hle : headerSize ≤ xs.length := Nat.le_of_not_lt hlen
  cases hd : decodeHeader xs with
  | none => exact .inr (.inl ⟨hle, rfl, by simp [frameTake, hlen, hd]⟩)
  | some hdr => exact .inr (.inr ⟨hle, hdr, rfl, by simp [frameTake, hlen, hd]⟩)

theorem frameTake_some_cases (hdr : FrameHeader) (xs : Bytes) :
    (maxPayloadSize < hdr.payloadLen.toNat ∧
      frameTake maxPayloadSize (some hdr) xs = .fail .payloadTooLarge) ∨
    (hdr.payloadLen.toNat ≤ maxPayloadSize ∧ xs.length < hdr.payloadLen.toNat ∧
      frameTake maxPayloadSize (some hdr) xs = .more) ∨
    (hdr.payloadLen.toNat ≤ maxPayloadSize ∧ hdr.payloadLen.toNat ≤ xs.length ∧
      frameTake maxPayloadSize (some hdr) xs = .advance hdr.payloadLen.toNat none
        [{ header := hdr, payload := encodeHeader hdr ++ xs.take hdr.payloadLen.toNat }]) := by
  by_cases hmax : maxPayloadSize < hdr.payloadLen.toNat
  · exact .inl ⟨hmax, by simp [frameTake, hmax]⟩
  · by_cases hlen : xs.length < hdr.payloadLen.toNat
    · exact .inr (.inl ⟨by omega, hlen, by simp [frameTake, hmax, hlen]⟩)
    · exact .inr (.inr ⟨by omega, by omega, by simp [frameTake, hmax, hlen]⟩)

/-- **The frame decoder.** Stability holds because the header is read from the first 28 bytes only
and the size of a payload is fixed by its header. -/
def frameDecoder : Greedy UInt8 (Option FrameHeader) CompleteFrame FeedError where
  take := frameTake maxPayloadSize
  rank m := if m.isSome then 1 else 0
  bounded := by
    intro m xs n m' o h
    cases m with
    | none =>
      rcases frameTake_none_cases maxPayloadSize xs with ⟨_, e⟩ | ⟨_, _, e⟩ | ⟨hle, hdr, _, e⟩ <;>
        rw [e] at h <;> cases h
      exact hle
    | some hdr =>
      rcases frameTake_some_cases maxPayloadSize hdr xs with ⟨_, e⟩ | ⟨_, _, e⟩ | ⟨_, hle, e⟩ <;>
        rw [e] at h <;> cases h
      exact hle
  progress := by
    intro m xs n m' o h
    cases m with
    | none =>
      rcases frameTake_none_cases maxPayloadSize xs with ⟨_, e⟩ | ⟨_, _, e⟩ | ⟨_, hdr, _, e⟩ <;>
        rw [e] at h <;> cases h
      exact .inl (by decide)
    | some hdr =>
      rcases frameTake_some_cases maxPayloadSize hdr xs with ⟨_, e⟩ | ⟨_, _, e⟩ | ⟨_, _, e⟩ <;>
        rw [e] at h <;> cases h
      exact .inr (by simp)
  stable := by
    intro m xs ys h
    cases m with
    | none =>
      rcases frameTake_none_cases maxPayloadSize xs with ⟨_, e⟩ | ⟨hle, hd, e⟩ | ⟨hle, hdr, hd, e⟩
      · exact absurd e h
      all_goals
        rw [e]
        have hle' : ¬ (xs ++ ys).length < headerSize := by simp; omega
        simp only [frameTake, if_neg hle', decodeHeader_append hle, hd]
    | some hdr =>
      rcases frameTake_some_cases maxPayloadSize hdr xs with ⟨hmax, e⟩ | ⟨_, _, e⟩ | ⟨hmax, hle, e⟩
      · rw [e]
        simp [frameTake, hmax]
      · exact absurd e h
      rw [e]
      have hle' : ¬ (xs ++ ys).length < hdr.payloadLen.toNat := by simp; omega
      simp only [frameTake, if_neg hle', if_neg (Nat.not_lt.mpr hmax), take_append_of_le_length hle]

theorem take_frameDecoder (max : Nat) : (frameDecoder max).take = frameTake max := rfl

@[simp] theorem rank_frameDecoder_none (max : Nat) : (frameDecoder max).rank none = 0 := rfl

@[simp] theorem rank_frameDecoder_some (max : Nat) (hdr : FrameHeader) :
    (frameDecoder max).rank (some hdr) = 1 := rfl

/-! ## The loop computes the decoder -/

namespace FrameReassembler

/-- The decoder mode a reassembler is in. -/
def mode (r : FrameReassembler) : Option FrameHeader :=
  match r.state with
  | .readingHeader => none
  | .readingPayload => some r.pendingHeader

/-- A call seen as a decoding result: its frames, and the mode and unread bytes it left behind,
unless it failed. -/
def view (c : FrameReassembler × FeedResult) :
    List CompleteFrame × Except FeedError (Option FrameHeader × Bytes) :=
  (c.2.frames, if c.2.error = .none then .ok (c.1.mode, c.1.remaining) else .error c.2.error)

theorem remaining_enterPayload (hdr : FrameHeader) (h : headerSize ≤ r.liveBytes) :
    (r.enterPayload hdr h).remaining = r.remaining.drop headerSize := by
  simp [enterPayload, remaining]

theorem remaining_leavePayload (h : r.pendingHeader.payloadLen.toNat ≤ r.liveBytes) :
    (r.leavePayload h).remaining = r.remaining.drop r.pendingHeader.payloadLen.toNat := by
  simp [leavePayload, remaining]

theorem remaining_compact : r.compact.remaining = r.remaining := by
  unfold compact
  split <;> simp [remaining]

variable (data : Bytes)

theorem remaining_insert : (r.insert data).remaining = r.remaining ++ data := by
  simp [insert, remaining, drop_append_of_le_length r.consumed_le]

theorem mode_compact : r.compact.mode = r.mode := by
  unfold compact
  split <;> rfl

theorem maxPayloadSize_compact : r.compact.maxPayloadSize = r.maxPayloadSize := by
  unfold compact
  split <;> rfl

theorem bufferedBytesCap_compact : r.compact.bufferedBytesCap = r.bufferedBytesCap := by
  unfold compact
  split <;> rfl

/-- A pass leaves with the decoder's own result, or goes round again at a header, having produced
the decoder's next frame and read at least one byte. -/
def Pass.Refines (max : Nat) (m : Option FrameHeader) (xs : Bytes) : Pass → Prop
  | .leave r error => (frameDecoder max).run m xs = view (r, { error })
  | .again r frame =>
    (frameDecoder max).run m xs = (frame :: ((frameDecoder max).run none r.remaining).1,
      ((frameDecoder max).run none r.remaining).2) ∧
    r.maxPayloadSize = max ∧ r.state = .readingHeader ∧
    r.remaining.length < xs.length + (frameDecoder max).rank m

theorem readPayload_refines (h : r.state = .readingPayload) :
    r.readPayload.Refines r.maxPayloadSize (some r.pendingHeader) r.remaining := by
  have hmode : r.mode = some r.pendingHeader := by simp [mode, h]
  rcases frameTake_some_cases r.maxPayloadSize r.pendingHeader r.remaining with
    ⟨hmax, e⟩ | ⟨hmax, hlen, e⟩ | ⟨hmax, hlen, e⟩
  · rw [readPayload, if_pos hmax, Pass.Refines, Greedy.run_fail _ e]
    simp [view]
  · rw [length_remaining] at hlen
    rw [readPayload, if_neg (by omega), dif_pos hlen, Pass.Refines, Greedy.run_more _ e]
    simp [view, hmode]
  rw [length_remaining] at hlen
  rw [readPayload, if_neg (by omega), dif_neg (by omega)]
  refine ⟨?_, rfl, rfl, ?_⟩
  · rw [Greedy.run_advance _ e, remaining_leavePayload, singleton_append]
  · rw [remaining_leavePayload, length_drop]
    rw [rank_frameDecoder_some]
    omega

theorem readHeader_refines (h : r.state = .readingHeader) :
    r.readHeader.Refines r.maxPayloadSize none r.remaining := by
  have hmode : r.mode = none := by simp [mode, h]
  rcases frameTake_none_cases r.maxPayloadSize r.remaining with
    ⟨hlen, e⟩ | ⟨hlen, hd, e⟩ | ⟨hlen, hdr, hd, e⟩
  · rw [length_remaining] at hlen
    rw [readHeader, dif_pos hlen, Pass.Refines, Greedy.run_more _ e]
    simp [view, hmode]
  · rw [length_remaining] at hlen
    rw [readHeader, dif_neg (by omega)]
    simp only [hd]
    rw [Pass.Refines, Greedy.run_fail _ e]
    simp [view]
  have hlive : headerSize ≤ r.liveBytes := by rwa [length_remaining] at hlen
  rw [readHeader, dif_neg (by omega)]
  simp only [hd]
  -- the payload half of the same pass starts right behind the header
  have hp := readPayload_refines (r.enterPayload hdr hlive) rfl
  rw [remaining_enterPayload] at hp
  cases hpass : (r.enterPayload hdr hlive).readPayload with
  | leave r' error =>
    rw [hpass] at hp
    rw [Pass.Refines, Greedy.run_advance _ e]
    exact hp
  | again r' frame =>
    rw [hpass] at hp
    obtain ⟨hrun, hmax, hstate, hshort⟩ := hp
    refine ⟨?_, hmax, hstate, ?_⟩
    · rw [Greedy.run_advance _ e]
      exact hrun
    · rw [length_drop, rank_frameDecoder_some] at hshort
      have := headerSize_pos
      omega

/-- **The step lemma**: one pass of the loop follows the decoder. -/
theorem pass_refines : r.pass.Refines r.maxPayloadSize r.mode r.remaining := by
  unfold pass mode
  cases h : r.state with
  | readingHeader => exact readHeader_refines r h
  | readingPayload => exact readPayload_refines r h

/-- **The run lemma**: with the fuel `feed` gives it, the loop computes the decoder. -/
theorem view_parse (fuel : Nat) (r : FrameReassembler)
    (hfuel : r.remaining.length + (frameDecoder r.maxPayloadSize).rank r.mode < fuel) :
    view (r.parse fuel) = (frameDecoder r.maxPayloadSize).run r.mode r.remaining := by
  induction fuel generalizing r with
  | zero => omega
  | succ fuel ih =>
    have hp := pass_refines r
    rw [parse]
    cases hpass : r.pass with
    | leave r' error =>
      rw [hpass] at hp
      exact hp.symm
    | again r' frame =>
      rw [hpass] at hp
      obtain ⟨hrun, hmax, hstate, hshort⟩ := hp
      have hmode : r'.mode = none := by simp [mode, hstate]
      have := ih r' (by rw [hmode, rank_frameDecoder_none]; omega)
      rw [hmax, hmode] at this
      rw [hrun, ← this]
      rfl

/-! ## Whole feeds, and feeds in sequence -/

/-- The reassembler a pass hands on. -/
def Pass.next : Pass → FrameReassembler
  | .leave r _ => r
  | .again r _ => r

def Pass.error : Pass → FeedError
  | .leave _ e => e
  | .again _ _ => .none

/-- What reading leaves alone: the limits, and the bytes of the buffer unless an error drops them
all. -/
structure Reads (r r' : FrameReassembler) (error : FeedError) : Prop where
  maxPayloadSize : r'.maxPayloadSize = r.maxPayloadSize
  bufferedBytesCap : r'.bufferedBytesCap = r.bufferedBytesCap
  length_le : r'.buffer.length ≤ r.buffer.length
  emptied : error ≠ .none → r'.buffer = []

theorem reads_readPayload : Reads r r.readPayload.next r.readPayload.error := by
  unfold readPayload
  split_ifs
  · exact ⟨rfl, rfl, Nat.zero_le _, fun _ => rfl⟩
  all_goals exact ⟨rfl, rfl, le_rfl, fun h => absurd rfl h⟩

theorem reads_pass : Reads r r.pass.next r.pass.error := by
  unfold pass
  split
  · unfold readHeader
    split_ifs
    · exact ⟨rfl, rfl, le_rfl, fun h => absurd rfl h⟩
    split
    · exact ⟨rfl, rfl, Nat.zero_le _, fun _ => rfl⟩
    · obtain ⟨hmax, hcap, hlength, hemptied⟩ := reads_readPayload (r.enterPayload _ _)
      exact ⟨hmax, hcap, hlength, hemptied⟩
  · exact reads_readPayload r

theorem reads_parse (fuel : Nat) (r : FrameReassembler) :
    Reads r (r.parse fuel).1 (r.parse fuel).2.error := by
  induction fuel generalizing r with
  | zero => exact ⟨rfl, rfl, le_rfl, fun h => absurd rfl h⟩
  | succ fuel ih =>
    have h := reads_pass r
    rw [parse]
    cases hpass : r.pass with
    | leave r' error => rw [hpass] at h; exact h
    | again r' frame =>
      rw [hpass] at h
      obtain ⟨hmax, hcap, hlength, hemptied⟩ := ih r'
      exact ⟨hmax.trans h.maxPayloadSize, hcap.trans h.bufferedBytesCap,
        hlength.trans h.length_le, hemptied⟩

theorem liveBytes_compact_insert :
    (r.compact.insert data).liveBytes = r.liveBytes + data.length := by
  rw [← length_remaining, remaining_insert, remaining_compact, length_append, length_remaining]

theorem reads_feed : Reads (r.compact.insert data) (r.feed data).1 (r.feed data).2.error := by
  unfold feed
  simp only
  split
  · exact ⟨rfl, rfl, Nat.zero_le _, fun _ => rfl⟩
  · exact reads_parse _ _

theorem limits_feed :
    (r.feed data).1.maxPayloadSize = r.maxPayloadSize ∧
      (r.feed data).1.bufferedBytesCap = r.bufferedBytesCap := by
  have h := reads_feed r data
  exact ⟨h.maxPayloadSize.trans (maxPayloadSize_compact r),
    h.bufferedBytesCap.trans (bufferedBytesCap_compact r)⟩

/-- A chunk that would take the unread bytes over the cap is refused, before any of it is parsed. -/
theorem feed_overflow (h : r.bufferedBytesCap < r.liveBytes + data.length) :
    (r.feed data).2 = { error := .bufferOverflow } := by
  have hcap : (r.compact.insert data).bufferedBytesCap < (r.compact.insert data).liveBytes := by
    rw [liveBytes_compact_insert]
    exact (bufferedBytesCap_compact r).trans_lt h
  simp only [feed, if_pos hcap]

/-- Any other chunk is decoded behind the unread bytes. -/
theorem view_feed (h : r.liveBytes + data.length ≤ r.bufferedBytesCap) :
    view (r.feed data) = (frameDecoder r.maxPayloadSize).run r.mode (r.remaining ++ data) := by
  set s := r.compact.insert data with hs
  have hcap : ¬ s.bufferedBytesCap < s.liveBytes := by
    rw [liveBytes_compact_insert, not_lt]
    exact h.trans_eq (bufferedBytesCap_compact r).symm
  have hrank : (frameDecoder s.maxPayloadSize).rank s.mode ≤ 1 := by
    cases s.mode <;> simp
  have hmode : s.mode = r.mode := mode_compact r
  have hmax : s.maxPayloadSize = r.maxPayloadSize := maxPayloadSize_compact r
  simp only [feed, ← hs, if_neg hcap]
  rw [view_parse _ _ (by rw [length_remaining]; omega), hmode, hmax, remaining_insert,
    remaining_compact]

/-- A sequence of calls seen as one decoding result. -/
def viewAll (c : FrameReassembler × List FeedResult) :
    List CompleteFrame × Except FeedError (Option FrameHeader × Bytes) :=
  (framesToFirstError c.2,
    if firstError c.2 = .none then .ok (c.1.mode, c.1.remaining) else .error (firstError c.2))

theorem feedAll_cons (chunk : Bytes) (chunks : List Bytes) :
    r.feedAll (chunk :: chunks) = (((r.feed chunk).1.feedAll chunks).1,
      (r.feed chunk).2 :: ((r.feed chunk).1.feedAll chunks).2) := rfl

/-- Feeding chunk after chunk is resuming the decoder chunk after chunk, as long as the first error
is not the cap's. -/
theorem viewAll_feedAll (chunks : List Bytes)
    (h : firstError (r.feedAll chunks).2 ≠ .bufferOverflow) (out : List CompleteFrame) :
    chunks.foldl (frameDecoder r.maxPayloadSize).resume (out, .ok (r.mode, r.remaining)) =
      (out ++ (viewAll (r.feedAll chunks)).1, (viewAll (r.feedAll chunks)).2) := by
  induction chunks generalizing r out with
  | nil => simp [viewAll, feedAll, framesToFirstError, firstError]
  | cons chunk chunks ih =>
    rw [feedAll_cons] at h ⊢
    have hcap : r.liveBytes + chunk.length ≤ r.bufferedBytesCap := by
      by_contra hc
      simp [firstError, feed_overflow r chunk (Nat.lt_of_not_le hc)] at h
    have hview := view_feed r chunk hcap
    have hresume : (frameDecoder r.maxPayloadSize).resume (out, .ok (r.mode, r.remaining)) chunk =
        (out ++ (view (r.feed chunk)).1, (view (r.feed chunk)).2) := by
      rw [hview]; rfl
    rw [foldl_cons, hresume]
    by_cases he : (r.feed chunk).2.error = .none
    · have h' : firstError ((r.feed chunk).1.feedAll chunks).2 ≠ .bufferOverflow := by
        simpa [firstError, he] using h
      have := ih (r.feed chunk).1 h' (out ++ (r.feed chunk).2.frames)
      rw [(limits_feed r chunk).1] at this
      simpa [view, viewAll, framesToFirstError, firstError, he] using this
    · simp [view, viewAll, framesToFirstError, firstError, he, Greedy.foldl_resume_error]

/-- `frame_reassembler{max_payload_size, buffered_bytes_cap}`. -/
def fresh (maxPayloadSize bufferedBytesCap : Nat) : FrameReassembler :=
  { maxPayloadSize, bufferedBytesCap }

/-- **A fresh reassembler decodes the concatenation of what it is fed.** -/
theorem viewAll_fresh (max cap : Nat) (chunks : List Bytes)
    (h : firstError ((fresh max cap).feedAll chunks).2 ≠ .bufferOverflow) :
    viewAll ((fresh max cap).feedAll chunks) = (frameDecoder max).run none chunks.flatten := by
  have hstart : (frameDecoder max).run none [] = ([], .ok (none, [])) :=
    Greedy.run_more _ (by simp [frameDecoder, frameTake, headerSize])
  have hall := viewAll_feedAll (fresh max cap) chunks h []
  have hfold := (frameDecoder max).foldl_resume none [] chunks
  rw [hstart] at hfold
  exact (hfold.symm.trans hall).symm

/-! ## What the accessors say depends on the decoding result only -/

theorem frameInProgress_eq : r.frameInProgress = (r.mode.isSome || r.remaining.length != 0) := by
  cases h : r.state <;> simp [frameInProgress, mode, h]

theorem pendingPayloadLen_eq : r.pendingPayloadLen = r.mode.map (·.payloadLen.toNat) := by
  cases h : r.state <;> simp [pendingPayloadLen, mode, h]

theorem error_of_run {max : Nat} {m : Option FrameHeader} {xs : Bytes}
    {out : List CompleteFrame} {e : FeedError} (h : (frameDecoder max).run m xs = (out, .error e)) :
    e = .invalidMagic ∨ e = .payloadTooLarge := by
  obtain ⟨m', ys, hf⟩ := (frameDecoder max).take_of_run_error h
  cases m' with
  | none =>
    rcases frameTake_none_cases max ys with ⟨_, e'⟩ | ⟨_, _, e'⟩ | ⟨_, hdr, _, e'⟩ <;>
      rw [take_frameDecoder, e'] at hf <;> cases hf
    exact .inl rfl
  | some hdr =>
    rcases frameTake_some_cases max hdr ys with ⟨_, e'⟩ | ⟨_, _, e'⟩ | ⟨_, _, e'⟩ <;>
      rw [take_frameDecoder, e'] at hf <;> cases hf
    exact .inr rfl

/-- **Chunking independence on arbitrary bytes.** Two ways of feeding the same bytes to a fresh
reassembler, neither of which runs into the cap first, agree on every frame up to the first error,
on that error, and — when there is none — on everything a caller can ask about what is left. -/
theorem feedAll_chunking_independent (max cap : Nat) (chunks chunks' : List Bytes)
    (hsame : chunks.flatten = chunks'.flatten)
    (hcap : firstError ((fresh max cap).feedAll chunks).2 ≠ .bufferOverflow)
    (hcap' : firstError ((fresh max cap).feedAll chunks').2 ≠ .bufferOverflow) :
    let r := (fresh max cap).feedAll chunks
    let r' := (fresh max cap).feedAll chunks'
    framesToFirstError r.2 = framesToFirstError r'.2 ∧
      firstError r.2 = firstError r'.2 ∧
      firstError r.2 ∈ [FeedError.none, .invalidMagic, .payloadTooLarge] ∧
      (firstError r.2 = .none →
        r.1.frameInProgress = r'.1.frameInProgress ∧
          r.1.pendingPayloadLen = r'.1.pendingPayloadLen ∧
          r.1.bufferedBytes = r'.1.bufferedBytes ∧
          r.1.remaining = r'.1.remaining) := by
  have hrun := viewAll_fresh max cap chunks hcap
  have hview : viewAll ((fresh max cap).feedAll chunks) = viewAll ((fresh max cap).feedAll chunks') :=
    by rw [hrun, viewAll_fresh max cap chunks' hcap', hsame]
  generalize (fresh max cap).feedAll chunks = c at *
  generalize (fresh max cap).feedAll chunks' = c' at *
  obtain ⟨hframes, hres⟩ := Prod.mk.inj hview
  by_cases he : firstError c.2 = .none
  · -- no error: the modes and the unread bytes coincide, and the accessors read nothing else
    have he' : firstError c'.2 = .none := by
      by_contra hc
      simp [he, hc] at hres
    simp only [he, he', if_true, Except.ok.injEq, Prod.mk.injEq] at hres
    obtain ⟨hmode, hrest⟩ := hres
    refine ⟨hframes, he.trans he'.symm, by simp [he], fun _ => ⟨?_, ?_, ?_, hrest⟩⟩
    · rw [frameInProgress_eq, frameInProgress_eq, hmode, hrest]
    · rw [pendingPayloadLen_eq, pendingPayloadLen_eq, hmode]
    · rw [bufferedBytes, bufferedBytes, ← length_remaining, ← length_remaining, hrest]
  · have he' : firstError c'.2 ≠ .none := by
      intro hc
      simp [he, hc] at hres
    simp only [if_neg he, if_neg he', Except.error.injEq] at hres
    have hkind := error_of_run (hrun.symm.trans (Prod.ext rfl (if_neg he)))
    exact ⟨hframes, hres, by simp only [mem_cons]; tauto, fun h => absurd h he⟩

/-- Two empty frames, once byte by byte and once in a single call. -/
theorem feedAll_chunking_independent_two_empty_frames :
    framesToFirstError ((fresh 0 100).feedAll
          ((encodeFrame default [] ++ encodeFrame default []).map fun b => [b])).2 =
        framesToFirstError ((fresh 0 100).feedAll
          [encodeFrame default [] ++ encodeFrame default []]).2 ∧
      (framesToFirstError ((fresh 0 100).feedAll
          [encodeFrame default [] ++ encodeFrame default []]).2).length = 2 :=
  ⟨(feedAll_chunking_independent 0 100 _ [encodeFrame default [] ++ encodeFrame default []]
      (by decide) (by decide) (by decide)).1, by decide⟩

/-! ## What the buffer holds -/

/-- The bytes `compact` moves to the front. -/
def moved (r : FrameReassembler) : Nat :=
  if r.consumed ≠ 0 ∧ r.buffer.length - r.consumed ≤ r.consumed then r.liveBytes else 0

def movedAll (r : FrameReassembler) : List Bytes → Nat
  | [] => 0
  | chunk :: chunks => r.moved + (r.feed chunk).1.movedAll chunks

/-- The prefix `compact` drops pays for the bytes it moves, and one it leaves is shorter than the
unread part. -/
theorem length_compact : r.moved + r.compact.buffer.length ≤ r.buffer.length ∧
    r.compact.buffer.length ≤ 2 * r.liveBytes := by
  have hle := r.consumed_le
  unfold moved compact liveBytes
  split_ifs with hcompact
  · rw [length_drop]
    omega
  · omega

theorem length_feed :
    (r.feed data).1.buffer.length ≤ r.compact.buffer.length + data.length := by
  have hlength := (reads_feed r data).length_le
  rwa [insert, length_append] at hlength

/-- The unread part is one the decoder asks more for, hence short of a frame. -/
theorem liveBytes_feed : (r.feed data).1.liveBytes < headerSize + r.maxPayloadSize := by
  by_cases herror : (r.feed data).2.error = .none
  · have hcap : r.liveBytes + data.length ≤ r.bufferedBytesCap := by
      by_contra hover
      rw [feed_overflow r data (Nat.lt_of_not_le hover)] at herror
      cases herror
    have hview := view_feed r data hcap
    rw [view, if_pos herror] at hview
    have hmore := Greedy.take_of_run_ok _ hview.symm
    rw [← length_remaining]
    cases hmode : (r.feed data).1.mode with
    | none =>
      rw [hmode] at hmore
      rcases frameTake_none_cases r.maxPayloadSize (r.feed data).1.remaining with
        ⟨hshort, -⟩ | ⟨-, -, e⟩ | ⟨-, hdr, -, e⟩
      · omega
      all_goals cases e.symm.trans hmore
    | some hdr =>
      rw [hmode] at hmore
      rcases frameTake_some_cases r.maxPayloadSize hdr (r.feed data).1.remaining with
        ⟨-, e⟩ | ⟨hmax, hshort, -⟩ | ⟨-, -, e⟩
      · cases e.symm.trans hmore
      · omega
      · cases e.symm.trans hmore
  · rw [liveBytes, (reads_feed r data).emptied herror, length_nil, Nat.zero_sub]
    exact Nat.add_pos_left headerSize_pos _

theorem moved_feedAll (chunks : List Bytes) :
    r.movedAll chunks + (r.feedAll chunks).1.buffer.length ≤
      r.buffer.length + chunks.flatten.length := by
  induction chunks generalizing r with
  | nil => simp [movedAll, feedAll]
  | cons chunk chunks ih =>
    have hstep := length_feed r chunk
    have hpaid := (length_compact r).1
    have hrest := ih (r.feed chunk).1
    rw [movedAll, feedAll_cons, flatten_cons, length_append]
    dsimp only
    omega

theorem within_feedAll {F c : Nat} (chunks : List Bytes)
    (hF : headerSize + r.maxPayloadSize = F) (hlive : r.liveBytes < F)
    (hlength : r.buffer.length ≤ 2 * F + c) (hchunks : ∀ chunk ∈ chunks, chunk.length ≤ c) :
    (r.feedAll chunks).1.liveBytes < F ∧ (r.feedAll chunks).1.buffer.length ≤ 2 * F + c := by
  induction chunks generalizing r with
  | nil => exact ⟨hlive, hlength⟩
  | cons chunk chunks ih =>
    obtain ⟨hchunk, hchunks⟩ := forall_mem_cons.mp hchunks
    apply ih (r.feed chunk).1
    · rw [(limits_feed r chunk).1, hF]
    · exact hF ▸ liveBytes_feed r chunk
    · have hstep := length_feed r chunk
      have hshort := (length_compact r).2
      omega
    · exact hchunks

/-- **The buffer is bounded.** With `F` the largest frame, what is unread after a call is short of
`F`, the buffer holds no more than `2 F` and one chunk, and all compactions together move no more
bytes than were fed. -/
theorem buffer_bounded (max cap : Nat) (chunks : List Bytes) :
    ((fresh max cap).feedAll chunks).1.liveBytes < headerSize + max ∧
      (∀ c, (∀ chunk ∈ chunks, chunk.length ≤ c) →
        ((fresh max cap).feedAll chunks).1.buffer.length ≤ 2 * (headerSize + max) + c) ∧
      (fresh max cap).movedAll chunks ≤ chunks.flatten.length := by
  have hwithin := fun c => within_feedAll (fresh max cap) (c := c) chunks rfl
    (Nat.add_pos_left headerSize_pos _) (Nat.zero_le _)
  refine ⟨?_, fun c hchunks => (hwithin c hchunks).2, ?_⟩
  · apply (hwithin chunks.flatten.length _).1
    intro chunk hmem
    exact (sublist_flatten_of_mem hmem).length_le
  · have hmoved := moved_feedAll (fresh max cap) chunks
    rw [show (fresh max cap).buffer.length = 0 from rfl] at hmoved
    omega

end FrameReassembler

end Plexus.Wire
