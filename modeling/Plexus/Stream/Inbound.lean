/-
# Plexus.Stream.Inbound — message limits of a byte-stream channel (`stream/stream_inbound.h`).

`with_message_limits` turns a per-message ceiling and a memory budget into the reassembler's two
limits. The cap leaves room for one maximal frame, but the reassembler compares it with *all* unread
bytes before it parses any, and a read may bring 64 KiB on top of a frame that is one byte short.
`conforming_iff_budget` says which budgets are large enough.
-/
import Plexus.Wire.FrameReassembler

namespace Plexus.Stream

open Lib Wire FrameReassembler List

/-- Durations are nanoseconds. -/
structure StreamInboundConfig where
  noProgressFloor : Int := 30000000000
  minThroughputBytesPerSec : Nat := 64 * 1024
  maxPayloadSize : Nat := kMaxReassemblerPayloadBytes
  bufferedBytesCap : Nat := kMaxReassemblerPayloadBytes + headerSize
  deriving DecidableEq

/-- `max_payload_size + header_size` is a `std::size_t` sum, so it wraps. -/
def withMessageLimits (cfg : StreamInboundConfig) (maxPayloadSize reassemblyBudget : Nat) :
    StreamInboundConfig :=
  { cfg with
    maxPayloadSize := maxPayloadSize
    bufferedBytesCap := max reassemblyBudget ((maxPayloadSize + headerSize) % 2 ^ 64) }

/-- One read of a stream channel (`asio/stream_channel.h`). -/
def kStreamReadBufferBytes : Nat := 64 * 1024

/-- The reassembler `stream_inbound` builds from its configuration. -/
def StreamInboundConfig.reassembler (cfg : StreamInboundConfig) : FrameReassembler :=
  fresh cfg.maxPayloadSize cfg.bufferedBytesCap

/-! ## A conforming sender -/

/-- The bytes of a list of messages, each framed by `encode_frame`. -/
def sentBytes (sent : List (FrameHeader × Bytes)) : Bytes :=
  (sent.map fun m => encodeFrame m.1 m.2).flatten

/-- The frame a receiver should see for a message: the header as it went out, and the whole frame
verbatim. -/
def sentFrame (m : FrameHeader × Bytes) : CompleteFrame where
  header := { m.1 with payloadLen := UInt64.ofNat m.2.length }
  payload := encodeFrame m.1 m.2

theorem sentBytes_cons (m : FrameHeader × Bytes) (sent : List (FrameHeader × Bytes)) :
    sentBytes (m :: sent) = encodeFrame m.1 m.2 ++ sentBytes sent := rfl

/-- **A conforming stream decodes to the frames that were sent**, with nothing left over. -/
theorem run_sentBytes {max : Nat} (hmax : max < 2 ^ 64) (sent : List (FrameHeader × Bytes))
    (hsent : ∀ m ∈ sent, m.2.length ≤ max) :
    (frameDecoder max).run none (sentBytes sent) = (sent.map sentFrame, .ok (none, [])) := by
  induction sent with
  | nil => exact Greedy.run_more _ (by simp [frameDecoder, frameTake, sentBytes, headerSize])
  | cons m sent ih =>
    obtain ⟨hdr, payload⟩ := m
    have hlen : payload.length ≤ max := hsent (hdr, payload) (by simp)
    have ih := ih fun m hm => hsent m (mem_cons_of_mem _ hm)
    have hu64 : (UInt64.ofNat payload.length).toNat = payload.length :=
      UInt64.toNat_ofNat_of_lt' (lt_of_le_of_lt hlen hmax)
    -- the header step, then the payload step, then the induction hypothesis
    have hheader : (frameDecoder max).take none (sentBytes ((hdr, payload) :: sent)) =
        .advance headerSize (some { hdr with payloadLen := UInt64.ofNat payload.length }) [] := by
      have hnot : ¬ (sentBytes ((hdr, payload) :: sent)).length < headerSize := by
        rw [sentBytes_cons, length_append, length_encodeFrame]
        omega
      rw [take_frameDecoder, frameTake, if_neg hnot, sentBytes_cons, encodeFrame,
        append_assoc, decodeHeader_encodeHeader]
    have hrest : (sentBytes ((hdr, payload) :: sent)).drop headerSize =
        payload ++ sentBytes sent := by
      rw [sentBytes_cons, encodeFrame, append_assoc, drop_left' (length_encodeHeader _)]
    have hpayload : (frameDecoder max).take
          (some { hdr with payloadLen := UInt64.ofNat payload.length })
          (payload ++ sentBytes sent) =
        .advance payload.length none [sentFrame (hdr, payload)] := by
      have hshort : ¬ (payload ++ sentBytes sent).length < payload.length := by simp
      simp only [take_frameDecoder, frameTake, hu64, if_neg (not_lt.mpr hlen), if_neg hshort,
        take_left, sentFrame, encodeFrame]
    rw [Greedy.run_advance _ hheader, hrest, Greedy.run_advance _ hpayload, drop_left, ih]
    rfl

theorem length_sentBytes_replicate_empty (n : Nat) :
    (sentBytes (replicate n (default, []))).length = n * headerSize := by
  induction n with
  | zero => rfl
  | succ n ih =>
    rw [replicate_succ, sentBytes_cons, length_append, length_encodeFrame, ih]
    simp only [length_nil]
    ring

/-! ## Enough budget

A reassembler that stops on a conforming stream holds at most 27 bytes of a header, or all but one
byte of a maximal payload. -/

/-- The most unread bytes a reassembler can be left with between two feeds. -/
def stalledBytes (maxPayloadSize : Nat) : Nat := max (maxPayloadSize - 1) (headerSize - 1)

theorem length_le_stalledBytes {max : Nat} {m : Option FrameHeader} {rest : Bytes}
    (h : (frameDecoder max).take m rest = .more) : rest.length ≤ stalledBytes max := by
  rw [take_frameDecoder] at h
  unfold stalledBytes
  cases m with
  | none =>
    rcases frameTake_none_cases max rest with ⟨hlen, _⟩ | ⟨_, _, e⟩ | ⟨_, hdr, _, e⟩
    · omega
    · rw [h] at e; cases e
    · rw [h] at e; cases e
  | some hdr =>
    rcases frameTake_some_cases max hdr rest with ⟨_, e⟩ | ⟨hmax, hlen, _⟩ | ⟨_, _, e⟩
    · rw [h] at e; cases e
    · omega
    · rw [h] at e; cases e

/-- With room for a read on top of a stalled frame, bytes the decoder accepts are accepted however
they are cut into reads. -/
theorem error_none_of_room (r : FrameReassembler) (chunks : List Bytes)
    (hroom : stalledBytes r.maxPayloadSize + kStreamReadBufferBytes ≤ r.bufferedBytesCap)
    (hlive : r.liveBytes ≤ stalledBytes r.maxPayloadSize)
    (hchunks : ∀ c ∈ chunks, c.length ≤ kStreamReadBufferBytes)
    (stop : Option FrameHeader × Bytes)
    (hrun : ((frameDecoder r.maxPayloadSize).run r.mode (r.remaining ++ chunks.flatten)).2 =
      .ok stop) :
    ∀ res ∈ (r.feedAll chunks).2, res.error = .none := by
  -- the invariant: few unread bytes, and the decoder accepts them followed by what is to come
  induction chunks generalizing r with
  | nil => intro res hres; cases hres
  | cons chunk chunks ih =>
    have hchunk : chunk.length ≤ kStreamReadBufferBytes := hchunks chunk (by simp)
    have hview := view_feed r chunk (by omega)
    have hlimits := limits_feed r chunk
    rw [flatten_cons, ← append_assoc, Greedy.run_append, ← hview] at hrun
    by_cases he : (r.feed chunk).2.error = .none
    · simp only [view, if_pos he] at hview hrun
      have hstop := length_le_stalledBytes (Greedy.take_of_run_ok _ hview.symm)
      rw [length_remaining] at hstop
      have hrest : ∀ res ∈ ((r.feed chunk).1.feedAll chunks).2, res.error = .none := by
        refine ih (r.feed chunk).1 ?_ ?_ (fun c hc => hchunks c (mem_cons_of_mem _ hc)) ?_
        · rw [hlimits.1, hlimits.2]; exact hroom
        · rw [hlimits.1]; exact hstop
        · rw [hlimits.1]; exact hrun
      intro res hres
      rcases mem_cons.mp hres with rfl | hres
      · exact he
      · exact hrest res hres
    · simp only [view, if_neg he] at hrun
      cases hrun

theorem firstError_eq_none {results : List FeedResult} (h : ∀ res ∈ results, res.error = .none) :
    firstError results = .none ∧ framesToFirstError results = results.flatMap (·.frames) := by
  induction results with
  | nil => exact ⟨rfl, rfl⟩
  | cons res results ih =>
    have he : res.error = .none := h res (by simp)
    obtain ⟨hfirst, hframes⟩ := ih fun r hr => h r (mem_cons_of_mem _ hr)
    simp [firstError, framesToFirstError, he, hfirst, hframes]

/-! ## Too little budget

Stall the reassembler on the longest unfinished frame, fed byte by byte, and let the next read bring
a full buffer. If nothing was refused before, that read is. -/

theorem feedAll_append (r : FrameReassembler) (chunks chunks' : List Bytes) :
    r.feedAll (chunks ++ chunks') = (((r.feedAll chunks).1.feedAll chunks').1,
      (r.feedAll chunks).2 ++ ((r.feedAll chunks).1.feedAll chunks').2) := by
  induction chunks generalizing r with
  | nil => rfl
  | cons c cs ih => simp only [cons_append, feedAll_cons, ih]

theorem limits_feedAll (r : FrameReassembler) (chunks : List Bytes) :
    (r.feedAll chunks).1.bufferedBytesCap = r.bufferedBytesCap := by
  induction chunks generalizing r with
  | nil => rfl
  | cons c cs ih =>
    exact (ih (r.feed c).1).trans (limits_feed r c).2

theorem refused_of_stall {max cap k : Nat} {stream : Bytes} {m : Option FrameHeader}
    {out : List CompleteFrame} {rest : Bytes}
    (hlong : k + kStreamReadBufferBytes ≤ stream.length)
    (hstall : (frameDecoder max).run none (stream.take k) = (out, .ok (m, rest)))
    (hcap : cap < rest.length + kStreamReadBufferBytes) :
    ∃ chunks : List Bytes, chunks.flatten = stream ∧
      (∀ c ∈ chunks, c.length ≤ kStreamReadBufferBytes) ∧
      ¬ ∀ res ∈ ((fresh max cap).feedAll chunks).2, res.error = .none := by
  have hflat : ∀ bs : Bytes, (bs.map fun b => [b]).flatten = bs := by
    intro bs
    rw [← flatMap_def, flatMap_singleton']
  have hbytes : ∀ bs : Bytes, ∀ c ∈ bs.map (fun b => [b]), c.length ≤ kStreamReadBufferBytes := by
    intro bs c hc
    obtain ⟨b, -, rfl⟩ := mem_map.mp hc
    show 1 ≤ kStreamReadBufferBytes
    decide
  refine ⟨(stream.take k).map (fun b => [b]) ++
    (stream.drop k).take kStreamReadBufferBytes ::
      ((stream.drop k).drop kStreamReadBufferBytes).map (fun b => [b]), ?_, ?_, ?_⟩
  · rw [flatten_append, flatten_cons, hflat, hflat, take_append_drop, take_append_drop]
  · intro c hc
    rcases mem_append.mp hc with hc | hc
    · exact hbytes _ c hc
    · rcases mem_cons.mp hc with rfl | hc
      · rw [length_take]; omega
      · exact hbytes _ c hc
  intro hnone
  rw [feedAll_append, feedAll_cons] at hnone
  generalize hr : (fresh max cap).feedAll ((stream.take k).map fun b => [b]) = c at hnone
  -- the stalled state is the decoder's, so the next read goes over the cap
  have hfirst := (firstError_eq_none fun res hres => hnone res (mem_append_left _ hres)).1
  have hview := viewAll_fresh max cap
    ((stream.take k).map fun b => [b]) (by rw [hr, hfirst]; decide)
  rw [hr, hflat, hstall, viewAll, if_pos hfirst] at hview
  have hrest : c.1.remaining = rest := by
    have := congrArg Prod.snd hview
    simp only [Except.ok.injEq, Prod.mk.injEq] at this
    exact this.2
  have hcap' : c.1.bufferedBytesCap = cap := by
    rw [← hr]; exact limits_feedAll _ _
  have hread : ((stream.drop k).take kStreamReadBufferBytes).length = kStreamReadBufferBytes := by
    rw [length_take, length_drop]; omega
  have hover := feed_overflow c.1
    ((stream.drop k).take kStreamReadBufferBytes)
    (by rw [hcap', hread, ← length_remaining, hrest]; exact hcap)
  have := hnone _ (mem_append_right _ (mem_cons_self ..))
  rw [hover] at this
  cases this

/-- The stream that stalls longest: a maximal frame or a header, and empty frames to fill one more
read. -/
theorem exists_stall {max : Nat} (hmax : max < 2 ^ 64) :
    ∃ sent : List (FrameHeader × Bytes), (∀ m ∈ sent, m.2.length ≤ max) ∧
      ∃ k out m rest, k + kStreamReadBufferBytes ≤ (sentBytes sent).length ∧
        (frameDecoder max).run none ((sentBytes sent).take k) = (out, .ok (m, rest)) ∧
        rest.length = stalledBytes max := by
  by_cases hlarge : headerSize ≤ max
  · -- the maximal frame without its last byte
    obtain ⟨n, rfl⟩ : ∃ n, max = n + 1 := ⟨max - 1, by unfold headerSize at hlarge; omega⟩
    let hdr : FrameHeader := { (default : FrameHeader) with payloadLen := UInt64.ofNat (n + 1) }
    have hu64 : (UInt64.ofNat (n + 1)).toNat = n + 1 := UInt64.toNat_ofNat_of_lt' hmax
    have htake : (sentBytes ((default, replicate (n + 1) 0) ::
          replicate 2341 (default, []))).take (headerSize + n) =
        encodeHeader hdr ++ replicate n 0 := by
      rw [sentBytes_cons, encodeFrame, append_assoc, length_replicate,
        take_append, length_encodeHeader, take_of_length_le (by simp),
        Nat.add_sub_cancel_left, take_append_of_le_length (by simp)]
      simp [hdr]
    refine ⟨(default, replicate (n + 1) 0) :: replicate 2341 (default, []), ?_,
      headerSize + n, [], some hdr, replicate n 0, ?_, ?_, ?_⟩
    · intro m hm
      rcases mem_cons.mp hm with rfl | hm
      · simp
      · rw [eq_of_mem_replicate hm]; simp
    · rw [sentBytes_cons, length_append, length_encodeFrame, length_sentBytes_replicate_empty,
        length_replicate, headerSize, kStreamReadBufferBytes]
      omega
    · have hheader : (frameDecoder (n + 1)).take none (encodeHeader hdr ++ replicate n 0) =
          .advance headerSize (some hdr) [] := by
        rw [take_frameDecoder, frameTake, if_neg (by simp), decodeHeader_encodeHeader]
      have hmore : (frameDecoder (n + 1)).take (some hdr) (replicate n 0) = .more := by
        have hlen : hdr.payloadLen.toNat = n + 1 := hu64
        rw [take_frameDecoder, frameTake, hlen, if_neg (by omega), if_pos (by simp)]
      rw [htake, Greedy.run_advance _ hheader, drop_left' (length_encodeHeader _),
        Greedy.run_more _ hmore]
      rfl
    · rw [length_replicate, stalledBytes]
      omega
  · -- a header without its last byte
    have htake : ((sentBytes (replicate 2342 (default, []))).take (headerSize - 1)).length =
        headerSize - 1 := by
      rw [length_take, length_sentBytes_replicate_empty]
      rfl
    refine ⟨replicate 2342 (default, []), ?_, headerSize - 1, [], none, _, ?_, ?_, htake.trans ?_⟩
    · intro m hm
      rw [eq_of_mem_replicate hm]; simp
    · rw [length_sentBytes_replicate_empty, headerSize, kStreamReadBufferBytes]
      omega
    · exact Greedy.run_more _ (by rw [take_frameDecoder, frameTake, if_pos (by rw [htake]; decide)])
    · rw [stalledBytes]
      omega

/-- **Which budgets accept every conforming stream.** For limits whose sum does not wrap, every
list of messages within the ceiling, cut into reads of at most 64 KiB in any way, arrives without an
error and frame for frame as sent — exactly when the budget holds one full read on top of the
largest unfinished frame. -/
theorem conforming_iff_budget (cfg : StreamInboundConfig) (maxPayloadSize reassemblyBudget : Nat)
    (hsum : maxPayloadSize + headerSize < 2 ^ 64) :
    (∀ (sent : List (FrameHeader × Bytes)) (chunks : List Bytes),
        (∀ m ∈ sent, m.2.length ≤ maxPayloadSize) → chunks.flatten = sentBytes sent →
        (∀ c ∈ chunks, c.length ≤ kStreamReadBufferBytes) →
        let results := ((withMessageLimits cfg maxPayloadSize
          reassemblyBudget).reassembler.feedAll chunks).2
        (∀ res ∈ results, res.error = .none) ∧ results.flatMap (·.frames) = sent.map sentFrame) ↔
      max (maxPayloadSize - 1) (headerSize - 1) + kStreamReadBufferBytes ≤ reassemblyBudget := by
  have hmax : maxPayloadSize < 2 ^ 64 := by omega
  have hwrap : (maxPayloadSize + headerSize) % 2 ^ 64 = maxPayloadSize + headerSize :=
    Nat.mod_eq_of_lt hsum
  simp only [StreamInboundConfig.reassembler, withMessageLimits, hwrap]
  constructor
  · intro haccept
    by_contra hbudget
    obtain ⟨sent, hsent, k, out, m, rest, hlong, hstall, hrest⟩ := exists_stall hmax
    -- one frame's worth of cap never covers a stalled frame and a full read
    have hcap : max reassemblyBudget (maxPayloadSize + headerSize) <
        rest.length + kStreamReadBufferBytes := by
      rw [hrest, stalledBytes]
      simp only [headerSize, kStreamReadBufferBytes] at hbudget ⊢
      omega
    obtain ⟨chunks, hflat, hsize, hrefused⟩ := refused_of_stall hlong hstall hcap
    exact hrefused (haccept sent chunks hsent hflat hsize).1
  intro hbudget sent chunks hsent hflat hsize
  have hrun := run_sentBytes hmax sent hsent
  have hnone := error_none_of_room
    (FrameReassembler.fresh maxPayloadSize (max reassemblyBudget (maxPayloadSize + headerSize)))
    chunks (hbudget.trans (Nat.le_max_left _ _)) (Nat.zero_le _) hsize (none, [])
    (by rw [← hflat] at hrun; exact congrArg Prod.snd hrun)
  obtain ⟨hfirst, hframes⟩ := firstError_eq_none hnone
  refine ⟨hnone, ?_⟩
  have hview := FrameReassembler.viewAll_fresh maxPayloadSize
    (max reassemblyBudget (maxPayloadSize + headerSize)) chunks
    (by rw [hfirst]; decide)
  rw [hflat, hrun] at hview
  rw [← hframes]
  exact congrArg Prod.fst hview

/-- The defaults (8 MiB messages, 16 MiB budget) accept every conforming stream. -/
theorem conforming_iff_budget_defaults :
    8 * 1024 * 1024 + headerSize < 2 ^ 64 ∧
      ∀ (sent : List (FrameHeader × Bytes)) (chunks : List Bytes),
        (∀ m ∈ sent, m.2.length ≤ 8 * 1024 * 1024) → chunks.flatten = sentBytes sent →
        (∀ c ∈ chunks, c.length ≤ kStreamReadBufferBytes) →
        let results := ((withMessageLimits {} (8 * 1024 * 1024)
          (16 * 1024 * 1024)).reassembler.feedAll chunks).2
        (∀ res ∈ results, res.error = .none) ∧ results.flatMap (·.frames) = sent.map sentFrame :=
  ⟨by decide, (conforming_iff_budget {} (8 * 1024 * 1024) (16 * 1024 * 1024) (by decide)).mpr
    (by decide)⟩

/-- Two empty frames in one 56-byte read, under a ceiling and a budget of zero: the cap is 28, and
the read is refused. -/
theorem two_empty_frames_refused :
    (sentBytes [(default, []), (default, [])]).length ≤ kStreamReadBufferBytes ∧
      ((withMessageLimits {} 0 0).reassembler.feedAll
        [sentBytes [(default, []), (default, [])]]).2 = [{ error := .bufferOverflow }] := by
  decide

end Plexus.Stream
