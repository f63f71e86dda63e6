/-
# Plexus.Io.BandHandoff — what happens to a frame the bands hand to a real channel.

`io/detail/egress_scheduler.h` over `asio/stream_channel.h`, `asio/serial_channel.h` and the
reliable `asio/udp_channel.h`. The scheduler compares occupancy plus frame with the channel's cap
and pops the frame for good; the channel decides once more, with the bytes it adds: a trailer, or a
sub-header for each fragment. `Takes` is what the source promises of a hand-over, `HasRoom` when the
channel keeps it.

`drainInto` is the drain with a concrete channel at its end (`drainLoop_drainInto`).
-/
import Plexus.Datagram.ReliableSend
import Plexus.Io.EgressScheduler
import Plexus.Stream.StreamChannel

namespace Plexus.Io

open Datagram Plexus.Stream Wire Function List

/-! ## What the bands count -/

def Band.drops (b : Band) : Nat := b.droppedOldest + b.droppedNewest + b.blocked

/-- Every frame the congestion policy has refused or evicted. -/
def PriorityBandQueue.drops (q : PriorityBandQueue) : Nat :=
  ((finRange kEgressBands).map fun i => (q.bands i).drops).sum

theorem Band.counted_pushWithVerdict (b : Band) (congestion : Congestion) (frame : Bytes) :
    let b' := (b.pushWithVerdict congestion frame).2
    b'.frames.length + b'.drops = b.frames.length + b.drops + 1 := by
  unfold pushWithVerdict
  by_cases hfull : b.frames.length = kBandDepth
  · have hpos : 0 < b.frames.length := by
      rw [hfull]
      decide
    cases congestion <;> simp [hfull, evictOldestOrRefuseCause, pop, drops] <;> omega
  · simp only [if_neg hfull, reduceCtorEq, or_self, if_false, length_append,
      length_singleton, drops]
    omega

/-- **An enqueue loses nothing uncounted**: the new frame and the old ones are resident, or the
policy has counted the one that is not. -/
theorem PriorityBandQueue.counted_enqueueWithVerdict (q : PriorityBandQueue)
    (band : Fin kEgressBands) (congestion : Congestion) (frame : Bytes) :
    let q' := (q.enqueueWithVerdict band congestion frame).2
    q'.frames.length + q'.drops = q.frames.length + q.drops + 1 := by
  have hband := (q.bands band).counted_pushWithVerdict congestion frame
  set b := ((q.bands band).pushWithVerdict congestion frame).2 with hb
  have hq : (q.enqueueWithVerdict band congestion frame).2 =
      { bands := update q.bands band b } := rfl
  have hlen := q.sum_bands_update band b (fun b => b.frames.length)
  have hdrops := q.sum_bands_update band b Band.drops
  rw [hq]
  simp only [frames, drops, length_flatMap]
  omega

/-! ## The channels that are banded -/

inductive BandedChannel
  | stream (c : StreamChannel)
  | udp (cfg : UdpChannelConfig) (c : UdpChannel cfg)

namespace BandedChannel

def backpressured : BandedChannel → Nat
  | stream c => c.backpressured
  | udp _ c => c.backpressured

def writeQueueCapacity : BandedChannel → Nat
  | stream c => c.writeQueueCapacity
  | udp _ c => c.writeQueueCapacity

def send : BandedChannel → Bytes → BandedChannel
  | stream c, frame => stream (c.send frame)
  | udp cfg c, frame => udp cfg (c.send frame)

/-- What the scheduler knows of a channel: `low_water_of` is the channel's own cap. -/
def handle (key : Nat) (scheme : Text) (ch : BandedChannel) : Channel :=
  { key, scheme, polls := true, lowWater := ch.writeQueueCapacity }

/-- `admits` of the scheduler. -/
def admits (ch : BandedChannel) (size : Nat) : Bool :=
  EgressScheduler.admits (ch.handle 0 []) ch.backpressured size

/-- A stream channel queues all its nodes, a UDP channel places every segment, and neither reports
an error or a drop. -/
def Takes : BandedChannel → Bytes → Prop
  | stream c, frame =>
    (c.send frame).egress.queue = c.egress.queue ++ c.bootstrap.nodes frame ∧
      (c.send frame).errors = c.errors ∧ (c.send frame).dropped = c.dropped
  | udp _ c, frame =>
    c.Whole frame ∧ (c.send frame).errors = c.errors ∧ (c.send frame).dropped = c.dropped

instance (ch : BandedChannel) (frame : Bytes) : Decidable (ch.Takes frame) := by
  cases ch <;> exact inferInstanceAs (Decidable (_ ∧ _))

/-- The channel has room for the frame with everything it adds to it. -/
def HasRoom : BandedChannel → Nat → Prop
  | stream c, size =>
    c.isOpen = true ∧
      (c.egress.bytes = 0 ∨ c.egress.bytes + size + c.bootstrap.trailerSize ≤ c.egress.byteCap)
  | udp cfg c, size =>
    c.isOpen = true ∧
      if cfg.isLarge size = true then size ≤ cfg.maxMessageBytes ∧ c.overflow size ≤ c.parkingRoom
      else 0 < c.room ∨ size ≤ c.parkingRoom

instance (ch : BandedChannel) (size : Nat) : Decidable (ch.HasRoom size) := by
  cases ch <;> exact inferInstanceAs (Decidable (_ ∧ _))

/-! ## One hand-over -/

variable {frame : Bytes}

theorem takes_stream_iff (c : StreamChannel) (hpos : 0 < frame.length) :
    (stream c).Takes frame ↔ (stream c).HasRoom frame.length := by
  by_cases hopen : c.isOpen = true
  · have hsend : c.send frame = c.enqueueEgress (c.egress.enqueueUnit (c.bootstrap.nodes frame)) := by
      rw [← c.submit_eq, StreamChannel.send, hopen]
      rfl
    have hadmits := c.egress.enqueueUnit_isSome (c.bootstrap.nodes frame)
    rw [c.bootstrap.totalSize_nodes] at hadmits
    have hroom : (stream c).HasRoom frame.length ↔
        c.egress.admits (frame.length + c.bootstrap.trailerSize) := by
      simp only [HasRoom, hopen, SendQueue.admits, Bool.or_eq_true, Bool.and_eq_true,
        decide_eq_true_eq, true_and]
      omega
    rw [hroom, ← hadmits, Takes, hsend]
    cases hq : c.egress.enqueueUnit (c.bootstrap.nodes frame) with
    | some egress =>
      exact iff_of_true ⟨(SendQueue.enqueueUnit_spec hq).1, rfl, rfl⟩ rfl
    | none =>
      refine iff_of_false ?_ (by simp)
      rintro ⟨-, herrors, hdropped⟩
      simp only [StreamChannel.enqueueEgress, StreamChannel.onWriteQueueFull] at herrors hdropped
      split at herrors <;> simp_all
  · have hsend : c.send frame = c := by
      rw [StreamChannel.send, Bool.not_eq_true _ |>.mp hopen]
      rfl
    refine iff_of_false ?_ (fun h => hopen h.1)
    rintro ⟨hqueue, -⟩
    rw [hsend] at hqueue
    have hnodes := self_eq_append_right.mp hqueue
    have hsize := c.bootstrap.totalSize_nodes frame
    rw [hnodes] at hsize
    have : totalSize [] = 0 := rfl
    omega

/-- A UDP channel places a frame iff it is open, the frame is within the ceiling and the queue takes
what the window does not. -/
theorem takes_udp_iff {cfg : UdpChannelConfig} (c : UdpChannel cfg)
    (hpos : 0 < frame.length) : (udp cfg c).Takes frame ↔ (udp cfg c).HasRoom frame.length := by
  have htakes : (udp cfg c).Takes frame ↔ c.Whole frame :=
    ⟨fun h => h.1, fun h => ⟨h, UdpChannel.quiet_of_whole h⟩⟩
  rw [htakes]
  by_cases hopen : c.isOpen = true
  · simp only [HasRoom, hopen, true_and]
    split
    · rename_i hlarge
      by_cases hmax : frame.length ≤ cfg.maxMessageBytes
      · rw [UdpChannel.whole_large_iff hopen hlarge hmax]
        exact (and_iff_right hmax).symm
      · refine iff_of_false ?_ (fun h => hmax h.1)
        exact UdpChannel.not_whole_of_oversize hlarge (by omega)
    rename_i hsmall
    rw [UdpChannel.whole_small_iff hopen hsmall, UdpChannel.sendReliable_small hopen hsmall]
    rcases Nat.eq_zero_or_pos c.room with hfull | hroom
    · rw [(UdpChannel.submit_full_spec (m := ⟨frame, false⟩) hfull hpos).1, hfull]
      exact (or_iff_right (lt_irrefl 0)).symm
    · exact iff_of_true (UdpChannel.submit_of_room hroom).1 (.inl hroom)
  · exact iff_of_false (UdpChannel.not_whole_of_closed hopen) (fun h => hopen h.1)

theorem takes_iff (ch : BandedChannel) (hpos : 0 < frame.length) :
    ch.Takes frame ↔ ch.HasRoom frame.length := by
  cases ch with
  | stream c => exact takes_stream_iff c hpos
  | udp cfg c => exact takes_udp_iff c hpos

/-! ## A whole drain -/

/-- One hand-over: the channel before it and the frame. -/
abbrev Handover := BandedChannel × Bytes

/-- `drain` with the channel at its end, and every hand-over it made. Each round hands over one
frame, so their number is fuel enough. -/
def drainInto : Nat → PriorityBandQueue → BandedChannel →
    PriorityBandQueue × BandedChannel × List Handover
  | 0, q, ch => (q, ch, [])
  | fuel + 1, q, ch =>
    match q.frontHighest with
    | none => (q, ch, [])
    | some node =>
      if ch.admits node.length then
        let (q', ch', handed) := drainInto fuel q.popHighest (ch.send node)
        (q', ch', (ch, node) :: handed)
      else (q, ch, [])

/-- **A frame leaves the bands in a drain only by being handed over.** -/
theorem frames_drainInto (fuel : Nat) (q : PriorityBandQueue) (ch : BandedChannel) :
    q.frames = (drainInto fuel q ch).2.2.map Prod.snd ++ (drainInto fuel q ch).1.frames := by
  induction fuel generalizing q ch with
  | zero => rfl
  | succ fuel ih =>
    rw [drainInto, PriorityBandQueue.frontHighest_eq]
    cases hframes : q.frames with
    | nil => simp [hframes]
    | cons node rest =>
      have hpop := PriorityBandQueue.frames_popHighest (q := q) (by simp [hframes])
      rw [hframes] at hpop
      have hrest := ih q.popHighest (ch.send node)
      simp only [head?_cons]
      split
      · rw [hpop] at hrest
        simpa using hrest
      · simp [hframes]

/-- A drain hands over only what the scheduler's own test lets through. -/
theorem admits_of_mem_drainInto {fuel : Nat} {q : PriorityBandQueue} {ch : BandedChannel}
    {h : Handover} (hmem : h ∈ (drainInto fuel q ch).2.2) : h.1.admits h.2.length := by
  induction fuel generalizing q ch with
  | zero => cases hmem
  | succ fuel ih =>
    rw [drainInto] at hmem
    split at hmem
    · cases hmem
    split at hmem
    · rename_i hadmits
      rcases mem_cons.mp hmem with rfl | hrest
      · exact hadmits
      · exact ih hrest
    · cases hmem

theorem mem_frames_of_mem_drainInto {fuel : Nat} {q : PriorityBandQueue} {ch : BandedChannel}
    {h : Handover} (hmem : h ∈ (drainInto fuel q ch).2.2) : h.2 ∈ q.frames := by
  rw [frames_drainInto fuel q ch]
  exact mem_append_left _ (mem_map_of_mem hmem)

/-! ## The scheduler of the publish path, fed by a concrete channel -/

theorem writeQueueCapacity_send (ch : BandedChannel) (frame : Bytes) :
    (ch.send frame).writeQueueCapacity = ch.writeQueueCapacity := by
  cases ch with
  | udp cfg c => rfl
  | stream c =>
    show (c.send frame).egress.byteCap = c.egress.byteCap
    unfold StreamChannel.send
    split
    · rfl
    rw [c.submit_eq]
    cases hq : c.egress.enqueueUnit (c.bootstrap.nodes frame) with
    | some egress => exact (SendQueue.enqueueUnit_spec hq).2
    | none =>
      show c.onWriteQueueFull.egress.byteCap = _
      unfold StreamChannel.onWriteQueueFull
      split <;> rfl

/-- The occupancies a drain reads, one for each hand-over and one more if it stops on a frame. -/
def readings (fuel : Nat) (q : PriorityBandQueue) (ch : BandedChannel) : List Nat :=
  let r := drainInto fuel q ch
  r.2.2.map (fun h => h.1.backpressured) ++ [r.2.1.backpressured]

/-- **`drainInto` refines the scheduler's drain**: with the readings this channel gives, the
scheduler leaves the same bands and hands over the same frames. -/
theorem drainLoop_drainInto (key : Nat) (scheme : Text) (fuel : Nat) (q : PriorityBandQueue)
    (ch : BandedChannel) (w : World)
    (hw : ∀ n, n < (readings fuel q ch).length → w.readings n = (readings fuel q ch).getD n 0) :
    (EgressScheduler.drainLoop (ch.handle key scheme) fuel q w).1 = (drainInto fuel q ch).1 ∧
      (EgressScheduler.drainLoop (ch.handle key scheme) fuel q w).2.sent =
        w.sent ++ (drainInto fuel q ch).2.2.map fun h => (ch.handle key scheme, h.2) := by
  induction fuel generalizing q ch w with
  | zero => simp [EgressScheduler.drainLoop, drainInto]
  | succ fuel ih =>
    cases hfront : q.frontHighest with
    | none => simp [EgressScheduler.drainLoop, drainInto, hfront]
    | some node =>
      have hhandle : (ch.send node).handle key scheme = ch.handle key scheme := by
        rw [handle, handle, writeQueueCapacity_send]
      -- the first reading is the occupancy the test is made with
      have hread : w.backpressured.1 = ch.backpressured := by
        refine (hw 0 (by simp [readings])).trans ?_
        simp only [readings, drainInto, hfront]
        split <;> rfl
      have htest : EgressScheduler.admits (ch.handle key scheme) w.backpressured.1 node.length =
          ch.admits node.length := by
        rw [hread]
        rfl
      rw [EgressScheduler.drainLoop, drainInto]
      simp only [hfront, htest]
      by_cases hadmits : ch.admits node.length = true
      · have hcons : readings (fuel + 1) q ch =
            ch.backpressured :: readings fuel q.popHighest (ch.send node) := by
          simp [readings, drainInto, hfront, hadmits]
        rw [hcons] at hw
        have hrest := ih q.popHighest (ch.send node) (w.backpressured.2.send (ch.handle key scheme) node)
          (fun n hn => hw (n + 1) (Nat.succ_lt_succ hn))
        rw [hhandle] at hrest
        rw [if_pos hadmits, if_pos hadmits]
        refine ⟨hrest.1, ?_⟩
        rw [hrest.2]
        simp
      · simp [hadmits]

/-! ## The hand-off -/

/-- **When the hand-off loses nothing.** A frame the scheduler's test lets through is taken whole iff
the channel is open and has room for the frame with what the channel adds to it. In a drain the
frames that leave the bands are the ones handed over, and all of them are taken iff each of those
channels had room; an enqueue loses a frame only with its verdict counted. -/
theorem handoff_lossless_iff (ch : BandedChannel) (q : PriorityBandQueue)
    (hheader : ∀ frame ∈ q.frames, headerSize ≤ frame.length) :
    (∀ frame, headerSize ≤ frame.length →
      ((ch.admits frame.length = true → ch.Takes frame) ↔
        (ch.admits frame.length = true → ch.HasRoom frame.length))) ∧
    let d := drainInto q.frames.length q ch
    (q.frames = d.2.2.map Prod.snd ++ d.1.frames ∧ ∀ h ∈ d.2.2, h.1.admits h.2.length = true) ∧
    ((∀ h ∈ d.2.2, h.1.Takes h.2) ↔ ∀ h ∈ d.2.2, h.1.HasRoom h.2.length) ∧
    (∀ band congestion frame,
      let r := q.enqueueWithVerdict band congestion frame
      r.2.frames.length + r.2.drops = q.frames.length + q.drops + 1) := by
  have hpos : ∀ {frame : Bytes}, headerSize ≤ frame.length → 0 < frame.length :=
    lt_of_lt_of_le (by decide)
  refine ⟨?_, ⟨frames_drainInto _ q ch, ?_⟩, ?_, q.counted_enqueueWithVerdict⟩
  · intro frame hframe
    rw [ch.takes_iff (hpos hframe)]
  · intro h hmem
    exact admits_of_mem_drainInto hmem
  · refine forall₂_congr fun h hmem => ?_
    exact h.1.takes_iff (hpos (hheader h.2 (mem_frames_of_mem_drainInto hmem)))

/-- An open channel with a cap of 64 bytes and one frame of 28 bytes in its queue. -/
def loaded (bootstrap : Bootstrap) : StreamChannel :=
  ({ bootstrap, congestion := .block, egress := { byteCap := 64, bytes_eq := totalSize_nil } } : StreamChannel).markOpen.send
    (replicate headerSize 0)

/-- Bands that hold one frame of 32 bytes. -/
def oneFrame : PriorityBandQueue :=
  (({} : PriorityBandQueue).enqueueWithVerdict (bandOf .normal) .block (replicate 32 1)).2

/-- A plain channel takes the frame: 28 and 32 bytes are within 64. -/
theorem handoff_lossless_plain :
    (drainInto 1 oneFrame (stream (loaded .plaintext))).2.2.map Prod.snd = [List.replicate 32 1] ∧
      ∀ h ∈ (drainInto 1 oneFrame (stream (loaded .plaintext))).2.2, h.1.Takes h.2 :=
  ⟨by decide +kernel,
    (handoff_lossless_iff (stream (loaded .plaintext)) oneFrame (by decide +kernel)).2.2.1.mpr
      (by decide +kernel)⟩

/-- A serial channel refuses it: with the trailers the two are 68 bytes. The bands are empty, the
queue is as before and the only trace is a `would_block`. So with a full UDP window. -/
theorem handoff_loses_frame :
    let frame := List.replicate 32 1
    let c := loaded .serial
    let u := ({} : UdpChannel UdpChannel.narrow).send [0]
    ((stream c).admits frame.length = true ∧ ¬ (stream c).Takes frame ∧
      oneFrame.frames = [frame] ∧ (drainInto 1 oneFrame (stream c)).1.frames = [] ∧
      (drainInto 1 oneFrame (stream c)).1.drops = 0 ∧
      (c.send frame).egress.queue = c.egress.queue ∧ (c.send frame).errors = [.wouldBlock]) ∧
    ((udp _ u).admits 257 = true ∧ ¬ (udp _ u).Takes (List.replicate 257 7)) := by
  decide +kernel

end BandedChannel

end Plexus.Io
