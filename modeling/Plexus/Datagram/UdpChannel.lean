/-
# Plexus.Datagram.UdpChannel — the reliable send path of a UDP channel.

`asio/udp_channel.h`, `asio/detail/udp_channel_io.h` and `datagram/detail/udp_backpressure_queue.h`,
in mode `reliable_datagram`. A message within one datagram is one segment of the ARQ; a larger one
is split and every fragment is a segment. A segment the window has no room for is parked in a
byte-bounded queue (or shed, under `drop_newest`), which the next ack drains. `wire` logs every
segment taken into the window, `errors` what `on_error` was told.

`submitAll_spec`: of a multi-fragment send the leading fragments go to the window, and the rest
fills the queue greedily.
-/
import Plexus.Datagram.UdpReliableArq
import Plexus.Io.Fragmentation
import Plexus.Io.Qos
import Plexus.Lib.Fill

namespace Plexus.Datagram

open Lib Io List

/-! ## `datagram/detail/udp_backpressure_queue.h` -/

/-- The bytes a parked message is accounted with. -/
def Message.size (m : Message) : Nat := m.bytes.length

/-- The parked segments of a channel; the byte total is kept, and stays within the cap. -/
structure UdpBackpressureQueue (byteCap : Nat) where
  entries : List Message
  bytes : Nat
  bytes_eq : bytes = (entries.map Message.size).sum
  bytes_le : bytes ≤ byteCap
  deriving DecidableEq

namespace UdpBackpressureQueue

variable {byteCap : Nat}

theorem bytes_nil : 0 = (([] : List Message).map Message.size).sum := rfl

def make (byteCap : Nat) : UdpBackpressureQueue byteCap := ⟨[], 0, bytes_nil, Nat.zero_le _⟩

variable (q : UdpBackpressureQueue byteCap)

def empty : Bool := q.entries.isEmpty

def admits (size : Nat) : Bool :=
  q.bytes < byteCap && size ≤ byteCap - q.bytes

/-- What the queue can still take. -/
def free : Nat := byteCap - q.bytes

theorem admits_iff {size : Nat} (hpos : 0 < size) : q.admits size = true ↔ size ≤ q.free := by
  simp only [admits, free, Bool.and_eq_true, decide_eq_true_eq]
  omega

/-- `admit`: `none` is a refusal. -/
def admitFrame (m : Message) : Option (UdpBackpressureQueue byteCap) :=
  if h : q.admits m.size = true then
    some
      { entries := q.entries ++ [m]
        bytes := q.bytes + m.size
        bytes_eq := by simp [q.bytes_eq]
        bytes_le := by
          simp only [admits, Bool.and_eq_true, decide_eq_true_eq] at h
          omega }
  else none

def popFront : UdpBackpressureQueue byteCap where
  entries := q.entries.tail
  bytes := q.bytes - ((q.entries.head?.map Message.size).getD 0)
  bytes_eq := by
    rw [q.bytes_eq]
    cases q.entries <;> simp
  bytes_le := Nat.le_trans (Nat.sub_le _ _) q.bytes_le

theorem entries_admitFrame {q q' : UdpBackpressureQueue byteCap} {m : Message}
    (h : q.admitFrame m = some q') :
    q'.entries = q.entries ++ [m] ∧ q'.free = q.free - m.size := by
  unfold admitFrame at h
  split at h
  · obtain rfl := Option.some.inj h
    exact ⟨rfl, Nat.sub_add_eq _ _ _⟩
  · cases h

theorem admitFrame_eq_none {q : UdpBackpressureQueue byteCap} {m : Message} (hpos : 0 < m.size) :
    q.admitFrame m = none ↔ ¬ m.size ≤ q.free := by
  rw [← q.admits_iff hpos, admitFrame]
  split <;> simp_all

end UdpBackpressureQueue

/-! ## The channel -/

structure UdpChannelConfig where
  maxPayload : Nat
  arq : UdpArqConfig := {}
  congestion : Congestion := .block
  backpressureBytes : Nat
  initialSeq : UInt16 := 0
  maxMessageBytes : Nat
  deriving DecidableEq

namespace UdpChannelConfig

variable (cfg : UdpChannelConfig)

/-- The cap of the back-pressure queue: floored at the message ceiling, and never zero. -/
def byteCap : Nat :=
  if max cfg.backpressureBytes cfg.maxMessageBytes = 0 then 1
  else max cfg.backpressureBytes cfg.maxMessageBytes

theorem maxMessageBytes_le_byteCap : cfg.maxMessageBytes ≤ cfg.byteCap := by
  unfold byteCap
  split <;> omega

theorem byteCap_pos : 0 < cfg.byteCap := by
  unfold byteCap
  split <;> omega

instance (cfg : UdpChannelConfig) : NeZero cfg.arq.effectiveWindow := ⟨cfg.arq.effectiveWindow_pos.ne'⟩

/-- The bytes of the message a full fragment of this channel carries. -/
def budget : Nat := effectiveFragmentBudget cfg.maxPayload

theorem budget_pos : 0 < cfg.budget := effectiveFragmentBudget_pos cfg.maxPayload false

/-- A message of this size takes the fragmenting path. -/
def isLarge (size : Nat) : Bool :=
  size + udpEnvelopeOverhead + 1 > cfg.maxPayload

end UdpChannelConfig

inductive SubmitResult
  | admitted | windowFull
  deriving DecidableEq

structure UdpChannel (cfg : UdpChannelConfig) where
  arq : Option (UdpReliableArq cfg.arq.effectiveWindow) := none
  backpressure : UdpBackpressureQueue cfg.byteCap := .make _
  dropped : Nat := 0
  outMsgId : UInt16 := 0
  isOpen : Bool := true
  wire : List Segment := []
  errors : List IoError := []

namespace UdpChannel

variable {cfg : UdpChannelConfig} (c : UdpChannel cfg)

/-- `ensure_arq`: the engine, made on first use. -/
def engine : UdpReliableArq cfg.arq.effectiveWindow :=
  c.arq.getD (.make cfg.arq cfg.initialSeq)

def close : UdpChannel cfg := { c with isOpen := false }

def backpressured : Nat := c.backpressure.bytes

def writeQueueCapacity (_ : UdpChannel cfg) : Nat := cfg.byteCap

def rejectOversize : UdpChannel cfg :=
  { c with errors := c.errors ++ [.messageTooLarge] }

def onWindowFull (m : Message) : UdpChannel cfg × SubmitResult :=
  if cfg.congestion = .dropNewest then ({ c with dropped := c.dropped + 1 }, .windowFull)
  else
    match c.backpressure.admitFrame m with
    | none => ({ c with errors := c.errors ++ [.wouldBlock] }, .windowFull)
    | some q => ({ c with backpressure := q }, .admitted)

/-- One segment: into the window, else `on_window_full`. -/
def submit (c : UdpChannel cfg) (m : Message) : UdpChannel cfg × SubmitResult :=
  match c.engine.submit m with
  | (arq, some seg) => ({ c with arq := some arq, wire := c.wire ++ [seg] }, .admitted)
  | (arq, none) => onWindowFull { c with arq := some arq } m

/-- The segment one fragment becomes. -/
def fragmentMessage (msgId : UInt16) (f : Fragment) : Message :=
  ⟨encodeUdpFragmentPayload msgId f, true⟩

def submitReliableFragment (msgId : UInt16) (f : Fragment) : UdpChannel cfg × SubmitResult :=
  c.submit (fragmentMessage msgId f)

/-- Segments one after the other; the result is the one of the last. -/
def submitAll (r : UdpChannel cfg × SubmitResult) (ms : List Message) :
    UdpChannel cfg × SubmitResult :=
  ms.foldl (fun r m => r.1.submit m) r

def sendReliableLarge (payload : Bytes) : UdpChannel cfg × SubmitResult :=
  if payload.length > cfg.maxMessageBytes then (c.rejectOversize, .windowFull)
  else
    let msgId := c.outMsgId
    let c := { c with arq := some c.engine, outMsgId := c.outMsgId + 1 }
    (split payload cfg.maxPayload).foldl (fun r f => r.1.submitReliableFragment msgId f) (c, .admitted)

def sendReliable (payload : Bytes) : UdpChannel cfg × SubmitResult :=
  if !c.isOpen then (c, .windowFull)
  else if cfg.isLarge payload.length then c.sendReliableLarge payload
  else c.submit ⟨payload, false⟩

/-- `send` in reliable mode: the result is dropped. -/
def send (frame : Bytes) : UdpChannel cfg := (c.sendReliable frame).1

/-- The loop of `drain_backpressure`: every round takes one parked segment, so their number is fuel
enough. -/
def drainBackpressure : Nat → UdpChannel cfg → UdpChannel cfg
  | 0, c => c
  | fuel + 1, c =>
    match c.arq, c.backpressure.entries with
    | some arq, m :: _ =>
      if arq.windowHasRoom then
        match arq.submit m with
        | (arq, some seg) =>
          drainBackpressure fuel
            { c with arq := some arq, backpressure := c.backpressure.popFront, wire := c.wire ++ [seg] }
        | (_, none) => c
      else c
    | _, _ => c

/-- `on_ack`: the window slides, a slide drains the queue, and then the bitmap frees its holes. -/
def onAck (ack : Wire.UdpAck) : UdpChannel cfg :=
  match c.arq with
  | none => c
  | some arq =>
    let target := ack.cumulative + 1
    let slid := arq.slideLoop (target - arq.base).toNat target
    let c := { c with arq := some slid }
    let c := if slid.base ≠ arq.base then drainBackpressure c.backpressure.entries.length c else c
    { c with arq := c.arq.map (·.ackHoles ack Wire.UdpAck.bitmapBits) }

/-- `on_segment` of the ARQ under `deliver_reliable`; what it delivers is the receiver's business. -/
def onSegment (c : UdpChannel cfg) (seg : Segment) : UdpChannel cfg :=
  { c with arq := some (c.engine.onSegment seg).1 }

/-! ## One segment

A segment goes to the window while the window has room and is offered to the queue afterwards. -/

/-- How many more segments the window takes. -/
def room : Nat := cfg.arq.effectiveWindow - c.engine.inFlight

/-- What has been taken into the window so far. -/
def windowed : List Message := c.wire.map Segment.message

def parked : List Message := c.backpressure.entries

end UdpChannel

theorem UdpReliableArq.inFlight_accept {W : Nat} [NeZero W] {a : UdpReliableArq W} (hW : W ≤ 32768)
    (hroom : ¬ W ≤ a.inFlight) (m : Message) : (a.accept m).inFlight = a.inFlight + 1 := by
  simp only [inFlight, UInt16.toNat_sub] at hroom
  simp only [inFlight, accept, setSlot, UInt16.toNat_sub, UInt16.toNat_add, UInt16.toNat_one]
  omega

namespace UdpChannel

variable {cfg : UdpChannelConfig} {c : UdpChannel cfg} {m : Message}

theorem submit_of_room (h : 0 < c.room) :
    (c.submit m).2 = .admitted ∧ (c.submit m).1.windowed = c.windowed ++ [m] ∧
      (c.submit m).1.backpressure = c.backpressure ∧ (c.submit m).1.room = c.room - 1 := by
  have hroom : ¬ cfg.arq.effectiveWindow ≤ c.engine.inFlight := by
    unfold room at h
    omega
  have hflight := UdpReliableArq.inFlight_accept cfg.arq.effectiveWindow_le hroom m
  rw [submit, UdpReliableArq.submit_of_room hroom]
  refine ⟨rfl, by simp [windowed], rfl, ?_⟩
  show _ - (c.engine.accept m).inFlight = _
  rw [room]
  omega

theorem submit_of_full (h : c.room = 0) :
    c.submit m = onWindowFull { c with arq := some c.engine } m := by
  have hfull : cfg.arq.effectiveWindow ≤ c.engine.inFlight := by
    unfold room at h
    omega
  rw [submit, UdpReliableArq.submit_of_full hfull]

/-- The budget a parked segment is taken from: `drop_newest` parks nothing. -/
def parkingRoom (c : UdpChannel cfg) : Nat :=
  if cfg.congestion = .dropNewest then 0 else c.backpressure.free

/-- The segment is parked if there is room for it; the window is not touched. -/
def Parks (c : UdpChannel cfg) (m : Message) (r : UdpChannel cfg × SubmitResult) : Prop :=
  (r.2 = .admitted ↔ m.size ≤ c.parkingRoom) ∧ r.1.windowed = c.windowed ∧ r.1.room = c.room ∧
    r.1.parked = c.parked ++ (if m.size ≤ c.parkingRoom then [m] else []) ∧
    r.1.parkingRoom = if m.size ≤ c.parkingRoom then c.parkingRoom - m.size else c.parkingRoom

theorem onWindowFull_spec (hpos : 0 < m.size) : c.Parks m (c.onWindowFull m) := by
  unfold onWindowFull Parks
  by_cases hdrop : cfg.congestion = .dropNewest
  · have hnot : ¬ m.size ≤ c.parkingRoom := by
      simp only [parkingRoom, if_pos hdrop]
      omega
    simp only [if_pos hdrop, if_neg hnot, append_nil]
    simp [windowed, room, engine, parked, parkingRoom, hdrop, hpos.ne']
  have hroom : c.parkingRoom = c.backpressure.free := if_neg hdrop
  cases hq : c.backpressure.admitFrame m with
  | none =>
    have hnot : ¬ m.size ≤ c.parkingRoom := by
      rw [hroom]
      exact (UdpBackpressureQueue.admitFrame_eq_none hpos).mp hq
    simp only [if_neg hdrop, if_neg hnot, append_nil]
    simp only [reduceCtorEq, hnot]
    exact ⟨trivial, rfl, rfl, rfl, rfl⟩
  | some q =>
    have hle : m.size ≤ c.parkingRoom := by
      by_contra hnot
      rw [hroom, ← UdpBackpressureQueue.admitFrame_eq_none hpos, hq] at hnot
      cases hnot
    obtain ⟨hentries, hfree⟩ := UdpBackpressureQueue.entries_admitFrame hq
    simp only [if_neg hdrop, hle]
    refine ⟨trivial, rfl, rfl, hentries, ?_⟩
    rw [hroom, ← hfree]
    exact if_neg hdrop

theorem submit_full_spec (h : c.room = 0) (hpos : 0 < m.size) : c.Parks m (c.submit m) := by
  rw [submit_of_full h]
  exact onWindowFull_spec (c := { c with arq := some c.engine }) hpos

/-- The number of segments placed so far. -/
def held (c : UdpChannel cfg) : Nat := c.windowed.length + c.parked.length

/-- Nothing has been refused or shed between two states. -/
def Quiet (c c' : UdpChannel cfg) : Prop := c'.errors = c.errors ∧ c'.dropped = c.dropped

theorem submit_held (c : UdpChannel cfg) (m : Message) :
    ((c.submit m).1.held = c.held + 1 ∧ c.Quiet (c.submit m).1) ∨
      ((c.submit m).1.held = c.held ∧ (c.submit m).2 = .windowFull) := by
  rcases Nat.eq_zero_or_pos c.room with hfull | hroom
  · rw [submit_of_full hfull, onWindowFull]
    split
    · exact .inr ⟨rfl, rfl⟩
    cases hq : c.backpressure.admitFrame m with
    | none => exact .inr ⟨rfl, rfl⟩
    | some q =>
      have hentries := (UdpBackpressureQueue.entries_admitFrame hq).1
      refine .inl ⟨?_, rfl, rfl⟩
      show c.windowed.length + q.entries.length = c.windowed.length + c.parked.length + 1
      rw [hentries, length_append]
      rfl
  · have hroom' : ¬ cfg.arq.effectiveWindow ≤ c.engine.inFlight := by
      unfold room at hroom
      omega
    rw [submit, UdpReliableArq.submit_of_room hroom']
    refine .inl ⟨?_, rfl, rfl⟩
    simp only [held, windowed, parked, length_append, length_map, length_singleton]
    omega

/-! ## A run of segments -/

theorem submitAll_cons (r : UdpChannel cfg × SubmitResult) (m : Message) (ms : List Message) :
    submitAll r (m :: ms) = submitAll (r.1.submit m) ms := rfl

theorem submitAll_concat (r : UdpChannel cfg × SubmitResult) (ms : List Message) (m : Message) :
    submitAll r (ms ++ [m]) = (submitAll r ms).1.submit m := by
  simp only [submitAll, foldl_append, foldl_cons, foldl_nil]

theorem submitAll_held (ms : List Message) (r : UdpChannel cfg × SubmitResult) :
    (submitAll r ms).1.held ≤ r.1.held + ms.length ∧
      ((submitAll r ms).1.held = r.1.held + ms.length → r.1.Quiet (submitAll r ms).1) := by
  induction ms generalizing r with
  | nil => exact ⟨le_rfl, fun _ => ⟨rfl, rfl⟩⟩
  | cons m ms ih =>
    obtain ⟨hle, hquiet⟩ := ih (r.1.submit m)
    rw [submitAll_cons, length_cons]
    rcases r.1.submit_held m with ⟨hheld, hone⟩ | ⟨hheld, -⟩
    · refine ⟨by omega, fun h => ?_⟩
      have hrest := hquiet (by omega)
      exact ⟨hrest.1.trans hone.1, hrest.2.trans hone.2⟩
    · exact ⟨by omega, fun h => by omega⟩

/-- **A run of segments.** As many as the window has room for go there, in order; the rest fills the
queue, each one that still fits. -/
theorem submitAll_spec (ms : List Message) (hpos : ∀ m ∈ ms, 0 < m.size)
    (r : UdpChannel cfg × SubmitResult) :
    let c' := (submitAll r ms).1
    c'.windowed = r.1.windowed ++ ms.take r.1.room ∧ c'.room = r.1.room - ms.length ∧
      c'.parked = r.1.parked ++ fill Message.size r.1.parkingRoom (ms.drop r.1.room) ∧
      c'.parkingRoom = r.1.parkingRoom -
        ((fill Message.size r.1.parkingRoom (ms.drop r.1.room)).map Message.size).sum := by
  induction ms generalizing r with
  | nil => simp [submitAll, fill]
  | cons m ms ih =>
    obtain ⟨hm, hms⟩ := forall_mem_cons.mp hpos
    have hrun := ih hms (r.1.submit m)
    rw [submitAll_cons]
    rcases Nat.eq_zero_or_pos r.1.room with hfull | hroom
    · -- the window is full and stays full: the queue decides about every segment
      obtain ⟨-, hwin, hroom', hparked, hfree⟩ := submit_full_spec (m := m) hfull hm
      rw [hwin, hroom', hfull, hparked, hfree] at hrun
      rw [hfull, take_zero, drop_zero, fill]
      simp only [take_zero, drop_zero, Nat.zero_sub] at hrun
      refine ⟨hrun.1, by simpa using hrun.2.1, ?_⟩
      split at hrun
      · rename_i hle
        rw [if_pos hle, map_cons, sum_cons, Nat.sub_add_eq]
        exact ⟨by simpa using hrun.2.2.1, hrun.2.2.2⟩
      · rename_i hgt
        rw [if_neg hgt]
        exact ⟨by simpa using hrun.2.2.1, hrun.2.2.2⟩
    · obtain ⟨-, hwin, hqueue, hroom'⟩ := submit_of_room (m := m) hroom
      have hparked : (r.1.submit m).1.parked = r.1.parked := congrArg (·.entries) hqueue
      have hfree : (r.1.submit m).1.parkingRoom = r.1.parkingRoom := by
        rw [parkingRoom, parkingRoom, hqueue]
      obtain ⟨k, hk⟩ := Nat.exists_eq_add_of_lt hroom
      rw [hwin, hroom', hparked, hfree, hk, zero_add, Nat.add_sub_cancel] at hrun
      rw [hk, zero_add, take_succ_cons, drop_succ_cons, length_cons, Nat.add_sub_add_right]
      refine ⟨?_, hrun.2⟩
      rw [append_cons]
      exact hrun.1

/-! ## Draining the queue -/

/-- One round of the drain: the front of the queue enters the window. -/
def unpark (c : UdpChannel cfg) (m : Message) : UdpChannel cfg :=
  { c with
    arq := some (c.engine.accept m)
    backpressure := c.backpressure.popFront
    wire := c.wire ++ [⟨c.engine.next, m⟩] }

theorem drainBackpressure_of_room (fuel : Nat) {rest : List Message} (harq : c.arq.isSome)
    (hp : c.parked = m :: rest) (hroom : 0 < c.room) :
    drainBackpressure (fuel + 1) c = drainBackpressure fuel (c.unpark m) := by
  obtain ⟨arq, ha⟩ := Option.isSome_iff_exists.mp harq
  have hengine : c.engine = arq := by rw [engine, ha]; rfl
  have hnot : ¬ cfg.arq.effectiveWindow ≤ arq.inFlight := by
    rw [room, hengine] at hroom
    omega
  have hroom' : arq.windowHasRoom = true := decide_eq_true (Nat.lt_of_not_le hnot)
  rw [drainBackpressure, ha, show c.backpressure.entries = m :: rest from hp]
  simp only [hroom', if_true, UdpReliableArq.submit_of_room hnot, unpark, hengine]

theorem drainBackpressure_of_full (fuel : Nat) (hfull : c.parked = [] ∨ c.room = 0) :
    drainBackpressure fuel c = c := by
  cases fuel with
  | zero => rfl
  | succ fuel =>
    rw [drainBackpressure]
    cases ha : c.arq with
    | none => rfl
    | some arq =>
      cases hp : c.backpressure.entries with
      | nil => rfl
      | cons m rest =>
        have hengine : c.engine = arq := by rw [engine, ha]; rfl
        have hzero : c.room = 0 := hfull.resolve_left (by rw [parked, hp]; simp)
        rw [room, hengine] at hzero
        have hnoroom : ¬ arq.windowHasRoom = true := by
          rw [UdpReliableArq.windowHasRoom, decide_eq_true_eq]
          omega
        exact if_neg hnoroom

/-- The channel once the base has slid: drained if it moved. -/
def afterSlide (c : UdpChannel cfg) (arq slid : UdpReliableArq cfg.arq.effectiveWindow) :
    UdpChannel cfg :=
  if slid.base ≠ arq.base then
    drainBackpressure c.backpressure.entries.length { c with arq := some slid }
  else { c with arq := some slid }

theorem onAck_of_arq {arq : UdpReliableArq cfg.arq.effectiveWindow} (ha : c.arq = some arq)
    (ack : Wire.UdpAck) :
    ∃ d, d = c.afterSlide arq (arq.slideLoop (ack.cumulative + 1 - arq.base).toNat (ack.cumulative + 1)) ∧
      c.onAck ack = { d with arq := d.arq.map (·.ackHoles ack Wire.UdpAck.bitmapBits) } := by
  refine ⟨_, rfl, ?_⟩
  rw [onAck, ha]
  rfl

end UdpChannel

end Plexus.Datagram
