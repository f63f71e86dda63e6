/-
# Plexus.Datagram.ArqLink — a sender and a receiver over an unreliable network.

Two `udp_reliable_arq` ends that start at the same sequence number, the handlers of expired waits
that have not run yet, and everything either end put on the network, which may deliver any datagram
at any time, any number of times, or never, but not across `2^15` or more newer sequence numbers.

What the receiver hands out is a prefix of what the sender admitted in every run in which no submit
takes a slot whose expired wait is still queued (`delivered_prefix_of_guarded`). That condition can
be dropped exactly when the window divides the sequence space or nothing is ever retransmitted:
otherwise two numbers on either side of the wrap share a slot.
-/
import Plexus.Datagram.ArqWindow
import Plexus.Lib.Run

namespace Plexus.Datagram

open Lib Wire UdpReliableArq List

/-- A segment on the network; `position` is its place among the admitted messages. -/
structure SegmentDatagram where
  position : Nat
  segment : Segment
  deriving DecidableEq

/-- An ack on the network; `edge` is how much its sender had delivered. -/
structure AckDatagram where
  edge : Nat
  ack : UdpAck
  deriving DecidableEq

/-- A sender and a receiver, and every datagram ever put on the wire. -/
structure ArqLink (W : Nat) where
  sender : UdpReliableArq W
  receiver : UdpReliableArq W
  ready : List UInt16 := []
  segments : List SegmentDatagram := []
  acks : List AckDatagram := []
  admitted : List Message := []
  delivered : List Message := []

/-- What can happen on a link. Datagrams and queued handlers are named by their place in the lists;
`refill` are the submits the `on_window_advance` callback makes if the ack moves the base. -/
inductive ArqEvent (W : Nat) where
  | submit (m : Message)
  | expire (slot : Fin W)
  | dispatch (k : Nat)
  | deliverSegment (k : Nat)
  | deliverAck (k : Nat) (refill : List Message)
  | cancel

variable {W : Nat} [NeZero W]

namespace ArqLink

def make (cfg : UdpArqConfig) (initialSeq : UInt16) : ArqLink cfg.effectiveWindow where
  sender := .make cfg initialSeq
  receiver := .make cfg initialSeq

variable (s : ArqLink W)

/-- Put what the sender transmitted on the network, each segment under the newest position that has
its sequence number. -/
def transmit (segs : List Segment) : ArqLink W :=
  { s with segments := s.segments ++
      segs.map fun seg => ⟨unwrap s.sender.next s.admitted.length seg.seq, seg⟩ }

/-- Fewer than `2^15` sequence numbers are newer than `position`. -/
def fresh (position : Nat) : Bool := s.admitted.length ≤ position + 2 ^ 15

/-- The sender's `submit`: the caller learns whether the message was admitted. -/
def submit (s : ArqLink W) (m : Message) : ArqLink W :=
  let (sender, sent) := s.sender.submit m
  { s with sender, admitted := s.admitted ++ sent.toList.map Segment.message }.transmit sent.toList

theorem submit_of_full {s : ArqLink W} (h : W ≤ s.sender.inFlight) (m : Message) : s.submit m = s := by
  simp [ArqLink.submit, UdpReliableArq.submit_of_full h, transmit]

theorem submit_of_room {s : ArqLink W} (h : ¬ W ≤ s.sender.inFlight) (m : Message) :
    s.submit m = { s with
      sender := s.sender.accept m
      admitted := s.admitted ++ [m]
      segments := s.segments ++ [⟨unwrap (s.sender.next + 1) (s.admitted.length + 1) s.sender.next,
        ⟨s.sender.next, m⟩⟩] } := by
  simp [ArqLink.submit, UdpReliableArq.submit_of_room h, transmit, UdpReliableArq.accept,
    UdpReliableArq.setSlot]

def expire (s : ArqLink W) (slot : Fin W) : ArqLink W :=
  let (sender, handler) := s.sender.expire slot
  { s with sender, ready := s.ready ++ handler.toList }

def dispatch (k : Nat) : ArqLink W :=
  match s.ready[k]? with
  | none => s
  | some seq =>
    let (sender, sent) := s.sender.waitCompletion seq
    { s with sender, ready := s.ready.eraseIdx k }.transmit sent

def deliverSegment (k : Nat) : ArqLink W :=
  match s.segments[k]? with
  | none => s
  | some d =>
    if s.fresh d.position then
      let (receiver, delivered, ack) := s.receiver.onSegment d.segment
      let delivered := s.delivered ++ delivered
      { s with receiver, delivered, acks := s.acks ++ [⟨delivered.length, ack⟩] }
    else s

def deliverAck (k : Nat) (refill : List Message) : ArqLink W :=
  match s.acks[k]? with
  | none => s
  | some d =>
    if s.fresh d.edge then
      let (sender, sent) := s.sender.onAck d.ack refill
      { s with sender, admitted := s.admitted ++ sent.map Segment.message }.transmit sent
    else s

def step : ArqEvent W → ArqLink W
  | .submit m => s.submit m
  | .expire slot => s.expire slot
  | .dispatch k => s.dispatch k
  | .deliverSegment k => s.deliverSegment k
  | .deliverAck k refill => s.deliverAck k refill
  | .cancel => { s with sender := s.sender.cancel }

def run (cfg : UdpArqConfig) (initialSeq : UInt16) (events : List (ArqEvent cfg.effectiveWindow)) :
    ArqLink cfg.effectiveWindow :=
  events.foldl step (make cfg initialSeq)

/-- The next `n` submits take no slot whose expired wait is still queued. -/
def slotsFree (n : Nat) : Prop :=
  ∀ j < n, ∀ c ∈ s.ready, slotOf W c ≠ slotOf W (s.sender.next + UInt16.ofNat j)

instance (s : ArqLink W) (n : Nat) : Decidable (s.slotsFree n) :=
  @Nat.decidableBallLT n (fun j _ => ∀ c ∈ s.ready,
      slotOf W c ≠ slotOf W (s.sender.next + UInt16.ofNat j)) fun _ _ => decidableBAll _ _

/-- The scheduling condition on one event, in the state before it. -/
def noLateReuse : ArqEvent W → Prop
  | .submit _ => s.slotsFree 1
  | .deliverAck _ refill => s.slotsFree refill.length
  | _ => True

instance (s : ArqLink W) : (e : ArqEvent W) → Decidable (s.noLateReuse e)
  | .submit _ => inferInstanceAs (Decidable (s.slotsFree 1))
  | .deliverAck _ refill => inferInstanceAs (Decidable (s.slotsFree refill.length))
  | .expire _ | .dispatch _ | .deliverSegment _ | .cancel => isTrue trivial

/-! ## The invariant of a link -/

/-- The sender's window ends where the receiver has delivered, everything delivered is what was
admitted, and everything on the network is faithful to it. -/
structure Inv (s : ArqLink W) (init : Nat) (lo : Nat) (own : Fin W → Nat) : Prop where
  window : Window s.sender s.ready init s.admitted lo own
  tracks : s.receiver.recv.Tracks init s.admitted s.delivered.length
  delivered_eq : s.delivered = s.admitted.take s.delivered.length
  lo_le : lo ≤ s.delivered.length
  segments : ∀ d ∈ s.segments, Faithful init s.admitted lo d.segment d.position
  acks : ∀ d ∈ s.acks, d.edge ≤ s.delivered.length ∧ d.ack.cumulative + 1 = seqAt init d.edge

variable {s : ArqLink W} {init lo : Nat} {own : Fin W → Nat}

theorem inv_make (cfg : UdpArqConfig) (initialSeq : UInt16) :
    (make cfg initialSeq).Inv initialSeq.toNat 0 fun _ => 0 where
  window := window_make cfg initialSeq _
  tracks := by
    have := UdpReorderBuffer.tracks_make (W := cfg.effectiveWindow) initialSeq.toNat []
    rwa [UInt16.ofNat_toNat] at this
  delivered_eq := rfl
  lo_le := le_rfl
  segments := fun _ h => by cases h
  acks := fun _ h => by cases h

theorem Inv.delivered_prefix (h : s.Inv init lo own) : s.delivered <+: s.admitted := by
  rw [h.delivered_eq]
  exact take_prefix _ _

theorem Inv.delivered_le (h : s.Inv init lo own) : s.delivered.length ≤ s.admitted.length :=
  h.delivered_prefix.length_le

theorem Inv.sender_step (h : s.Inv init lo own) {sender : UdpReliableArq W} {ready : List UInt16}
    (ms : List Message) (segs : List Segment) {lo' : Nat} {own' : Fin W → Nat}
    (hw : Window sender ready init (s.admitted ++ ms) lo' own') (hlo : lo ≤ lo')
    (hlo' : lo' ≤ s.delivered.length)
    (hsegs : ∀ seg ∈ segs, Faithful init (s.admitted ++ ms) lo' seg
      (unwrap sender.next (s.admitted ++ ms).length seg.seq)) :
    ({ s with sender, ready, admitted := s.admitted ++ ms }.transmit segs).Inv init lo' own' where
  window := hw
  tracks := h.tracks.append ms
  delivered_eq := by
    simp only [transmit]
    rw [take_append_of_le_length h.delivered_le]
    exact h.delivered_eq
  lo_le := hlo'
  segments := by
    intro d hd
    rcases mem_append.mp hd with hd | hd
    · exact (h.segments d hd).grow ms hlo
    · obtain ⟨seg, hseg, rfl⟩ := mem_map.mp hd
      exact hsegs seg hseg
  acks := h.acks

theorem faithful_unwrap {sender : UdpReliableArq W} {ready : List UInt16} {xs : List Message}
    {seg : Segment} {p : Nat} (hw : Window sender ready init xs lo own) (hW : W ≤ 32768)
    (hp : lo ≤ p) (hf : Faithful init xs lo seg p) :
    Faithful init xs lo seg (unwrap sender.next xs.length seg.seq) := by
  have hlt := hf.lt
  have hlen := hw.le_lo
  rw [hf.seq_eq, hw.next_eq, unwrap_seqAt hlt (by omega)]
  exact hf

theorem seqAt_add (j : Nat) {i : Nat} : seqAt init i + UInt16.ofNat j = seqAt init (i + j) := by
  rw [seqAt, seqAt, ← add_assoc, UInt16.ofNat_add (init + i) j]

theorem reuseSafe_of_slotsFree (hw : Window s.sender s.ready init s.admitted lo own) {n : Nat}
    (h : W ∣ 65536 ∨ s.sender.maxRetransmit = 0 ∨ s.slotsFree n) :
    ∀ j < n, ReuseSafe s.sender s.ready (slotOf W (seqAt init (s.admitted.length + j))) := by
  intro j hj
  rcases h with hdvd | hzero | hfree
  · exact .inl hdvd
  · exact .inr (.inl hzero)
  · refine .inr (.inr fun c hc => ?_)
    have := hfree j hj c hc
    rwa [hw.next_eq, seqAt_add] at this

section

variable (h : s.Inv init lo own)
include h

theorem Inv.submit (hW : W ≤ 32768) (m : Message)
    (hok : W ∣ 65536 ∨ s.sender.maxRetransmit = 0 ∨ s.slotsFree 1) :
    ∃ own', (s.submit m).Inv init lo own' := by
  by_cases hfull : W ≤ s.sender.inFlight
  · refine ⟨own, ?_⟩
    rw [submit_of_full hfull]
    exact h
  have hreuse := reuseSafe_of_slotsFree h.window hok 0 (by omega)
  rw [add_zero, ← h.window.next_eq] at hreuse
  have hw := h.window.accept hW hfull hreuse m
  refine ⟨Function.update own (slotOf W s.sender.next) s.admitted.length, ?_⟩
  have hstep := h.sender_step [m] [⟨s.sender.next, m⟩] hw le_rfl h.lo_le ?_
  · simpa [ArqLink.submit, UdpReliableArq.submit_of_room hfull] using hstep
  intro seg hseg
  rw [mem_singleton] at hseg
  subst hseg
  exact faithful_unwrap hw hW h.window.lo_le ⟨by simp, h.window.next_eq, .inl (by simp)⟩

theorem Inv.expire (slot : Fin W) : (s.expire slot).Inv init lo own := by
  have hstep := h.sender_step [] [] (by simpa using h.window.expire slot) le_rfl h.lo_le
  simpa [transmit, ArqLink.expire] using hstep

theorem Inv.cancel : (s.step .cancel).Inv init lo own := by
  have hstep := h.sender_step [] [] (by simpa using h.window.cancel) le_rfl h.lo_le (by simp)
  simpa [transmit, step] using hstep

theorem Inv.dispatch (hW : W ≤ 32768) (k : Nat) : (s.dispatch k).Inv init lo own := by
  unfold ArqLink.dispatch
  cases hk : s.ready[k]? with
  | none => exact h
  | some seq =>
    have hmem : seq ∈ s.ready := mem_of_getElem? hk
    obtain ⟨hw, hsegs⟩ := h.window.waitCompletion hW (s.ready.eraseIdx k)
      (fun c hc => mem_of_mem_eraseIdx hc) (h.window.queued seq hmem)
    have hnext : (s.sender.waitCompletion seq).1.next = s.sender.next :=
      hw.next_eq.trans h.window.next_eq.symm
    have hstep := h.sender_step [] (s.sender.waitCompletion seq).2
      (by simpa using hw) le_rfl h.lo_le
      (by intro seg hseg; simpa [hnext] using hsegs seg hseg)
    simpa using hstep

end

theorem cumulative_sendAck (a : UdpReliableArq W) : a.sendAck.cumulative = a.recv.cumulative := by
  have hfold : ∀ (is : List Nat) (ack : UdpAck),
      (is.foldl (fun ack i => if a.recv.bufferedAt (i + 1) then ack.markHole i else ack)
        ack).cumulative = ack.cumulative := by
    intro is
    induction is with
    | nil => intro ack; rfl
    | cons i is ih =>
      intro ack
      rw [foldl_cons, ih]
      split <;> simp
  exact hfold _ _

theorem Inv.deliverSegment (h : s.Inv init lo own) (hW : W ≤ 32768) (k : Nat) :
    (s.deliverSegment k).Inv init lo own := by
  unfold ArqLink.deliverSegment
  cases hk : s.segments[k]? with
  | none => exact h
  | some d =>
    simp only
    split
    case isFalse => exact h
    case isTrue hfresh =>
      have hf := h.segments d (mem_of_getElem? hk)
      have hlt := hf.lt
      have hlen := h.window.le_lo
      have hlo := h.lo_le
      have hle := h.delivered_le
      replace hfresh : s.admitted.length ≤ d.position + 32768 := by simpa [fresh] using hfresh
      -- behind the receiver the segment is stale; at or ahead of it, it carries its own message
      have hseg : halfSpace ≤ (d.segment.seq - s.receiver.recv.expected).toNat ∨
          s.admitted[s.delivered.length + (d.segment.seq - s.receiver.recv.expected).toNat]? =
            some ⟨d.segment.message.bytes, d.segment.message.fragmented⟩ := by
        have hexp : s.receiver.recv.expected = seqAt init s.delivered.length := h.tracks.expected_eq
        rw [hf.seq_eq, hexp, halfSpace]
        by_cases hpast : d.position < s.delivered.length
        · rw [seqAt_sub_of_lt hpast (by omega)]
          omega
        · right
          rw [seqAt_sub_of_le (by omega) (by omega), Nat.add_sub_cancel' (by omega)]
          exact hf.message.resolve_right (by omega)
      obtain ⟨n, hout, hn, htracks⟩ := UdpReorderBuffer.feed_tracks h.tracks hseg
      have hdelivered : s.delivered ++ (s.admitted.drop s.delivered.length).take n =
          s.admitted.take (s.delivered.length + n) := by
        conv_lhs => rw [h.delivered_eq]
        rw [length_take, Nat.min_eq_left hle, take_add]
      have hlength : (s.delivered ++ (s.admitted.drop s.delivered.length).take n).length =
          s.delivered.length + n := by
        rw [hdelivered, length_take]
        omega
      simp only [UdpReliableArq.onSegment, hout]
      refine ⟨h.window, ?_, ?_, ?_, h.segments, ?_⟩
      · rw [hlength]
        exact htracks
      · rw [hlength]
        exact hdelivered
      · rw [hlength]
        omega
      intro e he
      rw [hlength]
      rcases mem_append.mp he with he | he
      · obtain ⟨h1, h2⟩ := h.acks e he
        exact ⟨by omega, h2⟩
      rw [mem_singleton] at he
      subst he
      rw [cumulative_sendAck, hlength, UdpReorderBuffer.cumulative, htracks.expected_eq]
      simp [seqAt]

theorem Inv.deliverAck (h : s.Inv init lo own) (hW : W ≤ 32768) (k : Nat) (refill : List Message)
    (hok : W ∣ 65536 ∨ s.sender.maxRetransmit = 0 ∨ s.slotsFree refill.length) :
    ∃ lo' own', (s.deliverAck k refill).Inv init lo' own' := by
  unfold ArqLink.deliverAck
  cases hk : s.acks[k]? with
  | none => exact ⟨lo, own, h⟩
  | some d =>
    simp only
    split
    case isFalse => exact ⟨lo, own, h⟩
    case isTrue hfresh =>
      obtain ⟨hedge, hcum⟩ := h.acks d (mem_of_getElem? hk)
      have hle := h.delivered_le
      have hlo := h.lo_le
      replace hfresh : s.admitted.length ≤ d.edge + halfSpace := by
        simpa [fresh, halfSpace] using hfresh
      obtain ⟨lo', h1, h2, hw⟩ := h.window.slideLoop d.edge (by omega) hfresh
        (seqAt init d.edge - s.sender.base).toNat
      have hfields := fields_slideLoop (seqAt init d.edge - s.sender.base).toNat
        (seqAt init d.edge) s.sender
      simp only [onAck, slideTo, hcum]
      split
      · -- the base moved: the callback refills the window
        have hreuse := reuseSafe_of_slotsFree h.window hok
        obtain ⟨own', hw', hsegs⟩ := hw.submitAll hW refill fun j hj => by
          simpa only [ReuseSafe, hfields.1] using hreuse j hj
        refine ⟨lo', own', h.sender_step _ _ (hw'.ackHoles d.ack _) h1 (by omega)
          fun seg hseg => ?_⟩
        obtain ⟨p, hp, hf⟩ := hsegs seg hseg
        exact faithful_unwrap (hw'.ackHoles d.ack _) hW (by have := hw.lo_le; omega) hf
      · refine ⟨lo', own, ?_⟩
        have hstep := h.sender_step [] []
          (by simpa using hw.ackHoles d.ack UdpAck.bitmapBits) h1 (by omega) (by simp)
        simpa using hstep

/-! ## Every run -/

theorem maxRetransmit_step (s : ArqLink W) (e : ArqEvent W) :
    (s.step e).sender.maxRetransmit = s.sender.maxRetransmit := by
  cases e with
  | submit m =>
    show (s.sender.submit m).1.maxRetransmit = _
    unfold UdpReliableArq.submit
    split <;> rfl
  | expire slot => rfl
  | dispatch k =>
    show (s.dispatch k).sender.maxRetransmit = _
    unfold ArqLink.dispatch
    split
    · rfl
    dsimp only
    unfold UdpReliableArq.waitCompletion onRto
    simp only
    split_ifs <;> rfl
  | deliverSegment k =>
    show (s.deliverSegment k).sender.maxRetransmit = _
    unfold ArqLink.deliverSegment
    split
    · rfl
    · split <;> rfl
  | deliverAck k refill =>
    show (s.deliverAck k refill).sender.maxRetransmit = _
    unfold ArqLink.deliverAck
    cases s.acks[k]? with
    | none => rfl
    | some d =>
      simp only
      split
      · show (s.sender.onAck d.ack refill).1.maxRetransmit = _
        unfold onAck slideTo
        rw [(fields_ackHoles _ d.ack _).1]
        split
        · rw [maxRetransmit_submitAll, (fields_slideLoop _ _ s.sender).1]
        · exact (fields_slideLoop _ _ s.sender).1
      · rfl
  | cancel => rfl

/-- **The step lemma**: an event keeps the invariant when the window divides the sequence space,
when nothing is ever retransmitted, or when it takes no slot of a queued handler. -/
theorem inv_step (hW : W ≤ 32768) (h : ∃ lo own, s.Inv init lo own) (e : ArqEvent W)
    (hok : W ∣ 65536 ∨ s.sender.maxRetransmit = 0 ∨ s.noLateReuse e) :
    ∃ lo own, (s.step e).Inv init lo own := by
  obtain ⟨lo, own, h⟩ := h
  cases e with
  | submit m =>
    obtain ⟨own', h'⟩ := h.submit hW m hok
    exact ⟨lo, own', h'⟩
  | expire slot => exact ⟨lo, own, h.expire slot⟩
  | dispatch k => exact ⟨lo, own, h.dispatch hW k⟩
  | deliverSegment k => exact ⟨lo, own, h.deliverSegment hW k⟩
  | deliverAck k refill => exact h.deliverAck hW k refill hok
  | cancel => exact ⟨lo, own, h.cancel⟩

/-- **The run lemma.** -/
theorem delivered_prefix_of_guarded (cfg : UdpArqConfig) (initialSeq : UInt16)
    (events : List (ArqEvent cfg.effectiveWindow))
    (hrun : Guarded step (fun s e => cfg.effectiveWindow ∣ 65536 ∨ cfg.maxRetransmit = 0 ∨
      s.noLateReuse e) (make cfg initialSeq) events) :
    (run cfg initialSeq events).delivered <+: (run cfg initialSeq events).admitted := by
  have hinv := hrun.invariant
    (fun s => s.sender.maxRetransmit = cfg.maxRetransmit ∧ ∃ lo own, s.Inv initialSeq.toNat lo own)
    (fun s e hs hok => ⟨(maxRetransmit_step s e).trans hs.1,
      inv_step cfg.effectiveWindow_le hs.2 e (by rwa [hs.1])⟩)
    ⟨rfl, 0, _, inv_make cfg initialSeq⟩
  obtain ⟨-, lo, own, h⟩ := hinv
  exact h.delivered_prefix

/-! ## A late handler across the wrap

When the window does not divide the sequence space, the number `65536 - r` (with `r` the remainder)
and the number `0` share slot zero and are fewer than a window apart. Start there, let the first
wait expire, and submit until the slot is taken again before its handler runs. -/

/-- The state of that run after the first message, the expiry of its wait, and `j` more messages. -/
structure LateRun (cfg : UdpArqConfig) (init : Nat) (p q : Message) (j : Nat)
    (s : ArqLink cfg.effectiveWindow) : Prop where
  next_eq : s.sender.next = seqAt init (1 + j)
  base_eq : s.sender.base = seqAt init 0
  alive : s.sender.dead = false
  maxRetransmit_eq : s.sender.maxRetransmit = cfg.maxRetransmit
  ready_eq : s.ready = [seqAt init 0]
  admitted_eq : s.admitted = p :: replicate j q
  segments_length : s.segments.length = 1 + j
  receiver_eq : s.receiver = .make cfg (seqAt init 0)
  delivered_eq : s.delivered = []

variable {cfg : UdpArqConfig} {p q : Message} {j : Nat}

theorem lateRun_zero (init : Nat) (p q : Message) :
    LateRun cfg init p q 0 (((make cfg (seqAt init 0)).submit p).expire
      (slotOf cfg.effectiveWindow (seqAt init 0))) := by
  have hpos := cfg.effectiveWindow_pos
  have hroom : ¬ cfg.effectiveWindow ≤ (UdpReliableArq.make cfg (seqAt init 0)).inFlight := by
    simp [UdpReliableArq.inFlight, UdpReliableArq.make]
    omega
  have hsub := UdpReliableArq.submit_of_room hroom p
  constructor <;> simp [ArqLink.submit, ArqLink.expire, make, hsub, transmit,
    UdpReliableArq.expire, UdpReliableArq.accept, UdpReliableArq.setSlot] <;>
    simp [UdpReliableArq.make, seqAt_succ]

theorem LateRun.submit {s : ArqLink cfg.effectiveWindow} (h : LateRun cfg init p q j s)
    (hroom : 1 + j < cfg.effectiveWindow) :
    LateRun cfg init p q (j + 1) (s.submit q) ∧
      (s.submit q).sender.slots (slotOf _ (seqAt init (1 + j))) =
        { bytes := q.bytes, fragmented := q.fragmented, outstanding := true,
          timer := some (seqAt init (1 + j)) } := by
  have hle := cfg.effectiveWindow_le
  have hflight : ¬ cfg.effectiveWindow ≤ s.sender.inFlight := by
    rw [UdpReliableArq.inFlight, h.next_eq, h.base_eq, seqAt_sub_of_le (by omega) (by omega)]
    omega
  rw [submit_of_room hflight]
  refine ⟨{ h with next_eq := ?_, admitted_eq := ?_, segments_length := ?_ }, ?_⟩
  · show s.sender.next + 1 = _
    rw [h.next_eq, seqAt_succ, add_assoc]
  · simp [h.admitted_eq, replicate_succ']
  · simp [h.segments_length, add_assoc]
  · rw [← h.next_eq]
    exact s.sender.slots_accept_self q

theorem lateRun_foldl (cfg : UdpArqConfig) (init : Nat) (p q : Message) (j : Nat)
    (hj : j < cfg.effectiveWindow) :
    LateRun cfg init p q j ((replicate j (.submit q)).foldl step
      (((make cfg (seqAt init 0)).submit p).expire (slotOf _ (seqAt init 0)))) := by
  induction j with
  | zero => exact lateRun_zero init p q
  | succ j ih =>
    rw [replicate_succ', foldl_append]
    exact ((ih (by omega)).submit (by omega)).1

theorem admitted_deliverSegment (s : ArqLink W) (k : Nat) :
    (s.deliverSegment k).admitted = s.admitted := by
  unfold ArqLink.deliverSegment
  split
  · rfl
  · split <;> rfl

/-- The late handler transmits the last message under the first number, and the receiver takes it. -/
theorem not_prefix_of_not_dvd (cfg : UdpArqConfig) (hdvd : ¬ cfg.effectiveWindow ∣ 65536)
    (hmax : cfg.maxRetransmit ≠ 0) :
    ∃ initialSeq events, ¬ (run cfg initialSeq events).delivered <+:
      (run cfg initialSeq events).admitted := by
  have hle := cfg.effectiveWindow_le
  obtain ⟨r, hr⟩ : ∃ r, 65536 % cfg.effectiveWindow = r + 1 :=
    ⟨65536 % cfg.effectiveWindow - 1, by
      have : 65536 % cfg.effectiveWindow ≠ 0 := fun h => hdvd (Nat.dvd_of_mod_eq_zero h)
      omega⟩
  have hrW : r + 1 < cfg.effectiveWindow := hr ▸ Nat.mod_lt _ cfg.effectiveWindow_pos
  obtain ⟨init, hinit⟩ : ∃ init, init = 65536 - (r + 1) := ⟨_, rfl⟩
  obtain ⟨p, q, hpq⟩ : ∃ p q : Message, p ≠ q := ⟨⟨[0], false⟩, ⟨[1], false⟩, by decide⟩
  -- the first number and the one `r + 1` places later share a slot
  have hslot : slotOf cfg.effectiveWindow (seqAt init (1 + r)) = slotOf _ (seqAt init 0) := by
    have hfirst : init % cfg.effectiveWindow = 0 := by
      rw [hinit]
      exact Nat.sub_mod_eq_zero_of_mod_eq (by rw [hr, Nat.mod_eq_of_lt hrW])
    ext
    show (seqAt init (1 + r)).toNat % _ = (seqAt init 0).toNat % _
    rw [toNat_seqAt, toNat_seqAt, Nat.mod_eq_of_lt (show init + 0 < 65536 by omega),
      show init + (1 + r) = 65536 by omega, add_zero, hfirst, Nat.zero_mod]
  obtain ⟨hlate, hcontent⟩ := (lateRun_foldl cfg init p q r (by omega)).submit (by omega)
  rw [hslot] at hcontent
  refine ⟨seqAt init 0, [.submit p, .expire (slotOf _ (seqAt init 0))] ++
    (replicate r (.submit q) ++ [.submit q, .dispatch 0, .deliverSegment (1 + (r + 1))]), ?_⟩
  simp only [run, foldl_append, foldl_cons, foldl_nil, step]
  generalize ((replicate r (.submit q)).foldl step
    (((make cfg (seqAt init 0)).submit p).expire (slotOf _ (seqAt init 0)))).submit q = s
    at hlate hcontent ⊢
  -- the queued handler finds the slot outstanding and sends what is in it
  have hzero : ¬ cfg.maxRetransmit ≤ 0 := fun h => hmax (UInt8.le_antisymm h UInt8.zero_le)
  have hrto : s.sender.waitCompletion (seqAt init 0) =
      (s.sender.setSlot (slotOf _ (seqAt init 0))
        { s.sender.slots (slotOf _ (seqAt init 0)) with
          retransmits := 1, retransmitted := true, timer := some (seqAt init 0) },
        [⟨seqAt init 0, q⟩]) := by
    simp [waitCompletion, hlate.alive, onRto, hcontent,
      hlate.maxRetransmit_eq, hzero, ArqSlot.message]
  have hposition : unwrap s.sender.next s.admitted.length (seqAt init 0) = 0 := by
    have hlen : s.admitted.length = 1 + (r + 1) := by simp [hlate.admitted_eq]; omega
    rw [hlen, hlate.next_eq]
    exact unwrap_seqAt (by omega) (by omega)
  have hdispatch : s.dispatch 0 = { s with
      sender := (s.sender.waitCompletion (seqAt init 0)).1
      ready := []
      segments := s.segments ++ [⟨0, ⟨seqAt init 0, q⟩⟩] } := by
    simp [ArqLink.dispatch, hlate.ready_eq, hrto, transmit, UdpReliableArq.setSlot, hposition]
  have hfresh : s.admitted.length ≤ 32768 := by
    simp [hlate.admitted_eq]
    omega
  obtain ⟨recv, hfeed, -, -⟩ := UdpReorderBuffer.feed_expected
    (UdpReorderBuffer.empty_make (W := cfg.effectiveWindow) (seqAt init 0)) q
  rw [show (UdpReorderBuffer.make cfg.effectiveWindow (seqAt init 0)).expected = seqAt init 0 from rfl]
    at hfeed
  have hdelivered : ((s.dispatch 0).deliverSegment (1 + (r + 1))).delivered = [q] := by
    rw [hdispatch]
    simp [ArqLink.deliverSegment, ← hlate.segments_length, fresh, hfresh, UdpReliableArq.onSegment,
      hlate.receiver_eq, UdpReliableArq.make, hfeed, hlate.delivered_eq]
  have hadmitted : ((s.dispatch 0).deliverSegment (1 + (r + 1))).admitted =
      p :: replicate (r + 1) q := by
    rw [admitted_deliverSegment, hdispatch]
    exact hlate.admitted_eq
  rw [hdelivered, hadmitted]
  intro hprefix
  exact hpq (cons_prefix_cons.mp hprefix).1.symm

/-- **End-to-end safety of a reliable link.** The receiver hands out a prefix of what the sender
admitted in *every* run exactly when the window divides the sequence space or nothing is ever
retransmitted; and for every window, in every run in which no submit takes a slot whose expired wait
is still queued. -/
theorem delivered_prefix_iff (cfg : UdpArqConfig) :
    ((∀ (initialSeq : UInt16) (events : List (ArqEvent cfg.effectiveWindow)),
        (run cfg initialSeq events).delivered <+: (run cfg initialSeq events).admitted) ↔
      cfg.effectiveWindow ∣ 65536 ∨ cfg.maxRetransmit = 0) ∧
    ∀ (initialSeq : UInt16) (events : List (ArqEvent cfg.effectiveWindow)),
      Guarded step noLateReuse (make cfg initialSeq) events →
        (run cfg initialSeq events).delivered <+: (run cfg initialSeq events).admitted := by
  refine ⟨⟨fun hall => ?_, fun hcfg initialSeq events => ?_⟩, fun initialSeq events hrun => ?_⟩
  · by_contra hcfg
    rw [not_or] at hcfg
    obtain ⟨initialSeq, events, hbad⟩ := not_prefix_of_not_dvd cfg hcfg.1 hcfg.2
    exact hbad (hall initialSeq events)
  · refine delivered_prefix_of_guarded cfg initialSeq events (guarded_of_forall (fun s e => ?_) _ _)
    rcases hcfg with hdvd | hzero
    · exact .inl hdvd
    · exact .inr (.inl hzero)
  · exact delivered_prefix_of_guarded cfg initialSeq events (hrun.mono fun _ _ h => .inr (.inr h))

/-- A window of three may fail, but not when handlers run before their slots are taken again. -/
theorem delivered_prefix_iff_window_three :
    let cfg : UdpArqConfig := { window := 3 }
    let events : List (ArqEvent cfg.effectiveWindow) :=
      [.submit ⟨[10], false⟩, .expire (0 : Fin 3), .dispatch 0, .deliverSegment 1,
        .deliverAck 0 [⟨[20], false⟩]]
    (¬ ∀ (initialSeq : UInt16) (events : List (ArqEvent cfg.effectiveWindow)),
        (run cfg initialSeq events).delivered <+: (run cfg initialSeq events).admitted) ∧
      (run cfg 65535 events).delivered <+: (run cfg 65535 events).admitted :=
  ⟨fun h => absurd ((delivered_prefix_iff { window := 3 }).1.mp h) (by decide),
    (delivered_prefix_iff { window := 3 }).2 65535 _
      ⟨by decide, trivial, trivial, trivial, by decide, trivial⟩⟩

/-- A window of three at the wrap: the second message takes the slot of the first, whose handler is
queued, and is delivered in its place. -/
theorem late_handler_overtakes :
    let cfg : UdpArqConfig := { window := 3 }
    let s := run cfg 65535 [.submit ⟨[10], false⟩, .expire (0 : Fin 3), .submit ⟨[20], false⟩,
      .dispatch 0, .deliverSegment 2]
    s.admitted = [⟨[10], false⟩, ⟨[20], false⟩] ∧ s.delivered = [⟨[20], false⟩] := by
  decide

end ArqLink

end Plexus.Datagram
