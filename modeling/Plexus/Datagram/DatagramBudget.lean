/-
# Plexus.Datagram.DatagramBudget — how large the datagrams of a channel get.

A channel of either mode, with every datagram it hands to the socket: frames and fragments of the
best-effort path, the segments of the ARQ, however they come to be sent, and the acks. The split of
a large frame leaves room for the envelope and the fragment sub-header; a reliable fragment has the
segment marker as well, so every full one comes to `max_payload + 1`.

One invariant with a bound as parameter (`Within`): what sits in the slots of the ARQ or in the
queue is no larger than the largest unit a send has produced.
-/
import Plexus.Datagram.ReliableSend
import Plexus.Datagram.ArqWindow
import Plexus.Wire.UdpEnvelope
import Plexus.Lib.Run

namespace Plexus.Datagram

open Lib Io Wire UdpChannel List

/-! ## The channel and its socket -/

/-- `datagram::detail::udp_channel_mode`. -/
inductive UdpChannelMode
  | bestEffort | reliableDatagram
  deriving DecidableEq

/-- A channel with the datagrams it has emitted. -/
structure UdpPort (cfg : UdpChannelConfig) where
  channel : UdpChannel cfg := {}
  outSeq : UInt16 := 0
  datagrams : List Bytes := []

inductive UdpPortEvent (cfg : UdpChannelConfig) where
  | send (frame : Bytes)
  | inbound (datagram : Bytes)
  | expire (slot : Fin cfg.arq.effectiveWindow)
  | rto (seq : UInt16)
  | close

/-- The `on_transmit` callback `ensure_arq` installs. -/
def transmitted (seg : Segment) : Bytes :=
  wrapUdp .reliableArq seg.seq (encodeUdpSegment seg.message.bytes) seg.message.fragmented

namespace UdpPort

variable {cfg : UdpChannelConfig}

/-- The channel has moved on; every segment it has taken into the window since is transmitted. -/
def advance (p : UdpPort cfg) (channel : UdpChannel cfg) : UdpPort cfg :=
  { p with
    channel
    datagrams := p.datagrams ++ (channel.wire.drop p.channel.wire.length).map transmitted }

/-- The sink of `send_best_effort_large`. -/
def sendFragment (msgId : UInt16) (p : UdpPort cfg) (f : Fragment) : UdpPort cfg :=
  { p with
    outSeq := p.outSeq + 1
    datagrams := p.datagrams ++ [wrapUdpFragment .bestEffort p.outSeq msgId f] }

def sendBestEffortLarge (p : UdpPort cfg) (frame : Bytes) : UdpPort cfg :=
  if frame.length > cfg.maxMessageBytes then { p with channel := p.channel.rejectOversize }
  else
    let msgId := p.channel.outMsgId
    (split frame cfg.maxPayload).foldl (sendFragment msgId)
      { p with channel := { p.channel with outMsgId := msgId + 1 } }

def send (mode : UdpChannelMode) (p : UdpPort cfg) (frame : Bytes) : UdpPort cfg :=
  match mode with
  | .reliableDatagram => p.advance (p.channel.send frame)
  | .bestEffort =>
    if !p.channel.isOpen then p
    else if frame.length + udpEnvelopeOverhead > cfg.maxPayload then p.sendBestEffortLarge frame
    else
      { p with
        outSeq := p.outSeq + 1
        datagrams := p.datagrams ++ [wrapUdp .bestEffort p.outSeq frame] }

def deliverReliable (p : UdpPort cfg) (seq : UInt16) (fragmented : Bool) (inner : Bytes) :
    UdpPort cfg :=
  match peekUdpArqKind inner with
  | none => p
  | some .ack =>
    match decodeUdpAck inner with
    | none => p
    | some ack => p.advance (p.channel.onAck ack)
  | some .segment =>
    match decodeUdpSegment inner with
    | none => p
    | some payload =>
      let seg := ⟨seq, ⟨payload, fragmented⟩⟩
      let ack := (p.channel.engine.onSegment seg).2.2
      { p with
        channel := p.channel.onSegment seg
        datagrams := p.datagrams ++ [wrapUdp .reliableArq 0 (encodeUdpAck ack)] }

/-- What a best-effort datagram does is the receiving half's business; it sends nothing. -/
def deliverInbound (mode : UdpChannelMode) (p : UdpPort cfg) (datagram : Bytes) : UdpPort cfg :=
  match unwrapUdp datagram with
  | none => p
  | some dec =>
    if dec.kind = UdpEnvelopeKind.bestEffort.byte then p
    else if mode = .reliableDatagram then p.deliverReliable dec.seq dec.fragmented dec.frame
    else p

def rto (p : UdpPort cfg) (seq : UInt16) : UdpPort cfg :=
  match p.channel.arq with
  | none => p
  | some arq =>
    let (arq, sent) := arq.waitCompletion seq
    { p with
      channel := { p.channel with arq := some arq }
      datagrams := p.datagrams ++ sent.map transmitted }

def step (mode : UdpChannelMode) (p : UdpPort cfg) : UdpPortEvent cfg → UdpPort cfg
  | .send frame => p.send mode frame
  | .inbound datagram => p.deliverInbound mode datagram
  | .expire slot =>
    { p with channel := { p.channel with arq := p.channel.arq.map fun a => (a.expire slot).1 } }
  | .rto seq => p.rto seq
  | .close => { p with channel := p.channel.close }

def run (cfg : UdpChannelConfig) (mode : UdpChannelMode) (events : List (UdpPortEvent cfg)) :
    UdpPort cfg :=
  events.foldl (step mode) {}

end UdpPort

/-- A frame that is cut into fragments rather than refused. -/
def UdpChannelConfig.splits (cfg : UdpChannelConfig) (size : Nat) : Bool :=
  cfg.isLarge size && size ≤ cfg.maxMessageBytes

/-! ## A bound on all units -/

/-- Every slot's bytes are within `B`. -/
def SlotsWithin {W : Nat} (B : Nat) (a : UdpReliableArq W) : Prop :=
  ∀ k, (a.slots k).bytes.length ≤ B

variable {m : Message}

section

variable {W B : Nat} [NeZero W] {a : UdpReliableArq W}

section

variable (h : SlotsWithin B a)
include h

theorem SlotsWithin.accept (hm : m.size ≤ B) : SlotsWithin B (a.accept m) := by
  intro k
  show (ArqSlot.bytes (Function.update a.slots _ _ k)).length ≤ B
  rw [Function.update_apply]
  split
  · exact hm
  · exact h k

theorem SlotsWithin.freeSegment (seq : UInt16) : SlotsWithin B (a.freeSegment seq) := by
  intro k
  rcases slots_freeSegment a seq k with heq | ⟨-, heq⟩ <;> rw [heq] <;> exact h k

theorem SlotsWithin.slideLoop (fuel : Nat) (newBase : UInt16) :
    SlotsWithin B (a.slideLoop fuel newBase) := by
  induction fuel generalizing a with
  | zero => exact h
  | succ fuel ih =>
    rw [UdpReliableArq.slideLoop]
    split
    · exact ih (h.freeSegment a.base)
    · exact h

theorem SlotsWithin.ackHoles (ack : UdpAck) (n : Nat) : SlotsWithin B (a.ackHoles ack n) := by
  unfold UdpReliableArq.ackHoles
  induction range n generalizing a with
  | nil => exact h
  | cons i is ih =>
    rw [foldl_cons]
    apply ih
    split
    · rw [UdpReliableArq.ackHole]
      split
      · exact h
      · exact h.freeSegment _
    · exact h

end

omit [NeZero W] in
theorem SlotsWithin.expire (h : SlotsWithin B a) (slot : Fin W) : SlotsWithin B (a.expire slot).1 := by
  intro k
  show (ArqSlot.bytes (Function.update a.slots _ _ k)).length ≤ B
  rw [Function.update_apply]
  split
  · exact h _
  · exact h k

theorem SlotsWithin.waitCompletion (h : SlotsWithin B a) (seq : UInt16) :
    SlotsWithin B (a.waitCompletion seq).1 ∧ ∀ seg ∈ (a.waitCompletion seq).2, seg.message.size ≤ B := by
  unfold UdpReliableArq.waitCompletion UdpReliableArq.onRto
  simp only
  split_ifs
  · exact ⟨h, by simp⟩
  · exact ⟨h, by simp⟩
  · exact ⟨h, by simp⟩
  constructor
  · intro k
    show (ArqSlot.bytes (Function.update a.slots _ _ k)).length ≤ B
    rw [Function.update_apply]
    split
    · exact h _
    · exact h k
  · intro seg hseg
    rw [mem_singleton] at hseg
    subst hseg
    exact h _

end

namespace UdpChannel

variable {cfg : UdpChannelConfig} {c : UdpChannel cfg} {B : Nat}

/-- Every unit the channel holds or has sent is within `B`. -/
structure Within (B : Nat) (c : UdpChannel cfg) : Prop where
  slots : SlotsWithin B c.engine
  parked : ∀ m ∈ c.parked, m.size ≤ B
  wire : ∀ seg ∈ c.wire, seg.message.size ≤ B

theorem within_make : Within B ({} : UdpChannel cfg) where
  slots := fun _ => Nat.zero_le _
  parked := forall_mem_nil _
  wire := forall_mem_nil _

theorem Within.submit (h : c.Within B) (hm : m.size ≤ B) : (c.submit m).1.Within B := by
  rcases Nat.eq_zero_or_pos c.room with hfull | hroom
  · rw [submit_of_full hfull, onWindowFull]
    split
    · exact { h with }
    cases hq : c.backpressure.admitFrame m with
    | none => exact { h with }
    | some q =>
      refine ⟨h.slots, fun x hx => ?_, h.wire⟩
      have hx' : x ∈ q.entries := hx
      rw [(UdpBackpressureQueue.entries_admitFrame hq).1, mem_append, mem_singleton] at hx'
      rcases hx' with hx' | rfl
      · exact h.parked x hx'
      · exact hm
  · have hnot : ¬ cfg.arq.effectiveWindow ≤ c.engine.inFlight := by
      unfold room at hroom
      omega
    rw [UdpChannel.submit, UdpReliableArq.submit_of_room hnot]
    exact ⟨h.slots.accept hm, h.parked, forall_mem_append.mpr ⟨h.wire, forall_mem_singleton.mpr hm⟩⟩

theorem Within.submitAll {ms : List Message} (hms : ∀ m ∈ ms, m.size ≤ B)
    (r : UdpChannel cfg × SubmitResult) (h : r.1.Within B) : (submitAll r ms).1.Within B := by
  induction ms generalizing r with
  | nil => exact h
  | cons m ms ih =>
    obtain ⟨hm, hms⟩ := forall_mem_cons.mp hms
    exact ih hms (r.1.submit m) (h.submit hm)

theorem Within.drainBackpressure (fuel : Nat) (harq : c.arq.isSome) (h : c.Within B) :
    (drainBackpressure fuel c).Within B := by
  induction fuel generalizing c with
  | zero => exact h
  | succ fuel ih =>
    cases hp : c.parked with
    | nil =>
      rw [drainBackpressure_of_full _ (.inl hp)]
      exact h
    | cons m rest =>
      rcases Nat.eq_zero_or_pos c.room with hfull | hroom
      · rw [drainBackpressure_of_full _ (.inr hfull)]
        exact h
      have hm : m.size ≤ B := h.parked m (by rw [hp]; exact mem_cons_self)
      rw [drainBackpressure_of_room fuel harq hp hroom]
      exact ih rfl ⟨h.slots.accept hm, fun x hx => h.parked x (mem_of_mem_tail hx),
        forall_mem_append.mpr ⟨h.wire, forall_mem_singleton.mpr hm⟩⟩

theorem Within.onAck (h : c.Within B) (ack : UdpAck) : (c.onAck ack).Within B := by
  cases ha : c.arq with
  | none =>
    have hsame : c.onAck ack = c := by rw [UdpChannel.onAck, ha]
    rw [hsame]
    exact h
  | some arq =>
    have hslots : SlotsWithin B arq := by
      have hengine : c.engine = arq := by rw [engine, ha]; rfl
      rw [← hengine]
      exact h.slots
    obtain ⟨d, hd, hack⟩ := onAck_of_arq ha ack
    have hwithin : d.Within B := by
      rw [hd, afterSlide]
      have hslid : Within B { c with
          arq := some (arq.slideLoop (ack.cumulative + 1 - arq.base).toNat (ack.cumulative + 1)) } :=
        ⟨hslots.slideLoop _ _, h.parked, h.wire⟩
      split
      · exact hslid.drainBackpressure _ rfl
      · exact hslid
    rw [hack]
    refine ⟨?_, hwithin.parked, hwithin.wire⟩
    cases hd' : d.arq with
    | none => exact fun _ => Nat.zero_le _
    | some a =>
      have hengine : d.engine = a := by rw [engine, hd']; rfl
      have hslots' := hwithin.slots
      rw [hengine] at hslots'
      rw [engine, Option.map_some, Option.getD_some]
      exact hslots'.ackHoles ack _

/-! ## The units of a send -/

theorem size_le_of_mem_fragments {payload : Bytes} (hm : m ∈ c.fragments payload) :
    m.size ≤ fullSize cfg := by
  rw [fragments_eq] at hm
  obtain ⟨i, -, rfl⟩ := mem_map.mp hm
  rw [size_fragmentAt]
  exact Nat.add_le_add_right (length_take_le _ _) _

theorem Within.send (h : c.Within B) (frame : Bytes) (hsmall : cfg.maxPayload ≤ B + 4)
    (hsplit : cfg.splits frame.length = true → fullSize cfg ≤ B) : (c.send frame).Within B := by
  rw [UdpChannel.send]
  by_cases hopen : c.isOpen = true
  · by_cases hlarge : cfg.isLarge frame.length = true
    · by_cases hmax : frame.length ≤ cfg.maxMessageBytes
      · have hfull : fullSize cfg ≤ B := hsplit (by simp [UdpChannelConfig.splits, hlarge, hmax])
        rw [sendReliable_large hopen hlarge hmax]
        exact .submitAll (fun m hm => le_trans (size_le_of_mem_fragments hm) hfull) _ { h with }
      · rw [sendReliable, hopen, if_neg (by decide), if_pos hlarge, sendReliableLarge,
          if_pos (by omega)]
        exact { h with }
    · rw [sendReliable, hopen, if_neg hlarge]
      refine h.submit ?_
      have hfits : ¬ frame.length + 3 + 1 > cfg.maxPayload := fun hgt => hlarge (decide_eq_true hgt)
      show frame.length ≤ B
      omega
  · rw [sendReliable, if_pos (by simpa using hopen)]
    exact h

end UdpChannel

namespace UdpPort

variable {cfg : UdpChannelConfig} {mode : UdpChannelMode} {p : UdpPort cfg} {B : Nat}

theorem length_transmitted (seg : Segment) : (transmitted seg).length = seg.message.size + 4 := by
  simp [transmitted, Message.size, udpEnvelopeOverhead]

/-- Every unit is within `B`, and so every datagram within `B + 4`. -/
structure Within (B : Nat) (p : UdpPort cfg) : Prop where
  channel : p.channel.Within B
  datagrams : ∀ d ∈ p.datagrams, d.length ≤ B + 4

variable {c : UdpChannel cfg} {frame : Bytes}

theorem within_advance (h : p.Within B) (hc : c.Within B) : (p.advance c).Within B := by
  refine ⟨hc, fun d hd => ?_⟩
  rcases mem_append.mp hd with hd | hd
  · exact h.datagrams d hd
  · obtain ⟨seg, hseg, rfl⟩ := mem_map.mp hd
    exact Nat.add_le_add_right (hc.wire seg (mem_of_mem_drop hseg)) 4

theorem Within.snoc (h : p.Within B) (hc : c.Within B) {d : Bytes} (hd : d.length ≤ B + 4)
    (outSeq : UInt16) : Within B { channel := c, outSeq, datagrams := p.datagrams ++ [d] } := by
  exact ⟨hc, forall_mem_append.mpr ⟨h.datagrams, forall_mem_singleton.mpr hd⟩⟩

theorem within_sendFragments (msgId : UInt16) {fs : List Fragment}
    (hfs : ∀ f ∈ fs, f.slice.length + udpFragmentHeaderOverhead ≤ B + 4) (h : p.Within B) :
    (fs.foldl (sendFragment msgId) p).Within B := by
  induction fs generalizing p with
  | nil => exact h
  | cons f fs ih =>
    obtain ⟨hf, hfs⟩ := forall_mem_cons.mp hfs
    exact ih hfs (h.snoc h.channel (by rw [length_wrapUdpFragment]; exact hf) _)

theorem slice_le_of_mem_split {f : Fragment} (hf : f ∈ split frame cfg.maxPayload) :
    f.slice.length ≤ cfg.budget := by
  obtain ⟨i, -, rfl⟩ := mem_map.mp hf
  exact length_take_le _ _

section

variable (hmin : 141 ≤ cfg.maxPayload)
include hmin

theorem budget_eq : cfg.budget = cfg.maxPayload - 13 := by
  show (if cfg.maxPayload ≤ 141 then 128 else cfg.maxPayload - 13) = _
  split <;> omega

section

variable (hsmall : cfg.maxPayload ≤ B + 4)
include hsmall

theorem within_send (frame : Bytes)
    (hsplit : mode = .reliableDatagram → cfg.splits frame.length = true →
      UdpChannel.fullSize cfg ≤ B) (h : p.Within B) : (p.send mode frame).Within B := by
  cases mode with
  | reliableDatagram => exact within_advance h (h.channel.send frame hsmall (hsplit rfl))
  | bestEffort =>
    simp only [UdpPort.send]
    split_ifs with hclosed hlarge
    · exact h
    · unfold sendBestEffortLarge
      split
      · exact ⟨{ h.channel with }, h.datagrams⟩
      refine within_sendFragments _ (fun f hf => ?_) ⟨{ h.channel with }, h.datagrams⟩
      have hslice := slice_le_of_mem_split hf
      rw [budget_eq hmin] at hslice
      simp only [udpFragmentHeaderOverhead, udpEnvelopeOverhead, udpFragmentSubheader]
      omega
    · refine h.snoc h.channel ?_ _
      rw [length_wrapUdp]
      omega

/-- **The step lemma.** -/
theorem within_step
    (e : UdpPortEvent cfg)
    (hsplit : ∀ frame, e = .send frame → mode = .reliableDatagram →
      cfg.splits frame.length = true → UdpChannel.fullSize cfg ≤ B) (h : p.Within B) :
    (p.step mode e).Within B := by
  cases e with
  | send frame => exact within_send hmin hsmall frame (hsplit frame rfl) h
  | inbound datagram =>
    simp only [step, deliverInbound]
    split
    · exact h
    split_ifs
    · exact h
    · unfold deliverReliable
      split
      · exact h
      · split
        · exact h
        · exact within_advance h (h.channel.onAck _)
      split
      · exact h
      refine h.snoc (c := p.channel.onSegment _) { h.channel with } ?_ p.outSeq
      rw [length_wrapUdp, length_encodeUdpAck]
      show 35 + 3 ≤ B + 4
      omega
    · exact h
  | expire slot =>
    refine ⟨⟨?_, h.channel.parked, h.channel.wire⟩, h.datagrams⟩
    cases ha : p.channel.arq with
    | none =>
      intro k
      simp [step, engine, ha, UdpReliableArq.make]
    | some arq =>
      have hslots := h.channel.slots
      simp only [step, engine, ha] at hslots ⊢
      exact hslots.expire slot
  | rto seq =>
    simp only [step, rto]
    cases ha : p.channel.arq with
    | none => exact h
    | some arq =>
      have hslots := h.channel.slots
      simp only [engine, ha] at hslots
      obtain ⟨hslots', hsent⟩ := hslots.waitCompletion seq
      refine ⟨⟨hslots', h.channel.parked, h.channel.wire⟩, fun d hd => ?_⟩
      rcases mem_append.mp hd with hd | hd
      · exact h.datagrams d hd
      · obtain ⟨seg, hseg, rfl⟩ := mem_map.mp hd
        exact Nat.add_le_add_right (hsent seg hseg) 4
  | close => exact ⟨{ h.channel with }, h.datagrams⟩

theorem within_run
    (events : List (UdpPortEvent cfg))
    (hsplit : ∀ frame, .send frame ∈ events → mode = .reliableDatagram →
      cfg.splits frame.length = true → UdpChannel.fullSize cfg ≤ B) :
    (run cfg mode events).Within B := by
  have hevents : ∀ e ∈ events, ∀ frame, e = .send frame → mode = .reliableDatagram →
      cfg.splits frame.length = true → UdpChannel.fullSize cfg ≤ B :=
    fun e he frame heq => hsplit frame (heq ▸ he)
  have hguarded : Guarded (step mode) _ ({} : UdpPort cfg) events := guarded_of_mem hevents _
  refine hguarded.invariant (Within B) (fun p e h hok => within_step hmin hsmall e hok h) ?_
  exact ⟨within_make, forall_mem_nil _⟩

end

theorem size_first_fragment (c : UdpChannel cfg) (hlarge : cfg.isLarge frame.length) :
    ∃ first rest, c.fragments frame = first :: rest ∧ first.size = cfg.maxPayload - 3 := by
  have hbudget := budget_eq hmin
  have hlong : frame.length + 3 + 1 > cfg.maxPayload := of_decide_eq_true hlarge
  have hbound := (fragmentCount_bounds frame.length cfg.budget_pos).2
  have hcount : 1 < count cfg frame.length := by
    by_contra hone
    have hmul : fragmentCount frame.length cfg.budget * cfg.budget ≤ 1 * cfg.budget :=
      Nat.mul_le_mul_right _ (Nat.le_of_not_lt hone)
    omega
  obtain ⟨n, hn⟩ : ∃ n, count cfg frame.length = n + 1 := ⟨count cfg frame.length - 1, by omega⟩
  refine ⟨c.fragmentAt frame 0, ((range n).map Nat.succ).map (c.fragmentAt frame), ?_, ?_⟩
  · rw [fragments_eq, hn, range_succ_eq_map, map_cons]
  · rw [size_fragmentAt, length_slice_of_lt cfg.budget_pos hcount, udpFragmentSubheader]
    omega

theorem full_fragment_transmitted (hopen : c.isOpen) (hroom : 0 < c.room)
    (hlarge : cfg.isLarge frame.length) (hmax : frame.length ≤ cfg.maxMessageBytes) :
    ∃ seg ∈ (c.send frame).wire.drop c.wire.length, seg.message.size = cfg.maxPayload - 3 := by
  obtain ⟨first, rest, hfragments, hsize⟩ := size_first_fragment hmin c hlarge
  obtain ⟨r, hr⟩ : ∃ r, c.readyToSplit.room = r + 1 := ⟨c.room - 1, (Nat.sub_add_cancel hroom).symm⟩
  have hwindow := (submitAll_spec (c.fragments frame)
    (fun m hm => size_pos_of_mem_fragments hm) (c.readyToSplit, .admitted)).1
  rw [← UdpChannel.sendReliable_large hopen hlarge hmax, hr, hfragments] at hwindow
  have hnew : ((c.send frame).wire.drop c.wire.length).map Segment.message = first :: rest.take r := by
    rw [map_drop]
    refine (congrArg _ hwindow).trans ?_
    exact drop_left' (length_map _)
  have hmem : first ∈ ((c.send frame).wire.drop c.wire.length).map Segment.message := by
    rw [hnew]
    exact mem_cons_self
  obtain ⟨seg, hseg, rfl⟩ := mem_map.mp hmem
  exact ⟨seg, hseg, hsize⟩

end

/-- **The datagrams of a channel.** They exceed the budget by at most one byte, and not at all on a
best-effort channel or as long as no frame is split. A reliable send that is split while the window
has room exceeds it. -/
theorem datagrams_within (cfg : UdpChannelConfig) (hmin : 141 ≤ cfg.maxPayload) (mode : UdpChannelMode)
    (events : List (UdpPortEvent cfg)) :
    let p := run cfg mode events
    (∀ d ∈ p.datagrams, d.length ≤ cfg.maxPayload + 1) ∧
    ((mode = .bestEffort ∨ ∀ frame, .send frame ∈ events → cfg.splits frame.length = false) →
      ∀ d ∈ p.datagrams, d.length ≤ cfg.maxPayload) ∧
    ∀ frame, mode = .reliableDatagram → p.channel.isOpen = true → 0 < p.channel.room →
      cfg.splits frame.length = true →
        ∃ d ∈ (p.send mode frame).datagrams, d.length = cfg.maxPayload + 1 := by
  have hfull : UdpChannel.fullSize cfg = cfg.maxPayload - 3 := by
    rw [UdpChannel.fullSize, budget_eq hmin, udpFragmentSubheader]
    omega
  refine ⟨fun d hd => ?_, fun hfits d hd => ?_, fun frame hmode hopen hroom hsplit => ?_⟩
  · have h : (run cfg mode events).Within (cfg.maxPayload - 3) :=
      within_run hmin (by omega) events fun _ _ _ _ => hfull.le
    have := h.datagrams d hd
    omega
  · have h : (run cfg mode events).Within (cfg.maxPayload - 4) := by
      refine within_run hmin (by omega) events fun frame hframe hmode hsplit => ?_
      rcases hfits with hbest | hnone
      · rw [hbest] at hmode
        exact absurd hmode (by decide)
      · rw [hnone frame hframe] at hsplit
        exact absurd hsplit (by decide)
    have := h.datagrams d hd
    omega
  · rw [UdpChannelConfig.splits, Bool.and_eq_true, decide_eq_true_eq] at hsplit
    subst hmode
    obtain ⟨seg, hseg, hsize⟩ := full_fragment_transmitted hmin hopen hroom hsplit.1 hsplit.2
    refine ⟨transmitted seg, List.mem_append_right _ (List.mem_map_of_mem hseg), ?_⟩
    rw [length_transmitted]
    omega

/-- A best-effort frame a byte over the budget goes out as two fragments, the larger of which uses
the budget up. -/
theorem datagrams_within_bestEffort :
    let cfg : UdpChannelConfig := { maxPayload := 141, backpressureBytes := 1000, maxMessageBytes := 1000 }
    let p := run cfg .bestEffort [.send (List.replicate 139 0)]
    p.datagrams.map List.length = [141, 24] ∧ ∀ d ∈ p.datagrams, d.length ≤ 141 :=
  ⟨by decide +kernel,
    (datagrams_within _ (by decide) .bestEffort [.send (List.replicate 139 0)]).2.1 (.inl rfl)⟩

/-- The smallest reliable frame that is split: its first fragment leaves in 142 bytes, and again
when its timer fires. -/
theorem reliable_fragment_exceeds :
    let cfg : UdpChannelConfig := { maxPayload := 141, backpressureBytes := 1000, maxMessageBytes := 1000 }
    (run cfg .reliableDatagram [.send (List.replicate 138 0)]).datagrams.map List.length = [142, 24] ∧
    (run cfg .reliableDatagram [.send (List.replicate 138 0), .expire 0, .rto 0]).datagrams.map
      List.length = [142, 24, 142] := by
  decide +kernel

end UdpPort

end Plexus.Datagram
