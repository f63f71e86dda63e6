/-
# Plexus.Datagram.PublishOrder — reliable sends keep their order under back-pressure.

A unit is what gets a sequence number: a small message, or one fragment of a large one. It goes past
the queue when the window has room and through it otherwise; whenever something is parked the window
is full (`Settled`). A send then only appends to `windowed ++ parked`, and an ack only moves the
front of the queue to the end of the window (`Places`, `drainBackpressure_spec`).

`Publisher` is a channel with a record of what each call to `send` had placed when it returned.
-/
import Plexus.Datagram.ReliableSend
import Plexus.Datagram.ArqWindow
import Plexus.Lib.Run

namespace Plexus.Datagram

open Lib List

namespace UdpChannel

variable {cfg : UdpChannelConfig} {c c' c'' : UdpChannel cfg} {m : Message} {ms ms' : List Message}

/-- Whatever is parked waits for a full window. -/
def Settled (c : UdpChannel cfg) : Prop := c.parked ≠ [] → c.room = 0

/-- The units in the window have consecutive numbers, and the next one gets the next. -/
structure Numbered (c : UdpChannel cfg) : Prop where
  seqs : c.wire.map Segment.seq = (range c.wire.length).map (seqAt cfg.initialSeq.toNat)
  next_eq : c.engine.next = seqAt cfg.initialSeq.toNat c.wire.length

/-- `c'` has placed `ms` since `c`: some in the window, if nothing was parked, and the rest behind what
is parked. -/
structure Places (c c' : UdpChannel cfg) (ms : List Message) : Prop where
  split : ∃ taken queued, ms = taken ++ queued ∧ c'.windowed = c.windowed ++ taken ∧
    c'.parked = c.parked ++ queued ∧ (taken ≠ [] → c.parked = [])
  settled : c'.Settled
  numbered : c'.Numbered

theorem Settled.of_fields (hs : c.Settled) (hparked : c'.parked = c.parked)
    (hbase : c'.engine.base = c.engine.base) (hnext : c'.engine.next = c.engine.next) : c'.Settled := by
  rw [Settled, hparked, room, UdpReliableArq.inFlight, hbase, hnext]
  exact hs

theorem Numbered.of_fields (hn : c.Numbered) (hwire : c'.wire = c.wire)
    (hnext : c'.engine.next = c.engine.next) : c'.Numbered :=
  ⟨by rw [hwire]; exact hn.seqs, by rw [hnext, hwire]; exact hn.next_eq⟩

theorem Numbered.accept (hn : c.Numbered) (m : Message) {queue : UdpBackpressureQueue cfg.byteCap} :
    Numbered { c with
      arq := some (c.engine.accept m)
      backpressure := queue
      wire := c.wire ++ [⟨c.engine.next, m⟩] } := by
  constructor
  · show (c.wire ++ [_]).map Segment.seq = _
    rw [map_append, hn.seqs, length_append, length_singleton, range_succ,
      map_append, map_singleton, hn.next_eq]
    rfl
  · show c.engine.next + 1 = seqAt _ (c.wire ++ [_]).length
    rw [hn.next_eq, seqAt_succ, length_append]
    rfl

theorem Places.refl (hs : c.Settled) (hn : c.Numbered) : c.Places c [] :=
  ⟨⟨[], [], rfl, (append_nil _).symm, (append_nil _).symm, fun h => absurd rfl h⟩, hs, hn⟩

theorem Places.trans (h : c.Places c' ms) (h' : c'.Places c'' ms') : c.Places c'' (ms ++ ms') := by
  obtain ⟨taken, queued, rfl, hwindow, hparked, hfirst⟩ := h.split
  obtain ⟨taken', queued', rfl, hwindow', hparked', hfirst'⟩ := h'.split
  refine ⟨⟨taken ++ taken', queued ++ queued', ?_, ?_, ?_, ?_⟩, h'.settled, h'.numbered⟩
  · -- if the second call reached the window, the first one parked nothing
    rcases eq_or_ne taken' [] with rfl | hne
    · simp
    · have hnone := hfirst' hne
      rw [hparked, append_eq_nil_iff] at hnone
      simp [hnone.2]
  · rw [hwindow', hwindow, append_assoc]
  · rw [hparked', hparked, append_assoc]
  · intro hne
    rcases eq_or_ne taken [] with rfl | htaken
    · have hnone := hfirst' (by simpa using hne)
      rw [hparked, append_eq_nil_iff] at hnone
      exact hnone.1
    · exact hfirst htaken

theorem Places.units (h : c.Places c' ms) :
    c'.windowed ++ c'.parked = c.windowed ++ c.parked ++ ms := by
  obtain ⟨taken, queued, rfl, hwindow, hparked, hfirst⟩ := h.split
  rw [hwindow, hparked]
  rcases eq_or_ne taken [] with rfl | hne
  · simp
  · simp [hfirst hne]

theorem Places.placedSince (h : c.Places c' ms) : c.placedSince c' = ms := by
  obtain ⟨taken, queued, rfl, hwindow, hparked, -⟩ := h.split
  rw [UdpChannel.placedSince, hwindow, hparked, drop_left, drop_left]

/-! ## A send -/

theorem Places.of_eq {d : UdpChannel cfg} (h : d.Places c' ms) (hwindow : d.windowed = c.windowed)
    (hparked : d.parked = c.parked) : c.Places c' ms := by
  refine ⟨?_, h.settled, h.numbered⟩
  rw [← hwindow, ← hparked]
  exact h.split

/-- **One unit** is placed behind the others or not at all. -/
theorem places_submit (hs : c.Settled) (hn : c.Numbered) (m : Message) :
    ∃ ms, ms.Sublist [m] ∧ c.Places (c.submit m).1 ms := by
  rcases Nat.eq_zero_or_pos c.room with hfull | hroom
  · rw [submit_of_full hfull, onWindowFull]
    have hn' : ∀ d : UdpChannel cfg, d.wire = c.wire → d.engine.next = c.engine.next → d.Numbered :=
      fun d hwire hnext => hn.of_fields hwire hnext
    split
    · exact ⟨[], nil_sublist _, .of_eq (.refl (fun _ => hfull) (hn' _ rfl rfl)) rfl rfl⟩
    cases hq : c.backpressure.admitFrame m with
    | none =>
      exact ⟨[], nil_sublist _, .of_eq (.refl (fun _ => hfull) (hn' _ rfl rfl)) rfl rfl⟩
    | some q =>
      have hentries := (UdpBackpressureQueue.entries_admitFrame hq).1
      exact ⟨[m], .refl _, ⟨[], [m], rfl, (append_nil _).symm, hentries, fun h => absurd rfl h⟩,
        fun _ => hfull, hn' _ rfl rfl⟩
  -- the window has room, so nothing is parked
  have hnone : c.parked = [] := by
    by_contra hne
    have := hs hne
    omega
  have hroom' : ¬ cfg.arq.effectiveWindow ≤ c.engine.inFlight := by
    unfold room at hroom
    omega
  obtain ⟨-, hwindow, hqueue, -⟩ := submit_of_room hroom
  have hparked : (c.submit m).1.parked = [] := (congrArg (·.entries) hqueue).trans hnone
  refine ⟨[m], .refl _, ⟨[m], [], rfl, hwindow, ?_, fun _ => hnone⟩,
    fun hne => absurd hparked hne, ?_⟩
  · rw [hparked, hnone]
    rfl
  · rw [submit, UdpReliableArq.submit_of_room hroom']
    exact hn.accept m

theorem places_submitAll (ms : List Message) (r : UdpChannel cfg × SubmitResult) (hs : r.1.Settled)
    (hn : r.1.Numbered) : ∃ placed, placed.Sublist ms ∧ r.1.Places (submitAll r ms).1 placed := by
  induction ms generalizing r with
  | nil => exact ⟨[], .refl _, .refl hs hn⟩
  | cons m ms ih =>
    obtain ⟨first, hfirst, hplaces⟩ := places_submit hs hn m
    obtain ⟨rest, hrest, hplaces'⟩ := ih (r.1.submit m) hplaces.settled hplaces.numbered
    refine ⟨first ++ rest, ?_, hplaces.trans hplaces'⟩
    exact hfirst.append hrest

/-- **A send** places some of its message's units, in order and together, behind all earlier ones. -/
theorem places_send (hs : c.Settled) (hn : c.Numbered) (frame : Bytes) :
    ∃ placed, placed.Sublist (c.segmentsOf frame) ∧ c.Places (c.send frame) placed := by
  rw [send]
  by_cases hopen : c.isOpen = true
  · by_cases hlarge : cfg.isLarge frame.length = true
    · rw [segmentsOf, if_pos hlarge]
      by_cases hmax : frame.length ≤ cfg.maxMessageBytes
      · rw [sendReliable_large hopen hlarge hmax]
        obtain ⟨placed, hsub, hplaces⟩ :=
          places_submitAll (c.fragments frame) (c.readyToSplit, .admitted) hs ⟨hn.seqs, hn.next_eq⟩
        exact ⟨placed, hsub, hplaces.of_eq rfl rfl⟩
      refine ⟨[], nil_sublist _, ?_⟩
      rw [sendReliable, hopen, if_neg (by decide), if_pos hlarge, sendReliableLarge,
        if_pos (by omega)]
      exact .of_eq (.refl hs ⟨hn.seqs, hn.next_eq⟩) rfl rfl
    · rw [segmentsOf, if_neg hlarge, sendReliable, hopen, if_neg hlarge]
      exact places_submit hs hn ⟨frame, false⟩
  · refine ⟨[], nil_sublist _, ?_⟩
    rw [sendReliable, if_pos (by simpa using hopen)]
    exact .refl hs hn

/-! ## An ack -/

/-- Draining moves the front of the queue to the end of the window until one of them has no more. -/
theorem drainBackpressure_spec (fuel : Nat) (hfuel : c.parked.length ≤ fuel)
    (harq : c.arq.isSome) (hn : c.Numbered) :
    let c' := drainBackpressure fuel c
    c'.windowed ++ c'.parked = c.windowed ++ c.parked ∧ c'.Settled ∧ c'.Numbered := by
  induction fuel generalizing c with
  | zero =>
    have hnone : c.parked = [] := eq_nil_of_length_eq_zero (by omega)
    exact ⟨rfl, fun hne => absurd hnone hne, hn⟩
  | succ fuel ih =>
    cases hp : c.parked with
    | nil =>
      rw [drainBackpressure_of_full _ (.inl hp)]
      exact ⟨by rw [hp], fun hne => absurd hp hne, hn⟩
    | cons m rest =>
      rcases Nat.eq_zero_or_pos c.room with hfull | hroom
      · rw [drainBackpressure_of_full _ (.inr hfull)]
        exact ⟨by rw [hp], fun _ => hfull, hn⟩
      have hparked : (c.unpark m).parked = rest := by
        show c.parked.tail = rest
        rw [hp]
        rfl
      rw [hp, length_cons] at hfuel
      obtain ⟨hunits, hsettled, hnumbered⟩ :=
        ih (c := c.unpark m) (by rw [hparked]; omega) rfl (hn.accept m)
      rw [drainBackpressure_of_room fuel harq hp hroom]
      refine ⟨hunits.trans ?_, hsettled, hnumbered⟩
      rw [hparked]
      show (c.wire ++ [_]).map Segment.message ++ rest = c.windowed ++ m :: rest
      rw [map_append, append_assoc]
      rfl

theorem engine_ackHoles (c : UdpChannel cfg) (ack : Wire.UdpAck) (n : Nat) :
    ({ c with arq := c.arq.map (·.ackHoles ack n) } : UdpChannel cfg).engine.base = c.engine.base ∧
      ({ c with arq := c.arq.map (·.ackHoles ack n) } : UdpChannel cfg).engine.next = c.engine.next := by
  simp only [engine]
  cases c.arq with
  | none => exact ⟨rfl, rfl⟩
  | some arq => exact (fields_ackHoles arq ack n).2

theorem afterSlide_spec (hs : c.Settled) (hn : c.Numbered)
    {arq slid : UdpReliableArq cfg.arq.effectiveWindow} (hengine : c.engine = arq)
    (hnext : slid.next = arq.next) :
    (c.afterSlide arq slid).windowed ++ (c.afterSlide arq slid).parked = c.windowed ++ c.parked ∧
      (c.afterSlide arq slid).Settled ∧ (c.afterSlide arq slid).Numbered := by
  have hslid : Numbered { c with arq := some slid } :=
    hn.of_fields rfl (hnext.trans (by rw [hengine]))
  unfold afterSlide
  split
  · exact drainBackpressure_spec _ le_rfl rfl hslid
  rename_i hsame
  refine ⟨rfl, hs.of_fields rfl ?_ ?_, hslid⟩
  · rw [hengine]
    exact not_not.mp hsame
  · rw [hengine]
    exact hnext

/-- **An ack** moves units from the queue to the window and changes neither their order nor their
numbers. -/
theorem onAck_spec (hs : c.Settled) (hn : c.Numbered) (ack : Wire.UdpAck) :
    (c.onAck ack).windowed ++ (c.onAck ack).parked = c.windowed ++ c.parked ∧
      (c.onAck ack).Settled ∧ (c.onAck ack).Numbered := by
  cases ha : c.arq with
  | none =>
    have hsame : c.onAck ack = c := by rw [onAck, ha]
    rw [hsame]
    exact ⟨rfl, hs, hn⟩
  | some arq =>
    have hengine : c.engine = arq := by rw [engine, ha]; rfl
    have hnext := (fields_slideLoop (ack.cumulative + 1 - arq.base).toNat (ack.cumulative + 1) arq).2
    obtain ⟨d, hd, hack⟩ := onAck_of_arq ha ack
    obtain ⟨hunits, hsettled, hnumbered⟩ := afterSlide_spec hs hn hengine hnext
    rw [← hd] at hunits hsettled hnumbered
    obtain ⟨hbase, hnext'⟩ := d.engine_ackHoles ack Wire.UdpAck.bitmapBits
    rw [hack]
    exact ⟨hunits, hsettled.of_fields rfl hbase hnext', hnumbered.of_fields rfl hnext'⟩

end UdpChannel

/-! ## Every run -/

/-- What a call to `send` was for, and what of it was placed. -/
structure SendRecord where
  units : List Message
  placed : List Message
  deriving DecidableEq

/-- A channel with a record of every send. -/
structure Publisher (cfg : UdpChannelConfig) where
  channel : UdpChannel cfg := {}
  sends : List SendRecord := []

/-- `expire` and `rto` are the ARQ's timers, `segment` its receiving half. -/
inductive PublisherEvent (cfg : UdpChannelConfig) where
  | send (frame : Bytes)
  | ack (ack : Wire.UdpAck)
  | segment (seg : Segment)
  | expire (slot : Fin cfg.arq.effectiveWindow)
  | rto (seq : UInt16)
  | close

namespace Publisher

variable {cfg : UdpChannelConfig}

def send (p : Publisher cfg) (frame : Bytes) : Publisher cfg :=
  let channel := p.channel.send frame
  { channel, sends := p.sends ++ [⟨p.channel.segmentsOf frame, p.channel.placedSince channel⟩] }

def onEngine (p : Publisher cfg)
    (f : UdpReliableArq cfg.arq.effectiveWindow → UdpReliableArq cfg.arq.effectiveWindow) :
    Publisher cfg :=
  { p with channel := { p.channel with arq := p.channel.arq.map f } }

def step (p : Publisher cfg) : PublisherEvent cfg → Publisher cfg
  | .send frame => p.send frame
  | .ack ack => { p with channel := p.channel.onAck ack }
  | .segment seg => { p with channel := p.channel.onSegment seg }
  | .expire slot => p.onEngine fun a => (a.expire slot).1
  | .rto seq => p.onEngine fun a => (a.waitCompletion seq).1
  | .close => { p with channel := p.channel.close }

def run (cfg : UdpChannelConfig) (events : List (PublisherEvent cfg)) : Publisher cfg :=
  events.foldl step {}

/-- Units stand in the order of the calls that placed them. -/
structure InOrder (p : Publisher cfg) : Prop where
  settled : p.channel.Settled
  numbered : p.channel.Numbered
  units : p.channel.windowed ++ p.channel.parked = p.sends.flatMap SendRecord.placed
  placed : ∀ s ∈ p.sends, s.placed.Sublist s.units

variable {p : Publisher cfg}

theorem inOrder_make : InOrder ({} : Publisher cfg) where
  settled := fun h => absurd rfl h
  numbered := ⟨rfl, by simp [UdpChannel.engine, UdpReliableArq.make, seqAt]⟩
  units := rfl
  placed := forall_mem_nil _

theorem InOrder.onEngine (h : p.InOrder)
    {f : UdpReliableArq cfg.arq.effectiveWindow → UdpReliableArq cfg.arq.effectiveWindow}
    (hf : ∀ a, (f a).base = a.base ∧ (f a).next = a.next) : (p.onEngine f).InOrder := by
  have hfields : (p.onEngine f).channel.engine.base = p.channel.engine.base ∧
      (p.onEngine f).channel.engine.next = p.channel.engine.next := by
    simp only [Publisher.onEngine, UdpChannel.engine]
    cases p.channel.arq with
    | none => exact ⟨rfl, rfl⟩
    | some arq => exact hf arq
  exact ⟨h.settled.of_fields rfl hfields.1 hfields.2, h.numbered.of_fields rfl hfields.2, h.units,
    h.placed⟩

theorem fields_waitCompletion {W : Nat} [NeZero W] (a : UdpReliableArq W) (seq : UInt16) :
    (a.waitCompletion seq).1.base = a.base ∧ (a.waitCompletion seq).1.next = a.next := by
  unfold UdpReliableArq.waitCompletion UdpReliableArq.onRto
  simp only
  split_ifs <;> exact ⟨rfl, rfl⟩

/-- **The step lemma.** -/
theorem InOrder.step (h : p.InOrder) (e : PublisherEvent cfg) : (p.step e).InOrder := by
  cases e with
  | send frame =>
    obtain ⟨placed, hsub, hplaces⟩ := UdpChannel.places_send h.settled h.numbered frame
    have hsince := hplaces.placedSince
    refine ⟨hplaces.settled, hplaces.numbered, ?_, ?_⟩
    · show _ = (p.sends ++ [_]).flatMap SendRecord.placed
      rw [flatMap_append, ← h.units, flatMap_singleton, hsince]
      exact hplaces.units
    · refine forall_mem_append.mpr ⟨h.placed, forall_mem_singleton.mpr ?_⟩
      rw [hsince]
      exact hsub
  | ack ack =>
    obtain ⟨hunits, hsettled, hnumbered⟩ := UdpChannel.onAck_spec h.settled h.numbered ack
    exact ⟨hsettled, hnumbered, hunits.trans h.units, h.placed⟩
  | segment seg | close =>
    exact ⟨h.settled.of_fields rfl rfl rfl, h.numbered.of_fields rfl rfl, h.units, h.placed⟩
  | expire slot => exact h.onEngine fun a => ⟨rfl, rfl⟩
  | rto seq => exact h.onEngine fun a => fields_waitCompletion a seq

theorem inOrder_run (events : List (PublisherEvent cfg)) : (run cfg events).InOrder :=
  run_invariant InOrder (fun _ e h => h.step e) inOrder_make events

/-- **Publish order survives back-pressure.** While something is parked the window is full; and what
has been placed, in the window and then in the queue, is what the calls placed one after the other,
each a part of its own message in order. The `i`-th of it has, or will get, the number
`initial_seq + i`. -/
theorem publish_order (cfg : UdpChannelConfig) (events : List (PublisherEvent cfg)) :
    let p := run cfg events
    (p.channel.parked ≠ [] → p.channel.engine.windowHasRoom = false) ∧
    p.channel.windowed ++ p.channel.parked = p.sends.flatMap SendRecord.placed ∧
    (∀ s ∈ p.sends, s.placed.Sublist s.units) ∧
    p.channel.wire.map Segment.seq =
      (List.range p.channel.wire.length).map (seqAt cfg.initialSeq.toNat) := by
  have h : (run cfg events).InOrder := inOrder_run events
  refine ⟨fun hne => ?_, h.units, h.placed, h.numbered.seqs⟩
  have hfull := h.settled hne
  rw [UdpChannel.room] at hfull
  rw [UdpReliableArq.windowHasRoom, decide_eq_false_iff_not]
  omega

/-- A window of one: the second message is parked until the first is acknowledged. -/
theorem publish_order_parked :
    let p := run { maxPayload := 141, arq := { window := 1 }, backpressureBytes := 8, maxMessageBytes := 8 }
      [.send [1], .send [2]]
    p.channel.parked = [⟨[2], false⟩] ∧ p.channel.engine.windowHasRoom = false :=
  ⟨by decide +kernel, (publish_order _ _).1 (by decide +kernel)⟩

end Publisher

end Plexus.Datagram
