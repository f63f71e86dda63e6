/-
# Plexus.Datagram.AckAgreement — what an ack frees is what the receiver has.

In a reachable state of `ArqLink` the receiver's current ack is handed to the sender: its base must
come to the receiver's expected number, exactly the reported segments must be freed, and the numbers
in flight must have slots of their own.

That depends on the window alone (`agrees_iff`). If it does not divide the sequence space, two
numbers on either side of the wrap share a slot. If it is `32768`, a receiver that has everything is
half the sequence space ahead, and `slide_to` takes its ack for an old one. `Freed` is added to the
positions of `ArqLink`: a free place of the window has been received.
-/
import Plexus.Datagram.ArqLink

namespace Plexus.Datagram

open Lib Wire UdpReliableArq UdpReorderBuffer List

variable {W : Nat} [NeZero W]

/-! ## What agreement means -/

/-- `x` is one of the numbers `base, …, next - 1`. -/
def UdpReliableArq.flying (a : UdpReliableArq W) (x : UInt16) : Bool := (x - a.base).toNat < a.inFlight

/-- In flight and still to be acknowledged. -/
def UdpReliableArq.unacked (a : UdpReliableArq W) (x : UInt16) : Bool :=
  a.flying x && (a.slots (slotOf W x)).outstanding

/-- The buffer has handed `x` out or holds it. -/
def UdpReorderBuffer.received (b : UdpReorderBuffer W) (x : UInt16) : Bool :=
  halfSpace ≤ (x - b.expected).toNat || b.bufferedAt (x - b.expected).toNat

/-- Its ack says so: by the cumulative edge or in the bitmap. -/
def UdpReorderBuffer.reported (b : UdpReorderBuffer W) (x : UInt16) : Bool :=
  halfSpace ≤ (x - b.expected).toNat ||
    ((x - b.expected).toNat ≠ 0 && (x - b.expected).toNat ≤ UdpAck.bitmapBits &&
      b.bufferedAt (x - b.expected).toNat)

/-- The sender `a'` after an ack, against the sender `a` before it and the receiver's buffer. -/
structure AgreesWith (a a' : UdpReliableArq W) (b : UdpReorderBuffer W) : Prop where
  base_eq : a'.base = b.expected
  inFlight_le : a'.inFlight ≤ W
  apart : ∀ x y, a'.flying x = true → a'.flying y = true → slotOf W x = slotOf W y → x = y
  freed_iff : ∀ x, a.unacked x = true → (a'.unacked x = false ↔ b.reported x = true)
  received : ∀ x, a'.flying x = true → a'.unacked x = false → b.received x = true

/-- The receiver's current ack, whatever the `on_window_advance` callback submits. -/
def ArqLink.Agrees (s : ArqLink W) : Prop :=
  ∀ refill, AgreesWith s.sender (s.sender.onAck s.receiver.sendAck refill).1 s.receiver.recv

/-! ## Positions of the window -/

variable {a : UdpReliableArq W} {ready : List UInt16} {init lo : Nat} {xs : List Message}
  {own : Fin W → Nat}

theorem Window.flying_iff (h : Window a ready init xs lo own) (hW : W ≤ 32768) (x : UInt16) :
    a.flying x = true ↔ ∃ p, lo ≤ p ∧ p < xs.length ∧ x = seqAt init p := by
  have hflight := h.inFlight_eq hW
  have hlen := h.le_lo
  rw [flying, decide_eq_true_eq, h.base_eq]
  constructor
  · intro hlt
    refine ⟨lo + (x - seqAt init lo).toNat, by omega, by omega, ?_⟩
    apply UInt16.toNat_inj.mp
    have hx := x.toNat_lt
    rw [UInt16.toNat_sub] at hlt ⊢
    rw [toNat_seqAt] at hlt ⊢
    rw [toNat_seqAt]
    omega
  · rintro ⟨p, hlo, hp, rfl⟩
    rw [seqAt_sub_of_le hlo (by omega)]
    omega

/-- The slot of a place of the window. -/
def slotAt (W : Nat) [NeZero W] (init p : Nat) : Fin W := slotOf W (seqAt init p)

/-- A place of the window whose slot is free has been received. -/
def Freed (a : UdpReliableArq W) (init n lo : Nat) (has : Nat → Prop) : Prop :=
  ∀ p, lo ≤ p → p < n → (a.slots (slotAt W init p)).outstanding = false → has p

variable {edge : Nat}

theorem Window.slideLoop_exact (hdvd : W ∣ 65536) (hW : W ≤ 32768) (hedge : edge ≤ xs.length) (fuel : Nat)
    (h : Window a ready init xs lo own) (hlo : lo ≤ edge) (hnear : edge < lo + halfSpace)
    (hfuel : edge - lo ≤ fuel) :
    Window (a.slideLoop fuel (seqAt init edge)) ready init xs edge own ∧
      ∀ p, edge ≤ p → p < xs.length →
        (a.slideLoop fuel (seqAt init edge)).slots (slotAt W init p) = a.slots (slotAt W init p) := by
  induction fuel generalizing a lo with
  | zero =>
    obtain rfl : lo = edge := by omega
    exact ⟨h, fun _ _ _ => rfl⟩
  | succ fuel ih =>
    have hlen := h.le_lo
    have hdist : (seqAt init edge - a.base).toNat = edge - lo := by
      rw [h.base_eq]
      exact seqAt_sub_of_le hlo (by rw [halfSpace] at hnear; omega)
    rw [UdpReliableArq.slideLoop]
    rcases Nat.eq_or_lt_of_le hlo with rfl | hlt
    · rw [if_neg (by simp [UdpReliableArq.canSlide, hdist])]
      exact ⟨h, fun _ _ _ => rfl⟩
    have hne : a.base ≠ a.next := by
      rw [h.base_eq, h.next_eq]
      intro heq
      have hzero : (seqAt init xs.length - seqAt init lo).toNat = xs.length - lo :=
        seqAt_sub_of_le h.lo_le (by omega)
      rw [heq, UInt16.sub_self, UInt16.toNat_zero] at hzero
      omega
    have hcan : a.canSlide (seqAt init edge) := by
      simp only [UdpReliableArq.canSlide, Bool.and_eq_true, decide_eq_true_eq, bne_iff_ne]
      exact ⟨⟨by omega, by omega⟩, hne⟩
    rw [if_pos hcan]
    obtain ⟨hw, hslots⟩ := ih (h.advanceBase (by omega)) (by omega) (by omega) (by omega)
    refine ⟨hw, fun p hp hpn => (hslots p hp hpn).trans ?_⟩
    -- the freed slot is that of `lo`, which no later place of the window has
    rcases slots_freeSegment a a.base (slotAt W init p) with heq | ⟨heq, -⟩
    · exact heq
    rw [h.base_eq] at heq
    have := eq_of_slotOf_eq init lo hdvd (by omega) (by omega) (by omega)
      (by have := Nat.pos_of_neZero W; omega) heq
    omega

theorem Window.slideLoop_behind (h : Window a ready init xs lo own) (hle : edge ≤ lo)
    (hfresh : lo ≤ edge + halfSpace) (fuel : Nat) : a.slideLoop fuel (seqAt init edge) = a := by
  cases fuel with
  | zero => rfl
  | succ fuel =>
    rw [UdpReliableArq.slideLoop, if_neg]
    simp only [UdpReliableArq.canSlide, h.base_eq, Bool.and_eq_true, decide_eq_true_eq]
    rw [halfSpace] at *
    rcases Nat.eq_or_lt_of_le hle with rfl | hlt
    · simp
    · rw [seqAt_sub_of_lt hlt (by omega)]
      omega

section

variable (hdvd : W ∣ 65536)
include hdvd

/-- **The holes of an ack** free the places they stand for, and no others. -/
theorem Window.ackHoles_exact (hW : W < 32768) (h : Window a ready init xs lo own) (ack : UdpAck) (hcum : ack.cumulative + 1 = seqAt init edge) (hback : lo ≤ edge + halfSpace)
    (hahead : edge ≤ lo + W) {p : Nat} (hlo : lo ≤ p) (hp : p < xs.length) {n : Nat}
    (hn : n ≤ UdpAck.bitmapBits) :
    ((a.ackHoles ack n).slots (slotAt W init p)).outstanding = true ↔
      (a.slots (slotAt W init p)).outstanding = true ∧
        ∀ i < n, ack.holeReceived i = true → p ≠ edge + 1 + i := by
  have hlen := h.le_lo
  rw [halfSpace] at hback
  induction n with
  | zero => simp [UdpReliableArq.ackHoles]
  | succ n ih =>
    have hbits : n < 256 := hn
    have hseq : ack.cumulative + 2 + UInt16.ofNat n = seqAt init (edge + 1 + n) := by
      rw [show (2 : UInt16) = 1 + 1 from rfl, ← UInt16.add_assoc, hcum, seqAt_succ, ArqLink.seqAt_add]
    have hfold : a.ackHoles ack (n + 1) = if ack.holeReceived n then
        (a.ackHoles ack n).ackHole (seqAt init (edge + 1 + n)) else a.ackHoles ack n := by
      rw [UdpReliableArq.ackHoles, range_succ, foldl_append, ← hseq]
      rfl
    have hbase : (a.ackHoles ack n).base = seqAt init lo := (fields_ackHoles a ack n).2.1.trans h.base_eq
    -- one more turn of the loop, as a condition on the place
    have hturn : ((a.ackHoles ack (n + 1)).slots (slotAt W init p)).outstanding = true ↔
        ((a.ackHoles ack n).slots (slotAt W init p)).outstanding = true ∧
          (ack.holeReceived n = true → p ≠ edge + 1 + n) := by
      rw [hfold]
      by_cases hhole : ack.holeReceived n = true
      · rw [if_pos hhole, ackHole, hbase]
        simp only [hhole, forall_const]
        by_cases hfar : halfSpace ≤ (seqAt init (edge + 1 + n) - seqAt init lo).toNat ∨
            W ≤ (seqAt init (edge + 1 + n) - seqAt init lo).toNat
        · rw [if_pos hfar, halfSpace] at *
          have hne : p ≠ edge + 1 + n := by
            rintro rfl
            rw [seqAt_sub_of_le hlo (by omega)] at hfar
            omega
          exact ⟨fun hout => ⟨hout, hne⟩, fun hout => hout.1⟩
        rw [if_neg hfar]
        have hin : lo ≤ edge + 1 + n ∧ edge + 1 + n < lo + W := by
          by_cases hbelow : edge + 1 + n < lo
          · rw [seqAt_sub_of_lt hbelow (by omega)] at hfar
            omega
          · rw [seqAt_sub_of_le (by omega) (by omega)] at hfar
            omega
        rcases slots_freeSegment (a.ackHoles ack n) (seqAt init (edge + 1 + n)) (slotAt W init p) with
          heq | ⟨hslot, heq⟩
        · by_cases hpe : p = edge + 1 + n
          · have hfree := outstanding_freeSegment (a.ackHoles ack n) (seqAt init (edge + 1 + n))
            rw [slotAt, hpe, hfree]
            simp
          · rw [heq]
            exact ⟨fun hout => ⟨hout, hpe⟩, fun hout => hout.1⟩
        · have hpe := eq_of_slotOf_eq init lo hdvd hlo (by omega) hin.1 hin.2 hslot
          rw [heq]
          simp [hpe]
      · simp [hhole]
    apply hturn.trans
    constructor
    · rintro ⟨hout, hlast⟩
      obtain ⟨hout, hall⟩ := (ih (Nat.le_of_succ_le hn)).mp hout
      refine ⟨hout, fun i hi hhole => ?_⟩
      rcases Nat.lt_succ_iff_lt_or_eq.mp hi with hi | rfl
      · exact hall i hi hhole
      · exact hlast hhole
    · rintro ⟨hout, hall⟩
      exact ⟨(ih (Nat.le_of_succ_le hn)).mpr ⟨hout, fun i hi => hall i (by omega)⟩, hall n (by omega)⟩

theorem Window.slots_accept (hW : W ≤ 32768) (h : Window a ready init xs lo own)
    (hroom : ¬ W ≤ a.inFlight) (m : Message) :
    (∀ p, lo ≤ p → p < xs.length → (a.accept m).slots (slotAt W init p) = a.slots (slotAt W init p)) ∧
      ((a.accept m).slots (slotAt W init xs.length)).outstanding := by
  have hflight := h.inFlight_eq hW
  have hlo := h.lo_le
  constructor
  · intro p hp hpn
    refine a.slots_accept_of_ne m fun heq => ?_
    rw [h.next_eq] at heq
    have := eq_of_slotOf_eq init lo hdvd hp (by omega) hlo (by omega) heq
    omega
  · rw [slotAt, ← h.next_eq, a.slots_accept_self]

theorem Window.slots_submitAll (hW : W ≤ 32768) (h : Window a ready init xs lo own)
    (ms : List Message) :
    (∀ p, lo ≤ p → p < xs.length →
      (a.submitAll ms).1.slots (slotAt W init p) = a.slots (slotAt W init p)) ∧
    ∀ p, xs.length ≤ p → p < xs.length + (a.submitAll ms).2.length →
      ((a.submitAll ms).1.slots (slotAt W init p)).outstanding := by
  induction ms generalizing a xs own with
  | nil => exact ⟨fun _ _ _ => rfl, fun p hp hpn => by simp [UdpReliableArq.submitAll] at hpn; omega⟩
  | cons m ms ih =>
    by_cases hfull : W ≤ a.inFlight
    · rw [submitAll_cons_of_full hfull]
      exact ih h
    obtain ⟨hbelow, hnew⟩ := h.slots_accept hdvd hW hfull m
    obtain ⟨hkeep, hfill⟩ := ih (h.accept hW hfull (.inl hdvd) m)
    have hlo := h.lo_le
    rw [length_append, length_singleton] at hkeep hfill
    rw [submitAll_cons_of_room hfull]
    refine ⟨fun p hp hpn => (hkeep p hp (by omega)).trans (hbelow p hp hpn), fun p hp hpn => ?_⟩
    rw [length_cons] at hpn
    rcases Nat.eq_or_lt_of_le hp with rfl | hlt
    · rw [hkeep _ hlo (by omega)]
      exact hnew
    · exact hfill p hlt (by omega)

/-- **What a fresh ack does**: the base comes to its edge unless it is past it, and of the places
above exactly those its holes stand for are freed. -/
theorem Window.onAck_exact (hW : W < 32768) (h : Window a ready init xs lo own) (ack : UdpAck) (hcum : ack.cumulative + 1 = seqAt init edge) (hedge : edge ≤ xs.length)
    (hfresh : xs.length ≤ edge + halfSpace) (refill : List Message) :
    (∃ own', Window (a.onAck ack refill).1 ready init
      (xs ++ (a.onAck ack refill).2.map (·.message)) (max lo edge) own') ∧
    ∀ p, max lo edge ≤ p → p < xs.length + (a.onAck ack refill).2.length →
      (((a.onAck ack refill).1.slots (slotAt W init p)).outstanding = true ↔
        (p < xs.length → (a.slots (slotAt W init p)).outstanding = true) ∧
          ∀ i < UdpAck.bitmapBits, ack.holeReceived i = true → p ≠ edge + 1 + i) := by
  have hle := h.lo_le
  have hlen := h.le_lo
  -- the base first
  obtain ⟨hslid, hslots⟩ : Window (a.slideLoop (seqAt init edge - a.base).toNat (seqAt init edge)) ready
      init xs (max lo edge) own ∧ ∀ p, max lo edge ≤ p → p < xs.length →
        (a.slideLoop (seqAt init edge - a.base).toNat (seqAt init edge)).slots (slotAt W init p) =
          a.slots (slotAt W init p) := by
    rcases le_total edge lo with hbehind | hahead
    · rw [h.slideLoop_behind hbehind (by omega), Nat.max_eq_left hbehind]
      exact ⟨h, fun _ _ _ => rfl⟩
    · rw [Nat.max_eq_right hahead]
      refine h.slideLoop_exact hdvd (by omega) hedge _ hahead (by rw [halfSpace]; omega) ?_
      rw [h.base_eq, seqAt_sub_of_le hahead (by omega)]
  simp only [onAck, slideTo, hcum]
  split
  · obtain ⟨own', hw, -⟩ := hslid.submitAll (by omega) refill fun _ _ => .inl hdvd
    obtain ⟨hkeep, hfill⟩ := hslid.slots_submitAll hdvd (by omega) refill
    refine ⟨⟨own', hw.ackHoles ack _⟩, fun p hp hpn => ?_⟩
    rw [hw.ackHoles_exact hdvd hW ack hcum (by omega) (by omega) hp
      (by rw [length_append, length_map]; exact hpn) le_rfl]
    by_cases hpx : p < xs.length
    · rw [hkeep p hp hpx, hslots p hp hpx]
      simp [hpx]
    · simp [hpx, hfill p (by omega) hpn]
  · refine ⟨⟨own, by simpa using hslid.ackHoles ack UdpAck.bitmapBits⟩, fun p hp hpn => ?_⟩
    replace hpn : p < xs.length := by simpa using hpn
    rw [hslid.ackHoles_exact hdvd hW ack hcum (by omega) (by omega) hp hpn le_rfl, hslots p hp hpn]
    simp [hpn]

end

theorem Window.lo_unique (hW : W ≤ 32768) {ready' : List UInt16} {lo' : Nat} {own' : Fin W → Nat}
    (h : Window a ready init xs lo own) (h' : Window a ready' init xs lo' own') : lo = lo' := by
  have hflight := h.inFlight_eq hW
  have hflight' := h'.inFlight_eq hW
  have hle := h.lo_le
  have hle' := h'.lo_le
  omega

theorem Freed.congr {a' : UdpReliableArq W} {n : Nat} {has : Nat → Prop} (h : Freed a init n lo has)
    (hout : ∀ k, (a'.slots k).outstanding = (a.slots k).outstanding) : Freed a' init n lo has := by
  intro p hlo hp hfree
  rw [hout] at hfree
  exact h p hlo hp hfree

omit [NeZero W] in
theorem outstanding_expire (a : UdpReliableArq W) (i k : Fin W) :
    ((a.expire i).1.slots k).outstanding = (a.slots k).outstanding := by
  show ArqSlot.outstanding (Function.update a.slots _ _ k) = _
  by_cases hk : k = i
  · rw [hk, Function.update_self]
  · rw [Function.update_of_ne hk]

theorem outstanding_waitCompletion (a : UdpReliableArq W) (seq : UInt16) (k : Fin W) :
    ((a.waitCompletion seq).1.slots k).outstanding = (a.slots k).outstanding := by
  unfold waitCompletion onRto
  simp only
  split_ifs with hdead hout hmax
  · rfl
  · rfl
  · rfl
  show ArqSlot.outstanding (Function.update a.slots _ _ k) = _
  by_cases hk : k = slotOf W seq
  · rw [hk, Function.update_self]
  · rw [Function.update_of_ne hk]

/-! ## The receiver's ack -/

theorem holeReceived_default (c : UInt16) (j : Nat) : ({ cumulative := c } : UdpAck).holeReceived j = false := by
  unfold UdpAck.holeReceived
  split
  · rename_i hj
    have hzero : (Vector.replicate 32 (0 : UInt8)).get ⟨j >>> 3, UdpAck.byte_lt hj⟩ = 0 :=
      Vector.getElem_replicate _
    rw [hzero]
    simp
  · rfl

/-- The bitmap names what the buffer holds ahead of the gap, as far as it reaches. -/
theorem holeReceived_sendAck (a : UdpReliableArq W) {j : Nat} (hj : j < UdpAck.bitmapBits) :
    a.sendAck.holeReceived j = true ↔ a.recv.bufferedAt (j + 1) = true := by
  have hfold : ∀ (is : List Nat) (ack : UdpAck), (∀ i ∈ is, i < UdpAck.bitmapBits) →
      ((is.foldl (fun ack i => if a.recv.bufferedAt (i + 1) then ack.markHole i else ack)
        ack).holeReceived j = true ↔
      ack.holeReceived j = true ∨ j ∈ is ∧ a.recv.bufferedAt (j + 1) = true) := by
    intro is
    induction is with
    | nil => simp
    | cons i is ih =>
      intro ack his
      obtain ⟨hi, his⟩ := forall_mem_cons.mp his
      rw [foldl_cons, ih _ his]
      by_cases hheld : a.recv.bufferedAt (i + 1) = true
      · rw [if_pos hheld, UdpAck.holeReceived_markHole ack hi hj]
        by_cases hij : i = j
        · subst hij
          simp [hheld]
        · simp [hij, Ne.symm hij]
      rw [if_neg hheld]
      by_cases hij : j = i
      · subst hij
        simp [hheld]
      · simp [hij]
  rw [sendAck, hfold _ _ fun i hi => mem_range.mp hi, holeReceived_default]
  simp [hj]

namespace ArqLink

/-- The receiver has handed out place `p`, or holds it. -/
def Has (s : ArqLink W) (p : Nat) : Prop :=
  p < s.delivered.length ∨ s.receiver.recv.bufferedAt (p - s.delivered.length) = true

/-- A link on which only received places have been freed, and on whose network every ack tells the
truth. -/
structure AckInv (s : ArqLink W) (init lo : Nat) (own : Fin W → Nat) : Prop where
  inv : s.Inv init lo own
  freed : Freed s.sender init s.admitted.length lo s.Has
  holes : ∀ d ∈ s.acks, ∀ i < UdpAck.bitmapBits, d.ack.holeReceived i = true → s.Has (d.edge + 1 + i)

variable {s : ArqLink W}

theorem ackInv_make (cfg : UdpArqConfig) (initialSeq : UInt16) :
    (make cfg initialSeq).AckInv initialSeq.toNat 0 fun _ => 0 where
  inv := inv_make cfg initialSeq
  freed := fun p _ hp => absurd hp (Nat.not_lt_zero p)
  holes := fun _ hd => by cases hd

theorem AckInv.submit (hdvd : W ∣ 65536) (hW : W ≤ 32768) (h : s.AckInv init lo own) (m : Message) :
    ∃ own', (s.submit m).AckInv init lo own' := by
  obtain ⟨own', hinv⟩ := h.inv.submit hW m (.inl hdvd)
  refine ⟨own', hinv, ?_, h.holes⟩
  by_cases hfull : W ≤ s.sender.inFlight
  · rw [submit_of_full hfull]
    exact h.freed
  obtain ⟨hbelow, hnew⟩ := h.inv.window.slots_accept hdvd hW hfull m
  rw [submit_of_room hfull]
  intro p hlo hp hfree
  rw [length_append] at hp
  rcases Nat.lt_succ_iff_lt_or_eq.mp hp with hp | rfl
  · rw [hbelow p hlo hp] at hfree
    exact h.freed p hlo hp hfree
  · rw [hnew] at hfree
    exact absurd hfree (by decide)

theorem AckInv.dispatch (hW : W ≤ 32768) (h : s.AckInv init lo own) (k : Nat) :
    (s.dispatch k).AckInv init lo own := by
  refine ⟨h.inv.dispatch hW k, ?_, ?_⟩
  all_goals unfold ArqLink.dispatch
  all_goals cases hk : s.ready[k]? with
    | none => first | exact h.freed | exact h.holes
    | some seq => first
      | exact h.freed.congr (outstanding_waitCompletion s.sender seq)
      | exact h.holes

/-- The link after a segment went through the receiver's buffer. -/
def received (s : ArqLink W) (seg : Segment) : ArqLink W :=
  let out := s.receiver.recv.feed seg.seq seg.message.fragmented seg.message.bytes
  let receiver := { s.receiver with recv := out.2.1 }
  { s with
    receiver
    delivered := s.delivered ++ out.2.2
    acks := s.acks ++ [⟨(s.delivered ++ out.2.2).length, receiver.sendAck⟩] }

theorem deliverSegment_eq (s : ArqLink W) (k : Nat) :
    s.deliverSegment k = s ∨ ∃ seg, s.deliverSegment k = s.received seg := by
  unfold ArqLink.deliverSegment
  cases s.segments[k]? with
  | none => exact .inl rfl
  | some d =>
    by_cases hfresh : s.fresh d.position = true
    · exact .inr ⟨d.segment, if_pos hfresh⟩
    · exact .inl (if_neg hfresh)

theorem acks_received (s : ArqLink W) (seg : Segment) : (s.received seg).acks =
    s.acks ++ [⟨(s.received seg).delivered.length, (s.received seg).receiver.sendAck⟩] := rfl

theorem has_received (seg : Segment) {p : Nat} (h : s.Has p) : (s.received seg).Has p := by
  show p < (s.delivered ++ _).length ∨ bufferedAt _ (p - (s.delivered ++ _).length) = true
  rw [length_append]
  rcases h with hout | hheld
  · exact .inl (Nat.lt_add_right _ hout)
  rcases bufferedAt_feed s.receiver.recv seg.seq seg.message.fragmented
    seg.message.bytes hheld with hout | hheld'
  · exact .inl (by omega)
  · rw [Nat.sub_sub] at hheld'
    exact .inr hheld'

theorem AckInv.deliverSegment (hW : W ≤ 32768) (h : s.AckInv init lo own) (k : Nat) :
    (s.deliverSegment k).AckInv init lo own := by
  have hinv := h.inv.deliverSegment hW k
  rcases deliverSegment_eq s k with heq | ⟨seg, heq⟩
  · rw [heq]
    exact h
  rw [heq] at hinv ⊢
  refine ⟨hinv, fun p hlo hp hfree => has_received seg (h.freed p hlo hp hfree), fun d hd i hi hhole => ?_⟩
  rw [acks_received, mem_append, mem_singleton] at hd
  rcases hd with hd | rfl
  · exact has_received seg (h.holes d hd i hi hhole)
  -- the ack that was just sent names what the buffer holds now
  refine .inr ?_
  dsimp only at hhole
  rw [holeReceived_sendAck _ hi] at hhole
  rwa [add_assoc, Nat.add_sub_cancel_left, add_comm 1 i]

section

variable (hdvd : W ∣ 65536) (hW : W < 32768)
include hdvd hW

theorem AckInv.deliverAck (h : s.AckInv init lo own) (k : Nat) (refill : List Message) :
    ∃ lo' own', (s.deliverAck k refill).AckInv init lo' own' := by
  obtain ⟨lo', own', hinv⟩ := h.inv.deliverAck (by omega) k refill (.inl hdvd)
  cases hk : s.acks[k]? with
  | none =>
    have hsame : s.deliverAck k refill = s := by
      unfold ArqLink.deliverAck
      rw [hk]
    rw [hsame]
    exact ⟨lo, own, h⟩
  | some d =>
    by_cases hfresh : s.fresh d.edge = true
    · set s' := s.deliverAck k refill with hs'
      have hsender : s'.sender = (s.sender.onAck d.ack refill).1 ∧
          s'.admitted = s.admitted ++ (s.sender.onAck d.ack refill).2.map Segment.message := by
        simp [hs', ArqLink.deliverAck, hk, hfresh, transmit]
      have hkeep : s'.receiver = s.receiver ∧ s'.delivered = s.delivered ∧ s'.acks = s.acks := by
        simp [hs', ArqLink.deliverAck, hk, hfresh, transmit]
      have hhas : s'.Has = s.Has := by
        funext p
        rw [Has, Has, hkeep.1, hkeep.2.1]
      obtain ⟨hedge, hcum⟩ := h.inv.acks d (mem_of_getElem? hk)
      have hle := h.inv.delivered_le
      replace hfresh : s.admitted.length ≤ d.edge + halfSpace := by simpa [fresh, halfSpace] using hfresh
      obtain ⟨⟨own'', hwindow⟩, hslots⟩ :=
        h.inv.window.onAck_exact hdvd hW d.ack hcum (by omega) hfresh refill
      have hlo : lo' = max lo d.edge := by
        have hw := hinv.window
        rw [hsender.1, hsender.2] at hw
        exact hw.lo_unique (by omega) hwindow
      refine ⟨lo', own', hinv, fun p hp hpn hfree => ?_, ?_⟩
      · rw [hhas]
        rw [hsender.1] at hfree
        rw [hsender.2, length_append, length_map] at hpn
        have hiff := hslots p (by omega) hpn
        rw [hfree] at hiff
        by_contra hnot
        refine absurd (hiff.mpr ⟨fun hold => ?_, fun i hi hhole hpe => hnot ?_⟩) (by decide)
        · by_contra hout
          exact hnot (h.freed p (by omega) hold (Bool.eq_false_iff.mpr hout))
        · rw [hpe]
          exact h.holes d (mem_of_getElem? hk) i hi hhole
      · rw [hhas, hkeep.2.2]
        exact h.holes
    · have hsame : s.deliverAck k refill = s := by
        unfold ArqLink.deliverAck
        rw [hk]
        exact if_neg hfresh
      rw [hsame]
      exact ⟨lo, own, h⟩

theorem ackInv_step (s : ArqLink W) (e : ArqEvent W) (h : ∃ lo own, s.AckInv init lo own) :
    ∃ lo own, (s.step e).AckInv init lo own := by
  obtain ⟨lo, own, h⟩ := h
  cases e with
  | submit m =>
    obtain ⟨own', h'⟩ := h.submit hdvd (by omega) m
    exact ⟨lo, own', h'⟩
  | expire slot =>
    exact ⟨lo, own, h.inv.expire slot, h.freed.congr (outstanding_expire s.sender slot), h.holes⟩
  | dispatch k => exact ⟨lo, own, h.dispatch (by omega) k⟩
  | deliverSegment k => exact ⟨lo, own, h.deliverSegment (by omega) k⟩
  | deliverAck k refill => exact h.deliverAck hdvd hW k refill
  | cancel => exact ⟨lo, own, h.inv.cancel, h.freed.congr fun _ => rfl, h.holes⟩

/-! ## Agreement -/

/-- **An ack of the receiver's present state agrees with it.** -/
theorem AckInv.agrees (h : s.AckInv init lo own) : s.Agrees := by
  intro refill
  have hle := h.inv.delivered_le
  have hlo := h.inv.lo_le
  have hlen := h.inv.window.le_lo
  have hexp : s.receiver.recv.expected = seqAt init s.delivered.length := h.inv.tracks.expected_eq
  have hcum : s.receiver.sendAck.cumulative + 1 = seqAt init s.delivered.length := by
    rw [cumulative_sendAck, cumulative, hexp]
    simp
  obtain ⟨⟨own', hwindow⟩, hslots⟩ :=
    h.inv.window.onAck_exact hdvd hW _ hcum hle (by rw [halfSpace]; omega) refill
  rw [Nat.max_eq_right hlo] at hwindow hslots
  have hlen' := hwindow.le_lo
  rw [length_append, length_map] at hlen'
  -- where the receiver sees a place
  have hbehind : ∀ p, lo ≤ p → p < s.delivered.length →
      halfSpace ≤ (seqAt init p - s.receiver.recv.expected).toNat := by
    intro p hp hpd
    rw [hexp, seqAt_sub_of_lt hpd (by omega), halfSpace]
    omega
  have hahead : ∀ p, s.delivered.length ≤ p → p < s.delivered.length + W →
      (seqAt init p - s.receiver.recv.expected).toNat = p - s.delivered.length := by
    intro p hp hpd
    rw [hexp, seqAt_sub_of_le hp (by omega)]
  have hnamed : ∀ p, s.delivered.length ≤ p →
      ((∀ i < UdpAck.bitmapBits, s.receiver.sendAck.holeReceived i = true →
          p ≠ s.delivered.length + 1 + i) ↔
        ¬ ((p - s.delivered.length ≠ 0 ∧ p - s.delivered.length ≤ UdpAck.bitmapBits) ∧
          s.receiver.recv.bufferedAt (p - s.delivered.length) = true)) := by
    intro p hp
    constructor
    · rintro hall ⟨⟨hne, hreach⟩, hheld⟩
      obtain ⟨i, hi⟩ : ∃ i, p - s.delivered.length = i + 1 := ⟨p - s.delivered.length - 1, by omega⟩
      rw [hi] at hheld
      exact hall i (by omega) ((holeReceived_sendAck _ (by omega)).mpr hheld) (by omega)
    rintro hnot i hi hhole rfl
    rw [holeReceived_sendAck _ hi] at hhole
    have hoff : s.delivered.length + 1 + i - s.delivered.length = i + 1 := by omega
    rw [hoff] at hnot
    exact hnot ⟨⟨by omega, by omega⟩, hhole⟩
  refine ⟨hwindow.base_eq.trans hexp.symm, ?_, ?_, ?_, ?_⟩
  · rw [hwindow.inFlight_eq (by omega), length_append, length_map]
    omega
  · intro x y hx hy hslot
    obtain ⟨p, hp, hpn, rfl⟩ := (hwindow.flying_iff (by omega) x).mp hx
    obtain ⟨q, hq, hqn, rfl⟩ := (hwindow.flying_iff (by omega) y).mp hy
    rw [length_append, length_map] at hpn hqn
    rw [eq_of_slotOf_eq init s.delivered.length hdvd hp (by omega) hq (by omega) hslot]
  · intro x hx
    rw [unacked, Bool.and_eq_true] at hx
    obtain ⟨p, hp, hpn, rfl⟩ := (h.inv.window.flying_iff (by omega) x).mp hx.1
    by_cases hpd : p < s.delivered.length
    · -- handed out: below the new base
      have hgone : (s.sender.onAck s.receiver.sendAck refill).1.flying (seqAt init p) = false := by
        rw [flying, hwindow.base_eq, seqAt_sub_of_lt hpd (by omega),
          hwindow.inFlight_eq (by omega), length_append, length_map, decide_eq_false_iff_not]
        omega
      simp [unacked, hgone, reported, hbehind p hp hpd]
    have hflies : (s.sender.onAck s.receiver.sendAck refill).1.flying (seqAt init p) := by
      refine (hwindow.flying_iff (by omega) _).mpr ⟨p, by omega, ?_, rfl⟩
      rw [length_append]
      omega
    have hnear : ¬ halfSpace ≤ p - s.delivered.length := by
      rw [halfSpace]
      omega
    have hiff := hslots p (by omega) (by omega)
    rw [hnamed p (by omega), slotAt, and_iff_right (fun _ => hx.2)] at hiff
    rw [unacked, hflies, Bool.true_and, reported,
      hahead p (by omega) (by omega), ← Bool.not_eq_true, hiff, not_not]
    simp [hnear]
  · intro x hx hfree
    obtain ⟨p, hp, hpn, rfl⟩ := (hwindow.flying_iff (by omega) x).mp hx
    rw [length_append, length_map] at hpn
    rw [unacked, hx, Bool.true_and] at hfree
    rw [UdpReorderBuffer.received, hahead p hp (by omega), Bool.or_eq_true]
    right
    have hiff := hslots p hp hpn
    rw [hnamed p hp, slotAt, hfree] at hiff
    by_contra hheld
    refine absurd (hiff.mpr ⟨fun hold => ?_, fun hreach => hheld hreach.2⟩) (by decide)
    by_contra hout
    rcases h.freed p (by omega) hold (Bool.eq_false_iff.mpr hout) with hpd | hpd
    · omega
    · exact hheld hpd

/-! ## Windows that do not agree

Fill the window. If it does not divide the sequence space and starts at the right distance from the
wrap, its first and last number share a slot. If it is half the sequence space, let everything
arrive: the ack is then too far ahead for the base to move. -/

end

/-- The state after `j` submits of `m` on a fresh link. -/
structure Flooded (cfg : UdpArqConfig) (init : Nat) (m : Message) (j : Nat)
    (s : ArqLink cfg.effectiveWindow) : Prop where
  next_eq : s.sender.next = seqAt init j
  base_eq : s.sender.base = seqAt init 0
  admitted_eq : s.admitted.length = j
  segments_eq : s.segments = (range j).map fun i => ⟨i, ⟨seqAt init i, m⟩⟩
  receiver_eq : s.receiver = .make cfg (seqAt init 0)

variable {cfg : UdpArqConfig} {m : Message} {j : Nat}

theorem Flooded.submit {s : ArqLink cfg.effectiveWindow} (h : Flooded cfg init m j s)
    (hroom : j < cfg.effectiveWindow) : Flooded cfg init m (j + 1) (s.submit m) := by
  have hle := cfg.effectiveWindow_le
  have hflight : ¬ cfg.effectiveWindow ≤ s.sender.inFlight := by
    rw [inFlight, h.next_eq, h.base_eq, seqAt_sub_of_le (by omega) (by omega)]
    omega
  have hposition : unwrap (seqAt init (j + 1)) (j + 1) (seqAt init j) = j :=
    unwrap_seqAt (by omega) (by omega)
  rw [submit_of_room hflight]
  refine ⟨?_, h.base_eq, ?_, ?_, h.receiver_eq⟩
  · rw [← seqAt_succ, ← h.next_eq]
    rfl
  · simpa using h.admitted_eq
  · simp [h.next_eq, h.admitted_eq, h.segments_eq, range_succ, seqAt_succ, hposition]

theorem flooded (cfg : UdpArqConfig) (init : Nat) (m : Message) (j : Nat)
    (hj : j ≤ cfg.effectiveWindow) :
    Flooded cfg init m j ((replicate j (.submit m)).foldl step (make cfg (seqAt init 0))) := by
  induction j with
  | zero => exact ⟨rfl, rfl, rfl, rfl, rfl⟩
  | succ j ih =>
    rw [replicate_succ', foldl_append]
    exact (ih (by omega)).submit (by omega)

theorem fields_onAck_of_not_canSlide {a : UdpReliableArq W} {ack : UdpAck}
    (h : a.canSlide (ack.cumulative + 1) = false) (refill : List Message) :
    (a.onAck ack refill).1.base = a.base ∧ (a.onAck ack refill).1.next = a.next := by
  have hstay : ∀ fuel, a.slideLoop fuel (ack.cumulative + 1) = a := by
    intro fuel
    cases fuel with
    | zero => rfl
    | succ fuel => rw [UdpReliableArq.slideLoop, if_neg (by rw [h]; decide)]
  simp only [onAck, slideTo, hstay, ne_eq]
  exact (fields_ackHoles a ack _).2

theorem not_agrees_of_not_dvd (cfg : UdpArqConfig) (hdvd : ¬ cfg.effectiveWindow ∣ 65536) :
    ∃ initialSeq events, ¬ (run cfg initialSeq events).Agrees := by
  have hle := cfg.effectiveWindow_le
  have hpos : 65536 % cfg.effectiveWindow ≠ 0 := fun h => hdvd (Nat.dvd_of_mod_eq_zero h)
  have hlt : 65536 % cfg.effectiveWindow < cfg.effectiveWindow := Nat.mod_lt _ cfg.effectiveWindow_pos
  obtain ⟨r, hr⟩ : ∃ r, r = 65536 % cfg.effectiveWindow := ⟨_, rfl⟩
  rw [← hr] at hpos hlt
  have hflood := flooded cfg (65536 - r) ⟨[], false⟩ (r + 1) (by omega)
  refine ⟨seqAt (65536 - r) 0, replicate (r + 1) (.submit ⟨[], false⟩), fun hagrees => ?_⟩
  rw [run] at hagrees
  generalize (replicate (r + 1) (ArqEvent.submit ⟨[], false⟩)).foldl step
    (make cfg (seqAt (65536 - r) 0)) = s at hflood hagrees
  -- the receiver has nothing, so its ack moves nothing
  have hcum : s.receiver.sendAck.cumulative + 1 = s.sender.base := by
    rw [cumulative_sendAck, hflood.receiver_eq, hflood.base_eq]
    show seqAt (65536 - r) 0 - 1 + 1 = _
    simp
  have hstays : s.sender.canSlide (s.receiver.sendAck.cumulative + 1) = false := by
    rw [hcum]
    simp [UdpReliableArq.canSlide]
  obtain ⟨hbase, hnext⟩ := fields_onAck_of_not_canSlide hstays []
  have hflies : ∀ p, p ≤ r → (s.sender.onAck s.receiver.sendAck []).1.flying (seqAt (65536 - r) p) = true := by
    intro p hp
    rw [flying, inFlight, hbase, hnext, hflood.base_eq, hflood.next_eq,
      seqAt_sub_of_le (by omega) (by omega), seqAt_sub_of_le (by omega) (by omega), decide_eq_true_eq]
    omega
  have hslot : slotOf cfg.effectiveWindow (seqAt (65536 - r) 0) = slotOf _ (seqAt (65536 - r) r) := by
    ext
    show (seqAt _ _).toNat % _ = (seqAt _ _).toNat % _
    rw [toNat_seqAt, toNat_seqAt, add_zero, Nat.sub_add_cancel (by omega),
      Nat.mod_eq_of_lt (show 65536 - r < 65536 by omega)]
    exact Nat.sub_mod_eq_zero_of_mod_eq (by rw [← hr, Nat.mod_eq_of_lt hlt])
  have heq := (hagrees []).apart _ _ (hflies 0 (by omega)) (hflies r le_rfl) hslot
  have hmod := congrArg UInt16.toNat heq
  rw [toNat_seqAt, toNat_seqAt] at hmod
  omega

theorem delivered_inOrder {s : ArqLink cfg.effectiveWindow} (hW : cfg.effectiveWindow = 32768)
    (h : Flooded cfg init m cfg.effectiveWindow s) (k : Nat) (hk : k ≤ cfg.effectiveWindow) :
    let s' := ((range k).map ArqEvent.deliverSegment).foldl step s
    s'.sender = s.sender ∧ s'.admitted = s.admitted ∧ s'.segments = s.segments ∧
      s'.receiver.recv.Empty ∧ s'.receiver.recv.expected = seqAt init k := by
  induction k with
  | zero =>
    refine ⟨rfl, rfl, rfl, ?_, ?_⟩
    · show s.receiver.recv.Empty
      rw [h.receiver_eq]
      exact empty_make _
    · show s.receiver.recv.expected = _
      rw [h.receiver_eq]
      rfl
  | succ k ih =>
    obtain ⟨hsender, hadmitted, hsegments, hempty, hexpected⟩ := ih (by omega)
    rw [range_succ, map_append, foldl_append]
    generalize ((range k).map ArqEvent.deliverSegment).foldl step s = t at *
    have hseg : t.segments[k]? = some ⟨k, ⟨seqAt init k, m⟩⟩ := by
      rw [hsegments, h.segments_eq, getElem?_map, getElem?_range (by omega)]
      rfl
    have hfresh : t.fresh k := by
      rw [fresh, hadmitted, h.admitted_eq, hW]
      simp
    have hstep : foldl step t (map ArqEvent.deliverSegment [k]) =
        t.received ⟨seqAt init k, m⟩ := by
      show t.deliverSegment k = _
      unfold ArqLink.deliverSegment
      rw [hseg]
      exact if_pos hfresh
    obtain ⟨b, hfeed, hempty', hexpected'⟩ := feed_expected hempty m
    have hrecv : (t.received ⟨seqAt init k, m⟩).receiver.recv = b := by
      show (t.receiver.recv.feed (seqAt init k) m.fragmented m.bytes).2.1 = b
      rw [← hexpected, hfeed]
    rw [hstep]
    refine ⟨hsender, hadmitted, hsegments, ?_, ?_⟩
    · rw [hrecv]
      exact hempty'
    · rw [hrecv, hexpected', hexpected, seqAt_succ]

theorem not_agrees_of_half (cfg : UdpArqConfig) (hW : cfg.effectiveWindow = 32768) :
    ∃ initialSeq events, ¬ (run cfg initialSeq events).Agrees := by
  have hflood := flooded cfg 0 ⟨[], false⟩ cfg.effectiveWindow le_rfl
  obtain ⟨hsender, -, -, -, hexpected⟩ := delivered_inOrder hW hflood cfg.effectiveWindow le_rfl
  refine ⟨seqAt 0 0, replicate cfg.effectiveWindow (.submit ⟨[], false⟩) ++
    (range cfg.effectiveWindow).map .deliverSegment, fun hagrees => ?_⟩
  rw [run, foldl_append] at hagrees
  generalize (replicate cfg.effectiveWindow (ArqEvent.submit ⟨[], false⟩)).foldl step
    (make cfg (seqAt 0 0)) = s at *
  generalize ((range cfg.effectiveWindow).map ArqEvent.deliverSegment).foldl step s = t at *
  have hcum : t.receiver.sendAck.cumulative + 1 = seqAt 0 32768 := by
    rw [cumulative_sendAck, cumulative, hexpected, hW]
    simp
  have hdist : (seqAt 0 32768 - seqAt 0 0).toNat = 32768 := seqAt_sub_of_le (by omega) (by omega)
  have hstuck : t.sender.canSlide (t.receiver.sendAck.cumulative + 1) = false := by
    rw [hcum, UdpReliableArq.canSlide, hsender, hflood.base_eq, hdist]
    simp [halfSpace]
  have hbase := (hagrees []).base_eq
  rw [(fields_onAck_of_not_canSlide hstuck []).1, hsender, hflood.base_eq, hexpected, hW] at hbase
  rw [← hbase] at hdist
  simp at hdist

/-- **Acks agree with what was received in every run exactly when** the window divides the sequence
space and is not half of it. -/
theorem agrees_iff (cfg : UdpArqConfig) :
    (∀ (initialSeq : UInt16) (events : List (ArqEvent cfg.effectiveWindow)),
      (run cfg initialSeq events).Agrees) ↔
      cfg.effectiveWindow ∣ 65536 ∧ cfg.effectiveWindow ≠ 32768 := by
  constructor
  · intro hall
    constructor
    · by_contra hdvd
      obtain ⟨initialSeq, events, hnot⟩ := not_agrees_of_not_dvd cfg hdvd
      exact hnot (hall initialSeq events)
    · intro hhalf
      obtain ⟨initialSeq, events, hnot⟩ := not_agrees_of_half cfg hhalf
      exact hnot (hall initialSeq events)
  · rintro ⟨hdvd, hne⟩ initialSeq events
    have hW : cfg.effectiveWindow < 32768 := Nat.lt_of_le_of_ne cfg.effectiveWindow_le hne
    obtain ⟨lo, own, h⟩ := run_invariant (fun s => ∃ lo own, s.AckInv initialSeq.toNat lo own)
      (fun s e hs => ackInv_step hdvd hW s e hs) ⟨0, _, ackInv_make cfg initialSeq⟩ events
    exact h.agrees hdvd hW

/-- A window of three across the wrap: numbers 65535 and 0 share a slot, and the ack that reports 0
frees it; 65535, which was lost, will not be sent again. -/
theorem hole_ack_frees_lost :
    let s := run { window := 3 } 65535 [.submit ⟨[10], false⟩, .submit ⟨[20], false⟩, .deliverSegment 1]
    let a := (s.sender.onAck s.receiver.sendAck []).1
    slotOf 3 65535 = slotOf 3 0 ∧ s.sender.unacked 65535 = true ∧ a.flying 65535 = true ∧
      a.unacked 65535 = false ∧ s.receiver.recv.received 65535 = false ∧
      (a.slots (slotOf 3 65535)).timer = none := by
  decide +kernel

end ArqLink

end Plexus.Datagram
