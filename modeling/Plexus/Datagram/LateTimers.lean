/-
# Plexus.Datagram.LateTimers — one sender, any acks, and handlers that run late.

Acks are arbitrary, and a wait that has expired is a queued handler that neither a cancel nor a
re-arm can take back. `history` is what the callers and the transmit callback see; a number is *in
force* from its submit until an ack covers it.

A handler of an older number that still waits when its slot is taken again sends the new bytes under
the old number and takes the timer over. That is the one way to go wrong as long as the numbers of a
window have slots of their own: always if the window divides the sequence space, otherwise while it
does not straddle the wrap.
-/
import Plexus.Datagram.ArqWindow
import Plexus.Lib.Run

namespace Plexus.Datagram

open Lib Wire UdpReliableArq List

/-! ## What is in force -/

/-- An entry of the history. -/
inductive ArqRecord where
  | submitted (seg : Segment)
  | transmitted (seg : Segment)
  | acked (seq : UInt16)
  deriving DecidableEq

/-- What one record does to the message in force under `seq`. -/
def ArqRecord.affect (seq : UInt16) (now : Option Message) : ArqRecord → Option Message
  | .submitted seg => if seg.seq = seq then some seg.message else now
  | .transmitted _ => now
  | .acked s => if s = seq then none else now

/-- The message last submitted under `seq`, unless it has been acknowledged since. -/
def inForce (history : List ArqRecord) (seq : UInt16) : Option Message :=
  history.foldl (ArqRecord.affect seq) none

/-- Every transmission carries what was submitted under its number and is not acknowledged yet. -/
def Genuine (history : List ArqRecord) : Prop :=
  ∀ before seg after, history = before ++ .transmitted seg :: after →
    inForce before seg.seq = some seg.message

variable {history : List ArqRecord} {seg : Segment} {seq : UInt16}

theorem inForce_acked (history : List ArqRecord) (s seq : UInt16) :
    inForce (history ++ [.acked s]) seq = if s = seq then none else inForce history seq := by
  rw [inForce, foldl_append]
  rfl

theorem inForce_transmitted (history : List ArqRecord) (seg : Segment) (seq : UInt16) :
    inForce (history ++ [.transmitted seg]) seq = inForce history seq := by
  rw [inForce, foldl_append]
  rfl

theorem inForce_submitted (history : List ArqRecord) (seg : Segment) (seq : UInt16) :
    inForce (history ++ [.submitted seg]) seq =
      if seg.seq = seq then some seg.message else inForce history seq := by
  rw [inForce, foldl_append]
  rfl

theorem genuine_nil : Genuine [] := by
  intro before seg after h
  simp at h

theorem Genuine.append (h : Genuine history) {r : ArqRecord}
    (hr : ∀ seg, r = .transmitted seg → inForce history seg.seq = some seg.message) :
    Genuine (history ++ [r]) := by
  intro before seg after heq
  rcases eq_nil_or_concat after with rfl | ⟨init, last, rfl⟩
  · obtain ⟨rfl, hlast⟩ := append_inj' heq rfl
    exact hr seg (singleton_inj.mp hlast)
  · rw [concat_eq_append, ← cons_append, ← append_assoc] at heq
    exact h before seg init (append_inj' heq rfl).1

/-! ## The machine -/

/-- The window, the completions that have not run, and its history. -/
structure ArqTimers (W : Nat) where
  arq : UdpReliableArq W
  ready : List UInt16 := []
  history : List ArqRecord := []

/-- Queued handlers are named by their place; `refill` are the submits of the `on_window_advance`
callback. -/
inductive TimerEvent (W : Nat) where
  | submit (m : Message)
  | ack (ack : UdpAck) (refill : List Message)
  | expire (slot : Fin W)
  | dispatch (k : Nat)
  | cancel

variable {W : Nat} [NeZero W]

namespace ArqTimers

def make (cfg : UdpArqConfig) (initialSeq : UInt16) : ArqTimers cfg.effectiveWindow where
  arq := .make cfg initialSeq

/-- Admitted messages are transmitted at once. -/
def admissions (sent : List Segment) : List ArqRecord :=
  sent.flatMap fun seg => [.submitted seg, .transmitted seg]

/-- The numbers the loop of `slide_to` moves the base past. -/
def cumulativeAcks : Nat → UInt16 → UdpReliableArq W → List ArqRecord
  | 0, _, _ => []
  | fuel + 1, newBase, a =>
    if a.canSlide newBase then .acked a.base :: cumulativeAcks fuel newBase a.advanceBase else []

/-- The holes an ack names within the window. -/
def selectiveAcks (W : Nat) (base : UInt16) (ack : UdpAck) (is : List Nat) : List ArqRecord :=
  is.filterMap fun i =>
    let seq := ack.cumulative + 2 + UInt16.ofNat i
    let rel := (seq - base).toNat
    if ack.holeReceived i ∧ ¬ (halfSpace ≤ rel ∨ W ≤ rel) then some (.acked seq) else none

def submit (s : ArqTimers W) (m : Message) : ArqTimers W :=
  let (arq, sent) := s.arq.submit m
  { s with arq, history := s.history ++ admissions sent.toList }

def ack (s : ArqTimers W) (ack : UdpAck) (refill : List Message) : ArqTimers W :=
  let (arq, sent) := s.arq.onAck ack refill
  let newBase := ack.cumulative + 1
  { s with
    arq
    history := s.history ++ cumulativeAcks (newBase - s.arq.base).toNat newBase s.arq ++
      admissions sent ++ selectiveAcks W arq.base ack (range UdpAck.bitmapBits) }

def expire (s : ArqTimers W) (slot : Fin W) : ArqTimers W :=
  let (arq, handler) := s.arq.expire slot
  { s with arq, ready := s.ready ++ handler.toList }

def dispatch (s : ArqTimers W) (k : Nat) : ArqTimers W :=
  match s.ready[k]? with
  | none => s
  | some seq =>
    let (arq, sent) := s.arq.waitCompletion seq
    { arq, ready := s.ready.eraseIdx k, history := s.history ++ sent.map .transmitted }

def step (s : ArqTimers W) : TimerEvent W → ArqTimers W
  | .submit m => s.submit m
  | .ack ack refill => s.ack ack refill
  | .expire slot => s.expire slot
  | .dispatch k => s.dispatch k
  | .cancel => { s with arq := s.arq.cancel }

def run (cfg : UdpArqConfig) (initialSeq : UInt16) (events : List (TimerEvent cfg.effectiveWindow)) :
    ArqTimers cfg.effectiveWindow :=
  events.foldl step (make cfg initialSeq)

/-! ## What is wanted and when it holds -/

/-- Every transmission is genuine, and every number in force has a wait: on its slot's timer, or
expired with its handler queued. -/
structure Intact (s : ArqTimers W) : Prop where
  genuine : Genuine s.history
  waits : s.arq.dead = false → ∀ seq, (inForce s.history seq).isSome →
    (s.arq.slots (slotOf W seq)).timer = some seq ∨ seq ∈ s.ready

/-- The numbers of the window have slots of their own. -/
def Aligned (a : UdpReliableArq W) : Prop := W ∣ 65536 ∨ a.base.toNat + W ≤ 65536

instance (a : UdpReliableArq W) : Decidable (Aligned a) :=
  inferInstanceAs (Decidable (_ ∨ _))

/-- How many messages an event gets admitted. -/
def takes (s : ArqTimers W) : TimerEvent W → Nat
  | .submit m => (s.arq.submit m).2.toList.length
  | .ack ack refill => (s.arq.onAck ack refill).2.length
  | _ => 0

/-- No queued handler on the slots of the next `n` numbers is another number's. -/
def SlotsClear (a : UdpReliableArq W) (ready : List UInt16) (n : Nat) : Prop :=
  ∀ j < n, ∀ c ∈ ready, slotOf W c = slotOf W (a.next + UInt16.ofNat j) → c = a.next + UInt16.ofNat j

instance (a : UdpReliableArq W) (ready : List UInt16) (n : Nat) : Decidable (SlotsClear a ready n) :=
  @Nat.decidableBallLT n (fun j _ => ∀ c ∈ ready,
      slotOf W c = slotOf W (a.next + UInt16.ofNat j) → c = a.next + UInt16.ofNat j)
    fun _ _ => decidableBAll _ _

/-- The condition on an event in the state before it. -/
def Timely (s : ArqTimers W) (e : TimerEvent W) : Prop :=
  Aligned (s.step e).arq ∧ SlotsClear s.arq s.ready (s.takes e)

instance (s : ArqTimers W) (e : TimerEvent W) : Decidable (s.Timely e) :=
  inferInstanceAs (Decidable (_ ∧ _))

/-! ## The invariant -/

/-- A slot is free and no number in force is on it, or one holds it, whose wait is pending or
queued; no other number's wait is. -/
inductive SlotOk (history : List ArqRecord) (ready : List UInt16) (dead : Bool) (k : Fin W)
    (s : ArqSlot) : Prop
  | free (hout : s.outstanding = false) (htimer : s.timer = none)
      (hnone : ∀ x, slotOf W x = k → inForce history x = none)
  | held (x : UInt16) (hx : slotOf W x = k) (hout : s.outstanding = true)
      (hforce : inForce history x = some s.message)
      (honly : ∀ y, slotOf W y = k → (inForce history y).isSome → y = x)
      (htimer : ∀ c, s.timer = some c → c = x) (hqueued : ∀ c ∈ ready, slotOf W c = k → c = x)
      (hwaits : dead = false → s.timer = some x ∨ x ∈ ready)

structure Inv (a : UdpReliableArq W) (ready : List UInt16) (history : List ArqRecord) : Prop where
  flight_le : a.inFlight ≤ W
  apart : ∀ x y, (x - a.base).toNat < a.inFlight → (y - a.base).toNat < a.inFlight →
    slotOf W x = slotOf W y → x = y
  flight : ∀ x, (inForce history x).isSome → (x - a.base).toNat < a.inFlight
  slots : ∀ k, SlotOk history ready a.dead k (a.slots k)
  genuine : Genuine history

variable {a : UdpReliableArq W} {ready : List UInt16}

theorem SlotOk.congr {history' : List ArqRecord} {ready' : List UInt16} {dead dead' : Bool} {k : Fin W}
    {s : ArqSlot} (h : SlotOk history ready dead k s) (hdead : dead' = false → dead = false)
    (hforce : ∀ x, slotOf W x = k → inForce history' x = inForce history x)
    (hready : ∀ c, slotOf W c = k → (c ∈ ready' ↔ c ∈ ready)) : SlotOk history' ready' dead' k s := by
  cases h with
  | free hout htimer hnone => exact .free hout htimer fun x hx => (hforce x hx).trans (hnone x hx)
  | held x hx hout hm honly htimer hqueued hwaits =>
    refine .held x hx hout ((hforce x hx).trans hm) ?_ htimer ?_ ?_
    · intro y hy hsome
      rw [hforce y hy] at hsome
      exact honly y hy hsome
    · intro c hc hslot
      exact hqueued c ((hready c hslot).mp hc) hslot
    · intro halive
      exact (hwaits (hdead halive)).imp id (hready x hx).mpr

theorem inv_make (cfg : UdpArqConfig) (initialSeq : UInt16) :
    Inv (UdpReliableArq.make cfg initialSeq) [] [] where
  flight_le := by simp [UdpReliableArq.inFlight, UdpReliableArq.make]
  apart := fun x y hx _ _ => by simp [UdpReliableArq.inFlight, UdpReliableArq.make] at hx
  flight := fun _ h => by simp [inForce] at h
  slots := fun _ => .free rfl rfl fun _ _ => rfl
  genuine := genuine_nil

/-! ## Slots of a window -/

theorem toNat_sub_add (x base : UInt16) : (base.toNat + (x - base).toNat) % 65536 = x.toNat := by
  have hx := x.toNat_lt
  have hbase := base.toNat_lt
  rw [UInt16.toNat_sub]
  omega

theorem eq_of_toNat_sub_eq_zero {x base : UInt16} (h : (x - base).toNat = 0) : x = base := by
  have hsum := toNat_sub_add x base
  rw [h, add_zero, Nat.mod_eq_of_lt base.toNat_lt] at hsum
  exact (UInt16.toNat_inj.mp hsum).symm

theorem eq_of_slotOf_of_aligned (ha : Aligned a) {x y : UInt16} (hx : (x - a.base).toNat < W)
    (hy : (y - a.base).toNat < W) (hslot : slotOf W x = slotOf W y) : x = y := by
  have hmod : x.toNat % W = y.toNat % W := congrArg Fin.val hslot
  have hsum : a.base.toNat + (x - a.base).toNat ≡ a.base.toNat + (y - a.base).toNat [MOD W] := by
    rw [← toNat_sub_add x a.base, ← toNat_sub_add y a.base] at hmod
    rcases ha with hdvd | hflat
    · rwa [Nat.mod_mod_of_dvd _ hdvd, Nat.mod_mod_of_dvd _ hdvd] at hmod
    · rwa [Nat.mod_eq_of_lt (show a.base.toNat + (x - a.base).toNat < 65536 by omega),
        Nat.mod_eq_of_lt (show a.base.toNat + (y - a.base).toNat < 65536 by omega)] at hmod
  have hrel : (x - a.base).toNat = (y - a.base).toNat :=
    (Nat.ModEq.add_left_cancel' _ hsum).eq_of_lt_of_lt hx hy
  apply UInt16.toNat_inj.mp
  rw [← toNat_sub_add x a.base, hrel, toNat_sub_add]

/-! ## Acknowledging -/

/-- **Freeing a number's slot**, when no other number in force is on it. -/
theorem Inv.freeSegment (h : Inv a ready history) (seq : UInt16)
    (halone : ∀ x, (inForce history x).isSome → slotOf W x = slotOf W seq → x = seq) :
    Inv (a.freeSegment seq) ready (history ++ [.acked seq]) := by
  obtain ⟨-, hbase, hnext⟩ := fields_freeSegment a seq
  have hflight : (a.freeSegment seq).inFlight = a.inFlight := by
    rw [UdpReliableArq.inFlight, hbase, hnext, UdpReliableArq.inFlight]
  have hdead : (a.freeSegment seq).dead = a.dead := by
    unfold UdpReliableArq.freeSegment
    split <;> rfl
  refine ⟨by rw [hflight]; exact h.flight_le, ?_, ?_, ?_, ?_⟩
  · rw [hflight, hbase]
    exact h.apart
  · intro x hx
    rw [hflight, hbase]
    apply h.flight
    rw [inForce_acked] at hx
    split at hx
    · cases hx
    · exact hx
  · intro k
    rw [hdead]
    by_cases hk : k = slotOf W seq
    · -- nothing is left in force on the slot
      subst hk
      apply SlotOk.free (outstanding_freeSegment a seq)
      · rcases slots_freeSegment a seq (slotOf W seq) with heq | ⟨-, heq⟩
        · have hout := outstanding_freeSegment a seq
          rw [heq] at hout ⊢
          cases h.slots (slotOf W seq) with
          | free _ htimer _ => exact htimer
          | held _ _ hheld => exact absurd (hout.symm.trans hheld) Bool.false_ne_true
        · rw [heq]
      intro x hx
      rw [inForce_acked]
      split
      · rfl
      · rename_i hne
        by_contra hsome
        exact hne (halone x (Option.isSome_iff_ne_none.mpr hsome) hx).symm
    · rcases slots_freeSegment a seq k with heq | ⟨heq, -⟩
      · rw [heq]
        refine (h.slots k).congr id (fun x hx => ?_) (fun _ _ => .rfl)
        rw [inForce_acked, if_neg]
        rintro rfl
        exact hk hx.symm
      · exact absurd heq hk
  · exact h.genuine.append fun seg hseg => by simp at hseg

theorem Inv.advanceBase (h : Inv a ready history) (hne : a.base ≠ a.next) :
    Inv a.advanceBase ready (history ++ [.acked a.base]) := by
  have hpos : 0 < a.inFlight := by
    apply Nat.pos_of_ne_zero
    exact fun hzero => hne (eq_of_toNat_sub_eq_zero hzero).symm
  have hself : (a.base - a.base).toNat < a.inFlight := by simpa using hpos
  have hfree := h.freeSegment a.base fun x hx hslot => h.apart x a.base (h.flight x hx) hself hslot
  obtain ⟨-, hbase, hnext⟩ := fields_freeSegment a a.base
  -- one step of the base takes one off every distance that is not zero
  have hstep : ∀ x : UInt16, (x - (a.base + 1)).toNat = ((x - a.base).toNat + 65535) % 65536 := by
    intro x
    have hb := a.base.toNat_lt
    rw [UInt16.toNat_sub, UInt16.toNat_sub, UInt16.toNat_add, UInt16.toNat_one]
    omega
  have hflight : a.advanceBase.inFlight = a.inFlight - 1 := by
    show ((a.freeSegment a.base).next - (a.base + 1)).toNat = _
    rw [hnext, hstep]
    have hlt := (a.next - a.base).toNat_lt
    rw [UdpReliableArq.inFlight] at hpos ⊢
    omega
  have hfreed : (a.freeSegment a.base).inFlight = a.inFlight := by
    rw [UdpReliableArq.inFlight, hbase, hnext, UdpReliableArq.inFlight]
  have hback : ∀ x : UInt16, (x - a.advanceBase.base).toNat < a.advanceBase.inFlight →
      (x - a.base).toNat < a.inFlight := by
    intro x hx
    have hlt := (x - a.base).toNat_lt
    rw [show a.advanceBase.base = a.base + 1 from rfl, hstep] at hx
    omega
  refine ⟨?_, ?_, ?_, hfree.slots, hfree.genuine⟩
  · have := h.flight_le
    omega
  · exact fun x y hx hy => h.apart x y (hback x hx) (hback y hy)
  intro x hx
  have hin := hfree.flight x hx
  have hnot : x ≠ a.base := by
    rintro rfl
    rw [inForce_acked, if_pos rfl] at hx
    cases hx
  have hdist : (x - a.base).toNat ≠ 0 := fun hzero => hnot (eq_of_toNat_sub_eq_zero hzero)
  rw [hbase] at hin
  rw [show a.advanceBase.base = a.base + 1 from rfl, hstep]
  omega

theorem inv_slideLoop (newBase : UInt16) (fuel : Nat) (h : Inv a ready history) :
    Inv (a.slideLoop fuel newBase) ready (history ++ cumulativeAcks fuel newBase a) := by
  induction fuel generalizing a history with
  | zero => simpa [slideLoop, cumulativeAcks] using h
  | succ fuel ih =>
    rw [slideLoop, cumulativeAcks]
    by_cases hcan : a.canSlide newBase
    · have hne : a.base ≠ a.next := by
        simp only [canSlide, Bool.and_eq_true, bne_iff_ne] at hcan
        exact hcan.2
      have hrest := ih (h.advanceBase hne)
      rw [if_pos hcan, if_pos hcan]
      rwa [append_assoc, singleton_append] at hrest
    · rw [if_neg hcan, if_neg hcan, append_nil]
      exact h

theorem inv_ackHoles (ack : UdpAck) (n : Nat) (h : Inv a ready history) (ha : Aligned a) :
    Inv (a.ackHoles ack n) ready (history ++ selectiveAcks W a.base ack (range n)) := by
  unfold ackHoles
  induction range n generalizing a history with
  | nil => simpa [selectiveAcks] using h
  | cons i is ih =>
    rw [foldl_cons, selectiveAcks, filterMap_cons]
    by_cases hhole : ack.holeReceived i
    · rw [if_pos hhole, ackHole]
      by_cases hfar : halfSpace ≤ (ack.cumulative + 2 + UInt16.ofNat i - a.base).toNat ∨
          W ≤ (ack.cumulative + 2 + UInt16.ofNat i - a.base).toNat
      · simp only [hfar, not_true_eq_false, and_false]
        exact ih h ha
      have hfree := h.freeSegment (ack.cumulative + 2 + UInt16.ofNat i) fun x hx hslot =>
        eq_of_slotOf_of_aligned ha (lt_of_lt_of_le (h.flight x hx) h.flight_le) (by omega) hslot
      obtain ⟨-, hbase, -⟩ := fields_freeSegment a (ack.cumulative + 2 + UInt16.ofNat i)
      have hrest := ih hfree (by rw [Aligned, hbase]; exact ha)
      simp only [hhole, hfar]
      rwa [hbase, append_assoc, singleton_append] at hrest
    · simp only [hhole]
      exact ih h ha

/-! ## Submitting -/

theorem Inv.accept (h : Inv a ready history) (hW : W ≤ 32768) (ha : Aligned a)
    (hroom : a.inFlight < W)
    (hclear : ∀ c ∈ ready, slotOf W c = slotOf W a.next → c = a.next) (m : Message) :
    Inv (a.accept m) ready (history ++ [.submitted ⟨a.next, m⟩, .transmitted ⟨a.next, m⟩]) := by
  have hflight : (a.accept m).inFlight = a.inFlight + 1 := by
    show ((a.next + 1) - a.base).toNat = (a.next - a.base).toNat + 1
    rw [UdpReliableArq.inFlight] at hroom
    rw [UInt16.toNat_sub] at hroom ⊢
    rw [UInt16.toNat_sub, UInt16.toNat_add, UInt16.toNat_one]
    omega
  -- nothing in flight is on the slot of the next number
  have hfar : ∀ x, (x - a.base).toNat < a.inFlight → slotOf W x ≠ slotOf W a.next := by
    intro x hx hslot
    have heq := eq_of_slotOf_of_aligned ha (lt_trans hx hroom) hroom hslot
    rw [heq] at hx
    exact lt_irrefl _ hx
  have hnew : ∀ x : UInt16, (x - a.base).toNat < a.inFlight + 1 →
      (x - a.base).toNat < a.inFlight ∨ x = a.next := by
    intro x hx
    by_cases hlt : (x - a.base).toNat < a.inFlight
    · exact .inl hlt
    right
    have heq : (x - a.base).toNat = (a.next - a.base).toNat := by
      rw [UdpReliableArq.inFlight] at hlt hx
      omega
    apply UInt16.toNat_inj.mp
    rw [← toNat_sub_add x a.base, heq, toNat_sub_add]
  have hforce : ∀ x, inForce (history ++ [.submitted ⟨a.next, m⟩, .transmitted ⟨a.next, m⟩]) x =
      if a.next = x then some m else inForce history x := by
    intro x
    rw [append_cons, inForce_transmitted, inForce_submitted]
  refine ⟨?_, ?_, ?_, ?_, ?_⟩
  · rw [hflight]
    exact hroom
  · intro x y hx hy hslot
    rw [hflight] at hx hy
    rcases hnew x hx with hx | rfl
    · rcases hnew y hy with hy | rfl
      · exact h.apart x y hx hy hslot
      · exact absurd hslot (hfar x hx)
    · rcases hnew y hy with hy | rfl
      · exact absurd hslot.symm (hfar y hy)
      · rfl
  · intro x hx
    rw [hforce] at hx
    rw [hflight]
    split at hx
    · rename_i heq
      subst heq
      exact Nat.lt_succ_self _
    · exact Nat.lt_succ_of_lt (h.flight x hx)
  · intro k
    by_cases hk : k = slotOf W a.next
    · subst hk
      rw [a.slots_accept_self]
      refine .held a.next rfl rfl ?_ ?_ ?_ hclear (fun _ => .inl rfl)
      · rw [hforce, if_pos rfl]
        rfl
      · intro y hy hsome
        rw [hforce] at hsome
        split at hsome
        · rename_i heq
          exact heq.symm
        · exact absurd hy (hfar y (h.flight y hsome))
      · intro c hc
        exact (Option.some_inj.mp hc).symm
    · rw [a.slots_accept_of_ne m hk]
      refine (h.slots k).congr id (fun x hx => ?_) (fun _ _ => .rfl)
      rw [hforce, if_neg]
      rintro rfl
      exact hk hx.symm
  · rw [append_cons]
    refine (h.genuine.append fun seg hseg => by simp at hseg).append fun seg hseg => ?_
    obtain rfl : (⟨a.next, m⟩ : Segment) = seg := ArqRecord.transmitted.inj hseg
    rw [inForce_submitted, if_pos rfl]

theorem base_submitAll (a : UdpReliableArq W) (ms : List Message) :
    (a.submitAll ms).1.base = a.base := by
  induction ms generalizing a with
  | nil => rfl
  | cons m ms ih =>
    refine (ih (a.submit m).1).trans ?_
    unfold UdpReliableArq.submit
    split <;> rfl

theorem inv_submitAll (hW : W ≤ 32768) (ms : List Message) (h : Inv a ready history) (ha : Aligned a)
    (hclear : SlotsClear a ready (a.submitAll ms).2.length) :
    Inv (a.submitAll ms).1 ready (history ++ admissions (a.submitAll ms).2) := by
  induction ms generalizing a history with
  | nil => simpa [submitAll, admissions] using h
  | cons m ms ih =>
    by_cases hfull : W ≤ a.inFlight
    · rw [submitAll_cons_of_full hfull] at hclear ⊢
      exact ih h ha hclear
    rw [submitAll_cons_of_room hfull] at hclear ⊢
    have hfirst : ∀ c ∈ ready, slotOf W c = slotOf W a.next → c = a.next := by
      have hzero := hclear 0 (Nat.succ_pos _)
      rwa [show a.next + UInt16.ofNat 0 = a.next from UInt16.add_zero _] at hzero
    have hrest : SlotsClear (a.accept m) ready ((a.accept m).submitAll ms).2.length := by
      intro j hj
      have hsucc := hclear (j + 1) (Nat.succ_lt_succ hj)
      rwa [show a.next + UInt16.ofNat (j + 1) = (a.accept m).next + UInt16.ofNat j by
        show _ = a.next + 1 + UInt16.ofNat j
        rw [Nat.add_comm j 1, UInt16.ofNat_add, UInt16.add_assoc]
        rfl] at hsucc
    have hinv := ih (h.accept hW ha (Nat.lt_of_not_le hfull) hfirst m) ha hrest
    rwa [append_assoc] at hinv

theorem inv_slideTo (hW : W ≤ 32768) (newBase : UInt16) (refill : List Message)
    (h : Inv a ready history) (ha : Aligned (a.slideTo newBase refill).1)
    (hclear : SlotsClear a ready (a.slideTo newBase refill).2.length) :
    Inv (a.slideTo newBase refill).1 ready (history ++
      cumulativeAcks (newBase - a.base).toNat newBase a ++ admissions (a.slideTo newBase refill).2) := by
  have hslide := inv_slideLoop newBase (newBase - a.base).toNat h
  have hnext := (fields_slideLoop (newBase - a.base).toNat newBase a).2
  unfold slideTo at ha hclear ⊢
  simp only at ha hclear ⊢
  split_ifs at ha hclear ⊢ with hmoved
  · have hclear' : SlotsClear (a.slideLoop (newBase - a.base).toNat newBase) ready
        ((a.slideLoop (newBase - a.base).toNat newBase).submitAll refill).2.length := by
      rw [SlotsClear, hnext]
      exact hclear
    refine inv_submitAll hW refill hslide ?_ hclear'
    rwa [Aligned, base_submitAll] at ha
  · simpa [admissions] using hslide

/-! ## Timers -/

theorem Inv.expire (h : Inv a ready history) (k : Fin W) :
    Inv (a.expire k).1 (ready ++ (a.expire k).2.toList) history := by
  refine { h with slots := fun j => ?_ }
  have hqueue : ∀ c, c ∈ ready ++ (a.expire k).2.toList ↔ c ∈ ready ∨ (a.slots k).timer = some c := by
    intro c
    rw [mem_append, Option.mem_toList]
    rfl
  by_cases hj : j = k
  · subst hj
    rw [show (a.expire j).1.slots j = _ from Function.update_self _ _ _]
    cases h.slots j with
    | free hout _ hnone => exact .free hout rfl hnone
    | held x hx hout hforce honly htimer hqueued hwaits =>
      refine .held x hx hout hforce honly (fun _ hc => nomatch hc) ?_ ?_
      · intro c hc hslot
        rcases (hqueue c).mp hc with hc | hc
        · exact hqueued c hc hslot
        · exact htimer c hc
      · intro halive
        exact .inr ((hqueue x).mpr (hwaits halive).symm)
  · rw [show (a.expire k).1.slots j = a.slots j from Function.update_of_ne hj _ _]
    refine (h.slots j).congr id (fun _ _ => rfl) (fun c hc => ?_)
    rw [hqueue, or_iff_left]
    -- the wait that expired is on the other slot
    intro htimer
    cases h.slots k with
    | free _ hnone => exact nomatch hnone.symm.trans htimer
    | held x hx _ _ _ hown => exact hj (by rw [← hc, hown c htimer, hx])

theorem mem_eraseIdx_of_ne {l : List UInt16} {k : Nat} {c x : UInt16} (hk : l[k]? = some c)
    (hx : x ∈ l) (hne : x ≠ c) : x ∈ l.eraseIdx k := by
  obtain ⟨i, hi⟩ := mem_iff_getElem?.mp hx
  refine mem_eraseIdx_iff_getElem?.mpr ⟨i, ?_, hi⟩
  rintro rfl
  rw [hk] at hi
  exact hne (Option.some_inj.mp hi).symm

/-- **Running a queued handler.** Its slot is free, or still its own number's. -/
theorem Inv.waitCompletion (h : Inv a ready history) {k : Nat} {c : UInt16} (hk : ready[k]? = some c) :
    Inv (a.waitCompletion c).1 (ready.eraseIdx k)
      (history ++ (a.waitCompletion c).2.map .transmitted) := by
  have herased : ∀ x, x ≠ c → (x ∈ ready.eraseIdx k ↔ x ∈ ready) := fun x hne =>
    ⟨mem_of_mem_eraseIdx, fun hx => mem_eraseIdx_of_ne hk hx hne⟩
  -- a slot other than the handler's, and a free one, does not notice
  have hother : ∀ {history' dead'} j, (dead' = false → a.dead = false) →
      (∀ x, inForce history' x = inForce history x) → j ≠ slotOf W c →
      SlotOk history' (ready.eraseIdx k) dead' j (a.slots j) := by
    intro history' dead' j hdead hsame hj
    refine (h.slots j).congr hdead (fun x _ => hsame x) (fun x hx => herased x ?_)
    rintro rfl
    exact hj hx.symm
  -- a handler that sends nothing is only taken off the queue
  have hforget : ∀ dead', (dead' = false → a.dead = false ∧
      (a.slots (slotOf W c)).outstanding = false) →
      Inv { a with dead := dead' } (ready.eraseIdx k) history := by
    intro dead' hfree
    refine { h with slots := fun j => ?_ }
    by_cases hj : j = slotOf W c
    · subst hj
      cases h.slots (slotOf W c) with
      | free hout htimer hnone => exact .free hout htimer hnone
      | held x hx hout hforce honly htimer hqueued hwaits =>
        refine .held x hx hout hforce honly htimer
          (fun d hd => hqueued d (mem_of_mem_eraseIdx hd)) fun halive => ?_
        exact absurd ((hfree halive).2.symm.trans hout) Bool.false_ne_true
    · exact hother j (fun halive => (hfree halive).1) (fun _ => rfl) hj
  unfold UdpReliableArq.waitCompletion
  split
  · rename_i hdead
    rw [map_nil, append_nil]
    exact hforget a.dead fun halive => absurd (halive.symm.trans hdead) Bool.false_ne_true
  unfold onRto
  dsimp only
  split_ifs with hout hmax
  · rw [map_nil, append_nil]
    exact hforget a.dead fun halive => ⟨halive, by simpa using hout⟩
  · rw [map_nil, append_nil]
    exact hforget true fun halive => absurd halive.symm Bool.false_ne_true
  have hsame : ∀ x, inForce (history ++ [.transmitted ⟨c, (a.slots (slotOf W c)).message⟩]) x =
      inForce history x := fun x => inForce_transmitted _ _ x
  cases h.slots (slotOf W c) with
  | free hfree => exact absurd hfree (by simpa using hout)
  | held x hx hheld hforce honly htimer hqueued hwaits =>
    obtain rfl := hqueued c (mem_of_getElem? hk) rfl
    refine ⟨h.flight_le, h.apart, fun x hx => h.flight x (hsame x ▸ hx), fun j => ?_, ?_⟩
    · by_cases hj : j = slotOf W c
      · subst hj
        rw [show (a.setSlot (slotOf W c) _).slots (slotOf W c) = _ from Function.update_self _ _ _]
        refine .held c rfl hheld ((hsame c).trans hforce) (fun y hy hs => honly y hy (hsame y ▸ hs))
          (fun d hd => (Option.some_inj.mp hd).symm) ?_ (fun _ => .inl rfl)
        exact fun d hd => hqueued d (mem_of_mem_eraseIdx hd)
      · rw [show (a.setSlot (slotOf W c) _).slots j = a.slots j from Function.update_of_ne hj _ _]
        exact hother j id hsame hj
    · refine h.genuine.append fun seg hseg => ?_
      obtain rfl : (⟨c, (a.slots (slotOf W c)).message⟩ : Segment) = seg :=
        ArqRecord.transmitted.inj hseg
      exact hforce

theorem Inv.cancel (h : Inv a ready history) : Inv a.cancel ready history := by
  refine { h with slots := fun k => ?_ }
  cases h.slots k with
  | free hout _ hnone => exact .free hout rfl hnone
  | held x hx hout hforce honly _ hqueued _ =>
    exact .held x hx hout hforce honly (fun _ hc => nomatch hc) hqueued (fun halive => nomatch halive)

/-! ## Every run -/

/-- **The step lemma.** -/
theorem inv_step (hW : W ≤ 32768) (s : ArqTimers W) (e : TimerEvent W)
    (h : Inv s.arq s.ready s.history) (hok : s.Timely e) :
    Inv (s.step e).arq (s.step e).ready (s.step e).history := by
  obtain ⟨ha, hclear⟩ := hok
  cases e with
  | submit m =>
    by_cases hfull : W ≤ s.arq.inFlight
    · have hsame : s.step (.submit m) = s := by
        simp [step, ArqTimers.submit, submit_of_full hfull, admissions]
      rw [hsame]
      exact h
    have hroom := submit_of_room hfull m
    simp only [step, ArqTimers.submit, takes, hroom] at ha hclear ⊢
    have hfirst := hclear 0 Nat.one_pos
    rw [show s.arq.next + UInt16.ofNat 0 = s.arq.next from UInt16.add_zero _] at hfirst
    exact h.accept hW ha (Nat.lt_of_not_le hfull) hfirst m
  | ack ack refill =>
    have hbase := (fields_ackHoles (s.arq.slideTo (ack.cumulative + 1) refill).1 ack
      UdpAck.bitmapBits).2.1
    have ha' : Aligned (s.arq.slideTo (ack.cumulative + 1) refill).1 := by
      simp only [step, ArqTimers.ack, onAck] at ha
      rwa [Aligned, hbase] at ha
    have hinv := inv_ackHoles ack UdpAck.bitmapBits
      (inv_slideTo hW (ack.cumulative + 1) refill h ha' hclear) ha'
    simp only [step, ArqTimers.ack, onAck]
    rwa [hbase]
  | expire slot => exact h.expire slot
  | dispatch k =>
    show Inv (s.dispatch k).arq (s.dispatch k).ready (s.dispatch k).history
    unfold ArqTimers.dispatch
    cases hk : s.ready[k]? with
    | none => exact h
    | some c => exact h.waitCompletion hk
  | cancel => exact h.cancel

theorem inv_run (cfg : UdpArqConfig) (initialSeq : UInt16)
    (events : List (TimerEvent cfg.effectiveWindow))
    (hrun : Guarded step Timely (make cfg initialSeq) events) :
    Inv (run cfg initialSeq events).arq (run cfg initialSeq events).ready
      (run cfg initialSeq events).history :=
  hrun.invariant (fun s => Inv s.arq s.ready s.history)
    (fun s e hs hok => inv_step cfg.effectiveWindow_le s e hs hok) (inv_make cfg initialSeq)

/-- A handler of another number that is queued when its slot is taken: run next, it transmits an
acknowledged number. -/
theorem late_handler_not_intact {s : ArqTimers W} (h : Inv s.arq s.ready s.history)
    (m : Message) {k : Nat} {c : UInt16} (halive : s.arq.dead = false) (hmax : s.arq.maxRetransmit ≠ 0)
    (ha : Aligned s.arq) (hroom : s.arq.inFlight < W) (hk : s.ready[k]? = some c)
    (hslot : slotOf W c = slotOf W s.arq.next) (hne : c ≠ s.arq.next) :
    ¬ ((s.step (.submit m)).step (.dispatch k)).Intact := by
  intro hintact
  have hsubmit : s.step (.submit m) = { s with
      arq := s.arq.accept m
      history := s.history ++ [.submitted ⟨s.arq.next, m⟩, .transmitted ⟨s.arq.next, m⟩] } := by
    simp [step, ArqTimers.submit, submit_of_room (not_le.mpr hroom), admissions]
  have hself : (s.arq.accept m).slots (slotOf W c) =
      { bytes := m.bytes, fragmented := m.fragmented, outstanding := true, timer := some s.arq.next } := by
    rw [hslot, s.arq.slots_accept_self]
  have hzero : ¬ s.arq.maxRetransmit ≤ 0 := fun hle => hmax (UInt8.le_antisymm hle UInt8.zero_le)
  have hsent : ((s.arq.accept m).waitCompletion c).2 = [⟨c, m⟩] := by
    simp [UdpReliableArq.waitCompletion, onRto, hself, ArqSlot.message,
      show (s.arq.accept m).dead = false from halive,
      show (s.arq.accept m).maxRetransmit = s.arq.maxRetransmit from rfl, hzero]
  have hgenuine := hintact.genuine
  rw [hsubmit] at hgenuine
  simp only [step, ArqTimers.dispatch, hk, hsent] at hgenuine
  have hforce := hgenuine _ ⟨c, m⟩ [] rfl
  rw [append_cons, inForce_transmitted, inForce_submitted, if_neg hne.symm] at hforce
  -- in force and on the slot of the next number, it would be that number
  have hin := h.flight c (Option.isSome_of_eq_some hforce)
  exact hne (eq_of_slotOf_of_aligned ha (lt_trans hin hroom) hroom hslot)

/-- **Retransmissions are intact in every timely run**: each carries what was submitted under its
number, none is of an acknowledged number, and every number in force has a wait of its own. And a
submit that is not timely, because a handler of another number is queued on its slot, can be made to
fail: the handler only has to run next. -/
theorem intact_of_timely (cfg : UdpArqConfig) (initialSeq : UInt16)
    (events : List (TimerEvent cfg.effectiveWindow))
    (hrun : Guarded step Timely (make cfg initialSeq) events) :
    let s := run cfg initialSeq events
    s.Intact ∧ ∀ m k c, s.arq.dead = false → s.arq.maxRetransmit ≠ 0 → Aligned s.arq →
      s.arq.windowHasRoom = true → s.ready[k]? = some c →
      slotOf _ c = slotOf cfg.effectiveWindow s.arq.next → c ≠ s.arq.next →
        ¬ ((s.step (.submit m)).step (.dispatch k)).Intact := by
  have h := inv_run cfg initialSeq events hrun
  refine ⟨⟨h.genuine, fun halive x hx => ?_⟩, fun m k c halive hmax ha hroom hk hslot hne => ?_⟩
  · cases h.slots (slotOf _ x) with
    | free _ _ hnone => simp [hnone x rfl] at hx
    | held y _ _ _ honly _ _ hwaits =>
      obtain rfl := honly x rfl hx
      exact hwaits halive
  · exact late_handler_not_intact h m halive hmax ha (of_decide_eq_true hroom) hk hslot hne

/-- A window of two: the second message is retransmitted by its own handler, which ran before the
third took a slot. -/
theorem intact_timely_two :
    (run { window := 2 } 65535 [.submit ⟨[10], false⟩, .submit ⟨[20], false⟩, .expire (0 : Fin 2),
      .dispatch 0, .ack { cumulative := 65535 } [⟨[30], false⟩]]).Intact :=
  (intact_of_timely { window := 2 } 65535 _ (by decide +kernel)).1

/-- A window of one. The wait of message 0 has expired when its ack arrives. -/
def staleRun : ArqTimers 1 :=
  run { window := 1 } 0 [.submit ⟨[10], false⟩, .expire (⟨0, Nat.one_pos⟩ : Fin 1), .ack { cumulative := 0 } [],
    .submit ⟨[20], false⟩, .dispatch 0]

/-- The next message takes the slot; the handler sends it under number 0 and takes over its timer. -/
theorem stale_handler_takes_slot :
    (staleRun.history = [.submitted ⟨0, ⟨[10], false⟩⟩, .transmitted ⟨0, ⟨[10], false⟩⟩, .acked 0,
        .submitted ⟨1, ⟨[20], false⟩⟩, .transmitted ⟨1, ⟨[20], false⟩⟩,
        .transmitted ⟨0, ⟨[20], false⟩⟩] ∧
      staleRun.arq.dead = false ∧ (staleRun.arq.slots (slotOf 1 1)).timer = some 0 ∧
      staleRun.ready = []) ∧ ¬ staleRun.Intact := by
  refine ⟨by decide +kernel, fun h => ?_⟩
  rcases h.waits (by decide +kernel) 1 (by decide +kernel) with hwait | hwait
  · exact absurd hwait (by decide +kernel)
  · exact absurd hwait (by decide +kernel)

end ArqTimers

end Plexus.Datagram
