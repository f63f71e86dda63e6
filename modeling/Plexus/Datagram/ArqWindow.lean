/-
# Plexus.Datagram.ArqWindow — the sender's window in unwrapped sequence numbers.

Against the list `xs` of all messages admitted so far, `next` and `base` are the wrapped positions
`xs.length` and `lo`, and an outstanding slot holds the message of a position `own`. What a wait may
have captured is `Due`: a number that was given out, and, unless the window divides the sequence
space or nothing is ever retransmitted, the one the slot's present occupant has.

Each operation keeps `Window`, and everything transmitted is `Faithful`: it carries the message of
its own place, or its place is below the base and the receiver is past it.
-/
import Plexus.Datagram.UdpReliableArq

namespace Plexus.Datagram

open Lib Wire Function UdpReliableArq List

/-- The wire sequence number of the `i`-th message of a connection. -/
def seqAt (init i : Nat) : UInt16 := UInt16.ofNat (init + i)

variable {init i j n : Nat}

theorem toNat_seqAt : (seqAt init i).toNat = (init + i) % 65536 := by
  simp [seqAt]

theorem seqAt_succ : seqAt init i + 1 = seqAt init (i + 1) := by
  rw [seqAt, seqAt, ← add_assoc, UInt16.ofNat_add (init + i) 1]
  rfl

theorem toNat_seqAt_sub : (seqAt init i - seqAt init j).toNat = gap 65536 (init + i) (init + j) := by
  rw [UInt16.toNat_sub, toNat_seqAt, toNat_seqAt, gap]

theorem seqAt_sub_of_le (h : j ≤ i) (hlt : i < j + 65536) :
    (seqAt init i - seqAt init j).toNat = i - j := by
  rw [toNat_seqAt_sub, gap_of_le (by omega) (by omega)]
  omega

theorem seqAt_sub_of_lt (h : i < j) (hle : j ≤ i + 65536) :
    (seqAt init i - seqAt init j).toNat = 65536 - (j - i) := by
  rw [toNat_seqAt_sub, gap_of_lt (by omega) (by omega)]
  omega

/-- The newest position below `n` that has the wire number `seq`, when `next` is the wire number
of `n`. -/
def unwrap (next : UInt16) (n : Nat) (seq : UInt16) : Nat := n - ((next - seq - 1).toNat + 1)

/-- Unwrapping a number that was given out finds the newest position that has it. -/
theorem unwrap_spec (init : Nat) {i n : Nat} (h : i < n) :
    let l := unwrap (seqAt init n) n (seqAt init i)
    l < n ∧ i ≤ l ∧ n ≤ l + 65536 ∧ seqAt init l = seqAt init i := by
  have hsub : seqAt init n - seqAt init i - 1 = seqAt init n - seqAt init (i + 1) := by
    rw [← seqAt_succ]
    grind
  have hlt : gap 65536 (init + n) (init + (i + 1)) < 65536 := gap_lt (by omega)
  have hmod := gap_add_modEq (m := 65536) (a := init + n) (b := init + (i + 1)) (by omega)
  have hle : gap 65536 (init + n) (init + (i + 1)) ≤ n - (i + 1) := by
    rw [show gap 65536 (init + n) (init + (i + 1)) = (n - (i + 1)) % 65536 from
      gap_eq_of_modEq (Nat.mod_lt _ (by omega)) (by
        have : n - (i + 1) + (init + (i + 1)) = init + n := by omega
        exact ((Nat.mod_modEq _ _).add_right _).trans (by rw [this]))]
    exact Nat.mod_le _ _
  simp only [unwrap, hsub, toNat_seqAt_sub]
  refine ⟨by omega, by omega, by omega, ?_⟩
  apply UInt16.toNat_inj.mp
  rw [toNat_seqAt, toNat_seqAt]
  unfold Nat.ModEq at hmod
  omega

theorem unwrap_seqAt (h : i < n) (hn : n ≤ i + 65536) :
    unwrap (seqAt init n) n (seqAt init i) = i := by
  obtain ⟨hl, hi, -, hseq⟩ := unwrap_spec init h
  have hmod := congrArg UInt16.toNat hseq
  rw [toNat_seqAt, toNat_seqAt] at hmod
  omega

/-! ## The window -/

variable {W : Nat} [NeZero W] {a a' : UdpReliableArq W} {ready ready' : List UInt16} {lo : Nat}
  {xs xs' : List Message} {own own' : Fin W → Nat} {c : UInt16}

/-- A captured sequence number that does no harm when its handler runs. -/
def Due (a : UdpReliableArq W) (init : Nat) (xs : List Message) (own : Fin W → Nat)
    (c : UInt16) : Prop :=
  (∃ i < xs.length, c = seqAt init i) ∧
    (W ∣ 65536 ∨ a.maxRetransmit = 0 ∨
      ((a.slots (slotOf W c)).outstanding → c = seqAt init (own (slotOf W c))))

/-- The sender against the messages `xs` it has admitted: the window is `[lo, xs.length)`, slot `k`
is occupied by position `own k`, and every wait, pending or queued, is due. -/
structure Window (a : UdpReliableArq W) (ready : List UInt16) (init : Nat) (xs : List Message)
    (lo : Nat) (own : Fin W → Nat) : Prop where
  base_eq : a.base = seqAt init lo
  next_eq : a.next = seqAt init xs.length
  lo_le : lo ≤ xs.length
  le_lo : xs.length ≤ lo + W
  owned : ∀ k, (a.slots k).outstanding → lo ≤ own k ∧ slotOf W (seqAt init (own k)) = k ∧
    xs[own k]? = some (a.slots k).message
  timers : ∀ k c, (a.slots k).timer = some c → slotOf W c = k ∧ Due a init xs own c
  queued : ∀ c ∈ ready, Due a init xs own c

theorem window_make (cfg : UdpArqConfig) (init : UInt16) (own : Fin cfg.effectiveWindow → Nat) :
    Window (.make cfg init) [] init.toNat [] 0 own where
  base_eq := by simp [make, seqAt]
  next_eq := by simp [make, seqAt]
  lo_le := le_rfl
  le_lo := Nat.zero_le _
  owned := fun _ h => by simp [make] at h
  timers := fun _ _ h => by simp [make] at h
  queued := fun _ h => by cases h

theorem Due.transfer (h : Due a init xs own c) (hmax : a'.maxRetransmit = a.maxRetransmit)
    (hlen : xs.length ≤ xs'.length)
    (hslot : (a'.slots (slotOf W c)).outstanding →
      (a.slots (slotOf W c)).outstanding ∧ own' (slotOf W c) = own (slotOf W c)) :
    Due a' init xs' own' c := by
  obtain ⟨⟨i, hi, hc⟩, hdue⟩ := h
  refine ⟨⟨i, by omega, hc⟩, ?_⟩
  rcases hdue with hdvd | hzero | hsame
  · exact .inl hdvd
  · exact .inr (.inl (hmax.trans hzero))
  · refine .inr (.inr fun hout => ?_)
    rw [(hslot hout).2]
    exact hsame (hslot hout).1

/-- An operation that admits nothing keeps `Window` when it fills no slot and arms or queues nothing
but due numbers. -/
theorem Window.keep (h : Window a ready init xs lo own)
    (hmax : a'.maxRetransmit = a.maxRetransmit) (hbase : a'.base = a.base) (hnext : a'.next = a.next)
    (hslots : ∀ k, (a'.slots k).outstanding →
      (a.slots k).outstanding ∧ (a'.slots k).message = (a.slots k).message)
    (htimers : ∀ k c, (a'.slots k).timer = some c → slotOf W c = k ∧ Due a init xs own c)
    (hqueued : ∀ c ∈ ready', Due a init xs own c) : Window a' ready' init xs lo own where
  base_eq := hbase.trans h.base_eq
  next_eq := hnext.trans h.next_eq
  lo_le := h.lo_le
  le_lo := h.le_lo
  owned := fun k hk => by
    rw [(hslots k hk).2]
    exact h.owned k (hslots k hk).1
  timers := fun k c hc =>
    ⟨(htimers k c hc).1,
      (htimers k c hc).2.transfer hmax le_rfl fun hout => ⟨(hslots _ hout).1, rfl⟩⟩
  queued := fun c hc =>
    (hqueued c hc).transfer hmax le_rfl fun hout => ⟨(hslots _ hout).1, rfl⟩

theorem Window.inFlight_eq (h : Window a ready init xs lo own) (hW : W ≤ 32768) :
    a.inFlight = xs.length - lo := by
  have := h.le_lo
  rw [inFlight, h.base_eq, h.next_eq, seqAt_sub_of_le h.lo_le (by omega)]

/-! ## Submitting -/

/-- The slot the next submit takes has no expired wait still in the queue — or it does not matter. -/
def ReuseSafe (a : UdpReliableArq W) (ready : List UInt16) (k : Fin W) : Prop :=
  W ∣ 65536 ∨ a.maxRetransmit = 0 ∨ ∀ c ∈ ready, slotOf W c ≠ k

theorem Window.accept (h : Window a ready init xs lo own) (hW : W ≤ 32768) (hroom : ¬ W ≤ a.inFlight)
    (hreuse : ReuseSafe a ready (slotOf W a.next)) (m : Message) :
    Window (a.accept m) ready init (xs ++ [m]) lo
      (update own (slotOf W a.next) xs.length) := by
  have hflight := h.inFlight_eq hW
  have hlen : (xs ++ [m]).length = xs.length + 1 := by simp
  -- a number whose slot is not the one being taken stays due
  have hother : ∀ c, slotOf W c ≠ slotOf W a.next → Due a init xs own c →
      Due (a.accept m) init (xs ++ [m]) (update own (slotOf W a.next) xs.length) c := by
    intro c hne hdue
    refine hdue.transfer rfl (by omega) fun hout => ?_
    rw [a.slots_accept_of_ne m hne] at hout
    exact ⟨hout, update_of_ne hne _ _⟩
  refine ⟨h.base_eq, ?_, ?_, ?_, fun k hk => ?_, fun k c hc => ?_, fun c hc => ?_⟩
  · rw [hlen, ← seqAt_succ, ← h.next_eq]
    rfl
  · have := h.lo_le
    omega
  · omega
  · by_cases hkn : k = slotOf W a.next
    · subst hkn
      rw [a.slots_accept_self m, update_self]
      exact ⟨h.lo_le, by rw [h.next_eq], by simp [ArqSlot.message]⟩
    · rw [a.slots_accept_of_ne m hkn] at hk ⊢
      rw [update_of_ne hkn]
      obtain ⟨hlo, hslot, hx⟩ := h.owned k hk
      obtain ⟨hlt, -⟩ := List.getElem?_eq_some_iff.mp hx
      exact ⟨hlo, hslot, by rw [List.getElem?_append_left hlt, hx]⟩
  · by_cases hkn : k = slotOf W a.next
    · subst hkn
      rw [a.slots_accept_self m] at hc
      obtain rfl := Option.some_inj.mp hc
      refine ⟨rfl, ⟨xs.length, by omega, h.next_eq⟩, .inr (.inr fun _ => ?_)⟩
      rw [update_self, ← h.next_eq]
    · rw [a.slots_accept_of_ne m hkn] at hc
      obtain ⟨hslot, hdue⟩ := h.timers k c hc
      exact ⟨hslot, hother c (by rw [hslot]; exact hkn) hdue⟩
  · have hdue := h.queued c hc
    by_cases hkn : slotOf W c = slotOf W a.next
    · obtain ⟨i, hi, hseq⟩ := hdue.1
      refine ⟨⟨i, by omega, hseq⟩, ?_⟩
      rcases hreuse with hdvd | hzero | hfree
      · exact .inl hdvd
      · exact .inr (.inl hzero)
      · exact absurd hkn (hfree c hc)
    · exact hother c hkn hdue

/-- What the sender puts on the wire at position `p`: the message of that place, unless the place is
already below the base. -/
structure Faithful (init : Nat) (xs : List Message) (lo : Nat) (seg : Segment) (p : Nat) : Prop where
  lt : p < xs.length
  seq_eq : seg.seq = seqAt init p
  message : xs[p]? = some seg.message ∨ p < lo

theorem Faithful.grow {seg : Segment} {p lo' : Nat} (h : Faithful init xs lo seg p)
    (ys : List Message) (hlo : lo ≤ lo') : Faithful init (xs ++ ys) lo' seg p where
  lt := by have := h.lt; simp; omega
  seq_eq := h.seq_eq
  message := by
    rcases h.message with hx | hlt
    · exact .inl (by rw [getElem?_append_left h.lt, hx])
    · exact .inr (by omega)

/-- The admitted submits of an `on_window_advance` callback are a prefix of what it tried, and each
takes the next position. -/
theorem Window.submitAll (h : Window a ready init xs lo own) (hW : W ≤ 32768) (ms : List Message)
    (hreuse : ∀ j < ms.length, ReuseSafe a ready (slotOf W (seqAt init (xs.length + j)))) :
    ∃ own', Window (a.submitAll ms).1 ready init
        (xs ++ (a.submitAll ms).2.map (·.message)) lo own' ∧
      ∀ seg ∈ (a.submitAll ms).2, ∃ p, xs.length ≤ p ∧
        Faithful init (xs ++ (a.submitAll ms).2.map (·.message)) lo seg p := by
  induction ms generalizing a xs own with
  | nil => exact ⟨own, by simpa [submitAll] using h,
      by simp [submitAll]⟩
  | cons m ms ih =>
    by_cases hfull : W ≤ a.inFlight
    · -- refused: the window does not move, so the rest starts from the same state
      rw [submitAll_cons_of_full hfull]
      exact ih h fun j hj => hreuse j (by simp; omega)
    have hw := h.accept hW hfull (by
      have := hreuse 0 (by simp)
      rwa [add_zero, ← h.next_eq] at this) m
    obtain ⟨own', hw', hsegs⟩ := ih hw fun j hj => by
      have := hreuse (j + 1) (by simp; omega)
      rw [show (xs ++ [m]).length + j = xs.length + (j + 1) by simp; omega]
      exact this
    rw [submitAll_cons_of_room hfull]
    rw [← append_cons] at hw' hsegs
    refine ⟨own', hw', fun seg hseg => ?_⟩
    rcases mem_cons.mp hseg with rfl | hseg
    · exact ⟨xs.length, le_rfl, ⟨by simp, h.next_eq, .inl (by simp)⟩⟩
    · obtain ⟨p, hp, hf⟩ := hsegs seg hseg
      exact ⟨p, by simp at hp; omega, hf⟩

/-! ## Acknowledging -/

section

variable (a : UdpReliableArq W) (seq : UInt16)

theorem outstanding_freeSegment :
    ((a.freeSegment seq).slots (slotOf W seq)).outstanding = false := by
  unfold freeSegment
  split
  · rename_i h
    simpa using h
  · simp [UdpReliableArq.setSlot]

theorem slots_freeSegment (k : Fin W) :
    (a.freeSegment seq).slots k = a.slots k ∨ (k = slotOf W seq ∧
      (a.freeSegment seq).slots k = { a.slots k with timer := none, outstanding := false }) := by
  unfold freeSegment
  split
  · exact .inl rfl
  by_cases hk : k = slotOf W seq
  · subst hk
    exact .inr ⟨rfl, by simp [UdpReliableArq.setSlot]⟩
  · exact .inl (by simp [UdpReliableArq.setSlot, hk])

theorem fields_freeSegment :
    (a.freeSegment seq).maxRetransmit = a.maxRetransmit ∧ (a.freeSegment seq).base = a.base ∧
      (a.freeSegment seq).next = a.next := by
  unfold freeSegment
  split <;> exact ⟨rfl, rfl, rfl⟩

end

theorem Window.freeSegment (h : Window a ready init xs lo own) (seq : UInt16) :
    Window (a.freeSegment seq) ready init xs lo own := by
  obtain ⟨hmax, hbase, hnext⟩ := fields_freeSegment a seq
  refine h.keep hmax hbase hnext (fun k hk => ?_) (fun k c hc => ?_) h.queued
  · rcases slots_freeSegment a seq k with heq | ⟨-, heq⟩
    · rw [heq] at hk ⊢
      exact ⟨hk, rfl⟩
    · rw [heq] at hk
      simp at hk
  rcases slots_freeSegment a seq k with heq | ⟨-, heq⟩
  · rw [heq] at hc
    exact h.timers k c hc
  · rw [heq] at hc
    simp at hc

theorem Window.advanceBase (h : Window a ready init xs lo own) (hlo : lo < xs.length) :
    Window a.advanceBase ready init xs (lo + 1) own := by
  have hfree := h.freeSegment a.base
  refine ⟨?_, hfree.next_eq, hlo, ?_, fun k hk => ?_, hfree.timers, hfree.queued⟩
  · rw [UdpReliableArq.advanceBase, h.base_eq, seqAt_succ]
  · have := h.le_lo
    omega
  obtain ⟨hle, hslot, hx⟩ := hfree.owned k hk
  refine ⟨?_, hslot, hx⟩
  by_contra hlt
  have hown : own k = lo := by omega
  rw [hown, ← h.base_eq] at hslot
  subst hslot
  exact absurd hk (by simp [UdpReliableArq.advanceBase, outstanding_freeSegment])

theorem fields_slideLoop (fuel : Nat) (newBase : UInt16) (a : UdpReliableArq W) :
    (a.slideLoop fuel newBase).maxRetransmit = a.maxRetransmit ∧
      (a.slideLoop fuel newBase).next = a.next := by
  induction fuel generalizing a with
  | zero => exact ⟨rfl, rfl⟩
  | succ fuel ih =>
    unfold slideLoop
    split
    · obtain ⟨hmax, -, hnext⟩ := fields_freeSegment a a.base
      exact ⟨(ih a.advanceBase).1.trans hmax, (ih a.advanceBase).2.trans hnext⟩
    · exact ⟨rfl, rfl⟩

section

variable (h : Window a ready init xs lo own)
include h

/-- An ack whose edge is not more than half the sequence space old moves the base towards that edge,
never past it. -/
theorem Window.slideLoop (edge : Nat) (hedge : edge ≤ xs.length)
    (hfresh : xs.length ≤ edge + halfSpace) (fuel : Nat) :
    ∃ lo', lo ≤ lo' ∧ lo' ≤ max lo edge ∧
      Window (a.slideLoop fuel (seqAt init edge)) ready init xs lo' own := by
  induction fuel generalizing a lo with
  | zero => exact ⟨lo, le_rfl, Nat.le_max_left _ _, h⟩
  | succ fuel ih =>
    unfold slideLoop
    split
    · rename_i hcan
      have hlo := h.lo_le
      -- the guard can only hold when the edge is ahead of the base
      have hahead : lo < edge := by
        simp only [canSlide, h.base_eq, halfSpace, Bool.and_eq_true,
          decide_eq_true_eq] at hcan hfresh
        obtain ⟨⟨hne, hlt⟩, -⟩ := hcan
        by_contra hbehind
        rcases lt_or_eq_of_le (not_lt.mp hbehind) with hback | heq
        · rw [seqAt_sub_of_lt hback (by omega)] at hlt
          omega
        · rw [heq, seqAt_sub_of_le le_rfl (by omega)] at hne
          omega
      obtain ⟨lo', h1, h2, hw⟩ := ih (h.advanceBase (by omega))
      exact ⟨lo', by omega, by omega, hw⟩
    · exact ⟨lo, le_rfl, Nat.le_max_left _ _, h⟩

theorem Window.ackHoles (ack : UdpAck) (n : Nat) :
    Window (a.ackHoles ack n) ready init xs lo own := by
  unfold UdpReliableArq.ackHoles
  induction range n generalizing a with
  | nil => exact h
  | cons i is ih =>
    refine ih ?_
    simp only
    split
    · unfold ackHole
      simp only
      split
      · exact h
      · exact h.freeSegment _
    · exact h

/-! ## Timers -/

theorem Window.expire (k : Fin W) :
    Window (a.expire k).1 (ready ++ (a.expire k).2.toList) init xs lo own := by
  refine h.keep rfl rfl rfl (fun j hj => ?_) (fun j c hc => ?_) (fun c hc => ?_)
  · simp only [UdpReliableArq.expire, UdpReliableArq.setSlot, update_apply] at hj ⊢
    split at hj
    · rename_i heq
      subst heq
      exact ⟨hj, by simp [ArqSlot.message]⟩
    · rename_i hne
      exact ⟨hj, by rw [if_neg hne]⟩
  · simp only [UdpReliableArq.expire, UdpReliableArq.setSlot, update_apply] at hc
    split at hc
    · simp at hc
    · exact h.timers j c hc
  · rcases mem_append.mp hc with hc | hc
    · exact h.queued c hc
    · exact (h.timers k c (by simpa [UdpReliableArq.expire] using hc)).2

theorem Window.cancel : Window a.cancel ready init xs lo own :=
  h.keep rfl rfl rfl (fun _ hk => ⟨hk, rfl⟩) (fun _ _ hc => by simp [UdpReliableArq.cancel] at hc)
    h.queued

end

/-- Within the window, a slot has one position when the window divides the sequence space. -/
theorem eq_of_slotOf_eq (init lo : Nat) (hdvd : W ∣ 65536) {p q : Nat} (hp : lo ≤ p) (hp' : p < lo + W)
    (hq : lo ≤ q) (hq' : q < lo + W)
    (h : slotOf W (seqAt init p) = slotOf W (seqAt init q)) : p = q := by
  have hmod : (seqAt init p).toNat % W = (seqAt init q).toNat % W := congrArg Fin.val h
  rw [toNat_seqAt, toNat_seqAt, Nat.mod_mod_of_dvd _ hdvd, Nat.mod_mod_of_dvd _ hdvd] at hmod
  have hpq : p - lo ≡ q - lo [MOD W] := by
    have hsplit : ∀ r, lo ≤ r → init + r = (init + lo) + (r - lo) := by intro r hr; omega
    rw [hsplit p hp, hsplit q hq] at hmod
    exact .add_left_cancel' (init + lo) hmod
  have := hpq.eq_of_lt_of_lt (by omega) (by omega)
  omega

/-- **Running the handler of a due wait** keeps the window, and what it retransmits is faithful. -/
theorem Window.waitCompletion (h : Window a ready init xs lo own) (hW : W ≤ 32768)
    (ready' : List UInt16) (hready : ∀ c ∈ ready', c ∈ ready) (hdue : Due a init xs own c) :
    Window (a.waitCompletion c).1 ready' init xs lo own ∧
      ∀ seg ∈ (a.waitCompletion c).2,
        Faithful init xs lo seg (unwrap a.next xs.length seg.seq) := by
  have hqueued : ∀ c ∈ ready', Due a init xs own c := fun c hc => h.queued c (hready c hc)
  have hsame : Window a ready' init xs lo own :=
    h.keep rfl rfl rfl (fun _ hk => ⟨hk, rfl⟩) h.timers hqueued
  unfold UdpReliableArq.waitCompletion
  split
  · exact ⟨hsame, by simp⟩
  unfold onRto
  simp only
  split_ifs with hout hmax
  · exact ⟨hsame, by simp⟩
  · exact ⟨hsame.keep rfl rfl rfl (fun _ hk => ⟨hk, rfl⟩) h.timers hqueued, by simp⟩
  replace hout : (a.slots (slotOf W c)).outstanding = true := by simpa using hout
  obtain ⟨hlo, hslot, hx⟩ := h.owned _ hout
  obtain ⟨hlt, -⟩ := List.getElem?_eq_some_iff.mp hx
  have hlen := h.le_lo
  refine ⟨h.keep rfl rfl rfl (fun k hk => ?_) (fun k d hd => ?_) hqueued, ?_⟩
  · simp only [UdpReliableArq.setSlot, update_apply] at hk ⊢
    split at hk
    · rename_i heq
      subst heq
      exact ⟨hk, by simp [ArqSlot.message]⟩
    · rename_i hne
      exact ⟨hk, by rw [if_neg hne]⟩
  · simp only [UdpReliableArq.setSlot, update_apply] at hd
    split at hd
    · rename_i heq
      simp only [Option.some.injEq] at hd
      subst hd
      exact ⟨heq.symm, hdue⟩
    · exact h.timers k d hd
  intro seg hseg
  rw [List.mem_singleton] at hseg
  subst hseg
  obtain ⟨⟨i, hi, hc⟩, hkind⟩ := hdue
  rcases hkind with hdvd | hzero | hsame
  · -- the captured number may be an older one, but then it is below the base
    obtain ⟨hp, -, -, hseq⟩ := unwrap_spec init hi
    rw [← hc, ← h.next_eq] at hp hseq
    refine ⟨hp, hseq.symm, ?_⟩
    by_cases hbelow : unwrap a.next xs.length c < lo
    · exact .inr hbelow
    have : unwrap a.next xs.length c = own (slotOf W c) :=
      eq_of_slotOf_eq init lo hdvd (by omega) (by omega) hlo (by omega) (by rw [hseq, hslot])
    exact .inl (by rw [this, hx])
  · exact absurd (by rw [hzero]; exact UInt8.zero_le) hmax
  · have hown := hsame hout
    have hp : unwrap a.next xs.length c = own (slotOf W c) := by
      conv_lhs => rw [hown]
      rw [h.next_eq]
      exact unwrap_seqAt hlt (by omega)
    exact ⟨by rw [hp]; exact hlt, by rw [hp]; exact hown, .inl (by rw [hp]; exact hx)⟩

/-! ## The retransmit bound is fixed -/

section

variable (a : UdpReliableArq W)

theorem maxRetransmit_submitAll (ms : List Message) :
    (a.submitAll ms).1.maxRetransmit = a.maxRetransmit := by
  induction ms generalizing a with
  | nil => rfl
  | cons m ms ih =>
    refine (ih (a.submit m).1).trans ?_
    unfold submit
    split <;> rfl

theorem fields_ackHoles (ack : UdpAck) (n : Nat) :
    (a.ackHoles ack n).maxRetransmit = a.maxRetransmit ∧ (a.ackHoles ack n).base = a.base ∧
      (a.ackHoles ack n).next = a.next := by
  unfold UdpReliableArq.ackHoles
  induction range n generalizing a with
  | nil => exact ⟨rfl, rfl, rfl⟩
  | cons i is ih =>
    rw [foldl_cons]
    split
    · unfold ackHole
      simp only
      split_ifs
      · exact ih a
      · obtain ⟨hmax, hbase, hnext⟩ := ih (a.freeSegment (ack.cumulative + 2 + UInt16.ofNat i))
        obtain ⟨hmax', hbase', hnext'⟩ := fields_freeSegment a (ack.cumulative + 2 + UInt16.ofNat i)
        exact ⟨hmax.trans hmax', hbase.trans hbase', hnext.trans hnext'⟩
    · exact ih a

end

end Plexus.Datagram
