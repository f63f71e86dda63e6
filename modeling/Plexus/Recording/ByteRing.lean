/-
# Plexus.Recording.ByteRing — the recorder's byte ring (`io/recording/byte_ring.h`).

Records go into the ring behind a counter of their size, and come out, counter and all, into the
sink. `head` and `tail` only grow; a byte stands at its position modulo the capacity.

To a user the ring is a queue of whole records: `Holds r q` says that the bytes between tail and
head are the frames of `q`, oldest first. A push appends or refuses (`Holds.tryPush_dropNewest`), or
forgets the oldest first (`Holds.tryPush_dropOldest`), and a drain moves a part of the front to the
sink (`Holds.drain`).
-/
import Plexus.Lib.BoundedFifo
import Plexus.Lib.Circular
import Plexus.Wire.Varint

namespace Plexus.Recording

open Lib Wire Circular List

inductive RingPolicy
  | dropNewest | dropOldest
  deriving DecidableEq

/-- The store with its two cursors. -/
structure ByteRing where
  capacity : Nat
  policy : RingPolicy := .dropNewest
  store : Nat → UInt8 := fun _ => 0
  head : Nat := 0
  tail : Nat := 0

/-- A record as it stands in the ring and in the file. -/
def framed (record : Bytes) : Bytes := writeVarint (.ofNat record.length) ++ record

def frameSize (record : Bytes) : Nat := (framed record).length

theorem weight_frameSize (q : List Bytes) :
    weight frameSize q = (q.flatMap framed).length := by
  rw [length_flatMap]
  rfl

namespace ByteRing

variable (r : ByteRing)

def used : Nat := r.head - r.tail

/-- The length of the oldest record, and of its counter. -/
def peekLength : Option (UInt64 × Nat) :=
  if r.used = 0 then none
  else readVarint (Circular.read r.capacity r.store r.tail (min 10 r.used)) 0

/-- `evict_until`; every round but the last advances the tail. -/
def evictUntil (frame : Nat) : Nat → ByteRing → ByteRing
  | 0, r => r
  | fuel + 1, r =>
    if r.capacity - r.used < frame then
      match r.peekLength with
      | none => r
      | some (len, header) => evictUntil frame fuel { r with tail := r.tail + header + len.toNat }
    else r

/-- The end of `try_push`: the frame is written behind the others. -/
def put (record : Bytes) : ByteRing :=
  { r with
    store := Circular.write r.capacity r.store r.head (framed record)
    head := r.head + (framed record).length }

def tryPush (record : Bytes) : ByteRing × Bool :=
  let frame := (framed record).length
  if frame > r.capacity then (r, false)
  else
    match r.policy with
    | .dropOldest => ((evictUntil frame (r.used + 1) r).put record, true)
    | .dropNewest => if r.capacity - r.used < frame then (r, false) else (r.put record, true)

/-- The loop of `drain`: the ring and what the sink was given. -/
def drainLoop (maxBytes : Nat) : Nat → ByteRing → Nat → Bytes → ByteRing × Bytes
  | 0, r, _, out => (r, out)
  | fuel + 1, r, moved, out =>
    if moved < maxBytes then
      match r.peekLength with
      | none => (r, out)
      | some (len, header) =>
        let n := header + len.toNat
        drainLoop maxBytes fuel { r with tail := r.tail + n } (moved + n)
          (out ++ Circular.read r.capacity r.store r.tail n)
    else (r, out)

/-- `drain`: the ring, the bytes written to the sink, and whether unread records are left. -/
def drain (maxBytes : Nat) : ByteRing × Bytes × Bool :=
  let (r, out) := drainLoop maxBytes (r.used + 1) r 0 []
  (r, out, r.used ≠ 0)

theorem capacity_evictUntil (frame fuel : Nat) (r : ByteRing) :
    (evictUntil frame fuel r).capacity = r.capacity := by
  induction fuel generalizing r with
  | zero => rfl
  | succ fuel ih =>
    rw [evictUntil]
    split
    · split
      · rfl
      · exact ih _
    · rfl

theorem capacity_tryPush (record : Bytes) : (r.tryPush record).1.capacity = r.capacity := by
  simp only [tryPush]
  split
  · rfl
  · split
    · exact capacity_evictUntil _ _ r
    · split <;> rfl

/-! ## The ring holds a queue of records -/

/-- The ring holds the records `q`, oldest first. -/
structure Holds (r : ByteRing) (q : List Bytes) : Prop where
  le : r.tail ≤ r.head
  fits : r.used ≤ r.capacity
  bytes : Circular.read r.capacity r.store r.tail r.used = q.flatMap framed
  sizes : ∀ record ∈ q, record.length < 2 ^ 64

variable {r : ByteRing} {q : List Bytes} {record : Bytes}

theorem holds_empty (capacity : Nat) (policy : RingPolicy) :
    ({ capacity, policy } : ByteRing).Holds [] where
  le := le_rfl
  fits := Nat.zero_le _
  bytes := rfl
  sizes := fun _ h => by cases h

theorem length_framed_pos (record : Bytes) : 0 < (framed record).length := by
  rw [framed, length_append]
  exact Nat.add_pos_left (length_writeVarint_pos _) _

theorem Holds.used_eq (h : r.Holds q) : r.used = (q.flatMap framed).length := by
  rw [← h.bytes, length_read]

theorem Holds.used_eq_weight (h : r.Holds q) : r.used = weight frameSize q := by
  rw [weight_frameSize, h.used_eq]

theorem Holds.used_eq_zero_iff (h : r.Holds q) : r.used = 0 ↔ q = [] := by
  rw [h.used_eq]
  cases q with
  | nil => simp
  | cons record q =>
    have hpos := length_framed_pos record
    simp only [flatMap_cons, length_append, reduceCtorEq, iff_false]
    omega

theorem Holds.read_take (h : r.Holds q) {n : Nat} (hn : n ≤ r.used) :
    Circular.read r.capacity r.store r.tail n = (q.flatMap framed).take n := by
  have hsplit := read_add r.capacity r.store r.tail n (r.used - n)
  rw [Nat.add_sub_cancel' hn, h.bytes] at hsplit
  rw [hsplit, take_left' (length_read ..)]

/-- The counter is read from any part of the frame that contains it. -/
theorem readVarint_take_framed (record rest : Bytes) {n : Nat}
    (hn : (writeVarint (.ofNat record.length)).length ≤ n) :
    readVarint ((framed record ++ rest).take n) 0 =
      some (.ofNat record.length, (writeVarint (.ofNat record.length)).length) := by
  rw [framed, append_assoc, take_append, take_of_length_le hn]
  exact (readVarint_writeVarint [] _ _).trans (by rw [length_nil, zero_add])

theorem Holds.peekLength_cons (h : r.Holds (record :: q)) :
    r.peekLength =
      some (.ofNat record.length, (writeVarint (.ofNat record.length)).length) := by
  have hused := h.used_eq
  have hpos := length_framed_pos record
  have hten := length_writeVarint_le (.ofNat record.length)
  rw [flatMap_cons, length_append] at hused
  -- the ten bytes looked at begin with the whole counter
  have hcounter : (writeVarint (.ofNat record.length)).length ≤ min 10 r.used := by
    rw [framed, length_append] at hused
    omega
  rw [peekLength, if_neg (by omega), h.read_take (Nat.min_le_right _ _)]
  exact readVarint_take_framed record _ hcounter

theorem Holds.peekLength_nil (h : r.Holds []) : r.peekLength = none := by
  rw [peekLength, if_pos (h.used_eq_zero_iff.mpr rfl)]

theorem Holds.frame_length (h : r.Holds (record :: q)) :
    (writeVarint (.ofNat record.length)).length + (UInt64.ofNat record.length).toNat =
      (framed record).length := by
  have hlt : record.length < 2 ^ 64 := h.sizes record (mem_cons_self ..)
  rw [UInt64.toNat_ofNat_of_lt' hlt, framed, length_append]

theorem Holds.pop (h : r.Holds (record :: q)) :
    ({ r with tail := r.tail + (framed record).length } : ByteRing).Holds q ∧
      Circular.read r.capacity r.store r.tail (framed record).length = framed record := by
  have hused := h.used_eq
  rw [flatMap_cons, length_append] at hused
  have hle := h.le
  have hfits := h.fits
  have hbytes := h.bytes
  have hrest : r.used = (framed record).length + (r.used - (framed record).length) := by omega
  rw [hrest, read_add, flatMap_cons] at hbytes
  obtain ⟨hfirst, hlast⟩ := append_inj hbytes (by rw [length_read])
  have hused' : ({ r with tail := r.tail + (framed record).length } : ByteRing).used =
      r.used - (framed record).length := by
    simp only [used]
    omega
  refine ⟨⟨?_, ?_, ?_, fun x hx => h.sizes x (mem_cons_of_mem _ hx)⟩, hfirst⟩
  · show r.tail + (framed record).length ≤ r.head
    simp only [used] at hused
    omega
  · rw [hused']
    exact le_trans (Nat.sub_le _ _) hfits
  · rw [hused']
    exact hlast

theorem Holds.write (h : r.Holds q) {pos : Nat} {bytes : Bytes} (hpos : r.head ≤ pos)
    (hfit : pos + bytes.length ≤ r.tail + r.capacity) :
    ({ r with store := Circular.write r.capacity r.store pos bytes } : ByteRing).Holds q := by
  have hle := h.le
  refine ⟨hle, h.fits, ?_, h.sizes⟩
  show Circular.read r.capacity (Circular.write r.capacity r.store pos bytes) r.tail r.used = _
  rw [Circular.read_write_of_le bytes (by rw [used]; omega) hfit]
  exact h.bytes

section

variable (h : r.Holds q) (hsize : record.length < 2 ^ 64)
  (hfit : r.used + (framed record).length ≤ r.capacity)
include h hsize hfit

theorem Holds.extend
    (hbytes : Circular.read r.capacity r.store r.head (framed record).length = framed record) :
    ({ r with head := r.head + (framed record).length } : ByteRing).Holds (q ++ [record]) := by
  have hle := h.le
  have hhead : r.head = r.tail + r.used := by
    rw [used]
    omega
  have hused : ({ r with head := r.head + (framed record).length } : ByteRing).used =
      r.used + (framed record).length := by
    simp only [used]
    omega
  refine ⟨le_trans hle (Nat.le_add_right _ _), by rw [hused]; exact hfit, ?_, ?_⟩
  · rw [hhead] at hbytes
    rw [hused, read_add, hbytes, h.bytes, flatMap_append, flatMap_singleton]
  intro x hx
  rcases mem_append.mp hx with hold | hnew
  · exact h.sizes x hold
  · obtain rfl := mem_singleton.mp hnew
    exact hsize

theorem Holds.put : (r.put record).Holds (q ++ [record]) := by
  have hroom : r.head + (framed record).length ≤ r.tail + r.capacity := by
    rw [used] at hfit
    omega
  have hcap : (framed record).length ≤ r.capacity := by omega
  have hwritten := h.write (Nat.le_refl r.head) hroom
  exact hwritten.extend hsize hfit (read_write_self _ _ hcap)

end

/-! ## What the operations do to the queue -/

/-- **A push** under `drop_newest` appends the record if its frame fits into what is free, and
leaves the ring alone otherwise. -/
theorem Holds.tryPush_dropNewest (h : r.Holds q) (hpolicy : r.policy = .dropNewest)
    (hsize : record.length < 2 ^ 64) :
    ((r.tryPush record).2 = true ↔ r.used + (framed record).length ≤ r.capacity) ∧
      (if (r.tryPush record).2 then (r.tryPush record).1.Holds (q ++ [record])
        else (r.tryPush record).1 = r) ∧
      (r.tryPush record).1.policy = r.policy ∧ (r.tryPush record).1.capacity = r.capacity := by
  have hfits := h.fits
  simp only [tryPush, hpolicy]
  by_cases hbig : (framed record).length > r.capacity
  · simp only [if_pos hbig, Bool.false_eq_true, false_iff, if_false, hpolicy, and_true]
    omega
  rw [if_neg hbig]
  by_cases hfull : r.capacity - r.used < (framed record).length
  · simp only [if_pos hfull, Bool.false_eq_true, false_iff, if_false, hpolicy, and_true]
    omega
  · simp only [if_neg hfull, true_iff]
    exact ⟨by omega, h.put hsize (by omega), hpolicy, rfl⟩

theorem length_le_flatMap_framed (q : List Bytes) : q.length ≤ (q.flatMap framed).length := by
  induction q with
  | nil => exact le_rfl
  | cons record q ih =>
    have hpos := length_framed_pos record
    rw [flatMap_cons, length_append, length_cons]
    omega

theorem Holds.length_lt_fuel (h : r.Holds q) : q.length < r.used + 1 := by
  rw [h.used_eq]
  exact Nat.lt_succ_of_le (length_le_flatMap_framed q)

/-- The oldest records go, whole, and no more of them than it takes for the frame to fit. -/
theorem Holds.evictUntil (frame : Nat) :
    ∀ {fuel : Nat} {q : List Bytes} {s : ByteRing}, s.Holds q → q.length < fuel →
      (evictUntil frame fuel s).Holds (q.drop (evictCount frameSize s.capacity frame q)) ∧
        (ByteRing.evictUntil frame fuel s).tail =
          s.tail + weight frameSize (q.take (evictCount frameSize s.capacity frame q)) ∧
        (ByteRing.evictUntil frame fuel s).head = s.head
  | 0, _, _, _, hfuel => absurd hfuel (Nat.not_lt_zero _)
  | fuel + 1, q, s, h, hfuel => by
    have hfits := h.fits
    have hused := h.used_eq_weight
    rw [ByteRing.evictUntil]
    cases q with
    | nil =>
      -- nothing to evict, whether the frame fits or not
      have hstop : (if s.capacity - s.used < frame then
          (match s.peekLength with
            | none => s
            | some (len, header) =>
              ByteRing.evictUntil frame fuel { s with tail := s.tail + header + len.toNat })
          else s) = s := by
        simp only [h.peekLength_nil, ite_self]
      rw [hstop]
      exact ⟨h, rfl, rfl⟩
    | cons record q =>
      by_cases hfull : s.capacity - s.used < frame
      · have hover : ¬ weight frameSize (record :: q) + frame ≤ s.capacity := by omega
        rw [if_pos hfull, evictCount, if_neg hover]
        simp only [h.peekLength_cons, add_assoc, h.frame_length]
        obtain ⟨hrest, htail, hhead⟩ := Holds.evictUntil frame h.pop.1 (Nat.lt_of_succ_lt_succ hfuel)
        refine ⟨hrest, ?_, hhead⟩
        rw [htail, take_succ_cons, weight_cons]
        exact add_assoc _ _ _
      · have hroom : weight frameSize (record :: q) + frame ≤ s.capacity := by omega
        rw [if_neg hfull, evictCount, if_pos hroom]
        exact ⟨h, rfl, rfl⟩

/-- **A push** under `drop_oldest` forgets the records in its way and appends; only a frame larger
than the whole ring is refused. -/
theorem Holds.tryPush_dropOldest (h : r.Holds q) (hpolicy : r.policy = .dropOldest)
    (hsize : record.length < 2 ^ 64) :
    if (framed record).length ≤ r.capacity then
      (r.tryPush record).2 = true ∧
        (r.tryPush record).1.Holds
          (q.drop (evictCount frameSize r.capacity (frameSize record) q) ++ [record]) ∧
        (r.tryPush record).1.tail =
          r.tail + weight frameSize (q.take (evictCount frameSize r.capacity (frameSize record) q))
    else r.tryPush record = (r, false) := by
  simp only [tryPush, hpolicy]
  by_cases hcap : (framed record).length ≤ r.capacity
  · obtain ⟨hheld, htail, -⟩ := Holds.evictUntil (framed record).length h h.length_lt_fuel
    have hsame := capacity_evictUntil (framed record).length (r.used + 1) r
    have hroom := evictCount_fits frameSize hcap q
    rw [if_pos hcap, if_neg (by omega)]
    refine ⟨rfl, hheld.put hsize ?_, htail⟩
    rw [hsame, hheld.used_eq_weight]
    exact hroom
  · rw [if_neg hcap, if_pos (by omega)]

theorem Holds.drainLoop (maxBytes : Nat) :
    ∀ {fuel : Nat} {q : List Bytes} {s : ByteRing} (moved : Nat) (out : Bytes),
      s.Holds q → q.length < fuel →
      ∃ k, (drainLoop maxBytes fuel s moved out).1.Holds (q.drop k) ∧
        (ByteRing.drainLoop maxBytes fuel s moved out).2 = out ++ (q.take k).flatMap framed ∧
        (moved < maxBytes → q ≠ [] → 0 < k) ∧
        (ByteRing.drainLoop maxBytes fuel s moved out).1.policy = s.policy ∧
        (ByteRing.drainLoop maxBytes fuel s moved out).1.capacity = s.capacity
  | 0, _, _, _, _, _, hfuel => absurd hfuel (Nat.not_lt_zero _)
  | fuel + 1, q, s, moved, out, h, hfuel => by
    rw [ByteRing.drainLoop]
    by_cases hbudget : moved < maxBytes
    · rw [if_pos hbudget]
      cases q with
      | nil =>
        simp only [h.peekLength_nil]
        exact ⟨0, h, (append_nil _).symm, fun _ hne => absurd rfl hne, trivial, trivial⟩
      | cons record q =>
        simp only [h.peekLength_cons, h.frame_length, h.pop.2]
        obtain ⟨k, hheld, hout, -, hpolicy, hcapacity⟩ := Holds.drainLoop maxBytes
          (moved + (framed record).length) (out ++ framed record) h.pop.1
          (Nat.lt_of_succ_lt_succ hfuel)
        refine ⟨k + 1, hheld, ?_, fun _ _ => Nat.succ_pos _, hpolicy, hcapacity⟩
        rw [hout, take_succ_cons, flatMap_cons, append_assoc]
    · rw [if_neg hbudget]
      exact ⟨0, h, (append_nil _).symm, fun hlt => absurd hlt hbudget, rfl, rfl⟩

/-- **A drain** moves records from the front of the queue to the sink, at least one if there is one
and the budget is not zero, and says whether any are left. -/
theorem Holds.drain (h : r.Holds q) (maxBytes : Nat) :
    ∃ k, (r.drain maxBytes).1.Holds (q.drop k) ∧
      (r.drain maxBytes).2.1 = (q.take k).flatMap framed ∧
      ((r.drain maxBytes).2.2 = true ↔ q.drop k ≠ []) ∧
      (0 < maxBytes → q ≠ [] → 0 < k) ∧
      (r.drain maxBytes).1.policy = r.policy ∧ (r.drain maxBytes).1.capacity = r.capacity := by
  obtain ⟨k, hheld, hout, hmoves, hpolicy, hcapacity⟩ :=
    Holds.drainLoop maxBytes 0 [] h h.length_lt_fuel
  refine ⟨k, hheld, hout, ?_, hmoves, hpolicy, hcapacity⟩
  simp only [ByteRing.drain, decide_eq_true_eq, ne_eq, hheld.used_eq_zero_iff]

end ByteRing

end Plexus.Recording
