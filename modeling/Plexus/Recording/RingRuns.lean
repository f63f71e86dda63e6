/-
# Plexus.Recording.RingRuns — the byte ring over whole runs (`io/recording/byte_ring.h`).

`RecordFifo` says what the ring is for: a queue of whole records with a bound on what they weigh when
framed. A push appends, and makes room or refuses as the policy has it; a drain hands out from the
front until it has moved enough, a window drain up to a position and not past it. The ring does
exactly that (`Refines.run`): after any calls it holds the frames of the same queue, its sink was
written the frames of the records handed out, and the callers got the same answers.

`copyOut` hands a record over in one write, or in two where it goes around the end of the store; the
loops keep the writes of each record together, because a sink may care where they are cut.
-/
import Plexus.Lib.Run
import Plexus.Recording.ByteRing

namespace Plexus.Recording

open Lib Wire BoundedFifo List

namespace ByteRing

/-! ## Handing records over -/

/-- `copy_out`: the writes to the sink, a second one only around the end of the store. -/
def copyOut (r : ByteRing) (pos n : Nat) : List Bytes :=
  let first := pos % r.capacity
  let run := min n (r.capacity - first)
  (range run).map (fun i => r.store (first + i)) ::
    if run < n then [(range (n - run)).map r.store] else []

/-- The loop of `drain` and, with a frozen head, of `drain_window`: the ring and the writes made for
each record. -/
def drainRounds (frozenHead : Option Nat) (maxBytes : Nat) :
    Nat → ByteRing → Nat → ByteRing × List (List Bytes)
  | 0, r, _ => (r, [])
  | fuel + 1, r, moved =>
    if moved < maxBytes then
      if frozenHead.any (· ≤ r.tail) then (r, [])
      else
        match r.peekLength with
        | none => (r, [])
        | some (len, header) =>
          let n := header + len.toNat
          if frozenHead.any (· < r.tail + n) then (r, [])
          else
            let rest := drainRounds frozenHead maxBytes fuel { r with tail := r.tail + n } (moved + n)
            (rest.1, r.copyOut r.tail n :: rest.2)
    else (r, [])

/-- `drain`, with the single writes. -/
def drainCopies (r : ByteRing) (maxBytes : Nat) : ByteRing × List (List Bytes) × Bool :=
  let (r, copies) := drainRounds none maxBytes (r.used + 1) r 0
  (r, copies, r.used ≠ 0)

def drainWindow (r : ByteRing) (frozenHead maxBytes : Nat) :
    ByteRing × List (List Bytes) × Bool :=
  let (r, copies) := drainRounds (some frozenHead) maxBytes (r.used + 1) r 0
  (r, copies, r.tail < frozenHead && r.used ≠ 0)

variable {r : ByteRing} {q : List Bytes}

/-- The writes of `copy_out` are the bytes of the window, around the end of the store and all. -/
theorem flatten_copyOut (r : ByteRing) (pos : Nat) {n : Nat} (hn : n ≤ r.capacity) :
    (r.copyOut pos n).flatten = Circular.read r.capacity r.store pos n := by
  rcases Nat.eq_zero_or_pos n with rfl | hpos
  · simp [copyOut]
  have hfirst : pos % r.capacity < r.capacity := Nat.mod_lt _ (by omega)
  -- the bytes from the position to the end of the store
  set room := r.capacity - pos % r.capacity with hroom
  have hbefore : ∀ i < min n room, (pos + i) % r.capacity = pos % r.capacity + i := by
    intro i hi
    rw [Nat.add_mod, Nat.mod_eq_of_lt (by omega : i < r.capacity), Nat.mod_eq_of_lt (by omega)]
  have hfront : (range (min n room)).map
      (fun i => r.store (pos % r.capacity + i)) =
      Circular.read r.capacity r.store pos (min n room) := by
    apply map_congr_left
    intro i hi
    rw [hbefore i (mem_range.mp hi)]
  simp only [copyOut, ← hroom, hfront]
  by_cases hwrap : min n room < n
  · rw [if_pos hwrap]
    have hrun : min n room = room := by omega
    have hback : (range (n - min n room)).map r.store =
        Circular.read r.capacity r.store (pos + min n room) (n - min n room) := by
      apply map_congr_left
      intro i hi
      rw [mem_range] at hi
      -- past the end of the store, positions start over
      have hround : (pos + room) % r.capacity = 0 := by
        have hdiv := Nat.div_add_mod pos r.capacity
        have hwhole : pos + room = r.capacity * (pos / r.capacity + 1) := by
          rw [Nat.mul_add]
          omega
        rw [hwhole, Nat.mul_mod_right]
      rw [hrun, Nat.add_mod, hround, zero_add, Nat.mod_mod, Nat.mod_eq_of_lt (by omega)]
    have hsplit := Circular.read_add r.capacity r.store pos (min n room) (n - min n room)
    rw [Nat.add_sub_cancel' (Nat.min_le_left _ _)] at hsplit
    rw [hback, hsplit, flatten_cons, flatten_singleton]
  · have hall : min n room = n := by omega
    rw [if_neg hwrap, hall, flatten_singleton]

/-- A round over a record: it is handed over if the budget is not used up and the record does not
end behind the frozen head. -/
theorem Holds.drainRounds_cons {record : Bytes} (h : r.Holds (record :: q))
    (frozenHead : Option Nat) (maxBytes fuel moved : Nat) :
    drainRounds frozenHead maxBytes (fuel + 1) r moved =
      if moved < maxBytes ∧ ∀ l ∈ frozenHead, r.tail + frameSize record ≤ l then
        let rest := drainRounds frozenHead maxBytes fuel { r with tail := r.tail + frameSize record }
          (moved + frameSize record)
        (rest.1, r.copyOut r.tail (frameSize record) :: rest.2)
      else (r, []) := by
  have hpos : 0 < frameSize record := length_framed_pos record
  have hlen : (writeVarint (.ofNat record.length)).length + (UInt64.ofNat record.length).toNat =
      frameSize record := h.frame_length
  rw [drainRounds]
  by_cases hbudget : moved < maxBytes
  · rw [if_pos hbudget]
    simp only [h.peekLength_cons, hlen, hbudget, true_and]
    cases frozenHead with
    | none => simp
    | some l =>
      simp only [Option.any_some, decide_eq_true_eq, Option.mem_def, Option.some.injEq, forall_eq']
      by_cases hend : r.tail + frameSize record ≤ l
      · rw [if_neg (by omega), if_neg (by omega), if_pos hend]
      · rw [if_neg hend, if_pos (not_le.mp hend), ite_self]
  · rw [if_neg hbudget, if_neg fun hgo => hbudget hgo.1]

theorem Holds.drainRounds_nil (h : r.Holds []) (frozenHead : Option Nat) (maxBytes fuel moved : Nat) :
    drainRounds frozenHead maxBytes (fuel + 1) r moved = (r, []) := by
  simp only [drainRounds, h.peekLength_nil, ite_self]

/-- The loop takes the records a reader with its budget and its limit takes. -/
theorem Holds.drainRounds (frozenHead : Option Nat) (maxBytes : Nat) :
    ∀ {fuel : Nat} {q : List Bytes} {s : ByteRing} (moved : Nat), s.Holds q → q.length < fuel →
      (drainRounds frozenHead maxBytes fuel s moved).1.Holds
          (q.drop (readCount frameSize frozenHead maxBytes s.tail moved q)) ∧
        (ByteRing.drainRounds frozenHead maxBytes fuel s moved).1.tail =
          s.tail + weight frameSize (q.take (readCount frameSize frozenHead maxBytes s.tail moved q)) ∧
        (ByteRing.drainRounds frozenHead maxBytes fuel s moved).2.map flatten =
          (q.take (readCount frameSize frozenHead maxBytes s.tail moved q)).map framed ∧
        (ByteRing.drainRounds frozenHead maxBytes fuel s moved).1.capacity = s.capacity ∧
        (ByteRing.drainRounds frozenHead maxBytes fuel s moved).1.policy = s.policy
  | 0, _, _, _, _, hfuel => absurd hfuel (Nat.not_lt_zero _)
  | fuel + 1, [], s, moved, h, _ => by
    rw [h.drainRounds_nil]
    exact ⟨h, rfl, rfl, rfl, rfl⟩
  | fuel + 1, record :: q, s, moved, h, hfuel => by
    rw [h.drainRounds_cons, readCount]
    split
    · obtain ⟨hheld, htail, hcopies, hcapacity, hpolicy⟩ := Holds.drainRounds frozenHead maxBytes
        (moved + frameSize record) h.pop.1 (Nat.lt_of_succ_lt_succ hfuel)
      have hfit : frameSize record ≤ s.capacity := by
        have hfits := h.fits
        rw [h.used_eq_weight, weight_cons] at hfits
        omega
      have hcopy : (s.copyOut s.tail (frameSize record)).flatten = framed record :=
        (flatten_copyOut s s.tail hfit).trans h.pop.2
      refine ⟨hheld, ?_, ?_, hcapacity, hpolicy⟩
      · rw [take_succ_cons, weight_cons, ← add_assoc]
        exact htail
      · rw [take_succ_cons, map_cons, map_cons, hcopy]
        exact congrArg _ hcopies
    · exact ⟨h, rfl, rfl, rfl, rfl⟩

theorem nonempty_of_mem_copyOut {pos n : Nat} {w : Bytes} (hpos : 0 < n) (hn : n ≤ r.capacity)
    (hw : w ∈ r.copyOut pos n) : w ≠ [] := by
  have hfirst : pos % r.capacity < r.capacity := Nat.mod_lt _ (by omega)
  rcases mem_cons.mp hw with rfl | hrest
  · rw [ne_eq, map_eq_nil_iff, range_eq_nil]
    omega
  split at hrest
  · obtain rfl := mem_singleton.mp hrest
    rw [ne_eq, map_eq_nil_iff, range_eq_nil]
    omega
  · cases hrest

/-- **A drain by single writes is the drain**, and no write is empty. -/
theorem Holds.drainLoop_eq (maxBytes fuel : Nat) {q : List Bytes} {s : ByteRing} (moved : Nat)
    (out : Bytes) (h : s.Holds q) :
    ByteRing.drainLoop maxBytes fuel s moved out =
        ((ByteRing.drainRounds none maxBytes fuel s moved).1,
          out ++ (ByteRing.drainRounds none maxBytes fuel s moved).2.flatten.flatten) ∧
      ∀ writes ∈ (ByteRing.drainRounds none maxBytes fuel s moved).2, ∀ w ∈ writes, w ≠ [] := by
  induction fuel generalizing q s moved out with
  | zero =>
    refine ⟨by simp [ByteRing.drainLoop, ByteRing.drainRounds], ?_⟩
    exact forall_mem_nil _
  | succ fuel ih =>
    cases q with
    | nil =>
      rw [h.drainRounds_nil, ByteRing.drainLoop, h.peekLength_nil]
      refine ⟨?_, forall_mem_nil _⟩
      rw [ite_self, flatten_nil, flatten_nil, append_nil]
    | cons record q =>
      have hfits := h.fits
      rw [h.used_eq_weight, weight_cons] at hfits
      have hfit : frameSize record ≤ s.capacity := by omega
      rw [h.drainRounds_cons, ByteRing.drainLoop, h.peekLength_cons]
      dsimp only
      rw [h.frame_length]
      by_cases hbudget : moved < maxBytes
      · obtain ⟨hrest, hwrites⟩ := ih (moved + frameSize record)
          (out ++ Circular.read s.capacity s.store s.tail (frameSize record)) h.pop.1
        have hgo : moved < maxBytes ∧ ∀ limit ∈ (none : Option Nat), s.tail + frameSize record ≤ limit :=
          ⟨hbudget, by simp⟩
        rw [if_pos hbudget, if_pos hgo]
        constructor
        · rw [flatten_cons, flatten_append, flatten_copyOut s s.tail hfit, ← append_assoc]
          exact hrest
        intro writes hmem w hw
        rcases mem_cons.mp hmem with rfl | hmem
        · exact nonempty_of_mem_copyOut (length_framed_pos record) hfit hw
        · exact hwrites writes hmem w hw
      · rw [if_neg hbudget, if_neg fun hgo => hbudget hgo.1]
        refine ⟨?_, forall_mem_nil _⟩
        rw [flatten_nil, flatten_nil, append_nil]

theorem Holds.drain_eq (h : r.Holds q) (maxBytes : Nat) :
    r.drain maxBytes =
      ((r.drainCopies maxBytes).1, (r.drainCopies maxBytes).2.1.flatten.flatten,
        (r.drainCopies maxBytes).2.2) ∧
      ∀ writes ∈ (r.drainCopies maxBytes).2.1, ∀ w ∈ writes, w ≠ [] := by
  obtain ⟨hloop, hwrites⟩ := h.drainLoop_eq maxBytes (r.used + 1) 0 []
  exact ⟨by rw [ByteRing.drain, hloop]; rfl, hwrites⟩

end ByteRing

/-! ## Runs -/

inductive RingEvent
  | tryPush (record : Bytes)
  | drain (maxBytes : Nat)
  | drainWindow (frozenHead maxBytes : Nat)
  deriving DecidableEq

/-- A ring, the writes its sinks were given, and the calls with what they returned. -/
structure RingRun where
  ring : ByteRing
  writes : List Bytes := []
  answers : List (RingEvent × Bool) := []

namespace RingRun

def step (s : RingRun) : RingEvent → RingRun
  | .tryPush record =>
    let (ring, ok) := s.ring.tryPush record
    { s with ring, answers := s.answers ++ [(.tryPush record, ok)] }
  | .drain maxBytes =>
    let (ring, copies, more) := s.ring.drainCopies maxBytes
    { ring, writes := s.writes ++ copies.flatten, answers := s.answers ++ [(.drain maxBytes, more)] }
  | .drainWindow frozenHead maxBytes =>
    let (ring, copies, more) := s.ring.drainWindow frozenHead maxBytes
    { ring, writes := s.writes ++ copies.flatten
      answers := s.answers ++ [(.drainWindow frozenHead maxBytes, more)] }

def run (s : RingRun) (events : List RingEvent) : RingRun := events.foldl step s

end RingRun

/-- A ring as it is built; a capacity is a `size_t`. -/
def byteRing (capacity : UInt64) (policy : RingPolicy) : RingRun :=
  { ring := { capacity := capacity.toNat, policy } }

/-! ## What the ring is for -/

/-- A queue of whole records, what has left it, and what its callers were told. -/
structure RecordFifo extends BoundedFifo Bytes where
  answers : List (RingEvent × Bool) := []

namespace RecordFifo

/-- Whether a record is let in, and what happens to the queue. -/
def offer (capacity : Nat) (policy : RingPolicy) (f : BoundedFifo Bytes) (record : Bytes) :
    BoundedFifo Bytes × Bool :=
  match policy with
  | .dropNewest =>
    if weight frameSize f.queue + frameSize record ≤ capacity then (f.push record, true) else (f, false)
  | .dropOldest =>
    if frameSize record ≤ capacity then
      ((f.depart (evictCount frameSize capacity (frameSize record) f.queue) false).push record, true)
    else (f, false)

/-- The records a reader takes that stops once it has moved enough, and at the frozen head. -/
def handOut (f : BoundedFifo Bytes) (frozenHead : Option Nat) (maxBytes : Nat) :
    BoundedFifo Bytes :=
  f.depart (readCount frameSize frozenHead maxBytes (f.gone frameSize) 0 f.queue) true

def step (capacity : Nat) (policy : RingPolicy) (f : RecordFifo) : RingEvent → RecordFifo
  | .tryPush record =>
    let (next, ok) := offer capacity policy f.toBoundedFifo record
    { toBoundedFifo := next, answers := f.answers ++ [(.tryPush record, ok)] }
  | .drain maxBytes =>
    let next := handOut f.toBoundedFifo none maxBytes
    { toBoundedFifo := next, answers := f.answers ++ [(RingEvent.drain maxBytes, decide (next.queue ≠ []))] }
  | .drainWindow frozenHead maxBytes =>
    let next := handOut f.toBoundedFifo (some frozenHead) maxBytes
    { toBoundedFifo := next
      answers := f.answers ++ [(RingEvent.drainWindow frozenHead maxBytes,
        decide (next.gone frameSize < frozenHead) && decide (next.queue ≠ []))] }

def run (capacity : Nat) (policy : RingPolicy) (f : RecordFifo) (events : List RingEvent) : RecordFifo :=
  events.foldl (step capacity policy) f

theorem run_concat (capacity : Nat) (policy : RingPolicy) (f : RecordFifo) (events : List RingEvent)
    (e : RingEvent) :
    f.run capacity policy (events ++ [e]) = (f.run capacity policy events).step capacity policy e := by
  rw [run, foldl_append]
  rfl

end RecordFifo

/-! ## The ring does just that -/

/-- The ring holds the frames of the queue, its sinks have the frames of what was handed out. -/
structure Refines (capacity : Nat) (policy : RingPolicy) (s : RingRun) (f : RecordFifo) : Prop where
  holds : s.ring.Holds f.queue
  tail : s.ring.tail = f.gone frameSize
  writes : s.writes.flatten = f.handedOut.flatMap framed
  answers : s.answers = f.answers
  capacity : s.ring.capacity = capacity
  policy : s.ring.policy = policy

variable {capacity : Nat} {policy : RingPolicy} {s : RingRun} {f : RecordFifo}

theorem ByteRing.policy_tryPush (r : ByteRing) (record : Bytes) :
    (r.tryPush record).1.policy = r.policy := by
  have hevict : ∀ (frame fuel : Nat) (t : ByteRing), (evictUntil frame fuel t).policy = t.policy := by
    intro frame fuel
    induction fuel with
    | zero => exact fun t => rfl
    | succ fuel ih =>
      intro t
      rw [evictUntil]
      split
      · split
        · rfl
        · exact ih _
      · rfl
  simp only [tryPush]
  split
  · rfl
  · split
    · exact hevict _ _ r
    · split <;> rfl

/-- A record too long for its counter is also too large for the ring. -/
theorem capacity_lt_frameSize (hcap : capacity < 2 ^ 64) {record : Bytes}
    (hlong : 2 ^ 64 ≤ record.length) : capacity < frameSize record := by
  rw [frameSize, framed, length_append]
  omega

section

variable (h : Refines capacity policy s f)
include h

theorem Refines.tryPush (hcap : capacity < 2 ^ 64) (record : Bytes) :
    Refines capacity policy (s.step (.tryPush record)) (f.step capacity policy (.tryPush record)) := by
  have hcapacity := s.ring.capacity_tryPush record
  have hkept := s.ring.policy_tryPush record
  have hused := h.holds.used_eq_weight
  -- a refusal changes nothing on either side
  have hrefused : s.ring.tryPush record = (s.ring, false) →
      RecordFifo.offer capacity policy f.toBoundedFifo record = (f.toBoundedFifo, false) →
      Refines capacity policy (s.step (.tryPush record)) (f.step capacity policy (.tryPush record)) := by
    intro hring hfifo
    simp only [RingRun.step, RecordFifo.step, hring, hfifo]
    exact { h with answers := by rw [h.answers] }
  by_cases hlong : 2 ^ 64 ≤ record.length
  · have hlarge := capacity_lt_frameSize hcap hlong
    apply hrefused
    · rw [frameSize, ← h.capacity] at hlarge
      simp only [ByteRing.tryPush]
      rw [if_pos hlarge]
    unfold RecordFifo.offer
    split
    · rw [if_neg (by omega)]
    · rw [if_neg (by omega)]
  have hsize : record.length < 2 ^ 64 := not_le.mp hlong
  cases policy with
  | dropNewest =>
    obtain ⟨hiff, hholds, -, -⟩ := h.holds.tryPush_dropNewest h.policy hsize
    rw [h.capacity, hused] at hiff
    by_cases hfit : weight frameSize f.queue + frameSize record ≤ capacity
    · have hok := hiff.mpr hfit
      rw [if_pos hok] at hholds
      simp only [RingRun.step, RecordFifo.step, RecordFifo.offer, if_pos hfit, hok]
      have htail : (s.ring.tryPush record).1.tail = s.ring.tail := by
        simp only [ByteRing.tryPush, h.policy]
        split
        · rfl
        · split <;> rfl
      exact ⟨hholds, htail.trans h.tail, h.writes, by rw [h.answers], hcapacity.trans h.capacity,
        hkept.trans h.policy⟩
    · have hno : (s.ring.tryPush record).2 = false := by
        rw [← Bool.not_eq_true, hiff]
        exact hfit
      rw [hno] at hholds
      apply hrefused
      · exact Prod.ext hholds hno
      · rw [RecordFifo.offer, if_neg hfit]
  | dropOldest =>
    have hpush := h.holds.tryPush_dropOldest h.policy hsize
    rw [h.capacity] at hpush
    by_cases hfit : frameSize record ≤ capacity
    · rw [if_pos (show (framed record).length ≤ capacity from hfit)] at hpush
      obtain ⟨hok, hholds, htail⟩ := hpush
      simp only [RingRun.step, RecordFifo.step, RecordFifo.offer, if_pos hfit, hok]
      refine ⟨hholds, ?_, ?_, by rw [h.answers], hcapacity.trans h.capacity, hkept.trans h.policy⟩
      · rw [htail, h.tail, gone_push, gone_depart]
      · rw [handedOut_push, h.writes]
        simp
    · rw [if_neg (show ¬ (framed record).length ≤ capacity from hfit)] at hpush
      apply hrefused hpush
      rw [RecordFifo.offer, if_neg hfit]

theorem Refines.drainRounds (frozenHead : Option Nat) (maxBytes : Nat)
    (answers answers' : List (RingEvent × Bool)) (hanswers : answers = answers') :
    let drained := ByteRing.drainRounds frozenHead maxBytes (s.ring.used + 1) s.ring 0
    Refines capacity policy { ring := drained.1, writes := s.writes ++ drained.2.flatten, answers }
      { toBoundedFifo := RecordFifo.handOut f.toBoundedFifo frozenHead maxBytes, answers := answers' } := by
  obtain ⟨hheld, htail, hcopies, hcapacity, hpolicy⟩ :=
    ByteRing.Holds.drainRounds frozenHead maxBytes 0 h.holds h.holds.length_lt_fuel
  rw [h.tail] at hheld htail hcopies
  refine ⟨hheld, ?_, ?_, hanswers, hcapacity.trans h.capacity, hpolicy.trans h.policy⟩
  · rw [htail, RecordFifo.handOut, gone_depart]
  · rw [RecordFifo.handOut, handedOut_depart, if_pos rfl, flatMap_append,
      flatten_append, h.writes, flatten_flatten, hcopies]
    exact congrArg _ (flatMap_def ..).symm

theorem Refines.step (hcap : capacity < 2 ^ 64) (e : RingEvent) :
    Refines capacity policy (s.step e) (f.step capacity policy e) := by
  -- the ring is empty when the queue is
  have hleft : ∀ {t : RingRun} {g : RecordFifo}, Refines capacity policy t g →
      decide (t.ring.used ≠ 0) = decide (g.queue ≠ []) := by
    intro t g ht
    simp only [ne_eq, ht.holds.used_eq_zero_iff]
  cases e with
  | tryPush record => exact h.tryPush hcap record
  | drain maxBytes =>
    have hdrained := h.drainRounds none maxBytes [] [] rfl
    have hmore := hleft hdrained
    have hnext := h.drainRounds none maxBytes _ _
      (congrArg₂ (fun a b => a ++ [(.drain maxBytes, b)]) h.answers hmore)
    exact hnext
  | drainWindow frozenHead maxBytes =>
    have hdrained := h.drainRounds (some frozenHead) maxBytes [] [] rfl
    have hmore := hleft hdrained
    have hbelow := congrArg (fun t => decide (t < frozenHead)) hdrained.tail
    have hnext := h.drainRounds (some frozenHead) maxBytes _ _
      (congrArg₂ (fun a b => a ++ [(.drainWindow frozenHead maxBytes, b)]) h.answers
        (congrArg₂ (· && ·) hbelow hmore))
    exact hnext

/-- **After any calls** the ring is where the queue of records is. -/
theorem Refines.run (hcap : capacity < 2 ^ 64) (events : List RingEvent) :
    Refines capacity policy (s.run events) (f.run capacity policy events) := by
  induction events generalizing s f with
  | nil => exact h
  | cons e events ih => exact ih (h.step hcap e)

theorem Refines.tryPush_snd (hcap : capacity < 2 ^ 64) (record : Bytes) :
    (s.ring.tryPush record).2 = (RecordFifo.offer capacity policy f.toBoundedFifo record).2 := by
  have hanswers := (h.tryPush hcap record).answers
  rw [RingRun.step, RecordFifo.step, h.answers] at hanswers
  simpa using hanswers

end

theorem refines_byteRing (capacity : UInt64) (policy : RingPolicy) :
    Refines capacity.toNat policy (byteRing capacity policy) {} where
  holds := ByteRing.holds_empty _ _
  tail := rfl
  writes := rfl
  answers := rfl
  capacity := rfl
  policy := rfl

/-! ## What the policies do to the queue -/

namespace RecordFifo

/-- **A push is answered by the room there is.** Under `drop_newest` a record is refused exactly
when it does not fit; under `drop_oldest` the shortest row of records in its way leaves. -/
theorem offer_spec (capacity : Nat) (f : BoundedFifo Bytes) (record : Bytes) :
    let newest := offer capacity .dropNewest f record
    let oldest := offer capacity .dropOldest f record
    ((newest.2 = false ↔ capacity < weight frameSize f.queue + frameSize record) ∧
      newest.1.left = f.left ∧
      newest.1.queue = f.queue ++ if newest.2 then [record] else []) ∧
    (oldest.2 = false ↔ capacity < frameSize record) ∧
    (capacity < frameSize record → oldest.1 = f) ∧
    (frameSize record ≤ capacity → ∃ k,
      oldest.1.evicted = f.evicted ++ f.queue.take k ∧
      oldest.1.handedOut = f.handedOut ∧
      oldest.1.queue = f.queue.drop k ++ [record] ∧
      weight frameSize (f.queue.drop k) + frameSize record ≤ capacity ∧
      ∀ j < k, capacity < weight frameSize (f.queue.drop j) + frameSize record) := by
  dsimp only
  refine ⟨?_, ?_, ?_, ?_⟩
  · by_cases hfit : weight frameSize f.queue + frameSize record ≤ capacity
    · simp only [offer, if_pos hfit, push]
      simpa using hfit
    · simp only [offer, if_neg hfit, Bool.false_eq_true, if_false, append_nil, and_true, true_iff]
      exact not_le.mp hfit
  · by_cases hfit : frameSize record ≤ capacity
    · simpa [offer, if_pos hfit] using hfit
    · simpa [offer, if_neg hfit] using hfit
  · intro hlarge
    rw [offer, if_neg (not_le.mpr hlarge)]
  · intro hfit
    refine ⟨evictCount frameSize capacity (frameSize record) f.queue, ?_, ?_, ?_,
      evictCount_fits frameSize hfit f.queue, evictCount_least frameSize capacity (frameSize record) f.queue⟩
    · simp [offer, if_pos hfit]
    · simp [offer, if_pos hfit]
    · simp [offer, if_pos hfit, push, depart]

/-- A drain hands out from the front; a window drain nothing that ends behind the frozen head. -/
theorem handOut_spec (f : BoundedFifo Bytes) (frozenHead : Option Nat) (maxBytes : Nat) :
    let f' := handOut f frozenHead maxBytes
    ∃ k, f'.handedOut = f.handedOut ++ f.queue.take k ∧ f'.evicted = f.evicted ∧
      f'.queue = f.queue.drop k ∧
      ∀ frozen, frozenHead = some frozen → f.queue.take k ≠ [] →
        f.gone frameSize + weight frameSize (f.queue.take k) ≤ frozen := by
  refine ⟨readCount frameSize frozenHead maxBytes (f.gone frameSize) 0 f.queue, ?_, ?_, ?_, ?_⟩
  · simp [handOut]
  · simp [handOut]
  · rfl
  rintro frozen rfl hsome
  apply readCount_within
  -- the first record alone ends at or before the limit
  cases hqueue : f.queue with
  | nil => rw [hqueue] at hsome; exact absurd rfl hsome
  | cons record q =>
    rw [hqueue, readCount] at hsome
    split at hsome
    · rename_i hgo
      exact le_trans (Nat.le_add_right _ _) (hgo.2 frozen rfl)
    · exact absurd rfl hsome

theorem evicted_run_dropNewest (capacity : Nat) (events : List RingEvent) {f : RecordFifo}
    (h : f.evicted = []) : (f.run capacity .dropNewest events).evicted = [] := by
  refine run_invariant (fun g : RecordFifo => g.evicted = []) (fun g e hg => ?_) h events
  cases e with
  | tryPush record =>
    show (offer capacity .dropNewest g.toBoundedFifo record).1.evicted = []
    rw [evicted, ((offer_spec capacity g.toBoundedFifo record).1).2.1]
    exact hg
  | drain maxBytes =>
    obtain ⟨-, -, hsame, -, -⟩ := handOut_spec g.toBoundedFifo none maxBytes
    exact hsame.trans hg
  | drainWindow frozenHead maxBytes =>
    obtain ⟨-, -, hsame, -, -⟩ := handOut_spec g.toBoundedFifo (some frozenHead) maxBytes
    exact hsame.trans hg

/-- The record a call let in. -/
def entered : RingEvent × Bool → List Bytes
  | (.tryPush record, true) => [record]
  | _ => []

theorem admitted_run (capacity : Nat) (policy : RingPolicy) (events : List RingEvent) {f : RecordFifo}
    (h : f.admitted = f.answers.flatMap entered) :
    (f.run capacity policy events).admitted =
      (f.run capacity policy events).answers.flatMap entered := by
  refine run_invariant (fun g : RecordFifo => g.admitted = g.answers.flatMap entered)
    (fun g e hg => ?_) h events
  cases e with
  | tryPush record =>
    show (offer capacity policy g.toBoundedFifo record).1.admitted =
      (g.answers ++ [(RingEvent.tryPush record, (offer capacity policy g.toBoundedFifo record).2)]).flatMap
        entered
    rw [flatMap_append, ← hg]
    unfold offer
    split
    · split
      · exact admitted_push ..
      · exact (append_nil _).symm
    split
    · rw [admitted_push, admitted_depart]
      rfl
    · exact (append_nil _).symm
  | drain maxBytes =>
    show (handOut g.toBoundedFifo none maxBytes).admitted = (g.answers ++ [_]).flatMap entered
    rw [flatMap_append, ← hg, handOut, admitted_depart]
    exact (append_nil _).symm
  | drainWindow frozenHead maxBytes =>
    show (handOut g.toBoundedFifo (some frozenHead) maxBytes).admitted =
      (g.answers ++ [_]).flatMap entered
    rw [flatMap_append, ← hg, handOut, admitted_depart]
    exact (append_nil _).symm

end RecordFifo

end Plexus.Recording
