/-
# Plexus.Recording.RingThreads — the byte ring between one producer and one consumer
(`io/recording/byte_ring.h`, `drop_newest`).

`tryPush`, `drain` and `drainWindow` are programs over what the two threads share: the loads and
stores of head and tail, each a step of its own, and the copying of bytes between them. The two
loads of `used()` may come in either order. For the statements the shared state also keeps the
records whose head was stored, how many had their tail stored, what the ring held when the producer
last loaded the tail, and what the pushes returned.

The producer relies on the tail only growing (`ConsumerStep`); the consumer on the head only growing
and on the bytes before it staying what they are (`ProducerStep`).
-/
import Plexus.Lib.RelyGuarantee
import Plexus.Recording.RingRuns

namespace Plexus.Recording

open Lib Wire Prog ByteRing List

/-! ## What the threads share -/

/-- The ring as both threads see it, with a log of the calls. -/
structure RingShared where
  ring : ByteRing
  /-- The copies made: the frozen head of the call, if it has one, where the copy ended, and the
  writes it consists of. -/
  copies : List (Option Nat × Nat × List Bytes) := []
  admitted : List Bytes := []
  taken : Nat := 0
  observed : Nat := 0
  returned : List (Bytes × Nat × Bool) := []

inductive RingOp
  | loadHead
  | loadTail (producer : Bool)
  | storeHead (pos : Nat) (record : Bytes)
  | storeTail (pos : Nat)
  | write (pos : Nat) (bytes : Bytes)
  | read (pos n : Nat)
  | copyOut (pos n : Nat) (frozenHead : Option Nat)
  | answer (record : Bytes) (ok : Bool)

def RingOp.Ans : RingOp → Type
  | .loadHead => Nat
  | .loadTail _ => Nat
  | .read .. => Bytes
  | _ => Unit

namespace RingShared

def exec : (o : RingOp) → RingShared → o.Ans × RingShared
  | .loadHead, s => (s.ring.head, s)
  | .loadTail producer, s => (s.ring.tail, if producer then { s with observed := s.ring.used } else s)
  | .storeHead pos record, s =>
    ((), { s with ring := { s.ring with head := pos }, admitted := s.admitted ++ [record] })
  | .storeTail pos, s => ((), { s with ring := { s.ring with tail := pos }, taken := s.taken + 1 })
  | .write pos bytes, s =>
    ((), { s with ring :=
      { s.ring with store := Circular.write s.ring.capacity s.ring.store pos bytes } })
  | .read pos n, s => (Circular.read s.ring.capacity s.ring.store pos n, s)
  | .copyOut pos n frozenHead, s =>
    ((), { s with copies := s.copies ++ [(frozenHead, pos + n, s.ring.copyOut pos n)] })
  | .answer record ok, s => ((), { s with returned := s.returned ++ [(record, s.observed, ok)] })

end RingShared

/-! ## The programs -/

abbrev RingProg := Prog RingOp RingOp.Ans

/-- Which load of `used()` comes first, at each of its places: in `try_push`, twice in `peek_length`,
and at the end of a drain. -/
structure LoadOrders where
  push : Bool
  empty : Bool
  avail : Bool
  left : Bool
  deriving DecidableEq

def loadHead : RingProg Nat := op RingOp.loadHead

def loadTail (producer : Bool) : RingProg Nat := op (RingOp.loadTail producer)

def storeHead (pos : Nat) (record : Bytes) : RingProg Unit :=
  op (RingOp.storeHead pos record)

def storeTail (pos : Nat) : RingProg Unit := op (RingOp.storeTail pos)

def writeWrapped (pos : Nat) (bytes : Bytes) : RingProg Unit := op (RingOp.write pos bytes)

def readWrapped (pos n : Nat) : RingProg Bytes := op (RingOp.read pos n)

def copyOut (pos n : Nat) (frozenHead : Option Nat) : RingProg Unit :=
  op (RingOp.copyOut pos n frozenHead)

def note (record : Bytes) (ok : Bool) : RingProg Unit := op (RingOp.answer record ok)

def used (producer headFirst : Bool) : RingProg Nat :=
  if headFirst then do
    let head ← loadHead
    let tail ← loadTail producer
    pure (head - tail)
  else do
    let tail ← loadTail producer
    let head ← loadHead
    pure (head - tail)

/-- `return ok`, noted. -/
def answer (record : Bytes) (ok : Bool) : RingProg Bool := do
  note record ok
  pure ok

def tryPush (o : LoadOrders) (capacity : Nat) (record : Bytes) : RingProg Bool :=
  let counter := writeVarint (.ofNat record.length)
  let frame := counter.length + record.length
  if frame > capacity then answer record false
  else do
    let held ← used true o.push
    if capacity - held < frame then answer record false
    else do
      let pos ← loadHead
      writeWrapped pos counter
      writeWrapped (pos + counter.length) record
      storeHead (pos + frame) record
      answer record true

def peekLength (o : LoadOrders) : RingProg (Option (UInt64 × Nat)) := do
  let held ← used false o.empty
  if held = 0 then pure none
  else do
    let tail ← loadTail false
    let held ← used false o.avail
    let header ← readWrapped tail (min 10 held)
    pure (readVarint header 0)

/-- `copy_out`, and the tail moves past the record. -/
def handOver (frozenHead : Option Nat) (tail n : Nat) : RingProg Unit := do
  copyOut tail n frozenHead
  storeTail (tail + n)

/-- The loop of `drain`; every round moves at least a byte. -/
def drainLoop (o : LoadOrders) (maxBytes : Nat) : Nat → Nat → RingProg Unit
  | 0, _ => pure ()
  | fuel + 1, moved =>
    if moved < maxBytes then do
      let oldest ← peekLength o
      match oldest with
      | none => pure ()
      | some (len, header) => do
        let tail ← loadTail false
        handOver none tail (header + len.toNat)
        drainLoop o maxBytes fuel (moved + (header + len.toNat))
    else pure ()

def drain (o : LoadOrders) (maxBytes : Nat) : RingProg Bool := do
  drainLoop o maxBytes maxBytes 0
  let held ← used false o.left
  pure (held ≠ 0)

/-- The loop of `drain_window`. -/
def drainWindowLoop (o : LoadOrders) (frozenHead maxBytes : Nat) : Nat → Nat → RingProg Unit
  | 0, _ => pure ()
  | fuel + 1, moved =>
    if moved < maxBytes then do
      let tail ← loadTail false
      if frozenHead ≤ tail then pure ()
      else do
        let oldest ← peekLength o
        match oldest with
        | none => pure ()
        | some (len, header) =>
          if frozenHead < tail + (header + len.toNat) then pure ()
          else do
            handOver (some frozenHead) tail (header + len.toNat)
            drainWindowLoop o frozenHead maxBytes fuel (moved + (header + len.toNat))
    else pure ()

def drainWindow (o : LoadOrders) (frozenHead maxBytes : Nat) : RingProg Bool := do
  drainWindowLoop o frozenHead maxBytes maxBytes 0
  let tail ← loadTail false
  if tail < frozenHead then do
    let held ← used false o.left
    pure (held ≠ 0)
  else pure false

/-- What the producer's thread does. -/
def pushAll (o : LoadOrders) (capacity : Nat) : List Bytes → RingProg Unit
  | [] => pure ()
  | record :: records => do
    let _ ← tryPush o capacity record
    pushAll o capacity records

/-- What the consumer's thread does; a call with a frozen head is a `drain_window`. -/
def drainAll (o : LoadOrders) : List (Option Nat × Nat) → RingProg Unit
  | [] => pure ()
  | (none, maxBytes) :: calls => do
    let _ ← drain o maxBytes
    drainAll o calls
  | (some frozenHead, maxBytes) :: calls => do
    let _ ← drainWindow o frozenHead maxBytes
    drainAll o calls

/-! ## What holds throughout -/

namespace RingShared

/-- The accepted pushes, in order. -/
def accepted (s : RingShared) : List Bytes := (s.returned.filter (·.2.2)).map Prod.fst

/-- The ring holds whole frames of admitted records, the copies are the first of them, and the
answers went by the ring. -/
structure Sound (cap : Nat) (s : RingShared) : Prop where
  capacity : s.ring.capacity = cap
  taken_le : s.taken ≤ s.admitted.length
  holds : s.ring.Holds (s.admitted.drop s.taken)
  tail : s.ring.tail = weight frameSize (s.admitted.take s.taken)
  copies : s.copies.map (fun c => c.2.2.flatten) = (s.admitted.take s.copies.length).map framed
  ahead : s.taken ≤ s.copies.length ∧ s.copies.length ≤ s.taken + 1
  ends : s.copies.map (fun c => c.2.1) =
    (range s.copies.length).map fun i => weight frameSize (s.admitted.take (i + 1))
  windows : ∀ c ∈ s.copies, ∀ frozen, c.1 = some frozen → c.2.1 ≤ frozen
  answers : ∀ a ∈ s.returned, (a.2.2 = true ↔ a.2.1 + frameSize a.1 ≤ cap)
  pending : ∃ pending, pending.length ≤ 1 ∧ s.admitted = s.accepted ++ pending

variable {cap : Nat} {s s' : RingShared} {record : Bytes}

theorem Sound.copies_le (h : s.Sound cap) : s.copies.length ≤ s.admitted.length := by
  have hlen := congrArg length h.copies
  simp only [length_map, length_take] at hlen
  omega

theorem Sound.flatten_copies (h : s.Sound cap) :
    (s.copies.flatMap fun c => c.2.2).flatten = (s.admitted.take s.copies.length).flatMap framed := by
  rw [flatMap_def, flatten_flatten, map_map, flatMap_def, ← h.copies]
  rfl

theorem Sound.end_of_copy (h : s.Sound cap) {i : Nat} {c : Option Nat × Nat × List Bytes}
    (hc : s.copies[i]? = some c) : c.2.1 = weight frameSize (s.admitted.take (i + 1)) := by
  have hends := congrArg (·[i]?) h.ends
  obtain ⟨hlt, -⟩ := List.getElem?_eq_some_iff.mp hc
  simpa [hc, List.getElem?_range hlt] using hends

theorem Sound.exists_oldest (h : s.Sound cap) (hused : s.ring.used ≠ 0) :
    ∃ record, s.admitted[s.taken]? = some record := by
  have hlt : s.taken < s.admitted.length := by
    by_contra hge
    apply hused
    rw [h.holds.used_eq_zero_iff]
    exact drop_eq_nil_of_le (not_lt.mp hge)
  exact ⟨_, List.getElem?_eq_getElem hlt⟩

theorem drop_taken (holdest : s.admitted[s.taken]? = some record) :
    s.admitted.drop s.taken = record :: s.admitted.drop (s.taken + 1) := by
  obtain ⟨hlt, rfl⟩ := List.getElem?_eq_some_iff.mp holdest
  exact List.drop_eq_getElem_cons hlt

section

variable (h : s.Sound cap) (holdest : s.admitted[s.taken]? = some record)
include h holdest

theorem Sound.holds_oldest : s.ring.Holds (record :: s.admitted.drop (s.taken + 1)) := by
  rw [← drop_taken holdest]
  exact h.holds

theorem Sound.frame_le_used : frameSize record ≤ s.ring.used := by
  rw [(h.holds_oldest holdest).used_eq_weight]
  exact Nat.le_add_right _ _

end

/-! ## What the threads promise each other -/

/-- The producer leaves the tail and the copies alone, and only adds behind the head. -/
structure ProducerStep (cap : Nat) (s s' : RingShared) : Prop where
  tail : s'.ring.tail = s.ring.tail
  head : s.ring.head ≤ s'.ring.head
  taken : s'.taken = s.taken
  copies : s'.copies = s.copies
  admitted : s.admitted <+: s'.admitted
  sound : s.Sound cap → s'.Sound cap

/-- The consumer moves the tail forward and touches nothing of what the producer reads. -/
structure ConsumerStep (cap : Nat) (s s' : RingShared) : Prop where
  head : s'.ring.head = s.ring.head
  store : s'.ring.store = s.ring.store
  tail : s.ring.tail ≤ s'.ring.tail
  admitted : s'.admitted = s.admitted
  observed : s'.observed = s.observed
  returned : s'.returned = s.returned
  sound : s.Sound cap → s'.Sound cap

theorem ProducerStep.refl (cap : Nat) (s : RingShared) : ProducerStep cap s s :=
  ⟨rfl, le_rfl, rfl, rfl, prefix_refl _, id⟩

theorem ConsumerStep.refl (cap : Nat) (s : RingShared) : ConsumerStep cap s s :=
  ⟨rfl, rfl, le_rfl, rfl, rfl, rfl, id⟩

theorem ProducerStep.trans {a b c : RingShared} (h : ProducerStep cap a b) (h' : ProducerStep cap b c) :
    ProducerStep cap a c :=
  ⟨h'.tail.trans h.tail, le_trans h.head h'.head, h'.taken.trans h.taken, h'.copies.trans h.copies,
    h.admitted.trans h'.admitted, fun hs => h'.sound (h.sound hs)⟩

theorem ConsumerStep.trans {a b c : RingShared} (h : ConsumerStep cap a b) (h' : ConsumerStep cap b c) :
    ConsumerStep cap a c :=
  ⟨h'.head.trans h.head, h'.store.trans h.store, le_trans h.tail h'.tail,
    h'.admitted.trans h.admitted, h'.observed.trans h.observed, h'.returned.trans h.returned,
    fun hs => h'.sound (h.sound hs)⟩

def pact (cap : Nat) : Duo.Pact RingShared where
  left := ProducerStep cap
  right := ConsumerStep cap
  left_refl := ProducerStep.refl cap
  right_refl := ConsumerStep.refl cap
  left_trans := fun _ _ _ => ProducerStep.trans
  right_trans := fun _ _ _ => ConsumerStep.trans

/-- For the consumer the ring only fills up. -/
theorem ProducerStep.used_le (h : ProducerStep cap s s') : s.ring.used ≤ s'.ring.used := by
  have hhead := h.head
  have htail := h.tail
  simp only [ByteRing.used]
  omega

/-- For the producer it only empties. -/
theorem ConsumerStep.used_le (h : ConsumerStep cap s s') : s'.ring.used ≤ s.ring.used := by
  have hhead := h.head
  have htail := h.tail
  simp only [ByteRing.used]
  omega

theorem ConsumerStep.accepted (h : ConsumerStep cap s s') : s'.accepted = s.accepted := by
  rw [RingShared.accepted, h.returned, RingShared.accepted]

/-- The oldest record stays the oldest until the consumer takes it. -/
theorem ProducerStep.oldest (h : ProducerStep cap s s') (holdest : s.admitted[s.taken]? = some record) :
    s'.admitted[s'.taken]? = some record := by
  obtain ⟨hlt, -⟩ := List.getElem?_eq_some_iff.mp holdest
  obtain ⟨more, hmore⟩ := h.admitted
  rw [h.taken, ← hmore, List.getElem?_append_left hlt]
  exact holdest

/-! ## The producer -/

/-- Between two pushes. -/
structure Quiet (cap : Nat) (s : RingShared) : Prop where
  sound : s.Sound cap
  settled : s.admitted = s.accepted

theorem Quiet.stable (h : s.Quiet cap) (hs : ConsumerStep cap s s') : s'.Quiet cap :=
  ⟨hs.sound h.sound, by rw [hs.admitted, hs.accepted, h.settled]⟩

/-- A program of the producer's that ends between two records. -/
abbrev Pushes (cap : Nat) {α : Type} (p : RingProg α) (s : RingShared) : Prop :=
  p.Valid exec (ConsumerStep cap) (ProducerStep cap) (fun _ s' => s'.Quiet cap) s

/-- What the producer sees of the ring is what it held when the tail was loaded, and at least what it
holds from then on. -/
theorem valid_used_producer (headFirst : Bool) (h : s.Quiet cap) :
    (Recording.used true headFirst).Valid exec (ConsumerStep cap) (ProducerStep cap)
      (fun held s' => s'.Quiet cap ∧ s'.observed = held ∧ s'.ring.used ≤ held) s := by
  -- the load of the tail notes what it sees and changes nothing else
  have hload : ∀ t : RingShared, ProducerStep cap t { t with observed := t.ring.used } := fun t =>
    ⟨rfl, le_rfl, rfl, rfl, prefix_refl _, fun hsound => { hsound with }⟩
  have hnoted : ∀ {t : RingShared}, t.Quiet cap →
      ({ t with observed := t.ring.used } : RingShared).Quiet cap := fun {t} ht =>
    ⟨(hload t).sound ht.sound, ht.settled⟩
  cases headFirst with
  | true =>
    refine valid_op_bind.mpr fun s₁ h₁ => ⟨.refl cap s₁, ?_⟩
    refine valid_op_bind.mpr fun s₂ h₂ => ⟨hload s₂, ?_⟩
    refine valid_pure.mpr fun s₃ h₃ => ?_
    have hhead : s₂.ring.head = s₁.ring.head := h₂.head
    have hheld : s₁.ring.head - s₂.ring.tail = s₂.ring.used := by rw [← hhead, ByteRing.used]
    show s₃.Quiet cap ∧ s₃.observed = s₁.ring.head - s₂.ring.tail ∧
      s₃.ring.used ≤ s₁.ring.head - s₂.ring.tail
    rw [hheld]
    exact ⟨(hnoted ((h.stable h₁).stable h₂)).stable h₃, h₃.observed, h₃.used_le⟩
  | false =>
    refine valid_op_bind.mpr fun s₁ h₁ => ⟨hload s₁, ?_⟩
    refine valid_op_bind.mpr fun s₂ h₂ => ⟨.refl cap s₂, ?_⟩
    refine valid_pure.mpr fun s₃ h₃ => ?_
    have hhead : s₂.ring.head = s₁.ring.head := h₂.head
    have hheld : s₂.ring.head - s₁.ring.tail = s₁.ring.used := by rw [hhead, ByteRing.used]
    show s₃.Quiet cap ∧ s₃.observed = s₂.ring.head - s₁.ring.tail ∧
      s₃.ring.used ≤ s₂.ring.head - s₁.ring.tail
    rw [hheld]
    exact ⟨((hnoted (h.stable h₁)).stable h₂).stable h₃, h₃.observed.trans h₂.observed,
      le_trans h₃.used_le h₂.used_le⟩

theorem valid_answer {ok : Bool} (h : s.Sound cap)
    (hroom : ok = true ↔ s.observed + frameSize record ≤ cap)
    (hsettled : s.admitted = s.accepted ++ if ok then [record] else []) :
    Pushes cap (Recording.answer record ok) s := by
  refine valid_op_bind.mpr fun s₁ h₁ => ?_
  have hs₁ := h₁.sound h
  have haccepted : ({ s₁ with returned := s₁.returned ++ [(record, s₁.observed, ok)] } :
      RingShared).accepted = s₁.accepted ++ if ok then [record] else [] := by
    cases ok <;> simp [accepted]
  have hsettled₁ : s₁.admitted = s₁.accepted ++ if ok then [record] else [] := by
    rw [h₁.admitted, hsettled, h₁.accepted]
  have hnext : ({ s₁ with returned := s₁.returned ++ [(record, s₁.observed, ok)] } :
      RingShared).Quiet cap := by
    refine ⟨{ hs₁ with answers := ?_, pending := ?_ }, hsettled₁.trans haccepted.symm⟩
    · intro a ha
      rcases mem_append.mp ha with hold | hnew
      · exact hs₁.answers a hold
      obtain rfl := mem_singleton.mp hnew
      show ok = true ↔ s₁.observed + frameSize record ≤ cap
      rw [h₁.observed]
      exact hroom
    · exact ⟨[], Nat.zero_le _, by rw [haccepted, append_nil]; exact hsettled₁⟩
  refine ⟨⟨rfl, le_rfl, rfl, rfl, prefix_refl _, fun _ => hnext.sound⟩, ?_⟩
  exact valid_pure.mpr fun s₂ h₂ => hnext.stable h₂

/-- In the middle of a push: the head is where it was, and the room that was seen is still there. -/
structure Room (cap held pos : Nat) (s : RingShared) : Prop extends Quiet cap s where
  head : s.ring.head = pos
  observed : s.observed = held
  used_le : s.ring.used ≤ held

variable {held pos : Nat}

theorem Room.stable (h : s.Room cap held pos) (hs : ConsumerStep cap s s') : s'.Room cap held pos :=
  ⟨h.toQuiet.stable hs, hs.head.trans h.head, hs.observed.trans h.observed,
    le_trans hs.used_le h.used_le⟩

/-- Bytes behind the head are nobody's yet: a write there adds to what stands behind the head. -/
theorem Room.write {k : Nat} {done bytes : Bytes} (h : s.Room cap held pos)
    (hfit : held + (k + bytes.length) ≤ cap) (hdone : Circular.read cap s.ring.store pos k = done) :
    let s' := (exec (.write (pos + k) bytes) s).2
    ProducerStep cap s s' ∧ s'.Room cap held pos ∧
      Circular.read cap s'.ring.store pos (k + bytes.length) = done ++ bytes := by
  intro s'
  have hs := h.sound
  have hle := hs.holds.le
  have hused := h.used_le
  have hhead := h.head
  rw [ByteRing.used] at hused
  have hend : pos + k + bytes.length ≤ s.ring.tail + s.ring.capacity := by
    rw [hs.capacity]
    omega
  have hsound : s'.Sound cap := { hs with holds := hs.holds.write (by omega) hend }
  refine ⟨⟨rfl, le_rfl, rfl, rfl, prefix_refl _, fun _ => hsound⟩,
    ⟨⟨hsound, h.settled⟩, h.head, h.observed, h.used_le⟩, ?_⟩
  show Circular.read cap (Circular.write s.ring.capacity s.ring.store (pos + k) bytes) pos
    (k + bytes.length) = done ++ bytes
  rw [hs.capacity] at hend ⊢
  rw [Circular.read_write bytes (by omega), hdone]

theorem Room.storeHead (h : s.Room cap held pos) (hsize : record.length < 2 ^ 64)
    (hfit : held + frameSize record ≤ cap)
    (hbytes : Circular.read cap s.ring.store pos (frameSize record) = framed record) :
    (exec (.storeHead (pos + frameSize record) record) s).2.Sound cap := by
  have hs := h.sound
  have hle := hs.taken_le
  have hcopies := hs.copies_le
  have hroom : s.ring.used + frameSize record ≤ s.ring.capacity := by
    have hused := h.used_le
    rw [hs.capacity]
    omega
  rw [← hs.capacity, ← h.head] at hbytes
  refine ⟨hs.capacity, ?_, ?_, ?_, ?_, hs.ahead, ?_, hs.windows, hs.answers, ?_⟩
  · show s.taken ≤ (s.admitted ++ [record]).length
    rw [length_append]
    omega
  · show ByteRing.Holds { s.ring with head := pos + frameSize record }
      ((s.admitted ++ [record]).drop s.taken)
    rw [drop_append_of_le_length hle, ← h.head]
    exact hs.holds.extend hsize hroom hbytes
  · show s.ring.tail = weight frameSize ((s.admitted ++ [record]).take s.taken)
    rw [take_append_of_le_length hle]
    exact hs.tail
  · show s.copies.map (fun c => c.2.2.flatten) =
      ((s.admitted ++ [record]).take s.copies.length).map framed
    rw [take_append_of_le_length hcopies]
    exact hs.copies
  · show s.copies.map (fun c => c.2.1) = (range s.copies.length).map fun i =>
      weight frameSize ((s.admitted ++ [record]).take (i + 1))
    rw [hs.ends]
    apply map_congr_left
    intro i hi
    rw [mem_range] at hi
    rw [take_append_of_le_length (by omega)]
  · exact ⟨[record], le_rfl, congrArg (· ++ [record]) h.settled⟩

variable (o : LoadOrders)

/-- **A push** leaves the producer where it was, with its answer noted. -/
theorem valid_tryPush (hcap : cap < 2 ^ 64) (record : Bytes) (h : s.Quiet cap) :
    Pushes cap (Recording.tryPush o cap record) s := by
  have hframe : (writeVarint (.ofNat record.length)).length + record.length = frameSize record := by
    rw [frameSize, framed, length_append]
  have hpos : 0 < frameSize record := length_framed_pos record
  have hrefuse : ∀ {t : RingShared}, t.Quiet cap → cap < t.observed + frameSize record →
      Pushes cap (Recording.answer record false) t := by
    intro t ht hfull
    refine valid_answer ht.sound ?_ ?_
    · simp only [Bool.false_eq_true, false_iff, not_le]
      exact hfull
    · simpa using ht.settled
  simp only [Recording.tryPush, hframe]
  split
  · rename_i hlarge
    exact hrefuse h (by omega)
  rename_i hcapacity
  refine valid_bind (.refl cap) (valid_used_producer o.push h) ?_
  rintro held s₁ ⟨h₁, hobserved, hheld⟩
  split
  · exact hrefuse h₁ (by omega)
  have hr₁ : s₁.Room cap held s₁.ring.head := ⟨h₁, rfl, hobserved, hheld⟩
  refine valid_op_bind.mpr fun s₂ h₂ => ⟨.refl cap s₂, ?_⟩
  have hr₂ : s₂.Room cap held s₂.ring.head := ⟨(hr₁.stable h₂).toQuiet, rfl, (hr₁.stable h₂).observed,
    (hr₁.stable h₂).used_le⟩
  -- the counter, and the record behind it
  refine valid_op_bind.mpr fun s₃ h₃ => ?_
  obtain ⟨hstep₃, hr₃, hbytes₃⟩ := (hr₂.stable h₃).write
    (show held + (0 + (writeVarint (.ofNat record.length)).length) ≤ cap by omega)
    (Circular.read_zero cap s₃.ring.store s₂.ring.head)
  rw [zero_add] at hbytes₃
  refine ⟨hstep₃, valid_op_bind.mpr fun s₄ h₄ => ?_⟩
  have hcounter : Circular.read cap s₄.ring.store s₂.ring.head
      (writeVarint (.ofNat record.length)).length = writeVarint (.ofNat record.length) :=
    (congrArg (fun store => Circular.read cap store _ _) h₄.store).trans hbytes₃
  obtain ⟨hstep₄, hr₄, hbytes₄⟩ := (hr₃.stable h₄).write
    (show held + ((writeVarint (.ofNat record.length)).length + record.length) ≤ cap by omega) hcounter
  rw [hframe] at hbytes₄
  refine ⟨hstep₄, valid_op_bind.mpr fun s₅ h₅ => ?_⟩
  -- the head
  have hr₅ := hr₄.stable h₅
  have hwritten : Circular.read cap s₅.ring.store s₂.ring.head (frameSize record) = framed record :=
    (congrArg (fun store => Circular.read cap store _ _) h₅.store).trans hbytes₄
  have hsound := hr₅.storeHead (by omega) (by omega) hwritten
  have hhead₅ := hr₅.head
  refine ⟨⟨rfl, ?_, rfl, rfl, prefix_append _ _, fun _ => hsound⟩, ?_⟩
  · show s₅.ring.head ≤ s₂.ring.head + frameSize record
    omega
  refine valid_answer hsound ?_ ?_
  · simp only [true_iff]
    show s₅.observed + frameSize record ≤ cap
    rw [hr₅.observed]
    omega
  · exact congrArg (· ++ [record]) hr₅.settled

theorem valid_pushAll (hcap : cap < 2 ^ 64) (records : List Bytes) (h : s.Quiet cap) :
    Pushes cap (Recording.pushAll o cap records) s := by
  induction records generalizing s with
  | nil => exact valid_pure.mpr fun s' hs => h.stable hs
  | cons record records ih =>
    exact valid_bind (.refl cap) (valid_tryPush o hcap record h) fun _ s' hs => ih hs

/-! ## The consumer -/

/-- Between two records: every copy has its tail stored. -/
structure Idle (cap : Nat) (s : RingShared) : Prop where
  sound : s.Sound cap
  settled : s.copies.length = s.taken

theorem Idle.stable (h : s.Idle cap) (hs : ProducerStep cap s s') : s'.Idle cap :=
  ⟨hs.sound h.sound, by rw [hs.copies, hs.taken, h.settled]⟩

/-- A program of the consumer's that ends between two records. -/
abbrev Drains (cap : Nat) {α : Type} (p : RingProg α) (s : RingShared) : Prop :=
  p.Valid exec (ProducerStep cap) (ConsumerStep cap) (fun _ s' => s'.Idle cap) s

/-- What the consumer sees of the ring is at least what it held before and at most what it holds
after. -/
theorem valid_used_consumer (headFirst : Bool) {least : Nat} (hleast : least ≤ s.ring.used) :
    (Recording.used false headFirst).Valid exec (ProducerStep cap) (ConsumerStep cap)
      (fun held s' => ProducerStep cap s s' ∧ least ≤ held ∧ held ≤ s'.ring.used) s := by
  cases headFirst with
  | true =>
    refine valid_op_bind.mpr fun s₁ h₁ => ⟨.refl cap s₁, ?_⟩
    refine valid_op_bind.mpr fun s₂ h₂ => ⟨.refl cap s₂, ?_⟩
    refine valid_pure.mpr fun s₃ h₃ => ⟨(h₁.trans h₂).trans h₃, ?_⟩
    have hheld : s₁.ring.head - s₂.ring.tail = s₁.ring.used := by
      rw [show s₂.ring.tail = s₁.ring.tail from h₂.tail, ByteRing.used]
    show least ≤ s₁.ring.head - s₂.ring.tail ∧ s₁.ring.head - s₂.ring.tail ≤ s₃.ring.used
    rw [hheld]
    exact ⟨le_trans hleast h₁.used_le, (h₂.trans h₃).used_le⟩
  | false =>
    refine valid_op_bind.mpr fun s₁ h₁ => ⟨.refl cap s₁, ?_⟩
    refine valid_op_bind.mpr fun s₂ h₂ => ⟨.refl cap s₂, ?_⟩
    refine valid_pure.mpr fun s₃ h₃ => ⟨(h₁.trans h₂).trans h₃, ?_⟩
    have hheld : s₂.ring.head - s₁.ring.tail = s₂.ring.used := by
      rw [← show s₂.ring.tail = s₁.ring.tail from h₂.tail, ByteRing.used]
    show least ≤ s₂.ring.head - s₁.ring.tail ∧ s₂.ring.head - s₁.ring.tail ≤ s₃.ring.used
    rw [hheld]
    exact ⟨le_trans hleast (h₁.trans h₂).used_le, h₃.used_le⟩

theorem valid_peekLength (h : s.Idle cap) :
    (Recording.peekLength o).Valid exec (ProducerStep cap) (ConsumerStep cap)
      (fun oldest s' => ProducerStep cap s s' ∧ ∀ len header, oldest = some (len, header) →
        ∃ record, s'.admitted[s'.taken]? = some record ∧ header + len.toNat = frameSize record) s := by
  refine valid_bind (.refl cap) (valid_used_consumer o.empty (Nat.zero_le _)) ?_
  rintro held s₁ ⟨h₁, -, hheld⟩
  split
  · exact valid_pure.mpr fun s₂ h₂ => ⟨h₁.trans h₂, fun _ _ hsome => (nomatch hsome)⟩
  rename_i hsome
  obtain ⟨record, holdest⟩ := (h.stable h₁).sound.exists_oldest
    (ne_of_gt (lt_of_lt_of_le (Nat.pos_of_ne_zero hsome) hheld))
  refine valid_op_bind.mpr fun s₂ h₂ => ⟨.refl cap s₂, ?_⟩
  have hs₂ := (h.stable (h₁.trans h₂)).sound
  refine valid_bind (.refl cap)
    (valid_used_consumer o.avail (hs₂.frame_le_used (h₂.oldest holdest))) ?_
  rintro avail s₃ ⟨h₃, hframe, havail⟩
  refine valid_op_bind.mpr fun s₄ h₄ => ⟨.refl cap s₄, ?_⟩
  have hs₄ := (h.stable (((h₁.trans h₂).trans h₃).trans h₄)).sound
  have holdest₄ := h₄.oldest (h₃.oldest (h₂.oldest holdest))
  have hholds := hs₄.holds_oldest holdest₄
  -- the bytes read are the beginning of its frame
  have hread : Circular.read s₄.ring.capacity s₄.ring.store s₂.ring.tail (min 10 avail) =
      (framed record ++ (s₄.admitted.drop (s₄.taken + 1)).flatMap framed).take (min 10 avail) := by
    rw [show s₂.ring.tail = s₄.ring.tail from ((h₃.trans h₄).tail).symm,
      hholds.read_take (le_trans (Nat.min_le_right _ _) (le_trans havail h₄.used_le)),
      flatMap_cons]
  have hcounter : (writeVarint (.ofNat record.length)).length ≤ min 10 avail := by
    have hten := length_writeVarint_le (.ofNat record.length)
    rw [frameSize, framed, length_append] at hframe
    omega
  refine valid_pure.mpr fun s₅ h₅ => ⟨(((h₁.trans h₂).trans h₃).trans h₄).trans h₅, ?_⟩
  intro len header heq
  refine ⟨record, h₅.oldest holdest₄, ?_⟩
  have hvarint : readVarint (Circular.read s₄.ring.capacity s₄.ring.store s₂.ring.tail (min 10 avail)) 0 =
      some (len, header) := heq
  rw [hread, readVarint_take_framed record _ hcounter] at hvarint
  obtain ⟨rfl, rfl⟩ := Prod.mk.inj (Option.some.inj hvarint)
  exact hholds.frame_length

theorem Idle.copyOut (h : s.Idle cap) (holdest : s.admitted[s.taken]? = some record)
    (frozenHead : Option Nat)
    (hfrozen : ∀ frozen, frozenHead = some frozen → s.ring.tail + frameSize record ≤ frozen) :
    (exec (.copyOut s.ring.tail (frameSize record) frozenHead) s).2.Sound cap := by
  have hs := h.sound
  have hholds := hs.holds_oldest holdest
  have hfit : frameSize record ≤ s.ring.capacity :=
    le_trans (hs.frame_le_used holdest) hs.holds.fits
  have htake : s.admitted.take (s.taken + 1) = s.admitted.take s.taken ++ [record] := by
    rw [take_add_one, holdest]
    rfl
  refine { hs with copies := ?_, ahead := ?_, ends := ?_, windows := ?_ }
  · show (s.copies ++ [_]).map (fun c : Option Nat × Nat × List Bytes => c.2.2.flatten) =
      (s.admitted.take (s.copies ++ [_]).length).map framed
    rw [map_append, length_append, length_singleton, hs.copies, h.settled, htake,
      map_append, map_singleton,
      flatten_copyOut s.ring s.ring.tail hfit]
    exact congrArg (fun bytes => (s.admitted.take s.taken).map framed ++ [bytes]) hholds.pop.2
  · show s.taken ≤ (s.copies ++ [_]).length ∧ (s.copies ++ [_]).length ≤ s.taken + 1
    rw [length_append, length_singleton, h.settled]
    omega
  · show (s.copies ++ [_]).map (fun c : Option Nat × Nat × List Bytes => c.2.1) =
      (range (s.copies ++ [_]).length).map fun i => weight frameSize (s.admitted.take (i + 1))
    rw [map_append, length_append, length_singleton, range_succ, map_append,
      hs.ends, map_singleton, map_singleton, h.settled, htake, weight_append, ← hs.tail,
      weight_cons, weight_nil, add_zero]
  · intro c hc frozen hfroz
    rcases mem_append.mp hc with hold | hnew
    · exact hs.windows c hold frozen hfroz
    · obtain rfl := mem_singleton.mp hnew
      exact hfrozen frozen hfroz

theorem Sound.storeTail (hs : s.Sound cap) (hcopied : s.copies.length = s.taken + 1)
    (holdest : s.admitted[s.taken]? = some record) :
    (exec (.storeTail (s.ring.tail + frameSize record)) s).2.Idle cap := by
  obtain ⟨hlt, -⟩ := List.getElem?_eq_some_iff.mp holdest
  refine ⟨{ hs with
    taken_le := hlt, holds := (hs.holds_oldest holdest).pop.1, tail := ?_, ahead := ?_ }, hcopied⟩
  · show s.ring.tail + frameSize record = weight frameSize (s.admitted.take (s.taken + 1))
    rw [take_add_one, holdest, Option.toList_some, weight_append, ← hs.tail, weight_cons, weight_nil,
      add_zero]
  · show s.taken + 1 ≤ s.copies.length ∧ s.copies.length ≤ s.taken + 1 + 1
    omega

theorem valid_handOver (h : s.Idle cap) (holdest : s.admitted[s.taken]? = some record)
    {frozenHead : Option Nat}
    (hfrozen : ∀ frozen, frozenHead = some frozen → s.ring.tail + frameSize record ≤ frozen) :
    Drains cap (Recording.handOver frozenHead s.ring.tail (frameSize record)) s := by
  refine valid_op_bind.mpr fun s₁ h₁ => ?_
  have hi₁ := h.stable h₁
  have holdest₁ := h₁.oldest holdest
  have hcopied := hi₁.copyOut holdest₁ frozenHead (by rw [h₁.tail]; exact hfrozen)
  rw [h₁.tail] at hcopied
  refine ⟨⟨rfl, rfl, le_rfl, rfl, rfl, rfl, fun _ => hcopied⟩, fun s₂ h₂ => ?_⟩
  have hs₂ := h₂.sound hcopied
  have hlen : s₂.copies.length = s₂.taken + 1 := by
    rw [h₂.copies, h₂.taken]
    show (s₁.copies ++ [_]).length = s₁.taken + 1
    rw [length_append, hi₁.settled, length_singleton]
  have hnext := hs₂.storeTail hlen (h₂.oldest holdest₁)
  have htail : s₂.ring.tail = s.ring.tail := h₂.tail.trans h₁.tail
  rw [htail] at hnext
  refine ⟨⟨rfl, rfl, ?_, rfl, rfl, rfl, fun _ => hnext.sound⟩, fun s₃ h₃ => hnext.stable h₃⟩
  show s₂.ring.tail ≤ s.ring.tail + frameSize record
  omega

theorem valid_drainLoop (maxBytes fuel moved : Nat) (h : s.Idle cap) :
    Drains cap (Recording.drainLoop o maxBytes fuel moved) s := by
  induction fuel generalizing s moved with
  | zero => exact valid_pure.mpr fun s' hs => h.stable hs
  | succ fuel ih =>
    rw [Recording.drainLoop]
    split
    · refine valid_bind (.refl cap) (valid_peekLength o h) ?_
      rintro (_ | ⟨len, header⟩) s₁ ⟨h₁, hpeek⟩
      · exact valid_pure.mpr fun s₂ h₂ => h.stable (h₁.trans h₂)
      obtain ⟨record, holdest, hlen⟩ := hpeek len header rfl
      refine valid_op_bind.mpr fun s₂ h₂ => ⟨.refl cap s₂, ?_⟩
      refine valid_bind (.refl cap) ?_ fun _ s₃ h₃ => ih _ h₃
      rw [hlen]
      exact valid_handOver (h.stable (h₁.trans h₂)) (h₂.oldest holdest) fun _ hnone => (nomatch hnone)
    · exact valid_pure.mpr fun s' hs => h.stable hs

theorem valid_drainWindowLoop (frozenHead maxBytes fuel moved : Nat) (h : s.Idle cap) :
    Drains cap (Recording.drainWindowLoop o frozenHead maxBytes fuel moved) s := by
  induction fuel generalizing s moved with
  | zero => exact valid_pure.mpr fun s' hs => h.stable hs
  | succ fuel ih =>
    rw [Recording.drainWindowLoop]
    split
    · refine valid_op_bind.mpr fun s₁ h₁ => ⟨.refl cap s₁, ?_⟩
      split
      · exact valid_pure.mpr fun s₂ h₂ => h.stable (h₁.trans h₂)
      refine valid_bind (.refl cap) (valid_peekLength o (h.stable h₁)) ?_
      rintro (_ | ⟨len, header⟩) s₂ ⟨h₂, hpeek⟩
      · exact valid_pure.mpr fun s₃ h₃ => h.stable ((h₁.trans h₂).trans h₃)
      obtain ⟨record, holdest, hlen⟩ := hpeek len header rfl
      have htail : s₂.ring.tail = (exec (.loadTail false) s₁).1 := h₂.tail
      rw [← htail]
      show Prog.Valid exec _ _ _ (if frozenHead < s₂.ring.tail + (header + len.toNat) then _ else _) s₂
      rw [hlen]
      split
      · exact valid_pure.mpr fun s₃ h₃ => h.stable ((h₁.trans h₂).trans h₃)
      rename_i hinside
      refine valid_bind (.refl cap) ?_ fun _ s₃ h₃ => ih _ h₃
      apply valid_handOver (h.stable (h₁.trans h₂)) holdest
      intro frozen hfrozen
      obtain rfl := Option.some.inj hfrozen
      exact not_lt.mp hinside
    · exact valid_pure.mpr fun s' hs => h.stable hs

theorem valid_left (headFirst : Bool) (h : s.Idle cap) :
    Drains cap (do let held ← Recording.used false headFirst; pure (decide (held ≠ 0))) s := by
  refine valid_bind (.refl cap) (valid_used_consumer headFirst (Nat.zero_le _)) ?_
  rintro held s₁ ⟨h₁, -, -⟩
  exact valid_pure.mpr fun s₂ h₂ => h.stable (h₁.trans h₂)

theorem valid_drainAll (calls : List (Option Nat × Nat)) (h : s.Idle cap) :
    Drains cap (Recording.drainAll o calls) s := by
  induction calls generalizing s with
  | nil => exact valid_pure.mpr fun s' hs => h.stable hs
  | cons call calls ih =>
    obtain ⟨frozenHead, maxBytes⟩ := call
    cases frozenHead with
    | none =>
      refine valid_bind (.refl cap) ?_ fun _ s' hs => ih hs
      refine valid_bind (.refl cap) (valid_drainLoop o maxBytes maxBytes 0 h) ?_
      exact fun _ s₁ h₁ => valid_left o.left h₁
    | some frozenHead =>
      refine valid_bind (.refl cap) ?_ fun _ s' hs => ih hs
      refine valid_bind (.refl cap) (valid_drainWindowLoop o frozenHead maxBytes maxBytes 0 h) ?_
      intro _ s₁ h₁
      refine valid_op_bind.mpr fun s₂ h₂ => ⟨.refl cap s₂, ?_⟩
      split
      · exact valid_left o.left (h₁.stable h₂)
      · exact valid_pure.mpr fun s₃ h₃ => h₁.stable (h₂.trans h₃)

/-! ## Both together -/

/-- A fresh ring shared by a producer with these records and a consumer with these calls. -/
def duo (capacity : UInt64) (records : List Bytes) (calls : List (Option Nat × Nat)) :
    Duo RingOp RingOp.Ans Unit Unit RingShared where
  left := pushAll o capacity.toNat records
  right := drainAll o calls
  shared := { ring := { capacity := capacity.toNat } }

/-- **Whatever the interleaving**, the ring is sound. -/
theorem sound_duo (capacity : UInt64) (records : List Bytes)
    (calls : List (Option Nat × Nat)) (schedule : List Bool) :
    ((duo o capacity records calls).run exec schedule).shared.Sound capacity.toNat := by
  have hfresh : (duo o capacity records calls).shared.Sound capacity.toNat :=
    { capacity := rfl, taken_le := le_rfl, holds := holds_empty _ _, tail := rfl
      copies := rfl, ahead := ⟨le_rfl, Nat.zero_le _⟩, ends := rfl
      windows := fun _ hc => (nomatch hc), answers := fun _ ha => (nomatch ha)
      pending := ⟨[], Nat.zero_le _, rfl⟩ }
  have hvalid : (duo o capacity records calls).Valid exec (pact capacity.toNat)
      (fun _ s => s.Quiet capacity.toNat) (fun _ s => s.Idle capacity.toNat) :=
    ⟨valid_pushAll o capacity.toNat_lt records ⟨hfresh, rfl⟩, valid_drainAll o calls ⟨hfresh, rfl⟩⟩
  exact hvalid.invariant (fun s => s.Sound capacity.toNat) (fun h => h.sound) (fun h => h.sound) hfresh
    schedule

end RingShared

/-! ## The ring is a queue of whole records -/

/-- **The byte ring is a FIFO of whole records**, after any calls under either policy and, under
`drop_newest`, whatever the interleaving of a producer and a consumer.

After any calls the ring holds no more than its capacity and the unread bytes are the frames of the
records in the queue; the sinks were written the frames of the admitted records but for the evicted
ones, in order, and the callers were answered as the queue answers. Under `drop_newest` nothing is
evicted and a record is refused exactly if it does not fit the free space; under `drop_oldest` the
shortest row of unread records that makes room goes, and a window drain hands out nothing that ends
behind the frozen head.

Between two threads the same is true in every state: the consumer's copies are the frames of the
first records admitted, one more at most than had their tail stored, and a push is answered by what
the ring held when it loaded the tail. -/
theorem byteRing_fifo (capacity : UInt64) :
    (∀ (policy : RingPolicy) (events : List RingEvent),
      let s := (byteRing capacity policy).run events
      let f := ({} : RecordFifo).run capacity.toNat policy events
      s.ring.used ≤ capacity.toNat ∧
        Circular.read s.ring.capacity s.ring.store s.ring.tail s.ring.used = f.queue.flatMap framed ∧
        s.writes.flatten = f.handedOut.flatMap framed ∧
        s.answers = f.answers ∧ f.admitted = s.answers.flatMap RecordFifo.entered) ∧
    (∀ (events : List RingEvent) (record : Bytes),
      let s := (byteRing capacity .dropNewest).run events
      (({} : RecordFifo).run capacity.toNat .dropNewest events).evicted = [] ∧
        ((s.ring.tryPush record).2 = false ↔ capacity.toNat - s.ring.used < frameSize record)) ∧
    (∀ (events : List RingEvent) (record : Bytes),
      let s := (byteRing capacity .dropOldest).run events
      let f := ({} : RecordFifo).run capacity.toNat .dropOldest events
      let f' := ({} : RecordFifo).run capacity.toNat .dropOldest (events ++ [.tryPush record])
      ((s.ring.tryPush record).2 = false ↔ capacity.toNat < frameSize record) ∧
        (capacity.toNat < frameSize record → f'.toBoundedFifo = f.toBoundedFifo) ∧
        (frameSize record ≤ capacity.toNat → ∃ k, f'.evicted = f.evicted ++ f.queue.take k ∧
          f'.handedOut = f.handedOut ∧ f'.queue = f.queue.drop k ++ [record] ∧
          weight frameSize (f.queue.drop k) + frameSize record ≤ capacity.toNat ∧
          ∀ j < k, capacity.toNat < weight frameSize (f.queue.drop j) + frameSize record)) ∧
    (∀ (policy : RingPolicy) (events : List RingEvent) (frozenHead maxBytes : Nat),
      let f := ({} : RecordFifo).run capacity.toNat policy events
      let f' := ({} : RecordFifo).run capacity.toNat policy (events ++ [.drainWindow frozenHead maxBytes])
      ∃ k, f'.handedOut = f.handedOut ++ f.queue.take k ∧ f'.evicted = f.evicted ∧
        f'.queue = f.queue.drop k ∧
        (f.queue.take k ≠ [] →
          ((byteRing capacity policy).run events).ring.tail + weight frameSize (f.queue.take k) ≤
            frozenHead)) ∧
    (∀ (o : LoadOrders) (records : List Bytes) (calls : List (Option Nat × Nat))
        (schedule : List Bool),
      let s := ((RingShared.duo o capacity records calls).run RingShared.exec schedule).shared
      s.ring.used ≤ capacity.toNat ∧
        Circular.read s.ring.capacity s.ring.store s.ring.tail s.ring.used =
          (s.admitted.drop s.taken).flatMap framed ∧
        (s.copies.flatMap fun c => c.2.2).flatten = (s.admitted.take s.copies.length).flatMap framed ∧
        s.taken ≤ s.copies.length ∧ s.copies.length ≤ s.taken + 1 ∧
        (∃ pending, pending.length ≤ 1 ∧ s.admitted = s.accepted ++ pending) ∧
        (∀ a ∈ s.returned, (a.2.2 = false ↔ capacity.toNat - a.2.1 < frameSize a.1)) ∧
        (∀ i c, s.copies[i]? = some c → ∀ frozen, c.1 = some frozen →
          weight frameSize (s.admitted.take (i + 1)) ≤ frozen)) := by
  have hrefines : ∀ policy events, Refines capacity.toNat policy ((byteRing capacity policy).run events)
      (({} : RecordFifo).run capacity.toNat policy events) :=
    fun policy events => (refines_byteRing capacity policy).run capacity.toNat_lt events
  refine ⟨fun policy events => ?_, fun events record => ?_, fun events record => ?_,
    fun policy events frozenHead maxBytes => ?_, fun o records calls schedule => ?_⟩
  · have h := hrefines policy events
    refine ⟨?_, h.holds.bytes, h.writes, h.answers, ?_⟩
    · exact h.holds.fits.trans_eq h.capacity
    · rw [h.answers]
      exact RecordFifo.admitted_run capacity.toNat policy events rfl
  · have h := hrefines .dropNewest events
    refine ⟨RecordFifo.evicted_run_dropNewest capacity.toNat events rfl, ?_⟩
    rw [h.tryPush_snd capacity.toNat_lt, (RecordFifo.offer_spec _ _ _).1.1, ← h.holds.used_eq_weight]
    have hfits := h.holds.fits.trans_eq h.capacity
    omega
  · have h := hrefines .dropOldest events
    have hspec := (RecordFifo.offer_spec capacity.toNat
      (({} : RecordFifo).run capacity.toNat .dropOldest events).toBoundedFifo record).2
    simp only [RecordFifo.run_concat]
    rw [h.tryPush_snd capacity.toNat_lt]
    exact hspec
  · simp only [RecordFifo.run_concat]
    obtain ⟨k, hout, hevicted, hqueue, hwithin⟩ := RecordFifo.handOut_spec
      (({} : RecordFifo).run capacity.toNat policy events).toBoundedFifo (some frozenHead) maxBytes
    refine ⟨k, hout, hevicted, hqueue, fun hsome => ?_⟩
    rw [(hrefines policy events).tail]
    exact hwithin frozenHead rfl hsome
  · have h := RingShared.sound_duo o capacity records calls schedule
    refine ⟨h.holds.fits.trans_eq h.capacity, h.holds.bytes, h.flatten_copies, h.ahead.1,
      h.ahead.2, h.pending, fun a ha => ?_, fun i c hc frozen hfrozen => ?_⟩
    · rw [← Bool.not_eq_true, h.answers a ha]
      have hpos : 0 < frameSize a.1 := ByteRing.length_framed_pos a.1
      omega
    · rw [← h.end_of_copy hc]
      exact h.windows c (List.mem_of_getElem? hc) frozen hfrozen

/-- A ring of eight bytes with two records makes room for a third; a producer and a consumer take
turns. -/
theorem byteRing_fifo_eight :
    (frameSize [6, 7, 8] ≤ (8 : UInt64).toNat ∧
      ∃ k, (({} : RecordFifo).run (8 : UInt64).toNat .dropOldest
          [.tryPush [1, 2, 3], .tryPush [4, 5], .tryPush [6, 7, 8]]).evicted = [[1, 2, 3], [4, 5]].take k ∧
        weight frameSize ([[1, 2, 3], [4, 5]].drop k) + frameSize [6, 7, 8] ≤ (8 : UInt64).toNat ∧
        ∀ j < k, (8 : UInt64).toNat < weight frameSize ([[1, 2, 3], [4, 5]].drop j) + frameSize [6, 7, 8]) ∧
    let s := ((RingShared.duo ⟨true, true, true, true⟩ 8 [[1, 2]] [(some 3, 1)]).run RingShared.exec
      (List.replicate 8 true ++ List.replicate 10 false)).shared
    s.copies = [(some 3, 3, [[2, 1, 2]])] ∧ s.returned = [([1, 2], 0, true)] ∧
      weight frameSize (s.admitted.take 1) ≤ 3 := by
  obtain ⟨k, hevicted, -, -, hfits, hleast⟩ := ((byteRing_fifo 8).2.2.1
    [.tryPush [1, 2, 3], .tryPush [4, 5]] [6, 7, 8]).2.2 (by decide)
  refine ⟨⟨by decide, k, hevicted, hfits, hleast⟩, by decide, by decide, ?_⟩
  obtain ⟨-, -, -, -, -, -, -, hwindows⟩ := (byteRing_fifo 8).2.2.2.2 ⟨true, true, true, true⟩ [[1, 2]]
    [(some 3, 1)] (List.replicate 8 true ++ List.replicate 10 false)
  exact hwindows 0 (some 3, 3, [[2, 1, 2]]) (by decide) 3 rfl

end Plexus.Recording
