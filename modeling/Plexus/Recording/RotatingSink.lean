/-
# Plexus.Recording.RotatingSink — a capture spread over segment files
(`recording/host/rotating_sink.h`).

At every write the sink decides whether to open the next segment, which begins with the primed
preamble. The recorder hands a record over in one write, or in two where it goes around the end of
its ring. A `Capture` is a recorder with such a sink; its own `sink` is what one that never rotates
would have been given.

As long as no rotation falls between the writes of a record every segment is the preamble with some
of the frames behind it (`Parted`) and reads back by itself. A rotation between the two closes a
segment in the middle of a frame (`Torn`), and reading it reports that.
-/
import Plexus.Recording.Recover
import Plexus.Recording.RingRuns

namespace Plexus.Recording

open Lib Wire Plexus.Stream List

/-! ## `rotating_sink.h` -/

/-- The sink with the bytes of its segments. The clock's readings are numbered; nothing is said
about them. -/
structure RotatingSink where
  maxBytes : Option Nat := none
  maxInterval : Option Nat := none
  clock : Nat → Nat := fun _ => 0
  readings : Nat := 0
  openedAt : Nat := 0
  closed : List Bytes := []
  active : Bytes := []
  preamble : Bytes := []

namespace RotatingSink

variable (s : RotatingSink)

def segments : List Bytes := s.closed ++ [s.active]

/-- What the active segment holds is `m_segment_bytes`. -/
def shouldRotate (incoming : Nat) : Bool :=
  if s.active.length = 0 then false
  else
    s.maxBytes.any (fun limit => limit < s.active.length + incoming) ||
      s.maxInterval.any (fun limit => limit ≤ s.clock s.readings - s.openedAt)

def openSegment : RotatingSink :=
  { s with closed := s.closed ++ [s.active], active := [], openedAt := s.clock (s.readings + 1) }

def rotate : RotatingSink :=
  let s := s.openSegment
  if s.preamble.isEmpty then s else { s with active := s.active ++ s.preamble }

def write (bytes : Bytes) : RotatingSink :=
  let s := if s.shouldRotate bytes.length then s.rotate else s
  { s with active := s.active ++ bytes, readings := s.readings + 2 }

def primePreamble (preamble : Bytes) : RotatingSink := { s with preamble }

/-- A sink as it is built. -/
def fresh (maxBytes maxInterval : Option Nat) (clock : Nat → Nat) : RotatingSink :=
  { maxBytes, maxInterval, clock, openedAt := clock 0, readings := 1 }

/-- One of these writes makes the sink rotate. -/
def rotatesWithin (s : RotatingSink) : List Bytes → Bool
  | [] => false
  | w :: ws => s.shouldRotate w.length || (s.write w).rotatesWithin ws

/-- A rotation falls between the writes of a record. -/
def tears : List Bytes → Bool
  | [] => false
  | w :: ws => (s.write w).rotatesWithin ws

end RotatingSink

/-! ## A recorder with a rotating sink -/

/-- A recorder writing into a rotating sink. -/
structure Capture where
  recorder : FlatRecorder
  sink : RotatingSink
  /-- A rotation fell between the writes of a record (not part of the source). -/
  torn : Bool := false

inductive CaptureEvent
  | recorder (e : RecorderEvent)
  | rotate
  deriving DecidableEq

/-- What the recorder sees of an event. -/
def CaptureEvent.recorder? : CaptureEvent → Option RecorderEvent
  | .recorder e => some e
  | .rotate => none

namespace Capture

/-- The writes of one record. -/
def handOver (c : Capture) (writes : List Bytes) : Capture :=
  { c with sink := writes.foldl RotatingSink.write c.sink, torn := c.torn || c.sink.tears writes }

def step (c : Capture) : CaptureEvent → Capture
  | .recorder e =>
    let next := { c with recorder := c.recorder.step e }
    match e with
    | .pump =>
      if c.recorder.overrun then c
      else (c.recorder.ring.drainCopies c.recorder.drainBatch).2.1.foldl handOver next
    | .record .. => next
  | .rotate => { c with sink := c.sink.rotate }

def run (c : Capture) (events : List CaptureEvent) : Capture := events.foldl step c

end Capture

/-- The recorder's opening write is its preamble, which is then primed. -/
def capture (recorder : FlatRecorder) (maxBytes maxInterval : Option Nat) (clock : Nat → Nat) : Capture :=
  { recorder
    sink := ((RotatingSink.fresh maxBytes maxInterval clock).write recorder.preamble).primePreamble
      recorder.preamble }

/-! ## Segments of whole frames -/

/-- A segment that holds these records. -/
def segment (preamble : Bytes) (items : List StreamItem) : Bytes :=
  preamble ++ items.flatMap StreamItem.frame

theorem segment_nil (preamble : Bytes) : segment preamble [] = preamble := append_nil _

theorem segment_concat (preamble : Bytes) (items : List StreamItem) (x : StreamItem) :
    segment preamble items ++ x.frame = segment preamble (items ++ [x]) := by
  rw [segment, segment, append_assoc, flatMap_append, flatMap_singleton]

/-- A segment that ends in the middle of a frame. -/
def Torn (preamble seg : Bytes) : Prop :=
  ∃ (items : List StreamItem) (x : StreamItem) (part rest : Bytes),
    (∀ y ∈ items, y.payload.length < 2 ^ 64 - 1) ∧ x.payload.length < 2 ^ 64 - 1 ∧ part ++ rest = x.frame ∧
      rest ≠ [] ∧ part ≠ [] ∧ seg = segment preamble items ++ part

variable {x : StreamItem}

namespace RotatingSink

variable {s : RotatingSink} {P : Bytes} {groups : List (List StreamItem)} {group : List StreamItem}

/-- The segments are the preamble with these groups of frames; behind the last there may be the
beginning of one. -/
structure Parted (P : Bytes) (s : RotatingSink) (groups : List (List StreamItem))
    (group : List StreamItem) (part : Bytes) : Prop where
  preamble : s.preamble = P
  closed : s.closed = groups.map (segment P)
  active : s.active = segment P group ++ part

theorem Parted.segments (h : Parted P s groups group []) :
    s.segments = (groups ++ [group]).map (segment P) := by
  rw [RotatingSink.segments, h.closed, h.active, append_nil, map_append, map_singleton]

theorem Parted.rotate (hP : P ≠ []) (h : Parted P s groups group []) :
    Parted P s.rotate (groups ++ [group]) [] [] := by
  have hprimed : s.openSegment.preamble.isEmpty = false := by
    rw [show s.openSegment.preamble = P from h.preamble, isEmpty_eq_false_iff]
    exact hP
  simp only [RotatingSink.rotate, hprimed]
  refine ⟨h.preamble, ?_, ?_⟩
  · show s.closed ++ [s.active] = _
    exact h.segments
  · show [] ++ s.preamble = _
    rw [h.preamble, segment_nil, append_nil, nil_append]

theorem Parted.write_first (hP : P ≠ []) (h : Parted P s groups group []) (w : Bytes) :
    ∃ groups' group', Parted P (s.write w) groups' group' w ∧
      (groups' ++ [group']).flatten = (groups ++ [group]).flatten := by
  simp only [write]
  split
  · have hnext := h.rotate hP
    refine ⟨groups ++ [group], [], ⟨hnext.preamble, hnext.closed, ?_⟩, ?_⟩
    · show s.rotate.active ++ w = _
      rw [hnext.active, append_nil]
    · rw [flatten_append]
      exact append_nil _
  · refine ⟨groups, group, ⟨h.preamble, h.closed, ?_⟩, rfl⟩
    show s.active ++ w = _
    rw [h.active, append_nil]

@[simp] theorem closed_rotate (s : RotatingSink) : s.rotate.closed = s.closed ++ [s.active] := by
  simp only [rotate]
  split <;> rfl

theorem closed_writes (s : RotatingSink) (ws : List Bytes) :
    s.closed <+: (ws.foldl write s).closed := by
  induction ws generalizing s with
  | nil => exact prefix_refl _
  | cons w ws ih =>
    refine .trans ?_ (ih (s.write w))
    simp only [write]
    split
    · rw [closed_rotate]
      exact prefix_append _ _
    · exact prefix_refl _

/-- The other writes of a record: they complete its frame, or one of them tears it. -/
theorem Parted.write_rest {part : Bytes} (hx : x.payload.length < 2 ^ 64 - 1)
    (hsizes : ∀ y ∈ group, y.payload.length < 2 ^ 64 - 1) {ws : List Bytes}
    (hws : ∀ w ∈ ws, w ≠ []) (hpart : part ≠ []) (hframe : part ++ ws.flatten = x.frame)
    (h : Parted P s groups group part) :
    (s.rotatesWithin ws = false → Parted P (ws.foldl write s) groups (group ++ [x]) []) ∧
    (s.rotatesWithin ws = true → ∃ seg ∈ (ws.foldl write s).closed, Torn P seg) := by
  induction ws generalizing s part with
  | nil =>
    refine ⟨fun _ => ⟨h.preamble, h.closed, ?_⟩, fun htorn => (nomatch htorn)⟩
    rw [flatten_nil, append_nil] at hframe
    rw [foldl_nil, h.active, hframe, append_nil, segment_concat]
  | cons w ws ih =>
    have hw : w ≠ [] := hws w (mem_cons_self ..)
    by_cases hrot : s.shouldRotate w.length = true
    · -- the segment closes behind `part`
      refine ⟨fun hno => ?_, fun _ => ?_⟩
      · rw [rotatesWithin, hrot, Bool.true_or] at hno
        cases hno
      refine ⟨s.active, ((s.write w).closed_writes ws).subset ?_, group, x, part, w ++ ws.flatten, hsizes,
        hx, hframe, append_ne_nil_of_left_ne_nil hw _, hpart, h.active⟩
      simp only [write, hrot, if_true, closed_rotate]
      exact mem_append_right _ (mem_singleton_self _)
    rw [Bool.not_eq_true] at hrot
    have hnext : Parted P (s.write w) groups group (part ++ w) := by
      simp only [write, hrot, Bool.false_eq_true, if_false]
      refine ⟨h.preamble, h.closed, ?_⟩
      show s.active ++ w = _
      rw [h.active, append_assoc]
    rw [rotatesWithin, hrot]
    exact ih (fun v hv => hws v (mem_cons_of_mem _ hv)) (append_ne_nil_of_left_ne_nil hpart _)
      (by rw [append_assoc]; exact hframe) hnext

end RotatingSink

/-! ## Whole runs -/

namespace Capture

variable {c : Capture} {P : Bytes}

/-- The frames the recorder wrote, cut into segments between them. -/
structure Whole (P : Bytes) (c : Capture) (written : List StreamItem) : Prop where
  torn : c.torn = false
  sizes : ∀ x ∈ written, x.payload.length < 2 ^ 64 - 1
  parted : ∃ groups group, c.sink.Parted P groups group [] ∧ (groups ++ [group]).flatten = written

/-- Either all is whole, or it is known that a record was torn, and where. -/
def Settled (P : Bytes) (c : Capture) (written : List StreamItem) : Prop :=
  c.Whole P written ∨ (c.torn = true ∧ ∃ seg ∈ c.sink.closed, Torn P seg)

variable {written : List StreamItem}

theorem Settled.handOver (hP : P ≠ []) (h : c.Settled P written) (hx : x.payload.length < 2 ^ 64 - 1)
    {writes : List Bytes} (hwrites : ∀ w ∈ writes, w ≠ [])
    (hframe : writes.flatten = x.frame) : (c.handOver writes).Settled P (written ++ [x]) := by
  rcases h with h | ⟨htorn, seg, hseg, hbroken⟩
  · obtain ⟨groups, group, hparted, hflat⟩ := h.parted
    cases writes with
    | nil => exact absurd (congrArg length hframe) (ne_of_lt (length_frame_pos x))
    | cons w ws =>
      obtain ⟨groups', group', hfirst, hsame⟩ := hparted.write_first hP w
      have hgroup : ∀ y ∈ group', y.payload.length < 2 ^ 64 - 1 := by
        intro y hy
        apply h.sizes
        rw [← hflat, ← hsame]
        simp [hy]
      obtain ⟨hwhole, hbroken⟩ := hfirst.write_rest hx hgroup
        (fun v hv => hwrites v (mem_cons_of_mem _ hv)) (hwrites w (mem_cons_self ..)) hframe
      cases htears : (c.sink.write w).rotatesWithin ws with
      | false =>
        refine .inl ⟨?_, ?_, groups', group' ++ [x], hwhole htears, ?_⟩
        · show (c.torn || (c.sink.write w).rotatesWithin ws) = false
          rw [h.torn, htears, Bool.or_false]
        · intro y hy
          rcases mem_append.mp hy with hold | hnew
          · exact h.sizes y hold
          · obtain rfl := mem_singleton.mp hnew
            exact hx
        · rw [← hflat, ← hsame]
          simp
      | true =>
        refine .inr ⟨?_, hbroken htears⟩
        show (c.torn || (c.sink.write w).rotatesWithin ws) = true
        rw [htears, Bool.or_true]
  · refine .inr ⟨?_, seg, (c.sink.closed_writes writes).subset hseg, hbroken⟩
    show (c.torn || c.sink.tears writes) = true
    rw [htorn, Bool.true_or]

theorem Settled.handOvers (hP : P ≠ []) {items : List StreamItem}
    (hitems : ∀ x ∈ items, x.payload.length < 2 ^ 64 - 1) {copies : List (List Bytes)}
    (hcopies : ∀ writes ∈ copies, ∀ w ∈ writes, w ≠ [])
    (hframes : copies.map flatten = items.map StreamItem.frame) (h : c.Settled P written) :
    (copies.foldl Capture.handOver c).Settled P (written ++ items) := by
  induction copies generalizing c items written with
  | nil =>
    obtain rfl : items = [] := map_eq_nil_iff.mp hframes.symm
    rw [append_nil]
    exact h
  | cons writes copies ih =>
    cases items with
    | nil => cases hframes
    | cons x items =>
      obtain ⟨hframe, hrest⟩ := cons.inj hframes
      have hnext := h.handOver hP (hitems x (mem_cons_self ..)) (hcopies writes (mem_cons_self ..))
        hframe
      rw [append_cons]
      exact ih (fun y hy => hitems y (mem_cons_of_mem _ hy))
        (fun v hv => hcopies v (mem_cons_of_mem _ hv)) hrest hnext

theorem recorder_step (c : Capture) (e : CaptureEvent) :
    (c.step e).recorder = (e.recorder?.map c.recorder.step).getD c.recorder := by
  cases e with
  | rotate => rfl
  | recorder e =>
    cases e with
    | record => rfl
    | pump =>
      simp only [step]
      split
      · rename_i hover
        exact (FlatRecorder.step_of_overrun hover .pump).symm
      · apply run_invariant fun c' : Capture => c'.recorder = c.recorder.step .pump
        · exact fun _ _ h => h
        · rfl

theorem recorder_run (c : Capture) (events : List CaptureEvent) :
    (c.run events).recorder = c.recorder.run (events.filterMap CaptureEvent.recorder?) := by
  induction events generalizing c with
  | nil => rfl
  | cons e events ih =>
    rw [show c.run (e :: events) = (c.step e).run events from rfl, ih, recorder_step]
    cases e with
    | rotate => rfl
    | recorder e => rfl

/-- The state of a run: what a sink that never rotates has, and the segments beside it. -/
structure Recorded (P : Bytes) (c : Capture) (written : List StreamItem) : Prop where
  stored : c.recorder.Stored
  sink : c.recorder.sink = segment P written
  settled : c.Settled P written

theorem Settled.congr {c' : Capture} (h : c.Settled P written) (hsink : c'.sink = c.sink)
    (htorn : c'.torn = c.torn) : c'.Settled P written := by
  rcases h with h | h
  · exact .inl ⟨htorn.trans h.torn, h.sizes, hsink ▸ h.parted⟩
  · exact .inr (by rw [htorn, hsink]; exact h)

theorem Recorded.step (hP : P ≠ []) (h : c.Recorded P written) (e : CaptureEvent) :
    ∃ more, (c.step e).Recorded P (written ++ more) := by
  cases e with
  | rotate =>
    refine ⟨[], h.stored, by rw [append_nil]; exact h.sink, ?_⟩
    rw [append_nil]
    rcases h.settled with hwhole | ⟨htorn, seg, hseg, hbroken⟩
    · obtain ⟨groups, group, hparted, hflat⟩ := hwhole.parted
      refine .inl ⟨hwhole.torn, hwhole.sizes, _, _, hparted.rotate hP, ?_⟩
      rw [← hflat, flatten_append]
      exact append_nil _
    · refine .inr ⟨htorn, seg, ?_, hbroken⟩
      simp only [Capture.step, RotatingSink.closed_rotate]
      exact mem_append_left _ hseg
  | recorder e =>
    cases e with
    | record captureTs resumedTs call =>
      refine ⟨[], h.stored.step (.record captureTs resumedTs call), ?_, ?_⟩
      · rw [append_nil, ← h.sink]
        exact FlatRecorder.sink_step_record ..
      · rw [append_nil]
        exact h.settled.congr rfl rfl
    | pump =>
      cases hover : c.recorder.overrun with
      | true =>
        refine ⟨[], ?_⟩
        rw [append_nil, Capture.step, if_pos hover]
        exact h
      | false =>
        obtain ⟨drained, queued, hadmitted, -, hring⟩ := h.stored.split
        obtain ⟨hdrain, hnonempty⟩ := hring.drain_eq c.recorder.drainBatch
        obtain ⟨-, -, hcopies, -, -⟩ := hring.drainRounds none c.recorder.drainBatch 0 hring.length_lt_fuel
        generalize hk : readCount frameSize none c.recorder.drainBatch c.recorder.ring.tail 0
          (queued.map StreamItem.payload) = k at hcopies
        have hframes : (c.recorder.ring.drainCopies c.recorder.drainBatch).2.1.map flatten =
            (queued.take k).map StreamItem.frame := by
          rw [← map_take, map_map] at hcopies
          exact hcopies
        have hqueued : ∀ x ∈ queued.take k, x.payload.length < 2 ^ 64 - 1 := fun x hx =>
          h.stored.sizes x (by rw [hadmitted]; exact mem_append_right _ (mem_of_mem_take hx))
        refine ⟨queued.take k, ?_, ?_, ?_⟩
        · rw [recorder_step]
          exact h.stored.step .pump
        · rw [recorder_step]
          show (c.recorder.step .pump).sink = _
          rw [FlatRecorder.step_pump hover]
          show c.recorder.sink ++ (c.recorder.ring.drain c.recorder.drainBatch).2.1 = _
          rw [hdrain, h.sink, flatten_flatten, hframes, segment, segment, append_assoc,
            flatMap_append, ← flatMap_def]
        · rw [Capture.step, hover]
          exact .handOvers hP hqueued hnonempty hframes (h.settled.congr rfl rfl)

theorem Recorded.run (hP : P ≠ []) (h : c.Recorded P written) (events : List CaptureEvent) :
    ∃ written', (c.run events).Recorded P written' := by
  induction events generalizing c written with
  | nil => exact ⟨written, h⟩
  | cons e events ih =>
    obtain ⟨more, hnext⟩ := h.step hP e
    exact ih hnext

end Capture

/-! ## Reading the segments -/

theorem scanStep_torn (pre : Bytes) (hx : x.payload.length < 2 ^ 64 - 1) {part rest : Bytes}
    (hframe : part ++ rest = x.frame) (hrest : rest ≠ []) :
    scanStep (pre ++ part) pre.length = .partialTail ∨ scanStep (pre ++ part) pre.length = .outOfBounds := by
  rw [scanStep]
  cases hread : readVarint (pre ++ part) pre.length with
  | none => exact .inl rfl
  | some out =>
    obtain ⟨len, off⟩ := out
    -- what was read is the counter of the frame, and the frame is longer than what is there
    have hfull := readVarint_append rest hread
    rw [append_assoc, hframe, StreamItem.frame, framed, ← append_nil x.payload] at hfull
    rw [readVarint_writeVarint, append_nil] at hfull
    obtain ⟨rfl, rfl⟩ := Prod.mk.inj (Option.some.inj hfull)
    obtain ⟨hlen, hcount⟩ := ofNat_ne_extent hx
    have hshort : (pre ++ part).length <
        pre.length + (writeVarint (.ofNat x.payload.length)).length + (UInt64.ofNat x.payload.length).toNat := by
      have htotal := congrArg length hframe
      have hpos := length_pos_iff.mpr hrest
      rw [StreamItem.frame, framed, length_append, length_append] at htotal
      rw [length_append]
      omega
    dsimp only
    rw [spanLength_of_ne hcount]
    split
    · exact .inl rfl
    · exact .inr rfl

/-- The records that reading a stream yields. -/
def recordsOf (stream : Bytes) : List DecodedRecord :=
  ((readRecording stream).map fun r => r.2.records).getD []

/-- Read with the given definitions, no partial tail and no corruption. -/
def ReadsClean (defs : StreamDefinitions) (stream : Bytes) : Prop :=
  ∃ records, readRecording stream = some (defs, { records })

section Opened

-- what a segment opens with, and the definitions read from it
variable {opening : Bytes} {defs : StreamDefinitions}
  (hdefs : ∀ rest, readDefinitions (opening ++ rest) = some (defs, opening.length))
include hdefs

theorem readRecording_segment {items : List StreamItem}
    (hitems : ∀ x ∈ items, x.payload.length < 2 ^ 64 - 1) :
    readRecording (segment opening items) =
      some (defs, { records := items.filterMap StreamItem.decoded }) := by
  rw [readRecording, segment, hdefs]
  simp only [Option.bind_eq_bind, Option.bind_some, recover_frames opening items hitems]
  rfl

/-- Reading a torn segment does not go unnoticed. -/
theorem Torn.not_readsClean {seg : Bytes} (h : Torn opening seg) : ¬ ReadsClean defs seg := by
  obtain ⟨items, x, part, rest, hitems, hx, hframe, hrest, hpart, rfl⟩ := h
  rintro ⟨records, hread⟩
  have hwalk := scanFrom_frames opening items part hitems
  have hlt : (segment opening items).length < (segment opening items ++ part).length := by
    have hpos := length_pos_iff.mpr hpart
    rw [length_append]
    omega
  have hstop := scanFrom_of_lt hlt
  rw [readRecording, segment, append_assoc, hdefs] at hread
  simp only [Option.bind_eq_bind, Option.bind_some] at hread
  rw [← append_assoc, ← length_append] at hwalk
  rw [segment] at hstop hlt
  -- the last round of the walk is the one that meets the torn frame
  rw [hstop, append_assoc] at hwalk
  rw [show recover = scanFrom from rfl, hwalk, ← append_assoc] at hread
  rcases scanStep_torn (segment opening items) hx hframe hrest with hstep | hstep
  · rw [segment] at hstep
    rw [hstep] at hread
    cases hread
  · rw [segment] at hstep
    rw [hstep] at hread
    cases hread

end Opened

/-- **Segments read back by themselves exactly if no rotation falls between the writes of a record.**

For any ring, batch, scratch and limits, and whatever the clock reads: if no record went past the
encoder's scratch, then no record was torn if and only if every segment reads back without a partial
tail and without corruption, and their records, one segment after the other, are those of the stream
that a sink that never rotates would hold. -/
theorem segments_standalone (ringBytes drainBatch : Nat) (scratchBytes clockEpoch : UInt64) (node : NodeId)
    (rule : TopicCaptureRule) (schema : List TypeSchemaEntry) (crypto : CaptureCryptoPosition)
    (maxBytes maxInterval : Option Nat) (clock : Nat → Nat) (events : List CaptureEvent) :
    let r := (flatRecorder ringBytes drainBatch scratchBytes).openStream clockEpoch node rule schema crypto
    let c := (capture r maxBytes maxInterval clock).run events
    c.recorder = r.run (events.filterMap CaptureEvent.recorder?) ∧
    (c.recorder.overrun = false →
      (c.torn = false ↔
        (∀ seg ∈ c.sink.segments, ReadsClean (definitionsOf clockEpoch node rule schema crypto) seg) ∧
          c.sink.segments.flatMap recordsOf = recordsOf c.recorder.sink)) := by
  intro r c
  refine ⟨Capture.recorder_run _ events, fun hscratch => ?_⟩
  have hopened : r.overrun = false := by
    rw [show c.recorder = _ from Capture.recorder_run _ events] at hscratch
    exact FlatRecorder.not_overrun_of_run hscratch
  obtain ⟨hpreamble, hsink, hsize⟩ := FlatRecorder.preamble_openStream rfl hopened
  have hdefs := fun rest =>
    readDefinitions_beginStream clockEpoch node rule schema crypto rest hsize
  have hnonempty : beginStream clockEpoch node rule schema crypto ≠ [] := by
    intro hnil
    have hlen := congrArg List.length hnil
    simp only [beginStream, List.length_append, length_writeU32, List.length_nil] at hlen
    omega
  have hstart : (capture r maxBytes maxInterval clock).Recorded
      (beginStream clockEpoch node rule schema crypto) [] := by
    refine ⟨FlatRecorder.stored_openStream .., ?_, .inl ⟨rfl, List.forall_mem_nil _, [], [], ?_, rfl⟩⟩
    · rw [segment_nil, ← hpreamble]
      exact hsink
    rw [← hpreamble]
    refine ⟨rfl, rfl, ?_⟩
    rw [segment_nil, List.append_nil]
    rfl
  obtain ⟨written, hrecorded⟩ := hstart.run hnonempty events
  constructor
  · intro hwhole
    rcases hrecorded.settled with hsettled | ⟨htorn, -⟩
    · obtain ⟨groups, group, hparted, hflat⟩ := hsettled.parted
      have hread : ∀ g ∈ groups ++ [group],
          readRecording (segment (beginStream clockEpoch node rule schema crypto) g) =
            some (definitionsOf clockEpoch node rule schema crypto,
              { records := g.filterMap StreamItem.decoded }) := fun g hg =>
        readRecording_segment hdefs fun x hx =>
          hsettled.sizes x (by rw [← hflat]; exact List.mem_flatten.mpr ⟨g, hg, hx⟩)
      rw [hparted.segments]
      refine ⟨fun seg hseg => ?_, ?_⟩
      · obtain ⟨g, hg, rfl⟩ := List.mem_map.mp hseg
        exact ⟨_, hread g hg⟩
      rw [hrecorded.sink, ← hflat, recordsOf, readRecording_segment hdefs
        (fun x hx => hsettled.sizes x (by rw [← hflat]; exact hx)), List.flatMap_map]
      show _ = (groups ++ [group]).flatten.filterMap StreamItem.decoded
      rw [List.filterMap_flatten, List.flatMap_def]
      apply congrArg List.flatten
      apply List.map_congr_left
      intro g hg
      rw [recordsOf, hread g hg]
      rfl
    · rw [htorn] at hwhole
      cases hwhole
  · rintro ⟨hclean, -⟩
    rcases hrecorded.settled with hsettled | ⟨-, seg, hseg, hbroken⟩
    · exact hsettled.torn
    · exact absurd (hclean seg (List.mem_append_left _ hseg)) (hbroken.not_readsClean hdefs)

/-- A recorder with a ring of 40 bytes; its preamble has 36. -/
def rotatingRecorder : FlatRecorder :=
  (flatRecorder 40 65536 65536).openStream 1 (Vector.replicate 16 0) {} [] .cleartext

/-- Two records with frames of 26 bytes, a sync marker before them, and a pump after each. -/
def twoPumps : List CaptureEvent :=
  [.recorder (.record 2 2 (.qosChange {})), .recorder .pump, .recorder (.record 3 3 (.qosChange {})),
    .recorder .pump]

/-- With segments of 70 bytes the second record goes to a segment of its own. -/
theorem segments_standalone_seventy :
    ((capture rotatingRecorder (some 70) none fun _ => 0).run twoPumps).sink.segments.flatMap recordsOf =
      recordsOf ((capture rotatingRecorder (some 70) none fun _ => 0).run twoPumps).recorder.sink :=
  (((segments_standalone 40 65536 65536 1 (.replicate 16 0) {} [] .cleartext (some 70) none
    (fun _ => 0) twoPumps).2 (by decide +kernel)).mp (by decide +kernel)).2

/-- What the segments hold when the second record is torn. -/
def tornSegments : List Bytes :=
  [segment rotatingRecorder.preamble [.sync, .record 2 (.qosChange {})] ++
      (StreamItem.record 3 (.qosChange {})).frame.take 9,
    rotatingRecorder.preamble ++ (StreamItem.record 3 (.qosChange {})).frame.drop 9]

/-- The first nine bytes of the second record fit a segment of 80 bytes. It ends there and reports a
partial tail, the rest is reported as corruption behind the next preamble. -/
theorem rotation_tears_record :
    let c := (capture rotatingRecorder (some 80) none fun _ => 0).run twoPumps
    c.recorder.overrun = false ∧ c.sink.segments = tornSegments ∧
      tornSegments.map (fun seg => (readRecording seg).map fun r =>
        (r.2.records.length, r.2.trailingPartialDropped, r.2.corruptionSkipped)) =
          [some (1, true, false), some (0, false, true)] ∧
      (recordsOf c.recorder.sink).length = 2 := by
  have hsink : ((capture rotatingRecorder (some 80) none fun _ => 0).run twoPumps).recorder.sink =
      segment rotatingRecorder.preamble
        [.sync, .record 2 (.qosChange {}), .record 3 (.qosChange {})] := by
    decide +kernel
  refine ⟨by decide +kernel, by decide +kernel, by decide +kernel, ?_⟩
  rw [hsink]
  decide +kernel

end Plexus.Recording
