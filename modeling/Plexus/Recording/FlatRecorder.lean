/-
# Plexus.Recording.FlatRecorder — the continuous recorder (`io/recording/flat_recorder.h`,
`dropout_record.h`, and what `recorder.h` of the public interface builds it with).

A `record_*` call encodes a record, pushes a sync marker if one is due, surfaces the run of records
shed so far, and pushes the record; what the ring refuses joins the run. A pump moves records from
the ring to the sink. The clock's readings come with the calls.

`pushes` logs every push with its result. `Written` ties it to the bytes: of the admitted records
the older ones are in the sink behind the preamble and the younger ones in the ring. The encoder
does not check its scratch; a record that does not fit stops the model (`overrun`).
-/
import Plexus.Lib.Run
import Plexus.Recording.ByteRing
import Plexus.Recording.RecordCodec

namespace Plexus.Recording

open Lib Wire Plexus.Stream List

/-! ## `dropout_record.h` -/

/-- Losses that no dropout record reports yet. -/
structure DropoutRun where
  count : UInt32 := 0
  bytes : UInt64 := 0
  maxFidelity : CaptureFidelity := .off
  deriving DecidableEq

namespace DropoutRun

def shed (d : DropoutRun) (wouldBeBytes : UInt64) (fidelity : CaptureFidelity) : DropoutRun :=
  { count := d.count + 1
    bytes := d.bytes + wouldBeBytes
    maxFidelity := if d.maxFidelity.byte < fidelity.byte then fidelity else d.maxFidelity }

def pending (d : DropoutRun) : Bool := d.count ≠ 0

def harvest (d : DropoutRun) (resumedTs : UInt64) : DropoutRecord × DropoutRun :=
  ({ ts := resumedTs, count := d.count, bytes := d.bytes, maxFidelity := d.maxFidelity }, {})

end DropoutRun

/-! ## What is pushed -/

inductive StreamItem
  | sync
  | record (captureTs : UInt64) (call : RecordCall)
  | dropout (r : DropoutRecord)
  deriving DecidableEq

namespace StreamItem

def payload : StreamItem → Bytes
  | .sync => writeU32 kSyncMarker
  | .record captureTs call => sealIn (call.body captureTs)
  | .dropout r => sealIn (Recording.dropout r)

def frame (x : StreamItem) : Bytes := framed x.payload

/-- What the reader makes of it; sync markers are skipped. -/
def decoded : StreamItem → Option DecodedRecord
  | .sync => none
  | .record captureTs call => some (call.decoded captureTs)
  | .dropout r => some r.decoded

end StreamItem

/-- The size and the fidelity a shed record is accounted with. -/
def RecordCall.wouldBe (captureTs : UInt64) : RecordCall → Nat × CaptureFidelity
  | .sample _ _ _ _ fidelity payload => (payload.length, fidelity)
  | .wireFrame _ _ _ bytes => (bytes.length, .wire)
  | call => ((sealIn (call.body captureTs)).length, .metadata)

/-! ## `flat_recorder.h` -/

/-- The recorder with its ring and the sink it drains into. -/
structure FlatRecorder where
  scratchBytes : UInt64
  ring : ByteRing
  drainBatch : Nat
  sink : Bytes := []
  preamble : Bytes := []
  dropouts : DropoutRun := {}
  records : UInt32 := 0
  /-- The encoder went past the end of its scratch; from there on the program has no meaning. -/
  overrun : Bool := false
  /-- Every push so far with its result (not part of the source). -/
  pushes : List (StreamItem × Bool) := []

inductive RecorderEvent
  /-- A `record_*` call, with the clock's reading and the one `surface_dropout` would take. -/
  | record (captureTs resumedTs : UInt64) (call : RecordCall)
  | pump
  deriving DecidableEq

namespace FlatRecorder

def tryPush (r : FlatRecorder) (item : StreamItem) : FlatRecorder × Bool :=
  let (ring, ok) := r.ring.tryPush item.payload
  ({ r with ring, pushes := r.pushes ++ [(item, ok)] }, ok)

variable (r : FlatRecorder)

/-- `open`. -/
def openStream (clockEpoch : UInt64) (node : NodeId) (rule : TopicCaptureRule)
    (schema : List TypeSchemaEntry) (crypto : CaptureCryptoPosition) : FlatRecorder :=
  let head := beginStream clockEpoch node rule schema crypto
  if r.scratchBytes.toNat < head.length then { r with overrun := true }
  else { r with preamble := head, sink := r.sink ++ head }

def maybeSync : FlatRecorder :=
  let due := r.records % kSyncInterval = 0
  let r := { r with records := r.records + 1 }
  if due then (r.tryPush .sync).1 else r

def surfaceDropout (resumedTs : UInt64) : FlatRecorder :=
  if r.dropouts.pending then
    let (dr, dropouts) := r.dropouts.harvest resumedTs
    ({ r with dropouts }.tryPush (.dropout dr)).1
  else r

def admitRecord (resumedTs : UInt64) (item : StreamItem) (wouldBeBytes : UInt64)
    (fidelity : CaptureFidelity) : FlatRecorder :=
  let (r, ok) := (r.maybeSync.surfaceDropout resumedTs).tryPush item
  if ok then r else { r with dropouts := r.dropouts.shed wouldBeBytes fidelity }

/-- The `record_*` calls. -/
def record (r : FlatRecorder) (captureTs resumedTs : UInt64) (call : RecordCall) : FlatRecorder :=
  if r.scratchBytes.toNat < (sealIn (call.body captureTs)).length then { r with overrun := true }
  else
    let (bytes, fidelity) := call.wouldBe captureTs
    r.admitRecord resumedTs (.record captureTs call) (.ofNat bytes) fidelity

def pump : FlatRecorder :=
  let (ring, out, _) := r.ring.drain r.drainBatch
  { r with ring, sink := r.sink ++ out }

def step (e : RecorderEvent) : FlatRecorder :=
  if r.overrun then r
  else
    match e with
    | .record captureTs resumedTs call => r.record captureTs resumedTs call
    | .pump => r.pump

def run (events : List RecorderEvent) : FlatRecorder := events.foldl step r

/-- What was admitted to the ring, in order. -/
def admitted : List StreamItem := (r.pushes.filter Prod.snd).map Prod.fst

end FlatRecorder

/-- A recorder as it is built; the size of its ring is a `size_t`. -/
def flatRecorder (ringBytes drainBatch : Nat) (scratchBytes : UInt64) : FlatRecorder :=
  { scratchBytes, ring := { capacity := ringBytes % 2 ^ 64 }, drainBatch }

/-! ## `recorder.h` -/

structure TypeSchema where
  typeId : UInt64 := 0
  messageEncoding : Text := []
  schemaName : Text := []
  schemaEncoding : Text := []
  schemaData : Bytes := []
  deriving DecidableEq

variable (schemas : List TypeSchema)

def schemaRows : List TypeSchemaEntry :=
  schemas.map fun s =>
    { typeId := s.typeId, messageEncoding := s.messageEncoding, schemaName := s.schemaName,
      schemaEncoding := s.schemaEncoding, schemaData := s.schemaData }

def blobSize (n : Nat) : Nat := varintSize (.ofNat n) + n

def schemaNeed (s : TypeSchema) : Nat :=
  varintSize s.typeId + blobSize 0 + blobSize s.messageEncoding.length +
    blobSize s.schemaName.length + blobSize s.schemaEncoding.length + blobSize s.schemaData.length

/-- What `preamble_scratch_bytes` adds up. -/
def preambleNeed : Nat :=
  256 + varintSize (.ofNat schemas.length) + (schemas.map schemaNeed).sum

def preambleScratchBytes : UInt64 :=
  .ofNat (max (64 * 1024) (preambleNeed schemas % 2 ^ 64))

/-- The continuous recorder of the public interface, its stream opened. -/
def recorder (ringBytes drainBatch : Nat) (clockEpoch : UInt64) (node : NodeId)
    (rule : TopicCaptureRule) (schemas : List TypeSchema) (crypto : CaptureCryptoPosition) :
    FlatRecorder :=
  (flatRecorder ringBytes drainBatch (preambleScratchBytes schemas)).openStream clockEpoch node rule
    (schemaRows schemas) crypto

theorem length_blob_eq (b : Bytes) : (blob b).length = blobSize b.length := by
  rw [blob, length_append, blobSize, varintSize_eq]

/-- The scratch is sized for the preamble, as long as the sum does not leave `size_t`. -/
theorem length_beginStream_le (clockEpoch : UInt64) (node : NodeId) (rule : TopicCaptureRule)
    (schemas : List TypeSchema) (crypto : CaptureCryptoPosition) :
    (beginStream clockEpoch node rule (schemaRows schemas) crypto).length ≤ preambleNeed schemas := by
  have hentries : ((schemaRows schemas).flatMap TypeSchemaEntry.bytes).length =
      (schemas.map schemaNeed).sum := by
    rw [schemaRows, flatMap_map, length_flatMap]
    congr 1
    apply map_congr_left
    simp only [TypeSchemaEntry.bytes, schemaNeed, length_append, length_blob_eq, varintSize_eq,
      length_nil]
    omega
  have hdecimation := length_writeVarint_le rule.decimation.toUInt64
  have hwindow := length_writeVarint_le rule.windowNs
  have hlength : (schemaRows schemas).length = schemas.length := length_map ..
  simp only [beginStream, length_append, length_writeU32, length_writeU16, length_writeU64,
    Vector.length_toList, hentries, hlength, preambleNeed, varintSize_eq, writeU8,
    length_singleton]
  omega

theorem recorder_not_overrun (ringBytes drainBatch : Nat) (clockEpoch : UInt64) (node : NodeId)
    (rule : TopicCaptureRule) {schemas : List TypeSchema} (crypto : CaptureCryptoPosition)
    (h : preambleNeed schemas < 2 ^ 64) :
    (recorder ringBytes drainBatch clockEpoch node rule schemas crypto).overrun = false := by
  have hle := length_beginStream_le clockEpoch node rule schemas crypto
  have hscratch : preambleNeed schemas ≤ (preambleScratchBytes schemas).toNat := by
    rw [preambleScratchBytes, Nat.mod_eq_of_lt h, UInt64.toNat_ofNat_of_lt' (Nat.max_lt.mpr ⟨by decide, h⟩)]
    exact Nat.le_max_right _ _
  rw [recorder, FlatRecorder.openStream, if_neg]
  · rfl
  · show ¬ (preambleScratchBytes schemas).toNat < _
    omega

/-! ## Where the admitted records are -/

theorem length_sealIn (body : Bytes) : (sealIn body).length = body.length + 4 := by
  rw [sealIn, length_append, length_writeU32]

theorem length_dropout_le (r : DropoutRecord) : (dropout r).length ≤ 30 := by
  have hcount := length_writeVarint_le r.count.toUInt64
  have hbytes := length_writeVarint_le r.bytes
  simp only [dropout, length_append, length_writeU64, writeU8, length_singleton]
  omega

theorem length_payload_dropout (r : DropoutRecord) : (StreamItem.dropout r).payload.length < 2 ^ 64 := by
  have hle := length_dropout_le r
  rw [StreamItem.payload, length_sealIn]
  omega

namespace FlatRecorder

/-- Of the admitted records the older ones are in the sink, behind the preamble, and the younger ones
in the ring. With its counter each fitted into the ring, so none is as long as a `size_t` can say. -/
structure Stored (r : FlatRecorder) : Prop where
  policy : r.ring.policy = .dropNewest
  capacity : r.ring.capacity < 2 ^ 64
  sizes : ∀ x ∈ r.admitted, x.payload.length < 2 ^ 64 - 1
  split : ∃ drained queued, r.admitted = drained ++ queued ∧
    r.sink = r.preamble ++ drained.flatMap StreamItem.frame ∧
    r.ring.Holds (queued.map StreamItem.payload)

variable {r : FlatRecorder}

theorem admitted_tryPush (r : FlatRecorder) (item : StreamItem) :
    (r.tryPush item).1.admitted = r.admitted ++ if (r.tryPush item).2 then [item] else [] := by
  simp only [tryPush, admitted]
  by_cases hok : (r.ring.tryPush item.payload).2 = true
  · simp [hok]
  · simp [hok]

section

variable (h : r.Stored)
include h

theorem Stored.tryPush {item : StreamItem} (hsize : item.payload.length < 2 ^ 64) :
    (r.tryPush item).1.Stored := by
  obtain ⟨drained, queued, hadmitted, hsink, hring⟩ := h.split
  obtain ⟨hok, hholds, hpolicy, hcapacity⟩ := hring.tryPush_dropNewest h.policy hsize
  refine ⟨hpolicy.trans h.policy, lt_of_eq_of_lt hcapacity h.capacity, fun x hx => ?_, ?_⟩
  · rw [admitted_tryPush] at hx
    rcases mem_append.mp hx with hold | hnew
    · exact h.sizes x hold
    split at hnew
    · rename_i hpushed
      obtain rfl := mem_singleton.mp hnew
      have hroom := hok.mp hpushed
      have hcap := h.capacity
      have hcounter := length_writeVarint_pos (.ofNat x.payload.length)
      rw [framed, length_append] at hroom
      omega
    · cases hnew
  rw [admitted_tryPush, hadmitted]
  cases hok : (r.tryPush item).2 with
  | true =>
    rw [if_pos (show (r.ring.tryPush item.payload).2 = true from hok)] at hholds
    refine ⟨drained, queued ++ [item], by simp, hsink, ?_⟩
    rw [map_append]
    exact hholds
  | false =>
    rw [if_neg (by rw [show (r.ring.tryPush item.payload).2 = false from hok]; decide)] at hholds
    refine ⟨drained, queued, by simp, hsink, ?_⟩
    show (r.ring.tryPush item.payload).1.Holds _
    rw [hholds]
    exact hring

theorem Stored.congr {r' : FlatRecorder} (hring : r'.ring = r.ring) (hsink : r'.sink = r.sink)
    (hpreamble : r'.preamble = r.preamble) (hpushes : r'.pushes = r.pushes) : r'.Stored := by
  have hadmitted : r'.admitted = r.admitted := by rw [admitted, hpushes, admitted]
  exact ⟨hring ▸ h.policy, hring ▸ h.capacity, hadmitted ▸ h.sizes, by rw [hadmitted, hsink, hpreamble, hring]; exact h.split⟩

theorem Stored.maybeSync : r.maybeSync.Stored := by
  have hnext : ({ r with records := r.records + 1 } : FlatRecorder).Stored := h.congr rfl rfl rfl rfl
  simp only [FlatRecorder.maybeSync]
  split
  · exact hnext.tryPush (by simp [StreamItem.payload])
  · exact hnext

theorem Stored.surfaceDropout (resumedTs : UInt64) : (r.surfaceDropout resumedTs).Stored := by
  simp only [FlatRecorder.surfaceDropout]
  split
  · have hnext : ({ r with dropouts := (r.dropouts.harvest resumedTs).2 } : FlatRecorder).Stored :=
      h.congr rfl rfl rfl rfl
    exact hnext.tryPush (length_payload_dropout _)
  · exact h

theorem Stored.admitRecord (resumedTs : UInt64) {item : StreamItem}
    (hsize : item.payload.length < 2 ^ 64) (wouldBeBytes : UInt64) (fidelity : CaptureFidelity) :
    (r.admitRecord resumedTs item wouldBeBytes fidelity).Stored := by
  have hpushed := (h.maybeSync.surfaceDropout resumedTs).tryPush hsize
  simp only [FlatRecorder.admitRecord]
  split
  · exact hpushed
  · exact hpushed.congr rfl rfl rfl rfl

theorem Stored.pump : r.pump.Stored := by
  obtain ⟨drained, queued, hadmitted, hsink, hring⟩ := h.split
  obtain ⟨k, hheld, hout, -, -, hpolicy, hcapacity⟩ := hring.drain r.drainBatch
  refine ⟨hpolicy.trans h.policy, lt_of_eq_of_lt hcapacity h.capacity, h.sizes, drained ++ queued.take k, queued.drop k, ?_, ?_, ?_⟩
  · rw [append_assoc, take_append_drop]
    exact hadmitted
  · show r.sink ++ (r.ring.drain r.drainBatch).2.1 = r.preamble ++ _
    rw [flatMap_append, ← append_assoc, ← hsink, hout, ← map_take, flatMap_map]
    rfl
  · rw [map_drop]
    exact hheld

theorem Stored.step (e : RecorderEvent) : (r.step e).Stored := by
  simp only [FlatRecorder.step]
  split
  · exact h
  cases e with
  | record captureTs resumedTs call =>
    simp only [FlatRecorder.record]
    split
    · exact h.congr rfl rfl rfl rfl
    · have hlt := r.scratchBytes.toNat_lt
      exact h.admitRecord resumedTs (by rw [StreamItem.payload]; omega) _ _
  | pump => exact h.pump

end

theorem step_of_overrun (h : r.overrun) (e : RecorderEvent) : r.step e = r := by
  unfold step
  rw [if_pos h]

theorem step_record (h : r.overrun = false) (captureTs resumedTs : UInt64) (call : RecordCall) :
    r.step (.record captureTs resumedTs call) = r.record captureTs resumedTs call := by
  simp only [step, h, Bool.false_eq_true, if_false]

theorem sink_step_record (r : FlatRecorder) (captureTs resumedTs : UInt64) (call : RecordCall) :
    (r.step (.record captureTs resumedTs call)).sink = r.sink := by
  have hsurfaced : ∀ s : FlatRecorder, (s.surfaceDropout resumedTs).sink = s.sink := by
    intro s
    simp only [surfaceDropout]
    split <;> rfl
  have hsynced : r.maybeSync.sink = r.sink := by
    simp only [maybeSync]
    split <;> rfl
  simp only [step, record, admitRecord]
  split
  · rfl
  · split
    · rfl
    · split <;> exact (hsurfaced _).trans hsynced

theorem step_pump (h : r.overrun = false) : r.step .pump = r.pump := by
  simp only [step, h, Bool.false_eq_true, if_false]

theorem overrun_run (events : List RecorderEvent) (h : r.overrun) :
    (r.run events).overrun = true :=
  run_invariant (fun s : FlatRecorder => s.overrun = true)
    (fun _ e hs => by rw [step_of_overrun hs]; exact hs) h events

theorem not_overrun_of_cons {e : RecorderEvent} {es : List RecorderEvent}
    (h : (r.run (e :: es)).overrun = false) : r.overrun = false ∧ (r.step e).overrun = false := by
  have hstep : (r.step e).overrun = false := by
    by_contra hover
    rw [Bool.not_eq_false] at hover
    rw [show r.run (e :: es) = (r.step e).run es from rfl, overrun_run es hover] at h
    cases h
  refine ⟨?_, hstep⟩
  by_contra hover
  rw [Bool.not_eq_false] at hover
  rw [step_of_overrun hover, hover] at hstep
  cases hstep

theorem fits_of_not_overrun (h : r.overrun = false) {captureTs resumedTs : UInt64} {call : RecordCall}
    (hstep : (r.step (.record captureTs resumedTs call)).overrun = false) :
    (sealIn (call.body captureTs)).length ≤ r.scratchBytes.toNat := by
  by_contra hbig
  rw [step_record h] at hstep
  simp only [record, if_pos (not_le.mp hbig)] at hstep
  cases hstep

/-! The preamble and the scratch stay what they were. -/

/-- The fields no event touches. -/
structure SameBase (r r' : FlatRecorder) : Prop where
  preamble : r'.preamble = r.preamble
  scratchBytes : r'.scratchBytes = r.scratchBytes

theorem sameBase_surfaceDropout (r : FlatRecorder) (resumedTs : UInt64) :
    (r.maybeSync).SameBase (r.maybeSync.surfaceDropout resumedTs) ∧ r.SameBase r.maybeSync := by
  constructor
  · simp only [surfaceDropout]
    split <;> exact ⟨rfl, rfl⟩
  · simp only [maybeSync]
    split <;> exact ⟨rfl, rfl⟩

theorem sameBase_step (r : FlatRecorder) (e : RecorderEvent) : r.SameBase (r.step e) := by
  simp only [step]
  split
  · exact ⟨rfl, rfl⟩
  cases e with
  | record captureTs resumedTs call =>
    obtain ⟨hsurfaced, hsynced⟩ := r.sameBase_surfaceDropout resumedTs
    simp only [record, admitRecord]
    split
    · exact ⟨rfl, rfl⟩
    · split <;> exact ⟨hsurfaced.preamble.trans hsynced.preamble,
        hsurfaced.scratchBytes.trans hsynced.scratchBytes⟩
  | pump => exact ⟨rfl, rfl⟩

theorem preamble_run (r : FlatRecorder) (events : List RecorderEvent) :
    (r.run events).preamble = r.preamble :=
  run_invariant (fun s : FlatRecorder => s.preamble = r.preamble)
    (fun s e h => (s.sameBase_step e).preamble.trans h) rfl events

theorem Stored.run (h : r.Stored) (events : List RecorderEvent) : (r.run events).Stored :=
  run_invariant Stored (fun _ e h => h.step e) h events

theorem stored_flatRecorder (ringBytes drainBatch : Nat) (scratchBytes : UInt64) :
    (flatRecorder ringBytes drainBatch scratchBytes).Stored where
  policy := rfl
  capacity := Nat.mod_lt _ (by decide)
  sizes := fun _ hx => by cases hx
  split := ⟨[], [], rfl, rfl, ByteRing.holds_empty _ .dropNewest⟩

theorem stored_openStream (ringBytes drainBatch : Nat) (scratchBytes clockEpoch : UInt64)
    (node : NodeId) (rule : TopicCaptureRule) (schema : List TypeSchemaEntry)
    (crypto : CaptureCryptoPosition) :
    ((flatRecorder ringBytes drainBatch scratchBytes).openStream clockEpoch node rule schema
      crypto).Stored := by
  have h := stored_flatRecorder ringBytes drainBatch scratchBytes
  simp only [openStream]
  split
  · exact h.congr rfl rfl rfl rfl
  · exact ⟨h.policy, h.capacity, h.sizes, [], [], rfl, by simp [flatRecorder],
      ByteRing.holds_empty _ .dropNewest⟩

end FlatRecorder

end Plexus.Recording
