/-
# Plexus.Recording.Recover — reading a recording back (`io/recording/record_stream_reader.h`,
`detail/record_scan.h`).

`recover` walks the stream frame by frame. A frame whose length cannot be read, or reaches past the
end, ends the walk; a sync marker is skipped; a record is decoded; a failed CRC makes the scan look,
byte by byte, for the next sync marker. `scanStep` is one round of that loop; each round advances
(`ScanStep.Advances`), so `scanFrom` needs no fuel. The length `2 ^ 64 - 1` is special: as a count
of `subspan` it is `std::dynamic_extent` and takes the rest of the stream.

Over intact frames the walk returns their records and nothing else (`scanFrom_frames`).
-/
import Plexus.Recording.LossAccounting

namespace Plexus.Recording

open Lib Wire Plexus.Stream StreamItem

/-! ## `record_scan.h` -/

variable (stream : Bytes)

/-- `std::dynamic_extent`, the count that stands for all that is left. -/
def kDynamicExtent : UInt64 := 0xFFFFFFFFFFFFFFFF

/-- How many bytes `stream.subspan(off, len)` takes. -/
def spanLength (off : Nat) (len : UInt64) : Nat :=
  if len = kDynamicExtent then stream.length - off else len.toNat

/-- `stream.subspan(off, len)`, where it is inside the stream. -/
def subspan (off : Nat) (len : UInt64) : Bytes := (stream.drop off).take (spanLength stream off len)

/-- `off + len` where the slice is inside the stream; only the sum with `dynamic_extent` has come
round then, to the offset before. -/
def payloadEnd (off : Nat) (len : UInt64) : Nat :=
  if len = kDynamicExtent then off - 1 else off + len.toNat

def isSync (payload : Bytes) : Bool := payload.length = 4 && readU32 payload = kSyncMarker

/-- A sync record begins at `start`. (A slice that is not inside the stream has not four bytes.) -/
def syncAt (start : Nat) : Bool :=
  match readVarint stream start with
  | none => false
  | some (len, off) =>
    decide (off + spanLength stream off len ≤ stream.length) && isSync (subspan stream off len)

/-- `resync_from`: where the next sync record begins, or the end. -/
def resyncFrom (start : Nat) : Nat :=
  ((List.range' start (stream.length - start)).find? (syncAt stream)).getD stream.length

def validateAndDecode (payload : Bytes) : Option DecodedRecord :=
  if payload.length < 4 then none
  else
    let body := payload.take (payload.length - 4)
    let stored := readU32 (payload.drop (payload.length - 4))
    if crc32c body ≠ stored then none else decodeRecordBody body

/-! ## `record_stream_reader.h` -/

/-- What one round of the loop comes to, with the position it goes on at. -/
inductive ScanStep
  | partialTail
  /-- The end wraps to a small number: the span handed on reaches past the stream. -/
  | outOfBounds
  | sync (next : Nat)
  | corrupt (next : Nat)
  | record (rec : DecodedRecord) (next : Nat)
  deriving DecidableEq

def scanStep (start : Nat) : ScanStep :=
  match readVarint stream start with
  | none => .partialTail
  | some (len, off) =>
    -- the test is made on the sum as `size_t` has it
    if (off + len.toNat) % 2 ^ 64 > stream.length then .partialTail
    else if off + spanLength stream off len > stream.length then .outOfBounds
    else if isSync (subspan stream off len) then .sync (payloadEnd off len)
    else
      match validateAndDecode (subspan stream off len) with
      | none => .corrupt (resyncFrom stream (start + 1))
      | some rec => .record rec (payloadEnd off len)

/-- The records and the flags `recover` returns; `recovered` is the number of the records. -/
structure Recovery where
  records : List DecodedRecord := []
  trailingPartialDropped : Bool := false
  corruptionSkipped : Bool := false
  deriving DecidableEq

/-- The loop of `recover`, or nothing when it reads outside the stream. -/
def scan (stream : Bytes) : Nat → Nat → Option Recovery
  | 0, _ => some {}
  | fuel + 1, start =>
    if stream.length ≤ start then some {}
    else
      match scanStep stream start with
      | .partialTail => some { trailingPartialDropped := true }
      | .outOfBounds => none
      | .sync next => scan stream fuel next
      | .corrupt next => (scan stream fuel next).map fun r => { r with corruptionSkipped := true }
      | .record rec next => (scan stream fuel next).map fun r => { r with records := rec :: r.records }

def recover (stream : Bytes) (cursor : Nat) : Option Recovery :=
  scan stream (stream.length - cursor) cursor

/-- `read_definitions`, then `recover`. -/
def readRecording : Option (StreamDefinitions × Recovery) := do
  let (defs, cursor) ← readDefinitions stream
  let recovery ← recover stream cursor
  pure (defs, recovery)

/-! ## The loop without its fuel -/

/-- A round that goes on does so further down the stream. -/
def ScanStep.Advances (start : Nat) : ScanStep → Prop
  | .sync next | .corrupt next | .record _ next => start < next
  | .partialTail | .outOfBounds => True

def ScanStep.next? : ScanStep → Option Nat
  | .sync next | .corrupt next | .record _ next => some next
  | .partialTail | .outOfBounds => none

variable {start : Nat} {stream : Bytes}

section

variable {len : UInt64} {off : Nat}

@[simp] theorem spanLength_of_ne (h : len ≠ kDynamicExtent) : spanLength stream off len = len.toNat :=
  if_neg h

@[simp] theorem payloadEnd_of_ne (h : len ≠ kDynamicExtent) : payloadEnd off len = off + len.toNat :=
  if_neg h

/-- A length that is counted as it is. -/
theorem ofNat_ne_extent {n : Nat} (h : n < 2 ^ 64 - 1) :
    (UInt64.ofNat n).toNat = n ∧ UInt64.ofNat n ≠ kDynamicExtent := by
  have hlen : (UInt64.ofNat n).toNat = n := UInt64.toNat_ofNat_of_lt' (lt_of_lt_of_le h (by decide))
  refine ⟨hlen, fun hextent => ?_⟩
  rw [hextent] at hlen
  exact absurd hlen (ne_of_gt h)

theorem length_subspan (h : off + spanLength stream off len ≤ stream.length) :
    (subspan stream off len).length = spanLength stream off len := by
  rw [subspan, List.length_take, List.length_drop]
  omega

variable (h : readVarint stream start = some (len, off))
include h

/-- It takes ten bytes to write `dynamic_extent`. -/
theorem ten_le_of_extent (hlen : len = kDynamicExtent) : start + 10 ≤ off := by
  have hlt := readVarint_lt h
  rw [hlen] at hlt
  by_contra hshort
  have hpow : 2 ^ (7 * (off - start)) ≤ 2 ^ 63 := Nat.pow_le_pow_right (by decide) (by omega)
  exact absurd (lt_of_lt_of_le hlt hpow) (by decide)

theorem lt_payloadEnd : start < payloadEnd off len := by
  obtain ⟨hoff, -, -, -⟩ := readVarint_shape h
  by_cases hlen : len = kDynamicExtent
  · have hten := ten_le_of_extent h hlen
    rw [payloadEnd, if_pos hlen]
    omega
  · rw [payloadEnd_of_ne hlen]
    omega

end

/-- The length at `start` cannot be read or reaches past the end of the stream. -/
def CutOff (stream : Bytes) (start : Nat) : Prop :=
  ∀ out ∈ readVarint stream start, stream.length < out.2 + spanLength stream out.2 out.1

instance CutOff.decidable (stream : Bytes) (start : Nat) : Decidable (CutOff stream start) :=
  inferInstanceAs (Decidable (∀ out ∈ readVarint stream start, _))

/-- What a round has found. -/
def ScanStep.Found (stream : Bytes) (start : Nat) : ScanStep → Prop
  | .sync next => ∃ off len, readVarint stream start = some (len, off) ∧ next = payloadEnd off len ∧
      off + spanLength stream off len ≤ stream.length ∧ isSync (subspan stream off len) = true
  | .record rec next => ∃ off len, readVarint stream start = some (len, off) ∧
      next = payloadEnd off len ∧ off + spanLength stream off len ≤ stream.length ∧
      validateAndDecode (subspan stream off len) = some rec
  | .corrupt next => next = resyncFrom stream (start + 1)
  | .partialTail | .outOfBounds => CutOff stream start

theorem scanStep_found (stream : Bytes) (start : Nat) :
    (scanStep stream start).Found stream start := by
  rw [scanStep]
  cases hread : readVarint stream start with
  | none => exact fun out hout => by rw [hread] at hout; cases hout
  | some p =>
    obtain ⟨len, off⟩ := p
    dsimp only
    split
    · rename_i hover
      have hlen : len ≠ kDynamicExtent := by
        -- that sum comes out below the offset
        rintro rfl
        obtain ⟨-, hle, -, -⟩ := readVarint_shape hread
        have hten := ten_le_of_extent hread rfl
        rw [show kDynamicExtent.toNat = 2 ^ 64 - 1 from rfl] at hover
        omega
      rintro out hout
      obtain rfl := Option.some.inj (hread.symm.trans hout)
      have hsum := Nat.mod_le (off + len.toNat) (2 ^ 64)
      show _ < off + spanLength stream off len
      rw [spanLength_of_ne hlen]
      omega
    · split
      · rename_i hover
        rintro out hout
        obtain rfl := Option.some.inj (hread.symm.trans hout)
        exact hover
      · rename_i hin
        have hend := not_lt.mp hin
        split
        · rename_i hsync
          exact ⟨off, len, hread, rfl, hend, hsync⟩
        · cases hrec : validateAndDecode (subspan stream off len) with
          | none => rfl
          | some rec => exact ⟨off, len, hread, rfl, hend, hrec⟩

theorem le_resyncFrom (h : start ≤ stream.length) : start ≤ resyncFrom stream start := by
  rw [resyncFrom]
  cases hfind : (List.range' start _).find? (syncAt stream) with
  | none => exact h
  | some at_ =>
    have hmem := List.mem_of_find?_eq_some hfind
    rw [List.mem_range'_1] at hmem
    exact hmem.1

theorem scanStep_advances (h : start < stream.length) : (scanStep stream start).Advances start := by
  have hfound := scanStep_found stream start
  cases hstep : scanStep stream start with
  | partialTail | outOfBounds => trivial
  | sync next | record rec next =>
    rw [hstep] at hfound
    obtain ⟨off, len, hread, rfl, -⟩ := hfound
    exact lt_payloadEnd hread
  | corrupt next =>
    rw [hstep] at hfound
    exact hfound.symm ▸ le_resyncFrom h

/-- One round, with what the rest of the walk returns. -/
def ScanStep.then : ScanStep → (Nat → Option Recovery) → Option Recovery
  | .partialTail, _ => some { trailingPartialDropped := true }
  | .outOfBounds, _ => none
  | .sync next, rest => rest next
  | .corrupt next, rest => (rest next).map fun r => { r with corruptionSkipped := true }
  | .record rec next, rest => (rest next).map fun r => { r with records := rec :: r.records }

/-- Only what the rest of the walk returns further down matters. -/
theorem ScanStep.Advances.then_congr {round : ScanStep} (hround : round.Advances start)
    {rest rest' : Nat → Option Recovery} (h : ∀ next, start < next → rest next = rest' next) :
    round.then rest = round.then rest' := by
  cases round with
  | partialTail | outOfBounds => rfl
  | sync next => exact h next hround
  | corrupt next | record rec next => exact congrArg (Option.map _) (h next hround)

theorem scan_succ (stream : Bytes) (fuel : Nat) (h : start < stream.length) :
    scan stream (fuel + 1) start = (scanStep stream start).then (scan stream fuel) := by
  rw [scan, if_neg (not_le.mpr h)]
  cases scanStep stream start <;> rfl

theorem scan_of_le (stream : Bytes) (fuel : Nat) (h : stream.length ≤ start) :
    scan stream fuel start = some {} := by
  cases fuel with
  | zero => rfl
  | succ fuel => rw [scan, if_pos h]

/-- More fuel than bytes changes nothing. -/
theorem scan_fuel (stream : Bytes) {fuel fuel' : Nat} (h : stream.length ≤ start + fuel)
    (h' : stream.length ≤ start + fuel') : scan stream fuel start = scan stream fuel' start := by
  induction fuel generalizing fuel' start with
  | zero =>
    rw [add_zero] at h
    rw [scan_of_le stream _ h, scan_of_le stream _ h]
  | succ fuel ih =>
    rcases lt_or_ge start stream.length with hlt | hge
    · cases fuel' with
      | zero => omega
      | succ fuel' =>
        rw [scan_succ stream _ hlt, scan_succ stream _ hlt]
        exact (scanStep_advances hlt).then_congr fun next hnext => ih (by omega) (by omega)
    · rw [scan_of_le stream _ hge, scan_of_le stream _ hge]

/-- The walk from a position to the end. -/
def scanFrom (stream : Bytes) (start : Nat) : Option Recovery :=
  scan stream (stream.length - start) start

theorem scanFrom_of_le (h : stream.length ≤ start) : scanFrom stream start = some {} :=
  scan_of_le stream _ h

theorem scanFrom_of_lt (h : start < stream.length) :
    scanFrom stream start = (scanStep stream start).then (scanFrom stream) := by
  obtain ⟨fuel, hfuel⟩ : ∃ fuel, stream.length - start = fuel + 1 := ⟨stream.length - start - 1, by omega⟩
  rw [scanFrom, hfuel, scan_succ stream _ h]
  exact (scanStep_advances h).then_congr fun next hnext => scan_fuel stream (by omega) (by omega)

/-! ## Intact frames -/

theorem validateAndDecode_sealIn (body : Bytes) :
    validateAndDecode (sealIn body) = decodeRecordBody body := by
  have hlen := length_sealIn body
  have htake : (sealIn body).take ((sealIn body).length - 4) = body := by
    rw [hlen, Nat.add_sub_cancel, sealIn, List.take_left]
  have hdrop : (sealIn body).drop ((sealIn body).length - 4) = writeU32 (crc32c body) ++ [] := by
    rw [hlen, Nat.add_sub_cancel, sealIn, List.drop_left, List.append_nil]
  rw [validateAndDecode, if_neg (by omega)]
  simp only [htake, hdrop, readU32_writeU32, ne_eq, not_true_eq_false, if_false]

theorem length_body_pos (captureTs : UInt64) (call : RecordCall) :
    0 < (call.body captureTs).length := by
  cases call <;> exact Nat.succ_pos _

namespace StreamItem

theorem length_payload (x : StreamItem) :
    (x = .sync ∧ x.payload.length = 4) ∨ (x ≠ .sync ∧ 4 < x.payload.length) := by
  cases x with
  | sync => exact .inl ⟨rfl, rfl⟩
  | record captureTs call =>
    have hpos := length_body_pos captureTs call
    refine .inr ⟨StreamItem.noConfusion, ?_⟩
    rw [payload, length_sealIn]
    omega
  | dropout r =>
    have hpos : 0 < (Recording.dropout r).length := Nat.succ_pos _
    refine .inr ⟨StreamItem.noConfusion, ?_⟩
    rw [payload, length_sealIn]
    omega

theorem validateAndDecode_payload {x : StreamItem} (hsize : x.payload.length < 2 ^ 64 - 1)
    (hrecord : x ≠ .sync) : validateAndDecode x.payload = x.decoded := by
  cases x with
  | sync => exact absurd rfl hrecord
  | record captureTs call =>
    rw [payload, length_sealIn] at hsize
    rw [payload, validateAndDecode_sealIn]
    exact decodeRecordBody_of_reads (reads_body captureTs (by omega))
  | dropout r =>
    rw [payload, validateAndDecode_sealIn]
    exact decodeRecordBody_of_reads (reads_dropout r)

end StreamItem

theorem scanStep_frame (pre rest : Bytes) {x : StreamItem} (hsize : x.payload.length < 2 ^ 64 - 1) :
    scanStep (pre ++ (x.frame ++ rest)) pre.length =
      match x.decoded with
      | none => .sync (pre.length + x.frame.length)
      | some rec => .record rec (pre.length + x.frame.length) := by
  obtain ⟨hlen, hcount⟩ := ofNat_ne_extent hsize
  set off := pre.length + (writeVarint (.ofNat x.payload.length)).length with hoff
  have hread : readVarint (pre ++ (x.frame ++ rest)) pre.length =
      some (.ofNat x.payload.length, off) := by
    rw [StreamItem.frame, framed, List.append_assoc]
    exact readVarint_writeVarint pre _ _
  have hend : off + x.payload.length = pre.length + x.frame.length := by
    rw [hoff, StreamItem.frame, framed, List.length_append, add_assoc]
  have hbound : pre.length + x.frame.length ≤ (pre ++ (x.frame ++ rest)).length := by
    simp only [List.length_append]
    omega
  have hdrop : (pre ++ (x.frame ++ rest)).drop off = x.payload ++ rest := by
    rw [hoff, ← List.drop_drop, List.drop_left, StreamItem.frame, framed, List.append_assoc, List.drop_left]
  have hspan : subspan (pre ++ (x.frame ++ rest)) off (.ofNat x.payload.length) = x.payload := by
    rw [subspan, spanLength_of_ne hcount, hlen, hdrop, List.take_left]
  rw [scanStep, hread]
  dsimp only
  rw [spanLength_of_ne hcount, payloadEnd_of_ne hcount, hspan, hlen, hend,
    if_neg (not_lt.mpr (le_trans (Nat.mod_le _ _) hbound)), if_neg (not_lt.mpr hbound)]
  rcases x.length_payload with ⟨rfl, -⟩ | ⟨hrecord, hlong⟩
  · rfl
  rw [if_neg]
  · rw [validateAndDecode_payload hsize hrecord]
    cases x with
    | sync => exact absurd rfl hrecord
    | record => rfl
    | dropout => rfl
  · intro hsync
    rw [isSync, Bool.and_eq_true, decide_eq_true_eq] at hsync
    exact absurd hsync.1 (ne_of_gt hlong)

theorem length_frame_pos (x : StreamItem) : 0 < x.frame.length := ByteRing.length_framed_pos _

section

variable (pre : Bytes) (items : List StreamItem)

/-- **The walk over intact frames** returns their records, in order, and goes on behind them. -/
theorem scanFrom_frames (rest : Bytes) (hsizes : ∀ x ∈ items, x.payload.length < 2 ^ 64 - 1) :
    scanFrom (pre ++ (items.flatMap StreamItem.frame ++ rest)) pre.length =
      (scanFrom (pre ++ (items.flatMap StreamItem.frame ++ rest))
        (pre.length + (items.flatMap StreamItem.frame).length)).map fun r =>
          { r with records := items.filterMap decoded ++ r.records } := by
  induction items generalizing pre with
  | nil => simp
  | cons x items ih =>
    have hsize := hsizes x (List.mem_cons_self ..)
    have hpos := length_frame_pos x
    have hstep := scanStep_frame pre (items.flatMap StreamItem.frame ++ rest) hsize
    have hrest := ih (pre ++ x.frame) fun y hy => hsizes y (List.mem_cons_of_mem _ hy)
    rw [List.append_assoc, ← List.append_assoc x.frame, List.length_append, add_assoc] at hrest
    rw [← List.append_assoc x.frame] at hstep
    have hlt : pre.length < (pre ++ (x.frame ++ items.flatMap StreamItem.frame ++ rest)).length := by
      simp only [List.length_append]
      omega
    rw [List.flatMap_cons, scanFrom_of_lt hlt, hstep, List.length_append]
    cases hdecoded : x.decoded with
    | none =>
      rw [List.filterMap_cons_none hdecoded]
      exact hrest
    | some rec =>
      rw [List.filterMap_cons_some hdecoded]
      show Option.map _ (scanFrom _ _) = _
      rw [hrest, Option.map_map]
      rfl

/-- Read back in full: the records of all frames, and no flag raised. -/
theorem recover_frames (hsizes : ∀ x ∈ items, x.payload.length < 2 ^ 64 - 1) :
    recover (pre ++ items.flatMap StreamItem.frame) pre.length =
      some { records := items.filterMap decoded } := by
  have hend : (pre ++ items.flatMap StreamItem.frame).length ≤
      pre.length + (items.flatMap StreamItem.frame).length := le_of_eq List.length_append
  have hscan := scanFrom_frames pre items [] hsizes
  rw [List.append_nil, scanFrom_of_le hend, Option.map_some, List.append_nil] at hscan
  exact hscan

end

/-! ## The round trip of a recording -/

namespace FlatRecorder

variable {r : FlatRecorder}

theorem preamble_openStream {ringBytes drainBatch : Nat} {scratchBytes clockEpoch : UInt64}
    {node : NodeId} {rule : TopicCaptureRule} {schema : List TypeSchemaEntry}
    {crypto : CaptureCryptoPosition}
    (hr : r = (flatRecorder ringBytes drainBatch scratchBytes).openStream clockEpoch node rule schema
      crypto) (h : r.overrun = false) :
    r.preamble = beginStream clockEpoch node rule schema crypto ∧ r.sink = r.preamble ∧
      (beginStream clockEpoch node rule schema crypto).length < 2 ^ 64 := by
  subst hr
  have hlt := scratchBytes.toNat_lt
  simp only [openStream] at h ⊢
  split at h
  · cases h
  rename_i hfits
  rw [if_neg hfits]
  have hle : (beginStream clockEpoch node rule schema crypto).length ≤ scratchBytes.toNat :=
    not_lt.mp hfits
  exact ⟨rfl, rfl, by omega⟩

theorem not_overrun_of_run {events : List RecorderEvent}
    (h : (r.run events).overrun = false) : r.overrun = false := by
  by_contra hover
  rw [Bool.not_eq_false] at hover
  rw [overrun_run events hover] at h
  cases h

/-- What precedes the push of a record leaves the ring's size alone and only adds to the log. -/
theorem pushes_surfaceDropout (r : FlatRecorder) (resumedTs : UInt64) :
    (r.maybeSync.surfaceDropout resumedTs).ring.capacity = r.ring.capacity ∧
      r.pushes <+: (r.maybeSync.surfaceDropout resumedTs).pushes := by
  have hpush : ∀ (s : FlatRecorder) (x : StreamItem),
      (s.tryPush x).1.ring.capacity = s.ring.capacity ∧ s.pushes <+: (s.tryPush x).1.pushes :=
    fun s x => ⟨s.ring.capacity_tryPush x.payload, List.prefix_append _ _⟩
  have hsync : r.maybeSync.ring.capacity = r.ring.capacity ∧ r.pushes <+: r.maybeSync.pushes := by
    simp only [maybeSync]
    split
    · exact hpush _ _
    · exact ⟨rfl, List.prefix_refl _⟩
  simp only [surfaceDropout]
  split
  · obtain ⟨hcapacity, hlog⟩ := hpush
      { r.maybeSync with dropouts := (r.maybeSync.dropouts.harvest resumedTs).2 }
      (.dropout (r.maybeSync.dropouts.harvest resumedTs).1)
    exact ⟨hcapacity.trans hsync.1, hsync.2.trans hlog⟩
  · exact hsync

/-- A record whose frame is larger than the ring is shed and counted, and that is all. -/
theorem record_larger_than_ring {n : Nat} (h : Ledger n r.pushes r.dropouts)
    (captureTs resumedTs : UInt64) {call : RecordCall}
    (hfits : (sealIn (call.body captureTs)).length ≤ r.scratchBytes.toNat)
    (hbig : r.ring.capacity < (StreamItem.record captureTs call).frame.length) :
    (r.record captureTs resumedTs call).dropouts.count = 1 ∧
      ∃ before, r.pushes <+: before ∧
        (r.record captureTs resumedTs call).pushes = before ++ [(.record captureTs call, false)] := by
  obtain ⟨hcapacity, hlog⟩ := r.pushes_surfaceDropout resumedTs
  obtain ⟨-, hnone, -⟩ := ledger_surfaceDropout (ledger_maybeSync h) resumedTs
  have hrefused : ((r.maybeSync.surfaceDropout resumedTs).tryPush (.record captureTs call)).2 = false := by
    rw [← hcapacity, StreamItem.frame] at hbig
    simp only [tryPush, ByteRing.tryPush]
    rw [if_pos hbig]
  simp only [record, admitRecord, if_neg (not_lt.mpr hfits), hrefused, Bool.false_eq_true]
  refine ⟨?_, _, hlog, ?_⟩
  · show (DropoutRun.shed _ _ _).count = 1
    show (r.maybeSync.surfaceDropout resumedTs).dropouts.count + 1 = 1
    rw [hnone]
    rfl
  · rw [← hrefused]
    rfl

/-- A recorder of the public interface with a ring of 128 bytes. -/
def publicRecorder : FlatRecorder :=
  recorder 128 65536 1 (Vector.replicate 16 0) {} [{ typeId := 5, schemaData := [1, 2] }] .cleartext

/-- Two frames, the second too large for what is left, a pump, and a third. -/
def threeFrames : List RecorderEvent :=
  [.record 2 3 (.wireFrame .out 0 (Vector.replicate 16 9) [1, 2, 3]),
    .record 4 5 (.wireFrame .out 1 (Vector.replicate 16 9) (List.replicate 80 7)), .pump,
    .record 6 7 (.wireFrame .in_ 2 (Vector.replicate 16 9) [])]

/-- One byte above 64 KiB. -/
def largeSample : RecordCall := .sample 0 {} 0 false .payload (List.replicate 65537 0)

/-- A recorder of the public interface, just opened. -/
def megabyteRecorder : FlatRecorder :=
  recorder (1 <<< 20) 65536 1 (Vector.replicate 16 0) {} [] .cleartext

end FlatRecorder

end Plexus.Recording
