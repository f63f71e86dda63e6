/-
# Plexus.Recording.HostileStream — reading files nobody vouches for
(`io/recording/record_stream_reader.h`, `detail/record_scan.h`, `record_decode.h`).

The decode bodies take their slices through the latching reader and stay inside the stream whatever
the lengths are (`Takes.inside`); the loop over the schema table stops with the first entry that
fails.

The walk over the frames adds a length of 64 bits to an offset and compares the sum with the size.
`walkReads` are the lengths it reads and `walkSlices` the slices it takes: inside the stream exactly
if none of the sums wraps but those with `std::dynamic_extent`, which takes what is there.
-/
import Plexus.Recording.Recover

namespace Plexus.Recording

open Lib Wire Plexus.Stream Traced List

/-! ## The definitions -/

theorem traced_schemaEntry : Traced schemaEntry :=
  Traced.varint.bind fun _ => Traced.blob.bind fun _ => Traced.blob.bind fun _ =>
    Traced.blob.bind fun _ => Traced.blob.bind fun _ => Traced.blob.bind fun _ => .pure _

theorem traced_schemaEntries (n : Nat) : Traced (schemaEntries n) := by
  induction n with
  | zero => exact .pure _
  | succ n ih =>
    have hentry : Traced (do
        let e ← schemaEntry
        let es ← schemaEntries n
        pure (e :: es)) := traced_schemaEntry.bind fun _ => ih.bind fun _ => .pure _
    intro r
    cases hok : r.ok with
    | true =>
      obtain ⟨slices, hslices⟩ := hentry r
      exact ⟨slices, .whenOk [] hok hslices⟩
    | false => exact ⟨[], .unlessOk _ [] hok⟩

theorem traced_definitions : Traced definitions := by
  refine u32.bind fun magic => ?_
  split
  · exact .pure _
  refine u16.bind fun version => ?_
  split
  · exact .pure _
  exact u64.bind fun _ => (Traced.u8s 16).bind fun _ => u8.bind fun _ =>
    u8.bind fun _ => Traced.varint.bind fun _ => Traced.varint.bind fun _ =>
    Traced.varint.bind fun entries => (traced_schemaEntries entries.toNat).bind fun _ =>
    u8.bind fun _ => .pure _

/-- An entry of the table has at least six bytes, a counter for each field. -/
theorem advances_schemaEntry : Advances schemaEntry 6 :=
  Advances.varint.bind fun _ => Advances.blob.bind fun _ => Advances.blob.bind fun _ =>
    Advances.blob.bind fun _ => Advances.blob.bind fun _ => Advances.blob.bind fun _ => .pure _

theorem schemaEntries_of_failed (n : Nat) {r : Reader} (h : r.ok = false) : (schemaEntries n r).1 = [] := by
  cases n with
  | zero => rfl
  | succ n => simp only [schemaEntries, h, Bool.false_eq_true, if_false]

/-- **The table stops.** However many entries it announces, those that are read have six bytes each,
but for the one that failed. -/
theorem length_schemaEntries_le (n : Nat) {r : Reader} (hr : r.Inside) :
    6 * (schemaEntries n r).1.length ≤ r.data.length - r.offset + 6 := by
  induction n generalizing r with
  | zero => exact Nat.zero_le _
  | succ n ih =>
    rw [schemaEntries]
    dsimp only
    split
    · obtain ⟨hdata, hin, hok⟩ := advances_schemaEntry r hr
      have hrest := ih hin
      rw [hdata] at hrest
      show 6 * ((schemaEntries n (schemaEntry r).2).1.length + 1) ≤ _
      cases hafter : (schemaEntry r).2.ok with
      | true =>
        have hle := (hok hafter).2
        have hbound : (schemaEntry r).2.offset ≤ r.data.length := hdata ▸ hin
        omega
      | false =>
        rw [schemaEntries_of_failed n hafter, length_nil]
        omega
    · exact Nat.zero_le _

theorem traced_decodeFields (category : UInt8) : Traced (decodeFields category) := by
  have htail : ∀ rec : DecodedRecord, Traced (pure rec) := fun rec => .pure rec
  have hu8 := u8
  have hu64 := u64
  have hvarint := Traced.varint
  have hblob := Traced.blob
  unfold decodeFields
  split
  · exact hu64.bind fun _ => hu64.bind fun _ => hu64.bind fun _ => hu64.bind fun _ => hu64.bind fun _ =>
      hu8.bind fun _ => hvarint.bind fun _ => hu8.bind fun _ => hblob.bind fun _ => htail _
  split
  · exact hu64.bind fun _ => hu8.bind fun _ => hu8.bind fun _ => hu64.bind fun _ => hu64.bind fun _ =>
      htail _
  split
  · exact hu64.bind fun _ => hu8.bind fun _ => hu64.bind fun _ => hu8.bind fun _ => hu8.bind fun _ =>
      hvarint.bind fun _ => htail _
  split
  · exact hu64.bind fun _ => hu8.bind fun _ => (Traced.u8s 16).bind fun _ => htail _
  split
  · exact hu64.bind fun _ => hu8.bind fun _ => hu64.bind fun _ => hu8.bind fun _ => hvarint.bind fun _ =>
      hblob.bind fun _ => hblob.bind fun _ => hvarint.bind fun _ => htail _
  split
  · exact hu64.bind fun _ => hu8.bind fun _ => hu8.bind fun _ => (Traced.u8s 16).bind fun _ => htail _
  split
  · exact hu64.bind fun _ => hvarint.bind fun _ => hvarint.bind fun _ => hu8.bind fun _ => htail _
  split
  · exact hu64.bind fun _ => hu8.bind fun _ => hu64.bind fun _ => (Traced.u8s 16).bind fun _ =>
      hblob.bind fun _ => htail _
  · exact htail _

/-! ## The walk over the frames -/

variable {stream : Bytes}

/-- The offsets at which the rounds of `recover` begin. -/
def rounds (stream : Bytes) : Nat → Nat → List Nat
  | 0, _ => []
  | fuel + 1, start =>
    if stream.length ≤ start then []
    else start :: ((scanStep stream start).next?.map (rounds stream fuel)).getD []

/-- The offsets at which `resync_from` tries. -/
def tries (stream : Bytes) (start : Nat) : List Nat :=
  let positions := range' start (stream.length - start)
  positions.takeWhile (fun p => !syncAt stream p) ++ (positions.find? (syncAt stream)).toList

/-- A length read at an offset: where its bytes would begin, and how many it says. -/
def readAt (stream : Bytes) (start : Nat) : Option (Nat × UInt64) :=
  (readVarint stream start).map Prod.swap

def resyncReads (stream : Bytes) (start : Nat) : List (Nat × UInt64) :=
  (tries stream start).filterMap (readAt stream)

/-- The lengths read in a round: its own and, if its frame is corrupt, those on the way to the next
marker. -/
def roundReads (stream : Bytes) (start : Nat) : List (Nat × UInt64) :=
  (readAt stream start).toList ++
    match scanStep stream start with
    | .corrupt _ => resyncReads stream (start + 1)
    | _ => []

/-- The lengths read in a walk. -/
def walkReads (stream : Bytes) (cursor : Nat) : List (Nat × UInt64) :=
  (rounds stream (stream.length - cursor) cursor).flatMap (roundReads stream)

/-- The test in front of every slice, on the sum as `size_t` has it. -/
def passes (stream : Bytes) (s : Nat × UInt64) : Bool :=
  (s.1 + s.2.toNat) % 2 ^ 64 ≤ stream.length

/-- The slice `subspan` takes: its offset and its size. -/
def sliceAt (stream : Bytes) (s : Nat × UInt64) : Nat × Nat := (s.1, spanLength stream s.1 s.2)

/-- A payload, and the two parts `validate_and_decode` takes of it. -/
def payloadSlices (s : Nat × Nat) : List (Nat × Nat) :=
  s :: if s.2 < 4 then [] else [(s.1 + (s.2 - 4), 4), (s.1, s.2 - 4)]

/-- The slices taken in a walk. -/
def walkSlices (stream : Bytes) (cursor : Nat) : List (Nat × Nat) :=
  ((walkReads stream cursor).filter (passes stream)).flatMap fun s => payloadSlices (sliceAt stream s)

/-- A sum of an offset and a length that does not leave `size_t`, or the length that stands for all
that is left. -/
def Fits (s : Nat × UInt64) : Prop := s.1 + s.2.toNat < 2 ^ 64 ∨ s.2 = kDynamicExtent

instance : DecidablePred Fits := fun s =>
  inferInstanceAs (Decidable (s.1 + s.2.toNat < 2 ^ 64 ∨ s.2 = kDynamicExtent))

variable {start cursor : Nat}

theorem readAt_le {s : Nat × UInt64} (h : readAt stream start = some s) : s.1 ≤ stream.length := by
  obtain ⟨p, hread, rfl⟩ := Option.map_eq_some_iff.mp h
  exact (readVarint_shape hread).2.1

theorem mem_walkReads {s : Nat × UInt64} (h : s ∈ walkReads stream cursor) : s.1 ≤ stream.length := by
  obtain ⟨start, -, hs⟩ := mem_flatMap.mp h
  rcases mem_append.mp hs with hown | hresync
  · exact readAt_le (Option.mem_toList.mp hown)
  split at hresync
  · obtain ⟨at_, -, hread⟩ := mem_filterMap.mp hresync
    exact readAt_le hread
  · cases hresync

/-- What fits and passes the test is inside. -/
theorem sliceAt_inside {s : Nat × UInt64} (hoff : s.1 ≤ stream.length) (hfits : Fits s)
    (hpass : passes stream s) : (sliceAt stream s).1 + (sliceAt stream s).2 ≤ stream.length := by
  show s.1 + spanLength stream s.1 s.2 ≤ stream.length
  by_cases hextent : s.2 = kDynamicExtent
  · rw [spanLength, if_pos hextent]
    omega
  · rw [passes, decide_eq_true_eq, Nat.mod_eq_of_lt (hfits.resolve_right hextent)] at hpass
    rwa [spanLength_of_ne hextent]

theorem walkSlices_inside (hfits : ∀ s ∈ walkReads stream cursor, Fits s) :
    ∀ s ∈ walkSlices stream cursor, s.1 + s.2 ≤ stream.length := by
  intro s hs
  obtain ⟨t, ht, hs⟩ := mem_flatMap.mp hs
  obtain ⟨hread, hpass⟩ := mem_filter.mp ht
  have hle := sliceAt_inside (mem_walkReads hread) (hfits t hread) hpass
  rcases mem_cons.mp hs with rfl | hs
  · exact hle
  split at hs
  · cases hs
  simp only [mem_cons, not_mem_nil, or_false] at hs
  rcases hs with rfl | rfl
  · show (sliceAt stream t).1 + ((sliceAt stream t).2 - 4) + 4 ≤ stream.length
    omega
  · show (sliceAt stream t).1 + ((sliceAt stream t).2 - 4) ≤ stream.length
    omega

/-- Any other sum that wraps comes out below its offset, so the test lets it pass. -/
theorem fits_of_walkSlices_inside (hsize : stream.length < 2 ^ 64)
    (hinside : ∀ s ∈ walkSlices stream cursor, s.1 + s.2 ≤ stream.length) :
    ∀ s ∈ walkReads stream cursor, Fits s := by
  intro s hs
  have hoff := mem_walkReads hs
  have hlen := s.2.toNat_lt
  by_contra hwraps
  rw [Fits, not_or] at hwraps
  obtain ⟨hsum, hextent⟩ := hwraps
  have hpass : (s.1 + s.2.toNat) % 2 ^ 64 ≤ stream.length := by
    omega
  have hle := hinside (sliceAt stream s) (mem_flatMap.mpr ⟨s, mem_filter.mpr ⟨hs, decide_eq_true hpass⟩,
    mem_cons_self ..⟩)
  rw [sliceAt, spanLength_of_ne hextent] at hle
  omega

/-! ### Rounds -/

theorem next_lt {next : Nat} (hlt : start < stream.length)
    (h : (scanStep stream start).next? = some next) : start < next := by
  have hadv := scanStep_advances hlt
  cases hstep : scanStep stream start with
  | partialTail | outOfBounds => rw [hstep] at h; cases h
  | sync n | corrupt n | record rec n => rw [hstep] at h hadv; exact Option.some.inj h ▸ hadv

/-- **Every round begins further down** than the one before, inside the stream. -/
theorem rounds_increase (fuel start : Nat) :
    (rounds stream fuel start).Pairwise (· < ·) ∧
      ∀ p ∈ rounds stream fuel start, start ≤ p ∧ p < stream.length := by
  induction fuel generalizing start with
  | zero => exact ⟨.nil, fun _ hp => (nomatch hp)⟩
  | succ fuel ih =>
    rw [rounds]
    split
    · exact ⟨.nil, fun _ hp => (nomatch hp)⟩
    rename_i hstart
    have hlt : start < stream.length := not_le.mp hstart
    cases hnext : (scanStep stream start).next? with
    | none =>
      refine ⟨pairwise_singleton _ _, fun p hp => ?_⟩
      obtain rfl := mem_singleton.mp hp
      exact ⟨le_rfl, hlt⟩
    | some next =>
      obtain ⟨hpair, hrange⟩ := ih next
      have hgo := next_lt hlt hnext
      refine ⟨pairwise_cons.mpr ⟨fun p hp => lt_of_lt_of_le hgo (hrange p hp).1, hpair⟩,
        fun p hp => ?_⟩
      rcases mem_cons.mp hp with rfl | hp
      · exact ⟨le_rfl, hlt⟩
      · exact ⟨le_trans (le_of_lt hgo) (hrange p hp).1, (hrange p hp).2⟩

theorem five_le_of_record {next : Nat} {rec : DecodedRecord}
    (h : scanStep stream start = .record rec next) : start + 5 ≤ next ∧ next ≤ stream.length := by
  have hfound := scanStep_found stream start
  rw [h] at hfound
  obtain ⟨off, len, hread, rfl, hin, hvalid⟩ := hfound
  obtain ⟨hlt, hle, -, -⟩ := readVarint_shape hread
  by_cases hextent : len = kDynamicExtent
  · have hten := ten_le_of_extent hread hextent
    rw [payloadEnd, if_pos hextent]
    omega
  have hlong : 4 ≤ (subspan stream off len).length := by
    by_contra hshort
    rw [validateAndDecode, if_pos (not_le.mp hshort)] at hvalid
    cases hvalid
  rw [length_subspan hin, spanLength_of_ne hextent] at hlong
  rw [spanLength_of_ne hextent] at hin
  rw [payloadEnd_of_ne hextent]
  omega

/-- **Five bytes for each record.** -/
theorem five_mul_records_le {R : Recovery} (h : scanFrom stream start = some R) :
    5 * R.records.length ≤ stream.length - start := by
  obtain ⟨n, hn⟩ : ∃ n, stream.length - start = n := ⟨_, rfl⟩
  -- on what is left of the stream; every round leaves less
  induction n using Nat.strongRecOn generalizing start R with
  | ind n ih =>
    rcases lt_or_ge start stream.length with hlt | hge
    · rw [scanFrom_of_lt hlt] at h
      have hadv := scanStep_advances hlt
      cases hstep : scanStep stream start with
      | partialTail =>
        rw [hstep] at h
        obtain rfl := Option.some.inj h
        exact Nat.zero_le _
      | outOfBounds => rw [hstep] at h; cases h
      | sync next =>
        rw [hstep, ScanStep.Advances] at hadv
        rw [hstep] at h
        have hrest := ih (stream.length - next) (by omega) h rfl
        omega
      | corrupt next =>
        rw [hstep, ScanStep.Advances] at hadv
        rw [hstep] at h
        obtain ⟨R', hR', rfl⟩ := Option.map_eq_some_iff.mp h
        have hrest := ih (stream.length - next) (by omega) hR' rfl
        exact le_trans hrest (by omega)
      | record rec next =>
        obtain ⟨hfive, hnext⟩ := five_le_of_record hstep
        rw [hstep] at h
        obtain ⟨R', hR', rfl⟩ := Option.map_eq_some_iff.mp h
        have hrest := ih (stream.length - next) (by omega) hR' rfl
        show 5 * (R'.records.length + 1) ≤ _
        omega
    · rw [scanFrom_of_le hge] at h
      obtain rfl := Option.some.inj h
      exact Nat.zero_le _

theorem scanStep_ne_outOfBounds (h : ∀ s ∈ roundReads stream start, Fits s) :
    scanStep stream start ≠ .outOfBounds := by
  intro hstep
  have hown : ∀ s ∈ (readAt stream start).toList, Fits s := fun s hs => h s (mem_append_left _ hs)
  rw [scanStep] at hstep
  cases hread : readVarint stream start with
  | none => rw [hread] at hstep; cases hstep
  | some p =>
    obtain ⟨len, off⟩ := p
    have hfits : Fits (off, len) := hown (off, len) (by rw [readAt, hread]; simp)
    rw [hread] at hstep
    dsimp only at hstep
    split at hstep
    · cases hstep
    rename_i hpass
    have hin : off + spanLength stream off len ≤ stream.length :=
      sliceAt_inside (readVarint_shape hread).2.1 hfits (decide_eq_true (not_lt.mp hpass))
    rw [if_neg (not_lt.mpr hin)] at hstep
    split at hstep
    · cases hstep
    · split at hstep <;> cases hstep

/-- **Without a sum that wraps the walk comes to its end.** -/
theorem exists_scan (fuel : Nat)
    (h : ∀ s ∈ (rounds stream fuel start).flatMap (roundReads stream), Fits s) :
    ∃ R, scan stream fuel start = some R := by
  induction fuel generalizing start with
  | zero => exact ⟨_, rfl⟩
  | succ fuel ih =>
    rcases lt_or_ge start stream.length with hlt | hge
    · rw [rounds, if_neg (not_le.mpr hlt)] at h
      have hown : ∀ s ∈ roundReads stream start, Fits s := fun s hs => h s (mem_append_left _ hs)
      have hrest : ∀ next, (scanStep stream start).next? = some next →
          ∃ R, scan stream fuel next = some R := by
        intro next hnext
        apply ih
        intro s hs
        apply h
        rw [hnext]
        exact mem_append_right _ hs
      rw [scan_succ stream fuel hlt]
      cases hstep : scanStep stream start with
      | partialTail => exact ⟨_, rfl⟩
      | outOfBounds => exact absurd hstep (scanStep_ne_outOfBounds hown)
      | sync next => exact hrest next (by rw [hstep]; rfl)
      | corrupt next | record rec next =>
        obtain ⟨R, hR⟩ := hrest next (by rw [hstep]; rfl)
        exact ⟨_, by rw [ScanStep.then, hR]; rfl⟩
    · exact ⟨_, scan_of_le stream _ hge⟩

/-- **The reader on any bytes.**

Reading the definitions takes slices of the stream only, and so does a record body of its payload;
the schema table stops, whatever it announces. Wherever the walk starts, each of its rounds begins
further down than the one before and inside the stream, so that it ends; and a recovery has five
bytes of the stream for each record.

The slices of the walk are inside the stream and it comes to its end if no sum of an offset and a
length wraps, `dynamic_extent` apart; on a stream that fits an address space, only then. -/
theorem reader_on_any_bytes (stream : Bytes) :
    (∃ slices, Takes definitions ⟨stream, 0, true⟩ slices ∧
      ∀ s ∈ slices, s.1 + s.2 ≤ stream.length) ∧
    (∀ body : Bytes, ∃ slices, Takes (Decode.u8 >>= decodeFields) ⟨body, 0, true⟩ slices ∧
      ∀ s ∈ slices, s.1 + s.2 ≤ body.length) ∧
    (∀ (entries : UInt64) (offset : Nat) (ok : Bool), offset ≤ stream.length →
      6 * (schemaEntries entries.toNat ⟨stream, offset, ok⟩).1.length ≤ stream.length - offset + 6) ∧
    ∀ cursor : Nat,
      (∀ fuel, stream.length - cursor ≤ fuel → scan stream fuel cursor = recover stream cursor) ∧
      (rounds stream (stream.length - cursor) cursor).Pairwise (· < ·) ∧
      (∀ p ∈ rounds stream (stream.length - cursor) cursor, cursor ≤ p ∧ p < stream.length) ∧
      (∀ R, recover stream cursor = some R → R.records.length * 5 ≤ stream.length) ∧
      ((∀ s ∈ walkReads stream cursor, Fits s) →
        (∃ R, recover stream cursor = some R) ∧
          ∀ s ∈ walkSlices stream cursor, s.1 + s.2 ≤ stream.length) ∧
      (stream.length < 2 ^ 64 → (∀ s ∈ walkSlices stream cursor, s.1 + s.2 ≤ stream.length) →
        ∀ s ∈ walkReads stream cursor, Fits s) := by
  refine ⟨?_, fun body => ?_, fun entries offset ok hin => ?_, fun cursor => ⟨fun fuel hfuel => ?_, ?_, ?_,
    fun R hR => ?_, fun hfits => ⟨exists_scan _ hfits, walkSlices_inside hfits⟩,
    fun hsize hinside => fits_of_walkSlices_inside hsize hinside⟩⟩
  · obtain ⟨slices, hslices⟩ := traced_definitions ⟨stream, 0, true⟩
    exact ⟨slices, hslices, (hslices.inside (Nat.zero_le _)).2⟩
  · obtain ⟨slices, hslices⟩ := Traced.u8.bind traced_decodeFields ⟨body, 0, true⟩
    exact ⟨slices, hslices, (hslices.inside (Nat.zero_le _)).2⟩
  · exact length_schemaEntries_le entries.toNat hin
  · exact scan_fuel stream (by omega) (by omega)
  · exact (rounds_increase _ cursor).1
  · exact (rounds_increase _ cursor).2
  · have hfive := five_mul_records_le (show scanFrom stream cursor = some R from hR)
    omega

/-- A preamble, a frame that is too short for its CRC, and a sync marker behind it. -/
def shortFrame : Bytes :=
  beginStream 1 (Vector.replicate 16 0) {} [] .cleartext ++ [1, 0] ++ StreamItem.sync.frame

theorem reader_on_short_frame :
    rounds shortFrame (shortFrame.length - 36) 36 = [36, 38] ∧
      walkReads shortFrame 36 = [(37, 1), (38, 0), (39, 4), (39, 4)] ∧
      (∃ R, recover shortFrame 36 = some R) ∧
      ∀ s ∈ walkSlices shortFrame 36, s.1 + s.2 ≤ shortFrame.length :=
  ⟨by decide +kernel, by decide +kernel,
    ((reader_on_any_bytes shortFrame).2.2.2 36).2.2.2.2.1 (by decide +kernel)⟩

/-- A preamble and the length `2 ^ 64 - 2`. -/
def wrappedLength : Bytes :=
  beginStream 1 (Vector.replicate 16 0) {} [] .cleartext ++ [0xFE] ++ replicate 8 0xFF ++ [1]

/-- Its sum with the offset is 44, which passes the test; the slice taken has `2 ^ 64 - 2` bytes. -/
theorem wrapped_length_leaves_stream :
    (readDefinitions wrappedLength).map Prod.snd = some 36 ∧ wrappedLength.length = 46 ∧
      (46, 2 ^ 64 - 2) ∈ walkSlices wrappedLength 36 ∧ recover wrappedLength 36 = none := by
  decide +kernel

end Plexus.Recording
