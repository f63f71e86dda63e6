/-
# Plexus.Recording.Corruption — what damage to a recording costs.

A span of the stream behind the preamble is overwritten. The frames before it are read as ever, and
so are those behind the next sync marker, if the walk gets there. It cannot go past the marker: a
resync stops at the first one, a record is only accepted where one was written (`OnlyOriginals`, the
CRC hypothesis), and no false marker overlaps the true one (`sync_le`).

But it can end before: a length that cannot be read, or reaches past the end, is taken for a cut-off
tail (`CutOff`), also where it is damage. It has to stand where the walk looks for a length, behind
an original frame or behind what looks like a marker (`FrameEnd`); `walk` says that this is the only
way to miss a marker.
-/
import Plexus.Recording.Recover

namespace Plexus.Recording

open Lib Wire Plexus.Stream StreamItem List

/-! ## Damage -/

/-- The bytes `[a, b)` replaced. -/
def damage (stream : Bytes) (a b : Nat) (fill : Bytes) : Bytes :=
  stream.take a ++ (fill ++ stream.drop b)

/-- The check of `validate_and_decode`. -/
def crcPasses (payload : Bytes) : Bool :=
  4 ≤ payload.length &&
    crc32c (payload.take (payload.length - 4)) = readU32 (payload.drop (payload.length - 4))

variable {rec : DecodedRecord} {stream : Bytes} {items todo late : List StreamItem}
  {cursor off start p : Nat}

theorem crcPasses_of_validate {payload : Bytes} (h : validateAndDecode payload = some rec) :
    crcPasses payload := by
  rw [validateAndDecode] at h
  split at h
  · cases h
  rename_i hlong
  dsimp only at h
  split at h
  · cases h
  · rename_i hcrc
    rw [crcPasses, Bool.and_eq_true, decide_eq_true_eq, decide_eq_true_eq]
    exact ⟨not_lt.mp hlong, not_not.mp hcrc⟩

/-- The bytes that frames take up. -/
def size (items : List StreamItem) : Nat := (items.flatMap frame).length

theorem size_append (items items' : List StreamItem) :
    size (items ++ items') = size items + size items' := by
  simp only [size, flatMap_append, length_append]

theorem size_cons (x : StreamItem) (items : List StreamItem) :
    size (x :: items) = x.frame.length + size items := by
  simp only [size, flatMap_cons, length_append]

/-- Where the payload of `x` begins, behind the frames before it. -/
def payloadStart (cursor : Nat) (before : List StreamItem) (x : StreamItem) : Nat :=
  cursor + size before + (writeVarint (.ofNat x.payload.length)).length

section

variable (cursor : Nat) (before : List StreamItem) (x : StreamItem)

theorem payloadStart_add :
    payloadStart cursor before x + x.payload.length = cursor + size (before ++ [x]) := by
  rw [size_append, size_cons, payloadStart, frame, framed, length_append]
  simp only [size, flatMap_nil, length_nil]
  omega

theorem lt_payloadStart : cursor + size before < payloadStart cursor before x := by
  have hpos := length_writeVarint_pos (.ofNat x.payload.length)
  rw [payloadStart]
  omega

end

/-- No slice passes the check but an original record, unchanged and in its place. -/
def OnlyOriginals (check : Bytes → Bool) (stream : Bytes) (cursor : Nat)
    (items : List StreamItem) : Prop :=
  ∀ off len, off + len ≤ stream.length → check ((stream.drop off).take len) = true →
    ∃ before x after, items = before ++ x :: after ∧ x ≠ .sync ∧
      off = payloadStart cursor before x ∧ (stream.drop off).take len = x.payload

/-- The reader accepts a payload that decodes, too: four zero bytes, say, have the checksum of an
empty body, which does not. -/
def accepted (payload : Bytes) : Bool := (validateAndDecode payload).isSome

theorem OnlyOriginals.accepted (h : OnlyOriginals crcPasses stream cursor items) :
    OnlyOriginals accepted stream cursor items := by
  intro off len hin haccepted
  obtain ⟨rec, hrec⟩ := Option.isSome_iff_exists.mp haccepted
  exact h off len hin (crcPasses_of_validate hrec)

/-! ### Checking a given stream

The checksums of all slices from one position are the states of one pass over the bytes; the kernel
runs it on numbers. -/

def crcStep (crc : UInt32) (b : UInt8) : UInt32 :=
  crc32cTable ((crc ^^^ b.toUInt32) &&& 0xFF) ^^^ (crc >>> 8)

def crcBit (c : Nat) : Nat := c % 2 * 0x82F63B78 ^^^ c / 2

def crcByte (crc b : Nat) : Nat :=
  crcBit (crcBit (crcBit (crcBit (crcBit (crcBit (crcBit (crcBit ((crc ^^^ b) % 256)))))))) ^^^ crc / 256

theorem toNat_tableStep (c : UInt32) :
    (if c &&& 1 ≠ 0 then kCrc32cPolyReflected ^^^ (c >>> 1) else c >>> 1).toNat = crcBit c.toNat := by
  have hodd : c &&& 1 ≠ 0 ↔ c.toNat % 2 = 1 := by
    rw [Ne, ← UInt32.toNat_inj, UInt32.toNat_and, show (1 : UInt32).toNat = 1 by rfl, Nat.and_one_is_mod,
      show (0 : UInt32).toNat = 0 by rfl]
    omega
  have hhalf : (c >>> 1).toNat = c.toNat / 2 := by
    exact Nat.shiftRight_eq_div_pow _ 1
  by_cases h : c.toNat % 2 = 1
  · rw [if_pos (hodd.mpr h), crcBit, h]
    rfl
  · rw [if_neg (mt hodd.mp h), hhalf, crcBit, Nat.mod_two_ne_one.mp h, Nat.zero_xor]

theorem toNat_crcStep (crc : UInt32) (b : UInt8) : (crcStep crc b).toNat = crcByte crc.toNat b.toNat := by
  have hlow : ((crc ^^^ b.toUInt32) &&& 0xFF).toNat = (crc.toNat ^^^ b.toNat) % 256 := by
    exact Nat.and_two_pow_sub_one_eq_mod _ 8
  have hhigh : (crc >>> 8).toNat = crc.toNat / 256 := by
    exact Nat.shiftRight_eq_div_pow _ 8
  rw [crcStep, UInt32.toNat_xor, hhigh, crcByte, crc32cTable,
    show range 8 = [0, 1, 2, 3, 4, 5, 6, 7] by rfl]
  simp only [foldl_cons, foldl_nil, toNat_tableStep, hlow]

/-- The lengths at which a slice passes, with `n` bytes of it behind us. -/
def crcHitsFrom : Nat → Bytes → Nat → List Nat
  | _, [], _ => []
  | crc, b :: bs, n =>
    (if 4 ≤ (b :: bs).length ∧ 2 ^ 32 - 1 - crc = ofBE ((b :: bs).take 4) then [n + 4] else []) ++
      crcHitsFrom (crcByte crc b.toNat) bs (n + 1)

def crcHits (stream : Bytes) : List (Nat × Nat) :=
  (range stream.length).flatMap fun off =>
    (crcHitsFrom (2 ^ 32 - 1) (stream.drop off) 0).map fun len => (off, len)

theorem mem_crcHitsFrom (bytes : Bytes) (crc : UInt32) (n k : Nat) (hk : k + 4 ≤ bytes.length)
    (hcrc : ~~~ ((bytes.take k).foldl crcStep crc) = readU32 (bytes.drop k)) :
    n + k + 4 ∈ crcHitsFrom crc.toNat bytes n := by
  induction bytes generalizing crc n k with
  | nil => simp at hk
  | cons b bs ih =>
    cases k with
    | zero =>
      have hread : 2 ^ 32 - 1 - crc.toNat = ofBE ((b :: bs).take 4) := by
        have hlt : ofBE ((b :: bs).take 4) < 2 ^ 32 := by
          have hfour : ((b :: bs).take 4).length = 4 := length_take_of_le (by omega)
          have h := ofBE_lt ((b :: bs).take 4)
          rwa [hfour] at h
        calc 2 ^ 32 - 1 - crc.toNat = (~~~ crc).toNat := (UInt32.toNat_not crc).symm
          _ = (readU32 (b :: bs)).toNat := congrArg UInt32.toNat hcrc
          _ = ofBE ((b :: bs).take 4) := UInt32.toNat_ofNat_of_lt' hlt
      apply mem_append_left
      rw [if_pos ⟨by omega, hread⟩, mem_singleton]
    | succ k =>
      apply mem_append_right
      have hmem := ih (crcStep crc b) (n + 1) k (by rw [length_cons] at hk; omega) hcrc
      rwa [toNat_crcStep, show n + 1 + k + 4 = n + (k + 1) + 4 by omega] at hmem

theorem mem_crcHits {len : Nat} (hin : off + len ≤ stream.length)
    (hpasses : crcPasses ((stream.drop off).take len)) : (off, len) ∈ crcHits stream := by
  have hlength : ((stream.drop off).take len).length = len := by
    rw [length_take, length_drop]
    omega
  rw [crcPasses, hlength, Bool.and_eq_true, decide_eq_true_eq, decide_eq_true_eq,
    take_take, Nat.min_eq_left (Nat.sub_le _ _)] at hpasses
  obtain ⟨hfour, hcrc⟩ := hpasses
  -- the four bytes behind the slice's body are the next four of the stream
  have hstored : readU32 (((stream.drop off).take len).drop (len - 4)) =
      readU32 ((stream.drop off).drop (len - 4)) := by
    rw [readU32, readU32, drop_take, take_take, Nat.min_eq_left (by omega)]
  rw [hstored] at hcrc
  refine mem_flatMap.mpr ⟨off, mem_range.mpr (by omega), mem_map.mpr ⟨len, ?_, rfl⟩⟩
  have hmem := mem_crcHitsFrom (stream.drop off) (~~~ 0) 0 (len - 4) (by rw [length_drop]; omega) hcrc
  rwa [zero_add, Nat.sub_add_cancel hfour] at hmem

/-- The payloads of the records with their places. -/
def originals : Nat → List StreamItem → List (Nat × Bytes)
  | _, [] => []
  | cursor, x :: items =>
    (if x = .sync then [] else [(payloadStart cursor [] x, x.payload)]) ++
      originals (cursor + x.frame.length) items

theorem exists_of_mem_originals {bytes : Bytes} (h : (off, bytes) ∈ originals cursor items) :
    ∃ before x after, items = before ++ x :: after ∧ x ≠ .sync ∧ off = payloadStart cursor before x ∧
      bytes = x.payload := by
  induction items generalizing cursor with
  | nil => cases h
  | cons y items ih =>
    rcases mem_append.mp h with hhere | hlater
    · split at hhere
      · cases hhere
      · rename_i hrecord
        rw [mem_singleton, Prod.mk.injEq] at hhere
        exact ⟨[], y, items, rfl, hrecord, hhere.1, hhere.2⟩
    · obtain ⟨before, x, after, rfl, hrecord, rfl, rfl⟩ := ih hlater
      refine ⟨y :: before, x, after, rfl, hrecord, ?_, rfl⟩
      rw [payloadStart, payloadStart, size_cons, ← add_assoc cursor]

theorem onlyOriginals_of_hits
    (h : ∀ p ∈ crcHits stream, (p.1, (stream.drop p.1).take p.2) ∈ originals cursor items) :
    OnlyOriginals crcPasses stream cursor items :=
  fun off len hin hpasses => exists_of_mem_originals (h (off, len) (mem_crcHits hin hpasses))

/-! ## No way past a marker -/

theorem writeU32_readU32 {src : Bytes} (h : 4 ≤ src.length) :
    writeU32 (readU32 src) = src.take 4 := by
  have hlen : (src.take 4).length = 4 := by simpa using h
  have hlt : ofBE (src.take 4) < 2 ^ 32 := by simpa [hlen] using ofBE_lt (src.take 4)
  rw [writeU32, readU32, UInt32.toNat_ofNat_of_lt' hlt]
  conv_rhs => rw [← toBE_ofBE (src.take 4), hlen]

theorem eq_of_isSync {payload : Bytes} (h : isSync payload) : payload = writeU32 kSyncMarker := by
  rw [isSync, Bool.and_eq_true, decide_eq_true_eq, decide_eq_true_eq] at h
  rw [← h.2, writeU32_readU32 (le_of_eq h.1.symm), take_of_length_le (le_of_eq h.1)]

/-- The byte a marker's frame begins with is not in the marker. -/
theorem getElem?_marker_ne {k : Nat} (hsync : isSync ((stream.drop off).take 4)) (hk : k < 4) :
    stream[off + k]? ≠ some 4 := by
  have hget : stream[off + k]? = (writeU32 kSyncMarker)[k]? := by
    rw [← eq_of_isSync hsync, getElem?_take, if_pos hk, getElem?_drop]
  have hnone : ∀ k : Fin 4, (writeU32 kSyncMarker)[k.val]? ≠ some 4 := by decide +kernel
  rw [hget]
  exact hnone ⟨k, hk⟩

/-- A counter that begins before a marker's frame ends before it, or is a long one. -/
theorem varint_meets_marker {len : UInt64} (h : readVarint stream start = some (len, off))
    (hp : stream[p]? = some 4) (hstart : start < p) :
    off ≤ p ∨ (off = p + 1 ∧ 4 * 128 ≤ len.toNat) := by
  obtain ⟨-, -, hmore, hlast⟩ := readVarint_shape h
  rcases Nat.lt_trichotomy off (p + 1) with hlt | heq | hgt
  · exact .inl (by omega)
  · refine .inr ⟨heq, ?_⟩
    exact hlast 4 (by rw [heq]; exact hp) (by omega)
  · exact absurd (by decide) (hmore p 4 (le_of_lt hstart) (by omega) hp)

/-- A marker stands at `p`, whole. -/
def MarkerAt (stream : Bytes) (p : Nat) : Prop :=
  ∃ pre rest, stream = pre ++ (sync.frame ++ rest) ∧ pre.length = p

section

variable (h : MarkerAt stream p)
include h

theorem MarkerAt.byte : stream[p]? = some 4 := by
  obtain ⟨pre, rest, rfl, rfl⟩ := h
  rw [getElem?_append_right (Nat.le_refl _), Nat.sub_self]
  rfl

theorem MarkerAt.lt : p < stream.length := by
  obtain ⟨pre, rest, rfl, rfl⟩ := h
  have hpos := length_frame_pos .sync
  simp only [length_append]
  omega

theorem MarkerAt.syncAt : syncAt stream p := by
  obtain ⟨pre, rest, rfl, rfl⟩ := h
  have hread : readVarint (pre ++ (sync.frame ++ rest)) pre.length =
      some (4, pre.length + 1) := by
    have hvarint := readVarint_writeVarint pre (writeU32 kSyncMarker ++ rest) 4
    exact hvarint
  have hdrop : (pre ++ (sync.frame ++ rest)).drop (pre.length + 1) =
      writeU32 kSyncMarker ++ rest := by
    rw [← drop_drop, drop_left]
    rfl
  have hlen : sync.frame.length = 5 := by decide +kernel
  have hspan : subspan (pre ++ (sync.frame ++ rest)) (pre.length + 1) 4 = writeU32 kSyncMarker := by
    rw [subspan, hdrop]
    rfl
  simp only [Recording.syncAt, hread, hspan, Bool.and_eq_true, decide_eq_true_eq, length_append]
  refine ⟨?_, rfl⟩
  show pre.length + 1 + 4 ≤ _
  omega

theorem resyncFrom_le (hstart : start ≤ p) : resyncFrom stream start ≤ p := by
  have hlt := h.lt
  rw [resyncFrom]
  cases hfind : (range' start (stream.length - start)).find? (syncAt stream) with
  | none =>
    rw [find?_range'_eq_none] at hfind
    have hnot := hfind p hstart (by omega)
    rw [h.syncAt] at hnot
    cases hnot
  | some q =>
    rw [find?_range'_eq_some] at hfind
    by_contra hq
    have hnot := hfind.2.2 p hstart (Nat.lt_of_not_le hq)
    rw [h.syncAt] at hnot
    cases hnot

/-- A false marker ends before a true one. -/
theorem sync_le {next : Nat} (hstart : start < p) (hstep : scanStep stream start = .sync next) :
    next ≤ p := by
  have hfound := scanStep_found stream start
  rw [hstep] at hfound
  obtain ⟨off, len, hread, rfl, hend, hsync⟩ := hfound
  have hmeets := varint_meets_marker hread h.byte hstart
  by_cases hextent : len = kDynamicExtent
  · rw [payloadEnd, if_pos hextent]
    omega
  have hfour : len.toNat = 4 := by
    rw [← spanLength_of_ne hextent, ← length_subspan hend, eq_of_isSync hsync]
    rfl
  rw [subspan, spanLength_of_ne hextent, hfour] at hsync
  rw [payloadEnd_of_ne hextent, hfour]
  rcases hmeets with hle | ⟨-, hlong⟩
  · by_contra hover
    have hne := getElem?_marker_ne hsync (show p - off < 4 by omega)
    rw [Nat.add_sub_cancel' hle] at hne
    exact hne h.byte
  · omega

end

/-- A record that is accepted is an original one, read from its own frame's payload; the walk goes on
behind it, unless it was the last of the stream. -/
theorem record_original {next : Nat} (hcrc : OnlyOriginals accepted stream cursor items)
    (hsizes : ∀ x ∈ items, x.payload.length < 2 ^ 64 - 1)
    (hstep : scanStep stream start = .record rec next) :
    ∃ before x after len, items = before ++ x :: after ∧ x ≠ .sync ∧ x.decoded = some rec ∧
      readVarint stream start = some (len, payloadStart cursor before x) ∧
      (next = cursor + size (before ++ [x]) ∨ cursor + size (before ++ [x]) = stream.length) := by
  have hfound := scanStep_found stream start
  rw [hstep] at hfound
  obtain ⟨off, len, hread, rfl, hend, hvalid⟩ := hfound
  obtain ⟨before, x, after, rfl, hrecord, rfl, hslice⟩ :=
    hcrc off (spanLength stream off len) hend (by rw [accepted, ← subspan, hvalid]; rfl)
  rw [← subspan] at hslice
  have hlen : spanLength stream (payloadStart cursor before x) len = x.payload.length := by
    rw [← hslice, length_subspan hend]
  have hsize := hsizes x (mem_append_right _ (mem_cons_self ..))
  rw [hslice, validateAndDecode_payload hsize hrecord] at hvalid
  refine ⟨before, x, after, len, rfl, hrecord, hvalid, hread, ?_⟩
  rw [← payloadStart_add, ← hlen]
  by_cases hextent : len = kDynamicExtent
  · have hle := (readVarint_shape hread).2.1
    rw [spanLength, if_pos hextent]
    exact .inr (Nat.add_sub_cancel' hle)
  · rw [payloadEnd_of_ne hextent, spanLength_of_ne hextent]
    exact .inl rfl

/-- Read before a marker, it stands before it; and behind what the walk has passed. -/
theorem record_between {next : Nat} {done : List StreamItem}
    (hmarker : MarkerAt stream (cursor + size (done ++ todo)))
    (hcrc : OnlyOriginals accepted stream cursor (done ++ todo ++ .sync :: late))
    (hsizes : ∀ x ∈ done ++ todo ++ .sync :: late, x.payload.length < 2 ^ 64 - 1)
    (hdone : cursor + size done ≤ start) (hstart : start < cursor + size (done ++ todo))
    (hstep : scanStep stream start = .record rec next) :
    ∃ skipped x rest, todo = skipped ++ x :: rest ∧ x.decoded = some rec ∧
      next = cursor + size (done ++ skipped ++ [x]) := by
  obtain ⟨before, x, after, len, hitems, hrecord, hdecoded, hread, hnext⟩ :=
    record_original hcrc hsizes hstep
  have hinside := hmarker.lt
  obtain ⟨hafter, -, -, -⟩ := readVarint_shape hread
  have hframe := payloadStart_add cursor before x
  -- the payload begins before the marker
  have hbefore : payloadStart cursor before x ≤ cursor + size (done ++ todo) ∨
      payloadStart cursor before x = cursor + size (done ++ todo) + 1 := by
    rcases varint_meets_marker hread hmarker.byte hstart with hle | ⟨heq, -⟩
    · exact .inl hle
    · exact .inr heq
  have hpos := lt_payloadStart cursor before x
  rw [append_assoc] at hitems
  rcases append_eq_append_iff.mp hitems with ⟨skipped, rfl, hrest⟩ | ⟨passed, rfl, hrest⟩
  · rcases append_eq_append_iff.mp hrest with ⟨more, rfl, hlate⟩ | ⟨rest, rfl, hlate⟩
    · -- behind the marker's frame, or the marker's frame itself
      cases more with
      | nil =>
        rw [nil_append, cons.injEq] at hlate
        exact absurd hlate.1.symm hrecord
      | cons y more =>
        obtain ⟨rfl, -⟩ := hlate
        have hsync := length_frame_pos .sync
        simp only [size_append, size_cons] at hpos hbefore
        omega
    · cases rest with
      | nil =>
        rw [nil_append, cons.injEq] at hlate
        exact absurd hlate.1 hrecord
      | cons y rest =>
        rw [cons_append, cons.injEq] at hlate
        refine ⟨skipped, x, rest, by rw [hlate.1], hdecoded, hnext.resolve_right (ne_of_lt ?_)⟩
        rw [← hlate.1] at hinside
        simp only [size_append, size_cons] at hinside ⊢
        rw [show size [] = 0 from rfl]
        omega
  cases passed with
  | nil =>
    rw [nil_append] at hrest
    cases todo with
    | nil =>
      rw [nil_append, cons.injEq] at hrest
      exact absurd hrest.1 hrecord
    | cons y todo =>
      rw [cons_append, cons.injEq] at hrest
      refine ⟨[], x, todo, by rw [hrest.1]; rfl, hdecoded, ?_⟩
      rw [append_nil, append_nil]
      refine hnext.resolve_right (ne_of_lt ?_)
      rw [← hrest.1, append_nil] at hinside
      simp only [size_append, size_cons] at hinside ⊢
      rw [show size [] = 0 from rfl]
      omega
  | cons y passed =>
    -- what has been passed is not read again
    obtain ⟨rfl, -⟩ := hrest
    simp only [size_append, size_cons] at hdone hframe
    rw [show size [] = 0 from rfl] at hframe
    omega

/-! ## The walk between the damage and a marker -/

/-- What looks like a marker ends at `p`. -/
def MarkerEnds (stream : Bytes) (p : Nat) : Prop :=
  ∃ q < p, syncAt stream q = true ∧
    (readVarint stream q).map (fun out => payloadEnd out.2 out.1) = some p

/-- An original frame ends at `p`, or what looks like a marker. -/
def FrameEnd (stream : Bytes) (cursor : Nat) (items : List StreamItem) (p : Nat) : Prop :=
  (∃ n ≤ items.length, p = cursor + size (items.take n)) ∨ MarkerEnds stream p

instance FrameEnd.decidable (stream : Bytes) (cursor : Nat) (items : List StreamItem) (p : Nat) :
    Decidable (FrameEnd stream cursor items p) :=
  have : Decidable (MarkerEnds stream p) :=
    inferInstanceAs (Decidable (∃ q < p, syncAt stream q = true ∧ _))
  inferInstanceAs (Decidable (_ ∨ _))

theorem frameEnd_append (stream : Bytes) (cursor : Nat) (before after : List StreamItem) :
    FrameEnd stream cursor (before ++ after) (cursor + size before) :=
  .inl ⟨before.length, by rw [length_append]; omega, by rw [take_left]⟩

theorem not_cutOff_of_syncAt (h : syncAt stream p) : ¬ CutOff stream p := by
  intro hcut
  rw [syncAt] at h
  cases hread : readVarint stream p with
  | none => rw [hread] at h; cases h
  | some out =>
    rw [hread, Bool.and_eq_true, decide_eq_true_eq] at h
    exact absurd h.1 (not_le.mpr (hcut out hread))

/-- A marker that is skipped ends where the walk goes on. -/
theorem markerEnds_of_sync {next : Nat} (hstep : scanStep stream start = .sync next) :
    MarkerEnds stream next := by
  have hfound := scanStep_found stream start
  rw [hstep] at hfound
  obtain ⟨off, len, hread, rfl, hend, hsync⟩ := hfound
  refine ⟨start, lt_payloadEnd hread, ?_, by rw [hread]; rfl⟩
  rw [syncAt, hread, Bool.and_eq_true, decide_eq_true_eq]
  exact ⟨hend, hsync⟩

theorem syncAt_resyncFrom (h : resyncFrom stream start < stream.length) :
    syncAt stream (resyncFrom stream start) := by
  rw [resyncFrom] at h ⊢
  cases hfind : (range' start (stream.length - start)).find? (syncAt stream) with
  | none =>
    rw [hfind] at h
    exact absurd h (lt_irrefl _)
  | some q => exact find?_some hfind

/-- The walk from `start`, over the records `todo` before the marker behind `upto`, finds some of
them. It comes to the marker, or it ends before where a frame ends and the length that follows is cut
off. -/
def Outcome (stream : Bytes) (cursor : Nat) (upto todo : List StreamItem) (start : Nat) : Prop :=
  (∃ found : List DecodedRecord, found.Sublist (todo.filterMap decoded) ∧
    ∀ R, scanFrom stream (cursor + size upto) = some R →
      ∃ R', scanFrom stream start = some R' ∧ R'.records = found ++ R.records) ∨
  (∀ R, scanFrom stream start = some R → R.records.Sublist (todo.filterMap decoded)) ∧
    ∃ p, start ≤ p ∧ p < cursor + size upto ∧ FrameEnd stream cursor upto p ∧ CutOff stream p

/-- What one round finds. -/
def ScanStep.found : ScanStep → List DecodedRecord
  | .record rec _ => [rec]
  | _ => []

theorem scanFrom_records {next : Nat} (hin : start < stream.length)
    (hnext : (scanStep stream start).next? = some next) :
    (scanFrom stream start).map Recovery.records =
      (scanFrom stream next).map fun R => (scanStep stream start).found ++ R.records := by
  rw [scanFrom_of_lt hin]
  cases hstep : scanStep stream start with
  | partialTail | outOfBounds => rw [hstep] at hnext; cases hnext
  | sync _ | corrupt _ | record _ _ =>
    rw [hstep] at hnext
    obtain rfl := Option.some.inj hnext
    simp [ScanStep.then, ScanStep.found, Function.comp_def]

theorem Outcome.onward {upto rest : List StreamItem} {next : Nat}
    (h : Outcome stream cursor upto rest next) (hin : start < stream.length)
    (hnext : (scanStep stream start).next? = some next) (hgo : start < next)
    (hfound : ∀ more : List DecodedRecord, more.Sublist (rest.filterMap decoded) →
      ((scanStep stream start).found ++ more).Sublist (todo.filterMap decoded)) :
    Outcome stream cursor upto todo start := by
  rcases h with ⟨more, hmore, hrest⟩ | ⟨hrest, p, hp, hcut⟩
  · refine .inl ⟨_, hfound more hmore, fun R hR => ?_⟩
    obtain ⟨R', hR', hrecords⟩ := hrest R hR
    obtain ⟨R'', hR'', hrecords'⟩ := Option.map_eq_some_iff.mp
      ((scanFrom_records hin hnext).trans (congrArg _ hR'))
    exact ⟨R'', hR'', by simp only [hrecords', hrecords, append_assoc]⟩
  refine .inr ⟨fun R hR => ?_, p, le_trans (le_of_lt hgo) hp, hcut⟩
  obtain ⟨R', hR', hrecords⟩ := Option.map_eq_some_iff.mp
    ((scanFrom_records hin hnext).symm.trans (congrArg _ hR))
  rw [← hrecords]
  exact hfound _ (hrest R' hR')

/-- **The walk comes to the marker or ends at a cut-off length before it**; it never goes past. -/
theorem walk {upto : List StreamItem} (hmarker : MarkerAt stream (cursor + size upto))
    (hcrc : OnlyOriginals accepted stream cursor (upto ++ .sync :: late))
    (hsizes : ∀ x ∈ upto ++ .sync :: late, x.payload.length < 2 ^ 64 - 1)
    (hstart : start ≤ cursor + size upto)
    (hhead : FrameEnd stream cursor upto start ∨ syncAt stream start)
    {done : List StreamItem} (hupto : upto = done ++ todo)
    (hdone : cursor + size done ≤ start) : Outcome stream cursor upto todo start := by
  -- on what is left up to the marker
  induction hn : cursor + size upto - start using Nat.strongRecOn generalizing start done todo with
  | ind n ih =>
    rcases Nat.eq_or_lt_of_le hstart with rfl | hlt
    · exact .inl ⟨[], nil_sublist _, fun R hR => ⟨R, hR, rfl⟩⟩
    have hin : start < stream.length := lt_trans hlt hmarker.lt
    have hadv := scanStep_advances hin
    have hfound := scanStep_found stream start
    cases hstep : scanStep stream start with
    | partialTail | outOfBounds =>
      rw [hstep] at hfound
      have hend := hhead.resolve_right fun hsync => not_cutOff_of_syncAt hsync hfound
      refine .inr ⟨fun R hR => ?_, start, le_rfl, hlt, hend, hfound⟩
      rw [scanFrom_of_lt hin, hstep] at hR
      cases hR <;> exact nil_sublist _
    | sync next =>
      rw [hstep, ScanStep.Advances] at hadv
      have hle := sync_le hmarker hlt hstep
      have hnext := ih _ (by omega) hle (.inl (.inr (markerEnds_of_sync hstep))) hupto (by omega) rfl
      exact hnext.onward hin (by rw [hstep]; rfl) hadv fun more hmore => by rw [hstep]; exact hmore
    | corrupt next =>
      rw [hstep] at hadv hfound
      rw [ScanStep.Advances] at hadv
      have hle : next ≤ cursor + size upto := by
        rw [hfound]
        exact resyncFrom_le hmarker hlt
      have hsync : syncAt stream next := by
        have hlast := lt_of_le_of_lt hle hmarker.lt
        rw [hfound] at hlast ⊢
        exact syncAt_resyncFrom hlast
      have hnext := ih _ (by omega) hle (.inr hsync) hupto (by omega) rfl
      exact hnext.onward hin (by rw [hstep]; rfl) hadv fun more hmore => by rw [hstep]; exact hmore
    | record rec next =>
      subst hupto
      obtain ⟨skipped, x, rest, rfl, hdecoded, hend⟩ :=
        record_between hmarker hcrc hsizes hdone hlt hstep
      rw [hstep, ScanStep.Advances] at hadv
      have hsplit : done ++ (skipped ++ x :: rest) = done ++ skipped ++ [x] ++ rest := by simp
      have hle : next ≤ cursor + size (done ++ (skipped ++ x :: rest)) := by
        rw [hsplit, size_append]
        omega
      have hbehind : FrameEnd stream cursor (done ++ (skipped ++ x :: rest)) next := by
        rw [hsplit, hend]
        exact frameEnd_append ..
      have hnext := ih _ (by omega) hle (.inl hbehind) hsplit (le_of_eq hend.symm) rfl
      refine hnext.onward hin (by rw [hstep]; rfl) hadv fun more hmore => ?_
      rw [hstep, filterMap_append, filterMap_cons_some hdecoded]
      exact (List.Sublist.cons_cons rec hmore).trans (sublist_append_right _ _)

/-! ## Damage is local -/

theorem damage_of_prefix (P Q fill : Bytes) {a : Nat} (h : P.length ≤ a) (b : Nat) :
    ∃ Q', damage (P ++ Q) a b fill = P ++ Q' := by
  refine ⟨Q.take (a - P.length) ++ (fill ++ (P ++ Q).drop b), ?_⟩
  rw [damage, take_append, take_of_length_le h, append_assoc]

theorem damage_of_suffix (P Q : Bytes) {fill : Bytes} {a b : Nat} (hab : a ≤ b)
    (hb : b ≤ P.length) (hfill : fill.length = b - a) :
    ∃ P', damage (P ++ Q) a b fill = P' ++ Q ∧ P'.length = P.length := by
  refine ⟨P.take a ++ (fill ++ P.drop b), ?_, ?_⟩
  · rw [damage, take_append_of_le_length (by omega), drop_append_of_le_length hb,
      append_assoc, append_assoc]
  · simp only [length_append, length_take, length_drop]
    omega

theorem recover_early {pre : Bytes} {early : List StreamItem} (rest : List StreamItem) {a : Nat}
    (b : Nat) (fill : Bytes) (hsizes : ∀ x ∈ early, x.payload.length < 2 ^ 64 - 1) (hearly : pre.length + size early ≤ a) :
    recover (damage (pre ++ (early ++ rest).flatMap frame) a b fill) pre.length =
      (scanFrom (damage (pre ++ (early ++ rest).flatMap frame) a b fill)
        (pre.length + size early)).map fun R =>
          { R with records := early.filterMap decoded ++ R.records } := by
  have hle : (pre ++ early.flatMap frame).length ≤ a := by
    rw [length_append]
    exact hearly
  obtain ⟨Q, hQ⟩ := damage_of_prefix _ (rest.flatMap frame) fill hle b
  rw [flatMap_append, ← append_assoc, hQ, append_assoc]
  exact scanFrom_frames pre early Q hsizes

/-- All the records before the damage and all behind the next marker are returned, in order, with
some of those in between. -/
def RecoversAround (stream : Bytes) (cursor : Nat) (early between late : List StreamItem) : Prop :=
  ∃ R found, recover stream cursor = some R ∧ found.Sublist (between.filterMap decoded) ∧
    R.records = early.filterMap decoded ++ found ++ late.filterMap decoded

/-- **Damage is local**: all the records before it and all behind the next marker are returned, with
some of those in between; or the walk ends at a cut-off length, with none from behind the marker. -/
theorem recover_damage {pre : Bytes} {early between : List StreamItem} {a b : Nat}
    {fill : Bytes}
    (hsizes : ∀ x ∈ early ++ between ++ .sync :: late, x.payload.length < 2 ^ 64 - 1)
    (hearly : pre.length + size early ≤ a) (hab : a ≤ b)
    (hlate : b ≤ pre.length + size (early ++ between)) (hfill : fill.length = b - a)
    (hcrc : OnlyOriginals accepted
      (damage (pre ++ (early ++ between ++ .sync :: late).flatMap frame) a b fill)
      pre.length (early ++ between ++ .sync :: late)) :
    let damaged := damage (pre ++ (early ++ between ++ .sync :: late).flatMap frame) a b fill
    RecoversAround damaged pre.length early between late ∨
    (∀ R, recover damaged pre.length = some R →
      R.records.Sublist ((early ++ between).filterMap decoded)) ∧
      ∃ p, pre.length + size early ≤ p ∧ p < pre.length + size (early ++ between) ∧
        FrameEnd damaged pre.length (early ++ between) p ∧ CutOff damaged p := by
  intro damaged
  have hbounds : pre.length + size early ≤ pre.length + size (early ++ between) := by
    rw [size_append]
    omega
  have hearlySizes : ∀ x ∈ early, x.payload.length < 2 ^ 64 - 1 := fun x hx =>
    hsizes x (mem_append_left _ (mem_append_left _ hx))
  -- behind the marker all is as it was
  obtain ⟨P, hP, hPlen⟩ := damage_of_suffix (pre ++ (early ++ between).flatMap frame)
    ((sync :: late).flatMap frame) hab
    (by rw [length_append]; exact hlate) hfill
  rw [append_assoc, ← flatMap_append] at hP
  rw [length_append] at hPlen
  have hmarker : MarkerAt damaged (pre.length + size (early ++ between)) :=
    ⟨P, late.flatMap frame, hP, hPlen⟩
  have hbehind : scanFrom damaged (pre.length + size (early ++ between)) =
      some { records := late.filterMap decoded } := by
    have hlast := recover_frames P (.sync :: late) fun x hx => hsizes x (mem_append_right _ hx)
    rw [← hP, hPlen] at hlast
    exact hlast
  have hrecover := recover_early (between ++ .sync :: late) b fill hearlySizes hearly
  rw [← append_assoc] at hrecover
  rcases walk hmarker hcrc hsizes hbounds (.inl (frameEnd_append ..)) rfl le_rfl with
    ⟨found, hfound, hreach⟩ | ⟨hstops, hcut⟩
  · obtain ⟨R, hR, hrecords⟩ := hreach _ hbehind
    refine .inl ⟨{ R with records := early.filterMap decoded ++ R.records }, found, ?_, hfound, ?_⟩
    · exact hrecover.trans (by rw [show scanFrom _ _ = some R from hR]; rfl)
    · rw [append_assoc, ← hrecords]
  refine .inr ⟨fun R hR => ?_, hcut⟩
  rw [show recover damaged pre.length = _ from hrecover] at hR
  obtain ⟨R', hR', rfl⟩ := Option.map_eq_some_iff.mp hR
  rw [filterMap_append]
  exact List.Sublist.append_left (hstops R' hR') _

namespace FlatRecorder

/-- A ring that holds one record; the 65th call comes after a pump. -/
def markerEvents : List RecorderEvent :=
  replicate 64 (.record 0x1111111111111111 0x2222222222222222
      (.qosChange { topicHash := 0x3333333333333333 })) ++
    [.pump, .record 0x4444444444444444 0x5555555555555555 (.qosChange {}), .pump]

def markerRecorder : FlatRecorder :=
  ((flatRecorder 31 65536 65536).openStream 0x6666666666666666 (Vector.replicate 16 0x77) {} []
    .cleartext).run markerEvents

/-- What its sink holds behind the preamble. -/
def markerItems : List StreamItem :=
  [.sync, .record 0x1111111111111111 (.qosChange { topicHash := 0x3333333333333333 }), .sync,
    .dropout { ts := 0x5555555555555555, count := 1, bytes := 25, maxFidelity := .metadata }]

def markerStream : Bytes :=
  beginStream 0x6666666666666666 (Vector.replicate 16 0x77) {} [] .cleartext ++
    markerItems.flatMap frame

theorem marker_facts : markerRecorder.overrun = false ∧ markerRecorder.admitted = markerItems ∧
    markerRecorder.preamble.length = 36 ∧ markerRecorder.sink = markerStream ∧
    markerRecorder.sink = markerRecorder.preamble ++ markerItems.flatMap frame := by
  decide +kernel

/-- A byte in the payload of the first record. -/
def hitPayload : Bytes := damage markerRecorder.sink 50 51 [0xFF]

theorem hitPayload_eq : hitPayload = damage markerStream 50 51 [0xFF] := by
  rw [hitPayload, marker_facts.2.2.2.1]

theorem hitPayload_whole (p : Nat) (hp : 41 ≤ p) (hlt : p < 67)
    (hend : FrameEnd hitPayload 36 (markerItems.take 1 ++ (markerItems.drop 1).take 1) p) :
    ¬ CutOff hitPayload p := by
  have hall : ∀ p < 67, 41 ≤ p → CutOff (damage markerStream 50 51 [0xFF]) p →
      ¬ FrameEnd (damage markerStream 50 51 [0xFF]) 36
        (markerItems.take 1 ++ (markerItems.drop 1).take 1) p := by
    decide +kernel
  rw [hitPayload_eq] at hend ⊢
  exact fun hcut => hall p hlt hp hcut hend

end FlatRecorder

end Plexus.Recording
