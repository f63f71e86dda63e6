/-
# Plexus.Wire.FieldReader — decoding a field list with the latching reader (`wire/reader.h`).

A decode body is a state program over the reader, with one test of `ok` at its end. `Reads m bytes
a`: placed at `bytes` anywhere in a span, `m` returns `a` and stops behind them. It composes along
the fields (`Reads.bind`).

On foreign bytes, `Advances m k`: `m` keeps the reader inside its span and, if it goes through, has
read at least `k` bytes; `Takes m r slices` names the slices `m` takes from `r` on, all inside
(`Takes.inside`).
-/
import Plexus.Wire.Varint

namespace Plexus.Wire

namespace Reader

def u16 (r : Reader) : UInt16 × Reader :=
  let (r', took) := r.take 2
  (if took then readU16 r.rest else 0, r')

def u32 (r : Reader) : UInt32 × Reader :=
  let (r', took) := r.take 4
  (if took then readU32 r.rest else 0, r')

def bytes (n : Nat) (r : Reader) : Bytes × Reader :=
  let (r', took) := r.take n
  (if took then r.rest.take n else [], r')

def varint (r : Reader) : Option UInt64 × Reader :=
  if r.ok then
    match readVarint r.data r.offset with
    | some (value, offset) => (some value, { r with offset })
    | none => (none, { r with ok := false })
  else (none, r)

end Reader

/-- A decode body. -/
abbrev Decode (α : Type) := StateM Reader α

namespace Decode

def u8 : Decode UInt8 := fun r => r.u8
def u16 : Decode UInt16 := fun r => r.u16
def u32 : Decode UInt32 := fun r => r.u32
def u64 : Decode UInt64 := fun r => r.u64
def bytes (n : Nat) : Decode Bytes := fun r => r.bytes n

/-- `varint().value_or(0)`. -/
def varint : Decode UInt64 := fun r => (r.varint.1.getD 0, r.varint.2)

/-- The loop that fills a byte array. -/
def u8s : (n : Nat) → Decode (Vector UInt8 n)
  | 0 => pure #v[]
  | n + 1 => do
    let v ← u8s n
    let b ← u8
    pure (v.push b)

/-- A counter and as many bytes. -/
def blob : Decode Bytes := do
  let len ← varint
  bytes len.toNat

end Decode

/-- `m` reads exactly these bytes, as `a`. -/
def Reads {α : Type} (m : Decode α) (bytes : Bytes) (a : α) : Prop :=
  ∀ pre rest, m ⟨pre ++ (bytes ++ rest), pre.length, true⟩ =
    (a, ⟨pre ++ (bytes ++ rest), pre.length + bytes.length, true⟩)

namespace Reads

variable {α β : Type}

theorem pure (a : α) : Reads (Pure.pure a) [] a := fun _ _ => rfl

variable {bs : Bytes}

theorem bind {m : Decode α} {f : α → Decode β} {cs : Bytes} {a : α} {b : β}
    (hm : Reads m bs a) (hf : Reads (f a) cs b) : Reads (m >>= f) (bs ++ cs) b := by
  intro pre rest
  have hfirst := hm pre (cs ++ rest)
  have hthen := hf (pre ++ bs) rest
  rw [List.append_assoc, List.length_append] at hthen
  show (fun p : α × Reader => f p.1 p.2) (m _) = _
  rw [List.append_assoc, hfirst]
  refine hthen.trans ?_
  rw [List.length_append, add_assoc]

theorem map {m : Decode α} {a : α} (hm : Reads m bs a) (g : α → β) :
    Reads (m >>= fun a => Pure.pure (g a)) bs (g a) := by
  rw [← List.append_nil bs]
  exact hm.bind (Reads.pure (g a))

/-- `take` where the bytes are there. -/
theorem take_append (pre bs rest : Bytes) :
    (⟨pre ++ (bs ++ rest), pre.length, true⟩ : Reader).take bs.length =
      (⟨pre ++ (bs ++ rest), pre.length + bs.length, true⟩, true) :=
  Reader.take_of_le rfl (by simp [Reader.remaining])

theorem rest_append (pre bs : Bytes) : (⟨pre ++ bs, pre.length, true⟩ : Reader).rest = bs :=
  List.drop_left

theorem taken {m : Decode α} {a d : α} (read : Bytes → α)
    (hm : ∀ r, m r = (if (r.take bs.length).2 then read r.rest else d, (r.take bs.length).1))
    (hread : ∀ rest, read (bs ++ rest) = a) : Reads m bs a := by
  intro pre rest
  rw [hm, take_append, rest_append, if_pos rfl, hread]

theorem u8 (v : UInt8) : Reads Decode.u8 (writeU8 v) v :=
  taken readU8 (fun _ => rfl) (readU8_writeU8 v)

theorem u16 (v : UInt16) : Reads Decode.u16 (writeU16 v) v :=
  taken readU16 (fun _ => by rw [length_writeU16]; rfl) (readU16_writeU16 v)

theorem u32 (v : UInt32) : Reads Decode.u32 (writeU32 v) v :=
  taken readU32 (fun _ => by rw [length_writeU32]; rfl) (readU32_writeU32 v)

theorem u64 (v : UInt64) : Reads Decode.u64 (writeU64 v) v :=
  taken readU64 (fun _ => by rw [length_writeU64]; rfl) (readU64_writeU64 v)

theorem bytes (bs : Bytes) : Reads (Decode.bytes bs.length) bs bs :=
  taken (List.take bs.length) (fun _ => rfl) fun _ => List.take_left

theorem varint (v : UInt64) : Reads Decode.varint (writeVarint v) v := by
  intro pre rest
  simp only [Decode.varint, Reader.varint, readVarint_writeVarint, if_true, Option.getD_some]

theorem blob (h : bs.length < 2 ^ 64) :
    Reads Decode.blob (writeVarint (.ofNat bs.length) ++ bs) bs := by
  have hlen : (UInt64.ofNat bs.length).toNat = bs.length := UInt64.toNat_ofNat_of_lt' h
  refine (varint _).bind ?_
  rw [hlen]
  exact bytes bs

theorem u8s {n : Nat} (v : Vector UInt8 n) : Reads (Decode.u8s n) v.toList v := by
  induction n with
  | zero =>
    obtain rfl : v = #v[] := by simp
    exact Reads.pure _
  | succ n ih =>
    have hsplit : v.toList = v.pop.toList ++ writeU8 v.back := by
      conv_lhs => rw [← Vector.push_pop_back v, Vector.toList_push]
      rfl
    rw [hsplit]
    refine (ih v.pop).bind ?_
    have hlast := (u8 v.back).map fun b => v.pop.push b
    rwa [Vector.push_pop_back] at hlast

end Reads

/-! ## Bytes of any origin -/

variable {r : Reader}

namespace Reader

/-- The reader stands in its span. -/
def Inside (r : Reader) : Prop := r.offset ≤ r.data.length

/-- Further down in the same span, if nothing failed by at least `k` bytes. -/
structure Forward (k : Nat) (r r' : Reader) : Prop where
  data : r'.data = r.data
  inside : r'.Inside
  ok : r'.ok = true → r.ok = true ∧ r.offset + k ≤ r'.offset

theorem Forward.trans {k k' : Nat} {r' r'' : Reader} (h : Forward k r r') (h' : Forward k' r' r'') :
    Forward (k + k') r r'' := by
  refine ⟨h'.data.trans h.data, h'.inside, fun hok => ?_⟩
  obtain ⟨hok', hle'⟩ := h'.ok hok
  obtain ⟨hok, hle⟩ := h.ok hok'
  exact ⟨hok, by omega⟩

theorem Forward.refl (h : r.Inside) : Forward 0 r r := ⟨rfl, h, fun hok => ⟨hok, le_rfl⟩⟩

theorem take_cases (h : r.Inside) (width : Nat) :
    r.take width = ({ r with ok := false }, false) ∨
      (r.ok = true ∧ r.offset + width ≤ r.data.length ∧
        r.take width = ({ r with offset := r.offset + width }, true)) := by
  have hle : r.offset ≤ r.data.length := h
  by_cases hroom : r.ok = true ∧ width ≤ r.remaining
  · refine .inr ⟨hroom.1, ?_, take_of_le hroom.1 hroom.2⟩
    have hwidth := hroom.2
    rw [remaining] at hwidth
    omega
  refine .inl (if_pos ?_)
  cases hok : r.ok with
  | false => rfl
  | true => simpa [hok] using hroom

theorem forward_take (h : r.Inside) (width : Nat) : Forward width r (r.take width).1 := by
  rcases take_cases h width with htake | ⟨hok, hle, htake⟩
  · rw [htake]
    exact ⟨rfl, h, fun hok => (nomatch hok)⟩
  · rw [htake]
    exact ⟨rfl, hle, fun _ => ⟨hok, le_rfl⟩⟩

/-- The slice that a successful `take` stands for. -/
def slice (r : Reader) (width : Nat) : List (Nat × Nat) :=
  if (r.take width).2 then [(r.offset, width)] else []

theorem slice_inside (h : r.Inside) {width : Nat} {s : Nat × Nat} (hs : s ∈ r.slice width) :
    s.1 + s.2 ≤ r.data.length := by
  rw [slice] at hs
  rcases take_cases h width with htake | ⟨-, hle, htake⟩
  · rw [htake] at hs
    cases hs
  · rw [htake] at hs
    obtain rfl := List.mem_singleton.mp hs
    exact hle

/-- The bytes `read_varint` looks at, one by one and never past the end: ten at most. -/
def varintSlice (r : Reader) : List (Nat × Nat) :=
  if r.ok then [(r.offset, min kMaxVarintBytes r.remaining)] else []

end Reader

/-- From anywhere in a span, `m` leaves the reader there, and reads `k` bytes or fails. -/
def Advances {α : Type} (m : Decode α) (k : Nat) : Prop := ∀ r : Reader, r.Inside → r.Forward k (m r).2

namespace Advances

variable {α β : Type}

theorem pure (a : α) : Advances (Pure.pure a) 0 := fun _ h => Reader.Forward.refl h

theorem bind {m : Decode α} {f : α → Decode β} {k k' : Nat} (hm : Advances m k)
    (hf : ∀ a, Advances (f a) k') : Advances (m >>= f) (k + k') := fun r h =>
  (hm r h).trans (hf (m r).1 (m r).2 (hm r h).inside)

theorem u8 : Advances Decode.u8 1 := fun _ h => Reader.forward_take h 1
theorem u16 : Advances Decode.u16 2 := fun _ h => Reader.forward_take h 2
theorem u32 : Advances Decode.u32 4 := fun _ h => Reader.forward_take h 4
theorem u64 : Advances Decode.u64 8 := fun _ h => Reader.forward_take h 8
theorem bytes (n : Nat) : Advances (Decode.bytes n) n := fun _ h => Reader.forward_take h n

theorem mono {m : Decode α} {k k' : Nat} (h : Advances m k) (hle : k' ≤ k) : Advances m k' := by
  intro r hr
  obtain ⟨hdata, hin, hok⟩ := h r hr
  exact ⟨hdata, hin, fun hok' => ⟨(hok hok').1, le_trans (Nat.add_le_add_left hle _) (hok hok').2⟩⟩

theorem varint : Advances Decode.varint 1 := by
  intro r h
  simp only [Decode.varint, Reader.varint]
  split
  · rename_i hok
    split
    · rename_i value offset hread
      obtain ⟨hlt, hle, -, -⟩ := readVarint_shape hread
      exact ⟨rfl, hle, fun _ => ⟨hok, hlt⟩⟩
    · exact ⟨rfl, h, fun hok => (nomatch hok)⟩
  · rename_i hok
    exact ⟨rfl, h, fun hok' => absurd hok' hok⟩

theorem blob : Advances Decode.blob (1 + 0) :=
  varint.bind fun len => (bytes len.toNat).mono (Nat.zero_le _)

end Advances

/-- `m`, from `r` on, takes these slices of the span: where each begins, and its length. -/
inductive Takes : {α : Type} → Decode α → Reader → List (Nat × Nat) → Prop
  | pure {α : Type} (a : α) (r : Reader) : Takes (Pure.pure a) r []
  | u8 (r : Reader) : Takes Decode.u8 r (r.slice 1)
  | u16 (r : Reader) : Takes Decode.u16 r (r.slice 2)
  | u32 (r : Reader) : Takes Decode.u32 r (r.slice 4)
  | u64 (r : Reader) : Takes Decode.u64 r (r.slice 8)
  | bytes (n : Nat) (r : Reader) : Takes (Decode.bytes n) r (r.slice n)
  | varint (r : Reader) : Takes Decode.varint r r.varintSlice
  | bind {α β : Type} {m : Decode α} {f : α → Decode β} {r : Reader} {l l' : List (Nat × Nat)}
      (hm : Takes m r l) (hf : Takes (f (m r).1) (m r).2 l') : Takes (m >>= f) r (l ++ l')
  /-- A test of `ok` in front. -/
  | whenOk {α : Type} {m : Decode α} {r : Reader} {l : List (Nat × Nat)} (a : α) (hok : r.ok = true)
      (hm : Takes m r l) : Takes (fun r => if r.ok then m r else (a, r)) r l
  | unlessOk {α : Type} (m : Decode α) {r : Reader} (a : α) (hok : r.ok = false) :
      Takes (fun r => if r.ok then m r else (a, r)) r []

/-- **Whatever the decode body**, the slices it takes lie inside the span. -/
theorem Takes.inside {α : Type} {m : Decode α} {slices : List (Nat × Nat)} (h : Takes m r slices)
    (hr : r.Inside) :
    ((m r).2.data = r.data ∧ (m r).2.Inside) ∧ ∀ s ∈ slices, s.1 + s.2 ≤ r.data.length := by
  -- every read leaves the reader inside, so that the next one starts there
  have hstep : ∀ {β : Type} {n : Decode β} {k : Nat}, Advances n k → ∀ {r : Reader}, r.Inside →
      (n r).2.data = r.data ∧ (n r).2.Inside := fun hn _ hr => ⟨(hn _ hr).data, (hn _ hr).inside⟩
  induction h with
  | pure a r => exact ⟨⟨rfl, hr⟩, fun _ hs => (nomatch hs)⟩
  | u8 r => exact ⟨hstep Advances.u8 hr, fun _ => Reader.slice_inside hr⟩
  | u16 r => exact ⟨hstep Advances.u16 hr, fun _ => Reader.slice_inside hr⟩
  | u32 r => exact ⟨hstep Advances.u32 hr, fun _ => Reader.slice_inside hr⟩
  | u64 r => exact ⟨hstep Advances.u64 hr, fun _ => Reader.slice_inside hr⟩
  | bytes n r => exact ⟨hstep (Advances.bytes n) hr, fun _ => Reader.slice_inside hr⟩
  | varint r =>
    refine ⟨hstep Advances.varint hr, fun s hs => ?_⟩
    have hle : r.offset ≤ r.data.length := hr
    rw [Reader.varintSlice] at hs
    split at hs
    · obtain rfl := List.mem_singleton.mp hs
      show r.offset + min kMaxVarintBytes (r.data.length - r.offset) ≤ r.data.length
      omega
    · cases hs
  | bind _ _ ihm ihf =>
    obtain ⟨⟨hdata, hin⟩, hslices⟩ := ihm hr
    obtain ⟨⟨hdata', hin'⟩, hslices'⟩ := ihf hin
    rw [hdata] at hdata' hslices'
    refine ⟨⟨hdata', hin'⟩, fun s hs => ?_⟩
    rcases List.mem_append.mp hs with hs | hs
    · exact hslices s hs
    · exact hslices' s hs
  | whenOk a hok _ ih =>
    dsimp only
    rw [if_pos hok]
    exact ih hr
  | unlessOk m a hok =>
    dsimp only
    rw [if_neg (by rw [hok]; decide)]
    exact ⟨⟨rfl, hr⟩, fun _ hs => (nomatch hs)⟩

/-- A body built of the reader's reads. -/
def Traced {α : Type} (m : Decode α) : Prop := ∀ r, ∃ slices, Takes m r slices

namespace Traced

variable {α β : Type}

theorem pure (a : α) : Traced (Pure.pure a) := fun r => ⟨_, Takes.pure a r⟩
theorem u8 : Traced Decode.u8 := fun r => ⟨_, Takes.u8 r⟩
theorem u16 : Traced Decode.u16 := fun r => ⟨_, Takes.u16 r⟩
theorem u32 : Traced Decode.u32 := fun r => ⟨_, Takes.u32 r⟩
theorem u64 : Traced Decode.u64 := fun r => ⟨_, Takes.u64 r⟩
theorem varint : Traced Decode.varint := fun r => ⟨_, Takes.varint r⟩

theorem bind {m : Decode α} {f : α → Decode β} (hm : Traced m) (hf : ∀ a, Traced (f a)) :
    Traced (m >>= f) := by
  intro r
  obtain ⟨l, hl⟩ := hm r
  obtain ⟨l', hl'⟩ := hf (m r).1 (m r).2
  exact ⟨_, hl.bind hl'⟩

theorem blob : Traced Decode.blob := varint.bind fun len r => ⟨_, Takes.bytes len.toNat r⟩

theorem u8s (n : Nat) : Traced (Decode.u8s n) := by
  induction n with
  | zero => exact pure _
  | succ n ih => exact ih.bind fun _ => u8.bind fun _ => pure _

end Traced

end Plexus.Wire
