/-
# Plexus.Wire.Cursor — the sequential big-endian field cursor (`wire/reader.h`, `wire/writer.h`).

The reader walks an untrusted span. On underrun it latches `ok = false`; every later read is a
no-op that returns a zero sentinel, so a decode body reads its whole field list and tests `ok`
once. The writer fills a region the codec has sized exactly, so what it leaves behind is the
concatenation of the fields written.
-/
import Plexus.Lib.BigEndian

namespace Plexus.Wire

open Lib

/-! ## `wire/byte_order.h` -/

def writeU8 (v : UInt8) : Bytes := [v]
def writeU16 (v : UInt16) : Bytes := toBE 2 v.toNat
def writeU32 (v : UInt32) : Bytes := toBE 4 v.toNat
def writeU64 (v : UInt64) : Bytes := toBE 8 v.toNat

variable (src : Bytes)

/-- The four readers look at the leading bytes only; their callers have checked the size. -/
def readU8 : UInt8 := src.headD 0
def readU16 : UInt16 := UInt16.ofNat (ofBE (src.take 2))
def readU32 : UInt32 := UInt32.ofNat (ofBE (src.take 4))
def readU64 : UInt64 := UInt64.ofNat (ofBE (src.take 8))

@[simp] theorem length_writeU16 (v : UInt16) : (writeU16 v).length = 2 := length_toBE 2 _
@[simp] theorem length_writeU32 (v : UInt32) : (writeU32 v).length = 4 := length_toBE 4 _
@[simp] theorem length_writeU64 (v : UInt64) : (writeU64 v).length = 8 := length_toBE 8 _

@[simp] theorem readU64_writeU64 (v : UInt64) (rest : Bytes) :
    readU64 (writeU64 v ++ rest) = v := by
  have hlt : v.toNat < 256 ^ 8 := v.toNat_lt
  rw [readU64, List.take_left' (length_writeU64 v), writeU64, ofBE_toBE, Nat.mod_eq_of_lt hlt]
  exact UInt64.ofNat_toNat

@[simp] theorem readU32_writeU32 (v : UInt32) (rest : Bytes) :
    readU32 (writeU32 v ++ rest) = v := by
  have hlt : v.toNat < 256 ^ 4 := v.toNat_lt
  rw [readU32, List.take_left' (length_writeU32 v), writeU32, ofBE_toBE, Nat.mod_eq_of_lt hlt]
  exact UInt32.ofNat_toNat

@[simp] theorem readU16_writeU16 (v : UInt16) (rest : Bytes) :
    readU16 (writeU16 v ++ rest) = v := by
  have hlt : v.toNat < 256 ^ 2 := v.toNat_lt
  rw [readU16, List.take_left' (length_writeU16 v), writeU16, ofBE_toBE, Nat.mod_eq_of_lt hlt]
  exact UInt16.ofNat_toNat

@[simp] theorem readU8_writeU8 (v : UInt8) (rest : Bytes) : readU8 (writeU8 v ++ rest) = v := rfl

theorem readU64_append {src : Bytes} (h : 8 ≤ src.length) (rest : Bytes) :
    readU64 (src ++ rest) = readU64 src := by
  rw [readU64, readU64, List.take_append_of_le_length h]

/-! ## `wire/reader.h` -/

structure Reader where
  data : Bytes
  offset : Nat := 0
  ok : Bool := true

namespace Reader

def remaining (r : Reader) : Nat := r.data.length - r.offset

def rest (r : Reader) : Bytes := r.data.drop r.offset

/-- `take(width)`: advance when the width fits, else latch the failure. -/
def take (r : Reader) (width : Nat) : Reader × Bool :=
  if !r.ok || r.remaining < width then ({ r with ok := false }, false)
  else ({ r with offset := r.offset + width }, true)

def u8 (r : Reader) : UInt8 × Reader :=
  let (r', took) := r.take 1
  (if took then readU8 r.rest else 0, r')

def u64 (r : Reader) : UInt64 × Reader :=
  let (r', took) := r.take 8
  (if took then readU64 r.rest else 0, r')

theorem take_of_le {r : Reader} {width : Nat} (hok : r.ok) (h : width ≤ r.remaining) :
    r.take width = ({ r with offset := r.offset + width }, true) := by
  have : ¬ r.remaining < width := by omega
  simp [take, hok, this]

theorem u8_of_le {data : Bytes} {offset : Nat} (h : offset + 1 ≤ data.length) :
    u8 ⟨data, offset, true⟩ = (readU8 (data.drop offset), ⟨data, offset + 1, true⟩) := by
  simp [u8, take_of_le (r := ⟨data, offset, true⟩) rfl (by simp [remaining]; omega : 1 ≤ _), rest]

theorem u64_of_le {data : Bytes} {offset : Nat} (h : offset + 8 ≤ data.length) :
    u64 ⟨data, offset, true⟩ = (readU64 (data.drop offset), ⟨data, offset + 8, true⟩) := by
  simp [u64, take_of_le (r := ⟨data, offset, true⟩) rfl (by simp [remaining]; omega : 8 ≤ _), rest]

end Reader

end Plexus.Wire
