/-
# Plexus.Io.Fragmentation — splitting a message into numbered fragments (`io/fragmentation.h`), the
fragment sub-header (`wire/udp_envelope.h`, `wire/udp_envelope_codec.h`) and the errors a refused send
reports (`io/io_error.h`).

`split` emits the slices of a message in ascending order. All of them but the last carry a full
budget (`length_slice_of_lt`), the last one the rest (`length_slice_last`); put back together they
are the message (`flatMap_slice_split`).
-/
import Mathlib.Data.List.Basic
import Plexus.Wire.Cursor

namespace Plexus.Io

open Wire List

inductive IoError
  | connectionRefused | brokenPipe | connectionReset | timedOut | addressInUse | operationAborted
  | messageTooLarge | wouldBlock | unknown
  deriving DecidableEq

/-! ## Sizes -/

def udpEnvelopeOverhead : Nat := 3
def udpFragmentSubheader : Nat := 10
def udpFragmentHeaderOverhead : Nat := udpEnvelopeOverhead + udpFragmentSubheader

def minFragmentPayload : Nat := 128

def kAeadFragmentOverhead : Nat := 8 + 1 + 16

/-- The slice a fragment carries: the transport budget less the headers, and never below the
floor. -/
def effectiveFragmentBudget (transportBudget : Nat) (aeadDecorated : Bool := false) : Nat :=
  let overhead := udpFragmentHeaderOverhead + if aeadDecorated then kAeadFragmentOverhead else 0
  if transportBudget ≤ overhead + minFragmentPayload then minFragmentPayload
  else transportBudget - overhead

theorem minFragmentPayload_le_budget (transportBudget : Nat) (aead : Bool) :
    minFragmentPayload ≤ effectiveFragmentBudget transportBudget aead := by
  simp only [effectiveFragmentBudget]
  generalize (udpFragmentHeaderOverhead + if aead = true then _ else _) = overhead
  split <;> omega

theorem effectiveFragmentBudget_pos (transportBudget : Nat) (aead : Bool) :
    0 < effectiveFragmentBudget transportBudget aead :=
  lt_of_lt_of_le (by decide) (minFragmentPayload_le_budget transportBudget aead)

/-! ## `split` -/

structure Fragment where
  idx : UInt32
  cnt : UInt32
  slice : Bytes
  deriving DecidableEq

/-- An empty message is one empty fragment. -/
def fragmentCount (total budget : Nat) : Nat :=
  if total = 0 then 1 else (total + budget - 1) / budget

variable (payload : Bytes)

/-- The bytes of the `i`-th fragment. -/
def fragmentSlice (budget i : Nat) : Bytes :=
  (payload.drop (i * budget)).take budget

/-- What `split` calls its sink with, in order. -/
def split (transportBudget : Nat) (aeadDecorated : Bool := false) : List Fragment :=
  let budget := effectiveFragmentBudget transportBudget aeadDecorated
  let count := fragmentCount payload.length budget
  (range count).map fun i =>
    ⟨UInt32.ofNat i, UInt32.ofNat count, fragmentSlice payload budget i⟩

/-- `encode_udp_fragment_payload_into`: `[msg_id:2][idx:4][cnt:4][slice]`. -/
def encodeUdpFragmentPayload (msgId : UInt16) (f : Fragment) : Bytes :=
  writeU16 msgId ++ writeU32 f.idx ++ writeU32 f.cnt ++ f.slice

theorem length_encodeUdpFragmentPayload (msgId : UInt16) (f : Fragment) :
    (encodeUdpFragmentPayload msgId f).length = f.slice.length + udpFragmentSubheader := by
  simp only [encodeUdpFragmentPayload, length_append, length_writeU16, length_writeU32,
    udpFragmentSubheader]
  omega

section

variable {total budget : Nat}

theorem fragmentCount_pos (total : Nat) (hb : 0 < budget) : 0 < fragmentCount total budget := by
  unfold fragmentCount
  split
  · exact Nat.one_pos
  · exact Nat.div_pos (by omega) hb

theorem fragmentCount_bounds (total : Nat) (hb : 0 < budget) :
    (fragmentCount total budget - 1) * budget ≤ total ∧
      total ≤ fragmentCount total budget * budget := by
  unfold fragmentCount
  split
  · subst total
    simp
  have hdiv := Nat.div_add_mod (total + budget - 1) budget
  have hmod := Nat.mod_lt (total + budget - 1) hb
  rw [Nat.sub_mul, mul_comm _ budget]
  constructor <;> omega

theorem length_slice_of_lt {payload : Bytes} {i : Nat} (hb : 0 < budget)
    (hi : i + 1 < fragmentCount payload.length budget) :
    (fragmentSlice payload budget i).length = budget := by
  have hle := (fragmentCount_bounds payload.length hb).1
  have hmul : (i + 1) * budget ≤ (fragmentCount payload.length budget - 1) * budget :=
    Nat.mul_le_mul_right _ (by omega)
  rw [Nat.succ_mul] at hmul
  simp only [fragmentSlice, length_take, length_drop]
  omega

theorem length_slice_last (payload : Bytes) (hb : 0 < budget) :
    (fragmentSlice payload budget (fragmentCount payload.length budget - 1)).length =
      payload.length - (fragmentCount payload.length budget - 1) * budget := by
  have hpos := fragmentCount_pos payload.length hb
  have hle := (fragmentCount_bounds payload.length hb).2
  obtain ⟨k, hk⟩ := Nat.exists_eq_add_of_lt hpos
  rw [hk, zero_add, Nat.succ_mul] at hle
  simp only [fragmentSlice, length_take, length_drop, hk, zero_add, Nat.add_sub_cancel]
  omega

end

theorem flatMap_take_drop (budget n : Nat) :
    (range n).flatMap (fragmentSlice payload budget) = payload.take (n * budget) := by
  induction n with
  | zero => simp
  | succ n ih =>
    rw [range_succ, flatMap_append, ih, Nat.succ_mul, take_add]
    simp [fragmentSlice]

/-- **The slices of a message are the message.** -/
theorem flatMap_slice_split (transportBudget : Nat) (aead : Bool) :
    (split payload transportBudget aead).flatMap Fragment.slice = payload := by
  have hb := effectiveFragmentBudget_pos transportBudget aead
  rw [split, flatMap_map]
  exact (flatMap_take_drop payload _ _).trans
    (take_of_length_le (fragmentCount_bounds payload.length hb).2)

theorem sum_length_slice (budget n k : Nat) (hk : k ≤ n) (hn : payload.length ≤ n * budget) :
    (((range n).drop k).map fun i => (fragmentSlice payload budget i).length).sum =
      payload.length - k * budget := by
  have hall : ∀ m, (((range m).map fun i => (fragmentSlice payload budget i).length).sum) =
      min (m * budget) payload.length := by
    intro m
    have hlen := congrArg length (flatMap_take_drop payload budget m)
    rw [length_flatMap, length_take] at hlen
    exact hlen
  have hsplit := congrArg (fun l : List Nat =>
    (l.map fun i => (fragmentSlice payload budget i).length).sum) (take_append_drop k (range n))
  simp only [map_append, sum_append, take_range, Nat.min_eq_left hk, hall] at hsplit
  omega

end Plexus.Io
