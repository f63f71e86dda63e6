/-
# Plexus.Wire.UdpAck — the cumulative and selective acknowledgment (`wire/udp_ack.h`).
-/
import Mathlib.Data.Nat.Bits

namespace Plexus.Wire

/-- A cumulative edge and a bitmap of 256 holes above it; bit `i` stands for
`cumulative + 2 + i`. -/
structure UdpAck where
  cumulative : UInt16 := 0
  selective : Vector UInt8 32 := Vector.replicate 32 0
  deriving DecidableEq

namespace UdpAck

def bitmapBytes : Nat := 32

def bitmapBits : Nat := bitmapBytes * 8

theorem byte_lt {i : Nat} (h : i < bitmapBits) : i >>> 3 < 32 := by
  simp only [bitmapBits, bitmapBytes] at h
  omega

def holeReceived (ack : UdpAck) (i : Nat) : Bool :=
  if h : i < bitmapBits then
    ack.selective.get ⟨i >>> 3, byte_lt h⟩ &&& (1 <<< UInt8.ofNat (i &&& 7)) != 0
  else false

def markHole (ack : UdpAck) (i : Nat) : UdpAck :=
  if h : i < bitmapBits then
    { ack with
      selective := ack.selective.set (i >>> 3)
        (ack.selective.get ⟨i >>> 3, byte_lt h⟩ ||| (1 <<< UInt8.ofNat (i &&& 7))) (byte_lt h) }
  else ack

@[simp] theorem cumulative_markHole (ack : UdpAck) (i : Nat) :
    (ack.markHole i).cumulative = ack.cumulative := by
  unfold markHole
  split <;> rfl

theorem bit_and_bit : ∀ i < 8, ∀ j < 8,
    ((1 : UInt8) <<< UInt8.ofNat i) &&& (1 <<< UInt8.ofNat j) ≠ 0 ↔ i = j := by
  decide

theorem or_bit_and_bit (b : UInt8) {i j : Nat} (hi : i < 8) (hj : j < 8) :
    (b ||| (1 <<< UInt8.ofNat i)) &&& (1 <<< UInt8.ofNat j) ≠ 0 ↔
      i = j ∨ b &&& (1 <<< UInt8.ofNat j) ≠ 0 := by
  have hdistrib : (b ||| (1 <<< UInt8.ofNat i)) &&& (1 <<< UInt8.ofNat j) =
      (b &&& (1 <<< UInt8.ofNat j)) ||| ((1 <<< UInt8.ofNat i) &&& (1 <<< UInt8.ofNat j)) :=
    UInt8.toBitVec_inj.mp BitVec.and_or_distrib_right
  rw [hdistrib, Ne, UInt8.or_eq_zero_iff, Classical.not_and_iff_not_or_not, ← Ne, ← Ne, bit_and_bit i hi j hj]
  exact or_comm

theorem holeReceived_markHole (ack : UdpAck) {i j : Nat} (hi : i < bitmapBits) (hj : j < bitmapBits) :
    (ack.markHole i).holeReceived j = true ↔ i = j ∨ ack.holeReceived j = true := by
  have hlow : ∀ n, n &&& 7 < 8 := fun n => Nat.lt_succ_of_le Nat.and_le_right
  have hsplit : ∀ n, n = 8 * (n >>> 3) + (n &&& 7) := by
    intro n
    rw [Nat.shiftRight_eq_div_pow, Nat.and_two_pow_sub_one_eq_mod n 3]
    exact (Nat.div_add_mod n 8).symm
  simp only [holeReceived, markHole, hi, hj, dif_pos, bne_iff_ne]
  have hget : (ack.selective.set (i >>> 3) (ack.selective.get ⟨i >>> 3, byte_lt hi⟩ |||
      (1 <<< UInt8.ofNat (i &&& 7))) (byte_lt hi)).get ⟨j >>> 3, byte_lt hj⟩ =
      if i >>> 3 = j >>> 3 then ack.selective.get ⟨i >>> 3, byte_lt hi⟩ ||| (1 <<< UInt8.ofNat (i &&& 7))
      else ack.selective.get ⟨j >>> 3, byte_lt hj⟩ := Vector.getElem_set (byte_lt hi) (byte_lt hj)
  rw [hget]
  by_cases hbyte : i >>> 3 = j >>> 3
  · have hsame : i = j ↔ i &&& 7 = j &&& 7 := by
      constructor
      · intro h
        rw [h]
      · intro h
        rw [hsplit i, hsplit j, hbyte, h]
    rw [if_pos hbyte, or_bit_and_bit _ (hlow i) (hlow j), hsame]
    simp only [hbyte]
  · have hne : i ≠ j := fun h => hbyte (by rw [h])
    rw [if_neg hbyte]
    simp only [hne, false_or]
end UdpAck

end Plexus.Wire
