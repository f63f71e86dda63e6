/-
# Plexus.Stream.FrameArithmetic — sizes and deadlines in machine words (`stream/crc_serial.h`,
`stream/stream_inbound.h`).

The serial framer adds header and trailer to the length a header declares, in a `std::size_t`, and
slices the buffer by the sums; the deadline of a payload is its length times a second over the
throughput, in nanoseconds and an `std::int64_t`. The length comes from the peer, bounded by
`max_payload` only. Both are written over the rounding of a result to its word, so that the same
text in unbounded integers is there to compare with.
-/
import Plexus.Stream.StreamChannel

namespace Plexus.Stream

open Wire

/-- The value of a result as `std::size_t`. -/
def size64 (x : Nat) : Nat := x % 2 ^ 64

/-- The value of a result as `std::int64_t`. -/
def int64 (x : Int) : Int := (x + 2 ^ 63) % 2 ^ 64 - 2 ^ 63

theorem int64_of_lt {n : Nat} (h : n < 2 ^ 63) : int64 n = n := by
  unfold int64
  omega

/-! ## The sizes of a candidate frame -/

/-- `step`, with the lengths a verification slices by. -/
inductive CandidateStep
  | needMore
  | resync
  | verify (payloadLen frameLen : Nat)
  deriving DecidableEq

/-- `try_one_frame` up to the verification. -/
def tryOneFrame (word : Nat → Nat) (maxPayload : UInt64) (buffered : Bytes) : CandidateStep :=
  if buffered.length < headerSize then .needMore
  else match decodeHeader buffered with
    | none => .resync
    | some hdr =>
      if maxPayload < hdr.payloadLen then .resync
      else
        let frameLen := word (headerSize + hdr.payloadLen.toNat)
        if buffered.length < word (frameLen + crcTrailerSize) then .needMore
        else .verify hdr.payloadLen.toNat frameLen

variable {maxPayload minThroughput : UInt64}

theorem tryOneFrame_exact (hmax : maxPayload.toNat + 32 < 2 ^ 64) (buffered : Bytes) :
    tryOneFrame size64 maxPayload buffered = tryOneFrame id maxPayload buffered := by
  unfold tryOneFrame
  split
  · rfl
  split
  · rfl
  rename_i hdr _
  split
  · rfl
  rename_i hfits
  have hle := UInt64.le_iff_toNat_le.mp (UInt64.not_lt.mp hfits)
  have hframe : size64 (headerSize + hdr.payloadLen.toNat) = headerSize + hdr.payloadLen.toNat :=
    Nat.mod_eq_of_lt (show 28 + hdr.payloadLen.toNat < 2 ^ 64 by omega)
  have htotal : size64 (headerSize + hdr.payloadLen.toNat + crcTrailerSize) =
      headerSize + hdr.payloadLen.toNat + crcTrailerSize :=
    Nat.mod_eq_of_lt (show 28 + hdr.payloadLen.toNat + 4 < 2 ^ 64 by omega)
  dsimp only [id]
  rw [hframe, htotal]

/-- In unbounded integers nothing is verified that is not there. -/
theorem le_of_verify {payloadLen frameLen : Nat} {buffered : Bytes}
    (h : tryOneFrame id maxPayload buffered = .verify payloadLen frameLen) :
    headerSize + payloadLen + crcTrailerSize ≤ buffered.length := by
  unfold tryOneFrame at h
  grind

/-- A header whose declared length makes the sum of the three sizes zero. -/
def wrappingHeader : FrameHeader := { (default : FrameHeader) with payloadLen := 0xffffffffffffffe0 }

theorem tryOneFrame_wrappingHeader (hmax : 2 ^ 64 ≤ maxPayload.toNat + 32) :
    tryOneFrame size64 maxPayload (encodeHeader wrappingHeader) = .verify (2 ^ 64 - 32) (2 ^ 64 - 4) := by
  have hdecode : decodeHeader (encodeHeader wrappingHeader) = some wrappingHeader := by
    simpa using decodeHeader_encodeHeader wrappingHeader []
  have hfits : ¬ maxPayload < wrappingHeader.payloadLen := by
    rw [UInt64.not_lt]
    show 18446744073709551584 ≤ maxPayload.toNat
    omega
  unfold tryOneFrame
  rw [length_encodeHeader, hdecode]
  dsimp only
  rw [if_neg hfits]
  rfl

/-! ## The deadline of a payload -/

/-- `payload_deadline`, in nanoseconds. -/
def payloadDeadline (word : Int → Int) (minThroughput : UInt64) (n : Nat) : Int :=
  if minThroughput = 0 then 0
  else (word (word n * 1000000000)).tdiv (word minThroughput.toNat)

theorem toNat_pos (hset : minThroughput ≠ 0) : 0 < (minThroughput.toNat : Int) := by
  have hne : minThroughput.toNat ≠ 0 := fun h => hset (UInt64.toNat_inj.mp h)
  omega

theorem payloadDeadline_mono {m n : Nat} (h : m ≤ n) :
    0 ≤ payloadDeadline id minThroughput m ∧
      payloadDeadline id minThroughput m ≤ payloadDeadline id minThroughput n := by
  unfold payloadDeadline
  split
  · exact ⟨Int.le_refl _, Int.le_refl _⟩
  rename_i hset
  dsimp only [id]
  refine ⟨Int.tdiv_nonneg (by omega) (by omega), ?_⟩
  exact Int.tdiv_le_tdiv (toNat_pos hset) (by omega)

/-- One byte more than the product holds: the deadline is not positive, where it is meant to be. -/
theorem payloadDeadline_wraps (hrate : minThroughput.toNat < 2 ^ 63) (hset : minThroughput ≠ 0) :
    payloadDeadline int64 minThroughput 9223372037 ≤ 0 ∧
      0 < payloadDeadline id minThroughput 9223372037 := by
  unfold payloadDeadline
  rw [if_neg hset, if_neg hset, int64_of_lt hrate]
  constructor
  · have hneg : int64 (int64 (9223372037 : Nat) * 1000000000) = -9223372036709551616 := by decide
    rw [hneg, Int.neg_tdiv]
    exact Int.neg_nonpos_of_nonneg (Int.tdiv_nonneg (by decide) (by omega))
  · dsimp only [id]
    rw [Int.tdiv_eq_ediv_of_nonneg (by omega)]
    exact Int.le_ediv_of_mul_le (toNat_pos hset) (by omega)

/-- **When the arithmetic is exact.** Every comparison and every slice of the serial framer is the one
in unbounded integers, and none reaches beyond what is buffered, exactly when the ceiling leaves room
for the header and the trailer; the deadlines are, and grow with the payload, exactly when the ceiling
in nanoseconds fits its word. -/
theorem arithmetic_exact_iff (maxPayload minThroughput : UInt64) :
    ((∀ buffered,
        tryOneFrame size64 maxPayload buffered = tryOneFrame id maxPayload buffered ∧
        ∀ payloadLen frameLen,
          tryOneFrame size64 maxPayload buffered = .verify payloadLen frameLen →
            headerSize + payloadLen + crcTrailerSize ≤ buffered.length) ↔
      maxPayload.toNat + 32 < 2 ^ 64) ∧
    (minThroughput.toNat < 2 ^ 63 →
      ((∀ m n, m ≤ n → n ≤ maxPayload.toNat →
          payloadDeadline int64 minThroughput n = payloadDeadline id minThroughput n ∧
          0 ≤ payloadDeadline int64 minThroughput m ∧
          payloadDeadline int64 minThroughput m ≤ payloadDeadline int64 minThroughput n) ↔
        minThroughput = 0 ∨ maxPayload.toNat * 1000000000 < 2 ^ 63)) := by
  refine ⟨⟨fun hexact => ?_, fun hmax buffered => ?_⟩, fun hrate => ⟨fun hexact => ?_, ?_⟩⟩
  · by_contra hlarge
    have hwraps := tryOneFrame_wrappingHeader (not_lt.mp hlarge)
    have hbeyond := (hexact _).2 _ _ hwraps
    exact absurd hbeyond (by decide)
  · rw [tryOneFrame_exact hmax]
    exact ⟨rfl, fun _ _ => le_of_verify⟩
  · by_contra hlarge
    rw [not_or] at hlarge
    have hwraps := payloadDeadline_wraps hrate hlarge.1
    rw [← (hexact 9223372037 9223372037 le_rfl (by omega)).1] at hwraps
    omega
  intro hfits m n hle hn
  have hdeadline : ∀ k ≤ n, payloadDeadline int64 minThroughput k =
      payloadDeadline id minThroughput k := by
    intro k hk
    rcases hfits with hzero | hfits
    · rw [payloadDeadline, payloadDeadline, if_pos hzero, if_pos hzero]
    have hproduct : int64 ((k : Int) * 1000000000) = (k : Int) * 1000000000 :=
      int64_of_lt (lt_of_le_of_lt (Nat.mul_le_mul_right _ (le_trans hk hn)) hfits)
    unfold payloadDeadline
    rw [int64_of_lt (by omega), int64_of_lt hrate, hproduct]
    rfl
  rw [hdeadline n le_rfl, hdeadline m hle]
  exact ⟨rfl, payloadDeadline_mono hle⟩

/-- A bare header is verified as a frame of almost `2 ^ 64` bytes, and the deadline of nine
gigabytes is negative. -/
theorem unlimited_sizes_wrap :
    tryOneFrame size64 0xffffffffffffffff (encodeHeader wrappingHeader) =
        .verify (2 ^ 64 - 32) (2 ^ 64 - 4) ∧
      (encodeHeader wrappingHeader).length = headerSize ∧
      payloadDeadline int64 65536 9223372037 < 0 := by
  refine ⟨tryOneFrame_wrappingHeader (by simp), length_encodeHeader _, ?_⟩
  decide +kernel

end Plexus.Stream
