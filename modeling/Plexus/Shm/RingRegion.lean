/-
# Plexus.Shm.RingRegion — a ring on its two regions, with the sizes as the code computes them
(`shm/ring_layout.h`, `shm/broadcast_ring.h`: `create`, `attach`).

A ring lives in a control region (header and cells) and a slab (one slot for each cell). `create`
lays it out; `attach` reads the geometry from a header somebody else has written and checks it
against the sizes of the regions, in 64-bit words whose sums and products come round.

`Fits` is what the checks are for, in natural numbers. An accepted ring fits exactly when none of
the three sizes came round (`accepted_fits_iff`).
-/
import Plexus.Shm.BroadcastRing

namespace Plexus.Shm

def kRingMagic : UInt64 := 0x504c58524e473300
def kCacheLineWord : UInt64 := 64
def sizeofCell : UInt64 := kCacheLineWord
def sizeofCursor : UInt64 := kCacheLineWord

/-- The two lines of counter and configuration, the cursors, and three more lines. -/
def sizeofControlHeader : UInt64 :=
  kCacheLineWord * 2 + UInt64.ofNat kMaxConsumers * sizeofCursor + kCacheLineWord * 3

/-- The configuration words of `control_header_t`. -/
structure ControlHeader where
  magic : UInt64
  cellCount : UInt64
  slotCapacity : UInt64
  mask : UInt64
  consumerCapacity : UInt64
  deriving DecidableEq

/-- A control region, and the words that stand where its header would be. -/
structure ControlRegion where
  size : UInt64
  header : ControlHeader
  deriving DecidableEq

/-- What `bind` stores: a ring bound to its regions. -/
structure BoundRing where
  controlSize : UInt64
  slabSize : UInt64
  cellCount : UInt64
  slotCapacity : UInt64
  mask : UInt64
  stride : UInt64
  consumerCapacity : UInt64
  deriving DecidableEq

namespace BoundRing

/-! ## Sizes in words -/

def isPowerOfTwoWord (v : UInt64) : Bool := v ≠ 0 && v &&& (v - 1) = 0

/-- `round_up_8`. -/
def roundUp8Word (bytes : UInt64) : UInt64 := (bytes + 7) &&& ~~~7

def controlRegionBytes (cellCount : UInt64) : UInt64 := sizeofControlHeader + cellCount * sizeofCell

def slabRegionBytes (cellCount slotCapacity : UInt64) : UInt64 := cellCount * roundUp8Word slotCapacity

def bind (controlSize slabSize cellCount slotCapacity mask consumerCapacity : UInt64) : BoundRing :=
  { controlSize, slabSize, cellCount, slotCapacity, mask, stride := roundUp8Word slotCapacity
    consumerCapacity }

/-- `create`: the header it writes and the ring; nothing when it is rejected. Cells whose bytes
pass the word are rejected by no check, but the array `new` throws `bad_array_new_length` for them
and the function is `noexcept`: the program ends and there is no ring either. -/
def create (controlSize slabSize cellCount slotCapacity consumerCapacity : UInt64) :
    Option (ControlRegion × BoundRing) :=
  if isPowerOfTwoWord cellCount = false ∨ slotCapacity = 0 then none
  else if consumerCapacity = 0 ∨ .ofNat kMaxConsumers < consumerCapacity then none
  else if controlSize < controlRegionBytes cellCount ∨
      slabSize < slabRegionBytes cellCount slotCapacity then none
  else if 2 ^ 64 ≤ cellCount.toNat * sizeofCell.toNat then none
  else
    some ({ size := controlSize
            header := { magic := kRingMagic, cellCount, slotCapacity, mask := cellCount - 1,
                        consumerCapacity } },
      bind controlSize slabSize cellCount slotCapacity (cellCount - 1) consumerCapacity)

/-- `attach`: the ring the header describes; nothing when it is rejected. -/
def attach (control : ControlRegion) (slabSize : UInt64) : Option BoundRing :=
  if control.size < sizeofControlHeader then none
  else
    let header := control.header
    if header.magic ≠ kRingMagic ∨ isPowerOfTwoWord header.cellCount = false ∨
        header.slotCapacity = 0 then none
    else if header.mask ≠ header.cellCount - 1 then none
    else if header.consumerCapacity = 0 ∨ .ofNat kMaxConsumers < header.consumerCapacity then none
    else if control.size < controlRegionBytes header.cellCount ∨
        slabSize < header.cellCount * roundUp8Word header.slotCapacity then none
    else
      some (bind control.size slabSize header.cellCount header.slotCapacity header.mask
        header.consumerCapacity)

variable (r : BoundRing)

/-- The index `cell_at` takes. -/
def cellIndex (position : UInt64) : UInt64 := position &&& r.mask

/-- The offset `slot_span` computes. -/
def slotOffset (position : UInt64) : UInt64 := r.cellIndex position * r.stride

/-! ## What was checked -/

/-- The checks that `create` and `attach` share. -/
structure Accepted (r : BoundRing) : Prop where
  pow2 : isPowerOfTwoWord r.cellCount = true
  slot_ne_zero : r.slotCapacity ≠ 0
  mask : r.mask = r.cellCount - 1
  stride : r.stride = roundUp8Word r.slotCapacity
  consumers_ne_zero : r.consumerCapacity ≠ 0
  consumers_le : r.consumerCapacity ≤ .ofNat kMaxConsumers
  control : controlRegionBytes r.cellCount ≤ r.controlSize
  slab : slabRegionBytes r.cellCount r.slotCapacity ≤ r.slabSize

theorem accepted_of_attach {control : ControlRegion} {slabSize : UInt64} {r : BoundRing}
    (h : attach control slabSize = some r) :
    r.Accepted ∧ r.controlSize = control.size ∧ r.slabSize = slabSize := by
  unfold attach at h
  split at h
  · cases h
  dsimp only at h
  split at h
  · cases h
  rename_i hconfig
  split at h
  · cases h
  rename_i hmask
  split at h
  · cases h
  rename_i hconsumers
  split at h
  · cases h
  rename_i hsizes
  obtain rfl := Option.some.inj h
  simp only [not_or, Bool.not_eq_false, UInt64.not_lt, not_not] at *
  exact ⟨⟨hconfig.2.1, hconfig.2.2, hmask, rfl, hconsumers.1, hconsumers.2, hsizes.1,
    hsizes.2⟩, rfl, rfl⟩

theorem accepted_of_create {controlSize slabSize cellCount slotCapacity consumerCapacity : UInt64}
    {region : ControlRegion} {r : BoundRing}
    (h : create controlSize slabSize cellCount slotCapacity consumerCapacity = some (region, r)) :
    r.Accepted ∧ r.controlSize = controlSize ∧ r.slabSize = slabSize := by
  unfold create at h
  split_ifs at h with hconfig hconsumers hsizes hcells
  obtain ⟨-, rfl⟩ := Prod.mk.inj (Option.some.inj h)
  simp only [not_or, Bool.not_eq_false, UInt64.not_lt] at hconfig hconsumers hsizes
  exact ⟨⟨hconfig.1, hconfig.2, rfl, rfl, hconsumers.1, hconsumers.2, hsizes.1, hsizes.2⟩, rfl, rfl⟩

/-! ## The words as numbers -/

theorem toNat_and_not_seven (v : UInt64) : (v &&& ~~~7).toNat = v.toNat / 8 * 8 := by
  have hmask : (~~~7 : UInt64).toNat = (2 ^ 61 - 1) <<< 3 := by decide
  have hshift : v.toNat / 8 * 8 = (v.toNat >>> 3) <<< 3 := by
    rw [Nat.shiftRight_eq_div_pow, Nat.shiftLeft_eq]
  rw [UInt64.toNat_and, hmask, hshift]
  apply Nat.eq_of_testBit_eq
  intro i
  rw [Nat.testBit_and, Nat.testBit_shiftLeft, Nat.testBit_shiftLeft, Nat.testBit_two_pow_sub_one,
    Nat.testBit_shiftRight]
  by_cases hlow : 3 ≤ i
  · rw [Nat.add_sub_cancel' hlow]
    by_cases hhigh : i < 64
    · have hin : i - 3 < 61 := by omega
      simp [hlow, hin]
    have hzero : v.toNat.testBit i = false :=
      Nat.testBit_lt_two_pow (lt_of_lt_of_le v.toNat_lt (Nat.pow_le_pow_right (by decide)
        (not_lt.mp hhigh)))
    simp [hzero]
  · simp [hlow]

theorem toNat_roundUp8Word (bytes : UInt64) :
    (roundUp8Word bytes).toNat = (bytes.toNat + 7) % 2 ^ 64 / 8 * 8 := by
  rw [roundUp8Word, toNat_and_not_seven]
  rfl

theorem toNat_roundUp8Word_of_lt {bytes : UInt64} (h : bytes.toNat + 7 < 2 ^ 64) :
    (roundUp8Word bytes).toNat = roundUp8 bytes.toNat := by
  rw [toNat_roundUp8Word, Nat.mod_eq_of_lt h, roundUp8]

theorem le_roundUp8 (bytes : Nat) : bytes ≤ roundUp8 bytes := by
  unfold roundUp8
  omega

/-- A capacity that rounds up past the word leaves a stride of nothing. -/
theorem roundUp8Word_eq_zero {bytes : UInt64} (h : 2 ^ 64 ≤ bytes.toNat + 7) :
    roundUp8Word bytes = 0 := by
  have hlt := bytes.toNat_lt
  apply UInt64.toNat_inj.mp
  rw [toNat_roundUp8Word]
  show _ = 0
  omega

theorem isPowerOfTwo_toNat {v : UInt64} (h : isPowerOfTwoWord v) :
    isPowerOfTwo v.toNat := by
  simp only [isPowerOfTwoWord, Bool.and_eq_true, decide_eq_true_eq] at h
  obtain ⟨hne, hand⟩ := h
  have hne' : v.toNat ≠ 0 := fun hzero => hne (UInt64.toNat_inj.mp hzero)
  have hsub : (v - 1).toNat = v.toNat - 1 := by
    apply UInt64.toNat_sub_of_le
    show 1 ≤ v.toNat
    omega
  have hnat := congrArg UInt64.toNat hand
  rw [UInt64.toNat_and, hsub] at hnat
  simp only [isPowerOfTwo, Bool.and_eq_true, decide_eq_true_eq]
  exact ⟨hne', hnat⟩

/-! ## Fitting -/

/-- Header and cells inside the control region, the slots inside the slab, a message inside its
slot. -/
def Fits : Prop :=
  sizeofControlHeader.toNat + r.cellCount.toNat * sizeofCell.toNat ≤ r.controlSize.toNat ∧
    r.cellCount.toNat * roundUp8 r.slotCapacity.toNat ≤ r.slabSize.toNat ∧
    r.slotCapacity ≤ r.stride

/-- None of the sizes comes round. -/
def NoWrap : Prop :=
  sizeofControlHeader.toNat + r.cellCount.toNat * sizeofCell.toNat < 2 ^ 64 ∧
    r.slotCapacity.toNat + 7 < 2 ^ 64 ∧
    r.cellCount.toNat * roundUp8 r.slotCapacity.toNat < 2 ^ 64

instance NoWrap.decidable (r : BoundRing) : Decidable r.NoWrap :=
  inferInstanceAs (Decidable (_ ∧ _ ∧ _))

/-- The cell and the slot of every position are inside the regions. -/
def Inside : Prop :=
  ∀ position,
    sizeofControlHeader.toNat + ((r.cellIndex position).toNat + 1) * sizeofCell.toNat ≤
        r.controlSize.toNat ∧
      (r.slotOffset position).toNat + r.stride.toNat ≤ r.slabSize.toNat

variable {r : BoundRing}

section

variable (h : r.Accepted)
include h

theorem Accepted.fits (hwrap : r.NoWrap) : r.Fits := by
  obtain ⟨hcells, hround, hslots⟩ := hwrap
  have hstride := toNat_roundUp8Word_of_lt hround
  refine ⟨?_, ?_, ?_⟩
  · have hcontrol := UInt64.le_iff_toNat_le.mp h.control
    rw [controlRegionBytes, UInt64.toNat_add, UInt64.toNat_mul, Nat.add_mod_mod,
      Nat.mod_eq_of_lt hcells] at hcontrol
    exact hcontrol
  · have hslab := UInt64.le_iff_toNat_le.mp h.slab
    rw [slabRegionBytes, UInt64.toNat_mul, hstride, Nat.mod_eq_of_lt hslots] at hslab
    exact hslab
  · rw [h.stride, UInt64.le_iff_toNat_le, hstride]
    exact le_roundUp8 _

theorem Accepted.noWrap (hfits : r.Fits) : r.NoWrap := by
  obtain ⟨hcontrol, hslab, hslot⟩ := hfits
  refine ⟨lt_of_le_of_lt hcontrol r.controlSize.toNat_lt, ?_,
    lt_of_le_of_lt hslab r.slabSize.toNat_lt⟩
  apply not_le.mp
  intro hround
  -- a message of at least one byte does not go into a slot of none
  rw [h.stride, roundUp8Word_eq_zero hround] at hslot
  exact h.slot_ne_zero (UInt64.toNat_inj.mp (Nat.le_zero.mp hslot))

theorem Accepted.one_le : 1 ≤ r.cellCount := by
  have hpow := isPowerOfTwo_toNat h.pow2
  simp only [isPowerOfTwo, Bool.and_eq_true, decide_eq_true_eq] at hpow
  exact Nat.one_le_iff_ne_zero.mpr hpow.1

theorem Accepted.cellIndex_lt (position : UInt64) :
    (r.cellIndex position).toNat < r.cellCount.toNat := by
  have hone := h.one_le
  have hpos := UInt64.le_iff_toNat_le.mp hone
  have hle : (r.cellIndex position).toNat ≤ r.cellCount.toNat - 1 := by
    rw [cellIndex, h.mask, UInt64.toNat_and, UInt64.toNat_sub_of_le _ _ hone]
    exact Nat.and_le_right
  exact lt_of_le_of_lt hle (Nat.sub_lt hpos (by decide))

theorem Accepted.inside (hfits : r.Fits) : r.Inside := by
  obtain ⟨hcells, hround, hslots⟩ := h.noWrap hfits
  obtain ⟨hcontrol, hslab, -⟩ := hfits
  have hstride : r.stride.toNat = roundUp8 r.slotCapacity.toNat := by
    rw [h.stride, toNat_roundUp8Word_of_lt hround]
  intro position
  have hindex := h.cellIndex_lt position
  constructor
  · exact le_trans (Nat.add_le_add_left (Nat.mul_le_mul_right _ hindex) _) hcontrol
  -- the offset is the true product: it stays below the last slot
  have hlast : ((r.cellIndex position).toNat + 1) * roundUp8 r.slotCapacity.toNat ≤
      r.cellCount.toNat * roundUp8 r.slotCapacity.toNat := Nat.mul_le_mul_right _ hindex
  rw [Nat.add_mul] at hlast
  rw [slotOffset, UInt64.toNat_mul, hstride]
  omega

end

/-- **An accepted ring fits exactly when no size came round**, and then every position is inside.
So it is with `attach`, whatever the region holds, and so with `create`. -/
theorem accepted_fits_iff (controlSize slabSize : UInt64) (r : BoundRing)
    (h : (∃ header, attach ⟨controlSize, header⟩ slabSize = some r) ∨
      ∃ cellCount slotCapacity consumerCapacity region,
        create controlSize slabSize cellCount slotCapacity consumerCapacity = some (region, r)) :
    (r.controlSize = controlSize ∧ r.slabSize = slabSize) ∧
      (r.Fits ↔ r.NoWrap) ∧ (r.NoWrap → r.Inside) := by
  have hchecked : r.Accepted ∧ r.controlSize = controlSize ∧ r.slabSize = slabSize := by
    rcases h with ⟨header, hattach⟩ | ⟨_, _, _, region, hcreate⟩
    · exact accepted_of_attach hattach
    · exact accepted_of_create hcreate
  obtain ⟨haccepted, hsizes⟩ := hchecked
  exact ⟨hsizes, ⟨haccepted.noWrap, haccepted.fits⟩,
    fun hwrap => haccepted.inside (haccepted.fits hwrap)⟩

/-- A ring of 256 slots of 4096 bytes, attached to regions of just that size. -/
theorem accepted_fits_default :
    let ring := bind 17728 1048576 256 4096 255 16
    attach ⟨17728, kRingMagic, 256, 4096, 255, 16⟩ 1048576 = some ring ∧ ring.Fits ∧ ring.Inside := by
  intro ring
  have hattach : attach ⟨17728, kRingMagic, 256, 4096, 255, 16⟩ 1048576 = some ring := by decide
  obtain ⟨-, hiff, hinside⟩ := accepted_fits_iff _ _ _ (.inl ⟨_, hattach⟩)
  have hwrap : ring.NoWrap := by decide
  exact ⟨hattach, hiff.mpr hwrap, hinside hwrap⟩

/-- Two slots of `2 ^ 63` bytes come to nothing, so `create` and `attach` accept a slab of no bytes.
And `attach` accepts a header of `2 ^ 58` cells on a region that holds the header alone: 64 times
the count is nothing too. -/
theorem wrapped_header_accepted :
    (let header := ⟨1472, kRingMagic, 2, 0x8000000000000000, 1, 16⟩
      let ring := bind 1472 0 2 0x8000000000000000 1 16
      create 1472 0 2 0x8000000000000000 16 = some (header, ring) ∧ attach header 0 = some ring ∧
        ¬ ring.Fits ∧ ¬ ring.Inside) ∧
    let ring := bind 1344 0 0x400000000000000 64 0x3ffffffffffffff 16
    attach ⟨1344, kRingMagic, 0x400000000000000, 64, 0x3ffffffffffffff, 16⟩ 0 = some ring ∧
      ¬ ring.Fits ∧ ¬ ring.Inside := by
  refine ⟨⟨by decide, by decide, ?_, ?_⟩, by decide, ?_, ?_⟩
  · intro hfits
    exact absurd hfits.2.1 (by decide)
  · intro hinside
    exact absurd (hinside 0).2 (by decide)
  · intro hfits
    exact absurd hfits.1 (by decide)
  · intro hinside
    exact absurd (hinside 0).1 (by decide)

/-! ## What an accepted ring is -/

/-- An accepted ring has the geometry of a ring, and finds its cells where that has them. -/
theorem Accepted.geometry (h : r.Accepted) :
    ∃ g, Shm.create r.cellCount.toNat r.slotCapacity.toNat r.consumerCapacity.toNat = some g ∧
      ∀ position, g.cellAt position.toNat = (r.cellIndex position).toNat := by
  have hpow := isPowerOfTwo_toNat h.pow2
  have hslot : r.slotCapacity.toNat ≠ 0 := fun hzero => h.slot_ne_zero (UInt64.toNat_inj.mp hzero)
  have hsome : r.consumerCapacity.toNat ≠ 0 :=
    fun hzero => h.consumers_ne_zero (UInt64.toNat_inj.mp hzero)
  have hmax : r.consumerCapacity.toNat ≤ kMaxConsumers := UInt64.le_iff_toNat_le.mp h.consumers_le
  refine ⟨⟨_, _, _, hpow, hslot, hsome, hmax⟩, dif_pos ⟨hpow, hslot, hsome, hmax⟩, fun position => ?_⟩
  rw [cellIndex, h.mask, UInt64.toNat_and, UInt64.toNat_sub_of_le _ _ h.one_le]
  rfl

end BoundRing

end Plexus.Shm
