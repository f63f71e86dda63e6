/-
# Plexus.Lib.SeenWindow — a sliding bitmap of what has been seen.

A filter keeps the highest number it has accepted and one bit for each number at and below it: bit
`b` stands for `highest - b`. `Reflects`: the bits are the set of the accepted numbers, as far back
as the bitmap reaches. A number at or below the highest sets its bit (`Reflects.mark`); one above
moves every bit up by the distance and sets the lowest (`Reflects.slide`).
-/
import Mathlib.Data.Set.Insert

namespace Plexus.Lib

/-- Bit `b` tells whether `highest - b` is in the set, for every `b` below `reach`. -/
structure Reflects (reach : Nat) (bit : Nat → Prop) (highest : Nat) (seen : Set Nat) : Prop where
  le_highest : ∀ n ∈ seen, n ≤ highest
  bit_iff : ∀ b < reach, b ≤ highest → (bit b ↔ highest - b ∈ seen)

namespace Reflects

variable {reach highest n : Nat} {bit bit' : Nat → Prop} {seen : Set Nat}

theorem empty (hclear : ∀ b < reach, ¬ bit b) : Reflects reach bit highest ∅ where
  le_highest := fun _ h => h.elim
  bit_iff := fun b hb _ => ⟨fun hbit => hclear b hb hbit, fun h => h.elim⟩

section

variable (h : Reflects reach bit highest seen)
include h

theorem mark (hle : n ≤ highest) (hbit : ∀ b < reach, bit' b ↔ bit b ∨ b = highest - n) :
    Reflects reach bit' highest (insert n seen) := by
  constructor
  · rintro m (rfl | hm)
    · exact hle
    · exact h.le_highest m hm
  intro b hb hb'
  rw [hbit b hb, h.bit_iff b hb hb', or_comm]
  apply or_congr_left
  omega

theorem slide (hlt : highest < n)
    (hbit : ∀ b < reach, bit' b ↔ (n - highest ≤ b ∧ bit (b - (n - highest))) ∨ b = 0) :
    Reflects reach bit' n (insert n seen) := by
  constructor
  · rintro m (rfl | hm)
    · exact le_rfl
    · exact le_trans (h.le_highest m hm) (le_of_lt hlt)
  intro b hb hb'
  rw [hbit b hb, or_comm]
  apply or_congr
  · omega
  -- both directions meet at the old bit `b` came from, which stands for the same number
  have hsame (hfar : n - highest ≤ b) : highest - (b - (n - highest)) = n - b := by omega
  constructor
  · rintro ⟨hfar, hold⟩
    have hmem := (h.bit_iff _ (by omega) (by omega)).mp hold
    rwa [hsame hfar] at hmem
  intro hmem
  have hmax := h.le_highest _ hmem
  have hfar : n - highest ≤ b := by omega
  refine ⟨hfar, (h.bit_iff _ (by omega) (by omega)).mpr ?_⟩
  rwa [hsame hfar]

end

end Reflects

end Plexus.Lib
