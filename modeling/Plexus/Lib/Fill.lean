/-
# Plexus.Lib.Fill — filling a bounded budget with items, one after the other.

A bounded queue that is offered items in order takes each one that still fits; a refusal does not
stop it. `fill size free xs` are the items taken out of a free budget: all of them iff they fit
together (`fill_eq_self_iff`). When every item but the last has one size, the room left for the last
is the remainder of the budget (`free_after_uniform`), so a small last item can get in after larger
ones were refused.
-/
import Mathlib.Algebra.Ring.Nat
import Mathlib.Data.List.Basic

namespace Plexus.Lib

open List

variable {α : Type*} (size : α → Nat)

/-- The items a budget of `free` takes when they are offered in order. -/
def fill : Nat → List α → List α
  | _, [] => []
  | free, x :: xs => if size x ≤ free then x :: fill (free - size x) xs else fill free xs

theorem sum_fill_le (free : Nat) (xs : List α) : ((fill size free xs).map size).sum ≤ free := by
  induction xs generalizing free with
  | nil => exact Nat.zero_le _
  | cons x xs ih =>
    rw [fill]
    split
    · have := ih (free - size x)
      simp only [map_cons, sum_cons]
      omega
    · exact ih free

variable {xs : List α}

theorem fill_of_sum_le {free : Nat} (h : (xs.map size).sum ≤ free) :
    fill size free xs = xs := by
  induction xs generalizing free with
  | nil => rfl
  | cons x xs ih =>
    simp only [map_cons, sum_cons] at h
    rw [fill, if_pos (by omega), ih (by omega)]

/-- **Everything is taken iff everything fits together.** -/
theorem fill_eq_self_iff {free : Nat} :
    fill size free xs = xs ↔ (xs.map size).sum ≤ free := by
  constructor
  · intro h
    rw [← h]
    exact sum_fill_le size free xs
  · exact fill_of_sum_le size

/-- Items of one size `F`: as many are taken as `F` goes into the budget. -/
theorem fill_uniform {F : Nat} (hF : 0 < F) (hsize : ∀ x ∈ xs, size x = F)
    (free : Nat) : fill size free xs = xs.take (free / F) := by
  induction xs generalizing free with
  | nil => simp [fill]
  | cons x xs ih =>
    obtain ⟨hx, hxs⟩ := forall_mem_cons.mp hsize
    rw [fill, hx]
    split
    · rename_i hle
      rw [ih hxs, Nat.div_eq_sub_div hF hle, take_succ_cons]
    · rw [ih hxs, Nat.div_eq_of_lt (by omega), take_zero, take_zero]

/-- What a budget has left after it was offered `xs`, all of size `F`. -/
theorem free_after_uniform {F : Nat} (hF : 0 < F) (hsize : ∀ x ∈ xs, size x = F)
    (free : Nat) :
    free - ((fill size free xs).map size).sum =
      if xs.length * F ≤ free then free - xs.length * F else free % F := by
  have hmap : (fill size free xs).map size = .replicate (min (free / F) xs.length) F := by
    rw [fill_uniform size hF hsize, eq_replicate_iff]
    refine ⟨by simp, ?_⟩
    intro n hn
    obtain ⟨x, hx, rfl⟩ := mem_map.mp hn
    exact hsize x (mem_of_mem_take hx)
  rw [hmap, sum_replicate_nat]
  have hle_iff : xs.length * F ≤ free ↔ xs.length ≤ free / F := (Nat.le_div_iff_mul_le hF).symm
  split
  · rename_i hle
    rw [Nat.min_eq_right (hle_iff.mp hle)]
  · rw [Nat.min_eq_left (by omega), Nat.mod_eq_sub, mul_comm]

end Plexus.Lib
