/-
# Plexus.Lib.Circular — a window of a growing sequence kept in a circular store.

A store of `cap` cells keeps the cell of an absolute position `p` at `p % cap`. Positions only
grow, so a window `[lo, hi)` of at most `cap` positions has its cells to itself: what is written
behind it, as long as it reaches no further than `lo + cap`, leaves the window as it was.
-/
import Mathlib.Data.List.Range

namespace Plexus.Lib.Circular

variable {α : Type*} {cap : Nat} {store : Nat → α}

/-- The `n` cells from position `pos` on. -/
def read (cap : Nat) (store : Nat → α) (pos n : Nat) : List α :=
  (List.range n).map fun i => store ((pos + i) % cap)

/-- The elements one after the other from position `pos` on. -/
def write (cap : Nat) (store : Nat → α) (pos : Nat) : List α → Nat → α
  | [] => store
  | a :: as => write cap (Function.update store (pos % cap) a) (pos + 1) as

section

variable (cap : Nat) (store : Nat → α)

@[simp] theorem length_read (pos n : Nat) : (read cap store pos n).length = n := by
  simp [read]

@[simp] theorem read_zero (pos : Nat) : read cap store pos 0 = [] := rfl

theorem read_add (pos m n : Nat) :
    read cap store pos (m + n) = read cap store pos m ++ read cap store (pos + m) n := by
  simp only [read, List.range_add, List.map_append, List.map_map]
  congr 1
  apply List.map_congr_left
  intro i _
  simp only [Function.comp, Nat.add_assoc]

theorem read_succ (pos n : Nat) :
    read cap store pos (n + 1) = store (pos % cap) :: read cap store (pos + 1) n := by
  rw [Nat.add_comm n 1, read_add]
  rfl

end

theorem mod_ne_mod {p q : Nat} (hlt : p < q) (hwin : q < p + cap) : p % cap ≠ q % cap := by
  intro heq
  have hsub : (q - p) % cap = 0 := Nat.sub_mod_eq_zero_of_mod_eq heq.symm
  rw [Nat.mod_eq_of_lt (by omega)] at hsub
  omega

section

variable (as : List α)

/-- Positions that are less than a round behind the end of a write keep their cells. -/
theorem write_apply_of_lt {p pos : Nat} (hlt : p < pos) (hwin : pos + as.length ≤ p + cap) :
    write cap store pos as (p % cap) = store (p % cap) := by
  induction as generalizing store pos with
  | nil => rfl
  | cons a as ih =>
    rw [List.length_cons] at hwin
    rw [write, ih (by omega) (by omega), Function.update_of_ne (mod_ne_mod hlt (by omega))]

theorem read_write_of_le {p n pos : Nat} (hle : p + n ≤ pos) (hwin : pos + as.length ≤ p + cap) :
    read cap (write cap store pos as) p n = read cap store p n := by
  apply List.map_congr_left
  intro i hi
  rw [List.mem_range] at hi
  exact write_apply_of_lt as (by omega) (by omega)

theorem read_write_self (pos : Nat) (hfit : as.length ≤ cap) :
    read cap (write cap store pos as) pos as.length = as := by
  induction as generalizing store pos with
  | nil => rfl
  | cons a as ih =>
    rw [List.length_cons] at hfit ⊢
    rw [read_succ, write, ih (pos + 1) (by omega),
      write_apply_of_lt as (Nat.lt_succ_self pos) (by omega), Function.update_self]

/-- **A write behind a window extends it.** -/
theorem read_write {lo n : Nat} (hfit : n + as.length ≤ cap) :
    read cap (write cap store (lo + n) as) lo (n + as.length) = read cap store lo n ++ as := by
  rw [read_add, read_write_of_le as le_rfl (by omega), read_write_self as _ (by omega)]

end

end Plexus.Lib.Circular
