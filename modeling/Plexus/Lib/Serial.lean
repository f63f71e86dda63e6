/-
# Plexus.Lib.Serial — serial numbers: counters that wrap.

A counter that only ever grows is put on the wire modulo `m`. `gap m a b` is what a machine computes
when it subtracts two wrapped counters. The two lemmas `gap_of_le` and `gap_of_lt` say when that
recovers the true distance: looking ahead by less than a turn, and looking back by at most a turn.
-/
import Mathlib.Data.Nat.ModEq

namespace Plexus.Lib

/-- The wrapped difference of two counters. -/
def gap (m a b : Nat) : Nat := (m - b % m + a % m) % m

variable {m a b d : Nat}

theorem gap_lt (hm : 0 < m) : gap m a b < m := Nat.mod_lt _ hm

/-- The wrapped difference is the number of steps from `b` to `a`, modulo the turn. -/
theorem gap_add_modEq (hm : 0 < m) : gap m a b + b ≡ a [MOD m] := by
  have hb : b % m ≤ m := (Nat.mod_lt b hm).le
  calc gap m a b + b
      ≡ (m - b % m + a % m) + b % m [MOD m] := (Nat.mod_modEq _ _).add (Nat.mod_modEq _ _).symm
    _ = a % m + m := by omega
    _ ≡ a [MOD m] := (Nat.add_mod_right _ _).trans (Nat.mod_mod _ _)

theorem gap_eq_of_modEq (hd : d < m) (h : d + b ≡ a [MOD m]) : gap m a b = d := by
  have hm : 0 < m := by omega
  have hmod : gap m a b ≡ d [MOD m] := ((gap_add_modEq hm).trans h.symm).add_right_cancel' b
  exact hmod.eq_of_lt_of_lt (gap_lt hm) hd

theorem gap_of_le (hab : b ≤ a) (h : a < b + m) : gap m a b = a - b :=
  gap_eq_of_modEq (by omega) (by rw [Nat.sub_add_cancel hab])

theorem gap_of_lt (hab : a < b) (h : b ≤ a + m) : gap m a b = m - (b - a) := by
  refine gap_eq_of_modEq (by omega) ?_
  have hsum : m - (b - a) + b = a + m := by omega
  rw [hsum]
  exact Nat.add_mod_right a m

end Plexus.Lib
