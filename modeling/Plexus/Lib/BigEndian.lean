/-
# Plexus.Lib.BigEndian — fixed-width big-endian integers as byte strings.

`toBE w v` lays the low `w` bytes of `v` out most significant first; `ofBE` reads a byte string
back as a base-256 numeral. The two round trips below are exact in both directions: a value that
fits the width survives, and a string of the right length is recovered byte for byte.
-/
import Mathlib.Data.List.Induction
import Mathlib.Tactic.Ring

namespace Plexus

/-- A byte string. -/
abbrev Bytes := List UInt8

namespace Lib

/-- The low `w` bytes of `v`, most significant first. -/
def toBE : Nat → Nat → Bytes
  | 0, _ => []
  | w + 1, v => toBE w (v / 256) ++ [UInt8.ofNat v]

/-- The base-256 numeral a byte string spells. -/
def ofBE (bs : Bytes) : Nat :=
  bs.foldl (fun acc b => acc * 256 + b.toNat) 0

@[simp] theorem length_toBE (w v : Nat) : (toBE w v).length = w := by
  induction w generalizing v with
  | zero => rfl
  | succ w ih => simp [toBE, ih]

@[simp] theorem ofBE_nil : ofBE [] = 0 := rfl

theorem ofBE_concat (bs : Bytes) (b : UInt8) :
    ofBE (bs ++ [b]) = ofBE bs * 256 + b.toNat := by
  simp [ofBE]

theorem ofBE_lt (bs : Bytes) : ofBE bs < 256 ^ bs.length := by
  induction bs using List.reverseRecOn with
  | nil => simp
  | append_singleton bs b ih =>
    have hb : b.toNat < 256 := b.toNat_lt
    rw [ofBE_concat, List.length_append, List.length_singleton]
    omega

/-- Reading back what `toBE` wrote recovers the value modulo the width. -/
theorem ofBE_toBE (w v : Nat) : ofBE (toBE w v) = v % 256 ^ w := by
  induction w generalizing v with
  | zero => simp [toBE, Nat.mod_one]
  | succ w ih =>
    rw [toBE, ofBE_concat, ih]
    have hsplit : v % 256 ^ (w + 1) = 256 * (v / 256 % 256 ^ w) + v % 256 := by
      rw [Nat.pow_succ', Nat.mod_mul, add_comm]
    have hbyte : (UInt8.ofNat v).toNat = v % 256 := by simp
    rw [hsplit, hbyte, mul_comm]

/-- A byte string is the big-endian layout of the numeral it spells. -/
theorem toBE_ofBE (bs : Bytes) : toBE bs.length (ofBE bs) = bs := by
  induction bs using List.reverseRecOn with
  | nil => rfl
  | append_singleton bs b ih =>
    have hb : b.toNat < 256 := b.toNat_lt
    rw [ofBE_concat, List.length_append, List.length_singleton, toBE]
    have hdiv : (ofBE bs * 256 + b.toNat) / 256 = ofBE bs := by omega
    have hlow : UInt8.ofNat (ofBE bs * 256 + b.toNat) = b := by
      apply UInt8.toNat_inj.mp
      simp only [UInt8.toNat_ofNat']
      omega
    rw [hdiv, hlow, ih]

end Lib

end Plexus
