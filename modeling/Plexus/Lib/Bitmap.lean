/-
# Plexus.Lib.Bitmap — a bitmap packed into machine words, and its shift by any distance.

`n` words of `w` bits hold the bits `0 … n * w - 1`, bit `b` at position `b % w` of word `b / w`.
Reads and writes go through one-hot masks and the shift moves whole words and carries the rest, in
place and from the top word down, the way such code is written. The lemmas read every operation
back bit by bit, so a user of the bitmap never sees a word.
-/
import Mathlib.Data.Nat.Basic
import Mathlib.Tactic.Common

namespace Plexus.Lib

abbrev Bitmap (w n : Nat) := Vector (BitVec w) n

variable {i : Nat}

theorem and_oneHot_ne_zero_iff {w : Nat} (x : BitVec w) (hi : i < w) :
    x &&& (1#w <<< i) ≠ 0#w ↔ x.getLsbD i = true := by
  -- a one-hot mask below the word's width is not the zero word
  have hne : .twoPow w i ≠ 0#w := by
    intro h
    have hget := congrArg (fun y => y.getLsbD i) h
    simp [hi] at hget
  rw [← BitVec.twoPow_eq, BitVec.and_twoPow]
  cases x.getLsbD i with
  | false => simp
  | true => simpa using hne

namespace Bitmap

variable {w n : Nat}

def clear : Bitmap w n := Vector.replicate n 0

variable (m : Bitmap w n)

def word (i : Nat) : BitVec w := m[i]?.getD 0

def put (i : Nat) (v : BitVec w) : Bitmap w n := m.setIfInBounds i v

/-- What the bitmap says of position `b`. -/
def bit (b : Nat) : Bool := (m.word (b / w)).getLsbD (b % w)

/-- The read through a one-hot mask. -/
def testBit (b : Nat) : Bool := m.word (b / w) &&& (1#w <<< (b % w)) != 0#w

/-- The write through a one-hot mask. -/
def setBit (b : Nat) : Bitmap w n :=
  m.put (b / w) (m.word (b / w) ||| (1#w <<< (b % w)))

theorem word_put_self (h : i < n) (v : BitVec w) : (m.put i v).word i = v := by
  simp [word, put, h]

variable {j wordShift bitShift : Nat}

theorem word_put_ne (h : i ≠ j) (v : BitVec w) : (m.put i v).word j = m.word j := by
  simp [word, put, Vector.getElem?_setIfInBounds_ne h]

@[simp] theorem bit_clear (b : Nat) : (clear : Bitmap w n).bit b = false := by
  unfold bit word clear
  by_cases h : b / w < n <;> simp [h]

theorem testBit_eq_bit (hw : 0 < w) (m : Bitmap w n) (b : Nat) : m.testBit b = m.bit b := by
  have hlt : b % w < w := Nat.mod_lt b hw
  unfold testBit bit
  rw [Bool.eq_iff_iff, bne_iff_ne]
  exact and_oneHot_ne_zero_iff _ hlt

theorem bit_setBit (hw : 0 < w) (m : Bitmap w n) {b : Nat} (hb : b < n * w) (c : Nat) :
    (m.setBit b).bit c = (m.bit c || decide (c = b)) := by
  have hword : b / w < n := (Nat.div_lt_iff_lt_mul hw).mpr hb
  have hlt : b % w < w := Nat.mod_lt b hw
  by_cases hsame : b / w = c / w
  · have hiff : b % w = c % w ↔ c = b := by
      constructor
      · intro h
        rw [← Nat.div_add_mod c w, ← Nat.div_add_mod b w, hsame, h]
      · intro h
        rw [h]
    unfold bit setBit
    rw [← hsame, word_put_self m hword, BitVec.getLsbD_or, ← BitVec.twoPow_eq,
      BitVec.getLsbD_twoPow]
    simp only [hlt, decide_true, Bool.true_and, hiff]
  · have hne : c ≠ b := by
      intro h
      exact hsame (by rw [h])
    unfold bit setBit
    rw [word_put_ne m hsame]
    simp [hne]

/-! ## Shifting toward the higher positions -/

/-- The word that lands at `i` when the words move up by `wordShift`, shifted within itself. -/
def movedWord (wordShift bitShift : Nat) (m : Bitmap w n) (i : Nat) : BitVec w :=
  if wordShift ≤ i then m.word (i - wordShift) <<< bitShift else 0

/-- Word `i` of the bitmap moved up by `wordShift` words and `bitShift` bits: the moved word, and
the bits the next lower word carries into it. Without a bit shift there is no carry. -/
def shiftWord (wordShift bitShift : Nat) (m : Bitmap w n) (i : Nat) : BitVec w :=
  if bitShift ≠ 0 ∧ wordShift < i then
    movedWord wordShift bitShift m i ||| (m.word (i - wordShift - 1) >>> (w - bitShift))
  else movedWord wordShift bitShift m i

/-- The in-place loop over the words `i - 1, …, 0`. -/
def shiftLoop (wordShift bitShift : Nat) : Nat → Bitmap w n → Bitmap w n
  | 0, m => m
  | i + 1, m => shiftLoop wordShift bitShift i (m.put i (shiftWord wordShift bitShift m i))

theorem shiftWord_put {k : Nat} (h : i < k) (v : BitVec w) :
    shiftWord wordShift bitShift (m.put k v) i = shiftWord wordShift bitShift m i := by
  have hsrc : (m.put k v).word (i - wordShift) = m.word (i - wordShift) :=
    word_put_ne m (by omega) v
  have hcarry : (m.put k v).word (i - wordShift - 1) = m.word (i - wordShift - 1) :=
    word_put_ne m (by omega) v
  unfold shiftWord movedWord
  rw [hsrc, hcarry]

/-- The loop leaves each word it has passed shifted and the words above it alone: going down, no
word is overwritten before it has been read. -/
theorem word_shiftLoop {k : Nat} (hk : k ≤ n) (m : Bitmap w n) (i : Nat) :
    (shiftLoop wordShift bitShift k m).word i =
      if i < k then shiftWord wordShift bitShift m i else m.word i := by
  induction k generalizing m with
  | zero => simp [shiftLoop]
  | succ k ih =>
    rw [shiftLoop, ih (by omega)]
    rcases Nat.lt_trichotomy i k with hlt | heq | hgt
    · rw [if_pos hlt, if_pos (by omega), shiftWord_put m hlt]
    · subst heq
      rw [if_neg (by omega), if_pos (by omega), word_put_self m (by omega)]
    · rw [if_neg (by omega), if_neg (by omega), word_put_ne m (by omega)]

theorem getLsbD_movedWord (wordShift bitShift : Nat) (m : Bitmap w n) (hj : j < w) :
    (movedWord wordShift bitShift m i).getLsbD j =
      (decide (wordShift ≤ i) && (decide (bitShift ≤ j) &&
        (m.word (i - wordShift)).getLsbD (j - bitShift))) := by
  unfold movedWord
  split
  · rename_i hle
    rw [BitVec.getLsbD_shiftLeft]
    by_cases hb : bitShift ≤ j
    · simp [hj, hle, hb]
    · simp [hb]
  · rename_i hle
    simp [hle]

theorem getLsbD_shiftWord (hbit : bitShift < w) (m : Bitmap w n) (hj : j < w) :
    (shiftWord wordShift bitShift m i).getLsbD j =
      if bitShift ≤ j then decide (wordShift ≤ i) && (m.word (i - wordShift)).getLsbD (j - bitShift)
      else decide (wordShift < i) && (m.word (i - wordShift - 1)).getLsbD (w - bitShift + j) := by
  have hlow := getLsbD_movedWord wordShift bitShift m (i := i) hj
  unfold shiftWord
  by_cases hle : bitShift ≤ j
  · -- the carried bits all lie below `bitShift`
    have hout : (m.word (i - wordShift - 1)).getLsbD (w - bitShift + j) = false :=
      BitVec.getLsbD_of_ge _ _ (by omega)
    split
    · rw [BitVec.getLsbD_or, hlow, BitVec.getLsbD_ushiftRight, hout]
      simp [hle]
    · rw [hlow]
      simp [hle]
  have hne : bitShift ≠ 0 := by omega
  split
  · rename_i hc
    rw [BitVec.getLsbD_or, hlow]
    simp [hle, hc.2]
  rename_i hc
  have hi : ¬ wordShift < i := fun h => hc ⟨hne, h⟩
  rw [hlow]
  simp [hle, hi]

/-- **The shift.** Moving by `wordShift` words and `bitShift` bits moves every bit up by their
sum, and clears the positions left behind. -/
theorem bit_shiftLoop (hbit : bitShift < w) (m : Bitmap w n) {b : Nat} (hb : b < n * w) :
    (shiftLoop wordShift bitShift n m).bit b =
      (decide (wordShift * w + bitShift ≤ b) && m.bit (b - (wordShift * w + bitShift))) := by
  have hw : 0 < w := by omega
  have hword : b / w < n := (Nat.div_lt_iff_lt_mul hw).mpr hb
  have hlt : b % w < w := Nat.mod_lt b hw
  have hsplit : b / w * w + b % w = b := Nat.div_add_mod' b w
  unfold bit
  rw [word_shiftLoop (Nat.le_refl n), if_pos hword, getLsbD_shiftWord hbit m hlt]
  generalize hi : b / w = i at *
  generalize hj : b % w = j at *
  by_cases hle : bitShift ≤ j
  · rw [if_pos hle]
    by_cases hs : wordShift ≤ i
    · -- no carry: the source bit sits in word `i - wordShift`
      obtain ⟨d, rfl⟩ := Nat.exists_eq_add_of_le hs
      have hsrc : b - (wordShift * w + bitShift) = w * d + (j - bitShift) := by
        rw [Nat.add_mul] at hsplit
        rw [Nat.mul_comm w d]
        omega
      have hge : wordShift * w + bitShift ≤ b := by
        rw [Nat.add_mul] at hsplit
        omega
      have hrem : j - bitShift < w := by omega
      rw [hsrc, Nat.mul_add_div hw, Nat.mul_add_mod, Nat.div_eq_of_lt hrem, Nat.mod_eq_of_lt hrem]
      simp [hge]
    · have hsmall : ¬ wordShift * w + bitShift ≤ b := by
        have hmul : (i + 1) * w ≤ wordShift * w := Nat.mul_le_mul_right w (by omega)
        rw [Nat.add_mul] at hmul
        omega
      simp [hs, hsmall]
  rw [if_neg hle]
  by_cases hs : wordShift < i
  · -- the source bit is carried over from the word below
    obtain ⟨d, rfl⟩ : ∃ d, i = wordShift + 1 + d := ⟨i - (wordShift + 1), by omega⟩
    have hsrc : b - (wordShift * w + bitShift) = w * d + (w - bitShift + j) := by
      rw [Nat.add_mul, Nat.add_mul] at hsplit
      rw [Nat.mul_comm w d]
      omega
    have hge : wordShift * w + bitShift ≤ b := by
      omega
    have hrem : w - bitShift + j < w := by omega
    have hidx : wordShift + 1 + d - wordShift - 1 = d := by omega
    rw [hsrc, Nat.mul_add_div hw, Nat.mul_add_mod, Nat.div_eq_of_lt hrem, Nat.mod_eq_of_lt hrem,
      hidx]
    simp [hge, hs]
  · have hsmall : ¬ wordShift * w + bitShift ≤ b := by
      have hmul : i * w ≤ wordShift * w := Nat.mul_le_mul_right w (by omega)
      omega
    simp [hs, hsmall]

/-! ## Clearing the unused top bits -/

/-- Keep only the low `top` bits of the last word. -/
def maskTop (top : Nat) (m : Bitmap w n) : Bitmap w n :=
  m.put (n - 1) (m.word (n - 1) &&& (1#w <<< top) - 1#w)

theorem getLsbD_lowMask {top : Nat} (htop : top < w) :
    ((1#w <<< top) - 1#w).getLsbD j = decide (j < top) := by
  have hpow : 2 ^ top < 2 ^ w := Nat.pow_lt_pow_right (by decide) htop
  have hone : 1 < 2 ^ w := lt_of_le_of_lt Nat.one_le_two_pow hpow
  have hmask : ((1#w <<< top) - 1#w).toNat = 2 ^ top - 1 := by
    rw [← BitVec.twoPow_eq, BitVec.toNat_sub, BitVec.toNat_twoPow, BitVec.toNat_ofNat,
      Nat.mod_eq_of_lt hpow, Nat.mod_eq_of_lt hone]
    have hpos : 1 ≤ 2 ^ top := Nat.one_le_two_pow
    have hsum : 2 ^ w - 1 + 2 ^ top = 2 ^ w + (2 ^ top - 1) := by omega
    rw [hsum, Nat.add_mod_left, Nat.mod_eq_of_lt (by omega)]
  rw [← BitVec.testBit_toNat, hmask, Nat.testBit_two_pow_sub_one]

theorem bit_maskTop {top : Nat} (htop : top < w) (m : Bitmap w n) {b : Nat}
    (hb : b < (n - 1) * w + top) : (m.maskTop top).bit b = m.bit b := by
  have hsplit : b / w * w + b % w = b := Nat.div_add_mod' b w
  unfold bit maskTop
  by_cases hlast : b / w = n - 1
  · rw [hlast] at hsplit ⊢
    by_cases hn : n - 1 < n
    · rw [word_put_self m hn, BitVec.getLsbD_and, getLsbD_lowMask htop]
      have hlow : b % w < top := by omega
      simp [hlow]
    -- an empty bitmap has no word to mask
    have hput : m.put (n - 1) (m.word (n - 1) &&& (1#w <<< top) - 1#w) = m := by
      have hzero : n = 0 := by omega
      subst hzero
      exact Vector.ext (fun i hi => absurd hi (Nat.not_lt_zero i))
    rw [hput]
  · rw [word_put_ne m (.symm hlast)]

end Bitmap

end Plexus.Lib
