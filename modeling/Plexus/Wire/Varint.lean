/-
# Plexus.Wire.Varint — what the LEB128 counter of `wire/varint.h` guarantees.

The writer's bytes are read back whatever stands before and behind them, and take no more than ten.
Of a foreign byte string only the shape of an accepted counter is known: every byte of it but the
last has the continuation bit, and a last byte that is not the first counts at least `128`-fold.
-/
import Plexus.Wire.DataFrame

namespace Plexus.Wire

open List

/-! ## One round of either loop, in numbers -/

variable (v : UInt64)

theorem toNat_shiftRight_seven : (v >>> 7).toNat = v.toNat / 128 := by
  simp [Nat.shiftRight_eq_div_pow]

theorem toNat_and_low : (v &&& 0x7F).toNat = v.toNat % 128 := by
  rw [UInt64.toNat_and, show (0x7F : UInt64).toNat = 2 ^ 7 - 1 from rfl,
    Nat.and_two_pow_sub_one_eq_mod]

theorem low_byte_eq : (v &&& 0x7F).toUInt8 = UInt8.ofNat (v.toNat % 128) := by
  apply UInt8.toNat_inj.mp
  rw [UInt64.toNat_toUInt8, toNat_and_low, UInt8.toNat_ofNat']

/-- The byte of one round, with the continuation bit and without: what the reader takes from it, and
that it can tell the two apart. -/
theorem read_low_byte :
    (((v &&& 0x7F).toUInt8.toUInt64 &&& 0x7F).toNat = v.toNat % 128 ∧
      (v &&& 0x7F).toUInt8 &&& 0x80 = 0) ∧
    ((((v &&& 0x7F).toUInt8 ||| 0x80).toUInt64 &&& 0x7F).toNat = v.toNat % 128 ∧
      ((v &&& 0x7F).toUInt8 ||| 0x80) &&& 0x80 ≠ 0) := by
  have hlow : ∀ n : Fin 128,
      (((UInt8.ofNat n.val).toUInt64 &&& 0x7F).toNat = n.val ∧ UInt8.ofNat n.val &&& 0x80 = 0) ∧
      (((UInt8.ofNat n.val ||| 0x80).toUInt64 &&& 0x7F).toNat = n.val ∧
        (UInt8.ofNat n.val ||| 0x80) &&& 0x80 ≠ 0) := by
    decide +kernel
  rw [low_byte_eq]
  exact hlow ⟨v.toNat % 128, Nat.mod_lt _ (by decide)⟩

/-- A payload joins the value above the bits that are there already. -/
theorem toNat_or_payload {value payload : UInt64} {i : Nat} (hi : i ≤ 9)
    (hvalue : value.toNat < 2 ^ (7 * i)) (hfit : payload.toNat * 2 ^ (7 * i) < 2 ^ 64) :
    (value ||| payload <<< UInt64.ofNat (7 * i)).toNat =
      value.toNat + payload.toNat * 2 ^ (7 * i) := by
  have hshift : (UInt64.ofNat (7 * i)).toNat % 64 = 7 * i := by
    rw [UInt64.toNat_ofNat']
    omega
  rw [UInt64.toNat_or, UInt64.toNat_shiftLeft, hshift, Nat.shiftLeft_eq, Nat.mod_eq_of_lt hfit,
    Nat.or_comm, mul_comm, ← Nat.two_pow_add_eq_or_of_lt hvalue, add_comm]

/-! ## Round trip -/

theorem writeVarintLoop_succ (fuel : Nat) (v : UInt64) :
    writeVarintLoop (fuel + 1) v =
      if v.toNat / 128 = 0 then [(v &&& 0x7F).toUInt8]
      else ((v &&& 0x7F).toUInt8 ||| 0x80) :: writeVarintLoop fuel (v >>> 7) := by
  have hrest : v >>> 7 = 0 ↔ v.toNat / 128 = 0 := by
    rw [← toNat_shiftRight_seven, ← UInt64.toNat_inj]
    rfl
  simp only [writeVarintLoop, hrest]

/-- From round `i` on, with `value` read so far and `v` still to come. -/
theorem readVarintLoop_write (fuel : Nat) {i : Nat} (hi : i + (fuel + 1) = kMaxVarintBytes)
    {value v : UInt64} (hvalue : value.toNat < 2 ^ (7 * i)) (hfit : v.toNat * 2 ^ (7 * i) < 2 ^ 64)
    (offset : Nat) (rest : Bytes) :
    readVarintLoop (fuel + 1) (writeVarintLoop (fuel + 1) v ++ rest) i value offset =
      some (UInt64.ofNat (value.toNat + v.toNat * 2 ^ (7 * i)),
        offset + (writeVarintLoop (fuel + 1) v).length) := by
  have hsplit := Nat.div_add_mod v.toNat 128
  have hi9 : i ≤ 9 := by
    rw [kMaxVarintBytes] at hi
    omega
  -- the payload of this round fits, and passes the test of the tenth
  have hpayload : ∀ p : UInt64, p.toNat = v.toNat % 128 →
      (value ||| p <<< UInt64.ofNat (7 * i)).toNat = value.toNat + v.toNat % 128 * 2 ^ (7 * i) ∧
        ¬ (i = kMaxVarintBytes - 1 ∧ p > 0x01) := by
    intro p hp
    have hle : v.toNat % 128 * 2 ^ (7 * i) ≤ v.toNat * 2 ^ (7 * i) :=
      Nat.mul_le_mul_right _ (Nat.mod_le _ _)
    refine ⟨by rw [toNat_or_payload hi9 hvalue (by rw [hp]; omega), hp], ?_⟩
    rintro ⟨h9, hbig⟩
    have hbig' : 1 < p.toNat := UInt64.lt_iff_toNat_lt.mp hbig
    rw [h9, kMaxVarintBytes] at hle hfit
    omega
  obtain ⟨⟨hread, hstop⟩, hread', hcont⟩ := read_low_byte v
  rw [writeVarintLoop_succ]
  by_cases hlast : v.toNat / 128 = 0
  · obtain ⟨hor, htenth⟩ := hpayload _ hread
    have hv : v.toNat % 128 = v.toNat := by omega
    rw [if_pos hlast, singleton_append, readVarintLoop]
    simp only [if_neg htenth, hstop, if_true, Option.some.injEq, Prod.mk.injEq, length_singleton,
      and_true]
    apply UInt64.toNat_inj.mp
    rw [hor, hv, UInt64.toNat_ofNat', Nat.mod_eq_of_lt]
    rw [← hv, ← hor]
    exact UInt64.toNat_lt _
  obtain ⟨hor, htenth⟩ := hpayload _ hread'
  rw [if_neg hlast, cons_append, readVarintLoop]
  simp only [if_neg htenth, hcont, if_false]
  have hpow : 2 ^ (7 * (i + 1)) = 2 ^ (7 * i) * 128 := by
    rw [Nat.mul_succ, Nat.pow_add]
  have hrest : v.toNat / 128 * 2 ^ (7 * (i + 1)) + v.toNat % 128 * 2 ^ (7 * i) =
      v.toNat * 2 ^ (7 * i) := by
    rw [hpow]
    calc v.toNat / 128 * (2 ^ (7 * i) * 128) + v.toNat % 128 * 2 ^ (7 * i)
        = (128 * (v.toNat / 128) + v.toNat % 128) * 2 ^ (7 * i) := by ring
      _ = v.toNat * 2 ^ (7 * i) := by rw [hsplit]
  cases fuel with
  | zero =>
    -- on the tenth byte nothing is left
    have h9 : i = 9 := by
      rw [kMaxVarintBytes] at hi
      omega
    rw [h9] at hfit
    omega
  | succ fuel =>
    have hlow : v.toNat % 128 * 2 ^ (7 * i) ≤ 127 * 2 ^ (7 * i) := Nat.mul_le_mul_right _ (by omega)
    rw [readVarintLoop_write fuel (by omega) (by rw [hor]; omega)
      (by rw [toNat_shiftRight_seven]; omega), toNat_shiftRight_seven]
    simp only [Option.some.injEq, Prod.mk.injEq, length_cons]
    constructor
    · congr 1
      omega
    · omega

theorem length_writeVarintLoop_pos (fuel : Nat) (v : UInt64) :
    0 < (writeVarintLoop (fuel + 1) v).length := by
  rw [writeVarintLoop_succ]
  split
  · exact Nat.one_pos
  · exact Nat.succ_pos _

theorem length_writeVarintLoop_le (fuel : Nat) (v : UInt64) :
    (writeVarintLoop fuel v).length ≤ fuel := by
  induction fuel generalizing v with
  | zero => exact le_rfl
  | succ fuel ih =>
    rw [writeVarintLoop_succ]
    split
    · exact Nat.succ_pos _
    · exact Nat.succ_le_succ (ih _)

theorem length_writeVarint_pos : 0 < (writeVarint v).length := length_writeVarintLoop_pos 9 v

theorem length_writeVarint_le : (writeVarint v).length ≤ 10 := length_writeVarintLoop_le 10 v

/-- The `while` of `varint_size`. -/
def varintSizeLoop : Nat → UInt64 → Nat
  | 0, _ => 0
  | fuel + 1, value => if value >>> 7 = 0 then 1 else varintSizeLoop fuel (value >>> 7) + 1

def varintSize (value : UInt64) : Nat := varintSizeLoop kMaxVarintBytes value

theorem varintSize_eq : varintSize v = (writeVarint v).length := by
  have hloop : ∀ (fuel : Nat) (v : UInt64), varintSizeLoop fuel v = (writeVarintLoop fuel v).length := by
    intro fuel
    induction fuel with
    | zero => intro v; rfl
    | succ fuel ih =>
      intro v
      rw [varintSizeLoop, writeVarintLoop]
      split
      · rfl
      · rw [ih, length_cons]
  exact hloop _ v

/-- **What was written is read back**, at its place in any byte string. -/
theorem readVarint_writeVarint (pre rest : Bytes) (v : UInt64) :
    readVarint (pre ++ (writeVarint v ++ rest)) pre.length =
      some (v, pre.length + (writeVarint v).length) := by
  have hbound : ¬ pre.length > (pre ++ (writeVarint v ++ rest)).length := by
    rw [length_append]
    omega
  have hnone : (0 : UInt64).toNat < 2 ^ (7 * 0) := Nat.one_pos
  have hloop := readVarintLoop_write 9 rfl hnone (by simpa using v.toNat_lt) pre.length rest
  rw [readVarint, if_neg hbound, drop_left]
  refine hloop.trans ?_
  simp [writeVarint, kMaxVarintBytes]

/-! ## The shape of an accepted counter -/

theorem readVarintLoop_append (more : Bytes) (fuel : Nat) {data : Bytes} {i offset : Nat}
    {value : UInt64} {out : UInt64 × Nat} (h : readVarintLoop fuel data i value offset = some out) :
    readVarintLoop fuel (data ++ more) i value offset = some out := by
  induction fuel generalizing data i value offset with
  | zero => cases h
  | succ fuel ih =>
    cases data with
    | nil => cases h
    | cons b rest =>
      rw [readVarintLoop] at h
      rw [cons_append, readVarintLoop]
      split
      · rename_i htenth
        rw [if_pos htenth] at h
        cases h
      rename_i htenth
      rw [if_neg htenth] at h
      split
      · rename_i hlast
        rw [if_pos hlast] at h
        exact h
      · rename_i hlast
        rw [if_neg hlast] at h
        exact ih h

theorem readVarint_append {data : Bytes} {start : Nat} {out : UInt64 × Nat} (more : Bytes)
    (h : readVarint data start = some out) : readVarint (data ++ more) start = some out := by
  rw [readVarint] at h ⊢
  split at h
  · cases h
  · rename_i hstart
    rw [if_neg (by rw [length_append]; omega), drop_append_of_le_length (not_lt.mp hstart)]
    exact readVarintLoop_append more _ h

/-- The payload of the last byte is part of the value. -/
theorem le_toNat_or_payload (value : UInt64) {b : UInt8} {i : Nat} (hi : i ≤ 9)
    (htenth : ¬ (i = kMaxVarintBytes - 1 ∧ b.toUInt64 &&& 0x7F > 0x01)) :
    b.toNat % 128 * 2 ^ (7 * i) ≤ (value ||| (b.toUInt64 &&& 0x7F) <<< UInt64.ofNat (7 * i)).toNat := by
  have hpayload : (b.toUInt64 &&& 0x7F).toNat = b.toNat % 128 := by
    rw [toNat_and_low, UInt8.toNat_toUInt64]
  have hshift : (UInt64.ofNat (7 * i)).toNat % 64 = 7 * i := by
    rw [UInt64.toNat_ofNat']
    omega
  have hfit : b.toNat % 128 * 2 ^ (7 * i) < 2 ^ 64 := by
    rcases lt_or_ge i 9 with h8 | h9
    · calc b.toNat % 128 * 2 ^ (7 * i) ≤ 127 * 2 ^ (7 * 8) :=
            Nat.mul_le_mul (by omega) (Nat.pow_le_pow_right (by decide) (by omega))
        _ < 2 ^ 64 := by decide
    obtain rfl : i = 9 := by omega
    have hsmall : ¬ (b.toUInt64 &&& 0x7F > 0x01) := fun h => htenth ⟨rfl, h⟩
    have hle : (b.toUInt64 &&& 0x7F).toNat ≤ 1 := by
      rw [gt_iff_lt, UInt64.lt_iff_toNat_lt, not_lt] at hsmall
      exact hsmall
    omega
  rw [UInt64.toNat_or, UInt64.toNat_shiftLeft, hshift, Nat.shiftLeft_eq, hpayload,
    Nat.mod_eq_of_lt hfit]
  exact Nat.right_le_or

theorem readVarintLoop_shape (fuel : Nat) {data : Bytes} {i offset stop : Nat}
    (hi : i + fuel ≤ kMaxVarintBytes) {value v : UInt64}
    (h : readVarintLoop fuel data i value offset = some (v, stop)) :
    ∃ n last, stop = offset + n + 1 ∧ n < fuel ∧ data[n]? = some last ∧
      (∀ k b, k < n → data[k]? = some b → b &&& 0x80 ≠ 0) ∧
      last.toNat % 128 * 2 ^ (7 * (i + n)) ≤ v.toNat := by
  induction fuel generalizing data i offset value with
  | zero => cases h
  | succ fuel ih =>
    cases data with
    | nil => cases h
    | cons byte rest =>
      rw [readVarintLoop] at h
      split at h
      · cases h
      rename_i htenth
      split at h
      · -- the last byte
        cases h
        rw [kMaxVarintBytes] at hi
        exact ⟨0, byte, rfl, Nat.succ_pos _, rfl, fun k b hk => absurd hk (Nat.not_lt_zero k),
          le_toNat_or_payload value (by omega) htenth⟩
      rename_i hcont
      obtain ⟨n, last, hstop, hn, hlast, hmore, hle⟩ := ih (by omega) h
      refine ⟨n + 1, last, by omega, by omega, hlast, fun k b hk hb => ?_, ?_⟩
      · cases k with
        | zero =>
          cases hb
          exact hcont
        | succ k => exact hmore k b (by omega) hb
      · rw [show i + (n + 1) = i + 1 + n by omega]
        exact hle

/-- A counter takes from one to ten bytes; all but the last have the continuation bit, and a last
byte behind others stands for at least `128` times its payload. -/
theorem readVarint_shape {data : Bytes} {start stop : Nat} {v : UInt64}
    (h : readVarint data start = some (v, stop)) :
    start < stop ∧ stop ≤ data.length ∧
      (∀ k b, start ≤ k → k + 1 < stop → data[k]? = some b → b &&& 0x80 ≠ 0) ∧
      ∀ last, data[stop - 1]? = some last → start + 1 < stop → last.toNat % 128 * 128 ≤ v.toNat := by
  rw [readVarint] at h
  split at h
  · cases h
  obtain ⟨n, last, rfl, -, hlast, hmore, hle⟩ := readVarintLoop_shape _ (le_of_eq (zero_add _)) h
  rw [List.getElem?_drop] at hlast
  have hin := (List.getElem?_eq_some_iff.mp hlast).1
  refine ⟨by omega, by omega, fun k b hk hk' hb => ?_, fun last' hlast' hlong => ?_⟩
  · apply hmore (k - start) b (by omega)
    rw [List.getElem?_drop, Nat.add_sub_cancel' hk]
    exact hb
  rw [show start + n + 1 - 1 = start + n by omega, hlast] at hlast'
  cases hlast'
  refine le_trans (Nat.mul_le_mul_left _ ?_) hle
  calc 128 = 2 ^ (7 * 1) := rfl
    _ ≤ 2 ^ (7 * (0 + n)) := Nat.pow_le_pow_right (by decide) (by omega)

/-- Seven bits to a byte. -/
theorem readVarintLoop_lt (fuel : Nat) {data : Bytes} {i offset stop : Nat} {value v : UInt64}
    (hvalue : value.toNat < 2 ^ (7 * i))
    (h : readVarintLoop fuel data i value offset = some (v, stop)) :
    offset ≤ stop ∧ v.toNat < 2 ^ (7 * (i + (stop - offset))) := by
  induction fuel generalizing data i offset value with
  | zero => cases h
  | succ fuel ih =>
    cases data with
    | nil => cases h
    | cons byte rest =>
      have hnext : (value ||| (byte.toUInt64 &&& 0x7F) <<< UInt64.ofNat (7 * i)).toNat <
          2 ^ (7 * (i + 1)) := by
        rw [UInt64.toNat_or]
        apply Nat.or_lt_two_pow
        · exact lt_of_lt_of_le hvalue (Nat.pow_le_pow_right (by decide) (by omega))
        rw [UInt64.toNat_shiftLeft, Nat.shiftLeft_eq, toNat_and_low]
        calc byte.toUInt64.toNat % 128 * 2 ^ ((UInt64.ofNat (7 * i)).toNat % 64) % 2 ^ 64
          _ ≤ byte.toUInt64.toNat % 128 * 2 ^ ((UInt64.ofNat (7 * i)).toNat % 64) := Nat.mod_le _ _
          _ ≤ byte.toUInt64.toNat % 128 * 2 ^ (7 * i) :=
            Nat.mul_le_mul_left _ (Nat.pow_le_pow_right (by decide)
              (le_trans (Nat.mod_le _ _) (by rw [UInt64.toNat_ofNat']; exact Nat.mod_le _ _)))
          _ < 2 ^ 7 * 2 ^ (7 * i) :=
            Nat.mul_lt_mul_of_pos_right (Nat.mod_lt _ (by decide)) (Nat.two_pow_pos _)
          _ = 2 ^ (7 * (i + 1)) := by rw [← Nat.pow_add, Nat.mul_add, Nat.add_comm]
      rw [readVarintLoop] at h
      split at h
      · cases h
      split at h
      · cases h
        exact ⟨by omega, by rw [show offset + 1 - offset = 1 by omega]; exact hnext⟩
      · obtain ⟨hle, hlt⟩ := ih hnext h
        refine ⟨by omega, ?_⟩
        rwa [show i + 1 + (stop - (offset + 1)) = i + (stop - offset) by omega] at hlt

theorem readVarint_lt {data : Bytes} {start stop : Nat} {v : UInt64}
    (h : readVarint data start = some (v, stop)) : v.toNat < 2 ^ (7 * (stop - start)) := by
  rw [readVarint] at h
  split at h
  · cases h
  · have hlt := (readVarintLoop_lt _ Nat.one_pos h).2
    rwa [zero_add] at hlt

end Plexus.Wire
