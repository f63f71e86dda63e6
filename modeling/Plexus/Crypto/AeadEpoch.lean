/-
# Plexus.Crypto.AeadEpoch — the cipher's interface, the key chain and the nonce
(`crypto/aead_cipher.h`, `crypto/key_schedule.h`, `crypto/aead_epoch.h`).

Cipher and key derivation are library code outside this repository: the fields of `Aead`, over any
type of keys, with what their headers document as named hypotheses. `keyAt` is the chain both ends
walk, `makeNonce` the counter nonce; only the low byte of an epoch rides the wire.
-/
import Plexus.Wire.Frame

namespace Plexus.Crypto

open Lib Wire List

def kAeadNonceLen : Nat := 12
def kAeadTagLen : Nat := 16
def kRekeyMessageThreshold : UInt64 := (1 : UInt64) <<< 20

/-- `seal`, `open` and `derive_forward`. A seal can also fail for want of resources, independently
of its arguments; whether it does is an input of the step that calls it. -/
structure Aead (κ : Type) where
  /-- ciphertext and tag, from key, nonce, associated data and plaintext -/
  sealBytes : κ → Bytes → Bytes → Bytes → Bytes
  /-- the plaintext, when the tag verifies -/
  openBytes : κ → Bytes → Bytes → Bytes → Option Bytes
  deriveForward : κ → Option κ

variable {κ : Type}

/-- What `aead_cipher.h` documents: the tag's length, and that opening undoes sealing. -/
structure Aead.Sound (A : Aead κ) : Prop where
  length_sealBytes : ∀ key nonce aad plain,
    (A.sealBytes key nonce aad plain).length = plain.length + kAeadTagLen
  open_sealBytes : ∀ key nonce aad plain,
    A.openBytes key nonce aad (A.sealBytes key nonce aad plain) = some plain

/-- The keys of one session, as one of its ends holds them. -/
structure DerivedKeys (κ : Type) where
  kSend : κ
  kRecv : κ

/-- The same session's keys at the other end. -/
def DerivedKeys.flip (keys : DerivedKeys κ) : DerivedKeys κ := ⟨keys.kRecv, keys.kSend⟩

/-- One successful `seal` call, as it was made. -/
structure SealRecord (κ : Type) where
  key : κ
  nonce : Bytes
  header : Bytes
  payload : Bytes
  deriving DecidableEq

/-- The record's ciphertext and tag. -/
def SealRecord.sealed (A : Aead κ) (r : SealRecord κ) : Bytes :=
  A.sealBytes r.key r.nonce r.header r.payload

/-- Under its own header, a sealed text opens with no key and no nonce but those it was sealed
with: `open` "returns false on any verification failure". -/
def Aead.Unforged (A : Aead κ) (r : SealRecord κ) : Prop :=
  ∀ key nonce plain, A.openBytes key nonce r.header (r.sealed A) = some plain →
    key = r.key ∧ nonce = r.nonce

/-- A send as the channel sees it: the frame, and whether its `seal` call succeeds. -/
structure SendCall where
  frame : Bytes
  sealOk : Bool
  deriving DecidableEq

/-! ## The key chain -/

/-- The key `n` forward derivations after `key`. -/
def Aead.keyAt (A : Aead κ) (key : κ) : Nat → Option κ
  | 0 => some key
  | n + 1 => (A.keyAt key n).bind A.deriveForward

/-- No key comes up twice along the chain. -/
def Aead.CollisionFree (A : Aead κ) (key : κ) : Prop :=
  ∀ i j k, A.keyAt key i = some k → A.keyAt key j = some k → i = j

/-- Every derivation along the chain succeeds. -/
def Aead.Derives (A : Aead κ) (key : κ) : Prop := ∀ n, (A.keyAt key n).isSome

variable {A : Aead κ} {key : κ}

theorem Aead.keyAt_succ {k : κ} {n : Nat} (h : A.keyAt key n = some k) :
    A.keyAt key (n + 1) = A.deriveForward k := by
  rw [keyAt, h, Option.bind_some]

/-- The key at chain position `n`, when every derivation succeeds. -/
def Aead.Derives.keyOf {A : Aead κ} {key : κ} (hd : A.Derives key) (n : Nat) : κ :=
  (A.keyAt key n).get (hd n)

section

variable (hd : A.Derives key)
include hd

theorem Aead.Derives.keyAt_eq (n : Nat) : A.keyAt key n = some (hd.keyOf n) := (Option.some_get (hd n)).symm

theorem Aead.Derives.keyOf_zero : hd.keyOf 0 = key := rfl

theorem Aead.Derives.deriveForward_keyOf (n : Nat) :
    A.deriveForward (hd.keyOf n) = some (hd.keyOf (n + 1)) :=
  (Aead.keyAt_succ (hd.keyAt_eq n)).symm.trans (hd.keyAt_eq (n + 1))

theorem Aead.Derives.keyOf_inj (hfree : A.CollisionFree key) {i j : Nat}
    (h : hd.keyOf i = hd.keyOf j) : i = j :=
  hfree i j _ (hd.keyAt_eq i) (h ▸ hd.keyAt_eq j)

end

/-! ## Epochs -/

variable (epoch : UInt32)

/-- The epoch counter at chain position `n`: it starts anywhere and wraps at its width. -/
def epochAt (n : Nat) : UInt32 := epoch + UInt32.ofNat n

@[simp] theorem epochAt_zero : epochAt epoch 0 = epoch := by
  simp [epochAt]

theorem epochAt_succ (n : Nat) : epochAt epoch (n + 1) = epochAt epoch n + 1 := by
  rw [epochAt, UInt32.ofNat_add, ← UInt32.add_assoc]
  rfl

/-- The byte of the epoch that rides the wire. -/
def epochByte : UInt8 := (epoch &&& 0xff).toUInt8

theorem toNat_epochByte : (epochByte epoch).toNat = epoch.toNat % 256 := by
  have hmask : (epoch &&& 0xff).toNat = epoch.toNat % 2 ^ 8 := by
    exact Nat.and_two_pow_sub_one_eq_mod _ 8
  rw [epochByte, UInt32.toNat_toUInt8, hmask, Nat.mod_mod]
  rfl

/-- The receiver rebuilds the masked epoch from the byte alone. -/
theorem epochByte_toUInt32 : (epochByte epoch).toUInt32 = epoch &&& 0xff := by
  apply UInt32.toNat_inj.mp
  rw [UInt8.toNat_toUInt32, toNat_epochByte]
  exact (Nat.and_two_pow_sub_one_eq_mod _ 8).symm

/-- Neighbouring epochs differ on the wire, also where the counter wraps. -/
theorem epochByte_add_one_ne : epochByte (epoch + 1) ≠ epochByte epoch := by
  intro h
  have hnat := congrArg UInt8.toNat h
  rw [toNat_epochByte, toNat_epochByte, UInt32.toNat_add] at hnat
  have hone : (1 : UInt32).toNat = 1 := rfl
  omega

/-! ## The nonce -/

/-- `epoch (4 BE) ‖ sequence (8 BE)`. -/
def makeNonce (seq : UInt64) : Bytes := writeU32 epoch ++ writeU64 seq

theorem length_makeNonce (seq : UInt64) : (makeNonce epoch seq).length = kAeadNonceLen := by
  simp [makeNonce, kAeadNonceLen]

theorem makeNonce_inj {epoch epoch' : UInt32} {seq seq' : UInt64} :
    makeNonce epoch seq = makeNonce epoch' seq' ↔ epoch = epoch' ∧ seq = seq' := by
  constructor
  · intro h
    obtain ⟨hepoch, hseq⟩ := append_inj h (by simp)
    constructor
    · have hread := congrArg (fun bytes => readU32 (bytes ++ [])) hepoch
      simpa only [readU32_writeU32] using hread
    · have hread := congrArg (fun bytes => readU64 (bytes ++ [])) hseq
      simpa only [readU64_writeU64] using hread
  · rintro ⟨rfl, rfl⟩
    rfl

/-! ## A cipher that meets the hypotheses

It hides nothing, numbers its keys and stamps every text with the key and the nonce. A tag is
sixteen bytes, so the stamp of a key is capped; texts sealed below the cap are unforged. -/

def stamp (key : Nat) (nonce : Bytes) : Bytes :=
  if nonce.length = kAeadNonceLen then toBE 4 (min key (2 ^ 32 - 2)) ++ nonce
  else replicate kAeadTagLen 0xff

def stampCipher : Aead Nat where
  sealBytes key nonce _ plain := plain ++ stamp key nonce
  openBytes key nonce _ sealed :=
    if sealed.drop (sealed.length - kAeadTagLen) = stamp key nonce then
      some (sealed.take (sealed.length - kAeadTagLen))
    else none
  deriveForward key := some (key + 1)

theorem length_stamp (key : Nat) (nonce : Bytes) : (stamp key nonce).length = kAeadTagLen := by
  unfold stamp
  split
  · rename_i h
    rw [length_append, h]
    rfl
  · rw [length_replicate]

theorem stampCipher_open (key key' : Nat) (nonce nonce' aad aad' plain : Bytes) :
    stampCipher.openBytes key' nonce' aad' (stampCipher.sealBytes key nonce aad plain) =
      if stamp key nonce = stamp key' nonce' then some plain else none := by
  have hlen : (plain ++ stamp key nonce).length - kAeadTagLen = plain.length := by
    rw [length_append, length_stamp, Nat.add_sub_cancel]
  simp only [stampCipher]
  rw [hlen, drop_left, take_left]

theorem stampCipher_sound : stampCipher.Sound where
  length_sealBytes key nonce aad plain := by
    show (plain ++ stamp key nonce).length = _
    rw [length_append, length_stamp]
  open_sealBytes key nonce aad plain := by
    rw [stampCipher_open, if_pos rfl]

theorem stampCipher_keyAt (key n : Nat) : stampCipher.keyAt key n = some (key + n) := by
  induction n with
  | zero => rfl
  | succ n ih => exact Aead.keyAt_succ ih

theorem stampCipher_derives (key : Nat) : stampCipher.Derives key := by
  intro n
  rw [stampCipher_keyAt]
  rfl

theorem stampCipher_collisionFree (key : Nat) : stampCipher.CollisionFree key := by
  intro i j k hi hj
  rw [stampCipher_keyAt] at hi hj
  have := (Option.some.inj hi).trans (Option.some.inj hj).symm
  omega

theorem stamp_inj {key key' : Nat} {nonce nonce' : Bytes} (hkey : key < 2 ^ 32 - 2)
    (hnonce : nonce.length = kAeadNonceLen) (h : stamp key nonce = stamp key' nonce') :
    key' = key ∧ nonce' = nonce := by
  unfold stamp at h
  rw [if_pos hnonce] at h
  split at h
  · obtain ⟨hhead, htail⟩ := append_inj h (by simp)
    have hnum := congrArg ofBE hhead
    rw [ofBE_toBE, ofBE_toBE] at hnum
    exact ⟨by omega, htail.symm⟩
  -- a nonce of another length has a stamp that no key below the cap has
  have hhead := congrArg (take 4) h
  rw [take_left' (length_toBE 4 _)] at hhead
  have hnum := congrArg ofBE hhead
  rw [ofBE_toBE] at hnum
  have hff : ofBE ((replicate kAeadTagLen 0xff).take 4) = 2 ^ 32 - 1 := by decide
  omega

theorem stampCipher_unforged {r : SealRecord Nat} (hkey : r.key < 2 ^ 32 - 2)
    (hnonce : r.nonce.length = kAeadNonceLen) : stampCipher.Unforged r := by
  intro key nonce plain hopen
  rw [SealRecord.sealed, stampCipher_open] at hopen
  split at hopen
  · rename_i hstamp
    exact stamp_inj hkey hnonce hstamp
  · exact nomatch hopen

end Plexus.Crypto
