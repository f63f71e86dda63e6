/-
# Plexus.Crypto.DatagramAead — the datagram AEAD decorator
(`crypto/datagram_authenticated_channel.h`, `crypto/detail/datagram_aead_path.h`).

Wire shape: `sequence (8) ‖ epoch byte ‖ header (28) ‖ ciphertext ‖ tag (16)`. The receiver resolves
the key, probes the window and opens before it commits anything (`receive_sound`): datagrams that do
not open leave no trace but the drop counters, no sequence of an epoch is delivered twice, and
nothing that is new and within the window's reach is lost.
-/
import Mathlib.Data.List.Pairwise
import Plexus.Crypto.AeadEpoch
import Plexus.Crypto.AntiReplayWindow

namespace Plexus.Crypto

open Wire List

variable {κ : Type}

/-- The causes this decorator reports. -/
inductive DatagramDrop where
  | replay
  | tooOld
  | tamper
  /-- the send side's, reported with local origin -/
  | malformed
  deriving DecidableEq

/-- One end of a datagram link, with its window against replays. -/
structure DatagramAuthenticatedChannel (κ : Type) where
  sendKey : κ
  recvKey : κ
  sendEpoch : UInt32
  recvEpoch : UInt32
  sendSeq : UInt64 := 0
  window : AntiReplayWindow kAntiReplayWindowBits := {}
  replayDropped : Nat := 0
  tamperDropped : Nat := 0
  /-- the reported drops -/
  drops : List DatagramDrop := []
  /-- what was handed to the lower channel -/
  wire : List Bytes := []
  /-- what was handed up -/
  delivered : List Bytes := []
  /-- the successful `seal` calls, oldest first -/
  sealed : List (SealRecord κ) := []
  /-- the datagrams that were delivered, each with the key that opened it -/
  opened : List (κ × Bytes) := []
  deriving DecidableEq

def kSeqLen : Nat := 8
def kFrameOverhead : Nat := kSeqLen + 1 + headerSize + kAeadTagLen

/-! ## The parts of a datagram -/

variable (bytes : Bytes)

def seqOf : UInt64 := readU64 bytes
def epochByteOf : UInt8 := (bytes.drop kSeqLen).headD 0
def headerOf : Bytes := (bytes.drop (kSeqLen + 1)).take headerSize
def sealedOf : Bytes := bytes.drop (kSeqLen + 1 + headerSize)

/-- The nonce the receiver rebuilds. -/
def nonceOf : Bytes :=
  makeNonce (epochByteOf bytes).toUInt32 (seqOf bytes)

def encodeDatagram (seq : UInt64) (byte : UInt8) (header sealed : Bytes) : Bytes :=
  writeU64 seq ++ (byte :: (header ++ sealed))

namespace DatagramAuthenticatedChannel

/-- The constructor. -/
def new (keys : DerivedKeys κ) (initialEpoch : UInt32 := 0) : DatagramAuthenticatedChannel κ :=
  { sendKey := keys.kSend, recvKey := keys.kRecv, sendEpoch := initialEpoch,
    recvEpoch := initialEpoch }

/-! ## Sending -/

variable (c : DatagramAuthenticatedChannel κ)

/-- The `seal` call for `frame`: always the channel's first key. -/
def sealCall (frame : Bytes) : SealRecord κ :=
  { key := c.sendKey
    nonce := makeNonce (c.sendEpoch &&& 0xff) c.sendSeq
    header := frame.take headerSize
    payload := frame.drop headerSize }

variable (A : Aead κ)

def datagramSend (c : DatagramAuthenticatedChannel κ) (call : SendCall) :
    DatagramAuthenticatedChannel κ :=
  if call.frame.length < headerSize then { c with drops := c.drops ++ [.malformed] }
  else if !call.sealOk then { c with sendSeq := c.sendSeq + 1 }
  else
    { c with
      sendSeq := c.sendSeq + 1
      wire := c.wire ++ [encodeDatagram c.sendSeq (epochByte c.sendEpoch)
        (c.sealCall call.frame).header ((c.sealCall call.frame).sealed A)]
      sealed := c.sealed ++ [c.sealCall call.frame] }

def sendAll (c : DatagramAuthenticatedChannel κ) (calls : List SendCall) :
    DatagramAuthenticatedChannel κ :=
  calls.foldl (datagramSend A) c

/-! ## Receiving -/

def dropTampered : DatagramAuthenticatedChannel κ :=
  { c with tamperDropped := c.tamperDropped + 1, drops := c.drops ++ [.tamper] }

def dropReplayed (verdict : ReplayVerdict) : DatagramAuthenticatedChannel κ :=
  { c with
    replayDropped := c.replayDropped + 1
    drops := c.drops ++ [if verdict = .rejectOld then .tooOld else .replay] }

/-- The key `byte` names, and whether using it would advance the epoch. Nothing is committed. -/
def candidateKeyFor (c : DatagramAuthenticatedChannel κ) (byte : UInt8) : Option (κ × Bool) :=
  if byte = epochByte c.recvEpoch then some (c.recvKey, false)
  else if byte = epochByte (c.recvEpoch + 1) then
    (A.deriveForward c.recvKey).map fun next => (next, true)
  else none

/-- The probe; a next-epoch datagram is for a window that the advance resets. -/
def probe (advances : Bool) (seq : UInt64) : ReplayVerdict :=
  if advances then .accept else c.window.wouldAccept seq

/-- The epoch advance, made only once the tag has verified. -/
def advance (candidate : κ) (advances : Bool) : DatagramAuthenticatedChannel κ :=
  if advances then
    { c with recvKey := candidate, recvEpoch := c.recvEpoch + 1, window := c.window.reset }
  else c

/-- Mark the sequence seen and hand the frame up. -/
def deliver (bytes plain : Bytes) : DatagramAuthenticatedChannel κ :=
  { c with
    window := (c.window.checkAndSet (seqOf bytes)).1
    delivered := c.delivered ++ [headerOf bytes ++ plain]
    opened := c.opened ++ [(c.recvKey, bytes)] }

def datagramOnLowerData (c : DatagramAuthenticatedChannel κ) (bytes : Bytes) :
    DatagramAuthenticatedChannel κ :=
  if bytes.length < kFrameOverhead then c.dropTampered
  else
    match c.candidateKeyFor A (epochByteOf bytes) with
    | none => c.dropTampered
    | some (candidate, advances) =>
      if c.probe advances (seqOf bytes) ≠ .accept then
        c.dropReplayed (c.probe advances (seqOf bytes))
      else
        match A.openBytes candidate (nonceOf bytes) (headerOf bytes) (sealedOf bytes) with
        | none => c.dropTampered
        | some plain => (c.advance candidate advances).deliver bytes plain

def receiveAll (c : DatagramAuthenticatedChannel κ) (datagrams : List Bytes) :
    DatagramAuthenticatedChannel κ :=
  datagrams.foldl (datagramOnLowerData A) c

/-- Everything but what counts and reports drops. -/
def withoutCounters : DatagramAuthenticatedChannel κ :=
  { c with replayDropped := 0, tamperDropped := 0, drops := [] }

/-! ## What one datagram can do -/

variable {A : Aead κ} {c : DatagramAuthenticatedChannel κ} {bytes : Bytes}

section

variable (A : Aead κ) (c : DatagramAuthenticatedChannel κ) (bytes : Bytes)

/-- A datagram is dropped without a trace but the counters, or it is opened with a candidate key
whose probe accepts it, and delivered. -/
theorem datagramOnLowerData_cases :
    (c.datagramOnLowerData A bytes).withoutCounters = c.withoutCounters ∨
    ∃ candidate advances plain,
      kFrameOverhead ≤ bytes.length ∧
      c.candidateKeyFor A (epochByteOf bytes) = some (candidate, advances) ∧
      c.probe advances (seqOf bytes) = .accept ∧
      A.openBytes candidate (nonceOf bytes) (headerOf bytes) (sealedOf bytes) = some plain ∧
      c.datagramOnLowerData A bytes = (c.advance candidate advances).deliver bytes plain := by
  unfold datagramOnLowerData
  by_cases hlen : bytes.length < kFrameOverhead
  · rw [if_pos hlen]
    exact .inl rfl
  rw [if_neg hlen]
  cases hcand : c.candidateKeyFor A (epochByteOf bytes) with
  | none => exact .inl rfl
  | some found =>
    obtain ⟨candidate, advances⟩ := found
    dsimp only
    by_cases hprobe : c.probe advances (seqOf bytes) = .accept
    · rw [if_neg (not_not.mpr hprobe)]
      cases hopen : A.openBytes candidate (nonceOf bytes) (headerOf bytes) (sealedOf bytes) with
      | none => exact .inl rfl
      | some plain =>
        exact .inr ⟨candidate, advances, plain, Nat.le_of_not_lt hlen, rfl, hprobe, hopen, rfl⟩
    · rw [if_pos hprobe]
      exact .inl rfl

theorem withoutCounters_step :
    (c.datagramOnLowerData A bytes).withoutCounters =
      (c.withoutCounters.datagramOnLowerData A bytes).withoutCounters := by
  unfold datagramOnLowerData
  by_cases hlen : bytes.length < kFrameOverhead
  · rw [if_pos hlen, if_pos hlen]
    rfl
  have hsame : c.withoutCounters.candidateKeyFor A (epochByteOf bytes) =
      c.candidateKeyFor A (epochByteOf bytes) := rfl
  rw [if_neg hlen, if_neg hlen, hsame]
  cases c.candidateKeyFor A (epochByteOf bytes) with
  | none => rfl
  | some found =>
    obtain ⟨candidate, advances⟩ := found
    have hprobe : c.withoutCounters.probe advances (seqOf bytes) =
        c.probe advances (seqOf bytes) := rfl
    dsimp only
    rw [hprobe]
    split
    · rfl
    · cases A.openBytes candidate (nonceOf bytes) (headerOf bytes) (sealedOf bytes) with
      | none => rfl
      | some plain => cases advances <;> rfl

end

theorem withoutCounters_receiveAll (A : Aead κ) {c c' : DatagramAuthenticatedChannel κ}
    (h : c.withoutCounters = c'.withoutCounters) (datagrams : List Bytes) :
    (c.receiveAll A datagrams).withoutCounters = (c'.receiveAll A datagrams).withoutCounters := by
  induction datagrams generalizing c c' with
  | nil => exact h
  | cons bytes datagrams ih =>
    apply ih
    rw [withoutCounters_step, h, ← withoutCounters_step]

theorem withoutCounters_of_delivered_eq
    (h : (c.datagramOnLowerData A bytes).delivered = c.delivered) :
    (c.datagramOnLowerData A bytes).withoutCounters = c.withoutCounters := by
  rcases datagramOnLowerData_cases A c bytes with hdrop | ⟨candidate, advances, plain, -, -, -, -, heq⟩
  · exact hdrop
  have hkeep : (c.advance candidate advances).delivered = c.delivered := by
    unfold advance
    split <;> rfl
  rw [heq] at h
  have hgrow : (c.advance candidate advances).delivered ++ [headerOf bytes ++ plain] =
      c.delivered := h
  rw [hkeep] at hgrow
  have hlen := congrArg length hgrow
  rw [length_append, length_singleton] at hlen
  omega

end DatagramAuthenticatedChannel

/-! ## Authentic datagrams -/

/-- `bytes` is what the peer sends when it makes the call `record` at chain position `n` under
`seq`. -/
structure AuthenticAs (A : Aead κ) (key : κ) (epoch : UInt32) (n : Nat) (seq : UInt64)
    (record : SealRecord κ) (bytes : Bytes) : Prop where
  key_eq : A.keyAt key n = some record.key
  nonce_eq : record.nonce = makeNonce (epochAt epoch n &&& 0xff) seq
  header_len : record.header.length = headerSize
  bytes_eq : bytes =
    encodeDatagram seq (epochByte (epochAt epoch n)) record.header (record.sealed A)

/-- `bytes` opens under some key of the chain. -/
def Opens (A : Aead κ) (key : κ) (bytes : Bytes) : Prop :=
  kFrameOverhead ≤ bytes.length ∧ ∃ n k plain, A.keyAt key n = some k ∧
    A.openBytes k (nonceOf bytes) (headerOf bytes) (sealedOf bytes) = some plain

section Parts

variable (seq : UInt64) (byte : UInt8) (header sealed : Bytes)

@[simp] theorem seqOf_encodeDatagram : seqOf (encodeDatagram seq byte header sealed) = seq :=
  readU64_writeU64 seq _

theorem drop_encodeDatagram :
    (encodeDatagram seq byte header sealed).drop kSeqLen = byte :: (header ++ sealed) :=
  drop_left' (length_writeU64 seq)

@[simp] theorem epochByteOf_encodeDatagram :
    epochByteOf (encodeDatagram seq byte header sealed) = byte := by
  rw [epochByteOf, drop_encodeDatagram]
  rfl

variable {header}

theorem headerOf_encodeDatagram (hheader : header.length = headerSize) :
    headerOf (encodeDatagram seq byte header sealed) = header := by
  rw [headerOf, ← drop_drop, drop_encodeDatagram]
  exact take_left' hheader

theorem sealedOf_encodeDatagram (hheader : header.length = headerSize) :
    sealedOf (encodeDatagram seq byte header sealed) = sealed := by
  rw [sealedOf, ← drop_drop, ← drop_drop, drop_encodeDatagram]
  exact drop_left' hheader

end Parts

namespace AuthenticAs

variable {A : Aead κ} {key : κ} {epoch : UInt32} {n : Nat} {seq : UInt64} {record : SealRecord κ}
  {bytes : Bytes}

section

variable (h : AuthenticAs A key epoch n seq record bytes)
include h

theorem seq_eq : seqOf bytes = seq := by
  rw [h.bytes_eq, seqOf_encodeDatagram]

theorem epochByte_eq : epochByteOf bytes = epochByte (epochAt epoch n) := by
  rw [h.bytes_eq, epochByteOf_encodeDatagram]

theorem header_eq : headerOf bytes = record.header := by
  rw [h.bytes_eq, headerOf_encodeDatagram _ _ _ h.header_len]

theorem sealed_eq : sealedOf bytes = record.sealed A := by
  rw [h.bytes_eq, sealedOf_encodeDatagram _ _ _ h.header_len]

/-- The receiver rebuilds the nonce the peer used from the byte and the sequence. -/
theorem nonceOf_eq : nonceOf bytes = record.nonce := by
  rw [nonceOf, h.epochByte_eq, h.seq_eq, epochByte_toUInt32, h.nonce_eq]

theorem overhead_le (hA : A.Sound) : kFrameOverhead ≤ bytes.length := by
  have hsealed : (record.sealed A).length = record.payload.length + kAeadTagLen :=
    hA.length_sealBytes _ _ _ _
  rw [h.bytes_eq, encodeDatagram, length_append, length_cons, length_append,
    length_writeU64, h.header_len]
  unfold kFrameOverhead kSeqLen
  omega

theorem key_eq_of_open (hunforged : A.Unforged record) {k : κ} {plain : Bytes}
    (hopen : A.openBytes k (nonceOf bytes) (headerOf bytes) (sealedOf bytes) = some plain) :
    A.keyAt key n = some k := by
  rw [h.header_eq, h.sealed_eq] at hopen
  rw [(hunforged _ _ _ hopen).1]
  exact h.key_eq

end

end AuthenticAs

/-! ## The invariant of the receiving side -/

namespace DatagramAuthenticatedChannel

/-- What holds of the receiving side at chain position `n`. -/
structure RecvInv (A : Aead κ) (key : κ) (epoch : UInt32) (n : Nat)
    (c : DatagramAuthenticatedChannel κ) : Prop where
  key_eq : A.keyAt key n = some c.recvKey
  epoch_eq : c.recvEpoch = epochAt epoch n
  /-- the window is the set of sequences delivered under the current key -/
  tracks : c.window.Tracks {s | ∃ bytes, (c.recvKey, bytes) ∈ c.opened ∧ (seqOf bytes).toNat = s}
  /-- what was opened was opened under a key of the chain, this one or an earlier one -/
  past : ∀ x ∈ c.opened, ∃ i ≤ n, A.keyAt key i = some x.1
  verified : ∀ x ∈ c.opened, kFrameOverhead ≤ x.2.length ∧
    ∃ plain, A.openBytes x.1 (nonceOf x.2) (headerOf x.2) (sealedOf x.2) = some plain
  distinct : c.opened.Pairwise fun x y => x.1 = y.1 → seqOf x.2 ≠ seqOf y.2

variable {A : Aead κ} {key : κ} {epoch : UInt32} {n : Nat} {c : DatagramAuthenticatedChannel κ}
  {bytes plain : Bytes}

theorem recvInv_new (A : Aead κ) (keys : DerivedKeys κ) (epoch : UInt32) :
    RecvInv A keys.kRecv epoch 0 (new keys epoch) where
  key_eq := rfl
  epoch_eq := (epochAt_zero epoch).symm
  tracks := by
    have hempty : {s | ∃ bytes, ((new keys epoch).recvKey, bytes) ∈ (new keys epoch).opened ∧
        (seqOf bytes).toNat = s} = ∅ :=
      Set.eq_empty_of_forall_notMem (fun _ ⟨_, hmem, _⟩ => absurd hmem not_mem_nil)
    rw [hempty]
    exact AntiReplayWindow.tracks_empty
  past x hx := absurd hx not_mem_nil
  verified x hx := absurd hx not_mem_nil
  distinct := .nil

theorem RecvInv.of_withoutCounters {c' : DatagramAuthenticatedChannel κ}
    (h : RecvInv A key epoch n c) (heq : c'.withoutCounters = c.withoutCounters) :
    RecvInv A key epoch n c' := by
  have hcore : RecvInv A key epoch n c.withoutCounters := { h with }
  rw [← heq] at hcore
  exact { hcore with }

/-- Committing an advance: the fresh key has opened nothing yet, so an empty window is right. -/
theorem RecvInv.advance_next (hfree : A.CollisionFree key) (h : RecvInv A key epoch n c) {next : κ}
    (hnext : A.deriveForward c.recvKey = some next) :
    RecvInv A key epoch (n + 1) (c.advance next true) := by
  have hkey : A.keyAt key (n + 1) = some next := (Aead.keyAt_succ h.key_eq).trans hnext
  refine ⟨hkey, ?_, ?_, ?_, h.verified, h.distinct⟩
  · show c.recvEpoch + 1 = _
    rw [h.epoch_eq, epochAt_succ]
  · have hempty : {s | ∃ bytes, (next, bytes) ∈ c.opened ∧ (seqOf bytes).toNat = s} = ∅ := by
      apply Set.eq_empty_of_forall_notMem
      rintro s ⟨bytes, hmem, -⟩
      obtain ⟨i, hi, hold⟩ := h.past _ hmem
      have hsame := hfree i (n + 1) next hold hkey
      omega
    show AntiReplayWindow.Tracks c.window.reset
      {s | ∃ bytes, (next, bytes) ∈ c.opened ∧ (seqOf bytes).toNat = s}
    rw [hempty]
    exact AntiReplayWindow.tracks_empty
  · intro x hx
    obtain ⟨i, hi, hold⟩ := h.past x hx
    exact ⟨i, by omega, hold⟩

theorem RecvInv.deliver (h : RecvInv A key epoch n c) (hlen : kFrameOverhead ≤ bytes.length)
    (haccept : c.window.wouldAccept (seqOf bytes) = .accept)
    (hopen : A.openBytes c.recvKey (nonceOf bytes) (headerOf bytes) (sealedOf bytes) = some plain) :
    RecvInv A key epoch n (c.deliver bytes plain) := by
  have hnew := ((AntiReplayWindow.wouldAccept_eq_accept_iff h.tracks _).mp haccept).1
  refine ⟨h.key_eq, h.epoch_eq, ?_, ?_, ?_, ?_⟩
  · have hinsert : {s | ∃ x, (c.recvKey, x) ∈ c.opened ++ [(c.recvKey, bytes)] ∧
          (seqOf x).toNat = s} =
        insert (seqOf bytes).toNat {s | ∃ x, (c.recvKey, x) ∈ c.opened ∧ (seqOf x).toNat = s} := by
      ext s
      simp only [mem_append, mem_singleton, Prod.mk.injEq, true_and]
      constructor
      · rintro ⟨x, hx | rfl, hs⟩
        · exact .inr ⟨x, hx, hs⟩
        · exact .inl hs.symm
      · rintro (rfl | ⟨x, hx, hs⟩)
        · exact ⟨bytes, .inr rfl, rfl⟩
        · exact ⟨x, .inl hx, hs⟩
    show AntiReplayWindow.Tracks (c.window.checkAndSet (seqOf bytes)).1
      {s | ∃ x, (c.recvKey, x) ∈ c.opened ++ [(c.recvKey, bytes)] ∧ (seqOf x).toNat = s}
    rw [hinsert]
    exact h.tracks.checkAndSet haccept
  · intro x hx
    rcases mem_append.mp hx with hx | hx
    · exact h.past x hx
    · rw [mem_singleton.mp hx]
      exact ⟨n, Nat.le_refl n, h.key_eq⟩
  · intro x hx
    rcases mem_append.mp hx with hx | hx
    · exact h.verified x hx
    · rw [mem_singleton.mp hx]
      exact ⟨hlen, plain, hopen⟩
  · show (c.opened ++ [(c.recvKey, bytes)]).Pairwise _
    rw [pairwise_append]
    refine ⟨h.distinct, pairwise_singleton _ _, ?_⟩
    intro x hx y hy hkey hseq
    rw [mem_singleton.mp hy] at hkey hseq
    have hcurrent : x.1 = c.recvKey := hkey
    exact hnew ⟨x.2, hcurrent ▸ hx, congrArg UInt64.toNat hseq⟩

section

variable (hfree : A.CollisionFree key) (h : RecvInv A key epoch n c)
include hfree h

/-- One datagram keeps the invariant, at this position or the next; what it opens was openable. -/
theorem RecvInv.step (bytes : Bytes) :
    (∃ m, RecvInv A key epoch m (c.datagramOnLowerData A bytes)) ∧
    ((c.datagramOnLowerData A bytes).withoutCounters = c.withoutCounters ∨ Opens A key bytes) ∧
    ∀ x ∈ (c.datagramOnLowerData A bytes).opened, x ∈ c.opened ∨ x.2 = bytes := by
  rcases datagramOnLowerData_cases A c bytes with
    hdrop | ⟨candidate, advances, plain, hlen, hcand, hprobe, hopen, heq⟩
  · refine ⟨⟨n, h.of_withoutCounters hdrop⟩, .inl hdrop, fun x hx => .inl ?_⟩
    have hopened := congrArg DatagramAuthenticatedChannel.opened hdrop
    exact hopened ▸ hx
  rw [heq]
  unfold candidateKeyFor at hcand
  split at hcand
  · -- the current epoch: the probe has asked the window in place
    obtain ⟨rfl, rfl⟩ : c.recvKey = candidate ∧ false = advances := by simpa using hcand
    refine ⟨⟨n, h.deliver hlen hprobe hopen⟩, .inr ⟨hlen, n, _, plain, h.key_eq, hopen⟩, ?_⟩
    intro x hx
    rcases mem_append.mp hx with hx | hx
    · exact .inl hx
    · exact .inr (by rw [mem_singleton.mp hx])
  split at hcand
  · -- the next epoch: its window is empty and accepts anything
    obtain ⟨next, hnext, heq'⟩ := Option.map_eq_some_iff.mp hcand
    obtain ⟨rfl, rfl⟩ : next = candidate ∧ true = advances := by simpa using heq'
    have hadv := h.advance_next hfree hnext
    refine ⟨⟨n + 1, hadv.deliver hlen rfl hopen⟩,
      .inr ⟨hlen, n + 1, _, plain, hadv.key_eq, hopen⟩, ?_⟩
    intro x hx
    rcases mem_append.mp hx with hx | hx
    · exact .inl hx
    · exact .inr (by rw [mem_singleton.mp hx])
  · exact nomatch hcand

theorem RecvInv.receiveAll (datagrams : List Bytes) :
    (∃ m, RecvInv A key epoch m (c.receiveAll A datagrams)) ∧
    ∀ x ∈ (c.receiveAll A datagrams).opened, x ∈ c.opened ∨ x.2 ∈ datagrams := by
  induction datagrams generalizing n c with
  | nil => exact ⟨⟨n, h⟩, fun x hx => .inl hx⟩
  | cons bytes datagrams ih =>
    obtain ⟨⟨m, hm⟩, -, hopened⟩ := h.step hfree bytes
    obtain ⟨hinv, hfrom⟩ := ih hm
    refine ⟨hinv, fun x hx => ?_⟩
    rcases hfrom x hx with hx | hx
    · rcases hopened x hx with hx | hx
      · exact .inl hx
      · exact .inr (hx ▸ mem_cons_self)
    · exact .inr (mem_cons_of_mem _ hx)

/-! ## Two runs, with and without the garbage -/

/-- Leaving out datagrams that open under no key of the chain changes nothing but the counters. -/
theorem RecvInv.receiveAll_filter (datagrams : List Bytes) (keep : Bytes → Bool)
    (hgarbage : ∀ x ∈ datagrams, keep x = false → ¬ Opens A key x) :
    (c.receiveAll A (datagrams.filter keep)).withoutCounters =
      (c.receiveAll A datagrams).withoutCounters := by
  induction datagrams generalizing n c with
  | nil => rfl
  | cons bytes datagrams ih =>
    obtain ⟨⟨m, hm⟩, hdrop, -⟩ := h.step hfree bytes
    have hrest := ih hm (fun x hx => hgarbage x (mem_cons_of_mem _ hx))
    cases hkeep : keep bytes with
    | true =>
      rw [filter_cons_of_pos hkeep]
      exact hrest
    | false =>
      rw [filter_cons_of_neg (by simp [hkeep])]
      have hsame := hdrop.resolve_right (hgarbage bytes mem_cons_self hkeep)
      exact (withoutCounters_receiveAll A hsame.symm _).trans hrest

end

/-! ## The receiving side as a whole -/

/-- Each datagram was sealed by the peer, at any position and in any order, or opens under no key
of the chain. -/
def Arrivals (A : Aead κ) (key : κ) (epoch : UInt32) (datagrams : List Bytes) : Prop :=
  ∀ x ∈ datagrams, (∃ n seq record, AuthenticAs A key epoch n seq record x) ∨ ¬ Opens A key x

/-- No two deliveries are authentic for one sequence of one epoch. -/
theorem RecvInv.opened_once (h : RecvInv A key epoch n c)
    (hunforged : ∀ x ∈ c.opened.map Prod.snd, ∀ m seq record,
      AuthenticAs A key epoch m seq record x → A.Unforged record) :
    (c.opened.map Prod.snd).Pairwise fun x y => ∀ m seq record record',
      AuthenticAs A key epoch m seq record x → ¬ AuthenticAs A key epoch m seq record' y := by
  rw [pairwise_map]
  apply h.distinct.imp_of_mem
  intro x y hx hy hdistinct m seq record record' hax hay
  obtain ⟨-, plainx, hopenx⟩ := h.verified x hx
  obtain ⟨-, plainy, hopeny⟩ := h.verified y hy
  -- both were opened with the one key they were sealed under
  have hkx := hax.key_eq_of_open (hunforged _ (mem_map_of_mem hx) _ _ _ hax) hopenx
  have hky := hay.key_eq_of_open (hunforged _ (mem_map_of_mem hy) _ _ _ hay) hopeny
  have hkey : x.1 = y.1 := Option.some.inj (hkx.symm.trans hky)
  exact hdistinct hkey (hax.seq_eq.trans hay.seq_eq.symm)

/-- An authentic datagram of the current epoch is opened, delivered as sealed, when the window
accepts its sequence. -/
theorem RecvInv.deliver_authentic (hA : A.Sound) (h : RecvInv A key epoch n c) {seq : UInt64}
    {record : SealRecord κ} (hauth : AuthenticAs A key epoch n seq record bytes)
    (haccept : c.window.wouldAccept seq = .accept) :
    (c.datagramOnLowerData A bytes).delivered =
      c.delivered ++ [record.header ++ record.payload] := by
  have hkey : record.key = c.recvKey := Option.some.inj (hauth.key_eq.symm.trans h.key_eq)
  have hcand : c.candidateKeyFor A (epochByteOf bytes) = some (c.recvKey, false) := by
    unfold candidateKeyFor
    rw [if_pos (by rw [hauth.epochByte_eq, h.epoch_eq])]
  have hprobe : c.probe false (seqOf bytes) = .accept := by
    rw [hauth.seq_eq]
    exact haccept
  have hopen : A.openBytes c.recvKey (nonceOf bytes) (headerOf bytes) (sealedOf bytes) =
      some record.payload := by
    rw [hauth.nonceOf_eq, hauth.header_eq, hauth.sealed_eq, ← hkey]
    exact hA.open_sealBytes _ _ _ _
  unfold datagramOnLowerData
  rw [if_neg (not_lt.mpr (hauth.overhead_le hA)), hcand]
  dsimp only
  rw [if_neg (not_not.mpr hprobe), hopen]
  show c.delivered ++ [headerOf bytes ++ record.payload] = _
  rw [hauth.header_eq]

/-- **The receiving side.** For any run of datagrams, each authentic or unopenable:
leaving out unopenable ones changes nothing that is delivered; no sequence of an epoch is delivered
twice; an authentic datagram of the current epoch that has not been delivered, and lies less than
the window's width below the highest sequence, is delivered; and a datagram that is not delivered
changes the drop counters only. -/
theorem receive_sound {A : Aead κ} (hA : A.Sound) (keys : DerivedKeys κ)
    (hfree : A.CollisionFree keys.kRecv) (epoch : UInt32) (datagrams : List Bytes)
    (harrivals : Arrivals A keys.kRecv epoch datagrams)
    (hunforged : ∀ x ∈ datagrams, ∀ n seq record,
      AuthenticAs A keys.kRecv epoch n seq record x → A.Unforged record) :
    let c := (new keys epoch).receiveAll A datagrams
    (∀ keep : Bytes → Bool,
      (∀ x ∈ datagrams, keep x = false → ¬ Opens A keys.kRecv x) →
      ((new keys epoch).receiveAll A (datagrams.filter keep)).delivered = c.delivered) ∧
    (c.opened.map Prod.snd).Pairwise
      (fun x y => ∀ n seq record record', AuthenticAs A keys.kRecv epoch n seq record x →
        ¬ AuthenticAs A keys.kRecv epoch n seq record' y) ∧
    (∀ n seq record x, A.keyAt keys.kRecv n = some c.recvKey →
      AuthenticAs A keys.kRecv epoch n seq record x →
      (∀ y ∈ c.opened.map Prod.snd, ∀ record', ¬ AuthenticAs A keys.kRecv epoch n seq record' y) →
      c.window.highest.toNat < seq.toNat + kAntiReplayWindowBits →
      (c.datagramOnLowerData A x).delivered = c.delivered ++ [record.header ++ record.payload]) ∧
    (∀ x, (c.datagramOnLowerData A x).delivered = c.delivered →
      (c.datagramOnLowerData A x).withoutCounters = c.withoutCounters) := by
  have hnew := recvInv_new A keys epoch
  obtain ⟨⟨m, hinv⟩, hfrom⟩ := hnew.receiveAll hfree datagrams
  have hmem : ∀ x ∈ ((new keys epoch).receiveAll A datagrams).opened, x.2 ∈ datagrams :=
    fun x hx => (hfrom x hx).resolve_left List.not_mem_nil
  refine ⟨?_, ?_, ?_, fun x hx => withoutCounters_of_delivered_eq hx⟩
  · intro keep hgarbage
    have hcore := hnew.receiveAll_filter hfree datagrams keep hgarbage
    have hdelivered := congrArg DatagramAuthenticatedChannel.delivered hcore
    exact hdelivered
  · apply hinv.opened_once
    intro x hx n seq record hauth
    obtain ⟨y, hy, rfl⟩ := List.mem_map.mp hx
    exact hunforged _ (hmem y hy) n seq record hauth
  intro n seq record x hkey hauth hundelivered hreach
  obtain rfl : n = m := hfree _ _ _ hkey hinv.key_eq
  apply hinv.deliver_authentic hA hauth
  rw [AntiReplayWindow.wouldAccept_eq_accept_iff hinv.tracks]
  refine ⟨?_, fun _ => hreach⟩
  rintro ⟨y, hy, hseq⟩
  -- a delivery under the current key and this sequence would have been an authentic one
  obtain ⟨hlen, plain, hopen⟩ := hinv.verified _ hy
  rcases harrivals y (hmem _ hy) with ⟨j, seq', record', hauth'⟩ | hgarbage
  · have hj := hauth'.key_eq_of_open (hunforged y (hmem _ hy) _ _ _ hauth') hopen
    obtain rfl : j = n := hfree _ _ _ hj hinv.key_eq
    obtain rfl : seq' = seq := by
      rw [← hauth'.seq_eq]
      exact UInt64.toNat_inj.mp hseq
    exact hundelivered y (List.mem_map_of_mem hy) record' hauth'
  · exact hgarbage ⟨hlen, n, _, plain, hinv.key_eq, hopen⟩

/-! ### A run under the stamping cipher -/

def stampedRecord (key : Nat) (epoch : UInt32) (n : Nat) (seq : UInt64) : SealRecord Nat :=
  { key := key + n
    nonce := makeNonce (epochAt epoch n &&& 0xff) seq
    header := replicate headerSize 7
    payload := [1, 2, 3] }

def stampedDatagram (key : Nat) (epoch : UInt32) (n : Nat) (seq : UInt64) : Bytes :=
  encodeDatagram seq (epochByte (epochAt epoch n)) (stampedRecord key epoch n seq).header
    ((stampedRecord key epoch n seq).sealed stampCipher)

theorem authenticAs_stamped (key : Nat) (epoch : UInt32) (n : Nat) (seq : UInt64) :
    AuthenticAs stampCipher key epoch n seq (stampedRecord key epoch n seq)
      (stampedDatagram key epoch n seq) where
  key_eq := stampCipher_keyAt key n
  nonce_eq := rfl
  header_len := length_replicate
  bytes_eq := rfl

theorem unforged_stamped {key : Nat} {epoch : UInt32} {n : Nat} {seq : UInt64}
    (hcap : key + n < 2 ^ 32 - 2) {m : Nat} {seq' : UInt64} {record : SealRecord Nat}
    (h : AuthenticAs stampCipher key epoch m seq' record (stampedDatagram key epoch n seq)) :
    stampCipher.Unforged record := by
  have hsealed := (authenticAs_stamped key epoch n seq).sealed_eq.symm.trans h.sealed_eq
  obtain ⟨-, hstamp⟩ := append_inj' hsealed (by rw [length_stamp, length_stamp])
  obtain ⟨hkey, hnonce⟩ := stamp_inj hcap (length_makeNonce _ _) hstamp
  apply stampCipher_unforged
  · rw [hkey]
    exact hcap
  · rw [hnonce]
    exact length_makeNonce _ _

/-- An epoch byte that wraps, a repetition, a forgery too short to parse and a late datagram of the
epoch left behind. -/
def acrossWrap : List Bytes :=
  [stampedDatagram 5 255 0 3, stampedDatagram 5 255 0 3, [0, 0], stampedDatagram 5 255 1 0,
    stampedDatagram 5 255 0 4]

theorem mem_acrossWrap {x : Bytes} (hx : x ∈ acrossWrap) :
    x = [0, 0] ∨ ∃ n seq, n ≤ 1 ∧ x = stampedDatagram 5 255 n seq := by
  simp only [acrossWrap, mem_cons, not_mem_nil, or_false] at hx
  rcases hx with rfl | rfl | rfl | rfl | rfl
  · exact .inr ⟨0, 3, by decide, rfl⟩
  · exact .inr ⟨0, 3, by decide, rfl⟩
  · exact .inl rfl
  · exact .inr ⟨1, 0, by decide, rfl⟩
  · exact .inr ⟨0, 4, by decide, rfl⟩

/-- The run delivers as if the forgery had not come, and takes the next sequence. -/
theorem receive_sound_across_wrap :
    let peer := new (⟨9, 5⟩ : DerivedKeys Nat) 255
    let after := peer.receiveAll stampCipher acrossWrap
    (peer.receiveAll stampCipher (acrossWrap.filter (· ≠ [0, 0]))).delivered = after.delivered ∧
    (after.datagramOnLowerData stampCipher (stampedDatagram 5 255 1 7)).delivered =
      after.delivered ++ [List.replicate headerSize 7 ++ [1, 2, 3]] := by
  intro peer after
  have hshort : ¬ Opens stampCipher 5 [0, 0] := fun h => absurd h.1 (by decide)
  have hsound := receive_sound stampCipher_sound ⟨9, 5⟩ (stampCipher_collisionFree 5) 255
    acrossWrap ?_ ?_
  · refine ⟨hsound.1 (· ≠ [0, 0]) ?_, ?_⟩
    · intro x _ hx
      have hforged : x = [0, 0] := by simpa using hx
      rw [hforged]
      exact hshort
    · refine hsound.2.2.1 1 7 _ _ (by decide +kernel) (authenticAs_stamped 5 255 1 7) ?_
        (by decide +kernel)
      -- what was delivered carries the sequences 3 and 0
      intro y hy record' hy'
      have hseqs : ∀ y ∈ after.opened.map Prod.snd, seqOf y ≠ 7 := by decide +kernel
      exact hseqs y hy hy'.seq_eq
  · intro x hx
    rcases mem_acrossWrap hx with rfl | ⟨n, seq, -, rfl⟩
    · exact .inr hshort
    · exact .inl ⟨n, seq, _, authenticAs_stamped 5 255 n seq⟩
  · intro x hx m seq record h
    rcases mem_acrossWrap hx with rfl | ⟨n, seq', hn, rfl⟩
    · exact absurd (h.overhead_le stampCipher_sound) (by decide)
    · have hcap : 5 + n < 2 ^ 32 - 2 := by omega
      exact unforged_stamped hcap h

end DatagramAuthenticatedChannel

end Plexus.Crypto
