/-
# Plexus.Crypto.StreamAead — the stream AEAD decorator (`crypto/authenticated_channel.h`,
`crypto/detail/aead_path.h`).

Wire shape: `epoch byte ‖ header (28) ‖ ciphertext ‖ tag (16)`. Each end counts by itself, and
re-derives its key when the other end's epoch byte moves on. The sender's whole run has a closed
form (`sendAll_spec`): the `n`-th header-on frame is sealed at chain position `n / threshold` under
sequence `n % threshold`, whether or not the earlier seals succeeded.
-/
import Plexus.Crypto.AeadEpoch

namespace Plexus.Crypto

open Wire

variable {κ : Type}

inductive CloseCause where
  | invalidMagic
  | payloadTooLarge
  | bufferOverflow
  | noProgressTimeout
  | crcMismatch
  deriving DecidableEq

/-- One end of a stream: its keys, its counters and what it did. -/
structure AuthenticatedChannel (κ : Type) where
  sendKey : κ
  recvKey : κ
  sendEpoch : UInt32
  recvEpoch : UInt32
  rekeyThreshold : UInt64
  sendSeq : UInt64 := 0
  recvSeq : UInt64 := 0
  /-- what was handed to the lower channel -/
  wire : List Bytes := []
  /-- what was handed up -/
  delivered : List Bytes := []
  /-- the protocol close, which takes the lower channel down with it -/
  closedFor : Option CloseCause := none
  /-- the successful `seal` calls, oldest first -/
  sealed : List (SealRecord κ) := []
  deriving DecidableEq

namespace AuthenticatedChannel

/-- The constructor. -/
def new (keys : DerivedKeys κ) (initialEpoch : UInt32 := 0)
    (rekeyThreshold : UInt64 := kRekeyMessageThreshold) : AuthenticatedChannel κ :=
  { sendKey := keys.kSend, recvKey := keys.kRecv, sendEpoch := initialEpoch,
    recvEpoch := initialEpoch, rekeyThreshold := rekeyThreshold }

/-! ## Sending -/

variable (A : Aead κ) (c : AuthenticatedChannel κ)

def rekeySend : AuthenticatedChannel κ :=
  match A.deriveForward c.sendKey with
  | none => c
  | some next => { c with sendKey := next, sendEpoch := c.sendEpoch + 1, sendSeq := 0 }

/-- The channel as the seal finds it: rekeyed first when the threshold has been reached. -/
def beforeSeal : AuthenticatedChannel κ :=
  if c.rekeyThreshold ≤ c.sendSeq then c.rekeySend A else c

/-- The `seal` call for `frame`, with the channel's key and counters. -/
def sealCall (frame : Bytes) : SealRecord κ :=
  { key := c.sendKey
    nonce := makeNonce (c.sendEpoch &&& 0xff) c.sendSeq
    header := frame.take headerSize
    payload := frame.drop headerSize }

/-- Seal and hand on. The counter moves before the seal is tried, so it has moved also when the
seal fails. -/
def sealAndSend (call : SendCall) : AuthenticatedChannel κ :=
  if !call.sealOk then { c with sendSeq := c.sendSeq + 1 }
  else
    { c with
      sendSeq := c.sendSeq + 1
      wire := c.wire ++ [epochByte c.sendEpoch ::
        ((c.sealCall call.frame).header ++ (c.sealCall call.frame).sealed A)]
      sealed := c.sealed ++ [c.sealCall call.frame] }

def streamAeadSend (call : SendCall) : AuthenticatedChannel κ :=
  if call.frame.length < headerSize then c else (c.beforeSeal A).sealAndSend A call

def sendAll (calls : List SendCall) : AuthenticatedChannel κ :=
  calls.foldl (streamAeadSend A) c

/-! ## Receiving -/

def handleProtocolClose (cause : CloseCause) : AuthenticatedChannel κ :=
  { c with closedFor := some cause }

/-- The channel with the receive key that `byte` names in place; nothing for an epoch that is
neither the current nor the next one. -/
def selectRecvKey (byte : UInt8) : Option (AuthenticatedChannel κ) :=
  if byte = epochByte c.recvEpoch then some c
  else if byte = epochByte (c.recvEpoch + 1) then
    match A.deriveForward c.recvKey with
    | none => none
    | some next => some { c with recvKey := next, recvEpoch := c.recvEpoch + 1, recvSeq := 0 }
  else none

def streamAeadOnLowerData (bytes : Bytes) : AuthenticatedChannel κ :=
  if bytes.length < 1 + headerSize + kAeadTagLen then c.handleProtocolClose .bufferOverflow
  else
    let byte := bytes.headD 0
    let header := (bytes.drop 1).take headerSize
    let sealed := bytes.drop (1 + headerSize)
    match c.selectRecvKey A byte with
    | none => c.handleProtocolClose .invalidMagic
    | some c =>
      match A.openBytes c.recvKey (makeNonce byte.toUInt32 c.recvSeq) header sealed with
      | none => c.handleProtocolClose .invalidMagic
      | some plain =>
        { c with recvSeq := c.recvSeq + 1, delivered := c.delivered ++ [header ++ plain] }

/-- A lower channel that has been closed hands nothing up any more. -/
def receive (bytes : Bytes) : AuthenticatedChannel κ :=
  if c.closedFor.isSome then c else c.streamAeadOnLowerData A bytes

def receiveAll (frames : List Bytes) : AuthenticatedChannel κ :=
  frames.foldl (receive A) c

end AuthenticatedChannel

/-! ## The sender's run in closed form -/

section Closed

variable {A : Aead κ} {key : κ} (hd : A.Derives key) (epoch : UInt32) (t : Nat)

/-- The `seal` call of the `n`-th header-on frame. -/
def sealAt (n : Nat) (frame : Bytes) : SealRecord κ :=
  { key := hd.keyOf (n / t)
    nonce := makeNonce (epochAt epoch (n / t) &&& 0xff) (UInt64.ofNat (n % t))
    header := frame.take headerSize
    payload := frame.drop headerSize }

/-- The bytes the `n`-th header-on frame travels as. -/
def wireAt (n : Nat) (frame : Bytes) : Bytes :=
  epochByte (epochAt epoch (n / t)) ::
    ((sealAt hd epoch t n frame).header ++ (sealAt hd epoch t n frame).sealed A)

/-- The header-on frames whose seal succeeds, each with its number, counting from `n`. -/
def successes (n : Nat) : List SendCall → List (Nat × Bytes)
  | [] => []
  | call :: calls =>
    if call.frame.length < headerSize then successes n calls
    else if !call.sealOk then successes (n + 1) calls
    else (n, call.frame) :: successes (n + 1) calls

/-- Header-on frames of a run. -/
def headerOn (calls : List SendCall) : Nat :=
  calls.countP fun call => headerSize ≤ call.frame.length

theorem lt_of_mem_successes {calls : List SendCall} {n : Nat} {x : Nat × Bytes}
    (hx : x ∈ successes n calls) : x.1 < n + headerOn calls := by
  induction calls generalizing n with
  | nil => exact absurd hx List.not_mem_nil
  | cons call calls ih =>
    rw [successes] at hx
    unfold headerOn at ih ⊢
    split at hx
    · rename_i hshort
      rw [List.countP_cons_of_neg (by simpa using hshort)]
      exact ih hx
    rename_i hlong
    rw [List.countP_cons_of_pos (by simpa using hlong)]
    split at hx
    · have := ih hx
      omega
    rcases List.mem_cons.mp hx with rfl | hx
    · show n < _
      omega
    · have := ih hx
      omega

/-- The sender's counters after `n` header-on frames. -/
structure SenderAt (n : Nat) (c : AuthenticatedChannel κ) : Prop where
  threshold : c.rekeyThreshold.toNat = t
  key_eq : c.sendKey = hd.keyOf ((n - 1) / t)
  epoch_eq : c.sendEpoch = epochAt epoch ((n - 1) / t)
  seq_eq : c.sendSeq.toNat = n - (n - 1) / t * t

variable {hd epoch t} {n : Nat} {c : AuthenticatedChannel κ}

section

variable (ht : 1 ≤ t) (h : SenderAt hd epoch t n c)
include ht h

/-- The position a seal runs at: a full epoch is left behind exactly when `t` divides `n`. -/
theorem SenderAt.beforeSeal :
    (c.beforeSeal A).sendKey = hd.keyOf (n / t) ∧
    (c.beforeSeal A).sendEpoch = epochAt epoch (n / t) ∧
    (c.beforeSeal A).sendSeq = UInt64.ofNat (n % t) ∧
    (c.beforeSeal A).rekeyThreshold = c.rekeyThreshold ∧
    (c.beforeSeal A).wire = c.wire ∧ (c.beforeSeal A).sealed = c.sealed := by
  have hmod : n / t * t + n % t = n := Nat.div_add_mod' n t
  have hlt : n % t < t := Nat.mod_lt n (by omega)
  have hseq := h.seq_eq
  unfold AuthenticatedChannel.beforeSeal
  by_cases hfull : c.rekeyThreshold ≤ c.sendSeq
  · -- `t` sequences are used up, so `n` starts the next epoch
    have hle : t ≤ c.sendSeq.toNat := by
      rw [← h.threshold]
      exact UInt64.le_iff_toNat_le.mp hfull
    have hn : n = (n - 1) / t * t + t := by
      have hprev : (n - 1) / t * t + (n - 1) % t = n - 1 := Nat.div_add_mod' (n - 1) t
      have hprevlt : (n - 1) % t < t := Nat.mod_lt _ (by omega)
      omega
    have hdiv : n / t = (n - 1) / t + 1 := by
      conv_lhs => rw [hn]
      rw [← Nat.succ_mul, Nat.mul_div_cancel _ (by omega)]
    have hzero : n % t = 0 := by
      rw [hn, ← Nat.succ_mul, Nat.mul_mod_left]
    have hnext : A.deriveForward c.sendKey = some (hd.keyOf (n / t)) := by
      rw [h.key_eq, hdiv]
      exact hd.deriveForward_keyOf _
    rw [if_pos hfull]
    unfold AuthenticatedChannel.rekeySend
    rw [hnext, hzero]
    refine ⟨rfl, ?_, rfl, rfl, rfl, rfl⟩
    show c.sendEpoch + 1 = _
    rw [h.epoch_eq, hdiv, epochAt_succ]
  · have hlt' : c.sendSeq.toNat < t := by
      rw [← h.threshold]
      exact Nat.lt_of_not_le (fun hle => hfull (UInt64.le_iff_toNat_le.mpr hle))
    have hdiv : n / t = (n - 1) / t := by
      have hn : n = t * ((n - 1) / t) + c.sendSeq.toNat := by
        have hprev : (n - 1) / t * t ≤ n - 1 := Nat.div_mul_le_self _ _
        rw [mul_comm]
        omega
      conv_lhs => rw [hn]
      rw [Nat.mul_add_div (by omega), Nat.div_eq_of_lt hlt', add_zero]
    rw [if_neg hfull, hdiv]
    refine ⟨h.key_eq, h.epoch_eq, ?_, rfl, rfl, rfl⟩
    apply UInt64.toNat_inj.mp
    have hsmall : n % t < 2 ^ 64 := by
      have := c.rekeyThreshold.toNat_lt
      have := h.threshold
      omega
    rw [hseq, ← hdiv, UInt64.toNat_ofNat_of_lt' hsmall]
    omega

/-- One send: a header-on frame takes the next position, and travels when its seal succeeds. -/
theorem SenderAt.send {call : SendCall} (hheader : headerSize ≤ call.frame.length) :
    SenderAt hd epoch t (n + 1) (c.streamAeadSend A call) ∧
    (c.streamAeadSend A call).wire =
      c.wire ++ (if call.sealOk then [wireAt hd epoch t n call.frame] else []) ∧
    (c.streamAeadSend A call).sealed =
      c.sealed ++ (if call.sealOk then [sealAt hd epoch t n call.frame] else []) := by
  obtain ⟨hkey, hepoch, hseq, hthr, hwire, hsealed⟩ := h.beforeSeal ht
  have hrecord : (c.beforeSeal A).sealCall call.frame = sealAt hd epoch t n call.frame := by
    unfold AuthenticatedChannel.sealCall sealAt
    rw [hkey, hepoch, hseq]
  have hmod : n / t * t + n % t = n := Nat.div_add_mod' n t
  have hlt : n % t < t := Nat.mod_lt n (by omega)
  have htlt : t < 2 ^ 64 := h.threshold ▸ c.rekeyThreshold.toNat_lt
  have hcount : ((c.beforeSeal A).sendSeq + 1).toNat = n + 1 - (n + 1 - 1) / t * t := by
    rw [hseq, UInt64.toNat_add, UInt64.toNat_ofNat_of_lt' (show n % t < 2 ^ 64 by omega)]
    have hone : (1 : UInt64).toNat = 1 := rfl
    rw [Nat.add_sub_cancel]
    omega
  have hthr' : (c.beforeSeal A).rekeyThreshold.toNat = t := by
    rw [hthr]
    exact h.threshold
  unfold AuthenticatedChannel.streamAeadSend AuthenticatedChannel.sealAndSend
  rw [if_neg (not_lt.mpr hheader), hrecord, hwire, hsealed]
  cases call.sealOk with
  | false =>
    exact ⟨⟨hthr', hkey, hepoch, hcount⟩, (List.append_nil _).symm, (List.append_nil _).symm⟩
  | true =>
    refine ⟨⟨hthr', hkey, hepoch, hcount⟩, ?_, rfl⟩
    show c.wire ++ [epochByte (c.beforeSeal A).sendEpoch :: _] = _
    rw [hepoch]
    rfl

/-- **A whole run of sends.** What travelled and what was sealed are the successes, each at the
position its number gives. -/
theorem SenderAt.sendAll (calls : List SendCall) :
    (c.sendAll A calls).wire =
      c.wire ++ (successes n calls).map (fun e => wireAt hd epoch t e.1 e.2) ∧
    (c.sendAll A calls).sealed =
      c.sealed ++ (successes n calls).map (fun e => sealAt hd epoch t e.1 e.2) := by
  induction calls generalizing n c with
  | nil => simp [AuthenticatedChannel.sendAll, successes]
  | cons call calls ih =>
    show (AuthenticatedChannel.sendAll A (c.streamAeadSend A call) calls).wire = _ ∧
      (AuthenticatedChannel.sendAll A (c.streamAeadSend A call) calls).sealed = _
    by_cases hshort : call.frame.length < headerSize
    · have hsame : c.streamAeadSend A call = c := by
        unfold AuthenticatedChannel.streamAeadSend
        rw [if_pos hshort]
      rw [hsame, successes, if_pos hshort]
      exact ih h
    · obtain ⟨hnext, hwire, hsealed⟩ := h.send ht (Nat.le_of_not_lt hshort)
      obtain ⟨hwires, hseals⟩ := ih hnext
      rw [hwires, hseals, hwire, hsealed, successes, if_neg hshort]
      cases call.sealOk <;> simp

end

end Closed

theorem senderAt_new {A : Aead κ} {keys : DerivedKeys κ} (hd : A.Derives keys.kSend)
    (epoch : UInt32) (threshold : UInt64) :
    SenderAt hd epoch threshold.toNat 0 (AuthenticatedChannel.new keys epoch threshold) := by
  refine ⟨rfl, ?_, ?_, ?_⟩
  · rw [Nat.zero_div]
    exact hd.keyOf_zero.symm
  · rw [Nat.zero_div]
    exact (epochAt_zero epoch).symm
  · rw [Nat.zero_sub]
    rfl

end Plexus.Crypto
