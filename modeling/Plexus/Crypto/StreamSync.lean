/-
# Plexus.Crypto.StreamSync — when the two ends of an authenticated stream stay in step.

A frame opens only if it sits at the position the receiver expects: the next sequence of the current
epoch, or the first of the next epoch. A failed seal uses up a position without sending anything.
The peer then closes at the next frame that travels, unless the used-up positions end an epoch;
`Harmless` says exactly which failures do no damage.
-/
import Plexus.Crypto.StreamAead

namespace Plexus.Crypto

open Wire AuthenticatedChannel List

variable {κ : Type}

/-! ## One frame at the receiver -/

section Receiver

variable {A : Aead κ} {key : κ} (hd : A.Derives key) (epoch : UInt32) (t : Nat)

/-- The receiver has last opened sequence `s - 1` of chain position `e`. -/
structure ReceiverAt (e s : Nat) (r : AuthenticatedChannel κ) : Prop where
  key_eq : r.recvKey = hd.keyOf e
  epoch_eq : r.recvEpoch = epochAt epoch e
  seq_eq : r.recvSeq = UInt64.ofNat s
  seq_le : s ≤ t
  isOpen : r.closedFor = none

/-- The `n`-th frame is one that a receiver at `(e, s)` can open. -/
def Next (e s n : Nat) : Prop := (n / t = e ∧ n % t = s) ∨ (n / t = e + 1 ∧ n % t = 0)

/-- The keys of the chain up to `last` are distinct. -/
def Aead.CollisionFreeTo (A : Aead κ) (key : κ) (last : Nat) : Prop :=
  ∀ i ≤ last, ∀ j ≤ last, A.keyAt key i = A.keyAt key j → i = j

/-- Under its own header, a sealed text opens with no other one of these keys and of the nonces a
channel makes. -/
def Aead.UnforgedTo (A : Aead κ) (key : κ) (last : Nat) (r : SealRecord κ) : Prop :=
  ∀ i ≤ last, ∀ k, A.keyAt key i = some k → ∀ byte seq plain,
    A.openBytes k (makeNonce byte seq) r.header (r.sealed A) = some plain →
      k = r.key ∧ makeNonce byte seq = r.nonce

variable {hd epoch t} {e s n last : Nat} {r : AuthenticatedChannel κ} {frame : Bytes}

theorem ReceiverAt.receive_wireAt (hA : A.Sound) (h : ReceiverAt hd epoch t e s r)
    (hframe : headerSize ≤ frame.length) (n : Nat) :
    r.receive A (wireAt hd epoch t n frame) =
      match r.selectRecvKey A (epochByte (epochAt epoch (n / t))) with
      | none => r.handleProtocolClose .invalidMagic
      | some c =>
        match A.openBytes c.recvKey (makeNonce (epochByte (epochAt epoch (n / t))).toUInt32 c.recvSeq)
          (frame.take headerSize) ((sealAt hd epoch t n frame).sealed A) with
        | none => c.handleProtocolClose .invalidMagic
        | some plain =>
          { c with
            recvSeq := c.recvSeq + 1
            delivered := c.delivered ++ [frame.take headerSize ++ plain] } := by
  have hheader : (sealAt hd epoch t n frame).header.length = headerSize := length_take_of_le hframe
  have hsealed : kAeadTagLen ≤ ((sealAt hd epoch t n frame).sealed A).length := by
    rw [SealRecord.sealed, hA.length_sealBytes]
    omega
  have hlen : ¬ (wireAt hd epoch t n frame).length < 1 + headerSize + kAeadTagLen := by
    rw [wireAt, length_cons, length_append]
    omega
  have htake : ((wireAt hd epoch t n frame).drop 1).take headerSize = frame.take headerSize :=
    take_left' hheader
  have hdrop : (wireAt hd epoch t n frame).drop (1 + headerSize) =
      (sealAt hd epoch t n frame).sealed A := by
    rw [add_comm, wireAt, drop_succ_cons]
    exact drop_left' hheader
  unfold receive streamAeadOnLowerData
  rw [h.isOpen, if_neg (by decide), if_neg hlen, htake, hdrop]
  rfl

theorem ReceiverAt.select (h : ReceiverAt hd epoch t e s r) {byte : UInt8}
    {c : AuthenticatedChannel κ} (hsel : r.selectRecvKey A byte = some c) :
    (c = r ∧ byte = epochByte (epochAt epoch e)) ∨
    (c = { r with recvKey := hd.keyOf (e + 1), recvEpoch := epochAt epoch (e + 1), recvSeq := 0 } ∧
      byte = epochByte (epochAt epoch (e + 1))) := by
  unfold selectRecvKey at hsel
  rw [h.epoch_eq, h.key_eq, hd.deriveForward_keyOf, ← epochAt_succ] at hsel
  split at hsel
  · rename_i hbyte
    exact .inl ⟨(Option.some.inj hsel).symm, hbyte⟩
  split at hsel
  · rename_i hbyte
    exact .inr ⟨(Option.some.inj hsel).symm, hbyte⟩
  · exact nomatch hsel

theorem ReceiverAt.receive_next (hA : A.Sound) (ht : 1 ≤ t) (h : ReceiverAt hd epoch t e s r)
    (hframe : headerSize ≤ frame.length) (hnext : Next t e s n) :
    ReceiverAt hd epoch t (n / t) (n % t + 1) (r.receive A (wireAt hd epoch t n frame)) ∧
    (r.receive A (wireAt hd epoch t n frame)).delivered = r.delivered ++ [frame] := by
  have hlt : n % t < t := Nat.mod_lt n (by omega)
  -- the channel with the right key in place and its counter at the frame's sequence
  obtain ⟨c, hsel, hkey, hepoch, hseq, hopen, hdel⟩ : ∃ c,
      r.selectRecvKey A (epochByte (epochAt epoch (n / t))) = some c ∧
      c.recvKey = hd.keyOf (n / t) ∧ c.recvEpoch = epochAt epoch (n / t) ∧
      c.recvSeq = UInt64.ofNat (n % t) ∧ c.closedFor = none ∧ c.delivered = r.delivered := by
    unfold selectRecvKey
    rw [h.epoch_eq, h.key_eq, hd.deriveForward_keyOf, ← epochAt_succ]
    rcases hnext with ⟨he, hs⟩ | ⟨he, hs⟩
    · rw [he, if_pos rfl]
      exact ⟨r, rfl, h.key_eq, h.epoch_eq, hs ▸ h.seq_eq, h.isOpen, rfl⟩
    have hne : epochByte (epochAt epoch (e + 1)) ≠ epochByte (epochAt epoch e) := by
      rw [epochAt_succ]
      exact epochByte_add_one_ne _
    rw [he, if_neg hne, if_pos rfl, hs]
    exact ⟨_, rfl, rfl, rfl, rfl, h.isOpen, rfl⟩
  have hopened : A.openBytes c.recvKey (makeNonce (epochByte (epochAt epoch (n / t))).toUInt32
      c.recvSeq) (frame.take headerSize) ((sealAt hd epoch t n frame).sealed A) =
      some (frame.drop headerSize) := by
    rw [hkey, hseq, epochByte_toUInt32]
    exact hA.open_sealBytes _ _ _ _
  have hstep : r.receive A (wireAt hd epoch t n frame) =
      { c with
        recvSeq := c.recvSeq + 1
        delivered := c.delivered ++ [frame.take headerSize ++ frame.drop headerSize] } := by
    rw [h.receive_wireAt hA hframe, hsel]
    show (match A.openBytes c.recvKey _ _ _ with | none => _ | some plain => _) = _
    rw [hopened]
  rw [hstep]
  refine ⟨⟨hkey, hepoch, ?_, hlt, hopen⟩, ?_⟩
  · show c.recvSeq + 1 = _
    rw [hseq, UInt64.ofNat_add]
    rfl
  · show c.delivered ++ _ = _
    rw [hdel, take_append_drop]

/-- A frame from any other position does not open, and the receiver closes for it. -/
theorem ReceiverAt.receive_other (hA : A.Sound) (hfree : A.CollisionFreeTo key last) (ht : 1 ≤ t)
    (htlt : t < 2 ^ 64) (h : ReceiverAt hd epoch t e s r) (he : e < last) (hn : n / t < last)
    (hframe : headerSize ≤ frame.length)
    (hunforged : A.UnforgedTo key last (sealAt hd epoch t n frame)) (hnext : ¬ Next t e s n) :
    (r.receive A (wireAt hd epoch t n frame)).closedFor.isSome := by
  have hlt : n % t < t := Nat.mod_lt n (by omega)
  have hsmall {k : Nat} (hk : k ≤ t) : (UInt64.ofNat k).toNat = k :=
    UInt64.toNat_ofNat_of_lt' (lt_of_le_of_lt hk htlt)
  rw [h.receive_wireAt hA hframe]
  cases hsel : r.selectRecvKey A (epochByte (epochAt epoch (n / t))) with
  | none => rfl
  | some c =>
    show (match A.openBytes c.recvKey _ _ _ with
      | none => c.handleProtocolClose .invalidMagic
      | some plain => _).closedFor.isSome
    cases hopen : A.openBytes c.recvKey
      (makeNonce (epochByte (epochAt epoch (n / t))).toUInt32 c.recvSeq)
      (frame.take headerSize) ((sealAt hd epoch t n frame).sealed A) with
    | none => rfl
    | some plain =>
      -- it would have to be opened with the key and the counter it was sealed with
      exfalso
      have hkeys : ∀ i ≤ last, c.recvKey = hd.keyOf i →
          i = n / t ∧ c.recvSeq = UInt64.ofNat (n % t) := by
        intro i hi hc
        obtain ⟨hkey, hnonce⟩ := hunforged i hi _ (hc ▸ hd.keyAt_eq i) _ _ _ hopen
        have hsame : hd.keyOf i = hd.keyOf (n / t) := hc.symm.trans hkey
        refine ⟨hfree i hi _ hn.le ?_, (makeNonce_inj.mp hnonce).2⟩
        rw [hd.keyAt_eq, hd.keyAt_eq, hsame]
      apply hnext
      rcases h.select hsel with ⟨rfl, -⟩ | ⟨rfl, -⟩
      · obtain ⟨hpos, hseq⟩ := hkeys e he.le h.key_eq
        have hcount := congrArg UInt64.toNat (h.seq_eq.symm.trans hseq)
        rw [hsmall h.seq_le, hsmall hlt.le] at hcount
        exact .inl ⟨hpos.symm, hcount.symm⟩
      obtain ⟨hpos, hseq⟩ := hkeys (e + 1) he rfl
      have hcount := congrArg UInt64.toNat hseq
      rw [hsmall hlt.le] at hcount
      exact .inr ⟨hpos.symm, hcount.symm⟩

/-! ## A whole run at the receiver -/

/-- Every frame of the run comes when the receiver, started at `(e, s)`, expects it. -/
def Follows (t : Nat) : Nat → Nat → List Nat → Prop
  | _, _, [] => True
  | e, s, n :: ns => Next t e s n ∧ Follows t (n / t) (n % t + 1) ns

theorem receiveAll_closed (h : r.closedFor.isSome) (frames : List Bytes) :
    r.receiveAll A frames = r := by
  induction frames with
  | nil => rfl
  | cons frame frames ih =>
    show receiveAll A (r.receive A frame) frames = r
    unfold receive
    rw [if_pos h]
    exact ih

/-- A run whose frames come in step is delivered, and the channel stays open. -/
theorem ReceiverAt.receiveAll_of_follows (hA : A.Sound) (ht : 1 ≤ t)
    (h : ReceiverAt hd epoch t e s r) (sent : List (Nat × Bytes))
    (hframes : ∀ x ∈ sent, headerSize ≤ x.2.length) (hfollows : Follows t e s (sent.map Prod.fst)) :
    (r.receiveAll A (sent.map fun x => wireAt hd epoch t x.1 x.2)).delivered =
        r.delivered ++ sent.map Prod.snd ∧
      (r.receiveAll A (sent.map fun x => wireAt hd epoch t x.1 x.2)).closedFor = none := by
  induction sent generalizing e s r with
  | nil => exact ⟨(append_nil _).symm, h.isOpen⟩
  | cons x sent ih =>
    obtain ⟨hframe, hrest⟩ := forall_mem_cons.mp hframes
    obtain ⟨hat, hdel⟩ := h.receive_next hA ht hframe hfollows.1
    have hall := ih hat hrest hfollows.2
    rw [hdel, append_assoc] at hall
    exact hall

/-- A channel that stays open has had its frames in step. -/
theorem ReceiverAt.follows_of_open (hA : A.Sound) (hfree : A.CollisionFreeTo key last) (ht : 1 ≤ t)
    (htlt : t < 2 ^ 64) (h : ReceiverAt hd epoch t e s r) (he : e < last)
    (sent : List (Nat × Bytes)) (hframes : ∀ x ∈ sent, headerSize ≤ x.2.length)
    (hlast : ∀ x ∈ sent, x.1 / t < last)
    (hunforged : ∀ x ∈ sent, A.UnforgedTo key last (sealAt hd epoch t x.1 x.2))
    (hopen : (r.receiveAll A (sent.map fun x => wireAt hd epoch t x.1 x.2)).closedFor = none) :
    Follows t e s (sent.map Prod.fst) := by
  induction sent generalizing e s r with
  | nil => trivial
  | cons x sent ih =>
    obtain ⟨hframe, hframes⟩ := forall_mem_cons.mp hframes
    obtain ⟨hx, hlast⟩ := forall_mem_cons.mp hlast
    obtain ⟨hsealed, hunforged⟩ := forall_mem_cons.mp hunforged
    by_cases hnext : Next t e s x.1
    · obtain ⟨hat, -⟩ := h.receive_next hA ht hframe hnext
      exact ⟨hnext, ih hat hx hframes hlast hunforged hopen⟩
    · have hclosed := h.receive_other hA hfree ht htlt he hx hframe hsealed hnext
      change (receiveAll A (r.receive A (wireAt hd epoch t x.1 x.2)) _).closedFor = none at hopen
      rw [receiveAll_closed hclosed] at hopen
      rw [hopen] at hclosed
      cases hclosed

end Receiver

/-! ## Which failures are harmless -/

/-- The seal of the `n`-th call succeeded. -/
def sealedAt (calls : List SendCall) (n : Nat) : Bool := (calls[n]?.map SendCall.sealOk).getD false

/-- No success is preceded by a failure in its epoch, nor, from the third on, by an epoch that does
not begin with one. -/
def Harmless (t : Nat) (calls : List SendCall) : Prop :=
  ∀ n < calls.length, sealedAt calls n = true →
    (n % t ≠ 0 → sealedAt calls (n - 1) = true) ∧
    (2 ≤ n / t → sealedAt calls ((n / t - 1) * t) = true)

instance (t : Nat) (calls : List SendCall) : Decidable (Harmless t calls) :=
  inferInstanceAs (Decidable (∀ n < calls.length, _ → _))

section Pattern

variable {t : Nat} {calls : List SendCall} {call : SendCall}

theorem lt_of_sealedAt {n : Nat} (h : sealedAt calls n = true) : n < calls.length := by
  by_contra hge
  unfold sealedAt at h
  rw [getElem?_eq_none (Nat.le_of_not_lt hge)] at h
  exact nomatch h

theorem sealedAt_concat_of_lt {n : Nat} (h : n < calls.length) :
    sealedAt (calls ++ [call]) n = sealedAt calls n := by
  unfold sealedAt
  rw [getElem?_append_left h]

theorem sealedAt_concat_length : sealedAt (calls ++ [call]) calls.length = call.sealOk := by
  unfold sealedAt
  rw [getElem?_concat_length]
  rfl

/-- What `Harmless` asks for a success at `n`. -/
def InStep (t : Nat) (calls : List SendCall) (n : Nat) : Prop :=
  (n % t ≠ 0 → sealedAt calls (n - 1) = true) ∧
    (2 ≤ n / t → sealedAt calls ((n / t - 1) * t) = true)

theorem inStep_concat (ht : 1 ≤ t) {n : Nat} (hn : n ≤ calls.length) :
    InStep t (calls ++ [call]) n ↔ InStep t calls n := by
  refine and_congr (imp_congr_right fun hmod => ?_) (imp_congr_right fun hdiv => ?_)
  · have hpos : n ≠ 0 := fun h => hmod (by rw [h, Nat.zero_mod])
    rw [sealedAt_concat_of_lt (by omega)]
  have hle : n / t * t ≤ n := Nat.div_mul_le_self n t
  have hmul : (n / t - 1 + 1) * t = n / t * t := by rw [Nat.sub_add_cancel (by omega)]
  rw [Nat.add_mul] at hmul
  rw [sealedAt_concat_of_lt (by omega)]

/-- The pattern grows by one call: only a success adds a condition, about calls before it. -/
theorem harmless_concat (ht : 1 ≤ t) :
    Harmless t (calls ++ [call]) ↔
      Harmless t calls ∧ (call.sealOk = true → InStep t calls calls.length) := by
  constructor
  · intro h
    constructor
    · intro n hn hsealed
      apply (inStep_concat ht hn.le).mp
      exact h n (by rw [length_append]; omega) (by rw [sealedAt_concat_of_lt hn]; exact hsealed)
    · intro hok
      apply (inStep_concat ht le_rfl).mp
      exact h calls.length (by simp) (by rw [sealedAt_concat_length]; exact hok)
  rintro ⟨h, hlast⟩ n hn hsealed
  rw [length_append] at hn
  apply (inStep_concat ht (Nat.lt_succ_iff.mp hn)).mpr
  rcases Nat.lt_or_eq_of_le (Nat.lt_succ_iff.mp hn) with hlt | rfl
  · rw [sealedAt_concat_of_lt hlt] at hsealed
    exact h n hlt hsealed
  · rw [sealedAt_concat_length] at hsealed
    exact hlast hsealed

/-- In a harmless pattern an epoch with any success begins with one. -/
theorem Harmless.first_of_epoch (h : Harmless t calls) {m : Nat}
    (hm : sealedAt calls m) : sealedAt calls (m / t * t) := by
  induction m with
  | zero =>
    rw [Nat.zero_div, Nat.zero_mul]
    exact hm
  | succ m ih =>
    have hmod : (m + 1) / t * t + (m + 1) % t = m + 1 := Nat.div_add_mod' _ t
    by_cases hzero : (m + 1) % t = 0
    · rw [hzero, add_zero] at hmod
      rw [hmod]
      exact hm
    have hprev := (h (m + 1) (lt_of_sealedAt hm) hm).1 hzero
    have hsame : (m + 1) / t = m / t := by
      rw [Nat.succ_div, if_neg (fun hdvd => hzero (Nat.mod_eq_zero_of_dvd hdvd)), add_zero]
    rw [hsame]
    exact ih hprev

theorem successes_concat (hheader : ∀ c ∈ calls, headerSize ≤ c.frame.length)
    (hcall : headerSize ≤ call.frame.length) (n : Nat) :
    successes n (calls ++ [call]) =
      successes n calls ++ (if call.sealOk then [(n + calls.length, call.frame)] else []) := by
  induction calls generalizing n with
  | nil =>
    have hc : ¬ call.frame.length < headerSize := not_lt.mpr hcall
    simp only [nil_append, successes, if_neg hc]
    cases call.sealOk <;> rfl
  | cons c calls ih =>
    have hc : ¬ c.frame.length < headerSize := not_lt.mpr (hheader c mem_cons_self)
    have hrest := ih (fun x hx => hheader x (mem_cons_of_mem _ hx)) (n + 1)
    rw [cons_append, successes, successes, if_neg hc, if_neg hc, hrest,
      add_assoc, add_comm 1 calls.length]
    cases c.sealOk <;> rfl

/-- Where a receiver that has followed `ns` stands. -/
def position (t : Nat) (e s : Nat) (ns : List Nat) : Nat × Nat :=
  ns.foldl (fun _ n => (n / t, n % t + 1)) (e, s)

theorem follows_concat {e s n : Nat} {ns : List Nat} :
    Follows t e s (ns ++ [n]) ↔
      Follows t e s ns ∧ Next t (position t e s ns).1 (position t e s ns).2 n := by
  induction ns generalizing e s with
  | nil => simp [Follows, position]
  | cons m ns ih =>
    show Next t e s m ∧ Follows t (m / t) (m % t + 1) (ns ++ [n]) ↔
      (Next t e s m ∧ Follows t (m / t) (m % t + 1) ns) ∧
        Next t (position t (m / t) (m % t + 1) ns).1 (position t (m / t) (m % t + 1) ns).2 n
    rw [ih, and_assoc]

theorem position_successes (hheader : ∀ c ∈ calls, headerSize ≤ c.frame.length) :
    (position t 0 0 ((successes 0 calls).map Prod.fst) = (0, 0) ∧ ∀ n, sealedAt calls n = false) ∨
    ∃ m, position t 0 0 ((successes 0 calls).map Prod.fst) = (m / t, m % t + 1) ∧
      sealedAt calls m = true ∧ ∀ n, sealedAt calls n = true → n ≤ m := by
  induction calls using reverseRecOn with
  | nil => exact .inl ⟨rfl, fun _ => rfl⟩
  | append_singleton calls call ih =>
    have hcalls : ∀ c ∈ calls, headerSize ≤ c.frame.length :=
      fun c hc => hheader c (mem_append_left _ hc)
    rw [successes_concat hcalls (hheader call (by simp))]
    cases hok : call.sealOk with
    | true =>
      refine .inr ⟨calls.length, ?_, ?_, ?_⟩
      · simp [position]
      · rw [sealedAt_concat_length]
        exact hok
      intro n hn
      have hlt := lt_of_sealedAt hn
      rw [length_append, length_singleton] at hlt
      omega
    | false =>
      simp only [Bool.false_eq_true, if_false, append_nil]
      -- a failed seal adds no success
      have hsame : ∀ n, sealedAt (calls ++ [call]) n = true → sealedAt calls n = true := by
        intro n hn
        have hlt := lt_of_sealedAt hn
        rw [length_append] at hlt
        rcases Nat.lt_or_eq_of_le (Nat.lt_succ_iff.mp hlt) with hlt' | rfl
        · rwa [sealedAt_concat_of_lt hlt'] at hn
        · rw [sealedAt_concat_length, hok] at hn
          exact nomatch hn
      rcases ih hcalls with ⟨hpos, hnone⟩ | ⟨m, hpos, hm, hmax⟩
      · refine .inl ⟨hpos, fun n => ?_⟩
        rw [Bool.eq_false_iff]
        intro hn
        have hbefore := hsame n hn
        rw [hnone n] at hbefore
        exact nomatch hbefore
      · refine .inr ⟨m, hpos, ?_, fun n hn => hmax n (hsame n hn)⟩
        rw [sealedAt_concat_of_lt (lt_of_sealedAt hm)]
        exact hm

/-- In a harmless pattern, a further success is in step exactly when it keeps the pattern
harmless. -/
theorem Harmless.next_iff (h : Harmless t calls) (ht : 1 ≤ t)
    (hheader : ∀ c ∈ calls, headerSize ≤ c.frame.length) :
    Next t (position t 0 0 ((successes 0 calls).map Prod.fst)).1
        (position t 0 0 ((successes 0 calls).map Prod.fst)).2 calls.length ↔
      InStep t calls calls.length := by
  have hmod : calls.length / t * t + calls.length % t = calls.length := Nat.div_add_mod' _ t
  have hlt : calls.length % t < t := Nat.mod_lt _ (by omega)
  unfold Next InStep
  generalize hk : calls.length / t = k at *
  generalize hq : calls.length % t = q at *
  rcases position_successes (t := t) hheader with ⟨hpos, hnone⟩ | ⟨m, hpos, hm, hmax⟩
  · -- nothing has been sent: only the first frame of one of the first two epochs is in step
    rw [hpos, hnone, hnone]
    simp only [Bool.false_eq_true, imp_false]
    omega
  rw [hpos]
  dsimp only
  have hmlt := lt_of_sealedAt hm
  have hmm : m / t * t + m % t = m := Nat.div_add_mod' m t
  have hml : m % t < t := Nat.mod_lt m (by omega)
  constructor
  · rintro (⟨he, hs⟩ | ⟨he, hs⟩)
    · -- the same epoch: the last success is the call just before
      have heq : m = calls.length - 1 := by
        rw [he] at hmod
        omega
      refine ⟨fun _ => heq ▸ hm, fun htwo => ?_⟩
      rw [he] at htwo ⊢
      exact (h m hmlt hm).2 htwo
    · -- the next epoch: the last success lies in the one before, which begins with a success
      refine ⟨fun hne => absurd hs hne, fun _ => ?_⟩
      rw [he, Nat.add_sub_cancel]
      exact h.first_of_epoch hm
  rintro ⟨hprev, hepoch⟩
  by_cases hzero : q = 0
  · subst hzero
    have hklt : m / t < k := by
      rw [Nat.div_lt_iff_lt_mul (by omega)]
      omega
    by_cases htwo : 2 ≤ k
    · have hlow := hmax _ (hepoch htwo)
      have hge : k - 1 ≤ m / t := (Nat.le_div_iff_mul_le (by omega)).mpr hlow
      omega
    · clear hmm
      generalize m / t = j at *
      omega
  · left
    have heq : m = calls.length - 1 := by
      have := hmax _ (hprev hzero)
      omega
    have hn : calls.length - 1 = t * k + (q - 1) := by
      rw [mul_comm]
      omega
    rw [heq, hn, Nat.mul_add_div (by omega), Nat.mul_add_mod, Nat.div_eq_of_lt (by omega),
      Nat.mod_eq_of_lt (by omega)]
    omega

/-- **The positions of the successes are in step exactly when the failures are harmless.** -/
theorem follows_iff_harmless (ht : 1 ≤ t)
    (hheader : ∀ c ∈ calls, headerSize ≤ c.frame.length) :
    Follows t 0 0 ((successes 0 calls).map Prod.fst) ↔ Harmless t calls := by
  induction calls using reverseRecOn with
  | nil => exact iff_of_true trivial (fun n hn => absurd hn (Nat.not_lt_zero n))
  | append_singleton calls call ih =>
    have hcalls : ∀ c ∈ calls, headerSize ≤ c.frame.length :=
      fun c hc => hheader c (mem_append_left _ hc)
    have hsofar := ih hcalls
    rw [successes_concat hcalls (hheader call (by simp)), zero_add, harmless_concat ht]
    cases call.sealOk with
    | false =>
      simp only [Bool.false_eq_true, if_false, append_nil, false_implies, and_true]
      exact hsofar
    | true =>
      simp only [if_true, map_append, map_cons, map_nil, true_implies]
      rw [follows_concat, hsofar]
      apply and_congr_right
      intro hharmless
      exact hharmless.next_iff ht hcalls

end Pattern

/-! ## The two ends of a stream -/

theorem map_snd_successes {calls : List SendCall}
    (hheader : ∀ c ∈ calls, headerSize ≤ c.frame.length) (n : Nat) :
    (successes n calls).map Prod.snd = (calls.filter SendCall.sealOk).map SendCall.frame := by
  induction calls generalizing n with
  | nil => rfl
  | cons c calls ih =>
    have hc : ¬ c.frame.length < headerSize := not_lt.mpr (hheader c mem_cons_self)
    have hrest := ih (fun x hx => hheader x (mem_cons_of_mem _ hx)) (n + 1)
    rw [successes, if_neg hc]
    cases hok : c.sealOk with
    | false | true => simp [hok, hrest]

/-- Of what `sender` put on the wire for `calls`, `peer` has delivered exactly the frames whose seal
succeeded, and has not closed. -/
def InSync (A : Aead κ) (sender peer : AuthenticatedChannel κ) (calls : List SendCall) : Prop :=
  (peer.receiveAll A (sender.sendAll A calls).wire).delivered =
    (calls.filter SendCall.sealOk).map SendCall.frame ∧
  (peer.receiveAll A (sender.sendAll A calls).wire).closedFor = none

instance [DecidableEq κ] (A : Aead κ) (sender peer : AuthenticatedChannel κ)
    (calls : List SendCall) : Decidable (InSync A sender peer calls) :=
  inferInstanceAs (Decidable (_ ∧ _))

/-- **The two ends stay in step exactly when the failed seals are harmless.** For any keys, initial
epoch, threshold and list of header-on frames: if no failure precedes a success in its own epoch and
no epoch is passed over, the peer delivers the frames whose seal succeeded, byte for byte and in
order, without a protocol close; and only then, if the keys of the run are distinct and its texts
open with no other of them. -/
theorem AuthenticatedChannel.inSync_iff_harmless {A : Aead κ} (hA : A.Sound)
    {keys : DerivedKeys κ} (hderives : A.Derives keys.kSend) (epoch : UInt32) (threshold : UInt64)
    (hthreshold : 1 ≤ threshold) (calls : List SendCall)
    (hheader : ∀ call ∈ calls, headerSize ≤ call.frame.length) :
    let last := calls.length / threshold.toNat + 1
    (Harmless threshold.toNat calls →
      InSync A (new keys epoch threshold) (new keys.flip epoch threshold) calls) ∧
    (A.CollisionFreeTo keys.kSend last →
      (∀ record ∈ ((new keys epoch threshold).sendAll A calls).sealed,
        A.UnforgedTo keys.kSend last record) →
      InSync A (new keys epoch threshold) (new keys.flip epoch threshold) calls →
      Harmless threshold.toNat calls) := by
  intro last
  have ht : 1 ≤ threshold.toNat := UInt64.le_iff_toNat_le.mp hthreshold
  obtain ⟨hwire, hsealed⟩ := (senderAt_new hderives epoch threshold).sendAll ht calls
  have hpeer : ReceiverAt hderives epoch threshold.toNat 0 0 (new keys.flip epoch threshold) :=
    ⟨hderives.keyOf_zero.symm, (epochAt_zero epoch).symm, rfl, Nat.zero_le _, rfl⟩
  have hframes : ∀ x ∈ successes 0 calls, headerSize ≤ x.2.length := by
    intro x hx
    have hmem := List.mem_map_of_mem (f := Prod.snd) hx
    rw [map_snd_successes hheader] at hmem
    obtain ⟨call, hcall, hframe⟩ := List.mem_map.mp hmem
    rw [← hframe]
    exact hheader call (List.mem_filter.mp hcall).1
  unfold InSync
  rw [hwire, ← map_snd_successes hheader 0, ← follows_iff_harmless ht hheader]
  refine ⟨fun hfollows => ?_, fun hfree hunforged hsync => ?_⟩
  · exact hpeer.receiveAll_of_follows hA ht _ hframes hfollows
  refine hpeer.follows_of_open hA hfree ht threshold.toNat_lt (Nat.succ_pos _) _ hframes ?_ ?_ hsync.2
  · intro x hx
    have hlt : x.1 < 0 + headerOn calls := lt_of_mem_successes hx
    have hle : headerOn calls ≤ calls.length := countP_le_length
    exact Nat.lt_succ_of_le (Nat.div_le_div_right (by omega))
  · intro x hx
    apply hunforged
    rw [hsealed]
    exact List.mem_append_right _ (List.mem_map_of_mem hx)

/-- A header-on frame with a payload of `n` bytes. -/
def plainFrame (n : Nat) : Bytes := replicate (headerSize + n) 7

/-- Four sends under a threshold of two: the failed seal ends the first epoch. -/
def failureAtEpochEnd : List SendCall :=
  [⟨plainFrame 1, true⟩, ⟨plainFrame 2, false⟩, ⟨plainFrame 3, true⟩, ⟨plainFrame 4, true⟩]

theorem inSync_despite_failure :
    Harmless 2 failureAtEpochEnd ∧
    (InSync stampCipher (.new ⟨5, 9⟩ 255 2) (.new ⟨9, 5⟩ 255 2) failureAtEpochEnd ↔
      Harmless 2 failureAtEpochEnd) := by
  have hrecords : ∀ record ∈ ((AuthenticatedChannel.new (⟨5, 9⟩ : DerivedKeys Nat) 255 2).sendAll
      stampCipher failureAtEpochEnd).sealed,
      record.key < 2 ^ 32 - 2 ∧ record.nonce.length = kAeadNonceLen := by decide +kernel
  obtain ⟨hsync, hharmless⟩ := @AuthenticatedChannel.inSync_iff_harmless Nat stampCipher
    stampCipher_sound ⟨5, 9⟩ (stampCipher_derives 5) 255 2 (by decide) failureAtEpochEnd (by decide)
  refine ⟨by decide, hharmless (fun i _ j _ h => ?_) (fun record hmem => ?_), hsync⟩
  · rw [stampCipher_keyAt, stampCipher_keyAt, Option.some.injEq] at h
    omega
  · obtain ⟨hkey, hnonce⟩ := hrecords record hmem
    exact fun _ _ k _ _ _ plain hopen => stampCipher_unforged hkey hnonce k _ plain hopen

/-- One failed seal in the middle of an epoch, and the peer closes at the next frame: it delivers
the first frame only. -/
theorem failed_seal_breaks_sync :
    ¬ InSync stampCipher (.new ⟨5, 9⟩) (.new ⟨9, 5⟩)
      [⟨plainFrame 1, true⟩, ⟨plainFrame 2, false⟩, ⟨plainFrame 3, true⟩] := by
  decide +kernel

end Plexus.Crypto
