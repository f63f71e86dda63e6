/-
# Plexus.Crypto.KeyUsage — how often a key seals, and whether a nonce comes back under it.

`k_rekey_message_threshold` is "the per-direction message count at which the channel MUST rekey".
The stream path does: its `n`-th seal runs at chain position `n / threshold` under sequence `n %
threshold`, so a key seals at most `threshold` texts and no nonce returns. The datagram path seals
every frame under its first key, and keeps to the bound only while it is young.
-/
import Mathlib.Data.List.Nodup
import Mathlib.Data.List.Perm.Subperm
import Plexus.Crypto.DatagramAead
import Plexus.Crypto.StreamAead

namespace Plexus.Crypto

open Wire DatagramAuthenticatedChannel List

variable {κ : Type} [DecidableEq κ]

/-- No (key, nonce) pair seals twice, and no key seals more than `limit` texts. -/
def KeyUsage (limit : Nat) (log : List (SealRecord κ)) : Prop :=
  (log.map fun r => (r.key, r.nonce)).Nodup ∧ ∀ key, log.countP (fun r => r.key = key) ≤ limit

/-! ## The numbers of the sealed frames -/

omit [DecidableEq κ] in
theorem successes_increasing (n : Nat) (calls : List SendCall) :
    ((successes n calls).map Prod.fst).Pairwise (· < ·) ∧
    ∀ x ∈ successes n calls, n ≤ x.1 := by
  induction calls generalizing n with
  | nil => exact ⟨.nil, forall_mem_nil _⟩
  | cons call calls ih =>
    obtain ⟨hrest, hge⟩ := ih (n + 1)
    rw [successes]
    split
    · exact ih n
    split
    · exact ⟨hrest, fun x hx => Nat.le_of_succ_le (hge x hx)⟩
    constructor
    · rw [map_cons, pairwise_cons]
      refine ⟨?_, hrest⟩
      intro m hm
      obtain ⟨x, hx, rfl⟩ := mem_map.mp hm
      exact hge x hx
    · intro x hx
      rcases mem_cons.mp hx with rfl | hx
      · exact Nat.le_refl n
      · exact Nat.le_of_succ_le (hge x hx)

variable {calls : List SendCall}

theorem length_successes_le (n : Nat) (calls : List SendCall) :
    (successes n calls).length ≤ headerOn calls := by
  induction calls generalizing n with
  | nil => exact Nat.le_refl 0
  | cons call calls ih =>
    unfold headerOn at ih ⊢
    rw [successes]
    split
    · rename_i hshort
      rw [countP_cons_of_neg (by simpa using hshort)]
      exact ih n
    rename_i hlong
    rw [countP_cons_of_pos (by simpa using hlong)]
    have hrest := ih (n + 1)
    split
    · omega
    · rw [length_cons]
      omega

theorem length_successes_of_sealOk (hok : ∀ c ∈ calls, c.sealOk = true)
    (n : Nat) : (successes n calls).length = headerOn calls := by
  induction calls generalizing n with
  | nil => rfl
  | cons call calls ih =>
    have hrest := fun n => ih (fun c hc => hok c (mem_cons_of_mem _ hc)) n
    unfold headerOn at hrest ⊢
    rw [successes]
    split
    · rename_i hshort
      rw [countP_cons_of_neg (by simpa using hshort)]
      exact hrest n
    · rename_i hlong
      rw [countP_cons_of_pos (by simpa using hlong), hok call mem_cons_self,
        if_neg (by decide), length_cons, hrest (n + 1)]

theorem countP_le_of_interval {sent : List (Nat × Bytes)}
    (hnodup : (sent.map Prod.fst).Nodup) {p : Nat × Bytes → Bool} (low : Nat) {t : Nat}
    (hp : ∀ x ∈ sent, p x = true → low ≤ x.1 ∧ x.1 < low + t) : sent.countP p ≤ t := by
  rw [countP_eq_length_filter]
  have hsub : ((sent.filter p).map Prod.fst) ⊆ range' low t := by
    intro m hm
    obtain ⟨x, hx, rfl⟩ := mem_map.mp hm
    obtain ⟨hmem, hpx⟩ := mem_filter.mp hx
    obtain ⟨hlow, hhigh⟩ := hp x hmem hpx
    rw [mem_range'_1]
    exact ⟨hlow, hhigh⟩
  have hdistinct : ((sent.filter p).map Prod.fst).Nodup := hnodup.sublist (.map _ filter_sublist)
  have hle := (subperm_of_subset hdistinct hsub).length_le
  rwa [length_map, length_range'] at hle

/-! ## The stream -/

theorem stream_keyUsage {A : Aead κ} {keys : DerivedKeys κ} (hd : A.Derives keys.kSend)
    (hfree : A.CollisionFree keys.kSend) (epoch : UInt32) {threshold : UInt64}
    (ht : 1 ≤ threshold.toNat) (calls : List SendCall) :
    KeyUsage threshold.toNat
      ((AuthenticatedChannel.new keys epoch threshold).sendAll A calls).sealed := by
  obtain ⟨-, hsealed⟩ := (senderAt_new hd epoch threshold).sendAll ht calls
  have hincreasing := (successes_increasing 0 calls).1
  have hnodup : ((successes 0 calls).map Prod.fst).Nodup := hincreasing.imp ne_of_lt
  have hlog : ((AuthenticatedChannel.new keys epoch threshold).sendAll A calls).sealed =
      (successes 0 calls).map fun x => sealAt hd epoch threshold.toNat x.1 x.2 :=
    hsealed.trans (nil_append _)
  -- key and nonce give back the position, and the position the number
  have hinj {m n : Nat} {x y : Bytes}
      (hkey : (sealAt hd epoch threshold.toNat m x).key = (sealAt hd epoch threshold.toNat n y).key)
      (hnonce : (sealAt hd epoch threshold.toNat m x).nonce =
        (sealAt hd epoch threshold.toNat n y).nonce) : m = n := by
    have hdiv : m / threshold.toNat = n / threshold.toNat := hd.keyOf_inj hfree hkey
    have hmod := congrArg UInt64.toNat (makeNonce_inj.mp hnonce).2
    have hlt {k : Nat} : k % threshold.toNat < 2 ^ 64 :=
      lt_trans (Nat.mod_lt k ht) threshold.toNat_lt
    rw [UInt64.toNat_ofNat_of_lt' hlt, UInt64.toNat_ofNat_of_lt' hlt] at hmod
    rw [← Nat.div_add_mod m threshold.toNat, ← Nat.div_add_mod n threshold.toNat, hdiv, hmod]
  rw [hlog]
  constructor
  · rw [map_map]
    show ((successes 0 calls).map _).Pairwise _
    rw [pairwise_map]
    rw [pairwise_map] at hincreasing
    apply hincreasing.imp
    intro x y hlt heq
    obtain ⟨hkey, hnonce⟩ := Prod.mk.inj heq
    exact absurd (hinj hkey hnonce) (ne_of_lt hlt)
  intro key
  rw [countP_map]
  by_cases hpos : ∃ k, hd.keyOf k = key
  · obtain ⟨k, rfl⟩ := hpos
    -- the numbers at chain position `k` are `k * t, …, k * t + t - 1`
    apply countP_le_of_interval hnodup (k * threshold.toNat)
    intro x _ hx
    have hdiv : x.1 / threshold.toNat = k := hd.keyOf_inj hfree (of_decide_eq_true hx)
    have hsplit := Nat.div_add_mod' x.1 threshold.toNat
    have hlt := Nat.mod_lt x.1 (show 0 < threshold.toNat from ht)
    rw [hdiv] at hsplit
    omega
  · have hzero : (successes 0 calls).countP ((fun r : SealRecord κ => decide (r.key = key)) ∘
        fun x => sealAt hd epoch threshold.toNat x.1 x.2) = 0 := by
      rw [countP_eq_zero]
      intro x _ hx
      exact hpos ⟨_, of_decide_eq_true hx⟩
    rw [hzero]
    exact Nat.zero_le _

/-- A threshold of zero rekeys before every seal, so that each key seals one text too many. -/
theorem stream_keyUsage_zero (A : Aead κ) (keys : DerivedKeys κ) (epoch : UInt32) :
    ¬ KeyUsage 0 ((AuthenticatedChannel.new keys epoch 0).sendAll A
      [⟨replicate headerSize 0, true⟩]).sealed := by
  intro h
  let c := (AuthenticatedChannel.new keys epoch 0).beforeSeal A
  have hnone := h.2 c.sendKey
  have hlog : ((AuthenticatedChannel.new keys epoch 0).sendAll A
      [⟨replicate headerSize 0, true⟩]).sealed = c.sealed ++ [c.sealCall (replicate headerSize 0)] :=
    rfl
  rw [hlog] at hnone
  simp [AuthenticatedChannel.sealCall] at hnone

/-! ## The datagram channel -/

/-- The `seal` call of the `n`-th header-on frame: the first key, and a counter that only wraps. -/
def datagramSealAt (key : κ) (epoch : UInt32) (n : Nat) (frame : Bytes) : SealRecord κ :=
  { key := key
    nonce := makeNonce (epoch &&& 0xff) (UInt64.ofNat n)
    header := frame.take headerSize
    payload := frame.drop headerSize }

omit [DecidableEq κ] in
theorem datagram_sealed_sendAll (A : Aead κ) {c : DatagramAuthenticatedChannel κ} {n : Nat}
    (hseq : c.sendSeq = UInt64.ofNat n) (calls : List SendCall) :
    (c.sendAll A calls).sealed = c.sealed ++
      (successes n calls).map fun x => datagramSealAt c.sendKey c.sendEpoch x.1 x.2 := by
  induction calls generalizing n c with
  | nil => simp [sendAll, successes]
  | cons call calls ih =>
    show (sendAll A (c.datagramSend A call) calls).sealed = _
    have hnext : c.sendSeq + 1 = UInt64.ofNat (n + 1) := by
      rw [hseq, UInt64.ofNat_add]
      rfl
    rw [successes]
    unfold datagramSend
    split
    · exact ih hseq
    split
    · exact ih hnext
    rw [ih hnext]
    have hcall : c.sealCall call.frame = datagramSealAt c.sendKey c.sendEpoch n call.frame := by
      unfold sealCall datagramSealAt
      rw [hseq]
    show c.sealed ++ [c.sealCall call.frame] ++ _ = _
    rw [hcall, append_assoc]
    rfl

section Datagram

variable {A : Aead κ} (keys : DerivedKeys κ) (epoch : UInt32)

omit [DecidableEq κ] in
theorem datagram_log (calls : List SendCall) :
    ((new keys epoch).sendAll A calls).sealed =
      (successes 0 calls).map fun x => datagramSealAt keys.kSend epoch x.1 x.2 :=
  (datagram_sealed_sendAll A rfl calls).trans (nil_append _)

theorem datagram_countP (calls : List SendCall) :
    ((new keys epoch).sendAll A calls).sealed.countP
      (fun r => r.key = keys.kSend) = (successes 0 calls).length := by
  rw [datagram_log, countP_map, countP_eq_length]
  intro x _
  exact decide_eq_true rfl

theorem datagram_keyUsage
    (hyoung : headerOn calls ≤ kRekeyMessageThreshold.toNat) :
    KeyUsage kRekeyMessageThreshold.toNat
      ((new keys epoch).sendAll A calls).sealed := by
  have hbound : kRekeyMessageThreshold.toNat < 2 ^ 64 := kRekeyMessageThreshold.toNat_lt
  rw [datagram_log]
  constructor
  · rw [map_map]
    show ((successes 0 calls).map _).Pairwise _
    have hincreasing := (successes_increasing 0 calls).1
    rw [pairwise_map] at hincreasing ⊢
    apply hincreasing.imp_of_mem
    intro x y hx hy hlt heq
    -- the counter has not wrapped, so equal nonces mean equal numbers
    have hseq := congrArg UInt64.toNat (makeNonce_inj.mp (Prod.mk.inj heq).2).2
    have hx' : x.1 < 2 ^ 64 := by
      have := lt_of_mem_successes hx
      omega
    have hy' : y.1 < 2 ^ 64 := by
      have := lt_of_mem_successes hy
      omega
    rw [UInt64.toNat_ofNat_of_lt' hx', UInt64.toNat_ofNat_of_lt' hy'] at hseq
    omega
  · intro key
    calc ((successes 0 calls).map fun x => datagramSealAt keys.kSend epoch x.1 x.2).countP _
        ≤ ((successes 0 calls).map fun x => datagramSealAt keys.kSend epoch x.1 x.2).length :=
          countP_le_length
      _ = (successes 0 calls).length := length_map _
      _ ≤ headerOn calls := length_successes_le 0 calls
      _ ≤ kRekeyMessageThreshold.toNat := hyoung

end Datagram

/-! ## Both channels -/

/-- **Key usage.** The stream channel keeps every run to its threshold exactly when that threshold
is at least one. The datagram channel keeps to the default threshold as long as no more header-on
frames than that are sent on it, and where every seal succeeds no longer than that. -/
theorem keyUsage_bounded {A : Aead κ} (keys : DerivedKeys κ) (hderives : A.Derives keys.kSend)
    (hfree : A.CollisionFree keys.kSend) (epoch : UInt32) :
    (∀ threshold : UInt64,
      (∀ calls, KeyUsage threshold.toNat
        ((AuthenticatedChannel.new keys epoch threshold).sendAll A calls).sealed) ↔
      1 ≤ threshold) ∧
    (∀ calls, headerOn calls ≤ kRekeyMessageThreshold.toNat →
      KeyUsage kRekeyMessageThreshold.toNat
        ((DatagramAuthenticatedChannel.new keys epoch).sendAll A calls).sealed) ∧
    (∀ calls, (∀ call ∈ calls, call.sealOk = true) →
      (KeyUsage kRekeyMessageThreshold.toNat
        ((DatagramAuthenticatedChannel.new keys epoch).sendAll A calls).sealed ↔
      headerOn calls ≤ kRekeyMessageThreshold.toNat)) := by
  refine ⟨?_, fun calls hyoung => datagram_keyUsage keys epoch hyoung, ?_⟩
  · intro threshold
    constructor
    · intro h
      by_contra hzero
      have hthreshold : threshold = 0 := UInt64.toNat_inj.mp (Nat.lt_one_iff.mp (Nat.lt_of_not_le hzero))
      subst hthreshold
      exact stream_keyUsage_zero A keys epoch (h _)
    · intro h calls
      exact stream_keyUsage hderives hfree epoch (UInt64.le_iff_toNat_le.mp h) calls
  · intro calls hok
    constructor
    · intro h
      have hcount := h.2 keys.kSend
      rwa [datagram_countP, length_successes_of_sealOk hok] at hcount
    · exact datagram_keyUsage keys epoch

/-- A stream that rekeys every second frame from an epoch about to wrap, and a young datagram
channel. -/
theorem keyUsage_bounded_stamped :
    (∀ calls, KeyUsage 2 ((AuthenticatedChannel.new ⟨5, 9⟩ 255 2).sendAll stampCipher calls).sealed) ∧
    KeyUsage kRekeyMessageThreshold.toNat ((DatagramAuthenticatedChannel.new ⟨5, 9⟩ 255).sendAll
      stampCipher [⟨List.replicate headerSize 0, true⟩, ⟨List.replicate headerSize 1, true⟩]).sealed :=
  have h := keyUsage_bounded ⟨5, 9⟩ (stampCipher_derives 5) (stampCipher_collisionFree 5) 255
  ⟨(h.1 2).mpr (by decide), h.2.1 _ (by decide)⟩

/-- One frame more than the threshold. -/
def oneTooMany : List SendCall :=
  .replicate (kRekeyMessageThreshold.toNat + 1) ⟨.replicate headerSize 0, true⟩

/-- The datagram channel's only key seals them all. -/
theorem datagram_key_overused :
    ¬ KeyUsage kRekeyMessageThreshold.toNat
      ((DatagramAuthenticatedChannel.new (⟨5, 9⟩ : DerivedKeys Nat)).sendAll stampCipher
        oneTooMany).sealed := by
  intro h
  have hcount := h.2 5
  have hok : ∀ call ∈ oneTooMany, call.sealOk = true := by
    intro call hcall
    rw [List.eq_of_mem_replicate hcall]
  have hlong : headerOn oneTooMany = kRekeyMessageThreshold.toNat + 1 := by
    rw [headerOn, oneTooMany, List.countP_replicate, if_pos (by decide)]
  have hused := datagram_countP (A := stampCipher) (⟨5, 9⟩ : DerivedKeys Nat) 0 oneTooMany
  rw [length_successes_of_sealOk hok] at hused
  have habs := hused.symm.trans_le hcount
  omega

end Plexus.Crypto
