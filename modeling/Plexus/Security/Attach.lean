/-
# Plexus.Security.Attach — the facts of an attach and the proof over them.

`io/security/attach_facts.h`, `io/security/attach_policy.h`, `io/security_seam.h`,
`io/detail/attach_resolve.h`, `io/attach_negotiator.h` and the handshake messages of
`wire/handshake.h`.

Each side fills its `AttachFacts` from the frame it received and its own nonce; the responder proves
over its facts as the dialer will see them (`responseProof`), the dialer recomputes. What is proved
is a byte string that determines role, ids, nonces and transcript digest (`attachProofInput_inj`).

The transcript hash and the keyed MAC are the two functions of `Crypto`, each with the failure its
seam allows. Proofs are values of an abstract type `π`, so that a MAC without collisions can be
assumed without contradiction.
-/
import Mathlib.Data.List.Basic
import Plexus.Wire.Cursor

namespace Plexus.Security

abbrev NodeId := Vector UInt8 16
abbrev Nonce := Vector UInt8 16
abbrev KeyId := Vector UInt8 8
abbrev Digest := Vector UInt8 32

/-- An unset array. -/
def zeroed (n : Nat) : Vector UInt8 n := Vector.replicate n 0

/-- The injected primitives: the transcript hash and the MAC, and the proof field as it is before
anything was written to it. -/
structure Crypto (π : Type) where
  transcript : Bytes → Option Digest
  hmac : Bytes → Bytes → Option π
  noProof : π

/-! ## `io/security/attach_facts.h` -/

inductive AttachRole
  | initiator | responder
  deriving DecidableEq

def AttachRole.byte : AttachRole → UInt8
  | .initiator => 0
  | .responder => 1

/-- What both sides bind into the proof. -/
structure AttachFacts (π : Type) where
  keyId : KeyId := zeroed 8
  initiatorId : NodeId := zeroed 16
  responderId : NodeId := zeroed 16
  peerNonce : Nonce := zeroed 16
  ownNonce : Nonce := zeroed 16
  transcriptDigest : Digest := zeroed 32
  role : AttachRole := .initiator
  proof : π
  deriving DecidableEq

/-- The label spells `plexus-attach`. -/
def proofLabel : Bytes :=
  [0x70, 0x6c, 0x65, 0x78, 0x75, 0x73, 0x2d, 0x61, 0x74, 0x74, 0x61, 0x63, 0x68]

variable {π : Type}

def attachProofInput (f : AttachFacts π) : Bytes :=
  proofLabel ++ [f.role.byte] ++ f.initiatorId.toList ++ f.responderId.toList ++ f.peerNonce.toList ++
    f.ownNonce.toList ++ f.transcriptDigest.toList

/-- The two facts agree in everything a proof covers. -/
structure AttachFacts.SameAttach (f g : AttachFacts π) : Prop where
  role : f.role = g.role
  initiatorId : f.initiatorId = g.initiatorId
  responderId : f.responderId = g.responderId
  peerNonce : f.peerNonce = g.peerNonce
  ownNonce : f.ownNonce = g.ownNonce
  transcriptDigest : f.transcriptDigest = g.transcriptDigest

theorem AttachRole.byte_injective {a b : AttachRole} (h : a.byte = b.byte) : a = b := by
  cases a <;> cases b <;> first | rfl | cases h

/-- Blocks of one width in front of two equal strings are equal, and so is what follows. -/
theorem toList_append_inj {n : Nat} {a b : Vector UInt8 n} {xs ys : Bytes}
    (h : a.toList ++ xs = b.toList ++ ys) : a = b ∧ xs = ys := by
  obtain ⟨hab, hxs⟩ := List.append_inj h (by simp)
  exact ⟨Vector.toList_inj.mp hab, hxs⟩

/-- **The proof input determines the attach**: every field has a fixed width, so two inputs are equal
only if role, ids, nonces and digest are. -/
theorem attachProofInput_inj (f g : AttachFacts π) :
    attachProofInput f = attachProofInput g ↔ f.SameAttach g := by
  constructor
  · intro h
    simp only [attachProofInput, List.append_assoc] at h
    have h := List.append_cancel_left h
    rw [List.singleton_append, List.singleton_append, List.cons.injEq] at h
    obtain ⟨hrole, h⟩ := h
    obtain ⟨hinit, h⟩ := toList_append_inj h
    obtain ⟨hresp, h⟩ := toList_append_inj h
    obtain ⟨hpeer, h⟩ := toList_append_inj h
    obtain ⟨hown, h⟩ := toList_append_inj h
    exact ⟨AttachRole.byte_injective hrole, hinit, hresp, hpeer, hown, Vector.toList_inj.mp h⟩
  · rintro ⟨hrole, hinit, hresp, hpeer, hown, hdigest⟩
    simp only [attachProofInput, hrole, hinit, hresp, hpeer, hown, hdigest]

/-! ## `io/security/attach_policy.h` -/

structure KeyedPsk where
  keyId : KeyId
  material : Bytes
  deriving DecidableEq

def kMinPskLen : Nat := 16

/-- `decide` of an injected policy. -/
abbrev AttachPolicy (π : Type) := AttachFacts π → Bool

def acceptAny : AttachPolicy π := fun _ => true

/-- A keystore; the constructor refuses short keys. -/
structure PskKeystore where
  keys : List KeyedPsk
  long_enough : ∀ k ∈ keys, kMinPskLen ≤ k.material.length

def PskKeystore.lookup (s : PskKeystore) (id : KeyId) : Option KeyedPsk :=
  s.keys.find? (fun k => k.keyId = id)

/-- `psk_keystore_policy::decide`. -/
def PskKeystore.decide [DecidableEq π] (K : Crypto π) (s : PskKeystore) : AttachPolicy π := fun facts =>
  match s.lookup facts.keyId with
  | none => false
  | some key =>
    match K.hmac key.material (attachProofInput facts) with
    | none => false
    | some expected => expected = facts.proof

/-- A prover; `none` is a disengaged one. -/
abbrev AttachProver := Option KeyedPsk

/-! ## The handshake messages -/

def kProtocolVersion : UInt8 := 7

inductive HandshakeStatus
  | accepted | versionIncompatible | identityConflict | rejectedUnknown | unauthorized
  deriving DecidableEq

structure HandshakeRequest (π : Type) where
  id : NodeId
  versionMajor : UInt8
  versionMinor : UInt8
  compatibleVersionMajor : UInt8
  compatibleVersionMinor : UInt8
  protocolVersion : UInt8
  fingerprint : UInt64
  keyId : KeyId
  ownNonce : Nonce
  cipherOffer : UInt8
  chosenCipher : UInt8
  proof : π
  deriving DecidableEq

structure HandshakeResponse (π : Type) extends HandshakeRequest π where
  status : HandshakeStatus
  deriving DecidableEq

/-! ## `io/detail/attach_resolve.h` -/

structure SecurityNegotiation where
  keyId : KeyId := zeroed 8
  initiatorNonce : Nonce := zeroed 16
  responderNonce : Nonce := zeroed 16
  transcriptDigest : Digest := zeroed 32
  role : AttachRole := .initiator
  chosenCipher : UInt8 := 0
  deriving DecidableEq

structure PendingAttach (π : Type) where
  facts : AttachFacts π
  negotiation : SecurityNegotiation := {}
  engaged : Bool := false
  deriving DecidableEq

/-- The byte string a transcript hashes. -/
def transcriptOf (cipherOffer chosenCipher : UInt8) (initiatorNonce responderNonce : Nonce) :
    Bytes :=
  [cipherOffer, chosenCipher, kProtocolVersion] ++ initiatorNonce.toList ++ responderNonce.toList

variable (K : Crypto π)

/-- `compute_transcript`: a failed hash leaves the digest unset. -/
def computeTranscript (transcript : Bytes) : Digest :=
  (K.transcript transcript).getD (zeroed 32)

/-- `assemble_pending`, with the role deciding which nonce and which id is whose. -/
def assemblePending (ownNonce : Nonce) (engaged : Bool) (frame : HandshakeRequest π)
    (localRole : AttachRole) (peerId selfId : NodeId) : PendingAttach π :=
  let initiator := localRole = .initiator
  let initiatorNonce := if initiator then ownNonce else frame.ownNonce
  let responderNonce := if initiator then frame.ownNonce else ownNonce
  let digest :=
    if engaged then
      computeTranscript K (transcriptOf frame.cipherOffer frame.chosenCipher initiatorNonce responderNonce)
    else zeroed 32
  { engaged
    negotiation :=
      { keyId := frame.keyId, role := localRole, chosenCipher := frame.chosenCipher
        initiatorNonce, responderNonce, transcriptDigest := digest }
    facts :=
      { keyId := frame.keyId
        initiatorId := if initiator then selfId else peerId
        responderId := if initiator then peerId else selfId
        peerNonce := frame.ownNonce
        ownNonce
        role := localRole
        transcriptDigest := digest
        proof := K.noProof } }

/-- The facts as the dialer sees them: role and nonces swapped to its standpoint. -/
def AttachFacts.dialerView (facts : AttachFacts π) : AttachFacts π :=
  { facts with role := .initiator, peerNonce := facts.ownNonce, ownNonce := facts.peerNonce }

/-- `attach_prover::prove`. -/
def prove (key : KeyedPsk) (facts : AttachFacts π) : Option π :=
  K.hmac key.material (attachProofInput facts)

/-- `response_proof`: a disengaged prover, or a MAC that fails, leaves the proof unset. -/
def responseProof (prover : AttachProver) (facts : AttachFacts π) : π :=
  match prover with
  | none => K.noProof
  | some key => (prove K key facts.dialerView).getD K.noProof

/-! ## One side of an attach -/

/-- What a session is set up with: `handshake_fsm_config`, the seam, the prover and the nonce its
negotiator was primed with. -/
structure AttachConfig (π : Type) where
  selfId : NodeId
  versionMajor : UInt8 := 1
  versionMinor : UInt8 := 0
  compatibleVersionMajor : UInt8 := 1
  compatibleVersionMinor : UInt8 := 0
  localFingerprint : UInt64 := 0
  attachPolicy : Option (AttachPolicy π) := none
  handshakeRetry : Nat := 0
  seamEngaged : Bool := false
  prover : AttachProver := none
  ownNonce : Nonce := zeroed 16
  isInboundBootstrap : Bool := false
  hasInstallHook : Bool := true
  channelIsSelfSecuring : Bool := false

namespace AttachConfig

/-- The bit of the one cipher a secured node offers. -/
def chacha20Poly1305 : UInt8 := 1

def cipherOffer (cfg : AttachConfig π) : UInt8 := if cfg.seamEngaged then chacha20Poly1305 else 0

def keyId (cfg : AttachConfig π) : KeyId := (cfg.prover.map KeyedPsk.keyId).getD (zeroed 8)

/-- An attach is secured when a policy is set and the seam has a transcript. -/
def engaged (cfg : AttachConfig π) : Bool := cfg.attachPolicy.isSome && cfg.seamEngaged

/-- `self_request`: offer and choice are the same byte, and a request carries no proof. -/
def selfRequest (K : Crypto π) (cfg : AttachConfig π) : HandshakeRequest π where
  id := cfg.selfId
  versionMajor := cfg.versionMajor
  versionMinor := cfg.versionMinor
  compatibleVersionMajor := cfg.compatibleVersionMajor
  compatibleVersionMinor := cfg.compatibleVersionMinor
  protocolVersion := kProtocolVersion
  fingerprint := cfg.localFingerprint
  keyId := cfg.keyId
  ownNonce := cfg.ownNonce
  cipherOffer := cfg.cipherOffer
  chosenCipher := cfg.cipherOffer
  proof := K.noProof

/-- `assemble` and then `latch_peer_proof`. -/
def assemble (K : Crypto π) (cfg : AttachConfig π) (frame : HandshakeRequest π)
    (localRole : AttachRole) : PendingAttach π :=
  let out := assemblePending K cfg.ownNonce cfg.engaged frame localRole frame.id cfg.selfId
  { out with facts := { out.facts with proof := frame.proof } }

/-- What `send_handshake_response` sends. -/
def response (K : Crypto π) (cfg : AttachConfig π) (facts : AttachFacts π) (status : HandshakeStatus) :
    HandshakeResponse π :=
  { cfg.selfRequest K with proof := responseProof K cfg.prover facts, status }

def postureMismatched (cfg : AttachConfig π) (frame : HandshakeRequest π) : Bool :=
  cfg.seamEngaged != (frame.cipherOffer != 0)

end AttachConfig

/-! ## Agreement and non-transferability -/

/-- The facts of the dialer on the honest response to its own request. -/
def dialerFacts (d r : AttachConfig π) (status : HandshakeStatus) : AttachFacts π :=
  (d.assemble K (r.response K (r.assemble K (d.selfRequest K) .responder).facts status).toHandshakeRequest
    .initiator).facts

/-- The facts the responder proves over, on the dialer's own request. -/
def provenFacts (d r : AttachConfig π) : AttachFacts π :=
  (r.assemble K (d.selfRequest K) .responder).facts.dialerView

/-- Dialer and responder have the same attach before them when both fold a transcript or neither
does. -/
theorem provenFacts_sameAttach (d r : AttachConfig π) (status : HandshakeStatus)
    (hoffer : d.cipherOffer = r.cipherOffer) (hengaged : r.engaged = d.engaged) :
    (provenFacts K d r).SameAttach (dialerFacts K d r status) := by
  refine ⟨rfl, rfl, rfl, rfl, rfl, ?_⟩
  simp only [provenFacts, AttachConfig.assemble, AttachConfig.selfRequest, hengaged, hoffer]
  rfl

/-- Equal offers come from equal seams. -/
theorem seamEngaged_eq_of_cipherOffer {d r : AttachConfig π} (h : d.cipherOffer = r.cipherOffer) :
    d.seamEngaged = r.seamEngaged := by
  unfold AttachConfig.cipherOffer at h
  cases hd : d.seamEngaged <;> cases hr : r.seamEngaged <;> simp_all [AttachConfig.chacha20Poly1305]

theorem engaged_eq_of_policies {d r : AttachConfig π} (hoffer : d.cipherOffer = r.cipherOffer)
    (hd : d.attachPolicy.isSome)
    (hr : r.attachPolicy.isSome = true ∨ r.seamEngaged = false) : r.engaged = d.engaged := by
  have hseam := seamEngaged_eq_of_cipherOffer hoffer
  rcases hr with hr | hr
  · simp [AttachConfig.engaged, hd, hr, hseam]
  · simp [AttachConfig.engaged, hseam, hr]

section

variable [DecidableEq π] {K : Crypto π} {s : PskKeystore} {key : KeyedPsk}

theorem PskKeystore.decide_eq_true {f : AttachFacts π} (h : s.decide K f) :
    ∃ k ∈ s.keys, K.hmac k.material (attachProofInput f) = some f.proof := by
  unfold PskKeystore.decide at h
  cases hk : s.lookup f.keyId with
  | none => simp [hk] at h
  | some k =>
    refine ⟨k, List.mem_of_find?_eq_some hk, ?_⟩
    cases hp : K.hmac k.material (attachProofInput f) with
    | none => simp [hk, hp] at h
    | some p =>
      simp only [hk, hp, decide_eq_true_eq] at h
      rw [h]

theorem PskKeystore.decide_of_hmac {f : AttachFacts π} {k : KeyedPsk}
    (hk : s.lookup f.keyId = some k) (hp : K.hmac k.material (attachProofInput f) = some f.proof) :
    s.decide K f := by
  simp [PskKeystore.decide, hk, hp]

/-- **The honest proof verifies, and no proof verifies for another attach.** Request and response
arrive as sent and both sides advertise the same offer; the responder folds a transcript whenever it
advertises one. Then the responder's proof is over the very input the dialer recomputes, so a dialer
whose keystore has the responder's key under its id accepts it. And inputs of attaches that differ in
role, an id, a nonce or the digest differ, so a proof made for the one is refused for the other. -/
theorem attach_proof_agrees (K : Crypto π)
    (hmac_inj : ∀ k m m' p, K.hmac k m = some p → K.hmac k m' = some p → m = m') :
    (∀ (d r : AttachConfig π) (status : HandshakeStatus), d.cipherOffer = r.cipherOffer →
      d.attachPolicy.isSome = true → (r.attachPolicy.isSome = true ∨ r.seamEngaged = false) →
      attachProofInput (provenFacts K d r) = attachProofInput (dialerFacts K d r status) ∧
      ∀ (s : PskKeystore) (key k : KeyedPsk), r.prover = some key → s.lookup key.keyId = some k →
        k.material = key.material → (prove K key (provenFacts K d r)).isSome = true →
        s.decide K (dialerFacts K d r status) = true) ∧
    (∀ f g : AttachFacts π, ¬ f.SameAttach g → attachProofInput f ≠ attachProofInput g) ∧
    (∀ (f g : AttachFacts π) (s : PskKeystore) (key k : KeyedPsk), ¬ f.SameAttach g →
      prove K key f = some g.proof → s.lookup g.keyId = some k → k.material = key.material →
      s.decide K g = false) := by
  refine ⟨?_, ?_, ?_⟩
  · intro d r status hoffer hd hr
    have hsame := provenFacts_sameAttach K d r status hoffer (engaged_eq_of_policies hoffer hd hr)
    have hinput := (attachProofInput_inj _ _).mpr hsame
    refine ⟨hinput, ?_⟩
    intro s key k hprover hlookup hmaterial hproved
    obtain ⟨p, hp⟩ := Option.isSome_iff_exists.mp hproved
    -- the key id and the proof of the dialer's facts are those of the responder's frame
    have hkeyId : (dialerFacts K d r status).keyId = key.keyId := by
      show r.keyId = key.keyId
      rw [AttachConfig.keyId, hprover]
      rfl
    have hproof : (dialerFacts K d r status).proof = p := by
      show responseProof K r.prover (r.assemble K (d.selfRequest K) .responder).facts = p
      rw [hprover]
      show (prove K key (provenFacts K d r)).getD K.noProof = p
      rw [hp]
      rfl
    refine PskKeystore.decide_of_hmac (hkeyId ▸ hlookup) ?_
    rw [← hinput, hproof, hmaterial]
    exact hp
  · intro f g hdiff h
    exact hdiff ((attachProofInput_inj f g).mp h)
  · intro f g s key k hdiff hproved hlookup hmaterial
    rw [← Bool.not_eq_true]
    intro haccepted
    simp only [PskKeystore.decide, hlookup] at haccepted
    cases hp : K.hmac k.material (attachProofInput g) with
    | none => simp [hp] at haccepted
    | some p =>
      simp only [hp, decide_eq_true_eq] at haccepted
      rw [hmaterial, haccepted] at hp
      exact hdiff ((attachProofInput_inj f g).mp (hmac_inj _ _ _ _ hproved hp))

end

/-! ## Two nodes -/

/-- Primitives in the clear: a proof is the key and the message side by side, a digest the leading
bytes of the transcript. -/
def transparent : Crypto Bytes where
  transcript t := some (Vector.ofFn fun i => t.getD i 0)
  hmac k m := some (k ++ m)
  noProof := []

theorem transparent_hmac_inj (k m m' p : Bytes) (h : transparent.hmac k m = some p)
    (h' : transparent.hmac k m' = some p) : m = m' :=
  List.append_cancel_left (Option.some.inj (h.trans h'.symm))

def sharedKey : KeyedPsk := ⟨Vector.replicate 8 9, List.replicate 16 5⟩

def sharedStore : PskKeystore := ⟨[sharedKey], by decide⟩

/-- A secured dialer that checks proofs against its keystore. -/
def dialingNode : AttachConfig Bytes :=
  { selfId := Vector.replicate 16 1, attachPolicy := some (sharedStore.decide transparent)
    seamEngaged := true, ownNonce := Vector.replicate 16 3 }

/-- A secured responder that holds the key and admits everyone. -/
def acceptingNode : AttachConfig Bytes :=
  { selfId := Vector.replicate 16 2, attachPolicy := some acceptAny, seamEngaged := true
    prover := some sharedKey, ownNonce := Vector.replicate 16 4, isInboundBootstrap := true }

/-- The dialer accepts the responder's proof; bounced back in the other role it is refused. -/
theorem attach_proof_agrees_two_nodes :
    sharedStore.decide transparent (dialerFacts transparent dialingNode acceptingNode .accepted) = true ∧
      sharedStore.decide transparent
        { dialerFacts transparent dialingNode acceptingNode .accepted with role := .responder } =
        false :=
  have h := attach_proof_agrees transparent transparent_hmac_inj
  ⟨(h.1 dialingNode acceptingNode .accepted rfl rfl (Or.inl rfl)).2 sharedStore sharedKey sharedKey rfl
      (by decide +kernel) rfl rfl,
    h.2.2 (provenFacts transparent dialingNode acceptingNode) _ sharedStore sharedKey sharedKey
      (fun hsame => by cases hsame.role) rfl (by decide +kernel) rfl⟩

/-- A responder without an attach policy folds no transcript: the inputs differ and the honest proof
is refused. -/
theorem attach_proof_parts_without_policy :
    let r := { acceptingNode with attachPolicy := none }
    dialingNode.cipherOffer = r.cipherOffer ∧
      attachProofInput (provenFacts transparent dialingNode r) ≠
        attachProofInput (dialerFacts transparent dialingNode r .accepted) ∧
      sharedStore.decide transparent (dialerFacts transparent dialingNode r .accepted) = false := by
  decide +kernel

end Plexus.Security
