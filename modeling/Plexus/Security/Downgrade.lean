/-
# Plexus.Security.Downgrade — an attach over a network that rewrites its messages.

A dialing and an accepted session, joined by an attacker who delivers any handshake frames at any
time but cannot make a valid proof: the proof of a frame that reaches the dialer verifies only for
an input one of the two sides has made a proof over (`Unforged`). The transcript hash computes,
never gives the unset digest and does not collide on the transcripts of the run (`HashSound`).

A completed dialer then knows that both folded the same cipher fields (`transcripts_agree`), not
that those are the fields either side sent: each side folds what it received.
-/
import Plexus.Lib.Run
import Plexus.Security.AttachSession

namespace Plexus.Security

open Lib AttachSession HandshakeFsm

/-! ## Two sessions and the network between them -/

/-- A dialer and a responder. -/
structure Link (π : Type) where
  dialer : AttachSession π
  responder : AttachSession π

inductive Side
  | dialer | responder
  deriving DecidableEq

inductive LinkEvent (π : Type)
  | request (side : Side) (req : HandshakeRequest π)
  | response (side : Side) (resp : HandshakeResponse π)
  | timeout (side : Side)

namespace Link

variable {π : Type} (K : Crypto π) (d r : AttachConfig π)

def init : Link π := ⟨.start K d, .start K r⟩

def step (s : Link π) : LinkEvent π → Link π
  | .request .dialer req => { s with dialer := s.dialer.onHandshakeReq K d req }
  | .request .responder req => { s with responder := s.responder.onHandshakeReq K r req }
  | .response .dialer resp => { s with dialer := s.dialer.onHandshakeResp K d resp }
  | .response .responder resp => { s with responder := s.responder.onHandshakeResp K r resp }
  | .timeout .dialer => { s with dialer := s.dialer.onTimeout K d }
  | .timeout .responder => { s with responder := s.responder.onTimeout K r }

def run (events : List (LinkEvent π)) : Link π := events.foldl (step K d r) (init K d r)

/-- Every transcript hashed so far. -/
def hashed (s : Link π) : List Bytes := s.dialer.hashed ++ s.responder.hashed

/-- Every input a proof has been made over so far. -/
def proved (s : Link π) : List Bytes := s.dialer.proved ++ s.responder.proved

/-! ## The attacker -/

/-- A proof field that verifies under a key of the store is over an input that was proved. -/
def UnforgedProof (store : PskKeystore) (s : Link π) (proof : π) : Prop :=
  ∀ key ∈ store.keys, ∀ x, K.hmac key.material x = some proof → x ∈ s.proved

/-- What reaches the dialer carries no forged proof. -/
def Unforged (store : PskKeystore) (s : Link π) : LinkEvent π → Prop
  | .request .dialer req => UnforgedProof K store s req.proof
  | .response .dialer resp => UnforgedProof K store s resp.proof
  | _ => True

/-- The hash computes a digest other than the unset one on each of these, and does not collide. -/
structure HashSound (transcripts : List Bytes) : Prop where
  computes : ∀ t ∈ transcripts, ∃ digest, K.transcript t = some digest ∧ digest ≠ zeroed 32
  no_collision : ∀ t ∈ transcripts, ∀ t' ∈ transcripts, K.transcript t = K.transcript t' → t = t'

/-- The cipher fields of a request are the ones the dialer sends. -/
def OffersIntact (req : HandshakeRequest π) : Prop :=
  req.cipherOffer = (d.selfRequest K).cipherOffer ∧ req.chosenCipher = (d.selfRequest K).chosenCipher

/-- A request that reaches the responder carries the cipher fields the dialer sent. -/
def RequestIntact (_ : Link π) : LinkEvent π → Prop
  | .request .responder req => OffersIntact K d req
  | _ => True

/-! ## What the two ends agree on -/

/-- A secured completion of the dialer. -/
def DialerSecured (s : Link π) : Prop :=
  ∃ c ∈ s.dialer.completions, c.pending.engaged = true

/-- A secured dialer that completes has folded the cipher fields the responder sent, the responder
those the dialer sent, and an installed cipher is one both offered. -/
structure CiphersAuthentic (s : Link π) : Prop where
  dialer : ∀ c ∈ s.dialer.completions, c.pending.engaged = true →
    c.frame.cipherOffer = (r.selfRequest K).cipherOffer ∧
      c.frame.chosenCipher = (r.selfRequest K).chosenCipher
  responder : DialerSecured s → ∀ c ∈ s.responder.completions, c.pending.engaged = true →
    c.frame.cipherOffer = (d.selfRequest K).cipherOffer ∧
      c.frame.chosenCipher = (d.selfRequest K).chosenCipher
  installed : DialerSecured s → ∀ n ∈ s.dialer.installed ++ s.responder.installed,
    n.chosenCipher = (d.selfRequest K).cipherOffer ∧ n.chosenCipher = (r.selfRequest K).cipherOffer

/-! ## The invariant of a run -/

/-- A side's proofs are over requests of one kind and its completions from frames of another, all
taken in its role, and the hook was called for completions only. -/
structure Recorded (cfg : AttachConfig π) (role : AttachRole) (Proved Completed : HandshakeRequest π → Prop)
    (a : AttachSession π) : Prop where
  proved : ∀ x ∈ a.proved, ∃ frame, Proved frame ∧
    x = attachProofInput (cfg.assemble K frame role).facts.dialerView ∧
    (cfg.engaged = true → transcriptFor cfg frame role ∈ a.hashed)
  completions : ∀ c ∈ a.completions, c.pending = cfg.assemble K c.frame role ∧ Completed c.frame ∧
    (cfg.engaged = true → transcriptFor cfg c.frame role ∈ a.hashed)
  installed : ∀ n ∈ a.installed,
    ∃ c ∈ a.completions, c.pending.engaged = true ∧ n = c.pending.negotiation

/-- A dialer proves nothing and completes only on a proof of the responder; `Seen` holds of the
responder's requests. -/
structure Inv (Seen : HandshakeRequest π → Prop) (s : Link π) : Prop where
  dialer : Recorded K d .initiator (fun _ => False)
    (fun frame => attachProofInput (d.assemble K frame .initiator).facts ∈ s.responder.proved) s.dialer
  responder : Recorded K r .responder Seen Seen s.responder
  settled : s.responder.fsm.Settled

variable {K d r} {Seen : HandshakeRequest π → Prop} {s : Link π} {store : PskKeystore}

section

variable {cfg : AttachConfig π} {role : AttachRole} {Proved Completed : HandshakeRequest π → Prop}
  {a a' : AttachSession π}

theorem Recorded.took {role' : AttachRole} {frame : HandshakeRequest π}
    {verdict : HandshakeFsm × FsmStepResult} (h : Recorded K cfg role Proved Completed a)
    (htook : AttachSession.Took K cfg a a' frame role' verdict)
    (hproves : AttachSession.Proves cfg verdict.2.action → role' = role ∧ Proved frame)
    (hcompletes : verdict.2.action = .complete → role' = role ∧ Completed frame) :
    Recorded K cfg role Proved Completed a' := by
  refine ⟨?_, ?_, ?_⟩
  · intro x hx
    rcases htook.proved x hx with hold | ⟨rfl, haction, hhashed⟩
    · obtain ⟨frame', hframe, hx', hhashed⟩ := h.proved x hold
      exact ⟨frame', hframe, hx', fun he => htook.hashed (hhashed he)⟩
    · obtain ⟨rfl, hframe⟩ := hproves haction
      exact ⟨frame, hframe, rfl, hhashed⟩
  · intro c hc
    rcases htook.completions c hc with hold | ⟨rfl, haction, hhashed⟩
    · obtain ⟨hpending, hframe, hhashed⟩ := h.completions c hold
      exact ⟨hpending, hframe, fun he => htook.hashed (hhashed he)⟩
    · obtain ⟨rfl, hframe⟩ := hcompletes haction
      exact ⟨rfl, hframe, hhashed⟩
  · intro n hn
    rcases htook.installed n hn with hold | hnew
    · obtain ⟨c, hc, hrest⟩ := h.installed n hold
      exact ⟨c, htook.kept.2 hc, hrest⟩
    · exact hnew

theorem Recorded.mono {Completed' : HandshakeRequest π → Prop}
    (h : Recorded K cfg role Proved Completed a) (himp : ∀ frame, Completed frame → Completed' frame) :
    Recorded K cfg role Proved Completed' a :=
  { h with completions := fun c hc => (h.completions c hc).imp_right (And.imp_left (himp c.frame)) }

theorem recorded_start : Recorded K cfg role Proved Completed (start K cfg) := by
  have hempty : (start K cfg).proved = [] ∧
      (start K cfg).completions = [] ∧ (start K cfg).installed = [] := by
    unfold start
    cases cfg.isInboundBootstrap <;> exact ⟨rfl, rfl, rfl⟩
  constructor
  · simp [hempty.1]
  · simp [hempty.2.1]
  · simp [hempty.2.2]

end

theorem Inv.dialer_proved (h : Inv K d r Seen s) : s.dialer.proved = [] := by
  refine List.eq_nil_iff_forall_not_mem.mpr fun x hx => ?_
  obtain ⟨-, hnone, -⟩ := h.dialer.proved x hx
  exact hnone

theorem Inv.responder_took (h : Inv K d r Seen s) {a : AttachSession π} {frame : HandshakeRequest π}
    {role : AttachRole} {verdict : HandshakeFsm × FsmStepResult}
    (htook : AttachSession.Took K r s.responder a frame role verdict) (hsettled : verdict.1.Settled)
    (hseen : AttachSession.Proves r verdict.2.action ∨ verdict.2.action = .complete →
      role = .responder ∧ Seen frame) : Inv K d r Seen { s with responder := a } where
  dialer := h.dialer.mono fun _ hmem => htook.kept.1 hmem
  responder := h.responder.took htook (fun hp => hseen (.inl hp)) (fun hc => hseen (.inr hc))
  settled := htook.settled h.settled hsettled

theorem not_proves_onTimeout (cfg : AttachConfig π) (m : HandshakeFsm) :
    ¬ AttachSession.Proves cfg m.onTimeout.2.action := by
  rintro (h | ⟨h, -⟩)
  · exact m.action_onTimeout.1 h
  · exact m.action_onTimeout.2 h

variable {req : HandshakeRequest π}

section

variable [DecidableEq π]

section

variable (h : Inv K d r Seen s) (hpolicy : d.attachPolicy = some (store.decide K))
include h hpolicy

/-- What the dialer's policy admits is over an input the responder has proved. -/
theorem Inv.proved_of_admitted {facts : AttachFacts π} (hadmitted : HandshakeFsm.Admitted d facts)
    (hunforged : UnforgedProof K store s facts.proof) :
    attachProofInput facts ∈ s.responder.proved := by
  obtain ⟨key, hkey, hmac⟩ := PskKeystore.decide_eq_true (hadmitted _ hpolicy)
  have hmem := hunforged key hkey _ hmac
  rw [proved, h.dialer_proved] at hmem
  exact hmem

/-- The dialer turns every request away: proofs are made for its own role only. -/
theorem Inv.dialer_request_refused
    (hunforged : UnforgedProof K store s req.proof) :
    ¬ HandshakeFsm.Admitted d (d.assemble K req .responder).facts := by
  intro hadmitted
  have hmem := h.proved_of_admitted hpolicy hadmitted hunforged
  obtain ⟨req', -, hinput, -⟩ := h.responder.proved _ hmem
  have hrole := ((attachProofInput_inj _ _).mp hinput).role
  cases hrole

theorem Inv.step_request_dialer
    (hunforged : UnforgedProof K store s req.proof) :
    Inv K d r Seen (step K d r s (.request .dialer req)) := by
  have hrefused := h.dialer_request_refused hpolicy hunforged
  refine { h with dialer := h.dialer.took (took_onHandshakeReq K d s.dialer req) ?_ ?_ }
  · intro hproves
    exact absurd (passed_of_onRequest (hproves.imp id And.left)).admitted hrefused
  · intro hcomplete
    exact absurd (passed_of_onRequest (.inr hcomplete)).admitted hrefused

end

theorem Inv.step_response_dialer (h : Inv K d r Seen s) (hdial : d.isInboundBootstrap = false)
    (hpolicy : d.attachPolicy = some (store.decide K)) {resp : HandshakeResponse π}
    (hunforged : UnforgedProof K store s resp.proof) :
    Inv K d r Seen (step K d r s (.response .dialer resp)) := by
  refine { h with dialer := h.dialer.took (took_onHandshakeResp K d s.dialer resp) ?_ ?_ }
  · rintro (hsend | ⟨-, hboot⟩)
    · exact absurd hsend (onResponse_spec resp _).2
    · rw [hdial] at hboot
      cases hboot
  · intro hcomplete
    have hpassed := (onResponse_spec resp _).1 hcomplete
    exact ⟨rfl, h.proved_of_admitted hpolicy hpassed.admitted hunforged⟩

end

theorem Inv.step_response_responder (h : Inv K d r Seen s) (resp : HandshakeResponse π) :
    Inv K d r Seen (step K d r s (.response .responder resp)) := by
  apply h.responder_took (took_onHandshakeResp K r s.responder resp)
    (settled_onResponse h.settled resp _).1
  rintro ((hsend | ⟨hcomplete, -⟩) | hcomplete)
  · exact absurd hsend (onResponse_spec resp _).2
  · exact absurd hcomplete (settled_onResponse h.settled resp _).2
  · exact absurd hcomplete (settled_onResponse h.settled resp _).2

theorem Inv.step_timeout (h : Inv K d r Seen s) (side : Side) :
    Inv K d r Seen (step K d r s (.timeout side)) := by
  cases side with
  | dialer =>
    refine { h with dialer := h.dialer.took (took_onTimeout K d s.dialer) ?_ ?_ }
    · intro hproves
      exact absurd hproves (not_proves_onTimeout d _)
    · intro hcomplete
      exact absurd hcomplete s.dialer.fsm.action_onTimeout.2
  | responder =>
    apply h.responder_took (took_onTimeout K r s.responder) (settled_onTimeout h.settled)
    rintro (hproves | hcomplete)
    · exact absurd hproves (not_proves_onTimeout r _)
    · exact absurd hcomplete s.responder.fsm.action_onTimeout.2

theorem inv_init (hboot : r.isInboundBootstrap) : Inv K d r Seen (init K d r) := by
  refine ⟨recorded_start, recorded_start, ?_⟩
  show (start K r).fsm.Settled
  rw [start, hboot]
  exact .inl rfl

/-- What is known of the requests is known of this event, if it is one. -/
def EventSeen (Seen : HandshakeRequest π → Prop) : LinkEvent π → Prop
  | .request .responder req => Seen req
  | _ => True

theorem inv_run [DecidableEq π] (hpolicy : d.attachPolicy = some (store.decide K))
    (hdial : d.isInboundBootstrap = false) (hboot : r.isInboundBootstrap)
    {events : List (LinkEvent π)}
    (hunforged : Guarded (step K d r) (Unforged K store) (init K d r) events)
    (hseen : Guarded (step K d r) (fun _ e => EventSeen Seen e) (init K d r) events) :
    Inv K d r Seen (run K d r events) := by
  refine (hunforged.and hseen).invariant (Inv K d r Seen) ?_ (inv_init hboot)
  intro s e h hok
  match e with
  | .request .dialer req => exact h.step_request_dialer hpolicy hok.1
  | .request .responder req =>
    exact h.responder_took (took_onHandshakeReq K r s.responder req)
      (settled_onRequest hboot h.settled req _) fun _ => ⟨rfl, hok.2⟩
  | .response .dialer resp => exact h.step_response_dialer hdial hpolicy hok.1
  | .response .responder resp => exact h.step_response_responder resp
  | .timeout side => exact h.step_timeout side

/-! ## What a completed dialer knows -/

/-- **The transcripts agree.** A secured dialer completes only on a proof the responder, secured
too, made on a request with the cipher fields the dialer has folded. -/
theorem Inv.transcripts_agree (h : Inv K d r Seen s) (hhash : HashSound K s.hashed)
    {c : Completion π} (hc : c ∈ s.dialer.completions) (hengaged : c.pending.engaged) :
    ∃ req, Seen req ∧ d.engaged = true ∧ r.engaged = true ∧
      c.frame.cipherOffer = req.cipherOffer ∧ c.frame.chosenCipher = req.chosenCipher := by
  obtain ⟨hpending, hproved, hdhashed⟩ := h.dialer.completions c hc
  obtain ⟨req, hseen, hinput, hrhashed⟩ := h.responder.proved _ hproved
  have hd : d.engaged := by
    rw [hpending] at hengaged
    exact hengaged
  have hdmem : transcriptFor d c.frame .initiator ∈ s.hashed := List.mem_append_left _ (hdhashed hd)
  obtain ⟨digest, hdigest, hset⟩ := hhash.computes _ hdmem
  -- the proof ties the two digests together
  have hsame := ((attachProofInput_inj _ _).mp hinput).transcriptDigest
  have hleft : (d.assemble K c.frame .initiator).facts.transcriptDigest = digest := by
    show (if d.engaged = true then
      computeTranscript K (transcriptFor d c.frame .initiator) else _) = _
    rw [if_pos hd, computeTranscript, hdigest]
    rfl
  have hright : (r.assemble K req .responder).facts.dialerView.transcriptDigest =
      if r.engaged = true then
        computeTranscript K (transcriptFor r req .responder) else zeroed 32 := rfl
  rw [hleft, hright] at hsame
  have hr : r.engaged := by
    by_contra hnot
    rw [if_neg hnot] at hsame
    exact hset hsame
  have hrmem : transcriptFor r req .responder ∈ s.hashed := List.mem_append_right _ (hrhashed hr)
  obtain ⟨digest', hdigest', -⟩ := hhash.computes _ hrmem
  rw [if_pos hr, computeTranscript, hdigest'] at hsame
  have heq : digest = digest' := hsame
  -- no collision: one digest, one transcript, and its first two bytes are the cipher fields
  have htranscript := hhash.no_collision _ hdmem _ hrmem (by rw [hdigest, hdigest', heq])
  simp only [transcriptFor, transcriptOf, List.cons_append, List.cons.injEq] at htranscript
  exact ⟨req, hseen, hd, hr, htranscript.1, htranscript.2.1⟩

theorem cipherOffer_of_engaged {cfg : AttachConfig π} (h : cfg.engaged) :
    cfg.cipherOffer = AttachConfig.chacha20Poly1305 := by
  simp only [AttachConfig.engaged, Bool.and_eq_true] at h
  rw [AttachConfig.cipherOffer, if_pos h.2]

/-- With the offers of every request intact, the cipher fields are the ones that were sent. -/
theorem Inv.ciphersAuthentic (h : Inv K d r (OffersIntact K d) s) (hhash : HashSound K s.hashed) :
    CiphersAuthentic K d r s := by
  have hoffers : DialerSecured s → d.cipherOffer = r.cipherOffer := by
    rintro ⟨c, hc, hengaged⟩
    obtain ⟨-, -, hd, hr, -, -⟩ := h.transcripts_agree hhash hc hengaged
    rw [cipherOffer_of_engaged hd, cipherOffer_of_engaged hr]
  have hdialer : ∀ c ∈ s.dialer.completions, c.pending.engaged = true →
      c.frame.cipherOffer = r.cipherOffer ∧ c.frame.chosenCipher = r.cipherOffer := by
    intro c hc hengaged
    obtain ⟨req, hintact, -, -, hoffer, hchosen⟩ := h.transcripts_agree hhash hc hengaged
    rw [← hoffers ⟨c, hc, hengaged⟩, hoffer, hchosen]
    exact hintact
  refine ⟨hdialer, ?_, ?_⟩
  · intro _ c hc _
    exact (h.responder.completions c hc).2.1
  intro hsecured n hn
  have hchosen : n.chosenCipher = d.cipherOffer := by
    rcases List.mem_append.mp hn with hn | hn
    · obtain ⟨c, hc, hengaged, rfl⟩ := h.dialer.installed n hn
      rw [(h.dialer.completions c hc).1, hoffers hsecured]
      exact (hdialer c hc hengaged).2
    obtain ⟨c, hc, -, rfl⟩ := h.responder.installed n hn
    obtain ⟨hpending, hintact, -⟩ := h.responder.completions c hc
    rw [hpending]
    exact hintact.2
  exact ⟨hchosen, hchosen.trans (hoffers hsecured)⟩

/-- **When a downgrade is refused.** An attacker delivers any frames to a dialer with a keystore and
to an accepted session, forging no proof and finding no collision. Whenever the dialer completes
secured, some request that was delivered to the responder carries the cipher fields the dialer has
folded, and those are the responder's own iff that request's fields are the dialer's own. So in
every run in which the requests reach the responder with their cipher fields intact, what either end
folds and installs is what the other sent. -/
theorem ciphers_authentic_of_intact [DecidableEq π] (K : Crypto π) (d r : AttachConfig π)
    (store : PskKeystore) (hpolicy : d.attachPolicy = some (store.decide K))
    (hdial : d.isInboundBootstrap = false) (hboot : r.isInboundBootstrap = true)
    (events : List (LinkEvent π))
    (hunforged : Guarded (step K d r) (Unforged K store) (init K d r) events)
    (hhash : HashSound K (run K d r events).hashed) :
    (∀ c ∈ (run K d r events).dialer.completions, c.pending.engaged = true →
      ∃ req, LinkEvent.request .responder req ∈ events ∧ c.frame.cipherOffer = req.cipherOffer ∧
        c.frame.chosenCipher = req.chosenCipher ∧
        (c.frame.cipherOffer = (r.selfRequest K).cipherOffer ∧
          c.frame.chosenCipher = (r.selfRequest K).chosenCipher ↔ OffersIntact K d req)) ∧
    (Guarded (step K d r) (RequestIntact K d) (init K d r) events →
      CiphersAuthentic K d r (run K d r events)) := by
  constructor
  · intro c hc hengaged
    have hseen : Guarded (step K d r)
        (fun _ e => EventSeen (fun req => LinkEvent.request .responder req ∈ events) e)
        (init K d r) events := by
      refine guarded_of_mem (fun e he => ?_) _
      match e with
      | .request .responder req => exact he
      | .request .dialer _ => trivial
      | .response _ _ => trivial
      | .timeout _ => trivial
    have hinv := inv_run hpolicy hdial hboot hunforged hseen
    obtain ⟨req, hmem, hd, hr, hoffer, hchosen⟩ := hinv.transcripts_agree hhash hc hengaged
    have hsame : d.cipherOffer = r.cipherOffer := by
      rw [cipherOffer_of_engaged hd, cipherOffer_of_engaged hr]
    refine ⟨req, hmem, hoffer, hchosen, ?_⟩
    show _ = r.cipherOffer ∧ _ = r.cipherOffer ↔ req.cipherOffer = d.cipherOffer ∧ _ = d.cipherOffer
    rw [hoffer, hchosen, hsame]
  · intro hintact
    refine (inv_run hpolicy hdial hboot hunforged (hintact.mono ?_)).ciphersAuthentic hhash
    intro s e he
    match e with
    | .request .responder req => exact he
    | .request .dialer _ => trivial
    | .response _ _ => trivial
    | .timeout _ => trivial

/-! ## Two runs -/

section

variable (offer chosen : UInt8)

/-- One handshake of the two nodes, request and answer with their cipher fields set to these on the
way. -/
def handshakeWith : List (LinkEvent Bytes) :=
  let req := { dialingNode.selfRequest transparent with cipherOffer := offer, chosenCipher := chosen }
  let answered := step transparent dialingNode acceptingNode (init transparent dialingNode acceptingNode)
    (.request .responder req)
  .request .responder req :: answered.responder.responses.map fun resp =>
    .response .dialer { resp with cipherOffer := offer, chosenCipher := chosen }

end

/-- The proof of a frame to the dialer is one the link has seen. -/
def ProofCopied (s : Link Bytes) : LinkEvent Bytes → Prop
  | .request .dialer req => req.proof ∈ s.proved.map (sharedKey.material ++ ·)
  | .response .dialer resp => resp.proof ∈ s.proved.map (sharedKey.material ++ ·)
  | _ => True

instance (s : Link Bytes) (e : LinkEvent Bytes) : Decidable (ProofCopied s e) := by
  unfold ProofCopied
  split <;> infer_instance

theorem unforged_of_copied {s : Link Bytes} {proof : Bytes}
    (h : proof ∈ s.proved.map (sharedKey.material ++ ·)) : UnforgedProof transparent sharedStore s proof := by
  intro key hkey x hx
  obtain ⟨m, hm, rfl⟩ := List.mem_map.mp h
  obtain rfl : key = sharedKey := List.mem_singleton.mp hkey
  exact List.append_cancel_left (Option.some.inj hx) ▸ hm

theorem unforged_of_proofCopied (s : Link Bytes) (e : LinkEvent Bytes)
    (h : ProofCopied s e) : Unforged transparent sharedStore s e := by
  match e with
  | .request .dialer _ => exact unforged_of_copied h
  | .response .dialer _ => exact unforged_of_copied h
  | .request .responder _ => trivial
  | .response .responder _ => trivial
  | .timeout _ => trivial

theorem hashSound_transparent {ts : List Bytes}
    (hset : ∀ t ∈ ts, transparent.transcript t ≠ some (zeroed 32))
    (hinj : ∀ t ∈ ts, ∀ t' ∈ ts, transparent.transcript t = transparent.transcript t' → t = t') :
    HashSound transparent ts := by
  refine ⟨?_, hinj⟩
  intro t ht
  exact ⟨_, rfl, fun hzero => hset t ht (congrArg some hzero)⟩

/-- The honest handshake: the dialer completes, and both ends install the offered cipher. -/
theorem ciphers_authentic_honest :
    DialerSecured (run transparent dialingNode acceptingNode (handshakeWith 1 1)) ∧
      CiphersAuthentic transparent dialingNode acceptingNode
        (run transparent dialingNode acceptingNode (handshakeWith 1 1)) :=
  ⟨by unfold DialerSecured; decide +kernel,
    (ciphers_authentic_of_intact transparent dialingNode acceptingNode sharedStore rfl rfl rfl
      (handshakeWith 1 1)
      (Guarded.mono (by decide +kernel : Guarded _ ProofCopied _ _) unforged_of_proofCopied)
      (hashSound_transparent (by decide +kernel) (by decide +kernel))).2
      ⟨⟨rfl, rfl⟩, trivial, trivial⟩⟩

/-- Both messages rewritten to the other cipher: the dialer completes, and both ends install a
cipher that neither has offered. -/
theorem rewritten_offers_complete :
    let s := run transparent dialingNode acceptingNode (handshakeWith 2 2)
    Guarded (step transparent dialingNode acceptingNode) (Unforged transparent sharedStore)
        (init transparent dialingNode acceptingNode) (handshakeWith 2 2) ∧
      HashSound transparent s.hashed ∧ DialerSecured s ∧
      ¬ CiphersAuthentic transparent dialingNode acceptingNode s ∧
      s.dialer.installed.map SecurityNegotiation.chosenCipher = [2] ∧
      s.responder.installed.map SecurityNegotiation.chosenCipher = [2] ∧
      dialingNode.cipherOffer = 1 ∧ acceptingNode.cipherOffer = 1 := by
  refine ⟨?_, ?_, ?_, ?_, ?_⟩
  · exact Guarded.mono (by decide +kernel : Guarded _ ProofCopied _ _) unforged_of_proofCopied
  · exact hashSound_transparent (by decide +kernel) (by decide +kernel)
  · unfold DialerSecured
    decide +kernel
  · intro h
    have hdialer := h.dialer
    revert hdialer
    decide +kernel
  · decide +kernel

end Link

end Plexus.Security
