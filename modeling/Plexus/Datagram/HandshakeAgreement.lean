/-
# Plexus.Datagram.HandshakeAgreement — two transports and what they agree on.

Two transports with one socket each, over a network that loses, duplicates, delays and reorders.
Each side dials and destroys channels as it likes. When `on_dialed` fires, the terms of the dial are
put beside those of the channel the other side has for this endpoint.

A response echoes the request's terms, says that the other side has *an* entry for the dialer, and
is matched by endpoint. So the two agree when the dial starts clean and stays alone: no dial pending
on either side, no entry left at the other, no old request or response on its way, and the acceptor
keeps its channel until the dial is resolved. Each of these is needed.
-/
import Plexus.Datagram.UdpTransport

namespace Plexus.Datagram

open Lib UdpTransport List

/-! ## The network -/

inductive Side
  | left | right
  deriving DecidableEq

namespace Side

def other : Side → Side
  | left => right
  | right => left

@[simp] theorem other_other (x : Side) : x.other.other = x := by cases x <;> rfl

@[simp] theorem other_ne (x : Side) : x.other ≠ x := by cases x <;> decide

theorem eq_or_eq_other (x y : Side) : y = x ∨ y = x.other := by
  cases x <;> cases y <;> decide

end Side

/-- A datagram on its way. -/
structure Flying where
  src : Side
  dest : Side
  bytes : Bytes
  deriving DecidableEq

/-- An `on_dialed`: the terms of the dial, and of the channel the other side has for the dialer. -/
structure Pairing where
  mine : Option SessionTerms
  theirs : Option SessionTerms
  deriving DecidableEq

/-- Two transports and the datagrams between them. -/
structure UdpNetwork where
  node : Side → UdpTransport Side
  flight : List Flying := []
  pairings : List Pairing := []

inductive NetworkEvent
  | dial (x : Side) (terms : SessionTerms)
  | timer (x : Side) (channel : Nat)
  | destroy (x : Side) (channel : Nat)
  /-- A channel of this side sends. -/
  | transmit (x : Side) (datagram : { d : Bytes // ChannelDatagram d })
  | deliver (i : Nat)
  | duplicate (i : Nat)
  | lose (i : Nat)

namespace UdpNetwork

variable (n : UdpNetwork)

/-- A transport has moved on, and what it sent is on its way. -/
def post (x : Side) (r : UdpTransport Side × UdpTransport.Outbox Side) : UdpNetwork :=
  { n with
    node := Function.update n.node x r.1
    flight := n.flight ++ r.2.map fun m => ⟨x, m.1, m.2⟩ }

/-- The pairings that the step of `x` to `t` has made. -/
def newPairings (x : Side) (t : UdpTransport Side) : List Pairing :=
  (t.dialed.drop (n.node x).dialed.length).map fun channel =>
    ⟨t.termsOf channel, (n.node x.other).termsAt x⟩

def receive (d : Flying) : UdpNetwork :=
  let r := (n.node d.dest).onDatagram d.src d.bytes
  { n.post d.dest r with pairings := n.pairings ++ n.newPairings d.dest r.1 }

def step : NetworkEvent → UdpNetwork
  | .dial x terms => n.post x ((n.node x).dial x.other terms)
  | .timer x channel => n.post x ((n.node x).handshakeTimer channel)
  | .destroy x channel => n.post x ((n.node x).destroy channel, [])
  | .transmit x datagram => n.post x (n.node x, [(x.other, datagram.val)])
  | .deliver i =>
    match n.flight[i]? with
    | none => n
    | some d => receive { n with flight := n.flight.eraseIdx i } d
  | .duplicate i => { n with flight := n.flight ++ (n.flight[i]?).toList }
  | .lose i => { n with flight := n.flight.eraseIdx i }

def start (maxPeers : Side → Nat) : UdpNetwork where
  node x := { demux := { maxPeers := maxPeers x } }

def run (maxPeers : Side → Nat) (es : List NetworkEvent) : UdpNetwork :=
  es.foldl step (start maxPeers)

/-- **Every `on_dialed` found the other side with a channel of the dial's terms.** -/
def Agreed : Prop :=
  ∀ p ∈ n.pairings, ∃ terms, p.mine = some terms ∧ p.theirs = some terms

/-! ## Clean dials -/

/-- A request of `x`, or a response to it. -/
def Concerns (x : Side) (d : Flying) : Prop :=
  match decodeHandshake d.bytes with
  | none => False
  | some ⟨.request, _⟩ => d.src = x
  | some ⟨.response, _⟩ => d.dest = x

instance (x : Side) (d : Flying) : Decidable (Concerns x d) := by
  unfold Concerns
  split <;> infer_instance

/-- A dial finds nothing left of an earlier one; a channel that the other side waits for stays. -/
def Clean : NetworkEvent → Prop
  | .dial x _ => (n.node x).pending = [] ∧ (n.node x.other).pending = [] ∧
      (n.node x.other).demux.lookup x = none ∧ ∀ d ∈ n.flight, ¬ Concerns x d
  | .destroy x channel =>
    (n.node x).demux.lookup x.other = some channel → (n.node x.other).pending = []
  | _ => True

instance (n : UdpNetwork) : (e : NetworkEvent) → Decidable (n.Clean e)
  | .dial x _ => inferInstanceAs (Decidable ((n.node x).pending = [] ∧ (n.node x.other).pending = [] ∧
      (n.node x.other).demux.lookup x = none ∧ ∀ d ∈ n.flight, ¬ Concerns x d))
  | .destroy x channel => inferInstanceAs (Decidable
      ((n.node x).demux.lookup x.other = some channel → (n.node x.other).pending = []))
  | .timer _ _ => isTrue trivial
  | .transmit _ _ => isTrue trivial
  | .deliver _ => isTrue trivial
  | .duplicate _ => isTrue trivial
  | .lose _ => isTrue trivial

/-! ## While a dial is pending -/

/-- The dial of `x` with these terms, as the network and the other side see it. -/
structure Dialing (n : UdpNetwork) (x : Side) (terms : SessionTerms) : Prop where
  requests : ∀ d ∈ n.flight, d.src = x → ∀ asked,
    decodeHandshake d.bytes = some ⟨.request, asked⟩ → asked = terms
  entry : (n.node x.other).demux.lookup x = none ∨ (n.node x.other).termsAt x = some terms
  -- a response is sent by a side that has the channel
  responses : ∀ d ∈ n.flight, d.dest = x → ∀ echoed,
    decodeHandshake d.bytes = some ⟨.response, echoed⟩ → (n.node x.other).termsAt x = some terms

/-- The numbers a transport holds are those of channels it has made, all towards the other side. -/
structure Tidy (x : Side) (t : UdpTransport Side) : Prop where
  entered : ∀ sender channel, t.demux.lookup sender = some channel → channel < t.channels.length
  toward : ∀ ch ∈ t.channels, ch.dest = x.other

structure Inv (n : UdpNetwork) : Prop where
  crossing : ∀ d ∈ n.flight, d.dest = d.src.other
  tidy : ∀ x, Tidy x (n.node x)
  alone : ∀ x, (n.node x).pending ≠ [] → (n.node x.other).pending = []
  dialing : ∀ x, (n.node x).pending = [] ∨ ∃ p terms, (n.node x).pending = [p] ∧
    (n.node x).termsOf p.channel = some terms ∧ Dialing n x terms
  agreed : Agreed n

variable {n : UdpNetwork} {x : Side} {terms : SessionTerms}
  {r : UdpTransport Side × UdpTransport.Outbox Side}

section

variable (n : UdpNetwork) (x : Side) (r : UdpTransport Side × UdpTransport.Outbox Side)

@[simp] theorem node_post_self : (n.post x r).node x = r.1 := by
  exact Function.update_self _ _ _

@[simp] theorem node_post_other : (n.post x r).node x.other = n.node x.other := by
  exact Function.update_of_ne x.other_ne _ _

end

theorem mem_flight_post {d : Flying} (h : d ∈ (n.post x r).flight) :
    d ∈ n.flight ∨ ∃ m ∈ r.2, d = ⟨x, m.1, m.2⟩ := by
  rcases mem_append.mp h with hold | hnew
  · exact .inl hold
  · obtain ⟨m, hm, rfl⟩ := mem_map.mp hnew
    exact .inr ⟨m, hm, rfl⟩

variable {flight : List Flying} {t : UdpTransport Side} {channel : Nat}

theorem Dialing.of_flight (h : Dialing n x terms) (hsub : ∀ d ∈ flight, d ∈ n.flight) :
    Dialing { n with flight := flight } x terms :=
  ⟨fun d hd => h.requests d (hsub d hd), h.entry, fun d hd => h.responses d (hsub d hd)⟩

theorem Dialing.post_self (h : Dialing n x terms)
    (hout : ∀ m ∈ r.2, m.1 = x.other ∧ ∀ asked,
      decodeHandshake m.2 = some ⟨.request, asked⟩ → asked = terms) :
    Dialing (n.post x r) x terms := by
  refine ⟨?_, ?_, ?_⟩
  · intro d hd hsrc asked hasked
    rcases mem_flight_post hd with hold | ⟨m, hm, rfl⟩
    · exact h.requests d hold hsrc asked hasked
    · exact (hout m hm).2 asked hasked
  · rw [node_post_other]
    exact h.entry
  · intro d hd hdest echoed hechoed
    rw [node_post_other]
    rcases mem_flight_post hd with hold | ⟨m, hm, rfl⟩
    · exact h.responses d hold hdest echoed hechoed
    · exact absurd ((hout m hm).1.symm.trans hdest) x.other_ne

theorem Dialing.post_other (h : Dialing n x.other terms)
    (hentry : r.1.demux.lookup x.other = none ∨ r.1.termsAt x.other = some terms)
    (hkeeps : (n.node x).termsAt x.other = some terms → r.1.termsAt x.other = some terms)
    (hout : ∀ m ∈ r.2, ∀ echoed, decodeHandshake m.2 = some ⟨.response, echoed⟩ →
      r.1.termsAt x.other = some terms) : Dialing (n.post x r) x.other terms := by
  obtain ⟨hrequests, -, hresponses⟩ := h
  rw [Side.other_other] at hresponses
  refine ⟨?_, ?_, ?_⟩
  · intro d hd hsrc asked hasked
    rcases mem_flight_post hd with hold | ⟨m, hm, rfl⟩
    · exact hrequests d hold hsrc asked hasked
    · exact absurd hsrc x.other_ne.symm
  · rw [Side.other_other, node_post_self]
    exact hentry
  · intro d hd hdest echoed hechoed
    rw [Side.other_other, node_post_self]
    rcases mem_flight_post hd with hold | ⟨m, hm, rfl⟩
    · exact hkeeps (hresponses d hold hdest echoed hechoed)
    · exact hout m hm echoed hechoed

/-! ## The steps -/

theorem Inv.dialing_of_pending (h : Inv n) (hpending : (n.node x).pending ≠ []) :
    ∃ p terms, (n.node x).pending = [p] ∧ (n.node x).termsOf p.channel = some terms ∧
      Dialing n x terms := by
  rcases h.dialing x with hnone | hsome
  · exact absurd hnone hpending
  · exact hsome

theorem Inv.post (h : Inv n) (hout : ∀ m ∈ r.2, m.1 = x.other) (htidy : Tidy x r.1)
    (halone : r.1.pending ≠ [] → (n.node x.other).pending = [])
    (hself : r.1.pending = [] ∨ ∃ p terms, r.1.pending = [p] ∧ r.1.termsOf p.channel = some terms ∧
      Dialing (n.post x r) x terms)
    (hother : ∀ p terms, (n.node x.other).pending = [p] →
      (n.node x.other).termsOf p.channel = some terms → Dialing n x.other terms →
      Dialing (n.post x r) x.other terms) : Inv (n.post x r) := by
  refine ⟨?_, ?_, ?_, ?_, h.agreed⟩
  · intro d hd
    rcases mem_flight_post hd with hold | ⟨m, hm, rfl⟩
    · exact h.crossing d hold
    · exact hout m hm
  · intro y
    rcases x.eq_or_eq_other y with rfl | rfl
    · rw [node_post_self]
      exact htidy
    · rw [node_post_other]
      exact h.tidy x.other
  · intro y
    rcases x.eq_or_eq_other y with rfl | rfl
    · rw [node_post_self, node_post_other]
      exact halone
    rw [node_post_other, Side.other_other, node_post_self]
    intro hpending
    by_contra hsome
    exact hpending (halone hsome)
  · intro y
    rcases x.eq_or_eq_other y with rfl | rfl
    · rw [node_post_self]
      exact hself
    rw [node_post_other]
    by_cases hpending : (n.node x.other).pending = []
    · exact .inl hpending
    · obtain ⟨p, terms, hp, hterms, hdialing⟩ := h.dialing_of_pending hpending
      exact .inr ⟨p, terms, hp, hterms, hother p terms hp hterms hdialing⟩

theorem Inv.post_same (h : Inv n) (hout : ∀ m ∈ r.2, m.1 = x.other) (hnode : r.1 = n.node x)
    (hsilent : ∀ m ∈ r.2, decodeHandshake m.2 = none) : Inv (n.post x r) := by
  have hnothing : ∀ m ∈ r.2, ∀ hs, decodeHandshake m.2 ≠ some hs := fun m hm hs heq =>
    nomatch (hsilent m hm).symm.trans heq
  refine h.post hout (hnode ▸ h.tidy x) (hnode ▸ h.alone x) ?_ ?_
  · rw [hnode]
    refine (h.dialing x).imp_right fun ⟨p, terms, hp, hterms, hdialing⟩ => ?_
    refine ⟨p, terms, hp, hterms, hdialing.post_self ?_⟩
    exact fun m hm => ⟨hout m hm, fun _ hasked => absurd hasked (hnothing m hm _)⟩
  intro p terms _ _ hdialing
  have hentry := hdialing.entry
  rw [Side.other_other] at hentry
  refine hdialing.post_other ?_ ?_ ?_
  · rw [hnode]
    exact hentry
  · rw [hnode]
    exact id
  · exact fun m hm _ hechoed => absurd hechoed (hnothing m hm _)

theorem Inv.post_nothing (h : Inv n) : Inv (n.post x (n.node x, [])) :=
  h.post_same (forall_mem_nil _) rfl (forall_mem_nil _)

theorem termsOf_append {t' : UdpTransport Side} {ch : TransportChannel Side}
    (h : t'.channels = t.channels ++ [ch]) :
    (∀ channel < t.channels.length, t'.termsOf channel = t.termsOf channel) ∧
      t'.termsOf t.channels.length = some ch.terms := by
  constructor
  · intro channel hlt
    rw [termsOf, h, List.getElem?_append_left hlt]
    rfl
  · rw [termsOf, h, List.getElem?_concat_length]
    rfl

theorem termsOf_lt (h : t.termsOf channel = some terms) : channel < t.channels.length := by
  obtain ⟨ch, hch, -⟩ := Option.map_eq_some_iff.mp h
  exact (List.getElem?_eq_some_iff.mp hch).1

theorem Tidy.append {t' : UdpTransport Side} (h : Tidy x t)
    (hchannels : t'.channels = t.channels ++ [⟨x.other, terms⟩])
    (hdemux : ∀ sender channel, t'.demux.lookup sender = some channel →
      channel = t.channels.length ∨ t.demux.lookup sender = some channel) : Tidy x t' := by
  constructor
  · intro sender channel hlookup
    rw [hchannels, length_append]
    rcases hdemux sender channel hlookup with rfl | hold
    · exact Nat.lt_succ_self _
    · exact Nat.lt_succ_of_lt (h.entered sender channel hold)
  · rw [hchannels]
    exact forall_mem_append.mpr ⟨h.toward, forall_mem_singleton.mpr rfl⟩

section

variable (h : Inv n)
include h

theorem Inv.dial (hclean : n.Clean (.dial x terms)) : Inv (n.step (.dial x terms)) := by
  obtain ⟨hmine, htheirs, hentry, hflight⟩ := hclean
  show Inv (n.post x ((n.node x).dial x.other terms))
  have hchannels : ((n.node x).dial x.other terms).1.channels =
      (n.node x).channels ++ [⟨x.other, terms⟩] := rfl
  refine h.post ?_ ?_ (fun _ => htheirs) (.inr ⟨⟨(n.node x).channels.length, 1⟩, terms, ?_, ?_, ?_⟩)
    (fun p _ hp => absurd (htheirs.symm.trans hp) (cons_ne_nil p []).symm)
  · exact forall_mem_singleton.mpr rfl
  · refine (h.tidy x).append hchannels ?_
    intro sender channel hlookup
    cases hinsert : (n.node x).demux.insert x.other (n.node x).channels.length with
    | none =>
      have hsame : ((n.node x).dial x.other terms).1.demux = (n.node x).demux := by
        show ((n.node x).demux.insert _ _).getD (n.node x).demux = _
        rw [hinsert]
        rfl
      rw [hsame] at hlookup
      exact .inr hlookup
    | some demux =>
      have hentered : ((n.node x).dial x.other terms).1.demux = demux := by
        show ((n.node x).demux.insert _ _).getD (n.node x).demux = _
        rw [hinsert]
        rfl
      rw [hentered, InboundDemux.lookup_insert hinsert] at hlookup
      split at hlookup
      · exact .inl (Option.some.inj hlookup).symm
      · exact .inr hlookup
  · show (n.node x).pending ++ [_] = [_]
    rw [hmine]
    rfl
  · exact (termsOf_append hchannels).2
  · -- no request of the dialer was on its way, and no response to it
    have hclear : Dialing n x terms := by
      refine ⟨?_, .inl hentry, ?_⟩
      · intro d hd hsrc asked hasked
        refine absurd ?_ (hflight d hd)
        rw [Concerns, hasked]
        exact hsrc
      intro d hd hdest echoed hechoed
      refine absurd ?_ (hflight d hd)
      rw [Concerns, hechoed]
      exact hdest
    apply hclear.post_self
    refine forall_mem_singleton.mpr ⟨rfl, ?_⟩
    intro asked hasked
    rw [decodeHandshake_encodeHandshake] at hasked
    cases hasked
    rfl

/-- The step of a side with a dial pending, in which only that side's dial is at stake. -/
theorem Inv.post_dialer {p : PendingDial} (hp : (n.node x).pending = [p])
    (hterms : (n.node x).termsOf p.channel = some terms) (hdialing : Dialing n x terms)
    (hout : ∀ m ∈ r.2, m.1 = x.other ∧ ∀ asked,
      decodeHandshake m.2 = some ⟨.request, asked⟩ → asked = terms)
    (htidy : Tidy x r.1) (hchannels : r.1.channels = (n.node x).channels)
    (hpending : r.1.pending = [] ∨ ∃ q, r.1.pending = [q] ∧ q.channel = p.channel) :
    Inv (n.post x r) := by
  have hbusy : (n.node x).pending ≠ [] := by
    rw [hp]
    exact cons_ne_nil p []
  have hidle := h.alone x hbusy
  refine h.post (fun m hm => (hout m hm).1) htidy (fun _ => hidle) ?_
    (fun q _ hq => absurd (hidle.symm.trans hq) (cons_ne_nil q []).symm)
  rcases hpending with hnone | ⟨q, hq, hchannel⟩
  · exact .inl hnone
  · refine .inr ⟨q, terms, hq, ?_, hdialing.post_self hout⟩
    rw [hchannel, termsOf, hchannels]
    exact hterms

theorem Inv.timer (channel : Nat) : Inv (n.step (.timer x channel)) := by
  show Inv (n.post x ((n.node x).handshakeTimer channel))
  unfold handshakeTimer
  split
  · rename_i p ch hfind hch
    have hchannel : p.channel = channel := by simpa using find?_some hfind
    have hbusy : (n.node x).pending ≠ [] := by
      intro hnil
      rw [hnil] at hfind
      cases hfind
    obtain ⟨q, terms, hq, hterms, hdialing⟩ := h.dialing_of_pending hbusy
    -- the one pending dial is the one whose wait has ended
    obtain rfl : p = q := by
      have hmem := mem_of_find?_eq_some hfind
      rw [hq] at hmem
      exact mem_singleton.mp hmem
    have hchosen : ch.terms = terms := by
      rw [termsOf, hchannel, hch] at hterms
      exact Option.some.inj hterms
    have htoward : ch.dest = x.other := (h.tidy x).toward ch (mem_of_getElem? hch)
    split
    · refine h.post_dialer hq hterms hdialing (forall_mem_nil _) ?_ rfl (.inl ?_)
      · refine ⟨?_, (h.tidy x).toward⟩
        intro sender other hlookup
        have herased : ((n.node x).demux.erase ch.dest).lookup sender = some other := hlookup
        rw [InboundDemux.lookup_erase] at herased
        split at herased
        · cases herased
        · exact (h.tidy x).entered sender other herased
      · show (n.node x).pending.filter (fun p => p.channel ≠ channel) = []
        rw [hq]
        simp [hchannel]
    · refine h.post_dialer hq hterms hdialing ?_ ⟨(h.tidy x).entered, (h.tidy x).toward⟩ rfl (.inr ?_)
      · refine forall_mem_singleton.mpr ⟨htoward, ?_⟩
        intro asked hasked
        rw [decodeHandshake_encodeHandshake] at hasked
        cases hasked
        exact hchosen
      · refine ⟨{ p with attempt := p.attempt + 1 }, ?_, rfl⟩
        show (n.node x).pending.map _ = _
        rw [hq]
        simp [hchannel]
  · exact h.post_nothing

theorem Inv.destroy (hclean : n.Clean (.destroy x channel)) :
    Inv (n.step (.destroy x channel)) := by
  show Inv (n.post x ((n.node x).destroy channel, []))
  unfold UdpTransport.destroy
  split
  · exact h.post_nothing
  split
  · exact h.post_nothing
  rename_i ch hch
  have htoward : ch.dest = x.other := (h.tidy x).toward ch (mem_of_getElem? hch)
  set demux := (n.node x).demux.eraseIfMatches ch.dest channel with hdemux
  have hlookup : ∀ sender, demux.lookup sender =
      if sender = x.other ∧ (n.node x).demux.lookup x.other = some channel then none
      else (n.node x).demux.lookup sender := by
    intro sender
    rw [hdemux, htoward]
    exact InboundDemux.lookup_eraseIfMatches _ _ _ _
  refine h.post (forall_mem_nil _) ?_ (h.alone x) ?_ ?_
  · refine ⟨?_, (h.tidy x).toward⟩
    intro sender other hother
    have herased : demux.lookup sender = some other := hother
    rw [hlookup] at herased
    split at herased
    · cases herased
    · exact (h.tidy x).entered sender other herased
  · refine (h.dialing x).imp_right fun ⟨p, terms, hp, hterms, hdialing⟩ => ?_
    exact ⟨p, terms, hp, hterms, hdialing.post_self (forall_mem_nil _)⟩
  -- the channel is not the one the other side waits for
  intro p terms hp _ hdialing
  have hkept : ¬ (n.node x).demux.lookup x.other = some channel :=
    fun hmatch => absurd ((hclean hmatch).symm.trans hp) (cons_ne_nil p []).symm
  have hentry : demux.lookup x.other = (n.node x).demux.lookup x.other := by
    rw [hlookup, if_neg fun hboth => hkept hboth.2]
  have hterms : termsAt { n.node x with demux := demux } x.other = (n.node x).termsAt x.other := by
    show (demux.lookup x.other).bind _ = _
    rw [hentry]
    rfl
  have hbefore := hdialing.entry
  rw [Side.other_other] at hbefore
  refine hdialing.post_other ?_ ?_ (forall_mem_nil _)
  · rw [hterms]
    exact hbefore.imp_left hentry.trans
  · rw [hterms]
    exact id

theorem Inv.of_flight (hsub : ∀ d ∈ flight, d ∈ n.flight) : Inv { n with flight := flight } := by
  refine ⟨fun d hd => h.crossing d (hsub d hd), h.tidy, h.alone, ?_, h.agreed⟩
  intro y
  refine (h.dialing y).imp_right fun ⟨p, terms, hp, hterms, hdialing⟩ => ?_
  exact ⟨p, terms, hp, hterms, hdialing.of_flight hsub⟩

theorem Inv.with_pairings {pairings : List Pairing}
    (hagreed : Agreed { n with pairings := pairings }) : Inv { n with pairings := pairings } := by
  refine ⟨h.crossing, h.tidy, h.alone, ?_, hagreed⟩
  intro y
  refine (h.dialing y).imp_right fun ⟨p, terms, hp, hterms, hdialing⟩ => ?_
  exact ⟨p, terms, hp, hterms, hdialing.requests, hdialing.entry, hdialing.responses⟩

end

theorem response_sent {sender : Side} {terms : SessionTerms} :
    ∀ m ∈ [(sender, encodeHandshake .response terms)], m.1 = sender ∧ ∀ asked,
      decodeHandshake m.2 ≠ some ⟨.request, asked⟩ := by
  refine forall_mem_singleton.mpr ⟨rfl, ?_⟩
  intro asked hasked
  rw [decodeHandshake_encodeHandshake] at hasked
  cases hasked

theorem Inv.answered (h : Inv n) {asked : SessionTerms}
    (hentry : (n.node x).demux.lookup x.other = some channel) :
    Inv (n.post x (n.node x, [(x.other, encodeHandshake .response asked)])) := by
  refine h.post (fun m hm => (response_sent m hm).1) (h.tidy x) (h.alone x) ?_ ?_
  · refine (h.dialing x).imp_right fun ⟨p, terms, hp, hterms, hdialing⟩ => ?_
    refine ⟨p, terms, hp, hterms, hdialing.post_self ?_⟩
    exact fun m hm => ⟨(response_sent m hm).1, fun _ h => absurd h ((response_sent m hm).2 _)⟩
  intro p terms _ _ hdialing
  -- the entry there is has the terms of the dial
  have hbefore := hdialing.entry
  rw [Side.other_other] at hbefore
  have hterms : (n.node x).termsAt x.other = some terms := by
    rcases hbefore with hnone | hterms
    · exact absurd (hentry.symm.trans hnone) (Option.some_ne_none channel)
    · exact hterms
  exact hdialing.post_other (.inr hterms) (fun _ => hterms) (fun _ _ _ _ => hterms)

theorem Inv.accepted (h : Inv n) {asked : SessionTerms} {demux : InboundDemux Side Nat}
    (hentered : (n.node x).demux.insert x.other (n.node x).channels.length = some demux)
    (hasked : ∀ p terms, (n.node x.other).pending = [p] →
      (n.node x.other).termsOf p.channel = some terms → asked = terms) :
    Inv (n.post x ({ n.node x with
      demux := demux
      channels := (n.node x).channels ++ [⟨x.other, asked⟩]
      accepted := (n.node x).accepted ++ [(n.node x).channels.length] },
      [(x.other, encodeHandshake .response asked)])) := by
  have hlookup := InboundDemux.lookup_insert hentered
  refine h.post (fun m hm => (response_sent m hm).1) ((h.tidy x).append rfl ?_) (h.alone x) ?_ ?_
  · intro sender channel hfound
    have hfound' : demux.lookup sender = some channel := hfound
    rw [hlookup] at hfound'
    split at hfound'
    · exact .inl (Option.some.inj hfound').symm
    · exact .inr hfound'
  · refine (h.dialing x).imp_right fun ⟨p, terms, hp, hterms, hdialing⟩ => ?_
    refine ⟨p, terms, hp, ?_, hdialing.post_self ?_⟩
    · exact ((termsOf_append rfl).1 p.channel (termsOf_lt hterms)).trans hterms
    · exact fun m hm => ⟨(response_sent m hm).1, fun _ h => absurd h ((response_sent m hm).2 _)⟩
  intro p terms hp hchosen hdialing
  have hterms : termsAt
      { n.node x with
        demux := demux
        channels := (n.node x).channels ++ [⟨x.other, asked⟩]
        accepted := (n.node x).accepted ++ [(n.node x).channels.length] } x.other = some terms := by
    show (demux.lookup x.other).bind _ = some terms
    rw [hlookup, if_pos rfl, ← hasked p terms hp hchosen]
    show (((n.node x).channels ++ [⟨x.other, asked⟩])[(n.node x).channels.length]?).map _ = some asked
    rw [List.getElem?_concat_length]
    rfl
  exact hdialing.post_other (.inr hterms) (fun _ => hterms) (fun _ _ _ _ => hterms)

theorem newPairings_nil (h : t.dialed = (n.node x).dialed) : n.newPairings x t = [] := by
  unfold newPairings
  rw [h, drop_length]
  rfl

theorem Inv.receive (h : Inv n) {d : Flying} (hd : d ∈ n.flight)
    (hsub : ∀ d ∈ flight, d ∈ n.flight) : Inv (receive { n with flight := flight } d) := by
  have hleft : Inv { n with flight := flight } := h.of_flight hsub
  obtain ⟨src, dest, bytes⟩ := d
  obtain rfl : src = dest.other := by
    have hcrossing : dest = src.other := h.crossing _ hd
    rw [hcrossing, Side.other_other]
  have hreceived := (n.node dest).received_onDatagram dest.other bytes
  show Inv { UdpNetwork.post { n with flight := flight } dest
      ((n.node dest).onDatagram dest.other bytes) with
    pairings := n.pairings ++ UdpNetwork.newPairings { n with flight := flight } dest
      ((n.node dest).onDatagram dest.other bytes).1 }
  generalize (n.node dest).onDatagram dest.other bytes = r at hreceived
  obtain ⟨t, out⟩ := r
  cases hreceived with
  | ignored =>
    rw [newPairings_nil rfl, append_nil]
    exact hleft.post_nothing
  | answered hentry hrequest =>
    rw [newPairings_nil rfl, append_nil]
    exact hleft.answered hentry
  | accepted hnone hrequest hentered =>
    rw [newPairings_nil, append_nil]
    swap
    · rfl
    refine hleft.accepted hentered ?_
    intro p terms hp hterms
    -- the request is one of the pending dial
    obtain ⟨q, chosen, hq, hchosen, hdialing⟩ := h.dialing_of_pending (x := dest.other)
      (fun hnil => absurd (hnil.symm.trans hp) (cons_ne_nil p []).symm)
    obtain rfl : p = q := (cons.inj (hp.symm.trans hq)).1
    obtain rfl : chosen = terms := Option.some.inj (hchosen.symm.trans hterms)
    exact hdialing.requests _ hd rfl _ hrequest
  | resolved hentry hresponse hdialed =>
    rename_i channel echoed
    obtain ⟨p, hmem, rfl⟩ := hdialed
    have hbusy : (n.node dest).pending ≠ [] := ne_nil_of_mem hmem
    obtain ⟨q, terms, hq, hterms, hdialing⟩ := h.dialing_of_pending hbusy
    obtain rfl : p = q := by
      rw [hq] at hmem
      exact mem_singleton.mp hmem
    have hpaired : (n.node dest.other).termsAt dest = some terms :=
      hdialing.responses _ hd rfl _ hresponse
    refine Inv.with_pairings ?_ ?_
    · refine hleft.post_dialer hq hterms (hdialing.of_flight hsub)
        (forall_mem_nil _) ⟨(h.tidy dest).entered, (h.tidy dest).toward⟩ rfl
        (.inl ?_)
      show (n.node dest).pending.filter (fun q => q.channel ≠ p.channel) = []
      rw [hq]
      simp
    intro pairing hpairing
    rcases mem_append.mp hpairing with hold | hnew
    · exact h.agreed pairing hold
    obtain ⟨channel, hchannel, rfl⟩ := mem_map.mp hnew
    have hlast : channel ∈ ((n.node dest).dialed ++ [p.channel]).drop (n.node dest).dialed.length :=
      hchannel
    rw [drop_left] at hlast
    rw [mem_singleton.mp hlast]
    exact ⟨terms, hterms, hpaired⟩

theorem inv_step {e : NetworkEvent} (h : Inv n) (hclean : n.Clean e) : Inv (n.step e) := by
  cases e with
  | dial x terms => exact h.dial hclean
  | timer x channel => exact h.timer channel
  | destroy x channel => exact h.destroy hclean
  | transmit x datagram =>
    refine h.post_same (forall_mem_singleton.mpr rfl) rfl ?_
    exact forall_mem_singleton.mpr datagram.property.decodeHandshake
  | deliver i =>
    show Inv (match n.flight[i]? with
      | none => n
      | some d => .receive { n with flight := n.flight.eraseIdx i } d)
    cases hflying : n.flight[i]? with
    | none => exact h
    | some d =>
      exact h.receive (mem_of_getElem? hflying) fun _ hmem =>
        (eraseIdx_sublist n.flight i).subset hmem
  | duplicate i =>
    refine h.of_flight ?_
    intro d hmem
    rcases mem_append.mp hmem with hold | hcopy
    · exact hold
    · exact mem_of_getElem? (Option.mem_toList.mp hcopy)
  | lose i => exact h.of_flight fun _ hmem => (eraseIdx_sublist n.flight i).subset hmem

theorem inv_start (maxPeers : Side → Nat) : Inv (start maxPeers) where
  crossing := forall_mem_nil _
  tidy := fun _ => ⟨fun _ _ h => (nomatch h), forall_mem_nil _⟩
  alone := fun _ _ => rfl
  dialing := fun _ => .inl rfl
  agreed := forall_mem_nil _

/-- **Clean dials agree.** Over any network and with any caps of the two demultiplexers: where each
dial starts with no dial pending, no entry on the other side and none of its handshake datagrams on
their way, and the channel a pending dial is for is not destroyed, every `on_dialed` finds the other
side with a channel of the terms that were dialed. -/
theorem clean_dials_agree (maxPeers : Side → Nat) {es : List NetworkEvent}
    (hclean : Guarded step Clean (start maxPeers) es) : Agreed (run maxPeers es) :=
  (hclean.invariant Inv (fun _ _ h hok => inv_step h hok) (inv_start maxPeers)).agreed

/-! ## Five runs -/

def defaultMaxPeers : Side → Nat := fun _ => 4096

def reliableTerms : SessionTerms := ⟨.reliableDatagram, 7⟩
def bestEffortTerms : SessionTerms := ⟨.bestEffort, 9⟩

/-- A request is lost and sent again, its response duplicated; both sides let go, the copy is lost,
and the other side dials. -/
def cleanRun : List NetworkEvent :=
  [.dial .left reliableTerms, .lose 0, .timer .left 0, .deliver 0, .duplicate 0, .deliver 0,
    .destroy .left 0, .destroy .right 0, .lose 0, .dial .right bestEffortTerms, .deliver 0, .deliver 0]

theorem clean_dials_agree_twice :
    (run defaultMaxPeers cleanRun).pairings =
        [⟨some reliableTerms, some reliableTerms⟩, ⟨some bestEffortTerms, some bestEffortTerms⟩] ∧
      Agreed (run defaultMaxPeers cleanRun) :=
  ⟨by decide +kernel, clean_dials_agree defaultMaxPeers (by decide +kernel)⟩

/-- The dialer drops its channel and dials again with other terms. -/
def redialRun : List NetworkEvent :=
  [.dial .left reliableTerms, .deliver 0, .deliver 0, .destroy .left 0, .dial .left bestEffortTerms,
    .deliver 0, .deliver 0]

/-- Both sides dial. -/
def crossedRun : List NetworkEvent :=
  [.dial .left reliableTerms, .dial .right bestEffortTerms, .deliver 0, .deliver 1]

/-- A second copy of the response comes after both have let go, and the next dial has begun. -/
def staleRun : List NetworkEvent :=
  [.dial .left reliableTerms, .deliver 0, .duplicate 0, .deliver 0, .destroy .left 0, .destroy .right 0,
    .dial .left bestEffortTerms, .deliver 0]

/-- The acceptor destroys its channel while the response is on its way. -/
def droppedRun : List NetworkEvent :=
  [.dial .left reliableTerms, .deliver 0, .destroy .right 0, .deliver 0]

/-- Each run breaks one of the conditions, and in each an `on_dialed` finds other terms, or no
channel. -/
theorem unclean_dials_disagree :
    (run defaultMaxPeers redialRun).pairings =
        [⟨some reliableTerms, some reliableTerms⟩, ⟨some bestEffortTerms, some reliableTerms⟩] ∧
      (run defaultMaxPeers crossedRun).pairings = [⟨some reliableTerms, some bestEffortTerms⟩] ∧
      (run defaultMaxPeers staleRun).pairings =
        [⟨some reliableTerms, some reliableTerms⟩, ⟨some bestEffortTerms, none⟩] ∧
      (run defaultMaxPeers droppedRun).pairings = [⟨some reliableTerms, none⟩] := by
  decide +kernel

end UdpNetwork

end Plexus.Datagram
