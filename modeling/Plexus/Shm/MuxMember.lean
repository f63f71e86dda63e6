/-
# Plexus.Shm.MuxMember — the shared-memory transport and who holds its rings
(`shm/shm_mux_member.h`, `shm/detail/shm_mux_acquire.h`, `shm/shm_byte_channel.h`,
`upgrade_ring_max_payload` and `route_message_medium` of `shm/shm_selection.h`).

A ring is open on behalf of its holders: byte channels, receive companions, and probes of
`can_acquire` that no dial has consumed. `mux_open` takes a reference when the topic has no entry
and otherwise uses the one it finds, as if a probe had left it there. `Accounted`: the entry's count
is the number of holders.

A second `dial` of a topic, or a companion for a second peer, finds the entry of the first and
counts for nothing. `backed` is the condition that this does not happen, and it is exact
(`Deficit.breaks`).
-/
import Plexus.Io.Fragmentation
import Plexus.Lib.Run
import Plexus.Shm.TopicRegistry

namespace Plexus.Shm

open Lib Wire List

/-! ## The member -/

structure ShmProvisioned where
  maxPayload : UInt32 := 0
  mode : RingGeometryMode := .reliablePreserving
  consumerCapacity : UInt32 := 0
  deriving DecidableEq

def upgradeRingMaxPayload (direction : RingDirection) (publisherMaxPayload : UInt32) : UInt32 :=
  if direction = .request then publisherMaxPayload else 0

inductive SameHostMedium
  | stream | shm
  deriving DecidableEq

/-- Only `wire_fallback` sends a message that is too large for a slot by the wire. -/
def routeMessageMedium (mode : RingGeometryMode) (messageBytes cappedSlotCapacity : Nat) :
    SameHostMedium :=
  if mode ≠ .wireFallback then .shm
  else if messageBytes ≤ cappedSlotCapacity then .shm
  else .stream

structure ShmMuxMember (σ : Type) where
  registry : ShmTopicRegistry σ := {}
  geometry : Text → Option ShmProvisioned := fun _ => none

namespace ShmMuxMember

variable {σ : Type} (m : ShmMuxMember σ) (fqn : Text)

def muxResolve (direction : RingDirection) (amode : AcquireMode) : AcquireRequest :=
  let p := (m.geometry fqn).getD {}
  { maxPayload := upgradeRingMaxPayload direction p.maxPayload, mode := p.mode,
    consumerCapacity := p.consumerCapacity, amode }

/-- `mux_open`: a channel over the ring of a topic, by the ring's number. -/
def muxOpen (amode : AcquireMode) (ans : BrokerAnswers) : ShmMuxMember σ × Option Nat :=
  match m.registry.channelFor (fqn, .request) with
  | some ring => (m, some ring)
  | none =>
    let (registry, result) :=
      m.registry.acquire (fqn, .request) (m.muxResolve fqn .request amode) ans
    let m := { m with registry }
    if result = .failed then (m, none) else (m, m.registry.channelFor (fqn, .request))

def listen (ans : BrokerAnswers) : ShmMuxMember σ × Option Nat :=
  m.muxOpen fqn .reclaimStale ans

/-- `dial`: the ring `on_dialed` is handed, or what `on_dial_failed` is told. -/
def dial (ans : BrokerAnswers) : ShmMuxMember σ × Except Io.IoError Nat :=
  match m.muxOpen fqn .reclaimStale ans with
  | (m, some ring) => (m, .ok ring)
  | (m, none) => (m, .error .connectionRefused)

/-- `can_acquire`: a successful probe leaves the ring acquired. -/
def canAcquire (ans : BrokerAnswers) : ShmMuxMember σ × Bool :=
  let req := m.muxResolve fqn .request .reclaimStale
  if req.mode = .wireFallback then (m, false)
  else
    let (registry, result) := m.registry.acquire (fqn, .request) req ans
    ({ m with registry }, result ≠ .failed)

def abandon : ShmMuxMember σ :=
  { m with registry := m.registry.release (fqn, .request) }

def mintCompanion (ans : BrokerAnswers) : ShmMuxMember σ × Option Nat :=
  m.muxOpen fqn .joinLive ans

/-- `mint_receive_companion`: whether a handle is returned. -/
def mintReceiveCompanion (sink : σ) (ans : BrokerAnswers) : ShmMuxMember σ × Bool :=
  let (registry, result) :=
    m.registry.acquire (fqn, .request) (m.muxResolve fqn .request .joinLive) ans
  if result = .failed then ({ m with registry }, false)
  else ({ m with registry := registry.setConsumerSink (fqn, .request) sink }, true)

def setTopicGeometry (effectiveBytes : Nat) (mode : RingGeometryMode) (maxConsumers : UInt32) :
    ShmMuxMember σ :=
  { m with
    geometry := Function.update m.geometry fqn
      (some { maxPayload := .ofNat effectiveBytes, mode, consumerCapacity := maxConsumers }) }

/-- `resolved_geometry_for`: the mode and the slot capacity of a topic. -/
def resolvedGeometryFor : RingGeometryMode × Nat :=
  match m.geometry fqn with
  | none => (.reliablePreserving, 0)
  | some p => (p.mode, (ringGeometryFor (some p.maxPayload) p.mode p.consumerCapacity).2)

/-- `companion_route`: whether a message of this size rides the ring. -/
def companionRoute (bytes : Nat) : Bool :=
  let (mode, cap) := m.resolvedGeometryFor fqn
  routeMessageMedium mode bytes cap = .shm

/-- `~shm_byte_channel` and `close`, once. -/
def releaseChannel : ShmMuxMember σ :=
  { m with registry := m.registry.release (fqn, .request) }

/-- `~shm_companion_consumer`. -/
def releaseReceiver : ShmMuxMember σ :=
  { m with
    registry := (m.registry.clearConsumerSink (fqn, .request)).release (fqn, .request) }

end ShmMuxMember

/-! ## The member and its holders -/

/-- A byte channel, with the ring it refers to, or a receive companion, which goes by the name. -/
structure Holder where
  fqn : Text
  ring : Option Nat
  released : Bool := false
  deriving DecidableEq

/-- It still holds the ring of `fqn`. -/
def Holder.holds (fqn : Text) (h : Holder) : Bool := h.fqn = fqn && !h.released

/-- A member with those who hold its rings. -/
structure MuxSys (σ : Type) where
  member : ShmMuxMember σ := {}
  holders : List Holder := []
  /-- The probes that left a reference and were neither consumed nor abandoned. -/
  probes : Text → Nat := fun _ => 0

/-- `taken` says whether a callback is there to take the channel; a holder is named by its place. -/
inductive MuxEvent (σ : Type)
  | setTopicGeometry (fqn : Text) (effectiveBytes : Nat) (mode : RingGeometryMode)
      (maxConsumers : UInt32)
  | canAcquire (fqn : Text) (ans : BrokerAnswers)
  | abandon (fqn : Text)
  | listen (fqn : Text) (taken : Bool) (ans : BrokerAnswers)
  | dial (fqn : Text) (taken : Bool) (ans : BrokerAnswers)
  | mintCompanion (fqn : Text) (ans : BrokerAnswers)
  | mintReceiveCompanion (fqn : Text) (sink : σ) (ans : BrokerAnswers)
  | close (i : Nat)
  | destroy (i : Nat)

namespace MuxSys

variable {σ : Type}

def live (s : MuxSys σ) (fqn : Text) : Bool := s.member.registry.live (fqn, .request)

variable (s : MuxSys σ)

def setMember (member : ShmMuxMember σ) : MuxSys σ := { s with member }

def addHolder (fqn : Text) (ring : Option Nat) : MuxSys σ :=
  { s with holders := s.holders ++ [{ fqn, ring }] }

def setProbes (fqn : Text) (n : Nat) : MuxSys σ :=
  { s with probes := Function.update s.probes fqn n }

/-- What became of a channel `mux_open` made: taken, or destroyed on the spot. A ring that was
open before is the one a probe left. -/
def opened (fqn : Text) (taken : Bool) (r : ShmMuxMember σ × Option Nat) : MuxSys σ :=
  let s := if s.live fqn then s.setProbes fqn (s.probes fqn - 1) else s
  match r with
  | (member, none) => s.setMember member
  | (member, some ring) =>
    if taken then (s.setMember member).addHolder fqn (some ring)
    else s.setMember (member.releaseChannel fqn)

/-- A holder lets go, if it still holds. -/
def letGo (i : Nat) : MuxSys σ :=
  match s.holders[i]? with
  | none => s
  | some h =>
    if h.released then s
    else
      { s with
        member := if h.ring.isSome then s.member.releaseChannel h.fqn
          else s.member.releaseReceiver h.fqn
        holders := s.holders.set i { h with released := true } }

def step : MuxEvent σ → MuxSys σ
  | .setTopicGeometry fqn effectiveBytes mode maxConsumers =>
    s.setMember (s.member.setTopicGeometry fqn effectiveBytes mode maxConsumers)
  | .canAcquire fqn ans =>
    match s.member.canAcquire fqn ans with
    | (member, true) => (s.setMember member).setProbes fqn (s.probes fqn + 1)
    | (member, false) => s.setMember member
  | .abandon fqn => (s.setMember (s.member.abandon fqn)).setProbes fqn (s.probes fqn - 1)
  | .listen fqn taken ans => s.opened fqn taken (s.member.listen fqn ans)
  | .dial fqn taken ans =>
    match s.member.dial fqn ans with
    | (member, .ok ring) => s.opened fqn taken (member, some ring)
    | (member, .error _) => s.opened fqn taken (member, none)
  | .mintCompanion fqn ans => s.opened fqn true (s.member.mintCompanion fqn ans)
  | .mintReceiveCompanion fqn sink ans =>
    match s.member.mintReceiveCompanion fqn sink ans with
    | (member, true) => (s.setMember member).addHolder fqn none
    | (member, false) => s.setMember member
  | .close i =>
    -- a receive companion has no `close`
    if (s.holders[i]?.bind Holder.ring).isSome then s.letGo i else s
  | .destroy i => s.letGo i

def run (events : List (MuxEvent σ)) : MuxSys σ := events.foldl step s

/-- A member as it is built, with its ceiling on the size of a ring. -/
def fresh (maxRingSlabBytes : Nat) : MuxSys σ := { member := { registry := { maxRingSlabBytes } } }

/-- How many hold the ring of `fqn`. -/
def users (fqn : Text) : Nat := s.holders.countP (Holder.holds fqn) + s.probes fqn

/-- A ring is open exactly as long as somebody holds it, and the channels that hold it refer to the
one that is open. -/
def RingsLive : Prop :=
  ∀ fqn, (s.live fqn = true ↔ 0 < s.users fqn) ∧
    ∀ h ∈ s.holders, h.holds fqn = true → ∀ ring, h.ring = some ring →
      s.member.registry.channelFor (fqn, .request) = some ring

/-- A channel is opened over a live entry, and a probe abandoned, only when a probe is there. -/
def backed : MuxEvent σ → Prop
  | .abandon fqn | .listen fqn _ _ | .dial fqn _ _ | .mintCompanion fqn _ =>
    s.live fqn = true → 0 < s.probes fqn
  | _ => True

instance (s : MuxSys σ) : (e : MuxEvent σ) → Decidable (s.backed e)
  | .abandon fqn | .listen fqn _ _ | .dial fqn _ _ | .mintCompanion fqn _ =>
    inferInstanceAs (Decidable (s.live fqn = true → 0 < s.probes fqn))
  | .setTopicGeometry _ _ _ _ | .canAcquire _ _ | .mintReceiveCompanion _ _ _ | .close _
  | .destroy _ => isTrue trivial

/-! ## What a call does to the rings -/

end MuxSys

namespace ShmMuxMember

variable {σ : Type} {m : ShmMuxMember σ}

open ShmTopicRegistry

section

variable (hs : m.registry.Sound) (fqn : Text)
include hs

/-- `mux_open` over a live entry takes nothing; over a dead one it takes a reference or fails. -/
theorem muxOpen_spec (amode : AcquireMode) (ans : BrokerAnswers) :
    let r := m.muxOpen fqn amode ans
    (m.registry.live (fqn, .request) = true ∧ ∃ ring, r = (m, some ring) ∧
        m.registry.channelFor (fqn, .request) = some ring) ∨
    (m.registry.live (fqn, .request) = false ∧
      ((∃ ring, r.2 = some ring ∧ m.registry.Takes r.1.registry (fqn, .request) ∧
          r.1.registry.channelFor (fqn, .request) = some ring) ∨
        (r.2 = none ∧ m.registry.SameRings r.1.registry))) := by
  dsimp only
  cases hring : m.registry.channelFor (fqn, .request) with
  | some ring =>
    refine .inl ⟨?_, ring, by simp only [muxOpen, hring], rfl⟩
    by_contra hdead
    rw [Bool.not_eq_true, ← channelFor_eq_none_iff, hring] at hdead
    cases hdead
  | none =>
    refine .inr ⟨(channelFor_eq_none_iff _ _).mp hring, ?_⟩
    by_cases hfail : (m.registry.acquire (fqn, .request) (m.muxResolve fqn .request amode) ans).2 =
        .failed
    · right
      simp only [muxOpen, hring, if_pos hfail]
      exact ⟨trivial, sameRings_acquire hs hfail⟩
    left
    have htakes := takes_acquire hfail
    simp only [muxOpen, hring, if_neg hfail]
    obtain ⟨e, he, -, -⟩ := acquire_ok hfail
    exact ⟨e.ring, by rw [channelFor, he]; rfl, htakes, by rw [channelFor, he]; rfl⟩

theorem canAcquire_spec (ans : BrokerAnswers) :
    ((m.canAcquire fqn ans).2 = true ∧
      m.registry.Takes (m.canAcquire fqn ans).1.registry (fqn, .request)) ∨
    ((m.canAcquire fqn ans).2 = false ∧ m.registry.SameRings (m.canAcquire fqn ans).1.registry) := by
  unfold canAcquire
  dsimp only
  split
  · exact .inr ⟨rfl, fun _ => rfl, fun _ => rfl, id⟩
  by_cases hfail : (m.registry.acquire (fqn, .request)
      (m.muxResolve fqn .request .reclaimStale) ans).2 = .failed
  · exact .inr ⟨by simp [hfail], sameRings_acquire hs hfail⟩
  · exact .inl ⟨by simp [hfail], takes_acquire hfail⟩

theorem mintReceiveCompanion_spec (sink : σ) (ans : BrokerAnswers) :
    let r := m.mintReceiveCompanion fqn sink ans
    (r.2 = true ∧ m.registry.Takes r.1.registry (fqn, .request)) ∨
    (r.2 = false ∧ m.registry.SameRings r.1.registry) := by
  unfold mintReceiveCompanion
  by_cases hfail : (m.registry.acquire (fqn, .request)
      (m.muxResolve fqn .request .joinLive) ans).2 = .failed
  · simp only [if_pos hfail]
    exact .inr ⟨trivial, sameRings_acquire hs hfail⟩
  · simp only [if_neg hfail]
    exact .inl ⟨trivial, (takes_acquire hfail).same (sameRings_setConsumerSink _ _ sink)⟩

end

theorem gives_releaseChannel (m : ShmMuxMember σ) (fqn : Text) :
    m.registry.Gives (m.releaseChannel fqn).registry (fqn, .request) :=
  gives_release _ _

theorem gives_releaseReceiver (m : ShmMuxMember σ) (fqn : Text) :
    m.registry.Gives (m.releaseReceiver fqn).registry (fqn, .request) :=
  (sameRings_clearConsumerSink _ _).gives (gives_release _ _)

end ShmMuxMember

namespace MuxSys

variable {σ : Type}

/-! ## The books -/

/-- The count of every entry is the number of its holders, and the channels refer to the open ring. -/
structure Accounted (s : MuxSys σ) : Prop where
  sound : s.member.registry.Sound
  count : ∀ fqn, s.member.registry.refcount (fqn, .request) = s.users fqn
  rings : ∀ h ∈ s.holders, h.released = false → ∀ ring, h.ring = some ring →
    s.member.registry.channelFor (h.fqn, .request) = some ring

variable {s s' : MuxSys σ} {fqn : Text}

theorem accounted_fresh (maxRingSlabBytes : Nat) : (fresh (σ := σ) maxRingSlabBytes).Accounted where
  sound := ShmTopicRegistry.sound_fresh maxRingSlabBytes
  count := fun _ => rfl
  rings := fun _ h => by cases h

theorem Accounted.ringsLive (h : s.Accounted) : s.RingsLive := by
  intro fqn
  constructor
  · rw [live, h.sound.live_iff, h.count]
  intro x hx hholds ring hring
  simp only [Holder.holds, Bool.and_eq_true, decide_eq_true_eq, Bool.not_eq_true'] at hholds
  rw [← hholds.1]
  exact h.rings x hx hholds.2 ring hring

theorem users_pos_of_holder {x : Holder} (hx : x ∈ s.holders) (hopen : x.released = false) :
    0 < s.users x.fqn := by
  have hcount : 0 < s.holders.countP (Holder.holds x.fqn) :=
    countP_pos_iff.mpr ⟨x, hx, by simp [Holder.holds, hopen]⟩
  exact lt_of_lt_of_le hcount (Nat.le_add_right _ _)

theorem request_ne {f g : Text} (h : f ≠ g) : ((f, .request) : RingKey) ≠ (g, .request) :=
  fun heq => h (Prod.mk.inj heq).1

/-- The books of one topic are kept: its entry is counted anew, and a holder that is new refers to the
open ring. -/
theorem Accounted.recounts (h : s.Accounted) {n : Nat}
    (hcount : s.member.registry.Recounts s'.member.registry (fqn, .request) n)
    (husers : s'.users fqn = n) (hother : ∀ f, f ≠ fqn → s'.users f = s.users f)
    (hholders : ∀ x ∈ s'.holders, x.released = false → x ∈ s.holders ∨ (x.fqn = fqn ∧
      ∀ ring, x.ring = some ring → s'.member.registry.channelFor (fqn, .request) = some ring)) :
    s'.Accounted where
  sound := hcount.sound h.sound
  count := fun f => by
    by_cases hf : f = fqn
    · subst hf
      rw [hcount.refcount, husers]
    · rw [hcount.refcount_of_ne _ (request_ne hf), h.count, hother f hf]
  rings := fun x hx hopen ring hring => by
    rcases hholders x hx hopen with hold | ⟨rfl, hnew⟩
    · have hwas := h.rings x hold hopen ring hring
      by_cases hf : x.fqn = fqn
      · have hbefore := users_pos_of_holder hold hopen
        have hafter := users_pos_of_holder hx hopen
        rw [hf] at hwas hbefore hafter ⊢
        rw [← h.count] at hbefore
        rw [hcount.channelFor hbefore (husers ▸ hafter), hwas]
      · rw [hcount.channelFor_of_ne _ (request_ne hf), hwas]
    · exact hnew ring hring

theorem Accounted.same (h : s.Accounted) {m : ShmMuxMember σ}
    (hsame : s.member.registry.SameRings m.registry) : (s.setMember m).Accounted where
  sound := hsame.sound h.sound
  count := fun f => (hsame.refcount _).trans (h.count f)
  rings := fun x hx hopen ring hring => (hsame.channelFor _).trans (h.rings x hx hopen ring hring)

section

variable (s : MuxSys σ)

@[simp] theorem users_setMember (m : ShmMuxMember σ) (f : Text) :
    (s.setMember m).users f = s.users f := rfl

theorem users_addHolder (fqn : Text) (ring : Option Nat) (f : Text) :
    (s.addHolder fqn ring).users f = s.users f + if f = fqn then 1 else 0 := by
  simp only [users, addHolder, countP_append, countP_singleton, Holder.holds,
    Bool.not_false, Bool.and_true, decide_eq_true_eq, eq_comm (a := f)]
  omega

theorem users_setProbes_self (fqn : Text) (n : Nat) :
    (s.setProbes fqn n).users fqn + s.probes fqn = s.users fqn + n := by
  simp only [users, setProbes, Function.update_self]
  omega

theorem users_setProbes_ne (n : Nat) {f : Text} (hf : f ≠ fqn) :
    (s.setProbes fqn n).users f = s.users f := by
  simp only [users, setProbes, Function.update_of_ne hf]

theorem users_abandon (fqn : Text) :
    (s.step (.abandon fqn)).users fqn + s.probes fqn = s.users fqn + (s.probes fqn - 1) :=
  (s.setMember (s.member.abandon fqn)).users_setProbes_self fqn (s.probes fqn - 1)

end

theorem Accounted.users_of_dead (h : s.Accounted) (hdead : s.live fqn = false) :
    s.users fqn = 0 := by
  have hnot := (h.sound.live_iff (fqn, .request)).not
  rw [Bool.not_eq_true, not_lt, h.count] at hnot
  exact Nat.le_zero.mp (hnot.mp hdead)

theorem opened_of_live (hlive : s.live fqn) (m : ShmMuxMember σ) (ring : Nat) (taken : Bool) :
    s.opened fqn taken (m, some ring) =
      if taken then ((s.setProbes fqn (s.probes fqn - 1)).setMember m).addHolder fqn (some ring)
      else (s.setProbes fqn (s.probes fqn - 1)).setMember (m.releaseChannel fqn) := by
  simp only [opened, hlive, if_true]

theorem opened_of_dead (hdead : s.live fqn = false) (m : ShmMuxMember σ) (taken : Bool) :
    (∀ ring, s.opened fqn taken (m, some ring) =
      if taken then (s.setMember m).addHolder fqn (some ring)
      else s.setMember (m.releaseChannel fqn)) ∧
    s.opened fqn taken (m, none) = s.setMember m := by
  simp only [opened, hdead, Bool.false_eq_true, if_false, implies_true, and_self]

theorem Accounted.addHolder (h : s.Accounted) {m : ShmMuxMember σ} {ring : Option Nat}
    (htakes : s.member.registry.Takes m.registry (fqn, .request))
    (hring : ∀ r, ring = some r → m.registry.channelFor (fqn, .request) = some r) :
    ((s.setMember m).addHolder fqn ring).Accounted := by
  refine h.recounts htakes ?_ (fun f hf => ?_) (fun x hx _ => ?_)
  · rw [users_addHolder, if_pos rfl, users_setMember, h.count]
  · rw [users_addHolder, if_neg hf]
    rfl
  rcases mem_append.mp hx with hold | hnew
  · exact .inl hold
  · obtain rfl := mem_singleton.mp hnew
    exact .inr ⟨rfl, hring⟩

theorem Accounted.opened (h : s.Accounted) (amode : AcquireMode) (ans : BrokerAnswers) (taken : Bool)
    (hback : s.live fqn = true → 0 < s.probes fqn) :
    (s.opened fqn taken (s.member.muxOpen fqn amode ans)).Accounted := by
  rcases ShmMuxMember.muxOpen_spec h.sound fqn amode ans with
    ⟨hlive, ring, hopen, hring⟩ | ⟨hdead, hopen⟩
  · -- the probe's reference passes to the channel
    have hprobe := hback hlive
    rw [hopen, opened_of_live hlive]
    cases taken with
    | true =>
      rw [if_pos rfl]
      refine ⟨h.sound, fun f => ?_, fun x hx hx' r hr => ?_⟩
      · rw [users_addHolder, users_setMember]
        refine (h.count f).trans ?_
        by_cases hf : f = fqn
        · subst hf
          have hself := s.users_setProbes_self f (s.probes f - 1)
          rw [if_pos rfl]
          omega
        · rw [if_neg hf, s.users_setProbes_ne _ hf, add_zero]
      · rcases mem_append.mp hx with hold | hnew
        · exact h.rings x hold hx' r hr
        · obtain rfl := mem_singleton.mp hnew
          cases hr
          exact hring
    | false =>
      refine h.recounts (ShmMuxMember.gives_releaseChannel s.member fqn) ?_ (fun f hf => ?_)
        (fun x hx _ => .inl hx)
      · have hself := s.users_setProbes_self fqn (s.probes fqn - 1)
        rw [if_neg Bool.false_ne_true, users_setMember, h.count]
        omega
      · rw [if_neg Bool.false_ne_true, users_setMember, s.users_setProbes_ne _ hf]
  · obtain ⟨htook, hfailed⟩ := opened_of_dead hdead (s.member.muxOpen fqn amode ans).1 taken
    rcases hopen with ⟨ring, hopen, htakes, hring⟩ | ⟨hopen, hsame⟩
    · have hadded : ((s.setMember _).addHolder fqn (some ring)).Accounted :=
        h.addHolder htakes fun r hr => by
          cases hr
          exact hring
      rw [show s.member.muxOpen fqn amode ans = ((s.member.muxOpen fqn amode ans).1, some ring) from
        Prod.ext rfl hopen, htook ring]
      cases taken with
      | true => exact hadded
      | false =>
        -- nobody takes the channel: its destructor gives the reference back
        refine hadded.recounts (ShmMuxMember.gives_releaseChannel _ fqn) ?_ (fun f hf => ?_)
          (fun x hx _ => .inl (mem_append_left _ hx))
        · rw [hadded.count]
          simp [users_addHolder]
        · simp [users_addHolder, hf]
    · rw [show s.member.muxOpen fqn amode ans = ((s.member.muxOpen fqn amode ans).1, none) from
        Prod.ext rfl hopen, hfailed]
      exact h.same hsame

theorem letGo_of_holder {i : Nat} {x : Holder} (hi : s.holders[i]? = some x)
    (hopen : x.released = false) :
    s.member.registry.Gives (s.letGo i).member.registry (x.fqn, .request) ∧
      (s.letGo i).users x.fqn + 1 = s.users x.fqn ∧
      (∀ f, f ≠ x.fqn → (s.letGo i).users f = s.users f) ∧
      (∀ y ∈ (s.letGo i).holders, y.released = false → y ∈ s.holders) ∧
      (s.letGo i).probes = s.probes := by
  obtain ⟨hlt, rfl⟩ := List.getElem?_eq_some_iff.mp hi
  have hgo : s.letGo i = { s with
      member := if s.holders[i].ring.isSome then s.member.releaseChannel s.holders[i].fqn
        else s.member.releaseReceiver s.holders[i].fqn
      holders := s.holders.set i { s.holders[i] with released := true } } := by
    simp only [letGo, hi, hopen, Bool.false_eq_true, if_false]
  have hcount : ∀ f, (s.holders.set i { s.holders[i] with released := true }).countP (Holder.holds f) =
      s.holders.countP (Holder.holds f) - if f = s.holders[i].fqn then 1 else 0 := by
    intro f
    rw [List.countP_set hlt]
    simp only [Holder.holds, hopen, Bool.not_false, Bool.and_true, Bool.not_true, Bool.and_false,
      Bool.false_eq_true, if_false, add_zero, decide_eq_true_eq, eq_comm (a := f)]
  rw [hgo]
  refine ⟨?_, ?_, fun f hf => ?_, fun y hy hyopen => ?_, rfl⟩
  · split
    · exact ShmMuxMember.gives_releaseChannel _ _
    · exact ShmMuxMember.gives_releaseReceiver _ _
  · have hpos : 0 < s.holders.countP (Holder.holds s.holders[i].fqn) :=
      List.countP_pos_iff.mpr ⟨s.holders[i], List.getElem_mem hlt, by simp [Holder.holds, hopen]⟩
    simp only [users, hcount, if_true]
    omega
  · simp only [users, hcount, if_neg hf, Nat.sub_zero]
  · rcases List.mem_or_eq_of_mem_set hy with hold | rfl
    · exact hold
    · cases hyopen

theorem Accounted.letGo (h : s.Accounted) (i : Nat) : (s.letGo i).Accounted := by
  cases hi : s.holders[i]? with
  | none =>
    simp only [MuxSys.letGo, hi]
    exact h
  | some x =>
    by_cases hopen : x.released = false
    · obtain ⟨hgives, husers, hother, hholders, -⟩ := letGo_of_holder hi hopen
      refine h.recounts hgives ?_ hother fun y hy hyopen => .inl (hholders y hy hyopen)
      rw [h.count]
      omega
    · simp only [MuxSys.letGo, hi, hopen]
      exact h

theorem step_dial (s : MuxSys σ) (fqn : Text) (taken : Bool) (ans : BrokerAnswers) :
    s.step (.dial fqn taken ans) = s.opened fqn taken (s.member.muxOpen fqn .reclaimStale ans) := by
  simp only [step, ShmMuxMember.dial]
  cases s.member.muxOpen fqn .reclaimStale ans with
  | mk member ring => cases ring <;> rfl

/-- **The step lemma.** -/
theorem Accounted.step (h : s.Accounted) (e : MuxEvent σ) (hback : s.backed e) :
    (s.step e).Accounted := by
  cases e with
  | setTopicGeometry fqn bytes mode consumers => exact { h with }
  | canAcquire fqn ans =>
    have hspec := ShmMuxMember.canAcquire_spec h.sound fqn ans
    simp only [MuxSys.step]
    cases hcall : s.member.canAcquire fqn ans with
    | mk member ok =>
      rw [hcall] at hspec
      rcases hspec with ⟨hok, htakes⟩ | ⟨hno, hsame⟩
      · obtain rfl : ok = true := hok
        refine h.recounts htakes ?_ (fun f hf => ?_) (fun x hx _ => .inl hx)
        · have hself := (s.setMember member).users_setProbes_self fqn (s.probes fqn + 1)
          rw [users_setMember, show (s.setMember member).probes fqn = s.probes fqn from rfl] at hself
          show ((s.setMember member).setProbes fqn (s.probes fqn + 1)).users fqn = _
          rw [h.count]
          omega
        · exact (users_setProbes_ne _ _ hf).trans (users_setMember _ _ _)
      · obtain rfl : ok = false := hno
        exact h.same hsame
  | abandon fqn =>
    by_cases hlive : s.live fqn = true
    · have hprobe := hback hlive
      refine h.recounts (ShmMuxMember.gives_releaseChannel s.member fqn) ?_ (fun f hf => ?_)
        (fun x hx _ => .inl hx)
      · have husers := s.users_abandon fqn
        rw [h.count]
        omega
      · exact (users_setProbes_ne _ _ hf).trans (users_setMember _ _ _)
    rw [Bool.not_eq_true] at hlive
    have hzero := h.users_of_dead hlive
    have hdead : s.member.registry.entries (fqn, .request) = none := by
      simpa [live, ShmTopicRegistry.live] using hlive
    have hsame : s.member.abandon fqn = s.member := by
      simp only [ShmMuxMember.abandon, ShmTopicRegistry.release, hdead]
    have hprobes : s.probes fqn - 1 = s.probes fqn := by
      simp only [users] at hzero
      omega
    have hstep : s.step (.abandon fqn) = s := by
      simp only [MuxSys.step, hsame, hprobes, setProbes, setMember, Function.update_eq_self]
    rw [hstep]
    exact h
  | listen fqn taken ans => exact h.opened _ ans taken hback
  | dial fqn taken ans =>
    rw [step_dial]
    exact h.opened .reclaimStale ans taken hback
  | mintCompanion fqn ans => exact h.opened _ ans true hback
  | mintReceiveCompanion fqn sink ans =>
    have hspec := ShmMuxMember.mintReceiveCompanion_spec h.sound fqn sink ans
    simp only [MuxSys.step]
    cases hcall : s.member.mintReceiveCompanion fqn sink ans with
    | mk member ok =>
      rw [hcall] at hspec
      rcases hspec with ⟨hok, htakes⟩ | ⟨hno, hsame⟩
      · obtain rfl : ok = true := hok
        exact h.addHolder htakes fun r hr => by cases hr
      · obtain rfl : ok = false := hno
        exact h.same hsame
  | close i =>
    simp only [MuxSys.step]
    split
    · exact h.letGo i
    · exact h
  | destroy i => exact h.letGo i

/-! ## A missing reference is found out

When fewer references are counted than are held, letting go of one holder after another closes the
ring while somebody still holds it. -/

structure Deficit (s : MuxSys σ) (fqn : Text) : Prop where
  sound : s.member.registry.Sound
  count : s.member.registry.refcount (fqn, .request) < s.users fqn

theorem Deficit.gives (h : s.Deficit fqn)
    (hgives : s.member.registry.Gives s'.member.registry (fqn, .request))
    (husers : s'.users fqn + 1 = s.users fqn) (hcount : 0 < s.member.registry.refcount (fqn, .request)) :
    s'.Deficit fqn where
  sound := hgives.sound h.sound
  count := by
    have hless := h.count
    rw [hgives.refcount]
    omega

/-- Somebody can always let go, and the books lose nothing by it. -/
theorem Deficit.letGo (h : s.Deficit fqn) (hcount : 0 < s.member.registry.refcount (fqn, .request)) :
    ∃ e, s.backed e ∧ (s.step e).Deficit fqn ∧
      (s.step e).member.registry.refcount (fqn, .request) + 1 =
        s.member.registry.refcount (fqn, .request) := by
  by_cases hprobe : 0 < s.probes fqn
  · have hgives := ShmMuxMember.gives_releaseChannel s.member fqn
    have husers := s.users_abandon fqn
    refine ⟨.abandon fqn, fun _ => hprobe, h.gives hgives (by omega) hcount, ?_⟩
    exact (congrArg (· + 1) hgives.refcount).trans (Nat.sub_add_cancel hcount)
  -- no probe is left, so a channel or a receive companion is
  have hheld : 0 < s.holders.countP (Holder.holds fqn) := by
    have hless := h.count
    simp only [users] at hless
    omega
  obtain ⟨x, hx, hholds⟩ := countP_pos_iff.mp hheld
  simp only [Holder.holds, Bool.and_eq_true, decide_eq_true_eq, Bool.not_eq_true'] at hholds
  obtain ⟨rfl, hopen⟩ := hholds
  obtain ⟨i, hi⟩ := mem_iff_getElem?.mp hx
  obtain ⟨hgives, husers, -, -, -⟩ := letGo_of_holder hi hopen
  refine ⟨.destroy i, trivial, h.gives hgives husers hcount, ?_⟩
  exact (congrArg (· + 1) hgives.refcount).trans (Nat.sub_add_cancel hcount)

theorem Deficit.breaks (h : s.Deficit fqn) :
    ∃ es, Guarded step backed s es ∧ ¬(s.run es).RingsLive := by
  -- on the count, which every step of the continuation takes down by one
  induction hn : s.member.registry.refcount (fqn, .request) generalizing s with
  | zero =>
    refine ⟨[], trivial, fun hlive => ?_⟩
    have hopen := (hlive fqn).1.mpr (lt_of_le_of_lt (Nat.zero_le _) h.count)
    have hcount := (h.sound.live_iff (fqn, .request)).mp hopen
    omega
  | succ n ih =>
    obtain ⟨e, hback, hnext, hcount⟩ := h.letGo (by omega)
    obtain ⟨es, hes, hbreaks⟩ := ih hnext (by omega)
    exact ⟨e :: es, ⟨hback, hes⟩, hbreaks⟩

/-- A channel opened over a live entry no probe holds is one holder too many, also when nobody takes
it. -/
theorem Accounted.deficit_opened (h : s.Accounted) (hlive : s.live fqn)
    (hprobe : s.probes fqn = 0) (amode : AcquireMode) (ans : BrokerAnswers) (taken : Bool) :
    (s.opened fqn taken (s.member.muxOpen fqn amode ans)).Deficit fqn := by
  have hcount := h.count fqn
  have hpos := (h.sound.live_iff (fqn, .request)).mp hlive
  have hself := s.users_setProbes_self fqn (s.probes fqn - 1)
  rcases ShmMuxMember.muxOpen_spec h.sound fqn amode ans with
    ⟨-, ring, hopen, -⟩ | ⟨hdead, -⟩
  · rw [hopen, opened_of_live hlive]
    cases taken with
    | true =>
      rw [if_pos rfl]
      refine ⟨h.sound, ?_⟩
      rw [users_addHolder, users_setMember, if_pos rfl]
      show s.member.registry.refcount (fqn, .request) < _
      omega
    | false =>
      have hgives := ShmMuxMember.gives_releaseChannel s.member fqn
      rw [if_neg Bool.false_ne_true]
      refine ⟨hgives.sound h.sound, ?_⟩
      rw [users_setMember]
      show (s.member.releaseChannel fqn).registry.refcount (fqn, .request) < _
      rw [hgives.refcount]
      omega
  · rw [live, hdead] at hlive
    cases hlive

theorem Accounted.deficit_of_not_backed (h : s.Accounted) {e : MuxEvent σ} (hback : ¬s.backed e) :
    ∃ fqn, (s.step e).Deficit fqn := by
  cases e with
  | abandon fqn =>
    obtain ⟨hlive, hprobe⟩ := Classical.not_imp.mp hback
    have hgives := ShmMuxMember.gives_releaseChannel s.member fqn
    have husers := s.users_abandon fqn
    have hcount := h.count fqn
    have hpos := (h.sound.live_iff (fqn, .request)).mp hlive
    refine ⟨fqn, hgives.sound h.sound, ?_⟩
    show (s.member.releaseChannel fqn).registry.refcount (fqn, .request) < _
    rw [hgives.refcount]
    omega
  | listen fqn taken ans =>
    obtain ⟨hlive, hprobe⟩ := Classical.not_imp.mp hback
    exact ⟨fqn, h.deficit_opened hlive (by omega) _ ans taken⟩
  | dial fqn taken ans =>
    obtain ⟨hlive, hprobe⟩ := Classical.not_imp.mp hback
    have hopened := h.deficit_opened hlive (by omega) .reclaimStale ans taken
    rw [← step_dial] at hopened
    exact ⟨fqn, hopened⟩
  | mintCompanion fqn ans =>
    obtain ⟨hlive, hprobe⟩ := Classical.not_imp.mp hback
    exact ⟨fqn, h.deficit_opened hlive (by omega) _ ans true⟩
  | setTopicGeometry | canAcquire | mintReceiveCompanion | close | destroy =>
    exact absurd trivial hback

/-! ## Rings live as long as their holders -/

/-- **A ring is open exactly as long as it is held**, and no channel refers to a ring that is gone,
in every run in which a channel is opened over a live entry, and a probe abandoned, only when a
probe holds that entry. The condition cannot be dropped anywhere: after a call that does not meet
it, holders that let go in some order close the ring while it is still held. -/
theorem ringsLive_of_backed (maxRingSlabBytes : Nat) (events : List (MuxEvent σ))
    (hback : Guarded step backed (fresh maxRingSlabBytes) events) :
    ((fresh maxRingSlabBytes).run events).RingsLive ∧
      ∀ e, ¬((fresh maxRingSlabBytes).run events).backed e →
        ∃ es, Guarded step backed ((fresh maxRingSlabBytes).run (events ++ [e])) es ∧
          ¬((fresh maxRingSlabBytes).run (events ++ e :: es)).RingsLive := by
  have hrun : ((fresh maxRingSlabBytes).run events).Accounted :=
    hback.invariant Accounted (fun s e h => h.step e) (accounted_fresh maxRingSlabBytes)
  refine ⟨hrun.ringsLive, fun e he => ?_⟩
  obtain ⟨fqn, hdeficit⟩ := hrun.deficit_of_not_backed he
  obtain ⟨es, hes, hbreaks⟩ := hdeficit.breaks
  refine ⟨es, ?_, ?_⟩
  · rw [run, foldl_append]
    exact hes
  · rw [run, foldl_append]
    exact hbreaks

/-- A probe, the dial that consumes it, a receive companion beside it, and both let go. -/
theorem ringsLive_probed_dial :
    ((fresh (σ := Text) kMaxRingSlabBytes).run
      [.canAcquire [1] {}, .dial [1] true {}, .mintReceiveCompanion [1] [2] {}, .close 0,
        .destroy 1]).RingsLive :=
  (ringsLive_of_backed kMaxRingSlabBytes _ (by decide +kernel)).1

/-- With no probe between two dials the second is not counted. Closing either closes the ring under
the other. -/
theorem second_dial_uncounted :
    (let s := (fresh (σ := Text) kMaxRingSlabBytes).run
      [.dial [1] true {}, .dial [1] true {}, .close 0];
    s.users [1] = 1 ∧ s.live [1] = false) ∧
    (let s := (fresh (σ := Text) kMaxRingSlabBytes).run
      [.dial [1] true {}, .mintCompanion [1] {}, .destroy 1];
    s.users [1] = 1 ∧ s.live [1] = false) ∧
    (let s := (fresh (σ := Text) kMaxRingSlabBytes).run [.dial [1] true {}, .listen [1] false {}];
    s.users [1] = 1 ∧ s.live [1] = false) := by
  decide +kernel

end MuxSys

end Plexus.Shm
