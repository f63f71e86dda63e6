/-
# Plexus.Api.OneCopy — how often one publish reaches a peer.

The fan-out routes each subscriber to its session's channel or to its companion. Companions of one
topic share a ring, and every receive companion of the topic on that host reads all of it. So a
message is written to the ring once for every upgraded subscriber, and each attached peer gets all
of these copies, besides the one on its wire.

A joint state is one run for each node. `Exclusive` says when a publish reaches everybody once: no
subscriber is routed to the ring, or a single one is, it is attached for the publisher, and no other
subscriber in reach is attached at all.
-/
import Plexus.Api.UpgradeNode

namespace Plexus.Api

open Wire Io Shm List

/-! ## One publish -/

/-- The publisher before and after, the frame, and for each peer the session its receive companion of
the topic injects into. -/
structure Publication where
  self : Text
  fqn : Text
  framed : Bytes
  before : UpgradeNode
  after : UpgradeNode
  sink : Text → Option Text

/-- Only peers on the publisher's host share its ring. -/
def publication (nodes : Text → UpgradeNode) (host : Text → Nat) (self fqn : Text)
    (payload : Bytes) (sessionId : UInt64) : Option Publication :=
  ((nodes self).publish fqn payload sessionId).map fun after =>
    { self, fqn, before := nodes self, after,
      framed := (nodes self).forwarder.nextFrame (nodes self).world fqn payload sessionId
      sink := fun peer =>
        if host peer = host self then
          ((nodes peer).medium.member.registry.entries (fqn, .request)).bind RingEntry.sink
        else none }

namespace Publication

variable (p : Publication)

/-- The peers in the publisher's fan-out list. -/
def subscribers : List RegistrySubscriber :=
  p.before.messages.registry.subscribersOf (fqnTopicHash p.fqn)

def inReach (s : RegistrySubscriber) : Bool :=
  Locality.anySet (p.before.messages.registry.qosFor (fqnTopicHash p.fqn)).reach s.tier

def companion (s : RegistrySubscriber) : Option Channel :=
  p.before.coordinator.companionFor s.nodeName p.fqn p.framed.length

/-- The subscribers whose lane is the ring. -/
def ringed : List RegistrySubscriber :=
  p.subscribers.filter fun s => p.inReach s && (p.companion s).isSome

/-- The copies the publish has put on a channel. -/
def added (key : Nat) : Nat :=
  p.after.messages.copies p.after.world key p.framed -
    p.before.messages.copies p.before.world key p.framed

def onWire (peer : Text) : Nat := ((p.before.sessionFor peer).map fun l => p.added l.channel.key).getD 0

/-- The copies on all companions: they write the same ring. -/
def onRing : Nat := (p.subscribers.map fun s => ((p.companion s).map fun ch => p.added ch.key).getD 0).sum

/-- What comes in at any session of a peer. -/
def received (peer : Text) : Nat := p.onWire peer + if (p.sink peer).isSome then p.onRing else 0

/-- What comes in at the peer's session with the publisher. -/
def receivedInSession (peer : Text) : Nat :=
  p.onWire peer + if p.sink peer = some p.self then p.onRing else 0

/-- No lane has shed the message. -/
def NoDrop : Prop :=
  p.after.messages.dropsOf (fqnTopicHash p.fqn) = p.before.messages.dropsOf (fqnTopicHash p.fqn)

/-- **One publish, one copy.** -/
def OneCopy : Prop :=
  ∀ s ∈ p.subscribers, p.received s.nodeName ≤ 1 ∧
    (p.inReach s = true → p.NoDrop → p.receivedInSession s.nodeName = 1)

/-- At most one subscriber is routed to the ring, and of those in reach it alone is attached. -/
def Exclusive : Prop :=
  p.ringed.length ≤ 1 ∧ ∀ s ∈ p.ringed, p.sink s.nodeName = some p.self ∧
    ∀ t ∈ p.subscribers, p.inReach t = true → t ≠ s → p.sink t.nodeName = none

instance : Decidable p.Exclusive := inferInstanceAs (Decidable (_ ∧ _))

end Publication

/-! ## Lanes are apart

Every subscriber has a lane of its own: the channel of its session or its companion, and no two
channels share a key. -/

variable {α : Type*} {l : List α} {ch : Channel} {q : α → Bool}

theorem inj_of_nodup_filterMap {β : Type*} {f : α → Option β} (h : (l.filterMap f).Nodup)
    {x y : α} {b : β} (hx : x ∈ l) (hy : y ∈ l) (hfx : f x = some b) (hfy : f y = some b) :
    x = y := by
  induction l with
  | nil => exact absurd hx not_mem_nil
  | cons a l ih =>
    have hrest : (l.filterMap f).Nodup := h.sublist ((sublist_cons_self a l).filterMap f)
    -- the head's value does not come again
    have hhead : f a = some b → ∀ z ∈ l, f z ≠ some b := by
      intro ha z hz hfz
      rw [filterMap_cons_some ha, nodup_cons] at h
      exact h.1 (mem_filterMap.mpr ⟨z, hz, hfz⟩)
    rcases mem_cons.mp hx with hxa | hxl
    · rcases mem_cons.mp hy with hya | hyl
      · exact hxa.trans hya.symm
      · exact absurd hfy (hhead (hxa ▸ hfx) y hyl)
    · rcases mem_cons.mp hy with hya | hyl
      · exact absurd hfx (hhead (hya ▸ hfy) x hxl)
      · exact ih hrest hxl hyl

namespace UpgradeNode

variable {n : UpgradeNode} {hash : UInt64} {s t : RegistrySubscriber}

section

variable (h : n.Tidy) (hs : s ∈ n.messages.registry.subscribersOf hash)
include h hs

theorem Tidy.sessionFor_eq :
    ∃ l ∈ n.sessions, n.sessionFor s.nodeName = some l ∧ l.nodeName = s.nodeName ∧ l.channel = s.channel := by
  obtain ⟨l, hl, hname, hchannel⟩ := h.entered.session hash s hs
  have hsome : (n.sessionFor s.nodeName).isSome := find?_isSome.mpr ⟨l, hl, decide_eq_true hname⟩
  obtain ⟨l', hl'⟩ := Option.isSome_iff_exists.mp hsome
  obtain ⟨hmem, hname'⟩ := mem_of_sessionFor hl'
  obtain rfl := inj_on_of_nodup_map h.names hmem hl (hname'.trans hname.symm)
  exact ⟨l', hl, hl', hname, hchannel⟩

section

variable (ht : t ∈ n.messages.registry.subscribersOf hash)
include ht

theorem Tidy.eq_of_nodeName (heq : s.nodeName = t.nodeName) : s = t :=
  inj_on_of_nodup_map (h.entered.single hash) hs ht heq

theorem Tidy.eq_of_channel (heq : s.channel.key = t.channel.key) : s = t := by
  obtain ⟨l, hl, -, hname, hchannel⟩ := h.sessionFor_eq hs
  obtain ⟨l', hl', -, hname', hchannel'⟩ := h.sessionFor_eq ht
  have hkeys := (nodup_append.mp h.keys_nodup).1
  rw [← hchannel, ← hchannel'] at heq
  obtain rfl := inj_on_of_nodup_map hkeys hl hl' heq
  exact h.eq_of_nodeName hs ht (hname.symm.trans hname')

theorem Tidy.eq_of_companion {fqn : Text} {size : Nat} {ch' : Channel}
    (hch : n.coordinator.companionFor s.nodeName fqn size = some ch)
    (hch' : n.coordinator.companionFor t.nodeName fqn size = some ch') (heq : ch.key = ch'.key) :
    s = t := by
  obtain ⟨r, hr, hname, hchannel⟩ := UpgradeCoordinator.mem_held_of_companionFor hch
  obtain ⟨r', hr', hname', hchannel'⟩ := UpgradeCoordinator.mem_held_of_companionFor hch'
  have hkey : r.channel.map Channel.key = some ch.key := by
    rw [hchannel]
    rfl
  have hkey' : r'.channel.map Channel.key = some ch.key := by
    rw [hchannel', heq]
    rfl
  obtain rfl := inj_of_nodup_filterMap (nodup_append.mp h.keys_nodup).2.1 hr hr' hkey hkey'
  exact h.eq_of_nodeName hs ht (hname.symm.trans hname')

end

theorem Tidy.channel_ne_companion {nodeName fqn : Text} {size : Nat}
    (hch : n.coordinator.companionFor nodeName fqn size = some ch) : s.channel.key ≠ ch.key := by
  obtain ⟨l, hl, -, -, hchannel⟩ := h.sessionFor_eq hs
  obtain ⟨r, hr, -, hr'⟩ := UpgradeCoordinator.mem_held_of_companionFor hch
  rw [← hchannel]
  refine (nodup_append.mp h.keys_nodup).2.2 _ (mem_map_of_mem hl) _ ?_
  exact mem_filterMap.mpr ⟨r, hr, by rw [hr']; rfl⟩

end

end UpgradeNode

/-! ## Counting -/

theorem countP_of_unique (hl : l.Nodup) {s : α} (hs : s ∈ l) (h : ∀ t ∈ l, q t = true → t = s) :
    l.countP q = if q s then 1 else 0 := by
  induction l with
  | nil => exact absurd hs not_mem_nil
  | cons a l ih =>
    obtain ⟨ha, hl⟩ := nodup_cons.mp hl
    rw [countP_cons]
    rcases mem_cons.mp hs with rfl | hsl
    · have hrest : l.countP q = 0 := by
        refine countP_eq_zero.mpr fun t ht hq => ?_
        exact ha (h t (mem_cons_of_mem _ ht) hq ▸ ht)
      rw [hrest, zero_add]
    · have hfalse : ¬ q a = true := fun hq => ha (h a mem_cons_self hq ▸ hsl)
      rw [ih hl hsl fun t ht hq => h t (mem_cons_of_mem _ ht) hq, if_neg hfalse, add_zero]

theorem sum_map_le_length_filter {f : α → Nat} (h : ∀ s ∈ l, f s ≤ if q s then 1 else 0) :
    (l.map f).sum ≤ (l.filter q).length := by
  induction l with
  | nil => exact le_rfl
  | cons a l ih =>
    obtain ⟨ha, hl⟩ := forall_mem_cons.mp h
    have := ih hl
    rw [map_cons, sum_cons, filter_cons]
    split
    · rename_i hq
      rw [if_pos hq] at ha
      rw [length_cons]
      omega
    · rename_i hq
      rw [if_neg hq] at ha
      omega

theorem sum_map_eq_length_filter {f : α → Nat} (h : ∀ s ∈ l, f s = if q s then 1 else 0) :
    (l.map f).sum = (l.filter q).length := by
  induction l with
  | nil => rfl
  | cons a l ih =>
    obtain ⟨ha, hl⟩ := forall_mem_cons.mp h
    rw [map_cons, sum_cons, filter_cons, ih hl, ha]
    split
    · exact add_comm _ _
    · exact zero_add _

namespace Publication

variable {p : Publication}

/-- What the fan-out of a tidy node has done. -/
structure Fair (p : Publication) : Prop where
  tidy : p.before.Tidy
  fanned : MessageForwarder.Fanned (fqnTopicHash p.fqn) p.framed (p.before.forwarder, p.before.world)
    (p.after.messages, p.after.world)
    (p.before.forwarder.lanes p.fqn (p.before.messages.registry.qosFor (fqnTopicHash p.fqn))
      p.framed.length p.subscribers)

/-- The channel of a subscriber's lane. -/
def laneKey (p : Publication) (s : RegistrySubscriber) : Nat := ((p.companion s).getD s.channel).key

/-- The subscribers in reach whose lane has this key. -/
def lanesAt (p : Publication) (key : Nat) : Nat :=
  p.subscribers.countP fun s => p.inReach s && p.laneKey s = key

theorem count_lanes (p : Publication) (key : Nat) :
    (p.before.forwarder.lanes p.fqn (p.before.messages.registry.qosFor (fqnTopicHash p.fqn))
      p.framed.length p.subscribers).count key = p.lanesAt key := by
  rw [MessageForwarder.lanes, count, countP_map, countP_filter]
  refine countP_congr fun s _ => ?_
  simp only [Function.comp_apply, Bool.and_eq_true, beq_iff_eq, decide_eq_true_eq]
  exact and_comm

theorem Fair.added_le (h : p.Fair) (key : Nat) : p.added key ≤ p.lanesAt key := by
  have := h.fanned.copies_le key
  rw [p.count_lanes key] at this
  exact Nat.sub_le_iff_le_add'.mpr this

theorem Fair.added_eq (h : p.Fair) (hdrop : p.NoDrop) (key : Nat) : p.added key = p.lanesAt key := by
  have := h.fanned.copies_eq hdrop key
  rw [p.count_lanes key] at this
  exact Nat.sub_eq_of_eq_add' this

variable {s : RegistrySubscriber}

section

variable (h : p.Fair) (hs : s ∈ p.subscribers)
include h hs

/-- The wire of a subscriber is its own lane or nobody's. -/
theorem Fair.lanesAt_channel :
    p.lanesAt s.channel.key = if p.inReach s && (p.companion s).isNone then 1 else 0 := by
  have hnodup : p.subscribers.Nodup := (h.tidy.entered.single _).of_map _
  have hunique : ∀ t ∈ p.subscribers, (p.inReach t && p.laneKey t = s.channel.key) = true → t = s := by
    intro t ht hlane
    rw [Bool.and_eq_true, decide_eq_true_eq, laneKey] at hlane
    cases hc : p.companion t with
    | none =>
      rw [hc] at hlane
      exact h.tidy.eq_of_channel ht hs hlane.2
    | some ch =>
      rw [hc] at hlane
      exact absurd hlane.2.symm (h.tidy.channel_ne_companion hs hc)
  rw [lanesAt, countP_of_unique hnodup hs hunique]
  cases hc : p.companion s with
  | none => simp [laneKey, hc]
  | some ch =>
    have hne := h.tidy.channel_ne_companion hs hc
    simp [laneKey, hc, hne.symm]

theorem Fair.lanesAt_companion (hc : p.companion s = some ch) :
    p.lanesAt ch.key = if p.inReach s then 1 else 0 := by
  have hnodup : p.subscribers.Nodup := (h.tidy.entered.single _).of_map _
  have hunique : ∀ t ∈ p.subscribers, (p.inReach t && p.laneKey t = ch.key) = true → t = s := by
    intro t ht hlane
    rw [Bool.and_eq_true, decide_eq_true_eq, laneKey] at hlane
    cases hct : p.companion t with
    | none =>
      rw [hct] at hlane
      exact absurd hlane.2 (h.tidy.channel_ne_companion ht hc)
    | some ch' =>
      rw [hct] at hlane
      exact h.tidy.eq_of_companion ht hs hct hc hlane.2
  rw [lanesAt, countP_of_unique hnodup hs hunique]
  simp [laneKey, hc]

/-- **The wire** of a subscriber gets the message if the subscriber is in reach and not upgraded. -/
theorem Fair.onWire_spec :
    p.onWire s.nodeName ≤ (if p.inReach s && (p.companion s).isNone then 1 else 0) ∧
      (p.NoDrop → p.onWire s.nodeName = if p.inReach s && (p.companion s).isNone then 1 else 0) := by
  obtain ⟨l, -, hsession, -, hchannel⟩ := h.tidy.sessionFor_eq hs
  have hwire : p.onWire s.nodeName = p.added s.channel.key := by
    rw [onWire, hsession, ← hchannel]
    rfl
  rw [hwire, ← h.lanesAt_channel hs]
  exact ⟨h.added_le _, fun hdrop => h.added_eq hdrop _⟩

end

/-- **The ring** gets it once for every subscriber that is routed to it. -/
theorem Fair.onRing_spec (h : p.Fair) :
    p.onRing ≤ p.ringed.length ∧ (p.NoDrop → p.onRing = p.ringed.length) := by
  have hone : ∀ s ∈ p.subscribers,
      ((p.companion s).map fun ch => p.added ch.key).getD 0 ≤
          (if p.inReach s && (p.companion s).isSome then 1 else 0) ∧
        (p.NoDrop → ((p.companion s).map fun ch => p.added ch.key).getD 0 =
          if p.inReach s && (p.companion s).isSome then 1 else 0) := by
    intro s hs
    cases hc : p.companion s with
    | none => simp
    | some ch =>
      have hlanes := h.lanesAt_companion hs hc
      simp only [Option.map_some, Option.isSome_some, Bool.and_true, ← hlanes]
      exact ⟨h.added_le _, fun hdrop => h.added_eq hdrop _⟩
  constructor
  · exact sum_map_le_length_filter fun s hs => (hone s hs).1
  · intro hdrop
    exact sum_map_eq_length_filter fun s hs => (hone s hs).2 hdrop

/-! ## Exclusive publishes -/

theorem mem_ringed :
    s ∈ p.ringed ↔ s ∈ p.subscribers ∧ p.inReach s = true ∧ (p.companion s).isSome = true := by
  rw [ringed, mem_filter, Bool.and_eq_true]

theorem Fair.onWire_of_ringed (h : p.Fair) (hs : s ∈ p.ringed) : p.onWire s.nodeName = 0 := by
  obtain ⟨hsub, -, hsome⟩ := mem_ringed.mp hs
  have hnone : (p.companion s).isNone = false := by simpa using hsome
  have hle := (h.onWire_spec hsub).1
  rw [hnone, Bool.and_false] at hle
  exact Nat.le_zero.mp hle

theorem Fair.onWire_of_not_ringed (h : p.Fair) (hdrop : p.NoDrop) (hs : s ∈ p.subscribers)
    (hreach : p.inReach s) (hwire : s ∉ p.ringed) : p.onWire s.nodeName = 1 := by
  have hnone : (p.companion s).isNone := by
    cases hc : p.companion s with
    | none => rfl
    | some ch => exact absurd (mem_ringed.mpr ⟨hs, hreach, by rw [hc]; rfl⟩) hwire
  rw [(h.onWire_spec hs).2 hdrop, hreach, hnone]
  rfl

theorem Fair.onWire_le_one (h : p.Fair) (hs : s ∈ p.subscribers) : p.onWire s.nodeName ≤ 1 := by
  refine (h.onWire_spec hs).1.trans ?_
  split <;> decide

theorem Fair.onWire_of_not_inReach (h : p.Fair) (hs : s ∈ p.subscribers)
    (hreach : p.inReach s = false) : p.onWire s.nodeName = 0 := by
  have hle := (h.onWire_spec hs).1
  rw [hreach] at hle
  exact Nat.le_zero.mp hle

theorem received_of_silent {peer : Text} (hsilent : p.sink peer = none ∨ p.onRing = 0) :
    p.received peer = p.onWire peer ∧ p.receivedInSession peer = p.onWire peer := by
  unfold received receivedInSession
  rcases hsilent with hsink | hring
  · rw [hsink]
    exact ⟨rfl, rfl⟩
  · rw [hring, ite_self, ite_self]
    exact ⟨rfl, rfl⟩

theorem received_of_attached {peer : Text} (hsink : p.sink peer = some p.self) :
    p.received peer = p.onWire peer + p.onRing ∧
      p.receivedInSession peer = p.onWire peer + p.onRing := by
  unfold received receivedInSession
  rw [hsink]
  exact ⟨rfl, by rw [if_pos rfl]⟩

theorem Fair.oneCopy_of_exclusive (h : p.Fair) (hex : p.Exclusive) : p.OneCopy := by
  obtain ⟨hlen, hall⟩ := hex
  have hring : p.onRing ≤ 1 := h.onRing_spec.1.trans hlen
  intro s hs
  by_cases hringed : s ∈ p.ringed
  · -- the one subscriber on the ring
    obtain ⟨hreceived, hsession⟩ := received_of_attached (hall s hringed).1
    rw [hreceived, hsession, h.onWire_of_ringed hringed, zero_add]
    refine ⟨hring, fun _ hdrop => ?_⟩
    have hpos : 0 < p.ringed.length := length_pos_of_mem hringed
    rw [h.onRing_spec.2 hdrop]
    omega
  by_cases hreach : p.inReach s = true
  · have hsilent : p.sink s.nodeName = none ∨ p.onRing = 0 := by
      cases hr : p.ringed with
      | nil =>
        have hle := h.onRing_spec.1
        rw [hr] at hle
        exact .inr (Nat.le_zero.mp hle)
      | cons r rest =>
        have hmem : r ∈ p.ringed := by rw [hr]; exact mem_cons_self
        exact .inl ((hall r hmem).2 s hs hreach fun heq => hringed (heq ▸ hmem))
    obtain ⟨hreceived, hsession⟩ := received_of_silent hsilent
    rw [hreceived, hsession]
    exact ⟨h.onWire_le_one hs, fun _ hdrop => h.onWire_of_not_ringed hdrop hs hreach hringed⟩
  · refine ⟨?_, fun hr => absurd hr hreach⟩
    rw [received, h.onWire_of_not_inReach hs (by simpa using hreach), zero_add]
    split
    · exact hring
    · exact Nat.zero_le _

theorem Fair.exclusive_of_oneCopy (h : p.Fair) (hdrop : p.NoDrop) (hone : p.OneCopy) : p.Exclusive := by
  -- a subscriber on the ring hears nothing else, so it is attached and the ring has one copy
  have hringed : ∀ s ∈ p.ringed, p.sink s.nodeName = some p.self ∧ p.onRing = 1 := by
    intro s hs
    obtain ⟨hsub, hreach, -⟩ := mem_ringed.mp hs
    have hsession := (hone s hsub).2 hreach hdrop
    rw [receivedInSession, h.onWire_of_ringed hs, zero_add] at hsession
    split at hsession
    · exact ⟨‹_›, hsession⟩
    · cases hsession
  have hcount := h.onRing_spec.2 hdrop
  constructor
  · cases hr : p.ringed with
    | nil => exact Nat.zero_le _
    | cons s rest =>
      have hmem : s ∈ p.ringed := by rw [hr]; exact mem_cons_self
      rw [← hr, ← hcount, (hringed s hmem).2]
  intro s hs
  refine ⟨(hringed s hs).1, fun t ht hreach hne => ?_⟩
  by_contra hsink
  have hlen : p.ringed.length = 1 := hcount.symm.trans (hringed s hs).2
  have hwire : t ∉ p.ringed := by
    intro htr
    obtain ⟨r, hr⟩ := length_eq_one_iff.mp hlen
    rw [hr, mem_singleton] at hs htr
    exact hne (htr.trans hs.symm)
  have hle := (hone t ht).1
  rw [received, h.onWire_of_not_ringed hdrop ht hreach hwire, (hringed s hs).2,
    if_pos (Option.isSome_iff_ne_none.mpr hsink)] at hle
  exact absurd hle (by decide)

end Publication

/-! ## Every run -/

theorem fair_publication {nodes : Text → UpgradeNode} {host : Text → Nat} {self fqn : Text}
    {payload : Bytes} {sessionId : UInt64} {p : Publication} (htidy : (nodes self).Tidy)
    (hp : publication nodes host self fqn payload sessionId = some p) : p.Fair := by
  obtain ⟨after, hafter, rfl⟩ := Option.map_eq_some_iff.mp hp
  obtain ⟨⟨messages, world⟩, hsome, rfl⟩ := Option.map_eq_some_iff.mp hafter
  exact ⟨htidy, MessageForwarder.fanned_publish hsome⟩

/-- **A publish reaches every subscriber once if it is exclusive**, whatever the nodes have done before;
and when no lane sheds it, only then. -/
theorem publish_once_of_exclusive (world : Text → World)
    (policy : Text → Option (Bool → DispatchHint → Bool)) (host : Text → Nat)
    (runs : Text → List UpgradeEvent) (self fqn : Text) (payload : Bytes) (sessionId : UInt64)
    (p : Publication)
    (hp : publication (fun name => (UpgradeNode.fresh (world name) (policy name)).run (runs name)) host
      self fqn payload sessionId = some p) :
    (p.Exclusive → p.OneCopy) ∧ (p.NoDrop → p.OneCopy → p.Exclusive) := by
  have hfair := fair_publication (UpgradeNode.tidy_run _ _ _) hp
  exact ⟨hfair.oneCopy_of_exclusive, hfair.exclusive_of_oneCopy⟩

/-- A publisher `n` that serves topic `t` to `a` and `b`; `b` is on its host or not, and its broker
may refuse. -/
def pairRuns (sameHost : Bool) (ans : BrokerAnswers) (name : Text) : List UpgradeEvent :=
  if name = [110] then
    [.connect [97] [0x75, 0x6e, 0x69, 0x78] true 4096 true,
      .connect [98] [0x74, 0x63, 0x70] true 4096 sameHost, .setTopicHint [116] .large,
      .serve [97] [116] none {} {}, .serve [98] [116] none {} {}]
  else if name = [97] then
    [.connect [110] [0x75, 0x6e, 0x69, 0x78] true 4096 true, .setTopicHint [116] .large,
      .subscribe [110] [116] {} none { regionExists := true }]
  else if name = [98] then
    [.connect [110] [0x74, 0x63, 0x70] true 4096 sameHost, .setTopicHint [116] .large,
      .subscribe [110] [116] {} none ans]
  else []

def pairNodes (sameHost : Bool) (ans : BrokerAnswers) (name : Text) : UpgradeNode :=
  (UpgradeNode.fresh World.quiet (some attemptShmUpgrade)).run (pairRuns sameHost ans name)

def pairHost (sameHost : Bool) (name : Text) : Nat := if name = [98] ∧ sameHost = false then 1 else 0

def pairPublication (sameHost : Bool) (ans : BrokerAnswers) : Option Publication :=
  publication (pairNodes sameHost ans) (pairHost sameHost) [110] [116] [7] 0

/-- One peer on the ring, the other on the wire. -/
theorem publish_once_pair :
    ∃ p, pairPublication false {} = some p ∧ p.received [97] = 1 ∧ p.received [98] = 1 ∧ p.OneCopy := by
  have hfacts : (pairPublication false {}).any
      (fun p => p.received [97] = 1 ∧ p.received [98] = 1 ∧ p.Exclusive) := by
    decide +kernel
  obtain ⟨p, hp, hfacts⟩ := (Option.any_eq_true _ _).mp hfacts
  obtain ⟨ha, hb, hexclusive⟩ := of_decide_eq_true hfacts
  refine ⟨p, hp, ha, hb, ?_⟩
  exact (publish_once_of_exclusive (fun _ => .quiet) (fun _ => some attemptShmUpgrade)
    (pairHost false) (pairRuns false {}) [110] [116] [7] 0 p hp).1 hexclusive

/-- Both peers upgraded: each of them reads the message twice. If the second peer's broker refuses,
that peer gets nothing and the first still gets two. -/
theorem two_companions_deliver_twice :
    (∃ p, pairPublication true { regionExists := true } = some p ∧ p.received [97] = 2 ∧
      p.received [98] = 2 ∧ ¬ p.OneCopy) ∧
    ∃ p, pairPublication true { createControl := .failed } = some p ∧ p.received [97] = 2 ∧
      p.received [98] = 0 := by
  have hboth : (pairPublication true { regionExists := true }).any
      (fun p => p.received [97] = 2 ∧ p.received [98] = 2 ∧
        [97] ∈ p.subscribers.map RegistrySubscriber.nodeName) = true := by
    decide +kernel
  have hrefused : (pairPublication true { createControl := .failed }).any
      (fun p => p.received [97] = 2 ∧ p.received [98] = 0) := by
    decide +kernel
  obtain ⟨p, hp, hboth⟩ := (Option.any_eq_true _ _).mp hboth
  obtain ⟨q, hq, hrefused⟩ := (Option.any_eq_true _ _).mp hrefused
  obtain ⟨ha, hb, hmem⟩ := of_decide_eq_true hboth
  refine ⟨⟨p, hp, ha, hb, fun hone => ?_⟩, q, hq, of_decide_eq_true hrefused⟩
  obtain ⟨s, hs, hname⟩ := List.mem_map.mp hmem
  have hle := (hone s hs).1
  rw [hname, ha] at hle
  exact absurd hle (by decide)

end Plexus.Api
