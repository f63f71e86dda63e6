/-
# Plexus.Api.UpgradeNode — a node whose same-host pairs may run over shared memory.

`plexus/detail/node_upgrade_wiring.h` (`install_same_host_upgrade`),
`io/detail/routing_sink_install.h` (the demand and the companion-route hooks), `io/routing_engine.h`
(`dispatch_lifecycle`) and `io/peer_session_registry.h` (`same_host_for`). Demand edges go to the
coordinator, its gates to the shared-memory member, and a publish asks it for the channel of each
subscriber. A sink is the name of the peer whose session it injects into; every channel has a key of
its own.

`Tidy`: keys are unique, and the fan-out list of a topic has at most one entry for a peer, with the
channel of the peer's session.
-/
import Mathlib.Data.List.Nodup
import Plexus.Io.FanoutCopies
import Plexus.Io.UpgradeCoordinator
import Plexus.Shm.MuxMember

namespace Plexus.Api

open Wire Io Shm SubscriberRegistry List

/-! ## The gates -/

/-- `attempt_shm_upgrade`, the policy a member installs by default. -/
def attemptShmUpgrade (sameHost : Bool) (ownHint : DispatchHint) : Bool := sameHost && ownHint.anySet

/-- The shared-memory member, and the key the next channel will get. -/
structure ShmMedium where
  member : ShmMuxMember Text := {}
  nextKey : Nat := 0

/-- `k_low_water`: a ring has no write queue of its own. -/
def kLowWater : Nat := 4 * 1024 * 1024

/-- A companion as the engine sees it; the scheme spells `shm`. -/
def companionChannel (key : Nat) : Channel :=
  { key, scheme := [0x73, 0x68, 0x6d], polls := true, lowWater := kLowWater }

/-- The two gates of `install_same_host_upgrade`, for what the broker answers this time. -/
def sameHostGates (policy : Option (Bool → DispatchHint → Bool)) (ans : BrokerAnswers) :
    UpgradeGates ShmMedium where
  mint := some fun m fqn =>
    match m.member.mintCompanion fqn ans with
    | (member, none) => ({ m with member }, none)
    | (member, some _) =>
      ({ member, nextKey := m.nextKey + 1 },
        some (companionChannel m.nextKey, some (member.companionRoute fqn)))
  receiveMint := some fun m nodeName fqn =>
    match m.member.mintReceiveCompanion fqn nodeName ans with
    | (member, taken) => ({ m with member }, taken)
  policy
  discard := fun m r =>
    { m with
      member :=
        if r.channel.isSome then m.member.releaseChannel r.fqn
        else if r.receive then m.member.releaseReceiver r.fqn
        else m.member }

/-! ## The node -/

/-- An established session, by the name of its peer. -/
structure PeerLink where
  nodeName : Text
  channel : Channel
  sameHost : Bool
  deriving DecidableEq

/-- A node whose topics can move to shared memory. -/
structure UpgradeNode where
  messages : MessageForwarder := {}
  world : World
  coordinator : UpgradeCoordinator := {}
  medium : ShmMedium := {}
  sessions : List PeerLink := []
  policy : Option (Bool → DispatchHint → Bool) := some attemptShmUpgrade

/-- `serve` is a subscribe request of a peer, `subscribe` and `unsubscribe` are the node's own
demand. -/
inductive UpgradeEvent
  | connect (peer scheme : Text) (polls : Bool) (lowWater : Nat) (sameHost : Bool)
  | tearDown (peer : Text)
  | setTopicHint (fqn : Text) (hint : DispatchHint)
  | setTopicGeometry (fqn : Text) (effectiveBytes : Nat) (mode : RingGeometryMode)
      (maxConsumers : UInt32)
  | declare (fqn : Text) (qos : TopicQos) (producerTypeId : Option UInt64) (emitSourceIdentity : Bool)
  | serve (peer fqn : Text) (typeId : Option UInt64) (qos : SubscriberQos) (ans : BrokerAnswers)
  | subscribe (peer fqn : Text) (qos : SubscriberQos) (typeId : Option UInt64) (ans : BrokerAnswers)
  | unsubscribe (peer fqn : Text)
  | publish (fqn : Text) (payload : Bytes) (sessionId : UInt64)

namespace UpgradeNode

variable (n : UpgradeNode)

def sessionFor (peer : Text) : Option PeerLink :=
  n.sessions.find? fun l => l.nodeName = peer

def sameHostFor (peer : Text) : Bool :=
  ((n.sessionFor peer).map PeerLink.sameHost).getD false

/-- The `on_demand_transition` hook. -/
def edge (peer fqn : Text) (dir : DemandTransition) (role : DemandRole) (ans : BrokerAnswers) :
    UpgradeNode :=
  let (coordinator, medium) :=
    n.coordinator.onEdge (sameHostGates n.policy ans) n.medium peer fqn (n.sameHostFor peer) dir role
  { n with coordinator, medium }

def connect (peer scheme : Text) (polls : Bool) (lowWater : Nat) (sameHost : Bool) : UpgradeNode :=
  if (n.sessionFor peer).isSome then n
  else
    { n with
      medium := { n.medium with nextKey := n.medium.nextKey + 1 }
      sessions := n.sessions ++
        [{ nodeName := peer, channel := { key := n.medium.nextKey, scheme, polls, lowWater }, sameHost }] }

/-- `tear_down` and the `disconnected` edge it fires. -/
def tearDown (peer : Text) : UpgradeNode :=
  match n.sessionFor peer with
  | none => n
  | some l =>
    let (coordinator, medium) :=
      n.coordinator.onPeerDead (sameHostGates n.policy {}) n.medium peer
    { n with
      messages := n.messages.detachAll ⟨l.channel, peer⟩
      coordinator
      medium
      sessions := n.sessions.filter fun l => l.nodeName ≠ peer }

def serve (peer fqn : Text) (typeId : Option UInt64) (qos : SubscriberQos) (ans : BrokerAnswers) :
    UpgradeNode :=
  match n.sessionFor peer with
  | none => n
  | some l =>
    let (first, messages, world) :=
      n.messages.attachForFanout n.world ⟨l.channel, peer⟩ fqn typeId qos
    let n := { n with messages, world }
    if first then n.edge peer fqn .up .publisher ans else n

def subscribe (peer fqn : Text) (qos : SubscriberQos) (typeId : Option UInt64)
    (ans : BrokerAnswers) : UpgradeNode :=
  match n.sessionFor peer with
  | none => n
  | some l =>
    let (first, messages, world) := n.messages.attach n.world ⟨l.channel, peer⟩ fqn qos typeId
    let n := { n with messages, world }
    if first then n.edge peer fqn .up .subscriber ans else n

def unsubscribe (peer fqn : Text) : UpgradeNode :=
  match n.sessionFor peer with
  | none => n
  | some l =>
    let (last, messages, world) := n.messages.detach n.world ⟨l.channel, peer⟩ fqn
    let n := { n with messages, world }
    if last then n.edge peer fqn .down .subscriber {} else n

/-- The forwarder with its companion-route hook. -/
def forwarder : MessageForwarder :=
  { n.messages with companionRoute := n.coordinator.companionFor }

/-- A publish; nothing where the source writes outside the slots of a history ring. -/
def publish (n : UpgradeNode) (fqn : Text) (payload : Bytes) (sessionId : UInt64) :
    Option UpgradeNode :=
  (n.forwarder.publish n.world fqn payload sessionId).map fun (messages, world) =>
    { n with messages, world }

def step : UpgradeEvent → UpgradeNode
  | .connect peer scheme polls lowWater sameHost => n.connect peer scheme polls lowWater sameHost
  | .tearDown peer => n.tearDown peer
  | .setTopicHint fqn hint => { n with coordinator := n.coordinator.setTopicHint fqn hint }
  | .setTopicGeometry fqn effectiveBytes mode maxConsumers =>
    { n with medium := { n.medium with
        member := n.medium.member.setTopicGeometry fqn effectiveBytes mode maxConsumers } }
  | .declare fqn qos producerTypeId emitSourceIdentity =>
    { n with messages := n.messages.declare fqn qos producerTypeId emitSourceIdentity }
  | .serve peer fqn typeId qos ans => n.serve peer fqn typeId qos ans
  | .subscribe peer fqn qos typeId ans => n.subscribe peer fqn qos typeId ans
  | .unsubscribe peer fqn => n.unsubscribe peer fqn
  | .publish fqn payload sessionId => (n.publish fqn payload sessionId).getD n

/-- A node as it is built, in its world and with its policy. -/
def fresh (world : World) (policy : Option (Bool → DispatchHint → Bool)) : UpgradeNode :=
  { world, policy }

def run (events : List UpgradeEvent) : UpgradeNode := events.foldl step n

end UpgradeNode

/-! ## The fan-out lists -/

/-- Every entry of a fan-out list has the channel of its peer's session, and a peer has one entry. -/
structure Entered (links : List PeerLink) (r : SubscriberRegistry) : Prop where
  session : ∀ hash, ∀ sub ∈ r.subscribersOf hash,
    ∃ l ∈ links, l.nodeName = sub.nodeName ∧ l.channel = sub.channel
  single : ∀ hash, ((r.subscribersOf hash).map RegistrySubscriber.nodeName).Nodup

section Entered

variable {links : List PeerLink} {r r' : SubscriberRegistry}

theorem Entered.of_sublist (h : Entered links r)
    (hsub : ∀ hash, (r'.subscribersOf hash).Sublist (r.subscribersOf hash)) : Entered links r' where
  session := fun hash sub hmem => h.session hash sub ((hsub hash).subset hmem)
  single := fun hash => (h.single hash).sublist ((hsub hash).map _)

theorem Entered.addSubscriber (h : Entered links r) (hnames : (links.map PeerLink.nodeName).Nodup)
    {l : PeerLink} (hl : l ∈ links) (hash : UInt64) (fqn : Text) (qos : SubscriberQos)
    (typeId : Option UInt64) : Entered links (r.addSubscriber hash fqn l.channel l.nodeName qos typeId) := by
  have hsubs : ∀ other, (r.addSubscriber hash fqn l.channel l.nodeName qos typeId).subscribersOf other =
      if other = hash then ((r.entryAt hash).addSubscriber fqn l.channel l.nodeName qos typeId).subscribers
      else r.subscribersOf other := by
    intro other
    rw [SubscriberRegistry.subscribersOf, entryAt_addSubscriber]
    split <;> rfl
  have hold := h.session hash
  have hsingle := h.single hash
  -- a name that has an entry has it with the channel of its session
  have hthere : ∀ sub ∈ r.subscribersOf hash, sub.nodeName = l.nodeName →
      (r.entryAt hash).subscribed l.channel := by
    intro sub hsub hname
    obtain ⟨l', hl', hname', hchannel⟩ := hold sub hsub
    obtain rfl := inj_on_of_nodup_map hnames hl' hl (hname'.trans hname)
    exact any_eq_true.mpr ⟨sub, hsub, by simp [hchannel]⟩
  constructor
  · intro other sub hsub
    rw [hsubs, TopicEntry.subscribers_addSubscriber] at hsub
    split at hsub
    · split at hsub
      · exact hold sub hsub
      · exact forall_mem_append.mpr ⟨hold, forall_mem_singleton.mpr ⟨l, hl, rfl, rfl⟩⟩ sub hsub
    · exact h.session other sub hsub
  intro other
  rw [hsubs, TopicEntry.subscribers_addSubscriber]
  split
  · split
    · exact hsingle
    · rename_i hnew
      rw [map_append, map_singleton, nodup_append]
      refine ⟨hsingle, nodup_singleton _, ?_⟩
      intro name hname other' hother heq
      rw [mem_singleton] at hother
      obtain ⟨sub, hsub, rfl⟩ := mem_map.mp hname
      exact hnew (hthere sub hsub (heq.trans hother))
  · exact h.single other

theorem Entered.removePeer (h : Entered links r) (hnames : (links.map PeerLink.nodeName).Nodup)
    {l : PeerLink} (hl : l ∈ links) :
    Entered (links.filter fun l' => l'.nodeName ≠ l.nodeName) (r.removePeer l.nodeName l.channel) := by
  have hsubs : ∀ hash, (r.removePeer l.nodeName l.channel).subscribersOf hash =
      (r.subscribersOf hash).filter fun s => s.channel.key ≠ l.channel.key := by
    intro hash
    simp only [SubscriberRegistry.subscribersOf, SubscriberRegistry.entryAt, SubscriberRegistry.removePeer]
    cases r.topics hash <;> rfl
  constructor
  · intro hash sub hsub
    rw [hsubs, mem_filter, decide_eq_true_eq] at hsub
    obtain ⟨l', hl', hname, hchannel⟩ := h.session hash sub hsub.1
    refine ⟨l', mem_filter.mpr ⟨hl', decide_eq_true fun heq => ?_⟩, hname, hchannel⟩
    obtain rfl := inj_on_of_nodup_map hnames hl' hl heq
    exact hsub.2 (by rw [hchannel])
  · intro hash
    rw [hsubs]
    exact (h.single hash).sublist (filter_sublist.map _)

variable {f : MessageForwarder} {l : PeerLink}

section

variable (h : Entered links f.registry) (hnames : (links.map PeerLink.nodeName).Nodup)
  (hl : l ∈ links) (w : World) (fqn : Text)
include h hnames hl

theorem Entered.attach (qos : SubscriberQos) (typeId : Option UInt64) :
    Entered links (f.attach w ⟨l.channel, l.nodeName⟩ fqn qos typeId).2.1.registry := by
  have hbumped : Entered links (f.registry.bumpRefcount l.nodeName fqn).2 := ⟨h.session, h.single⟩
  unfold MessageForwarder.attach
  dsimp only
  split
  · exact hbumped
  · rw [MessageForwarder.registry_recordRemoteTopic]
    exact hbumped.addSubscriber hnames hl _ _ _ _

theorem Entered.attachForFanout (typeId : Option UInt64) (qos : SubscriberQos) :
    Entered links (f.attachForFanout w ⟨l.channel, l.nodeName⟩ fqn typeId qos).2.1.registry := by
  have hbumped : Entered links (f.registry.bumpRefcount l.nodeName fqn).2 := ⟨h.session, h.single⟩
  unfold MessageForwarder.attachForFanout
  dsimp only
  split
  · exact h
  · split
    · exact hbumped
    · exact hbumped.addSubscriber hnames hl _ _ _ _

end

theorem Entered.detach (h : Entered links f.registry) (w : World) (p : Peer) (fqn : Text) :
    Entered links (f.detach w p fqn).2.1.registry := by
  have hdropped : Entered links (f.registry.dropRefcount p.nodeName fqn).2 := ⟨h.session, h.single⟩
  unfold MessageForwarder.detach
  dsimp only
  split
  · exact hdropped
  refine hdropped.of_sublist fun hash => ?_
  show (SubscriberRegistry.subscribersOf (removeSubscriber _ _ _) hash).Sublist _
  rcases eq_or_ne hash (fqnTopicHash fqn) with rfl | hne
  · rw [subscribersOf_removeSubscriber]
    exact filter_sublist
  · simp only [SubscriberRegistry.subscribersOf, SubscriberRegistry.entryAt,
      topics_removeSubscriber_of_ne _ _ hne, List.Sublist.refl]

end Entered

namespace UpgradeNode

/-- The keys of all channels: those of the sessions and those of the companions. -/
def keys (n : UpgradeNode) : List Nat :=
  n.sessions.map (·.channel.key) ++ n.coordinator.held.filterMap fun r => r.channel.map Channel.key

structure Tidy (n : UpgradeNode) : Prop where
  names : (n.sessions.map PeerLink.nodeName).Nodup
  keys_nodup : n.keys.Nodup
  keys_lt : ∀ k ∈ n.keys, k < n.medium.nextKey
  entered : Entered n.sessions n.messages.registry

variable {n : UpgradeNode}

theorem tidy_fresh (world : World) (policy : Option (Bool → DispatchHint → Bool)) :
    (fresh world policy).Tidy where
  names := nodup_nil
  keys_nodup := nodup_nil
  keys_lt := forall_mem_nil _
  entered := ⟨fun _ _ hsub => absurd hsub not_mem_nil, fun _ => nodup_nil⟩

theorem mem_of_sessionFor {peer : Text} {l : PeerLink} (h : n.sessionFor peer = some l) :
    l ∈ n.sessions ∧ l.nodeName = peer :=
  ⟨mem_of_find?_eq_some h, by simpa using find?_some h⟩

variable {n' : UpgradeNode}

theorem Tidy.of_sublist (h : n.Tidy)
    (hsessions : n'.sessions.Sublist n.sessions)
    (hheld : n'.coordinator.held.Sublist n.coordinator.held)
    (hnext : n.medium.nextKey ≤ n'.medium.nextKey)
    (hentered : Entered n'.sessions n'.messages.registry) : n'.Tidy := by
  have hkeys : n'.keys.Sublist n.keys := (hsessions.map _).append (hheld.filterMap _)
  refine ⟨h.names.sublist (hsessions.map _), h.keys_nodup.sublist hkeys, fun k hk => ?_, hentered⟩
  exact lt_of_lt_of_le (h.keys_lt k (hkeys.subset hk)) hnext

theorem Tidy.of_perm (h : n.Tidy)
    (hnames : (n'.sessions.map PeerLink.nodeName).Nodup)
    (hkeys : n'.keys.Perm (n.medium.nextKey :: n.keys))
    (hnext : n'.medium.nextKey = n.medium.nextKey + 1)
    (hentered : Entered n'.sessions n'.messages.registry) : n'.Tidy := by
  refine ⟨hnames, ?_, fun k hk => ?_, hentered⟩
  · rw [hkeys.nodup_iff, nodup_cons]
    exact ⟨fun hmem => absurd (h.keys_lt _ hmem) (lt_irrefl _), h.keys_nodup⟩
  rw [hnext]
  rcases mem_cons.mp (hkeys.subset hk) with rfl | hold
  · exact Nat.lt_succ_self _
  · exact Nat.lt_succ_of_lt (h.keys_lt k hold)

/-! ## Edges -/

theorem nextKey_discard (policy : Option (Bool → DispatchHint → Bool)) (ans : BrokerAnswers)
    (rings : List CoordinatorRing) (m : ShmMedium) :
    (rings.foldl (sameHostGates policy ans).discard m).nextKey = m.nextKey := by
  induction rings generalizing m with
  | nil => rfl
  | cons r rings ih => exact ih _

/-- The receive gate makes no channel; a channel of the other gate has the next key. -/
theorem nextKey_onUp (c : UpgradeCoordinator) (policy : Option (Bool → DispatchHint → Bool))
    (ans : BrokerAnswers) (m : ShmMedium) (peer fqn : Text) (sameHost : Bool) (role : DemandRole) :
    m.nextKey ≤ (c.onUp (sameHostGates policy ans) m peer fqn sameHost role).2.nextKey := by
  apply UpgradeCoordinator.medium_onUp (sameHostGates policy ans) c m peer fqn
    (fun m' => m.nextKey ≤ m'.nextKey)
  · exact le_rfl
  · intro mint hmint
    obtain rfl := Option.some.inj hmint
    dsimp only
    split
    · exact le_rfl
    · exact Nat.le_succ _
  · intro mint hmint
    obtain rfl := Option.some.inj hmint
    exact le_rfl

theorem key_of_mint {policy : Option (Bool → DispatchHint → Bool)} {ans : BrokerAnswers} {m m' : ShmMedium}
    {fqn : Text} {ch : Channel} {fits : Option (Nat → Bool)}
    {mint : ShmMedium → Text → ShmMedium × Option (Channel × Option (Nat → Bool))}
    (hgate : (sameHostGates policy ans).mint = some mint) (hmint : mint m fqn = (m', some (ch, fits))) :
    ch.key = m.nextKey ∧ m'.nextKey = m.nextKey + 1 := by
  obtain rfl := Option.some.inj hgate
  dsimp only at hmint
  split at hmint
  · cases hmint
  · cases hmint
    exact ⟨rfl, rfl⟩

section

variable (h : n.Tidy)
include h

/-- **An edge** keeps a node tidy: a companion it mints has a key of its own. -/
theorem Tidy.edge (peer fqn : Text) (dir : DemandTransition) (role : DemandRole)
    (ans : BrokerAnswers) : (n.edge peer fqn dir role ans).Tidy := by
  cases dir with
  | down =>
    have hheld := UpgradeCoordinator.held_onDown (sameHostGates n.policy ans) n.coordinator n.medium
      peer fqn
    refine h.of_sublist (.refl _) hheld ?_ h.entered
    exact (nextKey_discard n.policy ans _ n.medium).ge
  | up =>
    have hnext := nextKey_onUp n.coordinator n.policy ans n.medium peer fqn (n.sameHostFor peer) role
    rcases UpgradeCoordinator.held_onUp (sameHostGates n.policy ans) n.coordinator n.medium peer fqn
      (n.sameHostFor peer) role with hsame | ⟨r, hheld, hnew⟩
    · have hheld : (n.edge peer fqn .up role ans).coordinator.held.Sublist n.coordinator.held :=
        .trans (hsame ▸ .refl _) (.refl _)
      exact h.of_sublist (.refl _) hheld hnext h.entered
    have hkeys : (n.edge peer fqn .up role ans).keys = n.keys ++ (r.channel.map Channel.key).toList := by
      rw [keys, keys, append_assoc]
      refine congrArg (_ ++ ·) ((congrArg (filterMap _) hheld).trans ?_)
      cases hr : r.channel <;> simp [hr]
    cases hr : r.channel with
    | none =>
      rw [hr, Option.map_none, Option.toList_none, append_nil] at hkeys
      refine ⟨h.names, hkeys ▸ h.keys_nodup, fun k hk => ?_, h.entered⟩
      rw [hkeys] at hk
      exact lt_of_lt_of_le (h.keys_lt k hk) hnext
    | some ch =>
      obtain ⟨mint, fits, hgate, hmint⟩ := hnew ch hr
      obtain ⟨hkey, hnext'⟩ := key_of_mint hgate hmint
      refine h.of_perm h.names ?_ hnext' h.entered
      rw [hkeys, hr, Option.map_some, hkey]
      exact perm_append_singleton _ _

/-! ## Every run -/

theorem Tidy.onMessages {messages : MessageForwarder}
    (hentered : Entered n.sessions messages.registry) (world : World) :
    ({ n with messages, world } : UpgradeNode).Tidy :=
  { h with entered := hentered }

theorem Tidy.connect (peer scheme : Text) (polls : Bool) (lowWater : Nat) (sameHost : Bool) :
    (n.connect peer scheme polls lowWater sameHost).Tidy := by
  unfold UpgradeNode.connect
  split
  · exact h
  rename_i hnone
  have hnew : peer ∉ n.sessions.map PeerLink.nodeName := by
    intro hmem
    obtain ⟨l, hl, hname⟩ := mem_map.mp hmem
    refine hnone (find?_isSome.mpr ⟨l, hl, decide_eq_true hname⟩)
  refine h.of_perm ?_ ?_ rfl ?_
  · rw [map_append]
    exact nodup_append.mpr ⟨h.names, nodup_singleton _, fun a ha b hb heq => by
      rw [heq, mem_singleton.mp hb] at ha
      exact hnew ha⟩
  · simp only [keys, map_append, append_assoc]
    exact perm_middle
  · refine ⟨fun hash sub hsub => ?_, h.entered.single⟩
    obtain ⟨l, hl, hname, hchannel⟩ := h.entered.session hash sub hsub
    exact ⟨l, mem_append_left _ hl, hname, hchannel⟩

theorem Tidy.tearDown (peer : Text) : (n.tearDown peer).Tidy := by
  unfold UpgradeNode.tearDown
  split
  · exact h
  rename_i l hl
  obtain ⟨hmem, rfl⟩ := mem_of_sessionFor hl
  have hheld := UpgradeCoordinator.held_onPeerDead (sameHostGates n.policy {}) n.coordinator n.medium
    l.nodeName
  refine h.of_sublist filter_sublist hheld ?_ (h.entered.removePeer h.names hmem)
  exact (nextKey_discard n.policy {} _ n.medium).ge

theorem Tidy.publish {fqn : Text} {payload : Bytes} {sessionId : UInt64}
    (hpub : n.publish fqn payload sessionId = some n') : n'.Tidy := by
  obtain ⟨⟨messages, world⟩, hsome, rfl⟩ := Option.map_eq_some_iff.mp hpub
  have hsubs := (MessageForwarder.fanned_publish hsome).subscribers
  refine h.onMessages (h.entered.of_sublist fun hash => ?_) world
  rw [hsubs hash]
  exact .refl _

/-- **The step lemma.** -/
theorem Tidy.step (e : UpgradeEvent) : (n.step e).Tidy := by
  cases e with
  | connect peer scheme polls lowWater sameHost => exact h.connect peer scheme polls lowWater sameHost
  | tearDown peer => exact h.tearDown peer
  | setTopicHint fqn hint | setTopicGeometry fqn effectiveBytes mode maxConsumers =>
    exact { h with }
  | declare fqn qos producerTypeId emitSourceIdentity =>
    refine h.onMessages (h.entered.of_sublist fun hash => ?_) n.world
    rw [MessageForwarder.declare, subscribersOf_declare]
  | serve peer fqn typeId qos ans =>
    simp only [UpgradeNode.step, UpgradeNode.serve]
    split
    · exact h
    rename_i l hl
    obtain ⟨hmem, rfl⟩ := mem_of_sessionFor hl
    have hserved := h.onMessages (h.entered.attachForFanout h.names hmem n.world fqn typeId qos)
    split
    · exact (hserved _).edge _ _ _ _ _
    · exact hserved _
  | subscribe peer fqn qos typeId ans =>
    simp only [UpgradeNode.step, UpgradeNode.subscribe]
    split
    · exact h
    rename_i l hl
    obtain ⟨hmem, rfl⟩ := mem_of_sessionFor hl
    have hattached := h.onMessages (h.entered.attach h.names hmem n.world fqn qos typeId)
    split
    · exact (hattached _).edge _ _ _ _ _
    · exact hattached _
  | unsubscribe peer fqn =>
    simp only [UpgradeNode.step, UpgradeNode.unsubscribe]
    split
    · exact h
    rename_i l hl
    have hdetached := h.onMessages (h.entered.detach n.world ⟨l.channel, peer⟩ fqn)
    split
    · exact (hdetached _).edge _ _ _ _ _
    · exact hdetached _
  | publish fqn payload sessionId =>
    simp only [UpgradeNode.step]
    cases hpub : n.publish fqn payload sessionId with
    | none => exact h
    | some n' => exact h.publish hpub

end

theorem tidy_run (world : World) (policy : Option (Bool → DispatchHint → Bool))
    (events : List UpgradeEvent) : ((fresh world policy).run events).Tidy :=
  Plexus.Lib.run_invariant Tidy (fun _ e h => h.step e) (tidy_fresh world policy) events

end UpgradeNode

end Plexus.Api
