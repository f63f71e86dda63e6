/-
# Plexus.Api.NodeDemand — is a node's demand balanced?

Every handle on a name, every discovery card and every ready edge of a peer makes one
`routing_engine::subscribe` call, and each bumps the forwarder's refcount of (peer, name) when the
session is complete. Only the retirement of the *last* handle drops it, once. So the unsubscribe
goes out exactly when one bump was made: `demand_balanced_of_single`.

The invariant: the remembered demand on a known peer is the set of live names, and the forwarder
counts what is remembered towards complete sessions.
-/
import Plexus.Api.Node
import Plexus.Lib.Run

namespace Plexus.Api

open Wire Io Lib MessageForwarder List

namespace Node

/-- The forwarder's refcount of (peer, name). -/
def count (n : Node) (id : NodeId) (fqn : Text) : Option UInt32 :=
  n.messages.registry.refcount.counts (nodeNameOf id) fqn

def remembered (n : Node) (id : NodeId) : List RememberedDemand :=
  n.messages.remoteTopics (nodeNameOf id)

def Remembers (n : Node) (id : NodeId) (fqn : Text) : Prop := ∃ d ∈ n.remembered id, d.fqn = fqn

instance (n : Node) (id : NodeId) (fqn : Text) : Decidable (n.Remembers id fqn) :=
  inferInstanceAs (Decidable (∃ d ∈ n.remembered id, d.fqn = fqn))

def isComplete (n : Node) (id : NodeId) : Bool := (n.sessions id).isSome

/-- What the forwarder's calls leave alone. -/
structure Frame (n n' : Node) : Prop where
  id : n'.id = n.id
  table : n'.table = n.table
  knownPeers : n'.knownPeers = n.knownPeers
  sessions : n'.sessions = n.sessions

theorem Frame.refl (n : Node) : Frame n n := ⟨rfl, rfl, rfl, rfl⟩

variable {n n' : Node} {id : NodeId} {sub : Subscription} {calls : List (NodeId × Subscription)}
  {fqn : Text} {ids : List NodeId}

theorem Frame.trans {n'' : Node} (h : Frame n n') (h' : Frame n' n'') : Frame n n'' :=
  ⟨h'.id.trans h.id, h'.table.trans h.table, h'.knownPeers.trans h.knownPeers,
    h'.sessions.trans h.sessions⟩

theorem isComplete_congr (h : n'.sessions = n.sessions) : n'.isComplete = n.isComplete := by
  funext id
  rw [isComplete, h, isComplete]

theorem remembers_congr (h : n'.remembered = n.remembered) : n'.Remembers = n.Remembers := by
  funext id fqn
  rw [Remembers, h, Remembers]

/-! ## One subscribe call -/

theorem frame_sessionSubscribe (n : Node) (id : NodeId) (sub : Subscription) :
    Frame n (n.sessionSubscribe id sub) := by
  unfold sessionSubscribe
  split <;> exact ⟨rfl, rfl, rfl, rfl⟩

theorem count_sessionSubscribe (n : Node) (id other : NodeId) (sub : Subscription) (name : Text) :
    (n.sessionSubscribe id sub).count other name =
      if n.isComplete id ∧ other = id ∧ name = sub.fqn then some ((n.count id sub.fqn).getD 0 + 1)
      else n.count other name := by
  unfold sessionSubscribe isComplete
  cases n.sessions id with
  | none => simp
  | some channel =>
    simp only [count, refcount_attach, Option.isSome_some, true_and]
    rcases eq_or_ne other id with rfl | hne
    · simp only [true_and]
      exact KeyedRefcount.counts_bump _ _ _ _
    · rw [if_neg fun h => hne h.1]
      exact KeyedRefcount.counts_bump_of_ne _ fun h => hne (nodeNameOf_injective (Prod.mk.inj h).1)

theorem remembered_sessionSubscribe (h : n.Remembers id sub.fqn) (other : NodeId) :
    (n.sessionSubscribe id sub).remembered other = n.remembered other := by
  unfold sessionSubscribe
  cases n.sessions id with
  | none => rfl
  | some channel =>
    have hmem : ∃ d ∈ n.messages.remoteTopics
        ({ channel, nodeName := nodeNameOf id } : Peer).nodeName, d.fqn = sub.fqn := h
    simp only [remembered, remoteTopics_attach_of_mem hmem]

theorem remembered_rememberDemand (n : Node) (id other : NodeId) (sub : Subscription) :
    (n.rememberDemand id sub).remembered other =
      if other = id ∧ ¬ n.Remembers id sub.fqn then
        n.remembered other ++ [⟨sub.fqn, sub.qos, sub.typeId⟩]
      else n.remembered other := by
  simp only [remembered, rememberDemand, remoteTopics_recordRemoteTopic, Remembers,
    not_exists, not_and]
  refine if_congr (and_congr_left fun _ => ⟨nodeNameOf_injective, congrArg _⟩) rfl rfl

section

variable (n : Node) (id : NodeId) (sub : Subscription)

theorem remembers_rememberDemand : (n.rememberDemand id sub).Remembers id sub.fqn := by
  by_cases h : n.Remembers id sub.fqn
  · rwa [Remembers, remembered_rememberDemand, if_neg fun hnot => hnot.2 h]
  · rw [Remembers, remembered_rememberDemand, if_pos ⟨rfl, h⟩]
    exact ⟨_, mem_append_right _ (mem_singleton_self _), rfl⟩

theorem frame_engineSubscribe : Frame n (n.engineSubscribe id sub) := by
  have hremember : Frame n (n.rememberDemand id sub) := ⟨rfl, rfl, rfl, rfl⟩
  exact hremember.trans (frame_sessionSubscribe _ id sub)

end

section

variable (n : Node) (id other : NodeId) (sub : Subscription)

theorem count_engineSubscribe (name : Text) :
    (n.engineSubscribe id sub).count other name =
      if n.isComplete id ∧ other = id ∧ name = sub.fqn then some ((n.count id sub.fqn).getD 0 + 1)
      else n.count other name := by
  have hcount : (n.rememberDemand id sub).count = n.count := by
    funext other name
    simp only [count, rememberDemand, registry_recordRemoteTopic]
  rw [engineSubscribe, count_sessionSubscribe, hcount]
  rfl

theorem counted_engineSubscribe (name : Text) :
    (n.engineSubscribe id sub).count other name ≠ none ↔
      n.count other name ≠ none ∨ n.isComplete other ∧ id = other ∧ sub.fqn = name := by
  rw [count_engineSubscribe]
  split
  case isTrue h =>
    obtain ⟨hcomplete, rfl, rfl⟩ := h
    exact ⟨fun _ => .inr ⟨hcomplete, rfl, rfl⟩, fun _ => Option.some_ne_none _⟩
  case isFalse h =>
    refine ⟨.inl, ?_⟩
    rintro (hold | ⟨hcomplete, rfl, rfl⟩)
    · exact hold
    · exact absurd ⟨hcomplete, rfl, rfl⟩ h

theorem remembered_engineSubscribe :
    (n.engineSubscribe id sub).remembered other =
      if other = id ∧ ¬ n.Remembers id sub.fqn then
        n.remembered other ++ [⟨sub.fqn, sub.qos, sub.typeId⟩]
      else n.remembered other := by
  rw [engineSubscribe, remembered_sessionSubscribe (remembers_rememberDemand n id sub),
    remembered_rememberDemand]

theorem remembers_engineSubscribe (name : Text) :
    (n.engineSubscribe id sub).Remembers other name ↔
      n.Remembers other name ∨ id = other ∧ sub.fqn = name := by
  rw [Remembers, remembered_engineSubscribe]
  split
  case isTrue h =>
    obtain ⟨rfl, _⟩ := h
    simp only [mem_append, mem_singleton, or_and_right, exists_or, exists_eq_left, true_and]
    rfl
  case isFalse h =>
    refine ⟨.inl, ?_⟩
    rintro (hold | ⟨rfl, rfl⟩)
    · exact hold
    · by_contra hnot
      exact h ⟨rfl, hnot⟩

end

/-! ## A row of subscribe calls -/

def samePair (c c' : NodeId × Subscription) : Bool := c'.1 = c.1 && c'.2.fqn = c.2.fqn

/-- No refcount passes the top of its 32 bits, whatever the row adds to it. -/
def Room (n : Node) (calls : List (NodeId × Subscription)) : Prop :=
  ∀ c ∈ calls, ((n.count c.1 c.2.fqn).getD 0).toNat + calls.countP (samePair c) < 2 ^ 32

instance (n : Node) (calls : List (NodeId × Subscription)) : Decidable (Room n calls) :=
  inferInstanceAs (Decidable (∀ c ∈ calls, _))

/-- The row asks a peer for a name. -/
def Asks (calls : List (NodeId × Subscription)) (id : NodeId) (name : Text) : Prop :=
  ∃ c ∈ calls, c.1 = id ∧ c.2.fqn = name

/-- What a row of calls adds to the remembered demand and to the refcounts. -/
structure Demands (calls : List (NodeId × Subscription)) (n n' : Node) : Prop where
  frame : Frame n n'
  remembers : ∀ id name, n'.Remembers id name ↔ n.Remembers id name ∨ Asks calls id name
  untouched : ∀ id, (∀ c ∈ calls, c.1 ≠ id) → n'.remembered id = n.remembered id
  distinct : ∀ id, ((n.remembered id).map RememberedDemand.fqn).Nodup →
    ((n'.remembered id).map RememberedDemand.fqn).Nodup
  counted : ∀ id name, n'.count id name ≠ none ↔
    n.count id name ≠ none ∨ n.isComplete id ∧ Asks calls id name
  positive : Room n calls → (∀ id name, n.count id name ≠ some 0) →
    ∀ id name, n'.count id name ≠ some 0

theorem distinct_engineSubscribe {other : NodeId}
    (h : ((n.remembered other).map RememberedDemand.fqn).Nodup) :
    (((n.engineSubscribe id sub).remembered other).map RememberedDemand.fqn).Nodup := by
  rw [remembered_engineSubscribe]
  split
  case isTrue hnew =>
    obtain ⟨rfl, hnot⟩ := hnew
    rw [map_append, nodup_append]
    refine ⟨h, nodup_singleton _, fun a ha b hb heq => hnot ?_⟩
    obtain ⟨d, hd, rfl⟩ := mem_map.mp ha
    exact ⟨d, hd, heq.trans (mem_singleton.mp hb)⟩
  case isFalse => exact h

theorem Room.tail {c : NodeId × Subscription} (h : Room n (c :: calls)) :
    Room (n.engineSubscribe c.1 c.2) calls := by
  intro c' hc'
  have hroom := h c' (mem_cons_of_mem _ hc')
  rw [countP_cons] at hroom
  rw [count_engineSubscribe]
  split
  case isTrue hsame =>
    obtain ⟨_, hid, hname⟩ := hsame
    have hpair : samePair c' c := by simp [samePair, hid, hname]
    rw [hpair, if_pos rfl, hid, hname] at hroom
    simp only [Option.getD_some]
    rw [UInt32.toNat_add, UInt32.toNat_one]
    omega
  case isFalse => omega

theorem positive_engineSubscribe {c : NodeId × Subscription} (hroom : Room n (c :: calls))
    (h : ∀ id name, n.count id name ≠ some 0) (id : NodeId) (name : Text) :
    (n.engineSubscribe c.1 c.2).count id name ≠ some 0 := by
  rw [count_engineSubscribe]
  split
  · intro hzero
    have hlt := hroom c mem_cons_self
    rw [countP_cons_of_pos (by simp [samePair])] at hlt
    have htop := congrArg UInt32.toNat (Option.some.inj hzero)
    rw [UInt32.toNat_add, UInt32.toNat_one, Nat.mod_eq_of_lt (by omega)] at htop
    exact Nat.succ_ne_zero _ htop
  · exact h id name

theorem demands_subscribeAll (n : Node) (calls : List (NodeId × Subscription)) :
    Demands calls n (n.subscribeAll calls) := by
  induction calls generalizing n with
  | nil =>
    exact ⟨.refl n, by simp [subscribeAll, Asks], fun _ _ => rfl, fun _ h => h,
      by simp [subscribeAll, Asks], fun _ h => h⟩
  | cons c calls ih =>
    have hrest := ih (n.engineSubscribe c.1 c.2)
    have hframe := frame_engineSubscribe n c.1 c.2
    refine ⟨hframe.trans hrest.frame, fun id name => ?_, fun id hne => ?_, fun id hdistinct => ?_,
      fun id name => ?_, fun hroom hpos => ?_⟩
    · refine (hrest.remembers id name).trans ?_
      simp only [remembers_engineSubscribe, Asks, mem_cons, or_and_right, exists_or,
        exists_eq_left, or_assoc]
    · refine (hrest.untouched id fun c' hc' => hne c' (mem_cons_of_mem _ hc')).trans ?_
      rw [remembered_engineSubscribe, if_neg fun h => hne c mem_cons_self h.1.symm]
    · exact hrest.distinct id (distinct_engineSubscribe hdistinct)
    · refine (hrest.counted id name).trans ?_
      simp only [isComplete_congr hframe.sessions, counted_engineSubscribe, Asks, mem_cons,
        or_and_right, exists_or, exists_eq_left, and_or_left, or_assoc]
    · exact hrest.positive hroom.tail (positive_engineSubscribe hroom hpos)

/-! ## A row of unsubscribe calls -/

/-- The topic an unsubscribe frame names. -/
def unsubscribeIn (frame : Bytes) : Option UInt64 :=
  match decodeHeader frame with
  | none => none
  | some hdr =>
    if hdr.type = MsgType.unsubscribe then
      (decodeUnsubscribeRequest (frame.drop headerSize)).map UnsubscribeRequest.topicHash
    else none

theorem unsubscribeIn_unsubscribe (timestampNs hash : UInt64) :
    unsubscribeIn (controlFrame MsgType.unsubscribe timestampNs
      (encodeUnsubscribeRequest ⟨hash⟩)) = some hash := by
  have hdecode : decodeUnsubscribeRequest (encodeUnsubscribeRequest ⟨hash⟩) = some ⟨hash⟩ := by
    have hread := readU64_writeU64 hash []
    rw [append_nil] at hread
    simp [decodeUnsubscribeRequest, encodeUnsubscribeRequest, unsubscribeRequestSize, hread]
  simp only [unsubscribeIn, decodeHeader_controlFrame,
    drop_controlFrame, if_true, hdecode, Option.map_some]

/-- The calls between two states have put exactly these unsubscribes on the wire. -/
def Unsubscribed (channels : List Channel) (fqn : Text) (n n' : Node) : Prop :=
  ∃ frames, n'.world.sent = n.world.sent ++ frames ∧
    frames.map (fun e => (e.1, unsubscribeIn e.2)) =
      channels.map fun channel => (channel, some (fqnTopicHash fqn))

theorem Unsubscribed.trans {channels channels' : List Channel} {n'' : Node}
    (h : Unsubscribed channels fqn n n') (h' : Unsubscribed channels' fqn n' n'') :
    Unsubscribed (channels ++ channels') fqn n n'' := by
  obtain ⟨frames, hsent, hframes⟩ := h
  obtain ⟨frames', hsent', hframes'⟩ := h'
  refine ⟨frames ++ frames', ?_, ?_⟩
  · rw [hsent', hsent, append_assoc]
  · rw [map_append, map_append, hframes, hframes']

theorem frame_engineUnsubscribe (n : Node) (id : NodeId) (fqn : Text) :
    Frame n (n.engineUnsubscribe id fqn) := by
  unfold engineUnsubscribe sessionUnsubscribe
  split <;> exact ⟨rfl, rfl, rfl, rfl⟩

theorem count_engineUnsubscribe (n : Node) (id other : NodeId) (fqn name : Text) :
    (n.engineUnsubscribe id fqn).count other name =
      if n.isComplete id ∧ other = id ∧ name = fqn then
        (n.count id fqn).bind fun v => if v - 1 = 0 then none else some (v - 1)
      else n.count other name := by
  have hsessions : (n.forgetRememberedDemand id fqn).sessions = n.sessions := rfl
  unfold engineUnsubscribe sessionUnsubscribe isComplete
  rw [hsessions]
  cases n.sessions id with
  | none => simp [count, forgetRememberedDemand, forgetRemoteTopic]
  | some channel =>
    simp only [count, refcount_detach, Option.isSome_some, true_and]
    rcases eq_or_ne other id with rfl | hne
    · simp only [true_and]
      exact KeyedRefcount.counts_drop _ _ _ _
    · rw [if_neg fun h => hne h.1]
      exact KeyedRefcount.counts_drop_of_ne _ fun h => hne (nodeNameOf_injective (Prod.mk.inj h).1)

theorem remembered_engineUnsubscribe (n : Node) (id other : NodeId) (fqn : Text) :
    (n.engineUnsubscribe id fqn).remembered other =
      if other = id then (n.remembered other).filter (fun d => d.fqn ≠ fqn)
      else n.remembered other := by
  have hforget : ∀ other, (n.forgetRememberedDemand id fqn).remembered other =
      if other = id then (n.remembered other).filter (fun d => d.fqn ≠ fqn)
      else n.remembered other := by
    intro other
    simp only [remembered, forgetRememberedDemand, remoteTopics_forgetRemoteTopic]
    exact if_congr ⟨nodeNameOf_injective, congrArg _⟩ rfl rfl
  have hgone : ∀ d ∈ (n.forgetRememberedDemand id fqn).remembered id, d.fqn ≠ fqn := by
    intro d hd
    rw [hforget, if_pos rfl] at hd
    simpa using (mem_filter.mp hd).2
  rw [← hforget]
  unfold engineUnsubscribe sessionUnsubscribe
  cases (n.forgetRememberedDemand id fqn).sessions id with
  | none => rfl
  | some channel =>
    have hmem : ∀ d ∈ (n.forgetRememberedDemand id fqn).messages.remoteTopics
        ({ channel, nodeName := nodeNameOf id } : Peer).nodeName, d.fqn ≠ fqn := hgone
    simp only [remembered, remoteTopics_detach_of_not_mem hmem]

/-- Towards a session that is not complete nothing is sent; towards one that counts the name once,
one unsubscribe is. -/
theorem unsubscribed_engineUnsubscribe (h : n.isComplete id → n.count id fqn = some 1) :
    Unsubscribed (n.sessions id).toList fqn n (n.engineUnsubscribe id fqn) := by
  have hsessions : (n.forgetRememberedDemand id fqn).sessions = n.sessions := rfl
  unfold engineUnsubscribe sessionUnsubscribe
  rw [hsessions]
  cases hsession : n.sessions id with
  | none => exact ⟨[], (append_nil _).symm, rfl⟩
  | some channel =>
    have hone : (n.forgetRememberedDemand id fqn).messages.registry.refcount.counts
        ({ channel, nodeName := nodeNameOf id } : Peer).nodeName fqn = some 1 :=
      h (by simp [isComplete, hsession])
    simp only [detach_of_last hone]
    refine ⟨[(channel, _)], rfl, ?_⟩
    simp only [map_cons, map_nil, unsubscribeIn_unsubscribe, Option.toList_some]

theorem count_foldl_engineUnsubscribe (hnodup : ids.Nodup) (n : Node) (fqn : Text) (id : NodeId)
    (name : Text) :
    (ids.foldl (fun n id => n.engineUnsubscribe id fqn) n).count id name =
      if n.isComplete id ∧ id ∈ ids ∧ name = fqn then
        (n.count id fqn).bind fun v => if v - 1 = 0 then none else some (v - 1)
      else n.count id name := by
  induction ids generalizing n with
  | nil => simp
  | cons head ids ih =>
    obtain ⟨hnotin, hnodup⟩ := nodup_cons.mp hnodup
    have hcomplete := isComplete_congr (frame_engineUnsubscribe n head fqn).sessions
    rw [foldl_cons, ih hnodup, hcomplete, count_engineUnsubscribe, count_engineUnsubscribe]
    rcases eq_or_ne id head with rfl | hne
    · simp [hnotin]
    · simp [hne]

/-- What retiring a name towards a row of peers does. -/
structure Withdraws (ids : List NodeId) (fqn : Text) (n n' : Node) : Prop where
  frame : Frame n n'
  remembered : ∀ id, n'.remembered id =
    if id ∈ ids then (n.remembered id).filter (fun d => d.fqn ≠ fqn) else n.remembered id
  count : ∀ id name, n'.count id name =
    if n.isComplete id ∧ id ∈ ids ∧ name = fqn then none else n.count id name
  sent : Unsubscribed (ids.filterMap n.sessions) fqn n n'

theorem Withdraws.remembers (h : Withdraws ids fqn n n') (id : NodeId) (name : Text) :
    n'.Remembers id name ↔ n.Remembers id name ∧ ¬ (id ∈ ids ∧ name = fqn) := by
  rw [Remembers, h.remembered, Remembers]
  split
  case isTrue hmem =>
    simp only [mem_filter, decide_eq_true_eq, hmem, true_and]
    constructor
    · rintro ⟨d, ⟨hd, hne⟩, rfl⟩
      exact ⟨⟨d, hd, rfl⟩, hne⟩
    · rintro ⟨⟨d, hd, rfl⟩, hne⟩
      exact ⟨d, ⟨hd, hne⟩, rfl⟩
  case isFalse hmem => simp [hmem]

/-- **A row of unsubscribes** that finds every refcount at one takes every one of them to zero and
sends one frame on each session. -/
theorem withdraws_foldl (hnodup : ids.Nodup)
    (hone : ∀ id ∈ ids, n.isComplete id → n.count id fqn = some 1) :
    Withdraws ids fqn n (ids.foldl (fun n id => n.engineUnsubscribe id fqn) n) := by
  induction ids generalizing n with
  | nil => exact ⟨.refl n, by simp, by simp, [], by simp⟩
  | cons id ids ih =>
    have hall := hnodup
    obtain ⟨hnotin, hnodup⟩ := nodup_cons.mp hnodup
    have hframe := frame_engineUnsubscribe n id fqn
    -- the call leaves the counts of the peers still to come alone
    have hrest := ih hnodup fun other hother hc => by
      have hne : other ≠ id := fun heq => hnotin (heq ▸ hother)
      rw [isComplete_congr hframe.sessions] at hc
      rw [count_engineUnsubscribe, if_neg fun h => hne h.2.1]
      exact hone other (mem_cons_of_mem _ hother) hc
    refine ⟨hframe.trans hrest.frame, fun other => ?_, fun other name => ?_, ?_⟩
    · refine (hrest.remembered other).trans ?_
      rw [remembered_engineUnsubscribe]
      rcases eq_or_ne other id with rfl | hne
      · simp
      · simp [hne]
    · rw [count_foldl_engineUnsubscribe hall]
      refine if_ctx_congr .rfl (fun h => ?_) (fun _ => rfl)
      simp [hone other h.2.1 h.1]
    · have hfirst := unsubscribed_engineUnsubscribe (hone id mem_cons_self)
      have hchannels : (id :: ids).filterMap n.sessions =
          (n.sessions id).toList ++ ids.filterMap (n.engineUnsubscribe id fqn).sessions := by
        rw [hframe.sessions, filterMap_cons]
        cases n.sessions id <;> rfl
      rw [hchannels]
      exact hfirst.trans hrest.sent

/-! ## The invariant -/

/-- The forwarder's half: it counts what is remembered towards complete sessions. -/
structure Ledger (n : Node) : Prop where
  distinct : ∀ id, ((n.remembered id).map RememberedDemand.fqn).Nodup
  counted : ∀ id fqn, n.count id fqn ≠ none ↔ n.Remembers id fqn ∧ n.isComplete id
  positive : ∀ id fqn, n.count id fqn ≠ some 0

/-- The node's half: what is remembered on a known peer are the live names. -/
structure Inv (n : Node) : Prop where
  table : n.table.WellFormed
  nodup : n.knownPeers.Nodup
  remembers : ∀ id ∈ n.knownPeers, ∀ fqn, n.Remembers id fqn ↔ n.table.anySubscriberFor fqn = true
  unknown : ∀ id, id ∉ n.knownPeers → n.remembered id = []
  ledger : Ledger n

/-- Two nodes whose forwarders agree on the demand. -/
structure SameDemand (n n' : Node) : Prop where
  remembered : n'.remembered = n.remembered
  count : n'.count = n.count
  sessions : n'.sessions = n.sessions

theorem Ledger.of_same (h : Ledger n) (hsame : SameDemand n n') : Ledger n' := by
  refine ⟨?_, ?_, ?_⟩
  · rw [hsame.remembered]
    exact h.distinct
  · rw [hsame.count, remembers_congr hsame.remembered, isComplete_congr hsame.sessions]
    exact h.counted
  · rw [hsame.count]
    exact h.positive

theorem selfAttach_frame (n : Node) (sub : Subscription) :
    Frame n (n.selfAttach sub) ∧ SameDemand n (n.selfAttach sub) := by
  unfold selfAttach
  split <;> exact ⟨⟨rfl, rfl, rfl, rfl⟩, rfl, rfl, rfl⟩

theorem selfDetach_frame (n : Node) (fqn : Text) :
    Frame n (n.selfDetach fqn) ∧ SameDemand n (n.selfDetach fqn) ∧
      (n.selfDetach fqn).world = n.world := by
  unfold selfDetach
  split
  · exact ⟨⟨rfl, rfl, rfl, rfl⟩, ⟨rfl, rfl, rfl⟩, rfl⟩
  · refine ⟨⟨rfl, rfl, rfl, rfl⟩, ⟨rfl, ?_, rfl⟩, rfl⟩
    funext id name
    simp only [count, detachLocal, SubscriberRegistry.refcount_removeSubscriber]

/-- **A row of calls that has room**, on a node that will remember the live names once the row has
asked for them, and count them towards complete sessions. -/
theorem inv_subscribeAll (htable : n.table.WellFormed) (hnodup : n.knownPeers.Nodup)
    (hdistinct : ∀ id, ((n.remembered id).map RememberedDemand.fqn).Nodup)
    (hpositive : ∀ id fqn, n.count id fqn ≠ some 0) (hroom : Room n calls)
    (hremembers : ∀ id ∈ n.knownPeers, ∀ fqn,
      n.Remembers id fqn ∨ Asks calls id fqn ↔ n.table.anySubscriberFor fqn = true)
    (hunknown : ∀ id, id ∉ n.knownPeers → n.remembered id = [] ∧ ∀ c ∈ calls, c.1 ≠ id)
    (hcounted : ∀ id fqn, n.count id fqn ≠ none ∨ n.isComplete id ∧ Asks calls id fqn ↔
      (n.Remembers id fqn ∨ Asks calls id fqn) ∧ n.isComplete id) : Inv (n.subscribeAll calls) := by
  have hrow := demands_subscribeAll n calls
  refine ⟨?_, ?_, fun id hid fqn => ?_, fun id hid => ?_, fun id => hrow.distinct id (hdistinct id),
    fun id fqn => ?_, hrow.positive hroom hpositive⟩
  · rw [hrow.frame.table]
    exact htable
  · rw [hrow.frame.knownPeers]
    exact hnodup
  · rw [hrow.frame.knownPeers] at hid
    rw [hrow.remembers, hrow.frame.table, hremembers id hid]
  · rw [hrow.frame.knownPeers] at hid
    rw [hrow.untouched id (hunknown id hid).2, (hunknown id hid).1]
  · rw [hrow.counted, hrow.remembers, isComplete_congr hrow.frame.sessions, hcounted]

theorem Ledger.counted_asks (h : Ledger n) (id : NodeId) (fqn : Text) :
    n.count id fqn ≠ none ∨ n.isComplete id ∧ Asks calls id fqn ↔
      (n.Remembers id fqn ∨ Asks calls id fqn) ∧ n.isComplete id := by
  rw [h.counted, or_and_right]
  exact or_congr_right and_comm

theorem asks_map_iff {α : Type*} (xs : List α) (sub : α → Subscription) (id other : NodeId)
    (name : Text) :
    Asks (xs.map fun x => (id, sub x)) other name ↔ id = other ∧ ∃ x ∈ xs, (sub x).fqn = name := by
  constructor
  · rintro ⟨c, hc, hid, hname⟩
    obtain ⟨x, hx, rfl⟩ := mem_map.mp hc
    exact ⟨hid, x, hx, hname⟩
  · rintro ⟨hid, x, hx, hname⟩
    exact ⟨(id, sub x), mem_map.mpr ⟨x, hx, rfl⟩, hid, hname⟩

theorem Inv.register (h : Inv n) (hroom : Room n (n.knownPeers.map fun peer => (peer, sub))) :
    Inv (n.registerSubscriberSeam sub) := by
  -- the node after the table and the loopback have been seen to
  obtain ⟨m, hm, htable, hknown, hsame⟩ : ∃ m : Node,
      n.registerSubscriberSeam sub = m.subscribeAll (m.knownPeers.map fun peer => (peer, sub)) ∧
        m.table = n.table.enroll sub ∧ m.knownPeers = n.knownPeers ∧ SameDemand n m := by
    unfold registerSubscriberSeam
    dsimp only
    split
    · obtain ⟨hframe, hsame⟩ := selfAttach_frame { n with table := n.table.enroll sub } sub
      exact ⟨_, rfl, hframe.table, hframe.knownPeers, hsame.remembered, hsame.count, hsame.sessions⟩
    · exact ⟨_, rfl, rfl, rfl, rfl, rfl, rfl⟩
  have hledger := h.ledger.of_same hsame
  rw [hm, hknown]
  refine inv_subscribeAll ?_ (hknown ▸ h.nodup) hledger.distinct hledger.positive ?_ ?_ ?_
    hledger.counted_asks
  · rw [htable]
    exact h.table.enroll sub
  · simpa only [Room, hsame.count] using hroom
  · intro id hid name
    rw [hknown] at hid
    rw [htable, h.table.anySubscriberFor_enroll, remembers_congr hsame.remembered,
      h.remembers id hid]
    refine or_congr_right ⟨?_, fun hname => ?_⟩
    · rintro ⟨c, hc, _, hname⟩
      obtain ⟨peer, _, rfl⟩ := mem_map.mp hc
      exact hname
    · exact ⟨(id, sub), mem_map.mpr ⟨id, hid, rfl⟩, rfl, hname⟩
  · intro id hid
    rw [hknown] at hid
    rw [hsame.remembered]
    refine ⟨h.unknown id hid, fun c hc heq => ?_⟩
    obtain ⟨peer, hpeer, rfl⟩ := mem_map.mp hc
    exact hid (heq ▸ hpeer)

theorem mem_noteKnownPeer (n : Node) (id other : NodeId) :
    other ∈ (n.noteKnownPeer id).knownPeers ↔ other ∈ n.knownPeers ∨ other = id := by
  unfold noteKnownPeer
  split
  case isTrue h =>
    have hmem : id ∈ n.knownPeers := by simpa using h
    refine ⟨.inl, ?_⟩
    rintro (hold | rfl)
    · exact hold
    · exact hmem
  case isFalse => simp

theorem noteKnownPeer_same (n : Node) (id : NodeId) :
    (n.noteKnownPeer id).table = n.table ∧ SameDemand n (n.noteKnownPeer id) := by
  unfold noteKnownPeer
  split <;> exact ⟨rfl, rfl, rfl, rfl⟩

theorem nodup_noteKnownPeer (h : n.knownPeers.Nodup) (id : NodeId) :
    (n.noteKnownPeer id).knownPeers.Nodup := by
  unfold noteKnownPeer
  split
  case isTrue => exact h
  case isFalse hnot =>
    have hnotin : id ∉ n.knownPeers := by simpa using hnot
    rw [nodup_append]
    refine ⟨h, nodup_singleton id, fun a ha b hb heq => hnotin ?_⟩
    rw [← mem_singleton.mp hb, ← heq]
    exact ha

theorem Inv.announce (h : Inv n) (hidle : n.table.dispatchDepth = 0)
    (hroom : Room n (n.table.subscriptions.map fun e => (id, e.2))) :
    Inv ((n.noteKnownPeer id).fanDemandsTo id) := by
  obtain ⟨htable, hsame⟩ := noteKnownPeer_same n id
  have hledger := h.ledger.of_same hsame
  -- the row asks for the live names, all of them of one peer
  have hasks : ∀ other name, Asks (n.table.subscriptions.map fun e => (id, e.2)) other name ↔
      id = other ∧ n.table.anySubscriberFor name = true := by
    intro other name
    rw [h.table.anySubscriberFor_idle hidle]
    exact asks_map_iff n.table.subscriptions Prod.snd id other name
  rw [fanDemandsTo, htable]
  refine inv_subscribeAll (htable ▸ h.table) (nodup_noteKnownPeer h.nodup id) hledger.distinct
    hledger.positive ?_ ?_ ?_ hledger.counted_asks
  · simpa only [Room, hsame.count] using hroom
  · intro other hother name
    rw [htable, hasks, remembers_congr hsame.remembered]
    by_cases hknown : other ∈ n.knownPeers
    · rw [h.remembers other hknown]
      exact ⟨fun hor => hor.elim (fun hlive => hlive) And.right, .inl⟩
    -- a peer that has just become known: nothing was remembered
    rw [mem_noteKnownPeer] at hother
    obtain rfl := hother.resolve_left hknown
    simp [Remembers, h.unknown other hknown]
  · intro other hother
    rw [mem_noteKnownPeer, not_or] at hother
    rw [hsame.remembered]
    refine ⟨h.unknown other hother.1, fun c hc heq => ?_⟩
    obtain ⟨e, _, rfl⟩ := mem_map.mp hc
    exact hother.2 heq.symm

theorem engineSubscribe_of_remembers (sub : Subscription) (h : n.Remembers id sub.fqn) :
    n.engineSubscribe id sub = n.sessionSubscribe id sub := by
  have hnoop : n.rememberDemand id sub = n := by
    rw [rememberDemand, recordRemoteTopic_of_mem h]
  rw [engineSubscribe, hnoop]

theorem resubscribe_eq {ds : List RememberedDemand} (h : ∀ d ∈ ds, n.Remembers id d.fqn) :
    ds.foldl (fun n d => n.sessionSubscribe id ⟨d.fqn, d.qos, d.typeId⟩) n =
      n.subscribeAll (ds.map fun d => (id, ⟨d.fqn, d.qos, d.typeId⟩)) := by
  induction ds generalizing n with
  | nil => rfl
  | cons d ds ih =>
    have hfirst := engineSubscribe_of_remembers ⟨d.fqn, d.qos, d.typeId⟩ (h d mem_cons_self)
    have hrest := ih (n := n.sessionSubscribe id ⟨d.fqn, d.qos, d.typeId⟩) fun e he => by
      rw [← hfirst, remembers_engineSubscribe]
      exact .inl (h e (mem_cons_of_mem _ he))
    rw [foldl_cons, hrest, map_cons, subscribeAll, subscribeAll, foldl_cons, hfirst]

/-- Every name is remembered once and nothing is counted, so every count ends at one. -/
theorem room_resubscribe {ds : List RememberedDemand}
    (hdistinct : (ds.map RememberedDemand.fqn).Nodup) (hfresh : ∀ fqn, n.count id fqn = none) :
    Room n (ds.map fun d => (id, ⟨d.fqn, d.qos, d.typeId⟩)) := by
  intro c hc
  obtain ⟨d, hd, rfl⟩ := mem_map.mp hc
  have hone : (ds.map fun d => ((id, ⟨d.fqn, d.qos, d.typeId⟩) : NodeId × Subscription)).countP
      (samePair (id, ⟨d.fqn, d.qos, d.typeId⟩)) ≤ 1 := by
    have hle := List.nodup_iff_count_le_one.mp hdistinct d.fqn
    rw [List.count, List.countP_map] at hle
    rw [List.countP_map]
    refine le_trans (List.countP_mono_left fun e _ he => ?_) hle
    simpa [samePair] using he
  simp only [hfresh, Option.getD_none, UInt32.toNat_zero]
  omega

theorem Inv.complete (h : Inv n) (id : NodeId) (channel : Channel) :
    Inv (n.onComplete id channel) := by
  unfold onComplete
  cases hsession : n.sessions id with
  | some _ => exact h
  | none =>
    let m : Node := { n with sessions := Function.update n.sessions id (some channel) }
    let calls : List (NodeId × Subscription) :=
      (n.remembered id).map fun d => (id, ⟨d.fqn, d.qos, d.typeId⟩)
    have hfresh : ∀ fqn, n.count id fqn = none := fun fqn => by
      have := (h.ledger.counted id fqn).not
      simpa [isComplete, hsession] using this
    have hrow : (n.remembered id).foldl
        (fun n d => n.sessionSubscribe id ⟨d.fqn, d.qos, d.typeId⟩) m = m.subscribeAll calls :=
      resubscribe_eq fun d hd => ⟨d, hd, rfl⟩
    have hasks : ∀ other name, Asks calls other name ↔ id = other ∧ n.Remembers id name :=
      asks_map_iff (n.remembered id) (fun d => ⟨d.fqn, d.qos, d.typeId⟩) id
    -- the row asks for nothing that was not remembered
    have hremembers : ∀ other name, m.Remembers other name ∨ Asks calls other name ↔
        n.Remembers other name := by
      intro other name
      rw [hasks]
      refine ⟨?_, .inl⟩
      rintro (hold | ⟨rfl, hold⟩)
      · exact hold
      · exact hold
    show Inv ((n.remembered id).foldl _ m)
    rw [hrow]
    refine inv_subscribeAll h.table h.nodup h.ledger.distinct h.ledger.positive
      (room_resubscribe (h.ledger.distinct id) hfresh) ?_ ?_ ?_
    · intro other hother name
      rw [hremembers]
      exact h.remembers other hother name
    · refine fun other hother => ⟨h.unknown other hother, fun c hc heq => ?_⟩
      obtain ⟨d, hd, rfl⟩ := mem_map.mp hc
      subst heq
      rw [h.unknown id hother] at hd
      exact absurd hd not_mem_nil
    · intro other name
      have hcount : m.count other name ≠ none ↔ n.Remembers other name ∧ n.isComplete other :=
        h.ledger.counted other name
      rw [hremembers, hcount, hasks]
      rcases eq_or_ne other id with rfl | hne
      · simp [m, isComplete, hsession]
      · simp [m, isComplete, hne, Ne.symm hne]

theorem count_tearDown {channel : Channel} (h : n.sessions id = some channel) (other : NodeId)
    (name : Text) :
    (n.tearDown id).count other name = if other = id then none else n.count other name := by
  simp only [tearDown, h, count, detachAll, SubscriberRegistry.removePeer, KeyedRefcount.forget]
  rcases eq_or_ne other id with rfl | hne
  · simp
  · have hname : nodeNameOf other ≠ nodeNameOf id := fun heq => hne (nodeNameOf_injective heq)
    simp [hne, Function.update_of_ne hname]

theorem Inv.tearDown (h : Inv n) (id : NodeId) : Inv (n.tearDown id) := by
  cases hsession : n.sessions id with
  | none =>
    have hnoop : n.tearDown id = n := by simp only [Node.tearDown, hsession]
    rwa [hnoop]
  | some channel =>
    have hcount := count_tearDown hsession
    have hcomplete : ∀ other, (n.tearDown id).isComplete other =
        (decide (other ≠ id) && n.isComplete other) := by
      intro other
      simp only [Node.tearDown, hsession, isComplete]
      rcases eq_or_ne other id with rfl | hne
      · simp
      · simp [hne]
    have hrest : (n.tearDown id).table = n.table ∧
        (n.tearDown id).knownPeers = n.knownPeers ∧
        (n.tearDown id).remembered = n.remembered := by
      unfold Node.tearDown
      rw [hsession]
      exact ⟨rfl, rfl, rfl⟩
    obtain ⟨htable, hknown, hremembered⟩ := hrest
    have hremembers := remembers_congr hremembered
    refine ⟨by rw [htable]; exact h.table, by rw [hknown]; exact h.nodup, ?_, ?_, ?_, ?_, ?_⟩
    · rw [hknown, hremembers, htable]
      exact h.remembers
    · rw [hknown, hremembered]
      exact h.unknown
    · rw [hremembered]
      exact h.ledger.distinct
    · intro other name
      rw [hcount, hremembers, hcomplete]
      rcases eq_or_ne other id with rfl | hne
      · simp
      · simpa [hne] using h.ledger.counted other name
    · intro other name
      rw [hcount]
      split
      · simp
      · exact h.ledger.positive other name

/-! ## Retiring -/

/-- A handle that goes while its name stays live, or any edit of the table that leaves every name as
it is. -/
theorem Inv.of_table (h : Inv n) {t : SubscriptionTable} (ht : t.WellFormed)
    (hlive : ∀ name, t.anySubscriberFor name = true ↔ n.table.anySubscriberFor name = true) :
    Inv { n with table := t } :=
  ⟨ht, h.nodup, fun id hid name => (h.remembers id hid name).trans (hlive name).symm, h.unknown,
    h.ledger.distinct, h.ledger.counted, h.ledger.positive⟩

/-- The name whose last handle `rid` is. -/
def lastOf (n : Node) (rid : Nat) : Option Text :=
  match n.table.withdraw rid with
  | none => none
  | some (fqn, table) => if table.anySubscriberFor fqn then none else some fqn

/-- Every known peer with a complete session counts the name exactly once. -/
def CountedOnce (n : Node) (fqn : Text) : Prop :=
  ∀ id ∈ n.knownPeers, n.isComplete id → n.count id fqn = some 1

-- over the list: node ids are a finite type, and a search through all of them would not end
instance (n : Node) (fqn : Text) : Decidable (CountedOnce n fqn) :=
  decidableBAll (fun id => n.isComplete id → n.count id fqn = some 1) n.knownPeers

theorem withdraws_retireFqnDemand (hnodup : n.knownPeers.Nodup) (hone : CountedOnce n fqn) :
    Withdraws n.knownPeers fqn n (n.retireFqnDemand fqn) := by
  obtain ⟨hframe, hsame, hworld⟩ := selfDetach_frame n fqn
  have hcomplete := isComplete_congr hsame.sessions
  have hone' : ∀ id ∈ n.knownPeers, (n.selfDetach fqn).isComplete id →
      (n.selfDetach fqn).count id fqn = some 1 := by
    rw [hcomplete, hsame.count]
    exact hone
  have hrow := withdraws_foldl hnodup hone'
  have hretire : n.retireFqnDemand fqn =
      n.knownPeers.foldl (fun n id => n.engineUnsubscribe id fqn) (n.selfDetach fqn) := by
    rw [retireFqnDemand, hframe.knownPeers]
  rw [hretire]
  refine ⟨hframe.trans hrow.frame, fun id => ?_, fun id name => ?_, ?_⟩
  · rw [hrow.remembered, hsame.remembered]
  · rw [hrow.count, hcomplete, hsame.count]
  · have hsent := hrow.sent
    rwa [Unsubscribed, hsame.sessions, hworld] at hsent

theorem Inv.retire_last (h : Inv n) {t : SubscriptionTable} {rid : Nat}
    (hw : n.table.withdraw rid = some (fqn, t)) (hlast : t.anySubscriberFor fqn = false)
    (hone : CountedOnce n fqn) :
    let n' := Node.retireFqnDemand { n with table := t } fqn
    Inv n' ∧ Unsubscribed (n.knownPeers.filterMap n.sessions) fqn n n' := by
  intro n'
  obtain ⟨ht, _, _, hothers⟩ := h.table.withdraw hw
  have hrow := withdraws_retireFqnDemand (n := { n with table := t }) h.nodup hone
  have hremembers : ∀ id name, n'.Remembers id name ↔
      n.Remembers id name ∧ ¬ (id ∈ n.knownPeers ∧ name = fqn) := hrow.remembers
  have hcomplete : n'.isComplete = n.isComplete :=
    isComplete_congr hrow.frame.sessions
  refine ⟨⟨?_, ?_, fun id hid name => ?_, fun id hid => ?_, fun id => ?_, fun id name => ?_,
    fun id name => ?_⟩, hrow.sent⟩
  · rw [hrow.frame.table]
    exact ht
  · rw [hrow.frame.knownPeers]
    exact h.nodup
  · rw [hrow.frame.knownPeers] at hid
    rw [hremembers, hrow.frame.table]
    rcases eq_or_ne name fqn with rfl | hne
    · simp [hlast, show id ∈ n.knownPeers from hid]
    · simp only [hne, and_false, not_false_eq_true, and_true]
      exact (h.remembers id hid name).trans (hothers name hne).symm
  · rw [hrow.frame.knownPeers] at hid
    rw [hrow.remembered, if_neg hid]
    exact h.unknown id hid
  · rw [hrow.remembered]
    split
    · exact (filter_sublist.map _).nodup (h.ledger.distinct id)
    · exact h.ledger.distinct id
  · rw [hremembers, hcomplete, hrow.count]
    split
    case isTrue hgone =>
      simp [show id ∈ n.knownPeers from hgone.2.1, hgone.2.2]
    case isFalse hkept =>
      refine (h.ledger.counted id name).trans ⟨fun hc => ⟨⟨hc.1, ?_⟩, hc.2⟩, fun hc => ⟨hc.1.1, hc.2⟩⟩
      exact fun hgone => hkept ⟨hc.2, hgone.1, hgone.2⟩
  · rw [hrow.count]
    split
    · simp
    · exact h.ledger.positive id name

/-! ## Runs -/

/-- **Balance**: towards a known peer with a complete session, a name is counted exactly while it is
live. -/
def Balanced (n : Node) : Prop :=
  ∀ id ∈ n.knownPeers, n.isComplete id → ∀ fqn,
    ((n.count id fqn).getD 0 ≠ 0 ↔ n.table.anySubscriberFor fqn = true)

/-- The event leaves the node balanced, and a last retirement sends exactly one unsubscribe to each
known peer with a complete session. -/
structure Keeps (n : Node) (e : NodeEvent) : Prop where
  balanced : Balanced (n.step e)
  sent : ∀ rid, e = .retire rid → ∀ fqn ∈ n.lastOf rid,
    Unsubscribed (n.knownPeers.filterMap n.sessions) fqn n (n.step e)

/-- **One bump for one drop**: a last retirement finds every complete peer's refcount at one; no
refcount overflows, and no announcement comes in the middle of a dispatch. -/
def Single (n : Node) : NodeEvent → Prop
  | .register sub => Room n (n.knownPeers.map fun peer => (peer, sub))
  | .retire rid => ∀ fqn ∈ n.lastOf rid, CountedOnce n fqn
  | .card id => id ≠ n.id → n.table.dispatchDepth = 0 ∧
      Room n (n.table.subscriptions.map fun e => (id, e.2))
  | .ready id => n.table.dispatchDepth = 0 ∧
      Room n (n.table.subscriptions.map fun e => (id, e.2))
  | _ => True

instance (n : Node) : (e : NodeEvent) → Decidable (Single n e)
  | .register sub => inferInstanceAs (Decidable (Room n (n.knownPeers.map fun peer => (peer, sub))))
  | .retire rid => inferInstanceAs (Decidable (∀ fqn ∈ n.lastOf rid, CountedOnce n fqn))
  | .card id => inferInstanceAs (Decidable (id ≠ n.id → _ ∧ _))
  | .ready _ => inferInstanceAs (Decidable (_ ∧ _))
  | .complete _ _ => isTrue trivial
  | .tearDown _ => isTrue trivial
  | .beginDispatch => isTrue trivial
  | .endDispatch => isTrue trivial

theorem Inv.balanced (h : Inv n) : Balanced n := by
  intro id hid hc fqn
  rw [← h.remembers id hid fqn]
  have hcounted := h.ledger.counted id fqn
  have hpositive := h.ledger.positive id fqn
  cases hcount : n.count id fqn with
  | none =>
    rw [hcount] at hcounted
    simpa [hc] using hcounted
  | some v =>
    rw [hcount] at hcounted hpositive
    have hv : v ≠ 0 := fun hzero => hpositive (by rw [hzero])
    simpa [hc, hv] using hcounted

theorem Inv.retire (h : Inv n) {rid : Nat} (hone : Single n (.retire rid)) :
    Inv (n.retireSubscriberSeam rid) ∧ ∀ fqn ∈ n.lastOf rid,
      Unsubscribed (n.knownPeers.filterMap n.sessions) fqn n (n.retireSubscriberSeam rid) := by
  simp only [Single, lastOf] at hone
  unfold retireSubscriberSeam lastOf
  cases hw : n.table.withdraw rid with
  | none => exact ⟨h, fun _ hmem => nomatch hmem⟩
  | some entry =>
    obtain ⟨fqn, t⟩ := entry
    obtain ⟨ht, _, hlive, hothers⟩ := h.table.withdraw hw
    simp only [hw] at hone ⊢
    cases hlast : t.anySubscriberFor fqn with
    | true =>
      refine ⟨h.of_table ht fun name => ?_, fun _ hmem => nomatch hmem⟩
      rcases eq_or_ne name fqn with rfl | hne
      · rw [hlast, hlive]
      · exact hothers name hne
    | false =>
      have hfound := hone fqn (by simp [hlast])
      obtain ⟨hinv, hsent⟩ := h.retire_last hw hlast hfound
      refine ⟨hinv, fun name hname => ?_⟩
      obtain rfl : fqn = name := by simpa using hname
      exact hsent

theorem Inv.step (h : Inv n) {e : NodeEvent} (hok : Single n e) : Inv (n.step e) := by
  cases e with
  | register sub => exact h.register hok
  | retire rid => exact (h.retire hok).1
  | card id =>
    simp only [Node.step, noteFromCard]
    split
    · exact h
    case isFalse hother => exact h.announce (hok hother).1 (hok hother).2
  | ready id => exact h.announce hok.1 hok.2
  | complete id channel => exact h.complete id channel
  | tearDown id => exact h.tearDown id
  | beginDispatch => exact h.of_table h.table.beginDispatch fun _ => .rfl
  | endDispatch =>
    exact h.of_table h.table.endDispatch fun name => by
      rw [SubscriptionTable.anySubscriberFor_endDispatch]

/-- A node that has just been built. -/
structure Fresh (n : Node) : Prop where
  table : n.table = {}
  knownPeers : n.knownPeers = []
  remembered : ∀ id, n.remembered id = []
  count : ∀ id fqn, n.count id fqn = none

theorem Fresh.inv (h : Fresh n) : Inv n where
  table := by rw [h.table]; exact SubscriptionTable.wellFormed_empty
  nodup := by simp [h.knownPeers]
  remembers := by simp [h.knownPeers]
  unknown := fun id _ => h.remembered id
  ledger := ⟨by simp [h.remembered], by simp [h.count, Remembers, h.remembered], by simp [h.count]⟩

/-- **Node demand is balanced** along every run, from a node that has just been built, in which each
event meets `Single`: however handles, announcements, completions, teardowns and dispatches are
interleaved, every event leaves the node balanced and every last retirement sends its
unsubscribes. -/
theorem demand_balanced_of_single {n : Node} (hfresh : Fresh n) {es : List NodeEvent}
    (hes : Guarded Node.step Single n es) : Guarded Node.step Keeps n es := by
  refine hes.of_invariant Inv (fun n e h hok => ?_) hfresh.inv
  refine ⟨h.step hok, (h.step hok).balanced, ?_⟩
  rintro rid rfl
  exact (h.retire hok).2

/-! ## Two handles on one name -/

/-- The peer of the runs below. -/
def somePeer : NodeId := Vector.replicate 16 1

def someChannel : Channel := { key := 1, scheme := [0x74, 0x63, 0x70], polls := true, lowWater := 0 }

def loneNode : Node := { id := Vector.replicate 16 0 }

theorem fresh_loneNode : Fresh loneNode := ⟨rfl, rfl, fun _ => rfl, fun _ _ => rfl⟩

/-- One handle on `a` at a time, and a peer that is announced while there is none. -/
def oneHandle : List NodeEvent :=
  [.card somePeer, .complete somePeer someChannel, .ready somePeer, .register ⟨[0x61], {}, none⟩,
    .beginDispatch, .register ⟨[0x62], {}, none⟩, .retire 1, .endDispatch]

theorem demand_balanced_of_single_handle :
    Guarded Node.step Single loneNode oneHandle ∧ Guarded Node.step Keeps loneNode oneHandle := by
  have hsingle : Guarded .step Single loneNode oneHandle := by decide +kernel
  exact ⟨hsingle, demand_balanced_of_single fresh_loneNode hsingle⟩

/-- Two handles on `a`, both retired. -/
def twoHandles : List NodeEvent :=
  [.card somePeer, .complete somePeer someChannel, .register ⟨[0x61], {}, none⟩,
    .register ⟨[0x61], {}, none⟩, .retire 1, .retire 2]

/-- No handle is left, the peer's refcount stays at one, and nothing has been unsubscribed. -/
theorem second_handle_unbalances :
    ¬ Guarded Node.step Keeps loneNode twoHandles ∧
      ∃ n, twoHandles.foldl Node.step loneNode = n ∧ somePeer ∈ n.knownPeers ∧
        n.isComplete somePeer = true ∧ n.table.anySubscriberFor [0x61] = false ∧
        n.count somePeer [0x61] = some 1 ∧
        (n.world.sent.filter fun e => (unsubscribeIn e.2).isSome) = [] := by
  refine ⟨?_, _, rfl, by decide +kernel, by decide +kernel, by decide +kernel, by decide +kernel,
    by decide +kernel⟩
  rintro ⟨_, _, _, _, _, hlast, _⟩
  have hlive := (hlast.balanced somePeer (by decide +kernel) (by decide +kernel) [0x61]).mp
    (by decide +kernel)
  exact absurd hlive (by decide +kernel)

end Node

end Plexus.Api
