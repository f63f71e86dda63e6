/-
# Plexus.Io.SubscriberRegistry — who is subscribed to what, and how often.

`io/detail/keyed_refcount.h`, `io/detail/subscriber_dispatch.h`, `io/subscriber_registry.h`. Topics
are keyed by the 64-bit hash of their name, refcounts by (node, topic). A topic's record is never
erased, so the memo of `fqn_for` is the plain lookup. The maps are functions: "every other key is
untouched" is a fact about `Function.update`, which the frame lemmas say once for every operation.
-/
import Plexus.Io.EgressScheduler

namespace Plexus.Io

open Wire Function

/-! ## `io/detail/keyed_refcount.h` -/

/-- A pair without an entry is `none`; the count is 32 bits wide and wraps. -/
structure KeyedRefcount where
  counts : Text → Text → Option UInt32 := fun _ _ => none

namespace KeyedRefcount

def kNoEntry : UInt32 := 0xFFFFFFFF

variable (c : KeyedRefcount)

def set (k1 k2 : Text) (v : Option UInt32) : KeyedRefcount :=
  { counts := update c.counts k1 (update (c.counts k1) k2 v) }

def bump (k1 k2 : Text) : UInt32 × KeyedRefcount :=
  let v := (c.counts k1 k2).getD 0 + 1
  (v, c.set k1 k2 (some v))

def drop (k1 k2 : Text) : UInt32 × KeyedRefcount :=
  match c.counts k1 k2 with
  | none => (kNoEntry, c)
  | some v =>
    let remaining := v - 1
    (remaining, c.set k1 k2 (if remaining = 0 then none else some remaining))

def forget (k1 : Text) : KeyedRefcount :=
  { counts := update c.counts k1 (fun _ => none) }

variable (c : KeyedRefcount)

@[simp] theorem counts_set_self (k1 k2 : Text) (v : Option UInt32) :
    (c.set k1 k2 v).counts k1 k2 = v := by
  simp [set]

theorem counts_set_of_ne {k1 k2 j1 j2 : Text} (v : Option UInt32) (h : (j1, j2) ≠ (k1, k2)) :
    (c.set k1 k2 v).counts j1 j2 = c.counts j1 j2 := by
  rcases eq_or_ne j1 k1 with rfl | h1
  · have h2 : j2 ≠ k2 := by
      rintro rfl
      exact h rfl
    simp [set, update_of_ne h2]
  · simp [set, update_of_ne h1]

theorem counts_bump_of_ne {k1 k2 j1 j2 : Text} (h : (j1, j2) ≠ (k1, k2)) :
    (c.bump k1 k2).2.counts j1 j2 = c.counts j1 j2 :=
  counts_set_of_ne c _ h

theorem counts_drop_of_ne {k1 k2 j1 j2 : Text} (h : (j1, j2) ≠ (k1, k2)) :
    (c.drop k1 k2).2.counts j1 j2 = c.counts j1 j2 := by
  unfold drop
  split
  · rfl
  · exact counts_set_of_ne c _ h

theorem counts_bump (k1 k2 j2 : Text) :
    (c.bump k1 k2).2.counts k1 j2 =
      if j2 = k2 then some ((c.counts k1 k2).getD 0 + 1) else c.counts k1 j2 := by
  split
  case isTrue h => simp [bump, h]
  case isFalse h => exact counts_bump_of_ne c fun heq => h (Prod.mk.inj heq).2

theorem counts_drop (k1 k2 j2 : Text) :
    (c.drop k1 k2).2.counts k1 j2 =
      if j2 = k2 then (c.counts k1 k2).bind (fun v => if v - 1 = 0 then none else some (v - 1))
      else c.counts k1 j2 := by
  split
  case isTrue h =>
    subst h
    unfold drop
    cases hv : c.counts k1 j2 with
    | none => exact hv
    | some v => simp
  case isFalse h => exact counts_drop_of_ne c fun heq => h (Prod.mk.inj heq).2

theorem bump_eq_one_iff (k1 k2 : Text) : (c.bump k1 k2).1 = 1 ↔ (c.counts k1 k2).getD 0 = 0 := by
  unfold bump
  constructor
  · intro h
    grind
  · intro h
    rw [h]
    rfl

theorem sub_one_eq_zero_iff {v : UInt32} : v - 1 = 0 ↔ v = 1 := by
  constructor
  · grind
  · rintro rfl
    rfl

theorem drop_eq_zero_iff (k1 k2 : Text) : (c.drop k1 k2).1 = 0 ↔ c.counts k1 k2 = some 1 := by
  unfold drop
  cases c.counts k1 k2 with
  | none => simp [kNoEntry]
  | some v => simp only [Option.some.injEq, sub_one_eq_zero_iff]

theorem bumped_ne_zero {c : Option UInt32} (h : c ≠ some 0xFFFFFFFF) : c.getD 0 + 1 ≠ 0 := by
  cases c with
  | none => decide
  | some v =>
    intro hzero
    have hv : v = 0xFFFFFFFF := by
      grind
    exact h (by rw [hv])

theorem counts_bump_ne_zero {c : KeyedRefcount} {k1 k2 : Text}
    (h : ∀ j2, c.counts k1 j2 ≠ some 0) (hroom : c.counts k1 k2 ≠ some 0xFFFFFFFF) (j2 : Text) :
    (c.bump k1 k2).2.counts k1 j2 ≠ some 0 := by
  rw [counts_bump]
  split
  · intro hzero
    exact bumped_ne_zero hroom (Option.some.inj hzero)
  · exact h j2

theorem counts_drop_ne_zero {c : KeyedRefcount} {k1 : Text} (h : ∀ j2, c.counts k1 j2 ≠ some 0)
    (k2 j2 : Text) : (c.drop k1 k2).2.counts k1 j2 ≠ some 0 := by
  rw [counts_drop]
  split
  · intro hzero
    obtain ⟨v, _, hv⟩ := Option.bind_eq_some_iff.mp hzero
    split at hv
    · cases hv
    case isFalse hne => exact hne (Option.some.inj hv)
  · exact h j2

theorem dropped_eq_none_iff {c : Option UInt32} (h : c ≠ some 1) :
    (c.bind fun v => if v - 1 = 0 then none else some (v - 1)) = none ↔ c = none := by
  cases c with
  | none => simp
  | some v =>
    have hv : v - 1 ≠ 0 := by
      rw [Ne, sub_one_eq_zero_iff]
      rintro rfl
      exact h rfl
    simp [hv]

end KeyedRefcount

/-! ## `io/detail/subscriber_dispatch.h` -/

structure RegistrySubscriber where
  tier : Locality
  nodeName : Text
  subQos : SubscriberQos
  typeId : Option UInt64
  channel : Channel
  deriving DecidableEq

/-- `registry_topic_entry`, without the type name and the schema hint that nothing here reads. -/
structure TopicEntry where
  qos : TopicQos := {}
  fqn : Text := []
  emitSourceIdentity : Bool := false
  anySubscriberWantsInfo : Bool := true
  producerTypeId : Option UInt64 := none
  endpointCounter : Option UInt64 := none
  subscribers : List RegistrySubscriber := []
  drops : Fin kEgressBands → DropCause → Nat := fun _ _ => 0

namespace TopicEntry

def recomputeWantsInfo (e : TopicEntry) : TopicEntry :=
  { e with
    anySubscriberWantsInfo :=
      if e.subscribers.isEmpty then true
      else e.subscribers.any (fun s => s.subQos.wantsMessageInfo) }

/-- The subscriber entry of a channel is looked up by the channel's identity. -/
def subscribed (e : TopicEntry) (ch : Channel) : Bool :=
  e.subscribers.any (fun s => s.channel.key = ch.key)

/-- The body of `add_topic_subscriber`: the first name given to the record stays, and a channel is
entered once. -/
def addSubscriber (e : TopicEntry) (fqn : Text) (ch : Channel) (nodeName : Text)
    (qos : SubscriberQos) (typeId : Option UInt64) : TopicEntry :=
  let e := if e.fqn.isEmpty then { e with fqn } else e
  if e.subscribed ch then e
  else
    recomputeWantsInfo
      { e with
        subscribers := e.subscribers ++
          [{ tier := Locality.tierOf ch.scheme, nodeName, subQos := qos, typeId, channel := ch }] }

def removeSubscriber (e : TopicEntry) (ch : Channel) : TopicEntry :=
  recomputeWantsInfo
    { e with subscribers := e.subscribers.filter (fun s => s.channel.key ≠ ch.key) }

variable (e : TopicEntry)

section

variable (fqn : Text) (ch : Channel) (nodeName : Text) (qos : SubscriberQos)
  (typeId : Option UInt64)

theorem subscribers_addSubscriber :
    (e.addSubscriber fqn ch nodeName qos typeId).subscribers =
      if e.subscribed ch then e.subscribers
      else e.subscribers ++
        [{ tier := Locality.tierOf ch.scheme, nodeName, subQos := qos, typeId, channel := ch }] := by
  unfold addSubscriber subscribed recomputeWantsInfo
  by_cases hname : e.fqn.isEmpty
  · simp only [hname, if_true, apply_ite TopicEntry.subscribers]
  · simp only [hname, Bool.false_eq_true, if_false, apply_ite TopicEntry.subscribers]

/-- After an addition the channel is in the fan-out list, and no other channel's place in it has
changed. -/
theorem subscribed_addSubscriber (other : Channel) :
    (e.addSubscriber fqn ch nodeName qos typeId).subscribed other =
      (e.subscribed other || decide (ch.key = other.key)) := by
  rw [subscribed, subscribers_addSubscriber]
  by_cases hthere : e.subscribed ch
  · rw [if_pos hthere]
    by_cases hkey : ch.key = other.key
    · have : e.subscribed other = e.subscribed ch := by simp only [subscribed, hkey]
      simp only [hkey, decide_true, Bool.or_true]
      rw [← hthere, ← this]
      rfl
    · simp [subscribed, hkey]
  · rw [if_neg hthere]
    simp [subscribed]

theorem offer_addSubscriber :
    let e' := e.addSubscriber fqn ch nodeName qos typeId
    e'.qos = e.qos ∧ e'.producerTypeId = e.producerTypeId ∧
      e'.emitSourceIdentity = e.emitSourceIdentity := by
  unfold addSubscriber recomputeWantsInfo
  by_cases hname : e.fqn.isEmpty
  · simp only [hname, if_true]
    split <;> exact ⟨rfl, rfl, rfl⟩
  · simp only [hname, Bool.false_eq_true, if_false]
    split <;> exact ⟨rfl, rfl, rfl⟩

end

/-- `bump_band_drop`. -/
def bumpBandDrop (e : TopicEntry) (band : Fin kEgressBands) (cause : DropCause) : TopicEntry :=
  { e with
    drops := update e.drops band (update (e.drops band) cause (e.drops band cause + 1)) }

end TopicEntry

/-! ## `io/subscriber_registry.h` -/

/-- Who is subscribed to what, and how often. -/
structure SubscriberRegistry where
  topics : UInt64 → Option TopicEntry := fun _ => none
  refcount : KeyedRefcount := {}
  nextEndpointCounter : UInt64 := 1

namespace SubscriberRegistry

variable (r : SubscriberRegistry)

/-- `m_topics[hash]`: the record, minted when it is missing. -/
def entryAt (hash : UInt64) : TopicEntry := (r.topics hash).getD {}

def setEntry (hash : UInt64) (e : TopicEntry) : SubscriberRegistry :=
  { r with topics := update r.topics hash (some e) }

def bumpRefcount (nodeName fqn : Text) : UInt32 × SubscriberRegistry :=
  let (v, refcount) := r.refcount.bump nodeName fqn
  (v, { r with refcount })

def dropRefcount (nodeName fqn : Text) : UInt32 × SubscriberRegistry :=
  let (v, refcount) := r.refcount.drop nodeName fqn
  (v, { r with refcount })

def addSubscriber (r : SubscriberRegistry) (hash : UInt64) (fqn : Text) (ch : Channel)
    (nodeName : Text) (qos : SubscriberQos) (typeId : Option UInt64) : SubscriberRegistry :=
  r.setEntry hash ((r.entryAt hash).addSubscriber fqn ch nodeName qos typeId)

def removeSubscriber (r : SubscriberRegistry) (hash : UInt64) (ch : Channel) : SubscriberRegistry :=
  match r.topics hash with
  | none => r
  | some e => r.setEntry hash (e.removeSubscriber ch)

def removePeer (nodeName : Text) (ch : Channel) : SubscriberRegistry :=
  { r with
    topics := fun hash => (r.topics hash).map (·.removeSubscriber ch)
    refcount := r.refcount.forget nodeName }

def qosForSubscriber (hash : UInt64) (ch : Channel) : SubscriberQos :=
  match (r.entryAt hash).subscribers.find? (fun s => s.channel.key = ch.key) with
  | none => {}
  | some s => s.subQos

/-- `declare`: the endpoint counter is minted once and kept by a re-declaration. -/
def declare (hash : UInt64) (fqn : Text) (qos : TopicQos) (producerTypeId : Option UInt64)
    (emitSourceIdentity : Bool) : SubscriberRegistry :=
  let e := r.entryAt hash
  let e := if e.fqn.isEmpty then { e with fqn } else e
  let e := { e with qos, producerTypeId, emitSourceIdentity }
  if emitSourceIdentity && e.endpointCounter.isNone then
    { r.setEntry hash { e with endpointCounter := some r.nextEndpointCounter } with
      nextEndpointCounter := r.nextEndpointCounter + 1 }
  else r.setEntry hash e

def qosFor (hash : UInt64) : TopicQos :=
  match r.topics hash with
  | none => {}
  | some e => e.qos

def producerTypeId (r : SubscriberRegistry) (hash : UInt64) : Option UInt64 :=
  (r.topics hash).bind (·.producerTypeId)

def offersSourceIdentity (hash : UInt64) : Bool :=
  match r.topics hash with
  | none => false
  | some e => e.emitSourceIdentity

def recordDrop (hash : UInt64) (band : Fin kEgressBands) (cause : DropCause) : SubscriberRegistry :=
  if cause = .none then r
  else
    match r.topics hash with
    | none => r
    | some e => r.setEntry hash (e.bumpBandDrop band cause)

/-- `fqn_for`; an unknown hash gives the empty name. -/
def fqnFor (hash : UInt64) : Text :=
  match r.topics hash with
  | none => []
  | some e => e.fqn

/-- The fan-out list of a topic. -/
def subscribersOf (hash : UInt64) : List RegistrySubscriber :=
  (r.entryAt hash).subscribers

/-! ### Frame lemmas -/

variable (r : SubscriberRegistry)

@[simp] theorem topics_setEntry_self (hash : UInt64) (e : TopicEntry) :
    (r.setEntry hash e).topics hash = some e := by
  simp [setEntry]

theorem topics_setEntry_of_ne {hash other : UInt64} (e : TopicEntry) (h : other ≠ hash) :
    (r.setEntry hash e).topics other = r.topics other := by
  simp [setEntry, update_of_ne h]

theorem topics_removeSubscriber_of_ne {hash other : UInt64} (ch : Channel) (h : other ≠ hash) :
    (r.removeSubscriber hash ch).topics other = r.topics other := by
  unfold removeSubscriber
  split
  · rfl
  · exact r.topics_setEntry_of_ne _ h

theorem entryAt_addSubscriber (hash other : UInt64) (fqn : Text) (ch : Channel) (nodeName : Text)
    (qos : SubscriberQos) (typeId : Option UInt64) :
    (r.addSubscriber hash fqn ch nodeName qos typeId).entryAt other =
      if other = hash then (r.entryAt hash).addSubscriber fqn ch nodeName qos typeId
      else r.entryAt other := by
  unfold addSubscriber
  split
  case isTrue h => simp [entryAt, h]
  case isFalse h => simp [entryAt, topics_setEntry_of_ne _ _ h]

section

variable (hash : UInt64)
include hash

theorem qosFor_eq : r.qosFor hash = (r.entryAt hash).qos := by
  unfold qosFor entryAt
  cases r.topics hash <;> rfl

theorem producerTypeId_eq : r.producerTypeId hash = (r.entryAt hash).producerTypeId := by
  unfold producerTypeId entryAt
  cases r.topics hash <;> rfl

theorem offersSourceIdentity_eq :
    r.offersSourceIdentity hash = (r.entryAt hash).emitSourceIdentity := by
  unfold offersSourceIdentity entryAt
  cases r.topics hash <;> rfl

@[simp] theorem refcount_setEntry (e : TopicEntry) : (r.setEntry hash e).refcount = r.refcount := rfl

@[simp] theorem refcount_addSubscriber (fqn : Text) (ch : Channel) (nodeName : Text)
    (qos : SubscriberQos) (typeId : Option UInt64) :
    (r.addSubscriber hash fqn ch nodeName qos typeId).refcount = r.refcount := rfl

end

@[simp] theorem refcount_bumpRefcount (nodeName fqn : Text) :
    (r.bumpRefcount nodeName fqn).2.refcount = (r.refcount.bump nodeName fqn).2 := rfl

@[simp] theorem refcount_dropRefcount (nodeName fqn : Text) :
    (r.dropRefcount nodeName fqn).2.refcount = (r.refcount.drop nodeName fqn).2 := rfl

@[simp] theorem refcount_removeSubscriber (hash : UInt64) (ch : Channel) :
    (r.removeSubscriber hash ch).refcount = r.refcount := by
  unfold removeSubscriber
  split <;> rfl

@[simp] theorem subscribersOf_removeSubscriber (hash : UInt64) (ch : Channel) :
    (r.removeSubscriber hash ch).subscribersOf hash =
      (r.subscribersOf hash).filter (fun s => s.channel.key ≠ ch.key) := by
  unfold removeSubscriber subscribersOf entryAt
  cases htopic : r.topics hash with
  | none => simp [htopic]
  | some e => simp [TopicEntry.removeSubscriber, TopicEntry.recomputeWantsInfo]

@[simp] theorem subscribersOf_declare (hash other : UInt64) (fqn : Text) (qos : TopicQos)
    (producerTypeId : Option UInt64) (emitSourceIdentity : Bool) :
    (r.declare hash fqn qos producerTypeId emitSourceIdentity).subscribersOf other =
      r.subscribersOf other := by
  have hset : ∀ e : TopicEntry, e.subscribers = (r.entryAt hash).subscribers →
      (r.setEntry hash e).subscribersOf other = r.subscribersOf other := by
    intro e he
    rcases eq_or_ne other hash with rfl | hne
    · simp [subscribersOf, entryAt, he]
    · simp [subscribersOf, entryAt, topics_setEntry_of_ne _ _ hne]
  unfold declare
  dsimp only
  split <;> split <;> exact hset _ rfl

end SubscriberRegistry

end Plexus.Io
