/-
# Plexus.Shm.TopicRegistry — the rings a process has open, by topic (`shm/shm_topic_registry.h`,
`shm/detail/shm_topic_open.h`, `shm/shm_acquire_result.h`, `shm/region_broker_concept.h`).

A first `acquire` of a (topic, direction) opens its ring, each further one bumps a count, and the
matching `release`s tear it down. What the broker and its regions answer is an input of every
acquire. Entries are never reused, so an entry's number stands for the address of its channel. The
sink is what the one consumer cursor of an entry is drained into; its type stays open.
-/
import Plexus.Shm.BroadcastRing
import Plexus.Wire.Control

namespace Plexus.Shm

open Wire

/-! ## Opening a ring -/

inductive RegionStatus
  | ok | alreadyExists | notFound | denied | tooLarge | incompatible | failed
  deriving DecidableEq

inductive AcquireResult
  | created | attached | failed
  deriving DecidableEq

/-- What to do with a region that already has the name: unlink it, or join it. -/
inductive AcquireMode
  | reclaimStale | joinLive
  deriving DecidableEq

inductive AcquireBound
  | none | slabCeiling | osAllocator
  deriving DecidableEq

structure AcquireFailure where
  bound : AcquireBound := .none
  askBytes : Nat := 0
  limitBytes : Nat := 0
  broker : RegionStatus := .ok
  deriving DecidableEq

inductive RingDirection
  | request | response
  deriving DecidableEq

def kCacheLine : Nat := 64
def kMaxRingSlabBytes : Nat := 512 * 1024 * 1024

/-- Two lines, a line for each cursor and three more, then a line for each cell. -/
def controlRegionBytes (cellCount : Nat) : Nat :=
  (kCacheLine * 2 + kMaxConsumers * kCacheLine + kCacheLine * 3 + cellCount * kCacheLine) % 2 ^ 64

def slabRegionBytes (cellCount slotCapacity : Nat) : Nat :=
  cellCount * roundUp8 slotCapacity % 2 ^ 64

/-- What one acquire is told by the probe, by the creates and attaches of the two regions, and by
the ring's own checks. -/
structure BrokerAnswers where
  regionExists : Bool := false
  createControl : RegionStatus := .ok
  createSlab : RegionStatus := .ok
  regionsFit : Bool := true
  attachControl : RegionStatus := .ok
  attachSlab : RegionStatus := .ok
  ringAttach : Bool := true
  deriving DecidableEq

structure AcquireRequest where
  maxPayload : UInt32
  mode : RingGeometryMode := .reliablePreserving
  consumerCapacity : UInt32 := 0
  amode : AcquireMode := .reclaimStale
  deriving DecidableEq

namespace AcquireRequest

variable (req : AcquireRequest)

def capacity : Nat :=
  if req.consumerCapacity = 0 then kMaxConsumers else req.consumerCapacity.toNat

def geometry : Nat × Nat :=
  ringGeometryFor (if req.maxPayload = 0 then none else some req.maxPayload) req.mode
    req.consumerCapacity

def slabBytes : Nat := slabRegionBytes req.geometry.1 req.geometry.2

def controlBytes : Nat := controlRegionBytes req.geometry.1

end AcquireRequest

/-- `topic_mint`: the creator's path. -/
def topicMint (req : AcquireRequest) (ans : BrokerAnswers) : AcquireResult × AcquireFailure :=
  if ans.createSlab ≠ .ok then
    (.failed, { bound := .osAllocator, askBytes := req.slabBytes, broker := ans.createSlab })
  else if ans.regionsFit && (create req.geometry.1 req.geometry.2 req.capacity).isSome then
    (.created, {})
  else (.failed, {})

/-- `topic_join`: the attacher's path. -/
def topicJoin (ans : BrokerAnswers) : AcquireResult × AcquireFailure :=
  if ans.attachControl = .ok ∧ ans.attachSlab = .ok ∧ ans.ringAttach = true then (.attached, {})
  else (.failed, {})

def topicOpenRing (maxRingSlabBytes : Nat) (req : AcquireRequest) (ans : BrokerAnswers) :
    AcquireResult × AcquireFailure :=
  -- over the ceiling nothing is asked of the broker
  if maxRingSlabBytes < req.slabBytes then
    (.failed, { bound := .slabCeiling, askBytes := req.slabBytes, limitBytes := maxRingSlabBytes })
  else if req.amode = .joinLive ∧ ans.regionExists = true then topicJoin ans
  else if ans.createControl = .ok then topicMint req ans
  else if ans.createControl = .alreadyExists then topicJoin ans
  else
    (.failed, { bound := .osAllocator, askBytes := req.controlBytes, broker := ans.createControl })

/-! ## The registry -/

abbrev RingKey := Text × RingDirection

/-- A ring with the number of its holders. -/
structure RingEntry (σ : Type) where
  ring : Nat
  verdict : AcquireResult
  refcount : Nat
  sink : Option σ := none
  deriving DecidableEq

structure ShmTopicRegistry (σ : Type) where
  maxRingSlabBytes : Nat := kMaxRingSlabBytes
  lastFailure : AcquireFailure := {}
  entries : RingKey → Option (RingEntry σ) := fun _ => none
  nextRing : Nat := 0

namespace ShmTopicRegistry

variable {σ : Type} (r : ShmTopicRegistry σ)

def setEntry (k : RingKey) (e : Option (RingEntry σ)) : ShmTopicRegistry σ :=
  { r with entries := Function.update r.entries k e }

def acquire (k : RingKey) (req : AcquireRequest) (ans : BrokerAnswers) :
    ShmTopicRegistry σ × AcquireResult :=
  match r.entries k with
  | some e => (r.setEntry k (some { e with refcount := e.refcount + 1 }), e.verdict)
  | none =>
    let (verdict, lastFailure) := topicOpenRing r.maxRingSlabBytes req ans
    let r := { r with lastFailure }
    if verdict = .failed then (r, .failed)
    else
      ({ r with nextRing := r.nextRing + 1 }.setEntry k
        (some { ring := r.nextRing, verdict, refcount := 1 }), verdict)

def release (k : RingKey) : ShmTopicRegistry σ :=
  match r.entries k with
  | none => r
  | some e =>
    if 0 < e.refcount - 1 then r.setEntry k (some { e with refcount := e.refcount - 1 })
    else r.setEntry k none

def setConsumerSink (k : RingKey) (sink : σ) : ShmTopicRegistry σ :=
  match r.entries k with
  | none => r
  | some e => r.setEntry k (some { e with sink := some sink })

def clearConsumerSink (k : RingKey) : ShmTopicRegistry σ :=
  match r.entries k with
  | none => r
  | some e => r.setEntry k (some { e with sink := none })

/-- `channel_for`: the channel of a live entry, by its number. -/
def channelFor (k : RingKey) : Option Nat := (r.entries k).map RingEntry.ring

def live (k : RingKey) : Bool := (r.entries k).isSome

def refcount (r : ShmTopicRegistry σ) (k : RingKey) : Nat :=
  ((r.entries k).map RingEntry.refcount).getD 0

/-! ## What the operations do to an entry

A live entry has a verdict other than `failed` and a positive count; `Sound` says so, and every
operation keeps it. The other entries are never touched. -/

structure Sound (r : ShmTopicRegistry σ) : Prop where
  verdict : ∀ k e, r.entries k = some e → e.verdict ≠ .failed
  counted : ∀ k e, r.entries k = some e → 0 < e.refcount

variable {r : ShmTopicRegistry σ} {k : RingKey}

theorem sound_fresh (maxRingSlabBytes : Nat) :
    ({ maxRingSlabBytes } : ShmTopicRegistry σ).Sound where
  verdict := fun _ _ h => by cases h
  counted := fun _ _ h => by cases h

@[simp] theorem entries_setEntry_self (r : ShmTopicRegistry σ) (k : RingKey)
    (e : Option (RingEntry σ)) : (r.setEntry k e).entries k = e := by
  simp [setEntry]

variable {j : RingKey} {req : AcquireRequest} {ans : BrokerAnswers}

theorem entries_setEntry_of_ne (r : ShmTopicRegistry σ) {k : RingKey} (h : j ≠ k)
    (e : Option (RingEntry σ)) : (r.setEntry k e).entries j = r.entries j := by
  simp [setEntry, h]

theorem Sound.setEntry (h : r.Sound) (k : RingKey) {e : Option (RingEntry σ)}
    (he : ∀ x, e = some x → x.verdict ≠ .failed ∧ 0 < x.refcount) : (r.setEntry k e).Sound := by
  have hkey : ∀ j x, (r.setEntry k e).entries j = some x → x.verdict ≠ .failed ∧ 0 < x.refcount := by
    intro j x hx
    by_cases hj : j = k
    · subst hj
      rw [entries_setEntry_self] at hx
      exact he x hx
    · rw [entries_setEntry_of_ne r hj] at hx
      exact ⟨h.verdict j x hx, h.counted j x hx⟩
  exact ⟨fun j x hx => (hkey j x hx).1, fun j x hx => (hkey j x hx).2⟩

/-- A successful acquire leaves one reference more, and a ring that was open stays the one it was. -/
theorem acquire_ok (hok : (r.acquire k req ans).2 ≠ .failed) :
    ∃ e, (r.acquire k req ans).1.entries k = some e ∧ e.refcount = r.refcount k + 1 ∧
      (∀ old, r.entries k = some old → e.ring = old.ring ∧ e.sink = old.sink) := by
  unfold acquire at hok ⊢
  cases hk : r.entries k with
  | some e =>
    refine ⟨{ e with refcount := e.refcount + 1 }, by simp, by simp [refcount, hk], ?_⟩
    intro old hold
    cases hold
    exact ⟨rfl, rfl⟩
  | none =>
    rw [hk] at hok
    dsimp only at hok ⊢
    split at hok
    · exact absurd rfl hok
    · rename_i hverdict
      rw [if_neg hverdict]
      exact ⟨_, entries_setEntry_self _ _ _, by simp [refcount, hk], fun old hold => by cases hold⟩

theorem acquire_failed (h : r.Sound) (hfail : (r.acquire k req ans).2 = .failed) :
    r.entries k = none ∧ (r.acquire k req ans).1.entries = r.entries := by
  unfold acquire at hfail ⊢
  cases hk : r.entries k with
  | some e =>
    rw [hk] at hfail
    exact absurd hfail (h.verdict k e hk)
  | none =>
    rw [hk] at hfail
    dsimp only at hfail ⊢
    split at hfail
    · rename_i hverdict
      rw [if_pos hverdict]
      exact ⟨rfl, rfl⟩
    · rename_i hverdict
      exact absurd hfail hverdict

theorem Sound.acquire (h : r.Sound) (k : RingKey) (req : AcquireRequest) (ans : BrokerAnswers) :
    (r.acquire k req ans).1.Sound := by
  unfold ShmTopicRegistry.acquire
  cases hk : r.entries k with
  | some e =>
    refine h.setEntry k fun x hx => ?_
    cases hx
    exact ⟨h.verdict k e hk, Nat.succ_pos _⟩
  | none =>
    dsimp only
    split
    · exact ⟨h.verdict, h.counted⟩
    rename_i hverdict
    show (ShmTopicRegistry.setEntry _ k _).Sound
    apply Sound.setEntry
    · exact ⟨h.verdict, h.counted⟩
    · intro x hx
      cases hx
      exact ⟨hverdict, Nat.one_pos⟩

theorem entries_acquire_of_ne (hj : j ≠ k) (req : AcquireRequest) (ans : BrokerAnswers) :
    (r.acquire k req ans).1.entries j = r.entries j := by
  unfold acquire
  cases r.entries k with
  | some e => exact entries_setEntry_of_ne r hj _
  | none =>
    dsimp only
    split
    · rfl
    · rw [entries_setEntry_of_ne _ hj]

theorem Sound.release (h : r.Sound) (k : RingKey) : (r.release k).Sound := by
  unfold ShmTopicRegistry.release
  cases hk : r.entries k with
  | none => exact h
  | some e =>
    dsimp only
    split
    · rename_i hpos
      refine h.setEntry k fun x hx => ?_
      cases hx
      exact ⟨h.verdict k e hk, hpos⟩
    · exact h.setEntry k fun x hx => by cases hx

theorem entries_release_of_ne (hj : j ≠ k) : (r.release k).entries j = r.entries j := by
  unfold release
  cases r.entries k with
  | none => rfl
  | some e =>
    dsimp only
    split <;> exact entries_setEntry_of_ne r hj _

theorem release_spec {e : RingEntry σ} (hk : r.entries k = some e) :
    (r.release k).entries k =
      if 1 < e.refcount then some { e with refcount := e.refcount - 1 } else none := by
  unfold release
  rw [hk]
  dsimp only
  by_cases hlast : 1 < e.refcount
  · rw [if_pos (by omega), if_pos hlast, entries_setEntry_self]
  · rw [if_neg (by omega), if_neg hlast, entries_setEntry_self]

theorem refcount_release (r : ShmTopicRegistry σ) (k : RingKey) :
    (r.release k).refcount k = r.refcount k - 1 := by
  cases hk : r.entries k with
  | none => simp [release, hk, refcount]
  | some e =>
    rw [refcount, release_spec hk, refcount, hk]
    split
    · rfl
    · show 0 = e.refcount - 1
      omega

theorem channelFor_release (h : 1 < r.refcount k) : (r.release k).channelFor k = r.channelFor k := by
  cases hk : r.entries k with
  | none => simp [refcount, hk] at h
  | some e =>
    have hcount : 1 < e.refcount := by simpa [refcount, hk] using h
    rw [channelFor, release_spec hk, if_pos hcount, channelFor, hk]
    rfl

theorem Sound.live_iff (h : r.Sound) (k : RingKey) : r.live k = true ↔ 0 < r.refcount k := by
  cases hk : r.entries k with
  | none => simp [live, refcount, hk]
  | some e => simp [live, refcount, hk, h.counted k e hk]

theorem channelFor_eq_none_iff (r : ShmTopicRegistry σ) (k : RingKey) :
    r.channelFor k = none ↔ r.live k = false := by
  cases hk : r.entries k <;> simp [channelFor, live]

/-! ## Three things an operation can do

As far as the rings are concerned an operation takes a reference to one of them, gives one back, or
leaves them as they are. -/

/-- The same rings, with the same references. -/
structure SameRings (r r' : ShmTopicRegistry σ) : Prop where
  refcount : ∀ k, r'.refcount k = r.refcount k
  channelFor : ∀ k, r'.channelFor k = r.channelFor k
  sound : r.Sound → r'.Sound

/-- The ring of `k` has `n` references now, and is the one it was if it stayed open. -/
structure Recounts (r r' : ShmTopicRegistry σ) (k : RingKey) (n : Nat) : Prop where
  refcount : r'.refcount k = n
  channelFor : 0 < r.refcount k → 0 < n → r'.channelFor k = r.channelFor k
  refcount_of_ne : ∀ j, j ≠ k → r'.refcount j = r.refcount j
  channelFor_of_ne : ∀ j, j ≠ k → r'.channelFor j = r.channelFor j
  sound : r.Sound → r'.Sound

/-- One reference more. -/
abbrev Takes (r r' : ShmTopicRegistry σ) (k : RingKey) : Prop := r.Recounts r' k (r.refcount k + 1)

/-- One reference less. -/
abbrev Gives (r r' : ShmTopicRegistry σ) (k : RingKey) : Prop := r.Recounts r' k (r.refcount k - 1)

theorem takes_acquire (hok : (r.acquire k req ans).2 ≠ .failed) :
    r.Takes (r.acquire k req ans).1 k := by
  obtain ⟨e, he, hcount, hsame⟩ := acquire_ok hok
  refine ⟨?_, fun hopen _ => ?_, fun j hj => ?_, fun j hj => ?_, fun h => h.acquire k req ans⟩
  · rw [refcount, he]
    exact hcount
  · cases hk : r.entries k with
    | none => simp [refcount, hk] at hopen
    | some old => rw [channelFor, he, channelFor, hk, Option.map_some, (hsame old hk).1, Option.map_some]
  · rw [refcount, entries_acquire_of_ne hj, refcount]
  · rw [channelFor, entries_acquire_of_ne hj, channelFor]

theorem gives_release (r : ShmTopicRegistry σ) (k : RingKey) : r.Gives (r.release k) k where
  refcount := refcount_release r k
  channelFor := fun _ hleft => channelFor_release (by omega)
  refcount_of_ne := fun j hj => by rw [refcount, entries_release_of_ne hj, refcount]
  channelFor_of_ne := fun j hj => by rw [channelFor, entries_release_of_ne hj, channelFor]
  sound := fun h => h.release k

theorem Recounts.same {r' r'' : ShmTopicRegistry σ} {n : Nat} (h : r.Recounts r' k n)
    (h' : r'.SameRings r'') : r.Recounts r'' k n where
  refcount := (h'.refcount k).trans h.refcount
  channelFor := fun hopen hleft => (h'.channelFor k).trans (h.channelFor hopen hleft)
  refcount_of_ne := fun j hj => (h'.refcount j).trans (h.refcount_of_ne j hj)
  channelFor_of_ne := fun j hj => (h'.channelFor j).trans (h.channelFor_of_ne j hj)
  sound := fun hs => h'.sound (h.sound hs)

theorem SameRings.gives {r' r'' : ShmTopicRegistry σ} (h : r.SameRings r') (h' : r'.Gives r'' k) :
    r.Gives r'' k where
  refcount := by rw [h'.refcount, h.refcount]
  channelFor := fun hopen hleft => by
    rw [← h.refcount] at hopen hleft
    rw [h'.channelFor hopen hleft, h.channelFor]
  refcount_of_ne := fun j hj => (h'.refcount_of_ne j hj).trans (h.refcount j)
  channelFor_of_ne := fun j hj => (h'.channelFor_of_ne j hj).trans (h.channelFor j)
  sound := fun hs => h'.sound (h.sound hs)

theorem sameRings_acquire (h : r.Sound) (hfail : (r.acquire k req ans).2 = .failed) :
    r.SameRings (r.acquire k req ans).1 := by
  have hentries := (acquire_failed h hfail).2
  exact ⟨fun j => by rw [refcount, hentries, refcount],
    fun j => by rw [channelFor, hentries, channelFor], fun hs => hs.acquire k req ans⟩

theorem sameRings_sink {e : RingEntry σ} (hk : r.entries k = some e) (sink : Option σ) :
    r.SameRings (r.setEntry k (some { e with sink })) where
  refcount := fun j => by
    by_cases hj : j = k
    · subst hj
      simp [refcount, hk]
    · rw [refcount, entries_setEntry_of_ne r hj, refcount]
  channelFor := fun j => by
    by_cases hj : j = k
    · subst hj
      simp [channelFor, hk]
    · rw [channelFor, entries_setEntry_of_ne r hj, channelFor]
  sound := fun h => h.setEntry k fun x hx => by
    cases hx
    exact ⟨h.verdict k e hk, h.counted k e hk⟩

theorem sameRings_setConsumerSink (r : ShmTopicRegistry σ) (k : RingKey) (sink : σ) :
    r.SameRings (r.setConsumerSink k sink) := by
  unfold setConsumerSink
  cases hk : r.entries k with
  | none => exact ⟨fun _ => rfl, fun _ => rfl, id⟩
  | some e => exact sameRings_sink hk _

theorem sameRings_clearConsumerSink (r : ShmTopicRegistry σ) (k : RingKey) :
    r.SameRings (r.clearConsumerSink k) := by
  unfold clearConsumerSink
  cases hk : r.entries k with
  | none => exact ⟨fun _ => rfl, fun _ => rfl, id⟩
  | some e => exact sameRings_sink hk _

end ShmTopicRegistry

end Plexus.Shm
