/-
# Plexus.Shm.ReceiveCompanions — the companions that share the sink of one ring.

`mint_receive_companion` installs its callback as the sink of the topic's ring and returns a handle
(`shm_companion_consumer`) that clears the sink when it is destroyed. The ring has one sink: a second
companion of the topic displaces the first, and the destruction of either clears it, whoever's it is.
So the sinks of a member are a slot table in which everyone who leaves clears the slot.
-/
import Plexus.Shm.MuxMember
import Plexus.Lib.SlotTable

namespace Plexus.Shm

open Lib Wire ShmTopicRegistry

namespace ShmTopicRegistry

variable {σ : Type}

def sink (r : ShmTopicRegistry σ) (k : RingKey) : Option σ := (r.entries k).bind RingEntry.sink

/-- `deliver_pending`: the calls made for the messages a drain takes; without a sink they are
discarded. -/
def deliverPending {μ : Type} (r : ShmTopicRegistry σ) (k : RingKey) (taken : List μ) : List (σ × μ) :=
  match r.sink k with
  | none => []
  | some sink => taken.map (sink, ·)

theorem sink_setConsumerSink {r : ShmTopicRegistry σ} {k : RingKey} {e : RingEntry σ}
    (hk : r.entries k = some e) (s : σ) (j : RingKey) :
    (r.setConsumerSink k s).sink j = if j = k then some s else r.sink j := by
  have hset : r.setConsumerSink k s = r.setEntry k (some { e with sink := some s }) := by
    rw [setConsumerSink, hk]
  rw [hset, sink]
  split
  · rename_i hj
    rw [hj, entries_setEntry_self]
    rfl
  · rename_i hj
    rw [entries_setEntry_of_ne r hj, sink]

theorem sink_clear_release (r : ShmTopicRegistry σ) (k j : RingKey) :
    ((r.clearConsumerSink k).release k).sink j = if j = k then none else r.sink j := by
  unfold sink
  split
  · rename_i hj
    rw [hj]
    unfold clearConsumerSink
    cases hk : r.entries k with
    | none => simp [release, hk]
    | some e =>
      rw [release_spec (entries_setEntry_self r k _)]
      split <;> rfl
  · rename_i hj
    rw [entries_release_of_ne hj]
    unfold clearConsumerSink
    cases r.entries k with
    | none => rfl
    | some e => rw [entries_setEntry_of_ne r hj]

end ShmTopicRegistry

inductive CompanionEvent
  | mint (fqn : Text) (ans : BrokerAnswers)
  | destroy (companion : Nat)

/-- A member and its receive companions, numbered as they are asked for; a sink is the number of the
companion whose callback it is. -/
structure Companions where
  member : ShmMuxMember Nat
  minted : Nat := 0
  /-- The live ones, newest first. -/
  alive : List (Text × Nat) := []

namespace Companions

variable (s : Companions)

def operation : CompanionEvent → SlotOp Text Nat
  | .mint fqn ans => if (s.member.mintReceiveCompanion fqn s.minted ans).2 then .enter fqn s.minted else .keep
  | .destroy companion =>
    match s.alive.find? fun h => h.2 = companion with
    | none => .keep
    | some (fqn, _) => .evict fqn companion

def memberAfter : CompanionEvent → ShmMuxMember Nat
  | .mint fqn ans => (s.member.mintReceiveCompanion fqn s.minted ans).1
  | .destroy companion =>
    match s.alive.find? fun h => h.2 = companion with
    | none => s.member
    | some (fqn, _) => s.member.releaseReceiver fqn

def step (e : CompanionEvent) : Companions where
  member := s.memberAfter e
  minted := s.minted + 1
  alive := (s.operation e).holders s.alive

def init (maxRingSlabBytes : Nat) : Companions where
  member := { registry := { maxRingSlabBytes } }

def run (maxRingSlabBytes : Nat) (es : List CompanionEvent) : Companions :=
  es.foldl step (init maxRingSlabBytes)

/-- The companion whose callback the ring of a topic is drained into. -/
def sink (s : Companions) (fqn : Text) : Option Nat := s.member.registry.sink (fqn, .request)

/-- Every message that a drain takes for a topic with a live companion is passed to a live one. -/
def Served : Prop :=
  ∀ fqn, (∃ c, (fqn, c) ∈ s.alive) → ∀ taken : List Bytes, ∃ c, (fqn, c) ∈ s.alive ∧
    s.member.registry.deliverPending (fqn, .request) taken = taken.map (c, ·)

/-- A companion that is destroyed is the last of its topic. -/
def LastOfTopic (e : CompanionEvent) : Prop := (s.operation e).Last s.sink s.alive

instance (s : Companions) (e : CompanionEvent) : Decidable (s.LastOfTopic e) :=
  inferInstanceAs (Decidable (SlotOp.Last _ _ _))

/-- **The sinks are a slot table.** -/
theorem sink_step {s : Companions} (h : s.member.registry.Sound) (e : CompanionEvent) :
    (s.step e).sink = (s.operation e).look s.sink := by
  funext x
  cases e with
  | mint fqn ans =>
    show ShmTopicRegistry.sink (s.member.mintReceiveCompanion fqn s.minted ans).1.registry _ = _
    unfold operation ShmMuxMember.mintReceiveCompanion
    dsimp only
    split
    · rename_i hfail
      rw [ShmTopicRegistry.sink, (acquire_failed h hfail).2]
      rfl
    rename_i hok
    obtain ⟨entry, hentry, -, -⟩ := acquire_ok hok
    rw [sink_setConsumerSink hentry]
    by_cases hx : x = fqn
    · simp [hx, SlotOp.look]
    · have hne : (x, RingDirection.request) ≠ (fqn, .request) := by simp [hx]
      rw [if_neg hne, ShmTopicRegistry.sink, entries_acquire_of_ne hne]
      exact (if_neg hx).symm
  | destroy companion =>
    show ShmTopicRegistry.sink (s.memberAfter (.destroy companion)).registry _ = _
    unfold operation memberAfter
    dsimp only
    split
    · rfl
    · exact (sink_clear_release _ _ _).trans (by simp [SlotOp.look, sink])

theorem sound_step {s : Companions} (h : s.member.registry.Sound) (e : CompanionEvent) :
    (s.step e).member.registry.Sound := by
  cases e with
  | mint fqn ans =>
    rcases ShmMuxMember.mintReceiveCompanion_spec h fqn s.minted ans with ⟨-, htakes⟩ | ⟨-, hsame⟩
    · exact htakes.sound h
    · exact hsame.sound h
  | destroy companion =>
    show ShmTopicRegistry.Sound (s.memberAfter (.destroy companion)).registry
    unfold memberAfter
    dsimp only
    split
    · exact h
    · exact (s.member.gives_releaseReceiver _).sound h

/-- The sink of every topic is its newest live companion's. -/
def Newest : Prop := ∀ fqn, s.sink fqn = newest s.alive fqn

theorem newest_step_iff {s : Companions} (hsound : s.member.registry.Sound) (h : s.Newest)
    (e : CompanionEvent) : (s.step e).Newest ↔ s.LastOfTopic e := by
  unfold Newest
  rw [sink_step hsound]
  exact SlotOp.newest_iff h (s.operation e)

theorem Newest.served {s : Companions} (h : s.Newest) : s.Served := by
  rintro fqn ⟨c, hc⟩ taken
  cases hnewest : newest s.alive fqn with
  | none => exact absurd rfl (newest_eq_none_iff.mp hnewest _ hc)
  | some d =>
    refine ⟨d, newest_mem hnewest, ?_⟩
    have hsink : s.member.registry.sink (fqn, .request) = some d := (h fqn).trans hnewest
    rw [deliverPending, hsink]

/-- **When receive companions do not silence each other.** If every companion that is destroyed is
the last of its topic, then at every moment of the run a topic with a live companion is served by a
live one, and a destruction takes the sink from no other companion. -/
theorem served_of_lastOfTopic (maxRingSlabBytes : Nat) (es : List CompanionEvent)
    (hlast : Guarded step LastOfTopic (init maxRingSlabBytes) es) :
    (∀ n, (run maxRingSlabBytes (es.take n)).Served) ∧
      ∀ before c after, es = before ++ .destroy c :: after → ∀ fqn c', c' ≠ c →
        (run maxRingSlabBytes before).sink fqn = some c' →
          (run maxRingSlabBytes (before ++ [.destroy c])).sink fqn = some c' := by
  have hnewest : ∀ n, (run maxRingSlabBytes (es.take n)).Newest :=
    (guarded_iff_forall_take (fun s : Companions => s.member.registry.Sound) Newest
      (fun _ e h => sound_step h e) (fun _ e hsound h => newest_step_iff hsound h e)
      (ShmTopicRegistry.sound_fresh _) (fun _ => rfl) es).mp hlast
  refine ⟨fun n => (hnewest n).served, ?_⟩
  rintro before c after rfl fqn c' hne hsink
  have hbefore := hnewest before.length
  rw [List.take_left] at hbefore
  have hafter : (run maxRingSlabBytes (before ++ [.destroy c])).Newest := by
    have hnext := hnewest (before.length + 1)
    rw [List.take_append, List.take_of_length_le (by omega), Nat.add_sub_cancel_left] at hnext
    exact hnext
  rw [hafter fqn, ← hsink, hbefore fqn]
  rw [run, List.foldl_append]
  show newest ((operation _ (.destroy c)).holders _) fqn = _
  unfold operation
  dsimp only
  split
  · rfl
  · refine newest_filter fun _ hgone => hne (Option.some_inj.mp ?_)
    exact hsink.symm.trans ((hbefore fqn).trans hgone)

def topicT : Text := [84]

/-- A companion, destroyed before the next of its topic is minted. -/
theorem served_one_after_another :
    let es : List CompanionEvent := [.mint topicT {}, .destroy 0, .mint topicT {}]
    (run kMaxRingSlabBytes es).Served ∧ (run kMaxRingSlabBytes es).alive = [(topicT, 2)] :=
  ⟨(served_of_lastOfTopic kMaxRingSlabBytes [.mint topicT {}, .destroy 0, .mint topicT {}]
    (by decide +kernel)).1 3, by decide +kernel⟩

/-- Two companions of one topic: the older one is destroyed, and from then on what is taken for the
younger one is discarded. -/
theorem destroyed_companion_silences_other :
    let s := run kMaxRingSlabBytes [.mint topicT {}, .mint topicT {}, .destroy 0]
    s.alive = [(topicT, 1)] ∧ s.member.registry.deliverPending (topicT, .request) [[1], [2]] = [] ∧
      ¬ s.Served := by
  refine ⟨by decide +kernel, by decide +kernel, fun h => ?_⟩
  obtain ⟨c, -, hcalls⟩ := h topicT ⟨1, by decide +kernel⟩ [[1]]
  have hnone : (run kMaxRingSlabBytes [.mint topicT {}, .mint topicT {}, .destroy 0]).member.registry.deliverPending
      (topicT, .request) [[(1 : UInt8)]] = [] := by decide +kernel
  cases hnone.symm.trans hcalls

end Companions

end Plexus.Shm
