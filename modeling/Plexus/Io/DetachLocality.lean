/-
# Plexus.Io.DetachLocality — what a detach does to the topics it is not about.

`message_forwarder::detach` touches the refcount, the registry and the remembered demand at the
detached pair only. The egress bands it erases for the whole channel, with every frame of every
other topic: `remove` is the peer-death clean-up, called on a topic's last detach.

`detach_touches_only_its_topic_iff`: that is invisible if the gate does not open, or nothing of
another topic waits for the peer. A topic is its 64-bit hash where the source keeps only the hash,
and its name elsewhere.
-/
import Plexus.Io.MessageForwarder

namespace Plexus.Io

open Wire SubscriberRegistry List

/-! ## The topic of a frame -/

/-- The topic hash in the unidirectional header of a framed publish. -/
def frameTopic (frame : Bytes) : Option UInt64 :=
  if frame.length < headerSize + unidirectionalHeaderSize then none
  else some (readU64 (frame.drop (headerSize + 9)))

/-- The frames of the topics other than one. -/
def otherTopics (hash : UInt64) (frames : List Bytes) : List Bytes :=
  frames.filter (fun frame => frameTopic frame ≠ some hash)

namespace MessageForwarder

/-- What one band of a channel holds. -/
def backlog (f : MessageForwarder) (ch : Channel) (band : Fin kEgressBands) : List Bytes :=
  ((f.egress.queueOf ch).bands band).frames

/-- The remembered demand for one (peer, topic) pair. -/
def demandFor (f : MessageForwarder) (nodeName fqn : Text) : List RememberedDemand :=
  (f.remoteTopics nodeName).filter (fun d => d.fqn = fqn)

/-- **Nothing about any other topic has changed** from `f` to `f'`: the frames of other topics wait
in the same order and are handed over by the next drain of an idle channel; subscribers, refcounts
and remembered demand of every other pair are what they were. -/
structure OnlyTopic (p : Peer) (fqn : Text) (f f' : MessageForwarder) : Prop where
  bands : ∀ ch band,
    otherTopics (fqnTopicHash fqn) (f'.backlog ch band) =
      otherTopics (fqnTopicHash fqn) (f.backlog ch band)
  handed : ∀ ch w, (∀ n, w.readings n = 0) →
    ∃ frames, (f'.egress.drain w ch).2.sent = w.sent ++ frames.map (Prod.mk ch) ∧
      otherTopics (fqnTopicHash fqn) frames =
        otherTopics (fqnTopicHash fqn) (f.egress.queueOf ch).frames
  topics : ∀ hash, hash ≠ fqnTopicHash fqn → f'.registry.topics hash = f.registry.topics hash
  subscribers : ∀ ch : Channel, ch.key ≠ p.channel.key →
    (f'.registry.subscribersOf (fqnTopicHash fqn)).filter (fun s => s.channel.key = ch.key) =
      (f.registry.subscribersOf (fqnTopicHash fqn)).filter (fun s => s.channel.key = ch.key)
  refcounts : ∀ nodeName name, (nodeName, name) ≠ (p.nodeName, fqn) →
    f'.registry.refcount.counts nodeName name = f.registry.refcount.counts nodeName name
  demands : ∀ nodeName name, (nodeName, name) ≠ (p.nodeName, fqn) →
    f'.demandFor nodeName name = f.demandFor nodeName name

/-! ## The bands -/

theorem sent_drain_idle (s : EgressScheduler) (ch : Channel) {w : World}
    (hidle : ∀ n, w.readings n = 0) :
    (s.drain w ch).2.sent = w.sent ++ (s.queueOf ch).frames.map (Prod.mk ch) :=
  (EgressScheduler.drainLoop_idle ch le_rfl hidle).2

theorem otherTopics_flatMap (hash : UInt64) (q : PriorityBandQueue) :
    otherTopics hash q.frames =
      (finRange kEgressBands).flatMap (fun i => otherTopics hash (q.bands i).frames) := by
  simp only [otherTopics, PriorityBandQueue.frames, filter_flatMap]

variable {f f' : MessageForwarder} {ch ch' : Channel} {fqn : Text}

theorem handed_of_bands {hash : UInt64}
    (h : ∀ ch band, otherTopics hash (f'.backlog ch band) = otherTopics hash (f.backlog ch band))
    (ch : Channel) {w : World} (hidle : ∀ n, w.readings n = 0) :
    ∃ frames, (f'.egress.drain w ch).2.sent = w.sent ++ frames.map (Prod.mk ch) ∧
      otherTopics hash frames = otherTopics hash (f.egress.queueOf ch).frames := by
  refine ⟨_, sent_drain_idle f'.egress ch hidle, ?_⟩
  rw [otherTopics_flatMap, otherTopics_flatMap]
  exact flatMap_congr fun band _ => h ch band

theorem backlog_of_key (h : ch.key = ch'.key) (band : Fin kEgressBands) :
    f.backlog ch band = f.backlog ch' band := by
  simp only [backlog, EgressScheduler.queueOf, h]

theorem queueOf_remove_self (s : EgressScheduler) (h : ch'.key = ch.key) :
    (s.remove ch).queueOf ch' = {} := by
  simp [EgressScheduler.queueOf, EgressScheduler.remove, h]

theorem queueOf_remove_of_ne (s : EgressScheduler) (h : ch'.key ≠ ch.key) :
    (s.remove ch).queueOf ch' = s.queueOf ch' := by
  simp [EgressScheduler.queueOf, EgressScheduler.remove, Function.update_of_ne h]

/-- Only frames of this topic wait for the channel. -/
def OnlyBacklog (f : MessageForwarder) (ch : Channel) (hash : UInt64) : Prop :=
  ∀ frame ∈ (f.egress.queueOf ch).frames, frameTopic frame = some hash

/-- **Erasing a channel's bands spares the other topics exactly when they have nothing there.** -/
theorem bands_remove_iff (hegress : f'.egress = f.egress.remove ch) (hash : UInt64) :
    (∀ ch' band, otherTopics hash (f'.backlog ch' band) = otherTopics hash (f.backlog ch' band)) ↔
      f.OnlyBacklog ch hash := by
  have hself : ∀ band, f'.backlog ch band = [] := by
    intro band
    rw [backlog, hegress, queueOf_remove_self _ rfl]
  constructor
  · intro h frame hframe
    obtain ⟨band, -, hmem⟩ := mem_flatMap.mp hframe
    have hnone := h ch band
    rw [hself band] at hnone
    by_contra hother
    have : frame ∈ otherTopics hash (f.backlog ch band) :=
      mem_filter.mpr ⟨hmem, by simpa using hother⟩
    rw [← hnone] at this
    exact absurd this (by simp [otherTopics])
  · intro h ch' band
    by_cases hkey : ch'.key = ch.key
    · rw [backlog_of_key hkey, backlog_of_key hkey, hself band, eq_comm]
      refine filter_eq_nil_iff.mpr fun frame hframe => ?_
      have := h frame (mem_flatMap.mpr ⟨band, mem_finRange band, hframe⟩)
      simpa using this
    · rw [backlog, backlog, hegress, queueOf_remove_of_ne _ hkey]

/-! ## The last detach of a pair -/

theorem demandFor_forgetRemoteTopic (f : MessageForwarder) {nodeName other name : Text}
    (h : (other, name) ≠ (nodeName, fqn)) :
    (f.forgetRemoteTopic nodeName fqn).demandFor other name = f.demandFor other name := by
  rcases eq_or_ne other nodeName with rfl | hnode
  · have hname : name ≠ fqn := by
      rintro rfl
      exact h rfl
    simp only [demandFor, forgetRemoteTopic, Function.update_self, filter_filter]
    refine filter_congr fun d _ => ?_
    by_cases hd : d.fqn = name
    · simp [hd, hname]
    · simp [hd]
  · simp only [demandFor, forgetRemoteTopic, Function.update_of_ne hnode]

theorem subscribers_removeSubscriber_of_ne (r : SubscriberRegistry) (hash : UInt64)
    {other : Channel} (h : other.key ≠ ch.key) :
    ((r.removeSubscriber hash ch).subscribersOf hash).filter (fun s => s.channel.key = other.key) =
      (r.subscribersOf hash).filter (fun s => s.channel.key = other.key) := by
  rw [subscribersOf_removeSubscriber, filter_filter]
  refine filter_congr fun s _ => ?_
  by_cases hs : s.channel.key = other.key
  · simp [hs, h]
  · simp [hs]

theorem onlyTopic_of_bands {p : Peer}
    (hbands : ∀ ch band, otherTopics (fqnTopicHash fqn) (f'.backlog ch band) =
      otherTopics (fqnTopicHash fqn) (f.backlog ch band))
    (hregistry : f'.registry.topics =
      (f.registry.removeSubscriber (fqnTopicHash fqn) p.channel).topics)
    (hrefcounts : ∀ nodeName name, (nodeName, name) ≠ (p.nodeName, fqn) →
      f'.registry.refcount.counts nodeName name = f.registry.refcount.counts nodeName name)
    (hdemands : ∀ nodeName name, (nodeName, name) ≠ (p.nodeName, fqn) →
      f'.demandFor nodeName name = f.demandFor nodeName name) : OnlyTopic p fqn f f' where
  bands := hbands
  handed := fun ch _ hidle => handed_of_bands hbands ch hidle
  topics := fun hash hne => by
    rw [hregistry]
    exact f.registry.topics_removeSubscriber_of_ne p.channel hne
  subscribers := fun ch hne => by
    simp only [subscribersOf, entryAt, hregistry]
    exact subscribers_removeSubscriber_of_ne f.registry _ hne
  refcounts := hrefcounts
  demands := hdemands

theorem onlyTopic_of_not_last {p : Peer} (h : f.registry.refcount.counts p.nodeName fqn ≠ some 1)
    (w : World) : OnlyTopic p fqn f (f.detach w p fqn).2.1 := by
  rw [detach_of_not_last h w]
  refine ⟨fun _ _ => rfl, fun ch _ hidle => ?_, fun _ _ => rfl, fun _ _ => rfl, ?_, fun _ _ _ => rfl⟩
  · exact handed_of_bands (fun _ _ => rfl) ch hidle
  · intro nodeName name hne
    exact f.registry.refcount.counts_drop_of_ne hne

theorem onlyTopic_of_last_iff {p : Peer} (h : f.registry.refcount.counts p.nodeName fqn = some 1)
    (w : World) :
    OnlyTopic p fqn f (f.detach w p fqn).2.1 ↔ f.OnlyBacklog p.channel (fqnTopicHash fqn) := by
  rw [detach_of_last h w]
  constructor
  · intro honly
    exact (bands_remove_iff rfl _).mp honly.bands
  intro hbacklog
  refine onlyTopic_of_bands ((bands_remove_iff rfl _).mpr hbacklog) ?_ ?_ ?_
  · have htopics : (f.registry.dropRefcount p.nodeName fqn).2.topics = f.registry.topics := rfl
    show ((f.registry.dropRefcount p.nodeName fqn).2.removeSubscriber _ _).topics = _
    rw [removeSubscriber, removeSubscriber, htopics]
    cases f.registry.topics (fqnTopicHash fqn) <;> rfl
  · intro nodeName name hne
    show ((f.registry.dropRefcount p.nodeName fqn).2.removeSubscriber _ _).refcount.counts _ _ = _
    rw [refcount_removeSubscriber]
    exact f.registry.refcount.counts_drop_of_ne hne
  · intro nodeName name hne
    exact demandFor_forgetRemoteTopic _ hne

theorem detachLocal_onlyTopic_iff (f : MessageForwarder) (fqn : Text) (p : Peer) :
    OnlyTopic p fqn f (f.detachLocal fqn p.channel) ↔
      f.OnlyBacklog p.channel (fqnTopicHash fqn) := by
  constructor
  · intro honly
    exact (bands_remove_iff rfl _).mp honly.bands
  intro hbacklog
  refine onlyTopic_of_bands ((bands_remove_iff rfl _).mpr hbacklog) rfl ?_ (fun _ _ _ => rfl)
  intro nodeName name _
  show (f.registry.removeSubscriber _ _).refcount.counts _ _ = _
  rw [refcount_removeSubscriber]

/-- **A detach touches its own topic only if and only if** its gate stays shut or nothing of another
topic waits for the peer; a local detach has no gate. -/
theorem detach_touches_only_its_topic_iff (f : MessageForwarder) (w : World) (p : Peer)
    (fqn : Text) :
    (OnlyTopic p fqn f (f.detach w p fqn).2.1 ↔
      f.registry.refcount.counts p.nodeName fqn ≠ some 1 ∨
        f.OnlyBacklog p.channel (fqnTopicHash fqn)) ∧
    (OnlyTopic p fqn f (f.detachLocal fqn p.channel) ↔
      f.OnlyBacklog p.channel (fqnTopicHash fqn)) := by
  refine ⟨?_, detachLocal_onlyTopic_iff f fqn p⟩
  by_cases hlast : f.registry.refcount.counts p.nodeName fqn = some 1
  · rw [onlyTopic_of_last_iff hlast w]
    simp [hlast]
  · exact ⟨fun _ => .inl hlast, fun _ => onlyTopic_of_not_last hlast w⟩

/-! ## A backlog lost to a detach of another topic -/

/-- A peer whose channel never has room. -/
def stalledPeer : Peer where
  channel := { key := 1, scheme := [0x74, 0x63, 0x70], polls := true, lowWater := 0 }
  nodeName := [0x70]

def stalledWorld : World := { readings := fun _ => 1, clock := fun _ => 0, sent := [] }

/-- Two topics, `a` and `b`, towards the stalled peer, and one publish on `b` that waits in its
band. -/
def stalledForwarder : Option (MessageForwarder × World) :=
  let (_, f, w) := attach {} stalledWorld stalledPeer [0x61] {} none
  let (_, f, w) := f.attach w stalledPeer [0x62] {} none
  f.publish w [0x62] [7] 0

/-- The last detach of `a` erases the frame of `b`. -/
theorem detach_drops_other_backlog :
    ∃ f w, stalledForwarder = some (f, w) ∧
      ¬ OnlyTopic stalledPeer [0x61] f (f.detach w stalledPeer [0x61]).2.1 := by
  refine ⟨_, _, rfl, fun honly => ?_⟩
  have hband := honly.bands stalledPeer.channel (bandOf .normal)
  exact absurd hband (by decide +kernel)

end MessageForwarder

end Plexus.Io
