/-
# Plexus.Io.FanoutCopies — how many copies of a message a publish puts where.

A copy is on a channel once it has been handed to it, or waits for it in its bands. Draining moves
copies and makes none, so a publish adds one copy for each subscriber in reach, on the channel the
subscriber is routed to; a lane that sheds adds none, and is counted as a drop of the topic.
-/
import Plexus.Io.MessageForwarder

namespace Plexus.Io

open Wire Function SubscriberRegistry List

/-! ## Copies on one channel -/

/-- What has been handed to the channel with this key. -/
def World.sentOn (w : World) (key : Nat) : List Bytes :=
  (w.sent.filter fun e => e.1.key = key).map Prod.snd

theorem World.sentOn_self {w w' : World} {ch : Channel} {frames : List Bytes}
    (h : w'.sent = w.sent ++ frames.map (Prod.mk ch)) :
    w'.sentOn ch.key = w.sentOn ch.key ++ frames := by
  simp [sentOn, h, filter_map]

theorem World.sentOn_of_ne {w w' : World} {ch : Channel} {key : Nat} (hkey : key ≠ ch.key)
    {frames : List Bytes} (h : w'.sent = w.sent ++ frames.map (Prod.mk ch)) :
    w'.sentOn key = w.sentOn key := by
  simp [sentOn, h, filter_map, hkey.symm]

theorem Band.count_pushWithVerdict (b : Band) (congestion : Congestion) (frame : Bytes) :
    let r := b.pushWithVerdict congestion frame
    r.2.frames.count frame ≤ b.frames.count frame + 1 ∧
      (r.1 = .none → r.2.frames.count frame = b.frames.count frame + 1) := by
  have hpushed : ∀ frames : List Bytes, (frames ++ [frame]).count frame = frames.count frame + 1 :=
    fun frames => by rw [count_append, count_singleton_self]
  unfold pushWithVerdict
  by_cases hfull : b.frames.length = kBandDepth
  · rw [if_pos hfull]
    cases congestion with
    | block | dropNewest => exact ⟨Nat.le_succ _, fun h => by cases h⟩
    | dropOldest =>
      refine ⟨?_, fun h => by cases h⟩
      show (b.frames.tail ++ [frame]).count frame ≤ _
      rw [hpushed]
      exact Nat.succ_le_succ ((tail_sublist _).count_le _)
  · rw [if_neg hfull]
    exact ⟨(hpushed _).le, fun _ => hpushed _⟩

namespace PriorityBandQueue

section

variable (q : PriorityBandQueue) (band : Fin kEgressBands)

theorem count_frames_update (b : Band) (frame : Bytes) :
    (frames { bands := update q.bands band b }).count frame + (q.bands band).frames.count frame =
      q.frames.count frame + b.frames.count frame := by
  rw [frames, frames, count_flatMap, count_flatMap]
  exact q.sum_bands_update band b fun b => b.frames.count frame

theorem count_enqueueWithVerdict (congestion : Congestion) (frame : Bytes) :
    let r := q.enqueueWithVerdict band congestion frame
    r.2.frames.count frame ≤ q.frames.count frame + 1 ∧
      (r.1 = .none → r.2.frames.count frame = q.frames.count frame + 1) := by
  have hupdate := q.count_frames_update band ((q.bands band).pushWithVerdict congestion frame).2 frame
  have hpush := (q.bands band).count_pushWithVerdict congestion frame
  dsimp only [enqueueWithVerdict]
  constructor
  · have := hpush.1
    omega
  · intro hnone
    have := hpush.2 hnone
    omega

end

end PriorityBandQueue

namespace EgressScheduler

/-- The copies of `frame` on the channel with this key. -/
def copies (s : EgressScheduler) (w : World) (key : Nat) (frame : Bytes) : Nat :=
  (w.sentOn key).count frame + ((s.queues key).getD {}).frames.count frame

section

variable (s : EgressScheduler) (w : World) (ch : Channel)

/-- **A drain moves copies** from the bands to the channel. -/
theorem copies_drain (key : Nat) (frame : Bytes) :
    (s.drain w ch).1.copies (s.drain w ch).2 key frame = s.copies w key frame := by
  obtain ⟨k, hframes, hsent⟩ := drainLoop_spec ch (s.queueOf ch).frames.length (s.queueOf ch) w
  have hworld : (s.drain w ch).2.sent = w.sent ++ ((s.queueOf ch).frames.take k).map (.mk ch) := hsent
  rcases eq_or_ne key ch.key with rfl | hkey
  · have hqueue : ((s.drain w ch).1.queues ch.key).getD {} =
        (drainLoop ch (s.queueOf ch).frames.length (s.queueOf ch) w).1 := by
      simp [drain]
    rw [copies, hqueue, hframes, World.sentOn_self hworld,
      count_append, add_assoc, ← count_append, take_append_drop]
    rfl
  · have hqueue : (s.drain w ch).1.queues key = s.queues key := by
      simp [drain, update_of_ne hkey]
    rw [copies, copies, hqueue, World.sentOn_of_ne hkey hworld]

/-- **An enqueue** adds at most one copy of its frame, on its own channel, and just one if it sheds
nothing. -/
theorem copies_enqueue (band : Fin kEgressBands) (congestion : Congestion) (frame : Bytes)
    (key : Nat) :
    let r := s.enqueue w ch band congestion frame
    r.2.1.copies r.2.2 key frame ≤ s.copies w key frame + (if key = ch.key then 1 else 0) ∧
      (r.1 = .none → r.2.1.copies r.2.2 key frame =
        s.copies w key frame + if key = ch.key then 1 else 0) := by
  unfold enqueue
  by_cases hpolls : ch.polls = true
  · have hcount := (s.queueOf ch).count_enqueueWithVerdict band congestion frame
    generalize hq : (s.queueOf ch).enqueueWithVerdict band congestion frame = pushed at hcount
    obtain ⟨cause, q⟩ := pushed
    simp only [hpolls, Bool.not_true, Bool.false_eq_true, if_false, copies_drain]
    rcases eq_or_ne key ch.key with rfl | hkey
    · have hbefore : s.copies w ch.key frame =
          (w.sentOn ch.key).count frame + (s.queueOf ch).frames.count frame := rfl
      have hafter : copies { queues := update s.queues ch.key (some q) } w ch.key frame =
          (w.sentOn ch.key).count frame + q.frames.count frame := by
        simp [copies]
      rw [if_pos rfl, hafter, hbefore]
      dsimp only at hcount
      refine ⟨?_, fun hnone => ?_⟩
      · have := hcount.1
        omega
      · have := hcount.2 hnone
        omega
    · have hsame : copies { queues := update s.queues ch.key (some q) } w key frame =
          s.copies w key frame := by
        simp [copies, update_of_ne hkey]
      rw [if_neg hkey, hsame]
      exact ⟨le_rfl, fun _ => rfl⟩
  · -- without a backlog the frame goes straight to the channel
    have hsent : (w.send ch frame).sent = w.sent ++ [frame].map (Prod.mk ch) := rfl
    simp only [hpolls, Bool.not_false, if_true, copies]
    rcases eq_or_ne key ch.key with rfl | hkey
    · rw [World.sentOn_self hsent, count_append, count_singleton_self, if_pos rfl]
      exact ⟨by omega, fun _ => by omega⟩
    · rw [World.sentOn_of_ne hkey hsent, if_neg hkey]
      exact ⟨le_rfl, fun _ => rfl⟩

end

end EgressScheduler

/-! ## A publish -/

/-- A drop is counted once, under its band and cause; the fan-out lists stay. -/
theorem SubscriberRegistry.recordDrop_spec (r : SubscriberRegistry) {hash : UInt64}
    (hknown : (r.topics hash).isSome) (band : Fin kEgressBands) (cause : DropCause) :
    let r' := r.recordDrop hash band cause
    (r'.topics hash).isSome = true ∧ (∀ other, r'.subscribersOf other = r.subscribersOf other) ∧
      (∀ b c, (r.entryAt hash).drops b c ≤ (r'.entryAt hash).drops b c) ∧
      (cause ≠ .none → (r'.entryAt hash).drops band cause = (r.entryAt hash).drops band cause + 1) := by
  obtain ⟨e, he⟩ := Option.isSome_iff_exists.mp hknown
  unfold recordDrop
  by_cases hcause : cause = .none
  · rw [if_pos hcause]
    exact ⟨hknown, fun _ => rfl, fun _ _ => le_rfl, fun hne => absurd hcause hne⟩
  rw [if_neg hcause, he]
  dsimp only
  have hentry : (r.setEntry hash (e.bumpBandDrop band cause)).entryAt hash = e.bumpBandDrop band cause := by
    simp [entryAt]
  have hold : r.entryAt hash = e := by simp [entryAt, he]
  refine ⟨by simp, fun other => ?_, fun b c => ?_, fun _ => ?_⟩
  · rcases eq_or_ne other hash with rfl | hne
    · rw [subscribersOf, subscribersOf, hentry, hold]
      rfl
    · simp [subscribersOf, entryAt, topics_setEntry_of_ne _ _ hne]
  · rw [hentry, hold, TopicEntry.bumpBandDrop]
    rcases eq_or_ne b band with rfl | hb
    · rcases eq_or_ne c cause with rfl | hc
      · simp
      · simp [update_of_ne hc]
    · simp [update_of_ne hb]
  · rw [hentry, hold, TopicEntry.bumpBandDrop]
    simp

namespace MessageForwarder

def copies (f : MessageForwarder) (w : World) (key : Nat) (frame : Bytes) : Nat :=
  f.egress.copies w key frame

variable (f : MessageForwarder)

/-- The drops of a topic, by band and cause. -/
def dropsOf (hash : UInt64) : Fin kEgressBands → DropCause → Nat :=
  (f.registry.entryAt hash).drops

/-- Where a frame of this size goes on its way to a subscriber. -/
def route (fqn : Text) (size : Nat) (sub : RegistrySubscriber) : Channel :=
  (f.companionRoute sub.nodeName fqn size).getD sub.channel

/-- The channels a frame of this size is fanned out to. -/
def lanes (f : MessageForwarder) (fqn : Text) (qos : TopicQos) (size : Nat)
    (subs : List RegistrySubscriber) : List Nat :=
  (subs.filter fun sub => Locality.anySet qos.reach sub.tier).map fun sub => (f.route fqn size sub).key

/-- Between two states `framed` was put on `lanes`; a lane that shed it shows in the drops of the
topic. -/
structure Fanned (hash : UInt64) (framed : Bytes) (fw fw' : MessageForwarder × World)
    (lanes : List Nat) : Prop where
  route_eq : fw'.1.companionRoute = fw.1.companionRoute
  known : (fw'.1.registry.topics hash).isSome = (fw.1.registry.topics hash).isSome
  subscribers : ∀ other, fw'.1.registry.subscribersOf other = fw.1.registry.subscribersOf other
  drops_le : ∀ band cause, fw.1.dropsOf hash band cause ≤ fw'.1.dropsOf hash band cause
  copies_le : ∀ key, fw'.1.copies fw'.2 key framed ≤ fw.1.copies fw.2 key framed + lanes.count key
  copies_eq : fw'.1.dropsOf hash = fw.1.dropsOf hash →
    ∀ key, fw'.1.copies fw'.2 key framed = fw.1.copies fw.2 key framed + lanes.count key

section Fan

variable {hash : UInt64} {framed : Bytes} {fw fw' fw'' : MessageForwarder × World}
  {lanes lanes' : List Nat}

theorem Fanned.refl : Fanned hash framed fw fw [] :=
  ⟨rfl, rfl, fun _ => rfl, fun _ _ => le_rfl, fun _ => le_rfl, fun _ _ => rfl⟩

theorem Fanned.trans (h : Fanned hash framed fw fw' lanes) (h' : Fanned hash framed fw' fw'' lanes') :
    Fanned hash framed fw fw'' (lanes ++ lanes') where
  route_eq := h'.route_eq.trans h.route_eq
  known := h'.known.trans h.known
  subscribers := fun other => (h'.subscribers other).trans (h.subscribers other)
  drops_le := fun band cause => (h.drops_le band cause).trans (h'.drops_le band cause)
  copies_le := fun key => by
    have := h.copies_le key
    have := h'.copies_le key
    rw [count_append]
    omega
  copies_eq := fun hdrops key => by
    -- nothing was dropped in the end, so nothing was dropped on the way
    have hmid : fw'.1.dropsOf hash = fw.1.dropsOf hash := by
      funext band cause
      apply le_antisymm
      · exact (h'.drops_le band cause).trans (congrFun (congrFun hdrops band) cause).le
      · exact h.drops_le band cause
    rw [h'.copies_eq (hdrops.trans hmid.symm) key, h.copies_eq hmid key, count_append, add_assoc]

theorem Fanned.of_fields {gw : MessageForwarder × World} (h : Fanned hash framed fw fw' lanes)
    (hregistry : gw.1.registry = fw'.1.registry) (hegress : gw.1.egress = fw'.1.egress)
    (hroute : gw.1.companionRoute = fw'.1.companionRoute) (hsent : gw.2.sent = fw'.2.sent) :
    Fanned hash framed fw gw lanes := by
  have hdrops : gw.1.dropsOf hash = fw'.1.dropsOf hash := by rw [dropsOf, dropsOf, hregistry]
  have hcopies : ∀ key, gw.1.copies gw.2 key framed = fw'.1.copies fw'.2 key framed := by
    intro key
    simp only [copies, EgressScheduler.copies, World.sentOn, hegress, hsent]
  refine ⟨hroute.trans h.route_eq, ?_, ?_, ?_, ?_, ?_⟩
  · rw [hregistry]
    exact h.known
  · rw [hregistry]
    exact h.subscribers
  · rw [hdrops]
    exact h.drops_le
  · intro key
    rw [hcopies]
    exact h.copies_le key
  · intro hsame key
    rw [hcopies]
    exact h.copies_eq (hdrops.symm.trans hsame) key

variable {fqn : Text} {qos : TopicQos}

/-- **One round of the fan-out.** -/
theorem fanned_fanOne (hknown : (fw.1.registry.topics hash).isSome) (sub : RegistrySubscriber) :
    Fanned hash framed fw (fanOne hash fqn qos framed fw sub)
      (fw.1.lanes fqn qos framed.length [sub]) := by
  unfold fanOne
  by_cases hreach : Locality.anySet qos.reach sub.tier = true
  · have hcopies := EgressScheduler.copies_enqueue fw.1.egress fw.2 (fw.1.route fqn framed.length sub)
      (bandOf qos.priority) qos.congestion framed
    have hlanes : ∀ key, (fw.1.lanes fqn qos framed.length [sub]).count key =
        if key = (fw.1.route fqn framed.length sub).key then 1 else 0 := by
      intro key
      have hlane : fw.1.lanes fqn qos framed.length [sub] = [(fw.1.route fqn framed.length sub).key] := by
        simp [MessageForwarder.lanes, hreach]
      rw [hlane, count_singleton]
      exact if_congr (by rw [beq_iff_eq, eq_comm]) rfl rfl
    rw [hreach]
    simp only [Bool.not_true, Bool.false_eq_true, if_false]
    rw [show (fw.1.companionRoute sub.nodeName fqn framed.length).getD sub.channel =
      fw.1.route fqn framed.length sub from rfl]
    generalize fw.1.egress.enqueue fw.2 (fw.1.route fqn framed.length sub) (bandOf qos.priority)
      qos.congestion framed = r at hcopies ⊢
    obtain ⟨cause, egress, w⟩ := r
    obtain ⟨hknown', hsubs, hle, hcount⟩ :=
      fw.1.registry.recordDrop_spec hknown (bandOf qos.priority) cause
    refine ⟨rfl, hknown'.trans hknown.symm, hsubs, hle, fun key => ?_, fun hdrops key => ?_⟩
    · rw [hlanes]
      exact (hcopies key).1
    rw [hlanes]
    refine (hcopies key).2 ?_
    by_contra hcause
    have hmore := hcount hcause
    have hsame := congrFun (congrFun hdrops (bandOf qos.priority)) cause
    simp only [dropsOf] at hsame
    omega
  · have hnone : fw.1.lanes fqn qos framed.length [sub] = [] := by
      simp [MessageForwarder.lanes, hreach]
    rw [hnone]
    simp only [hreach]
    exact .refl

theorem fanned_fanPublished (subs : List RegistrySubscriber)
    (hknown : (fw.1.registry.topics hash).isSome) :
    Fanned hash framed fw (fw.1.fanPublished fw.2 subs hash fqn qos framed)
      (fw.1.lanes fqn qos framed.length subs) := by
  induction subs generalizing fw with
  | nil => exact .refl
  | cons sub subs ih =>
    have hone : Fanned hash framed fw (fanOne hash fqn qos framed fw sub) _ := fanned_fanOne hknown sub
    have hrest := ih (hone.known.trans hknown)
    have hlanes : fw.1.lanes fqn qos framed.length (sub :: subs) =
        fw.1.lanes fqn qos framed.length [sub] ++
          (fanOne hash fqn qos framed fw sub).1.lanes fqn qos framed.length subs := by
      simp only [MessageForwarder.lanes, MessageForwarder.route, hone.route_eq, ← map_append,
        ← filter_append, singleton_append]
    rw [hlanes]
    exact hone.trans hrest

end Fan

/-- Framing takes a number and reads the clock. -/
theorem fanned_framePublish (w : World) (hash : UInt64) (payload : Bytes)
    (counter : Option UInt64) (sessionId : UInt64) (framed : Bytes) :
    Fanned hash framed (f, w) (f.framePublish w hash payload counter sessionId).2 [] :=
  Fanned.refl.of_fields rfl rfl rfl rfl

theorem fields_retainIfLatched {f g : MessageForwarder} {hash : UInt64} {qos : TopicQos}
    {framed : Bytes} (h : f.retainIfLatched hash qos framed = some g) :
    g.registry = f.registry ∧ g.egress = f.egress ∧ g.companionRoute = f.companionRoute := by
  unfold retainIfLatched at h
  split at h
  · obtain rfl := Option.some.inj h
    exact ⟨rfl, rfl, rfl⟩
  split at h
  · cases h
  · obtain rfl := Option.some.inj h
    exact ⟨rfl, rfl, rfl⟩

/-- **A publish** puts its frame once on the lane of every subscriber in reach. -/
theorem fanned_publish {f f' : MessageForwarder} {w w' : World} {fqn : Text} {payload : Bytes}
    {sessionId : UInt64} (h : f.publish w fqn payload sessionId = some (f', w')) :
    Fanned (fqnTopicHash fqn) (f.nextFrame w fqn payload sessionId) (f, w) (f', w')
      (f.lanes fqn (f.registry.qosFor (fqnTopicHash fqn)) (f.nextFrame w fqn payload sessionId).length
        (f.registry.subscribersOf (fqnTopicHash fqn))) := by
  unfold publish at h
  cases htopic : f.registry.topics (fqnTopicHash fqn) with
  | none =>
    have hnone : f.registry.subscribersOf (fqnTopicHash fqn) = [] := by
      simp [subscribersOf, entryAt, htopic]
    simp only [htopic] at h
    obtain ⟨rfl, rfl⟩ := h
    rw [hnone]
    exact .refl
  | some topic =>
    have hentry : f.registry.entryAt (fqnTopicHash fqn) = topic := by
      simp [entryAt, htopic]
    simp only [htopic] at h
    split at h
    · rename_i hidle
      have hnone : f.registry.subscribersOf (fqnTopicHash fqn) = [] := by
        rw [Bool.and_eq_true, List.isEmpty_iff] at hidle
        rw [subscribersOf, hentry]
        exact hidle.1
      obtain ⟨rfl, rfl⟩ := h
      rw [hnone]
      exact .refl
    obtain ⟨g, hretain, hg⟩ := Option.map_eq_some_iff.mp h
    obtain ⟨rfl, rfl⟩ := Prod.mk.inj hg
    obtain ⟨hregistry, hegress, hroute⟩ := fields_retainIfLatched hretain
    have hknown : (f.registry.topics (fqnTopicHash fqn)).isSome := by rw [htopic]; rfl
    rw [subscribersOf, qosFor_eq, nextFrame, hentry]
    generalize (if topic.emitSourceIdentity = true then topic.endpointCounter else none) = counter at *
    have hstart := f.fanned_framePublish w (fqnTopicHash fqn) payload counter sessionId
      (f.framePublish w (fqnTopicHash fqn) payload counter sessionId).1
    exact (hstart.trans (fanned_fanPublished topic.subscribers hknown)).of_fields hregistry hegress
      hroute rfl

end MessageForwarder

end Plexus.Io
