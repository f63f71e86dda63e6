/-
# Plexus.Io.LatchedHistory — what the retained history of a latched topic holds along a run.

A run is any sequence of declarations and publishes on one forwarder. For each topic it also carries
the frames published while the topic was latched, and how many of them the forwarder may keep: one
more at each publish, cut to the bound in force.

`latched_history_is_tail`: in every run whose resizes are harmless the ring of every topic holds the
last `kept` frames in publish order, and so does what a late joiner or a fetch is sent. Other
resizes change the modulus under a live write position (`redeclared_history_breaks`).
-/
import Plexus.Io.MessageForwarder
import Plexus.Lib.Run

namespace Plexus.Io

open Wire Lib Function MessageForwarder List

/-! ## Tails -/

theorem length_rtake {α : Type*} (l : List α) (n : Nat) : (l.rtake n).length = min n l.length := by
  rw [rtake, length_drop]
  omega

theorem rtake_rtake {α : Type*} (l : List α) (m n : Nat) :
    (l.rtake m).rtake n = l.rtake (min n m) := by
  simp only [rtake_eq_reverse_take_reverse, reverse_reverse, take_take]

theorem rtake_concat {α : Type*} (l : List α) (x : α) (k : Nat) {bound : Nat} (hpos : 0 < bound) :
    (l.rtake k ++ [x]).rtake bound = (l ++ [x]).rtake (min (k + 1) bound) := by
  obtain ⟨b, rfl⟩ : ∃ b, bound = b + 1 := ⟨bound - 1, by omega⟩
  have hmin : min (k + 1) (b + 1) = min b k + 1 := by omega
  rw [rtake_concat_succ, rtake_rtake, hmin, rtake_concat_succ]

namespace HistoryRing

variable {α : Type*} {r : HistoryRing α} {xs : List α}

theorem Layout.map_range' (h : r.Layout xs) (d : α) (limit : Nat) (hlimit : limit ≤ r.count) :
    (range' (r.count - limit) limit).map (fun i => (r.oldestToNewest i).getD d) =
      xs.rtake limit := by
  have hcount := h.count_eq
  induction limit with
  | zero => simp
  | succ limit ih =>
    have hget := h.get (r.count - (limit + 1)) (by omega)
    have hlt : xs.length - (limit + 1) < xs.length := by omega
    rw [hcount, getElem?_eq_getElem hlt] at hget
    rw [range'_succ, map_cons, hcount, hget, Option.getD_some]
    have hstep : xs.length - (limit + 1) + 1 = xs.length - limit := by omega
    rw [hcount] at ih
    rw [hstep, ih (by omega), rtake, rtake, drop_eq_getElem_cons hlt, hstep]

end HistoryRing

/-! ## What the forwarder's operations do to the rings -/

variable {f : MessageForwarder} {s : LatchRun}

namespace MessageForwarder

/-- The ring of a topic, as `m_retained[hash]` would mint it. -/
def ringOf (f : MessageForwarder) (hash : UInt64) : HistoryRing Bytes :=
  (f.retained hash).getD {}

@[simp] theorem retained_fanOne (hash : UInt64) (fqn : Text) (qos : TopicQos) (framed : Bytes)
    (fw : MessageForwarder × World) (sub : RegistrySubscriber) :
    (fanOne hash fqn qos framed fw sub).1.retained = fw.1.retained := by
  unfold fanOne
  split <;> rfl

@[simp] theorem retained_fanPublished (f : MessageForwarder) (w : World)
    (subs : List RegistrySubscriber) (hash : UInt64) (fqn : Text) (qos : TopicQos)
    (framed : Bytes) :
    (f.fanPublished w subs hash fqn qos framed).1.retained = f.retained := by
  unfold fanPublished
  induction subs generalizing f w with
  | nil => rfl
  | cons sub subs ih =>
    rw [foldl_cons, ih]
    exact retained_fanOne hash fqn qos framed (f, w) sub

theorem publish_unlatched {fqn : Text} (h : (f.registry.qosFor (fqnTopicHash fqn)).latch = false)
    (w : World) (payload : Bytes) (sessionId : UInt64) :
    ∃ f' w', f.publish w fqn payload sessionId = some (f', w') ∧ f'.retained = f.retained := by
  cases htopic : f.registry.topics (fqnTopicHash fqn) with
  | none => exact ⟨f, w, by simp only [publish, htopic], rfl⟩
  | some topic =>
    have hlatch : topic.qos.latch = false := by
      simpa [SubscriberRegistry.qosFor, htopic] using h
    simp only [publish, htopic, hlatch, retainIfLatched]
    split
    · exact ⟨f, w, rfl, rfl⟩
    · refine ⟨_, _, rfl, ?_⟩
      rw [retained_fanPublished]
      rfl

theorem publish_latched {fqn : Text}
    (h : (f.registry.qosFor (fqnTopicHash fqn)).latch) (w : World) (payload : Bytes)
    (sessionId : UInt64) {ring : HistoryRing Bytes}
    (hring : (f.ringOf (fqnTopicHash fqn)).retain
      (retainedBound (f.registry.qosFor (fqnTopicHash fqn)))
      (f.nextFrame w fqn payload sessionId) = some ring) :
    ∃ f' w', f.publish w fqn payload sessionId = some (f', w') ∧
      f'.retained = update f.retained (fqnTopicHash fqn) (some ring) := by
  cases htopic : f.registry.topics (fqnTopicHash fqn) with
  | none => simp [SubscriberRegistry.qosFor, htopic] at h
  | some topic =>
    have hqos : f.registry.qosFor (fqnTopicHash fqn) = topic.qos := by
      simp [SubscriberRegistry.qosFor, htopic]
    rw [hqos] at h hring
    have hentry : f.registry.entryAt (fqnTopicHash fqn) = topic := by
      simp [SubscriberRegistry.entryAt, htopic]
    rw [nextFrame, hentry] at hring
    simp only [publish, htopic, h, Bool.not_true, Bool.and_false,
      retainIfLatched, retained_fanPublished]
    have hkeep : (f.framePublish w (fqnTopicHash fqn) payload
        (if topic.emitSourceIdentity then topic.endpointCounter else none) sessionId).2.1.retained =
        f.retained := rfl
    rw [ringOf] at hring
    rw [hkeep, hring]
    exact ⟨_, _, rfl, rfl⟩

end MessageForwarder

/-! ## Runs of declarations and publishes -/

inductive LatchEvent
  | declare (fqn : Text) (qos : TopicQos) (producerTypeId : Option UInt64)
      (emitSourceIdentity : Bool)
  | publish (fqn : Text) (payload : Bytes) (sessionId : UInt64)

structure LatchRun where
  fwd : MessageForwarder
  world : World
  /-- Ghost: the frames of a topic that were published while it was latched. -/
  published : UInt64 → List Bytes := fun _ => []
  /-- Ghost: how many of them the declarations in force at each publish let the forwarder keep. -/
  kept : UInt64 → Nat := fun _ => 0

namespace LatchRun

def start (f : MessageForwarder) (w : World) : LatchRun := { fwd := f, world := w }

/-- The declaration in force. -/
def qosOf (s : LatchRun) (fqn : Text) : TopicQos := s.fwd.registry.qosFor (fqnTopicHash fqn)

/-- The ghosts' account of one publish. -/
def notePublished (s : LatchRun) (fqn : Text) (payload : Bytes) (sessionId : UInt64) :
    LatchRun :=
  let hash := fqnTopicHash fqn
  if (s.qosOf fqn).latch then
    { s with
      published := update s.published hash
        (s.published hash ++ [s.fwd.nextFrame s.world fqn payload sessionId])
      kept := update s.kept hash (min (s.kept hash + 1) (retainedBound (s.qosOf fqn))) }
  else s

/-- `none` is a run that has written outside the slots of a ring. -/
def step : Option LatchRun → LatchEvent → Option LatchRun
  | none, _ => none
  | some s, .declare fqn qos producerTypeId emitSourceIdentity =>
    some { s with fwd := s.fwd.declare fqn qos producerTypeId emitSourceIdentity }
  | some s, .publish fqn payload sessionId =>
    (s.fwd.publish s.world fqn payload sessionId).map fun fw =>
      { s.notePublished fqn payload sessionId with fwd := fw.1, world := fw.2 }

def run (f : MessageForwarder) (w : World) (es : List LatchEvent) : Option LatchRun :=
  es.foldl step (some (start f w))

/-- The ring of the topic is at the bound already, or not wrapped and with room for its frames, or
full and cut exactly behind its write position. -/
def ResizeHarmless : Option LatchRun → LatchEvent → Prop
  | some s, .publish fqn _ _ =>
    (s.qosOf fqn).latch = true →
      (s.fwd.ringOf (fqnTopicHash fqn)).ResizeSafe (retainedBound (s.qosOf fqn))
  | _, _ => True

instance (s : Option LatchRun) (e : LatchEvent) : Decidable (ResizeHarmless s e) :=
  match s, e with
  | none, _ => isTrue (by cases e <;> trivial)
  | some _, .declare .. => isTrue trivial
  | some _, .publish .. => inferInstanceAs (Decidable (_ → _))

/-- The ring of a topic is laid out as the ghosts say. -/
structure Held (s : LatchRun) (hash : UInt64) : Prop where
  kept_le : s.kept hash ≤ (s.published hash).length
  kept_pos : s.published hash ≠ [] → 0 < s.kept hash
  layout : (s.fwd.ringOf hash).Layout ((s.published hash).rtake (s.kept hash))

/-- The run has stayed inside the slots, and every ring is laid out. -/
def Inv (s : Option LatchRun) : Prop := ∃ t, s = some t ∧ ∀ hash, t.Held hash

theorem retainedBound_pos (qos : TopicQos) : 0 < retainedBound qos := by
  simp only [retainedBound, kHistoryDepthCap]
  omega

theorem inv_start (hfresh : ∀ hash, f.retained hash = none) (w : World) :
    Inv (some (start f w)) := by
  refine ⟨_, rfl, fun hash => ⟨Nat.zero_le _, fun h => absurd rfl h, ?_⟩⟩
  have hring : f.ringOf hash = {} := by
    rw [ringOf, hfresh, Option.getD_none]
  show (f.ringOf hash).Layout []
  rw [hring]
  exact HistoryRing.layout_fresh

theorem inv_publish (h : ∀ hash, s.Held hash) {fqn : Text} {payload : Bytes}
    {sessionId : UInt64} (hsafe : ResizeHarmless (some s) (.publish fqn payload sessionId)) :
    Inv (step (some s) (.publish fqn payload sessionId)) := by
  cases hlatch : (s.qosOf fqn).latch with
  | false =>
    obtain ⟨f', w', hpub, hret⟩ := publish_unlatched hlatch s.world payload sessionId
    refine ⟨_, by rw [step, hpub, Option.map_some], fun hash => ?_⟩
    have hring : f'.ringOf hash = s.fwd.ringOf hash := by
      simp only [ringOf, hret]
    obtain ⟨hle, hpos, hlayout⟩ := h hash
    rw [← hring] at hlayout
    simp only [notePublished, hlatch]
    exact ⟨hle, hpos, hlayout⟩
  | true =>
    have hheld := h (fqnTopicHash fqn)
    obtain ⟨ring, hretain, -, hnew⟩ := hheld.layout.retain (retainedBound_pos _) (hsafe hlatch)
      (s.fwd.nextFrame s.world fqn payload sessionId)
    obtain ⟨f', w', hpub, hret⟩ := publish_latched hlatch s.world payload sessionId hretain
    refine ⟨_, by rw [step, hpub, Option.map_some], fun hash => ?_⟩
    have hbound := retainedBound_pos (s.qosOf fqn)
    have hle := hheld.kept_le
    simp only [notePublished, hlatch, if_true]
    -- the published topic gets the new tail, every other one keeps its own
    rcases eq_or_ne hash (fqnTopicHash fqn) with rfl | hne
    · rw [rtake_concat _ _ _ (retainedBound_pos _)] at hnew
      refine ⟨?_, fun _ => ?_, ?_⟩
      · simp only [update_self, length_append, length_singleton]
        omega
      · simp only [update_self]
        omega
      · simp only [ringOf, hret, update_self]
        exact hnew
    · obtain ⟨hle', hpos', hlayout'⟩ := h hash
      refine ⟨?_, ?_, ?_⟩
      · simpa only [update_of_ne hne] using hle'
      · simpa only [update_of_ne hne] using hpos'
      · simpa only [ringOf, hret, update_of_ne hne] using hlayout'

theorem inv_step (s : Option LatchRun) (e : LatchEvent) (h : Inv s) (hsafe : ResizeHarmless s e) :
    Inv (step s e) := by
  obtain ⟨t, rfl, hheld⟩ := h
  cases e with
  | declare fqn qos producerTypeId emitSourceIdentity =>
    exact ⟨_, rfl, fun hash => ⟨(hheld hash).kept_le, (hheld hash).kept_pos, (hheld hash).layout⟩⟩
  | publish fqn payload sessionId => exact inv_publish hheld hsafe

end LatchRun

/-! ## What a late joiner and a fetch are sent -/

namespace MessageForwarder

@[simp] theorem sent_sendAll (w : World) (ch : Channel) (frames : List Bytes) :
    (sendAll w ch frames).sent = w.sent ++ frames.map (Prod.mk ch) := by
  unfold sendAll
  induction frames generalizing w with
  | nil => simp
  | cons frame frames ih => simp [ih]

/-- The replays go by the ring whether or not it has been minted: an absent ring is an empty one. -/
theorem history_eq (f : MessageForwarder) (hash : UInt64) :
    f.history hash = if (f.ringOf hash).count = 0 then none else some (f.ringOf hash) := by
  unfold history ringOf
  cases f.retained hash with
  | none => rfl
  | some ring => simp [Option.filter, HistoryRing.empty]

end MessageForwarder

namespace LatchRun

/-- The last frames a subscriber's durability entitles it to. -/
def joinTail (s : LatchRun) (hash : UInt64) (sub : SubscriberQos) : List Bytes :=
  if sub.durabilityMode = Durability.latest then (s.published hash).rtake 1
  else if sub.durabilityMode = Durability.all then
    (s.published hash).rtake
      (if sub.replayDepth ≠ 0 then min (s.kept hash) sub.replayDepth.toNat else s.kept hash)
  else []

/-- **The retained history of a topic is the tail of what was published on it**: the last `kept`
frames in publish order, and a late joiner and a fetch are sent the last of them. -/
structure TailHeld (s : LatchRun) (hash : UInt64) : Prop where
  kept_le : s.kept hash ≤ (s.published hash).length
  count_eq : (s.fwd.ringOf hash).count = s.kept hash
  oldest_to_newest : ∀ i < s.kept hash,
    (s.fwd.ringOf hash).oldestToNewest i = ((s.published hash).rtake (s.kept hash))[i]?
  newest : s.published hash ≠ [] → (s.fwd.ringOf hash).newest = (s.published hash).getLast?
  join : ∀ w p, (s.fwd.registry.qosFor hash).latch = true →
    (s.fwd.replayIfLatched w p hash).sent = w.sent ++
      (s.joinTail hash (s.fwd.registry.qosForSubscriber hash p.channel)).map (Prod.mk p.channel)
  fetch : ∀ w p maxSamples,
    (s.fwd.fetchLatched w p hash maxSamples).sent = w.sent ++
      ((s.published hash).rtake (min (min maxSamples.toNat (s.kept hash)) kFetchCap)).map
        (Prod.mk p.channel)

theorem rtake_one {α : Type*} {l : List α} (hne : l ≠ []) (d : α) :
    l.rtake 1 = [l.getLast?.getD d] := by
  rcases eq_nil_or_concat l with rfl | ⟨xs, x, rfl⟩
  · exact absurd rfl hne
  · simp

theorem getLast?_rtake {α : Type*} (l : List α) {k : Nat} (hk : 0 < k) :
    (l.rtake k).getLast? = l.getLast? := by
  rcases eq_nil_or_concat l with rfl | ⟨xs, x, rfl⟩
  · simp
  · obtain ⟨k, rfl⟩ : ∃ j, k = j + 1 := ⟨k - 1, by omega⟩
    simp

variable {hash : UInt64}

theorem Held.count_eq (h : s.Held hash) : (s.fwd.ringOf hash).count = s.kept hash := by
  rw [h.layout.count_eq, length_rtake, Nat.min_eq_left h.kept_le]

theorem Held.newest (h : s.Held hash) (hne : s.published hash ≠ []) :
    (s.fwd.ringOf hash).newest = (s.published hash).getLast? := by
  have hpos := h.kept_pos hne
  have hlen := h.layout.count_eq
  rw [h.count_eq] at hlen
  rw [h.layout.newest (length_pos_iff.mp (by omega)), getLast?_rtake _ hpos]

theorem Held.replayWindow (h : s.Held hash) {limit : Nat} (hlimit : limit ≤ s.kept hash) :
    replayWindow (s.fwd.ringOf hash) limit = (s.published hash).rtake limit := by
  have hread := h.layout.map_range' [] limit (by rw [h.count_eq]; exact hlimit)
  rw [rtake_rtake, Nat.min_eq_left hlimit] at hread
  exact hread

theorem Held.replayFor (h : s.Held hash) (hne : s.published hash ≠ []) (sub : SubscriberQos) :
    MessageForwarder.replayFor (s.fwd.ringOf hash) sub = s.joinTail hash sub := by
  unfold MessageForwarder.replayFor joinTail
  rw [h.newest hne, rtake_one hne [], h.count_eq]
  split
  · rfl
  split
  · apply h.replayWindow
    split
    · exact Nat.min_le_left _ _
    · exact le_rfl
  · rfl

theorem joinTail_of_unpublished (h : s.published hash = []) (sub : SubscriberQos) :
    s.joinTail hash sub = [] := by
  simp [joinTail, h]

theorem Held.tailHeld (h : s.Held hash) : s.TailHeld hash := by
  have hempty : (s.fwd.ringOf hash).count = 0 ↔ s.published hash = [] := by
    rw [h.count_eq]
    constructor
    · intro hzero
      by_contra hne
      exact absurd (h.kept_pos hne) (by omega)
    intro hnil
    have := h.kept_le
    rw [hnil, length_nil] at this
    omega
  refine ⟨h.kept_le, h.count_eq, fun i hi => ?_, h.newest, fun w p hlatch => ?_, fun w p n => ?_⟩
  · exact h.layout.get i (by rw [length_rtake]; have := h.kept_le; omega)
  · simp only [replayIfLatched, hlatch, history_eq, hempty,
      Bool.not_true, Bool.false_eq_true, if_false]
    by_cases hnil : s.published hash = []
    · rw [if_pos hnil, joinTail_of_unpublished hnil]
      simp
    · rw [if_neg hnil, sent_sendAll, h.replayFor hnil]
  · simp only [fetchLatched, history_eq, hempty]
    by_cases hnil : s.published hash = []
    · simp [hnil]
    · rw [if_neg hnil, sent_sendAll, h.count_eq, h.replayWindow (by omega)]

/-- **In every run whose resizes are harmless** no ring is indexed outside its slots and the history
of every topic is its tail. -/
theorem latched_history_is_tail {f : MessageForwarder} (hfresh : ∀ hash, f.retained hash = none)
    (w : World) {es : List LatchEvent}
    (hsafe : Guarded step ResizeHarmless (some (start f w)) es) :
    ∃ s, run f w es = some s ∧ ∀ hash, s.TailHeld hash := by
  obtain ⟨s, hrun, hheld⟩ := hsafe.invariant Inv inv_step (inv_start hfresh w)
  exact ⟨s, hrun, fun hash => (hheld hash).tailHeld⟩

/-- The topic `t` declared latched, with this depth. -/
def latchedAt (depth : UInt32) : LatchEvent := .declare [0x74] { latch := true, depth } none false

/-- A harmless re-declaration: the depth shrinks while the ring has not wrapped and still has room,
and the ring wraps afterwards. -/
def harmlessRun : List LatchEvent :=
  [latchedAt 4, .publish [0x74] [1] 0, latchedAt 2, .publish [0x74] [2] 0, .publish [0x74] [3] 0]

theorem latched_history_is_tail_redeclared :
    Guarded step ResizeHarmless (some (start {} World.quiet)) harmlessRun ∧
      ∃ s, run {} World.quiet harmlessRun = some s ∧ ∀ hash, s.TailHeld hash := by
  have hsafe : Guarded step ResizeHarmless (some (start {} .quiet)) harmlessRun :=
    ⟨by decide, by decide, by decide, by decide, by decide, trivial⟩
  exact ⟨hsafe, latched_history_is_tail (fun _ => rfl) .quiet hsafe⟩

/-- The history of the one topic of a run, as `count()` and `oldest_to_newest(0)` show it. -/
def historyAfter (es : List LatchEvent) : Option (Nat × Option Bytes) :=
  (run {} World.quiet es).map fun s =>
    let ring := s.fwd.ringOf (fqnTopicHash [0x74])
    (ring.count, ring.oldestToNewest 0)

/-- The topic declared with this depth, and three messages. -/
def threeAt (depth : UInt32) : List LatchEvent :=
  [latchedAt depth, .publish [0x74] [1] 0, .publish [0x74] [2] 0, .publish [0x74] [3] 0]

/-- A smaller depth leaves the larger history standing until the next publish; a cut below the write
position makes that publish write outside the slots; growing a wrapped ring puts a slot that was
never written in front. -/
theorem redeclared_history_breaks :
    (historyAfter (threeAt 4 ++ [latchedAt 2])).map Prod.fst = some 3 ∧
    historyAfter (threeAt 4 ++ [latchedAt 2, .publish [0x74] [4] 0]) = none ∧
    historyAfter (threeAt 2 ++ [latchedAt 3, .publish [0x74] [4] 0]) = some (3, some []) := by
  decide +kernel

end LatchRun

end Plexus.Io
