/-
# Plexus.Io.EgressScheduler — the priority bands between the publish fan-out and a channel.

`io/detail/priority_band_queue.h` and `io/detail/egress_scheduler.h`. Every destination has four
bands of at most 256 frames; an enqueue applies the topic's congestion policy to its band and
drains, highest band first, while the channel has room for the frame at the front. A band, a ring of
slots in the source, is the list of frames it holds.

What `backpressured()` answers is a stream of readings the world supplies, one for each call, so
every behaviour of a channel is covered; what a channel is handed is a log.
-/
import Mathlib.Data.List.Basic
import Plexus.Io.Qos

namespace Plexus.Io

open Wire Function

/-! ## Channels and the world they live in -/

/-- A byte channel. `key` is `scheduler_key()`, minted per construction, and stands for the
object's identity as well; `polls` says whether it exposes `backpressured()`, `lowWater` is
`low_water_of`. -/
structure Channel where
  key : Nat
  scheme : Text
  polls : Bool
  lowWater : Nat
  deriving DecidableEq

/-- What lies outside the node: the answers `backpressured()` and `now_timestamp_ns()` will give,
call by call, and what has been handed to the channels so far. -/
structure World where
  readings : Nat → Nat
  clock : Nat → UInt64
  sent : List (Channel × Bytes)

namespace World

/-- Idle channels and a clock at zero. -/
def quiet : World := { readings := fun _ => 0, clock := fun _ => 0, sent := [] }

variable (w : World)

def send (ch : Channel) (frame : Bytes) : World :=
  { w with sent := w.sent ++ [(ch, frame)] }

def backpressured : Nat × World :=
  (w.readings 0, { w with readings := fun n => w.readings (n + 1) })

def nowTimestampNs : UInt64 × World :=
  (w.clock 0, { w with clock := fun n => w.clock (n + 1) })

/-- What has been handed to one channel, in order. -/
def sentTo (ch : Channel) : List Bytes :=
  (w.sent.filter (fun e => e.1 = ch)).map Prod.snd

@[simp] theorem sent_send (ch : Channel) (frame : Bytes) :
    (w.send ch frame).sent = w.sent ++ [(ch, frame)] := rfl

@[simp] theorem sent_backpressured : w.backpressured.2.sent = w.sent := rfl

@[simp] theorem sent_nowTimestampNs : w.nowTimestampNs.2.sent = w.sent := rfl

end World

/-! ## `io/detail/priority_band_queue.h` -/

def kEgressBands : Nat := 4
def kBandDepth : Nat := 256

inductive DropCause
  | none | dropOldest | dropNewest | blocked
  deriving DecidableEq

/-- `band_of`: realtime is band 0, background band 3. -/
def bandOf (p : Priority) : Fin kEgressBands :=
  ⟨min (kEgressBands - 1 - p.toNat) (kEgressBands - 1), by simp only [kEgressBands]; omega⟩

/-- The frames of one priority, and its counters. -/
structure Band where
  frames : List Bytes := []
  droppedOldest : Nat := 0
  droppedNewest : Nat := 0
  blocked : Nat := 0
  deriving DecidableEq

namespace Band

def empty (b : Band) : Bool := b.frames.isEmpty

def pop (b : Band) : Band := { b with frames := b.frames.tail }

def evictOldestOrRefuseCause (b : Band) : Congestion → DropCause × Band
  | .block => (.blocked, { b with blocked := b.blocked + 1 })
  | .dropNewest => (.dropNewest, { b with droppedNewest := b.droppedNewest + 1 })
  | .dropOldest => (.dropOldest, { b.pop with droppedOldest := b.droppedOldest + 1 })

def pushWithVerdict (b : Band) (congestion : Congestion) (frame : Bytes) : DropCause × Band :=
  let (cause, b) :=
    if b.frames.length = kBandDepth then b.evictOldestOrRefuseCause congestion else (.none, b)
  if cause = .dropNewest ∨ cause = .blocked then (cause, b)
  else (cause, { b with frames := b.frames ++ [frame] })

end Band

structure PriorityBandQueue where
  bands : Fin kEgressBands → Band := fun _ => {}

namespace PriorityBandQueue

variable (q : PriorityBandQueue)

/-- The highest non-empty band: the first in index order. -/
def highest : Option (Fin kEgressBands) :=
  (List.finRange kEgressBands).find? (fun i => !(q.bands i).empty)

def frontHighest : Option Bytes :=
  q.highest.bind (fun i => (q.bands i).frames.head?)

def popHighest : PriorityBandQueue :=
  match q.highest with
  | none => q
  | some i => { bands := update q.bands i (q.bands i).pop }

def enqueueWithVerdict (band : Fin kEgressBands) (congestion : Congestion) (frame : Bytes) :
    DropCause × PriorityBandQueue :=
  let (cause, b) := (q.bands band).pushWithVerdict congestion frame
  (cause, { bands := update q.bands band b })

/-- Every resident frame in the order a drain hands them over. -/
def frames (q : PriorityBandQueue) : List Bytes :=
  (List.finRange kEgressBands).flatMap (fun i => (q.bands i).frames)

theorem sum_map_update {ι : Type*} [DecidableEq ι] (f : ι → Nat) {l : List ι} (hl : l.Nodup)
    {i : ι} (hi : i ∈ l) (v : Nat) :
    (l.map (update f i v)).sum + f i = (l.map f).sum + v := by
  induction l with
  | nil => cases hi
  | cons j l ih =>
    obtain ⟨hj, hl⟩ := List.nodup_cons.mp hl
    rw [List.map_cons, List.map_cons, List.sum_cons, List.sum_cons]
    rcases List.mem_cons.mp hi with rfl | hi
    · have hrest : l.map (update f i v) = l.map f :=
        List.map_congr_left fun k hk => update_of_ne (ne_of_mem_of_not_mem hk hj) _ _
      rw [hrest, update_self]
      omega
    · have hrest := ih hl hi
      rw [update_of_ne (ne_of_mem_of_not_mem hi hj).symm]
      omega

/-- Replacing one band changes a sum over the bands by what changes in it. -/
theorem sum_bands_update (band : Fin kEgressBands) (b : Band) (f : Band → Nat) :
    ((List.finRange kEgressBands).map fun i => f (update q.bands band b i)).sum + f (q.bands band) =
      ((List.finRange kEgressBands).map fun i => f (q.bands i)).sum + f b := by
  have hcomp : (fun i => f (update q.bands band b i)) = update (f ∘ q.bands) band (f b) :=
    comp_update ..
  rw [hcomp]
  exact sum_map_update _ (List.nodup_finRange _) (List.mem_finRange band) _

end PriorityBandQueue

/-! ## `io/detail/egress_scheduler.h` -/

structure EgressScheduler where
  queues : Nat → Option PriorityBandQueue := fun _ => none

namespace EgressScheduler

/-- `admits`: an idle channel takes a frame of any size, a busy one what stays within its low-water
gate. -/
def admits (ch : Channel) (occupancy size : Nat) : Bool :=
  occupancy = 0 || occupancy + size ≤ ch.lowWater

/-- The loop of `drain`; each round hands over one resident frame, so the number of resident frames
is fuel enough. -/
def drainLoop (ch : Channel) : Nat → PriorityBandQueue → World → PriorityBandQueue × World
  | 0, q, w => (q, w)
  | fuel + 1, q, w =>
    match q.frontHighest with
    | none => (q, w)
    | some node =>
      let (occupancy, w) := w.backpressured
      if admits ch occupancy node.length then drainLoop ch fuel q.popHighest (w.send ch node)
      else (q, w)

variable (s : EgressScheduler)

def queueOf (ch : Channel) : PriorityBandQueue :=
  (s.queues ch.key).getD {}

def drain (w : World) (ch : Channel) : EgressScheduler × World :=
  let q := s.queueOf ch
  let (q, w) := drainLoop ch q.frames.length q w
  ({ queues := update s.queues ch.key (some q) }, w)

def enqueue (w : World) (ch : Channel) (band : Fin kEgressBands) (congestion : Congestion)
    (frame : Bytes) : DropCause × EgressScheduler × World :=
  -- a channel without a backpressure signal has no backlog: the frame goes straight to it
  if !ch.polls then (.none, s, w.send ch frame)
  else
    let (cause, q) := (s.queueOf ch).enqueueWithVerdict band congestion frame
    let (s, w) := drain { queues := update s.queues ch.key (some q) } w ch
    (cause, s, w)

/-- `remove`: the whole destination goes, whatever topics its frames belong to. -/
def remove (ch : Channel) : EgressScheduler :=
  { queues := update s.queues ch.key none }

end EgressScheduler

/-! ## What a drain does to the backlog

`frames` is the order of the hand-over: the front of the highest band is its head and a pop takes
that head away, so a drain moves a leading part of `frames` to the channel and keeps the rest. -/

theorem head?_flatMap_find? {ι α : Type*} (f : ι → List α) (l : List ι) :
    (l.find? (fun i => !(f i).isEmpty)).bind (fun i => (f i).head?) = (l.flatMap f).head? := by
  induction l with
  | nil => rfl
  | cons i l ih =>
    cases hi : f i with
    | nil => simpa [hi] using ih
    | cons a as => simp [hi]

theorem flatMap_update_find? {ι α : Type*} [DecidableEq ι] (f : ι → List α) {l : List ι}
    (hl : l.Nodup) {i : ι} (hi : l.find? (fun i => !(f i).isEmpty) = some i) :
    l.flatMap (update f i (f i).tail) = (l.flatMap f).tail := by
  induction l with
  | nil => cases hi
  | cons j l ih =>
    obtain ⟨hj, hl⟩ := List.nodup_cons.mp hl
    cases hfj : f j with
    | nil =>
      have hfind : l.find? (fun i => !(f i).isEmpty) = some i := by
        simpa [hfj] using hi
      have hne : j ≠ i := by
        rintro rfl
        exact hj (List.mem_of_find?_eq_some hfind)
      simp [update_of_ne hne, hfj, ih hl hfind]
    | cons a as =>
      obtain rfl : j = i := by simpa [hfj] using hi
      have hrest : l.flatMap (update f j as) = l.flatMap f := by
        refine List.flatMap_congr fun k hk => ?_
        exact update_of_ne (ne_of_mem_of_not_mem hk hj) _ _
      simp [hfj, hrest]

namespace PriorityBandQueue

theorem frontHighest_eq (q : PriorityBandQueue) : q.frontHighest = q.frames.head? :=
  head?_flatMap_find? (fun i => (q.bands i).frames) (.finRange kEgressBands)

theorem frames_popHighest {q : PriorityBandQueue} (h : q.frames ≠ []) :
    q.popHighest.frames = q.frames.tail := by
  cases hi : q.highest with
  | none =>
    -- no band has work, so there is nothing resident
    have hhead := q.frontHighest_eq
    rw [frontHighest, hi, Option.bind_none, eq_comm, List.head?_eq_none_iff] at hhead
    exact absurd hhead h
  | some i =>
    have hbands : (fun j => (q.popHighest.bands j).frames) =
        update (fun j => (q.bands j).frames) i (q.bands i).frames.tail := by
      funext j
      rcases eq_or_ne j i with rfl | hj
      · simp [popHighest, hi, Band.pop]
      · simp [popHighest, hi, update_of_ne hj]
    rw [frames, hbands]
    exact flatMap_update_find? _ (List.nodup_finRange _) hi

end PriorityBandQueue

namespace EgressScheduler

/-- **A drain moves a leading part of the backlog to its channel**, and nothing else. -/
theorem drainLoop_spec (ch : Channel) (fuel : Nat) (q : PriorityBandQueue) (w : World) :
    ∃ k, (drainLoop ch fuel q w).1.frames = q.frames.drop k ∧
      (drainLoop ch fuel q w).2.sent = w.sent ++ (q.frames.take k).map (Prod.mk ch) := by
  induction fuel generalizing q w with
  | zero => exact ⟨0, by simp [drainLoop]⟩
  | succ fuel ih =>
    rw [drainLoop, PriorityBandQueue.frontHighest_eq]
    cases hframes : q.frames with
    | nil => exact ⟨0, by simp [hframes]⟩
    | cons node rest =>
      have hpop := PriorityBandQueue.frames_popHighest (q := q) (by simp [hframes])
      simp only [List.head?_cons]
      split
      · obtain ⟨k, hq, hw⟩ := ih q.popHighest (w.backpressured.2.send ch node)
        rw [hpop, hframes] at hq hw
        refine ⟨k + 1, hq, ?_⟩
        rw [hw]
        simp
      · exact ⟨0, by simp [hframes]⟩

theorem sent_enqueue (s : EgressScheduler) (w : World) (ch : Channel) (band : Fin kEgressBands)
    (congestion : Congestion) (frame : Bytes) :
    ∃ frames : List Bytes,
      (s.enqueue w ch band congestion frame).2.2.sent = w.sent ++ frames.map (Prod.mk ch) := by
  unfold enqueue
  split
  · exact ⟨[frame], rfl⟩
  · obtain ⟨k, _, hsent⟩ := drainLoop_spec ch _ _ w
    exact ⟨_, hsent⟩

theorem drainLoop_idle (ch : Channel) {fuel : Nat} {q : PriorityBandQueue} {w : World}
    (hfuel : q.frames.length ≤ fuel) (hidle : ∀ n, w.readings n = 0) :
    (drainLoop ch fuel q w).1.frames = [] ∧
      (drainLoop ch fuel q w).2.sent = w.sent ++ q.frames.map (Prod.mk ch) := by
  induction fuel generalizing q w with
  | zero =>
    have hnil : q.frames = [] := List.length_eq_zero_iff.mp (by omega)
    simp [drainLoop, hnil]
  | succ fuel ih =>
    rw [drainLoop, PriorityBandQueue.frontHighest_eq]
    cases hframes : q.frames with
    | nil => simp [hframes]
    | cons node rest =>
      have hpop := PriorityBandQueue.frames_popHighest (q := q) (by simp [hframes])
      rw [hframes] at hpop
      have hadmits : admits ch w.backpressured.1 node.length := by
        simp [admits, World.backpressured, hidle 0]
      have hlen : q.popHighest.frames.length ≤ fuel := by
        rw [hpop]
        simpa [hframes] using hfuel
      obtain ⟨hq, hw⟩ := ih (w := w.backpressured.2.send ch node) hlen (fun n => hidle (n + 1))
      simp only [List.head?_cons, hadmits, if_true]
      refine ⟨hq, ?_⟩
      rw [hw, hpop]
      simp

end EgressScheduler

end Plexus.Io
