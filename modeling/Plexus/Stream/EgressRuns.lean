/-
# Plexus.Stream.EgressRuns — what a stream channel writes, and what its peer makes of it.

The queue of `stream/detail/send_queue.h` over whole runs: units are offered, and each write that is
issued completes once. A write gathers the nodes at the front and only its completion takes them off,
so the nodes go out in order and once each, a payload and its trailer together. The bytes of plain
frames, cut by the network in any way, are those frames to the reassembler at the other end.
-/
import Plexus.Lib.Run
import Plexus.Stream.Inbound
import Plexus.Stream.StreamChannel

namespace Plexus.Stream

open Lib List Wire

/-- What the write in flight gathers. -/
def SendQueue.gathered (q : SendQueue) : List Bytes := q.queue.take q.inFlight

inductive EgressEvent
  | enqueue (frame : Bytes)
  | enqueueBoth (payload trailer : Bytes)
  | complete

/-- A send queue, what was given to it and what it has written. -/
structure EgressRun where
  queue : SendQueue
  /-- the units that were taken, each with its nodes -/
  admitted : List (List Bytes) := []
  /-- what each call of the sink was given -/
  writes : List (List Bytes) := []

namespace EgressRun

variable (r : EgressRun)

/-- A unit that is taken drives the sink if no write is in flight. -/
def enter (nodes : List Bytes) : Option SendQueue → EgressRun
  | none => r
  | some queue =>
    { queue
      admitted := r.admitted ++ [nodes]
      writes := r.writes ++ if r.queue.sending then [] else [queue.gathered] }

def step : EgressEvent → EgressRun
  | .enqueue frame => r.enter [frame] (r.queue.enqueue frame)
  | .enqueueBoth payload trailer => r.enter [payload, trailer] (r.queue.enqueueBoth payload trailer)
  | .complete =>
    if r.queue.sending then
      { r with
        queue := r.queue.complete
        writes := r.writes ++ if r.queue.complete.sending then [r.queue.complete.gathered] else [] }
    else r

def start (byteCap gatherLimit : Nat) : EgressRun := { queue := { byteCap, gatherLimit } }

def run (byteCap gatherLimit : Nat) (es : List EgressEvent) : EgressRun :=
  es.foldl step (start byteCap gatherLimit)

/-- The nodes that are done, those in flight and those that wait are the nodes that were taken. -/
structure Inv (cap : Nat) : Prop where
  isOpen : r.queue.isOpen = true
  byteCap : r.queue.byteCap = cap
  gathers : 0 < r.queue.gatherLimit
  busy : r.queue.sending = true ↔ r.queue.queue ≠ []
  flight : r.queue.sending = true → 0 < r.queue.inFlight ∧ r.queue.inFlight ≤ r.queue.queue.length
  ledger : ∃ done, r.admitted.flatten = done ++ r.queue.queue ∧
    r.writes.flatten = done ++ r.queue.gathered
  capped : ∀ size, (∀ unit ∈ r.admitted, totalSize unit ≤ size) → r.queue.bytes ≤ max cap size

variable {r} {cap : Nat}

/-- A drive turn with no write in flight issues the next one, if anything waits. -/
theorem inv_drive {q : SendQueue} {admitted writes : List (List Bytes)}
    (hopen : q.isOpen = true) (hcap : q.byteCap = cap) (hgathers : 0 < q.gatherLimit)
    (hledger : admitted.flatten = writes.flatten ++ q.queue)
    (hcapped : ∀ size, (∀ unit ∈ admitted, totalSize unit ≤ size) → q.bytes ≤ max cap size) :
    Inv ⟨q.drive, admitted, writes ++ if q.drive.sending then [q.drive.gathered] else []⟩ cap := by
  by_cases hq : q.queue = []
  · have hidle : q.drive = { q with sending := false } := if_pos (List.isEmpty_iff.mpr hq)
    rw [hidle]
    exact ⟨hopen, hcap, hgathers, by simp [hq], nofun,
      ⟨writes.flatten, hledger, by simp [SendQueue.gathered, hq]⟩, by simpa using hcapped⟩
  have hpos : 0 < q.queue.length := length_pos_of_ne_nil hq
  have hnext : q.drive = { q with
      sending := true, inFlight := min q.gatherLimit q.queue.length } :=
    if_neg (mt List.isEmpty_iff.mp hq)
  rw [hnext]
  exact ⟨hopen, hcap, hgathers, by simp [hq], fun _ => ⟨Nat.lt_min.mpr ⟨hgathers, hpos⟩,
    Nat.min_le_right _ _⟩, ⟨writes.flatten, hledger, by simp⟩, hcapped⟩

theorem Inv.enter (h : Inv r cap) {nodes : List Bytes} (hnodes : nodes ≠ []) :
    Inv (r.enter nodes (r.queue.enqueueUnit nodes)) cap := by
  obtain ⟨done, hadmitted, hwrites⟩ := h.ledger
  unfold SendQueue.enqueueUnit
  by_cases hadmits : r.queue.admits (totalSize nodes) = true
  swap
  · simpa [hadmits, EgressRun.enter] using h
  have hbytes (size : Nat) (hsize : ∀ unit ∈ r.admitted ++ [nodes], totalSize unit ≤ size) :
      (r.queue.stash nodes).bytes ≤ max cap size := by
    have hnew := hsize nodes (by simp)
    simp only [SendQueue.admits, Bool.or_eq_true, Bool.and_eq_true, decide_eq_true_eq,
      h.byteCap] at hadmits
    show r.queue.bytes + totalSize nodes ≤ max cap size
    omega
  have hstash : (r.queue.stash nodes).sending = r.queue.sending := rfl
  simp only [hadmits, EgressRun.enter, hstash, Bool.not_true, Bool.false_eq_true, if_false]
  by_cases hsending : r.queue.sending = true
  · -- behind the nodes in flight, which stay what they are
    obtain ⟨hpos, hle⟩ := h.flight hsending
    simp only [hsending, if_true, append_nil]
    refine ⟨h.isOpen, h.byteCap, h.gathers, by simp [SendQueue.stash, hsending, hnodes],
      fun _ => ⟨hpos, ?_⟩, ⟨done, ?_, ?_⟩, hbytes⟩
    · exact hle.trans (by simp [SendQueue.stash])
    · simp [SendQueue.stash, hadmitted]
    · simp only [hwrites, SendQueue.gathered, SendQueue.stash, take_append_of_le_length hle]
  have hempty : r.queue.queue = [] := by
    by_contra hne
    exact hsending (h.busy.mpr hne)
  have hdriven : (r.queue.stash nodes).drive.sending = true := by
    simp [SendQueue.drive, SendQueue.stash, hnodes]
  have hledger : (r.admitted ++ [nodes]).flatten =
      r.writes.flatten ++ (r.queue.stash nodes).queue := by
    simp [SendQueue.stash, SendQueue.gathered, hadmitted, hwrites, hempty]
  have hdrive := inv_drive (q := r.queue.stash nodes) h.isOpen h.byteCap h.gathers hledger hbytes
  rw [hdriven] at hdrive
  simpa [hsending] using hdrive

theorem Inv.complete (h : Inv r cap) (hsending : r.queue.sending = true) :
    Inv (r.step .complete) cap ∧ (r.step .complete).admitted = r.admitted ∧
      (r.step .complete).queue.queue = r.queue.queue.drop r.queue.inFlight := by
  obtain ⟨done, hadmitted, hwrites⟩ := h.ledger
  have hnext : r.queue.complete = _ := if_neg (by simp [h.isOpen])
  rw [step, if_pos hsending, hnext]
  refine ⟨inv_drive h.isOpen h.byteCap h.gathers ?_ fun size hsize =>
    (Nat.sub_le _ _).trans (h.capped size hsize), rfl, ?_⟩
  · rw [hadmitted, hwrites, SendQueue.gathered, append_assoc, take_append_drop]
  · unfold SendQueue.drive
    split <;> rfl

theorem Inv.step (h : Inv r cap) (e : EgressEvent) : Inv (r.step e) cap := by
  cases e with
  | enqueue frame => exact h.enter (by simp)
  | enqueueBoth payload trailer => exact h.enter (by simp)
  | complete =>
    by_cases hsending : r.queue.sending = true
    · exact (h.complete hsending).1
    · simpa [EgressRun.step, hsending] using h

theorem inv_run (cap limit : Nat) (es : List EgressEvent) : Inv (run cap (limit + 1) es) cap := by
  refine run_invariant (fun r => Inv r cap) (fun _ e h => h.step e) ?_ es
  exact ⟨rfl, rfl, Nat.succ_pos _, by simp [start], nofun, ⟨[], rfl, rfl⟩, fun _ _ => Nat.zero_le _⟩

theorem Inv.conserved (h : Inv r cap) :
    r.writes.flatten ++ r.queue.queue.drop r.queue.inFlight = r.admitted.flatten := by
  obtain ⟨done, hadmitted, hwrites⟩ := h.ledger
  rw [hadmitted, hwrites, SendQueue.gathered, append_assoc, take_append_drop]

/-- Each completion takes a node off, so enough of them empty the queue. -/
theorem Inv.drain (h : Inv r cap) {k : Nat} (hk : r.queue.queue.length ≤ k) :
    ((replicate k .complete).foldl EgressRun.step r).queue.queue = [] ∧
      ((replicate k .complete).foldl EgressRun.step r).admitted = r.admitted := by
  induction k generalizing r with
  | zero => exact ⟨eq_nil_of_length_eq_zero (Nat.le_zero.mp hk), rfl⟩
  | succ k ih =>
    rw [replicate_succ, foldl_cons]
    by_cases hsending : r.queue.sending = true
    · obtain ⟨hnext, hsame, hqueue⟩ := h.complete hsending
      have hpos := (h.flight hsending).1
      have hrest := ih hnext (by rw [hqueue, length_drop]; omega)
      rwa [hsame] at hrest
    have hempty : r.queue.queue = [] := by
      by_contra hne
      exact hsending (h.busy.mpr hne)
    have hidle : r.step .complete = r := by simp [EgressRun.step, hsending]
    rw [hidle]
    exact ih h (by simp [hempty])

/-- **What the sink is given is what was taken, in order and once each.** At any time the writes so
far are a front part of the nodes taken so far, whole but for the nodes that wait; enough completions
write the rest. The bytes that wait stay under the cap or are one unit's. -/
theorem writes_fifo (byteCap limit : Nat) (es : List EgressEvent) :
    let r := run byteCap (limit + 1) es
    r.writes.flatten ++ r.queue.queue.drop r.queue.inFlight = r.admitted.flatten ∧
    (∀ size, (∀ unit ∈ r.admitted, totalSize unit ≤ size) → r.queue.bytes ≤ max byteCap size) ∧
    ∀ k, r.queue.queue.length ≤ k →
      (run byteCap (limit + 1) (es ++ replicate k .complete)).writes.flatten = r.admitted.flatten := by
  intro r
  have h : Inv r byteCap := inv_run byteCap limit es
  refine ⟨h.conserved, h.capped, fun k hk => ?_⟩
  obtain ⟨hempty, hsame⟩ := h.drain hk
  have hdrained := (inv_run byteCap limit (es ++ replicate k .complete)).conserved
  have hrun : run byteCap (limit + 1) (es ++ replicate k .complete) =
      (replicate k .complete).foldl EgressRun.step r := foldl_append
  rw [hrun] at hdrained ⊢
  rwa [hempty, drop_nil, append_nil, hsame] at hdrained

/-! ## At the other end -/

/-- The frames whose bytes are a front part of a stream are a front part of the stream's frames. -/
theorem feedAll_front {max cap : Nat} (hmax : max < 2 ^ 64)
    (hroom : stalledBytes max + kStreamReadBufferBytes ≤ cap)
    {sent : List (FrameHeader × Bytes)} (hsent : ∀ m ∈ sent, m.2.length ≤ max)
    {chunks : List Bytes} (hsize : ∀ c ∈ chunks, c.length ≤ kStreamReadBufferBytes)
    {rest : Bytes} (hfront : chunks.flatten ++ rest = sentBytes sent) :
    let results := ((FrameReassembler.fresh max cap).feedAll chunks).2
    (∀ res ∈ results, res.error = .none) ∧
      results.flatMap (·.frames) <+: sent.map sentFrame ∧
      (rest = [] → results.flatMap (·.frames) = sent.map sentFrame) := by
  intro results
  have hwhole := run_sentBytes hmax sent hsent
  rw [← hfront, Greedy.run_append] at hwhole
  -- an error before the end would be the error of the whole
  obtain ⟨out, stop, hpart⟩ : ∃ out stop,
      (frameDecoder max).run none chunks.flatten = (out, .ok stop) := by
    rcases hrun : (frameDecoder max).run none chunks.flatten with ⟨out, e | stop⟩
    · rw [hrun] at hwhole
      cases hwhole
    · exact ⟨out, stop, rfl⟩
  have hnone : ∀ res ∈ results, res.error = .none :=
    error_none_of_room (.fresh max cap) chunks hroom (Nat.zero_le _) hsize stop
      (congrArg Prod.snd hpart)
  obtain ⟨hfirst, hframes⟩ := firstError_eq_none hnone
  have hview := FrameReassembler.viewAll_fresh max cap chunks (by rw [hfirst]; decide)
  have hout : results.flatMap (·.frames) = out := by
    rw [hpart] at hview
    rw [← hframes]
    exact congrArg Prod.fst hview
  rw [hpart] at hwhole
  refine ⟨hnone, ?_, ?_⟩
  · rw [hout]
    exact ⟨_, congrArg Prod.fst hwhole⟩
  rintro rfl
  rw [append_nil] at hfront
  rw [hout]
  have := run_sentBytes hmax sent hsent
  rw [← hfront, hpart] at this
  exact congrArg Prod.fst this

/-- **A stream delivers the frames its queue took.** Whatever part of the written bytes has arrived,
and however it was cut, the peer has no error and has a front part of the frames taken; when nothing
waits and all has arrived, it has them all. -/
theorem stream_delivers (byteCap limit max cap : Nat) (es : List EgressEvent)
    (sent : List (FrameHeader × Bytes)) (chunks : List Bytes)
    (hmax : max < 2 ^ 64) (hroom : stalledBytes max + kStreamReadBufferBytes ≤ cap)
    (hsent : ∀ m ∈ sent, m.2.length ≤ max)
    (htaken : (run byteCap (limit + 1) es).admitted = sent.map fun m => [encodeFrame m.1 m.2])
    (hsize : ∀ c ∈ chunks, c.length ≤ kStreamReadBufferBytes)
    (harrived : chunks.flatten <+: (run byteCap (limit + 1) es).writes.flatten.flatten) :
    let results := ((FrameReassembler.fresh max cap).feedAll chunks).2
    (∀ res ∈ results, res.error = .none) ∧
      results.flatMap (·.frames) <+: sent.map sentFrame ∧
      ((run byteCap (limit + 1) es).queue.queue = [] →
        chunks.flatten = (run byteCap (limit + 1) es).writes.flatten.flatten →
        results.flatMap (·.frames) = sent.map sentFrame) := by
  obtain ⟨behind, hbehind⟩ := harrived
  have hconserved := (inv_run byteCap limit es).conserved
  set r := run byteCap (limit + 1) es
  have hfront : chunks.flatten ++ (behind ++ (r.queue.queue.drop r.queue.inFlight).flatten) =
      sentBytes sent := by
    rw [← append_assoc, hbehind, ← flatten_append, hconserved, htaken, sentBytes]
    exact congrArg flatten (map_eq_flatMap ..).symm
  obtain ⟨hnone, hprefix, hall⟩ := feedAll_front hmax hroom hsent hsize hfront
  refine ⟨hnone, hprefix, fun hempty hflat => hall ?_⟩
  rw [hempty, drop_nil, flatten_nil, append_nil]
  exact append_right_eq_self.mp (hbehind.trans hflat.symm)

/-- Two frames, cut inside the header of the second. -/
def cutInHeader : List Bytes :=
  [encodeFrame default [7] ++ (encodeFrame default [8]).take 5, (encodeFrame default [8]).drop 5]

theorem stream_delivers_frame :
    ((FrameReassembler.fresh 1 70000).feedAll cutInHeader).2.flatMap (·.frames) =
      [sentFrame (default, [7]), sentFrame (default, [8])] := by
  have h := stream_delivers 1000 63 1 70000 [.enqueue (encodeFrame default [7]),
      .enqueue (encodeFrame default [8]), .complete, .complete]
    [(default, [7]), (default, [8])] cutInHeader (by decide) (by decide) (by decide) (by decide)
    (by decide) (by decide)
  exact h.2.2 (by decide) (by decide)

end EgressRun

end Plexus.Stream
