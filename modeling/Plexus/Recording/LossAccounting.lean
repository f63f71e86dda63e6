/-
# Plexus.Recording.LossAccounting — what the recorder reports of its own loss.

`Ledger` follows the log of pushes: the refused records are those reported by an admitted dropout
record, those pending in the run, and those of dropout records that were themselves refused. The
last are lost to the account: `surface_dropout` resets the run before it pushes, in every `record_*`
call, so the run never counts more than one record, and while the ring stays full each call throws
away the report of the one before.
-/
import Plexus.Recording.FlatRecorder

namespace Plexus.Recording

open Lib Wire StreamItem List

/-! ## Sums over the log -/

def StreamItem.records : StreamItem → Nat
  | .record _ _ => 1
  | _ => 0

def StreamItem.wouldBeBytes : StreamItem → Nat
  | .record captureTs call => (call.wouldBe captureTs).1
  | _ => 0

def StreamItem.droppedCount : StreamItem → Nat
  | .dropout r => r.count.toNat
  | _ => 0

def StreamItem.droppedBytes : StreamItem → Nat
  | .dropout r => r.bytes.toNat
  | _ => 0

/-- The sum of `f` over the pushes with this result. -/
def tally (f : StreamItem → Nat) (ok : Bool) (pushes : List (StreamItem × Bool)) : Nat :=
  (pushes.map fun p => if p.2 = ok then f p.1 else 0).sum

section

variable (f : StreamItem → Nat) (ok : Bool) (pushes : List (StreamItem × Bool))

theorem tally_concat (x : StreamItem) (b : Bool) :
    tally f ok (pushes ++ [(x, b)]) = tally f ok pushes + if b = ok then f x else 0 := by
  simp [tally]

theorem tally_eq_zero_iff : tally f ok pushes = 0 ↔ ∀ x, (x, ok) ∈ pushes → f x = 0 := by
  induction pushes using reverseRecOn with
  | nil => simp [tally]
  | append_singleton pushes p ih =>
    obtain ⟨y, b⟩ := p
    rw [tally_concat, Nat.add_eq_zero_iff, ih]
    by_cases hb : b = ok
    · subst hb
      simp only [mem_append, mem_singleton, Prod.mk.injEq, and_true]
      exact ⟨fun h x hx => hx.elim (h.1 x) fun heq => heq ▸ h.2,
        fun h => ⟨fun x hx => h x (.inl hx), h y (.inr rfl)⟩⟩
    · simp only [if_neg hb, and_true, mem_append, mem_singleton, Prod.mk.injEq]
      exact ⟨fun h x hx => h x (hx.elim id fun heq => absurd heq.2.symm hb),
        fun h x hx => h x (.inl hx)⟩

end

/-! ## The ledger -/

/-- `n` records were offered; where they are. -/
structure Ledger (n : Nat) (pushes : List (StreamItem × Bool)) (run : DropoutRun) : Prop where
  offered : n = tally StreamItem.records true pushes + tally StreamItem.records false pushes
  count : tally StreamItem.records false pushes = tally StreamItem.droppedCount true pushes +
    tally StreamItem.droppedCount false pushes + run.count.toNat
  bytes : tally wouldBeBytes false pushes = tally StreamItem.droppedBytes true pushes +
    tally StreamItem.droppedBytes false pushes + run.bytes.toNat
  pending : run.count = 0 ∧ run.bytes = 0 ∨ run.count = 1
  single : ∀ d ok, (StreamItem.dropout d, ok) ∈ pushes → d.count = 1

variable {n : Nat} {pushes : List (StreamItem × Bool)} {run : DropoutRun}

theorem ledger_nil : Ledger 0 [] {} where
  offered := rfl
  count := rfl
  bytes := rfl
  pending := .inl ⟨rfl, rfl⟩
  single := fun _ _ h => by cases h

section

variable (h : Ledger n pushes run)
include h

theorem Ledger.sync (ok : Bool) : Ledger n (pushes ++ [(.sync, ok)]) run where
  offered := by simpa only [tally_concat, StreamItem.records, ite_self, add_zero] using h.offered
  count := by
    simpa only [tally_concat, StreamItem.records, StreamItem.droppedCount, ite_self, add_zero]
      using h.count
  bytes := by
    simpa only [tally_concat, wouldBeBytes, StreamItem.droppedBytes, ite_self, add_zero]
      using h.bytes
  pending := h.pending
  single := fun d b hd => h.single d b (by simpa using hd)

/-- The run goes into a dropout record, and the record into the ring or nowhere. -/
theorem Ledger.surface (hpending : run.count ≠ 0) (resumedTs : UInt64) (ok : Bool) :
    Ledger n (pushes ++ [(.dropout (run.harvest resumedTs).1, ok)]) {} where
  offered := by simpa only [tally_concat, StreamItem.records, ite_self, add_zero] using h.offered
  count := by
    have hcount := h.count
    simp only [tally_concat, StreamItem.records, StreamItem.droppedCount, DropoutRun.harvest, ite_self]
    cases ok <;> simp <;> omega
  bytes := by
    have hbytes := h.bytes
    simp only [tally_concat, wouldBeBytes, StreamItem.droppedBytes, DropoutRun.harvest, ite_self]
    cases ok <;> simp <;> omega
  pending := .inl ⟨rfl, rfl⟩
  single := fun d b hd => by
    rcases mem_append.mp hd with hold | hnew
    · exact h.single d b hold
    · rw [mem_singleton, Prod.mk.injEq, StreamItem.dropout.injEq] at hnew
      rw [hnew.1]
      exact h.pending.resolve_left fun hnone => hpending hnone.1

theorem Ledger.admit_record (captureTs : UInt64) (call : RecordCall) :
    Ledger (n + 1) (pushes ++ [(.record captureTs call, true)]) run where
  offered := by
    have hoffered := h.offered
    simp only [tally_concat, StreamItem.records, if_true, Bool.true_eq_false, if_false]
    omega
  count := by simpa [tally_concat, StreamItem.droppedCount] using h.count
  bytes := by simpa [tally_concat, StreamItem.droppedBytes] using h.bytes
  pending := h.pending
  single := fun d b hd => h.single d b (by simpa using hd)

theorem Ledger.shed_record (hnone : run.count = 0 ∧ run.bytes = 0) (captureTs : UInt64)
    (call : RecordCall) (hsize : (call.wouldBe captureTs).1 < 2 ^ 64) :
    Ledger (n + 1) (pushes ++ [(.record captureTs call, false)])
      (run.shed (.ofNat (call.wouldBe captureTs).1) (call.wouldBe captureTs).2) where
  offered := by
    have hoffered := h.offered
    simp only [tally_concat, StreamItem.records, if_true, Bool.false_eq_true, if_false]
    omega
  count := by
    have hcount := h.count
    rw [hnone.1] at hcount
    simp only [tally_concat, StreamItem.records, StreamItem.droppedCount, DropoutRun.shed, hnone.1,
      if_true, ite_self, Bool.false_eq_true]
    show _ = _ + _ + 1
    simpa using hcount
  bytes := by
    have hbytes := h.bytes
    rw [hnone.2] at hbytes
    simp only [tally_concat, wouldBeBytes, StreamItem.droppedBytes, DropoutRun.shed, hnone.2, UInt64.zero_add, UInt64.toNat_ofNat_of_lt' hsize]
    simpa using hbytes
  pending := .inr (by simp [DropoutRun.shed, hnone.1])
  single := fun d b hd => h.single d b (by simpa using hd)

/-- Every dropout record stands for one record, so none is missing only if none was refused. -/
theorem Ledger.lost_eq_zero_iff :
    tally StreamItem.droppedCount false pushes = 0 ↔ ∀ d, (StreamItem.dropout d, false) ∉ pushes := by
  rw [tally_eq_zero_iff]
  constructor
  · intro hzero d hd
    have hcount := hzero _ hd
    rw [StreamItem.droppedCount, h.single d false hd] at hcount
    cases hcount
  intro hall x hx
  cases x with
  | dropout d => exact absurd hx (hall d)
  | sync => rfl
  | record => rfl

end

/-! ## The recorder keeps it -/

def RecorderEvent.isRecord : RecorderEvent → Bool
  | .record _ _ _ => true
  | .pump => false

namespace FlatRecorder

variable {r : FlatRecorder}

theorem ledger_maybeSync (h : Ledger n r.pushes r.dropouts) :
    Ledger n r.maybeSync.pushes r.maybeSync.dropouts := by
  simp only [maybeSync]
  split
  · exact h.sync _
  · exact h

theorem ledger_surfaceDropout (h : Ledger n r.pushes r.dropouts) (resumedTs : UInt64) :
    let r' := r.surfaceDropout resumedTs
    Ledger n r'.pushes r'.dropouts ∧ r'.dropouts.count = 0 ∧ r'.dropouts.bytes = 0 := by
  simp only [surfaceDropout]
  split
  · rename_i hpending
    exact ⟨h.surface (by simpa [DropoutRun.pending] using hpending) resumedTs _, rfl, rfl⟩
  rename_i hpending
  have hzero : r.dropouts.count = 0 := by simpa [DropoutRun.pending] using hpending
  have hnone := h.pending.resolve_right (by rw [hzero]; decide)
  exact ⟨h, hnone⟩

theorem wouldBe_le (captureTs : UInt64) (call : RecordCall) :
    (call.wouldBe captureTs).1 ≤ (sealIn (call.body captureTs)).length := by
  cases call with
  | sample topicHash info typeId present fidelity payload =>
    have hblob := length_blob payload
    simp only [RecordCall.wouldBe, RecordCall.body, Recording.sample, length_sealIn, length_append]
    omega
  | wireFrame dir seq peer bytes =>
    have hblob := length_blob bytes
    simp only [RecordCall.wouldBe, RecordCall.body, Recording.wireFrame, length_sealIn,
      length_append]
    omega
  | _ => exact le_rfl

theorem ledger_record (h : Ledger n r.pushes r.dropouts) (captureTs resumedTs : UInt64)
    (call : RecordCall) (hfits : (sealIn (call.body captureTs)).length ≤ r.scratchBytes.toNat) :
    Ledger (n + 1) (r.record captureTs resumedTs call).pushes
      (r.record captureTs resumedTs call).dropouts := by
  have hlt := r.scratchBytes.toNat_lt
  have hsize := wouldBe_le captureTs call
  obtain ⟨hbefore, hnone⟩ := ledger_surfaceDropout (ledger_maybeSync h) resumedTs
  simp only [record, admitRecord, if_neg (not_lt.mpr hfits)]
  split
  · rename_i hok
    have hadmitted := hbefore.admit_record captureTs call
    rw [← hok] at hadmitted
    exact hadmitted
  rename_i hok
  have hshed := hbefore.shed_record hnone captureTs call (by omega)
  rw [Bool.not_eq_true] at hok
  rw [← hok] at hshed
  exact hshed

/-- **The ledger holds along every run** that stays within the scratch. -/
theorem ledger_run (events : List RecorderEvent) (h : Ledger n r.pushes r.dropouts)
    (hscratch : (r.run events).overrun = false) :
    Ledger (n + events.countP RecorderEvent.isRecord) (r.run events).pushes
      (r.run events).dropouts := by
  induction events generalizing n r with
  | nil => exact h
  | cons e es ih =>
    obtain ⟨hhere, hstep⟩ := not_overrun_of_cons hscratch
    rw [countP_cons, add_comm (es.countP _), ← add_assoc]
    refine ih ?_ hscratch
    cases e with
    | record captureTs resumedTs call =>
      rw [step_record hhere]
      exact ledger_record h captureTs resumedTs call (fits_of_not_overrun hhere hstep)
    | pump =>
      rw [step_pump hhere]
      exact h

theorem ledger_openStream (ringBytes drainBatch : Nat) (scratchBytes clockEpoch : UInt64)
    (node : NodeId) (rule : TopicCaptureRule) (schema : List TypeSchemaEntry)
    (crypto : CaptureCryptoPosition) :
    Ledger 0
      ((flatRecorder ringBytes drainBatch scratchBytes).openStream clockEpoch node rule schema
        crypto).pushes
      ((flatRecorder ringBytes drainBatch scratchBytes).openStream clockEpoch node rule schema
        crypto).dropouts := by
  simp only [openStream]
  split <;> exact ledger_nil

/-! ## Exact loss accounting -/

/-- Data records admitted to the ring. -/
def admittedRecords (r : FlatRecorder) : Nat := tally StreamItem.records true r.pushes

/-- The bytes of the records that were shed. -/
def shedBytes (r : FlatRecorder) : Nat := tally wouldBeBytes false r.pushes

/-- The counts of the dropout records admitted to the ring. -/
def reportedCount (r : FlatRecorder) : Nat := tally StreamItem.droppedCount true r.pushes

def reportedBytes (r : FlatRecorder) : Nat := tally StreamItem.droppedBytes true r.pushes

/-- The bytes of the dropout records the ring refused. -/
def lostBytes (r : FlatRecorder) : Nat := tally StreamItem.droppedBytes false r.pushes

/-- Every dropout record that was made was admitted. -/
def AllSurfaced (r : FlatRecorder) : Prop := ∀ d, (StreamItem.dropout d, false) ∉ r.pushes

/-- A call that finds a shed record pending finds room for the report on it, behind the sync marker
if one is due. -/
def RoomForReport (r : FlatRecorder) : RecorderEvent → Prop
  | .record _ resumedTs _ => r.maybeSync.dropouts.pending = true →
      r.maybeSync.ring.used +
          (StreamItem.dropout (r.maybeSync.dropouts.harvest resumedTs).1).frame.length ≤
        r.maybeSync.ring.capacity
  | .pump => True

instance RoomForReport.decidable (r : FlatRecorder) : (e : RecorderEvent) → Decidable (r.RoomForReport e)
  | .record _ _ _ => inferInstanceAs (Decidable (_ → _))
  | .pump => isTrue trivial

theorem mem_pushes_tryPush (r : FlatRecorder) (x : StreamItem) (p : StreamItem × Bool) :
    p ∈ (r.tryPush x).1.pushes ↔ p ∈ r.pushes ∨ p = (x, (r.tryPush x).2) := by
  simp [tryPush]

theorem allSurfaced_tryPush {x : StreamItem} (hx : ∀ d, x ≠ .dropout d) :
    (r.tryPush x).1.AllSurfaced ↔ r.AllSurfaced := by
  refine forall_congr' fun d => not_congr ?_
  rw [mem_pushes_tryPush, or_iff_left]
  intro heq
  exact hx d (congrArg Prod.fst heq).symm

theorem allSurfaced_tryPush_dropout (d : DropoutRecord) :
    (r.tryPush (.dropout d)).1.AllSurfaced ↔
      r.AllSurfaced ∧ (r.tryPush (.dropout d)).2 = true := by
  constructor
  · intro hall
    refine ⟨fun d' hd' => hall d' ((mem_pushes_tryPush ..).mpr (.inl hd')), ?_⟩
    by_contra hrefused
    rw [Bool.not_eq_true] at hrefused
    exact hall d ((mem_pushes_tryPush ..).mpr (.inr (by rw [hrefused])))
  rintro ⟨hall, hpushed⟩ d' hd'
  rcases (mem_pushes_tryPush ..).mp hd' with hold | hnew
  · exact hall d' hold
  · rw [hpushed] at hnew
    cases hnew

theorem allSurfaced_maybeSync : r.maybeSync.AllSurfaced ↔ r.AllSurfaced := by
  simp only [maybeSync]
  split
  · exact allSurfaced_tryPush fun d => StreamItem.noConfusion
  · exact Iff.rfl

theorem allSurfaced_surfaceDropout (h : r.Stored) (resumedTs : UInt64) :
    (r.surfaceDropout resumedTs).AllSurfaced ↔ r.AllSurfaced ∧ (r.dropouts.pending = true →
      r.ring.used + (StreamItem.dropout (r.dropouts.harvest resumedTs).1).frame.length ≤
        r.ring.capacity) := by
  simp only [surfaceDropout]
  split
  · rename_i hpending
    obtain ⟨-, queued, -, -, hring⟩ := h.split
    have hok := (hring.tryPush_dropNewest h.policy
      (length_payload_dropout (r.dropouts.harvest resumedTs).1)).1
    rw [imp_iff_right hpending, StreamItem.frame, ← hok]
    exact allSurfaced_tryPush_dropout _
  · rename_i hpending
    exact ⟨fun hall => ⟨hall, fun h => absurd h hpending⟩, And.left⟩

theorem allSurfaced_step (h : r.Stored) {e : RecorderEvent} (hhere : r.overrun = false)
    (hstep : (r.step e).overrun = false) :
    (r.step e).AllSurfaced ↔ r.AllSurfaced ∧ r.RoomForReport e := by
  cases e with
  | pump =>
    rw [step_pump hhere]
    exact ⟨fun hall => ⟨hall, trivial⟩, And.left⟩
  | record captureTs resumedTs call =>
    have hfits := fits_of_not_overrun hhere hstep
    have hpushed := allSurfaced_tryPush (r := r.maybeSync.surfaceDropout resumedTs)
      (x := .record captureTs call) fun d => StreamItem.noConfusion
    rw [← allSurfaced_maybeSync (r := r), RoomForReport, ← allSurfaced_surfaceDropout h.maybeSync,
      ← hpushed, step_record hhere]
    simp only [record, admitRecord, if_neg (not_lt.mpr hfits)]
    split <;> exact Iff.rfl

/-- **Every report is admitted exactly if every call finds room for the one it makes.** -/
theorem allSurfaced_run (h : r.Stored) (events : List RecorderEvent)
    (hscratch : (r.run events).overrun = false) :
    (r.run events).AllSurfaced ↔ r.AllSurfaced ∧ Guarded step RoomForReport r events := by
  induction events generalizing r with
  | nil => exact ⟨fun hall => ⟨hall, trivial⟩, And.left⟩
  | cons e es ih =>
    obtain ⟨hhere, hstep⟩ := not_overrun_of_cons hscratch
    show ((r.step e).run es).AllSurfaced ↔ _ ∧ r.RoomForReport e ∧ Guarded step RoomForReport (r.step e) es
    rw [ih (h.step e) hscratch, allSurfaced_step h hhere hstep, and_assoc]

/-- Nothing is missing from the count exactly if no report was refused. -/
theorem accounted_iff (h : Ledger n r.pushes r.dropouts) :
    n = r.admittedRecords + r.reportedCount + r.dropouts.count.toNat ↔ r.AllSurfaced := by
  have hoffered := h.offered
  have hcount := h.count
  rw [AllSurfaced, ← h.lost_eq_zero_iff, admittedRecords, reportedCount]
  omega

section

variable (ringBytes drainBatch : Nat) (scratchBytes clockEpoch : UInt64) (node : NodeId)
  (rule : TopicCaptureRule) (schema : List TypeSchemaEntry) (crypto : CaptureCryptoPosition)

theorem allSurfaced_openStream :
    ((flatRecorder ringBytes drainBatch scratchBytes).openStream clockEpoch node rule schema
      crypto).AllSurfaced := by
  intro d hd
  simp only [openStream] at hd
  split at hd <;> cases hd

/-- **Nothing goes unreported exactly if every call finds room for the report it makes.** The byte
total is short of what the refused reports said. -/
theorem accounted_iff_allSurfaced (events : List RecorderEvent) :
    let opened := (flatRecorder ringBytes drainBatch scratchBytes).openStream clockEpoch node rule
      schema crypto
    let r := opened.run events
    r.overrun = false →
      (events.countP RecorderEvent.isRecord =
          r.admittedRecords + r.reportedCount + r.dropouts.count.toNat ↔
        Guarded step RoomForReport opened events) ∧
      r.shedBytes = r.reportedBytes + r.dropouts.bytes.toNat + r.lostBytes ∧
      (Guarded step RoomForReport opened events → r.lostBytes = 0) := by
  intro opened r hscratch
  have h : Ledger (events.countP RecorderEvent.isRecord) r.pushes r.dropouts := by
    have hrun := ledger_run events (ledger_openStream ..) hscratch
    rwa [zero_add] at hrun
  have hsurfaced : r.AllSurfaced ↔ Guarded step RoomForReport opened events :=
    (allSurfaced_run (stored_openStream ..) events hscratch).trans
      (and_iff_right (allSurfaced_openStream _ _ _ _ _ _ _ _))
  have hbytes := h.bytes
  refine ⟨(accounted_iff h).trans hsurfaced, ?_, fun hroom => ?_⟩
  · rw [shedBytes, reportedBytes, lostBytes]
    omega
  rw [lostBytes, tally_eq_zero_iff]
  intro x hx
  cases x with
  | dropout d => exact absurd hx (hsurfaced.mpr hroom d)
  | sync => rfl
  | record => rfl

end

/-- A recorder with a ring of 64 bytes that nothing is drained from. -/
def smallRecorder : FlatRecorder :=
  (flatRecorder 64 65536 65536).openStream 1 (Vector.replicate 16 0) {} [] .cleartext

/-- `n` participant records, 31 bytes each in the ring. -/
def participants (n : Nat) : List RecorderEvent :=
  replicate n (.record 2 3 (.participant { self := Vector.replicate 16 0 }))

/-- One record is admitted, one is shed and reported, one is shed and pending. -/
theorem allSurfaced_three : Guarded step RoomForReport smallRecorder (participants 3) ∧
    (smallRecorder.run (participants 3)).lostBytes = 0 := by
  obtain ⟨hiff, -, hlost⟩ := accounted_iff_allSurfaced 64 65536 65536 1 (.replicate 16 0) {} []
    .cleartext (participants 3) (by decide +kernel)
  have hroom := hiff.mp (by decide +kernel)
  exact ⟨hroom, hlost hroom⟩

/-- The fourth call throws the pending report away, and no later one brings it back. -/
theorem fourth_call_loses_report :
    (let r := smallRecorder.run (participants 4);
      r.overrun = false ∧ r.admittedRecords = 1 ∧ r.reportedCount = 1 ∧ r.dropouts.count = 1) ∧
    (let r := smallRecorder.run (participants 4 ++ [.pump] ++ participants 1);
      r.overrun = false ∧ r.admittedRecords = 2 ∧ r.reportedCount = 2 ∧ r.dropouts.count = 0) := by
  decide +kernel

end FlatRecorder

end Plexus.Recording
