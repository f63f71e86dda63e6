/-
# Plexus.Io.PeerLiveliness — the fused verdict of a peer (`peer_liveliness.h`, `liveliness_fuse.h`).

Awareness, heartbeats and the session's edges are noted in an entry of the peer's own, which latches
the last verdict. Only a session's down edge and the aging pass settle an entry, and the pass drops
entries that were lost and have no signal left. A down edge inserts a missing entry, so it may
conclude `lost` of a peer that was never alive or was lost already: `alternates_iff`.
-/
import Plexus.Lib.Run
import Mathlib.Data.List.Chain

namespace Plexus.Io

open Lib Function

/-- Whether the peer has, or had, a session. -/
inductive SessionPresence
  | absent | up | down
  deriving DecidableEq

/-- What is known of one peer, signal by signal, and the verdict last given. -/
structure PeerState where
  lastHeartbeatNs : UInt64 := 0
  droppedAtNs : UInt64 := 0
  session : SessionPresence := .absent
  aware : Bool := false
  aliveLatched : Bool := false
  verdictSeen : Bool := false

/-- The policy that weighs the signals. -/
inductive Combine
  | anySignalAlive | sessionAuthoritative | allRequired
  deriving DecidableEq

/-- The signals of a peer as one evaluation sees them. -/
structure SignalView where
  (sessionUp sessionSeen aware hbFresh hbSeen : Bool)

/-- The verdict of the policy, if it has one. -/
inductive FuseOutcome
  | alive | lost | noVerdict
  deriving DecidableEq

/-- The verdict of a policy on the signals of a peer. -/
def fuseSignals (policy : Combine) (sv : SignalView) : FuseOutcome :=
  match policy with
  | .anySignalAlive => if sv.sessionUp || sv.aware || sv.hbFresh then .alive else .lost
  | .sessionAuthoritative =>
    if sv.sessionUp then .alive else if sv.sessionSeen then .lost else .noVerdict
  | .allRequired =>
    if !sv.sessionSeen && !sv.hbSeen && !sv.aware then .noVerdict
    else if (!sv.sessionSeen || sv.sessionUp) && (!sv.hbSeen || sv.hbFresh) then .alive else .lost

structure PeerLiveliness where
  missWindowNs : UInt64
  policy : Combine
  subscribers : Nat

/-- What the storage holds of one peer, and the verdicts emitted for it: whether it is alive. -/
structure LivelinessCell where
  entry : Option PeerState := none
  verdicts : List Bool := []

/-- The calls that feed the monitor. -/
inductive LivelinessEvent (ι : Type*)
  | heartbeat (id : ι) (now : UInt64)
  | awareness (id : ι)
  | awarenessLost (id : ι)
  | sessionUp (id : ι)
  | sessionDown (id : ι) (now : UInt64)
  | evaluate (now : UInt64)

namespace PeerLiveliness

variable (l : PeerLiveliness) (now : UInt64) (x : LivelinessCell)

def derive (s : PeerState) : SignalView :=
  let hbSeen := s.lastHeartbeatNs != 0 && s.lastHeartbeatNs > s.droppedAtNs
  { sessionUp := s.session = .up
    sessionSeen := s.session ≠ .absent
    aware := s.aware
    hbFresh := hbSeen && now - s.lastHeartbeatNs ≤ l.missWindowNs
    hbSeen }

def fused (s : PeerState) : FuseOutcome := fuseSignals l.policy (l.derive now s)

def settle : LivelinessCell :=
  match x.entry with
  | none => x
  | some s =>
    let alive := l.fused now s = .alive
    if l.fused now s = .noVerdict ∨ s.verdictSeen ∧ s.aliveLatched = decide alive then x
    else
      { entry := some { s with aliveLatched := alive, verdictSeen := true }
        verdicts := if l.subscribers = 0 then x.verdicts else x.verdicts ++ [decide alive] }

def isReapable (s : PeerState) : Bool :=
  let sv := l.derive now s
  s.verdictSeen && !s.aliveLatched && !sv.sessionUp && !sv.aware && !sv.hbFresh

def atOrInsert (f : PeerState → PeerState) : LivelinessCell :=
  { x with entry := some (f (x.entry.getD {})) }

/-- The two signals that the session's edges are the whole truth over. -/
def noteSignal (f : PeerState → PeerState) : LivelinessCell :=
  if l.policy = .sessionAuthoritative then x else atOrInsert x f

def noteDown : LivelinessCell :=
  atOrInsert x fun s => { s with session := .down, droppedAtNs := now }

def evaluate : LivelinessCell :=
  let settled := l.settle now x
  { settled with entry := settled.entry.filter fun s => !l.isReapable now s }

section

variable {ι : Type*} [DecidableEq ι] (a : ι → LivelinessCell)

def step : LivelinessEvent ι → ι → LivelinessCell
  | .heartbeat id now => update a id (l.noteSignal (a id) fun s => { s with lastHeartbeatNs := now })
  | .awareness id => update a id (l.noteSignal (a id) fun s => { s with aware := true })
  | .awarenessLost id =>
    update a id { a id with entry := (a id).entry.map fun s => { s with aware := false } }
  | .sessionUp id => update a id (atOrInsert (a id) fun s => { s with session := .up })
  | .sessionDown id now => update a id (l.settle now (noteDown now (a id)))
  | .evaluate now => fun id => l.evaluate now (a id)

def run (es : List (LivelinessEvent ι)) : ι → LivelinessCell := es.foldl l.step fun _ => {}

/-- A cell is not settled as lost before it has had a verdict. -/
def LostKnown : Prop := ∀ s, x.entry = some s → l.fused now s = .lost → s.verdictSeen

def AliveFirst : LivelinessEvent ι → Prop
  | .sessionDown id now => l.LostKnown now (noteDown now (a id))
  | .evaluate now => ∀ id, l.LostKnown now (a id)
  | _ => True

/-- The verdicts are alive, lost, alive and so on: none is the one before it, and the first is not
lost. -/
def Alternates : Prop := (false :: x.verdicts).IsChain (· ≠ ·)

/-- The last verdict is what the signals say, if they say anything; of a peer without an entry it is
not alive. -/
def InStep : Prop :=
  match x.entry with
  | none => x.verdicts.getLast? ≠ some true
  | some s => l.fused now s = .noVerdict ∨ x.verdicts.getLast? = some (l.fused now s = .alive : Bool)

/-! ## Every run -/

/-- The latch is the last verdict; before its first verdict an entry follows no `alive`. -/
structure Latched : Prop where
  seen : (x.entry.getD {}).verdictSeen → x.verdicts.getLast? = some (x.entry.getD {}).aliveLatched
  unseen : (x.entry.getD {}).verdictSeen = false → x.verdicts.getLast? ≠ some true

theorem alternates_concat (vs : List Bool) (alive : Bool) :
    (false :: (vs ++ [alive])).IsChain (· ≠ ·) ↔
      (false :: vs).IsChain (· ≠ ·) ∧ vs.getLast?.getD false ≠ alive := by
  rw [← List.cons_append, List.isChain_append, List.getLast?_cons]
  simp

variable {l now x a}

section

variable {f : PeerState → PeerState} (h : Latched x)
  (hf : ∀ s, (f s).verdictSeen = s.verdictSeen ∧ (f s).aliveLatched = s.aliveLatched)
include h hf

theorem Latched.atOrInsert : Latched (atOrInsert x f) := by
  have ⟨hseen, hlatch⟩ := hf (x.entry.getD {})
  exact ⟨fun hs => (h.seen (hseen ▸ hs)).trans (congrArg some hlatch.symm),
    fun hs => h.unseen (hseen ▸ hs)⟩

theorem Latched.noteSignal : Latched (l.noteSignal x f) := by
  unfold PeerLiveliness.noteSignal
  split
  · exact h
  · exact h.atOrInsert hf

end

theorem verdicts_noteSignal (f) : (l.noteSignal x f).verdicts = x.verdicts := by
  unfold noteSignal
  split <;> rfl

theorem Latched.noteDown (h : Latched x) : Latched (noteDown now x) :=
  h.atOrInsert fun _ => ⟨rfl, rfl⟩

/-- Settling emits when the latch turns, or has not been set; it is only then that `lost` can be out
of turn. -/
theorem settle_spec (hl : l.subscribers ≠ 0) (h : Latched x) (now : UInt64) :
    Latched (l.settle now x) ∧ l.InStep now (l.settle now x) ∧
      (Alternates (l.settle now x) ↔ Alternates x ∧ l.LostKnown now x) := by
  obtain ⟨entry, vs⟩ := x
  obtain ⟨hseen, hunseen⟩ := h
  cases entry with
  | none => exact ⟨⟨hseen, hunseen⟩, hunseen rfl, by simp [settle, LostKnown]⟩
  | some s =>
    simp only [settle]
    split
    · rename_i hquiet
      refine ⟨⟨hseen, hunseen⟩, ?_, ?_⟩
      · rcases hquiet with hnone | ⟨hs, hlatch⟩
        · exact .inl hnone
        · exact .inr (hlatch ▸ hseen hs)
      · simp only [LostKnown]
        grind
    · refine ⟨⟨fun _ => List.getLast?_concat, nofun⟩, .inr List.getLast?_concat, ?_⟩
      simp only [Alternates, alternates_concat, LostKnown]
      cases hs : s.verdictSeen with
      | true => grind
      | false => cases hf : l.fused now s <;> grind

theorem Latched.evaluate (hl : l.subscribers ≠ 0) (h : Latched x) :
    Latched (l.evaluate now x) ∧ l.InStep now (l.evaluate now x) := by
  obtain ⟨⟨hseen, hunseen⟩, hstep, -⟩ := settle_spec hl h now
  unfold PeerLiveliness.evaluate
  generalize l.settle now x = y at *
  obtain ⟨_ | s, vs⟩ := y
  · exact ⟨⟨hseen, hunseen⟩, hstep⟩
  simp only [Option.filter_some]
  split
  · exact ⟨⟨hseen, hunseen⟩, hstep⟩
  · have hlost : vs.getLast? ≠ some true := by grind [isReapable]
    exact ⟨⟨nofun, fun _ => hlost⟩, hlost⟩

theorem update_spec {id : ι} {y : LivelinessCell} {ok : Prop} (h : ∀ p, Latched (a p))
    (hy : Latched y) (hiff : Alternates y ↔ Alternates (a id) ∧ ok) :
    (∀ p, Latched (update a id y p)) ∧
      ((∀ p, Alternates (update a id y p)) ↔ (∀ p, Alternates (a p)) ∧ ok) := by
  rw [forall_update_iff a fun _ => Latched, forall_update_iff a fun _ => Alternates]
  exact ⟨⟨hy, fun p _ => h p⟩, by grind⟩

theorem step_spec (hl : l.subscribers ≠ 0) (h : ∀ p, Latched (a p)) (e : LivelinessEvent ι) :
    (∀ p, Latched (l.step a e p)) ∧
      ((∀ p, Alternates (l.step a e p)) ↔ (∀ p, Alternates (a p)) ∧ l.AliveFirst a e) := by
  have hquiet {y z : LivelinessCell} (hv : y.verdicts = z.verdicts) :
      Alternates y ↔ Alternates z ∧ True := by rw [Alternates, Alternates, hv, and_true]
  cases e with
  | heartbeat id _ | awareness id =>
    apply update_spec h
    · exact (h id).noteSignal fun _ => ⟨rfl, rfl⟩
    · exact hquiet (verdicts_noteSignal _)
  | awarenessLost id =>
    refine update_spec h ?_ (hquiet rfl)
    cases hx : (a id).entry <;> constructor <;> grind [Latched]
  | sessionUp id => exact update_spec h ((h id).atOrInsert fun _ => ⟨rfl, rfl⟩) (hquiet rfl)
  | sessionDown id now =>
    obtain ⟨hlatched, -, hiff⟩ := settle_spec hl (h id).noteDown now
    exact update_spec h hlatched hiff
  | evaluate now =>
    refine ⟨fun p => ((h p).evaluate hl).1, ?_⟩
    have hiff p := (settle_spec hl (h p) now).2.2
    exact (forall_congr' hiff).trans forall_and

theorem run_spec (hl : l.subscribers ≠ 0) (es : List (LivelinessEvent ι)) :
    ∀ a : ι → LivelinessCell, (∀ p, Latched (a p)) →
      (∀ p, Latched (es.foldl l.step a p)) ∧
        ((∀ p, Alternates (es.foldl l.step a p)) ↔
          (∀ p, Alternates (a p)) ∧ Guarded l.step l.AliveFirst a es) := by
  induction es with
  | nil => exact fun a h => ⟨h, by simp [Guarded]⟩
  | cons e es ih =>
    intro a h
    have ⟨hlatched, hstep⟩ := step_spec hl h e
    have ⟨hrun, hiff⟩ := ih _ hlatched
    refine ⟨hrun, hiff.trans ?_⟩
    rw [hstep, and_assoc]
    rfl

/-- **The verdicts of every peer alternate, alive first, exactly when none is settled as lost before
its entry has had a verdict**; and they are in step with its signals after every aging pass and every
down edge of its own. -/
theorem alternates_iff (hl : l.subscribers ≠ 0) (es : List (LivelinessEvent ι)) :
    ((∀ p, Alternates (l.run es p)) ↔ Guarded l.step l.AliveFirst (fun _ => {}) es) ∧
      ∀ p now, l.InStep now (l.run (es ++ [.evaluate now]) p) ∧
        l.InStep now (l.run (es ++ [.sessionDown p now]) p) := by
  have hinit : Latched {} := ⟨nofun, fun _ => nofun⟩
  have ⟨hlatched, hiff⟩ := run_spec hl es (fun _ => {}) fun _ => hinit
  refine ⟨hiff.trans (and_iff_right fun _ => .singleton _), fun p now => ?_⟩
  simp only [run, List.foldl_append, List.foldl_cons, List.foldl_nil]
  refine ⟨((hlatched p).evaluate hl).2, ?_⟩
  simp only [step, update_self]
  exact (settle_spec hl (hlatched p).noteDown now).2.1

end

/-- One subscriber, and the default options. -/
def observed : PeerLiveliness := ⟨500000000, .anySignalAlive, 1⟩

/-- A session that comes up, goes down and comes up again, with a pass after each time up. -/
def upDownUp : List (LivelinessEvent Unit) :=
  [.sessionUp (), .evaluate 1, .sessionDown () 2, .sessionUp (), .evaluate 3]

theorem alternates_iff_observed :
    (observed.run upDownUp ()).verdicts = [true, false, true] ∧
      Guarded observed.step observed.AliveFirst (fun _ => {}) upDownUp ∧
      observed.InStep 4 (observed.run (upDownUp ++ [.evaluate 4]) ()) := by
  have hverdicts : (observed.run upDownUp ()).verdicts = [true, false, true] := by decide +kernel
  obtain ⟨hiff, hstep⟩ := alternates_iff (by decide : observed.subscribers ≠ 0) upDownUp
  refine ⟨hverdicts, hiff.mp fun _ => ?_, (hstep () 4).1⟩
  rw [Alternates, hverdicts]
  decide

/-- A session that comes up and goes down is lost; the pass drops its entry, and the rejected
handshake of the next attempt is lost again. -/
theorem rejected_after_reap_lost_twice :
    (observed.run [.sessionUp (), .evaluate 1, .sessionDown () 2, .evaluate 3, .sessionDown () 4]
        ()).verdicts = [true, false, false] ∧
      (observed.run [.sessionDown () 1] ()).verdicts = [false] ∧
      ∃ x, observed.run [.sessionUp (), .evaluate 1, .sessionDown () 2, .sessionUp ()] () = x ∧
        x.entry.map (observed.fused 3) = some .alive ∧ x.verdicts = [true, false] :=
  ⟨by decide +kernel, by decide +kernel, _, rfl, by decide +kernel, by decide +kernel⟩

end PeerLiveliness

end Plexus.Io
