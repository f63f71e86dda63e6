/-
# Plexus.Io.Reconnect — the dial driver of a peer slot (`io/reconnect.h`).

Dials come from `start()`, which `routing_engine::reach` calls on every subscribe, call or
announcement of an unconnected peer, and from the completion of a backoff wait. `m_dialing` guards
the first; nothing guards the second, and neither looks at `m_surrendered`.

An expiry queues a completion, which runs even when the timer is re-armed meanwhile; when is up to
the world, so the jittered delay is left out. `one_dial_of_orderly` says under which steps at most
one dial is outstanding and none follows a surrender.
-/
import Mathlib.Data.List.Induction
import Plexus.Lib.Run

namespace Plexus.Io

open Lib

/-- `reconnect_config`, without the delays. -/
structure ReconnectConfig where
  maxAttempts : Option UInt32 := none
  maxElapsed : Option Nat := none
  deriving DecidableEq

/-- The driver of one slot. -/
structure Reconnect where
  cfg : ReconnectConfig
  firstAttempt : Nat := 0
  attempt : UInt32 := 0
  surrendered : Bool := false
  dialing : Bool := false
  /-- `m_backoff_timer` has a wait. -/
  armed : Bool := false
  /-- Successful completions of earlier waits that have not run yet. -/
  queued : Nat := 0
  deriving DecidableEq

namespace Reconnect

variable (d : Reconnect)

/-- `surrendered()`: one of the bounds that are set has been reached. -/
def boundReached (now : Nat) : Bool :=
  (match d.cfg.maxAttempts with
    | none => false
    | some bound => d.attempt ≥ bound) ||
  (match d.cfg.maxElapsed with
    | none => false
    | some bound => now - d.firstAttempt ≥ bound)

def scheduleRedial (now : Nat) : Reconnect :=
  let d := { d with attempt := d.attempt + 1 }
  if d.boundReached now then { d with surrendered := true }
  else { d with armed := true }

/-- `dial()`, up to the `transport.dial` it ends with. -/
def dial : Reconnect := { d with dialing := true }

def notifyDialFailed (now : Nat) : Reconnect :=
  scheduleRedial { d with dialing := false } now

def markDialSettled : Reconnect := { d with dialing := false }

def onChannelDropped (now : Nat) : Reconnect :=
  scheduleRedial { d with dialing := false } now

/-- The timer reaches its expiry: its completion is queued. -/
def expire : Reconnect :=
  if d.armed then { d with armed := false, queued := d.queued + 1 } else d

end Reconnect

/-! ## Runs of a peer slot -/

/-- How things stood when `transport.dial` was called. -/
structure DialRecord where
  unsettled : Bool
  surrendered : Bool
  deriving DecidableEq

/-- What reaches the driver: `reach` from the engine, the outcome of a dial from the transport, the
handshake and the loss of the session, and the backoff timer. -/
inductive DialEvent
  | reach (now : Nat)
  | dialFailed (now : Nat)
  | dialed
  | completed
  | dropped (now : Nat)
  | closed
  | expire
  | backoff
  deriving DecidableEq

/-- The driver together with what it is told and what it does. -/
structure DialRun where
  driver : Reconnect
  /-- `registry.is_connected(id)`: the slot's session has completed its handshake. -/
  connected : Bool := false
  /-- Ghost: a dial was made, and neither `notify_dial_failed` nor `mark_dial_settled` came since. -/
  unsettled : Bool := false
  /-- Ghost: every call of `transport.dial`. -/
  dials : List DialRecord := []
  deriving DecidableEq

namespace DialRun

variable (s : DialRun)

/-- Dial, which tears the slot's session down first (`on_redial`). -/
def recordDial : DialRun where
  driver := s.driver.dial
  connected := false
  unsettled := true
  dials := s.dials ++ [{ unsettled := s.unsettled, surrendered := s.driver.surrendered }]

/-- `start()`. -/
def startDriver (now : Nat) : DialRun :=
  if s.driver.dialing then s
  else recordDial { s with driver := { s.driver with firstAttempt := now } }

def step : DialEvent → DialRun
  | .reach now => if s.connected then s else s.startDriver now
  | .dialFailed now => { s with driver := s.driver.notifyDialFailed now, unsettled := false }
  | .dialed =>
    -- `build_session_for_endpoint`: the dial is settled and a fresh session takes the slot
    { s with driver := s.driver.markDialSettled, unsettled := false, connected := false }
  | .completed => { s with connected := true }
  | .dropped now => { s with driver := s.driver.onChannelDropped now }
  | .closed => { s with connected := false }
  | .expire => { s with driver := s.driver.expire }
  | .backoff =>
    if s.driver.queued = 0 then s
    else recordDial { s with driver := { s.driver with queued := s.driver.queued - 1 } }

def fresh (cfg : ReconnectConfig) : DialRun := { driver := { cfg } }

def run (cfg : ReconnectConfig) (es : List DialEvent) : DialRun := es.foldl step (fresh cfg)

/-- **No dial was made while an earlier one was unsettled, and none after a surrender.** -/
def OneDial : Prop :=
  ∀ r ∈ s.dials, r.unsettled = false ∧ r.surrendered = false

instance (s : DialRun) : Decidable s.OneDial := inferInstanceAs (Decidable (∀ r ∈ s.dials, _))

/-! ## Orderly steps -/

/-- A `start()` that goes through finds the driver not surrendered, a backoff completion also no
dial in flight. -/
def DialsOrderly : DialEvent → Prop
  | .reach _ => s.connected = true ∨ s.driver.dialing = true ∨ s.driver.surrendered = false
  | .backoff => s.driver.queued = 0 ∨ (s.driver.dialing = false ∧ s.driver.surrendered = false)
  | _ => True

/-- Orderly dials, and no channel drop while a dial is in flight: the drop would clear the flag of a
dial it has nothing to do with. -/
def Orderly (e : DialEvent) : Prop :=
  s.DialsOrderly e ∧ ∀ now, e = .dropped now → s.driver.dialing = false

/-- Along orderly steps the flag covers every unsettled dial. -/
structure Inv (s : DialRun) : Prop where
  covered : s.unsettled = true → s.driver.dialing = true
  oneDial : s.OneDial

theorem Inv.recordDial {s : DialRun} (h : Inv s) (hdialing : s.driver.dialing = false)
    (hlive : s.driver.surrendered = false) : Inv s.recordDial := by
  have hsettled : s.unsettled = false := by
    by_contra hne
    rw [h.covered (by simpa using hne)] at hdialing
    cases hdialing
  exact ⟨fun _ => rfl,
    List.forall_mem_append.mpr ⟨h.oneDial, List.forall_mem_singleton.mpr ⟨hsettled, hlive⟩⟩⟩

theorem inv_step (e : DialEvent) (h : Inv s) (hok : Orderly s e) : Inv (s.step e) := by
  obtain ⟨hdials, hdrop⟩ := hok
  cases e with
  | reach now =>
    simp only [step, startDriver]
    split
    · exact h
    rename_i hconn
    split
    · exact h
    rename_i hdialing
    rcases hdials with hc | hd | hlive
    · exact absurd hc hconn
    · exact absurd hd hdialing
    · have h' : Inv { s with driver := { s.driver with firstAttempt := now } } :=
        ⟨h.covered, h.oneDial⟩
      exact h'.recordDial (by simpa using hdialing) hlive
  | dialFailed now | dialed => exact ⟨fun hu => absurd hu Bool.false_ne_true, h.oneDial⟩
  | completed | closed => exact ⟨h.covered, h.oneDial⟩
  | dropped now =>
    refine ⟨fun hu => ?_, h.oneDial⟩
    have hcovered := h.covered hu
    rw [hdrop now rfl] at hcovered
    cases hcovered
  | expire =>
    refine ⟨fun hu => ?_, h.oneDial⟩
    have hcovered := h.covered hu
    simp only [step, Reconnect.expire]
    split <;> exact hcovered
  | backoff =>
    simp only [step]
    split
    · exact h
    rename_i hqueued
    rcases hdials with hnone | ⟨hdialing, hlive⟩
    · exact absurd hnone hqueued
    · have h' : Inv { s with driver := { s.driver with queued := s.driver.queued - 1 } } :=
        ⟨h.covered, h.oneDial⟩
      exact h'.recordDial hdialing hlive

/-- **In every run whose steps are orderly** at most one dial is outstanding at any time and no dial
follows a surrender. -/
theorem one_dial_of_orderly {cfg : ReconnectConfig} {es : List DialEvent}
    (hes : Guarded step Orderly (fresh cfg) es) : (run cfg es).OneDial := by
  have hfresh : Inv (fresh cfg) := ⟨fun hu => absurd hu Bool.false_ne_true, List.forall_mem_nil _⟩
  exact (hes.invariant Inv inv_step hfresh).oneDial

/-- A failed dial, its backoff, a second dial that is settled, and a handshake that completes. -/
def orderlyRun : List DialEvent :=
  [.reach 0, .reach 1, .dialFailed 2, .expire, .backoff, .dialed, .completed, .reach 9, .dropped 10]

theorem one_dial_of_orderly_redial :
    Guarded step Orderly (fresh { maxAttempts := some 5 }) orderlyRun ∧
      (run { maxAttempts := some 5 } orderlyRun).OneDial := by
  have hes : Guarded step Orderly (fresh { maxAttempts := some 5 }) orderlyRun := by
    simp [orderlyRun, Guarded, Orderly, DialsOrderly, step, startDriver, recordDial, fresh,
      Reconnect.dial, Reconnect.notifyDialFailed, Reconnect.markDialSettled,
      Reconnect.scheduleRedial, Reconnect.boundReached,
      Reconnect.expire]
  exact ⟨hes, one_dial_of_orderly hes⟩

/-- A `start()` during a backoff wait is followed by the wait's own dial, and one after the
surrender dials again. -/
theorem second_dial_overtakes :
    ¬ (run {} [.reach 0, .dialFailed 1, .reach 2, .expire, .backoff]).OneDial ∧
      ¬ (run { maxAttempts := some 1 } [.reach 0, .dialFailed 1, .reach 2]).OneDial := by
  decide

/-! ## When the driver surrenders -/

def fails : DialEvent → Bool
  | .dialFailed _ | .dropped _ => true
  | _ => false

/-- After `n` failures under a bound on the attempts alone. -/
structure Counted (bound : UInt32) (n : Nat) (d : Reconnect) : Prop where
  cfg : d.cfg = { maxAttempts := some bound }
  attempt : d.attempt.toNat = n
  surrendered : d.surrendered = true ↔ 0 < n ∧ bound.toNat ≤ n

theorem Counted.scheduleRedial {bound : UInt32} {n : Nat} {d : Reconnect} (h : Counted bound n d)
    (hn : n + 1 < UInt32.size) (now : Nat) : Counted bound (n + 1) (d.scheduleRedial now) := by
  obtain ⟨hcfg, hattempt, hsurrendered⟩ := h
  have hnext : (d.attempt + 1).toNat = n + 1 := by
    rw [UInt32.toNat_add, hattempt]
    exact Nat.mod_eq_of_lt hn
  have hreached : Reconnect.boundReached { d with attempt := d.attempt + 1 } now = true ↔
      bound.toNat ≤ n + 1 := by
    simp [Reconnect.boundReached, hcfg, UInt32.le_iff_toNat_le, hnext]
  unfold Reconnect.scheduleRedial
  dsimp only
  split <;> rename_i hbound <;> rw [hreached] at hbound
  · exact ⟨hcfg, hnext, by simp [hbound]⟩
  · refine ⟨hcfg, hnext, hsurrendered.trans ?_⟩
    omega

/-- **A driver surrenders with the failure that reaches its bound**, counted over its whole life: no
dial and no handshake that succeeds in between takes any of them back. -/
theorem surrendered_iff_failures (bound : UInt32) (es : List DialEvent)
    (hes : es.countP fails < UInt32.size) :
    Counted bound (es.countP fails) (run { maxAttempts := some bound } es).driver := by
  induction es using List.reverseRecOn with
  | nil => exact ⟨rfl, rfl, by simp [run, fresh]⟩
  | append_singleton es e ih =>
    rw [List.countP_append] at hes ⊢
    have hlast : run { maxAttempts := some bound } (es ++ [e]) =
        (run { maxAttempts := some bound } es).step e := List.foldl_concat ..
    obtain ⟨hcfg, hattempt, hsurrendered⟩ := ih (by omega)
    rw [hlast]
    cases e with
    | dialFailed now | dropped now =>
      have hidle : Counted bound _
          { (run { maxAttempts := some bound } es).driver with dialing := false } :=
        ⟨hcfg, hattempt, hsurrendered⟩
      exact hidle.scheduleRedial hes now
    | dialed | completed | closed => exact ⟨hcfg, hattempt, hsurrendered⟩
    | reach now =>
      simp only [step, startDriver]
      split_ifs <;> exact ⟨hcfg, hattempt, hsurrendered⟩
    | expire =>
      simp only [step, Reconnect.expire]
      split_ifs <;> exact ⟨hcfg, hattempt, hsurrendered⟩
    | backoff =>
      simp only [step]
      split_ifs <;> exact ⟨hcfg, hattempt, hsurrendered⟩

theorem surrendered_after_reconnect :
    (run { maxAttempts := some 2 }
      [.reach 0, .dialFailed 1, .dialed, .completed, .dropped 9]).driver.surrendered = true :=
  (surrendered_iff_failures 2 [.reach 0, .dialFailed 1, .dialed, .completed, .dropped 9]
    (by decide)).surrendered.mpr (by decide)

end DialRun

end Plexus.Io
