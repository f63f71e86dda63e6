/-
# Plexus.Datagram.UdpHandshakeArq — the retransmission ladder of a dial (`udp_handshake_arq.h`).

`start` transmits and arms the timer with the rung of the attempt; the handler of a wait that runs
out transmits again and arms the next rung, or surrenders behind the last. It looks at its error
code and nothing else. Cancelling or re-arming aborts the outstanding wait; one that has run out
before is queued with success and will run.

So a resolved arq may transmit once more and re-arm, and a second `start` takes a rung of its own;
`stops_iff` says when neither happens.
-/
import Plexus.Lib.Run

namespace Plexus.Datagram

open Lib

/-- The fields of the class and what its timer holds; then, for the statements only, what it did. -/
structure UdpHandshakeArq where
  ladder : Vector Nat 3
  attempt : UInt8 := 0
  resolved : Bool := false
  /-- A wait is outstanding. -/
  armed : Bool := false
  /-- The waits that ran out and whose handlers have not run yet. -/
  queued : Nat := 0
  transmits : Nat := 0
  /-- What the timer was armed with; there is no rung behind the last. -/
  waits : List (Option Nat) := []
  established : Nat := 0
  timeouts : Nat := 0
  /-- Cancels of an arq that was not resolved. -/
  cancels : Nat := 0
  deriving DecidableEq

inductive HandshakeArqEvent
  | start
  | pairedFrame
  | cancel
  /-- The outstanding wait runs out, and its completion is queued. -/
  | expire
  /-- A handler that was queued with success runs. -/
  | complete

namespace UdpHandshakeArq

variable (s : UdpHandshakeArq)

def transmit : UdpHandshakeArq := { s with attempt := s.attempt + 1, transmits := s.transmits + 1 }

def arm : UdpHandshakeArq :=
  { s with armed := true, waits := s.waits ++ [s.ladder[(s.attempt - 1).toNat]?] }

def start : UdpHandshakeArq := if s.resolved then s else s.transmit.arm

def onPairedFrame : UdpHandshakeArq :=
  if s.resolved then s
  else { s with resolved := true, armed := false, established := s.established + 1 }

def cancel : UdpHandshakeArq :=
  { s with
    resolved := true, armed := false, cancels := s.cancels + if s.resolved then 0 else 1 }

def surrender : UdpHandshakeArq :=
  if s.resolved then s else { s with resolved := true, timeouts := s.timeouts + 1 }

/-- The handler of a wait that ran out. -/
def onExpired : UdpHandshakeArq :=
  if s.ladder.size ≤ s.attempt.toNat then s.surrender else s.transmit.arm

def step : HandshakeArqEvent → UdpHandshakeArq
  | .start => s.start
  | .pairedFrame => s.onPairedFrame
  | .cancel => s.cancel
  | .expire => if s.armed then { s with armed := false, queued := s.queued + 1 } else s
  | .complete => if s.queued = 0 then s else onExpired { s with queued := s.queued - 1 }

/-- The event takes no transmit beyond the ladder and, on an arq that is resolved, none at all; nor
does it arm the timer of one. -/
def Keeps (e : HandshakeArqEvent) : Prop :=
  (s.step e).transmits ≤ s.ladder.size ∧
    (s.resolved = true → (s.step e).transmits = s.transmits ∧ (s.step e).waits = s.waits)

/-- No start behind the last rung, and no handler of a wait that ran out before the resolution,
unless it was the last. -/
def InTime : HandshakeArqEvent → Prop
  | .start => s.resolved = true ∨ s.transmits < s.ladder.size
  | .complete => s.queued = 0 ∨ s.resolved = false ∨ s.ladder.size ≤ s.transmits
  | _ => True

instance (e : HandshakeArqEvent) : Decidable (s.InTime e) := by
  unfold InTime
  split <;> infer_instance

/-! ## Every run -/

/-- Resolved once, in one of three ways; and while it is not, something is on its way. -/
structure Sound : Prop where
  once : s.established + s.timeouts + s.cancels = if s.resolved then 1 else 0
  waits : s.transmits ≠ 0 → s.resolved = true ∨ s.armed = true ∨ s.queued ≠ 0

variable {s}

theorem Sound.step (h : s.Sound) (e : HandshakeArqEvent) : (s.step e).Sound := by
  have ⟨honce, hwaits⟩ := h
  cases e with
  | start =>
    show s.start.Sound
    unfold start
    split
    · exact h
    · exact ⟨h.once, fun _ => .inr (.inl rfl)⟩
  | pairedFrame =>
    show s.onPairedFrame.Sound
    unfold onPairedFrame
    split
    · exact h
    · exact ⟨by grind, fun _ => .inl rfl⟩
  | cancel =>
    refine ⟨?_, fun _ => .inl rfl⟩
    show s.established + s.timeouts + (s.cancels + if s.resolved then 0 else 1) = 1
    grind
  | expire => constructor <;> grind [.step]
  | complete =>
    show Sound (if s.queued = 0 then s else onExpired { s with queued := s.queued - 1 })
    split
    · exact h
    -- the handler surrenders or transmits: either way something is on its way
    unfold onExpired surrender
    split
    · split
      · rename_i hresolved
        exact ⟨honce, fun _ => .inl hresolved⟩
      · exact ⟨by grind, fun _ => .inl rfl⟩
    · exact ⟨honce, fun _ => .inr (.inl rfl)⟩

theorem sound_run (ladder : Vector Nat 3) (es : List HandshakeArqEvent) :
    (es.foldl step { ladder }).Sound :=
  run_invariant Sound (fun _ e h => h.step e) ⟨rfl, fun h => absurd rfl h⟩ es

theorem toNat_next {n : UInt8} (h : n.toNat < 3) : (n + 1).toNat = n.toNat + 1 := by
  rw [UInt8.toNat_add, UInt8.toNat_one]
  omega

theorem onExpired_cases (s : UdpHandshakeArq) : s.onExpired.resolved = true ∨
    s.resolved = false ∧ s.onExpired.armed = true ∧
      s.onExpired.attempt.toNat = s.attempt.toNat + 1 ∧ s.attempt.toNat < 3 := by
  unfold onExpired surrender
  split
  · left
    split
    · assumption
    · rfl
  rename_i hrung
  have hlt : s.attempt.toNat < 3 := Nat.not_le.mp hrung
  cases hresolved : s.resolved with
  | true => exact .inl hresolved
  | false => exact .inr ⟨rfl, rfl, toNat_next hlt, hlt⟩

/-- The wait that is outstanding runs out, and a handler runs. -/
def round (s : UdpHandshakeArq) : UdpHandshakeArq := (s.step .expire).step .complete

section

variable (h : s.resolved = true ∨ s.armed = true ∨ s.queued ≠ 0)
include h

theorem round_cases :
    s.round.resolved = true ∨ s.resolved = false ∧ s.round.armed = true ∧
      s.round.attempt.toNat = s.attempt.toNat + 1 ∧ s.attempt.toNat < 3 := by
  unfold round step
  cases harmed : s.armed with
  | true => exact onExpired_cases { s with armed := false, queued := s.queued + 1 - 1 }
  | false =>
    dsimp only
    rw [if_neg Bool.false_ne_true]
    split
    · grind
    · exact onExpired_cases { s with queued := s.queued - 1 }

/-- Three rungs and one more, and it is over. -/
theorem resolved_round : s.round.round.round.round.resolved := by
  have h₁ := round_cases h
  have h₂ := round_cases (s := s.round) (by grind)
  have h₃ := round_cases (s := s.round.round) (by grind)
  have h₄ := round_cases (s := s.round.round.round) (by grind)
  grind

end

/-! ## The transmits -/

/-- As long as no transmit goes beyond the ladder, the counter of the class is the number of them. -/
structure Counted (s : UdpHandshakeArq) : Prop where
  attempt : s.attempt.toNat = s.transmits
  le : s.transmits ≤ s.ladder.size

/-- An event that is in time keeps the count; one that transmits is in time on an unresolved arq
with a rung left. -/
theorem keeps_iff (h : s.Counted) (e : HandshakeArqEvent) :
    (s.Keeps e ↔ s.InTime e) ∧ (s.InTime e → (s.step e).Counted) := by
  obtain ⟨hattempt, hle⟩ := h
  have hnext : s.transmits < s.ladder.size → (s.attempt + 1).toNat = s.transmits + 1 := fun hlt => by
    rw [toNat_next (hattempt ▸ hlt), hattempt]
  cases e with
  | start =>
    unfold Keeps InTime step start
    dsimp only
    split
    · rename_i hresolved
      exact ⟨by simp [hresolved, hle], fun _ => ⟨hattempt, hle⟩⟩
    rename_i hresolved
    refine ⟨⟨fun hkeeps => .inr hkeeps.1, fun hin => ?_⟩, fun hin => ?_⟩
    · exact ⟨hin.resolve_left hresolved, fun h => absurd h hresolved⟩
    have hlt := hin.resolve_left hresolved
    exact ⟨hnext hlt, hlt⟩
  | pairedFrame =>
    unfold Keeps InTime step onPairedFrame
    dsimp only
    split <;> exact ⟨by simp [hle], fun _ => ⟨hattempt, hle⟩⟩
  | cancel => exact ⟨iff_of_true ⟨hle, fun _ => ⟨rfl, rfl⟩⟩ trivial, fun _ => ⟨hattempt, hle⟩⟩
  | expire =>
    unfold Keeps InTime step
    dsimp only
    split <;> exact ⟨by simp [hle], fun _ => ⟨hattempt, hle⟩⟩
  | complete =>
    unfold Keeps InTime step onExpired surrender
    dsimp only
    rw [hattempt]
    split
    · rename_i hqueued
      exact ⟨by simp [hle, hqueued], fun _ => ⟨hattempt, hle⟩⟩
    rename_i hqueued
    split
    · rename_i hlast
      split <;> exact ⟨by simp [hle, hlast], fun _ => ⟨hattempt, hle⟩⟩
    · rename_i hrung
      have hlt := Nat.not_le.mp hrung
      exact ⟨by simp [transmit, arm]; grind, fun _ => ⟨hnext hlt, hlt⟩⟩

/-- **When the retransmission stops at resolution.** In every run an arq is resolved at most once,
by a frame, by the last wait or by a cancel; as long as it is started and not resolved a wait is
outstanding or its handler queued, and four rounds of the timer resolve it. It transmits no more
often than the ladder has rungs, and neither transmits nor arms its timer when it is resolved, exactly
when every event is in time. -/
theorem stops_iff (ladder : Vector Nat 3) (es : List HandshakeArqEvent) :
    let s := es.foldl step { ladder }
    (s.established + s.timeouts + s.cancels = if s.resolved then 1 else 0) ∧
      (s.transmits ≠ 0 → (s.resolved = true ∨ s.armed = true ∨ s.queued ≠ 0) ∧
        s.round.round.round.round.resolved = true) ∧
      (Guarded step Keeps { ladder } es ↔ Guarded step InTime { ladder } es) := by
  have hsound := sound_run ladder es
  have hfresh : Counted { ladder } := ⟨rfl, Nat.zero_le _⟩
  refine ⟨hsound.once, fun hstarted => ⟨hsound.waits hstarted, ?_⟩, ?_, ?_⟩
  · exact resolved_round (hsound.waits hstarted)
  · intro hes
    refine hes.of_invariant Counted (fun s e h hkeeps => ?_) hfresh
    have hin := (keeps_iff h e).1.mp hkeeps
    exact ⟨(keeps_iff h e).2 hin, hin⟩
  · intro hes
    exact hes.of_invariant Counted (fun s e h hin => ⟨(keeps_iff h e).2 hin, (keeps_iff h e).1.mpr hin⟩)
      hfresh

/-- The frame comes when the first wait has run out: its handler transmits for an arq that is
resolved, and arms the timer. -/
theorem resolved_arq_transmits :
    let s := [.start, .expire, .pairedFrame].foldl step { ladder := #v[250, 500, 1000] }
    s.resolved = true ∧ (s.step .complete).transmits = s.transmits + 1 ∧
      (s.step .complete).waits = s.waits ++ [some 500] ∧ (s.step .complete).armed = true := by
  decide

end UdpHandshakeArq

end Plexus.Datagram
