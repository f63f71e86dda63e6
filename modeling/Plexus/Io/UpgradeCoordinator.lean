/-
# Plexus.Io.UpgradeCoordinator — which (peer, topic) pairs have a ring beside their wire
(`io/upgrade_coordinator.h`, `io/detail/upgrade_rings.h`, `io/upgrade_channel.h`,
`io/dispatch_hint.h`, `io/demand_transition.h`).

A demand edge of a pair opens a companion for it or drops the one it has. What that does belongs to
the medium: the gates are functions on its state. The map from a peer to its rings is one list; the
rings of a peer stand in it in the order of the vector.
-/
import Plexus.Io.EgressScheduler

namespace Plexus.Io

open Wire

/-- A set of bits. -/
structure DispatchHint where
  bits : UInt8
  deriving DecidableEq

namespace DispatchHint

def none : DispatchHint := ⟨0⟩
def large : DispatchHint := ⟨2⟩

def or (a b : DispatchHint) : DispatchHint := ⟨a.bits ||| b.bits⟩

def anySet (h : DispatchHint) : Bool := h.bits ≠ 0

end DispatchHint

inductive DemandTransition
  | up | down
  deriving DecidableEq

inductive DemandRole
  | publisher | subscriber
  deriving DecidableEq

/-- `coordinator_ring`, with its peer: a send companion has a channel, a receive one an owner. -/
structure CoordinatorRing where
  nodeName : Text
  fqn : Text
  channel : Option Channel := none
  fits : Option (Nat → Bool) := none
  receive : Bool := false

def CoordinatorRing.isFor (nodeName fqn : Text) (r : CoordinatorRing) : Bool :=
  r.nodeName = nodeName && r.fqn = fqn

/-- The medium's side: a mint may decline, and `discard` is the destructor of a held ring. -/
structure UpgradeGates (μ : Type) where
  mint : Option (μ → Text → μ × Option (Channel × Option (Nat → Bool))) := none
  receiveMint : Option (μ → Text → Text → μ × Bool) := none
  policy : Option (Bool → DispatchHint → Bool) := none
  discard : μ → CoordinatorRing → μ

/-- `run_policy`. -/
def UpgradeGates.runPolicy {μ : Type} (g : UpgradeGates μ) (sameHost : Bool) (hint : DispatchHint) :
    Bool :=
  match g.policy with
  | some policy => policy sameHost hint
  | none => sameHost && hint.anySet

/-- The rings held for remote demand. -/
structure UpgradeCoordinator where
  held : List CoordinatorRing := []
  hints : Text → Option DispatchHint := fun _ => none

namespace UpgradeCoordinator

variable (c : UpgradeCoordinator)

/-- Bits accumulate: either end's hint upgrades the pair. -/
def setTopicHint (fqn : Text) (hint : DispatchHint) : UpgradeCoordinator :=
  { c with
    hints := Function.update c.hints fqn
      (some (match c.hints fqn with
        | none => hint
        | some old => old.or hint)) }

def hintFor (fqn : Text) : DispatchHint := (c.hints fqn).getD .none

def findRing (nodeName fqn : Text) : Option CoordinatorRing :=
  c.held.find? (CoordinatorRing.isFor nodeName fqn)

def anyHolder (fqn : Text) : Bool := c.held.any (fun r => r.fqn = fqn)

/-- `companion_for`: nothing keeps the message on the wire. -/
def companionFor (nodeName fqn : Text) (bytes : Nat) : Option Channel :=
  match c.findRing nodeName fqn with
  | none => none
  | some r =>
    match r.fits with
    | none => none
    | some fits => if fits bytes then r.channel else none

section Edges

variable {μ : Type} (g : UpgradeGates μ) (c : UpgradeCoordinator) (m : μ) (nodeName fqn : Text)

def attachReceive : UpgradeCoordinator × μ :=
  match g.receiveMint with
  | none => (c, m)
  | some mint =>
    match mint m nodeName fqn with
    | (m, false) => (c, m)
    | (m, true) => ({ c with held := c.held ++ [{ nodeName, fqn, receive := true }] }, m)

def mintSend : UpgradeCoordinator × μ :=
  match g.mint with
  | none => (c, m)
  | some mint =>
    match mint m fqn with
    | (m, none) => (c, m)
    | (m, some (ch, fits)) =>
      ({ c with held := c.held ++ [{ nodeName, fqn, channel := some ch, fits }] }, m)

def onUp (sameHost : Bool) (role : DemandRole) : UpgradeCoordinator × μ :=
  if (c.findRing nodeName fqn).isSome then (c, m)
  else if !g.runPolicy sameHost (c.hintFor fqn) then (c, m)
  else
    match role with
    | .subscriber => c.attachReceive g m nodeName fqn
    | .publisher => c.mintSend g m nodeName fqn

/-- The last demand for a topic takes its hint along. -/
def onDown : UpgradeCoordinator × μ :=
  let gone := c.held.filter (CoordinatorRing.isFor nodeName fqn)
  let c := { c with held := c.held.filter fun r => !r.isFor nodeName fqn }
  (if c.anyHolder fqn then c else { c with hints := Function.update c.hints fqn none },
    gone.foldl g.discard m)

def onEdge (sameHost : Bool) (dir : DemandTransition) (role : DemandRole) : UpgradeCoordinator × μ :=
  match dir with
  | .up => c.onUp g m nodeName fqn sameHost role
  | .down => c.onDown g m nodeName fqn

def onPeerDead : UpgradeCoordinator × μ :=
  ({ c with held := c.held.filter fun r => r.nodeName ≠ nodeName },
    (c.held.filter fun r => r.nodeName = nodeName).foldl g.discard m)

end Edges

/-! ## What an edge does to the rings -/

theorem mem_held_of_companionFor {c : UpgradeCoordinator} {nodeName fqn : Text} {bytes : Nat} {ch : Channel}
    (h : c.companionFor nodeName fqn bytes = some ch) :
    ∃ r ∈ c.held, r.nodeName = nodeName ∧ r.channel = some ch := by
  unfold companionFor at h
  cases hfind : c.findRing nodeName fqn with
  | none => simp [hfind] at h
  | some r =>
    have hfor : r.isFor nodeName fqn := List.find?_some hfind
    simp only [CoordinatorRing.isFor, Bool.and_eq_true, decide_eq_true_eq] at hfor
    refine ⟨r, List.mem_of_find?_eq_some hfind, hfor.1, ?_⟩
    rw [hfind] at h
    cases hfits : r.fits with
    | none => simp [hfits] at h
    | some fits =>
      simp only [hfits] at h
      split at h
      · exact h
      · cases h

variable {μ : Type} (g : UpgradeGates μ) (c : UpgradeCoordinator) (m : μ) (nodeName fqn : Text)

/-- **An up-edge** holds what was held and at most one ring more. Its channel, if it has one, is the
one the medium has just minted. -/
theorem held_onUp (sameHost : Bool) (role : DemandRole) :
    (c.onUp g m nodeName fqn sameHost role).1.held = c.held ∨
      ∃ r, (c.onUp g m nodeName fqn sameHost role).1.held = c.held ++ [r] ∧
        ∀ ch, r.channel = some ch → ∃ mint fits, g.mint = some mint ∧
          mint m fqn = ((c.onUp g m nodeName fqn sameHost role).2, some (ch, fits)) := by
  unfold onUp
  split
  · exact .inl rfl
  split
  · exact .inl rfl
  cases role with
  | subscriber =>
    simp only [attachReceive]
    cases g.receiveMint with
    | none => exact .inl rfl
    | some mint =>
      rcases hmint : mint m nodeName fqn with ⟨m', taken⟩
      cases taken with
      | false => exact .inl (by simp [hmint])
      | true =>
        simp only [hmint]
        exact .inr ⟨_, rfl, fun ch hch => by cases hch⟩
  | publisher =>
    simp only [mintSend]
    cases hgate : g.mint with
    | none => exact .inl rfl
    | some mint =>
      rcases hmint : mint m fqn with ⟨m', minted⟩
      rcases minted with - | ⟨ch, fits⟩
      · exact .inl (by simp [hmint])
      simp only [hmint]
      refine .inr ⟨_, rfl, fun ch' hch => ?_⟩
      obtain rfl := Option.some.inj hch
      exact ⟨mint, fits, rfl, hmint⟩

/-- **Induction on an up-edge**, for what the gates do to the medium. -/
theorem medium_onUp (R : μ → Prop) (hstart : R m)
    (hmint : ∀ mint, g.mint = some mint → R (mint m fqn).1)
    (hreceive : ∀ mint, g.receiveMint = some mint → R (mint m nodeName fqn).1)
    (sameHost : Bool) (role : DemandRole) : R (c.onUp g m nodeName fqn sameHost role).2 := by
  unfold onUp
  split
  · exact hstart
  split
  · exact hstart
  cases role with
  | subscriber =>
    unfold attachReceive
    cases hgate : g.receiveMint with
    | none => exact hstart
    | some mint =>
      have h := hreceive mint hgate
      dsimp only
      split <;> (rename_i heq; rw [heq] at h; exact h)
  | publisher =>
    unfold mintSend
    cases hgate : g.mint with
    | none => exact hstart
    | some mint =>
      have h := hmint mint hgate
      dsimp only
      split <;> (rename_i heq; rw [heq] at h; exact h)

theorem held_onDown : (c.onDown g m nodeName fqn).1.held.Sublist c.held := by
  unfold onDown
  dsimp only
  split <;> exact List.filter_sublist

theorem held_onPeerDead : (c.onPeerDead g m nodeName).1.held.Sublist c.held := List.filter_sublist

end UpgradeCoordinator

end Plexus.Io
