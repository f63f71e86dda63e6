/-
# Plexus.Api.KnownPeers — the peers a node lists and the peers its engine is aware of
(`node.h`, `io/known_peers.h`, `sweep_aged_awareness` in `io/routing_engine.h`).

A card enters a peer in both, a goodbye takes it out of both. A heartbeat renews the stamp of the
engine's entry; the sweep of a tick drops the entries past their time and does not tell the node. Of a
card there is the id, if it has one, and the endpoint, if it has a host and a usable port.
-/
import Plexus.Lib.Run

namespace Plexus.Api

open Lib Function

structure AwareNode (ι ε : Type) where
  id : ι
  awarenessTtl : UInt64
  knownPeers : List ι := []
  /-- the endpoint of each peer, and when it was last refreshed -/
  awareness : ι → Option (ε × UInt64) := fun _ => none

inductive AwarenessEvent (ι ε : Type)
  | card (peerId : Option ι) (endpoint : Option ε) (now : UInt64)
  | goodbye (peerId : Option ι)
  | heartbeat (peer : ι) (now : UInt64)
  | tick (now : UInt64)

namespace AwareNode

variable {ι ε : Type} [DecidableEq ι] (n : AwareNode ι ε)

def noteKnownPeer (peer : ι) : AwareNode ι ε :=
  if peer ∈ n.knownPeers then n else { n with knownPeers := n.knownPeers ++ [peer] }

def noteFromCard (peerId : Option ι) (endpoint : Option ε) (now : UInt64) : AwareNode ι ε :=
  match peerId, endpoint with
  | some peer, some ep =>
    if peer = n.id then n
    else { n with awareness := update n.awareness peer (some (ep, now)) }.noteKnownPeer peer
  | _, _ => n

def forgetFromCard : Option ι → AwareNode ι ε
  | none => n
  | some peer =>
    if peer = n.id then n
    else
      { n with
        awareness := update n.awareness peer none
        knownPeers := n.knownPeers.filter (· ≠ peer) }

def deadline (now : UInt64) : UInt64 := if n.awarenessTtl < now then now - n.awarenessTtl else 0

def step : AwarenessEvent ι ε → AwareNode ι ε
  | .card peerId endpoint now => n.noteFromCard peerId endpoint now
  | .goodbye peerId => n.forgetFromCard peerId
  | .heartbeat peer now =>
    { n with awareness := update n.awareness peer ((n.awareness peer).map fun r => (r.1, now)) }
  | .tick now =>
    { n with awareness := fun peer => (n.awareness peer).filter fun r => !(r.2 < n.deadline now) }

/-- What holds of every run: no peer is listed twice, and none is left out. -/
structure Lists : Prop where
  nodup : n.knownPeers.Nodup
  listed : ∀ peer, (n.awareness peer).isSome → peer ∈ n.knownPeers

/-- The list is the table. -/
structure Agrees : Prop extends n.Lists where
  aware : ∀ peer ∈ n.knownPeers, (n.awareness peer).isSome

/-- A tick finds no entry past its time. -/
def NoneAged (n : AwareNode ι ε) : AwarenessEvent ι ε → Prop
  | .tick now => ∀ peer r, n.awareness peer = some r → ¬ r.2 < n.deadline now
  | _ => True

/-- The same is done to the list and to the table. -/
inductive Together (n n' : AwareNode ι ε) : Prop
  | mk (f : ι → Prop → Prop) (mono : ∀ peer p q, (p → q) → f peer p → f peer q)
      (nodup : n.knownPeers.Nodup → n'.knownPeers.Nodup)
      (known : ∀ peer, peer ∈ n'.knownPeers ↔ f peer (peer ∈ n.knownPeers))
      (aware : ∀ peer, (n'.awareness peer).isSome = true ↔ f peer ((n.awareness peer).isSome))

theorem together_or_tick (e : AwarenessEvent ι ε) :
    (Together n (n.step e) ∧ NoneAged n e) ∨ ∃ now, e = .tick now := by
  have hsame : Together n n :=
    ⟨fun _ p => p, fun _ _ _ h => h, fun h => h, fun _ => .rfl, fun _ => .rfl⟩
  cases e with
  | card peerId endpoint now =>
    refine .inl ⟨?_, trivial⟩
    simp only [step, noteFromCard]
    split
    · rename_i peer ep
      split
      · exact hsame
      refine ⟨fun x p => x = peer ∨ p, fun _ _ _ h => Or.imp_right h, ?_, ?_, ?_⟩ <;>
        unfold noteKnownPeer <;> split <;> rename_i hmem
      · exact fun h => h
      · intro h
        simpa [List.nodup_append, h] using fun x hx => ne_of_mem_of_not_mem hx hmem
      · exact fun x => ⟨.inr, fun h => h.elim (fun heq => heq ▸ hmem) fun h => h⟩
      · simp [or_comm]
      all_goals
        intro x
        by_cases hx : x = peer <;> simp [hx]
    · exact hsame
  | goodbye peerId =>
    refine .inl ⟨?_, trivial⟩
    simp only [step, forgetFromCard]
    split
    · exact hsame
    rename_i peer
    split
    · exact hsame
    refine ⟨fun x p => x ≠ peer ∧ p, fun _ _ _ h => And.imp_right h, .filter _, ?_, ?_⟩
    · simp [and_comm]
    · intro x
      by_cases hx : x = peer <;> simp [hx]
  | heartbeat peer now =>
    refine .inl ⟨⟨fun _ p => p, fun _ _ _ h => h, fun h => h, fun _ => .rfl, fun x => ?_⟩, trivial⟩
    by_cases hx : x = peer <;> simp [step, hx]
  | tick now => exact .inr ⟨now, rfl⟩

theorem lists_step (n : AwareNode ι ε) (e : AwarenessEvent ι ε) (h : n.Lists) : (n.step e).Lists := by
  rcases n.together_or_tick e with ⟨⟨f, mono, nodup, known, aware⟩, -⟩ | ⟨now, rfl⟩
  · exact ⟨nodup h.nodup, fun peer haware =>
      (known peer).mpr (mono peer _ _ (h.listed peer) ((aware peer).mp haware))⟩
  · refine ⟨h.nodup, fun peer haware => h.listed peer ?_⟩
    obtain ⟨r, hr⟩ := Option.isSome_iff_exists.mp haware
    exact Option.isSome_iff_exists.mpr ⟨r, (Option.filter_eq_some_iff.mp hr).1⟩

theorem agrees_step_iff (n : AwareNode ι ε) (e : AwarenessEvent ι ε) (hlists : n.Lists) (h : n.Agrees) :
    (n.step e).Agrees ↔ NoneAged n e := by
  rcases n.together_or_tick e with ⟨⟨f, mono, -, known, aware⟩, hfree⟩ | ⟨now, rfl⟩
  · refine iff_of_true ⟨lists_step n e hlists, fun peer hmem => ?_⟩ hfree
    exact (aware peer).mpr (mono peer _ _ (h.aware peer) ((known peer).mp hmem))
  constructor
  · intro hnext peer r hr haged
    have hkept := hnext.aware peer (h.listed peer (by rw [hr]; rfl))
    simp [step, hr, haged] at hkept
  intro hnone
  refine ⟨lists_step n _ hlists, fun peer hmem => ?_⟩
  obtain ⟨r, hr⟩ := Option.isSome_iff_exists.mp (h.aware peer hmem)
  simpa [step, hr] using hnone peer r hr

def start (id : ι) (ttl : UInt64) : AwareNode ι ε := { id, awarenessTtl := ttl }

def run (id : ι) (ttl : UInt64) (es : List (AwarenessEvent ι ε)) : AwareNode ι ε :=
  es.foldl step (start id ttl)

/-- **The node and its engine agree all along exactly if no tick drops an entry**; a list never has a
peer twice, and never lacks one the engine is aware of. -/
theorem known_agree_iff (id : ι) (ttl : UInt64) (es : List (AwarenessEvent ι ε)) :
    ((∀ k, (run id ttl (es.take k)).Agrees) ↔ Guarded step NoneAged (start id ttl) es) ∧
      (run id ttl es).Lists := by
  have hstart : (start id ttl : AwareNode ι ε).Agrees := ⟨⟨.nil, nofun⟩, List.forall_mem_nil _⟩
  exact ⟨(guarded_iff_forall_take Lists Agrees lists_step agrees_step_iff hstart.toLists hstart es).symm,
    run_invariant Lists lists_step hstart.toLists es⟩

/-- A peer that falls silent for the default time to live is dropped by the engine and stays listed. -/
theorem aged_peer_stays_listed :
    let n : AwareNode Nat Unit := run 0 15000000000 [.card (some 1) (some ()) 1, .tick 15000000002]
    n.knownPeers = [1] ∧ n.awareness 1 = none := by
  decide

end AwareNode

end Plexus.Api
