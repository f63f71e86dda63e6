/-
# Plexus.Datagram.ReassemblyAccounts — what a reassembler holds, and what it charges for it
(`datagram/detail/reassembler.h`, `datagram/detail/reassembler_flat_map.h`).

The reassembler counts the bytes of the slices it keeps and a cost for each open message, and admits
nothing past a cap. `Accounted`: the count is the sum over the open messages, whose ids are sorted
and distinct, each with its flags, its number of slices and its size in agreement. Every call keeps
it (`accounted_run`), shown once for each change there is (`Reassembler.Move`).
-/
import Plexus.Datagram.Reassembler

namespace Plexus.Datagram

open Lib List

/-! ## The sorted table -/

namespace FlatMap

variable {β : Type} {m m' : FlatMap β} {key : UInt16} {value value' : β}
  {pre post : List (UInt16 × β)} {p : UInt16 × β}

/-- Keys grow, so none is there twice. -/
def Sorted (m : FlatMap β) : Prop := m.entries.Pairwise fun p q => p.1 < q.1

/-- In a sorted table a key that is not found has everything behind its place above it. -/
theorem Gap.above (h : m.Gap key pre post) (hsorted : m.Sorted) (hnone : m.find key = none) :
    ∀ p ∈ post, key < p.1 := by
  rw [Sorted, h.entries, pairwise_append] at hsorted
  rw [h.find] at hnone
  cases post with
  | nil => exact forall_mem_nil _
  | cons first post =>
    have hne : first.1 ≠ key := by
      intro hkey
      simp [hkey] at hnone
    have hfirst : key < first.1 := by
      rcases UInt16.lt_or_lt_of_ne hne with hlt | hgt
      · exact absurd hlt (h.head first rfl)
      · exact hgt
    intro p hp
    rcases mem_cons.mp hp with rfl | hrest
    · exact hfirst
    · exact UInt16.lt_trans hfirst ((pairwise_cons.mp hsorted.2.1).1 p hrest)

theorem Sorted.erase (hsorted : m.Sorted) (key : UInt16) : (m.erase key).Sorted :=
  hsorted.sublist (eraseIdx_sublist ..)

theorem Sorted.update (hsorted : m.Sorted) (h : m.At key value pre post) : (m.update key value').Sorted := by
  have hafter : (m.update key value').At key value' pre post := .update h
  rw [Sorted, h.entries, ← pairwise_map] at hsorted
  rw [Sorted, hafter.entries, ← pairwise_map]
  simpa using hsorted

theorem Sorted.emplace (hsorted : m.Sorted) (hnone : m.find key = none)
    (hm : m.emplace key value = some m') : m'.Sorted := by
  obtain ⟨pre, post, hgap, hat⟩ := at_of_emplace hm
  have habove := hgap.above hsorted hnone
  rw [Sorted, hgap.entries, pairwise_append] at hsorted
  rw [Sorted, hat.entries, pairwise_append, pairwise_cons]
  refine ⟨hsorted.1, ⟨habove, hsorted.2.1⟩, fun p hp q hq => ?_⟩
  rcases mem_cons.mp hq with rfl | hrest
  · exact hat.below p hp
  · exact hsorted.2.2 p hp q hrest

end FlatMap

/-! ## One message -/

namespace PartialEntry

/-- The bytes of the slices that are there. -/
def stored (e : PartialEntry) : Nat := (e.slots.map length).sum

/-- One flag for each slot, no bytes where there is no flag, the count and the size of what is
there, the cost of the slots. -/
structure Consistent (e : PartialEntry) : Prop where
  flags : e.present.length = e.slots.length
  counted : e.received = e.present.count true
  vacant : ∀ i : Nat, e.present[i]? = some false → e.slots[i]? = some []
  size : e.size = e.stored
  overhead : e.overhead = structuralCost e.slots.length

/-- An entry that is waiting for more, and not above the ceiling. -/
structure Sound (maxMessageSize : Nat) (e : PartialEntry) : Prop extends e.Consistent where
  missing : e.received < e.slots.length
  ceiling : e.stored ≤ maxMessageSize

theorem sum_length_set {slots : List Bytes} {i : Nat} (h : slots[i]? = some [])
    (bytes : Bytes) :
    ((slots.set i bytes).map length).sum = (slots.map length).sum + bytes.length := by
  induction slots generalizing i with
  | nil => cases h
  | cons slot slots ih =>
    cases i with
    | zero =>
      obtain rfl : slot = [] := Option.some.inj h
      simp [add_comm]
    | succ i =>
      rw [set_cons_succ, map_cons, sum_cons, ih h, map_cons, sum_cons, add_assoc]

variable {e : PartialEntry} {fragIdx fragCnt maxMessageSize : Nat} {bytes : Bytes}

theorem consistent_opened (fragCnt : Nat) : (opened fragCnt).Consistent where
  flags := by rw [opened, length_replicate, length_replicate]
  counted := by simp [opened, count_replicate]
  vacant := by
    intro i hi
    rw [opened, List.getElem?_replicate] at hi ⊢
    split at hi
    · rename_i hlt
      rw [if_pos hlt]
    · cases hi
  size := by simp [opened, stored]
  overhead := by rw [opened, length_replicate]

theorem sound_opened (hpos : 0 < fragCnt) (maxMessageSize : Nat) : (opened fragCnt).Sound maxMessageSize where
  toConsistent := consistent_opened fragCnt
  missing := by
    rw [opened, length_replicate]
    exact hpos
  ceiling := by simp [opened, stored]

theorem Consistent.absent (h : e.Consistent) (hidx : fragIdx < e.slots.length)
    (habsent : e.present.getD fragIdx false ≠ true) : e.present[fragIdx]? = some false := by
  have hlt : fragIdx < e.present.length := by rw [h.flags]; exact hidx
  rw [getD_eq_getElem?_getD, List.getElem?_eq_getElem hlt, Option.getD_some] at habsent
  rw [List.getElem?_eq_getElem hlt, Bool.not_eq_true _ |>.mp habsent]

section

variable (h : e.Consistent) (habsent : e.present[fragIdx]? = some false)
include h habsent

theorem Consistent.stored_withSlice :
    (e.withSlice fragIdx bytes).stored = e.stored + bytes.length :=
  sum_length_set (h.vacant fragIdx habsent) bytes

theorem Consistent.withSlice : (e.withSlice fragIdx bytes).Consistent := by
  obtain ⟨hlt, hflag⟩ := List.getElem?_eq_some_iff.mp habsent
  refine ⟨?_, ?_, ?_, ?_, ?_⟩
  · show (e.present.set fragIdx true).length = (e.slots.set fragIdx bytes).length
    rw [length_set, length_set]
    exact h.flags
  · show e.received + 1 = (e.present.set fragIdx true).count true
    rw [count_set hlt, hflag, h.counted]
    simp
  · show ∀ i : Nat, (e.present.set fragIdx true)[i]? = some false →
      (e.slots.set fragIdx bytes)[i]? = some []
    intro i hi
    by_cases heq : fragIdx = i
    · subst heq
      rw [List.getElem?_set_self hlt] at hi
      cases hi
    · rw [List.getElem?_set_ne heq] at hi ⊢
      exact h.vacant i hi
  · rw [h.stored_withSlice habsent, ← h.size]
    rfl
  · show e.overhead = structuralCost (e.slots.set fragIdx bytes).length
    rw [length_set]
    exact h.overhead

end

end PartialEntry

/-! ## The accounts -/

/-- What the open messages are charged. -/
def charge (entries : List (UInt16 × PartialEntry)) : Nat :=
  (entries.map fun p => p.2.stored + p.2.overhead).sum

theorem charge_append (pre post : List (UInt16 × PartialEntry)) :
    charge (pre ++ post) = charge pre + charge post := by
  rw [charge, map_append, sum_append]
  rfl

theorem charge_at {m : FlatMap PartialEntry} {key : UInt16} {e : PartialEntry}
    {pre post : List (UInt16 × PartialEntry)} (h : m.At key e pre post) :
    charge m.entries = charge (pre ++ post) + (e.stored + e.overhead) := by
  have hcons : charge ((key, e) :: post) = (e.stored + e.overhead) + charge post := rfl
  rw [h.entries, charge_append, charge_append]
  omega

namespace Reassembler

variable {r r' : Reassembler} {P : Bytes → Prop}

/-- The count is the sum over the open messages and within the cap; their ids are sorted, and each
agrees with itself. -/
structure Accounted (r : Reassembler) : Prop where
  sorted : r.table.Sorted
  charged : r.held = charge r.table.entries
  capped : r.held ≤ r.cfg.totalMemoryCap
  entries : ∀ p ∈ r.table.entries, p.2.Sound r.cfg.maxMessageSize

theorem accounted_fresh (cfg : ReassemblerConfig) : (fresh cfg).Accounted where
  sorted := .nil
  charged := rfl
  capped := Nat.zero_le _
  entries := forall_mem_nil _

theorem Accounted.sound (h : r.Accounted) {msgId : UInt16} {e : PartialEntry}
    (hfind : r.table.find msgId = some e) : e.Sound r.cfg.maxMessageSize :=
  h.entries _ (FlatMap.mem_of_find hfind)

theorem Fits.absent {e : PartialEntry} {fragIdx : Nat} {bytes : Bytes} (h : r.Fits e fragIdx bytes)
    (hconsistent : e.Consistent) : e.present[fragIdx]? = some false :=
  hconsistent.absent h.slot h.empty

/-- An entry that goes takes its whole charge with it. -/
theorem Accounted.charge_erase (h : r.Accounted) {msgId : UInt16} {e : PartialEntry}
    (hfind : r.table.find msgId = some e) :
    charge (r.table.erase msgId).entries + (e.size + e.overhead) = r.held := by
  obtain ⟨pre, post, hat⟩ := FlatMap.at_of_find hfind
  have hcharge := charge_at hat
  have hsize := (h.sound hfind).size
  have hheld := h.charged
  rw [FlatMap.At.erase hat]
  show charge (pre ++ post) + _ = _
  omega

/-- **Every change is accounted for.** -/
theorem Accounted.move (h : r.Accounted) (hm : Move P r r') : r'.Accounted := by
  have hheld := h.charged
  cases hm with
  | noted => exact { h with }
  | @opened msgId fragCnt table hpos _ hnone hcap htable =>
    obtain ⟨pre, post, hgap, hat⟩ := FlatMap.at_of_emplace htable
    refine ⟨h.sorted.emplace hnone htable, ?_, hcap, fun p hp => ?_⟩
    · have hcost : (PartialEntry.opened fragCnt).stored + (PartialEntry.opened fragCnt).overhead =
          structuralCost fragCnt := by
        simp [PartialEntry.opened, PartialEntry.stored]
      show r.held + structuralCost fragCnt = charge table.entries
      rw [charge_at hat, hcost, ← hgap.entries, hheld]
    · rcases FlatMap.mem_emplace htable hp with hold | rfl
      · exact h.entries p hold
      · exact PartialEntry.sound_opened hpos _
  | @kept msgId e fragIdx bytes hfind _ hfits hmissing =>
    obtain ⟨pre, post, hat⟩ := FlatMap.at_of_find hfind
    have hsound := h.sound hfind
    have hcharge := charge_at hat
    have hstored : (e.withSlice fragIdx bytes).stored = e.stored + bytes.length :=
      hsound.stored_withSlice (hfits.absent hsound.toConsistent)
    refine ⟨h.sorted.update hat, ?_, hfits.memory, fun p hp => ?_⟩
    · show r.held + bytes.length = charge (r.table.update msgId (e.withSlice fragIdx bytes)).entries
      rw [charge_at (.update hat), show (e.withSlice fragIdx bytes).overhead = e.overhead from rfl]
      omega
    rcases FlatMap.mem_update hp with hold | rfl
    · exact h.entries p hold
    refine ⟨hsound.withSlice (hfits.absent hsound.toConsistent), ?_, ?_⟩
    · exact hmissing.trans_eq (length_set ..).symm
    · rw [hstored, ← hsound.size]
      exact hfits.ceiling
  | completed hfind _ hfits _ =>
    have hcharge := h.charge_erase hfind
    exact ⟨h.sorted.erase _, by dsimp only; omega, le_trans (Nat.sub_le _ _) hfits.memory,
      fun p hp => h.entries p (FlatMap.mem_erase hp)⟩
  | evicted hfind =>
    have hcharge := h.charge_erase hfind
    exact ⟨h.sorted.erase _, by dsimp only; omega, le_trans (Nat.sub_le _ _) h.capped,
      fun p hp => h.entries p (FlatMap.mem_erase hp)⟩

theorem Accounted.step (h : r.Accounted) (e : ReassemblerEvent) : (r.step e).Accounted :=
  step_invariant Accounted (fun _ _ h hm => h.move hm) e (fun _ _ _ _ _ => trivial) h

theorem accounted_run (cfg : ReassemblerConfig) (events : List ReassemblerEvent) :
    ((fresh cfg).run events).Accounted ∧ ((fresh cfg).run events).cfg = cfg := by
  have hcfg : ∀ (r : Reassembler) (e : ReassemblerEvent), r.cfg = cfg → (r.step e).cfg = cfg := by
    intro r e
    apply step_invariant (fun r => r.cfg = cfg) _ e (fun _ _ _ _ _ => trivial)
    intro r r' h hm
    cases hm <;> exact h
  exact run_invariant (fun r => r.Accounted ∧ r.cfg = cfg) (fun r e h => ⟨h.1.step e, hcfg r e h.2⟩)
    ⟨accounted_fresh cfg, rfl⟩ events

/-- **What is held is what is counted, and never above the cap**: after any fragments, whatever they
say of themselves, after timeouts at any moment and completions. The ids are sorted and distinct, an
open message counts its filled slots and lacks at least one, and none is above the ceiling. -/
theorem memory_accounted (cfg : ReassemblerConfig) (events : List ReassemblerEvent) :
    let r := (fresh cfg).run events
    r.held = (r.table.entries.map fun p =>
        (p.2.slots.map List.length).sum + structuralCost p.2.slots.length).sum ∧
      r.held ≤ cfg.totalMemoryCap ∧
      (r.table.entries.map Prod.fst).Pairwise (· < ·) ∧
      ∀ p ∈ r.table.entries,
        p.2.received = p.2.present.count true ∧ p.2.present.length = p.2.slots.length ∧
          p.2.received < p.2.slots.length ∧
          (p.2.slots.map List.length).sum ≤ cfg.maxMessageSize := by
  intro r
  obtain ⟨haccounted, hcfg⟩ := accounted_run cfg events
  have hsound : ∀ p ∈ r.table.entries, p.2.Sound cfg.maxMessageSize := by
    intro p hp
    rw [← hcfg]
    exact haccounted.entries p hp
  refine ⟨?_, ?_, ?_, fun p hp => ?_⟩
  · rw [haccounted.charged, charge]
    apply congrArg List.sum
    apply List.map_congr_left
    intro p hp
    rw [PartialEntry.stored, (hsound p hp).overhead]
  · rw [← hcfg]
    exact haccounted.capped
  · rw [List.pairwise_map]
    exact haccounted.sorted
  · exact ⟨(hsound p hp).counted, (hsound p hp).flags, (hsound p hp).missing, (hsound p hp).ceiling⟩

end Reassembler

end Plexus.Datagram
