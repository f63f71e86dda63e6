/-
# Plexus.Lib.SlotTable — a table with one slot per key and holders that come and go.

A holder enters the slot of its key and displaces who was there. When it leaves, the slot is cleared:
only if it is the holder's own (`release`), or whoever's it is (`evict`). Nobody who was displaced is
put back. The slot is that of the newest holder left exactly as long as a leaving holder that clears
it is the last of its key.
-/
import Mathlib.Data.List.Basic

namespace Plexus.Lib

variable {κ α : Type} [DecidableEq κ]

inductive SlotOp (κ α : Type)
  | keep
  | enter (k : κ) (a : α)
  | evict (k : κ) (a : α)
  | release (k : κ) (a : α)
  deriving DecidableEq

namespace SlotOp

variable [DecidableEq α]

def look (slot : κ → Option α) : SlotOp κ α → κ → Option α
  | keep => slot
  | enter k a => fun x => if x = k then some a else slot x
  | evict k _ => fun x => if x = k then none else slot x
  | release k a => fun x => if x = k ∧ slot k = some a then none else slot x

/-- The holders that have entered and not left, newest first. -/
def holders (hs : List (κ × α)) : SlotOp κ α → List (κ × α)
  | keep => hs
  | enter k a => (k, a) :: hs
  | evict k a => hs.filter (· ≠ (k, a))
  | release k a => hs.filter (· ≠ (k, a))

/-- Who clears a slot is the last holder of its key. -/
def Last (slot : κ → Option α) (hs : List (κ × α)) : SlotOp κ α → Prop
  | evict k a => ∀ h ∈ hs, h.1 = k → h.2 = a
  | release k a => slot k = some a → ∀ h ∈ hs, h.1 = k → h.2 = a
  | _ => True

instance (slot : κ → Option α) (hs : List (κ × α)) (op : SlotOp κ α) : Decidable (op.Last slot hs) := by
  unfold Last
  split <;> infer_instance

end SlotOp

def newest (hs : List (κ × α)) (k : κ) : Option α := (hs.find? fun h => h.1 = k).map Prod.snd

theorem newest_cons (k : κ) (a : α) (hs : List (κ × α)) (x : κ) :
    newest ((k, a) :: hs) x = if x = k then some a else newest hs x := by
  unfold newest
  by_cases hx : x = k
  · simp [hx]
  · simp [hx, Ne.symm hx]

variable {hs : List (κ × α)} {slot : κ → Option α}

theorem newest_eq_none_iff {x : κ} : newest hs x = none ↔ ∀ h ∈ hs, h.1 ≠ x := by
  simp [newest]

theorem newest_mem {x : κ} {a : α} (h : newest hs x = some a) : (x, a) ∈ hs := by
  obtain ⟨⟨k, b⟩, hfound, rfl⟩ := Option.map_eq_some_iff.mp h
  have hkey := List.find?_some hfound
  obtain rfl : k = x := of_decide_eq_true hkey
  exact List.mem_of_find?_eq_some hfound

variable [DecidableEq α]

theorem newest_filter {x k : κ} {a : α} (h : x = k → newest hs x ≠ some a) :
    newest (hs.filter (· ≠ (k, a))) x = newest hs x := by
  induction hs with
  | nil => rfl
  | cons g hs ih =>
    obtain ⟨j, b⟩ := g
    rw [newest_cons] at h
    rw [List.filter_cons, newest_cons]
    by_cases hx : x = j
    · rw [if_pos hx] at h ⊢
      have hne : (j, b) ≠ (k, a) := by
        rintro ⟨⟩
        exact h hx rfl
      rw [if_pos (decide_eq_true hne), newest_cons, if_pos hx]
    · rw [if_neg hx] at h ⊢
      split
      · rw [newest_cons, if_neg hx, ih h]
      · exact ih h

/-- Clearing a slot is right exactly when nobody else holds its key. -/
theorem newest_evict_iff (h : ∀ x, slot x = newest hs x) (k : κ) (a : α) :
    (∀ x, (if x = k then none else slot x) = newest (hs.filter (· ≠ (k, a))) x) ↔
      ∀ g ∈ hs, g.1 = k → g.2 = a := by
  constructor
  · intro hall g hg hk
    have hnone := hall k
    rw [if_pos rfl] at hnone
    by_contra hother
    refine newest_eq_none_iff.mp hnone.symm g (List.mem_filter.mpr ⟨hg, ?_⟩) hk
    simpa using fun heq => hother (congrArg Prod.snd heq)
  intro hlast x
  split
  · rename_i hx
    refine (newest_eq_none_iff.mpr fun g hg hk => ?_).symm
    obtain ⟨hg, hother⟩ := List.mem_filter.mp hg
    exact of_decide_eq_true hother (Prod.ext (hk.trans hx) (hlast g hg (hk.trans hx)))
  · rename_i hx
    rw [newest_filter fun heq => absurd heq hx, h x]

/-- **One operation** keeps every slot that of its newest holder exactly if who clears one is the last
of its key. -/
theorem SlotOp.newest_iff (h : ∀ x, slot x = newest hs x) (op : SlotOp κ α) :
    (∀ x, op.look slot x = newest (op.holders hs) x) ↔ op.Last slot hs := by
  cases op with
  | keep => exact iff_of_true h trivial
  | enter k a =>
    refine iff_of_true (fun x => ?_) trivial
    rw [holders, newest_cons, ← h x]
    rfl
  | evict k a => exact newest_evict_iff h k a
  | release k a =>
    by_cases hown : slot k = some a
    · simp only [look, hown, and_true, Last, forall_const]
      exact newest_evict_iff h k a
    refine iff_of_true (fun x => ?_) fun heq => absurd heq hown
    rw [holders, newest_filter, ← h x]
    · exact if_neg fun hx => hown hx.2
    · rintro rfl
      rwa [← h x]

/-- A slot is never that of a holder that has left. -/
theorem SlotOp.mem_holders (h : ∀ x a, slot x = some a → (x, a) ∈ hs) (op : SlotOp κ α) {x : κ}
    {a : α} (hslot : op.look slot x = some a) : (x, a) ∈ op.holders hs := by
  cases op with
  | keep => exact h x a hslot
  | enter k b =>
    simp only [look] at hslot
    split at hslot
    · rename_i hx
      obtain rfl := Option.some_inj.mp hslot
      exact hx ▸ List.mem_cons_self
    · exact List.mem_cons_of_mem _ (h x a hslot)
  | evict k b =>
    simp only [look] at hslot
    split at hslot
    · cases hslot
    · rename_i hx
      exact List.mem_filter.mpr ⟨h x a hslot, by simp [hx]⟩
  | release k b =>
    simp only [look] at hslot
    split at hslot
    · cases hslot
    rename_i hx
    refine List.mem_filter.mpr ⟨h x a hslot, ?_⟩
    simp only [ne_eq, decide_eq_true_eq]
    rintro ⟨rfl, rfl⟩
    exact hx ⟨rfl, hslot⟩

end Plexus.Lib
