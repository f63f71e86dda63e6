/-
# Plexus.Lib.Collector — gathering a set, again and again.

Things arrive one by one, in any order and with duplicates. A collector keeps what it has not seen
yet; when it has all of a given set it counts a round and starts over.

A row of arrivals without the whole set makes no round (`foldl_add_of_not_covers`). With it there is
a first place where the set is complete (`exists_complete`). So there is exactly one round if the
arrivals cannot be cut in two that both contain the set (`rounds_collect_eq_one_iff`).
-/
import Mathlib.Data.Finset.Card

namespace Plexus.Lib

open List

variable {α : Type*} [DecidableEq α]

structure Collection (α : Type*) where
  held : Finset α := ∅
  rounds : Nat := 0

namespace Collection

def add (goal : Finset α) (c : Collection α) (a : α) : Collection α :=
  if goal ⊆ insert a c.held then { held := ∅, rounds := c.rounds + 1 }
  else { c with held := insert a c.held }

def collect (goal : Finset α) (arrivals : List α) : Collection α := arrivals.foldl (add goal) {}

/-- All of the set is among the arrivals. -/
def Covers (goal : Finset α) (arrivals : List α) : Prop := ∀ a ∈ goal, a ∈ arrivals

instance (goal : Finset α) (arrivals : List α) : Decidable (Covers goal arrivals) :=
  inferInstanceAs (Decidable (∀ a ∈ goal, a ∈ arrivals))

variable {goal : Finset α}

theorem covers_iff_subset (arrivals : List α) : Covers goal arrivals ↔ goal ⊆ arrivals.toFinset := by
  simp only [Covers, Finset.subset_iff, mem_toFinset]

/-- Without the whole set nothing happens but that the arrivals are kept. -/
theorem foldl_add_of_not_covers {c : Collection α} {arrivals : List α}
    (h : ¬ goal ⊆ c.held ∪ arrivals.toFinset) :
    arrivals.foldl (add goal) c = { c with held := c.held ∪ arrivals.toFinset } := by
  induction arrivals generalizing c with
  | nil => simp
  | cons a arrivals ih =>
    have hunion : c.held ∪ (a :: arrivals).toFinset = insert a c.held ∪ arrivals.toFinset := by
      rw [toFinset_cons, Finset.union_insert, Finset.insert_union]
    rw [hunion] at h ⊢
    have hstep : add goal c a = { c with held := insert a c.held } :=
      if_neg fun hsub => h (hsub.trans Finset.subset_union_left)
    rw [foldl_cons, hstep]
    exact ih h

/-- **The place where the set is complete for the first time.** -/
theorem exists_complete {c : Collection α} {arrivals : List α} (hopen : ¬ goal ⊆ c.held)
    (h : goal ⊆ c.held ∪ arrivals.toFinset) :
    ∃ before a after, arrivals = before ++ a :: after ∧ ¬ goal ⊆ c.held ∪ before.toFinset ∧
      goal ⊆ insert a (c.held ∪ before.toFinset) ∧
      arrivals.foldl (add goal) c = after.foldl (add goal) { held := ∅, rounds := c.rounds + 1 } := by
  induction arrivals generalizing c with
  | nil =>
    rw [toFinset_nil, Finset.union_empty] at h
    exact absurd h hopen
  | cons a arrivals ih =>
    by_cases hsub : goal ⊆ insert a c.held
    · refine ⟨[], a, arrivals, rfl, by simpa using hopen, by simpa using hsub, ?_⟩
      rw [foldl_cons, add, if_pos hsub]
    have hunion : ∀ l : List α, insert a c.held ∪ l.toFinset = c.held ∪ (a :: l).toFinset := by
      intro l
      rw [toFinset_cons, Finset.union_insert, Finset.insert_union]
    have hstep : add goal c a = { c with held := insert a c.held } := if_neg hsub
    obtain ⟨before, x, after, rfl, hbefore, hcomplete, hfold⟩ :=
      ih (c := { c with held := insert a c.held }) hsub (by rw [hunion]; exact h)
    refine ⟨a :: before, x, after, rfl, ?_, ?_, ?_⟩
    · rw [← hunion]
      exact hbefore
    · rw [← hunion]
      exact hcomplete
    · rw [foldl_cons, hstep]
      exact hfold

theorem rounds_le_foldl_add (goal : Finset α) (c : Collection α) (arrivals : List α) :
    c.rounds ≤ (arrivals.foldl (add goal) c).rounds := by
  induction arrivals generalizing c with
  | nil => exact le_rfl
  | cons a arrivals ih =>
    refine le_trans ?_ (ih (add goal c a))
    rw [add]
    split
    · exact Nat.le_succ _
    · exact le_rfl

theorem rounds_foldl_add_eq_iff (hgoal : goal ≠ ∅) (n : Nat) (arrivals : List α) :
    (arrivals.foldl (add goal) { held := ∅, rounds := n }).rounds = n ↔ ¬ Covers goal arrivals := by
  have hnone : ¬ goal ⊆ (∅ : Finset α) := fun hsub => hgoal (Finset.subset_empty.mp hsub)
  rw [covers_iff_subset]
  constructor
  · intro hrounds hcovers
    obtain ⟨-, -, after, -, -, -, hfold⟩ :=
      exists_complete (c := { held := ∅, rounds := n }) hnone (by simpa using hcovers)
    have hle := rounds_le_foldl_add goal { held := ∅, rounds := n + 1 } after
    rw [← hfold, hrounds] at hle
    exact absurd hle (Nat.not_succ_le_self n)
  · intro hmissing
    rw [foldl_add_of_not_covers (c := { held := ∅, rounds := n }) (by simpa using hmissing)]

theorem rounds_collect_eq_zero_iff (hgoal : goal ≠ ∅) (arrivals : List α) :
    (collect goal arrivals).rounds = 0 ↔ ¬ Covers goal arrivals :=
  rounds_foldl_add_eq_iff hgoal 0 arrivals

/-- **One round**, if the whole set is there and not twice, one after the other. -/
theorem rounds_collect_eq_one_iff (hgoal : goal ≠ ∅) (arrivals : List α) :
    (collect goal arrivals).rounds = 1 ↔
      Covers goal arrivals ∧ ¬ ∃ before after, arrivals = before ++ after ∧ Covers goal before ∧
        Covers goal after := by
  have hnone : ¬ goal ⊆ (∅ : Finset α) := fun hsub => hgoal (Finset.subset_empty.mp hsub)
  by_cases hcovers : Covers goal arrivals
  · obtain ⟨before, a, after, rfl, hbefore, hcomplete, hfold⟩ := exists_complete (c := {}) hnone
      (by simpa using (covers_iff_subset arrivals).mp hcovers)
    have hrounds : (collect goal (before ++ a :: after)).rounds = 1 ↔ ¬ Covers goal after := by
      rw [collect, hfold]
      exact rounds_foldl_add_eq_iff hgoal 1 after
    rw [hrounds]
    refine ⟨fun hlate => ⟨hcovers, ?_⟩, fun hone hlate => hone.2 ?_⟩
    · rintro ⟨early, late, hsplit, hearly, hlate'⟩
      -- the first place is no later than the end of `early`, so `late` lies behind it
      rcases append_eq_append_iff.mp hsplit with ⟨more, rfl, hrest⟩ | ⟨more, rfl, -⟩
      · cases more with
        | nil =>
          apply hbefore
          rw [append_nil] at hearly
          simpa using (covers_iff_subset before).mp hearly
        | cons b more =>
          obtain ⟨-, rfl⟩ := cons.inj hrest
          exact hlate fun x hx => mem_append_right _ (hlate' x hx)
      · apply hbefore
        have hsub := (covers_iff_subset early).mp hearly
        exact hsub.trans (by simp)
    · refine ⟨before ++ [a], after, by simp, ?_, hlate⟩
      rw [covers_iff_subset]
      intro x hx
      have hmem := hcomplete hx
      simp only [Finset.mem_insert, Finset.mem_union, Finset.notMem_empty, false_or,
        mem_toFinset] at hmem
      simp only [toFinset_append, Finset.mem_union, mem_toFinset, mem_singleton]
      exact hmem.symm
  · have hzero := (rounds_collect_eq_zero_iff hgoal arrivals).mpr hcovers
    rw [hzero]
    exact ⟨fun h => (nomatch h), fun h => absurd h.1 hcovers⟩

end Collection

end Plexus.Lib
