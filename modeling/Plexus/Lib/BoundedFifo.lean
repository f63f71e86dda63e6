/-
# Plexus.Lib.BoundedFifo — a queue of sized items, and what has left it.

An item enters behind the others and leaves at the front, handed out to a reader or evicted to make
room. A `BoundedFifo` keeps what has left, with the reason, so that everything that ever entered is
still there in order (`admitted`).

`evictCount` is how many items have to go before a given size fits (`evictCount_least`); `readCount`
is how many a reader takes that stops once it has read enough, or at an item that ends behind its
limit (`readCount_within`).
-/
import Mathlib.Algebra.GroupWithZero.Nat
import Mathlib.Data.List.Basic

namespace Plexus.Lib

variable {α : Type*} (size : α → Nat)

/-- What the items of a queue weigh together. -/
def weight (q : List α) : Nat := (q.map size).sum

@[simp] theorem weight_nil : weight size [] = 0 := rfl

@[simp] theorem weight_cons (a : α) (q : List α) : weight size (a :: q) = size a + weight size q := by
  simp [weight]

@[simp] theorem weight_append (q q' : List α) :
    weight size (q ++ q') = weight size q + weight size q' := by
  simp [weight]

/-! ## How many have to go -/

/-- The items at the front that have to go before `need` fits. -/
def evictCount (cap need : Nat) : List α → Nat
  | [] => 0
  | a :: q => if weight size (a :: q) + need ≤ cap then 0 else evictCount cap need q + 1

theorem evictCount_fits {cap need : Nat} (hneed : need ≤ cap) (q : List α) :
    weight size (q.drop (evictCount size cap need q)) + need ≤ cap := by
  induction q with
  | nil => simpa using hneed
  | cons a q ih =>
    rw [evictCount]
    split
    · assumption
    · exact ih

/-- **No more go than have to.** -/
theorem evictCount_least (cap need : Nat) (q : List α) :
    ∀ j < evictCount size cap need q, cap < weight size (q.drop j) + need := by
  induction q with
  | nil => intro j hj; exact absurd hj (Nat.not_lt_zero j)
  | cons a q ih =>
    intro j hj
    rw [evictCount] at hj
    split at hj
    · exact absurd hj (Nat.not_lt_zero j)
    rename_i hover
    cases j with
    | zero => exact Nat.not_le.mp hover
    | succ j => exact ih j (Nat.lt_of_succ_lt_succ hj)

/-! ## How many a reader takes -/

/-- The items a reader takes that goes on until it has read `budget`, and leaves an item that does
not end at or before its limit. -/
def readCount (limit : Option Nat) (budget : Nat) : Nat → Nat → List α → Nat
  | _, _, [] => 0
  | pos, moved, a :: q =>
    if moved < budget ∧ ∀ l ∈ limit, pos + size a ≤ l then
      readCount limit budget (pos + size a) (moved + size a) q + 1
    else 0

/-- **A reader does not go past its limit.** -/
theorem readCount_within (limit budget : Nat) (pos moved : Nat) (q : List α) (hpos : pos ≤ limit) :
    pos + weight size (q.take (readCount size (some limit) budget pos moved q)) ≤ limit := by
  induction q generalizing pos moved with
  | nil => simpa using hpos
  | cons a q ih =>
    rw [readCount]
    split
    · rename_i hgo
      have hend : pos + size a ≤ limit := hgo.2 limit rfl
      have hrest := ih (pos + size a) (moved + size a) hend
      rw [List.take_succ_cons, weight_cons]
      omega
    · simpa using hpos

/-! ## The queue and its past -/

/-- What has left, oldest first, with whether it was handed out, and what is still there. -/
structure BoundedFifo (α : Type*) where
  left : List (α × Bool) := []
  queue : List α := []

namespace BoundedFifo

variable (f : BoundedFifo α)

/-- Everything that ever entered, in order. -/
def admitted : List α := f.left.map Prod.fst ++ f.queue

def handedOut : List α := (f.left.filter Prod.snd).map Prod.fst

def evicted : List α := (f.left.filter fun p => !p.2).map Prod.fst

/-- What has left weighs so much; the position of the front of the queue. -/
def gone : Nat := weight size (f.left.map Prod.fst)

def push (a : α) : BoundedFifo α := { f with queue := f.queue ++ [a] }

/-- The `k` oldest items leave. -/
def depart (k : Nat) (out : Bool) : BoundedFifo α :=
  { left := f.left ++ (f.queue.take k).map (·, out), queue := f.queue.drop k }

theorem filter_tagged (l : List α) (p : Bool → Bool) (out : Bool) :
    ((l.map (·, out)).filter fun x => p x.2).map Prod.fst = if p out then l else [] := by
  rw [List.filter_map]
  cases hp : p out <;> simp [Function.comp_def, hp]

@[simp] theorem admitted_push (a : α) : (f.push a).admitted = f.admitted ++ [a] := by
  simp [admitted, push]

@[simp] theorem admitted_depart (k : Nat) (out : Bool) : (f.depart k out).admitted = f.admitted := by
  simp [admitted, depart, Function.comp_def]

@[simp] theorem handedOut_push (a : α) : (f.push a).handedOut = f.handedOut := rfl

@[simp] theorem handedOut_depart (k : Nat) (out : Bool) :
    (f.depart k out).handedOut = f.handedOut ++ if out then f.queue.take k else [] := by
  simp only [handedOut, depart, List.filter_append, List.map_append]
  exact congrArg _ (filter_tagged _ id out)

@[simp] theorem evicted_push (a : α) : (f.push a).evicted = f.evicted := rfl

@[simp] theorem evicted_depart (k : Nat) (out : Bool) :
    (f.depart k out).evicted = f.evicted ++ if out then [] else f.queue.take k := by
  simp only [evicted, depart, List.filter_append, List.map_append]
  rw [filter_tagged _ Bool.not out]
  cases out <;> rfl

@[simp] theorem gone_push (a : α) : (f.push a).gone size = f.gone size := rfl

@[simp] theorem gone_depart (k : Nat) (out : Bool) :
    (f.depart k out).gone size = f.gone size + weight size (f.queue.take k) := by
  simp [gone, depart, Function.comp_def]

end BoundedFifo

end Plexus.Lib
