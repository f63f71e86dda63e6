/-
# Plexus.Lib.Run — runs of an event-driven machine and the invariants along them.

A machine is a step function over events; a run is a left fold. What holds of *every* run comes from
an invariant of one step (`run_invariant`). What holds only of runs whose events all meet some
condition in their state, a scheduling assumption or a caller's obligation, comes from an invariant
of one guarded step (`Guarded.invariant`).
-/
import Mathlib.Data.List.Basic

namespace Plexus.Lib

variable {σ ε : Type*} {step : σ → ε → σ} {ok : σ → ε → Prop}

/-- Every event of the run meets `ok` in the state it happens in. -/
def Guarded (step : σ → ε → σ) (ok : σ → ε → Prop) : σ → List ε → Prop
  | _, [] => True
  | s, e :: es => ok s e ∧ Guarded step ok (step s e) es

instance Guarded.decidable [∀ s e, Decidable (ok s e)] :
    (s : σ) → (es : List ε) → Decidable (Guarded step ok s es)
  | _, [] => isTrue trivial
  | s, e :: es =>
    have := Guarded.decidable (step s e) es
    inferInstanceAs (Decidable (ok s e ∧ Guarded step ok (step s e) es))

variable {es : List ε} {s : σ} {ok' : σ → ε → Prop}

section

variable (hes : Guarded step ok s es)
include hes

theorem Guarded.invariant (inv : σ → Prop) (hstep : ∀ s e, inv s → ok s e → inv (step s e))
    (hs : inv s) : inv (es.foldl step s) := by
  induction es generalizing s with
  | nil => exact hs
  | cons e es ih => exact ih hes.2 (hstep s e hs hes.1)

theorem Guarded.mono (h : ∀ s e, ok s e → ok' s e) : Guarded step ok' s es := by
  induction es generalizing s with
  | nil => trivial
  | cons e es ih => exact ⟨h s e hes.1, ih hes.2⟩

theorem Guarded.and (hes' : Guarded step ok' s es) :
    Guarded step (fun s e => ok s e ∧ ok' s e) s es := by
  induction es generalizing s with
  | nil => trivial
  | cons e es ih => exact ⟨⟨hes.1, hes'.1⟩, ih hes.2 hes'.2⟩

end

theorem guarded_append {es' : List ε} :
    Guarded step ok s (es ++ es') ↔ Guarded step ok s es ∧ Guarded step ok (es.foldl step s) es' := by
  induction es generalizing s with
  | nil => exact ⟨fun h => ⟨trivial, h⟩, fun h => h.2⟩
  | cons e es ih =>
    show (ok s e ∧ Guarded step ok (step s e) (es ++ es')) ↔ _
    rw [ih]
    exact and_assoc.symm

/-- An invariant turns one condition on the events into another. -/
theorem Guarded.of_invariant (hes : Guarded step ok s es) (inv : σ → Prop)
    (hstep : ∀ s e, inv s → ok s e → inv (step s e) ∧ ok' s e) (hs : inv s) :
    Guarded step ok' s es := by
  induction es generalizing s with
  | nil => trivial
  | cons e es ih =>
    obtain ⟨hinv, hok⟩ := hstep s e hs hes.1
    exact ⟨hok, ih hes.2 hinv⟩

/-- A condition on the events alone that every one of them meets. -/
theorem guarded_of_mem {p : ε → Prop} (h : ∀ e ∈ es, p e) (s : σ) :
    Guarded step (fun _ e => p e) s es := by
  induction es generalizing s with
  | nil => trivial
  | cons e es ih =>
    obtain ⟨he, hes⟩ := List.forall_mem_cons.mp h
    exact ⟨he, ih hes (step s e)⟩

theorem guarded_of_forall (h : ∀ s e, ok s e) (s : σ) (es : List ε) : Guarded step ok s es := by
  induction es generalizing s with
  | nil => trivial
  | cons e es ih => exact ⟨h s e, ih (step s e)⟩

/-- Where the condition on an event says exactly when it keeps `inv`, the condition on a run says
exactly when `inv` holds all along; `base` is what holds of every run. -/
theorem guarded_iff_forall_take (base inv : σ → Prop) (hbase : ∀ s e, base s → base (step s e))
    (hstep : ∀ s e, base s → inv s → (inv (step s e) ↔ ok s e)) (hs : base s) (hinv : inv s)
    (es : List ε) : Guarded step ok s es ↔ ∀ n, inv ((es.take n).foldl step s) := by
  induction es generalizing s with
  | nil => exact ⟨fun _ n => by rwa [List.take_nil], fun _ => trivial⟩
  | cons e es ih =>
    constructor
    · rintro ⟨hok, hes⟩ n
      cases n with
      | zero => exact hinv
      | succ n => exact (ih (hbase s e hs) ((hstep s e hs hinv).mpr hok)).mp hes n
    · intro hall
      have hnext : inv (step s e) := hall 1
      exact ⟨(hstep s e hs hinv).mp hnext, (ih (hbase s e hs) hnext).mpr fun n => hall (n + 1)⟩

theorem run_invariant (inv : σ → Prop) (hstep : ∀ s e, inv s → inv (step s e)) (hs : inv s)
    (es : List ε) : inv (es.foldl step s) := by
  have hall : Guarded step (fun _ _ => True) s es := guarded_of_forall (fun _ _ => trivial) s es
  exact hall.invariant inv (fun s e h _ => hstep s e h) hs

end Plexus.Lib
