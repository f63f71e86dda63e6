/-
# Plexus.Lib.Separated — "never twice without a reset in between", over a log.

`Separated p q r`: in a list of marks no `q` comes after a `p` unless an `r` stands between them;
with `p = q` it is "at most once between two resets", with `p ≠ q` "after a `p` no `q` until an
`r`". A machine keeps it when its state remembers whether a `p` is `Pending`, not yet followed by an
`r`; the two `_concat` lemmas say what one more mark does.
-/
import Mathlib.Data.List.Basic

namespace Plexus.Lib

open List

variable {α : Type*} {p q r : α → Prop} {l : List α} {m : α}

/-- Every `q` that comes after a `p` has an `r` before it and after that `p`. -/
def Separated (p q r : α → Prop) (l : List α) : Prop :=
  ∀ a x b y c, l = a ++ x :: (b ++ y :: c) → p x → q y → ∃ z ∈ b, r z

/-- The log has a `p` with no `r` after it. -/
def Pending (p r : α → Prop) (l : List α) : Prop :=
  ∃ a x b, l = a ++ x :: b ∧ p x ∧ ∀ z ∈ b, ¬ r z

@[simp] theorem not_pending_nil : ¬ Pending p r [] := by
  rintro ⟨a, x, b, heq, -⟩
  cases a <;> cases heq

@[simp] theorem separated_nil : Separated p q r [] := by
  intro a x b y c heq
  cases a <;> cases heq

theorem concat_eq_append_cons {a b : List α} {x : α} (h : l ++ [m] = a ++ x :: b) :
    l = a ∧ m = x ∧ b = [] ∨ ∃ b', b = b' ++ [m] ∧ l = a ++ x :: b' := by
  rcases eq_nil_or_concat b with rfl | ⟨b', m', rfl⟩
  · obtain ⟨hl, hm⟩ := append_inj' h rfl
    exact .inl ⟨hl, (cons.inj hm).1, rfl⟩
  rw [concat_eq_append] at h ⊢
  have hassoc : l ++ [m] = (a ++ x :: b') ++ [m'] := by
    rw [h, append_assoc, cons_append]
  obtain ⟨hl, hm⟩ := append_inj' hassoc rfl
  obtain rfl : m = m' := (cons.inj hm).1
  exact .inr ⟨b', rfl, hl⟩

@[simp] theorem pending_concat : Pending p r (l ++ [m]) ↔ p m ∨ Pending p r l ∧ ¬ r m := by
  constructor
  · rintro ⟨a, x, b, heq, hx, hb⟩
    rcases concat_eq_append_cons heq with ⟨-, rfl, -⟩ | ⟨b', rfl, hl⟩
    · exact .inl hx
    refine .inr ⟨⟨a, x, b', hl, hx, ?_⟩, ?_⟩
    · intro z hz
      exact hb z (mem_append_left _ hz)
    · exact hb m (mem_append_right _ (mem_singleton_self m))
  rintro (hm | ⟨⟨a, x, b, rfl, hx, hb⟩, hm⟩)
  · exact ⟨l, m, [], rfl, hm, forall_mem_nil _⟩
  refine ⟨a, x, b ++ [m], ?_, hx, ?_⟩
  · rw [append_assoc, cons_append]
  intro z hz
  rcases mem_append.mp hz with hz | hz
  · exact hb z hz
  · rw [mem_singleton.mp hz]
    exact hm

@[simp] theorem separated_concat :
    Separated p q r (l ++ [m]) ↔ Separated p q r l ∧ (q m → ¬ Pending p r l) := by
  constructor
  · intro h
    constructor
    · intro a x b y c heq
      apply h a x b y (c ++ [m])
      rw [heq]
      simp only [append_assoc, cons_append]
    · rintro hq ⟨a, x, b, rfl, hx, hb⟩
      obtain ⟨z, hz, hr⟩ := h a x b m [] (by rw [append_assoc, cons_append]) hx hq
      exact hb z hz hr
  rintro ⟨hl, hm⟩ a x b y c heq hx hy
  rcases concat_eq_append_cons heq with ⟨-, -, hnil⟩ | ⟨t, ht, rfl⟩
  · exact absurd hnil (by simp)
  -- the later mark is the new one, or both are in the old log
  rcases concat_eq_append_cons ht.symm with ⟨rfl, rfl, -⟩ | ⟨c', -, rfl⟩
  · by_contra hnone
    refine hm hy ⟨a, x, _, rfl, hx, ?_⟩
    intro z hz hr
    exact hnone ⟨z, hz, hr⟩
  · exact hl a x b y c' rfl hx hy

end Plexus.Lib
