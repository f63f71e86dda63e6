/-
# Plexus.Lib.Greedy — greedy decoders over a chunked input.

A greedy decoder looks at the unread input and asks for more, consumes a bounded prefix and moves to
its next mode, or fails. Its one law is *stability*: a decision does not change when more input
arrives behind it. From that law alone, decoding a string in pieces, keeping the unread tail between
them, is decoding it in one go (`run_append`), for every way of cutting it (`foldl_resume`).
-/
import Mathlib.Data.List.Basic

namespace Plexus.Lib

/-- The decision of one decoding step. -/
inductive Take (σ ω ε : Type*) where
  | more
  | advance (n : Nat) (next : σ) (out : List ω)
  | fail (e : ε)

/-- A greedy decoder. `rank` orders the modes so that a step that consumes nothing still makes
progress; without it the decoding loop need not end. -/
structure Greedy (α σ ω ε : Type*) where
  take : σ → List α → Take σ ω ε
  rank : σ → Nat
  bounded : ∀ {m xs n m' o}, take m xs = .advance n m' o → n ≤ xs.length
  progress : ∀ {m xs n m' o}, take m xs = .advance n m' o → 0 < n ∨ rank m' < rank m
  stable : ∀ {m xs} (ys), take m xs ≠ .more → take m (xs ++ ys) = take m xs

namespace Greedy

variable {α σ ω ε : Type*} (d : Greedy α σ ω ε)

/-- Decode as far as the input allows: the outputs, and either the mode reached with the unread
tail, or the first failure. -/
def run (m : σ) (xs : List α) : List ω × Except ε (σ × List α) :=
  match _h : d.take m xs with
  | .more => ([], .ok (m, xs))
  | .fail e => ([], .error e)
  | .advance n m' o =>
    let r := run m' (xs.drop n)
    (o ++ r.1, r.2)
termination_by (xs.length, d.rank m)
decreasing_by
  have hb := d.bounded _h
  rcases Nat.eq_zero_or_pos n with rfl | hpos
  · have hr := (d.progress _h).resolve_left (Nat.lt_irrefl 0)
    simpa using Prod.Lex.right _ hr
  · exact Prod.Lex.left _ _ (by rw [List.length_drop]; omega)

variable {xs : List α}

theorem run_more {m : σ} (h : d.take m xs = .more) :
    d.run m xs = ([], .ok (m, xs)) := by
  rw [run]
  split <;> simp_all

theorem run_fail {m : σ} {e : ε} (h : d.take m xs = .fail e) :
    d.run m xs = ([], .error e) := by
  rw [run]
  split <;> simp_all

theorem run_advance {m m' : σ} {n : Nat} {o : List ω}
    (h : d.take m xs = .advance n m' o) :
    d.run m xs = (o ++ (d.run m' (xs.drop n)).1, (d.run m' (xs.drop n)).2) := by
  rw [run]
  split <;> simp_all

/-- Go on from a decoding result with more input: a failure stays, a live mode decodes its unread
tail followed by the new piece. -/
def resume (r : List ω × Except ε (σ × List α)) (ys : List α) :
    List ω × Except ε (σ × List α) :=
  match r.2 with
  | .ok (m, rest) => (r.1 ++ (d.run m (rest ++ ys)).1, (d.run m (rest ++ ys)).2)
  | .error e => (r.1, .error e)

theorem resume_cons_out (o : List ω) (r : List ω × Except ε (σ × List α)) (ys : List α) :
    d.resume (o ++ r.1, r.2) ys = (o ++ (d.resume r ys).1, (d.resume r ys).2) := by
  obtain ⟨out, res⟩ := r
  cases res <;> simp [resume]

/-- **Decoding a string is decoding its first part and going on with the second.** -/
theorem run_append (m : σ) (xs ys : List α) :
    d.run m (xs ++ ys) = d.resume (d.run m xs) ys := by
  -- the recursion of `run`: unread length first, then the rank of the mode
  induction m, xs using run.induct (d := d) with
  | case1 m xs h => rw [d.run_more h]; simp [resume]
  | case2 m xs e h =>
    have hs : d.take m (xs ++ ys) = .fail e := by rw [d.stable ys (by simp [h]), h]
    rw [d.run_fail h, d.run_fail hs]
    rfl
  | case3 m xs n m' o h ih =>
    have hs : d.take m (xs ++ ys) = .advance n m' o := by rw [d.stable ys (by simp [h]), h]
    have hdrop : (xs ++ ys).drop n = xs.drop n ++ ys := List.drop_append_of_le_length (d.bounded h)
    rw [d.run_advance hs, d.run_advance h, hdrop, ih, resume_cons_out]

/-- **Chunking independence.** Feeding the pieces of a string one after another reaches exactly
the result of decoding their concatenation. -/
theorem foldl_resume (m : σ) (xs : List α) (chunks : List (List α)) :
    chunks.foldl d.resume (d.run m xs) = d.run m (xs ++ chunks.flatten) := by
  induction chunks generalizing xs with
  | nil => simp
  | cons c cs ih => rw [List.foldl_cons, ← d.run_append, ih, List.flatten_cons, List.append_assoc]

theorem foldl_resume_error (out : List ω) (e : ε) (chunks : List (List α)) :
    chunks.foldl d.resume (out, .error e) = (out, .error e) := by
  induction chunks with
  | nil => rfl
  | cons c cs ih => exact ih

/-- The unread tail a decoder stops on is one it asks more for. -/
theorem take_of_run_ok {m m' : σ} {rest : List α} {out : List ω}
    (h : d.run m xs = (out, .ok (m', rest))) : d.take m' rest = .more := by
  induction m, xs using run.induct (d := d) generalizing out with
  | case1 m xs hm =>
    rw [d.run_more hm] at h
    obtain ⟨-, rfl, rfl⟩ := h
    exact hm
  | case2 m xs e hf =>
    rw [d.run_fail hf] at h
    simp at h
  | case3 m xs n m₁ o ha ih =>
    rw [d.run_advance ha, Prod.mk.injEq] at h
    exact ih (Prod.ext rfl h.2)

theorem take_of_run_error {m : σ} {out : List ω} {e : ε}
    (h : d.run m xs = (out, .error e)) : ∃ m' ys, d.take m' ys = .fail e := by
  induction m, xs using run.induct (d := d) generalizing out with
  | case1 m xs hm =>
    rw [d.run_more hm] at h
    simp at h
  | case2 m xs e' hf =>
    rw [d.run_fail hf] at h
    obtain ⟨-, rfl⟩ := h
    exact ⟨m, xs, hf⟩
  | case3 m xs n m₁ o ha ih =>
    rw [d.run_advance ha, Prod.mk.injEq] at h
    exact ih (Prod.ext rfl h.2)

end Greedy

end Plexus.Lib
