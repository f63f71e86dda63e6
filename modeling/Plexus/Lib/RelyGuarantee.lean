/-
# Plexus.Lib.RelyGuarantee — two programs over one shared state, in every interleaving.

A `Prog` is a program cut at its accesses to a shared state. Two of them run side by side under a
schedule, one operation at a time.

`Valid rely guar post p s`: started in `s`, `p` keeps `guar` with each of its operations and returns
in a state with `post`, whatever an environment that keeps `rely` does in between. Programs are put
together with `valid_bind`; two programs each of which relies on what the other guarantees stay
valid under every schedule (`Duo.Valid.invariant`).
-/
import Mathlib.Data.List.Basic

namespace Plexus.Lib

inductive Prog (Op : Type) (Ans : Op → Type) (α : Type) where
  | ret (a : α)
  | call (op : Op) (k : Ans op → Prog Op Ans α)

namespace Prog

variable {Op : Type} {Ans : Op → Type} {α β σ : Type}

protected def bind : Prog Op Ans α → (α → Prog Op Ans β) → Prog Op Ans β
  | .ret a, f => f a
  | .call op k, f => .call op fun x => (k x).bind f

instance : Monad (Prog Op Ans) where
  pure := .ret
  bind := Prog.bind

/-- A single operation. -/
def op (o : Op) : Prog Op Ans (Ans o) := .call o .ret

section Exec

variable (exec : (o : Op) → σ → Ans o × σ)

/-- The next operation, if there is one. -/
def next : Prog Op Ans α → σ → Prog Op Ans α × σ
  | .ret a, s => (.ret a, s)
  | .call o k, s => (k (exec o s).1, (exec o s).2)

/-- Valid under any interference that keeps `rely`. -/
def Valid (rely guar : σ → σ → Prop) (post : α → σ → Prop) : Prog Op Ans α → σ → Prop
  | .ret a, s => ∀ s', rely s s' → post a s'
  | .call o k, s => ∀ s', rely s s' →
      guar s' (exec o s').2 ∧ Valid rely guar post (k (exec o s').1) (exec o s').2

end Exec

variable {exec : (o : Op) → σ → Ans o × σ} {rely guar : σ → σ → Prop} {post : α → σ → Prop}

variable {s : σ} {p : Prog Op Ans α}

theorem valid_pure {a : α} :
    Valid exec rely guar post (pure a : Prog Op Ans α) s ↔ ∀ s', rely s s' → post a s' :=
  .rfl

theorem valid_op_bind {o : Op} {f : Ans o → Prog Op Ans α} :
    Valid exec rely guar post (op o >>= f) s ↔
      ∀ s', rely s s' → guar s' (exec o s').2 ∧
        Valid exec rely guar post (f (exec o s').1) (exec o s').2 :=
  .rfl

/-- Interference that happens now has happened before the next operation. -/
theorem Valid.stable (htrans : ∀ a b c, rely a b → rely b c → rely a c) {s' : σ}
    (h : Valid exec rely guar post p s) (hs : rely s s') : Valid exec rely guar post p s' := by
  cases p with
  | ret a | call o k => exact fun t ht => h t (htrans _ _ _ hs ht)

/-- **One program after the other**: the second is valid wherever the first may return. -/
theorem valid_bind (hrefl : ∀ s, rely s s) {post' : β → σ → Prop} {f : α → Prog Op Ans β}
    (h : Valid exec rely guar post p s)
    (hf : ∀ a s, post a s → Valid exec rely guar post' (f a) s) :
    Valid exec rely guar post' (p >>= f) s := by
  induction p generalizing s with
  | ret a => exact hf a s (h s (hrefl s))
  | call o k ih => exact fun s' hs => ⟨(h s' hs).1, ih _ (h s' hs).2⟩

/-- The next operation keeps the guarantee and leaves a valid program. -/
theorem Valid.next (hrely : ∀ s, rely s s) (hguar : ∀ s, guar s s)
    (h : Valid exec rely guar post p s) :
    guar s (p.next exec s).2 ∧ Valid exec rely guar post (p.next exec s).1 (p.next exec s).2 := by
  cases p with
  | ret a => exact ⟨hguar s, h⟩
  | call o k => exact h s (hrely s)

end Prog

/-! ## Side by side -/

/-- Two programs and the state they share. -/
structure Duo (Op : Type) (Ans : Op → Type) (α β σ : Type) where
  left : Prog Op Ans α
  right : Prog Op Ans β
  shared : σ

namespace Duo

variable {Op : Type} {Ans : Op → Type} {α β σ : Type}

section Exec

variable (exec : (o : Op) → σ → Ans o × σ)

/-- `true` schedules the left program. -/
def step (d : Duo Op Ans α β σ) (who : Bool) : Duo Op Ans α β σ :=
  if who then { d with left := (d.left.next exec d.shared).1, shared := (d.left.next exec d.shared).2 }
  else { d with right := (d.right.next exec d.shared).1, shared := (d.right.next exec d.shared).2 }

def run (d : Duo Op Ans α β σ) (schedule : List Bool) : Duo Op Ans α β σ := schedule.foldl (step exec) d

end Exec

/-- What the two programs promise each other: relations that hold of doing nothing and of doing one
thing after another. -/
structure Pact (σ : Type) where
  left : σ → σ → Prop
  right : σ → σ → Prop
  left_refl : ∀ s, left s s
  right_refl : ∀ s, right s s
  left_trans : ∀ a b c, left a b → left b c → left a c
  right_trans : ∀ a b c, right a b → right b c → right a c

/-- Each program relies on the promise of the other. -/
structure Valid (exec : (o : Op) → σ → Ans o × σ) (pact : Pact σ) (post : α → σ → Prop)
    (post' : β → σ → Prop) (d : Duo Op Ans α β σ) : Prop where
  left : d.left.Valid exec pact.right pact.left post d.shared
  right : d.right.Valid exec pact.left pact.right post' d.shared

variable {exec : (o : Op) → σ → Ans o × σ} {pact : Pact σ} {post : α → σ → Prop}
  {post' : β → σ → Prop} {d : Duo Op Ans α β σ}

theorem Valid.step (h : d.Valid exec pact post post') (who : Bool) :
    (d.step exec who).Valid exec pact post post' ∧
      (pact.left d.shared (d.step exec who).shared ∨ pact.right d.shared (d.step exec who).shared) := by
  cases who with
  | true =>
    obtain ⟨hguar, hnext⟩ := h.left.next pact.right_refl pact.left_refl
    exact ⟨⟨hnext, h.right.stable pact.left_trans hguar⟩, .inl hguar⟩
  | false =>
    obtain ⟨hguar, hnext⟩ := h.right.next pact.left_refl pact.right_refl
    exact ⟨⟨h.left.stable pact.right_trans hguar, hnext⟩, .inr hguar⟩

/-- **What both promises preserve** holds in every state of every interleaving. -/
theorem Valid.invariant (h : d.Valid exec pact post post') (inv : σ → Prop)
    (hleft : ∀ {s s'}, pact.left s s' → inv s → inv s')
    (hright : ∀ {s s'}, pact.right s s' → inv s → inv s') (hinv : inv d.shared)
    (schedule : List Bool) : inv (d.run exec schedule).shared := by
  induction schedule generalizing d with
  | nil => exact hinv
  | cons who schedule ih =>
    obtain ⟨hnext, hkept⟩ := h.step who
    apply ih hnext
    rcases hkept with hkept | hkept
    · exact hleft hkept hinv
    · exact hright hkept hinv

end Duo

end Plexus.Lib
