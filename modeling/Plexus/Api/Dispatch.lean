/-
# Plexus.Api.Dispatch — callbacks that subscribe and unsubscribe while they are called.

`dispatch_message`, `dispatch_object` and `dispatch_guard` of `node.h`. A dispatch walks the table
and calls the entries it picks; a callback may register, retire and dispatch again, and may throw.
What is edited meanwhile is staged (`Plexus.Api.SubscriptionTable`). A run is any sequence of these
events, so callbacks nest in any way.
-/
import Plexus.Api.SubscriptionTable
import Plexus.Lib.Run

namespace Plexus.Api

open List Lib SubscriptionTable

/-- A running dispatch: what it picks, where its loop stands and whom it has called. -/
structure Fan where
  picks : Nat × Subscription → Bool
  /-- the next registration id when it began -/
  since : Nat
  index : Nat := 0
  called : List (Nat × Subscription) := []

/-- What callbacks do, and the loop of the innermost dispatch; `leave` ends that dispatch, at the end
of its loop or by a throw. -/
inductive DispatchEvent
  | register (sub : Subscription)
  | retire (rid : Nat)
  | enter (picks : Nat × Subscription → Bool)
  | advance
  | leave

/-- The table, the fan-outs in progress and the calls they made. -/
structure DispatchRun where
  table : SubscriptionTable := {}
  fans : List Fan := []
  /-- every call, by registration id -/
  calls : List Nat := []

namespace DispatchRun

variable (s : DispatchRun)

def step : DispatchEvent → DispatchRun
  | .register sub => { s with table := s.table.enroll sub }
  | .retire rid => { s with table := ((s.table.withdraw rid).map Prod.snd).getD s.table }
  | .enter picks =>
    { s with
      table := s.table.beginDispatch
      fans := { picks, since := s.table.nextRegistration } :: s.fans }
  | .advance =>
    match s.fans with
    | [] => s
    | f :: fs =>
      match s.table.subscriptions[f.index]? with
      | none => s
      | some e =>
        if f.picks e && !s.table.subscriptionPendingRemoved e.1 then
          { s with
            fans := { f with index := f.index + 1, called := f.called ++ [e] } :: fs
            calls := s.calls ++ [e.1] }
        else { s with fans := { f with index := f.index + 1 } :: fs }
  | .leave =>
    match s.fans with
    | [] => s
    | _ :: fs => { s with table := s.table.endDispatch, fans := fs }

def run (es : List DispatchEvent) : DispatchRun := es.foldl step {}

/-! ## What a dispatch calls -/

/-- A running dispatch has called, in order, what it picks of the entries it has passed, but for those
that are retired. -/
structure Served (t : SubscriptionTable) (f : Fan) : Prop where
  older : ∀ e ∈ t.subscriptions, e.1 < f.since
  order : f.called.Sublist (t.subscriptions.take f.index)
  picked : ∀ e ∈ f.called, f.picks e = true
  all : ∀ e ∈ t.subscriptions.take f.index, f.picks e = true → e.1 ∉ t.deferredRemoves → e ∈ f.called

structure Inv : Prop where
  table : s.table.WellFormed
  depth : s.table.dispatchDepth = s.fans.length
  served : ∀ f ∈ s.fans, Served s.table f

variable {s} {t t' : SubscriptionTable} {f : Fan}

/-- While a dispatch runs the entries stay, and edits only mark more of them. -/
theorem Served.steady (h : Served t f) (hsubs : t'.subscriptions = t.subscriptions)
    (hremoves : t.deferredRemoves ⊆ t'.deferredRemoves) : Served t' f := by
  refine ⟨?_, ?_, h.picked, ?_⟩ <;> rw [hsubs]
  · exact h.older
  · exact h.order
  · exact fun e he hpick hkept => h.all e he hpick fun hmem => hkept (hremoves hmem)

theorem Served.advance (h : Served t f) {e : Nat × Subscription}
    (he : t.subscriptions[f.index]? = some e) :
    (f.picks e = true → Served t { f with index := f.index + 1, called := f.called ++ [e] }) ∧
      ((f.picks e = true → e.1 ∈ t.deferredRemoves) →
        Served t { f with index := f.index + 1 }) := by
  have htake : t.subscriptions.take (f.index + 1) = t.subscriptions.take f.index ++ [e] := by
    rw [take_add_one, he]
    rfl
  constructor
  · intro hpick
    refine ⟨h.older, ?_, ?_, ?_⟩
    · exact htake ▸ h.order.append_right [e]
    · exact forall_mem_append.mpr ⟨h.picked, forall_mem_singleton.mpr hpick⟩
    simp only [htake, mem_append, mem_singleton]
    rintro e' (he' | rfl) hp hk
    · exact .inl (h.all e' he' hp hk)
    · exact .inr rfl
  · intro hpass
    refine ⟨h.older, htake ▸ h.order.trans (sublist_append_left _ _), h.picked, ?_⟩
    simp only [htake, forall_mem_append, forall_mem_singleton]
    exact ⟨h.all, fun hp hk => absurd (hpass hp) hk⟩

theorem inv_step (s : DispatchRun) (e : DispatchEvent) (h : Inv s) : Inv (s.step e) := by
  obtain ⟨htable, hdepth, hserved⟩ := h
  have hrunning : ∀ f ∈ s.fans, 0 < s.table.dispatchDepth := by
    intro f hf
    rw [hdepth]
    exact length_pos_of_mem hf
  cases e with
  | register sub =>
    refine ⟨htable.enroll sub, (dispatchDepth_enroll ..).trans hdepth, fun f hf => ?_⟩
    apply (hserved f hf).steady <;> simp [step, enroll, hrunning f hf]
  | retire rid =>
    cases hw : s.table.withdraw rid with
    | none => simpa [step, hw] using ⟨htable, hdepth, hserved⟩
    | some w =>
      obtain ⟨htable', hdepth', -⟩ := htable.withdraw hw
      simp only [step, hw, Option.map_some, Option.getD_some]
      refine ⟨htable', hdepth'.trans hdepth, fun f hf => ?_⟩
      rw [withdraw, if_pos (hrunning f hf)] at hw
      split at hw
      · cases hw
      split at hw
      · cases hw
      · obtain rfl := Option.some.inj hw
        exact (hserved f hf).steady rfl (subset_append_left _ _)
  | enter picks =>
    refine ⟨htable.beginDispatch, congrArg (· + 1) hdepth, forall_mem_cons.mpr ⟨?_, fun f hf => ?_⟩⟩
    · refine ⟨fun e he => htable.issued e (mem_append_left _ he), nil_sublist _, ?_, ?_⟩ <;> simp
    · exact (hserved f hf).steady rfl (Subset.refl _)
  | advance =>
    simp only [step]
    split
    · exact ⟨htable, hdepth, hserved⟩
    rename_i f fs hfans
    split
    · exact ⟨htable, hdepth, hserved⟩
    rename_i e he
    rw [hfans] at hserved hdepth
    obtain ⟨hfirst, hothers⟩ := forall_mem_cons.mp hserved
    obtain ⟨hcalls, hpasses⟩ := hfirst.advance he
    split
    · rename_i hcall
      exact ⟨htable, hdepth,
        forall_mem_cons.mpr ⟨hcalls (Bool.and_eq_true_iff.mp hcall).1, hothers⟩⟩
    · rename_i hpass
      refine ⟨htable, hdepth, forall_mem_cons.mpr ⟨hpasses ?_, hothers⟩⟩
      simpa [subscriptionPendingRemoved] using hpass
  | leave =>
    simp only [step]
    split
    · exact ⟨htable, hdepth, hserved⟩
    rename_i f fs hfans
    rw [hfans] at hserved hdepth
    refine ⟨htable.endDispatch, ?_, fun f hf => ?_⟩
    · show s.table.endDispatch.dispatchDepth = fs.length
      unfold endDispatch
      dsimp only
      split <;> exact congrArg (· - 1) hdepth
    -- another dispatch still runs, so nothing is applied yet
    have hpos : 0 < fs.length := length_pos_of_mem hf
    rw [length_cons] at hdepth
    simp only [endDispatch, if_pos (show s.table.dispatchDepth - 1 ≠ 0 by omega)]
    exact (hserved f (mem_cons_of_mem _ hf)).steady rfl (Subset.refl _)

/-! ## What a retired entry can expect -/

/-- The id was given out, and what entry of it there is is marked. -/
structure Gone (rid : Nat) (t : SubscriptionTable) : Prop where
  issued : rid < t.nextRegistration
  marked : ∀ e ∈ t.subscriptions ++ t.deferredAdds, e.1 = rid → rid ∈ t.deferredRemoves

variable {rid : Nat}

theorem gone_retire (h : t.WellFormed) (hissued : rid < t.nextRegistration) :
    Gone rid (((t.withdraw rid).map Prod.snd).getD t) := by
  unfold withdraw
  split
  · split
    · rename_i hnone
      simp only [subscriptionFqn, Option.map_eq_none_iff, find?_eq_none, decide_eq_true_eq] at hnone
      exact ⟨hissued, fun e he heq => absurd heq (hnone e he)⟩
    · split
      · rename_i hpending
        exact ⟨hissued, fun _ _ _ => by simpa [subscriptionPendingRemoved] using hpending⟩
      · exact ⟨hissued, fun _ _ _ => mem_append_right _ (mem_singleton_self rid)⟩
  rename_i hdepth
  obtain ⟨hadds, -⟩ := h.idle (Nat.eq_zero_of_not_pos hdepth)
  have hnodup := h.nodup
  split
  · rename_i hnone
    rw [find?_eq_none] at hnone
    refine ⟨hissued, fun e he heq => ?_⟩
    rw [Option.map_none, Option.getD_none, hadds, append_nil] at he
    exact absurd (decide_eq_true heq) (hnone e he)
  rename_i e hfound
  -- ids are distinct, so nothing of this one is left
  obtain ⟨a, l₁, l₂, -, ha, hl, herase⟩ := exists_of_eraseP (mem_of_find?_eq_some hfound)
    (find?_some hfound)
  rw [hadds, append_nil, hl, map_append, map_cons, nodup_middle, nodup_cons, ← map_append] at hnodup
  refine ⟨hissued, fun e' he' heq => ?_⟩
  rw [Option.map_some, Option.getD_some, herase, hadds, append_nil] at he'
  exact absurd (mem_map.mpr ⟨e', he', heq.trans (of_decide_eq_true ha).symm⟩) hnodup.1

theorem gone_step (h : Gone rid s.table) (e : DispatchEvent) :
    Gone rid (s.step e).table ∧ (s.step e).calls.count rid = s.calls.count rid := by
  cases e with
  | register sub =>
    refine ⟨⟨?_, fun e he heq => ?_⟩, rfl⟩
    · exact (nextRegistration_enroll ..).symm ▸ Nat.lt_succ_of_lt h.issued
    rw [step, deferredRemoves_enroll]
    rcases mem_cons.mp ((entries_enroll s.table sub).mem_iff.mp he) with rfl | hold
    · exact absurd heq h.issued.ne'
    · exact h.marked e hold heq
  | retire other =>
    refine ⟨?_, rfl⟩
    simp only [step, withdraw]
    split
    · split
      · exact h
      · split
        · exact h
        · exact ⟨h.issued, fun e he heq => mem_append_left _ (h.marked e he heq)⟩
    · split
      · exact h
      · refine ⟨h.issued, fun e he heq => h.marked e ?_ heq⟩
        exact (eraseP_sublist.append_right _).subset he
  | enter picks => exact ⟨⟨h.issued, h.marked⟩, rfl⟩
  | advance =>
    simp only [step]
    split
    · exact ⟨h, rfl⟩
    split
    · exact ⟨h, rfl⟩
    rename_i e he
    split
    · rename_i hcall
      refine ⟨h, ?_⟩
      have hne : e.1 ≠ rid := by
        intro heq
        have hmarked := h.marked e (mem_append_left _ (mem_of_getElem? he)) heq
        simp [subscriptionPendingRemoved, heq, hmarked] at hcall
      simp [count_append, hne]
    · exact ⟨h, rfl⟩
  | leave =>
    simp only [step]
    split
    · exact ⟨h, rfl⟩
    refine ⟨?_, rfl⟩
    simp only [endDispatch]
    split
    · exact ⟨h.issued, h.marked⟩
    refine ⟨h.issued, fun e he heq => ?_⟩
    simp only [applyDeferredEdits, append_nil, ← filter_append, mem_filter] at he
    have hmarked := h.marked e he.1 heq
    simp [subscriptionPendingRemoved, heq, hmarked] at he

theorem inv_run (es : List DispatchEvent) : Inv (run es) :=
  run_invariant Inv inv_step ⟨wellFormed_empty, rfl, forall_mem_nil _⟩ es

/-- **Callbacks may subscribe and unsubscribe freely.** However dispatches nest, and whatever their
callbacks register, retire or throw, a running dispatch has called entries of the table once each and
in order, none that was registered since it began; when its loop is through it has called every one
it picks that is not retired. And a retired entry is never called again, by any dispatch. -/
theorem dispatch_exact (es : List DispatchEvent) :
    (∀ f ∈ (run es).fans,
      f.called.Sublist (run es).table.subscriptions ∧
      (∀ e ∈ f.called, f.picks e = true ∧ e.1 < f.since) ∧
      ((run es).table.subscriptions.length ≤ f.index → ∀ e ∈ (run es).table.subscriptions,
        f.picks e = true → e.1 ∉ (run es).table.deferredRemoves → e ∈ f.called)) ∧
    ∀ rid < (run es).table.nextRegistration, ∀ es',
      (run (es ++ .retire rid :: es')).calls.count rid = (run es).calls.count rid := by
  have hinv := inv_run es
  constructor
  · intro f hf
    have hserved := hinv.served f hf
    have horder := hserved.order.trans (take_sublist _ _)
    refine ⟨horder, fun e he => ⟨hserved.picked e he, hserved.older e (horder.subset he)⟩, ?_⟩
    intro hdone e he
    exact hserved.all e (by rwa [take_of_length_le hdone])
  intro rid hrid es'
  rw [run, foldl_append, foldl_cons]
  have hkept : ∀ (s : DispatchRun) (e : DispatchEvent),
      Gone rid s.table ∧ s.calls.count rid = (run es).calls.count rid →
        Gone rid (s.step e).table ∧ (s.step e).calls.count rid = (run es).calls.count rid :=
    fun s e h => ⟨(gone_step h.1 e).1, (gone_step h.1 e).2.trans h.2⟩
  have hretired : Gone rid ((run es).step (.retire rid)).table := gone_retire hinv.table hrid
  exact (run_invariant _ hkept ⟨hretired, rfl⟩ es').2

end DispatchRun

end Plexus.Api
