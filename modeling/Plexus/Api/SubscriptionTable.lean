/-
# Plexus.Api.SubscriptionTable — the local subscriptions of a node.

The part of `node.h` that keeps the handles: `m_subscriptions` with its registration ids, and the
guard that lets a callback subscribe and unsubscribe while a dispatch runs. Inside a dispatch an
edit is staged; the outermost dispatch applies the staged edits when it ends. A name is live when
some entry, staged ones included, is not marked for removal; applying the staged edits changes
nobody's liveness (`anySubscriberFor_endDispatch`).
-/
import Mathlib.Data.List.Nodup
import Plexus.Io.Qos

namespace Plexus.Api

open Wire Io List

/-- `detail::subscription`. -/
structure Subscription where
  fqn : Text
  qos : SubscriberQos := {}
  typeId : Option UInt64 := none
  deriving DecidableEq

structure SubscriptionTable where
  subscriptions : List (Nat × Subscription) := []
  dispatchDepth : Nat := 0
  deferredAdds : List (Nat × Subscription) := []
  deferredRemoves : List Nat := []
  nextRegistration : Nat := 1
  deriving DecidableEq

namespace SubscriptionTable

/-! ## The operations -/

variable (t : SubscriptionTable)

def subscriptionPendingRemoved (rid : Nat) : Bool :=
  t.deferredRemoves.contains rid

def anySubscriberFor (fqn : Text) : Bool :=
  let live (e : Nat × Subscription) : Bool := e.2.fqn = fqn && !t.subscriptionPendingRemoved e.1
  t.subscriptions.any live || t.deferredAdds.any live

def subscriptionFqn (rid : Nat) : Option Text :=
  ((t.subscriptions ++ t.deferredAdds).find? (fun e => e.1 = rid)).map (fun e => e.2.fqn)

/-- The table half of `register_subscriber_seam`: the entry gets the next registration id and is
filed, or staged inside a dispatch. -/
def enroll (sub : Subscription) : SubscriptionTable :=
  if t.dispatchDepth > 0 then
    { t with
      nextRegistration := t.nextRegistration + 1
      deferredAdds := t.deferredAdds ++ [(t.nextRegistration, sub)] }
  else
    { t with
      nextRegistration := t.nextRegistration + 1
      subscriptions := t.subscriptions ++ [(t.nextRegistration, sub)] }

/-- The table half of `retire_subscriber_seam`: the name of the entry that goes, when one does. -/
def withdraw (rid : Nat) : Option (Text × SubscriptionTable) :=
  if t.dispatchDepth > 0 then
    match t.subscriptionFqn rid with
    | none => none
    | some fqn =>
      if t.subscriptionPendingRemoved rid then none
      else some (fqn, { t with deferredRemoves := t.deferredRemoves ++ [rid] })
  else
    match t.subscriptions.find? (fun e => e.1 = rid) with
    | none => none
    | some e =>
      some (e.2.fqn, { t with subscriptions := t.subscriptions.eraseP (fun e => e.1 = rid) })

/-- `apply_deferred_subscription_edits`. -/
def applyDeferredEdits : SubscriptionTable :=
  let keep (e : Nat × Subscription) : Bool := !t.subscriptionPendingRemoved e.1
  { t with
    subscriptions := t.subscriptions.filter keep ++ t.deferredAdds.filter keep
    deferredAdds := []
    deferredRemoves := [] }

/-- The constructor of `dispatch_guard`. -/
def beginDispatch : SubscriptionTable :=
  { t with dispatchDepth := t.dispatchDepth + 1 }

/-- The destructor of `dispatch_guard`. -/
def endDispatch : SubscriptionTable :=
  let t := { t with dispatchDepth := t.dispatchDepth - 1 }
  if t.dispatchDepth ≠ 0 then t else t.applyDeferredEdits

/-! ## Well-formed tables -/

/-- Registration ids are handed out once, and nothing is staged outside a dispatch. -/
structure WellFormed (t : SubscriptionTable) : Prop where
  nodup : ((t.subscriptions ++ t.deferredAdds).map Prod.fst).Nodup
  issued : ∀ e ∈ t.subscriptions ++ t.deferredAdds, e.1 < t.nextRegistration
  removes : ∀ rid ∈ t.deferredRemoves, rid < t.nextRegistration
  idle : t.dispatchDepth = 0 → t.deferredAdds = [] ∧ t.deferredRemoves = []

theorem wellFormed_empty : WellFormed {} := by
  constructor <;> simp

theorem anySubscriberFor_iff (fqn : Text) :
    t.anySubscriberFor fqn = true ↔
      ∃ e ∈ t.subscriptions ++ t.deferredAdds, e.2.fqn = fqn ∧ e.1 ∉ t.deferredRemoves := by
  simp only [anySubscriberFor, subscriptionPendingRemoved, Bool.or_eq_true, any_eq_true,
    Bool.and_eq_true, decide_eq_true_eq, Bool.not_eq_true', contains_eq_mem,
    decide_eq_false_iff_not, mem_append, or_and_right, exists_or]

variable {t : SubscriptionTable} {e : Nat × Subscription}

theorem WellFormed.anySubscriberFor_idle (h : t.WellFormed) (hdepth : t.dispatchDepth = 0)
    (fqn : Text) : t.anySubscriberFor fqn = true ↔ ∃ e ∈ t.subscriptions, e.2.fqn = fqn := by
  obtain ⟨hadds, hremoves⟩ := h.idle hdepth
  simp [anySubscriberFor_iff, hadds, hremoves]

theorem WellFormed.eq_of_rid (h : t.WellFormed) {e' : Nat × Subscription}
    (he : e ∈ t.subscriptions ++ t.deferredAdds) (he' : e' ∈ t.subscriptions ++ t.deferredAdds)
    (hrid : e.1 = e'.1) : e = e' :=
  inj_on_of_nodup_map h.nodup he he' hrid

/-! ## Registering -/

section

variable (t : SubscriptionTable) (sub : Subscription)

theorem entries_enroll :
    ((t.enroll sub).subscriptions ++ (t.enroll sub).deferredAdds).Perm
      ((t.nextRegistration, sub) :: (t.subscriptions ++ t.deferredAdds)) := by
  unfold enroll
  split
  · rw [← append_assoc]
    exact perm_append_singleton _ _
  · rw [append_assoc]
    exact perm_middle

@[simp] theorem deferredRemoves_enroll : (t.enroll sub).deferredRemoves = t.deferredRemoves := by
  unfold enroll
  split <;> rfl

@[simp] theorem dispatchDepth_enroll : (t.enroll sub).dispatchDepth = t.dispatchDepth := by
  unfold enroll
  split <;> rfl

@[simp] theorem nextRegistration_enroll :
    (t.enroll sub).nextRegistration = t.nextRegistration + 1 := by
  unfold enroll
  split <;> rfl

end

section

variable (h : t.WellFormed)
include h

theorem WellFormed.enroll (sub : Subscription) : (t.enroll sub).WellFormed := by
  have hperm := entries_enroll t sub
  refine ⟨?_, fun e he => ?_, fun rid hrid => ?_, fun hdepth => ?_⟩
  · rw [(hperm.map Prod.fst).nodup_iff, map_cons, nodup_cons]
    refine ⟨fun hmem => ?_, h.nodup⟩
    obtain ⟨e, he, hrid⟩ := mem_map.mp hmem
    exact absurd (h.issued e he) (by rw [hrid]; exact lt_irrefl _)
  · rw [nextRegistration_enroll]
    rcases mem_cons.mp (hperm.mem_iff.mp he) with rfl | hold
    · exact Nat.lt_succ_self _
    · exact Nat.lt_succ_of_lt (h.issued e hold)
  · rw [nextRegistration_enroll]
    rw [deferredRemoves_enroll] at hrid
    exact Nat.lt_succ_of_lt (h.removes rid hrid)
  · rw [dispatchDepth_enroll] at hdepth
    have hidle := h.idle hdepth
    simp [SubscriptionTable.enroll, hdepth, hidle]

theorem WellFormed.anySubscriberFor_enroll (sub : Subscription) (name : Text) :
    (t.enroll sub).anySubscriberFor name = true ↔
      t.anySubscriberFor name = true ∨ sub.fqn = name := by
  have hfresh : t.nextRegistration ∉ t.deferredRemoves := fun hmem =>
    lt_irrefl _ (h.removes _ hmem)
  simp only [anySubscriberFor_iff, deferredRemoves_enroll, (entries_enroll t sub).mem_iff, mem_cons]
  constructor
  · rintro ⟨e, rfl | hold, hname, hlive⟩
    · exact .inr hname
    · exact .inl ⟨e, hold, hname, hlive⟩
  · rintro (⟨e, hold, hname, hlive⟩ | hname)
    · exact ⟨e, .inr hold, hname, hlive⟩
    · exact ⟨_, .inl rfl, hname, hfresh⟩

/-! ## Retiring -/

theorem WellFormed.mark (hdepth : 0 < t.dispatchDepth)
    (hmem : e ∈ t.subscriptions ++ t.deferredAdds) :
    WellFormed { t with deferredRemoves := t.deferredRemoves ++ [e.1] } ∧
      ∀ name, name ≠ e.2.fqn →
        (anySubscriberFor { t with deferredRemoves := t.deferredRemoves ++ [e.1] } name = true ↔
          t.anySubscriberFor name = true) := by
  refine ⟨⟨h.nodup, h.issued, ?_, ?_⟩, ?_⟩
  · exact forall_mem_append.mpr ⟨h.removes, forall_mem_singleton.mpr (h.issued e hmem)⟩
  · intro hzero
    exact absurd hzero (Nat.pos_iff_ne_zero.mp hdepth)
  intro name hne
  rw [anySubscriberFor_iff, anySubscriberFor_iff]
  refine exists_congr fun e' => and_congr_right fun he' => and_congr_right fun hname => ?_
  -- only the marked entry has that id, and its name is another
  have hother : e'.1 ≠ e.1 := by
    intro hsame
    exact hne (by rw [← hname, h.eq_of_rid he' hmem hsame])
  simp [hother]

theorem WellFormed.erase (hidle : t.dispatchDepth = 0) (hmem : e ∈ t.subscriptions) :
    WellFormed { t with subscriptions := t.subscriptions.eraseP (fun e' => e'.1 = e.1) } ∧
      ∀ name, name ≠ e.2.fqn →
        (anySubscriberFor { t with
            subscriptions := t.subscriptions.eraseP (fun e' => e'.1 = e.1) } name = true ↔
          t.anySubscriberFor name = true) := by
  obtain ⟨hadds, hremoves⟩ := h.idle hidle
  have hsub := (eraseP_sublist (p := fun e' => decide (e'.1 = e.1))
    (l := t.subscriptions)).append_right t.deferredAdds
  refine ⟨⟨(hsub.map Prod.fst).nodup h.nodup, fun r hr => h.issued r (hsub.subset hr), h.removes,
    h.idle⟩, ?_⟩
  intro name hne
  simp only [anySubscriberFor_iff, hadds, hremoves, append_nil]
  constructor
  · rintro ⟨e', he', hlive⟩
    exact ⟨e', mem_of_mem_eraseP he', hlive⟩
  rintro ⟨e', he', hname, hlive⟩
  have hother : ¬ decide (e'.1 = e.1) = true := by
    intro hsame
    have heq := h.eq_of_rid (mem_append_left _ he') (mem_append_left _ hmem)
      (of_decide_eq_true hsame)
    exact hne (by rw [← hname, heq])
  have hkept := mem_eraseP_of_neg (l := t.subscriptions) (a := e')
    (p := fun e' => decide (e'.1 = e.1)) hother
  exact ⟨e', hkept.mpr he', hname, hlive⟩

/-- What a withdrawal does: one live entry stops being live, by removal or by a mark. -/
theorem WellFormed.withdraw {t' : SubscriptionTable} {rid : Nat} {fqn : Text}
    (hw : t.withdraw rid = some (fqn, t')) :
    t'.WellFormed ∧ t'.dispatchDepth = t.dispatchDepth ∧ t.anySubscriberFor fqn = true ∧
      ∀ name, name ≠ fqn → (t'.anySubscriberFor name = true ↔ t.anySubscriberFor name = true) := by
  unfold SubscriptionTable.withdraw at hw
  split at hw
  case isTrue hdepth =>
    cases hfind : t.subscriptionFqn rid with
    | none => simp [hfind] at hw
    | some name =>
      simp only [hfind] at hw
      split at hw
      · cases hw
      case isFalse hpending =>
        obtain ⟨rfl, rfl⟩ := Prod.mk.inj (Option.some.inj hw)
        obtain ⟨e, hfound, rfl⟩ := Option.map_eq_some_iff.mp hfind
        have hmem := mem_of_find?_eq_some hfound
        obtain rfl : e.1 = rid := by simpa using find?_some hfound
        obtain ⟨hwell, hothers⟩ := h.mark hdepth hmem
        refine ⟨hwell, rfl, ?_, hothers⟩
        rw [anySubscriberFor_iff]
        exact ⟨e, hmem, rfl, by simpa [subscriptionPendingRemoved] using hpending⟩
  case isFalse hdepth =>
    cases hfind : t.subscriptions.find? (fun e => e.1 = rid) with
    | none => simp [hfind] at hw
    | some e =>
      simp only [hfind] at hw
      obtain ⟨rfl, rfl⟩ := Prod.mk.inj (Option.some.inj hw)
      have hidle := Nat.eq_zero_of_not_pos hdepth
      have hmem := mem_of_find?_eq_some hfind
      obtain rfl : e.1 = rid := by simpa using find?_some hfind
      obtain ⟨hwell, hothers⟩ := h.erase hidle hmem
      refine ⟨hwell, rfl, ?_, hothers⟩
      rw [anySubscriberFor_iff]
      exact ⟨e, mem_append_left _ hmem, rfl, by simp [(h.idle hidle).2]⟩

/-! ## Dispatching -/

theorem WellFormed.beginDispatch : t.beginDispatch.WellFormed :=
  ⟨h.nodup, h.issued, h.removes, fun hzero => absurd hzero (Nat.succ_ne_zero _)⟩

theorem WellFormed.endDispatch : t.endDispatch.WellFormed := by
  unfold SubscriptionTable.endDispatch
  dsimp only
  split
  case isTrue hdepth => exact ⟨h.nodup, h.issued, h.removes, fun hzero => absurd hzero hdepth⟩
  case isFalse =>
    have hsub := (filter_sublist (p := fun e => !t.subscriptionPendingRemoved e.1)
      (l := t.subscriptions ++ t.deferredAdds))
    rw [filter_append] at hsub
    refine ⟨?_, fun e he => ?_, fun rid hrid => (nomatch hrid), fun _ => ⟨rfl, rfl⟩⟩
    · simp only [applyDeferredEdits, append_nil]
      exact (hsub.map Prod.fst).nodup h.nodup
    · simp only [applyDeferredEdits, append_nil] at he
      exact h.issued e (hsub.subset he)

end

/-- The staged edits are counted already. -/
@[simp] theorem anySubscriberFor_endDispatch (t : SubscriptionTable) (fqn : Text) :
    t.endDispatch.anySubscriberFor fqn = t.anySubscriberFor fqn := by
  unfold endDispatch
  dsimp only
  split
  · rfl
  rw [Bool.eq_iff_iff, anySubscriberFor_iff, anySubscriberFor_iff]
  simp only [applyDeferredEdits, append_nil, not_mem_nil, not_false_eq_true, and_true,
    ← filter_append, mem_filter, subscriptionPendingRemoved, contains_eq_mem,
    Bool.not_eq_true', decide_eq_false_iff_not]
  exact exists_congr fun e => by rw [and_assoc, and_comm (a := e.1 ∉ t.deferredRemoves)]

end SubscriptionTable

end Plexus.Api
