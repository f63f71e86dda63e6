/-
# Plexus.Shm.SlotOwnership — one writer to a slot.

A `take` announces itself on `take_refcount`, looks at the sequence again, and keeps the pin or
drops it. `PinEffect` is all a subscriber can do to the pins, and `PinInv` what every run keeps: the
count is the number of pins, and a granted claim has no live view under it. With the producers'
invariant this gives one writer to a slot in every run whose reliable exchanges win over settled
occupants and whose counts do not wrap (`oneWriter_of_settled`); `claim_reliable` does not see to
the first.
-/
import Plexus.Shm.ProducerRuns

namespace Plexus.Shm

open Lib Function Subscriber List

variable {P S : Nat} {g : Geometry} {m : Shared} {s : Sys P S} {e : Event P S}

/-! ## What a subscriber does to the pins -/

/-- The pin a running `take` has announced and not yet handed on. -/
def Subscriber.announced (sub : Subscriber) (j : Nat) : Option Pin :=
  match sub.pc with
  | .recheck _ len => some (sub.pinAt j len)
  | .fetchSub _ len => some (sub.pinAt j len)
  | _ => none

/-- The accesses that leave every count alone. -/
def ConsumerWrite.quiet : ConsumerWrite → Bool
  | .pin _ | .adopt _ | .unpin _ => false
  | _ => true

inductive PinEffect (g : Geometry) (m : Shared) :
    Option Pin → ConsumerWrite → Option Pin → Prop where
  | quiet {v w} : w.quiet = true → PinEffect g m v w v
  | pin {v} : PinEffect g m none (.pin v) (some v)
  /-- the recheck succeeds -/
  | adopt {v} : m.sequence (g.cellAt v.position) = v.position + 1 →
      PinEffect g m (some v) (.adopt v) none
  | unpin {v} : PinEffect g m (some v) (.unpin v) none

theorem step_pinEffect (g : Geometry) (m : Shared) (spurious : Bool) (j : Nat) (sub : Subscriber) :
    PinEffect g m (sub.announced j) (sub.step g m spurious j).2
      ((sub.step g m spurious j).1.announced j) := by
  obtain ⟨pc, spinBudget, index, cursor, tail, taken⟩ := sub
  cases pc with
  | tryActive i =>
    simp only [step, tryFrom]
    split
    · split <;> exact .quiet rfl
    · exact .quiet rfl
  | loadHigh =>
    simp only [step, raise]
    split <;> exact .quiet rfl
  | raiseHigh hw =>
    simp only [step, raise]
    split
    · exact .quiet rfl
    · split <;> exact .quiet rfl
  | loadSequence spun =>
    simp only [step]
    split
    · split <;> exact .quiet rfl
    · split
      · exact .quiet rfl
      · split <;> exact .quiet rfl
  | loadLength spun =>
    simp only [step]
    split <;> exact .quiet rfl
  | fetchAdd spun len => exact .pin
  | recheck spun len =>
    simp only [step]
    split
    · rename_i hseq
      exact .adopt hseq
    · exact .quiet rfl
  | fetchSub spun len => exact .unpin
  | publish spun settled =>
    cases settled <;> exact .quiet rfl
  | _ => exact .quiet rfl

/-- The accesses that move a count, and the pin they move. -/
def WroteAt (g : Geometry) (m : Shared) (j : Nat) (sub : Subscriber) : ConsumerWrite → Prop
  | .pin v => ∃ spun len, sub.pc = .fetchAdd spun len ∧ v = sub.pinAt j len
  | .adopt v => ∃ spun len, sub.pc = .recheck spun len ∧ v = sub.pinAt j len ∧
      m.sequence (g.cellAt sub.cursor) = sub.cursor + 1
  | _ => True

theorem step_wroteAt (g : Geometry) (m : Shared) (spurious : Bool) (j : Nat) (sub : Subscriber) :
    WroteAt g m j sub (sub.step g m spurious j).2 := by
  cases hpc : sub.pc with
  | tryActive i | raiseHigh hw | loadLength spun =>
    simp only [step, hpc]
    split <;> trivial
  | loadSequence spun =>
    simp only [step, hpc]
    split
    · trivial
    · split
      · trivial
      · split <;> trivial
  | fetchAdd spun len =>
    simp only [step, hpc]
    exact ⟨spun, len, hpc, rfl⟩
  | recheck spun len =>
    simp only [step, hpc]
    split
    · rename_i hseq
      exact ⟨spun, len, hpc, rfl, hseq⟩
    · trivial
  | _ =>
    simp only [step, hpc]
    trivial

/-! ## Counting -/

/-- `take_refcount` is the number of pins on the cell. -/
def Counted (g : Geometry) (m : Shared) : Prop :=
  ∀ cell, m.takeRefcount cell = m.pins.countP (fun v => g.cellAt v.position = cell)

theorem Counted.addPin (h : Counted g m) (v : Pin) : Counted g (addPin g m v) := by
  intro cell
  show update m.takeRefcount (g.cellAt v.position) _ cell = (v :: m.pins).countP _
  rw [countP_cons]
  by_cases hcell : cell = g.cellAt v.position
  · subst hcell
    rw [update_self, h, if_pos (by simp)]
  have hother : ¬(decide (g.cellAt v.position = cell) = true) := by
    rw [decide_eq_true_eq]
    exact fun h => hcell h.symm
  rw [update_of_ne hcell, h, if_neg hother, add_zero]

variable {v : Pin} {j : Fin S}

theorem Counted.dropPin (h : Counted g m) (hv : v ∈ m.pins) : Counted g (dropPin g m v) := by
  intro cell
  show update m.takeRefcount (g.cellAt v.position) _ cell = (m.pins.erase v).countP _
  rw [countP_erase]
  by_cases hcell : cell = g.cellAt v.position
  · subst hcell
    rw [update_self, h, if_pos ⟨hv, by simp⟩]
  have hother : ¬(v ∈ m.pins ∧ decide (g.cellAt v.position = cell) = true) := by
    rw [decide_eq_true_eq]
    exact fun h => hcell h.2.symm
  rw [update_of_ne hcell, h, if_neg hother, Nat.sub_zero]

theorem Counted.adopt (h : Counted g m) (hv : v ∈ m.pins) :
    Counted g (m.consumerWrite g (.adopt v)) := by
  intro cell
  show m.takeRefcount cell = (({ v with holder := none } : Pin) :: m.pins.erase v).countP _
  rw [countP_cons, countP_erase, h]
  by_cases hcell : g.cellAt v.position = cell
  · have hpos : 0 < m.pins.countP (fun v => g.cellAt v.position = cell) :=
      countP_pos_iff.mpr ⟨v, hv, by simpa using hcell⟩
    simp only [hcell, hv, decide_true, and_self, if_true]
    omega
  · simp only [hcell, decide_false, Bool.false_eq_true, and_false, if_false, Nat.sub_zero, add_zero]

theorem Counted.eq_zero (h : Counted g m) {cell : Nat} (hzero : m.takeRefcount cell = 0)
    (hv : v ∈ m.pins) : g.cellAt v.position ≠ cell := by
  rw [h, countP_eq_zero] at hzero
  have := hzero v hv
  simpa using this

/-! ## Pins and claims -/

def Sys.announced (s : Sys P S) : Fin S → Option Pin := fun j => (s.subs j).announced j

structure PinInv (g : Geometry) (m : Shared) (announced : Fin S → Option Pin)
    (stages : Fin P → Option (Nat × Stage)) : Prop where
  counted : Counted g m
  fits : ∀ cell, m.takeRefcount cell < 2 ^ 32
  announced : ∀ j v, announced j = some v → v ∈ m.pins ∧ v.holder = some j.val
  /-- no live view lies under a granted claim -/
  unshared : ∀ k p, stages k = some (p, .held) →
    ∀ v ∈ m.pins, v.holder = none → g.cellAt v.position ≠ g.cellAt p

variable {announced : Fin S → Option Pin} {stages : Fin P → Option (Nat × Stage)}

theorem pinInv_initial (g : Geometry) :
    PinInv g {} (fun _ : Fin S => none) (fun _ : Fin P => none) where
  counted _ := rfl
  fits _ := Nat.two_pow_pos 32
  announced _ _ h := nomatch h
  unshared _ _ h := nomatch h

/-- A cell whose count reads zero carries no pin, announced or live. -/
theorem PinInv.unpinned (h : PinInv g m announced stages) {cell : Nat}
    (hzero : m.takeRefcount cell % 2 ^ 32 = 0) (hv : v ∈ m.pins) : g.cellAt v.position ≠ cell := by
  apply h.counted.eq_zero ?_ hv
  have hfits := h.fits cell
  omega

theorem PinInv.congr (h : PinInv g m announced stages) {m' : Shared} (hpins : m'.pins = m.pins)
    (hcount : m'.takeRefcount = m.takeRefcount) : PinInv g m' announced stages := by
  obtain ⟨counted, fits, ann, unshared⟩ := h
  refine ⟨?_, ?_, ?_, ?_⟩
  · intro cell
    rw [hpins, hcount]
    exact counted cell
  · rwa [hcount]
  · rwa [hpins]
  · rwa [hpins]

theorem write_pins (g : Geometry) (m : Shared) (w : Write) :
    (m.write g w).pins = m.pins ∧ (m.write g w).takeRefcount = m.takeRefcount := by
  cases w with
  | settle pos len => cases len <;> exact ⟨rfl, rfl⟩
  | _ => exact ⟨rfl, rfl⟩

theorem quiet_pins (g : Geometry) (m : Shared) {w : ConsumerWrite} (hw : w.quiet) :
    (m.consumerWrite g w).pins = m.pins ∧ (m.consumerWrite g w).takeRefcount = m.takeRefcount := by
  cases w with
  | pin | adopt | unpin => cases hw
  | _ => exact ⟨rfl, rfl⟩

/-- A producer's access grants a claim only on a count that reads zero. -/
theorem PinInv.effect (h : PinInv g m announced stages) {k : Fin P} {w : Write}
    {stage : Option (Nat × Stage)} (heffect : Effect g m (stages k) w stage) :
    PinInv g (m.write g w) announced (update stages k stage) := by
  obtain ⟨hpins, hcount⟩ := write_pins g m w
  suffices PinInv g m announced (update stages k stage) from this.congr hpins hcount
  refine ⟨h.counted, h.fits, h.announced, ?_⟩
  intro k' p hp v hv hlive
  rcases update_stage_cases hp with ⟨rfl, rfl⟩ | ⟨-, hp⟩
  · generalize hstage : stages k' = old at heffect
    cases heffect with
    | quiet | length _ => exact h.unshared k' p hstage v hv hlive
    | grant hzero => exact h.unpinned hzero hv
  · exact h.unshared k' p hp v hv hlive

theorem fits_addPin (h : ∀ cell, m.takeRefcount cell < 2 ^ 32)
    (hroom : m.takeRefcount (g.cellAt v.position) + 1 < 2 ^ 32) :
    ∀ cell, (addPin g m v).takeRefcount cell < 2 ^ 32 :=
  (forall_update_iff _ fun _ n => n < 2 ^ 32).mpr ⟨hroom, fun cell _ => h cell⟩

theorem fits_dropPin (h : ∀ cell, m.takeRefcount cell < 2 ^ 32) (v : Pin) :
    ∀ cell, (dropPin g m v).takeRefcount cell < 2 ^ 32 :=
  (forall_update_iff _ fun _ n => n < 2 ^ 32).mpr
    ⟨lt_of_le_of_lt (Nat.sub_le _ _) (h _), fun cell _ => h cell⟩

section

variable (h : PinInv g m announced stages)
include h

/-- One more count on a cell that a live view or a `take` in progress pins. -/
theorem PinInv.addPin (hroom : m.takeRefcount (g.cellAt v.position) + 1 < 2 ^ 32)
    (hlive : v.holder = none → v ∈ m.pins) : PinInv g (addPin g m v) announced stages where
  counted := h.counted.addPin v
  fits := fits_addPin h.fits hroom
  announced j u hu := ⟨mem_cons_of_mem v (h.announced j u hu).1, (h.announced j u hu).2⟩
  unshared k p hp u hu hnone := by
    rcases mem_cons.mp hu with rfl | hu
    · exact h.unshared k p hp u (hlive hnone) hnone
    · exact h.unshared k p hp u hu hnone

theorem PinInv.dropPin (hv : v ∈ m.pins) (hother : ∀ j, announced j ≠ some v) :
    PinInv g (dropPin g m v) announced stages where
  counted := h.counted.dropPin hv
  fits := fits_dropPin h.fits v
  announced j u hu := by
    obtain ⟨hmem, hholder⟩ := h.announced j u hu
    have hne : u ≠ v := fun huv => hother j (huv ▸ hu)
    exact ⟨(mem_erase_of_ne hne).mpr hmem, hholder⟩
  unshared k p hp u hu hnone := h.unshared k p hp u (mem_of_mem_erase hu) hnone

theorem PinInv.announce {v : Option Pin}
    (hv : ∀ u, v = some u → u ∈ m.pins ∧ u.holder = some j.val) :
    PinInv g m (update announced j v) stages where
  counted := h.counted
  fits := h.fits
  announced j' u hu := by
    by_cases hj : j' = j
    · subst hj
      rw [update_self] at hu
      exact hv u hu
    · rw [update_of_ne hj] at hu
      exact h.announced j' u hu
  unshared := h.unshared

theorem PinInv.released (hj : announced j = some v) :
    ∀ j', update announced j none j' ≠ some v := by
  intro j' hj'
  by_cases hjj : j' = j
  · rw [hjj, update_self] at hj'
    cases hj'
  · rw [update_of_ne hjj] at hj'
    have := (h.announced j' v hj').2.symm.trans (h.announced j v hj).2
    exact hjj (Fin.ext (Option.some.inj this))

/-- A successful recheck saw the final sequence, so the cell is nobody's claim. -/
theorem PinInv.adopt (hcells : CellInv g m stages) (hg : 2 ≤ g.cellCount) (hv : v ∈ m.pins)
    (hother : ∀ j, announced j ≠ some v)
    (hseq : m.sequence (g.cellAt v.position) = v.position + 1) :
    PinInv g (m.consumerWrite g (.adopt v)) announced stages where
  counted := h.counted.adopt hv
  fits := h.fits
  announced j u hu := by
    obtain ⟨hmem, hholder⟩ := h.announced j u hu
    have hne : u ≠ v := fun huv => hother j (huv ▸ hu)
    exact ⟨mem_cons_of_mem _ ((mem_erase_of_ne hne).mpr hmem), hholder⟩
  unshared k p hp u hu hnone := by
    rcases mem_cons.mp hu with rfl | hu
    · intro hcell
      -- a granted claim's marker is its position, which is no neighbour's final value
      have hmark := hcells.marked k p _ hp (by decide)
      rw [← hcell] at hmark
      have hp : p = v.position + 1 := hmark.symm.trans hseq
      rw [hp] at hcell
      exact g.cellAt_succ_ne hg _ hcell.symm
    · exact h.unshared k p hp u (mem_of_mem_erase hu) hnone

theorem PinInv.pinEffect (hcells : CellInv g m stages)
    (hg : 2 ≤ g.cellCount) {w : ConsumerWrite} {v : Option Pin}
    (heffect : PinEffect g m (announced j) w v)
    (hnew : ∀ u, w = .pin u → u.holder = some j.val ∧
      m.takeRefcount (g.cellAt u.position) + 1 < 2 ^ 32) :
    PinInv g (m.consumerWrite g w) (update announced j v) stages := by
  generalize hann : announced j = old at heffect
  cases heffect with
  | quiet hw =>
    obtain ⟨hpins, hcount⟩ := quiet_pins g m hw
    rw [← hann, update_eq_self]
    exact h.congr hpins hcount
  | pin =>
    rename_i u
    obtain ⟨hholder, hroom⟩ := hnew u rfl
    have hadd := h.addPin hroom (fun hnone => by rw [hnone] at hholder; cases hholder)
    apply hadd.announce
    intro u' hu'
    obtain rfl := Option.some.inj hu'
    exact ⟨mem_cons_self, hholder⟩
  | adopt hseq =>
    have hfree := h.released hann
    exact (h.announce (fun _ hu => by cases hu)).adopt hcells hg (h.announced j _ hann).1 hfree hseq
  | unpin =>
    have hfree := h.released hann
    exact (h.announce (fun _ hu => by cases hu)).dropPin (h.announced j _ hann).1 hfree

end

/-! ## Subscribers outside their own accesses -/

theorem tryFrom_cases (g : Geometry) (i : Nat) :
    tryFrom g i = .tryActive i ∨ tryFrom g i = .unregistered := by
  unfold tryFrom
  split
  · exact .inl rfl
  · exact .inr rfl

/-- How a subscriber moves outside its own accesses: a call begins. -/
inductive SubBegins (g : Geometry) : Subscriber → Subscriber → Prop where
  | none {sub} : SubBegins g sub sub
  | subscribe {sub} (spinBudget : Nat) : sub.pc = .absent →
      SubBegins g sub { pc := tryFrom g 0, spinBudget }
  | take {sub} : sub.pc = .ready → SubBegins g sub { sub with pc := .loadSequence 0 }
  | destroy {sub} : sub.pc = .ready → SubBegins g sub { sub with pc := .retireIdle }
  | forget {sub} : sub.pc = .unregistered → SubBegins g sub { sub with pc := .absent }

theorem step_subBegins (he : e.isSubscriber = false) (j : Fin S) :
    SubBegins g (s.subs j) ((s.step g e).subs j) := by
  have hset : ∀ j' sub, SubBegins g (s.subs j') sub →
      SubBegins g (s.subs j) ((s.setSub j' sub).subs j) := by
    intro j' sub h
    show SubBegins g (s.subs j) (update s.subs j' sub j)
    by_cases hj : j = j'
    · subst hj
      rw [update_self]
      exact h
    · rw [update_of_ne hj]
      exact .none
  have hmoves := s.step_moves g e
  generalize s.step g e = s' at hmoves
  cases hmoves with
  | subscriber => cases he
  | subscribe habsent => exact hset _ _ (.subscribe _ habsent)
  | take hready => exact hset _ _ (.take hready)
  | destroy hready => exact hset _ _ (.destroy hready)
  | forget hout => exact hset _ _ (.forget hout)
  | _ => exact .none

theorem subs_subscriber_of_ne {j' : Fin S} (hj : j' ≠ j) (spurious : Bool) :
    (s.step g (.subscriber j spurious)).subs j' = s.subs j' :=
  update_of_ne hj _ _

theorem subs_subscriber_self (j : Fin S) (spurious : Bool) :
    (s.step g (.subscriber j spurious)).subs j = ((s.subs j).step g s.mem spurious j).1 :=
  update_self ..

theorem SubBegins.announced_eq {sub sub' : Subscriber} (h : SubBegins g sub sub') (j : Nat) :
    sub'.announced j = sub.announced j := by
  cases h with
  | none => rfl
  | subscribe spinBudget hpc =>
    simp only [announced, hpc]
    rcases tryFrom_cases g 0 with h | h <;> rw [h]
  | take hpc | destroy hpc | forget hpc => simp only [announced, hpc]

theorem announced_step (he : e.isSubscriber = false) : (s.step g e).announced = s.announced := by
  funext j
  exact (step_subBegins he j).announced_eq j

theorem announced_subscriber (j : Fin S) (spurious : Bool) :
    (s.step g (.subscriber j spurious)).announced =
      update s.announced j (((s.subs j).step g s.mem spurious j).1.announced j) := by
  funext j'
  by_cases hj : j' = j
  · subst hj
    rw [update_self]
    exact congrArg (announced · j') (subs_subscriber_self j' spurious)
  · rw [update_of_ne hj]
    exact congrArg (announced · j') (subs_subscriber_of_ne hj spurious)

/-! ## Every event -/

/-- A count that this event raises stays below `2 ^ 32`. -/
def pinRoom (g : Geometry) (s : Sys P S) : Event P S → Bool
  | .subscriber j _ =>
    match (s.subs j).pc with
    | .fetchAdd _ _ => s.mem.takeRefcount (g.cellAt (s.subs j).cursor) + 1 < 2 ^ 32
    | _ => true
  | .share v => s.mem.takeRefcount (g.cellAt v.position) + 1 < 2 ^ 32
  | _ => true

theorem PinInv.step (h : PinInv g s.mem s.announced s.stages) (hcells : CellInv g s.mem s.stages)
    (hg : 2 ≤ g.cellCount) (hok : pinRoom g s e) :
    PinInv g (s.step g e).mem (s.step g e).announced (s.step g e).stages := by
  rcases e.claim_cases with he | ⟨k, spurious, rfl⟩
  · rw [stages_step he]
    rcases e.subscriber_cases with hsub | ⟨j, spurious, rfl⟩
    · rw [announced_step hsub]
      have hmoves := s.step_moves g e
      generalize s.step g e = s' at hmoves
      cases hmoves with
      | producer => cases he
      | subscriber => cases hsub
      | write _ => exact h.congr rfl rfl
      | share hv _ => exact h.addPin (of_decide_eq_true hok) (fun _ => hv)
      | release hv hlive =>
        refine h.dropPin hv (fun j hj => ?_)
        have hholder := (h.announced j _ hj).2
        rw [hlive] at hholder
        cases hholder
      | _ => exact h
    · rw [announced_subscriber]
      apply h.pinEffect hcells hg (step_pinEffect g s.mem spurious j (s.subs j))
      intro v hv
      have hwrote := step_wroteAt g s.mem spurious j (s.subs j)
      rw [hv] at hwrote
      obtain ⟨spun, len, hpc, rfl⟩ := hwrote
      simp only [pinRoom, hpc, decide_eq_true_eq] at hok
      exact ⟨rfl, hok⟩
  · rw [stages_claim]
    exact h.effect (claim_effect s k spurious)

structure RingInv (g : Geometry) (s : Sys P S) : Prop where
  producers : ProducerInv g s
  pins : PinInv g s.mem s.announced s.stages

theorem ringInv_initial (g : Geometry) : RingInv g ({} : Sys P S) where
  producers := producerInv_initial g
  pins := pinInv_initial g

/-- The condition on an event, in the state it happens in. -/
def settledAndCounted (g : Geometry) (s : Sys P S) (e : Event P S) : Bool :=
  overSettled g s e && pinRoom g s e

theorem RingInv.step (h : RingInv g s) (hg : 2 ≤ g.cellCount)
    (hok : settledAndCounted g s e) : RingInv g (s.step g e) := by
  rw [settledAndCounted, Bool.and_eq_true] at hok
  exact ⟨h.producers.step hok.1, h.pins.step h.producers.cells hg hok.2⟩

/-- A run keeps the invariant, and no sequence falls. -/
theorem ringInv_run (hg : 2 ≤ g.cellCount) {events : List (Event P S)} (hs : RingInv g s)
    (hok : Guarded (Sys.step g) (fun s e => settledAndCounted g s e = true) s events) :
    RingInv g (s.run g events) ∧ ∀ cell, s.mem.sequence cell ≤ (s.run g events).mem.sequence cell :=
  hok.invariant (fun t => RingInv g t ∧ ∀ cell, s.mem.sequence cell ≤ t.mem.sequence cell)
    (fun _ e h hok =>
      ⟨h.1.step hg hok, fun cell => le_trans (h.2 cell) (h.1.producers.sequence_mono e cell)⟩)
    ⟨hs, fun _ => le_rfl⟩

/-! ## One writer -/

theorem claimStep_grants {spurious : Bool} {pc : ClaimPc} {p : Nat} (hpc : pc ≠ .holding p)
    (h : (claimStep g m spurious pc).1 = .holding p) :
    m.takeRefcount (g.cellAt p) % 2 ^ 32 = 0 := by
  have hcame := claimStep_cameFrom g m spurious pc
  rw [h] at hcame
  rcases hcame with heq | ⟨-, hzero⟩
  · exact absurd heq hpc
  · exact hzero

/-- What one writer to a slot means after `events`. -/
structure OneWriter (g : Geometry) (events : List (Event P S)) : Prop where
  /-- two claims that were won and not settled have different cells -/
  exclusive : ∀ k k' p p' stage stage',
    ((Sys.run g {} events).claims k).stage = some (p, stage) →
    ((Sys.run g {} events).claims k').stage = some (p', stage') →
    g.cellAt p = g.cellAt p' → k = k'
  /-- the event that returns a claim ok finds no pin at all on its cell -/
  grant : ∀ before e, events = before ++ [e] → ∀ k p,
    (Sys.run g {} before).claims k ≠ .holding p → (Sys.run g {} events).claims k = .holding p →
    ∀ v ∈ (Sys.run g {} events).mem.pins, g.cellAt v.position ≠ g.cellAt p
  /-- and as long as the claim is out there is no live view of its cell -/
  unshared : ∀ k p, ((Sys.run g {} events).claims k).stage = some (p, .held) →
    ∀ v ∈ (Sys.run g {} events).mem.pins, v.holder = none → g.cellAt v.position ≠ g.cellAt p
  sequence_mono : ∀ before after, events = before ++ after → ∀ cell,
    (Sys.run g {} before).mem.sequence cell ≤ (Sys.run g {} events).mem.sequence cell

/-- The event that grants a claim leaves the pins as they are and finds none on the cell. -/
theorem RingInv.grant (h : RingInv g s) {k : Fin P} {p : Nat} (hbefore : s.claims k ≠ .holding p)
    (hafter : (s.step g e).claims k = .holding p) :
    ∀ v ∈ (s.step g e).mem.pins, g.cellAt v.position ≠ g.cellAt p := by
  rcases e.claim_cases with he | ⟨k', spurious, rfl⟩
  · -- no call that begins ends in a granted claim
    have hcall := step_callBegins (g := g) (s := s) he k
    rw [hafter] at hcall
    generalize hpc : s.claims k = pc at hcall hbefore
    generalize hpc' : ClaimPc.holding p = pc' at hcall
    cases hcall with
    | none => exact absurd hpc'.symm hbefore
    | claim =>
      have hstage := congrArg ClaimPc.stage hpc'
      rw [stage_enter] at hstage
      cases hstage
    | commit _ => cases hpc'
  · intro v hv
    rw [show (s.step g (.claim k' spurious)).mem.pins = s.mem.pins from
      (write_pins g s.mem _).1] at hv
    by_cases hk : k = k'
    · subst hk
      rw [claims_claim_self] at hafter
      exact h.pins.unpinned (claimStep_grants hbefore hafter) hv
    · rw [claims_claim_of_ne hk] at hafter
      exact absurd hafter hbefore

/-- **Slots have one writer** in every run in which a reliable exchange wins only over a settled
occupant and no pin count comes round. -/
theorem oneWriter_of_settled (g : Geometry) (hg : 2 ≤ g.cellCount) (events : List (Event P S))
    (hok : Guarded (Sys.step g) (fun s e => settledAndCounted g s e = true) {} events) :
    OneWriter g events := by
  have hinv := (ringInv_run hg (ringInv_initial g) hok).1
  refine ⟨?_, ?_, ?_, ?_⟩
  · intro k k' p p' stage stage' hk hk' hcell
    exact (hinv.producers.cells.one_claim hk hk' hcell).1
  · rintro before e rfl k p hbefore hafter
    have hprefix := (ringInv_run hg (ringInv_initial g) (guarded_append.mp hok).1).1
    rw [Sys.run, foldl_append] at hafter ⊢
    exact hprefix.grant hbefore hafter
  · intro k p hk
    exact hinv.pins.unshared k p hk
  · rintro before after rfl cell
    obtain ⟨hbefore, hafter⟩ := guarded_append.mp hok
    have hmid := (ringInv_run hg (ringInv_initial g) hbefore).1
    have := (ringInv_run hg hmid hafter).2 cell
    rwa [Sys.run, Sys.run, ← foldl_append] at this

theorem isPowerOfTwo_two : isPowerOfTwo 2 = true := rfl

theorem one_le_kMaxConsumers : 1 ≤ kMaxConsumers := by decide

/-- The smallest ring the property is about. -/
def twoCells : Geometry where
  cellCount := 2
  slotCapacity := 8
  consumerCapacity := 1
  pow2 := isPowerOfTwo_two
  slot_ne_zero := by decide
  consumers_ne_zero := Nat.one_ne_zero
  consumers_le := one_le_kMaxConsumers

/-- The one party of a side that has no other. -/
def only : Fin 1 := 0

/-- `n` accesses of producer `k`. -/
def accesses (n : Nat) (k : Fin P) : List (Event P S) := replicate n (.claim k false)

/-- `n` accesses of subscriber `j`. -/
def takerAccesses (n : Nat) (j : Fin S) : List (Event P S) :=
  replicate n (.subscriber j false)

/-- A reliable claim and commit of position `0`, a `take` of it in progress, and claims of the next
two positions, the second on the pinned cell. -/
def settledTraffic : List (Event 2 1) :=
  [.beginSubscribe 0 0] ++ takerAccesses 6 0 ++
    [.beginClaim 0 .reliable 4] ++ accesses 6 0 ++ [.writeByte 0 0 7, .beginCommit 0 4] ++
    accesses 2 0 ++ [.beginTake 0] ++ takerAccesses 3 0 ++
    [.beginClaim 0 .reliable 4] ++ accesses 6 0 ++ [.beginClaim 1 .bestEffort 4] ++ accesses 5 1

theorem oneWriter_settledTraffic :
    Guarded (Sys.step twoCells) (fun s e => settledAndCounted twoCells s e = true) {}
        settledTraffic ∧
      (Sys.run twoCells {} settledTraffic).claims 0 = .holding 1 ∧
      OneWriter twoCells settledTraffic := by
  have hok : Guarded (Sys.step twoCells) (fun s e => settledAndCounted twoCells s e = true) {}
      settledTraffic := by
    decide +kernel
  exact ⟨hok, by decide +kernel, oneWriter_of_settled twoCells (by decide) settledTraffic hok⟩

/-- Three reliable claims of a ring of two, none committed and no consumer to gate them. -/
def unsettledClaims : List (Event 3 0) :=
  [.beginClaim 0 .reliable 4] ++ accesses 4 0 ++ [.beginClaim 1 .reliable 4] ++ accesses 4 1 ++
    [.beginClaim 2 .reliable 4] ++ accesses 5 2

/-- Then the last one commits, and the first one after it. -/
def lateCommit : List (Event 3 0) :=
  [.beginCommit 2 4] ++ accesses 2 2 ++ [.beginCommit 0 4] ++ accesses 2 0

/-- A reliable claim is granted a cell that another holds, and the sequence then goes back. -/
theorem reliable_claims_share_cell :
    let s := Sys.run twoCells {} unsettledClaims
    s.claims 0 = .holding 0 ∧ s.claims 2 = .holding 2 ∧ ¬OneWriter twoCells unsettledClaims ∧
      (Sys.run twoCells {} (unsettledClaims ++ lateCommit.take 3)).mem.sequence 0 = 3 ∧
      (Sys.run twoCells {} (unsettledClaims ++ lateCommit)).mem.sequence 0 = 1 := by
  intro s
  have hfirst : s.claims 0 = .holding 0 := by decide +kernel
  have hthird : s.claims 2 = .holding 2 := by decide +kernel
  refine ⟨hfirst, hthird, ?_, by decide +kernel, by decide +kernel⟩
  intro h
  have := h.exclusive 0 2 0 2 .held .held (by rw [hfirst]; rfl) (by rw [hthird]; rfl) (by decide)
  exact absurd this (by decide)

end Plexus.Shm
