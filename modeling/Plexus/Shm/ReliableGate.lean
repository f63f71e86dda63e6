/-
# Plexus.Shm.ReliableGate — what a reliable claim knows of the consumers it has passed.

A subscriber owns its cursor slot from the exchange on `active` to the destructor (`Seat`), and once
the high-water mark is raised the gate's scan does not miss it. A reliable claim at `pos` reads the
slots one by one; `GateAt`: every subscriber it has passed, and every one that joined since, is less
than a lap behind `pos`.

Between reading its tail and publishing it a subscriber's cursor is idle and does not gate.
`joinSeen`: no claim a lap past such a tail reads the slot in between.
-/
import Plexus.Shm.SlotOwnership

namespace Plexus.Shm

open Lib Function Subscriber

variable {P S : Nat} {g : Geometry} {m m' : Shared} {s s' : Sys P S} {e : Event P S}
  {sub sub' : Subscriber}

/-! ## Seats -/

/-- Between the exchange on `active` and the store that gives the slot back. -/
def TakePc.registered : TakePc → Bool
  | .absent | .unregistered | .tryActive _ => false
  | _ => true

/-- Between reading the tail and the destructor. -/
def TakePc.joined : TakePc → Bool
  | .absent | .unregistered | .tryActive _ | .storeIdle | .loadHigh | .raiseHigh _ | .loadTail
  | .retireIdle | .retireActive => false
  | _ => true

/-- What holds of the cursor slot that a subscriber owns. -/
def Seat (m : Shared) (sub : Subscriber) : Prop :=
  match sub.pc with
  | .absent | .unregistered | .tryActive _ => True
  | .storeIdle | .retireIdle | .retireActive => m.active sub.index = true
  | .loadHigh => m.active sub.index = true ∧ m.position sub.index = none
  | .raiseHigh hw => m.active sub.index = true ∧ m.position sub.index = none ∧ hw ≤ sub.index
  | .loadTail | .publishTail =>
    m.active sub.index = true ∧ m.position sub.index = none ∧ sub.index < m.highWater
  | _ =>
    m.active sub.index = true ∧ (∃ c, m.position sub.index = some c ∧ c ≤ sub.cursor) ∧
      sub.index < m.highWater

theorem Seat.active (h : Seat m sub) (hreg : sub.pc.registered) :
    m.active sub.index := by
  obtain ⟨pc, spinBudget, index, cursor, tail, taken⟩ := sub
  cases pc with
  | absent | unregistered | tryActive => cases hreg
  | storeIdle | retireIdle | retireActive => exact h
  | _ => exact h.1

theorem Seat.lt_highWater (h : Seat m sub) (hjoined : sub.pc.joined) :
    sub.index < m.highWater := by
  obtain ⟨pc, spinBudget, index, cursor, tail, taken⟩ := sub
  cases pc with
  | absent | unregistered | tryActive | storeIdle | loadHigh | raiseHigh | loadTail | retireIdle
  | retireActive => cases hjoined
  | _ => exact h.2.2

/-- A joined subscriber's slot is idle until its tail is published, and not past its cursor after. -/
theorem Seat.position (h : Seat m sub) (hjoined : sub.pc.joined) :
    sub.pc = .publishTail ∧ m.position sub.index = none ∨
      ∃ c, m.position sub.index = some c ∧ c ≤ sub.cursor := by
  obtain ⟨pc, spinBudget, index, cursor, tail, taken⟩ := sub
  cases pc with
  | absent | unregistered | tryActive | storeIdle | loadHigh | raiseHigh | loadTail | retireIdle
  | retireActive => cases hjoined
  | publishTail => exact .inl ⟨rfl, h.2.1⟩
  | _ => exact .inr h.2.1

theorem registered_of_joined {pc : TakePc} (h : pc.joined) : pc.registered := by
  cases pc with
  | absent | unregistered | tryActive => cases h
  | _ => rfl

theorem Seat.congr (h : Seat m sub)
    (hactive : m.active sub.index = true → m'.active sub.index = true)
    (hposition : sub.pc.registered = true → m'.position sub.index = m.position sub.index)
    (hhigh : m.highWater ≤ m'.highWater) : Seat m' sub := by
  obtain ⟨pc, spinBudget, index, cursor, tail, taken⟩ := sub
  cases pc with
  | absent | unregistered | tryActive => trivial
  | storeIdle | retireIdle | retireActive => exact hactive h
  | loadHigh => exact ⟨hactive h.1, (hposition rfl).trans h.2⟩
  | raiseHigh hw => exact ⟨hactive h.1, (hposition rfl).trans h.2.1, h.2.2⟩
  | loadTail | publishTail =>
    exact ⟨hactive h.1, (hposition rfl).trans h.2.1, lt_of_lt_of_le h.2.2 hhigh⟩
  | _ =>
    obtain ⟨hact, ⟨c, hc, hle⟩, hlt⟩ := h
    exact ⟨hactive hact, ⟨c, (hposition rfl).trans hc, hle⟩, lt_of_lt_of_le hlt hhigh⟩

theorem seat_raise (h : m.active sub.index) (hidle : m.position sub.index = none) :
    Seat m { sub with pc := sub.raise m.highWater } := by
  unfold raise
  split
  · rename_i hlt
    exact ⟨h, hidle, Nat.le_of_lt_succ hlt⟩
  · rename_i hge
    exact ⟨h, hidle, by show sub.index < m.highWater; omega⟩

theorem Seat.step (h : Seat m sub) (hcursor : sub.pc.joined = true → sub.cursor ≤ m.enqueuePos)
    (spurious : Bool) (j : Nat) :
    Seat (m.consumerWrite g (sub.step g m spurious j).2) (sub.step g m spurious j).1 := by
  obtain ⟨pc, spinBudget, index, cursor, tail, taken⟩ := sub
  cases pc with
  | absent | unregistered | retireActive => trivial
  | ready | loadTail | fetchAdd spun len | retireIdle => exact h
  | tryActive i =>
    simp only [Subscriber.step]
    split
    · unfold Seat
      rcases tryFrom_cases g (i + 1) with hnext | hnext <;> simp only [hnext]
    · exact update_self ..
  | storeIdle => exact ⟨h, update_self ..⟩
  | loadHigh => exact seat_raise h.1 h.2
  | raiseHigh hw =>
    simp only [Subscriber.step]
    split
    · exact ⟨h.1, h.2.1, Nat.lt_succ_self _⟩
    · exact seat_raise h.1 h.2.1
  | publishTail => exact ⟨h.1, ⟨cursor, update_self .., le_rfl⟩, h.2.2⟩
  | loadSequence spun =>
    obtain ⟨hact, ⟨c, hc, hle⟩, hlt⟩ := h
    simp only [Subscriber.step]
    split
    · split <;> exact ⟨hact, ⟨c, hc, hle⟩, hlt⟩
    split
    · exact ⟨hact, ⟨c, hc, hle⟩, hlt⟩
    · split
      · exact ⟨hact, ⟨c, hc, Nat.le_succ_of_le hle⟩, hlt⟩
      · exact ⟨hact, ⟨c, hc, hle⟩, hlt⟩
  | loadLagTail spun =>
    obtain ⟨hact, ⟨c, hc, hle⟩, hlt⟩ := h
    exact ⟨hact, ⟨c, hc, le_trans hle (hcursor rfl)⟩, hlt⟩
  | loadLength spun | recheck spun len =>
    obtain ⟨hact, ⟨c, hc, hle⟩, hlt⟩ := h
    simp only [Subscriber.step]
    split
    · exact ⟨hact, ⟨c, hc, Nat.le_succ_of_le hle⟩, hlt⟩
    · exact ⟨hact, ⟨c, hc, hle⟩, hlt⟩
  | fetchSub spun len =>
    obtain ⟨hact, ⟨c, hc, hle⟩, hlt⟩ := h
    exact ⟨hact, ⟨c, hc, Nat.le_succ_of_le hle⟩, hlt⟩
  | publish spun settled =>
    cases settled <;> exact ⟨h.1, ⟨cursor, update_self .., le_rfl⟩, h.2.2⟩

variable {i : Nat}

/-- A subscriber's access leaves the slots of others alone, and never lowers the mark. -/
theorem Seat.others (h : Seat m sub) (spurious : Bool) (j : Nat)
    (hi : sub.pc.registered = true → i ≠ sub.index) :
    (m.active i = true → (m.consumerWrite g (sub.step g m spurious j).2).active i = true) ∧
      (m.consumerWrite g (sub.step g m spurious j).2).position i = m.position i ∧
      m.highWater ≤ (m.consumerWrite g (sub.step g m spurious j).2).highWater := by
  have hkeep : (m.active i = true → m.active i = true) ∧ m.position i = m.position i ∧
      m.highWater ≤ m.highWater := ⟨id, rfl, le_rfl⟩
  obtain ⟨pc, spinBudget, index, cursor, tail, taken⟩ := sub
  cases pc with
  | absent | unregistered | ready | loadHigh | loadTail | loadLagTail spun => exact hkeep
  | tryActive i' =>
    simp only [Subscriber.step]
    split
    · exact hkeep
    refine ⟨fun hact => ?_, rfl, le_rfl⟩
    show update m.active i' true i = true
    by_cases hii : i = i'
    · rw [hii, update_self]
    · rw [update_of_ne hii, hact]
  | storeIdle | publishTail | publish spun settled | retireIdle =>
    exact ⟨id, update_of_ne (hi rfl) _ _, le_rfl⟩
  | raiseHigh hw =>
    simp only [Subscriber.step]
    split
    · refine ⟨id, rfl, ?_⟩
      have hlow : hw ≤ index := h.2.2
      show m.highWater ≤ index + 1
      omega
    · exact hkeep
  | loadSequence spun =>
    simp only [Subscriber.step]
    split
    · exact hkeep
    · split
      · exact hkeep
      · split <;> exact hkeep
  | loadLength spun =>
    simp only [Subscriber.step]
    split <;> exact hkeep
  | fetchAdd spun len | fetchSub spun len => exact ⟨id, rfl, le_rfl⟩
  | recheck spun len =>
    simp only [Subscriber.step]
    split
    · exact ⟨id, rfl, le_rfl⟩
    · exact hkeep
  | retireActive =>
    refine ⟨fun hact => ?_, rfl, le_rfl⟩
    show update m.active index false i = true
    rw [update_of_ne (hi rfl), hact]

variable {spurious : Bool} {scan pos : Nat}

theorem registered_step {j : Nat} (h : (sub.step g m spurious j).1.pc.registered) :
    sub.pc.registered = true ∧ (sub.step g m spurious j).1.index = sub.index ∨
      sub.pc = .tryActive (sub.step g m spurious j).1.index ∧
        m.active (sub.step g m spurious j).1.index = false := by
  obtain ⟨pc, spinBudget, index, cursor, tail, taken⟩ := sub
  cases pc with
  | absent | unregistered => cases h
  | tryActive i =>
    simp only [Subscriber.step] at h ⊢
    split at h
    · rcases tryFrom_cases g (i + 1) with hnext | hnext <;> rw [hnext] at h <;> cases h
    · rename_i hfree
      rw [if_neg hfree]
      exact .inr ⟨rfl, Bool.eq_false_iff.mpr hfree⟩
  | raiseHigh hw | loadLength spun | recheck spun len =>
    simp only [Subscriber.step]
    split <;> exact .inl ⟨rfl, rfl⟩
  | loadSequence spun =>
    simp only [Subscriber.step]
    split
    · exact .inl ⟨rfl, rfl⟩
    · split
      · exact .inl ⟨rfl, rfl⟩
      · split <;> exact .inl ⟨rfl, rfl⟩
  | _ => exact .inl ⟨rfl, rfl⟩

structure SeatsInv (s : Sys P S) : Prop where
  seat : ∀ j, Seat s.mem (s.subs j)
  distinct : ∀ j j', (s.subs j).pc.registered = true → (s.subs j').pc.registered = true →
    (s.subs j).index = (s.subs j').index → j = j'

theorem seatsInv_initial : SeatsInv ({} : Sys P S) where
  seat _ := trivial
  distinct _ _ h := nomatch h

theorem step_registry (he : e.isSubscriber = false) :
    (s.step g e).mem.active = s.mem.active ∧ (s.step g e).mem.position = s.mem.position ∧
      (s.step g e).mem.highWater = s.mem.highWater := by
  have hmoves := s.step_moves g e
  generalize s.step g e = s' at hmoves
  cases hmoves with
  | subscriber => cases he
  | producer =>
    unfold Shared.write
    split <;> exact ⟨rfl, rfl, rfl⟩
  | _ => exact ⟨rfl, rfl, rfl⟩

theorem Seat.begins (h : Seat m sub) (hbegins : SubBegins g sub sub') : Seat m sub' := by
  cases hbegins with
  | none => exact h
  | subscribe spinBudget hpc =>
    unfold Seat
    rcases tryFrom_cases g 0 with hnext | hnext <;> simp only [hnext]
  | take hpc =>
    simp only [Seat, hpc] at h
    exact h
  | destroy hpc => exact h.active (by rw [hpc]; rfl)
  | forget hpc => trivial

theorem SubBegins.registered (h : SubBegins g sub sub') (hreg : sub'.pc.registered) :
    sub.pc.registered = true ∧ sub'.index = sub.index := by
  cases h with
  | none => exact ⟨hreg, rfl⟩
  | subscribe spinBudget hpc =>
    exfalso
    rcases tryFrom_cases g 0 with hnext | hnext <;> simp only [hnext] at hreg <;> cases hreg
  | take hpc | destroy hpc => exact ⟨by rw [hpc]; rfl, rfl⟩
  | forget hpc => cases hreg

/-- **Every event keeps the seats apart**, each in its owner's hands. -/
theorem SeatsInv.step (h : SeatsInv s)
    (hcursor : ∀ j, (s.subs j).pc.joined = true → (s.subs j).cursor ≤ s.mem.enqueuePos)
    (e : Event P S) : SeatsInv (s.step g e) := by
  rcases e.subscriber_cases with he | ⟨j₀, spurious, rfl⟩
  · obtain ⟨hactive, hposition, hhigh⟩ := step_registry he
    constructor
    · intro j
      apply ((h.seat j).begins (step_subBegins he j)).congr
      · rw [hactive]
        exact id
      · intro _
        rw [hposition]
      · rw [hhigh]
    · intro j j' hj hj' hindex
      obtain ⟨hreg, hsame⟩ := (step_subBegins he j).registered hj
      obtain ⟨hreg', hsame'⟩ := (step_subBegins he j').registered hj'
      exact h.distinct j j' hreg hreg' (hsame.symm.trans (hindex.trans hsame'))
  -- whoever else is registered sits elsewhere, before and after
  have hapart : ∀ j, j ≠ j₀ → (s.subs j).pc.registered = true →
      ((s.subs j₀).step g s.mem spurious j₀).1.pc.registered = true →
      (s.subs j).index ≠ ((s.subs j₀).step g s.mem spurious j₀).1.index := by
    intro j hj hreg hreg₀ hindex
    rcases registered_step hreg₀ with ⟨hold, hsame⟩ | ⟨-, hfree⟩
    · exact hj (h.distinct j j₀ hreg hold (hindex.trans hsame))
    · rw [← hindex, (h.seat j).active hreg] at hfree
      cases hfree
  constructor
  · intro j
    by_cases hj : j = j₀
    · subst hj
      rw [subs_subscriber_self]
      exact (h.seat j).step (hcursor j) spurious j
    rw [subs_subscriber_of_ne hj]
    by_cases hreg : (s.subs j).pc.registered = true
    · have hother := (h.seat j₀).others (g := g) spurious j₀
        (fun hreg₀ hindex => hj (h.distinct j j₀ hreg hreg₀ hindex))
      exact (h.seat j).congr hother.1 (fun _ => hother.2.1) hother.2.2
    unfold Seat
    cases hpc : (s.subs j).pc with
    | absent | unregistered | tryActive => trivial
    | _ => rw [hpc] at hreg; exact absurd rfl hreg
  intro j j' hreg hreg' hindex
  by_cases hj : j = j₀
  · by_cases hj' : j' = j₀
    · exact hj.trans hj'.symm
    · subst hj
      rw [subs_subscriber_self] at hreg hindex
      rw [subs_subscriber_of_ne hj'] at hreg' hindex
      exact absurd hindex.symm (hapart j' hj' hreg' hreg)
  rw [subs_subscriber_of_ne hj] at hreg hindex
  by_cases hj' : j' = j₀
  · subst hj'
    rw [subs_subscriber_self] at hreg' hindex
    exact absurd hindex (hapart j hj hreg hreg')
  · rw [subs_subscriber_of_ne hj'] at hreg' hindex
    exact h.distinct j j' hreg hreg' hindex

/-! ## The gate -/

/-- Subscriber `j`, if it has joined, is less than a lap behind `pos`. -/
def Behind (g : Geometry) (s : Sys P S) (pos : Nat) (j : Fin S) : Prop :=
  (s.subs j).pc.joined = true → pos < (s.subs j).cursor + g.cellCount

def Mode.isReliable : Mode → Bool
  | .reliable _ _ => true
  | .bestEffort _ => false

/-- What a reliable claim has established on its way; nobody is on the best-effort path. -/
def GateAt (g : Geometry) (s : Sys P S) : ClaimPc → Prop
  | .loadHighWater pos => pos ≤ s.mem.enqueuePos ∧ g.cellCount ≤ pos
  | .loadActive pos scan i | .loadPosition pos scan i =>
    pos ≤ s.mem.enqueuePos ∧ g.cellCount ≤ pos ∧
      ∀ j, (s.subs j).index < i ∨ scan ≤ (s.subs j).index → Behind g s pos j
  | .exchange pos .reliable => pos ≤ s.mem.enqueuePos ∧ ∀ j, Behind g s pos j
  | .exchange _ (.bestEffort _) | .loadSequence _ _ | .reload _ => False
  | .announce _ mode | .checkPin _ mode | .stampLen _ mode | .stampSeq _ mode =>
    mode.isReliable = true
  | _ => True

theorem gateAt_gateNext (hpos : pos ≤ s.mem.enqueuePos) (hlap : g.cellCount ≤ pos)
    (h : ∀ j, (s.subs j).index < i ∨ scan ≤ (s.subs j).index → Behind g s pos j) :
    GateAt g s (gateNext pos scan i) := by
  unfold gateNext
  split
  · exact ⟨hpos, hlap, h⟩
  · refine ⟨hpos, fun j => h j ?_⟩
    omega

theorem gateAt_enter (g : Geometry) (s : Sys P S) :
    GateAt g s (enter g s.mem.enqueuePos .reliable) := by
  simp only [enter]
  split
  · -- a first-lap position has nobody a lap behind it
    refine ⟨le_rfl, fun j _ => ?_⟩
    omega
  · exact ⟨le_rfl, by omega⟩

theorem GateAt.mono {pc : ClaimPc} (h : GateAt g s pc)
    (henq : s.mem.enqueuePos ≤ s'.mem.enqueuePos)
    (hsubs : ∀ j, (s'.subs j).pc.joined = true →
      ((s.subs j).pc.joined = true ∧ (s'.subs j).index = (s.subs j).index ∧
        (s.subs j).cursor ≤ (s'.subs j).cursor) ∨
      s.mem.enqueuePos ≤ (s'.subs j).cursor) : GateAt g s' pc := by
  have hpos := g.cellCount_pos
  -- one subscriber that the claim had passed, or that has joined since
  have hbehind : ∀ pos j, pos ≤ s.mem.enqueuePos →
      ((s'.subs j).index = (s.subs j).index → Behind g s pos j) → Behind g s' pos j := by
    intro pos j hle hold hjoined
    rcases hsubs j hjoined with ⟨hj, hindex, hcursor⟩ | hhead
    · have := hold hindex hj
      omega
    · omega
  cases pc with
  | loadHighWater pos => exact ⟨le_trans h.1 henq, h.2⟩
  | loadActive pos scan i | loadPosition pos scan i =>
    refine ⟨le_trans h.1 henq, h.2.1, fun j hj => hbehind pos j h.1 (fun hindex => ?_)⟩
    rw [hindex] at hj
    exact h.2.2 j hj
  | exchange pos policy =>
    cases policy with
    | reliable =>
      exact ⟨le_trans h.1 henq, fun j => hbehind pos j h.1 (fun _ => h.2 j)⟩
    | bestEffort skipped => exact h.elim
  | _ => exact h

/-- The gate's reading of slot `i` is not too early for a subscriber that has read its tail and
not published it. -/
def joinSeen (g : Geometry) (s : Sys P S) : Event P S → Bool
  | .claim k _ =>
    match s.claims k with
    | .loadPosition pos _ i =>
      decide (∀ j, (s.subs j).pc = .publishTail → (s.subs j).index = i →
        pos < (s.subs j).cursor + g.cellCount)
    | _ => true
  | _ => true

/-- Reading that slot `i` is free says that nobody who has joined owns it. -/
theorem gateAt_loadActive (h : GateAt g s (.loadActive pos scan i))
    (hseats : SeatsInv s) (hfree : ¬s.mem.active i = true) :
    GateAt g s (gateNext pos scan (i + 1)) := by
  refine gateAt_gateNext h.1 h.2.1 (fun j hj hjoined => ?_)
  by_cases hi : (s.subs j).index = i
  · rw [← hi] at hfree
    exact absurd ((hseats.seat j).active (registered_of_joined hjoined)) hfree
  · exact h.2.2 j (by omega) hjoined

/-- The position read in slot `i` decides for its owner; the others were passed before. -/
theorem gateAt_loadPosition {k : Fin P} (h : GateAt g s (.loadPosition pos scan i))
    (hseats : SeatsInv s) (hok : joinSeen g s (.claim k spurious))
    (hpc : s.claims k = .loadPosition pos scan i)
    (hread : ∀ cur, s.mem.position i = some cur → ¬cur ≤ pos - g.cellCount) :
    GateAt g s (gateNext pos scan (i + 1)) := by
  have hlap := h.2.1
  refine gateAt_gateNext h.1 hlap (fun j hj hjoined => ?_)
  by_cases hi : (s.subs j).index = i
  · rcases (hseats.seat j).position hjoined with ⟨hpublish, -⟩ | ⟨c, hc, hle⟩
    · simp only [joinSeen, hpc, decide_eq_true_eq] at hok
      exact hok j hpublish hi
    · rw [hi] at hc
      have := hread c hc
      omega
  · exact h.2.2 j (by omega) hjoined

theorem gateAt_claimStep {k : Fin P} (h : GateAt g s (s.claims k)) (hseats : SeatsInv s)
    (hok : joinSeen g s (.claim k spurious)) :
    GateAt g s (claimStep g s.mem spurious (s.claims k)).1 := by
  cases hpc : s.claims k with
  | idle | holding pos | commitLen pos len | commitSeq pos len => trivial
  | loadHighWater pos =>
    rw [hpc] at h
    refine gateAt_gateNext h.1 h.2 (fun j hj hjoined => ?_)
    -- the scan starts below every raised mark, so nobody who has joined is missed
    have := (hseats.seat j).lt_highWater hjoined
    omega
  | loadActive pos scan i =>
    rw [hpc] at h
    simp only [claimStep]
    split
    · exact h
    · rename_i hfree
      exact gateAt_loadActive h hseats hfree
  | loadPosition pos scan i =>
    rw [hpc] at h
    simp only [claimStep]
    split
    · rename_i hnone
      refine gateAt_loadPosition h hseats hok hpc (fun cur hcur => ?_)
      rw [hnone] at hcur
      cases hcur
    rename_i cur hcur
    split
    · trivial
    rename_i hpassed
    refine gateAt_loadPosition h hseats hok hpc (fun c hc => ?_)
    rw [hcur] at hc
    obtain rfl := Option.some.inj hc
    exact hpassed
  | loadSequence pos skipped | reload skipped => rw [hpc] at h; exact h.elim
  | exchange pos policy =>
    rw [hpc] at h
    cases policy with
    | bestEffort skipped => exact h.elim
    | reliable =>
      simp only [claimStep]
      split
      · trivial
      · exact gateAt_enter g s
  | slowest pos turn scan =>
    simp only [claimStep]
    split
    · trivial
    cases turn with
    | none => rfl
    | some seen =>
      simp only [afterSlowest]
      split
      · rfl
      · split <;> rfl
  | announce pos mode | stampLen pos mode => rw [hpc] at h; exact h
  | checkPin pos mode =>
    rw [hpc] at h
    simp only [claimStep]
    split
    · trivial
    · cases mode with
      | reliable lastSeen stalled => trivial
      | bestEffort skipped => cases h
  | stampSeq pos mode =>
    rw [hpc] at h
    cases mode with
    | reliable lastSeen stalled => trivial
    | bestEffort skipped => cases h

/-! ## Every event -/

theorem joined_or_loadTail {j : Nat} (h : (sub.step g m spurious j).1.pc.joined) :
    sub.pc.joined = true ∨ sub.pc = .loadTail := by
  obtain ⟨pc, spinBudget, index, cursor, tail, taken⟩ := sub
  cases pc with
  | absent | unregistered | storeIdle | retireIdle | retireActive => cases h
  | tryActive i =>
    simp only [Subscriber.step] at h
    split at h
    · rcases tryFrom_cases g (i + 1) with hnext | hnext <;> rw [hnext] at h <;> cases h
    · cases h
  | loadHigh =>
    simp only [Subscriber.step, raise] at h
    split at h <;> cases h
  | raiseHigh hw =>
    simp only [Subscriber.step, raise] at h
    split at h
    · cases h
    · split at h <;> cases h
  | loadTail => exact .inr rfl
  | _ => exact .inl rfl

theorem joined_step {j : Nat} (h : (sub.step g m spurious j).1.pc.joined) :
    (sub.pc.joined = true ∧ (sub.step g m spurious j).1.index = sub.index ∧
        sub.cursor ≤ (sub.step g m spurious j).1.cursor) ∨
      m.enqueuePos ≤ (sub.step g m spurious j).1.cursor := by
  have hentry := joined_or_loadTail h
  obtain ⟨pc, spinBudget, index, cursor, tail, taken⟩ := sub
  rcases hentry with hjoined | rfl
  · cases pc with
    | absent | unregistered | tryActive | storeIdle | loadHigh | raiseHigh | loadTail | retireIdle
    | retireActive => cases hjoined
    | loadLagTail spun => exact .inr le_rfl
    | loadSequence spun =>
      simp only [Subscriber.step]
      split
      · exact .inl ⟨rfl, rfl, le_rfl⟩
      split
      · exact .inl ⟨rfl, rfl, le_rfl⟩
      · split
        · exact .inl ⟨rfl, rfl, Nat.le_succ _⟩
        · exact .inl ⟨rfl, rfl, le_rfl⟩
    | loadLength spun | recheck spun len =>
      simp only [Subscriber.step]
      split
      · exact .inl ⟨rfl, rfl, Nat.le_succ _⟩
      · exact .inl ⟨rfl, rfl, le_rfl⟩
    | fetchSub spun len => exact .inl ⟨rfl, rfl, Nat.le_succ _⟩
    | ready | publishTail | fetchAdd spun len | publish spun settled =>
      exact .inl ⟨rfl, rfl, le_rfl⟩
  · exact .inr le_rfl

theorem SubBegins.joined (h : SubBegins g sub sub') (hjoined : sub'.pc.joined) :
    sub.pc.joined = true ∧ sub'.index = sub.index ∧ sub'.cursor = sub.cursor := by
  cases h with
  | none => exact ⟨hjoined, rfl, rfl⟩
  | subscribe spinBudget hpc =>
    exfalso
    rcases tryFrom_cases g 0 with hnext | hnext <;> simp only [hnext] at hjoined <;> cases hjoined
  | take hpc => exact ⟨by rw [hpc]; rfl, rfl, rfl⟩
  | destroy hpc | forget hpc => cases hjoined

theorem step_joined {j : Fin S} (h : ((s.step g e).subs j).pc.joined) :
    ((s.subs j).pc.joined = true ∧ ((s.step g e).subs j).index = (s.subs j).index ∧
        (s.subs j).cursor ≤ ((s.step g e).subs j).cursor) ∨
      s.mem.enqueuePos ≤ ((s.step g e).subs j).cursor := by
  rcases e.subscriber_cases with he | ⟨j', spurious, rfl⟩
  · obtain ⟨hj, hindex, hcursor⟩ := (step_subBegins he j).joined h
    exact .inl ⟨hj, hindex, hcursor.ge⟩
  by_cases hj : j = j'
  · subst hj
    rw [subs_subscriber_self] at h ⊢
    exact joined_step h
  · rw [subs_subscriber_of_ne hj] at h ⊢
    exact .inl ⟨h, rfl, le_rfl⟩

def Event.reliable : Event P S → Bool
  | .beginClaim _ .bestEffort _ => false
  | _ => true

/-- **Every event keeps what the claims have established.** -/
theorem gateAt_step (h : ∀ k, GateAt g s (s.claims k)) (hseats : SeatsInv s)
    (he : e.reliable) (hok : joinSeen g s e) (k : Fin P) :
    GateAt g (s.step g e) ((s.step g e).claims k) := by
  suffices GateAt g s ((s.step g e).claims k) from
    this.mono (step_enqueuePos_le g s e) (fun j hj => step_joined hj)
  have hk := h k
  rcases e.claim_cases with hclaim | ⟨k', spurious, rfl⟩
  · have hcall := step_callBegins (g := g) (s := s) hclaim k
    generalize s.claims k = pc, (s.step g e).claims k = pc' at hcall hk
    cases hcall with
    | none => exact hk
    | claim =>
      rename_i rel size
      cases rel with
      | bestEffort => cases he
      | reliable => exact gateAt_enter g s
    | commit _ => trivial
  · by_cases hkk : k = k'
    · subst hkk
      rw [claims_claim_self]
      exact gateAt_claimStep hk hseats hok
    · rw [claims_claim_of_ne hkk]
      exact hk

end Plexus.Shm
