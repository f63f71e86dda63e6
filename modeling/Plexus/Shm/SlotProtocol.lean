/-
# Plexus.Shm.SlotProtocol — the life of a claim, and what it keeps true of the cells.

A claim has won a position but not yet touched the cell (`pre`), has its marker in the cell's
sequence (`post`), or has seen no pin and may write (`held`). `Effect` is all a producer's access
can do to stage and region (`claimStep_effect`). `CellInv` is what any interleaving of effects
keeps, as long as a position is won only over a settled occupant: at most one claim for a cell, and
a sequence that tells where the cell stands.
-/
import Plexus.Shm.RingMachine

namespace Plexus.Shm

open Function

variable {P : Nat} {g : Geometry} {m : Shared}

/-! ## Stages -/

/-- How far a claim has come with its cell. -/
inductive Stage where
  | pre
  | post
  | held
  deriving DecidableEq

/-- The position a producer has won and not settled, and how far it has got. -/
def ClaimPc.stage : ClaimPc → Option (Nat × Stage)
  | .slowest pos none _ => some (pos, .pre)
  | .slowest pos (some _) _ => some (pos, .post)
  | .announce pos _ => some (pos, .pre)
  | .checkPin pos _ => some (pos, .post)
  | .stampLen pos _ => some (pos, .post)
  | .stampSeq pos _ => some (pos, .post)
  | .holding pos => some (pos, .held)
  | .commitLen pos _ => some (pos, .held)
  | .commitSeq pos _ => some (pos, .held)
  | _ => none

/-- What one access can do to the region and to the producer's stage. -/
inductive Effect (g : Geometry) (m : Shared) :
    Option (Nat × Stage) → Write → Option (Nat × Stage) → Prop where
  | quiet {stage} : Effect g m stage .keep stage
  /-- the pin wait goes round and will announce again -/
  | again {p} : Effect g m (some (p, .post)) .keep (some (p, .pre))
  | win : Effect g m none .win (some (m.enqueuePos, .pre))
  | announce {p} : Effect g m (some (p, .pre)) (.announce p) (some (p, .post))
  | grant {p} : m.takeRefcount (g.cellAt p) % 2 ^ 32 = 0 →
      Effect g m (some (p, .post)) .keep (some (p, .held))
  | length {p stage len} : stage ≠ .pre →
      Effect g m (some (p, stage)) (.length p len) (some (p, stage))
  | settle {p stage len} : stage ≠ .pre → Effect g m (some (p, stage)) (.settle p len) none

theorem stage_gateNext (pos scan i : Nat) : (gateNext pos scan i).stage = none := by
  unfold gateNext
  split <;> rfl

theorem stage_enter (g : Geometry) (pos : Nat) (policy : Policy) :
    (enter g pos policy).stage = none := by
  cases policy with
  | reliable =>
    simp only [enter]
    split <;> rfl
  | bestEffort skipped => rfl

theorem claimStep_effect (g : Geometry) (m : Shared) (spurious : Bool) (pc : ClaimPc) :
    Effect g m pc.stage (claimStep g m spurious pc).2 (claimStep g m spurious pc).1.stage := by
  cases pc with
  | idle | reload skipped | holding pos => exact .quiet
  | loadHighWater pos =>
    show Effect g m none .keep (gateNext pos m.highWater 0).stage
    rw [stage_gateNext]
    exact .quiet
  | loadActive pos scan i =>
    simp only [claimStep]
    split
    · exact .quiet
    · rw [stage_gateNext]
      exact .quiet
  | loadPosition pos scan i =>
    simp only [claimStep]
    split
    · rw [stage_gateNext]
      exact .quiet
    split
    · exact .quiet
    · rw [stage_gateNext]
      exact .quiet
  | loadSequence pos skipped =>
    simp only [claimStep]
    split <;> exact .quiet
  | exchange pos policy =>
    simp only [claimStep]
    split
    · rename_i h
      rw [← h.1]
      cases policy <;> exact .win
    · rw [stage_enter]
      exact .quiet
  | slowest pos turn scan =>
    simp only [claimStep]
    split
    · cases turn <;> exact .quiet
    cases turn with
    | none => exact .quiet
    | some seen =>
      simp only [afterSlowest]
      split
      · exact .again
      · split
        · exact .quiet
        · exact .again
  | announce pos mode => exact .announce
  | checkPin pos mode =>
    simp only [claimStep]
    split
    · rename_i h
      exact .grant h
    · cases mode <;> exact .quiet
  | stampLen pos mode | commitLen pos len => exact .length (by decide)
  | stampSeq pos mode =>
    have hnone : (afterSkip g mode).stage = none := by
      cases mode with
      | reliable lastSeen stalled => rfl
      | bestEffort skipped =>
        simp only [afterSkip]
        split <;> rfl
    show Effect g m (some (pos, .post)) (.settle pos none) (afterSkip g mode).stage
    rw [hnone]
    exact .settle (by decide)
  | commitSeq pos len => exact .settle (by decide)

/-- On the reliable path, before a position is won. -/
def ClaimPc.gated : ClaimPc → Bool
  | .loadHighWater _ | .loadActive _ _ _ | .loadPosition _ _ _ | .exchange _ .reliable => true
  | _ => false

/-- What a producer's arrival at a counter says about the access that brought it there. -/
def CameFrom (g : Geometry) (m : Shared) (pc : ClaimPc) : ClaimPc → Prop
  | .loadHighWater _ | .loadActive _ _ _ | .loadPosition _ _ _ | .exchange _ .reliable =>
    pc.gated = true
  | .loadSequence pos _ => pos = m.enqueuePos
  | .exchange pos (.bestEffort skipped) =>
    pc = .loadSequence pos skipped ∧ occupantCommitted g m pos = true
  | .stampSeq pos mode => pc = .stampLen pos mode
  | .holding pos =>
    pc = .holding pos ∨
      (∃ mode, pc = .checkPin pos mode) ∧ m.takeRefcount (g.cellAt pos) % 2 ^ 32 = 0
  | .commitLen _ _ => False
  | .commitSeq pos len => pc = .commitLen pos len
  | _ => True

theorem cameFrom_gateNext {pc : ClaimPc} (h : pc.gated) (pos scan i : Nat) :
    CameFrom g m pc (gateNext pos scan i) := by
  unfold gateNext
  split <;> exact h

theorem claimStep_cameFrom (g : Geometry) (m : Shared) (spurious : Bool) (pc : ClaimPc) :
    CameFrom g m pc (claimStep g m spurious pc).1 := by
  cases pc with
  | idle | announce pos mode | commitSeq pos len => trivial
  | loadHighWater pos => exact cameFrom_gateNext rfl pos _ 0
  | loadActive pos scan i =>
    simp only [claimStep]
    split
    · rfl
    · exact cameFrom_gateNext rfl pos scan (i + 1)
  | loadPosition pos scan i =>
    simp only [claimStep]
    split
    · exact cameFrom_gateNext rfl pos scan (i + 1)
    · split
      · trivial
      · exact cameFrom_gateNext rfl pos scan (i + 1)
  | loadSequence pos skipped =>
    simp only [claimStep]
    split
    · rename_i hocc
      exact ⟨rfl, hocc⟩
    · trivial
  | reload skipped | stampLen pos mode | commitLen pos len => rfl
  | exchange pos policy =>
    simp only [claimStep]
    split
    · cases policy <;> trivial
    cases policy with
    | reliable =>
      simp only [enter]
      split <;> rfl
    | bestEffort skipped => rfl
  | slowest pos turn scan =>
    simp only [claimStep]
    split
    · trivial
    cases turn with
    | none => trivial
    | some seen =>
      simp only [afterSlowest]
      split
      · trivial
      · split <;> trivial
  | checkPin pos mode =>
    simp only [claimStep]
    split
    · rename_i hzero
      exact .inr ⟨⟨mode, rfl⟩, hzero⟩
    · cases mode <;> trivial
  | stampSeq pos mode =>
    cases mode with
    | reliable lastSeen stalled => trivial
    | bestEffort skipped =>
      simp only [claimStep, afterSkip]
      split <;> trivial
  | holding pos => exact .inl rfl

variable {p : Nat}

theorem claimStep_settle {spurious : Bool} {pc : ClaimPc} {len : Option Nat}
    (h : (claimStep g m spurious pc).2 = .settle p len) :
    (∃ mode, pc = .stampSeq p mode ∧ len = none) ∨ ∃ n, pc = .commitSeq p n ∧ len = some n := by
  cases pc with
  | exchange pos policy | loadPosition pos scan i | slowest pos turn scan =>
    simp only [claimStep] at h
    split at h <;> cases h
  | stampSeq pos mode =>
    obtain ⟨rfl, rfl⟩ := Write.settle.inj h
    exact .inl ⟨mode, rfl, rfl⟩
  | commitSeq pos n =>
    obtain ⟨rfl, rfl⟩ := Write.settle.inj h
    exact .inr ⟨n, rfl, rfl⟩
  | _ => cases h

/-! ## The invariant of the cells -/

/-- What holds of every cell, whoever has moved how far. -/
structure CellInv (g : Geometry) (m : Shared) (stages : Fin P → Option (Nat × Stage)) : Prop where
  /-- an unsettled position is the last one won in its cell -/
  window : ∀ k p stage, stages k = some (p, stage) →
    p < m.enqueuePos ∧ m.enqueuePos ≤ p + g.cellCount
  unique : ∀ k k' p stage stage', stages k = some (p, stage) → stages k' = some (p, stage') → k = k'
  pre_seq : ∀ k p, stages k = some (p, .pre) → occupantCommitted g m p = true
  marked : ∀ k p stage, stages k = some (p, stage) → stage ≠ .pre → m.sequence (g.cellAt p) = p
  /-- the last position won in a cell is claimed or settled -/
  settled : ∀ p, p < m.enqueuePos → m.enqueuePos ≤ p + g.cellCount →
    (∃ k stage, stages k = some (p, stage)) ∨ m.sequence (g.cellAt p) = p + 1
  fresh : ∀ p, m.enqueuePos ≤ p → p < g.cellCount → m.sequence (g.cellAt p) = p

theorem occupantCommitted_iff {position : Nat} :
    occupantCommitted g m position = true ↔ m.sequence (g.cellAt position) = position ∨
      m.sequence (g.cellAt position) + g.cellCount = position + 1 := by
  unfold occupantCommitted
  rw [decide_eq_true_eq]

theorem cellInv_initial (g : Geometry) : CellInv g {} (fun _ : Fin P => none) where
  window _ _ _ h := nomatch h
  unique _ _ _ _ _ h := nomatch h
  pre_seq _ _ h := nomatch h
  marked _ _ _ h := nomatch h
  settled p h := absurd h (Nat.not_lt_zero p)
  fresh p _ h := by
    show g.cellAt p = p
    rw [g.cellAt_eq_mod, Nat.mod_eq_of_lt h]

variable {stages : Fin P → Option (Nat × Stage)} {k : Fin P}

/-- A claimed cell's sequence is short of its position's final value. -/
theorem CellInv.seq_le (h : CellInv g m stages) {stage : Stage}
    (hk : stages k = some (p, stage)) :
    m.sequence (g.cellAt p) = p ∨ m.sequence (g.cellAt p) + g.cellCount = p + 1 := by
  cases stage with
  | pre => exact occupantCommitted_iff.mp (h.pre_seq k p hk)
  | post | held => exact .inl (h.marked k p _ hk (by decide))

theorem CellInv.one_claim (h : CellInv g m stages) {k' : Fin P} {p' : Nat} {stage stage' : Stage}
    (hk : stages k = some (p, stage)) (hk' : stages k' = some (p', stage'))
    (hcell : g.cellAt p = g.cellAt p') : k = k' ∧ p = p' := by
  obtain ⟨hp, hlap⟩ := h.window k p stage hk
  obtain ⟨hp', hlap'⟩ := h.window k' p' stage' hk'
  have heq : p = p' :=
    g.cellAt_inj_of_lap (m.enqueuePos - g.cellCount) (by omega) (by omega) (by omega) (by omega)
      hcell
  subst heq
  exact ⟨h.unique k k' p stage stage' hk hk', rfl⟩

/-- Nobody claims the cell of the next position while its occupant is settled. -/
theorem CellInv.next_unclaimed (h : CellInv g m stages)
    (hocc : occupantCommitted g m m.enqueuePos) {stage : Stage}
    (hk : stages k = some (p, stage)) : g.cellAt p ≠ g.cellAt m.enqueuePos := by
  intro hcell
  obtain ⟨hp, hlap⟩ := h.window k p stage hk
  have hnext : m.enqueuePos = p + g.cellCount := by
    by_contra hne
    have := g.cellAt_inj_of_lap p (by omega) (by omega) (by omega) (by omega) hcell
    omega
  have hseq := h.seq_le hk
  rw [occupantCommitted_iff, ← hcell] at hocc
  omega

/-! ## One access -/

variable {stage stage' : Option (Nat × Stage)} {w : Write}

theorem update_stage_cases {k' : Fin P} {claim : Nat × Stage}
    (h : update stages k stage k' = some claim) :
    k' = k ∧ stage = some claim ∨ k' ≠ k ∧ stages k' = some claim := by
  by_cases hkk : k' = k
  · subst hkk
    rw [update_self] at h
    exact .inl ⟨rfl, h⟩
  · rw [update_of_ne hkk] at h
    exact .inr ⟨hkk, h⟩

section

variable (h : CellInv g m stages)
include h

theorem CellInv.restage {a b : Stage} (hk : stages k = some (p, a))
    (hpre : b = .pre → occupantCommitted g m p = true)
    (hpost : b ≠ .pre → m.sequence (g.cellAt p) = p) :
    CellInv g m (update stages k (some (p, b))) := by
  -- every claim stands where it stood, only `k` in another stage
  have hold : ∀ k' q c, update stages k (some (p, b)) k' = some (q, c) →
      ∃ c', stages k' = some (q, c') ∧ (k' = k ∧ q = p ∧ c = b ∨ c' = c) := by
    intro k' q c hq
    rcases update_stage_cases hq with ⟨rfl, heq⟩ | ⟨-, hq⟩
    · obtain ⟨rfl, rfl⟩ := Prod.mk.inj (Option.some.inj heq)
      exact ⟨a, hk, .inl ⟨rfl, rfl, rfl⟩⟩
    · exact ⟨c, hq, .inr rfl⟩
  refine ⟨?_, ?_, ?_, ?_, ?_, h.fresh⟩
  · intro k' q c hq
    obtain ⟨c', hc', -⟩ := hold k' q c hq
    exact h.window k' q c' hc'
  · intro k₁ k₂ q c₁ c₂ h₁ h₂
    obtain ⟨c₁', hc₁, -⟩ := hold k₁ q c₁ h₁
    obtain ⟨c₂', hc₂, -⟩ := hold k₂ q c₂ h₂
    exact h.unique k₁ k₂ q c₁' c₂' hc₁ hc₂
  · intro k' q hq
    obtain ⟨c', hc', ⟨-, rfl, hb⟩ | rfl⟩ := hold k' q .pre hq
    · exact hpre hb.symm
    · exact h.pre_seq k' q hc'
  · intro k' q c hq hc
    obtain ⟨c', hc', ⟨-, rfl, rfl⟩ | rfl⟩ := hold k' q c hq
    · exact hpost hc
    · exact h.marked k' q c' hc' hc
  · intro q hq hlap
    obtain ⟨k', c, hc⟩ | hdone := h.settled q hq hlap
    · left
      by_cases hkk : k' = k
      · subst hkk
        rw [hk] at hc
        obtain ⟨rfl, -⟩ := Prod.mk.inj (Option.some.inj hc)
        exact ⟨k', b, update_self ..⟩
      · exact ⟨k', c, by rw [update_of_ne hkk, hc]⟩
    · exact .inr hdone

theorem CellInv.win (hk : stages k = none) (hocc : occupantCommitted g m m.enqueuePos) :
    CellInv g (m.write g .win) (update stages k (some (m.enqueuePos, .pre))) := by
  have hpos := g.cellCount_pos
  have hold : ∀ k' q c, update stages k (some (m.enqueuePos, .pre)) k' = some (q, c) →
      k' = k ∧ q = m.enqueuePos ∧ c = .pre ∨ k' ≠ k ∧ stages k' = some (q, c) := by
    intro k' q c hq
    rcases update_stage_cases hq with ⟨rfl, heq⟩ | ⟨hkk, hq⟩
    · obtain ⟨rfl, rfl⟩ := Prod.mk.inj (Option.some.inj heq)
      exact .inl ⟨rfl, rfl, rfl⟩
    · exact .inr ⟨hkk, hq⟩
  refine ⟨?_, ?_, ?_, ?_, ?_, ?_⟩
  · intro k' q c hq
    show q < m.enqueuePos + 1 ∧ m.enqueuePos + 1 ≤ q + g.cellCount
    rcases hold k' q c hq with ⟨-, rfl, -⟩ | ⟨-, hq⟩
    · omega
    obtain ⟨hlt, hlap⟩ := h.window k' q c hq
    have hne : m.enqueuePos ≠ q + g.cellCount := by
      intro heq
      apply h.next_unclaimed hocc hq
      rw [heq, g.cellAt_add_cellCount]
    omega
  · intro k₁ k₂ q c₁ c₂ h₁ h₂
    rcases hold k₁ q c₁ h₁ with ⟨rfl, rfl, -⟩ | ⟨-, hq₁⟩
    · rcases hold k₂ _ c₂ h₂ with ⟨rfl, -, -⟩ | ⟨-, hq₂⟩
      · rfl
      · exact absurd (h.window k₂ _ c₂ hq₂).1 (lt_irrefl _)
    · rcases hold k₂ q c₂ h₂ with ⟨rfl, rfl, -⟩ | ⟨-, hq₂⟩
      · exact absurd (h.window k₁ _ c₁ hq₁).1 (lt_irrefl _)
      · exact h.unique k₁ k₂ q c₁ c₂ hq₁ hq₂
  · intro k' q hq
    rcases hold k' q .pre hq with ⟨-, rfl, -⟩ | ⟨-, hq⟩
    · exact hocc
    · exact h.pre_seq k' q hq
  · intro k' q c hq hc
    rcases hold k' q c hq with ⟨-, -, rfl⟩ | ⟨-, hq⟩
    · exact absurd rfl hc
    · exact h.marked k' q c hq hc
  · intro q (hq : q < m.enqueuePos + 1) (hlap : m.enqueuePos + 1 ≤ q + g.cellCount)
    by_cases hnew : q = m.enqueuePos
    · subst hnew
      exact .inl ⟨k, .pre, update_self ..⟩
    obtain ⟨k', c, hc⟩ | hdone := h.settled q (by omega) (by omega)
    · refine .inl ⟨k', c, ?_⟩
      rw [update_of_ne (fun hkk => ?_), hc]
      rw [hkk, hk] at hc
      cases hc
    · exact .inr hdone
  · intro q (hq : m.enqueuePos + 1 ≤ q) hlt
    exact h.fresh q (by omega) hlt

theorem CellInv.stamp {a : Stage} (hk : stages k = some (p, a)) {m' : Shared}
    (henq : m'.enqueuePos = m.enqueuePos) {value : Nat}
    (hseq : m'.sequence = update m.sequence (g.cellAt p) value)
    (hnext : stage = some (p, .post) ∧ value = p ∨ stage = none ∧ value = p + 1) :
    CellInv g m' (update stages k stage) := by
  obtain ⟨hlt, hlap⟩ := h.window k p a hk
  have hother : ∀ q, g.cellAt q ≠ g.cellAt p → m'.sequence (g.cellAt q) = m.sequence (g.cellAt q) := by
    intro q hq
    rw [hseq, update_of_ne hq]
  have hself : m'.sequence (g.cellAt p) = value := by
    rw [hseq, update_self]
  have hold : ∀ k' q c, update stages k stage k' = some (q, c) →
      k' = k ∧ q = p ∧ c = .post ∧ value = p ∨
        k' ≠ k ∧ stages k' = some (q, c) ∧ g.cellAt q ≠ g.cellAt p := by
    intro k' q c hq
    rcases update_stage_cases hq with ⟨rfl, heq⟩ | ⟨hkk, hq⟩
    · rcases hnext with ⟨rfl, hvalue⟩ | ⟨rfl, -⟩
      · obtain ⟨rfl, rfl⟩ := Prod.mk.inj (Option.some.inj heq)
        exact .inl ⟨rfl, rfl, rfl, hvalue⟩
      · cases heq
    · exact .inr ⟨hkk, hq, fun hcell => hkk (h.one_claim hq hk hcell).1⟩
  refine ⟨?_, ?_, ?_, ?_, ?_, ?_⟩
  · intro k' q c hq
    rw [henq]
    rcases hold k' q c hq with ⟨-, rfl, -⟩ | ⟨-, hq, -⟩
    · exact ⟨hlt, hlap⟩
    · exact h.window k' q c hq
  · intro k₁ k₂ q c₁ c₂ h₁ h₂
    rcases hold k₁ q c₁ h₁ with ⟨rfl, rfl, -⟩ | ⟨-, h₁, hne⟩
    · rcases hold k₂ _ c₂ h₂ with ⟨rfl, -⟩ | ⟨-, -, hne⟩
      · rfl
      · exact absurd rfl hne
    · rcases hold k₂ q c₂ h₂ with ⟨rfl, rfl, -⟩ | ⟨-, h₂, -⟩
      · exact absurd rfl hne
      · exact h.unique k₁ k₂ q c₁ c₂ h₁ h₂
  · intro k' q hq
    rcases hold k' q .pre hq with ⟨-, -, hc, -⟩ | ⟨-, hq, hne⟩
    · cases hc
    · rw [occupantCommitted_iff, hother q hne, ← occupantCommitted_iff]
      exact h.pre_seq k' q hq
  · intro k' q c hq hc
    rcases hold k' q c hq with ⟨-, rfl, -, hvalue⟩ | ⟨-, hq, hne⟩
    · rw [hself, hvalue]
    · rw [hother q hne]
      exact h.marked k' q c hq hc
  · intro q hq hqlap
    rw [henq] at hq hqlap
    by_cases hqp : q = p
    · subst hqp
      rcases hnext with ⟨rfl, -⟩ | ⟨-, hvalue⟩
      · exact .inl ⟨k, .post, update_self ..⟩
      · exact .inr (hself.trans hvalue)
    have hne : g.cellAt q ≠ g.cellAt p := fun hcell => hqp <|
      g.cellAt_inj_of_lap (m.enqueuePos - g.cellCount) (by omega) (by omega) (by omega) (by omega)
        hcell
    obtain ⟨k', c, hc⟩ | hdone := h.settled q hq hqlap
    · refine .inl ⟨k', c, ?_⟩
      rw [update_of_ne (fun hkk => ?_), hc]
      rw [hkk, hk] at hc
      exact hqp (Prod.mk.inj (Option.some.inj hc)).1.symm
    · exact .inr ((hother q hne).trans hdone)
  · intro q hq hqlt
    rw [henq] at hq
    have hne : g.cellAt q ≠ g.cellAt p := by
      intro hcell
      have := g.cellAt_inj_of_lap 0 (by omega) (by omega) (by omega) (by omega) hcell
      omega
    rw [hother q hne]
    exact h.fresh q hq hqlt

theorem CellInv.congr {m' : Shared} (henq : m'.enqueuePos = m.enqueuePos)
    (hseq : m'.sequence = m.sequence) : CellInv g m' stages := by
  have hocc : ∀ p, occupantCommitted g m' p = occupantCommitted g m p := by
    intro p
    simp only [occupantCommitted, hseq]
  obtain ⟨window, unique, pre, marked, settled, fresh⟩ := h
  refine ⟨?_, unique, ?_, ?_, ?_, ?_⟩
  · rwa [henq]
  · intro k p hk
    rw [hocc]
    exact pre k p hk
  · rwa [hseq]
  · rwa [henq, hseq]
  · rwa [henq, hseq]

/-- **Every effect keeps the invariant**, if a position is won over a settled occupant. -/
theorem CellInv.effect (heffect : Effect g m (stages k) w stage)
    (hwin : w = .win → occupantCommitted g m m.enqueuePos = true) :
    CellInv g (m.write g w) (update stages k stage) := by
  generalize hstage : stages k = old at heffect
  cases heffect with
  | quiet =>
    rw [← hstage, update_eq_self]
    exact h
  | again =>
    refine h.restage hstage (fun _ => ?_) (fun hne => absurd rfl hne)
    exact occupantCommitted_iff.mpr (.inl (h.marked k _ _ hstage (by decide)))
  | win => exact h.win hstage (hwin rfl)
  | announce => exact h.stamp hstage rfl rfl (.inl ⟨rfl, rfl⟩)
  | grant =>
    refine h.restage hstage (fun hpre => by cases hpre) (fun _ => ?_)
    exact h.marked k _ _ hstage (by decide)
  | length =>
    rw [← hstage, update_eq_self]
    exact h.congr rfl rfl
  | settle =>
    rename_i len _
    cases len <;> exact h.stamp hstage rfl rfl (.inr ⟨rfl, rfl⟩)

theorem CellInv.sequence_mono (heffect : Effect g m (stages k) w stage) (cell : Nat) :
    m.sequence cell ≤ (m.write g w).sequence cell := by
  have hpos := g.cellCount_pos
  have hstamp : ∀ p value, m.sequence (g.cellAt p) ≤ value →
      m.sequence cell ≤ update m.sequence (g.cellAt p) value cell := by
    intro p value hle
    by_cases hcell : cell = g.cellAt p
    · rw [hcell, update_self]
      exact hle
    · rw [update_of_ne hcell]
  generalize hstage : stages k = old at heffect
  cases heffect with
  | quiet | again | win | grant | length => exact le_rfl
  | announce =>
    have := h.seq_le hstage
    exact hstamp _ _ (by omega)
  | settle hne =>
    rename_i p _ len
    have := h.marked k _ _ hstage hne
    cases len <;> exact hstamp p (p + 1) (by omega)

end

end Plexus.Shm
