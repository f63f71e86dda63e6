/-
# Plexus.Shm.ProducerRuns — the cells' invariant along every run of the whole machine.

Only a producer's own access moves `enqueue_pos`, a sequence, a length or a fate (`step_frame`), so
the protocol's effects carry over. What is left is that a position is won over a settled occupant. A
best-effort claim has looked (`Looked`), and what it saw stays true while the head stays. A reliable
claim has not: `overSettled` says that no reliable exchange wins a position whose occupant is still
being written.
-/
import Plexus.Shm.SlotProtocol

namespace Plexus.Shm

open Function

variable {P S : Nat} {g : Geometry} {m : Shared} {s : Sys P S} {e : Event P S}

/-! ## What the other events leave alone -/

/-- The part of the region that only producers' accesses write. -/
structure ProducerFrame (m m' : Shared) : Prop where
  enqueuePos : m'.enqueuePos = m.enqueuePos
  sequence : m'.sequence = m.sequence
  payloadLen : m'.payloadLen = m.payloadLen
  fate : m'.fate = m.fate

theorem step_frame (he : e.isClaim = false) : ProducerFrame s.mem (s.step g e).mem := by
  have hmoves := s.step_moves g e
  generalize s.step g e = s' at hmoves
  cases hmoves with
  | producer => cases he
  | subscriber =>
    unfold Shared.consumerWrite
    split <;> exact ⟨rfl, rfl, rfl, rfl⟩
  | _ => exact ⟨rfl, rfl, rfl, rfl⟩

/-- How producer `k`'s counter moves outside its own accesses: a call of its begins. -/
inductive CallBegins (g : Geometry) (m : Shared) (k : Fin P) :
    Event P S → ClaimPc → ClaimPc → Prop where
  | none {e pc} : CallBegins g m k e pc pc
  | claim {rel size} :
      CallBegins g m k (.beginClaim k rel size) .idle (enter g m.enqueuePos (Policy.of rel))
  | commit {pos len} : len ≤ g.slotCapacity →
      CallBegins g m k (.beginCommit k len) (.holding pos) (.commitLen pos len)

theorem step_callBegins (he : e.isClaim = false) (k : Fin P) :
    CallBegins g s.mem k e (s.claims k) ((s.step g e).claims k) := by
  -- the events that touch one producer `k'`
  have hset : ∀ k' pc, (k = k' → CallBegins g s.mem k e (s.claims k) pc) →
      CallBegins g s.mem k e (s.claims k) ((s.setClaim k' pc).claims k) := by
    intro k' pc h
    show CallBegins g s.mem k e (s.claims k) (update s.claims k' pc k)
    by_cases hk : k = k'
    · have hself : update s.claims k' pc k = pc := by rw [hk, update_self]
      rw [hself]
      exact h hk
    · rw [update_of_ne hk]
      exact .none
  have hmoves := s.step_moves g e
  generalize s.step g e = s' at hmoves
  cases hmoves with
  | producer => cases he
  | claim hidle =>
    apply hset
    rintro rfl
    rw [hidle]
    exact .claim
  | commit hholding hlen =>
    apply hset
    rintro rfl
    rw [hholding]
    exact .commit hlen
  | _ => exact .none

theorem CallBegins.stage_eq {k : Fin P} {pc pc' : ClaimPc} (h : CallBegins g m k e pc pc') :
    pc'.stage = pc.stage := by
  cases h with
  | none => rfl
  | claim => exact stage_enter g _ _
  | commit _ => rfl

def Sys.stages (s : Sys P S) : Fin P → Option (Nat × Stage) := fun k => (s.claims k).stage

theorem stages_step (he : e.isClaim = false) : (s.step g e).stages = s.stages := by
  funext k
  exact (step_callBegins he k).stage_eq

theorem stages_claim (k : Fin P) (spurious : Bool) :
    (s.step g (.claim k spurious)).stages =
      update s.stages k (claimStep g s.mem spurious (s.claims k)).1.stage := by
  funext k'
  show (update s.claims k _ k').stage = _
  by_cases hk : k' = k
  · subst hk
    rw [update_self, update_self]
  · rw [update_of_ne hk, update_of_ne hk]
    rfl

theorem claims_claim_of_ne {k k' : Fin P} (hk : k' ≠ k) (spurious : Bool) :
    (s.step g (.claim k spurious)).claims k' = s.claims k' :=
  update_of_ne hk _ _

theorem claims_claim_self (k : Fin P) (spurious : Bool) :
    (s.step g (.claim k spurious)).claims k = (claimStep g s.mem spurious (s.claims k)).1 :=
  update_self ..

/-! ## The best-effort look -/

/-- What a best-effort claim knows of the position it is after. -/
def Looked (g : Geometry) (m : Shared) : ClaimPc → Prop
  | .loadSequence pos _ => pos ≤ m.enqueuePos
  | .exchange pos (.bestEffort _) =>
    pos ≤ m.enqueuePos ∧ (pos = m.enqueuePos → occupantCommitted g m pos = true)
  | _ => True

theorem looked_enter (g : Geometry) (m : Shared) (policy : Policy) :
    Looked g m (enter g m.enqueuePos policy) := by
  cases policy with
  | reliable =>
    simp only [enter]
    split <;> trivial
  | bestEffort skipped => exact le_rfl

theorem Looked.congr {pc : ClaimPc} (h : Looked g m pc) {m' : Shared}
    (henq : m.enqueuePos ≤ m'.enqueuePos)
    (hocc : m'.enqueuePos = m.enqueuePos → occupantCommitted g m m.enqueuePos = true →
      occupantCommitted g m' m.enqueuePos = true) : Looked g m' pc := by
  cases pc with
  | loadSequence pos skipped => exact le_trans h henq
  | exchange pos policy =>
    cases policy with
    | reliable => trivial
    | bestEffort skipped =>
      obtain ⟨hle, hseen⟩ := h
      refine ⟨le_trans hle henq, ?_⟩
      intro heq
      -- a position that is still the head was it all along
      have hhead : pos = m.enqueuePos := by omega
      subst hhead
      exact hocc heq.symm (hseen rfl)
  | _ => trivial

theorem write_enqueuePos_le (g : Geometry) (m : Shared) (w : Write) :
    m.enqueuePos ≤ (m.write g w).enqueuePos := by
  cases w with
  | win => exact Nat.le_succ _
  | settle pos len => cases len <;> exact le_rfl
  | _ => exact le_rfl

theorem step_enqueuePos_le (g : Geometry) (s : Sys P S) (e : Event P S) :
    s.mem.enqueuePos ≤ (s.step g e).mem.enqueuePos := by
  rcases e.claim_cases with he | ⟨k, spurious, rfl⟩
  · exact (step_frame he).enqueuePos.ge
  · exact write_enqueuePos_le g s.mem _

/-- A producer's own access leaves it with a look at the region as it is. -/
theorem looked_claimStep (g : Geometry) (m : Shared) (spurious : Bool) (pc : ClaimPc)
    (h : Looked g m pc) :
    Looked g (m.write g (claimStep g m spurious pc).2) (claimStep g m spurious pc).1 := by
  have hcame := claimStep_cameFrom g m spurious pc
  generalize (claimStep g m spurious pc).1 = pc' at hcame
  cases pc' with
  | loadSequence pos skipped =>
    have hhead : pos = m.enqueuePos := hcame
    rw [hhead]
    exact write_enqueuePos_le g m _
  | exchange pos policy =>
    cases policy with
    | reliable => trivial
    | bestEffort skipped =>
      obtain ⟨rfl, hocc⟩ := hcame
      exact ⟨h, fun _ => hocc⟩
  | _ => trivial

/-- While the head stays, its occupant stays settled: nobody claims its cell. -/
theorem CellInv.head_stable {stages : Fin P → Option (Nat × Stage)} {k : Fin P} {w : Write}
    {stage : Option (Nat × Stage)} (h : CellInv g m stages)
    (heffect : Effect g m (stages k) w stage)
    (hocc : occupantCommitted g m m.enqueuePos) :
    occupantCommitted g (m.write g w) m.enqueuePos := by
  -- a write to a claimed cell does not touch the head's
  have hother : ∀ p a value, stages k = some (p, a) →
      update m.sequence (g.cellAt p) value (g.cellAt m.enqueuePos) =
        m.sequence (g.cellAt m.enqueuePos) := by
    intro p a value hk
    exact update_of_ne (h.next_unclaimed hocc hk).symm _ _
  rw [occupantCommitted_iff] at hocc ⊢
  generalize hstage : stages k = old at heffect
  cases heffect with
  | announce =>
    simp only [Shared.write, hother _ _ _ hstage]
    exact hocc
  | settle =>
    rename_i len _
    cases len <;> simp only [Shared.write, hother _ _ _ hstage] <;> exact hocc
  | _ => exact hocc

/-! ## The invariant of the machine's producers -/

/-- No reliable exchange wins a position whose occupant is not settled, which is what
`claim_best_effort` makes sure of and `claim_reliable` does not. -/
def overSettled (g : Geometry) (s : Sys P S) : Event P S → Bool
  | .claim k spurious =>
    match s.claims k with
    | .exchange pos .reliable =>
      s.mem.enqueuePos != pos || spurious || occupantCommitted g s.mem pos
    | _ => true
  | _ => true

structure ProducerInv (g : Geometry) (s : Sys P S) : Prop where
  cells : CellInv g s.mem s.stages
  looked : ∀ k, Looked g s.mem (s.claims k)

theorem producerInv_initial (g : Geometry) : ProducerInv g ({} : Sys P S) where
  cells := cellInv_initial g
  looked _ := trivial

theorem claim_effect (s : Sys P S) (k : Fin P) (spurious : Bool) :
    Effect g s.mem (s.stages k) (claimStep g s.mem spurious (s.claims k)).2
      (claimStep g s.mem spurious (s.claims k)).1.stage :=
  claimStep_effect g s.mem spurious (s.claims k)

/-- A position is won at the head, by a producer at its exchange. -/
theorem claimStep_win {spurious : Bool} {pc : ClaimPc} (h : (claimStep g m spurious pc).2 = .win) :
    ∃ policy, pc = .exchange m.enqueuePos policy ∧ spurious = false := by
  cases pc with
  | exchange pos policy =>
    simp only [claimStep] at h
    split at h
    · rename_i hwon
      obtain ⟨rfl, hspurious⟩ := hwon
      exact ⟨policy, rfl, hspurious⟩
    · cases h
  | loadPosition pos scan i | slowest pos turn scan =>
    simp only [claimStep] at h
    split at h <;> cases h
  | _ => cases h

theorem ProducerInv.win_over_settled (h : ProducerInv g s) {k : Fin P} {spurious : Bool}
    (hok : overSettled g s (.claim k spurious))
    (hwin : (claimStep g s.mem spurious (s.claims k)).2 = .win) :
    occupantCommitted g s.mem s.mem.enqueuePos := by
  obtain ⟨policy, hpc, rfl⟩ := claimStep_win hwin
  cases policy with
  | reliable =>
    simp only [overSettled, hpc, bne_self_eq_false] at hok
    exact hok
  | bestEffort skipped =>
    have hlook := h.looked k
    rw [hpc] at hlook
    exact hlook.2 rfl

/-- **Every event keeps the producers' invariant**, given the reliable look. -/
theorem ProducerInv.step (h : ProducerInv g s) (hok : overSettled g s e) :
    ProducerInv g (s.step g e) := by
  rcases e.claim_cases with he | ⟨k, spurious, rfl⟩
  · have hframe := step_frame (g := g) (s := s) he
    have hocc : ∀ p, occupantCommitted g (s.step g e).mem p = occupantCommitted g s.mem p := by
      intro p
      simp only [occupantCommitted, hframe.sequence]
    constructor
    · rw [stages_step he]
      exact h.cells.congr hframe.enqueuePos hframe.sequence
    intro k
    have hlook : Looked g (s.step g e).mem (s.claims k) :=
      (h.looked k).congr hframe.enqueuePos.ge (fun _ hseen => by rw [hocc]; exact hseen)
    have hcall := step_callBegins (g := g) (s := s) he k
    generalize s.claims k = pc, (s.step g e).claims k = pc' at hcall hlook
    cases hcall with
    | none => exact hlook
    | claim =>
      rw [← hframe.enqueuePos]
      exact looked_enter g _ _
    | commit _ => trivial
  · constructor
    · rw [stages_claim]
      exact h.cells.effect (claim_effect s k spurious) (h.win_over_settled hok)
    · intro k'
      by_cases hk : k' = k
      · subst hk
        rw [claims_claim_self]
        exact looked_claimStep g s.mem spurious _ (h.looked k')
      · rw [claims_claim_of_ne hk]
        exact (h.looked k').congr (write_enqueuePos_le g s.mem _)
          (fun _ hocc => h.cells.head_stable (claim_effect s k spurious) hocc)

theorem ProducerInv.sequence_mono (h : ProducerInv g s) (e : Event P S) (cell : Nat) :
    s.mem.sequence cell ≤ (s.step g e).mem.sequence cell := by
  rcases e.claim_cases with he | ⟨k, spurious, rfl⟩
  · rw [(step_frame he).sequence]
  · exact h.cells.sequence_mono (claim_effect s k spurious) cell

end Plexus.Shm
