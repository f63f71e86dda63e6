/-
# Plexus.Shm.SlotContents — what a cell holds while its sequence names a position.

A cell whose sequence is `q + 1` was settled at `q`: committed with the length and the bytes in it,
or skipped with the tombstone in its length (`ContentsOf`). The one value that can lie is the
claiming marker of position `q + 1` in the same cell, which happens in a ring of one; `Current` keeps
it out. `ContentsInv` holds along every run, and with it a settled position's fate is final.
-/
import Plexus.Shm.ProducerRuns

namespace Plexus.Shm

open Function

variable {P S : Nat} {g : Geometry} {m m' : Shared} {s : Sys P S} {e : Event P S} {k : Fin P}
  {stages : Fin P → Option (Nat × Stage)} {w : Write} {stage : Option (Nat × Stage)}

/-! ## Where the head is -/

variable {q : Nat}

/-- A cell that was won at all was last won within the last lap. -/
theorem exists_last_won (g : Geometry) {head : Nat} (h : q % g.cellCount < head) :
    ∃ p, p < head ∧ head ≤ p + g.cellCount ∧ g.cellAt p = g.cellAt q := by
  have hpos := g.cellCount_pos
  have hdiv := Nat.div_add_mod (head - 1 - q % g.cellCount) g.cellCount
  have hmod := Nat.mod_lt (head - 1 - q % g.cellCount) hpos
  refine ⟨q % g.cellCount + g.cellCount * ((head - 1 - q % g.cellCount) / g.cellCount), ?_, ?_, ?_⟩
  · omega
  · omega
  · rw [g.cellAt_eq_mod, g.cellAt_eq_mod, Nat.add_mul_mod_self_left, Nat.mod_mod]

theorem CellInv.lt_head (h : CellInv g m stages) (hq : q + 1 ≤ m.sequence (g.cellAt q)) :
    q < m.enqueuePos := by
  have hpos := g.cellCount_pos
  by_cases hfresh : q % g.cellCount < m.enqueuePos
  · obtain ⟨p, hp, hlap, hcell⟩ := exists_last_won g hfresh
    rw [← hcell] at hq
    obtain ⟨k, stage, hk⟩ | hdone := h.settled p hp hlap
    · have := h.seq_le hk
      omega
    · omega
  -- an untouched cell's sequence is its index
  have hmod := Nat.mod_lt q hpos
  have hseq := h.fresh (q % g.cellCount) (by omega) hmod
  have hcell : g.cellAt (q % g.cellCount) = g.cellAt q := by
    rw [g.cellAt_eq_mod, g.cellAt_eq_mod, Nat.mod_mod]
  rw [hcell] at hseq
  have := Nat.mod_le q g.cellCount
  omega

/-! ## The contents of a cell -/

/-- The sequence of `q`'s cell is `q`'s final one, and not the next position's marker. -/
def Current (g : Geometry) (m : Shared) (q : Nat) : Prop :=
  m.sequence (g.cellAt q) = q + 1 ∧ (2 ≤ g.cellCount ∨ m.enqueuePos ≤ q + g.cellCount)

/-- What the region holds for a settled position. -/
inductive ContentsOf (g : Geometry) (m : Shared) (q : Nat) : Prop where
  | committed {len : Nat} {bytes : Bytes} : m.fate q = some (.committed len bytes) →
      m.payloadLen (g.cellAt q) = len % 2 ^ 32 → len ≤ g.slotCapacity →
      bytes = (List.range len).map (m.slab (g.cellAt q)) → ContentsOf g m q
  | skipped : m.fate q = some .skipped → m.payloadLen (g.cellAt q) = kSkipLen → ContentsOf g m q

theorem ContentsOf.congr (h : ContentsOf g m q) (hfate : m'.fate q = m.fate q)
    (hlen : m'.payloadLen (g.cellAt q) = m.payloadLen (g.cellAt q))
    (hslab : m'.slab (g.cellAt q) = m.slab (g.cellAt q)) : ContentsOf g m' q := by
  cases h with
  | committed hf hl hcap hb =>
    exact .committed (hfate.trans hf) (hlen.trans hl) hcap (by rw [hslab]; exact hb)
  | skipped hf hl => exact .skipped (hfate.trans hf) (hlen.trans hl)

variable {p : Nat} {pc : ClaimPc}

/-- Nobody who has announced a claim, or been granted one, works on a current cell. -/
theorem Current.unmarked {a : Stage} (hq : Current g m q) (h : CellInv g m stages)
    (hk : stages k = some (p, a)) (ha : a ≠ .pre) : g.cellAt q ≠ g.cellAt p := by
  intro hcell
  have hmark := h.marked k p a hk ha
  rw [← hcell, hq.1] at hmark
  subst hmark
  rcases hq.2 with hg | hhead
  · exact g.cellAt_succ_ne hg q hcell.symm
  have hlt := (h.window k _ a hk).1
  by_cases hg : 2 ≤ g.cellCount
  · exact g.cellAt_succ_ne hg q hcell.symm
  · omega

theorem Current.of_frame (h : Current g m' q) (henq : m.enqueuePos ≤ m'.enqueuePos)
    (hseq : m'.sequence (g.cellAt q) = m.sequence (g.cellAt q)) : Current g m q := by
  refine ⟨hseq ▸ h.1, ?_⟩
  rcases h.2 with hg | hhead
  · exact .inl hg
  · exact .inr (le_trans henq hhead)

/-- What a settling access finds in its cell's length. -/
def FilledFor (g : Geometry) (m : Shared) (p : Nat) : Option Nat → Prop
  | none => m.payloadLen (g.cellAt p) = kSkipLen
  | some len => m.payloadLen (g.cellAt p) = len % 2 ^ 32 ∧ len ≤ g.slotCapacity

theorem contentsOf_settle {len : Option Nat} (h : FilledFor g m p len) :
    ContentsOf g (m.write g (.settle p len)) p := by
  cases len with
  | none => exact .skipped (update_self ..) h
  | some len => exact .committed (update_self ..) h.1 h.2 rfl

theorem settle_frame (g : Geometry) (m : Shared) (p : Nat) (len : Option Nat) :
    let m' := m.write g (.settle p len)
    m'.payloadLen = m.payloadLen ∧ m'.slab = m.slab ∧ m'.enqueuePos = m.enqueuePos ∧
      m'.sequence = update m.sequence (g.cellAt p) (p + 1) ∧ ∀ q, q ≠ p → m'.fate q = m.fate q := by
  cases len <;> exact ⟨rfl, rfl, rfl, rfl, fun q hq => update_of_ne hq _ _⟩

theorem contents_effect (hcells : CellInv g m stages) (heffect : Effect g m (stages k) w stage)
    (hfilled : ∀ p len, w = .settle p len → FilledFor g m p len)
    (h : ∀ q, Current g m q → ContentsOf g m q) (hq : Current g (m.write g w) q) :
    ContentsOf g (m.write g w) q := by
  generalize hstage : stages k = old at heffect
  cases heffect with
  | quiet | again | grant => exact h q hq
  | win =>
    have hold : Current g m q := hq.of_frame (Nat.le_succ _) rfl
    exact (h q hold).congr rfl rfl rfl
  | announce =>
    rename_i p
    obtain ⟨hlt, hlap⟩ := hcells.window k p _ hstage
    have hne : g.cellAt q ≠ g.cellAt p := by
      intro hcell
      -- the marker of `p` in `q`'s cell would be the value of the position before
      have hseq : update m.sequence (g.cellAt p) p (g.cellAt q) = q + 1 := hq.1
      rw [hcell, update_self] at hseq
      subst hseq
      by_cases hg : 2 ≤ g.cellCount
      · exact g.cellAt_succ_ne hg q hcell.symm
      rcases hq.2 with hg' | hhead
      · exact hg hg'
      · have : m.enqueuePos ≤ q + g.cellCount := hhead
        omega
    have hold : Current g m q := hq.of_frame le_rfl (update_of_ne hne _ _)
    exact (h q hold).congr rfl rfl rfl
  | length hne =>
    have hold : Current g m q := hq
    exact (h q hold).congr rfl (update_of_ne (hold.unmarked hcells hstage hne) _ _) rfl
  | settle hne =>
    rename_i p a len
    obtain ⟨hlen, hslab, henq, hseq, hfate⟩ := settle_frame g m p len
    by_cases hqp : q = p
    · subst hqp
      exact contentsOf_settle (hfilled q len rfl)
    have hcell : g.cellAt q ≠ g.cellAt p := by
      intro hcell
      have hfinal := hq.1
      rw [hseq, hcell, update_self] at hfinal
      omega
    have hold : Current g m q := by
      apply hq.of_frame (le_of_eq henq.symm)
      rw [hseq, update_of_ne hcell]
    exact (h q hold).congr (hfate q hqp) (by rw [hlen]) (by rw [hslab])

/-! ## What a producer knows of its own cell -/

/-- The length a producer has written, or is about to. -/
def Filled (g : Geometry) (m : Shared) : ClaimPc → Prop
  | .stampSeq pos _ => FilledFor g m pos none
  | .commitLen _ len => len ≤ g.slotCapacity
  | .commitSeq pos len => FilledFor g m pos (some len)
  | _ => True

theorem filled_claimStep (g : Geometry) (m : Shared) (spurious : Bool) (pc : ClaimPc)
    (h : Filled g m pc) :
    Filled g (m.write g (claimStep g m spurious pc).2) (claimStep g m spurious pc).1 := by
  have hcame := claimStep_cameFrom g m spurious pc
  generalize (claimStep g m spurious pc).1 = pc' at hcame
  cases pc' with
  | stampSeq pos mode =>
    obtain rfl := hcame
    exact update_self ..
  | commitLen pos len => exact hcame.elim
  | commitSeq pos len =>
    obtain rfl := hcame
    exact ⟨update_self .., h⟩
  | _ => trivial

theorem filled_of_settle {spurious : Bool} {len : Option Nat}
    (h : (claimStep g m spurious pc).2 = .settle p len) (hfilled : Filled g m pc) :
    FilledFor g m p len := by
  rcases claimStep_settle h with ⟨mode, rfl, rfl⟩ | ⟨n, rfl, rfl⟩
  · exact hfilled
  · exact hfilled

theorem Filled.congr (h : Filled g m pc)
    (hlen : ∀ p a, pc.stage = some (p, a) →
      m'.payloadLen (g.cellAt p) = m.payloadLen (g.cellAt p)) : Filled g m' pc := by
  cases pc with
  | stampSeq pos mode => exact (hlen pos _ rfl).trans h
  | commitLen pos len => exact h
  | commitSeq pos len => exact ⟨(hlen pos _ rfl).trans h.1, h.2⟩
  | _ => trivial

/-! ## The invariant -/

structure ContentsInv (g : Geometry) (s : Sys P S) : Prop where
  contents : ∀ q, Current g s.mem q → ContentsOf g s.mem q
  filled : ∀ k, Filled g s.mem (s.claims k)
  unsettled : ∀ k p a, s.stages k = some (p, a) → s.mem.fate p = none
  ahead : ∀ p, s.mem.enqueuePos ≤ p → s.mem.fate p = none

section

variable (g : Geometry)

theorem contentsInv_initial : ContentsInv g ({} : Sys P S) where
  contents q hq := by
    have hseq : g.cellAt q = q + 1 := hq.1
    have := Nat.mod_le q g.cellCount
    rw [g.cellAt_eq_mod] at hseq
    omega
  filled _ := trivial
  unsettled _ _ _ _ := rfl
  ahead _ _ := rfl

theorem write_slab (m : Shared) (w : Write) : (m.write g w).slab = m.slab := by
  cases w with
  | settle pos len => cases len <;> rfl
  | _ => rfl

theorem consumerWrite_slab (m : Shared) (w : ConsumerWrite) :
    (m.consumerWrite g w).slab = m.slab := by
  cases w <;> rfl

theorem step_slab (s : Sys P S) (e : Event P S) (cell : Nat) :
    (s.step g e).mem.slab cell = s.mem.slab cell ∨
      ∃ k p, s.stages k = some (p, .held) ∧ cell = g.cellAt p := by
  have hmoves := s.step_moves g e
  generalize s.step g e = s' at hmoves
  cases hmoves with
  | producer => exact .inl (congrFun (write_slab g s.mem _) cell)
  | subscriber => exact .inl (congrFun (consumerWrite_slab g s.mem _) cell)
  | write hholding =>
    rename_i k pos i value
    by_cases hcell : cell = g.cellAt pos
    · exact .inr ⟨k, pos, by rw [Sys.stages, hholding]; rfl, hcell⟩
    · exact .inl (update_of_ne hcell _ _)
  | _ => exact .inl rfl

end

section

variable (h : Effect g m (stages k) w stage)
include h

theorem Effect.payloadLen {cell : Nat}
    (hother : ∀ p a, stages k = some (p, a) → a ≠ .pre → cell ≠ g.cellAt p) :
    (m.write g w).payloadLen cell = m.payloadLen cell := by
  generalize hstage : stages k = old at h
  cases h with
  | length hne => exact update_of_ne (hother _ _ hstage hne) _ _
  | settle _ =>
    rename_i p _ len _
    rw [(settle_frame g m p len).1]
  | _ => rfl

theorem Effect.fate (hother : ∀ a, stages k = some (q, a) → stage ≠ none) :
    (m.write g w).fate q = m.fate q := by
  generalize hstage : stages k = old at h
  cases h with
  | settle _ =>
    rename_i p a len _
    refine (settle_frame g m p len).2.2.2.2 q ?_
    rintro rfl
    exact hother a hstage rfl
  | _ => rfl

theorem Effect.stage_unsettled {a : Stage} (hstage : stage = some (p, a)) :
    (∃ b, stages k = some (p, b)) ∨ p = m.enqueuePos := by
  subst hstage
  generalize hold : stages k = old at h
  cases h with
  | quiet | again | announce | grant _ | length _ => exact .inl ⟨_, rfl⟩
  | win => exact .inr rfl

end

theorem ContentsInv.claim (h : ContentsInv g s) (hcells : CellInv g s.mem s.stages) (k : Fin P)
    (spurious : Bool) : ContentsInv g (s.step g (.claim k spurious)) := by
  have heffect := claim_effect (g := g) s k spurious
  have hmem : (s.step g (.claim k spurious)).mem =
      s.mem.write g (claimStep g s.mem spurious (s.claims k)).2 := rfl
  generalize hw : (claimStep g s.mem spurious (s.claims k)).2 = w at heffect hmem
  generalize hstage : (claimStep g s.mem spurious (s.claims k)).1.stage = stage at heffect
  refine ⟨?_, ?_, ?_, ?_⟩
  · rw [hmem]
    intro q hq
    refine contents_effect hcells heffect ?_ h.contents hq
    intro p len hsettle
    exact filled_of_settle (hw.trans hsettle) (h.filled k)
  · intro k'
    by_cases hk : k' = k
    · subst hk
      rw [claims_claim_self, hmem, ← hw]
      exact filled_claimStep g s.mem spurious _ (h.filled k')
    rw [claims_claim_of_ne hk, hmem]
    apply (h.filled k').congr
    intro p a hp
    apply heffect.payloadLen
    intro p' a' hp' _ hcell
    exact hk (hcells.one_claim hp hp' hcell).1
  · intro k' p a hp
    rw [stages_claim, hstage] at hp
    rw [hmem]
    rcases update_stage_cases hp with ⟨rfl, hnext⟩ | ⟨hk, hp⟩
    · -- the claim itself is not settled: its fate is as it was
      rw [heffect.fate (fun _ _ hnone => by rw [hnone] at hnext; cases hnext)]
      rcases heffect.stage_unsettled hnext with ⟨b, hb⟩ | rfl
      · exact h.unsettled k' p b hb
      · exact h.ahead _ le_rfl
    · rw [heffect.fate (fun b hb _ => hk (hcells.unique k' k p a b hp hb))]
      exact h.unsettled k' p a hp
  · intro p hp
    rw [hmem] at hp ⊢
    have hold : s.mem.enqueuePos ≤ p := le_trans (write_enqueuePos_le g s.mem w) hp
    rw [heffect.fate (fun b hb _ => ?_)]
    · exact h.ahead p hold
    · have := (hcells.window k p b hb).1
      omega

/-- **Every event keeps the contents' invariant** where the cells' holds. -/
theorem ContentsInv.step (h : ContentsInv g s) (hcells : CellInv g s.mem s.stages)
    (e : Event P S) : ContentsInv g (s.step g e) := by
  rcases e.claim_cases with he | ⟨k, spurious, rfl⟩
  · have hframe := step_frame (g := g) (s := s) he
    refine ⟨?_, ?_, ?_, ?_⟩
    · intro q hq
      have hold : Current g s.mem q := hq.of_frame hframe.enqueuePos.ge (by rw [hframe.sequence])
      refine (h.contents q hold).congr (by rw [hframe.fate]) (by rw [hframe.payloadLen]) ?_
      rcases step_slab g s e (g.cellAt q) with heq | ⟨k, p, hk, hcell⟩
      · exact heq
      · exact absurd hcell (hold.unmarked hcells hk (by decide))
    · intro k
      have hsame : Filled g (s.step g e).mem (s.claims k) :=
        (h.filled k).congr (fun _ _ _ => by rw [hframe.payloadLen])
      have hcall := step_callBegins (g := g) (s := s) he k
      generalize s.claims k = pc, (s.step g e).claims k = pc' at hcall hsame
      cases hcall with
      | none => exact hsame
      | claim =>
        unfold enter
        split <;> [split; skip] <;> trivial
      | commit hlen => exact hlen
    · intro k p a hp
      rw [stages_step he] at hp
      rw [hframe.fate]
      exact h.unsettled k p a hp
    · intro p hp
      rw [hframe.enqueuePos] at hp
      rw [hframe.fate]
      exact h.ahead p hp
  · exact h.claim hcells k spurious

/-- How a position was settled is final. -/
theorem ContentsInv.fate_final (h : ContentsInv g s) (e : Event P S) {fate : Fate}
    (hp : s.mem.fate p = some fate) : (s.step g e).mem.fate p = some fate := by
  rcases e.claim_cases with he | ⟨k, spurious, rfl⟩
  · rw [(step_frame he).fate, hp]
  show (s.mem.write g _).fate p = _
  rw [(claim_effect s k spurious).fate (fun b hb _ => ?_)]
  · exact hp
  · rw [h.unsettled k p b hb] at hp
    cases hp

/-! ## What is known of the committed lengths -/

theorem fate_write {len : Nat} {bytes : Bytes}
    (h : (m.write g w).fate p = some (.committed len bytes)) :
    m.fate p = some (.committed len bytes) ∨ w = .settle p (some len) := by
  cases w with
  | settle q n =>
    by_cases hq : p = q
    · subst hq
      cases n with
      | none =>
        rw [show (m.write g (.settle p none)).fate p = some .skipped from
          update_self ..] at h
        cases h
      | some n =>
        rw [show (m.write g (.settle p (some n))).fate p = some (.committed n _) from
          update_self ..] at h
        obtain ⟨rfl, -⟩ := Fate.committed.inj (Option.some.inj h)
        exact .inr rfl
    · rw [(settle_frame g m q n).2.2.2.2 p hq] at h
      exact .inl h
  | _ => exact .inl h

/-- The length of a commit under way. -/
def ClaimPc.committing : ClaimPc → Option Nat
  | .commitLen _ len | .commitSeq _ len => some len
  | _ => none

/-- Every length committed, or about to be, is one the callers keep to. -/
structure LengthsMeet (φ : Nat → Prop) (s : Sys P S) : Prop where
  fates : ∀ p len bytes, s.mem.fate p = some (.committed len bytes) → φ len
  commits : ∀ k len, (s.claims k).committing = some len → φ len

theorem lengthsMeet_initial (φ : Nat → Prop) : LengthsMeet φ ({} : Sys P S) where
  fates _ _ _ h := nomatch h
  commits _ _ h := nomatch h

theorem committing_enter (g : Geometry) (pos : Nat) (policy : Policy) :
    (enter g pos policy).committing = none := by
  cases policy with
  | reliable =>
    simp only [enter]
    split <;> rfl
  | bestEffort skipped => rfl

theorem committing_claimStep {spurious : Bool} {len : Nat}
    (h : (claimStep g m spurious pc).1.committing = some len) : pc.committing = some len := by
  have hcame := claimStep_cameFrom g m spurious pc
  generalize (claimStep g m spurious pc).1 = pc' at hcame h
  cases pc' with
  | commitLen pos n => exact hcame.elim
  | commitSeq pos n =>
    rw [show pc = .commitLen pos n from hcame]
    exact h
  | _ => cases h

variable {φ : Nat → Prop}

theorem LengthsMeet.step (h : LengthsMeet φ s) (hok : ∀ k len, e = .beginCommit k len → φ len) :
    LengthsMeet φ (s.step g e) := by
  rcases e.claim_cases with he | ⟨k, spurious, rfl⟩
  · constructor
    · intro p len bytes hp
      rw [(step_frame he).fate] at hp
      exact h.fates p len bytes hp
    · intro k len hk
      have hold := h.commits k len
      have hcall := step_callBegins (g := g) (s := s) he k
      generalize s.claims k = pc, (s.step g e).claims k = pc' at hcall hold hk
      cases hcall with
      | none => exact hold hk
      | claim =>
        rw [committing_enter] at hk
        cases hk
      | commit _ =>
        obtain rfl := Option.some.inj hk
        exact hok k _ rfl
  constructor
  · intro p len bytes hp
    rcases fate_write hp with hold | hsettle
    · exact h.fates p len bytes hold
    rcases claimStep_settle hsettle with ⟨_, _, hnone⟩ | ⟨n, hpc, hlen⟩
    · cases hnone
    · refine h.commits k len ?_
      rw [hpc, hlen]
      rfl
  · intro k' len hk'
    by_cases hk : k' = k
    · subst hk
      rw [claims_claim_self] at hk'
      exact h.commits k' len (committing_claimStep hk')
    · rw [claims_claim_of_ne hk] at hk'
      exact h.commits k' len hk'

end Plexus.Shm
