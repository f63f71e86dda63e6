/-
# Plexus.Shm.TakeIntegrity — a `take` shows what was committed for its position.

The reader's half of the argument follows one `take` access by access (`Looking`): the length it
read belongs to its cursor's position as long as the cell's sequence has not moved, and the recheck
is made after the pin, so a pin that is kept lies on a settled cell. From there the pin keeps every
producer out, and the view shows the committed bytes until it is dropped (`TakeInv`).

The argument needs the next position's claiming marker to be in another cell. In a ring of one, which
the large best-effort geometry yields for a single consumer, the marker of `p + 1` is the final value of
`p`: the recheck passes on a cell that is being overwritten (`take_torn_in_ring_of_one`).
-/
import Plexus.Shm.SlotContents
import Plexus.Shm.SlotOwnership

namespace Plexus.Shm

open Lib List

variable {P S : Nat} {g : Geometry} {m m' : Shared} {s : Sys P S} {e : Event P S}
  {stages : Fin P → Option (Nat × Stage)} {sub sub' : Subscriber}

/-! ## One subscriber -/

/-- What a running `take` knows of the cell under its cursor. -/
def Looking (g : Geometry) (m : Shared) (sub : Subscriber) : Prop :=
  match sub.pc with
  | .loadLength _ | .fetchSub _ _ => sub.cursor + 1 ≤ m.sequence (g.cellAt sub.cursor)
  | .fetchAdd _ len | .recheck _ len =>
    sub.cursor + 1 ≤ m.sequence (g.cellAt sub.cursor) ∧
      (m.sequence (g.cellAt sub.cursor) = sub.cursor + 1 →
        m.payloadLen (g.cellAt sub.cursor) ≠ kSkipLen ∧
          len = min (m.payloadLen (g.cellAt sub.cursor)) g.slotCapacity)
  | _ => True

structure SubInv (g : Geometry) (m : Shared) (sub : Subscriber) : Prop where
  cursor_le : sub.cursor ≤ m.enqueuePos
  looking : Looking g m sub
  increasing : sub.taken.Pairwise (· < ·)
  below : ∀ p ∈ sub.taken, p < sub.cursor

section

variable (h : SubInv g m sub)
include h

theorem SubInv.mono (henq : m.enqueuePos ≤ m'.enqueuePos)
    (hseq : ∀ cell, m.sequence cell ≤ m'.sequence cell)
    (hlen : ∀ q, m.sequence (g.cellAt q) = q + 1 → m'.sequence (g.cellAt q) = q + 1 →
      m'.payloadLen (g.cellAt q) = m.payloadLen (g.cellAt q)) : SubInv g m' sub := by
  refine ⟨le_trans h.cursor_le henq, ?_, h.increasing, h.below⟩
  obtain ⟨pc, spinBudget, index, cursor, tail, taken⟩ := sub
  have hmono := hseq (g.cellAt cursor)
  -- a length that was read for a sequence that has not moved since
  have hread : ∀ len, cursor + 1 ≤ m.sequence (g.cellAt cursor) ∧
      (m.sequence (g.cellAt cursor) = cursor + 1 → m.payloadLen (g.cellAt cursor) ≠ kSkipLen ∧
        len = min (m.payloadLen (g.cellAt cursor)) g.slotCapacity) →
      cursor + 1 ≤ m'.sequence (g.cellAt cursor) ∧
      (m'.sequence (g.cellAt cursor) = cursor + 1 → m'.payloadLen (g.cellAt cursor) ≠ kSkipLen ∧
        len = min (m'.payloadLen (g.cellAt cursor)) g.slotCapacity) := by
    intro len ⟨hle, hread⟩
    refine ⟨le_trans hle hmono, ?_⟩
    intro hnow
    have hthen : m.sequence (g.cellAt cursor) = cursor + 1 := by omega
    rw [hlen cursor hthen hnow]
    exact hread hthen
  have hlook := h.looking
  cases pc with
  | loadLength spun | fetchSub spun len => exact le_trans hlook hmono
  | fetchAdd spun len | recheck spun len => exact hread len hlook
  | _ => trivial

theorem SubInv.idle (hcursor : sub'.cursor = sub.cursor) (htaken : sub'.taken = sub.taken)
    (hlook : Looking g m sub') : SubInv g m sub' where
  cursor_le := hcursor ▸ h.cursor_le
  looking := hlook
  increasing := htaken ▸ h.increasing
  below := by
    rw [hcursor, htaken]
    exact h.below

theorem SubInv.advance (hcells : CellInv g m stages)
    (hseq : sub.cursor + 1 ≤ m.sequence (g.cellAt sub.cursor)) (spun : Nat) :
    SubInv g m (sub.advance spun) where
  cursor_le := hcells.lt_head hseq
  looking := trivial
  increasing := h.increasing
  below p hp := Nat.lt_succ_of_lt (h.below p hp)

theorem SubInv.step (hcells : CellInv g m stages) (spurious : Bool) (j : Nat) :
    SubInv g m (sub.step g m spurious j).1 := by
  have hlook := h.looking
  obtain ⟨pc, spinBudget, index, cursor, tail, taken⟩ := sub
  cases pc with
  | absent | unregistered | ready => exact h
  | tryActive i =>
    simp only [Subscriber.step]
    split
    · refine h.idle rfl rfl ?_
      unfold Looking
      rcases tryFrom_cases g (i + 1) with hnext | hnext <;> simp only [hnext]
    · exact h.idle rfl rfl trivial
  | storeIdle | publishTail | retireIdle | retireActive => exact h.idle rfl rfl trivial
  | loadHigh =>
    simp only [Subscriber.step, Subscriber.raise]
    split <;> exact h.idle rfl rfl trivial
  | raiseHigh hw =>
    simp only [Subscriber.step, Subscriber.raise]
    split
    · exact h.idle rfl rfl trivial
    · split <;> exact h.idle rfl rfl trivial
  | loadTail => exact ⟨le_rfl, trivial, List.Pairwise.nil, forall_mem_nil _⟩
  | loadSequence spun =>
    simp only [Subscriber.step]
    split
    · split <;> exact h.idle rfl rfl trivial
    split
    · exact h.idle rfl rfl trivial
    split
    · exact h.advance hcells (by dsimp only; omega) spun
    · refine h.idle rfl rfl ?_
      show cursor + 1 ≤ m.sequence (g.cellAt cursor)
      omega
  | loadLagTail spun =>
    exact ⟨le_rfl, trivial, h.increasing, fun p hp => lt_of_lt_of_le (h.below p hp) h.cursor_le⟩
  | loadLength spun =>
    simp only [Subscriber.step]
    split
    · exact h.advance hcells hlook spun
    · rename_i hskip
      exact h.idle rfl rfl ⟨hlook, fun _ => ⟨hskip, rfl⟩⟩
  | fetchAdd spun len => exact h.idle rfl rfl hlook
  | recheck spun len =>
    simp only [Subscriber.step]
    split
    · refine ⟨hcells.lt_head hlook.1, trivial, ?_, ?_⟩
      · refine pairwise_append.mpr ⟨h.increasing, pairwise_singleton _ _, ?_⟩
        intro p hp q hq
        rw [mem_singleton.mp hq]
        exact h.below p hp
      · intro p hp
        rcases mem_append.mp hp with hp | hp
        · exact Nat.lt_succ_of_lt (h.below p hp)
        · rw [mem_singleton.mp hp]
          exact Nat.lt_succ_self _
    · exact h.idle rfl rfl hlook.1
  | fetchSub spun len => exact h.advance hcells hlook spun
  | publish spun settled => cases settled <;> exact h.idle rfl rfl trivial

theorem SubInv.begins (hbegins : SubBegins g sub sub') : SubInv g m sub' := by
  cases hbegins with
  | none => exact h
  | subscribe spinBudget hpc =>
    refine ⟨Nat.zero_le _, ?_, List.Pairwise.nil, forall_mem_nil _⟩
    unfold Looking
    rcases tryFrom_cases g 0 with hnext | hnext <;> simp only [hnext]
  | take hpc | destroy hpc | forget hpc => exact h.idle rfl rfl trivial

end

/-! ## Views -/

/-- The bytes a view shows. -/
def span (g : Geometry) (m : Shared) (v : Pin) : Bytes :=
  (range v.length).map (m.slab (g.cellAt v.position))

/-- A view shows what was committed for its position, at its length. -/
def ViewOf (g : Geometry) (m : Shared) (v : Pin) : Prop :=
  m.fate v.position = some (.committed v.length (span g m v))

/-- A live pin is an old one, one of the same view, or the one that a recheck just kept. -/
theorem step_live {v : Pin} (hv : v ∈ (s.step g e).mem.pins) (hlive : v.holder = none) :
    v ∈ s.mem.pins ∨ ∃ j spun len, (s.subs j).pc = .recheck spun len ∧
      s.mem.sequence (g.cellAt (s.subs j).cursor) = (s.subs j).cursor + 1 ∧
      v = { position := (s.subs j).cursor, length := len, holder := none } := by
  have hmoves := s.step_moves g e
  generalize s.step g e = s' at hmoves hv
  cases hmoves with
  | producer =>
    change v ∈ (s.mem.write g _).pins at hv
    rw [(write_pins g s.mem _).1] at hv
    exact .inl hv
  | subscriber =>
    rename_i j spurious
    have hwrote := step_wroteAt g s.mem spurious j (s.subs j)
    change v ∈ (s.mem.consumerWrite g ((s.subs j).step g s.mem spurious j).2).pins at hv
    generalize ((s.subs j).step g s.mem spurious j).2 = w at hv hwrote
    cases w with
    | pin u =>
      rcases mem_cons.mp hv with rfl | hv
      · obtain ⟨spun, len, -, rfl⟩ := hwrote
        cases hlive
      · exact .inl hv
    | adopt u =>
      rcases mem_cons.mp hv with rfl | hv
      · obtain ⟨spun, len, hpc, rfl, hseq⟩ := hwrote
        exact .inr ⟨j, spun, len, hpc, hseq, rfl⟩
      · exact .inl (mem_of_mem_erase hv)
    | unpin u => exact .inl (mem_of_mem_erase hv)
    | keep | active i value | position i value | highWater value => exact .inl hv
  | share hu _ =>
    rcases mem_cons.mp hv with rfl | hv
    · exact .inl hu
    · exact .inl hv
  | release _ _ => exact .inl (mem_of_mem_erase hv)
  | _ => exact .inl hv

/-- A view keeps showing its bytes: the one who could write there would hold the cell. -/
theorem ViewOf.step {v : Pin} (h : ViewOf g s.mem v) (hcontents : ContentsInv g s)
    (hunshared : ∀ k p, s.stages k = some (p, .held) → g.cellAt v.position ≠ g.cellAt p) :
    ViewOf g (s.step g e).mem v := by
  have hslab : (s.step g e).mem.slab (g.cellAt v.position) = s.mem.slab (g.cellAt v.position) := by
    rcases step_slab g s e (g.cellAt v.position) with heq | ⟨k, p, hk, hcell⟩
    · exact heq
    · exact absurd hcell (hunshared k p hk)
  have hspan : span g (s.step g e).mem v = span g s.mem v := by rw [span, span, hslab]
  rw [ViewOf, hspan]
  exact hcontents.fate_final e h

/-! ## Every event -/

structure TakeInv (g : Geometry) (s : Sys P S) : Prop where
  subs : ∀ j, SubInv g s.mem (s.subs j)
  views : ∀ v ∈ s.mem.pins, v.holder = none → ViewOf g s.mem v
  short : LengthsMeet (· < 2 ^ 32) s

theorem takeInv_initial (g : Geometry) : TakeInv g ({} : Sys P S) where
  subs _ := ⟨le_rfl, trivial, List.Pairwise.nil, fun _ hp => nomatch hp⟩
  views _ hv := nomatch hv
  short := lengthsMeet_initial _

/-- The event commits no more than the 32-bit length can say. -/
def lenFits : Event P S → Bool
  | .beginCommit _ len => len < 2 ^ 32
  | _ => true

theorem ProducerInv.payloadLen_current (h : ProducerInv g s) (e : Event P S) {q : Nat}
    (hq : Current g s.mem q) :
    (s.step g e).mem.payloadLen (g.cellAt q) = s.mem.payloadLen (g.cellAt q) := by
  rcases e.claim_cases with he | ⟨k, spurious, rfl⟩
  · rw [(step_frame he).payloadLen]
  · apply (claim_effect s k spurious).payloadLen
    intro p a hp ha
    exact hq.unmarked h.cells hp ha

theorem TakeInv.step_subs (h : TakeInv g s) (hproducers : ProducerInv g s) (hg : 2 ≤ g.cellCount)
    (e : Event P S) (j : Fin S) : SubInv g (s.step g e).mem ((s.step g e).subs j) := by
  -- the subscriber's own move is made in the region as it was
  have hmove : SubInv g s.mem ((s.step g e).subs j) := by
    rcases e.subscriber_cases with he | ⟨j', spurious, rfl⟩
    · exact (h.subs j).begins (step_subBegins he j)
    by_cases hj : j = j'
    · subst hj
      rw [subs_subscriber_self]
      exact (h.subs j).step hproducers.cells spurious j
    · rw [subs_subscriber_of_ne hj]
      exact h.subs j
  exact hmove.mono (step_enqueuePos_le g s e) (hproducers.sequence_mono e)
    (fun q hq _ => hproducers.payloadLen_current e ⟨hq, .inl hg⟩)

/-- The pin that a recheck keeps is a view of a committed position. -/
theorem TakeInv.kept (h : TakeInv g s) (hcontents : ContentsInv g s) (hg : 2 ≤ g.cellCount)
    {j : Fin S} {spun len : Nat} (hpc : (s.subs j).pc = .recheck spun len)
    (hseq : s.mem.sequence (g.cellAt (s.subs j).cursor) = (s.subs j).cursor + 1) :
    ViewOf g s.mem { position := (s.subs j).cursor, length := len, holder := none } := by
  have hlook := (h.subs j).looking
  simp only [Looking, hpc] at hlook
  obtain ⟨hskip, hlen⟩ := hlook.2 hseq
  cases hcontents.contents _ ⟨hseq, .inl hg⟩ with
  | skipped _ hstamp => exact absurd hstamp hskip
  | committed hfate hstored hcap hbytes =>
    have hshort := h.short.fates _ _ _ hfate
    rw [hstored, Nat.mod_eq_of_lt hshort, Nat.min_eq_left hcap] at hlen
    rw [ViewOf, span, hlen, ← hbytes]
    exact hfate

/-- **Every event keeps the views true.** -/
theorem TakeInv.step (h : TakeInv g s) (hring : RingInv g s) (hcontents : ContentsInv g s)
    (hg : 2 ≤ g.cellCount) (hok : lenFits e) : TakeInv g (s.step g e) where
  subs := h.step_subs hring.producers hg e
  views v hv hlive := by
    rcases step_live hv hlive with hold | ⟨j, spun, len, hpc, hseq, rfl⟩
    · apply (h.views v hold hlive).step hcontents
      intro k p hk
      exact hring.pins.unshared k p hk v hold hlive
    apply (h.kept hcontents hg hpc hseq).step hcontents
    intro k p hk
    have hcurrent : Current g s.mem (s.subs j).cursor := ⟨hseq, .inl hg⟩
    exact hcurrent.unmarked hring.producers.cells hk (by decide)
  short := by
    apply h.short.step
    rintro k len rfl
    exact of_decide_eq_true hok

/-! ## Best-effort producers -/

def Event.bestEffort : Event P S → Bool
  | .beginClaim _ .reliable _ => false
  | _ => true

/-- Who is on the reliable path came by it. -/
theorem CameFrom.gated {pc pc' : ClaimPc} (h : CameFrom g m pc pc') (hgated : pc'.gated) :
    pc.gated := by
  cases pc' with
  | loadHighWater pos | loadActive pos scan i | loadPosition pos scan i => exact h
  | exchange pos policy =>
    cases policy with
    | reliable => exact h
    | bestEffort skipped => cases hgated
  | _ => cases hgated

theorem ungated_step (h : ∀ k, (s.claims k).gated = false) (he : e.bestEffort) (k : Fin P) :
    ((s.step g e).claims k).gated = false := by
  have hk := h k
  rcases e.claim_cases with hclaim | ⟨k', spurious, rfl⟩
  · have hcall := step_callBegins (g := g) (s := s) hclaim k
    generalize s.claims k = pc, (s.step g e).claims k = pc' at hcall hk
    cases hcall with
    | none => exact hk
    | claim =>
      rename_i rel size
      cases rel with
      | reliable => cases he
      | bestEffort => rfl
    | commit _ => rfl
  · by_cases hkk : k = k'
    · subst hkk
      rw [claims_claim_self, ← Bool.not_eq_true]
      intro hgated
      have hbefore := (claimStep_cameFrom g s.mem spurious (s.claims k)).gated hgated
      rw [hk] at hbefore
      cases hbefore
    · rw [claims_claim_of_ne hkk]
      exact hk

theorem overSettled_of_ungated (h : ∀ k, (s.claims k).gated = false) (e : Event P S) :
    overSettled g s e := by
  cases e with
  | claim k spurious =>
    unfold overSettled
    dsimp only
    split
    · rename_i pos hpc
      have := h k
      rw [hpc] at this
      cases this
    · rfl
  | _ => rfl

/-- The condition on an event of best-effort traffic. -/
def countedAndShort (g : Geometry) (s : Sys P S) (e : Event P S) : Bool :=
  pinRoom g s e && lenFits e

structure BestEffortInv (g : Geometry) (s : Sys P S) : Prop where
  ungated : ∀ k, (s.claims k).gated = false
  ring : RingInv g s
  contents : ContentsInv g s
  takes : TakeInv g s

theorem bestEffortInv_initial (g : Geometry) : BestEffortInv g ({} : Sys P S) where
  ungated _ := rfl
  ring := ringInv_initial g
  contents := contentsInv_initial g
  takes := takeInv_initial g

theorem BestEffortInv.step (h : BestEffortInv g s) (hg : 2 ≤ g.cellCount)
    (he : e.bestEffort) (hok : countedAndShort g s e) :
    BestEffortInv g (s.step g e) := by
  rw [countedAndShort, Bool.and_eq_true] at hok
  have hsettled : settledAndCounted g s e := by
    rw [settledAndCounted, overSettled_of_ungated h.ungated e, hok.1]
    rfl
  exact ⟨ungated_step h.ungated he, h.ring.step hg hsettled,
    h.contents.step h.ring.producers.cells e, h.takes.step h.ring h.contents hg hok.2⟩

/-- A run keeps the invariant, and the fates of the positions. -/
theorem bestEffortInv_run (hg : 2 ≤ g.cellCount) {events : List (Event P S)}
    (hbest : ∀ e ∈ events, e.bestEffort = true) (hs : BestEffortInv g s)
    (hok : Guarded (Sys.step g) (fun s e => countedAndShort g s e = true) s events) :
    BestEffortInv g (s.run g events) ∧ ∀ p fate, s.mem.fate p = some fate →
      (s.run g events).mem.fate p = some fate :=
  ((guarded_of_mem hbest s).and hok).invariant
    (fun t => BestEffortInv g t ∧ ∀ p fate, s.mem.fate p = some fate → t.mem.fate p = some fate)
    (fun _ e h hok => ⟨h.1.step hg hok.1 hok.2, fun p fate hp =>
      h.1.contents.fate_final e (h.2 p fate hp)⟩) ⟨hs, fun _ _ hp => hp⟩

/-! ## Every `take` -/

/-- What the takes of a run are owed after `events`. -/
structure TakeIntegrity (g : Geometry) (events : List (Event P S)) : Prop where
  /-- the event that returns a `take` ok at `p` leaves a view of `p` -/
  returned : ∀ before e, events = before ++ [e] → ∀ j p,
    ((Sys.run g {} events).subs j).taken = ((Sys.run g {} before).subs j).taken ++ [p] →
    ∃ v ∈ (Sys.run g {} events).mem.pins, v.holder = none ∧ v.position = p
  /-- every view alive, copies included, shows what was committed for its position -/
  shown : ∀ v ∈ (Sys.run g {} events).mem.pins, v.holder = none →
    ViewOf g (Sys.run g {} events).mem v
  /-- which never changes -/
  final : ∀ before after, events = before ++ after → ∀ p fate,
    (Sys.run g {} before).mem.fate p = some fate → (Sys.run g {} events).mem.fate p = some fate
  increasing : ∀ j, ((Sys.run g {} events).subs j).taken.Pairwise (· < ·)

theorem grown_ne (p : Nat) (taken : List Nat) : taken ≠ taken ++ [p] ∧ [] ≠ taken ++ [p] :=
  ⟨fun h => cons_ne_nil p [] (self_eq_append_right.mp h),
    fun h => cons_ne_nil p [] (append_eq_nil_iff.mp h.symm).2⟩

/-- A subscriber's list of deliveries grows where its recheck keeps the pin. -/
theorem step_taken {spurious : Bool} {j p : Nat}
    (h : (sub.step g m spurious j).1.taken = sub.taken ++ [p]) :
    ∃ len, (sub.step g m spurious j).2 = .adopt (sub.pinAt j len) ∧ p = sub.cursor := by
  obtain ⟨hsame, hempty⟩ := grown_ne p sub.taken
  obtain ⟨pc, spinBudget, index, cursor, tail, taken⟩ := sub
  cases pc with
  | recheck spun len =>
    simp only [Subscriber.step] at h ⊢
    split at h
    · rename_i hseq
      refine ⟨len, by rw [if_pos hseq], ?_⟩
      exact (singleton_inj.mp (append_cancel_left h)).symm
    · exact absurd h hsame
  | loadTail => exact absurd h hempty
  | tryActive i | raiseHigh hw | loadLength spun =>
    simp only [Subscriber.step] at h
    split at h <;> exact absurd h hsame
  | loadSequence spun =>
    simp only [Subscriber.step] at h
    split at h
    · exact absurd h hsame
    · split at h
      · exact absurd h hsame
      · split at h <;> exact absurd h hsame
  | _ => exact absurd h hsame

theorem step_returned {j : Fin S} {p : Nat}
    (h : ((s.step g e).subs j).taken = (s.subs j).taken ++ [p]) :
    ∃ v ∈ (s.step g e).mem.pins, v.holder = none ∧ v.position = p := by
  obtain ⟨hsame, hempty⟩ := grown_ne p (s.subs j).taken
  rcases e.subscriber_cases with he | ⟨j', spurious, rfl⟩
  · have hbegins := step_subBegins (g := g) (s := s) he j
    generalize s.subs j = sub, (s.step g e).subs j = sub' at hbegins h hsame hempty
    cases hbegins with
    | subscribe spinBudget _ => exact absurd h hempty
    | _ => exact absurd h hsame
  by_cases hj : j = j'
  · subst hj
    rw [subs_subscriber_self] at h
    obtain ⟨len, hadopt, rfl⟩ := step_taken h
    refine ⟨{ (s.subs j).pinAt j len with holder := none }, ?_, rfl, rfl⟩
    show _ ∈ (s.mem.consumerWrite g ((s.subs j).step g s.mem spurious j).2).pins
    rw [hadopt]
    exact mem_cons_self
  · rw [subs_subscriber_of_ne hj] at h
    exact absurd h hsame

/-- **No torn and no misattributed read**: with best-effort producers on a ring of two cells or more,
commits of less than `2 ^ 32` bytes and counts that do not come round. -/
theorem takeIntegrity_of_two_cells (g : Geometry) (hg : 2 ≤ g.cellCount)
    (events : List (Event P S)) (hbest : ∀ e ∈ events, e.bestEffort = true)
    (hok : Guarded (Sys.step g) (fun s e => countedAndShort g s e = true) {} events) :
    TakeIntegrity g events := by
  have hinv := (bestEffortInv_run hg hbest (bestEffortInv_initial g) hok).1
  refine ⟨?_, hinv.takes.views, ?_, fun j => (hinv.takes.subs j).increasing⟩
  · rintro before e rfl j p htaken
    rw [Sys.run, List.foldl_append] at htaken ⊢
    exact step_returned htaken
  rintro before after rfl p fate hp
  obtain ⟨hbefore, hafter⟩ := guarded_append.mp hok
  obtain ⟨hb, ha⟩ := List.forall_mem_append.mp hbest
  have hmid := (bestEffortInv_run hg hb (bestEffortInv_initial g) hbefore).1
  have := (bestEffortInv_run hg ha hmid hafter).2 p fate hp
  rwa [Sys.run, Sys.run, ← List.foldl_append] at this

/-- A claim of `n` accesses by the one producer, the byte it writes, and its commit. -/
def publishByte (n : Nat) (value : UInt8) : List (Event 1 1) :=
  [.beginClaim only .bestEffort 1] ++ accesses n only ++
    [.writeByte only 0 value, .beginCommit only 1] ++ accesses 2 only

/-- Position `0` is taken and kept while the ring of two is filled past it: the claim of `2` donates
the position. -/
def takenAndKept : List (Event 1 1) :=
  [.beginSubscribe only 0] ++ takerAccesses 6 only ++ publishByte 4 7 ++ [.beginTake only] ++
    takerAccesses 5 only ++ [.share { position := 0, length := 1, holder := none }] ++
    publishByte 4 8 ++ publishByte 11 9

theorem takeIntegrity_takenAndKept :
    Guarded (Sys.step twoCells) (fun s e => countedAndShort twoCells s e = true) {} takenAndKept ∧
      (Sys.run twoCells {} takenAndKept).mem.enqueuePos = 4 ∧
      ((Sys.run twoCells {} takenAndKept).subs 0).taken = [0] ∧
      TakeIntegrity twoCells takenAndKept := by
  have hok : Guarded (Sys.step twoCells) (fun s e => countedAndShort twoCells s e = true) {}
      takenAndKept := by
    decide +kernel
  exact ⟨hok, by decide +kernel, by decide +kernel,
    takeIntegrity_of_two_cells twoCells (by decide) takenAndKept (by decide) hok⟩

/-- What the large best-effort geometry yields for one consumer. -/
def ringOfOne : Geometry where
  cellCount := 1
  slotCapacity := 131080
  consumerCapacity := 1
  pow2 := rfl
  slot_ne_zero := by decide
  consumers_ne_zero := Nat.one_ne_zero
  consumers_le := one_le_kMaxConsumers

/-- Position `0`'s length is read; the producer claims position `1` before the pin. -/
def tornTake : List (Event 1 1) :=
  [.beginSubscribe only 0] ++ takerAccesses 6 only ++ publishByte 4 7 ++ [.beginTake only] ++
    takerAccesses 2 only ++ [.beginClaim only .bestEffort 1] ++ accesses 4 only ++
    takerAccesses 3 only ++ [.writeByte only 0 9, .beginCommit only 1] ++ accesses 2 only

/-- The widest slots: `2 ^ 32` bytes. -/
def wideRing : Geometry where
  cellCount := 2
  slotCapacity := 2 ^ 32
  consumerCapacity := 1
  pow2 := isPowerOfTwo_two
  slot_ne_zero := by decide
  consumers_ne_zero := Nat.one_ne_zero
  consumers_le := one_le_kMaxConsumers

/-- A full slot is committed and taken. -/
def longCommit : List (Event 1 1) :=
  [.beginSubscribe only 0] ++ takerAccesses 6 only ++ [.beginClaim only .bestEffort 1] ++
    accesses 4 only ++ [.beginCommit only (2 ^ 32)] ++ accesses 2 only ++ [.beginTake only] ++
    takerAccesses 5 only

/-- The length committed for a position. -/
def committedLen : Option Fate → Nat
  | some (.committed len _) => len
  | _ => 0

/-- In a ring of one the recheck passes on a cell being overwritten; and a full slot is taken at
length zero. -/
theorem take_torn_in_ring_of_one :
    (create (ringGeometryFor (some 131073) .bestEffortLarge 1).1
        (ringGeometryFor (some 131073) .bestEffortLarge 1).2 1 = some ringOfOne ∧
      Guarded (Sys.step ringOfOne) (fun s e => countedAndShort ringOfOne s e = true) {} tornTake ∧
      (Sys.run ringOfOne {} tornTake).mem.fate 0 = some (.committed 1 [7]) ∧
      span ringOfOne (Sys.run ringOfOne {} tornTake).mem
        { position := 0, length := 1, holder := none } = [9] ∧
      ¬TakeIntegrity ringOfOne tornTake) ∧
    (create (ringGeometryFor (some 0xFFFFFFFF) .reliablePreserving 1).1
        (ringGeometryFor (some 0xFFFFFFFF) .reliablePreserving 1).2 1 = some wideRing ∧
      ¬TakeIntegrity wideRing longCommit) := by
  have hfate : (Sys.run ringOfOne {} tornTake).mem.fate 0 = some (.committed 1 [7]) := by
    decide +kernel
  have hspan : span ringOfOne (Sys.run ringOfOne {} tornTake).mem
      { position := 0, length := 1, holder := none } = [9] := by
    decide +kernel
  refine ⟨⟨rfl, by decide +kernel, hfate, hspan, ?_⟩, rfl, ?_⟩
  · intro h
    have hview := h.shown { position := 0, length := 1, holder := none } (by decide +kernel) rfl
    rw [ViewOf, hspan] at hview
    exact absurd (hfate.symm.trans hview) (by decide)
  intro h
  have hview := h.shown { position := 0, length := 0, holder := none } (by decide +kernel) rfl
  have hlen : committedLen ((Sys.run wideRing {} longCommit).mem.fate 0) = 2 ^ 32 := by
    decide +kernel
  rw [hview] at hlen
  exact absurd hlen (by decide)

end Plexus.Shm
