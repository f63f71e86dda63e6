/-
# Plexus.Shm.ReliableDelivery — no gaps for a reliable subscriber.

A subscriber that is never lapped reads every position in turn (`Following`), and the gate keeps it
from being lapped: the positions it has taken are the committed ones between the tail it read and
its cursor, in order, and a `take` with a committed message ahead returns it
(`lossless_of_joinSeen`).

A producer that laps the ring between a constructor's reading of the tail and its publication
overwrites messages the new subscriber was to see (`join_window_loses`); `joinSeen` excludes it.
-/
import Mathlib.Data.List.Range
import Plexus.Shm.ReliableGate
import Plexus.Shm.SlotContents

namespace Plexus.Shm

open Lib Subscriber List

variable {P S : Nat} {g : Geometry} {m m' : Shared} {s : Sys P S} {e : Event P S}
  {sub : Subscriber} {stages : Fin P → Option (Nat × Stage)}

/-! ## A subscriber that is not lapped -/

def isCommitted : Option Fate → Bool
  | some (.committed _ _) => true
  | _ => false

/-- The committed positions from the tail on, as far as the cursor. -/
def owed (m : Shared) (sub : Subscriber) : List Nat :=
  (range' sub.tail (sub.cursor - sub.tail)).filter (fun p => isCommitted (m.fate p))

/-- What a running `take` knows of its cursor's cell when nobody laps it. -/
def Facing (g : Geometry) (m : Shared) (sub : Subscriber) : Prop :=
  match sub.pc with
  | .loadLength _ => m.sequence (g.cellAt sub.cursor) = sub.cursor + 1
  | .fetchAdd _ _ | .recheck _ _ =>
    m.sequence (g.cellAt sub.cursor) = sub.cursor + 1 ∧ isCommitted (m.fate sub.cursor) = true
  | .loadLagTail _ | .fetchSub _ _ => False
  | _ => True

structure Following (g : Geometry) (m : Shared) (sub : Subscriber) : Prop where
  tail_le : sub.tail ≤ sub.cursor
  cursor_le : sub.cursor ≤ m.enqueuePos
  lap : m.enqueuePos ≤ sub.cursor + g.cellCount
  passed : ∀ p, sub.tail ≤ p → p < sub.cursor → m.fate p ≠ none
  taken : sub.taken = owed m sub
  facing : Facing g m sub

/-- The cell of a position that is less than a lap behind the head has not moved past it. -/
theorem CellInv.seq_le_succ (h : CellInv g m stages) {q : Nat}
    (hlap : m.enqueuePos ≤ q + g.cellCount) : m.sequence (g.cellAt q) ≤ q + 1 := by
  by_contra hgt
  have hlt := h.lt_head (q := q) (by omega)
  obtain ⟨k, stage, hk⟩ | hdone := h.settled q hlt hlap
  · have := h.seq_le hk
    omega
  · omega

theorem owed_congr (hfate : ∀ p, sub.tail ≤ p → p < sub.cursor → m'.fate p = m.fate p) :
    owed m' sub = owed m sub := by
  apply filter_congr
  intro p hp
  rw [mem_range'_1] at hp
  rw [hfate p hp.1 (by omega)]

theorem owed_advance (htail : sub.tail ≤ sub.cursor) (sub' : Subscriber)
    (hcursor : sub'.cursor = sub.cursor + 1) (hsame : sub'.tail = sub.tail) :
    owed m sub' = owed m sub ++ if isCommitted (m.fate sub.cursor) then [sub.cursor] else [] := by
  have hcount : sub.cursor + 1 - sub.tail = sub.cursor - sub.tail + 1 := by omega
  have hlast : sub.tail + (sub.cursor - sub.tail) = sub.cursor := by omega
  rw [owed, owed, hcursor, hsame, hcount, range'_1_concat, filter_append, hlast,
    filter_cons, filter_nil]

theorem Following.mono (h : Following g m sub) (hcells : CellInv g m' stages)
    (henq : m.enqueuePos ≤ m'.enqueuePos) (hlap : m'.enqueuePos ≤ sub.cursor + g.cellCount)
    (hseq : ∀ cell, m.sequence cell ≤ m'.sequence cell)
    (hfate : ∀ p fate, m.fate p = some fate → m'.fate p = some fate) : Following g m' sub := by
  have hsettled : ∀ p, m.fate p ≠ none → m'.fate p = m.fate p := by
    intro p hp
    obtain ⟨fate, hf⟩ := Option.ne_none_iff_exists'.mp hp
    rw [hf, hfate p fate hf]
  have hstay : m.sequence (g.cellAt sub.cursor) = sub.cursor + 1 →
      m'.sequence (g.cellAt sub.cursor) = sub.cursor + 1 := by
    intro hnow
    have := hseq (g.cellAt sub.cursor)
    have := hcells.seq_le_succ hlap
    omega
  have hface := h.facing
  refine ⟨h.tail_le, le_trans h.cursor_le henq, hlap, ?_, ?_, ?_⟩
  · intro p hp hlt
    rw [hsettled p (h.passed p hp hlt)]
    exact h.passed p hp hlt
  · rw [h.taken]
    exact (owed_congr fun p hp hlt => hsettled p (h.passed p hp hlt)).symm
  unfold Facing at hface ⊢
  have hcommitted : isCommitted (m.fate sub.cursor) = true →
      isCommitted (m'.fate sub.cursor) := by
    intro hc
    rw [hsettled _ (fun hnone => by rw [hnone] at hc; cases hc)]
    exact hc
  cases hpc : sub.pc with
  | loadLength spun =>
    simp only [hpc] at hface ⊢
    exact hstay hface
  | fetchAdd spun len | recheck spun len =>
    simp only [hpc] at hface ⊢
    exact ⟨hstay hface.1, hcommitted hface.2⟩
  | loadLagTail spun | fetchSub spun len =>
    simp only [hpc] at hface
  | _ => trivial

theorem Following.idle (h : Following g m sub) {sub' : Subscriber}
    (hcursor : sub'.cursor = sub.cursor) (htail : sub'.tail = sub.tail)
    (htaken : sub'.taken = sub.taken) (hface : Facing g m sub') : Following g m sub' := by
  refine ⟨?_, ?_, ?_, ?_, ?_, hface⟩
  · rw [hcursor, htail]
    exact h.tail_le
  · rw [hcursor]
    exact h.cursor_le
  · rw [hcursor]
    exact h.lap
  · rw [hcursor, htail]
    exact h.passed
  · rw [htaken, h.taken, owed, owed, hcursor, htail]

theorem Following.advance (h : Following g m sub) (hcells : CellInv g m stages)
    (hseq : m.sequence (g.cellAt sub.cursor) = sub.cursor + 1)
    (hsettled : m.fate sub.cursor ≠ none) {sub' : Subscriber}
    (hcursor : sub'.cursor = sub.cursor + 1) (htail : sub'.tail = sub.tail)
    (htaken : sub'.taken =
      sub.taken ++ if isCommitted (m.fate sub.cursor) then [sub.cursor] else [])
    (hface : Facing g m sub') : Following g m sub' := by
  have hlt := hcells.lt_head hseq.ge
  have hlap := h.lap
  have htl := h.tail_le
  refine ⟨by omega, by omega, by omega, ?_, ?_, hface⟩
  · intro p hp hpc
    rw [htail] at hp
    by_cases hnew : p = sub.cursor
    · rw [hnew]
      exact hsettled
    · exact h.passed p hp (by omega)
  · rw [htaken, h.taken]
    exact (owed_advance h.tail_le sub' hcursor htail).symm

/-- A cell that holds its cursor's position: a message or a tombstone, told apart by the length. -/
theorem contents_told {q : Nat} (hcontents : ContentsOf g m q)
    (hread : ∀ p len bytes, m.fate p = some (.committed len bytes) → len % 2 ^ 32 ≠ kSkipLen) :
    m.fate q ≠ none ∧ (m.payloadLen (g.cellAt q) = kSkipLen ↔ isCommitted (m.fate q) = false) := by
  cases hcontents with
  | committed hfate hlen _ _ =>
    refine ⟨by rw [hfate]; exact Option.some_ne_none _, ?_⟩
    rw [hfate, hlen]
    exact ⟨fun heq => absurd heq (hread _ _ _ hfate), fun hno => by cases hno⟩
  | skipped hfate hlen =>
    refine ⟨by rw [hfate]; exact Option.some_ne_none _, ?_⟩
    rw [hfate, hlen]
    exact ⟨fun _ => rfl, fun _ => rfl⟩

variable {spun : Nat} {j : Fin S}

section

variable (h : Following g m sub) (hcells : CellInv g m stages)
  (hcontents : ∀ q, Current g m q → ContentsOf g m q)
  (hread : ∀ p len bytes, m.fate p = some (.committed len bytes) → len % 2 ^ 32 ≠ kSkipLen)
include h hcells hcontents hread

theorem Following.loadLength (hpc : sub.pc = .loadLength spun) (spurious : Bool) (j : Nat) :
    Following g m (sub.step g m spurious j).1 := by
  have hseq : m.sequence (g.cellAt sub.cursor) = sub.cursor + 1 := by
    have hface := h.facing
    simp only [Facing, hpc] at hface
    exact hface
  obtain ⟨hsettled, htold⟩ := contents_told (hcontents sub.cursor ⟨hseq, .inr h.lap⟩) hread
  simp only [Subscriber.step, hpc]
  split
  · rename_i hskip
    refine h.advance hcells hseq hsettled rfl rfl ?_ trivial
    rw [htold.mp hskip]
    exact (append_nil _).symm
  rename_i hskip
  refine h.idle rfl rfl rfl ⟨hseq, ?_⟩
  show isCommitted (m.fate sub.cursor) = true
  rw [← Bool.not_eq_false]
  exact fun hno => hskip (htold.mpr hno)

theorem Following.step (hjoined : sub.pc.joined) (spurious : Bool) (j : Nat) :
    Following g m (sub.step g m spurious j).1 := by
  have hface := h.facing
  obtain ⟨pc, spinBudget, index, cursor, tail, taken⟩ := sub
  cases pc with
  | absent | unregistered | tryActive | storeIdle | loadHigh | raiseHigh | loadTail | retireIdle
  | retireActive => cases hjoined
  | ready | publishTail => exact h.idle rfl rfl rfl trivial
  | loadSequence spun =>
    have hle := hcells.seq_le_succ h.lap
    have hpos := g.cellCount_pos
    simp only [Subscriber.step] at hle ⊢
    split
    · split <;> exact h.idle rfl rfl rfl trivial
    -- neither lapped nor ahead: the sequence is the cursor's own
    rw [if_neg (by omega), if_neg (by omega)]
    refine h.idle rfl rfl rfl ?_
    show m.sequence (g.cellAt cursor) = cursor + 1
    omega
  | loadLength spun => exact h.loadLength hcells hcontents hread rfl spurious j
  | fetchAdd spun len => exact h.idle rfl rfl rfl hface
  | recheck spun len =>
    simp only [Subscriber.step]
    rw [if_pos hface.1]
    refine h.advance hcells hface.1 ?_ rfl rfl ?_ trivial
    · intro hnone
      have hcommitted := hface.2
      rw [hnone] at hcommitted
      cases hcommitted
    · rw [hface.2]
      rfl
  | loadLagTail spun | fetchSub spun len => exact hface.elim
  | publish spun settled => cases settled <;> exact h.idle rfl rfl rfl trivial

end

/-! ## Every event -/

structure ReliableInv (g : Geometry) (s : Sys P S) : Prop where
  producers : ProducerInv g s
  contents : ContentsInv g s
  lengths : LengthsMeet (fun len => len % 2 ^ 32 ≠ kSkipLen) s
  seats : SeatsInv s
  gate : ∀ k, GateAt g s (s.claims k)
  following : ∀ j, (s.subs j).pc.joined = true → Following g s.mem (s.subs j)

theorem reliableInv_initial (g : Geometry) : ReliableInv g ({} : Sys P S) where
  producers := producerInv_initial g
  contents := contentsInv_initial g
  lengths := lengthsMeet_initial _
  seats := seatsInv_initial
  gate _ := trivial
  following _ h := nomatch h

/-- The event commits no message whose length reads as a tombstone. -/
def lenReadable : Event P S → Bool
  | .beginCommit _ len => len % 2 ^ 32 ≠ kSkipLen
  | _ => true

/-- The condition on an event, in the state it happens in. -/
def gatedAndReadable (g : Geometry) (s : Sys P S) (e : Event P S) : Bool :=
  overSettled g s e && joinSeen g s e && lenReadable e

theorem write_enqueuePos (g : Geometry) (m : Shared) {w : Write} (hw : w ≠ .win) :
    (m.write g w).enqueuePos = m.enqueuePos := by
  cases w with
  | win => exact absurd rfl hw
  | settle pos len => cases len <;> rfl
  | _ => rfl

/-- No claim laps a subscriber: the position is won after the claim has passed them all. -/
theorem ReliableInv.lap_claim (h : ReliableInv g s) (k : Fin P) (spurious : Bool)
    (hj : (s.subs j).pc.joined) :
    (s.step g (.claim k spurious)).mem.enqueuePos ≤ (s.subs j).cursor + g.cellCount := by
  show (s.mem.write g (claimStep g s.mem spurious (s.claims k)).2).enqueuePos ≤ _
  by_cases hwin : (claimStep g s.mem spurious (s.claims k)).2 = .win
  · obtain ⟨policy, hpc, -⟩ := claimStep_win hwin
    have hgate := h.gate k
    rw [hpc] at hgate
    rw [hwin]
    cases policy with
    | reliable => exact hgate.2 j hj
    | bestEffort skipped => exact hgate.elim
  · rw [write_enqueuePos g s.mem hwin]
    exact (h.following j hj).lap

theorem ReliableInv.move (h : ReliableInv g s) (hj : ((s.step g e).subs j).pc.joined) :
    Following g s.mem ((s.step g e).subs j) := by
  rcases e.subscriber_cases with he | ⟨j', spurious, rfl⟩
  · have hbegins := step_subBegins (g := g) (s := s) he j
    have hfollow := h.following j (hbegins.joined hj).1
    generalize s.subs j = sub, (s.step g e).subs j = sub' at hbegins hj hfollow
    cases hbegins with
    | none => exact hfollow
    | subscribe spinBudget _ =>
      rcases tryFrom_cases g 0 with hnext | hnext <;> simp only [hnext] at hj <;> cases hj
    | take _ => exact hfollow.idle rfl rfl rfl trivial
    | destroy _ => cases hj
    | forget _ => cases hj
  by_cases hjj : j = j'
  · subst hjj
    rw [subs_subscriber_self] at hj ⊢
    rcases joined_or_loadTail hj with hjoined | htail
    · exact (h.following j hjoined).step h.producers.cells h.contents.contents h.lengths.fates
        hjoined spurious j
    -- it joins at the head, with nothing to take yet
    simp only [Subscriber.step, htail]
    refine ⟨Nat.le_refl _, Nat.le_refl _, Nat.le_add_right _ _, ?_, ?_, trivial⟩
    · intro p hp hlt
      exact absurd hp (Nat.not_le_of_lt hlt)
    · simp only [owed, Nat.sub_self, range'_zero, filter_nil]
  · rw [subs_subscriber_of_ne hjj] at hj ⊢
    exact h.following j hj

/-- **Every event keeps every subscriber following.** -/
theorem ReliableInv.step (h : ReliableInv g s) (he : e.reliable)
    (hok : gatedAndReadable g s e) : ReliableInv g (s.step g e) := by
  simp only [gatedAndReadable, Bool.and_eq_true] at hok
  obtain ⟨⟨hsettled, hjoin⟩, hlen⟩ := hok
  have hproducers := h.producers.step hsettled
  refine ⟨hproducers, h.contents.step h.producers.cells e, ?_, ?_, ?_, ?_⟩
  · apply h.lengths.step
    rintro k len rfl
    exact of_decide_eq_true hlen
  · exact h.seats.step (fun j hj => (h.following j hj).cursor_le) e
  · exact gateAt_step h.gate h.seats he hjoin
  intro j hj
  have hmove := h.move hj
  apply hmove.mono hproducers.cells (step_enqueuePos_le g s e) ?_ (h.producers.sequence_mono e)
    (fun p fate hp => h.contents.fate_final e hp)
  rcases e.claim_cases with hclaim | ⟨k, spurious, rfl⟩
  · rw [(step_frame hclaim).enqueuePos]
    exact hmove.lap
  · exact h.lap_claim k spurious hj

theorem reliableInv_run {events : List (Event P S)} (hreliable : ∀ e ∈ events, e.reliable = true)
    (hs : ReliableInv g s)
    (hok : Guarded (Sys.step g) (fun s e => gatedAndReadable g s e = true) s events) :
    ReliableInv g (s.run g events) :=
  ((guarded_of_mem hreliable s).and hok).invariant (ReliableInv g)
    (fun _ _ h hok => h.step hok.1 hok.2) hs

/-! ## A `take` with a message ahead -/

/-- Subscriber `j` moves alone. -/
def alone (g : Geometry) (s : Sys P S) (j : Fin S) (n : Nat) : Sys P S :=
  s.run g (takerAccesses n j)

theorem alone_add (g : Geometry) (s : Sys P S) (j : Fin S) (n n' : Nat) :
    alone g s j (n + n') = alone g (alone g s j n) j n' := by
  rw [alone, alone, alone, Sys.run, Sys.run, Sys.run, ← foldl_append, takerAccesses, replicate_add]
  rfl

/-- What a subscriber moving alone keeps: everything but itself. -/
theorem alone_inv (h : ReliableInv g s) (j : Fin S) (n : Nat) :
    ReliableInv g (alone g s j n) ∧ (alone g s j n).mem.fate = s.mem.fate := by
  induction n generalizing s with
  | zero => exact ⟨h, rfl⟩
  | succ n ih =>
    have hstep : ReliableInv g (s.step g (.subscriber j false)) := h.step rfl rfl
    obtain ⟨hinv, hfate⟩ := ih hstep
    refine ⟨hinv, hfate.trans ?_⟩
    exact (step_frame rfl).fate

/-- A settled position under a joined cursor shows in its cell. -/
theorem ReliableInv.settled_cell (h : ReliableInv g s) (hj : (s.subs j).pc.joined)
    (hsettled : s.mem.fate (s.subs j).cursor ≠ none) :
    s.mem.sequence (g.cellAt (s.subs j).cursor) = (s.subs j).cursor + 1 ∧
      (s.mem.payloadLen (g.cellAt (s.subs j).cursor) = kSkipLen ↔
        isCommitted (s.mem.fate (s.subs j).cursor) = false) := by
  have hfollow := h.following j hj
  have hlt : (s.subs j).cursor < s.mem.enqueuePos := by
    by_contra hge
    exact hsettled (h.contents.ahead _ (by omega))
  have hseq : s.mem.sequence (g.cellAt (s.subs j).cursor) = (s.subs j).cursor + 1 := by
    obtain ⟨k, stage, hk⟩ | hdone := h.producers.cells.settled _ hlt hfollow.lap
    · exact absurd (h.contents.unsettled k _ stage hk) hsettled
    · exact hdone
  exact ⟨hseq, (contents_told (h.contents.contents _ ⟨hseq, .inr hfollow.lap⟩) h.lengths.fates).2⟩

theorem step_alone {sub : Subscriber} (sub' : Subscriber) (hsub : s.subs j = sub)
    (hnext : (sub.step g s.mem false j).1 = sub') :
    (s.step g (.subscriber j false)).subs j = sub' ∧
      ProducerFrame s.mem (s.step g (.subscriber j false)).mem := by
  rw [subs_subscriber_self, hsub]
  exact ⟨hnext, step_frame rfl⟩

theorem alone_looks {sub : Subscriber} (hsub : s.subs j = sub) (hpc : sub.pc = .loadSequence spun)
    (hseq : s.mem.sequence (g.cellAt sub.cursor) = sub.cursor + 1) :
    (s.step g (.subscriber j false)).subs j = { sub with pc := .loadLength spun } ∧
      ProducerFrame s.mem (s.step g (.subscriber j false)).mem := by
  have hpos := g.cellCount_pos
  apply step_alone _ hsub
  simp only [Subscriber.step, hpc, hseq]
  rw [if_neg (by omega), if_neg (by omega), if_neg (by omega)]

theorem alone_skips {sub : Subscriber} (hsub : s.subs j = sub) (hpc : sub.pc = .loadSequence spun)
    (hseq : s.mem.sequence (g.cellAt sub.cursor) = sub.cursor + 1)
    (hlen : s.mem.payloadLen (g.cellAt sub.cursor) = kSkipLen) :
    (alone g s j 3).subs j = { sub with cursor := sub.cursor + 1 } := by
  obtain ⟨h₁, hframe⟩ := alone_looks hsub hpc hseq
  have h₂ := step_alone (g := g) (sub.advance spun) h₁ (by
    simp only [Subscriber.step, advance, hframe.payloadLen, hlen, if_true])
  have h₃ := step_alone (g := g) { sub with cursor := sub.cursor + 1 } h₂.1 (by
    simp only [Subscriber.step, advance, hpc, Bool.false_eq_true, if_false])
  exact h₃.1

theorem alone_takes {sub : Subscriber} (hsub : s.subs j = sub) (hpc : sub.pc = .loadSequence spun)
    (hseq : s.mem.sequence (g.cellAt sub.cursor) = sub.cursor + 1)
    (hlen : s.mem.payloadLen (g.cellAt sub.cursor) ≠ kSkipLen) :
    (alone g s j 5).subs j =
      { sub with pc := .ready, cursor := sub.cursor + 1, taken := sub.taken ++ [sub.cursor] } := by
  obtain ⟨h₁, hf₁⟩ := alone_looks hsub hpc hseq
  obtain ⟨h₂, hf₂⟩ := step_alone (g := g)
    { sub with
      pc := .fetchAdd spun (min (s.mem.payloadLen (g.cellAt sub.cursor)) g.slotCapacity) } h₁ (by
    simp only [Subscriber.step, hf₁.payloadLen]
    rw [if_neg hlen])
  obtain ⟨h₃, hf₃⟩ := step_alone (g := g)
    { sub with
      pc := .recheck spun (min (s.mem.payloadLen (g.cellAt sub.cursor)) g.slotCapacity) } h₂ (by
    simp only [Subscriber.step])
  obtain ⟨h₄, -⟩ := step_alone (g := g)
    { sub with
      pc := .publish spun true, cursor := sub.cursor + 1, taken := sub.taken ++ [sub.cursor] } h₃ (by
    simp only [Subscriber.step, hf₃.sequence, hf₂.sequence, hf₁.sequence, hseq, if_true])
  obtain ⟨h₅, -⟩ := step_alone (g := g)
    { sub with
      pc := .ready, cursor := sub.cursor + 1, taken := sub.taken ++ [sub.cursor] } h₄ (by
    simp only [Subscriber.step, if_true])
  exact h₅

/-- A running `take` that has only tombstones before the next message returns that message. -/
theorem take_reaches {p : Nat} (d : Nat) (h : ReliableInv g s)
    (hpc : (s.subs j).pc = .loadSequence spun) (hp : p = (s.subs j).cursor + d)
    (hcommitted : isCommitted (s.mem.fate p))
    (hbetween : ∀ q, (s.subs j).cursor ≤ q → q < p → s.mem.fate q = some .skipped) :
    ∃ n, ((alone g s j n).subs j).pc = .ready ∧
      ((alone g s j n).subs j).taken = (s.subs j).taken ++ [p] := by
  have hjoined : (s.subs j).pc.joined := by
    rw [hpc]
    rfl
  induction d generalizing s with
  | zero =>
    obtain rfl := hp
    obtain ⟨hseq, htold⟩ := h.settled_cell hjoined
      (fun hnone => by rw [add_zero, hnone] at hcommitted; cases hcommitted)
    have htakes := alone_takes rfl hpc hseq (fun hskip => by
      rw [add_zero, htold.mp hskip] at hcommitted
      cases hcommitted)
    refine ⟨5, ?_, ?_⟩
    · rw [htakes]
    · rw [htakes]
      rfl
  | succ d ih =>
    have hskipped := hbetween (s.subs j).cursor le_rfl (by omega)
    obtain ⟨hseq, htold⟩ := h.settled_cell hjoined (by rw [hskipped]; exact Option.some_ne_none _)
    have hnext := alone_skips rfl hpc hseq (htold.mpr (by rw [hskipped]; rfl))
    obtain ⟨hinv, hfate⟩ := alone_inv h j 3
    obtain ⟨n, hready, htaken⟩ := ih hinv (by rw [hnext]; exact hpc)
      (by rw [hnext]; show p = (s.subs j).cursor + 1 + d; omega) (by rw [hfate]; exact hcommitted)
      (fun q hq hlt => by
        rw [hnext] at hq
        rw [hfate]
        exact hbetween q (Nat.le_of_succ_le hq) hlt)
      (by rw [hnext]; exact hjoined)
    refine ⟨3 + n, ?_, ?_⟩
    · rw [alone_add]
      exact hready
    · rw [alone_add, htaken, hnext]

/-! ## No gaps -/

/-- What a reliable subscriber is owed in the state `s`. -/
structure LosslessDelivery (g : Geometry) (s : Sys P S) : Prop where
  /-- it has taken the committed positions between its tail and its cursor, each once, in order -/
  taken : ∀ j, (s.subs j).pc.joined = true → (s.subs j).taken = owed s.mem (s.subs j)
  /-- and has passed no position that could still be committed -/
  passed : ∀ j, (s.subs j).pc.joined = true →
    ∀ p, (s.subs j).tail ≤ p → p < (s.subs j).cursor → s.mem.fate p ≠ none
  /-- its next `take` returns the next committed position, once all before are settled -/
  next : ∀ j p, (s.subs j).pc = .ready → (s.subs j).cursor ≤ p →
    isCommitted (s.mem.fate p) = true →
    (∀ q, (s.subs j).cursor ≤ q → q < p → s.mem.fate q = some .skipped) →
    ∃ n, ((alone g (s.step g (.beginTake j)) j n).subs j).pc = .ready ∧
      ((alone g (s.step g (.beginTake j)) j n).subs j).taken = (s.subs j).taken ++ [p]

theorem beginTake_ready (hpc : (s.subs j).pc = .ready) :
    (s.step g (.beginTake j)).subs j = { s.subs j with pc := .loadSequence 0 } ∧
      (s.step g (.beginTake j)).mem = s.mem := by
  simp only [Sys.step, hpc, if_true]
  exact ⟨Function.update_self .., rfl⟩

/-- **Reliable delivery has no gaps** in every run of reliable producers in which no claim reads a
joining subscriber's slot too early, none wins over an unsettled occupant, and no committed length
reads as a tombstone. -/
theorem lossless_of_joinSeen (g : Geometry) (events : List (Event P S))
    (hreliable : ∀ e ∈ events, e.reliable = true)
    (hok : Guarded (Sys.step g) (fun s e => gatedAndReadable g s e = true) {} events) :
    LosslessDelivery g (Sys.run g {} events) := by
  have hinv := reliableInv_run hreliable (reliableInv_initial g) hok
  refine ⟨fun j hj => (hinv.following j hj).taken, fun j hj => (hinv.following j hj).passed, ?_⟩
  intro j p hpc hp hcommitted hbetween
  obtain ⟨hsub, hmem⟩ := beginTake_ready hpc
  have hbegin : ReliableInv g ((Sys.run g {} events).step g (.beginTake j)) := hinv.step rfl rfl
  obtain ⟨n, hready, htaken⟩ := take_reaches (p := p)
    (p - ((Sys.run g {} events).subs j).cursor) hbegin (by rw [hsub])
    (by rw [hsub]; show p = ((Sys.run g {} events).subs j).cursor + _; omega)
    (by rw [hmem]; exact hcommitted)
    (by rw [hsub, hmem]; exact hbetween)
  refine ⟨n, hready, ?_⟩
  rw [htaken, hsub]

/-- A reliable claim of `n` accesses by the one producer, and its commit. -/
def publishReliable (n : Nat) : List (Event 1 1) :=
  [.beginClaim only .reliable 1] ++ accesses n only ++ [.beginCommit only 1] ++ accesses 2 only

/-- One message is taken, the ring of two is filled again past it, the next is taken. -/
def gatedTraffic : List (Event 1 1) :=
  [.beginSubscribe only 0] ++ takerAccesses 6 only ++ publishReliable 6 ++ [.beginTake only] ++
    takerAccesses 5 only ++ publishReliable 6 ++ publishReliable 9 ++ [.beginTake only] ++
    takerAccesses 5 only

theorem lossless_gatedTraffic :
    Guarded (Sys.step twoCells) (fun s e => gatedAndReadable twoCells s e = true) {} gatedTraffic ∧
      (Sys.run twoCells {} gatedTraffic).mem.enqueuePos = 3 ∧
      ((Sys.run twoCells {} gatedTraffic).subs 0).taken = [0, 1] ∧
      LosslessDelivery twoCells (Sys.run twoCells {} gatedTraffic) := by
  have hok : Guarded (Sys.step twoCells) (fun s e => gatedAndReadable twoCells s e = true) {}
      gatedTraffic := by
    decide +kernel
  exact ⟨hok, by decide +kernel, by decide +kernel,
    lossless_of_joinSeen twoCells gatedTraffic (by decide) hok⟩

/-- The subscriber has read its tail, `0`, and not published it; three messages are committed; then
it publishes, and takes. -/
def joinWindow : List (Event 1 1) :=
  [.beginSubscribe only 0] ++ takerAccesses 5 only ++ publishReliable 6 ++ publishReliable 6 ++
    publishReliable 9 ++ takerAccesses 1 only ++ [.beginTake only] ++ takerAccesses 4 only

/-- The first `take` finds itself lapped and jumps past all three. -/
theorem join_window_loses :
    let s := Sys.run twoCells {} joinWindow
    (s.subs 0).pc = .ready ∧ (s.subs 0).tail = 0 ∧ (s.subs 0).cursor = 3 ∧ (s.subs 0).taken = [] ∧
      owed s.mem (s.subs 0) = [0, 1, 2] ∧ ¬LosslessDelivery twoCells s := by
  intro s
  have hpc : (s.subs 0).pc = .ready := by decide +kernel
  have htaken : (s.subs 0).taken = [] := by decide +kernel
  have howed : owed s.mem (s.subs 0) = [0, 1, 2] := by decide +kernel
  refine ⟨hpc, by decide +kernel, by decide +kernel, htaken, howed, ?_⟩
  intro h
  have hall : (s.subs 0).taken = owed s.mem (s.subs 0) := h.taken 0 (by rw [hpc]; rfl)
  rw [htaken, howed] at hall
  cases hall

end Plexus.Shm
