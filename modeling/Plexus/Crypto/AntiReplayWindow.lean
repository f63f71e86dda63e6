/-
# Plexus.Crypto.AntiReplayWindow — the sliding-window replay filter (`crypto/anti_replay_window.h`).

The highest accepted sequence, and one bit for each of the `width` sequences at and below it.
`Tracks`: the bitmap is the set of the sequences accepted so far, as far back as the window reaches.
The probe (`wouldAccept`) is then a membership test, and the commit (`checkAndSet`) an insertion.
Over whole runs the verdicts are those of the set (`verdicts_of_set`).
-/
import Plexus.Lib.Bitmap
import Plexus.Lib.Run
import Plexus.Lib.SeenWindow

namespace Plexus.Crypto

open Lib

def kAntiReplayWindowBits : Nat := 4096

inductive ReplayVerdict where
  | accept
  | rejectReplay
  | rejectOld
  deriving DecidableEq

def kWordBits : Nat := 64
def kWords (width : Nat) : Nat := (width + kWordBits - 1) / kWordBits

structure AntiReplayWindow (width : Nat) where
  bitmap : Bitmap kWordBits (kWords width) := Bitmap.clear
  highest : UInt64 := 0
  seenAny : Bool := false
  deriving DecidableEq

namespace AntiReplayWindow

variable {width : Nat} (win : AntiReplayWindow width)

/-- The verdict `checkAndSet` would return, without touching the window. -/
def wouldAccept (seq : UInt64) : ReplayVerdict :=
  if !win.seenAny then .accept
  else if win.highest < seq then .accept
  else if width ≤ (win.highest - seq).toNat then .rejectOld
  else if win.bitmap.testBit (win.highest - seq).toNat then .rejectReplay
  else .accept

def maskAboveWidth (m : Bitmap kWordBits (kWords width)) : Bitmap kWordBits (kWords width) :=
  if width % kWordBits ≠ 0 then m.maskTop (width % kWordBits) else m

/-- Move every bit up by `distance`: the window's reference point has moved on by that much. -/
def slide (distance : UInt64) : AntiReplayWindow width :=
  if width ≤ distance.toNat then { win with bitmap := Bitmap.clear }
  else
    { win with
      bitmap := maskAboveWidth
        (win.bitmap.shiftLoop (distance.toNat / kWordBits) (distance.toNat % kWordBits)
          (kWords width)) }

def checkAndSet (seq : UInt64) : AntiReplayWindow width × ReplayVerdict :=
  if !win.seenAny then
    ({ bitmap := win.bitmap.setBit 0, highest := seq, seenAny := true }, .accept)
  else if win.highest < seq then
    let slid := win.slide (seq - win.highest)
    ({ slid with bitmap := slid.bitmap.setBit 0, highest := seq }, .accept)
  else if width ≤ (win.highest - seq).toNat then (win, .rejectOld)
  else if win.bitmap.testBit (win.highest - seq).toNat then (win, .rejectReplay)
  else ({ win with bitmap := win.bitmap.setBit (win.highest - seq).toNat }, .accept)

def reset (_ : AntiReplayWindow width) : AntiReplayWindow width := {}

/-! ## The bitmap, bit by bit -/

theorem le_kWords_mul (width : Nat) : width ≤ kWords width * kWordBits := by
  unfold kWords kWordBits
  omega

theorem bit_maskAboveWidth (m : Bitmap kWordBits (kWords width)) {b : Nat} (hb : b < width) :
    (maskAboveWidth m).bit b = m.bit b := by
  unfold maskAboveWidth
  split
  · -- a partial top word: the positions below `width` are the ones the mask keeps
    apply Bitmap.bit_maskTop (Nat.mod_lt width (by decide)) m
    unfold kWords kWordBits at *
    omega
  · rfl

theorem bit_slide (distance : UInt64) {b : Nat} (hb : b < width) :
    (win.slide distance).bitmap.bit b =
      (decide (distance.toNat ≤ b) && win.bitmap.bit (b - distance.toNat)) := by
  unfold slide
  split
  · have hlt : ¬ distance.toNat ≤ b := by omega
    simp [hlt]
  have hsum : distance.toNat / kWordBits * kWordBits + distance.toNat % kWordBits =
      distance.toNat := Nat.div_add_mod' _ _
  show (maskAboveWidth _).bit b = _
  rw [bit_maskAboveWidth _ hb, Bitmap.bit_shiftLoop (Nat.mod_lt _ (by decide)) _
    (lt_of_lt_of_le hb (le_kWords_mul width)), hsum]

/-! ## The set a window stands for -/

/-- `win` remembers exactly the accepted sequences `seen`, as far back as it reaches. -/
structure Tracks (win : AntiReplayWindow width) (seen : Set Nat) : Prop where
  unseen : win.seenAny = false → seen = ∅ ∧ ∀ b < width, win.bitmap.bit b = false
  highest_mem : win.seenAny = true → win.highest.toNat ∈ seen
  le_highest : win.seenAny = true → ∀ seq ∈ seen, seq ≤ win.highest.toNat
  bit_iff : win.seenAny = true → ∀ b < width, b ≤ win.highest.toNat →
    (win.bitmap.bit b = true ↔ win.highest.toNat - b ∈ seen)

theorem tracks_empty : Tracks ({} : AntiReplayWindow width) ∅ where
  unseen _ := ⟨rfl, fun b _ => Bitmap.bit_clear b⟩
  highest_mem h := nomatch h
  le_highest h := nomatch h
  bit_iff h := nomatch h

theorem Tracks.reflects {win : AntiReplayWindow width} {seen : Set Nat} (ht : win.Tracks seen)
    (hany : win.seenAny) :
    Reflects width (fun b => win.bitmap.bit b = true) win.highest.toNat seen :=
  ⟨ht.le_highest hany, ht.bit_iff hany⟩

theorem tracks_of_reflects {win : AntiReplayWindow width} {seen : Set Nat}
    (hany : win.seenAny) (hmem : win.highest.toNat ∈ seen)
    (h : Reflects width (fun b => win.bitmap.bit b = true) win.highest.toNat seen) :
    win.Tracks seen where
  unseen hunseen := absurd (hany.symm.trans hunseen) (by decide)
  highest_mem _ := hmem
  le_highest _ := h.le_highest
  bit_iff _ := h.bit_iff

/-- A sequence the window still reaches: above the highest, or fewer than `width` below it. -/
def Reaches (seq : UInt64) : Prop :=
  win.seenAny = true → win.highest.toNat < seq.toNat + width

/-- **The probe is a membership test.** Accepted are exactly the sequences within reach that have
not been accepted before. -/
theorem wouldAccept_eq_accept_iff {win : AntiReplayWindow width} {seen : Set Nat}
    (ht : win.Tracks seen) (seq : UInt64) :
    win.wouldAccept seq = .accept ↔ seq.toNat ∉ seen ∧ win.Reaches seq := by
  unfold wouldAccept Reaches
  cases hany : win.seenAny with
  | false =>
    rw [(ht.unseen hany).1]
    simp
  | true =>
    by_cases habove : win.highest < seq
    · have hlt : win.highest.toNat < seq.toNat := UInt64.lt_iff_toNat_lt.mp habove
      have hnew : seq.toNat ∉ seen := by
        intro h
        have hle := ht.le_highest hany _ h
        omega
      simp only [Bool.not_true, Bool.false_eq_true, if_false, if_pos habove, true_iff]
      exact ⟨hnew, fun _ => by omega⟩
    have hle : seq.toNat ≤ win.highest.toNat :=
      Nat.le_of_not_lt (fun h => habove (UInt64.lt_iff_toNat_lt.mpr h))
    have hback : (win.highest - seq).toNat = win.highest.toNat - seq.toNat :=
      UInt64.toNat_sub_of_le _ _ (UInt64.le_iff_toNat_le.mpr hle)
    simp only [Bool.not_true, Bool.false_eq_true, if_false, if_neg habove, hback, true_implies]
    by_cases hold : width ≤ win.highest.toNat - seq.toNat
    · simp only [if_pos hold, reduceCtorEq, false_iff]
      omega
    have hbit := ht.bit_iff hany (win.highest.toNat - seq.toNat) (by omega) (by omega)
    rw [Nat.sub_sub_self hle] at hbit
    rw [if_neg hold, Bitmap.testBit_eq_bit (by decide), ← hbit]
    have hreach : win.highest.toNat < seq.toNat + width := by omega
    cases win.bitmap.bit (win.highest.toNat - seq.toNat) <;> simp [hreach]

theorem checkAndSet_verdict (seq : UInt64) : (win.checkAndSet seq).2 = win.wouldAccept seq := by
  unfold checkAndSet wouldAccept
  split
  · rfl
  split
  · rfl
  · split
    · rfl
    · split <;> rfl

/-! ## Committing a sequence -/

section Commit

variable {win : AntiReplayWindow width} {seen : Set Nat} {seq : UInt64}

section

variable (ht : win.Tracks seen)
include ht

theorem Tracks.first (hany : win.seenAny = false) :
    Tracks { bitmap := win.bitmap.setBit 0, highest := seq, seenAny := true : AntiReplayWindow width }
      (insert seq.toNat seen) := by
  have hroom : width ≤ kWords width * kWordBits := le_kWords_mul width
  obtain ⟨hempty, hclear⟩ := ht.unseen hany
  subst hempty
  have hnone : Reflects width (fun b => win.bitmap.bit b = true) seq.toNat ∅ := by
    apply Reflects.empty
    intro b hb hbit
    rw [hclear b hb] at hbit
    cases hbit
  refine tracks_of_reflects rfl (Set.mem_insert _ _) (hnone.mark (Nat.le_refl _) fun b hb => ?_)
  rw [Bitmap.bit_setBit (by decide) _ (by omega), Bool.or_eq_true, decide_eq_true_eq, Nat.sub_self]

theorem Tracks.above (hany : win.seenAny = true) (habove : win.highest < seq) :
    Tracks { win.slide (seq - win.highest) with
        bitmap := (win.slide (seq - win.highest)).bitmap.setBit 0, highest := seq }
      (insert seq.toNat seen) := by
  have hroom : width ≤ kWords width * kWordBits := le_kWords_mul width
  have hlt : win.highest.toNat < seq.toNat := UInt64.lt_iff_toNat_lt.mp habove
  have hdist : (seq - win.highest).toNat = seq.toNat - win.highest.toNat :=
    UInt64.toNat_sub_of_le _ _ (UInt64.le_iff_toNat_le.mpr (by omega))
  have hseen : (win.slide (seq - win.highest)).seenAny := by
    unfold slide
    split <;> exact hany
  refine tracks_of_reflects hseen (Set.mem_insert _ _) ((ht.reflects hany).slide hlt fun b hb => ?_)
  rw [Bitmap.bit_setBit (by decide) _ (by omega), bit_slide _ _ hb, hdist]
  simp only [Bool.or_eq_true, Bool.and_eq_true, decide_eq_true_eq]

theorem Tracks.within (hany : win.seenAny) (hle : seq ≤ win.highest)
    (hnear : (win.highest - seq).toNat < width) :
    Tracks { win with bitmap := win.bitmap.setBit (win.highest - seq).toNat }
      (insert seq.toNat seen) := by
  have hroom : width ≤ kWords width * kWordBits := le_kWords_mul width
  have hle' : seq.toNat ≤ win.highest.toNat := UInt64.le_iff_toNat_le.mp hle
  have hback : (win.highest - seq).toNat = win.highest.toNat - seq.toNat :=
    UInt64.toNat_sub_of_le _ _ hle
  refine tracks_of_reflects hany (Set.mem_insert_of_mem _ (ht.highest_mem hany))
    ((ht.reflects hany).mark hle' fun b hb => ?_)
  rw [Bitmap.bit_setBit (by decide) _ (by omega), Bool.or_eq_true, decide_eq_true_eq, hback]

/-- **The commit is an insertion**, when the probe has accepted. -/
theorem Tracks.checkAndSet (hacc : win.wouldAccept seq = .accept) :
    (win.checkAndSet seq).1.Tracks (insert seq.toNat seen) := by
  unfold AntiReplayWindow.checkAndSet
  unfold wouldAccept at hacc
  by_cases hany : win.seenAny = true
  · rw [if_neg (by simp [hany])] at hacc ⊢
    by_cases habove : win.highest < seq
    · rw [if_pos habove]
      exact ht.above hany habove
    rw [if_neg habove] at hacc ⊢
    -- the two rejecting branches contradict the probe
    by_cases hold : width ≤ (win.highest - seq).toNat
    · rw [if_pos hold] at hacc
      exact nomatch hacc
    rw [if_neg hold] at hacc ⊢
    split at hacc
    · exact nomatch hacc
    · rename_i hbit
      rw [if_neg hbit]
      exact ht.within hany (UInt64.not_lt.mp habove) (Nat.lt_of_not_le hold)
  · rw [if_pos (by simp [hany])]
    exact ht.first (by simpa using hany)

end

theorem checkAndSet_fst_of_rejected (hrej : win.wouldAccept seq ≠ .accept) :
    (win.checkAndSet seq).1 = win := by
  unfold AntiReplayWindow.checkAndSet
  unfold wouldAccept at hrej
  by_cases hany : win.seenAny = true
  · rw [if_neg (by simp [hany])] at hrej ⊢
    by_cases habove : win.highest < seq
    · rw [if_pos habove] at hrej
      exact absurd rfl hrej
    rw [if_neg habove] at hrej ⊢
    by_cases hold : width ≤ (win.highest - seq).toNat
    · rw [if_pos hold]
    rw [if_neg hold] at hrej ⊢
    split
    · rfl
    · rename_i hbit
      rw [if_neg hbit] at hrej
      exact absurd rfl hrej
  · rw [if_pos (by simp [hany])] at hrej
    exact absurd rfl hrej

end Commit

theorem wouldAccept_eq_rejectOld_iff (seq : UInt64) :
    win.wouldAccept seq = .rejectOld ↔
      win.seenAny = true ∧ seq ≤ win.highest ∧ width ≤ win.highest.toNat - seq.toNat := by
  unfold wouldAccept
  cases hany : win.seenAny with
  | false => simp
  | true =>
    simp only [Bool.not_true, Bool.false_eq_true, if_false, true_and]
    by_cases habove : win.highest < seq
    · rw [if_pos habove]
      exact iff_of_false (by decide) fun h => UInt64.not_lt.mpr h.1 habove
    have hle : seq ≤ win.highest := UInt64.not_lt.mp habove
    rw [if_neg habove, UInt64.toNat_sub_of_le _ _ hle]
    by_cases hold : width ≤ win.highest.toNat - seq.toNat
    · rw [if_pos hold]
      exact ⟨fun _ => ⟨hle, hold⟩, fun _ => rfl⟩
    · rw [if_neg hold]
      split <;> exact iff_of_false (by decide) fun h => hold h.2

/-! ## Whole runs -/

inductive WindowCall where
  | checkAndSet (seq : UInt64)
  | wouldAccept (seq : UInt64)
  deriving DecidableEq

/-- A window, and the calls made on it with what they returned. -/
structure WindowRun (width : Nat) where
  window : AntiReplayWindow width
  verdicts : List (WindowCall × ReplayVerdict) := []

namespace WindowRun

variable (r : WindowRun width)

def step : WindowCall → WindowRun width
  | .checkAndSet seq =>
    let (window, verdict) := r.window.checkAndSet seq
    { window, verdicts := r.verdicts ++ [(.checkAndSet seq, verdict)] }
  | .wouldAccept seq =>
    { r with verdicts := r.verdicts ++ [(.wouldAccept seq, r.window.wouldAccept seq)] }

def run (calls : List WindowCall) : WindowRun width := calls.foldl step r

/-- The sequence a call accepted. -/
def acceptedBy : WindowCall × ReplayVerdict → Option UInt64
  | (.checkAndSet seq, .accept) => some seq
  | _ => none

/-- The sequences accepted so far, oldest first. -/
def accepted : List UInt64 := r.verdicts.filterMap acceptedBy

/-- The set that the window stands for. -/
def acceptedSet : Set Nat := { n | ∃ seq ∈ r.accepted, seq.toNat = n }

theorem mem_acceptedSet (seq : UInt64) : seq.toNat ∈ r.acceptedSet ↔ seq ∈ r.accepted := by
  constructor
  · rintro ⟨other, hmem, heq⟩
    rwa [UInt64.toNat_inj.mp heq] at hmem
  · exact fun hmem => ⟨seq, hmem, rfl⟩

theorem accepted_checkAndSet (seq : UInt64) :
    (r.step (.checkAndSet seq)).accepted =
      r.accepted ++ if r.window.wouldAccept seq = .accept then [seq] else [] := by
  show (r.verdicts ++ [(WindowCall.checkAndSet seq, (r.window.checkAndSet seq).2)]).filterMap
    acceptedBy = _
  rw [List.filterMap_append, checkAndSet_verdict]
  cases r.window.wouldAccept seq <;> rfl

theorem accepted_wouldAccept (seq : UInt64) :
    (r.step (.wouldAccept seq)).accepted = r.accepted := by
  show (r.verdicts ++ [(WindowCall.wouldAccept seq, r.window.wouldAccept seq)]).filterMap
    acceptedBy = _
  rw [List.filterMap_append]
  exact List.append_nil _

theorem tracks_step {r : WindowRun width} (ht : r.window.Tracks r.acceptedSet) (call : WindowCall) :
    (r.step call).window.Tracks (r.step call).acceptedSet := by
  cases call with
  | wouldAccept seq =>
    rw [acceptedSet, accepted_wouldAccept]
    exact ht
  | checkAndSet seq =>
    rw [acceptedSet, accepted_checkAndSet]
    show (r.window.checkAndSet seq).1.Tracks _
    by_cases hacc : r.window.wouldAccept seq = .accept
    · have hset : { n | ∃ other ∈ r.accepted ++ [seq], other.toNat = n } =
          insert seq.toNat r.acceptedSet := by
        ext n
        simp only [List.mem_append, List.mem_singleton]
        constructor
        · rintro ⟨other, hmem | rfl, rfl⟩
          · exact .inr ⟨other, hmem, rfl⟩
          · exact .inl rfl
        · rintro (rfl | ⟨other, hmem, rfl⟩)
          · exact ⟨seq, .inr rfl, rfl⟩
          · exact ⟨other, .inl hmem, rfl⟩
      rw [if_pos hacc, hset]
      exact ht.checkAndSet hacc
    · rw [if_neg hacc, List.append_nil, checkAndSet_fst_of_rejected hacc]
      exact ht

theorem tracks_run (old : AntiReplayWindow width) (calls : List WindowCall) :
    ((run { window := old.reset } calls).window).Tracks (run { window := old.reset } calls).acceptedSet := by
  have hempty : ({ window := old.reset } : WindowRun width).acceptedSet = ∅ := by
    ext n
    simp [acceptedSet, accepted]
  refine run_invariant (fun r : WindowRun width => r.window.Tracks r.acceptedSet)
    (fun _ call h => tracks_step h call) ?_ calls
  rw [hempty]
  exact tracks_empty

theorem accepted_eq_nil_iff {r : WindowRun width} (ht : r.window.Tracks r.acceptedSet) :
    r.accepted = [] ↔ r.window.seenAny = false := by
  constructor
  · intro hnil
    by_contra hany
    obtain ⟨seq, hmem, -⟩ := ht.highest_mem (by simpa using hany)
    rw [hnil] at hmem
    exact List.not_mem_nil hmem
  intro hunseen
  obtain ⟨hempty, -⟩ := ht.unseen hunseen
  rw [List.eq_nil_iff_forall_not_mem]
  intro seq hmem
  rw [← mem_acceptedSet, hempty] at hmem
  exact hmem

theorem accept_iff {r : WindowRun width} (ht : r.window.Tracks r.acceptedSet) (seq : UInt64) :
    r.window.wouldAccept seq = .accept ↔
      r.accepted = [] ∨ r.window.highest < seq ∨
        (r.window.highest.toNat - seq.toNat < width ∧ seq ∉ r.accepted) := by
  rw [wouldAccept_eq_accept_iff ht, mem_acceptedSet, Reaches, UInt64.lt_iff_toNat_lt]
  cases hany : r.window.seenAny with
  | false =>
    have hempty := (accepted_eq_nil_iff ht).mpr hany
    simp [hempty]
  | true =>
    have hsome : r.accepted ≠ [] := by
      rw [ne_eq, accepted_eq_nil_iff ht, hany]
      decide
    simp only [true_implies, hsome, false_or]
    constructor
    · rintro ⟨hnew, hreach⟩
      by_cases hlt : r.window.highest.toNat < seq.toNat
      · exact .inl hlt
      · exact .inr ⟨by omega, hnew⟩
    rintro (hlt | ⟨hnear, hnew⟩)
    · refine ⟨fun hmem => ?_, by omega⟩
      have hle := ht.le_highest hany _ ((mem_acceptedSet r seq).mpr hmem)
      omega
    · exact ⟨hnew, by omega⟩

/-- **The window refines the set of what it accepted.** After any calls since a reset, a sequence is
accepted iff nothing was accepted yet, or it is above the highest accepted one, or it is less than the
width below and was not accepted; it is too old iff it is the width or more below. The probe returns
the same verdict and changes nothing. -/
theorem verdicts_of_set (width : Nat) (old : AntiReplayWindow width) (calls : List WindowCall)
    (seq : UInt64) :
    let r := run { window := old.reset } calls
    ((∀ other ∈ r.accepted, other ≤ r.window.highest) ∧
      (r.accepted ≠ [] → r.window.highest ∈ r.accepted)) ∧
    ((r.window.checkAndSet seq).2 = .accept ↔
      r.accepted = [] ∨ r.window.highest < seq ∨
        (r.window.highest.toNat - seq.toNat < width ∧ seq ∉ r.accepted)) ∧
    ((r.window.checkAndSet seq).2 = .rejectOld ↔
      r.accepted ≠ [] ∧ seq ≤ r.window.highest ∧ width ≤ r.window.highest.toNat - seq.toNat) ∧
    r.window.wouldAccept seq = (r.window.checkAndSet seq).2 ∧
    (r.step (.wouldAccept seq)).window = r.window := by
  have ht := tracks_run old calls
  intro r
  have hnil : r.accepted = [] ↔ r.window.seenAny = false := accepted_eq_nil_iff ht
  have hsome : r.accepted ≠ [] ↔ r.window.seenAny = true := by
    rw [ne_eq, hnil, Bool.not_eq_false]
  refine ⟨⟨?_, ?_⟩, ?_, ?_, (checkAndSet_verdict _ _).symm, rfl⟩
  · intro other hmem
    have hany := hsome.mp (List.ne_nil_of_mem hmem)
    exact UInt64.le_iff_toNat_le.mpr (ht.le_highest hany _ ((mem_acceptedSet r other).mpr hmem))
  · intro hne
    exact (mem_acceptedSet r _).mp (ht.highest_mem (hsome.mp hne))
  · rw [checkAndSet_verdict]
    exact accept_iff ht seq
  · rw [checkAndSet_verdict, wouldAccept_eq_rejectOld_iff, hsome]

end WindowRun

end AntiReplayWindow

end Plexus.Crypto
