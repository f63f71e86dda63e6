/-
# Plexus.Datagram.UdpReorderBuffer — the head-of-line reorder window
(`datagram/detail/udp_reorder_buffer.h`).

A ring of `W` slots holds segments that arrived ahead of a gap; the segment at the gap releases the
run behind it. `Tracks b init xs n`: the buffer has released the first `n` messages of `xs`, and
what it holds is the message `xs` has at that place. A segment that is stale, or carries the message
of its own place, moves the position forward and releases exactly the messages in between
(`feed_tracks`).
-/
import Plexus.Lib.Serial
import Mathlib.Data.Fintype.Card

namespace Plexus.Datagram

open Lib Function

/-- The unit the reliable path carries: the bytes and whether they are a fragment. -/
structure Message where
  bytes : List UInt8
  fragmented : Bool
  deriving DecidableEq

def halfSpace : Nat := 32768

structure ReorderSlot where
  bytes : List UInt8 := []
  present : Bool := false
  fragmented : Bool := false
  deriving DecidableEq

def ReorderSlot.message (s : ReorderSlot) : Message := ⟨s.bytes, s.fragmented⟩

inductive ReorderOutcome where
  | delivered
  | buffered
  | duplicate
  | outOfWindow
  deriving DecidableEq

/-- `base` is the ring index of `expected`. -/
structure UdpReorderBuffer (W : Nat) where
  slots : Fin W → ReorderSlot
  base : Fin W
  expected : UInt16

variable {W : Nat} [NeZero W]

/-- `(base + offset) % W`. -/
def ringIndex (base : Fin W) (offset : Nat) : Fin W := Fin.ofNat W (base.val + offset)

namespace UdpReorderBuffer

def make (W : Nat) [NeZero W] (initialSeq : UInt16) : UdpReorderBuffer W where
  slots _ := {}
  base := 0
  expected := initialSeq

variable (b : UdpReorderBuffer W)

def cumulative : UInt16 := b.expected - 1

def bufferedAt (hole : Nat) : Bool :=
  if W ≤ hole then false else (b.slots (ringIndex b.base hole)).present

/-- One turn of `drain_contiguous`: hand out the slot at the base and vacate it. -/
def release : UdpReorderBuffer W where
  slots := update b.slots b.base { b.slots b.base with present := false }
  base := ringIndex b.base 1
  expected := b.expected + 1

/-- `drain_contiguous`. Each turn vacates a slot, so `W` turns are enough
(`drainContiguous_settled`). -/
def drainContiguous : Nat → UdpReorderBuffer W → UdpReorderBuffer W × List Message
  | 0, b => (b, [])
  | fuel + 1, b =>
    if (b.slots b.base).present then
      let (b', delivered) := drainContiguous fuel b.release
      (b', (b.slots b.base).message :: delivered)
    else (b, [])

/-- Keep a segment in a slot. -/
def store (i : Fin W) (fragmented : Bool) (bytes : List UInt8) : UdpReorderBuffer W :=
  { b with slots := update b.slots i { bytes, fragmented, present := true } }

def feed (seq : UInt16) (fragmented : Bool) (bytes : List UInt8) :
    ReorderOutcome × UdpReorderBuffer W × List Message :=
  let adv := (seq - b.expected).toNat
  if halfSpace ≤ adv then (.duplicate, b, [])
  else if W ≤ adv then (.outOfWindow, b, [])
  else
    let slot := ringIndex b.base adv
    if (b.slots slot).present then (if adv ≠ 0 then .buffered else .duplicate, b, [])
    else if adv ≠ 0 then (.buffered, b.store slot fragmented bytes, [])
    else (.delivered, (b.store slot fragmented bytes).drainContiguous W)

/-! ## Ring indices -/

theorem ringIndex_zero (base : Fin W) : ringIndex base 0 = base := by
  simp [ringIndex]

theorem ringIndex_ringIndex (base : Fin W) (i j : Nat) :
    ringIndex (ringIndex base i) j = ringIndex base (i + j) := by
  ext
  simp [ringIndex, add_assoc]

theorem ringIndex_injOn {base : Fin W} {i j : Nat} (hi : i < W) (hj : j < W)
    (h : ringIndex base i = ringIndex base j) : i = j := by
  have hmod : base.val + i ≡ base.val + j [MOD W] := congrArg Fin.val h
  exact (hmod.add_left_cancel' base.val).eq_of_lt_of_lt hi hj

theorem ringIndex_self (base : Fin W) : ringIndex base W = base := by
  ext
  simp [ringIndex, Nat.mod_eq_of_lt base.isLt]

/-! ## The drain loop ends by itself -/

/-- How many slots hold a segment. -/
def held : Nat := (Finset.univ.filter fun i => (b.slots i).present).card

variable {b : UdpReorderBuffer W} {xs : List Message} {init n : Nat}

theorem held_release (h : (b.slots b.base).present) : b.release.held < b.held := by
  refine Finset.card_lt_card (Finset.ssubset_iff_subset_ne.mpr ⟨?_, ?_⟩)
  · intro i hi
    simp only [Finset.mem_filter, release, update_apply] at hi ⊢
    split at hi
    · simp at hi
    · exact hi
  · intro heq
    have : b.base ∈ Finset.univ.filter fun i => (b.slots i).present := by simp [h]
    rw [← heq, Finset.mem_filter] at this
    simp [release] at this

theorem drainContiguous_settled_of_le {fuel : Nat} (h : b.held ≤ fuel) :
    (((b.drainContiguous fuel).1.slots (b.drainContiguous fuel).1.base).present) = false := by
  induction fuel generalizing b with
  | zero =>
    have hempty : b.held = 0 := by omega
    rw [held, Finset.card_eq_zero, Finset.filter_eq_empty_iff] at hempty
    have hbase := hempty (Finset.mem_univ b.base)
    exact Bool.eq_false_iff.mpr hbase
  | succ fuel ih =>
    unfold drainContiguous
    split
    · rename_i hp
      have := held_release hp
      exact ih (by omega)
    · rename_i hp
      simpa using hp

/-- `W` turns reach the next gap: the `while` loop ends because its condition fails. -/
theorem drainContiguous_settled (b : UdpReorderBuffer W) :
    (((b.drainContiguous W).1.slots (b.drainContiguous W).1.base).present) = false :=
  drainContiguous_settled_of_le ((Finset.card_le_univ _).trans_eq (Fintype.card_fin W))

/-! ## Tracking a list of messages -/

/-- The buffer has released the first `n` messages of `xs`, and each slot ahead holds the message of
its own place. -/
structure Tracks (b : UdpReorderBuffer W) (init : Nat) (xs : List Message) (n : Nat) : Prop where
  expected_eq : b.expected = UInt16.ofNat (init + n)
  held_eq : ∀ k < W, (b.slots (ringIndex b.base k)).present →
    xs[n + k]? = some (b.slots (ringIndex b.base k)).message

theorem tracks_make (init : Nat) (xs : List Message) :
    (make W (UInt16.ofNat init)).Tracks init xs 0 :=
  ⟨rfl, fun _ _ h => by simp [make] at h⟩

section

variable (h : b.Tracks init xs n)
include h

theorem Tracks.append (ys : List Message) : b.Tracks init (xs ++ ys) n := by
  refine ⟨h.expected_eq, fun k hk hp => ?_⟩
  have hx := h.held_eq k hk hp
  obtain ⟨hlt, -⟩ := List.getElem?_eq_some_iff.mp hx
  rw [List.getElem?_append_left hlt, hx]

theorem Tracks.release : b.release.Tracks init xs (n + 1) := by
  refine ⟨?_, fun k hk hp => ?_⟩
  · rw [UdpReorderBuffer.release, h.expected_eq, ← add_assoc, UInt16.ofNat_add (init + n) 1]
    rfl
  simp only [UdpReorderBuffer.release, ringIndex_ringIndex, update_apply] at hp ⊢
  -- the vacated slot comes last; every other one moves one place closer
  by_cases hlast : 1 + k = W
  · rw [hlast, ringIndex_self] at hp
    simp at hp
  have hne : ringIndex b.base (1 + k) ≠ b.base := by
    intro heq
    rw [← ringIndex_zero b.base, ringIndex_ringIndex] at heq
    have := ringIndex_injOn (by omega) (by omega) heq
    omega
  rw [if_neg hne] at hp ⊢
  rw [add_assoc]
  exact h.held_eq (1 + k) (by omega) hp

theorem drainContiguous_tracks {fuel : Nat} :
    ∃ d, (b.drainContiguous fuel).2 = (xs.drop n).take d ∧ n + d ≤ max n xs.length ∧
      (b.drainContiguous fuel).1.Tracks init xs (n + d) := by
  induction fuel generalizing b n with
  | zero => exact ⟨0, by simp [drainContiguous], by omega, h⟩
  | succ fuel ih =>
    unfold drainContiguous
    split
    · have hx : xs[n]? = some (b.slots b.base).message := by
        have := h.held_eq 0 (Nat.pos_of_neZero W) (by rwa [ringIndex_zero])
        rwa [ringIndex_zero] at this
      obtain ⟨hlt, hget⟩ := List.getElem?_eq_some_iff.mp hx
      obtain ⟨d, hd, hle, htracks⟩ := ih h.release
      refine ⟨d + 1, ?_, by omega, by rwa [Nat.add_right_comm, add_assoc] at htracks⟩
      rw [List.drop_eq_getElem_cons hlt, List.take_succ_cons, hget, ← hd]
    · exact ⟨0, by simp, by omega, h⟩

theorem Tracks.store {adv : Nat} {fragmented : Bool} {bytes : List UInt8} (hadv : adv < W)
    (hx : xs[n + adv]? = some ⟨bytes, fragmented⟩) :
    (b.store (ringIndex b.base adv) fragmented bytes).Tracks init xs n := by
  refine ⟨h.expected_eq, fun k hk hp => ?_⟩
  simp only [UdpReorderBuffer.store, update_apply] at hp ⊢
  split
  · rename_i heq
    rw [ringIndex_injOn hk hadv heq, hx]
    rfl
  · rename_i hne
    rw [if_neg hne] at hp
    exact h.held_eq k hk hp

/-- **The receiver's step lemma.** A segment that is stale, or that carries the message of its own
place, releases exactly the messages between the old position and the new one. -/
theorem feed_tracks {seq : UInt16}
    {fragmented : Bool} {bytes : List UInt8}
    (hseg : halfSpace ≤ (seq - b.expected).toNat ∨
      xs[n + (seq - b.expected).toNat]? = some ⟨bytes, fragmented⟩) :
    ∃ d, (b.feed seq fragmented bytes).2.2 = (xs.drop n).take d ∧ n + d ≤ max n xs.length ∧
      (b.feed seq fragmented bytes).2.1.Tracks init xs (n + d) := by
  have hsame : ∃ d, ([] : List Message) = (xs.drop n).take d ∧ n + d ≤ max n xs.length ∧
      b.Tracks init xs (n + d) := ⟨0, by simp, by omega, h⟩
  unfold feed
  simp only
  split_ifs with hhalf hwin hpres hadv hadv
  · exact hsame
  · exact hsame
  · exact hsame
  · exact hsame
  · exact ⟨0, by simp, by omega, h.store (by omega) (hseg.resolve_left hhalf)⟩
  · exact drainContiguous_tracks (h.store (by omega) (hseg.resolve_left hhalf))

end

/-! ## What is held stays held until it is handed out -/

theorem bufferedAt_store (b : UdpReorderBuffer W) (i : Fin W) (fragmented : Bool) (bytes : List UInt8)
    {k : Nat} (h : b.bufferedAt k) : (b.store i fragmented bytes).bufferedAt k := by
  unfold bufferedAt store at *
  split at h
  · exact absurd h (by decide)
  rename_i hk
  rw [if_neg hk]
  show ReorderSlot.present (update b.slots _ _ _) = true
  rw [update_apply]
  split
  · rfl
  · exact h

theorem bufferedAt_release (b : UdpReorderBuffer W) {k : Nat} (h : b.bufferedAt (k + 1)) :
    b.release.bufferedAt k := by
  unfold bufferedAt at *
  split at h
  · exact absurd h (by decide)
  rw [if_neg (by omega)]
  show ReorderSlot.present (update b.slots _ _ (ringIndex (ringIndex b.base 1) k)) = true
  have hne : ringIndex (ringIndex b.base 1) k ≠ b.base := by
    rw [ringIndex_ringIndex]
    intro heq
    have := ringIndex_injOn (by omega) (by omega) (heq.trans (ringIndex_zero _).symm)
    omega
  rw [update_of_ne hne, ringIndex_ringIndex, add_comm 1 k]
  exact h

theorem bufferedAt_drainContiguous (fuel : Nat) (b : UdpReorderBuffer W) {k : Nat}
    (h : b.bufferedAt k) : k < (b.drainContiguous fuel).2.length ∨
      (b.drainContiguous fuel).1.bufferedAt (k - (b.drainContiguous fuel).2.length) := by
  induction fuel generalizing b k with
  | zero => exact .inr h
  | succ fuel ih =>
    unfold drainContiguous
    split
    · show k < _ + 1 ∨ bufferedAt _ (k - (_ + 1)) = true
      cases k with
      | zero => exact .inl (Nat.succ_pos _)
      | succ k =>
        rcases ih b.release (bufferedAt_release b h) with hout | hheld
        · exact .inl (Nat.succ_lt_succ hout)
        · rw [Nat.add_sub_add_right]
          exact .inr hheld
    · exact .inr h

theorem bufferedAt_feed (b : UdpReorderBuffer W) (seq : UInt16) (fragmented : Bool) (bytes : List UInt8)
    {k : Nat} (h : b.bufferedAt k) : k < (b.feed seq fragmented bytes).2.2.length ∨
      (b.feed seq fragmented bytes).2.1.bufferedAt
        (k - (b.feed seq fragmented bytes).2.2.length) := by
  unfold feed
  simp only
  split_ifs
  · exact .inr h
  · exact .inr h
  · exact .inr h
  · exact .inr h
  · exact .inr (bufferedAt_store b _ _ _ h)
  · exact bufferedAt_drainContiguous W _ (bufferedAt_store b _ _ _ h)

/-- Nothing is held. -/
def Empty (b : UdpReorderBuffer W) : Prop := ∀ i, (b.slots i).present = false

theorem empty_make (initialSeq : UInt16) : (make W initialSeq).Empty := fun _ => rfl

theorem drainContiguous_of_empty (h : b.Empty) (fuel : Nat) : b.drainContiguous fuel = (b, []) := by
  cases fuel with
  | zero => rfl
  | succ fuel => rw [drainContiguous, if_neg (by rw [h]; decide)]

theorem feed_expected (h : b.Empty) (m : Message) :
    ∃ b', b.feed b.expected m.fragmented m.bytes = (.delivered, b', [m]) ∧ b'.Empty ∧
      b'.expected = b.expected + 1 := by
  obtain ⟨w, hw⟩ : ∃ w, W = w + 1 := ⟨W - 1, by have := Nat.pos_of_neZero W; omega⟩
  set stored := b.store b.base m.fragmented m.bytes
  have hstored : stored.slots b.base =
      { bytes := m.bytes, fragmented := m.fragmented, present := true } := update_self ..
  have hempty : stored.release.Empty := by
    intro i
    show ReorderSlot.present (update (update b.slots b.base _) b.base _ i) = false
    rw [update_apply]
    split
    · rfl
    · rename_i hne
      rw [update_of_ne hne]
      exact h i
  have hdrain : ∀ fuel, stored.drainContiguous (fuel + 1) = (stored.release, [m]) := by
    intro fuel
    rw [drainContiguous, show stored.base = b.base from rfl, hstored, drainContiguous_of_empty hempty]
    rfl
  refine ⟨stored.release, ?_, hempty, rfl⟩
  have hfree : ¬ (b.slots b.base).present = true := by
    rw [h]
    decide
  have hpos : ¬ W ≤ 0 := by omega
  have hadv : (b.expected - b.expected).toNat = 0 := by simp
  have hturns := hdrain w
  rw [← hw] at hturns
  unfold feed
  simp only [hadv]
  rw [if_neg (by decide), if_neg hpos, ringIndex_zero, if_neg hfree, if_neg (by decide), hturns]
end UdpReorderBuffer

end Plexus.Datagram
