/-
# Plexus.Io.HistoryRing — the retained frames of a latched topic (`io/detail/history_ring.h`).

A ring of slots with a write position and a fill count. Every publish resizes the slots to the bound
in force and then pushes; the resize keeps position and count as they are.

`Layout r xs`: the ring holds exactly `xs`, oldest first. A publish takes the tail `xs` to `(xs ++
[frame]).rtake bound` whenever the resize is harmless (`Layout.retain`): the bound is the capacity
already, or the ring has not wrapped and its frames fit, or it shrinks exactly to the write
position.
-/
import Mathlib.Data.List.DropRight
import Mathlib.Data.List.GetD
import Mathlib.Tactic.Ring

namespace Plexus.Io

open List

structure HistoryRing (α : Type*) where
  slots : List α := []
  head : Nat := 0
  count : Nat := 0
  deriving DecidableEq

namespace HistoryRing

variable {α : Type*} {r : HistoryRing α} {xs : List α}

/-- `std::vector::resize`: cut or pad the slots; the write position and the count stay. -/
def resizeTo [Inhabited α] (r : HistoryRing α) (capacity : Nat) : HistoryRing α :=
  let n := if capacity = 0 then 1 else capacity
  { r with slots := r.slots.take n ++ replicate (n - r.slots.length) default }

/-- `push`; `none` is a write outside the slots. -/
def push (r : HistoryRing α) (frame : α) : Option (HistoryRing α) :=
  if r.head < r.slots.length then
    some { slots := r.slots.set r.head frame
           head := (r.head + 1) % r.slots.length
           count := min (r.count + 1) r.slots.length }
  else none

def empty (r : HistoryRing α) : Bool := r.count == 0

def newest (r : HistoryRing α) : Option α :=
  r.slots[(r.head + r.slots.length - 1) % r.slots.length]?

def oldestToNewest (r : HistoryRing α) (i : Nat) : Option α :=
  r.slots[(r.head + r.slots.length - r.count + i) % r.slots.length]?

/-- What a publish on a latched topic does to the topic's ring. -/
def retain [Inhabited α] (r : HistoryRing α) (bound : Nat) (frame : α) : Option (HistoryRing α) :=
  (r.resizeTo bound).push frame

/-! ## Layout -/

/-- The ring holds `xs`, oldest first: in its first slots until it is full, then from the write
position on. -/
structure Layout (r : HistoryRing α) (xs : List α) : Prop where
  count_eq : r.count = xs.length
  count_le : r.count ≤ r.slots.length
  head_of_room : r.count < r.slots.length → r.head = r.count
  head_of_full : r.count = r.slots.length → r.head < r.slots.length ∨ (r.slots = [] ∧ r.head = 0)
  get : ∀ i < xs.length, r.oldestToNewest i = xs[i]?

theorem layout_fresh : ({} : HistoryRing α).Layout [] where
  count_eq := rfl
  count_le := le_rfl
  head_of_room := fun h => absurd h (lt_irrefl 0)
  head_of_full := fun _ => .inr ⟨rfl, rfl⟩
  get := fun _ h => absurd h (Nat.not_lt_zero _)

theorem Layout.get_linear (h : r.Layout xs) (hroom : r.head = r.count) {i : Nat}
    (hi : i < xs.length) : r.slots[i]? = xs[i]? := by
  have hidx := h.get i hi
  have hcount := h.count_eq
  have hle := h.count_le
  have hi' : i < r.slots.length := by omega
  rw [oldestToNewest, hroom, Nat.add_sub_cancel_left, Nat.add_mod_left, Nat.mod_eq_of_lt hi'] at hidx
  exact hidx

/-- Growing or cutting a ring that has not wrapped, with room left, keeps its contents. -/
theorem Layout.resizeTo [Inhabited α] (h : r.Layout xs) {bound : Nat} (hroom : r.head = r.count)
    (hfit : r.count < bound) : (r.resizeTo bound).Layout xs := by
  have hpos : bound ≠ 0 := by omega
  have hcount := h.count_eq
  have hle := h.count_le
  have hlen : (r.resizeTo bound).slots.length = bound := by
    simp [HistoryRing.resizeTo, hpos]
    omega
  refine ⟨hcount, by rw [hlen]; exact hfit.le, fun _ => hroom, fun hfull => ?_, fun i hi => ?_⟩
  · rw [hlen] at hfull
    exact absurd hfull hfit.ne
  have hslot : (r.resizeTo bound).slots[i]? = r.slots[i]? := by
    simp only [HistoryRing.resizeTo, hpos, if_false]
    rw [getElem?_append_left (by rw [length_take]; omega), getElem?_take_of_lt (by omega)]
  rw [oldestToNewest, hlen]
  show (r.resizeTo bound).slots[(r.head + bound - r.count + i) % bound]? = xs[i]?
  rw [hroom, Nat.add_sub_cancel_left, Nat.add_mod_left, Nat.mod_eq_of_lt (by omega), hslot,
    h.get_linear hroom hi]

theorem resizeTo_self [Inhabited α] (hpos : r.slots ≠ []) : r.resizeTo r.slots.length = r := by
  have : r.slots.length ≠ 0 := by simpa using hpos
  simp [resizeTo, this]

/-- Where the `i`-th oldest frame stands after a push into a ring with room: where it was put. -/
theorem index_push_room {head count capacity i : Nat} (hhead : head = count)
    (hroom : count < capacity) (hi : i ≤ count) :
    ((head + 1) % capacity + capacity - min (count + 1) capacity + i) % capacity = i := by
  by_cases hlast : count + 1 < capacity
  · rw [Nat.mod_eq_of_lt (show head + 1 < capacity by omega), Nat.min_eq_left (by omega),
      show head + 1 + capacity - (count + 1) + i = capacity + i by omega, Nat.add_mod_left,
      Nat.mod_eq_of_lt (by omega)]
  · rw [show head + 1 = capacity by omega, Nat.mod_self, Nat.min_eq_right (by omega),
      show 0 + capacity - capacity + i = i by omega, Nat.mod_eq_of_lt (by omega)]

/-- After a push into a full ring the oldest frame is the one behind the write position. -/
theorem index_push_full (head i : Nat) {count capacity : Nat} (hfull : count = capacity) :
    ((head + 1) % capacity + capacity - min (count + 1) capacity + i) % capacity =
      (head + (i + 1)) % capacity := by
  rw [Nat.min_eq_right (by omega), Nat.add_sub_cancel, Nat.mod_add_mod]
  congr 1
  omega

theorem add_mod_ne_self {head i capacity : Nat} (hhead : head < capacity) (hpos : 0 < i)
    (hi : i < capacity) : (head + i) % capacity ≠ head := by
  intro heq
  by_cases hwrap : head + i < capacity
  · rw [Nat.mod_eq_of_lt hwrap] at heq
    omega
  · rw [Nat.mod_eq_sub_mod (by omega), Nat.mod_eq_of_lt (by omega)] at heq
    omega

theorem Layout.push_of_room (h : r.Layout xs) (hroom : r.count < r.slots.length) (frame : α) :
    ∃ r', r.push frame = some r' ∧ r'.slots.length = r.slots.length ∧ r'.Layout (xs ++ [frame]) := by
  have hcount := h.count_eq
  have hhead := h.head_of_room hroom
  refine ⟨_, if_pos (by omega), by simp, by simp; omega, by simp, ?_, ?_, ?_⟩
  · intro hlt
    simp only [length_set] at hlt ⊢
    rw [Nat.mod_eq_of_lt (by omega)]
    omega
  · intro _
    simp only [length_set]
    exact .inl (Nat.mod_lt _ (by omega))
  intro i hi
  simp only [length_append, length_singleton] at hi
  simp only [oldestToNewest, length_set, index_push_room hhead hroom (by omega : i ≤ r.count)]
  by_cases hnew : i = xs.length
  · subst hnew
    rw [show r.head = xs.length by omega, getElem?_set_self (by omega)]
    simp
  · rw [getElem?_set_ne (by omega), h.get_linear hhead (by omega), getElem?_append_left (by omega)]

theorem Layout.push_of_full (h : r.Layout xs) (hpos : r.slots ≠ [])
    (hfull : r.count = r.slots.length) (frame : α) :
    ∃ r', r.push frame = some r' ∧ r'.slots.length = r.slots.length ∧
      r'.Layout (xs.drop 1 ++ [frame]) := by
  have hlen : 0 < r.slots.length := length_pos_iff.mpr hpos
  have hcount := h.count_eq
  have hhead : r.head < r.slots.length := (h.head_of_full hfull).resolve_right fun h => hpos h.1
  refine ⟨_, if_pos hhead, by simp, by simp; omega, by simp, ?_, ?_, ?_⟩
  · intro hlt
    simp only [length_set] at hlt
    omega
  · intro _
    simp only [length_set]
    exact .inl (Nat.mod_lt _ hlen)
  intro i hi
  simp only [length_append, length_drop, length_singleton] at hi
  simp only [oldestToNewest, length_set, index_push_full r.head i hfull]
  by_cases hnew : i + 1 = xs.length
  · rw [hnew, show xs.length = r.slots.length by omega, Nat.add_mod_right,
      Nat.mod_eq_of_lt hhead, getElem?_set_self hhead,
      getElem?_append_right (by simp; omega),
      show i - (xs.drop 1).length = 0 by simp; omega]
    rfl
  have hne := add_mod_ne_self hhead (Nat.succ_pos i) (by omega)
  have hold := h.get (i + 1) (by omega)
  rw [oldestToNewest, hfull, Nat.add_sub_cancel] at hold
  rw [getElem?_set_ne (Ne.symm hne), hold, getElem?_append_left (by simp; omega),
    getElem?_drop, add_comm]

theorem Layout.push (h : r.Layout xs) (hpos : r.slots ≠ []) (frame : α) :
    ∃ r', r.push frame = some r' ∧ r'.slots.length = r.slots.length ∧
      r'.Layout ((xs ++ [frame]).rtake r.slots.length) := by
  have hcount := h.count_eq
  have hle := h.count_le
  rcases lt_or_eq_of_le hle with hroom | hfull
  · have hall : (xs ++ [frame]).rtake r.slots.length = xs ++ [frame] := by
      have hshort : (xs ++ [frame]).length - r.slots.length = 0 := by simp; omega
      rw [rtake, hshort, drop_zero]
    rw [hall]
    exact h.push_of_room hroom frame
  obtain ⟨n, hn⟩ : ∃ n, r.slots.length = n + 1 :=
    Nat.exists_eq_succ_of_ne_zero (by simpa using hpos)
  have htail : (xs ++ [frame]).rtake r.slots.length = xs.drop 1 ++ [frame] := by
    rw [hn, rtake_concat_succ, rtake, show xs.length - n = 1 by omega]
  rw [htail]
  exact h.push_of_full hpos hfull frame

/-! ## Retaining -/

/-- The resizes that do no harm. -/
def ResizeSafe (r : HistoryRing α) (bound : Nat) : Prop :=
  r.slots.length = bound ∨ (r.head = r.count ∧ r.count < bound) ∨
    (r.count = r.slots.length ∧ r.head + 1 = bound ∧ bound < r.slots.length)

instance (r : HistoryRing α) (bound : Nat) : Decidable (r.ResizeSafe bound) :=
  inferInstanceAs (Decidable (_ ∨ _ ∨ _))

/-- Shrinking a full ring exactly to its write position cuts off the oldest frames, and the next
push fills the last slot left. -/
theorem Layout.retain_shrink [Inhabited α] (h : r.Layout xs) (hfull : r.count = r.slots.length)
    {k : Nat} (hhead : r.head = k) (hshrink : k + 1 < r.slots.length) (frame : α) :
    ∃ r', r.retain (k + 1) frame = some r' ∧ r'.slots.length = k + 1 ∧
      r'.Layout ((xs ++ [frame]).rtake (k + 1)) := by
  have hcount := h.count_eq
  have hslots : (r.resizeTo (k + 1)).slots = r.slots.take (k + 1) := by
    simp [HistoryRing.resizeTo, show k + 1 - r.slots.length = 0 by omega]
  have hlen : (r.resizeTo (k + 1)).slots.length = k + 1 := by
    rw [hslots, length_take]
    omega
  have hhead' : (r.resizeTo (k + 1)).head = k := hhead
  have hcount' : (r.resizeTo (k + 1)).count = r.slots.length := hfull
  refine ⟨_, if_pos (by omega), by simp [hlen], ?_⟩
  rw [rtake_concat_succ]
  have htail : (xs.rtake k).length = k := by
    rw [rtake, length_drop]
    omega
  refine ⟨by simp [hlen]; omega, by simp, ?_, ?_, ?_⟩
  · intro hlt
    simp only [length_set] at hlt
    omega
  · intro _
    simp only [length_set]
    exact .inl (Nat.mod_lt _ (by omega))
  intro i hi
  simp only [length_append, htail, length_singleton] at hi
  have hidx : ((k + 1) % (k + 1) + (k + 1) - min (r.slots.length + 1) (k + 1) + i) % (k + 1) = i := by
    rw [Nat.mod_self, Nat.min_eq_right (by omega), show 0 + (k + 1) - (k + 1) + i = i by omega,
      Nat.mod_eq_of_lt hi]
  simp only [oldestToNewest, length_set, hlen, hhead', hcount', hidx]
  by_cases hnew : i = k
  · subst hnew
    rw [getElem?_set_self (by omega), getElem?_append_right (by omega), htail, Nat.sub_self]
    rfl
  rw [getElem?_set_ne (by omega), hslots, getElem?_take_of_lt (by omega),
    getElem?_append_left (by omega), rtake, getElem?_drop]
  have hold := h.get (xs.length - k + i) (by omega)
  rw [oldestToNewest, hfull, Nat.add_sub_cancel, hhead,
    show k + (xs.length - k + i) = r.slots.length + i by omega, Nat.add_mod_left,
    Nat.mod_eq_of_lt (by omega)] at hold
  exact hold

/-- **The step lemma of a latched topic**: a harmless resize and a push turn the retained tail into
the tail that the bound in force asks for. -/
theorem Layout.retain [Inhabited α] (h : r.Layout xs) {bound : Nat} (hpos : 0 < bound)
    (hsafe : r.ResizeSafe bound) (frame : α) :
    ∃ r', r.retain bound frame = some r' ∧ r'.slots.length = bound ∧
      r'.Layout ((xs ++ [frame]).rtake bound) := by
  rcases hsafe with hsame | ⟨hroom, hfit⟩ | ⟨hfull, hhead, hshrink⟩
  · subst hsame
    have hne : r.slots ≠ [] := length_pos_iff.mp hpos
    rw [HistoryRing.retain, resizeTo_self hne]
    exact h.push hne frame
  · have hlen : (r.resizeTo bound).slots.length = bound := by
      simp [HistoryRing.resizeTo, show bound ≠ 0 by omega]
      omega
    have := (h.resizeTo hroom hfit).push (by rw [← length_pos_iff, hlen]; exact hpos) frame
    rwa [hlen] at this
  · subst hhead
    exact h.retain_shrink hfull rfl hshrink frame

theorem Layout.newest (h : r.Layout xs) (hne : xs ≠ []) : r.newest = xs.getLast? := by
  have hlen : 0 < xs.length := length_pos_iff.mpr hne
  have hcount := h.count_eq
  have hle := h.count_le
  have hlast := h.get (xs.length - 1) (by omega)
  rw [getLast?_eq_getElem?, ← hlast, HistoryRing.newest]
  congr 2
  omega

end HistoryRing

end Plexus.Io
