/-
# Plexus.Datagram.ReliableSend — when a reliable send keeps its whole message.

A message is whole after `sendReliable` when every segment it was cut into is in the ARQ window or in
the back-pressure queue (`Whole`). For a fragmented message that is a question of bytes: the
fragments the window has no room for, each with its ten bytes of sub-header, have to fit into what
the queue has left (`whole_large_iff`). The constructor floors the queue's cap at the message
ceiling without those headers, so a message within the ceiling need not fit.

The result a send returns is the one of its last fragment. It hides an earlier refusal exactly when
the full-size fragments overrun the queue and the last one still fits into the remainder
(`MasksRefusal`).
-/
import Mathlib.Algebra.BigOperators.Group.List.Basic
import Plexus.Datagram.UdpChannel

namespace Plexus.Datagram

open Lib Io List

namespace UdpChannel

variable {cfg : UdpChannelConfig} (c : UdpChannel cfg)

/-- The segments a large message is cut into. -/
def fragments (payload : Bytes) : List Message :=
  (split payload cfg.maxPayload).map (fragmentMessage c.outMsgId)

/-- The segments `sendReliable` has to place for a message. -/
def segmentsOf (payload : Bytes) : List Message :=
  if cfg.isLarge payload.length then c.fragments payload else [⟨payload, false⟩]

/-- What has been placed between two states: new in the window, then new in the queue. -/
def placedSince (c c' : UdpChannel cfg) : List Message :=
  c'.windowed.drop c.windowed.length ++ c'.parked.drop c.parked.length

/-- Every segment of the message is in the window or in the queue, and nothing else is new. -/
def Whole (payload : Bytes) : Prop :=
  c.placedSince (c.sendReliable payload).1 = c.segmentsOf payload

instance (c : UdpChannel cfg) (payload : Bytes) : Decidable (c.Whole payload) :=
  inferInstanceAs (Decidable (_ = _))

/-! ## Sizes -/

/-- The number of segments of a large message. -/
def count (cfg : UdpChannelConfig) (size : Nat) : Nat := fragmentCount size cfg.budget

/-- A full fragment with its sub-header. -/
def fullSize (cfg : UdpChannelConfig) : Nat := cfg.budget + udpFragmentSubheader

/-- The last fragment with its sub-header. -/
def lastSize (cfg : UdpChannelConfig) (size : Nat) : Nat :=
  size - (count cfg size - 1) * cfg.budget + udpFragmentSubheader

/-- The bytes the window has no room for: the rest of the message and one sub-header for each
fragment left over. -/
def overflow (size : Nat) : Nat :=
  (size - c.room * cfg.budget) + udpFragmentSubheader * (count cfg size - c.room)

variable {c : UdpChannel cfg} {payload : Bytes}

theorem count_pos (cfg : UdpChannelConfig) (size : Nat) : 0 < count cfg size :=
  fragmentCount_pos size cfg.budget_pos

/-- The `i`-th segment of a large message. -/
def fragmentAt (c : UdpChannel cfg) (payload : Bytes) (i : Nat) : Message :=
  fragmentMessage c.outMsgId
    ⟨UInt32.ofNat i, UInt32.ofNat (count cfg payload.length), fragmentSlice payload cfg.budget i⟩

theorem fragments_eq (c : UdpChannel cfg) (payload : Bytes) :
    c.fragments payload = (range (count cfg payload.length)).map (c.fragmentAt payload) := by
  rw [fragments, split, map_map]
  rfl

theorem size_fragmentAt (c : UdpChannel cfg) (payload : Bytes) (i : Nat) :
    (c.fragmentAt payload i).size =
      (fragmentSlice payload cfg.budget i).length + udpFragmentSubheader :=
  length_encodeUdpFragmentPayload _ _

theorem size_pos_of_mem_fragments {m : Message} (hm : m ∈ c.fragments payload) : 0 < m.size := by
  rw [fragments_eq] at hm
  obtain ⟨i, -, rfl⟩ := mem_map.mp hm
  rw [size_fragmentAt]
  exact lt_of_lt_of_le (by decide) (Nat.le_add_left udpFragmentSubheader _)

theorem fragments_eq_concat (c : UdpChannel cfg) (payload : Bytes) :
    ∃ full last, c.fragments payload = full ++ [last] ∧
      full.length = count cfg payload.length - 1 ∧ (∀ m ∈ full, m.size = fullSize cfg) ∧
      last.size = lastSize cfg payload.length := by
  obtain ⟨n, hn⟩ : ∃ n, count cfg payload.length = n + 1 :=
    Nat.exists_eq_succ_of_ne_zero (count_pos cfg payload.length).ne'
  refine ⟨(range n).map (c.fragmentAt payload), c.fragmentAt payload n, ?_, by simp [hn], ?_, ?_⟩
  · rw [fragments_eq, hn, range_succ, map_append, map_singleton]
  · intro m hm
    obtain ⟨i, hi, rfl⟩ := mem_map.mp hm
    have hlt : i + 1 < fragmentCount payload.length cfg.budget := by
      have : i < n := mem_range.mp hi
      show i + 1 < count cfg payload.length
      omega
    rw [size_fragmentAt, length_slice_of_lt cfg.budget_pos hlt, fullSize]
  · have hlast := length_slice_last payload cfg.budget_pos
    have hidx : fragmentCount payload.length cfg.budget - 1 = n := by
      show count cfg payload.length - 1 = n
      omega
    rw [hidx] at hlast
    rw [size_fragmentAt, hlast, lastSize, hn, Nat.add_sub_cancel]

theorem sum_size_overflow (c : UdpChannel cfg) (payload : Bytes) :
    (((c.fragments payload).drop c.room).map Message.size).sum = c.overflow payload.length := by
  have hbound : payload.length ≤ count cfg payload.length * cfg.budget :=
    (fragmentCount_bounds payload.length cfg.budget_pos).2
  rw [fragments_eq, ← map_drop, map_map]
  have hsize : (Message.size ∘ c.fragmentAt payload) = fun i =>
      (fragmentSlice payload cfg.budget i).length + udpFragmentSubheader :=
    funext (c.size_fragmentAt payload)
  rcases lt_or_ge (count cfg payload.length) c.room with hlt | hle
  · -- the window takes the whole message
    have hmul : count cfg payload.length * cfg.budget ≤ c.room * cfg.budget :=
      Nat.mul_le_mul_right _ hlt.le
    rw [drop_eq_nil_of_le (by simpa using hlt.le), overflow,
      Nat.sub_eq_zero_of_le (hbound.trans hmul), Nat.sub_eq_zero_of_le hlt.le]
    rfl
  · have hslices := sum_length_slice payload cfg.budget _ c.room hle hbound
    rw [hsize, sum_map_add, hslices, map_const', sum_replicate_nat, length_drop,
      length_range, overflow, mul_comm udpFragmentSubheader]

/-! ## A large message -/

/-- The state the fragments of a message are submitted from. -/
def readyToSplit (c : UdpChannel cfg) : UdpChannel cfg :=
  { c with arq := some c.engine, outMsgId := c.outMsgId + 1 }

theorem sendReliable_large (hopen : c.isOpen) (hlarge : cfg.isLarge payload.length)
    (hmax : payload.length ≤ cfg.maxMessageBytes) :
    c.sendReliable payload = submitAll (c.readyToSplit, .admitted) (c.fragments payload) := by
  have hnot : ¬ payload.length > cfg.maxMessageBytes := by omega
  rw [sendReliable, hopen, if_pos hlarge, sendReliableLarge, if_neg hnot,
    submitAll, fragments, foldl_map]
  rfl

variable {c' : UdpChannel cfg}

theorem placedSince_of_append {ws ps : List Message}
    (hw : c'.windowed = c.windowed ++ ws) (hp : c'.parked = c.parked ++ ps) :
    c.placedSince c' = ws ++ ps := by
  rw [placedSince, hw, hp, drop_left, drop_left]

section

variable (hopen : c.isOpen) (hlarge : cfg.isLarge payload.length)
  (hmax : payload.length ≤ cfg.maxMessageBytes)
include hopen hlarge hmax

/-- **A large message is kept whole iff what the window cannot take fits into the queue.** -/
theorem whole_large_iff : c.Whole payload ↔ c.overflow payload.length ≤ c.parkingRoom := by
  obtain ⟨hwin, -, hparked, -⟩ := submitAll_spec (c.fragments payload)
    (fun m hm => size_pos_of_mem_fragments hm) (c.readyToSplit, .admitted)
  have hplaced := placedSince_of_append (c := c) hwin hparked
  rw [Whole, sendReliable_large hopen hlarge hmax, hplaced, segmentsOf, if_pos hlarge,
    ← sum_size_overflow, ← fill_eq_self_iff]
  show (c.fragments payload).take c.room ++ fill _ c.parkingRoom _ = _ ↔ _
  conv_lhs => rhs; rw [← take_append_drop c.room (c.fragments payload)]
  exact append_right_inj _

theorem admitted_large_iff :
    (c.sendReliable payload).2 = .admitted ↔
      count cfg payload.length ≤ c.room ∨
        lastSize cfg payload.length ≤
          if (count cfg payload.length - 1 - c.room) * fullSize cfg ≤ c.parkingRoom then
            c.parkingRoom - (count cfg payload.length - 1 - c.room) * fullSize cfg
          else c.parkingRoom % fullSize cfg := by
  obtain ⟨full, last, hfrags, hlen, hfull, hlast⟩ := c.fragments_eq_concat payload
  have hcount := count_pos cfg payload.length
  have hfullPos : 0 < fullSize cfg := lt_of_lt_of_le cfg.budget_pos (Nat.le_add_right _ _)
  have hlastPos : 0 < last.size := 
    size_pos_of_mem_fragments (hfrags ▸ mem_append_right full (mem_singleton_self last))
  obtain ⟨-, hroom, -, hfree⟩ := submitAll_spec full
    (fun m hm => (hfull m hm).symm ▸ hfullPos) (c.readyToSplit, .admitted)
  rw [free_after_uniform Message.size hfullPos
    (fun m hm => hfull m (mem_of_mem_drop hm)), length_drop, hlen] at hfree
  rw [hlen] at hroom
  rw [sendReliable_large hopen hlarge hmax, hfrags, submitAll_concat]
  set c' := (submitAll (c.readyToSplit, .admitted) full).1
  have hroom' : c'.room = c.room - (count cfg payload.length - 1) := hroom
  rcases Nat.eq_zero_or_pos c'.room with hzero | hpos
  · have hgt : ¬ count cfg payload.length ≤ c.room := by omega
    rw [(submit_full_spec hzero hlastPos).1, hfree, hlast, or_iff_right hgt]
    rfl
  · have hle : count cfg payload.length ≤ c.room := by omega
    exact iff_of_true (submit_of_room hpos).1 (.inl hle)

end

/-- The full fragments the window leaves over overrun the queue, and the last one fits into the
remainder. -/
def MasksRefusal (c : UdpChannel cfg) (size : Nat) : Prop :=
  c.isOpen = true ∧ cfg.isLarge size = true ∧ size ≤ cfg.maxMessageBytes ∧
    c.parkingRoom < (count cfg size - 1 - c.room) * fullSize cfg ∧
    lastSize cfg size ≤ c.parkingRoom % fullSize cfg

theorem overflow_eq (c : UdpChannel cfg) (payload : Bytes)
    (hroom : c.room < count cfg payload.length) :
    c.overflow payload.length =
      (count cfg payload.length - 1 - c.room) * fullSize cfg + lastSize cfg payload.length := by
  obtain ⟨full, last, hfrags, hlen, hfull, hlast⟩ := c.fragments_eq_concat payload
  have hle : c.room ≤ full.length := by omega
  have hmap : (full.drop c.room).map Message.size =
      replicate (count cfg payload.length - 1 - c.room) (fullSize cfg) := by
    rw [eq_replicate_iff, length_map, length_drop, hlen]
    refine ⟨rfl, ?_⟩
    intro n hn
    obtain ⟨m, hm, rfl⟩ := mem_map.mp hn
    exact hfull m (mem_of_mem_drop hm)
  rw [← sum_size_overflow, hfrags, drop_append_of_le_length hle, map_append,
    sum_append, hmap, sum_replicate_nat, map_singleton, sum_singleton, hlast]

/-- For a large message the result tells the truth unless the remainder of the queue hides it. -/
theorem admitted_whole_large_iff (hopen : c.isOpen)
    (hlarge : cfg.isLarge payload.length) (hmax : payload.length ≤ cfg.maxMessageBytes) :
    ((c.sendReliable payload).2 = .admitted → c.Whole payload) ↔
      ¬ c.MasksRefusal payload.length := by
  rw [admitted_large_iff hopen hlarge hmax, whole_large_iff hopen hlarge hmax]
  simp only [MasksRefusal, hopen, hlarge, true_and]
  rcases lt_or_ge c.room (count cfg payload.length) with hlt | hge
  · rw [c.overflow_eq payload hlt]
    split <;> omega
  -- the window has room for the whole message: nothing is left over
  have hzero : count cfg payload.length - 1 - c.room = 0 := by omega
  have hover : c.overflow payload.length = 0 := by
    rw [← sum_size_overflow, drop_eq_nil_of_le (by simpa [fragments_eq] using hge)]
    rfl
  simp [hzero, hover]

/-! ## A message within one datagram -/

theorem sendReliable_small (hopen : c.isOpen) (hsmall : ¬ cfg.isLarge payload.length = true) :
    c.sendReliable payload = c.submit ⟨payload, false⟩ := by
  rw [sendReliable, hopen, if_neg (by decide), if_neg hsmall]

theorem placedSince_of_unchanged (hw : c'.windowed = c.windowed)
    (hp : c'.parked = c.parked) : c.placedSince c' = [] :=
  placedSince_of_append (hw.trans (append_nil _).symm) (hp.trans (append_nil _).symm)

theorem not_placed_of_unchanged (hw : c'.windowed = c.windowed)
    (hp : c'.parked = c.parked) {ms : List Message} (hms : ms ≠ []) : c.placedSince c' ≠ ms := by
  rw [placedSince_of_unchanged hw hp]
  exact hms.symm

theorem admitted_submit_iff (c : UdpChannel cfg) (m : Message) :
    (c.submit m).2 = .admitted ↔ c.placedSince (c.submit m).1 = [m] := by
  rcases Nat.eq_zero_or_pos c.room with hfull | hroom
  · rw [submit_of_full hfull, onWindowFull]
    split
    · exact iff_of_false (by simp) (not_placed_of_unchanged rfl rfl (cons_ne_nil m []))
    cases hq : c.backpressure.admitFrame m with
    | none => exact iff_of_false (by simp) (not_placed_of_unchanged rfl rfl (cons_ne_nil m []))
    | some q =>
      have hentries := (UdpBackpressureQueue.entries_admitFrame hq).1
      have hplaced : c.placedSince { c with arq := some c.engine, backpressure := q } = [] ++ [m] :=
        placedSince_of_append (append_nil c.windowed).symm hentries
      exact iff_of_true rfl hplaced
  · obtain ⟨hres, hwin, hqueue, -⟩ := submit_of_room hroom
    have hparked : (c.submit m).1.parked = c.parked ++ [] := by
      rw [parked, hqueue, append_nil, parked]
    exact iff_of_true hres (placedSince_of_append hwin hparked)

theorem whole_small_iff (hopen : c.isOpen) (hsmall : ¬ cfg.isLarge payload.length = true) :
    c.Whole payload ↔ (c.sendReliable payload).2 = .admitted := by
  rw [Whole, sendReliable_small hopen hsmall, segmentsOf, if_neg hsmall]
  exact (c.admitted_submit_iff _).symm

theorem submit_admitted_of_admits {m : Message} (hblock : cfg.congestion ≠ .dropNewest)
    (hadmits : c.backpressure.admits m.size) : (c.submit m).2 = .admitted := by
  rcases Nat.eq_zero_or_pos c.room with hfull | hroom
  · rw [submit_of_full hfull, onWindowFull, if_neg hblock]
    simp [UdpBackpressureQueue.admitFrame, hadmits]
  · exact (submit_of_room hroom).1

/-! ## Every message -/

theorem sendReliable_closed (hclosed : ¬ c.isOpen = true) :
    c.sendReliable payload = (c, .windowFull) := by
  rw [sendReliable, Bool.not_eq_true] at *
  rw [hclosed]
  rfl

theorem segmentsOf_ne_nil (c : UdpChannel cfg) (payload : Bytes) : c.segmentsOf payload ≠ [] := by
  obtain ⟨full, last, hfrags, -⟩ := c.fragments_eq_concat payload
  rw [segmentsOf, hfrags]
  split <;> simp

theorem sendReliable_oversize (hlarge : cfg.isLarge payload.length)
    (hgt : payload.length > cfg.maxMessageBytes) (hopen : c.isOpen) :
    c.sendReliable payload = (c.rejectOversize, .windowFull) := by
  rw [sendReliable, hopen, if_neg (by decide), if_pos hlarge, sendReliableLarge, if_pos hgt]

theorem not_whole_of_closed (hclosed : ¬ c.isOpen = true) : ¬ c.Whole payload := by
  rw [Whole, sendReliable_closed hclosed]
  exact not_placed_of_unchanged rfl rfl (c.segmentsOf_ne_nil payload)

theorem not_whole_of_oversize (hlarge : cfg.isLarge payload.length)
    (hgt : payload.length > cfg.maxMessageBytes) : ¬ c.Whole payload := by
  by_cases hopen : c.isOpen = true
  · rw [Whole, sendReliable_oversize hlarge hgt hopen]
    exact not_placed_of_unchanged rfl rfl (c.segmentsOf_ne_nil payload)
  · exact not_whole_of_closed hopen

theorem quiet_of_whole (h : c.Whole payload) : c.Quiet (c.sendReliable payload).1 := by
  by_cases hopen : c.isOpen = true
  · by_cases hlarge : cfg.isLarge payload.length = true
    · by_cases hmax : payload.length ≤ cfg.maxMessageBytes
      · have hfits := (whole_large_iff hopen hlarge hmax).mp h
        obtain ⟨hwin, -, hparked, -⟩ := submitAll_spec (c.fragments payload)
          (fun m hm => size_pos_of_mem_fragments hm) (c.readyToSplit, .admitted)
        have hall : fill Message.size c.parkingRoom ((c.fragments payload).drop c.room) = _ :=
          fill_of_sum_le Message.size (by rwa [sum_size_overflow])
        rw [sendReliable_large hopen hlarge hmax]
        refine (submitAll_held _ (c.readyToSplit, .admitted)).2 ?_
        have hlen := congrArg length (take_append_drop c.room (c.fragments payload))
        rw [length_append] at hlen
        rw [held, hwin, hparked, length_append, length_append]
        show _ + ((c.fragments payload).take c.room).length +
          (_ + (fill Message.size c.parkingRoom ((c.fragments payload).drop c.room)).length) = _
        rw [hall, held]
        omega
      · exact absurd h (not_whole_of_oversize hlarge (by omega))
    · rw [whole_small_iff hopen hlarge] at h
      rw [sendReliable_small hopen hlarge] at h ⊢
      rcases c.submit_held ⟨payload, false⟩ with ⟨-, hquiet⟩ | ⟨-, hfull⟩
      · exact hquiet
      · rw [hfull] at h
        cases h
  · exact absurd h (not_whole_of_closed hopen)

/-- The overflow of a message is within the queue's cap, or the message is a single segment. -/
def OverflowFits (c : UdpChannel cfg) (size : Nat) : Prop :=
  c.isOpen = true ∧ (cfg.isLarge size = true → c.overflow size ≤ cfg.byteCap)

instance (c : UdpChannel cfg) (size : Nat) : Decidable (c.OverflowFits size) :=
  inferInstanceAs (Decidable (_ ∧ _))

/-- A blocking channel with an empty queue keeps a message whole iff it is open and what the window
has no room for fits into the cap. -/
theorem whole_iff_of_empty (hblock : cfg.congestion = .block) (hempty : c.backpressure.empty)
    (hmax : payload.length ≤ cfg.maxMessageBytes) :
    c.Whole payload ↔ c.OverflowFits payload.length := by
  have hdrop : cfg.congestion ≠ .dropNewest := by simp [hblock]
  have hbytes : c.backpressure.bytes = 0 := by
    rw [c.backpressure.bytes_eq, isEmpty_iff.mp hempty]
    rfl
  have hroom : c.parkingRoom = cfg.byteCap := by
    rw [parkingRoom, if_neg hdrop, UdpBackpressureQueue.free, hbytes, Nat.sub_zero]
  by_cases hopen : c.isOpen = true
  · by_cases hlarge : cfg.isLarge payload.length = true
    · rw [whole_large_iff hopen hlarge hmax, hroom]
      simp [OverflowFits, hopen, hlarge]
    · have hadmits : c.backpressure.admits payload.length := by
        have := cfg.byteCap_pos
        have := cfg.maxMessageBytes_le_byteCap
        simp only [UdpBackpressureQueue.admits, Bool.and_eq_true, decide_eq_true_eq]
        omega
      have hadmitted := submit_admitted_of_admits (m := ⟨payload, false⟩) hdrop hadmits
      rw [whole_small_iff hopen hlarge, sendReliable_small hopen hlarge]
      exact iff_of_true hadmitted ⟨hopen, fun h => absurd h hlarge⟩
  · exact iff_of_false (not_whole_of_closed hopen) (fun h => hopen h.1)

/-- A result of `admitted` means a whole message iff no refusal is masked. -/
theorem admitted_whole_iff (c : UdpChannel cfg) (payload : Bytes) :
    ((c.sendReliable payload).2 = .admitted → c.Whole payload) ↔
      ¬ c.MasksRefusal payload.length := by
  by_cases hopen : c.isOpen = true
  · by_cases hlarge : cfg.isLarge payload.length = true
    · by_cases hmax : payload.length ≤ cfg.maxMessageBytes
      · exact admitted_whole_large_iff hopen hlarge hmax
      · -- over the ceiling: rejected, and reported as such
        rw [sendReliable_oversize hlarge (by omega) hopen]
        exact iff_of_true (fun h => (nomatch h)) (fun h => hmax h.2.2.1)
    · exact iff_of_true (whole_small_iff hopen hlarge).mpr (fun h => hlarge h.2.1)
  · rw [sendReliable_closed hopen]
    exact iff_of_true (fun h => (nomatch h)) (fun h => hopen h.1)

/-- **When a reliable send keeps its message whole, and when its result says so.** On a blocking
channel with nothing parked a message within the ceiling is kept whole iff the channel is open and
the fragments the window cannot take fit into the queue with their sub-headers; and in any state the
result `admitted` means that the message is whole iff the remainder of the queue does not let the
last fragment in after a refused one. -/
theorem sendReliable_whole_iff (cfg : UdpChannelConfig) (c : UdpChannel cfg) (payload : Bytes) :
    (cfg.congestion = .block → c.backpressure.empty = true →
      payload.length ≤ cfg.maxMessageBytes → (c.Whole payload ↔ c.OverflowFits payload.length)) ∧
    (((c.sendReliable payload).2 = .admitted → c.Whole payload) ↔
      ¬ c.MasksRefusal payload.length) :=
  ⟨whole_iff_of_empty, c.admitted_whole_iff payload⟩

/-- A window of one segment and a ceiling of 257 bytes over fragments of 128. -/
def narrow : UdpChannelConfig :=
  { maxPayload := 141, arq := { window := 1 }, backpressureBytes := 0, maxMessageBytes := 257 }

/-- A fresh channel keeps a message of two fragments whole: one in the window, one in the queue. -/
theorem sendReliable_whole_narrow :
    ({} : UdpChannel narrow).Whole (List.replicate 200 7) :=
  ((sendReliable_whole_iff narrow {} (.replicate 200 7)).1 rfl rfl (by decide +kernel)).mpr
    (by decide +kernel)

/-- A message of exactly the ceiling loses its second fragment to `would_block`, and the send
reports that it was admitted. -/
theorem sendReliable_loses_fragment :
    let c := ({} : UdpChannel narrow).send [0]
    let r := c.sendReliable (List.replicate 257 7)
    narrow.congestion = .block ∧ 141 ≤ narrow.maxPayload ∧ c.isOpen = true ∧
      c.backpressure.empty = true ∧ (List.replicate 257 7).length ≤ narrow.maxMessageBytes ∧
      ¬ c.Whole (List.replicate 257 7) ∧ r.1.errors = [.wouldBlock] ∧ r.2 = .admitted := by
  decide +kernel

end UdpChannel

end Plexus.Datagram
