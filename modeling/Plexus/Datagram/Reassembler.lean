/-
# Plexus.Datagram.Reassembler — putting fragments together again (`datagram/detail/reassembler.h`,
`datagram/detail/reassembler_flat_map.h`).

Fragments are kept by message id, in a sorted vector, until all of a message are there. With the
fragments of one message the reassembler does what a collector does with a set (`feed_gathered`):
any order, duplicates, delivery with the last missing one. Then the entry is gone, and the next
duplicate opens it again. The sender bounds a message by its bytes, the receiver also by the number
of its fragments.
-/
import Mathlib.Algebra.Order.BigOperators.Group.Finset
import Mathlib.Data.List.TakeWhile
import Plexus.Io.Fragmentation
import Plexus.Lib.Collector
import Plexus.Lib.Run

namespace Plexus.Datagram

open Lib Io List

/-! ## `reassembler_flat_map.h` -/

/-- Entries sorted by their key. -/
structure FlatMap (β : Type) where
  maxEntries : Nat
  entries : List (UInt16 × β) := []

namespace FlatMap

variable {β : Type} (m : FlatMap β)

/-- The first entry that is not below the key; the entries are sorted. -/
def lowerBound (key : UInt16) : Nat := (m.entries.takeWhile (·.1 < key)).length

def find (key : UInt16) : Option β :=
  match m.entries[m.lowerBound key]? with
  | some (k, value) => if k = key then some value else none
  | none => none

def emplace (key : UInt16) (value : β) : Option (FlatMap β) :=
  if m.entries.length ≥ m.maxEntries then none
  else some { m with entries := m.entries.insertIdx (m.lowerBound key) (key, value) }

/-- What is written through the iterator that `find` returned. -/
def update (key : UInt16) (value : β) : FlatMap β :=
  { m with entries := m.entries.set (m.lowerBound key) (key, value) }

def erase (key : UInt16) : FlatMap β :=
  { m with entries := m.entries.eraseIdx (m.lowerBound key) }

end FlatMap

def capImpliedMaxPartials (totalMemoryCap minEntryCost : Nat) : Nat := totalMemoryCap / minEntryCost + 1

/-! ## `reassembler.h` -/

/-- `max_fragment_count`: the largest message of 4 MiB at the smallest slice. -/
def maxFragmentCount : Nat := (4 * 1024 * 1024 + minFragmentPayload - 1) / minFragmentPayload

structure ReassemblerConfig where
  maxMessageSize : Nat := 8 * 1024 * 1024
  totalMemoryCap : Nat := 16 * 1024 * 1024
  deriving DecidableEq

inductive ReassemblyOutcome
  | admitted | completed | droppedMalformed | droppedCap
  deriving DecidableEq

inductive ReassemblyDrop
  | malformed | reassemblyCap | reassemblyEvicted
  deriving DecidableEq

/-- A vector takes 24 bytes, a flag one bit. -/
def structuralCost (fragCnt : Nat) : Nat := fragCnt * 24 + (fragCnt + 7) / 8

/-- A message of which not all fragments are there. -/
structure PartialEntry where
  slots : List Bytes
  present : List Bool
  received : Nat := 0
  size : Nat := 0
  overhead : Nat
  deriving DecidableEq

/-- An entry as it is opened. -/
def PartialEntry.opened (fragCnt : Nat) : PartialEntry :=
  { slots := replicate fragCnt [], present := replicate fragCnt false
    overhead := structuralCost fragCnt }

/-- The partial messages, and the memory they are charged with. -/
structure Reassembler where
  cfg : ReassemblerConfig
  table : FlatMap PartialEntry
  held : Nat := 0
  dead : Bool := false
  delivered : List Bytes := []
  drops : List ReassemblyDrop := []

namespace Reassembler

def fresh (cfg : ReassemblerConfig) : Reassembler :=
  { cfg, table := { maxEntries := capImpliedMaxPartials cfg.totalMemoryCap (structuralCost 1) } }

variable (r : Reassembler) (msgId : UInt16)

def evict : Reassembler :=
  match r.table.find msgId with
  | none => r
  | some e => { r with held := r.held - (e.size + e.overhead), table := r.table.erase msgId }

def assembleAndEvict (e : PartialEntry) : Reassembler :=
  ({ r with delivered := r.delivered ++ [e.slots.flatten] } : Reassembler).evict msgId

def store (e : PartialEntry) (msgId : UInt16) (fragIdx : Nat) (bytes : Bytes) :
    ReassemblyOutcome × Reassembler :=
  if fragIdx ≥ e.slots.length then (.droppedMalformed, r)
  else if e.present.getD fragIdx false then (.admitted, r)
  else if e.size + bytes.length > r.cfg.maxMessageSize ∨ r.held + bytes.length > r.cfg.totalMemoryCap then
    (.droppedMalformed, r)
  else
    let e := { e with slots := e.slots.set fragIdx bytes, present := e.present.set fragIdx true
                      size := e.size + bytes.length, received := e.received + 1 }
    let r := { r with table := r.table.update msgId e, held := r.held + bytes.length }
    if e.received < e.slots.length then (.admitted, r) else (.completed, r.assembleAndEvict msgId e)

/-- The entry, if the cap and the table have room for it. -/
def openEntry (fragCnt payload : Nat) : Option Reassembler :=
  if r.held + structuralCost fragCnt + payload > r.cfg.totalMemoryCap then none
  else
    (r.table.emplace msgId (.opened fragCnt)).map fun table =>
      { r with table, held := r.held + structuralCost fragCnt }

def admitFragment (fragIdx fragCnt : Nat) (bytes : Bytes) : ReassemblyOutcome × Reassembler :=
  match r.table.find msgId with
  | some e => r.store e msgId fragIdx bytes
  | none =>
    match r.openEntry msgId fragCnt bytes.length with
    | none => (.droppedCap, r)
    | some r => r.store (.opened fragCnt) msgId fragIdx bytes

def emitDrop (cause : ReassemblyDrop) : Reassembler :=
  { r with drops := r.drops ++ [cause] }

/-- A dropped fragment is reported. -/
def report : ReassemblyOutcome × Reassembler → ReassemblyOutcome × Reassembler
  | (.droppedMalformed, r) => (.droppedMalformed, r.emitDrop .malformed)
  | (.droppedCap, r) => (.droppedCap, r.emitDrop .reassemblyCap)
  | out => out

def feed (fragIdx fragCnt : UInt32) (bytes : Bytes) : ReassemblyOutcome × Reassembler :=
  report
    (if fragCnt = 0 ∨ fragIdx ≥ fragCnt ∨ fragCnt.toNat > maxFragmentCount then (.droppedMalformed, r)
    else r.admitFragment msgId fragIdx.toNat fragCnt.toNat bytes)

/-- What a timer's handler does when its wait ends by itself. -/
def expire : Reassembler :=
  if r.dead then r else (r.evict msgId).emitDrop .reassemblyEvicted

def cancel : Reassembler := { r with dead := true }

end Reassembler

inductive ReassemblerEvent
  | feed (msgId : UInt16) (fragIdx fragCnt : UInt32) (bytes : Bytes)
  | expire (msgId : UInt16)
  | cancel
  deriving DecidableEq

namespace Reassembler

def step (r : Reassembler) : ReassemblerEvent → Reassembler
  | .feed msgId fragIdx fragCnt bytes => (r.feed msgId fragIdx fragCnt bytes).2
  | .expire msgId => r.expire msgId
  | .cancel => r.cancel

def run (r : Reassembler) (events : List ReassemblerEvent) : Reassembler := events.foldl step r

/-- The fragments of one message, as they arrive. -/
def feedAll (r : Reassembler) (msgId : UInt16) (arrivals : List Fragment) : Reassembler :=
  r.run (arrivals.map fun f => .feed msgId f.idx f.cnt f.slice)

theorem feedAll_cons (r : Reassembler) (msgId : UInt16) (f : Fragment) (arrivals : List Fragment) :
    r.feedAll msgId (f :: arrivals) = (r.feed msgId f.idx f.cnt f.slice).2.feedAll msgId arrivals :=
  rfl

end Reassembler

/-! ## The sorted table -/

namespace FlatMap

variable {β : Type} {m m' : FlatMap β} {key : UInt16} {value value' : β}
  {pre post : List (UInt16 × β)} {p : UInt16 × β}

/-- The place of a key: what is below it, and the rest. -/
structure Gap (m : FlatMap β) (key : UInt16) (pre post : List (UInt16 × β)) : Prop where
  entries : m.entries = pre ++ post
  below : ∀ p ∈ pre, p.1 < key
  head : ∀ p ∈ post.head?, ¬ p.1 < key

/-- The entry of a key, with what stands before and behind it. -/
abbrev At (m : FlatMap β) (key : UInt16) (value : β) (pre post : List (UInt16 × β)) : Prop :=
  m.Gap key pre ((key, value) :: post)

theorem exists_gap (m : FlatMap β) (key : UInt16) : ∃ pre post, m.Gap key pre post := by
  refine ⟨m.entries.takeWhile (·.1 < key), m.entries.dropWhile (·.1 < key),
    (takeWhile_append_dropWhile ..).symm, fun p hp => ?_, fun p hp => ?_⟩
  · simpa using mem_takeWhile_imp hp
  · have hnot := head?_dropWhile_not (fun q : UInt16 × β => decide (q.1 < key)) m.entries
    rw [Option.mem_def.mp hp] at hnot
    simpa using hnot

theorem Gap.lowerBound (h : m.Gap key pre post) : m.lowerBound key = pre.length := by
  rw [FlatMap.lowerBound, h.entries, takeWhile_append_of_pos fun p hp => decide_eq_true (h.below p hp)]
  cases post with
  | nil => rw [takeWhile_nil, append_nil]
  | cons p post =>
    have hnot := h.head p rfl
    rw [takeWhile_cons_of_neg (by simpa using hnot), append_nil]

theorem Gap.find (h : m.Gap key pre post) :
    m.find key = (post.head?.filter (·.1 = key)).map Prod.snd := by
  rw [FlatMap.find, h.lowerBound, h.entries, List.getElem?_append_right (Nat.le_refl _), Nat.sub_self]
  cases post with
  | nil => rfl
  | cons p post =>
    obtain ⟨k, v⟩ := p
    by_cases hkey : k = key
    · simp [hkey]
    · simp [hkey]

theorem At.find (h : m.At key value pre post) : m.find key = some value := by
  rw [Gap.find h]
  simp

theorem at_of_find (h : m.find key = some value) : ∃ pre post, m.At key value pre post := by
  obtain ⟨pre, post, hgap⟩ := m.exists_gap key
  rw [hgap.find, Option.map_eq_some_iff] at h
  obtain ⟨p, hp, rfl⟩ := h
  obtain ⟨hhead, hkey⟩ := Option.filter_eq_some_iff.mp hp
  obtain ⟨rest, rfl⟩ := head?_eq_some_iff.mp hhead
  obtain rfl : p.1 = key := by simpa using hkey
  exact ⟨pre, rest, hgap⟩

theorem mem_of_find (h : m.find key = some value) : (key, value) ∈ m.entries := by
  obtain ⟨pre, post, hat⟩ := at_of_find h
  rw [hat.entries]
  exact mem_append_right _ mem_cons_self

theorem not_lt_key (p : UInt16 × β) (hp : p ∈ ((key, value) :: post).head?) : ¬ p.1 < key := by
  obtain rfl := Option.some.inj hp
  exact UInt16.lt_irrefl key

section

variable (h : m.At key value pre post)
include h

theorem At.update : (m.update key value').At key value' pre post := by
  refine ⟨?_, h.below, not_lt_key⟩
  rw [FlatMap.update, h.lowerBound, h.entries, set_append_right _ _ (Nat.le_refl _), Nat.sub_self]
  rfl

theorem At.erase : m.erase key = { m with entries := pre ++ post } := by
  rw [FlatMap.erase, h.lowerBound, h.entries, eraseIdx_append_of_length_le (Nat.le_refl _),
    Nat.sub_self]
  rfl

theorem At.erase_update (value' : β) : (m.update key value').erase key = m.erase key := by
  have hupdate : (m.update key value').At key value' pre post := At.update h
  rw [At.erase h, At.erase hupdate]
  rfl

end

theorem insertIdx_length_append (p : UInt16 × β) (pre post : List (UInt16 × β)) :
    (pre ++ post).insertIdx pre.length p = pre ++ p :: post := by
  induction pre with
  | nil => rfl
  | cons q pre ih => rw [cons_append, length_cons, insertIdx_succ_cons, ih, cons_append]

theorem at_of_emplace (hm : m.emplace key value = some m') :
    ∃ pre post, m.Gap key pre post ∧ m'.At key value pre post := by
  obtain ⟨pre, post, hgap⟩ := m.exists_gap key
  rw [emplace] at hm
  split at hm
  · cases hm
  obtain rfl := Option.some.inj hm
  refine ⟨pre, post, hgap, ?_, hgap.below, not_lt_key⟩
  show m.entries.insertIdx (m.lowerBound key) (key, value) = _
  rw [hgap.lowerBound, hgap.entries, insertIdx_length_append]

theorem mem_update (h : p ∈ (m.update key value).entries) : p ∈ m.entries ∨ p = (key, value) :=
  mem_or_eq_of_mem_set h

theorem mem_erase (h : p ∈ (m.erase key).entries) : p ∈ m.entries := mem_of_mem_eraseIdx h

theorem mem_emplace (hm : m.emplace key value = some m') (h : p ∈ m'.entries) :
    p ∈ m.entries ∨ p = (key, value) := by
  obtain ⟨pre, post, hgap, hat⟩ := at_of_emplace hm
  rw [hat.entries] at h
  rw [hgap.entries, mem_append]
  rcases mem_append.mp h with hpre | hpost
  · exact .inl (.inl hpre)
  · exact (mem_cons.mp hpost).symm.imp_left .inr

end FlatMap

/-! ## What a call can do -/

/-- A fragment as it is fed. -/
structure FedFragment where
  msgId : UInt16
  fragIdx : UInt32
  fragCnt : UInt32
  bytes : Bytes
  deriving DecidableEq

/-- The entry with one more slice, as `store` writes it. -/
def PartialEntry.withSlice (e : PartialEntry) (fragIdx : Nat) (bytes : Bytes) : PartialEntry :=
  { e with slots := e.slots.set fragIdx bytes, present := e.present.set fragIdx true
           size := e.size + bytes.length, received := e.received + 1 }

/-- The verdicts of a fragment that is not taken. -/
def ReassemblyOutcome.dropped : ReassemblyOutcome → Bool
  | .droppedMalformed | .droppedCap => true
  | .admitted | .completed => false

namespace Reassembler

variable {r r' : Reassembler} {msgId : UInt16} {e : PartialEntry} {fragIdx : Nat} {bytes : Bytes}
  {P : Bytes → Prop}

/-- Whether the fragment opens a message. -/
def opens (r : Reassembler) (f : FedFragment) : Bool :=
  ¬(f.fragCnt = 0 ∨ f.fragIdx ≥ f.fragCnt ∨ f.fragCnt.toNat > maxFragmentCount) &&
    (r.table.find f.msgId).isNone && (r.openEntry f.msgId f.fragCnt.toNat f.bytes.length).isSome

def feedFragment (r : Reassembler) (f : FedFragment) : ReassemblyOutcome × Reassembler :=
  r.feed f.msgId f.fragIdx f.fragCnt f.bytes

/-- The slot is there and empty, and the limits allow the slice. -/
structure Fits (r : Reassembler) (e : PartialEntry) (fragIdx : Nat) (bytes : Bytes) : Prop where
  slot : fragIdx < e.slots.length
  empty : e.present.getD fragIdx false ≠ true
  ceiling : e.size + bytes.length ≤ r.cfg.maxMessageSize
  memory : r.held + bytes.length ≤ r.cfg.totalMemoryCap

/-- The reassembler with an entry written back and so many bytes more. -/
def keep (r : Reassembler) (msgId : UInt16) (e : PartialEntry) (bytes : Nat) : Reassembler :=
  { r with table := r.table.update msgId e, held := r.held + bytes }

/-- **What `store` can do**: refuse, ignore a duplicate, keep the slice, or complete the message. -/
theorem store_cases (r : Reassembler) (e : PartialEntry) (msgId : UInt16) (fragIdx : Nat)
    (bytes : Bytes) :
    (r.store e msgId fragIdx bytes = (.droppedMalformed, r) ∧
        (e.slots.length ≤ fragIdx ∨ r.cfg.maxMessageSize < e.size + bytes.length ∨
          r.cfg.totalMemoryCap < r.held + bytes.length)) ∨
      (r.store e msgId fragIdx bytes = (.admitted, r) ∧ e.present.getD fragIdx false = true) ∨
      (r.Fits e fragIdx bytes ∧ r.store e msgId fragIdx bytes =
        if e.received + 1 < e.slots.length then
          (.admitted, r.keep msgId (e.withSlice fragIdx bytes) bytes.length)
        else
          (.completed, (r.keep msgId (e.withSlice fragIdx bytes) bytes.length).assembleAndEvict msgId
            (e.withSlice fragIdx bytes))) := by
  rw [Reassembler.store]
  by_cases hidx : fragIdx ≥ e.slots.length
  · rw [if_pos hidx]
    exact .inl ⟨rfl, .inl hidx⟩
  rw [if_neg hidx]
  by_cases hflag : e.present.getD fragIdx false = true
  · rw [if_pos hflag]
    exact .inr (.inl ⟨rfl, hflag⟩)
  rw [if_neg hflag]
  by_cases hover : e.size + bytes.length > r.cfg.maxMessageSize ∨
      r.held + bytes.length > r.cfg.totalMemoryCap
  · rw [if_pos hover]
    exact .inl ⟨rfl, .inr hover⟩
  rw [if_neg hover]
  rw [not_or, not_lt, not_lt] at hover
  refine .inr (.inr ⟨⟨not_le.mp hidx, hflag, hover.1, hover.2⟩, ?_⟩)
  dsimp only
  rw [length_set]
  rfl

theorem assembleAndEvict_keep {e e' : PartialEntry} (hfind : r.table.find msgId = some e) (n : Nat) :
    (r.keep msgId e' n).assembleAndEvict msgId e' =
      { r with table := r.table.erase msgId, held := r.held + n - (e'.size + e'.overhead)
               delivered := r.delivered ++ [e'.slots.flatten] } := by
  obtain ⟨pre, post, hat⟩ := FlatMap.at_of_find hfind
  have hfind' : (r.table.update msgId e').find msgId = some e' := FlatMap.At.find (FlatMap.At.update hat)
  rw [assembleAndEvict, Reassembler.evict]
  simp only [keep, hfind', FlatMap.At.erase_update hat]

theorem openEntry_eq_some {fragCnt payload : Nat} (hopen : r.openEntry msgId fragCnt payload = some r') :
    r.held + structuralCost fragCnt + payload ≤ r.cfg.totalMemoryCap ∧
      ∃ table, r.table.emplace msgId (.opened fragCnt) = some table ∧
        r' = { r with table, held := r.held + structuralCost fragCnt } := by
  rw [Reassembler.openEntry] at hopen
  split at hopen
  · cases hopen
  · rename_i hcap
    obtain ⟨table, htable, rfl⟩ := Option.map_eq_some_iff.mp hopen
    exact ⟨not_lt.mp hcap, table, htable, rfl⟩

theorem report_eq (out : ReassemblyOutcome × Reassembler) :
    ∃ drops, report out = (out.1, { out.2 with drops }) := by
  obtain ⟨o, r⟩ := out
  cases o with
  | admitted | completed => exact ⟨r.drops, rfl⟩
  | droppedMalformed | droppedCap => exact ⟨_, rfl⟩

/-- **A fragment** is refused before it is looked up, or goes to the open message of its id, or opens
one. -/
theorem feedFragment_cases (r : Reassembler) (f : FedFragment) :
    (r.opens f = false ∧ ∃ o, o.dropped = true ∧ r.feedFragment f = report (o, r)) ∨
      (r.opens f = false ∧ ∃ e, r.table.find f.msgId = some e ∧
        r.feedFragment f = report (r.store e f.msgId f.fragIdx.toNat f.bytes)) ∨
      (r.opens f = true ∧ (f.fragIdx.toNat < f.fragCnt.toNat ∧ f.fragCnt.toNat ≤ maxFragmentCount) ∧
        r.table.find f.msgId = none ∧
        ∃ r', r.openEntry f.msgId f.fragCnt.toNat f.bytes.length = some r' ∧
          r.feedFragment f =
            report (r'.store (.opened f.fragCnt.toNat) f.msgId f.fragIdx.toNat f.bytes)) := by
  rw [feedFragment, feed, opens]
  by_cases hcheck : f.fragCnt = 0 ∨ f.fragIdx ≥ f.fragCnt ∨ f.fragCnt.toNat > maxFragmentCount
  · rw [if_pos hcheck]
    exact .inl ⟨by simp [hcheck], .droppedMalformed, rfl, rfl⟩
  rw [if_neg hcheck, admitFragment]
  cases hfind : r.table.find f.msgId with
  | some e => exact .inr (.inl ⟨by simp, e, rfl, rfl⟩)
  | none =>
    cases hopen : r.openEntry f.msgId f.fragCnt.toNat f.bytes.length with
    | none => exact .inl ⟨by simp, .droppedCap, rfl, rfl⟩
    | some r' =>
      refine .inr (.inr ⟨by simp [hcheck], ?_, rfl, r', rfl, rfl⟩)
      rw [not_or, not_or, ge_iff_le, UInt32.not_le, UInt32.lt_iff_toNat_lt, not_lt] at hcheck
      exact hcheck.2

/-- The changes of a reassembler; `P` is what is known of the slices it is fed. -/
inductive Move (P : Bytes → Prop) (r : Reassembler) : Reassembler → Prop
  | noted (drops : List ReassemblyDrop) (dead : Bool) : Move P r { r with drops, dead }
  | opened {msgId : UInt16} {fragCnt : Nat} {table : FlatMap PartialEntry} (hpos : 0 < fragCnt)
      (hcnt : fragCnt ≤ maxFragmentCount) (hnone : r.table.find msgId = none)
      (hcap : r.held + structuralCost fragCnt ≤ r.cfg.totalMemoryCap)
      (htable : r.table.emplace msgId (.opened fragCnt) = some table) :
      Move P r { r with table, held := r.held + structuralCost fragCnt }
  | kept {msgId : UInt16} {e : PartialEntry} {fragIdx : Nat} {bytes : Bytes}
      (hfind : r.table.find msgId = some e) (hbytes : P bytes) (hfits : r.Fits e fragIdx bytes)
      (hmissing : e.received + 1 < e.slots.length) :
      Move P r (r.keep msgId (e.withSlice fragIdx bytes) bytes.length)
  | completed {msgId : UInt16} {e : PartialEntry} {fragIdx : Nat} {bytes : Bytes}
      (hfind : r.table.find msgId = some e) (hbytes : P bytes) (hfits : r.Fits e fragIdx bytes)
      (hfull : ¬ e.received + 1 < e.slots.length) :
      Move P r { r with table := r.table.erase msgId
                        held := r.held + bytes.length - (e.size + bytes.length + e.overhead)
                        delivered := r.delivered ++ [(e.withSlice fragIdx bytes).slots.flatten] }
  | evicted {msgId : UInt16} {e : PartialEntry} (hfind : r.table.find msgId = some e) :
      Move P r { r with table := r.table.erase msgId, held := r.held - (e.size + e.overhead) }

theorem moves_store (hfind : r.table.find msgId = some e) (hbytes : P bytes) :
    Relation.ReflTransGen (Move P) r (r.store e msgId fragIdx bytes).2 := by
  rcases r.store_cases e msgId fragIdx bytes with ⟨hout, -⟩ | ⟨hout, -⟩ | ⟨hfits, hout⟩
  · rw [hout]
  · rw [hout]
  rw [hout]
  split
  · rename_i hmissing
    exact .single (.kept hfind hbytes hfits hmissing)
  · rename_i hfull
    rw [assembleAndEvict_keep hfind]
    exact .single (.completed hfind hbytes hfits hfull)

theorem moves_feed (r : Reassembler) {f : FedFragment} (hbytes : P f.bytes) :
    Relation.ReflTransGen (Move P) r (r.feedFragment f).2 := by
  have hreport : ∀ out : ReassemblyOutcome × Reassembler,
      Relation.ReflTransGen (Move P) out.2 (report out).2 := by
    intro out
    obtain ⟨drops, hout⟩ := report_eq out
    rw [hout]
    exact .single (.noted drops out.2.dead)
  rcases r.feedFragment_cases f with ⟨-, o, -, hfeed⟩ | ⟨-, e, hfind, hfeed⟩ |
      ⟨-, ⟨hidx, hcnt⟩, hnone, r', hopen, hfeed⟩
  · rw [hfeed]
    exact hreport (o, r)
  · rw [hfeed]
    exact (moves_store hfind hbytes).trans (hreport _)
  obtain ⟨hcap, table, htable, rfl⟩ := openEntry_eq_some hopen
  obtain ⟨pre, post, -, hat⟩ := FlatMap.at_of_emplace htable
  rw [hfeed]
  refine .head (.opened (Nat.zero_lt_of_lt hidx) hcnt hnone (Nat.le_of_add_right_le hcap) htable) ?_
  exact (moves_store (FlatMap.At.find hat) hbytes).trans (hreport _)

/-- **What every change keeps, every call keeps.** -/
theorem step_invariant (inv : Reassembler → Prop) (hmove : ∀ r r', inv r → Move P r r' → inv r')
    (event : ReassemblerEvent)
    (hbytes : ∀ msgId fragIdx fragCnt bytes, event = .feed msgId fragIdx fragCnt bytes → P bytes)
    (h : inv r) : inv (r.step event) := by
  have hmoves : Relation.ReflTransGen (Move P) r (r.step event) := by
    cases event with
    | feed msgId fragIdx fragCnt bytes =>
      exact moves_feed r (f := ⟨msgId, fragIdx, fragCnt, bytes⟩) (hbytes _ _ _ _ rfl)
    | cancel => exact .single (.noted r.drops true)
    | expire msgId =>
      show Relation.ReflTransGen (Move P) r (r.expire msgId)
      rw [expire]
      split
      · exact .refl
      rw [Reassembler.evict]
      split
      · exact .single (.noted _ _)
      · rename_i e hfind
        exact .head (.evicted hfind) (.single (.noted _ _))
  generalize r.step event = after at hmoves
  induction hmoves with
  | refl => exact h
  | tail _ hlast ih => exact hmove _ _ ih hlast

end Reassembler

/-! ## How long a message can be -/

/-- So many slots, with at most `b` bytes in each. -/
def PartialEntry.Slim (b : Nat) (e : PartialEntry) : Prop :=
  e.slots.length ≤ maxFragmentCount ∧ ∀ slot ∈ e.slots, slot.length ≤ b

namespace PartialEntry

variable {b : Nat} {e : PartialEntry}

theorem Slim.length_le (h : e.Slim b) : e.slots.flatten.length ≤ maxFragmentCount * b := by
  rw [length_flatten]
  calc (e.slots.map length).sum ≤ (e.slots.map length).length • b := by
        apply sum_le_card_nsmul
        intro n hn
        obtain ⟨slot, hslot, rfl⟩ := mem_map.mp hn
        exact h.2 slot hslot
    _ ≤ maxFragmentCount * b := by
        rw [List.length_map]
        exact Nat.mul_le_mul_right b h.1

theorem Slim.withSlice (h : e.Slim b) (fragIdx : Nat) {bytes : Bytes} (hbytes : bytes.length ≤ b) :
    (e.withSlice fragIdx bytes).Slim b := by
  refine ⟨(length_set ..).trans_le h.1, fun slot hslot => ?_⟩
  rcases mem_or_eq_of_mem_set hslot with hold | rfl
  · exact h.2 slot hold
  · exact hbytes

end PartialEntry

namespace Reassembler

variable {r r' : Reassembler} {b : Nat}

structure Slim (b : Nat) (r : Reassembler) : Prop where
  entries : ∀ p ∈ r.table.entries, p.2.Slim b
  delivered : ∀ message ∈ r.delivered, message.length ≤ maxFragmentCount * b

theorem slim_fresh (cfg : ReassemblerConfig) (b : Nat) : (fresh cfg).Slim b where
  entries := forall_mem_nil _
  delivered := forall_mem_nil _

theorem Slim.move (h : r.Slim b) (hm : Move (·.length ≤ b) r r') : r'.Slim b := by
  cases hm with
  | noted => exact ⟨h.entries, h.delivered⟩
  | opened _ hcnt _ _ htable =>
    refine ⟨fun p hp => ?_, h.delivered⟩
    rcases FlatMap.mem_emplace htable hp with hold | rfl
    · exact h.entries p hold
    · refine ⟨length_replicate.trans_le hcnt, fun slot hslot => ?_⟩
      rw [(mem_replicate.mp hslot).2]
      exact Nat.zero_le _
  | kept hfind hbytes _ _ =>
    refine ⟨fun p hp => ?_, h.delivered⟩
    rcases FlatMap.mem_update hp with hold | rfl
    · exact h.entries p hold
    · exact (h.entries _ (FlatMap.mem_of_find hfind)).withSlice _ hbytes
  | completed hfind hbytes _ _ =>
    refine ⟨fun p hp => h.entries p (FlatMap.mem_erase hp),
      forall_mem_append.mpr ⟨h.delivered, forall_mem_singleton.mpr ?_⟩⟩
    exact ((h.entries _ (FlatMap.mem_of_find hfind)).withSlice _ hbytes).length_le
  | evicted => exact ⟨fun p hp => h.entries p (FlatMap.mem_erase hp), h.delivered⟩

/-- **No delivered message is longer** than the fragments it may have, over any run with slices of at
most `b` bytes. -/
theorem Slim.run (h : r.Slim b) {events : List ReassemblerEvent}
    (hevents : ∀ e ∈ events, ∀ msgId fragIdx fragCnt bytes, e = .feed msgId fragIdx fragCnt bytes →
      bytes.length ≤ b) : (r.run events).Slim b := by
  induction events generalizing r with
  | nil => exact h
  | cons e events ih =>
    have hstep : (r.step e).Slim b := step_invariant (P := (·.length ≤ b)) (Slim b) (fun _ _ h hm => h.move hm) e
      (hevents e mem_cons_self) h
    exact ih hstep fun e' he' => hevents e' (mem_cons_of_mem _ he')

end Reassembler

/-! ## One message -/

/-- The bytes of a slice. -/
abbrev sliceBudget (transportBudget : Nat) (aead : Bool) : Nat := effectiveFragmentBudget transportBudget aead

/-- How many fragments the message is cut into. -/
abbrev fragmentsOf (payload : Bytes) (transportBudget : Nat) (aead : Bool) : Nat :=
  fragmentCount payload.length (sliceBudget transportBudget aead)

/-- What is needed of the limits: the receiver's ceiling is the sender's, and there is memory for the
message and its entry. -/
structure Room (payload : Bytes) (transportBudget : Nat) (aead : Bool) (cfg : ReassemblerConfig) :
    Prop where
  accepted : payload.length ≤ cfg.maxMessageSize
  memory : structuralCost (fragmentsOf payload transportBudget aead) + payload.length ≤ cfg.totalMemoryCap

/-- A message in fragments that know their place and how many there are, within the limits. -/
structure Cut (cfg : ReassemblerConfig) (payload : Bytes) (frags : List Fragment) : Prop where
  pos : 0 < frags.length
  count_le : frags.length ≤ maxFragmentCount
  place : ∀ (i : Nat) (f : Fragment), frags[i]? = some f → f.idx.toNat = i ∧ f.cnt.toNat = frags.length
  whole : frags.flatMap Fragment.slice = payload
  accepted : payload.length ≤ cfg.maxMessageSize
  memory : structuralCost frags.length + payload.length ≤ cfg.totalMemoryCap

theorem length_split (payload : Bytes) (transportBudget : Nat) (aead : Bool) :
    (split payload transportBudget aead).length = fragmentsOf payload transportBudget aead := by
  simp [split]

variable {transportBudget : Nat}

theorem place_split {payload : Bytes} {aead : Bool}
    (hn : fragmentsOf payload transportBudget aead < 2 ^ 32) {i : Nat} {f : Fragment}
    (hi : (split payload transportBudget aead)[i]? = some f) :
    f.idx.toNat = i ∧ f.cnt.toNat = (split payload transportBudget aead).length := by
  rw [length_split]
  rw [split, List.getElem?_map, Option.map_eq_some_iff] at hi
  obtain ⟨j, hj, rfl⟩ := hi
  obtain ⟨hlt, rfl⟩ := List.getElem?_eq_some_iff.mp hj
  rw [List.length_range] at hlt
  rw [List.getElem_range]
  exact ⟨UInt32.toNat_ofNat_of_lt' (lt_trans hlt hn), UInt32.toNat_ofNat_of_lt' hn⟩

theorem cut_split {payload : Bytes} {aead : Bool} {cfg : ReassemblerConfig}
    (hroom : Room payload transportBudget aead cfg)
    (hn : fragmentsOf payload transportBudget aead ≤ maxFragmentCount) :
    Cut cfg payload (split payload transportBudget aead) := by
  have hlen := length_split payload transportBudget aead
  refine ⟨?_, hlen.trans_le hn, fun i f hi => place_split (lt_of_le_of_lt hn (by decide)) hi,
    flatMap_slice_split .., hroom.accepted, ?_⟩
  · rw [hlen]
    exact fragmentCount_pos _ (effectiveFragmentBudget_pos transportBudget aead)
  · rw [hlen]
    exact hroom.memory

theorem set_map_of_getElem? {α β : Type} [DecidableEq α] {l : List α} (hnodup : l.Nodup) {i : Nat} {a : α}
    (hi : l[i]? = some a) (g : α → β) (v : β) :
    (l.map g).set i v = l.map fun x => if x = a then v else g x := by
  apply List.ext_getElem?
  intro j
  obtain ⟨hlt, hget⟩ := List.getElem?_eq_some_iff.mp hi
  rw [List.getElem?_set, List.length_map, List.getElem?_map, List.getElem?_map]
  by_cases hij : i = j
  · subst hij
    rw [if_pos rfl, if_pos hlt, hi, Option.map_some, if_pos rfl]
  rw [if_neg hij]
  cases hj : l[j]? with
  | none => rfl
  | some x =>
    have hne : x ≠ a := by
      rintro rfl
      exact hij ((List.getElem?_inj hlt hnodup).mp (hi.trans hj.symm))
    rw [Option.map_some, Option.map_some, if_neg hne]

/-- The entry when these of the fragments are there. -/
def gatheredEntry (frags : List Fragment) (held : Finset Fragment) : PartialEntry where
  slots := frags.map fun f => if f ∈ held then f.slice else []
  present := frags.map fun f => decide (f ∈ held)
  received := held.card
  size := ∑ f ∈ held, f.slice.length
  overhead := structuralCost frags.length

section Gathered

variable (cfg : ReassemblerConfig) (payload : Bytes) (frags : List Fragment) (msgId : UInt16)

/-- The reassembler with the message open and nothing else in it. -/
def loaded (held : Finset Fragment) (rounds : Nat) : Reassembler :=
  { Reassembler.fresh cfg with
    table := { maxEntries := capImpliedMaxPartials cfg.totalMemoryCap (structuralCost 1)
               entries := [(msgId, gatheredEntry frags held)] }
    held := structuralCost frags.length + ∑ f ∈ held, f.slice.length
    delivered := replicate rounds payload }

/-- The reassembler that has gathered this much. -/
def gathered (c : Collection Fragment) : Reassembler :=
  if c.held = ∅ then { Reassembler.fresh cfg with delivered := replicate c.rounds payload }
  else loaded cfg payload frags msgId c.held c.rounds

variable {cfg payload frags msgId} {f : Fragment} {held : Finset Fragment} {c : Collection Fragment}

theorem gatheredEntry_empty : gatheredEntry frags ∅ = .opened frags.length := by
  simp [gatheredEntry, PartialEntry.opened]

theorem find_loaded (held : Finset Fragment) (rounds : Nat) :
    (loaded cfg payload frags msgId held rounds).table.find msgId = some (gatheredEntry frags held) := by
  simp [loaded, FlatMap.find, FlatMap.lowerBound]

variable (h : Cut cfg payload frags)
include h

theorem Cut.of_mem (hf : f ∈ frags) : frags[f.idx.toNat]? = some f ∧ f.cnt.toNat = frags.length := by
  obtain ⟨i, hi⟩ := mem_iff_getElem?.mp hf
  obtain ⟨rfl, hcnt⟩ := h.place i f hi
  exact ⟨hi, hcnt⟩

theorem Cut.nodup : frags.Nodup := by
  rw [nodup_iff_getElem?_ne_getElem?]
  intro i j hij hj heq
  have hget := List.getElem?_eq_getElem hj
  have hi := (h.place i _ (heq.trans hget)).1
  rw [(h.place j _ hget).1] at hi
  omega

theorem Cut.sum_slices_le (hheld : held ⊆ frags.toFinset) : ∑ f ∈ held, f.slice.length ≤ payload.length := by
  have hall : ∑ f ∈ frags.toFinset, f.slice.length = payload.length := by
    rw [sum_toFinset _ h.nodup, ← length_flatMap, h.whole]
  exact hall ▸ Finset.sum_le_sum_of_subset hheld

theorem Cut.gatheredEntry_insert (hf : f ∈ frags) (hnew : f ∉ held) :
    gatheredEntry frags (insert f held) = (gatheredEntry frags held).withSlice f.idx.toNat f.slice := by
  have hslots := set_map_of_getElem? h.nodup (h.of_mem hf).1 (fun x => if x ∈ held then x.slice else []) f.slice
  have hpresent := set_map_of_getElem? h.nodup (h.of_mem hf).1 (fun x => decide (x ∈ held)) true
  simp only [gatheredEntry, PartialEntry.withSlice, hslots, hpresent, Finset.card_insert_of_notMem hnew,
    Finset.sum_insert hnew, PartialEntry.mk.injEq, and_true]
  refine ⟨map_congr_left fun x _ => ?_, map_congr_left fun x _ => ?_, trivial, add_comm _ _⟩
  · by_cases hx : x = f
    · simp [hx]
    · simp [hx]
  · by_cases hx : x = f
    · simp [hx]
    · simp [hx]

/-- A fragment that is not there yet goes to its slot; the last one completes the message. -/
theorem Cut.store_loaded (hheld : c.held ⊆ frags.toFinset) (hf : f ∈ frags) (hnew : f ∉ c.held) :
    (loaded cfg payload frags msgId c.held c.rounds).store (gatheredEntry frags c.held) msgId f.idx.toNat
        f.slice =
      (if frags.toFinset ⊆ insert f c.held then .completed else .admitted,
        gathered cfg payload frags msgId (c.add frags.toFinset f)) := by
  obtain ⟨hplace, -⟩ := h.of_mem hf
  obtain ⟨hidx, -⟩ := List.getElem?_eq_some_iff.mp hplace
  have hnext : insert f c.held ⊆ frags.toFinset := Finset.insert_subset (List.mem_toFinset.mpr hf) hheld
  have hsum := h.sum_slices_le hnext
  rw [Finset.sum_insert hnew] at hsum
  have haccepted := h.accepted
  have hmemory := h.memory
  have hslots : (gatheredEntry frags c.held).slots.length = frags.length := List.length_map _
  have habsent : (gatheredEntry frags c.held).present.getD f.idx.toNat false = false := by
    rw [gatheredEntry, getD_eq_getElem?_getD, List.getElem?_map, hplace]
    simp [hnew]
  have hsize : (gatheredEntry frags c.held).size = ∑ f ∈ c.held, f.slice.length := rfl
  have hcount : (gatheredEntry frags c.held).received + 1 = (insert f c.held).card :=
    (Finset.card_insert_of_notMem hnew).symm
  have hfull : frags.toFinset ⊆ insert f c.held ↔ ¬ (insert f c.held).card < frags.length := by
    rw [← toFinset_card_of_nodup h.nodup, not_lt]
    exact ⟨Finset.card_le_card, fun hle => (Finset.eq_of_subset_of_card_le hnext hle).symm.subset⟩
  rcases (loaded cfg payload frags msgId c.held c.rounds).store_cases (gatheredEntry frags c.held) msgId
      f.idx.toNat f.slice with ⟨-, hover⟩ | ⟨-, hdup⟩ | ⟨-, hstore⟩
  · have hover : frags.length ≤ f.idx.toNat ∨ cfg.maxMessageSize < ∑ f ∈ c.held, f.slice.length + f.slice.length ∨
        cfg.totalMemoryCap < structuralCost frags.length + ∑ f ∈ c.held, f.slice.length + f.slice.length := by
      rw [hslots] at hover
      exact hover
    omega
  · exact absurd (habsent.symm.trans hdup) Bool.false_ne_true
  rw [hstore, hcount, hslots, ← h.gatheredEntry_insert hf hnew, Collection.add]
  by_cases hdone : frags.toFinset ⊆ insert f c.held
  · have hbody : (gatheredEntry frags (insert f c.held)).slots.flatten = payload := by
      have hslice : frags.map (fun x => if x ∈ frags.toFinset then x.slice else []) = frags.map Fragment.slice :=
        map_congr_left fun x hx => if_pos (List.mem_toFinset.mpr hx)
      rw [hnext.antisymm hdone, gatheredEntry, hslice, ← flatMap_def, h.whole]
    have hfreed : structuralCost frags.length + ∑ f ∈ c.held, f.slice.length + f.slice.length -
        (∑ f ∈ insert f c.held, f.slice.length + structuralCost frags.length) = 0 := by
      rw [Finset.sum_insert hnew]
      omega
    rw [if_neg (hfull.mp hdone), if_pos hdone, if_pos hdone,
      Reassembler.assembleAndEvict_keep (find_loaded c.held c.rounds), hbody]
    simp [gathered, loaded, gatheredEntry, Reassembler.fresh, FlatMap.erase, FlatMap.lowerBound, hfreed,
      replicate_succ']
  · have hcharged : structuralCost frags.length + ∑ f ∈ c.held, f.slice.length + f.slice.length =
        structuralCost frags.length + ∑ f ∈ insert f c.held, f.slice.length := by
      rw [Finset.sum_insert hnew]
      omega
    rw [if_pos (Decidable.not_not.mp fun hlt => hdone (hfull.mpr hlt)), if_neg hdone, if_neg hdone, gathered,
      if_neg (Finset.insert_ne_empty _ _)]
    simp [Reassembler.keep, loaded, FlatMap.update, FlatMap.lowerBound, hcharged]

/-- **One fragment** of the message moves the reassembler as it moves a collector of the fragments. -/
theorem Cut.feed_gathered (hheld : c.held ⊆ frags.toFinset) (hopen : ¬ frags.toFinset ⊆ c.held)
    (hf : f ∈ frags) :
    (gathered cfg payload frags msgId c).feed msgId f.idx f.cnt f.slice =
      (if frags.toFinset ⊆ insert f c.held then .completed else .admitted,
        gathered cfg payload frags msgId (c.add frags.toFinset f)) := by
  obtain ⟨hplace, hcnt⟩ := h.of_mem hf
  obtain ⟨hidx, -⟩ := List.getElem?_eq_some_iff.mp hplace
  have hcount := h.count_le
  -- the checks in front do not stop it, and what is not refused is not reported
  have hpass : ¬ (f.cnt = 0 ∨ f.idx ≥ f.cnt ∨ f.cnt.toNat > maxFragmentCount) := by
    rw [← UInt32.toNat_inj, ge_iff_le, UInt32.le_iff_toNat_le, hcnt, UInt32.toNat_zero]
    omega
  have hreport : ∀ r : Reassembler, Reassembler.report
      (if frags.toFinset ⊆ insert f c.held then .completed else .admitted, r) =
        (if frags.toFinset ⊆ insert f c.held then .completed else .admitted, r) := by
    intro r
    split <;> rfl
  rw [Reassembler.feed, if_neg hpass, hcnt, ← hreport]
  apply congrArg
  rw [Reassembler.admitFragment]
  by_cases hnone : c.held = ∅
  · have hone := h.sum_slices_le (Finset.singleton_subset_iff.mpr (List.mem_toFinset.mpr hf))
    rw [Finset.sum_singleton] at hone
    have hmemory := h.memory
    have hopened : (gathered cfg payload frags msgId c).openEntry msgId frags.length f.slice.length =
        some (loaded cfg payload frags msgId c.held c.rounds) := by
      rw [gathered, if_pos hnone, Reassembler.openEntry, if_neg]
      · simp [loaded, hnone, FlatMap.emplace, FlatMap.lowerBound, capImpliedMaxPartials, Reassembler.fresh,
          gatheredEntry_empty]
      · show ¬ 0 + structuralCost frags.length + f.slice.length > cfg.totalMemoryCap
        omega
    have hfind : (gathered cfg payload frags msgId c).table.find msgId = none := by
      rw [gathered, if_pos hnone]
      rfl
    rw [hfind]
    dsimp only
    rw [hopened, ← gatheredEntry_empty, ← hnone]
    exact h.store_loaded hheld hf (by rw [hnone]; exact Finset.notMem_empty f)
  · have hloaded : gathered cfg payload frags msgId c = loaded cfg payload frags msgId c.held c.rounds :=
      if_neg hnone
    rw [hloaded, find_loaded]
    show Reassembler.store _ _ _ _ _ = _
    by_cases hdup : f ∈ c.held
    · -- the slot is taken: nothing changes
      have hpresent : (gatheredEntry frags c.held).present.getD f.idx.toNat false := by
        rw [gatheredEntry, getD_eq_getElem?_getD, List.getElem?_map, hplace]
        simp [hdup]
      have hslots : ¬ f.idx.toNat ≥ (gatheredEntry frags c.held).slots.length := by
        rw [gatheredEntry, List.length_map]
        exact not_le.mpr hidx
      rw [Reassembler.store, if_neg hslots, if_pos hpresent, Collection.add, Finset.insert_eq_self.mpr hdup,
        if_neg hopen, if_neg hopen, ← hloaded]
    · exact h.store_loaded hheld hf hdup

theorem Cut.toFinset_ne_empty : frags.toFinset ≠ ∅ := by
  rw [Ne, toFinset_eq_empty_iff]
  exact ne_nil_of_length_pos h.pos

/-- **Any arrivals of the message's fragments**: the reassembler has what a collector has. -/
theorem Cut.feedAll_fresh {arrivals : List Fragment} (harrivals : ∀ f ∈ arrivals, f ∈ frags) :
    (Reassembler.fresh cfg).feedAll msgId arrivals =
      gathered cfg payload frags msgId (Collection.collect frags.toFinset arrivals) := by
  have hne : ¬ frags.toFinset ⊆ ∅ := fun hsub => h.toFinset_ne_empty (Finset.subset_empty.mp hsub)
  -- by the arrivals, with what is held being some of the fragments and not all
  have hrun : ∀ (arrivals : List Fragment) (c : Collection Fragment), (∀ f ∈ arrivals, f ∈ frags) →
      c.held ⊆ frags.toFinset → ¬ frags.toFinset ⊆ c.held →
      (gathered cfg payload frags msgId c).feedAll msgId arrivals =
        gathered cfg payload frags msgId (arrivals.foldl (Collection.add frags.toFinset) c) := by
    intro arrivals
    induction arrivals with
    | nil => exact fun c _ _ _ => rfl
    | cons f arrivals ih =>
      intro c hmem hheld hopen
      have hf := hmem f mem_cons_self
      have hkept : (c.add frags.toFinset f).held ⊆ frags.toFinset ∧
          ¬ frags.toFinset ⊆ (c.add frags.toFinset f).held := by
        rw [Collection.add]
        split
        · exact ⟨Finset.empty_subset _, hne⟩
        · rename_i hmissing
          exact ⟨Finset.insert_subset (List.mem_toFinset.mpr hf) hheld, hmissing⟩
      rw [Reassembler.feedAll_cons, h.feed_gathered hheld hopen hf, foldl_cons]
      exact ih _ (fun g hg => hmem g (mem_cons_of_mem _ hg)) hkept.1 hkept.2
  exact hrun arrivals {} harrivals (Finset.empty_subset _) hne

end Gathered

theorem fragmentCount_le {total budget n : Nat} (hb : 0 < budget) (hn : 0 < n) (h : total ≤ n * budget) :
    fragmentCount total budget ≤ n := by
  rw [fragmentCount]
  split
  · exact hn
  calc (total + budget - 1) / budget ≤ (n * budget + (budget - 1)) / budget :=
        Nat.div_le_div_right (by omega)
    _ = n + (budget - 1) / budget := by rw [mul_comm, Nat.mul_add_div hb]
    _ = n := by rw [Nat.div_eq_of_lt (Nat.sub_lt hb Nat.one_pos), add_zero]

/-- A message that comes out was cut into no more fragments than the receiver counts. -/
theorem fragmentsOf_le_of_delivered {payload : Bytes} {aead : Bool}
    {cfg : ReassemblerConfig} {msgId : UInt16} {arrivals : List Fragment}
    (hfrom : ∀ f ∈ arrivals, f ∈ split payload transportBudget aead)
    (hout : payload ∈ ((Reassembler.fresh cfg).feedAll msgId arrivals).delivered) :
    fragmentsOf payload transportBudget aead ≤ maxFragmentCount := by
  have hslim : ((Reassembler.fresh cfg).feedAll msgId arrivals).Slim (sliceBudget transportBudget aead) := by
    refine (Reassembler.slim_fresh cfg _).run ?_
    intro e he id idx cnt bytes heq
    obtain ⟨f, hf, rfl⟩ := mem_map.mp he
    injection heq with _ _ _ hbytes
    obtain ⟨i, -, rfl⟩ := mem_map.mp (hfrom f hf)
    rw [← hbytes]
    exact length_take_le _ _
  exact fragmentCount_le (effectiveFragmentBudget_pos _ _) (by decide) (hslim.delivered payload hout)

/-- **A message comes out once, when its last fragment comes in** — exactly if it is cut into no more
fragments than the receiver counts, and the duplicates do not bring all of them again after it was
complete.

The arrivals are the fragments of one accepted message in any order, all of them and some perhaps
more than once; the receiver has the sender's ceiling, memory for the message, and no timer runs out. -/
theorem reassembly_once_iff (payload : Bytes) (transportBudget : Nat) (aead : Bool)
    (cfg : ReassemblerConfig) (msgId : UInt16) (hroom : Room payload transportBudget aead cfg)
    (arrivals : List Fragment) (hfrom : ∀ f ∈ arrivals, f ∈ split payload transportBudget aead)
    (hall : ∀ f ∈ split payload transportBudget aead, f ∈ arrivals) :
    (∀ before, before <+: arrivals →
        ((Reassembler.fresh cfg).feedAll msgId before).delivered =
          if ∀ f ∈ split payload transportBudget aead, f ∈ before then [payload] else []) ↔
      fragmentsOf payload transportBudget aead ≤ maxFragmentCount ∧
        ¬ ∃ before after, arrivals = before ++ after ∧
          (∀ f ∈ split payload transportBudget aead, f ∈ before) ∧
          ∀ f ∈ split payload transportBudget aead, f ∈ after := by
  have hcovers : ∀ l : List Fragment, (∀ f ∈ split payload transportBudget aead, f ∈ l) ↔
      Collection.Covers (split payload transportBudget aead).toFinset l := by
    intro l
    simp only [Collection.Covers, List.mem_toFinset]
  simp only [hcovers] at hall ⊢
  by_cases hn : fragmentsOf payload transportBudget aead ≤ maxFragmentCount
  swap
  · refine iff_of_false (fun honce => hn ?_) fun h => hn h.1
    have hout : payload ∈ ((Reassembler.fresh cfg).feedAll msgId arrivals).delivered := by
      rw [honce arrivals (List.prefix_refl _), if_pos hall]
      exact List.mem_singleton_self _
    exact fragmentsOf_le_of_delivered hfrom hout
  have hcut := cut_split hroom hn
  have hne := hcut.toFinset_ne_empty
  -- as many copies as there are rounds
  have hdelivered : ∀ before, before <+: arrivals →
      ((Reassembler.fresh cfg).feedAll msgId before).delivered =
        List.replicate (Collection.collect (split payload transportBudget aead).toFinset before).rounds payload := by
    intro before hbefore
    rw [hcut.feedAll_fresh fun f hf => hfrom f (hbefore.subset hf), gathered]
    split <;> rfl
  rw [and_iff_right hn]
  constructor
  · intro honce
    have hwhole := honce arrivals (List.prefix_refl _)
    rw [if_pos hall, hdelivered arrivals (List.prefix_refl _)] at hwhole
    have hrounds := congrArg List.length hwhole
    rw [List.length_replicate, List.length_singleton] at hrounds
    exact ((Collection.rounds_collect_eq_one_iff hne arrivals).mp hrounds).2
  intro honce before hbefore
  rw [hdelivered before hbefore]
  split
  · rename_i hcomplete
    rw [(Collection.rounds_collect_eq_one_iff hne before).mpr ⟨hcomplete, ?_⟩]
    · rfl
    rintro ⟨early, late, rfl, hearly, hlate⟩
    obtain ⟨more, rfl⟩ := hbefore
    exact honce ⟨early, late ++ more, by rw [List.append_assoc], hearly,
      fun f hf => List.mem_append_left _ (hlate f hf)⟩
  · rename_i hmissing
    rw [(Collection.rounds_collect_eq_zero_iff hne before).mpr hmissing]
    rfl

/-- A message of two fragments. -/
def twoFold : Bytes := List.replicate 130 9

/-- The second one first, and then once more. -/
def secondFirst : List Fragment := [1, 0, 1].filterMap ((split twoFold 141)[·]?)

theorem reassembly_once_two :
    ((Reassembler.fresh {}).feedAll 7 secondFirst).delivered = [twoFold] := by
  have htwice : ∀ k ≤ 3, ¬ ((∀ f ∈ split twoFold 141, f ∈ secondFirst.take k) ∧
      ∀ f ∈ split twoFold 141, f ∈ secondFirst.drop k) := by
    decide +kernel
  have honce := (reassembly_once_iff twoFold 141 false {} 7 ⟨by decide +kernel, by decide +kernel⟩
    secondFirst (by decide +kernel) (by decide +kernel)).mpr
  refine (honce ⟨by decide +kernel, ?_⟩ _ (List.prefix_refl _)).trans (if_pos (by decide +kernel))
  rintro ⟨before, after, hsplit, hbefore, hafter⟩
  have hlen : before.length ≤ 3 := by
    have hthree := congrArg List.length hsplit
    rw [List.length_append, show secondFirst.length = 3 by decide +kernel] at hthree
    omega
  apply htwice before.length hlen
  rw [hsplit, List.take_left, List.drop_left]
  exact ⟨hbefore, hafter⟩

theorem feed_of_many (r : Reassembler) (msgId : UInt16) {f : Fragment} (h : maxFragmentCount < f.cnt.toNat) :
    (r.feed msgId f.idx f.cnt f.slice).2.delivered = r.delivered := by
  rw [Reassembler.feed, if_pos (.inr (.inr h))]
  rfl

def eightMiB : Bytes := List.replicate (8 * 1024 * 1024) 0

/-- At a budget of 141 bytes 8 MiB are cut into 65536 fragments, and the receiver takes none. And a
duplicate of a message's only fragment delivers it again. -/
theorem large_message_never_delivered :
    (Room eightMiB 141 false {} ∧
      ((Reassembler.fresh {}).feedAll 0 (split eightMiB 141)).delivered = []) ∧
    Room [1] 141 false {} ∧
    ((Reassembler.fresh {}).feedAll 0 (split [1] 141 ++ split [1] 141)).delivered = [[1], [1]] := by
  have hlength : eightMiB.length = 8 * 1024 * 1024 := List.length_replicate
  have hcount : fragmentsOf eightMiB 141 false = 65536 := by
    rw [fragmentsOf, hlength]
    decide +kernel
  refine ⟨⟨⟨?_, ?_⟩, ?_⟩, ⟨by decide +kernel, by decide +kernel⟩, by decide +kernel⟩
  · rw [hlength]
  · rw [hcount, hlength]
    decide +kernel
  have hnone : ∀ (arrivals : List Fragment) (r : Reassembler),
      (∀ f ∈ arrivals, f ∈ split eightMiB 141) → r.delivered = [] →
      (r.feedAll 0 arrivals).delivered = [] := by
    intro arrivals
    induction arrivals with
    | nil => exact fun r _ hr => hr
    | cons f arrivals ih =>
      intro r hmem hr
      obtain ⟨i, hi⟩ := List.mem_iff_getElem?.mp (hmem f List.mem_cons_self)
      obtain ⟨-, hcnt⟩ := place_split (by rw [hcount]; decide) hi
      rw [Reassembler.feedAll_cons]
      apply ih _ fun g hg => hmem g (List.mem_cons_of_mem _ hg)
      rw [feed_of_many r 0 (by rw [hcnt, length_split, hcount]; decide), hr]
  exact hnone _ _ (fun _ hf => hf) rfl

end Plexus.Datagram
