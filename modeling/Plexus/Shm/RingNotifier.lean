/-
# Plexus.Shm.RingNotifier — waking the consumers of a ring
(`native/src/futex_notifier_primitive.cpp`, `ring_notifier_threaded` of
`asio/shm/linux/ring_notifier.h`, the two words of `shm/ring_layout.h`).

Consumers sleep on one generation word, which producers bump; `park_state` tells a producer whether
anyone is asleep. The steps are the single accesses and the kernel's `FUTEX_WAIT` and `FUTEX_WAKE`.

`Armed`: the park word reads `parked` whenever a consumer has announced itself on the present
generation. A signal that replaces `parked` before the consumer sleeps, and a consumer that returns
and clears the word while another is asleep, break it; `keepsArmed` rules these two out and is exact
(`loses_of_not_keepsArmed`).
-/
import Mathlib.Data.Finset.Card
import Mathlib.Data.Fintype.Basic
import Plexus.Lib.Run

namespace Plexus.Shm

open Lib Function List

/-! ## The two words and the threads -/

inductive ParkState
  | empty | parked | notified
  deriving DecidableEq

def shouldWake (prior : ParkState) : Bool := prior = .parked

/-- Where `wait_loop` stands. `seen` is the generation its last load read, counted from the ring's
creation. -/
inductive WaiterPc
  | load
  | test (seen : Nat)
  | park (seen : Nat)
  | wait (seen : Nat)
  | asleep (seen : Nat)
  | clear
  | done
  deriving DecidableEq

namespace WaiterPc

def seen? : WaiterPc → Option Nat
  | .test n | .park n | .wait n | .asleep n => some n
  | .load | .clear | .done => none

/-- About to wait on generation `g`, with the park announced. -/
def committed (g : Nat) : WaiterPc → Bool
  | .wait n => n = g
  | _ => false

def isAsleep : WaiterPc → Bool
  | .asleep _ => true
  | _ => false

/-- `FUTEX_WAKE`, as a waiter sees it. -/
def woken : WaiterPc → WaiterPc
  | .asleep _ => .clear
  | pc => pc

end WaiterPc

/-- The waiter thread of one notifier, with its `m_stop` and the number of pokes at its doorbell. -/
structure Waiter where
  pc : WaiterPc := .load
  stop : Bool := false
  pokes : Nat := 0
  deriving DecidableEq

/-- Where a call of `notifier_signal` stands: the generation is bumped on entry. -/
inductive SignalPc
  | idle | exchange | wake
  deriving DecidableEq

/-- The generation word, the park state and the threads around them. -/
structure WakeSys (C P : Nat) where
  generation : Nat := 0
  parkState : ParkState := .empty
  waiters : Fin C → Waiter := fun _ => {}
  signals : Fin P → SignalPc := fun _ => .idle

/-- `signal` is a call of `notifier_signal`, gated by the park word or not (`disarm`), `signaller`
the next access of a call; `interrupt` is a wait that returns without a wake-up. -/
inductive WakeEvent (C P : Nat)
  | waiter (c : Fin C)
  | interrupt (c : Fin C)
  | stop (c : Fin C)
  | signal (k : Fin P) (gated : Bool)
  | signaller (k : Fin P)
  deriving DecidableEq

namespace WakeSys

variable {C P : Nat} (s : WakeSys C P)

/-- The value of the futex word. -/
def word : UInt32 := .ofNat s.generation

def pc (s : WakeSys C P) (c : Fin C) : WaiterPc := (s.waiters c).pc

def setPc (c : Fin C) (pc : WaiterPc) : WakeSys C P :=
  { s with waiters := update s.waiters c { s.waiters c with pc } }

def setSignal (k : Fin P) (pc : SignalPc) : WakeSys C P :=
  { s with signals := update s.signals k pc }

def pokeDoorbell (c : Fin C) : WakeSys C P :=
  { s with waiters := update s.waiters c { s.waiters c with pokes := (s.waiters c).pokes + 1 } }

/-- One access of `wait_loop`. -/
def waitLoop (c : Fin C) : WakeSys C P :=
  match s.pc c with
  | .load => s.setPc c (.test s.generation)
  | .test seen =>
    if (s.waiters c).stop then s.setPc c .done else (s.pokeDoorbell c).setPc c (.park seen)
  | .park seen => { s with parkState := .parked }.setPc c (.wait seen)
  | .wait seen => s.setPc c (if UInt32.ofNat seen = s.word then .asleep seen else .clear)
  | .clear => { s with parkState := .empty }.setPc c .load
  | .asleep _ | .done => s

/-- `FUTEX_WAKE` with `INT_MAX`. -/
def wakeAll : WakeSys C P :=
  { s with waiters := fun c => { s.waiters c with pc := (s.pc c).woken } }

/-- The accesses of `notifier_signal` after the bump. -/
def notifierSignal (k : Fin P) : WakeSys C P :=
  match s.signals k with
  | .idle => s
  | .exchange =>
    { s with parkState := .notified }.setSignal k (if shouldWake s.parkState then .wake else .idle)
  | .wake => s.wakeAll.setSignal k .idle

def step : WakeEvent C P → WakeSys C P
  | .waiter c => s.waitLoop c
  | .interrupt c => s.setPc c (s.pc c).woken
  | .stop c => { s with waiters := update s.waiters c { s.waiters c with stop := true } }
  | .signal k gated =>
    if s.signals k = .idle then
      { s with generation := s.generation + 1 }.setSignal k (if gated then .exchange else .wake)
    else s
  | .signaller k => s.notifierSignal k

def run (events : List (WakeEvent C P)) : WakeSys C P := events.foldl step s

/-- A consumer sleeps on a value the word no longer has, and nobody is about to wake it. -/
def LostWake : Prop :=
  ∃ c seen, s.pc c = .asleep seen ∧ UInt32.ofNat seen ≠ s.word ∧ ∀ k, s.signals k = .idle

/-- The generation does not come round between a load and the wait on what it read. -/
def noWrap : WakeEvent C P → Prop
  | .waiter c =>
    match s.pc c with
    | .wait seen => UInt32.ofNat seen = s.word → seen = s.generation
    | _ => True
  | _ => True

variable {s : WakeSys C P} {seen : Nat} {c : Fin C} {p : WaiterPc}

theorem noWrap_waiter (hpc : s.pc c = .wait seen) :
    s.noWrap (.waiter c) ↔ (UInt32.ofNat seen = s.word → seen = s.generation) := by
  simp only [noWrap, hpc]

instance (s : WakeSys C P) (e : WakeEvent C P) : Decidable (s.noWrap e) := by
  unfold noWrap
  split
  · split <;> infer_instance
  · infer_instance

/-- An exchange while no consumer has announced itself on the present generation without being
asleep yet; a clear while no other consumer has done so or is asleep, unless a wake-up is on its
way. -/
def keepsArmed (s : WakeSys C P) : WakeEvent C P → Prop
  | .waiter c => s.pc c = .clear → ∀ d, d ≠ c →
      (s.pc d).committed s.generation = false ∧
        ((s.pc d).isAsleep = true → ∃ k, s.signals k = .wake)
  | .signaller k => s.signals k = .exchange → ∀ c, (s.pc c).committed s.generation = false
  | _ => True

instance (s : WakeSys C P) : (e : WakeEvent C P) → Decidable (s.keepsArmed e)
  | .waiter c => inferInstanceAs (Decidable (s.pc c = .clear → ∀ d, d ≠ c →
      (s.pc d).committed s.generation = false ∧
        ((s.pc d).isAsleep = true → ∃ k, s.signals k = .wake)))
  | .signaller k => inferInstanceAs (Decidable (s.signals k = .exchange →
      ∀ c, (s.pc c).committed s.generation = false))
  | .interrupt _ | .stop _ | .signal _ _ => isTrue trivial

section

variable (s : WakeSys C P)

@[simp] theorem pc_setPc_self (c : Fin C) (p : WaiterPc) : (s.setPc c p).pc c = p := by
  simp [setPc, pc]

theorem pc_setPc (c d : Fin C) (p : WaiterPc) :
    (s.setPc c p).pc d = if d = c then p else s.pc d := by
  by_cases h : d = c
  · subst h
    simp
  · simp [setPc, pc, h]

@[simp] theorem pc_pokeDoorbell (c d : Fin C) : (s.pokeDoorbell c).pc d = s.pc d := by
  by_cases h : d = c
  · subst h
    simp [pokeDoorbell, pc]
  · simp [pokeDoorbell, pc, h]

theorem signals_setSignal (k l : Fin P) (p : SignalPc) :
    (s.setSignal k p).signals l = if l = k then p else s.signals l :=
  update_apply _ _ _ _

end

/-! ## What the park word has to mean -/

structure Armed (s : WakeSys C P) : Prop where
  seen_le : ∀ c seen, (s.pc c).seen? = some seen → seen ≤ s.generation
  announced : ∀ c, (s.pc c).committed s.generation = true → s.parkState = .parked
  asleep : ∀ c seen, s.pc c = .asleep seen →
    (s.parkState = .parked ∧ (seen = s.generation ∨ ∃ k, s.signals k = .exchange)) ∨
      ∃ k, s.signals k = .wake

theorem armed_init : ({} : WakeSys C P).Armed where
  seen_le := fun _ _ h => by cases h
  announced := fun _ h => by cases h
  asleep := fun _ _ h => by cases h

theorem Armed.not_lost (h : s.Armed) : ¬ s.LostWake := by
  rintro ⟨c, seen, hpc, hvalue, hidle⟩
  rcases h.asleep c seen hpc with ⟨-, heq | ⟨k, hk⟩⟩ | ⟨k, hk⟩
  · exact hvalue (by rw [heq, word])
  · rw [hidle k] at hk
    cases hk
  · rw [hidle k] at hk
    cases hk

/-- A waiter that moves without touching the park word keeps the state armed when it does not
commit itself and does not fall asleep. -/
theorem Armed.setPc (h : s.Armed) (c : Fin C) (hseen : ∀ n, p.seen? = some n → n ≤ s.generation)
    (hcommitted : p.committed s.generation = true → s.parkState = .parked)
    (hasleep : ∀ n, p = .asleep n → s.parkState = .parked ∧ n = s.generation) :
    (s.setPc c p).Armed where
  seen_le := fun d n hd => by
    rw [pc_setPc] at hd
    split at hd
    · exact hseen n hd
    · exact h.seen_le d n hd
  announced := fun d hd => by
    rw [pc_setPc] at hd
    split at hd
    · exact hcommitted hd
    · exact h.announced d hd
  asleep := fun d n hd => by
    rw [pc_setPc] at hd
    split at hd
    · obtain ⟨hpark, hn⟩ := hasleep n hd
      exact .inl ⟨hpark, .inl hn⟩
    · exact h.asleep d n hd

theorem woken_seen? {n : Nat} (h : p.woken.seen? = some n) : p.seen? = some n := by
  cases p <;> simp_all [WaiterPc.woken, WaiterPc.seen?]

theorem woken_committed (p : WaiterPc) (g : Nat) : p.woken.committed g = p.committed g := by
  cases p <;> rfl

theorem woken_ne_asleep (p : WaiterPc) (n : Nat) : p.woken ≠ .asleep n := by
  cases p <;> simp [WaiterPc.woken]

theorem Armed.parked (h : s.Armed) : { s with parkState := .parked }.Armed where
  seen_le := h.seen_le
  announced := fun _ _ => rfl
  asleep := fun c seen hpc => by
    rcases h.asleep c seen hpc with ⟨-, hwhy⟩ | hwake
    · exact .inl ⟨rfl, hwhy⟩
    · exact .inr hwake

theorem Armed.waitLoop (h : s.Armed) (c : Fin C) (hwrap : s.noWrap (.waiter c))
    (hok : s.keepsArmed (.waiter c)) : (s.waitLoop c).Armed := by
  unfold WakeSys.waitLoop
  split
  case h_1 hpc =>
    refine h.setPc c (fun n hn => ?_) (fun hc => by cases hc) (fun n hn => by cases hn)
    cases hn
    exact le_rfl
  case h_2 seen hpc =>
    have hle : seen ≤ s.generation := h.seen_le c seen (by rw [hpc]; rfl)
    split
    · exact h.setPc c (fun n hn => by cases hn) (fun hc => by cases hc) (fun n hn => by cases hn)
    have hpoke : (s.pokeDoorbell c).Armed :=
      ⟨fun d n hd => h.seen_le d n (by simpa using hd),
        fun d hd => h.announced d (by rw [← pc_pokeDoorbell s c d]; exact hd),
        fun d n hd => h.asleep d n (by simpa using hd)⟩
    refine hpoke.setPc c (fun n hn => ?_) (fun hc => by cases hc) (fun n hn => by cases hn)
    cases hn
    exact hle
  case h_3 seen hpc =>
    have hle : seen ≤ s.generation := h.seen_le c seen (by rw [hpc]; rfl)
    refine h.parked.setPc c (fun n hn => ?_) (fun _ => rfl) (fun n hn => by cases hn)
    cases hn
    exact hle
  case h_4 seen hpc =>
    have hle : seen ≤ s.generation := h.seen_le c seen (by rw [hpc]; rfl)
    split
    · rename_i hvalue
      -- the kernel saw the value the consumer read: nobody has bumped it, and the park stands
      have heq : seen = s.generation := (noWrap_waiter hpc).mp hwrap hvalue
      have hpark : s.parkState = .parked :=
        h.announced c (by rw [hpc]; simp [WaiterPc.committed, heq])
      refine h.setPc c (fun n hn => ?_) (fun hc => by cases hc) (fun n hn => ?_)
      · cases hn
        exact hle
      · cases hn
        exact ⟨hpark, heq⟩
    · exact h.setPc c (fun n hn => by cases hn) (fun hc => by cases hc) (fun n hn => by cases hn)
  case h_5 hpc =>
    have hothers := hok hpc
    refine ⟨fun d n hd => ?_, fun d hd => ?_, fun d n hd => ?_⟩
    · rw [pc_setPc] at hd
      split at hd
      · cases hd
      · exact h.seen_le d n hd
    · rw [pc_setPc] at hd
      split at hd
      · cases hd
      rename_i hne
      have hnot := (hothers d hne).1
      rw [show (s.pc d).committed s.generation = true from hd] at hnot
      cases hnot
    · rw [pc_setPc] at hd
      split at hd
      · cases hd
      · rename_i hne
        have hdpc : s.pc d = .asleep n := hd
        exact .inr ((hothers d hne).2 (by rw [hdpc]; rfl))
  case h_6 => exact h
  case h_7 => exact h

theorem Armed.notifierSignal (h : s.Armed) (k : Fin P) (hok : s.keepsArmed (.signaller k)) :
    (s.notifierSignal k).Armed := by
  unfold WakeSys.notifierSignal
  split
  case h_1 => exact h
  case h_2 hk =>
    refine ⟨h.seen_le, fun c hc => ?_, fun c n hc => .inr ?_⟩
    · have hnot := hok hk c
      rw [show (s.pc c).committed s.generation = true from hc] at hnot
      cases hnot
    -- whoever was asleep is woken by this very call, or by one that is about to
    rcases h.asleep c n hc with ⟨hpark, -⟩ | ⟨l, hl⟩
    · exact ⟨k, by simp [signals_setSignal, hpark, shouldWake]⟩
    have hne : l ≠ k := by
      rintro rfl
      rw [hk] at hl
      cases hl
    exact ⟨l, by simp [signals_setSignal, hne, hl]⟩
  case h_3 hk =>
    refine ⟨fun c n hc => ?_, fun c hc => ?_, fun c n hc => ?_⟩
    · exact h.seen_le c n (woken_seen? hc)
    · exact h.announced c (by rw [← woken_committed]; exact hc)
    · exact absurd hc (woken_ne_asleep _ n)

/-- **The step lemma.** -/
theorem Armed.step (h : s.Armed) (e : WakeEvent C P) (hwrap : s.noWrap e) (hok : s.keepsArmed e) :
    (s.step e).Armed := by
  cases e with
  | waiter c => exact h.waitLoop c hwrap hok
  | interrupt c =>
    refine h.setPc c (fun n hn => h.seen_le c n (woken_seen? hn)) (fun hc => ?_) (fun n hn => ?_)
    · exact h.announced c (by rw [← woken_committed]; exact hc)
    · exact absurd hn (woken_ne_asleep _ n)
  | stop c =>
    have hpc : ∀ d, (s.step (.stop c)).pc d = s.pc d := by
      intro d
      by_cases hd : d = c
      · subst hd
        simp [WakeSys.step, pc]
      · simp [WakeSys.step, pc, hd]
    exact ⟨fun d n hd => h.seen_le d n (by rw [← hpc]; exact hd),
      fun d hd => h.announced d (by rw [← hpc]; exact hd),
      fun d n hd => h.asleep d n (by rw [← hpc]; exact hd)⟩
  | signal k gated =>
    simp only [WakeSys.step]
    split
    · rename_i hidle
      -- after the bump nobody is committed to the present generation any more
      refine ⟨fun c n hc => ?_, fun c hc => ?_, fun c n hc => ?_⟩
      · exact Nat.le_succ_of_le (h.seen_le c n hc)
      · exfalso
        have hpc : (s.pc c).committed (s.generation + 1) := hc
        cases hwait : s.pc c with
        | wait n =>
          have hle := h.seen_le c n (by rw [hwait]; rfl)
          rw [hwait] at hpc
          simp only [WaiterPc.committed, decide_eq_true_eq] at hpc
          omega
        | _ => simp [hwait, WaiterPc.committed] at hpc
      have hkept : ∀ l p, s.signals l = p → p ≠ .idle →
          (s.setSignal k (if gated then .exchange else .wake)).signals l = p := by
        intro l p hl hp
        have hne : l ≠ k := by
          rintro rfl
          exact hp (hl.symm.trans hidle)
        rw [signals_setSignal, if_neg hne, hl]
      rcases h.asleep c n hc with ⟨hpark, -⟩ | ⟨l, hl⟩
      · cases gated with
        | true => exact .inl ⟨hpark, .inr ⟨k, by simp [signals_setSignal]⟩⟩
        | false => exact .inr ⟨k, by simp [signals_setSignal]⟩
      · exact .inr ⟨l, hkept l .wake hl (by simp)⟩
    · exact h
  | signaller k => exact h.notifierSignal k hok

/-! ## The condition is exact

A consumer is stranded when the park word does not speak for it: it is about to wait on the present
generation, or asleep without a wake-up under way, and the word does not read `parked`. From there
every other access may keep the condition: the wake-ups under way pass, whoever is about to wait goes
to sleep, and then the exchanges under way and the next one find nobody announced. -/

structure Stranded (s : WakeSys C P) (c : Fin C) (seen : Nat) : Prop where
  park : s.parkState ≠ .parked
  waiter : (s.pc c = .wait seen ∧ seen = s.generation) ∨
    (s.pc c = .asleep seen ∧ ∀ k, s.signals k ≠ .wake)

/-- A run that keeps the condition leads to a lost wake-up. -/
def Doomed (s : WakeSys C P) : Prop :=
  ∃ events, Guarded step (fun s e => s.noWrap e ∧ s.keepsArmed e) s events ∧ (s.run events).LostWake

/-- About to wait on the present generation or on the next one. -/
def entering (s : WakeSys C P) (d : Fin C) : Bool :=
  s.pc d = .wait s.generation ∨ s.pc d = .wait (s.generation + 1)

theorem Doomed.of_step {e : WakeEvent C P} (h : (s.step e).Doomed) (hwrap : s.noWrap e)
    (hkeeps : s.keepsArmed e) : s.Doomed := by
  obtain ⟨es, hes, hlost⟩ := h
  exact ⟨e :: es, ⟨⟨hwrap, hkeeps⟩, hes⟩, hlost⟩

theorem shouldWake_eq_false {p : ParkState} (h : p ≠ .parked) : shouldWake p = false := by
  simp [shouldWake, h]

theorem committed_iff {g : Nat} : p.committed g = true ↔ p = .wait g := by
  cases p <;> simp [WaiterPc.committed]

theorem succ_ne_word (s : WakeSys C P) : UInt32.ofNat (s.generation + 1) ≠ s.word := by
  intro h
  have hnat := congrArg UInt32.toNat h
  simp only [word, UInt32.toNat_ofNat'] at hnat
  omega

/-- A call under way goes on: it does not bump the word, moves nobody towards the wait and does not
reach the stranded consumer. -/
theorem Stranded.notifierSignal (h : s.Stranded c seen) (k : Fin P) :
    (s.notifierSignal k).Stranded c seen ∧
      (s.notifierSignal k).signals = update s.signals k .idle ∧
      ∀ d, (s.notifierSignal k).entering d → s.entering d := by
  unfold WakeSys.notifierSignal
  split
  case h_1 hk => exact ⟨h, by rw [← hk, update_eq_self], fun _ hd => hd⟩
  case h_2 hk =>
    rw [shouldWake_eq_false h.park]
    refine ⟨⟨by simp [setSignal], ?_⟩, rfl, fun _ hd => hd⟩
    rcases h.waiter with hwait | ⟨hpc, hnone⟩
    · exact .inl hwait
    refine .inr ⟨hpc, fun l => ?_⟩
    rw [signals_setSignal]
    split
    · simp
    · exact hnone l
  case h_3 hk =>
    refine ⟨⟨h.park, ?_⟩, rfl, fun d hd => ?_⟩
    · rcases h.waiter with ⟨hpc, hgen⟩ | ⟨-, hnone⟩
      · refine .inl ⟨?_, hgen⟩
        show (s.pc c).woken = _
        rw [hpc]
        rfl
      · exact absurd hk (hnone k)
    · have hwoken : ∀ n, (s.pc d).woken = .wait n → s.pc d = .wait n := by
        cases s.pc d <;> simp [WaiterPc.woken]
      simp only [entering, decide_eq_true_eq] at hd ⊢
      exact hd.imp (hwoken _) (hwoken _)

/-- Whoever is about to wait goes to sleep, or has loaded too new a generation and does not. -/
theorem Stranded.enters (h : s.Stranded c seen) (hnone : ∀ k, s.signals k ≠ .wake) {d : Fin C}
    (hd : s.entering d) :
    s.noWrap (.waiter d) ∧ s.keepsArmed (.waiter d) ∧ (s.step (.waiter d)).Stranded c seen ∧
      ∃ pc, s.step (.waiter d) = s.setPc d pc ∧ ∀ n, pc ≠ .wait n := by
  simp only [entering, decide_eq_true_eq] at hd
  obtain ⟨n, hpc, hn⟩ : ∃ n, s.pc d = .wait n ∧ (UInt32.ofNat n = s.word → n = s.generation) := by
    rcases hd with hd | hd
    · exact ⟨_, hd, fun _ => rfl⟩
    · exact ⟨_, hd, fun h => absurd h s.succ_ne_word⟩
  have hstep : s.step (.waiter d) = s.setPc d (if UInt32.ofNat n = s.word then .asleep n else .clear) := by
    simp only [step, waitLoop, hpc]
  refine ⟨(noWrap_waiter hpc).mpr hn, fun hclear => ?_, ?_, _, hstep, fun m => by split <;> simp⟩
  · rw [hpc] at hclear
    cases hclear
  rw [hstep]
  refine ⟨h.park, ?_⟩
  rw [pc_setPc]
  split
  · rename_i heq
    subst heq
    rcases h.waiter with ⟨hc, hseen⟩ | ⟨hc, -⟩
    · rw [hpc] at hc
      obtain rfl := WaiterPc.wait.inj hc
      exact .inr ⟨by rw [if_pos (by rw [hseen, word])], hnone⟩
    · rw [hpc] at hc
      cases hc
  · exact h.waiter

/-- Asleep, unannounced, no call under way and nobody about to wait: the word has moved on already,
or the next signal moves it without a wake-up. -/
theorem doomed_of_asleep (hP : 0 < P) (hpark : s.parkState ≠ .parked) (hpc : s.pc c = .asleep seen)
    (hidle : ∀ k, s.signals k = .idle) (hnone : ∀ d, s.entering d = false) : s.Doomed := by
  by_cases hvalue : UInt32.ofNat seen = s.word
  · obtain ⟨k⟩ : Nonempty (Fin P) := ⟨⟨0, hP⟩⟩
    have hbump : s.step (.signal k true) = { s with generation := s.generation + 1 }.setSignal k .exchange := by
      simp only [step, hidle k, if_true]
    refine ⟨[.signal k true, .signaller k],
      ⟨⟨trivial, trivial⟩, ⟨trivial, fun _ d => ?_⟩, trivial⟩, c, seen, ?_, ?_, ?_⟩
    · rw [hbump, Bool.eq_false_iff, Ne, committed_iff]
      intro hd
      have hnot := hnone d
      simp only [entering, decide_eq_false_iff_not, not_or] at hnot
      exact hnot.2 hd
    all_goals simp only [run, foldl_cons, foldl_nil, hbump]
    all_goals simp only [step, notifierSignal, signals_setSignal, if_pos]
    · exact hpc
    · rw [hvalue]
      exact s.succ_ne_word.symm
    · intro l
      simp only [setSignal, shouldWake_eq_false hpark]
      split
      · rfl
      · simpa using hidle l
  · exact ⟨[], trivial, c, seen, hpc, hvalue, hidle⟩

theorem card_filter_lt {ι : Type} [Fintype ι] {p q : ι → Prop} [DecidablePred p] [DecidablePred q]
    (h : ∀ x, p x → q x) {a : ι} (hq : q a) (hp : ¬ p a) :
    (Finset.univ.filter p).card < (Finset.univ.filter q).card :=
  Finset.card_lt_card ((Finset.ssubset_iff_of_subset (Finset.monotone_filter_right _ fun x _ => h x)).mpr
    ⟨a, by simpa using hq, by simpa using hp⟩)

/-- By the number of calls under way and of consumers about to wait. -/
theorem Stranded.doomed (hP : 0 < P) (h : s.Stranded c seen) : s.Doomed := by
  induction hn : (Finset.univ.filter fun k => s.signals k ≠ .idle).card +
    (Finset.univ.filter fun d => s.entering d = true).card using Nat.strong_induction_on
    generalizing s with
  | _ n ih =>
    subst hn
    -- a call that is let go on ends
    have hcall : ∀ k, s.signals k ≠ .idle → s.keepsArmed (.signaller k) → s.Doomed := by
      intro k hk hkeeps
      obtain ⟨hs, hsignals, hentering⟩ := h.notifierSignal k
      refine Doomed.of_step (e := .signaller k) (ih _ ?_ hs rfl) trivial hkeeps
      refine Nat.add_lt_add_of_lt_of_le (card_filter_lt (fun l hl => ?_) hk ?_)
        (Finset.card_le_card (Finset.monotone_filter_right _ fun d _ => hentering d))
      · simp only [step, hsignals, update_apply] at hl
        split at hl
        · exact absurd rfl hl
        · exact hl
      · simp [step, hsignals]
    by_cases hwake : ∃ k, s.signals k = .wake
    · obtain ⟨k, hk⟩ := hwake
      exact hcall k (by simp [hk]) fun hex => by rw [hk] at hex; cases hex
    by_cases hany : ∃ d, s.entering d
    · obtain ⟨d, hd⟩ := hany
      obtain ⟨hwrap, hkeeps, hs, pc, hstep, hpc⟩ := h.enters (fun k hk => hwake ⟨k, hk⟩) hd
      refine Doomed.of_step (ih _ ?_ hs rfl) hwrap hkeeps
      rw [hstep]
      refine Nat.add_lt_add_left (card_filter_lt (q := (s.entering · = true))
        (fun x hx => ?_) hd ?_) _
      · simp only [entering, pc_setPc, decide_eq_true_eq] at hx ⊢
        split at hx
        · exact (hx.elim (hpc _) (hpc _)).elim
        · exact hx
      · simp [entering, hpc]
    have hnone : ∀ d, s.entering d = false := fun d => Bool.eq_false_iff.mpr fun hd => hany ⟨d, hd⟩
    by_cases hbusy : ∃ k, s.signals k ≠ .idle
    · obtain ⟨k, hk⟩ := hbusy
      refine hcall k hk fun _ d => ?_
      rw [Bool.eq_false_iff, Ne, committed_iff]
      intro hd
      have hnot := hnone d
      simp [entering, hd] at hnot
    have hidle : ∀ k, s.signals k = .idle := fun k => not_not.mp fun hk => hbusy ⟨k, hk⟩
    rcases h.waiter with ⟨hpc, hseen⟩ | ⟨hpc, -⟩
    · have hnot := hnone c
      simp [entering, hpc, hseen] at hnot
    · exact doomed_of_asleep hP h.park hpc hidle hnone

theorem isAsleep_iff : p.isAsleep = true ↔ ∃ n, p = .asleep n := by
  cases p <;> simp [WaiterPc.isAsleep]

/-- An access the condition rules out strands a consumer. -/
theorem stranded_of_not_keepsArmed {e : WakeEvent C P} (h : ¬ s.keepsArmed e) :
    ∃ c seen, (s.step e).Stranded c seen := by
  cases e with
  | waiter c =>
    simp only [keepsArmed, not_forall] at h
    obtain ⟨hclear, d, hne, hd⟩ := h
    have hstep : s.step (.waiter c) = { s with parkState := .empty }.setPc c .load := by
      simp only [step, waitLoop, hclear]
    have hpc : (s.step (.waiter c)).pc d = s.pc d := by
      rw [hstep, pc_setPc, if_neg hne]
      rfl
    rw [not_and_or] at hd
    rcases hd with hcommitted | hasleep
    · rw [Bool.not_eq_false, committed_iff] at hcommitted
      exact ⟨d, s.generation, by simp [hstep, setPc], .inl ⟨hpc.trans hcommitted, by rw [hstep]; rfl⟩⟩
    · simp only [Classical.not_imp, not_exists] at hasleep
      obtain ⟨n, hn⟩ := isAsleep_iff.mp hasleep.1
      exact ⟨d, n, by simp [hstep, setPc], .inr ⟨hpc.trans hn, by rw [hstep]; exact hasleep.2⟩⟩
  | signaller k =>
    simp only [keepsArmed, not_forall] at h
    obtain ⟨hk, c, hc⟩ := h
    rw [Bool.not_eq_false, committed_iff] at hc
    have hstep : s.step (.signaller k) = { s with parkState := .notified }.setSignal k
        (if shouldWake s.parkState then .wake else .idle) := by
      simp only [step, notifierSignal, hk]
    exact ⟨c, s.generation, by simp [hstep, setSignal], .inl ⟨by rw [hstep]; exact hc, by rw [hstep]; rfl⟩⟩
  | _ => exact absurd trivial h

/-- **No wake-up is lost** in a run whose accesses to the park word take it away from nobody, for any
number of consumers and producers and every interleaving; and an access that does take it away can be
continued to a lost one by accesses that take it away from nobody. -/
theorem noLostWake_of_keepsArmed (C P : Nat) :
    (∀ events, Guarded step (fun s e => s.noWrap e ∧ s.keepsArmed e) ({} : WakeSys C P) events →
      ¬ (({} : WakeSys C P).run events).LostWake) ∧
    ∀ (s : WakeSys C P) (e : WakeEvent C P), 0 < P → ¬ s.keepsArmed e →
      ∃ events, Guarded step (fun s e => s.noWrap e ∧ s.keepsArmed e) (s.step e) events ∧
        ((s.step e).run events).LostWake := by
  refine ⟨fun events hrun => ?_, fun s e hP h => ?_⟩
  · exact (hrun.invariant Armed (fun s e hs hok => hs.step e hok.1 hok.2) armed_init).not_lost
  · obtain ⟨c, seen, hstranded⟩ := stranded_of_not_keepsArmed h
    exact hstranded.doomed hP

/-- The thread of a side that has one. -/
def sole : Fin 1 := ⟨0, Nat.one_pos⟩

/-- The first of two consumers. -/
def first : Fin 2 := ⟨0, Nat.two_pos⟩

/-- The second of two consumers. -/
def second : Fin 2 := ⟨1, Nat.one_lt_two⟩

/-- Two consumers, one after the other, go through the loop until they are asleep. -/
def bothAsleep : List (WakeEvent 2 1) :=
  replicate 4 (.waiter first) ++ replicate 4 (.waiter second)

/-- One signal wakes both; but had the first of them returned by itself, its clear would have been
the access that loses the second. -/
theorem noLostWake_bothAsleep :
    (¬ (({} : WakeSys 2 1).run
      (bothAsleep ++ [.signal 0 true, .signaller 0, .signaller 0, .waiter 0, .waiter 1])).LostWake) ∧
    ∃ events,
      Guarded step (fun s e => s.noWrap e ∧ s.keepsArmed e)
        ((({} : WakeSys 2 1).run (bothAsleep ++ [.interrupt 0])).step (.waiter 0)) events ∧
      (((({} : WakeSys 2 1).run (bothAsleep ++ [.interrupt 0])).step (.waiter 0)).run events).LostWake :=
  ⟨(noLostWake_of_keepsArmed 2 1).1 _ (by decide),
    (noLostWake_of_keepsArmed 2 1).2 _ _ (by decide) (by decide)⟩

/-- The consumer announces itself on the generation the first signal has just made; that signal's
wake-up comes before the wait. -/
def announcedTooEarly : List (WakeEvent 1 1) :=
  [.signal sole true, .waiter sole, .waiter sole, .waiter sole, .signaller sole, .signaller sole,
    .waiter sole, .signal sole true, .signaller sole]

/-- The second consumer is asleep when the first, whose snapshot is old, returns at once and clears
the word of both. -/
def clearedByAnother : List (WakeEvent 2 1) :=
  [.waiter first, .signal sole true, .signaller sole] ++ replicate 4 (.waiter second) ++
    replicate 4 (.waiter first) ++ [.signal sole true, .signaller sole]

/-- The consumer falls asleep under `notified`, and the second signal leaves the wake-up out. With
two consumers it happens without that race. -/
theorem signal_leaves_sleeper :
    (let s := ({} : WakeSys 1 1).run announcedTooEarly;
      s.pc 0 = .asleep 1 ∧ s.word = 2 ∧ (∀ k, s.signals k = .idle) ∧ s.parkState = .notified) ∧
    (let s := ({} : WakeSys 2 1).run clearedByAnother;
      s.pc 1 = .asleep 1 ∧ s.word = 2 ∧ ∀ k, s.signals k = .idle) := by
  decide

end WakeSys

end Plexus.Shm
