/-
# Plexus.Io.RpcMachine — calls, responses, deadlines and peer loss in every interleaving.

The procedure forwarder runs foreign code in the middle of its own: an `on_response` may call again
or detach a peer, `detach_all` runs one callback after the other, and `call` keeps a reference to its
peer's table while the channel sends and a hook runs. A channel that refuses a frame says so inline,
and on an accepted session that detaches the peer and erases the table: the entry is then filed
through a dangling reference, and nobody completes it (`detached_during_send`).

The machine's stack holds the callbacks, the detach loops and the sends that have not returned; an
event is what the code in control does, or what reaches it from outside: a payload that claims to be
a response, an expiry, however old. A detach loop walks its table in any order.

A call is its number in the run; `minted` records its peer and correlation id. The invariant is one
permutation: the entries that are filed, on the stack or lost and the completed calls are the calls
made, each once. What rests on the table staying there (`Sound`) holds as long as no call and no
detach of a peer comes in the middle of a send to it (`Undisturbed`).
-/
import Mathlib.Data.List.Perm.Basic
import Mathlib.Data.List.Nodup
import Plexus.Io.ProcedureForwarder
import Plexus.Lib.Run

namespace Plexus.Io

open Wire Lib ProcedureForwarder List

/-- One invocation of an `on_response`; `response` is the payload and the node that sent it, absent
on a refusal, an expiry or the loss of the peer. -/
structure Completion where
  call : Nat
  status : RpcStatus
  data : Bytes := []
  response : Option (Text × RpcResponseDecodeResult) := none
  deriving DecidableEq

/-- What has not returned yet. -/
inductive RpcFrame
  | callback (call : Nat)
  | detaching (node : Text) (remaining : List PendingRpc)
  /-- A `call` that is sending; `live` as long as its reference leads to a table. -/
  | sending (e : PendingRpc) (live : Bool)
  deriving DecidableEq

namespace RpcFrame

/-- The entries a stack frame still has to fire or to file. -/
def held : RpcFrame → List PendingRpc
  | .callback _ => []
  | .detaching _ remaining => remaining
  | .sending e _ => [e]

/-- The entry a stack frame still has to file. -/
def toFile : RpcFrame → List PendingRpc
  | .sending e _ => [e]
  | _ => []

/-- The table of `node` is erased. -/
def dangle (node : Text) : RpcFrame → RpcFrame
  | .sending e live => .sending e (live && e.node ≠ node)
  | frame => frame

end RpcFrame

/-- What the code in control does, or what reaches it. -/
inductive RpcEvent
  | call (p : Peer) (fqn : Text) (param : Bytes) (sessionId : UInt64)
  | response (p : Peer) (inner : Bytes)
  | expire (node : Text) (corr : UInt64)
  | detachAll (p : Peer)
  | fireNext (i : Nat)
  | ret

/-- The forwarder with all that is running in it; `lost` are the entries filed nowhere. -/
structure RpcMachine where
  fwd : ProcedureForwarder
  world : World
  stack : List RpcFrame := []
  completed : List Completion := []
  minted : List (Text × Option UInt64) := []
  lost : List PendingRpc := []

namespace RpcMachine

variable (s : RpcMachine)

/-- Foreign code or the executor is in control: no detach loop is on top. -/
def ready : Bool :=
  match s.stack with
  | .detaching _ _ :: _ => false
  | _ => true

/-- Invoke an `on_response`: from here on its code is in control. -/
def complete (c : Completion) : RpcMachine :=
  { s with completed := s.completed ++ [c], stack := .callback c.call :: s.stack }

/-- `call` up to its send; the channel and the hook are in control then. -/
def stepCall (p : Peer) (fqn : Text) (param : Bytes) (sessionId : UInt64) : RpcMachine :=
  let callId := s.minted.length
  match s.fwd.call s.world p fqn param sessionId callId with
  | (none, fwd, world) =>
    complete { s with fwd, world, minted := s.minted ++ [(p.nodeName, none)] }
      { call := callId, status := .error }
  | (some e, fwd, world) =>
    { s with
      fwd, world
      minted := s.minted ++ [(p.nodeName, some e.corr)]
      stack := .sending e true :: s.stack }

/-- `deliver_response`. -/
def stepResponse (p : Peer) (inner : Bytes) : RpcMachine :=
  match s.fwd.deliverResponse p inner with
  | (none, fwd) => { s with fwd }
  | (some (e, resp), fwd) =>
    complete { s with fwd }
      { call := e.call, status := resp.status, data := resp.returnData,
        response := some (p.nodeName, resp) }

/-- `fire_timeout`. -/
def stepExpire (node : Text) (corr : UInt64) : RpcMachine :=
  match s.fwd.fireTimeout node corr with
  | (none, fwd) => { s with fwd }
  | (some e, fwd) => complete { s with fwd } { call := e.call, status := .timeout }

/-- `detach_all` up to its loop. -/
def stepDetachAll (p : Peer) : RpcMachine :=
  match s.fwd.takePeer p with
  | (detached, fwd) =>
    { s with
      fwd
      stack := .detaching p.nodeName detached :: s.stack.map (RpcFrame.dangle p.nodeName) }

/-- The detach loop on top fires the `i`-th of the entries it still holds. -/
def stepFireNext (i : Nat) : RpcMachine :=
  match s.stack with
  | .detaching node remaining :: rest =>
    match remaining[i]? with
    | none => s
    | some e =>
      complete { s with stack := .detaching node (remaining.eraseIdx i) :: rest }
        { call := e.call, status := .peerDisconnected }
  | _ => s

/-- A callback returns; a detach loop returns once it holds nothing; a send returns and its `call`
files the entry, if it still can. -/
def stepRet : RpcMachine :=
  match s.stack with
  | .callback _ :: rest => { s with stack := rest }
  | .detaching _ [] :: rest => { s with stack := rest }
  | .sending e live :: rest =>
    match if live then s.fwd.emplace e else none with
    | some fwd => { s with fwd, stack := rest }
    | none => { s with stack := rest, lost := e :: s.lost }
  | _ => s

def step : RpcEvent → RpcMachine
  | .call p fqn param sessionId => if s.ready then s.stepCall p fqn param sessionId else s
  | .response p inner => if s.ready then s.stepResponse p inner else s
  | .expire node corr => if s.ready then s.stepExpire node corr else s
  | .detachAll p => if s.ready then s.stepDetachAll p else s
  | .fireNext i => s.stepFireNext i
  | .ret => s.stepRet

/-- A forwarder at start: any table size, any served procedures, nothing outstanding. -/
def start (maxOutstanding : Nat) (hashToFqn : UInt64 → Option Text) (w : World) : RpcMachine where
  fwd := { maxOutstanding, hashToFqn }
  world := w

def run (es : List RpcEvent) : RpcMachine := es.foldl step s

/-! ## What a step can do -/

/-- What the call of `e` leaves while it is being sent. -/
def sendsOff (s : RpcMachine) (e : PendingRpc) (seq : UInt64) (w : World) : RpcMachine :=
  { s with
    fwd := { s.fwd with
      nextCorrelationId := s.fwd.nextCorrelationId + 1
      nextSequence := seq }
    world := w
    stack := .sending e true :: s.stack
    minted := s.minted ++ [(e.node, some e.corr)] }

/-- A response came from the peer the call was made to, under the call's id; without one the call was
refused, timed out or lost its peer. -/
def Explained (minted : List (Text × Option UInt64)) (c : Completion) : Prop :=
  match c.response with
  | some (node, resp) => minted[c.call]? = some (node, some resp.header.correlationId) ∧
      c.status = resp.status ∧ c.data = resp.returnData
  | none => c.status = .timeout ∨ c.status = .peerDisconnected ∨
      (c.status = .error ∧ ∃ node, minted[c.call]? = some (node, none))

/-- What a step can do. A response and a timeout both take an entry out of the table by its keys and
complete it. -/
inductive Moves (s : RpcMachine) : RpcEvent → RpcMachine → Prop
  | stays (ev : RpcEvent) : Moves s ev s
  | refused (p : Peer) (fqn : Text) (param : Bytes) (sessionId : UInt64) :
      Moves s (.call p fqn param sessionId)
        (complete { s with minted := s.minted ++ [(p.nodeName, none)] }
          { call := s.minted.length, status := .error })
  | sent {p : Peer} (hroom : (s.fwd.perPeer p.nodeName).length < s.fwd.maxOutstanding) (fqn : Text)
      (param : Bytes) (sessionId seq : UInt64) (w : World) :
      Moves s (.call p fqn param sessionId)
        (s.sendsOff ⟨p.nodeName, s.fwd.nextCorrelationId, fqn, s.minted.length⟩ seq w)
  | resolved (ev : RpcEvent) {fwd : ProcedureForwarder} {node : Text} {corr : UInt64} {e : PendingRpc}
      {c : Completion} (hresolve : s.fwd.resolve node corr = (some e, fwd)) (hcall : c.call = e.call)
      (hwhy : s.minted[c.call]? = some (node, some corr) → Explained s.minted c) :
      Moves s ev (complete { s with fwd } c)
  | detaches (p : Peer) : Moves s (.detachAll p) (s.stepDetachAll p)
  | fires (ev : RpcEvent) {node : Text} {remaining : List PendingRpc} {rest : List RpcFrame} {i : Nat}
      {e : PendingRpc} (hstack : s.stack = .detaching node remaining :: rest)
      (hget : remaining[i]? = some e) :
      Moves s ev (complete { s with stack := .detaching node (remaining.eraseIdx i) :: rest }
        { call := e.call, status := .peerDisconnected })
  | returns (ev : RpcEvent) {frame : RpcFrame} {rest : List RpcFrame}
      (hstack : s.stack = frame :: rest) (hheld : frame.held = []) : Moves s ev { s with stack := rest }
  | files (ev : RpcEvent) {e : PendingRpc} {rest : List RpcFrame}
      (hstack : s.stack = .sending e true :: rest) :
      Moves s ev { s with
        fwd := { s.fwd with outstanding := s.fwd.outstanding ++ [e] }
        stack := rest }
  | loses (ev : RpcEvent) {e : PendingRpc} {live : Bool} {rest : List RpcFrame}
      (hstack : s.stack = .sending e live :: rest)
      (hwhy : live = true → s.fwd.hasEntry e.node e.corr = true) :
      Moves s ev { s with stack := rest, lost := e :: s.lost }

variable {s s' : RpcMachine} {c : Completion} {node : Text} {ev : RpcEvent}

theorem stepCall_moves (s : RpcMachine) (p : Peer) (fqn : Text) (param : Bytes)
    (sessionId : UInt64) :
    Moves s (.call p fqn param sessionId) (s.stepCall p fqn param sessionId) := by
  rcases lt_or_ge (s.fwd.perPeer p.nodeName).length s.fwd.maxOutstanding with hroom | hfull
  · simp only [stepCall, call, if_neg (Nat.not_le_of_lt hroom)]
    exact .sent hroom fqn param sessionId _ _
  · simp only [stepCall, call, if_pos hfull]
    exact .refused p fqn param sessionId

theorem stepRet_moves (s : RpcMachine) : Moves s .ret s.stepRet := by
  unfold stepRet
  split
  · rename_i hstack
    exact .returns _ hstack rfl
  · rename_i hstack
    exact .returns _ hstack rfl
  · rename_i e live rest hstack
    cases live with
    | false => exact .loses _ hstack fun h => by cases h
    | true =>
      simp only [emplace, if_true]
      cases htaken : s.fwd.hasEntry e.node e.corr with
      | false => exact .files _ hstack
      | true => exact .loses _ hstack fun _ => htaken
  · exact .stays _

theorem step_moves (s : RpcMachine) (ev : RpcEvent) : Moves s ev (s.step ev) := by
  cases ev with
  | call p fqn param sessionId =>
    rw [step]
    split
    · exact stepCall_moves ..
    · exact .stays _
  | response p inner =>
    rw [step]
    split
    · unfold stepResponse
      split
      · rename_i hnone
        rw [deliverResponse_none hnone]
        exact .stays _
      rename_i hsome
      exact .resolved _ (deliverResponse_some hsome) rfl fun hminted => ⟨hminted, rfl, rfl⟩
    · exact .stays _
  | expire node corr =>
    rw [step]
    split
    · unfold stepExpire fireTimeout
      split
      · rename_i hnone
        rw [resolve_none hnone]
        exact .stays _
      rename_i hsome
      exact .resolved _ hsome rfl fun _ => .inl rfl
    · exact .stays _
  | detachAll p =>
    rw [step]
    split
    · exact .detaches p
    · exact .stays _
  | fireNext i =>
    rw [step, stepFireNext]
    split
    · rename_i hstack
      split
      · exact .stays _
      · rename_i hget
        exact .fires _ hstack hget
    · exact .stays _
  | ret => exact stepRet_moves s

/-! ## The account -/

variable (s) in
/-- The entries that are not completed. -/
def pending : List PendingRpc := s.fwd.outstanding ++ (s.stack.flatMap RpcFrame.held ++ s.lost)

/-- A detach that is running holds the entries of its peer. -/
def Filed (s : RpcMachine) : Prop :=
  ∀ node remaining, .detaching node remaining ∈ s.stack → ∀ e ∈ remaining, e.node = node

/-- What holds in every state of every run. -/
structure Inv (s : RpcMachine) : Prop where
  accounted : (s.pending.map (·.call) ++ s.completed.map (·.call)).Perm (range s.minted.length)
  owned : ∀ e ∈ s.pending, s.minted[e.call]? = some (e.node, some e.corr)
  explained : ∀ c ∈ s.completed, Explained s.minted c
  filed : s.Filed

theorem inv_start (maxOutstanding : Nat) (hashToFqn : UInt64 → Option Text) (w : World) :
    Inv (start maxOutstanding hashToFqn w) where
  accounted := .refl _
  owned := forall_mem_nil _
  explained := forall_mem_nil _
  filed := fun _ _ h => by cases h

@[simp] theorem pending_complete (s : RpcMachine) (c : Completion) :
    (s.complete c).pending = s.pending := by
  simp [pending, complete, RpcFrame.held]

theorem getElem?_concat_eq_some {α : Type*} {l : List α} {x y : α} {i : Nat} :
    (l ++ [x])[i]? = some y ↔ l[i]? = some y ∨ (i = l.length ∧ x = y) := by
  rcases Nat.lt_trichotomy i l.length with hlt | rfl | hgt
  · simp [List.getElem?_append_left hlt, hlt.ne]
  · simp
  · have hout : l.length ≤ i := hgt.le
    simp [List.getElem?_append_right hout, List.getElem?_eq_none hout, hgt.ne',
      show i - l.length ≠ 0 by omega]

/-- A new call changes nothing of what is said of the earlier ones. -/
theorem Explained.concat {minted : List (Text × Option UInt64)} (h : Explained minted c)
    (entry : Text × Option UInt64) : Explained (minted ++ [entry]) c := by
  unfold Explained at h ⊢
  split
  · rename_i hresp
    rw [hresp] at h
    exact ⟨getElem?_concat_eq_some.mpr (.inl h.1), h.2⟩
  · rename_i hresp
    rw [hresp] at h
    exact h.imp_right (Or.imp_right fun ⟨herror, node, hnode⟩ =>
      ⟨herror, node, getElem?_concat_eq_some.mpr (.inl hnode)⟩)

theorem mem_map_dangle {remaining : List PendingRpc} {name : Text} {stack : List RpcFrame}
    (h : RpcFrame.detaching node remaining ∈ stack.map (RpcFrame.dangle name)) :
    .detaching node remaining ∈ stack := by
  obtain ⟨frame, hframe, hdangle⟩ := mem_map.mp h
  cases frame with
  | callback | sending => cases hdangle
  | detaching => exact hdangle ▸ hframe

section

variable (h : Inv s)
include h

theorem Inv.nodup : (s.pending.map (·.call) ++ s.completed.map (·.call)).Nodup :=
  h.accounted.nodup_iff.mpr List.nodup_range

/-- Entries may change places. -/
theorem Inv.rearranged (hperm : s'.pending.Perm s.pending) (hcompleted : s'.completed = s.completed)
    (hminted : s'.minted = s.minted) (hfiled : s'.Filed) : Inv s' where
  accounted := by
    rw [hcompleted, hminted]
    exact ((hperm.map (·.call)).append_right _).trans h.accounted
  owned := fun e he => by
    rw [hminted]
    exact h.owned e (hperm.mem_iff.mp he)
  explained := by
    rw [hcompleted, hminted]
    exact h.explained
  filed := hfiled

/-- **Completing an entry that has just been taken out** keeps the account: `s` still counts the
entry among the pending, `s'` no longer does. -/
theorem Inv.complete_taken {e : PendingRpc}
    (htaken : s.pending.Perm (e :: s'.pending)) (hcall : c.call = e.call)
    (hcompleted : s'.completed = s.completed) (hminted : s'.minted = s.minted)
    (hfiled : s'.Filed)
    (hwhy : s.minted[c.call]? = some (e.node, some e.corr) → Explained s.minted c) :
    Inv (s'.complete c) := by
  refine ⟨?_, ?_, ?_, ?_⟩
  · have hperm : (s'.pending.map (·.call) ++ (s.completed ++ [c]).map (·.call)).Perm
        (s.pending.map (·.call) ++ s.completed.map (·.call)) := by
      have hmap := (htaken.map (·.call)).append_right (s.completed.map (·.call))
      refine .trans ?_ hmap.symm
      simp only [map_append, map_cons, hcall, ← append_assoc]
      exact perm_append_singleton _ _
    rw [pending_complete]
    show (_ ++ (s'.completed ++ [c]).map (·.call)).Perm (range s'.minted.length)
    rw [hcompleted, hminted]
    exact hperm.trans h.accounted
  · intro x hx
    rw [pending_complete] at hx
    show s'.minted[x.call]? = _
    rw [hminted]
    exact h.owned x (htaken.mem_iff.mpr (mem_cons_of_mem _ hx))
  · intro x hx
    show Explained s'.minted x
    rw [hminted]
    rcases mem_append.mp (show x ∈ s'.completed ++ [c] from hx) with hold | hnew
    · exact h.explained x (hcompleted ▸ hold)
    · obtain rfl := mem_singleton.mp hnew
      exact hwhy (hcall ▸ h.owned e (htaken.mem_iff.mpr mem_cons_self))
  · intro node remaining hmem
    exact hfiled node remaining ((mem_cons.mp hmem).resolve_left RpcFrame.noConfusion)

theorem inv_call_refused (node : Text) :
    Inv (complete { s with minted := s.minted ++ [(node, none)] }
      { call := s.minted.length, status := .error }) := by
  refine ⟨?_, ?_, ?_, ?_⟩
  · rw [pending_complete]
    show (s.pending.map (·.call) ++ (s.completed ++ [_]).map Completion.call).Perm
      (range (s.minted ++ [_]).length)
    rw [map_append, ← append_assoc, length_append, length_singleton, range_succ]
    exact h.accounted.append_right _
  · intro e he
    rw [pending_complete] at he
    exact getElem?_concat_eq_some.mpr (.inl (h.owned e he))
  · intro c hc
    rcases mem_append.mp (show c ∈ s.completed ++ [_] from hc) with hold | hnew
    · exact (h.explained c hold).concat _
    · obtain rfl := mem_singleton.mp hnew
      exact .inr (.inr ⟨rfl, node, getElem?_concat_eq_some.mpr (.inr ⟨rfl, rfl⟩)⟩)
  · intro node' remaining hmem
    exact h.filed node' remaining ((mem_cons.mp hmem).resolve_left RpcFrame.noConfusion)

theorem inv_call_sent {e : PendingRpc} (hcall : e.call = s.minted.length) (seq : UInt64) (w : World) :
    Inv (s.sendsOff e seq w) := by
  have hperm : (s.sendsOff e seq w).pending.Perm (e :: s.pending) := perm_middle
  refine ⟨?_, ?_, fun c hc => (h.explained c hc).concat _, ?_⟩
  · have hcount := (hperm.map (·.call)).append_right (s.completed.map (·.call))
    refine hcount.trans ?_
    rw [show (s.sendsOff e seq w).minted.length = s.minted.length + 1 from length_append, range_succ,
      map_cons, hcall]
    exact (h.accounted.cons _).trans (perm_append_singleton _ _).symm
  · intro x hx
    rcases mem_cons.mp (hperm.mem_iff.mp hx) with rfl | hold
    · exact getElem?_concat_eq_some.mpr (.inr ⟨hcall, rfl⟩)
    · exact getElem?_concat_eq_some.mpr (.inl (h.owned x hold))
  · intro node remaining hmem
    exact h.filed node remaining ((mem_cons.mp hmem).resolve_left RpcFrame.noConfusion)

/-- The peer's entries move from the table to the new loop. -/
theorem inv_stepDetachAll (p : Peer) : Inv (s.stepDetachAll p) := by
  have hheld : (s.stack.map (RpcFrame.dangle p.nodeName)).flatMap RpcFrame.held =
      s.stack.flatMap RpcFrame.held := by
    rw [flatMap_map]
    congr 1
    funext frame
    cases frame <;> rfl
  have hperm : (s.stepDetachAll p).pending.Perm s.pending := by
    simp only [stepDetachAll, takePeer, perPeer, pending, flatMap_cons, hheld, ← append_assoc]
    refine .append_right _ (.append_right _ ?_)
    refine .trans perm_append_comm ?_
    have hsplit := filter_append_perm (fun e : PendingRpc => e.node = p.nodeName) s.fwd.outstanding
    simpa only [decide_not, RpcFrame.held] using hsplit
  refine h.rearranged hperm rfl rfl fun node remaining hmem e he => ?_
  rcases mem_cons.mp hmem with hnew | hold
  · obtain ⟨rfl, rfl⟩ := RpcFrame.detaching.inj hnew
    simpa using (mem_filter.mp he).2
  · exact h.filed node remaining (mem_map_dangle hold) e he

theorem inv_moves (hmoves : Moves s ev s') : Inv s' := by
  have hbelow : ∀ {frame : RpcFrame} {rest : List RpcFrame}, s.stack = frame :: rest →
      ∀ node remaining, .detaching node remaining ∈ rest → ∀ e ∈ remaining, e.node = node :=
    fun hstack node remaining hmem => h.filed node remaining (by rw [hstack]; exact mem_cons_of_mem _ hmem)
  cases hmoves with
  | stays => exact h
  | refused p => exact inv_call_refused h p.nodeName
  | sent hroom fqn param sessionId seq w => exact inv_call_sent h rfl seq w
  | resolved _ hresolve hcall hwhy =>
    obtain ⟨hmem, rfl, rfl, rfl⟩ := resolve_some hresolve
    exact h.complete_taken ((perm_cons_erase hmem).append_right _) hcall rfl rfl h.filed hwhy
  | detaches p => exact inv_stepDetachAll h p
  | @fires _ node remaining rest i e hstack hget =>
    obtain ⟨hi, hgetE⟩ := List.getElem?_eq_some_iff.mp hget
    have hremoved : remaining.Perm (e :: remaining.eraseIdx i) := by
      rw [← hgetE]
      exact (getElem_cons_eraseIdx_perm hi).symm
    refine h.complete_taken (e := e) ?_ rfl rfl rfl ?_ fun _ => .inr (.inl rfl)
    · -- the loop gives up one of its entries; the table and the frames below are as they were
      simp only [pending, hstack, flatMap_cons, RpcFrame.held, append_assoc]
      exact List.Perm.trans ((hremoved.append_right _).append_left _) perm_middle
    intro node' remaining' hmem x hx
    rcases mem_cons.mp hmem with hnew | hold
    · obtain ⟨rfl, rfl⟩ := RpcFrame.detaching.inj hnew
      exact h.filed node' remaining (by rw [hstack]; exact mem_cons_self) x (mem_of_mem_eraseIdx hx)
    · exact hbelow hstack node' remaining' hold x hx
  | returns _ hstack hheld =>
    exact h.rearranged (.of_eq (by simp [pending, hstack, hheld])) rfl rfl (hbelow hstack)
  | files _ hstack =>
    exact h.rearranged (.of_eq (by simp [pending, hstack, RpcFrame.held])) rfl rfl (hbelow hstack)
  | loses _ hstack =>
    refine h.rearranged ?_ rfl rfl (hbelow hstack)
    simp only [pending, hstack, flatMap_cons, RpcFrame.held, append_assoc]
    exact perm_middle.append_left _

end

theorem inv_step (s : RpcMachine) (ev : RpcEvent) (h : Inv s) : Inv (s.step ev) :=
  inv_moves h (step_moves s ev)

/-- A lost entry stays lost, so its call is never completed. -/
theorem lost_never_completed (h : Inv s) {e : PendingRpc} (he : e ∈ s.lost) (es : List RpcEvent) :
    ∀ c ∈ (s.run es).completed, c.call ≠ e.call := by
  have hkept : ∀ (t : RpcMachine) (ev : RpcEvent), e ∈ t.lost → e ∈ (t.step ev).lost := by
    intro t ev ht
    have hmoves := step_moves t ev
    generalize t.step ev = t' at hmoves
    cases hmoves with
    | loses => exact mem_cons_of_mem _ ht
    | _ => exact ht
  obtain ⟨hinv, hlost⟩ : Inv (s.run es) ∧ e ∈ (s.run es).lost :=
    run_invariant (fun t => Inv t ∧ e ∈ t.lost)
      (fun t ev ht => ⟨inv_step t ev ht.1, hkept t ev ht.2⟩) ⟨h, he⟩ es
  intro c hc heq
  have hpending : e ∈ (s.run es).pending := mem_append_right _ (mem_append_right _ hlost)
  exact (nodup_append.mp hinv.nodup).2.2 _ (mem_map_of_mem hpending) _ (mem_map_of_mem hc) heq.symm

/-! ## Runs in which no send is disturbed -/

variable (s) in
/-- The entries that are filed or about to be. -/
def awaiting : List PendingRpc := s.fwd.outstanding ++ s.stack.flatMap RpcFrame.toFile

variable (s) in
/-- A `call` to the node is still sending. -/
def sendingTo (node : Text) : Bool := (s.stack.flatMap RpcFrame.toFile).any fun e => e.node = node

/-- No call and no detach of a peer comes in the middle of a send to it; and the correlation ids have
not come round. -/
def Undisturbed (s : RpcMachine) : RpcEvent → Prop
  | .call p _ _ _ => s.sendingTo p.nodeName = false ∧ s.minted.length + 2 < 2 ^ 64
  | .detachAll p => s.sendingTo p.nodeName = false
  | _ => True

instance Undisturbed.decidable (s : RpcMachine) : (ev : RpcEvent) → Decidable (s.Undisturbed ev)
  | .call _ _ _ _ => inferInstanceAs (Decidable (_ ∧ _))
  | .detachAll _ => inferInstanceAs (Decidable (_ = false))
  | .response _ _ | .expire _ _ | .fireNext _ | .ret => isTrue trivial

theorem ne_of_sendingTo (h : s.sendingTo node = false) {e : PendingRpc}
    (he : e ∈ s.stack.flatMap RpcFrame.toFile) : e.node ≠ node := by
  rw [sendingTo, any_eq_false] at h
  simpa using h e he

theorem toFile_of_held_nil {frame : RpcFrame} (h : frame.held = []) : frame.toFile = [] := by
  cases frame with
  | sending => cases h
  | callback | detaching => rfl

/-- Entries leave the table, or the one of a new call is about to come. -/
theorem Moves.awaiting (h : Moves s ev s') :
    s.minted <+: s'.minted ∧ s'.fwd.maxOutstanding = s.fwd.maxOutstanding ∧
    (s'.awaiting.Sublist s.awaiting ∨ ∃ p fqn param sessionId e,
      ev = .call p fqn param sessionId ∧ e.node = p.nodeName ∧ e.call = s.minted.length ∧
      (s.fwd.perPeer p.nodeName).length < s.fwd.maxOutstanding ∧
      s'.awaiting.Perm (e :: s.awaiting)) := by
  cases h with
  | stays => exact ⟨prefix_refl _, rfl, .inl (.refl _)⟩
  | refused => exact ⟨prefix_append _ _, rfl, .inl (.refl _)⟩
  | sent hroom fqn param sessionId seq w =>
    exact ⟨prefix_append _ _, rfl, .inr ⟨_, _, _, _, _, rfl, rfl, rfl, hroom, perm_middle⟩⟩
  | resolved _ hresolve =>
    obtain ⟨-, -, -, rfl⟩ := resolve_some hresolve
    exact ⟨prefix_refl _, rfl, .inl (erase_sublist.append_right _)⟩
  | detaches p =>
    refine ⟨prefix_refl _, rfl, .inl ?_⟩
    have htoFile : (s.stepDetachAll p).stack.flatMap RpcFrame.toFile =
        s.stack.flatMap RpcFrame.toFile := by
      show [] ++ (s.stack.map (RpcFrame.dangle p.nodeName)).flatMap RpcFrame.toFile = _
      rw [nil_append, flatMap_map]
      congr 1
      funext frame
      cases frame <;> rfl
    rw [RpcMachine.awaiting, htoFile]
    exact filter_sublist.append_right _
  | fires _ hstack =>
    refine ⟨prefix_refl _, rfl, .inl ?_⟩
    simp [RpcMachine.awaiting, complete, hstack, RpcFrame.toFile]
  | returns _ hstack hheld =>
    refine ⟨prefix_refl _, rfl, .inl ?_⟩
    simp [RpcMachine.awaiting, hstack, toFile_of_held_nil hheld]
  | files _ hstack =>
    refine ⟨prefix_refl _, rfl, .inl ?_⟩
    simp [RpcMachine.awaiting, hstack, RpcFrame.toFile]
  | loses _ hstack =>
    refine ⟨prefix_refl _, rfl, .inl ?_⟩
    simp [RpcMachine.awaiting, hstack, RpcFrame.toFile]

/-- What holds besides along an undisturbed run. -/
structure Sound (s : RpcMachine) : Prop where
  counter : s.fwd.nextCorrelationId.toNat ≤ s.minted.length + 1
  fresh : ∀ (i : Nat) (node : Text) (corr : UInt64), s.minted[i]? = some (node, some corr) →
    corr.toNat < s.fwd.nextCorrelationId.toNat
  distinct : ∀ (i j : Nat) (node node' : Text) (corr : UInt64),
    s.minted[i]? = some (node, some corr) → s.minted[j]? = some (node', some corr) → i = j
  bounded : ∀ node, (s.awaiting.filter fun e => e.node = node).length ≤ s.fwd.maxOutstanding
  live : ∀ e, .sending e false ∉ s.stack
  kept : s.lost = []

theorem sound_start (maxOutstanding : Nat) (hashToFqn : UInt64 → Option Text) (w : World) :
    Sound (start maxOutstanding hashToFqn w) where
  counter := le_rfl
  fresh := fun _ _ _ h => by simp [start] at h
  distinct := fun _ _ _ _ _ h => by simp [start] at h
  bounded := fun _ => Nat.zero_le _
  live := fun _ h => by cases h
  kept := rfl

section

variable (h : Sound s)
include h

/-- A call that finds room leaves no more than the bound, since no other one is being sent. -/
theorem Sound.bounded_moves (hok : s.Undisturbed ev) (hmoves : Moves s ev s') (node : Text) :
    (s'.awaiting.filter fun e => e.node = node).length ≤ s'.fwd.maxOutstanding := by
  obtain ⟨-, hmax, hsub | ⟨p, fqn, param, sessionId, e, rfl, hnode, -, hroom, hperm⟩⟩ := hmoves.awaiting
  · exact hmax ▸ (hsub.filter _).length_le.trans (h.bounded node)
  rw [hmax, (hperm.filter _).length_eq, filter_cons]
  split
  · rename_i heq
    have hnone : (s.stack.flatMap RpcFrame.toFile).filter (fun x => x.node = node) = [] := by
      rw [filter_eq_nil_iff]
      intro x hx hxnode
      rw [decide_eq_true_eq] at heq hxnode
      exact ne_of_sendingTo hok.1 hx (hxnode.trans (heq.symm.trans hnode))
    rw [decide_eq_true_eq] at heq
    rw [awaiting, filter_append, hnone, append_nil, length_cons, ← heq, hnode]
    exact hroom
  · exact h.bounded node

/-- The id a send is to be filed under is not taken. -/
theorem Sound.not_taken (hinv : Inv s) {e : PendingRpc} {live : Bool} {rest : List RpcFrame}
    (hstack : s.stack = .sending e live :: rest) : s.fwd.hasEntry e.node e.corr ≠ true := by
  intro htaken
  obtain ⟨x, hx, hkeys⟩ := any_eq_true.mp htaken
  rw [decide_eq_true_eq] at hkeys
  have heheld : e ∈ s.stack.flatMap RpcFrame.held ++ s.lost := by
    rw [hstack]
    exact mem_cons_self
  have hxminted := hinv.owned x (mem_append_left _ hx)
  rw [hkeys.2] at hxminted
  have hsame := h.distinct _ _ _ _ _ hxminted (hinv.owned e (mem_append_right _ heheld))
  have hnodup := (nodup_append.mp hinv.nodup).1
  rw [pending, map_append, nodup_append] at hnodup
  exact hnodup.2.2 _ (mem_map_of_mem hx) _ (mem_map_of_mem heheld) hsame

/-- The moves that mint nothing. -/
theorem Sound.of_same (hminted : s'.minted = s.minted)
    (hcounter : s'.fwd.nextCorrelationId = s.fwd.nextCorrelationId)
    (hbounded : ∀ node, (s'.awaiting.filter fun e => e.node = node).length ≤ s'.fwd.maxOutstanding)
    (hlive : ∀ e, .sending e false ∉ s'.stack) (hkept : s'.lost = []) : Sound s' where
  counter := by rw [hminted, hcounter]; exact h.counter
  fresh := by rw [hminted, hcounter]; exact h.fresh
  distinct := by rw [hminted]; exact h.distinct
  bounded := hbounded
  live := hlive
  kept := hkept

theorem Sound.moves (hinv : Inv s) (hok : s.Undisturbed ev) (hmoves : Moves s ev s') : Sound s' := by
  have hbounded := h.bounded_moves hok hmoves
  have hpushed : ∀ {frame : RpcFrame}, (∀ e, frame ≠ .sending e false) → ∀ e,
      .sending e false ∉ frame :: s.stack := fun hne e hmem =>
    (mem_cons.mp hmem).elim (fun heq => hne e heq.symm) (h.live e)
  have hpopped : ∀ {frame : RpcFrame} {rest : List RpcFrame}, s.stack = frame :: rest → ∀ e,
      .sending e false ∉ rest := fun hstack e hmem =>
    h.live e (by rw [hstack]; exact mem_cons_of_mem _ hmem)
  cases hmoves with
  | stays => exact h
  | refused p =>
    refine ⟨?_, fun i node corr hi => ?_, fun i j node node' corr hi hj => ?_, hbounded,
      hpushed fun _ => RpcFrame.noConfusion, h.kept⟩
    · exact h.counter.trans (by simp [complete])
    · rcases getElem?_concat_eq_some.mp hi with hold | ⟨-, hnew⟩
      · exact h.fresh i node corr hold
      · cases hnew
    rcases getElem?_concat_eq_some.mp hi with hiold | ⟨-, hnew⟩
    · rcases getElem?_concat_eq_some.mp hj with hjold | ⟨-, hnew⟩
      · exact h.distinct i j node node' corr hiold hjold
      · cases hnew
    · cases hnew
  | sent hroom fqn param sessionId seq w =>
    have hcounter := h.counter
    have hmints := hok.2
    have hnext : (s.fwd.nextCorrelationId + 1).toNat = s.fwd.nextCorrelationId.toNat + 1 := by
      rw [UInt64.toNat_add]
      exact Nat.mod_eq_of_lt (by rw [show (1 : UInt64).toNat = 1 from rfl]; omega)
    refine ⟨?_, fun i node corr hi => ?_, fun i j node node' corr hi hj => ?_, hbounded,
      hpushed (fun e heq => by cases heq), h.kept⟩
    · show (s.fwd.nextCorrelationId + 1).toNat ≤ (s.minted ++ [_]).length + 1
      rw [hnext, length_append, length_singleton]
      omega
    · show corr.toNat < (s.fwd.nextCorrelationId + 1).toNat
      rw [hnext]
      rcases getElem?_concat_eq_some.mp hi with hold | ⟨-, hnew⟩
      · exact (h.fresh i node corr hold).trans (Nat.lt_succ_self _)
      · obtain rfl := Option.some.inj (Prod.mk.inj hnew).2
        exact Nat.lt_succ_self _
    · -- an older call's id is below the counter, so only the new call has the new id
      rcases getElem?_concat_eq_some.mp hi with hiold | ⟨hi', hinew⟩ <;>
        rcases getElem?_concat_eq_some.mp hj with hjold | ⟨hj', hjnew⟩
      · exact h.distinct i j node node' corr hiold hjold
      · obtain rfl := Option.some.inj (Prod.mk.inj hjnew).2
        exact absurd (h.fresh i node _ hiold) (lt_irrefl _)
      · obtain rfl := Option.some.inj (Prod.mk.inj hinew).2
        exact absurd (h.fresh j node' _ hjold) (lt_irrefl _)
      · rw [hi', hj']
  | resolved _ hresolve =>
    obtain ⟨-, -, -, rfl⟩ := resolve_some hresolve
    exact h.of_same rfl rfl hbounded (hpushed fun _ => RpcFrame.noConfusion) h.kept
  | detaches p =>
    refine h.of_same rfl rfl hbounded (fun e hmem => ?_) h.kept
    obtain ⟨frame, hframe, hdangle⟩ := mem_map.mp ((mem_cons.mp hmem).resolve_left RpcFrame.noConfusion)
    cases frame with
    | callback | detaching => cases hdangle
    | sending e' live =>
      cases live with
      | false => exact h.live e' hframe
      | true =>
        -- only the detached peer's reference dangles, and there is none
        obtain ⟨rfl, hnode⟩ := RpcFrame.sending.inj hdangle
        have hnone := ne_of_sendingTo hok (mem_flatMap.mpr ⟨_, hframe, mem_singleton_self _⟩)
        simp [hnone] at hnode
  | fires _ hstack =>
    refine h.of_same rfl rfl hbounded (fun e hmem => ?_) h.kept
    rcases mem_cons.mp hmem with hnew | hold
    · cases hnew
    · exact hpopped hstack e ((mem_cons.mp hold).resolve_left RpcFrame.noConfusion)
  | returns _ hstack => exact h.of_same rfl rfl hbounded (hpopped hstack) h.kept
  | files _ hstack => exact h.of_same rfl rfl hbounded (hpopped hstack) h.kept
  | @loses _ e live rest hstack hwhy =>
    exfalso
    cases live with
    | false => exact h.live e (by rw [hstack]; exact mem_cons_self)
    | true => exact h.not_taken hinv hstack (hwhy rfl)

end

/-! ## Peer loss

After a detach the peer's table is empty; what is filed under the peer later belongs to later
calls. -/

/-- The peer has been detached when the calls `before` had been made. -/
structure Detached (node : Text) (before : List (Text × Option UInt64)) (s : RpcMachine) : Prop where
  grown : before <+: s.minted
  left : ∀ e ∈ s.awaiting, e.node = node → before.length ≤ e.call

variable {before : List (Text × Option UInt64)}

theorem detached_detachAll (hready : s.ready) {p : Peer} (hok : s.sendingTo p.nodeName = false) :
    Detached p.nodeName s.minted (s.step (.detachAll p)) := by
  rw [step, if_pos hready]
  refine ⟨prefix_refl _, fun e he hnode => ?_⟩
  rcases mem_append.mp he with hout | hsending
  · have hother := (mem_filter.mp hout).2
    simp [hnode] at hother
  obtain ⟨frame, hframe, hin⟩ := mem_flatMap.mp hsending
  rcases mem_cons.mp hframe with rfl | hframe
  · cases hin
  obtain ⟨frame', hframe', rfl⟩ := mem_map.mp hframe
  have hin' : e ∈ frame'.toFile := by
    cases frame' <;> exact hin
  exact absurd hnode (ne_of_sendingTo hok (mem_flatMap.mpr ⟨_, hframe', hin'⟩))

theorem detached_step (s : RpcMachine) (ev : RpcEvent) (h : Detached node before s) :
    Detached node before (s.step ev) := by
  obtain ⟨hgrown, -, hentries⟩ := (step_moves s ev).awaiting
  refine ⟨h.grown.trans hgrown, fun e he hnode => ?_⟩
  rcases hentries with hsub | ⟨_, _, _, _, e', -, -, hcall, -, hperm⟩
  · exact h.left e (hsub.subset he) hnode
  rcases mem_cons.mp (hperm.mem_iff.mp he) with rfl | hold
  · rw [hcall]
    exact h.grown.length_le
  · exact h.left e hold hnode

/-- Once no detach loop of the peer is running, every call made to it before the detach has been
completed. -/
theorem Detached.completed (h : Detached node before s) (hinv : Inv s) (hkept : s.lost = [])
    (hdone : ∀ remaining, RpcFrame.detaching node remaining ∉ s.stack) {i : Nat}
    {corr : Option UInt64} (hi : before[i]? = some (node, corr)) : ∃ c ∈ s.completed, c.call = i := by
  have hlt : i < before.length := (List.getElem?_eq_some_iff.mp hi).1
  have hminted : s.minted[i]? = some (node, corr) := by
    obtain ⟨rest, hrest⟩ := h.grown
    rw [← hrest, List.getElem?_append_left hlt, hi]
  have hmem : i ∈ s.pending.map (·.call) ++ s.completed.map (·.call) := by
    rw [hinv.accounted.mem_iff, mem_range]
    exact hlt.trans_le h.grown.length_le
  rcases mem_append.mp hmem with hpending | hcompleted
  · obtain ⟨e, he, rfl⟩ := mem_map.mp hpending
    have howned := hinv.owned e he
    rw [hminted] at howned
    obtain ⟨rfl, -⟩ := Prod.mk.inj (Option.some.inj howned)
    exfalso
    -- in the table or about to be: then it was made after the detach
    have hlate : e ∉ s.awaiting := fun hmem => absurd (h.left e hmem rfl) (by omega)
    rw [pending, hkept, append_nil] at he
    rcases mem_append.mp he with hout | hheld
    · exact hlate (mem_append_left _ hout)
    obtain ⟨frame, hframe, hin⟩ := mem_flatMap.mp hheld
    cases frame with
    | callback c => cases hin
    | sending e' live => exact hlate (mem_append_right _ (mem_flatMap.mpr ⟨_, hframe, hin⟩))
    | detaching node' remaining =>
      have hnode := hinv.filed node' remaining hframe e hin
      subst hnode
      exact hdone remaining hframe
  · obtain ⟨c, hc, rfl⟩ := mem_map.mp hcompleted
    exact ⟨c, hc, rfl⟩

/-- **No call completes twice, and every call completes if no send is disturbed.** In every state of
every run no `on_response` has been invoked twice; one that was invoked with a response got it from
the peer the call was made to, under the correlation id minted for that call, and one invoked without
a response was refused, timed out or lost its peer.

In an undisturbed run besides: no other call was given that id; no peer has more entries outstanding
than the bound; and once a detach of a peer is over, every call made to that peer before it has been
completed. -/
theorem calls_complete_exactly_once (maxOutstanding : Nat) (hashToFqn : UInt64 → Option Text)
    (w : World) (es : List RpcEvent) :
    let m := start maxOutstanding hashToFqn w
    let s := m.run es
    (s.completed.map (·.call)).Nodup ∧
    (∀ c ∈ s.completed, Explained s.minted c) ∧
    (Guarded step Undisturbed m es →
      (∀ (i j : Nat) node node' corr, s.minted[i]? = some (node, some corr) →
        s.minted[j]? = some (node', some corr) → i = j) ∧
      (∀ node, (s.fwd.perPeer node).length ≤ maxOutstanding) ∧
      (∀ es₁ p es₂, es = es₁ ++ .detachAll p :: es₂ → (m.run es₁).ready = true →
        (∀ remaining, RpcFrame.detaching p.nodeName remaining ∉ s.stack) →
        ∀ i corr, (m.run es₁).minted[i]? = some (p.nodeName, corr) →
          ∃ c ∈ s.completed, c.call = i)) := by
  intro m s
  have hinv : Inv s := run_invariant Inv inv_step (inv_start maxOutstanding hashToFqn w) es
  have hmax : s.fwd.maxOutstanding = maxOutstanding :=
    run_invariant (fun t => t.fwd.maxOutstanding = maxOutstanding)
      (fun t ev ht => (step_moves t ev).awaiting.2.1.trans ht) rfl es
  refine ⟨(nodup_append.mp hinv.nodup).2.1, hinv.explained, fun hes => ?_⟩
  obtain ⟨-, hsound⟩ : Inv s ∧ Sound s :=
    hes.invariant (fun t => Inv t ∧ Sound t)
      (fun t ev ht hok => ⟨inv_step t ev ht.1, ht.2.moves ht.1 hok (step_moves t ev)⟩)
      ⟨inv_start .., sound_start ..⟩
  refine ⟨hsound.distinct, fun node => ?_, ?_⟩
  · exact hmax ▸ ((sublist_append_left _ _).filter _).length_le.trans (hsound.bounded node)
  rintro es₁ p es₂ rfl hready hdone i corr hi
  have hdetached : Detached p.nodeName (m.run es₁).minted s := by
    have hsplit : s = es₂.foldl step ((m.run es₁).step (.detachAll p)) := by
      show (es₁ ++ .detachAll p :: es₂).foldl step _ = _
      rw [List.foldl_append, List.foldl_cons]
      rfl
    have hok : (m.run es₁).sendingTo p.nodeName = false := (guarded_append.mp hes).2.1
    rw [hsplit]
    exact run_invariant (Detached p.nodeName _) detached_step (detached_detachAll hready hok) es₂
  exact hdetached.completed hinv hsound.kept hdone hi

/-- A peer and a forwarder that lets it have one call at a time. -/
def remote : Peer := { channel := { key := 1, scheme := [], polls := true, lowWater := 1 }, nodeName := [0x70] }

def oneAtATime : RpcMachine := start 1 (fun _ => none) World.quiet

/-- A call is sent and filed; then its peer is lost. -/
def callThenDetach : List RpcEvent :=
  [.call remote [0x66] [] 0, .ret, .detachAll remote, .fireNext 0, .ret, .ret]

theorem call_completed_by_detach : ∃ c ∈ (oneAtATime.run callThenDetach).completed, c.call = 0 := by
  obtain ⟨-, -, hrun⟩ := calls_complete_exactly_once 1 (fun _ => none) World.quiet callThenDetach
  obtain ⟨-, -, hdetach⟩ := hrun (by decide +kernel)
  have hover : (oneAtATime.run callThenDetach).stack = [] := by decide +kernel
  exact hdetach (callThenDetach.take 2) remote (callThenDetach.drop 3) rfl (by decide +kernel)
    (fun remaining hmem => by rw [← oneAtATime, hover] at hmem; cases hmem) 0 (some 1) (by decide +kernel)

/-- The peer is detached while its call is being sent: the call is never completed, whatever happens.
And a call made while another one to the peer is being sent goes past the bound. -/
theorem detached_during_send :
    (let s := oneAtATime.run [.call remote [0x66] [] 0, .detachAll remote, .ret, .ret];
      s.stack = [] ∧ s.minted = [(remote.nodeName, some 1)] ∧
        ∀ es, ∀ c ∈ (s.run es).completed, c.call ≠ 0) ∧
    ((oneAtATime.run [.call remote [0x66] [] 0, .call remote [0x66] [] 0, .ret, .ret]).fwd.perPeer
      remote.nodeName).length = 2 := by
  refine ⟨⟨by decide +kernel, by decide +kernel, fun es => ?_⟩, by decide +kernel⟩
  exact lost_never_completed (e := ⟨remote.nodeName, 1, [0x66], 0⟩)
    (run_invariant Inv inv_step (inv_start 1 (fun _ => none) World.quiet) _) (by decide +kernel) es

end RpcMachine

end Plexus.Io
