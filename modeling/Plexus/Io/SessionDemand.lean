/-
# Plexus.Io.SessionDemand — a node's demand on one peer, across disconnects and reconnects.

`io/routing_engine.h` (`subscribe`, `unsubscribe`), `io/peer_session.h` (`subscribe`, `unsubscribe`,
`tear_down`, `maybe_fire_ready`), `io/detail/peer_session_complete.h` (`on_complete`,
`resubscribe_all`, `on_subscribe_response_received`) and the remembered demand of
`io/message_forwarder.h`.

A run is any history of these calls towards one peer; it numbers the subscribe frames of a cycle and
notes which have been answered. What is remembered and what a handshake sends is as the engine was
told. The ready edge waits for all answers as long as fewer than 65536 are missing: the counter has
16 bits, and each subscribe of a topic adds to it.
-/
import Plexus.Io.PeerSession
import Plexus.Lib.Run
import Plexus.Lib.Separated
import Mathlib.Data.List.Perm.Subperm

namespace Plexus.Io

open Wire Lib MessageForwarder KeyedRefcount List

/-! ## The run -/

/-- The edges of a session, in order. -/
inductive DemandMark
  | completed
  /-- The ready edge: how many subscribe frames the cycle has sent, and which were answered. -/
  | ready (sent : Nat) (answered : List Nat)
  | tornDown
  deriving DecidableEq

namespace DemandMark

@[simp] def IsCompleted : DemandMark → Prop
  | completed => True
  | _ => False

@[simp] def IsReady : DemandMark → Prop
  | ready _ _ => True
  | _ => False

end DemandMark

/-- A session and an account of its subscribe frames. -/
structure DemandRun where
  state : SessionState
  /-- The subscribe frames sent since the handshake completed. -/
  sent : Nat := 0
  /-- Their numbers, as the answers came. -/
  answered : List Nat := []
  marks : List DemandMark := []

inductive DemandEvent
  | subscribe (d : RememberedDemand)
  | unsubscribe (fqn : Text)
  /-- The handshake of a session built over this channel completes. -/
  | complete (ch : Channel)
  | tearDown
  /-- A subscribe response comes: the answer to the frame of this number. -/
  | answer (i : Nat) (inner : Bytes)

/-- `build_into`: a new session over a new channel, towards the same peer. -/
def PeerSession.rebuilt (s : PeerSession) (ch : Channel) : PeerSession :=
  { s with
    peer := { s.peer with channel := ch }
    tornDown := false
    closedForProtocolError := false
    forwardersInstalled := false
    peerSessionId := 0
    outstandingSubscribes := 0
    readyLatchedThisCycle := false }

namespace DemandRun

variable (r : DemandRun)

/-- `remembered_topics` of the peer. -/
def demands : List RememberedDemand :=
  r.state.messages.remoteTopics r.state.peer.nodeName

/-- `peer_session::subscribe`. -/
def sessionSubscribe (d : RememberedDemand) : DemandRun :=
  match r.state.messages.attach r.state.world r.state.peer d.fqn d.qos d.typeId with
  | (emitted, messages, world) =>
    if emitted then
      { r with
        state := { r.state with
          messages, world
          session := { r.state.session with
            outstandingSubscribes := r.state.session.outstandingSubscribes + 1 } }
        sent := r.sent + 1 }
    else { r with state := { r.state with messages, world } }

/-- `peer_session::unsubscribe`. -/
def sessionUnsubscribe (fqn : Text) : DemandRun :=
  match r.state.messages.detach r.state.world r.state.peer fqn with
  | (_, messages, world) => { r with state := { r.state with messages, world } }

/-- `resubscribe_all`; recording a remembered topic again changes nothing, so the list that is walked
stays as it is. -/
def resubscribeAll : DemandRun := r.demands.foldl sessionSubscribe r

def maybeFireReady : DemandRun :=
  if r.state.session.outstandingSubscribes = 0 ∧ r.state.session.readyLatchedThisCycle = false then
    { r with
      state := { r.state with session := { r.state.session with readyLatchedThisCycle := true } }
      marks := r.marks ++ [.ready r.sent r.answered] }
  else r

/-- The session of this cycle, complete: `on_complete` up to the resubscription. -/
def installed (ch : Channel) : DemandRun where
  state := { r.state with
    session := { r.state.session.rebuilt ch with forwardersInstalled := true } }
  marks := r.marks ++ [.completed]

/-- `on_complete`, which a second completion passes through unchanged. -/
def onComplete (ch : Channel) : DemandRun :=
  if r.state.session.forwardersInstalled then r
  else (r.installed ch).resubscribeAll.maybeFireReady

def tearDown (r : DemandRun) : DemandRun where
  state := r.state.tearDown
  marks := r.marks ++ [.tornDown]

/-- `on_subscribe_response_received`, behind the gate of `on_receive`. -/
def onAnswer (i : Nat) (inner : Bytes) : DemandRun :=
  if r.state.session.tornDown then r
  else
    match decodeSubscribeResponse inner with
    | none => r
    | some _ =>
      let r := { r with answered := r.answered ++ [i] }
      if r.state.session.outstandingSubscribes = 0 then r
      else
        maybeFireReady { r with state := { r.state with session := { r.state.session with
          outstandingSubscribes := r.state.session.outstandingSubscribes - 1 } } }

def rememberDemand (d : RememberedDemand) : DemandRun :=
  { r with state := { r.state with
    messages := r.state.messages.recordRemoteTopic r.state.peer.nodeName d.fqn d.qos d.typeId } }

def forgetRememberedDemand (fqn : Text) : DemandRun :=
  { r with state := { r.state with
    messages := r.state.messages.forgetRemoteTopic r.state.peer.nodeName fqn } }

/-- `routing_engine::subscribe`, for a demand that is in scope. -/
def engineSubscribe (d : RememberedDemand) : DemandRun :=
  let r := r.rememberDemand d
  if r.state.session.forwardersInstalled then r.sessionSubscribe d else r

/-- `routing_engine::unsubscribe`. -/
def engineUnsubscribe (fqn : Text) : DemandRun :=
  let r := r.forgetRememberedDemand fqn
  if r.state.session.forwardersInstalled then r.sessionUnsubscribe fqn else r

def step : DemandEvent → DemandRun
  | .subscribe d => r.engineSubscribe d
  | .unsubscribe fqn => r.engineUnsubscribe fqn
  | .complete ch => r.onComplete ch
  | .tearDown => r.tearDown
  | .answer i inner => r.onAnswer i inner

def run (s : SessionState) (es : List DemandEvent) : DemandRun := es.foldl step { state := s }

/-- Towards a peer of which nothing is known yet. -/
structure Fresh (s : SessionState) : Prop where
  incomplete : s.session.forwardersInstalled = false
  idle : s.session.outstandingSubscribes = 0
  uncounted : ∀ fqn, s.messages.registry.refcount.counts s.peer.nodeName fqn = none
  nothing : s.messages.remoteTopics s.peer.nodeName = []

/-! ## What a call leaves behind -/

/-- The refcount of one of the peer's topics. -/
def count (fqn : Text) : Option UInt32 :=
  r.state.messages.registry.refcount.counts r.state.peer.nodeName fqn

/-- A message without a session id: its type and its payload. -/
def controlOf (frame : Bytes) : Option (MsgType × Bytes) :=
  match decodeHeader frame with
  | none => none
  | some hdr => if hdr.sessionId = 0 then some (hdr.type, frame.drop headerSize) else none

/-- The subscribe a demand puts on the wire. -/
def subscribeOf (d : RememberedDemand) : MsgType × Bytes :=
  (MsgType.subscribe, encodeSubscribeRequest (subscribeRequest d.fqn d.typeId d.qos))

def unsubscribeOf (fqn : Text) : MsgType × Bytes :=
  (MsgType.unsubscribe, encodeUnsubscribeRequest ⟨fqnTopicHash fqn⟩)

/-- How many of the messages are subscribes. -/
def subscribes (cs : List (MsgType × Bytes)) : Nat := cs.countP (fun c => c.1 = MsgType.subscribe)

theorem controlOf_controlFrame (type : MsgType) (timestampNs : UInt64) (inner : Bytes) :
    controlOf (controlFrame type timestampNs inner) = some (type, inner) := by
  simp only [controlOf, decodeHeader_controlFrame, if_true, drop_controlFrame]

theorem subscribes_append (cs cs' : List (MsgType × Bytes)) :
    subscribes (cs ++ cs') = subscribes cs + subscribes cs' := countP_append

theorem subscribes_map_subscribeOf (ds : List RememberedDemand) :
    subscribes (ds.map subscribeOf) = ds.length := by
  unfold subscribes
  rw [countP_map]
  exact countP_eq_length.mpr fun d _ => by simp [subscribeOf]

theorem subscribes_unsubscribeOf (fqn : Text) : subscribes [unsubscribeOf fqn] = 0 := rfl

/-- The session has put these messages on its channel, counted the subscribes among them, and is
otherwise as it was. -/
structure Spoke (cs : List (MsgType × Bytes)) (r r' : DemandRun) : Prop where
  peer : r'.state.session.peer = r.state.session.peer
  tornDown : r'.state.session.tornDown = r.state.session.tornDown
  complete : r'.state.session.forwardersInstalled = r.state.session.forwardersInstalled
  latched : r'.state.session.readyLatchedThisCycle = r.state.session.readyLatchedThisCycle
  outstanding : r'.state.session.outstandingSubscribes =
    r.state.session.outstandingSubscribes + UInt16.ofNat (subscribes cs)
  sent : r'.sent = r.sent + subscribes cs
  answered : r'.answered = r.answered
  marks : r'.marks = r.marks
  log : ∃ frames : List Bytes, r'.state.world.sent =
      r.state.world.sent ++ frames.map (Prod.mk r.state.session.peer.channel) ∧
    frames.map controlOf = cs.map some

/-- And what is remembered has stayed. -/
structure Asked (cs : List (MsgType × Bytes)) (r r' : DemandRun) : Prop extends Spoke cs r r' where
  demands : r'.demands = r.demands

variable {r r' r'' : DemandRun} {d : RememberedDemand} {fqn : Text}
  {cs cs' : List (MsgType × Bytes)}

theorem Spoke.silent {r r' : DemandRun} (hsession : r'.state.session = r.state.session)
    (hworld : r'.state.world = r.state.world) (hsent : r'.sent = r.sent)
    (hanswered : r'.answered = r.answered) (hmarks : r'.marks = r.marks) : Spoke [] r r' := by
  refine ⟨?_, ?_, ?_, ?_, ?_, hsent, hanswered, hmarks, [], ?_, rfl⟩
  · rw [hsession]
  · rw [hsession]
  · rw [hsession]
  · rw [hsession]
  · rw [hsession]
    exact (UInt16.add_zero _).symm
  · rw [hworld]
    exact (append_nil _).symm

theorem Asked.refl (r : DemandRun) : Asked [] r r := ⟨.silent rfl rfl rfl rfl rfl, rfl⟩

theorem Spoke.trans (h : Spoke cs r r') (h' : Spoke cs' r' r'') : Spoke (cs ++ cs') r r'' where
  peer := h'.peer.trans h.peer
  tornDown := h'.tornDown.trans h.tornDown
  complete := h'.complete.trans h.complete
  latched := h'.latched.trans h.latched
  outstanding := by
    rw [h'.outstanding, h.outstanding, subscribes_append, UInt16.ofNat_add, UInt16.add_assoc]
  sent := by rw [h'.sent, h.sent, subscribes_append, add_assoc]
  answered := h'.answered.trans h.answered
  marks := h'.marks.trans h.marks
  log := by
    obtain ⟨frames, hsent, hframes⟩ := h.log
    obtain ⟨frames', hsent', hframes'⟩ := h'.log
    refine ⟨frames ++ frames', ?_, ?_⟩
    · rw [hsent', hsent, h.peer, map_append, append_assoc]
    · rw [map_append, map_append, hframes, hframes']

theorem Asked.trans (h : Asked cs r r') (h' : Asked cs' r' r'') : Asked (cs ++ cs') r r'' :=
  ⟨h.toSpoke.trans h'.toSpoke, h'.demands.trans h.demands⟩

theorem asked_sessionSubscribe (hmem : ∃ d' ∈ r.demands, d'.fqn = d.fqn) :
    ∃ cs, (cs = [] ∨ cs = [subscribeOf d]) ∧ Asked cs r (r.sessionSubscribe d) := by
  have hdemands := remoteTopics_attach_of_mem hmem r.state.world d.qos d.typeId
  unfold sessionSubscribe
  unfold MessageForwarder.attach at hdemands ⊢
  dsimp only at hdemands ⊢
  split
  · rename_i hcounted
    rw [if_pos hcounted] at hdemands
    exact ⟨[], .inl rfl, .silent rfl rfl rfl rfl rfl, congrFun hdemands _⟩
  rename_i hfirst
  rw [if_neg hfirst] at hdemands
  exact ⟨[subscribeOf d], .inr rfl, ⟨rfl, rfl, rfl, rfl, rfl, rfl, rfl, rfl, [_], rfl,
    congrArg ([·]) (controlOf_controlFrame _ _ _)⟩, congrFun hdemands _⟩

theorem sessionSubscribe_of_first (hmem : ∃ d' ∈ r.demands, d'.fqn = d.fqn)
    (hcount : r.count d.fqn = none) :
    Asked [subscribeOf d] r (r.sessionSubscribe d) ∧
      (r.sessionSubscribe d).count d.fqn = some 1 ∧
      ∀ other, other ≠ d.fqn → (r.sessionSubscribe d).count other = r.count other := by
  have hdemands := remoteTopics_attach_of_mem hmem r.state.world d.qos d.typeId
  have hrefcount := refcount_attach r.state.messages r.state.world r.state.peer d.fqn d.qos d.typeId
  have hfirst := attach_of_first hcount r.state.world d.qos d.typeId
  unfold sessionSubscribe
  rw [hfirst] at hdemands hrefcount ⊢
  have hbump : ∀ other, counts
      (r.state.messages.registry.refcount.bump r.state.peer.nodeName d.fqn).2 r.state.peer.nodeName other =
        if other = d.fqn then some 1 else r.count other := by
    intro other
    rw [counts_bump]
    have hzero : r.state.messages.registry.refcount.counts r.state.peer.nodeName d.fqn = none := hcount
    rw [hzero]
    rfl
  refine ⟨?_, ?_, ?_⟩
  · exact ⟨⟨rfl, rfl, rfl, rfl, rfl, rfl, rfl, rfl, [_], rfl,
      congrArg ([·]) (controlOf_controlFrame _ _ _)⟩, congrFun hdemands _⟩
  · exact (congrArg (counts · r.state.peer.nodeName d.fqn) hrefcount).trans
      ((hbump d.fqn).trans (if_pos rfl))
  · intro other hne
    exact (congrArg (counts · r.state.peer.nodeName other) hrefcount).trans
      ((hbump other).trans (if_neg hne))

/-- A row of subscribes of distinct, remembered names, none of them counted: each is emitted. -/
theorem asked_foldl (ds : List RememberedDemand) (hmem : ∀ d ∈ ds, d ∈ r.demands)
    (hdistinct : (ds.map RememberedDemand.fqn).Nodup) (hcount : ∀ d ∈ ds, r.count d.fqn = none) :
    Asked (ds.map subscribeOf) r (ds.foldl sessionSubscribe r) := by
  induction ds generalizing r with
  | nil => exact .refl r
  | cons d ds ih =>
    obtain ⟨hd, hds⟩ := forall_mem_cons.mp hmem
    obtain ⟨hnew, hrest⟩ := nodup_cons.mp hdistinct
    obtain ⟨hasked, -, hothers⟩ := sessionSubscribe_of_first ⟨d, hd, rfl⟩ (hcount d mem_cons_self)
    refine hasked.trans (ih (fun d' hd' => hasked.demands ▸ hds d' hd') hrest ?_)
    intro d' hd'
    have hne : d'.fqn ≠ d.fqn := fun heq => hnew (heq ▸ mem_map_of_mem hd')
    rw [hothers d'.fqn hne]
    exact hcount d' (mem_cons_of_mem d hd')

/-! ## What is remembered -/

section

variable (r : DemandRun)

theorem demands_rememberDemand (d : RememberedDemand) :
    (r.rememberDemand d).demands =
      if ∀ d' ∈ r.demands, d'.fqn ≠ d.fqn then r.demands ++ [d] else r.demands := by
  have hrecorded := remoteTopics_recordRemoteTopic r.state.messages
    r.state.peer.nodeName d.fqn r.state.peer.nodeName d.qos d.typeId
  simp only [true_and] at hrecorded
  exact hrecorded

theorem demands_forgetRememberedDemand (fqn : Text) :
    (r.forgetRememberedDemand fqn).demands = r.demands.filter (fun d => d.fqn ≠ fqn) :=
  (remoteTopics_forgetRemoteTopic _ _ _ _).trans (if_pos rfl)

/-- The session's part of a subscribe finds the demand recorded; there is none if the session is not
complete. -/
theorem asked_engineSubscribe (d : RememberedDemand) :
    ∃ cs, (cs = [] ∨ cs = [subscribeOf d]) ∧ Asked cs (r.rememberDemand d) (r.engineSubscribe d) ∧
      (r.state.session.forwardersInstalled = false → cs = []) := by
  have hmem : ∃ d' ∈ (r.rememberDemand d).demands, d'.fqn = d.fqn := by
    rw [demands_rememberDemand]
    split
    · exact ⟨d, mem_append_right _ (mem_singleton_self d), rfl⟩
    · rename_i hnot
      simpa using hnot
  unfold engineSubscribe
  dsimp only
  split
  · rename_i hcomplete
    obtain ⟨cs, hcs, hasked⟩ := asked_sessionSubscribe hmem
    exact ⟨cs, hcs, hasked, fun hopen => absurd (hopen.symm.trans hcomplete) Bool.false_ne_true⟩
  · exact ⟨[], .inl rfl, .refl _, fun _ => rfl⟩

theorem asked_engineUnsubscribe (fqn : Text) :
    ∃ cs, (cs = [] ∨ cs = [unsubscribeOf fqn]) ∧
      Asked cs (r.forgetRememberedDemand fqn) (r.engineUnsubscribe fqn) := by
  have hmem : ∀ d ∈ (r.forgetRememberedDemand fqn).demands, d.fqn ≠ fqn := by
    intro d hd
    rw [demands_forgetRememberedDemand] at hd
    simpa using (mem_filter.mp hd).2
  unfold engineUnsubscribe
  dsimp only
  split
  · have hdemands := remoteTopics_detach_of_not_mem hmem (r.forgetRememberedDemand fqn).state.world
    unfold sessionUnsubscribe
    unfold detach at hdemands ⊢
    dsimp only at hdemands ⊢
    split
    · rename_i hcounted
      rw [if_pos hcounted] at hdemands
      exact ⟨[], .inl rfl, .silent rfl rfl rfl rfl rfl, congrFun hdemands _⟩
    rename_i hlast
    rw [if_neg hlast] at hdemands
    exact ⟨[unsubscribeOf fqn], .inr rfl, ⟨rfl, rfl, rfl, rfl, (UInt16.add_zero _).symm, rfl, rfl,
      rfl, [_], rfl, congrArg ([·]) (controlOf_controlFrame _ _ _)⟩, congrFun hdemands _⟩
  · exact ⟨[], .inl rfl, .refl _⟩

theorem demands_maybeFireReady : r.maybeFireReady.demands = r.demands := by
  unfold maybeFireReady
  split <;> rfl

end

/-- One demand a name, and no counts without a complete session. -/
structure Inv (r : DemandRun) : Prop where
  distinct : (r.demands.map RememberedDemand.fqn).Nodup
  uncounted : r.state.session.forwardersInstalled = false → ∀ fqn, r.count fqn = none

theorem asked_resubscribeAll (h : Inv r) (hopen : r.state.session.forwardersInstalled = false)
    (ch : Channel) :
    Asked (r.demands.map subscribeOf) (r.installed ch) (r.installed ch).resubscribeAll :=
  asked_foldl r.demands (fun _ hd => hd) h.distinct (fun d _ => h.uncounted hopen d.fqn)

/-- The demand as the history has it: subscribed and not unsubscribed since, with what the first of
those subscribes asked for. -/
theorem demands_step (h : Inv r) (e : DemandEvent) :
    (r.step e).demands =
      match e with
      | .subscribe d => if ∀ d' ∈ r.demands, d'.fqn ≠ d.fqn then r.demands ++ [d] else r.demands
      | .unsubscribe fqn => r.demands.filter (fun d => d.fqn ≠ fqn)
      | _ => r.demands := by
  cases e with
  | subscribe d =>
    obtain ⟨cs, -, hasked, -⟩ := asked_engineSubscribe r d
    exact hasked.demands.trans (demands_rememberDemand r d)
  | unsubscribe fqn =>
    obtain ⟨cs, -, hasked⟩ := asked_engineUnsubscribe r fqn
    exact hasked.demands.trans (demands_forgetRememberedDemand r fqn)
  | complete ch =>
    show (r.onComplete ch).demands = r.demands
    unfold onComplete
    split
    · rfl
    · rename_i hopen
      rw [demands_maybeFireReady]
      exact (asked_resubscribeAll h (by simpa using hopen) ch).demands
  | tearDown => rfl
  | answer i inner =>
    show (r.onAnswer i inner).demands = r.demands
    unfold onAnswer
    split
    · rfl
    split
    · rfl
    dsimp only
    split
    · rfl
    · exact demands_maybeFireReady _

theorem complete_maybeFireReady (r : DemandRun) :
    r.maybeFireReady.state.session.forwardersInstalled = r.state.session.forwardersInstalled := by
  unfold maybeFireReady
  split <;> rfl

theorem count_onAnswer (r : DemandRun) (i : Nat) (inner : Bytes) :
    (r.onAnswer i inner).count = r.count ∧
      (r.onAnswer i inner).state.session.forwardersInstalled = r.state.session.forwardersInstalled := by
  unfold onAnswer
  split
  · exact ⟨rfl, rfl⟩
  split
  · exact ⟨rfl, rfl⟩
  dsimp only
  split
  · exact ⟨rfl, rfl⟩
  · refine ⟨?_, complete_maybeFireReady _⟩
    unfold maybeFireReady
    split <;> rfl

theorem complete_onComplete (h : Inv r) (ch : Channel) :
    (r.onComplete ch).state.session.forwardersInstalled := by
  unfold onComplete
  split
  · rename_i hcomplete
    exact hcomplete
  · rename_i hopen
    rw [complete_maybeFireReady]
    exact (asked_resubscribeAll h (by simpa using hopen) ch).complete

theorem inv_step (h : Inv r) (e : DemandEvent) : Inv (r.step e) := by
  constructor
  · rw [demands_step h e]
    cases e with
    | subscribe d =>
      dsimp only
      split
      · rename_i hnew
        rw [map_append]
        refine nodup_append.mpr ⟨h.distinct, pairwise_singleton _ _, ?_⟩
        intro x hx y hy
        obtain ⟨d', hd', rfl⟩ := mem_map.mp hx
        rw [mem_singleton.mp hy]
        exact hnew d' hd'
      · exact h.distinct
    | unsubscribe fqn => exact h.distinct.sublist (filter_sublist.map _)
    | _ => exact h.distinct
  intro hopen other
  -- where the session is not complete the engine only remembers and forgets
  cases e with
  | subscribe d =>
    obtain ⟨cs, -, hasked, -⟩ := asked_engineSubscribe r d
    have hopen' : (r.rememberDemand d).state.session.forwardersInstalled = false :=
      hasked.complete.symm.trans hopen
    have hskip : r.step (.subscribe d) = r.rememberDemand d := by
      show r.engineSubscribe d = _
      unfold engineSubscribe
      rw [if_neg (by rw [hopen']; exact Bool.false_ne_true)]
    rw [hskip]
    show counts (recordRemoteTopic _ _ _ _ _).registry.refcount _ _ = none
    rw [registry_recordRemoteTopic]
    exact h.uncounted hopen' other
  | unsubscribe fqn =>
    obtain ⟨cs, -, hasked⟩ := asked_engineUnsubscribe r fqn
    have hopen' : (r.forgetRememberedDemand fqn).state.session.forwardersInstalled = false :=
      hasked.complete.symm.trans hopen
    have hskip : r.step (.unsubscribe fqn) = r.forgetRememberedDemand fqn := by
      show r.engineUnsubscribe fqn = _
      unfold engineUnsubscribe
      rw [if_neg (by rw [hopen']; exact Bool.false_ne_true)]
    rw [hskip]
    exact h.uncounted hopen' other
  | complete ch => exact absurd (hopen.symm.trans (complete_onComplete h ch)) Bool.false_ne_true
  | tearDown =>
    show (r.state.messages.registry.refcount.forget r.state.peer.nodeName).counts
      r.state.peer.nodeName other = none
    simp [forget]
  | answer i inner =>
    obtain ⟨hcount, hcomplete⟩ := count_onAnswer r i inner
    show (r.onAnswer i inner).count other = none
    rw [hcount]
    exact h.uncounted (hcomplete.symm.trans hopen) other

variable {s : SessionState}

theorem inv_run (hfresh : Fresh s) (es : List DemandEvent) : Inv (run s es) := by
  apply run_invariant Inv (fun _ e h => inv_step h e)
  constructor
  · show (map _ (s.messages.remoteTopics s.peer.nodeName)).Nodup
    rw [hfresh.nothing]
    exact nodup_nil
  · intro _ fqn
    exact hfresh.uncounted fqn

/-! ## The demand, read off the history -/

/-- The call asks for this name. -/
def Asks (fqn : Text) : DemandEvent → Prop
  | .subscribe d => d.fqn = fqn
  | _ => False

/-- The call gives this name up. -/
def Drops (fqn : Text) : DemandEvent → Prop
  | .unsubscribe name => name = fqn
  | _ => False

/-- The history has this subscribe, no unsubscribe of its name since, and none of the name pending
before it. -/
def Remembered (es : List DemandEvent) (d : RememberedDemand) : Prop :=
  ∃ before after, es = before ++ .subscribe d :: after ∧ (∀ e ∈ after, ¬ Drops d.fqn e) ∧
    ¬ Pending (Asks d.fqn) (Drops d.fqn) before

theorem remembered_concat {es : List DemandEvent} {e : DemandEvent} :
    Remembered (es ++ [e]) d ↔
      e = .subscribe d ∧ ¬ Pending (Asks d.fqn) (Drops d.fqn) es ∨ Remembered es d ∧ ¬ Drops d.fqn e := by
  constructor
  · rintro ⟨before, after, heq, hafter, hfirst⟩
    rcases concat_eq_append_cons heq with ⟨rfl, he, -⟩ | ⟨after', rfl, hes⟩
    · exact .inl ⟨he, hfirst⟩
    refine .inr ⟨⟨before, after', hes, ?_, hfirst⟩, ?_⟩
    · intro e' he'
      exact hafter e' (mem_append_left _ he')
    · exact hafter e (mem_append_right _ (mem_singleton_self e))
  · rintro (⟨rfl, hfirst⟩ | ⟨⟨before, after, rfl, hafter, hfirst⟩, he⟩)
    · exact ⟨es, [], rfl, forall_mem_nil _, hfirst⟩
    · exact ⟨before, after ++ [e], by simp,
        forall_mem_append.mpr ⟨hafter, forall_mem_singleton.mpr he⟩, hfirst⟩

theorem pending_iff_demanded (hfresh : Fresh s) (es : List DemandEvent) (fqn : Text) :
    Pending (Asks fqn) (Drops fqn) es ↔ ∃ d ∈ (run s es).demands, d.fqn = fqn := by
  induction es using reverseRecOn with
  | nil =>
    have hnone : (run s []).demands = [] := hfresh.nothing
    simp [hnone]
  | append_singleton es e ih =>
    have hrun : run s (es ++ [e]) = (run s es).step e := foldl_append
    rw [pending_concat, ih, hrun, demands_step (inv_run hfresh es) e]
    cases e with
    | subscribe d =>
      simp only [Asks, Drops, not_false_eq_true, and_true]
      split
      · simp [or_comm]
      rename_i hold
      constructor
      · rintro (rfl | h)
        · simpa using hold
        · exact h
      · exact .inr
    | unsubscribe name =>
      simp only [Asks, false_or, mem_filter, decide_eq_true_eq]
      constructor
      · rintro ⟨⟨d, hd, rfl⟩, hne⟩
        exact ⟨d, ⟨hd, fun h => hne h.symm⟩, rfl⟩
      · rintro ⟨d, ⟨hd, hne⟩, rfl⟩
        exact ⟨⟨d, hd, rfl⟩, fun h => hne h.symm⟩
    | complete ch | tearDown | answer i inner => simp [Asks, Drops]

theorem remembered_iff_demanded (hfresh : Fresh s) (es : List DemandEvent) (d : RememberedDemand) :
    d ∈ (run s es).demands ↔ Remembered es d := by
  induction es using reverseRecOn with
  | nil =>
    have hnone : (run s []).demands = [] := hfresh.nothing
    rw [hnone]
    simp [Remembered]
  | append_singleton es e ih =>
    have hrun : run s (es ++ [e]) = (run s es).step e := foldl_append
    rw [remembered_concat, pending_iff_demanded hfresh, ← ih, hrun, demands_step (inv_run hfresh es) e]
    cases e with
    | subscribe d' =>
      simp only [DemandEvent.subscribe.injEq, Drops, not_false_eq_true, and_true]
      split
      · rename_i hnew
        rw [mem_append, mem_singleton]
        constructor
        · rintro (hold | rfl)
          · exact .inr hold
          · exact .inl ⟨rfl, by simpa using hnew⟩
        · rintro (⟨rfl, -⟩ | hold)
          · exact .inr rfl
          · exact .inl hold
      · rename_i hold
        constructor
        · exact .inr
        · rintro (⟨rfl, hnone⟩ | h)
          · exact absurd (by simpa using hold) hnone
          · exact h
    | unsubscribe name =>
      simp only [reduceCtorEq, false_and, false_or, mem_filter, decide_eq_true_eq]
      exact and_congr_right fun _ => ⟨fun h h' => h h'.symm, fun h h' => h h'.symm⟩
    | complete ch | tearDown | answer i inner => simp [Drops]

/-! ## The ready edge: once a handshake -/

/-- No two ready edges without a handshake between them. -/
structure Edged (r : DemandRun) : Prop where
  once : Separated DemandMark.IsReady DemandMark.IsReady DemandMark.IsCompleted r.marks
  latch : Pending DemandMark.IsReady DemandMark.IsCompleted r.marks →
    r.state.session.readyLatchedThisCycle = true ∨ r.state.session.tornDown = true

theorem Asked.edged (h : Asked cs r r') (hr : Edged r) : Edged r' := by
  obtain ⟨honce, hlatch⟩ := hr
  refine ⟨?_, ?_⟩
  · rw [h.marks]
    exact honce
  · rw [h.marks, h.latched, h.tornDown]
    exact hlatch

theorem edged_maybeFireReady (hr : Edged r) (hlive : r.state.session.tornDown = false) :
    Edged r.maybeFireReady := by
  unfold maybeFireReady
  split
  · rename_i hfires
    refine ⟨?_, fun _ => .inl rfl⟩
    have hnone : ¬ Pending DemandMark.IsReady DemandMark.IsCompleted r.marks := by
      intro hpending
      rcases hr.latch hpending with h | h
      · exact absurd (hfires.2.symm.trans h) Bool.false_ne_true
      · exact absurd (hlive.symm.trans h) Bool.false_ne_true
    exact separated_concat.mpr ⟨hr.once, fun _ => hnone⟩
  · exact hr

theorem edged_step (hinv : Inv r) (hr : Edged r) (e : DemandEvent) : Edged (r.step e) := by
  cases e with
  | subscribe d =>
    obtain ⟨cs, -, hasked, -⟩ := asked_engineSubscribe r d
    exact hasked.edged ⟨hr.once, hr.latch⟩
  | unsubscribe fqn =>
    obtain ⟨cs, -, hasked⟩ := asked_engineUnsubscribe r fqn
    exact hasked.edged ⟨hr.once, hr.latch⟩
  | complete ch =>
    show Edged (r.onComplete ch)
    unfold onComplete
    split
    · exact hr
    rename_i hopen
    have hasked := asked_resubscribeAll hinv (by simpa using hopen) ch
    have hinstalled : Edged (r.installed ch) := by
      refine ⟨separated_concat.mpr ⟨hr.once, fun h => h.elim⟩, ?_⟩
      intro hpending
      rcases pending_concat.mp hpending with h | ⟨-, h⟩
      · exact h.elim
      · exact absurd trivial h
    exact edged_maybeFireReady (hasked.edged hinstalled) hasked.tornDown
  | tearDown =>
    refine ⟨separated_concat.mpr ⟨hr.once, fun h => h.elim⟩, fun _ => .inr rfl⟩
  | answer i inner =>
    show Edged (r.onAnswer i inner)
    unfold onAnswer
    split
    · exact hr
    rename_i hlive
    split
    · exact hr
    dsimp only
    split
    · exact ⟨hr.once, hr.latch⟩
    · exact edged_maybeFireReady ⟨hr.once, hr.latch⟩ (by simpa using hlive)

theorem edged_run (hfresh : Fresh s) (es : List DemandEvent) : Edged (run s es) := by
  have h : Inv (run s es) ∧ Edged (run s es) := by
    apply run_invariant (fun r => Inv r ∧ Edged r)
    · intro r e h
      exact ⟨inv_step h.1 e, edged_step h.1 h.2 e⟩
    · exact ⟨inv_run hfresh [], separated_nil, fun h => absurd h not_pending_nil⟩
  exact h.2

/-! ## The ready edge: when everything is answered -/

/-- The peer answers each subscribe frame at most once, and there are fewer than 65536 topics. -/
def AsAssumed (r : DemandRun) : DemandEvent → Prop
  | .answer i _ => i < r.sent ∧ i ∉ r.answered
  | .complete _ => r.demands.length < 65536
  | _ => True

instance (r : DemandRun) : (e : DemandEvent) → Decidable (AsAssumed r e)
  | .answer i _ => inferInstanceAs (Decidable (i < r.sent ∧ i ∉ r.answered))
  | .complete _ => inferInstanceAs (Decidable (r.demands.length < 65536))
  | .subscribe _ => isTrue trivial
  | .unsubscribe _ => isTrue trivial
  | .tearDown => isTrue trivial

/-- One more subscribe frame leaves fewer than 65536 without an answer. -/
def FewUnanswered (r : DemandRun) : DemandEvent → Prop
  | .subscribe _ => r.sent + 1 < r.answered.length + 65536
  | _ => True

instance (r : DemandRun) : (e : DemandEvent) → Decidable (FewUnanswered r e)
  | .subscribe _ => inferInstanceAs (Decidable (r.sent + 1 < r.answered.length + 65536))
  | .unsubscribe _ => isTrue trivial
  | .complete _ => isTrue trivial
  | .tearDown => isTrue trivial
  | .answer _ _ => isTrue trivial

/-- In a complete session the counter is the number of missing answers. -/
structure Balanced (r : DemandRun) : Prop where
  balance : r.state.session.outstandingSubscribes.toNat + r.answered.length = r.sent
  distinct : r.answered.Nodup
  bound : ∀ i ∈ r.answered, i < r.sent

theorem Balanced.answered_all (h : Balanced r) (hall : r.answered.length = r.sent) :
    ∀ i < r.sent, i ∈ r.answered := by
  have hsub : List.Subperm r.answered (.range r.sent) :=
    List.Nodup.subperm h.distinct fun i hi => mem_range.mpr (h.bound i hi)
  have hperm : r.answered.Perm (.range r.sent) :=
    hsub.perm_of_length_le (by rw [length_range, hall])
  intro i hi
  exact hperm.mem_iff.mpr (mem_range.mpr hi)

structure Answered (r : DemandRun) : Prop where
  ready : ∀ n a, DemandMark.ready n a ∈ r.marks → ∀ i < n, i ∈ a
  unsent : r.state.session.forwardersInstalled = false → r.sent = 0
  live : r.state.session.forwardersInstalled = true → r.state.session.tornDown = false
  balanced : r.state.session.forwardersInstalled = true → Balanced r

theorem Balanced.maybeFireReady (h : Balanced r) : Balanced r.maybeFireReady := by
  unfold DemandRun.maybeFireReady
  split
  · exact { h with }
  · exact h

theorem answered_maybeFireReady (h : Answered r)
    (hcomplete : r.state.session.forwardersInstalled) : Answered r.maybeFireReady := by
  have hkept := complete_maybeFireReady r
  refine ⟨?_, ?_, ?_, fun _ => (h.balanced hcomplete).maybeFireReady⟩
  · unfold maybeFireReady
    split
    · rename_i hfires
      intro n a hmem
      rcases mem_append.mp hmem with hold | hnew
      · exact h.ready n a hold
      obtain ⟨rfl, rfl⟩ : n = r.sent ∧ a = r.answered := by simpa using hnew
      have hbalance := (h.balanced hcomplete).balance
      rw [hfires.1] at hbalance
      exact (h.balanced hcomplete).answered_all (by simpa using hbalance)
    · exact h.ready
  · intro hopen
    exact absurd (hopen.symm.trans (hkept.trans hcomplete)) Bool.false_ne_true
  · intro _
    unfold maybeFireReady
    split
    · exact h.live hcomplete
    · exact h.live hcomplete

/-- Subscribes emitted with room for them keep the balance. -/
theorem Spoke.balanced (h : Spoke cs r r') (hr : Balanced r)
    (hroom : r.sent + subscribes cs < r.answered.length + 65536) : Balanced r' := by
  obtain ⟨hbalance, hdistinct, hbound⟩ := hr
  refine ⟨?_, ?_, ?_⟩
  · rw [h.outstanding, h.answered, h.sent, UInt16.toNat_add, UInt16.toNat_ofNat']
    omega
  · rw [h.answered]
    exact hdistinct
  · rw [h.answered, h.sent]
    intro i hi
    exact Nat.lt_add_right _ (hbound i hi)

theorem Asked.keepsAnswered (h : Asked cs r r') (hr : Answered r)
    (hroom : r.state.session.forwardersInstalled = true →
      r.sent + subscribes cs < r.answered.length + 65536)
    (hskip : r.state.session.forwardersInstalled = false → subscribes cs = 0) : Answered r' := by
  refine ⟨?_, ?_, ?_, ?_⟩
  · rw [h.marks]
    exact hr.ready
  · rw [h.complete, h.sent]
    intro hopen
    rw [hr.unsent hopen, hskip hopen]
  · rw [h.complete, h.tornDown]
    exact hr.live
  · rw [h.complete]
    intro hcomplete
    exact h.balanced (hr.balanced hcomplete) (hroom hcomplete)

theorem Balanced.room (h : Balanced r) : r.sent < r.answered.length + 65536 := by
  have hlt := r.state.session.outstandingSubscribes.toNat_lt
  have hbalance := h.balance
  omega

theorem answered_onComplete (hinv : Inv r) (hr : Answered r) (ch : Channel)
    (htopics : r.demands.length < 65536) : Answered (r.onComplete ch) := by
  unfold onComplete
  split
  · exact hr
  rename_i hopen
  have hasked := asked_resubscribeAll hinv (by simpa using hopen) ch
  have hinstalled : Answered (r.installed ch) := by
    refine ⟨?_, fun h => absurd h.symm Bool.false_ne_true, fun _ => rfl, fun _ => ?_⟩
    · intro n a hmem
      exact hr.ready n a (by simpa [installed] using hmem)
    · exact ⟨rfl, nodup_nil, forall_mem_nil _⟩
  apply answered_maybeFireReady _ hasked.complete
  apply hasked.keepsAnswered hinstalled
  · intro _
    rw [subscribes_map_subscribeOf]
    show 0 + r.demands.length < 0 + 65536
    omega
  · intro h
    exact absurd h.symm Bool.false_ne_true

/-- One answer more, and one less to wait for. -/
def settle (r : DemandRun) (i : Nat) : DemandRun :=
  { r with
    state := { r.state with session := { r.state.session with
      outstandingSubscribes := r.state.session.outstandingSubscribes - 1 } }
    answered := r.answered ++ [i] }

theorem onAnswer_of_outstanding {i : Nat} {inner : Bytes}
    (hlive : r.state.session.tornDown = false)
    (hdecodes : (decodeSubscribeResponse inner).isSome)
    (hmissing : r.state.session.outstandingSubscribes ≠ 0) :
    r.onAnswer i inner = (r.settle i).maybeFireReady := by
  obtain ⟨resp, hresp⟩ := Option.isSome_iff_exists.mp hdecodes
  unfold onAnswer
  rw [if_neg (by rw [hlive]; exact Bool.false_ne_true), hresp]
  exact if_neg hmissing

/-- An answer to a frame that had none: the counter is not at zero, and one less is missing. -/
theorem Balanced.settle (h : Balanced r) {i : Nat} (hi : i < r.sent) (hnew : i ∉ r.answered) :
    r.state.session.outstandingSubscribes ≠ 0 ∧ Balanced (r.settle i) := by
  have hbalance := h.balance
  have hmissing : r.state.session.outstandingSubscribes ≠ 0 := by
    intro hzero
    rw [hzero] at hbalance
    exact hnew (h.answered_all (by simpa using hbalance) i hi)
  refine ⟨hmissing, ?_, ?_, ?_⟩
  · have hpos : 0 < r.state.session.outstandingSubscribes.toNat := by
      rw [Nat.pos_iff_ne_zero]
      intro hzero
      exact hmissing (UInt16.toNat_inj.mp hzero)
    have hone : (1 : UInt16) ≤ r.state.session.outstandingSubscribes := UInt16.le_iff_toNat_le.mpr hpos
    show (r.state.session.outstandingSubscribes - 1).toNat + (r.answered ++ [i]).length = r.sent
    rw [UInt16.toNat_sub_of_le _ _ hone, length_append]
    show r.state.session.outstandingSubscribes.toNat - 1 + (r.answered.length + 1) = r.sent
    omega
  · refine nodup_append.mpr ⟨h.distinct, pairwise_singleton _ _, ?_⟩
    rintro x hx y hy rfl
    exact hnew (mem_singleton.mp hy ▸ hx)
  · exact forall_mem_append.mpr ⟨h.bound, forall_mem_singleton.mpr hi⟩

theorem answered_onAnswer (hr : Answered r) {i : Nat} (inner : Bytes) (hi : i < r.sent)
    (hnew : i ∉ r.answered) : Answered (r.onAnswer i inner) := by
  have hcomplete : r.state.session.forwardersInstalled := by
    by_contra hopen
    have hzero := hr.unsent (by simpa using hopen)
    omega
  obtain ⟨hmissing, hsettled⟩ := (hr.balanced hcomplete).settle hi hnew
  cases hdecodes : decodeSubscribeResponse inner with
  | none =>
    have hsame : r.onAnswer i inner = r := by
      unfold onAnswer
      rw [hdecodes]
      split <;> rfl
    rw [hsame]
    exact hr
  | some resp =>
    rw [onAnswer_of_outstanding (hr.live hcomplete) (by rw [hdecodes]; rfl) hmissing]
    exact answered_maybeFireReady { hr with balanced := fun _ => hsettled } hcomplete

theorem answered_step {e : DemandEvent} (hinv : Inv r) (hr : Answered r) (hassumed : AsAssumed r e)
    (hfew : FewUnanswered r e) : Answered (r.step e) := by
  cases e with
  | subscribe d =>
    obtain ⟨cs, hcs, hasked, hskip⟩ := asked_engineSubscribe r d
    have hremembering : Answered (r.rememberDemand d) :=
      { hr with balanced := fun h => { hr.balanced h with } }
    refine hasked.keepsAnswered hremembering ?_ (fun hopen => by rw [hskip hopen]; rfl)
    intro _
    have hroom : r.sent + 1 < r.answered.length + 65536 := hfew
    have hone : subscribes cs ≤ 1 := by
      rcases hcs with rfl | rfl
      · exact Nat.zero_le 1
      · exact (subscribes_map_subscribeOf [d]).le
    show r.sent + subscribes cs < r.answered.length + 65536
    omega
  | unsubscribe fqn =>
    have hforgetting : Answered (r.forgetRememberedDemand fqn) :=
      { hr with balanced := fun h => { hr.balanced h with } }
    obtain ⟨cs, hcs, hasked⟩ := asked_engineUnsubscribe r fqn
    have hnone : subscribes cs = 0 := by
      rcases hcs with rfl | rfl
      · rfl
      · exact subscribes_unsubscribeOf fqn
    refine hasked.keepsAnswered hforgetting ?_ (fun _ => hnone)
    intro hcomplete
    rw [hnone]
    exact (hforgetting.balanced hcomplete).room
  | complete ch => exact answered_onComplete hinv hr ch hassumed
  | tearDown =>
    refine ⟨?_, fun _ => rfl, fun h => absurd h Bool.false_ne_true, fun h => absurd h Bool.false_ne_true⟩
    intro n a hmem
    exact hr.ready n a (by simpa [step, tearDown] using hmem)
  | answer i inner => exact answered_onAnswer hr inner hassumed.1 hassumed.2

theorem answered_run (hfresh : Fresh s) {es : List DemandEvent}
    (hes : Guarded step (fun r e => AsAssumed r e ∧ FewUnanswered r e) { state := s } es) :
    Answered (run s es) := by
  have h : Inv (run s es) ∧ Answered (run s es) := by
    apply hes.invariant (fun r => Inv r ∧ Answered r)
    · intro r e h hok
      exact ⟨inv_step h.1 e, answered_step h.1 h.2 hok.1 hok.2⟩
    have hincomplete : ¬ s.session.forwardersInstalled = true := by
      rw [hfresh.incomplete]
      exact Bool.false_ne_true
    refine ⟨inv_run hfresh [], ?_, fun _ => rfl, (absurd · hincomplete), (absurd · hincomplete)⟩
    intro n a h
    exact absurd h not_mem_nil
  exact h.2

/-- **A reconnect restores exactly the demand.** Over every history towards a fresh peer: what is
remembered are the subscribes that are pending, one a name, each the first since the name was last
forgotten; a handshake that completes sends one subscribe for each of them, on its own channel, and
nothing else; no two ready edges stand without a completed handshake between them. And where the
peer answers each subscribe at most once and fewer than 65536 answers are missing at any time, a ready
edge finds every subscribe of its cycle answered. -/
theorem reconnect_restores_demand {s : SessionState} (hfresh : Fresh s) (es : List DemandEvent) :
    ((∀ d, d ∈ (run s es).demands ↔ Remembered es d) ∧
        ((run s es).demands.map RememberedDemand.fqn).Nodup) ∧
      (∀ ch, (run s es).state.session.forwardersInstalled = false →
        ∃ frames : List Bytes, (run s (es ++ [.complete ch])).state.world.sent =
            (run s es).state.world.sent ++ frames.map (Prod.mk ch) ∧
          frames.map controlOf = (run s es).demands.map (fun d => some (subscribeOf d))) ∧
      Separated DemandMark.IsReady DemandMark.IsReady DemandMark.IsCompleted (run s es).marks ∧
      (Guarded step (fun r e => AsAssumed r e ∧ FewUnanswered r e) { state := s } es →
        ∀ n a, DemandMark.ready n a ∈ (run s es).marks → ∀ i < n, i ∈ a) := by
  refine ⟨⟨remembered_iff_demanded hfresh es, (inv_run hfresh es).distinct⟩, ?_,
    (edged_run hfresh es).once, fun hes => (answered_run hfresh hes).ready⟩
  intro ch hopen
  obtain ⟨frames, hlog, hframes⟩ := (asked_resubscribeAll (inv_run hfresh es) hopen ch).log
  refine ⟨frames, ?_, hframes.trans map_map⟩
  have hrun : run s (es ++ [.complete ch]) = (run s es).onComplete ch := foldl_append
  rw [hrun, onComplete, if_neg (by rw [hopen]; exact Bool.false_ne_true)]
  unfold maybeFireReady
  split <;> exact hlog

/-! ## Two histories -/

def tcpChannel (key : Nat) : Channel :=
  { key, scheme := [0x74, 0x63, 0x70], polls := true, lowWater := 0 }

/-- A peer that was never dialed. -/
def strangerPeer : SessionState where
  session := { peer := ⟨tcpChannel 0, [0x70]⟩ }
  world := World.quiet

theorem fresh_strangerPeer : Fresh strangerPeer := ⟨rfl, rfl, fun _ => rfl, rfl⟩

def topicA : RememberedDemand := ⟨[0x61], {}, none⟩
def topicB : RememberedDemand := ⟨[0x62], {}, none⟩

/-- The answer "subscribed". -/
def subscribedAnswer : Bytes :=
  encodeSubscribeResponse { topicHash := fqnTopicHash topicB.fqn, status := SubscribeStatus.subscribed }

/-- Subscribed before the first handshake, answered, dropped, and restored by the second. -/
def restoredHistory : List DemandEvent :=
  [.subscribe topicB, .complete (tcpChannel 1), .answer 0 subscribedAnswer, .tearDown,
    .complete (tcpChannel 2), .answer 0 subscribedAnswer]

theorem reconnect_restores_stranger :
    (run strangerPeer restoredHistory).marks =
        [.completed, .ready 1 [0], .tornDown, .completed, .ready 1 [0]] ∧
      (∀ n a, DemandMark.ready n a ∈ (run strangerPeer restoredHistory).marks → ∀ i < n, i ∈ a) :=
  ⟨by decide +kernel,
    (reconnect_restores_demand fresh_strangerPeer restoredHistory).2.2.2 (by decide +kernel)⟩

/-- A topic subscribed and unsubscribed again leaves a subscribe frame behind, and nothing else. -/
theorem asked_churn (hcomplete : r.state.session.forwardersInstalled)
    (hcount : r.count d.fqn = none) (hnew : ∀ d' ∈ r.demands, d'.fqn ≠ d.fqn) :
    (∃ cs, subscribes cs = 1 ∧ Asked cs r ((r.step (.subscribe d)).step (.unsubscribe d.fqn))) ∧
      ((r.step (.subscribe d)).step (.unsubscribe d.fqn)).count d.fqn = none := by
  have hadded : (r.rememberDemand d).demands = r.demands ++ [d] := by
    rw [demands_rememberDemand, if_pos hnew]
  have hcount' : (r.rememberDemand d).count d.fqn = none := by
    show counts (recordRemoteTopic _ _ _ _ _).registry.refcount _ _ = none
    rw [registry_recordRemoteTopic]
    exact hcount
  obtain ⟨hasked, hone, -⟩ := sessionSubscribe_of_first
    ⟨d, hadded ▸ mem_append_right _ (mem_singleton_self d), rfl⟩ hcount'
  have hsubscribed : r.step (.subscribe d) = (r.rememberDemand d).sessionSubscribe d := by
    show r.engineSubscribe d = _
    unfold engineSubscribe
    exact if_pos hcomplete
  rw [hsubscribed]
  generalize (r.rememberDemand d).sessionSubscribe d = r₁ at hasked hone
  obtain ⟨cs, hcs, hforgotten⟩ := asked_engineUnsubscribe r₁ d.fqn
  have hkept : (r₁.forgetRememberedDemand d.fqn).demands = r.demands := by
    rw [demands_forgetRememberedDemand, hasked.demands, hadded, filter_append]
    have hold : r.demands.filter (fun d' => d'.fqn ≠ d.fqn) = r.demands :=
      filter_eq_self.mpr fun d' hd' => by simpa using hnew d' hd'
    rw [hold]
    simp
  constructor
  · -- remembering and forgetting say nothing
    have hremember : Spoke [] r (r.rememberDemand d) := .silent rfl rfl rfl rfl rfl
    have hforget : Spoke [] r₁ (r₁.forgetRememberedDemand d.fqn) := .silent rfl rfl rfl rfl rfl
    have hspoke := ((hremember.trans hasked.toSpoke).trans hforget).trans hforgotten.toSpoke
    refine ⟨_, ?_, hspoke, hforgotten.demands.trans hkept⟩
    rcases hcs with rfl | rfl <;> rfl
  -- the count goes from one back to nothing
  have hcomplete₁ : (r₁.forgetRememberedDemand d.fqn).state.session.forwardersInstalled :=
    hasked.complete.trans hcomplete
  have hdropped : r₁.engineUnsubscribe d.fqn = (r₁.forgetRememberedDemand d.fqn).sessionUnsubscribe d.fqn := by
    exact if_pos hcomplete₁
  have hdrop := counts_drop r₁.state.messages.registry.refcount r₁.state.peer.nodeName d.fqn d.fqn
  have hcounted : r₁.state.messages.registry.refcount.counts r₁.state.peer.nodeName d.fqn = some 1 :=
    hone
  rw [if_pos rfl, hcounted] at hdrop
  show (r₁.engineUnsubscribe d.fqn).count d.fqn = none
  rw [hdropped]
  exact (congrArg (counts · r₁.state.peer.nodeName d.fqn) (refcount_detach _ _ _ _)).trans hdrop

/-- The same topic, subscribed and unsubscribed so many times. -/
def churn (d : RememberedDemand) (k : Nat) : List DemandEvent :=
  (replicate k [DemandEvent.subscribe d, .unsubscribe d.fqn]).flatten

theorem asked_churns (hcomplete : r.state.session.forwardersInstalled)
    (hcount : r.count d.fqn = none) (hnew : ∀ d' ∈ r.demands, d'.fqn ≠ d.fqn) (k : Nat) :
    (∃ cs, subscribes cs = k ∧ Asked cs r ((churn d k).foldl step r)) ∧
      Guarded step AsAssumed r (churn d k) := by
  induction k generalizing r with
  | zero => exact ⟨⟨[], rfl, .refl r⟩, trivial⟩
  | succ k ih =>
    obtain ⟨⟨cs, hone, hasked⟩, hcount'⟩ := asked_churn hcomplete hcount hnew
    obtain ⟨⟨cs', hk, hrest⟩, hguarded⟩ := ih (hasked.complete.trans hcomplete) hcount'
      (by rw [hasked.demands]; exact hnew)
    refine ⟨⟨cs ++ cs', ?_, hasked.trans hrest⟩, trivial, trivial, hguarded⟩
    rw [subscribes_append, hone, hk, add_comm]

theorem marks_onAnswer {i : Nat} {inner : Bytes} (hlive : r.state.session.tornDown = false)
    (hlatch : r.state.session.readyLatchedThisCycle = false)
    (hone : r.state.session.outstandingSubscribes = 1)
    (hdecodes : (decodeSubscribeResponse inner).isSome) :
    (r.onAnswer i inner).marks = r.marks ++ [.ready r.sent (r.answered ++ [i])] := by
  have hpos : r.state.session.outstandingSubscribes ≠ 0 := by
    rw [hone]
    decide
  have hlast : r.state.session.outstandingSubscribes - 1 = 0 := by
    rw [hone]
    decide
  rw [onAnswer_of_outstanding hlive hdecodes hpos, maybeFireReady, if_pos ⟨hlast, hlatch⟩]
  rfl

/-- The handshake with topic B remembered. -/
def waiting : DemandRun := run strangerPeer [.subscribe topicB, .complete (tcpChannel 1)]

/-- Topic B waits for its answer while topic A comes and goes `k` times; then the answer comes. -/
def churnHistory (k : Nat) : List DemandEvent :=
  [.subscribe topicB, .complete (tcpChannel 1)] ++ churn topicA k ++ [.answer 0 subscribedAnswer]

theorem ready_after_churn {k : Nat} (hk : UInt16.ofNat k = 0) :
    Guarded step AsAssumed { state := strangerPeer } (churnHistory k) ∧
      DemandMark.ready (1 + k) [0] ∈ (run strangerPeer (churnHistory k)).marks := by
  have hstart : Guarded step AsAssumed { state := strangerPeer }
      [.subscribe topicB, .complete (tcpChannel 1)] := by decide +kernel
  have hcomplete : waiting.state.session.forwardersInstalled := by decide +kernel
  have hcount : waiting.count topicA.fqn = none := by decide +kernel
  have hnew : ∀ d ∈ waiting.demands, d.fqn ≠ topicA.fqn := by decide +kernel
  obtain ⟨⟨cs, hcs, hasked⟩, hchurn⟩ := asked_churns hcomplete hcount hnew k
  set after := (churn topicA k).foldl step waiting
  have hsent : after.sent = 1 + k := hcs ▸ hasked.sent
  have hanswered : after.answered = [] := hasked.answered
  have hlive : after.state.session.tornDown = false := hasked.tornDown.trans (by decide +kernel)
  have hlatch : after.state.session.readyLatchedThisCycle = false :=
    hasked.latched.trans (by decide +kernel)
  have hout : after.state.session.outstandingSubscribes = 1 := by
    have hone : waiting.state.session.outstandingSubscribes = 1 := by decide +kernel
    rw [hasked.outstanding, hone, hcs, hk]
    decide
  have hdecodes : (decodeSubscribeResponse subscribedAnswer).isSome := by decide +kernel
  constructor
  · refine guarded_append.mpr ⟨guarded_append.mpr ⟨hstart, hchurn⟩, ?_, trivial⟩
    rw [foldl_append]
    show 0 < after.sent ∧ 0 ∉ after.answered
    rw [hsent, hanswered]
    exact ⟨by omega, not_mem_nil⟩
  · rw [run, churnHistory, foldl_append, foldl_append]
    show DemandMark.ready (1 + k) [0] ∈ (after.onAnswer 0 subscribedAnswer).marks
    rw [marks_onAnswer hlive hlatch hout hdecodes, hsent, hanswered]
    exact mem_append_right _ (mem_singleton_self _)

/-- Two topics and one answer: after 65536 times the counter has come round, and the first answer
fires the ready edge. -/
theorem churn_fires_ready_early :
    Guarded step AsAssumed { state := strangerPeer } (churnHistory 65536) ∧
      DemandMark.ready (1 + 65536) [0] ∈ (run strangerPeer (churnHistory 65536)).marks :=
  ready_after_churn (by decide)

end DemandRun

end Plexus.Io
