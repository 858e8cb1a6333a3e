import Mir.Orderers.Orderer

/-!
# Elementary steps

Every step of an orderer is a sequence of elementary steps (`Micro`), each of which changes one
thing and says why it may: a Preprepare is stored, a digest is set, a vote is recorded, a slot
is prepared or decided, a view is entered, a Done message is registered, an event is emitted.
Invariants of runs are proved once for each elementary step and then hold for every handler.

The places where a run may have to meet a condition are collected in `Guards`; the condition on
whole steps that they amount to is `Guards.onStep`.
-/

namespace Mir.Orderers

/-! ### Conditions -/

/-- Conditions on events and on the elementary steps that can go wrong: applying the hash of a
Preprepare, storing a Preprepare, entering a view through a NewView, and registering a Done
message. -/
structure Guards where
  event : Event → Prop
  hashed : State → Preprepare → Prop
  accept : State → List Mark → Preprepare → Prop
  newView : State → NewView → Prop
  done : List Event → List Bytes → Prop

/-- No condition. -/
def Guards.none : Guards :=
  ⟨fun _ => True, fun _ _ => True, fun _ _ _ => True, fun _ _ => True, fun _ _ => True⟩

/-- The checks that make a node store a Preprepare. -/
def AcceptsPreprepare (p : ModuleParams) (pp : Preprepare) (sender : NodeID) (s : State) : Prop :=
  pp.view = s.view ∧ s.inViewChange = false ∧ p.segment.primaryNode s.view = .ok sender ∧
    ∃ slot, s.slot? s.view pp.sn = some slot ∧ slot.committed = false ∧ slot.preprepare = .none

/-- The checks that make a node enter the view of a NewView. -/
def AcceptsNewView (ord : MapOrder) (p : ModuleParams) (digests : List Bytes) (nv : NewView)
    (s : State) : Prop :=
  ¬ nv.view < s.view ∧ ∃ vcState,
    feedViewChanges ord nv.viewChangeSenders 0 nv.signedViewChanges
      (PbftViewChangeState.new p.segment.seqNrs p.segment.membership) = .ok vcState ∧
    vcState.enoughViewChanges = true ∧
    prepreparesMatching nv digests vcState.reproposals 0
      (GoMap.sortedKeys uint64Le vcState.reproposals) = .ok true

/-- The condition on a step: the guards hold where the step passes the checks before them. -/
def Guards.onStep (K : Guards) (p : ModuleParams) : StepCondition := fun o ord ev =>
  K.event ev ∧ match ev with
  | .hashResultOne _ (.preprepare pp) => ¬ pp.view < o.state.view → K.hashed o.state pp
  | .preprepareValidated true pp sender =>
    AcceptsPreprepare p pp sender o.state → K.accept o.state o.marks pp
  | .hashResult digests (.newView nv) =>
    AcceptsNewView ord p digests nv o.state → K.newView o.state nv
  | .messageReceived _ (.done digests) => K.done (o.log ++ [ev]) digests
  | _ => True

/-- Every step meets the guards that demand nothing but a condition on events. -/
theorem Guards.onStep_of_event {E : Event → Prop} (p : ModuleParams) (o : Orderer)
    (ord : MapOrder) {ev : Event} (hev : E ev) :
    Guards.onStep { Guards.none with event := E } p o ord ev := by
  refine ⟨hev, ?_⟩
  split
  all_goals first | exact trivial | exact fun _ => trivial

theorem Guards.none_onStep (p : ModuleParams) (o : Orderer) (ord : MapOrder) (ev : Event) :
    Guards.none.onStep p o ord ev :=
  Guards.onStep_of_event p o ord trivial

/-- The result for a NewView. -/
def Event.completesNewView : Event → Bool
  | .hashResult _ (.newView _) => true
  | _ => false

/-- Steps that do not complete a NewView meet the guards that demand nothing but a condition on
NewViews. -/
theorem Guards.onStep_of_not_newView {N : State → NewView → Prop} (p : ModuleParams) (o : Orderer)
    (ord : MapOrder) {ev : Event} (hev : (!ev.completesNewView) = true) :
    Guards.onStep { Guards.none with newView := N } p o ord ev := by
  refine ⟨trivial, ?_⟩
  split
  · exact fun _ => trivial
  · exact fun _ => trivial
  · cases hev
  · trivial
  · trivial

/-! ### Where emitted events and buffered messages come from -/

/-- The events on which a node may propose. -/
def Event.proposes (ev : Event) : Bool := ev matches .proposeTimeout _ | .newCert _

/-- The event that is being handled is one on which a node may propose. -/
def Orderer.Proposing (o : Orderer) : Prop := ∃ ev ∈ o.log.getLast?, ev.proposes = true

/-- What is known when an event is emitted on its own. Events that are emitted together with a
change of a slot have their own elementary steps. -/
def Origin (env : Env) (p : ModuleParams) (o : Orderer) : Output → Prop
  | .sendMessage (.preprepare pp) _ => pp.view = o.state.view ∧
    (o.state.view = 0 ∨ o.state.proposal.certRequestedView = o.state.view) ∧ o.Proposing
  | .sendMessage (.prepare _) _ => False
  | .sendMessage (.commit _) _ => False
  | .sendMessage (.done _) _ => False
  | .sendMessage (.newView nv) _ => ∃ vcState,
    o.state.viewChangeStates.lookup nv.view = some vcState ∧ nv = newViewOf nv.view vcState ∧
      vcState.hasAllPreprepares = true
  | .sendMessage _ _ => True
  | .timerDelay _ event => ∃ numProposals, event = .proposeTimeout numProposals
  | .timerRepeat _ _ msg _ => ∃ svc, msg = .signedViewChange svc
  | .delayedTimerRepeat _ _ msgs _ => ∀ msg ∈ msgs, ∃ digest sn, msg = .catchUpRequest digest sn
  | .validatePreprepare pp sender => sender ∈ p.segment.membership.nodes.keys ∧
    (.messageReceived sender (.preprepare pp) ∈ o.log ∨
      (∃ nv, .accepted nv ∈ o.marks ∧ pp ∈ nv.preprepares ∧
        p.segment.primaryNode nv.view = .ok sender) ∨
      .validatePreprepare pp sender ∈ o.out)
  | .hashRequestOne _ (.preprepare _) => False
  | .hashRequestOne data (.catchUpResponse pp) =>
    data = pp.hashBytes ∧ (o.slot? pp.sn).isSome = true
  | .hashRequestOne data (.missingPreprepare pp) =>
    data = pp.hashBytes ∧ (latestPendingVCState o.state).1.isSome = true
  | .hashRequest data (.emptyPreprepares view) => ∃ vcState : PbftViewChangeState,
    vcState.enoughViewChanges = true ∧
    o.state.viewChangeStates.lookup view =
      some (vcState.setEmptyPreprepares view p.segment.proposals) ∧
    data = vcState.emptyPreprepareData view p.segment.proposals
  | .hashRequest data (.newView nv) =>
    data = nv.preprepares.map Preprepare.hashBytes ∧
      ∃ vdata sigs senders, .verifySigs vdata sigs senders nv ∈ o.out ∧
        env.verifyAll vdata sigs senders = true ∧ .sigsVerified senders true nv ∈ o.log ∧
        ∀ id ∈ senders, id ∈ p.segment.membership.nodes.keys
  | .signRequest data vc => data = vc.signedBytes ∧ vc.view = o.state.view ∧
    ∃ pSet qSet, getPSetQSet p o.state = .ok (pSet, qSet) ∧ vc.pSet = pSet.pbType ∧
      vc.qSet = qSet.pbType
  | .verifySig data sig sender svc => ∃ vc, svc.viewChange = some vc ∧ data = vc.signedBytes ∧
    sig = svc.signature ∧ sender ∈ p.segment.membership.nodes.keys ∧
    .messageReceived sender (.signedViewChange svc) ∈ o.log
  | .verifySigs data sigs senders nv => senders = nv.viewChangeSenders ∧
    nv.viewChangeSenders.length = nv.signedViewChanges.length ∧
    nv.signedViewChanges.mapM (fun svc => svc.viewChange.map ViewChange.signedBytes) = some data ∧
    sigs = nv.signedViewChanges.map SignedViewChange.signature ∧
    ∃ sender, p.segment.primaryNode nv.view = .ok sender ∧
      .messageReceived sender (.newView nv) ∈ o.log
  | .requestCert => o.Proposing
  | .sbDeliver _ _ _ _ => False

/-- What is known of a message in the buffer of `sender`. -/
def BufferOrigin (p : ModuleParams) (o : Orderer) (sender : NodeID) (msg : BufferedMsg) : Prop :=
  sender ∈ p.segment.membership.nodes.keys ∧
    match msg with
    | .preprepare pp => .validatePreprepare pp sender ∈ o.out
    | .prepare prepare => .messageReceived sender (.prepare prepare) ∈ o.log
    | .commit commit => .messageReceived sender (.commit commit) ∈ o.log

/-- The messages in the buffers were received. -/
def BuffersSound (p : ModuleParams) (o : Orderer) : Prop :=
  ∀ sender buffer, o.state.messageBuffers.lookup sender = some buffer →
    ∀ msg ∈ buffer.messages, BufferOrigin p o sender msg

/-! ### Deciding a slot -/

/-- The two ways a slot that is not committed becomes committed: a strong quorum of Commit
messages for its digest, or a catch-up response with the digest of the segment checkpoint. The
new slot, the mark and the Preprepare that is delivered. -/
inductive Decides (env : Env) (o : Orderer) (sn : SeqNr) (slot : PbftSlot) :
    PbftSlot → Mark → Preprepare → Prop
  | commit {received valid : GoMap NodeID ByteSlice} {pp : Preprepare}
      (hprep : slot.prepared = true)
      (hcheck : checkDigests slot.membership slot.digest slot.commitDigests
        slot.validCommitDigests = .ok (received, valid, true))
      (hpp : slot.preprepare = some pp) :
      Decides env o sn slot
        { slot with commitDigests := received, validCommitDigests := valid, committed := true }
        (.committed o.state.view sn slot.digest) pp
  | catchUp {digests : GoMap SeqNr Bytes} {data : Bytes} {pp : Preprepare}
      (hsn : pp.sn = sn) (hreq : .hashRequestOne data (.catchUpResponse pp) ∈ o.out)
      (hdigests : o.state.segmentCheckpoint.digests = some digests)
      (hdigest : (digests.lookup sn).getD [] = env.hash data) :
      Decides env o sn slot (slot.catchUp { pp with view := o.state.view } (env.hash data))
        (.caughtUp o.state.view sn (env.hash data)) { pp with view := o.state.view }

/-- What happens once a slot is decided: possibly a timer, possibly the end of the segment, and
the delivery. -/
def deliver (p : ModuleParams) (sn : SeqNr) (pp : Preprepare) (timer : Option TimerEvent)
    (o : Orderer) : Orderer :=
  let o := match timer with
    | none => o
    | some event => o.emit (.timerDelay p.config.viewChangeSNTimeout event)
  (doneIfAllCommitted p o).emit (.sbDeliver sn pp.data pp.aborted p.segment.leader)

/-! ### Updating a slot -/

/-- The updates of a slot that do not decide it: the new slot, with the mark that is recorded
and the event that is emitted. -/
inductive SlotUpdate (env : Env) (p : ModuleParams) (K : Guards) (o : Orderer) (sn : SeqNr)
    (slot : PbftSlot) : PbftSlot → Option Mark → Option Output → Prop
  /-- The slot is written back as it was. -/
  | touch : SlotUpdate env p K o sn slot slot none none
  /-- A Preprepare is stored and its hash requested. -/
  | accept (pp : Preprepare) (sender : NodeID) (hsn : pp.sn = sn)
      (hcom : slot.committed = false) (hnone : slot.preprepare = none)
      (hview : pp.view = o.state.view) (hivc : o.state.inViewChange = false)
      (hprimary : p.segment.primaryNode o.state.view = .ok sender)
      (horigin : .validatePreprepare pp sender ∈ o.out) (hK : K.accept o.state o.marks pp) :
      SlotUpdate env p K o sn slot { slot with preprepare := some pp } none
        (some (.hashRequestOne pp.hashBytes (.preprepare pp)))
  /-- The hash of a Preprepare is applied and a Prepare message sent. -/
  | hashed (pp : Preprepare) (data : Bytes) (hsn : pp.sn = sn) (hview : ¬ pp.view < o.state.view)
      (hreq : .hashRequestOne data (.preprepare pp) ∈ o.out) (hK : K.hashed o.state pp) :
      SlotUpdate env p K o sn slot
        { slot with digest := some (env.hash data), preprepared := true } none
        (some (.sendMessage (.prepare ⟨sn, o.state.view, some (env.hash data)⟩)
          p.segment.nodeIDs))
  /-- A Prepare message is stored. -/
  | addPrepare (d : Bytes) (sender : NodeID) (hcom : slot.committed = false)
      (hnew : sender ∉ slot.prepareDigests.keys)
      (hmem : sender ∈ p.segment.membership.nodes.keys)
      (hrcv : .messageReceived sender (.prepare ⟨sn, o.state.view, some d⟩) ∈ o.log) :
      SlotUpdate env p K o sn slot
        { slot with prepareDigests := slot.prepareDigests.insert sender (some d) } none none
  /-- A Commit message is stored. -/
  | addCommit (d : Bytes) (sender : NodeID) (hcom : slot.committed = false)
      (hnew : sender ∉ slot.commitDigests.keys)
      (hmem : sender ∈ p.segment.membership.nodes.keys)
      (hrcv : .messageReceived sender (.commit ⟨sn, o.state.view, some d⟩) ∈ o.log) :
      SlotUpdate env p K o sn slot
        { slot with commitDigests := slot.commitDigests.insert sender (some d) } none none
  /-- The Prepare messages are checked, without enough valid ones. -/
  | checkPrepares (received valid : GoMap NodeID ByteSlice)
      (hpp : slot.preprepared = true) (hprep : slot.prepared = false)
      (hcheck : checkDigests slot.membership slot.digest slot.prepareDigests
        slot.validPrepareDigests = .ok (received, valid, false)) :
      SlotUpdate env p K o sn slot
        { slot with prepareDigests := received, validPrepareDigests := valid } none none
  /-- The slot is prepared and a Commit message sent. -/
  | prepare (received valid : GoMap NodeID ByteSlice)
      (hpp : slot.preprepared = true) (hprep : slot.prepared = false)
      (hcheck : checkDigests slot.membership slot.digest slot.prepareDigests
        slot.validPrepareDigests = .ok (received, valid, true)) :
      SlotUpdate env p K o sn slot
        { slot with prepareDigests := received, validPrepareDigests := valid, prepared := true }
        (some (.prepared o.state.view sn slot.digest))
        (some (.sendMessage (.commit ⟨sn, o.state.view, slot.digest⟩) p.segment.nodeIDs))
  /-- The Commit messages are checked, without enough valid ones. -/
  | checkCommits (received valid : GoMap NodeID ByteSlice)
      (hcom : slot.committed = false) (hprep : slot.prepared = true)
      (hcheck : checkDigests slot.membership slot.digest slot.commitDigests
        slot.validCommitDigests = .ok (received, valid, false)) :
      SlotUpdate env p K o sn slot
        { slot with commitDigests := received, validCommitDigests := valid } none none

/-! ### Updating the state of a view change -/

/-- A ViewChange for `view` is added to the state its primary keeps, with the given outcome. -/
structure AddsViewChange (env : Env) (p : ModuleParams) (o : Orderer) (view : ViewNr)
    (vcState : PbftViewChangeState) : Prop where
  notEnough : (getViewChangeState p o.state view).enoughViewChanges = false
  notOutdated : ¬ view < o.state.view
  primary : p.segment.primaryNode view = .ok p.ownID
  added : ∃ (ord : MapOrder) (svc : SignedViewChange) (sender : NodeID) (vc : ViewChange),
    svc.viewChange = some vc ∧ vc.view = view ∧
    .sigVerified sender true svc ∈ o.log ∧ sender ∈ p.segment.membership.nodes.keys ∧
    (getViewChangeState p o.state view).addSignedViewChange ord svc sender = .ok vcState

/-- The ways the view-change state of a view is written. -/
inductive VcUpdate (env : Env) (p : ModuleParams) (o : Orderer) (view : ViewNr) :
    PbftViewChangeState → Prop
  /-- It is written back as it was, or created by the primary of the view. -/
  | same (hown : p.segment.primaryNode view = .ok p.ownID ∨
        ∃ vcState, o.state.viewChangeStates.lookup view = some vcState) :
      VcUpdate env p o view (getViewChangeState p o.state view)
  /-- A ViewChange is added and more are needed. -/
  | add {vcState : PbftViewChangeState} (hadd : AddsViewChange env p o view vcState)
      (hmore : vcState.enoughViewChanges = false) : VcUpdate env p o view vcState
  /-- A ViewChange is added and completes the re-proposals. -/
  | enough {vcState : PbftViewChangeState} (hadd : AddsViewChange env p o view vcState)
      (henough : vcState.enoughViewChanges = true) :
      VcUpdate env p o view (vcState.setEmptyPreprepares view p.segment.proposals)
  /-- The digests of the fresh Preprepares arrive, and known Preprepares are filled in. -/
  | digests {vcState vcState' : PbftViewChangeState} {data : List Bytes}
      (hlookup : o.state.viewChangeStates.lookup view = some vcState)
      (hreq : .hashRequest data (.emptyPreprepares view) ∈ o.out)
      (hset : vcState.setEmptyPreprepareDigests (data.map env.hash) = .ok vcState') :
      VcUpdate env p o view (vcState'.setLocalPreprepares o.state.lookUpPreprepare view)
  /-- A missing Preprepare arrives. -/
  | missing {vcState : PbftViewChangeState} {pp : Preprepare} {data : Bytes}
      (hlatest : latestPendingVCState o.state = (some vcState, view))
      (hreq : .hashRequestOne data (.missingPreprepare pp) ∈ o.out)
      (hnone : (vcState.preprepares.lookup pp.sn).getD none = none)
      (hdigest : ByteSlice.bytes ((vcState.reproposals.lookup pp.sn).getD none) = env.hash data) :
      VcUpdate env p o view { vcState with
        preprepares := vcState.preprepares.insert pp.sn (some { pp with view := view }) }

/-! ### The steps -/

/-- The elementary steps of an orderer. -/
inductive Micro (env : Env) (p : ModuleParams) (K : Guards) : Orderer → Orderer → Prop
  /-- An event is consumed. -/
  | log (o : Orderer) (ev : Event) (hen : Enabled env p o ev) (hK : K.event ev) :
      Micro env p K o { o with log := o.log ++ [ev] }
  /-- An event is emitted. -/
  | emit (o : Orderer) (x : Output) (h : Origin env p o x) : Micro env p K o (o.emit x)
  /-- Messages are stored in the buffers, or taken out of them. -/
  | buffers (o : Orderer) (buffers : GoMap NodeID (MessageBuffer BufferedMsg))
      (hkeys : ∀ id, id ∈ buffers.keys ↔ id ∈ o.state.messageBuffers.keys)
      (hbuf : BuffersSound p (o.withState { o.state with messageBuffers := buffers })) :
      Micro env p K o (o.withState { o.state with messageBuffers := buffers })
  /-- The state of proposing changes. A certificate is only ever requested in view zero. -/
  | proposal (o : Orderer) (proposal : PbftProposalState)
      (hcert : proposal.certRequestedView = o.state.proposal.certRequestedView ∨
        proposal.certRequestedView = 0) (hev : o.Proposing) :
      Micro env p K o (o.withState { o.state with proposal := proposal })
  /-- The state of a view change is created or updated. -/
  | viewChangeState (o : Orderer) (view : ViewNr) (vcState : PbftViewChangeState)
      (h : VcUpdate env p o view vcState) :
      Micro env p K o (setViewChangeState view vcState o)
  /-- A slot is updated without being decided. -/
  | slot (o : Orderer) (sn : SeqNr) (slot slot' : PbftSlot) (m : Option Mark) (x : Option Output)
      (hslot : o.slot? sn = some slot) (hupdate : SlotUpdate env p K o sn slot slot' m x) :
      Micro env p K o ((o.setSlot sn slot').record m x)
  /-- A slot is decided. -/
  | decide (o : Orderer) (sn : SeqNr) (slot slot' : PbftSlot) (m : Mark) (pp : Preprepare)
      (timer : Option TimerEvent) (hslot : o.slot? sn = some slot)
      (hcom : slot.committed = false) (hdec : Decides env o sn slot slot' m pp)
      (htimer : ∀ event ∈ timer, ∃ view n, event = .viewChangeSNTimeout view n) :
      Micro env p K o (deliver p sn pp timer ((o.setSlot sn slot').mark m))
  /-- A Done message is registered. -/
  | nodeDone (o : Orderer) (sender : NodeID) (digests : List Bytes) (chkp : PbftSegmentChkp)
      (hmem : sender ∈ p.segment.membership.nodes.keys)
      (hrcv : .messageReceived sender (.done digests) ∈ o.log) (hK : K.done o.log digests)
      (hchkp : o.state.segmentCheckpoint.nodeDone sender digests p.segment = .ok chkp) :
      Micro env p K o (o.setCheckpoint chkp)
  /-- Catching up begins. -/
  | catchingUp (o : Orderer) :
      Micro env p K o (o.setCheckpoint { o.state.segmentCheckpoint with catchingUp := true })
  /-- The next view is entered by a timeout. -/
  | startView (o o' : Orderer)
      (h : initView p (o.state.view + 1) (o.withState { o.state with inViewChange := true }) =
        .ok o') : Micro env p K o o'
  /-- A view is entered through a NewView message. -/
  | newView (o o' : Orderer) (nv : NewView) (ord : MapOrder) (data : List Bytes)
      (hreq : .hashRequest data (.newView nv) ∈ o.out)
      (hacc : AcceptsNewView ord p (data.map env.hash) nv o.state) (hK : K.newView o.state nv)
      (h : initView p nv.view o = .ok o') :
      Micro env p K o ((o'.withState { o'.state with inViewChange := false }).mark (.accepted nv))

/-- Sequences of elementary steps. -/
abbrev Micros (env : Env) (p : ModuleParams) (K : Guards) :=
  Relation.ReflTransGen (Micro env p K)

/-! ### Effects -/

/-- What a delivery emits, besides the delivery: a timer, and a Done message with the current digests
once the segment ends. -/
inductive DeliverOutput (p : ModuleParams) (timer : Option TimerEvent) (s : State) : Output → Prop
  | timer {event : TimerEvent} (hevent : event ∈ timer) :
      DeliverOutput p timer s (.timerDelay p.config.viewChangeSNTimeout event)
  | done (hall : s.allCommitted = true) :
      DeliverOutput p timer s (.timerRepeat p.config.doneResendPeriod p.config.epochNr
        (.done (doneDigests s)) p.segment.nodeIDs)

/-- **The effect of a delivery**: only the segment checkpoint may change, and the delivery is emitted
after the timer and possibly a Done message. -/
theorem deliver_spec (p : ModuleParams) (sn : SeqNr) (pp : Preprepare)
    (timer : Option TimerEvent) (o : Orderer) :
    ∃ (chkp : PbftSegmentChkp) (xs : List Output),
      deliver p sn pp timer o = { o with
        state := { o.state with segmentCheckpoint := chkp }
        out := o.out ++ (xs ++ [.sbDeliver sn pp.data pp.aborted p.segment.leader]) } ∧
      ∀ x ∈ xs, DeliverOutput p timer o.state x := by
  have hdone (o : Orderer) : ∃ (chkp : PbftSegmentChkp) (xs : List Output),
      doneIfAllCommitted p o = { o with
        state := { o.state with segmentCheckpoint := chkp }, out := o.out ++ xs } ∧
      ∀ x ∈ xs, DeliverOutput p timer o.state x := by
    unfold doneIfAllCommitted
    split
    · next hall => exact ⟨_, _, rfl, List.forall_mem_singleton.mpr (.done hall)⟩
    · exact ⟨o.state.segmentCheckpoint, [], by simp, by simp⟩
  cases timer with
  | none =>
    obtain ⟨chkp, xs, heq, hxs⟩ := hdone o
    refine ⟨chkp, xs, ?_, hxs⟩
    rw [deliver, heq]
    simp [Orderer.emit]
  | some event =>
    obtain ⟨chkp, xs, heq, hxs⟩ :=
      hdone (o.emit (.timerDelay p.config.viewChangeSNTimeout event))
    refine ⟨chkp, _ :: xs, ?_, List.forall_mem_cons.mpr ⟨.timer rfl, hxs⟩⟩
    rw [deliver, heq]
    simp [Orderer.emit]

/-- The ways `InitView` completes: nothing is done for the current view unless it is zero, else
all slots of the view are created anew. -/
theorem initView_cases {p : ModuleParams} {view : ViewNr} {o o' : Orderer}
    (h : initView p view o = .ok o') :
    (view ≠ 0 ∧ view = o.state.view ∧ o' = o) ∨
      (o.state.view < view ∨ view = 0 ∧ o.state.view = 0) ∧ ∃ slots n,
        initSlots p o.state view p.segment.seqNrs ∅ = .ok slots ∧
        o' = setViewTimers p view n (o.withState { o.state with
          slots := o.state.slots.insert view slots, view := view }) := by
  unfold initView at h
  split at h
  · cases h
  · next hge =>
    split at h
    · next hsame =>
      cases h
      exact Or.inl ⟨hsame.1, hsame.2, rfl⟩
    · next hne =>
      obtain ⟨slots, hslots, hret⟩ := Fallible.bind_eq_ok.mp h
      cases hret
      refine Or.inr ⟨?_, slots, _, hslots, rfl⟩
      rw [not_and_or, not_not] at hne
      rcases hne with rfl | hne
      · refine Or.inr ⟨rfl, ?_⟩
        by_contra hv
        exact hge (UInt64.pos_iff_ne_zero.mpr hv)
      · exact Or.inl (UInt64.lt_of_le_of_ne (UInt64.not_lt.mp hge) fun heq => hne heq.symm)

end Mir.Orderers
