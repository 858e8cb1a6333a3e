import Mir.Orderers.GoodCase

/-!
# View changes

`parts/viewchange`: leaving a view with a signed ViewChange message, collecting ViewChanges as
the primary of the new view, and entering a view through its NewView message. A NewView passes
through three asynchronous stages: its signatures are verified, its Preprepares are hashed, and
only then is it compared with what the carried ViewChanges require.
-/

namespace Mir.Orderers

/-! ### Starting a view change -/

/-- One iteration of `getPSetQSet` for a sequence number: what the slot of a view adds. -/
def addSlotToSets (s : State) (sn : SeqNr) (acc : ViewChangePSet × ViewChangeQSet) (view : ℕ) :
    Fallible (ViewChangePSet × ViewChangeQSet) :=
  match s.slots.lookup (UInt64.ofNat view) with
  | none => .ok acc
  | some slots => do
    let slot ← deref (slots.lookup sn)
    let v := UInt64.ofNat view
    let pSet := if slot.prepared then acc.1.insert sn ⟨sn, v, slot.digest⟩ else acc.1
    let qSet := if slot.preprepared then
        acc.2.insert sn (((acc.2.lookup sn).getD ∅).insert slot.digest.bytes v)
      else acc.2
    return (pSet, qSet)

/-- The body of the outer loop of `getPSetQSet`. -/
def addSeqNrToSets (s : State) (acc : ViewChangePSet × ViewChangeQSet) (sn : SeqNr) :
    Fallible (ViewChangePSet × ViewChangeQSet) :=
  (List.range s.view.toNat).foldlM (addSlotToSets s sn) (acc.1, acc.2.insert sn ∅)

/-- `getPSetQSet`. -/
def getPSetQSet (p : ModuleParams) (s : State) : Fallible (ViewChangePSet × ViewChangeQSet) :=
  p.segment.seqNrs.foldlM (addSeqNrToSets s) (∅, ∅)

/-- `startViewChange`. -/
def startViewChange (p : ModuleParams) (o : Orderer) : Fallible Orderer := do
  let o ← initView p (o.state.view + 1) (o.withState { o.state with inViewChange := true })
  let (pSet, qSet) ← getPSetQSet p o.state
  let viewChange : ViewChange := ⟨o.state.view, pSet.pbType, qSet.pbType⟩
  return o.emit (.signRequest viewChange.signedBytes viewChange)

/-- `applyViewChangeSNTimeout`. -/
def applyViewChangeSNTimeout (p : ModuleParams) (view : ViewNr) (numCommitted : UInt64)
    (o : Orderer) : Fallible Orderer :=
  if view = o.state.view ∧ numCommitted.toInt64.toInt = o.state.numCommitted o.state.view then do
    if ← o.state.segmentCheckpoint.stable p.segment.membership then return o
    else startViewChange p o
  else .ok o

/-- `applyViewChangeSegmentTimeout`. -/
def applyViewChangeSegmentTimeout (p : ModuleParams) (view : ViewNr) (o : Orderer) :
    Fallible Orderer :=
  if view = o.state.view then do
    if ← o.state.segmentCheckpoint.stable p.segment.membership then return o
    else startViewChange p o
  else .ok o

/-- `UponSignResult` with a ViewChange as context. -/
def uponSignResult (p : ModuleParams) (signature : ByteSlice) (vc : ViewChange) (o : Orderer) :
    Fallible Orderer := do
  let primary ← p.segment.primaryNode vc.view
  return o.emit (.timerRepeat p.config.viewChangeResendPeriod p.config.epochNr
    (.signedViewChange ⟨some vc, signature⟩) [primary])

/-! ### Collecting view changes -/

/-- Writing back a view-change state. -/
def setViewChangeState (view : ViewNr) (vcState : PbftViewChangeState) (o : Orderer) : Orderer :=
  o.withState { o.state with
    viewChangeStates := o.state.viewChangeStates.insert view vcState }

/-- `getViewChangeState`: the state of a view change, allocated when it is first needed. -/
def getViewChangeState (p : ModuleParams) (s : State) (view : ViewNr) : PbftViewChangeState :=
  (s.viewChangeStates.lookup view).getD
    (PbftViewChangeState.new p.segment.seqNrs p.segment.membership)

/-- `latestPendingVCState`: the view-change state with the highest view that has enough
ViewChanges. The comparison starts from view zero and is strict, so a state for view zero is
never found. -/
def latestPendingVCState (s : State) : Option PbftViewChangeState × ViewNr :=
  s.viewChangeStates.entries.foldl
    (fun acc entry =>
      if entry.2.enoughViewChanges = true ∧ acc.2 < entry.1 then (some entry.2, entry.1) else acc)
    (none, 0)

/-- The latest pending view-change state is the one stored for its view, and it has enough
ViewChanges. -/
theorem latestPendingVCState_eq {s : State} {vcState : PbftViewChangeState} {view : ViewNr}
    (h : latestPendingVCState s = (some vcState, view)) :
    s.viewChangeStates.lookup view = some vcState ∧ vcState.enoughViewChanges = true := by
  -- the loop only ever takes over entries of the map that have enough ViewChanges
  have key : ∀ (entries : List (Σ _ : ViewNr, PbftViewChangeState))
      (acc : Option PbftViewChangeState × ViewNr),
      (∀ st, acc.1 = some st → ⟨acc.2, st⟩ ∈ s.viewChangeStates.entries ∧
        st.enoughViewChanges = true) →
      (∀ entry ∈ entries, entry ∈ s.viewChangeStates.entries) →
      ∀ st v, entries.foldl (fun acc entry =>
        if entry.2.enoughViewChanges = true ∧ acc.2 < entry.1 then (some entry.2, entry.1)
        else acc) acc = (some st, v) →
      ⟨v, st⟩ ∈ s.viewChangeStates.entries ∧ st.enoughViewChanges = true := by
    intro entries
    induction entries with
    | nil =>
      rintro acc hacc - st v rfl
      exact hacc st rfl
    | cons entry entries ih =>
      intro acc hacc hmem st v hfold
      refine ih _ ?_ (fun e he => hmem e (List.mem_cons_of_mem _ he)) st v hfold
      intro st' hst'
      dsimp only at hst' ⊢
      split at hst'
      · next hlater =>
        rw [if_pos hlater]
        cases hst'
        exact ⟨hmem entry List.mem_cons_self, hlater.1⟩
      · next hnot =>
        rw [if_neg hnot]
        exact hacc st' hst'
  obtain ⟨hentry, henough⟩ := key _ _ (fun st hst => by cases hst) (fun _ he => he) _ _ h
  exact ⟨AList.mem_lookup_iff.mpr hentry, henough⟩

/-- `applyMsgSignedViewChange`, with its syntactic check. -/
def applyMsgSignedViewChange (svc : SignedViewChange) (sender : NodeID) (o : Orderer) : Orderer :=
  if svc.signature.isNone then o
  else
    match svc.viewChange with
    | none => o
    | some vc => o.emit (.verifySig vc.signedBytes svc.signature sender svc)

/-- `applyVerifiedViewChange`. -/
def applyVerifiedViewChange (ord : MapOrder) (p : ModuleParams) (svc : SignedViewChange)
    (sender : NodeID) (o : Orderer) : Fallible Orderer := do
  let vc ← deref svc.viewChange
  if vc.view < o.state.view then return o
  else
    let primary ← p.segment.primaryNode vc.view
    if p.ownID ≠ primary then return o
    else
      let vcState := getViewChangeState p o.state vc.view
      if vcState.enoughViewChanges then return setViewChangeState vc.view vcState o
      else
        let vcState ← vcState.addSignedViewChange ord svc sender
        if vcState.enoughViewChanges then
          return (setViewChangeState vc.view
              (vcState.setEmptyPreprepares vc.view p.segment.proposals) o).emit
            (.hashRequest (vcState.emptyPreprepareData vc.view p.segment.proposals)
              (.emptyPreprepares vc.view))
        else return setViewChangeState vc.view vcState o

/-- `UponSigVerified` with a SignedViewChange as context. -/
def uponSigVerified (ord : MapOrder) (p : ModuleParams) (sender : NodeID) (valid : Bool)
    (svc : SignedViewChange) (o : Orderer) : Fallible Orderer :=
  if valid = false then .ok o
  else if sender ∉ p.config.membership then .ok o
  else applyVerifiedViewChange ord p svc sender o

/-! ### Building the NewView -/

/-- The NewView `sendNewView` builds. -/
def newViewOf (view : ViewNr) (vcState : PbftViewChangeState) : NewView :=
  let senders := GoMap.sortedKeys GoString.le vcState.signedViewChanges
  let seqNrs := GoMap.sortedKeys uint64Le vcState.preprepares
  { view := view
    viewChangeSenders := senders
    signedViewChanges := senders.filterMap fun id => vcState.signedViewChanges.lookup id
    preprepareSeqNrs := seqNrs
    preprepares := seqNrs.filterMap fun sn => (vcState.preprepares.lookup sn).getD none }

/-- `sendNewView`. It is only called when all Preprepares are present. -/
def sendNewView (p : ModuleParams) (view : ViewNr) (vcState : PbftViewChangeState) (o : Orderer) :
    Orderer :=
  o.emit (.sendMessage (.newView (newViewOf view vcState)) p.segment.nodeIDs)

/-- `askForMissingPreprepares`. -/
def askForMissingPreprepares (vcState : PbftViewChangeState) (o : Orderer) : Orderer :=
  vcState.reproposals.keys.foldl
    (fun o sn =>
      let digest := (vcState.reproposals.lookup sn).getD none
      if digest.bytes ≠ [] ∧ ((vcState.preprepares.lookup sn).getD none).isNone then
        o.emit (.sendMessage (.preprepareRequest digest sn)
          ((vcState.prepreparedIDs.lookup sn).getD []))
      else o) o

/-- `UponResult` for empty Preprepares, with the view as context. -/
def uponEmptyPreprepareHashes (p : ModuleParams) (digests : List Bytes) (view : ViewNr)
    (o : Orderer) : Fallible Orderer :=
  if view < o.state.view then .ok o
  else do
    let vcState ← deref (o.state.viewChangeStates.lookup view)
    let vcState ← vcState.setEmptyPreprepareDigests digests
    let vcState := vcState.setLocalPreprepares o.state.lookUpPreprepare view
    let o := setViewChangeState view vcState o
    if vcState.hasAllPreprepares then return sendNewView p view vcState o
    else return askForMissingPreprepares vcState o

/-- `applyMsgPreprepareRequest`. -/
def applyMsgPreprepareRequest (digest : ByteSlice) (sn : SeqNr) (sender : NodeID) (o : Orderer) :
    Orderer :=
  match o.state.lookUpPreprepare sn digest with
  | none => o
  | some preprepare => o.emit (.sendMessage (.missingPreprepare (some preprepare)) [sender])

/-- `applyMsgMissingPreprepare`. -/
def applyMsgMissingPreprepare (preprepare : Option Preprepare) (o : Orderer) : Fallible Orderer := do
  let vcState ← deref (latestPendingVCState o.state).1
  let pp ← deref preprepare
  if ((vcState.preprepares.lookup pp.sn).getD none).isSome = true ∨
      (latestPendingVCState o.state).2 < o.state.view then return o
  else return o.emit (.hashRequestOne pp.hashBytes (.missingPreprepare pp))

/-- `UponResultOne` with a MissingPreprepare as context. -/
def uponMissingPreprepareHashed (p : ModuleParams) (digest : Bytes) (pp : Preprepare)
    (o : Orderer) : Fallible Orderer := do
  let view := (latestPendingVCState o.state).2
  let vcState ← deref (latestPendingVCState o.state).1
  if ((vcState.preprepares.lookup pp.sn).getD none).isSome = true ∨ view < o.state.view then
    return o
  else
    let vcState := if ByteSlice.bytes ((vcState.reproposals.lookup pp.sn).getD none) = digest then
        { vcState with
          preprepares := vcState.preprepares.insert pp.sn (some { pp with view := view }) }
      else vcState
    let o := setViewChangeState view vcState o
    if vcState.hasAllPreprepares then return sendNewView p view vcState o else return o

/-! ### Entering a view through a NewView -/

/-- `applyMsgNewView`. -/
def applyMsgNewView (p : ModuleParams) (nv : NewView) (sender : NodeID) (o : Orderer) :
    Fallible Orderer := do
  let primary ← p.segment.primaryNode nv.view
  if sender ≠ primary then return o
  else if nv.viewChangeSenders.length ≠ nv.signedViewChanges.length then return o
  else
    let data ← nv.signedViewChanges.mapM fun svc => do
      let vc ← deref svc.viewChange
      return vc.signedBytes
    return o.emit (.verifySigs data (nv.signedViewChanges.map SignedViewChange.signature)
      nv.viewChangeSenders nv)

/-- `UponSigsVerified` with a NewView as context. -/
def uponSigsVerified (p : ModuleParams) (senders : List NodeID) (allOk : Bool) (nv : NewView)
    (o : Orderer) : Orderer :=
  if allOk = false then o
  else if ¬ ∀ id ∈ senders, id ∈ p.config.membership then o
  else o.emit (.hashRequest (nv.preprepares.map Preprepare.hashBytes) (.newView nv))

/-- The loop that feeds the carried ViewChanges, from the `i`-th on. -/
def feedViewChanges (ord : MapOrder) (senders : List NodeID) :
    ℕ → List SignedViewChange → PbftViewChangeState → Fallible PbftViewChangeState
  | _, [], vcState => .ok vcState
  | i, svc :: svcs, vcState => do
    let sender ← index senders i
    let vcState ← vcState.addSignedViewChange ord svc sender
    feedViewChanges ord senders (i + 1) svcs vcState

/-- `validFreshPreprepare`. -/
def validFreshPreprepare (pp : Preprepare) (view : ViewNr) (sn : SeqNr) : Bool :=
  pp.aborted && pp.sn == sn && pp.view == view

/-- The loop that compares the re-proposals with the Preprepares, from the `i`-th on. It stops
at the first mismatch. -/
def prepreparesMatching (nv : NewView) (digests : List Bytes)
    (reproposals : GoMap SeqNr ByteSlice) : ℕ → List SeqNr → Fallible Bool
  | _, [] => .ok true
  | i, sn :: sns => do
    let digest := ByteSlice.bytes ((reproposals.lookup sn).getD none)
    let isMatch ← if digest = [] then do
        let pp ← index nv.preprepares i
        pure (validFreshPreprepare pp nv.view sn)
      else do
        let d ← index digests i
        pure (decide (digest = d))
    if isMatch then prepreparesMatching nv digests reproposals (i + 1) sns else return false

/-- How a buffered message stands to the current view. -/
def bufferFilter (o : Orderer) (msg : BufferedMsg) : Applicable :=
  if msg.view < o.state.view then .past
  else if msg.view = o.state.view then .current
  else .future

/-- Applying the messages that one sender's buffer holds for the current view. Applying a
message of the current view never stores one, so the messages that stay can be written back
at the end. -/
def applyBuffer (p : ModuleParams) (o : Orderer) (sender : NodeID) : Fallible Orderer :=
  match o.state.messageBuffers.lookup sender with
  | none => .ok o
  | some buffer => do
    let (o, kept) ← MessageBuffer.iterate bufferFilter (applyBufferedMsg p sender)
      buffer.messages o
    return o.withState { o.state with
      messageBuffers := o.state.messageBuffers.insert sender { buffer with messages := kept } }

/-- What a node does once a NewView has passed all checks. -/
def enterNewView (ord : MapOrder) (p : ModuleParams) (nv : NewView) (o : Orderer) :
    Fallible Orderer := do
  let o ← initView p nv.view o
  let o := (o.withState { o.state with inViewChange := false }).mark (.accepted nv)
  let primary ← p.segment.primaryNode nv.view
  let o := nv.preprepares.foldl (fun o pp => applyMsgPreprepare pp primary o) o
  (ord.buffers o.state.messageBuffers.keys).foldlM (applyBuffer p) o

/-- `UponResult` with a NewView as context. -/
def uponNewViewHashed (ord : MapOrder) (p : ModuleParams) (digests : List Bytes) (nv : NewView)
    (o : Orderer) : Fallible Orderer :=
  if nv.view < o.state.view then .ok o
  else do
    let vcState ← feedViewChanges ord nv.viewChangeSenders 0 nv.signedViewChanges
      (PbftViewChangeState.new p.segment.seqNrs p.segment.membership)
    if vcState.enoughViewChanges then
      if ← prepreparesMatching nv digests vcState.reproposals 0
          (GoMap.sortedKeys uint64Le vcState.reproposals) then
        enterNewView ord p nv o
      else return o
    else return o

end Mir.Orderers
