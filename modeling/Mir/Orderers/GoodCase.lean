import Mir.Orderers.CatchUp

/-!
# The good case

`parts/goodcase`: proposing, and the three phases Preprepare, Prepare and Commit. A Preprepare
passes through three asynchronous stages before its slot is preprepared: validation, storing it
with a request for its hash, and the hash result. Prepare and Commit messages may arrive at any
time in between.
-/

namespace Mir.Orderers

/-! ### Proposing -/

/-- `canPropose`. -/
def canPropose (p : ModuleParams) (s : State) : Bool :=
  p.ownID == p.segment.leader && s.view == 0 && !s.proposal.certRequested &&
    s.proposal.proposalsMade < p.segment.len &&
    decide (s.proposal.proposalTimeout > s.proposal.proposalsMade) && !s.inViewChange

/-- `requestNewCert`. -/
def requestNewCert (o : Orderer) : Orderer :=
  (o.withState { o.state with
    proposal := { o.state.proposal with
      certRequested := true, certRequestedView := o.state.view } }).emit .requestCert

/-- `propose`. -/
def propose (p : ModuleParams) (data : Bytes) (o : Orderer) : Fallible Orderer := do
  let sn ← index p.segment.seqNrs o.state.proposal.proposalsMade
  let made := o.state.proposal.proposalsMade + 1
  let proposed := o.withState { o.state with
    proposal := { o.state.proposal with proposalsMade := made } }
  return (proposed.emit
      (.sendMessage (.preprepare ⟨sn, o.state.view, data, false⟩) p.segment.nodeIDs)).emit
    (.timerDelay p.config.maxProposeDelay (.proposeTimeout (UInt64.ofNat (made + 1))))

/-- `applyProposeTimeout`. -/
def applyProposeTimeout (p : ModuleParams) (numProposals : ℤ) (o : Orderer) : Fallible Orderer :=
  if numProposals > o.state.proposal.proposalTimeout then
    let o := o.withState { o.state with
      proposal := { o.state.proposal with proposalTimeout := numProposals } }
    if canPropose p o.state then do
      let sn ← index p.segment.seqNrs o.state.proposal.proposalsMade
      match (p.segment.proposals.lookup sn).getD none with
      | some proposal => propose p proposal o
      | none => return requestNewCert o
    else .ok o
  else .ok o

/-- `UponNewCert`; `cert` is the serialized certificate. -/
def uponNewCert (p : ModuleParams) (cert : Bytes) (o : Orderer) : Fallible Orderer :=
  let o := o.withState { o.state with
    proposal := { o.state.proposal with certRequested := false } }
  if o.state.proposal.certRequestedView = o.state.view then propose p cert o else .ok o

/-! ### Advancing a slot -/

/-- The first half of `advanceSlotState`: a slot that just became prepared sends a Commit. -/
def advancePrepared (p : ModuleParams) (sn : SeqNr) (o : Orderer) : Fallible Orderer := do
  let slot ← deref (o.slot? sn)
  if slot.prepared then return o
  else
    let (slot, prepared) ← slot.checkPrepared
    if prepared then
      return ((o.setSlot sn { slot with prepared := true }).mark
          (.prepared o.state.view sn slot.digest)).emit
        (.sendMessage (.commit ⟨sn, o.state.view, slot.digest⟩) p.segment.nodeIDs)
    else return o.setSlot sn slot

/-- The second half of `advanceSlotState`: a slot that just became committed resets the timeout,
may finish the segment, and delivers. -/
def advanceCommitted (p : ModuleParams) (sn : SeqNr) (o : Orderer) : Fallible Orderer := do
  let slot ← deref (o.slot? sn)
  if slot.committed then return o
  else
    let (slot, committed) ← slot.checkCommitted
    if committed then
      let o := (o.setSlot sn { slot with committed := true }).mark
        (.committed o.state.view sn slot.digest)
      let stable ← o.state.segmentCheckpoint.stable p.segment.membership
      let o := if stable then o
        else o.emit (.timerDelay p.config.viewChangeSNTimeout
          (.viewChangeSNTimeout o.state.view (UInt64.ofNat (o.state.numCommitted o.state.view))))
      let o := doneIfAllCommitted p o
      let preprepare ← deref slot.preprepare
      return o.emit (.sbDeliver sn preprepare.data preprepare.aborted p.segment.leader)
    else return o.setSlot sn slot

/-- `advanceSlotState`. -/
def advanceSlotState (p : ModuleParams) (sn : SeqNr) (o : Orderer) : Fallible Orderer := do
  let o ← advancePrepared p sn o
  advanceCommitted p sn o

/-! ### Messages -/

/-- `preprocessMessage`: the slot the message concerns, or none if it cannot be processed now.
A message of a later view, or received during a view change, goes to its sender's buffer; the
node itself has none. -/
def preprocessMessage (p : ModuleParams) (sn : SeqNr) (msg : BufferedMsg) (sender : NodeID)
    (o : Orderer) : Fallible (Orderer × Option PbftSlot) :=
  if msg.view < o.state.view then .ok (o, none)
  else if o.state.view < msg.view ∨ o.state.inViewChange = true then do
    let buffer ← deref (o.state.messageBuffers.lookup sender)
    let buffers := o.state.messageBuffers.insert sender (buffer.store p.protoSize msg)
    return (o.withState { o.state with messageBuffers := buffers }, none)
  else
    match o.slot? sn with
    | none => .ok (o, none)
    | some slot => if slot.committed then .ok (o, none) else .ok (o, some slot)

/-- `ApplyMsgPreprepare`. -/
def applyMsgPreprepare (pp : Preprepare) (sender : NodeID) (o : Orderer) : Orderer :=
  o.emit (.validatePreprepare pp sender)

/-- `ApplyMsgPreprepareValidated`. -/
def applyMsgPreprepareValidated (p : ModuleParams) (valid : Bool) (pp : Preprepare)
    (sender : NodeID) (o : Orderer) : Fallible Orderer :=
  if valid then do
    let (o, slot?) ← preprocessMessage p pp.sn (.preprepare pp) sender o
    match slot? with
    | none => return o
    | some slot =>
      if slot.preprepare.isSome then return o
      else
        let primary ← p.segment.primaryNode o.state.view
        if sender ≠ primary then return o
        else
          return (o.setSlot pp.sn { slot with preprepare := some pp }).emit
            (.hashRequestOne pp.hashBytes (.preprepare pp))
  else .ok o

/-- `applyMsgPrepare`. -/
def applyMsgPrepare (p : ModuleParams) (prepare : Prepare) (sender : NodeID) (o : Orderer) :
    Fallible Orderer :=
  if prepare.digest.isNone then .ok o
  else do
    let (o, slot?) ← preprocessMessage p prepare.sn (.prepare prepare) sender o
    match slot? with
    | none => return o
    | some slot =>
      if sender ∈ slot.prepareDigests.keys then return o
      else
        advanceSlotState p prepare.sn (o.setSlot prepare.sn
          { slot with prepareDigests := slot.prepareDigests.insert sender prepare.digest })

/-- `applyMsgCommit`. -/
def applyMsgCommit (p : ModuleParams) (commit : Commit) (sender : NodeID) (o : Orderer) :
    Fallible Orderer :=
  if commit.digest.isNone then .ok o
  else do
    let (o, slot?) ← preprocessMessage p commit.sn (.commit commit) sender o
    match slot? with
    | none => return o
    | some slot =>
      if sender ∈ slot.commitDigests.keys then return o
      else
        advanceSlotState p commit.sn (o.setSlot commit.sn
          { slot with commitDigests := slot.commitDigests.insert sender commit.digest })

/-- `ApplyBufferedMsg`. -/
def applyBufferedMsg (p : ModuleParams) (sender : NodeID) (o : Orderer) :
    BufferedMsg → Fallible Orderer
  | .preprepare pp => .ok (applyMsgPreprepare pp sender o)
  | .prepare prepare => applyMsgPrepare p prepare sender o
  | .commit commit => applyMsgCommit p commit sender o

/-- `UponResultOne` with a Preprepare as context. -/
def uponPreprepareHashed (p : ModuleParams) (digest : Bytes) (pp : Preprepare) (o : Orderer) :
    Fallible Orderer :=
  if pp.view < o.state.view then .ok o
  else do
    let slot ← deref (o.slot? pp.sn)
    advanceSlotState p pp.sn ((o.setSlot pp.sn
        { slot with digest := some digest, preprepared := true }).emit
      (.sendMessage (.prepare ⟨pp.sn, o.state.view, some digest⟩) p.segment.nodeIDs))

end Mir.Orderers
