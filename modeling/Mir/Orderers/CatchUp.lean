import Mir.Orderers.State

/-!
# Catching up with the segment checkpoint

`parts/catchup`: Done messages, requests for missing committed values and their responses. A
response is only hashed on arrival; it takes effect when its hash equals the digest that the
segment checkpoint holds for its sequence number.
-/

namespace Mir.Orderers

/-- The digests of a Done message: those of the slots of the current view, in order. -/
def doneDigests (s : State) : List Bytes :=
  (GoMap.sortedKeys uint64Le (s.slotsOf s.view)).map fun sn =>
    ByteSlice.bytes ((s.slot? s.view sn).bind PbftSlot.digest)

/-- `SendDoneMessages`. -/
def sendDoneMessages (p : ModuleParams) (o : Orderer) : Orderer :=
  o.emit (.timerRepeat p.config.doneResendPeriod p.config.epochNr (.done (doneDigests o.state))
    p.segment.nodeIDs)

/-- What both ways of committing a slot do when it was the last one. -/
def doneIfAllCommitted (p : ModuleParams) (o : Orderer) : Orderer :=
  if o.state.allCommitted then
    sendDoneMessages p (o.setCheckpoint o.state.segmentCheckpoint.setDone)
  else o

/-- `UponResultOne` with a CatchUpResponse as context. -/
def uponCatchUpHashed (p : ModuleParams) (digest : Bytes) (pp : Preprepare) (o : Orderer) :
    Fallible Orderer := do
  let slot ← deref (o.slot? pp.sn)
  if slot.committed then return o
  else
    match o.state.segmentCheckpoint.digests with
    | none => return o
    | some digests =>
      if (digests.lookup pp.sn).getD [] ≠ digest then return o
      else
        let caughtUp := (o.setSlot pp.sn
          (slot.catchUp { pp with view := o.state.view } digest)).mark
            (.caughtUp o.state.view pp.sn digest)
        return (doneIfAllCommitted p caughtUp).emit
          (.sbDeliver pp.sn pp.data pp.aborted p.segment.leader)

/-- `catchUpRequests`: one request for each digest whose slot is not committed. -/
def catchUpRequests (s : State) (digests : GoMap SeqNr Bytes) :
    List SeqNr → Fallible (List Message)
  | [] => .ok []
  | sn :: sns => do
    let slot ← deref (s.slot? s.view sn)
    let rest ← catchUpRequests s digests sns
    if slot.committed then return rest
    else return .catchUpRequest (digests.lookup sn) sn :: rest

/-- `applyMsgDone`. -/
def applyMsgDone (p : ModuleParams) (digests : List Bytes) (sender : NodeID) (o : Orderer) :
    Fallible Orderer := do
  let chkp ← o.state.segmentCheckpoint.nodeDone sender digests p.segment
  let o := o.setCheckpoint chkp
  if chkp.doneNodes = [] ∨ chkp.catchingUp = true then return o
  else
    let chkpDigests := chkp.digests.getD ∅
    let requests ← catchUpRequests o.state chkpDigests (GoMap.sortedKeys uint64Le chkpDigests)
    return (o.setCheckpoint { chkp with catchingUp := true }).emit
      (.delayedTimerRepeat p.config.catchUpDelay p.config.epochNr requests chkp.doneNodes)

/-- `applyMsgCatchUpRequest`, with the check of the digest before it. -/
def applyMsgCatchUpRequest (digest : ByteSlice) (sn : SeqNr) (sender : NodeID) (o : Orderer) :
    Orderer :=
  if digest.isNone then o
  else
    match o.state.lookUpPreprepare sn digest with
    | none => o
    | some preprepare => o.emit (.sendMessage (.catchUpResponse (some preprepare)) [sender])

/-- `applyMsgCatchUpResponse`. -/
def applyMsgCatchUpResponse (resp : Option Preprepare) (o : Orderer) : Orderer :=
  match resp with
  | none => o
  | some preprepare =>
    match o.slot? preprepare.sn with
    | none => o
    | some slot =>
      if slot.committed then o
      else o.emit (.hashRequestOne preprepare.hashBytes (.catchUpResponse preprepare))

end Mir.Orderers
