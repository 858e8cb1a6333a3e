import Mir.Iss.State

/-!
# The handlers of ISS

The functions and event handlers of `iss.go`. A handler completes with the next instance, or ends in
a panic or in an error that stops the node.

The loop of `processCommitted` removes one entry of the commit log in each iteration, so its model
runs for as many rounds as the log has entries (`deliverReady`).
-/

namespace Mir.Iss

open Checkpoint

/-! ### Epochs -/

/-- The loop of `freeProposals`. -/
def fillProposals (step : SeqNr) : ℕ → SeqNr → GoMap SeqNr ByteSlice → GoMap SeqNr ByteSlice
  | 0, _, seqNrs => seqNrs
  | n + 1, nextSn, seqNrs => fillProposals step n (nextSn + step) (seqNrs.insert nextSn none)

/-- `freeProposals`. -/
def freeProposals (start step : SeqNr) (length : ℕ) : GoMap SeqNr ByteSlice :=
  fillProposals step length start ∅

/-- `common.NewSegment`. -/
def newSegment (leader : NodeID) (membership : Membership) (proposals : GoMap SeqNr ByteSlice) :
    Fallible Segment :=
  if leader ∉ membership.nodes.keys then .error (.error .leaderNotInMembership)
  else .ok ⟨leader, membership, proposals⟩

/-- The end of an iteration of `initOrderers`: count the segment's sequence numbers, create its
orderer and append it to the epoch. -/
def Instance.addSegment (i : Instance) (index : ℕ) (seg : Segment) : Instance where
  state :=
    { i.state with
      newEpochSN := i.state.newEpochSN + seg.len.toUInt64
      epoch := { i.state.epoch with segments := i.state.epoch.segments ++ [seg] } }
  out := i.out ++ [.newOrderer (.segment i.state.epoch.nr index) seg]

/-- The loop of `initOrderers` over the leaders from the given index on; `count` is their total
number. -/
def addSegments (env : Env) (count : ℕ) : ℕ → List NodeID → Instance → Fallible Instance
  | _, [], i => .ok i
  | index, leader :: rest, i => do
    let proposals := freeProposals (i.state.nextDeliveredSN + index.toUInt64) count.toUInt64
      env.segmentLength
    let seg ← newSegment leader i.state.epoch.membership proposals
    addSegments env count (index + 1) rest (i.addSegment index seg)

/-- `initOrderers`. -/
def initOrderers (env : Env) (sorts : Sorts) (i : Instance) : Fallible Instance := do
  let leaders ← i.state.epoch.leaderPolicy.leadersBy sorts.init
  addSegments env leaders.length 0 leaders i

/-- The state and the events of `startEpoch` before the orderers are created; the second half of the
events is `initAvailability`. -/
def Instance.enterEpoch (env : Env) (i : Instance) (epochNr : EpochNr) (membership : Membership) :
    Instance where
  state := { i.state with
    epoch := ⟨epochNr, i.state.newEpochSN, membership, i.state.leaderPolicy, []⟩ }
  out := i.out ++ [.newEpoch epochNr,
    .newAvailability epochNr membership (Int64.ofInt env.params.segmentLength).toUInt64,
    .computeCert epochNr]

/-- `startEpoch`. -/
def startEpoch (env : Env) (sorts : Sorts) (epochNr : EpochNr) (i : Instance) :
    Fallible Instance := do
  let membership ← index i.state.memberships 0
  -- The log message about the new epoch lists the leaders.
  let _ ← i.state.leaderPolicy.leadersBy sorts.log
  initOrderers env sorts (i.enterEpoch env epochNr membership)

/-- `hasEpochCheckpoint`. -/
def State.hasEpochCheckpoint (s : State) : Prop := s.lastStableCheckpoint.sn = s.epoch.firstSN

instance (s : State) : Decidable s.hasEpochCheckpoint :=
  inferInstanceAs (Decidable (s.lastStableCheckpoint.sn = s.epoch.firstSN))

/-- `epochFinished`. -/
def State.epochFinished (s : State) : Prop :=
  s.nextDeliveredSN = s.newEpochSN ∧ s.hasEpochCheckpoint ∧ s.nextNewMembership.isSome

instance (s : State) : Decidable s.epochFinished :=
  inferInstanceAs (Decidable (_ ∧ _ ∧ _))

/-- The first part of `advanceEpoch`: the membership pipeline moves on, and the leader policy is
reconfigured for the new epoch's membership. -/
def Instance.shiftMemberships (i : Instance) (memberships : List Membership)
    (membership : Membership) : Instance :=
  { i with
    state := { i.state with
      memberships := memberships
      nextNewMembership := none
      leaderPolicy := i.state.leaderPolicy.reconfigure membership } }

/-- `checkpoint.DefaultResendPeriod`, one second in nanoseconds. -/
def defaultResendPeriod : ℕ := 1000000000

/-- The parameters of the checkpoint module of the current epoch. -/
def checkpointParams (env : Env) (s : State) (oldMembership : Membership) :
    Checkpoint.ModuleParams where
  ownID := env.ownID
  membership := oldMembership
  epochConfig := ⟨s.epoch.nr, s.epoch.firstSN, s.epoch.len.toUInt64, some (s.memberships.map some)⟩
  leaderPolicyData := some (s.leaderPolicy.bytes env.policyCodec)
  resendPeriod := defaultResendPeriod

/-- `advanceEpoch`. -/
def advanceEpoch (env : Env) (sorts : Sorts) (i : Instance) : Fallible Instance := do
  let newEpochNr := i.state.epoch.nr + 1
  let oldMembership ← index i.state.memberships 0
  let nextNewMembership ← deref i.state.nextNewMembership
  let memberships := i.state.memberships.drop 1 ++ [nextNewMembership]
  let membership ← index memberships 0
  let i ← startEpoch env sorts newEpochNr (i.shiftMemberships memberships membership)
  return i.emitAll [.newCheckpoint (checkpointParams env i.state oldMembership),
    .snapshotRequest newEpochNr]

/-! ### Delivery -/

/-- The end of an iteration of `processCommitted`: deliver a certificate for the next sequence
number, and remove its entry. -/
def Instance.deliver (i : Instance) (cert : Cert) (aborted : Bool) : Instance where
  state :=
    { i.state with
      commitLog := i.state.commitLog.erase i.state.nextDeliveredSN
      nextDeliveredSN := i.state.nextDeliveredSN + 1 }
  out := i.out ++ [.deliverCert i.state.nextDeliveredSN cert aborted]

/-- `Suspect` of the current leader policy, in the current epoch. -/
def Instance.suspect (i : Instance) (node : NodeID) : Fallible Instance := do
  let policy ← i.state.leaderPolicy.suspect i.state.epoch.nr node
  return i.withPolicy policy

/-- An iteration of `processCommitted`. An aborted entry is delivered with an empty certificate. -/
def deliverEntry (env : Env) (entry : CommitLogEntry) (i : Instance) : Fallible Instance :=
  if entry.aborted then do
    let i ← i.suspect entry.suspect
    return i.deliver (some []) true
  else
    match env.unmarshalCert entry.certData with
    | none => .error (.error .invalidCertificate)
    | some cert => .ok (i.deliver cert false)

/-- The loop of `processCommitted`, for at most the given number of iterations. -/
def deliverReady (env : Env) : ℕ → Instance → Fallible Instance
  | 0, i => .ok i
  | n + 1, i =>
    match i.state.commitLog.lookup i.state.nextDeliveredSN with
    | none => .ok i
    | some entry => do
      let i ← deliverEntry env entry i
      deliverReady env n i

/-- `processCommitted`. -/
def processCommitted (env : Env) (sorts : Sorts) (i : Instance) : Fallible Instance :=
  if ¬ i.state.hasEpochCheckpoint then .ok i
  else do
    let i ← deliverReady env i.state.commitLog.entries.length i
    if i.state.epochFinished then advanceEpoch env sorts i else return i

/-- `serializeLogEntryForHashing`. -/
def serializeLogEntryForHashing (entry : CommitLogEntry) : List Bytes :=
  [uint64ToBytes entry.sn, entry.suspect, [if entry.aborted then 1 else 0], entry.certData]

/-- The commit log entry `deliverCert` creates. -/
def newLogEntry (env : Env) (sn : SeqNr) (data : Bytes) (aborted : Bool) (leader : NodeID) :
    CommitLogEntry :=
  let entry : CommitLogEntry := ⟨sn, data, [], aborted, leader⟩
  { entry with digest := env.crypto.hash (serializeLogEntryForHashing entry).flatten }

/-- Insert an entry into the commit log. -/
def Instance.commit (i : Instance) (entry : CommitLogEntry) : Instance :=
  { i with state := { i.state with commitLog := i.state.commitLog.insert entry.sn entry } }

/-- `deliverCert`. -/
def deliverCert (env : Env) (sorts : Sorts) (sn : SeqNr) (data : Bytes) (aborted : Bool)
    (leader : NodeID) (i : Instance) : Fallible Instance :=
  processCommitted env sorts (i.commit (newLogEntry env sn data aborted leader))

/-- `verifyCert`. -/
def verifyCert (env : Env) (sorts : Sorts) (sn : SeqNr) (data : Bytes) (aborted : Bool)
    (leader : NodeID) (i : Instance) : Fallible Instance :=
  match env.unmarshalCert data with
  | none => do
    let i ← i.suspect leader
    deliverCert env sorts sn [] true leader i
  | some cert => .ok (i.emit (.verifyCert i.state.epoch.nr cert ⟨sn, data, aborted, leader⟩))

/-- The events with which `deliverCommonCheckpoint` prunes other modules and starts to push the
checkpoint. -/
def pruneOutputs (env : Env) (pruneIndex : Int64) : List Output :=
  [.garbageCollect .timer pruneIndex.toUInt64, .garbageCollect .checkpoint pruneIndex.toUInt64,
    .garbageCollect .availability pruneIndex.toUInt64, .garbageCollect .ordering pruneIndex.toUInt64,
    .garbageCollect .preprepareValidator pruneIndex.toUInt64,
    .garbageCollect .batchDB pruneIndex.toUInt64,
    .repeatPushCheckpoint env.params.catchUpTimerPeriod pruneIndex.toUInt64]

/-- Record a checkpoint as the last stable one and pass it to the application. -/
def Instance.stabilize (i : Instance) (chkp : StableCheckpoint) : Instance where
  state := { i.state with lastStableCheckpoint := chkp }
  out := i.out ++ [.stableCheckpoint chkp]

/-- `deliverCommonCheckpoint`. -/
def deliverCommonCheckpoint (env : Env) (sorts : Sorts) (chkpData : Bytes) (i : Instance) :
    Fallible Instance :=
  match env.deserialize chkpData with
  | none => .error (.error .invalidCommonCheckpoint)
  | some chkp =>
    if chkp.sn ≤ i.state.lastStableCheckpoint.sn then .ok i
    else do
      -- The log message about the checkpoint reads both checkpoints' epoch configurations.
      let chkpEpoch ← chkp.epoch
      let _ ← i.state.lastStableCheckpoint.epoch
      let i ← processCommitted env sorts (i.stabilize chkp)
      let pruneIndex := chkpEpoch.toInt64 - Int64.ofInt env.params.retainedEpochs
      return if 0 < pruneIndex then i.emitAll (pruneOutputs env pruneIndex) else i

/-! ### Event handlers -/

/-- `UponSBDeliver`. -/
def uponSBDeliver (env : Env) (sorts : Sorts) (sn : SeqNr) (data : Bytes) (aborted : Bool)
    (leader : NodeID) (instanceID : OrdererID) (i : Instance) : Fallible Instance :=
  match instanceID with
  | .chkp _ => deliverCommonCheckpoint env sorts data i
  | .segment _ _ =>
    if aborted then deliverCert env sorts sn data aborted leader i
    else verifyCert env sorts sn data aborted leader i

/-- `UponCertVerified`. -/
def uponCertVerified (env : Env) (sorts : Sorts) (valid : Bool) (context : VerifyCertContext)
    (i : Instance) : Fallible Instance :=
  if ¬ valid then do
    let i ← i.suspect context.leader
    deliverCert env sorts context.sn [] true context.leader i
  else deliverCert env sorts context.sn context.data context.aborted context.leader i

/-- Store the membership the application announced. -/
def Instance.announce (i : Instance) (membership : Membership) : Instance :=
  { i with state := { i.state with nextNewMembership := some membership } }

/-- `UponNewConfig`. -/
def uponNewConfig (env : Env) (sorts : Sorts) (epochNr : EpochNr) (membership : Membership)
    (i : Instance) : Fallible Instance :=
  if epochNr < i.state.epoch.nr then .ok i
  else if i.state.nextNewMembership.isSome then .error (.error .alreadyHaveMembership)
  else if (i.announce membership).state.epochFinished then
    advanceEpoch env sorts (i.announce membership)
  else .ok (i.announce membership)

/-- `UponEpochProgress`; a missing entry of the map reads as 0. -/
def uponEpochProgress (node : NodeID) (epochNr : EpochNr) (i : Instance) : Instance :=
  if (i.state.nodeEpochMap.lookup node).getD 0 < epochNr then
    { i with state := { i.state with nodeEpochMap := i.state.nodeEpochMap.insert node epochNr } }
  else i

/-- The index of the leader of a checkpoint's orderer: Go's remainder of a signed integer. -/
def chkpLeaderIndex (epoch : EpochNr) (count : ℕ) : Fallible Int64 :=
  if count = 0 then .error (.panic .divideByZero)
  else .ok (Int64.ofInt (Int.tmod epoch.toInt64.toInt count))

/-- `UponStableCheckpoint`. -/
def uponStableCheckpoint (env : Env) (chkp : StableCheckpoint) (i : Instance) :
    Fallible Instance :=
  if chkp.sn ≤ i.state.lastPendingCheckpointSN then .ok i
  else do
    let epoch ← chkp.epoch
    -- The log message about the checkpoint reads the epoch of the one it replaces.
    let _ ← i.state.lastStableCheckpoint.epoch
    let membership ← deref (← chkp.previousMembership)
    let leaderIndex ← chkpLeaderIndex epoch membership.nodes.keys.length
    let leader ← indexInt (membership.nodes.sortedKeys GoString.le) leaderIndex
    let seg ← newSegment leader membership (GoMap.ofKeys [0] fun _ => some (env.serialize chkp))
    return { state := { i.state with lastPendingCheckpointSN := chkp.sn }
             out := i.out ++ [.newPreprepareValidator epoch membership, .newOrderer (.chkp epoch) seg] }

/-- `UponPushCheckpoint`. -/
def uponPushCheckpoint (env : Env) (i : Instance) : Fallible Instance := do
  let chkp := i.state.lastStableCheckpoint
  let epoch ← chkp.epoch
  let membership ← deref (← index (← chkp.memberships) 0)
  let delayed := membership.nodes.keys.filter fun n =>
    (i.state.nodeEpochMap.lookup n).getD 0 + (Int64.ofInt env.params.retainedEpochs).toUInt64 < epoch
  return i.emit (.sendStableCheckpoint chkp delayed)

/-- `UponStableCheckpointReceived`. The sender is not looked at. -/
def uponStableCheckpointReceived (chkp : StableCheckpoint) (i : Instance) : Fallible Instance := do
  let epoch ← chkp.epoch
  if membershipOffset epoch i.state.epoch.nr ≤ 0 then return i
  else return i.emit (.validateCheckpoint chkp i.state.epoch.nr i.state.memberships)

/-- The state ISS restores from a checkpoint, and the event that makes the application restore it. -/
def Instance.restore (i : Instance) (chkp : StableCheckpoint) (policy : LeaderPolicy)
    (memberships : List Membership) : Instance where
  state := { i.state with
    leaderPolicy := policy
    commitLog := ∅
    nextDeliveredSN := chkp.sn
    newEpochSN := chkp.sn
    memberships := memberships
    nextNewMembership := none
    lastStableCheckpoint := chkp }
  out := i.out ++ [.restoreState chkp]

/-- The events at the end of `UponCheckpointValidated`. -/
def installOutputs (chkp : StableCheckpoint) (epoch : EpochNr) : List Output :=
  [.stableCheckpoint chkp, .garbageCollect .timer epoch, .garbageCollect .checkpoint epoch,
    .garbageCollect .availability epoch, .garbageCollect .ordering epoch]

/-- The part of `UponCheckpointValidated` that installs the checkpoint. -/
def install (env : Env) (sorts : Sorts) (chkp : StableCheckpoint) (policy : LeaderPolicy)
    (i : Instance) : Fallible Instance := do
  let epoch ← chkp.epoch
  let memberships ← (← chkp.memberships).mapM deref
  -- The log message about the checkpoint lists the leaders.
  let _ ← policy.leadersBy sorts.install
  let i ← startEpoch env sorts epoch (i.restore chkp policy memberships)
  return i.emitAll (installOutputs chkp epoch)

/-- `UponCheckpointValidated`. -/
def uponCheckpointValidated (env : Env) (sorts : Sorts) (err : Option ValidationError)
    (chkp : StableCheckpoint) (i : Instance) : Fallible Instance :=
  if err.isSome then .ok i
  else do
    let epoch ← chkp.epoch
    if membershipOffset epoch i.state.epoch.nr ≤ 0 then return i
    else
      let data ← chkp.epochData
      match LeaderPolicy.fromBytes env.policyCodec data.leaderPolicy.bytes with
      | none => return i
      | some policy => install env sorts chkp policy i

/-- The handler of an event. -/
def step (env : Env) (sorts : Sorts) (i : Instance) : Event → Fallible Instance
  | .sbDeliver sn data aborted leader instanceID =>
    uponSBDeliver env sorts sn data aborted leader instanceID i
  | .certVerified valid context => uponCertVerified env sorts valid context i
  | .newConfig epochNr membership => uponNewConfig env sorts epochNr membership i
  | .epochProgress node epoch => .ok (uponEpochProgress node epoch i)
  | .stableCheckpoint chkp => uponStableCheckpoint env chkp i
  | .pushCheckpoint => uponPushCheckpoint env i
  | .stableCheckpointReceived _ chkp => uponStableCheckpointReceived chkp i
  | .checkpointValidated err chkp => uponCheckpointValidated env sorts err chkp i

/-! ### Starting -/

/-- `New`; `none` when it returns an error. The epoch is set by the handler of the Init event, and
read by nothing before. -/
def new (env : Env) (startingChkp : StableCheckpoint) : Fallible (Option Instance) :=
  if (checkParams env.params).isSome then .ok none
  else do
    let data ← startingChkp.epochData
    match LeaderPolicy.fromBytes env.policyCodec data.leaderPolicy.bytes with
    | none => return none
    | some policy =>
      match ← startingChkp.verify env.crypto env.membershipCodec env.configOffset
          env.params.initialMembership with
      | some _ => return none
      | none =>
        let epoch ← startingChkp.epoch
        let memberships ← (← startingChkp.memberships).mapM deref
        return some
          { state :=
              { epoch := ⟨epoch, startingChkp.sn, env.params.initialMembership, policy, []⟩
                nodeEpochMap := ∅
                memberships := memberships
                nextNewMembership := none
                commitLog := ∅
                nextDeliveredSN := startingChkp.sn
                newEpochSN := startingChkp.sn
                lastStableCheckpoint := startingChkp
                lastPendingCheckpointSN := 0
                leaderPolicy := policy }
            out := [] }

/-- The handler of the Init event. -/
def uponInit (env : Env) (sorts : Sorts) (i : Instance) : Fallible Instance := do
  let epoch ← i.state.lastStableCheckpoint.epoch
  startEpoch env sorts epoch (i.emit (.restoreState i.state.lastStableCheckpoint))

end Mir.Iss
