import Mir.Iss.LeaderPolicy
import Mir.Checkpoint.Validator
import Mir.Checkpoint.Protocol

/-!
# The state of ISS

The parameters of `issconfig` with `CheckParams`, the state of `iss.go`, and the events ISS handles
and emits. Certificates, checkpoints and leader policies are read from bytes by library code, which
is a parameter (`Env`).

`sort.Slice` arranges the nodes anew in every call of `Leaders`, so each call takes its own
`LeaderSort`.
-/

namespace Mir.Iss

open Checkpoint Sorting Coding

/-! ### Parameters -/

/-- `issconfig.ModuleParams`; durations in nanoseconds. -/
structure ModuleParams where
  initialMembership : Membership
  configOffset : ℤ
  segmentLength : ℤ
  epochLength : ℤ
  maxProposeDelay : ℤ
  msgBufCapacity : ℤ
  retainedEpochs : ℤ
  catchUpTimerPeriod : ℤ

/-- The ways `CheckParams` rejects a configuration. -/
inductive ConfigError
  | invalidInitialMembership (e : Membership.Invalid)
  | configOffsetTooSmall
  | negativeSegmentLength
  | negativeEpochLength
  | conflictingLengths
  | negativeMaxProposeDelay
  | negativeMsgBufCapacity
  | nonPositiveCatchUpTimerPeriod
  deriving DecidableEq

/-- `CheckParams`: `none` when the configuration is accepted. -/
def checkParams (c : ModuleParams) : Option ConfigError :=
  match c.initialMembership.valid with
  | some e => some (.invalidInitialMembership e)
  | none =>
    if c.configOffset < 1 then some .configOffsetTooSmall
    else if c.segmentLength < 0 then some .negativeSegmentLength
    else if c.epochLength < 0 then some .negativeEpochLength
    else if c.epochLength ≠ 0 ∧ c.segmentLength ≠ 0 ∨ c.epochLength = 0 ∧ c.segmentLength = 0 then
      some .conflictingLengths
    else if c.maxProposeDelay < 0 then some .negativeMaxProposeDelay
    else if c.msgBufCapacity < 0 then some .negativeMsgBufCapacity
    else if c.catchUpTimerPeriod ≤ 0 then some .nonPositiveCatchUpTimerPeriod
    else none

/-- One entry of `mscpb.Certs`. -/
structure MscCert where
  batchID : Bytes
  signers : List NodeID
  signatures : List Bytes
  deriving DecidableEq

/-- `availabilitypb.Cert`; `none` when no type is set. -/
abbrev Cert := Option (List MscCert)

/-- A node's configuration and the library code it relies on. -/
structure Env where
  ownID : NodeID
  params : ModuleParams
  validatorKind : ValidatorKind
  crypto : Crypto
  membershipCodec : MembershipCodec
  policyCodec : PolicyCodec
  /-- `StableCheckpoint.Serialize`. -/
  serialize : StableCheckpoint → Bytes
  /-- `StableCheckpoint.Deserialize`; `none` is an error. -/
  deserialize : Bytes → Option StableCheckpoint
  /-- `proto.Unmarshal` of a certificate; `none` is an error. -/
  unmarshalCert : Bytes → Option Cert

namespace Env

/-- `ConfigOffset` as the length of a slice. -/
def configOffset (env : Env) : ℕ := env.params.configOffset.toNat

/-- `SegmentLength` as a number of loop iterations. -/
def segmentLength (env : Env) : ℕ := env.params.segmentLength.toNat

/-- The checkpoint validator ISS asks. -/
def validator (env : Env) : Validator :=
  ⟨env.validatorKind, env.configOffset, env.ownID, env.crypto, env.membershipCodec⟩

end Env

/-! ### Calls of Leaders -/

/-- What one call of `sort.Slice` does: it arranges the members by the policy's comparison. -/
structure LeaderSort where
  sort : BlacklistLeaderPolicy → List NodeID
  arranged : ∀ l m, l.membership = some m → Arrangement l.le m.nodes.keys (sort l)

/-- `Leaders`, with the sorting it does. -/
def LeaderPolicy.leadersBy (p : LeaderPolicy) (s : LeaderSort) : Fallible (List NodeID) :=
  match p with
  | .simple _ => p.leaders []
  | .blacklist l => p.leaders (s.sort l)

/-- The sortings of the calls of `Leaders` while one event is handled: when a checkpoint is
installed, when the new epoch is logged, and when its orderers are created. -/
structure Sorts where
  install : LeaderSort
  log : LeaderSort
  init : LeaderSort

/-! ### State -/

/-- `common.Segment`, as ISS creates it. -/
structure Segment where
  leader : NodeID
  membership : Membership
  proposals : GoMap SeqNr ByteSlice
  deriving DecidableEq

/-- `Segment.Len`. -/
def Segment.len (seg : Segment) : ℕ := seg.proposals.entries.length

/-- `epochInfo`. The code keeps a pointer to the policy, which it reads only while the epoch is
started; `leaderPolicy` is the policy at that time. -/
structure EpochInfo where
  nr : EpochNr
  firstSN : SeqNr
  membership : Membership
  leaderPolicy : LeaderPolicy
  segments : List Segment

/-- `epochInfo.Len`. -/
def EpochInfo.len (e : EpochInfo) : ℕ := (e.segments.map Segment.len).sum

/-- `CommitLogEntry`. -/
structure CommitLogEntry where
  sn : SeqNr
  certData : Bytes
  digest : Bytes
  aborted : Bool
  suspect : NodeID
  deriving DecidableEq

/-- The variables of `ISS`. The entries of `memberships` are pointers that the syntactic check of the
checkpoint they come from, or the application module, has dereferenced. -/
structure State where
  epoch : EpochInfo
  nodeEpochMap : GoMap NodeID EpochNr
  memberships : List Membership
  nextNewMembership : Option Membership
  commitLog : GoMap SeqNr CommitLogEntry
  nextDeliveredSN : SeqNr
  newEpochSN : SeqNr
  lastStableCheckpoint : StableCheckpoint
  lastPendingCheckpointSN : SeqNr
  leaderPolicy : LeaderPolicy

/-! ### Events -/

/-- The identifier of an orderer module: `epoch/index`, or `epoch/chkp`. -/
inductive OrdererID
  | segment (epoch : EpochNr) (i : ℕ)
  | chkp (epoch : EpochNr)
  deriving DecidableEq

/-- `verifyCertContext`. -/
structure VerifyCertContext where
  sn : SeqNr
  data : Bytes
  aborted : Bool
  leader : NodeID
  deriving DecidableEq

/-- The modules that are told to forget old epochs. -/
inductive PrunedModule
  | timer
  | checkpoint
  | availability
  | ordering
  | preprepareValidator
  | batchDB
  deriving DecidableEq

/-- The events ISS emits. -/
inductive Output
  | restoreState (chkp : StableCheckpoint)
  | newEpoch (epochNr : EpochNr)
  | newAvailability (epoch : EpochNr) (membership : Membership) (maxRequests : UInt64)
  | computeCert (epoch : EpochNr)
  | newOrderer (id : OrdererID) (segment : Segment)
  | newPreprepareValidator (epoch : EpochNr) (membership : Membership)
  | newCheckpoint (params : Checkpoint.ModuleParams)
  | snapshotRequest (epoch : EpochNr)
  | verifyCert (epoch : EpochNr) (cert : Cert) (context : VerifyCertContext)
  | deliverCert (sn : SeqNr) (cert : Cert) (empty : Bool)
  | stableCheckpoint (chkp : StableCheckpoint)
  | validateCheckpoint (chkp : StableCheckpoint) (epochNr : EpochNr) (memberships : List Membership)
  | sendStableCheckpoint (chkp : StableCheckpoint) (destinations : List NodeID)
  | garbageCollect (m : PrunedModule) (retentionIndex : UInt64)
  | repeatPushCheckpoint (period : ℤ) (retentionIndex : UInt64)
  deriving DecidableEq

/-- The events ISS handles. -/
inductive Event
  | sbDeliver (sn : SeqNr) (data : Bytes) (aborted : Bool) (leader : NodeID) (instanceID : OrdererID)
  | certVerified (valid : Bool) (context : VerifyCertContext)
  | newConfig (epochNr : EpochNr) (membership : Membership)
  | epochProgress (node : NodeID) (epoch : EpochNr)
  | stableCheckpoint (chkp : StableCheckpoint)
  | pushCheckpoint
  | stableCheckpointReceived (sender : NodeID) (chkp : StableCheckpoint)
  | checkpointValidated (err : Option ValidationError) (chkp : StableCheckpoint)
  deriving DecidableEq

/-- An ISS module with the events it has emitted. -/
structure Instance where
  state : State
  out : List Output

namespace Instance

/-- Emit an event. -/
def emit (i : Instance) (o : Output) : Instance := { i with out := i.out ++ [o] }

@[simp] theorem emit_state (i : Instance) (o : Output) : (i.emit o).state = i.state := rfl

@[simp] theorem emit_out (i : Instance) (o : Output) : (i.emit o).out = i.out ++ [o] := rfl

/-- Emit a list of events. -/
def emitAll (i : Instance) (os : List Output) : Instance := { i with out := i.out ++ os }

@[simp] theorem emitAll_state (i : Instance) (os : List Output) :
    (i.emitAll os).state = i.state := rfl

@[simp] theorem emitAll_out (i : Instance) (os : List Output) :
    (i.emitAll os).out = i.out ++ os := rfl

/-- Replace the leader policy. -/
def withPolicy (i : Instance) (p : LeaderPolicy) : Instance :=
  { i with state := { i.state with leaderPolicy := p } }

@[simp] theorem withPolicy_out (i : Instance) (p : LeaderPolicy) : (i.withPolicy p).out = i.out := rfl

end Instance

end Mir.Iss
