import Mir.Orderers.MessageBuffer
import Mir.Orderers.SegmentCheckpoint
import Mir.Orderers.ViewChangeState

/-!
# The state of an orderer

`common.State`, what an orderer emits, and the functions that all parts of the protocol share:
`InitView`, `NumCommitted`, `AllCommitted` and `LookUpPreprepare`.

An `Orderer` is the state together with its history: everything emitted (`out`), every event
consumed (`log`), and a record of the places where the code sets `Prepared` or `Committed` or
accepts a NewView (`marks`). The history is only ever appended to, and no handler reads it.
-/

namespace Mir.Orderers

/-! ### Parameters -/

/-- `PBFTConfig`; durations in nanoseconds. -/
structure PBFTConfig where
  membership : List NodeID
  maxProposeDelay : ℤ
  doneResendPeriod : ℤ
  catchUpDelay : ℤ
  msgBufCapacity : ℕ
  viewChangeSNTimeout : ℤ
  viewChangeSegmentTimeout : ℤ
  viewChangeResendPeriod : ℤ
  epochNr : EpochNr

/-- `ModuleParams`, with the segment, which the code keeps in the state and never changes, and
the size of a serialized message. The factory takes the configured membership from the
segment. -/
structure ModuleParams where
  ownID : NodeID
  segment : Segment
  config : PBFTConfig
  protoSize : BufferedMsg → ℕ
  membership_eq : config.membership = segment.nodeIDs

/-! ### What an orderer emits and consumes -/

/-- The events an orderer sets timers for. -/
inductive TimerEvent
  | proposeTimeout (numProposals : UInt64)
  | viewChangeSNTimeout (view : ViewNr) (numCommitted : UInt64)
  | viewChangeSegTimeout (view : ViewNr)
  deriving DecidableEq, Repr

/-- The contexts of requests for one hash. -/
inductive HashOneContext
  | preprepare (pp : Preprepare)
  | catchUpResponse (pp : Preprepare)
  | missingPreprepare (pp : Preprepare)
  deriving DecidableEq, Repr

/-- The contexts of requests for several hashes. -/
inductive HashContext
  | emptyPreprepares (view : ViewNr)
  | newView (nv : NewView)
  deriving DecidableEq, Repr

/-- The events an orderer emits. Hash and signature requests carry, for each item, the
concatenation of its slices: all that hashing and signing read. -/
inductive Output
  | sendMessage (msg : Message) (dests : List NodeID)
  | timerDelay (delay : ℤ) (event : TimerEvent)
  | timerRepeat (period : ℤ) (retention : EpochNr) (msg : Message) (dests : List NodeID)
  | delayedTimerRepeat (delay : ℤ) (retention : EpochNr) (msgs : List Message)
      (dests : List NodeID)
  | validatePreprepare (pp : Preprepare) (sender : NodeID)
  | hashRequestOne (data : Bytes) (ctx : HashOneContext)
  | hashRequest (data : List Bytes) (ctx : HashContext)
  | signRequest (data : Bytes) (vc : ViewChange)
  | verifySig (data : Bytes) (signature : ByteSlice) (sender : NodeID) (svc : SignedViewChange)
  | verifySigs (data : List Bytes) (signatures : List ByteSlice) (senders : List NodeID)
      (nv : NewView)
  | requestCert
  | sbDeliver (sn : SeqNr) (data : Bytes) (aborted : Bool) (leader : NodeID)
  deriving DecidableEq

/-- The events an orderer consumes. -/
inductive Event
  | messageReceived (sender : NodeID) (msg : Message)
  | proposeTimeout (numProposals : UInt64)
  | viewChangeSNTimeout (view : ViewNr) (numCommitted : UInt64)
  | viewChangeSegTimeout (view : ViewNr)
  | newCert (cert : Bytes)
  | preprepareValidated (valid : Bool) (pp : Preprepare) (sender : NodeID)
  | hashResultOne (digest : Bytes) (ctx : HashOneContext)
  | hashResult (digests : List Bytes) (ctx : HashContext)
  | signResult (signature : ByteSlice) (vc : ViewChange)
  | sigVerified (sender : NodeID) (valid : Bool) (svc : SignedViewChange)
  | sigsVerified (senders : List NodeID) (allOk : Bool) (nv : NewView)
  deriving DecidableEq

/-- The places of the code a history remembers. -/
inductive Mark
  | prepared (view : ViewNr) (sn : SeqNr) (digest : ByteSlice)
  | committed (view : ViewNr) (sn : SeqNr) (digest : ByteSlice)
  | caughtUp (view : ViewNr) (sn : SeqNr) (digest : Bytes)
  | accepted (nv : NewView)
  deriving DecidableEq

/-! ### The state -/

/-- `PbftProposalState`. -/
structure PbftProposalState where
  proposalsMade : ℕ
  certRequested : Bool
  certRequestedView : ViewNr
  proposalTimeout : ℤ

/-- `common.State`. -/
structure State where
  messageBuffers : GoMap NodeID (MessageBuffer BufferedMsg)
  proposal : PbftProposalState
  slots : GoMap ViewNr (GoMap SeqNr PbftSlot)
  segmentCheckpoint : PbftSegmentChkp
  view : ViewNr
  inViewChange : Bool
  viewChangeStates : GoMap ViewNr PbftViewChangeState

/-- A state with its history. -/
structure Orderer where
  state : State
  out : List Output
  log : List Event
  marks : List Mark

namespace State

/-- The slots of a view; reading the map for a view that was never entered gives no slots. -/
def slotsOf (s : State) (view : ViewNr) : GoMap SeqNr PbftSlot := (s.slots.lookup view).getD ∅

/-- The slot of a sequence number in a view. -/
def slot? (s : State) (view : ViewNr) (sn : SeqNr) : Option PbftSlot := (s.slotsOf view).lookup sn

/-- Writing back a slot. The code updates slots in place through pointers. -/
def setSlot (s : State) (view : ViewNr) (sn : SeqNr) (slot : PbftSlot) : State :=
  { s with slots := s.slots.insert view ((s.slotsOf view).insert sn slot) }

/-- `NumCommitted`. -/
def numCommitted (s : State) (view : ViewNr) : ℕ :=
  ((s.slotsOf view).entries.filter fun entry => entry.2.committed).length

/-- `AllCommitted`. -/
def allCommitted (s : State) : Bool := s.numCommitted s.view == (s.slotsOf s.view).entries.length

/-- The loop of `LookUpPreprepare`, downwards from a view. -/
def lookUpPreprepareFrom (s : State) (sn : SeqNr) (digest : ByteSlice) : ℕ → Option Preprepare
  | 0 => (s.slot? 0 sn).bind fun slot => slot.getPreprepare digest
  | view + 1 =>
    match (s.slot? (UInt64.ofNat (view + 1)) sn).bind fun slot => slot.getPreprepare digest with
    | some preprepare => some preprepare
    | none => lookUpPreprepareFrom s sn digest view

/-- `LookUpPreprepare`. -/
def lookUpPreprepare (s : State) (sn : SeqNr) (digest : ByteSlice) : Option Preprepare :=
  s.lookUpPreprepareFrom sn digest s.view.toNat

theorem slotsOf_setSlot (s : State) (v v' : ViewNr) (sn : SeqNr) (slot : PbftSlot) :
    (s.setSlot v sn slot).slotsOf v' =
      if v' = v then (s.slotsOf v).insert sn slot else s.slotsOf v' := by
  rw [slotsOf, setSlot, GoMap.lookup_insert_eq]
  split <;> rfl

theorem slot?_setSlot (s : State) (v v' : ViewNr) (sn sn' : SeqNr) (slot : PbftSlot) :
    (s.setSlot v sn slot).slot? v' sn' =
      if v' = v ∧ sn' = sn then some slot else s.slot? v' sn' := by
  rw [slot?, slotsOf_setSlot]
  by_cases hv : v' = v
  · subst hv
    rw [if_pos rfl, GoMap.lookup_insert_eq]
    simp [slot?]
  · rw [if_neg hv, if_neg fun h => hv h.1]
    rfl

end State

namespace Orderer

/-- Emitting an event. -/
def emit (o : Orderer) (x : Output) : Orderer := { o with out := o.out ++ [x] }

/-- Recording a mark. -/
def mark (o : Orderer) (m : Mark) : Orderer := { o with marks := o.marks ++ [m] }

/-- Recording a mark and emitting an event, either of which may be absent. -/
def record (o : Orderer) : Option Mark → Option Output → Orderer
  | none, none => o
  | none, some x => o.emit x
  | some m, none => o.mark m
  | some m, some x => (o.mark m).emit x

/-- Replacing the state. -/
def withState (o : Orderer) (s : State) : Orderer := { o with state := s }

/-- Writing back a slot of the current view. -/
def setSlot (o : Orderer) (sn : SeqNr) (slot : PbftSlot) : Orderer :=
  o.withState (o.state.setSlot o.state.view sn slot)

/-- Replacing the segment checkpoint. -/
def setCheckpoint (o : Orderer) (chkp : PbftSegmentChkp) : Orderer :=
  o.withState { o.state with segmentCheckpoint := chkp }

/-- The slot of a sequence number in the current view. -/
def slot? (o : Orderer) (sn : SeqNr) : Option PbftSlot := o.state.slot? o.state.view sn

section Simp

variable (o : Orderer)

@[simp] theorem emit_state (x : Output) : (o.emit x).state = o.state := rfl

@[simp] theorem emit_out (x : Output) : (o.emit x).out = o.out ++ [x] := rfl

@[simp] theorem emit_log (x : Output) : (o.emit x).log = o.log := rfl

@[simp] theorem emit_marks (x : Output) : (o.emit x).marks = o.marks := rfl

@[simp] theorem mark_state (m : Mark) : (o.mark m).state = o.state := rfl

@[simp] theorem mark_out (m : Mark) : (o.mark m).out = o.out := rfl

@[simp] theorem mark_log (m : Mark) : (o.mark m).log = o.log := rfl

@[simp] theorem mark_marks (m : Mark) : (o.mark m).marks = o.marks ++ [m] := rfl

@[simp] theorem record_state (m : Option Mark) (x : Option Output) :
    (o.record m x).state = o.state := by
  cases m <;> cases x <;> rfl

@[simp] theorem record_out (m : Option Mark) (x : Option Output) :
    (o.record m x).out = o.out ++ x.toList := by
  cases m <;> cases x <;> simp [record, emit, mark]

@[simp] theorem record_log (m : Option Mark) (x : Option Output) :
    (o.record m x).log = o.log := by
  cases m <;> cases x <;> rfl

@[simp] theorem record_marks (m : Option Mark) (x : Option Output) :
    (o.record m x).marks = o.marks ++ m.toList := by
  cases m <;> cases x <;> simp [record, emit, mark]

@[simp] theorem withState_state (s : State) : (o.withState s).state = s := rfl

@[simp] theorem withState_out (s : State) : (o.withState s).out = o.out := rfl

@[simp] theorem withState_log (s : State) : (o.withState s).log = o.log := rfl

@[simp] theorem withState_marks (s : State) : (o.withState s).marks = o.marks := rfl

theorem slot?_setSlot (sn sn' : SeqNr) (slot : PbftSlot) :
    (o.setSlot sn slot).slot? sn' = if sn' = sn then some slot else o.slot? sn' := by
  have h := State.slot?_setSlot o.state o.state.view o.state.view sn sn' slot
  simp only [true_and] at h
  exact h

end Simp

end Orderer

/-! ### Starting a view -/

/-- `computeTimeout`: doubling with every view, in 64-bit signed arithmetic. -/
def computeTimeout (timeout : ℤ) (view : ViewNr) : ℤ :=
  if view < 64 then (BitVec.ofInt 64 (timeout * 2 ^ view.toNat)).toInt else 0

/-- The slot `InitView` creates for a sequence number: a fresh one, which after view zero takes
over what the slot of the current view has committed. -/
def initSlot (p : ModuleParams) (s : State) (view : ViewNr) (sn : SeqNr) : Fallible PbftSlot :=
  if 0 < view then do
    let prevSlot ← deref (s.slot? s.view sn)
    (PbftSlot.new p.segment.membership).populateFromPrevious prevSlot view
  else .ok (PbftSlot.new p.segment.membership)

/-- The loop of `InitView` over the sequence numbers of the segment. -/
def initSlots (p : ModuleParams) (s : State) (view : ViewNr) :
    List SeqNr → GoMap SeqNr PbftSlot → Fallible (GoMap SeqNr PbftSlot)
  | [], slots => .ok slots
  | sn :: sns, slots => do
    let slot ← initSlot p s view sn
    initSlots p s view sns (slots.insert sn slot)

/-- The timers `InitView` sets. -/
def setViewTimers (p : ModuleParams) (view : ViewNr) (numCommitted : ℕ) (o : Orderer) : Orderer :=
  (o.emit (.timerDelay (computeTimeout p.config.viewChangeSNTimeout view)
      (.viewChangeSNTimeout view (UInt64.ofNat numCommitted)))).emit
    (.timerDelay (computeTimeout p.config.viewChangeSegmentTimeout view)
      (.viewChangeSegTimeout view))

/-- `InitView`. The guard against starting a view twice leaves out view zero. -/
def initView (p : ModuleParams) (view : ViewNr) (o : Orderer) : Fallible Orderer :=
  if view < o.state.view then .error (.error .olderView)
  else if view ≠ 0 ∧ view = o.state.view then .ok o
  else do
    let slots ← initSlots p o.state view p.segment.seqNrs ∅
    let s := { o.state with slots := o.state.slots.insert view slots, view := view }
    return setViewTimers p view (s.numCommitted view) (o.withState s)

end Mir.Orderers
