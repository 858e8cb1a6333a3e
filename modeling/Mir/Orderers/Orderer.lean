import Mir.Orderers.ViewChange

/-!
# The orderer as a state machine

`NewOrdererModule`, the dispatch of events to handlers, and the runs of one node.

What surrounds the node is left open as far as possible. Messages of other nodes and timeouts
are arbitrary and arbitrarily often repeated, the validator may accept or refuse any proposal,
and results may arrive in any order, any number of times, or never. What a run does respect
(`Enabled`) is that a result belongs to a request the node made, that hashes are those of the
requested data, that signatures are reported as the crypto module finds them, and that a message
the node receives from itself is one it sent.
-/

namespace Mir.Orderers

/-! ### Creation -/

/-- `removeNodeID`. -/
def removeNodeID (membership : List NodeID) (nID : NodeID) : List NodeID :=
  membership.filter fun nodeID => nodeID ≠ nID

/-- The state `NewOrdererModule` creates. -/
def newState (p : ModuleParams) : State where
  messageBuffers := MessageBuffer.newBuffers (removeNodeID p.config.membership p.ownID)
    p.config.msgBufCapacity
  proposal := ⟨0, false, 0, 0⟩
  slots := ∅
  segmentCheckpoint := PbftSegmentChkp.new
  view := 0
  inViewChange := false
  viewChangeStates := ∅

/-- `NewOrdererModule` followed by the Init event. -/
def initOrderer (p : ModuleParams) : Fallible Orderer := do
  let o ← initView p 0 ⟨newState p, [], [], []⟩
  return o.emit (.timerDelay p.config.maxProposeDelay (.proposeTimeout 1))

/-! ### Dispatch -/

/-- The handler of a received message. Messages of non-members are ignored. -/
def applyMessage (p : ModuleParams) (sender : NodeID) (msg : Message) (o : Orderer) :
    Fallible Orderer :=
  if sender ∉ p.config.membership then .ok o
  else
    match msg with
    | .preprepare pp => .ok (applyMsgPreprepare pp sender o)
    | .prepare prepare => applyMsgPrepare p prepare sender o
    | .commit commit => applyMsgCommit p commit sender o
    | .done digests => applyMsgDone p digests sender o
    | .catchUpRequest digest sn => .ok (applyMsgCatchUpRequest digest sn sender o)
    | .catchUpResponse resp => .ok (applyMsgCatchUpResponse resp o)
    | .signedViewChange svc => .ok (applyMsgSignedViewChange svc sender o)
    | .preprepareRequest digest sn => .ok (applyMsgPreprepareRequest digest sn sender o)
    | .missingPreprepare pp => applyMsgMissingPreprepare pp o
    | .newView nv => applyMsgNewView p nv sender o

/-- The handler of an event. -/
def handle (ord : MapOrder) (p : ModuleParams) (o : Orderer) : Event → Fallible Orderer
  | .messageReceived sender msg => applyMessage p sender msg o
  | .proposeTimeout numProposals => applyProposeTimeout p numProposals.toInt64.toInt o
  | .viewChangeSNTimeout view numCommitted => applyViewChangeSNTimeout p view numCommitted o
  | .viewChangeSegTimeout view => applyViewChangeSegmentTimeout p view o
  | .newCert cert => uponNewCert p cert o
  | .preprepareValidated valid pp sender => applyMsgPreprepareValidated p valid pp sender o
  | .hashResultOne digest (.preprepare pp) => uponPreprepareHashed p digest pp o
  | .hashResultOne digest (.catchUpResponse pp) => uponCatchUpHashed p digest pp o
  | .hashResultOne digest (.missingPreprepare pp) => uponMissingPreprepareHashed p digest pp o
  | .hashResult digests (.emptyPreprepares view) => uponEmptyPreprepareHashes p digests view o
  | .hashResult digests (.newView nv) => uponNewViewHashed ord p digests nv o
  | .signResult signature vc => uponSignResult p signature vc o
  | .sigVerified sender valid svc => uponSigVerified ord p sender valid svc o
  | .sigsVerified senders allOk nv => .ok (uponSigsVerified p senders allOk nv o)

/-- One step of a node: the event is logged and handled. -/
def step (ord : MapOrder) (p : ModuleParams) (o : Orderer) (ev : Event) : Fallible Orderer :=
  handle ord p { o with log := o.log ++ [ev] } ev

/-! ### The environment -/

/-- The hasher and the signature verification of the crypto module, on concatenated data. -/
structure Env where
  hash : Bytes → Bytes
  verify : Bytes → ByteSlice → NodeID → Bool

/-- `VerifySigs` reports whether all signatures are valid. -/
def Env.verifyAll (env : Env) : List Bytes → List ByteSlice → List NodeID → Bool
  | data :: datas, sig :: sigs, id :: ids => env.verify data sig id && env.verifyAll datas sigs ids
  | _, _, _ => true

/-- The messages an emitted event sends, at once or by a timer. -/
def Output.messages : Output → List Message
  | .sendMessage msg _ => [msg]
  | .timerRepeat _ _ msg _ => [msg]
  | .delayedTimerRepeat _ _ msgs _ => msgs
  | _ => []

/-- The messages a node has sent. -/
def Orderer.sent (o : Orderer) : List Message := o.out.flatMap Output.messages

/-- The events a node may consume next. -/
def Enabled (env : Env) (p : ModuleParams) (o : Orderer) : Event → Prop
  | .messageReceived sender msg => sender = p.ownID → msg ∈ o.sent
  | .proposeTimeout _ => True
  | .viewChangeSNTimeout _ _ => True
  | .viewChangeSegTimeout _ => True
  | .newCert _ =>
    (o.log.filter fun ev => ev matches .newCert _).length <
      (o.out.filter fun x => x matches .requestCert).length
  | .preprepareValidated _ pp sender => .validatePreprepare pp sender ∈ o.out
  | .hashResultOne digest ctx => ∃ data, .hashRequestOne data ctx ∈ o.out ∧ digest = env.hash data
  | .hashResult digests ctx => ∃ data, .hashRequest data ctx ∈ o.out ∧ digests = data.map env.hash
  | .signResult signature vc =>
    ∃ data, .signRequest data vc ∈ o.out ∧ env.verify data signature p.ownID = true
  | .sigVerified sender valid svc =>
    ∃ data sig, .verifySig data sig sender svc ∈ o.out ∧ valid = env.verify data sig sender
  | .sigsVerified senders allOk nv =>
    ∃ data sigs, .verifySigs data sigs senders nv ∈ o.out ∧
      allOk = env.verifyAll data sigs senders

/-- A condition on the steps of a run: on the state before the step, the iteration orders and
the event. -/
abbrev StepCondition := Orderer → MapOrder → Event → Prop

/-- The states a node can reach by steps that meet a condition. -/
inductive Reachable (env : Env) (p : ModuleParams) (C : StepCondition) : Orderer → Prop
  | init {o : Orderer} (h : initOrderer p = .ok o) : Reachable env p C o
  | step {o o' : Orderer} {ord : MapOrder} {ev : Event} (hr : Reachable env p C o)
      (hen : Enabled env p o ev) (hC : C o ord ev) (hs : step ord p o ev = .ok o') :
      Reachable env p C o'

/-- The condition that every step meets. -/
def anyStep : StepCondition := fun _ _ _ => True

/-- One step of a run. -/
def StepTo (env : Env) (p : ModuleParams) (C : StepCondition) (o o' : Orderer) : Prop :=
  ∃ ord ev, Enabled env p o ev ∧ C o ord ev ∧ step ord p o ev = .ok o'

/-- The continuation of a run. -/
abbrev Steps (env : Env) (p : ModuleParams) (C : StepCondition) : Orderer → Orderer → Prop :=
  Relation.ReflTransGen (StepTo env p C)

theorem Reachable.steps {env : Env} {p : ModuleParams} {C : StepCondition} {o o' : Orderer}
    (h : Reachable env p C o) (hs : Steps env p C o o') : Reachable env p C o' := by
  induction hs with
  | refl => exact h
  | tail _ hstep ih =>
    obtain ⟨ord, ev, hen, hC, hs⟩ := hstep
    exact .step ih hen hC hs

/-- Runs under a stronger condition are runs under a weaker one. -/
theorem Reachable.mono {env : Env} {p : ModuleParams} {C C' : StepCondition}
    (hC : ∀ o ord ev, C o ord ev → C' o ord ev) {o : Orderer} (h : Reachable env p C o) :
    Reachable env p C' o := by
  induction h with
  | init h => exact .init h
  | step _ hen hc hs ih => exact .step ih hen (hC _ _ _ hc) hs

end Mir.Orderers
