import Mir.Trantor.Membership

/-!
# Byzantine consistent broadcast: the module

`bcb/bcbmodule.go`, the signed echo broadcast. The leader sends its request to all nodes in a Start
message. A node that receives it has it signed, and sends the signature to the leader in an Echo
message. From more than `(N+F)/2` signatures that verify, the leader makes a Final message, and a node
that verifies them all delivers the data.

A handler maps the state to the new state and the events it emits (`handle`); the handlers of a batch
of events run one after the other, and the conditional action of `UponStateUpdates` after all of them
(`Node.applyEvents`). `handle_spec` says once which event each emitted event needs.
-/

namespace Mir.Bcb

/-! ### Parameters, state and events -/

/-- `bcb.ModuleParams`. -/
structure ModuleParams where
  instanceUID : Bytes
  allNodes : List NodeID
  leader : NodeID

/-- `GetN`: the total number of nodes. -/
def ModuleParams.getN (p : ModuleParams) : ℕ := p.allNodes.length

/-- `GetF`: the maximum tolerated number of faulty nodes. -/
def ModuleParams.getF (p : ModuleParams) : ℕ := (p.getN - 1) / 3

/-- The number of signatures that a certificate has to exceed. -/
def ModuleParams.threshold (p : ModuleParams) : ℕ := (p.getN + p.getF) / 2

/-- What a node signs to echo the data: the instance, the text `ECHO` and the data. -/
def ModuleParams.signedData (p : ModuleParams) (data : Bytes) : List Bytes :=
  [p.instanceUID, [69, 67, 72, 79], data]

/-- `bcbModuleState`. -/
structure State where
  request : ByteSlice
  sentEcho : Bool
  sentFinal : Bool
  delivered : Bool
  receivedEcho : GoMap NodeID Bool
  echoSigs : GoMap NodeID Bytes

/-- The state `NewModule` starts with. -/
def State.new : State := ⟨none, false, false, false, ∅, ∅⟩

/-- The messages of `bcbpb`. -/
inductive Message
  | start (data : Bytes)
  | echo (signature : Bytes)
  | final (data : Bytes) (signers : List NodeID) (signatures : List Bytes)
  deriving DecidableEq

/-- The events the module consumes. The result of a signature request names the data it was requested
for, which the module does not look at; the results of verifications name the context. -/
inductive Event
  | broadcastRequest (data : ByteSlice)
  | messageReceived (sender : NodeID) (msg : Message)
  | signResult (origin : List Bytes) (signature : Bytes)
  | sigVerified (node : NodeID) (valid : Bool) (signature : Bytes)
  | sigsVerified (allOK : Bool) (data : Bytes)
  deriving DecidableEq

/-- The events the module emits. -/
inductive Output
  | sendMessage (msg : Message) (destinations : List NodeID)
  | signRequest (data : List Bytes)
  | verifySig (data : List Bytes) (signature : Bytes) (node : NodeID)
  | verifySigs (data : List (List Bytes)) (signatures : List Bytes) (nodes : List NodeID)
      (context : Bytes)
  | deliver (data : Bytes)
  deriving DecidableEq

/-- The data that an event delivers. -/
def Output.delivered : Output → Option Bytes
  | .deliver data => some data
  | _ => none

/-- The error that the module returns: only the leader node can receive requests. -/
inductive Error
  | onlyLeaderReceivesRequests

/-! ### Handlers -/

/-- `UponBroadcastRequest`. -/
def uponBroadcastRequest (p : ModuleParams) (self : NodeID) (s : State) (data : ByteSlice) :
    Except Error (State × List Output) :=
  if self ≠ p.leader then .error .onlyLeaderReceivesRequests
  else .ok ({ s with request := data }, [.sendMessage (.start data.bytes) p.allNodes])

/-- `UponStartMessageReceived`. -/
def uponStartMessageReceived (p : ModuleParams) (s : State) (sender : NodeID) (data : Bytes) :
    State × List Output :=
  if sender = p.leader ∧ s.sentEcho = false then (s, [.signRequest (p.signedData data)]) else (s, [])

/-- `UponSignResult`. -/
def uponSignResult (p : ModuleParams) (s : State) (signature : Bytes) : State × List Output :=
  if s.sentEcho = false then
    ({ s with sentEcho := true }, [.sendMessage (.echo signature) [p.leader]])
  else (s, [])

/-- `UponEchoMessageReceived`. -/
def uponEchoMessageReceived (p : ModuleParams) (self : NodeID) (s : State) (sender : NodeID)
    (signature : Bytes) : State × List Output :=
  if self = p.leader ∧ (s.receivedEcho.lookup sender).getD false = false ∧ s.request.isSome then
    ({ s with receivedEcho := s.receivedEcho.insert sender true },
      [.verifySig (p.signedData s.request.bytes) signature sender])
  else (s, [])

/-- `UponSigVerified`. -/
def uponSigVerified (s : State) (node : NodeID) (valid : Bool) (signature : Bytes) :
    State × List Output :=
  if valid then ({ s with echoSigs := s.echoSigs.insert node signature }, []) else (s, [])

/-- `UponFinalMessageReceived`. -/
def uponFinalMessageReceived (p : ModuleParams) (s : State) (data : Bytes) (signers : List NodeID)
    (signatures : List Bytes) : State × List Output :=
  if signers.length = signatures.length ∧ p.threshold < signers.length ∧ s.delivered = false then
    (s, [.verifySigs (List.replicate signers.length (p.signedData data)) signatures signers data])
  else (s, [])

/-- `UponSigsVerified`. -/
def uponSigsVerified (s : State) (allOK : Bool) (data : Bytes) : State × List Output :=
  if allOK ∧ s.delivered = false then ({ s with delivered := true }, [.deliver data]) else (s, [])

/-- The handler of an event. -/
def handle (p : ModuleParams) (self : NodeID) (s : State) : Event → Except Error (State × List Output)
  | .broadcastRequest data => uponBroadcastRequest p self s data
  | .messageReceived sender (.start data) => .ok (uponStartMessageReceived p s sender data)
  | .messageReceived sender (.echo signature) =>
    .ok (uponEchoMessageReceived p self s sender signature)
  | .messageReceived _ (.final data signers signatures) =>
    .ok (uponFinalMessageReceived p s data signers signatures)
  | .signResult _ signature => .ok (uponSignResult p s signature)
  | .sigVerified node valid signature => .ok (uponSigVerified s node valid signature)
  | .sigsVerified allOK data => .ok (uponSigsVerified s allOK data)

/-- An order in which the signatures are visited. -/
structure SigOrder where
  sigs : List (NodeID × Bytes) → List (NodeID × Bytes)
  perm : ∀ l, (sigs l).Perm l

/-- `UponStateUpdates`: send the certificate once there are enough signatures. -/
def uponStateUpdates (p : ModuleParams) (order : SigOrder) (s : State) : State × List Output :=
  if p.threshold < s.echoSigs.keys.length ∧ s.sentFinal = false then
    let sigs := order.sigs s.echoSigs.pairs
    ({ s with sentFinal := true },
      [.sendMessage (.final s.request.bytes (sigs.map Prod.fst) (sigs.map Prod.snd)) p.allNodes])
  else (s, [])

/-! ### Batches -/

/-- A node: the state of its module and the events emitted and processed so far. `echoed` keeps what the
signatures that it has sent in Echo messages were requested for. -/
structure Node where
  state : State
  out : List Output
  log : List Event
  echoed : List (List Bytes)

namespace Node

/-- A node before its first event. -/
def new : Node := ⟨.new, [], [], []⟩

/-- What the signature that the handler sends out was requested for. -/
def released (s : State) : Event → List (List Bytes)
  | .signResult origin _ => if s.sentEcho = false then [origin] else []
  | _ => []

/-- Process one event. -/
def process (p : ModuleParams) (self : NodeID) (n : Node) (event : Event) : Except Error Node := do
  let (s, outs) ← handle p self n.state event
  return ⟨s, n.out ++ outs, n.log ++ [event], n.echoed ++ released n.state event⟩

/-- Run the conditional action. -/
def update (p : ModuleParams) (order : SigOrder) (n : Node) : Node :=
  { n with
    state := (uponStateUpdates p order n.state).1
    out := n.out ++ (uponStateUpdates p order n.state).2 }

/-- `ApplyEvents`. -/
def applyEvents (p : ModuleParams) (order : SigOrder) (self : NodeID) (n : Node)
    (events : List Event) : Except Error Node := do
  let n ← events.foldlM (process p self) n
  return n.update p order

/-- The data that the node has delivered, in order. -/
def deliveries (n : Node) : List Bytes := n.out.filterMap Output.delivered

theorem mem_deliveries {n : Node} {data : Bytes} : data ∈ n.deliveries ↔ .deliver data ∈ n.out := by
  rw [deliveries, List.mem_filterMap]
  refine ⟨?_, fun h => ⟨_, h, rfl⟩⟩
  rintro ⟨x, hx, hdata⟩
  cases x with
  | deliver data' =>
    cases hdata
    exact hx
  | _ => cases hdata

end Node

/-! ### What a handler does -/

/-- What the handler of an event has to find for it to emit an event. -/
def Justified (p : ModuleParams) (self : NodeID) (s : State) (event : Event) : Output → Prop
  | .sendMessage (.start data) _ =>
    self = p.leader ∧ ∃ request, event = .broadcastRequest request ∧ data = request.bytes
  | .sendMessage (.echo signature) destinations =>
    destinations = [p.leader] ∧ s.sentEcho = false ∧ ∃ origin, event = .signResult origin signature
  | .sendMessage (.final ..) _ => False
  | .signRequest data =>
    ∃ content, event = .messageReceived p.leader (.start content) ∧ data = p.signedData content
  | .verifySig _ signature node => event = .messageReceived node (.echo signature)
  | .verifySigs data signatures nodes context =>
    (∃ sender, event = .messageReceived sender (.final context nodes signatures)) ∧
      nodes.length = signatures.length ∧ p.threshold < nodes.length ∧
      data = List.replicate nodes.length (p.signedData context)
  | .deliver data => event = .sigsVerified true data ∧ s.delivered = false

/-- The emitted events are justified. The flags are only ever set, and in the steps that send the
echo and deliver. -/
structure Effect (p : ModuleParams) (i : NodeID) (s : State) (event : Event) (s' : State)
    (outs : List Output) : Prop where
  justified : ∀ x ∈ outs, Justified p i s event x
  sentEcho : s'.sentEcho.toNat = s.sentEcho.toNat + (Node.released s event).length
  delivered : s'.delivered.toNat = s.delivered.toNat + (outs.filterMap Output.delivered).length

variable {p : ModuleParams} {self : NodeID} {s s' : State} {event : Event} {outs : List Output}

/-- A handler that changes neither flag, and emits no event or one that delivers nothing. -/
theorem Effect.quiet (hecho : s'.sentEcho = s.sentEcho) (hdelivered : s'.delivered = s.delivered)
    (hreleased : Node.released s event = []) (hnone : outs.filterMap Output.delivered = [])
    (hjustified : ∀ x ∈ outs, Justified p self s event x) : Effect p self s event s' outs := by
  refine ⟨hjustified, ?_, ?_⟩
  · rw [hreleased, hecho, List.length_nil, Nat.add_zero]
  · rw [hnone, hdelivered, List.length_nil, Nat.add_zero]

/-- **What a handler does.** -/
theorem handle_spec (h : handle p self s event = .ok (s', outs)) : Effect p self s event s' outs := by
  cases event with
  | broadcastRequest data =>
    rw [handle, uponBroadcastRequest] at h
    split at h
    · cases h
    · rename_i hleader
      cases h
      refine .quiet rfl rfl rfl rfl fun x hx => ?_
      rw [List.mem_singleton.mp hx]
      exact ⟨not_not.mp hleader, data, rfl, rfl⟩
  | messageReceived sender msg =>
    cases msg with
    | start data =>
      rw [handle, uponStartMessageReceived] at h
      split at h
      · rename_i hguard
        cases h
        refine .quiet rfl rfl rfl rfl fun x hx => ?_
        rw [List.mem_singleton.mp hx]
        exact ⟨data, by rw [hguard.1], rfl⟩
      · cases h
        exact .quiet rfl rfl rfl rfl nofun
    | echo signature =>
      rw [handle, uponEchoMessageReceived] at h
      split at h
      · cases h
        refine .quiet rfl rfl rfl rfl fun x hx => ?_
        rw [List.mem_singleton.mp hx]
        rfl
      · cases h
        exact .quiet rfl rfl rfl rfl nofun
    | final data signers signatures =>
      rw [handle, uponFinalMessageReceived] at h
      split at h
      · rename_i hguard
        cases h
        refine .quiet rfl rfl rfl rfl fun x hx => ?_
        rw [List.mem_singleton.mp hx]
        exact ⟨⟨sender, rfl⟩, hguard.1, hguard.2.1, rfl⟩
      · cases h
        exact .quiet rfl rfl rfl rfl nofun
  | signResult origin signature =>
    rw [handle, uponSignResult] at h
    split at h
    · rename_i hecho
      cases h
      refine ⟨fun x hx => ?_, ?_, rfl⟩
      · rw [List.mem_singleton.mp hx]
        exact ⟨rfl, hecho, origin, rfl⟩
      · rw [Node.released, if_pos hecho, hecho]
        rfl
    · rename_i hecho
      cases h
      refine .quiet rfl rfl ?_ rfl nofun
      rw [Node.released, if_neg hecho]
  | sigVerified node valid signature =>
    rw [handle, uponSigVerified] at h
    split at h
    all_goals
      cases h
      exact .quiet rfl rfl rfl rfl nofun
  | sigsVerified allOK data =>
    rw [handle, uponSigsVerified] at h
    split at h
    · rename_i hguard
      cases h
      refine ⟨fun x hx => ?_, rfl, ?_⟩
      · rw [List.mem_singleton.mp hx]
        exact ⟨by rw [hguard.1], hguard.2⟩
      · rw [hguard.2]
        rfl
    · cases h
      exact .quiet rfl rfl rfl rfl nofun

/-- The conditional action changes no flag that the broadcast depends on, and sends only Final
messages. -/
theorem uponStateUpdates_spec (p : ModuleParams) (order : SigOrder) (s : State) :
    (uponStateUpdates p order s).1.sentEcho = s.sentEcho ∧
      (uponStateUpdates p order s).1.delivered = s.delivered ∧
      ∀ x ∈ (uponStateUpdates p order s).2, ∃ data signers signatures,
        x = .sendMessage (.final data signers signatures) p.allNodes := by
  rw [uponStateUpdates]
  split
  · refine ⟨rfl, rfl, fun x hx => ?_⟩
    exact ⟨_, _, _, List.mem_singleton.mp hx⟩
  · exact ⟨rfl, rfl, nofun⟩

end Mir.Bcb
