import Mir.Events.Types

/-!
# The gRPC transport: sending

`Transport.ApplyEvents` sends the messages of standard and protobuf `SendMessage` events. For every
destination it makes one attempt: a message to the own node is looped back, and a message to another
node is handed to the connection to it. Connections come and go and their buffers are drained
concurrently, so what an attempt finds is left open (`Link`). Logging and the numbers given to the
statistics are left out.

The loop returns as soon as it has processed a protobuf event, so the events behind it in the list are
not processed at all: `second_event_ignored`. It also returns an error if a payload cannot be serialized
and statistics are collected. These are the only exceptions: `processes_all_iff`.
-/

namespace Mir.Net

open Events

/-- The type of a `GrpcMessage`. -/
inductive GrpcType
  | pbMsg (msg : PbMessage)
  | rawMsg (destModule : ModuleID) (data : Bytes)
  deriving DecidableEq

/-- `GrpcMessage`; the type may be absent. -/
structure GrpcMessage where
  sender : Bytes
  type : Option GrpcType
  deriving DecidableEq

/-- `Transport`, as far as sending reads it: the own identifier, and whether statistics are
collected. -/
structure Transport where
  ownID : NodeID
  stats : Bool

/-- What an attempt finds: no connection to the node, one whose buffer is full, or one that accepts the
message. -/
inductive Link
  | missing
  | full
  | ready
  deriving DecidableEq

/-- The reasons why a message is not sent. -/
inductive SendError
  | noConnection (nodeID : NodeID)
  | serialization
  | bufferFull
  deriving DecidableEq

/-- `getConnection` and `connection.Send`. -/
def Link.send (link : Link) (destNode : NodeID) (msg : Except SendError GrpcMessage) :
    Except SendError GrpcMessage :=
  match link with
  | .missing => .error (.noConnection destNode)
  | .full => do
    let _ ← msg
    .error .bufferFull
  | .ready => msg

/-- `SendPbMessage`. -/
def sendPbMessage (tr : Transport) (link : Link) (destNode : NodeID) (msg : PbMessage) :
    Except SendError GrpcMessage :=
  link.send destNode (.ok ⟨tr.ownID, some (.pbMsg msg)⟩)

/-- `SendRawMessage`. The message is serialized once there is a connection. -/
def sendRawMessage (tr : Transport) (link : Link) (destNode : NodeID) (destModule : ModuleID)
    (message : Message) : Except SendError GrpcMessage :=
  link.send destNode <|
    match message.toBytes with
    | some msgData => .ok ⟨tr.ownID, some (.rawMsg destModule msgData)⟩
    | none => .error .serialization

/-- What becomes of an attempt: the message is looped back as an event, it is handed to the connection,
or it is dropped. -/
inductive Outcome
  | loopback (event : Event)
  | sent (msg : GrpcMessage)
  | dropped (err : SendError)
  deriving DecidableEq

/-- An attempt to send the message of an event to a node. -/
structure Attempt where
  event : Event
  dest : NodeID
  outcome : Outcome
  deriving DecidableEq

/-- The outcome of sending to another node. -/
def Outcome.ofSend : Except SendError GrpcMessage → Outcome
  | .ok msg => .sent msg
  | .error err => .dropped err

/-- The attempts so far, and what is returned. -/
abbrev Applied := List Attempt × Except ApplyError Unit

/-- The loop over the destinations of a standard `SendMessage` event. When statistics are collected, the
message of a failed attempt is serialized for them. -/
def sendStd (tr : Transport) (net : ℕ → NodeID → Link) (event : Event)
    (remoteDestModule : ModuleID) (payload : Message) : List Attempt → List NodeID → Applied
  | acc, [] => (acc, .ok ())
  | acc, destID :: destNodes =>
    if destID = tr.ownID then
      sendStd tr net event remoteDestModule payload
        (acc ++ [⟨event, destID,
          .loopback (.std remoteDestModule (.messageReceived tr.ownID payload))⟩]) destNodes
    else
      let result := sendRawMessage tr (net acc.length destID) destID remoteDestModule payload
      let acc := acc ++ [⟨event, destID, .ofSend result⟩]
      match result with
      | .ok _ => sendStd tr net event remoteDestModule payload acc destNodes
      | .error _ =>
        if tr.stats ∧ payload.toBytes = none then (acc, .error .serialization)
        else sendStd tr net event remoteDestModule payload acc destNodes

/-- The loop over the destinations of a protobuf `SendMessage` event. -/
def sendPb (tr : Transport) (net : ℕ → NodeID → Link) (event : Event) (msg : PbMessage) :
    List Attempt → List NodeID → List Attempt
  | acc, [] => acc
  | acc, destID :: destinations =>
    let outcome : Outcome :=
      if destID = tr.ownID then
        .loopback (.pb msg.destModule (.transport (.messageReceived tr.ownID msg)))
      else .ofSend (sendPbMessage tr (net acc.length destID) destID msg)
    sendPb tr net event msg (acc ++ [⟨event, destID, outcome⟩]) destinations

/-- `ApplyPbEvent`. -/
def applyPbEvent (tr : Transport) (net : ℕ → NodeID → Link) (acc : List Attempt) (event : Event) :
    PbType → Applied
  | .transport (.sendMessage msg destinations) =>
    (sendPb tr net event msg acc destinations, .ok ())
  | _ => (acc, .error (.unexpected event))

/-- `ApplyEvents`. The case of a protobuf event ends the loop. -/
def applyEvents (tr : Transport) (net : ℕ → NodeID → Link) : List Attempt → List Event → Applied
  | acc, [] => (acc, .ok ())
  | acc, .std _ .init :: events => applyEvents tr net acc events
  | acc, .std dest (.sendMessage destNodes remoteDestModule payload) :: events =>
    let event := .std dest (.sendMessage destNodes remoteDestModule payload)
    match sendStd tr net event remoteDestModule payload acc destNodes with
    | (acc, .ok _) => applyEvents tr net acc events
    | (acc, .error err) => (acc, .error err)
  | acc, .pb dest type :: _ => applyPbEvent tr net acc (.pb dest type) type
  | acc, .std dest event :: _ => (acc, .error (.unexpected (.std dest event)))

/-! ### What is to be attempted -/

/-- The events that ask the transport to send, and `Init`. -/
def IsSend : Event → Prop
  | .std _ .init | .std _ (.sendMessage ..) | .pb _ (.transport (.sendMessage ..)) => True
  | _ => False

/-- The destinations of an event. -/
def destinations : Event → List NodeID
  | .std _ (.sendMessage destNodes _ _) => destNodes
  | .pb _ (.transport (.sendMessage _ destinations)) => destinations
  | _ => []

/-- The outcome of sending the message of an event to a node. -/
def outcome (tr : Transport) (link : Link) (event : Event) (dest : NodeID) : Outcome :=
  match event with
  | .std _ (.sendMessage _ remoteDestModule payload) =>
    if dest = tr.ownID then
      .loopback (.std remoteDestModule (.messageReceived tr.ownID payload))
    else .ofSend (sendRawMessage tr link dest remoteDestModule payload)
  | .pb _ (.transport (.sendMessage msg _)) =>
    if dest = tr.ownID then
      .loopback (.pb msg.destModule (.transport (.messageReceived tr.ownID msg)))
    else .ofSend (sendPbMessage tr link dest msg)
  | _ => .dropped .serialization

/-- One attempt for each event and destination, in order, from a given number of attempts on. -/
def attempts (tr : Transport) (net : ℕ → NodeID → Link) : ℕ → List (Event × NodeID) → List Attempt
  | _, [] => []
  | k, (event, dest) :: sends =>
    ⟨event, dest, outcome tr (net k dest) event dest⟩ :: attempts tr net (k + 1) sends

/-- The pairs of events and destinations of a list. -/
def sends (events : List Event) : List (Event × NodeID) :=
  events.flatMap fun event => (destinations event).map (Prod.mk event)

/-- One send is attempted for each event of the list and each of its destinations, in order, and no
error is returned. -/
def ProcessesAll (tr : Transport) (net : ℕ → NodeID → Link) (events : List Event) : Prop :=
  applyEvents tr net [] events = (attempts tr net 0 (sends events), .ok ())

/-- The event is a protobuf event. -/
def IsPb : Event → Prop
  | .pb .. => True
  | _ => False

/-- The payload of a standard event can be serialized. -/
def Serializable : Event → Prop
  | .std _ (.sendMessage _ _ payload) => payload.toBytes ≠ none
  | _ => True

/-- No error is returned for the event: if statistics are collected and it has a destination other than
the own node, its payload can be serialized. -/
def Accepted (tr : Transport) (event : Event) : Prop :=
  tr.stats = true → (∃ dest ∈ destinations event, dest ≠ tr.ownID) → Serializable event

section Loops

variable {tr : Transport} {net : ℕ → NodeID → Link}

theorem attempts_append (k : ℕ) (l l' : List (Event × NodeID)) :
    attempts tr net k (l ++ l') = attempts tr net k l ++ attempts tr net (k + l.length) l' := by
  induction l generalizing k with
  | nil => rfl
  | cons send l ih =>
    rw [List.cons_append, attempts, attempts, ih, List.cons_append, List.length_cons]
    simp only [Nat.add_comm, Nat.add_left_comm]

theorem length_attempts (k : ℕ) (l : List (Event × NodeID)) :
    (attempts tr net k l).length = l.length := by
  induction l generalizing k with
  | nil => rfl
  | cons send l ih => rw [attempts, List.length_cons, List.length_cons, ih]

/-- One more attempt, in front of the others that the loop makes. -/
theorem append_attempts_cons {acc : List Attempt} {a : Attempt}
    (h : a.outcome = outcome tr (net acc.length a.dest) a.event a.dest)
    (l : List (Event × NodeID)) :
    acc ++ [a] ++ attempts tr net (acc ++ [a]).length l =
      acc ++ attempts tr net acc.length ((a.event, a.dest) :: l) := by
  rw [attempts, ← h, List.append_assoc, List.length_append]
  rfl

/-- A protobuf event is sent to all destinations. -/
theorem sendPb_eq (acc : List Attempt) (dest : ModuleID) (msg : PbMessage) (all ds : List NodeID) :
    sendPb tr net (.pb dest (.transport (.sendMessage msg all))) msg acc ds =
      acc ++ attempts tr net acc.length
        (ds.map (Prod.mk (.pb dest (.transport (.sendMessage msg all))))) := by
  induction ds generalizing acc with
  | nil => exact (List.append_nil acc).symm
  | cons d ds ih =>
    rw [sendPb, ih]
    exact append_attempts_cons rfl _

/-- A message that cannot be serialized is never sent. -/
theorem sendRawMessage_eq_error {payload : Message} (h : payload.toBytes = none) (link : Link)
    (destNode : NodeID) (destModule : ModuleID) :
    ∃ err, sendRawMessage tr link destNode destModule payload = .error err := by
  rw [sendRawMessage, h]
  cases link with
  | missing => exact ⟨_, rfl⟩
  | full => exact ⟨_, rfl⟩
  | ready => exact ⟨_, rfl⟩

section SendStd

variable (acc : List Attempt) (dest remoteDestModule : ModuleID) (payload : Message)
  (all ds : List NodeID)

/-- A standard event whose message causes no error is sent to all destinations. -/
theorem sendStd_eq_ok
    (h : tr.stats = true → (∃ d ∈ ds, d ≠ tr.ownID) → payload.toBytes ≠ none) :
    sendStd tr net (.std dest (.sendMessage all remoteDestModule payload)) remoteDestModule payload
        acc ds =
      (acc ++ attempts tr net acc.length
        (ds.map (Prod.mk (.std dest (.sendMessage all remoteDestModule payload)))), .ok ()) := by
  induction ds generalizing acc with
  | nil => rw [sendStd, List.map_nil, attempts, List.append_nil]
  | cons d ds ih =>
    have htail := fun acc => ih acc fun hstats ⟨d', hd', hne⟩ =>
      h hstats ⟨d', List.mem_cons_of_mem _ hd', hne⟩
    rw [sendStd]
    by_cases hown : d = tr.ownID
    · rw [if_pos hown, htail]
      exact Prod.ext (append_attempts_cons (if_pos hown).symm _) rfl
    · have hcontinue : ¬ (tr.stats = true ∧ payload.toBytes = none) := fun hblock =>
        h hblock.1 ⟨d, List.mem_cons_self, hown⟩ hblock.2
      rw [if_neg hown]
      -- the loop goes on whether or not the attempt succeeds
      simp only [htail, if_neg hcontinue]
      split <;> exact Prod.ext (append_attempts_cons (if_neg hown).symm _) rfl

/-- A standard event whose message cannot be serialized ends the loop if statistics are collected. -/
theorem sendStd_eq_error (hstats : tr.stats = true) (hremote : ∃ d ∈ ds, d ≠ tr.ownID)
    (hpayload : payload.toBytes = none) (event : Event) :
    ∃ acc', sendStd tr net event remoteDestModule payload acc ds =
      (acc', .error .serialization) := by
  induction ds generalizing acc with
  | nil =>
    obtain ⟨d, hd, -⟩ := hremote
    cases hd
  | cons d ds ih =>
    rw [sendStd]
    by_cases hown : d = tr.ownID
    · rw [if_pos hown]
      obtain ⟨d', hd', hne⟩ := hremote
      refine ih _ ⟨d', ?_, hne⟩
      exact (List.mem_cons.mp hd').resolve_left fun heq => hne (heq.trans hown)
    · have hsend : ∃ err, sendRawMessage tr (net acc.length d) d remoteDestModule payload =
          .error err := sendRawMessage_eq_error hpayload _ _ _
      obtain ⟨err, herr⟩ := hsend
      rw [if_neg hown]
      simp only [herr, if_pos (And.intro hstats hpayload)]
      exact ⟨_, rfl⟩

end SendStd

/-! ### Whole lists -/

theorem sends_cons (event : Event) (events : List Event) :
    sends (event :: events) = (destinations event).map (Prod.mk event) ++ sends events :=
  List.flatMap_cons

theorem sends_eq_nil_iff {events : List Event} :
    sends events = [] ↔ ∀ event ∈ events, destinations event = [] := by
  rw [sends, List.flatMap_eq_nil_iff]
  exact forall₂_congr fun event _ => List.map_eq_nil_iff

/-- The attempts for an event, and those for the rest of the list. -/
theorem append_attempts_sends (acc : List Attempt) (event : Event) (events : List Event) :
    let acc' := acc ++ attempts tr net acc.length ((destinations event).map (Prod.mk event))
    acc' ++ attempts tr net acc'.length (sends events) =
      acc ++ attempts tr net acc.length (sends (event :: events)) := by
  intro acc'
  rw [sends_cons, attempts_append, List.append_assoc, List.length_append, length_attempts]

/-- The condition under which a list is processed, for a longer list. -/
theorem pairwise_and_accepted_cons {event : Event} {events : List Event} :
    ((event :: events).Pairwise fun e e' => IsPb e → destinations e' = []) ∧
        (∀ e ∈ event :: events, Accepted tr e) ↔
      ((IsPb event → sends events = []) ∧ Accepted tr event) ∧
        (events.Pairwise fun e e' => IsPb e → destinations e' = []) ∧
          ∀ e ∈ events, Accepted tr e := by
  rw [List.pairwise_cons, List.forall_mem_cons, sends_eq_nil_iff]
  constructor
  · rintro ⟨⟨hafter, hpairwise⟩, haccepted, hall⟩
    exact ⟨⟨fun hpb e he => hafter e he hpb, haccepted⟩, hpairwise, hall⟩
  · rintro ⟨⟨hafter, haccepted⟩, hpairwise, hall⟩
    exact ⟨⟨fun e he hpb => hafter hpb e he, hpairwise⟩, haccepted, hall⟩

/-- The loop, from any attempts on. -/
theorem applyEvents_eq_iff {events : List Event} (hsend : ∀ event ∈ events, IsSend event)
    (acc : List Attempt) :
    applyEvents tr net acc events = (acc ++ attempts tr net acc.length (sends events), .ok ()) ↔
      (events.Pairwise fun e e' => IsPb e → destinations e' = []) ∧
        ∀ event ∈ events, Accepted tr event := by
  induction events generalizing acc with
  | nil => simp [applyEvents, sends, attempts]
  | cons event events ih =>
    obtain ⟨hevent, hevents⟩ := List.forall_mem_cons.mp hsend
    rw [pairwise_and_accepted_cons]
    match event, hevent with
    | .std dest .init, _ =>
      have haccepted : Accepted tr (.std dest .init) := fun _ _ => trivial
      rw [applyEvents, and_iff_right ⟨nofun, haccepted⟩]
      exact ih hevents acc
    | .std dest (.sendMessage destNodes remoteDestModule payload), _ =>
      rw [applyEvents]
      by_cases haccepted : Accepted tr (.std dest (.sendMessage destNodes remoteDestModule payload))
      · rw [sendStd_eq_ok acc dest remoteDestModule payload destNodes destNodes haccepted,
          and_iff_right ⟨nofun, haccepted⟩]
        change applyEvents tr net _ events = _ ↔ _
        rw [← ih hevents, ← append_attempts_sends]
        rfl
      · have hblocked := haccepted
        rw [Accepted] at hblocked
        push Not at hblocked
        obtain ⟨hstats, hremote, hpayload⟩ := hblocked
        have herror : ∃ acc', sendStd tr net
            (.std dest (.sendMessage destNodes remoteDestModule payload)) remoteDestModule payload
            acc destNodes = (acc', .error .serialization) :=
          sendStd_eq_error acc remoteDestModule payload destNodes hstats hremote
            (not_not.mp hpayload) _
        obtain ⟨acc', hacc'⟩ := herror
        rw [hacc']
        refine iff_of_false (fun h => ?_) fun h => haccepted h.1.2
        cases congrArg Prod.snd h
    | .pb dest (.transport (.sendMessage msg ds)), _ =>
      have haccepted : Accepted tr (.pb dest (.transport (.sendMessage msg ds))) :=
        fun _ _ => trivial
      rw [applyEvents, applyPbEvent, sendPb_eq]
      constructor
      · intro h
        -- there are as many attempts as if the rest of the list had no destinations
        have hlen := congrArg (fun r : Applied => r.1.length) h
        simp only [sends_cons, List.length_append, length_attempts] at hlen
        have hnil : sends events = [] := List.length_eq_zero_iff.mp (by
          change _ + _ = _ + (_ + _) at hlen
          simp only [destinations] at hlen
          omega)
        have hnone := sends_eq_nil_iff.mp hnil
        refine ⟨⟨fun _ => hnil, haccepted⟩, ?_, fun e he _ => ?_⟩
        · exact List.pairwise_of_forall_mem_list fun _ _ e' he' _ => hnone e' he'
        · rintro ⟨d, hd, -⟩
          rw [hnone e he] at hd
          cases hd
      · rintro ⟨⟨hafter, -⟩, -⟩
        rw [sends_cons, hafter trivial, List.append_nil]
        rfl

end Loops

/-- **The transport attempts every send**, and returns no error, if and only if no event behind a
protobuf event has a destination, and every payload that is to be sent to another node can be
serialized or no statistics are collected. -/
theorem processes_all_iff (tr : Transport) (net : ℕ → NodeID → Link) (events : List Event)
    (hsend : ∀ event ∈ events, IsSend event) :
    ProcessesAll tr net events ↔
      (events.Pairwise fun e e' => IsPb e → destinations e' = []) ∧
        ∀ event ∈ events, Accepted tr event :=
  applyEvents_eq_iff hsend []

/-- Two raw messages and, last, a protobuf message, each to several nodes: the own node, one without a
connection, and one with a connection. -/
theorem mixed_events_processed :
    ProcessesAll ⟨[1], true⟩ (fun _ dest => if dest = [2] then .missing else .ready)
      [.std [110] .init, .std [110] (.sendMessage [[1], [2], [3]] [97] (rawMessage [5])),
        .std [110] (.sendMessage [[3], [1]] [98] (rawMessage [6])),
        .pb [110] (.transport (.sendMessage ⟨[97], none⟩ [[2], [3], [1]]))] :=
  (processes_all_iff _ _ _ (by simp [IsSend])).mpr
    ⟨by simp [IsPb], by simp [Accepted, Serializable, rawMessage]⟩

/-- Of two protobuf events in one list, only the first one is sent. -/
theorem second_event_ignored : ¬ ∀ (tr : Transport) (net : ℕ → NodeID → Link)
    (events : List Event), (∀ event ∈ events, IsSend event) → ProcessesAll tr net events := by
  intro hall
  have h := hall ⟨[1], false⟩ (fun _ _ => .ready)
    [.pb [110] (.transport (.sendMessage ⟨[97], none⟩ [[2]])),
      .pb [110] (.transport (.sendMessage ⟨[98], none⟩ [[2]]))] (by simp [IsSend])
  have hlen := congrArg (fun r : Applied => r.1.length) h
  revert hlen
  decide

end Mir.Net
