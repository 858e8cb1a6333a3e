import Mir.Events.Types
import Mir.Orderers.MessageBuffer

/-!
# The factory

`stdmodules/factory`: a module that creates submodules, forwards events to them, and deletes them when
it is garbage-collected past their retention index. Events for submodules are collected, and applied
when an event for the factory itself comes and at the end of each list (`applySubmodulesEvents`).
Protobuf messages from the network for a submodule that does not exist are kept in a bounded buffer
and applied when the submodule is created; other events for it are dropped.

The submodules are arbitrary: a value of type `S` is the state of one, and the parameters say what
`ApplyEvents` does to it. The order in which a map is iterated over, and the order in which concurrent
submodules finish, are arguments (`Order`). Three components of the state are not in the source; they
record what happened: the calls of `ApplyEvents` of submodules, the number of submodules created, and
the early messages for submodules that have not been created (`early`), with marks for those that
later messages have pushed out of the buffer.
-/

namespace Mir.Factory

open Events

variable {S : Type}

/-- `factory.ModuleParams`, with the identifier of the factory and what its submodules do. -/
structure ModuleParams (S : Type) where
  ownID : ModuleID
  generator : ModuleID → Bytes → Except ApplyError S
  applyEvents : S → List Event → Except ApplyError (S × List Event)
  msgBufSize : ℕ
  protoSize : Event → ℕ

/-- A submodule, numbered in the order of creation. -/
structure Instance (S : Type) where
  number : ℕ
  state : S

/-- A call of `ApplyEvents` of a submodule, named by its identifier and number, that returned without
an error. -/
structure Call where
  callee : ModuleID × ℕ
  events : List Event
  out : List Event
  deriving DecidableEq

/-- A message for a submodule that does not exist. It is **pushed out** by a later one if it does not
fit into the buffer together with the messages that have been stored since and still wait. -/
structure EarlyMessage where
  event : Event
  pushedOut : Bool

/-- `factory.module`. -/
structure State (S : Type) where
  submodules : GoMap ModuleID (Instance S)
  moduleRetention : GoMap RetentionIndex (List ModuleID)
  retIdx : RetentionIndex
  messageBuffer : MessageBuffer Event
  eventBuffer : GoMap ModuleID (List Event)
  calls : List Call
  created : ℕ
  early : List EarlyMessage

/-- `New`. -/
def State.init (p : ModuleParams S) : State S := ⟨∅, ∅, 0, ⟨p.msgBufSize, []⟩, ∅, [], 0, []⟩

/-- The orders that the language and the scheduler leave open. -/
structure Order where
  iteration : List ModuleID → List ModuleID
  completion : List (List Event) → List (List Event)
  iteration_perm : ∀ l, (iteration l).Perm l
  completion_perm : ∀ l, (completion l).Perm l

/-- The order in which things are listed. -/
def Order.listed : Order := ⟨id, id, fun _ => .rfl, fun _ => .rfl⟩

/-! ### Submodule events -/

/-- `bufferSubmoduleEvent`. -/
def bufferSubmoduleEvent (s : State S) (event : Event) : State S :=
  { s with
    eventBuffer := s.eventBuffer.insert event.dest
      ((s.eventBuffer.lookup event.dest).getD [] ++ [event]) }

/-- A protobuf event that reports a message from the network. -/
def isNetworkMessage : Event → Bool
  | .pb _ (.transport (.messageReceived ..)) => true
  | _ => false

/-- The message fits into the empty buffer, so that it is stored. -/
def fits (p : ModuleParams S) (event : Event) : Bool := decide (p.protoSize event ≤ p.msgBufSize)

/-- The size of those messages that are stored. -/
def storedSize (p : ModuleParams S) (early : List EarlyMessage) : ℕ :=
  MessageBuffer.size p.protoSize ((early.map EarlyMessage.event).filter (fits p))

/-- Mark the stored messages that do not fit into the buffer together with those behind them. -/
def pushOut (p : ModuleParams S) : List EarlyMessage → List EarlyMessage
  | [] => []
  | e :: early =>
    ⟨e.event, e.pushedOut || fits p e.event && decide (p.msgBufSize < storedSize p (e :: early))⟩ ::
      pushOut p early

/-- Record one more message. Only one that is stored pushes out others. -/
def recordEarly (p : ModuleParams S) (event : Event) (early : List EarlyMessage) :
    List EarlyMessage :=
  if fits p event then pushOut p (early ++ [⟨event, false⟩]) else early ++ [⟨event, false⟩]

/-- `tryBuffering`. -/
def tryBuffering (p : ModuleParams S) (s : State S) (event : Event) : State S :=
  if isNetworkMessage event then
    { s with
      messageBuffer := s.messageBuffer.store p.protoSize event
      early := recordEarly p event s.early }
  else s

/-- `bufferEarlyMsgs`. -/
def bufferEarlyMsgs (p : ModuleParams S) (s : State S) (eventList : List Event) : State S :=
  eventList.foldl (tryBuffering p) s

/-- Call `ApplyEvents` of a submodule. -/
def Instance.call (p : ModuleParams S) (submodule : Instance S) (eventList : List Event) :
    Except ApplyError (Instance S × List Event) := do
  let applied ← p.applyEvents submodule.state eventList
  return (⟨submodule.number, applied.1⟩, applied.2)

/-- The state after a submodule was called. -/
def State.called (s : State S) (smID : ModuleID) (submodule : Instance S)
    (eventList out : List Event) : State S :=
  { s with
    submodules := s.submodules.insert smID submodule
    calls := s.calls ++ [⟨(smID, submodule.number), eventList, out⟩] }

/-- One iteration of the loop of `applySubmodulesEvents`, with the outputs so far. -/
def flushSubmodule (p : ModuleParams S) (acc : State S × List (List Event)) (smID : ModuleID) :
    Except ApplyError (State S × List (List Event)) :=
  let eventList := (acc.1.eventBuffer.lookup smID).getD []
  match acc.1.submodules.lookup smID with
  | none => .ok (bufferEarlyMsgs p acc.1 eventList, acc.2)
  | some submodule => do
    let result ← submodule.call p eventList
    return (acc.1.called smID result.1 eventList result.2, acc.2 ++ [result.2])

/-- `applySubmodulesEvents`. -/
def applySubmodulesEvents (p : ModuleParams S) (ord : Order) (s : State S) :
    Except ApplyError (State S × List Event) := do
  let acc ← (ord.iteration s.eventBuffer.keys).foldlM (flushSubmodule p) (s, [])
  return ({ acc.1 with eventBuffer := ∅ }, (ord.completion acc.2).flatten)

/-! ### Factory events -/

/-- The messages in the buffer for a submodule. -/
def messagesFor (id : ModuleID) (messages : List Event) : List Event :=
  messages.filter fun msg => decide (msg.dest = id)

/-- The rest of a list of messages. -/
def messagesForOthers (id : ModuleID) (messages : List Event) : List Event :=
  messages.filter fun msg => decide (msg.dest ≠ id)

/-- A new submodule before it is initialized. -/
def register (s : State S) (id : ModuleID) (submodule : S) (retIdx : RetentionIndex) : State S :=
  { s with
    submodules := s.submodules.insert id ⟨s.created, submodule⟩
    moduleRetention := s.moduleRetention.insert retIdx
      ((s.moduleRetention.lookup retIdx).getD [] ++ [id])
    created := s.created + 1 }

/-- The messages for a submodule are taken out of the buffer. -/
def takeMessages (s : State S) (id : ModuleID) : State S :=
  { s with
    messageBuffer :=
      { s.messageBuffer with messages := messagesForOthers id s.messageBuffer.messages }
    early := s.early.filter fun e => decide (e.event.dest ≠ id) }

/-- `NewSubmodule`. -/
def newSubmodule (p : ModuleParams S) (s : State S) (id : ModuleID) (params : Bytes)
    (retIdx : RetentionIndex) : Except ApplyError (State S × List Event) :=
  if id.top ≠ p.ownID then .error (.notSubmodule id p.ownID)
  else if retIdx < s.retIdx then .ok (s, [])
  else do
    let submodule ← p.generator id params
    let initialized ← (⟨s.created, submodule⟩ : Instance S).call p [.std id .init]
    let s := (register s id submodule retIdx).called id initialized.1 [.std id .init] initialized.2
    let bufferedMessages := messagesFor id s.messageBuffer.messages
    let results ← initialized.1.call p bufferedMessages
    return ((takeMessages s id).called id results.1 bufferedMessages results.2,
      initialized.2 ++ results.2)

/-- One iteration of the loop of `garbageCollect`. -/
def collect (s : State S) : State S :=
  { s with
    submodules := ((s.moduleRetention.lookup s.retIdx).getD []).foldl
      (fun submodules mID => submodules.erase mID) s.submodules
    moduleRetention := s.moduleRetention.erase s.retIdx
    retIdx := s.retIdx + 1 }

/-- `garbageCollect`. -/
def garbageCollect (s : State S) (retIdx : RetentionIndex) : State S :=
  collect^[retIdx.toNat - s.retIdx.toNat] s

/-! ### Applying events -/

/-- `applyEvent`. The outputs of the submodules are not returned when the event is `Init`. -/
def applyEvent (p : ModuleParams S) (ord : Order) (s : State S) (event : Event) :
    Except ApplyError (State S × List Event) :=
  if event.dest ≠ p.ownID then .ok (bufferSubmoduleEvent s event, [])
  else do
    let flushed ← applySubmodulesEvents p ord s
    match event with
    | .std _ .init => return (flushed.1, [])
    | .std _ (.newSubmodule id params retIdx) =>
      let result ← newSubmodule p flushed.1 id params retIdx
      return (result.1, flushed.2 ++ result.2)
    | .std _ (.garbageCollect retIdx) => return (garbageCollect flushed.1 retIdx, flushed.2)
    | _ => .error (.unexpected event)

/-- `ApplyEventsSequentially` for the factory. The orders are chosen anew at each event. -/
def applyEventsSequentially (p : ModuleParams S) (ord : ℕ → Order) :
    ℕ → State S → List Event → Except ApplyError (State S × List Event)
  | _, s, [] => .ok (s, [])
  | n, s, event :: events => do
    let applied ← applyEvent p (ord n) s event
    let rest ← applyEventsSequentially p ord (n + 1) applied.1 events
    return (rest.1, applied.2 ++ rest.2)

/-- `ApplyEvents`. -/
def applyEvents (p : ModuleParams S) (ord : ℕ → Order) (s : State S) (events : List Event) :
    Except ApplyError (State S × List Event) := do
  let applied ← applyEventsSequentially p ord 0 s events
  let flushed ← applySubmodulesEvents p (ord events.length) applied.1
  return (flushed.1, applied.2 ++ flushed.2)

/-! ### Which submodules exist -/

variable {p : ModuleParams S} {ord : Order} {s s' : State S} {out : List Event}

/-- The number of the submodule with the given identifier, if it exists. -/
def State.number? (s : State S) (id : ModuleID) : Option ℕ :=
  (s.submodules.lookup id).map Instance.number

/-- Which submodules exist, and until when they are retained, is the same in both states. -/
structure SameModules (s s' : State S) : Prop where
  number? : ∀ id, s'.number? id = s.number? id
  moduleRetention : s'.moduleRetention = s.moduleRetention
  retIdx : s'.retIdx = s.retIdx
  created : s'.created = s.created

theorem SameModules.refl (s : State S) : SameModules s s := ⟨fun _ => rfl, rfl, rfl, rfl⟩

theorem SameModules.trans {s₀ : State S} (h : SameModules s₀ s) (h' : SameModules s s') :
    SameModules s₀ s' where
  number? id := (h'.number? id).trans (h.number? id)
  moduleRetention := h'.moduleRetention.trans h.moduleRetention
  retIdx := h'.retIdx.trans h.retIdx
  created := h'.created.trans h.created

theorem Instance.call_number {submodule submodule' : Instance S} {eventList : List Event}
    (h : submodule.call p eventList = .ok (submodule', out)) :
    submodule'.number = submodule.number := by
  obtain ⟨applied, -, h⟩ := FallibleLoop.bind_ok_iff.mp h
  cases h
  rfl

theorem number?_called (s : State S) (smID : ModuleID) (submodule : Instance S)
    (eventList out : List Event) (id : ModuleID) :
    (s.called smID submodule eventList out).number? id =
      if id = smID then some submodule.number else s.number? id := by
  rw [State.number?, State.called, GoMap.lookup_insert_eq]
  split <;> rfl

/-- Calling a submodule that exists. -/
theorem sameModules_called {smID : ModuleID} {submodule submodule' : Instance S}
    (hlookup : s.submodules.lookup smID = some submodule)
    (hnumber : submodule'.number = submodule.number) (eventList out : List Event) :
    SameModules s (s.called smID submodule' eventList out) := by
  refine ⟨fun id => ?_, rfl, rfl, rfl⟩
  rw [number?_called]
  split
  next heq => rw [heq, State.number?, hlookup, hnumber, Option.map_some]
  next => rfl

theorem sameModules_bufferEarlyMsgs (s : State S) (eventList : List Event) :
    SameModules s (bufferEarlyMsgs p s eventList) := by
  induction eventList generalizing s with
  | nil => exact .refl s
  | cons event eventList ih =>
    have htry : SameModules s (tryBuffering p s event) := by
      rw [tryBuffering]
      split
      next => exact ⟨fun _ => rfl, rfl, rfl, rfl⟩
      next => exact .refl s
    exact htry.trans (ih _)

/-- What one iteration does: an existing submodule is called, and messages for one that does not exist
are buffered. -/
theorem flushSubmodule_cases {acc acc' : State S × List (List Event)} {smID : ModuleID}
    (h : flushSubmodule p acc smID = .ok acc') :
    let eventList := (acc.1.eventBuffer.lookup smID).getD []
    (acc.1.submodules.lookup smID = none ∧ acc' = (bufferEarlyMsgs p acc.1 eventList, acc.2)) ∨
      ∃ submodule result, acc.1.submodules.lookup smID = some submodule ∧
        submodule.call p eventList = .ok result ∧
        acc' = (acc.1.called smID result.1 eventList result.2, acc.2 ++ [result.2]) := by
  intro eventList
  rw [flushSubmodule] at h
  split at h
  next hnone =>
    cases h
    exact Or.inl ⟨hnone, rfl⟩
  next submodule hsome =>
    obtain ⟨result, hcall, h⟩ := FallibleLoop.bind_ok_iff.mp h
    cases h
    exact Or.inr ⟨submodule, result, hsome, hcall, rfl⟩

theorem sameModules_flushSubmodule {acc acc' : State S × List (List Event)} {smID : ModuleID}
    (h : flushSubmodule p acc smID = .ok acc') : SameModules acc.1 acc'.1 := by
  rcases flushSubmodule_cases h with ⟨-, rfl⟩ | ⟨submodule, result, hlookup, hcall, rfl⟩
  · exact sameModules_bufferEarlyMsgs _ _
  · exact sameModules_called hlookup (Instance.call_number hcall) _ _

/-- **Applying the collected events** neither creates nor deletes submodules. -/
theorem sameModules_applySubmodulesEvents (h : applySubmodulesEvents p ord s = .ok (s', out)) :
    SameModules s s' := by
  obtain ⟨acc, hfold, h⟩ := FallibleLoop.bind_ok_iff.mp h
  cases h
  have hsame : SameModules s acc.1 := FallibleLoop.foldlM_induction
    (I := fun _ (acc : State S × List (List Event)) => SameModules s acc.1) (.refl s)
    (fun _ _ _ _ _ _ hs hstep => hs.trans (sameModules_flushSubmodule hstep)) hfold
  exact hsame.trans ⟨fun _ => rfl, rfl, rfl, rfl⟩

/-- The state after a submodule was created: registered, initialized, and given its messages. -/
def created (s : State S) (id : ModuleID) (retIdx : RetentionIndex) (submodule : S)
    (initialized results : Instance S × List Event) : State S :=
  let s := (register s id submodule retIdx).called id initialized.1 [.std id .init] initialized.2
  (takeMessages s id).called id results.1 (messagesFor id s.messageBuffer.messages) results.2

/-- What `NewSubmodule` does: nothing for a low retention index, otherwise a submodule is created. -/
theorem newSubmodule_cases {id : ModuleID} {params : Bytes} {retIdx : RetentionIndex}
    (h : newSubmodule p s id params retIdx = .ok (s', out)) :
    (retIdx < s.retIdx ∧ s' = s ∧ out = []) ∨
      s.retIdx ≤ retIdx ∧ ∃ submodule initialized results,
        initialized.1.number = s.created ∧ results.1.number = s.created ∧
        s' = created s id retIdx submodule initialized results ∧
        out = initialized.2 ++ results.2 := by
  rw [newSubmodule] at h
  split at h
  next => cases h
  next =>
    split at h
    next hlt =>
      cases h
      exact Or.inl ⟨hlt, rfl, rfl⟩
    next hle =>
      obtain ⟨submodule, -, h⟩ := FallibleLoop.bind_ok_iff.mp h
      obtain ⟨initialized, hinit, h⟩ := FallibleLoop.bind_ok_iff.mp h
      obtain ⟨results, hresults, h⟩ := FallibleLoop.bind_ok_iff.mp h
      cases h
      have hnumber : initialized.1.number = s.created := Instance.call_number hinit
      exact Or.inr ⟨UInt64.not_lt.mp hle, submodule, initialized, results, hnumber,
        (Instance.call_number hresults).trans hnumber, rfl, rfl⟩

/-- **One event**: it is collected for a submodule, or the collected events are applied, and then the
factory handles it. -/
theorem applyEvent_cases {event : Event} (h : applyEvent p ord s event = .ok (s', out)) :
    (event.dest ≠ p.ownID ∧ s' = bufferSubmoduleEvent s event ∧ out = []) ∨
      event.dest = p.ownID ∧ ∃ s₁ out₁, applySubmodulesEvents p ord s = .ok (s₁, out₁) ∧
        ((∃ dest, event = .std dest .init ∧ s' = s₁ ∧ out = []) ∨
          (∃ dest id params retIdx out₂, event = .std dest (.newSubmodule id params retIdx) ∧
            newSubmodule p s₁ id params retIdx = .ok (s', out₂) ∧ out = out₁ ++ out₂) ∨
          ∃ dest retIdx, event = .std dest (.garbageCollect retIdx) ∧
            s' = garbageCollect s₁ retIdx ∧ out = out₁) := by
  rw [applyEvent] at h
  split at h
  next hdest =>
    cases h
    exact Or.inl ⟨hdest, rfl, rfl⟩
  next hdest =>
    obtain ⟨⟨s₁, out₁⟩, hflush, h⟩ := FallibleLoop.bind_ok_iff.mp h
    refine Or.inr ⟨not_not.mp hdest, s₁, out₁, hflush, ?_⟩
    cases event with
    | pb dest type => cases h
    | std dest event =>
      cases event with
      | init =>
        cases h
        exact Or.inl ⟨dest, rfl, rfl, rfl⟩
      | newSubmodule id params retIdx =>
        obtain ⟨⟨s₂, out₂⟩, hnew, h⟩ := FallibleLoop.bind_ok_iff.mp h
        cases h
        exact Or.inr (Or.inl ⟨dest, id, params, retIdx, out₂, rfl, hnew, rfl⟩)
      | garbageCollect retIdx =>
        cases h
        exact Or.inr (Or.inr ⟨dest, retIdx, rfl, rfl, rfl⟩)
      | _ => cases h

end Mir.Factory
