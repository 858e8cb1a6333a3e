import Mir.Net.Transport

/-!
# Modules and the events they expect

The modules of a node that remote nodes can address: modules of the `dsl` package with arbitrary
handlers, the timer, and the transport itself. A module that returns an error stops the node. Here the
error for an event whose type a module does not expect is separated from all others, and for each kind
of module it is determined for which received messages it is returned.

A handler that is registered for the type of an event expects it, so the types of handlers carry that
they return no such error (`Registered`). The default handler is the one that rejects events.
-/

namespace Mir.Modules

open Events FallibleLoop

/-- A message that the transport has received from a remote node. -/
def IsReceived : Event → Prop
  | .std _ (.messageReceived ..) | .pb _ (.transport (.messageReceived ..)) => True
  | _ => False

/-- Of a list of events, the received messages are in the given set. -/
def ReceivedIn (E : Set Event) (events : List Event) : Prop :=
  ∀ event ∈ events, IsReceived event → event ∈ E

/-- The computation does not end because a received message is unexpected. -/
def Tolerant {α : Type} (x : Except ApplyError α) : Prop :=
  ∀ event, IsReceived event → x ≠ .error (.unexpected event)

theorem tolerant_ok {α : Type} (a : α) : Tolerant (.ok a : Except ApplyError α) := nofun

/-- A sequence is tolerant if its parts are. -/
theorem Tolerant.bind {α β : Type} {x : Except ApplyError α} {f : α → Except ApplyError β}
    (hx : Tolerant x) (hf : ∀ a, x = .ok a → Tolerant (f a)) : Tolerant (x >>= f) := by
  intro event hevent h
  cases hval : x with
  | ok a =>
    rw [hval] at h
    exact hf a hval event hevent h
  | error err =>
    rw [hval] at h
    cases h
    exact hx event hevent hval

/-- A loop is tolerant if its body is, in all states that satisfy an invariant of the loop. -/
theorem Tolerant.foldlM {α β : Type} {f : β → α → Except ApplyError β} {l : List α} {b : β}
    {I : β → Prop} (hb : I b) (hstep : ∀ x ∈ l, ∀ s, I s → Tolerant (f s x) ∧
      ∀ s', f s x = .ok s' → I s') : Tolerant (l.foldlM f b) := by
  induction l generalizing b with
  | nil => exact tolerant_ok b
  | cons x l ih =>
    obtain ⟨hx, hnext⟩ := hstep x List.mem_cons_self b hb
    rw [List.foldlM_cons]
    exact hx.bind fun b' hb' => ih (hnext b' hb') fun y hy => hstep y (List.mem_cons_of_mem _ hy)

/-! ### DSL modules -/

/-- The Go type of a standard event. -/
inductive StdKind
  | init
  | newSubmodule
  | garbageCollect
  | sendMessage
  | messageReceived
  | timerDelay
  | timerRepeat
  | raw
  | testString
  | testUint64
  deriving DecidableEq

/-- `reflect.TypeOf` for a standard event. -/
def stdKind : StdEvent → StdKind
  | .init => .init
  | .newSubmodule .. => .newSubmodule
  | .garbageCollect .. => .garbageCollect
  | .sendMessage .. => .sendMessage
  | .messageReceived .. => .messageReceived
  | .timerDelay .. => .timerDelay
  | .timerRepeat .. => .timerRepeat
  | .raw .. => .raw
  | .testString .. => .testString
  | .testUint64 .. => .testUint64

/-- The Go type of the type of a protobuf event. -/
inductive PbKind
  | transport
  | other (field : ℕ)
  | unset
  deriving DecidableEq

/-- `reflect.TypeOf` for the type of a protobuf event. -/
def pbKind : PbType → PbKind
  | .transport _ => .transport
  | .other field _ => .other field
  | .unset => .unset

section Dsl

variable {S : Type}

/-- A handler that is registered for a type of events: it may fail, but it expects the event. -/
structure Registered (S : Type) where
  run : S → Event → Except ApplyError (S × List Event)
  expects : ∀ s event, Tolerant (run s event)

/-- A default handler: it may reject the event that it is called with. -/
structure DefaultHandler (S : Type) where
  run : S → Event → Except ApplyError (S × List Event)
  reports : ∀ s event event', run s event = .error (.unexpected event') → event' = event

/-- A handler for state updates. -/
structure UpdateHandler (S : Type) where
  run : S → Except ApplyError (S × List Event)
  expects : ∀ s, Tolerant (run s)

/-- `dslModuleImpl`; the state holds what the handlers close over, and the context store. -/
structure DslModule (S : Type) where
  defaultEventHandler : DefaultHandler S
  eventHandlers : StdKind → Option (List (Registered S))
  pbEventHandlers : PbKind → Option (List (Registered S))
  stateUpdateHandlers : List (UpdateHandler S)
  stateUpdateBatchHandlers : List (UpdateHandler S)

/-- `failExceptForInit`. -/
def failExceptForInit (s : S) : Event → Except ApplyError (S × List Event)
  | .std _ .init => .ok (s, [])
  | event => .error (.unexpected event)

/-- `failExceptForInitAndTransport`. -/
def failExceptForInitAndTransport (s : S) : Event → Except ApplyError (S × List Event)
  | .pb _ (.transport _) => .ok (s, [])
  | event => failExceptForInit s event

theorem failExceptForInit_reports (s : S) (event event' : Event)
    (h : failExceptForInit s event = .error (.unexpected event')) : event' = event := by
  rw [failExceptForInit.eq_def] at h
  split at h
  next => cases h
  next => exact (ApplyError.unexpected.inj (Except.error.inj h)).symm

theorem failExceptForInitAndTransport_reports (s : S) (event event' : Event)
    (h : failExceptForInitAndTransport s event = .error (.unexpected event')) :
    event' = event := by
  rw [failExceptForInitAndTransport.eq_def] at h
  split at h
  next => cases h
  next => exact failExceptForInit_reports s event event' h

/-- The default handler of `NewModule`. -/
def standardDefault (S : Type) : DefaultHandler S :=
  ⟨failExceptForInitAndTransport, failExceptForInitAndTransport_reports⟩

/-- `NewModule`: a module without handlers. -/
def newModule (S : Type) : DslModule S := ⟨standardDefault S, fun _ => none, fun _ => none, [], []⟩

namespace DslModule

/-- The handlers that are registered for the type of an event. -/
def handlers (m : DslModule S) : Event → Option (List (Registered S))
  | .std _ event => m.eventHandlers (stdKind event)
  | .pb _ type => m.pbEventHandlers (pbKind type)

/-- Run a handler, and queue the events that it emits. -/
def emit (acc : S × List Event) (run : S → Except ApplyError (S × List Event)) :
    Except ApplyError (S × List Event) := do
  let result ← run acc.1
  return (result.1, acc.2 ++ result.2)

/-- Execute the default handler if there is no other, or all registered handlers. -/
def runHandlers (m : DslModule S) (acc : S × List Event) (event : Event) :
    Except ApplyError (S × List Event) :=
  match m.handlers event with
  | none => emit acc fun s => m.defaultEventHandler.run s event
  | some handlers => handlers.foldlM (fun acc h => emit acc fun s => h.run s event) acc

/-- The handling of one event: the handlers for its type, and those for state updates. -/
def applyEvent (m : DslModule S) (acc : S × List Event) (event : Event) :
    Except ApplyError (S × List Event) := do
  let acc ← m.runHandlers acc event
  m.stateUpdateHandlers.foldlM (fun acc h => emit acc h.run) acc

/-- `ApplyEvents`. -/
def applyEvents (m : DslModule S) (s : S) (events : List Event) :
    Except ApplyError (S × List Event) := do
  let acc ← events.foldlM m.applyEvent (s, [])
  m.stateUpdateBatchHandlers.foldlM (fun acc h => emit acc h.run) acc

/-- The module expects an event: a handler is registered for its type, or the default handler does not
reject it. -/
def Expects (m : DslModule S) (event : Event) : Prop :=
  m.handlers event ≠ none ∨
    ∀ s, m.defaultEventHandler.run s event ≠ .error (.unexpected event)

theorem tolerant_emit {acc : S × List Event} {run : S → Except ApplyError (S × List Event)}
    (h : Tolerant (run acc.1)) : Tolerant (emit acc run) :=
  h.bind fun _ _ => tolerant_ok _

theorem tolerant_updates (handlers : List (UpdateHandler S)) (acc : S × List Event) :
    Tolerant (handlers.foldlM (fun acc h => emit acc h.run) acc) :=
  Tolerant.foldlM (I := fun _ => True) trivial fun h _ _ _ =>
    ⟨tolerant_emit (h.expects _), fun _ _ => trivial⟩

/-- An event that is not a received message, or is expected, is tolerated. -/
theorem tolerant_applyEvent (m : DslModule S) (acc : S × List Event) {event : Event}
    (h : IsReceived event → m.Expects event) : Tolerant (m.applyEvent acc event) := by
  refine Tolerant.bind ?_ fun acc' _ => tolerant_updates _ acc'
  rw [runHandlers]
  cases hhandlers : m.handlers event with
  | some handlers =>
    exact Tolerant.foldlM (I := fun _ => True) trivial fun h _ _ _ =>
      ⟨tolerant_emit (h.expects _ _), fun _ _ => trivial⟩
  | none =>
    refine tolerant_emit fun event' hevent' heq => ?_
    -- the default handler rejects no other event than this one
    obtain rfl := m.defaultEventHandler.reports _ _ _ heq
    rcases h hevent' with hregistered | hdefault
    · exact hregistered hhandlers
    · exact hdefault _ heq

/-- **A DSL module** tolerates all lists with received messages from a set if and only if it expects
each of them. -/
theorem tolerant_iff (m : DslModule S) {E : Set Event} (hE : ∀ event ∈ E, IsReceived event) :
    (∀ s events, ReceivedIn E events → Tolerant (m.applyEvents s events)) ↔
      ∀ event ∈ E, m.Expects event := by
  constructor
  · intro htolerant event hevent
    by_contra hnot
    rw [Expects, not_or, not_not] at hnot
    obtain ⟨hnone, hreject⟩ := hnot
    push Not at hreject
    obtain ⟨s, hs⟩ := hreject
    -- a list with this message only
    refine htolerant s [event] (fun e he _ => ?_) event (hE event hevent) ?_
    · rw [List.mem_singleton.mp he]
      exact hevent
    · simp only [applyEvents, List.foldlM_cons, applyEvent, runHandlers, hnone, emit, hs]
      rfl
  · intro hexpects s events hreceived
    refine Tolerant.bind ?_ fun acc _ => tolerant_updates _ acc
    exact Tolerant.foldlM (I := fun _ => True) trivial fun event hevent acc _ =>
      ⟨m.tolerant_applyEvent acc fun hrec => hexpects event (hreceived event hevent hrec),
        fun _ _ => trivial⟩

end DslModule

end Dsl

/-! ### The timer -/

/-- `Timer.applyEvent`, with the retention index. The goroutines that write the delayed and repeated
events are left out. -/
def timerApplyEvent (retIndex : RetentionIndex) : Event → Except ApplyError RetentionIndex
  | .std _ .init | .std _ (.timerDelay _) | .std _ (.timerRepeat ..) => .ok retIndex
  | .std _ (.garbageCollect retIndex') => .ok (if retIndex < retIndex' then retIndex' else retIndex)
  | event => .error (.unexpected event)

/-- `Timer.ApplyEvents`. -/
def timerApplyEvents (retIndex : RetentionIndex) (events : List Event) :
    Except ApplyError RetentionIndex :=
  events.foldlM timerApplyEvent retIndex

theorem timerApplyEvent_received {event : Event} (h : IsReceived event)
    (retIndex : RetentionIndex) :
    timerApplyEvent retIndex event = .error (.unexpected event) := by
  match event, h with
  | .pb _ (.transport (.messageReceived ..)), _ => rfl
  | .std _ (.messageReceived ..), _ => rfl

theorem timerApplyEvent_reports {event event' : Event} {retIndex : RetentionIndex}
    (h : timerApplyEvent retIndex event = .error (.unexpected event')) : event' = event := by
  rw [timerApplyEvent.eq_def] at h
  split at h
  next => cases h
  next => cases h
  next => cases h
  next => cases h
  next => exact (ApplyError.unexpected.inj (Except.error.inj h)).symm

/-- **The timer** tolerates no received message. -/
theorem timer_tolerant_iff {E : Set Event} (hE : ∀ event ∈ E, IsReceived event) :
    (∀ retIndex events, ReceivedIn E events → Tolerant (timerApplyEvents retIndex events)) ↔
      E = ∅ := by
  constructor
  · intro htolerant
    refine Set.eq_empty_of_forall_notMem fun event hevent => ?_
    refine htolerant 0 [event] (fun e he _ => ?_) event (hE event hevent) ?_
    · rw [List.mem_singleton.mp he]
      exact hevent
    · rw [timerApplyEvents, List.foldlM_cons, timerApplyEvent_received (hE event hevent)]
      rfl
  · rintro rfl retIndex events hreceived
    refine Tolerant.foldlM (I := fun _ => True) trivial fun event hevent retIndex _ =>
      ⟨fun event' hevent' h => ?_, fun _ _ => trivial⟩
    obtain rfl := timerApplyEvent_reports h
    exact hreceived _ hevent hevent'

/-! ### The transport -/

section Transport

open Net

variable (tr : Transport) (net : ℕ → NodeID → Link)

/-- Sending never finds an event unexpected. -/
theorem tolerant_sendStd (event : Event) (remoteDestModule : ModuleID) (payload : Message)
    (acc : List Attempt) (destNodes : List NodeID) :
    Tolerant (sendStd tr net event remoteDestModule payload acc destNodes).2 := by
  induction destNodes generalizing acc with
  | nil => exact tolerant_ok ()
  | cons destID destNodes ih =>
    rw [sendStd]
    split
    next => exact ih _
    next =>
      dsimp only
      split
      next => exact ih _
      next =>
        split
        next => exact fun _ _ h => by cases h
        next => exact ih _

theorem transport_received (acc : List Attempt) {event : Event} (h : IsReceived event)
    (events : List Event) :
    (applyEvents tr net acc (event :: events)).2 = .error (.unexpected event) := by
  match event, h with
  | .pb _ (.transport (.messageReceived ..)), _ => rfl
  | .std _ (.messageReceived ..), _ => rfl

/-- The transport tolerates lists without received messages. -/
theorem tolerant_transport (acc : List Attempt) {events : List Event}
    (h : ∀ event ∈ events, ¬ IsReceived event) : Tolerant (applyEvents tr net acc events).2 := by
  induction events generalizing acc with
  | nil => exact tolerant_ok ()
  | cons event events ih =>
    obtain ⟨hevent, hevents⟩ := List.forall_mem_cons.mp h
    rw [applyEvents.eq_def]
    split
    next => exact tolerant_ok ()
    next heq =>
      obtain ⟨rfl, rfl⟩ := List.cons.inj heq
      exact ih _ hevents
    next heq =>
      obtain ⟨rfl, rfl⟩ := List.cons.inj heq
      dsimp only
      split
      next => exact ih _ hevents
      next hsend => exact hsend ▸ tolerant_sendStd tr net _ _ _ _ _
    next heq =>
      obtain ⟨rfl, -⟩ := List.cons.inj heq
      rw [applyPbEvent.eq_def]
      split
      next => exact tolerant_ok ()
      next =>
        intro event' hevent' herr
        cases herr
        exact hevent hevent'
    next heq =>
      obtain ⟨rfl, -⟩ := List.cons.inj heq
      intro event' hevent' herr
      cases herr
      exact hevent hevent'

/-- **The transport** tolerates no received message. -/
theorem transport_tolerant_iff {E : Set Event} (hE : ∀ event ∈ E, IsReceived event) :
    (∀ net events, ReceivedIn E events → Tolerant (applyEvents tr net [] events).2) ↔ E = ∅ := by
  constructor
  · intro htolerant
    refine Set.eq_empty_of_forall_notMem fun event hevent => ?_
    refine htolerant (fun _ _ => .ready) [event] (fun e he _ => ?_) event (hE event hevent)
      (transport_received tr _ [] (hE event hevent) [])
    rw [List.mem_singleton.mp he]
    exact hevent
  · rintro rfl net events hreceived
    exact tolerant_transport tr net [] fun event hevent hrec => hreceived event hevent hrec

end Transport

end Mir.Modules
