import Mir.Trantor.Membership

/-!
# Module identifiers and events

`stdtypes`, `stdevents` and the events of `eventpb`. A module identifier is a path; the node routes an
event by the part before the first separator, `ModuleID.top`.

An `EventList` holds interface values, and one of them may be `nil`. The iterator asserts the type of
the element it returns, and this panics for `nil` (`EventList.events`). The source module of an event
is left out, as are the events that a timer event carries. The contents of a protobuf message or
event that no modelled code inspects are kept as the number of the field that is set, with the bytes
in it; the generated conversions between protobuf and Mir types copy them.
-/

namespace Mir

/-- `stdtypes.RetentionIndex` and `tt.RetentionIndex`. -/
abbrev RetentionIndex := UInt64

/-- `stdtypes.ModuleID`. -/
abbrev ModuleID := GoString

/-- `stdtypes.Separator`: the character `/`. -/
def separator : UInt8 := 47

/-- `ModuleID.Top`. -/
def ModuleID.top (id : ModuleID) : ModuleID := id.takeWhile (· ≠ separator)

namespace Events

/-- `stdtypes.Message`, given by the result of its `ToBytes`; `none` is an error. -/
structure Message where
  toBytes : Option Bytes
  deriving DecidableEq

/-- `stdtypes.RawMessage`. -/
def rawMessage (data : Bytes) : Message := ⟨some data⟩

/-- `messagepb.Message`. -/
structure PbMessage where
  destModule : ModuleID
  type : Option (ℕ × Bytes)
  deriving DecidableEq

/-- `transportpb.Event`, by its type. -/
inductive TransportEvent
  | sendMessage (msg : PbMessage) (destinations : List NodeID)
  | messageReceived (sender : NodeID) (msg : PbMessage)
  | unset
  deriving DecidableEq

/-- The type of an `eventpb.Event`. -/
inductive PbType
  | transport (event : TransportEvent)
  | other (field : ℕ) (content : Bytes)
  | unset
  deriving DecidableEq

/-- The events of `stdevents`. -/
inductive StdEvent
  | init
  | newSubmodule (submoduleID : ModuleID) (params : Bytes) (retentionIndex : RetentionIndex)
  | garbageCollect (retentionIndex : RetentionIndex)
  | sendMessage (destNodes : List NodeID) (remoteDestModule : ModuleID) (payload : Message)
  | messageReceived (sender : NodeID) (payload : Message)
  | timerDelay (delay : ℕ)
  | timerRepeat (period : ℕ) (retentionIndex : RetentionIndex)
  | raw (data : Bytes)
  | testString (value : GoString)
  | testUint64 (value : UInt64)
  deriving DecidableEq

/-- `stdtypes.Event`, with its destination. -/
inductive Event
  | std (dest : ModuleID) (event : StdEvent)
  | pb (dest : ModuleID) (type : PbType)
  deriving DecidableEq

/-- `Event.Dest`. -/
def Event.dest : Event → ModuleID
  | .std dest _ | .pb dest _ => dest

/-- The errors that `ApplyEvents` of a module returns. An event whose type the module does not expect
is told apart from all other failures. -/
inductive ApplyError
  | unexpected (event : Event)
  | notSubmodule (id ownID : ModuleID)
  | serialization
  | failed (reason : GoString)
  deriving DecidableEq

/-- `stdtypes.EventList`; `none` is a `nil` element. -/
abbrev EventList := List (Option Event)

/-- The events an iterator returns one after the other. It panics at the first `nil` element. -/
def EventList.events : EventList → Fallible (List Event)
  | [] => .ok []
  | none :: _ => .error (.panic .nilInterface)
  | some event :: rest => do return event :: (← EventList.events rest)

/-- `stdtypes.ListOf`, for events that are not `nil`. -/
def listOf (events : List Event) : EventList := events.map some

/-- A list without `nil` elements is iterated over completely. -/
theorem events_listOf (events : List Event) : EventList.events (listOf events) = .ok events := by
  induction events with
  | nil => rfl
  | cons event events ih =>
    rw [listOf, List.map_cons, EventList.events]
    exact Fallible.bind_eq_ok.mpr ⟨events, ih, rfl⟩

theorem events_eq_ok_iff {list : EventList} {events : List Event} :
    EventList.events list = .ok events ↔ list = listOf events := by
  refine ⟨fun h => ?_, fun h => h ▸ events_listOf events⟩
  induction list generalizing events with
  | nil =>
    cases h
    rfl
  | cons event list ih =>
    cases event with
    | none => cases h
    | some event =>
      obtain ⟨rest, hrest, h⟩ := Fallible.bind_eq_ok.mp h
      cases h
      rw [ih hrest]
      rfl

end Events

end Mir
