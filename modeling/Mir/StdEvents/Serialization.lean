import Mir.Lib.Codec
import Mir.Lib.Json
import Mir.StdEvents.Redirect

/-!
# Serialising standard events

`serialize`, `Deserialize` and the methods `ToBytes` of `stdevents`. An event is turned into a structure
in which payloads, parameters and the events of a timer are replaced by bytes; the structure and its
type are written as JSON objects, one member for each field. How `encoding/json` writes strings,
integers and byte slices is a parameter: it is assumed to read them back, strings if they are valid
UTF-8 (`JSON.RoundTrips`).

Reading gives an event back up to what was replaced, at any depth (`Restores`). The events of a timer
come back wrapped in `Raw` events and are wrapped once more when the result is written again. So the
bytes of such an event change, unlike those of events that have no others inside.
-/

namespace Mir.StdEvents

open Coding Json

/-! ### Events and what is written of them -/

/-- A message or a parameter: raw bytes, or something else, with what its method `ToBytes` returns. -/
inductive Payload
  | raw (data : ByteSlice)
  | other (toBytes : Option ByteSlice)

/-- `ToBytes` of a message or a parameter. -/
def Payload.toBytes : Payload → Option ByteSlice
  | .raw data => some data
  | .other toBytes => toBytes

/-- An event of `stdevents`, or another one inside a timer's event, with what its `ToBytes` returns. -/
inductive Event
  | std (mirEvent : MirEvent) (fields : Fields Payload Event)
  | other (mirEvent : MirEvent) (toBytes : Option ByteSlice)

/-- The modules of an event. -/
def Event.mirEvent : Event → MirEvent
  | .std m _ => m
  | .other m _ => m

/-- `Raw`, where it takes the place of another event. -/
structure Raw where
  mirEvent : MirEvent
  data : ByteSlice

/-- `Raw` as an event. -/
def Raw.event (r : Raw) : Event := .std r.mirEvent (.raw r.data)

/-- The structures that are written, such as `serializableSendMessage`. -/
abbrev Structure := Object ByteSlice Raw

/-- `eventType`. -/
inductive EventType
  | raw
  | init
  | sendMessage
  | messageReceived
  | timerDelay
  | timerRepeat
  | newSubmodule
  | garbageCollect
  | testString
  | testUint64

variable {P E : Type}

/-- The type of a structure, as selected in `serialize`. -/
def Fields.evType : Fields P E → EventType
  | .raw .. => .raw
  | .init => .init
  | .sendMessage .. => .sendMessage
  | .messageReceived .. => .messageReceived
  | .timerDelay .. => .timerDelay
  | .timerRepeat .. => .timerRepeat
  | .newSubmodule .. => .newSubmodule
  | .garbageCollect .. => .garbageCollect
  | .testString .. => .testString
  | .testUint64 .. => .testUint64

/-! ### JSON objects -/

/-- A string literal. -/
def lit (s : String) : GoString := s.toUTF8.data.toList

/-- The members of an object. -/
abbrev Members := List (GoString × Value)

/-- `encoding/json`, as far as it is left open: strings and integers, and the strings that byte slices are
written as. -/
structure JSON extends Leaves where
  base64 : Bytes → GoString
  unbase64 : GoString → Option Bytes

/-- The type of an event in JSON. -/
def EventType.name : EventType → GoString
  | .raw => lit "Raw"
  | .init => lit "Init"
  | .sendMessage => lit "SendMessage"
  | .messageReceived => lit "MessageReceived"
  | .timerDelay => lit "TimerDelay"
  | .timerRepeat => lit "TimerRepeat"
  | .newSubmodule => lit "NewSubmodule"
  | .garbageCollect => lit "GarbageCollect"
  | .testString => lit "TestString"
  | .testUint64 => lit "TestUint"

/-- The type with the given name, as selected in `Deserialize`. -/
def EventType.ofName? (name : GoString) : Option EventType :=
  [raw, init, sendMessage, messageReceived, timerDelay, timerRepeat, newSubmodule, garbageCollect,
    testString, testUint64].find? (·.name = name)

/-- A byte slice. -/
def JSON.bytes (J : JSON) : ByteSlice → Value
  | none => .null
  | some b => .string (J.base64 b)

/-- A slice of strings. -/
def stringSlice : Option (List GoString) → Value
  | none => .null
  | some l => .array (l.map .string)

/-- The members of an object, from the names and values of the fields of a structure. -/
def named (fields : List (String × Value)) : Members := fields.map fun f => (lit f.1, f.2)

/-- The fields of `mirEvent`, which is embedded in all structures. -/
def MirEvent.json (m : MirEvent) : List (String × Value) :=
  [("SrcModule", .string m.srcModule), ("DestModule", .string m.destModule)]

/-- A `Raw` event inside another one. -/
def JSON.raw (J : JSON) (r : Raw) : Value :=
  .object (named (r.mirEvent.json ++ [("Data", J.bytes r.data)]))

/-- The other fields of a structure. -/
def JSON.fields (J : JSON) : Fields ByteSlice Raw → List (String × Value)
  | .raw data => [("Data", J.bytes data)]
  | .init => []
  | .sendMessage destNodes remoteDestModule payload => [("DestNodes", stringSlice destNodes),
    ("RemoteDestModule", .string remoteDestModule), ("Payload", J.bytes payload)]
  | .messageReceived sender payload => [("Sender", .string sender), ("Payload", J.bytes payload)]
  | .timerDelay events delay =>
    [("Events", .array (events.map J.raw)), ("Delay", .int delay.toInt)]
  | .timerRepeat events period retentionIndex => [("Events", .array (events.map J.raw)),
    ("Period", .int period.toInt), ("RetentionIndex", .int retentionIndex.toNat)]
  | .newSubmodule submoduleID params retentionIndex => [("SubmoduleID", .string submoduleID),
    ("Params", J.bytes params), ("RetentionIndex", .int retentionIndex.toNat)]
  | .garbageCollect retentionIndex => [("RetentionIndex", .int retentionIndex.toNat)]
  | .testString value => [("Value", .string value)]
  | .testUint64 value => [("Value", .int value.toNat)]

/-- The members of a structure. -/
def JSON.members (J : JSON) (e : Structure) : Members := named (e.mirEvent.json ++ J.fields e.fields)

/-- The object of `serializedEvent`. `EvData` is a text, which is written as it is. -/
def JSON.serializedEvent (J : JSON) (e : Structure) : Value :=
  .object (named [("EvType", .string e.fields.evType.name), ("EvData", .object (J.members e))])

/-- `serialize`. -/
def JSON.serialize (J : JSON) (e : Structure) : ByteSlice := some (J.write (J.serializedEvent e))

/-! ### Reading objects -/

/-- Upper case letters are read as lower case ones in the names of fields. -/
def foldCase (s : GoString) : GoString := s.map fun c => if 65 ≤ c ∧ c ≤ 90 then c + 32 else c

/-- The last member with the name of a field. -/
def member? (name : String) (members : Members) : Option Value :=
  (members.reverse.find? fun m => foldCase m.1 = foldCase (lit name)).map Prod.snd

/-- The value for a field. Without one, as with `null`, the field keeps its zero value. -/
def member (name : String) (members : Members) : Value := (member? name members).getD .null

/-- The members that are read into a structure. -/
def readMembers : Value → Option Members
  | .null => some []
  | .object members => some members
  | .int _ | .string _ | .array _ => none

def readString : Value → Option GoString
  | .null => some []
  | .string s => some s
  | .int _ | .array _ | .object _ => none

def readUint64 : Value → Option UInt64
  | .null => some 0
  | .int n => if 0 ≤ n ∧ n < 2 ^ 64 then some (.ofNat n.toNat) else none
  | .string _ | .array _ | .object _ => none

def readInt64 : Value → Option Int64
  | .null => some 0
  | .int n => if -2 ^ 63 ≤ n ∧ n < 2 ^ 63 then some (.ofInt n) else none
  | .string _ | .array _ | .object _ => none

/-- A byte slice may also be read from a list of numbers. -/
def JSON.readBytes (J : JSON) : Value → Option ByteSlice
  | .null => some none
  | .string s => (J.unbase64 s).map some
  | .array items => do
    let numbers ← items.mapM readUint64
    if numbers.all (· < 256) then some (some (numbers.map UInt64.toUInt8)) else none
  | .int _ | .object _ => none

def readStrings : Value → Option (Option (List GoString))
  | .null => some none
  | .array items => (items.mapM readString).map some
  | .int _ | .string _ | .object _ => none

def readMirEvent (members : Members) : Option MirEvent := do
  return ⟨← readString (member "SrcModule" members), ← readString (member "DestModule" members)⟩

/-- A `Raw` event inside another one. The references in a list may also be `nil`, which is not modelled. -/
def JSON.readRaw (J : JSON) : Value → Option Raw
  | .object members => do return ⟨← readMirEvent members, ← J.readBytes (member "Data" members)⟩
  | .null | .int _ | .string _ | .array _ => none

def JSON.readRaws (J : JSON) : Value → Option (List Raw)
  | .null => some []
  | .array items => items.mapM J.readRaw
  | .int _ | .string _ | .object _ => none

/-- The fields besides `mirEvent` of the structure that `Deserialize` reads for a type. -/
def JSON.readFields (J : JSON) (members : Members) : EventType → Option (Fields ByteSlice Raw)
  | .raw => do return .raw (← J.readBytes (member "Data" members))
  | .init => some .init
  | .sendMessage => do
    return .sendMessage (← readStrings (member "DestNodes" members))
      (← readString (member "RemoteDestModule" members)) (← J.readBytes (member "Payload" members))
  | .messageReceived => do
    return .messageReceived (← readString (member "Sender" members))
      (← J.readBytes (member "Payload" members))
  | .timerDelay => do
    return .timerDelay (← J.readRaws (member "Events" members)) (← readInt64 (member "Delay" members))
  | .timerRepeat => do
    return .timerRepeat (← J.readRaws (member "Events" members))
      (← readInt64 (member "Period" members)) (← readUint64 (member "RetentionIndex" members))
  | .newSubmodule => do
    return .newSubmodule (← readString (member "SubmoduleID" members))
      (← J.readBytes (member "Params" members)) (← readUint64 (member "RetentionIndex" members))
  | .garbageCollect => do return .garbageCollect (← readUint64 (member "RetentionIndex" members))
  | .testString => do return .testString (← readString (member "Value" members))
  | .testUint64 => do return .testUint64 (← readUint64 (member "Value" members))

/-- `Unmarshal` into the structure for a type. -/
def JSON.readObject (J : JSON) (evType : EventType) (v : Value) : Option Structure := do
  let members ← readMembers v
  return ⟨← readMirEvent members, ← J.readFields members evType⟩

/-! ### Events and bytes -/

mutual

/-- `ToBytes`. -/
def Event.toBytes (J : JSON) : Event → Option ByteSlice
  | .std m fields => do return J.serialize ⟨m, ← serializable J fields⟩
  | .other _ toBytes => toBytes

/-- The methods `serializable`; the other types are written as they are. -/
def serializable (J : JSON) : Fields Payload Event → Option (Fields ByteSlice Raw)
  | .raw data => some (.raw data)
  | .init => some .init
  | .sendMessage destNodes remoteDestModule payload => do
    return .sendMessage destNodes remoteDestModule (← payload.toBytes)
  | .messageReceived sender payload => do return .messageReceived sender (← payload.toBytes)
  | .timerDelay events delay => do return .timerDelay (← wrapAll J events) delay
  | .timerRepeat events period retentionIndex => do
    return .timerRepeat (← wrapAll J events) period retentionIndex
  | .newSubmodule submoduleID params retentionIndex => do
    return .newSubmodule submoduleID (← params.toBytes) retentionIndex
  | .garbageCollect retentionIndex => some (.garbageCollect retentionIndex)
  | .testString value => some (.testString value)
  | .testUint64 value => some (.testUint64 value)

/-- The loop over the events of a timer, with `WrapInRaw`. -/
def wrapAll (J : JSON) : List Event → Option (List Raw)
  | [] => some []
  | e :: events => do
    let data ← e.toBytes J
    return ⟨e.mirEvent, data⟩ :: (← wrapAll J events)

end

/-- The methods `SendMessage`, `TimerDelay` and so on, which turn structures into events. -/
def restore : Fields ByteSlice Raw → Fields Payload Event
  | .raw data => .raw data
  | .init => .init
  | .sendMessage destNodes remoteDestModule payload =>
    .sendMessage destNodes remoteDestModule (.raw payload)
  | .messageReceived sender payload => .messageReceived sender (.raw payload)
  | .timerDelay events delay => .timerDelay (events.map Raw.event) delay
  | .timerRepeat events period retentionIndex =>
    .timerRepeat (events.map Raw.event) period retentionIndex
  | .newSubmodule submoduleID params retentionIndex =>
    .newSubmodule submoduleID (.raw params) retentionIndex
  | .garbageCollect retentionIndex => .garbageCollect retentionIndex
  | .testString value => .testString value
  | .testUint64 value => .testUint64 value

/-- `Deserialize`. -/
def JSON.deserialize (J : JSON) (data : ByteSlice) : Option Event := do
  let se ← readMembers (← J.parse data.bytes)
  let evType ← EventType.ofName? (← readString (member "EvType" se))
  let e ← J.readObject evType (← member? "EvData" se)
  return .std e.mirEvent (restore e.fields)

/-! ### Strings and the JSON library -/

def MirEvent.Valid (m : MirEvent) : Prop := m.srcModule.ValidUTF8 ∧ m.destModule.ValidUTF8

/-- The strings among the fields. -/
def Fields.strings : Fields P E → List GoString
  | .sendMessage destNodes remoteDestModule _ => remoteDestModule :: destNodes.getD []
  | .messageReceived sender _ => [sender]
  | .newSubmodule submoduleID _ _ => [submoduleID]
  | .testString value => [value]
  | _ => []

/-- The events inside an event. -/
def Fields.events : Fields P E → List E
  | .timerDelay events _ => events
  | .timerRepeat events _ _ => events
  | _ => []

/-- All strings of an event and of the events inside are valid. -/
inductive Event.Valid : Event → Prop
  | std {m : MirEvent} {f : Fields Payload Event} (modules : m.Valid)
      (strings : ∀ s ∈ f.strings, s.ValidUTF8) (events : ∀ e ∈ f.events, e.Valid) :
      (Event.std m f).Valid
  | other {m : MirEvent} {toBytes : Option ByteSlice} (modules : m.Valid) :
      (Event.other m toBytes).Valid

/-- All strings of a structure are valid. -/
structure Structure.Valid (e : Structure) : Prop where
  modules : e.mirEvent.Valid
  strings : ∀ s ∈ e.fields.strings, s.ValidUTF8
  events : ∀ r ∈ e.fields.events, r.mirEvent.Valid

/-- What is assumed of the JSON library: it reads back valid strings, integers and byte slices. -/
structure JSON.RoundTrips (J : JSON) : Prop where
  strings : ∀ s : GoString, s.ValidUTF8 → J.ReadsString s
  integers : J.ReadsInts
  bytes : ∀ b, J.ReadsString (J.base64 b) ∧ J.unbase64 (J.base64 b) = some b

theorem exists_roundTrips : ∃ J : JSON, J.RoundTrips := by
  obtain ⟨c, hc⟩ := exists_prefixFree_codec (α := GoString) (show (0 : UInt8) ≠ 1 by decide)
  obtain ⟨d, hd⟩ := exists_prefixFree_codec (α := ℤ) (show (48 : UInt8) ≠ 49 by decide)
  obtain ⟨readString, hstring⟩ := hc.exists_read
  obtain ⟨readInt, hint⟩ := hd.exists_read
  refine ⟨⟨⟨c.encode, readString, fun n => 48 :: d.encode n, fun t => readInt t.tail⟩, id, some⟩,
    fun s _ => hstring s, fun n => ⟨⟨48, d.encode n, rfl, by decide⟩, fun rest _ => hint n rest⟩,
    fun b => ⟨hstring b, rfl⟩⟩

variable {J : JSON}

theorem JSON.RoundTrips.readBytes_bytes (hJ : J.RoundTrips) (b : ByteSlice) :
    J.readBytes (J.bytes b) = some b := by
  cases b with
  | none => rfl
  | some b => exact congrArg (Option.map some) (hJ.bytes b).2

theorem readUint64_int (n : UInt64) : readUint64 (.int n.toNat) = some n := by
  have hlt := n.toNat_lt
  rw [readUint64, if_pos (by omega)]
  exact congrArg some UInt64.ofNat_toNat

theorem readInt64_int (n : Int64) : readInt64 (.int n.toInt) = some n := by
  have hle := n.le_toInt
  have hlt := n.toInt_lt
  rw [readInt64, if_pos (by omega), Int64.ofInt_toInt]

theorem readStrings_stringSlice (l : Option (List GoString)) :
    readStrings (stringSlice l) = some l := by
  cases l with
  | none => rfl
  | some l =>
    have hmap : (l.map Value.string).mapM readString = some l := by
      induction l with
      | nil => rfl
      | cons s l ih => simp [readString, ih]
    rw [stringSlice, readStrings, hmap]
    rfl

theorem JSON.RoundTrips.readRaws_raws (hJ : J.RoundTrips) (l : List Raw) :
    J.readRaws (.array (l.map J.raw)) = some l := by
  rw [readRaws]
  induction l with
  | nil => rfl
  | cons r l ih =>
    have hraw : J.readRaw (J.raw r) = (J.readBytes (J.bytes r.data)).bind fun data =>
      some ⟨r.mirEvent, data⟩ := rfl
    rw [hJ.readBytes_bytes] at hraw
    simp [hraw, ih]

/-- The fields of a structure are found under their names. -/
theorem JSON.RoundTrips.readFields_members (hJ : J.RoundTrips) (m : MirEvent)
    (f : Fields ByteSlice Raw) : J.readFields (J.members ⟨m, f⟩) f.evType = some f := by
  cases f with
  | raw data =>
    show (J.readBytes (J.bytes data)).bind _ = _
    rw [hJ.readBytes_bytes]
    rfl
  | init => rfl
  | sendMessage destNodes remoteDestModule payload =>
    show (readStrings (stringSlice destNodes)).bind
      (fun _ => (J.readBytes (J.bytes payload)).bind _) = _
    rw [readStrings_stringSlice, hJ.readBytes_bytes]
    rfl
  | messageReceived sender payload =>
    show (J.readBytes (J.bytes payload)).bind _ = _
    rw [hJ.readBytes_bytes]
    rfl
  | timerDelay events delay =>
    show (J.readRaws (.array (events.map J.raw))).bind (fun _ => (readInt64 (.int delay.toInt)).bind _)
      = _
    rw [hJ.readRaws_raws, readInt64_int]
    rfl
  | timerRepeat events period retentionIndex =>
    show (J.readRaws (.array (events.map J.raw))).bind (fun _ => (readInt64 (.int period.toInt)).bind
      fun _ => (readUint64 (.int retentionIndex.toNat)).bind _) = _
    rw [hJ.readRaws_raws, readInt64_int, readUint64_int]
    rfl
  | newSubmodule submoduleID params retentionIndex =>
    show (J.readBytes (J.bytes params)).bind (fun _ =>
      (readUint64 (.int retentionIndex.toNat)).bind _) = _
    rw [hJ.readBytes_bytes, readUint64_int]
    rfl
  | garbageCollect retentionIndex =>
    have hmember : member "RetentionIndex" (J.members ⟨m, .garbageCollect retentionIndex⟩) =
      .int retentionIndex.toNat := rfl
    rw [Fields.evType, readFields, hmember, readUint64_int]
    rfl
  | testString value => rfl
  | testUint64 value =>
    have hmember : member "Value" (J.members ⟨m, .testUint64 value⟩) = .int value.toNat := rfl
    rw [Fields.evType, readFields, hmember, readUint64_int]
    rfl

/-- **Every structure is read back from its object**, field by field. -/
theorem JSON.RoundTrips.readObject_members (hJ : J.RoundTrips) (e : Structure) :
    J.readObject e.fields.evType (.object (J.members e)) = some e := by
  obtain ⟨m, f⟩ := e
  have hm : readMirEvent (J.members ⟨m, f⟩) = some m := by
    cases f <;> rfl
  show (readMirEvent _).bind _ = _
  rw [hm, Option.bind_some, hJ.readFields_members]
  rfl

theorem ofName?_name (evType : EventType) : EventType.ofName? evType.name = some evType := by
  cases evType <;> rfl

theorem validUTF8_lit (s : String) : (lit s).ValidUTF8 := by
  simpa [GoString.ValidUTF8, lit] using s.isValidUTF8

theorem JSON.RoundTrips.valid_bytes (hJ : J.RoundTrips) (b : ByteSlice) : J.Valid (J.bytes b) := by
  cases b with
  | none => exact .null
  | some b => exact .string (hJ.bytes b).1

theorem valid_stringSlice {l : Option (List GoString)} (h : ∀ s ∈ l.getD [], J.Valid (.string s)) :
    J.Valid (stringSlice l) := by
  cases l with
  | none => exact .null
  | some l => exact .array (List.forall_mem_map.mpr h)

theorem JSON.RoundTrips.valid_named (hJ : J.RoundTrips) {fields : List (String × Value)}
    (h : ∀ f ∈ fields, J.Valid f.2) : J.Valid (.object (named fields)) :=
  .object (List.forall_mem_map.mpr fun f _ => hJ.strings _ (validUTF8_lit f.1))
    (List.forall_mem_map.mpr h)

theorem JSON.RoundTrips.valid_mirEvent (hJ : J.RoundTrips) {m : MirEvent} (hm : m.Valid) :
    ∀ f ∈ m.json, J.Valid f.2 := by
  simp [MirEvent.json, Leaves.Valid.string (hJ.strings _ hm.1), Leaves.Valid.string (hJ.strings _ hm.2)]

theorem JSON.RoundTrips.valid_raw (hJ : J.RoundTrips) {r : Raw} (hr : r.mirEvent.Valid) :
    J.Valid (J.raw r) :=
  hJ.valid_named (List.forall_mem_append.mpr
    ⟨hJ.valid_mirEvent hr, List.forall_mem_singleton.mpr (hJ.valid_bytes r.data)⟩)

/-- All strings that are written for a structure are read back. -/
theorem JSON.RoundTrips.valid_serializedEvent (hJ : J.RoundTrips) {e : Structure}
    (he : Structure.Valid e) : J.Valid (J.serializedEvent e) := by
  obtain ⟨m, f⟩ := e
  have hstrings : ∀ s ∈ f.strings, J.Valid (.string s) :=
    fun s hs => .string (hJ.strings s (he.strings s hs))
  have hraws : J.Valid (.array (f.events.map J.raw)) :=
    .array (List.forall_mem_map.mpr fun r hr => hJ.valid_raw (he.events r hr))
  have hfields : ∀ x ∈ J.fields f, J.Valid x.2 := by
    cases f <;> simp_all [JSON.fields, Fields.strings, Fields.events, hJ.valid_bytes,
      valid_stringSlice, Leaves.Valid.int]
  have hobject : J.Valid (.object (J.members ⟨m, f⟩)) :=
    hJ.valid_named (List.forall_mem_append.mpr ⟨hJ.valid_mirEvent he.modules, hfields⟩)
  have hname : f.evType.name.ValidUTF8 := by
    cases f <;> exact validUTF8_lit _
  refine hJ.valid_named (List.forall_mem_cons.mpr ⟨?_, List.forall_mem_singleton.mpr hobject⟩)
  exact .string (hJ.strings _ hname)

/-! ### Reading what was written -/

mutual

/-- The bytes of an event are read as the same event, up to what was replaced. -/
def Restores (J : JSON) : Event → ByteSlice → Prop
  | .std m f, data => ∃ f', J.deserialize data = some (.std m f') ∧ SameFields J f f'
  | .other _ toBytes, data => toBytes = some data

/-- The fields are the same, with raw bytes for payloads and parameters and `Raw` events for events. -/
def SameFields (J : JSON) : Fields Payload Event → Fields Payload Event → Prop
  | .sendMessage destNodes remoteDestModule payload, f' => ∃ data, payload.toBytes = some data ∧
    f' = .sendMessage destNodes remoteDestModule (.raw data)
  | .messageReceived sender payload, f' => ∃ data, payload.toBytes = some data ∧
    f' = .messageReceived sender (.raw data)
  | .newSubmodule submoduleID params retentionIndex, f' => ∃ data, params.toBytes = some data ∧
    f' = .newSubmodule submoduleID (.raw data) retentionIndex
  | .timerDelay events delay, f' => ∃ events', SameEvents J events events' ∧
    f' = .timerDelay events' delay
  | .timerRepeat events period retentionIndex, f' => ∃ events', SameEvents J events events' ∧
    f' = .timerRepeat events' period retentionIndex
  | .raw data, f' => f' = .raw data
  | .init, f' => f' = .init
  | .garbageCollect retentionIndex, f' => f' = .garbageCollect retentionIndex
  | .testString value, f' => f' = .testString value
  | .testUint64 value, f' => f' = .testUint64 value

/-- Each event is replaced by a `Raw` event with the same modules, whose data restore it. -/
def SameEvents (J : JSON) : List Event → List Event → Prop
  | [], events' => events' = []
  | e :: events, events' => ∃ data rest, Restores J e data ∧ SameEvents J events rest ∧
    events' = .std e.mirEvent (.raw data) :: rest

end

variable {m : MirEvent} {f : Fields Payload Event} {data : ByteSlice}

/-- A structure whose strings are valid is read back. -/
theorem JSON.RoundTrips.deserialize_serialize (hJ : J.RoundTrips) {e : Structure}
    (he : Structure.Valid e) :
    J.deserialize (J.serialize e) = some (.std e.mirEvent (restore e.fields)) := by
  have hparse := Leaves.parse_write hJ.integers (hJ.valid_serializedEvent he)
  rw [JSON.deserialize, JSON.serialize, ByteSlice.bytes_some, hparse]
  show (EventType.ofName? e.fields.evType.name).bind
    (fun evType => (J.readObject evType (.object (J.members e))).bind _) = _
  rw [ofName?_name, Option.bind_some, hJ.readObject_members]
  rfl

theorem Event.Valid.mirEvent {e : Event} (he : e.Valid) : e.mirEvent.Valid := by
  cases he with
  | std modules => exact modules
  | other modules => exact modules

mutual

/-- **Every event is restored.** -/
theorem restores_of_toBytes (hJ : J.RoundTrips) :
    ∀ (e : Event) (data : ByteSlice), e.Valid → e.toBytes J = some data → Restores J e data
  | .std m f, data, he, hdata => by
    obtain ⟨s, hs, hserialize⟩ := Option.bind_eq_some_iff.mp hdata
    cases he with
    | std modules strings events =>
      cases hserialize
      obtain ⟨hsame, hstrings, hevents⟩ := sameFields_of_serializable hJ f s events hs
      exact ⟨restore s, hJ.deserialize_serialize ⟨modules, hstrings ▸ strings, hevents⟩, hsame⟩
  | .other _ toBytes, data, _, hdata => hdata

/-- What is written of the fields is read as the same fields. -/
theorem sameFields_of_serializable (hJ : J.RoundTrips) :
    ∀ (f : Fields Payload Event) (s : Fields ByteSlice Raw), (∀ e ∈ f.events, e.Valid) →
      serializable J f = some s → SameFields J f (restore s) ∧ s.strings = f.strings ∧
        ∀ r ∈ s.events, r.mirEvent.Valid
  | .timerDelay events delay, s, hevents, hs => by
    obtain ⟨raws, hraws, hs⟩ := Option.bind_eq_some_iff.mp hs
    cases hs
    obtain ⟨hsame, hvalid⟩ := sameEvents_of_wrapAll hJ events raws hevents hraws
    exact ⟨⟨_, hsame, rfl⟩, rfl, hvalid⟩
  | .timerRepeat events period retentionIndex, s, hevents, hs => by
    obtain ⟨raws, hraws, hs⟩ := Option.bind_eq_some_iff.mp hs
    cases hs
    obtain ⟨hsame, hvalid⟩ := sameEvents_of_wrapAll hJ events raws hevents hraws
    exact ⟨⟨_, hsame, rfl⟩, rfl, hvalid⟩
  | .sendMessage .., s, _, hs | .messageReceived .., s, _, hs | .newSubmodule .., s, _, hs => by
    obtain ⟨data, hdata, hs⟩ := Option.bind_eq_some_iff.mp hs
    cases hs
    exact ⟨⟨data, hdata, rfl⟩, rfl, nofun⟩
  | .raw .., s, _, hs | .init, s, _, hs | .garbageCollect .., s, _, hs | .testString .., s, _, hs
  | .testUint64 .., s, _, hs => by
    cases hs
    exact ⟨rfl, rfl, nofun⟩

/-- The events of a timer are replaced by `Raw` events that restore them. -/
theorem sameEvents_of_wrapAll (hJ : J.RoundTrips) :
    ∀ (events : List Event) (raws : List Raw), (∀ e ∈ events, e.Valid) →
      wrapAll J events = some raws → SameEvents J events (raws.map Raw.event) ∧
        ∀ r ∈ raws, r.mirEvent.Valid
  | [], raws, _, hraws => by
    cases hraws
    exact ⟨rfl, nofun⟩
  | e :: events, raws, hvalid, hraws => by
    obtain ⟨data, hdata, hraws⟩ := Option.bind_eq_some_iff.mp hraws
    obtain ⟨rest, hrest, hraws⟩ := Option.bind_eq_some_iff.mp hraws
    cases hraws
    obtain ⟨he, hevents⟩ := List.forall_mem_cons.mp hvalid
    obtain ⟨hsame, hrestValid⟩ := sameEvents_of_wrapAll hJ events rest hevents hrest
    exact ⟨⟨data, _, restores_of_toBytes hJ e data he hdata, hsame, rfl⟩,
      List.forall_mem_cons.mpr ⟨he.mirEvent, hrestValid⟩⟩

end

/-- What has been read is turned into the same structure, if there are no events inside. -/
theorem serializable_restore (hevents : f.events = []) {s : Fields ByteSlice Raw}
    (hs : serializable J f = some s) : serializable J (restore s) = some s := by
  cases f with
  | timerDelay events | timerRepeat events =>
    obtain rfl : events = [] := hevents
    cases hs
    rfl
  | sendMessage | messageReceived | newSubmodule =>
    obtain ⟨data, -, hs⟩ := Option.bind_eq_some_iff.mp hs
    cases hs
    rfl
  | raw | init | garbageCollect | testString | testUint64 =>
    cases hs
    rfl

/-- **Serialising standard events and reading them back.** For every event of every type whose strings are
valid UTF-8, `Deserialize` reads what `ToBytes` has written as an event of the same type that is equal up
to what was replaced. Without events inside, serialising the result again gives the same bytes. -/
theorem deserialize_toBytes (hJ : J.RoundTrips) (hvalid : (Event.std m f).Valid)
    (hdata : (Event.std m f).toBytes J = some data) :
    ∃ f', J.deserialize data = some (.std m f') ∧ SameFields J f f' ∧
      (f.events = [] → (Event.std m f').toBytes J = some data) := by
  obtain ⟨s, hs, hserialize⟩ := Option.bind_eq_some_iff.mp hdata
  cases hvalid with
  | std modules strings events =>
    cases hserialize
    obtain ⟨hsame, hstrings, hvalid⟩ := sameFields_of_serializable hJ f s events hs
    refine ⟨restore s, hJ.deserialize_serialize ⟨modules, hstrings ▸ strings, hvalid⟩, hsame,
      fun hevents => ?_⟩
    rw [Event.toBytes, serializable_restore hevents hs]
    rfl

/-- The modules of an event from a to b. -/
def fromAToB : MirEvent := ⟨lit "a", lit "b"⟩

/-- The fields of a timer's event with a `Raw` event inside. -/
def delayedRaw (data : ByteSlice) : Fields Payload Event := .timerDelay [Raw.event ⟨fromAToB, data⟩] 7

/-- The event is written with the bytes of the `Raw` event inside. -/
theorem delayedRaw_toBytes (hJ : J.RoundTrips) (d : ByteSlice) :
    (Event.std fromAToB (delayedRaw d)).Valid ∧ ∃ inner data : Bytes,
      J.deserialize (some inner) = some (Raw.event ⟨fromAToB, d⟩) ∧
      (Event.std fromAToB (delayedRaw d)).toBytes J = some (some data) ∧
      J.deserialize (some data) = some (.std fromAToB (delayedRaw (some inner))) := by
  have hm : fromAToB.Valid := ⟨validUTF8_lit "a", validUTF8_lit "b"⟩
  have hraw : Structure.Valid ⟨fromAToB, .raw d⟩ := ⟨hm, nofun, nofun⟩
  have htimer : ∀ inner, Structure.Valid ⟨fromAToB, .timerDelay [⟨fromAToB, inner⟩] 7⟩ :=
    fun _ => ⟨hm, nofun, List.forall_mem_singleton.mpr hm⟩
  exact ⟨.std hm nofun (List.forall_mem_singleton.mpr (.std hm nofun nofun)), _, _,
    hJ.deserialize_serialize hraw, rfl, hJ.deserialize_serialize (htimer _)⟩

theorem deserialize_toBytes_delayedRaw : ∃ (J : JSON) (data : ByteSlice) (f' : Fields Payload Event),
    J.RoundTrips ∧ (Event.std fromAToB (delayedRaw none)).toBytes J = some data ∧
      J.deserialize data = some (.std fromAToB f') ∧ SameFields J (delayedRaw none) f' := by
  obtain ⟨J, hJ⟩ := exists_roundTrips
  obtain ⟨hvalid, -, data, -, hdata, -⟩ := delayedRaw_toBytes hJ none
  obtain ⟨f', hread, hsame, -⟩ := deserialize_toBytes hJ hvalid hdata
  exact ⟨J, some data, f', hJ, hdata, hread, hsame⟩

/-- The `Raw` event inside is wrapped once more when the result is serialised again, so the bytes change,
whatever the JSON library writes. -/
theorem delayedRaw_bytes_change : (∃ J : JSON, J.RoundTrips) ∧ ∀ J : JSON, J.RoundTrips →
    ∃ data e' data', (Event.std fromAToB (delayedRaw none)).toBytes J = some data ∧
      J.deserialize data = some e' ∧ e'.toBytes J = some data' ∧ data' ≠ data := by
  refine ⟨exists_roundTrips, fun J hJ => ?_⟩
  obtain ⟨-, inner, data, hinner, hdata, hread⟩ := delayedRaw_toBytes hJ none
  obtain ⟨-, inner', data', hinner', hdata', hread'⟩ := delayedRaw_toBytes hJ (some inner)
  refine ⟨some data, _, some data', hdata, hread, hdata', ?_⟩
  rintro ⟨⟩
  -- the same bytes would be read as two different events
  rw [hread] at hread'
  obtain rfl : inner = inner' := by simpa [delayedRaw, Raw.event] using hread'
  rw [hinner] at hinner'
  simp [Raw.event] at hinner'

end Mir.StdEvents
