import Mir.Net.Transport
import Mir.Node.EventLoop

/-!
# The gRPC transport: receiving

`readAndProcessMessages` turns each message that arrives on a connection into an event, and hands it to
the node in a list of its own. If the context of the connection ends while it waits for the node to
take the list, the message is ignored.

A message without a payload type matches no case of the type switch. The event stays `nil`, the list
that is handed over has a `nil` element, and the event loop of the node panics on it:
`empty_message_panics`. If exactly the messages with a payload are handed over, the loop routes all of
them: `input_safe_iff`.
-/

namespace Mir.Net

open Events EventLoop

/-- A message that is received from a connection, and whether the node takes the list with its event
before the context of the connection ends. -/
structure Arrival where
  grpcMsg : GrpcMessage
  taken : Bool

/-- The event for a message; `none` is `nil`. -/
def rcvEvent (grpcMsg : GrpcMessage) : Option Event :=
  match grpcMsg.type with
  | some (.pbMsg msg) =>
    some (.pb msg.destModule (.transport (.messageReceived grpcMsg.sender msg)))
  | some (.rawMsg destModule data) =>
    some (.std destModule (.messageReceived grpcMsg.sender (rawMessage data)))
  | none => none

/-- `readAndProcessMessages`: the lists that the node takes. -/
def readAndProcessMessages (arrivals : List Arrival) : List EventList :=
  (arrivals.filter Arrival.taken).map fun a => [rcvEvent a.grpcMsg]

/-- The event reports the message, with its sender and destination module. -/
def Carries (grpcMsg : GrpcMessage) : Event → Prop
  | .pb dest (.transport (.messageReceived sender msg)) =>
    grpcMsg.type = some (.pbMsg msg) ∧ dest = msg.destModule ∧ sender = grpcMsg.sender
  | .std dest (.messageReceived sender payload) =>
    ∃ data, grpcMsg.type = some (.rawMsg dest data) ∧ sender = grpcMsg.sender ∧
      payload = rawMessage data
  | _ => False

/-- The messages that have a payload, in the order of arrival. -/
def withPayload (arrivals : List Arrival) : List GrpcMessage :=
  (arrivals.filter fun a => a.grpcMsg.type.isSome).map Arrival.grpcMsg

/-- Network input does not break the event loop: the node is handed one event for each message with a
payload, in order, and adding any of the lists completes, whatever the state of the node is. It drops
only events for modules that do not exist. -/
structure InputSafe (arrivals : List Arrival) : Prop where
  handed : List.Forall₂ (fun msg list => ∃ event, list = listOf [event] ∧ Carries msg event)
    (withPayload arrivals) (readAndProcessMessages arrivals)
  routed : ∀ list ∈ readAndProcessMessages arrivals, ∀ (c : NodeConfig) (n : Node),
    ∃ n' events, n.receive c list = .ok n' ∧ list = listOf events ∧
      ∀ m, n'.pendingEvents.buffers.lookup m =
        (n.pendingEvents.buffers.lookup m).map (· ++ EventLoop.routed m events)

theorem carries_rcvEvent {msg : GrpcMessage} (h : msg.type.isSome) :
    ∃ event, rcvEvent msg = some event ∧ Carries msg event := by
  rw [rcvEvent]
  match htype : msg.type, h with
  | some (.pbMsg pbMsg), _ => exact ⟨_, rfl, htype, rfl, rfl⟩
  | some (.rawMsg destModule data), _ => exact ⟨_, rfl, data, htype, rfl, rfl⟩

theorem isSome_type_of_rcvEvent {msg : GrpcMessage} {event : Event}
    (h : rcvEvent msg = some event) : msg.type.isSome = true := by
  rw [rcvEvent] at h
  cases htype : msg.type with
  | none =>
    rw [htype] at h
    cases h
  | some type => rfl

/-- Adding a list without `nil` completes, from any state of the node. -/
theorem receive_listOf (c : NodeConfig) (n : Node) (events : List Event) :
    ∃ n', n.receive c (listOf events) = .ok n' ∧ ∀ m, n'.pendingEvents.buffers.lookup m =
      (n.pendingEvents.buffers.lookup m).map (· ++ routed m events) := by
  have hadd : n.pendingEvents.add (listOf events) = .ok (events.foldl .push n.pendingEvents) :=
    EventBuffer.add_eq_ok_iff.mpr ⟨events, rfl, rfl⟩
  refine ⟨_, Fallible.bind_eq_ok.mpr ⟨_, hadd, rfl⟩, fun m => ?_⟩
  exact EventBuffer.lookup_pushAll n.pendingEvents events m

/-- Of two properties, one of which implies the other on a list, that hold equally often. -/
theorem imp_of_length_filter_eq {p q : Arrival → Bool} {l : List Arrival}
    (himp : ∀ a ∈ l, p a = true → q a = true)
    (hlen : (l.filter p).length = (l.filter q).length) : ∀ a ∈ l, p a = q a := by
  have hsub : l.filter p = (l.filter q).filter p := by
    rw [List.filter_filter]
    refine List.filter_congr fun a ha => ?_
    cases hp : p a with
    | false => rfl
    | true => rw [himp a ha hp, Bool.and_self]
  have heq : (l.filter q).filter p = l.filter q :=
    List.filter_sublist.eq_of_length (hsub ▸ hlen)
  intro a ha
  cases hq : q a with
  | false =>
    by_contra hp
    rw [himp a ha (Bool.eq_true_of_not_eq_false hp)] at hq
    cases hq
  | true => exact List.filter_eq_self.mp heq a (List.mem_filter.mpr ⟨ha, hq⟩)

/-- **Network input is safe** if and only if the node takes the events of exactly those messages that
have a payload. -/
theorem input_safe_iff (arrivals : List Arrival) :
    InputSafe arrivals ↔ ∀ a ∈ arrivals, a.taken = a.grpcMsg.type.isSome := by
  constructor
  · intro hsafe
    refine imp_of_length_filter_eq (fun a ha htaken => ?_) ?_
    · -- the list with the event has no `nil` element
      have hmem : [rcvEvent a.grpcMsg] ∈ readAndProcessMessages arrivals :=
        List.mem_map.mpr ⟨a, List.mem_filter.mpr ⟨ha, htaken⟩, rfl⟩
      obtain ⟨-, events, -, hlist, -⟩ := hsafe.routed _ hmem defaultNodeConfig
        ⟨newEventBuffer [], false, false, false, [], []⟩
      cases hevent : rcvEvent a.grpcMsg with
      | some event => exact isSome_type_of_rcvEvent hevent
      | none =>
        rw [hevent] at hlist
        cases events with
        | nil => cases hlist
        | cons event events => cases (List.cons.inj hlist).1
    · have hlen := hsafe.handed.length_eq
      rw [withPayload, readAndProcessMessages, List.length_map, List.length_map] at hlen
      exact hlen.symm
  · intro hall
    have hsame : arrivals.filter Arrival.taken =
        arrivals.filter fun a => a.grpcMsg.type.isSome := List.filter_congr hall
    refine ⟨?_, fun list hlist c n => ?_⟩
    · rw [withPayload, readAndProcessMessages, hsame, List.forall₂_map_left_iff,
        List.forall₂_map_right_iff, List.forall₂_same]
      intro a ha
      obtain ⟨event, hevent, hcarries⟩ := carries_rcvEvent (List.mem_filter.mp ha).2
      exact ⟨event, by rw [hevent]; rfl, hcarries⟩
    · rw [readAndProcessMessages, hsame] at hlist
      obtain ⟨a, ha, rfl⟩ := List.mem_map.mp hlist
      obtain ⟨event, hevent, -⟩ := carries_rcvEvent (List.mem_filter.mp ha).2
      obtain ⟨n', hreceive, hlookup⟩ := receive_listOf c n [event]
      rw [hevent]
      exact ⟨n', [event], hreceive, rfl, hlookup⟩

/-- A message without a payload makes the event loop panic. -/
theorem empty_message_panics : ¬ ∀ arrivals : List Arrival, (∀ a ∈ arrivals, a.taken = true) →
    InputSafe arrivals := by
  intro hall
  have hsafe := hall [⟨⟨[], none⟩, true⟩] (by simp)
  obtain ⟨n', -, hreceive, -⟩ := hsafe.routed [none] (List.mem_singleton.mpr rfl) defaultNodeConfig
    ⟨newEventBuffer [], false, false, false, [], []⟩
  cases hreceive

end Mir.Net
