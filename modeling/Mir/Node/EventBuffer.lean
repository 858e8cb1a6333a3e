import Mir.Events.Types

/-!
# The node's event buffer

`eventBuffer`: one list of outstanding events for each module, and the number of all of them. An event
is added to the list of the module at the top of its destination; an event for no module of the node is
dropped. Adding events appends to each list exactly the events for its module, in order
(`lookup_pushAll`), and keeps the number (`EventBuffer.Counted`).
-/

namespace Mir.EventLoop

open Events

/-- `eventBuffer`. -/
structure EventBuffer where
  buffers : GoMap ModuleID (List Event)
  totalEvents : ℤ

/-- `newEventBuffer`. -/
def newEventBuffer (modules : List ModuleID) : EventBuffer := ⟨GoMap.ofKeys modules fun _ => [], 0⟩

namespace EventBuffer

/-- One iteration of `Add`. -/
def push (eb : EventBuffer) (event : Event) : EventBuffer :=
  match eb.buffers.lookup event.dest.top with
  | some buffer => ⟨eb.buffers.insert event.dest.top (buffer ++ [event]), eb.totalEvents + 1⟩
  | none => eb

/-- `Add`. -/
def add (eb : EventBuffer) (events : EventList) : Fallible EventBuffer := do
  let events ← EventList.events events
  return events.foldl push eb

/-- The events that are outstanding for a module. -/
def buffer (eb : EventBuffer) (m : ModuleID) : List Event := (eb.buffers.lookup m).getD []

end EventBuffer

/-- The events of a list for a module. -/
def routed (m : ModuleID) (events : List Event) : List Event :=
  events.filter fun event => decide (event.dest.top = m)

theorem routed_append (m : ModuleID) (events events' : List Event) :
    routed m (events ++ events') = routed m events ++ routed m events' := List.filter_append ..

namespace EventBuffer

variable {eb eb' : EventBuffer} {modules : List ModuleID}

theorem add_eq_ok_iff {events : EventList} :
    eb.add events = .ok eb' ↔ ∃ evs, events = listOf evs ∧ eb' = evs.foldl push eb := by
  rw [add, Fallible.bind_eq_ok]
  refine exists_congr fun evs => ?_
  rw [events_eq_ok_iff]
  exact and_congr_right fun _ => ⟨fun h => (Except.ok.inj h).symm, fun h => h ▸ rfl⟩

theorem lookup_push (eb : EventBuffer) (event : Event) (m : ModuleID) :
    (eb.push event).buffers.lookup m = (eb.buffers.lookup m).map (· ++ routed m [event]) := by
  rw [push]
  cases hlookup : eb.buffers.lookup event.dest.top with
  | some buffer =>
    change (eb.buffers.insert _ _).lookup m = _
    rw [GoMap.lookup_insert_eq]
    by_cases hm : m = event.dest.top
    · subst hm
      simp [hlookup, routed]
    · have hm' : ¬ event.dest.top = m := fun heq => hm heq.symm
      simp [hm, hm', routed]
  | none =>
    by_cases hm : m = event.dest.top
    · subst hm
      simp [hlookup]
    · have hm' : ¬ event.dest.top = m := fun heq => hm heq.symm
      simp [hm', routed]

/-- **Adding events** appends to the list of each module the events for it. -/
theorem lookup_pushAll (eb : EventBuffer) (events : List Event) (m : ModuleID) :
    (events.foldl push eb).buffers.lookup m =
      (eb.buffers.lookup m).map (· ++ routed m events) := by
  induction events generalizing eb with
  | nil => simp [routed]
  | cons event events ih =>
    rw [List.foldl_cons, ih, lookup_push, Option.map_map]
    have hcons : routed m (event :: events) = routed m [event] ++ routed m events :=
      routed_append m [event] events
    simp [hcons, Function.comp_def]

/-- There is a list for each module of the node. -/
def For (modules : List ModuleID) (eb : EventBuffer) : Prop :=
  ∀ m, (eb.buffers.lookup m).isSome = decide (m ∈ modules)

theorem for_new (modules : List ModuleID) : For modules (newEventBuffer modules) := by
  intro m
  rw [newEventBuffer, GoMap.lookup_ofKeys]
  split <;> simp_all

theorem For.pushAll (h : For modules eb) (events : List Event) :
    For modules (events.foldl push eb) := by
  intro m
  rw [lookup_pushAll, Option.isSome_map]
  exact h m

theorem For.lookup_eq (h : For modules eb) {m : ModuleID} (hm : m ∈ modules) :
    eb.buffers.lookup m = some (eb.buffer m) := by
  have hsome : (eb.buffers.lookup m).isSome = true := by rw [h m, decide_eq_true hm]
  obtain ⟨buffer, hbuffer⟩ := Option.isSome_iff_exists.mp hsome
  rw [EventBuffer.buffer, hbuffer, Option.getD_some]

theorem For.buffer_pushAll (h : For modules eb) {m : ModuleID} (hm : m ∈ modules)
    (events : List Event) : (events.foldl push eb).buffer m = eb.buffer m ++ routed m events := by
  rw [EventBuffer.buffer, lookup_pushAll, h.lookup_eq hm]
  rfl

/-! ### The number of outstanding events -/

/-- A sum after one term has changed. -/
theorem sum_map_change {l : List ModuleID} (hnodup : l.Nodup) {x : ModuleID} (hx : x ∈ l)
    {f g : ModuleID → ℤ} (hother : ∀ y ∈ l, y ≠ x → g y = f y) :
    (l.map g).sum = (l.map f).sum + (g x - f x) := by
  induction l with
  | nil => cases hx
  | cons y l ih =>
    obtain ⟨hy, hnodup⟩ := List.nodup_cons.mp hnodup
    rw [List.map_cons, List.map_cons, List.sum_cons, List.sum_cons]
    rcases List.mem_cons.mp hx with rfl | hx'
    · have hsame : l.map g = l.map f := List.map_congr_left fun z hz =>
        hother z (List.mem_cons_of_mem _ hz) fun heq => hy (heq ▸ hz)
      rw [hsame]
      omega
    · have hne : y ≠ x := fun heq => hy (heq ▸ hx')
      rw [ih hnodup hx' fun z hz => hother z (List.mem_cons_of_mem _ hz),
        hother y List.mem_cons_self hne]
      omega

/-- `totalEvents` is the sum of the lengths of all lists. -/
def Counted (modules : List ModuleID) (eb : EventBuffer) : Prop :=
  eb.totalEvents = (modules.map fun m => ((eb.buffer m).length : ℤ)).sum

theorem counted_new (modules : List ModuleID) : Counted modules (newEventBuffer modules) := by
  have hzero : ∀ m, ((newEventBuffer modules).buffer m).length = 0 := by
    intro m
    rw [EventBuffer.buffer, newEventBuffer, GoMap.lookup_ofKeys]
    split <;> rfl
  have htotal : (newEventBuffer modules).totalEvents = 0 := rfl
  simp [Counted, hzero, htotal]

/-- An event for a module of the node is counted, another one is dropped. -/
theorem totalEvents_push (hfor : For modules eb) (event : Event) :
    (eb.push event).totalEvents =
      eb.totalEvents + if event.dest.top ∈ modules then 1 else 0 := by
  have hsome := hfor event.dest.top
  rw [push]
  cases hlookup : eb.buffers.lookup event.dest.top with
  | some buffer =>
    rw [hlookup] at hsome
    rw [if_pos (of_decide_eq_true hsome.symm)]
  | none =>
    rw [hlookup] at hsome
    rw [if_neg (of_decide_eq_false hsome.symm), add_zero]

theorem Counted.push (h : Counted modules eb) (hfor : For modules eb) (hnodup : modules.Nodup)
    (event : Event) : Counted modules (eb.push event) := by
  have hbuffer : ∀ m ∈ modules, (eb.push event).buffer m = eb.buffer m ++ routed m [event] :=
    fun m hm => hfor.buffer_pushAll hm [event]
  rw [Counted, totalEvents_push hfor, h]
  by_cases hm : event.dest.top ∈ modules
  · have hlen : ((eb.push event).buffer event.dest.top).length =
        (eb.buffer event.dest.top).length + 1 := by
      rw [hbuffer _ hm]
      simp [routed]
    have hsum := sum_map_change hnodup hm
      (f := fun m => ((eb.buffer m).length : ℤ))
      (g := fun m => (((eb.push event).buffer m).length : ℤ)) fun m hm' hne => by
        have hne' : ¬ event.dest.top = m := fun heq => hne heq.symm
        simp [hbuffer m hm', routed, hne']
    rw [if_pos hm, hsum, hlen]
    push_cast
    omega
  · have hsame : ∀ m ∈ modules, (eb.push event).buffer m = eb.buffer m := by
      intro m hm'
      have hne : ¬ event.dest.top = m := fun heq => hm (heq ▸ hm')
      simp [hbuffer m hm', routed, hne]
    rw [if_neg hm, add_zero]
    exact congrArg List.sum (List.map_congr_left fun m hm' => by rw [hsame m hm'])

theorem Counted.pushAll (h : Counted modules eb) (hfor : For modules eb) (hnodup : modules.Nodup)
    (events : List Event) : Counted modules (events.foldl EventBuffer.push eb) := by
  induction events generalizing eb with
  | nil => exact h
  | cons event events ih => exact ih (h.push hfor hnodup event) (hfor.pushAll [event])

/-- The number of events that are added. -/
theorem totalEvents_pushAll (hfor : For modules eb) (events : List Event) :
    (events.foldl push eb).totalEvents = eb.totalEvents +
      (events.filter fun event => decide (event.dest.top ∈ modules)).length := by
  induction events generalizing eb with
  | nil => simp
  | cons event events ih =>
    have hfor' : For modules (eb.push event) := hfor.pushAll [event]
    rw [List.foldl_cons, ih hfor', totalEvents_push hfor]
    by_cases hm : event.dest.top ∈ modules
    · simp [hm]
      omega
    · simp [hm]

end EventBuffer

end Mir.EventLoop
