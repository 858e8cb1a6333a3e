import Mir.Factory.Delivery
import Mir.Node.Modules

/-!
# Received messages that a module does not expect

A remote node chooses the destination and the type of the messages that it sends, and the transport
turns each of them into an event for the module that is named. The default handler of a DSL module
ignores protobuf messages that no handler is registered for, to protect the node. Raw messages are
reported by standard events, which it rejects (`raw_message_stops_node`), and the timer, the transport
and the factory reject both kinds. `tolerates_iff` says for every kind of module which messages it
tolerates.

A factory passes messages on to its submodules, also later, when one is created for which messages
are buffered. So it is considered in all states in which the messages it holds are among the given ones.
-/

namespace Mir.Modules

open Events Factory

variable {S : Type}

/-- A factory whose submodules report an event as unexpected only if they were given it. -/
structure FactoryModule (S : Type) where
  params : ModuleParams S
  reports : ∀ s events event, params.applyEvents s events = .error (.unexpected event) →
    event ∈ events
  generates : ∀ id args, Tolerant (params.generator id args)

/-- The received messages that a factory holds are in the given set. -/
structure Holds (E : Set Event) (s : State S) : Prop where
  collected : ∀ id, ∀ event ∈ s.collected id, event.dest = id ∧ (IsReceived event → event ∈ E)
  buffered : ReceivedIn E s.messageBuffer.messages

/-- The submodules tolerate the messages of the set that are for them. -/
def SubmodulesTolerant (p : ModuleParams S) (E : Set Event) : Prop :=
  ∀ id s events, (∀ event ∈ events, event.dest = id) → ReceivedIn E events →
    Tolerant (p.applyEvents s events)

variable {p : ModuleParams S} {E : Set Event} {s s' : State S} {ord : Order}

theorem holds_init (E : Set Event) (p : ModuleParams S) : Holds E (State.init p) := by
  refine ⟨fun id event hevent => ?_, nofun⟩
  rw [collected_eq_nil rfl] at hevent
  cases hevent

theorem Holds.congr (h : Holds E s) (heventBuffer : s'.eventBuffer = s.eventBuffer)
    (hmessages : ∀ event ∈ s'.messageBuffer.messages, event ∈ s.messageBuffer.messages) :
    Holds E s' := by
  refine ⟨fun id event hevent => ?_, fun event hevent => h.buffered event (hmessages event hevent)⟩
  rw [State.collected, heventBuffer] at hevent
  exact h.collected id event hevent

/-- What the buffer holds after early messages were stored. -/
theorem mem_messages_bufferEarlyMsgs {eventList : List Event} {event : Event}
    (h : event ∈ (bufferEarlyMsgs p s eventList).messageBuffer.messages) :
    event ∈ eventList ∨ event ∈ s.messageBuffer.messages := by
  induction eventList generalizing s with
  | nil => exact Or.inr h
  | cons e eventList ih =>
    rcases ih h with hmem | hmem
    · exact Or.inl (List.mem_cons_of_mem _ hmem)
    · rw [tryBuffering] at hmem
      split at hmem
      next =>
        rcases MessageBuffer.mem_of_mem_store p.protoSize hmem with rfl | hold
        · exact Or.inl List.mem_cons_self
        · exact Or.inr hold
      next => exact Or.inr hmem

theorem tolerant_call {submodule : Instance S} {eventList : List Event}
    (h : Tolerant (p.applyEvents submodule.state eventList)) :
    Tolerant (submodule.call p eventList) :=
  h.bind fun _ _ => tolerant_ok _

/-- Applying the collected events of a submodule. -/
theorem flushSubmodule_tolerant (hsub : SubmodulesTolerant p E)
    {acc : State S × List (List Event)} (h : Holds E acc.1) (smID : ModuleID) :
    Tolerant (flushSubmodule p acc smID) ∧
      ∀ acc', flushSubmodule p acc smID = .ok acc' → Holds E acc'.1 := by
  constructor
  · rw [flushSubmodule]
    split
    next => exact tolerant_ok _
    next submodule _ =>
      refine Tolerant.bind (tolerant_call ?_) fun _ _ => tolerant_ok _
      exact hsub smID submodule.state _ (fun event he => (h.collected smID event he).1)
        fun event he => (h.collected smID event he).2
  · intro acc' hacc'
    rcases flushSubmodule_cases hacc' with ⟨-, rfl⟩ | ⟨submodule, result, -, -, rfl⟩
    · obtain ⟨-, -, hbuffer⟩ := bufferEarlyMsgs_frame p acc.1 (acc.1.collected smID)
      refine ⟨fun id event hevent => ?_, fun event hevent hrec => ?_⟩
      · have hmem : event ∈ (bufferEarlyMsgs p acc.1 (acc.1.collected smID)).collected id := hevent
        rw [State.collected, hbuffer] at hmem
        exact h.collected id event hmem
      · rcases mem_messages_bufferEarlyMsgs hevent with hnew | hold
        · exact (h.collected smID event hnew).2 hrec
        · exact h.buffered event hold hrec
    · exact h.congr rfl fun _ hmem => hmem

theorem applySubmodulesEvents_tolerant (hsub : SubmodulesTolerant p E) (h : Holds E s) :
    Tolerant (applySubmodulesEvents p ord s) ∧
      ∀ s' out, applySubmodulesEvents p ord s = .ok (s', out) → Holds E s' := by
  constructor
  · refine Tolerant.bind ?_ fun _ _ => tolerant_ok _
    exact Tolerant.foldlM (I := fun acc => Holds E acc.1) h fun smID _ acc hacc =>
      flushSubmodule_tolerant hsub hacc smID
  · intro s' out happly
    obtain ⟨acc, hfold, happly⟩ := FallibleLoop.bind_ok_iff.mp happly
    cases happly
    have hacc : Holds E acc.1 := FallibleLoop.foldlM_induction
      (I := fun _ (acc : State S × List (List Event)) => Holds E acc.1) h
      (fun _ smID _ _ _ _ ht hstep => (flushSubmodule_tolerant hsub ht smID).2 _ hstep) hfold
    refine ⟨fun id event hevent => ?_, hacc.buffered⟩
    rw [collected_eq_nil rfl] at hevent
    cases hevent

/-- Creating a submodule: it is given its `Init` event and the messages that are buffered for it. -/
theorem newSubmodule_tolerant (f : FactoryModule S) (hsub : SubmodulesTolerant f.params E)
    (h : Holds E s) (id : ModuleID) (args : Bytes) (retIdx : RetentionIndex) :
    Tolerant (newSubmodule f.params s id args retIdx) ∧
      ∀ s' out, newSubmodule f.params s id args retIdx = .ok (s', out) → Holds E s' := by
  constructor
  · rw [newSubmodule]
    split
    next => exact fun _ _ h => by cases h
    next =>
      split
      next => exact tolerant_ok _
      next =>
        refine (f.generates id args).bind fun submodule _ => ?_
        refine Tolerant.bind (tolerant_call fun event hevent herr => ?_) fun initialized _ => ?_
        · -- the submodule could only reject `Init`
          rw [List.mem_singleton.mp (f.reports _ _ _ herr)] at hevent
          exact hevent
        · refine Tolerant.bind (tolerant_call ?_) fun _ _ => tolerant_ok _
          refine hsub id _ _ (fun event he => ?_) fun event he => ?_
          · exact of_decide_eq_true (List.mem_filter.mp he).2
          · exact h.buffered event (List.mem_of_mem_filter he)
  · intro s' out hnew
    rcases newSubmodule_cases hnew with ⟨-, rfl, -⟩ | ⟨-, _, _, _, -, -, rfl, -⟩
    · exact h
    · exact h.congr rfl fun event hmem => List.mem_of_mem_filter hmem

/-- One event: only a received message for the factory itself is rejected. -/
theorem applyEvent_tolerant (f : FactoryModule S) (hsub : SubmodulesTolerant f.params E)
    (hdest : ∀ event ∈ E, event.dest ≠ f.params.ownID) (h : Holds E s) {event : Event}
    (hevent : IsReceived event → event ∈ E) :
    Tolerant (applyEvent f.params ord s event) ∧
      ∀ s' out, applyEvent f.params ord s event = .ok (s', out) → Holds E s' := by
  have hflush : Tolerant (applySubmodulesEvents f.params ord s) ∧ _ :=
    applySubmodulesEvents_tolerant hsub h
  obtain ⟨htolerant, hholds⟩ := hflush
  constructor
  · rw [applyEvent]
    split
    next => exact tolerant_ok _
    next hown =>
      refine htolerant.bind fun flushed hflushed => ?_
      have hflushed' := hholds flushed.1 flushed.2 hflushed
      split
      next => exact tolerant_ok _
      next =>
        refine (newSubmodule_tolerant f hsub hflushed' _ _ _).1.bind fun _ _ => tolerant_ok _
      next => exact tolerant_ok _
      next =>
        intro event' hevent' herr
        cases herr
        exact hown (hdest event (hevent hevent'))
  · intro s' out happly
    rcases applyEvent_cases happly with ⟨-, rfl, -⟩ | ⟨-, s₁, out₁, hflush, hcases⟩
    · exact ⟨forall_collected_bufferSubmoduleEvent h.collected ⟨rfl, hevent⟩, h.buffered⟩
    · have h₁ := hholds s₁ out₁ hflush
      rcases hcases with ⟨_, -, rfl, -⟩ | ⟨_, id, args, retIdx, out₂, -, hnew, -⟩ |
        ⟨_, retIdx, -, rfl, -⟩
      · exact h₁
      · exact (newSubmodule_tolerant f hsub h₁ id args retIdx).2 s' out₂ hnew
      · have hdeleted := onlyDeleted_garbageCollect s₁ retIdx
        exact h₁.congr hdeleted.eventBuffer fun _ hmem => hdeleted.messageBuffer ▸ hmem

/-- Whole lists. -/
theorem applyEventsSequentially_tolerant (f : FactoryModule S)
    (hsub : SubmodulesTolerant f.params E) (hdest : ∀ event ∈ E, event.dest ≠ f.params.ownID)
    (ord : ℕ → Order) {events : List Event} (hevents : ReceivedIn E events) {n : ℕ}
    (h : Holds E s) : Tolerant (applyEventsSequentially f.params ord n s events) ∧
      ∀ s' out, applyEventsSequentially f.params ord n s events = .ok (s', out) → Holds E s' := by
  induction events generalizing n s with
  | nil =>
    refine ⟨tolerant_ok _, fun s' out happly => ?_⟩
    cases happly
    exact h
  | cons event events ih =>
    obtain ⟨hevent, hevents⟩ := List.forall_mem_cons.mp hevents
    have hstep : Tolerant (applyEvent f.params (ord n) s event) ∧ _ :=
      applyEvent_tolerant f hsub hdest h hevent
    constructor
    · refine hstep.1.bind fun applied happlied => ?_
      exact (ih hevents (hstep.2 _ _ happlied)).1.bind fun _ _ => tolerant_ok _
    · intro s' out happly
      obtain ⟨applied, happlied, happly⟩ := FallibleLoop.bind_ok_iff.mp happly
      obtain ⟨rest, hrest, happly⟩ := FallibleLoop.bind_ok_iff.mp happly
      cases happly
      exact (ih hevents (hstep.2 _ _ happlied)).2 _ _ hrest

/-! ### Rejected messages -/

/-- A received message for the factory itself is rejected. -/
theorem applyEvents_own (p : ModuleParams S) (ord : ℕ → Order) {event : Event}
    (hevent : IsReceived event) (hdest : event.dest = p.ownID) :
    applyEvents p ord (State.init p) [event] = .error (.unexpected event) := by
  have hflush : applySubmodulesEvents p (ord 0) (State.init p) =
      .ok ({ State.init p with eventBuffer := ∅ }, ((ord 0).completion []).flatten) := by
    have hkeys : (ord 0).iteration (State.init p).eventBuffer.keys = [] :=
      List.perm_nil.mp ((ord 0).iteration_perm _)
    rw [applySubmodulesEvents, hkeys]
    rfl
  have happly : applyEvent p (ord 0) (State.init p) event = .error (.unexpected event) := by
    rw [applyEvent, if_neg (not_not.mpr hdest), hflush]
    unfold IsReceived at hevent
    split at hevent
    · rfl
    · rfl
    · cases hevent
  rw [applyEvents, applyEventsSequentially, happly]
  rfl

/-- A factory with one submodule. -/
def withSubmodule (p : ModuleParams S) (id : ModuleID) (submodule : S) : State S :=
  { State.init p with submodules := (∅ : GoMap ModuleID (Instance S)).insert id ⟨0, submodule⟩ }

/-- Events for submodules are collected. -/
theorem applyEventsSequentially_collect (p : ModuleParams S) (ord : ℕ → Order) (n : ℕ)
    (s : State S) {events : List Event} (h : ∀ event ∈ events, event.dest ≠ p.ownID) :
    applyEventsSequentially p ord n s events = .ok (events.foldl bufferSubmoduleEvent s, []) := by
  induction events generalizing n s with
  | nil => rfl
  | cons event events ih =>
    obtain ⟨hevent, hevents⟩ := List.forall_mem_cons.mp h
    have happly : applyEvent p (ord n) s event = .ok (bufferSubmoduleEvent s event, []) :=
      if_pos hevent
    rw [applyEventsSequentially, happly]
    refine FallibleLoop.bind_ok_iff.mpr ⟨_, rfl, ?_⟩
    exact FallibleLoop.bind_ok_iff.mpr ⟨_, ih (n + 1) _ hevents, rfl⟩

/-- The buffer after events for one submodule were collected. -/
theorem eventBuffer_collect {id : ModuleID} {events : List Event} (hne : events ≠ [])
    (hdest : ∀ event ∈ events, event.dest = id) (hempty : s.eventBuffer = ∅) :
    (events.foldl bufferSubmoduleEvent s).eventBuffer = (∅ : GoMap ModuleID _).insert id events := by
  have hcollect : ∀ (pre rest : List Event) (s : State S), (∀ event ∈ rest, event.dest = id) →
      s.eventBuffer = (∅ : GoMap ModuleID (List Event)).insert id pre →
      (rest.foldl bufferSubmoduleEvent s).eventBuffer =
        (∅ : GoMap ModuleID (List Event)).insert id (pre ++ rest) := by
    intro pre rest
    induction rest generalizing pre with
    | nil =>
      intro s _ hs
      rw [List.append_nil]
      exact hs
    | cons event rest ih =>
      intro s hrest hs
      obtain ⟨hevent, hrest⟩ := List.forall_mem_cons.mp hrest
      have happ : pre ++ event :: rest = pre ++ [event] ++ rest := by simp
      rw [List.foldl_cons, happ]
      refine ih (pre ++ [event]) _ hrest ?_
      change s.eventBuffer.insert event.dest _ = _
      rw [hs, hevent, AList.lookup_insert, AList.insert_insert]
      rfl
  cases events with
  | nil => exact absurd rfl hne
  | cons event events =>
    obtain ⟨hevent, hevents⟩ := List.forall_mem_cons.mp hdest
    rw [List.foldl_cons]
    refine hcollect [event] events _ hevents ?_
    change s.eventBuffer.insert event.dest _ = _
    rw [hempty, hevent, AList.lookup_empty]
    rfl

theorem submodules_collect (events : List Event) (s : State S) :
    (events.foldl bufferSubmoduleEvent s).submodules = s.submodules := by
  induction events generalizing s with
  | nil => rfl
  | cons event events ih => exact ih (bufferSubmoduleEvent s event)

theorem flushSubmodule_eq_error {id : ModuleID} {submodule : Instance S} {err : ApplyError}
    (hlookup : s.submodules.lookup id = some submodule)
    (herr : p.applyEvents submodule.state ((s.eventBuffer.lookup id).getD []) = .error err)
    (outs : List (List Event)) : flushSubmodule p (s, outs) id = .error err := by
  rw [flushSubmodule]
  simp only [hlookup, Instance.call, herr]
  rfl

/-- The error of a submodule is returned by the factory. -/
theorem applyEvents_withSubmodule (p : ModuleParams S) (ord : ℕ → Order) {id : ModuleID}
    (hid : id ≠ p.ownID) {submodule : S} {events : List Event} (hne : events ≠ [])
    (hdest : ∀ event ∈ events, event.dest = id) {err : ApplyError}
    (herr : p.applyEvents submodule events = .error err) :
    applyEvents p ord (withSubmodule p id submodule) events = .error err := by
  have hbuffer : (events.foldl bufferSubmoduleEvent (withSubmodule p id submodule)).eventBuffer =
      (∅ : GoMap ModuleID _).insert id events := eventBuffer_collect hne hdest rfl
  have hkeys : (ord events.length).iteration
      (events.foldl bufferSubmoduleEvent (withSubmodule p id submodule)).eventBuffer.keys = [id] := by
    rw [hbuffer]
    exact List.perm_singleton.mp ((ord events.length).iteration_perm _)
  have hflush : flushSubmodule p
      (events.foldl bufferSubmoduleEvent (withSubmodule p id submodule), []) id = .error err := by
    have hlookup : (events.foldl bufferSubmoduleEvent
        (withSubmodule p id submodule)).submodules.lookup id = some ⟨0, submodule⟩ := by
      rw [submodules_collect]
      exact AList.lookup_insert _
    refine flushSubmodule_eq_error hlookup ?_ []
    rw [hbuffer, AList.lookup_insert]
    exact herr
  rw [applyEvents, applyEventsSequentially_collect p ord 0 _ fun event hevent =>
    (hdest event hevent).trans_ne hid]
  change (applySubmodulesEvents p (ord events.length) _ >>= _) = _
  rw [applySubmodulesEvents, hkeys, List.foldlM_cons, hflush]
  rfl

/-- **A factory** tolerates the received messages of a set if and only if none of them is for the
factory itself, and its submodules tolerate them. -/
theorem factory_tolerant_iff (f : FactoryModule S) (hE : ∀ event ∈ E, IsReceived event) :
    (∀ ord s events, Holds E s → ReceivedIn E events →
        Tolerant (applyEvents f.params ord s events)) ↔
      (∀ event ∈ E, event.dest ≠ f.params.ownID) ∧ SubmodulesTolerant f.params E := by
  constructor
  · intro htolerant
    have hdest : ∀ event ∈ E, event.dest ≠ f.params.ownID := by
      intro event hevent hown
      refine htolerant (fun _ => .listed) (State.init f.params) [event] (holds_init E f.params)
        (fun e he _ => ?_) event (hE event hevent) (applyEvents_own _ _ (hE event hevent) hown)
      rw [List.mem_singleton.mp he]
      exact hevent
    refine ⟨hdest, fun id submodule events hevents hreceived event hevent herr => ?_⟩
    have hmem : event ∈ events := f.reports submodule events event herr
    have hid : id ≠ f.params.ownID := hevents event hmem ▸ hdest event (hreceived event hmem hevent)
    have hholds : Holds E (withSubmodule f.params id submodule) :=
      (holds_init E f.params).congr rfl fun _ h => h
    exact htolerant (fun _ => .listed) _ events hholds hreceived event hevent
      (applyEvents_withSubmodule f.params _ hid (List.ne_nil_of_mem hmem) hevents herr)
  · rintro ⟨hdest, hsub⟩ ord s events hholds hreceived
    obtain ⟨htolerant, hkeep⟩ :=
      applyEventsSequentially_tolerant f hsub hdest ord hreceived (n := 0) hholds
    refine htolerant.bind fun applied happlied => ?_
    have hflush : Tolerant (applySubmodulesEvents f.params (ord events.length) applied.1) ∧ _ :=
      applySubmodulesEvents_tolerant hsub (hkeep _ _ happlied)
    exact hflush.1.bind fun _ _ => tolerant_ok _

/-! ### All kinds of modules -/

/-- The kinds of modules of a node. -/
inductive NodeModule (S : Type)
  | dsl (m : DslModule S)
  | factory (f : FactoryModule S)
  | timer
  | transport (tr : Net.Transport)

/-- `ApplyEvents` of the module never returns an error because a received message is unexpected, in any
state and for any list of events whose received messages are in the given set. -/
def NodeModule.Tolerates (E : Set Event) : NodeModule S → Prop
  | .dsl m => ∀ s events, ReceivedIn E events → Tolerant (m.applyEvents s events)
  | .factory f => ∀ ord s events, Holds E s → ReceivedIn E events →
      Tolerant (applyEvents f.params ord s events)
  | .timer => ∀ retIndex events, ReceivedIn E events → Tolerant (timerApplyEvents retIndex events)
  | .transport tr => ∀ net events, ReceivedIn E events →
      Tolerant (Net.applyEvents tr net [] events).2

/-- The module expects the received messages of the set. -/
def NodeModule.Expects (E : Set Event) : NodeModule S → Prop
  | .dsl m => ∀ event ∈ E, m.Expects event
  | .factory f => (∀ event ∈ E, event.dest ≠ f.params.ownID) ∧ SubmodulesTolerant f.params E
  | .timer | .transport _ => E = ∅

/-- **No received message stops the node through a module** if and only if the module expects the
messages: a DSL module must have a handler for each of them or a default handler that does not reject
it, a factory must not be addressed itself and its submodules must tolerate theirs, and the timer and
the transport must not get any. -/
theorem tolerates_iff (m : NodeModule S) (E : Set Event) (hE : ∀ event ∈ E, IsReceived event) :
    m.Tolerates E ↔ m.Expects E := by
  cases m with
  | dsl m => exact m.tolerant_iff hE
  | factory f => exact factory_tolerant_iff f hE
  | timer => exact timer_tolerant_iff hE
  | transport tr => exact transport_tolerant_iff tr hE

/-- A DSL module that counts raw messages. -/
def rawCounter : DslModule ℕ :=
  { newModule ℕ with
    eventHandlers := fun kind =>
      if kind = .messageReceived then some [⟨fun n _ => .ok (n + 1, []), fun _ _ => tolerant_ok _⟩]
      else none }

def isStd : Event → Bool
  | .std .. => true
  | .pb .. => false

/-- A submodule that counts protobuf events and rejects all others. -/
def countPb (n : ℕ) (events : List Event) : Except ApplyError (ℕ × List Event) :=
  match events.find? isStd with
  | some event => .error (.unexpected event)
  | none => .ok (n + events.length, [])

theorem countPb_eq_error {n : ℕ} {events : List Event} {event : Event}
    (h : countPb n events = .error (.unexpected event)) : event ∈ events ∧ isStd event = true := by
  rw [countPb] at h
  split at h
  next hfind =>
    cases h
    exact ⟨List.mem_of_find?_eq_some hfind, List.find?_some hfind⟩
  next => cases h

def pbCounters : FactoryModule ℕ where
  params := ⟨[102], fun _ _ => .ok 0, countPb, 100, fun _ => 1⟩
  reports := fun _ _ _ h => (countPb_eq_error h).1
  generates := fun _ _ => tolerant_ok 0

/-- A raw message to a module with a handler for it, a protobuf message to the same module, which has
no handler for it, and one to a submodule of a factory. -/
theorem messages_tolerated :
    (NodeModule.dsl rawCounter).Tolerates {.std [97] (.messageReceived [1] (rawMessage [])),
        .pb [97] (.transport (.messageReceived [1] ⟨[97], none⟩))} ∧
      (NodeModule.factory pbCounters).Tolerates
        {.pb [97] (.transport (.messageReceived [1] ⟨[97], none⟩))} := by
  refine ⟨(tolerates_iff _ _ ?_).mpr ?_, (tolerates_iff _ _ ?_).mpr ⟨?_, ?_⟩⟩
  · rintro event (rfl | rfl) <;> trivial
  · rintro event (rfl | rfl)
    · exact Or.inl nofun
    · exact Or.inr nofun
  · rintro event rfl
    trivial
  · rintro event rfl
    exact nofun
  · intro id n events _ hreceived event hevent herr
    obtain ⟨hmem, hstd⟩ := countPb_eq_error herr
    rw [hreceived event hmem hevent] at hstd
    cases hstd

/-- A DSL module without handlers rejects raw messages. -/
theorem raw_message_stops_node : ¬ ∀ (m : NodeModule Unit) (E : Set Event),
    (∀ event ∈ E, IsReceived event) → m.Tolerates E := by
  intro hall
  have h := hall (.dsl (newModule Unit)) {.std [97] (.messageReceived [1] (rawMessage []))}
    (fun event hevent => by rw [Set.mem_singleton_iff.mp hevent]; trivial)
  refine h () [.std [97] (.messageReceived [1] (rawMessage []))] (fun event hevent _ => ?_)
    (.std [97] (.messageReceived [1] (rawMessage []))) trivial rfl
  exact Set.mem_singleton_iff.mpr (List.mem_singleton.mp hevent)

end Mir.Modules
