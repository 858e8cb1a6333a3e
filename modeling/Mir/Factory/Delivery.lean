import Mir.Factory.Flush
import Mir.Factory.Retention

/-!
# Delivery of submodule events

What the factory is for is said by an ideal factory (`Ideal.step`), which has no collected events: an
event is given to its submodule at once if the submodule exists, a message from the network for one
that does not exist waits, and a new submodule is given its `Init` event and the messages that waited
for it and were not pushed out by later ones. The factory of the code collects events and applies them
in batches; at the end of each list it has delivered what the ideal factory has (`DeliversExactly`).

The code does not return the outputs of the collected events when an `Init` event for the factory
follows them in the same list: `init_loses_outputs`. Messages that do not fit into the empty buffer are
discarded. These are the only exceptions: `delivers_exactly_iff`.
-/

namespace Mir.Factory

open Events

variable {S : Type} {p : ModuleParams S} {ord : Order} {s s' : State S} {out : List Event}

/-! ### The ideal factory -/

/-- An event with the state in which it is applied, and with this state after the collected events have
been applied. -/
structure Step (S : Type) where
  event : Event
  before : State S
  flushed : State S

/-- The state after the collected events have been applied. -/
def flushedState (p : ModuleParams S) (ord : Order) (s : State S) : State S :=
  match applySubmodulesEvents p ord s with
  | .ok flushed => flushed.1
  | .error _ => s

/-- The steps in which a list is processed. -/
def steps (p : ModuleParams S) (ord : ℕ → Order) : ℕ → State S → List Event → List (Step S)
  | _, _, [] => []
  | n, s, event :: events =>
    match applyEvent p (ord n) s event with
    | .ok applied =>
      ⟨event, s, flushedState p (ord n) s⟩ :: steps p ord (n + 1) applied.1 events
    | .error _ => []

/-- The submodule that is created in a step. -/
def Step.creates (p : ModuleParams S) (st : Step S) : Option ModuleID :=
  match st.event with
  | .std dest (.newSubmodule id _ retIdx) =>
    if dest = p.ownID ∧ st.before.retIdx ≤ retIdx then some id else none
  | _ => none

/-- The messages that are due to a submodule if it is created in a step. -/
def Step.due (st : Step S) (id : ModuleID) : List Event := st.flushed.dueFor id

/-- The messages that the code gives to it. -/
def Step.given (st : Step S) (id : ModuleID) : List Event :=
  messagesFor id st.flushed.messageBuffer.messages

/-- A new submodule is given its `Init` event and early messages. -/
def Ideal.create (a : Ideal) (sm : ModuleID × ℕ) (early : List Event) : Ideal :=
  ⟨Function.update a.received sm (.std sm.1 .init :: early), Function.update a.waiting sm.1 []⟩

/-- One step of the ideal factory, where new submodules are given the messages `early`. -/
def Ideal.step (p : ModuleParams S) (early : Step S → ModuleID → List Event) (a : Ideal)
    (st : Step S) : Ideal :=
  match st.creates p with
  | some id => a.create (id, st.before.created) (early st id)
  | none =>
    if st.event.dest = p.ownID then a
    else a.give (st.before.number? st.event.dest) st.event.dest [st.event]

section Step

variable {a : Ideal} {early : Step S → ModuleID → List Event} {st : Step S}

theorem Ideal.step_of_creates {id : ModuleID} (h : st.creates p = some id) :
    a.step p early st = a.create (id, st.before.created) (early st id) := by
  rw [Ideal.step, h]

theorem Ideal.step_of_not_creates (h : st.creates p = none) : a.step p early st =
    if st.event.dest = p.ownID then a
    else a.give (st.before.number? st.event.dest) st.event.dest [st.event] := by
  rw [Ideal.step, h]

theorem Step.creates_eq_none (hdest : st.event.dest ≠ p.ownID) : st.creates p = none := by
  rw [Step.creates]
  split
  next dest id params retIdx heq =>
    rw [heq] at hdest
    exact if_neg fun h => hdest h.1
  next => rfl

/-- What waits does not depend on what submodules are given. -/
theorem Ideal.waiting_foldl (early early' : Step S → ModuleID → List Event) (l : List (Step S))
    {a a' : Ideal} (h : a.waiting = a'.waiting) : (l.foldl (Ideal.step p early) a).waiting =
      (l.foldl (Ideal.step p early') a').waiting := by
  induction l generalizing a a' with
  | nil => exact h
  | cons st l ih =>
    refine ih ?_
    cases hcreates : st.creates p with
    | some id =>
      rw [Ideal.step_of_creates hcreates, Ideal.step_of_creates hcreates]
      exact congrArg (Function.update · id []) h
    | none =>
      rw [Ideal.step_of_not_creates hcreates, Ideal.step_of_not_creates hcreates]
      split
      · exact h
      · cases st.before.number? st.event.dest with
        | some n => exact h
        | none => rw [Ideal.give, Ideal.give, h]

/-- Two runs agree if submodules are given the same. -/
theorem Ideal.foldl_congr {l : List (Step S)} {early' : Step S → ModuleID → List Event}
    (h : ∀ st ∈ l, ∀ id, st.creates p = some id → early st id = early' st id) :
    l.foldl (Ideal.step p early) a = l.foldl (Ideal.step p early') a := by
  refine List.foldl_ext _ _ _ fun a st hst => ?_
  cases hcreates : st.creates p with
  | some id =>
    rw [Ideal.step_of_creates hcreates, Ideal.step_of_creates hcreates, h st hst id hcreates]
  | none => rw [Ideal.step_of_not_creates hcreates, Ideal.step_of_not_creates hcreates]

end Step

/-! ### Events for submodules -/

/-- Applying the collected events keeps the invariant. -/
theorem Flushed.invariant {s₁ : State S} (hflush : Flushed p s s₁ out) (hinv : Invariant p s) :
    Invariant p s₁ := by
  obtain ⟨calls, hcalls, -, hlt⟩ := hflush.calls
  refine ⟨hinv.numbered.congr hflush.same ?_, hflush.buffered, fun id event hevent => ?_⟩
  · rw [hcalls]
    exact List.forall_mem_append.mpr ⟨hinv.numbered.call_lt, hlt⟩
  · rw [collected_eq_nil hflush.eventBuffer] at hevent
    cases hevent

theorem collected_bufferSubmoduleEvent (s : State S) (event : Event) :
    (bufferSubmoduleEvent s event).collected =
      Function.update s.collected event.dest (s.collected event.dest ++ [event]) := by
  funext id
  rw [State.collected, bufferSubmoduleEvent, GoMap.lookup_insert_eq, Function.update_apply]
  split <;> rfl

/-- What is collected for a submodule after one more event. -/
theorem forall_collected_bufferSubmoduleEvent {P : ModuleID → Event → Prop} {event : Event}
    (h : ∀ id, ∀ e ∈ s.collected id, P id e) (hevent : P event.dest event) :
    ∀ id, ∀ e ∈ (bufferSubmoduleEvent s event).collected id, P id e := by
  intro id
  rw [collected_bufferSubmoduleEvent, Function.update_apply]
  split
  next heq =>
    subst heq
    exact forall_mem_concat (h _) hevent
  next => exact h id

theorem Invariant.bufferSubmoduleEvent (h : Invariant p s) (event : Event) :
    Invariant p (bufferSubmoduleEvent s event) :=
  ⟨h.numbered.congr (sameModules_bufferSubmoduleEvent s event) h.numbered.call_lt,
    h.buffered.congr rfl rfl, forall_collected_bufferSubmoduleEvent h.dest_collected rfl⟩

/-- An event for a submodule is collected; the ideal factory delivers it. -/
theorem pending_bufferSubmoduleEvent (s : State S) (event : Event) :
    pending (bufferSubmoduleEvent s event) =
      (pending s).give (s.number? event.dest) event.dest [event] := by
  rw [pending, collected_bufferSubmoduleEvent, pending, ← idealWith_append]
  rfl

/-! ### Events for the factory -/

/-- Garbage collection only deletes submodules. -/
structure OnlyDeleted (s s' : State S) : Prop where
  number? : ∀ id n, s'.number? id = some n → s.number? id = some n
  created : s'.created = s.created
  calls : s'.calls = s.calls
  early : s'.early = s.early
  messageBuffer : s'.messageBuffer = s.messageBuffer
  eventBuffer : s'.eventBuffer = s.eventBuffer

theorem onlyDeleted_collect (s : State S) : OnlyDeleted s (collect s) := by
  refine ⟨fun id n hn => ?_, rfl, rfl, rfl, rfl, rfl⟩
  rw [number?_collect] at hn
  split at hn
  next => cases hn
  next => exact hn

theorem onlyDeleted_garbageCollect (s : State S) (retIdx : RetentionIndex) :
    OnlyDeleted s (garbageCollect s retIdx) := by
  rw [garbageCollect]
  generalize retIdx.toNat - s.retIdx.toNat = n
  induction n with
  | zero => exact ⟨fun _ _ h => h, rfl, rfl, rfl, rfl, rfl⟩
  | succ n ih =>
    rw [Function.iterate_succ_apply']
    have hlast := onlyDeleted_collect (collect^[n] s)
    exact ⟨fun id m h => ih.number? id m (hlast.number? id m h), hlast.created.trans ih.created,
      hlast.calls.trans ih.calls, hlast.early.trans ih.early,
      hlast.messageBuffer.trans ih.messageBuffer, hlast.eventBuffer.trans ih.eventBuffer⟩

theorem OnlyDeleted.invariant (h : OnlyDeleted s s') (hinv : Invariant p s) : Invariant p s' := by
  refine ⟨⟨fun id n hn => ?_, ?_⟩, hinv.buffered.congr h.messageBuffer h.early, fun id => ?_⟩
  · rw [h.created]
    exact hinv.numbered.number_lt id n (h.number? id n hn)
  · rw [h.calls, h.created]
    exact hinv.numbered.call_lt
  · rw [State.collected, h.eventBuffer]
    exact hinv.dest_collected id

theorem OnlyDeleted.ideal_eq (h : OnlyDeleted s s') : ideal s' = ideal s := by
  rw [ideal, h.calls]
  refine congrArg _ (funext fun id => ?_)
  rw [State.waitingFor, State.earlyFor, h.early]
  rfl

section Creation

variable {id : ModuleID} {retIdx : RetentionIndex} {submodule : S}
  {initialized results : Instance S × List Event}

/-- The calls of a new submodule. -/
theorem calls_created (hinit : initialized.1.number = s.created)
    (hresults : results.1.number = s.created) :
    (created s id retIdx submodule initialized results).calls = s.calls ++
      [⟨(id, s.created), [.std id .init], initialized.2⟩] ++
      [⟨(id, s.created), messagesFor id s.messageBuffer.messages, results.2⟩] := by
  change s.calls ++ [⟨(id, initialized.1.number), _, _⟩] ++ [⟨(id, results.1.number), _, _⟩] = _
  rw [hinit, hresults]
  rfl

theorem waitingFor_takeMessages (s : State S) (id : ModuleID) :
    (takeMessages s id).waitingFor = Function.update s.waitingFor id [] := by
  funext id'
  rw [State.waitingFor, State.earlyFor, takeMessages, List.filter_filter]
  by_cases hid : id' = id
  · subst hid
    rw [Function.update_self, List.filter_eq_nil_iff.mpr (by simp)]
    rfl
  · rw [Function.update_of_ne hid, State.waitingFor, State.earlyFor]
    refine congrArg (List.map EarlyMessage.event) (List.filter_congr fun e _ => ?_)
    by_cases he : e.event.dest = id'
    · simp [he, hid]
    · simp [he]

/-- A new submodule receives its `Init` event and the buffered messages. -/
theorem ideal_created (hnumbered : Numbered s) (hinit : initialized.1.number = s.created)
    (hresults : results.1.number = s.created) :
    ideal (created s id retIdx submodule initialized results) =
      (ideal s).create (id, s.created) (messagesFor id s.messageBuffer.messages) := by
  rw [ideal, calls_created hinit hresults, received_concat, received_concat, Function.update_self,
    Function.update_idem, received_eq_nil hnumbered.call_lt]
  exact congrArg _ (waitingFor_takeMessages s id)

theorem Invariant.created (hinv : Invariant p s) (hempty : s.eventBuffer = ∅)
    (hinit : initialized.1.number = s.created) (hresults : results.1.number = s.created) :
    Invariant p (created s id retIdx submodule initialized results) := by
  refine ⟨⟨fun id' n hn => ?_, ?_⟩, (hinv.buffered.takeMessages id).congr rfl rfl,
    fun id' event hevent => ?_⟩
  · rw [number?_created, hresults] at hn
    change n < s.created + 1
    split at hn
    next =>
      rw [← Option.some.inj hn]
      exact Nat.lt_succ_self _
    next => exact (hinv.numbered.number_lt id' n hn).trans (Nat.lt_succ_self _)
  · rw [calls_created hinit hresults]
    exact forall_mem_concat (forall_mem_concat
      (fun c hc => (hinv.numbered.call_lt c hc).trans (Nat.lt_succ_self _)) (Nat.lt_succ_self _))
      (Nat.lt_succ_self _)
  · have hnil : (Factory.created s id retIdx submodule initialized results).collected id' = [] :=
      collected_eq_nil hempty id'
    rw [hnil] at hevent
    cases hevent

end Creation

/-! ### One step -/

/-- If the event is an `Init` event for the factory, applying the collected events outputs nothing. -/
def Step.SilentInit (p : ModuleParams S) (st : Step S) : Prop :=
  st.event = .std p.ownID .init → ∀ id ∈ st.before.eventBuffer, SilentAt p st.before id

/-- What one event does, next to the ideal factory. -/
structure StepSpec (p : ModuleParams S) (st : Step S) (s' : State S) (out : List Event) : Prop where
  invariant : Invariant p s'
  pending_eq : pending s' = (pending st.before).step p Step.given st
  creates : ∀ id, st.creates p = some id →
    BufferedSuffix p st.flushed ∧ st.flushed.waitingFor = (pending st.before).waiting
  outputs : ∃ calls lost, s'.calls = st.before.calls ++ calls ∧
    (out ++ lost).Perm (outputs calls) ∧ (lost = [] ↔ st.SilentInit p)

theorem flushedState_eq {s₁ : State S} (h : applySubmodulesEvents p ord s = .ok (s₁, out)) :
    flushedState p ord s = s₁ := by
  rw [flushedState, h]

/-- A factory event that neither creates a submodule nor loses outputs. -/
theorem StepSpec.of_flushed {st : Step S} {s₁ : State S} {out₁ : List Event}
    (hinv : Invariant p st.before) (hflush : Flushed p st.before s₁ out₁)
    (hcreates : st.creates p = none) (hdest : st.event.dest = p.ownID)
    (hinit : st.event ≠ .std p.ownID .init) (hdeleted : OnlyDeleted s₁ s') :
    StepSpec p st s' out₁ := by
  have hempty : s'.eventBuffer = ∅ := hdeleted.eventBuffer.trans hflush.eventBuffer
  refine ⟨hdeleted.invariant (hflush.invariant hinv), ?_, fun id hid => ?_, ?_⟩
  · rw [Ideal.step_of_not_creates hcreates, if_pos hdest, pending_eq_ideal hempty,
      hdeleted.ideal_eq, hflush.ideal_eq]
  · rw [hcreates] at hid
    cases hid
  · obtain ⟨calls, hcalls, hperm, -⟩ := hflush.calls
    refine ⟨calls, [], hdeleted.calls.trans hcalls, ?_, iff_of_true rfl fun h => absurd h hinit⟩
    rw [List.append_nil]
    exact hperm

/-- **One event** is handled as by the ideal factory. -/
theorem applyEvent_spec {event : Event} (hinv : Invariant p s)
    (h : applyEvent p ord s event = .ok (s', out)) :
    StepSpec p ⟨event, s, flushedState p ord s⟩ s' out := by
  rcases applyEvent_cases h with ⟨hdest, rfl, rfl⟩ | ⟨hdest, s₁, out₁, happly, hcases⟩
  · have hcreates : Step.creates p ⟨event, s, flushedState p ord s⟩ = none :=
      Step.creates_eq_none hdest
    refine ⟨hinv.bufferSubmoduleEvent event, ?_, fun id hid => ?_, [], [], (List.append_nil _).symm,
      .rfl, iff_of_true rfl fun hinit => absurd (congrArg Event.dest hinit) hdest⟩
    · rw [Ideal.step_of_not_creates hcreates, if_neg hdest]
      exact pending_bufferSubmoduleEvent s event
    · rw [hcreates] at hid
      cases hid
  have hflush := applySubmodulesEvents_flushed hinv happly
  have hinv₁ := hflush.invariant hinv
  rcases hcases with ⟨dest, rfl, rfl, rfl⟩ | ⟨dest, id, params, retIdx, out₂, rfl, hnew, rfl⟩ |
    ⟨dest, retIdx, rfl, rfl, rfl⟩
  · -- `Init`: the outputs are lost
    obtain rfl : dest = p.ownID := hdest
    obtain ⟨calls, hcalls, hperm, -⟩ := hflush.calls
    refine ⟨hinv₁, ?_, fun id hid => (by cases hid), calls, out₁, hcalls, hperm, ?_⟩
    · rw [Ideal.step_of_not_creates rfl, pending_eq_ideal hflush.eventBuffer, hflush.ideal_eq]
      exact (if_pos rfl).symm
    · exact hflush.silent.trans ⟨fun hsilent _ => hsilent, fun hsilent => hsilent rfl⟩
  · have hinit : Event.std dest (.newSubmodule id params retIdx) ≠ .std p.ownID .init := by simp
    rcases newSubmodule_cases hnew with ⟨hlt, rfl, rfl⟩ |
      ⟨hle, submodule, initialized, results, hnumber, hnumber', rfl, rfl⟩
    · have hrej : ¬ (dest = p.ownID ∧ s.retIdx ≤ retIdx) := by
        rw [← hflush.same.retIdx]
        exact fun hacc => UInt64.lt_irrefl _ (UInt64.lt_of_lt_of_le hlt hacc.2)
      rw [List.append_nil]
      exact .of_flushed hinv hflush (if_neg hrej) hdest hinit
        ⟨fun _ _ hn => hn, rfl, rfl, rfl, rfl, rfl⟩
    · have hcreates : Step.creates p ⟨.std dest (.newSubmodule id params retIdx), s,
          flushedState p ord s⟩ = some id := if_pos ⟨hdest, hflush.same.retIdx ▸ hle⟩
      refine ⟨hinv₁.created hflush.eventBuffer hnumber hnumber', ?_, fun id' hid => ?_, ?_⟩
      · refine Eq.trans (pending_eq_ideal (show (created s₁ ..).eventBuffer = ∅ from
          hflush.eventBuffer)) ?_
        rw [Ideal.step_of_creates hcreates, ideal_created hinv₁.numbered hnumber hnumber',
          hflush.ideal_eq, hflush.same.created, Step.given, flushedState_eq happly]
      · simp only [flushedState_eq happly, ← hflush.ideal_eq]
        exact ⟨hflush.buffered, rfl⟩
      · obtain ⟨calls, hcalls, hperm, -⟩ := hflush.calls
        refine ⟨calls ++ [⟨(id, s₁.created), [.std id .init], initialized.2⟩,
          ⟨(id, s₁.created), messagesFor id s₁.messageBuffer.messages, results.2⟩], [], ?_, ?_,
          iff_of_true rfl fun h => absurd h hinit⟩
        · simp [calls_created hnumber hnumber', hcalls]
        · rw [List.append_nil, outputs_append]
          refine hperm.append ?_
          simp [outputs]
  · exact .of_flushed hinv hflush rfl hdest (by simp) (onlyDeleted_garbageCollect _ _)

/-! ### Whole lists -/

variable {ord : ℕ → Order} {events : List Event}

theorem perm_outputs_append {out₁ lost₁ out₂ lost₂ : List Event} {calls₁ calls₂ : List Call}
    (h₁ : (out₁ ++ lost₁).Perm (outputs calls₁)) (h₂ : (out₂ ++ lost₂).Perm (outputs calls₂)) :
    (out₁ ++ out₂ ++ (lost₁ ++ lost₂)).Perm (outputs (calls₁ ++ calls₂)) := by
  rw [outputs_append]
  refine List.Perm.trans (List.perm_iff_count.mpr fun e => ?_) (h₁.append h₂)
  simp only [List.count_append]
  omega

/-- **A list of events** is handled as by the ideal factory, until the final collected events are
applied. -/
theorem applyEventsSequentially_spec {n : ℕ} (hinv : Invariant p s)
    (h : applyEventsSequentially p ord n s events = .ok (s', out)) :
    Invariant p s' ∧ pending s' = (steps p ord n s events).foldl (Ideal.step p Step.given) (pending s) ∧
      (∀ pre st post id, steps p ord n s events = pre ++ st :: post → st.creates p = some id →
        BufferedSuffix p st.flushed ∧
          st.flushed.waitingFor = (pre.foldl (Ideal.step p Step.given) (pending s)).waiting) ∧
      ∃ calls lost, s'.calls = s.calls ++ calls ∧ (out ++ lost).Perm (outputs calls) ∧
        (lost = [] ↔ ∀ st ∈ steps p ord n s events, st.SilentInit p) := by
  induction events generalizing n s out with
  | nil =>
    cases h
    exact ⟨hinv, rfl, fun pre st post id hsplit => absurd hsplit (by simp [steps]), [], [],
      (List.append_nil _).symm, .rfl, iff_of_true rfl nofun⟩
  | cons event events ih =>
    obtain ⟨⟨s₁, out₁⟩, happly, h⟩ := FallibleLoop.bind_ok_iff.mp h
    obtain ⟨⟨s₂, out₂⟩, hrest, h⟩ := FallibleLoop.bind_ok_iff.mp h
    cases h
    have hstep := applyEvent_spec hinv happly
    obtain ⟨hinv', hpending, hcreates, calls₂, lost₂, hcalls₂, hperm₂, hlost₂⟩ :=
      ih hstep.invariant hrest
    have hsteps : steps p ord n s (event :: events) =
        ⟨event, s, flushedState p (ord n) s⟩ :: steps p ord (n + 1) s₁ events := by
      rw [steps, happly]
    rw [hsteps, List.foldl_cons]
    rw [hstep.pending_eq] at hpending hcreates
    refine ⟨hinv', hpending, fun pre st post id hsplit hid => ?_, ?_⟩
    · cases pre with
      | nil =>
        obtain ⟨rfl, -⟩ := List.cons.inj hsplit
        exact hstep.creates id hid
      | cons st₀ pre =>
        obtain ⟨rfl, htail⟩ := List.cons.inj hsplit
        exact hcreates pre st post id htail hid
    · obtain ⟨calls₁, lost₁, hcalls₁, hperm₁, hlost₁⟩ := hstep.outputs
      refine ⟨calls₁ ++ calls₂, lost₁ ++ lost₂, ?_, perm_outputs_append hperm₁ hperm₂, ?_⟩
      · rw [hcalls₂, hcalls₁, List.append_assoc]
      · rw [List.append_eq_nil_iff, hlost₁, hlost₂, List.forall_mem_cons]

/-- The states of a factory between lists of events that were processed without an error. -/
inductive Reached (p : ModuleParams S) : State S → Prop
  | init : Reached p (.init p)
  | applied {s s' : State S} {ord : ℕ → Order} {events out : List Event} :
      Reached p s → applyEvents p ord s events = .ok (s', out) → Reached p s'

/-- A list is processed as by the ideal factory, where a new submodule is given the messages that waited
for it and were not pushed out by later ones; only the oldest are. What is returned is what the
submodules output. -/
structure DeliversExactly (p : ModuleParams S) (ord : ℕ → Order) (s : State S)
    (events : List Event) (s' : State S) (out : List Event) : Prop where
  delivered : ideal s' = (steps p ord 0 s events).foldl (Ideal.step p Step.due) (ideal s)
  given : ∀ st ∈ steps p ord 0 s events, ∀ id, st.creates p = some id → st.given id = st.due id
  waited : ∀ pre st post id, steps p ord 0 s events = pre ++ st :: post →
    st.creates p = some id → OldestPushedOut st.flushed id ∧
      st.flushed.waitingFor id = (pre.foldl (Ideal.step p Step.due) (ideal s)).waiting id
  returned : ∃ calls, s'.calls = s.calls ++ calls ∧ out.Perm (outputs calls)

/-- When a submodule is created, each message that waits for it fits into the empty buffer. -/
def WaitingFit (p : ModuleParams S) (ord : ℕ → Order) (s : State S) (events : List Event) : Prop :=
  ∀ pre st post id, steps p ord 0 s events = pre ++ st :: post → st.creates p = some id →
    ∀ msg ∈ (pre.foldl (Ideal.step p Step.due) (ideal s)).waiting id,
      p.protoSize msg ≤ p.msgBufSize

/-- When the factory gets an `Init` event, no existing submodule outputs anything for the events that
are collected for it. -/
def SilentInits (p : ModuleParams S) (ord : ℕ → Order) (s : State S) (events : List Event) : Prop :=
  ∀ st ∈ steps p ord 0 s events, st.SilentInit p

/-- What one call of `ApplyEvents` does, next to the ideal factory. -/
theorem applyEvents_spec (hinv : Invariant p s) (hempty : s.eventBuffer = ∅)
    (h : applyEvents p ord s events = .ok (s', out)) :
    Invariant p s' ∧ s'.eventBuffer = ∅ ∧
      ideal s' = (steps p ord 0 s events).foldl (Ideal.step p Step.given) (ideal s) ∧
      (∀ pre st post id, steps p ord 0 s events = pre ++ st :: post → st.creates p = some id →
        BufferedSuffix p st.flushed ∧
          st.flushed.waitingFor = (pre.foldl (Ideal.step p Step.due) (ideal s)).waiting) ∧
      ∃ calls lost, s'.calls = s.calls ++ calls ∧ (out ++ lost).Perm (outputs calls) ∧
        (lost = [] ↔ SilentInits p ord s events) := by
  obtain ⟨⟨s₁, out₁⟩, happly, h⟩ := FallibleLoop.bind_ok_iff.mp h
  obtain ⟨⟨s₂, out₂⟩, hlast, h⟩ := FallibleLoop.bind_ok_iff.mp h
  cases h
  obtain ⟨hinv₁, hpending, hcreates, calls₁, lost, hcalls₁, hperm₁, hlost⟩ :=
    applyEventsSequentially_spec hinv happly
  rw [pending_eq_ideal hempty] at hpending hcreates
  have hflush := applySubmodulesEvents_flushed hinv₁ hlast
  obtain ⟨calls₂, hcalls₂, hperm₂, -⟩ := hflush.calls
  refine ⟨hflush.invariant hinv₁, hflush.eventBuffer, hflush.ideal_eq.trans hpending,
    fun pre st post id hsplit hid => ?_, calls₁ ++ calls₂, lost, ?_, ?_, hlost⟩
  · rw [Ideal.waiting_foldl Step.due Step.given pre rfl]
    exact hcreates pre st post id hsplit hid
  · rw [hcalls₂, hcalls₁, List.append_assoc]
  · rw [← List.append_nil out₂] at hperm₂
    simpa using perm_outputs_append hperm₁ hperm₂

theorem Reached.invariant (h : Reached p s) : Invariant p s ∧ s.eventBuffer = ∅ := by
  induction h with
  | init => exact ⟨invariant_init p, rfl⟩
  | applied _ happly ih =>
    obtain ⟨hinv, hempty, -⟩ := applyEvents_spec ih.1 ih.2 happly
    exact ⟨hinv, hempty⟩

/-- **Every submodule event is delivered exactly once**, and all outputs are returned, if and only if
the early messages of each new submodule fit into the buffer and no outputs of the collected events
are lost at an `Init` event. -/
theorem delivers_exactly_iff (p : ModuleParams S) (ord : ℕ → Order) (s : State S)
    (events : List Event) (s' : State S) (out : List Event) (hs : Reached p s)
    (h : applyEvents p ord s events = .ok (s', out)) :
    DeliversExactly p ord s events s' out ↔
      WaitingFit p ord s events ∧ SilentInits p ord s events := by
  obtain ⟨hinv, hempty⟩ := hs.invariant
  obtain ⟨-, -, hideal, hcreates, calls, lost, hcalls, hperm, hlost⟩ :=
    applyEvents_spec hinv hempty h
  constructor
  · intro hexact
    refine ⟨fun pre st post id hsplit hid msg hmsg => ?_, hlost.mp ?_⟩
    · obtain ⟨hsuffix, hwaiting⟩ := hcreates pre st post id hsplit hid
      have hgiven := hexact.given st (hsplit ▸ List.mem_append_right _ List.mem_cons_self) id hid
      rw [← hwaiting] at hmsg
      obtain ⟨e, he, rfl⟩ := List.mem_map.mp hmsg
      exact (hsuffix.messagesFor_eq_dueFor_iff id).mp hgiven e he
    · -- the returned list is as long as the list of all outputs
      obtain ⟨calls', hcalls', hperm'⟩ := hexact.returned
      obtain rfl : calls' = calls := List.append_cancel_left (hcalls'.symm.trans hcalls)
      have hlen := hperm.length_eq.trans hperm'.length_eq.symm
      rw [List.length_append] at hlen
      exact List.length_eq_zero_iff.mp (by omega)
  · rintro ⟨hfit, hsilent⟩
    have hearly : ∀ pre st post id, steps p ord 0 s events = pre ++ st :: post →
        st.creates p = some id → ∀ e ∈ st.flushed.earlyFor id, p.protoSize e.event ≤ p.msgBufSize := by
      intro pre st post id hsplit hid e he
      refine hfit pre st post id hsplit hid e.event ?_
      rw [← (hcreates pre st post id hsplit hid).2]
      exact List.mem_map_of_mem he
    have hgiven : ∀ st ∈ steps p ord 0 s events, ∀ id, st.creates p = some id →
        st.given id = st.due id := by
      intro st hst id hid
      obtain ⟨pre, post, hsplit⟩ := List.append_of_mem hst
      exact ((hcreates pre st post id hsplit hid).1.messagesFor_eq_dueFor_iff id).mpr
        (hearly pre st post id hsplit hid)
    refine ⟨hideal.trans (Ideal.foldl_congr hgiven), hgiven, fun pre st post id hsplit hid => ?_,
      calls, hcalls, ?_⟩
    · obtain ⟨hsuffix, hwaiting⟩ := hcreates pre st post id hsplit hid
      exact ⟨hsuffix.oldestPushedOut (hearly pre st post id hsplit hid), congrFun hwaiting id⟩
    · rw [hlost.mpr hsilent, List.append_nil] at hperm
      exact hperm

theorem event_mem_of_mem_steps {n : ℕ} {st : Step S} (h : st ∈ steps p ord n s events) :
    st.event ∈ events := by
  induction events generalizing n s with
  | nil => cases h
  | cons event events ih =>
    rw [steps] at h
    split at h
    · rcases List.mem_cons.mp h with rfl | h
      · exact List.mem_cons_self
      · exact List.mem_cons_of_mem _ (ih h)
    · cases h

/-- A factory whose submodules output every event they get. Its buffer has space for two messages. -/
def echoParams : ModuleParams Unit where
  ownID := [102]
  generator _ _ := .ok ()
  applyEvents s events := .ok (s, events)
  msgBufSize := 10
  protoSize _ := 4

/-- A message from the network for a submodule. -/
def messageFrom (sender : NodeID) : Event :=
  .pb silentID (.transport (.messageReceived sender ⟨silentID, none⟩))

/-- Three messages that come before their submodule is created: the first is pushed out. -/
theorem early_message_delivered :
    let events := [messageFrom [1], messageFrom [2], messageFrom [3],
      .std [102] (.newSubmodule silentID [] 0), .std silentID (.testUint64 7)]
    let delivered := [.std silentID .init, messageFrom [2], messageFrom [3],
      .std silentID (.testUint64 7)]
    ∃ s', applyEvents echoParams (fun _ => .listed) (.init echoParams) events = .ok (s', delivered) ∧
      received s'.calls (silentID, 0) = delivered ∧
      DeliversExactly echoParams (fun _ => .listed) (.init echoParams) events s' delivered := by
  intro events delivered
  obtain ⟨⟨s', _⟩, happly, hreceived, rfl⟩ := FallibleLoop.exists_ok_of_any (by decide +kernel :
    (applyEvents echoParams (fun _ => .listed) (.init echoParams) events).toOption.any
      (fun r => received r.1.calls (silentID, 0) = delivered ∧ r.2 = delivered) = true)
  refine ⟨s', happly, hreceived,
    (delivers_exactly_iff echoParams _ _ _ s' _ .init happly).mpr ⟨?_, fun st hst hinit => ?_⟩⟩
  · exact fun _ _ _ _ _ _ _ _ => (by decide : 4 ≤ 10)
  · have hmem := event_mem_of_mem_steps hst
    rw [hinit] at hmem
    simp [events, messageFrom] at hmem

/-- The output for the second event is not returned, since an `Init` event for the factory follows. -/
theorem init_loses_outputs : ¬ ∀ (p : ModuleParams Unit) (ord : ℕ → Order) (s : State Unit)
    (events : List Event) (s' : State Unit) (out : List Event), Reached p s →
    applyEvents p ord s events = .ok (s', out) → DeliversExactly p ord s events s' out := by
  intro hall
  obtain ⟨⟨s', out⟩, happly, hlengths⟩ := FallibleLoop.exists_ok_of_any (by decide +kernel :
    (applyEvents echoParams (fun _ => .listed) (.init echoParams)
      [.std [102] (.newSubmodule silentID [] 0), .std silentID (.testUint64 7),
        .std [102] .init]).toOption.any (fun r =>
          r.2.length = 1 ∧ (outputs r.1.calls).length = 2) = true)
  obtain ⟨calls, hcalls, hperm⟩ := (hall echoParams _ _ _ s' out .init happly).returned
  have hcalls' : s'.calls = calls := hcalls
  have hlen : out.length = (outputs s'.calls).length := hcalls' ▸ hperm.length_eq
  exact absurd (hlengths.1.symm.trans (hlen.trans hlengths.2)) (by decide)

end Mir.Factory
