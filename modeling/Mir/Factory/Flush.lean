import Mir.Factory.EarlyMessages

/-!
# Applying the collected events

The events for submodules are collected until `applySubmodulesEvents` applies them, submodule by
submodule in an order that is left open. `ideal` is what a factory has delivered, and `pending` what it
will have delivered when the collected events are applied too. Each iteration of the loop gives one
submodule its events (`Ideal.give`), so that afterwards, whatever the order, the factory has delivered
what was pending: `applySubmodulesEvents_flushed`.
-/

namespace Mir.Factory

open Events

variable {S : Type} {p : ModuleParams S} {ord : Order} {s s' : State S} {out : List Event}

/-! ### What is delivered -/

/-- The messages of a list that are from the network. -/
def networkMessages (eventList : List Event) : List Event := eventList.filter isNetworkMessage

/-- The early messages for a submodule, in the order of their arrival. -/
def State.waitingFor (s : State S) (id : ModuleID) : List Event :=
  (s.earlyFor id).map EarlyMessage.event

/-- The events that a submodule has received. -/
def received (calls : List Call) (sm : ModuleID × ℕ) : List Event :=
  (calls.filter fun c => decide (c.callee = sm)).flatMap Call.events

/-- The events that the submodules have output. -/
def outputs (calls : List Call) : List Event := calls.flatMap Call.out

theorem outputs_append (calls calls' : List Call) :
    outputs (calls ++ calls') = outputs calls ++ outputs calls' := List.flatMap_append

theorem received_concat (calls : List Call) (c : Call) : received (calls ++ [c]) =
    Function.update (received calls) c.callee (received calls c.callee ++ c.events) := by
  funext sm
  by_cases h : c.callee = sm
  · subst h
    simp [received]
  · rw [Function.update_of_ne (Ne.symm h)]
    simp [received, h]

/-- A number that was not given out yet has received nothing. -/
theorem received_eq_nil {calls : List Call} {n : ℕ} (h : ∀ c ∈ calls, c.callee.2 < n)
    (id : ModuleID) : received calls (id, n) = [] := by
  rw [received, List.filter_eq_nil_iff.mpr, List.flatMap_nil]
  intro c hc hcallee
  have hlt := h c hc
  rw [of_decide_eq_true hcallee] at hlt
  exact lt_irrefl n hlt

/-- What each submodule has received, and the messages that wait for submodules to be created. -/
@[ext]
structure Ideal where
  received : ModuleID × ℕ → List Event
  waiting : ModuleID → List Event

/-- Events are given to a submodule, if it exists and has a number. Otherwise those that are messages
from the network wait for it, and the others are dropped. -/
def Ideal.give (a : Ideal) (number : Option ℕ) (id : ModuleID) (events : List Event) : Ideal :=
  match number with
  | some n => { a with received := Function.update a.received (id, n) (a.received (id, n) ++ events) }
  | none => { a with waiting := Function.update a.waiting id (a.waiting id ++ networkMessages events) }

/-- What a factory has delivered. -/
def ideal (s : State S) : Ideal := ⟨received s.calls, s.waitingFor⟩

/-- What it will have delivered when the given events are applied. -/
def idealWith (s : State S) (collected : ModuleID → List Event) : Ideal where
  received sm := received s.calls sm ++ if s.number? sm.1 = some sm.2 then collected sm.1 else []
  waiting id :=
    s.waitingFor id ++ if s.number? id = none then networkMessages (collected id) else []

theorem idealWith_nil (s : State S) : idealWith s (fun _ => []) = ideal s := by
  simp [idealWith, ideal, networkMessages]

/-- To apply more events for one submodule is to give them to it. -/
theorem idealWith_append (s : State S) (collected : ModuleID → List Event) (id : ModuleID)
    (events : List Event) :
    idealWith s (Function.update collected id (collected id ++ events)) =
      (idealWith s collected).give (s.number? id) id events := by
  cases hnumber : s.number? id with
  | some n =>
    refine Ideal.ext (funext fun sm => ?_) (funext fun id' => ?_)
    · obtain ⟨id', n'⟩ := sm
      simp only [idealWith, Ideal.give, Function.update_apply, Prod.mk.injEq]
      by_cases hid : id' = id
      · subst hid
        rcases eq_or_ne n' n with rfl | hn
        · simp [hnumber]
        · simp [hnumber, hn, hn.symm]
      · simp [hid]
    · by_cases hid : id' = id
      · simp [idealWith, Ideal.give, hid, hnumber]
      · simp [idealWith, Ideal.give, hid]
  | none =>
    refine Ideal.ext (funext fun sm => ?_) (funext fun id' => ?_)
    · by_cases hid : sm.1 = id
      · simp [idealWith, Ideal.give, hid, hnumber]
      · simp [idealWith, Ideal.give, hid]
    · by_cases hid : id' = id
      · simp [idealWith, Ideal.give, hid, hnumber, networkMessages]
      · simp [idealWith, Ideal.give, hid]

/-- Calling a submodule gives it the events. -/
theorem ideal_called (s : State S) (smID : ModuleID) (submodule : Instance S)
    (eventList out : List Event) : ideal (s.called smID submodule eventList out) =
      (ideal s).give (some submodule.number) smID eventList := by
  rw [ideal, State.called, received_concat]
  rfl

theorem waitingFor_tryBuffering (p : ModuleParams S) (s : State S) (event : Event) :
    (tryBuffering p s event).waitingFor = Function.update s.waitingFor event.dest
      (s.waitingFor event.dest ++ networkMessages [event]) := by
  have heq : ∀ (s : State S) id, s.waitingFor id = messagesFor id (s.early.map EarlyMessage.event) :=
    fun s id => by rw [messagesFor, List.filter_map]; rfl
  funext id
  rw [tryBuffering]
  by_cases hnet : isNetworkMessage event = true
  · rw [if_pos hnet, heq, map_event_recordEarly]
    by_cases hid : id = event.dest
    · simp [hid, heq, messagesFor, networkMessages, hnet]
    · simp [hid, heq, messagesFor, Ne.symm hid]
  · simp [hnet, networkMessages]

theorem tryBuffering_frame (p : ModuleParams S) (s : State S) (event : Event) :
    (tryBuffering p s event).calls = s.calls ∧
      (tryBuffering p s event).submodules = s.submodules ∧
      (tryBuffering p s event).eventBuffer = s.eventBuffer := by
  rw [tryBuffering]
  split
  next => exact ⟨rfl, rfl, rfl⟩
  next => exact ⟨rfl, rfl, rfl⟩

theorem bufferEarlyMsgs_frame (p : ModuleParams S) (s : State S) (eventList : List Event) :
    (bufferEarlyMsgs p s eventList).calls = s.calls ∧
      (bufferEarlyMsgs p s eventList).submodules = s.submodules ∧
      (bufferEarlyMsgs p s eventList).eventBuffer = s.eventBuffer := by
  induction eventList generalizing s with
  | nil => exact ⟨rfl, rfl, rfl⟩
  | cons event eventList ih =>
    obtain ⟨hcalls, hsubmodules, hbuffer⟩ := ih (tryBuffering p s event)
    obtain ⟨hcalls', hsubmodules', hbuffer'⟩ := tryBuffering_frame p s event
    exact ⟨hcalls.trans hcalls', hsubmodules.trans hsubmodules', hbuffer.trans hbuffer'⟩

/-- Buffering gives the messages to a submodule that does not exist. -/
theorem ideal_bufferEarlyMsgs (p : ModuleParams S) (s : State S) {eventList : List Event}
    {smID : ModuleID} (hdest : ∀ event ∈ eventList, event.dest = smID) :
    ideal (bufferEarlyMsgs p s eventList) = (ideal s).give none smID eventList := by
  induction eventList generalizing s with
  | nil => simp [bufferEarlyMsgs, Ideal.give, networkMessages]
  | cons event eventList ih =>
    obtain ⟨rfl, htail⟩ := List.forall_mem_cons.mp hdest
    refine (ih (tryBuffering p s event) htail).trans ?_
    simp only [ideal, Ideal.give, waitingFor_tryBuffering, (tryBuffering_frame p s event).1,
      Function.update_self, Function.update_idem, List.append_assoc]
    rw [networkMessages, networkMessages, ← List.filter_append]
    rfl

/-! ### Invariants -/

/-- The events that are collected for a submodule. -/
def State.collected (s : State S) (id : ModuleID) : List Event := (s.eventBuffer.lookup id).getD []

/-- What a factory will have delivered when the collected events are applied. -/
def pending (s : State S) : Ideal := idealWith s s.collected

theorem collected_eq_nil (h : s.eventBuffer = ∅) (id : ModuleID) : s.collected id = [] := by
  rw [State.collected, h, AList.lookup_empty]
  rfl

theorem pending_eq_ideal (h : s.eventBuffer = ∅) : pending s = ideal s := by
  rw [pending, funext (collected_eq_nil h), idealWith_nil]

/-- The submodule outputs nothing when its collected events are applied. -/
def SilentAt (p : ModuleParams S) (s : State S) (id : ModuleID) : Prop :=
  ∀ submodule, s.submodules.lookup id = some submodule →
    ∀ result, p.applyEvents submodule.state (s.collected id) = .ok result → result.2 = []

/-- Only numbers that were given out are in use. -/
structure Numbered (s : State S) : Prop where
  number_lt : ∀ id n, s.number? id = some n → n < s.created
  call_lt : ∀ c ∈ s.calls, c.callee.2 < s.created

/-- What holds between any two events. -/
structure Invariant (p : ModuleParams S) (s : State S) : Prop where
  numbered : Numbered s
  buffered : BufferedSuffix p s
  dest_collected : ∀ id, ∀ event ∈ s.collected id, event.dest = id

theorem invariant_init (p : ModuleParams S) : Invariant p (State.init p) where
  numbered := by
    refine ⟨fun id n hn => ?_, List.forall_mem_nil _⟩
    rw [State.number?, State.init, AList.lookup_empty] at hn
    cases hn
  buffered := bufferedSuffix_init p
  dest_collected id event hevent := by
    rw [collected_eq_nil rfl] at hevent
    cases hevent

theorem Numbered.congr (h : Numbered s) (hsame : SameModules s s')
    (hcalls : ∀ c ∈ s'.calls, c.callee.2 < s.created) : Numbered s' := by
  refine ⟨fun id n hn => ?_, fun c hc => ?_⟩ <;> rw [hsame.created]
  exacts [h.number_lt id n (hsame.number? id ▸ hn), hcalls c hc]

/-! ### The loop -/

/-- The loop after it has visited some submodules: those have been given their collected events. -/
structure Flushing (p : ModuleParams S) (s : State S) (visited : List ModuleID)
    (acc : State S × List (List Event)) : Prop where
  same : SameModules s acc.1
  eventBuffer : acc.1.eventBuffer = s.eventBuffer
  submodules : ∀ id ∉ visited, acc.1.submodules.lookup id = s.submodules.lookup id
  ideal_eq : ideal acc.1 = idealWith s fun id => if id ∈ visited then s.collected id else []
  buffered : BufferedSuffix p acc.1
  calls : ∃ calls, acc.1.calls = s.calls ++ calls ∧ calls.map Call.out = acc.2 ∧
    ∀ c ∈ calls, c.callee.2 < s.created
  silent : (∀ outs ∈ acc.2, outs = []) ↔ ∀ id ∈ visited, SilentAt p s id

theorem flushing_nil (h : Invariant p s) : Flushing p s [] (s, []) where
  same := .refl s
  eventBuffer := rfl
  submodules _ _ := rfl
  ideal_eq := by simp [idealWith_nil]
  buffered := h.buffered
  calls := ⟨[], (List.append_nil _).symm, rfl, nofun⟩
  silent := ⟨fun _ => nofun, fun _ => nofun⟩

variable {visited : List ModuleID} {acc acc' : State S × List (List Event)} {smID : ModuleID}

/-- What one iteration has to deliver. -/
theorem Flushing.give (h : Flushing p s visited acc) (hnew : smID ∉ visited) :
    (ideal acc.1).give (s.number? smID) smID (s.collected smID) =
      idealWith s fun id => if id ∈ visited ++ [smID] then s.collected id else [] := by
  rw [h.ideal_eq, ← idealWith_append]
  refine congrArg _ (funext fun id => ?_)
  by_cases hid : id = smID
  · simp [hid, hnew]
  · simp [hid]

/-- **One iteration** of the loop: messages for a submodule that does not exist are buffered, and one
that exists is called. -/
theorem Flushing.step (h : Flushing p s visited acc) (hinv : Invariant p s)
    (hnew : smID ∉ visited) (hstep : flushSubmodule p acc smID = .ok acc') :
    Flushing p s (visited ++ [smID]) acc' := by
  have hcollected : (acc.1.eventBuffer.lookup smID).getD [] = s.collected smID := by
    rw [h.eventBuffer]
    rfl
  have hgive := h.give hnew
  have hsame := h.same.trans (sameModules_flushSubmodule hstep)
  have hcases := flushSubmodule_cases hstep
  simp only [hcollected, h.submodules smID hnew] at hcases
  rcases hcases with ⟨hnone, rfl⟩ | ⟨submodule, result, hlookup, hcall, rfl⟩
  · obtain ⟨hcalls, hsubmodules, hbuffer⟩ := bufferEarlyMsgs_frame p acc.1 (s.collected smID)
    rw [State.number?, hnone] at hgive
    refine ⟨hsame, hbuffer.trans h.eventBuffer, fun id hid => ?_,
      (ideal_bufferEarlyMsgs p acc.1 (hinv.dest_collected smID)).trans hgive,
      h.buffered.bufferEarlyMsgs _, ?_, h.silent.trans ?_⟩
    · rw [hsubmodules]
      exact h.submodules id fun hmem => hid (List.mem_append_left _ hmem)
    · rw [hcalls]
      exact h.calls
    · have hsilent : SilentAt p s smID := fun submodule hsome => by
        rw [hnone] at hsome
        cases hsome
      simp only [List.mem_append, List.mem_singleton, or_imp, forall_and, forall_eq, hsilent,
        and_true]
  · have hnumber : result.1.number = submodule.number := Instance.call_number hcall
    have hsm : s.number? smID = some submodule.number := by
      rw [State.number?, hlookup, Option.map_some]
    rw [hsm, ← hnumber] at hgive
    refine ⟨hsame, h.eventBuffer, fun id hid => ?_, (ideal_called ..).trans hgive,
      h.buffered.congr rfl rfl, ?_, ?_⟩
    · have hid' : id ∉ visited ∧ id ≠ smID := by simpa [not_or] using hid
      rw [State.called, GoMap.lookup_insert_eq, if_neg hid'.2]
      exact h.submodules id hid'.1
    · obtain ⟨calls, hcalls, houts, hlt⟩ := h.calls
      refine ⟨calls ++ [⟨(smID, result.1.number), s.collected smID, result.2⟩], ?_, ?_,
        forall_mem_concat hlt ?_⟩
      · rw [State.called, hcalls, List.append_assoc]
      · rw [List.map_append, houts]
        rfl
      · rw [hnumber]
        exact hinv.numbered.number_lt smID _ hsm
    · have hsilent : SilentAt p s smID ↔ result.2 = [] := by
        obtain ⟨applied, happly, hret⟩ := FallibleLoop.bind_ok_iff.mp hcall
        cases hret
        simp only [SilentAt, hlookup, Option.some.injEq, forall_eq', happly, Except.ok.injEq]
      simp only [List.mem_append, List.mem_singleton, or_imp, forall_and, forall_eq, hsilent,
        h.silent]

/-- What applying the collected events does. -/
structure Flushed (p : ModuleParams S) (s s₁ : State S) (out : List Event) : Prop where
  same : SameModules s s₁
  eventBuffer : s₁.eventBuffer = ∅
  ideal_eq : ideal s₁ = pending s
  buffered : BufferedSuffix p s₁
  calls : ∃ calls, s₁.calls = s.calls ++ calls ∧ out.Perm (outputs calls) ∧
    ∀ c ∈ calls, c.callee.2 < s.created
  silent : out = [] ↔ ∀ id ∈ s.eventBuffer, SilentAt p s id

/-- **Applying the collected events** gives every existing submodule its events, and buffers the
messages for the others. -/
theorem applySubmodulesEvents_flushed (hinv : Invariant p s)
    (h : applySubmodulesEvents p ord s = .ok (s', out)) : Flushed p s s' out := by
  obtain ⟨acc, hfold, h⟩ := FallibleLoop.bind_ok_iff.mp h
  cases h
  have hperm := ord.iteration_perm s.eventBuffer.keys
  have hnodup : (ord.iteration s.eventBuffer.keys).Nodup :=
    hperm.nodup_iff.mpr s.eventBuffer.nodupKeys
  have hflush : Flushing p s (ord.iteration s.eventBuffer.keys) acc := by
    refine FallibleLoop.foldlM_induction (flushing_nil hinv) (fun xs x ys hsplit t t' ht hstep => ?_)
      hfold
    refine ht.step hinv (fun hmem => ?_) hstep
    rw [hsplit] at hnodup
    exact (List.nodup_append.mp hnodup).2.2 x hmem x List.mem_cons_self rfl
  have hmem : ∀ id, id ∈ ord.iteration s.eventBuffer.keys ↔ id ∈ s.eventBuffer := fun id =>
    hperm.mem_iff.trans AList.mem_keys.symm
  refine ⟨hflush.same.trans ⟨fun _ => rfl, rfl, rfl, rfl⟩, rfl, hflush.ideal_eq.trans ?_,
    hflush.buffered.congr rfl rfl, ?_, ?_⟩
  · -- nothing is collected for a submodule that was not visited
    refine congrArg _ (funext fun id => ite_eq_left_iff.mpr fun hid => ?_)
    rw [State.collected, AList.lookup_eq_none.mpr (mt (hmem id).mpr hid)]
    rfl
  · obtain ⟨calls, hcalls, houts, hlt⟩ := hflush.calls
    refine ⟨calls, hcalls, ?_, hlt⟩
    rw [outputs, List.flatMap_def, houts]
    exact (ord.completion_perm acc.2).flatten
  · have hsilent := hflush.silent
    simp only [hmem] at hsilent
    rw [← hsilent, List.flatten_eq_nil_iff]
    exact forall_congr' fun outs => by rw [(ord.completion_perm acc.2).mem_iff]

end Mir.Factory
