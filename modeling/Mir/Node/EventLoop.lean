import Mir.Node.EventBuffer

/-!
# The node's event loop

`Node.process`: in each iteration the loop offers to receive a list of events, to stop, and to send to
each module a batch of the events that are outstanding for it; a `select` statement chooses one of the
cases that are ready (`Choice`). When too many events are outstanding, input from active modules is
paused until their number has dropped.

The loop neither loses, duplicates nor reorders events, and is never paused without work
(`LoopInvariant`). But `Run` adds one `Init` event for each module before the loop starts, and does not
check the threshold: a node with more modules than `PauseInputThreshold` starts with input that should
be paused (`starts_unpaused`). Apart from this the invariant holds in every reachable state:
`loop_invariant_iff`.
-/

namespace Mir.EventLoop

open Events

/-! ### Configuration -/

/-- `NodeConfig`, as far as the event loop reads it. -/
structure NodeConfig where
  maxEventBatchSize : ℤ
  pauseInputThreshold : ℤ
  resumeInputThreshold : ℤ

/-- The errors of `Validate`, with the values that they report. -/
inductive ConfigError
  | maxEventBatchSize (got : ℤ)
  | pauseInputThreshold (got : ℤ)
  | resumeInputThreshold (got : ℤ)
  | thresholds (pause resume : ℤ)
  deriving DecidableEq

/-- `DefaultNodeConfig`. -/
def defaultNodeConfig : NodeConfig := ⟨512, 8192, 6144⟩

/-- `Validate`. -/
def NodeConfig.validate (c : NodeConfig) : Except ConfigError Unit :=
  if c.maxEventBatchSize ≤ 0 then .error (.maxEventBatchSize c.maxEventBatchSize)
  else if c.pauseInputThreshold ≤ 0 then .error (.pauseInputThreshold c.pauseInputThreshold)
  else if c.resumeInputThreshold < 0 then .error (.resumeInputThreshold c.resumeInputThreshold)
  else if c.pauseInputThreshold < c.resumeInputThreshold then
    .error (.thresholds c.pauseInputThreshold c.resumeInputThreshold)
  else .ok ()

/-- What a valid configuration guarantees. -/
theorem NodeConfig.validate_eq_ok_iff {c : NodeConfig} :
    c.validate = .ok () ↔ 0 < c.maxEventBatchSize ∧ 0 < c.pauseInputThreshold ∧
      0 ≤ c.resumeInputThreshold ∧ c.resumeInputThreshold ≤ c.pauseInputThreshold := by
  rw [validate]
  split_ifs <;> simp <;> omega

/-! ### The loop -/

/-- The node, as far as the event loop uses it. The last two components record all events that were
added, and the batches that were sent to the work channels. -/
structure Node where
  pendingEvents : EventBuffer
  inputPaused : Bool
  failed : Bool
  returned : Bool
  added : List Event
  sent : List (ModuleID × List Event)

/-- The cases of the `select` statement. The last one is not a case of it: another goroutine reports an
error. -/
inductive Choice
  | ctxDone
  | eventsIn (events : EventList)
  | exit
  | dispatch (m : ModuleID)
  | workerFailed

/-- `createInitEvents`. -/
def createInitEvents (modules : List ModuleID) : List Event := modules.map fun m => .std m .init

/-- The node when the loop starts. `Run` adds the `Init` events, `Debug` does not. -/
def start (modules : List ModuleID) (debugMode : Bool) : Fallible Node :=
  if debugMode then .ok ⟨newEventBuffer modules, false, false, false, [], []⟩
  else do
    let pendingEvents ← (newEventBuffer modules).add (listOf (createInitEvents modules))
    return ⟨pendingEvents, false, false, false, createInitEvents modules, []⟩

/-- `EventList.Head`. -/
def head (n : ℤ) (events : List Event) : List Event := events.take n.toNat

/-- `EventList.RemoveFront`. -/
def removeFront (n : ℕ) (events : List Event) : List Event := events.drop n

/-- The reaction to an element received from `eventsIn`. -/
def Node.receive (c : NodeConfig) (n : Node) (events : EventList) : Fallible Node := do
  let pendingEvents ← n.pendingEvents.add events
  return { n with
    pendingEvents := pendingEvents
    inputPaused := if c.pauseInputThreshold < pendingEvents.totalEvents then true else n.inputPaused
    added := n.added ++ events.reduceOption }

/-- The reaction to a batch that was sent to a work channel. -/
def Node.dispatch (c : NodeConfig) (n : Node) (m : ModuleID) : Node :=
  let eventBatch := head c.maxEventBatchSize (n.pendingEvents.buffer m)
  let numEvents := eventBatch.length
  let totalEvents := n.pendingEvents.totalEvents - numEvents
  { n with
    pendingEvents :=
      ⟨n.pendingEvents.buffers.insert m (removeFront numEvents (n.pendingEvents.buffer m)),
        totalEvents⟩
    inputPaused := if totalEvents ≤ c.resumeInputThreshold then false else n.inputPaused
    sent := n.sent ++ [(m, eventBatch)] }

/-- One iteration. -/
def step (c : NodeConfig) (n : Node) : Choice → Fallible Node
  | .ctxDone | .workerFailed => .ok { n with failed := true }
  | .eventsIn events => n.receive c events
  | .exit => .ok { n with returned := n.failed }
  | .dispatch m => .ok (n.dispatch c m)

/-- The cases that may be chosen: a module is offered a batch only if it has outstanding events. -/
def Enabled (n : Node) : Choice → Prop
  | .ctxDone | .workerFailed | .eventsIn _ => n.returned = false
  | .exit => n.returned = false ∧ n.failed = true
  | .dispatch m => n.returned = false ∧ ∃ buffer, n.pendingEvents.buffers.lookup m = some buffer ∧
      buffer ≠ []

/-- The nodes at the beginning of each iteration. -/
inductive Reachable (c : NodeConfig) (modules : List ModuleID) (debugMode : Bool) : Node → Prop
  | start {n : Node} : start modules debugMode = .ok n → Reachable c modules debugMode n
  | step {n n' : Node} {choice : Choice} : Reachable c modules debugMode n → Enabled n choice →
      step c n choice = .ok n' → Reachable c modules debugMode n'

/-! ### What the loop guarantees -/

/-- The events that were sent to a module. -/
def Node.sentTo (n : Node) (m : ModuleID) : List Event :=
  (n.sent.filter fun e => decide (e.1 = m)).flatMap Prod.snd

/-- No event is lost, duplicated or reordered, the outstanding events are counted, input is paused when
too many events are outstanding, and there is work as long as it is paused. -/
structure LoopInvariant (c : NodeConfig) (modules : List ModuleID) (n : Node) : Prop where
  delivered : ∀ m ∈ modules, n.sentTo m ++ n.pendingEvents.buffer m = routed m n.added
  counted : n.pendingEvents.Counted modules
  paused : c.pauseInputThreshold < n.pendingEvents.totalEvents → n.inputPaused = true
  working : n.inputPaused = true → c.resumeInputThreshold < n.pendingEvents.totalEvents ∧
    ∃ m ∈ modules, n.pendingEvents.buffer m ≠ []

/-- What holds whether or not the threshold is exceeded at the start. -/
structure Accounted (c : NodeConfig) (modules : List ModuleID) (n : Node) : Prop where
  buffers : n.pendingEvents.For modules
  delivered : ∀ m ∈ modules, n.sentTo m ++ n.pendingEvents.buffer m = routed m n.added
  counted : n.pendingEvents.Counted modules
  above : n.inputPaused = true → c.resumeInputThreshold < n.pendingEvents.totalEvents

variable {c : NodeConfig} {modules : List ModuleID} {debugMode : Bool} {n n' : Node}

theorem start_eq_ok (h : start modules debugMode = .ok n) :
    n = ⟨(if debugMode then [] else createInitEvents modules).foldl .push (newEventBuffer modules),
      false, false, false, if debugMode then [] else createInitEvents modules, []⟩ := by
  rw [start] at h
  split at h
  next hdebug =>
    cases h
    simp [hdebug]
  next hrun =>
    obtain ⟨eb, hadd, h⟩ := Fallible.bind_eq_ok.mp h
    obtain ⟨events, hevents, rfl⟩ := EventBuffer.add_eq_ok_iff.mp hadd
    cases h
    have hinj : createInitEvents modules = events :=
      List.map_injective_iff.mpr (Option.some_injective _) hevents
    simp [hrun, hinj]

theorem buffer_new (modules : List ModuleID) (m : ModuleID) :
    (newEventBuffer modules).buffer m = [] := by
  rw [EventBuffer.buffer, newEventBuffer, GoMap.lookup_ofKeys]
  split <;> rfl

theorem accounted_start (c : NodeConfig) (hnodup : modules.Nodup)
    (h : start modules debugMode = .ok n) : Accounted c modules n := by
  rw [start_eq_ok h]
  generalize (if debugMode then [] else createInitEvents modules) = events
  have hfor := EventBuffer.for_new modules
  refine ⟨hfor.pushAll events, fun m hm => ?_,
    (EventBuffer.counted_new modules).pushAll hfor hnodup events, nofun⟩
  change [] ++ (events.foldl .push (newEventBuffer modules)).buffer m = routed m events
  rw [hfor.buffer_pushAll hm, buffer_new, List.nil_append, List.nil_append]

/-- What receiving a list does: its events are added, in order. -/
theorem receive_eq_ok {events : EventList} (h : n.receive c events = .ok n') :
    ∃ evs, n' = { n with
      pendingEvents := evs.foldl .push n.pendingEvents
      inputPaused := if c.pauseInputThreshold < (evs.foldl .push n.pendingEvents).totalEvents then
        true else n.inputPaused
      added := n.added ++ evs } := by
  obtain ⟨eb, hadd, h⟩ := Fallible.bind_eq_ok.mp h
  obtain ⟨evs, rfl, rfl⟩ := EventBuffer.add_eq_ok_iff.mp hadd
  cases h
  refine ⟨evs, ?_⟩
  have hreduce : (listOf evs).reduceOption = evs := by
    simp [listOf, List.reduceOption]
  rw [hreduce]

theorem Accounted.receive (h : Accounted c modules n) (hvalid : c.validate = .ok ())
    (hnodup : modules.Nodup) {events : EventList} (hstep : n.receive c events = .ok n') :
    Accounted c modules n' := by
  obtain ⟨-, -, -, hle⟩ := NodeConfig.validate_eq_ok_iff.mp hvalid
  obtain ⟨evs, rfl⟩ := receive_eq_ok hstep
  refine ⟨h.buffers.pushAll evs, fun m hm => ?_, h.counted.pushAll h.buffers hnodup evs,
    fun hpaused => ?_⟩
  · change n.sentTo m ++ (evs.foldl .push n.pendingEvents).buffer m = routed m (n.added ++ evs)
    rw [h.buffers.buffer_pushAll hm, ← List.append_assoc, h.delivered m hm, routed_append]
  · -- the number of outstanding events only grows
    have htotal := EventBuffer.totalEvents_pushAll h.buffers evs
    change c.resumeInputThreshold < (evs.foldl .push n.pendingEvents).totalEvents
    change (if c.pauseInputThreshold < (evs.foldl .push n.pendingEvents).totalEvents then true
      else n.inputPaused) = true at hpaused
    split at hpaused
    next hlt => omega
    next =>
      have habove := h.above hpaused
      omega

/-- A batch is sent, and what is left of the buffer is the rest. -/
theorem buffer_dispatch (n : Node) (m m' : ModuleID) :
    (n.dispatch c m).pendingEvents.buffer m' = if m' = m then
      (n.pendingEvents.buffer m).drop (head c.maxEventBatchSize (n.pendingEvents.buffer m)).length
    else n.pendingEvents.buffer m' := by
  rw [EventBuffer.buffer, Node.dispatch, GoMap.lookup_insert_eq]
  split <;> rfl

theorem sentTo_dispatch (n : Node) (m m' : ModuleID) :
    (n.dispatch c m).sentTo m' = n.sentTo m' ++ if m' = m then
      head c.maxEventBatchSize (n.pendingEvents.buffer m) else [] := by
  rw [Node.sentTo, Node.dispatch, List.filter_append, List.flatMap_append]
  by_cases hm : m' = m
  · simp [hm, Node.sentTo]
  · have hm' : ¬ m = m' := fun heq => hm heq.symm
    simp [hm, hm', Node.sentTo]

theorem head_append_drop (k : ℤ) (events : List Event) :
    head k events ++ events.drop (head k events).length = events := by
  rw [head, List.length_take]
  rcases Nat.le_total k.toNat events.length with hle | hle
  · rw [Nat.min_eq_left hle, List.take_append_drop]
  · rw [Nat.min_eq_right hle, List.take_of_length_le hle, List.drop_length, List.append_nil]

theorem Accounted.dispatch (h : Accounted c modules n) (hnodup : modules.Nodup) {m : ModuleID}
    {buffer : List Event} (hm : n.pendingEvents.buffers.lookup m = some buffer) :
    Accounted c modules (n.dispatch c m) := by
  have hmem : m ∈ modules := by
    have hsome := h.buffers m
    rw [hm] at hsome
    exact of_decide_eq_true hsome.symm
  refine ⟨fun m' => ?_, fun m' hm' => ?_, ?_, fun hpaused => ?_⟩
  · change ((n.pendingEvents.buffers.insert m _).lookup m').isSome = _
    rw [GoMap.lookup_insert_eq]
    split
    next heq => rw [heq, decide_eq_true hmem, Option.isSome_some]
    next => exact h.buffers m'
  · change _ = routed m' n.added
    rw [buffer_dispatch, sentTo_dispatch, ← h.delivered m' hm']
    by_cases heq : m' = m
    · rw [if_pos heq, if_pos heq, List.append_assoc, head_append_drop, heq]
    · rw [if_neg heq, if_neg heq, List.append_nil]
  · -- the number drops by the length of the batch
    have hsum := EventBuffer.sum_map_change hnodup hmem
      (f := fun m => ((n.pendingEvents.buffer m).length : ℤ))
      (g := fun m' => (((n.dispatch c m).pendingEvents.buffer m').length : ℤ))
      fun m' _ hne => by rw [buffer_dispatch, if_neg hne]
    have hlen := congrArg List.length
      (head_append_drop c.maxEventBatchSize (n.pendingEvents.buffer m))
    have hcounted : n.pendingEvents.totalEvents = _ := h.counted
    rw [List.length_append] at hlen
    rw [EventBuffer.Counted, hsum, buffer_dispatch, if_pos rfl, ← hcounted]
    change n.pendingEvents.totalEvents - _ = _
    omega
  · change (if (n.dispatch c m).pendingEvents.totalEvents ≤ c.resumeInputThreshold then false
      else n.inputPaused) = true at hpaused
    split at hpaused
    next => cases hpaused
    next hlt => exact Int.lt_of_not_ge hlt

/-- **Every reachable node is accounted for.** -/
theorem Reachable.accounted (hvalid : c.validate = .ok ()) (hnodup : modules.Nodup)
    (h : Reachable c modules debugMode n) : Accounted c modules n := by
  induction h with
  | start hstart => exact accounted_start c hnodup hstart
  | @step n n' choice _ henabled hstep ih =>
    cases choice with
    | eventsIn events => exact ih.receive hvalid hnodup hstep
    | dispatch m =>
      cases hstep
      obtain ⟨-, buffer, hbuffer, -⟩ := henabled
      exact ih.dispatch hnodup hbuffer
    | _ =>
      cases hstep
      exact ⟨ih.buffers, ih.delivered, ih.counted, ih.above⟩

/-! ### Pausing -/

/-- The `Init` events that the buffer holds at the start. -/
def initEvents (modules : List ModuleID) (debugMode : Bool) : ℕ :=
  if debugMode then 0 else (modules.filter fun m => decide (m.top ∈ modules)).length

theorem totalEvents_start (h : start modules debugMode = .ok n) :
    n.pendingEvents.totalEvents = initEvents modules debugMode := by
  have htotal := EventBuffer.totalEvents_pushAll (EventBuffer.for_new modules)
    (if debugMode then [] else createInitEvents modules)
  have hzero : (newEventBuffer modules).totalEvents = 0 := rfl
  rw [start_eq_ok h, htotal, hzero, zero_add, initEvents]
  cases debugMode with
  | true => rfl
  | false =>
    simp only [Bool.false_eq_true, if_false, createInitEvents, List.filter_map, List.length_map]
    rfl

/-- Input is paused whenever the threshold is exceeded, if it is not exceeded at the start. -/
theorem Reachable.paused (hvalid : c.validate = .ok ())
    (hinit : (initEvents modules debugMode : ℤ) ≤ c.pauseInputThreshold)
    (h : Reachable c modules debugMode n) :
    c.pauseInputThreshold < n.pendingEvents.totalEvents → n.inputPaused = true := by
  obtain ⟨-, -, -, hle⟩ := NodeConfig.validate_eq_ok_iff.mp hvalid
  induction h with
  | start hstart =>
    intro hlt
    rw [totalEvents_start hstart] at hlt
    omega
  | @step n n' choice _ henabled hstep ih =>
    cases choice with
    | eventsIn events =>
      obtain ⟨evs, rfl⟩ := receive_eq_ok hstep
      exact fun hlt => if_pos hlt
    | dispatch m =>
      cases hstep
      intro hlt
      change c.pauseInputThreshold < n.pendingEvents.totalEvents - _ at hlt
      change (if (n.dispatch c m).pendingEvents.totalEvents ≤ c.resumeInputThreshold then false
        else n.inputPaused) = true
      have hnot : ¬ (n.dispatch c m).pendingEvents.totalEvents ≤ c.resumeInputThreshold := by
        change ¬ n.pendingEvents.totalEvents - _ ≤ c.resumeInputThreshold
        omega
      rw [if_neg hnot]
      exact ih (by omega)
    | _ =>
      cases hstep
      exact ih

/-- If events are outstanding, they are outstanding for some module. -/
theorem exists_buffer_ne_nil {eb : EventBuffer} (h : eb.Counted modules)
    (hpos : 0 < eb.totalEvents) : ∃ m ∈ modules, eb.buffer m ≠ [] := by
  by_contra hnone
  push Not at hnone
  have hzero : (modules.map fun m => ((eb.buffer m).length : ℤ)).sum = 0 := by
    refine List.sum_eq_zero fun k hk => ?_
    obtain ⟨m, hm, rfl⟩ := List.mem_map.mp hk
    rw [hnone m hm]
    rfl
  rw [EventBuffer.Counted, hzero] at h
  omega

/-- **The event loop keeps its invariant** in every reachable state if and only if at the start the
buffer holds at most `PauseInputThreshold` events for initializing modules. -/
theorem loop_invariant_iff (c : NodeConfig) (modules : List ModuleID) (debugMode : Bool)
    (hvalid : c.validate = .ok ()) (hnodup : modules.Nodup) :
    (∀ n, Reachable c modules debugMode n → LoopInvariant c modules n) ↔
      (initEvents modules debugMode : ℤ) ≤ c.pauseInputThreshold := by
  obtain ⟨-, -, hresume, -⟩ := NodeConfig.validate_eq_ok_iff.mp hvalid
  constructor
  · intro hall
    -- the node at the start is not paused
    have hstart : ∃ n, start modules debugMode = .ok n := by
      rw [start]
      split
      next => exact ⟨_, rfl⟩
      next => exact ⟨_, Fallible.bind_eq_ok.mpr ⟨_, EventBuffer.add_eq_ok_iff.mpr ⟨_, rfl, rfl⟩, rfl⟩⟩
    obtain ⟨n, hn⟩ := hstart
    have hunpaused : n.inputPaused = false := by rw [start_eq_ok hn]
    by_contra hlt
    have hpaused := (hall n (.start hn)).paused (by rw [totalEvents_start hn]; omega)
    rw [hunpaused] at hpaused
    cases hpaused
  · intro hinit n hn
    have hacc := hn.accounted hvalid hnodup
    refine ⟨hacc.delivered, hacc.counted, hn.paused hvalid hinit, fun hpaused => ?_⟩
    have habove := hacc.above hpaused
    exact ⟨habove, exists_buffer_ne_nil hacc.counted (by omega)⟩

/-- The default configuration with three modules. -/
theorem default_config_three_modules : defaultNodeConfig.validate = .ok () ∧
    ∀ n, Reachable defaultNodeConfig [[97], [98], [99]] false n →
      LoopInvariant defaultNodeConfig [[97], [98], [99]] n :=
  ⟨rfl, (loop_invariant_iff defaultNodeConfig _ false rfl (by decide)).mpr (by decide)⟩

/-- A node with two modules starts with two events, but is not paused when more than one event is
outstanding. -/
theorem starts_unpaused : ¬ ∀ (c : NodeConfig) (modules : List ModuleID) (debugMode : Bool),
    c.validate = .ok () → modules.Nodup →
    ∀ n, Reachable c modules debugMode n → LoopInvariant c modules n := by
  intro hall
  have hstart : start [[97], [98]] false =
      .ok ⟨[.std [97] .init, .std [98] .init].foldl .push (newEventBuffer [[97], [98]]),
        false, false, false, [.std [97] .init, .std [98] .init], []⟩ := rfl
  have hinv := hall ⟨1, 1, 0⟩ [[97], [98]] false rfl (by decide) _ (.start hstart)
  have hpaused := hinv.paused (by decide)
  cases hpaused

end Mir.EventLoop
