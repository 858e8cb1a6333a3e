import Mir.BatchFetcher.Module
import Mir.Events.Types

/-!
# Redirecting standard events

The ten event types of `stdevents`, their methods `NewSrc` and `NewDest`, and the batch fetcher's use of
`NewDest`. Events are pointers, so the methods are modelled on a heap of event objects.

Each of the methods copies the object it is called on and then assigns the new module to the original,
not to the copy. What is returned is the event as it was, at a new address, and the event that was to
be left alone has changed. So a redirection does what it is for only if there is nothing to change.
-/

namespace Mir.StdEvents

/-! ### Events -/

/-- `mirEvent`. -/
structure MirEvent where
  srcModule : ModuleID
  destModule : ModuleID
  deriving DecidableEq

/-- The fields of the types of `stdevents` besides `mirEvent`. Messages and parameters are of type `P`, the
events of a timer of type `E`; a slice of node identifiers may be `nil`. -/
inductive Fields (P E : Type)
  | raw (data : ByteSlice)
  | init
  | sendMessage (destNodes : Option (List NodeID)) (remoteDestModule : ModuleID) (payload : P)
  | messageReceived (sender : NodeID) (payload : P)
  | timerDelay (events : List E) (delay : Int64)
  | timerRepeat (events : List E) (period : Int64) (retentionIndex : RetentionIndex)
  | newSubmodule (submoduleID : ModuleID) (params : P) (retentionIndex : RetentionIndex)
  | garbageCollect (retentionIndex : RetentionIndex)
  | testString (value : GoString)
  | testUint64 (value : UInt64)
  deriving DecidableEq

/-- An event object. -/
structure Object (P E : Type) where
  mirEvent : MirEvent
  fields : Fields P E
  deriving DecidableEq

/-- References to events. -/
abbrev Ref := ℕ

/-- The event objects. -/
abbrev Heap (P : Type) := List (Object P Ref)

variable {P C : Type}

/-! ### Redirections -/

/-- The body of the methods `NewSrc` and `NewDest`, which is the same in all types. -/
def redirect (change : MirEvent → MirEvent) (heap : Heap P) (e : Ref) : Option (Heap P × Ref) :=
  heap[e]?.map fun newE =>
    -- `newE` is a copy, and `e` is assigned to
    (heap.modify e (fun o => { o with mirEvent := change o.mirEvent }) ++ [newE], heap.length)

/-- `NewSrc`. -/
def newSrc (heap : Heap P) (e : Ref) (newSrc : ModuleID) : Option (Heap P × Ref) :=
  redirect ({ · with srcModule := newSrc }) heap e

/-- `NewDest`. -/
def newDest (heap : Heap P) (e : Ref) (newDest : ModuleID) : Option (Heap P × Ref) :=
  redirect ({ · with destModule := newDest }) heap e

/-- What the methods are for: the event that is returned differs from the original in the module that
was to be changed, and no event that existed before has changed. -/
def Redirects (change : MirEvent → MirEvent) (heap : Heap P) (e : Ref)
    (result : Option (Heap P × Ref)) : Prop :=
  ∃ heap' e', result = some (heap', e') ∧ heap <+: heap' ∧
    heap'[e']? = heap[e]?.map fun o => { o with mirEvent := change o.mirEvent }

variable {heap : Heap P} {e : Ref} {o : Object P Ref}

theorem redirect_eq (he : heap[e]? = some o) (change : MirEvent → MirEvent) :
    redirect change heap e =
      some (heap.modify e (fun o => { o with mirEvent := change o.mirEvent }) ++ [o],
        heap.length) := by
  rw [redirect, he]
  rfl

/-- The event that is returned is the original as it was. -/
theorem getElem?_redirect (change : MirEvent → MirEvent) :
    (heap.modify e (fun o => { o with mirEvent := change o.mirEvent }) ++ [o])[heap.length]? =
      some o := by
  rw [← List.length_modify (fun o : Object P Ref => { o with mirEvent := change o.mirEvent }) heap e]
  exact List.getElem?_concat_length

/-- **A redirection works exactly if it changes nothing.** -/
theorem redirects_redirect_iff (he : heap[e]? = some o) (change : MirEvent → MirEvent) :
    Redirects change heap e (redirect change heap e) ↔ change o.mirEvent = o.mirEvent := by
  constructor
  · rintro ⟨heap', e', hresult, -, hcopy⟩
    rw [redirect_eq he change] at hresult
    cases hresult
    rw [getElem?_redirect, he] at hcopy
    exact (congrArg Object.mirEvent (Option.some.inj hcopy)).symm
  · intro hsame
    have hmodify : heap.modify e (fun o => { o with mirEvent := change o.mirEvent }) = heap := by
      refine List.ext_getElem? fun i => ?_
      rw [List.getElem?_modify]
      split
      next hi =>
        rw [← hi, he]
        exact congrArg (fun m => some { o with mirEvent := m }) hsame
      next => exact Option.map_id'
    refine ⟨_, _, redirect_eq he change, ?_, ?_⟩
    · rw [hmodify]
      exact List.prefix_append _ _
    · rw [getElem?_redirect, he, Option.map_some, hsame]

/-! ### Events that pass through the batch fetcher -/

/-- The event, if it is one that passes through. -/
def other? : BatchFetcher.AppEvent Ref → Option Ref
  | .other ev => some ev.content
  | .newEpoch .. | .newOrderedBatch _ | .snapshotRequest _ | .restoreState _ => none

/-- The event of an item of the output queue, if it is one that passes through. -/
def queued? : BatchFetcher.OutputItem Ref → Option Ref
  | .relay event _ => other? event
  | .batch .. => none

/-- The event that is emitted, if it is one that passes through. -/
def emitted? : BatchFetcher.Output C Ref → Option Ref
  | .app event => other? event
  | .newEpoch .. | .requestTransactions .. | .clientProgress .. => none

/-- The destination of an event. -/
def destModule (heap : Heap P) (ev : Ref) : Option ModuleID := heap[ev]?.map (·.mirEvent.destModule)

/-- `UponOtherEvent` of the batch fetcher. -/
def passThrough (heap : Heap P) (s : BatchFetcher.State Ref) (ev : Ref) :
    Option (Heap P × BatchFetcher.State Ref × List (BatchFetcher.Output C Ref)) := do
  let (heap', ev') ← newDest heap ev s.destination
  some (heap', BatchFetcher.relayOther s ⟨true, ← destModule heap' ev', ev'⟩)

/-- The batch fetcher forwards an event: behind those that still wait, an event for its destination
module is emitted or queued. -/
def Forwards (C : Type) (heap : Heap P) (s : BatchFetcher.State Ref) (ev : Ref) : Prop :=
  ∃ (heap' : Heap P) (s' : BatchFetcher.State Ref) (out : List (BatchFetcher.Output C Ref))
    (ev' : Ref), passThrough heap s ev = some (heap', s', out) ∧
      out.filterMap emitted? ++ s'.output.filterMap queued? = s.output.filterMap queued? ++ [ev'] ∧
      destModule heap' ev' = some s.destination

/-- `Flush` emits events from the front of the queue. -/
theorem emitted_flush (epochNr : EpochNr) (progress : ClientProgress.Progress)
    (items : List (BatchFetcher.OutputItem Ref)) :
    (BatchFetcher.flush (C := C) epochNr progress items).2.filterMap emitted? ++
      (BatchFetcher.flush (C := C) epochNr progress items).1.2.filterMap queued? =
        items.filterMap queued? := by
  -- the hooks emit no event that passes through
  have hitem : ∀ (progress progress' : ClientProgress.Progress) (item : BatchFetcher.OutputItem Ref)
      (out : List (BatchFetcher.Output C Ref)),
      BatchFetcher.emitItem epochNr progress item = some (progress', out) →
        out.filterMap emitted? = (queued? item).toList := by
    intro progress progress' item out hout
    rcases item with ⟨event, _ | _ | _⟩ | ⟨ref, _ | txs⟩
    · cases hout
      cases event <;> rfl
    · cases hout
      cases event <;> rfl
    · cases hout
      cases event <;> rfl
    · cases hout
    · cases hout
      rfl
  induction items generalizing progress with
  | nil => rfl
  | cons item items ih =>
    rw [BatchFetcher.flush]
    split
    next => rfl
    next progress' out hout =>
      rw [List.filterMap_append, List.append_assoc, ih, hitem _ _ _ _ hout]
      cases hqueued : queued? item <;> simp [hqueued]

/-- The batch fetcher passes on what `NewDest` returns. -/
theorem forwards_iff (he : heap[e]? = some o) (s : BatchFetcher.State Ref) :
    Forwards C heap s e ↔ o.mirEvent.destModule = s.destination := by
  let heap' := heap.modify e (fun o =>
    { o with mirEvent := { o.mirEvent with destModule := s.destination } }) ++ [o]
  have hcopy : destModule heap' heap.length = some o.mirEvent.destModule := by
    rw [destModule, getElem?_redirect ({ · with destModule := s.destination })]
    rfl
  have hpass : passThrough (C := C) heap s e = some (heap',
      BatchFetcher.relayOther s ⟨true, o.mirEvent.destModule, heap.length⟩) := by
    rw [passThrough, newDest, redirect_eq he]
    exact congrArg (Option.bind · _) hcopy
  have hqueue := emitted_flush (C := C) s.epochNr s.clientProgress
    (s.output ++ [.relay (.other ⟨true, o.mirEvent.destModule, heap.length⟩) none])
  rw [List.filterMap_append] at hqueue
  constructor
  · rintro ⟨_, _, _, ev', heq, hev', hdest⟩
    rw [hpass] at heq
    cases heq
    -- the event that is passed on is the copy
    obtain rfl : heap.length = ev' := by
      simpa [queued?, other?] using hqueue.symm.trans hev'
    exact Option.some.inj (hcopy.symm.trans hdest)
  · intro hdest
    exact ⟨heap', _, _, heap.length, hpass, hqueue, hcopy.trans (congrArg some hdest)⟩

/-- **Redirections and the events they change.** For every event of every type, `NewDest`, `NewSrc` and
the batch fetcher's forwarding do what they are for exactly if the event has the requested module
already. -/
theorem newDest_newSrc_forwards_iff (he : heap[e]? = some o) (x : ModuleID)
    (s : BatchFetcher.State Ref) :
    (Redirects ({ · with destModule := x }) heap e (newDest heap e x) ↔
      o.mirEvent.destModule = x) ∧
    (Redirects ({ · with srcModule := x }) heap e (newSrc heap e x) ↔ o.mirEvent.srcModule = x) ∧
    (Forwards C heap s e ↔ o.mirEvent.destModule = s.destination) := by
  obtain ⟨⟨src, dest⟩, fields⟩ := o
  refine ⟨(redirects_redirect_iff he _).trans ?_, (redirects_redirect_iff he _).trans ?_,
    forwards_iff he s⟩
  · simp [eq_comm]
  · simp [eq_comm]

/-- An event from module 1 for module 2. -/
def plainEvent : Object Bytes Ref := ⟨⟨[1], [2]⟩, .testUint64 7⟩

theorem newDest_newSrc_forwards_iff_same :
    Redirects ({ · with destModule := [2] }) [plainEvent] 0 (newDest [plainEvent] 0 [2]) ∧
      Forwards Unit [plainEvent] ⟨[2], 0, ∅, [], 0⟩ 0 := by
  have he : [plainEvent][0]? = some plainEvent := rfl
  have h := newDest_newSrc_forwards_iff (C := Unit) he [2] ⟨[2], 0, ∅, [], 0⟩
  exact ⟨h.1.mpr rfl, h.2.2.mpr rfl⟩

/-- An event that is redirected from module 2 to module 3: the original is changed, and what is returned is
still for module 2. -/
theorem newDest_changes_original :
    newDest [plainEvent] 0 [3] = some ([⟨⟨[1], [3]⟩, .testUint64 7⟩, plainEvent], 1) ∧
      ¬Redirects ({ · with destModule := [3] }) [plainEvent] 0 (newDest [plainEvent] 0 [3]) ∧
      ¬Redirects ({ · with srcModule := [3] }) [plainEvent] 0 (newSrc [plainEvent] 0 [3]) ∧
      ¬Forwards Unit [plainEvent] ⟨[3], 0, ∅, [], 0⟩ 0 := by
  refine ⟨rfl, ?_, ?_, ?_⟩
  · exact mt (redirects_redirect_iff (o := plainEvent) rfl _).mp (by decide)
  · exact mt (redirects_redirect_iff (o := plainEvent) rfl _).mp (by decide)
  · exact mt (forwards_iff (C := Unit) (o := plainEvent) rfl _).mp (by decide)

end Mir.StdEvents
