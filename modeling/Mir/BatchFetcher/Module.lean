import Mir.Trantor.ClientProgress

/-!
# The batch fetcher

`batchfetcher.NewModule`: relays the events of the ordering protocol to the application, in the same
order, and replaces certificates by the transactions the availability layer provides for them.
Outgoing events wait in a queue behind the certificates whose transactions are missing. An item of
the queue may have a hook that is executed when the item leaves the queue: it removes from a batch the
transactions that have been delivered before, or reports which transactions have been delivered.

Transactions are assigned to an item through a pointer to it, so an item that `RestoreState` has
dropped from the queue can still receive them. Items of certificates have a reference for that.
-/

namespace Mir.BatchFetcher

open Checkpoint (ClientID StableCheckpoint)
open ClientProgress (Progress)
open FallibleLoop

/-! ### Events -/

/-- Identifiers of modules. -/
abbrev ModuleID := GoString

/-- References to queue items. -/
abbrev ItemRef := ℕ

/-- An event that passes through, with a content of type `E`: one of `stdevents`, or a protobuf event. -/
structure OtherEvent (E : Type) where
  standard : Bool
  dest : ModuleID
  content : E
  deriving DecidableEq

/-- `NewDest`, as a function of the event. The methods of `stdevents` return a copy of the event that has
the old destination. -/
def OtherEvent.newDest {E : Type} (ev : OtherEvent E) (newDest : ModuleID) : OtherEvent E :=
  if ev.standard then ev else { ev with dest := newDest }

/-- The events of the output queue; all but the last kind are created for the application. -/
inductive AppEvent (E : Type)
  | newEpoch (epochNr : EpochNr) (protocolModule : ModuleID)
  | newOrderedBatch (txs : List Transaction)
  | snapshotRequest (replyTo : ModuleID)
  | restoreState (mirChkp : StableCheckpoint)
  | other (ev : OtherEvent E)
  deriving DecidableEq

/-- Events for the batch fetcher, with certificates of type `C`. -/
inductive Event (C E : Type)
  | newEpoch (newEpochNr : EpochNr) (protocolModule : ModuleID)
  | deliverCert (sn : SeqNr) (cert : C) (empty : Bool)
  | snapshotRequest (replyTo : ModuleID)
  | restoreState (mirChkp : StableCheckpoint)
  | provideTransactions (txs : List Transaction) (queueItem : ItemRef)
  | init
  | other (ev : OtherEvent E)
  deriving DecidableEq

/-- What the batch fetcher emits: events of the output queue, and events for the mempool, the
availability module and the checkpoint module of an epoch. -/
inductive Output (C E : Type)
  | app (ev : AppEvent E)
  | newEpoch (epochNr : EpochNr) (clientProgress : Checkpoint.ClientProgress)
  | requestTransactions (epochNr : EpochNr) (cert : C) (queueItem : ItemRef)
  | clientProgress (epochNr : EpochNr) (progress : Checkpoint.ClientProgress)
  deriving DecidableEq

/-! ### The output queue -/

/-- The hooks of relayed events. -/
inductive Hook
  | newEpoch
  | snapshotRequest
  deriving DecidableEq

/-- `outputItem`: an event to relay with its hook, or the item of a certificate, whose event is set
when the transactions arrive and whose hook is `filterDuplicates`. -/
inductive OutputItem (E : Type)
  | relay (event : AppEvent E) (f : Option Hook)
  | batch (ref : ItemRef) (txs : Option (List Transaction))
  deriving DecidableEq

variable {C E : Type}

/-- One iteration of the loop of `filterDuplicates`. -/
def filterStep (acc : Progress × List Transaction) (tx : Transaction) :
    Progress × List Transaction :=
  let added := acc.1.add tx.clientID tx.txNo
  (added.1, if added.2 then acc.2 ++ [tx] else acc.2)

/-- `filterDuplicates`. -/
def filterDuplicates (clientProgress : Progress) (txs : List Transaction) :
    Progress × List Transaction :=
  txs.foldl filterStep (clientProgress, [])

/-- What happens to the first item of the queue in `Flush`: its hook is executed and its event
emitted, unless there is none yet. -/
def emitItem (epochNr : EpochNr) (clientProgress : Progress) :
    OutputItem E → Option (Progress × List (Output C E))
  | .batch _ none => none
  | .batch _ (some txs) =>
    let filtered := filterDuplicates clientProgress txs
    some (filtered.1, [.app (.newOrderedBatch filtered.2)])
  | .relay event none => some (clientProgress, [.app event])
  | .relay event (some .newEpoch) =>
    let collected := clientProgress.garbageCollect.1
    some (collected, [.newEpoch epochNr collected.pb, .app event])
  | .relay event (some .snapshotRequest) =>
    let collected := clientProgress.garbageCollect.1
    some (collected, [.clientProgress epochNr collected.pb, .app event])

/-- `outputQueue.Flush`. -/
def flush (epochNr : EpochNr) :
    Progress → List (OutputItem E) → (Progress × List (OutputItem E)) × List (Output C E)
  | clientProgress, [] => ((clientProgress, []), [])
  | clientProgress, item :: items =>
    match emitItem epochNr clientProgress item with
    | none => ((clientProgress, item :: items), [])
    | some (clientProgress', out) =>
      let flushed := flush epochNr clientProgress' items
      (flushed.1, out ++ flushed.2)

/-- Setting the event of the item with the given reference. -/
def OutputItem.setTxs (queueItem : ItemRef) (txs : List Transaction) :
    OutputItem E → OutputItem E
  | .batch ref old => .batch ref (if ref = queueItem then some txs else old)
  | .relay event f => .relay event f

/-! ### The module -/

/-- The variables of the module, `mc.Destination`, and the number of items created for certificates. -/
structure State (E : Type) where
  destination : ModuleID
  epochNr : EpochNr
  clientProgress : Progress
  output : List (OutputItem E)
  created : ItemRef
  deriving DecidableEq

/-- `output.Flush`, in a state. -/
def State.flush (s : State E) : State E × List (Output C E) :=
  let flushed := BatchFetcher.flush s.epochNr s.clientProgress s.output
  ({ s with clientProgress := flushed.1.1, output := flushed.1.2 }, flushed.2)

/-- `output.Enqueue`. -/
def State.enqueue (s : State E) (item : OutputItem E) : State E :=
  { s with output := s.output ++ [item] }

/-- `UponNewEpoch`. -/
def uponNewEpoch (s : State E) (newEpochNr : EpochNr) (protocolModule : ModuleID) :
    State E × List (Output C E) :=
  let s := { s with epochNr := newEpochNr }
  (s.enqueue (.relay (.newEpoch newEpochNr protocolModule) (some .newEpoch))).flush

/-- `UponDeliverCert`. -/
def uponDeliverCert (s : State E) (cert : C) (empty : Bool) : State E × List (Output C E) :=
  let item := s.created
  let s := { s with created := item + 1 }
  if empty then
    (s.enqueue (.batch item (some []))).flush
  else
    (s.enqueue (.batch item none), [.requestTransactions s.epochNr cert item])

/-- `UponSnapshotRequest`. -/
def uponSnapshotRequest (s : State E) (replyTo : ModuleID) : State E × List (Output C E) :=
  (s.enqueue (.relay (.snapshotRequest replyTo) (some .snapshotRequest))).flush

/-- `StableCheckpoint.ClientProgress`. -/
def clientProgressOf (chkp : StableCheckpoint) : Fallible Progress := do
  let data ← chkp.epochData
  let progress ← deref data.clientProgress
  return .fromPb progress

/-- `UponRestoreState`. -/
def uponRestoreState (s : State E) (mirChkp : StableCheckpoint) :
    Fallible (State E × List (Output C E)) := do
  let epochNr ← mirChkp.epoch
  let clientProgress ← clientProgressOf mirChkp
  return (⟨s.destination, epochNr, clientProgress, [], s.created⟩, [.app (.restoreState mirChkp)])

/-- `UponProvideTransactions`. -/
def uponProvideTransactions (s : State E) (txs : List Transaction) (queueItem : ItemRef) :
    State E × List (Output C E) :=
  State.flush { s with output := s.output.map (.setTxs queueItem txs) }

/-- What `UponOtherEvent` does with the event that `NewDest` returns. -/
def relayOther (s : State E) (ev : OtherEvent E) : State E × List (Output C E) :=
  (s.enqueue (.relay (.other ev) none)).flush

/-- `UponOtherEvent`. -/
def uponOtherEvent (s : State E) (ev : OtherEvent E) : State E × List (Output C E) :=
  relayOther s (ev.newDest s.destination)

/-- The handlers of the module. -/
def handle (s : State E) : Event C E → Fallible (State E × List (Output C E))
  | .newEpoch newEpochNr protocolModule => .ok (uponNewEpoch s newEpochNr protocolModule)
  | .deliverCert _ cert empty => .ok (uponDeliverCert s cert empty)
  | .snapshotRequest replyTo => .ok (uponSnapshotRequest s replyTo)
  | .restoreState mirChkp => uponRestoreState s mirChkp
  | .provideTransactions txs queueItem => .ok (uponProvideTransactions s txs queueItem)
  | .init => .ok (s, [])
  | .other ev => .ok (uponOtherEvent s ev)

/-! ### Runs -/

/-- The item that transactions are requested for. -/
def Output.requested? : Output C E → Option ItemRef
  | .requestTransactions _ _ queueItem => some queueItem
  | .app _ | .newEpoch .. | .clientProgress .. => none

/-- The item that transactions are provided for. -/
def Event.provided? : Event C E → Option ItemRef
  | .provideTransactions _ queueItem => some queueItem
  | .newEpoch .. | .deliverCert .. | .snapshotRequest _ | .restoreState _ | .init | .other _ => none

/-- The event for the application, if its destination is the application. -/
def Output.app? (destination : ModuleID) : Output C E → Option (AppEvent E)
  | .app (.other ev) => if ev.dest = destination then some (.other ev) else none
  | .app ev => some ev
  | .newEpoch .. | .requestTransactions .. | .clientProgress .. => none

/-- A run: the current state, and what has been received and emitted. -/
structure Run (C E : Type) where
  state : State E
  events : List (Event C E)
  out : List (Output C E)
  deriving DecidableEq

namespace Run

/-- A new module. -/
def init (destination : ModuleID) (epochNr : EpochNr) (clientProgress : Progress) : Run C E :=
  ⟨⟨destination, epochNr, clientProgress, [], 0⟩, [], []⟩

/-- The requests for transactions. -/
def requested (r : Run C E) : List ItemRef := r.out.filterMap Output.requested?

/-- The replies. -/
def provided (r : Run C E) : List ItemRef := r.events.filterMap Event.provided?

/-- The events sent to the application. -/
def app (r : Run C E) : List (AppEvent E) := r.out.filterMap (Output.app? r.state.destination)

/-- The run after one more event. -/
def after (r : Run C E) (event : Event C E) (state : State E) (out : List (Output C E)) :
    Run C E := ⟨state, r.events ++ [event], r.out ++ out⟩

theorem requested_after (r : Run C E) (event : Event C E) (state : State E)
    (out : List (Output C E)) :
    (r.after event state out).requested = r.requested ++ out.filterMap Output.requested? :=
  List.filterMap_append

theorem provided_after (r : Run C E) (event : Event C E) (state : State E)
    (out : List (Output C E)) :
    (r.after event state out).provided = r.provided ++ event.provided?.toList := by
  refine List.filterMap_append.trans (congrArg (r.provided ++ ·) ?_)
  cases h : event.provided? <;> simp [h]

/-- A request for transactions is answered at most once, at any time. -/
def Enabled (r : Run C E) (event : Event C E) : Prop :=
  ∀ queueItem ∈ event.provided?, queueItem ∈ r.requested ∧ queueItem ∉ r.provided

instance (r : Run C E) (event : Event C E) : Decidable (r.Enabled event) :=
  inferInstanceAs (Decidable (∀ queueItem ∈ event.provided?, _))

/-- The runs of a module whose events all satisfy a condition. -/
inductive Reachable (start : Run C E) (P : Event C E → Prop) : Run C E → Prop
  | init : Reachable start P start
  | step {r : Run C E} {event : Event C E} {state : State E} {out : List (Output C E)} :
      Reachable start P r → r.Enabled event → P event → handle r.state event = .ok (state, out) →
      Reachable start P (r.after event state out)

/-- One more event, if it is enabled and handled. -/
def next? (r : Run C E) (event : Event C E) : Option (Run C E) :=
  attempt (r.Enabled event) (handle r.state event) fun result => r.after event result.1 result.2

theorem exists_reachable {start : Run C E} {P : Event C E → Prop} {events : List (Event C E)}
    {Q : Run C E → Prop} [DecidablePred Q] (hP : ∀ event ∈ events, P event)
    (h : (events.foldlM next? start).any (fun r => Q r) = true) : ∃ r, Reachable start P r ∧ Q r := by
  refine exists_of_steps h .init fun hmem hr hnext => ?_
  obtain ⟨henabled, result, hhandle, rfl⟩ := attempt_eq_some.mp hnext
  exact .step hr henabled (hP _ hmem) hhandle

end Run

end Mir.BatchFetcher
