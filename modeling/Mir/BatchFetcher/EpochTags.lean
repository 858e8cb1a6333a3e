import Mir.BatchFetcher.Module

/-!
# The epochs of delayed events

When a NewEpoch event leaves the queue of the batch fetcher, the mempool is told the epoch, and when a
SnapshotRequest does, the client progress goes to the checkpoint module of an epoch. Both are to name
the epoch that was current when the event was received (`due`). But the hooks read the epoch when they
are executed, so an event that is still in the queue when the next epoch begins is tagged with that
epoch: `late_snapshotRequest`.

The tags that were emitted and those the queue would emit in the current epoch are together the ones
that are due (`Tagged`), unless a later epoch begins while the queue holds an event with a hook. In
runs where this does not happen, all tags are right: `tags_of_timely`.
-/

namespace Mir.BatchFetcher

open ClientProgress (Progress)

variable {C E : Type}

/-! ### Tags -/

/-- An epoch that the batch fetcher names, to the mempool or as the address of a checkpoint module. -/
inductive Tag
  | mempool (epochNr : EpochNr)
  | checkpoint (epochNr : EpochNr)
  deriving DecidableEq

/-- The epoch that is named by an output. -/
def Output.tag? : Output C E → Option Tag
  | .newEpoch epochNr _ => some (.mempool epochNr)
  | .clientProgress epochNr _ => some (.checkpoint epochNr)
  | .app _ | .requestTransactions .. => none

/-- The epoch that the hook of an item names if it is executed in the given epoch. -/
def OutputItem.tag? (epochNr : EpochNr) : OutputItem E → Option Tag
  | .relay _ (some .newEpoch) => some (.mempool epochNr)
  | .relay _ (some .snapshotRequest) => some (.checkpoint epochNr)
  | .relay _ none | .batch .. => none

/-- The epochs named in a run, in order. -/
def Run.tags (r : Run C E) : List Tag := r.out.filterMap Output.tag?

/-- The epoch after an event. -/
def Event.epochAfter (epochNr : EpochNr) : Event C E → EpochNr
  | .newEpoch newEpochNr _ => newEpochNr
  | _ => epochNr

/-- The tag that is due for an event received in the given epoch. -/
def Event.due? (epochNr : EpochNr) : Event C E → Option Tag
  | .newEpoch newEpochNr _ => some (.mempool newEpochNr)
  | .snapshotRequest _ => some (.checkpoint epochNr)
  | _ => none

/-- **The tags that are due** for a list of events, in their order: the epoch of each NewEpoch event,
and for each SnapshotRequest the epoch that is current when it is received. -/
def due : EpochNr → List (Event C E) → List Tag
  | _, [] => []
  | epochNr, event :: events => (event.due? epochNr).toList ++ due (event.epochAfter epochNr) events

/-- The epoch after a list of events. -/
def epochAfter (epochNr : EpochNr) (events : List (Event C E)) : EpochNr :=
  events.foldl Event.epochAfter epochNr

theorem epochAfter_append (epochNr : EpochNr) (events : List (Event C E)) (event : Event C E) :
    epochAfter epochNr (events ++ [event]) = event.epochAfter (epochAfter epochNr events) := by
  simp [epochAfter]

theorem due_append (epochNr : EpochNr) (events : List (Event C E)) (event : Event C E) :
    due epochNr (events ++ [event]) =
      due epochNr events ++ (event.due? (epochAfter epochNr events)).toList := by
  induction events generalizing epochNr with
  | nil => simp [due, epochAfter]
  | cons first events ih =>
    rw [List.cons_append, due, due, ih, List.append_assoc]
    rfl

/-! ### Runs -/

/-- Any input but `RestoreState`, which drops the queue. -/
def Event.Relayed : Event C E → Prop
  | .restoreState _ => False
  | _ => True

/-- No other epoch begins while the queue holds an event with a hook. -/
def Timely (s : State E) : Event C E → Prop
  | .newEpoch newEpochNr _ => newEpochNr = s.epochNr ∨ ∀ event hook, .relay event (some hook) ∉ s.output
  | _ => True

/-- The runs of a module on inputs other than `RestoreState` that all satisfy a condition in the state
they arrive in. -/
inductive Run.RelaysWhen (start : Run C E) (P : State E → Event C E → Prop) : Run C E → Prop
  | init : RelaysWhen start P start
  | step {r : Run C E} {event : Event C E} {state : State E} {out : List (Output C E)} :
      RelaysWhen start P r → r.Enabled event → event.Relayed → P r.state event →
      handle r.state event = .ok (state, out) → RelaysWhen start P (r.after event state out)

/-- The emitted tags, and those that the queue would emit in the current epoch, are due. -/
structure Tagged (epochNr : EpochNr) (r : Run C E) : Prop where
  current : r.state.epochNr = epochAfter epochNr r.events
  tags : r.tags ++ r.state.output.filterMap (OutputItem.tag? r.state.epochNr) = due epochNr r.events

section Invariant

variable {epochNr : EpochNr} {cp : Progress} {r : Run C E} {s s' : State E} {out : List (Output C E)}
  {event : Event C E}

/-- What leaves the queue emits the tag of its hook. -/
theorem tags_emitItem {cp' : Progress} {item : OutputItem E}
    (h : emitItem epochNr cp item = some (cp', out)) :
    out.filterMap Output.tag? = (item.tag? epochNr).toList := by
  match item with
  | .batch _ none => cases h
  | .batch _ (some txs) =>
    cases h
    rfl
  | .relay ev none =>
    cases h
    rfl
  | .relay ev (some .newEpoch) =>
    cases h
    rfl
  | .relay ev (some .snapshotRequest) =>
    cases h
    rfl

/-- **`Flush` loses no tags**: what is not emitted stays in the queue. -/
theorem tags_flush (epochNr : EpochNr) (cp : Progress) (items : List (OutputItem E)) :
    (flush (C := C) epochNr cp items).2.filterMap Output.tag? ++
        (flush (C := C) epochNr cp items).1.2.filterMap (OutputItem.tag? epochNr) =
      items.filterMap (OutputItem.tag? epochNr) := by
  induction items generalizing cp with
  | nil => rfl
  | cons item items ih =>
    rw [flush]
    split
    next => rfl
    next cp' out hemit =>
      rw [List.filterMap_append, tags_emitItem hemit, List.append_assoc, ih, List.filterMap_cons]
      cases item.tag? epochNr <;> rfl

/-- A step that ends with `Flush`: the queue is flushed in the epoch after the event, with the tag of
the event appended. -/
theorem Tagged.of_flush (h : Tagged epochNr r) (s : State E)
    (hcurrent : s.epochNr = event.epochAfter r.state.epochNr)
    (hqueue : s.output.filterMap (OutputItem.tag? s.epochNr) =
      r.state.output.filterMap (OutputItem.tag? r.state.epochNr) ++
        (event.due? r.state.epochNr).toList)
    (hflush : s.flush = (s', out)) : Tagged epochNr (r.after event s' out) := by
  have hkept := tags_flush (C := C) s.epochNr s.clientProgress s.output
  cases hflush
  constructor
  · rw [Run.after, epochAfter_append, ← h.current]
    exact hcurrent
  · rw [Run.after, Run.tags, List.filterMap_append, ← Run.tags, List.append_assoc, due_append,
      ← h.current, ← h.tags, List.append_assoc, ← hqueue]
    exact congrArg (r.tags ++ ·) hkept

/-- A step that only enqueues an item without a hook. -/
theorem Tagged.of_quiet (h : Tagged epochNr r) (hepoch : event.epochAfter r.state.epochNr = r.state.epochNr)
    (hdue : event.due? r.state.epochNr = none) (hcurrent : s'.epochNr = r.state.epochNr)
    (hqueue : s'.output.filterMap (OutputItem.tag? r.state.epochNr) =
      r.state.output.filterMap (OutputItem.tag? r.state.epochNr))
    (hout : out.filterMap Output.tag? = []) : Tagged epochNr (r.after event s' out) := by
  constructor
  · rw [Run.after, epochAfter_append, ← h.current]
    exact hcurrent.trans hepoch.symm
  · rw [Run.after, Run.tags, List.filterMap_append, hout, List.append_nil, ← Run.tags, due_append,
      ← h.current, hdue, hcurrent, hqueue, Option.toList_none, List.append_nil]
    exact h.tags

/-- Without hooks in the queue, nothing is tagged. -/
theorem filterMap_tag_eq_nil {items : List (OutputItem E)}
    (h : ∀ event hook, .relay event (some hook) ∉ items) (epochNr : EpochNr) :
    items.filterMap (OutputItem.tag? epochNr) = [] := by
  refine List.filterMap_eq_nil_iff.mpr fun item hitem => ?_
  match item with
  | .batch .. | .relay _ none => rfl
  | .relay event (some hook) => exact absurd hitem (h event hook)

theorem tag?_setTxs (queueItem : ItemRef) (txs : List Transaction) (item : OutputItem E) :
    (item.setTxs queueItem txs).tag? epochNr = item.tag? epochNr := by
  cases item with
  | batch ref old => rfl
  | relay event f => rfl

/-- **Every timely step keeps the tags right.** -/
theorem Tagged.step (h : Tagged epochNr r) (hrelayed : event.Relayed) (htimely : Timely r.state event)
    (hhandle : handle r.state event = .ok (s', out)) : Tagged epochNr (r.after event s' out) := by
  cases event with
  | newEpoch newEpochNr protocolModule =>
    refine h.of_flush (State.enqueue { r.state with epochNr := newEpochNr }
      (.relay (.newEpoch newEpochNr protocolModule) (some .newEpoch))) rfl ?_ (Except.ok.inj hhandle)
    -- the items in the queue keep their tags: the epoch stays, or there are none
    have hsame : r.state.output.filterMap (OutputItem.tag? newEpochNr) =
        r.state.output.filterMap (OutputItem.tag? r.state.epochNr) := by
      rcases htimely with rfl | hnone
      · rfl
      · rw [filterMap_tag_eq_nil hnone, filterMap_tag_eq_nil hnone]
    rw [State.enqueue, List.filterMap_append, hsame]
    rfl
  | deliverCert sn cert empty =>
    cases empty with
    | true =>
      refine h.of_flush (State.enqueue { r.state with created := r.state.created + 1 }
        (.batch r.state.created (some []))) rfl ?_ (Except.ok.inj hhandle)
      rw [State.enqueue, List.filterMap_append]
      rfl
    | false =>
      cases hhandle
      refine h.of_quiet rfl rfl rfl ?_ rfl
      rw [State.enqueue, List.filterMap_append]
      exact List.append_nil _
  | snapshotRequest replyTo =>
    refine h.of_flush (r.state.enqueue (.relay (.snapshotRequest replyTo) (some .snapshotRequest))) rfl
      ?_ (Except.ok.inj hhandle)
    rw [State.enqueue, List.filterMap_append]
    rfl
  | restoreState mirChkp => exact hrelayed.elim
  | provideTransactions txs queueItem =>
    refine h.of_flush { r.state with output := r.state.output.map (.setTxs queueItem txs) } rfl ?_
      (Except.ok.inj hhandle)
    rw [List.filterMap_map]
    simp only [Function.comp_def, tag?_setTxs]
    exact (List.append_nil _).symm
  | init =>
    cases hhandle
    exact h.of_quiet rfl rfl rfl rfl rfl
  | other ev =>
    refine h.of_flush (r.state.enqueue (.relay (.other (ev.newDest r.state.destination)) none)) rfl ?_
      (Except.ok.inj hhandle)
    rw [State.enqueue, List.filterMap_append]
    rfl

theorem Run.RelaysWhen.tagged {destination : ModuleID}
    (hr : Run.RelaysWhen (.init destination epochNr cp) Timely r) : Tagged epochNr r := by
  induction hr with
  | init => exact ⟨rfl, rfl⟩
  | step _ _ hrelayed htimely hhandle ih => exact ih.step hrelayed htimely hhandle

end Invariant

/-! ### Main result -/

/-- **Delayed events are tagged with the epoch they were received in**, in every run in which no other
epoch begins while the queue holds a NewEpoch event or a SnapshotRequest: the epochs that are named are
those that are due, up to the events that are still in the queue. -/
theorem tags_of_timely (destination : ModuleID) (epochNr : EpochNr) (clientProgress : Progress)
    (r : Run C E) (hr : Run.RelaysWhen (.init destination epochNr clientProgress) Timely r) :
    r.tags <+: due epochNr r.events :=
  ⟨_, hr.tagged.tags⟩

/-- A certificate holds up a snapshot request, and the next epoch begins after its transactions have
arrived. -/
theorem tags_of_timely_epoch_one : ∃ r : Run Unit Unit, Run.RelaysWhen (.init [] 0 ∅) Timely r ∧
    r.events = [.deliverCert 0 () false, .snapshotRequest [], .provideTransactions [] 0,
      .newEpoch 1 []] ∧
    r.tags = [.checkpoint 0, .mempool 1] ∧ r.tags <+: due 0 r.events := by
  have hcert : Run.RelaysWhen (C := Unit) (E := Unit) (.init [] 0 ∅) Timely _ :=
    .step .init (show Run.Enabled _ (.deliverCert 0 () false) from nofun) trivial trivial rfl
  have hsnapshot := hcert.step (show Run.Enabled _ (.snapshotRequest []) from nofun) trivial trivial rfl
  have htxs := hsnapshot.step (show Run.Enabled _ (.provideTransactions [] 0) by decide) trivial
    trivial rfl
  have hepoch := htxs.step (show Run.Enabled _ (.newEpoch 1 []) from nofun) trivial
    (.inr fun _ _ hmem => List.not_mem_nil hmem) rfl
  exact ⟨_, hepoch, rfl, by decide, tags_of_timely [] 0 ∅ _ hepoch⟩

/-- **A delayed snapshot request is tagged with a later epoch**: a certificate holds up the queue, a
snapshot is requested in epoch 0, and epoch 1 begins before the transactions arrive. -/
theorem late_snapshotRequest : ¬ ∀ (destination : ModuleID) (epochNr : EpochNr)
    (clientProgress : Progress) (r : Run Unit Unit),
    Run.RelaysWhen (.init destination epochNr clientProgress) (fun _ _ => True) r →
    r.tags <+: due epochNr r.events := by
  intro h
  have hcert : Run.RelaysWhen (C := Unit) (E := Unit) (.init [] 0 ∅) (fun _ _ => True) _ :=
    .step .init (show Run.Enabled _ (.deliverCert 0 () false) from nofun) trivial trivial rfl
  have hsnapshot := hcert.step (show Run.Enabled _ (.snapshotRequest []) from nofun) trivial trivial rfl
  have hepoch := hsnapshot.step (show Run.Enabled _ (.newEpoch 1 []) from nofun) trivial trivial rfl
  have htxs := hepoch.step (show Run.Enabled _ (.provideTransactions [] 0) by decide) trivial trivial
    rfl
  exact absurd (h [] 0 ∅ _ htxs) (by decide)

end Mir.BatchFetcher
