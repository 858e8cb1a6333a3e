import Mir.Mempool.Batches

/-!
# The epochs of batch requests

A request for a batch belongs to an epoch. It is handled if this is the current one, kept until it
starts if it is a later one, and dropped otherwise. A request that waits for transactions is not
looked at when a new epoch starts, and is then served in the wrong one: `served_in_later_epoch`. Requests
are only answered in their own epoch if no request is pending whenever the epoch changes:
`served_in_own_epoch`.
-/

namespace Mir.Mempool

variable {O : Type} {params : ModuleParams} {s s' : State O} {o : List (Output O)}
  {epochOf : O → EpochNr} {origin : O}

/-- The origin of a request tells its epoch. -/
def Event.Tagged (epochOf : O → EpochNr) : Event O → Prop
  | .requestBatch epoch origin => epochOf origin = epoch
  | .newEpoch .. | .newTransactions _ | .transactionIDsResponse _ | .batchTimeout _ => True

instance (epochOf : O → EpochNr) : ∀ event : Event O, Decidable (event.Tagged epochOf)
  | .requestBatch epoch origin => inferInstanceAs (Decidable (epochOf origin = epoch))
  | .newEpoch .. | .newTransactions _ | .transactionIDsResponse _ | .batchTimeout _ => .isTrue trivial

/-- No request is pending when the epoch changes. -/
def NothingPending (r : Run O) : Event O → Prop
  | .newEpoch epochNr _ => epochNr = r.state.epoch ∨ r.state.pendingBatchRequests.keys = []
  | .newTransactions _ | .transactionIDsResponse _ | .requestBatch .. | .batchTimeout _ => True

instance (r : Run O) : ∀ event : Event O, Decidable (NothingPending r event)
  | .newEpoch epochNr _ => inferInstanceAs (Decidable (epochNr = _ ∨ _ = []))
  | .newTransactions _ | .transactionIDsResponse _ | .requestBatch .. | .batchTimeout _ =>
    .isTrue trivial

/-- The answered and the pending requests belong to the current epoch, and the ones that are kept for
another epoch belong to that one, which is not an earlier one. -/
structure Own (epochOf : O → EpochNr) (s : State O) (o : List (Output O)) : Prop where
  answered : ∀ origin ∈ o.filterMap Output.answered?, epochOf origin = s.epoch
  pending : ∀ k origin, s.pendingBatchRequests.lookup k = some origin → epochOf origin = s.epoch
  early : ∀ k origins, s.earlyBatchRequests.lookup k = some origins →
    s.epoch ≤ k ∧ ∀ origin ∈ origins, epochOf origin = k

theorem Own.cutBatch (h : Own epochOf s o) (horigin : epochOf origin = s.epoch) :
    Own epochOf (cutBatch params s origin).1 (o ++ (cutBatch params s origin).2) where
  answered := by
    rw [answered_cutBatch]
    exact List.forall_mem_append.mpr ⟨h.answered, List.forall_mem_singleton.mpr horigin⟩
  pending := h.pending
  early := h.early

/-- Serving requests keeps them in their epochs, if the due ones belong to the current one. -/
theorem own_kept : Kept params fun origins (s : State O) o =>
    Own epochOf s o ∧ ∀ origin ∈ origins, epochOf origin = s.epoch where
  cut := by
    rintro origin origins s out ⟨h, horigins⟩
    obtain ⟨horigin, horigins⟩ := List.forall_mem_cons.mp horigins
    exact ⟨h.cutBatch horigin, horigins⟩
  store := by
    rintro origin origins s out ⟨h, horigins⟩
    obtain ⟨horigin, horigins⟩ := List.forall_mem_cons.mp horigins
    refine ⟨⟨?_, GoMap.forall_lookup_insert h.pending horigin, h.early⟩, horigins⟩
    rw [answered_other rfl]
    exact h.answered
  serve := by
    rintro origin s out reqID ⟨h, -⟩ horigin
    have hcut : Own epochOf _ (out ++ (Mempool.cutBatch params s origin).2) :=
      h.cutBatch (h.pending reqID origin horigin)
    refine ⟨⟨hcut.answered, fun k origin' hlookup => ?_, hcut.early⟩, List.forall_mem_nil _⟩
    exact h.pending k origin' (GoMap.lookup_erase_eq_some hlookup)

/-- If no request is pending, a new epoch starts with its own requests. -/
theorem Own.startEpoch (h : Own epochOf s []) {epochNr : EpochNr}
    (clientProgress : Checkpoint.ClientProgress)
    (hpending : epochNr = s.epoch ∨ s.pendingBatchRequests.keys = []) :
    Own epochOf (startEpoch s epochNr clientProgress) [] where
  answered := nofun
  pending k origin hlookup := by
    rcases hpending with rfl | hnone
    · exact h.pending k origin hlookup
    · have hmem : k ∈ s.pendingBatchRequests.keys := GoMap.mem_keys_iff.mpr ⟨origin, hlookup⟩
      rw [hnone] at hmem
      cases hmem
  early k origins hlookup := by
    obtain ⟨hle, hold⟩ := GoMap.lookup_filterKeys_eq_some.mp hlookup
    exact ⟨of_decide_eq_true hle, (h.early k origins hold).2⟩

/-- The requests that are kept for an epoch belong to it. -/
theorem Own.of_early (h : Own epochOf s o) (k : EpochNr) :
    ∀ origin ∈ (s.earlyBatchRequests.lookup k).getD [], epochOf origin = k := by
  cases hlookup : s.earlyBatchRequests.lookup k with
  | none => exact List.forall_mem_nil _
  | some origins => exact (h.early k origins hlookup).2

/-- **Every event keeps the requests in their epochs**, unless it leaves the epoch of a pending one. -/
theorem Own.handle {r : Run O} {event : Event O} (h : Own epochOf r.state [])
    (htagged : event.Tagged epochOf) (hpending : NothingPending r event)
    (hhandle : handle params r.state event = .ok (s', o)) : Own epochOf s' o := by
  refine (own_kept.handle (fun hstart => ?_) hhandle).1
  cases hstart with
  | newEpoch epochNr clientProgress =>
    have hown := h.startEpoch clientProgress hpending
    exact ⟨hown, hown.of_early epochNr⟩
  | newTransactions txs =>
    refine ⟨⟨?_, h.pending, h.early⟩, List.forall_mem_nil _⟩
    rw [uponNewTransactions]
    split <;> exact List.forall_mem_nil _
  | transactionIDsResponse txs =>
    obtain ⟨total, unproposed, num, heq⟩ := addTransactions_eq r.state txs
    rw [heq]
    exact ⟨⟨List.forall_mem_nil _, h.pending, h.early⟩, List.forall_mem_nil _⟩
  | due origin => exact ⟨h, List.forall_mem_singleton.mpr htagged⟩
  | early origin hlater =>
    refine ⟨⟨h.answered, h.pending, GoMap.forall_lookup_insert h.early ⟨UInt64.le_of_lt hlater, ?_⟩⟩,
      List.forall_mem_nil _⟩
    exact List.forall_mem_append.mpr ⟨h.of_early _, List.forall_mem_singleton.mpr htagged⟩
  | late | batchTimeout => exact ⟨h, List.forall_mem_nil _⟩

/-! ### Whole runs -/

theorem Run.Reachable.own {r : Run O} (h : Reachable params
    (fun r event => event.Tagged epochOf ∧ NothingPending r event) r) :
    Own epochOf r.state [] := by
  induction h with
  | init => exact ⟨nofun, nofun, nofun⟩
  | step _ _ hevent hhandle ih =>
    have hown := ih.handle hevent.1 hevent.2 hhandle
    exact ⟨nofun, hown.pending, hown.early⟩

/-- **Requests are only served in their own epoch** in every run in which no request is pending when
the epoch changes. All requests that are kept are for the current or a later epoch. -/
theorem served_in_own_epoch {r : Run O} (h : Run.Reachable params
    (fun r event => event.Tagged epochOf ∧ NothingPending r event) r) :
    (∀ event s' out, event.Tagged epochOf → NothingPending r event →
      handle params r.state event = .ok (s', out) → ∀ txs origin, .newBatch txs origin ∈ out →
        epochOf origin = s'.epoch) ∧
    (∀ k origin, r.state.pendingBatchRequests.lookup k = some origin →
      epochOf origin = r.state.epoch) ∧
    ∀ k origins, r.state.earlyBatchRequests.lookup k = some origins →
      r.state.epoch ≤ k ∧ ∀ origin ∈ origins, epochOf origin = k := by
  have hown := h.own
  refine ⟨fun event s' out htagged hpending hhandle txs origin hmem => ?_, hown.pending, hown.early⟩
  exact (hown.handle htagged hpending hhandle).answered origin
    (List.mem_filterMap.mpr ⟨_, hmem, rfl⟩)

/-- A request for epoch 1 that arrives in epoch 0 is served in epoch 1. -/
theorem served_in_own_epoch_early :
    let tx : Transaction := ⟨[99], 0, 0, [1]⟩
    let events : List (Event EpochNr) := [.newTransactions [tx], .transactionIDsResponse [([0], tx)],
      .requestBatch 1 1]
    ∃ r, Run.Reachable ⟨1, 10⟩ (fun r event => event.Tagged id ∧ NothingPending r event) r ∧
      r.events = events ∧ r.state.epoch = 0 ∧
      ∃ s' out, handle ⟨1, 10⟩ r.state (.newEpoch 1 ⟨∅⟩) = .ok (s', out) ∧
        .newBatch [([0], tx)] 1 ∈ out ∧ id 1 = s'.epoch := by
  intro tx events
  obtain ⟨r, hreach, hevents, hepoch, hpending, hmem⟩ := Run.exists_reachable (by decide +kernel :
    (events.foldlM (Run.next? ⟨1, 10⟩ fun r event => event.Tagged id ∧ NothingPending r event)
      .init).any (fun r => r.events = events ∧ r.state.epoch = 0 ∧
        r.state.pendingBatchRequests.keys = [] ∧
        .newBatch [([0], tx)] 1 ∈ (uponNewEpoch ⟨1, 10⟩ r.state 1 ⟨∅⟩).2) = true)
  refine ⟨r, hreach, hevents, hepoch, _, _, rfl, hmem, ?_⟩
  exact (served_in_own_epoch hreach).1 (.newEpoch 1 ⟨∅⟩) _ _ trivial (.inr hpending) rfl _ _ hmem

/-- A request of epoch 0 is still pending when epoch 1 starts. The transaction that the new iterator
outputs first is spent on it. -/
theorem served_in_later_epoch :
    let tx : Transaction := ⟨[99], 0, 0, [1]⟩
    ∃ r : Run EpochNr, Run.Reachable ⟨2, 10⟩ (fun _ event => event.Tagged id) r ∧
      ∃ s' out, handle ⟨2, 10⟩ r.state (.batchTimeout 0) = .ok (s', out) ∧
        .newBatch [([0], tx)] 0 ∈ out ∧ s'.epoch = 1 := by
  intro tx
  obtain ⟨r, hreach, hserved⟩ := Run.exists_reachable (by decide +kernel :
    ([.requestBatch 0 0, .newTransactions [tx], .transactionIDsResponse [([0], tx)],
      .newEpoch 1 ⟨∅⟩].foldlM (Run.next? ⟨2, 10⟩ fun _ event => event.Tagged id) .init).any
        (fun (r : Run EpochNr) => (handle ⟨2, 10⟩ r.state (.batchTimeout 0)).toOption.any
          (fun result => .newBatch [([0], tx)] 0 ∈ result.2 ∧ result.1.epoch = 1) = true) = true)
  obtain ⟨⟨s', out⟩, hhandle, hbatch⟩ := FallibleLoop.exists_ok_of_any hserved
  exact ⟨r, hreach, s', out, hhandle, hbatch⟩

end Mir.Mempool
