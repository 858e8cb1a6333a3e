import Mir.Mempool.Batches
import Mir.Mempool.ComputeIDs

/-!
# Storing transactions

Between the arrival of transactions and their storage lies the computation of their identifiers, in
events that the mempool sends to itself and to the hasher. In a `Flow`, these events are in flight,
each with the number of the `NewTransactions` event that it results from, and are processed in any
order, with other events in between.

The handler of `RequestTransactionIDs` ignores requests for more transactions than fit in a batch, and
the mempool's own requests are no exception: a longer list of transactions is lost,
`long_list_lost`. And a transaction is not stored while another one is stored under its identifier. In
runs in which neither happens, no transaction is lost: `transactions_stored`.
-/

namespace Mir.Mempool

open ClientProgress (Progress)
open FallibleLoop

variable {O : Type} {hash : Bytes → Bytes} {params : ModuleParams} {txs : List Transaction}

/-! ### The computation of identifiers -/

/-- The events of the computation of identifiers, from the request to the response. All of them carry the
transactions of the request in their context. -/
inductive Pending
  | requestTransactionIDs (txs : List Transaction)
  | hashRequest (data : List (List Bytes)) (txs : List Transaction)
  | hashResult (hashes : List Bytes) (txs : List Transaction)
  | transactionIDsResponse (txIDs : List TxID) (txs : List Transaction)

/-- `UponRequestTransactionIDs`. -/
def uponRequestTransactionIDs (params : ModuleParams) (txs : List Transaction) : Option Pending :=
  if txs.length > params.maxTransactionsInBatch then none
  else (txs.mapM fun tx => serializeTXForHash (some tx)).map fun data => .hashRequest data txs

/-- Process an event: the new state, and the event that results. The requests for hashes are answered
by the hasher. In a response there are as many identifiers as transactions. -/
def Pending.process (hash : Bytes → Bytes) (params : ModuleParams) (s : State O) :
    Pending → Fallible (State O × Option Pending)
  | .requestTransactionIDs txs => .ok (s, uponRequestTransactionIDs params txs)
  | .hashRequest data txs => .ok (s, some (.hashResult (data.map fun d => hash d.flatten) txs))
  | .hashResult hashes txs => .ok (s, some (.transactionIDsResponse hashes txs))
  | .transactionIDsResponse txIDs txs => do
    let (s', _) ← uponTransactionIDsResponse params s (txIDs.zip txs)
    return (s', none)

/-- The identifier of a transaction. -/
def txID (hash : Bytes → Bytes) (tx : Transaction) : TxID := hash (hashed tx)

/-- The event belongs to the computation of the identifiers of these transactions. A request for them
is not too long. -/
def Pending.IsFor (hash : Bytes → Bytes) (params : ModuleParams) (txs : List Transaction) :
    Pending → Prop
  | .requestTransactionIDs txs' => txs' = txs ∧ txs.length ≤ params.maxTransactionsInBatch
  | .hashRequest data txs' =>
    txs' = txs ∧ data = txs.map fun tx => [tx.clientID, uint64ToBytes tx.txNo, tx.data]
  | .hashResult hashes txs' => txs' = txs ∧ hashes = txs.map (txID hash)
  | .transactionIDsResponse txIDs txs' => txs' = txs ∧ txIDs = txs.map (txID hash)

/-- Up to the response, each event leads to the next one, and the state does not change. -/
theorem Pending.IsFor.process {pending : Pending} (h : pending.IsFor hash params txs) (s : State O) :
    (∃ next, pending.process hash params s = .ok (s, some next) ∧ next.IsFor hash params txs) ∨
      pending = .transactionIDsResponse (txs.map (txID hash)) txs := by
  cases pending with
  | requestTransactionIDs txs' =>
    obtain ⟨rfl, hfits⟩ := h
    have hmapM : (txs'.mapM fun tx => serializeTXForHash (some tx)) =
        some (txs'.map fun tx => [tx.clientID, uint64ToBytes tx.txNo, tx.data]) :=
      List.mapM_pure
    refine .inl ⟨.hashRequest (txs'.map fun tx => [tx.clientID, uint64ToBytes tx.txNo, tx.data])
      txs', ?_, rfl, rfl⟩
    rw [Pending.process, uponRequestTransactionIDs, if_neg (not_lt.mpr hfits), hmapM]
    rfl
  | hashRequest data txs' =>
    obtain ⟨rfl, rfl⟩ := h
    refine .inl ⟨_, rfl, rfl, ?_⟩
    rw [List.map_map]
    refine List.map_congr_left fun tx _ => ?_
    simp [txID, hashed]
  | hashResult hashes txs' =>
    obtain ⟨rfl, rfl⟩ := h
    exact .inl ⟨_, rfl, rfl, rfl⟩
  | transactionIDsResponse txIDs txs' =>
    obtain ⟨rfl, rfl⟩ := h
    exact .inr rfl

/-! ### Runs -/

/-- The events that the mempool processes: those from outside, and those in flight, by their
position. -/
inductive Action (O : Type)
  | newTransactions (txs : List Transaction)
  | process (position : ℕ)
  | newEpoch (epochNr : EpochNr) (clientProgress : Checkpoint.ClientProgress)
  | requestBatch (epoch : EpochNr) (origin : O)
  | batchTimeout (batchReqID : ℕ)

/-- The state of the mempool, the events in flight with the number of the `NewTransactions` event that
they result from, and what has been received: lists of transactions, and client progress, with the
number of `NewTransactions` events before it. -/
structure Flow (O : Type) where
  state : State O
  flight : List (ℕ × Pending)
  received : List (List Transaction)
  epochs : List (ℕ × Progress)

namespace Flow

/-- The flow before the first event. -/
def init : Flow O := ⟨.init, [], [], []⟩

/-- The flow after the mempool has processed an event with its own handler. -/
def handled (r : Flow O) (params : ModuleParams) (event : Event O) : Option (Flow O) :=
  match handle params r.state event with
  | .ok (s, _) => some { r with state := s }
  | .error _ => none

/-- The flow after an event, if it can be processed and its handler completes. -/
def step (hash : Bytes → Bytes) (params : ModuleParams) (r : Flow O) : Action O → Option (Flow O)
  | .newTransactions txs =>
    some { r with
      flight := r.flight ++ ((uponNewTransactions params txs : List (Output O)).filterMap
        Output.requestedIDs?).map fun txs => (r.received.length, .requestTransactionIDs txs)
      received := r.received ++ [txs] }
  | .process position =>
    match r.flight[position]? with
    | some (k, pending) =>
      match pending.process hash params r.state with
      | .ok (s, next) => some { r with
          state := s
          flight := r.flight.eraseIdx position ++ next.toList.map fun pending => (k, pending) }
      | .error _ => none
    | none => none
  | .newEpoch epochNr clientProgress =>
    some { r with
      state := (uponNewEpoch params r.state epochNr clientProgress).1
      epochs := r.epochs ++ [(r.received.length, r.state.clientProgress.loadPb clientProgress)] }
  | .requestBatch epoch origin => r.handled params (.requestBatch epoch origin)
  | .batchTimeout batchReqID => r.handled params (.batchTimeout batchReqID)

/-- The runs in which all received lists of transactions satisfy a condition when they arrive. -/
inductive Reachable (hash : Bytes → Bytes) (params : ModuleParams)
    (C : Flow O → List Transaction → Prop) : Flow O → Prop
  | init : Reachable hash params C .init
  | step {r r' : Flow O} {action : Action O} (hr : Reachable hash params C r)
      (hC : ∀ txs, action = .newTransactions txs → C r txs)
      (hstep : r.step hash params action = some r') : Reachable hash params C r'

/-- A `NewEpoch` event after the given `NewTransactions` event has delivered the transaction. -/
def DeliveredSince (r : Flow O) (k : ℕ) (tx : Transaction) : Prop :=
  ∃ e ∈ r.epochs, k < e.1 ∧ e.2.contains tx.clientID tx.txNo = true

/-- The transaction is stored under its identifier, and nothing else is. -/
def Stored (hash : Bytes → Bytes) (r : Flow O) (tx : Transaction) : Prop :=
  (r.state.transactions.entries.filter fun e => e.1 = txID hash tx) = [(txID hash tx, tx)]

/-- **No transaction is lost**: when no event is in flight that results from a `NewTransactions` event,
its transactions are stored, unless their payload is too large for a batch or they have been
delivered since. -/
def NoneLost (hash : Bytes → Bytes) (params : ModuleParams) (r : Flow O) : Prop :=
  ∀ k txs, r.received[k]? = some txs → (∀ x ∈ r.flight, x.1 ≠ k) →
    ∀ tx ∈ txs, (tx.data.length : ℤ) ≤ params.maxPayloadInBatch → ¬ r.DeliveredSince k tx →
      r.Stored hash tx

/-- The transactions of a list that fit in a batch. -/
def eligible (params : ModuleParams) (txs : List Transaction) : List Transaction :=
  txs.filter fun tx => decide ((tx.data.length : ℤ) ≤ params.maxPayloadInBatch)

/-- The transactions received so far that fit in a batch. -/
def candidates (params : ModuleParams) (r : Flow O) : List Transaction :=
  r.received.flatMap (eligible params)

/-- There are not more transactions than in a batch, and the identifier of none of them is also that of
another transaction received so far. Transactions whose payload is too large do not matter. -/
structure Storable (hash : Bytes → Bytes) (params : ModuleParams) (r : Flow O)
    (txs : List Transaction) : Prop where
  fits : (eligible params txs).length ≤ params.maxTransactionsInBatch
  unique : ∀ tx ∈ eligible params txs, ∀ tx' ∈ eligible params txs ++ r.candidates params,
    txID hash tx' = txID hash tx → tx' = tx

/-! ### What the handlers do to the stored transactions -/

section Entries

variable {s s' : State O} {o : List (Output O)}

theorem startEpoch_entries (s : State O) (epochNr : EpochNr)
    (clientProgress : Checkpoint.ClientProgress) :
    (startEpoch s epochNr clientProgress).transactions.entries =
      s.transactions.entries.filter fun e =>
        !(s.clientProgress.loadPb clientProgress).contains e.2.clientID e.2.txNo :=
  (startEpoch_at s epochNr clientProgress).1.entries_eq

/-- Serving requests does not change the stored transactions. -/
theorem entries_kept (entries : List (TxID × Transaction)) :
    Kept params fun _ (s : State O) _ => s.transactions.entries = entries where
  cut h := (IndexedList.nextWhile_unchanged ..).1.trans h
  store h := h
  serve h _ := (IndexedList.nextWhile_unchanged ..).1.trans h

theorem uponNewEpoch_entries (s : State O) (epochNr : EpochNr)
    (clientProgress : Checkpoint.ClientProgress) :
    (uponNewEpoch params s epochNr clientProgress).1.transactions.entries =
      s.transactions.entries.filter fun e =>
        !(s.clientProgress.loadPb clientProgress).contains e.2.clientID e.2.txNo := by
  refine (entries_kept _).handle (fun hstart => ?_)
    (rfl : handle params s (.newEpoch epochNr clientProgress) = .ok (_, _))
  cases hstart
  exact startEpoch_entries s epochNr clientProgress

/-- A response adds entries, so that all its identifiers are present. -/
theorem uponTransactionIDsResponse_entries {txs : List (TxID × Transaction)}
    (h : uponTransactionIDsResponse params s txs = .ok (s', o)) :
    ∃ added, s'.transactions.entries = s.transactions.entries ++ added ∧ added ⊆ txs ∧
      ∀ e ∈ txs, e.1 ∈ s'.transactions.entries.map Prod.fst := by
  have hsame : s'.transactions.entries = (addTransactions s txs).transactions.entries :=
    (entries_kept _).handle (fun hstart => by cases hstart; rfl)
      (show handle params s (.transactionIDsResponse txs) = .ok (s', o) from h)
  obtain ⟨total, unproposed, num, hadd⟩ := addTransactions_eq s txs
  obtain ⟨hentries, hsub, -, hall⟩ := s.transactions.append_spec txs
  rw [hadd] at hsame
  refine ⟨_, hsame.trans hentries, hsub.subset, ?_⟩
  rw [hsame]
  exact hall

theorem handled_eq_some {r r' : Flow O} {event : Event O} (h : r.handled params event = some r') :
    ∃ s' o, handle params r.state event = .ok (s', o) ∧ r' = { r with state := s' } := by
  rw [handled] at h
  split at h
  · rename_i s' o hhandle
    exact ⟨s', o, hhandle, (Option.some.inj h).symm⟩
  · cases h

end Entries

/-! ### The invariant -/

/-- Where the received transactions are. Stored transactions have been received, and are stored under
their identifiers. -/
structure Inv (hash : Bytes → Bytes) (params : ModuleParams) (r : Flow O) : Prop where
  flight : ∀ k pending, (k, pending) ∈ r.flight →
    ∃ txs, r.received[k]? = some txs ∧ pending.IsFor hash params (eligible params txs)
  entries : ∀ e ∈ r.state.transactions.entries, ∃ tx ∈ r.candidates params, e = (txID hash tx, tx)
  unique : ∀ tx ∈ r.candidates params, ∀ tx' ∈ r.candidates params,
    txID hash tx' = txID hash tx → tx' = tx
  kept : ∀ k txs, r.received[k]? = some txs → ∀ tx ∈ eligible params txs,
    (∃ pending, (k, pending) ∈ r.flight) ∨ r.DeliveredSince k tx ∨
      (txID hash tx, tx) ∈ r.state.transactions.entries

variable {r : Flow O}

theorem inv_init : Inv hash params (init : Flow O) := by
  refine ⟨nofun, nofun, nofun, fun k txs h => ?_⟩
  cases h

theorem mem_candidates {k : ℕ} (hk : r.received[k]? = some txs)
    {tx : Transaction} (htx : tx ∈ eligible params txs) : tx ∈ r.candidates params :=
  List.mem_flatMap.mpr ⟨txs, List.mem_of_getElem? hk, htx⟩

/-- What is in flight for new transactions. -/
theorem requestedIDs_uponNewTransactions (txs : List Transaction) :
    (uponNewTransactions params txs : List (Output O)).filterMap Output.requestedIDs? =
      if 0 < (eligible params txs).length then [eligible params txs] else [] := by
  rw [uponNewTransactions, ← eligible]
  split
  · rfl
  · rfl

/-- New transactions are in flight. -/
theorem Inv.newTransactions (h : Inv hash params r) (hC : Storable hash params r txs) {r' : Flow O}
    (hstep : r.step hash params (.newTransactions txs) = some r') : Inv hash params r' := by
  rw [step, requestedIDs_uponNewTransactions] at hstep
  obtain rfl := Option.some.inj hstep
  have hcandidates : r.received.flatMap (eligible params) ++ eligible params txs =
      (r.received ++ [txs]).flatMap (eligible params) := by
    rw [List.flatMap_append, List.flatMap_singleton]
  have hold : ∀ (k : ℕ) txs', r.received[k]? = some txs' →
      (r.received ++ [txs])[k]? = some txs' := by
    intro k txs' hk
    obtain ⟨hlt, -⟩ := List.getElem?_eq_some_iff.mp hk
    rw [List.getElem?_append_left hlt, hk]
  refine ⟨?_, ?_, ?_, ?_⟩
  · intro k pending hmem
    rcases List.mem_append.mp hmem with hmem | hmem
    · obtain ⟨txs', hk, hfor⟩ := h.flight k pending hmem
      exact ⟨txs', hold k txs' hk, hfor⟩
    · split at hmem
      · obtain ⟨rfl, rfl⟩ := Prod.mk.inj (List.mem_singleton.mp hmem)
        refine ⟨txs, ?_, rfl, hC.fits⟩
        exact List.getElem?_concat_length
      · cases hmem
  · intro e he
    obtain ⟨tx, htx, heq⟩ := h.entries e he
    refine ⟨tx, ?_, heq⟩
    change tx ∈ (r.received ++ [txs]).flatMap (eligible params)
    rw [← hcandidates]
    exact List.mem_append_left _ htx
  · intro tx htx tx' htx' heq
    change tx ∈ (r.received ++ [txs]).flatMap (eligible params) at htx
    change tx' ∈ (r.received ++ [txs]).flatMap (eligible params) at htx'
    rw [← hcandidates] at htx htx'
    rcases List.mem_append.mp htx with hmem | hmem
    · rcases List.mem_append.mp htx' with hmem' | hmem'
      · exact h.unique tx hmem tx' hmem' heq
      · exact (hC.unique tx' hmem' tx (List.mem_append_right _ hmem) heq.symm).symm
    · refine hC.unique tx hmem tx' ?_ heq
      exact List.mem_append.mpr (List.mem_append.mp htx').symm
  · intro k txs' hk tx htx
    rcases Nat.lt_or_ge k r.received.length with hlt | hge
    · rw [List.getElem?_append_left hlt] at hk
      refine (h.kept k txs' hk tx htx).imp_left ?_
      rintro ⟨pending, hmem⟩
      exact ⟨pending, List.mem_append_left _ hmem⟩
    · -- the new transactions themselves
      obtain ⟨hlt, -⟩ := List.getElem?_eq_some_iff.mp hk
      rw [List.length_append, List.length_singleton] at hlt
      obtain rfl : k = r.received.length := by omega
      rw [List.getElem?_concat_length] at hk
      obtain rfl := Option.some.inj hk
      refine .inl ⟨.requestTransactionIDs (eligible params txs), List.mem_append_right _ ?_⟩
      rw [if_pos (List.length_pos_of_mem htx)]
      exact List.mem_singleton.mpr rfl

/-- Everything stays in flight but what is processed. -/
theorem mem_eraseIdx_or {position : ℕ} {x y : ℕ × Pending} (hx : x ∈ r.flight)
    (hy : r.flight[position]? = some y) : x = y ∨ x ∈ r.flight.eraseIdx position := by
  obtain ⟨i, hi⟩ := List.mem_iff_getElem?.mp hx
  rcases eq_or_ne i position with rfl | hne
  · exact .inl (Option.some.inj (hi.symm.trans hy))
  · exact .inr (List.mem_eraseIdx_iff_getElem?.mpr ⟨i, hne, hi⟩)

/-- An event that leads to the next one. -/
theorem Inv.advance (h : Inv hash params r) {position k : ℕ} {pending next : Pending}
    (hpos : r.flight[position]? = some (k, pending))
    (hk : r.received[k]? = some txs) (hfor : next.IsFor hash params (eligible params txs)) :
    Inv hash params { r with flight := r.flight.eraseIdx position ++ [(k, next)] } := by
  refine ⟨?_, h.entries, h.unique, ?_⟩
  · intro j pending' hmem
    rcases List.mem_append.mp hmem with hmem | hmem
    · exact h.flight j pending' (List.mem_of_mem_eraseIdx hmem)
    · obtain ⟨rfl, rfl⟩ := Prod.mk.inj (List.mem_singleton.mp hmem)
      exact ⟨txs, hk, hfor⟩
  · intro j txs' hj tx htx
    refine (h.kept j txs' hj tx htx).imp_left ?_
    rintro ⟨pending', hmem⟩
    rcases mem_eraseIdx_or hmem hpos with heq | hmem
    · obtain ⟨rfl, -⟩ := Prod.mk.inj heq
      exact ⟨next, List.mem_append_right _ (List.mem_singleton.mpr rfl)⟩
    · exact ⟨pending', List.mem_append_left _ hmem⟩

/-- **A response** stores its transactions: none of them is kept out by another one with its
identifier. -/
theorem Inv.respond (h : Inv hash params r) {position k : ℕ}
    (hk : r.received[k]? = some txs)
    (hpos : r.flight[position]? = some (k, .transactionIDsResponse
      ((eligible params txs).map (txID hash)) (eligible params txs))) {s' : State O}
    {o : List (Output O)} (hrespond : uponTransactionIDsResponse params r.state
      (((eligible params txs).map (txID hash)).zip (eligible params txs)) = .ok (s', o)) :
    Inv hash params { r with state := s', flight := r.flight.eraseIdx position } := by
  have hzip : ((eligible params txs).map (txID hash)).zip (eligible params txs) =
      (eligible params txs).map fun tx => (txID hash tx, tx) := by
    have hmap := List.zip_map' (f := txID hash) (g := id) (l := eligible params txs)
    rwa [List.map_id] at hmap
  rw [hzip] at hrespond
  obtain ⟨added, hentries, hadded, hkeys⟩ := uponTransactionIDsResponse_entries hrespond
  have hall : ∀ e ∈ s'.transactions.entries, ∃ tx ∈ r.candidates params,
      e = (txID hash tx, tx) := by
    intro e he
    rw [hentries] at he
    rcases List.mem_append.mp he with he | he
    · exact h.entries e he
    · obtain ⟨tx, htx, rfl⟩ := List.mem_map.mp (hadded he)
      exact ⟨tx, mem_candidates hk htx, rfl⟩
  refine ⟨fun j pending hmem => h.flight j pending (List.mem_of_mem_eraseIdx hmem), hall,
    h.unique, ?_⟩
  intro j txs' hj tx htx
  rcases h.kept j txs' hj tx htx with ⟨pending, hmem⟩ | hdelivered | hstored
  · rcases mem_eraseIdx_or hmem hpos with heq | hmem
    · -- the transaction is one of the response
      obtain ⟨rfl, -⟩ := Prod.mk.inj heq
      obtain rfl : txs = txs' := Option.some.inj (hk.symm.trans hj)
      obtain ⟨e, he, hkey⟩ := List.mem_map.mp (hkeys _ (List.mem_map_of_mem htx))
      obtain ⟨tx', htx', rfl⟩ := hall e he
      obtain rfl : tx' = tx := h.unique tx (mem_candidates hk htx) tx' htx' hkey
      exact .inr (.inr he)
    · exact .inl ⟨pending, hmem⟩
  · exact .inr (.inl hdelivered)
  · refine .inr (.inr ?_)
    change (txID hash tx, tx) ∈ s'.transactions.entries
    rw [hentries]
    exact List.mem_append_left _ hstored

/-- An event that was in flight. -/
theorem Inv.process (h : Inv hash params r) {position : ℕ} {r' : Flow O}
    (hstep : r.step hash params (.process position) = some r') : Inv hash params r' := by
  rw [step] at hstep
  split at hstep
  · rename_i k pending hpos
    obtain ⟨txs, hk, hfor⟩ := h.flight k pending (List.mem_of_getElem? hpos)
    rcases hfor.process r.state with ⟨next, hprocess, hnext⟩ | rfl
    · rw [hprocess] at hstep
      obtain rfl := Option.some.inj hstep
      exact h.advance hpos hk hnext
    · split at hstep
      · rename_i s' next hprocess
        obtain ⟨⟨s₁, o⟩, hrespond, hs₁⟩ := Fallible.bind_eq_ok.mp hprocess
        obtain ⟨rfl, rfl⟩ := Prod.mk.inj (Except.ok.inj hs₁)
        obtain rfl := Option.some.inj hstep
        rw [Option.toList_none, List.map_nil, List.append_nil]
        exact h.respond hk hpos hrespond
      · cases hstep
  · cases hstep

/-- A new epoch removes what it delivers. -/
theorem Inv.newEpoch (h : Inv hash params r) {epochNr : EpochNr}
    {clientProgress : Checkpoint.ClientProgress} {r' : Flow O}
    (hstep : r.step hash params (.newEpoch epochNr clientProgress) = some r') :
    Inv hash params r' := by
  rw [step] at hstep
  obtain rfl := Option.some.inj hstep
  have hentries := @uponNewEpoch_entries O params r.state epochNr clientProgress
  refine ⟨h.flight, ?_, h.unique, ?_⟩
  · intro e he
    change e ∈ (uponNewEpoch params r.state epochNr clientProgress).1.transactions.entries at he
    rw [hentries] at he
    exact h.entries e (List.mem_of_mem_filter he)
  · intro k txs hk tx htx
    rcases h.kept k txs hk tx htx with hflight | ⟨e, he, hlt, hcontains⟩ | hstored
    · exact .inl hflight
    · exact .inr (.inl ⟨e, List.mem_append_left _ he, hlt, hcontains⟩)
    · cases hcontains : (r.state.clientProgress.loadPb clientProgress).contains tx.clientID tx.txNo with
      | true =>
        obtain ⟨hlt, -⟩ := List.getElem?_eq_some_iff.mp hk
        exact .inr (.inl ⟨_, List.mem_append_right _ (List.mem_singleton.mpr rfl), hlt, hcontains⟩)
      | false =>
        refine .inr (.inr ?_)
        change _ ∈ (uponNewEpoch params r.state epochNr clientProgress).1.transactions.entries
        rw [hentries]
        refine List.mem_filter.mpr ⟨hstored, ?_⟩
        rw [hcontains]
        rfl

/-- An event that does not change the stored transactions. -/
theorem Inv.congr (h : Inv hash params r) {s' : State O}
    (hentries : s'.transactions.entries = r.state.transactions.entries) :
    Inv hash params { r with state := s' } := by
  refine ⟨h.flight, ?_, h.unique, ?_⟩
  · rw [hentries]
    exact h.entries
  · rw [hentries]
    exact h.kept

theorem Inv.step (h : Inv hash params r) {action : Action O} {r' : Flow O}
    (hC : ∀ txs, action = .newTransactions txs → Storable hash params r txs)
    (hstep : r.step hash params action = some r') : Inv hash params r' := by
  cases action with
  | newTransactions txs => exact h.newTransactions (hC txs rfl) hstep
  | process position => exact h.process hstep
  | newEpoch epochNr clientProgress => exact h.newEpoch hstep
  | requestBatch | batchTimeout =>
    rw [Flow.step] at hstep
    obtain ⟨s', o, hhandle, rfl⟩ := handled_eq_some hstep
    exact h.congr ((entries_kept _).handle (fun hstart => by cases hstart <;> rfl) hhandle)

theorem Reachable.inv (hr : Reachable hash params (Storable hash params) r) :
    Inv hash params r := by
  induction hr with
  | init => exact inv_init
  | step hr hC hstep ih => exact ih.step hC hstep

/-- An entry of an indexed list is the only one with its key. -/
theorem stored_of_mem {tx : Transaction}
    (h : (txID hash tx, tx) ∈ r.state.transactions.entries) : r.Stored hash tx := by
  obtain ⟨pre, post, hsplit⟩ := List.append_of_mem h
  have hnodup := r.state.transactions.nodup
  rw [hsplit, List.map_append, List.map_cons, List.nodup_middle, List.nodup_cons,
    ← List.map_append] at hnodup
  have hne : ∀ e ∈ pre ++ post, ¬ decide (e.1 = txID hash tx) = true := by
    intro e he heq
    exact hnodup.1 (List.mem_map.mpr ⟨e, he, of_decide_eq_true heq⟩)
  rw [List.forall_mem_append] at hne
  have hself : decide ((txID hash tx, tx).1 = txID hash tx) = true := decide_eq_true rfl
  rw [Stored, hsplit, List.filter_append, List.filter_eq_nil_iff.mpr hne.1, List.filter_cons,
    if_pos hself, List.filter_eq_nil_iff.mpr hne.2]
  rfl

/-- **No transaction is lost** in runs in which no list is longer than a batch, counting only the
transactions that fit in one, and in which no two different transactions have the same identifier. -/
theorem transactions_stored (hash : Bytes → Bytes) (params : ModuleParams) {r : Flow O}
    (hr : Reachable hash params (Storable hash params) r) : r.NoneLost hash params := by
  intro k txs hk hflight tx htx hpayload hdelivered
  have htx' : tx ∈ eligible params txs := List.mem_filter.mpr ⟨htx, decide_eq_true hpayload⟩
  rcases hr.inv.kept k txs hk tx htx' with ⟨pending, hmem⟩ | hsince | hstored
  · exact absurd rfl (hflight (k, pending) hmem)
  · exact absurd hsince hdelivered
  · exact stored_of_mem hstored

/-- Two transactions of a client. -/
def twoTransactions : List Transaction := [⟨[97], 0, 0, [1]⟩, ⟨[97], 1, 0, [2]⟩]

/-- The flow after they have arrived. -/
def arrived : Flow Unit :=
  { init with
    flight := [(0, .requestTransactionIDs twoTransactions)]
    received := [twoTransactions] }

/-- Two transactions are stored if two fit in a batch. -/
theorem two_transactions_stored : ∃ r : Flow Unit, Reachable id ⟨2, 9⟩ (Storable id ⟨2, 9⟩) r ∧
    r.received = [twoTransactions] ∧ r.flight.length = 0 ∧
    ∀ tx ∈ twoTransactions, r.Stored id tx := by
  have hfirst : Reachable id ⟨2, 9⟩ (Storable id ⟨2, 9⟩) arrived := by
    have hstep : (init : Flow Unit).step id ⟨2, 9⟩ (.newTransactions twoTransactions) =
        some arrived := rfl
    refine .step .init (fun txs heq => ?_) hstep
    obtain rfl := Action.newTransactions.inj heq
    exact ⟨by decide, by decide⟩
  obtain ⟨r, hreach, hreceived, hflight, hepochs⟩ := exists_of_steps (by decide +kernel :
    ([0, 0, 0, 0].foldlM (fun r position => Flow.step id ⟨2, 9⟩ r (.process position)) arrived).any
      (fun r => r.received = [twoTransactions] ∧ r.flight.length = 0 ∧ r.epochs.length = 0) = true)
    hfirst fun _ hr hstep => hr.step (fun _ heq => by cases heq) hstep
  refine ⟨r, hreach, hreceived, hflight, fun tx htx => ?_⟩
  refine transactions_stored id ⟨2, 9⟩ hreach 0 twoTransactions ?_ ?_ tx htx ?_ ?_
  · rw [hreceived]
    rfl
  · rw [List.length_eq_zero_iff.mp hflight]
    exact nofun
  · exact (by decide : ∀ tx ∈ twoTransactions, (tx.data.length : ℤ) ≤ 9) tx htx
  · rintro ⟨e, he, -⟩
    rw [List.length_eq_zero_iff.mp hepochs] at he
    cases he

/-- Two transactions are lost if only one fits in a batch. -/
theorem long_list_lost : ¬ ∀ (hash : Bytes → Bytes) (params : ModuleParams) (r : Flow Unit),
    Reachable hash params (fun _ _ => True) r → r.NoneLost hash params := by
  intro hall
  obtain ⟨r, hreach, hreceived, hflight, hepochs, hentries⟩ := exists_of_steps (by decide +kernel :
    ([.newTransactions twoTransactions, .process 0].foldlM (step id ⟨1, 9⟩) init).any
      (fun (r : Flow Unit) => r.received = [twoTransactions] ∧ r.flight.length = 0 ∧
        r.epochs.length = 0 ∧ r.state.transactions.entries = []) = true)
    Reachable.init fun _ hr hstep => hr.step (fun _ _ => trivial) hstep
  have hstored := hall id ⟨1, 9⟩ r hreach 0 twoTransactions (by rw [hreceived]; rfl)
    (by rw [List.length_eq_zero_iff.mp hflight]; exact nofun) ⟨[97], 0, 0, [1]⟩ (by decide)
    (by decide) (by
      rintro ⟨e, he, -⟩
      rw [List.length_eq_zero_iff.mp hepochs] at he
      cases he)
  rw [Stored, hentries] at hstored
  cases hstored

end Flow

end Mir.Mempool
