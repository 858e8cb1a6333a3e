import Mir.Trantor.ClientProgress
import Mir.Util.IndexedList

/-!
# Forming batches

`formbatchesint.IncludeBatchCreation`: the part of the mempool that stores the incoming transactions
and forms batches of them on request. Transactions are stored in the order of arrival, once their
identifiers have been computed. In each epoch, an iterator goes through them from the beginning.
A request for a batch waits until there are enough transactions for a full batch, or for a timeout,
and if it is for a later epoch, until that epoch starts.

The origin of a request, to which the batch is returned, is not inspected: its type is `O`. Sizes and
counters are unbounded integers. How long a timeout takes is left out.
-/

namespace Mir.Mempool

open ClientProgress (Progress)
open FallibleLoop

/-! ### The module -/

/-- `common.ModuleParams`. -/
structure ModuleParams where
  maxTransactionsInBatch : ℤ
  maxPayloadInBatch : ℤ
  deriving DecidableEq

/-- Events for the module. A response with identifiers comes with the transactions of its request. -/
inductive Event (O : Type)
  | newEpoch (epochNr : EpochNr) (clientProgress : Checkpoint.ClientProgress)
  | newTransactions (txs : List Transaction)
  | transactionIDsResponse (txs : List (TxID × Transaction))
  | requestBatch (epoch : EpochNr) (origin : O)
  | batchTimeout (batchReqID : ℕ)
  deriving DecidableEq

/-- What the module emits. -/
inductive Output (O : Type)
  | newBatch (txs : List (TxID × Transaction)) (origin : O)
  | requestTransactionIDs (txs : List Transaction)
  | timerDelay (batchReqID : ℕ)
  deriving DecidableEq

/-- `formbatchesint.State`. -/
structure State (O : Type) where
  transactions : IndexedList TxID Transaction
  epoch : EpochNr
  clientProgress : Progress
  totalPayloadSize : ℤ
  unproposedPayloadSize : ℤ
  numUnproposed : ℤ
  iterator : ℕ
  earlyBatchRequests : GoMap EpochNr (List O)
  pendingBatchRequests : GoMap ℕ O
  firstPendingBatchReqID : ℕ
  nextPendingBatchReqID : ℕ

variable {O : Type}

/-- The state at the start. -/
def State.init : State O where
  transactions := (IndexedList.new.iterator 0).1
  epoch := 0
  clientProgress := ∅
  totalPayloadSize := 0
  unproposedPayloadSize := 0
  numUnproposed := 0
  iterator := (IndexedList.new.iterator 0 : IndexedList TxID Transaction × ℕ).2
  earlyBatchRequests := ∅
  pendingBatchRequests := ∅
  firstPendingBatchReqID := 0
  nextPendingBatchReqID := 0

/-- The variables of `cutBatch` that its predicate updates. -/
structure Cut where
  batchSize : ℤ
  txCount : ℤ
  numUnproposed : ℤ
  unproposedPayloadSize : ℤ

/-- The predicate of `cutBatch`. -/
def Cut.next (params : ModuleParams) (cut : Cut) (_txID : TxID) (tx : Transaction) : Option Cut :=
  if cut.txCount < params.maxTransactionsInBatch ∧
      cut.batchSize + tx.data.length ≤ params.maxPayloadInBatch then
    some ⟨cut.batchSize + tx.data.length, cut.txCount + 1, cut.numUnproposed - 1,
      cut.unproposedPayloadSize - tx.data.length⟩
  else none

/-- `cutBatch`. -/
def cutBatch (params : ModuleParams) (s : State O) (origin : O) : State O × List (Output O) :=
  let taken := s.transactions.nextWhile s.iterator (Cut.next params)
    ⟨0, 0, s.numUnproposed, s.unproposedPayloadSize⟩
  ({ s with
      transactions := taken.1
      numUnproposed := taken.2.2.numUnproposed
      unproposedPayloadSize := taken.2.2.unproposedPayloadSize },
    [.newBatch taken.2.1 origin])

/-- `storePendingRequest`, with the identifier of the request. -/
def storePendingRequest (s : State O) (origin : O) : State O × ℕ :=
  ({ s with
      pendingBatchRequests := s.pendingBatchRequests.insert s.nextPendingBatchReqID origin
      nextPendingBatchReqID := s.nextPendingBatchReqID + 1 },
    s.nextPendingBatchReqID)

/-- `haveFullBatch`. -/
def haveFullBatch (params : ModuleParams) (s : State O) : Bool :=
  decide (params.maxTransactionsInBatch ≤ s.numUnproposed) ||
    decide (params.maxPayloadInBatch ≤ s.unproposedPayloadSize)

/-- The loop of `servePendingReq`, for at most the given number of iterations. -/
def advanceFirst (pending : GoMap ℕ O) (next : ℕ) : ℕ → ℕ → ℕ
  | 0, first => first
  | fuel + 1, first =>
    if first ∉ pending.keys ∧ first < next then advanceFirst pending next fuel (first + 1) else first

/-- `servePendingReq`. -/
def servePendingReq (params : ModuleParams) (s : State O) (batchReqID : ℕ) :
    Fallible (State O × List (Output O)) := do
  let origin ← deref (s.pendingBatchRequests.lookup batchReqID)
  let cut := cutBatch params s origin
  let pending := s.pendingBatchRequests.erase batchReqID
  let first := advanceFirst pending s.nextPendingBatchReqID
    (s.nextPendingBatchReqID - s.firstPendingBatchReqID) s.firstPendingBatchReqID
  return ({ cut.1 with pendingBatchRequests := pending, firstPendingBatchReqID := first }, cut.2)

/-- `handleBatchRequest`. -/
def handleBatchRequest (params : ModuleParams) (s : State O) (origin : O) :
    State O × List (Output O) :=
  if haveFullBatch params s then cutBatch params s origin
  else
    let stored := storePendingRequest s origin
    (stored.1, [.timerDelay stored.2])

/-- `handleBatchRequest` for a list of requests. -/
def handleBatchRequests (params : ModuleParams) :
    State O → List O → State O × List (Output O)
  | s, [] => (s, [])
  | s, origin :: origins =>
    let handled := handleBatchRequest params s origin
    let rest := handleBatchRequests params handled.1 origins
    (rest.1, handled.2 ++ rest.2)

/-- `UponNewEpoch` up to the requests for the new epoch. -/
def startEpoch (s : State O) (epochNr : EpochNr) (clientProgress : Checkpoint.ClientProgress) :
    State O :=
  let iterated := (s.transactions.garbageCollect epochNr).iterator epochNr
  let clientProgress := s.clientProgress.loadPb clientProgress
  let removed := iterated.1.removeSelected fun _ tx => clientProgress.contains tx.clientID tx.txNo
  let totalPayloadSize :=
    removed.2.foldl (fun size e => size - (e.2.data.length : ℤ)) s.totalPayloadSize
  { s with
    transactions := removed.1
    epoch := epochNr
    clientProgress := clientProgress
    totalPayloadSize := totalPayloadSize
    unproposedPayloadSize := totalPayloadSize
    numUnproposed := removed.1.len
    iterator := iterated.2
    earlyBatchRequests := s.earlyBatchRequests.filterKeys fun epoch => epochNr ≤ epoch }

/-- `UponNewEpoch`. -/
def uponNewEpoch (params : ModuleParams) (s : State O) (epochNr : EpochNr)
    (clientProgress : Checkpoint.ClientProgress) : State O × List (Output O) :=
  let s := startEpoch s epochNr clientProgress
  handleBatchRequests params s ((s.earlyBatchRequests.lookup epochNr).getD [])

/-- `UponNewTransactions`. -/
def uponNewTransactions (params : ModuleParams) (txs : List Transaction) : List (Output O) :=
  let txsToSave := txs.filter fun tx => decide (tx.data.length ≤ params.maxPayloadInBatch)
  if 0 < txsToSave.length then [.requestTransactionIDs txsToSave] else []

/-- The counters after a transaction was added; delivered ones are not counted. -/
def countAdded (s : State O) (e : TxID × Transaction) : State O :=
  if s.clientProgress.contains e.2.clientID e.2.txNo then s
  else
    { s with
      totalPayloadSize := s.totalPayloadSize + e.2.data.length
      unproposedPayloadSize := s.unproposedPayloadSize + e.2.data.length
      numUnproposed := s.numUnproposed + 1 }

/-- The transactions of a response are added and counted. -/
def addTransactions (s : State O) (txs : List (TxID × Transaction)) : State O :=
  let appended := s.transactions.append txs
  appended.2.foldl countAdded { s with transactions := appended.1 }

/-- The loop of `UponTransactionIDsResponse`, for at most the given number of iterations. -/
def serveFullBatches (params : ModuleParams) :
    ℕ → State O → Fallible (State O × List (Output O))
  | 0, s => .ok (s, [])
  | fuel + 1, s =>
    if haveFullBatch params s ∧ s.firstPendingBatchReqID < s.nextPendingBatchReqID then do
      let served ← servePendingReq params s s.firstPendingBatchReqID
      let rest ← serveFullBatches params fuel served.1
      return (rest.1, served.2 ++ rest.2)
    else .ok (s, [])

/-- `UponTransactionIDsResponse`. -/
def uponTransactionIDsResponse (params : ModuleParams) (s : State O)
    (txs : List (TxID × Transaction)) : Fallible (State O × List (Output O)) :=
  let s := addTransactions s txs
  serveFullBatches params (s.nextPendingBatchReqID - s.firstPendingBatchReqID) s

/-- `UponRequestBatch`. -/
def uponRequestBatch (params : ModuleParams) (s : State O) (epoch : EpochNr) (origin : O) :
    State O × List (Output O) :=
  if epoch = s.epoch then handleBatchRequest params s origin
  else if s.epoch < epoch then
    let early := (s.earlyBatchRequests.lookup epoch).getD []
    ({ s with earlyBatchRequests := s.earlyBatchRequests.insert epoch (early ++ [origin]) }, [])
  else (s, [])

/-- `UponBatchTimeout`. -/
def uponBatchTimeout (params : ModuleParams) (s : State O) (batchReqID : ℕ) :
    Fallible (State O × List (Output O)) :=
  match s.pendingBatchRequests.lookup batchReqID with
  | some _ => servePendingReq params s batchReqID
  | none => .ok (s, [])

/-- The handlers of the module. -/
def handle (params : ModuleParams) (s : State O) : Event O → Fallible (State O × List (Output O))
  | .newEpoch epochNr clientProgress => .ok (uponNewEpoch params s epochNr clientProgress)
  | .newTransactions txs => .ok (s, uponNewTransactions params txs)
  | .transactionIDsResponse txs => uponTransactionIDsResponse params s txs
  | .requestBatch epoch origin => .ok (uponRequestBatch params s epoch origin)
  | .batchTimeout batchReqID => uponBatchTimeout params s batchReqID

/-! ### The steps of the handlers

An event changes the state and makes requests due. The due requests are then answered or stored, and
pending ones are served. -/

section Steps

variable {params : ModuleParams} {s s' : State O} {event : Event O} {o out : List (Output O)}

/-- The state after a pending request was served. -/
def served (params : ModuleParams) (s : State O) (reqID : ℕ) (origin : O) : State O :=
  { (cutBatch params s origin).1 with
    pendingBatchRequests := s.pendingBatchRequests.erase reqID
    firstPendingBatchReqID := advanceFirst (s.pendingBatchRequests.erase reqID)
      s.nextPendingBatchReqID (s.nextPendingBatchReqID - s.firstPendingBatchReqID)
      s.firstPendingBatchReqID }

/-- A request is served if it is pending. -/
theorem servePendingReq_eq_ok_iff {reqID : ℕ} : servePendingReq params s reqID = .ok (s', o) ↔
    ∃ origin, s.pendingBatchRequests.lookup reqID = some origin ∧
      s' = served params s reqID origin ∧ o = (cutBatch params s origin).2 := by
  constructor
  · intro h
    obtain ⟨origin, horigin, h⟩ := Fallible.bind_eq_ok.mp h
    cases h
    exact ⟨origin, deref_eq_ok.mp horigin, rfl, rfl⟩
  · rintro ⟨origin, horigin, rfl, rfl⟩
    rw [servePendingReq, horigin]
    rfl

/-- What an event does before any request is served: the due requests, the state and the output. -/
inductive Starts (params : ModuleParams) (s : State O) :
    Event O → List O → State O → List (Output O) → Prop
  | newEpoch (epochNr : EpochNr) (clientProgress : Checkpoint.ClientProgress) :
      Starts params s (.newEpoch epochNr clientProgress)
        (((startEpoch s epochNr clientProgress).earlyBatchRequests.lookup epochNr).getD [])
        (startEpoch s epochNr clientProgress) []
  | newTransactions (txs : List Transaction) :
      Starts params s (.newTransactions txs) [] s (uponNewTransactions params txs)
  | transactionIDsResponse (txs : List (TxID × Transaction)) :
      Starts params s (.transactionIDsResponse txs) [] (addTransactions s txs) []
  | due (origin : O) : Starts params s (.requestBatch s.epoch origin) [origin] s []
  | early {epoch : EpochNr} (origin : O) (hlater : s.epoch < epoch) :
      Starts params s (.requestBatch epoch origin) [] { s with
        earlyBatchRequests := s.earlyBatchRequests.insert epoch
          ((s.earlyBatchRequests.lookup epoch).getD [] ++ [origin]) } []
  | late (epoch : EpochNr) (origin : O) : Starts params s (.requestBatch epoch origin) [] s []
  | batchTimeout (batchReqID : ℕ) : Starts params s (.batchTimeout batchReqID) [] s []

/-- The steps in which requests are served keep an invariant, which may depend on the due requests. -/
structure Kept (params : ModuleParams) (I : List O → State O → List (Output O) → Prop) : Prop where
  cut : ∀ {origin origins s out}, I (origin :: origins) s out →
    I origins (cutBatch params s origin).1 (out ++ (cutBatch params s origin).2)
  store : ∀ {origin origins s out}, I (origin :: origins) s out →
    I origins (storePendingRequest s origin).1 (out ++ [.timerDelay (storePendingRequest s origin).2])
  serve : ∀ {origin s out reqID}, I [] s out → s.pendingBatchRequests.lookup reqID = some origin →
    I [] (served params s reqID origin) (out ++ (cutBatch params s origin).2)

variable {I : List O → State O → List (Output O) → Prop}

theorem Kept.handleBatchRequest (hI : Kept params I) {origin : O} {origins : List O}
    (h : I (origin :: origins) s out) : I origins (handleBatchRequest params s origin).1
      (out ++ (handleBatchRequest params s origin).2) := by
  rw [Mempool.handleBatchRequest]
  split
  · exact hI.cut h
  · exact hI.store h

theorem Kept.handleBatchRequests (hI : Kept params I) {origins : List O} (h : I origins s out) :
    I [] (handleBatchRequests params s origins).1
      (out ++ (handleBatchRequests params s origins).2) := by
  induction origins generalizing s out with
  | nil =>
    rw [Mempool.handleBatchRequests, List.append_nil]
    exact h
  | cons origin origins ih =>
    rw [Mempool.handleBatchRequests, ← List.append_assoc]
    exact ih (hI.handleBatchRequest h)

theorem Kept.servePendingReq (hI : Kept params I) {reqID : ℕ} (h : I [] s out)
    (hserve : servePendingReq params s reqID = .ok (s', o)) : I [] s' (out ++ o) := by
  obtain ⟨origin, horigin, rfl, rfl⟩ := servePendingReq_eq_ok_iff.mp hserve
  exact hI.serve h horigin

theorem Kept.serveFullBatches (hI : Kept params I) {fuel : ℕ} (h : I [] s out)
    (hloop : serveFullBatches params fuel s = .ok (s', o)) : I [] s' (out ++ o) := by
  induction fuel generalizing s out o with
  | zero =>
    cases hloop
    rwa [List.append_nil]
  | succ fuel ih =>
    rw [Mempool.serveFullBatches] at hloop
    split at hloop
    next =>
      obtain ⟨⟨s₁, o₁⟩, hserved, hloop⟩ := Fallible.bind_eq_ok.mp hloop
      obtain ⟨⟨s₂, o₂⟩, hrest, hloop⟩ := Fallible.bind_eq_ok.mp hloop
      cases hloop
      rw [← List.append_assoc]
      exact ih (hI.servePendingReq h hserved) hrest
    next =>
      cases hloop
      rwa [List.append_nil]

/-- **An event keeps an invariant** that holds once it has changed the state and made requests due. -/
theorem Kept.handle (hI : Kept params I)
    (hstart : ∀ {origins start o}, Starts params s event origins start o → I origins start o)
    (h : handle params s event = .ok (s', o)) : I [] s' o := by
  cases event with
  | newEpoch epochNr clientProgress =>
    obtain ⟨rfl, rfl⟩ := Prod.ext_iff.mp (Except.ok.inj h)
    exact hI.handleBatchRequests (hstart (.newEpoch epochNr clientProgress))
  | newTransactions txs =>
    cases h
    exact hstart (.newTransactions txs)
  | transactionIDsResponse txs => exact hI.serveFullBatches (hstart (.transactionIDsResponse txs)) h
  | requestBatch epoch origin =>
    obtain ⟨rfl, rfl⟩ := Prod.ext_iff.mp (Except.ok.inj h)
    rw [uponRequestBatch]
    split
    next hepoch =>
      subst hepoch
      exact hI.handleBatchRequest (hstart (.due origin))
    next =>
      split
      next hlater => exact hstart (.early origin hlater)
      next => exact hstart (.late epoch origin)
  | batchTimeout reqID =>
    rw [Mempool.handle, uponBatchTimeout] at h
    split at h
    · exact hI.servePendingReq (hstart (.batchTimeout reqID)) h
    · cases h
      exact hstart (.batchTimeout reqID)

end Steps

/-! ### Runs -/

/-- The transactions whose identifiers are requested. -/
def Output.requestedIDs? : Output O → Option (List Transaction)
  | .requestTransactionIDs txs => some txs
  | .newBatch .. | .timerDelay _ => none

/-- A run: the current state, what has been received and emitted, and what has been emitted since the
last `NewEpoch` event arrived. -/
structure Run (O : Type) where
  state : State O
  events : List (Event O)
  out : List (Output O)
  epochOut : List (Output O)

namespace Run

/-- The run before the first event. -/
def init : Run O := ⟨.init, [], [], []⟩

/-- The run after one more event. -/
def after (r : Run O) (event : Event O) (state : State O) (out : List (Output O)) : Run O where
  state := state
  events := r.events ++ [event]
  out := r.out ++ out
  epochOut :=
    match event with
    | .newEpoch .. => out
    | .newTransactions _ | .transactionIDsResponse _ | .requestBatch .. | .batchTimeout _ =>
      r.epochOut ++ out

/-- A response with identifiers is for transactions whose identifiers were requested. The other events
come at any time. -/
def Enabled (r : Run O) : Event O → Prop
  | .transactionIDsResponse txs => txs.map Prod.snd ∈ r.out.filterMap Output.requestedIDs?
  | .newEpoch .. | .newTransactions _ | .requestBatch .. | .batchTimeout _ => True

instance (r : Run O) : ∀ event, Decidable (r.Enabled event)
  | .transactionIDsResponse _ => inferInstanceAs (Decidable (_ ∈ _))
  | .newEpoch .. | .newTransactions _ | .requestBatch .. | .batchTimeout _ => .isTrue trivial

/-- The runs whose events all satisfy a condition when they arrive. -/
inductive Reachable (params : ModuleParams) (P : Run O → Event O → Prop) : Run O → Prop
  | init : Reachable params P .init
  | step {r : Run O} {event : Event O} {state : State O} {out : List (Output O)} :
      Reachable params P r → r.Enabled event → P r event →
      handle params r.state event = .ok (state, out) → Reachable params P (r.after event state out)

/-- One more event, if it is enabled, satisfies the condition and is handled. -/
def next? (params : ModuleParams) (P : Run O → Event O → Prop) [∀ r e, Decidable (P r e)]
    (r : Run O) (event : Event O) : Option (Run O) :=
  attempt (r.Enabled event ∧ P r event) (handle params r.state event) fun result =>
    r.after event result.1 result.2

theorem exists_reachable {params : ModuleParams} {P : Run O → Event O → Prop}
    [∀ r e, Decidable (P r e)] {events : List (Event O)} {Q : Run O → Prop} [DecidablePred Q]
    (h : (events.foldlM (next? params P) .init).any (fun r => Q r) = true) :
    ∃ r, Reachable params P r ∧ Q r := by
  refine exists_of_steps h .init fun _ hr hnext => ?_
  obtain ⟨hevent, result, hhandle, rfl⟩ := attempt_eq_some.mp hnext
  exact .step hr hevent.1 hevent.2 hhandle

end Run

end Mir.Mempool
