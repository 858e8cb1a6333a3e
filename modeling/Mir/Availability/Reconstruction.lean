import Mir.Availability.Verification
import Mir.Mempool.ComputeIDs

/-!
# Storing and reconstructing batches

The parts of the multisig collector through which batches enter and leave a node: a batch received with
a signature request is stored under the identifier the mempool computes for it, and a request for the
transactions of a certificate looks up its batches in the local store and asks the signers for those it
does not find, checking the identifier of what they send.

A node runs one instance of the module for each epoch, over one store. Whatever is stored or saved is a
batch with the identifier it is stored or saved under (`NodeRun.Inv`), so the transactions two nodes
provide for a certificate have the same contents, unless transactions with different contents have the
same serialization: `reconstructs_of_unambiguous`.
-/

namespace Mir.Availability

open Iss Checkpoint Fallible Digests FallibleLoop

/-! ### The module -/

/-- A pointer to a transaction. -/
abbrev TxPtr := Option Transaction

/-- `availabilitypb.RequestTransactionsOrigin`. -/
structure RequestTransactionsOrigin where
  module : GoString
  contextID : UInt64
  deriving DecidableEq

/-- `batchreconstruction.RequestState`; the value of a batch ID is `none` for `nil`. -/
structure RequestState where
  nonEmptyCerts : List BatchID
  txs : GoMap BatchID (Option (List TxPtr))
  reqOrigin : RequestTransactionsOrigin

/-- `batchreconstruction.State`. -/
structure ReconstructionState where
  nextReqID : ℕ
  requestState : GoMap ℕ RequestState

/-- `lookupBatchLocallyContext` and `lookupBatchOnRemoteRequestContext`. -/
inductive LookupContext
  | locally (cert : MscCert) (origin : RequestTransactionsOrigin) (reqID : ℕ)
  | onRemoteRequest (requester : NodeID) (reqID : ℕ) (batchID : BatchID)
  deriving DecidableEq

/-- `requestTxIDsContext` and `computeIDsOfReceivedTxsContext`. -/
inductive TxIDsContext
  | provided (reqID : ℕ) (txs : List TxPtr) (batchID : BatchID)
  | received (sourceID : NodeID) (txs : List TxPtr) (reqID : ℕ)
  deriving DecidableEq

/-- `requestBatchIDContext` and `computeIDOfReceivedBatchContext`. -/
inductive BatchIDContext
  | provided (reqID : ℕ) (txs : List TxPtr) (txIDs : List TxID) (batchID : BatchID)
  | received (sourceID : NodeID) (txIDs : List TxID) (txs : List TxPtr) (reqID : ℕ)
  deriving DecidableEq

/-- The two kinds of `storeBatchContext`. -/
inductive StoreContext
  | provided
  | received (sourceID : NodeID) (reqID : ℕ) (batchID : BatchID)
  deriving DecidableEq

/-- `signReceivedBatchContext`. -/
structure SignContext where
  sourceID : NodeID
  reqID : ℕ
  deriving DecidableEq

/-- The events the module handles. -/
inductive BatchEvent
  | requestTransactions (cert : Cert) (origin : RequestTransactionsOrigin)
  | lookupBatchResponse (found : Bool) (txs : List TxPtr) (context : LookupContext)
  | requestBatchMessage (sender : NodeID) (batchID : BatchID) (reqID : ℕ)
  | provideBatchMessage (sender : NodeID) (txs : List TxPtr) (reqID : ℕ) (batchID : BatchID)
  | requestSigMessage (sender : NodeID) (txs : List TxPtr) (reqID : ℕ)
  | transactionIDsResponse (txIDs : List TxID) (context : TxIDsContext)
  | batchIDResponse (batchID : BatchID) (context : BatchIDContext)
  | batchStored (context : StoreContext)
  | signResult (signature : Bytes) (context : SignContext)
  deriving DecidableEq

/-- The events the module emits. -/
inductive BatchOutput
  | provideTransactions (txs : List TxPtr) (origin : RequestTransactionsOrigin)
  | lookupBatch (batchID : BatchID) (context : LookupContext)
  | sendRequestBatch (batchID : BatchID) (reqID : ℕ) (destinations : List NodeID)
  | sendProvideBatch (txs : List TxPtr) (reqID : ℕ) (batchID : BatchID) (destination : NodeID)
  | requestTransactionIDs (txs : List TxPtr) (context : TxIDsContext)
  | requestBatchID (txIDs : List TxID) (context : BatchIDContext)
  | storeBatch (batchID : BatchID) (txs : List TxPtr) (retentionIndex : EpochNr)
      (context : StoreContext)
  | signRequest (data : List Bytes) (context : SignContext)
  | sendSig (signature : Bytes) (reqID : ℕ) (destination : NodeID)
  deriving DecidableEq

/-- The loop of `saveAndFinish`: the batches in certificate order, if none is missing. -/
def gather (txs : GoMap BatchID (Option (List TxPtr))) : List BatchID → Option (List TxPtr)
  | [] => some []
  | batchID :: rest => do
    let txsSorted ← (txs.lookup batchID).join
    let others ← gather txs rest
    return txsSorted ++ others

/-- `saveAndFinish`, for the entry `request` under `reqID`. -/
def saveAndFinish (state : ReconstructionState) (request : RequestState) (reqID : ℕ)
    (txs : List TxPtr) (batchID : BatchID) (origin : RequestTransactionsOrigin) :
    ReconstructionState × List BatchOutput :=
  let saved := { request with txs := request.txs.insert batchID (some txs) }
  match gather saved.txs saved.nonEmptyCerts with
  | some allTxs =>
    ({ state with requestState := state.requestState.erase reqID },
      [.provideTransactions allTxs origin])
  | none => ({ state with requestState := state.requestState.insert reqID saved }, [])

/-- `UponRequestTransactions`. -/
def uponRequestTransactions (state : ReconstructionState) (cert : Cert)
    (origin : RequestTransactionsOrigin) : Fallible (ReconstructionState × List BatchOutput) :=
  match cert with
  | none => .error (.error .invalidCertificate)
  | some [] => .ok (state, [.provideTransactions [] origin])
  | some certs =>
    let reqID := state.nextReqID
    let request : RequestState :=
      ⟨certs.map MscCert.batchID, GoMap.ofKeys (certs.map MscCert.batchID) fun _ => none, origin⟩
    .ok (⟨reqID + 1, state.requestState.insert reqID request⟩,
      certs.map fun c => .lookupBatch c.batchID (.locally c origin reqID))

/-- The two handlers of `LookupBatchResponse`. -/
def uponLookupBatchResponse (state : ReconstructionState) (found : Bool) (txs : List TxPtr) :
    LookupContext → ReconstructionState × List BatchOutput
  | .locally cert origin reqID =>
    match state.requestState.lookup reqID with
    | none => (state, [])
    | some request =>
      if found then saveAndFinish state request reqID txs cert.batchID origin
      else (state, [.sendRequestBatch cert.batchID reqID cert.signers])
  | .onRemoteRequest requester reqID batchID =>
    if found then (state, [.sendProvideBatch txs reqID batchID requester]) else (state, [])

/-- `UponRequestBatchMessageReceived`. -/
def uponRequestBatchMessageReceived (params : ModuleParams) (state : ReconstructionState)
    (sender : NodeID) (batchID : BatchID) (reqID : ℕ) : ReconstructionState × List BatchOutput :=
  if sender ∉ params.membership.nodes.keys then (state, [])
  else (state, [.lookupBatch batchID (.onRemoteRequest sender reqID batchID)])

/-- `UponProvideBatchMessageReceived`. -/
def uponProvideBatchMessageReceived (params : ModuleParams) (state : ReconstructionState)
    (sender : NodeID) (txs : List TxPtr) (reqID : ℕ) (batchID : BatchID) :
    ReconstructionState × List BatchOutput :=
  if sender ∉ params.membership.nodes.keys then (state, [])
  else
    match state.requestState.lookup reqID with
    | none => (state, [])
    | some request =>
      if batchID ∉ request.txs.keys then (state, [])
      else if txs.length = 0 then (state, [])
      else (state, [.requestTransactionIDs txs (.provided reqID txs batchID)])

/-- `UponRequestSigMessageReceived`. -/
def uponRequestSigMessageReceived (params : ModuleParams) (state : ReconstructionState)
    (sender : NodeID) (txs : List TxPtr) (reqID : ℕ) : ReconstructionState × List BatchOutput :=
  if sender ∉ params.membership.nodes.keys then (state, [])
  else if txs.length = 0 then (state, [])
  else (state, [.requestTransactionIDs txs (.received sender txs reqID)])

/-- The two handlers of `TransactionIDsResponse`. -/
def uponTransactionIDsResponse (state : ReconstructionState) (txIDs : List TxID) :
    TxIDsContext → ReconstructionState × List BatchOutput
  | .provided reqID txs batchID =>
    (state, [.requestBatchID txIDs (.provided reqID txs txIDs batchID)])
  | .received sourceID txs reqID =>
    (state, [.requestBatchID txIDs (.received sourceID txIDs txs reqID)])

/-- The two handlers of `BatchIDResponse` for batches of other nodes. -/
def uponReceivedBatchIDResponse (params : ModuleParams) (state : ReconstructionState)
    (batchID : BatchID) : BatchIDContext → ReconstructionState × List BatchOutput
  | .provided reqID txs _ expected =>
    match state.requestState.lookup reqID with
    | none => (state, [])
    | some request =>
      if batchID ≠ expected then (state, [])
      else
        let (state, out) := saveAndFinish state request reqID txs expected request.reqOrigin
        (state, .storeBatch batchID txs params.epochNr .provided :: out)
  | .received sourceID _ txs reqID =>
    (state, [.storeBatch batchID txs params.epochNr (.received sourceID reqID batchID)])

/-- The two handlers of `BatchStored`. -/
def uponBatchStored (params : ModuleParams) (state : ReconstructionState) :
    StoreContext → ReconstructionState × List BatchOutput
  | .provided => (state, [])
  | .received sourceID reqID batchID =>
    (state, [.signRequest (sigData params.instanceUID batchID) ⟨sourceID, reqID⟩])

/-- Handling one event. -/
def handleBatches (params : ModuleParams) (state : ReconstructionState) :
    BatchEvent → Fallible (ReconstructionState × List BatchOutput)
  | .requestTransactions cert origin => uponRequestTransactions state cert origin
  | .lookupBatchResponse found txs context => .ok (uponLookupBatchResponse state found txs context)
  | .requestBatchMessage sender batchID reqID =>
    .ok (uponRequestBatchMessageReceived params state sender batchID reqID)
  | .provideBatchMessage sender txs reqID batchID =>
    .ok (uponProvideBatchMessageReceived params state sender txs reqID batchID)
  | .requestSigMessage sender txs reqID =>
    .ok (uponRequestSigMessageReceived params state sender txs reqID)
  | .transactionIDsResponse txIDs context => .ok (uponTransactionIDsResponse state txIDs context)
  | .batchIDResponse batchID context =>
    .ok (uponReceivedBatchIDResponse params state batchID context)
  | .batchStored context => .ok (uponBatchStored params state context)
  | .signResult signature context =>
    .ok (state, [.sendSig signature context.reqID context.sourceID])

/-! ### Runs of a node -/

/-- The instances of the module at a node, by epoch, and the limit of its mempool. -/
structure NodeParams where
  instances : ℕ → ModuleParams
  maxTransactionsInBatch : ℤ

/-- The event answers a call: the mempool computes identifiers, those of `H` only. -/
def Answers (hash : Bytes → Bytes) (H : Mempool.Inputs) (maxTransactionsInBatch : ℤ) :
    BatchEvent → BatchOutput → Prop
  | .transactionIDsResponse txIDs context, .requestTransactionIDs txs context' =>
    context' = context ∧ Mempool.transactionIDs hash maxTransactionsInBatch txs = some txIDs ∧
      ∀ ptr ∈ txs, ∀ tx ∈ ptr, tx ∈ H.txs
  | .batchIDResponse batchID context, .requestBatchID txIDs context' =>
    context' = context ∧ batchID = Mempool.batchID hash txIDs ∧ txIDs.flatten ∈ H.ids
  | .batchStored context, .storeBatch _ _ _ context' => context' = context
  | .signResult _ context, .signRequest _ context' => context' = context
  | _, _ => False

instance (hash : Bytes → Bytes) (H : Mempool.Inputs) (maxTransactionsInBatch : ℤ) (event : BatchEvent)
    (call : BatchOutput) : Decidable (Answers hash H maxTransactionsInBatch event call) := by
  unfold Answers
  split <;> infer_instance

/-- The batch a lookup is for. -/
def LookupContext.batchID : LookupContext → BatchID
  | .locally cert _ _ => cert.batchID
  | .onRemoteRequest _ _ batchID => batchID

/-- The event stores a batch. -/
def BatchOutput.Stores (batchID : BatchID) (txs : List TxPtr) : BatchOutput → Prop
  | .storeBatch batchID' txs' _ _ => batchID' = batchID ∧ txs' = txs
  | _ => False

instance (batchID : BatchID) (txs : List TxPtr) (o : BatchOutput) :
    Decidable (o.Stores batchID txs) := by
  unfold BatchOutput.Stores
  split <;> infer_instance

/-- The transactions an event provides to a requester. -/
def BatchOutput.answer? (origin : RequestTransactionsOrigin) : BatchOutput → Option (List TxPtr)
  | .provideTransactions txs origin' => if origin' = origin then some txs else none
  | _ => none

/-- The requester an event comes from. -/
def BatchEvent.origin? : BatchEvent → Option RequestTransactionsOrigin
  | .requestTransactions _ origin => some origin
  | _ => none

/-- A run of all instances of the module at a node: their states, the events they handled and the
events they emitted. -/
structure NodeRun where
  states : ℕ → ReconstructionState
  events : List (ℕ × BatchEvent)
  out : List (ℕ × BatchOutput)

namespace NodeRun

/-- The run before the first event. -/
def init : NodeRun := ⟨fun _ => ⟨0, ∅⟩, [], []⟩

/-- The run after instance `i` has handled one more event. -/
def after (r : NodeRun) (i : ℕ) (event : BatchEvent) (state : ReconstructionState)
    (out : List BatchOutput) : NodeRun :=
  ⟨Function.update r.states i state, r.events ++ [(i, event)], r.out ++ out.map (Prod.mk i)⟩

/-- The requesters of a run. -/
def origins (r : NodeRun) : List RequestTransactionsOrigin :=
  r.events.filterMap fun e => e.2.origin?

/-- The lists of transactions provided to a requester. -/
def answers (r : NodeRun) (origin : RequestTransactionsOrigin) : List (List TxPtr) :=
  r.out.filterMap fun o => o.2.answer? origin

/-- Requests have names of their own; the store finds only what some instance has stored, and the other
modules answer calls. Messages come at any time. -/
def Enabled (hash : Bytes → Bytes) (H : Mempool.Inputs) (p : NodeParams) (r : NodeRun) (i : ℕ) :
    BatchEvent → Prop
  | .requestTransactions _ origin => origin ∉ r.origins
  | .lookupBatchResponse found txs context => (i, .lookupBatch context.batchID context) ∈ r.out ∧
    (found = true → ∃ o ∈ r.out, o.2.Stores context.batchID txs)
  | .requestBatchMessage .. | .provideBatchMessage .. | .requestSigMessage .. => True
  | event => ∃ call ∈ r.out, call.1 = i ∧ Answers hash H p.maxTransactionsInBatch event call.2

/-- The runs of a node. -/
inductive Reachable (hash : Bytes → Bytes) (H : Mempool.Inputs) (p : NodeParams) : NodeRun → Prop
  | init : Reachable hash H p .init
  | step {r : NodeRun} {i : ℕ} {event : BatchEvent} {state : ReconstructionState}
      {out : List BatchOutput} :
      Reachable hash H p r → r.Enabled hash H p i event →
      handleBatches (p.instances i) (r.states i) event = .ok (state, out) →
      Reachable hash H p (r.after i event state out)

end NodeRun

/-! ### What is stored, saved and provided -/

/-- The transactions are present and have the given batch ID. -/
def IsSaved (hash : Bytes → Bytes) (H : Mempool.Inputs) (batchID : BatchID) (txs : List TxPtr) :
    Prop :=
  ∃ ts : List Transaction, txs = ts.map some ∧ Mempool.IsBatch hash H batchID ts

/-- The transactions are the concatenation of the batches the IDs of a certificate stand for. -/
def Provides (hash : Bytes → Bytes) (H : Mempool.Inputs) (certs : List MscCert) (txs : List TxPtr) :
    Prop :=
  ∃ batches, List.Forall₂ (fun c batch => IsSaved hash H c.batchID batch) certs batches ∧
    txs = batches.flatten

/-- The contents of transactions. -/
def contents (txs : List TxPtr) : List (Option (ClientID × TxNo × Bytes)) :=
  txs.map (Option.map Mempool.content)

/-- **All nodes reconstruct the same transactions**: what two nodes provide for a valid certificate has
the same contents, and is the concatenation of the certified batches; each request is answered at most
once. -/
def Reconstructs (hash : Bytes → Bytes) (H : Mempool.Inputs) : Prop :=
  ∀ (p₁ p₂ : NodeParams) (r₁ r₂ : NodeRun) (i₁ i₂ : ℕ) (origin₁ origin₂ : RequestTransactionsOrigin)
    (crypto : Crypto) (certs : List MscCert), Genuine crypto (p₁.instances i₁) (some certs) →
    r₁.Reachable hash H p₁ → r₂.Reachable hash H p₂ →
    (i₁, .requestTransactions (some certs) origin₁) ∈ r₁.events →
    (i₂, .requestTransactions (some certs) origin₂) ∈ r₂.events →
    (r₁.answers origin₁).length ≤ 1 ∧
    (∀ txs₁ ∈ r₁.answers origin₁, Provides hash H certs txs₁) ∧
    ∀ txs₁ ∈ r₁.answers origin₁, ∀ txs₂ ∈ r₂.answers origin₂, contents txs₁ = contents txs₂

section Provides

variable {n : ℕ} {hash : Bytes → Bytes} {H : Mempool.Inputs} {certs : List MscCert}

theorem contents_append (txs txs' : List TxPtr) :
    contents (txs ++ txs') = contents txs ++ contents txs' := List.map_append

theorem IsSaved.contents_eq (hfree : CollisionFree n hash H.strings)
    (hun : Mempool.Unambiguous H) {id : BatchID} {txs txs' : List TxPtr}
    (h : IsSaved hash H id txs) (h' : IsSaved hash H id txs') : contents txs = contents txs' := by
  obtain ⟨ts, rfl, hts⟩ := h
  obtain ⟨ts', rfl, hts'⟩ := h'
  have heq := congrArg (List.map some) (hts.contents_eq hfree hun hts')
  simpa [contents, Function.comp_def] using heq

/-- Concatenations of batches with the same IDs have the same contents. -/
theorem Provides.contents_eq (hfree : CollisionFree n hash H.strings)
    (hun : Mempool.Unambiguous H) {txs txs' : List TxPtr} (h : Provides hash H certs txs)
    (h' : Provides hash H certs txs') : contents txs = contents txs' := by
  obtain ⟨batches, hbatches, rfl⟩ := h
  obtain ⟨batches', hbatches', rfl⟩ := h'
  induction hbatches generalizing batches' with
  | nil =>
    cases hbatches'
    rfl
  | cons hbatch _ ih =>
    obtain - | ⟨hbatch', hrest⟩ := hbatches'
    rw [List.flatten_cons, List.flatten_cons, contents_append, contents_append,
      hbatch.contents_eq hfree hun hbatch', ih _ hrest]

/-- What `saveAndFinish` provides is the concatenation of saved batches. -/
theorem gather_eq_some {saved : GoMap BatchID (Option (List TxPtr))} {txs : List TxPtr}
    (hsaved : ∀ id l, saved.lookup id = some (some l) → IsSaved hash H id l)
    (h : gather saved (certs.map MscCert.batchID) = some txs) : Provides hash H certs txs := by
  induction certs generalizing txs with
  | nil =>
    cases h
    exact ⟨[], .nil, rfl⟩
  | cons c certs ih =>
    obtain ⟨l, hl, h⟩ := Option.bind_eq_some_iff.mp h
    obtain ⟨others, hothers, h⟩ := Option.bind_eq_some_iff.mp h
    obtain rfl := Option.some.inj h
    obtain ⟨batches, hbatches, rfl⟩ := ih hothers
    exact ⟨l :: batches, .cons (hsaved _ _ (Option.join_eq_some_iff.mp hl)) hbatches, rfl⟩

end Provides

/-! ### Invariants of a run -/

/-- The transactions whose identifiers are computed. -/
def TxIDsContext.txs : TxIDsContext → List TxPtr
  | .provided _ txs _ | .received _ txs _ => txs

/-- The transactions whose batch ID is computed. -/
def BatchIDContext.txs : BatchIDContext → List TxPtr
  | .provided _ txs _ _ | .received _ _ txs _ => txs

namespace NodeRun

variable {hash : Bytes → Bytes} {H : Mempool.Inputs} {p : NodeParams} {r : NodeRun} {i k : ℕ}
  {event : BatchEvent} {state : ReconstructionState} {out : List BatchOutput}
  {request : RequestState} {origin : RequestTransactionsOrigin}

/-- An open request belongs to a certificate, and only batches with their own IDs are saved in it. -/
structure EntryInv (hash : Bytes → Bytes) (H : Mempool.Inputs) (r : NodeRun) (i k : ℕ)
    (request : RequestState) : Prop where
  below : k < (r.states i).nextReqID
  requested : ∃ certs, (i, .requestTransactions (some certs) request.reqOrigin) ∈ r.events ∧
    request.nonEmptyCerts = certs.map MscCert.batchID
  saved : ∀ id txs, request.txs.lookup id = some (some txs) → IsSaved hash H id txs
  unanswered : r.answers request.reqOrigin = []

/-- What the module has emitted: identifiers are computed for the batches of the contexts, and stored
batches have the IDs they are stored under. -/
def OutInv (hash : Bytes → Bytes) (H : Mempool.Inputs) (r : NodeRun) (i : ℕ) : BatchOutput → Prop
  | .provideTransactions txs origin => ∃ certs,
    (i, .requestTransactions (some certs) origin) ∈ r.events ∧ Provides hash H certs txs
  | .lookupBatch _ (.locally _ origin k) => k < (r.states i).nextReqID ∧
    ∀ request, (r.states i).requestState.lookup k = some request → request.reqOrigin = origin
  | .requestTransactionIDs txs context => context.txs = txs ∧ txs ≠ []
  | .requestBatchID txIDs context => ∃ ts : List Transaction, context.txs = ts.map some ∧ ts ≠ [] ∧
    txIDs = (ts.map fun tx => hash (Mempool.hashed tx)) ∧ ∀ tx ∈ ts, tx ∈ H.txs
  | .storeBatch batchID txs _ _ => IsSaved hash H batchID txs
  | _ => True

/-- The invariant of the runs of a node. -/
structure Inv (hash : Bytes → Bytes) (H : Mempool.Inputs) (r : NodeRun) : Prop where
  entries : ∀ i k request, (r.states i).requestState.lookup k = some request →
    EntryInv hash H r i k request
  unique : ∀ i k request i' k' request', (r.states i).requestState.lookup k = some request →
    (r.states i').requestState.lookup k' = some request' →
    request.reqOrigin = request'.reqOrigin → i = i' ∧ k = k'
  out : ∀ o ∈ r.out, OutInv hash H r o.1 o.2
  once : ∀ origin, (r.answers origin).length ≤ 1
  answered : ∀ origin, r.answers origin ≠ [] → origin ∈ r.origins
  requests : ∀ i cert i' cert' origin, (i, .requestTransactions cert origin) ∈ r.events →
    (i', .requestTransactions cert' origin) ∈ r.events → i = i' ∧ cert = cert'

theorem inv_init : Inv hash H .init where
  entries := nofun
  unique := nofun
  out := nofun
  once _ := Nat.zero_le _
  answered _ h := absurd rfl h
  requests := nofun

section Steps

variable {txs : List TxPtr} {certs : List MscCert} {txIDs : List TxID} {context : BatchIDContext}

/-- The first half of a step: an event arrives. -/
def log (r : NodeRun) (i : ℕ) (event : BatchEvent) : NodeRun :=
  ⟨r.states, r.events ++ [(i, event)], r.out⟩

/-- The second half of a step: instance `i` changes its state and emits events. -/
def push (r : NodeRun) (i : ℕ) (state : ReconstructionState) (out : List BatchOutput) : NodeRun :=
  ⟨Function.update r.states i state, r.events, r.out ++ out.map (Prod.mk i)⟩

theorem after_eq_push : r.after i event state out = (r.log i event).push i state out := rfl

theorem push_push {state' : ReconstructionState} {out' : List BatchOutput} :
    (r.push i state out).push i state' out' = r.push i state' (out ++ out') := by
  rw [push, push, push, Function.update_idem, List.map_append, List.append_assoc]

theorem answers_push : (r.push i state out).answers origin =
    r.answers origin ++ out.filterMap fun o => o.answer? origin := by
  rw [answers, push, List.filterMap_append, List.filterMap_map]
  rfl

theorem origins_log : (r.log i event).origins = r.origins ++ event.origin?.toList := by
  refine List.filterMap_append.trans (congrArg (r.origins ++ ·) ?_)
  cases h : event.origin? <;> simp [h]

theorem states_push_self : (r.push i state out).states i = state := Function.update_self ..

theorem states_push_of_ne {j : ℕ} (h : j ≠ i) :
    (r.push i state out).states j = r.states j := Function.update_of_ne h ..

theorem states_push_eq : (r.push i (r.states i) out).states = r.states := Function.update_eq_self ..

/-- Old requests are still open, or no longer, with the same origin. -/
structure Extends (r r' : NodeRun) : Prop where
  events : r.events ⊆ r'.events
  next : ∀ i, (r.states i).nextReqID ≤ (r'.states i).nextReqID
  entries : ∀ i k request', k < (r.states i).nextReqID →
    (r'.states i).requestState.lookup k = some request' →
    ∃ request, (r.states i).requestState.lookup k = some request ∧
      request.reqOrigin = request'.reqOrigin

theorem OutInv.mono {r r' : NodeRun} {o : BatchOutput} (h : OutInv hash H r i o)
    (hext : Extends r r') : OutInv hash H r' i o := by
  unfold OutInv at h ⊢
  split
  · obtain ⟨certs, hcerts, hprovides⟩ := h
    exact ⟨certs, hext.events hcerts, hprovides⟩
  · refine ⟨h.1.trans_le (hext.next i), fun request' hrequest' => ?_⟩
    obtain ⟨request, hrequest, horigin⟩ := hext.entries _ _ _ h.1 hrequest'
    rw [← horigin]
    exact h.2 request hrequest
  · exact h
  · exact h
  · exact h
  · trivial

theorem EntryInv.mono {r r' : NodeRun} (h : EntryInv hash H r i k request) (hext : Extends r r')
    (hanswers : r'.answers request.reqOrigin = r.answers request.reqOrigin) :
    EntryInv hash H r' i k request where
  below := h.below.trans_le (hext.next i)
  requested := by
    obtain ⟨certs, hcerts, hids⟩ := h.requested
    exact ⟨certs, hext.events hcerts, hids⟩
  saved := h.saved
  unanswered := hanswers.trans h.unanswered

theorem EntryInv.origin_mem (h : EntryInv hash H r i k request) : request.reqOrigin ∈ r.origins := by
  obtain ⟨certs, hcerts, -⟩ := h.requested
  exact List.mem_filterMap.mpr ⟨_, hcerts, rfl⟩

theorem extends_log : Extends r (r.log i event) where
  events := List.subset_append_left _ _
  next _ := le_rfl
  entries _ _ request' _ h := ⟨request', h, rfl⟩

/-- An event arrives; requests come under new names. -/
theorem Inv.log (h : Inv hash H r) (hnew : ∀ origin, event.origin? = some origin →
    origin ∉ r.origins) : Inv hash H (r.log i event) where
  entries j k request hentry := (h.entries j k request hentry).mono extends_log rfl
  unique := h.unique
  out o ho := (h.out o ho).mono extends_log
  once := h.once
  answered origin horigin := by
    rw [origins_log]
    exact List.mem_append_left _ (h.answered origin horigin)
  requests j cert j' cert' origin hmem hmem' := by
    have hold : ∀ {j : ℕ} {cert : Cert}, (j, .requestTransactions cert origin) ∈ r.events →
        origin ∈ r.origins := fun hmem => List.mem_filterMap.mpr ⟨_, hmem, rfl⟩
    rcases List.mem_append.mp hmem with hin | hlast <;>
      rcases List.mem_append.mp hmem' with hin' | hlast'
    · exact h.requests j cert j' cert' origin hin hin'
    · cases List.mem_singleton.mp hlast'
      exact absurd (hold hin) (hnew origin rfl)
    · cases List.mem_singleton.mp hlast
      exact absurd (hold hin') (hnew origin rfl)
    · cases List.mem_singleton.mp hlast
      cases List.mem_singleton.mp hlast'
      exact ⟨rfl, rfl⟩

/-- Events are emitted that provide no transactions. -/
theorem Inv.emit (h : Inv hash H r)
    (hout : ∀ o ∈ out, OutInv hash H r i o ∧ ∀ origin, o.answer? origin = none) :
    Inv hash H (r.push i (r.states i) out) := by
  have hext : Extends r (r.push i (r.states i) out) := by
    refine ⟨List.Subset.refl _, fun j => ?_, fun j k request' _ hk => ⟨request', ?_, rfl⟩⟩
    · rw [states_push_eq]
    · rwa [states_push_eq] at hk
  have hanswers : ∀ origin, (r.push i (r.states i) out).answers origin = r.answers origin := by
    intro origin
    rw [answers_push, List.filterMap_eq_nil_iff.mpr fun o ho => (hout o ho).2 origin,
      List.append_nil]
  constructor
  · intro j k request hentry
    rw [states_push_eq] at hentry
    exact (h.entries j k request hentry).mono hext (hanswers _)
  · rw [states_push_eq]
    exact h.unique
  · intro o ho
    rcases List.mem_append.mp ho with hold | hnew
    · exact (h.out o hold).mono hext
    · obtain ⟨o, hmem, rfl⟩ := List.mem_map.mp hnew
      exact (hout o hmem).1.mono hext
  · intro origin
    rw [hanswers]
    exact h.once origin
  · intro origin
    rw [hanswers]
    exact h.answered origin
  · exact h.requests

/-- What an instance's state keeps when requests are only closed or saved to. -/
theorem extends_push (hnext : (r.states i).nextReqID ≤ state.nextReqID)
    (hentries : ∀ k request', k < (r.states i).nextReqID →
      state.requestState.lookup k = some request' →
      ∃ request, (r.states i).requestState.lookup k = some request ∧
        request.reqOrigin = request'.reqOrigin) : Extends r (r.push i state out) where
  events := List.Subset.refl _
  next j := by
    rcases eq_or_ne j i with rfl | hj
    · rwa [states_push_self]
    · rw [states_push_of_ne hj]
  entries j k request' hk hentry := by
    rcases eq_or_ne j i with rfl | hj
    · rw [states_push_self] at hentry
      exact hentries k request' hk hentry
    · rw [states_push_of_ne hj] at hentry
      exact ⟨request', hentry, rfl⟩

/-- **A request is answered**: it is no longer open, and its origin has no other open request. -/
theorem Inv.answer (h : Inv hash H r)
    (hevent : (i, .requestTransactions (some certs) origin) ∈ r.events)
    (hprovides : Provides hash H certs txs) (hnone : r.answers origin = [])
    (hnext : state.nextReqID = (r.states i).nextReqID)
    (hkept : ∀ k request, state.requestState.lookup k = some request →
      (r.states i).requestState.lookup k = some request)
    (hclosed : ∀ j k request, ((r.push i state []).states j).requestState.lookup k = some request →
      request.reqOrigin ≠ origin) :
    Inv hash H (r.push i state [.provideTransactions txs origin]) := by
  have hext : Extends r (r.push i state [.provideTransactions txs origin]) :=
    extends_push hnext.ge fun k request' _ hk => ⟨request', hkept k request' hk, rfl⟩
  have hanswers : ∀ o, (r.push i state [.provideTransactions txs origin]).answers o =
      r.answers o ++ if origin = o then [txs] else [] := by
    intro o
    rw [answers_push]
    by_cases ho : origin = o <;> simp [BatchOutput.answer?, ho]
  have hold : ∀ j k request, ((r.push i state []).states j).requestState.lookup k = some request →
      (r.states j).requestState.lookup k = some request := by
    intro j k request hk
    rcases eq_or_ne j i with rfl | hj
    · rw [states_push_self] at hk
      exact hkept k request hk
    · rwa [states_push_of_ne hj] at hk
  have horigin : origin ∈ r.origins := List.mem_filterMap.mpr ⟨_, hevent, rfl⟩
  constructor
  · intro j k request hk
    refine (h.entries j k request (hold j k request hk)).mono hext ?_
    rw [hanswers, if_neg (hclosed j k request hk).symm, List.append_nil]
  · intro j k request j' k' request' hk hk'
    exact h.unique j k request j' k' request' (hold _ _ _ hk) (hold _ _ _ hk')
  · exact forall_mem_concat (fun o ho => (h.out o ho).mono hext) ⟨certs, hevent, hprovides⟩
  · intro o
    rw [hanswers]
    split
    next ho =>
      rw [← ho, hnone]
      exact le_rfl
    next =>
      rw [List.append_nil]
      exact h.once o
  · intro o ho
    rw [hanswers] at ho
    split at ho
    next heq => exact heq ▸ horigin
    next =>
      rw [List.append_nil] at ho
      exact h.answered o ho
  · exact h.requests

/-- **A request is opened or saved to**: the entry under `k` is replaced by one that is followed, and its
origin has no other open request. -/
theorem Inv.put (h : Inv hash H r) (hnext : (r.states i).nextReqID ≤ state.nextReqID)
    (hlookup : ∀ k', state.requestState.lookup k' =
      if k' = k then some request else (r.states i).requestState.lookup k')
    (hentry : EntryInv hash H (r.push i state []) i k request)
    (hold : k < (r.states i).nextReqID → ∃ request₀,
      (r.states i).requestState.lookup k = some request₀ ∧ request₀.reqOrigin = request.reqOrigin)
    (hunique : ∀ j k' request', (r.states j).requestState.lookup k' = some request' →
      request'.reqOrigin = request.reqOrigin → j = i ∧ k' = k) :
    Inv hash H (r.push i state []) := by
  have hext : Extends r (r.push i state []) := by
    refine extends_push hnext fun k' request' hk' hlookup' => ?_
    rw [hlookup] at hlookup'
    split at hlookup'
    next heq =>
      obtain rfl := Option.some.inj hlookup'
      exact heq ▸ hold (heq ▸ hk')
    next => exact ⟨request', hlookup', rfl⟩
  have hanswers : ∀ o, (r.push i state []).answers o = r.answers o := by
    intro o
    rw [answers_push, List.filterMap_nil, List.append_nil]
  -- an open request is the one under `k`, or it was open before
  have hcases : ∀ j k' request', ((r.push i state []).states j).requestState.lookup k' =
      some request' → (j = i ∧ k' = k ∧ request' = request) ∨
        (r.states j).requestState.lookup k' = some request' := by
    intro j k' request' hk'
    rcases eq_or_ne j i with rfl | hj
    · rw [states_push_self, hlookup] at hk'
      split at hk'
      next heq => exact .inl ⟨rfl, heq, (Option.some.inj hk').symm⟩
      next => exact .inr hk'
    · rw [states_push_of_ne hj] at hk'
      exact .inr hk'
  constructor
  · intro j k' request' hk'
    rcases hcases j k' request' hk' with ⟨rfl, rfl, rfl⟩ | hin
    · exact hentry
    · exact (h.entries j k' request' hin).mono hext (hanswers _)
  · intro j k₁ request₁ j' k₂ request₂ hk₁ hk₂ horigin
    rcases hcases j k₁ request₁ hk₁ with ⟨rfl, rfl, rfl⟩ | hin₁ <;>
      rcases hcases j' k₂ request₂ hk₂ with ⟨rfl, rfl, rfl⟩ | hin₂
    · exact ⟨rfl, rfl⟩
    · obtain ⟨rfl, rfl⟩ := hunique j' k₂ request₂ hin₂ horigin.symm
      exact ⟨rfl, rfl⟩
    · exact hunique j k₁ request₁ hin₁ horigin
    · exact h.unique j k₁ request₁ j' k₂ request₂ hin₁ hin₂ horigin
  · intro o ho
    rw [push, List.map_nil, List.append_nil] at ho
    exact (h.out o ho).mono hext
  · intro o
    rw [hanswers]
    exact h.once o
  · intro o
    rw [hanswers]
    exact h.answered o
  · exact h.requests

/-- **Saving a batch** keeps the invariant. -/
theorem Inv.saveAndFinish (h : Inv hash H r) {id : BatchID}
    (hentry : (r.states i).requestState.lookup k = some request) (hsaved : IsSaved hash H id txs) :
    Inv hash H (r.push i
      (Availability.saveAndFinish (r.states i) request k txs id request.reqOrigin).1
      (Availability.saveAndFinish (r.states i) request k txs id request.reqOrigin).2) := by
  have hold := h.entries i k request hentry
  obtain ⟨certs, hcerts, hids⟩ := hold.requested
  have hall : ∀ id' txs', (request.txs.insert id (some txs)).lookup id' = some (some txs') →
      IsSaved hash H id' txs' := GoMap.forall_lookup_insert_some hold.saved hsaved
  rw [Availability.saveAndFinish]
  split
  next allTxs hgather =>
    rw [hids] at hgather
    refine h.answer hcerts (gather_eq_some hall hgather) hold.unanswered rfl ?_ ?_
    · exact fun k' request' hk' => GoMap.lookup_erase_eq_some hk'
    · intro j k' request' hk' horigin
      rcases eq_or_ne j i with rfl | hj
      · rw [states_push_self] at hk'
        obtain ⟨-, rfl⟩ := h.unique _ _ _ _ _ _ (GoMap.lookup_erase_eq_some hk') hentry horigin
        rw [AList.lookup_erase] at hk'
        cases hk'
      · rw [states_push_of_ne hj] at hk'
        exact hj (h.unique _ _ _ _ _ _ hk' hentry horigin).1
  next =>
    refine h.put le_rfl (GoMap.lookup_insert_eq _ _ · _) ?_ (fun _ => ⟨request, hentry, rfl⟩) ?_
    · refine ⟨?_, ⟨certs, hcerts, hids⟩, hall, ?_⟩
      · rw [states_push_self]
        exact hold.below
      · rw [answers_push, List.filterMap_nil, List.append_nil]
        exact hold.unanswered
    · exact fun j k' request' hk' horigin => h.unique _ _ _ _ _ _ hk' hentry horigin

/-- **A new request** keeps the invariant. -/
theorem Inv.opened (h : Inv hash H r) {certs : List MscCert}
    (hevent : (i, .requestTransactions (some certs) origin) ∈ r.events)
    (hnone : r.answers origin = [])
    (hnew : ∀ j k request, (r.states j).requestState.lookup k = some request →
      request.reqOrigin ≠ origin) :
    Inv hash H (r.push i ⟨(r.states i).nextReqID + 1, (r.states i).requestState.insert
      (r.states i).nextReqID ⟨certs.map MscCert.batchID,
        GoMap.ofKeys (certs.map MscCert.batchID) fun _ => none, origin⟩⟩
      (certs.map fun c => .lookupBatch c.batchID (.locally c origin (r.states i).nextReqID))) := by
  have hput : Inv hash H (r.push i ⟨(r.states i).nextReqID + 1, (r.states i).requestState.insert
      (r.states i).nextReqID ⟨certs.map MscCert.batchID,
        GoMap.ofKeys (certs.map MscCert.batchID) fun _ => none, origin⟩⟩ []) := by
    refine h.put (Nat.le_succ _) (GoMap.lookup_insert_eq _ _ · _) ?_
      (fun hlt => absurd hlt (Nat.lt_irrefl _)) ?_
    · refine ⟨?_, ⟨certs, hevent, rfl⟩, fun id txs hlookup => ?_, ?_⟩
      · rw [states_push_self]
        exact Nat.lt_succ_self _
      · rw [GoMap.lookup_ofKeys] at hlookup
        split at hlookup <;> cases hlookup
      · rw [answers_push, List.filterMap_nil, List.append_nil]
        exact hnone
    · exact fun j k request hk horigin => absurd horigin (hnew j k request hk)
  have hemit := hput.emit (i := i) fun o (ho : o ∈ certs.map fun c =>
      BatchOutput.lookupBatch c.batchID (.locally c origin (r.states i).nextReqID)) => by
    obtain ⟨c, -, rfl⟩ := List.mem_map.mp ho
    refine ⟨?_, fun _ => rfl⟩
    rw [OutInv, states_push_self]
    refine ⟨Nat.lt_succ_self _, fun request hlookup => ?_⟩
    rw [AList.lookup_insert] at hlookup
    cases hlookup
    rfl
  rwa [states_push_self, push_push, List.nil_append] at hemit

/-- The answers to a request for identifiers. -/
theorem OutInv.requestBatchID {max : ℤ} (hcontext : context.txs = txs) (hne : txs ≠ [])
    (hids : Mempool.transactionIDs hash max txs = some txIDs)
    (hmem : ∀ ptr ∈ txs, ∀ tx ∈ ptr, tx ∈ H.txs) :
    OutInv hash H r i (.requestBatchID txIDs context) := by
  obtain ⟨ts, rfl, rfl⟩ := Mempool.transactionIDs_eq_some hids
  exact ⟨ts, hcontext, fun hnil => hne (hnil ▸ rfl), rfl,
    fun tx htx => hmem (some tx) (List.mem_map_of_mem htx) tx rfl⟩

theorem OutInv.isSaved (h : OutInv hash H r i (.requestBatchID txIDs context))
    (hmem : txIDs.flatten ∈ H.ids) : IsSaved hash H (Mempool.batchID hash txIDs) context.txs := by
  obtain ⟨ts, htxs, hne, rfl, hhashed⟩ := h
  exact ⟨ts, htxs, hne, hhashed, hmem, rfl⟩

/-- One emitted event that provides no transactions. -/
theorem Inv.emitOne (h : Inv hash H r) {o : BatchOutput} (ho : OutInv hash H r i o)
    (hnone : ∀ origin, o.answer? origin = none) : Inv hash H (r.push i (r.states i) [o]) :=
  h.emit fun _ hmem => List.mem_singleton.mp hmem ▸ ⟨ho, hnone⟩

/-- Nothing happens. -/
theorem Inv.ignore (h : Inv hash H r) : Inv hash H (r.push i (r.states i) []) := h.emit nofun

theorem Inv.requestTransactions (h : Inv hash H r) {cert : Cert} (hnew : origin ∉ r.origins)
    (hhandle : uponRequestTransactions (r.states i) cert origin = .ok (state, out)) :
    Inv hash H (r.after i (.requestTransactions cert origin) state out) := by
  have hlog : Inv hash H (r.log i (.requestTransactions cert origin)) :=
    h.log fun o ho => Option.some.inj ho ▸ hnew
  have hevent : (i, .requestTransactions cert origin) ∈
      (r.log i (.requestTransactions cert origin)).events :=
    List.mem_append_right _ List.mem_cons_self
  have hnone : r.answers origin = [] := by
    by_contra hne
    exact hnew (h.answered origin hne)
  have hopen : ∀ j k request, (r.states j).requestState.lookup k = some request →
      request.reqOrigin ≠ origin := by
    intro j k request hk horigin
    exact hnew (horigin ▸ (h.entries j k request hk).origin_mem)
  rw [after_eq_push]
  rcases cert with _ | _ | ⟨c, certs⟩
  · cases hhandle
  · cases hhandle
    refine hlog.answer hevent ⟨[], .nil, rfl⟩ hnone rfl (fun _ _ => id) fun j k request hk => ?_
    have hstates : ((r.log i (.requestTransactions (some []) origin)).push i (r.states i) []).states =
      r.states := states_push_eq
    rw [hstates] at hk
    exact hopen j k request hk
  · cases hhandle
    exact hlog.opened hevent hnone hopen

theorem Inv.lookupBatchResponse (h : Inv hash H r) {found : Bool} {context : LookupContext}
    (hcall : (i, .lookupBatch context.batchID context) ∈ r.out)
    (hfound : found = true → ∃ o ∈ r.out, o.2.Stores context.batchID txs) :
    Inv hash H (r.push i (uponLookupBatchResponse (r.states i) found txs context).1
      (uponLookupBatchResponse (r.states i) found txs context).2) := by
  cases context with
  | onRemoteRequest requester reqID batchID =>
    rw [uponLookupBatchResponse]
    split
    · exact h.emitOne trivial fun _ => rfl
    · exact h.ignore
  | locally cert origin reqID =>
    rw [uponLookupBatchResponse]
    split
    · exact h.ignore
    next request hrequest =>
    split
    next hyes =>
      obtain ⟨o, ho, hstores⟩ := hfound hyes
      have hsaved : IsSaved hash H cert.batchID txs := by
        have hinv := h.out o ho
        unfold BatchOutput.Stores at hstores
        split at hstores
        next heq =>
          obtain ⟨rfl, rfl⟩ := hstores
          rw [heq] at hinv
          exact hinv
        next => exact hstores.elim
      have horigin : request.reqOrigin = origin := (h.out _ hcall).2 request hrequest
      rw [← horigin]
      exact h.saveAndFinish hrequest hsaved
    next => exact h.emitOne trivial fun _ => rfl

theorem Inv.batchIDResponse (h : Inv hash H r) {params : ModuleParams}
    (hcall : (i, .requestBatchID txIDs context) ∈ r.out) (hmem : txIDs.flatten ∈ H.ids) :
    Inv hash H (r.push i
      (uponReceivedBatchIDResponse params (r.states i) (Mempool.batchID hash txIDs) context).1
      (uponReceivedBatchIDResponse params (r.states i) (Mempool.batchID hash txIDs) context).2) := by
  have hsaved := OutInv.isSaved (h.out _ hcall) hmem
  cases context with
  | received sourceID ids txs reqID => exact h.emitOne hsaved fun _ => rfl
  | provided reqID txs ids expected =>
    rw [uponReceivedBatchIDResponse]
    split
    · exact h.ignore
    next request hrequest =>
    split
    · exact h.ignore
    next heq =>
    have hexpected : Mempool.batchID hash txIDs = expected := not_not.mp heq
    have hstored : Inv hash H (r.push i (r.states i)
        [.storeBatch (Mempool.batchID hash txIDs) txs params.epochNr .provided]) :=
      h.emitOne hsaved fun _ => rfl
    have hrequest' : ((r.push i (r.states i) [.storeBatch (Mempool.batchID hash txIDs) txs
        params.epochNr .provided]).states i).requestState.lookup reqID = some request := by
      rwa [states_push_eq]
    have hsave := hstored.saveAndFinish hrequest' (hexpected ▸ hsaved)
    rwa [push_push, states_push_eq] at hsave

/-- **The invariant holds in every run of a node.** -/
theorem Reachable.inv (h : Reachable hash H p r) : Inv hash H r := by
  induction h with
  | init => exact inv_init
  | @step r i event state out _ henabled hhandle ih =>
    -- all handlers but one cannot fail, and their events are not requests
    have hpure : ∀ {q : ReconstructionState × List BatchOutput},
        handleBatches (p.instances i) (r.states i) event = .ok q →
        Inv hash H ((r.log i event).push i q.1 q.2) → Inv hash H (r.after i event state out) := by
      intro q hq hinv
      cases hq.symm.trans hhandle
      exact hinv
    have hlog : event.origin? = none → Inv hash H (r.log i event) := fun hnone =>
      ih.log fun o ho => by rw [hnone] at ho; cases ho
    cases event with
    | requestTransactions cert origin => exact ih.requestTransactions henabled hhandle
    | lookupBatchResponse found txs context =>
      exact hpure rfl ((hlog rfl).lookupBatchResponse henabled.1 henabled.2)
    | requestBatchMessage sender batchID reqID =>
      refine hpure rfl ?_
      rw [uponRequestBatchMessageReceived]
      split
      · exact (hlog rfl).ignore
      · exact (hlog rfl).emitOne trivial fun _ => rfl
    | provideBatchMessage sender txs reqID batchID =>
      refine hpure rfl ?_
      rw [uponProvideBatchMessageReceived]
      split
      · exact (hlog rfl).ignore
      split
      · exact (hlog rfl).ignore
      split
      · exact (hlog rfl).ignore
      split
      · exact (hlog rfl).ignore
      next hne =>
        exact (hlog rfl).emitOne ⟨rfl, List.ne_nil_of_length_pos (Nat.pos_of_ne_zero hne)⟩
          fun _ => rfl
    | requestSigMessage sender txs reqID =>
      refine hpure rfl ?_
      rw [uponRequestSigMessageReceived]
      split
      · exact (hlog rfl).ignore
      split
      · exact (hlog rfl).ignore
      next hne =>
        exact (hlog rfl).emitOne ⟨rfl, List.ne_nil_of_length_pos (Nat.pos_of_ne_zero hne)⟩
          fun _ => rfl
    | transactionIDsResponse txIDs context =>
      refine hpure rfl ?_
      obtain ⟨⟨_, call⟩, hcall, rfl, hanswers⟩ := henabled
      cases call with
      | requestTransactionIDs txs context' =>
        obtain ⟨rfl, hids, hmem⟩ := hanswers
        obtain ⟨htxs, hne⟩ := ih.out _ hcall
        cases context' with
        | provided | received =>
          exact (hlog rfl).emitOne (.requestBatchID htxs hne hids hmem) fun _ => rfl
      | _ => exact hanswers.elim
    | batchIDResponse batchID context =>
      refine hpure rfl ?_
      obtain ⟨⟨_, call⟩, hcall, rfl, hanswers⟩ := henabled
      cases call with
      | requestBatchID txIDs context' =>
        obtain ⟨rfl, rfl, hmem⟩ := hanswers
        exact (hlog rfl).batchIDResponse hcall hmem
      | _ => exact hanswers.elim
    | batchStored context =>
      refine hpure rfl ?_
      cases context with
      | provided => exact (hlog rfl).ignore
      | received => exact (hlog rfl).emitOne trivial fun _ => rfl
    | signResult signature context =>
      exact hpure rfl ((hlog rfl).emitOne trivial fun _ => rfl)

/-- What is provided for a request is the concatenation of the batches of its certificate. -/
theorem Reachable.provides (h : Reachable hash H p r)
    (hevent : (i, .requestTransactions (some certs) origin) ∈ r.events)
    (htxs : txs ∈ r.answers origin) : Provides hash H certs txs := by
  obtain ⟨⟨j, o⟩, ho, hanswer⟩ := List.mem_filterMap.mp htxs
  have hinv := h.inv.out _ ho
  cases o with
  | provideTransactions txs' origin' =>
    rw [BatchOutput.answer?] at hanswer
    split at hanswer
    next heq =>
      cases hanswer
      subst heq
      obtain ⟨certs', hcerts', hprovides⟩ := hinv
      obtain ⟨-, hcert⟩ := h.inv.requests _ _ _ _ _ hevent hcerts'
      cases hcert
      exact hprovides
    next => cases hanswer
  | _ => cases hanswer

end Steps

instance (hash : Bytes → Bytes) (H : Mempool.Inputs) (p : NodeParams) (r : NodeRun) (i : ℕ)
    (event : BatchEvent) : Decidable (r.Enabled hash H p i event) := by
  unfold Enabled
  split <;> infer_instance

/-- One more event of instance 0, if it is enabled and handled. -/
def next? (hash : Bytes → Bytes) (H : Mempool.Inputs) (p : NodeParams) (r : NodeRun)
    (event : BatchEvent) : Option NodeRun :=
  attempt (r.Enabled hash H p 0 event) (handleBatches (p.instances 0) (r.states 0) event)
    fun result => r.after 0 event result.1 result.2

theorem exists_reachable {events : List BatchEvent} {Q : NodeRun → Prop} [DecidablePred Q]
    (h : (events.foldlM (next? hash H p) init).any (fun r => Q r) = true) :
    ∃ r, Reachable hash H p r ∧ Q r := by
  refine exists_of_steps h .init fun _ hr hnext => ?_
  obtain ⟨hevent, result, hhandle, rfl⟩ := attempt_eq_some.mp hnext
  exact hr.step hevent hhandle

end NodeRun

/-! ### Main result -/

/-- **All nodes reconstruct the same transactions** if transactions with the same serialization have the
same contents, for a hash without collisions on the hashed strings. -/
theorem reconstructs_of_unambiguous (n : ℕ) (hash : Bytes → Bytes) (H : Mempool.Inputs)
    (hfree : CollisionFree n hash H.strings) (hun : Mempool.Unambiguous H) :
    Reconstructs hash H := by
  intro p₁ p₂ r₁ r₂ i₁ i₂ origin₁ origin₂ crypto certs _ hr₁ hr₂ hevent₁ hevent₂
  refine ⟨hr₁.inv.once origin₁, fun txs₁ htxs₁ => hr₁.provides hevent₁ htxs₁, ?_⟩
  intro txs₁ htxs₁ txs₂ htxs₂
  exact (hr₁.provides hevent₁ htxs₁).contents_eq hfree hun (hr₂.provides hevent₂ htxs₂)

/-- The hash of a string is its place in a table. -/
def tableHash (table : List Bytes) (input : Bytes) : Bytes := [UInt8.ofNat (table.idxOf input)]

theorem tableHash_collisionFree {table : List Bytes} {H : Mempool.Inputs}
    (hlen : table.length < UInt8.size) (hids : ∀ b ∈ H.ids, b ∈ table)
    (htxs : ∀ tx ∈ H.txs, Mempool.hashed tx ∈ table) :
    CollisionFree 1 (tableHash table) H.strings where
  pos := Nat.one_pos
  length _ := rfl
  injOn := by
    have hmem : ∀ a ∈ H.strings, a ∈ table := by
      rintro a (ha | ⟨tx, htx, rfl⟩)
      · exact hids a ha
      · exact htxs tx htx
    intro a ha b hb hab
    have hplace := congrArg UInt8.toNat (List.cons.inj hab).1
    rw [UInt8.toNat_ofNat_of_lt' ((List.idxOf_lt_length_of_mem (hmem a ha)).trans hlen),
      UInt8.toNat_ofNat_of_lt' ((List.idxOf_lt_length_of_mem (hmem b hb)).trans hlen)] at hplace
    exact (List.idxOf_inj (hmem a ha)).mp hplace

/-- Instances with the parameters of `fourParams`. -/
def fourNode : NodeParams := ⟨fun _ => fourParams, 10⟩

/-- A sub-certificate for a batch. -/
def certFor (batchID : BatchID) : MscCert := ⟨batchID, [[97], [98]], [[1], [1]]⟩

/-- A node does not find the certified batch, and member `a` sends it the given transactions. -/
def receive (batchID : BatchID) (txIDs : List TxID) (txs : List TxPtr) : List BatchEvent :=
  [.requestTransactions (some [certFor batchID]) ⟨[], 0⟩,
    .lookupBatchResponse false [] (.locally (certFor batchID) ⟨[], 0⟩ 0),
    .provideBatchMessage [97] txs 0 batchID,
    .transactionIDsResponse txIDs (.provided 0 txs batchID),
    .batchIDResponse batchID (.provided 0 txs txIDs batchID)]

/-- Transactions of two clients with identifiers of one length, and their batch. -/
def twoClients : Mempool.Inputs := ⟨{⟨[97], 1, 0, [7]⟩, ⟨[98], 2, 0, [8, 9]⟩}, {[0, 1]}⟩

/-- The serializations of the transactions in `twoClients`, and what is hashed for the batch. -/
def twoClientsTable : List Bytes :=
  [Mempool.hashed ⟨[97], 1, 0, [7]⟩, Mempool.hashed ⟨[98], 2, 0, [8, 9]⟩, [0, 1]]

/-- A batch with transactions of two clients is reconstructed. -/
theorem reconstructs_two_clients : Reconstructs (tableHash twoClientsTable) twoClients ∧
    ∃ r, NodeRun.Reachable (tableHash twoClientsTable) twoClients fourNode r ∧
      [some ⟨[97], 1, 0, [7]⟩, some ⟨[98], 2, 0, [8, 9]⟩] ∈ r.answers ⟨[], 0⟩ := by
  refine ⟨reconstructs_of_unambiguous 1 _ _ (tableHash_collisionFree (by decide) (by decide +kernel)
    (by decide +kernel)) (by unfold Mempool.Unambiguous; decide +kernel), ?_⟩
  exact NodeRun.exists_reachable (by decide +kernel : ((receive [2] [[0], [1]]
    [some ⟨[97], 1, 0, [7]⟩, some ⟨[98], 2, 0, [8, 9]⟩]).foldlM
      (NodeRun.next? (tableHash twoClientsTable) twoClients fourNode) .init).any (fun r =>
        [some ⟨[97], 1, 0, [7]⟩, some ⟨[98], 2, 0, [8, 9]⟩] ∈ r.answers ⟨[], 0⟩) = true)

/-- **Two nodes provide different transactions** for one certificate, if they receive transactions with
the same serialization: one of client `[]` with data `[0]`, and one of client `[0]` without data. -/
theorem ambiguous_serialization : ¬ ∀ (n : ℕ) (hash : Bytes → Bytes) (H : Mempool.Inputs),
    CollisionFree n hash H.strings → Reconstructs hash H := by
  intro h
  let H : Mempool.Inputs := ⟨{⟨[], 0, 0, [0]⟩, ⟨[0], 0, 0, []⟩}, {[0]}⟩
  let table : List Bytes := [List.replicate 9 0, [0]]
  have hrun : ∀ tx ∈ [(⟨[], 0, 0, [0]⟩ : Transaction), ⟨[0], 0, 0, []⟩],
      ((receive [1] [[0]] [some tx]).foldlM (NodeRun.next? (tableHash table) H fourNode) .init).any
        (fun r => [some tx] ∈ r.answers ⟨[], 0⟩ ∧
          (0, .requestTransactions (some [certFor [1]]) ⟨[], 0⟩) ∈ r.events) = true := by
    decide +kernel
  obtain ⟨r₁, hr₁, hanswer₁, hevent₁⟩ := NodeRun.exists_reachable (hrun _ List.mem_cons_self)
  obtain ⟨r₂, hr₂, hanswer₂, hevent₂⟩ :=
    NodeRun.exists_reachable (hrun _ (List.mem_cons_of_mem _ List.mem_cons_self))
  have hvalid : Genuine oneCrypto (fourNode.instances 0) (some [certFor [1]]) :=
    ⟨[certFor [1]], by decide +kernel, by decide +kernel⟩
  obtain ⟨-, -, hagree⟩ := h 1 (tableHash table) H (tableHash_collisionFree (by decide)
    (by decide +kernel) (by decide +kernel)) fourNode fourNode r₁ r₂ 0 0 ⟨[], 0⟩ ⟨[], 0⟩ oneCrypto
    [certFor [1]] hvalid hr₁ hr₂ hevent₁ hevent₂
  exact absurd (hagree _ hanswer₁ _ hanswer₂) (by decide +kernel)

end Mir.Availability
