import Mir.Availability.Verification
import Mir.Trantor.Transaction

/-!
# Creation of availability certificates

The part of the multisig collector that produces certificates: it asks the mempool for a batch and for
the batch's ID, asks all members to sign the ID, and collects their signatures until they form a weak
quorum. What handling an event can do is said once, by `CreationStep`.

The entry of a request exists before its batch ID is known, and a signature received in the meantime is
verified for the empty ID. If no member signs the empty batch ID that early, every signature of an entry
is valid for the batch ID of the entry (`CreationRun.Inv`), and every certificate is accepted by the
verification of `Mir.Availability.Verification`: `newCert_accepted`.
-/

namespace Mir.Availability

open Iss Checkpoint Fallible Calls FallibleLoop

/-! ### The module -/

/-- `availabilitypb.RequestCertOrigin`. -/
structure RequestCertOrigin where
  module : GoString
  contextID : UInt64
  deriving DecidableEq

/-- `certcreation.certificate`. -/
structure Certificate where
  batchID : BatchID
  sigs : GoMap NodeID Bytes
  receivedSig : GoMap NodeID Bool
  deriving DecidableEq

/-- `certCreationState`; as in `VerificationState`, the counter of requests does not wrap. -/
structure CertCreationState where
  nextReqID : ℕ
  requestStates : List RequestCertOrigin
  certificates : GoMap ℕ Certificate
  remainingSeqNr : ℤ

/-- `requestIDOfOwnBatchContext`. -/
structure RequestIDOfOwnBatchContext where
  reqID : ℕ
  txs : List Transaction
  deriving DecidableEq

/-- `verifySigContext`. -/
structure VerifySigContext where
  reqID : ℕ
  signature : Bytes
  deriving DecidableEq

/-- The events the module handles. -/
inductive CreationEvent
  | computeCert
  | requestCert (origin : RequestCertOrigin)
  | newBatch (txIDs : List TxID) (txs : List Transaction) (reqID : ℕ)
  | batchIDResponse (batchID : BatchID) (context : RequestIDOfOwnBatchContext)
  | sigMessage (sender : NodeID) (signature : Bytes) (reqID : ℕ)
  | sigVerified (nodeID : NodeID) (ok : Bool) (context : VerifySigContext)
  deriving DecidableEq

/-- The events the module emits. -/
inductive CreationOutput
  | computeCert
  | requestBatch (epochNr : EpochNr) (reqID : ℕ)
  | requestBatchID (txIDs : List TxID) (context : RequestIDOfOwnBatchContext)
  | requestSig (txs : List Transaction) (reqID : ℕ) (destinations : List NodeID)
  | verifySig (data : List Bytes) (signature : Bytes) (nodeID : NodeID) (context : VerifySigContext)
  | newCert (cert : Cert) (origin : RequestCertOrigin)
  deriving DecidableEq

/-- An order in which the maps of the module are visited. -/
structure VisitOrder where
  certs : List Certificate → List Certificate
  sigs : List (NodeID × Bytes) → List (NodeID × Bytes)
  certs_perm : ∀ l, (certs l).Perm l
  sigs_perm : ∀ l, (sigs l).Perm l

/-- The order of the model's own lists. -/
def VisitOrder.listed : VisitOrder := ⟨id, id, List.Perm.refl, List.Perm.refl⟩

/-- `mscCert`, applied to the keys and values of the signatures. -/
def mscCert (order : VisitOrder) (cert : Certificate) : MscCert :=
  let signed := order.sigs cert.sigs.pairs
  ⟨cert.batchID, signed.map Prod.fst, signed.map Prod.snd⟩

/-- `respond`. -/
def respond (state : CertCreationState) (certs : List MscCert) :
    CertCreationState × List CreationOutput :=
  (⟨state.nextReqID, [], state.certificates, state.remainingSeqNr - state.requestStates.length⟩,
    state.requestStates.map (.newCert (some certs)))

/-- The signers of an entry form a weak quorum. -/
def haveSigs (membership : Membership) (cert : Certificate) : Fallible Bool :=
  membership.haveWeakQuorum cert.sigs.keys

/-- `respondIfReady`. -/
def respondIfReady (order : VisitOrder) (membership : Membership) (state : CertCreationState) :
    Fallible (CertCreationState × List CreationOutput) := do
  let (finishedCerts, certificates) ← state.certificates.removeAll (haveSigs membership)
  if finishedCerts = [] then return (state, [])
  else
    let responseCerts := (order.certs finishedCerts).map (mscCert order)
    return respond { state with certificates := certificates } responseCerts

/-- `UponComputeCert`. -/
def uponComputeCert (params : ModuleParams) (state : CertCreationState) :
    CertCreationState × List CreationOutput :=
  if state.remainingSeqNr ≤ 0 then (state, [])
  else
    ({ state with
        nextReqID := state.nextReqID + 1
        certificates := state.certificates.insert state.nextReqID ⟨[], ∅, ∅⟩ },
      [.requestBatch params.epochNr state.nextReqID])

/-- `UponRequestCert`. -/
def uponRequestCert (order : VisitOrder) (params : ModuleParams) (state : CertCreationState)
    (origin : RequestCertOrigin) : Fallible (CertCreationState × List CreationOutput) := do
  let (state, out) ← respondIfReady order params.membership
    { state with requestStates := state.requestStates ++ [origin] }
  return (state, out ++ if state.certificates.keys.length = 0 then [.computeCert] else [])

/-- `UponNewBatch`. -/
def uponNewBatch (state : CertCreationState) (txIDs : List TxID) (txs : List Transaction)
    (reqID : ℕ) : CertCreationState × List CreationOutput :=
  if txs.length = 0 then
    respond { state with certificates := state.certificates.erase reqID } []
  else (state, [.requestBatchID txIDs ⟨reqID, txs⟩])

/-- `UponBatchIDResponse`, for the module's own batches. -/
def uponBatchIDResponse (params : ModuleParams) (state : CertCreationState) (batchID : BatchID)
    (context : RequestIDOfOwnBatchContext) : CertCreationState × List CreationOutput :=
  match state.certificates.lookup context.reqID with
  | none => (state, [])
  | some cert =>
    ({ state with
        certificates := state.certificates.insert context.reqID { cert with batchID := batchID } },
      [.requestSig context.txs context.reqID params.membership.nodes.keys])

/-- `UponSigMessageReceived`. -/
def uponSigMessageReceived (params : ModuleParams) (state : CertCreationState) (sender : NodeID)
    (signature : Bytes) (reqID : ℕ) : CertCreationState × List CreationOutput :=
  match state.certificates.lookup reqID with
  | none => (state, [])
  | some cert =>
    if sender ∉ params.membership.nodes.keys then (state, [])
    else if cert.receivedSig.lookup sender = some true then (state, [])
    else
      ({ state with
          certificates := state.certificates.insert reqID
            { cert with receivedSig := cert.receivedSig.insert sender true } },
        [.verifySig (sigData params.instanceUID cert.batchID) signature sender ⟨reqID, signature⟩])

/-- `UponSigVerified`. -/
def uponSigVerified (order : VisitOrder) (params : ModuleParams) (state : CertCreationState)
    (nodeID : NodeID) (ok : Bool) (context : VerifySigContext) :
    Fallible (CertCreationState × List CreationOutput) :=
  if ¬ ok then .ok (state, [])
  else
    match state.certificates.lookup context.reqID with
    | none => .ok (state, [])
    | some cert => do
      let cert := { cert with sigs := cert.sigs.insert nodeID context.signature }
      let state := { state with certificates := state.certificates.insert context.reqID cert }
      let newDue ← haveSigs params.membership cert
      let responded :=
        if state.requestStates ≠ [] then respondIfReady order params.membership state
        else .ok (state, [])
      let (state, out) ← responded
      return (state, out ++
        if newDue ∧ state.certificates.keys.length < params.limit then [.computeCert] else [])

/-- Handling one event. -/
def handleCreation (order : VisitOrder) (params : ModuleParams) (state : CertCreationState) :
    CreationEvent → Fallible (CertCreationState × List CreationOutput)
  | .computeCert => .ok (uponComputeCert params state)
  | .requestCert origin => uponRequestCert order params state origin
  | .newBatch txIDs txs reqID => .ok (uponNewBatch state txIDs txs reqID)
  | .batchIDResponse batchID context => .ok (uponBatchIDResponse params state batchID context)
  | .sigMessage sender signature reqID =>
    .ok (uponSigMessageReceived params state sender signature reqID)
  | .sigVerified nodeID ok context => uponSigVerified order params state nodeID ok context

/-! ### Runs -/

/-- The request an event makes. -/
def CreationEvent.request? : CreationEvent → Option RequestCertOrigin
  | .requestCert origin => some origin
  | _ => none

/-- The batch an event asks the mempool for. -/
def CreationOutput.batchAsked? : CreationOutput → Option ℕ
  | .requestBatch _ reqID => some reqID
  | _ => none

/-- The batch ID an event asks the mempool for. -/
def CreationOutput.idAsked? : CreationOutput → Option RequestIDOfOwnBatchContext
  | .requestBatchID _ context => some context
  | _ => none

/-- The batch an event provides. -/
def CreationEvent.batch? : CreationEvent → Option ℕ
  | .newBatch _ _ reqID => some reqID
  | _ => none

/-- The batch ID an event provides. -/
def CreationEvent.id? : CreationEvent → Option RequestIDOfOwnBatchContext
  | .batchIDResponse _ context => some context
  | _ => none

/-- The crypto module's answer to a call: whether the signature is valid for the data. -/
def CreationOutput.AnsweredBy (crypto : Crypto) (nodeID : NodeID) (ok : Bool)
    (context : VerifySigContext) : CreationOutput → Prop
  | .verifySig data signature id ctx => id = nodeID ∧ ctx = context ∧
    signature = context.signature ∧ ok = crypto.verify data.flatten context.signature nodeID
  | _ => False

instance (crypto : Crypto) (nodeID : NodeID) (ok : Bool) (context : VerifySigContext) :
    ∀ call : CreationOutput, Decidable (call.AnsweredBy crypto nodeID ok context)
  | .verifySig .. => inferInstanceAs (Decidable (_ ∧ _))
  | .computeCert | .requestBatch .. | .requestBatchID .. | .requestSig .. | .newCert .. => .isFalse id

/-- A run: the state, the events handled and the events emitted. -/
structure CreationRun where
  state : CertCreationState
  events : List CreationEvent
  out : List CreationOutput

namespace CreationRun

/-- The run before the first event. -/
def init (params : ModuleParams) : CreationRun := ⟨⟨0, [], ∅, params.maxRequests⟩, [], []⟩

/-- The batches asked for. -/
def batchesAsked (r : CreationRun) : List ℕ := r.out.filterMap CreationOutput.batchAsked?

/-- The batches the mempool has provided. -/
def batches (r : CreationRun) : List ℕ := r.events.filterMap CreationEvent.batch?

/-- The batch IDs asked for. -/
def idsAsked (r : CreationRun) : List RequestIDOfOwnBatchContext :=
  r.out.filterMap CreationOutput.idAsked?

/-- The batch IDs the mempool has provided. -/
def ids (r : CreationRun) : List RequestIDOfOwnBatchContext := r.events.filterMap CreationEvent.id?

/-- The run after one more event. -/
def after (r : CreationRun) (event : CreationEvent) (state : CertCreationState)
    (out : List CreationOutput) : CreationRun := ⟨state, r.events ++ [event], r.out ++ out⟩

/-- The mempool answers each of its calls once; the crypto module tells the valid signatures. The
other events come at any time. -/
def Enabled (crypto : Crypto) (r : CreationRun) : CreationEvent → Prop
  | .newBatch _ _ reqID => Outstanding r.batchesAsked r.batches reqID
  | .batchIDResponse _ context => Outstanding r.idsAsked r.ids context
  | .sigVerified nodeID ok context => ∃ call ∈ r.out, call.AnsweredBy crypto nodeID ok context
  | .computeCert | .requestCert _ | .sigMessage .. => True

instance (crypto : Crypto) (r : CreationRun) : ∀ event, Decidable (r.Enabled crypto event)
  | .newBatch .. => inferInstanceAs (Decidable (Outstanding ..))
  | .batchIDResponse .. => inferInstanceAs (Decidable (Outstanding ..))
  | .sigVerified nodeID ok context =>
    inferInstanceAs (Decidable (∃ call ∈ r.out, call.AnsweredBy crypto nodeID ok context))
  | .computeCert | .requestCert _ | .sigMessage .. => .isTrue trivial

/-- The runs of the module whose events all satisfy a condition in the state they arrive in. -/
inductive Reachable (crypto : Crypto) (params : ModuleParams)
    (P : CertCreationState → CreationEvent → Prop) : CreationRun → Prop
  | init : Reachable crypto params P (.init params)
  | step {r : CreationRun} {order : VisitOrder} {event : CreationEvent}
      {state : CertCreationState} {out : List CreationOutput} :
      Reachable crypto params P r → r.Enabled crypto event → P r.state event →
      handleCreation order params r.state event = .ok (state, out) →
      Reachable crypto params P (r.after event state out)

/-- One more event, if it is enabled and meets the condition. -/
def next? (crypto : Crypto) (params : ModuleParams) (P : CertCreationState → CreationEvent → Prop)
    [∀ state event, Decidable (P state event)] (r : CreationRun) (event : CreationEvent) :
    Option CreationRun :=
  attempt (r.Enabled crypto event ∧ P r.state event) (handleCreation .listed params r.state event)
    fun result => r.after event result.1 result.2

theorem exists_reachable {crypto : Crypto} {params : ModuleParams}
    {P : CertCreationState → CreationEvent → Prop} [∀ state event, Decidable (P state event)]
    {events : List CreationEvent} {Q : CreationRun → Prop} [DecidablePred Q]
    (h : (events.foldlM (next? crypto params P) (.init params)).any (fun r => Q r) = true) :
    ∃ r, Reachable crypto params P r ∧ Q r := by
  refine exists_of_steps h .init fun _ hr hnext => ?_
  obtain ⟨hevent, result, hhandle, rfl⟩ := attempt_eq_some.mp hnext
  exact .step hr hevent.1 hevent.2 hhandle

end CreationRun

/-- The sender has not signed the empty batch ID for an entry that waits for its batch ID. -/
def NotPremature (crypto : Crypto) (params : ModuleParams) (state : CertCreationState) :
    CreationEvent → Prop
  | .sigMessage sender signature reqID =>
    ∀ cert ∈ state.certificates.lookup reqID, cert.batchID = [] →
      sender ∈ params.membership.nodes.keys → cert.receivedSig.lookup sender ≠ some true →
      crypto.verify (sigData params.instanceUID []).flatten signature sender = false
  | .computeCert | .requestCert _ | .newBatch .. | .batchIDResponse .. | .sigVerified .. => True

instance (crypto : Crypto) (params : ModuleParams) (state : CertCreationState) :
    ∀ event, Decidable (NotPremature crypto params state event)
  | .sigMessage .. => inferInstanceAs (Decidable (∀ cert ∈ _, _ → _ → _ → _))
  | .computeCert | .requestCert _ | .newBatch .. | .batchIDResponse .. | .sigVerified .. =>
    .isTrue trivial

/-- Every node with the same membership and instance ID declares the certificate valid, whenever it
verifies it. -/
def Accepted (crypto : Crypto) (params : ModuleParams) (cert : Cert) : Prop :=
  ∀ params' : ModuleParams, params'.membership = params.membership →
    params'.instanceUID = params.instanceUID →
    Verifies crypto params' cert ∧ Genuine crypto params' cert

/-! ### Steps -/

section Steps

variable {params : ModuleParams} {order : VisitOrder} {event : CreationEvent}
  {state state' : CertCreationState} {out : List CreationOutput}

/-- What `respondIfReady` does: it returns the finished entries and leaves the others, if there are
finished ones. -/
inductive Responded (order : VisitOrder) (membership : Membership) (state : CertCreationState) :
    CertCreationState → List CreationOutput → Prop
  | nothing (hunfinished : ∀ e ∈ state.certificates.pairs, haveSigs membership e.2 ≠ .ok true) :
      Responded order membership state state []
  | all {certificates : GoMap ℕ Certificate} {certs : List MscCert}
      (hrest : ∀ k cert, certificates.lookup k = some cert ↔
        state.certificates.lookup k = some cert ∧ haveSigs membership cert ≠ .ok true)
      (hcerts : certs.Perm ((state.certificates.pairs.filter fun e =>
        haveSigs membership e.2 = .ok true).map fun e => mscCert order e.2)) :
      Responded order membership state
        ⟨state.nextReqID, [], certificates,
          state.remainingSeqNr - state.requestStates.length⟩
        (state.requestStates.map (.newCert (some certs)))

theorem responded_of_respondIfReady
    (h : respondIfReady order params.membership state = .ok (state', out)) :
    Responded order params.membership state state' out := by
  obtain ⟨⟨finishedCerts, certificates⟩, hremove, hrest⟩ := bind_eq_ok.mp h
  obtain ⟨rfl, hkept⟩ := GoMap.removeAll_spec hremove
  simp only at hrest
  split at hrest
  next hempty =>
    cases hrest
    refine .nothing fun e he hfinished => ?_
    rw [List.map_eq_nil_iff, List.filter_eq_nil_iff] at hempty
    exact hempty e he (decide_eq_true hfinished)
  next =>
    cases hrest
    refine .all hkept ?_
    have hperm := (order.certs_perm ((state.certificates.pairs.filter fun e =>
      haveSigs params.membership e.2 = .ok true).map Prod.snd)).map (mscCert order)
    rwa [List.map_map] at hperm

theorem Responded.kept (h : Responded order params.membership state state' out) {k : ℕ}
    {cert : Certificate} (hk : state'.certificates.lookup k = some cert) :
    state.certificates.lookup k = some cert := by
  cases h with
  | nothing => exact hk
  | all hrest => exact ((hrest k cert).mp hk).1

theorem Responded.nextReqID_eq (h : Responded order params.membership state state' out) :
    state'.nextReqID = state.nextReqID := by
  cases h <;> rfl

/-- An entry is written. -/
def CertCreationState.set (state : CertCreationState) (k : ℕ) (cert : Certificate) :
    CertCreationState :=
  { state with certificates := state.certificates.insert k cert }

/-- A signature is added to an entry. -/
def CertCreationState.sign (state : CertCreationState) (nodeID : NodeID) (context : VerifySigContext)
    (cert : Certificate) : CertCreationState :=
  state.set context.reqID { cert with sigs := cert.sigs.insert nodeID context.signature }

/-- **What handling an event can do.** -/
inductive CreationStep (order : VisitOrder) (params : ModuleParams) (s : CertCreationState) :
    CreationEvent → CertCreationState → List CreationOutput → Prop
  | ignore {event : CreationEvent} (hrequest : event.request? = none)
      (hspent : event = .computeCert → s.remainingSeqNr ≤ 0) : CreationStep order params s event s []
  /-- An entry is created. -/
  | create (hleft : ¬ s.remainingSeqNr ≤ 0) : CreationStep order params s .computeCert
      ({ s with nextReqID := s.nextReqID + 1 }.set s.nextReqID ⟨[], ∅, ∅⟩)
      [.requestBatch params.epochNr s.nextReqID]
  /-- An entry is removed, and empty certificates are returned. -/
  | emptyBatch {txIDs : List TxID} {k : ℕ} : CreationStep order params s (.newBatch txIDs [] k)
      ⟨s.nextReqID, [], s.certificates.erase k, s.remainingSeqNr - s.requestStates.length⟩
      (s.requestStates.map (.newCert (some [])))
  | askID {txIDs : List TxID} {txs : List Transaction} {k : ℕ} :
      CreationStep order params s (.newBatch txIDs txs k) s [.requestBatchID txIDs ⟨k, txs⟩]
  | askSigs {batchID : BatchID} {context : RequestIDOfOwnBatchContext} {cert : Certificate}
      (hcert : s.certificates.lookup context.reqID = some cert) :
      CreationStep order params s (.batchIDResponse batchID context)
        (s.set context.reqID { cert with batchID := batchID })
        [.requestSig context.txs context.reqID params.membership.nodes.keys]
  | verify {sender : NodeID} {signature : Bytes} {k : ℕ} {cert : Certificate}
      (hcert : s.certificates.lookup k = some cert)
      (hmember : sender ∈ params.membership.nodes.keys)
      (hnew : cert.receivedSig.lookup sender ≠ some true) :
      CreationStep order params s (.sigMessage sender signature k)
        (s.set k { cert with receivedSig := cert.receivedSig.insert sender true })
        [.verifySig (sigData params.instanceUID cert.batchID) signature sender ⟨k, signature⟩]
  /-- A request is added, and answered if there are finished entries. -/
  | request {origin : RequestCertOrigin} {s' : CertCreationState} {out : List CreationOutput}
      (hr : Responded order params.membership
        { s with requestStates := s.requestStates ++ [origin] } s' out) :
      CreationStep order params s (.requestCert origin) s'
        (out ++ if s'.certificates.keys.length = 0 then [.computeCert] else [])
  /-- A signature is added, and pending requests are answered if there are finished entries. -/
  | sign {nodeID : NodeID} {context : VerifySigContext} {cert : Certificate}
      {s' : CertCreationState} {out : List CreationOutput} {newDue : Bool}
      (hcert : s.certificates.lookup context.reqID = some cert)
      (hr : if s.requestStates ≠ []
        then Responded order params.membership (s.sign nodeID context cert) s' out
        else s' = s.sign nodeID context cert ∧ out = []) :
      CreationStep order params s (.sigVerified nodeID true context) s' (out ++
        if newDue ∧ s'.certificates.keys.length < params.limit then [.computeCert] else [])

theorem creationStep_of_handleCreation
    (h : handleCreation order params state event = .ok (state', out)) :
    CreationStep order params state event state' out := by
  cases event with
  | computeCert =>
    obtain ⟨rfl, rfl⟩ := Prod.ext_iff.mp (Except.ok.inj h)
    rw [uponComputeCert]
    split
    next hspent => exact .ignore rfl fun _ => hspent
    next hleft => exact .create hleft
  | requestCert origin =>
    obtain ⟨⟨state₁, out₁⟩, hrespond, hrest⟩ := bind_eq_ok.mp h
    cases hrest
    exact .request (responded_of_respondIfReady hrespond)
  | newBatch txIDs txs k =>
    obtain ⟨rfl, rfl⟩ := Prod.ext_iff.mp (Except.ok.inj h)
    rw [uponNewBatch]
    split
    next hempty =>
      obtain rfl := List.length_eq_zero_iff.mp hempty
      exact .emptyBatch
    next => exact .askID
  | batchIDResponse batchID context =>
    obtain ⟨rfl, rfl⟩ := Prod.ext_iff.mp (Except.ok.inj h)
    rw [uponBatchIDResponse]
    split
    next => exact .ignore rfl nofun
    next cert hcert => exact .askSigs hcert
  | sigMessage sender signature k =>
    obtain ⟨rfl, rfl⟩ := Prod.ext_iff.mp (Except.ok.inj h)
    rw [uponSigMessageReceived]
    split
    next => exact .ignore rfl nofun
    next cert hcert =>
    split
    next => exact .ignore rfl nofun
    next hmember =>
    split
    next => exact .ignore rfl nofun
    next hnew => exact .verify hcert (not_not.mp hmember) hnew
  | sigVerified nodeID ok context =>
    rw [handleCreation, uponSigVerified] at h
    split at h
    next =>
      cases h
      exact .ignore rfl nofun
    next hok =>
    obtain rfl : ok = true := by simpa using hok
    split at h
    next =>
      cases h
      exact .ignore rfl nofun
    next cert hcert =>
    obtain ⟨newDue, -, h⟩ := bind_eq_ok.mp h
    obtain ⟨⟨state₁, out₁⟩, hrespond, hrest⟩ := bind_eq_ok.mp h
    cases hrest
    refine .sign hcert ?_
    split at hrespond
    next hwaiting => exact (if_pos hwaiting).mpr (responded_of_respondIfReady hrespond)
    next hnone =>
      cases hrespond
      exact (if_neg hnone).mpr ⟨rfl, rfl⟩

end Steps

/-! ### What is returned -/

section Returned

variable {crypto : Crypto} {params : ModuleParams} {order : VisitOrder} {cert : Certificate}
  {certs : List MscCert} {state state' : CertCreationState} {out : List CreationOutput}

/-- The signatures of an entry are valid for its batch ID. -/
def Certificate.Sound (crypto : Crypto) (params : ModuleParams) (cert : Certificate) : Prop :=
  ∀ id signature, cert.sigs.lookup id = some signature →
    crypto.verify (sigData params.instanceUID cert.batchID).flatten signature id = true

/-- A finished entry with valid signatures makes a well-signed sub-certificate. -/
theorem wellSigned_mscCert (h : haveSigs params.membership cert = .ok true) :
    WellSigned params.membership (mscCert order cert) := by
  have hweighs := Membership.haveWeakQuorum_completes_iff.mp ⟨_, h⟩
  have hperm : (mscCert order cert).signers.Perm cert.sigs.keys := by
    rw [← GoMap.map_fst_pairs]
    exact (order.sigs_perm _).map Prod.fst
  have hweak := (Membership.haveWeakQuorum_iff hweighs.1 hweighs.2 cert.sigs.keys_nodup).mp h
  refine ⟨hperm.nodup_iff.mpr cert.sigs.keys_nodup, fun id hid => ?_, ?_, ?_⟩
  · exact hweighs.2 id (hperm.mem_iff.mp hid)
  · rwa [List.toFinset_eq_of_perm _ _ hperm]
  · simp [mscCert]

theorem Certificate.Sound.sigsValid (h : cert.Sound crypto params) :
    sigsValid crypto params (mscCert order cert) = true := by
  rw [Availability.sigsValid, List.all_eq_true]
  simp only [mscCert, List.zip_map', List.map_id']
  rintro ⟨id, signature⟩ hmem
  exact h id signature (GoMap.mem_pairs.mp ((order.sigs_perm _).mem_iff.mp hmem))

/-- **A list of finished entries with valid signatures is accepted.** -/
theorem accepted_of_sound (order : VisitOrder)
    (h : ∀ c ∈ certs, ∃ cert : Certificate, c = mscCert order cert ∧
      haveSigs params.membership cert = .ok true ∧ cert.Sound crypto params) :
    Accepted crypto params (some certs) := by
  intro params' hmembership huid
  have hstructure : verifyCertificateStructure params.membership (some certs) = .ok (.ok certs) := by
    rcases certs.eq_nil_or_concat with rfl | ⟨rest, c, rfl⟩
    · rfl
    · obtain ⟨cert, -, hsigs, -⟩ := h c (by simp)
      have hm := (Membership.haveWeakQuorum_completes_iff.mp ⟨_, hsigs⟩).1
      refine (verifyCertificateStructure_eq_ok_iff hm).mpr ⟨rfl, fun c hc => ?_⟩
      obtain ⟨cert, rfl, hsigs, -⟩ := h c hc
      exact wellSigned_mscCert hsigs
  have hgenuine : Genuine crypto params' (some certs) := by
    refine ⟨certs, hmembership ▸ hstructure, fun c hc => ?_⟩
    obtain ⟨cert, rfl, -, hsound⟩ := h c hc
    rw [Availability.sigsValid, huid]
    exact hsound.sigsValid
  exact ⟨hgenuine.verifies, hgenuine⟩

/-- The event starts no verification, and returns only accepted certificates. -/
def Harmless (crypto : Crypto) (params : ModuleParams) : CreationOutput → Prop
  | .verifySig .. => False
  | .newCert cert _ => Accepted crypto params cert
  | _ => True

theorem Responded.harmless (h : Responded order params.membership state state' out)
    (hsound : ∀ k cert, state.certificates.lookup k = some cert → cert.Sound crypto params)
    (P : Prop) [Decidable P] :
    ∀ o ∈ out ++ if P then [.computeCert] else [], Harmless crypto params o := by
  refine List.forall_mem_append.mpr ⟨?_, by split <;> simp [Harmless]⟩
  cases h with
  | nothing => exact List.forall_mem_nil _
  | all _ hcerts =>
    refine List.forall_mem_map.mpr fun origin _ => accepted_of_sound order fun c hc => ?_
    obtain ⟨e, he, rfl⟩ := List.mem_map.mp (hcerts.mem_iff.mp hc)
    obtain ⟨hpair, hsigs⟩ := List.mem_filter.mp he
    exact ⟨e.2, rfl, of_decide_eq_true hsigs, hsound e.1 e.2 (GoMap.mem_pairs.mp hpair)⟩

theorem Responded.noCalls (h : Responded order params.membership state state' out) (P : Prop)
    [Decidable P] :
    let out := out ++ if P then [.computeCert] else []
    out.filterMap CreationOutput.batchAsked? = [] ∧ out.filterMap CreationOutput.idAsked? = [] := by
  cases h <;> split <;> simp [CreationOutput.batchAsked?, CreationOutput.idAsked?]

end Returned

/-! ### The calls to the mempool -/

/-- A step asks for at most one batch, under the next number, and for the ID of the batch that it
receives. -/
theorem CreationStep.calls {order : VisitOrder} {params : ModuleParams} {event : CreationEvent}
    {state state' : CertCreationState} {out : List CreationOutput}
    (h : CreationStep order params state event state' out) : state.nextReqID ≤ state'.nextReqID ∧
    (out.filterMap CreationOutput.batchAsked? = [] ∨ state.nextReqID < state'.nextReqID ∧
      out.filterMap CreationOutput.batchAsked? = [state.nextReqID]) ∧
    ((out.filterMap CreationOutput.idAsked?).map RequestIDOfOwnBatchContext.reqID).Sublist
      event.batch?.toList := by
  cases h with
  | ignore | askSigs | verify => exact ⟨le_rfl, .inl rfl, List.nil_sublist _⟩
  | create => exact ⟨Nat.le_succ _, .inr ⟨Nat.lt_succ_self _, rfl⟩, List.nil_sublist _⟩
  | emptyBatch =>
    refine ⟨le_rfl, .inl (by simp [CreationOutput.batchAsked?]), ?_⟩
    simp [Function.comp_def, CreationOutput.idAsked?]
  | askID => exact ⟨le_rfl, .inl rfl, List.Sublist.refl _⟩
  | request hr =>
    obtain ⟨hbatches, hids⟩ := hr.noCalls (state'.certificates.keys.length = 0)
    rw [hids]
    exact ⟨hr.nextReqID_eq.ge, .inl hbatches, List.nil_sublist _⟩
  | @sign _ _ _ _ _ newDue _ hr =>
    split at hr
    next =>
      obtain ⟨hbatches, hids⟩ :=
        hr.noCalls (newDue = true ∧ state'.certificates.keys.length < params.limit)
      rw [hids]
      exact ⟨hr.nextReqID_eq.ge, .inl hbatches, List.nil_sublist _⟩
    next =>
      obtain ⟨rfl, rfl⟩ := hr
      split <;> exact ⟨le_rfl, .inl rfl, List.nil_sublist _⟩

namespace CreationRun

section Calls

variable {crypto : Crypto} {params : ModuleParams} {r : CreationRun} {order : VisitOrder}
  {event : CreationEvent} {state : CertCreationState} {out : List CreationOutput}

/-- One batch is asked for under each number, and at most one batch ID for it. -/
structure CallsInv (r : CreationRun) : Prop where
  once : r.batchesAsked.Nodup
  below : ∀ k ∈ r.batchesAsked, k < r.state.nextReqID
  provided : r.batches.Subperm r.batchesAsked
  named : (r.idsAsked.map RequestIDOfOwnBatchContext.reqID).Subperm r.batches
  answered : r.ids.Subperm r.idsAsked

theorem batches_after : (r.after event state out).batches = r.batches ++ event.batch?.toList := by
  refine List.filterMap_append.trans (congrArg (r.batches ++ ·) ?_)
  cases h : event.batch? <;> simp [h]

theorem ids_after : (r.after event state out).ids = r.ids ++ event.id?.toList := by
  refine List.filterMap_append.trans (congrArg (r.ids ++ ·) ?_)
  cases h : event.id? <;> simp [h]

theorem CallsInv.after (h : CallsInv r) (henabled : r.Enabled crypto event)
    (hstep : CreationStep order params r.state event state out) :
    CallsInv (r.after event state out) := by
  obtain ⟨hnext, hasked, hids⟩ := hstep.calls
  have hbatchesAsked : (r.after event state out).batchesAsked =
      r.batchesAsked ++ out.filterMap CreationOutput.batchAsked? := List.filterMap_append
  have hidsAsked : (r.after event state out).idsAsked =
      r.idsAsked ++ out.filterMap CreationOutput.idAsked? := List.filterMap_append
  have hbelow : ∀ k ∈ r.batchesAsked, k < state.nextReqID := fun k hk =>
    (h.below k hk).trans_le hnext
  constructor
  · rw [hbatchesAsked]
    rcases hasked with hnone | ⟨-, hone⟩
    · rw [hnone, List.append_nil]
      exact h.once
    · rw [hone]
      exact h.once.append (List.nodup_singleton _)
        (List.disjoint_singleton.mpr fun hmem => Nat.lt_irrefl _ (h.below _ hmem))
  · rw [hbatchesAsked]
    refine List.forall_mem_append.mpr ⟨hbelow, ?_⟩
    rcases hasked with hnone | ⟨hlt, hone⟩
    · rw [hnone]
      exact List.forall_mem_nil _
    · rw [hone]
      exact List.forall_mem_singleton.mpr hlt
  · rw [batches_after, hbatchesAsked]
    refine List.Subperm.trans ?_ (List.sublist_append_left _ _).subperm
    cases event with
    | newBatch => exact Outstanding.subperm henabled h.provided
    | _ => simpa [CreationEvent.batch?] using h.provided
  · rw [hidsAsked, batches_after, List.map_append]
    exact h.named.append hids.subperm
  · rw [ids_after, hidsAsked]
    refine List.Subperm.trans ?_ (List.sublist_append_left _ _).subperm
    cases event with
    | batchIDResponse => exact Outstanding.subperm henabled h.answered
    | _ => simpa [CreationEvent.id?] using h.answered

/-- **A batch ID is provided once** for each request. -/
theorem CallsInv.first (h : CallsInv r) {context : RequestIDOfOwnBatchContext}
    (hcontext : Outstanding r.idsAsked r.ids context) :
    context.reqID ∉ r.ids.map RequestIDOfOwnBatchContext.reqID := by
  obtain ⟨l, hl, hlsub⟩ := h.named.trans h.provided
  obtain ⟨l', hl', hlsub'⟩ := hcontext.subperm h.answered
  have hnodup := (hl.nodup_iff.mp (h.once.sublist hlsub)).sublist (hlsub'.map _)
  rw [(hl'.map _).nodup_iff, List.map_append, List.nodup_append'] at hnodup
  exact fun hmem => hnodup.2.2 hmem (List.mem_singleton_self _)

end Calls

/-! ### All entries of a run -/

/-- The signatures of an entry are valid for its batch ID, which is known before the first of them is
verified. -/
structure EntryInv (crypto : Crypto) (params : ModuleParams) (r : CreationRun) (k : ℕ)
    (cert : Certificate) : Prop where
  below : k < r.state.nextReqID
  known : cert.batchID ≠ [] → k ∈ r.ids.map RequestIDOfOwnBatchContext.reqID
  signed : ∀ id signature, cert.sigs.lookup id = some signature → cert.batchID ≠ []
  sound : cert.Sound crypto params
  verifying : ∀ data signature id context, .verifySig data signature id context ∈ r.out →
    context.reqID = k → crypto.verify data.flatten signature id = true →
    cert.batchID ≠ [] ∧ data = sigData params.instanceUID cert.batchID

/-- The invariant of the runs in which no signature is premature. -/
structure Inv (crypto : Crypto) (params : ModuleParams) (r : CreationRun) : Prop where
  calls : CallsInv r
  entries : ∀ k cert, r.state.certificates.lookup k = some cert → EntryInv crypto params r k cert
  verifications : ∀ data signature id context, .verifySig data signature id context ∈ r.out →
    context.reqID < r.state.nextReqID
  accepted : ∀ cert origin, .newCert cert origin ∈ r.out → Accepted crypto params cert

section Inv

variable {crypto : Crypto} {params : ModuleParams} {r : CreationRun} {k : ℕ} {cert : Certificate}
  {order : VisitOrder} {event : CreationEvent} {state : CertCreationState}
  {out : List CreationOutput}

theorem inv_init : Inv crypto params (.init params) where
  calls := ⟨List.nodup_nil, nofun, .refl _, .refl _, .refl _⟩
  entries := nofun
  verifications := nofun
  accepted := nofun

theorem verifySig_mem_of_harmless {data : List Bytes} {signature : Bytes} {id : NodeID}
    {context : VerifySigContext} (hout : ∀ o ∈ out, Harmless crypto params o)
    (hmem : .verifySig data signature id context ∈ r.out ++ out) :
    .verifySig data signature id context ∈ r.out := by
  rcases List.mem_append.mp hmem with hmem | hmem
  · exact hmem
  · exact (hout _ hmem).elim

/-- **Entries may be removed**, and accepted certificates returned. -/
theorem Inv.shrink (h : Inv crypto params r) (hcalls : CallsInv (r.after event state out))
    (hnext : r.state.nextReqID ≤ state.nextReqID)
    (hkept : ∀ k cert, state.certificates.lookup k = some cert →
      r.state.certificates.lookup k = some cert)
    (hout : ∀ o ∈ out, Harmless crypto params o) : Inv crypto params (r.after event state out) where
  calls := hcalls
  entries k cert hk := by
    have hold := h.entries k cert (hkept k cert hk)
    refine ⟨hold.below.trans_le hnext, fun hne => ?_, hold.signed, hold.sound,
      fun data signature id context hmem =>
        hold.verifying data signature id context (verifySig_mem_of_harmless hout hmem)⟩
    rw [ids_after, List.map_append]
    exact List.mem_append_left _ (hold.known hne)
  verifications data signature id context hmem :=
    (h.verifications data signature id context (verifySig_mem_of_harmless hout hmem)).trans_le hnext
  accepted cert origin hmem := by
    rcases List.mem_append.mp hmem with hmem | hmem
    · exact h.accepted cert origin hmem
    · exact hout _ hmem

/-- An entry may be replaced by one whose signatures are valid for its batch ID. -/
theorem Inv.update (h : Inv crypto params r) (hentry : EntryInv crypto params r k cert) :
    Inv crypto params ⟨r.state.set k cert, r.events, r.out⟩ where
  calls := { h.calls with }
  entries := GoMap.forall_lookup_insert (fun k' cert' hk' => { h.entries k' cert' hk' with })
    { hentry with }
  verifications := h.verifications
  accepted := h.accepted

/-- A signature is given for verification, for the batch ID of an entry. -/
theorem Inv.verify (h : Inv crypto params r) (hcert : r.state.certificates.lookup k = some cert)
    {sender : NodeID} {signature : Bytes} {call : CreationOutput}
    (hcall : call = .verifySig (sigData params.instanceUID cert.batchID) signature sender ⟨k, signature⟩)
    (hcalls : CallsInv (r.after event r.state [call]))
    (hvalid : crypto.verify (sigData params.instanceUID cert.batchID).flatten signature sender = true →
      cert.batchID ≠ []) : Inv crypto params (r.after event r.state [call]) where
  calls := hcalls
  entries k' cert' hk' := by
    have hold := h.entries k' cert' hk'
    refine ⟨hold.below, fun hne => ?_, hold.signed, hold.sound,
      fun data signature' id context hmem hkey hok => ?_⟩
    · rw [ids_after, List.map_append]
      exact List.mem_append_left _ (hold.known hne)
    · rcases List.mem_append.mp hmem with hmem | hmem
      · exact hold.verifying data signature' id context hmem hkey hok
      · cases (List.mem_singleton.mp hmem).trans hcall
        subst hkey
        cases hcert.symm.trans hk'
        exact ⟨hvalid hok, rfl⟩
  verifications data signature' id context hmem := by
    rcases List.mem_append.mp hmem with hmem | hmem
    · exact h.verifications data signature' id context hmem
    · cases (List.mem_singleton.mp hmem).trans hcall
      exact (h.entries k cert hcert).below
  accepted cert' origin hmem := h.accepted cert' origin (by simpa [after, hcall] using hmem)

/-- A verified signature is valid for the batch ID of its entry. -/
theorem Inv.store (h : Inv crypto params r) {nodeID : NodeID} {context : VerifySigContext}
    (hcert : r.state.certificates.lookup context.reqID = some cert)
    (henabled : r.Enabled crypto (.sigVerified nodeID true context)) :
    Inv crypto params ⟨r.state.sign nodeID context cert, r.events, r.out⟩ := by
  have hold := h.entries _ _ hcert
  obtain ⟨call, hcall, hanswer⟩ := henabled
  rcases call with _ | _ | _ | _ | ⟨data, signature, id, ctx⟩ | _
  all_goals try exact hanswer.elim
  obtain ⟨rfl, rfl, rfl, hvalid⟩ := hanswer
  obtain ⟨hne, rfl⟩ := hold.verifying _ _ _ _ hcall rfl hvalid.symm
  exact h.update { hold with
    signed := fun _ _ _ => hne
    sound := GoMap.forall_lookup_insert hold.sound hvalid.symm }

/-- **A step keeps the invariant**, unless it verifies a premature signature. -/
theorem Inv.step (h : Inv crypto params r) (henabled : r.Enabled crypto event)
    (hcond : NotPremature crypto params r.state event)
    (hstep : CreationStep order params r.state event state out) :
    Inv crypto params (r.after event state out) := by
  have hcalls := h.calls.after henabled hstep
  cases hstep with
  | ignore => exact h.shrink hcalls le_rfl (fun _ _ => id) nofun
  | create =>
    have hafter : Inv crypto params (r.after .computeCert
        { r.state with nextReqID := r.state.nextReqID + 1 }
        [.requestBatch params.epochNr r.state.nextReqID]) :=
      h.shrink { hcalls with } (Nat.le_succ _) (fun _ _ => id) (by simp [Harmless])
    refine hafter.update ⟨Nat.lt_succ_self _, absurd rfl, nofun, nofun,
      fun data signature id context hmem hkey => ?_⟩
    have hlt := h.verifications data signature id context (by simpa [after] using hmem)
    omega
  | emptyBatch =>
    exact h.shrink hcalls le_rfl (fun _ _ => GoMap.lookup_erase_eq_some)
      (List.forall_mem_map.mpr fun _ _ => accepted_of_sound .listed nofun)
  | askID => exact h.shrink hcalls le_rfl (fun _ _ => id) (by simp [Harmless])
  | @askSigs batchID context cert hcert =>
    have hold := h.entries _ _ hcert
    -- no signature was verified before
    have hempty : ¬ cert.batchID ≠ [] := fun hne => h.calls.first henabled (hold.known hne)
    have hafter : Inv crypto params (r.after (.batchIDResponse batchID context) r.state
        [.requestSig context.txs context.reqID params.membership.nodes.keys]) :=
      h.shrink { hcalls with } le_rfl (fun _ _ => id) (by simp [Harmless])
    refine hafter.update ⟨hold.below, fun _ => ?_, fun id signature hsig => ?_,
      fun id signature hsig => ?_, fun data signature id ctx hmem hkey hvalid => ?_⟩
    · rw [ids_after]
      simp [CreationEvent.id?]
    · exact absurd (hold.signed id signature hsig) hempty
    · exact absurd (hold.signed id signature hsig) hempty
    · have hmem' : .verifySig data signature id ctx ∈ r.out := by simpa [after] using hmem
      exact absurd (hold.verifying data signature id ctx hmem' hkey hvalid).1 hempty
  | @verify sender signature k cert hcert hmember hnew =>
    have hafter := h.verify hcert rfl { hcalls with } fun hvalid hempty => by
      rw [hempty, hcond cert hcert hempty hmember hnew] at hvalid
      cases hvalid
    exact hafter.update { hafter.entries k cert hcert with }
  | request hr =>
    exact h.shrink hcalls hr.nextReqID_eq.ge (fun _ _ => hr.kept)
      (hr.harmless (fun k cert hk => (h.entries k cert hk).sound) _)
  | sign hcert hr =>
    have hstored := h.store hcert henabled
    split at hr
    next =>
      exact hstored.shrink hcalls hr.nextReqID_eq.ge (fun _ _ => hr.kept)
        (hr.harmless (fun k cert hk => (hstored.entries k cert hk).sound) _)
    next =>
      obtain ⟨rfl, rfl⟩ := hr
      exact hstored.shrink hcalls le_rfl (fun _ _ => id) (by split <;> simp [Harmless])

/-- **The invariant holds in every run without premature signatures.** -/
theorem Reachable.inv (h : Reachable crypto params (NotPremature crypto params) r) :
    Inv crypto params r := by
  induction h with
  | init => exact inv_init
  | step _ henabled hcond hhandle ih =>
    exact ih.step henabled hcond (creationStep_of_handleCreation hhandle)

end Inv

end CreationRun

/-! ### Main result -/

/-- **Certificates created by a node are accepted**, in every run in which no member signs the empty
batch ID for an entry that has no batch ID yet. -/
theorem newCert_accepted (crypto : Crypto) (params : ModuleParams) (r : CreationRun)
    (hr : r.Reachable crypto params (NotPremature crypto params)) (cert : Cert)
    (origin : RequestCertOrigin) (hcert : .newCert cert origin ∈ r.out) :
    Accepted crypto params cert :=
  hr.inv.accepted cert origin hcert

/-- A scheme in which the data is its own signature. -/
def plainCrypto : Crypto := ⟨id, fun data signature _ => signature = data⟩

/-- A signature of `plainCrypto` for a batch ID. -/
def plainSig (batchID : BatchID) : Bytes := (sigData fourParams.instanceUID batchID).flatten

/-- A batch with ID `[7]` is signed by `a` and `b`. -/
def twoSignatures : List CreationEvent :=
  [.requestCert ⟨[], 0⟩, .computeCert, .newBatch [[5]] [⟨[99], 0, 0, []⟩] 0,
    .batchIDResponse [7] ⟨0, [⟨[99], 0, 0, []⟩]⟩,
    .sigMessage [97] (plainSig [7]) 0, .sigVerified [97] true ⟨0, plainSig [7]⟩,
    .sigMessage [98] (plainSig [7]) 0, .sigVerified [98] true ⟨0, plainSig [7]⟩]

theorem newCert_accepted_two_signatures : ∃ r, CreationRun.Reachable plainCrypto fourParams
    (NotPremature plainCrypto fourParams) r ∧ Accepted plainCrypto fourParams
      (some [⟨[7], [[98], [97]], [plainSig [7], plainSig [7]]⟩]) := by
  obtain ⟨r, hr, hmem⟩ := CreationRun.exists_reachable (by decide +kernel :
    (twoSignatures.foldlM (CreationRun.next? plainCrypto fourParams
      (NotPremature plainCrypto fourParams)) (.init fourParams)).any (fun r => .newCert
        (some [⟨[7], [[98], [97]], [plainSig [7], plainSig [7]]⟩]) ⟨[], 0⟩ ∈ r.out) = true)
  exact ⟨r, hr, newCert_accepted plainCrypto fourParams r hr _ ⟨[], 0⟩ hmem⟩

/-- Member `d` signs the empty batch ID before the mempool has provided the batch. -/
def prematureSignature : List CreationEvent :=
  [.requestCert ⟨[], 0⟩, .computeCert,
    .sigMessage [100] (plainSig []) 0, .sigVerified [100] true ⟨0, plainSig []⟩,
    .newBatch [[5]] [⟨[99], 0, 0, []⟩] 0, .batchIDResponse [7] ⟨0, [⟨[99], 0, 0, []⟩]⟩,
    .sigMessage [97] (plainSig [7]) 0, .sigVerified [97] true ⟨0, plainSig [7]⟩]

/-- **A premature signature ends up in a certificate**, for a batch ID it is not valid for. -/
theorem premature_signature : ¬ ∀ (crypto : Crypto) (params : ModuleParams) (r : CreationRun),
    params.membership.Proper → r.Reachable crypto params (fun _ _ => True) →
    ∀ cert origin, .newCert cert origin ∈ r.out → Accepted crypto params cert := by
  intro h
  obtain ⟨r, hr, hmem⟩ := CreationRun.exists_reachable (by decide +kernel :
    (prematureSignature.foldlM (CreationRun.next? plainCrypto fourParams fun _ _ => True)
      (.init fourParams)).any (fun r => .newCert
        (some [⟨[7], [[97], [100]], [plainSig [7], plainSig []]⟩]) ⟨[], 0⟩ ∈ r.out) = true)
  have haccepted := h plainCrypto fourParams r Membership.fourMembers_proper hr _ _ hmem
  obtain ⟨certs, hcerts, hvalid⟩ := (haccepted fourParams rfl rfl).2
  obtain ⟨hsome, -⟩ := (verifyCertificateStructure_eq_ok_iff
    Membership.fourMembers_proper.readable).mp hcerts
  obtain rfl := Option.some.inj hsome
  exact absurd (hvalid _ List.mem_cons_self) (by decide +kernel)

end Mir.Availability
