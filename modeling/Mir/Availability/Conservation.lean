import Mir.Availability.CertCreation

/-!
# Requests and certificates are conserved

The requests for certificates, the certificates in progress and the ComputeCert events the module
sends to itself are accounted for over whole runs (`Service`), round by round: a **round** is the
handling of one event.

* Every request is answered once, or pending: `answered ++ pending = requested`.
* A finished entry is removed only in a round that hands it to a pending request, and in one round
  only. This fails for an empty batch that arrives for an entry which members have finished early,
  with signatures of the empty batch ID (`not_conserved_empty_batch`).
* While a request is pending, an entry is in progress or a ComputeCert event that creates one is on
  its way.

`conserved_of_reachable` says that all of this holds in every run in which no empty batch arrives for
a finished entry.
-/

namespace Mir.Availability

open Iss Checkpoint Fallible Calls FallibleLoop

/-! ### Rounds -/

/-- The handling of one event. -/
structure Round where
  before : CertCreationState
  event : CreationEvent
  order : VisitOrder
  after : CertCreationState
  out : List CreationOutput

/-- The request an event answers. -/
def CreationOutput.answer? : CreationOutput → Option RequestCertOrigin
  | .newCert _ origin => some origin
  | _ => none

namespace Round

/-- The requests that wait for an answer in this round. -/
def pending (t : Round) : List RequestCertOrigin :=
  t.before.requestStates ++ t.event.request?.toList

/-- The entries, together with the signature that the event provides. -/
def collected (t : Round) : GoMap ℕ Certificate :=
  match t.event with
  | .sigVerified nodeID true context =>
    match t.before.certificates.lookup context.reqID with
    | some cert => t.before.certificates.insert context.reqID
        { cert with sigs := cert.sigs.insert nodeID context.signature }
    | none => t.before.certificates
  | _ => t.before.certificates

/-- The finished entries that are removed in this round. -/
def removed (membership : Membership) (t : Round) : List (ℕ × Certificate) :=
  t.collected.pairs.filter fun e =>
    haveSigs membership e.2 = .ok true ∧ e.1 ∉ t.after.certificates.keys

/-- The events that the round emits are those of the handler. -/
def Handles (params : ModuleParams) (t : Round) : Prop :=
  handleCreation t.order params t.before t.event = .ok (t.after, t.out)

end Round

/-- A run of the module with its rounds, and the number of ComputeCert events that it has sent to
itself and not handled yet. -/
structure Service where
  run : CreationRun
  rounds : List Round
  own : ℕ

namespace Service

/-- The run before the first event. -/
def init (params : ModuleParams) : Service := ⟨.init params, [], 0⟩

/-- One more round; `own` says that the event is one the module has sent to itself. -/
def next (s : Service) (t : Round) (own : Bool) : Service :=
  ⟨s.run.after t.event t.after t.out, s.rounds ++ [t],
    s.own - (if own then 1 else 0) + t.out.count .computeCert⟩

/-- The requests that were made. -/
def requested (s : Service) : List RequestCertOrigin :=
  s.run.events.filterMap CreationEvent.request?

/-- The requests that were answered, once for each answer. -/
def answered (s : Service) : List RequestCertOrigin := s.run.out.filterMap CreationOutput.answer?

/-- The runs whose events all satisfy a condition in the state they arrive in. The module's own
ComputeCert events arrive once; others may arrive at any time. -/
inductive Reachable (crypto : Crypto) (params : ModuleParams)
    (P : CertCreationState → CreationEvent → Prop) : Service → Prop
  | init : Reachable crypto params P (.init params)
  | step {s : Service} {t : Round} {own : Bool} (h : Reachable crypto params P s)
      (hbefore : t.before = s.run.state) (henabled : s.run.Enabled crypto t.event)
      (hcond : P t.before t.event) (hown : own = true → t.event = .computeCert ∧ 0 < s.own)
      (hhandle : t.Handles params) : Reachable crypto params P (s.next t own)

/-- One more event, if it may arrive and meets the condition. -/
def next? (crypto : Crypto) (params : ModuleParams) (P : CertCreationState → CreationEvent → Prop)
    [∀ state event, Decidable (P state event)] (s : Service) (e : CreationEvent × Bool) :
    Option Service :=
  attempt (s.run.Enabled crypto e.1 ∧ P s.run.state e.1 ∧
      (e.2 = true → e.1 = .computeCert ∧ 0 < s.own))
    (handleCreation .listed params s.run.state e.1)
    fun result => s.next ⟨s.run.state, e.1, .listed, result.1, result.2⟩ e.2

theorem exists_reachable {crypto : Crypto} {params : ModuleParams}
    {P : CertCreationState → CreationEvent → Prop} [∀ state event, Decidable (P state event)]
    {events : List (CreationEvent × Bool)} {Q : Service → Prop} [DecidablePred Q]
    (h : (events.foldlM (next? crypto params P) (.init params)).any (fun s => Q s) = true) :
    ∃ s, Reachable crypto params P s ∧ Q s := by
  refine exists_of_steps h .init fun _ hs hnext => ?_
  obtain ⟨hevent, result, hhandle, rfl⟩ := attempt_eq_some.mp hnext
  exact .step hs rfl hevent.1 hevent.2.1 hevent.2.2 hhandle

end Service

/-- **Requests and certificates are conserved.** -/
structure Conserved (params : ModuleParams) (s : Service) : Prop where
  /-- Every request is answered once, or pending. -/
  answered : s.answered ++ s.run.state.requestStates = s.requested
  /-- A finished entry that is removed is handed to a pending request. -/
  handed : ∀ t ∈ s.rounds, ∀ e ∈ t.removed params.membership, ∃ origin ∈ t.pending, ∃ certs,
    .newCert (some certs) origin ∈ t.out ∧ mscCert t.order e.2 ∈ certs
  /-- The answers of a round contain the entries that are removed in it, and no others. -/
  contents : ∀ t ∈ s.rounds, ∀ cert origin, .newCert cert origin ∈ t.out → ∃ certs,
    cert = some certs ∧
      certs.Perm ((t.removed params.membership).map fun e => mscCert t.order e.2)
  /-- No entry is removed in two rounds. -/
  once : (s.rounds.flatMap fun t => (t.removed params.membership).map Prod.fst).Nodup
  /-- While a request is pending, an entry is in progress, or will be created by an event that the
  module has sent to itself. -/
  progress : s.run.state.requestStates ≠ [] → s.run.state.certificates.keys ≠ [] ∨
    (0 < s.own ∧ (uponComputeCert params s.run.state).1.certificates.keys ≠ [])

/-- An empty batch does not arrive for an entry that is finished already. -/
def NotFinishedEmpty (params : ModuleParams) (state : CertCreationState) : CreationEvent → Prop
  | .newBatch _ txs reqID => txs = [] → ∀ cert ∈ state.certificates.lookup reqID,
    haveSigs params.membership cert ≠ .ok true
  | .computeCert | .requestCert _ | .batchIDResponse .. | .sigMessage .. | .sigVerified .. => True

instance (params : ModuleParams) (state : CertCreationState) :
    ∀ event, Decidable (NotFinishedEmpty params state event)
  | .newBatch .. => inferInstanceAs (Decidable (_ → ∀ cert ∈ _, _))
  | .computeCert | .requestCert _ | .batchIDResponse .. | .sigMessage .. | .sigVerified .. =>
    .isTrue trivial

/-! ### One round -/

section Rounds

variable {params : ModuleParams} {t : Round} {order : VisitOrder} {event : CreationEvent}
  {s s' : CertCreationState} {out : List CreationOutput}

/-- What one round does to requests and entries. -/
structure Accounts (params : ModuleParams) (t : Round) : Prop where
  answered : t.out.filterMap CreationOutput.answer? ++ t.after.requestStates = t.pending
  remaining : t.after.remainingSeqNr =
    t.before.remainingSeqNr - (t.out.filterMap CreationOutput.answer?).length
  next : t.before.nextReqID ≤ t.after.nextReqID
  keys : ∀ k ∈ t.after.certificates.keys, k ∈ t.before.certificates.keys ∨
    (t.before.nextReqID ≤ k ∧ k < t.after.nextReqID)
  handed : ∀ e ∈ t.removed params.membership, ∃ origin ∈ t.pending, ∃ certs,
    .newCert (some certs) origin ∈ t.out ∧ mscCert t.order e.2 ∈ certs
  contents : ∀ cert origin, .newCert cert origin ∈ t.out → ∃ certs, cert = some certs ∧
    certs.Perm ((t.removed params.membership).map fun e => mscCert t.order e.2)
  /-- An entry is in progress, or an event is sent, or neither was the case before and the round
  does not change it. -/
  progress : t.after.requestStates ≠ [] → t.after.certificates.keys ≠ [] ∨ .computeCert ∈ t.out ∨
    (t.before.requestStates ≠ [] ∧ t.before.certificates.keys = [] ∧
      (t.event = .computeCert → t.before.remainingSeqNr ≤ 0))

theorem Round.mem_keys_collected {k : ℕ} :
    k ∈ t.collected.keys ↔ k ∈ t.before.certificates.keys := by
  unfold Round.collected
  split
  next nodeID context =>
    split
    next cert hcert => exact GoMap.mem_keys_insert_of_lookup hcert k
    next => exact Iff.rfl
  next => exact Iff.rfl

theorem Round.mem_removed {membership : Membership} {e : ℕ × Certificate} :
    e ∈ t.removed membership ↔ t.collected.lookup e.1 = some e.2 ∧
      haveSigs membership e.2 = .ok true ∧ e.1 ∉ t.after.certificates.keys := by
  rw [Round.removed, List.mem_filter, decide_eq_true_eq]
  exact and_congr_left' GoMap.mem_pairs

/-- The keys of the removed entries are distinct, and were keys before. -/
theorem Round.nodup_removed (membership : Membership) (t : Round) :
    ((t.removed membership).map Prod.fst).Nodup := by
  have hkeys : (t.collected.pairs.map Prod.fst).Nodup := by
    rw [GoMap.map_fst_pairs]
    exact t.collected.keys_nodup
  exact hkeys.sublist (List.filter_sublist.map _)

theorem Round.mem_keys_of_removed {membership : Membership} {k : ℕ}
    (hk : k ∈ (t.removed membership).map Prod.fst) :
    k ∈ t.before.certificates.keys ∧ k ∉ t.after.certificates.keys := by
  obtain ⟨e, he, rfl⟩ := List.mem_map.mp hk
  obtain ⟨hlookup, -, hgone⟩ := mem_removed.mp he
  exact ⟨mem_keys_collected.mp (GoMap.mem_keys_iff.mpr ⟨_, hlookup⟩), hgone⟩

/-- A round in which no request is made or answered, and no entry removed. -/
theorem Accounts.quiet (hrequest : event.request? = none) (hout : ∀ o ∈ out, o.answer? = none)
    (hstates : s'.requestStates = s.requestStates)
    (hremaining : s'.remainingSeqNr = s.remainingSeqNr) (hnext : s.nextReqID ≤ s'.nextReqID)
    (hkept : ∀ k ∈ s.certificates.keys, k ∈ s'.certificates.keys)
    (hkeys : ∀ k ∈ s'.certificates.keys, k ∈ s.certificates.keys ∨
      (s.nextReqID ≤ k ∧ k < s'.nextReqID))
    (hcompute : event = .computeCert → s'.certificates.keys = [] → s.remainingSeqNr ≤ 0) :
    Accounts params ⟨s, event, order, s', out⟩ := by
  have hnone : out.filterMap CreationOutput.answer? = [] := List.filterMap_eq_nil_iff.mpr hout
  refine ⟨?_, ?_, hnext, hkeys, fun e he => ?_, fun cert origin hcert => ?_, fun hne => ?_⟩
  · simp only [Round.pending, hnone, hrequest, hstates, Option.toList_none, List.append_nil,
      List.nil_append]
  · simp only [hnone, hremaining, List.length_nil, Nat.cast_zero, sub_zero]
  · obtain ⟨hbefore, hgone⟩ := Round.mem_keys_of_removed (List.mem_map_of_mem he)
    exact absurd (hkept _ hbefore) hgone
  · cases hout _ hcert
  · by_cases hempty : s'.certificates.keys = []
    · refine .inr (.inr ⟨hstates ▸ hne, ?_, fun hevent => hcompute hevent hempty⟩)
      exact List.eq_nil_iff_forall_not_mem.mpr fun k hk =>
        List.eq_nil_iff_forall_not_mem.mp hempty k (hkept k hk)
    · exact .inl hempty

/-- A round that leaves the state as it is. -/
theorem Accounts.unchanged (hrequest : event.request? = none) (hout : ∀ o ∈ out, o.answer? = none)
    (hspent : event = .computeCert → s.remainingSeqNr ≤ 0) :
    Accounts params ⟨s, event, order, s, out⟩ :=
  .quiet hrequest hout rfl rfl le_rfl (fun _ => id) (fun _ => .inl) fun hevent _ => hspent hevent

/-- A round that changes an entry. -/
theorem Accounts.updated {k : ℕ} {cert cert' : Certificate} (hrequest : event.request? = none)
    (hout : ∀ o ∈ out, o.answer? = none) (hcert : s.certificates.lookup k = some cert) :
    Accounts params ⟨s, event, order, s.set k cert', out⟩ := by
  have hkeys : ∀ k', k' ∈ (s.set k cert').certificates.keys ↔ k' ∈ s.certificates.keys :=
    GoMap.mem_keys_insert_of_lookup hcert
  refine .quiet hrequest hout rfl rfl le_rfl (fun k' => (hkeys k').mpr)
    (fun k' hk' => .inl ((hkeys k').mp hk')) fun _ hempty => ?_
  exact absurd ((hkeys k).mpr (GoMap.mem_keys_iff.mpr ⟨cert, hcert⟩))
    (List.eq_nil_iff_forall_not_mem.mp hempty k)

theorem filterMap_answer_map (cert : Cert) (origins : List RequestCertOrigin) :
    (origins.map (CreationOutput.newCert cert)).filterMap CreationOutput.answer? = origins := by
  rw [List.filterMap_map]
  exact List.filterMap_some

/-- A round that responds if there are finished entries. -/
theorem Accounts.of_responded {mid : CertCreationState} {P : Prop} [Decidable P]
    (hr : Responded t.order params.membership mid t.after out)
    (hout : t.out = out ++ if P then [.computeCert] else [])
    (hcollected : mid.certificates = t.collected) (hpending : mid.requestStates = t.pending)
    (hne : t.pending ≠ []) (hremaining : mid.remainingSeqNr = t.before.remainingSeqNr)
    (hnext : mid.nextReqID = t.before.nextReqID)
    (hprogress : t.after.requestStates ≠ [] → t.after.certificates.keys = [] → P) :
    Accounts params t := by
  have hanswers : t.out.filterMap CreationOutput.answer? = out.filterMap CreationOutput.answer? := by
    have hlast : (if P then [CreationOutput.computeCert] else []).filterMap
        CreationOutput.answer? = [] := by split <;> rfl
    rw [hout, List.filterMap_append, hlast, List.append_nil]
  have hmem : ∀ cert origin, .newCert cert origin ∈ t.out ↔ .newCert cert origin ∈ out := by
    intro cert origin
    rw [hout, List.mem_append, or_iff_left]
    split <;> simp
  have hle : t.before.nextReqID ≤ t.after.nextReqID := (hr.nextReqID_eq.trans hnext).ge
  have hkeys : ∀ k ∈ t.after.certificates.keys, k ∈ t.before.certificates.keys := by
    intro k hk
    obtain ⟨cert, hcert⟩ := GoMap.mem_keys_iff.mp hk
    exact Round.mem_keys_collected.mp (GoMap.mem_keys_iff.mpr ⟨cert, hcollected ▸ hr.kept hcert⟩)
  have hwait : t.after.requestStates ≠ [] → t.after.certificates.keys ≠ [] ∨
      .computeCert ∈ t.out ∨ (t.before.requestStates ≠ [] ∧ t.before.certificates.keys = [] ∧
        (t.event = .computeCert → t.before.remainingSeqNr ≤ 0)) := by
    intro hwaiting
    by_cases hempty : t.after.certificates.keys = []
    · rw [hout, if_pos (hprogress hwaiting hempty)]
      exact .inr (.inl (List.mem_append_right _ (List.mem_singleton_self _)))
    · exact .inl hempty
  generalize hafter : t.after = after at hr
  cases hr with
  | nothing hunfinished =>
    refine ⟨?_, ?_, hle, fun k hk => .inl (hkeys k hk), fun e he => ?_, fun cert origin hcert => ?_,
      hwait⟩
    · rw [hanswers, hafter, hpending, List.filterMap_nil, List.nil_append]
    · rw [hanswers, hafter, hremaining, List.filterMap_nil, List.length_nil, Nat.cast_zero, sub_zero]
    · obtain ⟨hlookup, hfinished, -⟩ := Round.mem_removed.mp he
      rw [← hcollected, ← GoMap.mem_pairs] at hlookup
      exact absurd hfinished (hunfinished _ hlookup)
    · cases (hmem cert origin).mp hcert
  | @all certificates certs hrest hcerts =>
    rw [filterMap_answer_map, hpending] at hanswers
    have hremoved : t.removed params.membership = mid.certificates.pairs.filter fun e =>
        haveSigs params.membership e.2 = .ok true := by
      rw [Round.removed, ← hcollected]
      refine List.filter_congr fun e he => ?_
      rw [decide_eq_decide, and_iff_left_iff_imp, hafter]
      intro hfinished hkept
      obtain ⟨cert, hcert⟩ := GoMap.mem_keys_iff.mp hkept
      obtain ⟨hold, hunfinished⟩ := (hrest _ _).mp hcert
      cases (GoMap.mem_pairs.mp he).symm.trans hold
      exact hunfinished hfinished
    rw [← hremoved] at hcerts
    refine ⟨?_, ?_, hle, fun k hk => .inl (hkeys k hk), fun e he => ?_, fun cert origin hcert => ?_,
      hwait⟩
    · rw [hanswers, hafter, List.append_nil]
    · rw [hanswers, hafter, hremaining, hpending]
    · obtain ⟨origin, horigin⟩ := List.exists_mem_of_ne_nil _ hne
      refine ⟨origin, horigin, certs, (hmem _ _).mpr ?_, ?_⟩
      · exact List.mem_map.mpr ⟨origin, hpending ▸ horigin, rfl⟩
      · exact hcerts.mem_iff.mpr (List.mem_map.mpr ⟨e, he, rfl⟩)
    · obtain ⟨origin', -, heq⟩ := List.mem_map.mp ((hmem _ _).mp hcert)
      cases heq
      exact ⟨certs, rfl, hcerts⟩

/-- Requests stay pending only if there is no response. -/
theorem Responded.eq_of_pending (hr : Responded order params.membership s s' out)
    (hne : s'.requestStates ≠ []) : s' = s := by
  cases hr with
  | nothing => rfl
  | all => exact absurd rfl hne

/-- The entry that is removed for an empty batch is not finished. -/
theorem Accounts.emptyBatch {txIDs : List TxID} {k : ℕ}
    (hcond : NotFinishedEmpty params s (.newBatch txIDs [] k)) :
    Accounts params ⟨s, .newBatch txIDs [] k, order,
      ⟨s.nextReqID, [], s.certificates.erase k, s.remainingSeqNr - s.requestStates.length⟩,
      s.requestStates.map (.newCert (some []))⟩ := by
  have hremoved : Round.removed params.membership ⟨s, .newBatch txIDs [] k, order,
      ⟨s.nextReqID, [], s.certificates.erase k, s.remainingSeqNr - s.requestStates.length⟩,
      s.requestStates.map (.newCert (some []))⟩ = [] := by
    refine List.eq_nil_iff_forall_not_mem.mpr fun e he => ?_
    obtain ⟨hlookup, hfinished, hgone⟩ := Round.mem_removed.mp he
    by_cases heq : e.1 = k
    · exact hcond rfl e.2 (heq ▸ hlookup) hfinished
    · refine hgone (GoMap.mem_keys_iff.mpr ⟨e.2, ?_⟩)
      exact (AList.lookup_erase_ne heq).trans hlookup
  refine ⟨?_, ?_, le_rfl, fun k' hk' => .inl ?_, ?_, fun cert origin hcert => ?_, absurd rfl⟩
  · rw [filterMap_answer_map]
    rfl
  · rw [filterMap_answer_map]
  · exact AList.mem_keys.mp (AList.mem_erase.mp (AList.mem_keys.mpr hk')).2
  · rw [hremoved]
    exact List.forall_mem_nil _
  · obtain ⟨origin', -, heq⟩ := List.mem_map.mp hcert
    cases heq
    exact ⟨[], rfl, by rw [hremoved]; exact .nil⟩

/-- **Every round accounts** for the requests and entries it handles. -/
theorem CreationStep.accounts (h : CreationStep order params s event s' out)
    (hcond : NotFinishedEmpty params s event) : Accounts params ⟨s, event, order, s', out⟩ := by
  cases h with
  | ignore hrequest hspent => exact .unchanged hrequest nofun hspent
  | create =>
    refine .quiet rfl (by simp [CreationOutput.answer?]) rfl rfl (Nat.le_succ _)
      (fun k hk => GoMap.mem_keys_insert.mpr (.inr hk)) (fun k hk => ?_) fun _ hempty => ?_
    · rcases GoMap.mem_keys_insert.mp hk with rfl | hold
      · exact .inr ⟨le_rfl, Nat.lt_succ_self _⟩
      · exact .inl hold
    · exact absurd (GoMap.mem_keys_insert.mpr (.inl rfl)) (List.eq_nil_iff_forall_not_mem.mp hempty _)
  | emptyBatch => exact .emptyBatch hcond
  | askID => exact .unchanged rfl (by simp [CreationOutput.answer?]) nofun
  | askSigs hcert | verify hcert => exact .updated rfl (by simp [CreationOutput.answer?]) hcert
  | request hr =>
    refine .of_responded hr rfl rfl rfl ?_ rfl rfl fun _ hempty => List.length_eq_zero_iff.mpr hempty
    exact List.append_ne_nil_of_right_ne_nil _ (List.cons_ne_nil _ _)
  | @sign _ context _ _ _ _ hcert hr =>
    split at hr
    next hwaiting =>
      refine .of_responded hr rfl ?_ (List.append_nil _).symm
        (List.append_ne_nil_of_left_ne_nil hwaiting _) rfl rfl fun hpending hempty => ?_
      · simp only [Round.collected, hcert]
        rfl
      · -- without a response, the entry is still there
        rw [show s' = _ from hr.eq_of_pending hpending] at hempty
        exact absurd (GoMap.mem_keys_insert.mpr (.inl rfl))
          (List.eq_nil_iff_forall_not_mem.mp hempty context.reqID)
    next =>
      obtain ⟨rfl, rfl⟩ := hr
      exact .updated rfl (by split <;> simp [CreationOutput.answer?]) hcert

end Rounds

/-! ### Whole runs -/

section Runs

variable {crypto : Crypto} {params : ModuleParams} {s : Service} {t : Round} {own : Bool}

theorem Service.answered_next (s : Service) (t : Round) (own : Bool) :
    (s.next t own).answered = s.answered ++ t.out.filterMap CreationOutput.answer? :=
  List.filterMap_append

theorem Service.requested_next (s : Service) (t : Round) (own : Bool) :
    (s.next t own).requested = s.requested ++ t.event.request?.toList := by
  refine List.filterMap_append.trans (congrArg (s.requested ++ ·) ?_)
  cases h : t.event.request? <;> simp [h]

/-- The accounts of a run. -/
structure Ledger (params : ModuleParams) (s : Service) : Prop where
  answered : s.answered ++ s.run.state.requestStates = s.requested
  remaining : s.run.state.remainingSeqNr = params.maxRequests - s.answered.length
  below : ∀ k ∈ s.run.state.certificates.keys, k < s.run.state.nextReqID
  rounds : ∀ t ∈ s.rounds, Accounts params t
  gone : ∀ k ∈ s.rounds.flatMap fun t => (t.removed params.membership).map Prod.fst,
    k < s.run.state.nextReqID ∧ k ∉ s.run.state.certificates.keys
  once : (s.rounds.flatMap fun t => (t.removed params.membership).map Prod.fst).Nodup
  waiting : s.run.state.requestStates ≠ [] → s.run.state.certificates.keys ≠ [] ∨ 0 < s.own

theorem Ledger.init (params : ModuleParams) : Ledger params (.init params) where
  answered := rfl
  remaining := (sub_zero _).symm
  below := nofun
  rounds := nofun
  gone := nofun
  once := List.nodup_nil
  waiting h := absurd rfl h

/-- With a pending request, the requests are not used up. -/
theorem Ledger.remaining_pos (h : Ledger params s)
    (hbound : (s.requested.length : ℤ) ≤ params.maxRequests)
    (hne : s.run.state.requestStates ≠ []) : 0 < s.run.state.remainingSeqNr := by
  have hlength := congrArg List.length h.answered
  rw [List.length_append] at hlength
  have hpos := List.length_pos_iff.mpr hne
  rw [h.remaining]
  omega

/-- One more round. -/
theorem Ledger.next (h : Ledger params s) (ht : Accounts params t)
    (hbefore : t.before = s.run.state)
    (hbound : (s.requested.length : ℤ) ≤ params.maxRequests)
    (hown : own = true → t.event = .computeCert ∧ 0 < s.own) :
    Ledger params (s.next t own) where
  answered := by
    rw [Service.answered_next, Service.requested_next, ← h.answered, List.append_assoc]
    change _ ++ (_ ++ t.after.requestStates) = _
    rw [ht.answered, Round.pending, hbefore, List.append_assoc]
  remaining := by
    change t.after.remainingSeqNr = _
    rw [ht.remaining, hbefore, h.remaining, Service.answered_next, List.length_append]
    omega
  below k hk := by
    rcases ht.keys k hk with hold | ⟨-, hnew⟩
    · exact (h.below k (hbefore ▸ hold)).trans_le (hbefore ▸ ht.next)
    · exact hnew
  rounds := forall_mem_concat h.rounds ht
  gone k hk := by
    change k < t.after.nextReqID ∧ k ∉ t.after.certificates.keys
    have hnext : s.run.state.nextReqID ≤ t.after.nextReqID := hbefore ▸ ht.next
    rw [Service.next, List.flatMap_append, List.mem_append, List.flatMap_singleton] at hk
    rcases hk with hold | hnew
    · -- the number of an entry is not used again
      obtain ⟨hlt, hgone⟩ := h.gone k hold
      refine ⟨hlt.trans_le hnext, fun hk => ?_⟩
      rcases ht.keys k hk with hkept | ⟨hge, -⟩
      · exact hgone (hbefore ▸ hkept)
      · rw [hbefore] at hge
        omega
    · obtain ⟨hkey, hgone⟩ := Round.mem_keys_of_removed hnew
      exact ⟨(h.below k (hbefore ▸ hkey)).trans_le hnext, hgone⟩
  once := by
    rw [Service.next, List.flatMap_append, List.flatMap_singleton, List.nodup_append']
    refine ⟨h.once, t.nodup_removed _, fun k hold hnew => ?_⟩
    exact (h.gone k hold).2 (hbefore ▸ (Round.mem_keys_of_removed hnew).1)
  waiting hne := by
    change t.after.certificates.keys ≠ [] ∨
      0 < s.own - (if own then 1 else 0) + t.out.count .computeCert
    rcases ht.progress hne with hkeys | hsent | ⟨hpending, hempty, hspent⟩
    · exact .inl hkeys
    · have hcount := List.count_pos_iff.mpr hsent
      exact .inr (by omega)
    · rw [hbefore] at hpending hempty hspent
      have hpos := (h.waiting hpending).resolve_left (not_not.mpr hempty)
      have hremaining := h.remaining_pos hbound hpending
      cases own with
      | false => exact .inr (by simp; omega)
      | true =>
        have hle := hspent (hown rfl).1
        omega

theorem Service.Reachable.ledger (h : s.Reachable crypto params (NotFinishedEmpty params))
    (hbound : (s.requested.length : ℤ) ≤ params.maxRequests) : Ledger params s := by
  induction h with
  | init => exact .init params
  | step _ hbefore _ hcond hown hhandle ih =>
    rw [Service.requested_next, List.length_append, Nat.cast_add] at hbound
    exact (ih (by omega)).next ((creationStep_of_handleCreation hhandle).accounts hcond) hbefore
      (by omega) hown

end Runs

/-- **Requests and certificates are conserved** in every run with at most `MaxRequests` requests in
which no empty batch arrives for an entry that is finished already. -/
theorem conserved_of_reachable (crypto : Crypto) (params : ModuleParams) (s : Service)
    (hr : s.Reachable crypto params (NotFinishedEmpty params))
    (hbound : (s.requested.length : ℤ) ≤ params.maxRequests) : Conserved params s := by
  have h := hr.ledger hbound
  refine ⟨h.answered, fun t ht => (h.rounds t ht).handed, fun t ht => (h.rounds t ht).contents,
    h.once, fun hne => ?_⟩
  rcases h.waiting hne with hkeys | hpos
  · exact .inl hkeys
  · have hremaining := h.remaining_pos hbound hne
    refine .inr ⟨hpos, ?_⟩
    rw [uponComputeCert, if_neg (by omega)]
    exact List.ne_nil_of_mem (GoMap.mem_keys_insert.mpr (.inl rfl))

/-- A request is answered with the batch that `a` and `b` have signed. -/
theorem conserved_of_reachable_two_signatures : ∃ s, Service.Reachable plainCrypto fourParams
    (NotFinishedEmpty fourParams) s ∧ s.answered = [⟨[], 0⟩] ∧ Conserved fourParams s := by
  obtain ⟨s, hr, hanswered, hrequested⟩ := Service.exists_reachable (by decide +kernel :
    ((twoSignatures.map fun event => (event, decide (event = .computeCert))).foldlM
      (Service.next? plainCrypto fourParams (NotFinishedEmpty fourParams)) (.init fourParams)).any
        (fun s => s.answered = [⟨[], 0⟩] ∧ s.requested.length = 1) = true)
  exact ⟨s, hr, hanswered, conserved_of_reachable plainCrypto fourParams s hr
    (by rw [hrequested]; decide)⟩

/-- Members `a` and `b` sign the empty batch ID of an entry that is created in advance, and the
mempool then has no transactions. -/
def emptyBatchFinished : List (CreationEvent × Bool) :=
  [(.computeCert, false),
    (.sigMessage [97] (plainSig []) 0, false), (.sigVerified [97] true ⟨0, plainSig []⟩, false),
    (.sigMessage [98] (plainSig []) 0, false), (.sigVerified [98] true ⟨0, plainSig []⟩, false),
    (.newBatch [] [] 0, false)]

/-- **A finished entry is lost with an empty batch**, although no request is pending. -/
theorem not_conserved_empty_batch : ¬ ∀ (crypto : Crypto) (params : ModuleParams) (s : Service),
    params.membership.Proper → s.Reachable crypto params (fun _ _ => True) →
    (s.requested.length : ℤ) ≤ params.maxRequests → Conserved params s := by
  intro h
  obtain ⟨s, hr, hrequested, t, ht, hremoved, hpending⟩ := Service.exists_reachable (by
    decide +kernel : (emptyBatchFinished.foldlM (Service.next? plainCrypto fourParams
      fun _ _ => True) (.init fourParams)).any (fun s => s.requested.length = 0 ∧
        ∃ t ∈ s.rounds, t.removed fourParams.membership ≠ [] ∧ t.pending = []) = true)
  have hconserved := h plainCrypto fourParams s Membership.fourMembers_proper hr
    (by rw [hrequested]; decide)
  obtain ⟨e, he⟩ := List.exists_mem_of_ne_nil _ hremoved
  obtain ⟨origin, horigin, -⟩ := hconserved.handed t ht e he
  rw [hpending] at horigin
  cases horigin

end Mir.Availability
