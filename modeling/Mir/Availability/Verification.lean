import Mir.Availability.Certificates
import Mir.Lib.Calls

/-!
# Verification of availability certificates

The part of the multisig collector that answers `VerifyCert`: it checks the structure of a certificate,
has the crypto module verify the signatures of every sub-certificate, and collects the results in a
map from batch IDs to verdicts.

A run interleaves requests with results in any order. Each request is followed through the run by
`Followed`: either it was answered at once, or some batch ID still waits for a first valid result, or it
was answered by the results received. The map holds one verdict for each batch ID, so a certificate
with two sub-certificates for one batch ID can be declared valid on one of them alone:
`verifies_iff`.
-/

namespace Mir.Availability

open Iss Checkpoint Fallible Calls

/-! ### The module -/

/-- `availabilitypb.VerifyCertOrigin`: the module that asks, and its name for the request. -/
structure VerifyCertOrigin where
  module : GoString
  contextID : UInt64
  deriving DecidableEq

/-- `verifySigsInCertContext`. -/
structure VerifySigsInCertContext where
  origin : VerifyCertOrigin
  reqID : ℕ
  cert : MscCert
  deriving DecidableEq

/-- `certverification.State`. The counter of requests is never decremented or set, so a run that is
shorter than `2 ^ 64` events does not distinguish it from a natural number. -/
structure VerificationState where
  nextReqID : ℕ
  requestState : GoMap ℕ (GoMap BatchID Bool)

/-- The errors reported in `CertVerified`. -/
inductive VerdictError
  | structure (e : StructureError)
  | invalidSignatures
  deriving DecidableEq

/-- The events the module emits. -/
inductive VerificationOutput
  | certVerified (valid : Bool) (err : Option VerdictError) (origin : VerifyCertOrigin)
  | verifySigs (data : List (List Bytes)) (signatures : List Bytes) (nodeIDs : List NodeID)
      (context : VerifySigsInCertContext)
  deriving DecidableEq

/-- The events the module handles. -/
inductive VerificationEvent
  | verifyCert (cert : Cert) (origin : VerifyCertOrigin)
  | sigsVerified (allOK : Bool) (context : VerifySigsInCertContext)
  deriving DecidableEq

/-- The call that has the signatures of a sub-certificate verified. -/
def verifySigs (params : ModuleParams) (origin : VerifyCertOrigin) (reqID : ℕ) (c : MscCert) :
    VerificationOutput :=
  .verifySigs (List.replicate c.signers.length (sigData params.instanceUID c.batchID))
    c.signatures c.signers ⟨origin, reqID, c⟩

/-- `UponVerifyCert`. -/
def uponVerifyCert (params : ModuleParams) (state : VerificationState) (cert : Cert)
    (origin : VerifyCertOrigin) : Fallible (VerificationState × List VerificationOutput) := do
  let reqID := state.nextReqID
  match ← verifyCertificateStructure params.membership cert with
  | .error e =>
    return (⟨reqID + 1, state.requestState⟩, [.certVerified false (some (.structure e)) origin])
  | .ok mscCerts =>
    if mscCerts = [] then
      return (⟨reqID + 1, state.requestState⟩, [.certVerified true none origin])
    else
      let certVerifiedValid := GoMap.ofKeys (mscCerts.map MscCert.batchID) fun _ => false
      return (⟨reqID + 1, state.requestState.insert reqID certVerifiedValid⟩,
        mscCerts.map (verifySigs params origin reqID))

/-- `UponSigsVerified`. -/
def uponSigsVerified (state : VerificationState) (allOK : Bool) (context : VerifySigsInCertContext) :
    VerificationState × List VerificationOutput :=
  match state.requestState.lookup context.reqID with
  | none => (state, [])
  | some request =>
    let certVerifiedValid := request.insert context.cert.batchID allOK
    let answered : VerificationState :=
      ⟨state.nextReqID, state.requestState.erase context.reqID⟩
    if ¬ allOK then
      (answered, [.certVerified false (some .invalidSignatures) context.origin])
    else if certVerifiedValid.keys.all fun b => certVerifiedValid.lookup b = some true then
      (answered, [.certVerified true none context.origin])
    else
      (⟨state.nextReqID, state.requestState.insert context.reqID certVerifiedValid⟩, [])

/-- Handling one event. -/
def handleVerification (params : ModuleParams) (state : VerificationState) :
    VerificationEvent → Fallible (VerificationState × List VerificationOutput)
  | .verifyCert cert origin => uponVerifyCert params state cert origin
  | .sigsVerified allOK context => .ok (uponSigsVerified state allOK context)

/-! ### Runs -/

/-- A run: the state, the events handled and the events emitted. -/
structure VerificationRun where
  state : VerificationState
  events : List VerificationEvent
  out : List VerificationOutput

namespace VerificationRun

/-- The run before the first event. -/
def init : VerificationRun := ⟨⟨0, ∅⟩, [], []⟩

/-- The calls made to the crypto module. -/
def asked (r : VerificationRun) : List VerifySigsInCertContext :=
  r.out.filterMap fun
    | .verifySigs _ _ _ context => some context
    | .certVerified .. => none

/-- The calls the crypto module has answered. -/
def results (r : VerificationRun) : List VerifySigsInCertContext :=
  r.events.filterMap fun
    | .sigsVerified _ context => some context
    | .verifyCert .. => none

/-- The certificates to verify, in the order of the requests. -/
def requests (r : VerificationRun) : List (Cert × VerifyCertOrigin) :=
  r.events.filterMap fun
    | .verifyCert cert origin => some (cert, origin)
    | .sigsVerified .. => none

/-- The verdicts given to a requester. -/
def answers (r : VerificationRun) (origin : VerifyCertOrigin) : List Bool :=
  r.out.filterMap fun
    | .certVerified valid _ o => if o = origin then some valid else none
    | .verifySigs .. => none

end VerificationRun

/-- All signatures of a sub-certificate are valid for its batch ID. -/
def sigsValid (crypto : Crypto) (params : ModuleParams) (c : MscCert) : Bool :=
  (c.signers.zip c.signatures).all fun p =>
    crypto.verify (sigData params.instanceUID c.batchID).flatten p.2 p.1

/-- Requests have names of their own, and the crypto module answers each of its calls once, with the
verdict on the signatures. -/
def VerificationRun.Enabled (crypto : Crypto) (params : ModuleParams) (r : VerificationRun) :
    VerificationEvent → Prop
  | .verifyCert _ origin => ∀ request ∈ r.requests, request.2 ≠ origin
  | .sigsVerified allOK context =>
    Outstanding r.asked r.results context ∧ allOK = sigsValid crypto params context.cert

/-- The runs of the module. -/
inductive VerificationRun.Reachable (crypto : Crypto) (params : ModuleParams) :
    VerificationRun → Prop
  | init : Reachable crypto params .init
  | step {r : VerificationRun} {event : VerificationEvent} {state : VerificationState}
      {out : List VerificationOutput} :
      Reachable crypto params r → r.Enabled crypto params event →
      handleVerification params r.state event = .ok (state, out) →
      Reachable crypto params ⟨state, r.events ++ [event], r.out ++ out⟩

/-- The certificate passes the structure check and carries valid signatures only. -/
def Genuine (crypto : Crypto) (params : ModuleParams) (cert : Cert) : Prop :=
  ∃ certs, verifyCertificateStructure params.membership cert = .ok (.ok certs) ∧
    ∀ c ∈ certs, sigsValid crypto params c = true

/-- A request is answered once, when the crypto module has answered, and with the right verdict. -/
structure Decides (crypto : Crypto) (params : ModuleParams) (r : VerificationRun) (cert : Cert)
    (origin : VerifyCertOrigin) : Prop where
  atMostOnce : (r.answers origin).length ≤ 1
  answered : (∀ context, context.origin = origin → ¬ Outstanding r.asked r.results context) →
    (r.answers origin).length = 1
  verdict : ∀ valid ∈ r.answers origin, valid = true ↔ Genuine crypto params cert

/-- In every run, requests to verify the certificate are handled and decided. -/
def Verifies (crypto : Crypto) (params : ModuleParams) (cert : Cert) : Prop :=
  ∀ r, VerificationRun.Reachable crypto params r →
    (∀ origin, r.Enabled crypto params (.verifyCert cert origin) →
      Completes (handleVerification params r.state (.verifyCert cert origin))) ∧
    ∀ origin, .verifyCert cert origin ∈ r.events → Decides crypto params r cert origin

/-! ### One request -/

/-- What a run says about one request: its entry in the state, the sub-certificates whose signatures
are to be verified and those whose are, and the verdicts given. -/
structure RequestView where
  request : Option (GoMap BatchID Bool)
  asked : List MscCert
  results : List MscCert
  answers : List Bool

/-- How a result moves a request. -/
def RequestView.feed (v : RequestView) (allOK : Bool) (c : MscCert) : RequestView :=
  match v.request with
  | none => ⟨none, v.asked, v.results ++ [c], v.answers⟩
  | some request =>
    let certVerifiedValid := request.insert c.batchID allOK
    if ¬ allOK then ⟨none, v.asked, v.results ++ [c], v.answers ++ [false]⟩
    else if certVerifiedValid.keys.all fun b => certVerifiedValid.lookup b = some true then
      ⟨none, v.asked, v.results ++ [c], v.answers ++ [true]⟩
    else ⟨some certVerifiedValid, v.asked, v.results ++ [c], v.answers⟩

section Followed

variable {crypto : Crypto} {params : ModuleParams} {cert : Cert} {certs results : List MscCert}
  {c : MscCert} {m : GoMap BatchID Bool} {v : RequestView}

/-- The entry of a request maps each batch ID to whether a result for it has come in. -/
def Collects (certs results : List MscCert) (m : GoMap BatchID Bool) : Prop :=
  ∀ b, m.lookup b = if b ∈ certs.map MscCert.batchID
    then some (decide (b ∈ results.map MscCert.batchID)) else none

/-- The request at any time: answered at once, waiting for a batch ID, or answered by results. -/
inductive Followed (crypto : Crypto) (params : ModuleParams) (cert : Cert) : RequestView → Prop
  | atOnce {valid : Bool} : (valid = true ↔ Genuine crypto params cert) →
      Followed crypto params cert ⟨none, [], [], [valid]⟩
  | waiting {certs results : List MscCert} {m : GoMap BatchID Bool} :
      verifyCertificateStructure params.membership cert = .ok (.ok certs) →
      Collects certs results m → (∀ c ∈ results, c ∈ certs ∧ sigsValid crypto params c = true) →
      (∃ c ∈ certs, c.batchID ∉ results.map MscCert.batchID) →
      Followed crypto params cert ⟨some m, certs, results, []⟩
  | valid {certs results : List MscCert} :
      verifyCertificateStructure params.membership cert = .ok (.ok certs) →
      (∀ c ∈ certs, ∃ c' ∈ certs, c'.batchID = c.batchID ∧ sigsValid crypto params c' = true) →
      Followed crypto params cert ⟨none, certs, results, [true]⟩
  | invalid {certs results : List MscCert} :
      verifyCertificateStructure params.membership cert = .ok (.ok certs) →
      (∃ c ∈ certs, c ∈ results ∧ sigsValid crypto params c = false) →
      Followed crypto params cert ⟨none, certs, results, [false]⟩

theorem Collects.insert (h : Collects certs results m) (hc : c ∈ certs) :
    Collects certs (results ++ [c]) (m.insert c.batchID true) := by
  intro b
  rw [GoMap.lookup_insert_eq, h b]
  have hmem : c.batchID ∈ certs.map MscCert.batchID := List.mem_map_of_mem hc
  by_cases hb : b = c.batchID
  · simp [hb, hmem]
  · simp [hb]

/-- All verdicts in the entry are `true` if and only if every batch ID has a result. -/
theorem Collects.all_iff (h : Collects certs results m) :
    (m.keys.all fun b => m.lookup b = some true) = true ↔
      ∀ c ∈ certs, c.batchID ∈ results.map MscCert.batchID := by
  have hkeys : ∀ b, b ∈ m.keys ↔ b ∈ certs.map MscCert.batchID := by
    intro b
    rw [GoMap.mem_keys_iff, h b]
    by_cases hb : b ∈ certs.map MscCert.batchID
    · rw [if_pos hb]
      exact iff_of_true ⟨_, rfl⟩ hb
    · simp [hb]
  rw [List.all_eq_true, ← List.forall_mem_map (f := MscCert.batchID)
    (P := fun b => b ∈ results.map MscCert.batchID)]
  refine forall_congr' fun b => ?_
  rw [hkeys b]
  refine forall_congr' fun hb => ?_
  rw [h b, if_pos hb, decide_eq_true_iff, Option.some.injEq, decide_eq_true_iff]

/-- **A result keeps the request followed.** -/
theorem Followed.feed (h : Followed crypto params cert v) (hc : c ∈ v.asked) :
    Followed crypto params cert (v.feed (sigsValid crypto params c) c) := by
  cases h with
  | atOnce => cases hc
  | valid hcerts hall => exact .valid hcerts hall
  | invalid hcerts hbad =>
    obtain ⟨d, hd, hmem, hinvalid⟩ := hbad
    exact .invalid hcerts ⟨d, hd, List.mem_append_left _ hmem, hinvalid⟩
  | @waiting certs results m hcerts hcollects hvalid hsome =>
    rw [RequestView.feed]
    cases hok : sigsValid crypto params c with
    | false => exact .invalid hcerts ⟨c, hc, List.mem_append_right _ List.mem_cons_self, hok⟩
    | true =>
      have hcollects' := hcollects.insert hc
      have hvalid' : ∀ d ∈ results ++ [c], d ∈ certs ∧ sigsValid crypto params d = true :=
        forall_mem_concat hvalid ⟨hc, hok⟩
      simp only [not_true_eq_false, if_false]
      split
      next hall =>
        refine .valid hcerts fun d hd => ?_
        obtain ⟨d', hd', hbatch⟩ := List.mem_map.mp (hcollects'.all_iff.mp hall d hd)
        exact ⟨d', (hvalid' d' hd').1, hbatch, (hvalid' d' hd').2⟩
      next hall =>
        rw [hcollects'.all_iff] at hall
        push Not at hall
        exact .waiting hcerts hcollects' hvalid' hall

end Followed

/-! ### All requests of a run -/

namespace VerificationRun

/-- The sub-certificates a list of contexts names for one requester. -/
def certsFor (contexts : List VerifySigsInCertContext) (origin : VerifyCertOrigin) : List MscCert :=
  (contexts.filter fun context => context.origin = origin).map VerifySigsInCertContext.cert

/-- The view of request `k`, made by `origin`. -/
def view (r : VerificationRun) (k : ℕ) (origin : VerifyCertOrigin) : RequestView :=
  ⟨r.state.requestState.lookup k, certsFor r.asked origin, certsFor r.results origin,
    r.answers origin⟩

section

variable {contexts contexts' : List VerifySigsInCertContext} {origin : VerifyCertOrigin}

theorem certsFor_append : certsFor (contexts ++ contexts') origin =
    certsFor contexts origin ++ certsFor contexts' origin := by
  rw [certsFor, List.filter_append, List.map_append]
  rfl

theorem certsFor_eq_nil (h : ∀ context ∈ contexts, context.origin ≠ origin) :
    certsFor contexts origin = [] := by
  rw [certsFor, List.map_eq_nil_iff, List.filter_eq_nil_iff]
  simpa using h

theorem mem_certsFor {context : VerifySigsInCertContext} (h : context ∈ contexts) :
    context.cert ∈ certsFor contexts context.origin :=
  List.mem_map_of_mem (List.mem_filter.mpr ⟨h, decide_eq_true rfl⟩)

theorem exists_mem_of_mem_certsFor {c : MscCert} (h : c ∈ certsFor contexts origin) :
    ∃ context ∈ contexts, context.origin = origin ∧ context.cert = c := by
  obtain ⟨context, hcontext, rfl⟩ := List.mem_map.mp h
  obtain ⟨hmem, horigin⟩ := List.mem_filter.mp hcontext
  exact ⟨context, hmem, of_decide_eq_true horigin, rfl⟩

theorem certsFor_map {k : ℕ} (certs : List MscCert) :
    certsFor (certs.map fun c => ⟨origin, k, c⟩) origin = certs := by
  rw [certsFor, List.filter_eq_self.mpr (by simp), List.map_map]
  exact List.map_id _

end

/-- The verdict a rejected or an empty certificate gets at once. -/
theorem uponVerifyCert_cases (crypto : Crypto) {params : ModuleParams}
    {state state' : VerificationState} {cert : Cert} {origin : VerifyCertOrigin}
    {out : List VerificationOutput}
    (h : uponVerifyCert params state cert origin = .ok (state', out)) :
    (∃ valid err, state' = ⟨state.nextReqID + 1, state.requestState⟩ ∧
      out = [.certVerified valid err origin] ∧ (valid = true ↔ Genuine crypto params cert)) ∨
    ∃ certs, verifyCertificateStructure params.membership cert = .ok (.ok certs) ∧ certs ≠ [] ∧
      state' = ⟨state.nextReqID + 1, state.requestState.insert state.nextReqID
        (GoMap.ofKeys (certs.map MscCert.batchID) fun _ => false)⟩ ∧
      out = certs.map (verifySigs params origin state.nextReqID) := by
  obtain ⟨r, hr, hrest⟩ := bind_eq_ok.mp h
  cases r with
  | error e =>
    cases hrest
    refine .inl ⟨_, _, rfl, rfl, iff_of_false (by simp) ?_⟩
    rintro ⟨certs, hcerts, -⟩
    cases hr.symm.trans hcerts
  | ok certs =>
    simp only at hrest
    split at hrest
    next hnil =>
      cases hrest
      exact .inl ⟨_, _, rfl, rfl, iff_of_true rfl ⟨[], hnil ▸ hr, nofun⟩⟩
    next hne =>
      cases hrest
      exact .inr ⟨certs, hr, hne, rfl, rfl⟩

/-- Every request of a run is followed, under the number it was given. -/
structure Inv (crypto : Crypto) (params : ModuleParams) (r : VerificationRun) : Prop where
  next : r.state.nextReqID = r.requests.length
  unused : ∀ k, r.requests.length ≤ k → r.state.requestState.lookup k = none
  contexts : ∀ context ∈ r.asked, ∃ cert, r.requests[context.reqID]? = some (cert, context.origin)
  asked : ∀ context ∈ r.results, context ∈ r.asked
  answered : ∀ origin, r.answers origin ≠ [] → ∃ request ∈ r.requests, request.2 = origin
  origins : (r.requests.map Prod.snd).Nodup
  followed : ∀ k cert origin, r.requests[k]? = some (cert, origin) →
    Followed crypto params cert (r.view k origin)

section Inv

variable {crypto : Crypto} {params : ModuleParams} {r r' : VerificationRun} {cert : Cert}
  {origin : VerifyCertOrigin} {context : VerifySigsInCertContext}

theorem inv_init : Inv crypto params .init where
  next := rfl
  unused := fun _ _ => AList.lookup_empty _
  contexts := nofun
  asked := nofun
  answered := fun _ h => absurd rfl h
  origins := List.nodup_nil
  followed := nofun

/-- A request under a new name starts with nothing asked, verified or answered. -/
theorem Inv.unnamed (h : Inv crypto params r) (hnew : ∀ request ∈ r.requests, request.2 ≠ origin) :
    certsFor r.asked origin = [] ∧ certsFor r.results origin = [] ∧ r.answers origin = [] := by
  have hcontexts : ∀ context ∈ r.asked, context.origin ≠ origin := by
    intro context hcontext
    obtain ⟨cert, hcert⟩ := h.contexts context hcontext
    exact hnew _ (List.mem_of_getElem? hcert)
  refine ⟨certsFor_eq_nil hcontexts, certsFor_eq_nil fun context hcontext =>
    hcontexts context (h.asked context hcontext), ?_⟩
  by_contra hne
  obtain ⟨request, hrequest, horigin⟩ := h.answered origin hne
  exact hnew request hrequest horigin

/-- **A new request keeps the invariant**, whether it is answered at once or not. -/
theorem Inv.request (h : Inv crypto params r) (hnew : ∀ request ∈ r.requests, request.2 ≠ origin)
    {entry : Option (GoMap BatchID Bool)} {certs : List MscCert} {verdicts : List Bool}
    (hfollowed : Followed crypto params cert ⟨entry, certs, [], verdicts⟩)
    (hnext : r'.state.nextReqID = r.state.nextReqID + 1)
    (hlookup : ∀ k, r'.state.requestState.lookup k =
      if k = r.state.nextReqID then entry else r.state.requestState.lookup k)
    (hrequests : r'.requests = r.requests ++ [(cert, origin)])
    (hasked : r'.asked = r.asked ++ certs.map fun c => ⟨origin, r.state.nextReqID, c⟩)
    (hresults : r'.results = r.results)
    (hanswers : ∀ o, r'.answers o = r.answers o ++ if o = origin then verdicts else []) :
    Inv crypto params r' := by
  have hn := h.next
  have hlast : r'.requests[r.state.nextReqID]? = some (cert, origin) := by
    rw [hrequests, hn, List.getElem?_concat_length]
  constructor
  · rw [hnext, hrequests, List.length_append, hn]
    rfl
  · intro k hk
    rw [hrequests, List.length_append, List.length_singleton] at hk
    rw [hlookup, if_neg (by omega)]
    exact h.unused k (by omega)
  · intro context hcontext
    rw [hasked] at hcontext
    rcases List.mem_append.mp hcontext with hold | hcall
    · obtain ⟨cert', hcert'⟩ := h.contexts context hold
      exact ⟨cert', by
        rw [hrequests, List.getElem?_append_left (List.getElem?_eq_some_iff.mp hcert').1, hcert']⟩
    · obtain ⟨c, -, rfl⟩ := List.mem_map.mp hcall
      exact ⟨cert, hlast⟩
  · intro context hcontext
    rw [hasked]
    exact List.mem_append_left _ (h.asked context (hresults ▸ hcontext))
  · intro o ho
    rw [hrequests]
    by_cases heq : o = origin
    · exact ⟨(cert, origin), List.mem_append_right _ List.mem_cons_self, heq.symm⟩
    · rw [hanswers, if_neg heq, List.append_nil] at ho
      obtain ⟨request, hrequest, horigin⟩ := h.answered o ho
      exact ⟨request, List.mem_append_left _ hrequest, horigin⟩
  · rw [hrequests, List.map_append, List.nodup_append]
    refine ⟨h.origins, List.nodup_singleton _, fun o ho o' ho' => ?_⟩
    obtain ⟨request, hrequest, rfl⟩ := List.mem_map.mp ho
    rw [List.mem_singleton.mp ho']
    exact hnew request hrequest
  · intro k cert' o hk
    rw [view, hasked, hresults, hlookup, hanswers, certsFor_append]
    rcases Nat.lt_trichotomy k r.state.nextReqID with hlt | rfl | hgt
    -- an earlier request is not touched
    · rw [hrequests, List.getElem?_append_left (hn ▸ hlt)] at hk
      have ho : o ≠ origin := hnew _ (List.mem_of_getElem? hk)
      have hnil : certsFor (certs.map fun c => ⟨origin, r.state.nextReqID, c⟩) o = [] := by
        refine certsFor_eq_nil fun context hcontext => ?_
        obtain ⟨c, -, rfl⟩ := List.mem_map.mp hcontext
        exact ho.symm
      rw [if_neg hlt.ne, if_neg ho, hnil, List.append_nil, List.append_nil]
      exact h.followed k cert' o hk
    · obtain ⟨rfl, rfl⟩ := Prod.mk.inj (Option.some.inj (hlast.symm.trans hk))
      obtain ⟨hasked, hresults, hanswers⟩ := h.unnamed hnew
      rw [if_pos rfl, if_pos rfl, hasked, hresults, hanswers, certsFor_map]
      exact hfollowed
    · rw [List.getElem?_eq_none (by
        rw [hrequests, List.length_append, List.length_singleton]; omega)] at hk
      cases hk

/-- **A result keeps the invariant**: it moves the request it belongs to and no other. -/
theorem Inv.result (h : Inv crypto params r) (hcontext : context ∈ r.asked)
    (hnext : r'.state.nextReqID = r.state.nextReqID)
    (hlookup : ∀ k ≠ context.reqID,
      r'.state.requestState.lookup k = r.state.requestState.lookup k)
    (hrequests : r'.requests = r.requests) (hasked : r'.asked = r.asked)
    (hresults : r'.results = r.results ++ [context])
    (hanswers : ∀ o ≠ context.origin, r'.answers o = r.answers o)
    (hview : r'.view context.reqID context.origin = (r.view context.reqID context.origin).feed
      (sigsValid crypto params context.cert) context.cert) :
    Inv crypto params r' := by
  obtain ⟨cert, hcert⟩ := h.contexts context hcontext
  have hlt : context.reqID < r.requests.length := (List.getElem?_eq_some_iff.mp hcert).1
  constructor
  · rw [hnext, hrequests, h.next]
  · intro k hk
    rw [hrequests] at hk
    rw [hlookup k (by omega)]
    exact h.unused k hk
  · rw [hasked, hrequests]
    exact h.contexts
  · intro context' hcontext'
    rw [hresults] at hcontext'
    rw [hasked]
    rcases List.mem_append.mp hcontext' with hold | hnew
    · exact h.asked context' hold
    · exact List.mem_singleton.mp hnew ▸ hcontext
  · intro o ho
    rw [hrequests]
    by_cases heq : o = context.origin
    · exact ⟨_, List.mem_of_getElem? hcert, heq.symm⟩
    · exact h.answered o (hanswers o heq ▸ ho)
  · rw [hrequests]
    exact h.origins
  · intro k cert' o hk
    rw [hrequests] at hk
    have hfollowed := h.followed k cert' o hk
    by_cases hkey : k = context.reqID
    · subst hkey
      obtain ⟨rfl, rfl⟩ := Prod.mk.inj (Option.some.inj (hcert.symm.trans hk))
      rw [hview]
      exact hfollowed.feed (mem_certsFor hcontext)
    · -- another request has another name
      have ho : context.origin ≠ o := by
        intro ho
        have hlen : k < (r.requests.map Prod.snd).length := by
          rw [List.length_map]
          exact (List.getElem?_eq_some_iff.mp hk).1
        refine hkey ((List.getElem?_inj hlen h.origins).mp ?_)
        rw [List.getElem?_map, List.getElem?_map, hk, hcert, ← ho]
        rfl
      have hnil : certsFor [context] o = [] :=
        certsFor_eq_nil fun c hc => List.mem_singleton.mp hc ▸ ho
      rw [view, hasked, hresults, hlookup k hkey, hanswers o ho.symm, certsFor_append, hnil,
        List.append_nil]
      exact hfollowed

/-- A result changes one entry and gives verdicts to one requester, as it moves that request. -/
theorem uponSigsVerified_spec (state : VerificationState) (allOK : Bool)
    (context : VerifySigsInCertContext) : ∃ entry verdicts,
    (uponSigsVerified state allOK context).1.nextReqID = state.nextReqID ∧
    (∀ k, (uponSigsVerified state allOK context).1.requestState.lookup k =
      if k = context.reqID then entry else state.requestState.lookup k) ∧
    (uponSigsVerified state allOK context).2 = verdicts.map (fun valid =>
      .certVerified valid (if valid then none else some .invalidSignatures) context.origin) ∧
    ∀ asked results answers, RequestView.feed
      ⟨state.requestState.lookup context.reqID, asked, results, answers⟩ allOK context.cert =
        ⟨entry, asked, results ++ [context.cert], answers ++ verdicts⟩ := by
  cases hentry : state.requestState.lookup context.reqID with
  | none =>
    refine ⟨none, [], ?_⟩
    simp only [uponSigsVerified, RequestView.feed, hentry, List.append_nil, List.map_nil,
      implies_true, and_true, true_and]
    intro k
    split
    next hk => rw [hk, hentry]
    next => rfl
  | some request =>
    have herase : ∀ k, (state.requestState.erase context.reqID).lookup k =
        if k = context.reqID then none else state.requestState.lookup k := by
      intro k
      split
      next hk => rw [hk, AList.lookup_erase]
      next hk => exact AList.lookup_erase_ne hk
    cases allOK with
    | false =>
      refine ⟨none, [false], ?_⟩
      simp [uponSigsVerified, RequestView.feed, hentry, herase]
    | true =>
      simp only [uponSigsVerified, RequestView.feed, hentry, not_true_eq_false, if_false]
      split
      next => exact ⟨none, [true], rfl, herase, rfl, fun _ _ _ => rfl⟩
      next =>
        exact ⟨_, [], rfl, (GoMap.lookup_insert_eq _ _ · _), rfl,
          fun _ _ _ => by rw [List.append_nil]⟩

/-- **Every request of a run is followed.** -/
theorem Reachable.inv (h : Reachable crypto params r) : Inv crypto params r := by
  induction h with
  | init => exact inv_init
  | @step r event state out _ henabled hhandle ih =>
    cases event with
    | verifyCert cert origin =>
      have hother : ∀ k, r.state.requestState.lookup k =
          if k = r.state.nextReqID then none else r.state.requestState.lookup k := by
        intro k
        split
        next hk => exact ih.unused k (by rw [hk, ih.next])
        next => rfl
      rcases uponVerifyCert_cases crypto hhandle with
        ⟨valid, err, rfl, rfl, hvalid⟩ | ⟨certs, hcerts, hne, rfl, rfl⟩
      · refine ih.request henabled (.atOnce hvalid) rfl hother ?_ ?_ ?_ ?_
        · simp [requests]
        · simp [asked]
        · simp [results]
        · intro o
          by_cases ho : o = origin
          · simp [answers, ho]
          · simp [answers, ho, Ne.symm ho]
      · have hwaiting : Followed crypto params cert ⟨some (GoMap.ofKeys
            (certs.map MscCert.batchID) fun _ => false), certs, [], []⟩ := by
          refine .waiting hcerts (fun b => ?_) nofun ?_
          · simp [GoMap.lookup_ofKeys]
          · obtain ⟨c, hc⟩ := List.exists_mem_of_ne_nil certs hne
            exact ⟨c, hc, List.not_mem_nil⟩
        refine ih.request henabled hwaiting rfl (GoMap.lookup_insert_eq _ _ · _) ?_ ?_ ?_ ?_
        · simp [requests]
        · simp [asked, verifySigs, List.filterMap_map, Function.comp_def]
        · simp [results]
        · simp [answers, verifySigs, List.filterMap_map, Function.comp_def]
    | sigsVerified allOK context =>
      obtain ⟨houtstanding, rfl⟩ := henabled
      obtain ⟨entry, verdicts, hnext, hlookup, hout, hfeed⟩ :=
        uponSigsVerified_spec r.state (sigsValid crypto params context.cert) context
      rw [Except.ok.inj hhandle] at hnext hlookup hout
      subst hout
      have hanswers : ∀ o (events : List VerificationEvent), (⟨state, events, r.out ++ verdicts.map
          (fun valid => .certVerified valid (if valid then none else some .invalidSignatures)
            context.origin)⟩ : VerificationRun).answers o =
          r.answers o ++ if o = context.origin then verdicts else [] := by
        intro o events
        by_cases ho : o = context.origin
        · simp [answers, List.filterMap_map, ho]
        · simp [answers, List.filterMap_map, ho, Ne.symm ho]
      have hcert : certsFor [context] context.origin = [context.cert] :=
        certsFor_map [context.cert]
      refine ih.result houtstanding.mem hnext (fun k hk => ?_) ?_ ?_ ?_ (fun o ho => ?_) ?_
      · rw [hlookup, if_neg hk]
      · simp [requests]
      · simp [asked, List.filterMap_map]
      · simp [results]
      · rw [hanswers, if_neg ho, List.append_nil]
      · rw [view, view, hlookup, if_pos rfl, hanswers, if_pos rfl, hfeed]
        congr 1
        · simp [asked, List.filterMap_map]
        · rw [← hcert, ← certsFor_append]
          simp [results]

/-- A request of a run is followed under some number. -/
theorem Reachable.exists_followed (h : Reachable crypto params r)
    (hmem : .verifyCert cert origin ∈ r.events) :
    ∃ k, Followed crypto params cert (r.view k origin) := by
  have hrequest : (cert, origin) ∈ r.requests := List.mem_filterMap.mpr ⟨_, hmem, rfl⟩
  obtain ⟨k, hk⟩ := List.mem_iff_getElem?.mp hrequest
  exact ⟨k, h.inv.followed k cert origin hk⟩

/-- The crypto module may answer any of the outstanding calls, in any order. -/
theorem Reachable.exists_results (h : Reachable crypto params r)
    (contexts : List VerifySigsInCertContext)
    (hle : ∀ context, r.results.count context + contexts.count context ≤ r.asked.count context) :
    ∃ r', Reachable crypto params r' ∧ r'.asked = r.asked ∧ r'.results = r.results ++ contexts ∧
      r.events ⊆ r'.events := by
  induction contexts generalizing r with
  | nil => exact ⟨r, h, rfl, (List.append_nil _).symm, List.Subset.refl _⟩
  | cons context contexts ih =>
    have houtstanding : Outstanding r.asked r.results context := by
      have hcount := hle context
      rw [List.count_cons_self] at hcount
      rw [Outstanding]
      omega
    obtain ⟨-, verdicts, -, -, hout, -⟩ :=
      uponSigsVerified_spec r.state (sigsValid crypto params context.cert) context
    generalize hp : uponSigsVerified r.state (sigsValid crypto params context.cert) context = p
      at hout
    have hstep : Reachable crypto params ⟨p.1,
        r.events ++ [.sigsVerified (sigsValid crypto params context.cert) context], r.out ++ p.2⟩ :=
      h.step ⟨houtstanding, rfl⟩ (congrArg Except.ok hp)
    generalize hr₁ : (⟨p.1, _, _⟩ : VerificationRun) = r₁ at hstep
    have hasked : r₁.asked = r.asked := by
      rw [← hr₁, hout]
      simp [asked, List.filterMap_map]
    have hresults : r₁.results = r.results ++ [context] := by
      rw [← hr₁]
      simp [results]
    obtain ⟨r', hr', hasked', hresults', hevents⟩ := ih hstep fun other => by
      have hcount := hle other
      rw [List.count_cons] at hcount
      rw [hasked, hresults, List.count_append, List.count_singleton]
      omega
    refine ⟨r', hr', hasked'.trans hasked, ?_, fun event hevent => hevents ?_⟩
    · rw [hresults', hresults, List.append_assoc, List.singleton_append]
    · rw [← hr₁]
      exact List.mem_append_left _ hevent

end Inv

end VerificationRun

/-! ### Main result -/

section Verifies

open VerificationRun

variable {crypto : Crypto} {params : ModuleParams} {r : VerificationRun} {cert : Cert}
  {certs : List MscCert} {origin : VerifyCertOrigin}

/-- If every batch ID has a sub-certificate with valid signatures, all sub-certificates have. -/
def OneVerdict (crypto : Crypto) (params : ModuleParams) (certs : List MscCert) : Prop :=
  (∀ c ∈ certs, ∃ c' ∈ certs, c'.batchID = c.batchID ∧ sigsValid crypto params c' = true) →
    ∀ c ∈ certs, sigsValid crypto params c = true

instance : Decidable (OneVerdict crypto params certs) :=
  inferInstanceAs (Decidable (_ → _))

theorem genuine_iff (hcerts : verifyCertificateStructure params.membership cert = .ok (.ok certs)) :
    Genuine crypto params cert ↔ ∀ c ∈ certs, sigsValid crypto params c = true := by
  refine ⟨?_, fun h => ⟨certs, hcerts, h⟩⟩
  rintro ⟨certs', hcerts', h⟩
  cases hcerts.symm.trans hcerts'
  exact h

/-- A waiting request has an outstanding call. -/
theorem exists_outstanding {k : ℕ} {results : List MscCert} {m : GoMap BatchID Bool}
    (hview : r.view k origin = ⟨some m, certs, results, []⟩)
    (hsome : ∃ c ∈ certs, c.batchID ∉ results.map MscCert.batchID) :
    ∃ context, context.origin = origin ∧ Outstanding r.asked r.results context := by
  have hasked : certsFor r.asked origin = certs := congrArg RequestView.asked hview
  have hresults : certsFor r.results origin = results := congrArg RequestView.results hview
  obtain ⟨c, hc, hbatch⟩ := hsome
  rw [← hasked] at hc
  obtain ⟨context, hcontext, rfl, rfl⟩ := exists_mem_of_mem_certsFor hc
  refine ⟨context, rfl, ?_⟩
  by_contra hnot
  refine hbatch (List.mem_map_of_mem ?_)
  rw [← hresults]
  exact mem_certsFor (mem_of_not_outstanding hnot hcontext)

/-- **A certificate with one verdict for each batch ID is decided**, in every run. -/
theorem VerificationRun.Reachable.decides (hr : r.Reachable crypto params)
    (hmem : .verifyCert cert origin ∈ r.events)
    (hone : ∀ certs, verifyCertificateStructure params.membership cert = .ok (.ok certs) →
      OneVerdict crypto params certs) : Decides crypto params r cert origin := by
  obtain ⟨k, hfollowed⟩ := hr.exists_followed hmem
  generalize hview : r.view k origin = v at hfollowed
  have hanswers : r.answers origin = v.answers := congrArg RequestView.answers hview
  rcases hfollowed with hvalid | ⟨hcerts, -, -, hsome⟩ | ⟨hcerts, hall⟩ | ⟨hcerts, c, hc, -, hbad⟩
  · refine ⟨by simp [hanswers], fun _ => by simp [hanswers], ?_⟩
    simpa [hanswers] using hvalid
  · refine ⟨by simp [hanswers], fun hnone => ?_, by simp [hanswers]⟩
    obtain ⟨context, horigin, houtstanding⟩ := exists_outstanding hview hsome
    exact absurd houtstanding (hnone context horigin)
  · refine ⟨by simp [hanswers], fun _ => by simp [hanswers], ?_⟩
    simp only [hanswers, List.mem_singleton, forall_eq, true_iff]
    exact (genuine_iff hcerts).mpr (hone _ hcerts hall)
  · refine ⟨by simp [hanswers], fun _ => by simp [hanswers], ?_⟩
    simp only [hanswers, List.mem_singleton, forall_eq, genuine_iff hcerts]
    exact iff_of_false (by simp) fun h => absurd (h c hc) (by simp [hbad])

/-- A request is handled if the structure check completes. -/
theorem uponVerifyCert_completes {state : VerificationState}
    (h : Completes (verifyCertificateStructure params.membership cert)) :
    Completes (uponVerifyCert params state cert origin) := by
  obtain ⟨outcome, houtcome⟩ := h
  refine completes_bind_iff.mpr ⟨outcome, houtcome, ?_⟩
  cases outcome with
  | error e => exact completes_ok _
  | ok certs =>
    by_cases hnil : certs = []
    · simp [hnil]
    · simp [hnil]

/-- A certificate whose signatures are all valid is verified. -/
theorem Genuine.verifies (h : Genuine crypto params cert) : Verifies crypto params cert := by
  obtain ⟨certs, hcerts, hvalid⟩ := h
  refine fun r hr => ⟨fun origin _ => uponVerifyCert_completes ⟨_, hcerts⟩, fun origin hmem =>
    hr.decides hmem fun certs' hcerts' => ?_⟩
  cases hcerts.symm.trans hcerts'
  exact fun _ => hvalid

/-- The request is handled in the first step of a run. -/
theorem Verifies.completes (h : Verifies crypto params cert) :
    Completes (verifyCertificateStructure params.membership cert) := by
  obtain ⟨p, hhandle⟩ := (h _ .init).1 ⟨[], 0⟩ nofun
  obtain ⟨r, hr, -⟩ := bind_eq_ok.mp hhandle
  exact ⟨r, hr⟩

/-- The context of the first request's call for a sub-certificate. -/
def firstContext (c : MscCert) : VerifySigsInCertContext := ⟨⟨[], 0⟩, 0, c⟩

/-- A run in which the results with valid signatures come first. -/
theorem exists_valid_first (crypto : Crypto)
    (hcerts : verifyCertificateStructure params.membership cert = .ok (.ok certs))
    (hne : certs ≠ []) : ∃ r, Reachable crypto params r ∧ .verifyCert cert ⟨[], 0⟩ ∈ r.events ∧
      r.asked = certs.map firstContext ∧
      r.results = (certs.filter (sigsValid crypto params)).map firstContext := by
  have hhandle : handleVerification params init.state (.verifyCert cert ⟨[], 0⟩) =
      .ok (⟨1, (∅ : GoMap ℕ (GoMap BatchID Bool)).insert 0
        (GoMap.ofKeys (certs.map MscCert.batchID) fun _ => false)⟩,
        certs.map (verifySigs params ⟨[], 0⟩ 0)) := by
    rw [handleVerification, uponVerifyCert, hcerts, ok_bind]
    simp only [if_neg hne]
    rfl
  have hnew : init.Enabled crypto params (.verifyCert cert ⟨[], 0⟩) := fun _ h => nomatch h
  have hr₁ := Reachable.step .init hnew hhandle
  generalize hr : (⟨_, _, _⟩ : VerificationRun) = r₁ at hr₁
  have hmem : .verifyCert cert ⟨[], 0⟩ ∈ r₁.events := hr ▸ List.mem_append_right _ List.mem_cons_self
  have hasked : r₁.asked = certs.map firstContext := by
    rw [← hr]
    simp [asked, init, verifySigs, List.filterMap_map, Function.comp_def, firstContext]
  have hresults : r₁.results = [] := by rw [← hr]; rfl
  obtain ⟨r₂, hr₂, hasked₂, hresults₂, hevents₂⟩ :=
    hr₁.exists_results ((certs.filter (sigsValid crypto params)).map firstContext) fun context => by
      rw [hresults, List.count_nil, Nat.zero_add, hasked]
      exact (List.filter_sublist.map _).count_le context
  exact ⟨r₂, hr₂, hevents₂ hmem, hasked₂.trans hasked, by rw [hresults₂, hresults, List.nil_append]⟩

/-- If the results with valid signatures come first, the certificate is declared valid as soon as
every batch ID has one. -/
theorem Verifies.oneVerdict (h : Verifies crypto params cert)
    (hcerts : verifyCertificateStructure params.membership cert = .ok (.ok certs)) :
    OneVerdict crypto params certs := by
  intro hbatches
  rcases eq_or_ne certs [] with rfl | hne
  · exact nofun
  obtain ⟨r, hr, hmem, hasked, hresults⟩ := exists_valid_first crypto hcerts hne
  obtain ⟨k, hfollowed⟩ := hr.exists_followed hmem
  generalize hview : r.view k ⟨[], 0⟩ = v at hfollowed
  have hasked : v.asked = certs := by
    rw [← hview, view, hasked]
    exact certsFor_map certs
  have hresults : v.results = certs.filter (sigsValid crypto params) := by
    rw [← hview, view, hresults]
    exact certsFor_map _
  have hanswers : r.answers ⟨[], 0⟩ = v.answers := congrArg RequestView.answers hview
  cases hfollowed with
  | atOnce => exact absurd hasked.symm hne
  | @waiting certs' results _ _ _ _ hsome =>
    obtain rfl : certs' = certs := hasked
    obtain rfl : results = certs'.filter (sigsValid crypto params) := hresults
    -- a valid result for the batch ID has come in
    obtain ⟨c, hc, hnone⟩ := hsome
    obtain ⟨c', hc', hbatch, hok⟩ := hbatches c hc
    exact absurd (List.mem_map.mpr ⟨c', List.mem_filter.mpr ⟨hc', hok⟩, hbatch⟩) hnone
  | valid =>
    have hgenuine := (((h r hr).2 _ hmem).verdict true (by simp [hanswers])).mp rfl
    exact (genuine_iff hcerts).mp hgenuine
  | @invalid _ results _ hbad =>
    obtain rfl : results = certs.filter (sigsValid crypto params) := hresults
    obtain ⟨c, -, hc, hbad⟩ := hbad
    rw [(List.mem_filter.mp hc).2] at hbad
    cases hbad

end Verifies

/-- **Certificates are verified in every order of the results** if and only if the structure check
completes and no batch ID has both a sub-certificate with valid signatures and one without, unless
another batch ID has only the latter. -/
theorem verifies_iff (crypto : Crypto) (params : ModuleParams) (hm : params.membership.Readable)
    (cert : Cert) : Verifies crypto params cert ↔ ∀ certs, cert = some certs →
      ReachesMembers params.membership certs ∧
        ((∀ c ∈ certs, WellSigned params.membership c) → OneVerdict crypto params certs) := by
  constructor
  · rintro h certs rfl
    refine ⟨(verifyCertificateStructure_completes_iff hm).mp h.completes _ rfl, fun hsigned => ?_⟩
    exact h.oneVerdict ((verifyCertificateStructure_eq_ok_iff hm).mpr ⟨rfl, hsigned⟩)
  · intro h r hr
    refine ⟨fun origin _ => ?_, fun origin hmem => hr.decides hmem fun certs hcerts => ?_⟩
    · exact uponVerifyCert_completes ((verifyCertificateStructure_completes_iff hm).mpr
        fun certs hcerts => (h certs hcerts).1)
    · obtain ⟨hcert, hsigned⟩ := (verifyCertificateStructure_eq_ok_iff hm).mp hcerts
      exact (h certs hcert).2 hsigned

/-- Parameters of a collector with four members. -/
def fourParams : ModuleParams := ⟨[], .fourMembers, 1, 1, 0⟩

/-- A scheme whose valid signatures are `[1]`. -/
def oneCrypto : Crypto := ⟨id, fun _ signature _ => signature = [1]⟩

/-- A certificate signed by two of four members. -/
theorem verifies_two_signers :
    Verifies oneCrypto fourParams (some [⟨[7], [[97], [98]], [[1], [1]]⟩]) := by
  refine (verifies_iff oneCrypto fourParams Membership.fourMembers_proper.readable _).mpr ?_
  intro certs hcerts
  obtain rfl := Option.some.inj hcerts
  refine ⟨fun front c rest heq _ => ?_, fun _ => by decide +kernel⟩
  have hmem : c ∈ front ++ c :: rest := List.mem_append_right _ List.mem_cons_self
  rw [← heq, List.mem_singleton] at hmem
  rw [hmem]
  decide +kernel

/-- **A certificate with an invalid signature is declared valid**, if another sub-certificate for the
same batch ID has valid ones and its result comes first. -/
theorem duplicated_batch_id : ¬ ∀ (crypto : Crypto) (params : ModuleParams) (cert : Cert),
    params.membership.Readable → params.membership.NonNeg →
    Verifies crypto params cert := by
  intro h
  have hverifies := h oneCrypto fourParams
    (some [⟨[7], [[97], [98]], [[1], [1]]⟩, ⟨[7], [[97], [98]], [[0], [0]]⟩])
    Membership.fourMembers_proper.readable Membership.fourMembers_proper.nonNeg
  have haccepted : verifyCertificateStructure fourParams.membership
      (some [⟨[7], [[97], [98]], [[1], [1]]⟩, ⟨[7], [[97], [98]], [[0], [0]]⟩]) =
      .ok (.ok [⟨[7], [[97], [98]], [[1], [1]]⟩, ⟨[7], [[97], [98]], [[0], [0]]⟩]) := by
    decide +kernel
  exact absurd (hverifies.oneVerdict haccepted) (by decide +kernel)

end Mir.Availability
