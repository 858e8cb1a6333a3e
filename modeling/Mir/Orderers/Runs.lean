import Mir.Orderers.StepMicro

/-!
# Runs as sequences of elementary steps

The handlers of the view change in elementary steps, whole steps (`step_micros`), and the rule
for invariants of runs (`Reachable.induction`): what holds of the initial state and is kept by
every elementary step holds in every reachable state.
-/

namespace Mir.Orderers

open Fallible

variable {env : Env} {p : ModuleParams} {K : Guards} {o o' : Orderer} {ord : MapOrder} {ev : Event}
  {sender : NodeID}

/-! ### Starting a view change -/

theorem startViewChange_micros (h : startViewChange p o = .ok o') : Micros env p K o o' := by
  obtain ⟨o₁, hinit, h⟩ := bind_eq_ok.mp h
  obtain ⟨⟨pSet, qSet⟩, hsets, h⟩ := bind_eq_ok.mp h
  cases h
  exact Micros.emit (.single (.startView o o₁ hinit)) ⟨rfl, rfl, pSet, qSet, hsets, rfl, rfl⟩

theorem applyViewChangeSNTimeout_micros {view : ViewNr} {numCommitted : UInt64}
    (h : applyViewChangeSNTimeout p view numCommitted o = .ok o') : Micros env p K o o' := by
  unfold applyViewChangeSNTimeout at h
  split at h
  · obtain ⟨stable, -, h⟩ := bind_eq_ok.mp h
    exact Micros.of_check h fun _ => startViewChange_micros
  · cases h
    exact .refl

theorem applyViewChangeSegmentTimeout_micros {view : ViewNr}
    (h : applyViewChangeSegmentTimeout p view o = .ok o') : Micros env p K o o' := by
  unfold applyViewChangeSegmentTimeout at h
  split at h
  · obtain ⟨stable, -, h⟩ := bind_eq_ok.mp h
    exact Micros.of_check h fun _ => startViewChange_micros
  · cases h
    exact .refl

theorem uponSignResult_micros {signature : ByteSlice} {vc : ViewChange}
    (h : uponSignResult p signature vc o = .ok o') : Micros env p K o o' := by
  obtain ⟨primary, -, h⟩ := bind_eq_ok.mp h
  cases h
  exact Micros.emit .refl ⟨_, rfl⟩

/-! ### Collecting view changes -/

theorem applyMsgSignedViewChange_micros {svc : SignedViewChange}
    (hmem : sender ∈ p.segment.membership.nodes.keys)
    (hrcv : .messageReceived sender (.signedViewChange svc) ∈ o.log) :
    Micros env p K o (applyMsgSignedViewChange svc sender o) := by
  unfold applyMsgSignedViewChange
  split
  · exact .refl
  · split
    · exact .refl
    · next vc hvc => exact Micros.emit .refl ⟨vc, hvc, rfl, rfl, hmem, hrcv⟩

theorem applyVerifiedViewChange_micros {svc : SignedViewChange}
    (hmem : sender ∈ p.segment.membership.nodes.keys)
    (hsig : .sigVerified sender true svc ∈ o.log)
    (h : applyVerifiedViewChange ord p svc sender o = .ok o') : Micros env p K o o' := by
  obtain ⟨vc, hvc, h⟩ := bind_eq_ok.mp h
  rw [deref_eq_ok] at hvc
  refine Micros.of_check h fun hnew h => ?_
  obtain ⟨primary, hprimary, h⟩ := bind_eq_ok.mp h
  refine Micros.of_check h fun hown hrest => ?_
  rw [ne_eq, not_not] at hown
  subst hown
  dsimp only at hrest
  split at hrest
  · cases hrest
    exact .single (.viewChangeState o vc.view _ (.same (Or.inl hprimary)))
  · next hmore =>
    obtain ⟨vcState, hadd, h⟩ := bind_eq_ok.mp hrest
    have hadds : AddsViewChange env p o vc.view vcState :=
      ⟨Bool.not_eq_true _ ▸ hmore, hnew, hprimary, ord, svc, sender, vc, hvc, rfl, hsig, hmem, hadd⟩
    split at h
    · next henough =>
      cases h
      have hset := Micro.viewChangeState (K := K) o vc.view _ (.enough hadds henough)
      refine Micros.emit (.single hset) ⟨vcState, henough, ?_, rfl⟩
      exact AList.lookup_insert _
    · next hnot =>
      cases h
      exact .single (.viewChangeState o vc.view vcState (.add hadds (Bool.not_eq_true _ ▸ hnot)))

theorem uponSigVerified_micros {valid : Bool}
    {svc : SignedViewChange} (hlog : .sigVerified sender valid svc ∈ o.log)
    (h : uponSigVerified ord p sender valid svc o = .ok o') : Micros env p K o o' := by
  refine Micros.of_check h fun hok h => Micros.of_check h fun hmem => ?_
  rw [Bool.not_eq_false] at hok
  rw [not_not, p.membership_eq, Segment.mem_nodeIDs] at hmem
  exact applyVerifiedViewChange_micros hmem (hok ▸ hlog)

/-! ### Building the NewView -/

theorem askForMissingPreprepares_micros (vcState : PbftViewChangeState) (o : Orderer) :
    Micros env p K o (askForMissingPreprepares vcState o) := by
  unfold askForMissingPreprepares
  -- one request for each sequence number, in the order of the loop
  induction vcState.reproposals.keys generalizing o with
  | nil => exact .refl
  | cons sn sns ih =>
    refine Relation.ReflTransGen.trans ?_ (ih _)
    dsimp only
    split
    · exact Micros.emit .refl trivial
    · exact .refl

theorem sendNewView_micros {view : ViewNr} {vcState : PbftViewChangeState}
    (hlookup : o.state.viewChangeStates.lookup view = some vcState)
    (hall : vcState.hasAllPreprepares = true) : Micros env p K o (sendNewView p view vcState o) :=
  Micros.emit .refl ⟨vcState, hlookup, rfl, hall⟩

theorem uponEmptyPreprepareHashes_micros {data : List Bytes} {view : ViewNr}
    (hreq : .hashRequest data (.emptyPreprepares view) ∈ o.out)
    (h : uponEmptyPreprepareHashes p (data.map env.hash) view o = .ok o') :
    Micros env p K o o' := by
  refine Micros.of_check h fun _ h => ?_
  obtain ⟨vcState, hlookup, h⟩ := bind_eq_ok.mp h
  obtain ⟨vcState', hset, h⟩ := bind_eq_ok.mp h
  rw [deref_eq_ok] at hlookup
  have hstep := Micro.viewChangeState (p := p) (K := K) o view _ (.digests hlookup hreq hset)
  dsimp only at h
  split at h
  · next hall =>
    cases h
    exact .head hstep (sendNewView_micros (AList.lookup_insert _) hall)
  · cases h
    exact .head hstep (askForMissingPreprepares_micros _ _)

theorem applyMsgPreprepareRequest_micros (digest : ByteSlice) (sn : SeqNr) (sender : NodeID)
    (o : Orderer) : Micros env p K o (applyMsgPreprepareRequest digest sn sender o) := by
  unfold applyMsgPreprepareRequest
  split
  · exact .refl
  · exact Micros.emit .refl trivial

theorem applyMsgMissingPreprepare_micros {preprepare : Option Preprepare}
    (h : applyMsgMissingPreprepare preprepare o = .ok o') : Micros env p K o o' := by
  obtain ⟨vcState, hlatest, h⟩ := bind_eq_ok.mp h
  obtain ⟨pp, -, h⟩ := bind_eq_ok.mp h
  rw [deref_eq_ok] at hlatest
  refine Micros.of_check h fun _ h => ?_
  cases h
  exact Micros.emit .refl ⟨rfl, by rw [hlatest]; rfl⟩

theorem uponMissingPreprepareHashed_micros {pp : Preprepare} {data : Bytes}
    (hreq : .hashRequestOne data (.missingPreprepare pp) ∈ o.out)
    (h : uponMissingPreprepareHashed p (env.hash data) pp o = .ok o') : Micros env p K o o' := by
  obtain ⟨vcState, hsome, h⟩ := bind_eq_ok.mp h
  rw [deref_eq_ok] at hsome
  have hlatest : latestPendingVCState o.state = (some vcState, (latestPendingVCState o.state).2) :=
    Prod.ext hsome rfl
  generalize (latestPendingVCState o.state).2 = view at h hlatest
  refine Micros.of_check h fun hfree h => ?_
  rw [not_or, Bool.not_eq_true, Option.isSome_eq_false_iff, Option.isNone_iff_eq_none] at hfree
  have hupdate : VcUpdate env p o view
      (if ByteSlice.bytes ((vcState.reproposals.lookup pp.sn).getD none) = env.hash data then
        { vcState with
          preprepares := vcState.preprepares.insert pp.sn (some { pp with view := view }) }
      else vcState) := by
    split
    · next hdigest => exact .missing hlatest hreq hfree.1 hdigest
    · have hlookup := (latestPendingVCState_eq hlatest).1
      have hsame : getViewChangeState p o.state view = vcState := by
        rw [getViewChangeState, hlookup]
        rfl
      exact hsame ▸ .same (Or.inr ⟨vcState, hlookup⟩)
  dsimp only at h
  generalize (if ByteSlice.bytes ((vcState.reproposals.lookup pp.sn).getD none) = env.hash data
    then _ else vcState) = vcState' at h hupdate
  have hstep := Micro.viewChangeState (K := K) o view vcState' hupdate
  split at h
  · next hall =>
    cases h
    exact .head hstep (sendNewView_micros (AList.lookup_insert _) hall)
  · cases h
    exact .single hstep

/-! ### Entering a view through a NewView -/

/-- The data of the signatures, when every carried message has a ViewChange. -/
theorem mapM_signedBytes {svcs : List SignedViewChange} {data : List Bytes}
    (h : (svcs.mapM fun svc => do
      let vc ← deref svc.viewChange
      return vc.signedBytes : Fallible (List Bytes)) = .ok data) :
    svcs.mapM (fun svc => svc.viewChange.map ViewChange.signedBytes) = some data := by
  induction svcs generalizing data with
  | nil =>
    cases h
    rfl
  | cons svc svcs ih =>
    rw [List.mapM_cons] at h ⊢
    obtain ⟨d, hd, h⟩ := bind_eq_ok.mp h
    obtain ⟨vc, hvc, hret⟩ := bind_eq_ok.mp hd
    obtain ⟨ds, hds, h⟩ := bind_eq_ok.mp h
    rw [deref_eq_ok] at hvc
    cases hret
    cases h
    rw [hvc, ih hds]
    rfl

theorem applyMsgNewView_micros {nv : NewView}
    (hrcv : .messageReceived sender (.newView nv) ∈ o.log)
    (h : applyMsgNewView p nv sender o = .ok o') : Micros env p K o o' := by
  obtain ⟨primary, hprimary, h⟩ := bind_eq_ok.mp h
  refine Micros.of_check h fun hsender h => Micros.of_check h fun hlen hrest => ?_
  rw [ne_eq, not_not] at hsender hlen
  subst hsender
  obtain ⟨data, hdata, hret⟩ := bind_eq_ok.mp hrest
  cases hret
  exact Micros.emit .refl ⟨rfl, hlen, mapM_signedBytes hdata, rfl, sender, hprimary, hrcv⟩

theorem uponSigsVerified_micros {senders : List NodeID} {allOk : Bool} {nv : NewView}
    (hen : ∃ data sigs, .verifySigs data sigs senders nv ∈ o.out ∧
      allOk = env.verifyAll data sigs senders) (hlog : .sigsVerified senders allOk nv ∈ o.log) :
    Micros env p K o (uponSigsVerified p senders allOk nv o) := by
  obtain ⟨data, sigs, hreq, hok⟩ := hen
  unfold uponSigsVerified
  split
  · exact .refl
  · next hall =>
    rw [Bool.not_eq_false] at hall
    split
    · exact .refl
    · next hmem =>
      rw [not_not, p.membership_eq] at hmem
      refine Micros.emit .refl
        ⟨rfl, data, sigs, senders, hreq, hok ▸ hall, hall ▸ hlog, fun id hid => ?_⟩
      exact Segment.mem_nodeIDs.mp (hmem id hid)

/-- The messages of a buffer that are applied count as received, and those that stay were in the
buffer before. -/
theorem applyBuffer_micros (hb : BuffersSound p o)
    (h : applyBuffer p o sender = .ok o') : Micros env p K o o' := by
  unfold applyBuffer at h
  split at h
  · cases h
    exact .refl
  · next buffer hbuffer =>
    obtain ⟨⟨o₁, kept⟩, hiter, h⟩ := bind_eq_ok.mp h
    cases h
    have horigin : ∀ msg ∈ buffer.messages, BufferOrigin p o sender msg :=
      hb sender buffer hbuffer
    have happly : ∀ msg ∈ buffer.messages, ∀ t t', Micros env p K o t →
        bufferFilter t msg = .current → applyBufferedMsg p sender t msg = .ok t' →
        Micros env p K o t' := by
      intro msg hmsg t t' ht _ hstep
      exact ht.trans (applyBufferedMsg_micros (ht.buffersSound hb)
        ((horigin msg hmsg).mono ht.grows) hstep)
    obtain ⟨hms, hkept⟩ := MessageBuffer.iterate_induction .refl happly hiter
    have hb₁ := hms.buffersSound hb
    -- the senders with a buffer stay the same, whatever was applied in between
    have hkeys : sender ∈ o₁.state.messageBuffers.keys :=
      hms.mem_keys_messageBuffers.mpr (GoMap.mem_keys_iff.mpr ⟨buffer, hbuffer⟩)
    obtain ⟨buffer₁, hbuffer₁⟩ := GoMap.mem_keys_iff.mp hkeys
    exact hms.tail (.buffers o₁ _ (GoMap.mem_keys_insert_of_lookup hbuffer₁)
      (GoMap.forall_lookup_insert hb₁ fun msg hmsg => (horigin msg (hkept msg hmsg)).mono hms.grows))

theorem applyBuffers_micros {senders : List NodeID} (hb : BuffersSound p o)
    (h : senders.foldlM (applyBuffer p) o = .ok o') : Micros env p K o o' := by
  induction senders generalizing o with
  | nil =>
    cases h
    exact .refl
  | cons sender senders ih =>
    rw [List.foldlM_cons] at h
    obtain ⟨o₁, h₁, h⟩ := bind_eq_ok.mp h
    have hms : Micros env p K o o₁ := applyBuffer_micros hb h₁
    exact hms.trans (ih (hms.buffersSound hb) h)

/-- The Preprepares of an accepted NewView are handed to the validator in the primary's name. -/
theorem validatePreprepares_micros {nv : NewView} {primary : NodeID}
    (hprimary : p.segment.primaryNode nv.view = .ok primary) {pps : List Preprepare}
    (hpps : ∀ pp ∈ pps, pp ∈ nv.preprepares) (hacc : .accepted nv ∈ o.marks) :
    Micros env p K o (pps.foldl (fun o pp => applyMsgPreprepare pp primary o) o) := by
  induction pps generalizing o with
  | nil => exact .refl
  | cons pp pps ih =>
    have hmem := Segment.primaryNode_mem hprimary
    have hemit : Micro env p K o (applyMsgPreprepare pp primary o) :=
      .emit o _ ⟨hmem, Or.inr (Or.inl ⟨nv, hacc, hpps pp List.mem_cons_self, hprimary⟩)⟩
    exact .head hemit (ih (fun q hq => hpps q (List.mem_cons_of_mem _ hq)) hacc)

theorem enterNewView_micros {ord ord' : MapOrder} {nv : NewView} {data : List Bytes}
    (hb : BuffersSound p o) (hreq : .hashRequest data (.newView nv) ∈ o.out)
    (hacc : AcceptsNewView ord' p (data.map env.hash) nv o.state) (hK : K.newView o.state nv)
    (h : enterNewView ord p nv o = .ok o') : Micros env p K o o' := by
  obtain ⟨o₁, hinit, h⟩ := bind_eq_ok.mp h
  have henter : Micro env p K o
      ((o₁.withState { o₁.state with inViewChange := false }).mark (.accepted nv)) :=
    .newView o o₁ nv ord' data hreq hacc hK hinit
  obtain ⟨primary, hprimary, h⟩ := bind_eq_ok.mp h
  have hmarked : Mark.accepted nv ∈
      ((o₁.withState { o₁.state with inViewChange := false }).mark (.accepted nv)).marks :=
    List.mem_append_right _ (List.mem_singleton.mpr rfl)
  have hms := (Relation.ReflTransGen.single henter).trans
    (validatePreprepares_micros hprimary (fun _ hpp => hpp) hmarked)
  exact hms.trans (applyBuffers_micros (Micros.buffersSound hms hb) h)

theorem uponNewViewHashed_micros {nv : NewView} {data : List Bytes}
    (hb : BuffersSound p o) (hreq : .hashRequest data (.newView nv) ∈ o.out)
    (hK : AcceptsNewView ord p (data.map env.hash) nv o.state → K.newView o.state nv)
    (h : uponNewViewHashed ord p (data.map env.hash) nv o = .ok o') : Micros env p K o o' := by
  refine Micros.of_check h fun hview h => ?_
  obtain ⟨vcState, hfeed, h⟩ := bind_eq_ok.mp h
  split at h
  · next henough =>
    obtain ⟨matching, hmatch, h⟩ := bind_eq_ok.mp h
    cases matching with
    | false =>
      cases h
      exact .refl
    | true =>
      have hacc : AcceptsNewView ord p (data.map env.hash) nv o.state :=
        ⟨hview, vcState, hfeed, henough, hmatch⟩
      exact enterNewView_micros hb hreq hacc (hK hacc) h
  · cases h
    exact .refl

/-! ### Whole steps -/

/-- What the handlers rely on: buffered messages were received, and Preprepares are validated in
the name of members. -/
structure Sound (p : ModuleParams) (o : Orderer) : Prop where
  buffers : BuffersSound p o
  validated : ∀ pp sender, .validatePreprepare pp sender ∈ o.out →
    sender ∈ p.segment.membership.nodes.keys

theorem Micro.sound (h : Micro env p K o o') (hs : Sound p o) : Sound p o' := by
  refine ⟨h.buffersSound hs.buffers, fun pp sender hx => ?_⟩
  rcases h.mem_out hx with hold | hnew
  · exact hs.validated pp sender hold
  · cases hnew with
    | own horigin => exact horigin.1
    | slot _ hupdate => cases hupdate

theorem applyMessage_micros {msg : Message} (hs : Sound p o)
    (hrcv : .messageReceived sender msg ∈ o.log)
    (hK : ∀ digests, msg = .done digests → K.done o.log digests)
    (h : applyMessage p sender msg o = .ok o') : Micros env p K o o' := by
  refine Micros.of_check h fun hmem h => ?_
  rw [not_not, p.membership_eq, Segment.mem_nodeIDs] at hmem
  cases msg with
  | preprepare pp =>
    cases h
    exact Micros.emit .refl ⟨hmem, Or.inl hrcv⟩
  | prepare prepare => exact applyMsgPrepare_micros hs.buffers ⟨hmem, hrcv⟩ h
  | commit commit => exact applyMsgCommit_micros hs.buffers ⟨hmem, hrcv⟩ h
  | done digests => exact applyMsgDone_micros hmem hrcv (hK digests rfl) h
  | catchUpRequest digest sn =>
    cases h
    exact applyMsgCatchUpRequest_micros digest sn sender o
  | catchUpResponse resp =>
    cases h
    exact applyMsgCatchUpResponse_micros resp o
  | signedViewChange svc =>
    cases h
    exact applyMsgSignedViewChange_micros hmem hrcv
  | preprepareRequest digest sn =>
    cases h
    exact applyMsgPreprepareRequest_micros digest sn sender o
  | missingPreprepare pp => exact applyMsgMissingPreprepare_micros h
  | newView nv => exact applyMsgNewView_micros hrcv h

/-- Once it is logged, an event is handled by a sequence of elementary steps, whether or not the
guards let it be consumed. -/
theorem handle_micros (hs : Sound p o) (hen : Enabled env p o ev)
    (hK : Guards.onStep { K with event := fun _ => True } p o ord ev)
    (h : step ord p o ev = .ok o') : Micros env p K { o with log := o.log ++ [ev] } o' := by
  have hlog : Micro env p .none o { o with log := o.log ++ [ev] } := .log o ev hen trivial
  have hs' : Sound p { o with log := o.log ++ [ev] } := hlog.sound hs
  replace hK := hK.2
  have hlast : ev ∈ o.log ++ [ev] := List.mem_append_right _ (List.mem_singleton.mpr rfl)
  have hproposing (hp : ev.proposes = true) :
      ({ o with log := o.log ++ [ev] } : Orderer).Proposing :=
    ⟨ev, List.getLast?_concat, hp⟩
  cases ev with
  | messageReceived sender msg =>
    refine applyMessage_micros hs' hlast ?_ h
    rintro digests rfl
    exact hK
  | proposeTimeout numProposals => exact applyProposeTimeout_micros (hproposing rfl) h
  | viewChangeSNTimeout view numCommitted => exact applyViewChangeSNTimeout_micros h
  | viewChangeSegTimeout view => exact applyViewChangeSegmentTimeout_micros h
  | newCert cert => exact uponNewCert_micros (hproposing rfl) h
  | preprepareValidated valid pp sender =>
    refine applyMsgPreprepareValidated_micros hs'.buffers ⟨hs.validated pp sender hen, hen⟩ ?_ h
    rintro rfl
    exact hK
  | hashResultOne digest ctx =>
    obtain ⟨data, hreq, rfl⟩ := hen
    cases ctx with
    | preprepare pp => exact uponPreprepareHashed_micros hreq hK h
    | catchUpResponse pp => exact uponCatchUpHashed_micros hreq h
    | missingPreprepare pp => exact uponMissingPreprepareHashed_micros hreq h
  | hashResult digests ctx =>
    obtain ⟨data, hreq, rfl⟩ := hen
    cases ctx with
    | emptyPreprepares view => exact uponEmptyPreprepareHashes_micros hreq h
    | newView nv => exact uponNewViewHashed_micros hs'.buffers hreq hK h
  | signResult signature vc => exact uponSignResult_micros h
  | sigVerified sender valid svc => exact uponSigVerified_micros hlast h
  | sigsVerified senders allOk nv =>
    cases h
    exact uponSigsVerified_micros hen hlast

/-- **Every step is a sequence of elementary steps.** -/
theorem step_micros (hs : Sound p o) (hen : Enabled env p o ev)
    (hK : K.onStep p o ord ev) (h : step ord p o ev = .ok o') : Micros env p K o o' :=
  .head (.log o ev hen hK.1) (handle_micros hs hen ⟨trivial, hK.2⟩ h)

/-- The guards that let no event be consumed: those of the elementary steps behind the first one. -/
def Guards.noEvent : Guards := { Guards.none with event := fun _ => False }

/-- A handler consumes no further event. -/
theorem step_micros_noEvent (hs : Sound p o)
    (hen : Enabled env p o ev) (h : step ord p o ev = .ok o') :
    Micros env p .noEvent { o with log := o.log ++ [ev] } o' :=
  handle_micros hs hen (Guards.none_onStep p o ord ev) h

theorem Micros.log_eq (h : Micros env p .noEvent o o') : o'.log = o.log := by
  induction h with
  | refl => rfl
  | tail _ hstep ih =>
    rcases hstep.log_cases with hsame | ⟨_, _, _, hno⟩
    · exact hsame.trans ih
    · exact hno.elim

/-- **A step consumes one event.** -/
theorem log_step (hs : Sound p o) (hen : Enabled env p o ev)
    (h : step ord p o ev = .ok o') : o'.log = o.log ++ [ev] :=
  (step_micros_noEvent hs hen h).log_eq

/-! ### Invariants of runs -/

/-- The states reached by elementary steps, among them those between two steps. -/
inductive MReachable (env : Env) (p : ModuleParams) (K : Guards) : Orderer → Prop
  | init {o : Orderer} (h : initOrderer p = .ok o) : MReachable env p K o
  | micro {o o' : Orderer} (hr : MReachable env p K o) (h : Micro env p K o o') :
      MReachable env p K o'

theorem MReachable.micros (hr : MReachable env p K o) (h : Micros env p K o o') :
    MReachable env p K o' := by
  induction h with
  | refl => exact hr
  | tail _ hstep ih => exact .micro ih hstep

/-- The initial state: slots for view zero, nothing received, and timers emitted. -/
theorem initOrderer_cases (h : initOrderer p = .ok o) :
    ∃ o₁, initView p 0 ⟨newState p, [], [], []⟩ = .ok o₁ ∧
      o = o₁.emit (.timerDelay p.config.maxProposeDelay (.proposeTimeout 1)) := by
  obtain ⟨o₁, h₁, h⟩ := bind_eq_ok.mp h
  cases h
  exact ⟨o₁, h₁, rfl⟩

theorem mem_out_initOrderer (h : initOrderer p = .ok o) {x : Output} (hx : x ∈ o.out) :
    ∃ delay event, x = .timerDelay delay event := by
  obtain ⟨o₁, h₁, rfl⟩ := initOrderer_cases h
  obtain ⟨xs, hout, htimers⟩ := (initView_frame h₁).out
  rw [Orderer.emit_out, hout] at hx
  exact forall_mem_concat htimers ⟨_, _, rfl⟩ x hx

theorem initOrderer_history (h : initOrderer p = .ok o) : o.log = [] ∧ o.marks = [] := by
  obtain ⟨o₁, h₁, rfl⟩ := initOrderer_cases h
  exact ⟨(initView_frame h₁).log, (initView_frame h₁).marks⟩

theorem sound_of_init (h : initOrderer p = .ok o) : Sound p o := by
  constructor
  · intro sender buffer hlookup msg hmsg
    obtain ⟨o₁, h₁, rfl⟩ := initOrderer_cases h
    rw [Orderer.emit_state, (initView_frame h₁).messageBuffers] at hlookup
    simp only [newState, MessageBuffer.newBuffers, GoMap.lookup_ofKeys] at hlookup
    split at hlookup
    · cases hlookup
      cases hmsg
    · cases hlookup
  · intro pp sender hx
    obtain ⟨_, _, hx⟩ := mem_out_initOrderer h hx
    cases hx

theorem MReachable.sound (h : MReachable env p K o) : Sound p o := by
  induction h with
  | init h => exact sound_of_init h
  | micro _ hstep ih => exact hstep.sound ih

/-- Events whose origin lies in the history only. -/
def Output.Historical : Output → Prop
  | .validatePreprepare _ _ => True
  | .verifySig _ _ _ _ => True
  | .verifySigs _ _ _ _ => True
  | .hashRequest _ (.newView _) => True
  | _ => False

theorem Origin.mono (hg : Grows o o') {x : Output} (hx : x.Historical) (h : Origin env p o x) :
    Origin env p o' x := by
  cases x with
  | validatePreprepare pp sender =>
    refine ⟨h.1, ?_⟩
    rcases h.2 with hrcv | ⟨nv, hacc, hpp⟩ | hold
    · exact Or.inl (hg.log.subset hrcv)
    · exact Or.inr (Or.inl ⟨nv, hg.marks.subset hacc, hpp⟩)
    · exact Or.inr (Or.inr (hg.out.subset hold))
  | verifySig data sig sender svc =>
    obtain ⟨vc, hvc, hdata, hsig, hmem, hrcv⟩ := h
    exact ⟨vc, hvc, hdata, hsig, hmem, hg.log.subset hrcv⟩
  | verifySigs data sigs senders nv =>
    obtain ⟨hsenders, hlen, hdata, hsigs, sender, hprimary, hrcv⟩ := h
    exact ⟨hsenders, hlen, hdata, hsigs, sender, hprimary, hg.log.subset hrcv⟩
  | hashRequest data ctx =>
    cases ctx with
    | emptyPreprepares => exact hx.elim
    | newView nv =>
      obtain ⟨hdata, vdata, sigs, senders, hreq, hverified, hlog, hmem⟩ := h
      exact ⟨hdata, vdata, sigs, senders, hg.out.subset hreq, hverified, hg.log.subset hlog, hmem⟩
  | _ => exact hx.elim

/-- **Requests keep their origin.** -/
theorem MReachable.origin (h : MReachable env p K o) {x : Output} (hx : x ∈ o.out)
    (hh : x.Historical) : Origin env p o x := by
  induction h with
  | init h =>
    obtain ⟨_, _, rfl⟩ := mem_out_initOrderer h hx
    exact hh.elim
  | micro _ hstep ih =>
    refine Origin.mono hstep.grows hh ?_
    rcases hstep.mem_out hx with hold | hnew
    · exact ih hold
    · cases hnew with
      | own horigin => exact horigin
      | slot _ hupdate =>
        cases hupdate
        all_goals exact hh.elim
      | timer => exact hh.elim
      | done => exact hh.elim
      | deliver => exact hh.elim

/-- **Runs are made of elementary steps**: the states of a run whose steps meet the guards are
reached by elementary steps. -/
theorem Reachable.mReachable (h : Reachable env p (K.onStep p) o) : MReachable env p K o := by
  induction h with
  | init h => exact .init h
  | step _ hen hC hs ih => exact ih.micros (step_micros ih.sound hen hC hs)

theorem MReachable.micros_of_steps (h : MReachable env p K o)
    (hs : Steps env p (K.onStep p) o o') : Micros env p K o o' := by
  induction hs with
  | refl => exact .refl
  | tail _ hstep ih =>
    obtain ⟨ord, ev, hen, hC, hs⟩ := hstep
    exact ih.trans (step_micros (h.micros ih).sound hen hC hs)

end Mir.Orderers
