import Mir.Orderers.Completion

/-!
# A leader does not equivocate

A leader decides to propose when a timeout fires, but where it has to wait for a certificate it
proposes only when that arrives, without testing again whether it may. `InOrder` is what makes this
safe: while a certificate is outstanding nothing else is proposed, so there is still a sequence
number for it, and it is discarded once the node has left view zero.

`noEquivocation_of_reachable` puts this together for every run of a node: the Preprepare messages
it sends are for a prefix of the segment's sequence numbers, one each, in order and in view zero.
-/

namespace Mir.Orderers

variable {env : Env} {p : ModuleParams} {K : Guards} {o o' : Orderer}

/-! ### What a node proposes -/

/-- The Preprepare in a Preprepare message. -/
def Message.preprepare? : Message → Option Preprepare
  | .preprepare pp => some pp
  | _ => none

/-- The Preprepares a node has sent. -/
def Orderer.proposed (o : Orderer) : List Preprepare := o.sent.filterMap Message.preprepare?

/-- The number of certificates a node has requested. -/
def Orderer.certRequests (o : Orderer) : ℕ := (o.out.filter fun x => x matches .requestCert).length

/-- The number of certificates a node has received. -/
def Orderer.certsReceived (o : Orderer) : ℕ :=
  (o.log.filter fun ev => ev matches .newCert _).length

theorem mem_preprepare? {msg : Message} {pp : Preprepare} (h : msg.preprepare? = some pp) :
    msg = .preprepare pp := by
  cases msg with
  | preprepare pp' =>
    cases h
    rfl
  | _ => cases h

/-- Emitting events that neither propose nor request a certificate. -/
theorem proposed_append {xs : List Output} (heq : o'.out = o.out ++ xs)
    (hxs : ∀ x ∈ xs, x ≠ .requestCert ∧ ∀ pp, .preprepare pp ∉ x.messages) :
    o'.proposed = o.proposed ∧ o'.certRequests = o.certRequests := by
  constructor
  · have hnone : (xs.flatMap Output.messages).filterMap Message.preprepare? = [] := by
      refine List.filterMap_eq_nil_iff.mpr fun msg hmsg => ?_
      obtain ⟨x, hx, hmem⟩ := List.mem_flatMap.mp hmsg
      refine Option.eq_none_iff_forall_ne_some.mpr fun pp hpp => ?_
      exact (hxs x hx).2 pp (mem_preprepare? hpp ▸ hmem)
    rw [Orderer.proposed, Orderer.sent, heq, List.flatMap_append, List.filterMap_append, hnone,
      List.append_nil]
    rfl
  · have hnone : xs.filter (fun x => x matches .requestCert) = [] := by
      refine List.filter_eq_nil_iff.mpr fun x hx hreq => (hxs x hx).1 ?_
      split at hreq
      · rfl
      · cases hreq
    rw [Orderer.certRequests, heq, List.filter_append, hnone, List.append_nil]
    rfl

/-- A node that handles another event neither proposes nor requests a certificate. -/
theorem EmitOrigin.not_proposing {x : Output} (h : EmitOrigin env p K o o' x)
    (hq : ¬ o.Proposing) : x ≠ .requestCert ∧ ∀ pp, .preprepare pp ∉ x.messages := by
  constructor
  · rintro rfl
    cases h with
    | own horigin => exact hq horigin
    | slot _ hupdate => cases hupdate
  · intro pp hpp
    obtain ⟨-, -, -, hproposing⟩ | hno | ⟨_, _, _, _, _, -, hupdate, -⟩ := h.message_cases hpp
    · exact hq hproposing
    · exact hno
    · cases hupdate

/-- The state of proposing changes only on the events that may make a node propose. -/
theorem Micro.proposal_eq (h : Micro env p K o o') (hq : ¬ o.Proposing) :
    o'.state.proposal = o.state.proposal := by
  cases h with
  | proposal proposal hcert hev => exact absurd hev hq
  | slot sn slot slot' m x =>
    rw [Orderer.record_state]
    rfl
  | decide sn slot slot' m pp timer =>
    obtain ⟨chkp, xs, heq, -⟩ := deliver_spec p sn pp timer (Orderer.mark _ m)
    rw [heq]
    rfl
  | startView _ h | newView o₁ nv ord data _ _ _ h => exact (initView_frame h).proposal
  | log | emit | buffers | viewChangeState | nodeDone | catchingUp => rfl

/-- **Other events leave proposing alone.** -/
theorem Micros.proposal_eq (h : Micros env p .noEvent o o') (hq : ¬ o.Proposing) :
    o'.state.proposal = o.state.proposal ∧ o'.proposed = o.proposed ∧
      o'.certRequests = o.certRequests := by
  induction h with
  | refl => exact ⟨rfl, rfl, rfl⟩
  | @tail o₁ _ hms hstep ih =>
    -- the event being handled is still the same
    have hq' : ¬ o₁.Proposing := by
      rw [Orderer.Proposing, Micros.log_eq hms]
      exact hq
    obtain ⟨xs, heq, hxs⟩ := hstep.out_append
    obtain ⟨hproposed, hrequests⟩ := proposed_append heq fun x hx => (hxs x hx).not_proposing hq'
    exact ⟨(hstep.proposal_eq hq').trans ih.1, hproposed.trans ih.2.1, hrequests.trans ih.2.2⟩

/-! ### Proposing in order -/

/-- What holds between two steps: the proposals so far, and the one certificate that may be
outstanding. -/
structure InOrder (p : ModuleParams) (o : Orderer) : Prop where
  proposed : o.proposed.map Preprepare.sn = p.segment.seqNrs.take o.state.proposal.proposalsMade
  made : o.state.proposal.proposalsMade ≤ p.segment.seqNrs.length
  view : ∀ pp ∈ o.proposed, pp.view = 0
  requests : o.certRequests = o.certsReceived + o.state.proposal.certRequested.toNat
  /-- There is a sequence number left for the certificate. -/
  pending : o.state.proposal.certRequested = true →
    o.state.proposal.proposalsMade < p.segment.seqNrs.length

theorem inOrder_init (h : initOrderer p = .ok o) : InOrder p o := by
  have hproposal : o.state.proposal = ⟨0, false, 0, 0⟩ := by
    obtain ⟨o₁, h₁, rfl⟩ := initOrderer_cases h
    exact (initView_frame h₁).proposal
  have hsent : o.proposed = [] := by
    refine List.filterMap_eq_nil_iff.mpr fun msg hmsg => ?_
    exact absurd hmsg (not_mem_sent_initOrderer h msg)
  have hrequests : o.certRequests = 0 := by
    refine List.length_eq_zero_iff.mpr (List.filter_eq_nil_iff.mpr fun x hx hreq => ?_)
    obtain ⟨_, _, rfl⟩ := mem_out_initOrderer h hx
    cases hreq
  have hreceived : o.certsReceived = 0 := by
    rw [Orderer.certsReceived, (initOrderer_history h).1]
    rfl
  constructor
  · rw [hsent, hproposal]
    rfl
  · rw [hproposal]
    exact Nat.zero_le _
  · rw [hsent]
    exact fun pp hpp => absurd hpp List.not_mem_nil
  · rw [hrequests, hreceived, hproposal]
    rfl
  · rw [hproposal]
    exact nofun

/-- The proposals stay in order where neither they nor the certificates change. -/
theorem InOrder.of_eq (h : InOrder p o) (hproposed : o'.proposed = o.proposed)
    (hrequests : o'.certRequests = o.certRequests) (hreceived : o'.certsReceived = o.certsReceived)
    (hmade : o'.state.proposal.proposalsMade = o.state.proposal.proposalsMade)
    (hcert : o'.state.proposal.certRequested = o.state.proposal.certRequested) : InOrder p o' := by
  constructor
  · rw [hproposed, hmade]
    exact h.proposed
  · rw [hmade]
    exact h.made
  · rw [hproposed]
    exact h.view
  · rw [hrequests, hreceived, hcert]
    exact h.requests
  · rw [hcert, hmade]
    exact h.pending

/-- What a step adds to the proposals: nothing, or one Preprepare in view zero, outside of a view
change. -/
def Extends (o o' : Orderer) : Prop :=
  o'.proposed = o.proposed ∨
    o.state.view = 0 ∧ o.state.inViewChange = false ∧ ∃ pp, o'.proposed = o.proposed ++ [pp]

/-- **Proposing for the next sequence number.** -/
theorem InOrder.propose (h : InOrder p o) (hview : o.state.view = 0)
    (hcert : o.state.proposal.certRequested = false)
    (hlt : o.state.proposal.proposalsMade < p.segment.seqNrs.length) (data : Bytes) :
    ∃ o', propose p data o = .ok o' ∧ InOrder p o' ∧ ∃ pp, o'.proposed = o.proposed ++ [pp] := by
  have hindex : index p.segment.seqNrs o.state.proposal.proposalsMade =
      .ok p.segment.seqNrs[o.state.proposal.proposalsMade] :=
    index_eq_ok.mpr (List.getElem?_eq_getElem hlt)
  rw [Orderers.propose, hindex, Fallible.ok_bind]
  refine ⟨_, rfl, ?_⟩
  -- the timer that is set next carries no message
  have hproposed : ∀ s x, ((o.withState s).emit x |>.emit (.timerDelay p.config.maxProposeDelay
      (.proposeTimeout (UInt64.ofNat (o.state.proposal.proposalsMade + 1 + 1))))).proposed =
        o.proposed ++ x.messages.filterMap Message.preprepare? := by
    intro s x
    simp [Orderer.proposed, Orderer.sent, Output.messages]
  refine ⟨⟨?_, hlt, ?_, ?_, ?_⟩, _, hproposed _ _⟩
  · rw [hproposed, List.map_append, h.proposed]
    exact List.take_append_getElem hlt
  · rw [hproposed]
    exact forall_mem_concat h.view hview
  · have hrequests := h.requests
    simpa [Orderer.certRequests, Orderer.certsReceived] using hrequests
  · intro hreq
    rw [Orderer.emit_state, Orderer.emit_state, Orderer.withState_state, hcert] at hreq
    cases hreq

/-- Requesting a certificate for the next sequence number. -/
theorem InOrder.requestNewCert (h : InOrder p o) (hcert : o.state.proposal.certRequested = false)
    (hlt : o.state.proposal.proposalsMade < p.segment.seqNrs.length) :
    InOrder p (requestNewCert o) ∧ (requestNewCert o).proposed = o.proposed := by
  have hproposed : (Orderers.requestNewCert o).proposed = o.proposed := by
    simp [Orderers.requestNewCert, Orderer.proposed, Orderer.sent, Output.messages]
  refine ⟨⟨?_, h.made, ?_, ?_, fun _ => hlt⟩, hproposed⟩
  · rw [hproposed]
    exact h.proposed
  · rw [hproposed]
    exact h.view
  · have hrequests := h.requests
    rw [hcert] at hrequests
    simpa [Orderers.requestNewCert, Orderer.certRequests, Orderer.certsReceived] using hrequests

/-! ### The steps that may propose -/

theorem InOrder.applyProposeTimeout (h : InOrder p o) (numProposals : ℤ) :
    ∃ o', applyProposeTimeout p numProposals o = .ok o' ∧ InOrder p o' ∧ Extends o o' := by
  unfold Orderers.applyProposeTimeout
  split
  · -- the timeout is noted
    have h₁ : InOrder p (o.withState { o.state with
        proposal := { o.state.proposal with proposalTimeout := numProposals } }) :=
      h.of_eq rfl rfl rfl rfl rfl
    dsimp only
    split
    · next hcan =>
      simp only [canPropose, Orderer.withState_state, Bool.and_eq_true, beq_iff_eq,
        Bool.not_eq_true'] at hcan
      obtain ⟨⟨⟨⟨⟨-, hview⟩, hcert⟩, hlt⟩, -⟩, hivc⟩ := hcan
      replace hlt := of_decide_eq_true hlt
      rw [← p.segment.length_seqNrs] at hlt
      have hindex : index p.segment.seqNrs o.state.proposal.proposalsMade =
          .ok p.segment.seqNrs[o.state.proposal.proposalsMade] :=
        index_eq_ok.mpr (List.getElem?_eq_getElem hlt)
      rw [Orderer.withState_state, hindex, Fallible.ok_bind]
      split
      · next proposal _ =>
        obtain ⟨o', ho', hin, hpp⟩ := h₁.propose hview hcert hlt proposal
        exact ⟨o', ho', hin, Or.inr ⟨hview, hivc, hpp⟩⟩
      · obtain ⟨hin, hproposed⟩ := h₁.requestNewCert hcert hlt
        exact ⟨_, rfl, hin, Or.inl hproposed⟩
    · exact ⟨_, rfl, h₁, Or.inl rfl⟩
  · exact ⟨o, rfl, h, Or.inl rfl⟩

/-- A certificate that arrives was requested; unless the node has left view zero, it is proposed. -/
theorem InOrder.uponNewCert (h : InOrder p o) {cert : Bytes}
    (hen : o.certsReceived < o.certRequests)
    (hcertView : o.state.proposal.certRequestedView = 0)
    (hivc : o.state.view = 0 → o.state.inViewChange = false) :
    ∃ o', uponNewCert p cert { o with log := o.log ++ [.newCert cert] } = .ok o' ∧ InOrder p o' ∧
      Extends o o' := by
  have hrequests := h.requests
  have hcert : o.state.proposal.certRequested = true := by
    cases hreq : o.state.proposal.certRequested with
    | true => rfl
    | false =>
      rw [hreq, Bool.toNat_false] at hrequests
      omega
  -- the certificate is no longer outstanding
  have h₁ : InOrder p (Orderer.withState { o with log := o.log ++ [.newCert cert] } { o.state with
      proposal := { o.state.proposal with certRequested := false } }) := by
    refine ⟨h.proposed, h.made, h.view, ?_, nofun⟩
    rw [hcert] at hrequests
    simpa [Orderer.certRequests, Orderer.certsReceived] using hrequests
  unfold Orderers.uponNewCert
  dsimp only
  split
  · next hview =>
    have hzero : o.state.view = 0 := hview.symm.trans hcertView
    obtain ⟨o', ho', hin, hpp⟩ := h₁.propose hzero rfl (h.pending hcert) cert
    exact ⟨o', ho', hin, Or.inr ⟨hzero, hivc hzero, hpp⟩⟩
  · exact ⟨_, rfl, h₁, Or.inl rfl⟩

/-- **The steps that may propose complete**, and keep the proposals in order. -/
theorem InOrder.proposing_step (h : InOrder p o) (hr : MReachable env p K o) {ord : MapOrder}
    {ev : Event} (hen : Enabled env p o ev) (hev : ev.proposes = true) :
    ∃ o', step ord p o ev = .ok o' ∧ InOrder p o' ∧ Extends o o' := by
  cases ev with
  | proposeTimeout numProposals =>
    have hlog : InOrder p { o with log := o.log ++ [.proposeTimeout numProposals] } := by
      refine h.of_eq rfl rfl ?_ rfl rfl
      simp [Orderer.certsReceived]
    exact hlog.applyProposeTimeout _
  | newCert cert => exact h.uponNewCert hen hr.certRequestedView hr.not_inViewChange_zero
  | _ => cases hev

/-- The other steps change no proposals. -/
theorem InOrder.other_step (h : InOrder p o) (hs : Sound p o) {ord : MapOrder} {ev : Event}
    (hen : Enabled env p o ev) (hev : ev.proposes = false) (hstep : step ord p o ev = .ok o') :
    InOrder p o' ∧ o'.proposed = o.proposed := by
  have hq : ¬ ({ o with log := o.log ++ [ev] } : Orderer).Proposing := by
    rintro ⟨ev', hlast, hproposes⟩
    rw [List.getLast?_concat, Option.mem_some_iff] at hlast
    rw [← hlast, hev] at hproposes
    cases hproposes
  obtain ⟨hproposal, hproposed, hrequests⟩ :=
    Micros.proposal_eq (step_micros_noEvent hs hen hstep) hq
  have hreceived : o'.certsReceived = o.certsReceived := by
    rw [Orderer.certsReceived, log_step hs hen hstep, List.filter_append, List.length_append]
    cases ev with
    | newCert => cases hev
    | _ => rfl
  exact ⟨h.of_eq hproposed hrequests hreceived (congrArg _ hproposal) (congrArg _ hproposal),
    hproposed⟩

theorem InOrder.step (h : InOrder p o) (hr : MReachable env p K o) {ord : MapOrder} {ev : Event}
    (hen : Enabled env p o ev) (hstep : step ord p o ev = .ok o') :
    InOrder p o' ∧ Extends o o' := by
  cases hev : ev.proposes with
  | true =>
    obtain ⟨o₁, ho₁, hin, hext⟩ := h.proposing_step hr hen hev
    obtain rfl : o₁ = o' := Except.ok.inj (ho₁.symm.trans hstep)
    exact ⟨hin, hext⟩
  | false =>
    obtain ⟨hin, hproposed⟩ := h.other_step hr.sound hen hev hstep
    exact ⟨hin, Or.inl hproposed⟩

theorem Reachable.inOrder (h : Reachable env p (K.onStep p) o) : InOrder p o := by
  induction h with
  | init h => exact inOrder_init h
  | step hr hen _ hs ih => exact (ih.step hr.mReachable hen hs).1

/-! ### No equivocation -/

/-- A node does not equivocate in view zero. -/
structure NoEquivocation (env : Env) (p : ModuleParams) (o : Orderer) : Prop where
  /-- The proposals are for the first sequence numbers of the segment, in order. -/
  seqNrs : o.proposed.map Preprepare.sn <+: p.segment.seqNrs
  distinct : (o.proposed.map Preprepare.sn).Nodup
  view : ∀ pp ∈ o.proposed, pp.view = 0
  /-- At most one certificate is outstanding, and there is a sequence number for it. -/
  outstanding : o.certRequests ≤ o.certsReceived + 1
  pending : o.state.proposal.certRequested = true →
    o.state.proposal.proposalsMade < p.segment.seqNrs.length
  /-- The handlers that propose complete: the index they read is in range. -/
  inRange : ∀ ord ev, Enabled env p o ev → ev.proposes = true →
    Fallible.Completes (step ord p o ev)
  /-- A step adds at most one proposal, and none during a view change. -/
  extended : ∀ ord ev o', Enabled env p o ev → step ord p o ev = .ok o' → Extends o o'

/-- **A correct leader never equivocates in view zero**, in any run and whatever it receives. -/
theorem noEquivocation_of_reachable (env : Env) (p : ModuleParams) (o : Orderer)
    (h : Reachable env p anyStep o) : NoEquivocation env p o := by
  have hnone : Reachable env p (Guards.none.onStep p) o :=
    h.mono fun o ord ev _ => Guards.none_onStep p o ord ev
  have hr : MReachable env p .none o := hnone.mReachable
  have hin : InOrder p o := hnone.inOrder
  have hfirst : o.proposed.map Preprepare.sn <+: p.segment.seqNrs := by
    rw [hin.proposed]
    exact List.take_prefix _ _
  refine ⟨hfirst, p.segment.seqNrs_nodup.sublist hfirst.sublist, hin.view, ?_, hin.pending,
    fun ord ev hen hev => ?_, fun ord ev o' hen hstep => (hin.step hr hen hstep).2⟩
  · rw [hin.requests]
    exact Nat.add_le_add_left (Bool.toNat_le _) _
  · obtain ⟨o', ho', -⟩ := hin.proposing_step hr hen hev
    exact ⟨o', ho'⟩

/-- Two sequence numbers with the members and the leader of `singleSlot`. -/
def twoSlots : Segment := { singleSlot with proposals := GoMap.ofKeys [4, 8] fun _ => none }

/-- The leader of a segment requests a certificate when the timeout fires, and proposes it for the next
sequence number. -/
theorem noEquivocation_of_reachable_leader :
    ∃ o, NoEquivocation plainEnv (plainParams twoSlots [100]) o ∧
      o.proposed = [⟨4, 0, [1], false⟩, ⟨8, 0, [2], false⟩] := by
  obtain ⟨o, hr, hproposed⟩ := exists_reachable (C := anyStep) (fun _ => trivial) (by decide +kernel :
    (execute plainEnv (plainParams twoSlots [100]) (fun _ _ => true)
      [.proposeTimeout 1, .newCert [1], .proposeTimeout 2, .newCert [2]]).any (fun o =>
        o.proposed = [⟨4, 0, [1], false⟩, ⟨8, 0, [2], false⟩]) = true)
  exact ⟨o, noEquivocation_of_reachable _ _ o hr, hproposed⟩

end Mir.Orderers
