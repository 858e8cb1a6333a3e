import Mir.Orderers.Votes

/-!
# The orderers of a segment together

The correct nodes of a segment, each running the orderer, among faulty ones that may send them
anything. Nodes take steps in any order. What ties them together (`Cluster.Authentic`) is that the
transport reports the true sender, so a message from a correct node is one it has sent, and that
signatures are unforgeable, so bytes found to be signed by a correct node are bytes it has asked
to be signed.

Within a view, correct nodes prepare the same digests, and what one of them commits a strong
quorum has voted for and a correct node has prepared (`Cluster.preparedUnique`).
-/

namespace Mir.Orderers

open WeightedQuorum FallibleLoop

/-! ### Clusters -/

/-- The nodes of a segment: their parameters, which agree on the segment, and the faulty ones,
which are within the fault bound. -/
structure Cluster where
  env : Env
  segment : Segment
  params : NodeID → ModuleParams
  faulty : Finset NodeID
  ownID_eq : ∀ id, (params id).ownID = id
  segment_eq : ∀ id, (params id).segment = segment
  nonNeg : segment.membership.NonNeg
  faulty_members : faulty ⊆ segment.membership.members
  faulty_le : weight segment.membership.w faulty ≤
    Membership.maxFaulty (weight segment.membership.w segment.membership.members)

/-- The states of all nodes; those of faulty ones have no meaning. -/
abbrev Nodes := NodeID → Orderer

namespace Cluster

variable (net : Cluster)

/-- The members that are not faulty. -/
def Correct (id : NodeID) : Prop := id ∈ net.segment.membership.members ∧ id ∉ net.faulty

/-- A node has asked for a signature of the given bytes. -/
def Signed (G : Nodes) (id : NodeID) (data : Bytes) : Prop :=
  ∃ vc, .signRequest data vc ∈ (G id).out

/-- What correct nodes are said to have sent or signed, they have. -/
def Authentic (G : Nodes) : Event → Prop
  | .messageReceived sender msg => net.Correct sender → msg ∈ (G sender).sent
  | .sigVerified sender valid svc => valid = true → net.Correct sender →
    ∀ vc, svc.viewChange = some vc → Signed G sender vc.signedBytes
  | .sigsVerified senders allOk nv => allOk = true →
    ∀ entry ∈ senders.zip nv.signedViewChanges, net.Correct entry.1 →
      ∀ vc, entry.2.viewChange = some vc → Signed G entry.1 vc.signedBytes
  | _ => True

/-- A condition on the steps of a run: on all states before the step, the node that takes it, the
iteration orders and the event. -/
abbrev Condition := Nodes → NodeID → MapOrder → Event → Prop

/-- A condition on the steps of each node. -/
def eachNode (K : Guards) : Condition := fun G id => K.onStep (net.params id) (G id)

/-- The states the correct nodes can reach by steps that meet a condition. -/
inductive Reachable (C : Condition) : Nodes → Prop
  | init {G : Nodes} (h : ∀ id, net.Correct id → initOrderer (net.params id) = .ok (G id)) :
      Reachable C G
  | step {G : Nodes} {id : NodeID} {o' : Orderer} {ord : MapOrder} {ev : Event}
      (hr : Reachable C G) (hid : net.Correct id)
      (hen : Enabled net.env (net.params id) (G id) ev) (hauth : net.Authentic G ev)
      (hC : C G id ord ev) (hs : Orderers.step ord (net.params id) (G id) ev = .ok o') :
      Reachable C (Function.update G id o')

variable {net} {C : Condition} {K : Guards} {G : Nodes} {id : NodeID}

/-! ### Each node runs the orderer -/

/-- **The states of a correct node are those of a run of the orderer.** -/
theorem Reachable.mReachable (hr : net.Reachable C G)
    (hC : ∀ G id ord ev, C G id ord ev → net.eachNode K G id ord ev)
    (hid : net.Correct id) : MReachable net.env (net.params id) K (G id) := by
  induction hr generalizing id with
  | init h => exact .init (h id hid)
  | @step G i o' ord ev _ _ hen _ hc hs ih =>
    by_cases heq : id = i
    · subst heq
      rw [Function.update_self]
      exact (ih hid).micros (step_micros (ih hid).sound hen (hC _ _ _ _ hc) hs)
    · rw [Function.update_of_ne heq]
      exact ih hid

theorem Reachable.sound (hr : net.Reachable C G) (hid : net.Correct id) :
    Sound (net.params id) (G id) :=
  (hr.mReachable (K := .none) (fun G id ord ev _ => Guards.none_onStep _ (G id) ord ev) hid).sound

/-- A step of one node extends the histories. -/
theorem grows_update {o' : Orderer} (hg : Grows (G id) o') (i : NodeID) :
    Grows (G i) (Function.update G id o' i) := by
  by_cases heq : i = id
  · subst heq
    rw [Function.update_self]
    exact hg
  · rw [Function.update_of_ne heq]
    exact Grows.refl _

theorem Signed.mono {G' : Nodes} (hg : ∀ i, Grows (G i) (G' i)) {data : Bytes}
    (h : Signed G id data) : Signed G' id data := by
  obtain ⟨vc, hvc⟩ := h
  exact ⟨vc, (hg id).out.subset hvc⟩

theorem Authentic.mono {G' : Nodes} (hg : ∀ i, Grows (G i) (G' i)) {ev : Event}
    (h : net.Authentic G ev) : net.Authentic G' ev := by
  cases ev with
  | messageReceived sender msg => exact fun hc => sent_subset (hg sender) (h hc)
  | sigVerified sender valid svc =>
    exact fun hv hc vc hvc => (h hv hc vc hvc).mono hg
  | sigsVerified senders allOk nv =>
    exact fun hv entry hmem hc vc hvc => (h hv entry hmem hc vc hvc).mono hg
  | _ => trivial

/-- **What a correct node has received and verified is authentic.** -/
theorem Reachable.authentic (hr : net.Reachable C G) (hid : net.Correct id)
    {ev : Event} (hev : ev ∈ (G id).log) : net.Authentic G ev := by
  induction hr generalizing id with
  | init h =>
    rw [(initOrderer_history (h id hid)).1] at hev
    cases hev
  | @step G i o' ord ev' hr hi hen hauth _ hs ih =>
    have hsound : Sound (net.params i) (G i) := hr.sound hi
    have hg : Grows (G i) o' :=
      (step_micros (K := .none) hsound hen (Guards.none_onStep _ _ _ _) hs).grows
    refine Authentic.mono (grows_update hg) ?_
    by_cases heq : id = i
    · subst heq
      rw [Function.update_self, log_step hsound hen hs] at hev
      rcases List.mem_append.mp hev with hold | hnew
      · exact ih hid hold
      · rw [List.mem_singleton.mp hnew]
        exact hauth
    · rw [Function.update_of_ne heq] at hev
      exact ih hid hev

/-- A message received from a correct node was sent by it. -/
theorem Reachable.sent_of_received (hr : net.Reachable C G) {id sender : NodeID} {msg : Message}
    (hid : net.Correct id) (hsender : net.Correct sender)
    (hev : .messageReceived sender msg ∈ (G id).log) : msg ∈ (G sender).sent :=
  hr.authentic hid hev hsender

/-! ### Quorums -/

/-- Two strong quorums share a correct node. -/
theorem exists_correct_mem_inter {A B : Finset NodeID}
    (hA : IsStrong net.segment.membership.members net.segment.membership.w A)
    (hB : IsStrong net.segment.membership.members net.segment.membership.w B) :
    ∃ id ∈ A, id ∈ B ∧ net.Correct id := by
  obtain ⟨id, hidA, hidB, hid⟩ :=
    IsStrong.exists_mem_inter net.nonNeg hA hB net.faulty_members net.faulty_le
  exact ⟨id, hidA, hidB, hA.1 hidA, hid⟩

/-- A strong quorum contains a correct node. -/
theorem exists_correct_mem {A : Finset NodeID}
    (hA : IsStrong net.segment.membership.members net.segment.membership.w A) :
    ∃ id ∈ A, net.Correct id := by
  obtain ⟨id, hid, -, hc⟩ := exists_correct_mem_inter hA hA
  exact ⟨id, hid, hc⟩

/-! ### Executing runs -/

instance : DecidablePred net.Correct := fun _ => inferInstanceAs (Decidable (_ ∧ _))

/-- A test that only authentic events pass; those that report valid signatures never do. -/
def isAuthentic (net : Cluster) (G : Nodes) : Event → Bool
  | .messageReceived sender msg => decide (sender ∈ net.faulty) || decide (msg ∈ (G sender).sent)
  | .sigVerified _ valid _ => !valid
  | .sigsVerified _ allOk _ => !allOk
  | _ => true

theorem authentic_of_isAuthentic {ev : Event} (h : net.isAuthentic G ev = true) :
    net.Authentic G ev := by
  cases ev with
  | messageReceived sender msg =>
    intro hc
    rw [isAuthentic, Bool.or_eq_true, decide_eq_true_iff, decide_eq_true_iff] at h
    exact h.resolve_left hc.2
  | sigVerified sender valid svc =>
    rintro rfl
    cases h
  | sigsVerified senders allOk nv =>
    rintro rfl
    cases h
  | _ => trivial

/-- The initial states of the nodes, where initialization completes. -/
def initNodes (net : Cluster) : Nodes := fun id =>
  (initOrderer (net.params id)).toOption.getD ⟨newState (net.params id), [], [], []⟩

/-- A correct node handles an event that passes the test `c`. -/
def next? (net : Cluster) (c : Nodes → NodeID → Event → Bool) (G : Nodes) (e : NodeID × Event) :
    Option Nodes :=
  attempt (net.Correct e.1 ∧ isEnabled net.env (net.params e.1) (G e.1) e.2 = true ∧
      net.isAuthentic G e.2 = true ∧ c G e.1 e.2 = true)
    (Orderers.step .listed (net.params e.1) (G e.1) e.2) (Function.update G e.1)

/-- **What an execution finds at its end holds in a state that a run reaches.** -/
theorem exists_reachable {c : Nodes → NodeID → Event → Bool} {evs : List (NodeID × Event)}
    {Q : Nodes → Prop} [DecidablePred Q] (hc : ∀ {G id ev}, c G id ev = true → C G id .listed ev)
    (hinit : ∀ id ∈ net.segment.membership.members,
      (initOrderer (net.params id)).toOption.isSome = true)
    (h : (evs.foldlM (net.next? c) net.initNodes).any (fun G => Q G) = true) :
    ∃ G, net.Reachable C G ∧ Q G := by
  refine exists_of_steps h (.init fun id hid => ?_) fun _ hr hnext => ?_
  · have hsome := hinit id hid.1
    rw [initNodes]
    cases ho : initOrderer (net.params id) with
    | error e =>
      rw [ho] at hsome
      cases hsome
    | ok o => rfl
  · obtain ⟨⟨hid, hen, hauth, hev⟩, o', hstep, rfl⟩ := attempt_eq_some.mp hnext
    exact .step hr hid (enabled_of_isEnabled hen) (authentic_of_isAuthentic hauth) (hc hev) hstep

/-! ### Prepared values are unique within a view -/

/-- View zero is not entered through a NewView. -/
def noViewZero : Guards := { Guards.none with newView := fun _ nv => nv.view ≠ 0 }

/-- Correct nodes prepare the same digest for a view and a sequence number, since a correct node
in both quorums has sent one Prepare message only. -/
theorem Reachable.prepared_eq (hr : net.Reachable C G) (hK : K.NoViewZero)
    (hC : ∀ G id ord ev, C G id ord ev → net.eachNode K G id ord ev) {i j : NodeID}
    (hi : net.Correct i) (hj : net.Correct j) {v : ViewNr} {sn : SeqNr} {d d' : ByteSlice}
    (hd : .prepared v sn d ∈ (G i).marks) (hd' : .prepared v sn d' ∈ (G j).marks) : d = d' := by
  obtain ⟨h, rfl, Q, hQ, hrcv⟩ := (hr.mReachable hC hi).backed hK hd
  obtain ⟨h', rfl, Q', hQ', hrcv'⟩ := (hr.mReachable hC hj).backed hK hd'
  rw [net.segment_eq] at hQ hQ'
  obtain ⟨k, hk, hk', hcorrect⟩ := exists_correct_mem_inter hQ hQ'
  have hsent := hr.sent_of_received hi hcorrect (hrcv k hk)
  have hsent' := hr.sent_of_received hj hcorrect (hrcv' k hk')
  exact (hr.mReachable hC hcorrect).prepare_sent_unique hK hsent hsent'

/-- A committed digest has a strong quorum of Commit messages, so a correct node has prepared
it. -/
theorem Reachable.committed_votes (hr : net.Reachable C G) (hK : K.NoViewZero)
    (hC : ∀ G id ord ev, C G id ord ev → net.eachNode K G id ord ev) {i : NodeID}
    (hi : net.Correct i) {v : ViewNr} {sn : SeqNr} {d : ByteSlice}
    (hd : .committed v sn d ∈ (G i).marks) :
    ∃ h Q, d = some h ∧
      IsStrong net.segment.membership.members net.segment.membership.w Q ∧
      (∀ id ∈ Q, .messageReceived id (.commit ⟨sn, v, some h⟩) ∈ (G i).log) ∧
      ∀ id ∈ Q, net.Correct id →
        .commit ⟨sn, v, d⟩ ∈ (G id).sent ∧ .prepared v sn d ∈ (G id).marks := by
  obtain ⟨h, rfl, Q, hQ, hrcv⟩ := (hr.mReachable hC hi).backed hK hd
  rw [net.segment_eq] at hQ
  refine ⟨h, Q, rfl, hQ, hrcv, fun id hid hcorrect => ?_⟩
  have hsent := hr.sent_of_received hi hcorrect (hrcv id hid)
  exact ⟨hsent, (hr.mReachable hC hcorrect).commit_sent hsent⟩

/-- **Prepared values are unique within a view**, and a value is committed only with a strong
quorum of Commit messages, so that a correct node has prepared it. -/
theorem preparedUnique (net : Cluster) {G : Nodes}
    (hr : net.Reachable (net.eachNode noViewZero) G) (v : ViewNr) (sn : SeqNr) :
    (∀ i j d d', net.Correct i → net.Correct j → .prepared v sn d ∈ (G i).marks →
      .prepared v sn d' ∈ (G j).marks → d = d') ∧
    ∀ i d, net.Correct i → .committed v sn d ∈ (G i).marks →
      ∃ h Q, d = some h ∧ IsStrong net.segment.membership.members net.segment.membership.w Q ∧
        (∀ id ∈ Q, .messageReceived id (.commit ⟨sn, v, some h⟩) ∈ (G i).log) ∧
        (∀ id ∈ Q, net.Correct id → .commit ⟨sn, v, d⟩ ∈ (G id).sent) ∧
        ∃ k ∈ Q, net.Correct k ∧ .prepared v sn d ∈ (G k).marks := by
  have hK : noViewZero.NoViewZero := fun _ _ h => h
  have hC : ∀ G id ord ev, net.eachNode noViewZero G id ord ev →
      net.eachNode noViewZero G id ord ev := fun _ _ _ _ h => h
  refine ⟨fun i j d d' hi hj hd hd' => hr.prepared_eq hK hC hi hj hd hd', fun i d hi hd => ?_⟩
  obtain ⟨h, Q, hh, hQ, hrcv, hvotes⟩ := hr.committed_votes hK hC hi hd
  obtain ⟨k, hk, hcorrect⟩ := exists_correct_mem hQ
  exact ⟨h, Q, hh, hQ, hrcv, fun id hid hc => (hvotes id hid hc).1, k, hk, hcorrect,
    (hvotes k hk hcorrect).2⟩

/-- Four members of weight one with a faulty leader. -/
def faultyLeader : Cluster where
  env := plainEnv
  segment := singleSlot
  params := plainParams singleSlot
  faulty := {[100]}
  ownID_eq := fun _ => rfl
  segment_eq := fun _ => rfl
  nonNeg := by
    unfold Membership.NonNeg
    decide +kernel
  faulty_members := by decide +kernel
  faulty_le := by decide +kernel

/-- The correct nodes hash the leader's proposal, exchange their Prepare messages, and the first of
them receives all Commit messages. -/
def commitTogether : List (NodeID × Event) :=
  let nodes : List NodeID := [[97], [98], [99]]
  let digest : ByteSlice := some singleProposal.hashBytes
  let hashed : Event := .hashResultOne singleProposal.hashBytes (.preprepare singleProposal)
  nodes.flatMap (fun id => (receiveProposal ++ [hashed]).map fun ev => (id, ev)) ++
  nodes.flatMap (fun id => nodes.map fun sender =>
    (id, .messageReceived sender (.prepare ⟨0, 0, digest⟩))) ++
  nodes.map fun sender => ([97], .messageReceived sender (.commit ⟨0, 0, digest⟩))

/-- Two nodes prepare the leader's proposal and one of them commits it. -/
theorem preparedUnique_commitTogether :
    ∃ G, faultyLeader.Reachable (faultyLeader.eachNode noViewZero) G ∧
      .prepared 0 0 (some singleProposal.hashBytes) ∈ (G [98]).marks ∧
      .committed 0 0 (some singleProposal.hashBytes) ∈ (G [97]).marks ∧
      ∃ k, faultyLeader.Correct k ∧
        .prepared 0 0 (some singleProposal.hashBytes) ∈ (G k).marks := by
  obtain ⟨G, hr, hprep, hcom⟩ := exists_reachable (C := faultyLeader.eachNode noViewZero)
    (fun {G id _} hev => Guards.onStep_of_not_newView _ (G id) .listed hev) (by decide +kernel)
    (by decide +kernel : (commitTogether.foldlM
      (faultyLeader.next? fun _ _ ev => !ev.completesNewView) faultyLeader.initNodes).any (fun G =>
        .prepared 0 0 (some singleProposal.hashBytes) ∈ (G [98]).marks ∧
          .committed 0 0 (some singleProposal.hashBytes) ∈ (G [97]).marks) = true)
  have hcorrect : faultyLeader.Correct [97] := ⟨by decide +kernel, by decide +kernel⟩
  obtain ⟨-, -, -, -, -, -, k, -, hk, hkprep⟩ :=
    (preparedUnique faultyLeader hr 0 0).2 [97] _ hcorrect hcom
  exact ⟨G, hr, hprep, hcom, k, hk, hkprep⟩

end Cluster

end Mir.Orderers
