import Mir.Orderers.Cluster

/-!
# Agreement within a view

Correct nodes that commit a slot in the same view deliver the same value, as long as the values they
have had hashed do not collide (`Cluster.delivered_same`). The digest of a committed slot is the hash
of the value that is delivered (`MReachable.delivered_of_committed`), if hash results find the
Preprepare that was hashed, and two digests cannot both have a strong quorum of Prepare messages.
-/

namespace Mir.Orderers

variable {env : Env} {p : ModuleParams} {K : Guards} {o o' : Orderer}

/-- The hash of a slot's Preprepare has been requested. -/
theorem MReachable.hashRequested (h : MReachable env p K o) {v : ViewNr} {sn : SeqNr}
    {slot : PbftSlot} {pp : Preprepare} (hslot : o.state.slot? v sn = some slot)
    (hpp : slot.preprepare = some pp) : ∃ ctx, .hashRequestOne pp.hashBytes ctx ∈ o.out := by
  induction h generalizing v sn slot pp with
  | init h =>
    rw [slot?_initOrderer h hslot] at hpp
    cases hpp
  | @micro o o' hr hstep ih =>
    have hold : ∀ {v sn slot pp}, o.state.slot? v sn = some slot → slot.preprepare = some pp →
        ∃ ctx, .hashRequestOne pp.hashBytes ctx ∈ o'.out := fun hslot hpp =>
      (ih hslot hpp).imp fun _ hctx => hstep.grows.out.subset hctx
    rcases hstep.slot_cases hslot with hsame | ⟨-, -, slot₀, hslot₀, hchange⟩ | ⟨-, -, -, hinit⟩
    · exact hold hsame hpp
    · cases hchange with
      | update hupdate hout =>
        cases hupdate with
        | accept =>
          cases hpp
          rw [hout]
          exact ⟨_, List.mem_append_right _ (List.mem_singleton_self _)⟩
        | touch | hashed | addPrepare | addCommit | checkPrepares | prepare | checkCommits =>
          exact hold hslot₀ hpp
      | decide _ hdec =>
        cases hdec with
        | commit => exact hold hslot₀ hpp
        | catchUp hsn hreq =>
          cases hpp
          exact ⟨_, hr.hashRequestOne_data hreq ▸ hstep.grows.out.subset hreq⟩
    · cases hinit with
      | fresh => cases hpp
      | carried _ hprev hcom hpp' =>
        cases hpp
        obtain ⟨ctx, hctx⟩ := hold hprev hpp'
        exact ⟨ctx, hctx⟩

/-- **A committed digest is the one of the delivered value.** -/
theorem MReachable.delivered_of_committed (hK : K.HashMatches) (h : MReachable env p K o)
    {v : ViewNr} {sn : SeqNr} {digest : ByteSlice} (hm : .committed v sn digest ∈ o.marks) :
    ∃ (pp : Preprepare) (ctx : HashOneContext), digest = some (env.hash pp.hashBytes) ∧
      .hashRequestOne pp.hashBytes ctx ∈ o.out ∧
      .sbDeliver sn pp.data pp.aborted p.segment.leader ∈ o.out := by
  induction h with
  | init h =>
    rw [(initOrderer_history h).2] at hm
    cases hm
  | @micro o o' hr hstep ih =>
    by_cases hold : .committed v sn digest ∈ o.marks
    · obtain ⟨pp, ctx, hdigest, hreq, hout⟩ := ih hold
      exact ⟨pp, ctx, hdigest, hstep.grows.out.subset hreq, hstep.grows.out.subset hout⟩
    · cases hstep with
      | decide sn slot slot' m pp timer hslot hcom hdec =>
        obtain ⟨chkp, xs, heq, -⟩ := deliver_spec p sn pp timer ((o.setSlot sn slot').mark m)
        rw [heq] at hm ⊢
        obtain rfl := List.mem_singleton.mp ((List.mem_append.mp hm).resolve_left hold)
        cases hdec with
        | commit hprep _ hpp =>
          obtain ⟨pp', hpp', hdigest⟩ := hr.digestMatches hK hslot (Or.inr (Or.inl hprep))
          obtain rfl := Option.some.inj (hpp.symm.trans hpp')
          obtain ⟨ctx, hreq⟩ := hr.hashRequested hslot hpp
          exact ⟨pp, ctx, hdigest, List.mem_append_left _ hreq, by simp⟩
      | slot sn slot slot' m x hslot hupdate =>
        rw [Orderer.record_marks, List.mem_append, Option.mem_toList] at hm
        obtain rfl := hm.resolve_left hold
        cases hupdate
      | startView _ h => exact absurd ((initView_frame h).marks ▸ hm) hold
      | newView o₁ nv ord data hreq hacc hK h =>
        rcases List.mem_append.mp hm with hm | hm
        · exact absurd ((initView_frame h).marks ▸ hm) hold
        · cases List.mem_singleton.mp hm
      | log | emit | buffers | proposal | viewChangeState | nodeDone | catchingUp =>
        exact absurd hm hold

/-- The hashed bytes determine the value. -/
theorem Preprepare.eq_of_hashBytes {pp pp' : Preprepare} (h : pp.hashBytes = pp'.hashBytes) :
    pp.data = pp'.data ∧ pp.aborted = pp'.aborted := by
  have hrest := (List.append_inj h (by simp)).2
  simp only [List.flatten_cons, List.flatten_nil, List.append_nil, List.singleton_append,
    List.cons.injEq] at hrest
  refine ⟨hrest.2, ?_⟩
  cases ha : pp.aborted <;> cases ha' : pp'.aborted <;> simp [ha, ha'] at hrest ⊢

namespace Cluster

/-- View zero is not entered through a NewView, and hash results find the Preprepare that was
hashed. -/
def agreeing : Guards := { hashMatches with newView := noViewZero.newView }

/-- **Agreement within a view**: correct nodes that commit a slot in the same view deliver the same
value, if what correct nodes have had hashed does not collide. -/
theorem delivered_same (net : Cluster) {G : Nodes} (hr : net.Reachable (net.eachNode agreeing) G)
    (hfree : Set.InjOn net.env.hash
      {data | ∃ id ctx, net.Correct id ∧ .hashRequestOne data ctx ∈ (G id).out})
    {i j : NodeID} (hi : net.Correct i) (hj : net.Correct j) {v : ViewNr} {sn : SeqNr}
    {d d' : ByteSlice} (hd : .committed v sn d ∈ (G i).marks)
    (hd' : .committed v sn d' ∈ (G j).marks) :
    d = d' ∧ ∃ data aborted, .sbDeliver sn data aborted net.segment.leader ∈ (G i).out ∧
      .sbDeliver sn data aborted net.segment.leader ∈ (G j).out := by
  have hK : agreeing.NoViewZero := fun _ _ h => h
  have hC : ∀ G id ord ev, net.eachNode agreeing G id ord ev →
      net.eachNode agreeing G id ord ev := fun _ _ _ _ h => h
  have hM : agreeing.HashMatches := by
    rintro s pp ⟨slot, pp', hslot, hpp', hbytes⟩ slot₁ hslot₁
    obtain rfl := Option.some.inj (hslot.symm.trans hslot₁)
    exact ⟨pp', hpp', hbytes⟩
  -- each digest was prepared by a correct node, so they are the same
  obtain ⟨-, Q, -, hQ, -, hvotes⟩ := hr.committed_votes hK hC hi hd
  obtain ⟨-, Q', -, hQ', -, hvotes'⟩ := hr.committed_votes hK hC hj hd'
  obtain ⟨k, hk, hcorrect⟩ := exists_correct_mem hQ
  obtain ⟨k', hk', hcorrect'⟩ := exists_correct_mem hQ'
  obtain rfl := hr.prepared_eq hK hC hcorrect hcorrect' (hvotes k hk hcorrect).2
    (hvotes' k' hk' hcorrect').2
  obtain ⟨pp, ctx, hdigest, hreq, hout⟩ := (hr.mReachable hC hi).delivered_of_committed hM hd
  obtain ⟨pp', ctx', hdigest', hreq', hout'⟩ := (hr.mReachable hC hj).delivered_of_committed hM hd'
  have hbytes := hfree ⟨i, ctx, hi, hreq⟩ ⟨j, ctx', hj, hreq'⟩
    (Option.some.inj (hdigest.symm.trans hdigest'))
  obtain ⟨hdata, haborted⟩ := Preprepare.eq_of_hashBytes hbytes
  rw [net.segment_eq] at hout hout'
  rw [← hdata, ← haborted] at hout'
  exact ⟨rfl, pp.data, pp.aborted, hout, hout'⟩

/-- The second node receives all Commit messages as well. -/
def deliverTogether : List (NodeID × Event) :=
  commitTogether ++ [[97], [98], [99]].map fun sender =>
    ([98], .messageReceived sender (.commit ⟨0, 0, some singleProposal.hashBytes⟩))

/-- Two nodes commit and deliver the leader's proposal. -/
theorem delivered_same_commitTogether : ∃ G,
    faultyLeader.Reachable (faultyLeader.eachNode agreeing) G ∧ ∃ data aborted,
      .sbDeliver 0 data aborted faultyLeader.segment.leader ∈ (G [97]).out ∧
      .sbDeliver 0 data aborted faultyLeader.segment.leader ∈ (G [98]).out := by
  have hc : ∀ {G : Nodes} {id : NodeID} {ev : Event},
      (findsHashed (G id) ev && !ev.completesNewView) = true →
        faultyLeader.eachNode agreeing G id .listed ev := by
    intro G id ev hev
    obtain ⟨hfinds, hnv⟩ := Bool.and_eq_true_iff.mp hev
    have hhashed := (onStep_of_findsHashed (p := faultyLeader.params id) hfinds).2
    refine ⟨trivial, ?_⟩
    split
    · exact hhashed
    · exact fun _ => trivial
    · cases hnv
    · trivial
    · trivial
  obtain ⟨G, hr, hi, hj⟩ := exists_reachable (C := faultyLeader.eachNode agreeing) hc
    (by decide +kernel) (by decide +kernel : (deliverTogether.foldlM
      (faultyLeader.next? fun G id ev => findsHashed (G id) ev && !ev.completesNewView)
      faultyLeader.initNodes).any (fun G =>
        .committed 0 0 (some singleProposal.hashBytes) ∈ (G [97]).marks ∧
          .committed 0 0 (some singleProposal.hashBytes) ∈ (G [98]).marks) = true)
  exact ⟨G, hr, (delivered_same faultyLeader hr (fun _ _ _ _ h => h)
    ⟨by decide +kernel, by decide +kernel⟩ ⟨by decide +kernel, by decide +kernel⟩ hi hj).2⟩

end Cluster

end Mir.Orderers
