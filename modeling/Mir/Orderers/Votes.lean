import Mir.Orderers.Digests

/-!
# Votes

What one node's Prepare and Commit messages say. A node stores at most one Preprepare per view and
sequence number and hashes it, so it prepares at most one digest there, however late the hash
arrives (`MReachable.hashRequested_unique`, `MReachable.prepare_sent`). Votes are stored before
the digest they are compared with is known; those that were found valid were received for the
slot's digest (`SlotVotes`), so a slot is prepared or committed only with a strong quorum of
messages for its digest (`MReachable.backed`).

All of this is about runs in which view zero is not entered a second time, which would create its
slots anew.
-/

namespace Mir.Orderers

open WeightedQuorum

variable {env : Env} {p : ModuleParams} {K : Guards} {o o' : Orderer} {v : ViewNr} {sn : SeqNr}
  {slot slot' : PbftSlot} {pp : Preprepare} {digest : ByteSlice} {msg : Message}
  {received valid received' valid' : GoMap NodeID ByteSlice}

/-! ### Senders are members -/

/-- The digests of a slot are those of members. -/
structure SlotMembers (p : ModuleParams) (slot : PbftSlot) : Prop where
  membership : slot.membership = p.segment.membership
  prepares : ∀ id ∈ slot.prepareDigests.keys, id ∈ p.segment.membership.nodes.keys
  validPrepares : ∀ id ∈ slot.validPrepareDigests.keys, id ∈ p.segment.membership.nodes.keys
  commits : ∀ id ∈ slot.commitDigests.keys, id ∈ p.segment.membership.nodes.keys
  validCommits : ∀ id ∈ slot.validCommitDigests.keys, id ∈ p.segment.membership.nodes.keys

theorem slotMembers_new (p : ModuleParams) : SlotMembers p (PbftSlot.new p.segment.membership) := by
  refine ⟨rfl, ?_, ?_, ?_, ?_⟩
  all_goals
    intro id hid
    exact absurd hid (List.not_mem_nil)

/-- A check adds no senders to those that are stored. -/
theorem keys_checkDigests {m : Membership} {members : List NodeID} {b : Bool}
    (h : checkDigests m digest received valid = .ok (received', valid', b))
    (hr : ∀ id ∈ received.keys, id ∈ members) (hv : ∀ id ∈ valid.keys, id ∈ members) :
    (∀ id ∈ received'.keys, id ∈ members) ∧ ∀ id ∈ valid'.keys, id ∈ members := by
  rcases checkDigests_cases h with ⟨rfl, rfl, -⟩ | ⟨rfl, rfl, -⟩
  · exact ⟨hr, hv⟩
  · refine ⟨fun id hid => hr id (mem_keys_validateDigests_fst.mp hid), fun id hid => ?_⟩
    rcases mem_keys_validateDigests_snd.mp hid with hold | hnew
    · exact hv id hold
    · exact hr id (GoMap.mem_keys_iff.mpr ⟨_, hnew⟩)

theorem SlotUpdate.slotMembers {m : Option Mark} {x : Option Output}
    (h : SlotUpdate env p K o sn slot slot' m x) (hs : SlotMembers p slot) :
    SlotMembers p slot' := by
  cases h with
  | addPrepare d sender _ _ hmem =>
    refine ⟨hs.membership, fun id hid => ?_, hs.validPrepares, hs.commits, hs.validCommits⟩
    rcases GoMap.mem_keys_insert.mp hid with rfl | hold
    · exact hmem
    · exact hs.prepares id hold
  | addCommit d sender _ _ hmem =>
    refine ⟨hs.membership, hs.prepares, hs.validPrepares, fun id hid => ?_, hs.validCommits⟩
    rcases GoMap.mem_keys_insert.mp hid with rfl | hold
    · exact hmem
    · exact hs.commits id hold
  | checkPrepares received valid _ _ hc | prepare received valid _ _ hc =>
    obtain ⟨hr, hv⟩ := keys_checkDigests hc hs.prepares hs.validPrepares
    exact ⟨hs.membership, hr, hv, hs.commits, hs.validCommits⟩
  | checkCommits received valid _ _ hc =>
    obtain ⟨hr, hv⟩ := keys_checkDigests hc hs.commits hs.validCommits
    exact ⟨hs.membership, hs.prepares, hs.validPrepares, hr, hv⟩
  | touch | accept | hashed =>
    exact ⟨hs.membership, hs.prepares, hs.validPrepares, hs.commits, hs.validCommits⟩

theorem Decides.slotMembers {m : Mark} (h : Decides env o sn slot slot' m pp)
    (hs : SlotMembers p slot) : SlotMembers p slot' := by
  cases h with
  | commit _ hc =>
    obtain ⟨hr, hv⟩ := keys_checkDigests hc hs.commits hs.validCommits
    exact ⟨hs.membership, hs.prepares, hs.validPrepares, hr, hv⟩
  | catchUp =>
    exact ⟨hs.membership, hs.prepares, hs.validPrepares, hs.commits, hs.validCommits⟩

/-- **Only members' digests are stored in slots.** -/
theorem MReachable.slotMembers (h : MReachable env p K o)
    (hslot : o.state.slot? v sn = some slot) : SlotMembers p slot := by
  induction h generalizing v sn slot with
  | init h =>
    rw [slot?_initOrderer h hslot]
    exact slotMembers_new p
  | micro _ hstep ih =>
    rcases hstep.slot_cases hslot with hold | ⟨-, -, slot₀, hslot₀, hchange⟩ | ⟨-, -, -, hinit⟩
    · exact ih hold
    · cases hchange with
      | update hupdate => exact hupdate.slotMembers (ih hslot₀)
      | decide _ hdec => exact hdec.slotMembers (ih hslot₀)
    · have hnew := slotMembers_new p
      cases hinit with
      | fresh => exact hnew
      | carried =>
        exact ⟨rfl, hnew.prepares, hnew.validPrepares, hnew.commits, hnew.validCommits⟩

/-! ### One Preprepare per view and sequence number -/

/-- View zero is not entered through a NewView. -/
def Guards.NoViewZero (K : Guards) : Prop := ∀ s nv, K.newView s nv → nv.view ≠ 0

/-- The node has stored a Preprepare and asked for its hash. -/
def HashRequested (o : Orderer) (pp : Preprepare) : Prop :=
  .hashRequestOne pp.hashBytes (.preprepare pp) ∈ o.out

theorem SlotChange.preprepare_isSome (h : SlotChange env p K o o' sn slot slot')
    (hpp : slot.preprepare.isSome = true) : slot'.preprepare.isSome = true := by
  cases h with
  | update hupdate =>
    cases hupdate with
    | accept => rfl
    | _ => exact hpp
  | decide _ hdec =>
    cases hdec with
    | commit => exact hpp
    | catchUp => rfl

/-- A slot that holds a Preprepare is not emptied. -/
theorem Micro.preprepare_isSome (hK : K.NoViewZero) (h : Micro env p K o o')
    (hwf : SlotsWf p o.state) (hslot : o.state.slot? v sn = some slot)
    (hpp : slot.preprepare.isSome = true) :
    ∃ slot', o'.state.slot? v sn = some slot' ∧ slot'.preprepare.isSome = true := by
  rcases h.slots_cases with ⟨hslots, -⟩ | ⟨sn₀, slot₀, slot₁, hslot₀, hslots, -, hchange⟩ |
    ⟨henters, hlater⟩
  · refine ⟨slot, ?_, hpp⟩
    rw [State.slot?, State.slotsOf, hslots]
    exact hslot
  · have hset : o'.state.slot? v sn =
        (o.state.setSlot o.state.view sn₀ slot₁).slot? v sn := by
      rw [State.slot?, State.slotsOf, hslots]
      rfl
    rw [hset, State.slot?_setSlot]
    split
    · next heq =>
      obtain ⟨rfl, rfl⟩ := heq
      have hsame : slot₀ = slot := Option.some.inj (hslot₀.symm.trans hslot)
      exact ⟨slot₁, rfl, hchange.preprepare_isSome (hsame ▸ hpp)⟩
    · exact ⟨slot, hslot, hpp⟩
  · rcases hlater with hlater | ⟨nv, hzero, hguard⟩
    · -- the slot belongs to a view before the one that is entered
      have hne : v ≠ o'.state.view := by
        rintro rfl
        exact UInt64.not_lt.mpr (hwf.view_le hslot) hlater
      exact ⟨slot, (henters.slot?_of_ne hne sn).trans hslot, hpp⟩
    · exact absurd hzero (hK _ nv hguard)

/-- Where a Preprepare comes from whose hash is requested: it was just stored in an empty slot of
the current view. -/
theorem Micro.hashRequested_cases (h : Micro env p K o o')
    (hx : HashRequested o' pp) :
    HashRequested o pp ∨
      (o'.out = o.out ++ [.hashRequestOne pp.hashBytes (.preprepare pp)] ∧
        pp.view = o.state.view ∧ ∃ slot, o.state.slot? pp.view pp.sn = some slot ∧
          slot.preprepare = none ∧
          o'.state.slot? pp.view pp.sn = some { slot with preprepare := some pp }) := by
  rcases h.mem_out hx with hold | hnew
  · exact Or.inl hold
  · refine Or.inr ?_
    generalize hdata : pp.hashBytes = data at hnew
    cases hnew with
    | own horigin => exact horigin.elim
    | slot hslot hupdate hnext =>
      cases hupdate with
      | accept _ sender hsn hcom hnone hview =>
        subst hsn
        refine ⟨?_, hview, _, ?_, hnone, ?_⟩
        · rw [hnext, Orderer.record_out]
          rfl
        · rw [hview]
          exact hslot
        · rw [hnext, Orderer.record_state, hview]
          exact (State.slot?_setSlot _ _ _ _ _ _).trans (if_pos ⟨rfl, rfl⟩)

/-- The slot of a Preprepare whose hash was requested is not empty. -/
theorem MReachable.slot_of_hashRequested (hK : K.NoViewZero) (h : MReachable env p K o)
    (hx : HashRequested o pp) :
    ∃ slot, o.state.slot? pp.view pp.sn = some slot ∧ slot.preprepare.isSome = true := by
  induction h with
  | init h =>
    obtain ⟨_, _, hx⟩ := mem_out_initOrderer h hx
    cases hx
  | micro hr hstep ih =>
    rcases hstep.hashRequested_cases hx with hold | ⟨-, -, slot, -, -, hslot'⟩
    · obtain ⟨slot, hslot, hpp⟩ := ih hold
      exact hstep.preprepare_isSome hK hr.slotsWf hslot hpp
    · exact ⟨_, hslot', rfl⟩

theorem MReachable.hashRequested_view_le (hK : K.NoViewZero) (h : MReachable env p K o)
    (hx : HashRequested o pp) : pp.view ≤ o.state.view := by
  obtain ⟨slot, hslot, -⟩ := h.slot_of_hashRequested hK hx
  exact h.slotsWf.view_le hslot

/-- **At most one Preprepare is hashed for a view and a sequence number.** -/
theorem MReachable.hashRequested_unique (hK : K.NoViewZero) (h : MReachable env p K o)
    {pp pp' : Preprepare} (hx : HashRequested o pp) (hx' : HashRequested o pp')
    (hview : pp.view = pp'.view) (hsn : pp.sn = pp'.sn) : pp = pp' := by
  induction h with
  | init h =>
    obtain ⟨_, _, hx⟩ := mem_out_initOrderer h hx
    cases hx
  | @micro o₀ _ hr hstep ih =>
    -- the slot of an earlier request is not empty, that of a new one is
    have key : ∀ {q slot}, HashRequested o₀ q →
        o₀.state.slot? q.view q.sn = some slot → slot.preprepare = none → False := by
      intro q slot hq hslot hnone
      obtain ⟨slot₀, hslot₀, hsome⟩ := hr.slot_of_hashRequested hK hq
      rw [hslot₀] at hslot
      cases hslot
      rw [hnone] at hsome
      cases hsome
    rcases hstep.hashRequested_cases hx with hold | ⟨hout, -, slot, hslot, hnone, -⟩
    · rcases hstep.hashRequested_cases hx' with hold' | ⟨-, -, slot, hslot, hnone, -⟩
      · exact ih hold hold'
      · rw [← hview, ← hsn] at hslot
        exact (key hold hslot hnone).elim
    · rcases hstep.hashRequested_cases hx' with hold' | ⟨hout', -⟩
      · rw [hview, hsn] at hslot
        exact (key hold' hslot hnone).elim
      · rw [hout] at hout'
        have hlast := List.append_cancel_left hout'
        simp only [List.cons.injEq, Output.hashRequestOne.injEq, HashOneContext.preprepare.injEq,
          and_true] at hlast
        exact hlast.2

/-! ### Stored votes were received -/

/-- The Prepare and Commit messages stored in the slot of `sn` in view `v` were received for that
view and sequence number, those found valid for the slot's digest, which until the slot is
decided is the hash of the Preprepare the node has stored. -/
structure SlotVotes (env : Env) (o : Orderer) (v : ViewNr) (sn : SeqNr) (slot : PbftSlot) :
    Prop where
  prepares : ∀ id d, slot.prepareDigests.lookup id = some (some d) →
    .messageReceived id (.prepare ⟨sn, v, some d⟩) ∈ o.log
  commits : ∀ id d, slot.commitDigests.lookup id = some (some d) →
    .messageReceived id (.commit ⟨sn, v, some d⟩) ∈ o.log
  validPrepares : slot.prepared = false → ∀ id ∈ slot.validPrepareDigests.keys,
    slot.preprepared = true ∧
      .messageReceived id (.prepare ⟨sn, v, some slot.digest.bytes⟩) ∈ o.log
  validCommits : slot.committed = false → ∀ id ∈ slot.validCommitDigests.keys,
    slot.prepared = true ∧ .messageReceived id (.commit ⟨sn, v, some slot.digest.bytes⟩) ∈ o.log
  digest : (slot.preprepared = true ∧ slot.prepared = false) ∨
      (slot.prepared = true ∧ slot.committed = false) →
    ∃ pp, HashRequested o pp ∧ pp.view = v ∧ pp.sn = sn ∧
      slot.digest = some (env.hash pp.hashBytes)

theorem SlotVotes.mono (hg : Grows o o') (h : SlotVotes env o v sn slot) :
    SlotVotes env o' v sn slot := by
  refine ⟨fun id d hd => hg.log.subset (h.prepares id d hd),
    fun id d hd => hg.log.subset (h.commits id d hd), fun hprep id hid => ?_,
    fun hcom id hid => ?_, fun hstage => ?_⟩
  · obtain ⟨hpp, hrcv⟩ := h.validPrepares hprep id hid
    exact ⟨hpp, hg.log.subset hrcv⟩
  · obtain ⟨hprep, hrcv⟩ := h.validCommits hcom id hid
    exact ⟨hprep, hg.log.subset hrcv⟩
  · obtain ⟨pp, hreq, hpp⟩ := h.digest hstage
    exact ⟨pp, hg.out.subset hreq, hpp⟩

/-- A slot without votes that has not got past its Preprepare, such as a new one. -/
theorem slotVotes_of_empty (hp : slot.prepareDigests = ∅) (hc : slot.commitDigests = ∅)
    (hvp : slot.validPrepareDigests = ∅) (hvc : slot.validCommitDigests = ∅)
    (hpp : slot.preprepared = false) (hprep : slot.prepared = false) :
    SlotVotes env o v sn slot := by
  refine ⟨fun id d hd => ?_, fun id d hd => ?_, fun _ id hid => ?_, fun _ id hid => ?_,
    fun hstage => ?_⟩
  · rw [hp] at hd
    cases hd
  · rw [hc] at hd
    cases hd
  · rw [hvp] at hid
    cases hid
  · rw [hvc] at hid
    cases hid
  · rw [hpp, hprep] at hstage
    rcases hstage with ⟨hno, -⟩ | ⟨hno, -⟩
    · cases hno
    · cases hno

/-- A check takes votes only from those received, and counts those for the slot's digest. -/
theorem votes_checkDigests {m : Membership} {b : Bool}
    (h : checkDigests m digest received valid = .ok (received', valid', b))
    {R : NodeID → Bytes → Prop} (hr : ∀ id d, received.lookup id = some (some d) → R id d)
    (hv : ∀ id ∈ valid.keys, R id digest.bytes) :
    (∀ id d, received'.lookup id = some (some d) → R id d) ∧
      ∀ id ∈ valid'.keys, R id digest.bytes := by
  rcases checkDigests_cases h with ⟨rfl, rfl, -⟩ | ⟨rfl, rfl, -⟩
  · exact ⟨hr, hv⟩
  · constructor
    · intro id d hd
      rw [(lookup_validateDigests digest received valid id).1, Option.map_eq_some_iff] at hd
      obtain ⟨-, -, hd⟩ := hd
      cases hd
    · intro id hid
      rcases mem_keys_validateDigests_snd.mp hid with hold | hnew
      · exact hv id hold
      · exact hr id _ hnew

/-- A late or repeated hash result does not change the digest that votes were compared with. -/
theorem SlotVotes.digest_of_hashed (hK : K.NoViewZero) (hr : MReachable env p K o)
    (hs : SlotVotes env o o.state.view sn slot) (hreq : HashRequested o pp)
    (hview : ¬ pp.view < o.state.view) (hsn : pp.sn = sn)
    (hstage : (slot.preprepared = true ∧ slot.prepared = false) ∨
      (slot.prepared = true ∧ slot.committed = false)) :
    slot.digest = some (env.hash pp.hashBytes) := by
  obtain ⟨pp', hreq', hview', hsn', hdigest⟩ := hs.digest hstage
  have hle : pp.view ≤ o.state.view := hr.hashRequested_view_le hK hreq
  have heq : pp.view = o.state.view := UInt64.le_antisymm hle (UInt64.not_lt.mp hview)
  rw [hr.hashRequested_unique hK hreq hreq' (heq.trans hview'.symm) (hsn.trans hsn'.symm)]
  exact hdigest

theorem SlotUpdate.slotVotes (hK : K.NoViewZero) (hr : MReachable env p K o)
    {m : Option Mark} {x : Option Output}
    (h : SlotUpdate env p K o sn slot slot' m x) (hs : SlotVotes env o o.state.view sn slot) :
    SlotVotes env o o.state.view sn slot' := by
  cases h with
  | touch => exact hs
  | accept => exact ⟨hs.prepares, hs.commits, hs.validPrepares, hs.validCommits, hs.digest⟩
  | hashed pp data hsn hview hreq =>
    obtain rfl : data = pp.hashBytes := hr.hashRequestOne_data hreq
    have heq : pp.view = o.state.view :=
      UInt64.le_antisymm (hr.hashRequested_view_le hK hreq) (UInt64.not_lt.mp hview)
    refine ⟨hs.prepares, hs.commits, fun hprep id hid => ?_, fun hcom id hid => ?_,
      fun _ => ⟨pp, hreq, heq, hsn, rfl⟩⟩
    · obtain ⟨hpp, hrcv⟩ := hs.validPrepares hprep id hid
      rw [hs.digest_of_hashed hK hr hreq hview hsn (Or.inl ⟨hpp, hprep⟩)] at hrcv
      exact ⟨rfl, hrcv⟩
    · obtain ⟨hprep, hrcv⟩ := hs.validCommits hcom id hid
      rw [hs.digest_of_hashed hK hr hreq hview hsn (Or.inr ⟨hprep, hcom⟩)] at hrcv
      exact ⟨hprep, hrcv⟩
  | addPrepare d sender _ _ _ hrcv =>
    exact ⟨GoMap.forall_lookup_insert_some hs.prepares hrcv, hs.commits, hs.validPrepares,
      hs.validCommits, hs.digest⟩
  | addCommit d sender _ _ _ hrcv =>
    exact ⟨hs.prepares, GoMap.forall_lookup_insert_some hs.commits hrcv, hs.validPrepares,
      hs.validCommits, hs.digest⟩
  | checkPrepares received valid hpp hprep hcheck =>
    obtain ⟨hrec, hval⟩ := votes_checkDigests hcheck hs.prepares
      fun id hid => (hs.validPrepares hprep id hid).2
    exact ⟨hrec, hs.commits, fun _ id hid => ⟨hpp, hval id hid⟩, hs.validCommits, hs.digest⟩
  | prepare received valid hpp hprep hcheck =>
    obtain ⟨hrec, -⟩ := votes_checkDigests hcheck hs.prepares
      fun id hid => (hs.validPrepares hprep id hid).2
    refine ⟨hrec, hs.commits, fun hno => (nomatch hno), fun hcom id hid => ?_,
      fun _ => hs.digest (Or.inl ⟨hpp, hprep⟩)⟩
    -- before it was prepared, the slot had no valid Commit messages
    obtain ⟨hno, -⟩ := hs.validCommits hcom id hid
    rw [hprep] at hno
    cases hno
  | checkCommits received valid hcom hprep hcheck =>
    obtain ⟨hrec, hval⟩ := votes_checkDigests hcheck hs.commits
      fun id hid => (hs.validCommits hcom id hid).2
    exact ⟨hs.prepares, hrec, hs.validPrepares, fun _ id hid => ⟨hprep, hval id hid⟩, hs.digest⟩

theorem Decides.slotVotes {m : Mark} (h : Decides env o sn slot slot' m pp)
    (hcom : slot.committed = false) (hs : SlotVotes env o o.state.view sn slot) :
    SlotVotes env o o.state.view sn slot' := by
  cases h with
  | commit hprep hcheck =>
    obtain ⟨hrec, -⟩ := votes_checkDigests hcheck hs.commits
      fun id hid => (hs.validCommits hcom id hid).2
    refine ⟨hs.prepares, hrec, hs.validPrepares, fun hno => (nomatch hno), fun hstage => ?_⟩
    rcases hstage with ⟨-, hno⟩ | ⟨-, hno⟩
    · rw [hprep] at hno
      cases hno
    · cases hno
  | catchUp =>
    refine ⟨hs.prepares, hs.commits, fun hno => (nomatch hno), fun hno => (nomatch hno),
      fun hstage => ?_⟩
    rcases hstage with ⟨-, hno⟩ | ⟨-, hno⟩
    · cases hno
    · cases hno

/-- **The votes stored in slots were received.** -/
theorem MReachable.slotVotes (hK : K.NoViewZero) (h : MReachable env p K o)
    (hslot : o.state.slot? v sn = some slot) : SlotVotes env o v sn slot := by
  induction h generalizing v sn slot with
  | init h =>
    rw [slot?_initOrderer h hslot]
    exact slotVotes_of_empty rfl rfl rfl rfl rfl rfl
  | micro hr hstep ih =>
    rcases hstep.slot_cases hslot with hold | ⟨rfl, -, slot₀, hslot₀, hchange⟩ | ⟨-, -, -, hinit⟩
    · exact (ih hold).mono hstep.grows
    · refine SlotVotes.mono hstep.grows ?_
      cases hchange with
      | update hupdate => exact hupdate.slotVotes hK hr (ih hslot₀)
      | decide hcom hdec => exact hdec.slotVotes hcom (ih hslot₀)
    · cases hinit <;> exact slotVotes_of_empty rfl rfl rfl rfl rfl rfl

/-! ### Quorums -/

/-- A check that succeeds has found a strong quorum of members. -/
theorem isStrong_of_checkDigests {m : Membership} (hm : m.valid = none)
    (h : checkDigests m digest received valid = .ok (received', valid', true))
    (hr : ∀ id ∈ received.keys, id ∈ m.nodes.keys) (hv : ∀ id ∈ valid.keys, id ∈ m.nodes.keys) :
    IsStrong m.members m.w valid'.keys.toFinset := by
  have hmem := (keys_checkDigests h hr hv).2
  rcases checkDigests_cases h with ⟨-, -, hno⟩ | ⟨-, -, hq⟩
  · cases hno
  · exact (Membership.haveStrongQuorum_iff (Membership.readable_of_valid hm) hmem
      valid'.keys_nodup).mp hq

/-- A strong quorum of members from which the node has received the messages `msg`. -/
def ReceivedFromQuorum (p : ModuleParams) (o : Orderer) (msg : Message) : Prop :=
  ∃ Q, IsStrong p.segment.membership.members p.segment.membership.w Q ∧
    ∀ id ∈ Q, .messageReceived id msg ∈ o.log

theorem ReceivedFromQuorum.mono (hg : Grows o o')
    (h : ReceivedFromQuorum p o msg) : ReceivedFromQuorum p o' msg := by
  obtain ⟨Q, hQ, hrcv⟩ := h
  exact ⟨Q, hQ, fun id hid => hg.log.subset (hrcv id hid)⟩

/-- A strong quorum of members has voted for the digest. -/
def VotedFor (p : ModuleParams) (o : Orderer) (digest : ByteSlice) (vote : ByteSlice → Message) :
    Prop :=
  ∃ d, digest = some d ∧ ReceivedFromQuorum p o (vote (some d))

/-- Votes that a successful check of their digests has counted are from a strong quorum. -/
theorem SlotMembers.backed (hs : SlotMembers p slot) (vote : ByteSlice → Message)
    (h : checkDigests slot.membership slot.digest received valid = .ok (received', valid', true))
    (hr : ∀ id ∈ received.keys, id ∈ p.segment.membership.nodes.keys)
    (hv : ∀ id ∈ valid.keys, id ∈ p.segment.membership.nodes.keys)
    (hrcv : ∀ id d, received.lookup id = some (some d) →
      .messageReceived id (vote (some d)) ∈ o.log)
    (hvalid : ∀ id ∈ valid.keys, .messageReceived id (vote (some slot.digest.bytes)) ∈ o.log)
    (hd : ∃ d, slot.digest = some d) : VotedFor p o slot.digest vote := by
  obtain ⟨d, hd⟩ := hd
  rw [hs.membership] at h
  refine ⟨d, hd, _, isStrong_of_checkDigests p.segment.valid h hr hv, fun id hid => ?_⟩
  have hcounted := (votes_checkDigests h hrcv hvalid).2 id (List.mem_toFinset.mp hid)
  rwa [hd] at hcounted

/-- A mark is set with a strong quorum of the votes it stands for. -/
def Mark.Backed (p : ModuleParams) (o : Orderer) : Mark → Prop
  | .prepared v sn digest => VotedFor p o digest fun d => .prepare ⟨sn, v, d⟩
  | .committed v sn digest => VotedFor p o digest fun d => .commit ⟨sn, v, d⟩
  | _ => True

theorem Mark.Backed.mono {m : Mark} (hg : Grows o o') (h : m.Backed p o) : m.Backed p o' := by
  cases m with
  | prepared | committed =>
    obtain ⟨d, hd, hq⟩ := h
    exact ⟨d, hd, hq.mono hg⟩
  | _ => trivial

/-- **A slot is prepared with a strong quorum of Prepare messages for its digest, and committed with
one of Commit messages.** -/
theorem MReachable.backed (hK : K.NoViewZero) (h : MReachable env p K o) {m : Mark}
    (hm : m ∈ o.marks) : m.Backed p o := by
  induction h with
  | init h =>
    rw [(initOrderer_history h).2] at hm
    cases hm
  | micro hr hstep ih =>
    refine Mark.Backed.mono hstep.grows ?_
    rcases hstep.mem_marks hm with hold | hnew
    · exact ih hold
    · cases hnew with
      | slot hslot hupdate =>
        have hs := hr.slotMembers hslot
        have hvotes := hr.slotVotes hK hslot
        cases hupdate with
        | prepare received valid hpp hprep hcheck =>
          obtain ⟨pp, -, -, -, hd⟩ := hvotes.digest (.inl ⟨hpp, hprep⟩)
          exact hs.backed (fun d => .prepare ⟨_, _, d⟩) hcheck hs.prepares hs.validPrepares
            hvotes.prepares (fun id hid => (hvotes.validPrepares hprep id hid).2) ⟨_, hd⟩
      | decide hslot hcom hdec =>
        have hs := hr.slotMembers hslot
        have hvotes := hr.slotVotes hK hslot
        cases hdec with
        | commit hprep hcheck =>
          obtain ⟨pp, -, -, -, hd⟩ := hvotes.digest (.inr ⟨hprep, hcom⟩)
          exact hs.backed (fun d => .commit ⟨_, _, d⟩) hcheck hs.commits hs.validCommits
            hvotes.commits (fun id hid => (hvotes.validCommits hcom id hid).2) ⟨_, hd⟩
        | catchUp => trivial
      | accepted => trivial

/-! ### What a node sends -/

theorem mem_sent : msg ∈ o.sent ↔ ∃ x ∈ o.out, msg ∈ x.messages :=
  List.mem_flatMap

theorem sent_subset (hg : Grows o o') (h : msg ∈ o.sent) : msg ∈ o'.sent := by
  obtain ⟨x, hx, hmsg⟩ := mem_sent.mp h
  exact mem_sent.mpr ⟨x, hg.out.subset hx, hmsg⟩

theorem not_mem_sent_initOrderer (h : initOrderer p = .ok o) (msg : Message) : msg ∉ o.sent := by
  intro hm
  obtain ⟨x, hx, hmsg⟩ := mem_sent.mp hm
  obtain ⟨_, _, rfl⟩ := mem_out_initOrderer h hx
  cases hmsg

/-- **A sent message has its origin.** -/
theorem Micro.mem_sent_cases (h : Micro env p K o o') (hm : msg ∈ o'.sent) :
    msg ∈ o.sent ∨ ∃ x, msg ∈ x.messages ∧ EmitOrigin env p K o o' x := by
  obtain ⟨x, hx, hmsg⟩ := mem_sent.mp hm
  rcases h.mem_out hx with hold | hnew
  · exact Or.inl (mem_sent.mpr ⟨x, hold, hmsg⟩)
  · exact Or.inr ⟨x, hmsg, hnew⟩

/-- The messages that are repeated until they are answered. -/
def Message.Repeated : Message → Prop
  | .signedViewChange _ | .catchUpRequest _ _ | .done _ => True
  | _ => False

/-- A message is sent on its own, repeatedly, or with the update of a slot. -/
theorem EmitOrigin.message_cases {x : Output} (h : EmitOrigin env p K o o' x)
    (hm : msg ∈ x.messages) : (∃ dests, Origin env p o (.sendMessage msg dests)) ∨ msg.Repeated ∨
      ∃ sn slot slot' mark dests, o.slot? sn = some slot ∧
        SlotUpdate env p K o sn slot slot' mark (some (.sendMessage msg dests)) ∧
        o' = (o.setSlot sn slot').record mark (some (.sendMessage msg dests)) := by
  cases h with
  | own horigin =>
    cases x with
    | sendMessage msg' dests =>
      obtain rfl : msg = msg' := List.mem_singleton.mp hm
      exact .inl ⟨dests, horigin⟩
    | timerRepeat period retention msg' dests =>
      obtain rfl : msg = msg' := List.mem_singleton.mp hm
      obtain ⟨svc, rfl⟩ := horigin
      exact .inr (.inl trivial)
    | delayedTimerRepeat delay retention msgs dests =>
      obtain ⟨digest, sn, rfl⟩ := horigin msg hm
      exact .inr (.inl trivial)
    | _ => cases hm
  | slot hslot hupdate hnext =>
    cases x with
    | sendMessage msg' dests =>
      obtain rfl : msg = msg' := List.mem_singleton.mp hm
      exact .inr (.inr ⟨_, _, _, _, dests, hslot, hupdate, hnext⟩)
    | timerRepeat | delayedTimerRepeat => cases hupdate
    | _ => cases hm
  | done =>
    obtain rfl := List.mem_singleton.mp hm
    exact .inr (.inl trivial)
  | timer | deliver => cases hm

/-- **A Prepare message carries the hash of the Preprepare stored for its view and sequence
number.** -/
theorem MReachable.prepare_sent (hK : K.NoViewZero) (h : MReachable env p K o) {m : Prepare}
    (hm : .prepare m ∈ o.sent) :
    ∃ pp, HashRequested o pp ∧ pp.view = m.view ∧ pp.sn = m.sn ∧
      m.digest = some (env.hash pp.hashBytes) := by
  induction h with
  | init h => exact absurd hm (not_mem_sent_initOrderer h _)
  | micro hr hstep ih =>
    rcases hstep.mem_sent_cases hm with hold | ⟨x, hx, hnew⟩
    · obtain ⟨pp, hreq, hpp⟩ := ih hold
      exact ⟨pp, hstep.grows.out.subset hreq, hpp⟩
    · obtain ⟨_, hno⟩ | hno | ⟨sn, slot, slot', mark, dests, -, hupdate, -⟩ := hnew.message_cases hx
      · exact hno.elim
      · exact hno.elim
      cases hupdate with
      | hashed pp data hsn hview hreq =>
        obtain rfl : data = pp.hashBytes := hr.hashRequestOne_data hreq
        have heq := UInt64.le_antisymm (hr.hashRequested_view_le hK hreq) (UInt64.not_lt.mp hview)
        exact ⟨pp, hstep.grows.out.subset hreq, heq, hsn, rfl⟩

/-- A node sends at most one Prepare digest per view and sequence number. -/
theorem MReachable.prepare_sent_unique (hK : K.NoViewZero) (h : MReachable env p K o)
    {d d' : ByteSlice} (hm : .prepare ⟨sn, v, d⟩ ∈ o.sent)
    (hm' : .prepare ⟨sn, v, d'⟩ ∈ o.sent) : d = d' := by
  obtain ⟨pp, hreq, hview, hsn, hd⟩ := h.prepare_sent hK hm
  obtain ⟨pp', hreq', hview', hsn', hd'⟩ := h.prepare_sent hK hm'
  rw [h.hashRequested_unique hK hreq hreq' (hview.trans hview'.symm) (hsn.trans hsn'.symm)] at hd
  exact hd.trans hd'.symm

/-- **A Commit message is sent only for a digest that was prepared.** -/
theorem MReachable.commit_sent (h : MReachable env p K o) {d : ByteSlice}
    (hm : .commit ⟨sn, v, d⟩ ∈ o.sent) : .prepared v sn d ∈ o.marks := by
  induction h with
  | init h => exact absurd hm (not_mem_sent_initOrderer h _)
  | micro hr hstep ih =>
    rcases hstep.mem_sent_cases hm with hold | ⟨x, hx, hnew⟩
    · exact hstep.grows.marks.subset (ih hold)
    · obtain ⟨_, hno⟩ | hno | ⟨sn', slot, slot', mark, dests, -, hupdate, hnext⟩ :=
        hnew.message_cases hx
      · exact hno.elim
      · exact hno.elim
      cases hupdate with
      | prepare =>
        rw [hnext, Orderer.record_marks]
        exact List.mem_append_right _ (List.mem_singleton.mpr rfl)

end Mir.Orderers
