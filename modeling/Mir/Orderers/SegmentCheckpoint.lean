import Mir.Orderers.Segment

/-!
# The segment-level checkpoint

`PbftSegmentChkp` collects the Done messages of the members. Messages are grouped under the
string that concatenates their digests, and once the senders under one string form a weak
quorum the digests of the message that completed the quorum are taken as those of the segment.

The senders are recorded exactly (`nodeDoneAll_registers`): under each string stand the members
whose first Done message concatenates to it. But the string does not determine the list, so a
completing message may split the same bytes differently from what a correct member sent. The
digests come from a correct member exactly when the completing message carries the same list
as every message registered under its string (`digestsFromCorrect_iff`).
-/

namespace Mir.Orderers

open WeightedQuorum

/-- `PbftSegmentChkp`. A `nil` list of done nodes is the empty one: a list under a string is
never empty. -/
structure PbftSegmentChkp where
  doneReceived : GoMap NodeID Unit
  doneMsgIndex : GoMap GoString (List NodeID)
  digests : Option (GoMap SeqNr Bytes)
  done : Bool
  doneNodes : List NodeID
  catchingUp : Bool

namespace PbftSegmentChkp

/-- `NewPbftSegmentChkp`. -/
def new : PbftSegmentChkp := ⟨∅, ∅, none, false, [], false⟩

/-- `SetDone`. -/
def setDone (chkp : PbftSegmentChkp) : PbftSegmentChkp := { chkp with done := true }

/-- The loop of `Stable` over the entries of `doneMsgIndex`. -/
def anyStrongQuorum (membership : Membership) : List (List NodeID) → Fallible Bool
  | [] => .ok false
  | nodeIDs :: rest => do
    if ← membership.haveStrongQuorum nodeIDs then return true
    else anyStrongQuorum membership rest

/-- `Stable`. -/
def stable (chkp : PbftSegmentChkp) (membership : Membership) : Fallible Bool :=
  if chkp.done then anyStrongQuorum membership (chkp.doneMsgIndex.entries.map Sigma.snd)
  else .ok false

/-- `aggregateToString`. -/
def aggregateToString (digests : List Bytes) : GoString := digests.flatten

/-- The loop of `NodeDone` that assigns the `i`-th digest to the `i`-th sequence number. -/
def assignDigests (doneDigests : List Bytes) :
    ℕ → List SeqNr → GoMap SeqNr Bytes → Fallible (GoMap SeqNr Bytes)
  | _, [], digests => .ok digests
  | i, sn :: sns, digests => do
    let digest ← index doneDigests i
    assignDigests doneDigests (i + 1) sns (digests.insert sn digest)

/-- What `NodeDone` does when the senders under the string of the new message form a weak
quorum. -/
def quorumReached (chkp : PbftSegmentChkp) (nodes : List NodeID) (doneDigests : List Bytes)
    (segment : Segment) : Fallible PbftSegmentChkp :=
  match chkp.digests with
  | some _ => .ok { chkp with doneNodes := nodes }
  | none => do
    let digests ← assignDigests doneDigests 0 segment.seqNrs ∅
    return { chkp with doneNodes := nodes, digests := some digests }

/-- The members registered under a string. -/
def nodesUnder (chkp : PbftSegmentChkp) (strKey : GoString) : List NodeID :=
  (chkp.doneMsgIndex.lookup strKey).getD []

/-- The bookkeeping of `NodeDone` for the first Done message of a node. -/
def register (chkp : PbftSegmentChkp) (nodeID : NodeID) (strKey : GoString) : PbftSegmentChkp :=
  { chkp with
    doneReceived := chkp.doneReceived.insert nodeID ()
    doneMsgIndex := chkp.doneMsgIndex.insert strKey (chkp.nodesUnder strKey ++ [nodeID]) }

/-- `NodeDone`. -/
def nodeDone (chkp : PbftSegmentChkp) (nodeID : NodeID) (doneDigests : List Bytes)
    (segment : Segment) : Fallible PbftSegmentChkp :=
  if nodeID ∈ chkp.doneReceived.keys then .ok chkp
  else do
    let strKey := aggregateToString doneDigests
    let registered := chkp.register nodeID strKey
    if ← segment.membership.haveWeakQuorum (registered.nodesUnder strKey) then
      registered.quorumReached (registered.nodesUnder strKey) doneDigests segment
    else return registered

/-- The checkpoint after a sequence of Done messages. -/
def nodeDoneAll (segment : Segment) (msgs : List (NodeID × List Bytes)) :
    Fallible PbftSegmentChkp :=
  msgs.foldlM (fun chkp msg => chkp.nodeDone msg.1 msg.2 segment) new

/-! ### Assigning the digests -/

/-- The loop completes when there are enough digests, and then reads them in order. -/
theorem lookup_of_assignDigests {doneDigests : List Bytes} {i : ℕ} {sns : List SeqNr}
    {m m' : GoMap SeqNr Bytes} (hnd : sns.Nodup)
    (h : assignDigests doneDigests i sns m = .ok m') :
    (∀ (j : ℕ) (sn : SeqNr), sns[j]? = some sn → m'.lookup sn = doneDigests[i + j]? ∧
        (m'.lookup sn).isSome) ∧
      ∀ sn, sn ∉ sns → m'.lookup sn = m.lookup sn := by
  induction sns generalizing i m with
  | nil =>
    cases h
    simp
  | cons a sns ih =>
    obtain ⟨d, hd, hrest⟩ := Fallible.bind_eq_ok.mp h
    rw [index_eq_ok] at hd
    obtain ⟨ha, hnd'⟩ := List.nodup_cons.mp hnd
    obtain ⟨hin, hout⟩ := ih hnd' hrest
    have hself : m'.lookup a = some d := by
      rw [hout a ha, GoMap.lookup_insert_eq, if_pos rfl]
    refine ⟨?_, ?_⟩
    · rintro (_ | j) sn hsn
      · obtain rfl : a = sn := by simpa using hsn
        rw [hself, Nat.add_zero, hd]
        simp
      · have := hin j sn (by simpa using hsn)
        rwa [show i + 1 + j = i + (j + 1) by omega] at this
    · intro sn hsn
      rw [List.mem_cons, not_or] at hsn
      rw [hout sn hsn.2, GoMap.lookup_insert_eq, if_neg hsn.1]

/-! ### What one Done message does -/

variable {chkp chkp' : PbftSegmentChkp} {seg : Segment} {msgs : List (NodeID × List Bytes)}
  {id : NodeID} {L : List Bytes}

/-- What can happen when a Done message is registered. -/
theorem nodeDone_cases {nodeID : NodeID} (h : chkp.nodeDone nodeID L seg = .ok chkp') :
    (nodeID ∈ chkp.doneReceived.keys ∧ chkp' = chkp) ∨
      nodeID ∉ chkp.doneReceived.keys ∧
        (chkp' = chkp.register nodeID (aggregateToString L) ∨
          seg.membership.haveWeakQuorum ((chkp.register nodeID (aggregateToString L)).nodesUnder
              (aggregateToString L)) = .ok true ∧
            (chkp.register nodeID (aggregateToString L)).quorumReached
              ((chkp.register nodeID (aggregateToString L)).nodesUnder (aggregateToString L)) L
              seg = .ok chkp') := by
  unfold nodeDone at h
  split at h
  · next hmem => exact Or.inl ⟨hmem, (Except.ok.inj h).symm⟩
  · next hmem =>
    obtain ⟨b, hb, h⟩ := Fallible.bind_eq_ok.mp h
    refine Or.inr ⟨hmem, ?_⟩
    cases b with
    | false => exact Or.inl (Except.ok.inj h).symm
    | true => exact Or.inr ⟨hb, h⟩

/-- A quorum changes only the done nodes and the digests. -/
theorem quorumReached_frame {nodes : List NodeID} (h : chkp.quorumReached nodes L seg = .ok chkp') :
    chkp'.doneReceived = chkp.doneReceived ∧ chkp'.doneMsgIndex = chkp.doneMsgIndex ∧
      chkp'.doneNodes = nodes ∧ chkp'.done = chkp.done ∧ chkp'.catchingUp = chkp.catchingUp := by
  unfold quorumReached at h
  split at h
  · cases h
    exact ⟨rfl, rfl, rfl, rfl, rfl⟩
  · obtain ⟨d, -, hd⟩ := Fallible.bind_eq_ok.mp h
    cases hd
    exact ⟨rfl, rfl, rfl, rfl, rfl⟩

theorem nodesUnder_register (chkp : PbftSegmentChkp) (nodeID : NodeID) (strKey key : GoString) :
    (chkp.register nodeID strKey).nodesUnder key =
      if key = strKey then chkp.nodesUnder strKey ++ [nodeID] else chkp.nodesUnder key := by
  rw [nodesUnder, register, GoMap.lookup_insert_eq]
  split <;> rfl

/-! ### What a sequence of Done messages does -/

/-- **The registers follow the messages**: the nodes seen are the senders, and under each
string stand, once each, the nodes whose first message concatenates to it. -/
structure Registers (msgs : List (NodeID × List Bytes)) (chkp : PbftSegmentChkp) : Prop where
  received : ∀ id, id ∈ chkp.doneReceived.keys ↔ (msgs.lookup id).isSome
  under : ∀ key id, id ∈ chkp.nodesUnder key ↔
    ∃ L, msgs.lookup id = some L ∧ aggregateToString L = key
  nodup : ∀ key, (chkp.nodesUnder key).Nodup

theorem registers_new : Registers [] new := by
  constructor <;> simp [new, nodesUnder]

/-- The first message of a node, after one more message of another node or of a known one. -/
theorem lookup_append_of_isSome (h : (msgs.lookup id).isSome) (n : NodeID) :
    (msgs ++ [(id, L)]).lookup n = msgs.lookup n := by
  rw [List.lookup_append]
  by_cases hn : n = id
  · subst hn
    obtain ⟨M, hM⟩ := Option.isSome_iff_exists.mp h
    simp [hM]
  · simp [List.lookup, beq_eq_false_iff_ne.mpr hn]

theorem lookup_append_of_isNone (h : msgs.lookup id = none) (n : NodeID) :
    (msgs ++ [(id, L)]).lookup n = if n = id then some L else msgs.lookup n := by
  rw [List.lookup_append]
  by_cases hn : n = id
  · subst hn
    simp [h, List.lookup]
  · simp [List.lookup, beq_eq_false_iff_ne.mpr hn, hn]

theorem Registers.register (hreg : Registers msgs chkp) (L : List Bytes)
    (hid : id ∉ chkp.doneReceived.keys) :
    Registers (msgs ++ [(id, L)]) (chkp.register id (aggregateToString L)) := by
  have hnone : msgs.lookup id = none :=
    Option.not_isSome_iff_eq_none.mp ((hreg.received id).not.mp hid)
  refine ⟨fun n => ?_, fun key n => ?_, fun key => ?_⟩
  · rw [lookup_append_of_isNone hnone]
    by_cases hn : n = id
    · simp [PbftSegmentChkp.register, AList.keys_insert, hn]
    · have := hreg.received n
      simp [PbftSegmentChkp.register, AList.keys_insert, hn, List.mem_erase_of_ne, this]
  · rw [nodesUnder_register, lookup_append_of_isNone hnone]
    by_cases hn : n = id
    · -- the sender itself stands under its own string and, being new, under no other
      have hout : n ∉ chkp.nodesUnder key := by
        rw [hreg.under key n, hn, hnone]
        simp
      subst hn
      split
      · next hkey => simp [hkey]
      · next hkey =>
        simp only [hout, if_pos, Option.some.injEq, false_iff]
        rintro ⟨M, rfl, hM⟩
        exact hkey hM.symm
    · split
      · next hkey => simp [hn, hreg.under, hkey]
      · exact hreg.under key n
  · rw [nodesUnder_register]
    split
    · have hout : id ∉ chkp.nodesUnder (aggregateToString L) := by
        rw [hreg.under, hnone]
        simp
      exact List.nodup_append.mpr ⟨hreg.nodup _, by simp, by
        intro a ha b hb
        rw [List.mem_singleton.mp hb]
        exact fun heq => hout (heq ▸ ha)⟩
    · exact hreg.nodup key

/-- One more Done message keeps the registers in step with the messages. -/
theorem Registers.nodeDone (hreg : Registers msgs chkp) (h : chkp.nodeDone id L seg = .ok chkp') :
    Registers (msgs ++ [(id, L)]) chkp' := by
  rcases nodeDone_cases h with ⟨hmem, rfl⟩ | ⟨hmem, rfl | ⟨-, hq⟩⟩
  · have hsome := (hreg.received id).mp hmem
    refine ⟨fun n => ?_, fun key n => ?_, hreg.nodup⟩
    · rw [lookup_append_of_isSome hsome, hreg.received]
    · rw [lookup_append_of_isSome hsome, hreg.under]
  · exact hreg.register L hmem
  · have hstep := hreg.register L hmem
    obtain ⟨hrec, hidx, -⟩ := quorumReached_frame hq
    refine ⟨fun n => ?_, fun key n => ?_, fun key => ?_⟩
    · rw [hrec, hstep.received]
    · rw [nodesUnder, hidx]
      exact hstep.under key n
    · rw [nodesUnder, hidx]
      exact hstep.nodup key

/-- **After any sequence of Done messages** the registers follow the messages. -/
theorem nodeDoneAll_registers (h : nodeDoneAll seg msgs = .ok chkp) : Registers msgs chkp := by
  induction msgs using List.reverseRecOn generalizing chkp with
  | nil =>
    cases h
    exact registers_new
  | append_singleton msgs msg ih =>
    rw [nodeDoneAll, List.foldlM_append] at h
    obtain ⟨mid, hmid, hlast⟩ := Fallible.bind_eq_ok.mp h
    rw [List.foldlM_cons] at hlast
    obtain ⟨next, hnext, hpure⟩ := Fallible.bind_eq_ok.mp hlast
    cases hpure
    exact (ih hmid).nodeDone hnext

/-! ### Where the digests come from -/

/-- The digests of the checkpoint were sent by a correct member, and the done nodes are nodes
that sent exactly these. The messages are those received so far; a node reported what its
first message says. -/
def DigestsFromCorrect (seg : Segment) (F : Finset NodeID) (msgs : List (NodeID × List Bytes))
    (chkp : PbftSegmentChkp) : Prop :=
  ∃ D : List Bytes,
    (∃ c ∈ seg.membership.members, c ∉ F ∧ msgs.lookup c = some D) ∧
    (∀ (i : ℕ) (sn : SeqNr), seg.seqNrs[i]? = some sn →
      ∃ d, D[i]? = some d ∧ (chkp.digests.bind fun m => m.lookup sn) = some d) ∧
    ∀ id ∈ chkp.doneNodes, msgs.lookup id = some D

/-- The message that sets the digests completes a weak quorum of nodes registered under its
string. -/
theorem nodeDone_sets_digests (h : chkp.nodeDone id L seg = .ok chkp')
    (hnone : chkp.digests = none) (hsome : chkp'.digests.isSome) :
    id ∉ chkp.doneReceived.keys ∧
      seg.membership.haveWeakQuorum chkp'.doneNodes = .ok true ∧
      chkp'.doneNodes = (chkp.register id (aggregateToString L)).nodesUnder
        (aggregateToString L) ∧
      ∃ m, chkp'.digests = some m ∧ assignDigests L 0 seg.seqNrs ∅ = .ok m := by
  rcases nodeDone_cases h with ⟨-, rfl⟩ | ⟨hmem, rfl | ⟨hweak, hq⟩⟩
  · simp [hnone] at hsome
  · simp [register, hnone] at hsome
  · obtain ⟨-, -, hnodes, -⟩ := quorumReached_frame hq
    refine ⟨hmem, by rw [hnodes, hweak], hnodes, ?_⟩
    have hreg : (chkp.register id (aggregateToString L)).digests = none := hnone
    simp only [quorumReached, hreg] at hq
    obtain ⟨m, hm, hok⟩ := Fallible.bind_eq_ok.mp hq
    cases hok
    exact ⟨m, rfl, hm⟩

/-- **When the digests of the segment come from a correct member.** Let a Done message set the
digests, after any sequence of Done messages by members, of which the faulty ones are within
the fault bound. The digests are those a correct member sent, and the done nodes all sent
them, exactly when every message registered under the string of the completing message carries
the same list. -/
theorem digestsFromCorrect_iff {seg : Segment} {F : Finset NodeID}
    (hF : seg.membership.Tolerates F) {msgs : List (NodeID × List Bytes)}
    (hmem : ∀ msg ∈ msgs, msg.1 ∈ seg.membership.members) {id : NodeID} {L : List Bytes}
    (hid : id ∈ seg.membership.members) {chkp chkp' : PbftSegmentChkp}
    (hrun : nodeDoneAll seg msgs = .ok chkp) (hstep : chkp.nodeDone id L seg = .ok chkp')
    (hnone : chkp.digests = none) (hsome : chkp'.digests.isSome) :
    DigestsFromCorrect seg F (msgs ++ [(id, L)]) chkp' ↔
      ∀ n M, msgs.lookup n = some M → aggregateToString M = aggregateToString L → M = L := by
  have hreg := (nodeDoneAll_registers hrun).register L
    (nodeDone_sets_digests hstep hnone hsome).1
  obtain ⟨hnew, hweak, hnodes, m, hm, hassign⟩ := nodeDone_sets_digests hstep hnone hsome
  have hlookup : msgs.lookup id = none :=
    Option.not_isSome_iff_eq_none.mp (((nodeDoneAll_registers hrun).received id).not.mp hnew)
  have hmine : (msgs ++ [(id, L)]).lookup id = some L := by
    rw [lookup_append_of_isNone hlookup, if_pos rfl]
  have hunder := hreg.under (aggregateToString L)
  rw [← hnodes] at hunder
  constructor
  · rintro ⟨D, -, -, hall⟩ n M hn hagg
    -- both the sender and `n` are done nodes, so both reported `D`
    have hne : n ≠ id := by
      rintro rfl
      rw [hlookup] at hn
      cases hn
    have hn' : (msgs ++ [(id, L)]).lookup n = some M := by
      rw [lookup_append_of_isNone hlookup, if_neg hne, hn]
    have hD : some L = some D := by
      rw [← hmine, hall id ((hunder id).mpr ⟨L, hmine, rfl⟩)]
    have hDM : some M = some D := by
      rw [← hn', hall n ((hunder n).mpr ⟨M, hn', hagg⟩)]
    rw [Option.some.inj hDM, Option.some.inj hD]
  · intro hcond
    have hall : ∀ n ∈ chkp'.doneNodes, (msgs ++ [(id, L)]).lookup n = some L := by
      intro n hn
      obtain ⟨M, hM, hagg⟩ := (hunder n).mp hn
      by_cases hne : n = id
      · rw [hne, hmine]
      · rw [lookup_append_of_isNone hlookup, if_neg hne] at hM ⊢
        rw [hM, hcond n M hM hagg]
    have hsub : ∀ n ∈ chkp'.doneNodes, n ∈ seg.membership.nodes.keys := by
      intro n hn
      obtain ⟨M, hM, -⟩ := (hunder n).mp hn
      have hin := List.lookup_eq_some_iff.mp hM
      obtain ⟨l₁, l₂, hsplit, -⟩ := hin
      have hpair : (n, M) ∈ msgs ++ [(id, L)] := by
        rw [hsplit]
        simp
      rcases List.mem_append.mp hpair with hold | hlast
      · exact Membership.mem_members.mp (hmem _ hold)
      · rw [List.mem_singleton] at hlast
        rw [(Prod.mk.inj hlast).1]
        exact Membership.mem_members.mp hid
    have hnd : chkp'.doneNodes.Nodup := by
      rw [hnodes]
      exact hreg.nodup _
    obtain ⟨c, hcW, hcm, hcF⟩ := Membership.exists_correct_of_isWeak hF
      ((Membership.haveWeakQuorum_iff (Membership.readable_of_valid seg.valid) hsub hnd).mp hweak)
    refine ⟨L, ⟨c, hcm, hcF, hall c (List.mem_toFinset.mp hcW)⟩, ?_, hall⟩
    intro i sn hsn
    obtain ⟨heq, hisSome⟩ := (lookup_of_assignDigests seg.seqNrs_nodup hassign).1 i sn hsn
    rw [Nat.zero_add] at heq
    obtain ⟨d, hd⟩ := Option.isSome_iff_exists.mp hisSome
    exact ⟨d, by rw [← heq, hd], by rw [hm]; exact hd⟩

/-! ### Splitting the same bytes differently -/

/-- Four nodes of weight one, led by the first, agree on two sequence numbers. -/
def fourNodes : Segment where
  leader := [97]
  membership := .ofWeights [([97], [49]), ([98], [49]), ([99], [49]), ([100], [49])]
  proposals := GoMap.ofKeys [0, 1] fun _ => none
  leader_mem := by decide +kernel
  valid := by decide +kernel

/-- In `fourNodes` any single node may be faulty. -/
theorem fourNodes_tolerates : fourNodes.membership.Tolerates {[100]} := by
  intro S hS
  rcases Finset.subset_singleton_iff.mp hS with rfl | rfl <;> decide +kernel

/-- Two correct nodes that sent the same digests complete a quorum for them. -/
theorem digestsFromCorrect_fourNodes :
    ∃ chkp chkp', nodeDoneAll fourNodes [([97], [[1], [2]])] = .ok chkp ∧
      chkp.nodeDone [98] [[1], [2]] fourNodes = .ok chkp' ∧
      DigestsFromCorrect fourNodes {[100]} [([97], [[1], [2]]), ([98], [[1], [2]])] chkp' := by
  refine ⟨_, _, rfl, rfl, ?_⟩
  have hmem : ∀ msg ∈ [(([97] : NodeID), [([1] : Bytes), [2]])],
      msg.1 ∈ fourNodes.membership.members := by decide +kernel
  refine (digestsFromCorrect_iff fourNodes_tolerates hmem (by decide +kernel) rfl rfl rfl
    rfl).mpr ?_
  intro n M hM _
  obtain ⟨l₁, l₂, hsplit, -⟩ := List.lookup_eq_some_iff.mp hM
  have hpair : (n, M) ∈ [(([97] : NodeID), [([1] : Bytes), [2]])] := by
    rw [hsplit]
    simp
  exact (Prod.mk.inj (List.mem_singleton.mp hpair)).2

/-- **A faulty node decides the digests**: after a correct node reported the digests `1` and
`2`, the faulty node reports the digest `1 2` and an empty one. The strings agree, the weak
quorum is complete, and the digests set are those of the faulty node. -/
theorem digests_from_faulty_node :
    ∃ chkp chkp', nodeDoneAll fourNodes [([97], [[1], [2]])] = .ok chkp ∧
      chkp.nodeDone [100] [[1, 2], []] fourNodes = .ok chkp' ∧ chkp.digests = none ∧
      (chkp'.digests.bind fun m => m.lookup 0) = some [1, 2] ∧
      ¬ DigestsFromCorrect fourNodes {[100]} [([97], [[1], [2]]), ([100], [[1, 2], []])]
        chkp' := by
  refine ⟨_, _, rfl, rfl, rfl, rfl, ?_⟩
  rintro ⟨D, -, -, hall⟩
  have ha := hall [97] (by decide +kernel)
  have hd := hall [100] (by decide +kernel)
  rw [← hd] at ha
  exact absurd ha (by decide)

end PbftSegmentChkp

end Mir.Orderers
