import Mir.Iss.Handlers

/-!
# Runs of ISS

A run starts with a checkpoint and handles events; which events may come is a parameter of
`Reachable`. `startEpoch_eq_ok_iff` says what starting an epoch does.

The handlers are sequences of elementary steps (`Micro`): suspecting a node, committing or
delivering one entry, advancing the epoch, installing a checkpoint, and so on. `step_micros` splits
every handler into such steps, and `Reachable.induction` is the rule by which an invariant of the
elementary steps holds in every reachable instance.
-/

namespace Mir.Iss

open Checkpoint Fallible

variable {env : Env} {sorts : Sorts} {i i' : Instance}

/-! ### Starting an epoch -/

section Starting

variable {membership : Membership} {leaders : List NodeID} {epochNr : EpochNr}
  {chkp : StableCheckpoint}

/-- The segment of the leader with the given index among `count`. -/
def segmentFor (env : Env) (first : SeqNr) (membership : Membership) (count index : ℕ)
    (leader : NodeID) : Segment :=
  ⟨leader, membership,
    freeProposals (first + index.toUInt64) count.toUInt64 env.segmentLength⟩

/-- The segments of the leaders from the given index on. -/
def segmentsFrom (env : Env) (first : SeqNr) (membership : Membership) (count : ℕ) :
    ℕ → List NodeID → List Segment
  | _, [] => []
  | index, leader :: rest =>
    segmentFor env first membership count index leader ::
      segmentsFrom env first membership count (index + 1) rest

/-- The events that create the orderers of segments, from the given index on. -/
def ordererOutputs (epoch : EpochNr) : ℕ → List Segment → List Output
  | _, [] => []
  | index, seg :: rest => .newOrderer (.segment epoch index) seg :: ordererOutputs epoch (index + 1) rest

/-- Append segments to the current epoch. -/
def Instance.addAll (i : Instance) (index : ℕ) (segs : List Segment) : Instance where
  state :=
    { i.state with
      newEpochSN := i.state.newEpochSN + (segs.map Segment.len).sum.toUInt64
      epoch := { i.state.epoch with segments := i.state.epoch.segments ++ segs } }
  out := i.out ++ ordererOutputs i.state.epoch.nr index segs

theorem Instance.addAll_nil (i : Instance) (index : ℕ) : i.addAll index [] = i := by
  simp [Instance.addAll, ordererOutputs]

theorem Instance.addAll_addSegment (i : Instance) (index : ℕ) (seg : Segment)
    (segs : List Segment) :
    (i.addSegment index seg).addAll (index + 1) segs = i.addAll index (seg :: segs) := by
  have hsum : i.state.newEpochSN + seg.len.toUInt64 + (segs.map Segment.len).sum.toUInt64
      = i.state.newEpochSN + (seg.len + (segs.map Segment.len).sum).toUInt64 := by
    rw [UInt64.add_assoc, Nat.toUInt64_eq, Nat.toUInt64_eq, Nat.toUInt64_eq, UInt64.ofNat_add]
  simp [Instance.addAll, Instance.addSegment, ordererOutputs, hsum]

theorem newSegment_eq_ok_iff {leader : NodeID} {proposals : GoMap SeqNr ByteSlice} {seg : Segment} :
    newSegment leader membership proposals = .ok seg ↔
      leader ∈ membership.nodes.keys ∧ seg = ⟨leader, membership, proposals⟩ := by
  unfold newSegment
  split
  next h => simp [h]
  next h =>
    rw [not_not] at h
    simp [h, eq_comm]

/-- The loop of `initOrderers` completes if every leader is a member, and then appends one segment
for each of them. -/
theorem addSegments_eq_ok_iff {count index : ℕ} :
    addSegments env count index leaders i = .ok i' ↔
      (∀ leader ∈ leaders, leader ∈ i.state.epoch.membership.nodes.keys) ∧
      i' = i.addAll index (segmentsFrom env i.state.nextDeliveredSN i.state.epoch.membership count
        index leaders) := by
  induction leaders generalizing index i with
  | nil => simp [addSegments, segmentsFrom, Instance.addAll_nil, eq_comm]
  | cons leader rest ih =>
    rw [addSegments, bind_eq_ok]
    constructor
    · rintro ⟨seg, hseg, hrest⟩
      obtain ⟨hmem, rfl⟩ := newSegment_eq_ok_iff.mp hseg
      obtain ⟨hall, rfl⟩ := ih.mp hrest
      refine ⟨List.forall_mem_cons.mpr ⟨hmem, hall⟩, ?_⟩
      exact Instance.addAll_addSegment _ _ _ _
    · rintro ⟨hall, rfl⟩
      obtain ⟨hmem, hrest⟩ := List.forall_mem_cons.mp hall
      refine ⟨_, newSegment_eq_ok_iff.mpr ⟨hmem, rfl⟩, ih.mpr ⟨hrest, ?_⟩⟩
      exact (Instance.addAll_addSegment _ _ _ _).symm

/-- The instance after an epoch with the given membership and leaders has been started. -/
def Instance.started (env : Env) (i : Instance) (epochNr : EpochNr) (membership : Membership)
    (leaders : List NodeID) : Instance :=
  (i.enterEpoch env epochNr membership).addAll 0
    (segmentsFrom env i.state.nextDeliveredSN membership leaders.length 0 leaders)

/-- **Starting an epoch** completes if the policy names leaders, twice, and those of the second call
are members; each of them then gets a segment. -/
theorem startEpoch_eq_ok_iff :
    startEpoch env sorts epochNr i = .ok i' ↔
      ∃ membership logged leaders, i' = i.started env epochNr membership leaders ∧
        i.state.memberships[0]? = some membership ∧
        i.state.leaderPolicy.leadersBy sorts.log = .ok logged ∧
        i.state.leaderPolicy.leadersBy sorts.init = .ok leaders ∧
        ∀ leader ∈ leaders, leader ∈ membership.nodes.keys := by
  simp only [startEpoch, initOrderers, bind_eq_ok, index_eq_ok]
  constructor
  · rintro ⟨membership, hm, logged, hlog, leaders, hleaders, hadd⟩
    obtain ⟨hall, rfl⟩ := addSegments_eq_ok_iff.mp hadd
    exact ⟨membership, logged, leaders, rfl, hm, hlog, hleaders, hall⟩
  · rintro ⟨membership, logged, leaders, rfl, hm, hlog, hleaders, hall⟩
    exact ⟨membership, hm, logged, hlog, leaders, hleaders, addSegments_eq_ok_iff.mpr ⟨hall, rfl⟩⟩

theorem mem_ordererOutputs {epoch : EpochNr} {index : ℕ} {segs : List Segment} {o : Output}
    (h : o ∈ ordererOutputs epoch index segs) :
    ∃ k seg, o = .newOrderer (.segment epoch k) seg ∧ seg ∈ segs := by
  induction segs generalizing index with
  | nil => simp [ordererOutputs] at h
  | cons seg segs ih =>
    rcases List.mem_cons.mp h with rfl | h
    · exact ⟨index, seg, rfl, List.mem_cons_self⟩
    · obtain ⟨k, seg', rfl, hmem⟩ := ih h
      exact ⟨k, seg', rfl, List.mem_cons_of_mem _ hmem⟩

/-- The events of starting an epoch. -/
theorem mem_out_started {o : Output} (h : o ∈ (i.started env epochNr membership leaders).out) :
    o ∈ i.out ∨ o = .newEpoch epochNr ∨ (∃ n, o = .newAvailability epochNr membership n) ∨
      o = .computeCert epochNr ∨ ∃ k seg, o = .newOrderer (.segment epochNr k) seg ∧
        seg ∈ segmentsFrom env i.state.nextDeliveredSN membership leaders.length 0 leaders := by
  simp only [Instance.started, Instance.addAll, Instance.enterEpoch, List.mem_append,
    List.mem_cons, List.not_mem_nil, or_false] at h
  rcases h with (h | rfl | rfl | rfl) | h
  · exact .inl h
  · exact .inr (.inl rfl)
  · exact .inr (.inr (.inl ⟨_, rfl⟩))
  · exact .inr (.inr (.inr (.inl rfl)))
  · exact .inr (.inr (.inr (.inr (mem_ordererOutputs h))))

theorem newEpoch_mem_out_started :
    .newEpoch epochNr ∈ (i.started env epochNr membership leaders).out := by
  simp [Instance.started, Instance.addAll, Instance.enterEpoch]

theorem membership_of_mem_segmentsFrom {first : SeqNr} {count index : ℕ} {seg : Segment}
    (h : seg ∈ segmentsFrom env first membership count index leaders) :
    seg.membership = membership := by
  induction leaders generalizing index with
  | nil => simp [segmentsFrom] at h
  | cons leader rest ih =>
    rcases List.mem_cons.mp h with rfl | h
    · rfl
    · exact ih h

theorem mapM_deref_eq_ok_iff {α : Type} {l : List (Option α)} {as : List α} :
    l.mapM deref = (.ok as : Fallible (List α)) ↔ l = as.map some := by
  induction l generalizing as with
  | nil => cases as <;> simp
  | cons x l ih =>
    simp only [List.mapM_cons, bind_eq_ok, deref_eq_ok, ih, pure_eq_ok,
      Except.ok.injEq]
    constructor
    · rintro ⟨a, rfl, as, rfl, rfl⟩
      rfl
    · intro h
      cases as with
      | nil => simp at h
      | cons a as =>
        rw [List.map_cons, List.cons.injEq] at h
        exact ⟨a, h.1, as, h.2, rfl⟩

/-- The first epoch of a run is started from the starting checkpoint. -/
theorem new_eq_ok_some (h : new env chkp = .ok (some i)) :
    ∃ data policy epoch memberships,
      i = ⟨⟨⟨epoch, chkp.sn, env.params.initialMembership, policy, []⟩, ∅, memberships, none, ∅,
        chkp.sn, chkp.sn, chkp, 0, policy⟩, []⟩ ∧
      chkp.memberships = .ok (memberships.map some) ∧
      chkp.verify env.crypto env.membershipCodec env.configOffset env.params.initialMembership
        = .ok none ∧
      chkp.epoch = .ok epoch ∧ chkp.epochData = .ok data ∧
      LeaderPolicy.fromBytes env.policyCodec data.leaderPolicy.bytes = some policy := by
  unfold new at h
  split at h
  · cases h
  · obtain ⟨data, hdata, h⟩ := bind_eq_ok.mp h
    split at h
    · cases h
    · next policy hpolicy =>
      obtain ⟨result, hverify, h⟩ := bind_eq_ok.mp h
      cases result with
      | some e => cases h
      | none =>
        obtain ⟨epoch, hepoch, h⟩ := bind_eq_ok.mp h
        obtain ⟨pointers, hpointers, h⟩ := bind_eq_ok.mp h
        obtain ⟨memberships, hmemberships, h⟩ := bind_eq_ok.mp h
        have hmap := mapM_deref_eq_ok_iff.mp hmemberships
        rw [pure_eq_ok, Except.ok.injEq, Option.some.injEq] at h
        exact ⟨data, policy, epoch, memberships, h.symm, hmap ▸ hpointers, hverify, hepoch, hdata,
          hpolicy⟩

/-- The instance after `advanceEpoch` from the given pipeline. -/
def Instance.advanced (env : Env) (i : Instance) (oldMembership : Membership)
    (memberships : List Membership) (membership : Membership) (leaders : List NodeID) : Instance :=
  let j := (i.shiftMemberships memberships membership).started env (i.state.epoch.nr + 1) membership
    leaders
  j.emitAll [.newCheckpoint (checkpointParams env j.state oldMembership),
    .snapshotRequest (i.state.epoch.nr + 1)]

/-- **Advancing the epoch** takes the announced membership into the pipeline, reconfigures the
policy, and starts the next epoch. -/
theorem advanceEpoch_eq_ok (h : advanceEpoch env sorts i = .ok i') :
    ∃ oldMembership next memberships membership leaders,
      i' = i.advanced env oldMembership memberships membership leaders ∧
      memberships = i.state.memberships.drop 1 ++ [next] ∧ memberships[0]? = some membership ∧
      i.state.nextNewMembership = some next ∧ i.state.memberships[0]? = some oldMembership ∧
      (i.state.leaderPolicy.reconfigure membership).leadersBy sorts.init = .ok leaders := by
  simp only [advanceEpoch, bind_eq_ok, index_eq_ok, deref_eq_ok, startEpoch_eq_ok_iff] at h
  obtain ⟨oldMembership, hold, next, hnext, membership, hm, j, hstart, hj⟩ := h
  obtain ⟨m, logged, leaders, rfl, hm', -, hleaders, -⟩ := hstart
  obtain rfl : membership = m := by
    rw [Instance.shiftMemberships, hm] at hm'
    exact Option.some.inj hm'
  rw [pure_eq_ok, Except.ok.injEq] at hj
  exact ⟨oldMembership, next, _, membership, leaders, hj.symm, rfl, hm, hnext, hold, hleaders⟩

/-- The instance after a checkpoint has been installed. -/
def Instance.installed (env : Env) (i : Instance) (chkp : StableCheckpoint) (policy : LeaderPolicy)
    (epoch : EpochNr) (memberships : List Membership) (membership : Membership)
    (leaders : List NodeID) : Instance :=
  ((i.restore chkp policy memberships).started env epoch membership leaders).emitAll
    (installOutputs chkp epoch)

/-- **Installing a checkpoint** restores its state and starts its epoch. -/
theorem install_eq_ok {policy : LeaderPolicy} (h : install env sorts chkp policy i = .ok i') :
    ∃ epoch memberships membership leaders,
      i' = i.installed env chkp policy epoch memberships membership leaders ∧
      chkp.epoch = .ok epoch ∧ chkp.memberships = .ok (memberships.map some) ∧
      memberships[0]? = some membership ∧ policy.leadersBy sorts.init = .ok leaders ∧
      ∀ leader ∈ leaders, leader ∈ membership.nodes.keys := by
  simp only [install, bind_eq_ok, mapM_deref_eq_ok_iff, startEpoch_eq_ok_iff] at h
  obtain ⟨epoch, hepoch, pointers, hpointers, memberships, rfl, logged, -, j, hstart, hj⟩ := h
  obtain ⟨m, -, leaders, rfl, hm, -, hleaders, hall⟩ := hstart
  rw [pure_eq_ok, Except.ok.injEq] at hj
  exact ⟨epoch, memberships, m, leaders, hj.symm, hepoch, hpointers, hm, hleaders, hall⟩

end Starting

/-! ### Elementary steps -/

/-- The entry that handling an event commits. -/
inductive Commits (env : Env) : Event → CommitLogEntry → Prop
  | aborted {sn data leader epoch index} :
      Commits env (.sbDeliver sn data true leader (.segment epoch index))
        (newLogEntry env sn data true leader)
  | unparsable {sn data leader epoch index} (hdata : env.unmarshalCert data = none) :
      Commits env (.sbDeliver sn data false leader (.segment epoch index))
        (newLogEntry env sn [] true leader)
  | invalid {context} :
      Commits env (.certVerified false context) (newLogEntry env context.sn [] true context.leader)
  | valid {context} :
      Commits env (.certVerified true context)
        (newLogEntry env context.sn context.data context.aborted context.leader)

/-- The node that handling an event suspects before the entry is delivered. -/
inductive Blames (env : Env) : Event → NodeID → Prop
  | unparsable {sn data leader epoch index} (hdata : env.unmarshalCert data = none) :
      Blames env (.sbDeliver sn data false leader (.segment epoch index)) leader
  | invalid {context} : Blames env (.certVerified false context) context.leader

/-- Events for other modules that no other part of ISS refers to. -/
def Output.isAuxiliary : Output → Bool
  | .newOrderer (.chkp _) _ => true
  | .newPreprepareValidator _ _ => true
  | .validateCheckpoint _ _ _ => true
  | .sendStableCheckpoint _ _ => true
  | .garbageCollect _ _ => true
  | .repeatPushCheckpoint _ _ => true
  | _ => false

/-- The elementary steps of handling an event that arrives in the instance `i₀`. -/
inductive Micro (env : Env) (sorts : Sorts) (i₀ : Instance) : Event → Instance → Instance → Prop
  | suspect {ev node policy} (hev : Blames env ev node)
      (hpolicy : i₀.state.leaderPolicy.suspect i₀.state.epoch.nr node = .ok policy) :
      Micro env sorts i₀ ev i₀ (i₀.withPolicy policy)
  | commit {ev entry i} (hev : Commits env ev entry) : Micro env sorts i₀ ev i (i.commit entry)
  | deliver {ev entry policy cert i} (hchkp : i.state.hasEpochCheckpoint)
      (hentry : i.state.commitLog.lookup i.state.nextDeliveredSN = some entry)
      (haborted : entry.aborted = true →
        i.state.leaderPolicy.suspect i.state.epoch.nr entry.suspect = .ok policy)
      (hpolicy : entry.aborted = false → policy = i.state.leaderPolicy)
      (hcert : (if entry.aborted then some (some []) else env.unmarshalCert entry.certData)
        = some cert) :
      Micro env sorts i₀ ev i ((i.withPolicy policy).deliver cert entry.aborted)
  | advance {ev i j} (hfin : i.state.epochFinished) (hj : advanceEpoch env sorts i = .ok j) :
      Micro env sorts i₀ ev i j
  | requestCert {sn data leader epoch index cert} (hdata : env.unmarshalCert data = some cert) :
      Micro env sorts i₀ (.sbDeliver sn data false leader (.segment epoch index)) i₀
        (i₀.emit (.verifyCert i₀.state.epoch.nr cert ⟨sn, data, false, leader⟩))
  | stabilize {sn data aborted leader epoch chkp} (hdata : env.deserialize data = some chkp)
      (hsn : i₀.state.lastStableCheckpoint.sn < chkp.sn) :
      Micro env sorts i₀ (.sbDeliver sn data aborted leader (.chkp epoch)) i₀ (i₀.stabilize chkp)
  | announce {epochNr membership} (hnr : ¬ epochNr < i₀.state.epoch.nr)
      (hnone : i₀.state.nextNewMembership = none) :
      Micro env sorts i₀ (.newConfig epochNr membership) i₀ (i₀.announce membership)
  | quiet {ev i nodeEpochMap pendingSN os} (hos : ∀ o ∈ os, o.isAuxiliary = true) :
      Micro env sorts i₀ ev i
        ⟨{ i.state with nodeEpochMap := nodeEpochMap, lastPendingCheckpointSN := pendingSN },
          i.out ++ os⟩
  | install {chkp epoch data policy j} (hepoch : chkp.epoch = .ok epoch)
      (hahead : ¬ membershipOffset epoch i₀.state.epoch.nr ≤ 0) (hdata : chkp.epochData = .ok data)
      (hpolicy : LeaderPolicy.fromBytes env.policyCodec data.leaderPolicy.bytes = some policy)
      (hj : install env sorts chkp policy i₀ = .ok j) :
      Micro env sorts i₀ (.checkpointValidated none chkp) i₀ j

/-- The current epoch and its end are the same. -/
def SameEpoch (i j : Instance) : Prop :=
  j.state.epoch = i.state.epoch ∧ j.state.newEpochSN = i.state.newEpochSN

/-- A sequence of elementary steps in which at most one, and then the last that matters, starts an
epoch: a step that does is followed only by steps in the new epoch. -/
inductive Micros (env : Env) (sorts : Sorts) (i₀ : Instance) (ev : Event) :
    Instance → Instance → Prop
  | refl {i : Instance} : Micros env sorts i₀ ev i i
  | cons {i j k : Instance} (hfirst : Micro env sorts i₀ ev i j) (hepoch : SameEpoch i j ∨ SameEpoch j k)
      (hrest : Micros env sorts i₀ ev j k) : Micros env sorts i₀ ev i k

section Splitting

variable {i₀ : Instance} {ev : Event} {sn : SeqNr} {data : Bytes} {aborted : Bool} {leader : NodeID}
  {epoch epochNr : EpochNr} {membership : Membership} {chkp : StableCheckpoint}

namespace Micros

theorem single (h : Micro env sorts i₀ ev i i') : Micros env sorts i₀ ev i i' :=
  .cons h (.inr ⟨rfl, rfl⟩) .refl

theorem head {j : Instance} (h : Micro env sorts i₀ ev i j) (hsame : SameEpoch i j)
    (hrest : Micros env sorts i₀ ev j i') : Micros env sorts i₀ ev i i' :=
  .cons h (.inl hsame) hrest

theorem tail {j : Instance} (h : Micros env sorts i₀ ev i j) (hlast : Micro env sorts i₀ ev j i')
    (hsame : SameEpoch j i') : Micros env sorts i₀ ev i i' := by
  induction h with
  | refl => exact .single hlast
  | cons hfirst hepoch _ ih =>
    refine .cons hfirst (hepoch.imp_right fun h => ?_) (ih hlast hsame)
    exact ⟨hsame.1.trans h.1, hsame.2.trans h.2⟩

end Micros

/-- Emitting auxiliary events is an elementary step. -/
theorem Micro.emitAll {os : List Output} (hos : ∀ o ∈ os, o.isAuxiliary = true) :
    Micro env sorts i₀ ev i (i.emitAll os) :=
  .quiet hos

theorem Instance.suspect_eq_ok {node : NodeID} (h : i.suspect node = .ok i') :
    ∃ policy, i.state.leaderPolicy.suspect i.state.epoch.nr node = .ok policy ∧
      i' = i.withPolicy policy := by
  obtain ⟨policy, hpolicy, h⟩ := bind_eq_ok.mp h
  rw [pure_eq_ok, Except.ok.injEq] at h
  exact ⟨policy, hpolicy, h.symm⟩

/-- Delivering an entry suspects the leader of an aborted one. -/
theorem deliverEntry_eq_ok {entry : CommitLogEntry} (h : deliverEntry env entry i = .ok i') :
    ∃ policy cert, i' = (i.withPolicy policy).deliver cert entry.aborted ∧
      (entry.aborted = true → i.state.leaderPolicy.suspect i.state.epoch.nr entry.suspect
        = .ok policy) ∧
      (entry.aborted = false → policy = i.state.leaderPolicy) ∧
      (if entry.aborted then some (some []) else env.unmarshalCert entry.certData) = some cert := by
  unfold deliverEntry at h
  cases haborted : entry.aborted with
  | true =>
    simp only [haborted, if_true, Instance.suspect, bind_eq_ok, pure_eq_ok, Except.ok.injEq] at h
    obtain ⟨j, ⟨policy, hpolicy, rfl⟩, rfl⟩ := h
    exact ⟨policy, some [], rfl, fun _ => hpolicy, by simp, rfl⟩
  | false =>
    rw [haborted] at h
    split at h
    · next hno => cases hno
    split at h
    · cases h
    · next cert hcert =>
      cases h
      exact ⟨i.state.leaderPolicy, cert, rfl, by simp, fun _ => rfl, hcert⟩

/-- The deliveries of `processCommitted`, before the steps that follow them. -/
theorem deliverReady_micros {n : ℕ} {j : Instance} (hchkp : i.state.hasEpochCheckpoint)
    (h : deliverReady env n i = .ok j) (hrest : Micros env sorts i₀ ev j i') :
    Micros env sorts i₀ ev i i' := by
  induction n generalizing i with
  | zero =>
    cases h
    exact hrest
  | succ n ih =>
    rw [deliverReady] at h
    split at h
    · cases h
      exact hrest
    · next entry hentry =>
      obtain ⟨k, hk, h⟩ := bind_eq_ok.mp h
      obtain ⟨policy, cert, rfl, haborted, hpolicy, hcert⟩ := deliverEntry_eq_ok hk
      exact .head (.deliver hchkp hentry haborted hpolicy hcert) ⟨rfl, rfl⟩ (ih hchkp h)

theorem processCommitted_micros (h : processCommitted env sorts i = .ok i') :
    Micros env sorts i₀ ev i i' := by
  unfold processCommitted at h
  split at h
  · cases h
    exact .refl
  · next hchkp =>
    rw [not_not] at hchkp
    obtain ⟨j, hj, h⟩ := bind_eq_ok.mp h
    refine deliverReady_micros hchkp hj ?_
    split at h
    next hfin => exact .single (.advance hfin h)
    next =>
      cases h
      exact .refl

theorem deliverCert_micros
    (hev : Commits env ev (newLogEntry env sn data aborted leader))
    (h : deliverCert env sorts sn data aborted leader i = .ok i') : Micros env sorts i₀ ev i i' :=
  .head (.commit hev) ⟨rfl, rfl⟩ (processCommitted_micros h)

theorem verifyCert_micros {k : ℕ} (h : verifyCert env sorts sn data false leader i = .ok i') :
    Micros env sorts i (.sbDeliver sn data false leader (.segment epoch k)) i i' := by
  unfold verifyCert at h
  split at h
  · next hdata =>
    obtain ⟨j, hj, h⟩ := bind_eq_ok.mp h
    obtain ⟨policy, hpolicy, rfl⟩ := Instance.suspect_eq_ok hj
    exact .head (.suspect (.unparsable hdata) hpolicy) ⟨rfl, rfl⟩
      (deliverCert_micros (.unparsable hdata) h)
  · next cert hdata =>
    cases h
    exact .single (.requestCert hdata)

theorem deliverCommonCheckpoint_micros (h : deliverCommonCheckpoint env sorts data i = .ok i') :
    Micros env sorts i (.sbDeliver sn data aborted leader (.chkp epoch)) i i' := by
  unfold deliverCommonCheckpoint at h
  split at h
  · cases h
  · next chkp hdata =>
    split at h
    · cases h
      exact .refl
    · next hsn =>
      obtain ⟨chkpEpoch, -, h⟩ := bind_eq_ok.mp h
      obtain ⟨-, -, h⟩ := bind_eq_ok.mp h
      obtain ⟨j, hj, h⟩ := bind_eq_ok.mp h
      have hmicros : Micros env sorts i (.sbDeliver sn data aborted leader (.chkp epoch)) i j :=
        .head (.stabilize hdata (UInt64.not_le.mp hsn)) ⟨rfl, rfl⟩ (processCommitted_micros hj)
      simp only [pure_eq_ok, Except.ok.injEq] at h
      subst h
      split
      · refine hmicros.tail (.emitAll fun o ho => ?_) ⟨rfl, rfl⟩
        simp only [pruneOutputs, List.mem_cons, List.not_mem_nil, or_false] at ho
        rcases ho with rfl | rfl | rfl | rfl | rfl | rfl | rfl <;> rfl
      · exact hmicros

theorem uponSBDeliver_micros {instanceID : OrdererID}
    (h : uponSBDeliver env sorts sn data aborted leader instanceID i = .ok i') :
    Micros env sorts i (.sbDeliver sn data aborted leader instanceID) i i' := by
  cases instanceID with
  | chkp epoch => exact deliverCommonCheckpoint_micros h
  | segment epoch k =>
    cases aborted with
    | true => exact deliverCert_micros .aborted h
    | false => exact verifyCert_micros h

theorem uponCertVerified_micros {valid : Bool} {context : VerifyCertContext}
    (h : uponCertVerified env sorts valid context i = .ok i') :
    Micros env sorts i (.certVerified valid context) i i' := by
  cases valid with
  | true => exact deliverCert_micros .valid h
  | false =>
    obtain ⟨j, hj, h⟩ := bind_eq_ok.mp h
    obtain ⟨policy, hpolicy, rfl⟩ := Instance.suspect_eq_ok hj
    exact .head (.suspect .invalid hpolicy) ⟨rfl, rfl⟩ (deliverCert_micros .invalid h)

theorem uponNewConfig_micros (h : uponNewConfig env sorts epochNr membership i = .ok i') :
    Micros env sorts i (.newConfig epochNr membership) i i' := by
  unfold uponNewConfig at h
  split at h
  · cases h
    exact .refl
  · next hnr =>
    split at h
    · cases h
    · next hnone =>
      rw [Option.not_isSome_iff_eq_none] at hnone
      refine .head (.announce hnr hnone) ⟨rfl, rfl⟩ ?_
      split at h
      · next hfin => exact .single (.advance hfin h)
      · cases h
        exact .refl

theorem uponEpochProgress_micros (node : NodeID) (epoch : EpochNr) :
    Micros env sorts i₀ ev i (uponEpochProgress node epoch i) := by
  unfold uponEpochProgress
  split
  · have hmicro : Micro env sorts i₀ ev i _ :=
      @Micro.quiet _ _ _ _ _ (i.state.nodeEpochMap.insert node epoch)
        i.state.lastPendingCheckpointSN [] (by simp)
    rw [List.append_nil] at hmicro
    exact .single hmicro
  · exact .refl

/-- A checkpoint of the checkpoint protocol is ignored, or gets an orderer. -/
theorem uponStableCheckpoint_micros (h : uponStableCheckpoint env chkp i = .ok i') :
    Micros env sorts i₀ ev i i' := by
  unfold uponStableCheckpoint at h
  split at h
  · cases h
    exact .refl
  · simp only [bind_eq_ok, pure_eq_ok, Except.ok.injEq] at h
    obtain ⟨epoch, -, -, -, -, -, membership, -, -, -, -, -, seg, -, rfl⟩ := h
    refine .single (.quiet fun o ho => ?_)
    simp only [List.mem_cons, List.not_mem_nil, or_false] at ho
    rcases ho with rfl | rfl <;> rfl

theorem uponPushCheckpoint_micros (h : uponPushCheckpoint env i = .ok i') :
    Micros env sorts i₀ ev i i' := by
  simp only [uponPushCheckpoint, bind_eq_ok, pure_eq_ok, Except.ok.injEq] at h
  obtain ⟨epoch, -, pointers, -, pointer, -, membership, -, rfl⟩ := h
  exact .single (.emitAll fun o ho => by rw [List.mem_singleton.mp ho]; rfl)

theorem uponStableCheckpointReceived_micros
    (h : uponStableCheckpointReceived chkp i = .ok i') : Micros env sorts i₀ ev i i' := by
  obtain ⟨epoch, hepoch, h⟩ := bind_eq_ok.mp h
  split at h
  · cases h
    exact .refl
  · cases h
    exact .single (.emitAll fun o ho => by rw [List.mem_singleton.mp ho]; rfl)

theorem uponCheckpointValidated_micros {err : Option ValidationError}
    (h : uponCheckpointValidated env sorts err chkp i = .ok i') :
    Micros env sorts i (.checkpointValidated err chkp) i i' := by
  unfold uponCheckpointValidated at h
  split at h
  · cases h
    exact .refl
  · next herr =>
    obtain rfl := Option.not_isSome_iff_eq_none.mp herr
    obtain ⟨epoch, hepoch, h⟩ := bind_eq_ok.mp h
    split at h
    · cases h
      exact .refl
    · next hahead =>
      obtain ⟨data, hdata, h⟩ := bind_eq_ok.mp h
      split at h
      · cases h
        exact .refl
      · next policy hpolicy => exact .single (.install hepoch hahead hdata hpolicy h)

/-- **Every handler is a sequence of elementary steps.** -/
theorem step_micros (h : step env sorts i ev = .ok i') : Micros env sorts i ev i i' := by
  cases ev with
  | sbDeliver sn data aborted leader instanceID => exact uponSBDeliver_micros h
  | certVerified valid context => exact uponCertVerified_micros h
  | newConfig epochNr membership => exact uponNewConfig_micros h
  | epochProgress node epoch =>
    cases h
    exact uponEpochProgress_micros node epoch
  | stableCheckpoint chkp => exact uponStableCheckpoint_micros h
  | pushCheckpoint => exact uponPushCheckpoint_micros h
  | stableCheckpointReceived sender chkp => exact uponStableCheckpointReceived_micros h
  | checkpointValidated err chkp => exact uponCheckpointValidated_micros h

end Splitting

/-- Elementary steps only add to the emitted events. -/
theorem Micro.out_grows {i₀ : Instance} {ev : Event} (h : Micro env sorts i₀ ev i i') :
    i.out <+: i'.out := by
  cases h with
  | suspect | commit | announce => exact List.prefix_refl _
  | deliver | requestCert | stabilize | quiet => exact List.prefix_append _ _
  | advance _ hj =>
    obtain ⟨old, next, memberships, membership, leaders, rfl, -⟩ := advanceEpoch_eq_ok hj
    simp only [Instance.advanced, Instance.emitAll, Instance.started, Instance.addAll,
      Instance.enterEpoch, List.append_assoc]
    exact List.prefix_append _ _
  | install _ _ _ _ hj =>
    obtain ⟨epoch, memberships, membership, leaders, rfl, -⟩ := install_eq_ok hj
    simp only [Instance.installed, Instance.emitAll, Instance.started, Instance.addAll,
      Instance.enterEpoch, Instance.restore, List.append_assoc]
    exact List.prefix_append _ _

/-! ### Runs -/

/-- The instances that a run from a starting checkpoint reaches, when each event is one that
`Allowed` lets arrive in the instance that handles it. -/
inductive Reachable (env : Env) (startingChkp : StableCheckpoint)
    (Allowed : Instance → Event → Prop) : Instance → Prop
  | start {sorts : Sorts} {i i' : Instance} (hnew : new env startingChkp = .ok (some i))
      (hinit : uponInit env sorts i = .ok i') : Reachable env startingChkp Allowed i'
  | step {sorts : Sorts} {i : Instance} {ev : Event} {i' : Instance}
      (hi : Reachable env startingChkp Allowed i) (hev : Allowed i ev)
      (hstep : step env sorts i ev = .ok i') : Reachable env startingChkp Allowed i'

section Invariants

variable {startingChkp : StableCheckpoint} {Allowed : Instance → Event → Prop}

/-- What the elementary steps of handling an event keep holds after the event. An elementary step
that starts an epoch leads to the epoch in which the event ends. -/
theorem step_invariant {P : Instance → Prop} {ev : Event} (hstep : step env sorts i ev = .ok i')
    (hi : P i)
    (hmicro : ∀ {a b}, i.out <+: a.out → P a → Micro env sorts i ev a b →
      SameEpoch a b ∨ SameEpoch b i' → P b) : P i' := by
  -- the induction follows the steps from an intermediate instance to the end
  suffices h : ∀ {a}, Micros env sorts i ev a i' → i.out <+: a.out → P a → P i' from
    h (step_micros hstep) (List.prefix_refl _) hi
  intro a hmicros
  clear hstep
  induction hmicros with
  | refl => exact fun _ ha => ha
  | cons hfirst hepoch _ ih =>
    intro hpre ha
    exact ih hmicro (hpre.trans hfirst.out_grows) (hmicro hpre ha hfirst hepoch)

/-- **The invariant rule**: what holds when the first epoch has been started, and is kept by every
elementary step of an allowed event, holds in every reachable instance. -/
theorem Reachable.induction {P : Instance → Prop}
    (hstart : ∀ {sorts : Sorts} {i i' : Instance}, new env startingChkp = .ok (some i) →
      uponInit env sorts i = .ok i' → P i')
    (hmicro : ∀ {sorts : Sorts} {i₀ : Instance} {ev : Event} {i j : Instance},
      Reachable env startingChkp Allowed i₀ → P i₀ → Allowed i₀ ev →
      i₀.out <+: i.out → P i → Micro env sorts i₀ ev i j → P j)
    (h : Reachable env startingChkp Allowed i) : P i := by
  induction h with
  | start hnew hinit => exact hstart hnew hinit
  | step hi hev hstep ih =>
    exact step_invariant hstep ih fun hpre ha hab _ => hmicro hi ih hev hpre ha hab

end Invariants

end Mir.Iss
