import Mir.Checkpoint.RoundTrip

/-!
# Agreement on checkpoints

The members of an epoch each run an instance of the checkpoint protocol (`Epoch`). Nodes of tolerated
weight are faulty and send anything; the signature of a correct node verifies only for what its
instance has asked to have signed.

An instance hashes one snapshot and signs its hash only (`Epoch.hashed_of_verify`). Any two announced
checkpoints have a correct signer in common, so their snapshots have the same hash
(`Epoch.announced_agree`). A certificate that is accepted has a weak quorum of signers only; its
snapshot is the one of a correct member (`Epoch.accepted_correct`).
-/

namespace Mir.Checkpoint

open WeightedQuorum

/-- The instances that the members of an epoch run, at any time. -/
structure Epoch (env : Crypto) (enc : MembershipCodec) where
  membership : Membership
  config : EpochConfig
  faulty : Finset NodeID
  leaderPolicyData : NodeID → ByteSlice
  resendPeriod : ℕ
  inst : NodeID → Instance
  readable : membership.Readable
  nonNeg : membership.NonNeg
  faulty_members : faulty ⊆ membership.members
  faulty_le : weight membership.w faulty ≤ tolerance membership.members membership.w
  reachable : ∀ id ∈ membership.members, id ∉ faulty →
    Reachable env enc ⟨id, membership, config, leaderPolicyData id, resendPeriod⟩ (inst id)
  unforgeable : ∀ id ∈ membership.members, id ∉ faulty → ∀ sn snapshotHash sig,
    env.verify (serializeCheckpointForSig config.epochNr sn snapshotHash).flatten sig id = true →
      ∃ data, .signRequest data ∈ (inst id).out ∧
        data.flatten = (serializeCheckpointForSig config.epochNr sn snapshotHash).flatten

namespace Epoch

variable {env : Crypto} {enc : MembershipCodec} (S : Epoch env enc)

/-- The parameters of a member's instance. -/
def params (id : NodeID) : ModuleParams :=
  ⟨id, S.membership, S.config, S.leaderPolicyData id, S.resendPeriod⟩

/-- A member that is not faulty. -/
def Correct (id : NodeID) : Prop := id ∈ S.membership.members ∧ id ∉ S.faulty

section Signing

variable {S} {id : NodeID} (hid : S.Correct id)

include hid

theorem inv_of_correct : Inv env enc (S.params id) (S.inst id) :=
  (S.reachable id hid.1 hid.2).inv S.readable S.nonNeg (Membership.mem_members.mp hid.1)

/-- A valid signature of a correct member is for the hash of its snapshot. -/
theorem hashed_of_verify {sn : SeqNr} {h sig : Bytes}
    (hverify : env.verify (serializeCheckpointForSig S.config.epochNr sn h).flatten sig id = true) :
    sn = S.config.firstSn ∧ Hashed env (S.inst id) h := by
  obtain ⟨data, hrequest, hdata⟩ := S.unforgeable id hid.1 hid.2 sn h sig hverify
  obtain ⟨d, hd, rfl⟩ := (inv_of_correct hid).sound _ hrequest
  obtain ⟨-, rfl, rfl⟩ := serializeCheckpointForSig_inj hdata
  exact ⟨rfl, hd⟩

theorem certified_of_announced {sc : StableCheckpoint} (hsc : sc ∈ (S.inst id).announcements) :
    Certified env enc (S.params id) sc :=
  (inv_of_correct hid).sound _ (mem_announcements.mp hsc)

/-- The signers of an announced checkpoint are a strong quorum, and correct ones have its hash. -/
theorem quorum_of_announced {sc : StableCheckpoint} (hsc : sc ∈ (S.inst id).announcements) :
    ∃ b A, sc.hashedBytes enc = .ok b ∧ IsStrong S.membership.members S.membership.w A ∧
      ∀ k ∈ A, k ∉ S.faulty → Hashed env (S.inst k) (env.hash b) := by
  have hcert := certified_of_announced hid hsc
  obtain ⟨epoch, snapshot, data, cert, hepoch, hsnapshot, hdata, -, hvalid, hstrong⟩ := hcert.signed
  obtain rfl : S.config.epochNr = epoch := Except.ok.inj (hcert.epoch.symm.trans hepoch)
  have hkeys : ∀ k ∈ cert.keys, k ∈ S.membership.nodes.keys := by
    intro k hk
    obtain ⟨sig, hsig⟩ := GoMap.mem_keys_iff.mp hk
    exact (hvalid k sig hsig).1
  have hquorum := (Membership.haveStrongQuorum_iff S.readable hkeys cert.keys_nodup).mp hstrong
  refine ⟨data.flatten, cert.keys.toFinset, ?_, hquorum, fun k hk hcorrect => ?_⟩
  · simp [StableCheckpoint.hashedBytes, hsnapshot, deref, hdata]
  · obtain ⟨sig, hsig⟩ := GoMap.mem_keys_iff.mp (List.mem_toFinset.mp hk)
    obtain ⟨hmem, hverify⟩ := hvalid k sig hsig
    exact (hashed_of_verify ⟨Membership.mem_members.mpr hmem, hcorrect⟩ hverify).2

end Signing

/-- An epoch with four members: `d` is faulty, and each of the others has announced a checkpoint. -/
theorem exists_members : ∃ env enc, ∃ S : Epoch env enc, S.faulty = {[100]} ∧
    ∀ id ∈ correctMembers, S.Correct id ∧ ∃ sc, sc ∈ (S.inst id).announcements := by
  have : Nonempty Instance := ⟨.new⟩
  choose! inst hr hsigned hsc using exists_announced [7] (by decide)
  have hmembers : ∀ id ∈ Membership.fourMembers.members, id ∉ ({[100]} : Finset NodeID) →
      id ∈ correctMembers := by decide +kernel
  let S : Epoch (memberCrypto [7]) fourCodec := {
    membership := .fourMembers
    config := (memberParams []).epochConfig
    faulty := {[100]}
    leaderPolicyData := fun _ => (memberParams []).leaderPolicyData
    resendPeriod := 0
    inst := inst
    readable := Membership.fourMembers_proper.readable
    nonNeg := Membership.fourMembers_proper.nonNeg
    faulty_members := by decide +kernel
    faulty_le := by decide +kernel
    reachable := fun id hid hcorrect => hr id (hmembers id hid hcorrect)
    unforgeable := fun id hid hcorrect _ _ _ hverify =>
      ⟨_, hsigned id (hmembers id hid hcorrect), (of_decide_eq_true hverify).2.symm⟩ }
  refine ⟨_, _, S, rfl, fun id hid => ⟨?_, memberChkp [7] id, by simp [S, hsc id hid]⟩⟩
  have hcorrect : ∀ id ∈ correctMembers,
      id ∈ Membership.fourMembers.members ∧ id ∉ ({[100]} : Finset NodeID) := by decide +kernel
  exact hcorrect id hid

/-- **Announced checkpoints agree**: any two checkpoints that correct members announce for an epoch
have the same epoch, the same sequence number and the same hash of the snapshot. -/
theorem announced_agree {i j : NodeID} (hi : S.Correct i) (hj : S.Correct j)
    {sc sc' : StableCheckpoint} (hsc : sc ∈ (S.inst i).announcements)
    (hsc' : sc' ∈ (S.inst j).announcements) :
    sc.epoch = sc'.epoch ∧ sc.sn = sc'.sn ∧ ∃ b b', sc.hashedBytes enc = .ok b ∧
      sc'.hashedBytes enc = .ok b' ∧ env.hash b = env.hash b' := by
  obtain ⟨b, A, hb, hA, hhash⟩ := quorum_of_announced hi hsc
  obtain ⟨b', A', hb', hA', hhash'⟩ := quorum_of_announced hj hsc'
  -- a correct member in both quorums has hashed only one snapshot
  obtain ⟨k, hk, hk', hcorrect⟩ :=
    hA.exists_mem_inter S.nonNeg hA' S.faulty_members S.faulty_le
  have hsame := (hhash k hk hcorrect).1.symm.trans (hhash' k hk' hcorrect).1
  have hcert := certified_of_announced hi hsc
  have hcert' := certified_of_announced hj hsc'
  exact ⟨hcert.epoch.trans hcert'.epoch.symm, hcert.sn.trans hcert'.sn.symm, b, b', hb, hb',
    Option.some.inj hsame⟩

/-- The checkpoints that `a` and `b` announce, while `d` is faulty. -/
theorem announced_agree_members : ∃ env enc, ∃ S : Epoch env enc, S.faulty = {[100]} ∧
    ∃ sc ∈ (S.inst [97]).announcements, ∃ sc' ∈ (S.inst [98]).announcements,
      sc.epoch = sc'.epoch ∧ sc.sn = sc'.sn ∧ ∃ b b', sc.hashedBytes enc = .ok b ∧
        sc'.hashedBytes enc = .ok b' ∧ env.hash b = env.hash b' := by
  obtain ⟨env, enc, S, hfaulty, hall⟩ := exists_members
  obtain ⟨hi, sc, hsc⟩ := hall [97] (by decide)
  obtain ⟨hj, sc', hsc'⟩ := hall [98] (by decide)
  exact ⟨env, enc, S, hfaulty, sc, hsc, sc', hsc', S.announced_agree hi hj hsc hsc'⟩

/-- **Accepted checkpoints are of a correct member**: if the certificate of a checkpoint with any
contents is accepted for the epoch, then the checkpoint has the first sequence number of the epoch,
and the hash of its snapshot is the one of a correct member's complete snapshot. -/
theorem accepted_correct {sc : StableCheckpoint} (hepoch : sc.epoch = .ok S.config.epochNr)
    (hcert : sc.verifyCert env enc S.membership = .ok none) :
    sc.sn = S.config.firstSn ∧ ∃ id b data, S.Correct id ∧ (S.inst id).state.snapshotReady = true ∧
      serializeSnapshotForHash enc ((S.params id).stateSnapshot (S.inst id).state) = .ok data ∧
      sc.hashedBytes enc = .ok b ∧ env.hash b = env.hash data.flatten := by
  obtain ⟨snapshot, data, epoch, hsnapshot, hdata, hepoch', hweak, hvalid⟩ :=
    StableCheckpoint.exists_of_verifyCert hcert
  obtain rfl : S.config.epochNr = epoch := Except.ok.inj (hepoch.symm.trans hepoch')
  obtain ⟨id, hid, hcorrect⟩ := Membership.exists_correct_of_haveWeakQuorum
    (AList.keys_nodup _) hweak (Membership.tolerates_of_nonNeg S.nonNeg S.faulty_members S.faulty_le)
  obtain ⟨sig, hsig⟩ := GoMap.mem_keys_iff.mp hid
  obtain ⟨hmem, hverify⟩ := hvalid id sig hsig
  have hid' : S.Correct id := ⟨Membership.mem_members.mpr hmem, hcorrect⟩
  obtain ⟨hsn, -, data', hrequest, heq⟩ := hashed_of_verify hid' hverify
  obtain ⟨hready, hown⟩ := (inv_of_correct hid').sound _ hrequest
  refine ⟨hsn, id, data.flatten, data', hid', hready, hown, ?_, heq⟩
  simp [StableCheckpoint.hashedBytes, hsnapshot, deref, hdata]

/-- The checkpoint that `a` announces is accepted. -/
theorem accepted_correct_members : ∃ env enc, ∃ S : Epoch env enc, S.faulty = {[100]} ∧
    ∃ sc : StableCheckpoint, sc.verifyCert env enc S.membership = .ok none ∧
      sc.sn = S.config.firstSn ∧ ∃ id b data, S.Correct id ∧
      (S.inst id).state.snapshotReady = true ∧
      serializeSnapshotForHash enc ((S.params id).stateSnapshot (S.inst id).state) = .ok data ∧
      sc.hashedBytes enc = .ok b ∧ env.hash b = env.hash data.flatten := by
  obtain ⟨env, enc, S, hfaulty, hall⟩ := exists_members
  obtain ⟨hid, sc, hsc⟩ := hall [97] (by decide)
  have hcert := certified_of_announced hid hsc
  exact ⟨env, enc, S, hfaulty, sc, hcert.verifies,
    S.accepted_correct hcert.epoch hcert.verifies⟩

end Epoch

end Mir.Checkpoint
