import Mir.Iss.Execution
import Mir.Checkpoint.Completion

/-!
# Agreeing on a common checkpoint

When an instance of the checkpoint protocol announces the checkpoint of epoch `e`, ISS creates an
orderer to agree on it, and `CheckpointPreprepareValidator` is asked about what the orderer's primary
proposes. The checkpoint that is agreed on is delivered to `deliverCommonCheckpoint`.

The validator is not told the epoch. It accepts the certified checkpoint of any epoch with the same
previous membership, and one for epoch 0 without any certificate: `forged_first_epoch`. What is
accepted is the certified checkpoint of epoch `e`, with its first sequence number, exactly if it is
for epoch `e`: `accepted_ownCheckpoint_iff`. That the sequence number is the right one follows from
what correct members sign (`HonestSignatures`).
-/

namespace Mir.Iss

open Checkpoint Fallible

variable {env : Env} {sorts : Sorts} {i j : Instance}

/-! ### What correct members sign -/

/-- Nodes outside `F` sign only what their instances of the checkpoint protocol ask for: if the
signature of a checkpoint's data verifies, then one of the node's instances has asked for it. The
instances for an epoch have the first sequence number of that epoch. -/
def HonestSignatures (crypto : Crypto) (enc : MembershipCodec) (F : Finset NodeID)
    (firstSN : EpochNr → SeqNr) : Prop :=
  ∀ node ∉ F, ∀ epoch sn snapshotHash sig,
    crypto.verify (serializeCheckpointForSig epoch sn snapshotHash).flatten sig node = true →
      ∃ p c data, Checkpoint.Reachable crypto enc p c ∧ p.ownID = node ∧
        p.epochConfig.firstSn = firstSN p.epochConfig.epochNr ∧ .signRequest data ∈ c.out ∧
        data.flatten = (serializeCheckpointForSig epoch sn snapshotHash).flatten

/-- A correct member signs checkpoints with the first sequence number of their epoch. -/
theorem HonestSignatures.sn_eq {F : Finset NodeID} {firstSN : EpochNr → SeqNr}
    (h : HonestSignatures env.crypto env.membershipCodec F firstSN) {node : NodeID} (hnode : node ∉ F)
    {epoch : EpochNr} {sn : SeqNr} {snapshotHash sig : Bytes}
    (hverify : env.crypto.verify (serializeCheckpointForSig epoch sn snapshotHash).flatten sig node =
      true) : sn = firstSN epoch := by
  obtain ⟨p, c, data, hreach, -, hfirst, hrequest, hdata⟩ := h node hnode epoch sn _ sig hverify
  obtain ⟨d, rfl⟩ := hreach.emits _ hrequest
  obtain ⟨rfl, rfl, -⟩ := serializeCheckpointForSig_inj hdata
  exact hfirst

/-! ### Accepted checkpoints -/

/-- The validator ISS creates for the orderer of a checkpoint whose previous membership is given. -/
def Env.preprepareValidator (env : Env) (membership : Membership) : PreprepareValidator :=
  ⟨env.crypto, env.membershipCodec, membership, env.configOffset⟩

/-- Valid signatures of a weak quorum of the membership certify a checkpoint. -/
def CertifiedBy (env : Env) (membership : Membership) (chkp : StableCheckpoint) : Prop :=
  ∃ snapshot data epoch cert, chkp.snapshot = some snapshot ∧
    serializeSnapshotForHash env.membershipCodec snapshot = .ok data ∧ chkp.epoch = .ok epoch ∧
    chkp.cert = some cert ∧ membership.haveWeakQuorum cert.keys = .ok true ∧
    StableCheckpoint.ValidSignatures env.crypto membership
      (serializeCheckpointForSig epoch chkp.sn (env.crypto.hash data.flatten)) cert

/-- The instance is in epoch `e` and does not have the checkpoint of that epoch yet. -/
structure Awaits (firstSN : EpochNr → SeqNr) (e : EpochNr) (i : Instance) : Prop where
  nr : i.state.epoch.nr = e
  firstSN_eq : i.state.epoch.firstSN = firstSN e
  older : i.state.lastStableCheckpoint.sn < firstSN e
  readable : Completes i.state.lastStableCheckpoint.epoch

/-- **The checkpoint of epoch `e`**, certified by the given membership. When it is delivered to an
instance that waits for it, it becomes the last stable checkpoint, so that the instance has the
checkpoint of its epoch, and then goes on with `processCommitted`. -/
structure OwnCheckpoint (env : Env) (firstSN : EpochNr → SeqNr) (e : EpochNr)
    (membership : Membership) (data : Bytes) (chkp : StableCheckpoint) : Prop where
  epoch : chkp.epoch = .ok e
  sn : chkp.sn = firstSN e
  certified : CertifiedBy env membership chkp
  delivered : ∀ sorts i, Awaits firstSN e i →
    (i.stabilize chkp).state.lastStableCheckpoint = chkp ∧
    (i.stabilize chkp).state.hasEpochCheckpoint ∧
    ∃ os, deliverCommonCheckpoint env sorts data i =
      (do return (← processCommitted env sorts (i.stabilize chkp)).emitAll os)
  stable : ∀ sorts i i', Awaits firstSN e i → deliverCommonCheckpoint env sorts data i = .ok i' →
    i'.state.lastStableCheckpoint = chkp

section Accepted

variable {membership : Membership} {data : Bytes} {chkp : StableCheckpoint} {e : EpochNr}
  {F : Finset NodeID} {firstSN : EpochNr → SeqNr}

/-- What the validator accepts has been verified. -/
theorem verify_of_check (hdata : env.deserialize data = some chkp)
    (hcheck : (env.preprepareValidator membership).check env.deserialize data = .ok none) :
    chkp.verify env.crypto env.membershipCodec env.configOffset membership = .ok none := by
  rw [PreprepareValidator.check, hdata] at hcheck
  obtain ⟨result, hverify, hresult⟩ := bind_eq_ok.mp hcheck
  cases result with
  | some err => cases hresult
  | none => exact hverify

theorem certifiedBy_of_verify (he : 0 < e) (hepoch : chkp.epoch = .ok e)
    (hverify : chkp.verify env.crypto env.membershipCodec env.configOffset membership = .ok none) :
    CertifiedBy env membership chkp := by
  have hcert := StableCheckpoint.verifyCert_of_verify hepoch he hverify
  obtain ⟨r, hcheck, hrest⟩ := bind_eq_ok.mp hverify
  cases r with
  | some err => cases hrest
  | none =>
    obtain ⟨hsome, -⟩ := StableCheckpoint.syntacticCheck_eq_none_iff.mp hcheck
    obtain ⟨cert, hcert'⟩ := Option.isSome_iff_exists.mp hsome
    obtain ⟨snapshot, bytes, epoch, hsnapshot, hbytes, hepoch', hweak, hvalid⟩ :=
      StableCheckpoint.exists_of_verifyCert hcert
    rw [hcert', Option.getD_some] at hweak hvalid
    exact ⟨snapshot, bytes, epoch, cert, hsnapshot, hbytes, hepoch', hcert', hweak, hvalid⟩

/-- A weak quorum has a correct member, which has signed the sequence number. -/
theorem CertifiedBy.sn_eq (h : CertifiedBy env membership chkp) (hepoch : chkp.epoch = .ok e)
    (hF : membership.Tolerates F)
    (hsignatures : HonestSignatures env.crypto env.membershipCodec F firstSN) :
    chkp.sn = firstSN e := by
  obtain ⟨snapshot, bytes, epoch, cert, -, -, hepoch', -, hweak, hvalid⟩ := h
  obtain rfl : epoch = e := Except.ok.inj (hepoch'.symm.trans hepoch)
  obtain ⟨hreadable, hmembers⟩ := Membership.haveWeakQuorum_completes_iff.mp ⟨_, hweak⟩
  have hquorum := (Membership.haveWeakQuorum_iff hreadable hmembers cert.keys_nodup).mp hweak
  obtain ⟨node, hnode, -, hcorrect⟩ := Membership.exists_correct_of_isWeak hF hquorum
  obtain ⟨sig, hsig⟩ := GoMap.mem_keys_iff.mp (List.mem_toFinset.mp hnode)
  exact hsignatures.sn_eq hcorrect (hvalid node sig hsig).2

/-! ### Delivery -/

/-- Only the delivery and the installation of a checkpoint replace the last stable one. -/
theorem Micros.lastStableCheckpoint_eq {i₀ : Instance}
    (h : Micros env sorts i₀ .pushCheckpoint i j) :
    j.state.lastStableCheckpoint = i.state.lastStableCheckpoint := by
  induction h with
  | refl => rfl
  | cons hfirst _ _ ih =>
    refine ih.trans ?_
    cases hfirst with
    | advance _ hj =>
      obtain ⟨old, next, memberships, membership, leaders, rfl, -⟩ := advanceEpoch_eq_ok hj
      rfl
    | suspect | commit | deliver | quiet => rfl

theorem deliverCommonCheckpoint_of_awaits (sorts : Sorts) (hdata : env.deserialize data = some chkp)
    (hepoch : chkp.epoch = .ok e) (hsn : chkp.sn = firstSN e) (hi : Awaits firstSN e i) :
    ∃ os, deliverCommonCheckpoint env sorts data i =
      (do return (← processCommitted env sorts (i.stabilize chkp)).emitAll os) := by
  obtain ⟨e₀, he₀⟩ := hi.readable
  have hnew : ¬ chkp.sn ≤ i.state.lastStableCheckpoint.sn := by
    rw [hsn]
    exact UInt64.not_le.mpr hi.older
  simp only [deliverCommonCheckpoint, hdata, if_neg hnew, hepoch, he₀, ok_bind]
  by_cases hprune : 0 < e.toInt64 - Int64.ofInt env.params.retainedEpochs
  · refine ⟨pruneOutputs env (e.toInt64 - Int64.ofInt env.params.retainedEpochs), ?_⟩
    simp only [if_pos hprune]
  · refine ⟨[], ?_⟩
    simp only [if_neg hprune, Instance.emitAll, List.append_nil]

/-- **What the validator accepts is the epoch's own checkpoint exactly if it is for that epoch.** -/
theorem accepted_ownCheckpoint_iff (hF : membership.Tolerates F)
    (hsignatures : HonestSignatures env.crypto env.membershipCodec F firstSN) (he : 0 < e)
    (hdata : env.deserialize data = some chkp)
    (hcheck : (env.preprepareValidator membership).check env.deserialize data = .ok none) :
    OwnCheckpoint env firstSN e membership data chkp ↔ chkp.epoch = .ok e := by
  refine ⟨OwnCheckpoint.epoch, fun hepoch => ?_⟩
  have hcertified := certifiedBy_of_verify he hepoch (verify_of_check hdata hcheck)
  have hsn := hcertified.sn_eq hepoch hF hsignatures
  refine ⟨hepoch, hsn, hcertified, fun sorts i hi => ⟨rfl, ?_, ?_⟩, fun sorts i i' hi hi' => ?_⟩
  · exact hsn.trans hi.firstSN_eq.symm
  · exact deliverCommonCheckpoint_of_awaits sorts hdata hepoch hsn hi
  · obtain ⟨os, hos⟩ := deliverCommonCheckpoint_of_awaits sorts hdata hepoch hsn hi
    rw [hos] at hi'
    obtain ⟨j, hj, hi'⟩ := bind_eq_ok.mp hi'
    obtain rfl := Except.ok.inj hi'
    have hmicros : Micros env sorts i .pushCheckpoint (i.stabilize chkp) j :=
      processCommitted_micros hj
    exact hmicros.lastStableCheckpoint_eq

end Accepted

/-- The instance of the checkpoint protocol that a member runs for epoch 1. -/
def memberInstance (node : NodeID) : Checkpoint.ModuleParams :=
  { exampleParams .fourMembers 1 8 simplePolicyData with ownID := node }

/-- Three members sign nothing but the checkpoint of epoch 1; whatever the fourth signs verifies. -/
def fourVerify (data _sig : Bytes) (node : NodeID) : Bool :=
  node = [100] ∨ node ∈ correctMembers ∧ data = ((memberInstance []).signedData []).flatten

/-- A node of a system with four members, for which the given signatures verify. The bytes `[k]` are
the checkpoint for epoch `k`, with the sequence number 8. -/
noncomputable def signingEnv (verify : Bytes → Bytes → NodeID → Bool) : Env :=
  { exampleEnv .fourMembers 1 0 [exampleChkp .fourMembers 0 8 simplePolicyData,
      exampleChkp .fourMembers 1 8 simplePolicyData] with
    crypto := ⟨fun _ => [], verify⟩
    membershipCodec := fourCodec }

theorem fourMembers_tolerates : Membership.fourMembers.Tolerates {[100]} := by
  intro S hS
  rcases Finset.subset_singleton_iff.mp hS with rfl | rfl <;> decide +kernel

/-- The instance asks for a signature when its snapshot is complete and has been hashed. -/
theorem exists_signRequest (node : NodeID) (hnode : node ∈ correctMembers) :
    ∃ c, Checkpoint.Reachable (signingEnv fourVerify).crypto fourCodec (memberInstance node) c ∧
      .signRequest ((memberInstance []).signedData []) ∈ c.out := by
  let hashed :=
    [uint64ToBytes 1, uint64ToBytes 1, uint64ToBytes 8, [1], [1], simplePolicyData, [1], []]
  have hall : ∀ node ∈ correctMembers, ([([], .snapshot none), ([], .clientProgress ∅),
      (hashed, .hashResult [])].foldlM (Checkpoint.next? (signingEnv fourVerify).crypto fourCodec
        (memberInstance node)) .new).any (fun c =>
          .signRequest ((memberInstance []).signedData []) ∈ c.out) = true := by decide +kernel
  exact Checkpoint.exists_reachable (hall node hnode)

/-- The validator accepts the checkpoint with two signatures. -/
theorem accepted_ownCheckpoint_four : ∃ env : Env,
    HonestSignatures env.crypto env.membershipCodec {[100]} (fun _ => 8) ∧
      OwnCheckpoint env (fun _ => 8) 1 .fourMembers [1]
        (exampleChkp .fourMembers 1 8 simplePolicyData) := by
  have hhonest : HonestSignatures (signingEnv fourVerify).crypto fourCodec {[100]} (fun _ => 8) := by
    intro node hnode epoch sn snapshotHash sig hverify
    obtain ⟨hmember, hdata⟩ :=
      (of_decide_eq_true hverify).resolve_left (Finset.notMem_singleton.mp hnode)
    obtain ⟨c, hreach, hrequest⟩ := exists_signRequest node hmember
    exact ⟨memberInstance node, c, _, hreach, rfl, rfl, hrequest, hdata.symm⟩
  have hcheck : ((signingEnv fourVerify).preprepareValidator .fourMembers).check
      (signingEnv fourVerify).deserialize [1] = .ok none := by
    decide +kernel
  exact ⟨signingEnv fourVerify, hhonest,
    (accepted_ownCheckpoint_iff fourMembers_tolerates hhonest (by decide) rfl hcheck).mpr rfl⟩

/-- **A forged checkpoint of the first epoch is accepted** as the one of epoch 1, although no
signature ever verifies. -/
theorem forged_first_epoch : ¬ ∀ (env : Env) (membership : Membership) (F : Finset NodeID)
    (firstSN : EpochNr → SeqNr) (e : EpochNr) (data : Bytes) (chkp : StableCheckpoint),
    membership.Tolerates F → HonestSignatures env.crypto env.membershipCodec F firstSN → 0 < e →
    env.deserialize data = some chkp →
    (env.preprepareValidator membership).check env.deserialize data = .ok none →
    OwnCheckpoint env firstSN e membership data chkp := by
  intro h
  have hown := h (signingEnv fun _ _ _ => false) .fourMembers {[100]} (fun _ => 8) 1 [0]
    (exampleChkp .fourMembers 0 8 simplePolicyData) fourMembers_tolerates (fun _ _ _ _ _ _ => nofun)
    (by decide) rfl (by decide +kernel)
  cases hown.epoch

end Mir.Iss
