import Mir.Checkpoint.Serializing

/-!
# Verifying checkpoints

`VerifyCert` and `Verify` of `checkpoint.go`. The weight of the signers is computed before their
membership is checked, so a signer that is not a member is a `nil` dereference, not an error.
`verifyCert_eq_none` says when a certificate is accepted.
-/

namespace Mir.Checkpoint

/-- The hash and signature functions. Both take the concatenation of the slices they are given. -/
structure Crypto where
  hash : Bytes → Bytes
  verify : Bytes → Bytes → NodeID → Bool

/-- The ways `VerifyCert` and `Verify` reject a checkpoint. -/
inductive VerifyError
  | invalidCheckpoint (e : StableCheckpoint.SyntacticError)
  | notEnoughSignatures
  | signerNotInMembership
  | invalidSignature
  | firstEpochCertificateNotEmpty
  | inconsistentMemberships
  | inconsistentPreviousMembership
  deriving DecidableEq

namespace StableCheckpoint

/-- The check `VerifyCert` makes of each signature. -/
def checkSignature (env : Crypto) (membership : Membership) (signedData : List Bytes)
    (e : Σ _ : NodeID, Bytes) : Option VerifyError :=
  if e.1 ∉ membership.nodes.keys then some .signerNotInMembership
  else if ¬ env.verify signedData.flatten e.2 e.1 then some .invalidSignature
  else none

/-- `StableCheckpoint.VerifyCert`: `none` when the certificate is accepted. -/
def verifyCert (env : Crypto) (enc : MembershipCodec) (sc : StableCheckpoint)
    (membership : Membership) : Fallible (Option VerifyError) := do
  let cert := sc.cert.getD ∅
  if ← membership.haveWeakQuorum cert.keys then
    let snapshot ← deref sc.snapshot
    let snapshotData ← serializeSnapshotForHash enc snapshot
    let epoch ← sc.epoch
    let signedData := serializeCheckpointForSig epoch sc.sn (env.hash snapshotData.flatten)
    return cert.entries.findSome? (checkSignature env membership signedData)
  else return some .notEnoughSignatures

/-- One iteration of `verifyMembershipConsistency`; `none` for a node with other parameters. -/
def addConsistent (known : GoMap NodeID NodeIdentity) (e : Σ _ : NodeID, NodeIdentity) :
    Option (GoMap NodeID NodeIdentity) :=
  match known.lookup e.1 with
  | none => some (known.insert e.1 e.2)
  | some node => if node = e.2 then some known else none

/-- The loop of `verifyMembershipConsistency` over the checkpoint's memberships. -/
def consistentMemberships (known : GoMap NodeID NodeIdentity) :
    List (Option Membership) → Fallible Bool
  | [] => .ok true
  | membership :: rest => do
    let m ← deref membership
    match m.nodes.entries.foldlM addConsistent known with
    | none => return false
    | some known => consistentMemberships known rest

/-- `verifyMembershipConsistency`. -/
def verifyMembershipConsistency (sc : StableCheckpoint) (membership : Membership) :
    Fallible (Option VerifyError) := do
  if ← consistentMemberships ∅ (← sc.memberships) then
    let epoch ← sc.epoch
    let previous ← sc.previousMembership
    if 0 < epoch ∧ ¬ previous.any (fun m => m.Same membership) then
      return some .inconsistentPreviousMembership
    else return none
  else return some .inconsistentMemberships

/-- `StableCheckpoint.Verify`: `none` when the checkpoint is accepted. -/
def verify (env : Crypto) (enc : MembershipCodec) (sc : StableCheckpoint) (configOffset : ℕ)
    (membership : Membership) : Fallible (Option VerifyError) := do
  match ← sc.syntacticCheck configOffset with
  | some e => return some (.invalidCheckpoint e)
  | none =>
    let epoch ← sc.epoch
    if 0 < epoch then
      match ← sc.verifyCert env enc membership with
      | some e => return some e
      | none => sc.verifyMembershipConsistency membership
    else
      let previous ← deref (← sc.previousMembership)
      if previous.nodes.entries ≠ [] then return some .firstEpochCertificateNotEmpty
      else sc.verifyMembershipConsistency membership

/-- Every signature of a certificate is a member's, and valid for the given data. -/
def ValidSignatures (env : Crypto) (membership : Membership) (signedData : List Bytes)
    (cert : Certificate) : Prop :=
  ∀ node sig, cert.lookup node = some sig →
    node ∈ membership.nodes.keys ∧ env.verify signedData.flatten sig node = true

/-- **A certificate is accepted** if its signers are a weak quorum of members and their signatures
are valid for the checkpoint. -/
theorem verifyCert_eq_none {env : Crypto} {enc : MembershipCodec} {sc : StableCheckpoint}
    {membership : Membership} {snapshot : StateSnapshot} {cert : Certificate} {epoch : EpochNr}
    {data : List Bytes} (hcert : sc.cert = some cert) (hsnapshot : sc.snapshot = some snapshot)
    (hepoch : sc.epoch = .ok epoch) (hdata : serializeSnapshotForHash enc snapshot = .ok data)
    (hweak : membership.haveWeakQuorum cert.keys = .ok true)
    (hvalid : ValidSignatures env membership
      (serializeCheckpointForSig epoch sc.sn (env.hash data.flatten)) cert) :
    sc.verifyCert env enc membership = .ok none := by
  have hall : cert.entries.findSome? (checkSignature env membership
      (serializeCheckpointForSig epoch sc.sn (env.hash data.flatten))) = none := by
    refine List.findSome?_eq_none_iff.mpr fun e he => ?_
    obtain ⟨hmem, hverify⟩ := hvalid e.1 e.2 (AList.mem_lookup_iff.mpr he)
    simp [checkSignature, hmem, hverify]
  simp [verifyCert, hcert, hweak, hsnapshot, deref, hdata, hepoch, hall]

/-- Conversely, an accepted certificate has valid signatures of a weak quorum. -/
theorem exists_of_verifyCert {env : Crypto} {enc : MembershipCodec} {sc : StableCheckpoint}
    {membership : Membership} (h : sc.verifyCert env enc membership = .ok none) :
    ∃ snapshot data epoch, sc.snapshot = some snapshot ∧
      serializeSnapshotForHash enc snapshot = .ok data ∧ sc.epoch = .ok epoch ∧
      membership.haveWeakQuorum (sc.cert.getD ∅).keys = .ok true ∧
      ValidSignatures env membership
        (serializeCheckpointForSig epoch sc.sn (env.hash data.flatten)) (sc.cert.getD ∅) := by
  obtain ⟨b, hweak, h⟩ := Fallible.bind_eq_ok.mp h
  cases b with
  | false => cases h
  | true =>
    obtain ⟨snapshot, hsnapshot, h⟩ := Fallible.bind_eq_ok.mp h
    obtain ⟨data, hdata, h⟩ := Fallible.bind_eq_ok.mp h
    obtain ⟨epoch, hepoch, h⟩ := Fallible.bind_eq_ok.mp h
    have hall := List.findSome?_eq_none_iff.mp (Except.ok.inj h)
    refine ⟨snapshot, data, epoch, deref_eq_ok.mp hsnapshot, hdata, hepoch, hweak, ?_⟩
    intro node sig hlookup
    have hcheck := hall ⟨node, sig⟩ (AList.mem_lookup_iff.mp hlookup)
    rw [checkSignature] at hcheck
    split at hcheck
    next => cases hcheck
    next hmem =>
      split at hcheck
      next => cases hcheck
      next hverify => exact ⟨not_not.mp hmem, not_not.mp hverify⟩

end StableCheckpoint

end Mir.Checkpoint
