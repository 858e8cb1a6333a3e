import Mir.Checkpoint.Certificate

/-!
# Checkpoint validators

The permissive and the conservative validator of `chkpvalidator`, which ISS asks before it installs a
checkpoint received from another node, and the `CheckpointPreprepareValidator` of `pprepvalidator`,
which the orderers that agree on a checkpoint ask about a proposal.

How far a checkpoint is ahead is a difference of signed 64-bit integers (`membershipOffset`). The
permissive validator checks a checkpoint that is more than `ConfigOffset` epochs ahead against the
membership in the checkpoint itself.
-/

namespace Mir.Checkpoint

/-- `int(sc.Epoch()) - 1 - int(epochNr)`, the index of the checkpoint's previous membership in the
memberships of epoch `epochNr`. -/
def membershipOffset (chkpEpoch epochNr : EpochNr) : Int64 :=
  chkpEpoch.toInt64 - 1 - epochNr.toInt64

theorem toInt_toInt64_of_lt {e : EpochNr} (h : e.toNat < 2 ^ 63) : e.toInt64.toInt = e.toNat := by
  have hnat : e = UInt64.ofNat e.toNat := UInt64.ofNat_toNat.symm
  rw [hnat, UInt64.toInt64_ofNat', Int64.toInt_ofNat_of_lt h, ← hnat]

/-- The offset is the exact difference as long as epoch numbers are in the range of `int`. -/
theorem toInt_membershipOffset {e n : EpochNr} (he : e.toNat < 2 ^ 63) (hn : n.toNat < 2 ^ 63) :
    (membershipOffset e n).toInt = (e.toNat : ℤ) - 1 - n.toNat := by
  have hone : (1 : Int64).toInt = 1 := rfl
  have hpred : ((e.toNat : ℤ) - 1).bmod (2 ^ 64) = (e.toNat : ℤ) - 1 :=
    Int.bmod_eq_of_le (by omega) (by omega)
  rw [membershipOffset, Int64.toInt_sub, Int64.toInt_sub, toInt_toInt64_of_lt he,
    toInt_toInt64_of_lt hn, hone, hpred, Int.bmod_eq_of_le (by omega) (by omega)]

/-- A checkpoint is ahead if its epoch is neither past, nor the current one, nor the next. -/
theorem membershipOffset_pos_iff {e n : EpochNr} (he : e.toNat < 2 ^ 63) (hn : n.toNat < 2 ^ 63) :
    ¬ membershipOffset e n ≤ 0 ↔ n.toNat + 1 < e.toNat := by
  have hzero : (0 : Int64).toInt = 0 := rfl
  rw [Int64.le_iff_toInt_le, toInt_membershipOffset he hn, hzero]
  omega

/-- Indexing a slice with a signed integer. -/
def indexInt {α : Type} (l : List α) (i : Int64) : Fallible α :=
  if i < 0 then .error (.panic .indexOutOfRange) else index l i.toInt.toNat

/-- The implementations of `ChkpValidator`. -/
inductive ValidatorKind
  | permissive
  | conservative
  deriving DecidableEq

/-- `PermissiveCV` and `ConservativeCV`, which have the same fields. -/
structure Validator where
  kind : ValidatorKind
  configOffset : ℕ
  ownID : NodeID
  crypto : Crypto
  enc : MembershipCodec

/-- The ways `Verify` of a validator rejects a checkpoint. -/
inductive ValidationError
  | invalidCheckpoint (e : StableCheckpoint.SyntacticError)
  | nodeNotInMembership
  | notFarAheadEnough
  | tooFarAhead
  | invalidCertificate (e : VerifyError)
  deriving DecidableEq

namespace Validator

/-- The call of `StableCheckpoint.Verify` that ends both validators. -/
def verifyAgainst (cv : Validator) (sc : StableCheckpoint) (membership : Membership) :
    Fallible (Option ValidationError) := do
  let result ← sc.verify cv.crypto cv.enc cv.configOffset membership
  return result.map .invalidCertificate

/-- `PermissiveCV.Verify`, after the checks it shares with the conservative one. -/
def verifyPermissive (cv : Validator) (sc : StableCheckpoint) (epochNr : EpochNr)
    (memberships : List Membership) : Fallible (Option ValidationError) := do
  let chkpMembership ← deref (← sc.previousMembership)
  let offset := membershipOffset (← sc.epoch) epochNr
  if offset.toInt > cv.configOffset then cv.verifyAgainst sc chkpMembership
  else cv.verifyAgainst sc (← indexInt memberships offset)

/-- `ConservativeCV.Verify`, after the checks it shares with the permissive one. -/
def verifyConservative (cv : Validator) (sc : StableCheckpoint) (epochNr : EpochNr)
    (memberships : List Membership) : Fallible (Option ValidationError) := do
  let offset := membershipOffset (← sc.epoch) epochNr
  if offset ≤ 0 then return some .notFarAheadEnough
  else if offset.toInt > cv.configOffset then return some .tooFarAhead
  else cv.verifyAgainst sc (← indexInt memberships offset)

/-- `Verify`: `none` when the checkpoint is accepted. -/
def verify (cv : Validator) (sc : StableCheckpoint) (epochNr : EpochNr)
    (memberships : List Membership) : Fallible (Option ValidationError) := do
  match ← sc.syntacticCheck cv.configOffset with
  | some e => return some (.invalidCheckpoint e)
  | none =>
    let first ← deref (← index (← sc.memberships) 0)
    if cv.ownID ∉ first.nodes.keys then return some .nodeNotInMembership
    else
      match cv.kind with
      | .permissive => cv.verifyPermissive sc epochNr memberships
      | .conservative => cv.verifyConservative sc epochNr memberships

end Validator

/-- `CheckpointPreprepareValidator`. -/
structure PreprepareValidator where
  crypto : Crypto
  enc : MembershipCodec
  membership : Membership
  configOffset : ℕ

/-- The ways `CheckpointPreprepareValidator.Check` rejects a Preprepare. -/
inductive PreprepareError
  | notDeserializable
  | invalidCheckpoint (e : VerifyError)
  deriving DecidableEq

/-- `CheckpointPreprepareValidator.Check` of a Preprepare with the given data, which `deserialize`
reads as a checkpoint; `none` when it is accepted. -/
def PreprepareValidator.check (ppv : PreprepareValidator)
    (deserialize : Bytes → Option StableCheckpoint) (data : Bytes) :
    Fallible (Option PreprepareError) :=
  match deserialize data with
  | none => .ok (some .notDeserializable)
  | some chkp => do
    let result ← chkp.verify ppv.crypto ppv.enc ppv.configOffset ppv.membership
    return result.map .invalidCheckpoint

end Mir.Checkpoint
