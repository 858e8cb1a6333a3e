import Mir.Iss.State
import Mir.Checkpoint.Completion

/-!
# Availability certificates

The parameters of the multisig collector, the data a node signs to confirm that it stores a batch, and
`verifyCertificateStructure`. A sub-certificate is **well signed** if its signers are distinct members
that form a weak quorum, with one signature each (`WellSigned`).

The structure check weighs the signers before it tests that they are members, so it completes only if
they are, in all the sub-certificates it reaches: `structure_exact_iff`.
-/

namespace Mir.Availability

open Iss Fallible WeightedQuorum

/-- The identifier of a batch. -/
abbrev BatchID := Bytes

/-- `common.ModuleParams`. -/
structure ModuleParams where
  instanceUID : Bytes
  membership : Membership
  limit : ℤ
  maxRequests : ℤ
  epochNr : EpochNr

/-- The text `BATCH_STORED`. -/
def batchStored : Bytes := [66, 65, 84, 67, 72, 95, 83, 84, 79, 82, 69, 68]

/-- `common.SigData`. -/
def sigData (instanceUID : Bytes) (batchID : BatchID) : List Bytes :=
  [instanceUID, batchStored, batchID]

/-! ### The structure check -/

/-- The ways `verifyCertificateStructure` rejects a certificate. -/
inductive StructureError
  | certificateNil
  | insufficientWeight
  | wrongNumberOfSignatures
  | repeatedSigner
  | signerNotMember
  deriving DecidableEq

/-- The loop over the signers that looks for one that is already in `alreadySeen`. -/
def anyRepeated (alreadySeen : GoMap NodeID Unit) : List NodeID → Bool
  | [] => false
  | nodeID :: rest =>
    if nodeID ∈ alreadySeen.keys then true else anyRepeated (alreadySeen.insert nodeID ()) rest

/-- The checks of one sub-certificate. -/
def checkSigners (membership : Membership) (c : MscCert) : Fallible (Option StructureError) := do
  if ¬ (← membership.haveWeakQuorum c.signers) then return some .insufficientWeight
  else if c.signers.length ≠ c.signatures.length then return some .wrongNumberOfSignatures
  else if anyRepeated ∅ c.signers then return some .repeatedSigner
  else if ¬ c.signers.all (· ∈ membership.nodes.keys) then return some .signerNotMember
  else return none

/-- The loop over the sub-certificates. -/
def checkCerts (membership : Membership) : List MscCert → Fallible (Option StructureError)
  | [] => .ok none
  | c :: rest => do
    match ← checkSigners membership c with
    | some e => return some e
    | none => checkCerts membership rest

/-- `verifyCertificateStructure`. -/
def verifyCertificateStructure (membership : Membership) (cert : Cert) :
    Fallible (Except StructureError (List MscCert)) :=
  match cert with
  | none => .ok (.error .certificateNil)
  | some certs => do
    match ← checkCerts membership certs with
    | some e => return .error e
    | none => return .ok certs

/-! ### What it accepts -/

/-- The signers are distinct members of weak-quorum weight, with one signature each. -/
structure WellSigned (membership : Membership) (c : MscCert) : Prop where
  nodup : c.signers.Nodup
  members : ∀ id ∈ c.signers, id ∈ membership.nodes.keys
  weak : IsWeak membership.members membership.w c.signers.toFinset
  signatures : c.signers.length = c.signatures.length

section Structure

variable {m : Membership} {c : MscCert} {certs : List MscCert}

theorem anyRepeated_eq_false_iff {alreadySeen : GoMap NodeID Unit} {ids : List NodeID} :
    anyRepeated alreadySeen ids = false ↔ ids.Nodup ∧ ∀ id ∈ ids, id ∉ alreadySeen.keys := by
  induction ids generalizing alreadySeen with
  | nil => simp [anyRepeated]
  | cons a ids ih =>
    rw [anyRepeated]
    split
    next h => simp [h]
    next h =>
      rw [ih, List.nodup_cons, List.forall_mem_cons]
      constructor
      · rintro ⟨hnodup, hall⟩
        refine ⟨⟨fun ha => hall a ha (GoMap.mem_keys_insert.mpr (.inl rfl)), hnodup⟩, h, ?_⟩
        exact fun id hid hseen => hall id hid (GoMap.mem_keys_insert.mpr (.inr hseen))
      · rintro ⟨⟨ha, hnodup⟩, -, hall⟩
        refine ⟨hnodup, fun id hid hseen => ?_⟩
        rcases GoMap.mem_keys_insert.mp hseen with rfl | hseen
        · exact ha hid
        · exact hall id hid hseen

theorem checkSigners_completes_iff (hm : m.Readable) :
    Completes (checkSigners m c) ↔ ∀ id ∈ c.signers, id ∈ m.nodes.keys := by
  have hweighs : m.Weighs c.signers ↔ ∀ id ∈ c.signers, id ∈ m.nodes.keys :=
    ⟨fun h => h.2, fun h => ⟨hm, h⟩⟩
  rw [← hweighs, ← Membership.haveWeakQuorum_completes_iff, checkSigners]
  refine completes_bind_iff_left fun b => ?_
  repeat' split
  all_goals exact completes_ok _

/-- **The checks accept exactly the well-signed sub-certificates.** -/
theorem checkSigners_eq_none_iff (hm : m.Readable) :
    checkSigners m c = .ok none ↔ WellSigned m c := by
  constructor
  · intro h
    have hmembers := (checkSigners_completes_iff hm).mp ⟨_, h⟩
    obtain ⟨b, hb, hrest⟩ := bind_eq_ok.mp h
    cases b with
    | false => cases hrest
    | true =>
      simp only [not_true_eq_false, if_false] at hrest
      split at hrest
      · cases hrest
      next hlen =>
      split at hrest
      · cases hrest
      next hrepeated =>
      have hnodup := (anyRepeated_eq_false_iff.mp (Bool.not_eq_true _ ▸ hrepeated)).1
      exact ⟨hnodup, hmembers, (Membership.haveWeakQuorum_iff hm hmembers hnodup).mp hb,
        not_not.mp hlen⟩
  · intro h
    have hweak := (Membership.haveWeakQuorum_iff hm h.members h.nodup).mpr h.weak
    have hrepeated : anyRepeated ∅ c.signers = false :=
      anyRepeated_eq_false_iff.mpr ⟨h.nodup, fun _ _ => by simp⟩
    have hall : c.signers.all (· ∈ m.nodes.keys) = true :=
      List.all_eq_true.mpr fun id hid => decide_eq_true (h.members id hid)
    simp [checkSigners, hweak, h.signatures, hrepeated, hall]

theorem checkCerts_eq_none_iff (hm : m.Readable) :
    checkCerts m certs = .ok none ↔ ∀ c ∈ certs, WellSigned m c := by
  induction certs with
  | nil => simp [checkCerts]
  | cons c certs ih =>
    rw [List.forall_mem_cons, ← ih, ← checkSigners_eq_none_iff hm, checkCerts]
    constructor
    · intro h
      obtain ⟨r, hr, hrest⟩ := bind_eq_ok.mp h
      cases r with
      | some e => cases hrest
      | none => exact ⟨hr, hrest⟩
    · rintro ⟨hc, hcerts⟩
      rw [hc, ok_bind]
      exact hcerts

/-- The signers of every sub-certificate the loop reaches are members. -/
def ReachesMembers (m : Membership) (certs : List MscCert) : Prop :=
  ∀ front c rest, certs = front ++ c :: rest → (∀ c' ∈ front, WellSigned m c') →
    ∀ id ∈ c.signers, id ∈ m.nodes.keys

theorem reachesMembers_cons_iff : ReachesMembers m (c :: certs) ↔
    (∀ id ∈ c.signers, id ∈ m.nodes.keys) ∧ (WellSigned m c → ReachesMembers m certs) := by
  constructor
  · intro h
    refine ⟨h [] c certs rfl nofun, fun hc front d rest heq hfront => ?_⟩
    exact h (c :: front) d rest (by rw [heq, List.cons_append])
      (List.forall_mem_cons.mpr ⟨hc, hfront⟩)
  · rintro ⟨hmembers, hrest⟩ front d rest heq hfront
    cases front with
    | nil =>
      obtain ⟨rfl, -⟩ := List.cons.inj heq
      exact hmembers
    | cons c' front =>
      obtain ⟨rfl, heq'⟩ := List.cons.inj heq
      obtain ⟨hc, hfront⟩ := List.forall_mem_cons.mp hfront
      exact hrest hc front d rest heq' hfront

theorem checkCerts_completes_iff (hm : m.Readable) :
    Completes (checkCerts m certs) ↔ ReachesMembers m certs := by
  induction certs with
  | nil => exact iff_of_true (completes_ok _) fun front c rest h => by simp at h
  | cons c certs ih =>
    rw [reachesMembers_cons_iff, ← ih, ← checkSigners_completes_iff hm,
      ← checkSigners_eq_none_iff hm, checkCerts, completes_bind_iff]
    constructor
    · rintro ⟨r, hr, hrest⟩
      refine ⟨⟨r, hr⟩, fun hnone => ?_⟩
      obtain rfl := Except.ok.inj (hr.symm.trans hnone)
      exact hrest
    · rintro ⟨⟨r, hr⟩, hrest⟩
      refine ⟨r, hr, ?_⟩
      cases r with
      | some e => exact completes_ok _
      | none => exact hrest hr

end Structure

/-- The structure check completes, and accepts the certificates whose sub-certificates are all well
signed. -/
def StructureExact (m : Membership) (cert : Cert) : Prop :=
  Completes (verifyCertificateStructure m cert) ∧
    ((∃ certs, verifyCertificateStructure m cert = .ok (.ok certs)) ↔
      ∃ certs, cert = some certs ∧ ∀ c ∈ certs, WellSigned m c)

theorem verifyCertificateStructure_eq_ok_iff {m : Membership} (hm : m.Readable) {cert : Cert}
    {certs : List MscCert} : verifyCertificateStructure m cert = .ok (.ok certs) ↔
      cert = some certs ∧ ∀ c ∈ certs, WellSigned m c := by
  cases cert with
  | none => simp [verifyCertificateStructure]
  | some cs =>
    rw [Option.some.injEq, verifyCertificateStructure]
    constructor
    · intro h
      obtain ⟨r, hr, hrest⟩ := bind_eq_ok.mp h
      cases r with
      | some e => cases hrest
      | none =>
        cases hrest
        exact ⟨rfl, (checkCerts_eq_none_iff hm).mp hr⟩
    · rintro ⟨rfl, hall⟩
      rw [(checkCerts_eq_none_iff hm).mpr hall, ok_bind]
      rfl

theorem verifyCertificateStructure_completes_iff {m : Membership} (hm : m.Readable) {cert : Cert} :
    Completes (verifyCertificateStructure m cert) ↔
      ∀ certs, cert = some certs → ReachesMembers m certs := by
  cases cert with
  | none => exact iff_of_true (completes_ok _) nofun
  | some cs =>
    simp only [verifyCertificateStructure, Option.some.injEq, forall_eq']
    rw [← checkCerts_completes_iff hm]
    refine completes_bind_iff_left fun r => ?_
    cases r <;> exact completes_ok _

/-- **The structure check is exact** for the certificates whose signers are members, up to the first
sub-certificate that is not well signed. -/
theorem structure_exact_iff (m : Membership) (hm : m.Readable) (cert : Cert) :
    StructureExact m cert ↔ ∀ certs, cert = some certs → ReachesMembers m certs := by
  rw [← verifyCertificateStructure_completes_iff hm, StructureExact, and_iff_left_iff_imp]
  exact fun _ => exists_congr fun certs => verifyCertificateStructure_eq_ok_iff hm

/-- A certificate with two signers out of four members. -/
theorem structure_exact_two_signers :
    StructureExact .fourMembers (some [⟨[1], [[97], [98]], [[], []]⟩]) := by
  refine (structure_exact_iff _ Membership.fourMembers_proper.readable _).mpr ?_
  intro certs hcerts front c rest heq _
  obtain rfl := Option.some.inj hcerts
  have hmem : c ∈ front ++ c :: rest := List.mem_append_right _ List.mem_cons_self
  rw [← heq, List.mem_singleton] at hmem
  rw [hmem]
  decide +kernel

/-- **A signer that is not a member stops the node.** -/
theorem foreign_signer : ¬ ∀ (m : Membership), m.Readable → m.NonNeg →
    ∀ cert, StructureExact m cert := by
  intro h
  obtain ⟨hcompletes, -⟩ := h .fourMembers Membership.fourMembers_proper.readable
    Membership.fourMembers_proper.nonNeg (some [⟨[1], [[101]], [[]]⟩])
  have hmembers := (verifyCertificateStructure_completes_iff
    Membership.fourMembers_proper.readable).mp hcompletes _ rfl [] _ [] rfl nofun
  exact absurd hmembers (by decide +kernel)

end Mir.Availability
