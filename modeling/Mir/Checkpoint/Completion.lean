import Mir.Checkpoint.Validator

/-!
# When checking a checkpoint completes

The checks of `Snapshot`, `Certificate` and `Validator` dereference what a message contains. Each of
them completes if what it dereferences is there:

* the syntactic check, if no membership is missing before the first invalid one
  (`syntacticCheck_completes_iff`);
* the check of the certificate, if all signers are members of the membership it is checked against
  (`verifyCert_completes_iff`);
* a validator, if both do (`Validator.verify_completes_iff`). Which membership it checks the
  certificate against is said by `Validator.Consults`.
-/

namespace Mir

open Fallible

/-! ### Weighing signers -/

/-- The nodes can be weighed against the members: they are members, and all weights can be read. -/
def Membership.Weighs (m : Membership) (ids : List NodeID) : Prop :=
  m.Readable ∧ ∀ id ∈ ids, id ∈ m.nodes.keys

/-- **A weak quorum can be tested** exactly for nodes that can be weighed. -/
theorem Membership.haveWeakQuorum_completes_iff {m : Membership} {ids : List NodeID} :
    Completes (m.haveWeakQuorum ids) ↔ m.Weighs ids := by
  constructor
  · rintro ⟨b, hb⟩
    obtain ⟨x, hx, hrest⟩ := bind_eq_ok.mp hb
    obtain ⟨q, hq, -⟩ := bind_eq_ok.mp hrest
    obtain ⟨n, hn, -⟩ := bind_eq_ok.mp hq
    exact ⟨readable_of_totalWeight hn, fun id hid => (mem_keys_of_weightOf hx id hid).1⟩
  · rintro ⟨hreadable, hids⟩
    simp only [haveWeakQuorum, weakQuorum, weightOf_eq_ok hreadable hids,
      totalWeight_eq_ok hreadable, ok_bind, pure_eq_ok, completes_ok]

namespace Checkpoint

namespace StableCheckpoint

variable {sc : StableCheckpoint} {configOffset : ℕ} {env : Crypto} {enc : MembershipCodec}
  {membership : Membership} {c : SnapshotContent}

/-! ### The syntactic check -/

/-- No membership is missing, except after an invalid one. -/
def MissingAfterInvalid (ms : List (Option Membership)) : Prop :=
  ∀ front rest, ms = front ++ none :: rest → ∃ m, some m ∈ front ∧ m.valid ≠ none

theorem checkMemberships_completes_iff {ms : List (Option Membership)} :
    Completes (checkMemberships ms) ↔ MissingAfterInvalid ms := by
  induction ms with
  | nil => simp [checkMemberships, MissingAfterInvalid]
  | cons x ms ih =>
    cases x with
    | none =>
      refine iff_of_false ?_ fun h => ?_
      · rintro ⟨r, hr⟩
        cases hr
      · obtain ⟨m, hm, -⟩ := h [] ms rfl
        exact List.not_mem_nil hm
    | some m =>
      -- the first membership is checked, and the rest only if it is valid
      rw [checkMemberships, deref, ok_bind]
      cases hvalid : m.valid with
      | some e =>
        refine iff_of_true (completes_ok _) fun front rest h => ?_
        cases front with
        | nil => simp at h
        | cons y front =>
          obtain ⟨rfl, -⟩ := List.cons.inj h
          exact ⟨m, List.mem_cons_self, by simp [hvalid]⟩
      | none =>
        refine ih.trans ⟨fun hms front rest h => ?_, fun hms front rest h => ?_⟩
        · cases front with
          | nil => simp at h
          | cons y front =>
            obtain ⟨-, htail⟩ := List.cons.inj h
            obtain ⟨m', hm', hinvalid⟩ := hms front rest htail
            exact ⟨m', List.mem_cons_of_mem _ hm', hinvalid⟩
        · obtain ⟨m', hm', hinvalid⟩ := hms (some m :: front) rest (by rw [h, List.cons_append])
          rcases List.mem_cons.mp hm' with heq | hm'
          · rw [Option.some.inj heq, hvalid] at hinvalid
            exact absurd rfl hinvalid
          · exact ⟨m', hm', hinvalid⟩

/-- A message with an epoch configuration has the parts that lead to it. -/
theorem epochConfig_eq_ok_iff {config : EpochConfig} :
    sc.epochConfig = .ok config ↔ ∃ snapshot data, sc.snapshot = some snapshot ∧
      snapshot.epochData = some data ∧ data.epochConfig = some config := by
  simp only [epochConfig, epochData, bind_eq_ok, deref_eq_ok]
  constructor
  · rintro ⟨data, ⟨snapshot, hsnapshot, hdata⟩, hconfig⟩
    exact ⟨snapshot, data, hsnapshot, hdata, hconfig⟩
  · rintro ⟨snapshot, data, hsnapshot, hdata, hconfig⟩
    exact ⟨data, ⟨snapshot, hsnapshot, hdata⟩, hconfig⟩

/-- **The syntactic check completes** if no membership is missing before the first invalid one, in
a list of the right length. -/
theorem syntacticCheck_completes_iff {config : EpochConfig} (hconfig : sc.epochConfig = .ok config) :
    Completes (sc.syntacticCheck configOffset) ↔ ∀ ms, config.memberships = some ms →
      ms.length = configOffset + 1 → MissingAfterInvalid ms := by
  obtain ⟨snapshot, data, hsnapshot, hdata, hconfig⟩ := epochConfig_eq_ok_iff.mp hconfig
  simp only [syntacticCheck, hsnapshot, hdata, hconfig]
  cases hms : config.memberships with
  | none => simp
  | some ms =>
    by_cases hlen : ms.length = configOffset + 1
    · simp only [ne_eq, hlen, not_true_eq_false, if_false, Option.some.injEq, forall_eq',
        forall_true_left]
      rw [← checkMemberships_completes_iff]
      refine completes_bind_iff_left fun r => ?_
      cases r <;> exact completes_ok _
    · simp [hlen]

/-! ### The certificate -/

section Content

variable (hsnapshot : sc.snapshot = some c.snapshot)

include hsnapshot

theorem epoch_of_snapshot : sc.epoch = .ok c.epochNr := by
  simp [epoch, epochConfig, epochData, hsnapshot, SnapshotContent.snapshot, deref]

theorem memberships_of_snapshot : sc.memberships = .ok (c.memberships.map some) := by
  simp [memberships, epochConfig, epochData, hsnapshot, SnapshotContent.snapshot, deref]

theorem previousMembership_of_snapshot :
    sc.previousMembership = .ok (some c.previousMembership) := by
  simp [previousMembership, epochData, hsnapshot, SnapshotContent.snapshot, deref]

/-- **The check of a certificate completes** if its signers can be weighed. -/
theorem verifyCert_completes_iff :
    Completes (sc.verifyCert env enc membership) ↔ membership.Weighs (sc.cert.getD ∅).keys := by
  rw [← Membership.haveWeakQuorum_completes_iff, verifyCert]
  refine completes_bind_iff_left fun b => ?_
  cases b with
  | false => exact completes_ok _
  | true =>
    obtain ⟨data, hdata, -⟩ := SnapshotContent.serialize_snapshot enc c
    simp only [hsnapshot, deref, hdata, epoch_of_snapshot hsnapshot, ok_bind, if_true, pure_eq_ok,
      completes_ok]

end Content

theorem consistentMemberships_completes (known : GoMap NodeID NodeIdentity) (ms : List Membership) :
    Completes (consistentMemberships known (ms.map some)) := by
  induction ms generalizing known with
  | nil => exact completes_ok _
  | cons m ms ih =>
    rw [List.map_cons, consistentMemberships, deref, ok_bind]
    cases m.nodes.entries.foldlM addConsistent known with
    | none => exact completes_ok _
    | some known => exact ih known

theorem verifyMembershipConsistency_completes (hsnapshot : sc.snapshot = some c.snapshot) :
    Completes (sc.verifyMembershipConsistency membership) := by
  rw [verifyMembershipConsistency, memberships_of_snapshot hsnapshot, ok_bind, completes_bind_iff]
  obtain ⟨b, hb⟩ := consistentMemberships_completes ∅ c.memberships
  refine ⟨b, hb, ?_⟩
  cases b with
  | false => exact completes_ok _
  | true =>
    simp only [epoch_of_snapshot hsnapshot, previousMembership_of_snapshot hsnapshot, ok_bind,
      if_true]
    split <;> exact completes_ok _

/-- **The verification of a checkpoint that passes the syntactic check completes** if the signers
can be weighed, or the checkpoint is that of the first epoch. -/
theorem verify_completes_iff {e : EpochNr} (hcheck : sc.syntacticCheck configOffset = .ok none)
    (hepoch : sc.epoch = .ok e) :
    Completes (sc.verify env enc configOffset membership) ↔
      (0 < e → membership.Weighs (sc.cert.getD ∅).keys) := by
  obtain ⟨-, c, hsnapshot, -⟩ := syntacticCheck_eq_none_iff.mp hcheck
  obtain rfl : c.epochNr = e := Except.ok.inj ((epoch_of_snapshot hsnapshot).symm.trans hepoch)
  have hconsistent : Completes (sc.verifyMembershipConsistency membership) :=
    verifyMembershipConsistency_completes hsnapshot
  simp only [verify, hcheck, hepoch, ok_bind]
  by_cases hpos : 0 < c.epochNr
  · rw [if_pos hpos, forall_prop_of_true hpos,
      ← @verifyCert_completes_iff sc env enc membership c hsnapshot]
    refine completes_bind_iff_left fun r => ?_
    cases r with
    | some err => exact completes_ok _
    | none => exact hconsistent
  · rw [if_neg hpos, previousMembership_of_snapshot hsnapshot, ok_bind, deref, ok_bind]
    refine iff_of_true ?_ fun h => absurd h hpos
    split
    · exact completes_ok _
    · exact hconsistent

theorem verifyCert_of_verify {e : EpochNr} (hepoch : sc.epoch = .ok e) (hpos : 0 < e)
    (h : sc.verify env enc configOffset membership = .ok none) :
    sc.verifyCert env enc membership = .ok none := by
  obtain ⟨r, hr, h⟩ := bind_eq_ok.mp h
  cases r with
  | some err => cases h
  | none =>
    simp only [hepoch, ok_bind, if_pos hpos] at h
    obtain ⟨r, hr, h⟩ := bind_eq_ok.mp h
    cases r with
    | some err => cases h
    | none => exact hr

end StableCheckpoint

/-! ### The validators -/

namespace Validator

open StableCheckpoint

variable {cv : Validator} {sc : StableCheckpoint} {epochNr : EpochNr}
  {memberships : List Membership} {e : EpochNr}

/-- The membership a validator checks a certificate against. For a checkpoint that is too far ahead
the permissive one takes the membership in the checkpoint, and the conservative one takes none. -/
inductive Consults (cv : Validator) (sc : StableCheckpoint) (epochNr : EpochNr)
    (memberships : List Membership) : Membership → Prop
  | known {e : EpochNr} {m : Membership} (hepoch : sc.epoch = .ok e)
      (hahead : ¬ membershipOffset e epochNr ≤ 0)
      (hnear : (membershipOffset e epochNr).toInt ≤ cv.configOffset)
      (hm : memberships[(membershipOffset e epochNr).toInt.toNat]? = some m) :
      Consults cv sc epochNr memberships m
  | claimed {e : EpochNr} {m : Membership} (hkind : cv.kind = .permissive)
      (hepoch : sc.epoch = .ok e) (hfar : cv.configOffset < (membershipOffset e epochNr).toInt)
      (hm : sc.previousMembership = .ok (some m)) : Consults cv sc epochNr memberships m

theorem Consults.unique {m m' : Membership} (h : cv.Consults sc epochNr memberships m)
    (h' : cv.Consults sc epochNr memberships m') : m = m' := by
  have hsame : ∀ {e e' : EpochNr}, sc.epoch = .ok e → sc.epoch = .ok e' → e = e' :=
    fun he he' => Except.ok.inj (he.symm.trans he')
  cases h with
  | known hepoch hahead hnear hm =>
    cases h' with
    | known hepoch' hahead' hnear' hm' =>
      obtain rfl := hsame hepoch hepoch'
      exact Option.some.inj (hm.symm.trans hm')
    | claimed hkind hepoch' hfar hm' =>
      obtain rfl := hsame hepoch hepoch'
      omega
  | claimed hkind hepoch hfar hm =>
    cases h' with
    | known hepoch' hahead' hnear' hm' =>
      obtain rfl := hsame hepoch hepoch'
      omega
    | claimed hkind' hepoch' hfar' hm' =>
      exact Option.some.inj (Except.ok.inj (hm.symm.trans hm'))

/-- The node is in the membership of the checkpoint's epoch. -/
def Included (cv : Validator) (sc : StableCheckpoint) : Prop :=
  ∃ first rest, sc.memberships = .ok (some first :: rest) ∧ cv.ownID ∈ first.nodes.keys

/-- What a validator does with a checkpoint that is ahead and passes the syntactic check. -/
theorem verify_cases (hcheck : sc.syntacticCheck cv.configOffset = .ok none)
    (hepoch : sc.epoch = .ok e) (hahead : ¬ membershipOffset e epochNr ≤ 0)
    (hlen : memberships.length = cv.configOffset + 1) :
    (cv.Included sc ∧ ∃ m, cv.Consults sc epochNr memberships m ∧
      cv.verify sc epochNr memberships = cv.verifyAgainst sc m) ∨
    (¬ (cv.Included sc ∧ ∃ m, cv.Consults sc epochNr memberships m) ∧
      ∃ err, cv.verify sc epochNr memberships = .ok (some err)) := by
  obtain ⟨-, c, hsnapshot, hwf⟩ := syntacticCheck_eq_none_iff.mp hcheck
  obtain ⟨first, rest, hms⟩ := List.exists_cons_of_length_eq_add_one hwf.count
  have hmemberships : sc.memberships = .ok (some first :: rest.map some) := by
    rw [memberships_of_snapshot hsnapshot, hms, List.map_cons]
  have hverify : cv.verify sc epochNr memberships =
      if cv.ownID ∉ first.nodes.keys then .ok (some .nodeNotInMembership)
      else if cv.kind = .permissive then cv.verifyPermissive sc epochNr memberships
      else cv.verifyConservative sc epochNr memberships := by
    simp only [verify, hcheck, hmemberships, index, List.getElem?_cons_zero, deref, ok_bind]
    cases cv.kind <;> rfl
  by_cases hown : cv.ownID ∈ first.nodes.keys
  · have hincluded : cv.Included sc := ⟨first, rest.map some, hmemberships, hown⟩
    rw [hverify, if_neg (not_not.mpr hown)]
    have hprevious := previousMembership_of_snapshot hsnapshot
    by_cases hfar : cv.configOffset < (membershipOffset e epochNr).toInt
    · cases hkind : cv.kind with
      | permissive =>
        refine .inl ⟨hincluded, c.previousMembership, .claimed hkind hepoch hfar hprevious, ?_⟩
        simp only [verifyPermissive, hprevious, hepoch, deref, ok_bind, gt_iff_lt, if_pos hfar,
          if_true]
      | conservative =>
        refine .inr ⟨?_, .tooFarAhead, ?_⟩
        · rintro ⟨-, m, hm⟩
          cases hm with
          | known hepoch' hahead' hnear hm =>
            obtain rfl := Except.ok.inj (hepoch.symm.trans hepoch')
            omega
          | claimed hkind' => cases hkind.symm.trans hkind'
        · simp only [verifyConservative, hepoch, ok_bind, if_neg hahead, gt_iff_lt, if_pos hfar,
            pure_eq_ok, reduceCtorEq, if_false]
    · have hpos : 0 < (membershipOffset e epochNr).toInt := by
        rw [Int64.not_le] at hahead
        exact Int64.lt_iff_toInt_lt.mp hahead
      have hindex : (membershipOffset e epochNr).toInt.toNat < memberships.length := by
        omega
      obtain ⟨m, hm⟩ : ∃ m, memberships[(membershipOffset e epochNr).toInt.toNat]? = some m :=
        ⟨_, List.getElem?_eq_getElem hindex⟩
      refine .inl ⟨hincluded, m, .known hepoch hahead (not_lt.mp hfar) hm, ?_⟩
      have hneg : ¬ membershipOffset e epochNr < 0 := by
        rw [Int64.lt_iff_toInt_lt]
        exact not_lt.mpr hpos.le
      have hread : indexInt memberships (membershipOffset e epochNr) = .ok m := by
        rw [indexInt, if_neg hneg, index_eq_ok]
        exact hm
      cases hkind : cv.kind with
      | permissive =>
        simp only [verifyPermissive, hprevious, hepoch, deref, ok_bind, gt_iff_lt, if_neg hfar,
          hread, if_true]
      | conservative =>
        simp only [verifyConservative, hepoch, ok_bind, if_neg hahead, gt_iff_lt, if_neg hfar,
          hread, reduceCtorEq, if_false]
  · refine .inr ⟨?_, .nodeNotInMembership, ?_⟩
    · rintro ⟨⟨first', rest', hms', hown'⟩, -⟩
      rw [hmemberships, Except.ok.injEq, List.cons.injEq, Option.some.injEq] at hms'
      exact hown (hms'.1 ▸ hown')
    · rw [hverify, if_pos hown]

theorem verifyAgainst_completes_iff {m : Membership} :
    Completes (cv.verifyAgainst sc m) ↔ Completes (sc.verify cv.crypto cv.enc cv.configOffset m) :=
  completes_bind_iff_left fun _ => completes_ok _

/-- **A validator's check of a checkpoint that is ahead completes** if the syntactic check does, and
the signers can be weighed against the membership it consults. -/
theorem verify_completes_iff (hepoch : sc.epoch = .ok e)
    (hahead : ¬ membershipOffset e epochNr ≤ 0)
    (hlen : memberships.length = cv.configOffset + 1) :
    Completes (cv.verify sc epochNr memberships) ↔
      Completes (sc.syntacticCheck cv.configOffset) ∧
        (sc.syntacticCheck cv.configOffset = .ok none → cv.Included sc → 0 < e →
          ∀ m, cv.Consults sc epochNr memberships m → m.Weighs (sc.cert.getD ∅).keys) := by
  constructor
  · intro h
    obtain ⟨r, hr, -⟩ := completes_bind_iff.mp h
    refine ⟨⟨r, hr⟩, fun hcheck hincluded hpos m hm => ?_⟩
    rcases verify_cases hcheck hepoch hahead hlen with ⟨-, m', hm', hverify⟩ | ⟨hno, -⟩
    · obtain rfl := hm.unique hm'
      rw [hverify, verifyAgainst_completes_iff,
        StableCheckpoint.verify_completes_iff hcheck hepoch] at h
      exact h hpos
    · exact absurd ⟨hincluded, m, hm⟩ hno
  · rintro ⟨⟨r, hr⟩, hweighs⟩
    cases r with
    | some err =>
      refine ⟨some (.invalidCheckpoint err), ?_⟩
      rw [verify, hr, ok_bind]
      rfl
    | none =>
      rcases verify_cases hr hepoch hahead hlen with ⟨hincluded, m, hm, hverify⟩ | ⟨-, err, herr⟩
      · rw [hverify, verifyAgainst_completes_iff,
          StableCheckpoint.verify_completes_iff hr hepoch]
        exact fun hpos => hweighs hr hincluded hpos m hm
      · exact ⟨some err, herr⟩

/-- A validator accepts what `Verify` accepts for the membership it consults. -/
theorem exists_consults_of_verify (hepoch : sc.epoch = .ok e)
    (hahead : ¬ membershipOffset e epochNr ≤ 0)
    (hlen : memberships.length = cv.configOffset + 1)
    (h : cv.verify sc epochNr memberships = .ok none) :
    sc.syntacticCheck cv.configOffset = .ok none ∧
      ∃ m, cv.Consults sc epochNr memberships m ∧
        sc.verify cv.crypto cv.enc cv.configOffset m = .ok none := by
  obtain ⟨r, hr, hrest⟩ := bind_eq_ok.mp h
  cases r with
  | some err => cases hrest
  | none =>
    refine ⟨hr, ?_⟩
    rcases verify_cases hr hepoch hahead hlen with ⟨-, m, hm, hverify⟩ | ⟨-, err, herr⟩
    · rw [hverify] at h
      obtain ⟨result, hresult, hmap⟩ := bind_eq_ok.mp h
      cases result with
      | some err => cases hmap
      | none => exact ⟨m, hm, hresult⟩
    · cases herr.symm.trans h

end Validator

end Checkpoint

end Mir
