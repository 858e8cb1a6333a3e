import Mir.Checkpoint.Protocol
import Mir.Checkpoint.Completion

/-!
# Serialized checkpoints

`Serialize` and `Deserialize` of `checkpoint.go`. A checkpoint is written after it has gone through
protobuf, which does not distinguish empty byte fields, lists and maps from `nil` (`throughPb`); the
encoding of the result by CBOR, which does, is a parameter. Protobuf refuses to write strings that
are not UTF-8, and CBOR to read large lists and maps (`Part`).

A checkpoint **round-trips** if it is written and read back with the same epoch, sequence number,
certificate and bytes to hash, and is accepted where it was accepted before (`RoundTrips`).
`announced_roundTrips_iff` says which of the checkpoints announced by the checkpoint protocol do: the
checks reject `nil` where the protocol put empty data (`empty_data_lost`).
-/

namespace Mir

open Coding Fallible

/-! ### Through protobuf -/

namespace GoMap

variable {K V : Type} {f : V → V} {m : GoMap K V}

theorem mapVal_eq_self (h : ∀ e ∈ m.entries, f e.2 = e.2) : m.mapVal f = m := by
  refine AList.ext ((List.map_congr_left fun e he => ?_).trans (List.map_id _))
  rw [h e he, id]

/-- Values that are the same up to the order of entries were not changed. -/
theorem apply_eq_self_of_same (h : m.Same (m.mapVal f)) : ∀ e ∈ m.entries, f e.2 = e.2 := by
  intro e he
  have hmem : (⟨e.1, f e.2⟩ : Σ _ : K, V) ∈ m.entries :=
    (List.Perm.mem_iff h).mpr (List.mem_map.mpr ⟨e, he, rfl⟩)
  exact m.nodupKeys.eq_of_mk_mem hmem he

end GoMap

/-- A byte field: the empty one becomes `nil`. -/
def ByteSlice.throughPb (s : ByteSlice) : ByteSlice := s.filter fun b => !b.isEmpty

@[simp] theorem ByteSlice.bytes_throughPb (s : ByteSlice) : s.throughPb.bytes = s.bytes := by
  rcases s with _ | _ | _ <;> rfl

theorem ByteSlice.throughPb_eq_self_iff {s : ByteSlice} : s.throughPb = s ↔ s ≠ some [] := by
  rcases s with _ | _ | _ <;> simp [ByteSlice.throughPb, Option.filter]

/-- `trantorpb.NodeIdentity`. -/
def NodeIdentity.throughPb (n : NodeIdentity) : NodeIdentity := { n with key := n.key.throughPb }

theorem NodeIdentity.throughPb_eq_self_iff {n : NodeIdentity} :
    n.throughPb = n ↔ n.key ≠ some [] := by
  rw [← ByteSlice.throughPb_eq_self_iff]
  exact ⟨fun h => congrArg NodeIdentity.key h, fun h => by rw [throughPb, h]⟩

/-- What the encodings check of a message: a string, or the number of elements of a list or map. -/
inductive Part
  | text (s : GoString)
  | size (n : ℕ)

/-- `proto.Marshal` refuses strings that are not valid UTF-8. -/
def Part.marshals : Part → Bool
  | .text s => decide s.ValidUTF8
  | .size _ => true

/-- `cbor.Unmarshal` refuses such strings, and arrays and maps of more than 131072 elements. -/
def Part.unmarshals : Part → Bool
  | .text s => decide s.ValidUTF8
  | .size n => decide (n ≤ 131072)

theorem Part.marshals_of_unmarshals {x : Part} (h : x.unmarshals = true) : x.marshals = true := by
  cases x with
  | text s => exact h
  | size n => rfl

namespace Membership

/-- `trantorpb.Membership`. -/
def throughPb (m : Membership) : Membership :=
  ⟨(m.nodeMap.filter fun nodes => !nodes.entries.isEmpty).map (GoMap.mapVal NodeIdentity.throughPb)⟩

theorem entries_throughPb (m : Membership) :
    m.throughPb.nodes.entries = m.nodes.entries.map fun e => ⟨e.1, e.2.throughPb⟩ := by
  obtain ⟨_ | nodes⟩ := m
  · rfl
  · rcases h : nodes.entries with _ | ⟨e, es⟩ <;>
      simp [throughPb, Membership.nodes, Option.filter, GoMap.mapVal, h]

/-- The strings of a membership, and the size of its map. -/
def parts (m : Membership) : List Part :=
  .size m.nodes.entries.length ::
    m.nodes.entries.flatMap fun e => [.text e.1, .text e.2.id, .text e.2.addr, .text e.2.weight]

@[simp] theorem parts_throughPb (m : Membership) : m.throughPb.parts = m.parts := by
  rw [parts, entries_throughPb, List.flatMap_map, List.length_map]
  rfl

/-- Nothing in the membership is empty instead of `nil`: neither its map nor a key. -/
def Plain (m : Membership) : Prop :=
  m.nodeMap ≠ some ∅ ∧ ∀ e ∈ m.nodes.entries, e.2.key ≠ some []

theorem throughPb_of_ne_nil {nodes : GoMap NodeID NodeIdentity} (h : nodes.entries ≠ []) :
    throughPb ⟨some nodes⟩ = ⟨some (nodes.mapVal NodeIdentity.throughPb)⟩ := by
  simp [throughPb, Option.filter, h]

theorem Plain.throughPb_eq_self {m : Membership} (h : m.Plain) : m.throughPb = m := by
  obtain ⟨nodeMap⟩ := m
  obtain ⟨hne, hkeys⟩ := h
  cases nodeMap with
  | none => rfl
  | some nodes =>
    have hentries : nodes.entries ≠ [] := fun h => hne (congrArg some (AList.ext h))
    have hmap : nodes.mapVal NodeIdentity.throughPb = nodes :=
      GoMap.mapVal_eq_self fun e he => NodeIdentity.throughPb_eq_self_iff.mpr (hkeys e he)
    rw [throughPb_of_ne_nil hentries, hmap]

/-- A membership that is encoded in the same way after it went through protobuf is plain. -/
theorem plain_of_toFinmap {m : Membership}
    (h : m.nodeMap.map AList.toFinmap = m.throughPb.nodeMap.map AList.toFinmap) : m.Plain := by
  obtain ⟨nodeMap⟩ := m
  cases nodeMap with
  | none => exact ⟨nofun, nofun⟩
  | some nodes =>
    by_cases hentries : nodes.entries = []
    · simp [throughPb, Option.filter, hentries] at h
    · rw [throughPb_of_ne_nil hentries, Option.map_some, Option.map_some, Option.some.injEq] at h
      have hkeys := GoMap.apply_eq_self_of_same (AList.toFinmap_eq.mp h)
      refine ⟨fun hempty => hentries ?_, fun e he => ?_⟩
      · rw [Option.some.inj hempty]
        rfl
      · exact NodeIdentity.throughPb_eq_self_iff.mp (hkeys e he)

end Membership

/-- A list of memberships whose encodings did not change consists of plain ones. -/
theorem plain_of_flatMap_serialize {enc : MembershipCodec} {ms : List Membership} {s t : Bytes}
    (h : (ms.flatMap fun m => enc.serialize (some m)) ++ s =
      (ms.flatMap fun m => enc.serialize (some m.throughPb)) ++ t) :
    (∀ m ∈ ms, m.Plain) ∧ s = t := by
  induction ms with
  | nil => exact ⟨nofun, h⟩
  | cons m ms ih =>
    rw [List.flatMap_cons, List.flatMap_cons, List.append_assoc, List.append_assoc] at h
    obtain ⟨hm, hrest⟩ := MembershipCodec.nodeMap_of_serialize_append h
    obtain ⟨hms, hst⟩ := ih hrest
    exact ⟨List.forall_mem_cons.mpr ⟨Membership.plain_of_toFinmap hm, hms⟩, hst⟩

namespace Checkpoint

/-- `trantorpb.EpochConfig`. A missing element of a list becomes an empty message. -/
def EpochConfig.throughPb (c : EpochConfig) : EpochConfig :=
  ⟨c.epochNr, c.firstSn, c.length, (c.memberships.filter fun ms => !ms.isEmpty).map
    (List.map fun m => some (m.elim ⟨none⟩ Membership.throughPb))⟩

theorem EpochConfig.memberships_throughPb (c : EpochConfig) : c.throughPb.memberships.getD [] =
    (c.memberships.getD []).map fun m => some (m.elim ⟨none⟩ Membership.throughPb) := by
  obtain ⟨nr, sn, length, _ | _ | ⟨m, ms⟩⟩ := c <;> rfl

def EpochConfig.parts (c : EpochConfig) : List Part :=
  .size (c.memberships.getD []).length ::
    (c.memberships.getD []).flatMap fun m => (m.getD ⟨none⟩).parts

theorem EpochConfig.parts_throughPb (c : EpochConfig) : c.throughPb.parts = c.parts := by
  rw [parts, memberships_throughPb, List.length_map, List.flatMap_map, parts]
  congr 2
  funext m
  cases m with
  | none => rfl
  | some m => exact m.parts_throughPb

/-- `trantorpb.EpochData`. Of the client progress nothing depends on the difference. -/
def EpochData.throughPb (d : EpochData) : EpochData :=
  ⟨d.epochConfig.map EpochConfig.throughPb, d.clientProgress, d.leaderPolicy.throughPb,
    d.previousMembership.map Membership.throughPb⟩

def ClientProgress.parts (p : ClientProgress) : List Part :=
  .size p.progress.entries.length ::
    p.progress.entries.flatMap fun e => [.text e.1, .size e.2.delivered.length]

def EpochData.parts (d : EpochData) : List Part :=
  d.epochConfig.elim [] EpochConfig.parts ++ d.clientProgress.elim [] ClientProgress.parts ++
    d.previousMembership.elim [] Membership.parts

/-- `trantorpb.StateSnapshot`. -/
def StateSnapshot.throughPb (s : StateSnapshot) : StateSnapshot :=
  ⟨s.appData.throughPb, s.epochData.map EpochData.throughPb⟩

namespace StableCheckpoint

/-- `checkpointpb.StableCheckpoint`, marshalled and unmarshalled. -/
def throughPb (sc : StableCheckpoint) : StableCheckpoint :=
  ⟨sc.sn, sc.snapshot.map StateSnapshot.throughPb, sc.cert.filter fun cert => !cert.entries.isEmpty⟩

/-- The strings of a checkpoint, and the sizes of its lists and maps. -/
def parts (sc : StableCheckpoint) : List Part :=
  (sc.snapshot.bind StateSnapshot.epochData).elim [] EpochData.parts ++
    .size (sc.cert.getD ∅).keys.length :: (sc.cert.getD ∅).keys.map .text

theorem parts_throughPb (sc : StableCheckpoint) : sc.throughPb.parts = sc.parts := by
  have hcert : sc.throughPb.cert.getD ∅ = sc.cert.getD ∅ := by
    obtain ⟨_, _, _ | cert⟩ := sc
    · rfl
    · by_cases h : cert = ∅
      · rw [h]
        rfl
      · simp [throughPb, Option.filter, show cert.entries ≠ [] from fun h' => h (AList.ext h')]
  rw [parts, parts, hcert]
  congr 1
  rcases sc with ⟨_, _ | ⟨_, _ | ⟨_ | c, _, _, _ | m⟩⟩, _⟩ <;>
    simp [throughPb, StateSnapshot.throughPb, EpochData.throughPb, EpochData.parts,
      EpochConfig.parts_throughPb]

/-- `StableCheckpoint.Serialize`; `none` is an error. -/
def serialize (cbor : Codec UInt8 StableCheckpoint) (sc : StableCheckpoint) : Option Bytes :=
  if sc.parts.all Part.marshals then some (cbor.encode sc.throughPb) else none

/-- `StableCheckpoint.Deserialize`; `none` is an error. -/
def deserialize (cbor : Codec UInt8 StableCheckpoint) (data : Bytes) : Option StableCheckpoint :=
  (cbor.decode data).filter fun sc => sc.parts.all Part.unmarshals

/-- What is written is read back as it came through protobuf, if CBOR accepts its parts. -/
theorem deserialize_serialize_iff {cbor : Codec UInt8 StableCheckpoint} {sc sc' : StableCheckpoint} :
    (∃ data, sc.serialize cbor = some data ∧ deserialize cbor data = some sc') ↔
      sc.parts.all Part.unmarshals = true ∧ sc.throughPb = sc' := by
  constructor
  · rintro ⟨data, hdata, hread⟩
    rw [serialize] at hdata
    split at hdata
    next =>
      rw [← Option.some.inj hdata, deserialize, cbor.decode_encode, Option.filter_eq_some_iff,
        Option.some.injEq] at hread
      obtain ⟨rfl, hparts⟩ := hread
      exact ⟨parts_throughPb sc ▸ hparts, rfl⟩
    next => cases hdata
  · rintro ⟨hparts, rfl⟩
    have hmarshals : sc.parts.all Part.marshals = true := List.all_eq_true.mpr fun x hx =>
      Part.marshals_of_unmarshals (List.all_eq_true.mp hparts x hx)
    refine ⟨_, if_pos hmarshals, ?_⟩
    rw [deserialize, cbor.decode_encode, Option.filter_some, parts_throughPb, if_pos hparts]

/-- The bytes that are hashed for the snapshot. -/
def hashedBytes (enc : MembershipCodec) (sc : StableCheckpoint) : Fallible Bytes := do
  let snapshot ← deref sc.snapshot
  let data ← serializeSnapshotForHash enc snapshot
  return data.flatten

/-- The checkpoint is the same for those who read it, and verifies as before. -/
structure SameAs (env : Crypto) (enc : MembershipCodec) (sc sc' : StableCheckpoint) : Prop where
  epoch : sc'.epoch = sc.epoch
  sn : sc'.sn = sc.sn
  hashedBytes : sc'.hashedBytes enc = sc.hashedBytes enc
  cert : sc'.cert = sc.cert
  syntacticCheck : ∀ configOffset, sc.syntacticCheck configOffset = .ok none →
    sc'.syntacticCheck configOffset = .ok none
  verify : ∀ configOffset membership, sc.verify env enc configOffset membership = .ok none →
    sc'.verify env enc configOffset membership = .ok none

/-- The checkpoint is written, and read back from its bytes. -/
def RoundTrips (cbor : Codec UInt8 StableCheckpoint) (env : Crypto) (enc : MembershipCodec)
    (sc : StableCheckpoint) : Prop :=
  ∃ data sc', sc.serialize cbor = some data ∧ deserialize cbor data = some sc' ∧
    sc.SameAs env enc sc'

theorem roundTrips_iff {cbor : Codec UInt8 StableCheckpoint} {env : Crypto} {enc : MembershipCodec}
    {sc : StableCheckpoint} : sc.RoundTrips cbor env enc ↔
      sc.parts.all Part.unmarshals = true ∧ sc.SameAs env enc sc.throughPb := by
  constructor
  · rintro ⟨data, sc', hwrite, hread, hsame⟩
    obtain ⟨hparts, rfl⟩ := deserialize_serialize_iff.mp ⟨data, hwrite, hread⟩
    exact ⟨hparts, hsame⟩
  · rintro ⟨hparts, hsame⟩
    obtain ⟨data, hwrite, hread⟩ : ∃ data, sc.serialize cbor = some data ∧
      deserialize cbor data = some sc.throughPb := deserialize_serialize_iff.mpr ⟨hparts, rfl⟩
    exact ⟨data, _, hwrite, hread, hsame⟩

end StableCheckpoint

/-! ### The round trip -/

section Trip

variable {enc : MembershipCodec} {p : ModuleParams} {ms : List Membership} {s : State}
  {sc : StableCheckpoint} {config : EpochConfig}

/-- The bytes of the epoch's numbers. -/
def EpochConfig.numberBytes (config : EpochConfig) : Bytes :=
  uint64ToBytes config.epochNr ++ uint64ToBytes config.length ++ uint64ToBytes config.firstSn

/-- What is hashed for a complete snapshot whose previous membership is not empty. -/
theorem hashedBytes_eq {appData policy : ByteSlice} {progress : ClientProgress}
    {previous : Membership} {memberships : List Membership}
    (hsnapshot : sc.snapshot =
      some ⟨appData, some ⟨some config, some progress, policy, some previous⟩⟩)
    (hms : config.memberships.getD [] = memberships.map some)
    (hprevious : previous.nodes.entries ≠ []) :
    sc.hashedBytes enc = .ok (config.numberBytes ++
      ((memberships.flatMap fun m => enc.serialize (some m)) ++ (policy.bytes ++
        ((serializeClientProgressForHash progress).flatten ++
          (enc.serialize (some previous) ++ appData.bytes))))) := by
  simp [StableCheckpoint.hashedBytes, hsnapshot, deref, serializeSnapshotForHash,
    serializeEpochDataForHash, serializeEpochConfigForHash, serializeMembershipsForHash, hms,
    serializePreviousMembership, hprevious, EpochConfig.numberBytes, List.flatMap_def,
    Function.comp_def]

theorem entries_ne_nil_of_haveStrongQuorum {m : Membership} {ids : List NodeID} {b : Bool}
    (hne : ids ≠ []) (h : m.haveStrongQuorum ids = .ok b) : m.nodes.entries ≠ [] := by
  obtain ⟨id, hid⟩ := List.exists_mem_of_ne_nil ids hne
  obtain ⟨w, hw, -⟩ := bind_eq_ok.mp h
  have hmem := (Membership.mem_keys_of_weightOf hw id hid).1
  intro hnil
  rw [AList.keys, hnil] at hmem
  cases hmem

/-- What is hashed for an announced checkpoint, with the given memberships. -/
def announcedBytes (enc : MembershipCodec) (p : ModuleParams) (s : State)
    (progress : ClientProgress) (ms : List Membership) (previous : Membership) : Bytes :=
  p.epochConfig.numberBytes ++
    ((ms.flatMap fun m => enc.serialize (some m)) ++ (p.leaderPolicyData.bytes ++
      ((serializeClientProgressForHash progress).flatten ++
        (enc.serialize (some previous) ++ s.appData.bytes))))

section Announcing

variable {progress : ClientProgress} (hms : p.epochConfig.memberships = some (ms.map some))
  (hprogress : s.clientProgress = some progress) (hentries : p.membership.nodes.entries ≠ [])

include hms hprogress hentries

theorem hashedBytes_announced : StableCheckpoint.hashedBytes enc
    ⟨p.epochConfig.firstSn, some (p.stateSnapshot s), some s.signatures⟩ =
      .ok (announcedBytes enc p s progress ms p.membership) := by
  refine hashedBytes_eq ?_ (by rw [hms]; rfl) hentries
  rw [← hprogress]
  rfl

theorem hashedBytes_announced_throughPb : (StableCheckpoint.throughPb
    ⟨p.epochConfig.firstSn, some (p.stateSnapshot s), some s.signatures⟩).hashedBytes enc =
      .ok (announcedBytes enc p s progress (ms.map Membership.throughPb) p.membership.throughPb) := by
  have hread : p.epochConfig.throughPb.memberships.getD [] =
      (ms.map Membership.throughPb).map some := by
    rw [p.epochConfig.memberships_throughPb, hms, Option.getD_some, List.map_map, List.map_map]
    rfl
  have hprevious : p.membership.throughPb.nodes.entries ≠ [] := by
    rw [Membership.entries_throughPb]
    exact fun hnil => hentries (List.map_eq_nil_iff.mp hnil)
  have hsnapshot : (StableCheckpoint.throughPb ⟨p.epochConfig.firstSn, some (p.stateSnapshot s),
      some s.signatures⟩).snapshot = some ⟨s.appData.throughPb, some ⟨some p.epochConfig.throughPb,
        some progress, p.leaderPolicyData.throughPb, some p.membership.throughPb⟩⟩ := by
    rw [← hprogress]
    rfl
  rw [hashedBytes_eq hsnapshot hread hprevious, ByteSlice.bytes_throughPb,
    ByteSlice.bytes_throughPb]
  rfl

end Announcing

/-- If the same bytes are hashed, the memberships are plain. -/
theorem plain_of_announcedBytes {progress : ClientProgress}
    (h : announcedBytes enc p s progress ms p.membership =
      announcedBytes enc p s progress (ms.map Membership.throughPb) p.membership.throughPb) :
    (∀ m ∈ ms, m.Plain) ∧ p.membership.Plain := by
  rw [announcedBytes, announcedBytes, List.flatMap_map] at h
  obtain ⟨hplain, hrest⟩ := plain_of_flatMap_serialize (List.append_cancel_left h)
  have hprevious := List.append_cancel_left (List.append_cancel_left hrest)
  obtain ⟨hsame, -⟩ := MembershipCodec.nodeMap_of_serialize_append hprevious
  exact ⟨hplain, Membership.plain_of_toFinmap hsame⟩

theorem memberships_length {content : SnapshotContent}
    (hcontent : some (p.stateSnapshot s) = some content.snapshot)
    (hms : p.epochConfig.memberships = some (ms.map some)) :
    content.memberships.length = ms.length := by
  have hread := congrArg (fun s : StateSnapshot => s.epochData.bind fun d =>
    d.epochConfig.bind EpochConfig.memberships) (Option.some.inj hcontent)
  change p.epochConfig.memberships = some (content.memberships.map some) at hread
  have hlen := congrArg List.length (Option.some.inj (hms.symm.trans hread))
  simpa using hlen.symm

/-- A complete snapshot with plain memberships is unchanged, if it has data and a policy. -/
theorem throughPb_eq_self (hms : p.epochConfig.memberships = some (ms.map some)) (hne : ms ≠ [])
    (hsigs : s.signatures.keys ≠ []) (hprevious : p.membership.Plain) (hplain : ∀ m ∈ ms, m.Plain)
    (happ : s.appData ≠ some []) (hpolicy : p.leaderPolicyData ≠ some []) :
    StableCheckpoint.throughPb ⟨p.epochConfig.firstSn, some (p.stateSnapshot s), some s.signatures⟩ =
      ⟨p.epochConfig.firstSn, some (p.stateSnapshot s), some s.signatures⟩ := by
  have hentries : s.signatures.entries ≠ [] := fun h => hsigs (by rw [AList.keys, h]; rfl)
  have hmap : ms.map (fun m => some m.throughPb) = ms.map some :=
    List.map_congr_left fun m hm => congrArg some (hplain m hm).throughPb_eq_self
  have hconfig : p.epochConfig.throughPb = p.epochConfig := by
    generalize p.epochConfig = config at hms ⊢
    obtain ⟨nr, sn, length, memberships⟩ := config
    obtain rfl : memberships = some (ms.map some) := hms
    simpa [EpochConfig.throughPb, Option.filter, hne] using hmap
  simp [StableCheckpoint.throughPb, ModuleParams.stateSnapshot, StateSnapshot.throughPb,
    EpochData.throughPb, hconfig, ByteSlice.throughPb_eq_self_iff.mpr happ,
    ByteSlice.throughPb_eq_self_iff.mpr hpolicy, hprevious.throughPb_eq_self, Option.filter,
    hentries]

end Trip

/-- **Which announced checkpoints round-trip**: those whose strings are UTF-8, whose lists and maps
are not too large for CBOR, whose memberships have no empty map or key and, if they pass the syntactic
check, that have application data and a leader policy. -/
theorem announced_roundTrips_iff (cbor : Codec UInt8 StableCheckpoint) (env : Crypto)
    (enc : MembershipCodec) (p : ModuleParams) (ms : List Membership)
    (hms : p.epochConfig.memberships = some (ms.map some)) (c : Instance)
    (hr : Reachable env enc p c) (sc : StableCheckpoint) (hsc : sc ∈ c.announcements) :
    sc.RoundTrips cbor env enc ↔ sc.parts.all Part.unmarshals = true ∧
      p.membership.Plain ∧ (∀ m ∈ ms, m.Plain) ∧
      ((∃ configOffset, sc.syntacticCheck configOffset = .ok none) →
        p.leaderPolicyData ≠ some [] ∧
          ∀ snapshot, sc.snapshot = some snapshot → snapshot.appData ≠ some []) := by
  obtain ⟨s, hready, hsigs, hstrong, rfl⟩ := hr.announced hsc
  obtain ⟨happ, hprogress⟩ := Bool.and_eq_true_iff.mp hready
  obtain ⟨app, happ⟩ := Option.isSome_iff_exists.mp happ
  obtain ⟨progress, hprogress⟩ := Option.isSome_iff_exists.mp hprogress
  have hentries := entries_ne_nil_of_haveStrongQuorum hsigs hstrong
  have hbytes : StableCheckpoint.hashedBytes enc _ = _ :=
    hashedBytes_announced hms hprogress hentries
  have hbytes' : StableCheckpoint.hashedBytes enc _ = _ :=
    hashedBytes_announced_throughPb hms hprogress hentries
  rw [StableCheckpoint.roundTrips_iff]
  refine and_congr_right fun _ => ?_
  constructor
  · intro hsame
    have heq := hsame.hashedBytes
    rw [hbytes, hbytes', Except.ok.injEq] at heq
    obtain ⟨hplain, hprevious⟩ := plain_of_announcedBytes heq.symm
    refine ⟨hprevious, hplain, fun ⟨configOffset, hpass⟩ => ?_⟩
    obtain ⟨-, content, hcontent, -⟩ :=
      StableCheckpoint.syntacticCheck_eq_none_iff.mp (hsame.syntacticCheck configOffset hpass)
    rw [StableCheckpoint.throughPb, Option.map_some, Option.some.injEq] at hcontent
    refine ⟨fun hpolicy => ?_, fun snapshot hsnapshot hdata => ?_⟩
    · have hread := congrArg (fun s : StateSnapshot => s.epochData.bind EpochData.leaderPolicy)
        hcontent
      change p.leaderPolicyData.throughPb = some content.leaderPolicy at hread
      rw [hpolicy] at hread
      cases hread
    · obtain rfl := Option.some.inj hsnapshot
      have hread := congrArg StateSnapshot.appData hcontent
      change s.appData.throughPb = some content.appData at hread
      rw [show s.appData = some [] from hdata] at hread
      cases hread
  · rintro ⟨hprevious, hplain, hdata⟩
    have hmap : ms.map Membership.throughPb = ms :=
      (List.map_congr_left fun m hm => (hplain m hm).throughPb_eq_self).trans (List.map_id _)
    have hcert : s.signatures.entries ≠ [] := fun h => hsigs (by rw [AList.keys, h]; rfl)
    -- a checkpoint that passes the check is read back unchanged
    have hself : ∀ configOffset, StableCheckpoint.syntacticCheck
        ⟨p.epochConfig.firstSn, some (p.stateSnapshot s), some s.signatures⟩ configOffset =
          .ok none → StableCheckpoint.throughPb
        ⟨p.epochConfig.firstSn, some (p.stateSnapshot s), some s.signatures⟩ =
          ⟨p.epochConfig.firstSn, some (p.stateSnapshot s), some s.signatures⟩ := by
      intro configOffset hpass
      obtain ⟨hpolicy, happ⟩ := hdata ⟨configOffset, hpass⟩
      refine throughPb_eq_self hms ?_ hsigs hprevious hplain (happ _ rfl) hpolicy
      rintro rfl
      obtain ⟨-, content, hcontent, hwf⟩ := StableCheckpoint.syntacticCheck_eq_none_iff.mp hpass
      have hlen := memberships_length hcontent hms
      rw [hwf.count] at hlen
      cases hlen
    refine ⟨rfl, rfl, ?_, ?_, fun configOffset hpass => ?_, fun configOffset m hverify => ?_⟩
    · rw [hbytes, hbytes', hmap, hprevious.throughPb_eq_self]
    · simp [StableCheckpoint.throughPb, Option.filter, hcert]
    · rwa [hself configOffset hpass]
    · obtain ⟨r, hr, hrest⟩ := bind_eq_ok.mp hverify
      cases r with
      | some e => cases hrest
      | none => rwa [hself configOffset hr]

instance {K V : Type} [Countable K] [Countable V] : Countable (GoMap K V) :=
  Function.Injective.countable (f := AList.entries) fun _ _ => AList.ext

deriving instance Countable for DeliveredTXs, ClientProgress, EpochConfig, EpochData, StateSnapshot,
  StableCheckpoint

theorem plain_fourMembers : Membership.fourMembers.Plain :=
  ⟨by decide +kernel, by decide +kernel⟩

/-- A checkpoint with data round-trips. -/
theorem announced_roundTrips_four : ∃ cbor env enc c, Reachable env enc (memberParams [97]) c ∧
    ∃ sc ∈ c.announcements, sc.syntacticCheck 0 = .ok none ∧ sc.RoundTrips cbor env enc := by
  obtain ⟨cbor, -⟩ := exists_prefixFree_codec (α := StableCheckpoint)
    (show (0 : UInt8) ≠ 1 by decide)
  obtain ⟨c, hc, -, hsingle⟩ := exists_announced [7] (by decide) [97] (by decide)
  have hsc : memberChkp [7] [97] ∈ c.announcements := by simp [hsingle]
  refine ⟨cbor, _, _, c, hc, _, hsc, rfl, ?_⟩
  refine (announced_roundTrips_iff cbor _ _ (memberParams [97]) [.fourMembers] rfl c hc _
    hsc).mpr ⟨by decide +kernel, plain_fourMembers, ?_, fun _ => ⟨nofun, ?_⟩⟩
  · intro m hm
    rw [List.mem_singleton.mp hm]
    exact plain_fourMembers
  · intro snapshot hsnapshot
    rw [← Option.some.inj hsnapshot]
    nofun

/-- **A checkpoint of an application without data is rejected once it has been serialized.** -/
theorem empty_data_lost : ¬ ∀ (cbor : Codec UInt8 StableCheckpoint) (env : Crypto)
    (enc : MembershipCodec) (p : ModuleParams) (c : Instance), Reachable env enc p c →
      ∀ sc ∈ c.announcements, sc.RoundTrips cbor env enc := by
  intro h
  obtain ⟨cbor, -⟩ := exists_prefixFree_codec (α := StableCheckpoint)
    (show (0 : UInt8) ≠ 1 by decide)
  obtain ⟨c, hc, -, hsingle⟩ := exists_announced [] (by decide) [97] (by decide)
  have hsc : memberChkp [] [97] ∈ c.announcements := by simp [hsingle]
  obtain ⟨-, hsame⟩ := StableCheckpoint.roundTrips_iff.mp (h cbor _ _ _ c hc _ hsc)
  obtain ⟨-, content, hcontent, -⟩ :=
    StableCheckpoint.syntacticCheck_eq_none_iff.mp (hsame.syntacticCheck 0 rfl)
  cases congrArg (Option.map StateSnapshot.appData) hcontent

end Checkpoint

end Mir
