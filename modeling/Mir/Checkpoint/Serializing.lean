import Mir.Checkpoint.Snapshot
import Mir.Trantor.Quorums
import Mir.Lib.Codec

/-!
# The bytes hashed for a checkpoint

`checkpoint/serializing.go`: the byte slices that are hashed for a snapshot, and the data that is
signed for its checkpoint. The hash ignores the boundaries of the slices, and only the memberships
are delimited by their encoding. The bytes therefore determine the epoch's number, its first
sequence number, its length and its memberships (`SnapshotContent.headBytes_inj`), but not how the
rest is divided into leader policy, client progress, previous membership and application data:
`bytesDetermine_iff` says for which snapshots it can be divided in one way only.
-/

namespace Mir

open Coding

/-- The deterministic CBOR encoding of memberships. An encoding is self-delimiting: none is the
beginning of another one. -/
structure MembershipCodec where
  codec : Codec UInt8 (Option (Finmap fun _ : NodeID => NodeIdentity))
  prefixFree : PrefixFree codec.encode

namespace MembershipCodec

variable {enc : MembershipCodec}

/-- `membutil.Serialize`; a `nil` pointer is written as the CBOR null. -/
def serialize (enc : MembershipCodec) : Option Membership → Bytes
  | some m => enc.codec.encode (m.nodeMap.map AList.toFinmap)
  | none => [246]

/-- What memberships with the same encoding have in common, at the front of some bytes. -/
theorem nodeMap_of_serialize_append {m m' : Membership} {s t : Bytes}
    (h : enc.serialize (some m) ++ s = enc.serialize (some m') ++ t) :
    m.nodeMap.map AList.toFinmap = m'.nodeMap.map AList.toFinmap ∧ s = t :=
  enc.prefixFree.append_inj h

/-- A membership at the front of some bytes is determined by them, and so is the rest. -/
theorem serialize_append_inj {m m' : Membership} {s t : Bytes}
    (h : enc.serialize (some m) ++ s = enc.serialize (some m') ++ t) : m.Same m' ∧ s = t := by
  obtain ⟨hm, hst⟩ := nodeMap_of_serialize_append h
  refine ⟨?_, hst⟩
  obtain ⟨nodeMap⟩ := m
  obtain ⟨nodeMap'⟩ := m'
  cases nodeMap <;> cases nodeMap' <;> simp at hm
  · exact Membership.Same.refl _
  · exact AList.toFinmap_eq.mp hm

theorem serialize_ne_nil (m : Membership) : enc.serialize (some m) ≠ [] := by
  intro h
  -- the empty string would be the beginning of every encoding
  have hall : ∀ nodes, m.nodeMap.map AList.toFinmap = nodes := fun nodes => enc.prefixFree _ _ (by
    rw [show enc.codec.encode (m.nodeMap.map AList.toFinmap) = [] from h]
    exact List.nil_prefix)
  cases (hall none).symm.trans (hall (some ∅))

instance : Nonempty MembershipCodec := by
  have : Countable (Finmap fun _ : NodeID => NodeIdentity) :=
    Function.Injective.countable fun _ _ => Finmap.ext
  obtain ⟨codec, hfree⟩ := exists_prefixFree_codec
    (α := Option (Finmap fun _ : NodeID => NodeIdentity)) (show (0 : UInt8) ≠ 1 by decide)
  exact ⟨codec, hfree⟩

end MembershipCodec

/-- The little-endian digits of a number that was read from its digits. -/
theorem digits_ofDigits (b : Bytes) :
    ((List.range b.length).map fun i =>
      UInt8.ofNat (Nat.ofDigits 256 (b.map UInt8.toNat) / 256 ^ i)) = b := by
  induction b with
  | nil => rfl
  | cons x b ih =>
    have hx := x.toNat_lt
    rw [List.length_cons, List.range_succ_eq_map, List.map_cons, List.map_map, List.map_cons,
      Nat.ofDigits_cons]
    congr 1
    · rw [pow_zero, Nat.div_one, ← UInt8.toNat_inj, UInt8.toNat_ofNat']
      omega
    · refine Eq.trans (List.map_congr_left fun i _ => ?_) ih
      have hdiv : (x.toNat + 256 * Nat.ofDigits 256 (b.map UInt8.toNat)) / 256 =
          Nat.ofDigits 256 (b.map UInt8.toNat) := by omega
      rw [Function.comp_apply, Nat.pow_succ', ← Nat.div_div_eq_div_mul, hdiv]

/-- Eight bytes are the encoding of a number. -/
theorem exists_uint64ToBytes {b : Bytes} (h : b.length = 8) : ∃ n, uint64ToBytes n = b := by
  have hlt : Nat.ofDigits 256 (b.map UInt8.toNat) < 256 ^ 8 := by
    rw [← h, ← List.length_map UInt8.toNat]
    refine Nat.ofDigits_lt_base_pow_length (by omega) fun x hx => ?_
    obtain ⟨y, -, rfl⟩ := List.mem_map.mp hx
    exact y.toNat_lt
  refine ⟨UInt64.ofNat (Nat.ofDigits 256 (b.map UInt8.toNat)), ?_⟩
  rw [uint64ToBytes, UInt64.toNat_ofNat_of_lt' (by simpa [UInt64.size] using hlt), ← h]
  exact digits_ofDigits b

namespace Checkpoint

/-! ### Serialization -/

/-- `serializeCheckpointForSig`. -/
def serializeCheckpointForSig (epoch : EpochNr) (seqNr : SeqNr) (snapshotHash : Bytes) :
    List Bytes :=
  [uint64ToBytes epoch, uint64ToBytes seqNr, snapshotHash]

/-- `serializeMembershipsForHash`. -/
def serializeMembershipsForHash (enc : MembershipCodec) (memberships : List (Option Membership)) :
    List Bytes :=
  memberships.map enc.serialize

/-- `serializeEpochConfigForHash`. -/
def serializeEpochConfigForHash (enc : MembershipCodec) (config : EpochConfig) : List Bytes :=
  [uint64ToBytes config.epochNr, uint64ToBytes config.length, uint64ToBytes config.firstSn] ++
    serializeMembershipsForHash enc (config.memberships.getD [])

/-- The bytes of one client. -/
def serializeClient (progress : GoMap ClientID DeliveredTXs) (id : ClientID) : List Bytes :=
  match progress.lookup id with
  | some txs => id :: uint64ToBytes txs.lowWm :: txs.delivered.map uint64ToBytes
  | none => []

/-- `serializeClientProgressForHash`: clients in the order of their identifiers. -/
def serializeClientProgressForHash (cp : ClientProgress) : List Bytes :=
  (cp.progress.sortedKeys GoString.le).flatMap (serializeClient cp.progress)

/-- The previous membership as it is hashed; an empty one is left out. -/
def serializePreviousMembership (enc : MembershipCodec) (previous : Membership) : List Bytes :=
  if previous.nodes.entries ≠ [] then [enc.serialize (some previous)] else []

/-- `serializeEpochDataForHash`. -/
def serializeEpochDataForHash (enc : MembershipCodec) (data : EpochData) : Fallible (List Bytes) := do
  let config ← deref data.epochConfig
  let progress ← deref data.clientProgress
  let previous ← deref data.previousMembership
  return serializeEpochConfigForHash enc config ++ [data.leaderPolicy.bytes] ++
    serializeClientProgressForHash progress ++ serializePreviousMembership enc previous

/-- `serializeSnapshotForHash`. -/
def serializeSnapshotForHash (enc : MembershipCodec) (snapshot : StateSnapshot) :
    Fallible (List Bytes) := do
  let data ← deref snapshot.epochData
  let epochData ← serializeEpochDataForHash enc data
  return epochData ++ [snapshot.appData.bytes]

/-! ### The bytes of a snapshot -/

namespace SnapshotContent

variable {enc : MembershipCodec} {c c' : SnapshotContent} {configOffset : ℕ}

/-- The part of the bytes that is delimited. -/
def headBytes (enc : MembershipCodec) (c : SnapshotContent) : Bytes :=
  uint64ToBytes c.epochNr ++ (uint64ToBytes c.length ++ (uint64ToBytes c.firstSn ++
    c.memberships.flatMap fun m => enc.serialize (some m)))

/-- The bytes of the client progress. -/
def progressBytes (c : SnapshotContent) : Bytes :=
  (serializeClientProgressForHash c.clientProgress).flatten

/-- The bytes of the previous membership. -/
def previousBytes (enc : MembershipCodec) (c : SnapshotContent) : Bytes :=
  (serializePreviousMembership enc c.previousMembership).flatten

/-- The part of the bytes without delimiters. -/
def tailBytes (enc : MembershipCodec) (c : SnapshotContent) : Bytes :=
  c.leaderPolicy ++ (c.progressBytes ++ (c.previousBytes enc ++ c.appData))

/-- Serializing a snapshot that has all its parts. -/
theorem serialize_snapshot (enc : MembershipCodec) (c : SnapshotContent) :
    ∃ data, serializeSnapshotForHash enc c.snapshot = .ok data ∧
      data.flatten = c.headBytes enc ++ c.tailBytes enc := by
  refine ⟨_, rfl, ?_⟩
  simp [serializeEpochConfigForHash, serializeMembershipsForHash, headBytes, tailBytes, snapshot,
    progressBytes, previousBytes, List.flatMap_def, Function.comp_def]

theorem memberships_inj {ms ms' : List Membership} {s t : Bytes} (hlen : ms.length = ms'.length)
    (h : (ms.flatMap fun m => enc.serialize (some m)) ++ s =
      (ms'.flatMap fun m => enc.serialize (some m)) ++ t) :
    List.Forall₂ Membership.Same ms ms' ∧ s = t := by
  induction ms generalizing ms' with
  | nil =>
    rw [List.length_nil, eq_comm, List.length_eq_zero_iff] at hlen
    subst hlen
    exact ⟨.nil, h⟩
  | cons m ms ih =>
    obtain ⟨m', ms', rfl⟩ := List.exists_cons_of_length_eq_add_one hlen.symm
    rw [List.flatMap_cons, List.flatMap_cons, List.append_assoc, List.append_assoc] at h
    obtain ⟨hm, hrest⟩ := MembershipCodec.serialize_append_inj h
    obtain ⟨hms, hst⟩ := ih (by simpa using hlen) hrest
    exact ⟨.cons hm hms, hst⟩

theorem uint64ToBytes_append_inj {n n' : UInt64} {s t : Bytes}
    (h : uint64ToBytes n ++ s = uint64ToBytes n' ++ t) : n = n' ∧ s = t := by
  obtain ⟨hn, hst⟩ := List.append_inj h (by simp)
  exact ⟨uint64ToBytes_injective hn, hst⟩

/-- **The bytes determine the epoch configuration**, and what follows it. -/
theorem headBytes_inj (hwf : c.WellFormed configOffset) (hwf' : c'.WellFormed configOffset)
    (h : c.headBytes enc ++ c.tailBytes enc = c'.headBytes enc ++ c'.tailBytes enc) :
    (c.epochNr = c'.epochNr ∧ c.length = c'.length ∧ c.firstSn = c'.firstSn ∧
      List.Forall₂ Membership.Same c.memberships c'.memberships) ∧
      c.tailBytes enc = c'.tailBytes enc := by
  simp only [headBytes, List.append_assoc] at h
  obtain ⟨hepoch, h⟩ := uint64ToBytes_append_inj h
  obtain ⟨hlength, h⟩ := uint64ToBytes_append_inj h
  obtain ⟨hfirst, h⟩ := uint64ToBytes_append_inj h
  obtain ⟨hms, htail⟩ := memberships_inj (hwf.count.trans hwf'.count.symm) h
  exact ⟨⟨hepoch, hlength, hfirst, hms⟩, htail⟩

/-! ### Dividing the rest -/

/-- Snapshots with the same contents. -/
structure Same (c c' : SnapshotContent) : Prop where
  epochNr : c.epochNr = c'.epochNr
  firstSn : c.firstSn = c'.firstSn
  length : c.length = c'.length
  memberships : List.Forall₂ Membership.Same c.memberships c'.memberships
  leaderPolicy : c.leaderPolicy = c'.leaderPolicy
  clientProgress : c.clientProgress.progress.Same c'.clientProgress.progress
  previousMembership : c.previousMembership.Same c'.previousMembership
  appData : c.appData = c'.appData

/-- **The rest can be divided in one way only.** In the first epoch it is empty; later there is no
client progress, no leader policy that could be read as some, and no other place where the previous
membership could stand. -/
def Unambiguous (enc : MembershipCodec) (c : SnapshotContent) : Prop :=
  c.clientProgress.progress.entries = [] ∧
    if c.epochNr = 0 then
      c.leaderPolicy = [] ∧ c.previousMembership.nodes.entries = [] ∧ c.appData = []
    else
      c.leaderPolicy.length < 8 ∧
        ∀ before m after, m.valid = none →
          c.leaderPolicy ++ (enc.serialize (some c.previousMembership) ++ c.appData) =
            before ++ (enc.serialize (some m) ++ after) →
          before.length = c.leaderPolicy.length

theorem progressBytes_of_empty (h : c.clientProgress.progress.entries = []) :
    c.progressBytes = [] := by
  have hkeys : c.clientProgress.progress.keys = [] := by rw [AList.keys, h]; rfl
  simp [progressBytes, serializeClientProgressForHash, GoMap.sortedKeys, hkeys]

/-- Client progress takes at least eight bytes: a low watermark. -/
theorem length_progressBytes (h : c.clientProgress.progress.entries ≠ []) :
    8 ≤ c.progressBytes.length := by
  obtain ⟨⟨id, txs⟩, hmem⟩ := List.exists_mem_of_ne_nil _ h
  have hlookup : c.clientProgress.progress.lookup id = some txs := AList.mem_lookup_iff.mpr hmem
  have hkey : id ∈ c.clientProgress.progress.sortedKeys GoString.le :=
    GoMap.mem_sortedKeys.mpr (GoMap.mem_keys_iff.mpr ⟨txs, hlookup⟩)
  have hmemBytes : uint64ToBytes txs.lowWm ∈ serializeClientProgressForHash c.clientProgress := by
    refine List.mem_flatMap.mpr ⟨id, hkey, ?_⟩
    simp [serializeClient, hlookup]
  rw [← length_uint64ToBytes txs.lowWm, progressBytes]
  exact (List.sublist_flatten_of_mem hmemBytes).length_le

theorem empty_of_length_lt (h : c.progressBytes.length < 8) :
    c.clientProgress.progress.entries = [] := by
  by_contra hne
  have hlong := length_progressBytes hne
  omega

theorem same_of_empty {K V : Type} {m m' : GoMap K V} (h : m.entries = []) (h' : m'.entries = []) :
    m.Same m' := by
  rw [GoMap.Same, h, h']

/-- A client whose bytes are the given ones. -/
theorem exists_progress {b : Bytes} (h : 8 ≤ b.length) : ∃ cp : ClientProgress,
    cp.progress.entries ≠ [] ∧ (serializeClientProgressForHash cp).flatten = b := by
  obtain ⟨n, hn⟩ := exists_uint64ToBytes (b := b.drop (b.length - 8)) (by simp; omega)
  let progress : GoMap ClientID DeliveredTXs := AList.singleton (b.take (b.length - 8)) ⟨n, []⟩
  have hlookup : progress.lookup (b.take (b.length - 8)) = some ⟨n, []⟩ :=
    AList.mem_lookup_iff.mpr (by simp [progress, AList.singleton])
  have hkeys : progress.keys = [b.take (b.length - 8)] := rfl
  refine ⟨⟨progress⟩, by simp [progress, AList.singleton], ?_⟩
  simp [serializeClientProgressForHash, GoMap.sortedKeys, serializeClient, hkeys, hlookup, hn]

theorem valid_ne_empty {m : Membership} (h : m.valid = none) : m.nodes.entries ≠ [] := by
  intro hempty
  simp [Membership.valid, hempty] at h

theorem previousBytes_of_ne (h : c.previousMembership.nodes.entries ≠ []) :
    c.previousBytes enc = enc.serialize (some c.previousMembership) := by
  simp [previousBytes, serializePreviousMembership, h]

theorem previousBytes_of_empty (h : c.previousMembership.nodes.entries = []) :
    c.previousBytes enc = [] := by
  simp [previousBytes, serializePreviousMembership, h]

theorem previousBytes_eq_nil_iff :
    c.previousBytes enc = [] ↔ c.previousMembership.nodes.entries = [] := by
  refine ⟨fun h => ?_, previousBytes_of_empty⟩
  by_contra hne
  rw [previousBytes_of_ne hne] at h
  exact MembershipCodec.serialize_ne_nil _ h

/-- Only `c` has its bytes. -/
def Determined (enc : MembershipCodec) (configOffset : ℕ) (c : SnapshotContent) : Prop :=
  ∀ c' : SnapshotContent, c'.WellFormed configOffset →
    c.headBytes enc ++ c.tailBytes enc = c'.headBytes enc ++ c'.tailBytes enc → c.Same c'

/-- Another division of the rest gives a snapshot with the same bytes. -/
theorem Determined.same_of_tail (h : c.Determined enc configOffset) (hwf : c.WellFormed configOffset)
    (policy : Bytes) (progress : ClientProgress) (previous : Membership) (app : Bytes)
    (hprevious : 0 < c.epochNr → previous.valid = none)
    (htail : c.tailBytes enc = policy ++ ((serializeClientProgressForHash progress).flatten ++
      ((serializePreviousMembership enc previous).flatten ++ app))) :
    c.leaderPolicy = policy ∧ c.clientProgress.progress.Same progress.progress ∧
      c.previousMembership.Same previous ∧ c.appData = app := by
  have hsame := h ⟨c.epochNr, c.firstSn, c.length, c.memberships, policy, progress, previous, app⟩
    ⟨hwf.count, hwf.valid, hprevious⟩ (congrArg (c.headBytes enc ++ ·) htail)
  exact ⟨hsame.leaderPolicy, hsame.clientProgress, hsame.previousMembership, hsame.appData⟩

theorem flatten_no_progress : (serializeClientProgressForHash ⟨∅⟩).flatten = [] := by
  simp [serializeClientProgressForHash, GoMap.sortedKeys]

theorem flatten_no_previous : (serializePreviousMembership enc .empty).flatten = [] := by
  simp [serializePreviousMembership, Membership.empty, Membership.nodes]

/-- A determined snapshot has no client progress: its bytes could belong to the policy. -/
theorem Determined.no_progress (h : c.Determined enc configOffset)
    (hwf : c.WellFormed configOffset) : c.clientProgress.progress.entries = [] := by
  have hsame := h.same_of_tail hwf (c.leaderPolicy ++ c.progressBytes) ⟨∅⟩ c.previousMembership
    c.appData hwf.previous (by simp [tailBytes, previousBytes, flatten_no_progress])
  exact List.Perm.eq_nil hsame.2.1

/-- In the first epoch everything could be the policy, or application data. -/
theorem Determined.nothing_of_first (h : c.Determined enc configOffset)
    (hwf : c.WellFormed configOffset) (hzero : c.epochNr = 0) :
    c.leaderPolicy = [] ∧ c.previousMembership.nodes.entries = [] ∧ c.appData = [] := by
  have hfirst : ¬ 0 < c.epochNr := by simp [hzero]
  have hpolicy := h.same_of_tail hwf (c.tailBytes enc) ⟨∅⟩ .empty [] (fun hpos => absurd hpos hfirst)
    (by simp [flatten_no_progress, flatten_no_previous])
  have happ := h.same_of_tail hwf [] ⟨∅⟩ .empty (c.tailBytes enc) (fun hpos => absurd hpos hfirst)
    (by simp [flatten_no_progress, flatten_no_previous])
  exact ⟨happ.1, List.Perm.eq_nil hpolicy.2.2.1, hpolicy.2.2.2⟩

theorem Determined.unambiguous (h : c.Determined enc configOffset)
    (hwf : c.WellFormed configOffset) : c.Unambiguous enc := by
  have hnone := h.no_progress hwf
  refine ⟨hnone, ?_⟩
  split
  next hzero => exact h.nothing_of_first hwf hzero
  next hne =>
    have hpos : 0 < c.epochNr := UInt64.pos_iff_ne_zero.mpr hne
    have htail : c.tailBytes enc =
        c.leaderPolicy ++ (enc.serialize (some c.previousMembership) ++ c.appData) := by
      rw [tailBytes, progressBytes_of_empty hnone,
        previousBytes_of_ne (valid_ne_empty (hwf.previous hpos)), List.nil_append]
    refine ⟨?_, fun before m after hm heq => ?_⟩
    · -- a long policy could be a client
      by_contra hlong
      obtain ⟨cp, hcp, hbytes⟩ := exists_progress (b := c.leaderPolicy) (by omega)
      have hsame := h.same_of_tail hwf [] cp c.previousMembership c.appData hwf.previous
        (by rw [hbytes, tailBytes, progressBytes_of_empty hnone, previousBytes]; rfl)
      exact hcp (List.Perm.eq_nil (hnone ▸ hsame.2.1.symm))
    · have hsame := h.same_of_tail hwf before ⟨∅⟩ m after (fun _ => hm) (by
        rw [htail, heq, flatten_no_progress, serializePreviousMembership,
          if_pos (valid_ne_empty hm)]
        simp)
      rw [hsame.1]

theorem Unambiguous.determined (h : c.Unambiguous enc) (hwf : c.WellFormed configOffset) :
    c.Determined enc configOffset := by
  intro c' hwf' hbytes
  obtain ⟨⟨hepoch, hlength, hfirst, hms⟩, htail⟩ := headBytes_inj hwf hwf' hbytes
  obtain ⟨hnone, hrest⟩ := h
  -- the division of the rest
  obtain ⟨hpolicy, hprogress, hprevious, happ⟩ : c.leaderPolicy = c'.leaderPolicy ∧
      c.clientProgress.progress.Same c'.clientProgress.progress ∧
      c.previousMembership.Same c'.previousMembership ∧ c.appData = c'.appData := by
    rw [tailBytes, progressBytes_of_empty hnone, List.nil_append] at htail
    split at hrest
    next hzero =>
      obtain ⟨hpolicy, hprevious, happ⟩ := hrest
      rw [hpolicy, previousBytes_of_empty hprevious, happ, tailBytes] at htail
      simp only [List.append_nil, List.nil_eq, List.append_eq_nil_iff] at htail
      obtain ⟨hpolicy', hprogress', hprevious', happ'⟩ := htail
      refine ⟨hpolicy.trans hpolicy'.symm, same_of_empty hnone ?_, same_of_empty hprevious ?_,
        happ.trans happ'.symm⟩
      · exact empty_of_length_lt (by simp [hprogress'])
      · exact previousBytes_eq_nil_iff.mp hprevious'
    next hne =>
      obtain ⟨hshort, hunique⟩ := hrest
      have hpos : 0 < c.epochNr := UInt64.pos_iff_ne_zero.mpr hne
      have hvalid' := hwf'.previous (hepoch ▸ hpos)
      rw [previousBytes_of_ne (valid_ne_empty (hwf.previous hpos)), tailBytes,
        previousBytes_of_ne (valid_ne_empty hvalid'), ← List.append_assoc c'.leaderPolicy] at htail
      have hlen := hunique _ _ _ hvalid' htail
      obtain ⟨hfront, hback⟩ := List.append_inj htail hlen.symm
      obtain ⟨hprevious, happ⟩ := MembershipCodec.serialize_append_inj hback
      rw [List.length_append] at hlen
      have hempty : c'.clientProgress.progress.entries = [] := empty_of_length_lt (by omega)
      rw [progressBytes_of_empty hempty, List.append_nil] at hfront
      exact ⟨hfront, same_of_empty hnone hempty, hprevious, happ⟩
  exact ⟨hepoch, hfirst, hlength, hms, hpolicy, hprogress, hprevious, happ⟩

end SnapshotContent

/-! ### Checkpoints -/

/-- Snapshots that have all their parts, with the same contents. -/
def StateSnapshot.Same (s s' : StateSnapshot) : Prop :=
  ∃ c c' : SnapshotContent, s = c.snapshot ∧ s' = c'.snapshot ∧ c.Same c'

/-- **The hashed bytes determine the snapshot** of a checkpoint, among all checkpoints that pass the
syntactic check. -/
def BytesDetermine (enc : MembershipCodec) (configOffset : ℕ) (sc : StableCheckpoint) : Prop :=
  ∀ sc' : StableCheckpoint, sc'.syntacticCheck configOffset = .ok none →
    ∀ s s' data data', sc.snapshot = some s → sc'.snapshot = some s' →
      serializeSnapshotForHash enc s = .ok data → serializeSnapshotForHash enc s' = .ok data' →
      data.flatten = data'.flatten → s.Same s'

theorem SnapshotContent.snapshot_injective : Function.Injective SnapshotContent.snapshot := by
  intro c c' h
  obtain ⟨epochNr, firstSn, length, memberships, policy, progress, previous, app⟩ := c
  obtain ⟨epochNr', firstSn', length', memberships', policy', progress', previous', app'⟩ := c'
  simp only [SnapshotContent.snapshot, StateSnapshot.mk.injEq, Option.some.injEq,
    EpochData.mk.injEq, EpochConfig.mk.injEq] at h
  obtain ⟨rfl, ⟨rfl, rfl, rfl, hms⟩, rfl, rfl, rfl⟩ := h
  rw [List.map_injective_iff.mpr (Option.some_injective _) hms]

/-- **The hashed bytes of a checkpoint determine its snapshot** exactly if the part without
delimiters can be divided in one way only. -/
theorem bytesDetermine_iff (enc : MembershipCodec) (configOffset : ℕ) (sc : StableCheckpoint)
    (h : sc.syntacticCheck configOffset = .ok none) :
    BytesDetermine enc configOffset sc ↔
      ∀ c : SnapshotContent, sc.snapshot = some c.snapshot → c.Unambiguous enc := by
  obtain ⟨-, c, hc, hwf⟩ := StableCheckpoint.syntacticCheck_eq_none_iff.mp h
  obtain ⟨data, hdata, hflat⟩ := c.serialize_snapshot enc
  constructor
  · intro hdet c₁ hc₁
    obtain rfl : c = c₁ := by
      rw [hc, Option.some.injEq] at hc₁
      exact SnapshotContent.snapshot_injective hc₁
    refine SnapshotContent.Determined.unambiguous (fun c' hwf' hbytes => ?_) hwf
    obtain ⟨data', hdata', hflat'⟩ := c'.serialize_snapshot enc
    obtain ⟨c₁, c₂, h₁, h₂, hsame⟩ := hdet ⟨0, some c'.snapshot, some ∅⟩
      (StableCheckpoint.syntacticCheck_eq_none_iff.mpr ⟨rfl, c', rfl, hwf'⟩) _ _ data data' hc rfl
      hdata hdata' (by rw [hflat, hflat', hbytes])
    rwa [SnapshotContent.snapshot_injective h₁, SnapshotContent.snapshot_injective h₂]
  · intro hun sc' h' s s' d d' hs hs' hd hd' heq
    obtain ⟨-, c', hc', hwf'⟩ := StableCheckpoint.syntacticCheck_eq_none_iff.mp h'
    obtain ⟨data', hdata', hflat'⟩ := c'.serialize_snapshot enc
    obtain rfl : c.snapshot = s := by rwa [hc, Option.some.injEq] at hs
    obtain rfl : c'.snapshot = s' := by rwa [hc', Option.some.injEq] at hs'
    obtain rfl : data = d := by rwa [hdata, Except.ok.injEq] at hd
    obtain rfl : data' = d' := by rwa [hdata', Except.ok.injEq] at hd'
    exact ⟨c, c', rfl, rfl, (hun c hc).determined hwf c' hwf' (by rw [← hflat, ← hflat', heq])⟩

/-- The first checkpoint of four members, without policy, clients and data. -/
def emptyContent : SnapshotContent :=
  ⟨0, 0, 8, [.fourMembers, .fourMembers], [], ⟨∅⟩, .empty, []⟩

/-- A checkpoint for epoch 3 of the same members, without clients. -/
def laterContent : SnapshotContent :=
  ⟨3, 24, 8, [.fourMembers, .fourMembers], [115], ⟨∅⟩, .fourMembers, [9]⟩

/-- An encoding in which the four members are a single byte, and no encoding starts with a higher
one. -/
noncomputable def fourCodec : MembershipCodec :=
  ⟨_, (Classical.arbitrary MembershipCodec).prefixFree.reserve (show (0 : UInt8) ≠ 1 by decide)
    (Membership.fourMembers.nodeMap.map AList.toFinmap)⟩

theorem exists_serialize_fourCodec (m : Membership) :
    ∃ b rest, fourCodec.serialize (some m) = b :: rest ∧ b ≤ 1 := by
  by_cases hm : m.nodeMap.map AList.toFinmap = Membership.fourMembers.nodeMap.map AList.toFinmap
  · exact ⟨1, [], if_pos hm, by decide⟩
  · exact ⟨0, _, if_neg hm, by decide⟩

/-- The bytes of a checkpoint without clients determine it, in the first epoch and in a later one. -/
theorem bytesDetermine_without_clients : ∃ enc,
    (StableCheckpoint.syntacticCheck ⟨0, some emptyContent.snapshot, some ∅⟩ 1 = .ok none ∧
      BytesDetermine enc 1 ⟨0, some emptyContent.snapshot, some ∅⟩) ∧
    StableCheckpoint.syntacticCheck ⟨24, some laterContent.snapshot, some ∅⟩ 1 = .ok none ∧
      BytesDetermine enc 1 ⟨24, some laterContent.snapshot, some ∅⟩ := by
  have hfour : fourCodec.serialize (some .fourMembers) = [1] := by decide +kernel
  have hempty : StableCheckpoint.syntacticCheck ⟨0, some emptyContent.snapshot, some ∅⟩ 1 =
      .ok none := by decide +kernel
  have hlater : StableCheckpoint.syntacticCheck ⟨24, some laterContent.snapshot, some ∅⟩ 1 =
      .ok none := by decide +kernel
  refine ⟨fourCodec, ⟨hempty, (bytesDetermine_iff _ 1 _ hempty).mpr fun c hc => ?_⟩, hlater,
    (bytesDetermine_iff _ 1 _ hlater).mpr fun c hc => ?_⟩
  · rw [← SnapshotContent.snapshot_injective (Option.some.inj hc)]
    exact ⟨rfl, by simp [emptyContent, Membership.empty, Membership.nodes]⟩
  · rw [← SnapshotContent.snapshot_injective (Option.some.inj hc)]
    refine ⟨rfl, by simp [laterContent], fun before m after _ heq => ?_⟩
    obtain ⟨b, rest, hm, hb⟩ := exists_serialize_fourCodec m
    simp only [laterContent, hfour, hm] at heq
    -- neither the policy nor the application data can be the start of a membership
    rcases before with _ | ⟨_, _ | ⟨_, _ | ⟨_, before⟩⟩⟩
    · obtain ⟨rfl, -⟩ := List.cons.inj heq
      exact absurd hb (by decide)
    · rfl
    · obtain ⟨-, -, rfl, -⟩ : _ ∧ _ ∧ 9 = b ∧ _ := by simpa using heq
      exact absurd hb (by decide)
    · simp at heq

/-- A snapshot with one client, at the start of epoch 1. -/
def clientContent (id : ClientID) (txs : DeliveredTXs) : SnapshotContent :=
  ⟨1, 8, 8, [.fourMembers, .fourMembers], [115], ⟨AList.singleton id txs⟩, .fourMembers,
    [1]⟩

/-- **Two snapshots with the same bytes**: a client that delivered transaction 5, and one with a
longer name that has delivered nothing above its watermark 5. -/
theorem snapshots_with_same_bytes : ¬ ∀ enc configOffset sc,
    sc.syntacticCheck configOffset = .ok none → BytesDetermine enc configOffset sc := by
  intro h
  obtain ⟨enc⟩ : Nonempty MembershipCodec := inferInstance
  let c := clientContent [97] ⟨0, [5]⟩
  let c' := clientContent [97, 0, 0, 0, 0, 0, 0, 0, 0] ⟨5, []⟩
  obtain ⟨data, hdata, hflat⟩ := c.serialize_snapshot enc
  obtain ⟨data', hdata', hflat'⟩ := c'.serialize_snapshot enc
  have hbytes : c.progressBytes = c'.progressBytes := by decide +kernel
  obtain ⟨c₁, c₂, h₁, h₂, hsame⟩ := h enc 1 ⟨8, some c.snapshot, some ∅⟩ (by decide +kernel)
    ⟨8, some c'.snapshot, some ∅⟩ (by decide +kernel) _ _ data data' rfl rfl hdata hdata' (by
      rw [hflat, hflat', SnapshotContent.tailBytes, SnapshotContent.tailBytes, hbytes]
      rfl)
  rw [← SnapshotContent.snapshot_injective h₁, ← SnapshotContent.snapshot_injective h₂] at hsame
  exact absurd hsame.clientProgress (by decide +kernel)

end Checkpoint

end Mir
