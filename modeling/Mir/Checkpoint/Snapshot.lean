import Mir.Trantor.Membership

/-!
# State snapshots and stable checkpoints

The messages of `trantorpb` and `checkpointpb` that make up a stable checkpoint, with every pointer
and slice that may be `nil`, the accessors of `checkpoint.go`, which dereference them, and
`SyntacticCheck`. A snapshot that passes the check has all its parts; `SnapshotContent` is such a
snapshot without the pointers, and `syntacticCheck_eq_none_iff` says that the check accepts exactly
the well-formed ones.
-/

namespace Mir

/-- Go maps with the same entries. -/
def GoMap.Same {K V : Type} (m m' : GoMap K V) : Prop := m.entries.Perm m'.entries

instance {K V : Type} [DecidableEq K] [DecidableEq V] (m m' : GoMap K V) : Decidable (m.Same m') :=
  inferInstanceAs (Decidable (m.entries.Perm m'.entries))

/-- Memberships with the same nodes. -/
def Membership.Same (m m' : Membership) : Prop := m.nodes.Same m'.nodes

instance (m m' : Membership) : Decidable (m.Same m') :=
  inferInstanceAs (Decidable (m.nodes.Same m'.nodes))

@[simp] theorem Membership.Same.refl (m : Membership) : m.Same m := List.Perm.refl _

namespace Checkpoint

/-- The identifier of a client. -/
abbrev ClientID := GoString

/-- `trantorpb.DeliveredTXs`: the low watermark and the transactions delivered above it. -/
structure DeliveredTXs where
  lowWm : UInt64
  delivered : List UInt64
  deriving DecidableEq

/-- `trantorpb.ClientProgress`. -/
structure ClientProgress where
  progress : GoMap ClientID DeliveredTXs
  deriving DecidableEq

/-- `trantorpb.EpochConfig`. -/
structure EpochConfig where
  epochNr : EpochNr
  firstSn : SeqNr
  length : UInt64
  memberships : Option (List (Option Membership))
  deriving DecidableEq

/-- `trantorpb.EpochData`. -/
structure EpochData where
  epochConfig : Option EpochConfig
  clientProgress : Option ClientProgress
  leaderPolicy : ByteSlice
  previousMembership : Option Membership
  deriving DecidableEq

/-- `trantorpb.StateSnapshot`. -/
structure StateSnapshot where
  appData : ByteSlice
  epochData : Option EpochData
  deriving DecidableEq

/-- `checkpoint.Certificate`: signatures by node. -/
abbrev Certificate := GoMap NodeID Bytes

/-- `checkpointpb.StableCheckpoint`. -/
structure StableCheckpoint where
  sn : SeqNr
  snapshot : Option StateSnapshot
  cert : Option Certificate
  deriving DecidableEq

/-! ### Accessors -/

namespace StableCheckpoint

/-- `sc.Snapshot.EpochData`, dereferenced. -/
def epochData (sc : StableCheckpoint) : Fallible EpochData := do
  let snapshot ← deref sc.snapshot
  deref snapshot.epochData

/-- `sc.Snapshot.EpochData.EpochConfig`, dereferenced. -/
def epochConfig (sc : StableCheckpoint) : Fallible EpochConfig := do
  let data ← sc.epochData
  deref data.epochConfig

/-- `StableCheckpoint.Epoch`. -/
def epoch (sc : StableCheckpoint) : Fallible EpochNr := do
  let config ← sc.epochConfig
  return config.epochNr

/-- `StableCheckpoint.Memberships`; a `nil` slice reads as the empty one. -/
def memberships (sc : StableCheckpoint) : Fallible (List (Option Membership)) := do
  let config ← sc.epochConfig
  return config.memberships.getD []

/-- `StableCheckpoint.PreviousMembership`. -/
def previousMembership (sc : StableCheckpoint) : Fallible (Option Membership) := do
  let data ← sc.epochData
  return data.previousMembership

/-! ### The syntactic check -/

/-- The ways `SyntacticCheck` rejects a checkpoint. -/
inductive SyntacticError
  | snapshotNil
  | epochDataNil
  | epochConfigNil
  | membershipsNil
  | wrongNumberOfMemberships
  | invalidMembership (e : Membership.Invalid)
  | previousMembershipNil
  | invalidPreviousMembership (e : Membership.Invalid)
  | certificateNil
  | appDataNil
  | clientProgressNil
  | leaderPolicyNil
  deriving DecidableEq

/-- The loop of `SyntacticCheck` over the memberships. -/
def checkMemberships : List (Option Membership) → Fallible (Option Membership.Invalid)
  | [] => .ok none
  | membership :: rest => do
    let m ← deref membership
    match m.valid with
    | some e => return some e
    | none => checkMemberships rest

/-- The checks of `SyntacticCheck` after the memberships. -/
def checkRest (sc : StableCheckpoint) (snapshot : StateSnapshot) (data : EpochData)
    (config : EpochConfig) : Option SyntacticError :=
  match data.previousMembership with
  | none => some .previousMembershipNil
  | some previous =>
    match if 0 < config.epochNr then previous.valid else none with
    | some e => some (.invalidPreviousMembership e)
    | none =>
      if sc.cert.isNone then some .certificateNil
      else if snapshot.appData.isNone then some .appDataNil
      else if data.clientProgress.isNone then some .clientProgressNil
      else if data.leaderPolicy.isNone then some .leaderPolicyNil
      else none

/-- `StableCheckpoint.SyntacticCheck`: `none` when the checkpoint is accepted. -/
def syntacticCheck (sc : StableCheckpoint) (configOffset : ℕ) : Fallible (Option SyntacticError) :=
  match sc.snapshot with
  | none => .ok (some .snapshotNil)
  | some snapshot =>
    match snapshot.epochData with
    | none => .ok (some .epochDataNil)
    | some data =>
      match data.epochConfig with
      | none => .ok (some .epochConfigNil)
      | some config =>
        match config.memberships with
        | none => .ok (some .membershipsNil)
        | some memberships =>
          if memberships.length ≠ configOffset + 1 then .ok (some .wrongNumberOfMemberships)
          else do
            match ← checkMemberships memberships with
            | some e => return some (.invalidMembership e)
            | none => return sc.checkRest snapshot data config

end StableCheckpoint

/-! ### Well-formed snapshots -/

/-- A snapshot whose parts are all present. -/
structure SnapshotContent where
  epochNr : EpochNr
  firstSn : SeqNr
  length : UInt64
  memberships : List Membership
  leaderPolicy : Bytes
  clientProgress : ClientProgress
  previousMembership : Membership
  appData : Bytes

namespace SnapshotContent

/-- The snapshot as a message. -/
def snapshot (c : SnapshotContent) : StateSnapshot :=
  ⟨some c.appData, some ⟨some ⟨c.epochNr, c.firstSn, c.length, some (c.memberships.map some)⟩,
    some c.clientProgress, some c.leaderPolicy, some c.previousMembership⟩⟩

/-- What the syntactic check asks of a snapshot. -/
structure WellFormed (configOffset : ℕ) (c : SnapshotContent) : Prop where
  count : c.memberships.length = configOffset + 1
  valid : ∀ m ∈ c.memberships, m.valid = none
  previous : 0 < c.epochNr → c.previousMembership.valid = none

end SnapshotContent

namespace StableCheckpoint

theorem checkMemberships_eq_none {ms : List (Option Membership)}
    (h : checkMemberships ms = .ok none) :
    ∃ ms' : List Membership, ms = ms'.map some ∧ ∀ m ∈ ms', m.valid = none := by
  induction ms with
  | nil => exact ⟨[], rfl, fun m hm => absurd hm List.not_mem_nil⟩
  | cons membership rest ih =>
    obtain ⟨m, hm, hrest⟩ := Fallible.bind_eq_ok.mp h
    rw [deref_eq_ok] at hm
    split at hrest
    next e he => cases hrest
    next hvalid =>
      obtain ⟨ms', rfl, hall⟩ := ih hrest
      exact ⟨m :: ms', by rw [hm, List.map_cons], List.forall_mem_cons.mpr ⟨hvalid, hall⟩⟩

theorem checkMemberships_map {ms : List Membership} (h : ∀ m ∈ ms, m.valid = none) :
    checkMemberships (ms.map some) = .ok none := by
  induction ms with
  | nil => rfl
  | cons m ms ih =>
    obtain ⟨hm, hms⟩ := List.forall_mem_cons.mp h
    simp [checkMemberships, deref, hm, ih hms]

theorem checkRest_eq_none_iff {sc : StableCheckpoint} {snapshot : StateSnapshot} {data : EpochData}
    {config : EpochConfig} :
    sc.checkRest snapshot data config = none ↔
      (∃ previous, data.previousMembership = some previous ∧
        (0 < config.epochNr → previous.valid = none)) ∧
      sc.cert.isSome ∧ snapshot.appData.isSome ∧ data.clientProgress.isSome ∧
        data.leaderPolicy.isSome := by
  unfold checkRest
  cases data.previousMembership with
  | none => simp
  | some previous =>
    have hprevious : (if 0 < config.epochNr then previous.valid else none) = none ↔
        (0 < config.epochNr → previous.valid = none) := by
      split <;> simp_all
    cases hcheck : if 0 < config.epochNr then previous.valid else none with
    | some e =>
      rw [hcheck] at hprevious
      simp only [reduceCtorEq, false_iff] at hprevious
      simp [hcheck, hprevious]
    | none =>
      rw [hcheck] at hprevious
      simp only [true_iff] at hprevious
      cases sc.cert <;> cases snapshot.appData <;> cases data.clientProgress <;>
        cases data.leaderPolicy <;> simp_all

/-- **The syntactic check accepts exactly the well-formed snapshots** with a certificate. -/
theorem syntacticCheck_eq_none_iff {sc : StableCheckpoint} {configOffset : ℕ} :
    sc.syntacticCheck configOffset = .ok none ↔
      sc.cert.isSome ∧ ∃ c : SnapshotContent, sc.snapshot = some c.snapshot ∧
        c.WellFormed configOffset := by
  constructor
  · intro h
    unfold syntacticCheck at h
    split at h
    · cases h
    next snapshot hsnapshot =>
    split at h
    · cases h
    next data hdata =>
    split at h
    · cases h
    next config hconfig =>
    split at h
    · cases h
    next memberships hmemberships =>
    split at h
    · cases h
    next hcount =>
    obtain ⟨r, hr, hrest⟩ := Fallible.bind_eq_ok.mp h
    cases r with
    | some e => cases hrest
    | none =>
      obtain ⟨ms, rfl, hvalid⟩ := checkMemberships_eq_none hr
      have hchecked : sc.checkRest snapshot data config = none := by
        simpa using hrest
      obtain ⟨⟨previous, hprevious, hpv⟩, hcert, happ, hprogress, hpolicy⟩ :=
        checkRest_eq_none_iff.mp hchecked
      obtain ⟨appData, epochData⟩ := snapshot
      obtain ⟨epochConfig, clientProgress, leaderPolicy, previousMembership⟩ := data
      obtain ⟨epochNr, firstSn, length, mships⟩ := config
      obtain ⟨app, rfl⟩ := Option.isSome_iff_exists.mp happ
      obtain ⟨progress, rfl⟩ := Option.isSome_iff_exists.mp hprogress
      obtain ⟨policy, rfl⟩ := Option.isSome_iff_exists.mp hpolicy
      obtain rfl : epochData = some _ := hdata
      obtain rfl : epochConfig = some _ := hconfig
      obtain rfl : mships = some _ := hmemberships
      obtain rfl : previousMembership = some _ := hprevious
      refine ⟨hcert, ⟨epochNr, firstSn, length, ms, policy, progress, previous, app⟩, hsnapshot, ?_⟩
      exact ⟨by simpa using hcount, hvalid, hpv⟩
  · rintro ⟨hcert, c, hsnapshot, hwf⟩
    simpa [syntacticCheck, hsnapshot, SnapshotContent.snapshot, hwf.count,
      checkMemberships_map hwf.valid, checkRest_eq_none_iff, hcert] using hwf.previous

end StableCheckpoint

end Checkpoint

end Mir
