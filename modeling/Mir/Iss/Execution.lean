import Mir.Iss.Steps

/-!
# Executing ISS

A run on a given list of events, for evaluating examples: each event is checked before it is handled,
each instance after that, and there is a result only if all checks pass (`exists_of_execute`). The
examples use nodes whose signatures always verify (`exampleEnv`) and checkpoints without application
data (`exampleChkp`).
-/

namespace Mir.Iss

open Checkpoint Sorting Coding FallibleLoop

/-! ### Runs on lists of events -/

/-- Sorting by insertion. -/
def LeaderSort.insertion : LeaderSort where
  sort l :=
    match l.membership with
    | none => []
    | some m => m.nodes.keys.insertionSort fun a b => l.le a b
  arranged l m hm := by
    have : Std.Total fun a b => (l.le a b : Prop) := ⟨l.totalPreorder_le.total⟩
    have : IsTrans NodeID fun a b => (l.le a b : Prop) := ⟨l.totalPreorder_le.trans⟩
    rw [hm]
    exact ⟨List.perm_insertionSort _ _, List.pairwise_insertionSort _ _⟩

/-- Every call of `Leaders` sorts by insertion. -/
def Sorts.insertion : Sorts := ⟨.insertion, .insertion, .insertion⟩

section Execution

variable {env : Env} {startingChkp : StableCheckpoint} {Allowed : Instance → Event → Prop}
  [∀ i ev, Decidable (Allowed i ev)] {Good : Instance → Prop} [DecidablePred Good]

/-- The instance that is started from a checkpoint. -/
def start? (env : Env) (startingChkp : StableCheckpoint) (Good : Instance → Prop)
    [DecidablePred Good] : Option Instance :=
  match new env startingChkp with
  | .ok (some i) => checked (uponInit env .insertion i) Good
  | _ => none

/-- The instance that has handled an event. -/
def next? (env : Env) (Allowed : Instance → Event → Prop) [∀ i ev, Decidable (Allowed i ev)]
    (Good : Instance → Prop) [DecidablePred Good] (i : Instance) (ev : Event) : Option Instance :=
  if Allowed i ev then checked (step env .insertion i ev) Good else none

/-- The run from a starting checkpoint. -/
def execute (env : Env) (startingChkp : StableCheckpoint) (Allowed : Instance → Event → Prop)
    [∀ i ev, Decidable (Allowed i ev)] (Good : Instance → Prop) [DecidablePred Good]
    (evs : List Event) : Option Instance :=
  (start? env startingChkp Good).bind (evs.foldlM (next? env Allowed Good))

/-- **What a test finds at the end of an execution** has every property that starting establishes and
allowed events keep. -/
theorem exists_of_execute {P : List Event → Instance → Prop} {Q : Instance → Prop} [DecidablePred Q]
    {evs : List Event}
    (h : (execute env startingChkp Allowed Good evs).any (fun i => Q i) = true)
    (hstart : ∀ {i i'}, new env startingChkp = .ok (some i) → uponInit env .insertion i = .ok i' →
      Good i' → P [] i')
    (hstep : ∀ {past i ev i'}, P past i → Allowed i ev → step env .insertion i ev = .ok i' →
      Good i' → P (past ++ [ev]) i') : ∃ i, P evs i ∧ Q i := by
  obtain ⟨i, hi, hQ⟩ := exists_of_any h
  obtain ⟨i₁, hfirst, hrun⟩ := Option.bind_eq_some_iff.mp hi
  refine ⟨i, steps_induction [] ?_ (fun _ hi hnext => ?_) hrun, hQ⟩
  · rw [start?] at hfirst
    split at hfirst
    next hnew =>
      obtain ⟨hinit, hgood⟩ := checked_eq_some.mp hfirst
      exact hstart hnew hinit hgood
    next => cases hfirst
  · rw [next?] at hnext
    split at hnext
    next hev =>
      obtain ⟨hok, hgood⟩ := checked_eq_some.mp hnext
      exact hstep hi hev hok hgood
    next => cases hnext

theorem exists_reachable {evs : List Event} {Q : Instance → Prop} [DecidablePred Q]
    (h : (execute env startingChkp Allowed (fun _ => True) evs).any (fun i => Q i) = true) :
    ∃ i, Reachable env startingChkp Allowed i ∧ Q i :=
  exists_of_execute (P := fun _ => Reachable env startingChkp Allowed) h
    (fun hnew hinit _ => .start hnew hinit) fun hi hev hok _ => .step hi hev hok

end Execution

/-! ### Configurations for examples -/

theorem one_ne_zero_byte : (1 : UInt8) ≠ 0 := by decide

/-- Leader policies, with short codes for the simple policies of some memberships: one byte for the
last of them, two for the one before, and so on. -/
noncomputable def examplePolicyCodec (memberships : List Membership) : PolicyCodec where
  simple := memberships.foldl (fun codec m => codec.reserve one_ne_zero_byte (.new m))
    (Classical.choice exists_policyCodec).simple
  blacklist := (Classical.choice exists_policyCodec).blacklist

/-- The bytes of the simple policy of a membership. -/
def simplePolicyData : Bytes := LeaderPolicy.simpleType ++ [0]

/-- A node with the permissive validator, for which all signatures verify. The bytes `[1]` are no
certificate, and the bytes `[k]` are the checkpoint at position `k` of a list. -/
noncomputable def exampleEnv (membership : Membership) (segmentLength epochLength : ℤ)
    (chkps : List StableCheckpoint) : Env where
  ownID := [97]
  params := ⟨membership, 1, segmentLength, epochLength, 0, 0, 0, 1⟩
  validatorKind := .permissive
  crypto := ⟨fun _ => [], fun _ _ _ => true⟩
  membershipCodec := Classical.choice inferInstance
  policyCodec := examplePolicyCodec [membership]
  serialize _ := []
  deserialize
    | [k] => chkps[k.toNat]?
    | _ => none
  unmarshalCert data := if data = [1] then none else some none

/-- The checkpoint that is made with the given parameters, without clients and application data, and
signed by the first two members of the epoch that it ends. -/
def chkpOf (params : Checkpoint.ModuleParams) : StableCheckpoint where
  sn := params.epochConfig.firstSn
  snapshot := some ⟨some [], some ⟨some params.epochConfig, some ⟨∅⟩, params.leaderPolicyData,
    some params.membership⟩⟩
  cert := some (GoMap.ofKeys (params.membership.nodes.keys.take 2) fun _ => [])

/-- The parameters for an epoch of one sequence number, if the membership does not change. -/
def exampleParams (membership : Membership) (epoch : EpochNr) (sn : SeqNr) (leaderPolicy : Bytes) :
    Checkpoint.ModuleParams :=
  ⟨[97], if epoch = 0 then .empty else membership,
    ⟨epoch, sn, 1, some [some membership, some membership]⟩, some leaderPolicy, defaultResendPeriod⟩

def exampleChkp (membership : Membership) (epoch : EpochNr) (sn : SeqNr) (leaderPolicy : Bytes) :
    StableCheckpoint :=
  chkpOf (exampleParams membership epoch sn leaderPolicy)

/-- The only member is the node `[97]`. -/
def soloMembership : Membership := .ofWeights [([97], [49])]

/-- The checkpoint validator accepts a checkpoint that ISS asked it about. -/
def Instance.validated (env : Env) (i : Instance) (chkp : StableCheckpoint) : Bool :=
  i.out.any fun
    | .validateCheckpoint c epochNr memberships =>
      decide (c = chkp ∧ env.validator.verify c epochNr memberships = .ok none)
    | _ => false

end Mir.Iss
