import Mir.Go.Basic
import Mir.Lib.WeightedQuorum

/-!
# Memberships and weighted quorums

`trantor/types` and `util/membutil`: nodes with vote weights written as decimal strings, and
the quorum tests every protocol of the system relies on. Reading the weight of a node that is
not in the membership dereferences `nil`, and reading an unparsable weight panics, so the
weight functions are `Fallible`. On a membership that `valid` accepts, and for a list of its
members, they complete, and the quorum tests are exactly the strong and weak quorums of the
weighted quorum system of the membership (`haveStrongQuorum_iff`, `haveWeakQuorum_iff`).
-/

namespace Mir

open WeightedQuorum

/-- The identifier of a node. -/
abbrev NodeID := GoString

/-- The sequence number of a batch. -/
abbrev SeqNr := UInt64

/-- The number of an epoch. -/
abbrev EpochNr := UInt64

/-- A vote weight: the decimal representation of an integer. -/
abbrev VoteWeight := GoString

/-- The value of a non-empty string of decimal digits. -/
def parseDigits (s : GoString) : Option ℤ :=
  if s ≠ [] ∧ s.all fun c => 48 ≤ c && c ≤ 57 then
    some (s.foldl (fun n c => 10 * n + (c.toNat - 48 : ℤ)) 0)
  else none

/-- `big.Int.SetString` in base ten: an optional sign followed by decimal digits. -/
def setString : GoString → Option ℤ
  | 43 :: s => parseDigits s
  | 45 :: s => (parseDigits s).map Neg.neg
  | s => parseDigits s

/-- `VoteWeight.IsValid`. -/
def VoteWeight.isValid (vw : VoteWeight) : Bool := (setString vw).isSome

/-- `VoteWeight.BigInt`: panics on a string that is not a decimal integer. -/
def VoteWeight.bigInt (vw : VoteWeight) : Fallible ℤ :=
  match setString vw with
  | some n => .ok n
  | none => .error (.panic .invalidVoteWeight)

/-- `trantorpb.NodeIdentity`. -/
structure NodeIdentity where
  id : NodeID
  addr : GoString
  key : ByteSlice
  weight : VoteWeight
  deriving DecidableEq

/-- `trantorpb.Membership`. The map may be `nil`, which its encoding shows. -/
structure Membership where
  nodeMap : Option (GoMap NodeID NodeIdentity)
  deriving DecidableEq

namespace Membership

/-- `Nodes`; a `nil` map reads as the empty one. -/
def nodes (m : Membership) : GoMap NodeID NodeIdentity := m.nodeMap.getD ∅

/-- The weight of one node, read through the membership map. -/
def nodeWeight (m : Membership) (id : NodeID) : Fallible ℤ := do
  let node ← deref (m.nodes.lookup id)
  VoteWeight.bigInt node.weight

/-- `membutil.WeightOf`: the sum of the weights of the listed nodes. -/
def weightOf (m : Membership) : List NodeID → Fallible ℤ
  | [] => .ok 0
  | id :: ids => do
    let x ← m.nodeWeight id
    let sum ← weightOf m ids
    return x + sum

/-- `membutil.TotalWeight`. -/
def totalWeight (m : Membership) : Fallible ℤ := m.weightOf m.nodes.keys

/-- `membutil.maxFaulty`; `big.Int.Div` is Euclidean division. -/
def maxFaulty (n : ℤ) : ℤ := (n - 1) / 3

/-- `membutil.StrongQuorum`. -/
def strongQuorum (m : Membership) : Fallible ℤ := do
  let n ← m.totalWeight
  return (n + maxFaulty n) / 2 + 1

/-- `membutil.WeakQuorum`. -/
def weakQuorum (m : Membership) : Fallible ℤ := do
  let n ← m.totalWeight
  return maxFaulty n + 1

/-- `membutil.HaveStrongQuorum`. -/
def haveStrongQuorum (m : Membership) (ids : List NodeID) : Fallible Bool := do
  let w ← m.weightOf ids
  let q ← m.strongQuorum
  return decide (q ≤ w)

/-- `membutil.HaveWeakQuorum`. -/
def haveWeakQuorum (m : Membership) (ids : List NodeID) : Fallible Bool := do
  let w ← m.weightOf ids
  let q ← m.weakQuorum
  return decide (q ≤ w)

/-- The ways `membutil.Valid` rejects a membership. -/
inductive Invalid
  | empty
  | idMismatch
  | invalidWeight
  | zeroTotalWeight
  deriving DecidableEq, Repr

/-- The check `membutil.Valid` makes of each entry. -/
def checkEntry (e : Σ _ : NodeID, NodeIdentity) : Option Invalid :=
  if e.2.id ≠ e.1 then some .idMismatch
  else if ¬ VoteWeight.isValid e.2.weight then some .invalidWeight
  else none

/-- `membutil.Valid`: `none` when the membership is accepted. The total weight is read only
after every weight has been found to be a decimal integer, so it never panics here. -/
def valid (m : Membership) : Option Invalid :=
  if m.nodes.entries = [] then some .empty
  else
    match m.nodes.entries.findSome? checkEntry with
    | some err => some err
    | none =>
      match m.totalWeight with
      | .ok 0 => some .zeroTotalWeight
      | _ => none

/-- The membership of the given nodes and weights, without addresses and keys. -/
def ofWeights (ws : List (NodeID × VoteWeight)) : Membership :=
  ⟨some (ws.foldl (fun nodes nw => nodes.insert nw.1 ⟨nw.1, [], none, nw.2⟩) ∅)⟩

/-- The membership without members. -/
def empty : Membership := ⟨some ∅⟩

/-! ### Valid memberships as weighted quorum systems -/

/-- The members, as a finite set. -/
def members (m : Membership) : Finset NodeID := m.nodes.keys.toFinset

/-- The weight of a node as an integer; zero for a node whose weight cannot be read. -/
def w (m : Membership) (id : NodeID) : ℤ :=
  match m.nodeWeight id with
  | .ok x => x
  | .error _ => 0

/-- No member has a negative weight. -/
def NonNeg (m : Membership) : Prop := ∀ id ∈ m.members, 0 ≤ m.w id

/-- The nodes `F` may be faulty: no group of them weighs more than `maxFaulty`. Where weights
are not negative it is enough that all of `F` together does not (`tolerates_of_nonNeg`). -/
def Tolerates (m : Membership) (F : Finset NodeID) : Prop :=
  ∀ S ⊆ F, weight m.w S ≤ maxFaulty (weight m.w m.members)

variable {m : Membership}

@[simp] theorem mem_members {id : NodeID} : id ∈ m.members ↔ id ∈ m.nodes.keys := by
  simp [members]

theorem tolerates_of_nonNeg (hnn : m.NonNeg) {F : Finset NodeID}
    (hF : F ⊆ m.members) (hFw : weight m.w F ≤ maxFaulty (weight m.w m.members)) :
    m.Tolerates F :=
  fun _ hS => (weight_mono hnn hS hF).trans hFw

/-- A weak quorum reaches outside the faulty nodes. -/
theorem exists_correct_of_isWeak {F W : Finset NodeID} (hF : m.Tolerates F)
    (hW : IsWeak m.members m.w W) : ∃ id ∈ W, id ∈ m.members ∧ id ∉ F := by
  by_contra hno
  have hsub : W ⊆ F := by
    intro id hid
    by_contra hidF
    exact hno ⟨id, hid, hW.1 hid, hidF⟩
  have hle := hF W hsub
  have hge := hW.2
  simp only [tolerance, faultBound, maxFaulty] at hle hge
  omega

/-- Every entry of a valid membership passes the per-entry check. -/
theorem checkEntry_of_valid (hv : m.valid = none) {e : Σ _ : NodeID, NodeIdentity}
    (he : e ∈ m.nodes.entries) : checkEntry e = none := by
  unfold valid at hv
  split at hv
  · cases hv
  · split at hv
    · cases hv
    · next hnone => exact List.findSome?_eq_none_iff.mp hnone e he

/-- The weights of all members can be read. -/
def Readable (m : Membership) : Prop := ∀ id ∈ m.nodes.keys, m.nodeWeight id = .ok (m.w id)

/-- The weights of a valid membership's members can be read. -/
theorem readable_of_valid (hv : m.valid = none) : m.Readable := by
  intro id hid
  obtain ⟨node, hnode⟩ := GoMap.mem_keys_iff.mp hid
  have hcheck := checkEntry_of_valid hv (AList.mem_lookup_iff.mp hnode)
  have hsome : (setString node.weight).isSome := by
    unfold checkEntry at hcheck
    split at hcheck
    · cases hcheck
    · split at hcheck
      · cases hcheck
      · next h => exact not_not.mp h
  obtain ⟨x, hx⟩ := Option.isSome_iff_exists.mp hsome
  have hweight : m.nodeWeight id = .ok x := by
    simp [nodeWeight, hnode, deref, VoteWeight.bigInt, hx]
  rw [w, hweight]

/-- **Weights of members complete**: the sum over a list of members. -/
theorem weightOf_eq_ok (hm : m.Readable) {ids : List NodeID}
    (hids : ∀ id ∈ ids, id ∈ m.nodes.keys) : m.weightOf ids = .ok (ids.map m.w).sum := by
  induction ids with
  | nil => rfl
  | cons id ids ih =>
    have hrest : m.weightOf ids = .ok (ids.map m.w).sum :=
      ih fun id' hid' => hids id' (List.mem_cons_of_mem _ hid')
    rw [weightOf, hm id (hids id List.mem_cons_self), hrest]
    simp

/-- A duplicate-free list of members weighs what the corresponding finite set weighs. -/
theorem sum_map_w_eq_weight (m : Membership) {ids : List NodeID} (hnd : ids.Nodup) :
    (ids.map m.w).sum = weight m.w ids.toFinset := by
  rw [weight, List.sum_toFinset _ hnd]

theorem totalWeight_eq_ok (hm : m.Readable) :
    m.totalWeight = .ok (weight m.w m.members) := by
  rw [totalWeight, weightOf_eq_ok hm fun _ h => h, sum_map_w_eq_weight m m.nodes.keys_nodup,
    members]

/-- Nodes whose weights could be summed are members with readable weights. -/
theorem mem_keys_of_weightOf {ids : List NodeID} {n : ℤ} (h : m.weightOf ids = .ok n) :
    ∀ id ∈ ids, id ∈ m.nodes.keys ∧ m.nodeWeight id = .ok (m.w id) := by
  induction ids generalizing n with
  | nil => exact fun id hid => absurd hid List.not_mem_nil
  | cons a ids ih =>
    obtain ⟨x, hx, hrest⟩ := Fallible.bind_eq_ok.mp h
    obtain ⟨sum, hsum, -⟩ := Fallible.bind_eq_ok.mp hrest
    obtain ⟨node, hnode, -⟩ := Fallible.bind_eq_ok.mp hx
    have hmem : a ∈ m.nodes.keys := GoMap.mem_keys_iff.mpr ⟨node, deref_eq_ok.mp hnode⟩
    exact List.forall_mem_cons.mpr ⟨⟨hmem, by rw [w, hx]⟩, ih hsum⟩

/-- A membership whose total weight can be read is readable. -/
theorem readable_of_totalWeight {n : ℤ} (h : m.totalWeight = .ok n) : m.Readable :=
  fun id hid => (mem_keys_of_weightOf h id hid).2

/-! ### Quorum tests -/

section Tests

variable {ids : List NodeID} (hm : m.Readable) (hids : ∀ id ∈ ids, id ∈ m.nodes.keys)
  (hnd : ids.Nodup)

include hids in
theorem toFinset_subset_members : ids.toFinset ⊆ m.members := fun id hid =>
  mem_members.mpr (hids id (List.mem_toFinset.mp hid))

include hm hids hnd

/-- The strong-quorum test on duplicate-free members completes, and decides strong quorums. -/
theorem haveStrongQuorum_eq_ok :
    ∃ b, m.haveStrongQuorum ids = .ok b ∧ (b = true ↔ IsStrong m.members m.w ids.toFinset) := by
  have heval : m.haveStrongQuorum ids = .ok (decide
      ((weight m.w m.members + maxFaulty (weight m.w m.members)) / 2 + 1
        ≤ (ids.map m.w).sum)) := by
    simp only [haveStrongQuorum, strongQuorum, weightOf_eq_ok hm hids, totalWeight_eq_ok hm,
      Fallible.ok_bind, Fallible.pure_eq_ok]
  refine ⟨_, heval, ?_⟩
  rw [decide_eq_true_iff, sum_map_w_eq_weight m hnd, IsStrong, tolerance, faultBound, maxFaulty,
    and_iff_right (toFinset_subset_members hids)]

/-- The weak-quorum test on duplicate-free members completes, and decides weak quorums. -/
theorem haveWeakQuorum_eq_ok :
    ∃ b, m.haveWeakQuorum ids = .ok b ∧ (b = true ↔ IsWeak m.members m.w ids.toFinset) := by
  have heval : m.haveWeakQuorum ids = .ok (decide (maxFaulty (weight m.w m.members) + 1
      ≤ (ids.map m.w).sum)) := by
    simp only [haveWeakQuorum, weakQuorum, weightOf_eq_ok hm hids, totalWeight_eq_ok hm,
      Fallible.ok_bind, Fallible.pure_eq_ok]
  refine ⟨_, heval, ?_⟩
  rw [decide_eq_true_iff, sum_map_w_eq_weight m hnd, IsWeak, tolerance, faultBound, maxFaulty,
    and_iff_right (toFinset_subset_members hids)]

/-- On duplicate-free members, `haveStrongQuorum` decides strong quorums. -/
theorem haveStrongQuorum_iff :
    m.haveStrongQuorum ids = .ok true ↔ IsStrong m.members m.w ids.toFinset := by
  obtain ⟨b, hb, hiff⟩ := haveStrongQuorum_eq_ok hm hids hnd
  rw [hb, ← hiff, Except.ok.injEq]

/-- On duplicate-free members, `haveWeakQuorum` decides weak quorums. -/
theorem haveWeakQuorum_iff :
    m.haveWeakQuorum ids = .ok true ↔ IsWeak m.members m.w ids.toFinset := by
  obtain ⟨b, hb, hiff⟩ := haveWeakQuorum_eq_ok hm hids hnd
  rw [hb, ← hiff, Except.ok.injEq]

end Tests

end Membership

end Mir
