import Mir.Orderers.Messages

/-!
# Segments

A segment fixes the membership, the leader and the sequence numbers of one orderer instance.
`NewSegment` refuses a leader outside the membership, and every membership that reaches it has
passed `membutil.Valid` (in `CheckParams` for the initial one, in the application module for
every later one), so both facts are fields here.

The primary of a view is found by round robin from the leader. The code adds the view as a
signed 64-bit integer and takes Go's remainder, whose sign is that of the dividend, so for a
view whose top bit is set the index can be negative and `PrimaryNode` panics.
-/

namespace Mir.Orderers

/-- `common.Segment`. -/
structure Segment where
  leader : NodeID
  membership : Membership
  proposals : GoMap SeqNr ByteSlice
  leader_mem : leader ∈ membership.nodes.keys
  valid : membership.valid = none

namespace Segment

/-- `Segment.Len`. -/
def len (seg : Segment) : ℕ := seg.proposals.entries.length

/-- `Segment.NodeIDs`. -/
def nodeIDs (seg : Segment) : List NodeID := GoMap.sortedKeys GoString.le seg.membership.nodes

/-- `Segment.SeqNrs`. -/
def seqNrs (seg : Segment) : List SeqNr := GoMap.sortedKeys uint64Le seg.proposals

/-- `Segment.LeaderIndex`; `leader_mem` excludes the panic for a leader that is not found. -/
def leaderIndex (seg : Segment) : ℕ := seg.nodeIDs.idxOf seg.leader

/-- The index `PrimaryNode` computes: 64-bit signed addition, then Go's remainder. -/
def primaryIndex (seg : Segment) (view : ViewNr) : ℤ :=
  Int.tmod (BitVec.ofNat 64 (seg.leaderIndex + view.toNat)).toInt seg.nodeIDs.length

/-- `Segment.PrimaryNode`. -/
def primaryNode (seg : Segment) (view : ViewNr) : Fallible NodeID :=
  if 0 ≤ seg.primaryIndex view then index seg.nodeIDs (seg.primaryIndex view).toNat
  else .error (.panic .indexOutOfRange)

@[simp] theorem mem_nodeIDs {seg : Segment} {id : NodeID} :
    id ∈ seg.nodeIDs ↔ id ∈ seg.membership.nodes.keys :=
  GoMap.mem_sortedKeys

@[simp] theorem mem_seqNrs {seg : Segment} {sn : SeqNr} :
    sn ∈ seg.seqNrs ↔ sn ∈ seg.proposals.keys :=
  GoMap.mem_sortedKeys

theorem seqNrs_nodup (seg : Segment) : seg.seqNrs.Nodup := GoMap.sortedKeys_nodup _ _

theorem length_seqNrs (seg : Segment) : seg.seqNrs.length = seg.len := by
  rw [seqNrs, (GoMap.sortedKeys_perm _ _).length_eq, len, AList.keys, List.keys, List.length_map]

/-- The primary is a member. -/
theorem primaryNode_mem {seg : Segment} {view : ViewNr} {id : NodeID}
    (h : seg.primaryNode view = .ok id) : id ∈ seg.membership.nodes.keys := by
  unfold primaryNode at h
  split at h
  · exact mem_nodeIDs.mp (List.mem_of_getElem? (index_eq_ok.mp h))
  · cases h

end Segment

end Mir.Orderers
