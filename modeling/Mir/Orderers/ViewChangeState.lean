import Mir.Orderers.Serialization
import Mir.Orderers.Slot

/-!
# The view-change state

`PbftViewChangeState` collects the signed ViewChange messages for one view and infers from
them, sequence number by sequence number, what has to be proposed again: the digest of a
prepared entry that no strong quorum contradicts and a weak quorum has preprepared (conditions
A1 and A2), or a fresh proposal where a strong quorum prepared nothing (condition B).

The primary feeds the messages as they arrive and a receiver of a NewView in the order of the
message, and each stops as soon as every sequence number is resolved. Where several entries
qualify, the iteration order over the P-sets decides; it is an argument here (`MapOrder`).
-/

namespace Mir.Orderers

open WeightedQuorum

/-- The orders in which one step iterates over the maps whose order can matter: the P-sets,
for each sequence number, and the message buffers. Go leaves both open. -/
structure MapOrder where
  pSets : SeqNr → List NodeID → List NodeID
  buffers : List NodeID → List NodeID
  pSets_perm : ∀ sn ids, (pSets sn ids).Perm ids
  buffers_perm : ∀ ids, (buffers ids).Perm ids

/-- Iterating over the keys as they are listed. -/
def MapOrder.listed : MapOrder := ⟨fun _ ids => ids, fun ids => ids, fun _ _ => .rfl, fun _ => .rfl⟩

/-- `ViewChangePSet`. -/
abbrev ViewChangePSet := GoMap SeqNr PSetEntry

/-- `ViewChangeQSet`. -/
abbrev ViewChangeQSet := GoMap SeqNr (GoMap GoString ViewNr)

/-! ### Rebuilding the sets of a message -/

/-- One iteration of `reconstructPSet`; `none` for a second entry of a sequence number. -/
def addPSetEntry (pSet : ViewChangePSet) (entry : PSetEntry) : Option ViewChangePSet :=
  if entry.sn ∈ pSet.keys then none else some (pSet.insert entry.sn entry)

/-- `reconstructPSet`; `none` for an invalid set. -/
def reconstructPSet (entries : List PSetEntry) : Option ViewChangePSet :=
  entries.foldlM addPSetEntry ∅

/-- One iteration of `reconstructQSet`; `none` for a second entry of a digest. -/
def addQSetEntry (qSet : ViewChangeQSet) (entry : QSetEntry) : Option ViewChangeQSet :=
  let snEntry := (qSet.lookup entry.sn).getD ∅
  if entry.digest ∈ snEntry.keys then none
  else some (qSet.insert entry.sn (snEntry.insert entry.digest entry.view))

/-- `reconstructQSet`; `none` for an invalid set. -/
def reconstructQSet (entries : List QSetEntry) : Option ViewChangeQSet :=
  entries.foldlM addQSetEntry ∅

/-- One iteration of `reconstructPSetQSet`: messages with an invalid set are skipped. -/
def addSets (acc : GoMap NodeID ViewChangePSet × GoMap NodeID ViewChangeQSet)
    (entry : Σ _ : NodeID, SignedViewChange) :
    Fallible (GoMap NodeID ViewChangePSet × GoMap NodeID ViewChangeQSet) := do
  let vc ← deref entry.2.viewChange
  match reconstructPSet vc.pSet with
  | none => return acc
  | some pSet =>
    match reconstructQSet vc.qSet with
    | none => return acc
    | some qSet => return (acc.1.insert entry.1 pSet, acc.2.insert entry.1 qSet)

/-- `reconstructPSetQSet`. -/
def reconstructPSetQSet (signedViewChanges : GoMap NodeID SignedViewChange) :
    Fallible (GoMap NodeID ViewChangePSet × GoMap NodeID ViewChangeQSet) :=
  signedViewChanges.entries.foldlM addSets (∅, ∅)

/-! ### The conditions on a re-proposal -/

/-- The entry a node reports for a sequence number. -/
def pEntry (pSets : GoMap NodeID ViewChangePSet) (nodeID : NodeID) (sn : SeqNr) :
    Option PSetEntry :=
  (pSets.lookup nodeID).bind fun pSet => pSet.lookup sn

/-- A node's entry for `sn` does not contradict that `digest` was prepared in `view`. -/
def nonConflicting (pSets : GoMap NodeID ViewChangePSet) (sn : SeqNr) (digest : ByteSlice)
    (view : ViewNr) (nodeID : NodeID) : Bool :=
  match pEntry pSets nodeID sn with
  | none => true
  | some entry =>
    entry.view < view || (entry.view == view && entry.digest.bytes == digest.bytes)

/-- `noPrepareConflictsA1`. -/
def noPrepareConflictsA1 (pSets : GoMap NodeID ViewChangePSet) (sn : SeqNr) (digest : ByteSlice)
    (view : ViewNr) (membership : Membership) : Fallible Bool :=
  membership.haveStrongQuorum (pSets.keys.filter (nonConflicting pSets sn digest view))

/-- A node reports having preprepared `digest` for `sn` in `view` or later. A digest it does
not list reads as view zero. -/
def hasPreprepared (qSets : GoMap NodeID ViewChangeQSet) (sn : SeqNr) (digest : ByteSlice)
    (view : ViewNr) (nodeID : NodeID) : Bool :=
  match (qSets.lookup nodeID).bind fun qSet => qSet.lookup sn with
  | none => false
  | some snEntry => view ≤ (snEntry.lookup digest.bytes).getD 0

/-- `enoughPrepreparesA2`. -/
def enoughPrepreparesA2 (qSets : GoMap NodeID ViewChangeQSet) (sn : SeqNr) (digest : ByteSlice)
    (view : ViewNr) (membership : Membership) : Fallible (Bool × List NodeID) := do
  let nodeIDs := qSets.keys.filter (hasPreprepared qSets sn digest view)
  let enough ← membership.haveWeakQuorum nodeIDs
  return (enough, nodeIDs)

/-- `nothingPreparedB`. -/
def nothingPreparedB (pSets : GoMap NodeID ViewChangePSet) (sn : SeqNr) (membership : Membership) :
    Fallible Bool :=
  membership.haveStrongQuorum (pSets.keys.filter fun nodeID => (pEntry pSets nodeID sn).isNone)

/-- The loop of `reproposal` over the P-sets, in the given order: the first entry that meets A1
and A2. -/
def findReproposal (pSets : GoMap NodeID ViewChangePSet) (qSets : GoMap NodeID ViewChangeQSet)
    (sn : SeqNr) (membership : Membership) : List NodeID → Fallible (ByteSlice × List NodeID)
  | [] => .ok (none, [])
  | nodeID :: rest =>
    match pEntry pSets nodeID sn with
    | none => findReproposal pSets qSets sn membership rest
    | some entry => do
      let (a2, prepreparedIDs) ← enoughPrepreparesA2 qSets sn entry.digest entry.view membership
      let a1 ← noPrepareConflictsA1 pSets sn entry.digest entry.view membership
      if a1 && a2 then return (entry.digest, prepreparedIDs)
      else findReproposal pSets qSets sn membership rest

/-- `reproposal`. -/
def reproposal (ord : MapOrder) (pSets : GoMap NodeID ViewChangePSet)
    (qSets : GoMap NodeID ViewChangeQSet) (sn : SeqNr) (membership : Membership) :
    Fallible (ByteSlice × List NodeID) := do
  if ← nothingPreparedB pSets sn membership then return (some [], [])
  else findReproposal pSets qSets sn membership (ord.pSets sn pSets.keys)

/-! ### The state of one view change -/

/-- `PbftViewChangeState`. -/
structure PbftViewChangeState where
  membership : Membership
  signedViewChanges : GoMap NodeID SignedViewChange
  reproposals : GoMap SeqNr ByteSlice
  preprepares : GoMap SeqNr (Option Preprepare)
  prepreparedIDs : GoMap SeqNr (List NodeID)

namespace PbftViewChangeState

/-- `NewPbftViewChangeState`. -/
def new (seqNrs : List SeqNr) (membership : Membership) : PbftViewChangeState where
  membership := membership
  signedViewChanges := ∅
  reproposals := GoMap.ofKeys seqNrs fun _ => none
  preprepares := GoMap.ofKeys seqNrs fun _ => none
  prepreparedIDs := ∅

/-- `EnoughViewChanges`. -/
def enoughViewChanges (vcState : PbftViewChangeState) : Bool :=
  vcState.reproposals.entries.all fun entry => entry.2.isSome

/-- One iteration of `updateReproposals`. -/
def updateReproposal (ord : MapOrder) (pSets : GoMap NodeID ViewChangePSet)
    (qSets : GoMap NodeID ViewChangeQSet) (vcState : PbftViewChangeState) (sn : SeqNr) :
    Fallible PbftViewChangeState :=
  match vcState.reproposals.lookup sn with
  | some none => do
    let (digest, nodeIDs) ← reproposal ord pSets qSets sn vcState.membership
    return { vcState with
      reproposals := vcState.reproposals.insert sn digest
      prepreparedIDs := vcState.prepreparedIDs.insert sn nodeIDs }
  | _ => .ok vcState

/-- `updateReproposals`. -/
def updateReproposals (ord : MapOrder) (vcState : PbftViewChangeState) :
    Fallible PbftViewChangeState := do
  let (pSets, qSets) ← reconstructPSetQSet vcState.signedViewChanges
  vcState.reproposals.keys.foldlM (updateReproposal ord pSets qSets) vcState

/-- `AddSignedViewChange`. -/
def addSignedViewChange (ord : MapOrder) (vcState : PbftViewChangeState)
    (svc : SignedViewChange) (sender : NodeID) : Fallible PbftViewChangeState :=
  if vcState.enoughViewChanges then .ok vcState
  else if sender ∈ vcState.signedViewChanges.keys then .ok vcState
  else do
    let added := { vcState with
      signedViewChanges := vcState.signedViewChanges.insert sender svc }
    if ← added.membership.haveStrongQuorum added.signedViewChanges.keys then
      added.updateReproposals ord
    else return added

/-- A re-proposal that is to be fresh: present and of length zero. -/
def isEmptyDigest : ByteSlice → Bool
  | some [] => true
  | _ => false

/-- The fresh Preprepare of a sequence number: the pre-configured proposal or no data. -/
def emptyPreprepare (view : ViewNr) (proposals : GoMap SeqNr ByteSlice) (sn : SeqNr) :
    Preprepare :=
  { sn := sn, view := view, data := ((proposals.lookup sn).getD none).bytes, aborted := true }

/-- The sequence numbers to which a fresh value is proposed, in order. -/
def emptySeqNrs (vcState : PbftViewChangeState) : List SeqNr :=
  (GoMap.sortedKeys uint64Le vcState.reproposals).filter fun sn =>
    isEmptyDigest ((vcState.reproposals.lookup sn).getD none)

/-- `SetEmptyPreprepares`: fills in the fresh Preprepares. -/
def setEmptyPreprepares (vcState : PbftViewChangeState) (view : ViewNr)
    (proposals : GoMap SeqNr ByteSlice) : PbftViewChangeState :=
  { vcState with
    preprepares := vcState.emptySeqNrs.foldl
      (fun preprepares sn => preprepares.insert sn (some (emptyPreprepare view proposals sn)))
      vcState.preprepares }

/-- The data `SetEmptyPreprepares` returns for hashing. -/
def emptyPreprepareData (vcState : PbftViewChangeState) (view : ViewNr)
    (proposals : GoMap SeqNr ByteSlice) : List Bytes :=
  vcState.emptySeqNrs.map fun sn => (emptyPreprepare view proposals sn).hashBytes

/-- The loop of `SetEmptyPreprepareDigests`: the `i`-th digest goes to the `i`-th fresh
sequence number. The number of digests used is returned along with the re-proposals. -/
def assignEmptyDigests (digests : List Bytes) :
    ℕ → List SeqNr → GoMap SeqNr ByteSlice → Fallible (GoMap SeqNr ByteSlice × ℕ)
  | i, [], reproposals => .ok (reproposals, i)
  | i, sn :: sns, reproposals => do
    let digest ← index digests i
    assignEmptyDigests digests (i + 1) sns (reproposals.insert sn (some digest))

/-- `SetEmptyPreprepareDigests`. -/
def setEmptyPreprepareDigests (vcState : PbftViewChangeState) (digests : List Bytes) :
    Fallible PbftViewChangeState := do
  let (reproposals, used) ← assignEmptyDigests digests 0 vcState.emptySeqNrs vcState.reproposals
  if used ≠ digests.length then .error (.error .unusedDigests)
  else return { vcState with reproposals := reproposals }

/-- One iteration of `SetLocalPreprepares`. -/
def setLocalPreprepare (lookUpPreprepare : SeqNr → ByteSlice → Option Preprepare) (view : ViewNr)
    (vcState : PbftViewChangeState) (sn : SeqNr) : PbftViewChangeState :=
  let digest := (vcState.reproposals.lookup sn).getD none
  if ((vcState.preprepares.lookup sn).getD none).isNone ∧ digest.bytes ≠ [] then
    match lookUpPreprepare sn digest with
    | none => vcState
    | some preprepare =>
      { vcState with
        preprepares := vcState.preprepares.insert sn (some { preprepare with view := view }) }
  else vcState

/-- `SetLocalPreprepares`. -/
def setLocalPreprepares (vcState : PbftViewChangeState)
    (lookUpPreprepare : SeqNr → ByteSlice → Option Preprepare) (view : ViewNr) :
    PbftViewChangeState :=
  vcState.reproposals.keys.foldl (setLocalPreprepare lookUpPreprepare view) vcState

/-- `HasAllPreprepares`. -/
def hasAllPreprepares (vcState : PbftViewChangeState) : Bool :=
  vcState.preprepares.entries.all fun entry => entry.2.isSome

end PbftViewChangeState

/-! ### Sets as messages -/

/-- The order of `PbType`: by sequence number, then view, then digest. -/
def setEntryLe (a b : SeqNr × ViewNr × Bytes) : Bool :=
  if a.1 ≠ b.1 then a.1 < b.1
  else if a.2.1 ≠ b.2.1 then a.2.1 < b.2.1
  else GoString.le a.2.2 b.2.2

/-- `ViewChangePSet.PbType`. -/
def ViewChangePSet.pbType (pSet : ViewChangePSet) : List PSetEntry :=
  (pSet.entries.map Sigma.snd).insertionSort fun a b =>
    setEntryLe (a.sn, a.view, a.digest.bytes) (b.sn, b.view, b.digest.bytes)

/-- `ViewChangeQSet.PbType`. -/
def ViewChangeQSet.pbType (qSet : ViewChangeQSet) : List QSetEntry :=
  (qSet.entries.flatMap fun snEntry =>
    snEntry.2.entries.map fun e => (⟨snEntry.1, e.2, e.1⟩ : QSetEntry)).insertionSort fun a b =>
      setEntryLe (a.sn, a.view, a.digest) (b.sn, b.view, b.digest)

end Mir.Orderers
