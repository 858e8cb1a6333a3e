import Mir.Orderers.Segment

/-!
# Slots

`PbftSlot`: the state of the agreement protocol for one sequence number in one view. Prepare
and Commit messages are stored as they arrive, possibly before the Preprepare, and compared
with the slot's digest only when the slot is checked: a checked entry is overwritten by `nil`,
so that it stays known as received, and is copied to the valid ones when it matched. The two
checks are one function, `checkDigests`, applied to the two kinds of messages.
-/

namespace Mir.Orderers

open WeightedQuorum

/-! ### Checking stored digests -/

/-- One iteration of the loops of `CheckPrepared` and `CheckCommitted`. The first component
holds the received digests, the second the valid ones. -/
def validateDigest (digest : ByteSlice) (acc : GoMap NodeID ByteSlice × GoMap NodeID ByteSlice)
    (sender : NodeID) : GoMap NodeID ByteSlice × GoMap NodeID ByteSlice :=
  match acc.1.lookup sender with
  | some (some d) =>
    (acc.1.insert sender none,
      if d = digest.bytes then acc.2.insert sender (some d) else acc.2)
  | _ => acc

/-- The loops of `CheckPrepared` and `CheckCommitted`. The outcome does not depend on the order
of the senders (`lookup_validateDigests`). -/
def validateDigests (digest : ByteSlice) (received valid : GoMap NodeID ByteSlice) :
    GoMap NodeID ByteSlice × GoMap NodeID ByteSlice :=
  received.keys.foldl (validateDigest digest) (received, valid)

/-- What `CheckPrepared` and `CheckCommitted` do once the slot has reached the stage before:
the received digests, the valid digests and whether the valid ones form a strong quorum. -/
def checkDigests (membership : Membership) (digest : ByteSlice)
    (received valid : GoMap NodeID ByteSlice) :
    Fallible (GoMap NodeID ByteSlice × GoMap NodeID ByteSlice × Bool) := do
  if ← membership.haveStrongQuorum received.keys then
    let (received', valid') := validateDigests digest received valid
    let enough ← membership.haveStrongQuorum valid'.keys
    return (received', valid', enough)
  else return (received, valid, false)

theorem lookup_foldl_validateDigest (digest : ByteSlice) {ids : List NodeID} (hnd : ids.Nodup)
    (acc : GoMap NodeID ByteSlice × GoMap NodeID ByteSlice) (id : NodeID) :
    (ids.foldl (validateDigest digest) acc).1.lookup id =
        (if id ∈ ids then (acc.1.lookup id).map fun _ => none else acc.1.lookup id) ∧
      (ids.foldl (validateDigest digest) acc).2.lookup id =
        if id ∈ ids ∧ acc.1.lookup id = some (some digest.bytes) then some (some digest.bytes)
        else acc.2.lookup id := by
  induction ids generalizing acc with
  | nil => simp
  | cons a ids ih =>
    obtain ⟨ha, hnd'⟩ := List.nodup_cons.mp hnd
    obtain ⟨h1, h2⟩ := ih hnd' (validateDigest digest acc a)
    rw [List.foldl_cons, h1, h2]
    by_cases hid : id = a
    · -- the entry of `a` is read and written here, and not touched again
      subst hid
      simp only [ha, if_false, false_and, List.mem_cons_self, if_true, true_and]
      unfold validateDigest
      split
      · next d hd =>
        rw [GoMap.lookup_insert_eq, if_pos rfl, hd]
        refine ⟨rfl, ?_⟩
        by_cases hmatch : d = digest.bytes
        · simp [hmatch]
        · simp [hmatch]
      · next hno =>
        constructor
        · cases hl : acc.1.lookup id with
          | none => rfl
          | some e =>
            cases e with
            | none => rfl
            | some d => exact absurd hl (hno d)
        · rw [if_neg (hno digest.bytes)]
    · have hfst : (validateDigest digest acc a).1.lookup id = acc.1.lookup id := by
        unfold validateDigest
        split
        · rw [GoMap.lookup_insert_eq, if_neg hid]
        · rfl
      have hsnd : (validateDigest digest acc a).2.lookup id = acc.2.lookup id := by
        unfold validateDigest
        split
        · split
          · rw [GoMap.lookup_insert_eq, if_neg hid]
          · rfl
        · rfl
      simp [hfst, hsnd, hid]

/-- **Checked digests**: afterwards no received digest is left unchecked, and a sender is valid
if it was before or if its stored digest is the slot's. -/
theorem lookup_validateDigests (digest : ByteSlice) (received valid : GoMap NodeID ByteSlice)
    (id : NodeID) :
    (validateDigests digest received valid).1.lookup id = (received.lookup id).map (fun _ => none) ∧
      (validateDigests digest received valid).2.lookup id =
        if received.lookup id = some (some digest.bytes) then some (some digest.bytes)
        else valid.lookup id := by
  obtain ⟨h1, h2⟩ := lookup_foldl_validateDigest digest received.keys_nodup (received, valid) id
  rw [validateDigests, h1, h2]
  by_cases hid : id ∈ received.keys
  · simp [hid]
  · have hnone : received.lookup id = none := by
      rw [AList.lookup_eq_none]
      exact fun h => hid (AList.mem_keys.mp h)
    simp [hid, hnone]

theorem mem_keys_validateDigests_fst {digest : ByteSlice} {received valid : GoMap NodeID ByteSlice}
    {id : NodeID} :
    id ∈ (validateDigests digest received valid).1.keys ↔ id ∈ received.keys := by
  rw [GoMap.mem_keys_iff, GoMap.mem_keys_iff, (lookup_validateDigests digest received valid id).1]
  simp

theorem mem_keys_validateDigests_snd {digest : ByteSlice} {received valid : GoMap NodeID ByteSlice}
    {id : NodeID} :
    id ∈ (validateDigests digest received valid).2.keys ↔
      id ∈ valid.keys ∨ received.lookup id = some (some digest.bytes) := by
  rw [GoMap.mem_keys_iff, GoMap.mem_keys_iff, (lookup_validateDigests digest received valid id).2]
  by_cases h : received.lookup id = some (some digest.bytes)
  · simp [h]
  · simp [h]

/-! ### Slots -/

/-- `PbftSlot`. -/
structure PbftSlot where
  preprepare : Option Preprepare
  prepareDigests : GoMap NodeID ByteSlice
  validPrepareDigests : GoMap NodeID ByteSlice
  commitDigests : GoMap NodeID ByteSlice
  validCommitDigests : GoMap NodeID ByteSlice
  digest : ByteSlice
  preprepared : Bool
  prepared : Bool
  committed : Bool
  membership : Membership

namespace PbftSlot

/-- `NewPbftSlot`. -/
def new (membership : Membership) : PbftSlot where
  preprepare := none
  prepareDigests := ∅
  validPrepareDigests := ∅
  commitDigests := ∅
  validCommitDigests := ∅
  digest := none
  preprepared := false
  prepared := false
  committed := false
  membership := membership

/-- `PopulateFromPrevious`: carries a committed result over into a later view. -/
def populateFromPrevious (slot prevSlot : PbftSlot) (view : ViewNr) : Fallible PbftSlot :=
  if prevSlot.committed then do
    let preprepare ← deref prevSlot.preprepare
    return { slot with
      committed := true
      digest := prevSlot.digest
      preprepare := some { preprepare with view := view } }
  else .ok slot

/-- `CheckPrepared`: the slot with its checked Prepare messages, and whether it can be
prepared. -/
def checkPrepared (slot : PbftSlot) : Fallible (PbftSlot × Bool) :=
  if slot.preprepared then do
    let (received, valid, enough) ← checkDigests slot.membership slot.digest slot.prepareDigests
      slot.validPrepareDigests
    return ({ slot with prepareDigests := received, validPrepareDigests := valid }, enough)
  else .ok (slot, false)

/-- `CheckCommitted`: the slot with its checked Commit messages, and whether it can be
committed. -/
def checkCommitted (slot : PbftSlot) : Fallible (PbftSlot × Bool) :=
  if slot.prepared then do
    let (received, valid, enough) ← checkDigests slot.membership slot.digest slot.commitDigests
      slot.validCommitDigests
    return ({ slot with commitDigests := received, validCommitDigests := valid }, enough)
  else .ok (slot, false)

/-- `GetPreprepare`. -/
def getPreprepare (slot : PbftSlot) : ByteSlice → Option Preprepare
  | none => none
  | some d => if slot.preprepared ∧ d = slot.digest.bytes then slot.preprepare else none

/-- `CatchUp`. -/
def catchUp (slot : PbftSlot) (preprepare : Preprepare) (digest : Bytes) : PbftSlot :=
  { slot with
    preprepare := some preprepare
    digest := some digest
    preprepared := true
    prepared := true
    committed := true }

end PbftSlot

/-! ### What a check does -/

/-- A check that completes leaves the digests as they are, or validates them all; it succeeds
only in the second case, with a strong quorum of valid senders. -/
theorem checkDigests_cases {m : Membership} {digest : ByteSlice}
    {received valid received' valid' : GoMap NodeID ByteSlice} {enough : Bool}
    (h : checkDigests m digest received valid = .ok (received', valid', enough)) :
    (received' = received ∧ valid' = valid ∧ enough = false) ∨
      (received' = (validateDigests digest received valid).1 ∧
        valid' = (validateDigests digest received valid).2 ∧
        m.haveStrongQuorum valid'.keys = .ok enough) := by
  obtain ⟨b, -, h⟩ := Fallible.bind_eq_ok.mp h
  cases b with
  | false =>
    cases h
    exact Or.inl ⟨rfl, rfl, rfl⟩
  | true =>
    obtain ⟨e, he, h⟩ := Fallible.bind_eq_ok.mp h
    cases h
    exact Or.inr ⟨rfl, rfl, he⟩

namespace PbftSlot

/-- A check for being prepared changes only the Prepare messages; it can only succeed on a
preprepared slot. -/
theorem checkPrepared_cases {slot slot' : PbftSlot} {b : Bool}
    (h : slot.checkPrepared = .ok (slot', b)) :
    (slot' = slot ∧ b = false) ∨
      slot.preprepared = true ∧ ∃ received valid,
        checkDigests slot.membership slot.digest slot.prepareDigests slot.validPrepareDigests =
          .ok (received, valid, b) ∧
        slot' = { slot with prepareDigests := received, validPrepareDigests := valid } := by
  unfold checkPrepared at h
  split at h
  · next hpp =>
    obtain ⟨⟨received, valid, enough⟩, hc, hret⟩ := Fallible.bind_eq_ok.mp h
    cases hret
    exact Or.inr ⟨hpp, received, valid, hc, rfl⟩
  · cases h
    exact Or.inl ⟨rfl, rfl⟩

/-- A check for being committed changes only the Commit messages; it can only succeed on a
prepared slot. -/
theorem checkCommitted_cases {slot slot' : PbftSlot} {b : Bool}
    (h : slot.checkCommitted = .ok (slot', b)) :
    (slot' = slot ∧ b = false) ∨
      slot.prepared = true ∧ ∃ received valid,
        checkDigests slot.membership slot.digest slot.commitDigests slot.validCommitDigests =
          .ok (received, valid, b) ∧
        slot' = { slot with commitDigests := received, validCommitDigests := valid } := by
  unfold checkCommitted at h
  split at h
  · next hp =>
    obtain ⟨⟨received, valid, enough⟩, hc, hret⟩ := Fallible.bind_eq_ok.mp h
    cases hret
    exact Or.inr ⟨hp, received, valid, hc, rfl⟩
  · cases h
    exact Or.inl ⟨rfl, rfl⟩

/-- A Preprepare is found by the contents of the slot's digest only. -/
theorem getPreprepare_eq_some {slot : PbftSlot} {digest : ByteSlice} {pp : Preprepare}
    (h : slot.getPreprepare digest = some pp) :
    slot.preprepared = true ∧ slot.preprepare = some pp ∧ digest = some slot.digest.bytes := by
  cases digest with
  | none => cases h
  | some d =>
    rw [getPreprepare] at h
    split at h
    · next hc => exact ⟨hc.1, h, by rw [hc.2]⟩
    · cases h

end PbftSlot

end Mir.Orderers
