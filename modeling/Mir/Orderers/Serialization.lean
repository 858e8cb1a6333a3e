import Mir.Orderers.Messages

/-!
# What is hashed and what is signed

`SerializePreprepareForHashing` and `SerializeViewChangeForSigning` return lists of byte
slices, but hashing and signing both read only their concatenation (`HashImpl` writes every
slice into one hash, `digest` in the crypto module does the same before signing).

In a Preprepare the sequence number and the aborted flag have a fixed width and come first. A
ViewChange is not determined by the concatenation. The P-set and the Q-set are flattened with neither counts nor
length prefixes, so an entry can be moved from one set to the other, or several entries can be
read as one entry with a longer digest, under the same signed bytes. The signed bytes pin
down a ViewChange exactly when it has no entry at all (`signedBytes_determine_iff`).
-/

namespace Mir.Orderers

/-! ### Preprepares -/

/-- `SerializePreprepareForHashing`. The view number is left out on purpose: hashes must be
comparable across views. -/
def serializePreprepareForHashing (pp : Preprepare) : List Bytes :=
  [uint64ToBytes pp.sn, [if pp.aborted then 1 else 0], pp.data]

/-- The bytes the hasher reads for a Preprepare. -/
def Preprepare.hashBytes (pp : Preprepare) : Bytes := (serializePreprepareForHashing pp).flatten

/-- Copying a Preprepare with another view number preserves what is hashed. -/
@[simp] theorem Preprepare.hashBytes_view (pp : Preprepare) (v : ViewNr) :
    { pp with view := v }.hashBytes = pp.hashBytes := rfl

/-! ### ViewChanges -/

/-- The slices written for one P-set entry. -/
def PSetEntry.serialize (e : PSetEntry) : List Bytes :=
  [uint64ToBytes e.sn, uint64ToBytes e.view, e.digest.bytes]

/-- The slices written for one Q-set entry. -/
def QSetEntry.serialize (e : QSetEntry) : List Bytes :=
  [uint64ToBytes e.sn, uint64ToBytes e.view, e.digest]

/-- `SerializeViewChangeForSigning`. -/
def serializeViewChangeForSigning (vc : ViewChange) : List Bytes :=
  uint64ToBytes vc.view ::
    (vc.pSet.flatMap PSetEntry.serialize ++ vc.qSet.flatMap QSetEntry.serialize)

/-- The bytes a signature over a ViewChange covers. -/
def ViewChange.signedBytes (vc : ViewChange) : Bytes := (serializeViewChangeForSigning vc).flatten

/-- Two ViewChanges say the same: equal views, equal P-sets and equal Q-sets, where a digest
counts by its contents. -/
def ViewChange.SameContent (vc vc' : ViewChange) : Prop :=
  vc.view = vc'.view ∧
    vc.pSet.map (fun e => (e.sn, e.view, e.digest.bytes)) =
      vc'.pSet.map (fun e => (e.sn, e.view, e.digest.bytes)) ∧
    vc.qSet = vc'.qSet

/-- The Q-set entry with the contents of a P-set entry. -/
def PSetEntry.toQ (e : PSetEntry) : QSetEntry := ⟨e.sn, e.view, e.digest.bytes⟩

/-- The P-set entry with the contents of a Q-set entry. -/
def QSetEntry.toP (e : QSetEntry) : PSetEntry := ⟨e.sn, e.view, some e.digest⟩

@[simp] theorem PSetEntry.serialize_toQ (e : PSetEntry) : e.toQ.serialize = e.serialize := rfl

@[simp] theorem QSetEntry.serialize_toP (e : QSetEntry) : e.toP.serialize = e.serialize := rfl

theorem flatMap_serialize_toQ (ps : List PSetEntry) :
    (ps.map PSetEntry.toQ).flatMap QSetEntry.serialize = ps.flatMap PSetEntry.serialize := by
  rw [List.flatMap_map]
  rfl

theorem flatMap_serialize_toP (qs : List QSetEntry) :
    (qs.map QSetEntry.toP).flatMap PSetEntry.serialize = qs.flatMap QSetEntry.serialize := by
  rw [List.flatMap_map]
  rfl

/-- **Moving the P-set into the Q-set** leaves the signed bytes alone. -/
theorem signedBytes_moveP (vc : ViewChange) :
    ViewChange.signedBytes ⟨vc.view, [], vc.pSet.map PSetEntry.toQ ++ vc.qSet⟩ =
      vc.signedBytes := by
  simp only [ViewChange.signedBytes, serializeViewChangeForSigning, List.flatMap_append,
    flatMap_serialize_toQ, List.flatMap_nil, List.nil_append]

/-- **Moving the Q-set into the P-set** leaves the signed bytes alone. -/
theorem signedBytes_moveQ (vc : ViewChange) :
    ViewChange.signedBytes ⟨vc.view, vc.pSet ++ vc.qSet.map QSetEntry.toP, []⟩ =
      vc.signedBytes := by
  simp only [ViewChange.signedBytes, serializeViewChangeForSigning, List.flatMap_append,
    flatMap_serialize_toP, List.flatMap_nil, List.append_nil]

/-- Every entry contributes its two fixed-width numbers. -/
theorem length_signedBytes (vc : ViewChange) :
    8 + 16 * (vc.pSet.length + vc.qSet.length) ≤ vc.signedBytes.length := by
  have hp : ∀ ps : List PSetEntry,
      16 * ps.length ≤ (ps.flatMap PSetEntry.serialize).flatten.length := by
    intro ps
    induction ps with
    | nil => simp
    | cons e ps ih =>
      simp only [List.flatMap_cons, List.flatten_append, List.length_append, PSetEntry.serialize,
        List.length_cons, List.flatten_cons, length_uint64ToBytes]
      omega
  -- a Q-set is written exactly as the P-set with the same contents
  have hq := hp (vc.qSet.map QSetEntry.toP)
  rw [flatMap_serialize_toP, List.length_map] at hq
  have hps := hp vc.pSet
  simp only [ViewChange.signedBytes, serializeViewChangeForSigning, List.flatten_cons,
    List.flatten_append, List.length_append, length_uint64ToBytes]
  omega

/-- A ViewChange without entries is pinned down by its signed bytes: no entry fits into the
eight bytes of the view number. -/
theorem sameContent_of_no_entries {vc vc' : ViewChange} (hp : vc.pSet = []) (hq : vc.qSet = [])
    (h : vc.signedBytes = vc'.signedBytes) : vc.SameContent vc' := by
  have hlen : vc.signedBytes.length = 8 := by
    simp [ViewChange.signedBytes, serializeViewChangeForSigning, hp, hq]
  have hle := length_signedBytes vc'
  rw [← h, hlen] at hle
  have hp' : vc'.pSet = [] := List.length_eq_zero_iff.mp (by omega)
  have hq' : vc'.qSet = [] := List.length_eq_zero_iff.mp (by omega)
  refine ⟨?_, by rw [hp, hp'], by rw [hq, hq']⟩
  have hview : uint64ToBytes vc.view = uint64ToBytes vc'.view := by
    simpa [ViewChange.signedBytes, serializeViewChangeForSigning, hp, hq, hp', hq'] using h
  exact uint64ToBytes_injective hview

/-- **What the signed bytes of a ViewChange determine.** A ViewChange is the only one with
its signed bytes exactly when both its P-set and its Q-set are empty. -/
theorem signedBytes_determine_iff (vc : ViewChange) :
    (∀ vc' : ViewChange, vc.signedBytes = vc'.signedBytes → vc.SameContent vc') ↔
      vc.pSet = [] ∧ vc.qSet = [] := by
  constructor
  · intro hdet
    have hp : vc.pSet = [] := by
      have hmove := (hdet _ (signedBytes_moveP vc).symm).2.1
      exact List.map_eq_nil_iff.mp hmove
    refine ⟨hp, ?_⟩
    exact (hdet _ (signedBytes_moveQ vc).symm).2.2
  · rintro ⟨hp, hq⟩ vc' h
    exact sameContent_of_no_entries hp hq h

/-- A node that prepared and preprepared digest `d` for sequence number `0` in view `0`. -/
def preparedViewChange (d : Bytes) : ViewChange := ⟨1, [⟨0, 0, some d⟩], [⟨0, 0, d⟩]⟩

/-- The same bytes read as one Q-set entry with a long digest: nothing prepared. -/
def erasedViewChange (d : Bytes) : ViewChange :=
  ⟨1, [], [⟨0, 0, d ++ (uint64ToBytes 0 ++ (uint64ToBytes 0 ++ d))⟩]⟩

/-- **Prepared entries can be erased** under one signature: the two ViewChanges have the same
signed bytes and different P-sets. -/
theorem signedBytes_ambiguous :
    (preparedViewChange [7]).signedBytes = (erasedViewChange [7]).signedBytes ∧
      ¬ (preparedViewChange [7]).SameContent (erasedViewChange [7]) := by
  refine ⟨by decide, fun h => ?_⟩
  exact absurd h.2.1 (by decide)

end Mir.Orderers
