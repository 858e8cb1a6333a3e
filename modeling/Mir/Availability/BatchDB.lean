import Mir.Availability.Certificates
import Mir.Events.Types
import Mir.Trantor.Transaction

/-!
# The batch store

`fakebatchdb`: batches are stored in memory under their identifiers, each for a retention index, and
deleted when the store is garbage-collected past that index. A batch may be stored again under another
index. Then it is listed under both, while the store keeps one entry with the higher index.

The lists and the store agree in every reachable state (`Consistent`), so garbage collection finds
every batch it looks for. A lookup succeeds exactly if a batch was stored with an index that is still
retained: `retention_exact`.
-/

namespace Mir.Availability.BatchDB

open FallibleLoop

/-! ### The module -/

/-- `fakebatchdb.batch`. -/
structure Batch where
  txs : List Transaction
  maxRetIdx : RetentionIndex
  deriving DecidableEq

/-- `fakebatchdb.moduleState`. -/
structure State where
  batchStore : GoMap BatchID Batch
  batchesByRetIdx : GoMap RetentionIndex (GoMap BatchID Unit)
  retIdx : RetentionIndex

/-- Events for the module. The origins of requests are not inspected: their type is `O`. -/
inductive Event (O : Type)
  | storeBatch (batchID : BatchID) (txs : List Transaction) (retIdx : RetentionIndex) (origin : O)
  | lookupBatch (batchID : BatchID) (origin : O)
  | garbageCollect (retentionIndex : RetentionIndex)

/-- What the module emits. -/
inductive Output (O : Type)
  | batchStored (origin : O)
  | lookupBatchResponse (found : Bool) (txs : List Transaction) (origin : O)

/-- The state at the start. -/
def State.init : State := ⟨∅, ∅, 0⟩

/-- The store after a batch is received for a retention index that is not collected. -/
def storeBatch (batchStore : GoMap BatchID Batch) (batchID : BatchID) (txs : List Transaction)
    (retIdx : RetentionIndex) : GoMap BatchID Batch :=
  match batchStore.lookup batchID with
  | none => batchStore.insert batchID ⟨txs, retIdx⟩
  | some b => if b.maxRetIdx < retIdx then batchStore.insert batchID ⟨txs, retIdx⟩ else batchStore

/-- `UponStoreBatch`. -/
def uponStoreBatch (s : State) (batchID : BatchID) (txs : List Transaction)
    (retIdx : RetentionIndex) : State :=
  if s.retIdx ≤ retIdx then
    { s with
      batchStore := storeBatch s.batchStore batchID txs retIdx
      batchesByRetIdx := s.batchesByRetIdx.insert retIdx
        (((s.batchesByRetIdx.lookup retIdx).getD ∅).insert batchID ()) }
  else s

/-- `UponLookupBatch`. -/
def uponLookupBatch {O : Type} (s : State) (batchID : BatchID) (origin : O) : Output O :=
  match s.batchStore.lookup batchID with
  | none => .lookupBatchResponse false [] origin
  | some b => .lookupBatchResponse true b.txs origin

/-- One iteration of the inner loop of `UponGarbageCollect`. -/
def deleteBatch (retIdx : RetentionIndex) (batchStore : GoMap BatchID Batch) (batchID : BatchID) :
    Fallible (GoMap BatchID Batch) := do
  let b ← deref (batchStore.lookup batchID)
  return if b.maxRetIdx ≤ retIdx then batchStore.erase batchID else batchStore

/-- One iteration of the outer loop of `UponGarbageCollect`. -/
def collect (s : State) : Fallible State := do
  let batchIDs := ((s.batchesByRetIdx.lookup s.retIdx).getD ∅).keys
  let batchStore ← batchIDs.foldlM (deleteBatch s.retIdx) s.batchStore
  return ⟨batchStore, s.batchesByRetIdx.erase s.retIdx, s.retIdx + 1⟩

/-- `UponGarbageCollect`. -/
def uponGarbageCollect (s : State) (retentionIndex : RetentionIndex) : Fallible State :=
  iterate collect (retentionIndex.toNat - s.retIdx.toNat) s

/-- The handlers of the module. -/
def handle {O : Type} (s : State) : Event O → Fallible (State × List (Output O))
  | .storeBatch batchID txs retIdx origin =>
    .ok (uponStoreBatch s batchID txs retIdx, [.batchStored origin])
  | .lookupBatch batchID origin => .ok (s, [uponLookupBatch s batchID origin])
  | .garbageCollect retentionIndex => do return (← uponGarbageCollect s retentionIndex, [])

variable {O : Type}

/-- One event of a run. -/
def step (r : State × List (Output O)) (event : Event O) : Fallible (State × List (Output O)) := do
  let handled ← handle r.1 event
  return (handled.1, r.2 ++ handled.2)

/-- A run of the module from the start: the state and the outputs after a list of events. -/
def run (events : List (Event O)) : Fallible (State × List (Output O)) :=
  events.foldlM step (.init, [])

theorem run_concat (events : List (Event O)) (event : Event O) :
    run (events ++ [event]) = run events >>= fun r => step r event := by
  rw [run, List.foldlM_append]
  refine congrArg _ (funext fun r => ?_)
  rw [List.foldlM_cons]
  exact bind_pure _

/-! ### The lists and the store agree -/

/-- A batch that is listed under an index is stored, for that index or a higher one, and a batch that
is stored is listed under its index. No index is collected. -/
structure Consistent (s : State) : Prop where
  listed : ∀ i batchIDs, s.batchesByRetIdx.lookup i = some batchIDs → s.retIdx ≤ i ∧
    ∀ id ∈ batchIDs.keys, ∃ b, s.batchStore.lookup id = some b ∧ i ≤ b.maxRetIdx
  retained : ∀ id b, s.batchStore.lookup id = some b → s.retIdx ≤ b.maxRetIdx ∧
    ∃ batchIDs, s.batchesByRetIdx.lookup b.maxRetIdx = some batchIDs ∧ id ∈ batchIDs.keys

theorem consistent_init : Consistent State.init := by
  refine ⟨fun i batchIDs h => ?_, fun id b h => ?_⟩
  · rw [State.init, AList.lookup_empty] at h
    cases h
  · rw [State.init, AList.lookup_empty] at h
    cases h

/-- What is found after a batch is stored: the new batch if its index is higher, or what was there. -/
theorem lookup_storeBatch {batchStore : GoMap BatchID Batch} {batchID id : BatchID}
    {txs : List Transaction} {retIdx : RetentionIndex} {b : Batch}
    (h : (storeBatch batchStore batchID txs retIdx).lookup id = some b) :
    (id = batchID ∧ b = ⟨txs, retIdx⟩) ∨
      batchStore.lookup id = some b ∧ (id = batchID → retIdx ≤ b.maxRetIdx) := by
  rw [storeBatch] at h
  split at h
  next hnone =>
    rw [GoMap.lookup_insert_eq] at h
    split at h
    next hid => exact Or.inl ⟨hid, (Option.some.inj h).symm⟩
    next hid => exact Or.inr ⟨h, fun heq => absurd heq hid⟩
  next old hold =>
    split at h
    next =>
      rw [GoMap.lookup_insert_eq] at h
      split at h
      next hid => exact Or.inl ⟨hid, (Option.some.inj h).symm⟩
      next hid => exact Or.inr ⟨h, fun heq => absurd heq hid⟩
    next hle =>
      refine Or.inr ⟨h, ?_⟩
      rintro rfl
      rw [h] at hold
      cases hold
      exact UInt64.not_lt.mp hle

/-- Storing a batch leaves every batch stored, for its index or a higher one. -/
theorem exists_lookup_storeBatch (batchStore : GoMap BatchID Batch) (batchID : BatchID)
    (txs : List Transaction) (retIdx : RetentionIndex) :
    (∃ b, (storeBatch batchStore batchID txs retIdx).lookup batchID = some b ∧
      retIdx ≤ b.maxRetIdx) ∧
    ∀ id b, batchStore.lookup id = some b →
      ∃ b', (storeBatch batchStore batchID txs retIdx).lookup id = some b' ∧
        b.maxRetIdx ≤ b'.maxRetIdx := by
  rw [storeBatch]
  split
  next hnone =>
    refine ⟨⟨_, AList.lookup_insert _, UInt64.le_refl _⟩, fun id b hb => ⟨b, ?_, UInt64.le_refl _⟩⟩
    rw [GoMap.lookup_insert_eq, if_neg]
    · exact hb
    · rintro rfl
      rw [hnone] at hb
      cases hb
  next old hold =>
    split
    next hlt =>
      refine ⟨⟨_, AList.lookup_insert _, UInt64.le_refl _⟩, fun id b hb => ?_⟩
      rw [GoMap.lookup_insert_eq]
      split
      next hid =>
        rw [hid, hold] at hb
        cases hb
        exact ⟨_, rfl, UInt64.le_of_lt hlt⟩
      next => exact ⟨b, hb, UInt64.le_refl _⟩
    next hle =>
      exact ⟨⟨old, hold, UInt64.not_lt.mp hle⟩, fun id b hb => ⟨b, hb, UInt64.le_refl _⟩⟩

/-- Storing a batch keeps the agreement. -/
theorem Consistent.uponStoreBatch {s : State} (h : Consistent s) (batchID : BatchID)
    (txs : List Transaction) (retIdx : RetentionIndex) :
    Consistent (uponStoreBatch s batchID txs retIdx) := by
  rw [BatchDB.uponStoreBatch]
  split
  next hle =>
    obtain ⟨⟨new, hnew, hnewIdx⟩, hkept⟩ :=
      exists_lookup_storeBatch s.batchStore batchID txs retIdx
    refine ⟨?_, fun id b hb => ?_⟩
    · -- the list of the given index has the batch added; all listed batches stay stored
      have hstays : ∀ i batchIDs, s.batchesByRetIdx.lookup i = some batchIDs → s.retIdx ≤ i ∧
          ∀ id ∈ batchIDs.keys, ∃ b,
            (storeBatch s.batchStore batchID txs retIdx).lookup id = some b ∧ i ≤ b.maxRetIdx := by
        intro i batchIDs hi
        obtain ⟨hle, hall⟩ := h.listed i batchIDs hi
        refine ⟨hle, fun id hid => ?_⟩
        obtain ⟨b, hb, hidx⟩ := hall id hid
        obtain ⟨b', hb', hle'⟩ := hkept id b hb
        exact ⟨b', hb', UInt64.le_trans hidx hle'⟩
      refine GoMap.forall_lookup_insert hstays ⟨hle, fun id hid => ?_⟩
      rcases GoMap.mem_keys_insert.mp hid with rfl | hold
      · exact ⟨new, hnew, hnewIdx⟩
      · cases hlist : s.batchesByRetIdx.lookup retIdx with
        | none =>
          rw [hlist] at hold
          cases hold
        | some old =>
          rw [hlist] at hold
          exact (hstays retIdx old hlist).2 id hold
    · rcases lookup_storeBatch hb with ⟨rfl, rfl⟩ | ⟨hold, -⟩
      · exact ⟨hle, _, AList.lookup_insert _, GoMap.mem_keys_insert.mpr (Or.inl rfl)⟩
      · obtain ⟨hidx, batchIDs, hlist, hmem⟩ := h.retained id b hold
        refine ⟨hidx, ?_⟩
        dsimp only
        rw [GoMap.lookup_insert_eq]
        split
        next heq =>
          refine ⟨_, rfl, GoMap.mem_keys_insert.mpr (Or.inr ?_)⟩
          rw [← heq, hlist]
          exact hmem
        next => exact ⟨batchIDs, hlist, hmem⟩
  next => exact h

/-- The inner loop of `UponGarbageCollect` finds every batch that is stored, and deletes the ones that
no higher index retains. -/
theorem deleteBatches_spec (retIdx : RetentionIndex) {batchStore : GoMap BatchID Batch}
    {batchIDs : List BatchID} (hnodup : batchIDs.Nodup)
    (hstored : ∀ id ∈ batchIDs, ∃ b, batchStore.lookup id = some b) :
    ∃ batchStore', batchIDs.foldlM (deleteBatch retIdx) batchStore = .ok batchStore' ∧
      ∀ id b, batchStore'.lookup id = some b ↔
        batchStore.lookup id = some b ∧ (id ∈ batchIDs → retIdx < b.maxRetIdx) := by
  refine foldlM_completes (I := fun visited (store : GoMap BatchID Batch) => ∀ id b,
    store.lookup id = some b ↔ batchStore.lookup id = some b ∧
      (id ∈ visited → retIdx < b.maxRetIdx)) (fun id b => by simp) ?_
  rintro visited id rest rfl store hstore
  have hfresh : id ∉ visited := fun hmem =>
    (List.disjoint_of_nodup_append hnodup) hmem List.mem_cons_self
  obtain ⟨b, hb⟩ := hstored id (List.mem_append_right _ List.mem_cons_self)
  have hlookup : store.lookup id = some b := (hstore id b).mpr ⟨hb, fun hmem => absurd hmem hfresh⟩
  refine ⟨_, Fallible.bind_eq_ok.mpr ⟨b, deref_eq_ok.mpr hlookup, rfl⟩, fun id' b' => ?_⟩
  by_cases hid : id' = id
  · subst hid
    split
    next hle =>
      rw [AList.lookup_erase, hb]
      constructor
      · nofun
      · rintro ⟨hb', hlt⟩
        obtain rfl := Option.some.inj hb'
        exact absurd (hlt (by simp)) (UInt64.not_lt.mpr hle)
    next hlt =>
      rw [hlookup, hb]
      constructor
      · rintro hb'
        obtain rfl := Option.some.inj hb'
        exact ⟨rfl, fun _ => UInt64.not_le.mp hlt⟩
      · exact And.left
  · have hmem : id' ∈ visited ++ [id] ↔ id' ∈ visited := by simp [hid]
    rw [hmem, ← hstore id' b']
    split
    next => rw [AList.lookup_erase_ne hid]
    next => rfl

/-- Collecting one index deletes exactly the batches that it retained, and keeps the agreement. -/
theorem Consistent.collect {s : State} (h : Consistent s) (hmax : s.retIdx.toNat + 1 < 2 ^ 64) :
    ∃ s', collect s = .ok s' ∧ Consistent s' ∧ s'.retIdx.toNat = s.retIdx.toNat + 1 ∧
      ∀ id b, s'.batchStore.lookup id = some b ↔
        s.batchStore.lookup id = some b ∧ s.retIdx < b.maxRetIdx := by
  have hsucc : (s.retIdx + 1).toNat = s.retIdx.toNat + 1 := by
    rw [UInt64.toNat_add]
    exact Nat.mod_eq_of_lt hmax
  -- what is listed under the index is stored, and only this has the index as its highest one
  have hstored : ∀ id ∈ ((s.batchesByRetIdx.lookup s.retIdx).getD ∅).keys,
      ∃ b, s.batchStore.lookup id = some b := by
    intro id hid
    cases hlist : s.batchesByRetIdx.lookup s.retIdx with
    | none =>
      rw [hlist] at hid
      cases hid
    | some batchIDs =>
      rw [hlist] at hid
      obtain ⟨b, hb, -⟩ := (h.listed _ _ hlist).2 id hid
      exact ⟨b, hb⟩
  have hhighest : ∀ id b, s.batchStore.lookup id = some b →
      id ∉ ((s.batchesByRetIdx.lookup s.retIdx).getD ∅).keys → s.retIdx < b.maxRetIdx := by
    intro id b hb hid
    obtain ⟨hle, batchIDs, hlist, hmem⟩ := h.retained id b hb
    refine UInt64.lt_of_le_of_ne hle fun heq => hid ?_
    rw [heq, hlist]
    exact hmem
  obtain ⟨batchStore, hfold, hspec⟩ :=
    deleteBatches_spec s.retIdx (AList.keys_nodup _) hstored
  have hlookup : ∀ id b, batchStore.lookup id = some b ↔
      s.batchStore.lookup id = some b ∧ s.retIdx < b.maxRetIdx := by
    intro id b
    rw [hspec]
    refine and_congr_right fun hb => ⟨fun hlt => ?_, fun hlt _ => hlt⟩
    by_cases hid : id ∈ ((s.batchesByRetIdx.lookup s.retIdx).getD ∅).keys
    · exact hlt hid
    · exact hhighest id b hb hid
  have hlater : ∀ i : RetentionIndex, s.retIdx < i → s.retIdx + 1 ≤ i := by
    intro i hi
    rw [UInt64.le_iff_toNat_le, hsucc]
    exact UInt64.lt_iff_toNat_lt.mp hi
  refine ⟨⟨batchStore, s.batchesByRetIdx.erase s.retIdx, s.retIdx + 1⟩,
    Fallible.bind_eq_ok.mpr ⟨batchStore, hfold, rfl⟩, ⟨fun i batchIDs hi => ?_, fun id b hb => ?_⟩,
    hsucc, hlookup⟩
  · have hne : i ≠ s.retIdx := by
      rintro rfl
      rw [AList.lookup_erase] at hi
      cases hi
    rw [AList.lookup_erase_ne hne] at hi
    obtain ⟨hle, hall⟩ := h.listed i batchIDs hi
    have hlt : s.retIdx < i := UInt64.lt_of_le_of_ne hle hne.symm
    refine ⟨hlater i hlt, fun id hid => ?_⟩
    obtain ⟨b, hb, hidx⟩ := hall id hid
    exact ⟨b, (hlookup id b).mpr ⟨hb, UInt64.lt_of_lt_of_le hlt hidx⟩, hidx⟩
  · obtain ⟨hb, hlt⟩ := (hlookup id b).mp hb
    obtain ⟨-, batchIDs, hlist, hmem⟩ := h.retained id b hb
    refine ⟨hlater _ hlt, batchIDs, ?_, hmem⟩
    rw [AList.lookup_erase_ne]
    · exact hlist
    · rintro heq
      rw [heq] at hlt
      exact UInt64.lt_irrefl _ hlt

/-- **Garbage collection completes** and deletes exactly the batches whose highest index it passes. -/
theorem Consistent.uponGarbageCollect {s : State} (h : Consistent s) (g : RetentionIndex) :
    ∃ s', uponGarbageCollect s g = .ok s' ∧ Consistent s' ∧
      (s'.retIdx = if s.retIdx < g then g else s.retIdx) ∧
      ∀ id b, s'.batchStore.lookup id = some b ↔
        s.batchStore.lookup id = some b ∧ s'.retIdx ≤ b.maxRetIdx := by
  have hg := g.toNat_lt
  have hs := s.retIdx.toNat_lt
  -- with `left` indices to go, what is below the current index is gone
  let I : ℕ → State → Prop := fun left s' => Consistent s' ∧
    s'.retIdx.toNat + left = max s.retIdx.toNat g.toNat ∧
    ∀ id b, s'.batchStore.lookup id = some b ↔
      s.batchStore.lookup id = some b ∧ s'.retIdx ≤ b.maxRetIdx
  have hinit : I (g.toNat - s.retIdx.toNat) s :=
    ⟨h, by omega, fun id b => ⟨fun hb => ⟨hb, (h.retained id b hb).1⟩, And.left⟩⟩
  have hstep : ∀ left s₁, I (left + 1) s₁ → ∃ s₂, BatchDB.collect s₁ = .ok s₂ ∧ I left s₂ := by
    rintro left s₁ ⟨hconsistent, hidx, hlookup⟩
    obtain ⟨s₂, hcollect, hconsistent₂, hidx₂, hlookup₂⟩ := hconsistent.collect (by omega)
    refine ⟨s₂, hcollect, hconsistent₂, by omega, fun id b => ?_⟩
    rw [hlookup₂, hlookup, and_assoc]
    refine and_congr_right fun _ => ⟨fun ⟨_, hlt⟩ => ?_, fun hle => ?_⟩
    · rw [UInt64.le_iff_toNat_le, hidx₂]
      exact UInt64.lt_iff_toNat_lt.mp hlt
    · rw [UInt64.le_iff_toNat_le, hidx₂] at hle
      have hlt : s₁.retIdx < b.maxRetIdx := UInt64.lt_iff_toNat_lt.mpr hle
      exact ⟨UInt64.le_of_lt hlt, hlt⟩
  obtain ⟨s', hiterate, hconsistent, hidx, hlookup⟩ := iterate_completes hstep hinit
  refine ⟨s', hiterate, hconsistent, ?_, hlookup⟩
  rw [Nat.add_zero] at hidx
  refine UInt64.toNat_inj.mp (hidx.trans ?_)
  split
  next hlt => exact max_eq_right (Nat.le_of_lt (UInt64.lt_iff_toNat_lt.mp hlt))
  next hle => exact max_eq_left (UInt64.le_iff_toNat_le.mp (UInt64.not_lt.mp hle))

/-! ### What a lookup finds -/

/-- A batch was stored when its retention index was not collected yet, and `since` are the events
that came after. -/
def Accepted (events since : List (Event O)) (batchID : BatchID) (txs : List Transaction)
    (retIdx : RetentionIndex) : Prop :=
  ∃ before origin r, events = before ++ .storeBatch batchID txs retIdx origin :: since ∧
    run before = .ok r ∧ r.1.retIdx ≤ retIdx

variable {events since : List (Event O)} {batchID : BatchID} {txs : List Transaction}
  {retIdx : RetentionIndex} {s : State} {out : List (Output O)}

theorem Accepted.concat (h : Accepted events since batchID txs retIdx) (event : Event O) :
    Accepted (events ++ [event]) (since ++ [event]) batchID txs retIdx := by
  obtain ⟨before, origin, r, rfl, hrun, hle⟩ := h
  exact ⟨before, origin, r, by simp, hrun, hle⟩

/-- A batch that was accepted in a longer run was accepted before the last event, or with it. -/
theorem accepted_concat {event : Event O}
    (h : Accepted (events ++ [event]) since batchID txs retIdx) :
    (∃ since', Accepted events since' batchID txs retIdx) ∨
      ∃ origin r, event = .storeBatch batchID txs retIdx origin ∧ run events = .ok r ∧
        r.1.retIdx ≤ retIdx := by
  obtain ⟨before, origin, r, heq, hrun, hle⟩ := h
  rcases List.eq_nil_or_concat since with rfl | ⟨since', last, rfl⟩
  · obtain ⟨rfl, hlast⟩ := List.append_inj' heq rfl
    exact Or.inr ⟨origin, r, (List.cons.inj hlast).1, hrun, hle⟩
  · rw [List.concat_eq_append, ← List.cons_append, ← List.append_assoc] at heq
    exact Or.inl ⟨since', before, origin, r, (List.append_inj' heq rfl).1, hrun, hle⟩

/-- The state after a run: the retention index is the highest one collected, every batch in the store
was accepted, and every accepted batch that is retained is in the store. -/
structure History (events : List (Event O)) (s : State) : Prop where
  consistent : Consistent s
  collected : ∀ g, .garbageCollect g ∈ events → g ≤ s.retIdx
  reached : s.retIdx = 0 ∨ .garbageCollect s.retIdx ∈ events
  found : ∀ id b, s.batchStore.lookup id = some b →
    ∃ since, Accepted events since id b.txs b.maxRetIdx
  kept : ∀ since id txs retIdx, Accepted events since id txs retIdx → s.retIdx ≤ retIdx →
    ∃ b, s.batchStore.lookup id = some b ∧ retIdx ≤ b.maxRetIdx

theorem history_init : History ([] : List (Event O)) State.init where
  consistent := consistent_init
  collected g hg := nomatch hg
  reached := Or.inl rfl
  found id b h := by
    rw [State.init, AList.lookup_empty] at h
    cases h
  kept since id txs retIdx h := by
    obtain ⟨before, origin, r, heq, -⟩ := h
    simp at heq

/-- Looking up a batch changes nothing. -/
theorem History.lookupBatch (h : History events s) (batchID : BatchID) (origin : O) :
    History (events ++ [.lookupBatch batchID origin]) s where
  consistent := h.consistent
  collected g hg := by
    rcases List.mem_append.mp hg with hold | hnew
    · exact h.collected g hold
    · cases List.mem_singleton.mp hnew
  reached := h.reached.imp_right (List.mem_append_left _)
  found id b hb := by
    obtain ⟨since, hacc⟩ := h.found id b hb
    exact ⟨_, hacc.concat _⟩
  kept since id txs retIdx hacc hle := by
    rcases accepted_concat hacc with ⟨since', hold⟩ | ⟨_, _, hnew, -⟩
    · exact h.kept since' id txs retIdx hold hle
    · cases hnew

theorem History.storeBatch (h : History events s) (hrun : run events = .ok (s, out))
    (batchID : BatchID) (txs : List Transaction) (retIdx : RetentionIndex) (origin : O) :
    History (events ++ [.storeBatch batchID txs retIdx origin])
      (uponStoreBatch s batchID txs retIdx) := by
  have hretIdx : (uponStoreBatch s batchID txs retIdx).retIdx = s.retIdx := by
    rw [uponStoreBatch]
    split <;> rfl
  obtain ⟨⟨new, hnew, hnewIdx⟩, hstays⟩ :=
    exists_lookup_storeBatch s.batchStore batchID txs retIdx
  refine ⟨h.consistent.uponStoreBatch batchID txs retIdx, fun g hg => ?_, ?_, fun id b hb => ?_,
    fun since id txs' retIdx' hacc hle => ?_⟩
  · rw [hretIdx]
    rcases List.mem_append.mp hg with hold | hnew
    · exact h.collected g hold
    · cases List.mem_singleton.mp hnew
  · rw [hretIdx]
    exact h.reached.imp_right (List.mem_append_left _)
  · have hold : ∀ b, s.batchStore.lookup id = some b → ∃ since,
        Accepted (events ++ [.storeBatch batchID txs retIdx origin]) since id b.txs b.maxRetIdx := by
      intro b hb
      obtain ⟨since, hacc⟩ := h.found id b hb
      exact ⟨_, hacc.concat _⟩
    rw [uponStoreBatch] at hb
    split at hb
    next hle =>
      rcases lookup_storeBatch hb with ⟨rfl, rfl⟩ | ⟨hb, -⟩
      · exact ⟨[], events, origin, (s, out), rfl, hrun, hle⟩
      · exact hold b hb
    next => exact hold b hb
  · rw [hretIdx] at hle
    rw [uponStoreBatch]
    rcases accepted_concat hacc with ⟨since', hacc'⟩ | ⟨_, r, heq, hr, hle'⟩
    · obtain ⟨b, hb, hidx⟩ := h.kept since' id txs' retIdx' hacc' hle
      split
      next =>
        obtain ⟨b', hb', hidx'⟩ := hstays id b hb
        exact ⟨b', hb', UInt64.le_trans hidx hidx'⟩
      next => exact ⟨b, hb, hidx⟩
    · cases heq
      rw [if_pos hle]
      exact ⟨new, hnew, hnewIdx⟩

theorem History.garbageCollect (h : History events s) {g : RetentionIndex} {s' : State}
    (hcollect : uponGarbageCollect s g = .ok s') :
    History (events ++ [.garbageCollect g]) s' := by
  obtain ⟨s₁, hs₁, hconsistent, hretIdx, hlookup⟩ := h.consistent.uponGarbageCollect g
  rw [hcollect] at hs₁
  cases hs₁
  have hle : s.retIdx ≤ s'.retIdx ∧ g ≤ s'.retIdx := by
    rw [hretIdx]
    split
    next hlt => exact ⟨UInt64.le_of_lt hlt, UInt64.le_refl _⟩
    next hle => exact ⟨UInt64.le_refl _, UInt64.not_lt.mp hle⟩
  refine ⟨hconsistent, fun g' hg' => ?_, ?_, fun id b hb => ?_, fun since id txs retIdx hacc hidx => ?_⟩
  · rcases List.mem_append.mp hg' with hold | hnew
    · exact UInt64.le_trans (h.collected g' hold) hle.1
    · cases List.mem_singleton.mp hnew
      exact hle.2
  · rw [hretIdx]
    split
    next => exact Or.inr (List.mem_append_right _ (List.mem_singleton.mpr rfl))
    next => exact h.reached.imp_right (List.mem_append_left _)
  · obtain ⟨since, hacc⟩ := h.found id b ((hlookup id b).mp hb).1
    exact ⟨_, hacc.concat _⟩
  · rcases accepted_concat hacc with ⟨since', hacc'⟩ | ⟨_, _, heq, -⟩
    · obtain ⟨b, hb, hmax⟩ := h.kept since' id txs retIdx hacc' (UInt64.le_trans hle.1 hidx)
      exact ⟨b, (hlookup id b).mpr ⟨hb, UInt64.le_trans hidx hmax⟩, hmax⟩
    · cases heq

/-- **Every run completes**, in a state that its history determines. -/
theorem run_history (events : List (Event O)) :
    ∃ s out, run events = .ok (s, out) ∧ History events s := by
  induction events using List.reverseRecOn with
  | nil => exact ⟨.init, [], rfl, history_init⟩
  | append_singleton events event ih =>
    obtain ⟨s, out, hrun, h⟩ := ih
    cases event with
    | storeBatch batchID txs retIdx origin =>
      exact ⟨_, _, by rw [run_concat, hrun]; rfl, h.storeBatch hrun batchID txs retIdx origin⟩
    | lookupBatch batchID origin =>
      exact ⟨_, _, by rw [run_concat, hrun]; rfl, h.lookupBatch batchID origin⟩
    | garbageCollect g =>
      obtain ⟨s', hs', -⟩ := h.consistent.uponGarbageCollect g
      refine ⟨s', out ++ [], ?_, h.garbageCollect hs'⟩
      rw [run_concat, hrun, Fallible.ok_bind, step, handle, hs']
      rfl

/-- An index that no later garbage collection passes is not below the retention index. -/
theorem History.le_of_accepted (h : History events s)
    (hacc : Accepted events since batchID txs retIdx)
    (hlater : ∀ g, .garbageCollect g ∈ since → g ≤ retIdx) : s.retIdx ≤ retIdx := by
  obtain ⟨before, origin, r, rfl, hrun, hle⟩ := hacc
  obtain ⟨s₀, out₀, hrun₀, h₀⟩ := run_history before
  rw [hrun] at hrun₀
  cases hrun₀
  -- the retention index was collected before the batch was stored, or since
  rcases h.reached with hzero | hmem
  · rw [hzero]
    exact UInt64.zero_le
  · rcases List.mem_append.mp hmem with hbefore | hsince
    · exact UInt64.le_trans (h₀.collected _ hbefore) hle
    · rcases List.mem_cons.mp hsince with heq | hsince
      · cases heq
      · exact hlater _ hsince

/-- **The batch store keeps exactly what retention demands.** Every run completes, with the lists and
the store in agreement. A lookup finds a batch if and only if an accepted `StoreBatch` had a retention
index not below any garbage-collection index since, and it then returns the transactions of such a
`StoreBatch`. -/
theorem retention_exact (events : List (Event O)) :
    ∃ s out, run events = .ok (s, out) ∧ Consistent s ∧ ∀ (id : BatchID) (origin : O),
      ((∃ txs, uponLookupBatch s id origin = .lookupBatchResponse true txs origin) ↔
        ∃ since txs retIdx, Accepted events since id txs retIdx ∧
          ∀ g, .garbageCollect g ∈ since → g ≤ retIdx) ∧
      ∀ txs, uponLookupBatch s id origin = .lookupBatchResponse true txs origin →
        ∃ since retIdx, Accepted events since id txs retIdx ∧
          ∀ g, .garbageCollect g ∈ since → g ≤ retIdx := by
  obtain ⟨s, out, hrun, h⟩ := run_history events
  refine ⟨s, out, hrun, h.consistent, fun id origin => ?_⟩
  have hfound : ∀ txs, uponLookupBatch s id origin = .lookupBatchResponse true txs origin →
      ∃ since retIdx, Accepted events since id txs retIdx ∧
        ∀ g, .garbageCollect g ∈ since → g ≤ retIdx := by
    intro txs hlookup
    rw [uponLookupBatch] at hlookup
    split at hlookup
    next => cases hlookup
    next b hb =>
      cases hlookup
      obtain ⟨since, hacc⟩ := h.found id b hb
      refine ⟨since, b.maxRetIdx, hacc, fun g hg => ?_⟩
      obtain ⟨before, _, _, rfl, -⟩ := hacc
      have hmem := h.collected g (List.mem_append_right _ (List.mem_cons_of_mem _ hg))
      exact UInt64.le_trans hmem (h.consistent.retained id b hb).1
  refine ⟨⟨?_, ?_⟩, hfound⟩
  · rintro ⟨txs, hlookup⟩
    obtain ⟨since, retIdx, hacc⟩ := hfound txs hlookup
    exact ⟨since, txs, retIdx, hacc⟩
  · rintro ⟨since, txs, retIdx, hacc, hlater⟩
    obtain ⟨b, hb, -⟩ := h.kept since id txs retIdx hacc (h.le_of_accepted hacc hlater)
    exact ⟨b.txs, by rw [uponLookupBatch, hb]⟩

end Mir.Availability.BatchDB
