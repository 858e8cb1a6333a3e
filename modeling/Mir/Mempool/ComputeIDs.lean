import Mir.Trantor.Transaction
import Mir.Lib.Digest

/-!
# Identifiers of transactions and batches

The part of the mempool that computes identifiers: a transaction's is the hash of its serialization, and
a batch's is the hash of the concatenated identifiers of its transactions. The serialization puts the
client, the number and the data of a transaction next to each other, with nothing in between, so
transactions of clients with identifiers of different lengths may have the same one. Where this does
not happen (`Unambiguous`), the identifier of a batch determines its contents: `IsBatch.contents_eq`.
-/

namespace Mir.Mempool

open Digests

/-! ### The module -/

/-- `serializeTXForHash`; `none` stands for `nil`. -/
def serializeTXForHash : Option Transaction → Option (List Bytes)
  | none => none
  | some tx => some [tx.clientID, uint64ToBytes tx.txNo, tx.data]

/-- The identifiers the mempool answers `RequestTransactionIDs` with, if it does not ignore the
request. -/
def transactionIDs (hash : Bytes → Bytes) (maxTransactionsInBatch : ℤ)
    (txs : List (Option Transaction)) : Option (List TxID) :=
  if txs.length > maxTransactionsInBatch then none
  else (txs.mapM serializeTXForHash).map (List.map fun data => hash data.flatten)

/-- The identifier the mempool answers `RequestBatchID` with. -/
def batchID (hash : Bytes → Bytes) (txIDs : List TxID) : Bytes := hash txIDs.flatten

/-! ### What identifiers determine -/

/-- The bytes that are hashed for a transaction. -/
def hashed (tx : Transaction) : Bytes := tx.clientID ++ (uint64ToBytes tx.txNo ++ tx.data)

/-- The client, the number and the data of a transaction. -/
def content (tx : Transaction) : Checkpoint.ClientID × TxNo × Bytes :=
  (tx.clientID, tx.txNo, tx.data)

/-- What identifiers are computed of: transactions, and concatenated identifiers of transactions. -/
structure Inputs where
  txs : Finset Transaction
  ids : Finset Bytes

/-- The strings that are hashed. -/
def Inputs.strings (H : Inputs) : Set Bytes := {b | b ∈ H.ids ∨ ∃ tx ∈ H.txs, hashed tx = b}

/-- The transactions whose identifiers are computed are determined by their serializations. -/
def Unambiguous (H : Inputs) : Prop :=
  ∀ tx ∈ H.txs, ∀ tx' ∈ H.txs, hashed tx' = hashed tx → content tx' = content tx

/-- A list of transactions with the given identifier, computed from `H`. -/
structure IsBatch (hash : Bytes → Bytes) (H : Inputs) (id : Bytes) (txs : List Transaction) :
    Prop where
  ne_nil : txs ≠ []
  txs_mem : ∀ tx ∈ txs, tx ∈ H.txs
  ids_mem : (txs.map fun tx => hash (hashed tx)).flatten ∈ H.ids
  id_eq : batchID hash (txs.map fun tx => hash (hashed tx)) = id

variable {hash : Bytes → Bytes} {H : Inputs}

theorem Inputs.hashed_mem {txs : List Transaction} (h : ∀ tx ∈ txs, tx ∈ H.txs) :
    ∀ b ∈ txs.map hashed, b ∈ H.strings :=
  List.forall_mem_map.mpr fun tx htx => .inr ⟨tx, h tx htx, rfl⟩

/-- Only transactions that are present can be serialized. -/
theorem mapM_serializeTXForHash {txs : List (Option Transaction)} {data : List (List Bytes)}
    (h : txs.mapM serializeTXForHash = some data) : ∃ ts : List Transaction, txs = ts.map some ∧
      data = ts.map fun tx => [tx.clientID, uint64ToBytes tx.txNo, tx.data] := by
  induction txs generalizing data with
  | nil =>
    cases h
    exact ⟨[], rfl, rfl⟩
  | cons tx txs ih =>
    rw [List.mapM_cons] at h
    obtain ⟨bytes, hbytes, h⟩ := Option.bind_eq_some_iff.mp h
    obtain ⟨rest, hrest, h⟩ := Option.bind_eq_some_iff.mp h
    obtain ⟨ts, rfl, rfl⟩ := ih hrest
    obtain rfl := Option.some.inj h
    cases tx with
    | none => cases hbytes
    | some tx =>
      cases hbytes
      exact ⟨tx :: ts, rfl, rfl⟩

theorem transactionIDs_eq_some {maxTransactionsInBatch : ℤ} {txs : List (Option Transaction)}
    {txIDs : List TxID} (h : transactionIDs hash maxTransactionsInBatch txs = some txIDs) :
    ∃ ts : List Transaction, txs = ts.map some ∧ txIDs = ts.map fun tx => hash (hashed tx) := by
  rw [transactionIDs] at h
  split at h
  · cases h
  obtain ⟨data, hdata, rfl⟩ := Option.map_eq_some_iff.mp h
  obtain ⟨ts, rfl, rfl⟩ := mapM_serializeTXForHash hdata
  refine ⟨ts, rfl, ?_⟩
  simp [hashed]

/-- Transactions with the same serializations have the same contents. -/
theorem Unambiguous.map_content (hun : Unambiguous H) {txs txs' : List Transaction}
    (hmem : ∀ tx ∈ txs, tx ∈ H.txs) (hmem' : ∀ tx ∈ txs', tx ∈ H.txs)
    (h : txs.map hashed = txs'.map hashed) : txs.map content = txs'.map content := by
  induction txs generalizing txs' with
  | nil =>
    rw [List.map_eq_nil_iff.mp h.symm]
  | cons tx txs ih =>
    obtain ⟨tx', txs', rfl, hhead, htail⟩ := List.map_eq_cons_iff.mp h.symm
    obtain ⟨htx, hmem⟩ := List.forall_mem_cons.mp hmem
    obtain ⟨htx', hmem'⟩ := List.forall_mem_cons.mp hmem'
    rw [List.map_cons, List.map_cons, hun tx htx tx' htx' hhead, ih hmem hmem' htail.symm]

/-- **The identifier of a batch determines the contents** of its transactions. -/
theorem IsBatch.contents_eq {n : ℕ} (hfree : CollisionFree n hash H.strings)
    (hun : Unambiguous H) {id : Bytes} {txs txs' : List Transaction} (h : IsBatch hash H id txs)
    (h' : IsBatch hash H id txs') : txs.map content = txs'.map content := by
  refine hun.map_content h.txs_mem h'.txs_mem (hfree.eq_of_hash_digests
    (Inputs.hashed_mem h.txs_mem) (Inputs.hashed_mem h'.txs_mem) ?_ ?_ ?_)
  · rw [List.map_map]
    exact .inl h.ids_mem
  · rw [List.map_map]
    exact .inl h'.ids_mem
  · rw [List.map_map, List.map_map]
    exact h.id_eq.trans h'.id_eq.symm

end Mir.Mempool
