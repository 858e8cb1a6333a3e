import Mir.Checkpoint.Serializing
import Mir.Mempool.ComputeIDs
import Mir.Util.IndexedList

/-!
# Whose transactions have identifiers of their own

The bytes that are hashed for a transaction begin with the identifier of the client, of any length,
and go on with the number of the transaction. If a client's identifier begins with that of another
one, the first bytes behind the shorter identifier can be read as a number: the two clients have
transactions with the same bytes (`exists_hashed_eq`). `identified_iff` says that this is the only way:
transactions are determined by their bytes, and the mempool keeps all of them, exactly if no client's
identifier begins with another client's.
-/

namespace Mir.Mempool

open Checkpoint (ClientID)

/-- No identifier begins with another one. -/
def PrefixFree (clients : Set ClientID) : Prop :=
  ∀ c ∈ clients, ∀ c' ∈ clients, c <+: c' → c = c'

/-- The transactions of the given clients are determined by the bytes that are hashed for them, and,
if there are no collisions among the hashes, none is dropped from the mempool as a duplicate of a
different one: what is appended under its identifier is there afterwards, with its content. -/
structure Identified (clients : Set ClientID) : Prop where
  determined : ∀ tx tx' : Transaction, tx.clientID ∈ clients → tx'.clientID ∈ clients →
    ∀ data data', serializeTXForHash (some tx) = some data →
      serializeTXForHash (some tx') = some data' → data.flatten = data'.flatten →
      content tx = content tx'
  kept : ∀ (hash : Bytes → Bytes) (H : Set Bytes), Set.InjOn hash H →
    ∀ stored : IndexedList TxID Transaction,
      (∀ e ∈ stored.entries, e.1 = hash (hashed e.2) ∧ hashed e.2 ∈ H ∧ e.2.clientID ∈ clients) →
    ∀ (maxTransactionsInBatch : ℤ) (txs : List Transaction) (txIDs : List TxID),
      (∀ tx ∈ txs, hashed tx ∈ H ∧ tx.clientID ∈ clients) →
      transactionIDs hash maxTransactionsInBatch (txs.map some) = some txIDs →
    ∀ tx ∈ txs, ∃ e ∈ (stored.append (txIDs.zip txs)).1.entries, content e.2 = content tx

variable {clients : Set ClientID}

/-! ### Prefix-free identifiers -/

theorem flatten_serializeTXForHash {tx : Transaction} {data : List Bytes}
    (h : serializeTXForHash (some tx) = some data) : data.flatten = hashed tx := by
  cases h
  simp [hashed]

/-- **The bytes determine a transaction** among those of clients with prefix-free identifiers. -/
theorem PrefixFree.content_eq (h : PrefixFree clients) {tx tx' : Transaction}
    (htx : tx.clientID ∈ clients) (htx' : tx'.clientID ∈ clients) (heq : hashed tx = hashed tx') :
    content tx = content tx' := by
  -- both identifiers begin the same bytes, so one of them begins the other
  have hclient : tx.clientID = tx'.clientID := by
    have hpre : tx.clientID <+: hashed tx' := heq ▸ List.prefix_append _ _
    rcases List.prefix_or_prefix_of_prefix hpre (List.prefix_append _ _) with hle | hle
    · exact h _ htx _ htx' hle
    · exact (h _ htx' _ htx hle).symm
  rw [hashed, hashed, hclient] at heq
  obtain ⟨hno, hdata⟩ := List.append_inj (List.append_cancel_left heq) (by simp)
  rw [content, content, hclient, uint64ToBytes_injective hno, hdata]

/-- The entries the mempool appends are the transactions under their identifiers. -/
theorem mem_zip_transactionIDs {hash : Bytes → Bytes} {maxTransactionsInBatch : ℤ}
    {txs : List Transaction} {txIDs : List TxID}
    (h : transactionIDs hash maxTransactionsInBatch (txs.map some) = some txIDs)
    {e : TxID × Transaction} :
    e ∈ txIDs.zip txs ↔ e.2 ∈ txs ∧ e.1 = hash (hashed e.2) := by
  obtain ⟨txs', htxs, rfl⟩ := transactionIDs_eq_some h
  obtain rfl : txs = txs' := List.map_injective_iff.mpr (Option.some_injective _) htxs
  have hzip : (txs.map fun tx => hash (hashed tx)).zip txs =
      txs.map fun tx => (hash (hashed tx), tx) := by
    simpa using List.zip_map' (f := fun tx => hash (hashed tx)) (g := id) (l := txs)
  rw [hzip, List.mem_map]
  constructor
  · rintro ⟨tx, htx, rfl⟩
    exact ⟨htx, rfl⟩
  · rintro ⟨htx, hid⟩
    exact ⟨e.2, htx, Prod.ext hid.symm rfl⟩

theorem PrefixFree.identified (h : PrefixFree clients) : Identified clients := by
  refine ⟨fun tx tx' htx htx' data data' hdata hdata' heq => ?_,
    fun hash H hinj stored hstored max txs txIDs htxs hids tx htx => ?_⟩
  · rw [flatten_serializeTXForHash hdata, flatten_serializeTXForHash hdata'] at heq
    exact h.content_eq htx htx' heq
  · -- the identifier is present; the entry that has it is an old one or one of those appended
    have hitem : (hash (hashed tx), tx) ∈ txIDs.zip txs :=
      (mem_zip_transactionIDs hids).mpr ⟨htx, rfl⟩
    obtain ⟨hentries, hsub, -, hall⟩ := stored.append_spec (txIDs.zip txs)
    obtain ⟨e, he, hkey⟩ := List.mem_map.mp (hall _ hitem)
    have hkeyed : e.1 = hash (hashed e.2) ∧ hashed e.2 ∈ H ∧ e.2.clientID ∈ clients := by
      rw [hentries] at he
      rcases List.mem_append.mp he with hold | hnew
      · exact hstored e hold
      · obtain ⟨hmem, hid⟩ := (mem_zip_transactionIDs hids).mp (hsub.subset hnew)
        exact ⟨hid, htxs e.2 hmem⟩
    have hbytes : hashed e.2 = hashed tx :=
      hinj hkeyed.2.1 (htxs tx htx).1 (hkeyed.1.symm.trans hkey)
    exact ⟨e, he, h.content_eq hkeyed.2.2 (htxs tx htx).2 hbytes⟩

/-! ### Identifiers that begin with one another -/

/-- If the identifier of a client begins with that of another one, every transaction of the former
has the same bytes as a transaction of the latter. -/
theorem exists_hashed_eq {c : ClientID} {tx : Transaction} (hc : c <+: tx.clientID) :
    ∃ tx', tx'.clientID = c ∧ hashed tx' = hashed tx := by
  obtain ⟨s, hs⟩ := hc
  -- the number is read from the eight bytes behind the shorter identifier
  let behind := s ++ (uint64ToBytes tx.txNo ++ tx.data)
  have hlength : (behind.take 8).length = 8 := by
    simp only [behind, List.length_take, List.length_append, length_uint64ToBytes]
    omega
  obtain ⟨n, hn⟩ := exists_uint64ToBytes hlength
  refine ⟨⟨c, n, 0, behind.drop 8⟩, rfl, ?_⟩
  rw [hashed, hn, List.take_append_drop, hashed, ← hs, List.append_assoc]

/-- **Transactions have identifiers of their own**, and the mempool keeps all of them, exactly if no
client's identifier begins with another client's. -/
theorem identified_iff (clients : Set ClientID) : Identified clients ↔ PrefixFree clients := by
  refine ⟨fun h c hc c' hc' hpre => ?_, PrefixFree.identified⟩
  obtain ⟨tx, hclient, hbytes⟩ : ∃ tx, tx.clientID = c ∧ hashed tx = hashed ⟨c', 0, 0, []⟩ :=
    exists_hashed_eq hpre
  have heq := h.determined tx ⟨c', 0, 0, []⟩ (hclient.symm ▸ hc) hc' _ _ rfl rfl (by
    rw [flatten_serializeTXForHash rfl, flatten_serializeTXForHash rfl, hbytes])
  exact hclient.symm.trans (Prod.mk.inj heq).1

/-- The first transaction of client `a`, with a zero byte as its data, has the same bytes as that of
the client with a zero byte behind the `a`, without data. -/
theorem hashed_colliding : hashed ⟨[97], 0, 0, [0]⟩ = hashed ⟨[97, 0], 0, 0, []⟩ := by
  decide

/-- **Transactions of arbitrary clients are not determined by their bytes.** -/
theorem not_identified_univ : ¬ Identified Set.univ := by
  intro h
  have heq := h.determined ⟨[97], 0, 0, [0]⟩ ⟨[97, 0], 0, 0, []⟩ trivial trivial _ _ rfl rfl (by
    rw [flatten_serializeTXForHash rfl, flatten_serializeTXForHash rfl, hashed_colliding])
  exact absurd heq (by decide)

end Mir.Mempool
