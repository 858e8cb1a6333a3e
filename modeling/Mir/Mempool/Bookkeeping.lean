import Mir.Mempool.FormBatches

/-!
# The counters of the mempool

The mempool counts the payload of its transactions, and the number and the payload of those that the
current iterator has not output yet. Every handler keeps the counters exact (`Exact`), except the one
that adds transactions: it stores a transaction that has already been delivered, but does not count
it. The mempool is exact in all runs in which no such transaction arrives (`bookkeeping_exact`);
otherwise the counters can become negative (`stale_transaction`).
-/

namespace Mir.Mempool

open ClientProgress (Progress)

variable {O : Type} {params : ModuleParams} {s : State O}

/-- The payload of a list of transactions. -/
def payload (txs : List (TxID × Transaction)) : ℤ := (txs.map fun e => (e.2.data.length : ℤ)).sum

@[simp] theorem payload_nil : payload [] = 0 := rfl

@[simp] theorem payload_cons (e : TxID × Transaction) (txs : List (TxID × Transaction)) :
    payload (e :: txs) = e.2.data.length + payload txs := List.sum_cons

@[simp] theorem payload_append (txs txs' : List (TxID × Transaction)) :
    payload (txs ++ txs') = payload txs + payload txs' := by
  simp [payload]

theorem payload_nonneg (txs : List (TxID × Transaction)) : 0 ≤ payload txs := by
  induction txs with
  | nil => exact le_rfl
  | cons e txs ih =>
    rw [payload_cons]
    positivity

/-- What the predicate of `cutBatch` counts. -/
theorem Cut.takeWhileM_next (params : ModuleParams) (cut : Cut)
    (rest : List (TxID × Transaction)) :
    (IndexedList.takeWhileM (Cut.next params) cut rest).2 =
      let taken := (IndexedList.takeWhileM (Cut.next params) cut rest).1
      ⟨cut.batchSize + payload taken, cut.txCount + taken.length,
        cut.numUnproposed - taken.length, cut.unproposedPayloadSize - payload taken⟩ := by
  induction rest generalizing cut with
  | nil => simp [IndexedList.takeWhileM]
  | cons e rest ih =>
    rw [IndexedList.takeWhileM]
    split
    next => simp
    next cut' hnext =>
      rw [Cut.next] at hnext
      split at hnext
      next =>
        cases hnext
        rw [ih]
        simp only [payload_cons, List.length_cons, Nat.cast_add, Nat.cast_one, Cut.mk.injEq]
        omega
      next => cases hnext

/-- The stored transactions have not been delivered, and the counters are right. -/
structure Exact (s : State O) : Prop where
  not_delivered : ∀ e ∈ s.transactions.entries,
    s.clientProgress.contains e.2.clientID e.2.txNo = false
  total : s.totalPayloadSize = payload s.transactions.entries
  position : ∃ stopped out rest, s.transactions.At s.iterator stopped out rest ∧
    s.numUnproposed = rest.length ∧ s.unproposedPayloadSize = payload rest

theorem exact_init : Exact (State.init : State O) where
  not_delivered := nofun
  total := rfl
  position := ⟨_, [], [], IndexedList.at_iterator _ 0, rfl, rfl⟩

theorem Exact.cutBatch (h : Exact s) (origin : O) : Exact (cutBatch params s origin).1 := by
  obtain ⟨stopped, out, rest, hat, hnum, hunproposed⟩ := h.position
  have hentries : (Mempool.cutBatch params s origin).1.transactions.entries =
    s.transactions.entries := (IndexedList.nextWhile_unchanged ..).1
  refine ⟨hentries.symm ▸ h.not_delivered, hentries.symm ▸ h.total, ?_⟩
  cases stopped with
  | true =>
    obtain ⟨il, hnext, hat'⟩ := hat.nextWhile_stopped (Cut.next params)
      ⟨0, 0, s.numUnproposed, s.unproposedPayloadSize⟩
    rw [Mempool.cutBatch, hnext]
    exact ⟨true, out, rest, hat', hnum, hunproposed⟩
  | false =>
    obtain ⟨il, rest', hnext, hrest, -, hat'⟩ := hat.nextWhile (Cut.next params)
      ⟨0, 0, s.numUnproposed, s.unproposedPayloadSize⟩
    have hcut := Cut.takeWhileM_next params ⟨0, 0, s.numUnproposed, s.unproposedPayloadSize⟩ rest
    rw [Mempool.cutBatch, hnext]
    refine ⟨false, _, rest', hat', ?_, ?_⟩
    · have hlength := congrArg List.length hrest
      rw [List.length_append] at hlength
      refine (congrArg Cut.numUnproposed hcut).trans ?_
      change s.numUnproposed - _ = _
      omega
    · have hpayload := congrArg payload hrest
      rw [payload_append] at hpayload
      refine (congrArg Cut.unproposedPayloadSize hcut).trans ?_
      change s.unproposedPayloadSize - _ = _
      omega

/-- `Exact` says nothing about the requests. -/
theorem exact_kept : Kept params fun _ (s : State O) _ => Exact s where
  cut h := h.cutBatch _
  store h := { h with }
  serve {origin s _ _} h _ := { (h.cutBatch origin : Exact (cutBatch params s origin).1) with }

/-- The loop of `UponNewEpoch` over the removed transactions. -/
theorem foldl_sub_payload (removed : List (TxID × Transaction)) (size : ℤ) :
    removed.foldl (fun size e => size - (e.2.data.length : ℤ)) size = size - payload removed := by
  induction removed generalizing size with
  | nil => simp
  | cons e removed ih =>
    rw [List.foldl_cons, ih, payload_cons]
    omega

theorem payload_filter (txs : List (TxID × Transaction)) (p : TxID × Transaction → Bool) :
    payload (txs.filter p) + payload (txs.filter fun e => !p e) = payload txs := by
  induction txs with
  | nil => rfl
  | cons e txs ih =>
    cases hp : p e with
    | true =>
      simp only [List.filter_cons, hp, if_true, Bool.not_true, Bool.false_eq_true, if_false,
        payload_cons]
      omega
    | false =>
      simp only [List.filter_cons, hp, if_true, Bool.not_false, Bool.false_eq_true, if_false,
        payload_cons]
      omega

/-- The delivered transactions are removed, and a new iterator starts with the others. -/
theorem startEpoch_at (s : State O) (epochNr : EpochNr)
    (clientProgress : Checkpoint.ClientProgress) :
    let progress := s.clientProgress.loadPb clientProgress
    let s' := startEpoch s epochNr clientProgress
    s'.transactions.At s'.iterator (epochNr < (s.transactions.garbageCollect epochNr).retIdx) []
      (s.transactions.entries.filter fun e => !progress.contains e.2.clientID e.2.txNo) ∧
    s'.totalPayloadSize = s.totalPayloadSize -
      payload (s.transactions.entries.filter fun e => progress.contains e.2.clientID e.2.txNo) := by
  have hat := IndexedList.at_iterator (s.transactions.garbageCollect epochNr) epochNr
  rw [IndexedList.garbageCollect_entries] at hat
  obtain ⟨hat', hremoved⟩ := hat.removeSelected fun _ tx =>
    (s.clientProgress.loadPb clientProgress).contains tx.clientID tx.txNo
  refine ⟨hat', ?_⟩
  rw [← hremoved]
  exact foldl_sub_payload _ _

theorem Exact.startEpoch (h : Exact s) (epochNr : EpochNr)
    (clientProgress : Checkpoint.ClientProgress) : Exact (startEpoch s epochNr clientProgress) := by
  obtain ⟨hat, htotal⟩ := startEpoch_at s epochNr clientProgress
  have hentries := hat.entries_eq
  rw [List.nil_append] at hentries
  have hpayload : (Mempool.startEpoch s epochNr clientProgress).totalPayloadSize =
      payload (Mempool.startEpoch s epochNr clientProgress).transactions.entries := by
    have hsplit := payload_filter s.transactions.entries fun e =>
      (s.clientProgress.loadPb clientProgress).contains e.2.clientID e.2.txNo
    rw [htotal, hentries, h.total]
    omega
  refine ⟨fun e he => ?_, hpayload, _, [], _, hat, ?_, ?_⟩
  · rw [hentries] at he
    exact Bool.not_eq_true' _ ▸ (List.mem_filter.mp he).2
  · rw [← hentries]
    exact congrArg _ (IndexedList.len_eq _)
  · rw [← hentries]
    exact hpayload

/-- The loop of `UponTransactionIDsResponse` over the added transactions. -/
theorem foldl_countAdded (added : List (TxID × Transaction)) (s : State O)
    (h : ∀ e ∈ added, s.clientProgress.contains e.2.clientID e.2.txNo = false) :
    added.foldl countAdded s =
      { s with
        totalPayloadSize := s.totalPayloadSize + payload added
        unproposedPayloadSize := s.unproposedPayloadSize + payload added
        numUnproposed := s.numUnproposed + added.length } := by
  induction added generalizing s with
  | nil => simp
  | cons e added ih =>
    obtain ⟨he, hadded⟩ := List.forall_mem_cons.mp h
    have hcount : countAdded s e =
        { s with
          totalPayloadSize := s.totalPayloadSize + e.2.data.length
          unproposedPayloadSize := s.unproposedPayloadSize + e.2.data.length
          numUnproposed := s.numUnproposed + 1 } := by
      rw [countAdded, he]
      rfl
    rw [List.foldl_cons, hcount, ih]
    · simp only [payload_cons, List.length_cons, Nat.cast_add, Nat.cast_one, State.mk.injEq,
        true_and, and_true]
      omega
    · exact hadded

/-- New transactions that have not been delivered. -/
theorem Exact.addTransactions (h : Exact s) {txs : List (TxID × Transaction)}
    (hnew : ∀ e ∈ txs, e.1 ∉ s.transactions.entries.map Prod.fst →
      s.clientProgress.contains e.2.clientID e.2.txNo = false) :
    Exact (addTransactions s txs) := by
  obtain ⟨stopped, out, rest, hat, hnum, hunproposed⟩ := h.position
  obtain ⟨hentries, hsub, hadded, -⟩ := s.transactions.append_spec txs
  have hfresh : ∀ e ∈ (s.transactions.append txs).2,
      s.clientProgress.contains e.2.clientID e.2.txNo = false := fun e he =>
    hnew e (hsub.subset he) (hadded e he)
  rw [Mempool.addTransactions,
    foldl_countAdded _ { s with transactions := (s.transactions.append txs).1 } hfresh]
  refine ⟨?_, ?_, stopped, out, _, hat.append txs, ?_, ?_⟩
  · rw [hentries]
    exact List.forall_mem_append.mpr ⟨h.not_delivered, hfresh⟩
  · rw [hentries, payload_append, ← h.total]
  · rw [List.length_append, Nat.cast_add, ← hnum]
  · rw [payload_append, ← hunproposed]

/-- No transaction that has been delivered is added. -/
def NotStale (r : Run O) : Event O → Prop
  | .transactionIDsResponse txs =>
    ∀ e ∈ txs, e.1 ∉ r.state.transactions.entries.map Prod.fst →
      r.state.clientProgress.contains e.2.clientID e.2.txNo = false
  | .newEpoch .. | .newTransactions _ | .requestBatch .. | .batchTimeout _ => True

instance (r : Run O) : ∀ event, Decidable (NotStale r event)
  | .transactionIDsResponse _ => inferInstanceAs (Decidable (∀ e ∈ _, _ → _))
  | .newEpoch .. | .newTransactions _ | .requestBatch .. | .batchTimeout _ => .isTrue trivial

theorem Run.Reachable.exact {r : Run O} (h : Reachable params NotStale r) : Exact r.state := by
  induction h with
  | init => exact exact_init
  | step _ _ hfresh hhandle ih =>
    refine exact_kept.handle (fun hstart => ?_) hhandle
    cases hstart with
    | newEpoch epochNr clientProgress => exact ih.startEpoch epochNr clientProgress
    | transactionIDsResponse => exact ih.addTransactions hfresh
    | early => exact { ih with }
    | newTransactions | due | late | batchTimeout => exact ih

/-- **The bookkeeping is exact** in every run in which no delivered transaction is added: no stored
transaction has been delivered, and the counters are the payload of all stored transactions, and the
number and the payload of those the iterator has not output. -/
theorem bookkeeping_exact {r : Run O} (h : Run.Reachable params NotStale r) :
    let stored := r.state.transactions.entries
    let unproposed := r.state.transactions.remaining r.state.iterator
    (∀ e ∈ stored, r.state.clientProgress.contains e.2.clientID e.2.txNo = false) ∧
      r.state.totalPayloadSize = payload stored ∧
      r.state.numUnproposed = unproposed.length ∧
      r.state.unproposedPayloadSize = payload unproposed ∧
      0 ≤ r.state.totalPayloadSize ∧ 0 ≤ r.state.numUnproposed ∧
      0 ≤ r.state.unproposedPayloadSize := by
  intro stored unproposed
  have hexact := h.exact
  obtain ⟨stopped, out, rest, hat, hnum, hunproposed⟩ := hexact.position
  have hrest : unproposed = rest := hat.remaining_eq
  rw [hexact.total, hnum, hunproposed, hrest]
  exact ⟨hexact.not_delivered, rfl, rfl, rfl, payload_nonneg _, Int.natCast_nonneg _,
    payload_nonneg _⟩

/-- One of two transactions is output in the second epoch. -/
theorem bookkeeping_exact_two_transactions :
    let tx : TxNo → Transaction := fun n => ⟨[99], n, 0, [1]⟩
    ∃ r : Run Unit, Run.Reachable ⟨1, 10⟩ NotStale r ∧ r.state.transactions.entries =
      [([0], tx 0), ([1], tx 1)] ∧ r.state.totalPayloadSize = 2 ∧ r.state.numUnproposed = 1 ∧
      r.state.numUnproposed = (r.state.transactions.remaining r.state.iterator).length := by
  intro tx
  obtain ⟨r, hreach, hentries, htotal, hnum⟩ := Run.exists_reachable (by decide +kernel :
    ([.newTransactions [tx 0, tx 1], .transactionIDsResponse [([0], tx 0), ([1], tx 1)],
      .newEpoch 1 ⟨∅⟩, .requestBatch 1 ()].foldlM (Run.next? ⟨1, 10⟩ NotStale) .init).any
        (fun (r : Run Unit) => r.state.transactions.entries = [([0], tx 0), ([1], tx 1)] ∧
          r.state.totalPayloadSize = 2 ∧ r.state.numUnproposed = 1) = true)
  exact ⟨r, hreach, hentries, htotal, hnum, (bookkeeping_exact hreach).2.2.1⟩

/-- A transaction arrives after it has been delivered. It is stored but not counted, and when it is
output in a batch, the counters become negative. -/
theorem stale_transaction :
    let tx : Transaction := ⟨[99], 0, 0, [1]⟩
    ∃ r : Run Unit, Run.Reachable ⟨10, 10⟩ (fun _ _ => True) r ∧
      r.state.transactions.entries = [([7], tx)] ∧
      r.state.clientProgress.contains tx.clientID tx.txNo = true ∧
      r.state.totalPayloadSize = 0 ∧ r.state.numUnproposed = -1 ∧
      r.state.unproposedPayloadSize = -1 := by
  intro tx
  exact Run.exists_reachable (by decide +kernel :
    ([.newEpoch 1 ⟨AList.singleton [99] ⟨1, []⟩⟩, .newTransactions [tx],
      .transactionIDsResponse [([7], tx)], .requestBatch 1 (), .batchTimeout 0].foldlM
        (Run.next? ⟨10, 10⟩ fun _ _ => True) .init).any (fun (r : Run Unit) =>
          r.state.transactions.entries = [([7], tx)] ∧
          r.state.clientProgress.contains tx.clientID tx.txNo = true ∧
          r.state.totalPayloadSize = 0 ∧ r.state.numUnproposed = -1 ∧
          r.state.unproposedPayloadSize = -1) = true)

end Mir.Mempool
