import Mir.Mempool.Bookkeeping

/-!
# Order, limits and requests of batches

In runs with increasing epoch numbers the batches of an epoch are consecutive pieces of the list of
stored transactions (`Forming`), the pending requests are indexed without gaps at the front
(`Indexed`), and no request is kept or answered twice (`Accounted`). Together with the limits of a
batch this is `batch_formation`. Only a negative limit on the payload is exceeded, by the empty batch:
`negative_limit`.
-/

namespace Mir.Mempool

variable {O : Type} {params : ModuleParams} {s s' : State O} {out₀ o : List (Output O)}
  (htxs : 1 ≤ params.maxTransactionsInBatch) (hpayload : 0 ≤ params.maxPayloadInBatch)

/-! ### Batches are consecutive pieces of the list -/

/-- The transactions in an output. -/
def Output.txs : Output O → List (TxID × Transaction)
  | .newBatch txs _ => txs
  | .requestTransactionIDs _ | .timerDelay _ => []

/-- The request that is answered. -/
def Output.answered? : Output O → Option O
  | .newBatch _ origin => some origin
  | .requestTransactionIDs _ | .timerDelay _ => none

/-- The transactions in the batches, in the order of output. -/
def emitted (out : List (Output O)) : List (TxID × Transaction) := out.flatMap Output.txs

theorem emitted_append (out out' : List (Output O)) :
    emitted (out ++ out') = emitted out ++ emitted out' := List.flatMap_append

theorem emitted_newBatch (txs : List (TxID × Transaction)) (origin : O) :
    emitted [.newBatch txs origin] = txs := by simp [emitted, Output.txs]

/-- A batch respects the limits. -/
def WithinLimits (params : ModuleParams) (txs : List (TxID × Transaction)) : Prop :=
  txs.length ≤ params.maxTransactionsInBatch ∧ payload txs ≤ params.maxPayloadInBatch

/-- The predicate of `cutBatch` respects limits that are not exceeded from the start. -/
theorem Cut.withinLimits (cut : Cut) (rest : List (TxID × Transaction))
    (hcount : cut.txCount ≤ params.maxTransactionsInBatch)
    (hsize : cut.batchSize ≤ params.maxPayloadInBatch) :
    (IndexedList.takeWhileM (Cut.next params) cut rest).2.txCount ≤
        params.maxTransactionsInBatch ∧
      (IndexedList.takeWhileM (Cut.next params) cut rest).2.batchSize ≤
        params.maxPayloadInBatch := by
  induction rest generalizing cut with
  | nil => exact ⟨hcount, hsize⟩
  | cons e rest ih =>
    rw [IndexedList.takeWhileM]
    split
    next => exact ⟨hcount, hsize⟩
    next cut' hnext =>
      rw [Cut.next] at hnext
      split at hnext
      next hfits =>
        cases hnext
        exact ih _ (Int.add_one_le_iff.mpr hfits.1) hfits.2
      next => cases hnext

/-- The first transaction fits into an empty batch, so it is taken. -/
theorem Cut.ne_nil (htxs : 1 ≤ params.maxTransactionsInBatch) {cut : Cut} (hcount : cut.txCount = 0)
    (hsize : cut.batchSize = 0) {rest : List (TxID × Transaction)} (hrest : rest ≠ [])
    (hfits : ∀ e ∈ rest, (e.2.data.length : ℤ) ≤ params.maxPayloadInBatch) :
    (IndexedList.takeWhileM (Cut.next params) cut rest).1 ≠ [] := by
  obtain ⟨e, rest, rfl⟩ := List.exists_cons_of_ne_nil hrest
  have hnext : Cut.next params cut e.1 e.2 = some ⟨cut.batchSize + e.2.data.length,
      cut.txCount + 1, cut.numUnproposed - 1, cut.unproposedPayloadSize - e.2.data.length⟩ := by
    have he := hfits e List.mem_cons_self
    exact if_pos ⟨by omega, by omega⟩
  rw [IndexedList.takeWhileM, hnext]
  exact List.cons_ne_nil _ _

/-- An output respects the limits: identifiers are only requested for transactions that fit into a
batch. -/
def Output.WithinLimits (params : ModuleParams) : Output O → Prop
  | .newBatch txs _ => Mempool.WithinLimits params txs
  | .requestTransactionIDs txs => ∀ tx ∈ txs, (tx.data.length : ℤ) ≤ params.maxPayloadInBatch
  | .timerDelay _ => True

/-- What holds while batches are cut after `out₀`: the iterator is where the output ends, and all new
output `o` respects the limits, where a batch takes something if there is something left. -/
structure Forming (params : ModuleParams) (out₀ : List (Output O)) (s : State O)
    (o : List (Output O)) : Prop where
  position : ∃ rest, s.transactions.At s.iterator false (emitted (out₀ ++ o)) rest
  fits : ∀ e ∈ s.transactions.entries, (e.2.data.length : ℤ) ≤ params.maxPayloadInBatch
  limits : ∀ x ∈ o, x.WithinLimits params
  nonempty : ∀ pre txs origin post, o = pre ++ .newBatch txs origin :: post →
    (emitted (out₀ ++ pre)).length < s.transactions.entries.length → txs ≠ []

/-- A new output at the end. -/
theorem append_singleton_eq {x y : Output O} {pre post : List (Output O)}
    (h : o ++ [x] = pre ++ y :: post) : (pre = o ∧ y = x) ∨ ∃ post', o = pre ++ y :: post' := by
  rcases List.eq_nil_or_concat post with rfl | ⟨post', z, rfl⟩
  · obtain ⟨rfl, hx⟩ := List.append_inj' h rfl
    exact .inl ⟨rfl, (List.cons.inj hx).1.symm⟩
  · rw [List.concat_eq_append, ← List.cons_append, ← List.append_assoc] at h
    exact .inr ⟨post', (List.append_inj' h rfl).1⟩

include htxs hpayload in
/-- **A batch is the next piece of the list**, within the limits, and not empty if there is something
left. -/
theorem Forming.cutBatch (h : Forming params out₀ s o) (origin : O) :
    Forming params out₀ (cutBatch params s origin).1 (o ++ (cutBatch params s origin).2) := by
  obtain ⟨rest, hat⟩ := h.position
  let cut : Cut := ⟨0, 0, s.numUnproposed, s.unproposedPayloadSize⟩
  let taken := (IndexedList.takeWhileM (Cut.next params) cut rest).1
  obtain ⟨il, rest', hnext, hrest, hentries, hat'⟩ := hat.nextWhile (Cut.next params) cut
  have hcut := Cut.takeWhileM_next params cut rest
  have hlimits := Cut.withinLimits cut rest (by omega : (0 : ℤ) ≤ _) hpayload
  have htaken : WithinLimits params taken := by
    rw [hcut] at hlimits
    simpa [cut, WithinLimits] using hlimits
  rw [Mempool.cutBatch, hnext]
  refine ⟨⟨rest', ?_⟩, ?_, ?_, ?_⟩
  · rw [← List.append_assoc, emitted_append, emitted_newBatch]
    exact hat'
  · rw [hentries]
    exact h.fits
  · exact List.forall_mem_append.mpr ⟨h.limits, List.forall_mem_singleton.mpr htaken⟩
  · intro pre txs origin' post heq hlt
    rw [hentries] at hlt
    rcases append_singleton_eq heq with ⟨rfl, hbatch⟩ | ⟨post', hold⟩
    · cases hbatch
      refine Cut.ne_nil htxs rfl rfl ?_ fun e he => h.fits e ?_
      · rintro rfl
        rw [hat.entries_eq, List.append_nil] at hlt
        exact lt_irrefl _ hlt
      · rw [hat.entries_eq]
        exact List.mem_append_right _ he
    · exact h.nonempty pre txs origin' post' hold hlt

/-- Other output than batches. -/
theorem Forming.other (h : Forming params out₀ s o) {x : Output O} (hx : x.answered? = none)
    (hlimits : x.WithinLimits params) : Forming params out₀ s (o ++ [x]) := by
  refine ⟨?_, h.fits, ?_, fun pre txs origin' post heq hlt => ?_⟩
  · have htxs : emitted [x] = [] := by
      cases x with
      | newBatch => cases hx
      | requestTransactionIDs | timerDelay => rfl
    rw [← List.append_assoc, emitted_append, htxs, List.append_nil]
    exact h.position
  · exact List.forall_mem_append.mpr ⟨h.limits, List.forall_mem_singleton.mpr hlimits⟩
  · rcases append_singleton_eq heq with ⟨-, hbatch⟩ | ⟨post', hold⟩
    · cases hbatch
      cases hx
    · exact h.nonempty pre txs origin' post' hold hlt

/-- Nothing has been output since `out₀`. -/
theorem forming_nil {rest : List (TxID × Transaction)}
    (hat : s.transactions.At s.iterator false (emitted out₀) rest)
    (hfits : ∀ e ∈ s.transactions.entries, (e.2.data.length : ℤ) ≤ params.maxPayloadInBatch) :
    Forming params out₀ s [] where
  position := ⟨rest, by rwa [List.append_nil]⟩
  fits := hfits
  limits := nofun
  nonempty pre txs origin post heq := by simp at heq

/-! ### The indices of pending requests -/

/-- All pending requests have indices from `FirstPendingBatchReqID` to `NextPendingBatchReqID`, and the
first one is present unless there is none. -/
structure Indexed (s : State O) : Prop where
  bounds : ∀ k ∈ s.pendingBatchRequests.keys,
    s.firstPendingBatchReqID ≤ k ∧ k < s.nextPendingBatchReqID
  first : s.firstPendingBatchReqID = s.nextPendingBatchReqID ∨
    s.firstPendingBatchReqID ∈ s.pendingBatchRequests.keys

/-- The loop of `servePendingReq` stops at the first request that is present, or at the end. -/
theorem advanceFirst_spec (pending : GoMap ℕ O) {next fuel first : ℕ} (hle : first ≤ next)
    (hfuel : next - first ≤ fuel) :
    let first' := advanceFirst pending next fuel first
    first ≤ first' ∧ (first' = next ∨ first' ∈ pending.keys) ∧
      ∀ k ∈ pending.keys, first ≤ k → first' ≤ k := by
  induction fuel generalizing first with
  | zero => exact ⟨le_rfl, .inl (by rw [advanceFirst]; omega), fun _ _ => id⟩
  | succ fuel ih =>
    rw [advanceFirst]
    split
    next hskip =>
      have hle' : first + 1 ≤ next := hskip.2
      have hfuel' : next - (first + 1) ≤ fuel := by omega
      obtain ⟨hge, hstop, hmin⟩ := ih hle' hfuel'
      refine ⟨by omega, hstop, fun k hk hfirst => hmin k hk ?_⟩
      have hne : first ≠ k := fun heq => hskip.1 (heq ▸ hk)
      omega
    next hstop =>
      refine ⟨le_rfl, ?_, fun _ _ => id⟩
      rcases not_and_or.mp hstop with hmem | hlt
      · exact .inr (not_not.mp hmem)
      · exact .inl (by omega)

theorem Indexed.le (h : Indexed s) : s.firstPendingBatchReqID ≤ s.nextPendingBatchReqID := by
  rcases h.first with heq | hmem
  · exact heq.le
  · exact (h.bounds _ hmem).2.le

theorem Indexed.next_notMem (h : Indexed s) :
    s.nextPendingBatchReqID ∉ s.pendingBatchRequests.keys := fun hmem =>
  lt_irrefl _ (h.bounds _ hmem).2

theorem indexed_init : Indexed (State.init : State O) where
  bounds := nofun
  first := .inl rfl

theorem Indexed.serve (h : Indexed s) (reqID : ℕ) (origin : O) :
    Indexed (served params s reqID origin) := by
  obtain ⟨-, hstop, hmin⟩ := advanceFirst_spec (s.pendingBatchRequests.erase reqID) h.le le_rfl
  have hkeys : ∀ k ∈ (s.pendingBatchRequests.erase reqID).keys, k ∈ s.pendingBatchRequests.keys := by
    intro k hk
    rw [← AList.mem_keys, AList.mem_erase] at hk
    exact hk.2
  exact ⟨fun k hk => ⟨hmin k hk (h.bounds k (hkeys k hk)).1, (h.bounds k (hkeys k hk)).2⟩, hstop⟩

theorem Indexed.store (h : Indexed s) (origin : O) : Indexed (storePendingRequest s origin).1 := by
  refine ⟨fun k hk => ?_, .inr (GoMap.mem_keys_insert.mpr h.first)⟩
  rcases GoMap.mem_keys_insert.mp hk with rfl | hk
  · exact ⟨h.le, Nat.lt_succ_self _⟩
  · exact ⟨(h.bounds k hk).1, Nat.lt_succ_of_lt (h.bounds k hk).2⟩

/-- **No batch is cut for a missing request**: the loop of `UponTransactionIDsResponse` completes, and
only ends when there is no full batch or no pending request. -/
theorem serveFullBatches_completes {fuel : ℕ} (h : Indexed s)
    (hfuel : s.nextPendingBatchReqID - s.firstPendingBatchReqID ≤ fuel) :
    ∃ s' o, serveFullBatches params fuel s = .ok (s', o) ∧
      ¬ (haveFullBatch params s' ∧ s'.firstPendingBatchReqID < s'.nextPendingBatchReqID) := by
  induction fuel generalizing s with
  | zero => exact ⟨s, [], rfl, fun hmore => by omega⟩
  | succ fuel ih =>
    rw [serveFullBatches]
    split
    next hmore =>
      have hmem := h.first.resolve_left hmore.2.ne
      obtain ⟨origin, horigin⟩ := GoMap.mem_keys_iff.mp hmem
      let s₁ := served params s s.firstPendingBatchReqID origin
      have hserve : servePendingReq params s s.firstPendingBatchReqID =
          .ok (s₁, (cutBatch params s origin).2) :=
        servePendingReq_eq_ok_iff.mpr ⟨origin, horigin, rfl, rfl⟩
      obtain ⟨hge, hstop, -⟩ := advanceFirst_spec
        (s.pendingBatchRequests.erase s.firstPendingBatchReqID) h.le le_rfl
      -- the served request is gone, so the first one is a later one
      have hlt : s.firstPendingBatchReqID < s₁.firstPendingBatchReqID := by
        refine lt_of_le_of_ne hge fun heq => ?_
        rcases hstop with hnext | hmem'
        · exact hmore.2.ne (heq.trans hnext)
        · rw [← AList.mem_keys, AList.mem_erase] at hmem'
          exact hmem'.1 heq.symm
      have hfuel' : s₁.nextPendingBatchReqID - s₁.firstPendingBatchReqID ≤ fuel := by
        have hnext : s₁.nextPendingBatchReqID = s.nextPendingBatchReqID := rfl
        omega
      obtain ⟨s', o, hrest, hdone⟩ := ih (h.serve _ origin) hfuel'
      refine ⟨s', (cutBatch params s origin).2 ++ o, ?_, hdone⟩
      rw [hserve, Fallible.ok_bind, hrest]
      rfl
    next hdone => exact ⟨s, [], rfl, hdone⟩

/-! ### Requests are answered once -/

/-- The request in an event. -/
def Event.requested? : Event O → Option O
  | .requestBatch _ origin => some origin
  | .newEpoch .. | .newTransactions _ | .transactionIDsResponse _ | .batchTimeout _ => none

/-- The pending requests. -/
def State.pending (s : State O) : List O :=
  s.pendingBatchRequests.entries.map fun e : (_ : ℕ) × O => e.2

/-- The requests for later epochs than the given one. -/
def later (epoch : EpochNr) (entries : List ((_ : EpochNr) × List O)) : List O :=
  (entries.filter fun e => decide (epoch < e.1)).flatMap fun e => e.2

theorem later_cons (epoch : EpochNr) (e : (_ : EpochNr) × List O)
    (entries : List ((_ : EpochNr) × List O)) :
    later epoch (e :: entries) = (if epoch < e.1 then e.2 else []) ++ later epoch entries := by
  rw [later, List.filter_cons]
  split
  next h =>
    rw [if_pos (of_decide_eq_true h)]
    rfl
  next h =>
    rw [if_neg fun hlt => h (decide_eq_true hlt)]
    rfl

theorem later_perm (epoch : EpochNr) {entries entries' : List ((_ : EpochNr) × List O)}
    (h : entries.Perm entries') : (later epoch entries).Perm (later epoch entries') :=
  (h.filter _).flatMap_right _

/-- There are fewer requests for epochs after a later one. -/
theorem later_sublist {epoch epoch' : EpochNr} (h : epoch ≤ epoch')
    (entries : List ((_ : EpochNr) × List O)) :
    (later epoch' entries).Sublist (later epoch entries) := by
  induction entries with
  | nil => exact List.Sublist.refl _
  | cons e entries ih =>
    rw [later_cons, later_cons]
    refine List.Sublist.append ?_ ih
    split
    next hlt =>
      rw [if_pos (UInt64.lt_of_le_of_lt h hlt)]
    next => exact List.nil_sublist _

/-- The requests for one epoch, and the others. -/
theorem later_perm_erase (early : GoMap EpochNr (List O)) (epoch epoch' : EpochNr) :
    (later epoch early.entries).Perm
      ((if epoch < epoch' then (early.lookup epoch').getD [] else []) ++
        later epoch (early.erase epoch').entries) := by
  cases hlookup : early.lookup epoch' with
  | none =>
    have hnot : epoch' ∉ early := AList.lookup_eq_none.mp hlookup
    have herase : (early.erase epoch').entries = early.entries := List.kerase_of_notMem_keys hnot
    rw [herase, Option.getD_none, ite_self]
    exact List.Perm.refl _
  | some origins =>
    have hperm := later_perm epoch (GoMap.entries_perm_erase hlookup)
    rwa [later_cons] at hperm

/-- The requests for later epochs. -/
def State.early (s : State O) : List O := later s.epoch s.earlyBatchRequests.entries

/-- The answered requests, the ones that are about to be handled, the pending ones and those for later
epochs are among the requests that were made, with multiplicity. -/
def Accounted (requested : List O) (waiting : List O) (s : State O) (out : List (Output O)) : Prop :=
  (out.filterMap Output.answered? ++ waiting ++ s.pending ++ s.early).Subperm requested

section Accounted

variable {requested waiting : List O} {out : List (Output O)} {origin : O}

theorem accounted_iff [DecidableEq O] : Accounted requested waiting s out ↔ ∀ a,
    (out.filterMap Output.answered?).count a + waiting.count a + s.pending.count a +
      s.early.count a ≤ requested.count a := by
  rw [Accounted, List.subperm_iff_count]
  simp only [List.count_append]

theorem answered_cutBatch (out : List (Output O)) (origin : O) :
    (out ++ (cutBatch params s origin).2).filterMap Output.answered? =
      out.filterMap Output.answered? ++ [origin] := List.filterMap_append

theorem answered_other {x : Output O} (h : x.answered? = none) :
    (out ++ [x]).filterMap Output.answered? = out.filterMap Output.answered? := by
  simp [h]

theorem Accounted.cut (h : Accounted requested (origin :: waiting) s out) : Accounted requested
    waiting (cutBatch params s origin).1 (out ++ (cutBatch params s origin).2) := by
  rw [Accounted, answered_cutBatch, List.append_assoc _ [origin]]
  exact h

theorem Accounted.serve (h : Accounted requested waiting s out) {reqID : ℕ}
    (horigin : s.pendingBatchRequests.lookup reqID = some origin) : Accounted requested waiting
      (served params s reqID origin) (out ++ (cutBatch params s origin).2) := by
  classical
  have hpending : s.pending.Perm (origin :: (served params s reqID origin).pending) :=
    (GoMap.entries_perm_erase horigin).map fun e : (_ : ℕ) × O => e.2
  rw [accounted_iff] at h ⊢
  intro a
  have ha := h a
  have hcount := hpending.count_eq a
  change _ + _ + _ + s.early.count a ≤ _
  rw [answered_cutBatch, List.count_append, List.count_singleton]
  rw [List.count_cons] at hcount
  omega

theorem Accounted.store (h : Accounted requested (origin :: waiting) s out)
    (hindexed : Indexed s) : Accounted requested waiting (storePendingRequest s origin).1
      (out ++ [.timerDelay (storePendingRequest s origin).2]) := by
  classical
  have hpending : (storePendingRequest s origin).1.pending = origin :: s.pending :=
    congrArg (List.map fun e : (_ : ℕ) × O => e.2)
      (AList.entries_insert_of_notMem hindexed.next_notMem)
  rw [accounted_iff] at h ⊢
  intro a
  have ha := h a
  rw [answered_other rfl, hpending]
  change _ + _ + _ + s.early.count a ≤ _
  rw [List.count_cons] at ha ⊢
  omega

/-- A request for a later epoch. -/
theorem Accounted.buffer (h : Accounted requested waiting s out) {epoch : EpochNr}
    (hlater : s.epoch < epoch) (origin : O) : Accounted (requested ++ [origin]) waiting
      { s with
        earlyBatchRequests := s.earlyBatchRequests.insert epoch
          ((s.earlyBatchRequests.lookup epoch).getD [] ++ [origin]) } out := by
  classical
  have hold := later_perm_erase s.earlyBatchRequests s.epoch epoch
  rw [if_pos hlater] at hold
  generalize (s.earlyBatchRequests.lookup epoch).getD [] = origins at hold ⊢
  have hnew : later s.epoch (s.earlyBatchRequests.insert epoch (origins ++ [origin])).entries =
      origins ++ [origin] ++ later s.epoch (s.earlyBatchRequests.erase epoch).entries := by
    rw [AList.entries_insert, later_cons, if_pos hlater]
    rfl
  rw [accounted_iff] at h ⊢
  intro a
  have ha := h a
  have hcount := hold.count_eq a
  change _ + _ + s.pending.count a + (later s.epoch (AList.entries _)).count a ≤ _
  rw [hnew, List.count_append, List.count_append, List.count_append]
  rw [List.count_append] at hcount
  change s.early.count a = _ at hcount
  omega

/-- The requests for a new epoch are to be handled now. -/
theorem Accounted.startEpoch (h : Accounted requested [] s out) {epochNr : EpochNr}
    (clientProgress : Checkpoint.ClientProgress)
    (hnew : s.epoch < epochNr ∨ s.epoch = epochNr ∧ s.earlyBatchRequests.lookup epochNr = none) :
    let s' := startEpoch s epochNr clientProgress
    Accounted requested ((s'.earlyBatchRequests.lookup epochNr).getD []) s' out := by
  classical
  intro s'
  have hlookup : s'.earlyBatchRequests.lookup epochNr = s.earlyBatchRequests.lookup epochNr := by
    refine Option.ext fun origins => GoMap.lookup_filterKeys_eq_some.trans ?_
    simp
  have hearly : s'.early = later epochNr s.earlyBatchRequests.entries := by
    have hfilter : s'.earlyBatchRequests.entries =
        s.earlyBatchRequests.entries.filter fun e => decide (epochNr ≤ e.1) := rfl
    rw [State.early, hfilter, later, later, List.filter_filter]
    congr 2
    funext e
    rw [← Bool.decide_and]
    exact decide_eq_decide.mpr ⟨And.left, fun hlt => ⟨hlt, UInt64.le_of_lt hlt⟩⟩
  rw [accounted_iff] at h ⊢
  intro a
  have ha := h a
  rw [hlookup, hearly]
  change _ + _ + s.pending.count a + _ ≤ _
  rcases hnew with hlt | ⟨heq, hnone⟩
  · have hold := (later_perm_erase s.earlyBatchRequests s.epoch epochNr).count_eq a
    have hrest := (later_perm_erase s.earlyBatchRequests epochNr epochNr).count_eq a
    have hsub := (later_sublist (UInt64.le_of_lt hlt)
      (s.earlyBatchRequests.erase epochNr).entries).count_le a
    rw [if_pos hlt, List.count_append] at hold
    rw [if_neg (UInt64.lt_irrefl _), List.nil_append] at hrest
    change s.early.count a = _ at hold
    rw [List.count_nil] at ha
    omega
  · rw [hnone, ← heq]
    exact ha

/-- A new request, which may be dropped. -/
theorem Accounted.request (h : Accounted requested waiting s out) (origin : O) :
    Accounted (requested ++ [origin]) waiting s out :=
  h.trans (List.sublist_append_left _ _).subperm

/-- A new request that is to be handled. -/
theorem Accounted.handle (h : Accounted requested [] s out) (origin : O) :
    Accounted (requested ++ [origin]) [origin] s out := by
  classical
  rw [accounted_iff] at h ⊢
  intro a
  have ha := h a
  rw [List.count_append]
  rw [List.count_nil] at ha
  omega

end Accounted

/-! ### Whole runs -/

/-- The number of a new epoch. -/
def Event.newEpoch? : Event O → Option EpochNr
  | .newEpoch epochNr _ => some epochNr
  | .newTransactions _ | .transactionIDsResponse _ | .requestBatch .. | .batchTimeout _ => none

/-- The transactions that arrive, with their identifiers. -/
def Event.arrived : Event O → List (TxID × Transaction)
  | .transactionIDsResponse txs => txs
  | .newEpoch .. | .newTransactions _ | .requestBatch .. | .batchTimeout _ => []

/-- The numbers of `NewEpoch` events are strictly increasing. -/
def Increasing (r : Run O) : Event O → Prop
  | .newEpoch epochNr _ => ∀ e ∈ r.events.filterMap Event.newEpoch?, e < epochNr
  | .newTransactions _ | .transactionIDsResponse _ | .requestBatch .. | .batchTimeout _ => True

instance (r : Run O) : ∀ event, Decidable (Increasing r event)
  | .newEpoch epochNr _ => List.decidableBAll (fun e => e < epochNr) _
  | .newTransactions _ | .transactionIDsResponse _ | .requestBatch .. | .batchTimeout _ =>
    .isTrue trivial

/-- What was output in the epoch when an event arrives. -/
def Run.epochStart (r : Run O) : Event O → List (Output O)
  | .newEpoch .. => []
  | .newTransactions _ | .transactionIDsResponse _ | .requestBatch .. | .batchTimeout _ => r.epochOut

theorem Run.after_epochOut (r : Run O) (event : Event O) (state : State O) (out : List (Output O)) :
    (r.after event state out).epochOut = r.epochStart event ++ out := by
  cases event <;> rfl

/-- The stored transactions, the epoch and the requests for later epochs come from the events. -/
structure Stored (events : List (Event O)) (s : State O) : Prop where
  arrived : s.transactions.entries.Sublist (events.flatMap Event.arrived)
  retIdx : s.transactions.retIdx ≤ s.epoch
  epoch : s.epoch = 0 ∨ s.epoch ∈ events.filterMap Event.newEpoch?
  early : ∀ k ∈ s.earlyBatchRequests.keys, 0 < k

section Stored

variable {events : List (Event O)}

theorem Stored.cut (h : Stored events s) (origin : O) :
    Stored events (cutBatch params s origin).1 := by
  obtain ⟨hentries, hretIdx⟩ := s.transactions.nextWhile_unchanged s.iterator (Cut.next params)
    ⟨0, 0, s.numUnproposed, s.unproposedPayloadSize⟩
  exact ⟨hentries.symm ▸ h.arrived, hretIdx.symm ▸ h.retIdx, h.epoch, h.early⟩

/-- Any other event. -/
theorem Stored.mono (h : Stored events s) (event : Event O) : Stored (events ++ [event]) s := by
  refine ⟨?_, h.retIdx, h.epoch.imp_right fun hmem => ?_, h.early⟩
  · rw [List.flatMap_append]
    exact h.arrived.trans (List.sublist_append_left _ _)
  · rw [List.filterMap_append]
    exact List.mem_append_left _ hmem

/-- The epochs increase, except that the first one may be the initial one, for which no request is
kept. -/
theorem Stored.newEpoch (h : Stored events s) {epochNr : EpochNr}
    (hincreasing : ∀ e ∈ events.filterMap Event.newEpoch?, e < epochNr) :
    s.epoch < epochNr ∨ s.epoch = epochNr ∧ s.earlyBatchRequests.lookup epochNr = none := by
  rcases h.epoch with hzero | hmem
  · rcases eq_or_ne epochNr 0 with rfl | hne
    · refine .inr ⟨hzero, AList.lookup_eq_none.mpr fun hmem => ?_⟩
      exact UInt64.lt_irrefl _ (h.early 0 hmem)
    · rw [hzero]
      exact .inl (UInt64.pos_iff_ne_zero.mpr hne)
  · exact .inl (hincreasing _ hmem)

/-- The iterator of a new epoch is not stopped and starts with all stored transactions that are
kept. -/
theorem startEpoch_position {epochNr : EpochNr} (hretIdx : s.transactions.retIdx ≤ epochNr)
    (clientProgress : Checkpoint.ClientProgress) :
    let s' := startEpoch s epochNr clientProgress
    s'.transactions.At s'.iterator false [] s'.transactions.entries ∧
      s'.transactions.entries.Sublist s.transactions.entries ∧
      s'.transactions.retIdx = epochNr := by
  have hgc := IndexedList.garbageCollect_retIdx hretIdx
  have hat := (startEpoch_at s epochNr clientProgress).1
  rw [hgc, decide_eq_false (UInt64.lt_irrefl _)] at hat
  have hentries := hat.entries_eq
  rw [List.nil_append] at hentries
  refine ⟨?_, ?_, ?_⟩
  · rw [← hentries] at hat
    exact hat
  · rw [hentries]
    exact List.filter_sublist
  · refine (IndexedList.removeSelected_retIdx _ _).trans (Eq.trans ?_ hgc)
    exact IndexedList.iterator_retIdx _ _

theorem Stored.startEpoch (h : Stored events s) {epochNr : EpochNr}
    (hretIdx : s.transactions.retIdx ≤ epochNr) (clientProgress : Checkpoint.ClientProgress) :
    Stored (events ++ [.newEpoch epochNr clientProgress])
      (startEpoch s epochNr clientProgress) := by
  obtain ⟨-, hsub, hretIdx'⟩ := startEpoch_position hretIdx clientProgress
  refine ⟨hsub.trans (h.mono _).arrived, UInt64.le_of_eq hretIdx', .inr ?_, fun k hk => ?_⟩
  · rw [List.filterMap_append]
    exact List.mem_append_right _ List.mem_cons_self
  · obtain ⟨origins, horigins⟩ := GoMap.mem_keys_iff.mp hk
    exact h.early k (GoMap.mem_keys_iff.mpr
      ⟨origins, (GoMap.lookup_filterKeys_eq_some.mp horigins).2⟩)

/-- Added transactions change the list and the counters. -/
theorem addTransactions_eq (s : State O) (txs : List (TxID × Transaction)) :
    ∃ total unproposed num, addTransactions s txs =
      { s with
        transactions := (s.transactions.append txs).1
        totalPayloadSize := total
        unproposedPayloadSize := unproposed
        numUnproposed := num } := by
  refine List.foldlRecOn (motive := fun (s' : State O) => ∃ total unproposed num, s' =
    { s with
      transactions := (s.transactions.append txs).1
      totalPayloadSize := total
      unproposedPayloadSize := unproposed
      numUnproposed := num }) _ countAdded ⟨_, _, _, rfl⟩ ?_
  rintro - ⟨total, unproposed, num, rfl⟩ e -
  rw [countAdded]
  split
  next => exact ⟨_, _, _, rfl⟩
  next => exact ⟨_, _, _, rfl⟩

theorem Stored.addTransactions (h : Stored events s) (txs : List (TxID × Transaction)) :
    Stored (events ++ [.transactionIDsResponse txs]) (addTransactions s txs) := by
  obtain ⟨total, unproposed, num, heq⟩ := addTransactions_eq s txs
  obtain ⟨hentries, hsub, -⟩ := s.transactions.append_spec txs
  rw [heq]
  refine ⟨?_, ?_, (h.mono _).epoch, h.early⟩
  · rw [hentries, List.flatMap_append]
    refine h.arrived.append ?_
    simpa [Event.arrived] using hsub
  · rw [IndexedList.append_retIdx]
    exact h.retIdx

/-- A request for a later epoch. -/
theorem Stored.buffer (h : Stored events s) {epoch : EpochNr} (hlater : s.epoch < epoch)
    (origins : List O) :
    Stored events { s with earlyBatchRequests := s.earlyBatchRequests.insert epoch origins } := by
  refine ⟨h.arrived, h.retIdx, h.epoch, fun k hk => ?_⟩
  rcases GoMap.mem_keys_insert.mp hk with rfl | hk
  · exact UInt64.lt_of_le_of_lt UInt64.zero_le hlater
  · exact h.early k hk

end Stored

/-- What holds while the requests `waiting` are due: `out` is what was output in the run before the
event, and `out₀` what was output in the epoch before it. -/
structure Serving (params : ModuleParams) (events : List (Event O)) (out out₀ : List (Output O))
    (waiting : List O) (s : State O) (o : List (Output O)) : Prop where
  forming : Forming params out₀ s o
  indexed : Indexed s
  accounted : Accounted (events.filterMap Event.requested?) waiting s (out ++ o)
  stored : Stored events s

section Serving

variable {events : List (Event O)} {out : List (Output O)} {waiting : List O}

include htxs hpayload in
/-- **Serving requests keeps it all.** -/
theorem serving_kept : Kept params (Serving params events out out₀) where
  cut {origin _ _ _} h :=
    { forming := h.forming.cutBatch htxs hpayload origin
      indexed := { h.indexed with }
      accounted := List.append_assoc .. ▸ h.accounted.cut
      stored := h.stored.cut origin }
  store {origin _ s o} h :=
    { forming := { (h.forming.other rfl trivial : Forming params out₀ s
        (o ++ [.timerDelay (storePendingRequest s origin).2])) with }
      indexed := h.indexed.store origin
      accounted := List.append_assoc .. ▸ h.accounted.store h.indexed
      stored := { h.stored with } }
  serve {origin s _ reqID} h horigin :=
    { forming := { h.forming.cutBatch htxs hpayload origin with }
      indexed := h.indexed.serve reqID origin
      accounted := List.append_assoc .. ▸ h.accounted.serve horigin
      stored := { (h.stored.cut origin : Stored events (cutBatch params s origin).1) with } }

/-- Other events than requests. -/
theorem Serving.mono (h : Serving params events out out₀ waiting s o) (event : Event O)
    (hevent : event.requested? = none) :
    Serving params (events ++ [event]) out out₀ waiting s o := by
  refine { h with accounted := ?_, stored := h.stored.mono event }
  have hrequested : (events ++ [event]).filterMap Event.requested? =
      events.filterMap Event.requested? := by simp [hevent]
  rw [hrequested]
  exact h.accounted

end Serving

/-- What holds in every run with increasing epochs. -/
structure Formation (params : ModuleParams) (r : Run O) : Prop where
  serving : Serving params r.events r.out r.epochOut [] r.state []
  limits : ∀ x ∈ r.out, x.WithinLimits params

section Formation

variable {r : Run O} {event : Event O}

theorem formation_init : Formation params (Run.init : Run O) where
  serving :=
    { forming := forming_nil (IndexedList.at_iterator _ 0) nofun
      indexed := indexed_init
      accounted := List.Subperm.refl _
      stored := ⟨List.Sublist.refl _, UInt64.le_refl _, .inl rfl, nofun⟩ }
  limits := nofun

/-- The state at the start of a new epoch, before the requests for it are handled. -/
theorem Formation.startEpoch (h : Formation params r) {epochNr : EpochNr}
    (clientProgress : Checkpoint.ClientProgress)
    (hincreasing : ∀ e ∈ r.events.filterMap Event.newEpoch?, e < epochNr) :
    let start := startEpoch r.state epochNr clientProgress
    Serving params (r.events ++ [.newEpoch epochNr clientProgress]) r.out []
      ((start.earlyBatchRequests.lookup epochNr).getD []) start [] := by
  intro start
  have hserving := h.serving.mono (.newEpoch epochNr clientProgress) rfl
  have hnew := h.serving.stored.newEpoch hincreasing
  have hretIdx : r.state.transactions.retIdx ≤ epochNr := by
    rcases hnew with hlt | ⟨heq, -⟩
    · exact UInt64.le_trans hserving.stored.retIdx (UInt64.le_of_lt hlt)
    · exact heq ▸ hserving.stored.retIdx
  obtain ⟨hat, hsub, -⟩ := startEpoch_position hretIdx clientProgress
  exact
    { forming := forming_nil hat fun e he => hserving.forming.fits e (hsub.subset he)
      indexed := { hserving.indexed with }
      accounted := hserving.accounted.startEpoch clientProgress hnew
      stored := h.serving.stored.startEpoch hretIdx clientProgress }

/-- The state after transactions were added, before pending requests are served. Identifiers are only
requested for transactions that fit into a batch. -/
theorem Formation.addTransactions (h : Formation params r) {txs : List (TxID × Transaction)}
    (henabled : r.Enabled (.transactionIDsResponse txs)) :
    Serving params (r.events ++ [.transactionIDsResponse txs]) r.out r.epochOut []
      (addTransactions r.state txs) [] := by
  have hserving := h.serving.mono (.transactionIDsResponse txs) rfl
  have hstored := h.serving.stored.addTransactions txs
  obtain ⟨rest, hat⟩ := hserving.forming.position
  have hat' := hat.append txs
  obtain ⟨hentries, hsub, -⟩ := r.state.transactions.append_spec txs
  have hfits : ∀ e ∈ txs, (e.2.data.length : ℤ) ≤ params.maxPayloadInBatch := by
    obtain ⟨x, hx, hxtxs⟩ := List.mem_filterMap.mp henabled
    cases x with
    | newBatch | timerDelay => cases hxtxs
    | requestTransactionIDs txs' =>
      cases hxtxs
      exact fun e he => h.limits _ hx e.2 (List.mem_map_of_mem he)
  obtain ⟨total, unproposed, num, heq⟩ := addTransactions_eq r.state txs
  rw [heq] at hstored ⊢
  refine ⟨forming_nil (by simpa using hat') ?_, { hserving.indexed with }, hserving.accounted,
    hstored⟩
  rw [hentries]
  exact List.forall_mem_append.mpr ⟨hserving.forming.fits, fun e he => hfits e (hsub.subset he)⟩

/-- What holds when an event has changed the state and made requests due. -/
theorem Formation.starts (h : Formation params r) (henabled : r.Enabled event)
    (hincreasing : Increasing r event) {origins : List O}
    (hstart : Starts params r.state event origins s o) :
    Serving params (r.events ++ [event]) r.out (r.epochStart event) origins s o := by
  have hrequested : ∀ epoch origin, (r.events ++ [Event.requestBatch epoch origin]).filterMap
      Event.requested? = r.events.filterMap Event.requested? ++ [origin] :=
    fun _ _ => List.filterMap_append
  have hserving := h.serving
  cases hstart with
  | newEpoch epochNr clientProgress => exact h.startEpoch clientProgress hincreasing
  | newTransactions txs =>
    have hserving := hserving.mono (.newTransactions txs) rfl
    rw [uponNewTransactions]
    split
    next =>
      refine { hserving with forming := ?_, accounted := ?_ }
      · refine hserving.forming.other rfl fun tx htx => ?_
        exact of_decide_eq_true (List.mem_filter.mp htx).2
      · rw [Accounted, answered_other rfl, ← List.append_nil r.out]
        exact hserving.accounted
    next => exact hserving
  | transactionIDsResponse txs => exact h.addTransactions henabled
  | due origin =>
    refine { hserving with accounted := ?_, stored := hserving.stored.mono _ }
    rw [hrequested]
    exact hserving.accounted.handle origin
  | early origin hlater =>
    refine ⟨{ hserving.forming with }, { hserving.indexed with }, ?_,
      (hserving.stored.mono _).buffer hlater _⟩
    rw [hrequested]
    exact hserving.accounted.buffer hlater origin
  | late epoch origin =>
    refine { hserving with accounted := ?_, stored := hserving.stored.mono _ }
    rw [hrequested]
    exact hserving.accounted.request origin
  | batchTimeout reqID => exact hserving.mono _ rfl

/-- **Every event is handled.** -/
theorem Formation.exists_handle (h : Formation params r) (henabled : r.Enabled event) :
    ∃ s' o, handle params r.state event = .ok (s', o) := by
  cases event with
  | newEpoch | newTransactions | requestBatch => exact ⟨_, _, rfl⟩
  | transactionIDsResponse txs =>
    obtain ⟨s', o, hserve, -⟩ := serveFullBatches_completes (h.addTransactions henabled).indexed le_rfl
    exact ⟨s', o, hserve⟩
  | batchTimeout reqID =>
    rw [Mempool.handle, uponBatchTimeout]
    cases hlookup : r.state.pendingBatchRequests.lookup reqID with
    | none => exact ⟨_, _, rfl⟩
    | some origin => exact ⟨_, _, servePendingReq_eq_ok_iff.mpr ⟨origin, hlookup, rfl, rfl⟩⟩

include htxs hpayload

theorem Formation.handle (h : Formation params r) (henabled : r.Enabled event)
    (hincreasing : Increasing r event) (hhandle : handle params r.state event = .ok (s', o)) :
    Serving params (r.events ++ [event]) r.out (r.epochStart event) [] s' o :=
  (serving_kept htxs hpayload).handle (h.starts henabled hincreasing) hhandle

/-- One event keeps it all. -/
theorem Formation.step (h : Formation params r) (henabled : r.Enabled event)
    (hincreasing : Increasing r event) (hhandle : Mempool.handle params r.state event = .ok (s', o)) :
    Formation params (r.after event s' o) := by
  have hserving := h.handle htxs hpayload henabled hincreasing hhandle
  refine ⟨{ hserving with forming := ?_, accounted := ?_ }, ?_⟩
  · obtain ⟨rest, hat⟩ := hserving.forming.position
    rw [← r.after_epochOut event s' o] at hat
    exact forming_nil hat hserving.forming.fits
  · rw [List.append_nil]
    exact hserving.accounted
  · exact List.forall_mem_append.mpr ⟨h.limits, hserving.forming.limits⟩

theorem Run.Reachable.formation (h : Reachable params Increasing r) : Formation params r := by
  induction h with
  | init => exact formation_init
  | step _ henabled hincreasing hhandle ih => exact ih.step htxs hpayload henabled hincreasing hhandle

end Formation

/-- **Batch formation respects order, limits and requests**, in every run with increasing epochs. The
stored transactions are in the order of arrival, and the batches since the last `NewEpoch` event
consist of the first of them, each once. All batches are within the limits. No request is answered
more often than it was made. The first pending request is present unless there is none, and every
further event is handled: no batch is cut for a missing request. A batch is only empty if the iterator
is exhausted, that is, if all stored transactions have been output before. -/
theorem batch_formation (htxs : 1 ≤ params.maxTransactionsInBatch)
    (hpayload : 0 ≤ params.maxPayloadInBatch) {r : Run O}
    (h : Run.Reachable params Increasing r) :
    r.state.transactions.entries.Sublist (r.events.flatMap Event.arrived) ∧
      emitted r.epochOut <+: r.state.transactions.entries ∧
      ((emitted r.epochOut).map Prod.fst).Nodup ∧
      (∀ txs origin, .newBatch txs origin ∈ r.out → WithinLimits params txs) ∧
      (r.out.filterMap Output.answered?).Subperm (r.events.filterMap Event.requested?) ∧
      (r.state.firstPendingBatchReqID = r.state.nextPendingBatchReqID ∨
        r.state.firstPendingBatchReqID ∈ r.state.pendingBatchRequests.keys) ∧
      ∀ event, r.Enabled event → Increasing r event →
        ∃ s' out, handle params r.state event = .ok (s', out) ∧
          ∀ pre txs origin post, out = pre ++ .newBatch txs origin :: post →
            (emitted (r.after event s' pre).epochOut).length < s'.transactions.entries.length →
            txs ≠ [] := by
  have hformation := h.formation htxs hpayload
  have hserving := hformation.serving
  obtain ⟨rest, hat⟩ := hserving.forming.position
  rw [List.append_nil] at hat
  refine ⟨hserving.stored.arrived, ⟨rest, hat.entries_eq.symm⟩, ?_,
    fun txs origin hmem => hformation.limits _ hmem, ?_, hserving.indexed.first, ?_⟩
  · have hnodup := r.state.transactions.nodup
    rw [hat.entries_eq, List.map_append] at hnodup
    exact hnodup.of_append_left
  · refine List.Subperm.trans (List.Sublist.subperm ?_) hserving.accounted
    rw [List.append_nil r.out, List.append_assoc, List.append_assoc]
    exact List.sublist_append_left _ _
  · intro event henabled hincreasing
    obtain ⟨s', o, hhandle⟩ := hformation.exists_handle henabled
    refine ⟨s', o, hhandle, fun pre txs origin post heq hlt => ?_⟩
    rw [r.after_epochOut] at hlt
    exact (hformation.handle htxs hpayload henabled hincreasing hhandle).forming.nonempty pre txs
      origin post heq hlt

/-- Two requests of the second epoch, the first of which came early: a full batch and, after the
timeout, the rest. -/
theorem batch_formation_two_batches :
    let tx : TxNo → Transaction := fun n => ⟨[99], n, 0, [1]⟩
    ∃ r : Run ℕ, Run.Reachable ⟨2, 10⟩ Increasing r ∧
      r.epochOut.filterMap Output.answered? = [7, 8] ∧
      emitted r.epochOut = [([0], tx 0), ([1], tx 1), ([2], tx 2)] ∧
      emitted r.epochOut <+: r.state.transactions.entries ∧
      ∃ s' out, handle ⟨2, 10⟩ r.state (.requestBatch 1 9) = .ok (s', out) := by
  intro tx
  obtain ⟨r, hreach, hanswered, hemitted⟩ := Run.exists_reachable (by decide +kernel :
    ([.newTransactions [tx 0, tx 1, tx 2],
      .transactionIDsResponse [([0], tx 0), ([1], tx 1), ([2], tx 2)], .requestBatch 1 7,
      .newEpoch 1 ⟨∅⟩, .requestBatch 1 8, .batchTimeout 0].foldlM (Run.next? ⟨2, 10⟩ Increasing)
        .init).any (fun (r : Run ℕ) => r.epochOut.filterMap Output.answered? = [7, 8] ∧
          emitted r.epochOut = [([0], tx 0), ([1], tx 1), ([2], tx 2)]) = true)
  obtain ⟨-, horder, -, -, -, -, hnext⟩ := batch_formation (by decide) (by decide) hreach
  obtain ⟨s', out, hhandle, -⟩ := hnext (.requestBatch 1 9) trivial trivial
  exact ⟨r, hreach, hanswered, hemitted, horder, s', out, hhandle⟩

/-- With a negative limit on the payload, every request is answered at once. The empty batch exceeds
the limit. -/
theorem negative_limit : ∃ r : Run Unit, Run.Reachable ⟨1, -1⟩ Increasing r ∧
    .newBatch [] () ∈ r.out ∧ ¬ WithinLimits ⟨1, -1⟩ [] := by
  obtain ⟨r, hreach, hmem⟩ := Run.exists_reachable (by decide +kernel :
    ([.requestBatch 0 ()].foldlM (Run.next? ⟨1, -1⟩ Increasing) .init).any
      (fun (r : Run Unit) => .newBatch [] () ∈ r.out) = true)
  refine ⟨r, hreach, hmem, fun hlimits => ?_⟩
  exact absurd hlimits.2 (by decide)

end Mir.Mempool
