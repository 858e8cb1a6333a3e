import Mir.BatchFetcher.Module

/-!
# The output of the batch fetcher

What the batch fetcher is for, without a queue: `History` keeps the inputs since the last
`RestoreState`, each certificate with the transactions provided for it, if they have arrived. The
application is to receive the inputs up to the first certificate without transactions, each
certificate replaced by those of its transactions that occur for the first time (`translate`). When
the transactions of a certificate arrive, and in which order, leaves no trace in a history.

The batch fetcher does what its history says (`output_eq_history`) as long as no transaction has the
largest number, and `NewDest` works for the events that pass through. With that number the watermark of
a client wraps around and the client's transactions are delivered again: `wrapped_watermark`.
-/

namespace Mir.BatchFetcher

open Checkpoint (ClientID StableCheckpoint)
open ClientProgress

/-! ### Histories -/

/-- An input to be relayed; a certificate with the transactions provided for it. -/
inductive Slot (E : Type)
  | newEpoch (epochNr : EpochNr) (protocolModule : ModuleID)
  | cert (ref : ItemRef) (txs : Option (List Transaction))
  | snapshotRequest (replyTo : ModuleID)
  | other (ev : OtherEvent E)
  deriving DecidableEq

/-- Client and number of a transaction. -/
def ident (tx : Transaction) : ClientID × TxNo := (tx.clientID, tx.txNo)

/-- The transactions that neither have been delivered before the restart nor occur earlier, in
`before` or in the list itself. -/
def firstOccurrences (restored : Progress) :
    List Transaction → List Transaction → List Transaction
  | _, [] => []
  | before, tx :: txs =>
    if restored.contains tx.clientID tx.txNo ∨ ident tx ∈ before.map ident then
      firstOccurrences restored (before ++ [tx]) txs
    else tx :: firstOccurrences restored (before ++ [tx]) txs

namespace Slot

variable {E : Type}

/-- The transactions of a certificate, as provided. -/
def txs : Slot E → List Transaction
  | .cert _ txs => txs.getD []
  | .newEpoch .. | .snapshotRequest _ | .other _ => []

/-- The event for the application, if it is known. -/
def event? (restored : Progress) (before : List Transaction) : Slot E → Option (AppEvent E)
  | .newEpoch epochNr protocolModule => some (.newEpoch epochNr protocolModule)
  | .cert _ txs => txs.map fun txs => .newOrderedBatch (firstOccurrences restored before txs)
  | .snapshotRequest replyTo => some (.snapshotRequest replyTo)
  | .other ev => some (.other ev)

/-- The slot after transactions are provided. -/
def provide (queueItem : ItemRef) (txs : List Transaction) : Slot E → Slot E
  | .cert ref none => .cert ref (if ref = queueItem then some txs else none)
  | slot => slot

/-- Nothing is missing for the event to be sent. -/
def Ready : Slot E → Prop
  | .cert _ none => False
  | .cert _ (some _) | .newEpoch .. | .snapshotRequest _ | .other _ => True

/-- No transaction has the largest number, and an event that passes through is for the application. -/
def Ordinary (destination : ModuleID) : Slot E → Prop
  | .cert _ txs => ∀ tx ∈ txs.getD [], tx.txNo ≠ maxTxNo
  | .newEpoch .. | .snapshotRequest _ => True
  | .other ev => ev.dest = destination

end Slot

/-- The events for the application: the inputs up to the first certificate whose transactions are
missing. -/
def translate {E : Type} (restored : Progress) :
    List Transaction → List (Slot E) → List (AppEvent E)
  | _, [] => []
  | before, slot :: slots =>
    match slot.event? restored before with
    | none => []
    | some event => event :: translate restored (before ++ slot.txs) slots

/-- The application, what was sent to it until the last restart, the transactions that the restored state
contains, the inputs since then, and the number of certificates received. -/
structure History (E : Type) where
  destination : ModuleID
  emitted : List (AppEvent E)
  restored : Progress
  slots : List (Slot E)
  certs : ItemRef

namespace History

variable {C E : Type}

/-- The history of a new module. -/
def start (destination : ModuleID) (clientProgress : Progress) : History E :=
  ⟨destination, [], clientProgress, [], 0⟩

/-- The events for the application since the last restart. -/
def sinceRestore (h : History E) : List (AppEvent E) := translate h.restored [] h.slots

/-- The events for the application. -/
def output (h : History E) : List (AppEvent E) := h.emitted ++ h.sinceRestore

/-- The history with one more input. -/
def push (h : History E) (slot : Slot E) : History E := { h with slots := h.slots ++ [slot] }

/-- The progress in a checkpoint. -/
def restoredProgress (chkp : StableCheckpoint) : Progress :=
  (clientProgressOf chkp).toOption.getD ∅

/-- The history after an event. -/
def record (h : History E) : Event C E → History E
  | .newEpoch epochNr protocolModule => h.push (.newEpoch epochNr protocolModule)
  | .deliverCert _ _ empty =>
    { h.push (.cert h.certs (if empty then some [] else none)) with certs := h.certs + 1 }
  | .snapshotRequest replyTo => h.push (.snapshotRequest replyTo)
  | .restoreState chkp =>
    ⟨h.destination, h.output ++ [.restoreState chkp], restoredProgress chkp, [], h.certs⟩
  | .provideTransactions txs queueItem => { h with slots := h.slots.map (.provide queueItem txs) }
  | .init => h
  | .other ev => h.push (.other { ev with dest := h.destination })

/-- The history of a run that starts with the given progress. -/
def of (destination : ModuleID) (clientProgress : Progress) (events : List (Event C E)) :
    History E :=
  events.foldl record (start destination clientProgress)

theorem of_append (destination : ModuleID) (clientProgress : Progress) (events : List (Event C E))
    (event : Event C E) : of destination clientProgress (events ++ [event]) =
      (of destination clientProgress events).record event :=
  List.foldl_append

@[simp]
theorem destination_record (h : History E) (event : Event C E) :
    (h.record event).destination = h.destination := by
  cases event <;> rfl

@[simp]
theorem destination_of (destination : ModuleID) (clientProgress : Progress)
    (events : List (Event C E)) : (of destination clientProgress events).destination = destination :=
  List.foldlRecOn (motive := fun h => h.destination = destination) events record rfl
    fun h hh event _ => (h.destination_record event).trans hh

end History

/-! ### First occurrences -/

/-- The transactions of the restored state and of a list. -/
def accounted (restored : Progress) (txs : List Transaction) : Set (ClientID × TxNo) :=
  {x | restored.contains x.1 x.2 = true ∨ x ∈ txs.map ident}

section FirstOccurrences

variable {restored : Progress} {before txs : List Transaction}

theorem accounted_nil (restored : Progress) :
    accounted restored [] = {x | restored.contains x.1 x.2 = true} := by
  simp [accounted]

theorem accounted_snoc (restored : Progress) (before : List Transaction) (tx : Transaction) :
    accounted restored (before ++ [tx]) = insert (ident tx) (accounted restored before) := by
  ext x
  simp [accounted, or_left_comm, or_comm]

theorem mem_accounted_of_ident_eq {tx : Transaction} : ident tx ∈ accounted restored before ↔
    restored.contains tx.clientID tx.txNo = true ∨ ident tx ∈ before.map ident := Iff.rfl

/-- The first occurrences in a list are new, and different from each other. -/
theorem firstOccurrences_spec :
    ((firstOccurrences restored before txs).map ident).Nodup ∧
      ∀ tx ∈ firstOccurrences restored before txs, ident tx ∉ accounted restored before := by
  induction txs generalizing before with
  | nil => exact ⟨List.nodup_nil, nofun⟩
  | cons tx txs ih =>
    obtain ⟨hnodup, hnew⟩ := @ih (before ++ [tx])
    have hlater : ∀ tx' ∈ firstOccurrences restored (before ++ [tx]) txs,
        ident tx' ≠ ident tx ∧ ident tx' ∉ accounted restored before := by
      intro tx' htx'
      have hnot := hnew tx' htx'
      rwa [accounted_snoc, Set.mem_insert_iff, not_or] at hnot
    rw [firstOccurrences]
    split
    next => exact ⟨hnodup, fun tx' htx' => (hlater tx' htx').2⟩
    next hfirst =>
      refine ⟨?_, List.forall_mem_cons.mpr ⟨hfirst, fun tx' htx' => (hlater tx' htx').2⟩⟩
      refine List.nodup_cons.mpr ⟨fun hmem => ?_, hnodup⟩
      obtain ⟨tx', htx', heq⟩ := List.mem_map.mp hmem
      exact (hlater tx' htx').1 heq

/-- Nothing is lost by leaving out later occurrences. -/
theorem accounted_union_firstOccurrences :
    accounted restored before ∪ {x | x ∈ (firstOccurrences restored before txs).map ident} =
      accounted restored (before ++ txs) := by
  induction txs generalizing before with
  | nil => simp [firstOccurrences]
  | cons tx txs ih =>
    rw [List.append_cons, ← ih, accounted_snoc, firstOccurrences]
    split
    next hmem =>
      rw [Set.insert_eq_of_mem (mem_accounted_of_ident_eq.mpr hmem)]
    next =>
      ext x
      simp [or_left_comm, or_assoc]

/-- **`filterDuplicates` keeps the first occurrences.** -/
theorem filterDuplicates_spec {cp : Progress} (hcp : Tracks cp (accounted restored before))
    (hmax : ∀ tx ∈ txs, tx.txNo ≠ maxTxNo) :
    Tracks (filterDuplicates cp txs).1 (accounted restored (before ++ txs)) ∧
      (filterDuplicates cp txs).2 = firstOccurrences restored before txs := by
  -- the loop, from any point on
  suffices hloop : ∀ kept, Tracks (txs.foldl filterStep (cp, kept)).1
      (accounted restored (before ++ txs)) ∧
      (txs.foldl filterStep (cp, kept)).2 = kept ++ firstOccurrences restored before txs from
    hloop []
  induction txs generalizing cp before with
  | nil =>
    intro kept
    rw [List.append_nil, firstOccurrences, List.append_nil]
    exact ⟨hcp, rfl⟩
  | cons tx txs ih =>
    intro kept
    obtain ⟨hmax, hrest⟩ := List.forall_mem_cons.mp hmax
    have hadd : Tracks (cp.add tx.clientID tx.txNo).1 (accounted restored (before ++ [tx])) := by
      rw [accounted_snoc]
      exact hcp.add hmax
    rw [List.foldl_cons, List.append_cons, firstOccurrences]
    split
    next hmem =>
      have hold : ¬ (cp.add tx.clientID tx.txNo).2 = true := fun hnew =>
        hcp.add_eq_true_iff.mp hnew hmem
      rw [show filterStep (cp, kept) tx = (_, kept) from congrArg _ (if_neg hold)]
      exact ih hadd hrest kept
    next hfirst =>
      have hnew : (cp.add tx.clientID tx.txNo).2 = true := hcp.add_eq_true_iff.mpr hfirst
      rw [show filterStep (cp, kept) tx = (_, kept ++ [tx]) from congrArg _ (if_pos hnew),
        List.append_cons kept tx (firstOccurrences ..)]
      exact ih hadd hrest (kept ++ [tx])

end FirstOccurrences

/-! ### Translations -/

section Translate

variable {E : Type} {restored : Progress} {before : List Transaction} {slot : Slot E}
  {done rest : List (Slot E)}

theorem Slot.Ready.exists_event (h : slot.Ready) (restored : Progress) (before : List Transaction) :
    ∃ event, slot.event? restored before = some event := by
  cases slot with
  | cert ref txs =>
    cases txs with
    | none => exact h.elim
    | some txs => exact ⟨_, rfl⟩
  | newEpoch | snapshotRequest | other => exact ⟨_, rfl⟩

theorem Slot.Ready.provide_eq (h : slot.Ready) (queueItem : ItemRef) (txs : List Transaction) :
    slot.provide queueItem txs = slot := by
  cases slot with
  | cert ref old =>
    cases old with
    | none => exact h.elim
    | some old => rfl
  | newEpoch | snapshotRequest | other => rfl

/-- The translation of what is ready goes on with the rest. -/
theorem translate_append (h : ∀ slot ∈ done, slot.Ready) : translate restored before (done ++ rest) =
    translate restored before done ++
      translate restored (before ++ done.flatMap Slot.txs) rest := by
  induction done generalizing before with
  | nil => simp [translate]
  | cons slot done ih =>
    obtain ⟨hslot, hdone⟩ := List.forall_mem_cons.mp h
    obtain ⟨event, hevent⟩ := hslot.exists_event restored before
    simp only [List.cons_append, translate, hevent, ih hdone, List.flatMap_cons, List.append_assoc]

/-- The queue is empty or the first certificate waits for its transactions. -/
def Blocked (slots : List (Slot E)) : Prop := ∀ slot ∈ slots.head?, ¬ slot.Ready

theorem Blocked.translate_eq_nil (h : Blocked rest) : translate restored before rest = [] := by
  cases rest with
  | nil => rfl
  | cons slot rest =>
    have hslot := h slot rfl
    cases slot with
    | cert ref txs =>
      cases txs with
      | none => rfl
      | some txs => exact absurd trivial hslot
    | newEpoch | snapshotRequest | other => exact absurd trivial hslot

/-- The transactions in events for the application. -/
def AppEvent.txs : AppEvent E → List Transaction
  | .newOrderedBatch txs => txs
  | .newEpoch .. | .snapshotRequest _ | .restoreState _ | .other _ => []

/-- **Every transaction is translated at most once**, and only if it is new. -/
theorem translate_nodup (restored : Progress) (before : List Transaction) (slots : List (Slot E)) :
    (((translate restored before slots).flatMap AppEvent.txs).map ident).Nodup ∧
      ∀ tx ∈ (translate restored before slots).flatMap AppEvent.txs,
        ident tx ∉ accounted restored before := by
  induction slots generalizing before with
  | nil => exact ⟨List.nodup_nil, nofun⟩
  | cons slot slots ih =>
    obtain ⟨hnodup, hnew⟩ := ih (before ++ slot.txs)
    cases slot with
    | newEpoch | snapshotRequest | other =>
      simp only [Slot.txs, List.append_nil] at hnodup hnew
      simp only [translate, Slot.event?, Slot.txs, List.append_nil, List.flatMap_cons]
      exact ⟨hnodup, hnew⟩
    | cert ref txs =>
      cases txs with
      | none => exact ⟨List.nodup_nil, nofun⟩
      | some txs =>
        obtain ⟨hbatch, hfirst⟩ := @firstOccurrences_spec restored before txs
        -- what comes later is not in the batch, since the batch is accounted for
        have hlater : ∀ tx ∈ (translate restored (before ++ txs) slots).flatMap AppEvent.txs,
            ident tx ∉ accounted restored before ∧
              ident tx ∉ (firstOccurrences restored before txs).map ident := by
          intro tx htx
          have hnot := hnew tx htx
          rw [Slot.txs, Option.getD_some, ← accounted_union_firstOccurrences] at hnot
          exact not_or.mp hnot
        have hcons : translate restored before (.cert ref (some txs) :: slots) =
            .newOrderedBatch (firstOccurrences restored before txs) ::
              translate restored (before ++ txs) slots := rfl
        rw [hcons, List.flatMap_cons, List.map_append]
        refine ⟨hbatch.append hnodup fun x hx hx' => ?_, fun tx htx => ?_⟩
        · obtain ⟨tx, htx, rfl⟩ := List.mem_map.mp hx'
          exact (hlater tx htx).2 hx
        · rcases List.mem_append.mp htx with htx | htx
          · exact hfirst tx htx
          · exact (hlater tx htx).1

end Translate

/-! ### Reports of the client progress -/

section Reports

variable {C E : Type}

/-- How an output changes the set of delivered transactions. -/
def Output.account (S : Set (ClientID × TxNo)) : Output C E → Set (ClientID × TxNo)
  | .app (.restoreState chkp) => {x | (History.restoredProgress chkp).contains x.1 x.2 = true}
  | .app (.newOrderedBatch txs) => S ∪ {x | x ∈ txs.map ident}
  | .app (.newEpoch ..) | .app (.snapshotRequest _) | .app (.other _) | .newEpoch ..
  | .requestTransactions .. | .clientProgress .. => S

/-- The delivered transactions: those of the initial or the last restored state, and those in the
batches since then. -/
def delivered (clientProgress : Progress) (out : List (Output C E)) : Set (ClientID × TxNo) :=
  out.foldl Output.account {x | clientProgress.contains x.1 x.2 = true}

/-- Every snapshot request is sent with a message that describes what has been delivered before. -/
def Reported (clientProgress : Progress) (out : List (Output C E)) : Prop :=
  ∀ sent replyTo rest, out = sent ++ .app (.snapshotRequest replyTo) :: rest →
    ∃ sent' epochNr progress, sent = sent' ++ [.clientProgress epochNr progress] ∧
      ∀ c n, (Progress.fromPb progress).contains c n = true ↔ (c, n) ∈ delivered clientProgress sent'

variable {cp₀ cp : Progress} {out o : List (Output C E)} {S : Set (ClientID × TxNo)}

theorem Reported.append (h : Reported cp₀ out)
    (ho : ∀ sent replyTo rest, o = sent ++ .app (.snapshotRequest replyTo) :: rest →
      ∃ sent' epochNr progress, sent = sent' ++ [.clientProgress epochNr progress] ∧
        ∀ c n, (Progress.fromPb progress).contains c n = true ↔
          (c, n) ∈ delivered cp₀ (out ++ sent')) : Reported cp₀ (out ++ o) := by
  intro sent replyTo rest heq
  rcases List.append_eq_append_iff.mp heq with ⟨sent', rfl, ho'⟩ | ⟨c, hout, ho'⟩
  · obtain ⟨sent'', epochNr, progress, rfl, hdescribes⟩ := ho sent' replyTo rest ho'
    exact ⟨out ++ sent'', epochNr, progress, (List.append_assoc ..).symm, hdescribes⟩
  · cases c with
    | nil =>
      obtain ⟨sent', epochNr, progress, hnil, -⟩ := ho [] replyTo rest ho'.symm
      simp at hnil
    | cons x c =>
      obtain ⟨rfl, -⟩ := List.cons.inj ho'
      exact h sent replyTo c hout

/-- Outputs without a snapshot request need no report. -/
theorem Reported.append_of_forall (h : Reported cp₀ out)
    (ho : ∀ replyTo, .app (.snapshotRequest replyTo) ∉ o) : Reported cp₀ (out ++ o) := by
  refine h.append fun sent replyTo rest heq => absurd ?_ (ho replyTo)
  rw [heq]
  exact List.mem_append_right _ List.mem_cons_self

/-- A snapshot request with its report. -/
theorem Reported.report (h : Reported cp₀ out) (hcp : Tracks cp (delivered cp₀ out))
    (epochNr : EpochNr) (replyTo : ModuleID) :
    Reported cp₀ (out ++ [.clientProgress epochNr cp.pb, .app (.snapshotRequest replyTo)]) := by
  have hloaded : Tracks (Progress.fromPb cp.pb) (delivered cp₀ out) := hcp.loadPb
  refine h.append fun sent replyTo' rest heq => ?_
  match sent with
  | [] => simp at heq
  | [x] =>
    obtain ⟨rfl, -⟩ := List.cons.inj heq
    refine ⟨[], epochNr, cp.pb, rfl, fun c n => ?_⟩
    rw [List.append_nil]
    exact hloaded.contains_iff
  | x :: y :: sent => simp at heq

end Reports

/-! ### The queue follows the history -/

/-- The item that is created for an input. -/
def Slot.item {E : Type} : Slot E → OutputItem E
  | .newEpoch epochNr protocolModule =>
    .relay (.newEpoch epochNr protocolModule) (some .newEpoch)
  | .cert ref txs => .batch ref txs
  | .snapshotRequest replyTo => .relay (.snapshotRequest replyTo) (some .snapshotRequest)
  | .other ev => .relay (.other ev) none

section Emitted

variable {C E : Type} {cp₀ cp cp' : Progress} {hist : History E} {done pending : List (Slot E)}
  {slot : Slot E} {out o : List (Output C E)} {epochNr : EpochNr}

/-- The inputs `done` of the history have left the queue. -/
structure Emitted (cp₀ : Progress) (hist : History E) (done : List (Slot E)) (cp : Progress)
    (out : List (Output C E)) : Prop where
  ready : ∀ slot ∈ done, slot.Ready
  app : out.filterMap (Output.app? hist.destination) =
    hist.emitted ++ translate hist.restored [] done
  tracks : Tracks cp (accounted hist.restored (done.flatMap Slot.txs))
  delivered : delivered cp₀ out = accounted hist.restored (done.flatMap Slot.txs)
  reported : Reported cp₀ out

/-- Inputs since the last restart do not matter for what has left the queue. -/
theorem Emitted.congr (h : Emitted cp₀ hist done cp out) (slots : List (Slot E)) (certs : ItemRef) :
    Emitted cp₀ { hist with slots := slots, certs := certs } done cp out :=
  ⟨h.ready, h.app, h.tracks, h.delivered, h.reported⟩

/-- One more input leaves the queue. -/
theorem Emitted.snoc (h : Emitted cp₀ hist done cp out) {event : AppEvent E} (hready : slot.Ready)
    (hevent : slot.event? hist.restored (done.flatMap Slot.txs) = some event)
    (happ : o.filterMap (Output.app? hist.destination) = [event])
    (htracks : Tracks cp' (accounted hist.restored (done.flatMap Slot.txs ++ slot.txs)))
    (hdelivered : o.foldl Output.account (accounted hist.restored (done.flatMap Slot.txs)) =
      accounted hist.restored (done.flatMap Slot.txs ++ slot.txs))
    (hreported : Reported cp₀ (out ++ o)) : Emitted cp₀ hist (done ++ [slot]) cp' (out ++ o) := by
  have htxs : (done ++ [slot]).flatMap Slot.txs = done.flatMap Slot.txs ++ slot.txs := by simp
  refine ⟨forall_mem_concat h.ready hready, ?_, ?_, ?_, hreported⟩
  · rw [List.filterMap_append, h.app, happ, translate_append h.ready, List.append_assoc]
    simp [translate, hevent]
  · rw [htxs]
    exact htracks
  · rw [htxs, BatchFetcher.delivered, List.foldl_append]
    exact (congrArg (List.foldl Output.account · o) h.delivered).trans hdelivered

/-- Outputs that are not for the application, without a report. -/
theorem Emitted.append (h : Emitted cp₀ hist done cp out)
    (happ : ∀ x ∈ o, x.app? hist.destination = none)
    (haccount : ∀ x ∈ o, ∀ S, x.account S = S) : Emitted cp₀ hist done cp (out ++ o) := by
  have hfold : ∀ S, o.foldl Output.account S = S := by
    intro S
    induction o with
    | nil => rfl
    | cons x o ih =>
      obtain ⟨hx, ho⟩ := List.forall_mem_cons.mp haccount
      rw [List.foldl_cons, hx]
      exact ih (List.forall_mem_cons.mp happ).2 ho
  refine ⟨h.ready, ?_, h.tracks, ?_, h.reported.append_of_forall fun replyTo hmem => ?_⟩
  · rw [List.filterMap_append, List.filterMap_eq_nil_iff.mpr happ, List.append_nil]
    exact h.app
  · rw [BatchFetcher.delivered, List.foldl_append, hfold]
    exact h.delivered
  · cases happ _ hmem

/-- **What is ready leaves the queue** as the translation says. -/
theorem Emitted.emit (h : Emitted cp₀ hist done cp out) (epochNr : EpochNr) (hready : slot.Ready)
    (hord : slot.Ordinary hist.destination) :
    ∃ cp' o, emitItem epochNr cp slot.item = some (cp', o) ∧
      Emitted cp₀ hist (done ++ [slot]) cp' (out ++ o) ∧ ∀ x ∈ o, x.requested? = none := by
  have hcollect := h.tracks.garbageCollect
  cases slot with
  | other ev =>
    refine ⟨cp, [.app (.other ev)], rfl, h.snoc trivial rfl ?_ ?_ ?_ ?_, by simp [Output.requested?]⟩
    · have hdest : ev.dest = hist.destination := hord
      simp [Output.app?, hdest]
    · rw [Slot.txs, List.append_nil]
      exact h.tracks
    · simp [Slot.txs, Output.account]
    · exact h.reported.append_of_forall (by simp)
  | newEpoch e protocolModule =>
    refine ⟨cp.garbageCollect.1, _, rfl, h.snoc trivial rfl rfl ?_ ?_ ?_, by simp [Output.requested?]⟩
    · rw [Slot.txs, List.append_nil]
      exact hcollect
    · simp [Slot.txs, Output.account]
    · exact h.reported.append_of_forall (by simp)
  | snapshotRequest replyTo =>
    refine ⟨cp.garbageCollect.1, _, rfl, h.snoc trivial rfl rfl ?_ ?_ ?_, by simp [Output.requested?]⟩
    · rw [Slot.txs, List.append_nil]
      exact hcollect
    · simp [Slot.txs, Output.account]
    · rw [← h.delivered] at hcollect
      exact h.reported.report hcollect epochNr replyTo
  | cert ref txs =>
    cases txs with
    | none => exact hready.elim
    | some txs =>
      rw [Slot.Ordinary, Option.getD_some] at hord
      obtain ⟨htracks, hfiltered⟩ := filterDuplicates_spec h.tracks hord
      refine ⟨_, _, rfl, h.snoc trivial rfl ?_ htracks ?_ ?_, by simp [Output.requested?]⟩
      · rw [hfiltered]
        rfl
      · rw [hfiltered]
        exact accounted_union_firstOccurrences
      · exact h.reported.append_of_forall (by simp)

/-- **`Flush` empties the queue** up to the first certificate whose transactions are missing. -/
theorem Emitted.flush (h : Emitted cp₀ hist done cp out) (epochNr : EpochNr)
    (hord : ∀ slot ∈ pending, slot.Ordinary hist.destination) :
    ∃ now rest, pending = now ++ rest ∧ Blocked rest ∧
      ∃ cp' o, flush epochNr cp (pending.map Slot.item) = ((cp', rest.map Slot.item), o) ∧
        Emitted cp₀ hist (done ++ now) cp' (out ++ o) ∧ ∀ x ∈ o, x.requested? = none := by
  induction pending generalizing done cp out with
  | nil => exact ⟨[], [], rfl, nofun, cp, [], rfl, by simpa using h, nofun⟩
  | cons slot pending ih =>
    obtain ⟨hslot, hpending⟩ := List.forall_mem_cons.mp hord
    by_cases hready : slot.Ready
    · obtain ⟨cp', o, hemit, hdone, ho⟩ := h.emit epochNr hready hslot
      obtain ⟨now, rest, rfl, hrest, cp'', o', hflush, hnow, ho'⟩ := ih hdone hpending
      refine ⟨slot :: now, rest, rfl, hrest, cp'', o ++ o', ?_, ?_, ?_⟩
      · simp only [List.map_cons, BatchFetcher.flush, hemit, hflush]
      · rwa [List.append_assoc, List.append_assoc] at hnow
      · exact List.forall_mem_append.mpr ⟨ho, ho'⟩
    · refine ⟨[], slot :: pending, rfl, fun s hs => ?_, cp, [], ?_, by simpa using h, nofun⟩
      · rwa [← Option.some.inj hs]
      · cases slot with
        | cert ref txs =>
          cases txs with
          | none => rfl
          | some txs => exact absurd trivial hready
        | newEpoch | snapshotRequest | other => exact absurd trivial hready

end Emitted

/-! ### Runs -/

/-- No transaction in the event has the largest number, and an event that passes through can be redirected
to the application, or is for the application already. -/
def Ordinary {C E : Type} (destination : ModuleID) : Event C E → Prop
  | .provideTransactions txs _ => ∀ tx ∈ txs, tx.txNo ≠ maxTxNo
  | .restoreState chkp => ∀ c, (History.restoredProgress chkp).contains c maxTxNo = false
  | .other ev => ev.standard = false ∨ ev.dest = destination
  | .newEpoch .. | .deliverCert .. | .snapshotRequest _ | .init => True

theorem OtherEvent.newDest_eq {E : Type} {ev : OtherEvent E} {destination : ModuleID}
    (h : ev.standard = false ∨ ev.dest = destination) :
    ev.newDest destination = { ev with dest := destination } := by
  rw [OtherEvent.newDest]
  split
  next hstandard =>
    obtain rfl := h.resolve_left (by simp [hstandard])
    rfl
  next => rfl

section Runs

variable {C E : Type} {cp₀ : Progress} {hist : History E} {r : Run C E} {event : Event C E}
  {slot : Slot E} {requested provided : List ItemRef} {done pending : List (Slot E)} {s' : State E}
  {out : List (Output C E)}

/-- The certificates of a history, compared with the requests and the replies. -/
structure Requests (hist : History E) (requested provided : List ItemRef) : Prop where
  requested_lt : ∀ ref ∈ requested, ref < hist.certs
  cert_lt : ∀ ref txs, .cert ref txs ∈ hist.slots → ref < hist.certs
  provided : ∀ ref txs, .cert ref (some txs) ∈ hist.slots → ref ∈ requested → ref ∈ provided
  ordinary : ∀ slot ∈ hist.slots, slot.Ordinary hist.destination

/-- An input that is not a certificate. -/
theorem Requests.push (h : Requests hist requested provided) (hslot : ∀ ref txs, slot ≠ .cert ref txs)
    (hord : slot.Ordinary hist.destination) : Requests (hist.push slot) requested provided where
  requested_lt := h.requested_lt
  cert_lt ref txs hmem := by
    rcases List.mem_append.mp hmem with hmem | hmem
    · exact h.cert_lt ref txs hmem
    · exact absurd (List.mem_singleton.mp hmem).symm (hslot ref txs)
  provided ref txs hmem := by
    rcases List.mem_append.mp hmem with hmem | hmem
    · exact h.provided ref txs hmem
    · exact absurd (List.mem_singleton.mp hmem).symm (hslot ref _)
  ordinary := forall_mem_concat h.ordinary hord

/-- A certificate, with a new reference, whose transactions are requested unless it is empty. -/
theorem Requests.push_cert (h : Requests hist requested provided) (empty : Bool) :
    Requests { hist.push (.cert hist.certs (if empty then some [] else none)) with
        certs := hist.certs + 1 }
      (requested ++ if empty then [] else [hist.certs]) provided where
  requested_lt ref hmem := by
    rcases List.mem_append.mp hmem with hmem | hmem
    · exact Nat.lt_succ_of_lt (h.requested_lt ref hmem)
    · cases empty with
      | true => cases hmem
      | false =>
        rw [List.mem_singleton.mp hmem]
        exact Nat.lt_succ_self _
  cert_lt ref txs hmem := by
    rcases List.mem_append.mp hmem with hmem | hmem
    · exact Nat.lt_succ_of_lt (h.cert_lt ref txs hmem)
    · obtain ⟨rfl, -⟩ := Slot.cert.inj (List.mem_singleton.mp hmem)
      exact Nat.lt_succ_self _
  provided ref txs hmem hreq := by
    rcases List.mem_append.mp hmem with hold | hadded
    · refine h.provided ref txs hold ((List.mem_append.mp hreq).resolve_right fun hnew => ?_)
      have hlt := h.cert_lt ref _ hold
      cases empty with
      | true => cases hnew
      | false => exact Nat.ne_of_lt hlt (List.mem_singleton.mp hnew)
    · obtain ⟨rfl, htxs⟩ := Slot.cert.inj (List.mem_singleton.mp hadded)
      cases empty with
      | true => exact absurd (h.requested_lt _ (by simpa using hreq)) (Nat.lt_irrefl _)
      | false => cases htxs
  ordinary := forall_mem_concat h.ordinary (by cases empty <;> simp [Slot.Ordinary])

/-- What `provide` can turn into a certificate with transactions. -/
theorem Slot.provide_eq_cert {queueItem ref : ItemRef} {txs : List Transaction}
    {txs' : Option (List Transaction)} (h : slot.provide queueItem txs = .cert ref txs') :
    slot = .cert ref txs' ∨ slot = .cert ref none ∧ txs' = if ref = queueItem then some txs else none := by
  cases slot with
  | cert ref' old =>
    cases old with
    | none =>
      obtain ⟨rfl, rfl⟩ := Slot.cert.inj h
      exact .inr ⟨rfl, rfl⟩
    | some old => exact .inl h
  | newEpoch | snapshotRequest | other => exact .inl h

/-- Transactions that are provided for a certificate. -/
theorem Requests.provide (h : Requests hist requested provided) {queueItem : ItemRef}
    {txs : List Transaction} (hmax : ∀ tx ∈ txs, tx.txNo ≠ maxTxNo) :
    Requests { hist with slots := hist.slots.map (.provide queueItem txs) } requested
      (provided ++ [queueItem]) where
  requested_lt := h.requested_lt
  cert_lt ref txs' hmem := by
    obtain ⟨slot, hslot, heq⟩ := List.mem_map.mp hmem
    rcases Slot.provide_eq_cert heq with rfl | ⟨rfl, -⟩
    · exact h.cert_lt ref _ hslot
    · exact h.cert_lt ref _ hslot
  provided ref txs' hmem hreq := by
    obtain ⟨slot, hslot, heq⟩ := List.mem_map.mp hmem
    rcases Slot.provide_eq_cert heq with rfl | ⟨rfl, htxs⟩
    · exact List.mem_append_left _ (h.provided ref _ hslot hreq)
    · split at htxs
      next href => exact List.mem_append_right _ (List.mem_singleton.mpr href)
      next => cases htxs
  ordinary slot' hmem := by
    obtain ⟨slot, hslot, rfl⟩ := List.mem_map.mp hmem
    have hord := h.ordinary slot hslot
    cases slot with
    | cert ref old =>
      cases old with
      | some old => exact hord
      | none =>
        intro tx htx
        split at htx
        next => exact hmax tx htx
        next => cases htx
    | newEpoch | snapshotRequest | other => exact hord

/-- The state of a module agrees with its history. -/
structure Inv (cp₀ : Progress) (hist : History E) (r : Run C E) : Prop where
  follows : ∃ done pending, hist.slots = done ++ pending ∧ Blocked pending ∧
    r.state.output = pending.map Slot.item ∧
    Emitted cp₀ hist done r.state.clientProgress r.out
  destination : r.state.destination = hist.destination
  created : r.state.created = hist.certs
  requests : Requests hist r.requested r.provided

theorem Inv.start (h : ∀ c, cp₀.contains c maxTxNo = false) (destination : ModuleID)
    (epochNr : EpochNr) : Inv cp₀ (History.start destination cp₀)
      (Run.init destination epochNr cp₀ : Run C E) where
  follows := by
    refine ⟨[], [], rfl, nofun, rfl, nofun, rfl, ?_, (accounted_nil cp₀).symm, ?_⟩
    · rw [List.flatMap_nil, History.start, accounted_nil]
      exact tracks_contains h
    · intro sent replyTo rest heq
      simp [Run.init] at heq
  destination := rfl
  created := rfl
  requests := ⟨nofun, nofun, nofun, nofun⟩

/-- An event that ends with `Flush`. -/
theorem Inv.of_flush (s : State E) (hflush : s.flush = (s', out)) (done pending : List (Slot E))
    (hslots : hist.slots = done ++ pending) (hqueue : s.output = pending.map Slot.item)
    (hdone : Emitted cp₀ hist done s.clientProgress r.out)
    (hdest : s.destination = hist.destination) (hcreated : s.created = hist.certs)
    (hrequests : Requests hist r.requested (r.provided ++ event.provided?.toList)) :
    Inv cp₀ hist (r.after event s' out) := by
  have hord : ∀ slot ∈ pending, slot.Ordinary hist.destination := by
    intro slot hslot
    refine hrequests.ordinary slot ?_
    rw [hslots]
    exact List.mem_append_right _ hslot
  obtain ⟨now, rest, rfl, hrest, cp', o, heq, hnow, ho⟩ := hdone.flush s.epochNr hord
  rw [State.flush, hqueue, heq] at hflush
  obtain ⟨rfl, rfl⟩ := Prod.mk.inj hflush
  refine ⟨⟨done ++ now, rest, ?_, hrest, rfl, hnow⟩, hdest, hcreated, ?_⟩
  · rw [hslots, List.append_assoc]
  · rw [Run.requested_after, Run.provided_after, List.filterMap_eq_nil_iff.mpr ho, List.append_nil]
    exact hrequests

/-- An input that is relayed. -/
theorem Inv.relay (h : Inv cp₀ hist r) (slot : Slot E) {epochNr : EpochNr}
    (hflush : State.flush { r.state with
      epochNr := epochNr, output := r.state.output ++ [slot.item] } = (s', out))
    (hslot : ∀ ref txs, slot ≠ .cert ref txs) (hord : slot.Ordinary hist.destination)
    (hevent : event.provided? = none) : Inv cp₀ (hist.push slot) (r.after event s' out) := by
  obtain ⟨done, pending, hslots, -, houtput, hdone⟩ := h.follows
  refine .of_flush _ hflush done (pending ++ [slot]) ?_ ?_ (hdone.congr _ _) h.destination
    h.created ?_
  · rw [History.push, hslots, List.append_assoc]
  · rw [houtput, List.map_append, List.map_singleton]
  · rw [hevent, Option.toList_none, List.append_nil]
    exact h.requests.push hslot hord

/-- An empty certificate. -/
theorem Inv.emptyCert (h : Inv cp₀ hist r) {sn : SeqNr} {cert : C}
    (hhandle : uponDeliverCert r.state cert true = (s', out)) :
    Inv cp₀ (hist.record (.deliverCert sn cert true : Event C E))
      (r.after (.deliverCert sn cert true) s' out) := by
  obtain ⟨done, pending, hslots, -, houtput, hdone⟩ := h.follows
  refine .of_flush _ hhandle done (pending ++ [.cert hist.certs (some [])]) ?_ ?_
    (hdone.congr _ _) h.destination (congrArg (· + 1) h.created) ?_
  · exact (congrArg (· ++ _) hslots).trans (List.append_assoc ..)
  · rw [List.map_append, ← houtput, ← h.created]
    rfl
  · rw [Event.provided?, Option.toList_none, List.append_nil, ← List.append_nil r.requested]
    exact h.requests.push_cert true

/-- A certificate whose transactions are requested. -/
theorem Inv.cert (h : Inv cp₀ hist r) {sn : SeqNr} {cert : C}
    (hhandle : uponDeliverCert r.state cert false = (s', out)) :
    Inv cp₀ (hist.record (.deliverCert sn cert false : Event C E))
      (r.after (.deliverCert sn cert false) s' out) := by
  obtain ⟨done, pending, hslots, hblocked, houtput, hdone⟩ := h.follows
  cases hhandle
  refine ⟨⟨done, pending ++ [.cert hist.certs none], ?_, ?_, ?_, ?_⟩, h.destination, ?_, ?_⟩
  · exact (congrArg (· ++ _) hslots).trans (List.append_assoc ..)
  · intro slot hslot
    cases pending with
    | nil =>
      obtain rfl := Option.some.inj hslot
      exact id
    | cons head pending => exact hblocked slot hslot
  · rw [List.map_append, ← houtput, ← h.created]
    rfl
  · refine (hdone.append ?_ ?_).congr _ _
    · simp [Output.app?]
    · simp [Output.account]
  · exact congrArg (· + 1) h.created
  · rw [Run.requested_after, Run.provided_after, h.created, Event.provided?, Option.toList_none,
      List.append_nil]
    exact h.requests.push_cert false

/-- Transactions arrive: no certificate is given transactions twice. -/
theorem Inv.provideTransactions (h : Inv cp₀ hist r) {txs : List Transaction} {queueItem : ItemRef}
    (hreq : queueItem ∈ r.requested) (hnew : queueItem ∉ r.provided)
    (hmax : ∀ tx ∈ txs, tx.txNo ≠ maxTxNo)
    (hhandle : uponProvideTransactions r.state txs queueItem = (s', out)) :
    Inv cp₀ (hist.record (.provideTransactions txs queueItem : Event C E))
      (r.after (.provideTransactions txs queueItem) s' out) := by
  obtain ⟨done, pending, hslots, -, houtput, hdone⟩ := h.follows
  have hkeep : done.map (Slot.provide queueItem txs) = done := by
    refine (List.map_congr_left fun slot hslot => ?_).trans (List.map_id done)
    exact (hdone.ready slot hslot).provide_eq queueItem txs
  have hfill : ∀ slot ∈ pending, slot.item.setTxs queueItem txs =
      (slot.provide queueItem txs).item := by
    intro slot hslot
    cases slot with
    | newEpoch | snapshotRequest | other => rfl
    | cert ref old =>
      cases old with
      | none => rfl
      | some old =>
        have hmem : .cert ref (some old) ∈ hist.slots := by
          rw [hslots]
          exact List.mem_append_right _ hslot
        have hne : ref ≠ queueItem := by
          rintro rfl
          exact hnew (h.requests.provided ref old hmem hreq)
        simp [Slot.item, OutputItem.setTxs, Slot.provide, hne]
  refine .of_flush { r.state with output := r.state.output.map (.setTxs queueItem txs) } hhandle done
    (pending.map (Slot.provide queueItem txs)) ?_ ?_ (hdone.congr _ _) h.destination h.created
    (h.requests.provide hmax)
  · rw [History.record, hslots, List.map_append, hkeep]
  · rw [houtput, List.map_map, List.map_map]
    exact List.map_congr_left hfill

/-- The queue is dropped when a state is restored. -/
theorem Inv.restoreState (h : Inv cp₀ hist r) {chkp : StableCheckpoint}
    (hmax : ∀ c, (History.restoredProgress chkp).contains c maxTxNo = false)
    (hhandle : uponRestoreState r.state chkp = .ok (s', out)) :
    Inv cp₀ (hist.record (.restoreState chkp : Event C E)) (r.after (.restoreState chkp) s' out) := by
  obtain ⟨done, pending, hslots, hblocked, -, hdone⟩ := h.follows
  obtain ⟨epochNr, -, hhandle⟩ := Fallible.bind_eq_ok.mp hhandle
  obtain ⟨progress, hprogress, hhandle⟩ := Fallible.bind_eq_ok.mp hhandle
  cases hhandle
  have hrestored : History.restoredProgress chkp = progress := by
    rw [History.restoredProgress, hprogress]
    rfl
  have houtput : hist.output = r.out.filterMap (Output.app? hist.destination) := by
    rw [History.output, History.sinceRestore, hslots, translate_append hdone.ready,
      hblocked.translate_eq_nil, List.append_nil, hdone.app]
  refine ⟨⟨[], [], rfl, nofun, rfl, nofun, ?_, ?_, ?_, ?_⟩, h.destination, h.created, ?_⟩
  · rw [Run.after, List.filterMap_append, History.destination_record, ← houtput]
    exact (List.append_nil _).symm
  · rw [List.flatMap_nil, accounted_nil, Run.after, ← hrestored]
    exact tracks_contains hmax
  · rw [List.flatMap_nil, accounted_nil, Run.after, BatchFetcher.delivered, List.foldl_append]
    rfl
  · exact hdone.reported.append_of_forall (by simp)
  · rw [Run.requested_after, Run.provided_after, Event.provided?, Option.toList_none,
      List.append_nil]
    refine ⟨fun ref href => h.requests.requested_lt ref ?_, nofun, nofun, nofun⟩
    simpa [Output.requested?] using href

variable {destination : ModuleID} {epochNr : EpochNr}

/-- **The batch fetcher follows its history** in every ordinary run. -/
theorem Run.Reachable.inv (hcp₀ : ∀ c, cp₀.contains c maxTxNo = false)
    (h : Reachable (.init destination epochNr cp₀) (Ordinary destination) r) :
    Inv cp₀ (.of destination cp₀ r.events) r := by
  induction h with
  | init => exact .start hcp₀ destination epochNr
  | @step r event s' out _ henabled hordinary hhandle ih =>
    rw [Run.after, History.of_append]
    cases event with
    | newEpoch e protocolModule =>
      exact ih.relay (.newEpoch e protocolModule) (Except.ok.inj hhandle) nofun trivial rfl
    | deliverCert sn cert empty =>
      cases empty with
      | true => exact ih.emptyCert (Except.ok.inj hhandle)
      | false => exact ih.cert (Except.ok.inj hhandle)
    | snapshotRequest replyTo =>
      exact ih.relay (.snapshotRequest replyTo) (Except.ok.inj hhandle) nofun trivial rfl
    | restoreState chkp => exact ih.restoreState hordinary hhandle
    | provideTransactions txs queueItem =>
      obtain ⟨hreq, hnew⟩ := henabled queueItem rfl
      exact ih.provideTransactions hreq hnew hordinary (Except.ok.inj hhandle)
    | init =>
      cases hhandle
      rw [List.append_nil]
      refine ⟨ih.follows, ih.destination, ih.created, ?_⟩
      have hprovided : (r.after .init r.state []).provided = r.provided := by
        rw [Run.provided_after, Event.provided?, Option.toList_none, List.append_nil]
      change Requests (.of destination cp₀ r.events) r.requested (r.after .init r.state []).provided
      rw [hprovided]
      exact ih.requests
    | other ev =>
      have hdest := ih.destination.trans (History.destination_of ..)
      have hhandle := Except.ok.inj hhandle
      rw [uponOtherEvent, hdest, OtherEvent.newDest_eq hordinary,
        ← History.destination_of destination cp₀ r.events] at hhandle
      exact ih.relay (.other _) hhandle nofun rfl rfl

/-- **The output does not depend on the order in which transactions arrive**: in every run without the
largest transaction number, in which `NewDest` works for the events that pass through, the application
receives what the history of the inputs determines. Since the last restart every transaction has been
delivered at most once, and only if the restored state does not contain it, and every snapshot request
was sent with a description of what had been delivered before it. -/
theorem output_eq_history (hcp₀ : ∀ c, cp₀.contains c maxTxNo = false)
    (h : Run.Reachable (.init destination epochNr cp₀) (Ordinary destination) r) :
    let hist := History.of destination cp₀ r.events
    r.app = hist.output ∧
      ((hist.sinceRestore.flatMap AppEvent.txs).map ident).Nodup ∧
      (∀ tx ∈ hist.sinceRestore.flatMap AppEvent.txs,
        hist.restored.contains tx.clientID tx.txNo = false) ∧
      Reported cp₀ r.out := by
  intro hist
  have hinv := h.inv hcp₀
  obtain ⟨done, pending, hslots, hblocked, -, hdone⟩ := hinv.follows
  obtain ⟨hnodup, hnew⟩ := translate_nodup hist.restored [] hist.slots
  refine ⟨?_, hnodup, fun tx htx => ?_, hdone.reported⟩
  · rw [History.output, History.sinceRestore, hslots, translate_append hdone.ready,
      hblocked.translate_eq_nil, List.append_nil]
    rw [Run.app, hinv.destination]
    exact hdone.app
  · have hnot := hnew tx htx
    rw [accounted_nil] at hnot
    exact Bool.eq_false_iff.mpr hnot

/-- Two certificates whose transactions arrive in the opposite order, followed by two events that pass
through, of which the first needs a new destination, and a snapshot request. -/
theorem output_eq_history_opposite_order :
    let tx : TxNo → Transaction := fun n => ⟨[99], n, 0, []⟩
    let events : List (Event Unit Unit) := [.deliverCert 0 () false, .deliverCert 1 () false,
      .other ⟨false, [1], ()⟩, .other ⟨true, [2], ()⟩, .snapshotRequest [],
      .provideTransactions [tx 0, tx 1] 1, .provideTransactions [tx 0] 0]
    let app := [.newOrderedBatch [tx 0], .newOrderedBatch [tx 1], .other ⟨false, [2], ()⟩,
      .other ⟨true, [2], ()⟩, .snapshotRequest []]
    (∀ c, (∅ : Progress).contains c maxTxNo = false) ∧
      ∃ r : Run Unit Unit, Run.Reachable (.init [2] 0 ∅) (Ordinary [2]) r ∧ r.events = events ∧
        r.app = app ∧ (History.of [2] ∅ events).output = app ∧ Reported ∅ r.out := by
  intro tx events app
  have hempty : ∀ c, (∅ : Progress).contains c maxTxNo = false := fun c => by simp [Progress.contains]
  have hordinary : ∀ event ∈ events, Ordinary [2] event := by
    simp [events, Ordinary, tx, maxTxNo]
  obtain ⟨r, hreach, hevents, happ⟩ := Run.exists_reachable hordinary (by decide +kernel :
    (events.foldlM Run.next? (.init [2] 0 ∅)).any (fun r => r.events = events ∧ r.app = app) = true)
  obtain ⟨houtput, -, -, hreported⟩ := output_eq_history hempty hreach
  refine ⟨hempty, r, hreach, hevents, happ, ?_, hreported⟩
  rw [← happ, houtput, hevents]

/-- A client whose watermark is the largest number: when that transaction is delivered as well, the
watermark wraps around at the next garbage collection, and the transaction is delivered again. -/
theorem wrapped_watermark :
    let tx : Transaction := ⟨[99], maxTxNo, 0, []⟩
    let chkp : StableCheckpoint := ⟨0, some ⟨some [], some ⟨some ⟨0, 0, 0, none⟩,
      some ⟨AList.singleton [99] ⟨maxTxNo, []⟩⟩, none, none⟩⟩, none⟩
    ∃ r : Run Unit Unit, Run.Reachable (.init [] 0 ∅) (fun _ => True) r ∧
      r.app = [.restoreState chkp, .newOrderedBatch [tx], .newEpoch 1 [], .newOrderedBatch [tx]] ∧
      r.app ≠ (History.of [] ∅ r.events).output := by
  intro tx chkp
  exact Run.exists_reachable (fun _ _ => trivial) (by decide +kernel :
    ([.restoreState chkp, .deliverCert 0 () false, .provideTransactions [tx] 0, .newEpoch 1 [],
      .deliverCert 1 () false, .provideTransactions [tx] 1].foldlM Run.next? (.init [] 0 ∅)).any
        (fun (r : Run Unit Unit) => r.app = [.restoreState chkp, .newOrderedBatch [tx],
          .newEpoch 1 [], .newOrderedBatch [tx]] ∧ r.app ≠ (History.of [] ∅ r.events).output) = true)

end Runs

end Mir.BatchFetcher
