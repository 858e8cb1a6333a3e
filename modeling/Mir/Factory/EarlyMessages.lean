import Mir.Factory.Module

/-!
# Early messages and the buffer

The buffer for early messages is bounded. A message that does not fit into the empty buffer is
discarded, and the others are evicted oldest first. So of the early messages that fit, the buffer holds
exactly those that have not been pushed out by later ones, which are the messages from some point on
(`BufferedSuffix`). Buffering a message and taking out the messages for one submodule keep this.
-/

namespace Mir.Factory

open Events MessageBuffer

variable {S : Type} {p : ModuleParams S} {s s' : State S} {early : List EarlyMessage}

/-! ### Pushing out -/

theorem map_event_pushOut (p : ModuleParams S) (early : List EarlyMessage) :
    (pushOut p early).map EarlyMessage.event = early.map EarlyMessage.event := by
  induction early with
  | nil => rfl
  | cons e early ih => exact congrArg (e.event :: ·) ih

theorem map_event_recordEarly (p : ModuleParams S) (event : Event) (early : List EarlyMessage) :
    (recordEarly p event early).map EarlyMessage.event =
      early.map EarlyMessage.event ++ [event] := by
  rw [recordEarly]
  split
  · rw [map_event_pushOut, List.map_append, List.map_singleton]
  · rw [List.map_append, List.map_singleton]

/-- The messages that are stored. -/
def stored (p : ModuleParams S) (early : List EarlyMessage) : List EarlyMessage :=
  early.filter fun e => fits p e.event

theorem stored_cons (p : ModuleParams S) (e : EarlyMessage) (early : List EarlyMessage) :
    stored p (e :: early) = if fits p e.event then e :: stored p early else stored p early :=
  List.filter_cons

theorem stored_concat (p : ModuleParams S) (early : List EarlyMessage) (event : Event) :
    stored p (early ++ [⟨event, false⟩]) =
      stored p early ++ if fits p event then [⟨event, false⟩] else [] := by
  rw [stored, List.filter_append, ← stored, ← stored, stored_cons]
  rfl

theorem storedSize_stored (p : ModuleParams S) (early : List EarlyMessage) :
    storedSize p (stored p early) = storedSize p early := by
  rw [storedSize, stored, List.filter_map, List.filter_filter, storedSize, List.filter_map]
  simp [Function.comp_def]

/-- Messages that are not stored do not matter. -/
theorem stored_pushOut (p : ModuleParams S) (early : List EarlyMessage) :
    stored p (pushOut p early) = pushOut p (stored p early) := by
  induction early with
  | nil => rfl
  | cons e early ih =>
    have hsize := storedSize_stored p (e :: early)
    rw [pushOut, stored_cons, stored_cons, ih]
    rw [stored_cons] at hsize
    by_cases hfits : fits p e.event = true
    · rw [if_pos hfits] at hsize
      rw [if_pos hfits, if_pos hfits, pushOut, hsize]
    · rw [if_neg hfits, if_neg hfits]

/-- If all messages fit into the buffer, none is pushed out. -/
theorem pushOut_eq_self (h : storedSize p early ≤ p.msgBufSize) : pushOut p early = early := by
  induction early with
  | nil => rfl
  | cons e early ih =>
    have htail : storedSize p early ≤ storedSize p (e :: early) := by
      rw [storedSize, storedSize, List.map_cons, List.filter_cons]
      split
      · exact Nat.le_add_left _ _
      · exact Nat.le_refl _
    rw [pushOut, ih (htail.trans h), decide_eq_false (Nat.not_lt.mpr h), Bool.and_false, Bool.or_false]

/-- What has been pushed out stays so. -/
theorem pushOut_append {evicted : List EarlyMessage} (h : ∀ e ∈ evicted, e.pushedOut = true)
    (early : List EarlyMessage) : pushOut p (evicted ++ early) = evicted ++ pushOut p early := by
  induction evicted with
  | nil => rfl
  | cons e evicted ih =>
    obtain ⟨he, htail⟩ := List.forall_mem_cons.mp h
    obtain ⟨event, pushedOut⟩ := e
    obtain rfl : pushedOut = true := he
    rw [List.cons_append, pushOut, Bool.true_or, ih htail]
    rfl

/-- **The eviction loop drops the messages that are pushed out.** -/
theorem evict_pushOut {event : Event} (hevent : fits p event = true) {kept : List EarlyMessage}
    (hfits : ∀ e ∈ kept, fits p e.event = true) (hkept : ∀ e ∈ kept, e.pushedOut = false) :
    ∃ dropped rest, pushOut p (kept ++ [⟨event, false⟩]) = dropped ++ (rest ++ [⟨event, false⟩]) ∧
      evict p.protoSize p.msgBufSize (p.protoSize event) (kept.map EarlyMessage.event) =
        rest.map EarlyMessage.event ∧
      (∀ e ∈ dropped, e.pushedOut = true) ∧ ∀ e ∈ rest, e.pushedOut = false := by
  induction kept with
  | nil =>
    refine ⟨[], [], pushOut_eq_self ?_, rfl, nofun, nofun⟩
    simpa [storedSize, hevent, size] using of_decide_eq_true hevent
  | cons e kept ih =>
    obtain ⟨he, hfits'⟩ := List.forall_mem_cons.mp hfits
    obtain ⟨-, hkept'⟩ := List.forall_mem_cons.mp hkept
    have hsize : storedSize p (e :: (kept ++ [⟨event, false⟩])) =
        size p.protoSize (e.event :: kept.map EarlyMessage.event) + p.protoSize event := by
      have hall : (kept.map EarlyMessage.event).filter (fits p) = kept.map EarlyMessage.event :=
        List.filter_eq_self.mpr (List.forall_mem_map.mpr hfits')
      simp [storedSize, size, he, hevent, hall, Nat.add_assoc]
    rw [List.map_cons, evict, List.cons_append]
    split
    next hfull =>
      obtain ⟨dropped, rest, hpush, hevict, hdropped, hrest⟩ := ih hfits' hkept'
      refine ⟨⟨e.event, true⟩ :: dropped, rest, ?_, hevict, List.forall_mem_cons.mpr ⟨rfl, hdropped⟩,
        hrest⟩
      rw [pushOut, hsize, he, decide_eq_true hfull, Bool.and_self, Bool.or_true, hpush]
      rfl
    next hroom =>
      refine ⟨[], e :: kept, pushOut_eq_self ?_, rfl, nofun, hkept⟩
      rw [hsize]
      exact Nat.le_of_not_lt hroom

/-! ### The buffer -/

/-- Of the early messages that are stored, the buffer holds those from some point on; the older ones,
and no others, have been pushed out. -/
structure BufferedSuffix (p : ModuleParams S) (s : State S) : Prop where
  capacity : s.messageBuffer.capacity = p.msgBufSize
  suffix : ∃ evicted kept, stored p s.early = evicted ++ kept ∧
    s.messageBuffer.messages = kept.map EarlyMessage.event ∧
    (∀ e ∈ evicted, e.pushedOut = true) ∧ ∀ e ∈ kept, e.pushedOut = false
  pushedOut : ∀ e ∈ s.early, e.pushedOut = true → fits p e.event = true

theorem bufferedSuffix_init (p : ModuleParams S) : BufferedSuffix p (State.init p) :=
  ⟨rfl, ⟨[], [], rfl, rfl, nofun, nofun⟩, nofun⟩

theorem BufferedSuffix.congr (h : BufferedSuffix p s) (hbuffer : s'.messageBuffer = s.messageBuffer)
    (hearly : s'.early = s.early) : BufferedSuffix p s' := by
  obtain ⟨hcapacity, hsuffix, hpushed⟩ := h
  rw [← hbuffer] at hcapacity hsuffix
  rw [← hearly] at hsuffix hpushed
  exact ⟨hcapacity, hsuffix, hpushed⟩

/-- Only stored messages are pushed out. -/
theorem fits_of_mem_pushOut (h : ∀ e ∈ early, e.pushedOut = true → fits p e.event = true) :
    ∀ e ∈ pushOut p early, e.pushedOut = true → fits p e.event = true := by
  induction early with
  | nil => exact nofun
  | cons e early ih =>
    obtain ⟨he, htail⟩ := List.forall_mem_cons.mp h
    refine List.forall_mem_cons.mpr ⟨fun hpushed => ?_, ih htail⟩
    rcases Bool.or_eq_true_iff.mp hpushed with hold | hnew
    · exact he hold
    · exact (Bool.and_eq_true_iff.mp hnew).1

theorem BufferedSuffix.tryBuffering (h : BufferedSuffix p s) (event : Event) :
    BufferedSuffix p (tryBuffering p s event) := by
  obtain ⟨evicted, kept, hstored, hmessages, hevicted, hkept⟩ := h.suffix
  have hnew : ∀ e ∈ s.early ++ [⟨event, false⟩], e.pushedOut = true → fits p e.event = true :=
    forall_mem_concat h.pushedOut nofun
  rw [Factory.tryBuffering]
  split
  next =>
    by_cases hfits : fits p event = true
    · -- the message is stored after the oldest ones have been evicted
      have hle : ¬ s.messageBuffer.capacity < p.protoSize event := by
        rw [h.capacity]
        exact Nat.not_lt.mpr (of_decide_eq_true hfits)
      have hfitsKept : ∀ e ∈ kept, fits p e.event = true := by
        intro e he
        have hmem : e ∈ stored p s.early := by
          rw [hstored]
          exact List.mem_append_right _ he
        exact (List.mem_filter.mp hmem).2
      obtain ⟨dropped, rest, hpush, hevict, hdropped, hrest⟩ := evict_pushOut hfits hfitsKept hkept
      refine ⟨?_, ⟨evicted ++ dropped, rest ++ [⟨event, false⟩], ?_, ?_, ?_, ?_⟩, ?_⟩
      · rw [store, if_neg hle]
        exact h.capacity
      · rw [recordEarly, if_pos hfits, stored_pushOut, stored_concat, if_pos hfits, hstored,
          List.append_assoc, pushOut_append hevicted, hpush, List.append_assoc]
      · rw [store, if_neg hle, h.capacity, hmessages, hevict, List.map_append]
        rfl
      · exact List.forall_mem_append.mpr ⟨hevicted, hdropped⟩
      · exact forall_mem_concat hrest rfl
      · rw [recordEarly, if_pos hfits]
        exact fits_of_mem_pushOut hnew
    · -- the message is too large and changes nothing
      have hstore : s.messageBuffer.store p.protoSize event = s.messageBuffer := by
        rw [store, h.capacity, if_pos (by simpa [fits] using hfits)]
      rw [recordEarly, if_neg hfits, hstore]
      refine ⟨h.capacity, ⟨evicted, kept, ?_, hmessages, hevicted, hkept⟩, hnew⟩
      rw [stored_concat, if_neg hfits, List.append_nil]
      exact hstored
  next => exact h

theorem BufferedSuffix.bufferEarlyMsgs (h : BufferedSuffix p s) (eventList : List Event) :
    BufferedSuffix p (bufferEarlyMsgs p s eventList) := by
  induction eventList generalizing s with
  | nil => exact h
  | cons event eventList ih => exact ih (h.tryBuffering event)

theorem BufferedSuffix.takeMessages (h : BufferedSuffix p s) (id : ModuleID) :
    BufferedSuffix p (takeMessages s id) := by
  obtain ⟨evicted, kept, hstored, hmessages, hevicted, hkept⟩ := h.suffix
  refine ⟨h.capacity, ⟨evicted.filter (fun e => decide (e.event.dest ≠ id)),
    kept.filter (fun e => decide (e.event.dest ≠ id)), ?_, ?_, ?_, ?_⟩, ?_⟩
  · rw [← List.filter_append, ← hstored]
    exact List.filter_comm _ _ _
  · change messagesForOthers id s.messageBuffer.messages = _
    rw [hmessages, messagesForOthers, List.filter_map]
    rfl
  · exact fun e he => hevicted e (List.mem_of_mem_filter he)
  · exact fun e he => hkept e (List.mem_of_mem_filter he)
  · exact fun e he => h.pushedOut e (List.mem_of_mem_filter he)

/-! ### What a new submodule is given -/

/-- The early messages for a submodule. -/
def State.earlyFor (s : State S) (id : ModuleID) : List EarlyMessage :=
  s.early.filter fun e => decide (e.event.dest = id)

/-- The messages that are due to a submodule when it is created: those that have not been pushed
out. -/
def State.dueFor (s : State S) (id : ModuleID) : List Event :=
  ((s.earlyFor id).filter fun e => !e.pushedOut).map EarlyMessage.event

/-- Only the oldest messages for a submodule have been pushed out. -/
def OldestPushedOut (s : State S) (id : ModuleID) : Prop :=
  ∃ evicted kept, s.earlyFor id = evicted ++ kept ∧ (∀ e ∈ evicted, e.pushedOut = true) ∧
    ∀ e ∈ kept, e.pushedOut = false

/-- The buffer holds the stored ones of the messages that are due. -/
theorem BufferedSuffix.messagesFor_eq (h : BufferedSuffix p s) (id : ModuleID) :
    messagesFor id s.messageBuffer.messages = (s.dueFor id).filter (fits p) := by
  obtain ⟨evicted, kept, hstored, hmessages, hevicted, hkept⟩ := h.suffix
  have hdue : (stored p s.early).filter (fun e => !e.pushedOut) = kept := by
    rw [hstored, List.filter_append, List.filter_eq_nil_iff.mpr (by simpa using hevicted),
      List.filter_eq_self.mpr (by simpa using hkept), List.nil_append]
  rw [hmessages, messagesFor, State.dueFor, State.earlyFor, ← hdue, stored, List.filter_map,
    List.filter_map]
  simp only [List.filter_filter, Function.comp_def]
  congr 2
  funext e
  grind

/-- **All messages that are due are delivered** if and only if all early messages fit into the
buffer. -/
theorem BufferedSuffix.messagesFor_eq_dueFor_iff (h : BufferedSuffix p s) (id : ModuleID) :
    messagesFor id s.messageBuffer.messages = s.dueFor id ↔
      ∀ e ∈ s.earlyFor id, p.protoSize e.event ≤ p.msgBufSize := by
  rw [h.messagesFor_eq, List.filter_eq_self]
  constructor
  · intro hdue e he
    by_cases hpushed : e.pushedOut = true
    · exact of_decide_eq_true (h.pushedOut e (List.mem_of_mem_filter he) hpushed)
    · refine of_decide_eq_true (hdue e.event (List.mem_map_of_mem (List.mem_filter.mpr ⟨he, ?_⟩)))
      simpa using hpushed
  · intro hall
    refine List.forall_mem_map.mpr fun e he => decide_eq_true (hall e (List.mem_of_mem_filter he))

/-- If all early messages fit, only the oldest are pushed out. -/
theorem BufferedSuffix.oldestPushedOut (h : BufferedSuffix p s) {id : ModuleID}
    (hall : ∀ e ∈ s.earlyFor id, p.protoSize e.event ≤ p.msgBufSize) : OldestPushedOut s id := by
  obtain ⟨evicted, kept, hstored, -, hevicted, hkept⟩ := h.suffix
  refine ⟨evicted.filter fun e => decide (e.event.dest = id),
    kept.filter fun e => decide (e.event.dest = id), ?_,
    fun e he => hevicted e (List.mem_of_mem_filter he),
    fun e he => hkept e (List.mem_of_mem_filter he)⟩
  rw [← List.filter_append, ← hstored, stored, List.filter_comm]
  exact (List.filter_eq_self.mpr fun e he => decide_eq_true (hall e he)).symm

end Mir.Factory
