import Mir.Orderers.Micro

/-!
# Every step is a sequence of elementary steps

One lemma for each handler, and `step_micros` for whole steps. Messages taken from a buffer
count as received, so the lemmas about entering a view rest on `BuffersSound`, which elementary
steps keep (`Micro.buffersSound`).
-/

namespace Mir.Orderers

open Fallible

variable {env : Env} {p : ModuleParams} {K : Guards} {o o' : Orderer} {sender : NodeID}
  {msg : BufferedMsg}

/-! ### Histories only grow -/

/-- The history of `o'` extends that of `o`. -/
structure Grows (o o' : Orderer) : Prop where
  out : o.out <+: o'.out
  log : o.log <+: o'.log
  marks : o.marks <+: o'.marks

theorem Grows.refl (o : Orderer) : Grows o o :=
  ⟨List.prefix_rfl, List.prefix_rfl, List.prefix_rfl⟩

theorem Grows.trans {o₁ o₂ o₃ : Orderer} (h : Grows o₁ o₂) (h' : Grows o₂ o₃) : Grows o₁ o₃ :=
  ⟨h.out.trans h'.out, h.log.trans h'.log, h.marks.trans h'.marks⟩

theorem grows_deliver (p : ModuleParams) (sn : SeqNr) (pp : Preprepare)
    (timer : Option TimerEvent) (o : Orderer) : Grows o (deliver p sn pp timer o) := by
  obtain ⟨chkp, xs, heq, -⟩ := deliver_spec p sn pp timer o
  rw [heq]
  exact ⟨List.prefix_append _ _, List.prefix_rfl, List.prefix_rfl⟩

/-- What starting a view leaves as it is; it emits timers. -/
structure ViewStart (v : ViewNr) (o o' : Orderer) : Prop where
  view : o'.state.view = v
  inViewChange : o'.state.inViewChange = o.state.inViewChange
  proposal : o'.state.proposal = o.state.proposal
  messageBuffers : o'.state.messageBuffers = o.state.messageBuffers
  log : o'.log = o.log
  marks : o'.marks = o.marks
  out : ∃ xs, o'.out = o.out ++ xs ∧ ∀ x ∈ xs, ∃ delay event, x = .timerDelay delay event

theorem initView_frame {v : ViewNr} (h : initView p v o = .ok o') : ViewStart v o o' := by
  rcases initView_cases h with ⟨-, hv, rfl⟩ | ⟨-, slots, n, -, rfl⟩
  · exact ⟨hv.symm, rfl, rfl, rfl, rfl, rfl, [], (List.append_nil _).symm, List.forall_mem_nil _⟩
  · refine ⟨rfl, rfl, rfl, rfl, rfl, rfl, _, List.append_assoc _ _ _, fun x hx => ?_⟩
    rcases List.mem_pair.mp hx with rfl | rfl
    · exact ⟨_, _, rfl⟩
    · exact ⟨_, _, rfl⟩

theorem ViewStart.grows {v : ViewNr} (h : ViewStart v o o') : Grows o o' := by
  obtain ⟨xs, hout, -⟩ := h.out
  exact ⟨⟨xs, hout.symm⟩, h.log ▸ List.prefix_rfl, h.marks ▸ List.prefix_rfl⟩

/-- **Histories only grow.** -/
theorem Micro.grows (h : Micro env p K o o') : Grows o o' := by
  cases h with
  | log ev => exact ⟨List.prefix_rfl, List.prefix_append _ _, List.prefix_rfl⟩
  | emit x _ => exact ⟨List.prefix_append _ _, List.prefix_rfl, List.prefix_rfl⟩
  | buffers | proposal | viewChangeState | nodeDone | catchingUp =>
    exact ⟨List.prefix_rfl, List.prefix_rfl, List.prefix_rfl⟩
  | slot sn slot slot' m x =>
    refine ⟨?_, ?_, ?_⟩
    · rw [Orderer.record_out]
      exact List.prefix_append _ _
    · rw [Orderer.record_log]
      exact List.prefix_rfl
    · rw [Orderer.record_marks]
      exact List.prefix_append _ _
  | decide sn slot slot' m pp timer =>
    have hmark : Grows o ((o.setSlot sn slot').mark m) :=
      ⟨List.prefix_rfl, List.prefix_rfl, List.prefix_append _ _⟩
    exact hmark.trans (grows_deliver p sn pp timer _)
  | startView _ h =>
    have hg := (initView_frame h).grows
    exact ⟨hg.out, hg.log, hg.marks⟩
  | newView o₁ nv ord data _ _ _ h =>
    exact (initView_frame h).grows.trans
      ⟨List.prefix_rfl, List.prefix_rfl, List.prefix_append _ _⟩

theorem Micros.grows (h : Micros env p K o o') : Grows o o' := by
  induction h with
  | refl => exact Grows.refl _
  | tail _ hstep ih => exact ih.trans hstep.grows

/-! ### What is emitted -/

/-- Where an event comes from that an elementary step emits: on its own, with a new view, with
the update of a slot, or with a decision. -/
inductive EmitOrigin (env : Env) (p : ModuleParams) (K : Guards) (o o' : Orderer) : Output → Prop
  | own {x : Output} (h : Origin env p o x) (hstate : o'.state = o.state) :
      EmitOrigin env p K o o' x
  | timer (delay : ℤ) (event : TimerEvent) : EmitOrigin env p K o o' (.timerDelay delay event)
  | slot {sn : SeqNr} {slot slot' : PbftSlot} {m : Option Mark} {x : Output}
      (hslot : o.slot? sn = some slot) (hupdate : SlotUpdate env p K o sn slot slot' m (some x))
      (hnext : o' = (o.setSlot sn slot').record m (some x)) : EmitOrigin env p K o o' x
  | done {sn : SeqNr} {slot slot' : PbftSlot} {m : Mark} {pp : Preprepare}
      (hslot : o.slot? sn = some slot) (hcom : slot.committed = false)
      (hdec : Decides env o sn slot slot' m pp) (hmarks : o'.marks = o.marks ++ [m])
      (hall : (o.setSlot sn slot').state.allCommitted = true) :
      EmitOrigin env p K o o' (.timerRepeat p.config.doneResendPeriod p.config.epochNr
        (.done (doneDigests (o.setSlot sn slot').state)) p.segment.nodeIDs)
  | deliver {sn : SeqNr} {slot slot' : PbftSlot} {m : Mark} {pp : Preprepare}
      (hslot : o.slot? sn = some slot) (hcom : slot.committed = false)
      (hdec : Decides env o sn slot slot' m pp) (hmarks : o'.marks = o.marks ++ [m]) :
      EmitOrigin env p K o o' (.sbDeliver sn pp.data pp.aborted p.segment.leader)

theorem marks_deliver (p : ModuleParams) (sn : SeqNr) (pp : Preprepare)
    (timer : Option TimerEvent) (o : Orderer) : (deliver p sn pp timer o).marks = o.marks := by
  obtain ⟨chkp, xs, heq, -⟩ := deliver_spec p sn pp timer o
  rw [heq]

/-- **What an elementary step emits has its origin.** -/
theorem Micro.out_append (h : Micro env p K o o') :
    ∃ xs, o'.out = o.out ++ xs ∧ ∀ x ∈ xs, EmitOrigin env p K o o' x := by
  cases h with
  | emit y hy =>
    refine ⟨[y], rfl, fun x hx => ?_⟩
    rw [List.mem_singleton.mp hx]
    exact .own hy rfl
  | slot sn slot slot' m y hslot hupdate =>
    refine ⟨y.toList, Orderer.record_out _ m y, fun x hx => ?_⟩
    obtain rfl := Option.mem_toList.mp hx
    exact .slot hslot hupdate rfl
  | decide sn slot slot' m pp timer hslot hcom hdec =>
    have hmarks := marks_deliver p sn pp timer ((o.setSlot sn slot').mark m)
    obtain ⟨chkp, xs, heq, hxs⟩ := deliver_spec p sn pp timer ((o.setSlot sn slot').mark m)
    refine ⟨xs ++ [.sbDeliver sn pp.data pp.aborted p.segment.leader], congrArg Orderer.out heq,
      forall_mem_concat (fun x hx => ?_) (.deliver hslot hcom hdec hmarks)⟩
    cases hxs x hx with
    | timer => exact .timer _ _
    | done hall => exact .done hslot hcom hdec hmarks hall
  | startView _ h | newView o₁ nv ord data _ _ _ h =>
    obtain ⟨xs, heq, hxs⟩ := (initView_frame h).out
    refine ⟨xs, heq, fun x hx => ?_⟩
    obtain ⟨delay, event, rfl⟩ := hxs x hx
    exact .timer _ _
  | log | buffers | proposal | viewChangeState | nodeDone | catchingUp =>
    exact ⟨[], (List.append_nil _).symm, fun x hx => absurd hx List.not_mem_nil⟩

/-- An emitted event was emitted before or has its origin in the step. -/
theorem Micro.mem_out (h : Micro env p K o o') {x : Output} (hx : x ∈ o'.out) :
    x ∈ o.out ∨ EmitOrigin env p K o o' x := by
  obtain ⟨xs, heq, hxs⟩ := h.out_append
  rw [heq] at hx
  exact (List.mem_append.mp hx).imp_right (hxs x)

/-! ### What is marked -/

/-- Where a mark comes from that an elementary step records. -/
inductive MarkOrigin (env : Env) (p : ModuleParams) (K : Guards) (o : Orderer) : Mark → Prop
  | slot {sn : SeqNr} {slot slot' : PbftSlot} {m : Mark} {x : Option Output}
      (hslot : o.slot? sn = some slot) (hupdate : SlotUpdate env p K o sn slot slot' (some m) x) :
      MarkOrigin env p K o m
  | decide {sn : SeqNr} {slot slot' : PbftSlot} {m : Mark} {pp : Preprepare}
      (hslot : o.slot? sn = some slot) (hcom : slot.committed = false)
      (hdec : Decides env o sn slot slot' m pp) : MarkOrigin env p K o m
  | accepted {nv : NewView} {ord : MapOrder} {data : List Bytes}
      (hreq : .hashRequest data (.newView nv) ∈ o.out)
      (hacc : AcceptsNewView ord p (data.map env.hash) nv o.state) (hK : K.newView o.state nv) :
      MarkOrigin env p K o (.accepted nv)

/-- **A recorded mark has its origin.** -/
theorem Micro.mem_marks (h : Micro env p K o o') {m : Mark} (hm : m ∈ o'.marks) :
    m ∈ o.marks ∨ MarkOrigin env p K o m := by
  cases h with
  | slot sn slot slot' m' x hslot hupdate =>
    rw [Orderer.record_marks, List.mem_append, Option.mem_toList] at hm
    rcases hm with hm | rfl
    · exact Or.inl hm
    · exact Or.inr (.slot hslot hupdate)
  | decide sn slot slot' m' pp timer hslot hcom hdec =>
    rw [marks_deliver] at hm
    rcases List.mem_append.mp hm with hm | hm
    · exact Or.inl hm
    · rw [List.mem_singleton.mp hm]
      exact Or.inr (.decide hslot hcom hdec)
  | startView _ h =>
    rw [(initView_frame h).marks] at hm
    exact Or.inl hm
  | newView o₁ nv ord data hreq hacc hK h =>
    rcases List.mem_append.mp hm with hm | hm
    · rw [Orderer.withState_marks, (initView_frame h).marks] at hm
      exact Or.inl hm
    · rw [List.mem_singleton.mp hm]
      exact Or.inr (.accepted hreq hacc hK)
  | log | emit | buffers | proposal | viewChangeState | nodeDone | catchingUp => exact Or.inl hm

/-- At most one event is consumed; it is enabled and meets the guard. -/
theorem Micro.log_cases (h : Micro env p K o o') :
    o'.log = o.log ∨ ∃ ev, o'.log = o.log ++ [ev] ∧ Enabled env p o ev ∧ K.event ev := by
  cases h with
  | log ev hen hK => exact Or.inr ⟨ev, rfl, hen, hK⟩
  | slot => exact Or.inl (Orderer.record_log _ _ _)
  | decide sn slot slot' m pp timer =>
    obtain ⟨chkp, xs, heq, -⟩ := deliver_spec p sn pp timer ((o.setSlot sn slot').mark m)
    rw [heq]
    exact Or.inl rfl
  | startView _ h | newView o₁ nv ord data _ _ _ h => exact Or.inl (initView_frame h).log
  | emit | buffers | proposal | viewChangeState | nodeDone | catchingUp => exact Or.inl rfl

/-! ### Buffers stay sound -/

theorem BufferOrigin.mono (hg : Grows o o') {sender : NodeID} {msg : BufferedMsg}
    (h : BufferOrigin p o sender msg) : BufferOrigin p o' sender msg := by
  refine ⟨h.1, ?_⟩
  have hmsg := h.2
  cases msg with
  | preprepare pp => exact hg.out.subset hmsg
  | prepare prepare => exact hg.log.subset hmsg
  | commit commit => exact hg.log.subset hmsg

theorem BuffersSound.mono (hg : Grows o o')
    (hbuf : o'.state.messageBuffers = o.state.messageBuffers) (h : BuffersSound p o) :
    BuffersSound p o' := by
  intro sender buffer hlookup msg hmsg
  rw [hbuf] at hlookup
  exact (h sender buffer hlookup msg hmsg).mono hg

/-- Messages are buffered by steps that change the buffers only. -/
theorem Micro.messageBuffers_cases (h : Micro env p K o o') :
    o'.state.messageBuffers = o.state.messageBuffers ∨ BuffersSound p o' ∧
      ∀ id, id ∈ o'.state.messageBuffers.keys ↔ id ∈ o.state.messageBuffers.keys := by
  cases h with
  | buffers _ hkeys hbuf => exact .inr ⟨hbuf, hkeys⟩
  | decide sn slot slot' m pp timer =>
    obtain ⟨chkp, xs, heq, -⟩ := deliver_spec p sn pp timer ((o.setSlot sn slot').mark m)
    rw [heq]
    exact .inl rfl
  | startView _ h | newView o₁ nv ord data _ _ _ h => exact .inl (initView_frame h).messageBuffers
  | slot sn slot slot' m x =>
    rw [Orderer.record_state]
    exact .inl rfl
  | log | emit | proposal | viewChangeState | nodeDone | catchingUp => exact .inl rfl

/-- **Elementary steps keep the buffers sound.** -/
theorem Micro.buffersSound (h : Micro env p K o o') (hb : BuffersSound p o) :
    BuffersSound p o' :=
  h.messageBuffers_cases.elim (fun hsame => hb.mono h.grows hsame) And.left

theorem Micros.buffersSound (h : Micros env p K o o') (hb : BuffersSound p o) :
    BuffersSound p o' := by
  induction h with
  | refl => exact hb
  | tail _ hstep ih => exact hstep.buffersSound ih

theorem Micro.mem_keys_messageBuffers (h : Micro env p K o o') {id : NodeID} :
    id ∈ o'.state.messageBuffers.keys ↔ id ∈ o.state.messageBuffers.keys := by
  rcases h.messageBuffers_cases with hsame | ⟨-, hkeys⟩
  · rw [hsame]
  · exact hkeys id

theorem Micros.mem_keys_messageBuffers (h : Micros env p K o o') {id : NodeID} :
    id ∈ o'.state.messageBuffers.keys ↔ id ∈ o.state.messageBuffers.keys := by
  induction h with
  | refl => rfl
  | tail _ hstep ih => exact hstep.mem_keys_messageBuffers.trans ih

/-! ### Advancing a slot -/

/-- A handler that stops at a check has changed nothing. -/
theorem Micros.of_check {c : Prop} [Decidable c] {rest : Fallible Orderer}
    (h : (if c then .ok o else rest) = .ok o')
    (hrest : ¬ c → rest = .ok o' → Micros env p K o o') : Micros env p K o o' := by
  split at h
  · cases h
    exact .refl
  · next hc => exact hrest hc h

theorem advancePrepared_micros {sn : SeqNr} (h : advancePrepared p sn o = .ok o') :
    Micros env p K o o' := by
  obtain ⟨slot, hslot, h⟩ := bind_eq_ok.mp h
  rw [deref_eq_ok] at hslot
  refine Micros.of_check h fun hprep h => ?_
  obtain ⟨⟨slot', b⟩, hcheck, h⟩ := bind_eq_ok.mp h
  rw [Bool.not_eq_true] at hprep
  rcases PbftSlot.checkPrepared_cases hcheck with ⟨rfl, rfl⟩ | ⟨hpp, received, valid, hd, rfl⟩
  · cases h
    exact .single (.slot o sn _ _ none none hslot .touch)
  · cases b with
    | false =>
      cases h
      exact .single (.slot o sn slot _ none none hslot (.checkPrepares received valid hpp hprep hd))
    | true =>
      cases h
      exact .single (.slot o sn slot _ (some _) (some _) hslot
        (.prepare received valid hpp hprep hd))

theorem advanceCommitted_micros {sn : SeqNr} (h : advanceCommitted p sn o = .ok o') :
    Micros env p K o o' := by
  obtain ⟨slot, hslot, h⟩ := bind_eq_ok.mp h
  rw [deref_eq_ok] at hslot
  refine Micros.of_check h fun hcom h => ?_
  obtain ⟨⟨slot', b⟩, hcheck, h⟩ := bind_eq_ok.mp h
  rw [Bool.not_eq_true] at hcom
  rcases PbftSlot.checkCommitted_cases hcheck with ⟨rfl, rfl⟩ | ⟨hp, received, valid, hd, rfl⟩
  · cases h
    exact .single (.slot o sn _ _ none none hslot .touch)
  · cases b with
    | false =>
      cases h
      exact .single (.slot o sn slot _ none none hslot (.checkCommits received valid hcom hp hd))
    | true =>
      obtain ⟨stable, -, h⟩ := bind_eq_ok.mp h
      obtain ⟨pp, hpp, h⟩ := bind_eq_ok.mp h
      cases h
      rw [deref_eq_ok] at hpp
      have hdec : Decides env o sn slot _ (.committed o.state.view sn slot.digest) pp :=
        .commit hp hd hpp
      -- the timer of the next sequence number is set unless the checkpoint is stable
      cases stable with
      | true => exact .single (.decide o sn slot _ _ pp none hslot hcom hdec nofun)
      | false =>
        refine .single (.decide o sn slot _ _ pp (some _) hslot hcom hdec fun event hevent => ?_)
        cases hevent
        exact ⟨_, _, rfl⟩

theorem advanceSlotState_micros {sn : SeqNr} (h : advanceSlotState p sn o = .ok o') :
    Micros env p K o o' := by
  obtain ⟨o₁, h₁, h₂⟩ := bind_eq_ok.mp h
  exact (advancePrepared_micros h₁).trans (advanceCommitted_micros h₂)

/-! ### Messages of the good case -/

/-- Storing a received message in the buffer of its sender keeps the buffers sound. -/
theorem BuffersSound.store {buffer : MessageBuffer BufferedMsg} (hb : BuffersSound p o)
    (hbuffer : o.state.messageBuffers.lookup sender = some buffer)
    (hmsg : BufferOrigin p o sender msg) :
    BuffersSound p (o.withState { o.state with
      messageBuffers := o.state.messageBuffers.insert sender (buffer.store p.protoSize msg) }) := by
  refine GoMap.forall_lookup_insert hb fun m hm => ?_
  rcases MessageBuffer.mem_of_mem_store p.protoSize hm with rfl | hold
  · exact hmsg
  · exact hb _ buffer hbuffer m hold

/-- What `preprocessMessage` lets through: a message of the current view, outside a view change,
for a slot that is not committed. -/
theorem Micros.of_preprocess {sn : SeqNr} {rest : Orderer × Option PbftSlot → Fallible Orderer}
    (hb : BuffersSound p o) (hmsg : BufferOrigin p o sender msg)
    (h : preprocessMessage p sn msg sender o >>= rest = .ok o')
    (hnone : ∀ o₁, rest (o₁, none) = .ok o₁)
    (hsome : ∀ slot, msg.view = o.state.view → o.state.inViewChange = false →
      o.slot? sn = some slot → slot.committed = false → rest (o, some slot) = .ok o' →
      Micros env p K o o') : Micros env p K o o' := by
  have hrefl (h : rest (o, none) = .ok o') : Micros env p K o o' :=
    Except.ok.inj ((hnone o).symm.trans h) ▸ .refl
  unfold preprocessMessage at h
  split at h
  · exact hrefl h
  · next hpast =>
    split at h
    · obtain ⟨⟨o₁, slot?⟩, hstore, h⟩ := bind_eq_ok.mp h
      obtain ⟨buffer, hbuffer, hstore⟩ := bind_eq_ok.mp hstore
      rw [deref_eq_ok] at hbuffer
      cases hstore
      obtain rfl := Except.ok.inj ((hnone _).symm.trans h)
      exact .single (.buffers o _ (GoMap.mem_keys_insert_of_lookup hbuffer)
        (hb.store hbuffer hmsg))
    · next hnow =>
      rw [not_or, Bool.not_eq_true] at hnow
      have hview : msg.view = o.state.view :=
        UInt64.le_antisymm (UInt64.not_lt.mp hnow.1) (UInt64.not_lt.mp hpast)
      split at h
      · exact hrefl h
      · next slot hslot =>
        split at h
        · exact hrefl h
        · next hcom => exact hsome slot hview hnow.2 hslot (Bool.not_eq_true _ ▸ hcom) h

theorem applyMsgPreprepareValidated_micros {valid : Bool} {pp : Preprepare}
    (hb : BuffersSound p o) (hmsg : BufferOrigin p o sender (.preprepare pp))
    (hK : valid = true → AcceptsPreprepare p pp sender o.state → K.accept o.state o.marks pp)
    (h : applyMsgPreprepareValidated p valid pp sender o = .ok o') : Micros env p K o o' := by
  unfold applyMsgPreprepareValidated at h
  split at h
  · next hvalid =>
    refine .of_preprocess hb hmsg h (fun _ => rfl) fun slot hview hivc hslot hcom h => ?_
    refine .of_check h fun hnone h => ?_
    rw [Bool.not_eq_true, Option.isSome_eq_false_iff, Option.isNone_iff_eq_none] at hnone
    obtain ⟨primary, hprimary, h⟩ := bind_eq_ok.mp h
    refine .of_check h fun hsender h => ?_
    cases h
    rw [ne_eq, not_not] at hsender
    subst hsender
    refine .single (.slot o pp.sn slot _ none (some _) hslot
      (.accept pp sender rfl hcom hnone hview hivc hprimary hmsg.2 ?_))
    exact hK hvalid ⟨hview, hivc, hprimary, slot, hslot, hcom, hnone⟩
  · cases h
    exact .refl

theorem applyMsgPrepare_micros {prepare : Prepare} (hb : BuffersSound p o)
    (hmsg : BufferOrigin p o sender (.prepare prepare))
    (h : applyMsgPrepare p prepare sender o = .ok o') : Micros env p K o o' := by
  refine Micros.of_check h fun hsome h₁ => ?_
  rw [Option.isNone_iff_eq_none, ← ne_eq, Option.ne_none_iff_exists'] at hsome
  obtain ⟨d, hd⟩ := hsome
  refine .of_preprocess hb hmsg h₁ (fun _ => rfl) fun slot hview _ hslot hcom h₂ => ?_
  refine .of_check h₂ fun hnew h₃ => ?_
  have hrcv := hmsg.2
  obtain ⟨sn, view, digest⟩ := prepare
  subst hd hview
  refine .head (.slot o sn slot _ none none hslot ?_) (advanceSlotState_micros h₃)
  exact .addPrepare d sender hcom hnew hmsg.1 hrcv

theorem applyMsgCommit_micros {commit : Commit} (hb : BuffersSound p o)
    (hmsg : BufferOrigin p o sender (.commit commit))
    (h : applyMsgCommit p commit sender o = .ok o') : Micros env p K o o' := by
  refine Micros.of_check h fun hsome h₁ => ?_
  rw [Option.isNone_iff_eq_none, ← ne_eq, Option.ne_none_iff_exists'] at hsome
  obtain ⟨d, hd⟩ := hsome
  refine .of_preprocess hb hmsg h₁ (fun _ => rfl) fun slot hview _ hslot hcom h₂ => ?_
  refine .of_check h₂ fun hnew h₃ => ?_
  have hrcv := hmsg.2
  obtain ⟨sn, view, digest⟩ := commit
  subst hd hview
  refine .head (.slot o sn slot _ none none hslot ?_) (advanceSlotState_micros h₃)
  exact .addCommit d sender hcom hnew hmsg.1 hrcv

/-- A buffered Preprepare is validated again; it counts as received because it was before. -/
theorem applyBufferedMsg_micros (hb : BuffersSound p o) (hmsg : BufferOrigin p o sender msg)
    (h : applyBufferedMsg p sender o msg = .ok o') : Micros env p K o o' := by
  cases msg with
  | preprepare pp =>
    cases h
    exact .single (.emit o _ ⟨hmsg.1, Or.inr (Or.inr hmsg.2)⟩)
  | prepare prepare => exact applyMsgPrepare_micros hb hmsg h
  | commit commit => exact applyMsgCommit_micros hb hmsg h

theorem uponPreprepareHashed_micros {pp : Preprepare} {data : Bytes}
    (hreq : .hashRequestOne data (.preprepare pp) ∈ o.out)
    (hK : ¬ pp.view < o.state.view → K.hashed o.state pp)
    (h : uponPreprepareHashed p (env.hash data) pp o = .ok o') : Micros env p K o o' := by
  refine Micros.of_check h fun hview h => ?_
  obtain ⟨slot, hslot, h⟩ := bind_eq_ok.mp h
  rw [deref_eq_ok] at hslot
  refine .head (.slot o pp.sn slot _ none (some _) hslot ?_) (advanceSlotState_micros h)
  exact .hashed pp data rfl hview hreq (hK hview)

/-! ### Proposing -/

theorem Micros.emit {x : Output} (h : Micros env p K o o') (hx : Origin env p o' x) :
    Micros env p K o (o'.emit x) :=
  h.tail (.emit o' x hx)

theorem propose_micros {data : Bytes} (hev : o.Proposing)
    (hview : o.state.view = 0 ∨ o.state.proposal.certRequestedView = o.state.view)
    (h : propose p data o = .ok o') : Micros env p K o o' := by
  obtain ⟨sn, -, h⟩ := bind_eq_ok.mp h
  cases h
  have hmade : Micro env p K o (o.withState { o.state with proposal := { o.state.proposal with
      proposalsMade := o.state.proposal.proposalsMade + 1 } }) :=
    .proposal o _ (Or.inl rfl) hev
  exact Micros.emit (Micros.emit (.single hmade) ⟨rfl, hview, hev⟩) ⟨_, rfl⟩

theorem applyProposeTimeout_micros {numProposals : ℤ} (hev : o.Proposing)
    (h : applyProposeTimeout p numProposals o = .ok o') : Micros env p K o o' := by
  unfold applyProposeTimeout at h
  split at h
  · have htimeout : Micro env p K o (o.withState { o.state with
        proposal := { o.state.proposal with proposalTimeout := numProposals } }) :=
      .proposal o _ (Or.inl rfl) hev
    dsimp only at h
    split at h
    · next hcan =>
      have hzero : o.state.view = 0 := by
        simp only [canPropose, Orderer.withState_state, Bool.and_eq_true, beq_iff_eq] at hcan
        exact hcan.1.1.1.1.2
      obtain ⟨sn, -, h⟩ := bind_eq_ok.mp h
      split at h
      · exact .head htimeout (propose_micros hev (Or.inl hzero) h)
      · cases h
        refine Micros.emit (.tail (.single htimeout) ?_) hev
        exact .proposal _ _ (Or.inr hzero) hev
    · cases h
      exact .single htimeout
  · cases h
    exact .refl

theorem uponNewCert_micros {cert : Bytes} (hev : o.Proposing)
    (h : uponNewCert p cert o = .ok o') : Micros env p K o o' := by
  have hcert : Micro env p K o (o.withState { o.state with
      proposal := { o.state.proposal with certRequested := false } }) :=
    .proposal o _ (Or.inl rfl) hev
  unfold uponNewCert at h
  dsimp only at h
  split at h
  · next hview => exact .head hcert (propose_micros hev (Or.inr hview) h)
  · cases h
    exact .single hcert

/-! ### Catching up -/

theorem uponCatchUpHashed_micros {pp : Preprepare} {data : Bytes}
    (hreq : .hashRequestOne data (.catchUpResponse pp) ∈ o.out)
    (h : uponCatchUpHashed p (env.hash data) pp o = .ok o') : Micros env p K o o' := by
  obtain ⟨slot, hslot, h⟩ := bind_eq_ok.mp h
  rw [deref_eq_ok] at hslot
  refine Micros.of_check h fun hcom h => ?_
  rw [Bool.not_eq_true] at hcom
  split at h
  · cases h
    exact .refl
  · next digests hdigests =>
    refine Micros.of_check h fun hmatch h => ?_
    cases h
    rw [ne_eq, not_not] at hmatch
    exact .single (.decide o pp.sn slot _ _ { pp with view := o.state.view } none hslot hcom
      (.catchUp rfl hreq hdigests hmatch) nofun)

theorem mem_catchUpRequests {s : State} {digests : GoMap SeqNr Bytes} {sns : List SeqNr}
    {requests : List Message} (h : catchUpRequests s digests sns = .ok requests) :
    ∀ msg ∈ requests, ∃ digest sn, msg = .catchUpRequest digest sn := by
  induction sns generalizing requests with
  | nil =>
    cases h
    intro msg hmsg
    cases hmsg
  | cons sn sns ih =>
    obtain ⟨slot, -, h⟩ := bind_eq_ok.mp h
    obtain ⟨rest, hrest, h⟩ := bind_eq_ok.mp h
    split at h
    · cases h
      exact ih hrest
    · cases h
      intro msg hmsg
      rcases List.mem_cons.mp hmsg with rfl | hmsg
      · exact ⟨_, _, rfl⟩
      · exact ih hrest msg hmsg

theorem applyMsgDone_micros {digests : List Bytes}
    (hmem : sender ∈ p.segment.membership.nodes.keys)
    (hrcv : .messageReceived sender (.done digests) ∈ o.log) (hK : K.done o.log digests)
    (h : applyMsgDone p digests sender o = .ok o') : Micros env p K o o' := by
  obtain ⟨chkp, hchkp, h⟩ := bind_eq_ok.mp h
  have hdone : Micro env p K o (o.setCheckpoint chkp) :=
    .nodeDone o sender digests chkp hmem hrcv hK hchkp
  dsimp only at h
  split at h
  · cases h
    exact .single hdone
  · obtain ⟨requests, hrequests, h⟩ := bind_eq_ok.mp h
    cases h
    exact ((Relation.ReflTransGen.single hdone).tail (.catchingUp _)).tail
      (.emit _ _ (mem_catchUpRequests hrequests))

theorem applyMsgCatchUpRequest_micros (digest : ByteSlice) (sn : SeqNr) (sender : NodeID)
    (o : Orderer) : Micros env p K o (applyMsgCatchUpRequest digest sn sender o) := by
  unfold applyMsgCatchUpRequest
  split
  · exact .refl
  · split
    · exact .refl
    · exact .single (.emit _ _ trivial)

theorem applyMsgCatchUpResponse_micros (resp : Option Preprepare) (o : Orderer) :
    Micros env p K o (applyMsgCatchUpResponse resp o) := by
  unfold applyMsgCatchUpResponse
  split
  · exact .refl
  · split
    · exact .refl
    · next slot hslot =>
      split
      · exact .refl
      · exact .single (.emit _ _ ⟨rfl, by rw [hslot]; rfl⟩)

end Mir.Orderers
