import Mir.Orderers.Execution
import Mir.Orderers.SlotChanges

/-!
# Decided slots

What a node has delivered for a sequence number is exactly what its current slot has committed:
nothing before it is committed, and afterwards one delivery with the data and the aborted flag of
its Preprepare (`MReachable.delivered`). Deliveries cannot be taken back, so a decided slot stays
decided with the same value, in every later view, and is delivered only once.

The guard of `InitView` against entering a view twice leaves out view zero: a NewView for view
zero creates all slots anew, also the committed ones (`decided_slot_undone`).
-/

namespace Mir.Orderers

variable {env : Env} {p : ModuleParams} {K : Guards} {o o' : Orderer}

/-! ### Deliveries -/

/-- The values delivered for a sequence number: data and aborted flag. -/
def deliveries (out : List Output) (sn : SeqNr) : List (Bytes × Bool) :=
  out.filterMap fun
    | .sbDeliver sn' data aborted _ => if sn' = sn then some (data, aborted) else none
    | _ => none

@[simp] theorem deliveries_append (xs ys : List Output) (sn : SeqNr) :
    deliveries (xs ++ ys) sn = deliveries xs sn ++ deliveries ys sn :=
  List.filterMap_append

theorem deliveries_sbDeliver (sn sn' : SeqNr) (data : Bytes) (aborted : Bool) (leader : NodeID) :
    deliveries [.sbDeliver sn data aborted leader] sn' =
      if sn = sn' then [(data, aborted)] else [] := by
  unfold deliveries
  split
  · next h => simp [h]
  · next h => simp [h]

/-- Events other than deliveries deliver nothing. -/
theorem deliveries_eq_nil {xs : List Output}
    (h : ∀ sn data aborted leader, .sbDeliver sn data aborted leader ∉ xs) (sn : SeqNr) :
    deliveries xs sn = [] := by
  rw [deliveries, List.filterMap_eq_nil_iff]
  intro x hx
  split
  · next sn' data aborted leader => exact absurd hx (h sn' data aborted leader)
  · rfl

/-- Emitting further events that are not deliveries changes no deliveries. -/
theorem deliveries_append_eq {xs : List Output} (out : List Output)
    (h : ∀ sn data aborted leader, .sbDeliver sn data aborted leader ∉ xs) (sn : SeqNr) :
    deliveries (out ++ xs) sn = deliveries out sn := by
  rw [deliveries_append, deliveries_eq_nil h, List.append_nil]

theorem initView_deliveries {view : ViewNr} (h : initView p view o = .ok o') (sn : SeqNr) :
    deliveries o'.out sn = deliveries o.out sn := by
  rcases initView_cases h with ⟨-, -, rfl⟩ | ⟨-, slots, n, -, rfl⟩
  · rfl
  · simp [setViewTimers, deliveries]

/-! ### The invariant -/

/-- What was delivered for a sequence number is what its current slot has committed. -/
structure Delivered (o : Orderer) : Prop where
  committed : ∀ sn slot, o.slot? sn = some slot → slot.committed = true →
    ∃ pp, slot.preprepare = some pp ∧ deliveries o.out sn = [(pp.data, pp.aborted)]
  pending : ∀ sn, (∀ slot, o.slot? sn = some slot → slot.committed = false) →
    deliveries o.out sn = []

theorem Delivered.frame (h : Delivered o) (hslots : ∀ sn, o'.slot? sn = o.slot? sn)
    (hout : ∀ sn, deliveries o'.out sn = deliveries o.out sn) : Delivered o' := by
  constructor
  · intro sn slot hslot hcom
    rw [hslots] at hslot
    rw [hout]
    exact h.committed sn slot hslot hcom
  · intro sn hpending
    rw [hout]
    refine h.pending sn fun slot hslot => hpending slot ?_
    rw [hslots]
    exact hslot

/-- An update of a slot changes neither whether it is committed nor the value of a committed
one, and delivers nothing. -/
theorem SlotUpdate.decided {sn : SeqNr} {slot slot' : PbftSlot} {m : Option Mark}
    {x : Option Output} (h : SlotUpdate env p K o sn slot slot' m x) :
    slot'.committed = slot.committed ∧
      (slot.committed = true → slot'.preprepare = slot.preprepare) ∧
      ∀ sn data aborted leader, .sbDeliver sn data aborted leader ∉ x.toList := by
  cases h with
  | accept pp sender hsn hcom =>
    refine ⟨rfl, fun hcom' => ?_, by simp⟩
    rw [hcom] at hcom'
    cases hcom'
  | _ => exact ⟨rfl, fun _ => rfl, by simp⟩

/-- A decision commits the slot with the value that is delivered. -/
theorem Decides.decided {sn : SeqNr} {slot slot' : PbftSlot} {m : Mark} {pp : Preprepare}
    (h : Decides env o sn slot slot' m pp) :
    slot'.committed = true ∧ slot'.preprepare = some pp := by
  cases h with
  | commit _ _ hpp => exact ⟨rfl, hpp⟩
  | catchUp => exact ⟨rfl, rfl⟩

/-- The value of one slot is replaced, and the deliveries for it along with it. -/
theorem Delivered.setSlot (h : Delivered o) {sn : SeqNr} {slot' : PbftSlot}
    (hslots : ∀ sn', o'.slot? sn' = if sn' = sn then some slot' else o.slot? sn')
    (hout : ∀ sn' ≠ sn, deliveries o'.out sn' = deliveries o.out sn')
    (hcom : slot'.committed = true →
      ∃ pp, slot'.preprepare = some pp ∧ deliveries o'.out sn = [(pp.data, pp.aborted)])
    (hpend : slot'.committed = false → deliveries o'.out sn = []) : Delivered o' := by
  constructor
  · intro sn' slot hslot hc
    rw [hslots] at hslot
    split at hslot
    · next heq =>
      subst heq
      cases hslot
      exact hcom hc
    · next hne =>
      rw [hout sn' hne]
      exact h.committed sn' slot hslot hc
  · intro sn' hpending
    by_cases heq : sn' = sn
    · subst heq
      refine hpend (hpending slot' ?_)
      rw [hslots, if_pos rfl]
    · rw [hout sn' heq]
      refine h.pending sn' fun slot hslot => hpending slot ?_
      rw [hslots, if_neg heq]
      exact hslot

/-- Entering a view carries the committed slots over, unless it is view zero. -/
theorem Delivered.enters (h : Delivered o) (hwf : SlotsWf p o.state)
    (henters : EntersView p o.state o'.state)
    (hnot : o.state.view < o'.state.view ∨
      ∀ sn slot, o.slot? sn = some slot → slot.committed = false)
    (hout : ∀ sn, deliveries o'.out sn = deliveries o.out sn) : Delivered o' := by
  constructor
  · intro sn slot' hslot' hcom'
    rw [hout]
    rcases henters.slot? hslot' with ⟨hne, -⟩ | ⟨-, -, hinit⟩
    · exact absurd rfl hne
    · cases hinit with
      | fresh => cases hcom'
      | carried _ hprev hcom hpp =>
        obtain ⟨pp, hpp', hdel⟩ := h.committed sn _ hprev hcom
        rw [hpp] at hpp'
        cases hpp'
        exact ⟨_, rfl, hdel⟩
  · intro sn hpending
    rw [hout]
    refine h.pending sn fun slot hslot => ?_
    rcases hnot with hlater | hnone
    · -- the slot of the new view is committed if the current one is
      have hsn : sn ∈ p.segment.seqNrs := hwf.exists_slot?_iff.mp ⟨slot, hslot⟩
      obtain ⟨slots, hslots, hin, -⟩ := henters.slots
      obtain ⟨slot', hlookup, hinit⟩ := hin sn hsn
      have hslot' : o'.slot? sn = some slot' := by
        rw [Orderer.slot?, State.slot?, State.slotsOf, hslots, GoMap.lookup_insert_eq,
          if_pos rfl]
        exact hlookup
      have hpend' := hpending slot' hslot'
      cases hinit with
      | fresh hfresh =>
        rcases hfresh with hzero | ⟨prev, hprev, hcom⟩
        · rw [hzero] at hlater
          exact absurd hlater (UInt64.not_lt_zero)
        · rw [Orderer.slot?, hprev] at hslot
          cases hslot
          exact hcom
      | carried => cases hpend'
    · exact hnone sn slot hslot

theorem initView_delivered {view : ViewNr} (h : initView p view o = .ok o')
    (hwf : SlotsWf p o.state) (hd : Delivered o)
    (hzero : view = 0 → ∀ sn slot, o.slot? sn = some slot → slot.committed = false) :
    Delivered o' := by
  rcases initView_entersView h with ⟨-, -, rfl⟩ | ⟨henters, hview⟩
  · exact hd
  · refine hd.enters hwf henters ?_ fun sn => initView_deliveries h sn
    rcases henters.later with hlater | ⟨hz, -⟩
    · exact Or.inl hlater
    · exact Or.inr (hzero (hview ▸ hz))

/-- The slots of view zero are created anew only while none is committed. -/
def Guards.KeepsDecided (K : Guards) : Prop :=
  ∀ s nv, K.newView s nv → nv.view = 0 →
    ∀ sn slot, s.slot? s.view sn = some slot → slot.committed = false

theorem Micro.delivered (hK : K.KeepsDecided) (h : Micro env p K o o') (hwf : SlotsWf p o.state)
    (hd : Delivered o) : Delivered o' := by
  cases h with
  | emit x hx =>
    refine hd.frame (fun sn => rfl) fun sn => deliveries_append_eq _ ?_ sn
    intro sn data aborted leader hmem
    rw [List.mem_singleton] at hmem
    subst hmem
    exact hx
  | slot sn slot slot' m x hslot hupdate =>
    obtain ⟨hcommitted, hvalue, hno⟩ := hupdate.decided
    have hout : ∀ sn', deliveries ((o.setSlot sn slot').record m x).out sn' =
        deliveries o.out sn' := by
      intro sn'
      rw [Orderer.record_out]
      exact deliveries_append_eq _ hno sn'
    have hslots : ∀ sn', ((o.setSlot sn slot').record m x).slot? sn' =
        if sn' = sn then some slot' else o.slot? sn' := by
      intro sn'
      rw [Orderer.slot?, Orderer.record_state]
      exact Orderer.slot?_setSlot o sn sn' slot'
    refine hd.setSlot hslots (fun sn' _ => hout sn') (fun hcom => ?_) fun hpend => ?_
    · rw [hcommitted] at hcom
      rw [hvalue hcom, hout]
      exact hd.committed sn slot hslot hcom
    · rw [hout]
      refine hd.pending sn fun slot₁ hslot₁ => ?_
      rw [hslot] at hslot₁
      cases hslot₁
      rw [← hcommitted]
      exact hpend
  | decide sn slot slot' m pp timer hslot hcom hdec =>
    obtain ⟨hcommitted, hvalue⟩ := hdec.decided
    obtain ⟨chkp, xs, heq, hxs⟩ := deliver_spec p sn pp timer ((o.setSlot sn slot').mark m)
    have hno : ∀ sn data aborted leader, .sbDeliver sn data aborted leader ∉ xs := by
      intro sn' data aborted leader hmem
      cases hxs _ hmem
    have hempty : deliveries o.out sn = [] := by
      refine hd.pending sn fun slot₁ hslot₁ => ?_
      rw [hslot] at hslot₁
      cases hslot₁
      exact hcom
    rw [heq]
    have hout : ∀ sn', deliveries (o.out ++
        (xs ++ [.sbDeliver sn pp.data pp.aborted p.segment.leader])) sn' =
        deliveries o.out sn' ++ if sn = sn' then [(pp.data, pp.aborted)] else [] := by
      intro sn'
      rw [deliveries_append, deliveries_append, deliveries_eq_nil hno, List.nil_append,
        deliveries_sbDeliver]
    refine hd.setSlot (fun sn' => Orderer.slot?_setSlot o sn sn' slot') (fun sn' hne => ?_)
      (fun _ => ⟨pp, hvalue, ?_⟩) fun hpend => ?_
    · rw [← List.append_nil (deliveries o.out sn')]
      exact (hout sn').trans (by rw [if_neg fun h => hne h.symm])
    · exact (hout sn).trans (by rw [hempty, if_pos rfl]; rfl)
    · rw [hcommitted] at hpend
      cases hpend
  | startView _ h =>
    have hd' : Delivered (o.withState { o.state with inViewChange := true }) :=
      hd.frame (fun sn => rfl) fun sn => rfl
    refine initView_delivered h ⟨hwf.keys, hwf.entered, hwf.le_view⟩ hd' fun hz => ?_
    exact absurd hz (initView_next_ne_zero h rfl)
  | newView o₁ nv ord data hreq hacc hnv h =>
    have hd₁ : Delivered o₁ := initView_delivered h hwf hd (hK o.state nv hnv)
    exact hd₁.frame (fun sn => rfl) fun sn => rfl
  | log | buffers | proposal | viewChangeState | nodeDone | catchingUp =>
    exact hd.frame (fun sn => rfl) fun sn => rfl

theorem delivered_of_init (h : initOrderer p = .ok o) : Delivered o := by
  have hnone : ∀ sn, deliveries o.out sn = [] := by
    refine deliveries_eq_nil fun sn data aborted leader hx => ?_
    obtain ⟨_, _, hx⟩ := mem_out_initOrderer h hx
    cases hx
  refine ⟨fun sn slot hslot hcom => ?_, fun sn _ => hnone sn⟩
  obtain ⟨o₁, h₁, rfl⟩ := initOrderer_cases h
  rcases initView_entersView h₁ with ⟨hne, -, -⟩ | ⟨henters, -⟩
  · exact absurd rfl hne
  · rcases henters.slot? hslot with ⟨hne, -⟩ | ⟨-, -, hinit⟩
    · exact absurd rfl hne
    · cases hinit with
      | fresh => cases hcom
      | carried _ hprev => cases hprev

/-- **Deliveries and committed slots agree** in every reachable state. -/
theorem MReachable.delivered (hK : K.KeepsDecided) (h : MReachable env p K o) : Delivered o := by
  induction h with
  | init h => exact delivered_of_init h
  | micro hr hstep ih => exact hstep.delivered hK hr.slotsWf ih

/-- A slot that is committed stays committed, with the same value. -/
theorem Delivered.stays (hd : Delivered o) (hd' : Delivered o') (hg : Grows o o') {sn : SeqNr}
    {slot : PbftSlot} (hslot : o.slot? sn = some slot) (hcom : slot.committed = true) :
    ∃ pp slot' pp', slot.preprepare = some pp ∧ o'.slot? sn = some slot' ∧
      slot'.committed = true ∧ slot'.preprepare = some pp' ∧ pp'.data = pp.data ∧
      pp'.aborted = pp.aborted := by
  obtain ⟨pp, hpp, hdel⟩ := hd.committed sn slot hslot hcom
  obtain ⟨xs, hxs⟩ := hg.out
  have hdel' : deliveries o'.out sn = (pp.data, pp.aborted) :: deliveries xs sn := by
    rw [← hxs, deliveries_append, hdel]
    rfl
  -- a delivery was made, so the current slot is a committed one
  obtain ⟨slot', hslot', hcom'⟩ : ∃ slot', o'.slot? sn = some slot' ∧ slot'.committed = true := by
    by_contra hno
    have hnil := hd'.pending sn fun slot₁ hslot₁ => by
      by_contra hc
      exact hno ⟨slot₁, hslot₁, Bool.not_eq_false _ ▸ hc⟩
    rw [hdel'] at hnil
    cases hnil
  obtain ⟨pp', hpp', hdel''⟩ := hd'.committed sn slot' hslot' hcom'
  rw [hdel'] at hdel''
  obtain ⟨hval, -⟩ := List.cons.inj hdel''
  obtain ⟨hdata, haborted⟩ := Prod.mk.inj hval
  exact ⟨pp, slot', pp', hpp, hslot', hcom', hpp', hdata.symm, haborted.symm⟩

/-! ### The property of runs -/

/-- In the runs whose steps meet a condition, a committed slot stays committed with the same data
and aborted flag in the current view of every later state, and each sequence number is delivered
at most once. -/
def DecidedStays (env : Env) (p : ModuleParams) (C : StepCondition) : Prop :=
  ∀ o, Reachable env p C o →
    (∀ sn slot, o.slot? sn = some slot → slot.committed = true → ∀ o', Steps env p C o o' →
      ∃ pp slot' pp', slot.preprepare = some pp ∧ o'.slot? sn = some slot' ∧
        slot'.committed = true ∧ slot'.preprepare = some pp' ∧ pp'.data = pp.data ∧
        pp'.aborted = pp.aborted) ∧
    ∀ sn, (deliveries o.out sn).length ≤ 1

/-- A NewView for view zero is only accepted while no slot of the current view is committed. -/
def keepsDecided : Guards :=
  { Guards.none with newView := fun s nv => nv.view = 0 →
      ∀ sn slot, s.slot? s.view sn = some slot → slot.committed = false }

/-- **A decided slot is never undone**, in any run that accepts no NewView for view zero once a
slot is committed. -/
theorem decidedStays (env : Env) (p : ModuleParams) :
    DecidedStays env p (keepsDecided.onStep p) := by
  have hK : keepsDecided.KeepsDecided := fun s nv h => h
  intro o hr
  have hm := hr.mReachable
  have hd := hm.delivered hK
  refine ⟨fun sn slot hslot hcom o' hs => ?_, fun sn => ?_⟩
  · have hms := hm.micros_of_steps hs
    exact hd.stays ((hm.micros hms).delivered hK) hms.grows hslot hcom
  · by_cases hcom : ∃ slot, o.slot? sn = some slot ∧ slot.committed = true
    · obtain ⟨slot, hslot, hc⟩ := hcom
      obtain ⟨pp, -, hdel⟩ := hd.committed sn slot hslot hc
      rw [hdel]
      exact Nat.le_refl 1
    · have hnil := hd.pending sn fun slot hslot => by
        by_contra hc
        exact hcom ⟨slot, hslot, Bool.not_eq_false _ ▸ hc⟩
      rw [hnil]
      exact Nat.zero_le 1

/-- The first node decides the single slot. -/
def decideSingle : List Event := receiveProposal ++ prepareProposal ++ commitProposal

/-- The node leaves view zero after having decided; the decision is that of view one as well. -/
theorem decidedStays_afterViewChange :
    ∃ (o o' : Orderer) (slot' : PbftSlot), Reachable plainEnv (plainParams singleSlot [97])
        (keepsDecided.onStep (plainParams singleSlot [97])) o ∧
      o.state.view = 0 ∧ o'.state.view = 1 ∧ o'.slot? 0 = some slot' ∧
      slot'.committed = true := by
  -- no step of this run handles a NewView
  have hc : ∀ {o ev}, (!ev.completesNewView) = true →
      keepsDecided.onStep (plainParams singleSlot [97]) o .listed ev := by
    exact fun {o ev} hev => Guards.onStep_of_not_newView _ o .listed hev
  obtain ⟨o, hr, hzero, hcom, hnext⟩ := exists_reachable hc (by decide +kernel :
    (execute plainEnv (plainParams singleSlot [97]) (fun _ ev => !ev.completesNewView)
      decideSingle).any (fun o => o.state.view = 0 ∧
        (o.slot? 0).map PbftSlot.committed = some true ∧
        ([.viewChangeSegTimeout 0].foldlM (next? plainEnv (plainParams singleSlot [97])
          fun _ ev => !ev.completesNewView) o).any (fun o => o.state.view = 1) = true) = true)
  obtain ⟨slot, hslot, hcom⟩ := Option.map_eq_some_iff.mp hcom
  obtain ⟨o', hs, hone⟩ := exists_steps hc hnext
  obtain ⟨-, slot', -, -, hslot', hcom', -⟩ :=
    (decidedStays plainEnv (plainParams singleSlot [97]) o hr).1 0 slot hslot hcom o' hs
  exact ⟨o, o', slot', hr, hzero, hone, hslot', hcom'⟩

/-- A ViewChange for view four that reports the decided proposal, as signed by `id`. -/
def laterViewChange (id : NodeID) : SignedViewChange :=
  let vc : ViewChange :=
    ⟨4, [⟨0, 0, some singleProposal.hashBytes⟩], [⟨0, 0, singleProposal.hashBytes⟩]⟩
  ⟨some vc, some (id ++ vc.signedBytes)⟩

/-- A NewView for view zero, by the leader of view zero. -/
def newViewZero : NewView :=
  ⟨0, [[98], [99], [100]], [[98], [99], [100]].map laterViewChange, [0], [singleProposal]⟩

/-- **A decided slot can be undone**: a NewView for view zero, with ViewChanges for another view,
creates the slots of view zero anew. -/
theorem decided_slot_undone : ¬ ∀ env p, DecidedStays env p anyStep := by
  intro h
  obtain ⟨o, hr, hcom, hundone⟩ := exists_reachable (C := anyStep) (fun _ => trivial)
    (by decide +kernel : (execute plainEnv (plainParams singleSlot [97]) (fun _ _ => true)
      decideSingle).any (fun o => (o.slot? 0).map PbftSlot.committed = some true ∧
        ([.messageReceived [100] (.newView newViewZero),
          .sigsVerified [[98], [99], [100]] true newViewZero,
          .hashResult [singleProposal.hashBytes] (.newView newViewZero)].foldlM
            (next? plainEnv (plainParams singleSlot [97]) fun _ _ => true) o).any
              (fun o => (o.slot? 0).map PbftSlot.committed = some false) = true) = true)
  obtain ⟨slot, hslot, hcom⟩ := Option.map_eq_some_iff.mp hcom
  obtain ⟨o', hs, hcom'⟩ := exists_steps (C := anyStep) (fun _ => trivial) hundone
  obtain ⟨-, slot', -, -, hslot', hstill, -⟩ :=
    (h plainEnv (plainParams singleSlot [97]) o hr).1 0 slot hslot hcom o' hs
  rw [hslot', Option.map_some, hstill] at hcom'
  cases hcom'

end Mir.Orderers
