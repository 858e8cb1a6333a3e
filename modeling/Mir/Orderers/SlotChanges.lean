import Mir.Orderers.Runs

/-!
# How slots change

The slot of a view and a sequence number is written in three ways: by an update in the current
view, by a decision in the current view, and when its view is entered. `Micro.slots_cases` says
so for whole states and `Micro.slot_cases` for a single slot; the invariants of slots are all
derived from these two. The first invariant is `MReachable.slotsWf`: every view that was entered
has exactly the slots of the segment.
-/

namespace Mir.Orderers

variable {env : Env} {p : ModuleParams} {K : Guards} {o o' : Orderer}

/-! ### Entering a view -/

/-- The slot created for `sn` when `view` is entered: a fresh one, or one that carries over what
the slot of the current view has committed. -/
inductive SlotInit (p : ModuleParams) (s : State) (view : ViewNr) (sn : SeqNr) : PbftSlot → Prop
  | fresh (h : view = 0 ∨ ∃ prev, s.slot? s.view sn = some prev ∧ prev.committed = false) :
      SlotInit p s view sn (PbftSlot.new p.segment.membership)
  | carried {prev : PbftSlot} {pp : Preprepare} (hview : 0 < view)
      (hprev : s.slot? s.view sn = some prev) (hcom : prev.committed = true)
      (hpp : prev.preprepare = some pp) :
      SlotInit p s view sn { PbftSlot.new p.segment.membership with
        committed := true
        digest := prev.digest
        preprepare := some { pp with view := view } }

theorem initSlot_cases {s : State} {view : ViewNr} {sn : SeqNr} {slot : PbftSlot}
    (h : initSlot p s view sn = .ok slot) : SlotInit p s view sn slot := by
  unfold initSlot at h
  split at h
  · next hview =>
    obtain ⟨prev, hprev, h⟩ := Fallible.bind_eq_ok.mp h
    rw [deref_eq_ok] at hprev
    unfold PbftSlot.populateFromPrevious at h
    split at h
    · next hcom =>
      obtain ⟨pp, hpp, h⟩ := Fallible.bind_eq_ok.mp h
      rw [deref_eq_ok] at hpp
      cases h
      exact .carried hview hprev hcom hpp
    · next hcom =>
      cases h
      exact .fresh (Or.inr ⟨prev, hprev, Bool.not_eq_true _ ▸ hcom⟩)
  · next hview =>
    cases h
    refine .fresh (Or.inl ?_)
    by_contra hne
    exact hview (UInt64.pos_iff_ne_zero.mpr hne)

/-- The loop of `InitView` creates a slot for every sequence number it visits. -/
theorem lookup_initSlots {s : State} {view : ViewNr} {sns : List SeqNr}
    {slots slots' : GoMap SeqNr PbftSlot} (h : initSlots p s view sns slots = .ok slots') :
    (∀ sn ∈ sns, ∃ slot, slots'.lookup sn = some slot ∧ SlotInit p s view sn slot) ∧
      ∀ sn ∉ sns, slots'.lookup sn = slots.lookup sn := by
  induction sns generalizing slots with
  | nil =>
    cases h
    refine ⟨fun sn hsn => ?_, fun sn _ => rfl⟩
    cases hsn
  | cons a sns ih =>
    obtain ⟨slot, hslot, h⟩ := Fallible.bind_eq_ok.mp h
    obtain ⟨hin, hout⟩ := ih h
    refine ⟨fun sn hsn => ?_, fun sn hsn => ?_⟩
    · by_cases htail : sn ∈ sns
      · exact hin sn htail
      · obtain rfl : sn = a := (List.mem_cons.mp hsn).resolve_right htail
        refine ⟨slot, ?_, initSlot_cases hslot⟩
        rw [hout sn htail]
        exact AList.lookup_insert _
    · rw [List.mem_cons, not_or] at hsn
      rw [hout sn hsn.2, GoMap.lookup_insert_eq, if_neg hsn.1]

/-- A view is entered: its slots are created, all else about slots stays. -/
structure EntersView (p : ModuleParams) (s s' : State) : Prop where
  later : s.view < s'.view ∨ s'.view = 0 ∧ s.view = 0
  slots : ∃ slots, s'.slots = s.slots.insert s'.view slots ∧
    (∀ sn ∈ p.segment.seqNrs, ∃ slot, slots.lookup sn = some slot ∧
      SlotInit p s s'.view sn slot) ∧
    ∀ sn ∉ p.segment.seqNrs, slots.lookup sn = none

theorem initView_entersView {view : ViewNr} (h : initView p view o = .ok o') :
    (view ≠ 0 ∧ view = o.state.view ∧ o' = o) ∨
      (EntersView p o.state o'.state ∧ o'.state.view = view) := by
  rcases initView_cases h with hsame | ⟨hlater, slots, n, hslots, rfl⟩
  · exact Or.inl hsame
  · obtain ⟨hin, hout⟩ := lookup_initSlots hslots
    exact Or.inr ⟨⟨hlater, slots, rfl, hin, fun sn hsn => hout sn hsn⟩, rfl⟩

/-- The view after the current one is not view zero: that would be an older view. -/
theorem initView_next_ne_zero {v : ViewNr} (h : initView p (v + 1) o = .ok o')
    (hv : o.state.view = v) : v + 1 ≠ 0 := by
  intro hzero
  rcases initView_cases h with ⟨hne, -⟩ | ⟨hlater | ⟨-, hview⟩, -⟩
  · exact hne hzero
  · rw [hzero] at hlater
    exact UInt64.not_lt_zero hlater
  · rw [← hv, hview] at hzero
    exact absurd hzero (by decide)

theorem EntersView.slot? {s s' : State} (h : EntersView p s s') {v : ViewNr} {sn : SeqNr}
    {slot : PbftSlot} (hslot : s'.slot? v sn = some slot) :
    (v ≠ s'.view ∧ s.slot? v sn = some slot) ∨
      (v = s'.view ∧ sn ∈ p.segment.seqNrs ∧ SlotInit p s v sn slot) := by
  obtain ⟨slots, hslots, hin, hout⟩ := h.slots
  rw [State.slot?, State.slotsOf, hslots, GoMap.lookup_insert_eq] at hslot
  by_cases hv : v = s'.view
  · rw [if_pos hv] at hslot
    by_cases hsn : sn ∈ p.segment.seqNrs
    · obtain ⟨slot', hlookup, hinit⟩ := hin sn hsn
      rw [Option.getD_some, hlookup] at hslot
      cases hslot
      exact Or.inr ⟨hv, hsn, hv ▸ hinit⟩
    · rw [Option.getD_some, hout sn hsn] at hslot
      cases hslot
  · rw [if_neg hv] at hslot
    exact Or.inl ⟨hv, hslot⟩

/-- The slots of the other views stay. -/
theorem EntersView.slot?_of_ne {s s' : State} (h : EntersView p s s') {v : ViewNr}
    (hv : v ≠ s'.view) (sn : SeqNr) : s'.slot? v sn = s.slot? v sn := by
  obtain ⟨slots, hslots, -⟩ := h.slots
  rw [State.slot?, State.slotsOf, hslots, GoMap.lookup_insert_eq, if_neg hv]
  rfl

/-- Initially all slots are fresh. -/
theorem slot?_initOrderer (h : initOrderer p = .ok o) {v : ViewNr} {sn : SeqNr} {slot : PbftSlot}
    (hslot : o.state.slot? v sn = some slot) : slot = PbftSlot.new p.segment.membership := by
  obtain ⟨o₁, h₁, rfl⟩ := initOrderer_cases h
  rcases initView_entersView h₁ with ⟨hne, -, -⟩ | ⟨henters, -⟩
  · exact absurd rfl hne
  · rcases henters.slot? hslot with ⟨-, hold⟩ | ⟨-, -, hinit⟩
    · cases hold
    · cases hinit with
      | fresh => rfl
      | carried _ hprev => cases hprev

/-! ### Slots under elementary steps -/

/-- The slot of `sn` in the current view changes from `slot` to `slot'`: it is updated, or it is
decided. -/
inductive SlotChange (env : Env) (p : ModuleParams) (K : Guards) (o o' : Orderer) (sn : SeqNr)
    (slot slot' : PbftSlot) : Prop
  | update {m : Option Mark} {x : Option Output}
      (hupdate : SlotUpdate env p K o sn slot slot' m x) (hout : o'.out = o.out ++ x.toList) :
      SlotChange env p K o o' sn slot slot'
  | decide {m : Mark} {pp : Preprepare} (hcom : slot.committed = false)
      (hdec : Decides env o sn slot slot' m pp) : SlotChange env p K o o' sn slot slot'

/-- **The slots under an elementary step**: they stay, one of them changes in the current view,
or a view is entered; a view is entered again only if it is view zero, through a NewView. -/
theorem Micro.slots_cases (h : Micro env p K o o') :
    (o'.state.slots = o.state.slots ∧ o'.state.view = o.state.view) ∨
      (∃ sn slot slot', o.slot? sn = some slot ∧
        o'.state.slots = (o.setSlot sn slot').state.slots ∧ o'.state.view = o.state.view ∧
        SlotChange env p K o o' sn slot slot') ∨
      (EntersView p o.state o'.state ∧
        (o.state.view < o'.state.view ∨ ∃ nv, nv.view = 0 ∧ K.newView o.state nv)) := by
  cases h with
  | slot sn slot slot' m x hslot hupdate =>
    refine Or.inr (Or.inl ⟨sn, slot, slot', hslot, ?_, ?_, .update hupdate ?_⟩)
    · rw [Orderer.record_state]
    · rw [Orderer.record_state]
      rfl
    · exact Orderer.record_out _ _ _
  | decide sn slot slot' m pp timer hslot hcom hdec =>
    obtain ⟨chkp, xs, heq, -⟩ := deliver_spec p sn pp timer ((o.setSlot sn slot').mark m)
    rw [heq]
    exact Or.inr (Or.inl ⟨sn, slot, slot', hslot, rfl, rfl, .decide hcom hdec⟩)
  | startView _ h =>
    rcases initView_entersView h with ⟨hne, hview, rfl⟩ | ⟨henters, hview⟩
    · exact Or.inl ⟨rfl, rfl⟩
    · have henters' : EntersView p o.state o'.state := ⟨henters.later, by
        obtain ⟨slots, hslots, hin, hout⟩ := henters.slots
        refine ⟨slots, hslots, fun sn hsn => ?_, hout⟩
        obtain ⟨slot, hlookup, hinit⟩ := hin sn hsn
        refine ⟨slot, hlookup, ?_⟩
        cases hinit with
        | fresh h => exact .fresh h
        | carried hview hprev hcom hpp => exact .carried hview hprev hcom hpp⟩
      refine Or.inr (Or.inr ⟨henters', Or.inl ?_⟩)
      rcases henters.later with hlt | ⟨hzero, -⟩
      · exact hlt
      · exact absurd (hview ▸ hzero) (initView_next_ne_zero h rfl)
  | newView o₁ nv ord data hreq hacc hK h =>
    rcases initView_entersView h with ⟨-, -, rfl⟩ | ⟨henters, hview⟩
    · exact Or.inl ⟨rfl, rfl⟩
    · refine Or.inr (Or.inr ⟨⟨henters.later, henters.slots⟩, ?_⟩)
      rcases henters.later with hlt | ⟨hzero, -⟩
      · exact Or.inl hlt
      · exact Or.inr ⟨nv, hview ▸ hzero, hK⟩
  | log | emit | buffers | proposal | viewChangeState | nodeDone | catchingUp =>
    exact Or.inl ⟨rfl, rfl⟩

/-- **A slot under an elementary step**: it was there before, it is the slot of the current view
that changes, or its view is entered. -/
theorem Micro.slot_cases (h : Micro env p K o o') {v : ViewNr} {sn : SeqNr} {slot' : PbftSlot}
    (hslot' : o'.state.slot? v sn = some slot') :
    o.state.slot? v sn = some slot' ∨
      (v = o.state.view ∧ o'.state.view = o.state.view ∧
        ∃ slot, o.slot? sn = some slot ∧ SlotChange env p K o o' sn slot slot') ∨
      (v = o'.state.view ∧ EntersView p o.state o'.state ∧ sn ∈ p.segment.seqNrs ∧
        SlotInit p o.state v sn slot') := by
  rcases h.slots_cases with ⟨hslots, -⟩ | ⟨sn₀, slot, slot₁, hslot, hslots, hview, hchange⟩ |
    ⟨henters, -⟩
  · rw [State.slot?, State.slotsOf, hslots] at hslot'
    exact Or.inl hslot'
  · have hset : (o.state.setSlot o.state.view sn₀ slot₁).slot? v sn = some slot' := by
      rw [State.slot?, State.slotsOf, hslots] at hslot'
      exact hslot'
    rw [State.slot?_setSlot] at hset
    split at hset
    · next heq =>
      obtain ⟨rfl, rfl⟩ := heq
      cases hset
      exact Or.inr (Or.inl ⟨rfl, hview, slot, hslot, hchange⟩)
    · exact Or.inl hset
  · rcases henters.slot? hslot' with ⟨-, hold⟩ | ⟨hv, hsn, hinit⟩
    · exact Or.inl hold
    · exact Or.inr (Or.inr ⟨hv, henters, hsn, hinit⟩)

/-! ### Which slots there are -/

/-- The views that were entered have exactly the slots of the segment; the current view was
entered, and no later one. -/
structure SlotsWf (p : ModuleParams) (s : State) : Prop where
  keys : ∀ v slots, s.slots.lookup v = some slots →
    ∀ sn, (∃ slot, slots.lookup sn = some slot) ↔ sn ∈ p.segment.seqNrs
  entered : ∃ slots, s.slots.lookup s.view = some slots
  le_view : ∀ v slots, s.slots.lookup v = some slots → v ≤ s.view

theorem SlotsWf.exists_slot?_iff {s : State} (h : SlotsWf p s) {sn : SeqNr} :
    (∃ slot, s.slot? s.view sn = some slot) ↔ sn ∈ p.segment.seqNrs := by
  obtain ⟨slots, hslots⟩ := h.entered
  rw [State.slot?, State.slotsOf, hslots, Option.getD_some]
  exact h.keys s.view slots hslots sn

theorem SlotsWf.view_le {s : State} (h : SlotsWf p s) {v : ViewNr} {sn : SeqNr} {slot : PbftSlot}
    (hslot : s.slot? v sn = some slot) : v ≤ s.view := by
  cases hlookup : s.slots.lookup v with
  | none =>
    rw [State.slot?, State.slotsOf, hlookup] at hslot
    cases hslot
  | some slots => exact h.le_view v slots hlookup

theorem slotsWf_enters {s s' : State} (henters : EntersView p s s')
    (hkeys : ∀ v slots, s.slots.lookup v = some slots →
      ∀ sn, (∃ slot, slots.lookup sn = some slot) ↔ sn ∈ p.segment.seqNrs)
    (hle : ∀ v slots, s.slots.lookup v = some slots → v ≤ s.view) : SlotsWf p s' := by
  obtain ⟨slots, hslots, hin, hout⟩ := henters.slots
  have hnew : ∀ sn, (∃ slot, slots.lookup sn = some slot) ↔ sn ∈ p.segment.seqNrs := by
    intro sn
    constructor
    · rintro ⟨slot, hslot⟩
      by_contra hsn
      rw [hout sn hsn] at hslot
      cases hslot
    · intro hsn
      obtain ⟨slot, hslot, -⟩ := hin sn hsn
      exact ⟨slot, hslot⟩
  have hview : s.view ≤ s'.view := by
    rcases henters.later with hlt | ⟨h', h⟩
    · exact UInt64.le_of_lt hlt
    · rw [h', h]
      exact UInt64.le_refl 0
  refine ⟨?_, ⟨slots, ?_⟩, ?_⟩ <;> rw [hslots]
  · exact GoMap.forall_lookup_insert hkeys hnew
  · exact AList.lookup_insert _
  · exact GoMap.forall_lookup_insert (fun v slots₁ hlookup =>
      UInt64.le_trans (hle v slots₁ hlookup) hview) (UInt64.le_refl _)

theorem SlotsWf.setSlot {s : State} (h : SlotsWf p s) {sn : SeqNr} {slot slot' : PbftSlot}
    (hslot : s.slot? s.view sn = some slot) : SlotsWf p (s.setSlot s.view sn slot') := by
  obtain ⟨slots, hslots⟩ := h.entered
  have hof : s.slotsOf s.view = slots := by rw [State.slotsOf, hslots, Option.getD_some]
  have hsn : sn ∈ p.segment.seqNrs := h.exists_slot?_iff.mp ⟨slot, hslot⟩
  refine ⟨GoMap.forall_lookup_insert h.keys fun sn' => ?_, ⟨_, AList.lookup_insert _⟩,
    GoMap.forall_lookup_insert h.le_view (UInt64.le_refl _)⟩
  rw [hof, GoMap.lookup_insert_eq]
  by_cases heq : sn' = sn
  · rw [if_pos heq, heq]
    exact ⟨fun _ => hsn, fun _ => ⟨slot', rfl⟩⟩
  · rw [if_neg heq]
    exact h.keys s.view slots hslots sn'

theorem Micro.slotsWf (h : Micro env p K o o') (hwf : SlotsWf p o.state) :
    SlotsWf p o'.state := by
  rcases h.slots_cases with ⟨hslots, hview⟩ | ⟨sn, slot, slot', hslot, hslots, hview, -⟩ |
    ⟨henters, -⟩
  · refine ⟨?_, ?_, ?_⟩
    · rw [hslots]
      exact hwf.keys
    · rw [hslots, hview]
      exact hwf.entered
    · rw [hslots, hview]
      exact hwf.le_view
  · have hset : SlotsWf p (o.state.setSlot o.state.view sn slot') := hwf.setSlot hslot
    refine ⟨?_, ?_, ?_⟩
    · rw [hslots]
      exact hset.keys
    · rw [hslots, hview]
      exact hset.entered
    · rw [hslots, hview]
      exact hset.le_view
  · exact slotsWf_enters henters hwf.keys hwf.le_view

theorem slotsWf_of_init (h : initOrderer p = .ok o) : SlotsWf p o.state := by
  obtain ⟨o₁, h₁, rfl⟩ := initOrderer_cases h
  rcases initView_entersView h₁ with ⟨hne, -, -⟩ | ⟨henters, -⟩
  · exact absurd rfl hne
  · refine slotsWf_enters henters (fun v slots hlookup => ?_) fun v slots hlookup => ?_
    · cases hlookup
    · cases hlookup

/-- **Every view that was entered has exactly the slots of the segment.** -/
theorem MReachable.slotsWf (h : MReachable env p K o) : SlotsWf p o.state := by
  induction h with
  | init h => exact slotsWf_of_init h
  | micro _ hstep ih => exact hstep.slotsWf ih

end Mir.Orderers
