import Mir.Orderers.NewViews
import Mir.Orderers.Votes

/-!
# The views of a node

The view of a node never goes back, view zero is entered without a view change, and certificates are
requested in view zero only.

In the states a node can reach, all slots of the views it has entered exist, and a slot that is
committed holds its Preprepare. So starting a view, and with it a view change, completes, unless the
number of views is exhausted.
-/

namespace Mir.Orderers

open Fallible FallibleLoop

variable {env : Env} {p : ModuleParams} {K : Guards} {o o' : Orderer}

/-! ### Views under elementary steps -/

theorem nextView_ne (v : ViewNr) : v + 1 ≠ v := by
  intro h
  have hnat := congrArg UInt64.toNat h
  rw [UInt64.toNat_add, UInt64.toNat_one] at hnat
  have := v.toNat_lt
  omega

/-- **The view under an elementary step**: it stays, a later one is begun by a timeout, or one that
is not earlier is entered. -/
theorem Micro.view_cases (h : Micro env p K o o') :
    (o'.state.view = o.state.view ∧ o'.state.inViewChange = o.state.inViewChange) ∨
      o.state.view < o'.state.view ∨
      (o.state.view ≤ o'.state.view ∧ o'.state.inViewChange = false) := by
  cases h with
  | slot sn slot slot' m x =>
    rw [Orderer.record_state]
    exact Or.inl ⟨rfl, rfl⟩
  | decide sn slot slot' m pp timer =>
    obtain ⟨chkp, xs, heq, -⟩ := deliver_spec p sn pp timer ((o.setSlot sn slot').mark m)
    rw [heq]
    exact Or.inl ⟨rfl, rfl⟩
  | startView _ h =>
    rcases initView_cases h with ⟨-, hsame, -⟩ | ⟨hlater | ⟨hzero, -⟩, -⟩
    · exact absurd hsame (nextView_ne _)
    · rw [← (initView_frame h).view] at hlater
      exact Or.inr (Or.inl hlater)
    · exact absurd hzero (initView_next_ne_zero h rfl)
  | newView o₁ nv ord data _ hacc _ h =>
    refine Or.inr (Or.inr ⟨?_, rfl⟩)
    rw [Orderer.mark_state, Orderer.withState_state, (initView_frame h).view]
    exact UInt64.not_lt.mp hacc.1
  | log | emit | buffers | proposal | viewChangeState | nodeDone | catchingUp =>
    exact Or.inl ⟨rfl, rfl⟩

theorem MReachable.not_inViewChange_zero (h : MReachable env p K o) (hzero : o.state.view = 0) :
    o.state.inViewChange = false := by
  induction h with
  | init h =>
    obtain ⟨o₁, h₁, rfl⟩ := initOrderer_cases h
    exact (initView_frame h₁).inViewChange
  | micro _ hstep ih =>
    rcases hstep.view_cases with ⟨hview, hivc⟩ | hlater | ⟨-, hivc⟩
    · rw [hivc]
      exact ih (hview ▸ hzero)
    · rw [hzero] at hlater
      exact absurd hlater UInt64.not_lt_zero
    · exact hivc

theorem MReachable.certRequestedView (h : MReachable env p K o) :
    o.state.proposal.certRequestedView = 0 := by
  induction h with
  | init h =>
    obtain ⟨o₁, h₁, rfl⟩ := initOrderer_cases h
    rw [Orderer.emit_state, (initView_frame h₁).proposal]
    rfl
  | micro _ hstep ih =>
    cases hstep with
    | proposal proposal hcert _ =>
      rcases hcert with hsame | hzero
      · exact hsame.trans ih
      · exact hzero
    | slot sn slot slot' m x =>
      rw [Orderer.record_state]
      exact ih
    | decide sn slot slot' m pp timer =>
      obtain ⟨chkp, xs, heq, -⟩ := deliver_spec p sn pp timer (Orderer.mark _ m)
      rw [heq]
      exact ih
    | startView _ h =>
      rw [(initView_frame h).proposal]
      exact ih
    | newView o₁ nv ord data _ _ _ h =>
      rw [Orderer.mark_state, Orderer.withState_state, (initView_frame h).proposal]
      exact ih
    | log | emit | buffers | viewChangeState | nodeDone | catchingUp => exact ih

/-! ### Starting a view completes -/

theorem MReachable.preprepare_of_committed (h : MReachable env p K o) {v : ViewNr} {sn : SeqNr}
    {slot : PbftSlot} (hslot : o.state.slot? v sn = some slot) (hcom : slot.committed = true) :
    slot.preprepare.isSome = true := by
  induction h generalizing v sn slot with
  | init h =>
    rw [slot?_initOrderer h hslot] at hcom
    cases hcom
  | micro _ hstep ih =>
    rcases hstep.slot_cases hslot with hold | ⟨-, -, slot₀, hslot₀, hchange⟩ | ⟨-, -, -, hinit⟩
    · exact ih hold hcom
    · cases hchange with
      | update hupdate hout =>
        -- an update does not commit the slot
        have hcom₀ : slot₀.committed = true := by
          cases hupdate
          all_goals exact hcom
        exact (SlotChange.update hupdate hout).preprepare_isSome (ih hslot₀ hcom₀)
      | decide _ hdec =>
        cases hdec with
        | commit _ _ hpp =>
          rw [hpp]
          rfl
        | catchUp => rfl
    · cases hinit with
      | fresh => cases hcom
      | carried => rfl

theorem initSlots_completes {s : State} (hwf : SlotsWf p s)
    (hpp : ∀ sn slot, s.slot? s.view sn = some slot → slot.committed = true →
      slot.preprepare.isSome = true) (view : ViewNr) {sns : List SeqNr}
    (hsns : ∀ sn ∈ sns, sn ∈ p.segment.seqNrs) (slots : GoMap SeqNr PbftSlot) :
    Completes (initSlots p s view sns slots) := by
  induction sns generalizing slots with
  | nil => exact ⟨slots, rfl⟩
  | cons sn sns ih =>
    have hslot : Completes (initSlot p s view sn) := by
      unfold initSlot
      split
      · obtain ⟨prev, hprev⟩ := hwf.exists_slot?_iff.mpr (hsns sn List.mem_cons_self)
        refine completes_bind_iff.mpr ⟨prev, deref_eq_ok.mpr hprev, ?_⟩
        unfold PbftSlot.populateFromPrevious
        split
        · next hcom =>
          obtain ⟨pp, heq⟩ := Option.isSome_iff_exists.mp (hpp sn prev hprev hcom)
          exact completes_bind_iff.mpr ⟨pp, deref_eq_ok.mpr heq, _, rfl⟩
        · exact ⟨_, rfl⟩
      · exact ⟨_, rfl⟩
    obtain ⟨slot, hslot⟩ := hslot
    exact completes_bind_iff.mpr
      ⟨slot, hslot, ih (fun sn' hsn' => hsns sn' (List.mem_cons_of_mem _ hsn')) _⟩

/-- Starting a view completes, unless it is an older one. -/
theorem initView_completes (hwf : SlotsWf p o.state)
    (hpp : ∀ sn slot, o.slot? sn = some slot → slot.committed = true →
      slot.preprepare.isSome = true) {view : ViewNr} (hview : ¬ view < o.state.view) :
    Completes (initView p view o) := by
  rw [initView, if_neg hview]
  split
  · exact ⟨o, rfl⟩
  · obtain ⟨slots, hslots⟩ := initSlots_completes hwf hpp view (fun _ hsn => hsn) ∅
    exact completes_bind_iff.mpr ⟨slots, hslots, _, rfl⟩

/-- The sets of a ViewChange are computed: every view that was entered has all slots. -/
theorem getPSetQSet_completes {s : State} (hwf : SlotsWf p s) : Completes (getPSetQSet p s) := by
  obtain ⟨sets, hsets, -⟩ := foldlM_completes (f := addSeqNrToSets s) (I := fun _ _ => True)
    (b := (∅, ∅)) (l := p.segment.seqNrs) trivial (by
      intro xs sn ys hsplit acc _
      have hsn : sn ∈ p.segment.seqNrs := by
        rw [hsplit]
        exact List.mem_append_right _ List.mem_cons_self
      obtain ⟨acc', hacc', -⟩ := foldlM_completes (f := addSlotToSets s sn) (I := fun _ _ => True)
        (b := (acc.1, acc.2.insert sn ∅)) (l := List.range s.view.toNat) trivial (by
          intro _ view _ _ acc _
          unfold addSlotToSets
          split
          · exact ⟨acc, rfl, trivial⟩
          · next slots hslots =>
            obtain ⟨slot, hslot⟩ := (hwf.keys _ slots hslots sn).mpr hsn
            rw [hslot]
            exact ⟨_, rfl, trivial⟩)
      exact ⟨acc', hacc', trivial⟩)
  exact ⟨sets, hsets⟩

/-- **A view change starts**, unless the number of views is exhausted. -/
theorem startViewChange_completes (hr : MReachable env p K o) (hnext : o.state.view + 1 ≠ 0) :
    Completes (startViewChange p o) := by
  have hwf : SlotsWf p { o.state with inViewChange := true } :=
    ⟨hr.slotsWf.keys, hr.slotsWf.entered, hr.slotsWf.le_view⟩
  have hlater : ¬ o.state.view + 1 < o.state.view := by
    rw [UInt64.lt_iff_toNat_lt]
    rw [ne_eq, ← UInt64.toNat_inj] at hnext
    have hmod := UInt64.toNat_add o.state.view 1
    have hlt := o.state.view.toNat_lt
    have hone : (1 : UInt64).toNat = 1 := rfl
    have hzero : (0 : UInt64).toNat = 0 := rfl
    omega
  obtain ⟨o₁, ho₁⟩ := initView_completes
    (o := o.withState { o.state with inViewChange := true }) hwf
    (fun sn slot hslot hcom => hr.preprepare_of_committed hslot hcom) hlater
  refine completes_bind_iff.mpr ⟨o₁, ho₁, ?_⟩
  -- the slots of the new view were created along with it
  have hstart : Micro env p K o o₁ := .startView o o₁ ho₁
  obtain ⟨sets, hsets⟩ := getPSetQSet_completes (hstart.slotsWf hr.slotsWf)
  exact completes_bind_iff.mpr ⟨sets, hsets, _, rfl⟩

end Mir.Orderers
