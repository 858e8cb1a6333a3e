import Mir.Orderers.Reproposals

/-!
# Collecting ViewChanges

The invariants of a view-change state as ViewChanges are added to it, which the primary of a view
does as they arrive and the receiver of a NewView in the order of the message. `VcWf` is what keeps
the computations from failing, `VcSound` what the resolved re-proposals mean. Feeding the
ViewChanges of a NewView is a loop over pairs of senders and messages (`feedViewChanges_eq`), and
`feed_sound` says what it has established.
-/

namespace Mir.Orderers

open WeightedQuorum

variable {seg : Segment} {vc vc' : PbftViewChangeState}

/-! ### Invariants -/

/-- A view-change state of a segment, with ViewChanges of members. -/
structure VcWf (seg : Segment) (vc : PbftViewChangeState) : Prop where
  membership : vc.membership = seg.membership
  senders : ∀ id ∈ vc.signedViewChanges.keys, id ∈ seg.membership.nodes.keys
  present : ∀ id svc, vc.signedViewChanges.lookup id = some svc → svc.viewChange ≠ none
  keys : ∀ sn, (∃ d, vc.reproposals.lookup sn = some d) ↔ sn ∈ seg.seqNrs
  preprepareKeys : ∀ sn, (∃ pp, vc.preprepares.lookup sn = some pp) ↔ sn ∈ seg.seqNrs

/-- What is resolved is proposable, and what is not was not found with the ViewChanges at hand. -/
structure VcSound (seg : Segment) (vc : PbftViewChangeState) : Prop extends VcWf seg vc where
  resolved : ∀ sn d, vc.reproposals.lookup sn = some (some d) →
    Proposable seg.membership vc.signedViewChanges sn (some d)
  attempted : ∀ sn, vc.reproposals.lookup sn = some none → vc.signedViewChanges.keys ≠ [] →
    seg.membership.haveStrongQuorum vc.signedViewChanges.keys = .ok true →
    ∃ ord ns pSets qSets, reconstructPSetQSet vc.signedViewChanges = .ok (pSets, qSets) ∧
      reproposal ord pSets qSets sn seg.membership = .ok (none, ns)

theorem vcSound_new (seg : Segment) :
    VcSound seg (PbftViewChangeState.new seg.seqNrs seg.membership) := by
  have hkeys : ∀ {α : Type} (x : α) (sn : SeqNr),
      (∃ d, (GoMap.ofKeys seg.seqNrs fun _ => x).lookup sn = some d) ↔ sn ∈ seg.seqNrs := by
    intro α x sn
    rw [GoMap.lookup_ofKeys]
    by_cases hsn : sn ∈ seg.seqNrs
    · simp [hsn]
    · simp [hsn]
  refine ⟨⟨rfl, fun id hid => ?_, fun id svc hsvc => ?_, hkeys none, hkeys none⟩,
    fun sn d hd => ?_, fun sn _ hne => absurd rfl hne⟩
  · cases hid
  · cases hsvc
  · have hlookup : (GoMap.ofKeys seg.seqNrs fun _ => (none : ByteSlice)).lookup sn =
      some (some d) := hd
    rw [GoMap.lookup_ofKeys] at hlookup
    split at hlookup
    · cases hlookup
    · cases hlookup

/-! ### Adding a ViewChange -/

/-- What adding a ViewChange does to the ones collected: they stay, and at most it is new. -/
structure AddsTo (vc vc' : PbftViewChangeState) (svc : SignedViewChange) (sender : NodeID) :
    Prop where
  kept : ∀ id s, vc.signedViewChanges.lookup id = some s →
    vc'.signedViewChanges.lookup id = some s
  origin : ∀ id s, vc'.signedViewChanges.lookup id = some s →
    vc.signedViewChanges.lookup id = some s ∨ (id = sender ∧ s = svc)
  preprepares : vc'.preprepares = vc.preprepares
  unresolved : ∀ sn, vc'.reproposals.lookup sn = some none → vc.reproposals.lookup sn = some none

theorem lookup_insert_of_not_mem {S : GoMap NodeID SignedViewChange} {sender : NodeID}
    (hnew : sender ∉ S.keys) (svc : SignedViewChange) {id : NodeID} {s : SignedViewChange}
    (hs : S.lookup id = some s) : (S.insert sender svc).lookup id = some s := by
  rw [GoMap.lookup_insert_eq, if_neg]
  · exact hs
  · rintro rfl
    exact hnew (GoMap.mem_keys_iff.mpr ⟨s, hs⟩)

theorem addsTo_of_addSignedViewChange {ord : MapOrder} {svc : SignedViewChange} {sender : NodeID}
    (h : vc.addSignedViewChange ord svc sender = .ok vc') : AddsTo vc vc' svc sender := by
  rcases PbftViewChangeState.addSignedViewChange_cases h with ⟨rfl, -⟩ | ⟨hnew, added, hadded, hcase⟩
  · exact ⟨fun _ _ hs => hs, fun _ _ hs => Or.inl hs, rfl, fun _ hsn => hsn⟩
  · -- both outcomes store the message and leave the Preprepares
    have hsvc : vc'.signedViewChanges = vc.signedViewChanges.insert sender svc ∧
        vc'.preprepares = vc.preprepares ∧
        ∀ sn, vc'.reproposals.lookup sn = some none → vc.reproposals.lookup sn = some none := by
      rcases hcase with ⟨rfl, -⟩ | hupdate
      · rw [hadded]
        exact ⟨rfl, rfl, fun _ hsn => hsn⟩
      · obtain ⟨pSets, qSets, -, -, hs, hpp, hall⟩ :=
          PbftViewChangeState.updateReproposals_spec hupdate
        rw [hadded] at hs hpp hall
        refine ⟨hs, hpp, fun sn hsn => ?_⟩
        by_contra hne
        exact hne (((hall sn).2 hne).symm.trans hsn)
    refine ⟨fun id s hs => ?_, fun id s hs => ?_, hsvc.2.1, hsvc.2.2⟩
    · rw [hsvc.1]
      exact lookup_insert_of_not_mem hnew svc hs
    · rw [hsvc.1, GoMap.lookup_insert_eq] at hs
      split at hs
      · next hid => exact Or.inr ⟨hid, (Option.some.inj hs).symm⟩
      · exact Or.inl hs

/-- **Adding a member's ViewChange keeps the invariant.** -/
theorem VcSound.add (h : VcSound seg vc) {ord : MapOrder} {svc : SignedViewChange}
    {sender : NodeID} (hmem : sender ∈ seg.membership.nodes.keys) (hvc : svc.viewChange ≠ none)
    (hadd : vc.addSignedViewChange ord svc sender = .ok vc') : VcSound seg vc' := by
  have hadds := addsTo_of_addSignedViewChange hadd
  have hsenders : ∀ id ∈ vc'.signedViewChanges.keys, id ∈ seg.membership.nodes.keys := by
    intro id hid
    obtain ⟨s, hs⟩ := GoMap.mem_keys_iff.mp hid
    rcases hadds.origin id s hs with hold | ⟨rfl, -⟩
    · exact h.senders id (GoMap.mem_keys_iff.mpr ⟨s, hold⟩)
    · exact hmem
  have hpresent : ∀ id s, vc'.signedViewChanges.lookup id = some s → s.viewChange ≠ none := by
    intro id s hs
    rcases hadds.origin id s hs with hold | ⟨-, rfl⟩
    · exact h.present id s hold
    · exact hvc
  have hppKeys : ∀ sn, (∃ pp, vc'.preprepares.lookup sn = some pp) ↔ sn ∈ seg.seqNrs := by
    rw [hadds.preprepares]
    exact h.preprepareKeys
  have hkept : ∀ sn d, vc.reproposals.lookup sn = some (some d) →
      Proposable seg.membership vc'.signedViewChanges sn (some d) :=
    fun sn d hd => (h.resolved sn d hd).mono hadds.kept
  rcases PbftViewChangeState.addSignedViewChange_cases hadd with ⟨rfl, -⟩ | ⟨hnew, added, hadded, hcase⟩
  · exact h
  · rcases hcase with ⟨rfl, hno⟩ | hupdate
    · subst hadded
      refine ⟨⟨h.membership, hsenders, hpresent, h.keys, hppKeys⟩, hkept, fun sn _ _ hq => ?_⟩
      rw [h.membership] at hno
      exact absurd (hno.symm.trans hq) (by simp)
    · obtain ⟨pSets, qSets, hsets, hm, hs, hpp, hall⟩ :=
        PbftViewChangeState.updateReproposals_spec hupdate
      rw [hadded] at hm hall
      rw [← hs] at hsets
      replace hm : vc'.membership = seg.membership := hm.trans h.membership
      replace hall : ∀ sn, (vc.reproposals.lookup sn = some none → ∃ d ns,
          reproposal ord pSets qSets sn seg.membership = .ok (d, ns) ∧
            vc'.reproposals.lookup sn = some d) ∧
          (vc.reproposals.lookup sn ≠ some none →
            vc'.reproposals.lookup sn = vc.reproposals.lookup sn) := by
        rw [← h.membership]
        exact hall
      refine ⟨⟨hm, hsenders, hpresent, fun sn => ?_, hppKeys⟩, fun sn d hd => ?_,
        fun sn hsn _ _ => ?_⟩
      · rw [← h.keys sn]
        by_cases hsn : vc.reproposals.lookup sn = some none
        · obtain ⟨d, ns, -, hd⟩ := (hall sn).1 hsn
          rw [hd, hsn]
          simp
        · rw [(hall sn).2 hsn]
      · by_cases hsn : vc.reproposals.lookup sn = some none
        · obtain ⟨d', ns, hrep, hd'⟩ := (hall sn).1 hsn
          rw [hd] at hd'
          cases hd'
          exact (reproposal_proposable hsets hsenders (Membership.readable_of_valid seg.valid)
            hrep).resolve_left (by simp)
        · rw [(hall sn).2 hsn] at hd
          exact hkept sn d hd
      · obtain ⟨d, ns, hrep, hd⟩ := (hall sn).1 (hadds.unresolved sn hsn)
        rw [hsn] at hd
        cases hd
        exact ⟨ord, ns, pSets, qSets, hsets, hrep⟩

/-! ### Feeding the ViewChanges of a NewView -/

/-- One iteration of the loop that feeds ViewChanges. -/
def feedStep (ord : MapOrder) (vc : PbftViewChangeState) (entry : NodeID × SignedViewChange) :
    Fallible PbftViewChangeState :=
  vc.addSignedViewChange ord entry.2 entry.1

/-- With a sender for each message, feeding is a loop over pairs. -/
theorem feedViewChanges_eq_from (ord : MapOrder) (passed : List NodeID) {rest : List NodeID}
    {svcs : List SignedViewChange} (hlen : rest.length = svcs.length) :
    feedViewChanges ord (passed ++ rest) passed.length svcs vc =
      (rest.zip svcs).foldlM (feedStep ord) vc := by
  induction rest generalizing svcs passed vc with
  | nil =>
    rw [List.length_nil, eq_comm, List.length_eq_zero_iff] at hlen
    subst hlen
    rfl
  | cons id rest ih =>
    cases svcs with
    | nil => cases hlen
    | cons svc svcs =>
      rw [List.length_cons, List.length_cons, Nat.add_right_cancel_iff] at hlen
      have hindex : index (passed ++ id :: rest) passed.length = .ok id := by simp
      rw [feedViewChanges, hindex, Fallible.ok_bind, List.zip_cons_cons, List.foldlM_cons]
      refine congrArg _ (funext fun vc₁ => ?_)
      have happ : passed ++ id :: rest = (passed ++ [id]) ++ rest := by simp
      have hlast : passed.length + 1 = (passed ++ [id]).length := by simp
      rw [happ, hlast]
      exact ih (passed ++ [id]) hlen

theorem feedViewChanges_eq (ord : MapOrder) {senders : List NodeID} {svcs : List SignedViewChange}
    (hlen : senders.length = svcs.length) :
    feedViewChanges ord senders 0 svcs vc = (senders.zip svcs).foldlM (feedStep ord) vc :=
  feedViewChanges_eq_from ord [] hlen

section Feed

variable {ord : MapOrder} {pairs : List (NodeID × SignedViewChange)}
  (hmem : ∀ pair ∈ pairs, pair.1 ∈ seg.membership.nodes.keys)
  (hvc : ∀ pair ∈ pairs, pair.2.viewChange ≠ none)

include hmem hvc

/-- **Feeding ViewChanges** collects messages of the list and keeps the invariant. -/
theorem feed_sound (h : pairs.foldlM (feedStep ord)
    (PbftViewChangeState.new seg.seqNrs seg.membership) = .ok vc) :
    VcSound seg vc ∧ ∀ id s, vc.signedViewChanges.lookup id = some s → (id, s) ∈ pairs := by
  refine FallibleLoop.foldlM_induction
    (I := fun xs st => VcSound seg st ∧
      ∀ id s, st.signedViewChanges.lookup id = some s → (id, s) ∈ xs)
    ⟨vcSound_new seg, fun id s hs => (nomatch hs)⟩ ?_ h
  rintro xs ⟨sender, svc⟩ ys hsplit st st' ⟨hsound, horigin⟩ hstep
  have hin : (sender, svc) ∈ pairs := by
    rw [hsplit]
    exact List.mem_append_right _ List.mem_cons_self
  refine ⟨hsound.add (hmem _ hin) (hvc _ hin) hstep, fun id s hs => ?_⟩
  rcases (addsTo_of_addSignedViewChange hstep).origin id s hs with hold | ⟨rfl, rfl⟩
  · exact List.mem_append_left _ (horigin id s hold)
  · exact List.mem_append_right _ (List.mem_singleton.mpr rfl)

end Feed

end Mir.Orderers
