import Mir.Orderers.Collecting
import Mir.Orderers.Execution
import Mir.Orderers.Runs

/-!
# Accepted NewViews

What a NewView is known to carry once it has passed its three stages (`MReachable.accepted_spec`):
valid signatures of members, ViewChanges that resolve every sequence number, and at each position a
Preprepare that matches. What the stages leave open is the view of the carried ViewChanges, the
number of Preprepares, the view and sequence number of those that are proposed again, and the data
of fresh ones; a NewView is sound exactly if it is in order in these respects
(`newViewSound_iff`).
-/

namespace Mir.Orderers

open WeightedQuorum

variable {env : Env} {p : ModuleParams} {K : Guards} {o o' : Orderer} {nv : NewView}

/-! ### Comparing Preprepares -/

/-- What is compared at position `k` of a NewView, for the sequence number `sn`. -/
def MatchesAt (nv : NewView) (digests : List Bytes) (reproposals : GoMap SeqNr ByteSlice) (k : ℕ)
    (sn : SeqNr) : Prop :=
  (ByteSlice.bytes ((reproposals.lookup sn).getD none) = [] →
    ∃ pp, nv.preprepares[k]? = some pp ∧ validFreshPreprepare pp nv.view sn = true) ∧
  (ByteSlice.bytes ((reproposals.lookup sn).getD none) ≠ [] →
    digests[k]? = some (ByteSlice.bytes ((reproposals.lookup sn).getD none)))

/-- **The comparison succeeds** exactly if every position matches. -/
theorem prepreparesMatching_iff {digests : List Bytes} {reproposals : GoMap SeqNr ByteSlice}
    {i : ℕ} {sns : List SeqNr} :
    prepreparesMatching nv digests reproposals i sns = .ok true ↔
      ∀ j sn, sns[j]? = some sn → MatchesAt nv digests reproposals (i + j) sn := by
  induction sns generalizing i with
  | nil => simp [prepreparesMatching]
  | cons sn sns ih =>
    -- the first position, then the rest by induction
    have hrest : (∀ j s, (sn :: sns)[j]? = some s → MatchesAt nv digests reproposals (i + j) s) ↔
        MatchesAt nv digests reproposals i sn ∧
          ∀ j s, sns[j]? = some s → MatchesAt nv digests reproposals (i + 1 + j) s := by
      constructor
      · intro h
        refine ⟨h 0 sn rfl, fun j s hs => ?_⟩
        rw [Nat.add_assoc, Nat.add_comm 1 j]
        exact h (j + 1) s hs
      · rintro ⟨h0, hs⟩ j s hj
        cases j with
        | zero =>
          cases hj
          exact h0
        | succ j =>
          rw [Nat.add_comm j 1, ← Nat.add_assoc]
          exact hs j s hj
    rw [hrest, ← ih, prepreparesMatching]
    by_cases hempty : ByteSlice.bytes ((reproposals.lookup sn).getD none) = []
    · rw [MatchesAt, if_pos hempty]
      cases hpp : nv.preprepares[i]? with
      | none => simp [index, hpp, hempty]
      | some pp =>
        have hindex : index nv.preprepares i = .ok pp := index_eq_ok.mpr hpp
        rw [hindex]
        cases hfresh : validFreshPreprepare pp nv.view sn with
        | false => simp [hempty, hfresh]
        | true => simp [hempty, hfresh]
    · rw [MatchesAt, if_neg hempty]
      cases hd : digests[i]? with
      | none => simp [index, hd, hempty]
      | some d =>
        have hindex : index digests i = .ok d := index_eq_ok.mpr hd
        rw [hindex]
        by_cases heq : ByteSlice.bytes ((reproposals.lookup sn).getD none) = d
        · rw [heq] at hempty ⊢
          simp [hempty]
        · have hne : d ≠ ByteSlice.bytes ((reproposals.lookup sn).getD none) := fun h => heq h.symm
          simp [hempty, heq, hne]

/-! ### What has been checked -/

/-- The carried ViewChanges with their senders. -/
def NewView.carried (nv : NewView) : List (NodeID × SignedViewChange) :=
  nv.viewChangeSenders.zip nv.signedViewChanges

/-- The ViewChanges of which all signatures were found valid. -/
theorem verified_of_verifyAll {svcs : List SignedViewChange} {ids : List NodeID}
    {data : List Bytes}
    (hdata : svcs.mapM (fun svc => svc.viewChange.map ViewChange.signedBytes) = some data)
    (h : env.verifyAll data (svcs.map SignedViewChange.signature) ids = true) {id : NodeID}
    {svc : SignedViewChange} (hmem : (id, svc) ∈ ids.zip svcs) :
    ∃ vc, svc.viewChange = some vc ∧ env.verify vc.signedBytes svc.signature id = true := by
  induction svcs generalizing ids data with
  | nil =>
    rw [List.zip_nil_right] at hmem
    cases hmem
  | cons s svcs ih =>
    cases ids with
    | nil => cases hmem
    | cons i ids =>
      rw [List.mapM_cons] at hdata
      obtain ⟨d, hd, hdata⟩ := Option.bind_eq_some_iff.mp hdata
      obtain ⟨ds, hds, hdata⟩ := Option.bind_eq_some_iff.mp hdata
      cases hdata
      rw [List.map_cons, Env.verifyAll, Bool.and_eq_true] at h
      rw [List.zip_cons_cons, List.mem_cons] at hmem
      rcases hmem with heq | hmem
      · cases heq
        obtain ⟨vc, hvc, rfl⟩ := Option.map_eq_some_iff.mp hd
        exact ⟨vc, hvc, h.1⟩
      · exact ih hds h.2 hmem

/-- What is known of a NewView whose Preprepares are being hashed: a message of the primary, with
ViewChanges that members have signed. -/
structure NewViewVerified (env : Env) (p : ModuleParams) (o : Orderer) (nv : NewView) : Prop where
  lengths : nv.viewChangeSenders.length = nv.signedViewChanges.length
  members : ∀ pair ∈ nv.carried, pair.1 ∈ p.segment.membership.nodes.keys
  signed : ∀ pair ∈ nv.carried, ∃ vc, pair.2.viewChange = some vc ∧
    env.verify vc.signedBytes pair.2.signature pair.1 = true
  verified : .sigsVerified nv.viewChangeSenders true nv ∈ o.log
  received : ∃ sender, p.segment.primaryNode nv.view = .ok sender ∧
    .messageReceived sender (.newView nv) ∈ o.log

theorem MReachable.newViewVerified (h : MReachable env p K o) {data : List Bytes}
    (hx : .hashRequest data (.newView nv) ∈ o.out) :
    NewViewVerified env p o nv ∧ data = nv.preprepares.map Preprepare.hashBytes := by
  obtain ⟨hdata, vdata, sigs, senders, hreq, hall, hlog, hmem⟩ := h.origin hx trivial
  obtain ⟨rfl, hlen, hbytes, rfl, hsender⟩ := h.origin hreq trivial
  refine ⟨⟨hlen, fun pair hp => hmem _ (List.of_mem_zip hp).1, fun pair hp => ?_, hlog, hsender⟩,
    hdata⟩
  exact verified_of_verifyAll hbytes hall hp

theorem NewViewVerified.mono (hg : Grows o o') (h : NewViewVerified env p o nv) :
    NewViewVerified env p o' nv := by
  obtain ⟨sender, hprimary, hrcv⟩ := h.received
  exact ⟨h.lengths, h.members, h.signed, hg.log.subset h.verified, sender, hprimary,
    hg.log.subset hrcv⟩

/-- The values the carried ViewChanges resolve to: each is proposable, and the Preprepare at its
position matches. -/
structure NewViewResolved (env : Env) (p : ModuleParams) (nv : NewView)
    (vcState : PbftViewChangeState) : Prop where
  sound : VcSound p.segment vcState
  origin : ∀ id s, vcState.signedViewChanges.lookup id = some s → (id, s) ∈ nv.carried
  enough : vcState.enoughViewChanges = true
  matching : ∀ j sn, p.segment.seqNrs[j]? = some sn →
    MatchesAt nv (nv.preprepares.map fun pp => env.hash pp.hashBytes) vcState.reproposals j sn

theorem NewViewVerified.resolved (hv : NewViewVerified env p o nv) {ord : MapOrder} {s : State}
    (hacc : AcceptsNewView ord p (nv.preprepares.map fun pp => env.hash pp.hashBytes) nv s) :
    ∃ vcState, NewViewResolved env p nv vcState := by
  obtain ⟨-, vcState, hfeed, henough, hmatch⟩ := hacc
  rw [feedViewChanges_eq ord hv.lengths] at hfeed
  obtain ⟨hsound, horigin⟩ := feed_sound hv.members (fun pair hp => by
    obtain ⟨vc, hvc, -⟩ := hv.signed pair hp
    rw [hvc]
    exact Option.some_ne_none vc) hfeed
  have hkeys : GoMap.sortedKeys uint64Le vcState.reproposals = p.segment.seqNrs := by
    refine GoMap.sortedKeys_congr fun sn => ?_
    rw [GoMap.mem_keys_iff, hsound.keys, Segment.mem_seqNrs]
  refine ⟨vcState, hsound, horigin, henough, fun j sn hj => ?_⟩
  rw [hkeys] at hmatch
  have hat := prepreparesMatching_iff.mp hmatch j sn hj
  rwa [Nat.zero_add] at hat

/-- **What an accepted NewView has passed.** -/
theorem MReachable.accepted_spec (h : MReachable env p K o) (hm : .accepted nv ∈ o.marks) :
    NewViewVerified env p o nv ∧ ∃ vcState, NewViewResolved env p nv vcState := by
  induction h with
  | init h =>
    rw [(initOrderer_history h).2] at hm
    cases hm
  | micro hr hstep ih =>
    rcases hstep.mem_marks hm with hold | hnew
    · obtain ⟨hv, hres⟩ := ih hold
      exact ⟨hv.mono hstep.grows, hres⟩
    · cases hnew with
      | slot _ hupdate => cases hupdate
      | decide _ _ hdec => cases hdec
      | accepted hreq hacc =>
        obtain ⟨hv, rfl⟩ := hr.newViewVerified hreq
        rw [List.map_map] at hacc
        exact ⟨hv.mono hstep.grows, hv.resolved hacc⟩

/-! ### Soundness -/

/-- The Preprepare proposes a digest that carried ViewChanges, one for each sender, require to be
proposed again. -/
def Reproposed (env : Env) (m : Membership) (nv : NewView) (sn : SeqNr) (pp : Preprepare) : Prop :=
  ∃ (S : GoMap NodeID SignedViewChange) (d : ByteSlice),
    (∀ id s, S.lookup id = some s → (id, s) ∈ nv.carried) ∧ Proposable m S sn d ∧
      d.bytes ≠ [] ∧ env.hash pp.hashBytes = d.bytes

/-- A strong quorum of carried ViewChanges reports nothing prepared. -/
def NothingPrepared (m : Membership) (nv : NewView) (sn : SeqNr) : Prop :=
  ∃ A, IsStrong m.members m.w A ∧ ∀ id ∈ A, ∃ svc sets, (id, svc) ∈ nv.carried ∧
    svc.sets = some sets ∧ sets.1.lookup sn = none

/-- A carried ViewChange reports a prepared value with a digest of length zero. -/
def EmptyDigestReported (nv : NewView) (sn : SeqNr) : Prop :=
  ∃ pair ∈ nv.carried, ∃ sets e, pair.2.sets = some sets ∧ sets.1.lookup sn = some e ∧
    e.digest.bytes = []

/-- The data of a fresh Preprepare: the pre-configured proposal, or none. -/
def FreshData (seg : Segment) (sn : SeqNr) (pp : Preprepare) : Prop :=
  pp.data = [] ∨ ∃ b, seg.proposals.lookup sn = some b ∧ pp.data = ByteSlice.bytes b

/-- **A sound NewView** carries a strong quorum of signed ViewChanges for its view, and for each
sequence number a Preprepare that is required by them, or is fresh where nothing was prepared. -/
structure NewViewSound (env : Env) (p : ModuleParams) (nv : NewView) : Prop where
  lengths : nv.viewChangeSenders.length = nv.signedViewChanges.length
  signed : ∀ pair ∈ nv.carried, pair.1 ∈ p.segment.membership.nodes.keys ∧
    ∃ vc, pair.2.viewChange = some vc ∧ vc.view = nv.view ∧
      env.verify vc.signedBytes pair.2.signature pair.1 = true
  quorum : ∃ Q, IsStrong p.segment.membership.members p.segment.membership.w Q ∧
    ∀ id ∈ Q, id ∈ nv.viewChangeSenders
  preprepares : List.Forall₂ (fun sn pp => pp.sn = sn ∧ pp.view = nv.view ∧
      (Reproposed env p.segment.membership nv sn pp ∨
        NothingPrepared p.segment.membership nv sn ∧ pp.aborted = true ∧
          FreshData p.segment sn pp))
    p.segment.seqNrs nv.preprepares

/-- What the node does not check: the views of the carried ViewChanges, that there is one
Preprepare of this view for each sequence number, the data of fresh ones, that no digest of length
zero is reported for them, and the quorum if the segment has no sequence number. -/
structure NewViewWellFormed (env : Env) (p : ModuleParams) (nv : NewView) : Prop where
  views : ∀ pair ∈ nv.carried, ∀ vc, pair.2.viewChange = some vc → vc.view = nv.view
  quorum : p.segment.seqNrs = [] →
    ∃ Q, IsStrong p.segment.membership.members p.segment.membership.w Q ∧
      ∀ id ∈ Q, id ∈ nv.viewChangeSenders
  preprepares : List.Forall₂ (fun sn pp => pp.sn = sn ∧ pp.view = nv.view ∧
      (Reproposed env p.segment.membership nv sn pp ∨ FreshData p.segment sn pp ∧
        (NothingPrepared p.segment.membership nv sn ∨ ¬ EmptyDigestReported nv sn)))
    p.segment.seqNrs nv.preprepares

namespace NewViewResolved

variable {vcState : PbftViewChangeState} (h : NewViewResolved env p nv vcState)

include h

/-- Every sequence number is resolved to a proposable value. -/
theorem exists_proposable {sn : SeqNr} (hsn : sn ∈ p.segment.seqNrs) :
    ∃ d, vcState.reproposals.lookup sn = some (some d) ∧
      Proposable p.segment.membership vcState.signedViewChanges sn (some d) := by
  obtain ⟨d, hd⟩ := (h.sound.keys sn).mpr hsn
  cases d with
  | none => exact absurd hd (PbftViewChangeState.enoughViewChanges_iff.mp h.enough sn)
  | some d => exact ⟨d, hd, h.sound.resolved sn d hd⟩

/-- The sets a collected ViewChange reports are those of a carried one. -/
theorem carried_of_setsAt {id : NodeID} {sets : ViewChangePSet × ViewChangeQSet}
    (hsets : setsAt vcState.signedViewChanges id = some sets) :
    ∃ svc, (id, svc) ∈ nv.carried ∧ svc.sets = some sets := by
  obtain ⟨svc, hsvc, hs⟩ := Option.bind_eq_some_iff.mp hsets
  exact ⟨svc, h.origin id svc hsvc, hs⟩

/-- The value of a sequence number rests on a strong quorum of carried ViewChanges. -/
theorem exists_quorum {sn : SeqNr} (hsn : sn ∈ p.segment.seqNrs) :
    ∃ Q, IsStrong p.segment.membership.members p.segment.membership.w Q ∧
      ∀ id ∈ Q, id ∈ nv.viewChangeSenders := by
  obtain ⟨d, -, hd⟩ := h.exists_proposable hsn
  obtain ⟨Q, hQ, hsets⟩ := hd.exists_quorum
  refine ⟨Q, hQ, fun id hid => ?_⟩
  obtain ⟨sets, hid⟩ := hsets id hid
  obtain ⟨svc, hsvc, -⟩ := h.carried_of_setsAt hid
  exact (List.of_mem_zip hsvc).1

/-- A fresh value is due to a strong quorum with nothing prepared, or to a reported digest of
length zero. -/
theorem nothingPrepared_or_emptyDigest {sn : SeqNr}
    (hd : Proposable p.segment.membership vcState.signedViewChanges sn (some [])) :
    NothingPrepared p.segment.membership nv sn ∨ EmptyDigestReported nv sn := by
  generalize hdigest : (some [] : ByteSlice) = digest at hd
  cases hd with
  | fresh hA hnone =>
    refine Or.inl ⟨_, hA, fun id hid => ?_⟩
    obtain ⟨sets, hsets, hlookup⟩ := hnone id hid
    obtain ⟨svc, hsvc, hs⟩ := h.carried_of_setsAt hsets
    exact ⟨svc, sets, hsvc, hs, hlookup⟩
  | @entry id sets e _ _ hid he =>
    obtain ⟨svc, hsvc, hs⟩ := h.carried_of_setsAt hid
    refine Or.inr ⟨(id, svc), hsvc, sets, e, hs, he, ?_⟩
    rw [← hdigest]
    rfl

/-- A Preprepare at the position of a sequence number is required by the carried ViewChanges, or
aborted where a fresh value is proposable. -/
theorem reproposed_or_fresh {j : ℕ} {sn : SeqNr} {pp : Preprepare}
    (hsn : p.segment.seqNrs[j]? = some sn) (hpp : nv.preprepares[j]? = some pp) :
    Reproposed env p.segment.membership nv sn pp ∨ pp.aborted = true ∧
      (NothingPrepared p.segment.membership nv sn ∨ EmptyDigestReported nv sn) := by
  obtain ⟨d, hlookup, hd⟩ := h.exists_proposable (List.mem_of_getElem? hsn)
  obtain ⟨hfresh, hdigest⟩ := h.matching j sn hsn
  rw [hlookup, Option.getD_some, ByteSlice.bytes_some] at hfresh hdigest
  by_cases hempty : d = []
  · subst hempty
    obtain ⟨pp', hpp', hvalid⟩ := hfresh rfl
    rw [hpp] at hpp'
    cases hpp'
    rw [validFreshPreprepare, Bool.and_eq_true, Bool.and_eq_true] at hvalid
    exact Or.inr ⟨hvalid.1.1, h.nothingPrepared_or_emptyDigest hd⟩
  · have hhash := hdigest hempty
    rw [List.getElem?_map, hpp, Option.map_some] at hhash
    exact Or.inl ⟨_, some d, h.origin, hd, hempty, Option.some.inj hhash⟩

end NewViewResolved

/-- Two lists are related position by position if they are under a stronger condition that the
positions supply. -/
theorem forall₂_of_getElem? {α β : Type} {R R' : α → β → Prop} {l : List α} {l' : List β}
    (h : List.Forall₂ R l l')
    (himp : ∀ (j : ℕ) a b, l[j]? = some a → l'[j]? = some b → R a b → R' a b) :
    List.Forall₂ R' l l' := by
  induction h with
  | nil => exact .nil
  | cons hab _ ih =>
    exact .cons (himp 0 _ _ rfl rfl hab) (ih fun j a b ha hb => himp (j + 1) a b ha hb)

/-- **Acceptance is sound exactly for well-formed NewViews**: whatever a node accepts in any run is
sound if and only if it is in order where the node does not look. -/
theorem newViewSound_iff (env : Env) (p : ModuleParams) (o : Orderer)
    (hr : Reachable env p anyStep o) (nv : NewView) (hacc : .accepted nv ∈ o.marks) :
    NewViewSound env p nv ↔ NewViewWellFormed env p nv := by
  have hr' : Reachable env p (Guards.none.onStep p) o :=
    hr.mono fun o ord ev _ => Guards.none_onStep p o ord ev
  obtain ⟨hv, vcState, hres⟩ := hr'.mReachable.accepted_spec hacc
  constructor
  · intro hs
    refine ⟨fun pair hp vc hvc => ?_, fun _ => hs.quorum, ?_⟩
    · obtain ⟨-, vc', hvc', hview, -⟩ := hs.signed pair hp
      rw [hvc] at hvc'
      cases hvc'
      exact hview
    · refine hs.preprepares.imp fun sn pp ⟨hsn, hview, hcase⟩ => ⟨hsn, hview, ?_⟩
      exact hcase.imp_right fun ⟨hnone, _, hdata⟩ => ⟨hdata, Or.inl hnone⟩
  · intro hw
    refine ⟨hv.lengths, fun pair hp => ⟨hv.members pair hp, ?_⟩, ?_, ?_⟩
    · obtain ⟨vc, hvc, hverify⟩ := hv.signed pair hp
      exact ⟨vc, hvc, hw.views pair hp vc hvc, hverify⟩
    · rcases List.eq_nil_or_concat p.segment.seqNrs with hnil | ⟨l, sn, hsn⟩
      · exact hw.quorum hnil
      · have hmem : sn ∈ p.segment.seqNrs := by simp [hsn]
        exact hres.exists_quorum hmem
    · refine forall₂_of_getElem? hw.preprepares fun j sn pp hsn hpp ⟨heq, hview, hcase⟩ =>
        ⟨heq, hview, ?_⟩
      -- a Preprepare that is not proposed again has passed the check of fresh ones
      rcases hres.reproposed_or_fresh hsn hpp with hre | ⟨haborted, hcause⟩
      · exact Or.inl hre
      · rcases hcase with hre | ⟨hdata, hquorum⟩
        · exact Or.inl hre
        · exact Or.inr ⟨hquorum.elim id hcause.resolve_right, haborted, hdata⟩

/-- A ViewChange for the given view that reports nothing, as signed by `id`. -/
def emptyViewChange (view : ViewNr) (id : NodeID) : SignedViewChange :=
  let vc : ViewChange := ⟨view, [], []⟩
  ⟨some vc, some (id ++ vc.signedBytes)⟩

/-- A NewView for view one with an aborted Preprepare, whose ViewChanges are for the given view. -/
def abortingNewView (view : ViewNr) : NewView :=
  ⟨1, [[97], [99], [100]], [[97], [99], [100]].map (emptyViewChange view), [0],
    [⟨0, 1, [], true⟩]⟩

/-- The primary of view one sends the NewView, and its signatures and digests are computed. -/
def acceptAbortingNewView (view : ViewNr) : List Event :=
  let nv := abortingNewView view
  [.messageReceived [97] (.newView nv), .sigsVerified nv.viewChangeSenders true nv,
    .hashResult (nv.preprepares.map Preprepare.hashBytes) (.newView nv)]

/-- A NewView with ViewChanges for its own view is accepted, and sound. -/
theorem newViewSound_abortingNewView :
    ∃ o, Reachable plainEnv (plainParams singleSlot [98]) anyStep o ∧
      .accepted (abortingNewView 1) ∈ o.marks ∧
      NewViewSound plainEnv (plainParams singleSlot [98]) (abortingNewView 1) := by
  obtain ⟨o, hr, hacc⟩ := exists_reachable (C := anyStep) (fun _ => trivial) (by decide +kernel :
    (execute plainEnv (plainParams singleSlot [98]) (fun _ _ => true)
      (acceptAbortingNewView 1)).any (fun o => .accepted (abortingNewView 1) ∈ o.marks) = true)
  refine ⟨o, hr, hacc, (newViewSound_iff _ _ o hr _ hacc).mpr ⟨?_, ?_, ?_⟩⟩
  · decide +kernel
  · intro hnil
    exact absurd hnil (by decide +kernel)
  · have hseq : (plainParams singleSlot [98]).segment.seqNrs = [0] := by decide +kernel
    rw [hseq]
    refine .cons ⟨rfl, rfl, Or.inr ⟨Or.inl rfl, Or.inr ?_⟩⟩ .nil
    -- the P-sets are empty
    rintro ⟨pair, hpair, sets, e, hsets, he, -⟩
    have hnone : ∀ pair ∈ (abortingNewView 1).carried,
        pair.2.sets.bind (fun sets => sets.1.lookup 0) = none := by
      decide +kernel
    have hlookup := hnone pair hpair
    rw [hsets, Option.bind_some, he] at hlookup
    cases hlookup

/-- **An accepted NewView need not be sound**: the ViewChanges it carries may be for another
view. -/
theorem accepted_newView_unsound : ¬ ∀ env p o nv, Reachable env p anyStep o →
    .accepted nv ∈ o.marks → NewViewSound env p nv := by
  intro h
  obtain ⟨o, hr, hacc⟩ := exists_reachable (C := anyStep) (fun _ => trivial) (by decide +kernel :
    (execute plainEnv (plainParams singleSlot [98]) (fun _ _ => true)
      (acceptAbortingNewView 2)).any (fun o => .accepted (abortingNewView 2) ∈ o.marks) = true)
  have hsound := h _ _ o _ hr hacc
  obtain ⟨-, vc, hvc, hview, -⟩ := hsound.signed ([97], emptyViewChange 2 [97]) (by decide +kernel)
  cases hvc
  exact absurd hview (by decide)

end Mir.Orderers
