import Mir.Orderers.Execution
import Mir.Orderers.SlotChanges
import Mir.Orderers.ViewChangeSets

/-!
# Digests belong to Preprepares

A slot's Preprepare and its digest are written at different times, with hashing in between. As
long as a hash result finds the Preprepare that was hashed still in its slot, every slot that got
past its Preprepare holds the hash of that very Preprepare (`MReachable.digestMatches`), and so
do the sets of a ViewChange, the digests of a Done message and the answers of `LookUpPreprepare`
(`digestsBelong`).

The handler of the hash result checks the view but not the slot: a catch-up that completes while
a hash is outstanding leaves the value caught up with the digest of another (`late_hash_mismatch`).
-/

namespace Mir.Orderers

variable {env : Env} {p : ModuleParams} {K : Guards} {o o' : Orderer}

/-! ### Hash requests -/

/-- The Preprepare a hash was requested for. -/
def HashOneContext.preprepareOf : HashOneContext → Preprepare
  | .preprepare pp => pp
  | .catchUpResponse pp => pp
  | .missingPreprepare pp => pp

/-- **The data of a hash request** are those of its Preprepare. -/
theorem MReachable.hashRequestOne_data (h : MReachable env p K o) {data : Bytes}
    {ctx : HashOneContext} (hx : .hashRequestOne data ctx ∈ o.out) :
    data = ctx.preprepareOf.hashBytes := by
  induction h with
  | init h =>
    obtain ⟨_, _, hx⟩ := mem_out_initOrderer h hx
    cases hx
  | micro _ hstep ih =>
    rcases hstep.mem_out hx with hold | hnew
    · exact ih hold
    · cases hnew with
      | own horigin =>
        cases ctx with
        | preprepare pp => exact horigin.elim
        | catchUpResponse pp => exact horigin.1
        | missingPreprepare pp => exact horigin.1
      | slot _ hupdate =>
        cases hupdate
        rfl

/-! ### Slots -/

/-- Past its Preprepare, a slot holds a Preprepare and its hash. -/
def PbftSlot.DigestMatches (env : Env) (slot : PbftSlot) : Prop :=
  slot.preprepared = true ∨ slot.prepared = true ∨ slot.committed = true →
    ∃ pp, slot.preprepare = some pp ∧ slot.digest = some (env.hash pp.hashBytes)

/-- A slot without a Preprepare has not got past it. -/
theorem PbftSlot.DigestMatches.of_none {slot : PbftSlot} (h : slot.DigestMatches env)
    (hnone : slot.preprepare = none) :
    ¬ (slot.preprepared = true ∨ slot.prepared = true ∨ slot.committed = true) := by
  intro hpast
  obtain ⟨pp, hpp, -⟩ := h hpast
  rw [hnone] at hpp
  cases hpp

/-- A hash result finds the Preprepare that was hashed, or an equal one, in the slot. -/
def Guards.HashMatches (K : Guards) : Prop :=
  ∀ s pp, K.hashed s pp → ∀ slot, s.slot? s.view pp.sn = some slot →
    ∃ pp', slot.preprepare = some pp' ∧ pp'.hashBytes = pp.hashBytes

theorem SlotUpdate.digestMatches (hK : K.HashMatches) (hr : MReachable env p K o) {sn : SeqNr}
    {slot slot' : PbftSlot} {m : Option Mark} {x : Option Output}
    (h : SlotUpdate env p K o sn slot slot' m x) (hslot : o.slot? sn = some slot)
    (hmatch : slot.DigestMatches env) : slot'.DigestMatches env := by
  cases h with
  | accept pp sender hsn hcom hnone => exact fun hpast => absurd hpast (hmatch.of_none hnone)
  | hashed pp data hsn hview hreq hguard =>
    intro _
    obtain ⟨pp', hpp', hbytes⟩ := hK o.state pp hguard slot (hsn ▸ hslot)
    refine ⟨pp', hpp', ?_⟩
    rw [hbytes, hr.hashRequestOne_data hreq]
    rfl
  | prepare received valid hpp => exact fun _ => hmatch (Or.inl hpp)
  | touch | addPrepare | addCommit | checkPrepares | checkCommits => exact hmatch

theorem Decides.digestMatches (hr : MReachable env p K o) {sn : SeqNr} {slot slot' : PbftSlot}
    {m : Mark} {pp : Preprepare} (h : Decides env o sn slot slot' m pp)
    (hmatch : slot.DigestMatches env) : slot'.DigestMatches env := by
  cases h with
  | commit hprep => exact fun _ => hmatch (Or.inr (Or.inl hprep))
  | catchUp hsn hreq =>
    intro _
    refine ⟨_, rfl, ?_⟩
    rw [Preprepare.hashBytes_view, hr.hashRequestOne_data hreq]
    rfl

/-- **The digest of a slot is the hash of its Preprepare**, in every view. -/
theorem MReachable.digestMatches (hK : K.HashMatches) (h : MReachable env p K o) {v : ViewNr}
    {sn : SeqNr} {slot : PbftSlot} (hslot : o.state.slot? v sn = some slot) :
    slot.DigestMatches env := by
  induction h generalizing v sn slot with
  | init h =>
    rw [slot?_initOrderer h hslot]
    rintro (hpast | hpast | hpast)
    all_goals cases hpast
  | micro hr hstep ih =>
    rcases hstep.slot_cases hslot with hold | ⟨-, -, slot₀, hslot₀, hchange⟩ | ⟨-, -, -, hinit⟩
    · exact ih hold
    · cases hchange with
      | update hupdate => exact hupdate.digestMatches hK hr hslot₀ (ih hslot₀)
      | decide _ hdec => exact hdec.digestMatches hr (ih hslot₀)
    · cases hinit with
      | fresh =>
        rintro (hpast | hpast | hpast)
        all_goals cases hpast
      | carried _ hprev hcom hpp =>
        intro _
        obtain ⟨pp, hpp', hdigest⟩ := ih hprev (Or.inr (Or.inr hcom))
        rw [hpp] at hpp'
        cases hpp'
        refine ⟨_, rfl, ?_⟩
        rw [Preprepare.hashBytes_view]
        exact hdigest

/-! ### What is derived from slots -/

/-- `d` is the hash of the Preprepare that the slot of `sn` in view `v` holds. -/
def State.HoldsHash (env : Env) (s : State) (v : ViewNr) (sn : SeqNr) (d : Bytes) : Prop :=
  ∃ slot pp, s.slot? v sn = some slot ∧ slot.preprepare = some pp ∧ d = env.hash pp.hashBytes

/-- Digests and Preprepares belong together, in the slots and in all that is derived from them:
the sets of a ViewChange, the digests of a Done message, and the Preprepares found by digest. -/
structure DigestConsistent (env : Env) (p : ModuleParams) (s : State) : Prop where
  slots : ∀ v sn slot, s.slot? v sn = some slot → slot.DigestMatches env
  pSet : ∀ pSet qSet, getPSetQSet p s = .ok (pSet, qSet) → ∀ sn e, pSet.lookup sn = some e →
    ∃ d, e.digest = some d ∧ s.HoldsHash env e.view sn d
  qSet : ∀ pSet qSet, getPSetQSet p s = .ok (pSet, qSet) → ∀ sn entries d v,
    qSet.lookup sn = some entries → entries.lookup d = some v → s.HoldsHash env v sn d
  done : s.allCommitted = true → List.Forall₂ (s.HoldsHash env s.view)
    (GoMap.sortedKeys uint64Le (s.slotsOf s.view)) (doneDigests s)
  lookUp : ∀ sn digest pp, s.lookUpPreprepare sn digest = some pp →
    digest = some (env.hash pp.hashBytes)

section Derived

variable {s : State} (hs : ∀ v sn slot, s.slot? v sn = some slot → slot.DigestMatches env)

include hs

theorem holdsHash_of_digest {v : ViewNr} {sn : SeqNr} {slot : PbftSlot}
    (hslot : s.slot? v sn = some slot)
    (hpast : slot.preprepared = true ∨ slot.prepared = true ∨ slot.committed = true) :
    ∃ d, slot.digest = some d ∧ s.HoldsHash env v sn d := by
  obtain ⟨pp, hpp, hdigest⟩ := hs v sn slot hslot hpast
  exact ⟨_, hdigest, slot, pp, hslot, hpp, rfl⟩

theorem holdsHash_of_pSet {pSet : ViewChangePSet} {qSet : ViewChangeQSet}
    (h : getPSetQSet p s = .ok (pSet, qSet)) {sn : SeqNr} {e : PSetEntry}
    (he : pSet.lookup sn = some e) : ∃ d, e.digest = some d ∧ s.HoldsHash env e.view sn d := by
  obtain ⟨hin, hout⟩ := getPSetQSet_spec h
  by_cases hsn : sn ∈ p.segment.seqNrs
  · have hentry := (hin sn hsn).pEntry
    rw [he] at hentry
    obtain ⟨-, -, ⟨slot, hslot, hprep, hdigest⟩, -⟩ := hentry
    rw [hdigest]
    exact holdsHash_of_digest hs hslot (Or.inr (Or.inl hprep))
  · rw [(hout sn hsn).1] at he
    cases he

theorem holdsHash_of_qSet {pSet : ViewChangePSet} {qSet : ViewChangeQSet}
    (h : getPSetQSet p s = .ok (pSet, qSet)) {sn : SeqNr} {entries : GoMap GoString ViewNr}
    (he : qSet.lookup sn = some entries) {d : Bytes} {v : ViewNr}
    (hd : entries.lookup d = some v) : s.HoldsHash env v sn d := by
  obtain ⟨hin, hout⟩ := getPSetQSet_spec h
  by_cases hsn : sn ∈ p.segment.seqNrs
  · obtain ⟨entries', he', hq⟩ := (hin sn hsn).qEntries
    rw [he] at he'
    cases he'
    obtain ⟨-, slot, hslot, hpp, rfl⟩ := hq.real d v hd
    obtain ⟨d', hdigest, hholds⟩ := holdsHash_of_digest hs hslot (Or.inl hpp)
    rw [hdigest]
    exact hholds
  · rw [(hout sn hsn).2] at he
    cases he

theorem holdsHash_of_done (hall : s.allCommitted = true) :
    List.Forall₂ (s.HoldsHash env s.view) (GoMap.sortedKeys uint64Le (s.slotsOf s.view))
      (doneDigests s) := by
  rw [doneDigests, List.forall₂_map_right_iff, List.forall₂_same]
  intro sn hsn
  rw [GoMap.mem_sortedKeys, GoMap.mem_keys_iff] at hsn
  obtain ⟨slot, hslot⟩ := hsn
  -- every slot of the current view is counted as committed
  rw [State.allCommitted, beq_iff_eq, State.numCommitted, List.length_filter_eq_length_iff] at hall
  have hcom : slot.committed = true := hall ⟨sn, slot⟩ (AList.mem_lookup_iff.mp hslot)
  obtain ⟨d, hdigest, hholds⟩ := holdsHash_of_digest hs hslot (Or.inr (Or.inr hcom))
  have hget : s.slot? s.view sn = some slot := hslot
  rw [hget, Option.bind_some, hdigest]
  exact hholds

theorem hash_of_lookUpPreprepareFrom {sn : SeqNr} {digest : ByteSlice} {pp : Preprepare} {n : ℕ}
    (h : s.lookUpPreprepareFrom sn digest n = some pp) :
    digest = some (env.hash pp.hashBytes) := by
  have key : ∀ v, (s.slot? v sn).bind (fun slot => slot.getPreprepare digest) = some pp →
      digest = some (env.hash pp.hashBytes) := by
    intro v hv
    obtain ⟨slot, hslot, hget⟩ := Option.bind_eq_some_iff.mp hv
    obtain ⟨hpp, hheld, hdigest⟩ := PbftSlot.getPreprepare_eq_some hget
    obtain ⟨pp', hheld', hdigest'⟩ := hs v sn slot hslot (Or.inl hpp)
    rw [hheld] at hheld'
    cases hheld'
    rw [hdigest, hdigest', ByteSlice.bytes_some]
  induction n with
  | zero => exact key 0 h
  | succ n ih =>
    rw [State.lookUpPreprepareFrom] at h
    split at h
    · next pp' hfound =>
      cases h
      exact key _ hfound
    · exact ih h

/-- What holds of the slots holds of all that is derived from them. -/
theorem digestConsistent_of_slots : DigestConsistent env p s :=
  ⟨hs, fun _ _ h _ _ he => holdsHash_of_pSet hs h he,
    fun _ _ h _ _ _ _ he hd => holdsHash_of_qSet hs h he hd,
    holdsHash_of_done hs, fun _ _ _ h => hash_of_lookUpPreprepareFrom hs h⟩

end Derived

/-! ### The property of runs -/

/-- In the runs whose steps meet a condition, digests and Preprepares belong together. -/
def DigestsBelong (env : Env) (p : ModuleParams) (C : StepCondition) : Prop :=
  ∀ o, Reachable env p C o → DigestConsistent env p o.state

/-- The hash of a Preprepare that is not outdated finds in its slot a Preprepare with the same
hashed bytes. -/
def hashMatches : Guards :=
  { Guards.none with hashed := fun s pp => ∃ slot pp', s.slot? s.view pp.sn = some slot ∧
      slot.preprepare = some pp' ∧ pp'.hashBytes = pp.hashBytes }

/-- **Digests and Preprepares belong together** in every run in which hash results find the
Preprepare that was hashed. -/
theorem digestsBelong (env : Env) (p : ModuleParams) :
    DigestsBelong env p (hashMatches.onStep p) := by
  intro o hr
  have hK : hashMatches.HashMatches := by
    rintro s pp ⟨slot, pp', hslot, hpp', hbytes⟩ slot₁ hslot₁
    rw [hslot] at hslot₁
    cases hslot₁
    exact ⟨pp', hpp', hbytes⟩
  exact digestConsistent_of_slots fun v sn slot hslot => hr.mReachable.digestMatches hK hslot

/-- Whether a hash result finds the Preprepare that was hashed. -/
def findsHashed (o : Orderer) : Event → Bool
  | .hashResultOne _ (.preprepare pp) => match o.slot? pp.sn with
    | some slot => decide (slot.preprepare = some pp)
    | none => false
  | _ => true

theorem onStep_of_findsHashed {o : Orderer} {ev : Event} (h : findsHashed o ev = true) :
    hashMatches.onStep p o .listed ev := by
  refine ⟨trivial, ?_⟩
  split
  · next pp =>
    intro _
    rw [findsHashed] at h
    split at h
    · next slot hslot => exact ⟨slot, pp, hslot, of_decide_eq_true h, rfl⟩
    · cases h
  · exact fun _ => trivial
  · exact fun _ => trivial
  · trivial
  · trivial

/-- A node that prepared the leader's proposal holds its hash. -/
theorem digestsBelong_prepared :
    ∃ (o : Orderer) (slot : PbftSlot), Reachable plainEnv (plainParams singleSlot [97])
        (hashMatches.onStep (plainParams singleSlot [97])) o ∧
      o.slot? 0 = some slot ∧ slot.prepared = true ∧
      ∃ pp, slot.preprepare = some pp ∧ slot.digest = some (plainEnv.hash pp.hashBytes) := by
  obtain ⟨o, hr, hprep⟩ := exists_reachable (C := hashMatches.onStep (plainParams singleSlot [97]))
    onStep_of_findsHashed (by decide +kernel :
      (execute plainEnv (plainParams singleSlot [97]) findsHashed
        (receiveProposal ++ prepareProposal)).any
          (fun o => (o.slot? 0).map PbftSlot.prepared = some true) = true)
  obtain ⟨slot, hslot, hprep⟩ := Option.map_eq_some_iff.mp hprep
  exact ⟨o, slot, hr, hslot, hprep, (digestsBelong plainEnv (plainParams singleSlot [97]) o
    hr).slots o.state.view 0 slot hslot (Or.inr (Or.inl hprep))⟩

/-- Another proposal for the single slot. -/
def otherProposal : Preprepare := ⟨0, 0, [2], false⟩

/-- The first node stores the leader's proposal; before its hash arrives it catches up with
another value that two nodes report as decided. -/
def catchUpBeforeHash : List Event :=
  receiveProposal ++
    [.messageReceived [98] (.done [otherProposal.hashBytes]),
      .messageReceived [99] (.done [otherProposal.hashBytes]),
      .messageReceived [98] (.catchUpResponse (some otherProposal)),
      .hashResultOne otherProposal.hashBytes (.catchUpResponse otherProposal),
      .hashResultOne singleProposal.hashBytes (.preprepare singleProposal)]

/-- **A late hash result leaves a slot with the digest of another value.** -/
theorem late_hash_mismatch : ¬ ∀ env p, DigestsBelong env p anyStep := by
  intro h
  obtain ⟨o, hr, hvals⟩ := exists_reachable (C := anyStep) (fun _ => trivial) (by decide +kernel :
    (execute plainEnv (plainParams singleSlot [97]) (fun _ _ => true) catchUpBeforeHash).any
      (fun o => (o.slot? 0).any (fun slot => slot.committed = true ∧
        slot.preprepare = some otherProposal ∧
        slot.digest = some singleProposal.hashBytes) = true) = true)
  obtain ⟨slot, hslot, hcom, hpp, hdigest⟩ := FallibleLoop.exists_of_any hvals
  obtain ⟨pp, hpp', hdigest'⟩ := (h plainEnv (plainParams singleSlot [97]) o hr).slots
    o.state.view 0 slot hslot (Or.inr (Or.inr hcom))
  rw [hpp] at hpp'
  cases hpp'
  rw [hdigest] at hdigest'
  exact absurd hdigest' (by decide +kernel)

end Mir.Orderers
