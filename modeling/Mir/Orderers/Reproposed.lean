import Mir.Orderers.Reproposals
import Mir.Trantor.Quorums

/-!
# What a re-proposal rests on

Two questions about `reproposal`, for arbitrary sets of arbitrary nodes.

A digest that may have been committed is not lost: if a strong quorum prepared it, and the correct
nodes report truthfully, nothing else is proposed again (`reproposal_of_possiblyCommitted`).

A re-proposed digest should be known to a correct node. The test for that reads the view of a digest
a node does not list as zero, so that an entry of view zero is backed by every node that lists
anything for the sequence number. `backed_iff` says when no re-proposal rests on such nodes.
-/

namespace Mir.Orderers

open WeightedQuorum

/-! ### The entries of a Q-set -/

/-- The view in which a node lists a digest as preprepared last. -/
def qEntry (qSets : GoMap NodeID ViewChangeQSet) (id : NodeID) (sn : SeqNr) (digest : ByteSlice) :
    Option ViewNr :=
  ((qSets.lookup id).bind fun qSet => qSet.lookup sn).bind fun snEntry =>
    snEntry.lookup digest.bytes

/-- A node lists the digest as preprepared in `view` or later. -/
def listsPreprepare (qSets : GoMap NodeID ViewChangeQSet) (sn : SeqNr) (digest : ByteSlice)
    (view : ViewNr) (id : NodeID) : Bool :=
  match qEntry qSets id sn digest with
  | none => false
  | some listed => view ≤ listed

/-- A node lists something as preprepared for the sequence number. -/
def listsAny (qSets : GoMap NodeID ViewChangeQSet) (sn : SeqNr) (id : NodeID) : Bool :=
  ((qSets.lookup id).bind fun qSet => qSet.lookup sn).isSome

section Listed

variable {qSets : GoMap NodeID ViewChangeQSet} {sn : SeqNr} {digest : ByteSlice} {view : ViewNr}
  {id : NodeID}

theorem listsPreprepare_iff :
    listsPreprepare qSets sn digest view id = true ↔
      ∃ listed, qEntry qSets id sn digest = some listed ∧ view ≤ listed := by
  rw [listsPreprepare]
  cases qEntry qSets id sn digest with
  | none => simp
  | some listed => simp

/-- A node that lists the digest counts. -/
theorem hasPreprepared_of_lists (h : listsPreprepare qSets sn digest view id = true) :
    hasPreprepared qSets sn digest view id = true := by
  obtain ⟨listed, hlisted, hle⟩ := listsPreprepare_iff.mp h
  obtain ⟨snEntry, hsn, hdigest⟩ := Option.bind_eq_some_iff.mp hlisted
  rw [hasPreprepared, hsn]
  simpa [hdigest] using hle

/-- Above view zero, only nodes that list the digest count. -/
theorem lists_of_hasPreprepared (hview : view ≠ 0)
    (h : hasPreprepared qSets sn digest view id = true) :
    listsPreprepare qSets sn digest view id = true := by
  unfold hasPreprepared at h
  split at h
  · cases h
  · next snEntry hsn =>
    cases hdigest : snEntry.lookup digest.bytes with
    | none =>
      -- the missing digest reads as view zero, which is below
      rw [hdigest, decide_eq_true_iff] at h
      exact absurd (UInt64.le_antisymm h UInt64.zero_le) hview
    | some listed =>
      rw [hdigest, decide_eq_true_iff] at h
      refine listsPreprepare_iff.mpr ⟨listed, ?_, h⟩
      rw [qEntry, hsn]
      exact hdigest

/-- In view zero, all nodes count that list anything. -/
theorem hasPreprepared_zero : hasPreprepared qSets sn digest 0 id = listsAny qSets sn id := by
  rw [hasPreprepared, listsAny]
  cases (qSets.lookup id).bind fun qSet => qSet.lookup sn with
  | none => rfl
  | some snEntry => simp

end Listed

/-! ### Values that may have been committed -/

/-- What is known of a digest that a strong quorum `Q` prepared in view `v`, where the nodes in `F`
may report anything. -/
structure PossiblyCommitted (m : Membership) (F : Finset NodeID)
    (pSets : GoMap NodeID ViewChangePSet) (qSets : GoMap NodeID ViewChangeQSet) (sn : SeqNr)
    (d : Bytes) (v : ViewNr) (Q : Finset NodeID) : Prop where
  quorum : IsStrong m.members m.w Q
  /-- A correct node of the quorum that reports at all has an entry from view `v` or later. -/
  reported : ∀ id ∈ Q, id ∉ F → ∀ pSet, pSets.lookup id = some pSet →
    ∃ e, pSet.lookup sn = some e ∧ v ≤ e.view
  /-- What correct nodes prepared in `v` or later has the digest. -/
  prepared : ∀ id, id ∉ F → ∀ e, pEntry pSets id sn = some e → v ≤ e.view → e.digest.bytes = d
  /-- What correct nodes preprepared after `v` has the digest. -/
  preprepared : ∀ id, id ∉ F → ∀ d' u, qEntry qSets id sn d' = some u → v < u → d'.bytes = d

section Committed

variable {m : Membership} {F Q : Finset NodeID} {pSets : GoMap NodeID ViewChangePSet}
  {qSets : GoMap NodeID ViewChangeQSet} {sn : SeqNr} {d : Bytes} {v : ViewNr}
  (hm : m.Readable) (hnn : m.NonNeg) (hF : F ⊆ m.members)
  (hFw : weight m.w F ≤ Membership.maxFaulty (weight m.w m.members))
  (hp : ∀ id ∈ pSets.keys, id ∈ m.nodes.keys)

include hnn hF hFw

/-- Every strong quorum of reporting nodes has a correct member that reports the digest. -/
theorem PossiblyCommitted.exists_reported (h : PossiblyCommitted m F pSets qSets sn d v Q)
    {f : NodeID → Bool} (hA : IsStrong m.members m.w (pSets.keys.filter f).toFinset) :
    ∃ id, f id = true ∧ ∃ e, pEntry pSets id sn = some e ∧ v ≤ e.view ∧ e.digest.bytes = d := by
  obtain ⟨id, hid, hidQ, hidF⟩ := hA.exists_mem_inter hnn h.quorum hF hFw
  obtain ⟨hkey, hf⟩ := List.mem_filter.mp (List.mem_toFinset.mp hid)
  obtain ⟨pSet, hpSet⟩ := GoMap.mem_keys_iff.mp hkey
  obtain ⟨e, he, hle⟩ := h.reported id hidQ hidF pSet hpSet
  have hentry : pEntry pSets id sn = some e := by
    rw [pEntry, hpSet]
    exact he
  exact ⟨id, hf, e, hentry, hle, h.prepared id hidF e hentry hle⟩

include hm hp

/-- No strong quorum reports that nothing was prepared. -/
theorem PossiblyCommitted.not_nothingPreparedB (h : PossiblyCommitted m F pSets qSets sn d v Q) :
    nothingPreparedB pSets sn m ≠ .ok true := by
  intro hB
  obtain ⟨id, hnone, e, he, -⟩ :=
    h.exists_reported hnn hF hFw ((nothingPreparedB_iff hm hp).mp hB)
  rw [he] at hnone
  cases hnone

/-- **An entry that meets both conditions has the digest.** -/
theorem PossiblyCommitted.digest_eq (h : PossiblyCommitted m F pSets qSets sn d v Q)
    (hq : ∀ id ∈ qSets.keys, id ∈ m.nodes.keys) {e : PSetEntry}
    (hA1 : noPrepareConflictsA1 pSets sn e.digest e.view m = .ok true)
    (hA2 : ∃ ns, enoughPrepreparesA2 qSets sn e.digest e.view m = .ok (true, ns)) :
    e.digest.bytes = d := by
  obtain ⟨id, hok, e', he', hle, hd⟩ :=
    h.exists_reported hnn hF hFw ((noPrepareConflictsA1_iff hm hp).mp hA1)
  rw [nonConflicting, he'] at hok
  simp only [Bool.or_eq_true, Bool.and_eq_true, decide_eq_true_eq, beq_iff_eq] at hok
  rcases hok with hlt | ⟨-, heq⟩
  · -- the entry is from a view after `v`, so a correct node has preprepared its digest after `v`
    have hafter : v < e.view := UInt64.lt_of_le_of_lt hle hlt
    have hne : e.view ≠ 0 := by
      intro hzero
      rw [hzero] at hafter
      exact UInt64.not_lt_zero hafter
    obtain ⟨id', hid', -, hidF'⟩ := Membership.exists_correct_of_isWeak
      (Membership.tolerates_of_nonNeg hnn hF hFw) ((enoughPrepreparesA2_iff hm hq).mp hA2)
    have hpre := (List.mem_filter.mp (List.mem_toFinset.mp hid')).2
    obtain ⟨listed, hlisted, hge⟩ := listsPreprepare_iff.mp (lists_of_hasPreprepared hne hpre)
    exact h.preprepared id' hidF' e.digest listed hlisted (UInt64.lt_of_lt_of_le hafter hge)
  · exact heq.symm.trans hd

end Committed

/-- **Re-proposals preserve values that may have been committed**: with non-negative weights and
faulty nodes of weight at most `maxFaulty`, only nothing or the digest is proposed again, whatever
the faulty nodes report, whoever reports, and in whatever order the sets are visited. -/
theorem reproposal_of_possiblyCommitted (m : Membership) (hm : m.Readable) (hnn : m.NonNeg)
    (F : Finset NodeID) (hF : F ⊆ m.members)
    (hFw : weight m.w F ≤ Membership.maxFaulty (weight m.w m.members))
    (pSets : GoMap NodeID ViewChangePSet) (qSets : GoMap NodeID ViewChangeQSet)
    (hp : ∀ id ∈ pSets.keys, id ∈ m.nodes.keys) (hq : ∀ id ∈ qSets.keys, id ∈ m.nodes.keys)
    (sn : SeqNr) (d : Bytes) (v : ViewNr) (Q : Finset NodeID)
    (h : PossiblyCommitted m F pSets qSets sn d v Q) (ord : MapOrder) :
    ∃ digest ids, reproposal ord pSets qSets sn m = .ok (digest, ids) ∧
      (digest = none ∨ digest = some d) := by
  obtain ⟨⟨digest, ids⟩, hrep⟩ : ∃ r, reproposal ord pSets qSets sn m = .ok r :=
    reproposal_ok hm hp hq ord
  refine ⟨digest, ids, hrep, ?_⟩
  obtain ⟨b, hb, hfind⟩ := Fallible.bind_eq_ok.mp hrep
  cases b with
  | true => exact absurd hb (h.not_nothingPreparedB hm hnn hF hFw hp)
  | false =>
    rcases findReproposal_cases hfind with ⟨id, -, e, -, rfl, hA1, hA2⟩ | ⟨hnone, -⟩
    · have hbytes := h.digest_eq hm hnn hF hFw hp hq hA1 ⟨ids, hA2⟩
      cases hdigest : e.digest with
      | none => exact Or.inl rfl
      | some d' =>
        rw [hdigest] at hbytes
        exact Or.inr (congrArg some hbytes)
    · exact Or.inl hnone

/-- The P-set with one entry. -/
def ViewChangePSet.one (sn : SeqNr) (view : ViewNr) (digest : Bytes) : ViewChangePSet :=
  AList.singleton sn ⟨sn, view, some digest⟩

/-- The Q-set with one entry. -/
def ViewChangeQSet.one (sn : SeqNr) (view : ViewNr) (digest : Bytes) : ViewChangeQSet :=
  AList.singleton sn (AList.singleton digest view)

/-- Of four nodes, the last reports another digest from a later view than the others. -/
def fourPSets : GoMap NodeID ViewChangePSet :=
  GoMap.ofKeys [[97], [98], [99], [100]] fun id =>
    if id = [100] then .one 0 5 [2] else .one 0 0 [1]

/-- The last of four nodes lists what it reports in `fourPSets`, as the others do. -/
def fourQSets : GoMap NodeID ViewChangeQSet :=
  GoMap.ofKeys [[97], [98], [99], [100]] fun id =>
    if id = [100] then .one 0 5 [2] else .one 0 0 [1]

theorem fourPSets_of_ne {id : NodeID} (hne : id ∉ ({[100]} : Finset NodeID)) {pSet : ViewChangePSet}
    (h : fourPSets.lookup id = some pSet) : pSet = .one 0 0 [1] := by
  rw [fourPSets, GoMap.lookup_ofKeys, if_neg fun heq => hne (Finset.mem_singleton.mpr heq)] at h
  split at h
  · exact (Option.some.inj h).symm
  · cases h

theorem fourQSets_of_ne {id : NodeID} (hne : id ∉ ({[100]} : Finset NodeID)) {qSet : ViewChangeQSet}
    (h : fourQSets.lookup id = some qSet) : qSet = .one 0 0 [1] := by
  rw [fourQSets, GoMap.lookup_ofKeys, if_neg fun heq => hne (Finset.mem_singleton.mpr heq)] at h
  split at h
  · exact (Option.some.inj h).symm
  · cases h

theorem possiblyCommitted_four : PossiblyCommitted Membership.fourMembers {[100]} fourPSets
    fourQSets 0 [1] 0 {[97], [98], [99]} where
  quorum := ⟨by decide +kernel, by decide +kernel⟩
  reported := by
    intro id _ hid pSet hpSet
    rw [fourPSets_of_ne hid hpSet]
    exact ⟨_, rfl, by decide⟩
  prepared := by
    intro id hid e he _
    obtain ⟨pSet, hpSet, hlookup⟩ := Option.bind_eq_some_iff.mp he
    rw [fourPSets_of_ne hid hpSet] at hlookup
    cases hlookup
    rfl
  preprepared := by
    intro id hid d u hu _
    obtain ⟨snEntry, hsn, hdigest⟩ := Option.bind_eq_some_iff.mp hu
    obtain ⟨qSet, hqSet, hlookup⟩ := Option.bind_eq_some_iff.mp hsn
    rw [fourQSets_of_ne hid hqSet] at hlookup
    cases hlookup
    have hentry := List.mem_singleton.mp (AList.mem_lookup_iff.mp hdigest)
    exact (Sigma.mk.inj hentry).1

/-- What three of four nodes prepared is preserved against the fourth. -/
theorem reproposal_of_possiblyCommitted_four :
    ∃ digest ids, reproposal MapOrder.listed fourPSets fourQSets 0 Membership.fourMembers =
        .ok (digest, ids) ∧ (digest = none ∨ digest = some [1]) :=
  reproposal_of_possiblyCommitted Membership.fourMembers Membership.fourMembers_proper.readable
    Membership.fourMembers_proper.nonNeg {[100]} (by decide +kernel) (by decide +kernel) fourPSets
    fourQSets (by decide +kernel) (by decide +kernel) 0 [1] 0 {[97], [98], [99]}
    possiblyCommitted_four MapOrder.listed

/-! ### Nodes that back a re-proposal -/

section Backed

variable (m : Membership) (pSets : GoMap NodeID ViewChangePSet)
  (qSets : GoMap NodeID ViewChangeQSet) (sn : SeqNr)

/-- An entry meets the conditions A1 and A2. -/
def Qualifies (e : PSetEntry) : Prop :=
  noPrepareConflictsA1 pSets sn e.digest e.view m = .ok true ∧
    ∃ ids, enoughPrepreparesA2 qSets sn e.digest e.view m = .ok (true, ids)

/-- The entry from which a digest is chosen when the nodes are visited in the given order: the
first one that meets the conditions. -/
def Chosen (order : List NodeID) (e : PSetEntry) : Prop :=
  ∃ before id after, order = before ++ id :: after ∧ pEntry pSets id sn = some e ∧
    Qualifies m pSets qSets sn e ∧
    ∀ id' ∈ before, ∀ e', pEntry pSets id' sn = some e' → ¬ Qualifies m pSets qSets sn e'

/-- The nodes `ids` returned with a digest from view `view` have it. -/
structure BackedBy (digest : ByteSlice) (view : ViewNr) (ids : List NodeID) : Prop where
  quorum : m.haveWeakQuorum (qSets.keys.filter (listsPreprepare qSets sn digest view)) = .ok true
  listed : ∀ id ∈ ids, id ∈ qSets.keys ∧ listsPreprepare qSets sn digest view id = true
  /-- Whatever nodes of tolerated weight are faulty, another one can supply the Preprepare. -/
  correct : ∀ F, m.Tolerates F → ∃ id ∈ ids, id ∉ F

/-- **Re-proposed digests are backed by preprepares**, in every iteration order. -/
def Backed : Prop :=
  ∀ ord d ids e, d ≠ [] → reproposal ord pSets qSets sn m = .ok (some d, ids) →
    Chosen m pSets qSets sn (ord.pSets sn pSets.keys) e →
    BackedBy m qSets sn e.digest e.view ids

end Backed

section Choice

variable {m : Membership} {pSets : GoMap NodeID ViewChangePSet}
  {qSets : GoMap NodeID ViewChangeQSet} {sn : SeqNr}

theorem ids_of_enoughPrepreparesA2 {digest : ByteSlice} {view : ViewNr} {b : Bool}
    {ids : List NodeID} (h : enoughPrepreparesA2 qSets sn digest view m = .ok (b, ids)) :
    ids = qSets.keys.filter (hasPreprepared qSets sn digest view) ∧
      m.haveWeakQuorum ids = .ok b := by
  obtain ⟨enough, henough, hret⟩ := Fallible.bind_eq_ok.mp h
  obtain ⟨rfl, rfl⟩ := Prod.mk.inj (Except.ok.inj hret)
  exact ⟨rfl, henough⟩

/-- The loop returns the digest of the chosen entry, with the nodes that count for it. -/
theorem findReproposal_of_chosen {order : List NodeID} {e : PSetEntry}
    (hch : Chosen m pSets qSets sn order e) {digest : ByteSlice} {ids : List NodeID}
    (h : findReproposal pSets qSets sn m order = .ok (digest, ids)) :
    digest = e.digest ∧ enoughPrepreparesA2 qSets sn e.digest e.view m = .ok (true, ids) := by
  obtain ⟨before, id, after, rfl, he, ⟨hA1, ids', hA2⟩, hno⟩ := hch
  induction before with
  | nil =>
    rw [List.nil_append, findReproposal, he] at h
    simp only [hA1, hA2, Fallible.ok_bind, Bool.and_self, if_true] at h
    obtain ⟨rfl, rfl⟩ := Prod.mk.inj (Except.ok.inj h)
    exact ⟨rfl, hA2⟩
  | cons i before ih =>
    have hrest : ∀ id' ∈ before, ∀ e', pEntry pSets id' sn = some e' →
        ¬ Qualifies m pSets qSets sn e' := fun id' hid' => hno id' (List.mem_cons_of_mem _ hid')
    rw [List.cons_append, findReproposal] at h
    split at h
    · exact ih h hrest
    · next e' he' =>
      obtain ⟨⟨a2, ns⟩, ha2, h₂⟩ := Fallible.bind_eq_ok.mp h
      obtain ⟨a1, ha1, h₁⟩ := Fallible.bind_eq_ok.mp h₂
      split at h₁
      · next hboth =>
        rw [Bool.and_eq_true] at hboth
        rw [hboth.1] at ha1
        rw [hboth.2] at ha2
        exact absurd ⟨ha1, ns, ha2⟩ (hno i List.mem_cons_self e' he')
      · exact ih h₁ hrest

/-- The order that visits one node first. -/
def MapOrder.first (id : NodeID) : MapOrder where
  pSets _ ids := if id ∈ ids then id :: ids.erase id else ids
  buffers ids := ids
  pSets_perm _ ids := by
    split
    · next hmem => exact (List.perm_cons_erase hmem).symm
    · exact .rfl
  buffers_perm _ := .rfl

/-- Visited first, an entry that meets the conditions is chosen. -/
theorem chosen_first {id : NodeID} {e : PSetEntry} (he : pEntry pSets id sn = some e)
    (hq : Qualifies m pSets qSets sn e) :
    Chosen m pSets qSets sn ((MapOrder.first id).pSets sn pSets.keys) e := by
  obtain ⟨pSet, hpSet, -⟩ := Option.bind_eq_some_iff.mp he
  refine ⟨[], id, pSets.keys.erase id, ?_, he, hq, fun _ hmem => absurd hmem List.not_mem_nil⟩
  exact if_pos (GoMap.mem_keys_iff.mpr ⟨pSet, hpSet⟩)

/-- Visited first, its digest is proposed again, with the nodes that count for it. -/
theorem reproposal_first {id : NodeID} {e : PSetEntry}
    (hB : nothingPreparedB pSets sn m = .ok false) (he : pEntry pSets id sn = some e)
    (hq : Qualifies m pSets qSets sn e) :
    reproposal (MapOrder.first id) pSets qSets sn m =
      .ok (e.digest, qSets.keys.filter (hasPreprepared qSets sn e.digest e.view)) := by
  obtain ⟨pSet, hpSet, -⟩ := Option.bind_eq_some_iff.mp he
  obtain ⟨hA1, ids, hA2⟩ := hq
  have horder : (MapOrder.first id).pSets sn pSets.keys = id :: pSets.keys.erase id :=
    if_pos (GoMap.mem_keys_iff.mpr ⟨pSet, hpSet⟩)
  rw [reproposal, hB, Fallible.ok_bind, if_neg Bool.false_ne_true, horder, findReproposal, he]
  simp only [hA1, hA2, Fallible.ok_bind, Bool.and_self, if_true]
  rw [(ids_of_enoughPrepreparesA2 hA2).1]
  rfl

end Choice

/-- Entries of view zero with a digest rest only on nodes that list it: where such an entry meets
the conditions, and not enough nodes report nothing, whoever lists anything for the sequence number
lists the digest. -/
def ZeroEntriesListed (m : Membership) (pSets : GoMap NodeID ViewChangePSet)
    (qSets : GoMap NodeID ViewChangeQSet) (sn : SeqNr) : Prop :=
  nothingPreparedB pSets sn m = .ok false →
    ∀ id e, pEntry pSets id sn = some e → e.view = 0 → e.digest.bytes ≠ [] →
      Qualifies m pSets qSets sn e →
      ∀ id' ∈ qSets.keys, listsAny qSets sn id' = true →
        listsPreprepare qSets sn e.digest 0 id' = true

theorem ZeroEntriesListed.backed {m : Membership} {pSets : GoMap NodeID ViewChangePSet}
    {qSets : GoMap NodeID ViewChangeQSet} {sn : SeqNr} (h : ZeroEntriesListed m pSets qSets sn) :
    Backed m pSets qSets sn := by
  intro ord d ids e hd hrep hch
  obtain ⟨b, hB, hfind⟩ := Fallible.bind_eq_ok.mp hrep
  cases b with
  | true =>
    cases hfind
    exact absurd rfl hd
  | false =>
    obtain ⟨hdigest, hA2⟩ := findReproposal_of_chosen hch hfind
    obtain ⟨hids, hweak⟩ := ids_of_enoughPrepreparesA2 hA2
    obtain ⟨-, id, -, -, he, hqual, -⟩ := hch
    -- those that count are those that list the digest
    have hlists : ∀ id' ∈ qSets.keys, hasPreprepared qSets sn e.digest e.view id' = true →
        listsPreprepare qSets sn e.digest e.view id' = true := by
      intro id' hid' hpre
      by_cases hview : e.view = 0
      · have hbytes : e.digest.bytes ≠ [] := by
          rw [← hdigest]
          exact hd
        rw [hview, hasPreprepared_zero] at hpre
        rw [hview]
        exact h hB id e he hview hbytes hqual id' hid' hpre
      · exact lists_of_hasPreprepared hview hpre
    have hfilter : ids = qSets.keys.filter (listsPreprepare qSets sn e.digest e.view) := by
      rw [hids]
      refine List.filter_congr fun id' hid' => ?_
      rw [Bool.eq_iff_iff]
      exact ⟨hlists id' hid', hasPreprepared_of_lists⟩
    refine ⟨hfilter ▸ hweak, fun id' hid' => ?_, fun F hF => ?_⟩
    · rw [hfilter] at hid'
      exact List.mem_filter.mp hid'
    · refine Membership.exists_correct_of_haveWeakQuorum ?_ hweak hF
      rw [hids]
      exact qSets.keys_nodup.filter _

/-- **Re-proposed digests are backed by preprepares** exactly if no entry of view zero rests on
nodes that list only other digests. -/
theorem backed_iff (m : Membership) (pSets : GoMap NodeID ViewChangePSet)
    (qSets : GoMap NodeID ViewChangeQSet) (sn : SeqNr) :
    Backed m pSets qSets sn ↔ ZeroEntriesListed m pSets qSets sn := by
  refine ⟨fun h hB id e he hview hbytes hqual id' hid' hany => ?_, ZeroEntriesListed.backed⟩
  obtain ⟨d, hd⟩ : ∃ d, e.digest = some d := by
    cases hdigest : e.digest with
    | none =>
      rw [hdigest] at hbytes
      exact absurd rfl hbytes
    | some d => exact ⟨d, rfl⟩
  have hne : d ≠ [] := by
    rw [hd] at hbytes
    exact hbytes
  -- in the order that visits the entry first, its digest is the one proposed again
  have hrep := reproposal_first hB he hqual
  nth_rewrite 1 [hd] at hrep
  have hback := h (MapOrder.first id) d _ e hne hrep (chosen_first he hqual)
  have hcounted : id' ∈ qSets.keys.filter (hasPreprepared qSets sn e.digest e.view) := by
    rw [List.mem_filter, hview, hasPreprepared_zero]
    exact ⟨hid', hany⟩
  rw [← hview]
  exact (hback.listed id' hcounted).2

/-- Two of four nodes report nothing prepared, and the fourth an entry of view zero. -/
def fabricatedPSets : GoMap NodeID ViewChangePSet :=
  GoMap.ofKeys [[97], [98], [100]] fun id => if id = [100] then .one 0 0 [2] else ∅

/-- Of the three nodes, nobody but the fourth has preprepared what it reports. -/
def fabricatedQSets : GoMap NodeID ViewChangeQSet :=
  GoMap.ofKeys [[97], [98], [100]] fun id =>
    if id = [100] then .one 0 0 [2] else .one 0 0 [1]

/-- The fabricated entry meets both conditions. -/
theorem qualifies_fabricated : Qualifies Membership.fourMembers fabricatedPSets fabricatedQSets 0
    ⟨0, 0, some [2]⟩ :=
  ⟨by decide +kernel, [[100], [98], [97]], by decide +kernel⟩

/-- **A re-proposed digest may be unknown to all correct nodes**: one that a single faulty node of
four makes up is proposed again. -/
theorem not_backed_fabricated : ¬ ∀ m pSets qSets sn, Backed m pSets qSets sn := by
  intro h
  have hback := h Membership.fourMembers fabricatedPSets fabricatedQSets 0 MapOrder.listed [2]
    [[100], [98], [97]] ⟨0, 0, some [2]⟩ (by decide) (by decide +kernel)
    ⟨[], [100], [[98], [97]], by decide +kernel, by decide +kernel, qualifies_fabricated,
      fun _ hid => absurd hid List.not_mem_nil⟩
  exact absurd (hback.listed [97] (by decide)).2 (by decide +kernel)

end Mir.Orderers
