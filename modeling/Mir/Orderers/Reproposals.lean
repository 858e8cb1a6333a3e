import Mir.Orderers.ViewChange

/-!
# What ViewChanges allow to be proposed again

`Proposable` states, in terms of quorums of reporting nodes, which digests a collection of signed
ViewChanges allows to be proposed for a sequence number: an empty one where a strong quorum reports
nothing prepared, or that of a reported entry which no member of a strong quorum contradicts and a
weak quorum has preprepared. What `reproposal` computes is proposable (`reproposal_proposable`),
and where weights are not negative it finds a value whenever there is one
(`reproposal_of_proposable`). Collecting ViewChanges one by one resolves every sequence number to a
value that is proposable for the messages collected by then (`VcSound`).
-/

namespace Mir.Orderers

open WeightedQuorum

/-! ### The sets a node reports -/

/-- The P-set and the Q-set of a signed ViewChange, unless one of them is invalid. -/
def SignedViewChange.sets (svc : SignedViewChange) : Option (ViewChangePSet × ViewChangeQSet) :=
  svc.viewChange.bind fun vc => (reconstructPSet vc.pSet).bind fun pSet =>
    (reconstructQSet vc.qSet).map fun qSet => (pSet, qSet)

/-- The sets a node reports in a collection of ViewChanges. -/
def setsAt (S : GoMap NodeID SignedViewChange) (id : NodeID) :
    Option (ViewChangePSet × ViewChangeQSet) :=
  (S.lookup id).bind SignedViewChange.sets

theorem addSets_eq_ok {acc acc' : GoMap NodeID ViewChangePSet × GoMap NodeID ViewChangeQSet}
    {entry : Σ _ : NodeID, SignedViewChange} (h : addSets acc entry = .ok acc') :
    entry.2.sets = none ∧ acc' = acc ∨
      ∃ pSet qSet, entry.2.sets = some (pSet, qSet) ∧
        acc' = (acc.1.insert entry.1 pSet, acc.2.insert entry.1 qSet) := by
  obtain ⟨vc, hvc, h⟩ := Fallible.bind_eq_ok.mp h
  rw [deref_eq_ok] at hvc
  rw [SignedViewChange.sets, hvc, Option.bind_some]
  cases hp : reconstructPSet vc.pSet with
  | none =>
    rw [hp] at h
    cases h
    exact Or.inl ⟨rfl, rfl⟩
  | some pSet =>
    rw [hp] at h
    cases hq : reconstructQSet vc.qSet with
    | none =>
      rw [hq] at h
      cases h
      exact Or.inl ⟨rfl, rfl⟩
    | some qSet =>
      rw [hq] at h
      cases h
      exact Or.inr ⟨pSet, qSet, rfl, rfl⟩

variable {m : Membership} {S : GoMap NodeID SignedViewChange} {sn : SeqNr} {id : NodeID}
  {pSets : GoMap NodeID ViewChangePSet} {qSets : GoMap NodeID ViewChangeQSet} {d : ByteSlice}
  {v : ViewNr}

/-- **The reconstructed sets are those the nodes report.** -/
theorem reconstructPSetQSet_lookup (h : reconstructPSetQSet S = .ok (pSets, qSets))
    (id : NodeID) :
    pSets.lookup id = (setsAt S id).map Prod.fst ∧
      qSets.lookup id = (setsAt S id).map Prod.snd := by
  -- after the entries `xs`, the maps hold what these report
  refine FallibleLoop.foldlM_induction
    (I := fun xs acc => ∀ id, acc.1.lookup id =
        ((xs.dlookup id).bind SignedViewChange.sets).map Prod.fst ∧
      acc.2.lookup id = ((xs.dlookup id).bind SignedViewChange.sets).map Prod.snd)
    (fun id => ⟨rfl, rfl⟩) ?_ h id
  intro xs x ys hsplit acc acc' hI hstep id
  -- the node of `x` has no earlier entry
  have hfresh : xs.dlookup x.1 = none := by
    rw [List.dlookup_eq_none]
    have hnd := S.nodupKeys
    rw [hsplit, List.NodupKeys, List.keys, List.map_append, List.map_cons,
      List.nodup_append] at hnd
    exact fun hmem => hnd.2.2 x.1 hmem x.1 List.mem_cons_self rfl
  rw [List.dlookup_append]
  by_cases hid : id = x.1
  · subst hid
    have hlast : [x].dlookup x.1 = some x.2 := by
      obtain ⟨i, svc⟩ := x
      exact List.dlookup_cons_eq _ _ _
    rw [hfresh, Option.none_or, hlast, Option.bind_some]
    rcases addSets_eq_ok hstep with ⟨hnone, rfl⟩ | ⟨pSet, qSet, hsome, rfl⟩
    · rw [hnone]
      have hold := hI x.1
      rw [hfresh] at hold
      exact hold
    · rw [hsome]
      exact ⟨AList.lookup_insert _, AList.lookup_insert _⟩
  · have hlast : [x].dlookup id = none := by
      rw [List.dlookup_eq_none]
      exact fun hmem => hid (List.mem_singleton.mp hmem)
    rw [hlast, Option.or_none]
    rcases addSets_eq_ok hstep with ⟨-, rfl⟩ | ⟨pSet, qSet, -, rfl⟩
    · exact hI id
    · rw [GoMap.lookup_insert_eq, GoMap.lookup_insert_eq, if_neg hid, if_neg hid]
      exact hI id

theorem pEntry_eq (h : reconstructPSetQSet S = .ok (pSets, qSets)) (id : NodeID) (sn : SeqNr) :
    pEntry pSets id sn = (setsAt S id).bind fun sets => sets.1.lookup sn := by
  rw [pEntry, (reconstructPSetQSet_lookup h id).1, Option.bind_map]
  rfl

/-- The nodes with reconstructed sets are those that report sets. -/
theorem mem_keys_reconstruct (h : reconstructPSetQSet S = .ok (pSets, qSets)) :
    (id ∈ pSets.keys ↔ ∃ sets, setsAt S id = some sets) ∧
      (id ∈ qSets.keys ↔ ∃ sets, setsAt S id = some sets) := by
  rw [GoMap.mem_keys_iff, GoMap.mem_keys_iff, (reconstructPSetQSet_lookup h id).1,
    (reconstructPSetQSet_lookup h id).2]
  cases setsAt S id with
  | none => simp
  | some sets => simp

theorem mem_keys_of_setsAt {sets : ViewChangePSet × ViewChangeQSet} (h : setsAt S id = some sets) :
    id ∈ S.keys := by
  obtain ⟨svc, hsvc, -⟩ := Option.bind_eq_some_iff.mp h
  exact GoMap.mem_keys_iff.mpr ⟨svc, hsvc⟩

/-! ### Proposable values -/

/-- The digests that a collection of ViewChanges allows to be proposed for `sn`. A digest of
length zero stands for a fresh value. -/
inductive Proposable (m : Membership) (S : GoMap NodeID SignedViewChange) (sn : SeqNr) :
    ByteSlice → Prop
  /-- A strong quorum reports nothing prepared. -/
  | fresh {A : Finset NodeID} (hA : IsStrong m.members m.w A)
      (hnone : ∀ id ∈ A, ∃ sets, setsAt S id = some sets ∧ sets.1.lookup sn = none) :
      Proposable m S sn (some [])
  /-- A node reports the entry `e`, a strong quorum reports nothing prepared in a later view or
  differently in the same, and a weak quorum reports to have preprepared it since. A digest that
  is not listed among those preprepared counts as preprepared in view zero. -/
  | entry {id : NodeID} {sets : ViewChangePSet × ViewChangeQSet} {e : PSetEntry}
      {A B : Finset NodeID} (hid : setsAt S id = some sets) (he : sets.1.lookup sn = some e)
      (hA : IsStrong m.members m.w A)
      (hagree : ∀ id ∈ A, ∃ sets, setsAt S id = some sets ∧ ∀ e', sets.1.lookup sn = some e' →
        e'.view < e.view ∨ e'.view = e.view ∧ e'.digest.bytes = e.digest.bytes)
      (hB : IsWeak m.members m.w B)
      (hpre : ∀ id ∈ B, ∃ sets entries, setsAt S id = some sets ∧
        sets.2.lookup sn = some entries ∧ e.view ≤ (entries.lookup e.digest.bytes).getD 0) :
      Proposable m S sn e.digest

/-- More ViewChanges allow more values. -/
theorem Proposable.mono {S' : GoMap NodeID SignedViewChange}
    (hS : ∀ id svc, S.lookup id = some svc → S'.lookup id = some svc)
    (h : Proposable m S sn d) : Proposable m S' sn d := by
  have hsets : ∀ id sets, setsAt S id = some sets → setsAt S' id = some sets := by
    intro id sets hid
    obtain ⟨svc, hsvc, heq⟩ := Option.bind_eq_some_iff.mp hid
    rw [setsAt, hS id svc hsvc]
    exact heq
  cases h with
  | fresh hA hnone =>
    refine .fresh hA fun id hid => ?_
    obtain ⟨sets, hs, hl⟩ := hnone id hid
    exact ⟨sets, hsets id sets hs, hl⟩
  | entry hid he hA hagree hB hpre =>
    refine .entry (hsets _ _ hid) he hA (fun id hid => ?_) hB fun id hid => ?_
    · obtain ⟨sets, hs, hl⟩ := hagree id hid
      exact ⟨sets, hsets id sets hs, hl⟩
    · obtain ⟨sets, entries, hs, hl⟩ := hpre id hid
      exact ⟨sets, entries, hsets id sets hs, hl⟩

/-- A proposable value rests on a strong quorum of valid ViewChanges. -/
theorem Proposable.exists_quorum (h : Proposable m S sn d) :
    ∃ Q, IsStrong m.members m.w Q ∧ ∀ id ∈ Q, ∃ sets, setsAt S id = some sets := by
  cases h with
  | fresh hA hnone => exact ⟨_, hA, fun id hid => (hnone id hid).imp fun _ hs => hs.1⟩
  | entry _ _ hA hagree => exact ⟨_, hA, fun id hid => (hagree id hid).imp fun _ hs => hs.1⟩

/-! ### `reproposal` -/

/-- What the loop of `reproposal` returns: the digest of an entry that meets both conditions, or
`nil` if none does. -/
theorem findReproposal_cases {ids ns : List NodeID}
    (h : findReproposal pSets qSets sn m ids = .ok (d, ns)) :
    (∃ id ∈ ids, ∃ e, pEntry pSets id sn = some e ∧ d = e.digest ∧
        noPrepareConflictsA1 pSets sn e.digest e.view m = .ok true ∧
        enoughPrepreparesA2 qSets sn e.digest e.view m = .ok (true, ns)) ∨
      (d = none ∧ ∀ id ∈ ids, ∀ e, pEntry pSets id sn = some e →
        noPrepareConflictsA1 pSets sn e.digest e.view m = .ok true →
        ∀ ns', enoughPrepreparesA2 qSets sn e.digest e.view m ≠ .ok (true, ns')) := by
  induction ids with
  | nil =>
    cases h
    exact Or.inr ⟨rfl, fun id hid => by cases hid⟩
  | cons i ids ih =>
    rw [findReproposal] at h
    split at h
    · next hnone =>
      rcases ih h with ⟨id, hid, hfound⟩ | ⟨hd, hno⟩
      · exact Or.inl ⟨id, List.mem_cons_of_mem _ hid, hfound⟩
      · refine Or.inr ⟨hd, fun id hid e he => ?_⟩
        rcases List.mem_cons.mp hid with rfl | hid
        · rw [hnone] at he
          cases he
        · exact hno id hid e he
    · next e he =>
      obtain ⟨⟨a2, ids'⟩, ha2, h₂⟩ := Fallible.bind_eq_ok.mp h
      obtain ⟨a1, ha1, h₁⟩ := Fallible.bind_eq_ok.mp h₂
      split at h₁
      · next hboth =>
        rw [Bool.and_eq_true] at hboth
        rw [hboth.1] at ha1
        rw [hboth.2] at ha2
        cases h₁
        exact Or.inl ⟨i, List.mem_cons_self, e, he, rfl, ha1, ha2⟩
      · next hnot =>
        rcases ih h₁ with ⟨id, hid, hfound⟩ | ⟨hd, hno⟩
        · exact Or.inl ⟨id, List.mem_cons_of_mem _ hid, hfound⟩
        · refine Or.inr ⟨hd, fun id hid e' he' => ?_⟩
          rcases List.mem_cons.mp hid with rfl | hid
          · rw [he] at he'
            cases he'
            intro ht1 ns' ht2
            rw [ha1] at ht1
            rw [ha2] at ht2
            cases ht1
            cases ht2
            exact hnot rfl
          · exact hno id hid e' he'

section Conditions

variable (hm : m.Readable)

include hm

/-- Counting those of some members that meet a condition completes. -/
theorem haveStrongQuorum_filter {ids : List NodeID} (hnd : ids.Nodup)
    (hids : ∀ id ∈ ids, id ∈ m.nodes.keys) (f : NodeID → Bool) :
    ∃ b, m.haveStrongQuorum (ids.filter f) = .ok b ∧
      (b = true ↔ IsStrong m.members m.w (ids.filter f).toFinset) :=
  Membership.haveStrongQuorum_eq_ok hm (fun id hid => hids id (List.mem_of_mem_filter hid))
    (hnd.filter f)

section PSets

variable (hp : ∀ id ∈ pSets.keys, id ∈ m.nodes.keys)

include hp

theorem nothingPreparedB_eq_ok (sn : SeqNr) :
    ∃ b, nothingPreparedB pSets sn m = .ok b ∧ (b = true ↔ IsStrong m.members m.w
      (pSets.keys.filter fun id => (pEntry pSets id sn).isNone).toFinset) :=
  haveStrongQuorum_filter hm pSets.keys_nodup hp _

theorem noPrepareConflictsA1_eq_ok (sn : SeqNr) (d : ByteSlice) (v : ViewNr) :
    ∃ b, noPrepareConflictsA1 pSets sn d v m = .ok b ∧ (b = true ↔ IsStrong m.members m.w
      (pSets.keys.filter (nonConflicting pSets sn d v)).toFinset) :=
  haveStrongQuorum_filter hm pSets.keys_nodup hp _

theorem nothingPreparedB_iff :
    nothingPreparedB pSets sn m = .ok true ↔ IsStrong m.members m.w
      (pSets.keys.filter fun id => (pEntry pSets id sn).isNone).toFinset := by
  obtain ⟨b, hb, hiff⟩ := nothingPreparedB_eq_ok hm hp sn
  rw [← hiff, hb]
  simp

theorem noPrepareConflictsA1_iff :
    noPrepareConflictsA1 pSets sn d v m = .ok true ↔ IsStrong m.members m.w
      (pSets.keys.filter (nonConflicting pSets sn d v)).toFinset := by
  obtain ⟨b, hb, hiff⟩ := noPrepareConflictsA1_eq_ok hm hp sn d v
  rw [← hiff, hb]
  simp

end PSets

section QSets

variable (hq : ∀ id ∈ qSets.keys, id ∈ m.nodes.keys)

include hq

theorem enoughPrepreparesA2_eq_ok (sn : SeqNr) (d : ByteSlice) (v : ViewNr) :
    ∃ b, enoughPrepreparesA2 qSets sn d v m =
        .ok (b, qSets.keys.filter (hasPreprepared qSets sn d v)) ∧
      (b = true ↔ IsWeak m.members m.w
        (qSets.keys.filter (hasPreprepared qSets sn d v)).toFinset) := by
  obtain ⟨b, hb, hiff⟩ := Membership.haveWeakQuorum_eq_ok hm
    (fun id hid => hq id (List.mem_of_mem_filter hid))
    (qSets.keys_nodup.filter (hasPreprepared qSets sn d v))
  refine ⟨b, ?_, hiff⟩
  rw [enoughPrepreparesA2, hb]
  rfl

theorem enoughPrepreparesA2_iff :
    (∃ ns, enoughPrepreparesA2 qSets sn d v m = .ok (true, ns)) ↔ IsWeak m.members m.w
      (qSets.keys.filter (hasPreprepared qSets sn d v)).toFinset := by
  obtain ⟨b, hb, hiff⟩ := enoughPrepreparesA2_eq_ok hm hq sn d v
  rw [← hiff, hb]
  simp

end QSets

/-- **Computing a re-proposal completes** if all reporting nodes are members. -/
theorem reproposal_ok (hp : ∀ id ∈ pSets.keys, id ∈ m.nodes.keys)
    (hq : ∀ id ∈ qSets.keys, id ∈ m.nodes.keys) (ord : MapOrder) :
    ∃ r, reproposal ord pSets qSets sn m = .ok r := by
  have hfind : ∀ ids, ∃ r, findReproposal pSets qSets sn m ids = .ok r := by
    intro ids
    induction ids with
    | nil => exact ⟨_, rfl⟩
    | cons i ids ih =>
      rw [findReproposal]
      split
      · exact ih
      · next e he =>
        obtain ⟨a2, ha2, -⟩ := enoughPrepreparesA2_eq_ok hm hq sn e.digest e.view
        obtain ⟨a1, ha1, -⟩ := noPrepareConflictsA1_eq_ok hm hp sn e.digest e.view
        simp only [ha2, ha1, Fallible.ok_bind]
        split
        · exact ⟨_, rfl⟩
        · exact ih
  obtain ⟨b, hb, -⟩ := nothingPreparedB_eq_ok hm hp sn
  rw [reproposal, hb, Fallible.ok_bind]
  cases b with
  | true => exact ⟨_, rfl⟩
  | false => exact hfind _

end Conditions

section Reproposal

variable (hsets : reconstructPSetQSet S = .ok (pSets, qSets))

include hsets

theorem mem_filter_nothingPrepared :
    id ∈ (pSets.keys.filter fun id => (pEntry pSets id sn).isNone).toFinset ↔
      ∃ sets, setsAt S id = some sets ∧ sets.1.lookup sn = none := by
  rw [List.mem_toFinset, List.mem_filter, (mem_keys_reconstruct hsets).1, Option.isNone_iff_eq_none,
    pEntry_eq hsets]
  constructor
  · rintro ⟨⟨sets, hs⟩, hnone⟩
    rw [hs] at hnone
    exact ⟨sets, hs, hnone⟩
  · rintro ⟨sets, hs, hnone⟩
    rw [hs]
    exact ⟨⟨sets, rfl⟩, hnone⟩

theorem mem_filter_nonConflicting :
    id ∈ (pSets.keys.filter (nonConflicting pSets sn d v)).toFinset ↔
      ∃ sets, setsAt S id = some sets ∧ ∀ e', sets.1.lookup sn = some e' →
        e'.view < v ∨ e'.view = v ∧ e'.digest.bytes = d.bytes := by
  rw [List.mem_toFinset, List.mem_filter, (mem_keys_reconstruct hsets).1, nonConflicting,
    pEntry_eq hsets]
  constructor
  · rintro ⟨⟨sets, hs⟩, hok⟩
    refine ⟨sets, hs, fun e' he' => ?_⟩
    rw [hs, Option.bind_some, he'] at hok
    simpa using hok
  · rintro ⟨sets, hs, hok⟩
    refine ⟨⟨sets, hs⟩, ?_⟩
    rw [hs, Option.bind_some]
    cases he : sets.1.lookup sn with
    | none => rfl
    | some e' => simpa using hok e' he

theorem mem_filter_hasPreprepared :
    id ∈ (qSets.keys.filter (hasPreprepared qSets sn d v)).toFinset ↔
      ∃ sets entries, setsAt S id = some sets ∧ sets.2.lookup sn = some entries ∧
        v ≤ (entries.lookup d.bytes).getD 0 := by
  rw [List.mem_toFinset, List.mem_filter, (mem_keys_reconstruct hsets).2, hasPreprepared,
    (reconstructPSetQSet_lookup hsets id).2, Option.bind_map]
  constructor
  · rintro ⟨⟨sets, hs⟩, hok⟩
    rw [hs, Option.bind_some, Function.comp_apply] at hok
    split at hok
    · cases hok
    · next entries he => exact ⟨sets, entries, hs, he, of_decide_eq_true hok⟩
  · rintro ⟨sets, entries, hs, he, hok⟩
    refine ⟨⟨sets, hs⟩, ?_⟩
    rw [hs, Option.bind_some, Function.comp_apply, he]
    exact decide_eq_true hok

variable (hS : ∀ id ∈ S.keys, id ∈ m.nodes.keys)

include hS

/-- Only members report. -/
theorem mem_members_of_reconstruct :
    (∀ id ∈ pSets.keys, id ∈ m.nodes.keys) ∧ ∀ id ∈ qSets.keys, id ∈ m.nodes.keys := by
  constructor <;> intro id hid
  · obtain ⟨sets, hs⟩ := (mem_keys_reconstruct hsets).1.mp hid
    exact hS id (mem_keys_of_setsAt hs)
  · obtain ⟨sets, hs⟩ := (mem_keys_reconstruct hsets).2.mp hid
    exact hS id (mem_keys_of_setsAt hs)

variable (hm : m.Readable)

include hm

/-- An entry that meets both conditions is proposable. -/
theorem proposable_of_entry {e : PSetEntry} (he : pEntry pSets id sn = some e)
    (hA1 : noPrepareConflictsA1 pSets sn e.digest e.view m = .ok true)
    (hA2 : ∃ ns, enoughPrepreparesA2 qSets sn e.digest e.view m = .ok (true, ns)) :
    Proposable m S sn e.digest := by
  obtain ⟨hp, hq⟩ := mem_members_of_reconstruct hsets hS
  rw [pEntry_eq hsets] at he
  obtain ⟨sets, hs, hl⟩ := Option.bind_eq_some_iff.mp he
  exact .entry hs hl ((noPrepareConflictsA1_iff hm hp).mp hA1)
    (fun _ hid => (mem_filter_nonConflicting hsets).mp hid)
    ((enoughPrepreparesA2_iff hm hq).mp hA2)
    fun _ hid => (mem_filter_hasPreprepared hsets).mp hid

/-- **What is computed is proposable**, unless nothing is found. -/
theorem reproposal_proposable {ord : MapOrder} {ns : List NodeID}
    (h : reproposal ord pSets qSets sn m = .ok (d, ns)) : d = none ∨ Proposable m S sn d := by
  obtain ⟨b, hb, h⟩ := Fallible.bind_eq_ok.mp h
  cases b with
  | true =>
    cases h
    have hp := (mem_members_of_reconstruct hsets hS).1
    exact Or.inr (.fresh ((nothingPreparedB_iff hm hp).mp hb)
      fun _ hid => (mem_filter_nothingPrepared hsets).mp hid)
  | false =>
    rcases findReproposal_cases h with ⟨id, -, e, he, rfl, hA1, hA2⟩ | ⟨hd, -⟩
    · exact Or.inr (proposable_of_entry hsets hS hm he hA1 ⟨ns, hA2⟩)
    · exact Or.inl hd

end Reproposal

/-! ### Collecting ViewChanges -/

namespace PbftViewChangeState

theorem enoughViewChanges_iff {vc : PbftViewChangeState} :
    vc.enoughViewChanges = true ↔ ∀ sn, vc.reproposals.lookup sn ≠ some none := by
  rw [enoughViewChanges, List.all_eq_true]
  constructor
  · intro h sn hsn
    have hsome := h ⟨sn, none⟩ (AList.mem_lookup_iff.mp hsn)
    cases hsome
  · rintro h ⟨sn, d⟩ hmem
    cases d with
    | none => exact absurd (AList.mem_lookup_iff.mpr hmem) (h sn)
    | some d => rfl

/-- Updating re-proposals recomputes those that are not resolved, and changes nothing else. -/
theorem updateReproposals_spec {ord : MapOrder} {vc vc' : PbftViewChangeState}
    (h : vc.updateReproposals ord = .ok vc') :
    ∃ pSets qSets, reconstructPSetQSet vc.signedViewChanges = .ok (pSets, qSets) ∧
      vc'.membership = vc.membership ∧ vc'.signedViewChanges = vc.signedViewChanges ∧
      vc'.preprepares = vc.preprepares ∧
      ∀ sn, (vc.reproposals.lookup sn = some none → ∃ d ns,
          reproposal ord pSets qSets sn vc.membership = .ok (d, ns) ∧
          vc'.reproposals.lookup sn = some d) ∧
        (vc.reproposals.lookup sn ≠ some none →
          vc'.reproposals.lookup sn = vc.reproposals.lookup sn) := by
  obtain ⟨⟨pSets, qSets⟩, hsets, hfold⟩ := Fallible.bind_eq_ok.mp h
  refine ⟨pSets, qSets, hsets, ?_⟩
  -- after the sequence numbers `xs`, exactly those among them have been recomputed
  have key := FallibleLoop.foldlM_induction
    (I := fun xs st => st.membership = vc.membership ∧
      st.signedViewChanges = vc.signedViewChanges ∧ st.preprepares = vc.preprepares ∧
      ∀ sn, (sn ∈ xs ∧ vc.reproposals.lookup sn = some none → ∃ d ns,
          reproposal ord pSets qSets sn vc.membership = .ok (d, ns) ∧
          st.reproposals.lookup sn = some d) ∧
        (¬ (sn ∈ xs ∧ vc.reproposals.lookup sn = some none) →
          st.reproposals.lookup sn = vc.reproposals.lookup sn))
    ⟨rfl, rfl, rfl, fun sn => ⟨fun hsn => absurd hsn.1 List.not_mem_nil, fun _ => rfl⟩⟩ ?_ hfold
  · obtain ⟨hmem, hsvc, hpp, hall⟩ := key
    refine ⟨hmem, hsvc, hpp, fun sn => ⟨fun hnone => ?_, fun hne => ?_⟩⟩
    · exact (hall sn).1 ⟨GoMap.mem_keys_iff.mpr ⟨none, hnone⟩, hnone⟩
    · exact (hall sn).2 fun hsn => hne hsn.2
  · rintro xs x ys hsplit st st' ⟨hmem, hsvc, hpp, hall⟩ hstep
    have hfresh : x ∉ xs := by
      have hnd := vc.reproposals.keys_nodup
      rw [hsplit, List.nodup_append] at hnd
      exact fun hx => hnd.2.2 x hx x List.mem_cons_self rfl
    have hx : st.reproposals.lookup x = vc.reproposals.lookup x :=
      (hall x).2 fun hsn => hfresh hsn.1
    unfold updateReproposal at hstep
    split at hstep
    · next hnone =>
      obtain ⟨⟨d, ns⟩, hrep, hret⟩ := Fallible.bind_eq_ok.mp hstep
      cases hret
      rw [hmem] at hrep
      refine ⟨hmem, hsvc, hpp, fun sn => ?_⟩
      rw [GoMap.lookup_insert_eq]
      by_cases hsn : sn = x
      · subst hsn
        rw [if_pos rfl]
        refine ⟨fun _ => ⟨d, ns, hrep, rfl⟩, fun hno => ?_⟩
        exact absurd ⟨List.mem_append_right _ (List.mem_singleton.mpr rfl), hx ▸ hnone⟩ hno
      · rw [if_neg hsn]
        refine ⟨fun hin => (hall sn).1 ⟨?_, hin.2⟩, fun hout => (hall sn).2 fun hin => hout ?_⟩
        · rcases List.mem_append.mp hin.1 with hold | hnew
          · exact hold
          · exact absurd (List.mem_singleton.mp hnew) hsn
        · exact ⟨List.mem_append_left _ hin.1, hin.2⟩
    · next hother =>
      cases hstep
      refine ⟨hmem, hsvc, hpp, fun sn => ⟨fun hin => ?_, fun hout => (hall sn).2 fun hin => hout ?_⟩⟩
      · rcases List.mem_append.mp hin.1 with hold | hnew
        · exact (hall sn).1 ⟨hold, hin.2⟩
        · rw [List.mem_singleton.mp hnew] at hin
          exact absurd (hx.trans hin.2) hother
      · exact ⟨List.mem_append_left _ hin.1, hin.2⟩

/-- Adding a ViewChange does nothing once enough are collected or the sender is known, else it
stores the message and, with a strong quorum, updates the re-proposals. -/
theorem addSignedViewChange_cases {ord : MapOrder} {vc vc' : PbftViewChangeState}
    {svc : SignedViewChange} {sender : NodeID}
    (h : vc.addSignedViewChange ord svc sender = .ok vc') :
    (vc' = vc ∧ (vc.enoughViewChanges = true ∨ sender ∈ vc.signedViewChanges.keys)) ∨
      sender ∉ vc.signedViewChanges.keys ∧ ∃ added : PbftViewChangeState,
        added = { vc with signedViewChanges := vc.signedViewChanges.insert sender svc } ∧
        ((vc' = added ∧ vc.membership.haveStrongQuorum added.signedViewChanges.keys = .ok false) ∨
          added.updateReproposals ord = .ok vc') := by
  unfold addSignedViewChange at h
  split at h
  · next henough =>
    cases h
    exact Or.inl ⟨rfl, Or.inl henough⟩
  · split at h
    · next hknown =>
      cases h
      exact Or.inl ⟨rfl, Or.inr hknown⟩
    · next hnew =>
      obtain ⟨b, hb, hrest⟩ := Fallible.bind_eq_ok.mp h
      refine Or.inr ⟨hnew, _, rfl, ?_⟩
      cases b with
      | true => exact Or.inr hrest
      | false =>
        cases hrest
        exact Or.inl ⟨rfl, hb⟩

end PbftViewChangeState

end Mir.Orderers
