import Mir.Orderers.Completion
import Mir.Orderers.SetMessages

/-!
# A node's ViewChange is faithful

`Faithful` says what a ViewChange has to report of the slots of earlier views: for each sequence
number the latest view in which its slot is prepared, and for each digest with which it is
preprepared the latest such view, one entry each and nothing else. `viewChange_faithful` shows that
every ViewChange a node builds is faithful, and that its receivers rebuild the sets it was built
from.
-/

namespace Mir.Orderers

/-! ### What is to be reported -/

/-- The entry is for the latest view before `w` in which the slot of its sequence number is
prepared. -/
def LatestPrepared (s : State) (w : ViewNr) (e : PSetEntry) : Prop :=
  e.view < w ∧
    (∃ slot, s.slot? e.view e.sn = some slot ∧ slot.prepared = true ∧ e.digest = slot.digest) ∧
    ∀ v slot, e.view < v → v < w → s.slot? v e.sn = some slot → slot.prepared = false

/-- The entry is for the latest view before `w` in which the slot of its sequence number is
preprepared with its digest. -/
def LatestPreprepared (s : State) (w : ViewNr) (e : QSetEntry) : Prop :=
  e.view < w ∧
    (∃ slot, s.slot? e.view e.sn = some slot ∧ slot.preprepared = true ∧
      slot.digest.bytes = e.digest) ∧
    ∀ v slot, e.view < v → v < w → s.slot? v e.sn = some slot → slot.preprepared = true →
      slot.digest.bytes ≠ e.digest

/-- A ViewChange for `w` reports the slots of earlier views. -/
structure Faithful (s : State) (w : ViewNr) (vc : ViewChange) : Prop where
  view : vc.view = w
  pSet : ∀ e, e ∈ vc.pSet ↔ LatestPrepared s w e
  /-- Exactly the sequence numbers with a prepared slot have an entry, and one only. -/
  prepared : ∀ sn, (∃ e ∈ vc.pSet, e.sn = sn) ↔
    ∃ v slot, v < w ∧ s.slot? v sn = some slot ∧ slot.prepared = true
  pSet_unique : (vc.pSet.map PSetEntry.sn).Nodup
  qSet : ∀ e, e ∈ vc.qSet ↔ LatestPreprepared s w e
  /-- Exactly the digests with which a slot is preprepared have an entry, and one only. -/
  preprepared : ∀ sn d, (∃ e ∈ vc.qSet, e.sn = sn ∧ e.digest = d) ↔
    ∃ v slot, v < w ∧ s.slot? v sn = some slot ∧ slot.preprepared = true ∧ slot.digest.bytes = d
  qSet_unique : (vc.qSet.map fun e => (e.sn, e.digest)).Nodup

/-- The lists of a ViewChange stand for the sets it was built from: they are the only sorted lists
of their entries, and rebuilding succeeds with the same sets, up to sequence numbers without
entries. -/
structure Rebuilds (pSet : ViewChangePSet) (qSet : ViewChangeQSet) (vc : ViewChange) : Prop where
  pSet_sorted : ∀ l, l.Perm pSet.listed → l.Pairwise ViewChangePSet.Le → l = vc.pSet
  qSet_sorted : ∀ l, l.Perm qSet.listed → l.Pairwise ViewChangeQSet.Le → l = vc.qSet
  pSet_rebuilt : ∃ pSet', reconstructPSet vc.pSet = some pSet' ∧
    ∀ sn, pSet'.lookup sn = pSet.lookup sn
  qSet_rebuilt : ∃ qSet', reconstructQSet vc.qSet = some qSet' ∧
    ∀ sn d, qSet'.view? sn d = qSet.view? sn d

/-! ### The sets report the latest views -/

section Latest

variable {s : State} {sn : SeqNr}

/-- The P-set has the entry of the latest view. -/
theorem PEntryOf.eq_some_iff {r : Option PSetEntry} (h : PEntryOf s s.view.toNat sn r)
    {e : PSetEntry} (hsn : e.sn = sn) : r = some e ↔ LatestPrepared s s.view e := by
  constructor
  · rintro rfl
    obtain ⟨-, hlt, hslot, hlatest⟩ := h
    rw [← hsn] at hslot hlatest
    exact ⟨UInt64.lt_iff_toNat_lt.mpr hlt, hslot, fun v slot hv hw =>
      hlatest v slot hv (UInt64.lt_iff_toNat_lt.mp hw)⟩
  · rintro ⟨hlt, ⟨slot, hslot, hprep, hdigest⟩, hlatest⟩
    rw [hsn] at hslot hlatest
    cases r with
    | none =>
      rw [h e.view slot (UInt64.lt_iff_toNat_lt.mp hlt) hslot] at hprep
      cases hprep
    | some e' =>
      obtain ⟨hsn', hlt', ⟨slot', hslot', hprep', hdigest'⟩, hlatest'⟩ := h
      -- neither view is later than the other
      have hview : e'.view = e.view := by
        rcases uint64_lt_trichotomy e'.view e.view with hvv | heq | hvv
        · rw [hlatest' e.view slot hvv (UInt64.lt_iff_toNat_lt.mp hlt) hslot] at hprep
          cases hprep
        · exact heq
        · rw [hlatest e'.view slot' hvv (UInt64.lt_iff_toNat_lt.mpr hlt') hslot'] at hprep'
          cases hprep'
      rw [hview, hslot, Option.some.injEq] at hslot'
      rw [← hslot'] at hdigest'
      cases e
      cases e'
      rw [Option.some.injEq, PSetEntry.mk.injEq]
      exact ⟨hsn'.trans hsn.symm, hview, hdigest'.trans hdigest.symm⟩

/-- The Q-set has the entries of the latest views. -/
theorem QEntriesOf.lookup_iff {entries : GoMap GoString ViewNr}
    (h : QEntriesOf s s.view.toNat sn entries) {d : GoString} {v : ViewNr} :
    entries.lookup d = some v ↔ LatestPreprepared s s.view ⟨sn, v, d⟩ := by
  constructor
  · intro hlookup
    obtain ⟨hlt, hslot⟩ := h.real d v hlookup
    refine ⟨UInt64.lt_iff_toNat_lt.mpr hlt, hslot, fun v' slot' hv hw hslot' hpp' hd => ?_⟩
    obtain ⟨v'', hlookup', hle⟩ := h.latest v' slot' (UInt64.lt_iff_toNat_lt.mp hw) hslot' hpp'
    rw [hd] at hlookup'
    obtain rfl : v = v'' := Option.some.inj (hlookup.symm.trans hlookup')
    exact UInt64.lt_irrefl _ (UInt64.lt_of_lt_of_le hv hle)
  · rintro ⟨hlt, ⟨slot, hslot, hpp, rfl⟩, hlatest⟩
    obtain ⟨v', hlookup, hle⟩ := h.latest v slot (UInt64.lt_iff_toNat_lt.mp hlt) hslot hpp
    obtain ⟨hlt', slot', hslot', hpp', hd'⟩ := h.real _ v' hlookup
    by_cases heq : v = v'
    · rw [heq]
      exact hlookup
    · have hlater := UInt64.lt_of_le_of_ne hle heq
      exact absurd hd' (hlatest v' slot' hlater (UInt64.lt_iff_toNat_lt.mpr hlt') hslot' hpp')

end Latest

theorem SlotsWf.mem_seqNrs {p : ModuleParams} {s : State} (h : SlotsWf p s) {v : ViewNr}
    {sn : SeqNr} {slot : PbftSlot} (hslot : s.slot? v sn = some slot) : sn ∈ p.segment.seqNrs := by
  rw [State.slot?, State.slotsOf] at hslot
  cases hlookup : s.slots.lookup v with
  | none =>
    rw [hlookup] at hslot
    cases hslot
  | some slots =>
    rw [hlookup] at hslot
    exact (h.keys v slots hlookup sn).mp ⟨slot, hslot⟩

section Sets

variable {p : ModuleParams} {s : State} {pSet : ViewChangePSet} {qSet : ViewChangeQSet}
  (hwf : SlotsWf p s) (h : getPSetQSet p s = .ok (pSet, qSet))

include h

theorem keyed_of_getPSetQSet : pSet.Keyed := by
  intro sn e he
  obtain ⟨hin, hout⟩ := getPSetQSet_spec h
  by_cases hsn : sn ∈ p.segment.seqNrs
  · have hentry := (hin sn hsn).pEntry
    rw [he] at hentry
    exact hentry.1
  · rw [(hout sn hsn).1] at he
    cases he

include hwf

theorem lookup_pSet_iff {e : PSetEntry} :
    pSet.lookup e.sn = some e ↔ LatestPrepared s s.view e := by
  obtain ⟨hin, hout⟩ := getPSetQSet_spec h
  by_cases hsn : e.sn ∈ p.segment.seqNrs
  · exact (hin e.sn hsn).pEntry.eq_some_iff rfl
  · rw [(hout e.sn hsn).1]
    refine iff_of_false (Option.some_ne_none e).symm ?_
    rintro ⟨-, ⟨slot, hslot, -⟩, -⟩
    exact hsn (hwf.mem_seqNrs hslot)

theorem view?_qSet_iff {e : QSetEntry} :
    qSet.view? e.sn e.digest = some e.view ↔ LatestPreprepared s s.view e := by
  obtain ⟨hin, hout⟩ := getPSetQSet_spec h
  rw [ViewChangeQSet.view?]
  by_cases hsn : e.sn ∈ p.segment.seqNrs
  · obtain ⟨entries, hentries, hq⟩ := (hin e.sn hsn).qEntries
    rw [hentries, Option.bind_some]
    exact hq.lookup_iff
  · rw [(hout e.sn hsn).2, Option.bind_none]
    refine iff_of_false (Option.some_ne_none _).symm ?_
    rintro ⟨-, ⟨slot, hslot, -⟩, -⟩
    exact hsn (hwf.mem_seqNrs hslot)

/-- **The sets of the state are faithful.** -/
theorem faithful_of_getPSetQSet : Faithful s s.view ⟨s.view, pSet.pbType, qSet.pbType⟩ where
  view := rfl
  pSet e := by
    rw [(ViewChangePSet.pbType_perm pSet).mem_iff,
      ViewChangePSet.mem_listed (keyed_of_getPSetQSet h)]
    exact lookup_pSet_iff hwf h
  prepared sn := by
    have hkeyed := keyed_of_getPSetQSet h
    obtain ⟨hin, -⟩ := getPSetQSet_spec h
    constructor
    · rintro ⟨e, he, rfl⟩
      rw [(ViewChangePSet.pbType_perm pSet).mem_iff, ViewChangePSet.mem_listed hkeyed] at he
      obtain ⟨hlt, ⟨slot, hslot, hprep, -⟩, -⟩ := (lookup_pSet_iff hwf h).mp he
      exact ⟨e.view, slot, hlt, hslot, hprep⟩
    · rintro ⟨v, slot, hlt, hslot, hprep⟩
      have hentry := (hin sn (hwf.mem_seqNrs hslot)).pEntry
      cases he : pSet.lookup sn with
      | none =>
        rw [he] at hentry
        rw [hentry v slot (UInt64.lt_iff_toNat_lt.mp hlt) hslot] at hprep
        cases hprep
      | some e =>
        have hkey := hkeyed sn e he
        refine ⟨e, ?_, hkey⟩
        rw [(ViewChangePSet.pbType_perm pSet).mem_iff, ViewChangePSet.mem_listed hkeyed, hkey]
        exact he
  pSet_unique := ((ViewChangePSet.pbType_perm pSet).map _).nodup_iff.mpr
    (ViewChangePSet.nodup_listed (keyed_of_getPSetQSet h))
  qSet e := by
    rw [(ViewChangeQSet.pbType_perm qSet).mem_iff, ViewChangeQSet.mem_listed]
    exact view?_qSet_iff hwf h
  preprepared sn d := by
    obtain ⟨hin, -⟩ := getPSetQSet_spec h
    constructor
    · rintro ⟨e, he, rfl, rfl⟩
      rw [(ViewChangeQSet.pbType_perm qSet).mem_iff, ViewChangeQSet.mem_listed] at he
      obtain ⟨hlt, ⟨slot, hslot, hpp, hd⟩, -⟩ := (view?_qSet_iff hwf h).mp he
      exact ⟨e.view, slot, hlt, hslot, hpp, hd⟩
    · rintro ⟨v, slot, hlt, hslot, hpp, rfl⟩
      obtain ⟨entries, hentries, hq⟩ := (hin sn (hwf.mem_seqNrs hslot)).qEntries
      obtain ⟨v', hv', -⟩ := hq.latest v slot (UInt64.lt_iff_toNat_lt.mp hlt) hslot hpp
      refine ⟨⟨sn, v', slot.digest.bytes⟩, ?_, rfl, rfl⟩
      rw [(ViewChangeQSet.pbType_perm qSet).mem_iff, ViewChangeQSet.mem_listed,
        ViewChangeQSet.view?, hentries]
      exact hv'
  qSet_unique := ((ViewChangeQSet.pbType_perm qSet).map _).nodup_iff.mpr
    (ViewChangeQSet.nodup_listed qSet)

omit hwf in
theorem rebuilds_of_getPSetQSet (w : ViewNr) :
    Rebuilds pSet qSet ⟨w, pSet.pbType, qSet.pbType⟩ :=
  ⟨fun _ hperm hsorted => ViewChangePSet.eq_pbType (keyed_of_getPSetQSet h) hperm hsorted,
    fun _ hperm hsorted => ViewChangeQSet.eq_pbType hperm hsorted,
    reconstructPSet_pbType (keyed_of_getPSetQSet h), reconstructQSet_pbType qSet⟩

end Sets

/-! ### Starting a view change -/

/-- Whether a ViewChange is faithful depends on the slots of earlier views only. -/
theorem Faithful.congr {s s' : State} {w : ViewNr} {vc : ViewChange}
    (hs : ∀ v, v < w → ∀ sn, s'.slot? v sn = s.slot? v sn) (h : Faithful s w vc) :
    Faithful s' w vc where
  view := h.view
  pSet e := by
    rw [h.pSet e]
    refine and_congr_right fun hlt => and_congr ?_ (forall₄_congr fun v slot _ hw => ?_)
    · rw [hs e.view hlt]
    · rw [hs v hw]
  prepared sn := by
    rw [h.prepared sn]
    refine exists₂_congr fun v slot => and_congr_right fun hlt => ?_
    rw [hs v hlt]
  pSet_unique := h.pSet_unique
  qSet e := by
    rw [h.qSet e]
    refine and_congr_right fun hlt => and_congr ?_ (forall₄_congr fun v slot _ hw => ?_)
    · rw [hs e.view hlt]
    · rw [hs v hw]
  preprepared sn d := by
    rw [h.preprepared sn d]
    refine exists₂_congr fun v slot => and_congr_right fun hlt => ?_
    rw [hs v hlt]
  qSet_unique := h.qSet_unique

/-- **A node's ViewChange is faithful.** In every reachable state in which there is a next view, a
view change starts, and the ViewChange that is passed on for signing reports the slots of all
earlier views, as lists from which its receivers rebuild the sets. -/
theorem viewChange_faithful (env : Env) (p : ModuleParams) (o : Orderer)
    (h : Reachable env p anyStep o) :
    (o.state.view + 1 ≠ 0 → Fallible.Completes (startViewChange p o)) ∧
      ∀ o', startViewChange p o = .ok o' → ∃ pSet qSet vc,
        getPSetQSet p o'.state = .ok (pSet, qSet) ∧
        o'.out.getLast? = some (.signRequest vc.signedBytes vc) ∧
        Faithful o.state (o.state.view + 1) vc ∧ Rebuilds pSet qSet vc := by
  have hnone : Reachable env p (Guards.none.onStep p) o :=
    h.mono fun o ord ev _ => Guards.none_onStep p o ord ev
  have hr : MReachable env p .none o := hnone.mReachable
  refine ⟨startViewChange_completes hr, fun o' hstart => ?_⟩
  obtain ⟨o₁, hinit, hstart⟩ := Fallible.bind_eq_ok.mp hstart
  obtain ⟨⟨pSet, qSet⟩, hsets, hstart⟩ := Fallible.bind_eq_ok.mp hstart
  cases hstart
  have hmicro : Micro env p .none o o₁ := .startView o o₁ hinit
  refine ⟨pSet, qSet, _, hsets, List.getLast?_concat, ?_, rebuilds_of_getPSetQSet hsets _⟩
  have hfaithful := faithful_of_getPSetQSet (hmicro.slotsWf hr.slotsWf) hsets
  have hview : o₁.state.view = o.state.view + 1 := (initView_frame hinit).view
  rw [hview] at hfaithful ⊢
  refine hfaithful.congr fun v hv sn => ?_
  -- entering the view leaves the slots of the others alone
  rcases initView_entersView hinit with ⟨-, hsame, rfl⟩ | ⟨henters, -⟩
  · rfl
  · refine (henters.slot?_of_ne (fun heq => ?_) sn).symm
    rw [heq, hview] at hv
    exact UInt64.lt_irrefl _ hv

/-- A node that has prepared the leader's proposal reports it. -/
theorem viewChange_faithful_prepared :
    ∃ o o' vc, startViewChange (plainParams singleSlot [97]) o = .ok o' ∧
      Faithful o.state 1 vc ∧ ∃ e ∈ vc.pSet, e.sn = 0 := by
  obtain ⟨o, hr, hview, hprep⟩ := exists_reachable (C := anyStep) (fun _ => trivial)
    (by decide +kernel : (execute plainEnv (plainParams singleSlot [97]) (fun _ _ => true)
      (receiveProposal ++ prepareProposal)).any (fun o => o.state.view = 0 ∧
        (o.state.slot? 0 0).map PbftSlot.prepared = some true) = true)
  obtain ⟨slot, hslot, hprep⟩ := Option.map_eq_some_iff.mp hprep
  obtain ⟨hcompletes, hall⟩ := viewChange_faithful plainEnv (plainParams singleSlot [97]) o hr
  rw [hview] at hcompletes hall
  obtain ⟨o', ho'⟩ := hcompletes (by decide)
  obtain ⟨-, -, vc, -, -, hfaithful, -⟩ := hall o' ho'
  exact ⟨o, o', vc, ho', hfaithful,
    (hfaithful.prepared 0).mpr ⟨0, slot, by decide, hslot, hprep⟩⟩

end Mir.Orderers
