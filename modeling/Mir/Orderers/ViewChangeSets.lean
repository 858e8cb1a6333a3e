import Mir.Orderers.ViewChange

/-!
# The sets of a ViewChange

What `getPSetQSet` computes. For each sequence number, the P-set holds the entry of the latest
earlier view in which its slot is prepared, and the Q-set holds for each digest with which the
slot was preprepared in some earlier view the latest such view (`getPSetQSet_spec`).
-/

namespace Mir.Orderers

variable {p : ModuleParams} {s : State}

/-! ### One sequence number -/

/-- The P-set entry for `sn` after the views below `n`: that of the latest view in which the slot
is prepared. -/
def PEntryOf (s : State) (n : ℕ) (sn : SeqNr) : Option PSetEntry → Prop
  | none => ∀ v slot, v.toNat < n → s.slot? v sn = some slot → slot.prepared = false
  | some e => e.sn = sn ∧ e.view.toNat < n ∧
    (∃ slot, s.slot? e.view sn = some slot ∧ slot.prepared = true ∧ e.digest = slot.digest) ∧
    ∀ v slot, e.view < v → v.toNat < n → s.slot? v sn = some slot → slot.prepared = false

/-- The Q-set entries for `sn` after the views below `n`: for each digest the latest view in which
the slot is preprepared with it. -/
structure QEntriesOf (s : State) (n : ℕ) (sn : SeqNr) (entries : GoMap GoString ViewNr) : Prop where
  real : ∀ d v, entries.lookup d = some v → v.toNat < n ∧
    ∃ slot, s.slot? v sn = some slot ∧ slot.preprepared = true ∧ slot.digest.bytes = d
  latest : ∀ v slot, v.toNat < n → s.slot? v sn = some slot → slot.preprepared = true →
    ∃ v', entries.lookup slot.digest.bytes = some v' ∧ v ≤ v'

/-- The views below `n + 1` are those below `n` and `n` itself. -/
theorem view_lt_succ {n : ℕ} (hn : n < 2 ^ 64) {v : ViewNr} (h : v.toNat < n + 1) :
    v.toNat < n ∨ v = UInt64.ofNat n := by
  rcases Nat.lt_or_eq_of_le (Nat.le_of_lt_succ h) with hlt | heq
  · exact Or.inl hlt
  · refine Or.inr (UInt64.toNat_inj.mp ?_)
    rw [heq, UInt64.toNat_ofNat_of_lt' hn]

theorem PEntryOf.succ_of_not_prepared {n : ℕ} (hn : n < 2 ^ 64) {sn : SeqNr}
    {e : Option PSetEntry} (h : PEntryOf s n sn e)
    (hnot : ∀ slot, s.slot? (UInt64.ofNat n) sn = some slot → slot.prepared = false) :
    PEntryOf s (n + 1) sn e := by
  have hall : ∀ v slot, v.toNat < n + 1 → s.slot? v sn = some slot →
      (v.toNat < n → slot.prepared = false) → slot.prepared = false := by
    intro v slot hv hslot hold
    rcases view_lt_succ hn hv with hlt | rfl
    · exact hold hlt
    · exact hnot slot hslot
  cases e with
  | none =>
    intro v slot hv hslot
    exact hall v slot hv hslot fun hlt => h v slot hlt hslot
  | some e =>
    obtain ⟨hsn, hview, hslot, hlater⟩ := h
    refine ⟨hsn, by omega, hslot, fun v slot hev hv hvslot => ?_⟩
    exact hall v slot hv hvslot fun hlt => hlater v slot hev hlt hvslot

theorem QEntriesOf.succ_of_not_preprepared {n : ℕ} (hn : n < 2 ^ 64) {sn : SeqNr}
    {entries : GoMap GoString ViewNr} (h : QEntriesOf s n sn entries)
    (hnot : ∀ slot, s.slot? (UInt64.ofNat n) sn = some slot → slot.preprepared = false) :
    QEntriesOf s (n + 1) sn entries := by
  constructor
  · intro d v hd
    obtain ⟨hv, hslot⟩ := h.real d v hd
    exact ⟨by omega, hslot⟩
  · intro v slot hv hslot hpp
    rcases view_lt_succ hn hv with hlt | rfl
    · exact h.latest v slot hlt hslot hpp
    · rw [hnot slot hslot] at hpp
      cases hpp

/-- The slot of view `n` is prepared: its entry replaces the earlier one. -/
theorem pEntryOf_succ_of_prepared {n : ℕ} (hn : n < 2 ^ 64) {sn : SeqNr} {slot : PbftSlot}
    (hslot : s.slot? (UInt64.ofNat n) sn = some slot) (hprep : slot.prepared = true) :
    PEntryOf s (n + 1) sn (some ⟨sn, UInt64.ofNat n, slot.digest⟩) := by
  have hto : (UInt64.ofNat n).toNat = n := UInt64.toNat_ofNat_of_lt' hn
  refine ⟨rfl, ?_, ⟨slot, hslot, hprep, rfl⟩, fun v slot' hv hv' _ => ?_⟩
  · rw [hto]
    omega
  · -- no view lies strictly between `n` and `n + 1`
    have hlt := UInt64.lt_iff_toNat_lt.mp hv
    dsimp only at hlt
    omega

/-- The slot of view `n` is preprepared: its digest is listed with view `n`. -/
theorem QEntriesOf.succ_of_preprepared {n : ℕ} (hn : n < 2 ^ 64) {sn : SeqNr}
    {entries : GoMap GoString ViewNr} (h : QEntriesOf s n sn entries) {slot : PbftSlot}
    (hslot : s.slot? (UInt64.ofNat n) sn = some slot) (hpp : slot.preprepared = true) :
    QEntriesOf s (n + 1) sn (entries.insert slot.digest.bytes (UInt64.ofNat n)) := by
  have hto : (UInt64.ofNat n).toNat = n := UInt64.toNat_ofNat_of_lt' hn
  constructor
  · intro d v hd
    rw [GoMap.lookup_insert_eq] at hd
    split at hd
    · next heq =>
      cases hd
      exact ⟨by omega, slot, hslot, hpp, heq.symm⟩
    · obtain ⟨hv, hold⟩ := h.real d v hd
      exact ⟨by omega, hold⟩
  · intro v slot' hv hslot' hpp'
    by_cases heq : slot'.digest.bytes = slot.digest.bytes
    · refine ⟨UInt64.ofNat n, ?_, ?_⟩
      · rw [GoMap.lookup_insert_eq, if_pos heq]
      · rw [UInt64.le_iff_toNat_le]
        omega
    · rcases view_lt_succ hn hv with hlt | rfl
      · obtain ⟨v', hlookup, hle⟩ := h.latest v slot' hlt hslot' hpp'
        refine ⟨v', ?_, hle⟩
        rw [GoMap.lookup_insert_eq, if_neg heq]
        exact hlookup
      · rw [hslot] at hslot'
        cases hslot'
        exact absurd rfl heq

/-- What the sets hold for `sn` after the views below `n`. -/
structure SetsFor (s : State) (n : ℕ) (sn : SeqNr) (sets : ViewChangePSet × ViewChangeQSet) :
    Prop where
  pEntry : PEntryOf s n sn (sets.1.lookup sn)
  qEntries : ∃ entries, sets.2.lookup sn = some entries ∧ QEntriesOf s n sn entries

theorem slot?_ofNat {n : ℕ} {slots : GoMap SeqNr PbftSlot}
    (hslots : s.slots.lookup (UInt64.ofNat n) = some slots) (sn : SeqNr) :
    s.slot? (UInt64.ofNat n) sn = slots.lookup sn := by
  rw [State.slot?, State.slotsOf, hslots, Option.getD_some]

/-- One iteration of the inner loop: view `n` is taken into account for `sn`, and nothing else
changes. -/
theorem addSlotToSets_spec {n : ℕ} (hn : n < 2 ^ 64) {sn : SeqNr}
    {sets sets' : ViewChangePSet × ViewChangeQSet} (hsets : SetsFor s n sn sets)
    (h : addSlotToSets s sn sets n = .ok sets') :
    SetsFor s (n + 1) sn sets' ∧
      ∀ sn' ≠ sn, sets'.1.lookup sn' = sets.1.lookup sn' ∧ sets'.2.lookup sn' = sets.2.lookup sn' := by
  obtain ⟨entries, hentries, hq⟩ := hsets.qEntries
  unfold addSlotToSets at h
  split at h
  · next hnone =>
    -- the view was never entered, so it has no slots
    cases h
    have hno : ∀ slot, s.slot? (UInt64.ofNat n) sn ≠ some slot := by
      intro slot hslot
      rw [State.slot?, State.slotsOf, hnone] at hslot
      cases hslot
    refine ⟨⟨hsets.pEntry.succ_of_not_prepared hn fun slot hslot => absurd hslot (hno slot),
      entries, hentries, hq.succ_of_not_preprepared hn fun slot hslot =>
        absurd hslot (hno slot)⟩, fun sn' _ => ⟨rfl, rfl⟩⟩
  · next slots hslots =>
    obtain ⟨slot, hslot, h⟩ := Fallible.bind_eq_ok.mp h
    rw [deref_eq_ok, ← slot?_ofNat hslots] at hslot
    cases h
    have hunique : ∀ slot', s.slot? (UInt64.ofNat n) sn = some slot' → slot' = slot := by
      intro slot' hslot'
      rw [hslot] at hslot'
      exact (Option.some.inj hslot').symm
    refine ⟨⟨?_, ?_⟩, fun sn' hne => ⟨?_, ?_⟩⟩
    · dsimp only
      split
      · next hprep =>
        rw [GoMap.lookup_insert_eq, if_pos rfl]
        exact pEntryOf_succ_of_prepared hn hslot hprep
      · next hprep =>
        refine hsets.pEntry.succ_of_not_prepared hn fun slot' hslot' => ?_
        rw [hunique slot' hslot']
        exact Bool.not_eq_true _ ▸ hprep
    · dsimp only
      split
      · next hpp =>
        refine ⟨entries.insert slot.digest.bytes (UInt64.ofNat n), ?_,
          hq.succ_of_preprepared hn hslot hpp⟩
        rw [GoMap.lookup_insert_eq, if_pos rfl, hentries, Option.getD_some]
      · next hpp =>
        refine ⟨entries, hentries, hq.succ_of_not_preprepared hn fun slot' hslot' => ?_⟩
        rw [hunique slot' hslot']
        exact Bool.not_eq_true _ ▸ hpp
    · dsimp only
      split
      · rw [GoMap.lookup_insert_eq, if_neg hne]
      · rfl
    · dsimp only
      split
      · rw [GoMap.lookup_insert_eq, if_neg hne]
      · rfl

/-- The element that follows a part of a range. -/
theorem eq_length_of_range_eq {n x : ℕ} {xs ys : List ℕ} (h : List.range n = xs ++ x :: ys) :
    x = xs.length ∧ x < n := by
  have hget : (List.range n)[xs.length]? = some x := by
    rw [h]
    simp
  obtain ⟨hlt, heq⟩ := List.getElem?_eq_some_iff.mp hget
  rw [List.length_range] at hlt
  rw [List.getElem_range] at heq
  exact ⟨heq.symm, heq ▸ hlt⟩

/-- The outer loop's body: all earlier views are taken into account for `sn`. -/
theorem addSeqNrToSets_spec {sn : SeqNr} {sets sets' : ViewChangePSet × ViewChangeQSet}
    (hnew : sets.1.lookup sn = none) (h : addSeqNrToSets s sets sn = .ok sets') :
    SetsFor s s.view.toNat sn sets' ∧
      ∀ sn' ≠ sn, sets'.1.lookup sn' = sets.1.lookup sn' ∧ sets'.2.lookup sn' = sets.2.lookup sn' := by
  have hloop := FallibleLoop.foldlM_induction
    (I := fun xs acc => SetsFor s xs.length sn acc ∧ ∀ sn' ≠ sn,
      acc.1.lookup sn' = sets.1.lookup sn' ∧ acc.2.lookup sn' = sets.2.lookup sn') ?_ ?_ h
  · rw [List.length_range] at hloop
    exact hloop
  · refine ⟨⟨?_, ∅, AList.lookup_insert _, ?_⟩, fun sn' hne => ⟨rfl, ?_⟩⟩
    · rw [hnew]
      intro v slot hv
      cases hv
    · constructor
      · intro d v hd
        cases hd
      · intro v slot hv
        cases hv
    · rw [GoMap.lookup_insert_eq, if_neg hne]
  · rintro xs x ys hrange acc acc' ⟨hsets, hframe⟩ hstep
    obtain ⟨rfl, hlt⟩ := eq_length_of_range_eq hrange
    have hbound : xs.length < 2 ^ 64 := Nat.lt_trans hlt s.view.toNat_lt
    obtain ⟨hsets', hframe'⟩ := addSlotToSets_spec hbound hsets hstep
    rw [List.length_append, List.length_singleton]
    refine ⟨hsets', fun sn' hne => ?_⟩
    obtain ⟨hp, hq⟩ := hframe' sn' hne
    obtain ⟨hp₀, hq₀⟩ := hframe sn' hne
    exact ⟨hp.trans hp₀, hq.trans hq₀⟩

/-- **The sets of a ViewChange**: for the sequence numbers of the segment, what all earlier views
amount to; nothing for other sequence numbers. -/
theorem getPSetQSet_spec {sets : ViewChangePSet × ViewChangeQSet}
    (h : getPSetQSet p s = .ok sets) :
    (∀ sn ∈ p.segment.seqNrs, SetsFor s s.view.toNat sn sets) ∧
      ∀ sn ∉ p.segment.seqNrs, sets.1.lookup sn = none ∧ sets.2.lookup sn = none := by
  refine FallibleLoop.foldlM_induction
    (I := fun sns acc => (∀ sn ∈ sns, SetsFor s s.view.toNat sn acc) ∧
      ∀ sn ∉ sns, acc.1.lookup sn = none ∧ acc.2.lookup sn = none) ?_ ?_ h
  · refine ⟨fun sn hsn => ?_, fun sn _ => ⟨rfl, rfl⟩⟩
    cases hsn
  · rintro sns sn rest hsplit acc acc' ⟨hin, hout⟩ hstep
    -- a sequence number is visited once
    have hnd : (sns ++ sn :: rest).Nodup := hsplit ▸ p.segment.seqNrs_nodup
    have hfresh : sn ∉ sns := fun hmem =>
      (List.nodup_append.mp hnd).2.2 sn hmem sn List.mem_cons_self rfl
    obtain ⟨hsets, hframe⟩ := addSeqNrToSets_spec (hout sn hfresh).1 hstep
    refine ⟨fun sn' hsn' => ?_, fun sn' hsn' => ?_⟩
    · by_cases heq : sn' = sn
      · exact heq ▸ hsets
      · have hold : sn' ∈ sns := by
          rcases List.mem_append.mp hsn' with hmem | hmem
          · exact hmem
          · exact absurd (List.mem_singleton.mp hmem) heq
        obtain ⟨hp, hq⟩ := hframe sn' heq
        refine ⟨hp ▸ (hin sn' hold).pEntry, ?_⟩
        rw [hq]
        exact (hin sn' hold).qEntries
    · rw [List.mem_append, List.mem_singleton, not_or] at hsn'
      obtain ⟨hp, hq⟩ := hframe sn' hsn'.2
      rw [hp, hq]
      exact hout sn' hsn'.1

end Mir.Orderers
