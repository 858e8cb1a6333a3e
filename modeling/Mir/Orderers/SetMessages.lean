import Mir.Orderers.ViewChangeSets

/-!
# Sets as messages

A ViewChange carries its sets as sorted lists, and whoever receives it rebuilds them, refusing a
second entry for the same key. The order of `PbType` is total, so the list does not depend on the
order in which the maps are visited (`ViewChangePSet.eq_pbType`, `ViewChangeQSet.eq_pbType`), and
the entries of a set have keys of their own, so rebuilding succeeds and returns the set
(`reconstructPSet_pbType`, `reconstructQSet_pbType`). A sequence number without entries leaves no
trace in the list of a Q-set; it is missing from what is rebuilt.
-/

namespace Mir.Orderers

/-! ### The order of the entries -/

theorem setEntryLe_iff {a b : SeqNr × ViewNr × Bytes} :
    setEntryLe a b = true ↔
      a.1 < b.1 ∨ a.1 = b.1 ∧ (a.2.1 < b.2.1 ∨ a.2.1 = b.2.1 ∧ a.2.2 ≤ b.2.2) := by
  rw [setEntryLe]
  by_cases hsn : a.1 = b.1
  · rw [if_neg (not_not.mpr hsn)]
    by_cases hview : a.2.1 = b.2.1
    · rw [if_neg (not_not.mpr hview)]
      simp [GoString.le, hsn, hview, UInt64.lt_irrefl]
    · rw [if_pos hview]
      simp [hsn, hview, UInt64.lt_irrefl]
  · rw [if_pos hsn]
    simp [hsn]

theorem uint64_lt_trichotomy (a b : UInt64) : a < b ∨ a = b ∨ b < a := by
  rw [UInt64.lt_iff_toNat_lt, UInt64.lt_iff_toNat_lt, ← UInt64.toNat_inj]
  omega

instance : Std.Total fun a b => (setEntryLe a b : Prop) where
  total a b := by
    rw [setEntryLe_iff, setEntryLe_iff]
    rcases uint64_lt_trichotomy a.1 b.1 with hlt | heq | hlt
    · exact Or.inl (Or.inl hlt)
    · rcases uint64_lt_trichotomy a.2.1 b.2.1 with hlt' | heq' | hlt'
      · exact Or.inl (Or.inr ⟨heq, Or.inl hlt'⟩)
      · rcases List.le_total a.2.2 b.2.2 with hle | hle
        · exact Or.inl (Or.inr ⟨heq, Or.inr ⟨heq', hle⟩⟩)
        · exact Or.inr (Or.inr ⟨heq.symm, Or.inr ⟨heq'.symm, hle⟩⟩)
      · exact Or.inr (Or.inr ⟨heq.symm, Or.inl hlt'⟩)
    · exact Or.inr (Or.inl hlt)

instance : IsTrans (SeqNr × ViewNr × Bytes) fun a b => (setEntryLe a b : Prop) where
  trans a b c hab hbc := by
    rw [setEntryLe_iff] at hab hbc ⊢
    rcases hab with hlt | ⟨heq, hab⟩
    · rcases hbc with hlt' | ⟨heq', -⟩
      · exact Or.inl (UInt64.lt_trans hlt hlt')
      · exact Or.inl (heq' ▸ hlt)
    · rcases hbc with hlt' | ⟨heq', hbc⟩
      · exact Or.inl (heq ▸ hlt')
      · refine Or.inr ⟨heq.trans heq', ?_⟩
        rcases hab with hlt | ⟨hview, hab⟩
        · rcases hbc with hlt' | ⟨hview', -⟩
          · exact Or.inl (UInt64.lt_trans hlt hlt')
          · exact Or.inl (hview' ▸ hlt)
        · rcases hbc with hlt' | ⟨hview', hbc⟩
          · exact Or.inl (hview ▸ hlt')
          · exact Or.inr ⟨hview.trans hview', List.le_trans hab hbc⟩

/-- The order separates entries with different keys. -/
theorem setEntryLe_antisymm {a b : SeqNr × ViewNr × Bytes} (hab : setEntryLe a b = true)
    (hba : setEntryLe b a = true) : a = b := by
  rw [setEntryLe_iff] at hab hba
  obtain ⟨hsn, hab⟩ := hab.resolve_left fun hlt =>
    hba.elim (fun hlt' => UInt64.lt_irrefl _ (UInt64.lt_trans hlt hlt')) fun heq =>
      UInt64.lt_irrefl _ (heq.1 ▸ hlt)
  obtain ⟨-, hba⟩ := hba.resolve_left fun hlt => UInt64.lt_irrefl _ (hsn ▸ hlt)
  obtain ⟨hview, hab⟩ := hab.resolve_left fun hlt =>
    hba.elim (fun hlt' => UInt64.lt_irrefl _ (UInt64.lt_trans hlt hlt')) fun heq =>
      UInt64.lt_irrefl _ (heq.1 ▸ hlt)
  obtain ⟨-, hba⟩ := hba.resolve_left fun hlt => UInt64.lt_irrefl _ (hview ▸ hlt)
  exact Prod.ext hsn (Prod.ext hview (List.le_antisymm hab hba))

/-! ### P-sets -/

namespace ViewChangePSet

/-- The order of the entries of a P-set. -/
abbrev Le (a b : PSetEntry) : Prop :=
  setEntryLe (a.sn, a.view, a.digest.bytes) (b.sn, b.view, b.digest.bytes)

instance : Std.Total Le := ⟨fun _ _ => Std.Total.total (r := fun a b => (setEntryLe a b : Prop)) _ _⟩

instance : IsTrans PSetEntry Le :=
  ⟨fun _ _ _ => IsTrans.trans (r := fun a b => (setEntryLe a b : Prop)) _ _ _⟩

/-- The entries of a P-set as the map lists them. -/
abbrev listed (pSet : ViewChangePSet) : List PSetEntry := pSet.entries.map Sigma.snd

/-- Every entry is stored under its sequence number. -/
def Keyed (pSet : ViewChangePSet) : Prop := ∀ sn e, pSet.lookup sn = some e → e.sn = sn

variable {pSet : ViewChangePSet}

theorem mem_listed (h : Keyed pSet) {e : PSetEntry} :
    e ∈ listed pSet ↔ pSet.lookup e.sn = some e := by
  rw [List.mem_map]
  constructor
  · rintro ⟨⟨sn, e'⟩, hmem, rfl⟩
    have hlookup : pSet.lookup sn = some e' := AList.mem_lookup_iff.mpr hmem
    rw [h sn e' hlookup]
    exact hlookup
  · intro hlookup
    exact ⟨⟨e.sn, e⟩, AList.mem_lookup_iff.mp hlookup, rfl⟩

/-- The entries have sequence numbers of their own. -/
theorem nodup_listed (h : Keyed pSet) : ((listed pSet).map PSetEntry.sn).Nodup := by
  have hkeys : (listed pSet).map PSetEntry.sn = pSet.keys := by
    rw [List.map_map]
    refine List.map_congr_left fun entry hentry => ?_
    exact h entry.1 entry.2 (AList.mem_lookup_iff.mpr hentry)
  rw [hkeys]
  exact pSet.keys_nodup

theorem pbType_perm (pSet : ViewChangePSet) : (pbType pSet).Perm (listed pSet) :=
  List.perm_insertionSort _ _

/-- **The list of a P-set** is the only sorted one: it depends neither on the order in which the
map is visited nor on how the list is sorted. -/
theorem eq_pbType (h : Keyed pSet) {l : List PSetEntry} (hperm : l.Perm (listed pSet))
    (hsorted : l.Pairwise Le) : l = pbType pSet := by
  refine List.Perm.eq_of_pairwise ?_ hsorted (List.pairwise_insertionSort Le _)
    (hperm.trans (pbType_perm pSet).symm)
  intro a b ha hb hab hba
  have hkey := (Prod.mk.inj (setEntryLe_antisymm hab hba)).1
  have hla := (mem_listed h).mp (hperm.mem_iff.mp ha)
  have hlb := (mem_listed h).mp ((pbType_perm pSet).mem_iff.mp hb)
  rw [hkey, hlb] at hla
  exact (Option.some.inj hla).symm

end ViewChangePSet

/-- Rebuilding a P-set from entries with sequence numbers of their own, none of which is taken. -/
theorem foldlM_addPSetEntry {entries : List PSetEntry} (hnd : (entries.map PSetEntry.sn).Nodup)
    {acc : ViewChangePSet} (hfresh : ∀ e ∈ entries, acc.lookup e.sn = none) :
    ∃ pSet, entries.foldlM addPSetEntry acc = some pSet ∧
      ∀ sn e, pSet.lookup sn = some e ↔ acc.lookup sn = some e ∨ e ∈ entries ∧ e.sn = sn := by
  induction entries generalizing acc with
  | nil => exact ⟨acc, rfl, fun sn e => by simp⟩
  | cons entry entries ih =>
    rw [List.map_cons, List.nodup_cons] at hnd
    have hnew : acc.lookup entry.sn = none := hfresh entry List.mem_cons_self
    have hadd : addPSetEntry acc entry = some (acc.insert entry.sn entry) :=
      if_neg fun hmem => by
        obtain ⟨e, he⟩ := GoMap.mem_keys_iff.mp hmem
        rw [hnew] at he
        cases he
    -- the other entries have other sequence numbers
    have hrest : ∀ e ∈ entries, (acc.insert entry.sn entry).lookup e.sn = none := by
      intro e he
      have hne : e.sn ≠ entry.sn := fun heq =>
        hnd.1 (heq ▸ List.mem_map_of_mem (f := PSetEntry.sn) he)
      rw [GoMap.lookup_insert_eq, if_neg hne]
      exact hfresh e (List.mem_cons_of_mem _ he)
    obtain ⟨pSet, hpSet, hlookup⟩ := ih hnd.2 hrest
    refine ⟨pSet, ?_, fun sn e => ?_⟩
    · rw [List.foldlM_cons, hadd]
      exact hpSet
    · rw [hlookup sn e, GoMap.lookup_insert_eq, List.mem_cons]
      by_cases hsn : sn = entry.sn
      · rw [if_pos hsn, hsn, hnew]
        constructor
        · rintro (heq | ⟨hmem, heq⟩)
          · obtain rfl := Option.some.inj heq
            exact Or.inr ⟨Or.inl rfl, rfl⟩
          · exact Or.inr ⟨Or.inr hmem, heq⟩
        · rintro (hnone | ⟨rfl | hmem, heq⟩)
          · cases hnone
          · exact Or.inl rfl
          · exact Or.inr ⟨hmem, heq⟩
      · rw [if_neg hsn]
        refine or_congr_right ⟨fun he => ⟨Or.inr he.1, he.2⟩, ?_⟩
        rintro ⟨rfl | hmem, heq⟩
        · exact absurd heq.symm hsn
        · exact ⟨hmem, heq⟩

/-- **Rebuilding a P-set from its list** succeeds and returns it. -/
theorem reconstructPSet_pbType {pSet : ViewChangePSet} (h : pSet.Keyed) :
    ∃ pSet', reconstructPSet pSet.pbType = some pSet' ∧
      ∀ sn, pSet'.lookup sn = pSet.lookup sn := by
  have hperm := ViewChangePSet.pbType_perm pSet
  have hnd : (pSet.pbType.map PSetEntry.sn).Nodup :=
    (hperm.map _).nodup_iff.mpr (ViewChangePSet.nodup_listed h)
  obtain ⟨pSet', hpSet', hlookup⟩ :=
    foldlM_addPSetEntry hnd fun e _ => AList.lookup_empty e.sn
  refine ⟨pSet', hpSet', fun sn => Option.ext fun e => ?_⟩
  rw [hlookup sn e, hperm.mem_iff, ViewChangePSet.mem_listed h]
  constructor
  · rintro (hnone | ⟨hmem, rfl⟩)
    · cases hnone
    · exact hmem
  · intro he
    have hkey := h sn e he
    exact Or.inr ⟨hkey.symm ▸ he, hkey⟩

/-! ### Q-sets -/

namespace ViewChangeQSet

/-- The order of the entries of a Q-set. -/
abbrev Le (a b : QSetEntry) : Prop := setEntryLe (a.sn, a.view, a.digest) (b.sn, b.view, b.digest)

instance : Std.Total Le := ⟨fun _ _ => Std.Total.total (r := fun a b => (setEntryLe a b : Prop)) _ _⟩

instance : IsTrans QSetEntry Le :=
  ⟨fun _ _ _ => IsTrans.trans (r := fun a b => (setEntryLe a b : Prop)) _ _ _⟩

/-- The entries of a Q-set as the maps list them. -/
abbrev listed (qSet : ViewChangeQSet) : List QSetEntry :=
  qSet.entries.flatMap fun snEntry => snEntry.2.entries.map fun e => ⟨snEntry.1, e.2, e.1⟩

/-- The view a Q-set holds for a digest. -/
def view? (qSet : ViewChangeQSet) (sn : SeqNr) (digest : GoString) : Option ViewNr :=
  (qSet.lookup sn).bind fun snEntry => snEntry.lookup digest

variable {qSet : ViewChangeQSet}

theorem mem_listed {e : QSetEntry} : e ∈ listed qSet ↔ qSet.view? e.sn e.digest = some e.view := by
  rw [List.mem_flatMap, view?, Option.bind_eq_some_iff]
  constructor
  · rintro ⟨⟨sn, snEntry⟩, hsn, hmem⟩
    obtain ⟨⟨digest, view⟩, hdigest, rfl⟩ := List.mem_map.mp hmem
    exact ⟨snEntry, AList.mem_lookup_iff.mpr hsn, AList.mem_lookup_iff.mpr hdigest⟩
  · rintro ⟨snEntry, hsn, hdigest⟩
    exact ⟨⟨e.sn, snEntry⟩, AList.mem_lookup_iff.mp hsn,
      List.mem_map.mpr ⟨⟨e.digest, e.view⟩, AList.mem_lookup_iff.mp hdigest, rfl⟩⟩

/-- The entries have pairs of a sequence number and a digest of their own. -/
theorem nodup_listed (qSet : ViewChangeQSet) :
    ((listed qSet).map fun e => (e.sn, e.digest)).Nodup := by
  rw [List.map_flatMap, List.nodup_flatMap]
  refine ⟨fun snEntry _ => ?_, ?_⟩
  · rw [List.map_map]
    -- within a sequence number the digests are the keys of a map
    have hkeys : snEntry.2.entries.map ((fun e : QSetEntry => (e.sn, e.digest)) ∘
        fun e => ⟨snEntry.1, e.2, e.1⟩) = snEntry.2.keys.map fun d => (snEntry.1, d) := by
      rw [AList.keys, List.keys, List.map_map]
      rfl
    rw [hkeys]
    exact snEntry.2.keys_nodup.map fun _ _ heq => (Prod.mk.inj heq).2
  · have hsns : qSet.entries.Pairwise fun a b => a.1 ≠ b.1 :=
      List.pairwise_map.mp qSet.keys_nodup
    refine hsns.imp fun {a b} hne => ?_
    rw [Function.onFun, List.disjoint_left]
    intro x hx hx'
    simp only [List.mem_map] at hx hx'
    obtain ⟨_, ⟨_, _, rfl⟩, rfl⟩ := hx
    obtain ⟨_, ⟨_, _, rfl⟩, heq⟩ := hx'
    exact hne (Prod.mk.inj heq).1.symm

theorem pbType_perm (qSet : ViewChangeQSet) : (pbType qSet).Perm (listed qSet) :=
  List.perm_insertionSort _ _

/-- **The list of a Q-set** is the only sorted one: it depends neither on the order in which the
maps are visited nor on how the list is sorted. -/
theorem eq_pbType {l : List QSetEntry} (hperm : l.Perm (listed qSet)) (hsorted : l.Pairwise Le) :
    l = pbType qSet := by
  refine List.Perm.eq_of_pairwise ?_ hsorted (List.pairwise_insertionSort Le _)
    (hperm.trans (pbType_perm qSet).symm)
  intro a b _ _ hab hba
  obtain ⟨hsn, hrest⟩ := Prod.mk.inj (setEntryLe_antisymm hab hba)
  obtain ⟨hview, hdigest⟩ := Prod.mk.inj hrest
  cases a
  cases b
  rw [QSetEntry.mk.injEq]
  exact ⟨hsn, hview, hdigest⟩

/-- Storing a view under a sequence number and a digest. -/
theorem view?_insert (qSet : ViewChangeQSet) (sn sn' : SeqNr) (d d' : GoString) (v : ViewNr) :
    view? (qSet.insert sn (((qSet.lookup sn).getD ∅).insert d v)) sn' d' =
      if sn' = sn ∧ d' = d then some v else qSet.view? sn' d' := by
  rw [view?, GoMap.lookup_insert_eq]
  by_cases hsn : sn' = sn
  · subst hsn
    rw [if_pos rfl, Option.bind_some, GoMap.lookup_insert_eq]
    by_cases hd : d' = d
    · rw [if_pos hd, if_pos ⟨rfl, hd⟩]
    · rw [if_neg hd, if_neg fun h => hd h.2, view?]
      cases qSet.lookup sn' with
      | none => rfl
      | some snEntry => rfl
  · rw [if_neg hsn, if_neg fun h => hsn h.1, view?]

end ViewChangeQSet

/-- Rebuilding a Q-set from entries with keys of their own, none of which is taken. -/
theorem foldlM_addQSetEntry {entries : List QSetEntry}
    (hnd : (entries.map fun e => (e.sn, e.digest)).Nodup) {acc : ViewChangeQSet}
    (hfresh : ∀ e ∈ entries, acc.view? e.sn e.digest = none) :
    ∃ qSet, entries.foldlM addQSetEntry acc = some qSet ∧ ∀ sn d v,
      qSet.view? sn d = some v ↔ acc.view? sn d = some v ∨ ⟨sn, v, d⟩ ∈ entries := by
  induction entries generalizing acc with
  | nil => exact ⟨acc, rfl, fun sn d v => by simp⟩
  | cons entry entries ih =>
    rw [List.map_cons, List.nodup_cons] at hnd
    have hnew : acc.view? entry.sn entry.digest = none := hfresh entry List.mem_cons_self
    have hadd : addQSetEntry acc entry = some (acc.insert entry.sn
        (((acc.lookup entry.sn).getD ∅).insert entry.digest entry.view)) :=
      if_neg fun hmem => by
        obtain ⟨v, hv⟩ := GoMap.mem_keys_iff.mp hmem
        rw [ViewChangeQSet.view?] at hnew
        cases hsn : acc.lookup entry.sn with
        | none =>
          rw [hsn] at hv
          cases hv
        | some snEntry =>
          rw [hsn] at hv hnew
          exact absurd (hv.symm.trans hnew) (Option.some_ne_none v)
    -- the other entries have other keys
    have hother : ∀ e ∈ entries, ¬ (e.sn = entry.sn ∧ e.digest = entry.digest) := by
      intro e he heq
      refine hnd.1 (List.mem_map.mpr ⟨e, he, ?_⟩)
      rw [heq.1, heq.2]
    have hrest : ∀ e ∈ entries, ViewChangeQSet.view? (acc.insert entry.sn
        (((acc.lookup entry.sn).getD ∅).insert entry.digest entry.view)) e.sn e.digest = none := by
      intro e he
      rw [ViewChangeQSet.view?_insert, if_neg (hother e he)]
      exact hfresh e (List.mem_cons_of_mem _ he)
    obtain ⟨qSet, hqSet, hview⟩ := ih hnd.2 hrest
    refine ⟨qSet, ?_, fun sn d v => ?_⟩
    · rw [List.foldlM_cons, hadd]
      exact hqSet
    · rw [hview sn d v, ViewChangeQSet.view?_insert, List.mem_cons]
      by_cases hkey : sn = entry.sn ∧ d = entry.digest
      · rw [if_pos hkey, hkey.1, hkey.2, hnew]
        constructor
        · rintro (heq | hmem)
          · cases heq
            exact Or.inr (Or.inl rfl)
          · exact Or.inr (Or.inr hmem)
        · rintro (hnone | heq | hmem)
          · cases hnone
          · exact Or.inl (congrArg (fun e => some e.view) heq.symm)
          · exact Or.inr hmem
      · rw [if_neg hkey]
        refine or_congr_right ⟨Or.inr, ?_⟩
        rintro (heq | hmem)
        · exact absurd ⟨congrArg QSetEntry.sn heq, congrArg QSetEntry.digest heq⟩ hkey
        · exact hmem

/-- **Rebuilding a Q-set from its list** succeeds and returns it, up to sequence numbers without
entries. -/
theorem reconstructQSet_pbType (qSet : ViewChangeQSet) :
    ∃ qSet', reconstructQSet qSet.pbType = some qSet' ∧
      ∀ sn d, qSet'.view? sn d = qSet.view? sn d := by
  have hperm := ViewChangeQSet.pbType_perm qSet
  have hnd : (qSet.pbType.map fun e => (e.sn, e.digest)).Nodup :=
    (hperm.map _).nodup_iff.mpr (ViewChangeQSet.nodup_listed qSet)
  obtain ⟨qSet', hqSet', hview⟩ := foldlM_addQSetEntry hnd fun e _ => by
    rw [ViewChangeQSet.view?, AList.lookup_empty]
    rfl
  refine ⟨qSet', hqSet', fun sn d => Option.ext fun v => ?_⟩
  rw [hview sn d v, hperm.mem_iff, ViewChangeQSet.mem_listed]
  refine or_iff_right fun hnone => ?_
  rw [ViewChangeQSet.view?, AList.lookup_empty] at hnone
  cases hnone

end Mir.Orderers
