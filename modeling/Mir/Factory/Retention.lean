import Mir.Factory.Module

/-!
# Retention of submodules

A submodule is created for a retention index and listed under it, and garbage collection deletes what
is listed under the indices that it passes. When a submodule is created again under another index, the
old entry stays in its list. If the new index is higher, the submodule is deleted too early:
`deleted_with_old_index`. If no identifier is listed under a lower index when it is created again, the
submodules that exist are exactly those whose latest index has not been passed: `submodules_retained`.
-/

namespace Mir.Factory

open Events FallibleLoop

variable {S : Type} {p : ModuleParams S} {s s' : State S} {out : List Event}

/-! ### Runs -/

/-- A run of the factory: its state, the submodules it has accepted with their retention indices, and
the indices of the garbage collections. -/
structure Run (S : Type) where
  state : State S
  accepted : List (ModuleID × RetentionIndex)
  collected : List RetentionIndex

namespace Run

/-- The run at the start. -/
def init (p : ModuleParams S) : Run S := ⟨.init p, [], []⟩

/-- The run after an event. A submodule is accepted unless its retention index is too low. -/
def after (p : ModuleParams S) (r : Run S) (event : Event) (state : State S) : Run S where
  state := state
  accepted :=
    match event with
    | .std dest (.newSubmodule id _ retIdx) =>
      if dest = p.ownID ∧ r.state.retIdx ≤ retIdx then r.accepted ++ [(id, retIdx)] else r.accepted
    | _ => r.accepted
  collected :=
    match event with
    | .std dest (.garbageCollect retIdx) =>
      if dest = p.ownID then r.collected ++ [retIdx] else r.collected
    | _ => r.collected

/-- The runs whose events all satisfy a condition when they are applied. The collected events of the
submodules may be applied at any time, as at the end of a list. -/
inductive Reachable (p : ModuleParams S) (P : State S → Event → Prop) : Run S → Prop
  | init : Reachable p P (.init p)
  | event {r : Run S} {event : Event} {ord : Order} {state : State S} {out : List Event} :
      Reachable p P r → P r.state event → applyEvent p ord r.state event = .ok (state, out) →
      Reachable p P (r.after p event state)
  | flush {r : Run S} {ord : Order} {state : State S} {out : List Event} :
      Reachable p P r → applySubmodulesEvents p ord r.state = .ok (state, out) →
      Reachable p P { r with state := state }

end Run

/-- The retention index of the latest accepted submodule with the given identifier. -/
def latest (id : ModuleID) (accepted : List (ModuleID × RetentionIndex)) : Option RetentionIndex :=
  (accepted.filter fun e => decide (e.1 = id)).getLast?.map Prod.snd

theorem latest_concat (id id' : ModuleID) (retIdx : RetentionIndex)
    (accepted : List (ModuleID × RetentionIndex)) :
    latest id (accepted ++ [(id', retIdx)]) =
      if id = id' then some retIdx else latest id accepted := by
  rw [latest, List.filter_append]
  by_cases h : id = id'
  · simp [h]
  · have h' : ¬ id' = id := fun heq => h heq.symm
    simp [h, h', latest]

/-! ### Existing submodules are retained, and retained ones exist -/

/-- The identifiers that are listed under a retention index. -/
def State.listedAt (s : State S) (retIdx : RetentionIndex) : List ModuleID :=
  (s.moduleRetention.lookup retIdx).getD []

/-- The submodules that exist are those whose latest index is not passed. Such a submodule is listed
under its index, and under no lower one. -/
structure Exact (accepted : List (ModuleID × RetentionIndex)) (s : State S) : Prop where
  exists_iff : ∀ id, (∃ n, s.number? id = some n) ↔
    ∃ retIdx, latest id accepted = some retIdx ∧ s.retIdx ≤ retIdx
  listed : ∀ id retIdx, latest id accepted = some retIdx → s.retIdx ≤ retIdx →
    id ∈ s.listedAt retIdx
  lowest : ∀ id retIdx, latest id accepted = some retIdx → s.retIdx ≤ retIdx →
    ∀ i, id ∈ s.listedAt i → retIdx ≤ i

variable {accepted : List (ModuleID × RetentionIndex)}

theorem exact_init (p : ModuleParams S) : Exact [] (State.init p) where
  exists_iff id := by
    constructor
    · rintro ⟨n, hn⟩
      rw [State.number?, State.init, AList.lookup_empty] at hn
      cases hn
    · rintro ⟨retIdx, hlatest, -⟩
      cases hlatest
  listed id retIdx hlatest := nomatch hlatest
  lowest id retIdx hlatest := nomatch hlatest

theorem SameModules.listedAt (h : SameModules s s') (i : RetentionIndex) :
    s'.listedAt i = s.listedAt i := by
  rw [State.listedAt, h.moduleRetention]
  rfl

theorem Exact.congr (h : Exact accepted s) (hsame : SameModules s s') : Exact accepted s' := by
  refine ⟨fun id => ?_, fun id retIdx hlatest hle => ?_, fun id retIdx hlatest hle i hi => ?_⟩
  · rw [hsame.number?, hsame.retIdx]
    exact h.exists_iff id
  · rw [hsame.retIdx] at hle
    rw [hsame.listedAt]
    exact h.listed id retIdx hlatest hle
  · rw [hsame.retIdx] at hle
    rw [hsame.listedAt] at hi
    exact h.lowest id retIdx hlatest hle i hi

/-- The loop that deletes submodules. -/
theorem lookup_foldl_erase (ids : List ModuleID) (submodules : GoMap ModuleID (Instance S))
    (id : ModuleID) :
    (ids.foldl (fun submodules mID => submodules.erase mID) submodules).lookup id =
      if id ∈ ids then none else submodules.lookup id := by
  induction ids generalizing submodules with
  | nil => simp
  | cons a ids ih =>
    rw [List.foldl_cons, ih]
    by_cases hid : id ∈ ids
    · simp [hid]
    · by_cases ha : id = a
      · subst ha
        simp [hid]
      · simp [hid, ha, AList.lookup_erase_ne ha]

theorem number?_collect (s : State S) (id : ModuleID) :
    (collect s).number? id = if id ∈ s.listedAt s.retIdx then none else s.number? id := by
  rw [State.number?, collect, lookup_foldl_erase]
  change Option.map _ (if id ∈ s.listedAt s.retIdx then _ else _) = _
  split <;> rfl

theorem listedAt_collect (s : State S) (i : RetentionIndex) :
    (collect s).listedAt i = if i = s.retIdx then [] else s.listedAt i := by
  rw [State.listedAt, collect]
  split
  next heq =>
    rw [heq, AList.lookup_erase]
    rfl
  next hne =>
    rw [AList.lookup_erase_ne hne]
    rfl

/-- Collecting one index deletes exactly the submodules that it retained. -/
theorem Exact.collect (h : Exact accepted s) (hmax : s.retIdx.toNat + 1 < 2 ^ 64) :
    Exact accepted (collect s) ∧ (Factory.collect s).retIdx.toNat = s.retIdx.toNat + 1 := by
  have hsucc : (s.retIdx + 1).toNat = s.retIdx.toNat + 1 := by
    rw [UInt64.toNat_add]
    exact Nat.mod_eq_of_lt hmax
  have hlt_iff : ∀ i : RetentionIndex, s.retIdx + 1 ≤ i ↔ s.retIdx < i := by
    intro i
    rw [UInt64.le_iff_toNat_le, UInt64.lt_iff_toNat_lt, hsucc]
    exact Nat.succ_le_iff
  refine ⟨⟨fun id => ?_, fun id retIdx hlatest hle => ?_, fun id retIdx hlatest hle i hi => ?_⟩,
    hsucc⟩
  · rw [number?_collect]
    change _ ↔ ∃ retIdx, latest id accepted = some retIdx ∧ s.retIdx + 1 ≤ retIdx
    constructor
    · rintro ⟨n, hn⟩
      split at hn
      next => cases hn
      next hid =>
        obtain ⟨retIdx, hlatest, hle⟩ := (h.exists_iff id).mp ⟨n, hn⟩
        refine ⟨retIdx, hlatest, (hlt_iff _).mpr (UInt64.lt_of_le_of_ne hle fun heq => hid ?_)⟩
        rw [heq]
        exact h.listed id retIdx hlatest hle
    · rintro ⟨retIdx, hlatest, hle⟩
      have hlt := (hlt_iff _).mp hle
      have hid : id ∉ s.listedAt s.retIdx := fun hid => UInt64.lt_irrefl _
        (UInt64.lt_of_lt_of_le hlt (h.lowest id retIdx hlatest (UInt64.le_of_lt hlt) _ hid))
      rw [if_neg hid]
      exact (h.exists_iff id).mpr ⟨retIdx, hlatest, UInt64.le_of_lt hlt⟩
  · have hlt : s.retIdx < retIdx := (hlt_iff _).mp hle
    rw [listedAt_collect, if_neg]
    · exact h.listed id retIdx hlatest (UInt64.le_of_lt hlt)
    · rintro rfl
      exact UInt64.lt_irrefl _ hlt
  · have hlt : s.retIdx < retIdx := (hlt_iff _).mp hle
    rw [listedAt_collect] at hi
    split at hi
    next => cases hi
    next => exact h.lowest id retIdx hlatest (UInt64.le_of_lt hlt) i hi

/-- Garbage collection raises the retention index to the given one, if it is lower. -/
theorem Exact.garbageCollect (h : Exact accepted s) (g : RetentionIndex) :
    Exact accepted (garbageCollect s g) ∧
      (Factory.garbageCollect s g).retIdx = if s.retIdx < g then g else s.retIdx := by
  have hg := g.toNat_lt
  have hs := s.retIdx.toNat_lt
  -- the loop, for as many iterations as it may have
  have hloop : ∀ n, s.retIdx.toNat + n < 2 ^ 64 → Exact accepted (Factory.collect^[n] s) ∧
      (Factory.collect^[n] s).retIdx.toNat = s.retIdx.toNat + n := by
    intro n hn
    induction n with
    | zero => exact ⟨h, rfl⟩
    | succ n ih =>
      obtain ⟨hexact, hidx⟩ := ih (by omega)
      obtain ⟨hexact', hidx'⟩ := hexact.collect (by omega)
      rw [Function.iterate_succ_apply']
      exact ⟨hexact', by omega⟩
  obtain ⟨hexact, hidx⟩ := hloop (g.toNat - s.retIdx.toNat) (by omega)
  refine ⟨hexact, UInt64.toNat_inj.mp (hidx.trans ?_)⟩
  split
  next hlt =>
    have := UInt64.lt_iff_toNat_lt.mp hlt
    omega
  next hle =>
    have := UInt64.le_iff_toNat_le.mp (UInt64.not_lt.mp hle)
    omega

/-! ### Creating submodules -/

theorem number?_created (s : State S) (id : ModuleID) (retIdx : RetentionIndex) (submodule : S)
    (initialized results : Instance S × List Event) (id' : ModuleID) :
    (created s id retIdx submodule initialized results).number? id' =
      if id' = id then some results.1.number else s.number? id' := by
  rw [created, number?_called]
  split
  next => rfl
  next hne =>
    change ((register s id submodule retIdx).called id initialized.1 [.std id .init]
      initialized.2).number? id' = _
    rw [number?_called, if_neg hne, State.number?, register, GoMap.lookup_insert_eq, if_neg hne]
    rfl

theorem listedAt_created (s : State S) (id : ModuleID) (retIdx : RetentionIndex) (submodule : S)
    (initialized results : Instance S × List Event) (i : RetentionIndex) :
    (created s id retIdx submodule initialized results).listedAt i =
      if i = retIdx then s.listedAt retIdx ++ [id] else s.listedAt i := by
  change ((register s id submodule retIdx).moduleRetention.lookup i).getD [] = _
  rw [register, GoMap.lookup_insert_eq]
  split <;> rfl

/-- A new submodule whose identifier is not listed under a lower index. -/
theorem Exact.created (h : Exact accepted s) {id : ModuleID} {retIdx : RetentionIndex}
    (hle : s.retIdx ≤ retIdx) (hlowest : ∀ i, id ∈ s.listedAt i → retIdx ≤ i) (submodule : S)
    (initialized results : Instance S × List Event) :
    Exact (accepted ++ [(id, retIdx)]) (created s id retIdx submodule initialized results) := by
  refine ⟨fun id' => ?_, fun id' retIdx' hlatest hle' => ?_, fun id' retIdx' hlatest hle' i hi => ?_⟩
  · rw [number?_created, latest_concat]
    change _ ↔ ∃ r, _ ∧ s.retIdx ≤ r
    by_cases hid : id' = id
    · rw [if_pos hid, if_pos hid]
      exact ⟨fun _ => ⟨retIdx, rfl, hle⟩, fun _ => ⟨_, rfl⟩⟩
    · rw [if_neg hid, if_neg hid]
      exact h.exists_iff id'
  · rw [latest_concat] at hlatest
    rw [listedAt_created]
    by_cases hid : id' = id
    · rw [if_pos hid] at hlatest
      obtain rfl := Option.some.inj hlatest
      rw [if_pos rfl, hid]
      exact List.mem_append_right _ (List.mem_singleton.mpr rfl)
    · rw [if_neg hid] at hlatest
      have hold := h.listed id' retIdx' hlatest hle'
      split
      next heq =>
        rw [heq] at hold
        exact List.mem_append_left _ hold
      next => exact hold
  · rw [latest_concat] at hlatest
    rw [listedAt_created] at hi
    by_cases hid : id' = id
    · rw [if_pos hid] at hlatest
      obtain rfl := Option.some.inj hlatest
      split at hi
      next heq =>
        rw [heq]
        exact UInt64.le_refl _
      next => exact hlowest i (hid ▸ hi)
    · rw [if_neg hid] at hlatest
      refine h.lowest id' retIdx' hlatest hle' i ?_
      split at hi
      next heq =>
        rw [heq]
        exact (List.mem_append.mp hi).resolve_right fun hnew => hid (List.mem_singleton.mp hnew)
      next => exact hi

/-! ### Whole runs -/

/-- A submodule that is created is not listed under a lower retention index. -/
def NotListedLower (p : ModuleParams S) (s : State S) : Event → Prop
  | .std dest (.newSubmodule id _ retIdx) =>
    dest = p.ownID → s.retIdx ≤ retIdx → ∀ i, id ∈ s.listedAt i → retIdx ≤ i
  | _ => True

/-- In a run, the retention index is the highest one that was garbage-collected. -/
structure RunExact (r : Run S) : Prop where
  exact : Exact r.accepted r.state
  collected_le : ∀ g ∈ r.collected, g ≤ r.state.retIdx
  retIdx_collected : r.state.retIdx = 0 ∨ r.state.retIdx ∈ r.collected

variable {r : Run S} {ord : Order} {event : Event}

theorem sameModules_bufferSubmoduleEvent (s : State S) (event : Event) :
    SameModules s (bufferSubmoduleEvent s event) := ⟨fun _ => rfl, rfl, rfl, rfl⟩

/-- A step that neither creates nor collects. -/
theorem RunExact.congr (h : RunExact r) (hsame : SameModules r.state s') :
    RunExact { r with state := s' } where
  exact := h.exact.congr hsame
  collected_le g hg := by
    rw [hsame.retIdx]
    exact h.collected_le g hg
  retIdx_collected := by
    rw [hsame.retIdx]
    exact h.retIdx_collected

/-- What is recorded of an event for a submodule is nothing. -/
theorem Run.after_of_dest_ne (hdest : event.dest ≠ p.ownID) (s' : State S) :
    r.after p event s' = { r with state := s' } := by
  cases event with
  | pb dest type => rfl
  | std dest event =>
    have hne : dest ≠ p.ownID := hdest
    cases event with
    | newSubmodule id params retIdx => simp [Run.after, hne]
    | garbageCollect retIdx => simp [Run.after, hne]
    | _ => rfl

/-- One event keeps the retention exact. -/
theorem RunExact.after (h : RunExact r) (hlower : NotListedLower p r.state event)
    (happly : applyEvent p ord r.state event = .ok (s', out)) : RunExact (r.after p event s') := by
  rcases applyEvent_cases happly with ⟨hdest, rfl, -⟩ | ⟨hdest, s₁, out₁, hflush, hcases⟩
  · rw [Run.after_of_dest_ne hdest]
    exact h.congr (sameModules_bufferSubmoduleEvent _ _)
  have hsame := sameModules_applySubmodulesEvents hflush
  have h₁ : RunExact { r with state := s₁ } := h.congr hsame
  rcases hcases with ⟨dest, rfl, rfl, -⟩ | ⟨dest, id, params, retIdx, out₂, rfl, hnew, -⟩ |
    ⟨dest, retIdx, rfl, rfl, -⟩
  · exact h₁
  · have hown : dest = p.ownID := hdest
    rcases newSubmodule_cases hnew with ⟨hlt, rfl, -⟩ |
      ⟨hle, submodule, initialized, results, -, -, rfl, -⟩
    · -- the retention index is too low, and the event is not accepted
      have hrej : ¬ (dest = p.ownID ∧ r.state.retIdx ≤ retIdx) := by
        rw [← hsame.retIdx]
        exact fun hacc => UInt64.lt_irrefl _ (UInt64.lt_of_lt_of_le hlt hacc.2)
      have hafter : r.after p (.std dest (.newSubmodule id params retIdx)) s' =
          { r with state := s' } := by
        simp only [Run.after, if_neg hrej]
      rw [hafter]
      exact h₁
    · have hle' : r.state.retIdx ≤ retIdx := hsame.retIdx ▸ hle
      have hafter : (r.after p (.std dest (.newSubmodule id params retIdx))
          (created s₁ id retIdx submodule initialized results)).accepted =
            r.accepted ++ [(id, retIdx)] := if_pos ⟨hown, hle'⟩
      refine ⟨?_, h₁.collected_le, h₁.retIdx_collected⟩
      rw [hafter]
      refine h₁.exact.created hle (fun i hi => ?_) submodule initialized results
      exact hlower hown hle' i (hsame.listedAt i ▸ hi)
  · have hown : dest = p.ownID := hdest
    obtain ⟨hexact, hidx⟩ := h₁.exact.garbageCollect retIdx
    have hafter : (r.after p (.std dest (.garbageCollect retIdx))
        (garbageCollect s₁ retIdx)).collected = r.collected ++ [retIdx] := if_pos hown
    refine ⟨hexact, fun g hg => ?_, ?_⟩
    · change g ≤ (garbageCollect s₁ retIdx).retIdx
      rw [hafter] at hg
      rw [hidx]
      rcases List.mem_append.mp hg with hold | hnew
      · have hg₁ : g ≤ s₁.retIdx := h₁.collected_le g hold
        split
        next hlt => exact UInt64.le_trans hg₁ (UInt64.le_of_lt hlt)
        next => exact hg₁
      · obtain rfl := List.mem_singleton.mp hnew
        split
        next => exact UInt64.le_refl _
        next hle => exact UInt64.not_lt.mp hle
    · change (garbageCollect s₁ retIdx).retIdx = 0 ∨ (garbageCollect s₁ retIdx).retIdx ∈ _
      rw [hafter, hidx]
      split
      next => exact Or.inr (List.mem_append_right _ (List.mem_singleton.mpr rfl))
      next => exact h₁.retIdx_collected.imp_right fun hmem => List.mem_append_left _ hmem

theorem Run.Reachable.runExact (h : Run.Reachable p (NotListedLower p) r) : RunExact r := by
  induction h with
  | init => exact ⟨exact_init p, nofun, Or.inl rfl⟩
  | event _ hlower happly ih => exact ih.after hlower happly
  | flush _ hflush ih => exact ih.congr (sameModules_applySubmodulesEvents hflush)

/-- A submodule exists if and only if its latest retention index is at least every index that was
garbage-collected. -/
def RetentionExact (r : Run S) : Prop :=
  ∀ id, id ∈ r.state.submodules ↔
    ∃ retIdx, latest id r.accepted = some retIdx ∧ ∀ g ∈ r.collected, g ≤ retIdx

theorem State.exists_number?_iff (s : State S) (id : ModuleID) :
    (∃ n, s.number? id = some n) ↔ id ∈ s.submodules := by
  rw [← AList.lookup_isSome, Option.isSome_iff_exists]
  constructor
  · rintro ⟨n, hn⟩
    obtain ⟨submodule, hlookup, -⟩ := Option.map_eq_some_iff.mp hn
    exact ⟨submodule, hlookup⟩
  · rintro ⟨submodule, hlookup⟩
    exact ⟨submodule.number, Option.map_eq_some_iff.mpr ⟨submodule, hlookup, rfl⟩⟩

/-- **Retention is exact** in every run in which no submodule is created while its identifier is
listed under a lower retention index. -/
theorem submodules_retained (p : ModuleParams S) (r : Run S)
    (h : Run.Reachable p (NotListedLower p) r) : RetentionExact r := by
  intro id
  have hr := h.runExact
  rw [← State.exists_number?_iff, hr.exact.exists_iff]
  -- the retention index of the state stands for all indices that were collected
  refine exists_congr fun retIdx => and_congr_right fun _ => ⟨fun hle g hg => ?_, fun hall => ?_⟩
  · exact UInt64.le_trans (hr.collected_le g hg) hle
  · rcases hr.retIdx_collected with hzero | hmem
    · rw [hzero]
      exact UInt64.zero_le
    · exact hall _ hmem

/-- Apply an event that passes a test. -/
def Run.next? (p : ModuleParams S) (allow : State S → Event → Bool) (r : Run S) (event : Event) :
    Option (Run S) :=
  attempt (allow r.state event = true) (applyEvent p .listed r.state event) fun applied =>
    r.after p event applied.1

theorem Run.exists_reachable {P : State S → Event → Prop} {allow : State S → Event → Bool}
    {events : List Event} {Q : Run S → Prop} [DecidablePred Q]
    (hallow : ∀ s event, allow s event = true → P s event)
    (h : (events.foldlM (next? p allow) (.init p)).any (fun r => Q r) = true) :
    ∃ r, Reachable p P r ∧ Q r := by
  refine exists_of_steps h .init fun _ hr hnext => ?_
  obtain ⟨hpass, applied, happly, rfl⟩ := attempt_eq_some.mp hnext
  exact hr.event (hallow _ _ hpass) happly

/-- The identifier of a submodule that is created is listed nowhere. -/
def notListed (s : State S) : Event → Bool
  | .std _ (.newSubmodule id _ _) => s.moduleRetention.keys.all fun i => id ∉ s.listedAt i
  | _ => true

theorem notListedLower_of_notListed (s : State S) (event : Event) (h : notListed s event = true) :
    NotListedLower p s event := by
  cases event with
  | pb dest type => trivial
  | std dest event =>
    cases event with
    | newSubmodule id params retIdx =>
      intro _ _ i hi
      by_cases hkey : i ∈ s.moduleRetention
      · exact absurd hi (of_decide_eq_true (List.all_eq_true.mp h i (AList.mem_keys.mp hkey)))
      · rw [State.listedAt, AList.lookup_eq_none.mpr hkey] at hi
        cases hi
    | _ => trivial

/-- A factory whose submodules do nothing. -/
def silentParams : ModuleParams Unit where
  ownID := [102]
  generator _ _ := .ok ()
  applyEvents s _ := .ok (s, [])
  msgBufSize := 0
  protoSize _ := 0

/-- A submodule of `silentParams`. -/
def silentID : ModuleID := [102, 47, 97]

/-- A submodule is created, deleted when index 2 is collected, and created again. Another one is deleted
when index 4 is collected. -/
theorem submodules_retained_recreated : ∃ r : Run Unit,
    Run.Reachable silentParams (NotListedLower silentParams) r ∧ RetentionExact r ∧
      r.accepted = [(silentID, 1), ([102, 47, 98], 3), (silentID, 5)] ∧ r.collected = [2, 4] ∧
      r.state.submodules.keys = [silentID] := by
  obtain ⟨r, hr, htest⟩ := Run.exists_reachable notListedLower_of_notListed (by decide +kernel :
    ([.std [102] (.newSubmodule silentID [] 1), .std [102] (.newSubmodule [102, 47, 98] [] 3),
      .std [102] (.garbageCollect 2), .std [102] (.newSubmodule silentID [] 5),
      .std [102] (.garbageCollect 4)].foldlM (Run.next? silentParams notListed)
        (.init silentParams)).any (fun r => r.accepted = [(silentID, 1), ([102, 47, 98], 3), (silentID, 5)] ∧
          r.collected = [2, 4] ∧ r.state.submodules.keys = [silentID]) = true)
  exact ⟨r, hr, submodules_retained silentParams r hr, htest⟩

/-- A submodule that is created under index 0 and again under index 5 is deleted when index 1 is
collected. -/
theorem deleted_with_old_index : ¬ ∀ (p : ModuleParams Unit) (r : Run Unit),
    Run.Reachable p (fun _ _ => True) r → RetentionExact r := by
  intro hall
  obtain ⟨r, hr, hlatest, hcollected, hnone⟩ :=
    Run.exists_reachable (P := fun _ _ => True) (fun _ _ _ => trivial) (by decide +kernel :
      ([.std [102] (.newSubmodule silentID [] 0), .std [102] (.newSubmodule silentID [] 5),
        .std [102] (.garbageCollect 1)].foldlM (Run.next? silentParams fun _ _ => true)
          (.init silentParams)).any (fun r => latest silentID r.accepted = some 5 ∧ r.collected = [1] ∧
            silentID ∉ r.state.submodules.keys) = true)
  refine hnone ((hall silentParams r hr silentID).mpr ⟨5, hlatest, ?_⟩)
  simp [hcollected]

end Mir.Factory
