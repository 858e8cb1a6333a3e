import Mir.Iss.LeaderPolicy

/-!
# When the suspicion history determines the leaders

Every node computes the leaders of an epoch on its own, so `Leaders` should depend on nothing but
the suspicions between reconfigurations. The policy itself does: it records the log of the history
(`records_run`), and the log depends only on these multisets (`SuspicionLog.run_eq_replay`). The
returned list does not: nodes last suspected in the same epoch compare as equal, and the sort leaves
them in any order. `leadersAgree_iff` says when this is harmless: the suspicions separate a strong
quorum from the rest.
-/

namespace Mir.Iss

open Sorting

open Mir.Membership (fourMembers fourMembers_proper)

/-! ### Histories up to order and round trips -/

/-- Suspicions, in any order. -/
abbrev Suspicions := Multiset (EpochNr × NodeID)

/-- The suspicions before the first reconfiguration, and each new membership with the suspicions
that follow it. -/
def stages : List PolicyCall → Suspicions × List (Membership × Suspicions)
  | [] => (0, [])
  | .suspect e node :: cs => ((e, node) ::ₘ (stages cs).1, (stages cs).2)
  | .reconfigure m :: cs => (0, (m, (stages cs).1) :: (stages cs).2)
  | .roundTrip :: cs => stages cs

namespace SuspicionLog

variable {log : SuspicionLog}

/-- Add suspicions, all at once. -/
def addAll (log : SuspicionLog) (σ : Suspicions) : SuspicionLog :=
  { log with
    epochs := fun id =>
      if id ∈ log.membership.nodes.keys then
        log.epochs id + (σ.filter fun x => x.2 = id).map Prod.fst
      else log.epochs id }

/-- The log of a history, from its stages. -/
def replay (log : SuspicionLog) (st : Suspicions × List (Membership × Suspicions)) :
    SuspicionLog :=
  st.2.foldl (fun log x => (log.call (.reconfigure x.1)).addAll x.2) (log.addAll st.1)

theorem addAll_zero (log : SuspicionLog) : log.addAll 0 = log := by
  simp [addAll]

theorem addAll_cons (log : SuspicionLog) (e : EpochNr) (node : NodeID) (σ : Suspicions) :
    (log.call (.suspect e node)).addAll σ = log.addAll ((e, node) ::ₘ σ) := by
  by_cases hmem : node ∈ log.membership.nodes.keys
  · rw [call, if_pos hmem, addAll, addAll]
    congr 1
    funext id
    by_cases hid : id = node
    · subst hid
      simp [hmem, ← Multiset.add_cons]
    · have hne : node ≠ id := fun h => hid h.symm
      simp [hid, hne]
  · rw [call, if_neg hmem, addAll, addAll]
    congr 1
    funext id
    by_cases hid : id ∈ log.membership.nodes.keys
    · have hne : node ≠ id := fun h => hmem (h ▸ hid)
      simp [hid, hne]
    · simp [hid]

/-- **The log depends only on the stages of the history.** -/
theorem run_eq_replay (log : SuspicionLog) (cs : List PolicyCall) :
    log.run cs = log.replay (stages cs) := by
  induction cs generalizing log with
  | nil => exact (addAll_zero log).symm
  | cons c cs ih =>
    have hstep : log.run (c :: cs) = (log.call c).run cs := rfl
    rw [hstep, ih]
    cases c with
    | suspect e node => rw [stages, replay, replay, addAll_cons]
    | reconfigure m => rw [stages, replay, replay, addAll_zero, List.foldl_cons]
    | roundTrip => rfl

/-- `a` comes strictly before `b`: both were never suspected and `a` has the smaller name, or `b`
was suspected later than `a`. -/
def Earlier (log : SuspicionLog) (a b : NodeID) : Prop :=
  (log.epochs a = 0 ∧ log.epochs b = 0 ∧ a < b) ∨
    ∃ e ∈ log.epochs b, ∀ e' ∈ log.epochs a, e' < e

/-- The suspicions **separate** a list of members: they put it in its order, and before all other
members. -/
structure Separates (log : SuspicionLog) (ps : List NodeID) : Prop where
  members : ∀ a ∈ ps, a ∈ log.membership.nodes.keys
  sorted : ps.Pairwise log.Earlier
  below : ∀ a ∈ ps, ∀ b ∈ log.membership.nodes.keys, b ∉ ps → log.Earlier a b

end SuspicionLog

namespace BlacklistLeaderPolicy

variable {l : BlacklistLeaderPolicy} {log : SuspicionLog} {ids : List NodeID}

/-- The comparison of a policy that records a log. -/
theorem Records.before_iff (h : l.Records log) {a b : NodeID} :
    before l.le b a = true ↔ log.Earlier a b := by
  have ha := h.latest a
  have hb := h.latest b
  rw [before, le, Bool.not_not, less, SuspicionLog.Earlier]
  cases hla : l.lastSuspected a with
  | none =>
    rw [hla] at ha
    have hzero : log.epochs a = 0 := ha
    cases hlb : l.lastSuspected b with
    | none =>
      rw [hlb] at hb
      have hzero' : log.epochs b = 0 := hb
      simp [hzero, hzero']
    | some e =>
      rw [hlb] at hb
      simpa [hzero] using .inr ⟨e, hb.1⟩
  | some e =>
    rw [hla] at ha
    have hne : log.epochs a ≠ 0 := fun hzero => Multiset.notMem_zero e (hzero ▸ ha.1)
    cases hlb : l.lastSuspected b with
    | none =>
      rw [hlb] at hb
      have hzero' : log.epochs b = 0 := hb
      simp [hne, hzero']
    | some e₂ =>
      rw [hlb] at hb
      simp only [decide_eq_true_eq, hne, false_and, false_or]
      constructor
      · exact fun hlt => ⟨e₂, hb.1, fun e' he' => UInt64.lt_of_le_of_lt (ha.2 e' he') hlt⟩
      · rintro ⟨e', he', hall⟩
        exact UInt64.lt_of_lt_of_le (hall e ha.1) (hb.2 e' he')

/-! ### A separated strong quorum determines the leaders -/

/-- The loop does not look beyond the first strong quorum. -/
theorem minLeaders_append {m : Membership} {taken ps : List NodeID} {k : ℕ}
    (h : minLeaders m taken ps = .ok k) (rest : List NodeID) :
    minLeaders m taken (ps ++ rest) = .ok k := by
  induction ps generalizing taken with
  | nil => cases h
  | cons id ps ih =>
    obtain ⟨b, hb, hrest⟩ := Fallible.bind_eq_ok.mp h
    cases b with
    | true => simpa [minLeaders, hb] using hrest
    | false =>
      have hrec : minLeaders m (taken ++ [id]) (ps ++ rest) = .ok k := ih hrest
      simpa [minLeaders, hb] using hrec

/-- The never suspected nodes come first, in one order. -/
theorem Records.take_unsuspected {ids' : List NodeID}
    (hids : Arrangement l.le log.membership.nodes.keys ids)
    (hids' : Arrangement l.le log.membership.nodes.keys ids') :
    ids'.take (l.unsuspected ids).length = l.unsuspected ids := by
  have hnodup : ids.Nodup := hids.perm.nodup_iff.mpr log.membership.nodes.keys_nodup
  have hmem : ∀ a ∈ l.unsuspected ids, a ∈ ids ∧ l.lastSuspected a = none := by
    intro a ha
    obtain ⟨hmem, hnone⟩ := List.mem_filter.mp ha
    exact ⟨hmem, Option.isNone_iff_eq_none.mp hnone⟩
  have hstrict : (l.unsuspected ids).Pairwise fun a b => before l.le b a := by
    refine ((hids.sorted.and hnodup).sublist List.filter_sublist).imp_of_mem
      fun {a b} ha _ hab => ?_
    exact before_of_unsuspected (hmem a ha).2 hab.2 hab.1
  have happend := hids'.eq_append_of_strict (totalPreorder_le l) log.membership.nodes.keys_nodup
    hstrict (fun a ha => hids.perm.mem_iff.mp (hmem a ha).1) fun a ha b hb hnot => ?_
  · exact (congrArg _ happend).trans List.take_left
  · have hsuspected : l.lastSuspected b ≠ none := fun hnone =>
      hnot (List.mem_filter.mpr ⟨hids.perm.mem_iff.mpr hb, by simp [hnone]⟩)
    rw [before, Bool.not_eq_true', ← Bool.not_eq_true, le_iff, (hmem a ha).2]
    obtain ⟨e, he⟩ := Option.ne_none_iff_exists'.mp hsuspected
    simp [he]

end BlacklistLeaderPolicy

/-- A membership for which a strong quorum can be tested is readable. -/
theorem readable_of_haveStrongQuorum {m : Membership} {ids : List NodeID} {b : Bool}
    (h : m.haveStrongQuorum ids = .ok b) : m.Readable := by
  obtain ⟨w, -, hrest⟩ := Fallible.bind_eq_ok.mp h
  obtain ⟨q, hq, -⟩ := Fallible.bind_eq_ok.mp hrest
  obtain ⟨n, hn, -⟩ := Fallible.bind_eq_ok.mp hq
  exact Membership.readable_of_totalWeight hn

namespace BlacklistLeaderPolicy

variable {l : BlacklistLeaderPolicy} {log : SuspicionLog} {ids : List NodeID}

/-- **A separated strong quorum determines the leaders.** -/
theorem Records.leaders_unique_of_separates (h : l.Records log) {ps : List NodeID} (hne : ps ≠ [])
    (hps : log.Separates ps) (hstrong : log.membership.haveStrongQuorum ps = .ok true) :
    ∃ ls, ∀ ids, Arrangement l.le log.membership.nodes.keys ids → l.leaders ids = .ok ls := by
  have hreadable := readable_of_haveStrongQuorum hstrong
  have hstrict : ps.Pairwise fun a b => before l.le b a :=
    hps.sorted.imp fun hab => h.before_iff.mpr hab
  have hnodup : ps.Nodup := hstrict.imp fun {a b} hab heq => by
    subst heq
    simp [before, (totalPreorder_le l).refl] at hab
  -- every arrangement starts with `ps`, so the loop stops at the same place
  have hstart : ∀ ids, Arrangement l.le log.membership.nodes.keys ids → ∃ rest, ids = ps ++ rest :=
    fun ids hids => ⟨_, hids.eq_append_of_strict (totalPreorder_le l)
      log.membership.nodes.keys_nodup hstrict hps.members
      fun a ha b hb hnot => h.before_iff.mpr (hps.below a ha b hb hnot)⟩
  obtain ⟨k, hk⟩ : ∃ k, minLeaders log.membership [] ps = .ok k := by
    refine minLeaders_completes hne (fun j => ?_) hstrong
    obtain ⟨b, hb, -⟩ := Membership.haveStrongQuorum_eq_ok hreadable
      (fun id hid => hps.members id (List.mem_of_mem_take hid))
      (hnodup.sublist (List.take_sublist j ps))
    exact ⟨b, hb⟩
  obtain ⟨j, -, hle, rfl, -, -⟩ := minLeaders_eq_ok hk
  simp only [List.length_nil, Nat.zero_add] at hk
  obtain ⟨ids₀, hids₀⟩ := exists_arrangement (totalPreorder_le l) log.membership.nodes.keys
  refine ⟨ids₀.take (max (l.unsuspected ids₀).length j), fun ids hids => ?_⟩
  obtain ⟨rest, hrest⟩ := hstart ids hids
  obtain ⟨rest₀, hrest₀⟩ := hstart ids₀ hids₀
  refine (h.leaders_eq_ok hids.perm).mpr ⟨j, hrest ▸ minLeaders_append hk rest, ?_⟩
  have hlen : (l.unsuspected ids).length = (l.unsuspected ids₀).length := by
    rw [h.length_unsuspected hids.perm, h.length_unsuspected hids₀.perm]
  rw [hlen]
  rcases le_total j (l.unsuspected ids₀).length with hcase | hcase
  · rw [max_eq_left hcase, Records.take_unsuspected hids₀ hids, Records.take_unsuspected hids₀ hids₀]
  · rw [max_eq_right hcase, hrest, hrest₀, List.take_append_of_le_length hle,
      List.take_append_of_le_length hle]

/-- **Determined leaders come from a separated strong quorum**: the beginning of the list at which
the loop stops. -/
theorem Records.exists_separates_of_unique (h : l.Records log) {ls : List NodeID}
    (hls : ∀ ids, Arrangement l.le log.membership.nodes.keys ids → l.leaders ids = .ok ls) :
    ∃ ps, ps ≠ [] ∧ log.Separates ps ∧ log.membership.haveStrongQuorum ps = .ok true := by
  obtain ⟨ids, hids⟩ := exists_arrangement (totalPreorder_le l) log.membership.nodes.keys
  obtain ⟨k, hk, hlist⟩ := (h.leaders_eq_ok hids.perm).mp (hls ids hids)
  obtain ⟨j, hj, hle, rfl, hstrong, -⟩ := minLeaders_eq_ok hk
  simp only [List.length_nil, Nat.zero_add, List.nil_append] at hlist hstrong
  have hnodup : ids.Nodup := hids.perm.nodup_iff.mpr log.membership.nodes.keys_nodup
  -- a tie with one of the first `j` nodes would show in the result
  have hstrict : ∀ a ∈ ids.take j, ∀ b ∈ ids, a ≠ b → l.le a b → log.Earlier a b := by
    intro a ha b hb hab hle'
    rw [← h.before_iff, before, Bool.not_eq_true', ← Bool.not_eq_true]
    intro hba
    obtain ⟨n, hn, rfl⟩ := List.mem_take_iff_getElem.mp ha
    obtain ⟨ids', hids', i, hi, hdiffer⟩ := hids.exists_differing (totalPreorder_le l)
      (List.getElem?_eq_getElem (by omega)) hb hab (by rw [tied, hle', hba]; rfl)
    obtain ⟨k', -, hlist'⟩ := (h.leaders_eq_ok hids'.perm).mp (hls ids' hids')
    have hlen := congrArg List.length (hlist.symm.trans hlist')
    rw [List.length_take, List.length_take] at hlen
    have hget := congrArg (fun l => l[i]?) (hlist.symm.trans hlist')
    rw [List.getElem?_take_of_lt (by omega), List.getElem?_take_of_lt (by omega)] at hget
    exact hdiffer hget
  refine ⟨ids.take j, ?_, ⟨fun a ha => ?_, ?_, fun a ha b hb hnot => ?_⟩, hstrong⟩
  · exact List.ne_nil_of_length_pos (by rw [List.length_take]; omega)
  · exact hids.perm.mem_iff.mp (List.mem_of_mem_take ha)
  · refine ((hids.sorted.and hnodup).sublist (List.take_sublist j ids)).imp_of_mem
      fun {a b} ha hb hab => ?_
    exact hstrict a ha b (List.mem_of_mem_take hb) hab.2 hab.1
  · have hmem := hids.perm.mem_iff.mpr hb
    have hdrop : b ∈ ids.drop j := by
      rw [← List.take_append_drop j ids, List.mem_append] at hmem
      exact hmem.resolve_left hnot
    have hsorted := hids.sorted
    rw [← List.take_append_drop j ids] at hsorted
    exact hstrict a ha b hmem (fun heq => hnot (heq ▸ ha))
      ((List.pairwise_append.mp hsorted).2.2 a ha b hdrop)

end BlacklistLeaderPolicy

/-- **Leaders agree**: after every history with the same stages, and for every order in which the
sort may leave the members, `Leaders` returns the same list. -/
def LeadersAgree (codec : PolicyCodec) (m : Membership) (cs : List PolicyCall) : Prop :=
  ∃ ls, ∀ cs', stages cs' = stages cs →
    ∃ l, LeaderPolicy.run codec (.blacklist (.new m)) cs' = .ok (.blacklist l) ∧
      ∀ ids, Arrangement l.le ((SuspicionLog.new m).run cs').membership.nodes.keys ids →
        LeaderPolicy.leaders (.blacklist l) ids = .ok ls

/-- **The history determines the leaders** exactly if its suspicions separate a strong quorum from
the other members. -/
theorem leadersAgree_iff (codec : PolicyCodec) (m : Membership) (cs : List PolicyCall) :
    LeadersAgree codec m cs ↔
      ∃ ps, ps ≠ [] ∧ ((SuspicionLog.new m).run cs).Separates ps ∧
        ((SuspicionLog.new m).run cs).membership.haveStrongQuorum ps = .ok true := by
  constructor
  · rintro ⟨ls, hls⟩
    obtain ⟨l, hrun, hleaders⟩ := hls cs rfl
    obtain ⟨l', hrun', hl'⟩ := records_run codec cs (BlacklistLeaderPolicy.records_new m)
    rw [hrun'] at hrun
    cases hrun
    exact hl'.exists_separates_of_unique hleaders
  · rintro ⟨ps, hne, hps, hstrong⟩
    obtain ⟨l, hrun, hl⟩ := records_run codec cs (BlacklistLeaderPolicy.records_new m)
    obtain ⟨ls, hls⟩ := hl.leaders_unique_of_separates hne hps hstrong
    refine ⟨ls, fun cs' hcs' => ?_⟩
    obtain ⟨l', hrun', hl'⟩ := records_run codec cs' (BlacklistLeaderPolicy.records_new m)
    have hlog : (SuspicionLog.new m).run cs' = (SuspicionLog.new m).run cs := by
      rw [SuspicionLog.run_eq_replay, SuspicionLog.run_eq_replay, hcs']
    rw [hlog] at hl' ⊢
    rw [hl'.unique hl] at hrun'
    exact ⟨l, hrun', hls⟩

/-- The policy of `fourMembers` after `a` and `b` were suspected in epoch 1. -/
def tiedPolicy : BlacklistLeaderPolicy :=
  ⟨some fourMembers, some ((Finmap.insert [97] 1 ∅).insert [98] 1)⟩

/-- **Nodes suspected in the same epoch may lead in either order**, or one in the place of the
other. -/
theorem leaders_order_ambiguous : ¬ ∀ codec m cs, m.Proper →
    (∀ m', .reconfigure m' ∈ cs → m'.Proper) → LeadersAgree codec m cs := by
  intro h
  obtain ⟨codec⟩ := exists_policyCodec
  obtain ⟨ls, hls⟩ := h codec fourMembers [.suspect 1 [97], .suspect 1 [98]] fourMembers_proper
    (by simp)
  obtain ⟨l, hrun, hleaders⟩ := hls _ rfl
  have hmemA : [97] ∈ fourMembers.nodes.keys := by decide +kernel
  have hmemB : [98] ∈ fourMembers.nodes.keys := by decide +kernel
  have hfirst : (BlacklistLeaderPolicy.new fourMembers).suspect 1 [97] =
      .ok ⟨some fourMembers, some (Finmap.insert [97] 1 ∅)⟩ := by
    simp [BlacklistLeaderPolicy.suspect, BlacklistLeaderPolicy.new,
      BlacklistLeaderPolicy.lastSuspected, deref, hmemA]
  have hsecond : BlacklistLeaderPolicy.suspect ⟨some fourMembers, some (Finmap.insert [97] 1 ∅)⟩ 1
      [98] = .ok tiedPolicy := by
    simp [BlacklistLeaderPolicy.suspect, BlacklistLeaderPolicy.lastSuspected, deref, hmemB,
      tiedPolicy]
  simp [LeaderPolicy.run, LeaderPolicy.call, LeaderPolicy.suspect, hfirst, hsecond] at hrun
  subst hrun
  have hone : tiedPolicy.leaders [[99], [100], [97], [98]] = .ok [[99], [100], [97]] := by
    decide +kernel
  have hother : tiedPolicy.leaders [[99], [100], [98], [97]] = .ok [[99], [100], [98]] := by
    decide +kernel
  have hls₁ := hleaders [[99], [100], [97], [98]] ⟨by decide +kernel, by decide +kernel⟩
  have hls₂ := hleaders [[99], [100], [98], [97]] ⟨by decide +kernel, by decide +kernel⟩
  rw [LeaderPolicy.leaders] at hls₁ hls₂
  rw [hone] at hls₁
  rw [hother, ← hls₁] at hls₂
  exact absurd hls₂ (by decide)

end Mir.Iss
