import Mir.Trantor.Membership

/-!
# The laws of quorums

What every protocol of the system takes for granted about `membutil`'s quorums (`QuorumLaws`).
`Valid` reads weights as integers of either sign and refuses only a total of zero, so the laws do
not hold for every membership it accepts: with weights 4, 4 and -3 the first two members are
disjoint strong quorums. `quorumLaws_iff` says for which memberships they hold: the total is
positive, and no set of members without negative weights falls below a quorum's threshold when all
members of negative weight join it.
-/

namespace Mir.Membership

open WeightedQuorum

variable {m : Membership}

/-- A set of members, as a duplicate-free list. -/
structure MemberSet (m : Membership) (ids : List NodeID) : Prop where
  nodup : ids.Nodup
  members : ∀ id ∈ ids, id ∈ m.nodes.keys

/-- **The laws of quorums** for a membership of total weight `n`. -/
structure QuorumLaws (m : Membership) (n : ℤ) : Prop where
  total : m.totalWeight = .ok n
  nonneg : 0 ≤ maxFaulty n
  largest : 3 * maxFaulty n < n ∧ ∀ f, 3 * f < n → f ≤ maxFaulty n
  /-- Two strong quorums share more than `f`. -/
  intersect : ∀ A B, MemberSet m A → MemberSet m B → m.haveStrongQuorum A = .ok true →
    m.haveStrongQuorum B = .ok true →
    ∃ x, m.weightOf (A.filter fun id => id ∈ B) = .ok x ∧ maxFaulty n < x
  /-- A weak quorum weighs more than `f`. -/
  weak : ∀ A, MemberSet m A → m.haveWeakQuorum A = .ok true →
    ∃ x, m.weightOf A = .ok x ∧ maxFaulty n < x
  strong_weak : ∀ A, MemberSet m A → m.haveStrongQuorum A = .ok true →
    m.haveWeakQuorum A = .ok true
  /-- Without members of weight at most `f`, the others are a strong quorum. -/
  remove : ∀ A x, MemberSet m A → m.weightOf A = .ok x → x ≤ maxFaulty n →
    m.haveStrongQuorum (m.nodes.keys.filter fun id => id ∉ A) = .ok true
  superset : ∀ A B, MemberSet m A → MemberSet m B → A ⊆ B →
    (m.haveStrongQuorum A = .ok true → m.haveStrongQuorum B = .ok true) ∧
      (m.haveWeakQuorum A = .ok true → m.haveWeakQuorum B = .ok true)
  empty : m.haveStrongQuorum [] = .ok false ∧ m.haveWeakQuorum [] = .ok false

/-- The total weight is positive, and no set of members without negative weights loses a quorum
when all members of negative weight join it. -/
structure NegativesHarmless (m : Membership) : Prop where
  positive : 0 < weight m.w m.members
  strong : Absorbs m.members m.w ((weight m.w m.members + tolerance m.members m.w) / 2 + 1)
  weak : Absorbs m.members m.w (tolerance m.members m.w + 1)

/-! ### Quorum tests as thresholds -/

theorem MemberSet.subset {ids : List NodeID} (h : MemberSet m ids) : ids.toFinset ⊆ m.members :=
  toFinset_subset_members h.members

theorem memberSet_toList {A : Finset NodeID} (hA : A ⊆ m.members) : MemberSet m A.toList :=
  ⟨A.nodup_toList, fun _ hid => mem_members.mp (hA (Finset.mem_toList.mp hid))⟩

section Tests

variable (hm : m.Readable)

include hm

theorem MemberSet.weightOf {ids : List NodeID} (h : MemberSet m ids) :
    m.weightOf ids = .ok (weight m.w ids.toFinset) := by
  rw [weightOf_eq_ok hm h.members, sum_map_w_eq_weight m h.nodup]

theorem MemberSet.strong_iff {ids : List NodeID} (h : MemberSet m ids) :
    m.haveStrongQuorum ids = .ok true ↔
      (weight m.w m.members + tolerance m.members m.w) / 2 + 1 ≤ weight m.w ids.toFinset := by
  rw [haveStrongQuorum_iff hm h.members h.nodup]
  exact ⟨fun hs => hs.2, fun hle => ⟨h.subset, hle⟩⟩

theorem MemberSet.weak_iff {ids : List NodeID} (h : MemberSet m ids) :
    m.haveWeakQuorum ids = .ok true ↔
      tolerance m.members m.w + 1 ≤ weight m.w ids.toFinset := by
  rw [haveWeakQuorum_iff hm h.members h.nodup]
  exact ⟨fun hs => hs.2, fun hle => ⟨h.subset, hle⟩⟩

/-- A test that completes and does not succeed fails. -/
theorem haveQuorum_nil (hpos : 0 < weight m.w m.members) :
    m.haveStrongQuorum [] = .ok false ∧ m.haveWeakQuorum [] = .ok false := by
  have hset : MemberSet m [] := ⟨List.nodup_nil, fun id hid => absurd hid List.not_mem_nil⟩
  have hzero : weight m.w (List.toFinset ([] : List NodeID)) = 0 := rfl
  obtain ⟨s, hs, -⟩ := haveStrongQuorum_eq_ok hm hset.members hset.nodup
  obtain ⟨k, hk, -⟩ := haveWeakQuorum_eq_ok hm hset.members hset.nodup
  have hstrong := hset.strong_iff hm
  have hweak := hset.weak_iff hm
  rw [hs, hzero] at hstrong
  rw [hk, hzero] at hweak
  simp only [tolerance, faultBound, Except.ok.injEq] at hstrong hweak
  constructor
  · cases s with
    | true =>
      have hle := hstrong.mp rfl
      omega
    | false => exact hs
  · cases k with
    | true =>
      have hle := hweak.mp rfl
      omega
    | false => exact hk

/-! ### The laws -/

/-- The laws rule out the harm of negative weights: a superset of a quorum is one. -/
theorem QuorumLaws.negativesHarmless {n : ℤ} (h : QuorumLaws m n) : NegativesHarmless m := by
  have htotal := h.total
  rw [totalWeight_eq_ok hm, Except.ok.injEq] at htotal
  have hnonneg := h.nonneg
  rw [← htotal, maxFaulty] at hnonneg
  refine ⟨by omega, absorbs_iff.mpr fun A B hAB hB hq => ?_,
    absorbs_iff.mpr fun A B hAB hB hq => ?_⟩
  all_goals
    have hA := memberSet_toList (hAB.trans hB)
    have hB := memberSet_toList hB
    have hsub : A.toList ⊆ B.toList := fun id hid =>
      Finset.mem_toList.mpr (hAB (Finset.mem_toList.mp hid))
    have hsuper := h.superset _ _ hA hB hsub
    rw [← Finset.toList_toFinset A] at hq
    rw [← Finset.toList_toFinset B]
  · exact (hB.strong_iff hm).mp (hsuper.1 ((hA.strong_iff hm).mpr hq))
  · exact (hB.weak_iff hm).mp (hsuper.2 ((hA.weak_iff hm).mpr hq))

theorem NegativesHarmless.quorumLaws (h : NegativesHarmless m) :
    QuorumLaws m (weight m.w m.members) := by
  have hpos := h.positive
  have htol : maxFaulty (weight m.w m.members) = tolerance m.members m.w := rfl
  have hbound : tolerance m.members m.w = (weight m.w m.members - 1) / 3 := rfl
  refine ⟨totalWeight_eq_ok hm, ?_, ?_, fun A B hA hB hsA hsB => ?_, fun A hA hwA => ?_,
    fun A hA hsA => ?_, fun A x hA hx hle => ?_, fun A B hA hB hAB => ⟨fun hsA => ?_, fun hwA => ?_⟩,
    haveQuorum_nil hm hpos⟩
  · rw [maxFaulty]
    omega
  · rw [maxFaulty]
    refine ⟨by omega, fun f hf => by omega⟩
  · have hinter : MemberSet m (A.filter fun id => id ∈ B) :=
      ⟨hA.nodup.filter _, fun id hid => hA.members id (List.mem_of_mem_filter hid)⟩
    refine ⟨_, hinter.weightOf hm, ?_⟩
    have heq : (A.filter fun id => id ∈ B).toFinset = A.toFinset ∩ B.toFinset := by
      ext id
      simp
    rw [heq, htol]
    exact IsStrong.lt_weight_inter_of_absorbs h.strong ⟨hA.subset, (hA.strong_iff hm).mp hsA⟩
      ⟨hB.subset, (hB.strong_iff hm).mp hsB⟩
  · refine ⟨_, hA.weightOf hm, ?_⟩
    have hle := (hA.weak_iff hm).mp hwA
    omega
  · have hle := (hA.strong_iff hm).mp hsA
    refine (hA.weak_iff hm).mpr ?_
    omega
  · rw [hA.weightOf hm, Except.ok.injEq] at hx
    have hrest : MemberSet m (m.nodes.keys.filter fun id => id ∉ A) :=
      ⟨m.nodes.keys_nodup.filter _, fun id hid => List.mem_of_mem_filter hid⟩
    refine (hrest.strong_iff hm).mpr ?_
    have heq : (m.nodes.keys.filter fun id => id ∉ A).toFinset = m.members \ A.toFinset := by
      ext id
      simp
    have hsum : weight m.w (m.members \ A.toFinset) + weight m.w A.toFinset =
        weight m.w m.members := Finset.sum_sdiff hA.subset
    rw [heq]
    omega
  all_goals
    have hsub : A.toFinset ⊆ B.toFinset := fun id hid =>
      List.mem_toFinset.mpr (hAB (List.mem_toFinset.mp hid))
  · exact (hB.strong_iff hm).mpr (absorbs_iff.mp h.strong _ _ hsub hB.subset
      ((hA.strong_iff hm).mp hsA))
  · exact (hB.weak_iff hm).mpr (absorbs_iff.mp h.weak _ _ hsub hB.subset
      ((hA.weak_iff hm).mp hwA))

end Tests

/-- Weights that are not negative do no harm. -/
theorem negativesHarmless_of_nonNeg (hnn : m.NonNeg) (hpos : 0 < weight m.w m.members) :
    NegativesHarmless m :=
  ⟨hpos, absorbs_of_nonneg hnn _, absorbs_of_nonneg hnn _⟩

/-- **The laws of quorums** hold for a valid membership exactly if its negative weights do no
harm. -/
theorem quorumLaws_iff (m : Membership) (hv : m.valid = none) :
    (∃ n, QuorumLaws m n) ↔ NegativesHarmless m :=
  ⟨fun ⟨_, h⟩ => h.negativesHarmless (readable_of_valid hv),
    fun h => ⟨_, h.quorumLaws (readable_of_valid hv)⟩⟩

/-- The laws hold for four members of weight one. -/
theorem quorumLaws_fourMembers :
    ∃ n, QuorumLaws (ofWeights [([97], [49]), ([98], [49]), ([99], [49]), ([100], [49])]) n := by
  refine (quorumLaws_iff _ (by decide +kernel)).mpr
    (negativesHarmless_of_nonNeg ?_ (by decide +kernel))
  unfold NonNeg
  decide +kernel

/-- Members of weights 4, 4 and -3: the total is five, and a weight of four is a strong quorum. -/
def signedWeights : Membership := ofWeights [([97], [52]), ([98], [52]), ([99], [45, 51])]

/-- **A valid membership may have disjoint strong quorums.** -/
theorem disjoint_strong_quorums : ¬ ∀ m : Membership, m.valid = none → ∃ n, QuorumLaws m n := by
  intro h
  obtain ⟨n, hlaws⟩ := h signedWeights (by decide +kernel)
  have hleft : MemberSet signedWeights [[97]] := ⟨by decide +kernel, by decide +kernel⟩
  have hright : MemberSet signedWeights [[98]] := ⟨by decide +kernel, by decide +kernel⟩
  obtain ⟨x, hx, hlt⟩ := hlaws.intersect [[97]] [[98]] hleft hright (by decide +kernel)
    (by decide +kernel)
  have hnil : ([[97]] : List NodeID).filter (fun id => decide (id ∈ [[98]])) = [] := by decide
  rw [hnil] at hx
  cases hx
  have hnonneg := hlaws.nonneg
  omega

/-- Nodes that pass the weak-quorum test are not all faulty. -/
theorem exists_correct_of_haveWeakQuorum {ids : List NodeID} (hnd : ids.Nodup)
    (h : m.haveWeakQuorum ids = .ok true) {F : Finset NodeID} (hF : m.Tolerates F) :
    ∃ id ∈ ids, id ∉ F := by
  obtain ⟨w, hw, hrest⟩ := Fallible.bind_eq_ok.mp h
  obtain ⟨q, hq, -⟩ := Fallible.bind_eq_ok.mp hrest
  obtain ⟨n, hn, -⟩ := Fallible.bind_eq_ok.mp hq
  -- the test has read the weights of all members
  have hm := readable_of_totalWeight hn
  have hids : ∀ id ∈ ids, id ∈ m.nodes.keys := fun id hid => (mem_keys_of_weightOf hw id hid).1
  obtain ⟨id, hid, -, hidF⟩ :=
    exists_correct_of_isWeak hF ((haveWeakQuorum_iff hm hids hnd).mp h)
  exact ⟨id, List.mem_toFinset.mp hid, hidF⟩

/-! ### Proper memberships -/

/-- The memberships the protocols are meant for: readable weights that are not negative, with a
positive total. -/
structure Proper (m : Membership) : Prop where
  readable : m.Readable
  nonNeg : m.NonNeg
  positive : 0 < weight m.w m.members

/-- Members `a`, `b`, `c` and `d` of weight one. -/
def fourMembers : Membership :=
  ofWeights [([97], [49]), ([98], [49]), ([99], [49]), ([100], [49])]

theorem fourMembers_proper : fourMembers.Proper := by
  refine ⟨readable_of_valid (by decide +kernel), ?_, by decide +kernel⟩
  unfold NonNeg
  decide +kernel

end Mir.Membership

namespace Mir

instance : Countable NodeIdentity :=
  Function.Injective.countable (f := fun n => (n.id, n.addr, n.key, n.weight)) fun a b h => by
    cases a
    cases b
    simpa using h

instance : Countable Membership :=
  Function.Injective.countable (f := fun m => m.nodeMap.map AList.entries) fun _ _ h =>
    congrArg Membership.mk (Option.map_injective (fun _ _ => AList.ext) h)

end Mir
