import Mir.Iss.Execution

/-!
# The sequence numbers of an epoch

The segments of an epoch with `n` leaders interleave: the one with index `k` has the sequence numbers
`first + k`, `first + k + n`, `first + k + 2 * n`, and so on, in 64-bit arithmetic (`segment_key`). In
every reachable instance the current epoch was started from the sequence number where the previous
one ended (`Reachable.started`), and its segments partition a non-empty interval exactly if
`SegmentLength` is positive, there is a leader, and the interval ends below `2 ^ 64`
(`epochPartitioned_iff`).
-/

namespace Mir.Iss

open Checkpoint

variable {env : Env} {sorts : Sorts} {i j : Instance} {first sn : SeqNr} {membership : Membership}
  {leaders : List NodeID}

/-! ### Interleaved segments -/

/-- The sequence number at distance `t` from the first one of an epoch. -/
def snAt (first : SeqNr) (t : ℕ) : SeqNr := first + t.toUInt64

/-- Distances are exact as long as the end of the range is below `2 ^ 64`. -/
theorem toNat_snAt {t : ℕ} (h : first.toNat + t < 2 ^ 64) :
    (snAt first t).toNat = first.toNat + t := by
  rw [snAt, UInt64.toNat_add, Nat.toUInt64_eq, UInt64.toNat_ofNat']
  omega

theorem mem_keys_fillProposals {step start : SeqNr} {n : ℕ} {seqNrs : GoMap SeqNr ByteSlice} :
    sn ∈ (fillProposals step n start seqNrs).keys ↔
      sn ∈ seqNrs.keys ∨ ∃ j < n, sn = start + j.toUInt64 * step := by
  induction n generalizing start seqNrs with
  | zero => simp [fillProposals]
  | succ n ih =>
    have hshift : ∀ j : ℕ, start + (j + 1).toUInt64 * step = start + step + j.toUInt64 * step := by
      intro j
      rw [Nat.toUInt64_eq, UInt64.ofNat_add, UInt64.add_mul, Nat.toUInt64_eq, UInt64.ofNat_one,
        UInt64.one_mul, UInt64.add_comm (UInt64.ofNat j * step), UInt64.add_assoc]
    rw [fillProposals, ih, GoMap.mem_keys_insert]
    constructor
    · rintro ((rfl | hmem) | ⟨j, hj, rfl⟩)
      · exact .inr ⟨0, n.succ_pos, by simp⟩
      · exact .inl hmem
      · exact .inr ⟨j + 1, by omega, (hshift j).symm⟩
    · rintro (hmem | ⟨j, hj, rfl⟩)
      · exact .inl (.inr hmem)
      · rcases j with _ | j
        · exact .inl (.inl (by simp))
        · exact .inr ⟨j, by omega, hshift j⟩

/-- **The sequence numbers of a segment**: the one with index `k` of `n` takes every `n`-th one. -/
theorem segment_key {n k : ℕ} {leader : NodeID} :
    sn ∈ (segmentFor env first membership n k leader).proposals.keys ↔
      ∃ j < env.segmentLength, sn = snAt first (k + j * n) := by
  have hat : ∀ j : ℕ, first + k.toUInt64 + j.toUInt64 * n.toUInt64 = snAt first (k + j * n) := by
    intro j
    rw [snAt, UInt64.add_assoc, Nat.toUInt64_eq, Nat.toUInt64_eq, Nat.toUInt64_eq, Nat.toUInt64_eq,
      UInt64.ofNat_add, UInt64.ofNat_mul]
  simp [segmentFor, freeProposals, mem_keys_fillProposals, hat]

/-- Distances below the number of leaders times the segment length, by segment. -/
theorem exists_lt_iff_of_interleaved {n k t : ℕ} :
    (∃ a < n, ∃ b < k, t = a + b * n) ↔ t < n * k := by
  constructor
  · rintro ⟨a, ha, b, hb, rfl⟩
    calc a + b * n < n + b * n := by omega
      _ = n * (b + 1) := by ring
      _ ≤ n * k := Nat.mul_le_mul_left n hb
  · intro ht
    have hn : 0 < n := Nat.pos_of_ne_zero fun h => by simp [h] at ht
    refine ⟨t % n, Nat.mod_lt t hn, t / n, Nat.div_lt_of_lt_mul ht, ?_⟩
    rw [Nat.mul_comm, Nat.mod_add_div]

/-- The segment at a position of the list. -/
theorem segmentsFrom_getElem? {n index k : ℕ} :
    (segmentsFrom env first membership n index leaders)[k]? =
      leaders[k]?.map (segmentFor env first membership n (index + k)) := by
  induction leaders generalizing index k with
  | nil => simp [segmentsFrom]
  | cons leader rest ih =>
    cases k with
    | zero => simp [segmentsFrom]
    | succ k =>
      rw [segmentsFrom, List.getElem?_cons_succ, ih, List.getElem?_cons_succ]
      congr 2
      omega

theorem length_segmentsFrom {n index : ℕ} :
    (segmentsFrom env first membership n index leaders).length = leaders.length := by
  induction leaders generalizing index with
  | nil => rfl
  | cons leader rest ih => rw [segmentsFrom, List.length_cons, List.length_cons, ih]

/-- **The sequence numbers of an epoch**: those at a distance below the number of leaders times the
segment length. -/
theorem mem_segments_iff :
    (∃ seg ∈ segmentsFrom env first membership leaders.length 0 leaders,
        sn ∈ seg.proposals.keys) ↔
      ∃ t < leaders.length * env.segmentLength, sn = snAt first t := by
  constructor
  · rintro ⟨seg, hseg, hsn⟩
    obtain ⟨k, hk⟩ := List.mem_iff_getElem?.mp hseg
    rw [segmentsFrom_getElem?, Option.map_eq_some_iff] at hk
    obtain ⟨leader, hleader, rfl⟩ := hk
    obtain ⟨j, hj, rfl⟩ := segment_key.mp hsn
    have hlt : k < leaders.length := (List.getElem?_eq_some_iff.mp hleader).1
    rw [Nat.zero_add]
    exact ⟨k + j * leaders.length, exists_lt_iff_of_interleaved.mp ⟨k, hlt, j, hj, rfl⟩, rfl⟩
  · rintro ⟨t, ht, rfl⟩
    obtain ⟨k, hk, j, hj, rfl⟩ := exists_lt_iff_of_interleaved.mpr ht
    refine ⟨segmentFor env first membership leaders.length (0 + k) leaders[k], ?_, ?_⟩
    · refine List.mem_of_getElem? (i := k) ?_
      rw [segmentsFrom_getElem?, List.getElem?_eq_getElem hk, Option.map_some]
    · exact segment_key.mpr ⟨j, hj, by rw [Nat.zero_add]⟩

section Bounded

variable (hfit : first.toNat + leaders.length * env.segmentLength < 2 ^ 64)

include hfit

/-- Without overflow, a distance below the length of the epoch determines the sequence number. -/
theorem snAt_inj {s t : ℕ} (hs : s < leaders.length * env.segmentLength)
    (ht : t < leaders.length * env.segmentLength) (h : snAt first s = snAt first t) : s = t := by
  have hnat := congrArg UInt64.toNat h
  rw [toNat_snAt (by omega), toNat_snAt (by omega)] at hnat
  omega

theorem len_segmentFor {k : ℕ} (hk : k < leaders.length) (leader : NodeID) :
    (segmentFor env first membership leaders.length k leader).len = env.segmentLength := by
  set seg := segmentFor env first membership leaders.length k leader
  have hlt : ∀ j < env.segmentLength,
      k + j * leaders.length < leaders.length * env.segmentLength :=
    fun j hj => exists_lt_iff_of_interleaved.mp ⟨k, hk, j, hj, rfl⟩
  have hnodup : ((List.range env.segmentLength).map
      fun j => snAt first (k + j * leaders.length)).Nodup := by
    refine List.Nodup.map_on ?_ List.nodup_range
    intro a ha b hb hab
    rw [List.mem_range] at ha hb
    have hdist := snAt_inj hfit (hlt a ha) (hlt b hb) hab
    exact Nat.eq_of_mul_eq_mul_right (by omega : 0 < leaders.length) (by omega)
  have hperm : seg.proposals.keys.Perm ((List.range env.segmentLength).map
      fun j => snAt first (k + j * leaders.length)) := by
    refine (List.perm_ext_iff_of_nodup seg.proposals.keys_nodup hnodup).mpr fun sn => ?_
    rw [segment_key, List.mem_map]
    simp only [List.mem_range, eq_comm]
  have hlength := hperm.length_eq
  rw [List.length_map, List.length_range, AList.keys, List.keys, List.length_map] at hlength
  exact hlength

theorem sum_len_segmentsFrom :
    ((segmentsFrom env first membership leaders.length 0 leaders).map Segment.len).sum =
      leaders.length * env.segmentLength := by
  have hall : ∀ seg ∈ segmentsFrom env first membership leaders.length 0 leaders,
      seg.len = env.segmentLength := by
    intro seg hseg
    obtain ⟨k, hk⟩ := List.mem_iff_getElem?.mp hseg
    rw [segmentsFrom_getElem?, Option.map_eq_some_iff] at hk
    obtain ⟨leader, hleader, rfl⟩ := hk
    rw [Nat.zero_add]
    exact len_segmentFor hfit (List.getElem?_eq_some_iff.mp hleader).1 leader
  rw [List.map_congr_left hall, List.map_const', List.sum_replicate, length_segmentsFrom,
    smul_eq_mul]

theorem pairwise_disjoint_segmentsFrom :
    (segmentsFrom env first membership leaders.length 0 leaders).Pairwise fun a b =>
      ∀ sn, sn ∈ a.proposals.keys → sn ∉ b.proposals.keys := by
  rw [List.pairwise_iff_getElem]
  intro a b ha hb hab sn hsna hsnb
  have hget : ∀ k (hk : k < (segmentsFrom env first membership leaders.length 0 leaders).length),
      ∃ leader, (segmentsFrom env first membership leaders.length 0 leaders)[k] =
        segmentFor env first membership leaders.length k leader := by
    intro k hk
    have hsome := List.getElem?_eq_getElem hk
    rw [segmentsFrom_getElem?, Option.map_eq_some_iff, Nat.zero_add] at hsome
    obtain ⟨leader, -, hleader⟩ := hsome
    exact ⟨leader, hleader.symm⟩
  obtain ⟨l, hl⟩ := hget a ha
  obtain ⟨l', hl'⟩ := hget b hb
  rw [length_segmentsFrom] at ha hb
  rw [hl] at hsna
  rw [hl'] at hsnb
  obtain ⟨x, hx, rfl⟩ := segment_key.mp hsna
  obtain ⟨y, hy, hxy⟩ := segment_key.mp hsnb
  have hdist := snAt_inj hfit (exists_lt_iff_of_interleaved.mp ⟨a, ha, x, hx, rfl⟩)
    (exists_lt_iff_of_interleaved.mp ⟨b, hb, y, hy, rfl⟩) hxy
  -- Both distances have the same remainder modulo the number of leaders.
  have hmod := congrArg (· % leaders.length) hdist
  simp only [Nat.add_mul_mod_self_right, Nat.mod_eq_of_lt ha, Nat.mod_eq_of_lt hb] at hmod
  omega

end Bounded

/-! ### The epochs of a run -/

/-- The current epoch was started with the given leaders, and nothing has changed it since. -/
structure StartedWith (env : Env) (s : State) (leaders : List NodeID) : Prop where
  segments : s.epoch.segments =
    segmentsFrom env s.epoch.firstSN s.epoch.membership leaders.length 0 leaders
  newEpochSN : s.newEpochSN = snAt s.epoch.firstSN s.epoch.len

theorem startedWith_started {epochNr : EpochNr} (h : i.state.nextDeliveredSN = i.state.newEpochSN) :
    StartedWith env (i.started env epochNr membership leaders).state leaders := by
  constructor <;> simp [Instance.started, Instance.addAll, Instance.enterEpoch, EpochInfo.len, snAt, h]

/-- The current epoch was started with the leaders its policy named. -/
def Started (env : Env) (i : Instance) : Prop :=
  ∃ sort leaders, i.state.epoch.leaderPolicy.leadersBy sort = .ok leaders ∧
    StartedWith env i.state leaders

theorem started_of_startEpoch {epochNr : EpochNr}
    (h : i.state.nextDeliveredSN = i.state.newEpochSN)
    (hstart : startEpoch env sorts epochNr i = .ok j) : Started env j := by
  obtain ⟨membership, logged, leaders, rfl, -, -, hleaders, -⟩ := startEpoch_eq_ok_iff.mp hstart
  exact ⟨sorts.init, leaders, hleaders, startedWith_started h⟩

theorem started_of_init {startingChkp : StableCheckpoint} (hnew : new env startingChkp = .ok (some i))
    (hinit : uponInit env sorts i = .ok j) : Started env j := by
  obtain ⟨data, policy, epoch, memberships, rfl, -⟩ := new_eq_ok_some hnew
  obtain ⟨nr, -, hinit⟩ := Fallible.bind_eq_ok.mp hinit
  exact started_of_startEpoch rfl hinit

theorem started_of_advanceEpoch (hfin : i.state.epochFinished)
    (h : advanceEpoch env sorts i = .ok j) : Started env j := by
  obtain ⟨old, next, memberships, membership, leaders, rfl, -, -, -, -, hleaders⟩ :=
    advanceEpoch_eq_ok h
  exact ⟨sorts.init, leaders, hleaders,
    startedWith_started (i := i.shiftMemberships memberships membership) hfin.1⟩

theorem started_of_install {chkp : StableCheckpoint} {policy : LeaderPolicy}
    (h : install env sorts chkp policy i = .ok j) : Started env j := by
  obtain ⟨epoch, memberships, membership, leaders, rfl, -, -, -, hleaders, -⟩ := install_eq_ok h
  exact ⟨sorts.init, leaders, hleaders,
    startedWith_started (i := i.restore chkp policy memberships) rfl⟩

/-- Elementary steps start an epoch, or leave the current one as it is. -/
theorem Micro.epoch_cases {i₀ : Instance} {ev : Event} (h : Micro env sorts i₀ ev i j) :
    SameEpoch i j ∨
    (i.state.epochFinished ∧ advanceEpoch env sorts i = .ok j) ∨
    ∃ chkp policy, Iss.install env sorts chkp policy i = .ok j := by
  cases h with
  | advance hfin hj => exact .inr (.inl ⟨hfin, hj⟩)
  | install _ _ _ _ hj => exact .inr (.inr ⟨_, _, hj⟩)
  | suspect | commit | deliver | requestCert | stabilize | announce | quiet =>
    exact .inl ⟨rfl, rfl⟩

theorem Started.micro {i₀ : Instance} {ev : Event} (hi : Started env i)
    (hmicro : Micro env sorts i₀ ev i j) : Started env j := by
  obtain ⟨hepoch, hsn⟩ | ⟨hfin, hj⟩ | ⟨chkp, policy, hj⟩ := hmicro.epoch_cases
  · obtain ⟨sort, leaders, hleaders, hseg, hnew⟩ := hi
    exact ⟨sort, leaders, by rw [hepoch]; exact hleaders, by rw [hepoch]; exact hseg,
      by rw [hsn, hepoch]; exact hnew⟩
  · exact started_of_advanceEpoch hfin hj
  · exact started_of_install hj

/-- **Every epoch starts where the previous one ended**, in every run. -/
theorem Reachable.started {startingChkp : StableCheckpoint} {Allowed : Instance → Event → Prop}
    (h : Reachable env startingChkp Allowed i) : Started env i := by
  refine h.induction (P := Started env) ?_ fun _ _ _ _ hi hmicro => hi.micro hmicro
  exact fun hnew hinit => started_of_init hnew hinit

/-! ### Partitioned epochs -/

/-- The segments of the current epoch partition a non-empty interval of sequence numbers, whose
length is recorded for the epoch's checkpoint, and at whose end the next epoch starts. -/
structure EpochPartitioned (env : Env) (i : Instance) : Prop where
  disjoint : i.state.epoch.segments.Pairwise fun a b =>
    ∀ sn, sn ∈ a.proposals.keys → sn ∉ b.proposals.keys
  union : ∀ sn, (∃ seg ∈ i.state.epoch.segments, sn ∈ seg.proposals.keys) ↔
    i.state.epoch.firstSN ≤ sn ∧ sn < i.state.newEpochSN
  nonempty : i.state.epoch.firstSN < i.state.newEpochSN
  length : i.state.newEpochSN.toNat = i.state.epoch.firstSN.toNat + i.state.epoch.len
  recorded : ∀ oldMembership,
    (checkpointParams env i.state oldMembership).epochConfig.length.toNat = i.state.epoch.len
  next : ∀ sorts j, advanceEpoch env sorts i = .ok j → j.state.epoch.firstSN = i.state.newEpochSN

/-- The sequence numbers of an epoch with the given leaders exist, and none of them overflows. -/
def FitsBelow (env : Env) (first : SeqNr) (leaders : List NodeID) : Prop :=
  0 < env.segmentLength ∧ leaders ≠ [] ∧
    first.toNat + leaders.length * env.segmentLength < 2 ^ 64

namespace StartedWith

variable (h : StartedWith env i.state leaders)

include h

/-- Each leader has one segment. -/
theorem map_leader : i.state.epoch.segments.map Segment.leader = leaders := by
  rw [h.segments]
  refine List.ext_getElem? fun k => ?_
  rw [List.getElem?_map, segmentsFrom_getElem?, Option.map_map]
  exact Option.map_id_apply

theorem mem_segments_iff :
    (∃ seg ∈ i.state.epoch.segments, sn ∈ seg.proposals.keys) ↔
      ∃ t < leaders.length * env.segmentLength, sn = snAt i.state.epoch.firstSN t := by
  rw [h.segments]
  exact Iss.mem_segments_iff

theorem epochLen_eq
    (hfit : i.state.epoch.firstSN.toNat + leaders.length * env.segmentLength < 2 ^ 64) :
    i.state.epoch.len = leaders.length * env.segmentLength := by
  rw [EpochInfo.len, h.segments]
  exact sum_len_segmentsFrom hfit

theorem epochPartitioned (hfit : FitsBelow env i.state.epoch.firstSN leaders) :
    EpochPartitioned env i := by
  obtain ⟨hpos, hne, hfit⟩ := hfit
  have hlen := h.epochLen_eq hfit
  have hnat : i.state.newEpochSN.toNat
      = i.state.epoch.firstSN.toNat + leaders.length * env.segmentLength := by
    rw [h.newEpochSN, hlen, toNat_snAt hfit]
  have hn : 0 < leaders.length * env.segmentLength :=
    Nat.mul_pos (List.length_pos_of_ne_nil hne) hpos
  refine ⟨?_, fun sn => ?_, UInt64.lt_iff_toNat_lt.mpr (by omega), by omega, fun old => ?_, ?_⟩
  · rw [h.segments]
    exact pairwise_disjoint_segmentsFrom hfit
  · rw [h.mem_segments_iff, UInt64.le_iff_toNat_le, UInt64.lt_iff_toNat_lt, hnat]
    constructor
    · rintro ⟨t, ht, rfl⟩
      rw [toNat_snAt (by omega)]
      omega
    · rintro ⟨hle, hlt⟩
      refine ⟨sn.toNat - i.state.epoch.firstSN.toNat, by omega, UInt64.toNat_inj.mp ?_⟩
      rw [toNat_snAt (by omega)]
      omega
  · have hlt := i.state.newEpochSN.toNat_lt
    rw [checkpointParams, Nat.toUInt64_eq, UInt64.toNat_ofNat']
    exact Nat.mod_eq_of_lt (by omega)
  · intro sorts j hj
    obtain ⟨old, next, memberships, membership, ls, rfl, -⟩ := advanceEpoch_eq_ok hj
    rfl

/-- The last sequence number of all is below the end of no epoch. -/
theorem fitsBelow (hpart : EpochPartitioned env i) :
    FitsBelow env i.state.epoch.firstSN leaders := by
  obtain ⟨t, ht, -⟩ := h.mem_segments_iff.mp
    ((hpart.union _).mpr ⟨UInt64.le_refl _, hpart.nonempty⟩)
  have hpos : 0 < leaders.length * env.segmentLength := Nat.zero_lt_of_lt ht
  refine ⟨Nat.pos_of_mul_pos_left hpos, ?_, ?_⟩
  · rintro rfl
    simp at hpos
  · by_contra hover
    have hfirst := i.state.epoch.firstSN.toNat_lt
    -- Otherwise the segments reach the largest 64-bit number.
    have htop : (snAt i.state.epoch.firstSN (2 ^ 64 - 1 - i.state.epoch.firstSN.toNat)).toNat
        = 2 ^ 64 - 1 := by
      rw [toNat_snAt (by omega)]
      omega
    have hmem := (hpart.union _).mp (h.mem_segments_iff.mpr
      ⟨2 ^ 64 - 1 - i.state.epoch.firstSN.toNat, by omega, rfl⟩)
    have hlt := UInt64.lt_iff_toNat_lt.mp hmem.2
    have hbound := i.state.newEpochSN.toNat_lt
    omega

end StartedWith

/-- The sequence numbers of the current epoch exist, and none of them overflows. -/
def Instance.Fits (env : Env) (i : Instance) : Prop :=
  FitsBelow env i.state.epoch.firstSN (i.state.epoch.segments.map Segment.leader)

theorem Started.epochPartitioned (h : Started env i) (hfits : i.Fits env) :
    EpochPartitioned env i := by
  obtain ⟨sort, leaders, -, hstarted⟩ := h
  rw [Instance.Fits, hstarted.map_leader] at hfits
  exact hstarted.epochPartitioned hfits

/-- **When the segments partition an epoch**: in every reachable instance, the current epoch was
started with the leaders that its policy named, and its segments partition its sequence numbers if
and only if `SegmentLength` is positive, there is a leader, and the sequence numbers end below
`2 ^ 64`. -/
theorem epochPartitioned_iff (env : Env) (startingChkp : StableCheckpoint)
    (Allowed : Instance → Event → Prop) (i : Instance) (h : Reachable env startingChkp Allowed i) :
    ∃ sort leaders, i.state.epoch.leaderPolicy.leadersBy sort = .ok leaders ∧
      i.state.epoch.segments.map Segment.leader = leaders ∧
      (EpochPartitioned env i ↔ FitsBelow env i.state.epoch.firstSN leaders) := by
  obtain ⟨sort, leaders, hleaders, hstarted⟩ := h.started
  exact ⟨sort, leaders, hleaders, hstarted.map_leader, hstarted.fitsBelow,
    hstarted.epochPartitioned⟩

/-- What happens in the first epoch of four members, with segments of two sequence numbers. -/
def fourSegments : List Event :=
  (List.range 8).flatMap (fun k =>
    let sn := k.toUInt64
    let leader := [97 + sn.toUInt8 % 4]
    [.sbDeliver sn [2] false leader (.segment 0 (k % 4)),
      .certVerified true ⟨sn, [2], false, leader⟩]) ++ [.newConfig 0 .fourMembers]

/-- The second epoch of these members. -/
theorem epochPartitioned_second : ∃ env startingChkp Allowed i,
    Reachable env startingChkp Allowed i ∧ i.state.epoch.nr = 1 ∧
      i.state.epoch.segments.map Segment.leader = [[97], [98], [99], [100]] ∧
      EpochPartitioned env i := by
  obtain ⟨i, hi, hnr, hleaders, hfirst⟩ := exists_reachable (by decide +kernel :
    (execute (exampleEnv .fourMembers 2 0 []) (exampleChkp .fourMembers 0 0 simplePolicyData)
      (fun _ _ => True) (fun _ => True) fourSegments).any (fun i => i.state.epoch.nr = 1 ∧
        i.state.epoch.segments.map Segment.leader = [[97], [98], [99], [100]] ∧
        i.state.epoch.firstSN = 8) = true)
  obtain ⟨sort, leaders, -, hleaders', hiff⟩ := epochPartitioned_iff _ _ _ i hi
  rw [hleaders] at hleaders'
  rw [← hleaders', hfirst] at hiff
  exact ⟨_, _, _, i, hi, hnr, hleaders, hiff.mpr ⟨by decide, by decide, by decide⟩⟩

/-- **A configuration that passes `CheckParams` may have empty epochs**: with an `EpochLength` and no
`SegmentLength`, the first epoch ends where it starts. -/
theorem accepted_params_empty_epoch : ¬ ∀ env startingChkp Allowed i,
    Reachable env startingChkp Allowed i → EpochPartitioned env i := by
  intro hall
  obtain ⟨i, hi, hempty⟩ := exists_reachable (by decide +kernel :
    (execute (exampleEnv soloMembership 0 4 []) (exampleChkp soloMembership 0 0 simplePolicyData)
      (fun _ _ => True) (fun _ => True) []).any (fun i =>
        i.state.newEpochSN = i.state.epoch.firstSN) = true)
  have hlt := (hall _ _ _ i hi).nonempty
  rw [hempty] at hlt
  exact UInt64.lt_irrefl _ hlt

end Mir.Iss
