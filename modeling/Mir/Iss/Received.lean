import Mir.Iss.Execution
import Mir.Checkpoint.Completion

/-!
# Received checkpoints

A checkpoint from another node goes through `UponStableCheckpointReceived`, the validator, and
`UponCheckpointValidated`. It is **harmless** if all three complete, and install it only after its
certificate has been verified (`Harmless`). The handlers dereference parts of the message before
they, or the syntactic check, test that they are there: `received_harmless_iff` says which
checkpoints are harmless (`Manageable`), and `missing_snapshot` is one that is not.
-/

namespace Mir.Iss

open Checkpoint Fallible

variable {env : Env} {sorts : Sorts} {i j : Instance} {startingChkp chkp : StableCheckpoint}
  {Allowed : Instance → Event → Prop}

/-! ### The length of the membership pipeline -/

theorem memberships_length_of_syntacticCheck {offset : ℕ} {memberships : List Membership}
    (hcheck : chkp.syntacticCheck offset = .ok none)
    (hms : chkp.memberships = .ok (memberships.map some)) : memberships.length = offset + 1 := by
  obtain ⟨-, c, hsnapshot, hwf⟩ := StableCheckpoint.syntacticCheck_eq_none_iff.mp hcheck
  have hmap := Except.ok.inj ((StableCheckpoint.memberships_of_snapshot hsnapshot).symm.trans hms)
  have hlen := congrArg List.length hmap
  simpa [hwf.count] using hlen.symm

/-- The check that precedes both verifications. -/
theorem syntacticCheck_of_verify {crypto : Crypto} {enc : MembershipCodec} {offset : ℕ}
    {m : Membership} (h : chkp.verify crypto enc offset m = .ok none) :
    chkp.syntacticCheck offset = .ok none := by
  obtain ⟨r, hr, hrest⟩ := bind_eq_ok.mp h
  cases r with
  | some e => cases hrest
  | none => exact hr

theorem syntacticCheck_of_validated (h : i.validated env chkp = true) :
    chkp.syntacticCheck env.configOffset = .ok none := by
  obtain ⟨o, ho, htest⟩ := List.any_eq_true.mp h
  cases o with
  | validateCheckpoint c epochNr memberships =>
    obtain ⟨rfl, hverify⟩ := of_decide_eq_true htest
    obtain ⟨r, hr, hrest⟩ := bind_eq_ok.mp hverify
    cases r with
    | some e => cases hrest
    | none => exact hr
  | _ => cases htest

/-- Validation results are those of the checkpoint validator. -/
def ValidResults (env : Env) (i : Instance) (ev : Event) : Prop :=
  ∀ chkp, ev = .checkpointValidated none chkp → i.validated env chkp = true

/-- **The pipeline holds `ConfigOffset + 1` memberships** in every reachable instance. -/
theorem Reachable.memberships_length (h : Reachable env startingChkp (ValidResults env) i) :
    i.state.memberships.length = env.configOffset + 1 := by
  refine Reachable.induction (P := fun i => i.state.memberships.length = env.configOffset + 1)
    ?_ ?_ h
  · intro sorts i i' hnew hinit
    obtain ⟨data, policy, epoch, memberships, rfl, hms, hverify, -⟩ := new_eq_ok_some hnew
    obtain ⟨nr, -, hstart⟩ := bind_eq_ok.mp hinit
    obtain ⟨membership, -, leaders, rfl, -⟩ := startEpoch_eq_ok_iff.mp hstart
    exact memberships_length_of_syntacticCheck (syntacticCheck_of_verify hverify) hms
  · intro sorts i₀ ev i j _ _ hev _ hlen hmicro
    cases hmicro with
    | advance _ hj =>
      obtain ⟨old, next, memberships, membership, leaders, rfl, rfl, -⟩ := advanceEpoch_eq_ok hj
      change (i.state.memberships.drop 1 ++ [next]).length = _
      rw [List.length_append, List.length_drop, List.length_singleton, hlen]
      omega
    | install _ _ _ _ hj =>
      obtain ⟨epoch, memberships, membership, leaders, rfl, -, hms, -⟩ := install_eq_ok hj
      have hcheck := syntacticCheck_of_validated (hev _ rfl)
      exact memberships_length_of_syntacticCheck hcheck hms
    | suspect | commit | deliver | requestCert | stabilize | announce | quiet => exact hlen

/-! ### Installing -/

/-- The policy has leaders, however they are sorted, and all of them are in the first of the
checkpoint's memberships. -/
def CanLead (policy : LeaderPolicy) (chkp : StableCheckpoint) : Prop :=
  ∀ sort, ∃ first rest leaders, chkp.memberships = .ok (some first :: rest) ∧
    policy.leadersBy sort = .ok leaders ∧ ∀ leader ∈ leaders, leader ∈ first.nodes.keys

/-- **A well-formed checkpoint can be installed** if the leaders of its policy are members. -/
theorem install_completes_iff {policy : LeaderPolicy} {offset : ℕ}
    (hcheck : chkp.syntacticCheck offset = .ok none) :
    (∀ sorts, Completes (install env sorts chkp policy j)) ↔ CanLead policy chkp := by
  obtain ⟨-, c, hsnapshot, hwf⟩ := StableCheckpoint.syntacticCheck_eq_none_iff.mp hcheck
  obtain ⟨first, rest, hcons⟩ := List.exists_cons_of_length_eq_add_one hwf.count
  have hms : chkp.memberships = .ok (c.memberships.map some) :=
    StableCheckpoint.memberships_of_snapshot hsnapshot
  have hfirst : chkp.memberships = .ok (some first :: rest.map some) := by
    rw [hms, hcons, List.map_cons]
  constructor
  · intro h sort
    obtain ⟨i', hi'⟩ := h ⟨sort, sort, sort⟩
    obtain ⟨epoch, memberships, membership, leaders, -, -, hms', hm, hleaders, hall⟩ :=
      install_eq_ok hi'
    refine ⟨first, rest.map some, leaders, hfirst, hleaders, ?_⟩
    have hmap := Except.ok.inj (hms.symm.trans hms')
    rw [← List.map_injective_iff.mpr (Option.some_injective _) hmap, hcons,
      List.getElem?_cons_zero, Option.some.injEq] at hm
    rwa [hm]
  · intro h sorts
    obtain ⟨-, -, installed, -, hinstalled, -⟩ := h sorts.install
    obtain ⟨-, -, logged, -, hlogged, -⟩ := h sorts.log
    obtain ⟨first', rest', leaders, hfirst', hleaders, hall⟩ := h sorts.init
    have hstart : startEpoch env sorts c.epochNr (j.restore chkp policy c.memberships) = .ok
        ((j.restore chkp policy c.memberships).started env c.epochNr first leaders) := by
      refine startEpoch_eq_ok_iff.mpr ⟨first, logged, leaders, rfl, ?_, hlogged, hleaders, ?_⟩
      · change c.memberships[0]? = some first
        rw [hcons, List.getElem?_cons_zero]
      · rw [hfirst, Except.ok.injEq, List.cons.injEq, Option.some.injEq] at hfirst'
        rwa [hfirst'.1]
    rw [install, StableCheckpoint.epoch_of_snapshot hsnapshot, ok_bind, hms, ok_bind,
      mapM_deref_eq_ok_iff.mpr rfl, ok_bind, hinstalled, ok_bind, hstart, ok_bind, pure_eq_ok]
    exact completes_ok _

theorem install_ne_self {policy : LeaderPolicy} : install env sorts chkp policy j ≠ .ok j := by
  intro h
  obtain ⟨epoch, memberships, membership, leaders, heq, -⟩ := install_eq_ok h
  have hlen := congrArg (fun i : Instance => i.out.length) heq
  simp only [Instance.installed, Instance.emitAll_out, Instance.started, Instance.addAll,
    Instance.enterEpoch, Instance.restore, List.length_append, List.length_cons] at hlen
  omega

/-! ### Harmless checkpoints -/

/-- The checkpoint is far enough ahead not to be ignored. -/
def Ahead (chkp : StableCheckpoint) (i : Instance) : Prop :=
  ∃ e, chkp.epoch = .ok e ∧ ¬ membershipOffset e i.state.epoch.nr ≤ 0

/-- The checkpoint is ignored, or it is validated. Then, wherever the result arrives, it is ignored
or installed, and installed only if its certificate verifies. -/
def Harmless (env : Env) (i : Instance) (chkp : StableCheckpoint) : Prop :=
  uponStableCheckpointReceived chkp i = .ok i ∨
  uponStableCheckpointReceived chkp i =
      .ok (i.emit (.validateCheckpoint chkp i.state.epoch.nr i.state.memberships)) ∧
    ∃ result, env.validator.verify chkp i.state.epoch.nr i.state.memberships = .ok result ∧
      ∀ sorts j, ∃ j', uponCheckpointValidated env sorts result chkp j = .ok j' ∧
        (j' = j ∨ (∃ policy, install env sorts chkp policy j = .ok j') ∧ result = none ∧
          ∃ m, env.validator.Consults chkp i.state.epoch.nr i.state.memberships m ∧
            chkp.verifyCert env.crypto env.membershipCodec m = .ok none)

/-- What a checkpoint must contain for the handlers to manage it. The certificate of a checkpoint of
epoch 0 is not checked, and such a checkpoint is ahead of an epoch number that is negative as a
signed integer. -/
structure Manageable (env : Env) (i : Instance) (chkp : StableCheckpoint) : Prop where
  config : ∃ config, chkp.epochConfig = .ok config
  memberships : ∀ config ms, Ahead chkp i → chkp.epochConfig = .ok config →
    config.memberships = some ms → ms.length = env.configOffset + 1 →
    StableCheckpoint.MissingAfterInvalid ms
  signers : ∀ m, Ahead chkp i → chkp.syntacticCheck env.configOffset = .ok none →
    env.validator.Included chkp → chkp.epoch ≠ .ok 0 →
    env.validator.Consults chkp i.state.epoch.nr i.state.memberships m →
    m.Weighs (chkp.cert.getD ∅).keys
  leaders : ∀ data policy, Ahead chkp i →
    env.validator.verify chkp i.state.epoch.nr i.state.memberships = .ok none →
    chkp.epochData = .ok data →
    LeaderPolicy.fromBytes env.policyCodec data.leaderPolicy.bytes = some policy →
    CanLead policy chkp
  genesis : ∀ data policy m, Ahead chkp i →
    env.validator.verify chkp i.state.epoch.nr i.state.memberships = .ok none →
    chkp.epochData = .ok data →
    LeaderPolicy.fromBytes env.policyCodec data.leaderPolicy.bytes = some policy →
    chkp.epoch = .ok 0 →
    env.validator.Consults chkp i.state.epoch.nr i.state.memberships m →
    chkp.verifyCert env.crypto env.membershipCodec m = .ok none

section Handlers

variable {e : EpochNr} {config : EpochConfig}

theorem epoch_of_epochConfig (hconfig : chkp.epochConfig = .ok config) :
    chkp.epoch = .ok config.epochNr := by
  rw [StableCheckpoint.epoch, hconfig, ok_bind, pure_eq_ok]

theorem uponStableCheckpointReceived_of_ahead (hahead : Ahead chkp i) :
    uponStableCheckpointReceived chkp i =
      .ok (i.emit (.validateCheckpoint chkp i.state.epoch.nr i.state.memberships)) := by
  obtain ⟨e, he, hlt⟩ := hahead
  rw [uponStableCheckpointReceived, he, ok_bind, if_neg hlt, pure_eq_ok]

/-- A checkpoint that is validated is not also ignored. -/
theorem uponStableCheckpointReceived_ne_self (hahead : Ahead chkp i) :
    uponStableCheckpointReceived chkp i ≠ .ok i := by
  rw [uponStableCheckpointReceived_of_ahead hahead]
  intro h
  have hlen := congrArg (fun i : Instance => i.out.length) (Except.ok.inj h)
  simp at hlen

theorem uponCheckpointValidated_of_ahead {data : EpochData} {policy : LeaderPolicy}
    (hahead : Ahead chkp j) (hdata : chkp.epochData = .ok data)
    (hpolicy : LeaderPolicy.fromBytes env.policyCodec data.leaderPolicy.bytes = some policy) :
    uponCheckpointValidated env sorts none chkp j = install env sorts chkp policy j := by
  obtain ⟨e, he, hlt⟩ := hahead
  simp only [uponCheckpointValidated, Option.isSome_none, Bool.false_eq_true, if_false, he, ok_bind,
    if_neg hlt, hdata, hpolicy]

/-- A validation result leads to an installation, or is ignored. -/
theorem uponCheckpointValidated_cases {result : Option ValidationError}
    (hconfig : chkp.epochConfig = .ok config) :
    uponCheckpointValidated env sorts result chkp j = .ok j ∨
      result = none ∧ ∃ data policy, chkp.epochData = .ok data ∧
        LeaderPolicy.fromBytes env.policyCodec data.leaderPolicy.bytes = some policy ∧
        uponCheckpointValidated env sorts result chkp j = install env sorts chkp policy j := by
  cases result with
  | some err => exact .inl rfl
  | none =>
    obtain ⟨data, hdata, -⟩ := bind_eq_ok.mp hconfig
    have hepoch := epoch_of_epochConfig hconfig
    by_cases hlt : membershipOffset config.epochNr j.state.epoch.nr ≤ 0
    · refine .inl ?_
      simp only [uponCheckpointValidated, Option.isSome_none, Bool.false_eq_true, if_false, hepoch,
        ok_bind, if_pos hlt, pure_eq_ok]
    · cases hpolicy : LeaderPolicy.fromBytes env.policyCodec data.leaderPolicy.bytes with
      | none =>
        refine .inl ?_
        simp only [uponCheckpointValidated, Option.isSome_none, Bool.false_eq_true, if_false,
          hepoch, ok_bind, if_neg hlt, hdata, hpolicy, pure_eq_ok]
      | some policy =>
        refine .inr ⟨rfl, data, policy, hdata, hpolicy, ?_⟩
        exact uponCheckpointValidated_of_ahead ⟨_, hepoch, hlt⟩ hdata hpolicy

/-- For a node with `ConfigOffset + 1` memberships, the validator completes for a checkpoint that is
ahead under the first conditions of `Manageable`. -/
theorem validator_completes_iff (hlen : i.state.memberships.length = env.configOffset + 1)
    (hconfig : chkp.epochConfig = .ok config) (hahead : Ahead chkp i) :
    Completes (env.validator.verify chkp i.state.epoch.nr i.state.memberships) ↔
      (∀ ms, config.memberships = some ms → ms.length = env.configOffset + 1 →
        StableCheckpoint.MissingAfterInvalid ms) ∧
      (chkp.syntacticCheck env.configOffset = .ok none → env.validator.Included chkp →
        chkp.epoch ≠ .ok 0 →
        ∀ m, env.validator.Consults chkp i.state.epoch.nr i.state.memberships m →
          m.Weighs (chkp.cert.getD ∅).keys) := by
  obtain ⟨e, he, hlt⟩ := hahead
  have hpos : 0 < e ↔ chkp.epoch ≠ .ok 0 := by
    rw [he, ne_eq, Except.ok.injEq]
    exact UInt64.pos_iff_ne_zero
  refine (Validator.verify_completes_iff he hlt hlen).trans ?_
  rw [hpos]
  exact and_congr_left' (StableCheckpoint.syntacticCheck_completes_iff hconfig)

end Handlers

theorem Harmless.manageable (hlen : i.state.memberships.length = env.configOffset + 1)
    (h : Harmless env i chkp) : Manageable env i chkp := by
  -- the message arrived, so its epoch could be read
  have hconfig : ∃ config, chkp.epochConfig = .ok config := by
    have hreceived : Completes (uponStableCheckpointReceived chkp i) :=
      h.elim (fun h => ⟨_, h⟩) fun h => ⟨_, h.1⟩
    obtain ⟨e, he, -⟩ := completes_bind_iff.mp hreceived
    obtain ⟨config, hconfig, -⟩ := bind_eq_ok.mp he
    exact ⟨config, hconfig⟩
  have hvalidated : Ahead chkp i → ∃ result,
      env.validator.verify chkp i.state.epoch.nr i.state.memberships = .ok result ∧
      ∀ sorts j, ∃ j', uponCheckpointValidated env sorts result chkp j = .ok j' ∧
        (j' = j ∨ (∃ policy, install env sorts chkp policy j = .ok j') ∧ result = none ∧
          ∃ m, env.validator.Consults chkp i.state.epoch.nr i.state.memberships m ∧
            chkp.verifyCert env.crypto env.membershipCodec m = .ok none) := fun hahead =>
    h.elim (fun h => absurd h (uponStableCheckpointReceived_ne_self hahead)) fun h => h.2
  refine ⟨hconfig, ?_, ?_, ?_, ?_⟩
  · intro config ms hahead hconfig
    obtain ⟨result, hresult, -⟩ := hvalidated hahead
    exact ((validator_completes_iff hlen hconfig hahead).mp ⟨result, hresult⟩).1 ms
  · intro m hahead hcheck hincluded hepoch
    obtain ⟨config, hconfig⟩ := hconfig
    obtain ⟨result, hresult, -⟩ := hvalidated hahead
    exact ((validator_completes_iff hlen hconfig hahead).mp ⟨result, hresult⟩).2 hcheck hincluded
      hepoch m
  · intro data policy hahead haccept hdata hpolicy
    obtain ⟨result, hresult, hall⟩ := hvalidated hahead
    obtain rfl : result = none := Except.ok.inj (hresult.symm.trans haccept)
    obtain ⟨e, he, hlt⟩ := hahead
    have hcheck := (Validator.exists_consults_of_verify he hlt hlen haccept).1
    have hinstall : ∀ sorts, Completes (install env sorts chkp policy i) := by
      intro sorts
      obtain ⟨j', hj', -⟩ := hall sorts i
      rw [uponCheckpointValidated_of_ahead ⟨e, he, hlt⟩ hdata hpolicy] at hj'
      exact ⟨j', hj'⟩
    exact (install_completes_iff hcheck).mp hinstall
  · intro data policy m hahead haccept hdata hpolicy _ hm
    obtain ⟨result, hresult, hall⟩ := hvalidated hahead
    obtain rfl : result = none := Except.ok.inj (hresult.symm.trans haccept)
    -- the instance that received the checkpoint installs it
    obtain ⟨j', hj', hcases⟩ := hall .insertion i
    rw [uponCheckpointValidated_of_ahead hahead hdata hpolicy] at hj'
    rcases hcases with rfl | ⟨-, -, m', hm', hcert⟩
    · exact absurd hj' install_ne_self
    · rwa [hm.unique hm']

theorem Manageable.harmless (hlen : i.state.memberships.length = env.configOffset + 1)
    (h : Manageable env i chkp) : Harmless env i chkp := by
  obtain ⟨config, hconfig⟩ := h.config
  have hepoch := epoch_of_epochConfig hconfig
  by_cases hlt : membershipOffset config.epochNr i.state.epoch.nr ≤ 0
  · refine .inl ?_
    rw [uponStableCheckpointReceived, hepoch, ok_bind, if_pos hlt, pure_eq_ok]
  · have hahead : Ahead chkp i := ⟨_, hepoch, hlt⟩
    obtain ⟨result, hresult⟩ := (validator_completes_iff hlen hconfig hahead).mpr
      ⟨fun ms => h.memberships config ms hahead hconfig,
        fun hcheck hincluded hne m => h.signers m hahead hcheck hincluded hne⟩
    refine .inr ⟨uponStableCheckpointReceived_of_ahead hahead, result, hresult, fun sorts j => ?_⟩
    rcases @uponCheckpointValidated_cases env sorts j chkp config result hconfig with
      hignored | ⟨rfl, data, policy, hdata, hpolicy, hinstall⟩
    · exact ⟨j, hignored, .inl rfl⟩
    · obtain ⟨hcheck, m, hm, hverify⟩ :=
        Validator.exists_consults_of_verify hepoch hlt hlen hresult
      have hlead := h.leaders data policy hahead hresult hdata hpolicy
      obtain ⟨j', hj'⟩ := (install_completes_iff hcheck).mpr hlead sorts
      refine ⟨j', hinstall.trans hj', .inr ⟨⟨policy, hj'⟩, rfl, m, hm, ?_⟩⟩
      by_cases hzero : config.epochNr = 0
      · exact h.genesis data policy m hahead hresult hdata hpolicy (hzero ▸ hepoch) hm
      · exact StableCheckpoint.verifyCert_of_verify hepoch (UInt64.pos_iff_ne_zero.mpr hzero) hverify

/-- **Which received checkpoints are harmless.** -/
theorem received_harmless_iff (h : Reachable env startingChkp (ValidResults env) i)
    (chkp : StableCheckpoint) : Harmless env i chkp ↔ Manageable env i chkp :=
  ⟨Harmless.manageable h.memberships_length, Manageable.harmless h.memberships_length⟩

/-- A node of a system with four members. -/
noncomputable def memberEnv : Env := exampleEnv .fourMembers 1 0 []

/-- The node at the start of the first epoch. -/
theorem exists_first : ∃ i, Reachable memberEnv (exampleChkp .fourMembers 0 0 simplePolicyData)
    (ValidResults memberEnv) i ∧ i.state.epoch.nr = 0 :=
  exists_of_execute (P := fun _ => Reachable memberEnv _ (ValidResults memberEnv))
    (by decide +kernel :
      (execute memberEnv (exampleChkp .fourMembers 0 0 simplePolicyData) (fun _ _ => False)
        (fun _ => True) []).any (fun i => i.state.epoch.nr = 0) = true)
    (fun hnew hinit _ => .start hnew hinit) fun _ hev => hev.elim

/-- A checkpoint of a later epoch that is signed by two of the members is harmless. -/
theorem signed_checkpoint_harmless : ∃ i,
    Reachable memberEnv (exampleChkp .fourMembers 0 0 simplePolicyData) (ValidResults memberEnv) i ∧
      Ahead (exampleChkp .fourMembers 5 7 simplePolicyData) i ∧
      Harmless memberEnv i (exampleChkp .fourMembers 5 7 simplePolicyData) := by
  obtain ⟨i, hi, hnr⟩ := exists_first
  have hahead : Ahead (exampleChkp .fourMembers 5 7 simplePolicyData) i := by
    refine ⟨5, rfl, ?_⟩
    rw [hnr]
    decide +kernel
  refine ⟨i, hi, hahead, (received_harmless_iff hi _).mpr ⟨⟨_, rfl⟩, ?_, ?_, ?_, ?_⟩⟩
  · intro config ms _ hconfig hms _ front rest heq
    obtain rfl := Except.ok.inj hconfig
    obtain rfl := Option.some.inj hms
    have hmem : none ∈ front ++ none :: rest := List.mem_append_right _ List.mem_cons_self
    rw [← heq] at hmem
    simp at hmem
  · intro m _ _ _ _ hm
    cases hm with
    | known hepoch _ hnear _ =>
      obtain rfl := Except.ok.inj hepoch
      rw [hnr] at hnear
      exact absurd hnear (by decide +kernel)
    | claimed _ _ _ hm =>
      obtain rfl := Option.some.inj (Except.ok.inj hm)
      exact ⟨Membership.readable_of_valid (by decide +kernel), by decide +kernel⟩
  · intro data policy _ _ hdata hpolicy sort
    obtain rfl := Except.ok.inj hdata
    have hdecode : LeaderPolicy.fromBytes memberEnv.policyCodec simplePolicyData =
        some (.simple ⟨[[97], [98], [99], [100]]⟩) := by
      decide +kernel
    obtain rfl := Option.some.inj (hdecode.symm.trans hpolicy)
    exact ⟨.fourMembers, [some .fourMembers], _, rfl, rfl, by decide +kernel⟩
  · intro _ _ _ _ _ _ _ hepoch
    cases hepoch

/-- **A checkpoint without a snapshot stops the node.** -/
theorem missing_snapshot : ¬ ∀ (env : Env) (startingChkp : StableCheckpoint) (i : Instance),
    Reachable env startingChkp (ValidResults env) i → ∀ chkp, Harmless env i chkp := by
  intro h
  obtain ⟨i, hi, -⟩ := exists_first
  obtain ⟨config, hconfig⟩ :=
    ((h _ _ i hi ⟨7, none, some ∅⟩).manageable hi.memberships_length).config
  cases hconfig

end Mir.Iss
