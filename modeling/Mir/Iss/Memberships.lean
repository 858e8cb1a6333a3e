import Mir.Iss.Execution

/-!
# The membership pipeline

A system is determined by the memberships of its first epochs and by what its application announces
in each epoch (`System`): what is announced in epoch `e` is in force in epoch
`e + ConfigOffset + 1`. A node of the system starts from the initial checkpoint or from one whose
epoch configuration some node of the system recorded, and installs only checkpoints of the latter
kind (`System.Running`). `memberships_exact` says that each such node uses, in every epoch, the
membership in force there.

The permissive validator also accepts checkpoints whose configuration nobody recorded, after which a
node uses other memberships (`forged_memberships`).
-/

namespace Mir.Iss

open Checkpoint

/-! ### Windows of a schedule -/

/-- The values of a schedule at `n` consecutive times. -/
def window {α : Type} (f : ℕ → α) (t n : ℕ) : List α := (List.range' t n).map f

section Window

variable {α : Type} (f : ℕ → α) (t n : ℕ)

@[simp] theorem length_window : (window f t n).length = n := by simp [window]

theorem window_getElem? {k : ℕ} (hk : k < n) : (window f t n)[k]? = some (f (t + k)) := by
  simp [window, hk]

/-- Moving a window on by one. -/
theorem window_shift : (window f t (n + 1)).drop 1 ++ [f (t + 1 + n)] = window f (t + 1) (n + 1) := by
  rw [window, List.range'_succ, List.map_cons, List.drop_one, List.tail_cons, window,
    List.range'_1_concat, List.map_append, List.map_singleton]

end Window

/-! ### Systems -/

/-- The memberships of the first epochs, and those the application announces in each epoch. -/
structure System where
  configOffset : ℕ
  genesis : List Membership
  announce : ℕ → Membership
  genesis_length : genesis.length = configOffset + 1

/-- The epoch numbers of an instance are in the range of `int`. -/
def Instance.InRange (i : Instance) : Prop := ∀ e, .newEpoch e ∈ i.out → e.toNat < 2 ^ 63

theorem toNat_succ_of_lt {nr : EpochNr} (h : nr.toNat < 2 ^ 63) : (nr + 1).toNat = nr.toNat + 1 := by
  rw [UInt64.toNat_add, UInt64.toNat_one]
  omega

variable {env : Env} {sorts : Sorts} {i j : Instance} {chkp : StableCheckpoint} {epoch : EpochNr}
  {policy : LeaderPolicy}

/-- An installed checkpoint is at least two epochs ahead. -/
theorem succ_lt_of_install (hepoch : chkp.epoch = .ok epoch)
    (hahead : ¬ membershipOffset epoch i.state.epoch.nr ≤ 0)
    (hj : install env sorts chkp policy i = .ok j) (hnr : i.state.epoch.nr.toNat < 2 ^ 63)
    (hrange : j.InRange) : i.state.epoch.nr.toNat + 1 < epoch.toNat := by
  obtain ⟨e, memberships, membership, leaders, rfl, he, -⟩ := install_eq_ok hj
  obtain rfl : epoch = e := Except.ok.inj (hepoch.symm.trans he)
  have hepoch' : epoch.toNat < 2 ^ 63 :=
    hrange _ (List.mem_append_left _ newEpoch_mem_out_started)
  exact (membershipOffset_pos_iff hepoch' hnr).mp hahead

/-- Advancing the epoch changes its number. -/
theorem not_sameEpoch_of_advance (hj : advanceEpoch env sorts i = .ok j)
    (hnr : i.state.epoch.nr.toNat < 2 ^ 63) : ¬ SameEpoch i j := by
  intro hsame
  obtain ⟨old, next, memberships, membership, leaders, rfl, -⟩ := advanceEpoch_eq_ok hj
  have hnat : (i.state.epoch.nr + 1).toNat = i.state.epoch.nr.toNat :=
    congrArg (fun e => e.nr.toNat) hsame.1
  rw [toNat_succ_of_lt hnr] at hnat
  omega

/-- So does installing a checkpoint of a later one. -/
theorem not_sameEpoch_of_install (hepoch : chkp.epoch = .ok epoch)
    (hj : install env sorts chkp policy i = .ok j)
    (hlt : i.state.epoch.nr.toNat < epoch.toNat) : ¬ SameEpoch i j := by
  intro hsame
  obtain ⟨e, memberships, membership, leaders, rfl, he, -⟩ := install_eq_ok hj
  obtain rfl : epoch = e := Except.ok.inj (hepoch.symm.trans he)
  have hnat : epoch.toNat = i.state.epoch.nr.toNat := congrArg (fun e => e.nr.toNat) hsame.1
  omega

/-- The instance runs epoch `e` with a membership: for its availability module, for the segment of
one of its orderers, or to certify the checkpoint at its end. -/
inductive Instance.UsesIn (i : Instance) : ℕ → Membership → Prop
  | availability {e m n} (h : .newAvailability e m n ∈ i.out) : UsesIn i e.toNat m
  | orderer {e k seg} (h : .newOrderer (.segment e k) seg ∈ i.out) : UsesIn i e.toNat seg.membership
  | checkpoint {params e} (h : .newCheckpoint params ∈ i.out)
      (he : params.epochConfig.epochNr.toNat = e + 1) : UsesIn i e params.membership

namespace System

variable (S : System)

/-- The membership in force in an epoch. -/
def inForce (e : ℕ) : Membership := S.genesis[e]?.getD (S.announce (e - (S.configOffset + 1)))

theorem inForce_announced (e : ℕ) : S.inForce (e + S.configOffset + 1) = S.announce e := by
  have hlen : S.genesis.length ≤ e + S.configOffset + 1 := by
    rw [S.genesis_length]
    omega
  rw [inForce, List.getElem?_eq_none hlen, Option.getD_none, Nat.add_assoc, Nat.add_sub_cancel]

theorem window_inForce_zero : window S.inForce 0 (S.configOffset + 1) = S.genesis := by
  refine List.ext_getElem? fun k => ?_
  by_cases hk : k < S.configOffset + 1
  · have hlt : k < S.genesis.length := by rwa [S.genesis_length]
    rw [window_getElem? _ _ _ hk, Nat.zero_add, inForce, List.getElem?_eq_getElem hlt,
      Option.getD_some]
  · rw [List.getElem?_eq_none (by rw [length_window]; omega),
      List.getElem?_eq_none (by rw [S.genesis_length]; omega)]

/-- The application announces a membership for an epoch after it has been told of the epoch.
Installing a checkpoint is treated apart. -/
def Allowed (i : Instance) : Event → Prop
  | .newConfig e m => .newEpoch e ∈ i.out ∧ m = S.announce e.toNat
  | .checkpointValidated none _ => False
  | _ => True

/-- The nodes of a system. They start from the initial checkpoint, or from one whose epoch
configuration was recorded by a node of the system, and install only checkpoints of this kind. -/
inductive Running : Env → Instance → Prop
  | genesis {env : Env} {sorts : Sorts} {chkp : StableCheckpoint} {i i' : Instance}
      (hoffset : env.configOffset = S.configOffset) (hepoch : chkp.epoch = .ok 0)
      (hmemberships : chkp.memberships = .ok (S.genesis.map some))
      (hnew : new env chkp = .ok (some i)) (hinit : uponInit env sorts i = .ok i') : Running env i'
  | join {env env' : Env} {sorts : Sorts} {chkp : StableCheckpoint} {i i' j : Instance}
      {params : Checkpoint.ModuleParams} (hoffset : env.configOffset = S.configOffset)
      (hj : Running env' j) (hrecorded : .newCheckpoint params ∈ j.out)
      (hconfig : chkp.epochConfig = .ok params.epochConfig)
      (hnew : new env chkp = .ok (some i)) (hinit : uponInit env sorts i = .ok i') : Running env i'
  | step {env : Env} {sorts : Sorts} {ev : Event} {i i' : Instance} (hi : Running env i)
      (hev : S.Allowed i ev) (hstep : step env sorts i ev = .ok i') (hrange : i'.InRange) :
      Running env i'
  | install {env env' : Env} {sorts : Sorts} {chkp : StableCheckpoint} {i i' j : Instance}
      {params : Checkpoint.ModuleParams} (hi : Running env i) (hj : Running env' j)
      (hrecorded : .newCheckpoint params ∈ j.out)
      (hconfig : chkp.epochConfig = .ok params.epochConfig)
      (hstep : step env sorts i (.checkpointValidated none chkp) = .ok i') (hrange : i'.InRange) :
      Running env i'

/-! ### The invariant -/

/-- What an emitted event says about the memberships of epochs. -/
def Conforms : Output → Prop
  | .newAvailability e m _ => m = S.inForce e.toNat
  | .newOrderer (.segment e _) seg => seg.membership = S.inForce e.toNat
  | .newCheckpoint params =>
    (∃ e, params.epochConfig.epochNr.toNat = e + 1 ∧ params.membership = S.inForce e) ∧
    params.epochConfig.memberships =
      some ((window S.inForce params.epochConfig.epochNr.toNat (S.configOffset + 1)).map some)
  | _ => True

/-- The pipeline holds the memberships in force from the current epoch on, the announced one is that
of the current epoch, and epochs only move forward. -/
structure Inv (env : Env) (i : Instance) : Prop where
  offset : env.configOffset = S.configOffset
  memberships : i.state.memberships =
    window S.inForce i.state.epoch.nr.toNat (S.configOffset + 1)
  announced : ∀ m, i.state.nextNewMembership = some m → m = S.announce i.state.epoch.nr.toNat
  started : .newEpoch i.state.epoch.nr ∈ i.out
  past : ∀ e, .newEpoch e ∈ i.out → e ≤ i.state.epoch.nr
  recorded : ∀ params, .newCheckpoint params ∈ i.out → .newEpoch params.epochConfig.epochNr ∈ i.out
  conforms : ∀ o ∈ i.out, S.Conforms o

variable {S}

theorem conforms_of_isAuxiliary {o : Output} (h : o.isAuxiliary = true) : S.Conforms o := by
  unfold Output.isAuxiliary at h
  split at h <;> trivial

/-- Steps that leave the epoch and the pipeline alone keep the invariant. -/
theorem Inv.frame (h : S.Inv env i) (hepoch : j.state.epoch = i.state.epoch)
    (hmemberships : j.state.memberships = i.state.memberships)
    (hannounced : ∀ m, j.state.nextNewMembership = some m → m = S.announce i.state.epoch.nr.toNat)
    {os : List Output} (hout : j.out = i.out ++ os) (hconforms : ∀ o ∈ os, S.Conforms o)
    (hepochs : ∀ e, .newEpoch e ∉ os) (hparams : ∀ params, .newCheckpoint params ∉ os) :
    S.Inv env j := by
  have hback : ∀ e, .newEpoch e ∈ j.out → .newEpoch e ∈ i.out := by
    intro e he
    rw [hout, List.mem_append] at he
    exact he.resolve_right (hepochs e)
  refine ⟨h.offset, ?_, ?_, ?_, ?_, ?_, ?_⟩
  · rw [hmemberships, hepoch]
    exact h.memberships
  · rw [hepoch]
    exact hannounced
  · rw [hepoch, hout]
    exact List.mem_append_left _ h.started
  · intro e he
    rw [hepoch]
    exact h.past e (hback e he)
  · intro params hmem
    rw [hout, List.mem_append] at hmem
    rw [hout]
    exact List.mem_append_left _ (h.recorded params (hmem.resolve_right (hparams params)))
  · intro o ho
    rw [hout, List.mem_append] at ho
    exact ho.elim (h.conforms o) (hconforms o)

/-- Starting an epoch with the memberships in force establishes the invariant. -/
theorem inv_started {nr : EpochNr} {membership : Membership} {leaders : List NodeID}
    (hoffset : env.configOffset = S.configOffset)
    (hmemberships : i.state.memberships = window S.inForce nr.toNat (S.configOffset + 1))
    (hfirst : i.state.memberships[0]? = some membership)
    (hnone : i.state.nextNewMembership = none) (hpast : ∀ e, .newEpoch e ∈ i.out → e ≤ nr)
    (hrecorded : ∀ params, .newCheckpoint params ∈ i.out →
      .newEpoch params.epochConfig.epochNr ∈ i.out)
    (hconforms : ∀ o ∈ i.out, S.Conforms o) :
    S.Inv env (i.started env nr membership leaders) := by
  have hin : membership = S.inForce nr.toNat := by
    rw [hmemberships, window_getElem? _ _ _ (Nat.succ_pos _)] at hfirst
    exact (Option.some.inj hfirst).symm
  refine ⟨hoffset, hmemberships, ?_, newEpoch_mem_out_started, ?_, ?_, ?_⟩
  · intro m hm
    change i.state.nextNewMembership = some m at hm
    rw [hnone] at hm
    cases hm
  · intro e he
    rcases mem_out_started he with h | h | ⟨n, h⟩ | h | ⟨k, seg, h, -⟩
    · exact hpast e h
    · cases h
      exact UInt64.le_refl _
    all_goals cases h
  · intro params hmem
    rcases mem_out_started hmem with h | h | ⟨n, h⟩ | h | ⟨k, seg, h, -⟩
    · have hbefore := hrecorded params h
      simp only [Instance.started, Instance.addAll, Instance.enterEpoch, List.mem_append]
      exact .inl (.inl hbefore)
    all_goals cases h
  · intro o ho
    rcases mem_out_started ho with h | rfl | ⟨n, rfl⟩ | rfl | ⟨k, seg, rfl, hseg⟩
    · exact hconforms o h
    · trivial
    · exact hin
    · trivial
    · exact (membership_of_mem_segmentsFrom hseg).trans hin

theorem Inv.advance (h : S.Inv env i) (hnr : i.state.epoch.nr.toNat < 2 ^ 63)
    (hj : advanceEpoch env sorts i = .ok j) : S.Inv env j := by
  obtain ⟨old, next, memberships, membership, leaders, rfl, rfl, hm, hnext, hold, -⟩ :=
    advanceEpoch_eq_ok hj
  have hsucc := toNat_succ_of_lt hnr
  obtain rfl := h.announced next hnext
  have hwindow : i.state.memberships.drop 1 ++ [S.announce i.state.epoch.nr.toNat]
      = window S.inForce (i.state.epoch.nr + 1).toNat (S.configOffset + 1) := by
    rw [hsucc, ← window_shift, ← h.memberships, ← S.inForce_announced]
    congr 3
    omega
  have hlt : ∀ e, .newEpoch e ∈ i.out → e ≤ i.state.epoch.nr + 1 := by
    intro e he
    have hle := UInt64.le_iff_toNat_le.mp (h.past e he)
    rw [UInt64.le_iff_toNat_le, hsucc]
    omega
  have hstarted : S.Inv env ((i.shiftMemberships
      (i.state.memberships.drop 1 ++ [S.announce i.state.epoch.nr.toNat]) membership).started env
        (i.state.epoch.nr + 1) membership leaders) :=
    inv_started h.offset hwindow hm rfl hlt h.recorded h.conforms
  refine ⟨h.offset, hstarted.memberships, hstarted.announced, ?_, ?_, ?_, ?_⟩
  · exact List.mem_append_left _ hstarted.started
  · intro e he
    rcases List.mem_append.mp he with he | he
    · exact hstarted.past e he
    · simp at he
  · intro params hmem
    rcases List.mem_append.mp hmem with hmem | hmem
    · exact List.mem_append_left _ (hstarted.recorded params hmem)
    · simp only [List.mem_cons, List.not_mem_nil, or_false, reduceCtorEq, Output.newCheckpoint.injEq]
        at hmem
      subst hmem
      exact List.mem_append_left _ hstarted.started
  · intro o ho
    rcases List.mem_append.mp ho with ho | ho
    · exact hstarted.conforms o ho
    · simp only [List.mem_cons, List.not_mem_nil, or_false] at ho
      rcases ho with rfl | rfl
      · refine ⟨⟨i.state.epoch.nr.toNat, hsucc, ?_⟩, ?_⟩
        · -- The checkpoint is certified by the membership of the epoch that ends.
          rw [h.memberships, window_getElem? _ _ _ (Nat.succ_pos _)] at hold
          exact (Option.some.inj hold).symm
        · exact congrArg (fun ms => some (List.map some ms)) hwindow
      · trivial

theorem Inv.install {config : EpochConfig} (h : S.Inv env i) (hconfig : chkp.epochConfig = .ok config)
    (hmemberships : config.memberships =
      some ((window S.inForce config.epochNr.toNat (S.configOffset + 1)).map some))
    (hahead : i.state.epoch.nr ≤ config.epochNr)
    (hj : Iss.install env sorts chkp policy i = .ok j) : S.Inv env j := by
  obtain ⟨epoch, memberships, membership, leaders, rfl, hepoch, hms, hm, -⟩ := install_eq_ok hj
  obtain rfl : config.epochNr = epoch := by
    simpa [StableCheckpoint.epoch, hconfig] using hepoch
  have hwindow : memberships = window S.inForce config.epochNr.toNat (S.configOffset + 1) := by
    have hmap : (window S.inForce config.epochNr.toNat (S.configOffset + 1)).map some
        = memberships.map some := by
      simpa [StableCheckpoint.memberships, hconfig, hmemberships] using hms
    exact (List.map_injective_iff.mpr (Option.some_injective _) hmap).symm
  have hstarted : S.Inv env ((i.restore chkp policy memberships).started env config.epochNr
      membership leaders) := by
    refine inv_started h.offset hwindow hm rfl ?_ ?_ ?_
    · intro e he
      rcases List.mem_append.mp he with he | he
      · exact UInt64.le_trans (h.past e he) hahead
      · simp at he
    · intro params hmem
      rcases List.mem_append.mp hmem with hmem | hmem
      · exact List.mem_append_left _ (h.recorded params hmem)
      · simp at hmem
    · exact forall_mem_concat h.conforms trivial
  refine hstarted.frame rfl rfl hstarted.announced rfl ?_ ?_ ?_
  · intro o ho
    simp only [installOutputs, List.mem_cons, List.not_mem_nil, or_false] at ho
    rcases ho with rfl | rfl | rfl | rfl | rfl <;> trivial
  · simp [installOutputs]
  · simp [installOutputs]

/-- What the events of a node of the system say about memberships. -/
def Admits (S : System) (i : Instance) : Event → Prop
  | .newConfig e m => .newEpoch e ∈ i.out ∧ m = S.announce e.toNat
  | .checkpointValidated none chkp => ∃ config, chkp.epochConfig = .ok config ∧
    config.memberships =
      some ((window S.inForce config.epochNr.toNat (S.configOffset + 1)).map some)
  | _ => True

/-- **Elementary steps keep the pipeline exact.** -/
theorem Inv.micro {i₀ : Instance} {ev : Event} (h : S.Inv env i)
    (hrange : j.InRange) (hev : S.Admits i₀ ev) (hmicro : Micro env sorts i₀ ev i j) :
    S.Inv env j := by
  have hnr : i.state.epoch.nr.toNat < 2 ^ 63 :=
    hrange _ (hmicro.out_grows.subset h.started)
  cases hmicro with
  | suspect | commit =>
    exact h.frame rfl rfl h.announced (List.append_nil _).symm (by simp) (by simp) (by simp)
  | advance _ hj => exact h.advance hnr hj
  | deliver | requestCert | stabilize =>
    refine h.frame rfl rfl h.announced rfl (fun o ho => ?_) (by simp) (by simp)
    rw [List.mem_singleton.mp ho]
    trivial
  | @announce e m hle hnone =>
    -- The application announces for an epoch that was started, so not for a later one.
    obtain ⟨hstarted, rfl⟩ := hev
    obtain rfl : e = i.state.epoch.nr :=
      UInt64.le_antisymm (h.past e hstarted) (UInt64.not_lt.mp hle)
    refine h.frame rfl rfl (fun m hm => ?_) (List.append_nil _).symm (by simp) (by simp) (by simp)
    exact (Option.some.inj hm).symm
  | quiet hos =>
    refine h.frame rfl rfl h.announced rfl (fun o ho => conforms_of_isAuxiliary (hos o ho)) ?_ ?_
    · intro e he
      cases hos _ he
    · intro params hmem
      cases hos _ hmem
  | @install chkp epoch data policy j hepoch hahead _ _ hj =>
    obtain ⟨config, hconfig, hmemberships⟩ := hev
    obtain rfl : config.epochNr = epoch := by
      simpa [StableCheckpoint.epoch, hconfig] using hepoch
    have hlt := succ_lt_of_install hepoch hahead hj hnr hrange
    exact h.install hconfig hmemberships (UInt64.le_iff_toNat_le.mpr (by omega)) hj

/-- The first epoch of a node establishes the invariant. -/
theorem inv_start {i' : Instance} {config : EpochConfig}
    (hoffset : env.configOffset = S.configOffset) (hconfig : chkp.epochConfig = .ok config)
    (hmemberships : config.memberships =
      some ((window S.inForce config.epochNr.toNat (S.configOffset + 1)).map some))
    (hnew : new env chkp = .ok (some i)) (hinit : uponInit env sorts i = .ok i') :
    S.Inv env i' ∧ ∀ e, .newEpoch e ∈ i'.out → e = config.epochNr := by
  obtain ⟨data, policy, epoch, memberships, rfl, hms, -⟩ := new_eq_ok_some hnew
  obtain ⟨nr, hnr, hstart⟩ := Fallible.bind_eq_ok.mp hinit
  obtain ⟨membership, -, leaders, rfl, hm, -⟩ := startEpoch_eq_ok_iff.mp hstart
  obtain rfl : config.epochNr = nr := by
    change chkp.epoch = .ok nr at hnr
    simpa [StableCheckpoint.epoch, hconfig] using hnr
  have hmap : (window S.inForce config.epochNr.toNat (S.configOffset + 1)).map some
      = memberships.map some := by
    simpa [StableCheckpoint.memberships, hconfig, hmemberships] using hms
  have hwindow := (List.map_injective_iff.mpr (Option.some_injective _) hmap).symm
  refine ⟨inv_started hoffset hwindow hm rfl (by simp) (by simp) (by simp [Conforms]), ?_⟩
  intro e he
  rcases mem_out_started he with h | h | ⟨n, h⟩ | h | ⟨k, seg, h, -⟩
  · simp at h
  · cases h
    rfl
  all_goals cases h

/-- The epoch configuration of the initial checkpoint lists the memberships in force. -/
theorem memberships_of_genesis (hepoch : chkp.epoch = .ok 0)
    (hmemberships : chkp.memberships = .ok (S.genesis.map some)) :
    ∃ config, chkp.epochConfig = .ok config ∧ config.epochNr = 0 ∧ config.memberships =
      some ((window S.inForce config.epochNr.toNat (S.configOffset + 1)).map some) := by
  obtain ⟨config, hconfig, hnr⟩ := Fallible.bind_eq_ok.mp hepoch
  rw [Fallible.pure_eq_ok, Except.ok.injEq] at hnr
  have hget : config.memberships.getD [] = S.genesis.map some := by
    simpa [StableCheckpoint.memberships, hconfig] using hmemberships
  refine ⟨config, hconfig, hnr, ?_⟩
  rw [hnr]
  change _ = some ((window S.inForce 0 (S.configOffset + 1)).map some)
  rw [window_inForce_zero]
  cases hlist : config.memberships with
  | some ms => rw [← hget, hlist, Option.getD_some]
  | none =>
    rw [hlist, Option.getD_none] at hget
    have hlen := congrArg List.length hget
    rw [List.length_map, S.genesis_length] at hlen
    simp at hlen

/-- **Every node of the system has an exact pipeline**, and its epoch numbers stay in range. -/
theorem Running.inv (h : S.Running env i) : S.Inv env i ∧ i.InRange := by
  -- An event keeps the invariant at each of its elementary steps, up to a final instance in range.
  have hstep : ∀ {env : Env} {sorts : Sorts} {ev : Event} {i i' : Instance},
      S.Inv env i → S.Admits i ev → Iss.step env sorts i ev = .ok i' → i'.InRange →
      S.Inv env i' := by
    intro env sorts ev i i' hinv hev hs hrange
    refine step_invariant (P := fun a => a.InRange → S.Inv env a) hs (fun _ => hinv) ?_ hrange
    intro a b _ ha hmicro _ hb
    exact (ha fun e he => hb e (hmicro.out_grows.subset he)).micro hb hev hmicro
  induction h with
  | genesis hoffset hepoch hmemberships hnew hinit =>
    obtain ⟨config, hconfig, hnr, hms⟩ := memberships_of_genesis hepoch hmemberships
    obtain ⟨hinv, honly⟩ := inv_start hoffset hconfig hms hnew hinit
    refine ⟨hinv, fun e he => ?_⟩
    rw [honly e he, hnr]
    decide
  | join hoffset hj hrecorded hconfig hnew hinit ih =>
    obtain ⟨hinv, honly⟩ := inv_start hoffset hconfig (ih.1.conforms _ hrecorded).2 hnew hinit
    refine ⟨hinv, fun e he => ?_⟩
    rw [honly e he]
    exact ih.2 _ (ih.1.recorded _ hrecorded)
  | @step env sorts ev i i' hi hev hs hrange ih =>
    refine ⟨hstep ih.1 ?_ hs hrange, hrange⟩
    cases ev with
    | newConfig e m => exact hev
    | checkpointValidated err chkp =>
      cases err with
      | none => exact absurd hev not_false
      | some e => trivial
    | _ => trivial
  | @install env env' sorts chkp i i' j params hi hj hrecorded hconfig hs hrange ih ih' =>
    have hadmits : S.Admits i (.checkpointValidated none chkp) :=
      ⟨params.epochConfig, hconfig, (ih'.1.conforms _ hrecorded).2⟩
    exact ⟨hstep ih.1 hadmits hs hrange, hrange⟩

/-- The instance uses the memberships in force. -/
theorem Inv.usesIn (h : S.Inv env i) {e : ℕ} {m : Membership} (huse : i.UsesIn e m) :
    m = S.inForce e := by
  cases huse with
  | availability hmem | orderer hmem => exact h.conforms _ hmem
  | @checkpoint params _ hmem he =>
    obtain ⟨⟨e', he', hm⟩, -⟩ := h.conforms _ hmem
    rw [he', Nat.add_right_cancel_iff] at he
    rw [hm, he]

end System

/-- The pipeline of an instance is exact: it holds the memberships in force from the current epoch
on, and every epoch is run with the membership in force there, which is the one the application
announced `ConfigOffset + 1` epochs before. -/
structure PipelineExact (S : System) (env : Env) (i : Instance) : Prop where
  length : i.state.memberships.length = env.configOffset + 1
  entries : ∀ k ≤ env.configOffset,
    i.state.memberships[k]? = some (S.inForce (i.state.epoch.nr.toNat + k))
  used : ∀ e m, i.UsesIn e m → m = S.inForce e
  announced : ∀ e m, i.UsesIn (e + env.configOffset + 1) m → m = S.announce e

/-- Two instances never use different memberships in one epoch. -/
def SameMemberships (i j : Instance) : Prop :=
  ∀ e m m', i.UsesIn e m → j.UsesIn e m' → m = m'

/-- **The membership pipeline is exact** at every node of a system, and any two nodes use the same
membership in every epoch, whether they executed all epochs or restored some of them from a
checkpoint. -/
theorem memberships_exact (S : System) (env : Env) (i : Instance) (h : S.Running env i) :
    PipelineExact S env i ∧ ∀ env' j, S.Running env' j → SameMemberships i j := by
  have hinv := h.inv.1
  refine ⟨⟨?_, ?_, fun e m => hinv.usesIn, ?_⟩, ?_⟩
  · rw [hinv.memberships, length_window, hinv.offset]
  · intro k hk
    rw [hinv.offset] at hk
    rw [hinv.memberships, window_getElem? _ _ _ (Nat.lt_succ_of_le hk)]
  · intro e m huse
    rw [hinv.usesIn huse, hinv.offset, S.inForce_announced]
  · intro env' j hj e m m' huse huse'
    rw [hinv.usesIn huse, hj.inv.1.usesIn huse']

/-! ### Examples -/

instance (S : System) (i : Instance) (ev : Event) : Decidable (S.Allowed i ev) := by
  unfold System.Allowed
  split <;> infer_instance

/-- Testing that the epoch numbers are in the range of `int`. -/
def Instance.inRange (i : Instance) : Bool :=
  i.out.all fun
    | .newEpoch e => decide (e.toNat < 2 ^ 63)
    | _ => true

theorem Instance.inRange_of_test {i : Instance} (h : i.inRange = true) : i.InRange := by
  intro e he
  exact of_decide_eq_true (List.all_eq_true.mp h _ he)

theorem System.exists_running (S : System) {evs : List Event} {Q : Instance → Prop} [DecidablePred Q]
    (hoffset : env.configOffset = S.configOffset) (hepoch : chkp.epoch = .ok 0)
    (hmemberships : chkp.memberships = .ok (S.genesis.map some))
    (h : (execute env chkp S.Allowed (·.inRange = true) evs).any (fun i => Q i) = true) :
    ∃ i, S.Running env i ∧ Q i :=
  exists_of_execute (P := fun _ => S.Running env) h
    (fun hnew hinit _ => .genesis hoffset hepoch hmemberships hnew hinit)
    fun hi hev hok hgood => .step hi hev hok (Instance.inRange_of_test hgood)

/-- A system of one node, in which nothing changes. -/
def soloSystem : System := ⟨1, [soloMembership, soloMembership], fun _ => soloMembership, rfl⟩

/-- What happens at a node that executes epochs 0 and 1, with the membership announced in the first. -/
def twoEpochs (announced : Membership) : List Event :=
  [.sbDeliver 0 [2] false [97] (.segment 0 0), .certVerified true ⟨0, [2], false, [97]⟩,
    .newConfig 0 announced, .sbDeliver 0 [0] false [97] (.chkp 1),
    .sbDeliver 1 [2] false [97] (.segment 1 0), .certVerified true ⟨1, [2], false, [97]⟩,
    .newConfig 1 soloMembership]

/-- A node of `soloSystem`, with segments of one sequence number. -/
noncomputable def soloEnv : Env :=
  exampleEnv soloMembership 1 0 [exampleChkp soloMembership 1 1 simplePolicyData]

/-- Two members. -/
def pairMembership : Membership := .ofWeights [([97], [49]), ([98], [49])]

/-- A system of one node, to which another one is added for epoch 2. -/
def growingSystem : System :=
  ⟨1, [soloMembership, soloMembership], fun e => if e = 0 then pairMembership else soloMembership, rfl⟩

/-- The initial checkpoint of this system. -/
def growingGenesis : StableCheckpoint :=
  exampleChkp soloMembership 0 0 (LeaderPolicy.simpleType ++ [1, 0])

/-- The parameters of the checkpoint module of epoch 2. -/
def secondParams : Checkpoint.ModuleParams :=
  ⟨[97], soloMembership, ⟨2, 2, 2, some [some pairMembership, some soloMembership]⟩,
    some simplePolicyData, defaultResendPeriod⟩

/-- The first node of this system. The bytes `[0]` are its checkpoint of epoch 1. -/
noncomputable def growingEnv : Env :=
  { exampleEnv soloMembership 1 0 [chkpOf ⟨[97], soloMembership,
      ⟨1, 1, 1, some [some soloMembership, some pairMembership]⟩,
      some (LeaderPolicy.simpleType ++ [1, 0]), defaultResendPeriod⟩] with
    policyCodec := examplePolicyCodec [soloMembership, pairMembership] }

/-- A node that restores epoch 2 from the checkpoint of a node that executed epochs 0 and 1. -/
theorem memberships_exact_restored : ∃ i, growingSystem.Running growingEnv i ∧
    (i.state.epoch.nr = 2 ∧ i.state.memberships = [pairMembership, soloMembership]) ∧
    PipelineExact growingSystem growingEnv i := by
  obtain ⟨j, hj, hrecorded⟩ := growingSystem.exists_running rfl rfl rfl (by decide +kernel :
    (execute growingEnv growingGenesis growingSystem.Allowed (·.inRange = true)
      (twoEpochs pairMembership)).any (fun i => .newCheckpoint secondParams ∈ i.out) = true)
  -- The second node has only started epoch 0 when it installs the checkpoint.
  let install : Event := .checkpointValidated none (chkpOf secondParams)
  obtain ⟨i, hi, htest⟩ := exists_of_execute (P := fun _ => growingSystem.Running growingEnv)
    (by decide +kernel :
      (execute growingEnv growingGenesis (fun _ ev => ev = install) (·.inRange = true) [install]).any
        (fun i => i.state.epoch.nr = 2 ∧ i.state.memberships = [pairMembership, soloMembership]) =
          true)
    (fun hnew hinit _ => .genesis rfl rfl rfl hnew hinit) fun hi hev hok hgood =>
      .install hi hj hrecorded rfl (hev ▸ hok) (Instance.inRange_of_test hgood)
  exact ⟨i, hi, htest, (memberships_exact _ _ _ hi).1⟩

/-- **A forged checkpoint replaces the pipeline**: a checkpoint that lists memberships nobody
announced passes the syntactic check and the permissive validator, and the node installs it. -/
theorem forged_memberships : ¬ ∀ (S : System) (env : Env) (chkp : StableCheckpoint) (i : Instance),
    env.configOffset = S.configOffset → chkp.epoch = .ok 0 →
    chkp.memberships = .ok (S.genesis.map some) →
    Reachable env chkp (fun i ev => S.Allowed i ev ∨ ∃ c, ev = .checkpointValidated none c ∧
      c.syntacticCheck env.configOffset = .ok none ∧ i.validated env c = true) i →
    PipelineExact S env i := by
  intro hall
  let forged := exampleChkp pairMembership 10 100 simplePolicyData
  obtain ⟨i, hi, hnr, hfirst⟩ := exists_of_execute (P := fun _ => Reachable soloEnv _ _)
    (by decide +kernel :
      (execute soloEnv (exampleChkp soloMembership 0 0 simplePolicyData)
        (fun i ev => soloSystem.Allowed i ev ∨ ev = .checkpointValidated none forged ∧
          forged.syntacticCheck soloEnv.configOffset = .ok none ∧ i.validated soloEnv forged = true)
        (fun _ => True)
        [.stableCheckpointReceived [98] forged, .checkpointValidated none forged]).any (fun i =>
          i.state.epoch.nr = 10 ∧ i.state.memberships[0]? = some pairMembership) = true)
    (fun hnew hinit _ => .start hnew hinit) fun {_ i ev _} hi hev hok _ =>
      have hforged h : ∃ c, ev = .checkpointValidated none c ∧
        c.syntacticCheck soloEnv.configOffset = .ok none ∧ i.validated soloEnv c = true := ⟨forged, h⟩
      .step hi (hev.imp id hforged) hok
  have hentry := (hall soloSystem soloEnv _ i rfl rfl rfl hi).entries 0 (Nat.zero_le _)
  rw [hnr, hfirst] at hentry
  exact absurd hentry (by decide +kernel)

end Mir.Iss
