import Mir.Checkpoint.Certificate

/-!
# The checkpoint protocol

`checkpoint/protocol.go`: an instance collects the application's snapshot and the client progress,
has the snapshot hashed and signs it together with the epoch and its first sequence number. It
collects the other nodes' signatures of the same data, putting messages aside that arrive before its
own hash, and announces the checkpoint once a strong quorum has signed.

The instance runs against any environment that answers its requests, in any order and any number of
times, and delivers arbitrary Checkpoint messages (`Enabled`). `Inv` relates the hash, the requests
and the collected signatures to the snapshot; from it, `announced_certified` says that at most one
checkpoint is announced, and that it is certified.
-/

namespace Mir.Checkpoint

/-- `checkpoint.ModuleParams`. -/
structure ModuleParams where
  ownID : NodeID
  membership : Membership
  epochConfig : EpochConfig
  leaderPolicyData : ByteSlice
  resendPeriod : ℕ
  deriving DecidableEq

/-- `checkpointpb.Checkpoint`. -/
structure CheckpointMsg where
  epoch : EpochNr
  sn : SeqNr
  snapshotHash : Bytes
  signature : Bytes
  deriving DecidableEq

/-- `checkpoint.State`. Of the state snapshot, only the parts that events fill are kept here; the
others are parameters. -/
structure State where
  appData : ByteSlice
  clientProgress : Option ClientProgress
  stateSnapshotHash : ByteSlice
  signatures : GoMap NodeID Bytes
  sigReceived : GoMap NodeID Unit
  pendingMessages : Option (GoMap NodeID CheckpointMsg)
  announced : Bool

/-- The events an instance emits. -/
inductive Output
  | hashRequest (data : List Bytes)
  | signRequest (data : List Bytes)
  | verifySig (data : List Bytes) (signature : Bytes) (node : NodeID)
  | sendRepeatedly (period : ℕ) (retention : EpochNr) (msg : CheckpointMsg)
      (destinations : List NodeID)
  | epochProgress (node : NodeID) (epoch : EpochNr)
  | stableCheckpoint (sc : StableCheckpoint)
  deriving DecidableEq

/-- An instance: its state and the events it has emitted. -/
structure Instance where
  state : State
  out : List Output

/-- The events an instance consumes. -/
inductive Event
  | snapshot (appData : ByteSlice)
  | clientProgress (progress : GoMap ClientID DeliveredTXs)
  | hashResult (digest : Bytes)
  | signResult (sig : Bytes)
  | sigVerified (node : NodeID) (valid : Bool) (sig : Bytes)
  | checkpointReceived (sender : NodeID) (msg : CheckpointMsg)

/-! ### Handlers -/

/-- `state.StateSnapshot`. -/
def ModuleParams.stateSnapshot (p : ModuleParams) (s : State) : StateSnapshot :=
  ⟨s.appData, some ⟨some p.epochConfig, s.clientProgress, p.leaderPolicyData, some p.membership⟩⟩

/-- What is signed for a hash of the snapshot. -/
def ModuleParams.signedData (p : ModuleParams) (snapshotHash : Bytes) : List Bytes :=
  serializeCheckpointForSig p.epochConfig.epochNr p.epochConfig.firstSn snapshotHash

/-- `State.SnapshotReady`. -/
def State.snapshotReady (s : State) : Bool := s.appData.isSome && s.clientProgress.isSome

/-- `State.Stable`. -/
def State.stable (p : ModuleParams) (s : State) : Fallible Bool :=
  if s.snapshotReady then p.membership.haveStrongQuorum s.signatures.keys else .ok false

namespace Instance

/-- The state `NewModule` starts with. -/
def new : Instance := ⟨⟨none, none, none, ∅, ∅, some ∅, false⟩, []⟩

/-- Emit an event. -/
def emit (c : Instance) (x : Output) : Instance := { c with out := c.out ++ [x] }

/-- Change the state. -/
def withState (c : Instance) (s : State) : Instance := { c with state := s }

/-- `processStateSnapshot`. -/
def processStateSnapshot (enc : MembershipCodec) (p : ModuleParams) (c : Instance) :
    Fallible Instance := do
  let snapshotData ← serializeSnapshotForHash enc (p.stateSnapshot c.state)
  return c.emit (.hashRequest snapshotData)

/-- `UponSnapshot`; no data counts as empty data. -/
def uponSnapshot (enc : MembershipCodec) (p : ModuleParams) (c : Instance) (appData : ByteSlice) :
    Fallible Instance :=
  if c.state.appData.isNone then
    let c := c.withState { c.state with appData := some appData.bytes }
    if c.state.snapshotReady then c.processStateSnapshot enc p else .ok c
  else .ok c

/-- `UponClientProgress`. -/
def uponClientProgress (enc : MembershipCodec) (p : ModuleParams) (c : Instance)
    (progress : GoMap ClientID DeliveredTXs) : Fallible Instance :=
  if c.state.clientProgress.isNone then
    let c := c.withState { c.state with clientProgress := some ⟨progress⟩ }
    if c.state.snapshotReady then c.processStateSnapshot enc p else .ok c
  else .ok c

/-- `UponResultOne`. -/
def uponResultOne (p : ModuleParams) (c : Instance) (digest : Bytes) : Instance :=
  (c.withState { c.state with stateSnapshotHash := some digest }).emit
    (.signRequest (p.signedData digest))

/-- `announceStable`. -/
def announceStable (p : ModuleParams) (c : Instance) : Instance :=
  if c.state.announced then c
  else
    (c.withState { c.state with announced := true }).emit
      (.stableCheckpoint ⟨p.epochConfig.firstSn, some (p.stateSnapshot c.state),
        some c.state.signatures⟩)

/-- Announce the checkpoint if it is stable. -/
def announceIfStable (p : ModuleParams) (c : Instance) : Fallible Instance := do
  if ← c.state.stable p then return c.announceStable p else return c

/-- `applyCheckpointReceived`. -/
def applyCheckpointReceived (p : ModuleParams) (c : Instance) (sender : NodeID)
    (msg : CheckpointMsg) : Fallible Instance :=
  if msg.sn ≠ p.epochConfig.firstSn then .ok c
  else if msg.epoch ≠ p.epochConfig.epochNr then .ok c
  else if sender ∉ p.membership.nodes.keys then .ok c
  else do
    let c := c.emit (.epochProgress sender msg.epoch)
    if ← c.state.stable p then return c
    else
      match c.state.stateSnapshotHash with
      | none =>
        -- the message is early; assigning to a `nil` map panics
        let pending ← deref c.state.pendingMessages
        return c.withState { c.state with pendingMessages := some (pending.insert sender msg) }
      | some snapshotHash =>
        if snapshotHash ≠ msg.snapshotHash then return c
        else if sender ∈ c.state.sigReceived.keys then return c
        else
          let c := c.withState { c.state with sigReceived := c.state.sigReceived.insert sender () }
          return c.emit (.verifySig (p.signedData snapshotHash) msg.signature sender)

/-- Apply the pending message of a node, if there is one. -/
def applyPending (p : ModuleParams) (pending : GoMap NodeID CheckpointMsg) (c : Instance)
    (sender : NodeID) : Fallible Instance :=
  match pending.lookup sender with
  | some msg => c.applyCheckpointReceived p sender msg
  | none => .ok c

/-- `UponSignResult`; `order` is the order in which the pending messages are visited. -/
def uponSignResult (p : ModuleParams) (order : List NodeID) (c : Instance) (sig : Bytes) :
    Fallible Instance := do
  let c := c.withState { c.state with
    signatures := c.state.signatures.insert p.ownID sig
    sigReceived := c.state.sigReceived.insert p.ownID () }
  let c ← c.announceIfStable p
  let msg : CheckpointMsg :=
    ⟨p.epochConfig.epochNr, p.epochConfig.firstSn, c.state.stateSnapshotHash.bytes, sig⟩
  let c := c.emit (.sendRepeatedly p.resendPeriod p.epochConfig.epochNr msg
    (p.membership.nodes.sortedKeys GoString.le))
  let c ← order.foldlM (applyPending p (c.state.pendingMessages.getD ∅)) c
  return c.withState { c.state with pendingMessages := none }

/-- `UponSigVerified`. -/
def uponSigVerified (p : ModuleParams) (c : Instance) (node : NodeID) (valid : Bool) (sig : Bytes) :
    Fallible Instance :=
  if valid then
    (c.withState { c.state with
      signatures := c.state.signatures.insert node sig }).announceIfStable p
  else .ok c

/-- Consume one event. -/
def step (enc : MembershipCodec) (p : ModuleParams) (order : List NodeID) (c : Instance) :
    Event → Fallible Instance
  | .snapshot appData => c.uponSnapshot enc p appData
  | .clientProgress progress => c.uponClientProgress enc p progress
  | .hashResult digest => .ok (c.uponResultOne p digest)
  | .signResult sig => c.uponSignResult p order sig
  | .sigVerified node valid sig => c.uponSigVerified p node valid sig
  | .checkpointReceived sender msg => c.applyCheckpointReceived p sender msg

end Instance

/-! ### What a Checkpoint message does -/

/-- A message for this checkpoint, from a member. -/
structure Relevant (p : ModuleParams) (sender : NodeID) (msg : CheckpointMsg) : Prop where
  sn : msg.sn = p.epochConfig.firstSn
  epoch : msg.epoch = p.epochConfig.epochNr
  member : sender ∈ p.membership.nodes.keys

/-- What an instance does with a Checkpoint message. -/
inductive Receipt (p : ModuleParams) (sender : NodeID) (msg : CheckpointMsg) (c : Instance) :
    Instance → Prop
  | dropped (hirrelevant : ¬ Relevant p sender msg) : Receipt p sender msg c c
  | late (hrelevant : Relevant p sender msg) (hstable : c.state.stable p = .ok true) :
      Receipt p sender msg c (c.emit (.epochProgress sender msg.epoch))
  | early {pending : GoMap NodeID CheckpointMsg} (hrelevant : Relevant p sender msg)
      (hhash : c.state.stateSnapshotHash = none)
      (hpending : c.state.pendingMessages = some pending) :
      Receipt p sender msg c ((c.emit (.epochProgress sender msg.epoch)).withState
        { c.state with pendingMessages := some (pending.insert sender msg) })
  | ignored {snapshotHash : Bytes} (hrelevant : Relevant p sender msg)
      (hhash : c.state.stateSnapshotHash = some snapshotHash)
      (hno : snapshotHash ≠ msg.snapshotHash ∨ sender ∈ c.state.sigReceived.keys) :
      Receipt p sender msg c (c.emit (.epochProgress sender msg.epoch))
  | counted (hrelevant : Relevant p sender msg)
      (hhash : c.state.stateSnapshotHash = some msg.snapshotHash)
      (hfirst : sender ∉ c.state.sigReceived.keys) :
      Receipt p sender msg c (((c.emit (.epochProgress sender msg.epoch)).withState
        { c.state with sigReceived := c.state.sigReceived.insert sender () }).emit
          (.verifySig (p.signedData msg.snapshotHash) msg.signature sender))

theorem Instance.receipt_of_applyCheckpointReceived {p : ModuleParams} {c c' : Instance}
    {sender : NodeID} {msg : CheckpointMsg}
    (hstep : c.applyCheckpointReceived p sender msg = .ok c') : Receipt p sender msg c c' := by
  unfold Instance.applyCheckpointReceived at hstep
  split at hstep
  next hsn =>
    cases hstep
    exact .dropped fun h => hsn h.sn
  next hsn =>
  split at hstep
  next hepoch =>
    cases hstep
    exact .dropped fun h => hepoch h.epoch
  next hepoch =>
  split at hstep
  next hmem =>
    cases hstep
    exact .dropped fun h => hmem h.member
  next hmem =>
  have hrelevant : Relevant p sender msg := ⟨not_not.mp hsn, not_not.mp hepoch, not_not.mp hmem⟩
  obtain ⟨stable, hstable, hrest⟩ := Fallible.bind_eq_ok.mp hstep
  cases stable with
  | true =>
    cases hrest
    exact .late hrelevant hstable
  | false =>
    simp only [Bool.false_eq_true, if_false] at hrest
    split at hrest
    next hhash =>
      obtain ⟨pending, hpending, hstored⟩ := Fallible.bind_eq_ok.mp hrest
      cases hstored
      exact .early hrelevant hhash (deref_eq_ok.mp hpending)
    next snapshotHash hhash =>
      split at hrest
      next hne =>
        cases hrest
        exact .ignored hrelevant hhash (.inl hne)
      next heq =>
      split at hrest
      next hreceived =>
        cases hrest
        exact .ignored hrelevant hhash (.inr hreceived)
      next hfirst =>
        cases hrest
        obtain rfl := not_not.mp heq
        exact .counted hrelevant hhash hfirst

/-! ### Runs -/

/-- The events an instance may consume next: results answer requests, and everything else may be
anything. -/
def Enabled (env : Crypto) (p : ModuleParams) (c : Instance) : Event → Prop
  | .snapshot _ => True
  | .clientProgress _ => True
  | .hashResult digest => ∃ data, .hashRequest data ∈ c.out ∧ digest = env.hash data.flatten
  | .signResult sig => ∃ data, .signRequest data ∈ c.out ∧ env.verify data.flatten sig p.ownID
  | .sigVerified node valid sig =>
    ∃ data, .verifySig data sig node ∈ c.out ∧ valid = env.verify data.flatten sig node
  | .checkpointReceived _ _ => True

/-- The states an instance reaches, whatever the order of events and of map iterations. -/
inductive Reachable (env : Crypto) (enc : MembershipCodec) (p : ModuleParams) : Instance → Prop
  | init : Reachable env enc p .new
  | step {c c' : Instance} {ev : Event} {order : List NodeID} (h : Reachable env enc p c)
      (hen : Enabled env p c ev) (hord : order.Perm (c.state.pendingMessages.getD ∅).keys)
      (hstep : c.step enc p order ev = .ok c') : Reachable env enc p c'

/-- The checkpoints an instance has announced. -/
def Instance.announcements (c : Instance) : List StableCheckpoint :=
  c.out.filterMap fun x => match x with
    | .stableCheckpoint sc => some sc
    | _ => none

/-- **A certified checkpoint**: a strong quorum of members has signed the hash of its snapshot
together with its epoch and sequence number, and its certificate verifies. -/
structure Certified (env : Crypto) (enc : MembershipCodec) (p : ModuleParams)
    (sc : StableCheckpoint) : Prop where
  sn : sc.sn = p.epochConfig.firstSn
  epoch : sc.epoch = .ok p.epochConfig.epochNr
  signed : ∃ epoch snapshot data cert, sc.epoch = .ok epoch ∧ sc.snapshot = some snapshot ∧
    serializeSnapshotForHash enc snapshot = .ok data ∧ sc.cert = some cert ∧
    StableCheckpoint.ValidSignatures env p.membership
      (serializeCheckpointForSig epoch sc.sn (env.hash data.flatten)) cert ∧
    p.membership.haveStrongQuorum cert.keys = .ok true
  verifies : sc.verifyCert env enc p.membership = .ok none

/-! ### The invariant -/

/-- The hash of the snapshot is known to be `h`. -/
def Hashed (env : Crypto) (c : Instance) (h : Bytes) : Prop :=
  c.state.stateSnapshotHash = some h ∧
    ∃ data, .hashRequest data ∈ c.out ∧ h = env.hash data.flatten

/-- What the emitted events say: a hash is requested of the complete snapshot, signatures are made
and verified for its hash, and announced checkpoints are certified. -/
def Sound (env : Crypto) (enc : MembershipCodec) (p : ModuleParams) (c : Instance) : Output → Prop
  | .hashRequest data =>
    c.state.snapshotReady ∧ serializeSnapshotForHash enc (p.stateSnapshot c.state) = .ok data
  | .signRequest data => ∃ h, Hashed env c h ∧ data = p.signedData h
  | .verifySig data _ node =>
    node ∈ p.membership.nodes.keys ∧ ∃ h, Hashed env c h ∧ data = p.signedData h
  | .stableCheckpoint sc => Certified env enc p sc
  | .sendRepeatedly _ _ _ _ => True
  | .epochProgress _ _ => True

/-- What holds of an instance at any time. -/
structure Inv (env : Crypto) (enc : MembershipCodec) (p : ModuleParams) (c : Instance) : Prop where
  sound : ∀ x ∈ c.out, Sound env enc p c x
  hash : ∀ h, c.state.stateSnapshotHash = some h → Hashed env c h
  signatures : ∀ node sig, c.state.signatures.lookup node = some sig →
    node ∈ p.membership.nodes.keys ∧
      ∃ h, Hashed env c h ∧ env.verify (p.signedData h).flatten sig node = true
  announced : c.announcements.length = if c.state.announced then 1 else 0

section Invariant

variable {env : Crypto} {enc : MembershipCodec} {p : ModuleParams} {c c' : Instance}

theorem announcements_emit_of_ne (c : Instance) {x : Output} (hx : ∀ sc, x ≠ .stableCheckpoint sc) :
    (c.emit x).announcements = c.announcements := by
  cases x with
  | stableCheckpoint sc => exact absurd rfl (hx sc)
  | _ => simp [Instance.announcements, Instance.emit]

theorem mem_out_emit {x y : Output} : y ∈ (c.emit x).out ↔ y ∈ c.out ∨ y = x := by
  simp [Instance.emit]

theorem Hashed.emit {h : Bytes} (hh : Hashed env c h) (x : Output) : Hashed env (c.emit x) h := by
  obtain ⟨hstate, data, hdata, heq⟩ := hh
  exact ⟨hstate, data, mem_out_emit.mpr (.inl hdata), heq⟩

/-- What was said stays true if the complete snapshot and its hash stay. -/
theorem Sound.mono {x : Output} (h : Sound env enc p c x)
    (hready : c.state.snapshotReady → c'.state.snapshotReady ∧
      p.stateSnapshot c'.state = p.stateSnapshot c.state)
    (hhash : ∀ d, Hashed env c d → Hashed env c' d) : Sound env enc p c' x := by
  cases x with
  | hashRequest data =>
    obtain ⟨hready', hsnap⟩ := hready h.1
    exact ⟨hready', hsnap ▸ h.2⟩
  | signRequest data =>
    obtain ⟨d, hd, heq⟩ := h
    exact ⟨d, hhash d hd, heq⟩
  | verifySig data sig node =>
    obtain ⟨hmem, d, hd, heq⟩ := h
    exact ⟨hmem, d, hhash d hd, heq⟩
  | stableCheckpoint sc => exact h
  | sendRepeatedly period retention msg destinations => trivial
  | epochProgress node epoch => trivial

namespace Inv

theorem new : Inv env enc p .new := by
  constructor <;> simp [Instance.new, Instance.announcements]

/-- The hash is the one of the snapshot. -/
theorem hash_eq (h : Inv env enc p c) {d : Bytes} (hd : Hashed env c d) {data : List Bytes}
    (hdata : .hashRequest data ∈ c.out) : d = env.hash data.flatten := by
  obtain ⟨-, data', hdata', rfl⟩ := hd
  have hser := (h.sound _ hdata').2
  rw [(h.sound _ hdata).2, Except.ok.injEq] at hser
  rw [hser]

/-- Emitting an event that is sound and no announcement. -/
theorem emit (h : Inv env enc p c) {x : Output} (hx : Sound env enc p c x)
    (hstable : ∀ sc, x ≠ .stableCheckpoint sc) : Inv env enc p (c.emit x) := by
  have hmono : ∀ {y}, Sound env enc p c y → Sound env enc p (c.emit x) y := fun hy =>
    hy.mono (fun hready => ⟨hready, rfl⟩) fun d hd => hd.emit x
  refine ⟨fun y hy => ?_, fun d hd => (h.hash d hd).emit x, fun node sig hsig => ?_, ?_⟩
  · rcases mem_out_emit.mp hy with hold | rfl
    · exact hmono (h.sound y hold)
    · exact hmono hx
  · obtain ⟨hmem, d, hd, hv⟩ := h.signatures node sig hsig
    exact ⟨hmem, d, hd.emit x, hv⟩
  · rw [announcements_emit_of_ne c hstable]
    exact h.announced

/-- Changing the state without touching the complete snapshot, its hash and the signatures. -/
theorem withState (h : Inv env enc p c) (s : State)
    (hready : c.state.snapshotReady → s.snapshotReady ∧ p.stateSnapshot s = p.stateSnapshot c.state)
    (hhash : s.stateSnapshotHash = c.state.stateSnapshotHash)
    (hsigs : s.signatures = c.state.signatures) (hann : s.announced = c.state.announced) :
    Inv env enc p (c.withState s) := by
  have hmono : ∀ d, Hashed env c d → Hashed env (c.withState s) d := fun d hd =>
    ⟨hhash.trans hd.1, hd.2⟩
  refine ⟨fun x hx => (h.sound x hx).mono hready hmono,
    fun d hd => hmono d (h.hash d (hhash.symm.trans hd)), fun node sig hsig => ?_, ?_⟩
  · obtain ⟨hmem, d, hd, hv⟩ := h.signatures node sig (hsigs ▸ hsig)
    exact ⟨hmem, d, hmono d hd, hv⟩
  · exact h.announced.trans (by rw [← hann]; rfl)

/-- A part of the snapshot is filled while it is incomplete, and the snapshot is hashed if it is
complete then. -/
theorem fill (h : Inv env enc p c) (s : State) (hready : c.state.snapshotReady = false)
    (hhash : s.stateSnapshotHash = c.state.stateSnapshotHash)
    (hsigs : s.signatures = c.state.signatures) (hann : s.announced = c.state.announced)
    (hstep : (if s.snapshotReady then (c.withState s).processStateSnapshot enc p
      else .ok (c.withState s)) = .ok c') : Inv env enc p c' := by
  have hfilled : Inv env enc p (c.withState s) :=
    h.withState s (fun hcomplete => by rw [hready] at hcomplete; cases hcomplete) hhash hsigs hann
  split at hstep
  next hcomplete =>
    obtain ⟨data, hdata, hrest⟩ := Fallible.bind_eq_ok.mp hstep
    cases hrest
    exact hfilled.emit ⟨hcomplete, hdata⟩ (fun _ => nofun)
  next =>
    cases hstep
    exact hfilled

theorem uponSnapshot (h : Inv env enc p c) {appData : ByteSlice}
    (hstep : c.uponSnapshot enc p appData = .ok c') : Inv env enc p c' := by
  unfold Instance.uponSnapshot at hstep
  split at hstep
  next hnone =>
    have hready : c.state.snapshotReady = false := by
      simp [State.snapshotReady, Option.isNone_iff_eq_none.mp hnone]
    exact h.fill { c.state with appData := some appData.bytes } hready rfl rfl rfl hstep
  next =>
    cases hstep
    exact h

theorem uponClientProgress (h : Inv env enc p c) {progress : GoMap ClientID DeliveredTXs}
    (hstep : c.uponClientProgress enc p progress = .ok c') : Inv env enc p c' := by
  unfold Instance.uponClientProgress at hstep
  split at hstep
  next hnone =>
    have hready : c.state.snapshotReady = false := by
      simp [State.snapshotReady, Option.isNone_iff_eq_none.mp hnone]
    exact h.fill { c.state with clientProgress := some ⟨progress⟩ } hready rfl rfl rfl hstep
  next =>
    cases hstep
    exact h

/-- The hash arrives: it is the one that is known, or there was none. -/
theorem uponResultOne (h : Inv env enc p c) {data : List Bytes} (hreq : .hashRequest data ∈ c.out) :
    Inv env enc p (c.uponResultOne p (env.hash data.flatten)) := by
  let s := { c.state with stateSnapshotHash := some (env.hash data.flatten) }
  have hnew : Hashed env (c.withState s) (env.hash data.flatten) := ⟨rfl, data, hreq, rfl⟩
  have hmono : ∀ d, Hashed env c d → Hashed env (c.withState s) d := by
    intro d hd
    rw [h.hash_eq hd hreq]
    exact hnew
  have hstored : Inv env enc p (c.withState s) := by
    refine ⟨fun x hx => (h.sound x hx).mono (fun hready => ⟨hready, rfl⟩) hmono, fun d hd => ?_,
      fun node sig hsig => ?_, h.announced⟩
    · rw [← Option.some.inj hd]
      exact hnew
    · obtain ⟨hmem, d, hd, hv⟩ := h.signatures node sig hsig
      exact ⟨hmem, d, hmono d hd, hv⟩
  exact hstored.emit ⟨_, hnew, rfl⟩ (fun _ => nofun)

/-- A valid signature of a member is added. -/
theorem setSignature (h : Inv env enc p c) {node : NodeID} {sig d : Bytes} (hd : Hashed env c d)
    (hmem : node ∈ p.membership.nodes.keys)
    (hv : env.verify (p.signedData d).flatten sig node = true) (received : GoMap NodeID Unit) :
    Inv env enc p (c.withState { c.state with
      signatures := c.state.signatures.insert node sig
      sigReceived := received }) :=
  ⟨fun x hx => (h.sound x hx).mono (fun hready => ⟨hready, rfl⟩) fun _ hd => hd, h.hash,
    GoMap.forall_lookup_insert h.signatures ⟨hmem, d, hd, hv⟩, h.announced⟩

/-! ### Announcing -/

section Quorum

variable (hm : p.membership.Readable) (hnn : p.membership.NonNeg)

include hm hnn

/-- With a strong quorum of signatures, the checkpoint is certified. -/
theorem certified_of_stable (h : Inv env enc p c) {d : Bytes} (hd : Hashed env c d)
    (hstable : c.state.stable p = .ok true) :
    Certified env enc p ⟨p.epochConfig.firstSn, some (p.stateSnapshot c.state),
      some c.state.signatures⟩ := by
  have hstrong : p.membership.haveStrongQuorum c.state.signatures.keys = .ok true := by
    unfold State.stable at hstable
    split at hstable
    · exact hstable
    · cases hstable
  have hkeys : ∀ id ∈ c.state.signatures.keys, id ∈ p.membership.nodes.keys := by
    intro id hid
    obtain ⟨sig, hsig⟩ := GoMap.mem_keys_iff.mp hid
    exact (h.signatures id sig hsig).1
  have hnodup := c.state.signatures.keys_nodup
  have hweak : p.membership.haveWeakQuorum c.state.signatures.keys = .ok true :=
    (Membership.haveWeakQuorum_iff hm hkeys hnodup).mpr
      (((Membership.haveStrongQuorum_iff hm hkeys hnodup).mp hstrong).isWeak hnn)
  obtain ⟨-, data, hdata, -⟩ := hd
  have hser := (h.sound _ hdata).2
  have hvalid : StableCheckpoint.ValidSignatures env p.membership
      (p.signedData (env.hash data.flatten)) c.state.signatures := by
    intro node sig hsig
    obtain ⟨hmem, d, hd, hv⟩ := h.signatures node sig hsig
    rw [h.hash_eq hd hdata] at hv
    exact ⟨hmem, hv⟩
  exact ⟨rfl, rfl, ⟨_, _, data, _, rfl, rfl, hser, rfl, hvalid, hstrong⟩,
    StableCheckpoint.verifyCert_eq_none rfl rfl rfl hser hweak hvalid⟩

/-- Announcing a stable checkpoint. -/
theorem announceIfStable (h : Inv env enc p c) {d : Bytes} (hd : Hashed env c d)
    (hstep : c.announceIfStable p = .ok c') : Inv env enc p c' := by
  obtain ⟨stable, hstable, hrest⟩ := Fallible.bind_eq_ok.mp hstep
  cases stable with
  | false =>
    cases hrest
    exact h
  | true =>
    cases hrest
    unfold Instance.announceStable
    split
    next => exact h
    next hflag =>
      have hcert := h.certified_of_stable hm hnn hd hstable
      have hcount := h.announced
      rw [if_neg hflag, List.length_eq_zero_iff] at hcount
      have hmono : ∀ {x}, Sound env enc p c x → Sound env enc p ((c.withState { c.state with
          announced := true }).emit (.stableCheckpoint ⟨p.epochConfig.firstSn,
            some (p.stateSnapshot c.state), some c.state.signatures⟩)) x := fun hx =>
        hx.mono (fun hready => ⟨hready, rfl⟩) fun _ hd => Hashed.emit hd _
      refine ⟨fun x hx => ?_, fun d hd => (h.hash d hd).emit _, fun node sig hsig => ?_, ?_⟩
      · rcases mem_out_emit.mp hx with hold | rfl
        · exact hmono (h.sound x hold)
        · exact hcert
      · obtain ⟨hmem, d, hd, hv⟩ := h.signatures node sig hsig
        exact ⟨hmem, d, hd.emit _, hv⟩
      · have hone : ∀ sc, ((c.withState { c.state with announced := true }).emit
            (.stableCheckpoint sc)).announcements = c.announcements ++ [sc] := fun sc => by
          simp [Instance.announcements, Instance.emit, Instance.withState]
        rw [hone, hcount]
        rfl

end Quorum

/-! ### Messages -/

theorem applyCheckpointReceived (h : Inv env enc p c) {sender : NodeID} {msg : CheckpointMsg}
    (hstep : c.applyCheckpointReceived p sender msg = .ok c') : Inv env enc p c' := by
  have hnoted : Inv env enc p (c.emit (.epochProgress sender msg.epoch)) :=
    h.emit trivial (fun _ => nofun)
  cases Instance.receipt_of_applyCheckpointReceived hstep with
  | dropped => exact h
  | late => exact hnoted
  | early => exact hnoted.withState _ (fun hready => ⟨hready, rfl⟩) rfl rfl rfl
  | ignored => exact hnoted
  | counted hrelevant hhash =>
    have hreceived := hnoted.withState
      { c.state with sigReceived := c.state.sigReceived.insert sender () }
      (fun hready => ⟨hready, rfl⟩) rfl rfl rfl
    exact hreceived.emit ⟨hrelevant.member, msg.snapshotHash, hreceived.hash _ hhash, rfl⟩
      (fun _ => nofun)

theorem applyPending (h : Inv env enc p c) {pending : GoMap NodeID CheckpointMsg}
    {order : List NodeID} (hstep : order.foldlM (Instance.applyPending p pending) c = .ok c') :
    Inv env enc p c' := by
  refine FallibleLoop.foldlM_induction (I := fun _ c => Inv env enc p c) h
    (fun _ sender _ _ s s' hs happly => ?_) hstep
  unfold Instance.applyPending at happly
  split at happly
  · exact hs.applyCheckpointReceived happly
  · cases happly
    exact hs

/-- **Every step keeps the invariant.** -/
theorem step (h : Inv env enc p c) (hm : p.membership.Readable) (hnn : p.membership.NonNeg)
    (hown : p.ownID ∈ p.membership.nodes.keys) {ev : Event} {order : List NodeID}
    (hen : Enabled env p c ev) (hstep : c.step enc p order ev = .ok c') : Inv env enc p c' := by
  cases ev with
  | snapshot appData => exact h.uponSnapshot hstep
  | clientProgress progress => exact h.uponClientProgress hstep
  | hashResult digest =>
    cases hstep
    obtain ⟨data, hdata, rfl⟩ := hen
    exact h.uponResultOne hdata
  | signResult sig =>
    obtain ⟨data, hdata, hv⟩ := hen
    obtain ⟨d, hd, rfl⟩ := h.sound _ hdata
    have hsigned := h.setSignature hd hown hv (c.state.sigReceived.insert p.ownID ())
    obtain ⟨c₁, hannounce, hrest⟩ := Fallible.bind_eq_ok.mp hstep
    have hannounced := hsigned.announceIfStable hm hnn hd hannounce
    obtain ⟨c₂, hpending, hlast⟩ := Fallible.bind_eq_ok.mp hrest
    have hsent := hannounced.emit (x := .sendRepeatedly p.resendPeriod p.epochConfig.epochNr
      ⟨p.epochConfig.epochNr, p.epochConfig.firstSn, c₁.state.stateSnapshotHash.bytes, sig⟩
      (p.membership.nodes.sortedKeys GoString.le)) trivial (fun _ => nofun)
    have happlied := hsent.applyPending hpending
    cases hlast
    exact happlied.withState _ (fun hready => ⟨hready, rfl⟩) rfl rfl rfl
  | sigVerified node valid sig =>
    change c.uponSigVerified p node valid sig = .ok c' at hstep
    unfold Instance.uponSigVerified at hstep
    split at hstep
    next hvalid =>
      obtain ⟨data, hdata, hv⟩ := hen
      obtain ⟨hmem, d, hd, rfl⟩ := h.sound _ hdata
      exact (h.setSignature hd hmem (hv ▸ hvalid) c.state.sigReceived).announceIfStable hm hnn hd
        hstep
    next =>
      cases hstep
      exact h
  | checkpointReceived sender msg => exact h.applyCheckpointReceived hstep

end Inv

end Invariant

/-- The invariant holds in every reachable state. -/
theorem Reachable.inv {env : Crypto} {enc : MembershipCodec} {p : ModuleParams} {c : Instance}
    (hr : Reachable env enc p c) (hm : p.membership.Readable) (hnn : p.membership.NonNeg)
    (hown : p.ownID ∈ p.membership.nodes.keys) : Inv env enc p c := by
  induction hr with
  | init => exact Inv.new
  | step _ hen _ hstep ih => exact ih.step hm hnn hown hen hstep

/-! ### What is emitted -/

/-- The signed bytes determine what was signed. -/
theorem serializeCheckpointForSig_inj {e e' : EpochNr} {sn sn' : SeqNr} {d d' : Bytes}
    (h : (serializeCheckpointForSig e sn d).flatten = (serializeCheckpointForSig e' sn' d').flatten) :
    e = e' ∧ sn = sn' ∧ d = d' := by
  simp only [serializeCheckpointForSig, List.flatten_cons, List.flatten_nil, List.append_nil] at h
  obtain ⟨hepoch, h⟩ := SnapshotContent.uint64ToBytes_append_inj h
  exact ⟨hepoch, SnapshotContent.uint64ToBytes_append_inj h⟩

section Emitting

variable {env : Crypto} {enc : MembershipCodec} {p : ModuleParams} {c c' : Instance}

/-- What the protocol announces: its complete snapshot with the signatures of a strong quorum. -/
def Announced (p : ModuleParams) (sc : StableCheckpoint) : Prop :=
  ∃ s : State, s.snapshotReady = true ∧ s.signatures.keys ≠ [] ∧
    p.membership.haveStrongQuorum s.signatures.keys = .ok true ∧
    sc = ⟨p.epochConfig.firstSn, some (p.stateSnapshot s), some s.signatures⟩

/-- What is signed is a hash together with the instance's epoch and its first sequence number. -/
def Emitted (p : ModuleParams) : Output → Prop
  | .signRequest data => ∃ h, data = p.signedData h
  | .stableCheckpoint sc => Announced p sc
  | _ => True

/-- Every emitted event is as `Emitted` says. -/
def Emits (p : ModuleParams) (c : Instance) : Prop := ∀ x ∈ c.out, Emitted p x

theorem Emits.emit (h : Emits p c) {x : Output} (hx : Emitted p x) : Emits p (c.emit x) :=
  forall_mem_concat h hx

theorem Emits.withState (h : Emits p c) (s : State) : Emits p (c.withState s) := h

/-- A part of the snapshot is filled if it was missing, and a complete snapshot is hashed. -/
theorem Emits.fill (h : Emits p c) {missing : Prop} [Decidable missing] (s : State)
    (hstep : (if missing then
      if (c.withState s).state.snapshotReady then (c.withState s).processStateSnapshot enc p
      else .ok (c.withState s) else .ok c) = .ok c') : Emits p c' := by
  split at hstep
  next =>
    split at hstep
    next =>
      obtain ⟨data, -, hstep⟩ := Fallible.bind_eq_ok.mp hstep
      cases hstep
      exact (h.withState s).emit trivial
    next =>
      cases hstep
      exact h
  next =>
    cases hstep
    exact h

theorem Emits.announceIfStable (h : Emits p c) (hstep : c.announceIfStable p = .ok c')
    (hne : c.state.signatures.keys ≠ []) : Emits p c' := by
  obtain ⟨stable, hstable, hstep⟩ := Fallible.bind_eq_ok.mp hstep
  cases stable with
  | false =>
    cases hstep
    exact h
  | true =>
    cases hstep
    rw [Instance.announceStable]
    split
    next => exact h
    next =>
      unfold State.stable at hstable
      split at hstable
      next hready => exact (h.withState _).emit ⟨c.state, hready, hne, hstable, rfl⟩
      next => cases hstable

theorem Emits.applyCheckpointReceived (h : Emits p c) {sender : NodeID} {msg : CheckpointMsg}
    (hstep : c.applyCheckpointReceived p sender msg = .ok c') : Emits p c' := by
  have hnoted : Emits p (c.emit (.epochProgress sender msg.epoch)) := h.emit trivial
  cases Instance.receipt_of_applyCheckpointReceived hstep with
  | dropped => exact h
  | late => exact hnoted
  | early => exact hnoted
  | ignored => exact hnoted
  | counted => exact (hnoted.withState _).emit trivial

/-- Only `UponResultOne` asks for a signature, and only a stable checkpoint is announced. -/
theorem Reachable.emits (hr : Reachable env enc p c) : Emits p c := by
  have hinsert : ∀ (sigs : GoMap NodeID Bytes) node sig, (sigs.insert node sig).keys ≠ [] :=
    fun _ _ _ => List.ne_nil_of_mem (GoMap.mem_keys_insert.mpr (.inl rfl))
  induction hr with
  | init => exact List.forall_mem_nil _
  | @step c c' ev order _ _ _ hstep ih =>
    cases ev with
    | snapshot appData =>
      change c.uponSnapshot enc p appData = .ok c' at hstep
      rw [Instance.uponSnapshot] at hstep
      exact ih.fill { c.state with appData := some appData.bytes } hstep
    | clientProgress progress =>
      change c.uponClientProgress enc p progress = .ok c' at hstep
      rw [Instance.uponClientProgress] at hstep
      exact ih.fill { c.state with clientProgress := some ⟨progress⟩ } hstep
    | hashResult digest =>
      cases hstep
      exact (ih.withState _).emit ⟨digest, rfl⟩
    | signResult sig =>
      obtain ⟨c₁, hannounce, hstep⟩ := Fallible.bind_eq_ok.mp hstep
      obtain ⟨c₂, hpending, hstep⟩ := Fallible.bind_eq_ok.mp hstep
      have hannounced : Emits p c₁ := (ih.withState _).announceIfStable hannounce (hinsert _ _ _)
      cases hstep
      refine Emits.withState (c := c₂) ?_ _
      refine FallibleLoop.foldlM_induction (I := fun _ c => Emits p c) ?_
        (fun _ sender _ _ s s' hs happly => ?_) hpending
      · exact hannounced.emit trivial
      rw [Instance.applyPending] at happly
      split at happly
      next => exact hs.applyCheckpointReceived happly
      next =>
        cases happly
        exact hs
    | sigVerified node valid sig =>
      change c.uponSigVerified p node valid sig = .ok c' at hstep
      rw [Instance.uponSigVerified] at hstep
      split at hstep
      next => exact (ih.withState _).announceIfStable hstep (hinsert _ _ _)
      next =>
        cases hstep
        exact ih
    | checkpointReceived sender msg => exact ih.applyCheckpointReceived hstep

theorem mem_announcements {sc : StableCheckpoint} :
    sc ∈ c.announcements ↔ .stableCheckpoint sc ∈ c.out := by
  rw [Instance.announcements, List.mem_filterMap]
  constructor
  · rintro ⟨x, hx, hmatch⟩
    cases x with
    | stableCheckpoint sc' => exact Option.some.inj hmatch ▸ hx
    | _ => cases hmatch
  · exact fun h => ⟨_, h, rfl⟩

theorem Reachable.announced {sc : StableCheckpoint} (hr : Reachable env enc p c)
    (hsc : sc ∈ c.announcements) : Announced p sc := hr.emits _ (mem_announcements.mp hsc)

end Emitting

/-! ### A run with several members -/

section Execution

open FallibleLoop

variable {env : Crypto} {enc : MembershipCodec} {p : ModuleParams} {c : Instance}

/-- A test that only enabled events pass: results answer the request for some data. -/
def answers (env : Crypto) (p : ModuleParams) (c : Instance) (data : List Bytes) : Event → Bool
  | .hashResult digest => .hashRequest data ∈ c.out ∧ digest = env.hash data.flatten
  | .signResult sig => .signRequest data ∈ c.out ∧ env.verify data.flatten sig p.ownID
  | .sigVerified node valid sig =>
    .verifySig data sig node ∈ c.out ∧ valid = env.verify data.flatten sig node
  | _ => true

theorem enabled_of_answers {data : List Bytes} {ev : Event} (h : answers env p c data ev = true) :
    Enabled env p c ev := by
  cases ev with
  | hashResult | signResult | sigVerified => exact ⟨data, of_decide_eq_true h⟩
  | _ => trivial

/-- One more event, with the data of the request that it answers. -/
def next? (env : Crypto) (enc : MembershipCodec) (p : ModuleParams) (c : Instance)
    (e : List Bytes × Event) : Option Instance :=
  attempt (answers env p c e.1 e.2 = true)
    (c.step enc p (c.state.pendingMessages.getD ∅).keys e.2) id

theorem exists_reachable {evs : List (List Bytes × Event)} {Q : Instance → Prop} [DecidablePred Q]
    (h : (evs.foldlM (next? env enc p) .new).any (fun c => Q c) = true) :
    ∃ c, Reachable env enc p c ∧ Q c := by
  refine exists_of_steps h .init fun _ hc hnext => ?_
  obtain ⟨hen, c', hstep, rfl⟩ := attempt_eq_some.mp hnext
  exact .step hc (enabled_of_answers hen) (.refl _) hstep

end Execution

/-- The instance of one of four members, in epoch 1. -/
def memberParams (id : NodeID) : ModuleParams :=
  ⟨id, .fourMembers, ⟨1, 8, 8, some [some .fourMembers]⟩, some [1], 0⟩

/-- Members `a`, `b` and `c`; member `d` is faulty. -/
def correctMembers : List NodeID := [[97], [98], [99]]

/-- What is hashed for the application's data. -/
def memberData (app : Bytes) : List Bytes :=
  [uint64ToBytes 1, uint64ToBytes 8, uint64ToBytes 8, [1], [1], [1], app]

/-- What is signed. -/
def memberSigned (app : Bytes) : List Bytes := (memberParams []).signedData (memberData app).flatten

/-- A node's signature is its name, and verifies only for the checkpoint. -/
def memberCrypto (app : Bytes) : Crypto where
  hash := id
  verify bytes sig id := decide (sig = id ∧ bytes = (memberSigned app).flatten)

/-- A member gets the signature of another one before it signs, rejects the signature of `d`, and
accepts those of both others. -/
def memberRun (app : Bytes) (id : NodeID) : List (List Bytes × Event) :=
  match correctMembers.erase id with
  | [early, late] =>
    let signature id sig := ([], .checkpointReceived id ⟨1, 8, (memberData app).flatten, sig⟩)
    [signature early early, ([], .snapshot (some app)), ([], .clientProgress ∅),
      (memberData app, .hashResult (memberData app).flatten), (memberSigned app, .signResult id),
      signature [100] [], (memberSigned app, .sigVerified [100] false []), signature late late,
      (memberSigned app, .sigVerified late true late),
      (memberSigned app, .sigVerified early true early)]
  | _ => []

/-- The checkpoint that the member announces then. -/
def memberChkp (app : Bytes) (id : NodeID) : StableCheckpoint :=
  ⟨8, some ⟨some app, some ⟨some (memberParams id).epochConfig, some ⟨∅⟩, some [1],
    some .fourMembers⟩⟩,
    some ((id :: (correctMembers.erase id).reverse).foldl (fun cert i => cert.insert i i) ∅)⟩

/-- **A run with several members**, for an application with data and for one without. -/
theorem exists_announced (app : Bytes) (happ : app ∈ [[], [7]]) (id : NodeID)
    (hid : id ∈ correctMembers) :
    ∃ c, Reachable (memberCrypto app) fourCodec (memberParams id) c ∧
      .signRequest (memberSigned app) ∈ c.out ∧ c.announcements = [memberChkp app id] := by
  have hall : ∀ app ∈ [[], [7]], ∀ id ∈ correctMembers, ((memberRun app id).foldlM
      (next? (memberCrypto app) fourCodec (memberParams id)) .new).any (fun c =>
        .signRequest (memberSigned app) ∈ c.out ∧ c.announcements = [memberChkp app id]) = true := by
    decide +kernel
  exact exists_reachable (hall app happ id hid)

/-! ### Announced checkpoints -/

/-- **Announced checkpoints are certified**: in every run of an instance by a member, at most one
checkpoint is announced, and it is certified. -/
theorem announced_certified (env : Crypto) (enc : MembershipCodec) (p : ModuleParams)
    (hm : p.membership.Readable) (hnn : p.membership.NonNeg)
    (hown : p.ownID ∈ p.membership.nodes.keys) (c : Instance) (hr : Reachable env enc p c) :
    c.announcements.length ≤ 1 ∧ ∀ sc ∈ c.announcements, Certified env enc p sc := by
  have hinv := hr.inv hm hnn hown
  refine ⟨?_, fun sc hsc => hinv.sound _ (mem_announcements.mp hsc)⟩
  rw [hinv.announced]
  split <;> omega

/-- Member `a` announces a checkpoint that `b` and `c` have signed as well. -/
theorem announced_certified_four : ∃ env enc c, Reachable env enc (memberParams [97]) c ∧
    ∃ sc cert, c.announcements = [sc] ∧ sc.cert = some cert ∧ cert.keys.Perm correctMembers ∧
      Certified env enc (memberParams [97]) sc := by
  obtain ⟨c, hc, -, hsingle⟩ := exists_announced [7] (by decide) [97] (by decide)
  obtain ⟨-, hcert⟩ := announced_certified _ _ (memberParams [97])
    Membership.fourMembers_proper.readable Membership.fourMembers_proper.nonNeg (by decide +kernel)
    c hc
  exact ⟨_, _, c, hc, _, _, hsingle, rfl, by decide +kernel, hcert _ (by simp [hsingle])⟩

end Mir.Checkpoint
