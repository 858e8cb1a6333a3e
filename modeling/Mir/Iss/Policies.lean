import Mir.Iss.Delivery

/-!
# Agreement on deliveries and leader policies

Nodes whose orderers deliver the same values pass the same certificates to their applications,
however the events interleave and whichever checkpoints they install (`deliveries_agree`). They
should also start every epoch with the same leader policy, because the policy is part of the
checkpoint that they certify together.

What the policies should be is said by `Decisions`: the values that the orderers deliver, and from
them, for each epoch, where it starts and with which policy (`Decisions.start`). All leaders whose
proposals fail in an epoch are suspected in this epoch, in any order, and then the policy is
reconfigured.

A node suspects a leader as soon as it finds the certificate unparsable or invalid, and always in
the epoch it is in at that time. If it has installed a checkpoint in between, this is not the epoch
of the proposal, and the node alone records the suspicion (`late_suspicion`). Nodes agree as long
as such late results are not about earlier epochs, and the number of leaders does not depend on how
ties are sorted (`policies_agree`).
-/

namespace Mir.Iss

open Checkpoint Coding

/-! ### Suspecting sets of nodes -/

namespace BlacklistLeaderPolicy

variable {l : BlacklistLeaderPolicy} {e : EpochNr} {id node : NodeID}

/-- A suspicion of the node in epoch `e` changes its entry. -/
def Suspectable (l : BlacklistLeaderPolicy) (e : EpochNr) (id : NodeID) : Prop :=
  l.suspected.isSome ∧ (∃ m, l.membership = some m ∧ id ∈ m.nodes.keys) ∧
    (l.lastSuspected id).all (· < e) = true

/-- `l'` is `l` after some nodes have been suspected in epoch `e`. -/
structure Blamed (l : BlacklistLeaderPolicy) (e : EpochNr) (nodes : Set NodeID)
    (l' : BlacklistLeaderPolicy) : Prop where
  membership : l'.membership = l.membership
  isSome : l'.suspected.isSome = l.suspected.isSome
  suspected : ∀ id, (id ∈ nodes ∧ l.Suspectable e id → l'.lastSuspected id = some e) ∧
    (¬ (id ∈ nodes ∧ l.Suspectable e id) → l'.lastSuspected id = l.lastSuspected id)

theorem blamed_empty (l : BlacklistLeaderPolicy) (e : EpochNr) : l.Blamed e ∅ l :=
  ⟨rfl, rfl, fun _ => ⟨fun h => absurd h.1 (Set.notMem_empty _), fun _ => rfl⟩⟩

/-- The set of suspected nodes determines the policy. -/
theorem Blamed.unique {nodes : Set NodeID} {l₁ l₂ : BlacklistLeaderPolicy}
    (h₁ : l.Blamed e nodes l₁) (h₂ : l.Blamed e nodes l₂) : l₁ = l₂ := by
  have hlast : ∀ id, l₁.lastSuspected id = l₂.lastSuspected id := by
    intro id
    by_cases hid : id ∈ nodes ∧ l.Suspectable e id
    · rw [(h₁.suspected id).1 hid, (h₂.suspected id).1 hid]
    · rw [(h₁.suspected id).2 hid, (h₂.suspected id).2 hid]
  have hmembership : l₁.membership = l₂.membership := h₁.membership.trans h₂.membership.symm
  have hisSome : l₁.suspected.isSome = l₂.suspected.isSome := h₁.isSome.trans h₂.isSome.symm
  obtain ⟨m₁, s₁⟩ := l₁
  obtain ⟨m₂, s₂⟩ := l₂
  obtain rfl : m₁ = m₂ := hmembership
  cases s₁ with
  | none =>
    cases s₂ with
    | none => rfl
    | some s₂ => cases hisSome
  | some s₁ =>
    cases s₂ with
    | none => cases hisSome
    | some s₂ =>
      obtain rfl : s₁ = s₂ := Finmap.ext_lookup hlast
      rfl

/-- `Suspect`, or nothing when it panics. -/
def blame (l : BlacklistLeaderPolicy) (e : EpochNr) (node : NodeID) : BlacklistLeaderPolicy :=
  (l.suspect e node).toOption.getD l

/-- `Suspect` changes the entry of a node that can be suspected, and nothing else. -/
theorem blame_eq (l : BlacklistLeaderPolicy) (e : EpochNr) (node : NodeID) :
    (∃ s, l.suspected = some s ∧ l.Suspectable e node ∧
      l.blame e node = { l with suspected := some (s.insert node e) }) ∨
    (¬ l.Suspectable e node ∧ l.blame e node = l) := by
  by_cases h : l.Suspectable e node
  · obtain ⟨hs, ⟨m, hm, hnode⟩, hlast⟩ := h
    obtain ⟨s, hs⟩ := Option.isSome_iff_exists.mp hs
    refine .inl ⟨s, hs, ⟨by rw [hs]; rfl, ⟨m, hm, hnode⟩, hlast⟩, ?_⟩
    simp [blame, suspect, hm, deref, hnode, hlast, hs, Except.toOption]
  · refine .inr ⟨h, ?_⟩
    cases hm : l.membership with
    | none => simp [blame, suspect, hm, deref, Except.toOption]
    | some m =>
      by_cases hnode : node ∈ m.nodes.keys
      · by_cases hlast : (l.lastSuspected node).all (· < e) = true
        · cases hs : l.suspected with
          | none => simp [blame, suspect, hm, deref, hnode, hlast, hs, Except.toOption]
          | some s => exact absurd ⟨by rw [hs]; rfl, ⟨m, hm, hnode⟩, hlast⟩ h
        · simp [blame, suspect, hm, deref, hlast, Except.toOption]
      · simp [blame, suspect, hm, deref, hnode, Except.toOption]

/-- Suspecting one more node. -/
theorem Blamed.blame {nodes : Set NodeID} {l₁ : BlacklistLeaderPolicy} (h : l.Blamed e nodes l₁)
    (node : NodeID) : l.Blamed e (insert node nodes) (l₁.blame e node) := by
  -- a node can still be suspected if it has not been
  have hstill : l₁.Suspectable e node ↔ node ∉ nodes ∧ l.Suspectable e node := by
    rw [Suspectable, h.isSome, h.membership]
    by_cases hnode : node ∈ nodes ∧ l.Suspectable e node
    · rw [(h.suspected node).1 hnode]
      simp [hnode.1, UInt64.lt_irrefl]
    · rw [(h.suspected node).2 hnode]
      exact ⟨fun hs => ⟨fun hmem => hnode ⟨hmem, hs⟩, hs⟩, fun hs => hs.2⟩
  obtain ⟨s, hs, hsus, heq⟩ | ⟨hsus, heq⟩ := l₁.blame_eq e node
  · rw [heq]
    refine ⟨h.membership, by rw [← h.isSome, hs]; rfl, fun id => ?_⟩
    by_cases hid : id = node
    · subst hid
      have hnew : ({ l₁ with suspected := some (s.insert id e) } : BlacklistLeaderPolicy).lastSuspected
          id = some e := Finmap.lookup_insert s
      exact ⟨fun _ => hnew, fun hnot => absurd ⟨Set.mem_insert _ _, (hstill.mp hsus).2⟩ hnot⟩
    · have hold : ({ l₁ with suspected := some (s.insert node e) } :
          BlacklistLeaderPolicy).lastSuspected id = l₁.lastSuspected id := by
        rw [lastSuspected, lastSuspected, hs]
        exact Finmap.lookup_insert_of_ne s hid
      rw [hold, Set.mem_insert_iff, or_iff_right hid]
      exact h.suspected id
  · rw [heq]
    refine ⟨h.membership, h.isSome, fun id => ?_⟩
    by_cases hid : id = node
    · subst hid
      refine ⟨fun hmem => (h.suspected id).1 ⟨?_, hmem.2⟩, fun hnot => (h.suspected id).2 ?_⟩
      · by_contra hnot
        exact hsus (hstill.mpr ⟨hnot, hmem.2⟩)
      · exact fun hmem => hnot ⟨Set.mem_insert _ _, hmem.2⟩
    · rw [Set.mem_insert_iff, or_iff_right hid]
      exact h.suspected id

end BlacklistLeaderPolicy

namespace LeaderPolicy

variable {p p' : LeaderPolicy} {e : EpochNr} {nodes : Set NodeID}

/-- `Suspect`, or nothing when it panics. -/
def blame (p : LeaderPolicy) (e : EpochNr) (node : NodeID) : LeaderPolicy :=
  match p with
  | .simple p => .simple p
  | .blacklist l => .blacklist (l.blame e node)

theorem blame_of_suspect {node : NodeID} (h : p.suspect e node = .ok p') : p' = p.blame e node := by
  cases p with
  | simple p =>
    cases h
    rfl
  | blacklist l =>
    obtain ⟨l', hl', h⟩ := Fallible.bind_eq_ok.mp h
    cases h
    rw [blame, BlacklistLeaderPolicy.blame, hl']
    rfl

/-- `p'` is `p` after some nodes have been suspected in epoch `e`. -/
def Blamed (p : LeaderPolicy) (e : EpochNr) (nodes : Set NodeID) (p' : LeaderPolicy) : Prop :=
  match p, p' with
  | .simple p, .simple p' => p' = p
  | .blacklist l, .blacklist l' => l.Blamed e nodes l'
  | _, _ => False

theorem blamed_empty (p : LeaderPolicy) (e : EpochNr) : p.Blamed e ∅ p := by
  cases p with
  | simple p => rfl
  | blacklist l => exact l.blamed_empty e

theorem Blamed.blame (h : p.Blamed e nodes p') (node : NodeID) :
    p.Blamed e (insert node nodes) (p'.blame e node) := by
  cases p <;> cases p' <;> first | exact h | exact BlacklistLeaderPolicy.Blamed.blame h node

theorem Blamed.unique {p₁ p₂ : LeaderPolicy} (h₁ : p.Blamed e nodes p₁) (h₂ : p.Blamed e nodes p₂) :
    p₁ = p₂ := by
  -- a policy keeps its kind when nodes are suspected
  cases p <;> cases p₁ <;> first | exact h₁.elim | skip
  all_goals cases p₂ <;> first | exact h₂.elim | skip
  · exact congrArg _ (Eq.trans h₁ (Eq.symm h₂))
  · exact congrArg _ (BlacklistLeaderPolicy.Blamed.unique h₁ h₂)

/-- Suspect some nodes, one after the other. -/
def blameAll (p : LeaderPolicy) (e : EpochNr) (nodes : List NodeID) : LeaderPolicy :=
  nodes.foldl (fun p node => p.blame e node) p

theorem blamed_blameAll (p : LeaderPolicy) (e : EpochNr) (nodes : List NodeID) :
    p.Blamed e { node | node ∈ nodes } (p.blameAll e nodes) := by
  induction nodes using List.reverseRecOn with
  | nil => simpa [blameAll] using p.blamed_empty e
  | append_singleton nodes node ih =>
    have hset : { n | n ∈ nodes ++ [node] } = insert node { n | n ∈ nodes } := by
      ext n
      simp [or_comm]
    rw [hset, blameAll, List.foldl_append]
    exact ih.blame node

/-- The number of leaders, as one way to sort ties determines it. -/
def leaderCount (p : LeaderPolicy) : ℕ := ((p.leadersBy .insertion).toOption.getD []).length

/-- The number of leaders does not depend on how ties are sorted. -/
def SameCount (p : LeaderPolicy) : Prop :=
  ∀ sort leaders, p.leadersBy sort = .ok leaders → leaders.length = p.leaderCount

end LeaderPolicy

/-! ### What the orderers decide -/

/-- What the nodes of a system have in common: the memberships, the parameters and library code that
determine epochs and leader policies, what the orderers deliver for each sequence number, and
whether its certificate is found valid. -/
structure Decisions extends System where
  segmentLength : ℕ
  policyCodec : PolicyCodec
  unmarshalCert : Bytes → Option Cert
  firstSN : ℕ
  firstPolicy : LeaderPolicy
  data : SeqNr → Bytes
  aborted : SeqNr → Bool
  leader : SeqNr → NodeID
  valid : SeqNr → Bool

namespace Decisions

variable (D : Decisions)

/-- The leader of a sequence number fails: it is aborted, or its certificate is not valid. -/
def fails (sn : SeqNr) : Bool :=
  D.aborted sn || (D.unmarshalCert (D.data sn)).isNone || !D.valid sn

/-- The leaders that fail in a range of sequence numbers. -/
def failing (first last : ℕ) : List NodeID :=
  (((List.range' first (last - first)).map UInt64.ofNat).filter D.fails).map D.leader

/-- Where each epoch starts, and with which leader policy. -/
def start : ℕ → ℕ × LeaderPolicy
  | 0 => (D.firstSN, D.firstPolicy)
  | e + 1 =>
    let (first, policy) := start e
    let last := first + policy.leaderCount * D.segmentLength
    (last, (policy.blameAll e.toUInt64 (D.failing first last)).reconfigure (D.inForce (e + 1)))

/-- The first sequence number of an epoch. -/
def first (e : ℕ) : ℕ := (D.start e).1

/-- The leader policy at the start of an epoch. -/
def policy (e : ℕ) : LeaderPolicy := (D.start e).2

theorem first_succ (e : ℕ) :
    D.first (e + 1) = D.first e + (D.policy e).leaderCount * D.segmentLength := rfl

theorem policy_succ (e : ℕ) : D.policy (e + 1) =
    ((D.policy e).blameAll e.toUInt64 (D.failing (D.first e) (D.first (e + 1)))).reconfigure
      (D.inForce (e + 1)) := rfl

theorem first_mono : Monotone D.first :=
  monotone_nat_of_le_succ fun e => by
    rw [first_succ]
    exact Nat.le_add_right _ _

theorem mem_failing {first last : ℕ} {node : NodeID} :
    node ∈ D.failing first last ↔ ∃ n, first ≤ n ∧ n < last ∧ D.fails (UInt64.ofNat n) = true ∧
      D.leader (UInt64.ofNat n) = node := by
  simp only [failing, List.mem_map, List.mem_filter, List.mem_range'_1]
  constructor
  · rintro ⟨sn, ⟨⟨n, ⟨hge, hlt⟩, rfl⟩, hfails⟩, hleader⟩
    exact ⟨n, hge, by omega, hfails, hleader⟩
  · rintro ⟨n, hge, hlt, hfails, hleader⟩
    exact ⟨_, ⟨⟨n, ⟨hge, by omega⟩, rfl⟩, hfails⟩, hleader⟩

theorem mem_failing_of_sn {first last : ℕ} {sn : SeqNr} (hge : first ≤ sn.toNat)
    (hlt : sn.toNat < last) (hfails : D.fails sn = true) : D.leader sn ∈ D.failing first last :=
  D.mem_failing.mpr ⟨sn.toNat, hge, hlt, by rwa [UInt64.ofNat_toNat], by rw [UInt64.ofNat_toNat]⟩

/-! ### Runs -/

/-- A node of the system. -/
structure Governs (env : Env) : Prop where
  offset : env.configOffset = D.configOffset
  segmentLength : env.segmentLength = D.segmentLength
  policyCodec : env.policyCodec = D.policyCodec
  unmarshalCert : env.unmarshalCert = D.unmarshalCert

/-- The orderers of a node deliver the decided values, certificates are verified with the decided
verdict, and the application announces the memberships of the system. Installing a checkpoint is
treated apart. -/
def Delivers (i : Instance) : Event → Prop
  | .sbDeliver sn data aborted leader (.segment epoch k) => i.orders epoch k sn = true ∧
      data = D.data sn ∧ aborted = D.aborted sn ∧ leader = D.leader sn
  | .certVerified valid context => i.requests context = true ∧ valid = D.valid context.sn
  | .newConfig e m => .newEpoch e ∈ i.out ∧ m = D.announce e.toNat
  | .checkpointValidated none _ => False
  | _ => True

end Decisions

/-- The checkpoint that a checkpoint module with the given parameters makes. -/
structure MadeBy (chkp : StableCheckpoint) (params : Checkpoint.ModuleParams) : Prop where
  config : chkp.epochConfig = .ok params.epochConfig
  sn : chkp.sn = params.epochConfig.firstSn
  policy : ∃ data, chkp.epochData = .ok data ∧ data.leaderPolicy = params.leaderPolicyData

/-- The nodes of a system whose orderers agree. They start from the initial checkpoint, or from one
that a node of the system has made, and install only such checkpoints. `Timely` restricts the events,
and `Definite` the instances. -/
inductive Decisions.Running (D : Decisions) (Timely : Env → Instance → Event → Prop)
    (Definite : Env → Instance → Prop) : Env → Instance → Prop
  | genesis {env : Env} {sorts : Sorts} {chkp : StableCheckpoint} {data : EpochData}
      {i i' : Instance} (henv : D.Governs env) (hepoch : chkp.epoch = .ok 0)
      (hmemberships : chkp.memberships = .ok (D.genesis.map some))
      (hsn : chkp.sn.toNat = D.firstSN) (hdata : chkp.epochData = .ok data)
      (hpolicy : data.leaderPolicy.bytes = D.firstPolicy.bytes D.policyCodec)
      (hnew : new env chkp = .ok (some i)) (hinit : uponInit env sorts i = .ok i')
      (hi' : Definite env i') : D.Running Timely Definite env i'
  | join {env env' : Env} {sorts : Sorts} {chkp : StableCheckpoint} {i i' j : Instance}
      {params : Checkpoint.ModuleParams} (henv : D.Governs env)
      (hj : D.Running Timely Definite env' j) (hrecorded : .newCheckpoint params ∈ j.out)
      (hchkp : MadeBy chkp params) (hnew : new env chkp = .ok (some i))
      (hinit : uponInit env sorts i = .ok i') (hi' : Definite env i') :
      D.Running Timely Definite env i'
  | step {env : Env} {sorts : Sorts} {ev : Event} {i i' : Instance}
      (hi : D.Running Timely Definite env i) (hev : D.Delivers i ev) (htimely : Timely env i ev)
      (hstep : step env sorts i ev = .ok i') (hi' : Definite env i') :
      D.Running Timely Definite env i'
  | install {env env' : Env} {sorts : Sorts} {chkp : StableCheckpoint} {i i' j : Instance}
      {params : Checkpoint.ModuleParams} (hi : D.Running Timely Definite env i)
      (hj : D.Running Timely Definite env' j) (hrecorded : .newCheckpoint params ∈ j.out)
      (hchkp : MadeBy chkp params)
      (hstep : step env sorts i (.checkpointValidated none chkp) = .ok i')
      (hi' : Definite env i') : D.Running Timely Definite env i'

/-- Two instances have the same policy at the start of an epoch they are both in, and write the same
policy into the checkpoint of every epoch for which they both make one. -/
structure SamePolicies (i j : Instance) : Prop where
  atStart : i.state.epoch.nr = j.state.epoch.nr →
    i.state.epoch.leaderPolicy = j.state.epoch.leaderPolicy
  recorded : ∀ params params', .newCheckpoint params ∈ i.out → .newCheckpoint params' ∈ j.out →
    params.epochConfig.epochNr = params'.epochConfig.epochNr →
    params.leaderPolicyData = params'.leaderPolicyData

/-- A certificate that is unparsable or invalid is not from before the current epoch. -/
def Instance.Timely (env : Env) (i : Instance) : Event → Prop
  | .sbDeliver sn data false _ (.segment _ _) =>
    env.unmarshalCert data = none → i.state.epoch.firstSN ≤ sn
  | .certVerified false context => i.state.epoch.firstSN ≤ context.sn
  | _ => True

/-- Epoch and sequence numbers do not overflow, and the number of leaders of the current epoch does
not depend on how ties are sorted. -/
structure Instance.Definite (env : Env) (i : Instance) : Prop where
  inRange : i.InRange
  fits : i.state.epoch.firstSN.toNat + i.state.epoch.segments.length * env.segmentLength < 2 ^ 64
  sameCount : i.state.epoch.leaderPolicy.SameCount

namespace Decisions

variable {D : Decisions} {env : Env} {sorts : Sorts} {i₀ i j : Instance} {ev : Event}
  {chkp : StableCheckpoint} {config : EpochConfig} {data : EpochData}

/-! ### What is delivered -/

/-- The certificate for a sequence number; an empty one if its leader fails. -/
def outcome (D : Decisions) (sn : SeqNr) : Option Cert :=
  if D.fails sn then some (some []) else D.unmarshalCert (D.data sn)

/-- An entry of the commit log holds what was decided. -/
structure Entry (D : Decisions) (sn : SeqNr) (entry : CommitLogEntry) : Prop where
  aborted : entry.aborted = D.fails sn
  suspect : entry.suspect = D.leader sn
  certData : entry.aborted = false → entry.certData = D.data sn

/-- A certificate whose verification was requested is the decided one. -/
structure Requested (D : Decisions) (context : VerifyCertContext) : Prop where
  leader : context.leader = D.leader context.sn
  aborted : context.aborted = false
  decided : D.aborted context.sn = false
  parsable : (D.unmarshalCert (D.data context.sn)).isSome
  data : context.data = D.data context.sn

/-- Requests and deliveries are about what was decided. -/
def Permits (D : Decisions) : Output → Prop
  | .verifyCert _ _ context => D.Requested context
  | .deliverCert sn cert empty => empty = D.fails sn ∧ D.outcome sn = some cert
  | _ => True

/-- **What an instance has in its commit log and has emitted was decided.** -/
structure Keeps (D : Decisions) (env : Env) (i : Instance) : Prop where
  governs : D.Governs env
  emitted : ∀ o ∈ i.out, D.Permits o
  committed : ∀ sn entry, i.state.commitLog.lookup sn = some entry → D.Entry sn entry

theorem Entry.outcome {sn : SeqNr} {entry : CommitLogEntry} (h : D.Entry sn entry)
    (hgoverns : D.Governs env) : D.outcome sn =
      if entry.aborted then some (some []) else env.unmarshalCert entry.certData := by
  rw [Decisions.outcome, ← h.aborted]
  split
  · rfl
  · next hok => rw [h.certData (Bool.not_eq_true _ ▸ hok), hgoverns.unmarshalCert]

theorem permits_started {nr : EpochNr} {membership : Membership} {leaders : List NodeID}
    (h : ∀ o ∈ i.out, D.Permits o) : ∀ o ∈ (i.started env nr membership leaders).out, D.Permits o := by
  intro o ho
  rcases mem_out_started ho with hold | rfl | ⟨n, rfl⟩ | rfl | ⟨k, seg, rfl, -⟩
  · exact h o hold
  all_goals trivial

theorem Keeps.requested (h : D.Keeps env i) (hpre : i₀.out <+: i.out) {context : VerifyCertContext}
    (hrequests : i₀.requests context = true) : D.Requested context := by
  obtain ⟨e, cert, hmem⟩ := exists_verifyCert_of_requests hrequests
  exact h.emitted _ (hpre.subset hmem)

/-- The entry that handling an event commits is the decided one. -/
theorem Keeps.entry_of_commits (h : D.Keeps env i) (hpre : i₀.out <+: i.out)
    (hev : D.Delivers i₀ ev) {entry : CommitLogEntry} (hcommits : Commits env ev entry) :
    D.Entry entry.sn entry := by
  cases hcommits with
  | aborted => exact ⟨by simp [newLogEntry, fails, ← hev.2.2.1], hev.2.2.2, by simp [newLogEntry]⟩
  | unparsable hdata =>
    obtain ⟨-, hd, -, hleader⟩ := hev
    rw [h.governs.unmarshalCert, hd] at hdata
    exact ⟨by simp [newLogEntry, fails, hdata], hleader, by simp [newLogEntry]⟩
  | invalid =>
    have hreq := h.requested hpre hev.1
    exact ⟨by simp [newLogEntry, fails, ← hev.2], hreq.leader, by simp [newLogEntry]⟩
  | valid =>
    have hreq := h.requested hpre hev.1
    refine ⟨?_, hreq.leader, fun _ => hreq.data⟩
    obtain ⟨c, hparsable⟩ := Option.isSome_iff_exists.mp hreq.parsable
    simp [newLogEntry, fails, ← hev.2, hreq.aborted, hreq.decided, hparsable]

/-- **Every elementary step keeps to the decisions.** -/
theorem Keeps.micro (h : D.Keeps env i) (hmicro : Micro env sorts i₀ ev i j)
    (hev : D.Delivers i₀ ev ∨ ∃ chkp, ev = .checkpointValidated none chkp)
    (hpre : i₀.out <+: i.out) : D.Keeps env j := by
  cases hmicro with
  | suspect | announce => exact ⟨h.governs, h.emitted, h.committed⟩
  | commit hcommits =>
    refine ⟨h.governs, h.emitted, GoMap.forall_lookup_insert h.committed ?_⟩
    rcases hev with hev | ⟨chkp, rfl⟩
    · exact h.entry_of_commits hpre hev hcommits
    · cases hcommits
  | deliver _ hentry _ _ hcert =>
    have hdecided := h.committed _ _ hentry
    have hcert' := (hdecided.outcome h.governs).trans hcert
    exact ⟨h.governs, forall_mem_concat h.emitted ⟨hdecided.aborted, hcert'⟩,
      fun sn e he => h.committed sn e (GoMap.lookup_erase_eq_some he)⟩
  | advance _ hj =>
    obtain ⟨_, _, _, _, _, rfl, -⟩ := advanceEpoch_eq_ok hj
    exact ⟨h.governs, List.forall_mem_append.mpr ⟨permits_started h.emitted, by simp [Permits]⟩,
      h.committed⟩
  | requestCert hdata =>
    obtain ⟨-, hd, haborted, hleader⟩ | ⟨chkp, hno⟩ := hev
    · rw [h.governs.unmarshalCert, hd] at hdata
      refine ⟨h.governs, forall_mem_concat h.emitted ?_, h.committed⟩
      exact ⟨hleader, rfl, haborted.symm, by rw [hdata]; rfl, hd⟩
    · cases hno
  | stabilize => exact ⟨h.governs, forall_mem_concat h.emitted trivial, h.committed⟩
  | quiet hos =>
    refine ⟨h.governs, List.forall_mem_append.mpr ⟨h.emitted, fun o ho => ?_⟩, h.committed⟩
    have haux := hos o ho
    cases o <;> trivial
  | install _ _ _ _ hj =>
    obtain ⟨_, _, _, _, rfl, -⟩ := install_eq_ok hj
    refine ⟨h.governs, List.forall_mem_append.mpr ⟨permits_started ?_, ?_⟩, fun sn e he => ?_⟩
    · exact forall_mem_concat h.emitted trivial
    · simp [installOutputs, Permits]
    · cases he

theorem keeps_start (hgoverns : D.Governs env) (hnew : new env chkp = .ok (some i))
    (hinit : uponInit env sorts i = .ok j) : D.Keeps env j := by
  obtain ⟨_, _, _, _, rfl, -⟩ := new_eq_ok_some hnew
  obtain ⟨nr, -, hinit⟩ := Fallible.bind_eq_ok.mp hinit
  obtain ⟨_, _, _, rfl, -⟩ := startEpoch_eq_ok_iff.mp hinit
  refine ⟨hgoverns, permits_started ?_, fun sn e he => ?_⟩
  · exact List.forall_mem_singleton.mpr trivial
  · cases he

/-- **Every node of the system keeps to the decisions.** -/
theorem Running.keeps {Timely : Env → Instance → Event → Prop} {Definite : Env → Instance → Prop}
    (h : D.Running Timely Definite env i) : D.Keeps env i := by
  induction h with
  | genesis henv _ _ _ _ _ hnew hinit => exact keeps_start henv hnew hinit
  | join henv _ _ _ hnew hinit => exact keeps_start henv hnew hinit
  | step _ hev _ hstep _ ih =>
    exact step_invariant hstep ih fun hpre ha hmicro _ => ha.micro hmicro (.inl hev) hpre
  | install _ _ _ _ hstep _ ih =>
    exact step_invariant hstep ih fun hpre ha hmicro _ => ha.micro hmicro (.inr ⟨_, rfl⟩) hpre

/-! ### The invariant -/

/-- The current epoch of an instance is the one that the decisions determine. -/
structure InEpoch (D : Decisions) (i : Instance) : Prop where
  policy : i.state.epoch.leaderPolicy = D.policy i.state.epoch.nr.toNat
  first : i.state.epoch.firstSN.toNat = D.first i.state.epoch.nr.toNat
  last : i.state.newEpochSN.toNat = D.first (i.state.epoch.nr.toNat + 1)

/-- What an emitted event says about epochs, in an epoch that ends at the given number. -/
def Emitted (D : Decisions) (last : ℕ) : Output → Prop
  | .newOrderer (.segment _ _) seg => ∀ sn ∈ seg.proposals.keys, sn.toNat < last
  | .verifyCert _ _ context => context.sn.toNat < last
  | .newCheckpoint params =>
    params.epochConfig.firstSn.toNat = D.first params.epochConfig.epochNr.toNat ∧
      params.leaderPolicyData =
        some ((D.policy params.epochConfig.epochNr.toNat).bytes D.policyCodec)
  | _ => True

/-- The suspicions so far: of all leaders that have failed before the next sequence number, and of
others that fail in the current epoch. -/
def Suspects (D : Decisions) (i : Instance) : Prop :=
  ∃ nodes : Set NodeID,
    (D.policy i.state.epoch.nr.toNat).Blamed i.state.epoch.nr nodes i.state.leaderPolicy ∧
    (∀ node ∈ nodes, node ∈ D.failing (D.first i.state.epoch.nr.toNat)
      (D.first (i.state.epoch.nr.toNat + 1))) ∧
    ∀ node ∈ D.failing (D.first i.state.epoch.nr.toNat) i.state.nextDeliveredSN.toNat, node ∈ nodes

/-- The commit log is about sequence numbers before the given one. -/
def CommittedBelow (i : Instance) (last : ℕ) : Prop :=
  ∀ sn entry, i.state.commitLog.lookup sn = some entry → sn.toNat < last

/-- What holds whatever the leader policies are. -/
structure Sound (D : Decisions) (env : Env) (i : Instance) : Prop where
  keeps : D.Keeps env i
  inv : D.toSystem.Inv env i
  started : Started env i

/-- **An instance follows the decisions.** -/
structure Follows (D : Decisions) (env : Env) (i : Instance) : Prop extends Sound D env i where
  inEpoch : D.InEpoch i
  after : i.state.epoch.firstSN ≤ i.state.nextDeliveredSN
  suspects : D.Suspects i
  below : CommittedBelow i (D.first (i.state.epoch.nr.toNat + 1))
  emitted : ∀ o ∈ i.out, D.Emitted (D.first (i.state.epoch.nr.toNat + 1)) o

theorem Emitted.mono {o : Output} {last last' : ℕ} (h : D.Emitted last o) (hle : last ≤ last') :
    D.Emitted last' o := by
  cases o with
  | newOrderer id seg =>
    cases id with
    | segment => exact fun sn hsn => Nat.lt_of_lt_of_le (h sn hsn) hle
    | chkp => trivial
  | verifyCert => exact Nat.lt_of_lt_of_le h hle
  | _ => exact h

/-- Sequence numbers of the given segments are before the end of an epoch. -/
def Below (D : Decisions) (nr : EpochNr) (segments : List Segment) : Prop :=
  ∀ seg ∈ segments, ∀ sn ∈ seg.proposals.keys, sn.toNat < D.first (nr.toNat + 1)

/-- Where an epoch that has been started ends, and that its segments are before the end. -/
theorem last_of_started (hgoverns : D.Governs env) (hstarted : Started env i)
    (hi : i.Definite env) (hpolicy : i.state.epoch.leaderPolicy = D.policy i.state.epoch.nr.toNat)
    (hfirst : i.state.epoch.firstSN.toNat = D.first i.state.epoch.nr.toNat) :
    i.state.newEpochSN.toNat = D.first (i.state.epoch.nr.toNat + 1) ∧
      D.Below i.state.epoch.nr i.state.epoch.segments := by
  obtain ⟨sort, leaders, hleaders, hwith⟩ := hstarted
  have hlength : i.state.epoch.segments.length = leaders.length := by
    rw [← hwith.map_leader, List.length_map]
  have hfits := hi.fits
  rw [hlength] at hfits
  have hend := toNat_snAt hfits
  have hlast : i.state.newEpochSN.toNat = D.first (i.state.epoch.nr.toNat + 1) := by
    rw [hwith.newEpochSN, hwith.epochLen_eq hfits, hend, D.first_succ, hfirst,
      hi.sameCount sort leaders hleaders, hpolicy, hgoverns.segmentLength]
  refine ⟨hlast, fun seg hseg sn hsn => ?_⟩
  obtain ⟨t, ht, rfl⟩ := hwith.mem_segments_iff.mp ⟨seg, hseg, hsn⟩
  rw [← hlast, hwith.newEpochSN, hwith.epochLen_eq hfits, hend, toNat_snAt (by omega)]
  omega

/-! ### Steps -/

/-- Steps within an epoch. -/
theorem Follows.within (h : D.Follows env i) (hj : D.Sound env j) (hepoch : SameEpoch i j)
    (hafter : i.state.nextDeliveredSN ≤ j.state.nextDeliveredSN) (hsuspects : D.Suspects j)
    (hbelow : CommittedBelow j (D.first (i.state.epoch.nr.toNat + 1)))
    (hemitted : ∀ o ∈ j.out, D.Emitted (D.first (i.state.epoch.nr.toNat + 1)) o) :
    D.Follows env j := by
  obtain ⟨hepoch, hlast⟩ := hepoch
  refine ⟨hj, ⟨?_, ?_, hlast ▸ ?_⟩, ?_, hsuspects, ?_, ?_⟩ <;> rw [hepoch]
  exacts [h.inEpoch.policy, h.inEpoch.first, h.inEpoch.last, UInt64.le_trans h.after hafter,
    hbelow, hemitted]

/-- The suspicions stay as they are if the policy and the position do. -/
theorem Follows.frame (h : D.Follows env i) (hj : D.Sound env j) (hepoch : SameEpoch i j)
    (hpolicy : j.state.leaderPolicy = i.state.leaderPolicy)
    (hnext : j.state.nextDeliveredSN = i.state.nextDeliveredSN)
    (hbelow : CommittedBelow j (D.first (i.state.epoch.nr.toNat + 1)))
    (hemitted : ∀ o ∈ j.out, D.Emitted (D.first (i.state.epoch.nr.toNat + 1)) o) :
    D.Follows env j := by
  refine h.within hj hepoch (UInt64.le_of_eq hnext.symm) ?_ hbelow hemitted
  rw [Suspects, hepoch.1, hpolicy, hnext]
  exact h.suspects

/-- Starting an epoch as decided. -/
theorem follows_of_start (hj : D.Sound env j) (hdefinite : j.Definite env)
    (hpolicy : j.state.epoch.leaderPolicy = D.policy j.state.epoch.nr.toNat)
    (hcurrent : j.state.leaderPolicy = j.state.epoch.leaderPolicy)
    (hfirst : j.state.epoch.firstSN.toNat = D.first j.state.epoch.nr.toNat)
    (hnext : j.state.nextDeliveredSN = j.state.epoch.firstSN)
    (hbelow : CommittedBelow j (D.first j.state.epoch.nr.toNat))
    (hemitted : D.Below j.state.epoch.nr j.state.epoch.segments →
      ∀ o ∈ j.out, D.Emitted (D.first (j.state.epoch.nr.toNat + 1)) o) : D.Follows env j := by
  obtain ⟨hlast, hseg⟩ := last_of_started hj.keeps.governs hj.started hdefinite hpolicy hfirst
  refine ⟨hj, ⟨hpolicy, hfirst, hlast⟩, UInt64.le_of_eq hnext.symm, ?_, fun sn entry hentry =>
    Nat.lt_of_lt_of_le (hbelow sn entry hentry) (D.first_mono (Nat.le_succ _)), hemitted hseg⟩
  refine ⟨∅, ?_, fun node hnode => absurd hnode (Set.notMem_empty node), fun node hnode => ?_⟩
  · rw [hcurrent, hpolicy]
    exact LeaderPolicy.blamed_empty _ _
  · obtain ⟨n, hge, hlt, -⟩ := D.mem_failing.mp hnode
    rw [hnext, hfirst] at hlt
    omega

/-- The events of starting an epoch. -/
theorem emitted_started {nr : EpochNr} {membership : Membership} {leaders : List NodeID}
    (h : ∀ o ∈ i.out, D.Emitted (D.first (nr.toNat + 1)) o)
    (hseg : D.Below nr (i.started env nr membership leaders).state.epoch.segments) :
    ∀ o ∈ (i.started env nr membership leaders).out, D.Emitted (D.first (nr.toNat + 1)) o := by
  intro o ho
  rcases mem_out_started ho with hold | rfl | ⟨n, rfl⟩ | rfl | ⟨k, seg, rfl, hnew⟩
  · exact h o hold
  · trivial
  · trivial
  · trivial
  · exact hseg seg (List.mem_append_right _ hnew)

/-- At the end of an epoch, exactly the leaders that failed in it have been suspected. -/
theorem Follows.policy_at_end (h : D.Follows env i)
    (hend : i.state.nextDeliveredSN = i.state.newEpochSN) :
    i.state.leaderPolicy = (D.policy i.state.epoch.nr.toNat).blameAll i.state.epoch.nr
      (D.failing (D.first i.state.epoch.nr.toNat) (D.first (i.state.epoch.nr.toNat + 1))) := by
  obtain ⟨nodes, hblamed, hsub, hsup⟩ := h.suspects
  rw [hend, h.inEpoch.last] at hsup
  have hset : nodes = { node | node ∈ D.failing (D.first i.state.epoch.nr.toNat)
      (D.first (i.state.epoch.nr.toNat + 1)) } :=
    Set.ext fun node => ⟨hsub node, hsup node⟩
  rw [hset] at hblamed
  exact hblamed.unique (LeaderPolicy.blamed_blameAll _ _ _)

theorem Follows.advance (h : D.Follows env i) (hfin : i.state.epochFinished)
    (hj : advanceEpoch env sorts i = .ok j) (hnr : i.state.epoch.nr.toNat < 2 ^ 63)
    (hsound : D.Sound env j) (hdefinite : j.Definite env) : D.Follows env j := by
  obtain ⟨old, next, memberships, membership, leaders, rfl, -, hm, -⟩ := advanceEpoch_eq_ok hj
  have hend : i.state.nextDeliveredSN = i.state.newEpochSN := hfin.1
  have hsucc : (i.state.epoch.nr + 1).toNat = i.state.epoch.nr.toNat + 1 := by
    rw [UInt64.toNat_add, UInt64.toNat_one]
    omega
  have hmembership : membership = D.inForce (i.state.epoch.nr.toNat + 1) := by
    have hwindow : memberships =
        window D.inForce (i.state.epoch.nr + 1).toNat (D.configOffset + 1) := hsound.inv.memberships
    rw [hwindow, window_getElem? _ _ _ (Nat.succ_pos _), Nat.add_zero, hsucc] at hm
    exact (Option.some.inj hm).symm
  have hpolicy : i.state.leaderPolicy.reconfigure membership =
      D.policy (i.state.epoch.nr + 1).toNat := by
    rw [hsucc, D.policy_succ, h.policy_at_end hend, hmembership, Nat.toUInt64_eq,
      UInt64.ofNat_toNat]
  have hfirst : i.state.newEpochSN.toNat = D.first (i.state.epoch.nr + 1).toNat := by
    rw [hsucc, h.inEpoch.last]
  have hemitted : ∀ o ∈ i.out, D.Emitted (D.first ((i.state.epoch.nr + 1).toNat + 1)) o := by
    rw [hsucc]
    exact fun o ho => (h.emitted o ho).mono (D.first_mono (Nat.le_succ _))
  refine follows_of_start hsound hdefinite hpolicy rfl hfirst hend ?_ fun hseg =>
    List.forall_mem_append.mpr
      ⟨emitted_started (i := i.shiftMemberships memberships membership) hemitted hseg, ?_⟩
  · change CommittedBelow _ (D.first (i.state.epoch.nr + 1).toNat)
    rw [hsucc]
    exact h.below
  · simp only [List.forall_mem_cons, Emitted, and_true, List.not_mem_nil, false_implies,
      implies_true]
    refine ⟨hfirst, ?_⟩
    rw [← h.keeps.governs.policyCodec]
    exact congrArg (fun p => some (LeaderPolicy.bytes env.policyCodec p)) hpolicy

/-- The checkpoint of an epoch as the decisions determine it. -/
structure Canonical (D : Decisions) (chkp : StableCheckpoint) (config : EpochConfig)
    (data : EpochData) : Prop where
  hasConfig : chkp.epochConfig = .ok config
  hasData : chkp.epochData = .ok data
  memberships : config.memberships =
    some ((window D.inForce config.epochNr.toNat (D.configOffset + 1)).map some)
  sn : chkp.sn.toNat = D.first config.epochNr.toNat
  policy : data.leaderPolicy.bytes = (D.policy config.epochNr.toNat).bytes D.policyCodec

theorem Canonical.epoch (h : D.Canonical chkp config data) : chkp.epoch = .ok config.epochNr := by
  rw [StableCheckpoint.epoch, h.hasConfig]
  rfl

/-- The policy that is read from a checkpoint. -/
theorem Canonical.fromBytes (h : D.Canonical chkp config data) (hgoverns : D.Governs env) :
    LeaderPolicy.fromBytes env.policyCodec data.leaderPolicy.bytes =
      some (D.policy config.epochNr.toNat) := by
  rw [hgoverns.policyCodec, h.policy, fromBytes_bytes]

/-- A checkpoint that a node of the system has made. -/
theorem Follows.canonical (h : D.Follows env i) {params : Checkpoint.ModuleParams}
    (hmem : .newCheckpoint params ∈ i.out) (hchkp : MadeBy chkp params) :
    ∃ data, D.Canonical chkp params.epochConfig data := by
  obtain ⟨hfirst, hpolicy⟩ := h.emitted _ hmem
  obtain ⟨data, hdata, hbytes⟩ := hchkp.policy
  refine ⟨data, hchkp.config, hdata, (h.inv.conforms _ hmem).2, ?_, ?_⟩
  · rw [hchkp.sn, hfirst]
  · rw [hbytes, hpolicy, ByteSlice.bytes_some]

theorem Follows.install (h : D.Follows env i) (hchkp : D.Canonical chkp config data)
    (hj : Iss.install env sorts chkp (D.policy config.epochNr.toNat) i = .ok j)
    (hahead : i.state.epoch.nr.toNat < config.epochNr.toNat) (hsound : D.Sound env j)
    (hdefinite : j.Definite env) : D.Follows env j := by
  obtain ⟨epoch, memberships, membership, leaders, rfl, hepoch, -⟩ := install_eq_ok hj
  obtain rfl : config.epochNr = epoch := Except.ok.inj (hchkp.epoch.symm.trans hepoch)
  have hemitted : ∀ o ∈ (i.restore chkp (D.policy config.epochNr.toNat) memberships).out,
      D.Emitted (D.first (config.epochNr.toNat + 1)) o :=
    forall_mem_concat (fun o ho => (h.emitted o ho).mono (D.first_mono (by omega))) trivial
  refine follows_of_start hsound hdefinite rfl rfl hchkp.sn rfl ?_ fun hseg =>
    List.forall_mem_append.mpr ⟨emitted_started hemitted hseg, by simp [Emitted, installOutputs]⟩
  intro sn entry hentry
  cases hentry

theorem follows_start (hgoverns : D.Governs env) (hchkp : D.Canonical chkp config data)
    (hnew : new env chkp = .ok (some i)) (hinit : uponInit env sorts i = .ok j)
    (hdefinite : j.Definite env) : D.Follows env j := by
  have hinv := (System.inv_start hgoverns.offset hchkp.hasConfig hchkp.memberships hnew hinit).1
  have hsound : D.Sound env j :=
    ⟨keeps_start hgoverns hnew hinit, hinv, started_of_init hnew hinit⟩
  obtain ⟨data', policy, epoch, memberships, rfl, -, -, -, hdata, hpolicy⟩ := new_eq_ok_some hnew
  obtain ⟨nr, hnr, hinit⟩ := Fallible.bind_eq_ok.mp hinit
  obtain ⟨membership, logged, leaders, rfl, -⟩ := startEpoch_eq_ok_iff.mp hinit
  obtain rfl : config.epochNr = nr := Except.ok.inj (hchkp.epoch.symm.trans hnr)
  obtain rfl : data = data' := Except.ok.inj (hchkp.hasData.symm.trans hdata)
  obtain rfl : D.policy config.epochNr.toNat = policy :=
    Option.some.inj ((hchkp.fromBytes hgoverns).symm.trans hpolicy)
  refine follows_of_start hsound hdefinite rfl rfl hchkp.sn rfl ?_
    (emitted_started (List.forall_mem_singleton.mpr trivial))
  intro sn entry hentry
  cases hentry

/-! ### Elementary steps -/

/-- What a node of the system may see. -/
def Admissible (D : Decisions) (i : Instance) : Event → Prop
  | .checkpointValidated none chkp => ∃ config data, D.Canonical chkp config data
  | ev => D.Delivers i ev

theorem Admissible.admits (h : D.Admissible i ev) : D.toSystem.Admits i ev := by
  cases ev with
  | newConfig e m => exact h
  | checkpointValidated err chkp =>
    cases err with
    | none =>
      obtain ⟨config, data, hchkp⟩ := h
      exact ⟨config, hchkp.hasConfig, hchkp.memberships⟩
    | some e => trivial
  | _ => trivial

theorem Admissible.delivers (h : D.Admissible i ev) :
    D.Delivers i ev ∨ ∃ chkp, ev = .checkpointValidated none chkp := by
  cases ev with
  | checkpointValidated err chkp =>
    cases err with
    | none => exact .inr ⟨chkp, rfl⟩
    | some e => exact .inl trivial
  | _ => exact .inl h

theorem Follows.lt_of_requests (h : D.Follows env i) (hpre : i₀.out <+: i.out)
    {context : VerifyCertContext} (hrequests : i₀.requests context = true) :
    context.sn.toNat < D.first (i.state.epoch.nr.toNat + 1) := by
  obtain ⟨e, cert, hmem⟩ := exists_verifyCert_of_requests hrequests
  exact h.emitted _ (hpre.subset hmem)

/-- A node that is suspected while an event is handled is a leader that fails in the current
epoch. -/
theorem Follows.mem_failing_of_blames (h : D.Follows env i) {node : NodeID}
    (hev : D.Admissible i ev) (htimely : i.Timely env ev) (hblames : Blames env ev node) :
    node ∈ D.failing (D.first i.state.epoch.nr.toNat) (D.first (i.state.epoch.nr.toNat + 1)) := by
  cases hblames with
  | @unparsable sn data leader epoch index hdata =>
    obtain ⟨horders, hd, -, rfl⟩ := hev
    have hge := UInt64.le_iff_toNat_le.mp (htimely hdata)
    obtain ⟨k, seg, hmem, hsn⟩ := segmentOf_of_orders horders
    refine D.mem_failing_of_sn (by rw [← h.inEpoch.first]; exact hge) (h.emitted _ hmem sn hsn) ?_
    rw [h.keeps.governs.unmarshalCert, hd] at hdata
    simp [fails, hdata]
  | @invalid context =>
    have hge := UInt64.le_iff_toNat_le.mp htimely
    have hpre := List.prefix_refl i.out
    rw [(h.keeps.requested hpre hev.1).leader]
    refine D.mem_failing_of_sn ?_ (h.lt_of_requests hpre hev.1) (by simp [fails, ← hev.2])
    rw [← h.inEpoch.first]
    exact hge

/-- The entry that handling an event commits is before the end of the current epoch. -/
theorem Follows.lt_of_commits {entry : CommitLogEntry} (h : D.Follows env i)
    (hpre : i₀.out <+: i.out) (hev : D.Admissible i₀ ev) (hcommits : Commits env ev entry) :
    entry.sn.toNat < D.first (i.state.epoch.nr.toNat + 1) := by
  cases hcommits with
  | aborted | unparsable =>
    obtain ⟨k, seg, hmem, hsn⟩ := segmentOf_of_orders hev.1
    exact h.emitted _ (hpre.subset hmem) _ hsn
  | invalid | valid => exact h.lt_of_requests hpre hev.1

/-- Suspecting a leader that fails in the current epoch. -/
theorem Suspects.blame (h : D.Suspects i) {node : NodeID} (hepoch : j.state.epoch = i.state.epoch)
    (hpolicy : i.state.leaderPolicy.suspect i.state.epoch.nr node = .ok j.state.leaderPolicy)
    (hnode : node ∈ D.failing (D.first i.state.epoch.nr.toNat) (D.first (i.state.epoch.nr.toNat + 1)))
    (hnext : ∀ n ∈ D.failing (D.first i.state.epoch.nr.toNat) j.state.nextDeliveredSN.toNat,
      n ∈ D.failing (D.first i.state.epoch.nr.toNat) i.state.nextDeliveredSN.toNat ∨ n = node) :
    D.Suspects j := by
  obtain ⟨nodes, hblamed, hsub, hsup⟩ := h
  rw [Suspects, hepoch, LeaderPolicy.blame_of_suspect hpolicy]
  refine ⟨insert node nodes, hblamed.blame node, ?_, fun n hn => ?_⟩
  · rintro n (rfl | hn)
    · exact hnode
    · exact hsub n hn
  · exact (hnext n hn).elim (fun hold => .inr (hsup n hold)) .inl

/-- Delivering the next entry: if it is aborted, its leader is suspected. -/
theorem Follows.deliver (h : D.Follows env i) {entry : CommitLogEntry} {policy : LeaderPolicy}
    {cert : Cert} (hentry : i.state.commitLog.lookup i.state.nextDeliveredSN = some entry)
    (haborted : entry.aborted = true →
      i.state.leaderPolicy.suspect i.state.epoch.nr entry.suspect = .ok policy)
    (hpolicy : entry.aborted = false → policy = i.state.leaderPolicy)
    (hsound : D.Sound env ((i.withPolicy policy).deliver cert entry.aborted)) :
    D.Follows env ((i.withPolicy policy).deliver cert entry.aborted) := by
  have hlt := h.below _ entry hentry
  have hdecided := h.keeps.committed _ entry hentry
  have hbound : i.state.nextDeliveredSN < i.state.newEpochSN := by
    rw [UInt64.lt_iff_toNat_lt, h.inEpoch.last]
    exact hlt
  have hsucc : (i.state.nextDeliveredSN + 1).toNat = i.state.nextDeliveredSN.toNat + 1 := by
    have hmax := i.state.newEpochSN.toNat_lt
    rw [UInt64.lt_iff_toNat_lt] at hbound
    rw [UInt64.toNat_add, UInt64.toNat_one]
    omega
  have hge : D.first i.state.epoch.nr.toNat ≤ i.state.nextDeliveredSN.toNat := by
    rw [← h.inEpoch.first]
    exact UInt64.le_iff_toNat_le.mp h.after
  -- a leader that failed up to now failed before, or is the one of the delivered entry
  have hlast : ∀ node ∈ D.failing (D.first i.state.epoch.nr.toNat) (i.state.nextDeliveredSN + 1).toNat,
      node ∈ D.failing (D.first i.state.epoch.nr.toNat) i.state.nextDeliveredSN.toNat ∨
        D.fails i.state.nextDeliveredSN = true ∧ node = D.leader i.state.nextDeliveredSN := by
    intro node hnode
    obtain ⟨n, hn, hn', hfails, rfl⟩ := D.mem_failing.mp hnode
    rw [hsucc] at hn'
    rcases Nat.lt_succ_iff_lt_or_eq.mp hn' with hlt' | rfl
    · exact .inl (D.mem_failing.mpr ⟨n, hn, hlt', hfails, rfl⟩)
    · rw [UInt64.ofNat_toNat] at hfails ⊢
      exact .inr ⟨hfails, rfl⟩
  have hsuspects : D.Suspects ((i.withPolicy policy).deliver cert entry.aborted) := by
    cases hfails : entry.aborted with
    | true =>
      refine h.suspects.blame rfl (haborted hfails) ?_ fun node hnode => ?_ <;> rw [hdecided.suspect]
      · exact D.mem_failing_of_sn hge hlt (hdecided.aborted.symm.trans hfails)
      · exact (hlast node hnode).imp_right And.right
    | false =>
      obtain rfl := hpolicy hfails
      obtain ⟨nodes, hblamed, hsub, hsup⟩ := h.suspects
      refine ⟨nodes, hblamed, hsub, fun node hnode' => ?_⟩
      rcases hlast node hnode' with hold | ⟨hf, -⟩
      · exact hsup node hold
      · rw [← hdecided.aborted, hfails] at hf
        cases hf
  refine h.within hsound ⟨rfl, rfl⟩ ?_ hsuspects
    (fun sn e he => h.below sn e (GoMap.lookup_erase_eq_some he))
    (forall_mem_concat h.emitted trivial)
  rw [UInt64.le_iff_toNat_le]
  change _ ≤ (i.state.nextDeliveredSN + 1).toNat
  omega

/-- **Every elementary step follows the decisions**, if the event it belongs to is timely. -/
theorem Follows.micro (h : D.Follows env i)
    (hmicro : Micro env sorts i₀ ev i j) (hev : D.Admissible i₀ ev) (htimely : i₀.Timely env ev)
    (hpre : i₀.out <+: i.out) (hrange : j.InRange) (hdefinite : SameEpoch i j ∨ j.Definite env) :
    D.Follows env j := by
  have hnr : i.state.epoch.nr.toNat < 2 ^ 63 :=
    hrange _ (hmicro.out_grows.subset h.inv.started)
  have hsound : D.Sound env j := ⟨h.keeps.micro hmicro hev.delivers hpre,
    h.inv.micro hrange hev.admits hmicro, h.started.micro hmicro⟩
  cases hmicro with
  | suspect hblames hpolicy =>
    have hfailing := h.mem_failing_of_blames hev htimely hblames
    exact h.within hsound ⟨rfl, rfl⟩ (UInt64.le_refl _)
      (h.suspects.blame rfl hpolicy hfailing fun _ => .inl) h.below h.emitted
  | commit hcommits =>
    exact h.frame hsound ⟨rfl, rfl⟩ rfl rfl
      (GoMap.forall_lookup_insert h.below (h.lt_of_commits hpre hev hcommits)) h.emitted
  | deliver _ hentry haborted hpolicy => exact h.deliver hentry haborted hpolicy hsound
  | advance hfin hj =>
    exact h.advance hfin hj hnr hsound (hdefinite.resolve_left (not_sameEpoch_of_advance hj hnr))
  | requestCert hdata =>
    obtain ⟨k, seg, hmem, hsn⟩ := segmentOf_of_orders hev.1
    exact h.frame hsound ⟨rfl, rfl⟩ rfl rfl h.below
      (forall_mem_concat h.emitted (h.emitted _ hmem _ hsn))
  | stabilize =>
    exact h.frame hsound ⟨rfl, rfl⟩ rfl rfl h.below (forall_mem_concat h.emitted trivial)
  | announce => exact h.frame hsound ⟨rfl, rfl⟩ rfl rfl h.below h.emitted
  | quiet hos =>
    refine h.frame hsound ⟨rfl, rfl⟩ rfl rfl h.below
      (List.forall_mem_append.mpr ⟨h.emitted, fun o ho => ?_⟩)
    have haux := hos o ho
    cases o with
    | newOrderer id seg => cases id <;> trivial
    | _ => trivial
  | @install chkp epoch data policy _ hepoch hoffset hdata hpolicy hj =>
    obtain ⟨config, data', hchkp⟩ := hev
    obtain rfl : config.epochNr = epoch := Except.ok.inj (hchkp.epoch.symm.trans hepoch)
    obtain rfl : data' = data := Except.ok.inj (hchkp.hasData.symm.trans hdata)
    obtain rfl : D.policy config.epochNr.toNat = policy :=
      Option.some.inj ((hchkp.fromBytes h.keeps.governs).symm.trans hpolicy)
    have hahead : i₀.state.epoch.nr.toNat < config.epochNr.toNat :=
      Nat.lt_of_succ_lt (succ_lt_of_install hepoch hoffset hj hnr hrange)
    exact h.install hchkp hj hahead hsound
      (hdefinite.resolve_left (not_sameEpoch_of_install hepoch hj hahead))

/-- An event keeps an instance on the decided course. -/
theorem Follows.step (h : D.Follows env i) (hev : D.Admissible i ev)
    (htimely : i.Timely env ev) (hstep : Iss.step env sorts i ev = .ok j)
    (hj : j.Definite env) : D.Follows env j := by
  refine step_invariant (P := fun a => a.InRange → D.Follows env a) hstep (fun _ => h) ?_ hj.inRange
  intro a b hpre ha hmicro hepoch hrange
  have hfollows := ha fun e he => hrange e (hmicro.out_grows.subset he)
  refine hfollows.micro hmicro hev htimely hpre hrange (hepoch.imp_right fun hsame => ?_)
  refine ⟨hrange, ?_, ?_⟩ <;> rw [← hsame.1]
  exacts [hj.fits, hj.sameCount]

/-- **Every node of the system follows the decisions.** -/
theorem Running.follows (h : D.Running Instance.Timely Instance.Definite env i) :
    D.Follows env i := by
  induction h with
  | @genesis env sorts chkp data i i' henv hepoch hmemberships hsn hdata hpolicy hnew hinit hi' =>
    obtain ⟨config, hconfig, hnr, hms⟩ := System.memberships_of_genesis hepoch hmemberships
    have hcanonical : D.Canonical chkp config data := by
      refine ⟨hconfig, hdata, hms, ?_, ?_⟩ <;> rw [hnr]
      exacts [hsn, hpolicy]
    exact follows_start henv hcanonical hnew hinit hi'
  | join henv hj hrecorded hchkp hnew hinit hi' ih =>
    obtain ⟨data, hcanonical⟩ := ih.canonical hrecorded hchkp
    exact follows_start henv hcanonical hnew hinit hi'
  | @step env sorts ev i i' hi hev htimely hstep hi' ih =>
    refine ih.step ?_ htimely hstep hi'
    cases ev with
    | checkpointValidated err chkp =>
      cases err with
      | none => exact hev.elim
      | some e => trivial
    | _ => exact hev
  | @install env env' sorts chkp i i' j params hi hj hrecorded hchkp hstep hi' ih ih' =>
    obtain ⟨data, hcanonical⟩ := ih'.canonical hrecorded hchkp
    have hev : D.Admissible i (.checkpointValidated none chkp) := ⟨_, data, hcanonical⟩
    exact ih.step hev trivial hstep hi'

end Decisions

/-- **Deliveries agree** at any two nodes whose orderers deliver the same values and whose
certificate verifications give the same verdicts: for a sequence number, both deliver the decided
certificate, or both an empty one because its leader has failed. -/
theorem deliveries_agree (D : Decisions) (Timely : Env → Instance → Event → Prop)
    (Definite : Env → Instance → Prop) (env env' : Env) (i j : Instance)
    (hi : D.Running Timely Definite env i) (hj : D.Running Timely Definite env' j) (sn : SeqNr)
    (cert cert' : Cert) (empty empty' : Bool) (hmem : .deliverCert sn cert empty ∈ i.out)
    (hmem' : .deliverCert sn cert' empty' ∈ j.out) :
    cert = cert' ∧ empty = empty' ∧ empty = D.fails sn ∧ D.outcome sn = some cert := by
  obtain ⟨hfails, hcert⟩ := hi.keeps.emitted _ hmem
  obtain ⟨hfails', hcert'⟩ := hj.keeps.emitted _ hmem'
  exact ⟨Option.some.inj (hcert.symm.trans hcert'), hfails.trans hfails'.symm, hfails, hcert⟩

/-- **Leader policies agree** at any two nodes whose orderers deliver the same values and whose
certificate verifications give the same verdicts, as long as no late result about an earlier epoch
makes a node suspect a leader, the number of leaders does not depend on how ties are sorted, and
numbers do not overflow. -/
theorem policies_agree (D : Decisions) (env env' : Env) (i j : Instance)
    (hi : D.Running Instance.Timely Instance.Definite env i)
    (hj : D.Running Instance.Timely Instance.Definite env' j) : SamePolicies i j := by
  refine ⟨fun hnr => ?_, fun params params' hmem hmem' hnr => ?_⟩
  · rw [hi.follows.inEpoch.policy, hj.follows.inEpoch.policy, hnr]
  · rw [(hi.follows.emitted _ hmem).2, (hj.follows.emitted _ hmem').2, hnr]

/-! ### Examples -/

instance (D : Decisions) (i : Instance) : ∀ ev, Decidable (D.Delivers i ev)
  | .sbDeliver _ _ _ _ (.segment ..) => inferInstanceAs (Decidable (_ ∧ _ ∧ _ ∧ _))
  | .certVerified .. => inferInstanceAs (Decidable (_ ∧ _))
  | .newConfig .. => inferInstanceAs (Decidable (_ ∧ _))
  | .checkpointValidated none _ => .isFalse id
  | .sbDeliver _ _ _ _ (.chkp _) | .checkpointValidated (some _) _ | .epochProgress ..
  | .stableCheckpoint _ | .pushCheckpoint | .stableCheckpointReceived .. => .isTrue trivial

/-- The policy after the only member was suspected in epoch 0. -/
def suspectedPolicy : BlacklistLeaderPolicy := ⟨some soloMembership, some (Finmap.insert [97] 0 ∅)⟩

/-- A codec with short codes for this policy and the one before. -/
noncomputable def suspectedCodec : PolicyCodec where
  simple := (Classical.choice exists_policyCodec).simple
  blacklist := ((Classical.choice exists_policyCodec).blacklist.reserve one_ne_zero_byte
    (.new soloMembership)).reserve one_ne_zero_byte suspectedPolicy

/-- The initial checkpoint, with the blacklist policy. -/
def blacklistGenesis : StableCheckpoint :=
  exampleChkp soloMembership 0 0 (LeaderPolicy.blacklistType ++ [1, 0])

/-- The parameters for a later epoch, after the only member was suspected in epoch 0. -/
def suspectedParams (epoch : EpochNr) (sn : SeqNr) : Checkpoint.ModuleParams :=
  exampleParams soloMembership epoch sn (LeaderPolicy.blacklistType ++ [0])

/-- A node of a system with one member and segments of one sequence number. -/
noncomputable def suspectingEnv : Env :=
  { exampleEnv soloMembership 1 0 [chkpOf (suspectedParams 1 1), chkpOf (suspectedParams 2 2)] with
    policyCodec := suspectedCodec }

/-- The certificate with sequence number 0 cannot be parsed. -/
noncomputable def oneFailure : Decisions where
  toSystem := soloSystem
  segmentLength := 1
  policyCodec := suspectedCodec
  unmarshalCert := suspectingEnv.unmarshalCert
  firstSN := 0
  firstPolicy := .blacklist (.new soloMembership)
  data sn := if sn = 0 then [1] else [2]
  aborted _ := false
  leader _ := [97]
  valid _ := true

/-- The events of epochs 0 and 1. -/
def suspectingEpochs : List Event :=
  [.sbDeliver 0 [1] false [97] (.segment 0 0), .newConfig 0 soloMembership,
    .sbDeliver 0 [0] false [97] (.chkp 1), .sbDeliver 1 [2] false [97] (.segment 1 0),
    .certVerified true ⟨1, [2], false, [97]⟩, .newConfig 1 soloMembership]

/-- The events of epoch 2. -/
def laterEpoch : List Event :=
  [.sbDeliver 0 [1] false [97] (.chkp 2), .sbDeliver 2 [2] false [97] (.segment 2 0),
    .certVerified true ⟨2, [2], false, [97]⟩, .newConfig 2 soloMembership]

/-- The checkpoint of epoch 2 is installed. -/
def restore : Event := .checkpointValidated none (chkpOf (suspectedParams 2 2))

theorem exists_running (Timely : Env → Instance → Event → Prop) (Definite : Env → Instance → Prop)
    {Allowed : Instance → Event → Prop} [∀ i ev, Decidable (Allowed i ev)] {Good : Instance → Prop}
    [DecidablePred Good] {evs : List Event} {Q : Instance → Prop} [DecidablePred Q]
    (hallowed : ∀ {i ev}, Allowed i ev → oneFailure.Delivers i ev ∧ Timely suspectingEnv i ev ∨
      ev = restore ∧ ∃ j, oneFailure.Running Timely Definite suspectingEnv j ∧
        .newCheckpoint (suspectedParams 2 2) ∈ j.out)
    (hgood : ∀ {i}, Good i → Definite suspectingEnv i)
    (h : (execute suspectingEnv blacklistGenesis Allowed Good evs).any (fun i => Q i) = true) :
    ∃ i, oneFailure.Running Timely Definite suspectingEnv i ∧ Q i := by
  refine exists_of_execute (P := fun _ => oneFailure.Running Timely Definite suspectingEnv) h
    (fun hnew hinit hi => ?_) fun hi hev hok hi' => ?_
  · exact .genesis ⟨rfl, rfl, rfl, rfl⟩ rfl rfl rfl rfl (by decide +kernel) hnew hinit (hgood hi)
  · rcases hallowed hev with ⟨hdelivers, htimely⟩ | ⟨rfl, j, hj, hmem⟩
    · exact .step hi hdelivers htimely hok (hgood hi')
    · exact .install hi hj hmem ⟨rfl, rfl, _, rfl, rfl⟩ hok (hgood hi')

/-- With one member there are no ties. -/
theorem sameCount_solo {l : BlacklistLeaderPolicy} (hm : l.membership = some soloMembership) :
    (LeaderPolicy.blacklist l).SameCount := by
  have hkeys : soloMembership.nodes.keys = [[97]] := by decide +kernel
  have hsort : ∀ s : LeaderSort, s.sort l = [[97]] := by
    intro s
    have hperm := (s.arranged l soloMembership hm).perm
    rw [hkeys] at hperm
    exact List.perm_singleton.mp hperm
  intro s leaders h
  rw [LeaderPolicy.leaderCount]
  rw [LeaderPolicy.leadersBy, hsort s] at h
  rw [LeaderPolicy.leadersBy, hsort, h]
  rfl

/-- Testing an instance with one member. -/
noncomputable def soloDefinite (i : Instance) : Bool :=
  i.inRange && decide (i.state.epoch.firstSN.toNat +
    i.state.epoch.segments.length * suspectingEnv.segmentLength < 2 ^ 64) &&
    match i.state.epoch.leaderPolicy with
    | .blacklist l => decide (l.membership = some soloMembership)
    | .simple _ => false

theorem definite_of_test {i : Instance} (h : soloDefinite i = true) :
    i.Definite suspectingEnv := by
  simp only [soloDefinite, Bool.and_eq_true, decide_eq_true_eq] at h
  refine ⟨Instance.inRange_of_test h.1.1, h.1.2, ?_⟩
  cases hp : i.state.epoch.leaderPolicy with
  | simple p =>
    rw [hp] at h
    cases h.2
  | blacklist l =>
    rw [hp] at h
    exact sameCount_solo (of_decide_eq_true h.2)

instance (env : Env) (i : Instance) (ev : Event) : Decidable (i.Timely env ev) := by
  unfold Instance.Timely
  split <;> infer_instance

/-- A node that has executed epochs 0 to 2, and one that has restored epoch 2, start epoch 3 with
the same policy, in which the only member was suspected in epoch 0. -/
theorem policies_agree_restored : ∃ i j,
    oneFailure.Running Instance.Timely Instance.Definite suspectingEnv i ∧
    oneFailure.Running Instance.Timely Instance.Definite suspectingEnv j ∧
    i.state.epoch.nr = 3 ∧ j.state.epoch.nr = 3 ∧ SamePolicies i j := by
  obtain ⟨i, hi, hnr, hmem⟩ := exists_running Instance.Timely Instance.Definite .inl definite_of_test
    (by decide +kernel : (execute suspectingEnv blacklistGenesis
      (fun i ev => oneFailure.Delivers i ev ∧ i.Timely suspectingEnv ev) (soloDefinite · = true)
      (suspectingEpochs ++ laterEpoch)).any (fun i =>
        i.state.epoch.nr = 3 ∧ .newCheckpoint (suspectedParams 2 2) ∈ i.out) = true)
  obtain ⟨j, hj, hnr'⟩ := exists_running Instance.Timely Instance.Definite
    (Or.imp_right (⟨·, i, hi, hmem⟩)) definite_of_test
    (by decide +kernel : (execute suspectingEnv blacklistGenesis
      (fun i ev => (oneFailure.Delivers i ev ∧ i.Timely suspectingEnv ev) ∨ ev = restore)
      (soloDefinite · = true) (restore :: laterEpoch)).any (·.state.epoch.nr = 3) = true)
  exact ⟨i, j, hi, hj, hnr, hnr', policies_agree _ _ _ i j hi hj⟩

/-- A node that has executed epochs 0 to 2, and one that has restored epoch 2 before it handles the
delivery of sequence number 0, whose certificate cannot be parsed. -/
theorem exists_late : ∃ i j,
    oneFailure.Running (fun _ _ _ => True) (fun _ _ => True) suspectingEnv i ∧
    oneFailure.Running (fun _ _ _ => True) (fun _ _ => True) suspectingEnv j ∧
    i.state.epoch.nr = j.state.epoch.nr ∧ i.state.epoch.leaderPolicy ≠ j.state.epoch.leaderPolicy ∧
    .deliverCert 2 none false ∈ i.out ∧ .deliverCert 2 none false ∈ j.out := by
  obtain ⟨i, hi, hnr, hmem, hpolicy, hdelivered⟩ := exists_running (fun _ _ _ => True)
    (fun _ _ => True) (.inl ⟨·, trivial⟩) id (by decide +kernel :
      (execute suspectingEnv blacklistGenesis oneFailure.Delivers (fun _ => True)
        (suspectingEpochs ++ laterEpoch)).any (fun i => i.state.epoch.nr = 3 ∧
          .newCheckpoint (suspectedParams 2 2) ∈ i.out ∧
          i.state.epoch.leaderPolicy = .blacklist suspectedPolicy ∧
          .deliverCert 2 none false ∈ i.out) = true)
  obtain ⟨j, hj, hnr', hpolicy', hdelivered'⟩ := exists_running (fun _ _ _ => True)
    (fun _ _ => True) (Or.imp (⟨·, trivial⟩) (⟨·, i, hi, hmem⟩)) id (by decide +kernel :
      (execute suspectingEnv blacklistGenesis (fun i ev => oneFailure.Delivers i ev ∨ ev = restore)
        (fun _ => True) (restore :: .sbDeliver 0 [1] false [97] (.segment 0 0) :: laterEpoch)).any
          (fun i => i.state.epoch.nr = 3 ∧ i.state.epoch.leaderPolicy ≠ .blacklist suspectedPolicy ∧
            .deliverCert 2 none false ∈ i.out) = true)
  exact ⟨i, j, hi, hj, hnr.trans hnr'.symm, fun heq => hpolicy' (heq ▸ hpolicy), hdelivered,
    hdelivered'⟩

/-- **A late result makes a node suspect a leader in the wrong epoch.** -/
theorem late_suspicion : ¬ ∀ (D : Decisions) (env env' : Env) (i j : Instance),
    D.Running (fun _ _ _ => True) (fun _ _ => True) env i →
    D.Running (fun _ _ _ => True) (fun _ _ => True) env' j → SamePolicies i j := by
  intro hall
  obtain ⟨i, j, hi, hj, hnr, hpolicy, -⟩ := exists_late
  exact hpolicy ((hall _ _ _ i j hi hj).atStart hnr)

/-- Two nodes with different policies deliver the same certificate in epoch 2. -/
theorem deliveries_agree_late : ∃ i j,
    oneFailure.Running (fun _ _ _ => True) (fun _ _ => True) suspectingEnv i ∧
    oneFailure.Running (fun _ _ _ => True) (fun _ _ => True) suspectingEnv j ∧
    i.state.epoch.leaderPolicy ≠ j.state.epoch.leaderPolicy ∧ ∃ cert,
      .deliverCert 2 cert false ∈ i.out ∧ .deliverCert 2 cert false ∈ j.out ∧
      oneFailure.outcome 2 = some cert := by
  obtain ⟨i, j, hi, hj, -, hpolicy, hmem, hmem'⟩ := exists_late
  exact ⟨i, j, hi, hj, hpolicy, none, hmem, hmem',
    (deliveries_agree _ _ _ _ _ i j hi hj 2 _ _ _ _ hmem hmem').2.2.2⟩

end Mir.Iss
