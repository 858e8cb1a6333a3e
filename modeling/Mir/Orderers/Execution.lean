import Mir.Orderers.Orderer

/-!
# Executing runs

A list of events can be run: before each event it is checked that it is enabled and meets a
condition, and what is found at the end holds in a state that a run reaches (`exists_reachable`).
The node's own view change messages are not signed or verified in these runs.
-/

namespace Mir.Orderers

open FallibleLoop

variable {env : Env} {p : ModuleParams} {o : Orderer}

/-- A test that only enabled events pass; results for single signatures never do. -/
def isEnabled (env : Env) (p : ModuleParams) (o : Orderer) : Event → Bool
  | .messageReceived sender msg => sender != p.ownID || decide (msg ∈ o.sent)
  | .proposeTimeout _ => true
  | .viewChangeSNTimeout _ _ => true
  | .viewChangeSegTimeout _ => true
  | .newCert _ =>
    decide ((o.log.filter fun ev => ev matches .newCert _).length <
      (o.out.filter fun x => x matches .requestCert).length)
  | .preprepareValidated _ pp sender => decide (.validatePreprepare pp sender ∈ o.out)
  | .hashResultOne digest ctx => o.out.any fun
    | .hashRequestOne data ctx' => decide (ctx' = ctx ∧ digest = env.hash data)
    | _ => false
  | .hashResult digests ctx => o.out.any fun
    | .hashRequest data ctx' => decide (ctx' = ctx ∧ digests = data.map env.hash)
    | _ => false
  | .signResult _ _ | .sigVerified _ _ _ => false
  | .sigsVerified senders allOk nv => o.out.any fun
    | .verifySigs data sigs senders' nv' =>
      decide (senders' = senders ∧ nv' = nv ∧ allOk = env.verifyAll data sigs senders)
    | _ => false

/-- An event found to be enabled is enabled. -/
theorem enabled_of_isEnabled {ev : Event} (h : isEnabled env p o ev = true) :
    Enabled env p o ev := by
  cases ev with
  | messageReceived sender msg =>
    intro hown
    simpa [isEnabled, hown] using h
  | proposeTimeout => trivial
  | viewChangeSNTimeout => trivial
  | viewChangeSegTimeout => trivial
  | newCert cert =>
    rw [isEnabled, decide_eq_true_eq] at h
    exact h
  | preprepareValidated valid pp sender =>
    rw [isEnabled, decide_eq_true_eq] at h
    exact h
  | hashResultOne digest ctx =>
    -- in this case and those below, the request found is the one the event answers
    obtain ⟨x, hx, hmatch⟩ := List.any_eq_true.mp h
    split at hmatch
    · next data ctx' =>
      obtain ⟨rfl, hdigest⟩ := of_decide_eq_true hmatch
      exact ⟨data, hx, hdigest⟩
    · cases hmatch
  | hashResult digests ctx =>
    obtain ⟨x, hx, hmatch⟩ := List.any_eq_true.mp h
    split at hmatch
    · next data ctx' =>
      obtain ⟨rfl, hdigests⟩ := of_decide_eq_true hmatch
      exact ⟨data, hx, hdigests⟩
    · cases hmatch
  | signResult => cases h
  | sigVerified => cases h
  | sigsVerified senders allOk nv =>
    obtain ⟨x, hx, hmatch⟩ := List.any_eq_true.mp h
    split at hmatch
    · next data sigs senders' nv' =>
      obtain ⟨rfl, rfl, hall⟩ := of_decide_eq_true hmatch
      exact ⟨data, sigs, hx, hall⟩
    · cases hmatch

/-- Handle an event that passes the test `c`, iterating over maps as they are listed. -/
def next? (env : Env) (p : ModuleParams) (c : Orderer → Event → Bool) (o : Orderer) (ev : Event) :
    Option Orderer :=
  attempt (isEnabled env p o ev = true ∧ c o ev = true) (step .listed p o ev) id

/-- The state reached from the initial one by running a list of events. -/
def execute (env : Env) (p : ModuleParams) (c : Orderer → Event → Bool) (evs : List Event) :
    Option Orderer :=
  (initOrderer p).toOption.bind (evs.foldlM (next? env p c))

section Reaching

variable {C : StepCondition} {c : Orderer → Event → Bool} {evs : List Event} {Q : Orderer → Prop}
  [DecidablePred Q] (hc : ∀ {o ev}, c o ev = true → C o .listed ev)

include hc

theorem exists_steps (h : (evs.foldlM (next? env p c) o).any (fun o => Q o) = true) :
    ∃ o', Steps env p C o o' ∧ Q o' := by
  refine exists_of_steps h .refl fun _ hs hnext => ?_
  obtain ⟨⟨hen, hev⟩, o', hstep, rfl⟩ := attempt_eq_some.mp hnext
  exact hs.tail ⟨.listed, _, enabled_of_isEnabled hen, hc hev, hstep⟩

theorem exists_reachable (h : (execute env p c evs).any (fun o => Q o) = true) :
    ∃ o, Reachable env p C o ∧ Q o := by
  rw [execute] at h
  cases hinit : initOrderer p with
  | error e =>
    rw [hinit] at h
    cases h
  | ok o =>
    rw [hinit] at h
    obtain ⟨o', hs, hQ⟩ := exists_steps (c := c) hc h
    exact ⟨o', (Reachable.init hinit).steps hs, hQ⟩

end Reaching

/-! ### A concrete environment -/

/-- A collision-free hash and signatures that only their claimed signer can produce. -/
def plainEnv : Env := ⟨id, fun data sig id => sig == some (id ++ data)⟩

/-- The parameters of a node, with timeouts that play no role. -/
def plainParams (segment : Segment) (ownID : NodeID) : ModuleParams where
  ownID := ownID
  segment := segment
  config := ⟨segment.nodeIDs, 0, 0, 0, 1000, 0, 0, 0, 0⟩
  protoSize := fun _ => 1
  membership_eq := rfl

theorem valid_fourWeights : (Membership.ofWeights
    [([97], [49]), ([98], [49]), ([99], [49]), ([100], [49])]).valid = none := by
  decide +kernel

/-- One sequence number and four members of weight one, led by the last. -/
def singleSlot : Segment where
  leader := [100]
  membership := .ofWeights [([97], [49]), ([98], [49]), ([99], [49]), ([100], [49])]
  proposals := GoMap.ofKeys [0] fun _ => none
  leader_mem := by decide +kernel
  valid := valid_fourWeights

/-- The leader's proposal for it in view zero. -/
def singleProposal : Preprepare := ⟨0, 0, [1], false⟩

/-- The first node receives the proposal and stores it. -/
def receiveProposal : List Event :=
  [.messageReceived [100] (.preprepare singleProposal),
    .preprepareValidated true singleProposal [100]]

/-- It hashes the proposal and receives three Prepare messages for it. -/
def prepareProposal : List Event :=
  .hashResultOne singleProposal.hashBytes (.preprepare singleProposal) ::
    [[97], [98], [99]].map fun id =>
      .messageReceived id (.prepare ⟨0, 0, some singleProposal.hashBytes⟩)

/-- It receives three Commit messages. -/
def commitProposal : List Event :=
  [[97], [98], [99]].map fun id =>
    .messageReceived id (.commit ⟨0, 0, some singleProposal.hashBytes⟩)

end Mir.Orderers
