import Mir.Bcb.Module

/-!
# Byzantine consistent broadcast: consistency

The correct nodes of a `System` process batches of events in any interleaving. Their crypto modules
answer requests in any order and any number of times; messages of correct nodes are authentic, all
others are arbitrary, except that a signature of a correct node over some bytes verifies only if the
node has sent a signature over them (`Enabled`).

A certificate is meant to consist of the signatures of more than `(N+F)/2` members, but the module
counts the entries of the list of signers. One faulty node that is listed often enough makes correct
nodes deliver different data: `repeated_signer_splits`. In runs whose Final messages name enough
members, every delivery is backed by a quorum of members of which the correct ones have echoed the
data, and each echoes once, so the broadcast is consistent: `broadcast_consistent`.
-/

namespace Mir.Bcb

open FallibleLoop

/-- The parameters of an instance and the nodes that run it correctly: all members but at most
`GetF()`. -/
structure System where
  params : ModuleParams
  correct : Finset NodeID
  verify : NodeID → Bytes → Bytes → Bool
  nodup : params.allNodes.Nodup
  correct_subset : correct ⊆ params.allNodes.toFinset
  faulty_le : (params.allNodes.toFinset \ correct).card ≤ params.getF

/-- The nodes of a system. -/
abbrev Net := NodeID → Node

/-- The event sends the message to a node. -/
def Output.Sends (msg : Message) (dest : NodeID) : Output → Prop
  | .sendMessage msg' destinations => msg' = msg ∧ dest ∈ destinations
  | _ => False

/-- The node has sent the message to a node. -/
def Node.Sent (n : Node) (msg : Message) (dest : NodeID) : Prop := ∃ x ∈ n.out, x.Sends msg dest

/-- The node has sent a signature over the bytes. -/
def Node.Echoed (n : Node) (bytes : Bytes) : Prop := ∃ data ∈ n.echoed, data.flatten = bytes

namespace System

variable (sys : System)

/-- The bytes over which an echo of the data is signed. -/
def signedBytes (data : Bytes) : Bytes := (sys.params.signedData data).flatten

/-! ### Runs -/

/-- The signatures of correct nodes that a message carries are not forged. -/
def Unforged (net : Net) : Message → Prop
  | .final data signers signatures => ∀ x ∈ signers.zip signatures, x.1 ∈ sys.correct →
      sys.verify x.1 (sys.signedBytes data) x.2 = true → (net x.1).Echoed (sys.signedBytes data)
  | _ => True

/-- What the crypto module answers to a request. -/
def Answers : Event → Output → Prop
  | .signResult origin _, .signRequest data => data = origin
  | .sigVerified node valid signature, .verifySig data signature' node' =>
    node' = node ∧ signature' = signature ∧ valid = sys.verify node data.flatten signature
  | .sigsVerified allOK context, .verifySigs data signatures nodes context' =>
    context' = context ∧ allOK = (data.zip (nodes.zip signatures)).all fun x =>
      sys.verify x.2.1 x.1.flatten x.2.2
  | _, _ => False

/-- The events that can occur at a node. -/
def Enabled (net : Net) (self : NodeID) : Event → Prop
  | .broadcastRequest _ => True
  | .messageReceived sender msg =>
    (sender ∈ sys.correct → (net sender).Sent msg self) ∧ sys.Unforged net msg
  | event => ∃ x ∈ (net self).out, sys.Answers event x

/-- The members that a list of signers names. -/
def namedMembers (signers : List NodeID) : Finset NodeID :=
  sys.params.allNodes.toFinset.filter (· ∈ signers)

/-- A Final message that the node does not ignore names more members than the threshold. -/
def NamesQuorum : Event → Prop
  | .messageReceived _ (.final _ signers signatures) =>
    signers.length = signatures.length → sys.params.threshold < signers.length →
      sys.params.threshold < (sys.namedMembers signers).card
  | _ => True

/-- The states that the nodes reach in runs of which all events satisfy `C`, whatever the order in
which maps are visited. -/
inductive Reachable (C : Event → Prop) : Net → Prop
  | init : Reachable C fun _ => .new
  | step {net : Net} {order : SigOrder} {self : NodeID} {events : List Event} {n : Node}
      (hr : Reachable C net) (hself : self ∈ sys.correct)
      (henabled : ∀ event ∈ events, sys.Enabled net self event) (hC : ∀ event ∈ events, C event)
      (happly : (net self).applyEvents sys.params order self events = .ok n) :
      Reachable C (Function.update net self n)

/-- **Consistency**: correct nodes deliver the same data, at most once, and only data that a correct
leader has broadcast. -/
structure Consistent (net : Net) : Prop where
  agreement : ∀ i ∈ sys.correct, ∀ j ∈ sys.correct, ∀ d ∈ (net i).deliveries,
    ∀ d' ∈ (net j).deliveries, d = d'
  once : ∀ i ∈ sys.correct, (net i).deliveries.length ≤ 1
  integrity : sys.params.leader ∈ sys.correct → ∀ i ∈ sys.correct, ∀ d ∈ (net i).deliveries,
    ∃ request, .broadcastRequest request ∈ (net sys.params.leader).log ∧ request.bytes = d

/-! ### Executions -/

instance (msg : Message) (dest : NodeID) : DecidablePred (Output.Sends msg dest) := fun x =>
  match x with
  | .sendMessage msg' destinations => inferInstanceAs (Decidable (msg' = msg ∧ dest ∈ destinations))
  | .signRequest _ | .verifySig .. | .verifySigs .. | .deliver _ => inferInstanceAs (Decidable False)

instance (n : Node) (msg : Message) (dest : NodeID) : Decidable (n.Sent msg dest) :=
  inferInstanceAs (Decidable (∃ x ∈ n.out, x.Sends msg dest))

instance (n : Node) (bytes : Bytes) : Decidable (n.Echoed bytes) :=
  inferInstanceAs (Decidable (∃ data ∈ n.echoed, data.flatten = bytes))

instance (net : Net) (msg : Message) : Decidable (sys.Unforged net msg) :=
  match msg with
  | .final data signers signatures =>
    inferInstanceAs (Decidable (∀ x ∈ signers.zip signatures, x.1 ∈ sys.correct →
      sys.verify x.1 (sys.signedBytes data) x.2 = true → (net x.1).Echoed (sys.signedBytes data)))
  | .start _ | .echo _ => inferInstanceAs (Decidable True)

instance (event : Event) : DecidablePred (sys.Answers event) := fun x => by
  unfold Answers
  split <;> infer_instance

instance (net : Net) (self : NodeID) : DecidablePred (sys.Enabled net self) := fun event => by
  unfold Enabled
  split <;> infer_instance

instance : DecidablePred sys.NamesQuorum := fun event => by
  unfold NamesQuorum
  split <;> infer_instance

/-- The states after a batch of events at a node, if these can occur. -/
def next? (C : Event → Prop) [DecidablePred C] (net : Net) (batch : NodeID × List Event) : Option Net :=
  attempt (batch.1 ∈ sys.correct ∧ (∀ event ∈ batch.2, sys.Enabled net batch.1 event) ∧
      ∀ event ∈ batch.2, C event)
    ((net batch.1).applyEvents sys.params ⟨id, fun _ => .refl _⟩ batch.1 batch.2)
    (Function.update net batch.1)

theorem exists_reachable {C : Event → Prop} [DecidablePred C]
    {batches : List (NodeID × List Event)} {Q : Net → Prop} [DecidablePred Q]
    (h : (batches.foldlM (sys.next? C) fun _ => .new).any (fun net => Q net) = true) :
    ∃ net, sys.Reachable C net ∧ Q net := by
  refine exists_of_steps h .init fun _ hr hnext => ?_
  obtain ⟨⟨hself, henabled, hC⟩, n, happly, rfl⟩ := attempt_eq_some.mp hnext
  exact hr.step hself henabled hC happly

/-! ### Quorums of members -/

variable {sys} {net net' : Net} {self : NodeID} {n n' : Node} {event : Event}

theorem card_members (sys : System) : sys.params.allNodes.toFinset.card = sys.params.getN :=
  List.toFinset_card_of_nodup sys.nodup

theorem weight_one (A : Finset NodeID) :
    WeightedQuorum.weight (fun _ => 1) A = (A.card : ℤ) := by
  simp [WeightedQuorum.weight]

/-- With a member, the tolerance of the members is `GetF()`. -/
theorem tolerance_members (h : 0 < sys.params.getN) :
    WeightedQuorum.tolerance sys.params.allNodes.toFinset (fun _ => 1) = (sys.params.getF : ℤ) := by
  rw [WeightedQuorum.tolerance, WeightedQuorum.faultBound, weight_one, card_members,
    ModuleParams.getF]
  omega

/-- More members than the threshold are a strong quorum. -/
theorem isStrong_of_threshold_lt {Q : Finset NodeID} (hsub : Q ⊆ sys.params.allNodes.toFinset)
    (hlt : sys.params.threshold < Q.card) : 0 < sys.params.getN ∧
      WeightedQuorum.IsStrong sys.params.allNodes.toFinset (fun _ => 1) Q := by
  have hle : Q.card ≤ sys.params.getN := card_members sys ▸ Finset.card_le_card hsub
  have hpos : 0 < sys.params.getN := by omega
  refine ⟨hpos, hsub, ?_⟩
  rw [tolerance_members hpos, weight_one, weight_one, card_members]
  rw [ModuleParams.threshold] at hlt
  omega

/-- The faulty members are within the tolerance. -/
theorem faulty_le_tolerance (h : 0 < sys.params.getN) :
    WeightedQuorum.weight (fun _ => 1) (sys.params.allNodes.toFinset \ sys.correct) ≤
      WeightedQuorum.tolerance sys.params.allNodes.toFinset (fun _ => 1) := by
  rw [tolerance_members h, weight_one]
  exact_mod_cast sys.faulty_le

/-- Two sets of more members than the threshold share a correct node. -/
theorem exists_correct_mem {Q Q' : Finset NodeID} (hsub : Q ⊆ sys.params.allNodes.toFinset)
    (hsub' : Q' ⊆ sys.params.allNodes.toFinset) (hlt : sys.params.threshold < Q.card)
    (hlt' : sys.params.threshold < Q'.card) : ∃ q ∈ Q, q ∈ Q' ∧ q ∈ sys.correct := by
  obtain ⟨hpos, hstrong⟩ := isStrong_of_threshold_lt hsub hlt
  obtain ⟨-, hstrong'⟩ := isStrong_of_threshold_lt hsub' hlt'
  obtain ⟨q, hq, hq', hcorrect⟩ := hstrong.exists_mem_inter (fun _ _ => zero_le_one) hstrong'
    Finset.sdiff_subset (faulty_le_tolerance hpos)
  refine ⟨q, hq, hq', ?_⟩
  by_contra hno
  exact hcorrect (Finset.mem_sdiff.mpr ⟨hsub hq, hno⟩)

/-! ### Invariants -/

/-- Delivering the data is backed by a quorum of members: the correct ones have echoed it. -/
def Certified (sys : System) (net : Net) (data : Bytes) : Prop :=
  ∃ Q ⊆ sys.params.allNodes.toFinset, sys.params.threshold < Q.card ∧
    ∀ q ∈ Q, q ∈ sys.correct → (net q).Echoed (sys.signedBytes data)

/-- A request to verify the signatures of a Final message that names a quorum, and in which the
signatures of correct nodes are not forged. -/
structure Verifying (sys : System) (net : Net) (data : List (List Bytes)) (signatures : List Bytes)
    (nodes : List NodeID) (context : Bytes) : Prop where
  length_eq : nodes.length = signatures.length
  data_eq : data = List.replicate nodes.length (sys.params.signedData context)
  quorum : sys.params.threshold < (sys.namedMembers nodes).card
  unforged : sys.Unforged net (.final context nodes signatures)

/-- What has happened at a node is still known at a later state of it. -/
structure Extends (n n' : Node) : Prop where
  out : n.out ⊆ n'.out
  log : n.log ⊆ n'.log
  echoed : n.echoed ⊆ n'.echoed

/-- The invariant of a correct node among the others. -/
structure Sound (sys : System) (net : Net) (i : NodeID) (n : Node) : Prop where
  echoed_length : n.echoed.length = n.state.sentEcho.toNat
  echoed_requested : ∀ data ∈ n.echoed, .signRequest data ∈ n.out
  requested : ∀ data, .signRequest data ∈ n.out → ∃ content, data = sys.params.signedData content ∧
    (sys.params.leader ∈ sys.correct → (net sys.params.leader).Sent (.start content) i)
  started : ∀ data destinations, .sendMessage (.start data) destinations ∈ n.out →
    ∃ request, .broadcastRequest request ∈ n.log ∧ request.bytes = data
  verifying : ∀ data signatures nodes context, .verifySigs data signatures nodes context ∈ n.out →
    Verifying sys net data signatures nodes context
  deliveries_length : n.deliveries.length = n.state.delivered.toNat
  certified : ∀ data, .deliver data ∈ n.out → Certified sys net data

theorem Extends.refl (n : Node) : Extends n n :=
  ⟨List.Subset.refl _, List.Subset.refl _, List.Subset.refl _⟩

theorem Extends.sent (h : Extends n n') {msg : Message} {dest : NodeID} (hsent : n.Sent msg dest) :
    n'.Sent msg dest := by
  obtain ⟨x, hx, hmatch⟩ := hsent
  exact ⟨x, h.out hx, hmatch⟩

theorem Extends.echoes (h : Extends n n') {bytes : Bytes} (hechoed : n.Echoed bytes) :
    n'.Echoed bytes := by
  obtain ⟨data, hdata, heq⟩ := hechoed
  exact ⟨data, h.echoed hdata, heq⟩

theorem Unforged.mono (hext : ∀ q, Extends (net q) (net' q)) {msg : Message}
    (h : sys.Unforged net msg) : sys.Unforged net' msg := by
  cases msg with
  | final data signers signatures =>
    exact fun x hx hcorrect hverify => (hext x.1).echoes (h x hx hcorrect hverify)
  | _ => exact trivial

/-- The other nodes may go on. -/
theorem Sound.mono (hext : ∀ q, Extends (net q) (net' q)) (h : Sound sys net self n) :
    Sound sys net' self n := by
  refine { h with requested := ?_, verifying := ?_, certified := ?_ }
  · intro data hdata
    obtain ⟨content, heq, hsent⟩ := h.requested data hdata
    exact ⟨content, heq, fun hleader => (hext _).sent (hsent hleader)⟩
  · intro data signatures nodes context hmem
    have hv := h.verifying _ _ _ _ hmem
    exact { hv with unforged := hv.unforged.mono hext }
  · intro data hmem
    obtain ⟨Q, hsub, hlt, hQ⟩ := h.certified data hmem
    exact ⟨Q, hsub, hlt, fun q hq hcorrect => (hext q).echoes (hQ q hq hcorrect)⟩

theorem Sound.new (sys : System) (net : Net) (i : NodeID) : Sound sys net i .new where
  echoed_length := rfl
  echoed_requested := nofun
  requested := nofun
  started := nofun
  verifying := nofun
  deliveries_length := rfl
  certified := nofun

/-! ### What a step preserves -/

/-- **Signatures that all verify** certify the data. -/
theorem Verifying.certified {data : List (List Bytes)} {signatures : List Bytes}
    {nodes : List NodeID} {context : Bytes} (h : Verifying sys net data signatures nodes context)
    (hall : ((data.zip (nodes.zip signatures)).all fun x =>
      sys.verify x.2.1 x.1.flatten x.2.2) = true) :
    Certified sys net context := by
  refine ⟨sys.namedMembers nodes, Finset.filter_subset _ _, h.quorum, fun q hq hcorrect => ?_⟩
  -- the signer stands somewhere in the list, with a signature
  obtain ⟨k, hk, rfl⟩ := List.mem_iff_getElem.mp (Finset.mem_filter.mp hq).2
  have hkσ : k < signatures.length := h.length_eq ▸ hk
  have hzip : (nodes[k], signatures[k]) ∈ nodes.zip signatures := by
    refine List.mem_iff_getElem.mpr ⟨k, by simp [hk, hkσ], by simp⟩
  refine h.unforged _ hzip hcorrect ?_
  have hmem : (sys.params.signedData context, nodes[k], signatures[k]) ∈
      data.zip (nodes.zip signatures) := by
    rw [h.data_eq]
    exact List.mem_iff_getElem.mpr ⟨k, by simp [hk, hkσ], by simp⟩
  exact List.all_eq_true.mp hall _ hmem

/-- A new event that a handler emits keeps the invariant's promise about it. The requests to the crypto
module are those before the batch, at `net self`. -/
structure Promised (sys : System) (net : Net) (i : NodeID) (event : Event) (x : Output) : Prop where
  requested : ∀ data, x = .signRequest data → ∃ content, data = sys.params.signedData content ∧
    (sys.params.leader ∈ sys.correct → (net sys.params.leader).Sent (.start content) i)
  started : ∀ data destinations, x = .sendMessage (.start data) destinations →
    ∃ request, event = .broadcastRequest request ∧ request.bytes = data
  verifying : ∀ data signatures nodes context, x = .verifySigs data signatures nodes context →
    Verifying sys net data signatures nodes context
  certified : ∀ data, x = .deliver data → Certified sys net data

theorem promised {s : State} {x : Output} (h0 : Sound sys net self (net self))
    (henabled : sys.Enabled net self event) (hC : sys.NamesQuorum event)
    (hx : Justified sys.params self s event x) : Promised sys net self event x := by
  refine ⟨?_, ?_, ?_, ?_⟩
  · rintro data rfl
    obtain ⟨content, rfl, rfl⟩ := hx
    exact ⟨content, rfl, henabled.1⟩
  · rintro data destinations rfl
    obtain ⟨-, request, rfl, rfl⟩ := hx
    exact ⟨request, rfl, rfl⟩
  · rintro data signatures nodes context rfl
    obtain ⟨⟨sender, rfl⟩, hlen, hlt, rfl⟩ := hx
    exact ⟨hlen, rfl, hC hlen hlt, henabled.2⟩
  · rintro data rfl
    obtain ⟨rfl, -⟩ := hx
    obtain ⟨y, hy, hanswers⟩ := henabled
    cases y with
    | verifySigs data' signatures nodes context =>
      obtain ⟨rfl, hall⟩ := hanswers
      exact (h0.verifying _ _ _ _ hy).certified hall.symm
    | _ => exact hanswers.elim

/-- What the signature that is sent out was requested for. -/
theorem signRequest_of_released {s : State} {data : List Bytes}
    (henabled : sys.Enabled net self event) (h : data ∈ Node.released s event) :
    .signRequest data ∈ (net self).out := by
  cases event with
  | signResult origin signature =>
    rw [Node.released] at h
    split at h
    · obtain rfl := List.mem_singleton.mp h
      obtain ⟨y, hy, hanswers⟩ := henabled
      cases y with
      | signRequest data' => exact hanswers ▸ hy
      | _ => exact hanswers.elim
    · cases h
  | _ => cases h

/-- **One event** keeps the invariant. -/
theorem Sound.process (h0 : Sound sys net self (net self)) (hext : Extends (net self) n)
    (h : Sound sys net self n) (henabled : sys.Enabled net self event) (hC : sys.NamesQuorum event)
    (hp : n.process sys.params self event = .ok n') :
    Sound sys net self n' ∧ Extends (net self) n' := by
  obtain ⟨⟨s', outs⟩, hhandle, hn'⟩ := bind_ok_iff.mp hp
  have heffect := handle_spec hhandle
  have hnew : ∀ x ∈ outs, Promised sys net self event x := fun x hx =>
    promised h0 henabled hC (heffect.justified x hx)
  obtain rfl := Except.ok.inj hn'
  refine ⟨⟨?_, ?_, ?_, ?_, ?_, ?_, ?_⟩, ?_⟩
  · change (n.echoed ++ Node.released n.state event).length = s'.sentEcho.toNat
    rw [List.length_append, h.echoed_length, heffect.sentEcho]
  · intro data hdata
    refine List.mem_append_left _ ?_
    rcases List.mem_append.mp hdata with hold | hreleased
    · exact h.echoed_requested data hold
    · exact hext.out (signRequest_of_released henabled hreleased)
  · intro data hmem
    rcases List.mem_append.mp hmem with hold | hx
    · exact h.requested data hold
    · exact (hnew _ hx).requested data rfl
  · intro data destinations hmem
    rcases List.mem_append.mp hmem with hold | hx
    · obtain ⟨request, hlog, heq⟩ := h.started data destinations hold
      exact ⟨request, List.mem_append_left _ hlog, heq⟩
    · obtain ⟨request, rfl, heq⟩ := (hnew _ hx).started data destinations rfl
      exact ⟨request, List.mem_append_right _ (List.mem_singleton.mpr rfl), heq⟩
  · intro data signatures nodes context hmem
    rcases List.mem_append.mp hmem with hold | hx
    · exact h.verifying _ _ _ _ hold
    · exact (hnew _ hx).verifying _ _ _ _ rfl
  · change ((n.out ++ outs).filterMap Output.delivered).length = s'.delivered.toNat
    have hlen : (n.out.filterMap Output.delivered).length = n.state.delivered.toNat :=
      h.deliveries_length
    rw [List.filterMap_append, List.length_append, hlen, heffect.delivered]
  · intro data hmem
    rcases List.mem_append.mp hmem with hold | hx
    · exact h.certified data hold
    · exact (hnew _ hx).certified data rfl
  · exact ⟨fun x hx => List.mem_append_left _ (hext.out hx),
      fun x hx => List.mem_append_left _ (hext.log hx),
      fun x hx => List.mem_append_left _ (hext.echoed hx)⟩

/-- The conditional action keeps the invariant: it only sends a Final message. -/
theorem Sound.update (h : Sound sys net self n) (order : SigOrder) :
    Sound sys net self (n.update sys.params order) := by
  obtain ⟨hecho, hdelivered, houts⟩ := uponStateUpdates_spec sys.params order n.state
  -- events other than Final messages were there before
  have hold : ∀ {x}, x ∈ (n.update sys.params order).out → (∀ data signers signatures,
      x ≠ .sendMessage (.final data signers signatures) sys.params.allNodes) → x ∈ n.out := by
    intro x hx hne
    refine (List.mem_append.mp hx).resolve_right fun hnew => ?_
    obtain ⟨data, signers, signatures, rfl⟩ := houts x hnew
    exact hne data signers signatures rfl
  have hnone : (uponStateUpdates sys.params order n.state).2.filterMap Output.delivered = [] := by
    refine List.filterMap_eq_nil_iff.mpr fun x hx => ?_
    obtain ⟨data, signers, signatures, rfl⟩ := houts x hx
    rfl
  have happend : (n.update sys.params order).deliveries = n.deliveries := by
    rw [Node.deliveries, Node.update, List.filterMap_append, hnone, List.append_nil]
    rfl
  refine ⟨h.echoed_length.trans (congrArg Bool.toNat hecho.symm),
    fun data hdata => List.mem_append_left _ (h.echoed_requested data hdata),
    fun data hmem => h.requested data (hold hmem (by simp)),
    fun data destinations hmem => h.started data destinations (hold hmem (by simp)),
    fun data signatures nodes context hmem => h.verifying _ _ _ _ (hold hmem (by simp)), ?_,
    fun data hmem => h.certified data (hold hmem (by simp))⟩
  rw [happend, h.deliveries_length]
  exact congrArg Bool.toNat hdelivered.symm

/-- A batch of events keeps the invariant. -/
theorem Sound.applyEvents (h : Sound sys net self (net self)) {order : SigOrder}
    {events : List Event} (henabled : ∀ event ∈ events, sys.Enabled net self event)
    (hC : ∀ event ∈ events, sys.NamesQuorum event)
    (happly : (net self).applyEvents sys.params order self events = .ok n) :
    Sound sys net self n ∧ Extends (net self) n := by
  obtain ⟨n₁, hfold, hn⟩ := bind_ok_iff.mp happly
  obtain rfl := Except.ok.inj hn
  have hrun : Sound sys net self n₁ ∧ Extends (net self) n₁ := by
    refine foldlM_induction
      (I := fun _ n => Sound sys net self n ∧ Extends (net self) n) ⟨h, .refl _⟩ ?_ hfold
    rintro visited event rest rfl n n' ⟨hsound, hext⟩ hprocess
    have hmem : event ∈ visited ++ event :: rest :=
      List.mem_append_right _ List.mem_cons_self
    exact Sound.process h hext hsound (henabled event hmem) (hC event hmem) hprocess
  refine ⟨hrun.1.update order, ?_⟩
  exact ⟨fun x hx => List.mem_append_left _ (hrun.2.out hx), hrun.2.log, hrun.2.echoed⟩

/-- **Every run** whose Final messages name enough members keeps the invariant of all correct
nodes. -/
theorem Reachable.sound (hr : sys.Reachable sys.NamesQuorum net) :
    ∀ i ∈ sys.correct, Sound sys net i (net i) := by
  induction hr with
  | init => exact fun i _ => .new sys _ i
  | @step net order self events n hr hself henabled hC happly ih =>
    obtain ⟨hsound, hext⟩ := (ih self hself).applyEvents henabled hC happly
    have hall : ∀ q, Extends (net q) (Function.update net self n q) := by
      intro q
      rcases eq_or_ne q self with rfl | hne
      · rw [Function.update_self]
        exact hext
      · rw [Function.update_of_ne hne]
        exact .refl _
    intro i hi
    rcases eq_or_ne i self with rfl | hne
    · rw [Function.update_self]
      exact hsound.mono hall
    · rw [Function.update_of_ne hne]
      exact (ih i hi).mono hall

/-! ### Consistency -/

theorem signedBytes_injective (sys : System) : Function.Injective sys.signedBytes := by
  intro d d' heq
  simpa [signedBytes, ModuleParams.signedData] using heq

/-- A correct node echoes one value. -/
theorem Sound.echoed_eq (h : Sound sys net self n) {d d' : Bytes}
    (hd : n.Echoed (sys.signedBytes d)) (hd' : n.Echoed (sys.signedBytes d')) : d = d' := by
  obtain ⟨data, hdata, heq⟩ := hd
  obtain ⟨data', hdata', heq'⟩ := hd'
  have hle : n.echoed.length ≤ 1 := h.echoed_length ▸ Bool.toNat_le _
  obtain rfl : data = data' := by
    obtain ⟨x, hx⟩ := List.length_eq_one_iff.mp
      (Nat.le_antisymm hle (List.length_pos_of_mem hdata))
    rw [hx] at hdata hdata'
    exact (List.mem_singleton.mp hdata).trans (List.mem_singleton.mp hdata').symm
  exact signedBytes_injective sys (heq.symm.trans heq')

/-- What a correct node has echoed, a correct leader has broadcast. -/
theorem Reachable.broadcast_of_echoed (hr : sys.Reachable sys.NamesQuorum net) {q : NodeID}
    (hq : q ∈ sys.correct) (hleader : sys.params.leader ∈ sys.correct) {d : Bytes}
    (hd : (net q).Echoed (sys.signedBytes d)) :
    ∃ request, .broadcastRequest request ∈ (net sys.params.leader).log ∧ request.bytes = d := by
  obtain ⟨data, hdata, heq⟩ := hd
  obtain ⟨content, rfl, hsent⟩ :=
    (hr.sound q hq).requested data ((hr.sound q hq).echoed_requested data hdata)
  obtain ⟨x, hx, hmatch⟩ := hsent hleader
  cases x with
  | sendMessage msg destinations =>
    obtain ⟨rfl, -⟩ := hmatch
    obtain ⟨request, hlog, hbytes⟩ := (hr.sound _ hleader).started content destinations hx
    exact ⟨request, hlog, hbytes.trans (signedBytes_injective sys heq)⟩
  | _ => exact hmatch.elim

/-- **Byzantine consistent broadcast is consistent** in every run in which each Final message that a
correct node processes names more than `(N+F)/2` members. -/
theorem broadcast_consistent (sys : System) {net : Net}
    (hr : sys.Reachable sys.NamesQuorum net) : sys.Consistent net := by
  refine ⟨?_, ?_, ?_⟩
  · intro i hi j hj d hd d' hd'
    obtain ⟨Q, hsub, hlt, hQ⟩ := (hr.sound i hi).certified d (Node.mem_deliveries.mp hd)
    obtain ⟨Q', hsub', hlt', hQ'⟩ := (hr.sound j hj).certified d' (Node.mem_deliveries.mp hd')
    -- a correct node in both quorums has echoed both values
    obtain ⟨q, hq, hq', hcorrect⟩ := exists_correct_mem hsub hsub' hlt hlt'
    exact (hr.sound q hcorrect).echoed_eq (hQ q hq hcorrect) (hQ' q hq' hcorrect)
  · intro i hi
    rw [(hr.sound i hi).deliveries_length]
    exact Bool.toNat_le _
  · intro hleader i hi d hd
    obtain ⟨Q, hsub, hlt, hQ⟩ := (hr.sound i hi).certified d (Node.mem_deliveries.mp hd)
    obtain ⟨q, hq, -, hcorrect⟩ := exists_correct_mem hsub hsub hlt hlt
    exact hr.broadcast_of_echoed hcorrect hleader (hQ q hq hcorrect)

/-- Four nodes, of which `[100]` is faulty; the signature `[1]` of any node verifies. -/
def fourNodes (leader : NodeID) : System where
  params := ⟨[0], [[97], [98], [99], [100]], leader⟩
  correct := {[97], [98], [99]}
  verify := fun _ _ signature => signature == [1]
  nodup := (by decide : ([[97], [98], [99], [100]] : List NodeID).Nodup)
  correct_subset := (by decide :
    ({[97], [98], [99]} : Finset NodeID) ⊆ [[97], [98], [99], [100]].toFinset)
  faulty_le := (by decide :
    ([[97], [98], [99], [100]].toFinset \ ({[97], [98], [99]} : Finset NodeID)).card ≤ (4 - 1) / 3)

/-- The correct leader `[97]` broadcasts `[7]`. The correct nodes echo it, and deliver it at the
leader. -/
def broadcastRun : List (NodeID × List Event) :=
  let signed := (fourNodes [97]).params.signedData [7]
  let correct : List NodeID := [[97], [98], [99]]
  [([97], [.broadcastRequest (some [7])])] ++
    correct.map (fun i => (i, [.messageReceived [97] (.start [7])])) ++
    correct.map (fun i => (i, [.signResult signed [1]])) ++
    [([97], correct.map fun i => .messageReceived i (.echo [1])),
      ([97], correct.map fun i => .sigVerified i true [1]),
      ([97], [.messageReceived [97] (.final [7] [[99], [98], [97]] [[1], [1], [1]])]),
      ([97], [.sigsVerified true [7]])]

/-- The broadcast of a correct leader is delivered, consistently. -/
theorem correct_leader_delivers : ∃ net, (fourNodes [97]).Reachable (fourNodes [97]).NamesQuorum net ∧
    (net [97]).deliveries = [[7]] ∧ (fourNodes [97]).Consistent net := by
  obtain ⟨net, hr, hdelivered⟩ := (fourNodes [97]).exists_reachable (by decide +kernel :
    (broadcastRun.foldlM ((fourNodes [97]).next? (fourNodes [97]).NamesQuorum) fun _ => .new).any
      (fun net => (net [97]).deliveries = [[7]]) = true)
  exact ⟨net, hr, hdelivered, broadcast_consistent (fourNodes [97]) hr⟩

/-- The faulty leader `[100]` sends two Final messages with different data to `[97]` and `[98]`. Both
list its own signature three times. -/
def splitRun : List (NodeID × List Event) :=
  [([97], [.messageReceived [100] (.final [7] [[100], [100], [100]] [[1], [1], [1]])]),
    ([98], [.messageReceived [100] (.final [8] [[100], [100], [100]] [[1], [1], [1]])]),
    ([97], [.sigsVerified true [7]]), ([98], [.sigsVerified true [8]])]

/-- A signer that is listed more than once makes correct nodes deliver different data. -/
theorem repeated_signer_splits : ¬ ∀ (sys : System) (net : Net), sys.Reachable (fun _ => True) net →
    sys.Consistent net := by
  intro hall
  obtain ⟨net, hr, ha, hb⟩ := (fourNodes [100]).exists_reachable (by decide +kernel :
    (splitRun.foldlM ((fourNodes [100]).next? fun _ => True) fun _ => .new).any
      (fun net => [7] ∈ (net [97]).deliveries ∧ [8] ∈ (net [98]).deliveries) = true)
  have heq := (hall _ net hr).agreement [97] (by decide) [98] (by decide) _ ha _ hb
  exact absurd heq (by decide)

end System

end Mir.Bcb
