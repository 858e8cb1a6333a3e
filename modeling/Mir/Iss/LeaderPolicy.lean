import Mir.Trantor.Quorums
import Mir.Lib.Arrangement
import Mir.Lib.Codec

/-!
# Leader selection policies

`iss/leaderselectionpolicy`: the simple policy, under which every node leads in every epoch, and
the blacklist policy, which leaves out nodes that were suspected recently as long as the others
have a strong quorum. `sort.Slice` is not stable and starts from a map's keys in any order, so
`leaders` takes the sorted list as an argument: any arrangement of the members by the policy's
comparison.

What the blacklist policy is for is said by `SuspicionLog`: the suspicions of each node since it
joined the membership. A policy **records** such a log when it knows the latest suspicion of each
node (`BlacklistLeaderPolicy.Records`); every call keeps this (`records_run`).
`leaders_wellFormed` says which leaders a policy that records a log returns.
-/

namespace Mir.Iss

open Coding Sorting

open Mir.Membership (fourMembers fourMembers_proper)

/-! ### The policies -/

/-- `SimpleLeaderPolicy`. -/
structure SimpleLeaderPolicy where
  membership : List NodeID
  deriving DecidableEq

namespace SimpleLeaderPolicy

/-- `NewSimpleLeaderPolicy`. -/
def new (m : Membership) : SimpleLeaderPolicy := ⟨m.nodes.sortedKeys GoString.le⟩

/-- `SimpleLeaderPolicy.Leaders`. -/
def leaders (p : SimpleLeaderPolicy) : List NodeID := p.membership

/-- `SimpleLeaderPolicy.Reconfigure`. -/
def reconfigure (_ : SimpleLeaderPolicy) (m : Membership) : SimpleLeaderPolicy :=
  ⟨m.nodes.sortedKeys GoString.le⟩

end SimpleLeaderPolicy

/-- `BlacklistLeaderPolicy`. Decoding may leave either field `nil`. -/
structure BlacklistLeaderPolicy where
  membership : Option Membership
  suspected : Option (Finmap fun _ : NodeID => EpochNr)
  deriving DecidableEq

namespace BlacklistLeaderPolicy

/-- `NewBlackListLeaderPolicy`. -/
def new (m : Membership) : BlacklistLeaderPolicy := ⟨some m, some ∅⟩

/-- The entry of a node in `Suspected`; a `nil` map reads as the empty one. -/
def lastSuspected (l : BlacklistLeaderPolicy) (id : NodeID) : Option EpochNr :=
  (l.suspected.getD ∅).lookup id

/-- The comparison `Leaders` sorts by. -/
def less (l : BlacklistLeaderPolicy) (a b : NodeID) : Bool :=
  match l.lastSuspected a, l.lastSuspected b with
  | none, none => decide (a < b)
  | none, some _ => true
  | some _, none => false
  | some e, some e' => decide (e < e')

/-- What the sort establishes for neighbours: the second is not less than the first. -/
def le (l : BlacklistLeaderPolicy) (a b : NodeID) : Bool := !l.less b a

/-- The loop of `Leaders` over `nodeIDs[:minLeaders]`, which starts with one node. Slicing beyond
the last node panics. -/
def minLeaders (m : Membership) (taken : List NodeID) : List NodeID → Fallible ℕ
  | [] => .error (.panic .indexOutOfRange)
  | id :: rest => do
    if ← m.haveStrongQuorum (taken ++ [id]) then return taken.length + 1
    else minLeaders m (taken ++ [id]) rest

/-- `BlacklistLeaderPolicy.Leaders`, where `nodeIDs` are the members as sorting left them. -/
def leaders (l : BlacklistLeaderPolicy) (nodeIDs : List NodeID) : Fallible (List NodeID) := do
  let m ← deref l.membership
  let min ← minLeaders m [] nodeIDs
  let numLeaders := m.nodes.keys.length - (l.suspected.getD ∅).keys.card
  return nodeIDs.take (max numLeaders min)

/-- `BlacklistLeaderPolicy.Suspect`; assigning to an entry of a `nil` map panics. -/
def suspect (l : BlacklistLeaderPolicy) (e : EpochNr) (node : NodeID) :
    Fallible BlacklistLeaderPolicy := do
  let m ← deref l.membership
  if node ∉ m.nodes.keys then return l
  else if (l.lastSuspected node).all (· < e) then
    let suspected ← deref l.suspected
    return { l with suspected := some (suspected.insert node e) }
  else return l

/-- The body of the loop of `Reconfigure`: copy the entry of a node, if there is one. -/
def keep (l : BlacklistLeaderPolicy) (suspected : Finmap fun _ : NodeID => EpochNr) (id : NodeID) :
    Finmap fun _ : NodeID => EpochNr :=
  match l.lastSuspected id with
  | some e => suspected.insert id e
  | none => suspected

/-- `BlacklistLeaderPolicy.Reconfigure`. -/
def reconfigure (l : BlacklistLeaderPolicy) (m : Membership) : BlacklistLeaderPolicy :=
  ⟨some m, some (m.nodes.keys.foldl l.keep ∅)⟩

end BlacklistLeaderPolicy

/-- The implementations of `LeaderSelectionPolicy`. -/
inductive LeaderPolicy
  | simple (p : SimpleLeaderPolicy)
  | blacklist (l : BlacklistLeaderPolicy)
  deriving DecidableEq

/-- The CBOR encodings of the policies: what is written is read back. -/
structure PolicyCodec where
  simple : Codec UInt8 SimpleLeaderPolicy
  blacklist : Codec UInt8 BlacklistLeaderPolicy

namespace LeaderPolicy

/-- The policy type `Simple`: the bytes of "simple". -/
def simpleType : Bytes := [115, 105, 109, 112, 108, 101]

/-- The policy type `Blacklist`: the bytes of "blacklist". -/
def blacklistType : Bytes := [98, 108, 97, 99, 107, 108, 105, 115, 116]

/-- `stripType`. -/
def stripType (data policyType : Bytes) : Option Bytes :=
  if data.length < policyType.length then none
  else if data.take policyType.length ≠ policyType then none
  else some (data.drop policyType.length)

/-- `LeaderPolicyFromBytes`; `none` is an error. -/
def fromBytes (codec : PolicyCodec) (data : Bytes) : Option LeaderPolicy :=
  match stripType data simpleType with
  | some policyData => (codec.simple.decode policyData).map .simple
  | none =>
    match stripType data blacklistType with
    | some policyData => (codec.blacklist.decode policyData).map .blacklist
    | none => none

/-- `Bytes` of a policy. -/
def bytes (codec : PolicyCodec) : LeaderPolicy → Bytes
  | .simple p => simpleType ++ codec.simple.encode p
  | .blacklist l => blacklistType ++ codec.blacklist.encode l

/-- `Leaders` of a policy; the simple policy sorts nothing. -/
def leaders (p : LeaderPolicy) (nodeIDs : List NodeID) : Fallible (List NodeID) :=
  match p with
  | .simple p => .ok p.leaders
  | .blacklist l => l.leaders nodeIDs

/-- `Suspect` of a policy; the simple policy ignores it. -/
def suspect (p : LeaderPolicy) (e : EpochNr) (node : NodeID) : Fallible LeaderPolicy :=
  match p with
  | .simple p => .ok (.simple p)
  | .blacklist l => do
    let l ← l.suspect e node
    return .blacklist l

/-- `Reconfigure` of a policy. -/
def reconfigure (p : LeaderPolicy) (m : Membership) : LeaderPolicy :=
  match p with
  | .simple p => .simple (p.reconfigure m)
  | .blacklist l => .blacklist (l.reconfigure m)

end LeaderPolicy

/-! ### Histories -/

/-- The calls that lead from one policy to the next; a round trip writes the policy as bytes and
reads it back, as a checkpoint does. -/
inductive PolicyCall
  | suspect (e : EpochNr) (node : NodeID)
  | reconfigure (m : Membership)
  | roundTrip

/-- The effect of one call. -/
def LeaderPolicy.call (codec : PolicyCodec) (p : LeaderPolicy) : PolicyCall → Fallible LeaderPolicy
  | .suspect e node => p.suspect e node
  | .reconfigure m => .ok (p.reconfigure m)
  | .roundTrip =>
    match LeaderPolicy.fromBytes codec (p.bytes codec) with
    | some p' => .ok p'
    | none => .error (.error .invalidLeaderPolicy)

/-- The effect of a history of calls. -/
def LeaderPolicy.run (codec : PolicyCodec) (p : LeaderPolicy) : List PolicyCall → Fallible LeaderPolicy
  | [] => .ok p
  | c :: cs => do
    let p ← p.call codec c
    LeaderPolicy.run codec p cs

/-- What a history amounts to: the membership, and the epochs in which each node was suspected
since it joined it. -/
structure SuspicionLog where
  membership : Membership
  epochs : NodeID → Multiset EpochNr

namespace SuspicionLog

/-- Nobody was suspected. -/
def new (m : Membership) : SuspicionLog := ⟨m, fun _ => 0⟩

/-- Suspicions of members are kept, and forgotten when a node leaves the membership. -/
def call (log : SuspicionLog) : PolicyCall → SuspicionLog
  | .suspect e node =>
    if node ∈ log.membership.nodes.keys then
      { log with epochs := fun id => if id = node then e ::ₘ log.epochs id else log.epochs id }
    else log
  | .reconfigure m => ⟨m, fun id => if id ∈ m.nodes.keys then log.epochs id else 0⟩
  | .roundTrip => log

/-- The log of a history. -/
def run (log : SuspicionLog) (cs : List PolicyCall) : SuspicionLog := cs.foldl call log

end SuspicionLog

/-- The latest of some epochs, if there are any. -/
def IsLatest (es : Multiset EpochNr) : Option EpochNr → Prop
  | none => es = 0
  | some e => e ∈ es ∧ ∀ e' ∈ es, e' ≤ e

theorem IsLatest.unique {es : Multiset EpochNr} {x y : Option EpochNr} (hx : IsLatest es x)
    (hy : IsLatest es y) : x = y := by
  cases x with
  | none =>
    cases y with
    | none => rfl
    | some e => exact absurd hy.1 (by simp [show es = 0 from hx])
  | some e =>
    cases y with
    | none => exact absurd hx.1 (by simp [show es = 0 from hy])
    | some e' => exact congrArg some (UInt64.le_antisymm (hy.2 e hx.1) (hx.2 e' hy.1))

/-- One more epoch replaces the latest one if it is later. -/
theorem IsLatest.cons {es : Multiset EpochNr} {x : Option EpochNr} (h : IsLatest es x)
    (e : EpochNr) : IsLatest (e ::ₘ es) (if x.all (· < e) then some e else x) := by
  cases x with
  | none =>
    have hes : es = 0 := h
    simp [IsLatest, hes]
  | some last =>
    by_cases hlt : last < e
    · simp only [Option.all_some, hlt, decide_true, if_true]
      refine ⟨Multiset.mem_cons_self e es, fun e' he' => ?_⟩
      rcases Multiset.mem_cons.mp he' with rfl | he'
      · exact UInt64.le_refl e'
      · exact UInt64.le_trans (h.2 e' he') (UInt64.le_of_lt hlt)
    · simp only [Option.all_some, hlt, decide_false, Bool.false_eq_true, if_false]
      refine ⟨Multiset.mem_cons_of_mem h.1, fun e' he' => ?_⟩
      rcases Multiset.mem_cons.mp he' with rfl | he'
      · exact UInt64.not_lt.mp hlt
      · exact h.2 e' he'

/-- A policy **records** a log: it has the log's membership and the latest suspicion of each
node. -/
structure BlacklistLeaderPolicy.Records (l : BlacklistLeaderPolicy) (log : SuspicionLog) :
    Prop where
  membership : l.membership = some log.membership
  suspected : l.suspected.isSome
  latest : ∀ id, IsLatest (log.epochs id) (l.lastSuspected id)
  members : ∀ id, id ∉ log.membership.nodes.keys → log.epochs id = 0

namespace BlacklistLeaderPolicy

variable {l : BlacklistLeaderPolicy} {log : SuspicionLog}

theorem records_new (m : Membership) : (new m).Records (.new m) :=
  ⟨rfl, rfl, fun _ => rfl, fun _ _ => rfl⟩

/-- A suspected node is a member. -/
theorem Records.mem_of_suspected (h : l.Records log) {id : NodeID} {e : EpochNr}
    (he : l.lastSuspected id = some e) : id ∈ log.membership.nodes.keys := by
  by_contra hid
  have hlatest := h.latest id
  rw [he, h.members id hid] at hlatest
  exact absurd hlatest.1 (Multiset.notMem_zero e)

/-- **Policies that record the same log are equal.** -/
theorem Records.unique {l' : BlacklistLeaderPolicy} (h : l.Records log) (h' : l'.Records log) :
    l = l' := by
  obtain ⟨membership, suspected⟩ := l
  obtain ⟨membership', suspected'⟩ := l'
  obtain ⟨s, rfl⟩ := Option.isSome_iff_exists.mp h.suspected
  obtain ⟨s', rfl⟩ := Option.isSome_iff_exists.mp h'.suspected
  have hm : membership = membership' := h.membership.trans h'.membership.symm
  have hs : s = s' := Finmap.ext_lookup fun id => (h.latest id).unique (h'.latest id)
  rw [hm, hs]

/-- `Suspect` completes on a policy without `nil` fields, and updates at most one entry. -/
theorem suspect_eq_ok {m : Membership} (hm : l.membership = some m) (hs : l.suspected.isSome)
    (e : EpochNr) (node : NodeID) :
    ∃ l', l.suspect e node = .ok l' ∧ l'.membership = some m ∧ l'.suspected.isSome ∧
      ∀ id, l'.lastSuspected id =
        if id = node ∧ node ∈ m.nodes.keys ∧ (l.lastSuspected node).all (· < e) then some e
        else l.lastSuspected id := by
  obtain ⟨s, hs⟩ := Option.isSome_iff_exists.mp hs
  by_cases hmem : node ∈ m.nodes.keys
  · by_cases hlate : (l.lastSuspected node).all (· < e) = true
    · refine ⟨{ l with suspected := some (s.insert node e) }, ?_, hm, rfl, fun id => ?_⟩
      · simp [suspect, hm, deref, hmem, hlate, hs]
      · by_cases hid : id = node
        · subst hid
          rw [if_pos ⟨rfl, hmem, hlate⟩]
          exact Finmap.lookup_insert s
        · rw [if_neg fun h => hid h.1, lastSuspected, lastSuspected, hs]
          exact Finmap.lookup_insert_of_ne s hid
    · refine ⟨l, ?_, hm, by simp [hs], fun id => (if_neg fun h => hlate h.2.2).symm⟩
      simp [suspect, hm, deref, hlate]
  · refine ⟨l, ?_, hm, by simp [hs], fun id => (if_neg fun h => hmem h.2.1).symm⟩
    simp [suspect, hm, deref, hmem]

/-- `Suspect` records the suspicion of a member, and ignores other nodes. -/
theorem Records.suspect (h : l.Records log) (e : EpochNr) (node : NodeID) :
    ∃ l', l.suspect e node = .ok l' ∧ l'.Records (log.call (.suspect e node)) := by
  obtain ⟨l', hl', hm, hs, hlookup⟩ := suspect_eq_ok h.membership h.suspected e node
  refine ⟨l', hl', ?_⟩
  by_cases hmem : node ∈ log.membership.nodes.keys
  · rw [SuspicionLog.call, if_pos hmem]
    refine ⟨hm, hs, fun id => ?_, fun id hid => ?_⟩
    · have hid := h.latest id
      rw [hlookup]
      by_cases heq : id = node
      · subst heq
        simpa [hmem] using hid.cons e
      · simpa [heq] using hid
    · have hne : id ≠ node := fun heq => hid (heq ▸ hmem)
      simpa [hne] using h.members id hid
  · rw [SuspicionLog.call, if_neg hmem]
    refine ⟨hm, hs, fun id => ?_, h.members⟩
    rw [hlookup, if_neg fun hc => hmem hc.2.1]
    exact h.latest id

theorem lookup_keep (l : BlacklistLeaderPolicy) (s : Finmap fun _ : NodeID => EpochNr)
    (a id : NodeID) :
    (l.keep s a).lookup id =
      if id = a then (l.lastSuspected a).or (s.lookup a) else s.lookup id := by
  unfold keep
  split
  next e he =>
    by_cases hid : id = a
    · rw [hid, if_pos rfl, he, Finmap.lookup_insert, Option.some_or]
    · rw [if_neg hid, Finmap.lookup_insert_of_ne s hid]
  next hnone =>
    split
    next hid => rw [hid, hnone, Option.none_or]
    next hid => rfl

theorem lookup_foldl_keep (l : BlacklistLeaderPolicy) (ids : List NodeID)
    (s : Finmap fun _ : NodeID => EpochNr) (id : NodeID) :
    (ids.foldl l.keep s).lookup id =
      if id ∈ ids then (l.lastSuspected id).or (s.lookup id) else s.lookup id := by
  induction ids generalizing s with
  | nil => simp
  | cons a ids ih =>
    rw [List.foldl_cons, ih, lookup_keep]
    by_cases hid : id = a
    · subst hid
      cases l.lastSuspected id <;> simp
    · simp [hid]

/-- `Reconfigure` keeps the entries of the members. -/
theorem lastSuspected_reconfigure (l : BlacklistLeaderPolicy) (m : Membership) (id : NodeID) :
    (l.reconfigure m).lastSuspected id =
      if id ∈ m.nodes.keys then l.lastSuspected id else none := by
  have hfold := lookup_foldl_keep l m.nodes.keys ∅ id
  rw [Finmap.lookup_empty, Option.or_none] at hfold
  exact hfold

theorem Records.reconfigure (h : l.Records log) (m : Membership) :
    (l.reconfigure m).Records (log.call (.reconfigure m)) := by
  refine ⟨rfl, rfl, fun id => ?_, fun id hid => if_neg hid⟩
  rw [lastSuspected_reconfigure]
  by_cases hid : id ∈ m.nodes.keys
  · simpa [SuspicionLog.call, hid] using h.latest id
  · simp [SuspicionLog.call, hid, IsLatest]

end BlacklistLeaderPolicy

/-! ### Round trips -/

theorem stripType_append (policyType data : Bytes) :
    LeaderPolicy.stripType (policyType ++ data) policyType = some data := by
  simp [LeaderPolicy.stripType]

/-- The two type names differ in their first byte. -/
theorem stripType_blacklist (data : Bytes) :
    LeaderPolicy.stripType (LeaderPolicy.blacklistType ++ data) LeaderPolicy.simpleType = none := by
  simp [LeaderPolicy.stripType, LeaderPolicy.blacklistType, LeaderPolicy.simpleType]

/-- **What `Bytes` writes, `LeaderPolicyFromBytes` reads back.** -/
theorem fromBytes_bytes (codec : PolicyCodec) (p : LeaderPolicy) :
    LeaderPolicy.fromBytes codec (p.bytes codec) = some p := by
  cases p with
  | simple p =>
    simp [LeaderPolicy.fromBytes, LeaderPolicy.bytes, stripType_append, codec.simple.decode_encode]
  | blacklist l =>
    simp [LeaderPolicy.fromBytes, LeaderPolicy.bytes, stripType_append, stripType_blacklist,
      codec.blacklist.decode_encode]

/-- **Every history completes, and the policy records its log.** -/
theorem records_run (codec : PolicyCodec) (cs : List PolicyCall) {l : BlacklistLeaderPolicy}
    {log : SuspicionLog} (h : l.Records log) :
    ∃ l', LeaderPolicy.run codec (.blacklist l) cs = .ok (.blacklist l') ∧
      l'.Records (log.run cs) := by
  induction cs generalizing l log with
  | nil => exact ⟨l, rfl, h⟩
  | cons c cs ih =>
    obtain ⟨l', hcall, hl'⟩ : ∃ l', LeaderPolicy.call codec (.blacklist l) c =
        .ok (.blacklist l') ∧ l'.Records (log.call c) := by
      cases c with
      | suspect e node =>
        obtain ⟨l', hsuspect, hl'⟩ := h.suspect e node
        exact ⟨l', by simp [LeaderPolicy.call, LeaderPolicy.suspect, hsuspect], hl'⟩
      | reconfigure m => exact ⟨l.reconfigure m, rfl, h.reconfigure m⟩
      | roundTrip => exact ⟨l, by simp [LeaderPolicy.call, fromBytes_bytes], h⟩
    obtain ⟨l'', hrun, hl''⟩ := ih hl'
    exact ⟨l'', by simp [LeaderPolicy.run, hcall, hrun], hl''⟩

/-! ### The order of the nodes -/

namespace BlacklistLeaderPolicy

variable {l : BlacklistLeaderPolicy} {m : Membership} {ids : List NodeID}

/-- What the order says: never suspected nodes by name, then the others by their latest
suspicion. -/
theorem le_iff {a b : NodeID} :
    l.le a b = true ↔
      match l.lastSuspected a, l.lastSuspected b with
      | none, none => a ≤ b
      | none, some _ => True
      | some _, none => False
      | some e, some e' => e ≤ e' := by
  unfold le less
  cases l.lastSuspected a <;> cases l.lastSuspected b <;> simp

theorem totalPreorder_le (l : BlacklistLeaderPolicy) : TotalPreorder l.le := by
  refine ⟨fun a b c hab hbc => ?_, fun a b => ?_⟩
  · rw [le_iff] at hab hbc ⊢
    cases ha : l.lastSuspected a <;> cases hb : l.lastSuspected b <;>
      cases hc : l.lastSuspected c <;> simp only [ha, hb, hc] at hab hbc ⊢
    · exact List.le_trans hab hbc
    · exact UInt64.le_trans hab hbc
  · rw [le_iff, le_iff]
    cases ha : l.lastSuspected a <;> cases hb : l.lastSuspected b <;> simp only [or_true, true_or]
    · exact List.le_total a b
    · exact UInt64.le_total _ _

/-- Never suspected nodes are not tied with any other node. -/
theorem before_of_unsuspected {a b : NodeID} (ha : l.lastSuspected a = none) (hne : a ≠ b)
    (hle : l.le a b) : before l.le b a := by
  rw [before, Bool.not_eq_true', ← Bool.not_eq_true, le_iff]
  rw [le_iff] at hle
  cases hb : l.lastSuspected b with
  | none =>
    simp only [ha, hb] at hle ⊢
    exact fun hba => hne (List.le_antisymm hle hba)
  | some e => simp [ha]

/-! ### Cutting the list -/

/-- The loop stops at the first of the growing lists that is a strong quorum. -/
theorem minLeaders_eq_ok {taken rest : List NodeID} {k : ℕ}
    (h : minLeaders m taken rest = .ok k) :
    ∃ j, 0 < j ∧ j ≤ rest.length ∧ k = taken.length + j ∧
      m.haveStrongQuorum (taken ++ rest.take j) = .ok true ∧
      ∀ i, 0 < i → i < j → m.haveStrongQuorum (taken ++ rest.take i) = .ok false := by
  induction rest generalizing taken with
  | nil => cases h
  | cons id rest ih =>
    obtain ⟨b, hb, hrest⟩ := Fallible.bind_eq_ok.mp h
    cases b with
    | true =>
      cases hrest
      refine ⟨1, by omega, by simp, rfl, by simpa using hb, fun i hi hlt => by omega⟩
    | false =>
      obtain ⟨j, hj, hle, rfl, htrue, hfalse⟩ := ih hrest
      refine ⟨j + 1, by omega, by simpa using hle, ?_, by simpa using htrue, fun i hi hlt => ?_⟩
      · rw [List.length_append, List.length_singleton]
        omega
      · obtain ⟨i, rfl⟩ : ∃ i', i = i' + 1 := ⟨i - 1, by omega⟩
        by_cases hzero : i = 0
        · subst hzero
          simpa using hb
        · simpa using hfalse i (by omega) (by omega)

/-- The loop ends on any list of members that has a strong quorum. -/
theorem minLeaders_completes {taken rest : List NodeID} (hne : rest ≠ [])
    (hall : ∀ j, ∃ b, m.haveStrongQuorum (taken ++ rest.take j) = .ok b)
    (hstrong : m.haveStrongQuorum (taken ++ rest) = .ok true) :
    ∃ k, minLeaders m taken rest = .ok k := by
  induction rest generalizing taken with
  | nil => exact absurd rfl hne
  | cons id rest ih =>
    obtain ⟨b, hb⟩ := hall 1
    rw [List.take_succ_cons, List.take_zero] at hb
    cases b with
    | true => exact ⟨taken.length + 1, by simp [minLeaders, hb]⟩
    | false =>
      have hrest : rest ≠ [] := by
        rintro rfl
        rw [hb] at hstrong
        cases hstrong
      obtain ⟨k, hk⟩ : ∃ k, minLeaders m (taken ++ [id]) rest = .ok k :=
        ih hrest (fun j => by simpa using hall (j + 1)) (by simpa using hstrong)
      exact ⟨k, by simp [minLeaders, hb, hk]⟩

/-- The nodes of a list that were never suspected. -/
def unsuspected (l : BlacklistLeaderPolicy) (ids : List NodeID) : List NodeID :=
  ids.filter fun id => (l.lastSuspected id).isNone

/-- Never suspected nodes come first. -/
theorem unsuspected_prefix_ids (hids : Arrangement l.le m.nodes.keys ids) :
    l.unsuspected ids <+: ids := by
  refine ⟨_, filter_append_of_pairwise (hids.sorted.imp fun {a b} hab hb => ?_)⟩
  rw [le_iff, Option.isNone_iff_eq_none.mp hb] at hab
  cases ha : l.lastSuspected a with
  | none => rfl
  | some e => simp [ha] at hab

section Records

variable {log : SuspicionLog} (h : l.Records log)

include h

/-- The number of nodes never suspected, as `Leaders` computes it from the map's size. -/
theorem Records.length_unsuspected (hids : ids.Perm log.membership.nodes.keys) :
    (l.unsuspected ids).length =
      log.membership.nodes.keys.length - (l.suspected.getD ∅).keys.card := by
  have hsplit := List.length_eq_length_filter_add (l := ids)
    fun id => (l.lastSuspected id).isNone
  have hcard : (ids.filter fun id => !(l.lastSuspected id).isNone).length =
      (l.suspected.getD ∅).keys.card := by
    rw [← List.toFinset_card_of_nodup ((hids.nodup_iff.mpr
      (log.membership.nodes.keys_nodup)).filter _)]
    congr 1
    ext id
    rw [List.mem_toFinset, List.mem_filter, hids.mem_iff, Finmap.mem_keys, ← Finmap.lookup_isSome]
    constructor
    · rintro ⟨-, hsome⟩
      simpa [lastSuspected] using hsome
    · intro hsome
      obtain ⟨e, he⟩ := Option.isSome_iff_exists.mp hsome
      exact ⟨h.mem_of_suspected he, by simp [lastSuspected, he]⟩
  rw [← hids.length_eq, hsplit, hcard]
  exact (Nat.add_sub_cancel _ _).symm

/-- `Leaders` is the longer of two beginnings of the list: the never suspected nodes, and the
shortest strong quorum. -/
theorem Records.leaders_eq_ok (hids : ids.Perm log.membership.nodes.keys) {ls : List NodeID} :
    l.leaders ids = .ok ls ↔ ∃ k, minLeaders log.membership [] ids = .ok k ∧
      ls = ids.take (max (l.unsuspected ids).length k) := by
  rw [leaders, h.membership, h.length_unsuspected hids]
  simp only [deref, Fallible.ok_bind]
  rw [Fallible.bind_eq_ok]
  simp [eq_comm]

end Records

end BlacklistLeaderPolicy

/-- **Well-formed leaders** for a log of suspicions. -/
structure WellFormedLeaders (log : SuspicionLog) (ls : List NodeID) : Prop where
  nodup : ls.Nodup
  members : ∀ id ∈ ls, id ∈ log.membership.nodes.keys
  unsuspected : ∀ id ∈ log.membership.nodes.keys, log.epochs id = 0 → id ∈ ls
  strong : log.membership.haveStrongQuorum ls = .ok true
  /-- A node that is left out was suspected at least as late as every leader. -/
  downward : ∀ id ∈ ls, ∀ x ∈ log.membership.nodes.keys, x ∉ ls →
    ∃ e ∈ log.epochs x, ∀ e' ∈ log.epochs id, e' ≤ e
  /-- Suspected nodes lead only if the quorum needs the last one. -/
  minimal : (∃ id ∈ ls, log.epochs id ≠ 0) →
    log.membership.haveStrongQuorum ls.dropLast = .ok false

namespace BlacklistLeaderPolicy

open WeightedQuorum

variable {l : BlacklistLeaderPolicy} {log : SuspicionLog} {ids : List NodeID}

theorem Records.lastSuspected_eq_none (h : l.Records log) {id : NodeID} :
    l.lastSuspected id = none ↔ log.epochs id = 0 := by
  have hlatest := h.latest id
  cases hlast : l.lastSuspected id with
  | none => simpa [hlast, IsLatest] using hlatest
  | some e =>
    rw [hlast] at hlatest
    refine iff_of_false (by simp) fun hzero => ?_
    exact Multiset.notMem_zero e (hzero ▸ hlatest.1)

/-- All members together are a strong quorum. -/
theorem isStrong_members {m : Membership} (hm : m.Proper) : IsStrong m.members m.w m.members := by
  refine ⟨subset_rfl, ?_⟩
  have hpos := hm.positive
  simp only [tolerance, faultBound]
  omega

theorem memberSet_take {m : Membership} (hids : ids.Perm m.nodes.keys) (j : ℕ) :
    m.MemberSet (ids.take j) :=
  ⟨(hids.nodup_iff.mpr m.nodes.keys_nodup).sublist (List.take_sublist j ids),
    fun _ hid => hids.mem_iff.mp (List.mem_of_mem_take hid)⟩

/-- The loop of `Leaders` ends within the list. -/
theorem exists_minLeaders {m : Membership} (hm : m.Proper) (hids : ids.Perm m.nodes.keys) :
    ∃ k, minLeaders m [] ids = .ok k := by
  have hset : ids.toFinset = m.members := List.toFinset_eq_of_perm _ _ hids
  have hwhole := memberSet_take hids ids.length
  rw [List.take_length] at hwhole
  refine minLeaders_completes ?_ (fun j => ?_) ?_
  · rintro rfl
    have hpos := hm.positive
    rw [← hset] at hpos
    exact absurd hpos (by simp [weight])
  · have hj := memberSet_take hids j
    obtain ⟨b, hb, -⟩ := Membership.haveStrongQuorum_eq_ok hm.readable hj.members hj.nodup
    exact ⟨b, hb⟩
  · refine (hwhole.strong_iff hm.readable).mpr ?_
    rw [hset]
    exact (isStrong_members hm).2

section Take

variable (h : l.Records log) (hids : Arrangement l.le log.membership.nodes.keys ids)

include h hids

/-- A beginning of the list that reaches beyond the never suspected nodes contains them. -/
theorem Records.mem_take_of_unsuspected {n : ℕ} (hn : (l.unsuspected ids).length ≤ n) {id : NodeID}
    (hid : id ∈ log.membership.nodes.keys) (hzero : log.epochs id = 0) : id ∈ ids.take n := by
  have hmem : id ∈ l.unsuspected ids :=
    List.mem_filter.mpr ⟨hids.perm.mem_iff.mpr hid, by simp [h.lastSuspected_eq_none.mpr hzero]⟩
  have htake := List.prefix_iff_eq_take.mp (unsuspected_prefix_ids hids)
  exact (List.take_prefix_take_left hn).subset (htake ▸ hmem)

/-- A beginning of the list with a suspected node is longer than the never suspected nodes. -/
theorem Records.lt_of_suspected {n : ℕ} {id : NodeID} (hid : id ∈ ids.take n)
    (hne : log.epochs id ≠ 0) : (l.unsuspected ids).length < n := by
  by_contra hle
  obtain ⟨rest, hsplit⟩ := unsuspected_prefix_ids hids
  rw [← hsplit, List.take_append_of_le_length (by omega)] at hid
  have hnone := (List.mem_filter.mp (List.mem_of_mem_take hid)).2
  exact hne (h.lastSuspected_eq_none.mp (Option.isNone_iff_eq_none.mp hnone))

/-- What is left out was suspected at least as late as what is included. -/
theorem Records.downward_take {n : ℕ} (hn : (l.unsuspected ids).length ≤ n) {id x : NodeID}
    (hid : id ∈ ids.take n) (hx : x ∈ log.membership.nodes.keys) (hnot : x ∉ ids.take n) :
    ∃ e ∈ log.epochs x, ∀ e' ∈ log.epochs id, e' ≤ e := by
  have hdrop : x ∈ ids.drop n := by
    have hmem := hids.perm.mem_iff.mpr hx
    rw [← List.take_append_drop n ids, List.mem_append] at hmem
    exact hmem.resolve_left hnot
  have hsorted := hids.sorted
  rw [← List.take_append_drop n ids] at hsorted
  have hle := (List.pairwise_append.mp hsorted).2.2 id hid x hdrop
  obtain ⟨e, he⟩ : ∃ e, l.lastSuspected x = some e := by
    rw [← Option.ne_none_iff_exists']
    exact fun hnone =>
      hnot (h.mem_take_of_unsuspected hids hn hx (h.lastSuspected_eq_none.mp hnone))
  have hlatest := h.latest x
  rw [he] at hlatest
  refine ⟨e, hlatest.1, fun e' he' => ?_⟩
  have hlatest' := h.latest id
  rw [le_iff, he] at hle
  cases hlast : l.lastSuspected id with
  | none =>
    rw [hlast] at hlatest'
    exact absurd he' (by simp [show log.epochs id = 0 from hlatest'])
  | some last =>
    rw [hlast] at hlatest' hle
    exact UInt64.le_trans (hlatest'.2 e' he') hle

/-- **Leaders are well formed**, however ties are arranged. -/
theorem Records.wellFormedLeaders (hm : log.membership.Proper) :
    ∃ ls, l.leaders ids = .ok ls ∧ WellFormedLeaders log ls := by
  obtain ⟨k, hk⟩ := exists_minLeaders hm hids.perm
  obtain ⟨j, hj, hle, rfl, htrue, hfalse⟩ := minLeaders_eq_ok hk
  simp only [List.length_nil, Nat.zero_add, List.nil_append] at hk htrue hfalse
  refine ⟨_, (h.leaders_eq_ok hids.perm).mpr ⟨j, hk, rfl⟩, ?_⟩
  set n := max (l.unsuspected ids).length j with hn
  have hset := memberSet_take hids.perm n
  have hprefix := memberSet_take hids.perm j
  refine ⟨hset.nodup, hset.members, fun id hid hzero => ?_, ?_, fun id hid x hx hnot => ?_, ?_⟩
  · exact h.mem_take_of_unsuspected hids (le_max_left _ _) hid hzero
  · have hsub : (ids.take j).toFinset ⊆ (ids.take n).toFinset := fun id hid =>
      List.mem_toFinset.mpr ((List.take_prefix_take_left (le_max_right _ _)).subset
        (List.mem_toFinset.mp hid))
    have hstrong := (Membership.haveStrongQuorum_iff hm.readable hprefix.members hprefix.nodup).mp
      htrue
    exact (Membership.haveStrongQuorum_iff hm.readable hset.members hset.nodup).mpr
      (hstrong.mono hm.nonNeg hsub hset.subset)
  · exact h.downward_take hids (le_max_left _ _) hid hx hnot
  · rintro ⟨id, hid, hne⟩
    have hlt := h.lt_of_suspected hids hid hne
    have hdrop : (ids.take n).dropLast = ids.take (j - 1) := by
      rw [List.dropLast_eq_take, List.length_take, List.take_take]
      congr 1
      omega
    rw [hdrop]
    by_cases hone : j = 1
    · rw [hone]
      exact (Membership.haveQuorum_nil hm.readable hm.positive).1
    · exact hfalse (j - 1) (by omega) (by omega)

end Take

end BlacklistLeaderPolicy

namespace SuspicionLog

/-- The membership of a history is the last one it was reconfigured to. -/
theorem run_membership {P : Membership → Prop} {log : SuspicionLog} {cs : List PolicyCall}
    (hlog : P log.membership) (hcs : ∀ m, .reconfigure m ∈ cs → P m) : P (log.run cs).membership := by
  refine List.foldlRecOn (motive := fun log => P log.membership) cs call hlog
    fun log hlog c hc => ?_
  cases c with
  | suspect e node =>
    rw [call]
    split
    · exact hlog
    · exact hlog
  | reconfigure m => exact hcs m hc
  | roundTrip => exact hlog

/-- A node that is never named is never suspected. -/
theorem run_epochs_eq_zero {log : SuspicionLog} {cs : List PolicyCall} {id : NodeID}
    (hlog : log.epochs id = 0) (hcs : ∀ e, .suspect e id ∉ cs) : (log.run cs).epochs id = 0 := by
  refine List.foldlRecOn (motive := fun log => log.epochs id = 0) cs call hlog
    fun log hlog c hc => ?_
  cases c with
  | suspect e node =>
    have hne : id ≠ node := fun heq => hcs e (heq ▸ hc)
    rw [call]
    split
    · simpa [hne] using hlog
    · exact hlog
  | reconfigure m => simp [call, hlog]
  | roundTrip => exact hlog

end SuspicionLog

/-- **`Leaders` returns well-formed leaders** after every history of calls over proper memberships,
whatever order the sort leaves ties in. -/
theorem leaders_wellFormed (codec : PolicyCodec) (m : Membership) (cs : List PolicyCall)
    (hm : m.Proper) (hcs : ∀ m', .reconfigure m' ∈ cs → m'.Proper) :
    ∃ l, LeaderPolicy.run codec (.blacklist (.new m)) cs = .ok (.blacklist l) ∧
      ∀ ids, Arrangement l.le ((SuspicionLog.new m).run cs).membership.nodes.keys ids →
        ∃ ls, LeaderPolicy.leaders (.blacklist l) ids = .ok ls ∧
          WellFormedLeaders ((SuspicionLog.new m).run cs) ls ∧
          ∀ id ∈ ((SuspicionLog.new m).run cs).membership.nodes.keys,
            (∀ e, .suspect e id ∉ cs) → id ∈ ls := by
  obtain ⟨l, hrun, hl⟩ := records_run codec cs (BlacklistLeaderPolicy.records_new m)
  refine ⟨l, hrun, fun ids hids => ?_⟩
  obtain ⟨ls, hls, hwf⟩ := hl.wellFormedLeaders hids (SuspicionLog.run_membership hm hcs)
  refine ⟨ls, hls, hwf, fun id hid hnever => hwf.unsuspected id hid ?_⟩
  exact SuspicionLog.run_epochs_eq_zero rfl hnever

/-! ### Codecs exist -/

instance : Countable SimpleLeaderPolicy :=
  Function.Injective.countable (f := SimpleLeaderPolicy.membership) fun _ _ h =>
    congrArg SimpleLeaderPolicy.mk h

instance : Countable BlacklistLeaderPolicy := by
  refine Function.Injective.countable (f := fun l => (l.membership, l.suspected.map Finmap.entries))
    fun a b h => ?_
  obtain ⟨membership, suspected⟩ := a
  obtain ⟨membership', suspected'⟩ := b
  obtain ⟨hmembership, hsuspected⟩ := Prod.mk.inj h
  rw [show membership = membership' from hmembership,
    show suspected = suspected' from Option.map_injective (fun _ _ => Finmap.ext) hsuspected]

theorem exists_policyCodec : Nonempty PolicyCodec := by
  obtain ⟨simple, -⟩ := exists_prefixFree_codec (α := SimpleLeaderPolicy) (show (0 : UInt8) ≠ 1 by decide)
  obtain ⟨blacklist, -⟩ :=
    exists_prefixFree_codec (α := BlacklistLeaderPolicy) (show (0 : UInt8) ≠ 1 by decide)
  exact ⟨simple, blacklist⟩

/-- Leaders after suspicions of `b`, `c` and a node that is not a member. -/
theorem leaders_wellFormed_twoSuspected : ∃ codec l,
    LeaderPolicy.run codec (.blacklist (.new fourMembers))
      [.suspect 3 [98], .suspect 2 [120], .reconfigure fourMembers, .suspect 1 [99]] =
        .ok (.blacklist l) ∧
      ∃ ids ls, LeaderPolicy.leaders (.blacklist l) ids = .ok ls ∧ [97] ∈ ls := by
  obtain ⟨codec⟩ := exists_policyCodec
  obtain ⟨l, hrun, hleaders⟩ := leaders_wellFormed codec fourMembers
    [.suspect 3 [98], .suspect 2 [120], .reconfigure fourMembers, .suspect 1 [99]]
    fourMembers_proper (by simp [fourMembers_proper])
  obtain ⟨ids, hids⟩ := exists_arrangement l.totalPreorder_le ((SuspicionLog.new fourMembers).run
    [.suspect 3 [98], .suspect 2 [120], .reconfigure fourMembers, .suspect 1 [99]]).membership.nodes.keys
  obtain ⟨ls, hls, -, hnever⟩ := hleaders ids hids
  exact ⟨codec, l, hrun, ids, ls, hls, hnever [97] (by decide +kernel) (by simp)⟩

end Mir.Iss
