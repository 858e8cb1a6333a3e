import Mir.ThreshCrypto.Tbls

/-!
# Marshalling of threshold keys

What `MarshalTo` writes for an instance is its `format`, and `UnmarshalFrom` reads it back from the front
of any stream, counting the bytes that were counted when it was written. But the instance that it sets
keeps its own members: `UnmarshalFrom` reads the members into a variable that it does not use. A new
instance has no members, so that it rejects the signature shares of all nodes:
`restored_without_members`. The key material survives if and only if the instance that is restored already
has the members of the original: `marshalling_survives_iff`.
-/

namespace Mir.ThreshCrypto

open Streaming

variable {K : Suite}

/-! ### Integers -/

/-- Eight bytes determine the integer. -/
theorem int64OfBytes_int64Bytes (v : Int64) : int64OfBytes (int64Bytes v) = v := by
  have hvalue : (int64Bytes v).foldl (fun acc b => 256 * acc + b.toNat) 0 = v.toUInt64.toNat := by
    have hlt := v.toUInt64.toNat_lt
    rw [int64Bytes, List.foldl_reverse]
    generalize hn : v.toUInt64 = n at hlt ⊢
    simp only [uint64ToBytes, List.range, List.range.loop, List.map_cons, List.map_nil,
      List.foldr_cons, List.foldr_nil, UInt8.toNat_ofNat']
    norm_num
    omega
  rw [int64OfBytes, hvalue, UInt64.ofNat_toNat, Int64.toInt64_toUInt64]

theorem length_int64Bytes (v : Int64) : (int64Bytes v).length = 8 := by
  rw [int64Bytes, List.length_reverse, length_uint64ToBytes]

theorem reads_unmarshalInt (v : Int64) : Reads unmarshalInt (int64Bytes v) v := by
  have h := Reads.bind_pure (f := int64OfBytes)
    (reads_readFull UnmarshalError.unexpectedEOF (length_int64Bytes v))
  rwa [int64OfBytes_int64Bytes] at h

/-! ### Counted lists -/

/-- The bytes of a list, after its length. -/
def counted {α : Type} (encode : α → Bytes) (l : List α) : Bytes :=
  int64Bytes (.ofNat l.length) ++ l.flatMap encode

/-- A counted list is read back, since the length of a slice is an `int`. -/
theorem reads_readSlice {α : Type} {element : Unmarshal α} {encode : α → Bytes} {l : List α}
    (hlen : l.length < 2 ^ 63) (h : ∀ a ∈ l, Reads element (encode a) a) :
    Reads (readSlice element (.ofNat l.length)) (l.flatMap encode) l := by
  have hnonneg : ¬ Int64.ofNat l.length < 0 := by
    rw [Int64.lt_iff_toInt_lt, Int64.toInt_ofNat_of_lt hlen]
    exact not_lt.mpr (Int.natCast_nonneg _)
  rw [readSlice, if_neg hnonneg, Int64.toNatClampNeg_ofNat_of_lt hlen]
  exact Reads.many h

theorem reads_readByte (b : UInt8) : Reads readByte [b] b :=
  fun _ _ => rfl

/-- The bytes of a string. -/
def stringBytes (v : GoString) : Bytes := counted (fun b => [b]) v

theorem reads_unmarshalString {v : GoString} (hlen : v.length < 2 ^ 63) :
    Reads unmarshalString (stringBytes v) v :=
  (reads_unmarshalInt _).bind (reads_readSlice hlen fun b _ => reads_readByte b)

theorem writes_marshalString (v : GoString) : Writes (marshalString v) (stringBytes v) :=
  (writes_write _).seq (Writes.forM fun _ _ => writes_write _)

theorem reads_unmarshalKyber {α : Type} (c : Marshaling α) (v : α) :
    Reads (unmarshalKyber c) (c.encode v) v := by
  have h : Reads (unmarshalKyber c) (c.encode v ++ []) v := by
    refine (reads_readFull _ (c.length_encode v)).bind ?_
    rw [c.decode_encode]
    exact reads_pure v
  rwa [List.append_nil] at h

/-! ### Instances -/

/-- What is written for an instance. -/
def format (K : Suite) (t : Int64) (members : MemberList) (pubPoly : PubPoly K.Point)
    (privShare : PriShare K.Scalar) : Bytes :=
  int64Bytes t ++ (int64Bytes (.ofNat members.nodes.length) ++
    (members.nodes.flatMap stringBytes ++ (K.points.encode pubPoly.b ++
      (int64Bytes (.ofNat pubPoly.commits.length) ++ (pubPoly.commits.flatMap K.points.encode ++
        (int64Bytes privShare.i ++ K.scalars.encode privShare.v))))))

theorem writes_marshalTo {inst : TBLSInst K} {pubPoly : PubPoly K.Point}
    {privShare : PriShare K.Scalar} (hpub : inst.pubPoly = some pubPoly)
    (hpriv : inst.privShare = some privShare) :
    Writes inst.marshalTo (format K inst.t inst.members pubPoly privShare) := by
  rw [TBLSInst.marshalTo, hpub, hpriv]
  refine (writes_write _).seq ((writes_write _).seq ((Writes.forM fun v _ =>
    writes_marshalString v).seq ?_))
  refine (writes_write _).seq ((writes_write _).seq ((Writes.forM fun v _ => writes_write _).seq ?_))
  exact (writes_write _).seq (writes_write _)

/-- **What was written is read back**, into the instance that is given. -/
theorem reads_unmarshalFrom (receiver : TBLSInst K) (t : Int64) (members : MemberList)
    {pubPoly : PubPoly K.Point} (privShare : PriShare K.Scalar)
    (hlen : pubPoly.commits.length < 2 ^ 63) :
    Reads receiver.unmarshalFrom (format K t members pubPoly privShare)
      { receiver with t := t, privShare := some privShare, pubPoly := some pubPoly } := by
  refine (reads_unmarshalInt _).bind ((reads_unmarshalInt _).bind ?_)
  refine (reads_readSlice members.length_lt fun v hv =>
    reads_unmarshalString (members.length_node_lt v hv)).bind ?_
  refine (reads_unmarshalKyber _ _).bind ((reads_unmarshalInt _).bind ?_)
  refine (reads_readSlice hlen fun v _ => reads_unmarshalKyber _ v).bind ?_
  exact (reads_unmarshalInt _).bind (reads_unmarshalKyber _ _).bind_pure

/-! ### Generated keys -/

/-- The restored instance is the original one, in its fields and in what it computes. -/
structure Agrees (orig restored : TBLSInst K) : Prop where
  t : restored.t = orig.t
  members : restored.members = orig.members
  pubPoly : restored.pubPoly = orig.pubPoly
  privShare : restored.privShare = orig.privShare
  signShare : ∀ msg, restored.signShare msg = orig.signShare msg
  verifyShare : ∀ msg sigShare nodeID,
    restored.verifyShare msg sigShare nodeID = orig.verifyShare msg sigShare nodeID
  verifyFull : ∀ msg sigFull, restored.verifyFull msg sigFull = orig.verifyFull msg sigFull
  recover : ∀ sigShares, restored.recover sigShares = orig.recover sigShares

theorem Agrees.refl (inst : TBLSInst K) : Agrees inst inst :=
  ⟨rfl, rfl, rfl, rfl, fun _ => rfl, fun _ _ _ => rfl, fun _ _ => rfl, fun _ => rfl⟩

/-- **An instance survives marshalling**: what it writes, followed by further bytes, is read into the
receiver, which consumes as many bytes as were reported to be written, and agrees with the original. -/
def Survives (orig receiver : TBLSInst K) (further : Bytes) : Prop :=
  ∃ w restored, orig.marshalTo ⟨[], 0⟩ = .ok ((), w) ∧
    receiver.unmarshalFrom ⟨w.contents ++ further, 0⟩ = .ok (restored, ⟨further, w.written⟩) ∧
    Agrees orig restored

section Generated

variable {t : Int64} {members : MemberList} {randSource : K.RandomStream} {insts : List (TBLSInst K)}
  {inst : TBLSInst K} (h : tbls12381Keygen K t members randSource = .ok insts) (hinst : inst ∈ insts)

include h hinst

/-- What key generation sets. -/
theorem keygen_spec : ∃ pubPoly privShare, inst = ⟨t, members, some privShare, some pubPoly⟩ ∧
    pubPoly.commits.length < 2 ^ 63 := by
  obtain ⟨poly, hpoly, h⟩ := Fallible.bind_eq_ok.mp h
  have hlen : (K.commit poly K.base).commits.length < 2 ^ 63 := by
    rw [K.length_commits hpoly]
    exact t.toNatClampNeg_lt
  obtain ⟨i, -, hi⟩ := FallibleLoop.exists_of_mem_mapM h hinst
  obtain ⟨privShare, -, hinst⟩ := Fallible.bind_eq_ok.mp hi
  exact ⟨_, privShare, (Except.ok.inj hinst).symm, hlen⟩

/-- The receiver keeps its own members. -/
theorem unmarshalFrom_marshalTo (receiver : TBLSInst K) (further : Bytes) :
    ∃ w, inst.marshalTo ⟨[], 0⟩ = .ok ((), w) ∧
      receiver.unmarshalFrom ⟨w.contents ++ further, 0⟩ =
        .ok ({ inst with members := receiver.members }, ⟨further, w.written⟩) := by
  obtain ⟨pubPoly, privShare, rfl, hlen⟩ := keygen_spec h hinst
  refine ⟨_, writes_marshalTo rfl rfl _, ?_⟩
  exact reads_unmarshalFrom receiver t members privShare hlen further 0

theorem members_of_survives {receiver : TBLSInst K} {further : Bytes}
    (hsurvives : Survives inst receiver further) : receiver.members = inst.members := by
  obtain ⟨w, restored, hwrite, hread, hagrees⟩ := hsurvives
  obtain ⟨w', hwrite', hread'⟩ := unmarshalFrom_marshalTo h hinst receiver further
  obtain rfl : w = w' := (Prod.mk.inj (Except.ok.inj (hwrite.symm.trans hwrite'))).2
  have hrestored := (Prod.mk.inj (Except.ok.inj (hread.symm.trans hread'))).1
  rw [hrestored] at hagrees
  exact hagrees.members

end Generated

/-- **Threshold key material survives marshalling** if and only if the instance into which it is read
already has the members of the original instance. -/
theorem marshalling_survives_iff (K : Suite) {t : Int64} {members : MemberList}
    {randSource : K.RandomStream} {insts : List (TBLSInst K)}
    (h : tbls12381Keygen K t members randSource = .ok insts) {inst : TBLSInst K}
    (hinst : inst ∈ insts) (receiver : TBLSInst K) (further : Bytes) :
    Survives inst receiver further ↔ receiver.members = inst.members := by
  refine ⟨members_of_survives h hinst, fun hmembers => ?_⟩
  obtain ⟨w, hwrite, hread⟩ := unmarshalFrom_marshalTo h hinst receiver further
  rw [hmembers] at hread
  exact ⟨w, inst, hwrite, hread, .refl inst⟩

/-- A suite over bytes, in which a share is the index of its node followed by the secret. -/
def byteSuite : Suite where
  Point := UInt8
  Scalar := UInt8
  SigPoint := UInt8
  PriPoly := List UInt8
  RandomStream := Unit
  KyberError := Unit
  points := ⟨⟨fun b => [b], List.head?, fun _ => List.head?_singleton⟩, 1, fun _ => rfl⟩
  scalars := ⟨⟨fun b => [b], List.head?, fun _ => List.head?_singleton⟩, 1, fun _ => rfl⟩
  base := 1
  pick := fun _ => (7, ())
  newPriPoly := fun t secret _ =>
    if t ≤ 0 then .error (.panic .indexOutOfRange) else .ok (List.replicate t.toNatClampNeg secret)
  commit := fun poly b => ⟨b, poly⟩
  shares := fun poly n => (List.range n).map fun i => ⟨.ofNat i, poly.headI⟩
  length_commits := by
    intro t secret rand poly b h
    split at h
    · cases h
    · cases h
      exact List.length_replicate
  sha256 := id
  sign := fun share _ => .ok [share.i.toUInt64.toUInt8, share.v]
  verifyPartial := fun _ _ _ => .ok ()
  verifyRecovered := fun _ _ _ => .ok ()
  shareIndex := fun share => share.head?.elim (.error ()) fun b => .ok (.ofNat b.toNat)
  shareValue := List.drop 1
  unmarshalSigPoint := List.head?
  recoverCommit := fun shares _ _ => (shares.head?.map PubShare.v).elim (.error ()) .ok
  marshalSigPoint := fun point => .ok [point]

def threeMembers : MemberList := ⟨[[97], [98], [99]], by decide, by decide⟩

/-- The instance that is generated for a member; two of them can sign. -/
def memberInst (i : Int64) : TBLSInst byteSuite :=
  ⟨2, threeMembers, some ⟨i, (7 : UInt8)⟩, some ⟨(1 : UInt8), [(7 : UInt8), (7 : UInt8)]⟩⟩

theorem keygen_threeMembers : tbls12381Keygen byteSuite 2 threeMembers () =
    .ok ([0, 1, 2].map memberInst) := rfl

/-- The instances of three members, each read into one with the same members. -/
theorem survives_with_members :
    tbls12381Keygen byteSuite 2 threeMembers () = .ok ([0, 1, 2].map memberInst) ∧
    ∀ inst ∈ [0, 1, 2].map memberInst,
      Survives inst { TBLSInst.zero with members := threeMembers } [5] := by
  refine ⟨keygen_threeMembers, fun inst hinst => ?_⟩
  refine (marshalling_survives_iff byteSuite keygen_threeMembers hinst _ _).mpr ?_
  obtain ⟨i, -, rfl⟩ := List.mem_map.mp hinst
  rfl

/-- An instance that is read into a new one loses its members. -/
theorem restored_without_members : ¬ ∀ (K : Suite) (t : Int64) (members : MemberList)
    (randSource : K.RandomStream) (insts : List (TBLSInst K)),
    tbls12381Keygen K t members randSource = .ok insts → ∀ inst ∈ insts, ∀ further,
      Survives inst .zero further := by
  intro hall
  have hsurvives := hall _ _ _ _ _ keygen_threeMembers (memberInst 0) List.mem_cons_self []
  have hmembers := members_of_survives keygen_threeMembers List.mem_cons_self hsurvives
  cases congrArg MemberList.nodes hmembers

end Mir.ThreshCrypto
