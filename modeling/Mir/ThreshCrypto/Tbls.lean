import Mir.Trantor.Membership
import Mir.Lib.Codec
import Mir.Lib.StreamCodec

/-!
# Threshold signatures

`threshcrypto/tbls.go`: an instance of a threshold signature scheme of a member list holds the
threshold, the members, the public polynomial and the private share of one of the members. Instances
are created together by `TBLS12381Keygen`, written to a stream by `MarshalTo`, and read from it by
`UnmarshalFrom`.

The curve points, scalars and the scheme itself are those of the kyber library. They are a parameter,
`Suite`, of which the development uses that points and scalars are written in a fixed number of bytes
and read back. Numbers are written as 64-bit integers, most significant byte first.
-/

namespace Mir.ThreshCrypto

open Streaming

/-! ### The kyber library -/

/-- `kyber.Marshaling`: all values are written in the same number of bytes. -/
structure Marshaling (α : Type) extends Coding.Codec UInt8 α where
  size : ℕ
  length_encode : ∀ a, (encode a).length = size

/-- `share.PriShare`. -/
structure PriShare (Scalar : Type) where
  i : Int64
  v : Scalar

/-- `share.PubPoly`: the base point and the commitments to the coefficients. -/
structure PubPoly (Point : Type) where
  b : Point
  commits : List Point

/-- `share.PubShare`. -/
structure PubShare (SigPoint : Type) where
  i : Int64
  v : SigPoint

/-- The pairing, its groups and the threshold signature scheme. A polynomial of threshold `t` has `t`
coefficients. -/
structure Suite where
  Point : Type
  Scalar : Type
  SigPoint : Type
  PriPoly : Type
  RandomStream : Type
  KyberError : Type
  points : Marshaling Point
  scalars : Marshaling Scalar
  base : Point
  pick : RandomStream → Scalar × RandomStream
  newPriPoly : Int64 → Scalar → RandomStream → Fallible PriPoly
  commit : PriPoly → Point → PubPoly Point
  shares : PriPoly → ℕ → List (PriShare Scalar)
  length_commits : ∀ {t secret rand poly b}, newPriPoly t secret rand = .ok poly →
    (commit poly b).commits.length = t.toNatClampNeg
  sha256 : Bytes → Bytes
  sign : PriShare Scalar → Bytes → Except KyberError Bytes
  verifyPartial : PubPoly Point → Bytes → Bytes → Except KyberError Unit
  verifyRecovered : Point → Bytes → Bytes → Except KyberError Unit
  shareIndex : Bytes → Except KyberError Int64
  shareValue : Bytes → Bytes
  unmarshalSigPoint : Bytes → Option SigPoint
  recoverCommit : List (PubShare SigPoint) → Int64 → ℕ → Except KyberError SigPoint
  marshalSigPoint : SigPoint → Except KyberError Bytes

/-! ### Instances -/

/-- A slice of node IDs; the length of a slice or a string is an `int`. -/
structure MemberList where
  nodes : List NodeID
  length_lt : nodes.length < 2 ^ 63
  length_node_lt : ∀ node ∈ nodes, node.length < 2 ^ 63

/-- `TBLSInst`; `none` is a `nil` pointer. The scheme and the group of the signatures are those of the
suite; `pubPoly` is the field `public`. -/
structure TBLSInst (K : Suite) where
  t : Int64
  members : MemberList
  privShare : Option (PriShare K.Scalar)
  pubPoly : Option (PubPoly K.Point)

variable {K : Suite}

/-- An instance of which no field has been set. -/
def TBLSInst.zero : TBLSInst K := ⟨0, ⟨[], by decide, nofun⟩, none, none⟩

/-- `TBLS12381Keygen`. -/
def tbls12381Keygen (K : Suite) (t : Int64) (members : MemberList) (randSource : K.RandomStream) :
    Fallible (List (TBLSInst K)) := do
  let (secret, randSource) := K.pick randSource
  let privFull ← K.newPriPoly t secret randSource
  let pubPoly := K.commit privFull K.base
  let privShares := K.shares privFull members.nodes.length
  (List.range members.nodes.length).mapM fun i => do
    let privShare ← index privShares i
    return ⟨t, members, some privShare, some pubPoly⟩

/-! ### Signing and verifying -/

/-- The errors of the operations of an instance. -/
inductive TblsError (KyberError : Type)
  | kyber (e : KyberError)
  | anotherNode
  | notEnoughShares

/-- `digest`. -/
def digest (K : Suite) (data : List Bytes) : Bytes := K.sha256 data.flatten

/-- `slices.Index`. -/
def sliceIndex (l : List NodeID) (node : NodeID) : Int64 :=
  match l.idxOf? node with
  | some i => .ofNat i
  | none => -1

/-- What the library returns, among the errors of an instance. -/
def ofKyber {E α : Type} : Except E α → Except (TblsError E) α := Except.mapError .kyber

namespace TBLSInst

/-- `SignShare`. -/
def signShare (inst : TBLSInst K) (msg : List Bytes) :
    Fallible (Except (TblsError K.KyberError) Bytes) := do
  let privShare ← deref inst.privShare
  return ofKyber (K.sign privShare (digest K msg))

/-- `VerifyShare`. -/
def verifyShare (inst : TBLSInst K) (msg : List Bytes) (sigShare : Bytes) (nodeID : NodeID) :
    Fallible (Except (TblsError K.KyberError) Unit) :=
  match K.shareIndex sigShare with
  | .error e => .ok (.error (.kyber e))
  | .ok idx =>
    if idx ≠ sliceIndex inst.members.nodes nodeID then .ok (.error .anotherNode)
    else do
      let pubPoly ← deref inst.pubPoly
      return ofKyber (K.verifyPartial pubPoly (digest K msg) sigShare)

/-- `VerifyFull`. -/
def verifyFull (inst : TBLSInst K) (msg : List Bytes) (sigFull : Bytes) :
    Fallible (Except (TblsError K.KyberError) Unit) := do
  let pubPoly ← deref inst.pubPoly
  let key ← index pubPoly.commits 0
  return ofKyber (K.verifyRecovered key (digest K msg) sigFull)

/-- The loop of `Recover`: the shares that can be read, until there are enough of them. -/
def collectShares (K : Suite) (t : Int64) (pubShares : List (PubShare K.SigPoint)) :
    List Bytes → List (PubShare K.SigPoint)
  | [] => pubShares
  | sig :: rest =>
    match K.shareIndex sig, K.unmarshalSigPoint (K.shareValue sig) with
    | .ok i, some point =>
      let pubShares := pubShares ++ [⟨i, point⟩]
      if t.toInt ≤ pubShares.length then pubShares else collectShares K t pubShares rest
    | _, _ => collectShares K t pubShares rest

/-- `Recover`; making a slice of a negative capacity panics. -/
def recover (inst : TBLSInst K) (sigShares : List Bytes) :
    Fallible (Except (TblsError K.KyberError) Bytes) :=
  if inst.t < 0 then .error (.panic .indexOutOfRange)
  else
    let pubShares := collectShares K inst.t [] sigShares
    if pubShares.length < inst.t.toInt then .ok (.error .notEnoughShares)
    else .ok (ofKyber (do
      let commit ← K.recoverCommit pubShares inst.t inst.members.nodes.length
      K.marshalSigPoint commit))

end TBLSInst

/-! ### Marshalling -/

/-- The eight bytes of a 64-bit integer, most significant first. -/
def int64Bytes (v : Int64) : Bytes := (uint64ToBytes v.toUInt64).reverse

/-- The 64-bit integer of eight bytes, most significant first. -/
def int64OfBytes (bytes : Bytes) : Int64 :=
  (UInt64.ofNat (bytes.foldl (fun acc b => 256 * acc + b.toNat) 0)).toInt64

/-- `marshalInt`. -/
def marshalInt (v : Int64) : Write UInt8 Fault Unit := write (int64Bytes v)

/-- `marshalString`: the length and the bytes, one after the other. -/
def marshalString (v : GoString) : Write UInt8 Fault Unit := do
  marshalInt (.ofNat v.length)
  v.forM fun b => write [b]

/-- `marshalKyber`. -/
def marshalKyber {α : Type} (c : Marshaling α) (v : α) : Write UInt8 Fault Unit := write (c.encode v)

/-- `MarshalTo`. -/
def TBLSInst.marshalTo (inst : TBLSInst K) : Write UInt8 Fault Unit := do
  marshalInt inst.t
  marshalInt (.ofNat inst.members.nodes.length)
  inst.members.nodes.forM marshalString
  let pubPoly ← (deref inst.pubPoly : Fallible _)
  marshalKyber K.points pubPoly.b
  marshalInt (.ofNat pubPoly.commits.length)
  pubPoly.commits.forM (marshalKyber K.points)
  let privShare ← (deref inst.privShare : Fallible _)
  marshalInt privShare.i
  marshalKyber K.scalars privShare.v

/-- How `UnmarshalFrom` fails: the stream ends, the bytes are not a point or a scalar, or making a
slice of a negative length panics. -/
inductive UnmarshalError
  | unexpectedEOF
  | invalidElement
  | negativeLength

/-- A program that reads an instance. -/
abbrev Unmarshal := Read UInt8 UnmarshalError

/-- `unmarshalInt`; an `int` has 64 bits. -/
def unmarshalInt : Unmarshal Int64 := do
  let bytes ← readFull .unexpectedEOF 8
  return int64OfBytes bytes

/-- Make a slice and read its elements. -/
def readSlice {α : Type} (element : Unmarshal α) (length : Int64) : Unmarshal (List α) :=
  if length < 0 then fail .negativeLength else many element length.toNatClampNeg

/-- Read one byte. -/
def readByte : Unmarshal UInt8 := do
  let bytes ← readFull .unexpectedEOF 1
  match bytes with
  | b :: _ => return b
  | [] => fail .unexpectedEOF

/-- `unmarshalString`. -/
def unmarshalString : Unmarshal GoString := do
  let size ← unmarshalInt
  readSlice readByte size

/-- `unmarshalKyber`. -/
def unmarshalKyber {α : Type} (c : Marshaling α) : Unmarshal α := do
  let bytes ← readFull .unexpectedEOF c.size
  match c.decode bytes with
  | some v => return v
  | none => fail .invalidElement

/-- `UnmarshalFrom`: the instance with the fields that are set. The members are read, and not used. -/
def TBLSInst.unmarshalFrom (inst : TBLSInst K) : Unmarshal (TBLSInst K) := do
  let t ← unmarshalInt
  let nMembers ← unmarshalInt
  let _members ← readSlice unmarshalString nMembers
  let pubPoint ← unmarshalKyber K.points
  let pubCommitmentsLen ← unmarshalInt
  let pubCommitments ← readSlice (unmarshalKyber K.points) pubCommitmentsLen
  let i ← unmarshalInt
  let v ← unmarshalKyber K.scalars
  return { inst with t := t, privShare := some ⟨i, v⟩, pubPoly := some ⟨pubPoint, pubCommitments⟩ }

end Mir.ThreshCrypto
