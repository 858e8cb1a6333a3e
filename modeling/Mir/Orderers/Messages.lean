import Mir.Trantor.Membership

/-!
# Messages of the PBFT orderer

The message types of `pbftpb` as the handlers see them after decoding. A singular sub-message
may be absent, so it is an `Option`; the elements of a repeated field never are. A digest is a
`ByteSlice` where a handler tests it for `nil` or stores it in a map that marks entries with
`nil`, and plain `Bytes` where only its contents are read.
-/

namespace Mir.Orderers

/-- `ot.ViewNr`: a PBFT view number. -/
abbrev ViewNr := UInt64

/-- `pbftpb.Preprepare`. -/
structure Preprepare where
  sn : SeqNr
  view : ViewNr
  data : Bytes
  aborted : Bool
  deriving DecidableEq, Repr

/-- `pbftpb.Prepare`. -/
structure Prepare where
  sn : SeqNr
  view : ViewNr
  digest : ByteSlice
  deriving DecidableEq, Repr

/-- `pbftpb.Commit`. -/
structure Commit where
  sn : SeqNr
  view : ViewNr
  digest : ByteSlice
  deriving DecidableEq, Repr

/-- `pbftpb.PSetEntry`: the last value prepared for a sequence number. -/
structure PSetEntry where
  sn : SeqNr
  view : ViewNr
  digest : ByteSlice
  deriving DecidableEq, Repr

/-- `pbftpb.QSetEntry`: the last view in which a digest was preprepared. -/
structure QSetEntry where
  sn : SeqNr
  view : ViewNr
  digest : Bytes
  deriving DecidableEq, Repr

/-- `pbftpb.ViewChange`. -/
structure ViewChange where
  view : ViewNr
  pSet : List PSetEntry
  qSet : List QSetEntry
  deriving DecidableEq, Repr

/-- `pbftpb.SignedViewChange`. -/
structure SignedViewChange where
  viewChange : Option ViewChange
  signature : ByteSlice
  deriving DecidableEq, Repr

/-- `pbftpb.NewView`. -/
structure NewView where
  view : ViewNr
  viewChangeSenders : List NodeID
  signedViewChanges : List SignedViewChange
  preprepareSeqNrs : List SeqNr
  preprepares : List Preprepare
  deriving DecidableEq, Repr

/-- `pbftpb.Message`: the protocol messages exchanged by orderers. -/
inductive Message
  | preprepare (pp : Preprepare)
  | prepare (p : Prepare)
  | commit (c : Commit)
  | done (digests : List Bytes)
  | catchUpRequest (digest : ByteSlice) (sn : SeqNr)
  | catchUpResponse (resp : Option Preprepare)
  | signedViewChange (svc : SignedViewChange)
  | preprepareRequest (digest : ByteSlice) (sn : SeqNr)
  | missingPreprepare (pp : Option Preprepare)
  | newView (nv : NewView)
  deriving DecidableEq, Repr

/-- The messages that may wait in a backlog for a later view. -/
inductive BufferedMsg
  | preprepare (pp : Preprepare)
  | prepare (p : Prepare)
  | commit (c : Commit)
  deriving DecidableEq, Repr

/-- `getMsgView`. -/
def BufferedMsg.view : BufferedMsg → ViewNr
  | .preprepare pp => pp.view
  | .prepare p => p.view
  | .commit c => c.view

end Mir.Orderers
