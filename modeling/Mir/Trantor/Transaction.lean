import Mir.Checkpoint.Snapshot

/-!
# Transactions

`trantorpb.Transaction`, and the identifiers of transactions.
-/

namespace Mir

/-- The number a client gives to a transaction. -/
abbrev TxNo := UInt64

/-- The identifier of a transaction: its hash. -/
abbrev TxID := Bytes

/-- `trantorpb.Transaction`. -/
structure Transaction where
  clientID : Checkpoint.ClientID
  txNo : TxNo
  type : UInt64
  data : Bytes
  deriving DecidableEq

end Mir
