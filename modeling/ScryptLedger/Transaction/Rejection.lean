import ScryptLedger.Transaction.Check
import ScryptLedger.Transaction.Inputs

/-!
# Why transactions are refused

A pool refuses a transaction for a fault of its own, for the coins it spends,
for its scripts, or because of what the pool holds already. Scripts that only
break the rules of relay are told apart from scripts that no block may contain.
-/

namespace ScryptLedger

inductive TxRejection where
  /-- The bytes are no transaction. -/
  | undecodable
  | invalid (fault : TxFault)
  | coinbase
  | inputs (error : TxInputsError)
  /-- A script fails under the rules of blocks. -/
  | mandatoryScript (error : ScriptError)
  /-- A script fails under the rules of relay only. -/
  | nonMandatoryScript (error : ScriptError)
  | alreadyInMempool
  | mempoolConflict
deriving DecidableEq, Repr

namespace TxRejection

def message : TxRejection → String
  | undecodable => "TX decode failed"
  | invalid fault => fault.message
  | coinbase => "coinbase"
  | inputs error => error.message
  | mandatoryScript error => "mandatory-script-verify-flag-failed (" ++ error.message ++ ")"
  | nonMandatoryScript error => "non-mandatory-script-verify-flag (" ++ error.message ++ ")"
  | alreadyInMempool => "txn-already-in-mempool"
  | mempoolConflict => "txn-mempool-conflict"

/-- The number that callers over the network are given. -/
def code : TxRejection → Int
  | inputs .missingOrSpent => -25
  | alreadyInMempool => -27
  | _ => -26

end TxRejection

end ScryptLedger
