import ScryptLedger.MergeMining
import ScryptLedger.Transaction.Check
import ScryptLedger.Transaction.Inputs

/-!
# Why blocks are refused

Each cause has a short reason, and some have a longer detail. A cause also
decides whether the peer that sent the block is to blame: a duplicate, a block
beside the tip and a breach of local policy are nobody's fault.
-/

namespace ScryptLedger

inductive BlockRejection where
  | highHash (error : AuxPowError)
  | badMerkleRoot
  | duplicateTransaction
  | badLength
  | coinbaseMissing
  | multipleCoinbase
  | coinbaseHeight
  | coinbaseLength
  | coinbaseAmount
  | transactionOrdering
  | tooManySigChecks
  | badTransaction (fault : TxFault)
  /-- One transaction alone takes too many signature checks. -/
  | txSigChecks
  | inputs (error : TxInputsError)
  | scriptCheckFailed (error : ScriptError)
  | unknownParent
  | parentNotTip
  | timeTooOld
  | badDifficultyBits
  | duplicate
  | policyMinerFund
  | policyStakingReward
deriving DecidableEq, Repr

namespace BlockRejection

def reason : BlockRejection → String
  | highHash _ => "high-hash"
  | badMerkleRoot => "bad-txnmrklroot"
  | duplicateTransaction => "bad-txns-duplicate"
  | badLength => "bad-blk-length"
  | coinbaseMissing => "bad-cb-missing"
  | multipleCoinbase => "bad-cb-multiple"
  | coinbaseHeight => "bad-cb-height"
  | coinbaseLength => "bad-cb-length"
  | coinbaseAmount => "bad-cb-amount"
  | transactionOrdering => "tx-ordering"
  | tooManySigChecks => "bad-blk-sigchecks"
  | badTransaction fault => fault.message
  | txSigChecks => "bad-txn-sigchecks"
  | inputs error => error.message
  | scriptCheckFailed _ => "blk-bad-inputs, parallel script check failed"
  | unknownParent => "bad-prevblk"
  | parentNotTip => "prev-blk-not-tip"
  | timeTooOld => "time-too-old"
  | badDifficultyBits => "bad-diffbits"
  | duplicate => "duplicate"
  | policyMinerFund => "policy-bad-miner-fund"
  | policyStakingReward => "policy-bad-staking-reward"

def detail : BlockRejection → String
  | highHash error => error.message
  | scriptCheckFailed error => (scriptCheckFailed error).reason ++ ": " ++ error.message
  | rejection => rejection.reason

/-- Whether the peer that sent the block is to blame. -/
def punishesPeer : BlockRejection → Bool
  | policyMinerFund | policyStakingReward | parentNotTip | duplicate => false
  | _ => true

end BlockRejection

end ScryptLedger
