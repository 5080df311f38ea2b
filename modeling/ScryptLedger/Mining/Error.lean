import ScryptLedger.Block.Version
import ScryptLedger.Pow.Retarget

/-!
# Why a block cannot be made
-/

namespace ScryptLedger

inductive MiningError where
  | difficulty (error : RetargetError)
  | version (error : VersionError)
  | timeOutOfRange (time : Int)
  | nonceSpaceExhausted
deriving DecidableEq, Repr

namespace MiningError

/-- The wording of each cause, after the class it belongs to. -/
def message : MiningError → String
  | difficulty error => "Invalid proof of work: " ++ error.message
  | version error => "Consensus rule violation: " ++ error.message
  | timeOutOfRange time => s!"Block validation failed: block time {time} out of range"
  | nonceSpaceExhausted => "Invalid proof of work: nonce space exhausted"

end MiningError

end ScryptLedger
