import ScryptLedger.Block.Codec
import ScryptLedger.Mining.Error
import ScryptLedger.Pow.Target

/-!
# Looking for work

A miner tries one nonce after the other until the header meets its own target.
-/

namespace ScryptLedger.BlockHeader

variable [Primitives]

/-- Whether a header does its own work. -/
def isSolved (header : BlockHeader) (params : ChainParams) : Bool :=
  Target.isMet header.proofHash header.bits params.powLimit

/-- The header with the first good nonce among `tries` further ones. -/
def solveWithin (params : ChainParams) : (tries : Nat) → BlockHeader → Option BlockHeader
  | 0, header => if header.isSolved params then some header else none
  | tries + 1, header =>
    if header.isSolved params then some header
    else solveWithin params tries { header with nonce := header.nonce + 1 }

def solve (header : BlockHeader) (params : ChainParams) : Except MiningError BlockHeader :=
  match solveWithin params (0xffffffff - header.nonce.toNat) header with
  | some solved => return solved
  | none => throw .nonceSpaceExhausted

end ScryptLedger.BlockHeader
