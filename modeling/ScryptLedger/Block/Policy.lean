import ScryptLedger.Block.Rejection
import ScryptLedger.Rules
import ScryptLedger.Subsidy

/-!
# Payouts a node insists on

A node may be configured to ask that a coinbase pays a share of the reward to
the miner fund, and another to the winner among the stakers, once that winner
is known. The genesis block owes nothing.
-/

namespace ScryptLedger

namespace Transaction

/-- Whether an output pays a script at least an amount. -/
def pays (tx : Transaction) (script : Bytes) (least : Int) : Bool :=
  tx.outputs.any fun output => least ≤ output.value.toInt && output.scriptPubKey == script

end Transaction

namespace Rules

/-- What a coinbase owes the miner fund out of a reward, if the node asks for it. -/
def minerFundDue (rules : Rules) (reward : Int) : Option (Bytes × Int) :=
  if rules.config.enableMinerFund then
    some (rules.params.minerFundScript, Subsidy.fundShare reward rules.params)
  else none

def stakingDue (rules : Rules) (reward : Int) (winner : Option Bytes) : Option (Bytes × Int) :=
  if rules.config.enableStakingRewards then
    winner.map fun script => (script, Subsidy.stakingShare reward rules.params)
  else none

def isPaid (coinbase : Transaction) : Option (Bytes × Int) → Bool
  | none => true
  | some (script, least) => coinbase.pays script least

def checkPayouts (rules : Rules) (coinbase : Transaction) (reward : Int) (height : Nat)
    (winner : Option Bytes) : Except BlockRejection Unit :=
  if height = 0 then return
  else if !isPaid coinbase (rules.minerFundDue reward) then throw .policyMinerFund
  else if !isPaid coinbase (rules.stakingDue reward winner) then throw .policyStakingReward
  else return

end Rules

end ScryptLedger
