import ScryptLedger.Coin
import ScryptLedger.Params
import ScryptLedger.Script.Verify

/-!
# Transactions and the coins they spend

Spending needs coins that exist and, where they come from a coinbase, are old
enough; amounts that add up; and scripts that agree.
-/

namespace ScryptLedger

inductive TxInputsError where
  | missingOrSpent
  | prematureSpend (depth : Int)
  | valuesOutOfRange
  | belowOutputs
deriving DecidableEq, Repr

def TxInputsError.message : TxInputsError → String
  | missingOrSpent => "bad-txns-inputs-missingorspent"
  | prematureSpend depth =>
    s!"bad-txns-premature-spend-of-coinbase, tried to spend coinbase at depth {depth}"
  | valuesOutOfRange => "bad-txns-inputvalues-outofrange"
  | belowOutputs => "bad-txns-in-belowout"

namespace Coin

/-- How deep a coin lies when it is spent at a height. -/
def depthAt (coin : Coin) (height : Nat) : Int := height - coin.height

def isSpendableAt (coin : Coin) (params : ChainParams) (height : Nat) : Bool :=
  !coin.isCoinbase || params.maturityDepth coin.height ≤ coin.depthAt height

end Coin

namespace Transaction

/-- The sum of `total` and the coins that inputs spend at a height. -/
def sumInputs (view : CoinView) (params : ChainParams) (height : Nat) (total : Int) :
    List TxInput → Except TxInputsError Int
  | [] => return total
  | input :: rest =>
    match view input.outpoint with
    | none => throw .missingOrSpent
    | some coin =>
      let value := coin.value.toInt
      let sum := Money.wrap (total + value)
      if !coin.isSpendableAt params height then throw (.prematureSpend (coin.depthAt height))
      else if !inMoneyRange value || !inMoneyRange sum then throw .valuesOutOfRange
      else sumInputs view params height sum rest

def fee (tx : Transaction) (view : CoinView) (params : ChainParams) (height : Nat) :
    Except TxInputsError Int := do
  let spent ← sumInputs view params height 0 tx.inputs
  if spent < tx.totalOutput then throw .belowOutputs
  else return Money.wrap (spent - tx.totalOutput)

def maxSigChecks : Nat := 3000

variable [Primitives]

/-- The signature checks of the inputs from number `index` on, each with the coin it spends. -/
def verifyInputs (tx : Transaction) (midstate : Sighash.Midstate) (flags : ScriptFlags)
    (index : Nat) : List (TxInput × Coin) → Except ScriptError Nat
  | [] => return 0
  | (input, coin) :: rest => do
    let spend : Spend := ⟨tx, index, coin.value, midstate⟩
    let checks ← Script.verify input.scriptSig coin.scriptPubKey flags spend
    return checks + (← verifyInputs tx midstate flags (index + 1) rest)

/-- Runs the script of every input with the coin at its place in `coins`, and counts the
signature checks. -/
def verifyScripts (tx : Transaction) (coins : List Coin) (flags : ScriptFlags) :
    Except ScriptError Nat :=
  if coins.length ≠ tx.inputs.length then throw .unknown
  else do
    let checks ← verifyInputs tx (Sighash.Midstate.of tx) flags 0 (tx.inputs.zip coins)
    if flags.enforceSigChecks && maxSigChecks < checks then throw .sigChecksLimitExceeded
    else return checks

end Transaction

end ScryptLedger
