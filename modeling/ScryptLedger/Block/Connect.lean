import Std.Data.ExtTreeSet
import ScryptLedger.Block.Check
import ScryptLedger.Block.Coins
import ScryptLedger.Block.Policy
import ScryptLedger.Coinbase

/-!
# Connecting a block to a coin set

A block may spend any coin of the set and any of its own outputs, each once and
in any order of its transactions. While it is checked, the coins are seen
through a view that leaves the set alone; only a block that passes every check
is applied.
-/

namespace ScryptLedger

/-- The coins as the transactions of a block see them. -/
structure BlockView where
  base : CoinSet
  /-- What the block creates; it hides what the set holds at the same outpoint. -/
  created : CoinSet
  /-- What the block has spent so far. -/
  spent : Std.ExtTreeSet OutPoint compare

namespace BlockView

def coin (view : BlockView) : CoinView := fun outpoint =>
  if view.spent.contains outpoint then none
  else (view.created.view outpoint).or (view.base.view outpoint)

def spend (view : BlockView) (outpoints : List OutPoint) : BlockView :=
  { view with spent := outpoints.foldl (fun spent outpoint => spent.insert outpoint) view.spent }

def start [Primitives] (coins : CoinSet) (block : Block) (height : Nat) : BlockView :=
  ⟨coins, CoinSet.create ∅ (block.created height), ∅⟩

end BlockView

namespace Transaction

/-- The coins that the inputs spend, in order. -/
def spentCoins (tx : Transaction) (view : CoinView) : Option (List Coin) :=
  tx.inputs.mapM fun input => view input.outpoint

end Transaction

structure Connected where
  coins : CoinSet
  undo : Undo
  fees : Int
  sigChecks : Nat

namespace Block

/-- The fee of each transaction and the coins it spends, when they spend one after the other. -/
def spendAll (params : ChainParams) (height : Nat) (view : BlockView) :
    List Transaction → Except BlockRejection (List (Transaction × Int × List Coin))
  | [] => return []
  | tx :: rest =>
    match tx.fee view.coin params height with
    | .error error => throw (.inputs error)
    | .ok fee =>
      match tx.spentCoins view.coin with
      | none => throw (.inputs .missingOrSpent)
      | some coins => do
        let spends ← spendAll params height (view.spend (tx.inputs.map TxInput.outpoint)) rest
        return (tx, fee, coins) :: spends

variable [Primitives]

/-- The signature checks that the scripts of some transactions take together. -/
def verifyScripts (flags : ScriptFlags) :
    List (Transaction × Int × List Coin) → Except BlockRejection Nat
  | [] => return 0
  | (tx, _, coins) :: rest =>
    match tx.verifyScripts coins flags with
    | .error .sigChecksLimitExceeded => throw .txSigChecks
    | .error error => throw (.scriptCheckFailed error)
    | .ok checks => return checks + (← verifyScripts flags rest)

def checkReward (rules : Rules) (coinbase : Transaction) (previous : Hash) (fees : Int)
    (height : Nat) (winner : Option Bytes) : Except BlockRejection Unit := do
  Coinbase.check coinbase height rules.params
  let reward := Money.wrap (Subsidy.ofBlock height rules.params previous + fees)
  if coinbase.totalOutput > reward then throw .coinbaseAmount
  rules.checkPayouts coinbase reward height winner

/-- Checks a block at a height against a coin set, and applies it. -/
def connect (rules : Rules) (height : Nat) (winner : Option Bytes) (coins : CoinSet)
    (block : Block) : Except BlockRejection Connected := do
  block.check rules.params rules.config
  match block.transactions with
  | [] => throw .coinbaseMissing
  | coinbase :: others =>
    let spends ← spendAll rules.params height (BlockView.start coins block height) others
    let fees := Money.sum (spends.map fun (_, fee, _) => fee)
    let flags := rules.blockFlags height
    let sigChecks ← verifyScripts flags spends
    if flags.enforceSigChecks && maxBlockSigChecks rules.config.maxBlockSize < sigChecks then
      throw .tooManySigChecks
    checkReward rules coinbase block.header.previous fees height winner
    let (left, undo) := block.apply coins height
    return ⟨left, undo, fees, sigChecks⟩

end Block

end ScryptLedger
