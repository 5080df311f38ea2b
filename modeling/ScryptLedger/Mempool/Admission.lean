import ScryptLedger.Chain.Basic
import ScryptLedger.Mempool.Basic
import ScryptLedger.Transaction.Rejection

/-!
# Admission to a pool

A pool admits a transaction that is sound on its own, spends nothing that
another one spends, and could stand in the next block: all its coins are
confirmed. Its scripts have to obey the rules of relay, which are stricter than
those of blocks; where only the stricter rules are broken, the rejection says
so.
-/

namespace ScryptLedger.Mempool

variable [Primitives] (pool : Mempool)

def checkScripts (tx : Transaction) (coins : List Coin) (rules : Rules) (height : Nat) :
    Except TxRejection Nat :=
  match tx.verifyScripts coins (rules.relayFlags height) with
  | .ok checks => return checks
  | .error relayError =>
    match tx.verifyScripts coins (rules.blockFlags height) with
    | .ok _ => throw (.nonMandatoryScript relayError)
    | .error blockError => throw (.mandatoryScript blockError)

/-- The fee and the signature checks of a transaction that is to stand in the next block. -/
def checkSpends (tx : Transaction) (chain : Chain) : Except TxRejection (Int × Nat) :=
  match tx.fee chain.coins.view chain.rules.params (chain.height + 1) with
  | .error error => throw (.inputs error)
  | .ok fee => do
    let coins := tx.inputs.filterMap fun input => chain.coins.view input.outpoint
    return (fee, ← checkScripts tx coins chain.rules (chain.height + 1))

def accept (tx : Transaction) (chain : Chain) : Except TxRejection Mempool := do
  let txid := tx.txid
  if pool.contains txid then throw .alreadyInMempool
  match tx.check with
  | .error fault => throw (.invalid fault)
  | .ok () => pure ()
  if tx.isCoinbase then throw .coinbase
  if tx.inputs.any fun input => (pool.spender? input.outpoint).isSome then throw .mempoolConflict
  let (fee, checks) ← checkSpends tx chain
  return pool.insert txid tx fee checks

omit [Primitives]

/-- Whether a transaction's coins still allow it to stand in the next block. -/
def isFundedBy (tx : Transaction) (chain : Chain) : Bool :=
  match tx.fee chain.coins.view chain.rules.params (chain.height + 1) with
  | .ok _ => true
  | .error _ => false

/-- The pool without the transactions whose coins are gone, and how many those were. -/
def removeInvalid (chain : Chain) : Mempool × Nat :=
  let stale :=
    (pool.entries.toList.filter fun (_, entry) => !isFundedBy entry.tx chain).map Prod.fst
  (stale.foldl remove pool, stale.length)

end ScryptLedger.Mempool
