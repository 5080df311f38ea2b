import ScryptLedger.Block.Rejection
import ScryptLedger.Config
import ScryptLedger.Transaction.Check

/-!
# Blocks on their own

What can be said about a block without knowing the chain: that its work is
done, that its header commits to its transactions, and that those stand in the
one order that is allowed. The first transaction is the only coinbase; the
others are sorted by their identities, which also rules out repetitions.
-/

namespace ScryptLedger

variable [Primitives]

def isStrictlyIncreasing : List Hash → Bool
  | first :: second :: rest => compare first second == .lt && isStrictlyIncreasing (second :: rest)
  | _ => true

namespace Block

/-- Checks that the first transaction is a coinbase and no other is one. -/
def checkSingleCoinbase : List Transaction → Except BlockRejection Unit
  | [] => throw .coinbaseMissing
  | coinbase :: others =>
    if !coinbase.isCoinbase then throw .coinbaseMissing
    else if others.any Transaction.isCoinbase then throw .multipleCoinbase
    else return

/-- Checks that the header commits to these transactions and to no others. -/
def checkMerkleRoot (block : Block) : Except BlockRejection Unit :=
  let (root, mutated) := Merkle.rootAndMutation block.txids
  if root ≠ block.header.merkleRoot then throw .badMerkleRoot
  else if mutated then throw .duplicateTransaction
  else return

def checkTransactions : List Transaction → Except BlockRejection Unit
  | [] => return
  | tx :: rest =>
    match tx.check with
    | .error fault => throw (.badTransaction fault)
    | .ok () => checkTransactions rest

def check (block : Block) (params : ChainParams) (config : NodeConfig) :
    Except BlockRejection Unit := do
  match MergeMining.checkHeader block.header block.auxpow params with
  | .error error => throw (.highHash error)
  | .ok () => pure ()
  if block.transactions.isEmpty then throw .coinbaseMissing
  checkMerkleRoot block
  checkSingleCoinbase block.transactions
  if block.encode.length > config.maxBlockSize then throw .badLength
  if !isStrictlyIncreasing block.txids.tail then throw .transactionOrdering
  checkTransactions block.transactions

end Block

end ScryptLedger
