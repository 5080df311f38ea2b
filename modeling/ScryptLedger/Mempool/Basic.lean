import Std.Data.ExtTreeMap
import ScryptLedger.Block.Coins

/-!
# Transactions that wait for a block

A pool holds transactions that no block contains yet, each under its identity,
and knows for every outpoint which of them spends it. No two spend the same
one. A transaction leaves when a block contains it, when a block spends what
it spends, or when its own coins are gone.
-/

namespace ScryptLedger

/-- A transaction in a pool, with what was found out when it was admitted. -/
structure MempoolEntry where
  tx : Transaction
  fee : Int
  size : Nat
  sigChecks : Nat
  /-- How many transactions were admitted before. -/
  sequence : Nat
deriving DecidableEq, Repr

structure Mempool where
  entries : Std.ExtTreeMap Hash MempoolEntry compare
  /-- The transaction that spends each outpoint. -/
  spenders : Std.ExtTreeMap OutPoint Hash compare
  nextSequence : Nat

namespace Mempool

def empty : Mempool := ⟨∅, ∅, 0⟩

variable (pool : Mempool)

def size : Nat := pool.entries.size

def contains (txid : Hash) : Bool := pool.entries.contains txid

def get? (txid : Hash) : Option MempoolEntry := pool.entries[txid]?

def spender? (outpoint : OutPoint) : Option Hash := pool.spenders[outpoint]?

/-- The transactions in the order in which they were admitted. -/
def transactions : List Transaction :=
  (pool.entries.values.mergeSort fun a b => a.sequence ≤ b.sequence).map MempoolEntry.tx

def insert (txid : Hash) (tx : Transaction) (fee : Int) (sigChecks : Nat) : Mempool where
  entries := pool.entries.insert txid ⟨tx, fee, tx.size, sigChecks, pool.nextSequence⟩
  spenders := tx.inputs.foldl (fun spenders input => spenders.insert input.outpoint txid)
    pool.spenders
  nextSequence := pool.nextSequence + 1

def forgetSpend (txid : Hash) (spenders : Std.ExtTreeMap OutPoint Hash compare)
    (input : TxInput) : Std.ExtTreeMap OutPoint Hash compare :=
  if spenders[input.outpoint]? = some txid then spenders.erase input.outpoint else spenders

def remove (txid : Hash) : Mempool :=
  match pool.get? txid with
  | none => pool
  | some entry =>
    { pool with
      entries := pool.entries.erase txid
      spenders := entry.tx.inputs.foldl (forgetSpend txid) pool.spenders }

/-- Removes a transaction and counts it, if it is there. -/
def evict (state : Mempool × Nat) (txid : Hash) : Mempool × Nat :=
  if state.1.contains txid then (state.1.remove txid, state.2 + 1) else state

def evictSpender (state : Mempool × Nat) (outpoint : OutPoint) : Mempool × Nat :=
  match state.1.spender? outpoint with
  | some txid => evict state txid
  | none => state

variable [Primitives]

/-- Makes room for a transaction of a block: it leaves the pool itself, and so does what spends
the same outpoints. -/
def evictFor (state : Mempool × Nat) (tx : Transaction) : Mempool × Nat :=
  tx.spent.foldl evictSpender (evict state tx.txid)

def removeForBlock (block : Block) : Mempool × Nat :=
  block.transactions.foldl evictFor (pool, 0)

end Mempool

end ScryptLedger
